import RollTray.Number.Binary
import RollTray.Text.Blank
import RollTray.Text.Digit

/-!
# Decimal text of floats

Three conversions between floats and decimal text.

* `Float.shortest` writes the fewest digits that read back as the same float and, of those, the
  digits nearest to its value; a tie goes to the even digit. Numbers from `1e-4` up to `1e16` are
  written positionally and always show a fraction, others with an exponent of at least two digits.
* `Float.fixed` rounds the exact value to a number of places, a half to the even digit.
* `readFloat` and `readInt` read a number out of a text: blanks around it, a sign, digits of any
  script with single underscores between them, and for floats a fraction, an exponent, or a name
  of infinity or of no number.
-/

namespace RollTray

/-- A positive number `significand · 2 ^ exponent` and the numbers that round to it, scaled so
that value and ends are whole over one denominator. -/
structure RoundingInterval where
  low : Nat
  value : Nat
  high : Nat
  denominator : Nat
  /-- The ends themselves round to the value: its significand is even. -/
  closed : Bool

/-- The interval around a finite float other than zero: half a gap on either side, where the gap
below a power of two is half as wide as the one above it. -/
def RoundingInterval.of (significand : Nat) (exponent : Int) : RoundingInterval :=
  let below := if significand = pow2 52 && -1074 < exponent then 1 else 2
  let up := pow2 (exponent - 2).toNat
  { low := (4 * significand - below) * up
    value := 4 * significand * up
    high := (4 * significand + 2) * up
    denominator := pow2 (2 - exponent).toNat
    closed := significand % 2 = 0 }

/-- Whether `digits · unit / scale` lies in the interval. -/
def RoundingInterval.holds (i : RoundingInterval) (digits unit scale : Nat) : Bool :=
  let point := digits * unit * i.denominator
  if i.closed then i.low * scale ≤ point && point ≤ i.high * scale
  else i.low * scale < point && point < i.high * scale

/-- The multiple of `10 ^ place` next to the value that reads back, if one does: the two
neighbours of the value are tried, and of two that do the nearer is taken. -/
def RoundingInterval.digitsAt? (i : RoundingInterval) (place : Int) : Option Nat :=
  let unit := pow10 place.toNat
  let scale := pow10 (-place).toNat
  let step := unit * i.denominator
  let target := i.value * scale
  let lower := target / step
  let twice := 2 * (target - lower * step)
  match i.holds lower unit scale, i.holds (lower + 1) unit scale with
  | true, true =>
    some (if twice < step || (twice = step && lower % 2 = 0) then lower else lower + 1)
  | true, false => some lower
  | false, true => some (lower + 1)
  | false, false => none

/-- The largest power of ten that is not above `num / den`, as an exponent, searched upwards from
an estimate that is not too large. -/
def decimalExponent (num den : Nat) : Int :=
  let estimate : Int := ((Nat.log2 num : Int) - Nat.log2 den - 1) * 30103 / 100000 - 1
  let reaches (e : Int) : Bool := den * pow10 e.toNat ≤ num * pow10 (-e).toNat
  go reaches estimate 4
where
  /-- The last of the next `steps` exponents that the number reaches. -/
  go (reaches : Int → Bool) (e : Int) : Nat → Int
    | 0 => e
    | steps + 1 => if reaches (e + 1) then go reaches (e + 1) steps else e

/-- The shortest digits and the place of the last of them, tried from one digit upwards. -/
def RoundingInterval.shortest (i : RoundingInterval) : Nat × Int :=
  let top := decimalExponent i.value i.denominator
  go top 17
where
  /-- Tries the counts of digits from `18 - left` to 17. -/
  go (top : Int) : Nat → Nat × Int
    | 0 => (0, 0)
    | left + 1 =>
      let place := top - (17 - (left + 1) : Nat)
      match i.digitsAt? place with
      | some digits => (digits, place)
      | none => go top left

/-- The digits without trailing zeros, the place of the last one moving with them. -/
def dropZeros (digits : Nat) (place : Int) : Nat × Int :=
  if h : digits ≠ 0 ∧ digits % 10 = 0 then dropZeros (digits / 10) (place + 1) else (digits, place)
termination_by digits
decreasing_by omega

/-- Digits with a point: positional where the first digit stands between the places `-4` and
`15`, in scientific notation elsewhere. -/
def layOut (digits : List Char) (place : Int) : List Char :=
  let point : Int := digits.length + place
  if -4 < point && point ≤ 16 then
    if point ≤ 0 then '0' :: '.' :: List.replicate point.natAbs '0' ++ digits
    else if 0 ≤ place then digits ++ List.replicate place.toNat '0' ++ ['.', '0']
    else digits.take point.toNat ++ '.' :: digits.drop point.toNat
  else
    let lead := match digits with
      | [] => []
      | [d] => [d]
      | d :: rest => d :: '.' :: rest
    let power := point - 1
    let size := Nat.toDigits 10 power.natAbs
    let padded := if size.length < 2 then '0' :: size else size
    lead ++ 'e' :: (if power < 0 then '-' else '+') :: padded

/-- The shortest text that reads back as the float. -/
def shortestText (x : Float) : String :=
  match FloatForm.of x with
  | .notANumber => "nan"
  | .infinite negative => if negative then "-inf" else "inf"
  | .finite negative m q =>
    let size :=
      if m = 0 then ['0', '.', '0']
      else
        let (digits, place) := (RoundingInterval.of m q).shortest
        let (digits, place) := dropZeros digits place
        layOut (Nat.toDigits 10 digits) place
    String.ofList (if negative then '-' :: size else size)

/-- The value rounded to `places` digits after the point. -/
def fixedText (places : Nat) (x : Float) : String :=
  match FloatForm.of x with
  | .notANumber => "nan"
  | .infinite negative => if negative then "-inf" else "inf"
  | .finite negative m q =>
    let units := roundDiv (m * pow10 places * pow2 q.toNat) (pow2 (-q).toNat)
    let digits := Nat.toDigits 10 units
    let digits := List.replicate (places + 1 - digits.length) '0' ++ digits
    let whole := digits.take (digits.length - places)
    let size := whole ++ '.' :: digits.drop (digits.length - places)
    String.ofList (if negative then '-' :: size else size)

/-- The float nearest to `digits · 10 ^ place`. A number beyond the range of floats by more than a
few places is not written out. -/
def nearestDecimal (negative : Bool) (digits : Nat) (place : Int) : Float :=
  let top := (Nat.toDigits 10 digits).length + place
  if digits = 0 || top < -400 then nearest negative 0 1
  else if 400 < top then nearest negative (pow10 400) 1
  else nearest negative (digits * pow10 place.toNat) (pow10 (-place).toNat)

/-! ## Reading -/

/-- Whether the text goes on with an underscore between the last digit and the next. -/
def joinsDigits : List Char → Bool
  | '_' :: c :: _ => (Text.digit? c).isSome
  | _ => false

/-- A run of digits, of any script, in which a single underscore may stand between two digits:
their values, and the rest of the text. -/
def takeDigits : List Char → List Nat × List Char
  | [] => ([], [])
  | c :: cs =>
    match Text.digit? c with
    | none => ([], c :: cs)
    | some d =>
      let (ds, rest) := takeDigits (if joinsDigits cs then cs.drop 1 else cs)
      (d :: ds, rest)
termination_by cs => cs.length
decreasing_by
  split
  · simp only [List.length_drop, List.length_cons]
    omega
  · simp

/-- The number that digits write, most significant first. -/
def ofDigits (digits : List Nat) : Nat :=
  digits.foldl (fun n d => 10 * n + d) 0

/-- An optional sign: whether it is a minus, and what follows. -/
def takeSign : List Char → Bool × List Char
  | '-' :: cs => (true, cs)
  | '+' :: cs => (false, cs)
  | cs => (false, cs)

/-- An integer as it is written. -/
structure Numeral where
  negative : Bool
  digits : List Nat

def Numeral.value (n : Numeral) : Int :=
  if n.negative then -(ofDigits n.digits : Int) else ofDigits n.digits

/-- The integer that a whole text writes: a sign or none, and digits. -/
def readNumeral (cs : List Char) : Option Numeral :=
  let (negative, cs) := takeSign cs
  match takeDigits cs with
  | ([], _) => none
  | (digits, []) => some { negative, digits }
  | _ => none

/-- The most digits that the text of an integer may have. -/
def integerDigitLimit : Nat := 4300

/-- The integer that a text writes with blanks around it, of any length. -/
def writtenInt (text : String) : Option Int :=
  (readNumeral (Text.trimMargins text.toList)).map Numeral.value

/-- Reads an integer; none if the text is no integer or has too many digits. -/
def readInt (text : String) : Option Int :=
  match readNumeral (Text.trimMargins text.toList) with
  | some n => if integerDigitLimit < n.digits.length then none else some n.value
  | none => none

/-- What is read is what is written. -/
theorem writtenInt_of_readInt {text : String} {n : Int} (h : readInt text = some n) :
    writtenInt text = some n := by
  unfold readInt at h
  unfold writtenInt
  split at h
  · rename_i m hm
    rw [hm]
    split at h
    · cases h
    · exact h
  · cases h

/-- The exponent at the end of a decimal number, zero if the text ends here. -/
def readExponent : List Char → Option Int
  | [] => some 0
  | c :: cs => if c = 'e' || c = 'E' then (readNumeral cs).map Numeral.value else none

/-- Reads an unsigned decimal number, with or without a fraction and an exponent. -/
def readDecimal (negative : Bool) (cs : List Char) : Option Float :=
  let (whole, cs) := takeDigits cs
  let (fraction, cs) := match cs with
    | '.' :: cs => takeDigits cs
    | _ => ([], cs)
  if whole.isEmpty && fraction.isEmpty then none
  else (readExponent cs).map fun exponent =>
    nearestDecimal negative (ofDigits (whole ++ fraction)) (exponent - fraction.length)

/-- Reads a float; none if the text is no number. -/
def readFloat (text : String) : Option Float :=
  let (negative, cs) := takeSign (Text.trimMargins text.toList)
  let word := String.ofList (cs.map Text.toLowerAscii)
  if word = "inf" || word = "infinity" then
    some (if negative then -(1.0 / 0.0) else 1.0 / 0.0)
  else if word = "nan" then some (0.0 / 0.0)
  else readDecimal negative cs

end RollTray
