import RollTray.Value
import RollTray.Text.Front

/-!
# Reading JSON text

Reads one JSON value that fills a text, with blanks around its parts. Beyond the standard it takes
the names `NaN`, `Infinity` and `-Infinity`. Numbers without a fraction or an exponent are integers
and exact, up to the limit on digits; others are the nearest floats. Control characters must be
escaped inside a text. Of two fields with one key the later value counts.
-/

namespace RollTray.Json

/-- The text without the blanks in front. -/
def skipSpace : List Char → List Char
  | [] => []
  | c :: cs => if c = ' ' || c = '\t' || c = '\n' || c = '\r' then skipSpace cs else c :: cs

/-! ## Numbers -/

/-- The text of a fraction, with its point, if one stands here. -/
def takeFraction : List Char → List Char × List Char
  | '.' :: c :: cs =>
    if Text.isDigit c then ((c :: cs).takeWhile Text.isDigit, (c :: cs).dropWhile Text.isDigit)
    else ([], '.' :: c :: cs)
  | cs => ([], cs)

/-- The exponent that stands here, if one does. -/
def takeExponent : List Char → Option Int × List Char
  | [] => (none, [])
  | e :: cs =>
    if e = 'e' || e = 'E' then
      let (negative, digits) := takeSign cs
      let size := digits.takeWhile Text.isDigit
      if size.isEmpty then (none, e :: cs)
      else
        let n : Int := Text.natOfDigits size
        (some (if negative then -n else n), digits.dropWhile Text.isDigit)
    else (none, e :: cs)

/-- The digits before the point: a zero alone, or digits that do not start with one. -/
def takeWhole : List Char → List Char × List Char
  | '0' :: cs => (['0'], cs)
  | cs => (cs.takeWhile Text.isDigit, cs.dropWhile Text.isDigit)

/-- A number after its sign. -/
def readNumber (negative : Bool) (cs : List Char) : Option (Value × List Char) :=
  let (whole, cs) := takeWhole cs
  if whole.isEmpty then none
  else
    let (fraction, cs) := takeFraction cs
    let (exponent, cs) := takeExponent cs
    if fraction.isEmpty && exponent.isNone then
      if integerDigitLimit < whole.length then none
      else
        let n : Int := Text.natOfDigits whole
        some (.int (if negative then -n else n), cs)
    else
      let place := exponent.getD 0 - fraction.length
      some (.float (nearestDecimal negative (Text.natOfDigits (whole ++ fraction)) place), cs)

/-! ## Texts -/

/-- The value of a hexadecimal digit. -/
def hexDigit? (c : Char) : Option Nat :=
  if '0' ≤ c && c ≤ '9' then some (c.toNat - 48)
  else if 'a' ≤ c && c ≤ 'f' then some (c.toNat - 87)
  else if 'A' ≤ c && c ≤ 'F' then some (c.toNat - 55)
  else none

/-- A code unit of four hexadecimal digits. -/
def takeUnit? : List Char → Option (Nat × List Char)
  | a :: b :: c :: d :: cs => do
    let a ← hexDigit? a
    let b ← hexDigit? b
    let c ← hexDigit? c
    let d ← hexDigit? d
    return (((a * 16 + b) * 16 + c) * 16 + d, cs)
  | _ => none

/-- The character of a code point; half a pair alone stands for no character and is replaced. -/
def charOf (n : Nat) : Char :=
  if 0xd800 ≤ n && n < 0xe000 then '\ufffd' else Char.ofNat n

/-- The character that the code units after `\u` stand for: one of them, or two that form a
pair. -/
def takeCodePoint? (cs : List Char) : Option (Char × List Char) := do
  let (high, cs) ← takeUnit? cs
  if 0xd800 ≤ high && high < 0xdc00 then
    match cs with
    | '\\' :: 'u' :: next =>
      match takeUnit? next with
      | some (low, rest) =>
        if 0xdc00 ≤ low && low < 0xe000 then
          return (Char.ofNat (0x10000 + (high - 0xd800) * 0x400 + (low - 0xdc00)), rest)
        else return (charOf high, cs)
      | none => return (charOf high, cs)
    | _ => return (charOf high, cs)
  else return (charOf high, cs)

/-- The character of an escape of one letter. -/
def escape? : Char → Option Char
  | '"' => some '"'
  | '\\' => some '\\'
  | '/' => some '/'
  | 'b' => some '\x08'
  | 'f' => some '\x0c'
  | 'n' => some '\n'
  | 'r' => some '\r'
  | 't' => some '\t'
  | _ => none

/-- The rest of a text after its opening quote, the characters read so far in reverse. -/
def readText : Nat → List Char → List Char → Option (String × List Char)
  | 0, _, _ => none
  | _, _, [] => none
  | fuel + 1, read, c :: cs =>
    if c = '"' then some (String.ofList read.reverse, cs)
    else if c.toNat < 32 then none
    else if c = '\\' then
      match cs with
      | 'u' :: cs =>
        match takeCodePoint? cs with
        | some (d, cs) => readText fuel (d :: read) cs
        | none => none
      | e :: cs =>
        match escape? e with
        | some d => readText fuel (d :: read) cs
        | none => none
      | [] => none
    else readText fuel (c :: read) cs

/-! ## Values -/

/-- The values that are written as a name. -/
def names : List (String × Value) :=
  [("null", .null), ("true", .bool true), ("false", .bool false), ("NaN", .notANumber),
    ("Infinity", .float (1.0 / 0.0)), ("-Infinity", .float (-(1.0 / 0.0)))]

/-- A value written as a name. -/
def readName (cs : List Char) : Option (Value × List Char) :=
  names.findSome? fun (name, value) => (Text.skip? name.toList cs).map (value, ·)

mutual

/-- A value at the start of a text. Each step takes a character, so the length of the text is
fuel enough. -/
def readValue : Nat → List Char → Option (Value × List Char)
  | 0, _ => none
  | fuel + 1, cs =>
    match cs with
    | '"' :: cs =>
      match readText (cs.length + 1) [] cs with
      | some (s, cs) => some (.text s, cs)
      | none => none
    | '[' :: cs =>
      match skipSpace cs with
      | ']' :: cs => some (.list [], cs)
      | cs =>
        match readItems fuel cs with
        | some (items, cs) => some (.list items, cs)
        | none => none
    | '\x7b' :: cs =>
      match skipSpace cs with
      | '\x7d' :: cs => some (.object [], cs)
      | cs =>
        match readFields fuel cs with
        | some (fields, cs) => some (Value.ofFields fields, cs)
        | none => none
    | cs =>
      match readName cs with
      | some found => some found
      | none =>
        match cs with
        | '-' :: cs => readNumber true cs
        | cs => readNumber false cs

/-- The items of a list from the first on, to its closing bracket. -/
def readItems : Nat → List Char → Option (List Value × List Char)
  | 0, _ => none
  | fuel + 1, cs =>
    match readValue fuel cs with
    | none => none
    | some (v, cs) =>
      match skipSpace cs with
      | ']' :: cs => some ([v], cs)
      | ',' :: cs =>
        match readItems fuel (skipSpace cs) with
        | some (vs, cs) => some (v :: vs, cs)
        | none => none
      | _ => none

/-- The fields of an object from the first on, to its closing brace. -/
def readFields : Nat → List Char → Option (List (String × Value) × List Char)
  | 0, _ => none
  | fuel + 1, cs =>
    match cs with
    | '"' :: cs =>
      match readText (cs.length + 1) [] cs with
      | none => none
      | some (key, cs) =>
        match skipSpace cs with
        | ':' :: cs =>
          match readValue fuel (skipSpace cs) with
          | none => none
          | some (v, cs) =>
            match skipSpace cs with
            | '\x7d' :: cs => some ([(key, v)], cs)
            | ',' :: cs =>
              match readFields fuel (skipSpace cs) with
              | some (fields, cs) => some ((key, v) :: fields, cs)
              | none => none
            | _ => none
        | _ => none
    | _ => none

end

/-- The value that a text holds; none if it is no JSON. -/
def read? (s : String) : Option Value :=
  let cs := skipSpace s.toList
  match readValue (2 * cs.length + 2) cs with
  | some (v, rest) => if (skipSpace rest).isEmpty then some v else none
  | none => none

end RollTray.Json
