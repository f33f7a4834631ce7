/-!
# Binary64 values as exact numbers

A float is read as `± significand · 2 ^ exponent` (`FloatForm.of`), and the float nearest to a
fraction is found by exact integer arithmetic (`nearest`), ties going to the even significand and
fractions beyond the largest float to infinity. Everything that mixes integers and floats is built
on these two.
-/

namespace RollTray

/-- The powers of two. -/
def pow2 (n : Nat) : Nat := Nat.pow 2 n

/-- The powers of ten. -/
def pow10 (n : Nat) : Nat := Nat.pow 10 n

/-- What a float stands for. -/
inductive FloatForm where
  /-- The number `significand · 2 ^ exponent`, or its opposite. -/
  | finite (negative : Bool) (significand : Nat) (exponent : Int)
  | infinite (negative : Bool)
  | notANumber
  deriving DecidableEq, Repr

namespace FloatForm

/-- The fields of the interchange format: sign, eleven bits of exponent, 52 of fraction. -/
def of (x : Float) : FloatForm :=
  let bits := x.toBits.toNat
  let negative := bits / pow2 63 == 1
  let biased : Nat := bits / pow2 52 % pow2 11
  let fraction : Nat := bits % pow2 52
  if biased = 2047 then
    if fraction = 0 then .infinite negative else .notANumber
  else if biased = 0 then .finite negative fraction (-1074)
  else .finite negative (pow2 52 + fraction) ((biased : Int) - 1075)

/-- The integer nearest to a finite number on the side of zero. -/
def truncate : FloatForm → Option Int
  | finite negative m q =>
    let size := if q < 0 then m / pow2 q.natAbs else m * pow2 q.natAbs
    some (if negative then -(size : Int) else size)
  | _ => none

/-- A significand with its sign. -/
def signed (negative : Bool) (m : Nat) : Int :=
  if negative then -(m : Int) else m

/-- The largest integer that is not above a finite number. -/
def floor : FloatForm → Option Int
  | finite negative m q =>
    some (if q < 0 then (signed negative m).fdiv (pow2 q.natAbs)
      else signed negative m * pow2 q.natAbs)
  | _ => none

/-- Whether the number is a whole one. -/
def isWhole : FloatForm → Bool
  | finite _ m q => 0 ≤ q || m % pow2 q.natAbs == 0
  | _ => false

/-- What an integer stands for. -/
def ofInt (n : Int) : FloatForm :=
  finite (n < 0) n.natAbs 0

/-- How two numbers compare, finite ones over the smaller of their exponents; none if one of them
is not a number. -/
def compare? : FloatForm → FloatForm → Option Ordering
  | finite n m q, finite n' m' q' =>
    some (compare (signed n m * pow2 (q - min q q').toNat) (signed n' m' * pow2 (q' - min q q').toNat))
  | finite _ _ _, infinite negative => some (if negative then .gt else .lt)
  | infinite negative, finite _ _ _ => some (if negative then .lt else .gt)
  | infinite n, infinite n' => some (if n = n' then .eq else if n then .lt else .gt)
  | _, _ => none

end FloatForm

/-- `a / b` rounded to the nearest integer, a half to the even one. -/
def roundDiv (a b : Nat) : Nat :=
  let q := a / b
  let r := a % b
  if 2 * r < b then q else if b < 2 * r then q + 1 else q + q % 2

/-- The float nearest to `num / den`, or to its opposite. -/
def nearest (negative : Bool) (num den : Nat) : Float :=
  let sign := if negative then pow2 63 else 0
  if num = 0 then Float.ofBits (UInt64.ofNat sign)
  else
    let scale (q : Int) (round : Nat → Nat → Nat) : Nat :=
      if q < 0 then round (num * pow2 q.natAbs) den else round num (den * pow2 q.natAbs)
    let guess : Int := (Nat.log2 num : Int) - Nat.log2 den - 53
    let fits := scale guess (· / ·) < pow2 53
    let q := max (if fits then guess else guess + 1) (-1074)
    let m := scale q roundDiv
    let magnitude := if m < pow2 52 then m else (q + 1074).toNat * pow2 52 + m
    Float.ofBits (UInt64.ofNat (sign + min magnitude (2047 * pow2 52)))

/-- The float nearest to an integer; infinite if the integer is too large. -/
def nearestInt (n : Int) : Float :=
  nearest (n < 0) n.natAbs 1

end RollTray
