import RollTray.Fault
import RollTray.Number.Decimal

/-!
# Numbers

A number is an integer of any size or a float, and stays what it is: `4` is not `4.0`. Integers
are exact among themselves; an integer that meets a float in arithmetic becomes the nearest float
and overflows if it is too large for one. Comparisons never convert: they compare the numbers that
are meant, and nothing compares with a float that is no number.
-/

namespace RollTray

inductive Num where
  | int (n : Int)
  | float (x : Float)
  deriving DecidableEq, Repr, Inhabited

namespace Num

/-- The float nearest to the number. -/
def toFloat : Num → Except Fault Float
  | int n =>
    let x := nearestInt n
    if x.isInf then .error .overflow else .ok x
  | float x => .ok x

/-- Applies an operation of floats, which an integer operand enters as the nearest float. -/
def viaFloat (op : Float → Float → Float) (a b : Num) : Except Fault Num := do
  let x ← a.toFloat
  let y ← b.toFloat
  return float (op x y)

def add : Num → Num → Except Fault Num
  | int a, int b => .ok (int (a + b))
  | a, b => viaFloat (· + ·) a b

def sub : Num → Num → Except Fault Num
  | int a, int b => .ok (int (a - b))
  | a, b => viaFloat (· - ·) a b

def mul : Num → Num → Except Fault Num
  | int a, int b => .ok (int (a * b))
  | a, b => viaFloat (· * ·) a b

/-- What the number stands for. -/
def form : Num → FloatForm
  | int n => FloatForm.ofInt n
  | float x => FloatForm.of x

/-- How two numbers compare; none if one of them is no number. -/
def compare? : Num → Num → Option Ordering
  | int a, int b => some (compare a b)
  | a, b => FloatForm.compare? a.form b.form

def lt (a b : Num) : Bool := compare? a b == some .lt

def le (a b : Num) : Bool :=
  match compare? a b with
  | some .lt => true
  | some .eq => true
  | _ => false

/-- Equality of the numbers that are meant: `1` equals `1.0`. -/
def same (a b : Num) : Bool := compare? a b == some .eq

/-- The exact quotient, rounded to the nearest float. -/
def div : Num → Num → Except Fault Num
  | int a, int b =>
    if b = 0 then .error .zeroDivisor
    else
      let x := nearest ((a < 0) != (b < 0)) a.natAbs b.natAbs
      if x.isInf then .error .overflow else .ok (float x)
  | a, b =>
    if same b (int 0) then .error .zeroDivisor else viaFloat (· / ·) a b

/-- The number as an integer, if it is a whole float; otherwise as it is. -/
def tidy : Num → Num
  | int n => int n
  | float x =>
    let form := FloatForm.of x
    if form.isWhole then
      match form.truncate with
      | some n => int n
      | none => float x
    else float x

def isNaN (n : Num) : Bool :=
  n.form == .notANumber

/-- The float with the size of `x` and the sign of `y`. -/
def copySign (x y : Float) : Float :=
  Float.ofBits (UInt64.ofNat (x.toBits.toNat % pow2 63 + y.toBits.toNat / pow2 63 * pow2 63))

/-- The largest integer that is not above a float. -/
def floorOf (x : Float) : Except Fault Int :=
  match FloatForm.of x with
  | .notANumber => .error .unreadable
  | form =>
    match form.floor with
    | some n => .ok n
    | none => .error .overflow

/-- The number rounded to one decimal, a half away from zero, in float arithmetic: the size is
scaled by ten, raised by a half and cut. What is not finite stays as it is. -/
def roundTenths (value : Num) : Except Fault Num := do
  let x ← value.toFloat
  if x.isNaN || x.isInf then return value
  let size : Num := match value with
    | int n => int n.natAbs
    | float x => float x.abs
  let scaled ← (← (← size.mul (int 10)).add (float 0.5)).toFloat
  let tenths ← floorOf scaled
  let rounded ← (← (int tenths).div (int 10)).toFloat
  if rounded == 0 then return int 0
  return tidy (float (copySign rounded x))

/-- The sum of a list, added from the left to the integer zero. -/
def sum (ns : List Num) : Except Fault Num :=
  ns.foldlM add (int 0)

/-- The first of the largest numbers, where a later one counts as larger only if it compares so. -/
def maximum (n : Num) (ns : List Num) : Num :=
  ns.foldl (fun best m => if lt best m then m else best) n

/-- The first of the smallest numbers. -/
def minimum (n : Num) (ns : List Num) : Num :=
  ns.foldl (fun best m => if lt m best then m else best) n

/-- The number's text. -/
def text : Num → String
  | int n => Text.decimalOfInt n
  | float x => shortestText x

/-- An integer's text, if it has not too many digits. -/
def writeInt (n : Int) : Except Fault String :=
  if n.natAbs < pow10 integerDigitLimit then .ok (Text.decimalOfInt n) else .error .unreadable

/-- The integer on the side of zero. -/
def truncate : Num → Except Fault Int
  | int n => .ok n
  | float x =>
    match FloatForm.of x with
    | .notANumber => .error .unreadable
    | form =>
      match form.truncate with
      | some n => .ok n
      | none => .error .overflow

end Num

end RollTray
