import RollTray.Number.Binary

/-!
# The length of a vector

The square root of a sum of squares, computed without overflow and almost always rounded
correctly. The components are scaled by a power of two so that the largest lies between one half
and one. Each square is split into exact parts, which are summed with their rounding errors kept
aside; the root of the sum is then improved by one step of Newton's method, for which its own
square is taken from the sum in the same exact way.
-/

namespace RollTray

/-- A sum with the rounding errors of its three kinds of terms, which are added at the end. The
sum starts at one, so every term below one is small beside it and its rounding error is exact. -/
structure SquareSum where
  total : Float := 1
  high : Float := 0
  cross : Float := 0
  low : Float := 0

namespace SquareSum

/-- What the sum holds, without the one that it started from. -/
def value (s : SquareSum) : Float :=
  s.total - 1 + (s.high + s.cross + s.low)

/-- The upper and lower halves of a float's significand. -/
def split (x : Float) : Float × Float :=
  let t := x * 134217729
  let upper := t - (t - x)
  (upper, x - upper)

def addHigh (s : SquareSum) (x : Float) : SquareSum :=
  let total := s.total + x
  { s with total, high := s.high + ((s.total - total) + x) }

def addCross (s : SquareSum) (x : Float) : SquareSum :=
  let total := s.total + x
  { s with total, cross := s.cross + ((s.total - total) + x) }

def addLow (s : SquareSum) (x : Float) : SquareSum :=
  let total := s.total + x
  { s with total, low := s.low + ((s.total - total) + x) }

/-- Adds the square of a component. The square of the lower half is too small to reach the
total. -/
def addSquare (s : SquareSum) (x : Float) : SquareSum :=
  let (upper, lower) := split x
  let s := (s.addHigh (upper * upper)).addCross (2 * upper * lower)
  { s with low := s.low + lower * lower }

/-- Takes away the square of the root. -/
def dropSquare (s : SquareSum) (h : Float) : SquareSum :=
  let (upper, lower) := split h
  ((s.addHigh (-upper * upper)).addCross (-2 * upper * lower)).addLow (-lower * lower)

/-- The square root of the sum, improved by one step. -/
def root (s : SquareSum) : Float :=
  let h := s.value.sqrt
  h + (s.dropSquare h).value / (2 * h)

end SquareSum

/-- A power of two. -/
def powerOfTwo (e : Int) : Float :=
  nearest false (pow2 e.toNat) (pow2 (-e).toNat)

/-- The exponent of the power of two next above a positive number, or on it. -/
def binaryExponent (x : Float) : Int :=
  match FloatForm.of x with
  | .finite _ m q => (Nat.log2 m : Int) + 1 + q
  | _ => 0

/-- The length of a vector whose largest component is given, finite and not zero. If that is too
small to be scaled by a power of two, the components are divided by it. -/
def scaledLength (largest : Float) (xs : List Float) : Float :=
  let e := binaryExponent largest
  if -1023 ≤ e then
    let scale := powerOfTwo (-e)
    (xs.foldl (fun (s : SquareSum) x => s.addSquare (x * scale)) {}).root / scale
  else
    let s := xs.foldl (fun (s : SquareSum) x => s.addHigh (x / largest * (x / largest))) {}
    largest * (s.total - 1 + s.high).sqrt

/-- The length of a vector. An infinite component makes it infinite, whatever the others are. -/
def vectorLength (components : List Float) : Float :=
  let xs := components.map Float.abs
  let largest := xs.foldl (fun best x => if best < x then x else best) 0
  if largest.isInf then largest
  else if xs.any Float.isNaN then 0.0 / 0.0
  else if largest == 0 || xs.length ≤ 1 then largest
  else scaledLength largest xs

end RollTray
