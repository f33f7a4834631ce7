import RollTray.Value
import RollTray.Number.Length

/-!
# Motion

Where a body is and how it moves. The components of a saved motion are taken over as they are, so
they are loosely typed and each use of them says what it needs. `Motion.speed` and `Motion.spin`
are the lengths of the two velocities, and `Motion.fixed` shows a motion with six decimals.
-/

namespace RollTray

structure Motion where
  position : List Value
  /-- A quaternion, its real part last. -/
  orientation : List Value
  velocity : List Value
  angularVelocity : List Value
  deriving Repr, Inhabited

namespace Motion

/-- A vector of floats as components. -/
def vector (xs : List Float) : List Value :=
  xs.map Value.float

def zeroVector : List Value := vector [0, 0, 0]

/-- A body that rests upright in the middle of the floor. -/
def still : Motion where
  position := zeroVector
  orientation := vector [0, 0, 0, 1]
  velocity := zeroVector
  angularVelocity := zeroVector

/-- The motion of a body that has come to rest where it is. -/
def stopped (m : Motion) : Motion :=
  { m with velocity := zeroVector, angularVelocity := zeroVector }

/-- The length of a vector whose components are numbers. -/
def length (components : List Value) : Except Fault Float := do
  return vectorLength (← components.mapM fun v => do (← v.num).toFloat)

def speed (m : Motion) : Except Fault Float :=
  length m.velocity

def spin (m : Motion) : Except Fault Float :=
  length m.angularVelocity

/-- Whether speed and spin are below their limits. -/
def isSlower (speedLimit spinLimit : Num) (m : Motion) : Except Fault Bool := do
  if !(Num.float (← m.speed)).lt speedLimit then return false
  return (Num.float (← m.spin)).lt spinLimit

/-! ## Plain data -/

/-- The fields of a motion. -/
def toFields (m : Motion) : List (String × Value) :=
  [("position", .list m.position), ("orientation", .list m.orientation),
    ("velocity", .list m.velocity), ("angular_velocity", .list m.angularVelocity)]

/-- Reads a motion, all of whose fields must be there, out of plain data. -/
def ofValue? (v : Value) : Except Fault Motion := do
  let position ← (← v.field "position").items
  let orientation ← (← v.field "orientation").items
  let velocity ← (← v.field "velocity").items
  let angularVelocity ← (← v.field "angular_velocity").items
  return { position, orientation, velocity, angularVelocity }

/-- A number with six decimals; a zero has no sign. -/
def fixedNumber (x : Float) : Value :=
  let text := fixedText 6 x
  .text (if text = "-0.000000" then "0.000000" else text)

/-- Components with six decimals. -/
def fixedVector (components : List Value) : Except Fault Value := do
  return .list (← components.mapM fun v => do return fixedNumber (← (← v.num).toFloat))

/-- The fields of a motion with six decimals. -/
def fixed (m : Motion) : Except Fault (List (String × Value)) := do
  let position ← fixedVector m.position
  let orientation ← fixedVector m.orientation
  let velocity ← fixedVector m.velocity
  let angularVelocity ← fixedVector m.angularVelocity
  return [("position", position), ("orientation", orientation), ("velocity", velocity),
    ("angular_velocity", angularVelocity)]

end Motion

end RollTray
