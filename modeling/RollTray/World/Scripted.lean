import RollTray.World

/-!
# The world moved by hand

Nothing moves by itself: a body is asleep or not, and shows the face that was set. Dice that are
put into the world take their faces from a list, and show one when it is used up. How a body was
damped last is remembered under its handle, also after the body is gone.
-/

namespace RollTray

/-- A die in the world moved by hand. -/
structure ScriptedBody where
  /-- Null if it cannot be read. -/
  face : Value
  asleep : Bool := false
  /-- How the body came into the world. -/
  start : Motion
  velocity : List Value
  angularVelocity : List Value
  deriving Repr, Inhabited

/-- How a body moves now. -/
def ScriptedBody.motion (body : ScriptedBody) : Motion :=
  if body.asleep then body.start.stopped
  else { body.start with velocity := body.velocity, angularVelocity := body.angularVelocity }

structure ScriptedWorld where
  /-- The faces of the dice that are still to come. -/
  faces : List Value := []
  bodies : Bodies ScriptedBody := []
  nextHandle : Nat := 0
  /-- How each handle was damped last, in ascending order of handles. -/
  damped : List (Nat × Num) := []
  deriving Repr, Inhabited

namespace ScriptedWorld

def bodyOf (handle : Nat) : Attempt ScriptedWorld ScriptedBody :=
  Attempt.ask fun w => w.bodies.get handle

def putBody (handle : Nat) (body : ScriptedBody) : Attempt ScriptedWorld Unit :=
  modify fun w => { w with bodies := w.bodies.set handle body }

/-- Puts a die into the world, with the next face. It moves along one axis until it is stopped. -/
def spawn (motion : Option Motion) : Attempt ScriptedWorld Nat := do
  let w ← get
  let body : ScriptedBody := {
    face := w.faces.headD (.int 1)
    start := motion.getD .still
    velocity := Motion.vector [1, 0, 0]
    angularVelocity := Motion.vector [1, 1, 1] }
  set { w with
    faces := w.faces.tail
    bodies := w.bodies ++ [(w.nextHandle, body)]
    nextHandle := w.nextHandle + 1 }
  return w.nextHandle

def remove (handle : Nat) : Attempt ScriptedWorld Unit := do
  let _ ← bodyOf handle
  modify fun w => { w with bodies := w.bodies.erase handle }

/-- Puts a number under a handle, among numbers in ascending order of handles. -/
def insertDamped (handle : Nat) (factor : Num) : List (Nat × Num) → List (Nat × Num)
  | [] => [(handle, factor)]
  | (other, x) :: rest =>
    if handle < other then (handle, factor) :: (other, x) :: rest
    else if handle = other then (handle, factor) :: rest
    else (other, x) :: insertDamped handle factor rest

def damp (handle : Nat) (factor : Num) : Attempt ScriptedWorld Unit :=
  modify fun w => { w with damped := insertDamped handle factor w.damped }

def sleep (handle : Nat) : Attempt ScriptedWorld Unit := do
  putBody handle { ← bodyOf handle with asleep := true }

/-! ## By hand -/

/-- Lays a body to rest, with a face if one is given. -/
def settle (handle : Nat) (face : Option Value) : Attempt ScriptedWorld Unit := do
  let body ← bodyOf handle
  putBody handle { body with face := face.getD body.face, asleep := true }

/-- Lays every body to rest. -/
def settleAll : Attempt ScriptedWorld Unit :=
  modify fun w =>
    { w with bodies := w.bodies.map fun body => (body.1, { body.2 with asleep := true }) }

/-- Knocks a body over so that it shows a face. -/
def knock (handle : Nat) (face : Value) : Attempt ScriptedWorld Unit := do
  putBody handle { ← bodyOf handle with face, asleep := false }

/-- Sets how a body moves while it is awake. -/
def push (handle : Nat) (velocity angularVelocity : List Value) : Attempt ScriptedWorld Unit := do
  putBody handle { ← bodyOf handle with velocity, angularVelocity }

/-- Adds faces for dice to come. -/
def addFaces (faces : List Value) : Attempt ScriptedWorld Unit :=
  modify fun w => { w with faces := w.faces ++ faces }

/-- The handle at an index among the bodies there are, counted round and round; none if there are
no bodies. -/
def handleAt? (w : ScriptedWorld) (index : Int) : Option Nat :=
  let handles := w.bodies.handles
  handles[(index.emod handles.length).toNat]?

instance : World ScriptedWorld where
  spawn _ _ motion := spawn motion
  remove := remove
  step _ := pure ()
  isSettled w handle := do return (← w.bodies.get handle).asleep
  face w handle := do return (← w.bodies.get handle).face
  motion w handle := do return (← w.bodies.get handle).motion
  damp := damp
  sleep := sleep
  handles w := w.bodies.handles
  emptied _ faces := { faces }

end ScriptedWorld

end RollTray
