import RollTray.World
import RollTray.Motion.Throwing

/-!
# The simulated world

Dice fly in straight lines over a floor, are stopped by the walls, lose speed in every step and
fall asleep once they are slow enough. Which face a die shows is drawn when it is thrown, and again
when it is knocked over. Handles count up and are never used twice.
-/

namespace RollTray

/-- A die in the simulated world. -/
structure SimulatedBody where
  kind : Value
  tens : Value
  motion : Motion
  face : Int
  /-- The share of its speed that the body loses in a second. -/
  damping : Num
  asleep : Bool := false
  deriving Repr, Inhabited

structure SimulatedWorld where
  chance : Chance := {}
  /-- The damping of bodies that nothing slows down any further. -/
  damping : Num := .float 3
  /-- Speed and spin below which a body falls asleep. -/
  sleepThreshold : Num := .float 0.01
  bodies : Bodies SimulatedBody := []
  nextHandle : Nat := 0
  deriving Repr, Inhabited

namespace SimulatedWorld

def gravity : Float := 9.81

/-- An attempt on the source of chance. -/
def withChance {α : Type} (a : Attempt Chance α) : Attempt SimulatedWorld α :=
  a.within SimulatedWorld.chance fun chance w => { w with chance }

/-- Changes the body of a handle. -/
def putBody (handle : Nat) (body : SimulatedBody) : Attempt SimulatedWorld Unit :=
  modify fun w => { w with bodies := w.bodies.set handle body }

/-- The body of a handle. -/
def bodyOf (handle : Nat) : Attempt SimulatedWorld SimulatedBody :=
  Attempt.ask fun w => w.bodies.get handle

/-- A throw from a random direction. -/
def drawMotion : Attempt Chance Motion := do
  let azimuth := (← Chance.draw) * Motion.pi * 2
  Motion.drawThrow (.int 0) (.int 1) (.float azimuth)

/-- Puts a die into the world. Its handle is used up even if its face cannot be drawn. -/
def spawn (kind tens : Value) (motion : Option Motion) : Attempt SimulatedWorld Nat := do
  let motion ← match motion with
    | some motion => pure motion
    | none => withChance drawMotion
  let handle := (← get).nextHandle
  modify fun w => { w with nextHandle := handle + 1 }
  let face ← withChance (Motion.drawFace kind tens)
  modify fun w =>
    { w with bodies := w.bodies ++ [(handle, { kind, tens, motion, face, damping := w.damping })] }
  return handle

def remove (handle : Nat) : Attempt SimulatedWorld Unit :=
  modify fun w => { w with bodies := w.bodies.erase handle }

/-! ## Time -/

/-- The three numbers of a list of attempts to read one. One more is read than is needed, to see
that there is none. -/
def three (components : List (Except Fault Num)) : Except Fault (Num × Num × Num) := do
  match ← (components.take 4).mapM id with
  | [x, y, z] => return (x, y, z)
  | _ => throw .unreadable

/-- A coordinate kept between the walls. -/
def clamp (x : Num) : Num :=
  Num.maximum (.float (-Motion.wallLimit)) [Num.minimum (.float Motion.wallLimit) [x]]

/-- A coordinate after moving for so many seconds. -/
def advance (dt : Num) (place : Value × Value) : Except Fault Num := do
  (← place.1.num).add (← (← place.2.num).mul dt)

/-- The share of its speed that a body keeps. -/
def decayOf (damping dt : Num) : Except Fault Num := do
  return Num.maximum (.float 0) [← (Num.float 1).sub (← damping.mul dt)]

/-- The motion of a body after so many seconds: it moves on, slows down and falls, and stops
falling at the floor. -/
def flown (dt damping : Num) (m : Motion) : Except Fault Motion := do
  let decay ← decayOf damping dt
  let slowed (v : Value) : Except Fault Num := do (← v.num).mul decay
  let (x, y, z) ← three ((m.position.zip m.velocity).map (advance dt))
  let (vx, vy, vz) ← three (m.velocity.map slowed)
  let vy ← vy.sub (← (Num.float gravity).mul dt)
  let landed := y.le (.int 0) && vy.lt (.int 0)
  let y := if landed then .float 0 else y
  let vy := if landed then .float 0 else vy
  let spins ← m.angularVelocity.mapM slowed
  return { m with
    position := [.ofNum (clamp x), .ofNum y, .ofNum (clamp z)]
    velocity := [.ofNum vx, .ofNum vy, .ofNum vz]
    angularVelocity := spins.map Value.ofNum }

/-- A body that is put to sleep. -/
def rested (damping : Num) (body : SimulatedBody) : SimulatedBody :=
  { body with asleep := true, damping, motion := body.motion.stopped }

/-- A body after so many seconds. One that sleeps stays as it is. -/
def stepBody (w : SimulatedWorld) (dt : Num) (body : SimulatedBody) :
    Except Fault SimulatedBody := do
  if body.asleep then return body
  let body := { body with motion := ← flown dt body.damping body.motion }
  let slow ← body.motion.isSlower w.sleepThreshold w.sleepThreshold
  return if slow then rested w.damping body else body

/-- Moves the bodies one after the other, up to the first that cannot be moved. -/
def stepBodies (w : SimulatedWorld) (dt : Num) :
    Bodies SimulatedBody → Except Fault Unit × Bodies SimulatedBody
  | [] => (.ok (), [])
  | (handle, body) :: rest =>
    match w.stepBody dt body with
    | .error fault => (.error fault, (handle, body) :: rest)
    | .ok body =>
      let (answer, rest) := w.stepBodies dt rest
      (answer, (handle, body) :: rest)

def step (dt : Num) : Attempt SimulatedWorld Unit := Attempt.of fun w =>
  let (answer, bodies) := w.stepBodies dt w.bodies
  (answer, { w with bodies })

/-! ## Single bodies -/

def damp (handle : Nat) (factor : Num) : Attempt SimulatedWorld Unit := do
  let damping ← (← get).damping.add factor
  putBody handle { ← bodyOf handle with damping }

def sleep (handle : Nat) : Attempt SimulatedWorld Unit := do
  putBody handle (rested (← get).damping (← bodyOf handle))

/-- How fast a die turns when it is knocked over. -/
def knockSpin : List Value := Motion.vector [5, 5, 5]

/-- Knocks a die over: it wakes up and will show a new face. -/
def disturb (handle : Nat) (velocity angularVelocity : List Value) :
    Attempt SimulatedWorld Unit := do
  let body ← bodyOf handle
  putBody handle { body with asleep := false }
  let face ← withChance (Motion.drawFace body.kind body.tens)
  let motion := { body.motion with velocity, angularVelocity }
  putBody handle { body with asleep := false, face, motion }

instance : World SimulatedWorld where
  spawn := spawn
  remove := remove
  step := step
  isSettled w handle := do return (← w.bodies.get handle).asleep
  face w handle := do return .int (← w.bodies.get handle).face
  motion w handle := do return (← w.bodies.get handle).motion
  damp := damp
  sleep := sleep
  handles w := w.bodies.handles
  emptied w _ := { w with bodies := [], nextHandle := 0 }

end SimulatedWorld

end RollTray
