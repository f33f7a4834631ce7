import RollTray.Config
import RollTray.World

/-!
# When a die rests

A die rests when its world has put it to sleep, or when its speed and its spin are below the
thresholds of the policy. A die that stays awake for longer than `dampingAfter` seconds is slowed
down, more for every further second, and after `forceSleepAfter` seconds it is put to sleep.
-/

namespace RollTray

structure Policy where
  linearThreshold : Num := .float 0.01
  angularThreshold : Num := .float 0.01
  dampingAfter : Num := .float 2
  dampingStep : Num := .float 0.5
  /-- None if no die is ever put to sleep. -/
  forceSleepAfter : Option Num := some (.float 10)
  deriving Repr, Inhabited

namespace Policy

def ofConfig (c : Config) : Policy where
  linearThreshold := .float c.linearThreshold
  angularThreshold := .float c.angularThreshold
  dampingAfter := .float c.dampingAfter
  dampingStep := .float c.dampingStep
  forceSleepAfter := c.forceSleepAfter.map Num.float

variable {ω : Type} [World ω]

def atRest (p : Policy) (w : ω) (handle : Nat) : Except Fault Bool := do
  if ← World.isSettled w handle then return true
  (← World.motion w handle).isSlower p.linearThreshold p.angularThreshold

/-- Whether a die that has been awake for so long is put to sleep. -/
def forcesSleep (p : Policy) (awakeFor : Num) : Bool :=
  match p.forceSleepAfter with
  | some limit => limit.le awakeFor
  | none => false

/-- The damping of a die that has been awake for so long. -/
def dampingFor (p : Policy) (awakeFor : Num) : Except Fault Num := do
  p.dampingStep.mul (← awakeFor.sub p.dampingAfter)

/-- What is done to a die that has been awake for so long. -/
def nudge (p : Policy) (handle : Nat) (awakeFor : Num) : Attempt ω Unit := do
  if p.forcesSleep awakeFor then World.sleep handle
  else if p.dampingAfter.lt awakeFor then World.damp handle (← p.dampingFor awakeFor)

end Policy

end RollTray
