import RollTray.Motion.Throwing
import RollTray.Settlement
import RollTray.Tray.Rolling

/-!
# The clock

In every tick the clock goes on, the dice that are due are thrown, the world moves, and all dice
are looked at (`watch`): one that has come to rest shows its face, one that was knocked over is on
its way again. A roll that had a die settle and is now complete gets its result (`finish`), so a
roll has its result in the tick in which its last die settles.
-/

namespace RollTray.Tray

variable {ω : Type} [World ω]

/-! ## Throwing -/

/-- Whether the dice of a roll are not thrown any more, given the watermark. -/
def isPast (watermark id : Value) : Except Fault Bool :=
  if watermark.isNull then .ok false else id.le watermark

/-- Throws a die onto the tray. -/
def release (throw : Throw) : Attempt (Tray ω) Unit := do
  let motion ← withChance (Motion.drawThrow throw.index throw.total (.float 0))
  let handle ← withWorld (World.spawn throw.kind throw.tens (some motion))
  let clock := (← get).clock
  track {
    handle
    kind := throw.kind
    roll := throw.roll
    group := throw.group
    logical := throw.logical
    tens := throw.tens
    awakeSince := .float clock }

/-- Throws a die, unless its roll was canceled since. -/
def throwDie (throw : Throw) : Attempt (Tray ω) Unit := do
  let t ← get
  if ← isPast t.watermark throw.roll then return ()
  else if t.isActive throw.roll then release throw

/-- Takes away the die that waits for the next throw. -/
def takeThrow : Attempt (Tray ω) Unit :=
  (Heap.pop throwsBefore).within Tray.pending fun pending t => { t with pending }

/-- Throws the die that waits for the next throw. -/
def throwNext (throw : Throw) : Attempt (Tray ω) Unit := do
  takeThrow
  throwDie throw

/-- Throws the dice that are due, of which there are at most so many. -/
def throwDue : Nat → Attempt (Tray ω) Unit
  | 0 => return ()
  | left + 1 => do
    let t ← get
    match t.pending[0]? with
    | none => return ()
    | some (_, throw) =>
      if ← throw.due.le (.float t.clock) then
        throwNext throw
        throwDue left

/-! ## Looking at the dice -/

/-- What is seen of a die. -/
inductive Sight where
  /-- Nothing new. -/
  | same
  /-- It has come to rest and shows a face. -/
  | settles (face : Value)
  /-- It moves. -/
  | moves
  deriving Repr

/-- Looks at a die. One whose roll has its result stays as it is when it is knocked over. -/
def look (p : Policy) (isFinal : Value → Bool) (w : ω) (d : Die) : Except Fault Sight := do
  if ← p.atRest w d.handle then
    if d.settled then return .same
    let face ← World.face w d.handle
    return if face.isNull then .same else .settles face
  else return if d.settled && isFinal d.roll then .same else .moves

/-- A die that has come to rest. -/
def settledOn (face : Value) (d : Die) : Die :=
  { d with settled := true, value := face, awakeSince := .null }

/-- A die that moves. One that had settled has lost its face. -/
def inFlight (now : Float) (d : Die) : Die :=
  { d with
    settled := false
    value := if d.settled then .null else d.value
    awakeSince := if d.awakeSince.isNull then .float now else d.awakeSince }

/-- Slows a die down that has been awake for too long. -/
def calm (p : Policy) (now : Float) (d : Die) : Attempt ω Unit := do
  p.nudge d.handle (← (Num.float now).sub (← d.awakeSince.num))

/-- Looks at dice one after the other: the rolls of those that have settled, in their order, and
the dice as they are now. The dice from the first that fails on stay as they were. -/
def pollDice (p : Policy) (isFinal : Value → Bool) (now : Float) :
    List Die → ω → Except Fault (List Value) × List Die × ω
  | [], w => (.ok [], [], w)
  | d :: rest, w =>
    match look p isFinal w d with
    | .error fault => (.error fault, d :: rest, w)
    | .ok .same =>
      let (answer, rest, w) := pollDice p isFinal now rest w
      (answer, d :: rest, w)
    | .ok (.settles face) =>
      let (answer, rest, w) := pollDice p isFinal now rest w
      (answer.map (d.roll :: ·), settledOn face d :: rest, w)
    | .ok .moves =>
      let d := inFlight now d
      match (calm p now d).perform w with
      | (.error fault, w) => (.error fault, d :: rest, w)
      | (.ok (), w) =>
        let (answer, rest, w) := pollDice p isFinal now rest w
        (answer, d :: rest, w)

/-- Whether a roll in history has its result. -/
def isFinal (t : Tray ω) (id : Value) : Bool :=
  match t.find? id with
  | some r => r.record.resolved
  | none => false

/-- Looks at all dice: the rolls of those that have settled. -/
def poll : Attempt (Tray ω) (List Value) := Attempt.of fun t =>
  let (answer, dice, world) :=
    pollDice (Policy.ofConfig t.config) t.isFinal t.clock t.dice t.world
  (answer, { t with dice, world })

/-! ## Results -/

/-- The ids of a list without those that equal an earlier one. -/
def distinct : List Value → List Value
  | [] => []
  | id :: rest => id :: (distinct rest).filter fun other => !other.same id

/-- Lets so many seconds pass for the clock, the dice that are due and the world. -/
def proceed (dt : Num) : Attempt (Tray ω) Unit := do
  let clock ← (← (Num.float (← get).clock).add dt).toFloat
  modify fun t => { t with clock }
  throwDue (← get).pending.size
  withWorld (World.step dt)

/-- Lets so many seconds pass and looks at the dice: the rolls of those that have settled. -/
def watch (dt : Num) : Attempt (Tray ω) (List Value) := do
  proceed dt
  poll

variable (notify : Notify ω)

/-- Gives a roll the result that its dice show; whether it did. -/
def conclude (id : Value) (r : Roll) : Attempt (Tray ω) Bool := do
  let (answer, record) := Dice.resolve r.record ((← get).diceOf id)
  modify (write r.serial record)
  if ← answer then
    notify .resolved record
    return true
  else return false

/-- Gives a roll its result if it is complete and has none; whether it did. The dice of a roll that
is not in history are taken off the tray. -/
def finish (id : Value) : Attempt (Tray ω) Bool := do
  let t ← get
  match t.find? id with
  | none => do
    removeDice id
    return false
  | some r => do
    if r.record.resolved then return false
    else if ← t.isComplete r.record then conclude notify id r
    else return false

/-- Gives the rolls their results that are complete, and says which. -/
def finishAll : List Value → Attempt (Tray ω) (List Value)
  | [] => return []
  | id :: rest => do
    let record := ((← get).find? id).map Roll.id
    let done ← finish notify id
    let later ← finishAll rest
    return if done then record.toList ++ later else later

/-- Lets so many seconds pass: the rolls that got their results, in the order of their ids. -/
def tick (dt : Num) : Attempt (Tray ω) (List Value) := do
  let ids ← Order.sortBy Value.lt (distinct (← watch dt))
  finishAll notify ids

/-- Ticks until every active roll has its result, at most so often: how often it ticked. -/
def run (dt : Num) (limit : Nat) : Attempt (Tray ω) Nat :=
  go 0 limit
where
  /-- Goes on after some ticks. -/
  go (ticks : Nat) : Nat → Attempt (Tray ω) Nat
    | 0 => return ticks
    | left + 1 => do
      if (← get).settled then return ticks
      discard (tick notify dt)
      go (ticks + 1) left

/-- The seconds between two ticks where nothing else is said. -/
def frame : Float := 1 / 60

/-- How often the tray ticks at most where nothing else is said. -/
def frameLimit : Nat := 100000

/-- Rolls a formula that somebody typed and lets the dice settle: what is to be said to them, if
anything. A blank formula is ignored. -/
def rollTyped (formula : String) : Attempt (Tray ω) (Option String) := do
  if Text.isAllBlank formula.toList then return none
  let (answer, t) := (roll notify formula).perform (← get)
  set t
  match answer with
  | .error (.formula reason) => return some reason.message
  | .error (.capacity reason) => return some reason.message
  | .error fault => throw fault
  | .ok _ => do
    discard (run notify (.float frame) frameLimit)
    return none

end RollTray.Tray
