import RollTray.Chance
import RollTray.Config
import RollTray.Dice.Resolution
import RollTray.Heap
import RollTray.World

/-!
# The tray

A tray holds a world with its dice, the history of rolls, the rolls that are active, and the dice
that are still to be thrown. It is generic in the world. `Tray.totalDice`, `Tray.settled` and
`Tray.latestResult` say what can be seen of it from outside.
-/

namespace RollTray

/-- A record on the tray. The serial number tells records apart that were saved with one id. -/
structure Roll where
  serial : Nat
  record : Record
  deriving Repr, Inhabited

namespace Roll

def id (r : Roll) : Value := r.record.id

/-- Writes a record into the roll if it has this serial number. -/
def put (serial : Nat) (record : Record) (r : Roll) : Roll :=
  if r.serial = serial then { r with record } else r

@[simp] theorem serial_put (serial : Nat) (record : Record) (r : Roll) :
    (r.put serial record).serial = r.serial := by
  unfold put
  split <;> rfl

theorem put_of_eq {serial : Nat} {r : Roll} (h : r.serial = serial) (record : Record) :
    r.put serial record = { r with record } :=
  if_pos h

theorem put_of_ne {serial : Nat} {r : Roll} (h : r.serial ≠ serial) (record : Record) :
    r.put serial record = r :=
  if_neg h

/-- A roll keeps its id if the record that is written into it has this id. -/
theorem id_put {serial : Nat} {record : Record} {r : Roll} (h : r.serial = serial → record.id = r.id) :
    (r.put serial record).id = r.id := by
  unfold put
  split
  · next hserial => exact h hserial
  · rfl

/-- The first roll of an id. -/
def find? (id : Value) (rolls : List Roll) : Option Roll :=
  rolls.find? fun r => r.id.same id

end Roll

/-- A die that waits for its throw. -/
structure Throw where
  /-- The clock's time from which it may be thrown. -/
  due : Value
  roll : Value
  kind : Value
  group : Value
  logical : Value
  tens : Value
  /-- Which of the roll's physical dice it is. -/
  index : Value
  /-- How many physical dice the roll has. -/
  total : Value
  deriving Repr, Inhabited

/-- Whether two throws are equal, field by field. -/
def Throw.same (a b : Throw) : Bool :=
  a.due.sameKey b.due && a.roll.sameKey b.roll && a.kind.sameKey b.kind &&
    a.group.sameKey b.group && a.logical.sameKey b.logical && a.tens.sameKey b.tens &&
    a.index.sameKey b.index && a.total.sameKey b.total

/-- What happens to a roll. -/
inductive Event where
  | started
  | resolved
  | canceled
  deriving DecidableEq, Repr

namespace Event

def all : List Event := [started, resolved, canceled]

def name : Event → String
  | started => "roll_started"
  | resolved => "roll_resolved"
  | canceled => "roll_canceled"

def ofName? (name : String) : Option Event :=
  all.find? fun event => event.name = name

end Event

/-- What a listener does with the roll that it is told of. -/
inductive Reaction where
  | none
  | cancel
  | clearTray
  | reroll
  | roll (formula : Value)
  deriving Repr, Inhabited

structure Listener where
  tag : Value
  /-- Whether it leaves after it was told once. -/
  once : Bool
  reaction : Reaction
  deriving Repr, Inhabited

/-- What is noted down of an event: that it happened, or that a listener was told. -/
inductive Notice where
  | happened (event : Event) (id result : Value)
  | told (tag id : Value)
  deriving Repr, Inhabited

structure Tray (ω : Type) where
  world : ω
  config : Config := {}
  /-- Where delays and directions of throws are drawn from. -/
  chance : Chance := {}
  nextId : Int := 0
  /-- Every roll, newest first. -/
  history : List Roll := []
  /-- The rolls whose dice are on the tray or are still to be thrown, oldest first. -/
  active : List Roll := []
  /-- The dice of rolls up to this id are not thrown any more; null if there is no such id. -/
  watermark : Value := .null
  clock : Float := 0
  /-- The formula that was rolled last. -/
  formula : String := ""
  /-- The dice that are still to be thrown, with the order in which they were added: a heap in which
  the ones that are due first come first, and of those due at one time the ones added first. -/
  pending : Array (Nat × Throw) := #[]
  nextThrow : Nat := 0
  /-- The dice on the tray, in the order in which they were thrown. -/
  dice : List Die := []
  nextSerial : Nat := 0
  listeners : Event → List Listener := fun _ => []
  /-- The notices so far, in their order. -/
  journal : List Notice := []

namespace Tray

variable {ω : Type}

def find? (t : Tray ω) (id : Value) : Option Roll :=
  Roll.find? id t.history

def isActive (t : Tray ω) (id : Value) : Bool :=
  (Roll.find? id t.active).isSome

def activeIds (t : Tray ω) : List Value :=
  t.active.map Roll.id

/-- The physical dice that are on the tray or still to be thrown for the active rolls. -/
def totalDice (t : Tray ω) : Except Fault Num :=
  t.active.foldlM (fun sum r => do sum.add (← r.record.expectedDice)) (.int 0)

/-- Whether nothing is left to throw and every active roll has its result. -/
def settled (t : Tray ω) : Bool :=
  t.pending.isEmpty && t.active.all fun r => r.record.resolved

/-- The result of the newest roll; null if it has none. -/
def latestResult (t : Tray ω) : Value :=
  match t.history with
  | [] => .null
  | r :: _ => r.record.result

/-- The dice of a roll. -/
def diceOf (t : Tray ω) (id : Value) : List Die :=
  t.dice.filter fun d => d.roll.same id

/-- Whether all dice of a roll are on the tray and have settled. -/
def isComplete (t : Tray ω) (r : Record) : Except Fault Bool := do
  let dice := t.diceOf r.id
  let expected ← r.expectedDice
  return expected.same (.int dice.length) && dice.all Die.settled

/-- Writes a roll's record wherever the roll stands. -/
def write (serial : Nat) (record : Record) (t : Tray ω) : Tray ω :=
  { t with
    history := t.history.map (Roll.put serial record)
    active := t.active.map (Roll.put serial record) }

theorem mem_write {serial : Nat} {record : Record} {t : Tray ω} {r : Roll} :
    r ∈ (t.write serial record).history ++ (t.write serial record).active ↔
      ∃ x ∈ t.history ++ t.active, x.put serial record = r := by
  rw [write, ← List.map_append, List.mem_map]

/-- An attempt on the world of the tray. -/
def withWorld {α : Type} (a : Attempt ω α) : Attempt (Tray ω) α :=
  a.within Tray.world fun world t => { t with world }

/-- An attempt on the tray's source of chance. -/
def withChance {α : Type} (a : Attempt Chance α) : Attempt (Tray ω) α :=
  a.within Tray.chance fun chance t => { t with chance }

/-! ## Dice that wait -/

/-- The order of throws: by their times, and at one time by the order in which they were added. A
throw that found no place among the others has the number of the next one; two throws of one number
have no order, unless they are equal. -/
def throwsBefore (a b : Nat × Throw) : Except Fault Bool :=
  if !a.2.due.sameKey b.2.due then a.2.due.lt b.2.due
  else if a.1 ≠ b.1 then .ok (a.1 < b.1)
  else if a.2.same b.2 then .ok false
  else .error .mistyped

/-- Adds a die to those that wait. If its time does not compare with those of the others the attempt
fails, but the die waits all the same. -/
def addThrow (throw : Throw) : Attempt (Tray ω) Unit := do
  (Heap.push throwsBefore ((← get).nextThrow, throw)).within Tray.pending
    fun pending t => { t with pending }
  modify fun t => { t with nextThrow := t.nextThrow + 1 }

/-- The dice that wait, in the order in which they will be thrown. -/
def waiting (t : Tray ω) : Except Fault (List Throw) := do
  return (← Order.sortBy throwsBefore t.pending.toList).map Prod.snd

/-! ## Dice on the tray -/

def track (d : Die) : Attempt (Tray ω) Unit :=
  modify fun t => { t with dice := t.dice ++ [d] }

variable [World ω]

/-- Takes some of the dice off the tray. -/
def takeOff (taken : Die → Bool) : Attempt (Tray ω) Unit := do
  (← get).dice.forM fun d => do
    if taken d then withWorld (World.remove d.handle)
  modify fun t => { t with dice := t.dice.filter fun d => !taken d }

/-- Takes the dice of a roll off the tray. -/
def removeDice (id : Value) : Attempt (Tray ω) Unit :=
  takeOff fun d => d.roll.same id

/-- Takes all dice off the tray. -/
def removeAllDice : Attempt (Tray ω) Unit :=
  takeOff fun _ => true

end Tray

end RollTray
