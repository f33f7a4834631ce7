import RollTray.Json.Reader
import RollTray.Json.Writer
import RollTray.Tray.Rolling

/-!
# Snapshots

A snapshot is the tray as plain data: the history, the next id, which rolls are on the tray, every
die with its exact position and motion, and the dice that are still to be thrown. `snapshot` takes
one and `restore` puts one onto a tray, so that the same throw goes on instead of a new one. A
snapshot is read as a whole (`Saved.ofValue?`) before the tray is touched. Active rolls that are not
in history are passed over, and dice whose roll is not in history are dropped.
-/

namespace RollTray

namespace Throw

def toValue (w : Throw) : Value :=
  .object [("due", w.due), ("roll_id", w.roll), ("type", w.kind), ("group_index", w.group),
    ("logical_index", w.logical), ("tens", w.tens), ("index_in_roll", w.index),
    ("total_in_roll", w.total)]

/-- Reads a throw, which has exactly the fields of a throw. -/
def ofValue? : Value → Except Fault Throw
  | .object fields =>
    let throw? : Option Throw := do
      let due ← Value.lookup? "due" fields
      let roll ← Value.lookup? "roll_id" fields
      let kind ← Value.lookup? "type" fields
      let group ← Value.lookup? "group_index" fields
      let logical ← Value.lookup? "logical_index" fields
      let tens ← Value.lookup? "tens" fields
      let index ← Value.lookup? "index_in_roll" fields
      let total ← Value.lookup? "total_in_roll" fields
      return { due, roll, kind, group, logical, tens, index, total }
    match throw? with
    | some throw => if fields.length = 8 then .ok throw else .error .mistyped
    | none => .error .mistyped
  | _ => .error .mistyped

end Throw

/-- A die of a snapshot, which has no handle yet. -/
structure SavedDie where
  die : Die
  motion : Motion
  deriving Repr, Inhabited

namespace SavedDie

/-- The fields of a die and of its motion. -/
def toValue (s : SavedDie) : Value :=
  let d := s.die
  .object ([("type", d.kind), ("roll_id", d.roll), ("group_index", d.group),
    ("logical_index", d.logical), ("tens", d.tens), ("settled", .bool d.settled),
    ("value", d.value), ("awake_since", d.awakeSince)] ++ s.motion.toFields)

/-- A kind of dice that there is. -/
def readKind (v : Value) : Except Fault Value :=
  if DieKind.all.any fun kind => v.same (.text kind.name) then .ok v else .error .unreadable

def ofValue? (v : Value) : Except Fault SavedDie := do
  let kind ← readKind (← v.field "type")
  let roll ← (← v.field "roll_id").toInt
  let group ← (← v.field "group_index").toInt
  let logical ← (← v.field "logical_index").toInt
  let tens ← v.field "tens"
  let settled ← v.field "settled"
  let value ← v.field "value"
  let die : Die := {
    handle := 0
    kind
    roll := .int roll
    group := .int group
    logical := .int logical
    tens := .bool tens.truthy
    settled := settled.truthy
    value
    awakeSince := v.fieldD "awake_since" .null }
  return { die, motion := ← Motion.ofValue? v }

end SavedDie

/-- A snapshot that has been read. -/
structure Saved where
  nextId : Int
  watermark : Value
  clock : Float
  formula : String
  history : List Record
  dice : List SavedDie
  throws : List Throw
  /-- The records of the active rolls, by their places in history. -/
  active : List Nat
  deriving Repr, Inhabited

namespace Saved

/-- The place in history of the last record of an id. -/
def placeOf? (id : Value) (history : List Record) : Option Nat :=
  (history.zipIdx.findRev? fun r => r.1.id.sameKey id).map Prod.snd

/-- The places of the active rolls that are in history. -/
def readActive (history : List Record) (ids : List Value) : Except Fault (List Nat) := do
  let _ ← history.mapM fun r => r.id.asKey
  let places ← ids.mapM fun id => do return placeOf? (← id.asKey) history
  return places.reduceOption

/-- Reads a snapshot. The next id stays as it is if the snapshot does not say it. -/
def ofValue? (nextId : Int) (v : Value) : Except Fault Saved := do
  match v with
  | .object _ => do
    let nextId ← (v.fieldD "next_roll_id" (.int nextId)).toInt
    let watermark ← match v.fieldD "canceled_watermark" .null with
      | .null => pure Value.null
      | v => do pure (Value.int (← v.toInt))
    let clock ← (v.fieldD "clock" (.float 0)).toFloat
    let formula ← (v.fieldD "formula" (.text "")).shown
    let history ← (← (v.fieldD "roll_history" (.list [])).items).mapM Record.ofValue?
    let dice ← (← (v.fieldD "dice" (.list [])).items).mapM SavedDie.ofValue?
    let throws ← (← (v.fieldD "pending_spawns" (.list [])).items).mapM Throw.ofValue?
    let active ← readActive history (← (v.fieldD "active_rolls" (.list [])).items)
    return { nextId, watermark, clock, formula, history, dice, throws, active }
  | _ => throw .mistyped

end Saved

namespace Tray

variable {ω : Type} [World ω]

/-- A die with its motion. -/
def savedDie (t : Tray ω) (die : Die) : Except Fault SavedDie := do
  return { die, motion := ← World.motion t.world die.handle }

/-- The tray's dice with their motions. -/
def savedDice (t : Tray ω) : Except Fault (List SavedDie) :=
  t.dice.mapM t.savedDie

/-- The tray as plain data, given its dice and those that wait. -/
def snapshotOf (t : Tray ω) (dice : List Value) (throws : List Throw) : Value :=
  .object [("roll_history", .list (t.history.map fun r => r.record.toValue)),
    ("next_roll_id", .int t.nextId),
    ("canceled_watermark", t.watermark),
    ("clock", .float t.clock),
    ("formula", .text t.formula),
    ("active_rolls", .list t.activeIds),
    ("dice", .list dice),
    ("pending_spawns", .list (throws.map Throw.toValue))]

/-- The tray as plain data. -/
def snapshot (t : Tray ω) : Except Fault Value := do
  let dice ← t.savedDice
  return t.snapshotOf (dice.map SavedDie.toValue) (← t.waiting)

/-! ## Restoring -/

/-- Puts everything but the dice onto the tray. -/
def placeRolls (saved : Saved) (t : Tray ω) : Tray ω :=
  let history := saved.history.zipIdx.map fun (record, n) =>
    { serial := t.nextSerial + n, record : Roll }
  { t with
    nextId := saved.nextId
    watermark := saved.watermark
    clock := saved.clock
    formula := saved.formula
    history
    active := (saved.active.map fun n => history[n]?).reduceOption
    nextSerial := t.nextSerial + saved.history.length }

/-- Puts a die into the world, asleep if it has settled, and onto the tray. -/
def placeDie (s : SavedDie) : Attempt (Tray ω) Unit := do
  let handle ← withWorld (World.spawn s.die.kind s.die.tens (some s.motion))
  if s.die.settled then withWorld (World.sleep handle)
  track { s.die with handle }

/-- Puts a snapshot onto the tray. One that cannot be read leaves the tray as it is. -/
def restore (notify : Notify ω) (v : Value) : Attempt (Tray ω) Unit := do
  let saved ← Saved.ofValue? (← get).nextId v
  modify (placeRolls saved)
  saved.dice.forM placeDie
  saved.throws.forM addThrow
  prune notify

/-- The text of a snapshot, as it is kept in a file. -/
def save (t : Tray ω) : Except Fault String := do
  Json.write (.indented 2) (← t.snapshot)

/-- Restores the tray from the text of a file, if there is one, and says whether it did. A text
that holds no snapshot is ignored. -/
def load (notify : Notify ω) : Option String → Attempt (Tray ω) Bool
  | none => return false
  | some text =>
    match Json.read? text with
    | none => return false
    | some v => do
      let (answer, t) := (restore notify v).perform (← get)
      set t
      match answer with
      | .ok () => return true
      | .error .missing => return false
      | .error .mistyped => return false
      | .error .unreadable => return false
      | .error fault => throw fault

/-- An empty tray of the same configuration, in the same world without its bodies. Chance goes
on where it was. -/
def renewed (t : Tray ω) (faces : List Value) : Tray ω where
  world := World.emptied t.world faces
  config := t.config
  chance := t.chance
  journal := t.journal

end Tray

end RollTray
