import RollTray.Tray.Basic

/-!
# Rolling and canceling

A roll gets an id, goes to the front of the history and to the end of the active rolls, and its
dice are set to be thrown one shortly after the other. If the tray is too full, the oldest active
rolls are canceled until the new one fits; if the history is, its oldest roll is dropped.

Whoever listens to the tray may roll and cancel in turn, in the middle of an operation. So all
operations take what is to be done when something happens to a roll as a parameter, `notify`.

Making room has a bound, `patience`. Each round cancels an active roll, so without new ones there are no
more rounds than active rolls, and the bound is out of reach. It is met only if those who are told of a
cancellation roll anew each time, a thousand times over for one roll that is to fit; without the bound
such a roll would wait for room without end.
-/

namespace RollTray.Tray

variable {ω : Type}

/-- What is done when something happens to a roll. -/
abbrev Notify (ω : Type) := Event → Record → Attempt (Tray ω) Unit

/-! ## Canceling -/

/-- Whether an id comes before the ids of rolls, of which the first is the oldest one. -/
def isBefore (id : Value) : List Roll → Except Fault Bool
  | [] => .ok true
  | r :: _ => id.lt r.id

/-- The higher one of an id and a watermark, which is zero if it is not set. -/
def higher (id watermark : Value) : Except Fault Value := do
  return if ← id.lt watermark.orZero then watermark.orZero else id

/-- Sets the watermark to an id that was canceled, unless the watermark is higher or an older roll
is active. -/
def raiseWatermark (id : Value) : Attempt (Tray ω) Unit := do
  let t ← get
  if ← isBefore id t.active then
    set { t with watermark := ← higher id t.watermark }

variable [World ω] (notify : Notify ω)

/-- Takes a roll off the tray without a result: its dice are removed, and those that wait will not
be thrown. It stays in history. False if no such roll is active. -/
def cancel (id : Value) : Attempt (Tray ω) Bool := do
  match Roll.find? id (← get).active with
  | none => return false
  | some r => do
    modify fun t => { t with active := t.active.eraseP fun other => other.id.same id }
    raiseWatermark id
    removeDice id
    notify .canceled r.record
    return true

/-- Cancels some rolls, one after the other. -/
def cancelAll (rolls : List Roll) : Attempt (Tray ω) Unit :=
  rolls.forM fun r => discard (cancel notify r.id)

/-- Cancels every active roll and takes away every die. -/
def clearTray : Attempt (Tray ω) Unit := do
  cancelAll notify (← get).active
  modify fun t => if 0 < t.nextId then { t with watermark := .int (t.nextId - 1) } else t
  removeAllDice

/-! ## History -/

/-- Removes the dice of rolls that are not in history, canceling those of the rolls that are
active. -/
def prune : Attempt (Tray ω) Unit := do
  let t ← get
  let kept := t.history.map Roll.id
  cancelAll notify (t.active.filter fun r => !r.id.among kept)
  let orphans := ((← get).dice.map Die.roll).filter fun id => !id.among kept
  orphans.forM removeDice

def clearHistory : Attempt (Tray ω) Unit := do
  modify fun t => { t with history := [] }
  prune notify

/-- Takes the rolls of an id out of history and leaves all else as it is. -/
def forget (id : Value) : Attempt (Tray ω) Unit :=
  modify fun t => { t with history := t.history.filter fun r => !r.id.same id }

/-- Lets the oldest roll leave a history that has become too long. -/
def trimHistory : Attempt (Tray ω) Unit := do
  let t ← get
  if t.config.maxHistory < t.history.length then
    set { t with history := t.history.dropLast }
    prune notify

/-! ## Rolling -/

/-- How often at most rolls are canceled for a new one beyond the rolls that are active at first:
a bound for listeners that roll whenever a roll is canceled. -/
def patience : Nat := 1000

/-- Cancels the oldest active rolls until so many dice fit. -/
def makeRoom (needed : Nat) : Nat → Attempt (Tray ω) Unit
  | 0 => throw .endless
  | fuel + 1 => do
    let t ← get
    match t.active with
    | [] => return ()
    | oldest :: _ =>
      let total ← (← t.totalDice).add (.int needed)
      if (Num.int t.config.maxDice).lt total then
        discard (cancel notify oldest.id)
        makeRoom needed fuel

/-- A physical die of a formula. -/
structure Place where
  kind : DieKind
  group : Nat
  logical : Nat
  tens : Bool
  deriving DecidableEq, Repr

/-- The physical dice of one term. -/
def placesOf (group : Nat) (term : Formula.DiceTerm) : List Place :=
  (List.range term.count).flatMap fun logical =>
    term.kind.halves.map fun tens => { kind := term.kind, group, logical, tens }

/-- The physical dice of a formula, in the order in which they are thrown. -/
def places (terms : List Formula.DiceTerm) : List Place :=
  terms.zipIdx.flatMap fun (term, group) => placesOf group term

/-- Sets dice of a roll to be thrown, the first after a delay and each other one shortly after the
one before it. -/
def schedule (id : Value) (total : Nat) : Nat → Float → List Place → Attempt (Tray ω) Unit
  | _, _, [] => return ()
  | index, delay, place :: rest => do
    let t ← get
    addThrow {
      due := .float (t.clock + delay)
      roll := id
      kind := .text place.kind.name
      group := .int place.group
      logical := .int place.logical
      tens := .bool place.tens
      index := .int index
      total := .int total }
    let gap := t.config.spawnDelayBase + (← withChance Chance.draw) * t.config.spawnDelayVar
    schedule id total (index + 1) (delay + gap) rest

/-- Gives a compiled formula an id and puts it among the active rolls and at the front of the
history. -/
def register (formula : String) (compiled : Formula.Compiled) : Attempt (Tray ω) Roll := do
  let t ← get
  let r : Roll := {
    serial := t.nextSerial
    record := Record.ofCompiled t.nextId formula compiled }
  set { t with
    nextId := t.nextId + 1
    nextSerial := t.nextSerial + 1
    active := t.active ++ [r]
    history := r :: t.history }
  return r

/-- Why a formula is refused that needs more dice than the tray holds. Both numbers are told, unless
one of them is too long to be written. -/
def refusal (formula : String) (needed capacity : Int) : Fault :=
  match Num.writeInt needed, Num.writeInt capacity with
  | .ok _, .ok _ => .capacity { formula, needed, capacity }
  | .ok _, .error fault => fault
  | .error fault, _ => fault

/-- Rolls a compiled formula whose dice fit on the tray when other rolls are canceled. -/
def launch (formula : String) (compiled : Formula.Compiled) : Attempt (Tray ω) Record := do
  makeRoom notify compiled.physicalCount ((← get).active.length + patience)
  let r ← register formula compiled
  trimHistory notify
  schedule r.id compiled.physicalCount 0 0 (places compiled.terms)
  notify .started r.record
  return r.record

/-- Rolls a compiled formula. The history shows the label or, if that is empty, the formula. -/
def beginRoll (compiled : Formula.Compiled) (label : String) : Attempt (Tray ω) Record := do
  let formula := if label = "" then compiled.formula else label
  let capacity := (← get).config.maxDice
  if capacity < compiled.physicalCount then
    throw (refusal formula compiled.physicalCount capacity)
  else launch notify formula compiled

/-- Rolls a formula. -/
def roll (formula : String) : Attempt (Tray ω) Record := do
  let compiled ← Formula.compile formula
  modify fun t => { t with formula }
  beginRoll notify compiled formula

/-- Rolls a formula that was saved, which must be a text. -/
def rollValue : Value → Attempt (Tray ω) Record
  | .text formula => roll notify formula
  | _ => throw .unsupported

/-- Rolls a single die, of a random kind unless one is given. -/
def rollDie (kind : String) : Attempt (Tray ω) Record := do
  if kind = "" then roll notify (← withChance (Chance.pick DieKind.all)).name
  else roll notify kind

/-- Rolls the formula of a roll in history again, if there is such a roll. -/
def reroll (id : Value) : Attempt (Tray ω) (Option Record) := do
  match (← get).find? id with
  | none => return none
  | some r => return some (← rollValue notify r.record.formula)

def clearAndRoll (formula : Value) : Attempt (Tray ω) Record := do
  clearTray notify
  rollValue notify formula

end RollTray.Tray
