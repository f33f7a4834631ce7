import RollTray.Proofs.Tray.Orderly

/-!
# What happens on a tray

`Change` lists the changes of which everything that is done with a tray is made up, and `Trace` is
any number of them. A change is `calm` if no roll is complete after it that was not complete before.
-/

namespace RollTray

/-- A notice that says nothing of the end of a roll. -/
def Notice.Passing : Notice → Prop
  | .happened event _ _ => event = .started
  | .told _ _ => True

namespace Tray

variable {ω : Type} [World ω]

/-- A die before and after it was looked at. -/
structure SameDie (d d' : Die) : Prop where
  handle : d'.handle = d.handle
  roll : d'.roll = d.roll
  site : d'.site = d.site

/-- Whether a roll may be complete after a change that was not complete before it. -/
inductive Kind where
  | calm
  | wild
  deriving DecidableEq

/-- No other active roll is older than this one. -/
def IsOldest (t : Tray ω) (r : Roll) : Prop :=
  ∀ r' ∈ t.active, r'.serial ≠ r.serial → r.serial < r'.serial

/-- What becomes of the watermark when an active roll is canceled: it goes up to the roll if that is
the oldest one. -/
def Lifts (S : Setting ω) (t : Tray ω) (r : Roll) (watermark : Value) : Prop :=
  watermark = t.watermark ∧ ¬t.IsOldest r ∨
    ∃ m : Int, t.watermark.orZero = .int m ∧ watermark = .int (max (S.start + r.serial) m) ∧
      t.IsOldest r

inductive Change (S : Setting ω) : Kind → Tray ω → Owed → Tray ω → Owed → Prop where
  /-- Something around the dice. -/
  | around {t owed} (world : ω) (chance : Chance) (clock : Float) (formula : String)
      (nextThrow : Nat) (listeners : Event → List Listener) (journal : List Notice)
      (holds : S.Holds world (t.dice.map Die.handle)) (quiet : S.quiet listeners)
      (passing : S.Exact ∨
        ∃ notices, journal = t.journal ++ notices ∧ ∀ notice ∈ notices, notice.Passing) :
      Change S .calm t owed
        { t with world, chance, clock, formula, nextThrow, listeners, journal } owed
  /-- A roll begins. -/
  | begin {t owed} (r : Roll) (serial : r.serial = t.nextSerial) (id : r.record.id = .int t.nextId)
      (sound : r.record.Sound) (unresolved : r.record.resolved = false) :
      Change S .calm t owed
        { t with nextId := t.nextId + 1, nextSerial := t.nextSerial + 1, active := t.active ++ [r],
                 history := r :: t.history } (Function.update owed r.serial r.record.sites)
  /-- Rolls leave the history. -/
  | trim {t owed} (history : List Roll) (sublist : history.Sublist t.history) :
      Change S .calm t owed { t with history } owed
  /-- An active roll is canceled. -/
  | cancel {t owed} (r : Roll) (mem : r ∈ t.active) (watermark : Value) (world : ω)
      (notices : List Notice)
      (mark : Lifts S t r watermark)
      (holds : S.Holds world
        ((t.dice.filter fun d => !d.roll.same (S.id r.serial)).map Die.handle))
      (noted : notices = [] ∨ notices = [.happened .canceled r.record.id r.record.result]) :
      Change S .calm t owed
        { t with active := t.active.filter fun r' => r'.serial != r.serial, watermark, world,
                 dice := t.dice.filter fun d => !d.roll.same (S.id r.serial),
                 journal := t.journal ++ notices } owed
  /-- Dice are taken off the tray, whatever becomes of their rolls. -/
  | remove {t owed} (taken : Die → Bool) (world : ω)
      (none : S.Exact → ∀ d ∈ t.dice, taken d = false)
      (holds : S.Holds world ((t.dice.filter fun d => !taken d).map Die.handle)) :
      Change S .calm t owed { t with world, dice := t.dice.filter fun d => !taken d } owed
  /-- No die of the rolls so far is thrown any more. -/
  | mark {t owed} (empty : S.Counted → t.active = []) (issuing : 0 < t.nextId) :
      Change S .calm t owed { t with watermark := .int (t.nextId - 1) } owed
  /-- A die is set to be thrown. -/
  | push {t owed} (throw : Throw) (order serial : Nat) (rest : List Site)
      (pending : Array (Nat × Throw)) (roll : throw.roll = S.id serial) (lt : serial < t.nextSerial)
      (owes : S.Counted → owed serial = throw.site :: rest)
      (perm : pending.toList.Perm ((order, throw) :: t.pending.toList)) :
      Change S .calm t owed { t with pending } (Function.update owed serial rest)
  /-- A die is thrown. -/
  | throw {t owed} (throw : Throw) (order : Nat) (pending : Array (Nat × Throw)) (d : Die)
      (world : ω) (r : Roll) (active : r ∈ t.active) (roll : throw.roll = S.id r.serial)
      (perm : t.pending.toList.Perm ((order, throw) :: pending.toList))
      (sameRoll : d.roll = throw.roll) (sameSite : d.site = throw.site)
      (moves : d.settled = false) (holds : S.Holds world ((t.dice ++ [d]).map Die.handle))
      (late : isPast t.watermark throw.roll = .ok false) :
      Change S .calm t owed { t with pending, world, dice := t.dice ++ [d] } owed
  /-- A die is not thrown. -/
  | skip {t owed} (throw : Throw) (order : Nat) (pending : Array (Nat × Throw))
      (inactive : S.Counted → ∀ r ∈ t.active, throw.roll ≠ S.id r.serial)
      (perm : t.pending.toList.Perm ((order, throw) :: pending.toList)) :
      Change S .calm t owed { t with pending } owed
  /-- All dice are looked at. -/
  | look {t owed} (dice : List Die) (world : ω) (same : List.Forall₂ SameDie t.dice dice)
      (holds : S.Holds world (t.dice.map Die.handle)) :
      Change S .wild t owed { t with dice, world } owed
  /-- A roll whose dice are all on the tray gets its result. -/
  | settle {t owed} (r : Roll) (record : Record) (notices : List Notice) (mem : r ∈ t.history)
      (unresolved : r.record.resolved = false)
      (all : (t.diceOf (S.id r.serial)).length = r.record.sites.length)
      (id : record.id = r.record.id) (groups : record.groups = r.record.groups)
      (resolved : record.resolved = true)
      (answers : S.Counted → List.Forall₂ Answers record.groups record.results)
      (noted : notices = [] ∨ notices = [.happened .resolved record.id record.result]) :
      Change S .calm t owed
        { t.write r.serial record with journal := t.journal ++ notices } owed
  /-- A roll has its groups counted but gets no result. -/
  | fail {t owed} (r : Roll) (record : Record) (mem : r ∈ t.history)
      (unresolved : r.record.resolved = false) (id : record.id = r.record.id)
      (groups : record.groups = r.record.groups) (still : record.resolved = false) :
      Change S .wild t owed (t.write r.serial record) owed

/-- Changes one after the other. In an exact setting they are calm. -/
inductive Trace (S : Setting ω) : Tray ω → Owed → Tray ω → Owed → Prop where
  | refl {t owed} : Trace S t owed t owed
  | step {t owed t' owed' t'' owed'' kind} (trace : Trace S t owed t' owed')
      (change : Change S kind t' owed' t'' owed'') (calm : S.Exact → kind = .calm) :
      Trace S t owed t'' owed''

variable {S : Setting ω} {t t' t'' : Tray ω} {owed owed' owed'' : Owed}

theorem Change.trace {kind : Kind} (change : Change S kind t owed t' owed')
    (calm : S.Exact → kind = .calm) : Trace S t owed t' owed' :=
  .step .refl change calm

theorem Trace.trans (first : Trace S t owed t' owed') (second : Trace S t' owed' t'' owed'') :
    Trace S t owed t'' owed'' := by
  induction second with
  | refl => exact first
  | step _ change calm ih => exact .step ih change calm

theorem Change.nextSerial_le {kind : Kind} (change : Change S kind t owed t' owed') :
    t.nextSerial ≤ t'.nextSerial := by
  cases change with
  | begin => exact Nat.le_succ _
  | _ => exact Nat.le_refl _

/-- Rolls are numbered on and on. -/
theorem Trace.nextSerial_le (trace : Trace S t owed t' owed') : t.nextSerial ≤ t'.nextSerial := by
  induction trace with
  | refl => exact Nat.le_refl _
  | step _ change _ ih => exact Nat.le_trans ih change.nextSerial_le

end Tray

end RollTray
