import RollTray.Proofs.Tray.Sites

/-!
# Orderly trays

`Orderly` is what holds of a tray whatever was done to it since it was new: rolls are numbered one
after the other, and the dice on the tray belong to active rolls. If nobody interfered with its
operations and none of them failed, and ids are not negative, more holds (`Accounted`): each site of
an active roll has its die on the tray or waiting, but for those that are still to be added, and a
roll that has its result waits for none.

The dice live in a world that may fail. `Footing` is what can be asked of it. Where nothing is asked,
as in an exact setting, only operations that do not fail are looked at.
-/

namespace RollTray.Tray

variable (ω : Type) [World ω]

/-- A world that keeps up dice: those on which it stands can be taken out, and all that is done with
the world leaves them in it. -/
structure Footing where
  holds : ω → List Nat → Prop
  perm : ∀ {w handles handles'}, holds w handles → handles.Perm handles' → holds w handles'
  spawn : ∀ {w handles handle w'} kind tens motion, holds w handles →
    (World.spawn kind tens motion).perform w = (.ok handle, w') → holds w' (handle :: handles)
  spawn_error : ∀ {w handles fault w'} kind tens motion, holds w handles →
    (World.spawn kind tens motion).perform w = (.error fault, w') → holds w' handles
  remove : ∀ {w handle handles}, holds w (handle :: handles) →
    ∃ w', (World.remove handle).perform w = (.ok (), w') ∧ holds w' handles
  step : ∀ {w handles} dt, holds w handles → holds ((World.step dt).perform w).2 handles
  damp : ∀ {w handles} handle factor, holds w handles →
    holds ((World.damp handle factor).perform w).2 handles
  sleep : ∀ {w handles} handle, holds w handles → holds ((World.sleep handle).perform w).2 handles

/-- What is known of a tray's surroundings: the id of its first roll, what its world stands on if
that is asked for, and which listeners there may be. -/
structure Setting where
  start : Int
  footing? : Option (Footing ω)
  quiet : (Event → List Listener) → Prop

variable {ω}

/-- Only operations that do not fail are looked at, and nobody interferes with them. -/
def Setting.Exact (S : Setting ω) : Prop :=
  S.footing? = none

/-- Moreover ids start at zero or above, as a watermark is never below zero. -/
def Setting.Counted (S : Setting ω) : Prop :=
  S.Exact ∧ 0 ≤ S.start

/-- The world keeps up these dice, if it is asked to. -/
def Setting.Holds (S : Setting ω) (w : ω) (handles : List Nat) : Prop :=
  ∀ F, S.footing? = some F → F.holds w handles

/-- The id of the roll with a serial number. -/
def Setting.id (S : Setting ω) (serial : Nat) : Value :=
  .int (S.start + serial)

/-- For each roll, by its serial number, the sites whose dice are still to be added. -/
abbrev Owed := Nat → List Site

/-- The dice of a roll among those that wait. -/
def throwsIn (pending : Array (Nat × Throw)) (id : Value) : List Throw :=
  (pending.toList.map Prod.snd).filter fun throw => throw.roll.same id

/-- The dice of a roll that wait for their throws. -/
def throwsOf (t : Tray ω) (id : Value) : List Throw :=
  throwsIn t.pending id

/-- The sites of a roll's dice, on the tray and waiting. -/
def sitesOf (t : Tray ω) (id : Value) : List Site :=
  (t.diceOf id).map Die.site ++ (t.throwsOf id).map Throw.site

/-- Where the dice of rolls are, if nothing interferes. -/
structure Accounted (S : Setting ω) (owed : Owed) (t : Tray ω) : Prop where
  watermark : ∀ n, t.watermark = .int n →
    n < t.nextId ∧ ∀ r ∈ t.active, n < S.start + r.serial
  sites : ∀ r ∈ t.active,
    (t.sitesOf (S.id r.serial) ++ owed r.serial).Perm r.record.sites
  resolved : ∀ r ∈ t.history ++ t.active, r.record.resolved = true →
    t.throwsOf (S.id r.serial) = [] ∧ owed r.serial = [] ∧
      List.Forall₂ Answers r.record.groups r.record.results

structure Orderly (S : Setting ω) (owed : Owed) (t : Tray ω) : Prop where
  nextId : t.nextId = S.start + t.nextSerial
  issued : ∀ r ∈ t.history ++ t.active, r.serial < t.nextSerial ∧ r.record.id = S.id r.serial
  sound : ∀ r ∈ t.history ++ t.active, r.record.Sound
  history : t.history.Pairwise fun r r' => r'.serial < r.serial
  active : t.active.Pairwise fun r r' => r.serial < r'.serial
  agree : ∀ r ∈ t.history, ∀ r' ∈ t.active, r.serial = r'.serial → r = r'
  watermark : t.watermark = .null ∨ ∃ n, t.watermark = .int n
  pending : ∀ throw ∈ t.pending.toList.map Prod.snd,
    ∃ serial < t.nextSerial, throw.roll = S.id serial
  dice : ∀ d ∈ t.dice, ∃ r ∈ t.active, d.roll = S.id r.serial
  holds : S.Holds t.world (t.dice.map Die.handle)
  quiet : S.quiet t.listeners
  unused : ∀ serial, t.nextSerial ≤ serial → owed serial = []
  accounted : S.Counted → Accounted S owed t

end RollTray.Tray

namespace RollTray

/-! ## Ids -/

namespace Tray

variable {ω : Type} [World ω] {S : Setting ω}

theorem same_id (a b : Nat) : (S.id a).same (S.id b) = decide (a = b) := by
  rw [Setting.id, Setting.id, Value.same_int]
  exact decide_eq_decide.2 (by omega)

end Tray

end RollTray
