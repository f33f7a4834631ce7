import RollTray.Proofs.Tray.Keeping

/-!
# While no roll begins

Canceling, time that passes and results leave a tray with no more rolls than it had, and none of them
with more dice; its watermark stays or is raised to a roll that was canceled as the oldest one
(`Subsides`). Something that is said of orderly trays and does not mind this (`Lasts`) is kept by all
that operations do but for beginning rolls (`Lasts.conduct`, `Lasts.poll`).
-/

namespace RollTray

/-- A roll's serial number and how many physical dice it has. -/
def Roll.size (r : Roll) : Nat × Nat := (r.serial, r.record.sites.length)

namespace Tray

open Attempt (Keeps)

variable {ω : Type}

/-- How many dice of a roll are on the tray or wait for their throws. -/
def held (t : Tray ω) (id : Value) : Nat :=
  (t.diceOf id).length + (t.throwsOf id).length

theorem held_filter (t : Tray ω) (stays : Die → Bool) (id : Value) :
    { t with dice := t.dice.filter stays }.held id ≤ t.held id :=
  Nat.add_le_add_right (List.filter_sublist.filter _).length_le _

theorem length_throwsIn {pending pending' : Array (Nat × Throw)} {order : Nat} {throw : Throw}
    (hperm : pending.toList.Perm ((order, throw) :: pending'.toList)) (id : Value) :
    (throwsIn pending id).length =
      (throwsIn pending' id).length + if throw.roll.same id then 1 else 0 := by
  rw [(throwsIn_perm hperm id).length_eq, List.length_append, Nat.add_comm]
  split <;> rfl

variable [World ω] {S : Setting ω} {t t' : Tray ω}

/-- What may become of an orderly tray on which no roll begins. -/
structure Subsides (S : Setting ω) (t t' : Tray ω) : Prop where
  orderly : ∃ owed, Orderly S owed t'
  config : t'.config = t.config
  nextId : t'.nextId = t.nextId
  nextSerial : t'.nextSerial = t.nextSerial
  history : t'.history.length ≤ t.history.length
  active : (t'.active.map Roll.size).Sublist (t.active.map Roll.size)
  held : ∀ id, t'.held id ≤ t.held id
  watermark : t'.watermark = t.watermark ∨ ∃ m : Int, t.watermark.orZero = .int m ∧
    ∃ r ∈ t.active, t'.watermark = .int (max (S.start + r.serial) m) ∧
      ∀ r' ∈ t'.active, r.serial < r'.serial

namespace Subsides

/-- Each roll that is active was active before, with as many dice. -/
theorem exists_active (h : Subsides S t t') {r' : Roll} (hr' : r' ∈ t'.active) :
    ∃ r ∈ t.active, r.serial = r'.serial ∧ r.record.sites.length = r'.record.sites.length := by
  obtain ⟨r, hr, heq⟩ := List.mem_map.1 (h.active.subset (List.mem_map_of_mem hr'))
  exact ⟨r, hr, congrArg Prod.fst heq, congrArg Prod.snd heq⟩

/-- Where the rolls and the watermark stay as they are, it is enough to look at the dice. -/
theorem of_held (orderly : ∃ owed, Orderly S owed t') (config : t'.config = t.config)
    (nextId : t'.nextId = t.nextId) (nextSerial : t'.nextSerial = t.nextSerial)
    (history : t'.history = t.history) (active : t'.active = t.active)
    (watermark : t'.watermark = t.watermark) (held : ∀ id, t'.held id ≤ t.held id) :
    Subsides S t t' where
  orderly := orderly
  config := config
  nextId := nextId
  nextSerial := nextSerial
  history := Nat.le_of_eq (congrArg List.length history)
  active := active ▸ List.Sublist.refl _
  held := held
  watermark := .inl watermark

end Subsides

/-- What is said of orderly trays in a setting and stays so while no roll begins. -/
structure Lasts (S : Setting ω) (I : Tray ω → Prop) : Prop where
  inexact : ¬S.Exact
  orderly : ∀ {t}, I t → ∃ owed, Orderly S owed t
  subside : ∀ {t t'}, I t → Subsides S t t' → I t'

namespace Lasts

variable {I : Tray ω → Prop} (h : Lasts S I)

include h

theorem ids (ht : I t) : ∀ r ∈ t.history ++ t.active, ∃ n, r.id = .int n :=
  have ⟨_, ho⟩ := h.orderly ht
  fun _ hr => ⟨_, ho.id_eq hr⟩

theorem holds (ht : I t) : S.Holds t.world (t.dice.map Die.handle) :=
  have ⟨_, ho⟩ := h.orderly ht
  ho.holds

theorem quiet (ht : I t) : S.quiet t.listeners :=
  have ⟨_, ho⟩ := h.orderly ht
  ho.quiet

theorem around (ht : I t) (world : ω) (chance : Chance) (clock : Float) (formula : String)
    (nextThrow : Nat) (listeners : Event → List Listener) (journal : List Notice)
    (holds : S.Holds world (t.dice.map Die.handle)) (quiet : S.quiet listeners) :
    I { t with world, chance, clock, formula, nextThrow, listeners, journal } :=
  have ⟨owed, ho⟩ := h.orderly ht
  h.subside ht (.of_held ⟨owed, ho.around _ _ _ _ _ _ _ holds quiet⟩ rfl rfl rfl rfl rfl rfl
    fun _ => Nat.le_refl _)

/-- Rolls leave the history. -/
theorem trim (ht : I t) {history : List Roll} (hsublist : history.Sublist t.history) :
    I { t with history } :=
  have ⟨owed, ho⟩ := h.orderly ht
  h.subside ht {
    orderly := ⟨owed, ho.trim hsublist⟩
    config := rfl, nextId := rfl, nextSerial := rfl
    history := hsublist.length_le
    active := List.Sublist.refl _
    held := fun _ => Nat.le_refl _
    watermark := .inl rfl }

theorem depart (ht : I t) {id : Value} (hid : ∃ n, id = .int n) {r : Roll}
    (hfind : Roll.find? id t.active = some r) : I ((depart id).perform t).2 := by
  obtain ⟨n, rfl⟩ := hid
  obtain ⟨owed, ho⟩ := h.orderly ht
  obtain ⟨watermark, world, hmark, hperform, ho'⟩ := depart_of_inexact h.inexact ho hfind
  rw [hperform] at ho' ⊢
  refine h.subside ht {
    orderly := ⟨owed, ho'⟩
    config := rfl, nextId := rfl, nextSerial := rfl
    history := Nat.le_refl _
    active := List.filter_sublist.map _
    held := fun id => held_filter t _ id
    watermark := hmark.imp And.left fun ⟨m, hm, hwatermark, hfirst⟩ => ?_ }
  refine ⟨m, hm, r, (find?_id hfind).1, hwatermark, fun r' hr' => ?_⟩
  obtain ⟨hr', hne⟩ := mem_filter_serial.1 hr'
  exact hfirst r' hr' hne

theorem takeOff (taken : Die → Bool) : Keeps I (takeOff taken) := by
  intro t ht
  obtain ⟨owed, ho⟩ := h.orderly ht
  obtain ⟨world, hperform, ho'⟩ := takeOff_of_inexact h.inexact ho taken
  rw [hperform] at ho' ⊢
  exact h.subside ht (.of_held ⟨owed, ho'⟩ rfl rfl rfl rfl rfl rfl fun id => held_filter t _ id)

theorem throwNext (ht : I t) {order : Nat} {throw : Throw}
    (hfirst : t.pending[0]? = some (order, throw)) : I ((throwNext throw).perform t).2 := by
  obtain ⟨owed, ho⟩ := h.orderly ht
  obtain ⟨owed', ho', _⟩ := (throwNext_does hfirst).orderly h.inexact ho
  obtain ⟨pending, world, chance, hperm, hcases⟩ := throwNext_perform ho hfirst
  have hthrows : ∀ id, (t.throwsOf id).length =
      (throwsIn pending id).length + if throw.roll.same id then 1 else 0 := length_throwsIn hperm
  rcases hcases with ⟨answer, hperform, _⟩ | ⟨d, hperform, _, hroll, _⟩ <;> rw [hperform] at ho' ⊢
  · refine h.subside ht (.of_held ⟨owed', ho'⟩ rfl rfl rfl rfl rfl rfl fun id => ?_)
    show (t.diceOf id).length + (throwsIn pending id).length ≤ _
    rw [held, hthrows]
    omega
  · refine h.subside ht (.of_held ⟨owed', ho'⟩ rfl rfl rfl rfl rfl rfl fun id => ?_)
    show ((t.dice ++ [d]).filter fun d => d.roll.same id).length + (throwsIn pending id).length ≤ _
    rw [List.filter_append, List.length_append, List.filter_singleton, hroll, held, hthrows]
    show (t.diceOf id).length + _ + _ ≤ _
    cases throw.roll.same id
    · simp
    · simp
      omega

theorem settle (ht : I t) {id : Value} {r : Roll} (hfind : t.find? id = some r) :
    I (t.write r.serial (Dice.resolve r.record (t.diceOf id)).2) := by
  obtain ⟨owed, ho⟩ := h.orderly ht
  have hr := (find?_id hfind).1
  have hsize : (t.active.map (Roll.put r.serial (Dice.resolve r.record (t.diceOf id)).2)).map Roll.size =
      t.active.map Roll.size := by
    rw [List.map_map]
    refine List.map_congr_left fun x hx => Prod.ext (Roll.serial_put ..) (congrArg List.length ?_)
    exact ho.sites_put (List.mem_append_left _ hr) (List.mem_append_right _ hx) (Dice.groups_resolve ..)
  exact h.subside ht {
    orderly := ⟨owed, ho.write_resolve h.inexact hr _⟩
    config := rfl, nextId := rfl, nextSerial := rfl
    history := Nat.le_of_eq (List.length_map ..)
    active := hsize ▸ List.Sublist.refl _
    held := fun _ => Nat.le_refl _
    watermark := .inl rfl }

theorem poll : Keeps I poll := by
  intro t ht
  obtain ⟨owed, ho⟩ := h.orderly ht
  have hsame := pollDice_same (Policy.ofConfig t.config) t.isFinal t.clock t.dice t.world
  refine h.subside ht (.of_held ⟨owed, (poll_change ho).orderly ho⟩ rfl rfl rfl rfl rfl rfl fun id => ?_)
  exact Nat.le_of_eq (congrArg (· + _) (SameDie.filter hsame id).length_eq.symm)

theorem conduct : Conduct (fun id => ∃ n, id = .int n) I where
  known := h.ids
  around chance clock formula ht :=
    h.around ht _ chance clock formula _ _ _ (h.holds ht) (h.quiet ht)
  depart ht hid hfind := h.depart ht hid hfind
  orphan ht _ := h.takeOff _ _ ht
  takeOff := h.takeOff
  throwNext ht hfirst _ := h.throwNext ht hfirst
  step dt t ht :=
    have hholds : S.Holds ((World.step dt).perform t.world).2 (t.dice.map Die.handle) := fun F hF =>
      F.step dt (h.holds ht F hF)
    h.around ht _ t.chance t.clock t.formula t.nextThrow _ t.journal hholds (h.quiet ht)
  settle ht hfind _ _ := h.settle ht hfind

/-- A tray on which time passes, if whoever is told of events keeps it so. -/
theorem tick {notify : Notify ω} (hn : ∀ event r, (∃ n, r.id = .int n) → Keeps I (notify event r))
    (dt : Num) : Keeps I (tick notify dt) :=
  h.conduct.tick hn h.poll dt

/-- Everything in which no time passes, but for rolls that begin and trays that are cleared. -/
theorem offers {notify : Notify ω}
    (hn : ∀ event r, (∃ n, r.id = .int n) → Keeps I (notify event r))
    (launch : ∀ {source compiled} (formula : String), Formula.compile source = .ok compiled →
      ∀ {t}, I t → compiled.physicalCount ≤ t.config.maxDice →
        I ((launch notify formula compiled).perform t).2)
    (clearTray : Keeps I (clearTray notify)) : Offers notify I where
  chance _ := .within fun t ht =>
    h.around ht _ _ t.clock t.formula t.nextThrow _ t.journal (h.holds ht) (h.quiet ht)
  formula formula := .of_modify fun t ht =>
    h.around ht _ t.chance t.clock formula t.nextThrow _ t.journal (h.holds ht) (h.quiet ht)
  launch := launch
  cancel n := h.conduct.cancel hn ⟨n, rfl⟩
  clearTray := clearTray
  clearHistory := keeps_clearHistory (fun ht => h.trim ht) (h.conduct.prune hn)
  prune := h.conduct.prune hn

end Lasts

end Tray

end RollTray
