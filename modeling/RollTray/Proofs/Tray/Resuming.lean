import RollTray.Proofs.Tray.Dealing
import RollTray.Proofs.Tray.Issuing
import RollTray.Proofs.Tray.Refusing

/-!
# Rolling on from a snapshot

A snapshot says which id is the next one and where the watermark is, and both are taken over as they
are. So the next roll gets the next id of the snapshot, whatever ids the records have, and its dice are
not thrown if the watermark is not below it. Where all ids and the watermark are below the next id
(`Saved.GoesOn`) no id is given again, and dice are thrown (`resumes_of_restore`). While listeners only
look on, the snapshots that a tray takes are like this (`whole_of_snapshot`).
-/

namespace RollTray

namespace Saved

/-- No record has this id, and it is above the watermark. -/
structure Free (saved : Saved) (id : Value) : Prop where
  records : ∀ r ∈ saved.history, r.id.same id = false
  watermark : saved.watermark = .null ∨ saved.watermark.Below id

/-- The next id is above all ids and the watermark, which counts as zero if there is none. -/
structure GoesOn (saved : Saved) : Prop where
  issued : ∀ r ∈ saved.history, r.id.Below (.int saved.nextId)
  watermark : saved.watermark = .null ∨ saved.watermark.Below (.int saved.nextId)
  nonneg : 0 ≤ saved.nextId
  active : saved.active = [] ∨ 0 < saved.nextId

/-- Moreover the records are of rolls with ids of their own, and the throws are due at floats. -/
structure Whole (saved : Saved) : Prop extends GoesOn saved where
  sound : ∀ r ∈ saved.history, r.Sound
  apart : (saved.history.map Record.id).Nodup
  once : saved.active.Nodup
  due : ∀ throw ∈ saved.throws, ∃ x, throw.due = .float x

/-- Nor is any id above the next one that of a record. -/
theorem GoesOn.free {saved : Saved} (h : saved.GoesOn) {n : Int} (hle : saved.nextId ≤ n) :
    saved.Free (.int n) where
  records r hr := by
    obtain ⟨m, hid, hlt⟩ := Value.below_int.1 (h.issued r hr)
    rw [hid, Value.same_int, decide_eq_false (by omega)]
  watermark := h.watermark.imp_right fun hbelow => hbelow.mono hle

end Saved

namespace Tray

open Attempt (Keeps)

variable {ω : Type} {saved : Saved} {t t' : Tray ω}

/-! ## The next roll -/

/-- Dice that are set to be thrown wait, and so do those that waited before. -/
theorem waits_of_schedule {id : Value} {total index : Nat} {delay : Float} {places : List Place}
    (h : (schedule id total index delay places).perform t = (.ok (), t')) :
    (∀ item ∈ t.pending.toList, item ∈ t'.pending.toList) ∧
      ∀ place ∈ places, ∃ item ∈ t'.pending.toList, item.2.roll = id ∧ item.2.seat = place.seat := by
  induction places generalizing t index delay with
  | nil =>
    cases h
    exact ⟨fun _ h => h, List.forall_mem_nil _⟩
  | cons place rest ih =>
    rw [schedule, Attempt.perform_bind_of_ok (Attempt.perform_get t)] at h
    obtain ⟨_, t₁, hadd, h⟩ := Attempt.perform_bind_eq_ok.1 h
    obtain ⟨x, t₂, hdraw, h⟩ := Attempt.perform_bind_eq_ok.1 h
    have hpending : t₂.pending = t₁.pending := by
      rw [← show _ = t₂ from congrArg Prod.snd hdraw]
      rfl
    obtain ⟨hbefore, hrest⟩ := ih h
    obtain ⟨pending, hperm, hadd' | ⟨-, hadd'⟩⟩ := addThrow_cases _ t <;> cases hadd.symm.trans hadd'
    rw [hpending] at hbefore
    refine ⟨fun item hitem => hbefore item (hperm.mem_iff.2 (List.mem_cons_of_mem _ hitem)),
      List.forall_mem_cons.2 ⟨⟨_, hbefore _ (hperm.mem_iff.2 (List.mem_cons_self ..)), rfl, rfl⟩, hrest⟩⟩

/-- Where listeners only look on the next roll gets the next id, and its dice wait for their throws. -/
theorem next_of_beginRoll [World ω] (quiet : Onlookers t.listeners) {compiled : Formula.Compiled}
    {label : String} {new : Record} (h : (beginRoll announce compiled label).perform t = (.ok new, t')) :
    new.id = .int t.nextId ∧ ∀ place ∈ places compiled.terms,
      ∃ item ∈ t'.pending.toList, item.2.roll = new.id ∧ item.2.seat = place.seat := by
  let Next (n : Int) (s : Tray ω) : Prop := s.nextId = n ∧ Onlookers s.listeners
  have hn (n : Int) : ∀ event r, Keeps (Next n) (announce event r) :=
    keeps_announce And.right fun _ _ h hquiet => ⟨h.1, hquiet⟩
  have hconduct (n : Int) : Conduct (fun _ => True) (Next n) :=
    .of_rolls (fun _ _ _ => trivial)
      (fun h _ nextId _ _ _ _ listeners => ⟨nextId.trans h.1, listeners ▸ h.2⟩)
      (fun h _ _ => keeps_raiseWatermark (fun _ h => h) _ _ h) (fun h _ _ _ => h)
  obtain ⟨t₁, t₂, t₃, hmake, htrim, hschedule, htold, hnew⟩ := launch_eq_ok (beginRoll_eq_ok h)
  have h₁ : Next t.nextId t₁ :=
    ((hconduct _).makeRoom (fun event r _ => hn _ event r) _ _).holds hmake ⟨rfl, quiet⟩
  have h₂ : Next (t₁.nextId + 1) t₂ :=
    (keeps_trimHistory (I := Next _) (fun h _ => h)
      ((hconduct _).prune fun event r _ => hn _ event r)).holds htrim ⟨rfl, h₁.2⟩
  have h₃ : Next (t₁.nextId + 1) t₃ :=
    (keeps_schedule (I := Next _) (fun _ _ _ h => h) _ _ _ _ _).holds hschedule h₂
  have hpending : t'.pending = t₃.pending ∧ Onlookers t'.listeners :=
    (keeps_announce (I := fun s => s.pending = t₃.pending ∧ Onlookers s.listeners) And.right
      (fun _ _ h hquiet => ⟨h.1, hquiet⟩) _ _).holds htold ⟨rfl, h₃.2⟩
  have hid : new.id = .int t₁.nextId := hnew ▸ rfl
  rw [hpending.1, ← h₁.1, hid]
  exact ⟨rfl, (waits_of_schedule hschedule).2⟩

/-! ## What is restored -/

/-- The rolls that are put back are numbered anew. -/
theorem mem_placeRolls {r : Roll} (h : r ∈ (placeRolls saved t).history ++ (placeRolls saved t).active) :
    ∃ n, saved.history[n]? = some r.record ∧ r.serial = t.nextSerial + n := by
  have hr : r ∈ (placeRolls saved t).history := by
    rcases List.mem_append.1 h with h | h
    · exact h
    · exact placeRolls_listed saved t r h
  obtain ⟨⟨record, n⟩, hrecord, rfl⟩ := List.mem_map.1 hr
  exact ⟨n, List.mem_zipIdx_iff_getElem?.1 hrecord, rfl⟩

theorem issued_placeRolls (h : saved.GoesOn) : Issued saved.nextId (placeRolls saved t) where
  start_le := Int.le_refl _
  ids r hr :=
    have ⟨_, hrecord, _⟩ := mem_placeRolls hr
    h.issued r.record (List.mem_of_getElem? hrecord)

/-- Active rolls are put back once. -/
theorem placeRolls_apart (h : saved.Whole) :
    (placeRolls saved t).active.Pairwise fun r r' => r.id ≠ r'.id := by
  have hid : ∀ (n : Nat) (r : Roll), (placeRolls saved t).history[n]? = some r →
      (saved.history.map Record.id)[n]? = some r.id := by
    intro n r hr
    rw [← placeRolls_history saved t, List.map_map, List.getElem?_map, hr]
    rfl
  show List.Pairwise _ (saved.active.map fun n => (placeRolls saved t).history[n]?).reduceOption
  rw [List.reduceOption, List.filterMap_map, List.pairwise_filterMap]
  refine h.once.imp fun {n n'} hne r hr r' hr' heq => hne ?_
  have hn := hid n r hr
  have hn' := hid n' r' hr'
  obtain ⟨hlt, -⟩ := List.getElem?_eq_some_iff.1 hn
  exact (List.getElem?_inj hlt h.apart).1 (hn.trans (heq ▸ hn'.symm))

/-- Where a snapshot goes on the tray does onto which it is put. -/
theorem ahead_placeRolls (h : saved.GoesOn) (quiet : Onlookers t.listeners) :
    Ahead saved.nextId (placeRolls saved t) := by
  have hissued := issued_placeRolls (t := t) h
  have hbefore : ∀ r ∈ (placeRolls saved t).active, ¬Since saved.nextId r := by
    rintro r hr ⟨n, hle, hid⟩
    have hlt : r.id.Below (.int saved.nextId) := hissued.ids r (List.mem_append_right _ hr)
    rw [hid, Value.below_int_int] at hlt
    omega
  exact {
    toIssued := hissued
    nonneg := h.nonneg
    serials := fun r hr => by
      obtain ⟨n, hrecord, hserial⟩ := mem_placeRolls hr
      obtain ⟨hlt, -⟩ := List.getElem?_eq_some_iff.1 hrecord
      rw [hserial]
      exact Nat.add_lt_add_left hlt _
    agree := fun r hr r' hr' heq => by
      obtain ⟨n, hrecord, hserial⟩ := mem_placeRolls hr
      obtain ⟨n', hrecord', hserial'⟩ := mem_placeRolls hr'
      obtain rfl : n = n' := by omega
      exact congrArg Record.id (Option.some.inj (hrecord.symm.trans hrecord'))
    floor := fun r hr => by
      rcases h.active with hnone | hpos
      · rw [placeRolls, hnone] at hr
        exact absurd hr List.not_mem_nil
      · exact .inl hpos
    active := List.pairwise_of_forall_mem_list fun _ _ r' hr' hsince => absurd hsince (hbefore r' hr')
    watermark := h.watermark.imp_right fun hbelow =>
      ⟨hbelow, fun r hr hsince => absurd hsince (hbefore r hr)⟩
    quiet := quiet }

variable [World ω]

/-- What a snapshot left on an empty tray. -/
structure Restored (F : Footing ω) (saved : Saved) (t t' : Tray ω) : Prop where
  tray : ∃ world dice pending nextThrow, t' = { placeRolls saved t with world, dice, pending, nextThrow }
  holds : F.holds t'.world (t'.dice.map Die.handle)
  dice : ∀ d ∈ t'.dice, ∃ n, d.roll = .int n
  queued : (∀ throw ∈ saved.throws, ∃ x, throw.due = .float x) → Queued t'.nextThrow t'.pending.toList

/-- Dice may be taken off the tray. -/
theorem Restored.removeDice {F : Footing ω} (id : Value) :
    Keeps (Restored F saved t) (removeDice id) := by
  rintro _ ⟨⟨world, dice, pending, nextThrow, rfl⟩, hholds, hints, hqueued⟩
  obtain ⟨world, hholds', hperform | ⟨hexact, _⟩⟩ := takeOff_perform (S := undisturbed F 0)
    (holds_undisturbed.2 hholds) fun d => d.roll.same id
  · rw [Tray.removeDice, hperform]
    exact ⟨⟨world, _, pending, nextThrow, rfl⟩, holds_undisturbed.1 hholds',
      fun d hd => hints d (List.mem_filter.1 hd).1, hqueued⟩
  · exact absurd hexact not_exact_undisturbed

/-- A die that belongs to an integer is put onto the tray. -/
theorem keeps_rolls_placeDie {s : SavedDie} (hroll : ∃ n, s.die.roll = .int n) :
    Keeps (fun t : Tray ω => ∀ d ∈ t.dice, ∃ n, d.roll = .int n) (placeDie s) := by
  refine Keeps.bind (.within fun _ h => h) fun handle => ?_
  have htrack : Keeps (fun t : Tray ω => ∀ d ∈ t.dice, ∃ n, d.roll = .int n)
      (track { s.die with handle }) := by
    refine .of_modify fun t h d hd => ?_
    rcases List.mem_append.1 hd with hd | hd
    · exact h d hd
    · rw [List.mem_singleton.1 hd]
      exact hroll
  dsimp only
  split
  · exact Keeps.bind (.within fun _ h => h) fun _ => htrack
  · exact htrack

omit [World ω] in
theorem keeps_queued_addThrow {throw : Throw} (hdue : ∃ x, throw.due = .float x) :
    Keeps (fun t : Tray ω => Queued t.nextThrow t.pending.toList) (addThrow throw) := by
  intro t h
  obtain ⟨pending, hperform, -, hqueued⟩ := addThrow_perform h hdue
  rw [hperform]
  exact hqueued

/-- What was read of a snapshot is put onto an empty tray, where nothing fails. -/
theorem restored_of_restore (L : Lodging ω) (hdice : t.dice = []) (hpending : t.pending = #[])
    (holds : L.holds t.world []) {notify : Notify ω} {v : Value}
    (h : (restore notify v).perform t = (.ok (), t')) :
    ∃ saved, Saved.ofValue? t.nextId v = .ok saved ∧ Restored L.toFooting saved t t' := by
  rw [restore, Attempt.perform_bind_of_ok (Attempt.perform_get t)] at h
  obtain ⟨saved, _, hlift, h⟩ := Attempt.perform_bind_eq_ok.1 h
  obtain ⟨hread, rfl⟩ := Prod.mk.inj hlift
  rw [Attempt.perform_bind_of_ok (Attempt.perform_modify ..)] at h
  obtain ⟨_, t₁, hplace, h⟩ := Attempt.perform_bind_eq_ok.1 h
  obtain ⟨_, t₂, hadd, hprune⟩ := Attempt.perform_bind_eq_ok.1 h
  refine ⟨saved, hread, ?_⟩
  have hrolls : ∀ d ∈ t₁.dice, ∃ n, d.roll = .int n :=
    (Keeps.forM fun s hs => keeps_rolls_placeDie (Saved.roll_of_ofValue? hread s hs)).holds hplace
      fun d hd => absurd (show d ∈ [] from hdice ▸ hd) List.not_mem_nil
  have hempty : L.holds (placeRolls saved t).world ((placeRolls saved t).dice.map Die.handle) := by
    rw [placeRolls, hdice]
    exact holds
  obtain ⟨world, placed, ⟨hholds, hplace'⟩ | ⟨-, fault, hplace'⟩⟩ :=
    forM_placeDie_cases L hempty saved.dice <;> cases hplace.symm.trans hplace'
  obtain ⟨pending, nextThrow, hadd' | ⟨-, hadd'⟩⟩ :=
    forM_addThrow_cases saved.throws { placeRolls saved t with world, dice := placed } <;>
      cases hadd.symm.trans hadd'
  have hqueued : (∀ throw ∈ saved.throws, ∃ x, throw.due = .float x) →
      Queued nextThrow pending.toList := by
    intro hdue
    refine (Keeps.forM fun throw hthrow => keeps_queued_addThrow (hdue throw hthrow)).holds hadd ?_
    rw [placeRolls, hpending]
    exact .nil _
  obtain ⟨ids, hremove⟩ := prune_of_listed notify
    (t := { placeRolls saved t with world, dice := placed, pending, nextThrow })
    (placeRolls_listed saved t) fun r hr => Saved.isKey_of_ofValue? hread r.record
      (placeRolls_history saved t ▸ List.mem_map_of_mem hr)
  have hrestored : Restored L.toFooting saved t _ :=
    ⟨⟨world, placed, pending, nextThrow, rfl⟩, hholds, hrolls, hqueued⟩
  rw [hremove] at hprune
  exact (Keeps.forM fun id _ => Restored.removeDice id).holds hprune hrestored

namespace Restored

variable {F : Footing ω} (h : Restored F saved t t')

include h

theorem issued (goesOn : saved.GoesOn) : Issued saved.nextId t' := by
  obtain ⟨world, dice, pending, nextThrow, rfl⟩ := h.tray
  exact (issued_placeRolls goesOn).around rfl rfl rfl

theorem ahead (goesOn : saved.GoesOn) (quiet : Onlookers t'.listeners) : Ahead saved.nextId t' := by
  obtain ⟨world, dice, pending, nextThrow, rfl⟩ := h.tray
  exact (ahead_placeRolls (t := t) goesOn quiet).around rfl rfl rfl rfl rfl quiet

theorem covers (hids : ∀ r ∈ saved.history, ∃ n, r.id = .int n) {m n : Int}
    (hm : saved.watermark = .int m) (hle : n ≤ m) (quiet : Onlookers t'.listeners) : Covers n t' := by
  obtain ⟨world, dice, pending, nextThrow, rfl⟩ := h.tray
  refine ⟨fun r hr => ?_, ⟨m, hm, hle⟩, quiet⟩
  obtain ⟨_, hrecord, _⟩ := mem_placeRolls hr
  exact hids r.record (List.mem_of_getElem? hrecord)

theorem firm (whole : saved.Whole) (quiet : Onlookers t'.listeners) : Firm F t' where
  ids r hr := by
    obtain ⟨n, hid⟩ := (h.issued whole.toGoesOn).known (List.mem_append_right _ hr)
    exact hid ▸ Value.isNumber_int n
  apart := by
    have hnumbers : ∀ r ∈ t'.active, ∃ n, r.id = .int n := fun r hr =>
      (h.issued whole.toGoesOn).known (List.mem_append_right _ hr)
    have hactive : t'.active = (placeRolls saved t).active := by
      obtain ⟨world, dice, pending, nextThrow, rfl⟩ := h.tray
      rfl
    refine (hactive ▸ placeRolls_apart whole).imp_of_mem fun {r r'} hr hr' hne => ?_
    obtain ⟨n, hn⟩ := hnumbers r hr
    obtain ⟨n', hn'⟩ := hnumbers r' hr'
    rw [hn, hn', Value.same_int, decide_eq_false]
    rintro rfl
    exact hne (hn.trans hn'.symm)
  dice d hd := by
    obtain ⟨n, hroll⟩ := h.dice d hd
    exact hroll ▸ Value.isNumber_int n
  watermark := by
    obtain ⟨world, dice, pending, nextThrow, rfl⟩ := h.tray
    refine whole.watermark.imp_right fun hbelow => ?_
    obtain ⟨n, hn, _⟩ := Value.below_int.1 hbelow
    exact (show saved.watermark.IsNumber from hn ▸ Value.isNumber_int n)
  holds := h.holds
  quiet := quiet

theorem begins (whole : saved.Whole) (quiet : Onlookers t'.listeners) {compiled : Formula.Compiled}
    (hfits : compiled.physicalCount ≤ t'.config.maxDice) (label : String) :
    ∃ r u, (beginRoll announce compiled label).perform t' = (.ok r.record, u) ∧
      (1 ≤ t'.config.maxHistory → u.history.head? = some r ∧ r ∈ u.active) := by
  obtain ⟨world, dice, pending, nextThrow, rfl⟩ := id h.tray
  have hrecord : ∀ r ∈ (placeRolls saved t).active, r.record ∈ saved.history := fun r hr =>
    have ⟨_, hrecord, _⟩ := mem_placeRolls (List.mem_append_right _ hr)
    List.mem_of_getElem? hrecord
  rw [beginRoll, Attempt.perform_bind_of_ok (Attempt.perform_get _)]
  dsimp only
  rw [if_neg (Int.not_lt.2 hfits)]
  exact launch_returns (h.firm whole quiet) (fun r hr => whole.sound _ (hrecord r hr))
    (fun r hr => (whole.free (Int.le_refl _)).records _ (hrecord r hr)) (h.queued whole.due) _ hfits

end Restored

/-! ## Dice that are thrown -/

/-- When time goes on, the dice are thrown that are due, of active rolls that began since. -/
theorem thrown_of_proceed {t₀ : Tray ω} (new : t₀.pending = #[]) (leads : Leads t₀ t) {start : Int}
    (h : Ahead start t) (timed : ∀ item ∈ t.pending.toList, item.2.Timed) {dt : Num}
    (returns : (proceed dt).perform t = (.ok (), t')) :
    ∀ item ∈ t.pending.toList, item.2.isDue t'.clock = true →
      ∀ r ∈ t.active, Since start r → item.2.roll = r.id →
        ∃ handle, item.2.die t'.clock handle ∈ t'.dice := by
  have hempty : Heaped t₀ := fun _ => by
    rw [new]
    exact ⟨⟨List.forall_mem_nil _, .nil⟩, Heap.ordered_empty⟩
  obtain ⟨hapart, hordered⟩ := leads.heaped hempty timed
  obtain ⟨items, -, hperm, hsorted⟩ := exists_items hapart.apart timed
  have hdrained : Drained dt items t t' := drained_of_proceed hperm hsorted hapart hordered timed returns
  obtain ⟨dice, hdice, ht'⟩ := hdrained.dice
  intro item hitem hdue r hr hsince hroll
  have hout : item.2 ∈ t.outgoing t'.clock (items.map Prod.snd) := by
    refine List.mem_filter.2 ⟨List.mem_map_of_mem (hperm.mem_iff.2 hitem), ?_⟩
    rw [hdue, h.throws hr hsince hroll]
    rfl
  obtain ⟨d, hd, hthrown⟩ := forall₂_exists_right hdice hout
  refine ⟨d.handle, ?_⟩
  rw [← hthrown, ht']
  exact List.mem_append_right _ hd

/-- How rolling goes on after a snapshot was put onto a tray. -/
structure Resumes (F : Footing ω) (saved : Saved) (t : Tray ω) : Prop where
  history : t.history.map Roll.record = saved.history
  watermark : t.watermark = saved.watermark
  /-- The next roll gets the next id of the snapshot, whatever the others are, and its dice wait. -/
  next : Onlookers t.listeners → ∀ compiled label new u,
    (beginRoll announce compiled label).perform t = (.ok new, u) →
      new.id = .int saved.nextId ∧ ∀ place ∈ places compiled.terms,
        ∃ item ∈ u.pending.toList, item.2.roll = new.id ∧ item.2.seat = place.seat
  /-- They are not thrown if the watermark is not below it. -/
  covered : Onlookers t.listeners → (∀ r ∈ saved.history, ∃ n, r.id = .int n) →
    ∀ m, saved.watermark = .int m → saved.nextId ≤ m → ∀ compiled label new u,
      (beginRoll announce compiled label).perform t = (.ok new, u) →
        ∀ throw : Throw, throw.roll = new.id → u.throws throw = false
  /-- If all ids are below the next one, no id is given that a record or a roll has, and none twice,
  whoever interferes. -/
  issued : saved.GoesOn → ∀ u, Reach F t u → ∀ notify, Reacts F notify → ∀ compiled label new u',
    (beginRoll notify compiled label).perform u = (.ok new, u') →
      saved.Free new.id ∧ IsNew u new.id ∧
        ∀ u'', Reach F u' u'' → ∀ notify', Reacts F notify' → ∀ compiled' label' new' v,
          (beginRoll notify' compiled' label').perform u'' = (.ok new', v) → new.id.Below new'.id
  /-- Then while listeners only look on, the dice of active rolls that began since are thrown as soon as
  they are due. -/
  thrown : saved.GoesOn → Onlookers t.listeners → ∀ u, Undisturbed F t u →
    (∀ item ∈ u.pending.toList, item.2.Timed) → ∀ dt u', (proceed dt).perform u = (.ok (), u') →
      ∀ item ∈ u.pending.toList, item.2.isDue u'.clock = true →
        ∀ r ∈ u.active, Since saved.nextId r → item.2.roll = r.id →
          ∃ handle, item.2.die u'.clock handle ∈ u'.dice
  /-- If the snapshot is whole, a formula that fits is rolled without fail. -/
  begins : saved.Whole → Onlookers t.listeners → ∀ compiled, compiled.physicalCount ≤ t.config.maxDice →
    ∀ label, ∃ r u, (beginRoll announce compiled label).perform t = (.ok r.record, u) ∧
      (1 ≤ t.config.maxHistory → u.history.head? = some r ∧ r ∈ u.active)

/-- Whatever snapshot was put onto an empty tray, the next roll gets its next id. No id is given again and
dice are thrown if all ids and the watermark are below this one, but neither is looked at. -/
theorem resumes_of_restore (L : Lodging ω) (dice : t.dice = []) (pending : t.pending = #[])
    (holds : L.holds t.world []) {v : Value} (restored : (restore announce v).perform t = (.ok (), t')) :
    ∃ saved, Saved.ofValue? t.nextId v = .ok saved ∧ Resumes L.toFooting saved t' := by
  obtain ⟨saved, hread, h⟩ := restored_of_restore L dice pending holds restored
  obtain ⟨world, dice', pending', nextThrow, ht'⟩ := id h.tray
  have hnext : t'.nextId = saved.nextId := ht' ▸ rfl
  refine ⟨saved, hread, {
    history := ht' ▸ placeRolls_history saved t
    watermark := ht' ▸ rfl
    next := fun quiet compiled label new u hbegin => hnext ▸ next_of_beginRoll quiet hbegin
    covered := fun quiet hids m hm hle compiled label new u hbegin throw hroll => ?_
    issued := fun goesOn u reach notify reacts compiled label new u' hbegin => ?_
    thrown := fun goesOn quiet u run timed dt u' returns => ?_
    begins := fun whole quiet compiled hfits label => ?_ }⟩
  · have hcovers := h.covers hids hm hle quiet
    have hid := hnext ▸ (next_of_beginRoll quiet hbegin).1
    exact ((Covers.launch _ _).holds (beginRoll_eq_ok hbegin) hcovers).not_throws (hroll.trans hid)
  · have hissued := issued_of_reach reach (h.issued goesOn)
    obtain ⟨n, hid, hle, hissued'⟩ := issued_of_beginRoll reacts hissued hbegin
    rw [hid]
    refine ⟨goesOn.free (Int.le_trans hissued.start_le hle), hissued.isNew hle, ?_⟩
    intro u'' reach' notify' reacts' compiled' label' new' v hbegin'
    have hlater := issued_of_reach reach' hissued'
    obtain ⟨n', hid', hle', -⟩ := issued_of_beginRoll reacts' hlater hbegin'
    have := hlater.start_le
    rw [hid', Value.below_int_int]
    omega
  · have leads : Leads t t' := by
      have h : Leads t _ := .act .refl (.restore v) announce leads_announce
      rwa [Deed.attempt, restored] at h
    exact thrown_of_proceed pending (leads.undisturbed run) ((h.ahead goesOn quiet).of_undisturbed run)
      timed returns
  · exact h.begins whole quiet hfits label

/-- A snapshot of a roll that does not say which id is the next one. -/
def unnumbered : Value :=
  .object [("roll_history", .list [Record.toValue {
    id := .int 0
    formula := .text "d6"
    template := .text "__G0__"
    groups := [{ kind := .text "d6", count := .int 1, keep := .null, keepCount := .null }] }])]

/-- It is restored, and the next roll gets the id of the one in history. -/
theorem resumes_unnumbered :
    ∃ saved t u, Saved.ofValue? vacant.nextId unnumbered = .ok saved ∧
      (restore announce unnumbered).perform vacant = (.ok (), t) ∧
      performAll announce [.roll "d6"] t = some u ∧
      u.history.length = 2 ∧ (∀ r ∈ u.history, r.id.same (.int 0) = true) ∧
      Resumes ScriptedWorld.lodging.toFooting saved t := by
  have hrun :
      (match (restore announce unnumbered).perform vacant with
        | (.ok _, t) => (performAll announce [.roll "d6"] t).map fun u =>
          (u.history.length, u.history.all fun r => r.id.same (.int 0))
        | (.error _, _) => none) = some (2, true) := by decide +kernel
  rcases hrestore : (restore announce unnumbered).perform vacant with ⟨fault | _, t⟩ <;>
    rw [hrestore] at hrun
  · cases hrun
  · obtain ⟨u, hroll, hrun⟩ := Option.map_eq_some_iff.1 hrun
    obtain ⟨hlength, hids⟩ := Prod.mk.inj hrun
    obtain ⟨saved, hread, hresumes⟩ :=
      resumes_of_restore (t := vacant) ScriptedWorld.lodging rfl rfl (.nil 0) hrestore
    exact ⟨saved, t, u, hread, rfl, hroll, hlength, List.all_eq_true.1 hids, hresumes⟩

/-! ## Snapshots that were taken -/

theorem nodup_of_places {history : List Record} {ids : List Value} {places : List Nat}
    (h : List.Forall₂ (Saved.Places history) ids places) (hids : ids.Nodup) : places.Nodup := by
  have hmap : places.map (fun n => history[n]?.map Record.id) = ids.map some := by
    induction h with
    | nil => rfl
    | cons hplace _ ih =>
      obtain ⟨r, hr, rfl⟩ := hplace
      rw [List.map_cons, List.map_cons, hr, ih hids.of_cons]
      rfl
  have hsome : (ids.map some).Nodup := hids.map (Option.some_injective _)
  exact (hmap ▸ hsome).of_map

/-- While listeners only look on and all dice that wait are due at numbers, the snapshots of a tray are
whole. -/
theorem whole_of_snapshot (L : Lodging ω) {t₀ : Tray ω} (fresh : Fresh t₀) (holds : L.holds t₀.world [])
    (nonneg : 0 ≤ t₀.nextId) (quiet : Onlookers t₀.listeners) (run : Undisturbed L.toFooting t₀ t)
    (dated : Dated t) (nextId : Int) : ∃ v saved, t.snapshot = .ok v ∧
      Saved.ofValue? nextId v = .ok saved ∧ saved.Whole := by
  have hintact := run.intact (fresh.intact holds quiet)
  have hahead := (Ahead.of_fresh fresh nonneg quiet).of_undisturbed run
  obtain ⟨owed, ho⟩ := hintact.orderly
  obtain ⟨dice, throws, places, -, -, hsnapshot, hread, hcoherent⟩ :=
    exists_snapshot L hintact (run.shaped fresh.shaped) dated nextId
  have hne : ∀ r ∈ t.history ++ t.active, ∀ r' ∈ t.history ++ t.active, r.serial ≠ r'.serial →
      r.id ≠ r'.id := fun r hr r' hr' hne heq =>
    hne (id_inj ((ho.id_eq hr).symm.trans (heq.trans (ho.id_eq hr'))))
  have hnext : t.nextId = t₀.nextId + t.nextSerial := ho.nextId
  refine ⟨_, _, hsnapshot, hread, ?_⟩
  exact {
    issued := fun r hr => by
      obtain ⟨roll, hroll, rfl⟩ := List.mem_map.1 hr
      exact hahead.ids roll (List.mem_append_left _ hroll)
    watermark := hahead.watermark.imp_right And.left
    nonneg := by
      show 0 ≤ t.nextId
      omega
    active := by
      have hplaces := hcoherent.active
      cases hactive : t.active with
      | nil =>
        rw [activeIds, hactive] at hplaces
        exact .inl (List.forall₂_nil_left_iff.1 hplaces)
      | cons r rest =>
        have hlt := ho.serial_lt (hactive ▸ List.mem_cons_self .. : r ∈ t.active)
        refine .inr ?_
        show 0 < t.nextId
        omega
    sound := fun r hr => by
      obtain ⟨roll, hroll, rfl⟩ := List.mem_map.1 hr
      exact ho.sound roll (List.mem_append_left _ hroll)
    apart := by
      show ((t.history.map Roll.record).map Record.id).Nodup
      rw [List.map_map]
      exact List.pairwise_map.2 (ho.history.imp_of_mem fun hr hr' hlt =>
        hne _ (List.mem_append_left _ hr) _ (List.mem_append_left _ hr') hlt.ne')
    once := nodup_of_places hcoherent.active <| List.pairwise_map.2 <| ho.active.imp_of_mem
      fun hr hr' hlt => hne _ (List.mem_append_right _ hr) _ (List.mem_append_right _ hr') hlt.ne
    due := fun throw hthrow => (hcoherent.timely throw hthrow).imp fun _ h => h.1 }

end Tray

end RollTray
