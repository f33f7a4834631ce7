import RollTray.Proofs.Tray.Canceling

/-!
# Rolling

What it does to a tray to roll. In an exact setting a roll that begins owes the tray all its dice
(`register_does`), and when they were set to be thrown it owes none (`schedule_does`).
-/

namespace RollTray.Tray

variable {ω : Type} [World ω] {S : Setting ω} {owed : Owed} {t : Tray ω}

/-! ## Setting dice to be thrown -/

theorem withChance_does {α : Type} (a : Attempt Chance α) :
    Does S owed t (withChance a) fun _ owed' t' => owed' = owed ∧ ∃ chance, t' = { t with chance } := by
  refine .of_orderly fun ho => .of_perform (Attempt.perform_within ..) (.step .refl ?_ fun _ => rfl)
    fun _ _ => ⟨rfl, _, rfl⟩
  exact ho.change_around (a.perform t.chance).2 t.clock t.formula t.nextThrow

theorem push_toList_perm (pending : Array (Nat × Throw)) (order : Nat) (throw : Throw) :
    ((Heap.push throwsBefore (order, throw)).perform pending).2.toList.Perm
      ((order, throw) :: pending.toList) := by
  have hpush := (Heap.push_perm throwsBefore (order, throw) pending).toList
  rw [Array.toList_push] at hpush
  exact hpush.trans List.perm_append_comm

theorem addThrow_does {throw : Throw} {serial : Nat} {rest : List Site}
    (roll : throw.roll = S.id serial) (lt : serial < t.nextSerial)
    (owes : S.Counted → owed serial = throw.site :: rest) :
    Does S owed t (addThrow throw) fun _ owed' t' => owed' = Function.update owed serial rest ∧
      ∃ pending nextThrow, t' = { t with pending, nextThrow } := by
  refine .get (.bind (Q := fun _ owed' t' => owed' = Function.update owed serial rest ∧
    ∃ pending, t' = { t with pending }) ?_ fun _ owed₁ t₁ trace₁ h₁ => ?_)
  · refine .of_perform (Attempt.perform_within ..) (.step .refl ?_ fun _ => rfl)
      fun _ _ => ⟨rfl, _, rfl⟩
    exact .push throw t.nextThrow serial rest _ roll lt owes (push_toList_perm ..)
  · obtain ⟨rfl, pending, rfl⟩ := h₁
    refine .of_orderly fun ho => ?_
    refine (Does.of_change (ho.change_around t.chance t.clock t.formula (t.nextThrow + 1))).mono
      fun _ owed₂ t₂ _ h₂ => ?_
    obtain ⟨rfl, rfl⟩ := h₂
    exact ⟨rfl, pending, t.nextThrow + 1, rfl⟩

/-- The dice of a roll are set to be thrown. -/
theorem schedule_does {serial : Nat} {places : List Place} (total index : Nat) (delay : Float)
    (lt : serial < t.nextSerial) (owes : S.Exact → owed serial = places.map Place.site) :
    Does S owed t (schedule (S.id serial) total index delay places) fun _ owed' t' => S.Exact →
      owed' = Function.update owed serial [] ∧ t'.history = t.history ∧ t'.active = t.active := by
  induction places generalizing t owed index delay with
  | nil =>
    refine .pure fun hexact => ⟨?_, rfl, rfl⟩
    exact (Function.update_eq_self_iff.2 (owes hexact).symm).symm
  | cons place rest ih =>
    rw [schedule]
    refine .get (.bind (addThrow_does rfl lt fun hcounted => owes hcounted.1) fun _ owed₁ t₁ _ h₁ => ?_)
    obtain ⟨rfl, pending, nextThrow, rfl⟩ := h₁
    refine .bind (withChance_does _) fun r owed₂ t₂ _ h₂ => ?_
    obtain ⟨rfl, chance, rfl⟩ := h₂
    refine Does.mono (ih (index + 1) _ lt ?_) fun _ owed₃ t₃ _ h₃ hexact => ?_
    · exact fun _ => Function.update_self ..
    · obtain ⟨rfl, hhistory, hactive⟩ := h₃ hexact
      exact ⟨Function.update_idem .., hhistory, hactive⟩

/-! ## Making room -/

variable {notify : Notify ω}

theorem makeRoom_does (hn : Heeds S notify) (needed fuel : Nat) :
    Does S owed t (makeRoom notify needed fuel) fun _ owed' t' => S.Exact →
      owed' = owed ∧ t'.history = t.history ∧ ∀ r ∈ t'.active, r ∈ t.active := by
  induction fuel generalizing t owed with
  | zero => exact .throw _
  | succ fuel ih =>
    refine .of_orderly fun ho => .get ?_
    split
    · exact .pure fun _ => ⟨rfl, rfl, fun _ => id⟩
    · rename_i oldest rest hactive
      refine .lift fun dice _ => .lift fun total _ => ?_
      split
      · have hid := ho.id_eq (List.mem_append_right _ (hactive ▸ List.mem_cons_self ..))
        refine .bind (.discard (cancel_does hn ⟨_, hid⟩)) fun _ owed₁ t₁ _ ⟨_, h₁⟩ => ?_
        refine ih.mono fun _ owed₂ t₂ _ h₂ hexact => ?_
        obtain ⟨rfl, hhistory₁, hactive₁⟩ := h₁ hexact
        obtain ⟨rfl, hhistory₂, hactive₂⟩ := h₂ hexact
        exact ⟨rfl, hhistory₂.trans hhistory₁, fun r hr => (hactive₁ r (hactive₂ r hr)).1⟩
      · exact .pure fun _ => ⟨rfl, rfl, fun _ => id⟩

/-! ## Whole operations -/

/-- What an operation as a whole leaves as it was in an exact setting: what is owed, and that active
rolls are in history. -/
def Tidy (S : Setting ω) (owed : Owed) (t : Tray ω) (owed' : Owed) (t' : Tray ω) : Prop :=
  S.Exact → owed' = owed ∧ (Listed t → Listed t')

theorem Tidy.trans {owed' owed'' : Owed} {t' t'' : Tray ω} (first : Tidy S owed t owed' t')
    (second : Tidy S owed' t' owed'' t'') : Tidy S owed t owed'' t'' := fun hexact =>
  ⟨(second hexact).1.trans (first hexact).1, fun h => (second hexact).2 ((first hexact).2 h)⟩

theorem tidy_of_kept {owed' : Owed} {t' : Tray ω}
    (h : S.Exact → owed' = owed ∧ t'.history = t.history ∧ ∀ r ∈ t'.active, r ∈ t.active) :
    Tidy S owed t owed' t' := by
  intro hexact
  obtain ⟨howed, hhistory, hactive⟩ := h hexact
  exact ⟨howed, fun hlisted r hr => hhistory ▸ hlisted r (hactive r hr)⟩

theorem cancel_tidy (hn : Heeds S notify) (n : Int) :
    Does S owed t (cancel notify (.int n)) fun _ => Tidy S owed t :=
  (cancel_does hn ⟨n, rfl⟩).mono fun _ _ _ _ h => tidy_of_kept fun hexact =>
    have ⟨howed, hhistory, hactive⟩ := h hexact
    ⟨howed, hhistory, fun r hr => (hactive r hr).1⟩

theorem clearTray_tidy (hn : Heeds S notify) :
    Does S owed t (clearTray notify) fun _ => Tidy S owed t :=
  (clearTray_does hn).mono fun _ _ _ _ h => tidy_of_kept fun hexact =>
    have ⟨howed, hhistory, hactive⟩ := h hexact
    ⟨howed, hhistory, fun _ hr => nomatch hactive ▸ hr⟩

theorem prune_tidy (hn : Heeds S notify) :
    Does S owed t (prune notify) fun _ => Tidy S owed t :=
  (prune_does hn).mono fun _ _ _ _ h hexact => ⟨(h hexact).1, fun _ => (h hexact).2.2⟩

theorem clearHistory_tidy (hn : Heeds S notify) :
    Does S owed t (clearHistory notify) fun _ => Tidy S owed t :=
  (clearHistory_does hn).mono fun _ _ _ _ h hexact => ⟨(h hexact).1, fun _ => (h hexact).2.2⟩

theorem trimHistory_tidy (hn : Heeds S notify) :
    Does S owed t (trimHistory notify) fun _ => Tidy S owed t := by
  refine .get ?_
  split
  · have trace : Trace S t owed { t with history := t.history.dropLast } owed :=
      (Change.trim _ (List.dropLast_sublist _)).trace fun _ => rfl
    refine .bind (.of_perform (Attempt.perform_set ..) trace fun _ _ => ⟨rfl, rfl⟩)
      fun _ owed₁ t₁ _ (h₁ : owed₁ = owed ∧ t₁ = _) => ?_
    obtain ⟨rfl, rfl⟩ := h₁
    exact (prune_does hn).mono fun _ _ _ _ h hexact => ⟨(h hexact).1, fun _ => (h hexact).2.2⟩
  · exact .pure fun _ => ⟨rfl, id⟩

/-! ## Rolling -/

/-- A roll begins and owes all its dice. -/
theorem register_does {source formula : String} {compiled : Formula.Compiled}
    (hcompiled : Formula.compile source = .ok compiled) :
    Does S owed t (register formula compiled) fun r owed' t' =>
      r.serial = t.nextSerial ∧ r.id = .int t.nextId ∧ t'.nextSerial = t.nextSerial + 1 ∧
        owed' = Function.update owed r.serial ((places compiled.terms).map Place.site) ∧
          (Listed t → Listed t') := by
  let r : Roll := { serial := t.nextSerial, record := Record.ofCompiled t.nextId formula compiled }
  have hsites : r.record.sites = (places compiled.terms).map Place.site :=
    sites_of_groups rfl
  have hchange : Change S .calm t owed _ _ :=
    .begin r rfl rfl (sound_ofCompiled hcompiled t.nextId formula) rfl
  rw [hsites] at hchange
  refine .of_perform rfl (hchange.trace fun _ => rfl) fun r' hr' => ?_
  cases hr'
  refine ⟨rfl, rfl, rfl, rfl, fun hlisted r' hr' => ?_⟩
  rcases List.mem_append.1 hr' with hr' | hr'
  · exact List.mem_cons_of_mem _ (hlisted r' hr')
  · rw [List.mem_singleton.1 hr']
    exact List.mem_cons_self ..

theorem notify_started_tidy (hn : Heeds S notify) {r : Record} (hid : ∃ n, r.id = .int n) :
    Does S owed t (do notify .started r; return r) fun _ => Tidy S owed t := by
  intro ho _
  have hchange : ∀ notices, notices = [] ∨ notices = [.happened .started r.id r.result] →
      Change S .calm t owed { t with journal := t.journal ++ notices } owed := by
    intro notices hnotices
    refine Change.around_journal ho t.listeners _ ho.quiet (.inr ⟨notices, rfl, fun notice h => ?_⟩)
    rcases hnotices with rfl | rfl
    · nomatch h
    · rw [List.mem_singleton.1 h]
      rfl
  obtain ⟨owed', trace, h⟩ := hn.exists_trace_of_last .started hid r ho hchange
  refine ⟨owed', trace, fun _ _ hexact => ?_⟩
  obtain ⟨howed, listeners, journal, hlast⟩ := h hexact
  rw [hlast]
  exact ⟨howed, id⟩

theorem launch_tidy (hn : Heeds S notify) {source : String} {compiled : Formula.Compiled}
    (hcompiled : Formula.compile source = .ok compiled) (formula : String) :
    Does S owed t (launch notify formula compiled) fun _ => Tidy S owed t := by
  refine .get (.bind (makeRoom_does hn _ _) fun _ owed₁ t₁ _ h₁ => .of_orderly fun ho₁ => ?_)
  refine .bind (register_does hcompiled) fun r owed₂ t₂ _ h₂ => ?_
  obtain ⟨hserial, hid, hnext, rfl, hlisted⟩ := h₂
  refine .bind (trimHistory_tidy hn) fun _ owed₃ t₃ trace₃ h₃ => ?_
  have hid : r.id = S.id r.serial := by rw [hid, ho₁.nextId, Setting.id, hserial]
  rw [hid]
  have hlt := trace₃.nextSerial_le
  refine .bind (schedule_does _ _ _ (by omega) fun hexact => ?_) fun _ owed₄ t₄ _ h₄ => ?_
  · rw [(h₃ hexact).1, Function.update_self]
  · refine (notify_started_tidy hn ⟨_, hid⟩).mono fun _ owed₅ t₅ _ h₅ => ?_
    refine (tidy_of_kept h₁).trans (Tidy.trans (fun hexact => ?_) h₅)
    obtain ⟨howed, hhistory, hactive⟩ := h₄ hexact
    refine ⟨?_, fun hlisted₁ r' hr' => ?_⟩
    · rw [howed, (h₃ hexact).1, Function.update_idem]
      exact Function.update_eq_self_iff.2
        (ho₁.unused _ (Nat.le_of_eq hserial.symm)).symm
    · rw [hhistory]
      exact (h₃ hexact).2 (hlisted hlisted₁) r' (hactive ▸ hr')

theorem beginRoll_tidy (hn : Heeds S notify) {source : String} {compiled : Formula.Compiled}
    (hcompiled : Formula.compile source = .ok compiled) (label : String) :
    Does S owed t (beginRoll notify compiled label) fun _ => Tidy S owed t := by
  refine .get ?_
  dsimp only
  generalize (if label = "" then compiled.formula else label) = formula
  split
  · exact .throw _
  · exact launch_tidy hn hcompiled formula

theorem roll_tidy (hn : Heeds S notify) (formula : String) :
    Does S owed t (roll notify formula) fun _ => Tidy S owed t := by
  refine .lift fun compiled hcompiled => .of_orderly fun ho => ?_
  refine .bind (.of_change (ho.change_around t.chance t.clock formula t.nextThrow))
    fun _ owed₁ t₁ _ h₁ => ?_
  obtain ⟨rfl, rfl⟩ := h₁
  exact (beginRoll_tidy hn hcompiled formula).mono fun _ _ _ _ h => h

theorem rollValue_tidy (hn : Heeds S notify) (formula : Value) :
    Does S owed t (rollValue notify formula) fun _ => Tidy S owed t := by
  unfold rollValue
  split
  · exact roll_tidy hn _
  · exact .throw _

theorem rollDie_tidy (hn : Heeds S notify) (kind : String) :
    Does S owed t (rollDie notify kind) fun _ => Tidy S owed t := by
  unfold rollDie
  split
  · refine .bind (withChance_does _) fun picked owed₁ t₁ _ h₁ => ?_
    obtain ⟨rfl, chance, rfl⟩ := h₁
    exact (roll_tidy hn _).mono fun _ _ _ _ h => h
  · exact roll_tidy hn kind

theorem reroll_tidy (hn : Heeds S notify) (id : Value) :
    Does S owed t (reroll notify id) fun _ => Tidy S owed t := by
  refine .get ?_
  split
  · exact .pure fun _ => ⟨rfl, fun h => h⟩
  · refine .bind (rollValue_tidy hn _) fun _ owed₁ t₁ _ h₁ => ?_
    exact .pure h₁

theorem clearAndRoll_tidy (hn : Heeds S notify) (formula : Value) :
    Does S owed t (clearAndRoll notify formula) fun _ => Tidy S owed t :=
  .bind (clearTray_tidy hn) fun _ _ _ _ h₁ => (rollValue_tidy hn formula).mono fun _ _ _ _ h₂ =>
    h₁.trans h₂

end RollTray.Tray
