import Mathlib.Data.Int.Order.Basic
import RollTray.Proofs.Sorting
import RollTray.Proofs.Tray.Completion
import RollTray.Proofs.Tray.Ticking

/-!
# Ticks that nobody interferes with

A tick gives their results to just the rolls that are ready when it has looked at all dice, in the
order of their ids (`Resolves`, `tick_exact`). So no roll is ready between ticks
(`Resolves.idle`).
-/

namespace RollTray.Tray

variable {ω : Type} [World ω] {S : Setting ω} {owed : Owed} {t : Tray ω} {notify : Notify ω}

/-! ## The rolls that had a die settle -/

theorem mem_distinct_of_mem {ids : List Value} (hids : Ids S ids) {id : Value} (h : id ∈ ids) :
    id ∈ distinct ids := by
  induction ids with
  | nil => exact h
  | cons first rest ih =>
    rw [distinct, List.mem_cons]
    by_cases heq : id = first
    · exact .inl heq
    · have hrest : id ∈ rest := (List.mem_cons.1 h).resolve_left heq
      obtain ⟨a, rfl⟩ := hids id h
      obtain ⟨b, rfl⟩ := hids first (List.mem_cons_self ..)
      refine .inr (List.mem_filter.2 ⟨ih (fun id hid => hids id (List.mem_cons_of_mem _ hid)) hrest, ?_⟩)
      rw [same_id, Bool.not_eq_true', decide_eq_false_iff_not]
      exact fun hba => heq (congrArg S.id hba)

theorem nodup_distinct {ids : List Value} (hids : Ids S ids) : (distinct ids).Nodup := by
  induction ids with
  | nil => exact .nil
  | cons first rest ih =>
    have ih := ih fun id hid => hids id (List.mem_cons_of_mem _ hid)
    refine List.nodup_cons.2 ⟨fun hmem => ?_, ih.filter _⟩
    obtain ⟨a, rfl⟩ := hids first (List.mem_cons_self ..)
    have hnot := (List.mem_filter.1 hmem).2
    rw [same_id, decide_eq_true rfl] at hnot
    cases hnot

/-- Ids in ascending order. -/
def Ascending (ids : List Value) : Prop :=
  ids.Pairwise fun a b => a.lt b = .ok true

/-- The integer that an id is. -/
def rankOf : Value → Int
  | .int n => n
  | _ => 0

theorem ascending_of_sortBy {ids sorted : List Value} (hids : Ids S ids) (hnodup : ids.Nodup)
    (h : Order.sortBy Value.lt ids = .ok sorted) : Ascending sorted := by
  have hperm := Order.sortBy_perm h
  have hle : sorted.Pairwise fun a b => rankOf a ≤ rankOf b := by
    refine Order.sortBy_ascending rankOf (List.pairwise_of_forall_mem_list fun a ha b hb => ?_) h
    obtain ⟨a, rfl⟩ := hids a ha
    obtain ⟨b, rfl⟩ := hids b hb
    exact ⟨Value.lt_int .., Value.lt_int ..⟩
  refine (hle.and (hperm.nodup_iff.2 hnodup)).imp_of_mem fun {a b} ha hb hab => ?_
  obtain ⟨hle, hne⟩ := hab
  obtain ⟨a, rfl⟩ := hids a (hperm.mem_iff.1 ha)
  obtain ⟨b, rfl⟩ := hids b (hperm.mem_iff.1 hb)
  rw [Setting.id, Setting.id, Value.lt_int, Except.ok.injEq, decide_eq_true_iff]
  have hne : S.start + (a : Int) ≠ S.start + b := fun heq => hne (congrArg Value.int heq)
  change S.start + (a : Int) ≤ S.start + b at hle
  omega

/-! ## One tick -/

/-- What a tick does after it has looked at all dice. -/
structure Resolves (t : Tray ω) (done : List Value) (t' : Tray ω) : Prop where
  ascending : Ascending done
  ready : ∀ id, id ∈ done ↔ ∃ r ∈ t.history, t.Ready r ∧ r.id = id
  concludes : Concludes t done t'

omit [World ω] in
theorem Resolves.idle {done : List Value} {t' : Tray ω} (h : Resolves t done t') : Idle t' := by
  intro r' hr' hready
  obtain ⟨r, hr, hconcluded⟩ := forall₂_exists_left h.concludes.history hr'
  by_cases hid : r.id ∈ done
  · have hresolved := (hconcluded.resolves hid).2.1
    rw [hready.1] at hresolved
    cases hresolved
  · obtain rfl := hconcluded.stays hid
    refine hid ((h.ready r'.id).2 ⟨r', hr, (ready_congr ?_).1 hready, rfl⟩)
    rw [diceOf, h.concludes.dice, diceOf]

/-- An operation as a whole that returned in an exact setting. -/
theorem Does.exact {α : Type} {a : Attempt (Tray ω) α} (h : Does S owed t a fun _ => Tidy S owed t)
    (hexact : S.Exact) (ho : Orderly S owed t) {x : α} {t' : Tray ω}
    (hperform : a.perform t = (.ok x, t')) : Trace S t owed t' owed ∧ (Listed t → Listed t') := by
  obtain ⟨owed', trace, hanswer⟩ := h ho fun _ => ⟨x, by rw [hperform]⟩
  rw [hperform] at trace hanswer
  obtain ⟨rfl, hlisted⟩ := hanswer x rfl hexact
  exact ⟨trace, hlisted⟩

/-- The rolls that had a die settle. -/
theorem poll_ids (ho : Orderly S owed t) (hlisted : Listed t) {ids : List Value} {t₁ : Tray ω}
    (h : poll.perform t = (.ok ids, t₁)) : Ids S ids ∧ ∀ id ∈ ids, ∃ r ∈ t₁.history, r.id = id := by
  have hhistory := congrArg (fun s : Tray ω => s.history) (congrArg Prod.snd h)
  change t.history = t₁.history at hhistory
  have hmem : ∀ id ∈ ids, ∃ r ∈ t.active, id = S.id r.serial := by
    intro id hid
    obtain ⟨d, hd, rfl⟩ := pollDice_mem _ _ _ _ _ (congrArg Prod.fst h) id hid
    exact ho.dice d hd
  refine ⟨fun id hid => ?_, fun id hid => ?_⟩
  · obtain ⟨r, _, hroll⟩ := hmem id hid
    exact ⟨r.serial, hroll⟩
  · obtain ⟨r, hr, rfl⟩ := hmem id hid
    exact ⟨r, hhistory ▸ hlisted r hr, ho.id_eq (List.mem_append_right _ hr)⟩

/-- What is known of a tick that returned, of the tray that it left and of the tray when it had
looked at all dice. -/
structure Ticked (S : Setting ω) (owed : Owed) (t t₁ : Tray ω) (done : List Value) (t' : Tray ω) :
    Prop where
  orderly : Orderly S owed t₁
  finished : ∃ among, Finished t₁ among done t'
  resolves : Idle t → Resolves t₁ done t'

/-- A tick in an exact setting, from when the world has moved. -/
theorem tick_exact (hn : Heeds S notify) (hexact : S.Exact) (ho : Orderly S owed t)
    (hlisted : Listed t) {dt : Num} {t₁ : Tray ω} (hproceed : (proceed dt).perform t = (.ok (), t₁)) :
    ∃ answer t', (tick notify dt).perform t = (answer, t') ∧ Orderly S owed t' ∧ Listed t' ∧
      ∀ done, answer = .ok done →
        ∃ ids t₂, (watch dt).perform t = (.ok ids, t₂) ∧ Ticked S owed t t₂ done t' := by
  obtain ⟨trace₁, hlisted₁⟩ := (proceed_does dt).exact hexact ho hproceed
  have ho₁ := trace₁.orderly ho
  have ho₂ := (poll_change ho₁).orderly ho₁
  have hlisted₂ : Listed (poll.perform t₁).2 := hlisted₁ hlisted
  have hwatch : (watch dt).perform t = poll.perform t₁ := Attempt.perform_bind_of_ok hproceed
  rcases hpoll : poll.perform t₁ with ⟨fault | ids, t₂⟩
  · rw [hpoll] at hwatch ho₂ hlisted₂
    exact ⟨_, t₂, Attempt.perform_bind_of_error hwatch, ho₂, hlisted₂, fun _ h => nomatch h⟩
  obtain ⟨hids, hmem⟩ := poll_ids ho₁ (hlisted₁ hlisted) hpoll
  rw [hpoll] at hwatch ho₂ hlisted₂
  have hdistinct : Ids S (distinct ids) := fun id hid => hids id (mem_distinct hid)
  rw [tick, Attempt.perform_bind_of_ok hwatch, Attempt.perform_bind, Attempt.perform_lift]
  cases hsort : Order.sortBy Value.lt (distinct ids) with
  | error fault => exact ⟨_, t₂, rfl, ho₂, hlisted₂, fun _ h => nomatch h⟩
  | ok sorted =>
    have hperm := Order.sortBy_perm hsort
    have hsorted : ∀ id, id ∈ sorted ↔ id ∈ ids := fun id =>
      hperm.mem_iff.trans ⟨mem_distinct, mem_distinct_of_mem hids⟩
    obtain ⟨answer, t', hfinish, ho', hlisted', h⟩ :=
      finishAll_exact hn hexact (hperm.nodup_iff.2 (nodup_distinct hids)) ho₂ hlisted₂
        fun id hid => hmem id ((hsorted id).1 hid)
    refine ⟨answer, t', hfinish, ho', hlisted', fun done hdone => ?_⟩
    have hfinished := h done hdone
    refine ⟨ids, t₂, hwatch, ho₂, ⟨sorted, hfinished⟩, fun hidle => ?_⟩
    have hascending := ascending_of_sortBy hdistinct (nodup_distinct hids) hsort
    refine ⟨hascending.sublist hfinished.sublist, fun id => ?_, hfinished.concludes⟩
    rw [hfinished.mem_iff]
    refine ⟨And.right, fun hready => ⟨(hsorted id).2 ?_, hready⟩⟩
    obtain ⟨r, hr, hready, rfl⟩ := hready
    rw [ho₂.id_eq (List.mem_append_left _ hr)]
    exact poll_ready ho₁ (trace₁.idle hexact ho hidle) hpoll r hr hready

end RollTray.Tray
