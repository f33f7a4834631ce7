import RollTray.Proofs.Dice.Answers
import RollTray.Proofs.Tray.Looking

/-!
# Rolls that get their results

A roll is ready for its result if it has none and all its dice are on the tray and have settled
(`Ready`). `finish` gives a roll its result if it is ready, and otherwise leaves the tray as it is
(`finish_of_ready`, `finish_of_not_ready`).
-/

namespace RollTray.Tray

variable {ω : Type} [World ω] {S : Setting ω} {owed : Owed} {t : Tray ω}

omit [World ω] in
/-- All dice of a roll that has no result are on the tray and have settled. -/
def Ready (t : Tray ω) (r : Roll) : Prop :=
  r.record.resolved = false ∧ t.isComplete r.record = .ok true

namespace Orderly

theorem isComplete_eq (ho : Orderly S owed t) {r : Roll} (hr : r ∈ t.history ++ t.active) :
    t.isComplete r.record = .ok
      (decide ((t.diceOf (S.id r.serial)).length = r.record.sites.length) &&
        (t.diceOf (S.id r.serial)).all Die.settled) := by
  have hid : r.record.id = S.id r.serial := ho.id_eq hr
  have hsame : ∀ a b : Nat, (Num.int a).same (.int b) = decide (b = a) := by
    intro a b
    rw [Bool.eq_iff_iff, decide_eq_true_iff]
    simp [Num.same, Num.compare?]
    omega
  rw [isComplete, hid, (ho.sound r hr).expectedDice]
  show Except.ok ((Num.int r.record.sites.length).same _ && _) = _
  rw [hsame]

theorem ready_iff (ho : Orderly S owed t) {r : Roll} (hr : r ∈ t.history ++ t.active) :
    t.Ready r ↔ r.record.resolved = false ∧
      (t.diceOf (S.id r.serial)).length = r.record.sites.length ∧
        ∀ d ∈ t.diceOf (S.id r.serial), d.settled = true := by
  rw [Ready, ho.isComplete_eq hr, Except.ok.injEq, Bool.and_eq_true, decide_eq_true_iff,
    List.all_eq_true]

/-- The dice of a roll that is ready stand at its sites. -/
theorem sites_of_all (ho : Orderly S owed t) (hcounted : S.Counted) {r : Roll} (mem : r ∈ t.history)
    (all : (t.diceOf (S.id r.serial)).length = r.record.sites.length) :
    ((t.diceOf (S.id r.serial)).map Die.site).Perm r.record.sites := by
  obtain ⟨hnone, howed⟩ := ho.throwsOf_of_all hcounted mem all
  have hsites := (ho.accounted hcounted).sites r (ho.active_of_all mem all)
  rw [sitesOf, hnone, howed, List.map_nil, List.append_nil, List.append_nil] at hsites
  exact hsites

/-- Where sites are not counted, a roll takes whatever comes of its dice. -/
theorem write_resolve (ho : Orderly S owed t) (inexact : ¬S.Exact) {r : Roll}
    (mem : r ∈ t.history) (dice : List Die) :
    Orderly S owed (t.write r.serial (Dice.resolve r.record dice).2) :=
  ho.write mem (Dice.id_resolve ..) (Dice.groups_resolve ..) fun hcounted => absurd hcounted.1 inexact

end Orderly

theorem find?_history (ho : Orderly S owed t) {serial : Nat} {r : Roll}
    (h : t.find? (S.id serial) = some r) : r ∈ t.history ∧ r.serial = serial := by
  obtain ⟨hmem, hsame⟩ := find?_id h
  rw [ho.id_eq (List.mem_append_left _ hmem), same_id, decide_eq_true_iff] at hsame
  exact ⟨hmem, hsame⟩

theorem find?_of_mem (ho : Orderly S owed t) {r : Roll} (hr : r ∈ t.history) :
    t.find? (S.id r.serial) = some r := by
  cases h : t.find? (S.id r.serial) with
  | none =>
    have hne := List.find?_eq_none.1 h r hr
    rw [ho.id_eq (List.mem_append_left _ hr), same_id] at hne
    simp at hne
  | some r' =>
    obtain ⟨hr', hserial⟩ := find?_history ho h
    rw [ho.eq_of_serial (List.mem_append_left _ hr) (List.mem_append_left _ hr') hserial.symm]

/-- A roll that is not ready is left as it is. -/
theorem finish_of_not_ready (notify : Notify ω) (ho : Orderly S owed t) {r : Roll} (hr : r ∈ t.history)
    (h : ¬t.Ready r) : (finish notify (S.id r.serial)).perform t = (.ok false, t) := by
  rw [finish, Attempt.perform_bind_of_ok (Attempt.perform_get t), find?_of_mem ho hr]
  dsimp only
  by_cases hresolved : r.record.resolved = true
  · rw [if_pos hresolved, Attempt.perform_pure]
  · rw [if_neg hresolved, Attempt.perform_bind, Attempt.perform_lift]
    have hcomplete := ho.isComplete_eq (List.mem_append_left _ hr)
    rw [Ready, hcomplete] at h
    rw [hcomplete]
    dsimp only
    rw [if_neg fun hall => h ⟨by simpa using hresolved, congrArg _ hall⟩, Attempt.perform_pure]

/-- A roll that is ready gets its result, or that fails. -/
theorem finish_of_ready (notify : Notify ω) (ho : Orderly S owed t) {r : Roll} (hr : r ∈ t.history)
    (h : t.Ready r) : ∃ record,
      (∀ notices, notices = [] ∨ notices = [.happened .resolved record.id record.result] →
        Change S .calm t owed
          { t.write r.serial record with journal := t.journal ++ notices } owed) ∧
      record.id = r.record.id ∧ record.resolved = true ∧
      Dice.resolve r.record (t.diceOf (S.id r.serial)) = (.ok true, record) ∧
      (finish notify (S.id r.serial)).perform t =
        (do notify .resolved record; return true : Attempt (Tray ω) Bool).perform
          (t.write r.serial record) ∨
      ∃ fault, Change S .wild t owed (t.write r.serial record) owed ∧
        (finish notify (S.id r.serial)).perform t = (.error fault, t.write r.serial record) := by
  obtain ⟨hresolved, hall, _⟩ := (ho.ready_iff (List.mem_append_left _ hr)).1 h
  obtain ⟨record, hid, hgroups, hcases⟩ :=
    Dice.resolve_cases (t.diceOf (S.id r.serial)) hresolved
  have hfinish : (finish notify (S.id r.serial)).perform t =
      (conclude notify (S.id r.serial) r).perform t := by
    rw [finish, Attempt.perform_bind_of_ok (Attempt.perform_get t), find?_of_mem ho hr]
    dsimp only
    rw [if_neg (by rw [hresolved]; exact Bool.false_ne_true), h.2, Attempt.perform_bind,
      Attempt.perform_lift]
    rfl
  refine ⟨record, ?_⟩
  rw [hfinish, conclude, Attempt.perform_bind_of_ok (Attempt.perform_get t)]
  rcases hcases with ⟨hresolve, hdone⟩ | ⟨fault, hresolve, hstill⟩
  · refine .inl ⟨fun notices hnotices => ?_, hid, hdone, hresolve, ?_⟩
    · refine .settle r record notices hr hresolved hall hid hgroups hdone (fun hcounted => ?_) hnotices
      exact Dice.answers_of_resolve ((ho.sound r (List.mem_append_left _ hr)).congr hgroups)
        (ho.sites_of_all hcounted hr hall) hresolve
    · rw [hresolve]
      rfl
  · refine .inr ⟨fault, .fail r record hr hresolved hid hgroups hstill, ?_⟩
    rw [hresolve]
    rfl

end RollTray.Tray
