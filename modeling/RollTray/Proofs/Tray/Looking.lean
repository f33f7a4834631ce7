import RollTray.Proofs.Tray.Throwing

/-!
# Looking at dice

A die that was looked at is the same die (`pollDice_same`). It has settled only if it had before or
its roll is among those that are said to have a die that settled (`pollDice_settled`).
-/

namespace RollTray.Tray

variable {ω : Type} [World ω] {S : Setting ω} {owed : Owed} {t : Tray ω}

theorem SameDie.refl (d : Die) : SameDie d d := ⟨rfl, rfl, rfl⟩

theorem same_settledOn (face : Value) (d : Die) : SameDie d (settledOn face d) := ⟨rfl, rfl, rfl⟩

theorem same_inFlight (now : Float) (d : Die) : SameDie d (inFlight now d) := ⟨rfl, rfl, rfl⟩

/-- A die is slowed down without being taken away. -/
theorem calm_holds (F : Footing ω) {w : ω} {handles : List Nat} (h : F.holds w handles)
    (p : Policy) (now : Float) (d : Die) : F.holds ((calm p now d).perform w).2 handles := by
  rw [calm, Attempt.perform_bind, Attempt.perform_lift]
  cases d.awakeSince.num with
  | error fault => exact h
  | ok since =>
    dsimp only
    rw [Attempt.perform_bind, Attempt.perform_lift]
    cases (Num.float now).sub since with
    | error fault => exact h
    | ok awakeFor =>
      dsimp only
      rw [Policy.nudge]
      split
      · exact F.sleep d.handle h
      · split
        · rw [Attempt.perform_bind, Attempt.perform_lift]
          cases p.dampingFor awakeFor with
          | error fault => exact h
          | ok factor => exact F.damp d.handle factor h
        · exact h

variable (p : Policy) (isFinal : Value → Bool) (now : Float)

/-- What is so of a die that is left alone, of one that is seen to have settled and of one that is seen
to move is so of all dice that are looked at. -/
theorem pollDice_forall₂ {R : Die → Die → Prop} (same : ∀ d, R d d)
    (settles : ∀ (w : ω) face d, look p isFinal w d = .ok (.settles face) → R d (settledOn face d))
    (moves : ∀ (w : ω) d, look p isFinal w d = .ok .moves → R d (inFlight now d))
    (dice : List Die) (w : ω) : List.Forall₂ R dice (pollDice p isFinal now dice w).2.1 := by
  fun_induction pollDice p isFinal now dice w with
  | case1 => exact .nil
  | case2 => exact List.forall₂_same.2 fun d _ => same d
  | case3 =>
    rename_i hrest ih
    rw [hrest] at ih
    exact .cons (same _) ih
  | case4 =>
    rename_i hlook _ _ _ hrest ih
    rw [hrest] at ih
    exact .cons (settles _ _ _ hlook) ih
  | case5 =>
    rename_i hlook _ _ _ _
    exact .cons (moves _ _ hlook) (List.forall₂_same.2 fun d _ => same d)
  | case6 =>
    rename_i hlook _ _ _ _ _ _ hrest ih
    rw [hrest] at ih
    exact .cons (moves _ _ hlook) ih

theorem pollDice_same (dice : List Die) (w : ω) :
    List.Forall₂ SameDie dice (pollDice p isFinal now dice w).2.1 :=
  pollDice_forall₂ p isFinal now .refl (fun _ face d _ => same_settledOn face d)
    (fun _ d _ => same_inFlight now d) dice w

/-- A die that has settled stays as it is if its roll has its result. -/
theorem pollDice_final (dice : List Die) (w : ω) :
    List.Forall₂ (fun d d' => d.settled = true → isFinal d.roll = true → d' = d) dice
      (pollDice p isFinal now dice w).2.1 := by
  have hlook : ∀ (w : ω) (d : Die) sight, d.settled = true → isFinal d.roll = true →
      look p isFinal w d = .ok sight → sight = .same := by
    intro w d sight hsettled hfinal h
    obtain ⟨rests, _, h⟩ := bind_eq_ok.1 h
    cases rests with
    | true =>
      rw [if_pos rfl, if_pos hsettled] at h
      exact (pure_eq_ok.1 h).symm
    | false =>
      rw [if_neg Bool.false_ne_true, hsettled, hfinal] at h
      exact (pure_eq_ok.1 h).symm
  refine pollDice_forall₂ p isFinal now (fun _ _ _ => rfl) (fun w face d h hsettled hfinal => ?_)
    (fun w d h hsettled hfinal => ?_) dice w
  · nomatch hlook w d _ hsettled hfinal h
  · nomatch hlook w d _ hsettled hfinal h

/-- Dice of one roll that have all settled stay as they are if it has its result. -/
theorem pollDice_kept {id : Value} {dice : List Die} (w : ω)
    (h : ∀ d ∈ dice, d.roll.same id = true → d.settled = true ∧ isFinal d.roll = true) :
    (pollDice p isFinal now dice w).2.1.filter (fun d => d.roll.same id) =
      dice.filter fun d => d.roll.same id := by
  have hsame := pollDice_same p isFinal now dice w
  have hfinal := pollDice_final p isFinal now dice w
  generalize (pollDice p isFinal now dice w).2.1 = dice' at hsame hfinal
  induction hsame with
  | nil => rfl
  | cons hd _ ih =>
    obtain ⟨hfirst, hrest⟩ := List.forall_mem_cons.1 h
    obtain ⟨hstays, hfinal⟩ := List.forall₂_cons.1 hfinal
    rw [List.filter_cons, List.filter_cons, hd.roll, ih hrest hfinal]
    split
    · next hid =>
      obtain ⟨hsettled, hresult⟩ := hfirst hid
      rw [hstays hsettled hresult]
    · rfl

theorem pollDice_holds (F : Footing ω) {handles : List Nat} (dice : List Die) {w : ω}
    (h : F.holds w handles) : F.holds (pollDice p isFinal now dice w).2.2 handles := by
  fun_induction pollDice p isFinal now dice w with
  | case1 => exact h
  | case2 => exact h
  | case3 =>
    rename_i hrest ih
    rw [hrest] at ih
    exact ih h
  | case4 =>
    rename_i hrest ih
    rw [hrest] at ih
    exact ih h
  | case5 =>
    rename_i d _ _ hcalm
    have hholds := calm_holds F h p now d
    rw [hcalm] at hholds
    exact hholds
  | case6 =>
    rename_i d _ hcalm _ _ _ hrest ih
    have hholds := calm_holds F h p now d
    rw [hcalm] at hholds
    rw [hrest] at ih
    exact ih hholds

/-- What is known of a die after it was looked at, given the rolls of those that have settled. -/
def Seen (ids : List Value) (d d' : Die) : Prop :=
  d'.settled = true → d.settled = true ∨ d.roll ∈ ids

theorem Seen.cons {ids : List Value} (id : Value) {dice dice' : List Die}
    (h : List.Forall₂ (Seen ids) dice dice') : List.Forall₂ (Seen (id :: ids)) dice dice' :=
  h.imp fun _ _ hseen hsettled => (hseen hsettled).imp_right (List.mem_cons_of_mem _)

theorem pollDice_settled (dice : List Die) (w : ω) {ids : List Value}
    (h : (pollDice p isFinal now dice w).1 = .ok ids) :
    List.Forall₂ (Seen ids) dice (pollDice p isFinal now dice w).2.1 := by
  fun_induction pollDice p isFinal now dice w generalizing ids with
  | case1 => exact .nil
  | case2 => nomatch h
  | case3 =>
    rename_i hrest ih
    rw [hrest] at ih
    exact .cons .inl (ih h)
  | case4 =>
    rename_i answer _ _ hrest ih
    rw [hrest] at ih
    cases answer with
    | error fault => nomatch h
    | ok ids =>
      cases h
      exact .cons (fun _ => .inr (List.mem_cons_self ..)) (Seen.cons _ (ih rfl))
  | case5 => nomatch h
  | case6 =>
    rename_i hrest ih
    rw [hrest] at ih
    exact .cons (fun hsettled => nomatch hsettled) (ih h)

/-- The rolls of dice that have settled are rolls of dice. -/
theorem pollDice_mem (dice : List Die) (w : ω) {ids : List Value}
    (h : (pollDice p isFinal now dice w).1 = .ok ids) : ∀ id ∈ ids, ∃ d ∈ dice, d.roll = id := by
  fun_induction pollDice p isFinal now dice w generalizing ids with
  | case1 =>
    cases h
    exact fun _ h => nomatch h
  | case2 => nomatch h
  | case3 =>
    rename_i hrest ih
    rw [hrest] at ih
    intro id hid
    obtain ⟨d, hd, hroll⟩ := ih h id hid
    exact ⟨d, List.mem_cons_of_mem _ hd, hroll⟩
  | case4 =>
    rename_i answer _ _ hrest ih
    rw [hrest] at ih
    cases answer with
    | error fault => nomatch h
    | ok ids =>
      cases h
      intro id hid
      rcases List.mem_cons.1 hid with rfl | hid
      · exact ⟨_, List.mem_cons_self .., rfl⟩
      · obtain ⟨d, hd, hroll⟩ := ih rfl id hid
        exact ⟨d, List.mem_cons_of_mem _ hd, hroll⟩
  | case5 => nomatch h
  | case6 =>
    rename_i hrest ih
    rw [hrest] at ih
    intro id hid
    obtain ⟨d, hd, hroll⟩ := ih h id hid
    exact ⟨d, List.mem_cons_of_mem _ hd, hroll⟩

/-- All dice are looked at. -/
theorem poll_change (ho : Orderly S owed t) : Change S .wild t owed (poll.perform t).2 owed :=
  .look _ _ (pollDice_same ..) fun F hF => pollDice_holds _ _ _ F t.dice (ho.holds F hF)

end RollTray.Tray
