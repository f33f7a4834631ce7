import RollTray.Formula.Evaluation

/-!
# Reductions

A reduction applies the operators on top of the stack for as long as it may. `Reduces` says what one does
that succeeds, operator by operator (`reduces_of_reduce`): what every reduction keeps is found by induction
on it, beginning with what it leaves waiting (`waiting_of_reduce`).
-/

namespace RollTray.Formula

/-- An operator that a reduction takes. -/
def Waiting.isTaken (taken : Operator → Bool) : Waiting → Bool
  | .operator op => taken op
  | _ => false

section

variable {taken : Operator → Bool} {op : Operator} {waiting : List Waiting}

theorem dropWhile_isTaken_of_taken (h : taken op = true) (ws : List Waiting) :
    (Waiting.operator op :: ws).dropWhile (Waiting.isTaken taken) =
      ws.dropWhile (Waiting.isTaken taken) :=
  List.dropWhile_cons_of_pos h

theorem dropWhile_isTaken_of_head (h : ∀ w ∈ waiting.head?, w.isTaken taken = false) :
    waiting.dropWhile (Waiting.isTaken taken) = waiting := by
  cases waiting with
  | nil => rfl
  | cons w waiting => exact List.dropWhile_cons_of_neg (by simp [h w rfl])

theorem head_of_not_taken (h : taken op = false) :
    ∀ w ∈ (Waiting.operator op :: waiting).head?, w.isTaken taken = false := by
  rintro _ ⟨⟩
  exact h

end

section

variable {dry : Bool} {taken : Operator → Bool}

/-! ## One operator -/

theorem reduce_operator {op : Operator} (h : taken op = true) (a b : Amount) (values : List Amount)
    (waiting : List Waiting) :
    reduce dry taken (b :: a :: values) (.operator op :: waiting) =
      op.apply dry a b >>= fun r => reduce dry taken (r :: values) waiting := by
  rw [reduce, if_pos h]

/-- An operator that is taken needs two amounts. -/
theorem reduce_of_length_lt {op : Operator} (h : taken op = true) (values : List Amount)
    (hlength : values.length < 2) (waiting : List Waiting) :
    reduce dry taken values (.operator op :: waiting) =
      .error (.evaluation (.tooFewOperands op.symbol)) := by
  match values, hlength with
  | [], _ => rw [reduce, if_pos h]; nofun
  | [_], _ => rw [reduce, if_pos h]; nofun

/-- Where no operator on top is taken, nothing is done. -/
theorem reduce_of_head {waiting : List Waiting} (h : ∀ w ∈ waiting.head?, w.isTaken taken = false)
    (values : List Amount) : reduce dry taken values waiting = .ok (values, waiting) := by
  cases waiting with
  | nil => rfl
  | cons w waiting =>
    cases w with
    | function f => rfl
    | parenthesis splice => rfl
    | operator op =>
      have hnot : ¬taken op = true := Bool.eq_false_iff.1 (h _ rfl)
      unfold reduce
      rw [if_neg hnot]

/-! ## Reductions that succeed -/

/-- The amounts and what waits before a reduction, and after it. -/
inductive Reduces (dry : Bool) (taken : Operator → Bool) :
    List Amount → List Waiting → List Amount → List Waiting → Prop
  | stops {values : List Amount} {waiting : List Waiting}
      (h : ∀ w ∈ waiting.head?, w.isTaken taken = false) : Reduces dry taken values waiting values waiting
  | applies {op : Operator} {a b r : Amount} {values values' : List Amount}
      {waiting waiting' : List Waiting} (htaken : taken op = true) (happly : op.apply dry a b = .ok r)
      (rest : Reduces dry taken (r :: values) waiting values' waiting') :
      Reduces dry taken (b :: a :: values) (.operator op :: waiting) values' waiting'

variable {values values' : List Amount} {waiting waiting' : List Waiting}

theorem reduces_of_reduce (h : reduce dry taken values waiting = .ok (values', waiting')) :
    Reduces dry taken values waiting values' waiting' := by
  induction waiting generalizing values with
  | nil =>
    cases h
    exact .stops nofun
  | cons w waiting ih =>
    cases hw : w.isTaken taken with
    | false =>
      have hhead : ∀ w' ∈ (w :: waiting).head?, w'.isTaken taken = false := by
        rintro _ ⟨⟩
        exact hw
      cases (reduce_of_head hhead values).symm.trans h
      exact .stops hhead
    | true =>
      cases w with
      | function f => cases hw
      | parenthesis splice => cases hw
      | operator op =>
        match values with
        | b :: a :: values =>
          obtain ⟨r, happly, h⟩ := bind_eq_ok.1 ((reduce_operator hw a b values waiting).symm.trans h)
          exact .applies hw happly (ih h)
        | [] => cases (reduce_of_length_lt hw [] Nat.zero_lt_two waiting).symm.trans h
        | [a] => cases (reduce_of_length_lt hw [a] Nat.one_lt_two waiting).symm.trans h

/-- A reduction takes operators from the top for as long as it may. -/
theorem waiting_of_reduce (h : reduce dry taken values waiting = .ok (values', waiting')) :
    waiting' = waiting.dropWhile (Waiting.isTaken taken) := by
  replace h := reduces_of_reduce h
  induction h with
  | stops h => exact (dropWhile_isTaken_of_head h).symm
  | applies htaken _ _ ih => rw [dropWhile_isTaken_of_taken htaken, ih]

end

end RollTray.Formula
