import RollTray.Proofs.Formula.Reduction

/-!
# What a parenthesis comes to

Each function that takes amounts from the stack, read back from its result: a call (`exists_of_call`), the
inside of a parenthesis (`enclosed_eq_ok`), a parenthesis that is left (`leave_eq`, `exists_of_leave`) or
closed (`exists_of_close`), and the end of an expression (`finish_eq_ok`).
-/

namespace RollTray.Formula

section

variable {arguments : List Amount} {result : Amount}

/-- A call is explained by its arguments, of which `max` and `min` strike all but one through. -/
theorem exists_of_call {f : Function} (h : f.apply arguments = .ok result) :
    ∃ value texts, result = { value, breakdown := f.call texts } ∧
      (texts = arguments.map Amount.breakdown ∨ texts = strikeOthers value arguments) := by
  have hselect : ∀ {pick : Num → List Num → Num},
      (f.select pick arguments).mapError Fault.evaluation = .ok result →
      ∃ value, result = { value, breakdown := f.call (strikeOthers value arguments) } := by
    intro pick h
    cases arguments with
    | nil => cases h
    | cons a rest =>
      cases h
      exact ⟨_, rfl⟩
  cases f with
  | max =>
    obtain ⟨value, hresult⟩ := hselect h
    exact ⟨value, _, hresult, .inr rfl⟩
  | min =>
    obtain ⟨value, hresult⟩ := hselect h
    exact ⟨value, _, hresult, .inr rfl⟩
  | avg =>
    obtain ⟨value, -, h⟩ := bind_eq_ok.1 h
    cases h
    exact ⟨value, _, rfl, .inl rfl⟩

/-- A group is the only amount in it. -/
theorem group_eq_ok {splice : Bool} : group splice arguments = .ok result ↔
    ∃ inner, arguments = [inner] ∧ result =
      if splice then inner else { inner with breakdown := "(" ++ inner.breakdown ++ ")" } := by
  match arguments with
  | [] => exact iff_of_false nofun nofun
  | [inner] => simp [group, eq_comm]
  | _ :: _ :: _ => exact iff_of_false nofun nofun

/-- What a closed parenthesis comes to, and what waits outside it. -/
def enclosed (isCall splice : Bool) (waiting : List Waiting) (arguments : List Amount) :
    Except Fault (Amount × List Waiting) :=
  if isCall then
    match waiting with
    | .function f :: waiting => do return (← f.apply arguments, waiting)
    | _ => .error .outOfRange
  else do return (← (group splice arguments).mapError .evaluation, waiting)

/-- A parenthesis is the call of the function that waits below it, or a group. -/
theorem enclosed_eq_ok {isCall splice : Bool} {waiting waiting' : List Waiting} :
    enclosed isCall splice waiting arguments = .ok (result, waiting') ↔
      (isCall = true ∧ ∃ f, waiting = .function f :: waiting' ∧ f.apply arguments = .ok result) ∨
        isCall = false ∧ waiting = waiting' ∧ group splice arguments = .ok result := by
  cases isCall with
  | false =>
    simp only [enclosed, Bool.false_eq_true, if_false, false_and, false_or, true_and, bind_eq_ok,
      mapError_eq_ok]
    constructor
    · rintro ⟨a, hgroup, h⟩
      cases h
      exact ⟨rfl, hgroup⟩
    · rintro ⟨rfl, hgroup⟩
      exact ⟨result, hgroup, rfl⟩
  | true =>
    simp only [enclosed, if_true, true_and, Bool.true_eq_false, false_and, or_false]
    constructor
    · intro h
      split at h
      · next f inner =>
        obtain ⟨a, hcall, h⟩ := bind_eq_ok.1 h
        cases h
        exact ⟨f, rfl, hcall⟩
      · cases h
    · rintro ⟨f, rfl, hcall⟩
      exact bind_eq_ok.2 ⟨result, hcall, rfl⟩

end

/-! ## Parentheses that are left -/

/-- The amounts inside a parenthesis are its arguments. -/
theorem leave_eq {m : Machine} {splice isCall : Bool} {waiting : List Waiting} {calls : List Bool}
    {base : Nat} {bases : List Nat} (hw : m.waiting = .parenthesis splice :: waiting)
    (hc : m.calls = isCall :: calls) (hb : m.bases = base :: bases) :
    m.leave = enclosed isCall splice waiting
        (m.values.take (m.values.length - base)).reverse >>= fun result =>
      pure ({ m with
        values := m.values.drop (m.values.length - base)
        calls, bases, waiting := result.2 }.push splice result.1) := by
  unfold Machine.leave enclosed
  rw [hw, hc, hb]
  cases isCall with
  | false => simp only [Bool.false_eq_true, if_false, bind_assoc, pure_bind]
  | true =>
    cases waiting with
    | nil => rfl
    | cons w waiting =>
      cases w with
      | function f => simp only [if_true, bind_assoc, pure_bind]
      | _ => rfl

/-- Only a parenthesis can be left, and what it comes to is pushed in its place. -/
theorem exists_of_leave {m m' : Machine} (h : m.leave = .ok m') :
    ∃ splice waiting isCall calls base bases result waiting',
      m.waiting = .parenthesis splice :: waiting ∧ m.calls = isCall :: calls ∧ m.bases = base :: bases ∧
      enclosed isCall splice waiting (m.values.take (m.values.length - base)).reverse =
        .ok (result, waiting') ∧
      m' = { m with
        values := m.values.drop (m.values.length - base)
        calls, bases, waiting := waiting' }.push splice result := by
  have hstacks : ∃ splice waiting isCall calls base bases, m.waiting = .parenthesis splice :: waiting ∧
      m.calls = isCall :: calls ∧ m.bases = base :: bases := by
    unfold Machine.leave at h
    dsimp only at h
    split at h
    · cases h
    · rename_i hw hc hb
      exact ⟨_, _, _, _, _, _, hw, hc, hb⟩
    · cases h
  obtain ⟨splice, waiting, isCall, calls, base, bases, hw, hc, hb⟩ := hstacks
  rw [leave_eq hw hc hb] at h
  obtain ⟨⟨result, waiting'⟩, hresult, h⟩ := bind_eq_ok.1 h
  cases h
  exact ⟨splice, waiting, isCall, calls, base, bases, result, waiting', hw, hc, hb, hresult, rfl⟩

/-- What is left once a parenthesis is closed. -/
theorem exists_of_close {context : Context} {m m' : Machine} (h : m.close context = .ok m') :
    ∃ splice ws, m.waiting.dropWhile (Waiting.isTaken fun _ => true) = .parenthesis splice :: ws ∧
      m'.splicing = m.splicing ∧
      (m.calls = false :: m'.calls ∧ ws = m'.waiting ∨
        m.calls = true :: m'.calls ∧ ∃ f, ws = .function f :: m'.waiting) := by
  obtain ⟨⟨values, waiting⟩, hreduce, h⟩ := bind_eq_ok.1 h
  change ({ m with values, waiting } : Machine).leave = .ok m' at h
  obtain ⟨splice, ws, isCall, calls, base, bases, result, waiting', hw, hc, -, henclosed, rfl⟩ :=
    exists_of_leave h
  refine ⟨splice, ws, (waiting_of_reduce hreduce).symm.trans hw, rfl, ?_⟩
  obtain ⟨rfl, f, hf, -⟩ | ⟨rfl, hwaiting, -⟩ := enclosed_eq_ok.1 henclosed
  · exact .inr ⟨hc, f, hf⟩
  · exact .inl ⟨hc, hwaiting⟩

/-! ## The end of an expression -/

theorem outcome_eq_ok {values : List Amount} {amount : Amount} :
    outcome values = .ok amount ↔ values = [] ∧ amount = .zero ∨ values = [amount] := by
  match values with
  | [] => simp [outcome, eq_comm]
  | [a] => simp [outcome]
  | _ :: _ :: _ => exact iff_of_false nofun (by simp)

/-- A machine ends with the only amount that is left once all that waits is applied. -/
theorem finish_eq_ok {context : Context} {m : Machine} {amount : Amount} :
    m.finish context = .ok amount ↔ m.checkEnd = .ok () ∧
      ∃ values, reduceAll context.dry m.values m.waiting = .ok (values, []) ∧
        outcome values = .ok amount := by
  refine bind_eq_ok.trans ⟨?_, ?_⟩
  · rintro ⟨_, hcheck, h⟩
    obtain ⟨⟨values, waiting⟩, hreduce, h⟩ := bind_eq_ok.1 h
    dsimp only at h
    split at h
    · next hempty =>
      obtain rfl := List.isEmpty_iff.1 hempty
      exact ⟨mapError_eq_ok.1 hcheck, values, hreduce, mapError_eq_ok.1 h⟩
    · cases h
  · rintro ⟨hcheck, values, hreduce, houtcome⟩
    exact ⟨(), mapError_eq_ok.2 hcheck, bind_eq_ok.2 ⟨(values, []), hreduce, mapError_eq_ok.2 houtcome⟩⟩

end RollTray.Formula
