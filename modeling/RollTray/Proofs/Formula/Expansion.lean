import Mathlib.Data.List.Forall2
import RollTray.Proofs.Formula.Arguments
import RollTray.Proofs.Formula.Template

/-!
# Splices expand

A splice in a call spreads what its place stands for: the call has the same outcome as with an argument for
each operand, and as without the splice if there are none (`evaluateTokens_expand`). The exception is a splice
of nothing next to nothing but an empty argument: their comma misses an operand, and there is no outcome.

A splice where an argument begins puts its operands on the stack (`run_splice`), as their places do one by one
(`run_places`), and a comma or parenthesis behind them does not depend on which token was the last
(`run_hold_of_ends`). All this is about tagged tokens; tagging goes argument by argument (`tagSplices_call`).
-/

namespace RollTray.Formula

section

variable {context : Context} {m m' : Machine} {f : Function} {before after : List Token}
  {left right : List (List Token)}

/-! ## Operands of a call -/

/-- A place that is spliced, bare or in parentheses. -/
def IsSpliceOf (index : String) (tokens : List Token) : Prop :=
  tokens = [.splice, .place index] ∨ tokens = [.splice, .opening, .place index, .closing]

theorem step_place {index : String} {amount : Amount}
    (hm : m.previous.any Token.endsOperand = false) (hplace : context.place index = .ok amount)
    (next : Option Token) : m.step context (.place index) next =
      .ok { m.push m.splicing amount with splicing := false, previous := some (.place index) } := by
  have hcheck : m.checkOrder (.place index) = .ok () := by
    simp [Machine.checkOrder, hm, Token.followsOperand]
  have hread : m.read context (.place index) next =
      .ok { m.push m.splicing amount with splicing := false } := by
    rw [Machine.read, hplace]
    rfl
  exact step_eq_ok hcheck hread

/-- The machine in a spliced parenthesis that holds an amount. -/
def Machine.spread (m : Machine) (amount : Amount) (last : Token) : Machine :=
  { m with
    values := amount :: m.values
    waiting := .parenthesis true :: m.waiting
    calls := false :: m.calls
    bases := m.values.length :: m.bases
    previous := some last }

/-- A spliced parenthesis spreads the operands of the only amount in it. -/
theorem step_closing_spread (m : Machine) (amount : Amount) {last : Token}
    (hlast : last.endsOperand = true) (next : Option Token) :
    (m.spread amount last).step context .closing next =
      .ok (m.hold amount.operands.reverse [] .closing) := by
  have hlength : (amount :: m.values).length - m.values.length = 1 := by
    rw [List.length_cons, Nat.add_sub_cancel_left]
  have hread : (m.spread amount last).read context .closing next =
      .ok (m.hold amount.operands.reverse [] last) := by
    show (m.spread amount last).leave = _
    unfold Machine.leave Machine.spread
    dsimp only
    rw [hlength]
    rfl
  exact step_eq_ok (checkOrder_of_followsOperand rfl hlast rfl) hread

/-- A splice puts what its place stands for on the stack. -/
theorem Machine.AtArgument.run_splice {index : String} {spliced : List Token} {amount : Amount}
    (hm : m.AtArgument) (hspliced : IsSpliceOf index spliced)
    (hplace : context.place index = .ok amount) :
    ∃ last, Token.endsOperand last = true ∧ ∀ rest, m.run context (spliced ++ rest) =
      (m.hold amount.operands.reverse [] last).run context rest := by
  have hcheck : m.checkOrder .splice = .ok () := by
    simp [Machine.checkOrder, hm.not_ended, Token.followsOperand]
  obtain ⟨values, waiting, calls, bases, splicing, previous⟩ := m
  obtain rfl : splicing = false := hm.splicing
  rcases hspliced with rfl | rfl
  · refine ⟨.place index, rfl, fun rest => ?_⟩
    rw [List.cons_append, Machine.run, step_eq_ok hcheck rfl, ok_bind, List.singleton_append,
      Machine.run, step_place rfl hplace, ok_bind]
    rfl
  · refine ⟨.closing, rfl, fun rest => ?_⟩
    rw [List.cons_append, Machine.run, step_eq_ok hcheck rfl, ok_bind, List.cons_append, Machine.run,
      step_eq_ok rfl rfl, ok_bind, List.cons_append, Machine.run, step_place rfl hplace, ok_bind,
      List.singleton_append, Machine.run]
    have hended : (Token.place index).endsOperand = true := rfl
    exact congrArg (· >>= fun m => m.run context rest) (step_closing_spread
      ⟨values, waiting, calls, bases, false, previous⟩ amount hended rest.head?)

theorem Machine.hold_eq {last : Token} (hlast : m.previous = some last) : m.hold [] [] last = m := by
  obtain ⟨values, waiting, calls, bases, splicing, previous⟩ := m
  cases hlast
  rfl

theorem step_comma (hcall : m.calls.head? = some true) {last : Token} (hm : m.previous = some last)
    (hlast : last.endsOperand = true) (next : Option Token) : m.step context .comma next =
      reduceAll context.dry m.values m.waiting >>= fun rest =>
        .ok { m with values := rest.1, waiting := rest.2, previous := some .comma } := by
  rw [Machine.step, checkOrder_of_followsOperand hm hlast rfl, Machine.read]
  simp only [hcall, if_true]
  cases reduceAll context.dry m.values m.waiting <;> rfl

/-- More arguments that are places put their amounts on the stack one by one. -/
theorem run_places {indices : List String} {amounts : List Amount}
    (hplaces : List.Forall₂ (fun index amount => context.place index = .ok amount) indices amounts)
    (hcall : m.calls.head? = some true) (hsplicing : m.splicing = false) (hstops : Stops 0 m.waiting)
    {last : Token} (hm : m.previous = some last) (hlast : last.endsOperand = true) :
    ∃ last', Token.endsOperand last' = true ∧ ∀ rest,
      m.run context (indices.flatMap (fun index => [.comma, .place index]) ++ rest) =
        (m.hold amounts.reverse [] last').run context rest := by
  induction hplaces generalizing m last with
  | nil =>
    refine ⟨last, hlast, fun rest => ?_⟩
    rw [List.reverse_nil, Machine.hold_eq hm]
    rfl
  | @cons index amount indices amounts hplace _ ih =>
    have hcomma : ∀ next, m.step context .comma next = .ok { m with previous := some .comma } := by
      intro next
      rw [step_comma hcall hm hlast, reduceAll_of_stops hstops, ok_bind]
    have hpush : ∀ next, Machine.step context { m with previous := some .comma } (.place index) next =
        .ok (m.hold [amount] [] (.place index)) := by
      intro next
      rw [step_place rfl hplace]
      obtain ⟨values, waiting, calls, bases, splicing, previous⟩ := m
      cases hsplicing
      rfl
    obtain ⟨last', hlast', hrun⟩ := ih (m := m.hold [amount] [] (.place index)) hcall hsplicing hstops
      rfl rfl
    refine ⟨last', hlast', fun rest => ?_⟩
    rw [List.flatMap_cons, List.append_assoc, List.cons_append, Machine.run, hcomma, ok_bind,
      List.singleton_append, Machine.run, hpush, ok_bind, hrun]
    simp [Machine.hold]

/-- What a parenthesis is left with does not depend on the token before it. -/
theorem leave_previous (m : Machine) (previous : Option Token) :
    ({ m with previous }.leave >>= fun m' => .ok { m' with previous := some .closing }) =
      m.leave >>= fun m' => .ok { m' with previous := some .closing } := by
  obtain ⟨values, waiting, calls, bases, splicing, previous'⟩ := m
  unfold Machine.leave
  dsimp only
  split
  · rfl
  · split
    · split
      · rw [bind_assoc, bind_assoc]
        rfl
      · rfl
    · rw [bind_assoc, bind_assoc]
      rfl
  · rfl

theorem step_closing (hcheck : m.checkOrder .closing = .ok ()) (next : Option Token) :
    m.step context .closing next =
      reduceAll context.dry m.values m.waiting >>= fun rest =>
        { m with values := rest.1, waiting := rest.2 }.leave >>= fun m' =>
          .ok { m' with previous := some .closing } := by
  rw [Machine.step, hcheck, Machine.read, Machine.close]
  cases reduceAll context.dry m.values m.waiting <;> rfl

/-- To a parenthesis that closes the last token does not matter, if one may stand behind it. -/
theorem step_closing_eq {previous : Option Token} (hcheck : m.checkOrder .closing = .ok ())
    (hcheck' : { m with previous }.checkOrder .closing = .ok ()) (next : Option Token) :
    { m with previous }.step context .closing next = m.step context .closing next := by
  rw [step_closing hcheck, step_closing hcheck']
  exact bind_congr fun rest =>
    leave_previous { m with values := rest.1, waiting := rest.2 } previous

/-- Which operand of a call is the last one does not matter to the comma or parenthesis behind it. -/
theorem run_hold_of_ends (hcall : m.calls.head? = some true) (values : List Amount) {last last' token : Token}
    (hlast : last.endsOperand = true) (hlast' : last'.endsOperand = true)
    (htoken : token = .comma ∨ token = .closing) (rest : List Token) :
    (m.hold values [] last).run context (token :: rest) =
      (m.hold values [] last').run context (token :: rest) := by
  have hstep : (m.hold values [] last).step context token rest.head? =
      (m.hold values [] last').step context token rest.head? := by
    rcases htoken with rfl | rfl
    · rw [step_comma (m := m.hold values [] last) hcall rfl hlast,
        step_comma (m := m.hold values [] last') hcall rfl hlast']
      rfl
    · exact step_closing_eq (m := m.hold values [] last') (checkOrder_of_followsOperand rfl hlast' rfl)
        (checkOrder_of_followsOperand rfl hlast rfl) _
  rw [Machine.run, Machine.run, hstep]

/-! ## As many arguments as operands -/

/-- A splice and as many places come to the same, if there is at least one. -/
theorem complete_splice_eq {context' : Context} (hm : m.AtArgument) {spliced : List Token}
    {index fresh : String} {indices : List String} {amount item : Amount} {items : List Amount}
    (hspliced : IsSpliceOf index spliced) (hplace : context.place index = .ok amount)
    (hoperands : amount.operands = item :: items) (hfresh : context'.place fresh = .ok item)
    (hplaces : List.Forall₂ (fun index item => context'.place index = .ok item) indices items)
    (hagrees : context.AgreesOn context' (backTokens right after)) :
    m.complete context (spliced ++ backTokens right after) = m.complete context'
      (.place fresh :: indices.flatMap (fun index => [.comma, .place index]) ++ backTokens right after) := by
  obtain ⟨last, hlast, hrun⟩ := hm.run_splice hspliced hplace
  have hfirst : ∀ next, m.step context' (.place fresh) next =
      .ok (m.hold [item] [] (.place fresh)) := by
    intro next
    rw [step_place hm.not_ended hfresh]
    obtain ⟨values, waiting, calls, bases, splicing, previous⟩ := m
    obtain rfl : splicing = false := hm.splicing
    rfl
  obtain ⟨last', hlast', hrun'⟩ := run_places (m := m.hold [item] [] (.place fresh)) hplaces hm.call
    hm.splicing hm.stops rfl rfl
  obtain ⟨token, rest, hback, htoken⟩ := exists_backTokens right after
  have hhold : (m.hold [item] [] (.place fresh)).hold items.reverse [] last' =
      m.hold amount.operands.reverse [] last' := by
    rw [hoperands]
    simp [Machine.hold]
  rw [Machine.complete, hrun, List.cons_append, Machine.complete, Machine.run, hfirst, ok_bind, hrun',
    hhold, hback, run_hold_of_ends hm.call _ hlast hlast' htoken, ← hback]
  exact (complete_congr hagrees).symm

/-! ## No operands at all -/

section

variable {spliced : List Token} {index : String} {amount : Amount}

/-- A splice of nothing leaves the machine as it was, but that an operand seems to have ended. -/
theorem complete_splice_nil (hm : m.AtArgument) (hspliced : IsSpliceOf index spliced)
    (hplace : context.place index = .ok amount) (hnone : amount.operands = []) :
    ∃ last, Token.endsOperand last = true ∧ ∀ rest, m.complete context (spliced ++ rest) =
      Machine.complete context { m with previous := some last } rest := by
  obtain ⟨last, hlast, hrun⟩ := hm.run_splice hspliced hplace
  refine ⟨last, hlast, fun rest => ?_⟩
  rw [Machine.complete, hrun, hnone]
  rfl

/-- In an empty call. -/
theorem complete_splice_alone (hm : m.AtArgument) (hopening : m.previous = some .opening)
    (hspliced : IsSpliceOf index spliced) (hplace : context.place index = .ok amount)
    (hnone : amount.operands = []) (after : List Token) :
    m.complete context (spliced ++ .closing :: after) = m.complete context (.closing :: after) := by
  obtain ⟨last, hlast, hcomplete⟩ := complete_splice_nil hm hspliced hplace hnone
  have hempty : m.checkOrder .closing = .ok () := by
    simp [Machine.checkOrder, hopening, hm.call, Token.startsOperand]
  rw [hcomplete, Machine.complete, Machine.complete, Machine.run, Machine.run,
    step_closing_eq hempty (checkOrder_of_followsOperand rfl hlast rfl)]

/-- The comma behind a splice of nothing is like the one before it. -/
theorem complete_splice_comma (hm : m.AtArgument) (hspliced : IsSpliceOf index spliced)
    (hplace : context.place index = .ok amount) (hnone : amount.operands = []) (rest : List Token) :
    m.complete context (spliced ++ .comma :: rest) =
      Machine.complete context { m with previous := some .comma } rest := by
  obtain ⟨last, hlast, hcomplete⟩ := complete_splice_nil hm hspliced hplace hnone
  have hstep : ∀ next, Machine.step context { m with previous := some last } .comma next =
      .ok { m with previous := some .comma } := by
    intro next
    rw [step_comma (m := { m with previous := some last }) hm.call rfl hlast,
      reduceAll_of_stops hm.stops, ok_bind]
  rw [hcomplete, Machine.complete, Machine.run, hstep, ok_bind]
  rfl

/-- What is not an empty argument begins alike behind a comma and behind the parenthesis. -/
theorem complete_comma_eq_opening (hopening : m.previous = some .opening) {token : Token}
    (htoken : token ≠ .closing) (rest : List Token) :
    Machine.complete context { m with previous := some .comma } (token :: rest) =
      m.complete context (token :: rest) := by
  have hstep : ∀ next, Machine.step context { m with previous := some .comma } token next =
      m.step context token next := by
    intro next
    obtain ⟨values, waiting, calls, bases, splicing, previous⟩ := m
    cases hopening
    cases token with
    | closing => exact absurd rfl htoken
    | place index =>
      rw [Machine.step, Machine.step, Machine.read, Machine.read]
      cases context.place index <;> rfl
    | name letters =>
      rw [Machine.step, Machine.step, Machine.read, Machine.read]
      cases Function.ofName? letters with
      | none => rfl
      | some f =>
        dsimp only
        split <;> rfl
    | _ => rfl
  rw [Machine.complete, Machine.complete, Machine.run, Machine.run, hstep]

/-- In front of the other arguments. -/
theorem complete_splice_first (hm : m.AtArgument) (hspliced : IsSpliceOf index spliced)
    (hplace : context.place index = .ok amount) (hnone : amount.operands = []) {argument : List Token}
    (hargument : IsBalanced argument)
    (hfirst : m.previous = some .opening → argument :: right ≠ [[]]) :
    m.complete context (spliced ++ backTokens (argument :: right) after) =
      m.complete context (argument ++ backTokens right after) := by
  have hback : backTokens (argument :: right) after = .comma :: (argument ++ backTokens right after) := by
    simp [backTokens]
  rw [hback, complete_splice_comma hm hspliced hplace hnone]
  rcases hm.previous with hopening | hcomma
  · obtain ⟨token, rest, htokens, htoken⟩ : ∃ token rest,
        argument ++ backTokens right after = token :: rest ∧ token ≠ .closing := by
      cases argument with
      | cons token argument =>
        refine ⟨token, _, List.cons_append, ?_⟩
        rintro rfl
        cases hargument
      | nil =>
        cases right with
        | nil => exact absurd rfl (hfirst hopening)
        | cons argument right => exact ⟨.comma, _, rfl, by simp⟩
    rw [htokens, complete_comma_eq_opening hopening htoken]
  · have hsame : { m with previous := some .comma } = m := by
      obtain ⟨values, waiting, calls, bases, splicing, previous⟩ := m
      cases hcomma
      rfl
    rw [hsame]

/-- Where no operand has ended, what should follow one is refused, unless it closes a call that has no
arguments. -/
theorem step_nothingBefore (token : Token) (hended : m.previous.any Token.endsOperand = false)
    (hstarts : token.startsOperand = false) (hfollows : token.followsOperand = true)
    (hempty : token ≠ .closing ∨ m.previous ≠ some .opening) (next : Option Token) :
    m.step context token next = .error (.evaluation (.nothingBefore token.text)) := by
  have hcheck : m.checkOrder token = .error (.nothingBefore token.text) := by
    rcases hempty with hempty | hempty <;> simp [Machine.checkOrder, hstarts, hfollows, hended, hempty]
  rw [Machine.step, hcheck]
  rfl

/-- Where an argument has ended, or where one is missing, a comma and a splice of nothing change nothing
for the parenthesis behind them. -/
theorem complete_comma_splice (hcall : m.calls.head? = some true) (hm : m.Poised)
    (hopening : m.previous ≠ some .opening) (hspliced : IsSpliceOf index spliced)
    (hplace : context.place index = .ok amount) (hnone : amount.operands = []) :
    (m.complete context (.comma :: (spliced ++ .closing :: after))).toOption =
      (m.complete context (.closing :: after)).toOption := by
  rw [Machine.complete, Machine.complete, Machine.run, Machine.run]
  cases hended : m.previous.any Token.endsOperand with
  | false =>
    have hnotClosing : Token.comma ≠ .closing := by decide
    rw [step_nothingBefore .comma hended rfl rfl (.inl hnotClosing),
      step_nothingBefore .closing hended rfl rfl (.inr hopening)]
    rfl
  | true =>
    obtain ⟨last, hlast, hends⟩ := (Option.any_eq_true ..).1 hended
    have hcheck : m.checkOrder .closing = .ok () := checkOrder_of_followsOperand hlast hends rfl
    have hcomma : ∀ next, m.step context .comma next = _ := step_comma hcall hlast hends
    rw [step_closing hcheck]
    cases hreduce : reduceAll context.dry m.values m.waiting with
    | error fault =>
      rw [hcomma, hreduce]
      rfl
    | ok rest =>
      rw [hreduce] at hcomma
      obtain ⟨hm₁, -⟩ := atArgument_of_comma hcall hm (hcomma none)
      obtain ⟨last', hlast', hcomplete⟩ := complete_splice_nil hm₁ hspliced hplace hnone
      let m₁ : Machine := { m with values := rest.1, waiting := rest.2 }
      have hclosing : Machine.step context { m₁ with previous := some last' } .closing after.head? =
          m₁.leave >>= fun m' => .ok { m' with previous := some .closing } := by
        have hcheck' : Machine.checkOrder { m₁ with previous := some last' } .closing = .ok () :=
          checkOrder_of_followsOperand rfl hlast' rfl
        rw [step_closing hcheck', reduceAll_of_stops hm₁.stops, ok_bind]
        exact leave_previous m₁ (some last')
      rw [hcomma]
      show (Machine.complete context { m₁ with previous := some .comma }
        (spliced ++ .closing :: after)).toOption = _
      rw [hcomplete, Machine.complete, Machine.run, hclosing]
      rfl

/-- Behind the other arguments. -/
theorem complete_splice_last (hm : m.AtArgument) (hspliced : IsSpliceOf index spliced)
    (hplace : context.place index = .ok amount) (hnone : amount.operands = []) {argument : List Token}
    (hargument : IsBalanced argument)
    (hlast : m.previous = some .opening → argument ≠ []) :
    (m.complete context (argument ++ .comma :: (spliced ++ .closing :: after))).toOption =
      (m.complete context (argument ++ .closing :: after)).toOption := by
  rw [complete_append (by simp), complete_append (by simp)]
  cases hrun : m.run context argument with
  | error fault => rfl
  | ok m' =>
    have hcall : m'.calls.head? = some true := by
      rw [calls_of_run hargument hrun]
      exact hm.call
    refine complete_comma_splice hcall (hm.poised.run hrun) ?_ hspliced hplace hnone
    intro hopening
    rcases List.eq_nil_or_concat argument with rfl | ⟨front, token, rfl⟩
    · cases hrun
      exact hlast hopening rfl
    · rw [List.concat_eq_append] at hargument hrun
      rw [previous_of_run (by simp) hrun, List.getLast?_concat] at hopening
      cases hopening
      exact depthAfter?_append_opening front hargument

/-! ## Calls -/

/-- The last argument before the splice, if there are any, ends with a comma. -/
theorem eq_nil_of_opening (hleft : ∀ argument ∈ left, IsBalanced argument)
    (hrun : Machine.run context {} (frontTokens before f left) = .ok m)
    (hopening : m.previous = some .opening) : left = [] := by
  obtain ⟨-, -, hcomma⟩ := atArgument_front hleft hrun
  by_contra hne
  cases hopening.symm.trans (hcomma hne)

/-- A splice of nothing next to an empty argument is no call. -/
theorem toOption_splice_empty (hspliced : IsSpliceOf index spliced)
    (hplace : context.place index = .ok amount) (hnone : amount.operands = [])
    (hempty : left ++ right = [[]]) :
    (evaluateTokens context (before ++ callTokens f (left ++ spliced :: right) ++ after)).toOption =
      none := by
  rw [callTokens_eq, evaluateTokens_front]
  cases hrun : Machine.run context {} (frontTokens before f left) with
  | error fault => rfl
  | ok m =>
    obtain ⟨rfl, rfl⟩ | ⟨rfl, rfl⟩ : left = [] ∧ right = [[]] ∨ left = [[]] ∧ right = [] := by
      rcases List.append_eq_singleton_iff.1 hempty with h | h
      · exact .inl h
      · exact .inr h
    · obtain ⟨hm, -⟩ := atArgument_front (List.forall_mem_nil _) hrun
      rw [ok_bind]
      show (m.complete context (spliced ++ .comma :: .closing :: after)).toOption = none
      have hrefused : ∀ next, Machine.step context { m with previous := some .comma } .closing next = _ :=
        step_nothingBefore .closing rfl rfl rfl (.inr nofun)
      rw [complete_splice_comma hm hspliced hplace hnone, Machine.complete, Machine.run, hrefused]
      rfl
    · have hfront : frontTokens before f [[]] = frontTokens before f [] ++ [.comma] := by
        simp [frontTokens]
      rw [hfront, run_frontTokens] at hrun
      obtain ⟨m₁, hrun, hcomma⟩ := bind_eq_ok.1 hrun
      obtain ⟨m₂, hstep, -⟩ := bind_eq_ok.1 hcomma
      obtain ⟨-, hopening, -⟩ := atArgument_front (List.forall_mem_nil _) hrun
      obtain ⟨-, hfollows, -⟩ := exists_read_of_step hstep
      rw [hopening rfl] at hfollows
      rcases hfollows rfl with hended | ⟨hclosing, -⟩
      · cases hended
      · cases hclosing

/-- A splice of nothing is as good as no argument, unless it stands next to an empty one. -/
theorem toOption_splice_nil (hspliced : IsSpliceOf index spliced)
    (hplace : context.place index = .ok amount) (hnone : amount.operands = [])
    (harguments : ∀ argument ∈ left ++ right, IsBalanced argument) (hempty : left ++ right ≠ [[]]) :
    (evaluateTokens context (before ++ callTokens f (left ++ spliced :: right) ++ after)).toOption =
      (evaluateTokens context (before ++ callTokens f (left ++ right) ++ after)).toOption := by
  obtain ⟨hleft, hright⟩ := List.forall_mem_append.1 harguments
  rw [callTokens_eq]
  cases right with
  | cons argument right =>
    rw [callTokens_eq, evaluateTokens_front, evaluateTokens_front]
    cases hrun : Machine.run context {} (frontTokens before f left) with
    | error fault => rfl
    | ok m =>
      obtain ⟨hm, -⟩ := atArgument_front hleft hrun
      rw [ok_bind, ok_bind, complete_splice_first hm hspliced hplace hnone
        (hright argument (List.mem_cons_self ..))]
      rintro hopening hright
      rw [eq_nil_of_opening hleft hrun hopening, hright] at hempty
      exact hempty rfl
  | nil =>
    rcases List.eq_nil_or_concat left with rfl | ⟨left, argument, rfl⟩
    · have hcall : before ++ callTokens f ([] ++ []) ++ after =
          frontTokens before f [] ++ .closing :: after := by
        simp [callTokens, frontTokens]
      rw [hcall, evaluateTokens_front, evaluateTokens_front]
      cases hrun : Machine.run context {} (frontTokens before f []) with
      | error fault => rfl
      | ok m =>
        obtain ⟨hm, hopening, -⟩ := atArgument_front (List.forall_mem_nil _) hrun
        rw [ok_bind, ok_bind]
        exact congrArg _ (complete_splice_alone hm (hopening rfl) hspliced hplace hnone after)
    · rw [List.concat_eq_append] at hleft hempty ⊢
      obtain ⟨hleft, hargument⟩ := List.forall_mem_append.1 hleft
      rw [frontTokens_concat, List.append_nil, callTokens_eq, List.append_assoc, List.append_assoc,
        evaluateTokens_front, evaluateTokens_front]
      cases hrun : Machine.run context {} (frontTokens before f left) with
      | error fault => rfl
      | ok m =>
        obtain ⟨hm, -⟩ := atArgument_front hleft hrun
        rw [ok_bind, ok_bind]
        refine complete_splice_last hm hspliced hplace hnone
          (hargument argument (List.mem_singleton_self _)) ?_
        intro hopening hargument
        rw [eq_nil_of_opening hleft hrun hopening, hargument] at hempty
        exact hempty rfl

end

end

section

variable {context context' : Context} {f : Function} {before after spliced : List Token}
  {left right : List (List Token)} {index : String} {indices : List String} {amount : Amount}

/-- A splice of something is as good as an argument for each of its operands. -/
theorem evaluateTokens_splice_cons (hspliced : IsSpliceOf index spliced)
    (hplace : context.place index = .ok amount) (hsome : amount.operands ≠ [])
    (hindices : List.Forall₂ (fun index item => context'.place index = .ok item) indices amount.operands)
    (hagrees : context.AgreesOn context' (before ++ (left ++ right).flatten ++ after))
    (harguments : ∀ argument ∈ left, IsBalanced argument) :
    evaluateTokens context (before ++ callTokens f (left ++ spliced :: right) ++ after) =
      evaluateTokens context' (before ++ callTokens f
        (left ++ (indices.map fun index => [.place index]) ++ right) ++ after) := by
  obtain ⟨item, items, hoperands⟩ := List.exists_cons_of_ne_nil hsome
  rw [hoperands] at hindices
  obtain ⟨fresh, indices, hfresh, hitems, rfl⟩ := List.forall₂_cons_right_iff.1 hindices
  have hmem : ∀ token, token ∈ before ++ (left ++ right).flatten ++ after ↔
      token ∈ before ∨ token ∈ left.flatten ∨ token ∈ right.flatten ∨ token ∈ after := by
    simp only [List.flatten_append, List.mem_append, or_assoc, implies_true]
  have hfront : context.AgreesOn context' (frontTokens before f left) :=
    hagrees.mono fun index h => (hmem _).2 ((mem_frontTokens h).imp_right .inl)
  have hback : context.AgreesOn context' (backTokens right after) :=
    hagrees.mono fun index h => (hmem _).2 (.inr (.inr (mem_backTokens h)))
  have hplaces : before ++ callTokens f (left ++ ((fresh :: indices).map fun index => [.place index]) ++
      right) ++ after = frontTokens before f left ++ (.place fresh ::
        indices.flatMap (fun index => [.comma, .place index]) ++ backTokens right after) := by
    have harguments : left ++ ((fresh :: indices).map fun index => [Token.place index]) ++ right =
        left ++ [.place fresh] :: ((indices.map fun index => [Token.place index]) ++ right) := by
      simp
    rw [harguments, callTokens_eq]
    simp [backTokens, List.flatMap_map]
  rw [callTokens_eq, hplaces, evaluateTokens_front, evaluateTokens_front, run_congr hfront]
  cases hrun : Machine.run context {} (frontTokens before f left) with
  | error fault => rfl
  | ok m =>
    obtain ⟨hm, -⟩ := atArgument_front harguments hrun
    exact complete_splice_eq hm hspliced hplace hoperands hfresh hitems hback

/-- A splice in a call is as good as an argument for each operand, and as none if there are none. -/
theorem toOption_expand (hspliced : IsSpliceOf index spliced)
    (hplace : context.place index = .ok amount)
    (hindices : List.Forall₂ (fun index item => context'.place index = .ok item) indices amount.operands)
    (hagrees : context.AgreesOn context' (before ++ (left ++ right).flatten ++ after))
    (harguments : ∀ argument ∈ left ++ right, IsBalanced argument)
    (hempty : ¬(amount.operands = [] ∧ left ++ right = [[]])) :
    (evaluateTokens context (before ++ callTokens f (left ++ spliced :: right) ++ after)).toOption =
      (evaluateTokens context' (before ++ callTokens f
        (left ++ (indices.map fun index => [.place index]) ++ right) ++ after)).toOption := by
  by_cases hnone : amount.operands = []
  · rw [hnone] at hindices
    obtain rfl : indices = [] := List.forall₂_nil_right_iff.1 hindices
    have hcall : context.AgreesOn context' (before ++ callTokens f (left ++ right) ++ after) :=
      hagrees.mono fun index h => by
        rcases List.mem_append.1 h with h | h
        · rcases List.mem_append.1 h with h | h
          · exact List.mem_append_left _ (List.mem_append_left _ h)
          · exact List.mem_append_left _ (List.mem_append_right _ (mem_callTokens h))
        · exact List.mem_append_right _ h
    rw [List.map_nil, List.append_nil, evaluateTokens_congr hcall]
    exact toOption_splice_nil hspliced hplace hnone harguments fun h => hempty ⟨hnone, h⟩
  · have hleft := (List.forall_mem_append.1 harguments).1
    rw [evaluateTokens_splice_cons hspliced hplace hnone hindices hagrees hleft]

end

/-! ## Tags -/

/-- The tokens of an argument of a call, with the splices among them tagged. -/
def taggedArgument (tokens : List Token) : List Token :=
  tagSplicesAfter (some .comma) tokens

/-- What is tagged after a token that is no star does not depend on what is before it. -/
theorem tagSplicesAfter_append_cons (token : Token) (hne : token ≠ .operator .mul)
    {previous : Option Token} {front back : List Token} :
    tagSplicesAfter previous (front ++ token :: back) =
      tagSplicesAfter previous front ++ token :: tagSplicesAfter (some token) back := by
  induction front generalizing previous with
  | nil =>
    rw [List.nil_append, tagSplicesAfter, tagSplicesAfter, if_neg (by simp [hne]), List.nil_append]
  | cons first front ih => rw [List.cons_append, tagSplicesAfter, ih, tagSplicesAfter, List.cons_append]

theorem tagSplicesAfter_opening (tokens : List Token) :
    tagSplicesAfter (some .opening) tokens = tagSplicesAfter (some .comma) tokens := by
  cases tokens <;> rfl

/-- The arguments of a call are tagged one by one. -/
theorem tagSplicesAfter_arguments (arguments : List (List Token)) (after : List Token) :
    tagSplicesAfter (some .comma) ([Token.comma].intercalate arguments ++ .closing :: after) =
      [Token.comma].intercalate (arguments.map taggedArgument) ++
        .closing :: tagSplicesAfter (some .closing) after := by
  induction arguments with
  | nil => rfl
  | cons argument arguments ih =>
    cases arguments with
    | nil =>
      rw [List.map_singleton, List.intercalate_singleton, List.intercalate_singleton,
        tagSplicesAfter_append_cons .closing (by simp)]
      rfl
    | cons argument' arguments =>
      rw [List.map_cons, List.map_cons, List.intercalate_cons_cons, List.intercalate_cons_cons,
        List.append_assoc, List.append_assoc, List.singleton_append,
        tagSplicesAfter_append_cons .comma (by simp), ih]
      simp [taggedArgument]

theorem tagSplices_call (before after : List Token) (f : Function) (arguments : List (List Token)) :
    tagSplices (before ++ callTokens f arguments ++ after) =
      tagSplices before ++ callTokens f (arguments.map taggedArgument) ++
        tagSplicesAfter (some .closing) after := by
  have hcall : before ++ callTokens f arguments ++ after = before ++ .name f.name :: ([] ++
      .opening :: ([Token.comma].intercalate arguments ++ .closing :: after)) := by
    simp [callTokens]
  rw [hcall, tagSplices, tagSplicesAfter_append_cons (.name f.name) (by simp),
    tagSplicesAfter_append_cons .opening (by simp), tagSplicesAfter_opening, tagSplicesAfter_arguments]
  simp [callTokens, tagSplices, tagSplicesAfter]

/-- Tags leave the parentheses alone. -/
theorem depthAfter?_tagSplicesAfter (previous : Option Token) (tokens : List Token) (depth : Nat) :
    depthAfter? depth (tagSplicesAfter previous tokens) = depthAfter? depth tokens := by
  induction tokens generalizing previous depth with
  | nil => rfl
  | cons token tokens ih =>
    cases token with
    | closing => cases depth with
      | zero => rfl
      | succ depth => exact ih ..
    | operator op =>
      rw [tagSplicesAfter]
      split <;> exact ih ..
    | _ => exact ih ..

theorem taggedArgument_eq_nil {tokens : List Token} : taggedArgument tokens = [] ↔ tokens = [] := by
  cases tokens with
  | nil => exact iff_of_true rfl rfl
  | cons token tokens => exact iff_of_false nofun nofun

section

variable {context context' : Context} {f : Function} {before after spliced : List Token}
  {left right : List (List Token)} {index : String} {indices : List String} {amount : Amount}

/-- A splice in a call expands to its operands: the call has the same outcome as with an argument for each
of them, and without the splice if there are none. Only next to nothing but an empty argument a splice of
nothing has no outcome at all. -/
theorem evaluateTokens_expand (hspliced : IsSpliceOf index (taggedArgument spliced))
    (hplace : context.place index = .ok amount)
    (hindices : List.Forall₂ (fun index item => context'.place index = .ok item) indices amount.operands)
    (hagrees : context.AgreesOn context' (before ++ (left ++ right).flatten ++ after))
    (harguments : ∀ argument ∈ left ++ right, IsBalanced argument) :
    (¬(amount.operands = [] ∧ left ++ right = [[]]) →
      (evaluateTokens context (tagSplices
          (before ++ callTokens f (left ++ spliced :: right) ++ after))).toOption =
        (evaluateTokens context' (tagSplices (before ++ callTokens f
          (left ++ (indices.map fun index => [.place index]) ++ right) ++ after))).toOption) ∧
    (amount.operands = [] → left ++ right = [[]] →
      (evaluateTokens context (tagSplices
        (before ++ callTokens f (left ++ spliced :: right) ++ after))).toOption = none) := by
  have hplaces : (indices.map fun index => [Token.place index]).map taggedArgument =
      indices.map fun index => [.place index] := List.map_map
  have htagged : ∀ argument ∈ left.map taggedArgument ++ right.map taggedArgument,
      IsBalanced argument := by
    rw [← List.map_append]
    refine List.forall_mem_map.2 fun argument hargument => ?_
    exact (depthAfter?_tagSplicesAfter _ argument 0).trans (harguments argument hargument)
  have hagrees' : context.AgreesOn context' (tagSplices before ++
      (left.map taggedArgument ++ right.map taggedArgument).flatten ++
        tagSplicesAfter (some .closing) after) := by
    refine hagrees.mono fun index h => ?_
    rw [← List.map_append] at h
    rcases List.mem_append.1 h with h | h
    · rcases List.mem_append.1 h with h | h
      · exact List.mem_append_left _ (List.mem_append_left _ (mem_of_mem_tagSplices nofun h))
      · obtain ⟨tokens, htokens, h⟩ := List.mem_flatten.1 h
        obtain ⟨argument, hargument, rfl⟩ := List.mem_map.1 htokens
        have hmem : .place index ∈ (left ++ right).flatten :=
          List.mem_flatten_of_mem hargument (mem_of_mem_tagSplices nofun h)
        exact List.mem_append_left _ (List.mem_append_right _ hmem)
    · exact List.mem_append_right _ (mem_of_mem_tagSplices nofun h)
  have hempty : left.map taggedArgument ++ right.map taggedArgument = [[]] ↔ left ++ right = [[]] := by
    rw [← List.map_append, List.map_eq_singleton_iff]
    simp [taggedArgument_eq_nil]
  rw [tagSplices_call, tagSplices_call, List.map_append, List.map_append, List.map_append, List.map_cons,
    hplaces, ← hempty]
  exact ⟨toOption_expand hspliced hplace hindices hagrees' htagged,
    toOption_splice_empty hspliced hplace⟩

end

/-- Two dice, each of them an amount of its own. -/
def twoDice : List Amount :=
  [{ value := .int 4, breakdown := "4" }, { value := .int 3, breakdown := "3" }]

/-- The places of two dice together, of each of them alone, and of none. -/
def Context.ofDice : Context where
  amount? index := ([
    { value := .int 7, breakdown := "(4 + 3)", expanded := some twoDice },
    { value := .int 4, breakdown := "4" },
    { value := .int 3, breakdown := "3" },
    { value := .int 0, breakdown := "<del>5</del>", expanded := some [] }] : List Amount)[index]?
  dry := false

theorem evaluateTokens_expand_twoDice :
    (evaluateTokens .ofDice (tagSplices (callTokens .max [[.number "1"],
      [.operator .mul, .opening, .place "0", .closing]]))).toOption =
      (evaluateTokens .ofDice (tagSplices (callTokens .max
        [[.number "1"], [.place "1"], [.place "2"]]))).toOption ∧
    (evaluateTokens .ofDice (tagSplices (callTokens .max
      [[.number "1"], [.place "1"], [.place "2"]]))).toOption.map Amount.breakdown =
        some "max(<del>1</del>, 4, <del>3</del>)" := by
  have hread : readInt "0" = some 0 ∧ readInt "1" = some 1 ∧ readInt "2" = some 2 := by decide +kernel
  have hplace : Context.ofDice.place "0" =
      .ok { value := .int 7, breakdown := "(4 + 3)", expanded := some twoDice } := by
    rw [Context.place, hread.1]
    rfl
  have hindices : List.Forall₂ (fun index item => Context.ofDice.place index = .ok item) ["1", "2"]
      twoDice := by
    refine .cons ?_ (.cons ?_ .nil)
    · rw [Context.place, hread.2.1]
      rfl
    · rw [Context.place, hread.2.2]
      rfl
  have hbalanced : ∀ argument ∈ [[Token.number "1"]] ++ [], IsBalanced argument :=
    List.forall_mem_singleton.2 rfl
  have hexpand := @evaluateTokens_expand .ofDice .ofDice .max [] []
    [.operator .mul, .opening, .place "0", .closing] [[.number "1"]] [] "0" ["1", "2"] _
    (.inr rfl) hplace hindices ⟨rfl, fun _ _ => rfl⟩ hbalanced
  have heq := hexpand.1 (fun h => nomatch h.1)
  rw [List.nil_append, List.append_nil, List.nil_append, List.append_nil] at heq
  exact ⟨heq, by decide +kernel⟩

/-- A splice of nothing next to an empty argument: the call has no outcome, although it has one without the
splice. -/
theorem evaluateTokens_splice_beside_empty :
    (Context.ofDice.place "3").toOption.map (fun amount => amount.operands.length) = some 0 ∧
      (evaluateTokens .ofDice (tagSplices (callTokens .avg
        [[.operator .mul, .place "3"], []]))).toOption = none ∧
      (evaluateTokens .ofDice (tagSplices (callTokens .avg [[]]))).toOption.map Amount.breakdown =
        some "avg()" := by
  decide +kernel

end RollTray.Formula
