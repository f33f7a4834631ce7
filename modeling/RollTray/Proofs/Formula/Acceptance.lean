import RollTray.Proofs.Formula.Closing
import RollTray.Proofs.Formula.Grammar

/-!
# What the machine accepts

Tokens without splices that the machine reads to the end are none at all or derive from the
grammar (`exists_tokens_of_evaluateTokens`).

The stack of waiting operators, functions and parentheses tells how far a derivation has come.
`Awaits` describes this while an operand is awaited, and `Progress` says where the machine stands
between two tokens. One step keeps it (`progress_step`), and so does a run (`progress_run`).
-/

namespace RollTray.Formula

/-- What may begin at a place of an expression, from the loosest to the tightest. -/
inductive Level where
  | expression
  | term
  | factor

/-- After these tokens a part of an expression may begin, and the machine holds these stacks. The
terms and factors that are complete stand on the left of an operator that waits. -/
inductive Awaits : Level → List Token → List Waiting → List Bool → Prop where
  | start : Awaits .expression [] [] []
  | group {ts ws cs} (h : Awaits .factor ts ws cs) :
      Awaits .expression (ts ++ [.opening]) (.parenthesis false :: ws) (false :: cs)
  | call {ts ws cs} (h : Awaits .factor ts ws cs) (f : Function) (arguments : List Expr) :
      Awaits .expression
        (ts ++ .name f.name :: .opening :: arguments.flatMap fun e => e.tokens ++ [.comma])
        (.parenthesis false :: .function f :: ws) (true :: cs)
  | first {ts ws cs} (h : Awaits .expression ts ws cs) : Awaits .term ts ws cs
  | additive {ts ws cs} (h : Awaits .expression ts ws cs) (left : Expr) (op : Operator)
      (additive : op.precedence = 1) :
      Awaits .term (ts ++ left.tokens ++ [.operator op]) (.operator op :: ws) cs
  | only {ts ws cs} (h : Awaits .term ts ws cs) : Awaits .factor ts ws cs
  | multiplicative {ts ws cs} (h : Awaits .term ts ws cs) (left : Term) (op : Operator)
      (multiplicative : op.precedence = 2) :
      Awaits .factor (ts ++ left.tokens ++ [.operator op]) (.operator op :: ws) cs

section

variable {ts : List Token} {ws : List Waiting} {cs : List Bool} {level : Level}

/-- Before an awaited operand stands a token that lets one begin. -/
theorem Awaits.getLast? (h : Awaits level ts ws cs) :
    ts.getLast? = none ∨ ts.getLast? = some .opening ∨ ts.getLast? = some .comma ∨
      ∃ op, ts.getLast? = some (.operator op) := by
  induction h with
  | start => exact .inl rfl
  | group => simp
  | call h f arguments =>
    rcases List.eq_nil_or_concat arguments with rfl | ⟨arguments, e, rfl⟩
    · simp
    · simp [List.getLast?_cons]
  | first _ ih => exact ih
  | additive _ left op => exact .inr (.inr (.inr ⟨op, List.getLast?_concat⟩))
  | only _ ih => exact ih
  | multiplicative _ left op => exact .inr (.inr (.inr ⟨op, List.getLast?_concat⟩))

/-- No operator waits above an expression. -/
theorem Awaits.dropWhile_expression (taken : Operator → Bool)
    (h : Awaits .expression ts ws cs) : ws.dropWhile (Waiting.isTaken taken) = ws := by
  cases h <;> rfl

/-- Above a term only an additive operator waits. -/
theorem Awaits.dropWhile_term (h : Awaits .term ts ws cs) :
    ws.dropWhile (Waiting.isTaken fun op => 2 ≤ op.precedence) = ws := by
  cases h with
  | first h => exact h.dropWhile_expression _
  | additive _ _ op additive => exact dropWhile_isTaken_of_head (head_of_not_taken (by simp [additive]))

theorem Operator.precedence_eq (op : Operator) : op.precedence = 1 ∨ op.precedence = 2 := by
  cases op <;> decide

/-- A factor that is complete ends a term, whose operators are those that bind as tightly. -/
theorem Awaits.exists_term (h : Awaits .factor ts ws cs) (f : Factor) :
    ∃ ts' t, ts' ++ Term.tokens t = ts ++ f.tokens ∧
      Awaits .term ts' (ws.dropWhile (Waiting.isTaken fun op => 2 ≤ op.precedence)) cs := by
  cases h with
  | only h => exact ⟨ts, .factor f, rfl, by rwa [h.dropWhile_term]⟩
  | @multiplicative ts ws _ h left op multiplicative =>
    refine ⟨ts, .chain left op multiplicative f, by simp [Term.tokens], ?_⟩
    rwa [dropWhile_isTaken_of_taken (by simp [multiplicative]), h.dropWhile_term]

/-- A term that is complete ends an expression. -/
theorem Awaits.exists_expression (taken : Operator → Bool) (htaken : ∀ op, taken op = true)
    (h : Awaits .term ts ws cs) (t : Term) :
    ∃ ts' e, ts' ++ Expr.tokens e = ts ++ t.tokens ∧
      Awaits .expression ts' (ws.dropWhile (Waiting.isTaken taken)) cs := by
  cases h with
  | first h => exact ⟨ts, .term t, rfl, by rwa [h.dropWhile_expression]⟩
  | @additive ts ws _ h left op additive =>
    refine ⟨ts, .chain left op additive t, by simp [Expr.tokens], ?_⟩
    rwa [dropWhile_isTaken_of_taken (htaken op), h.dropWhile_expression]

theorem dropWhile_isTaken_dropWhile {taken taken' : Operator → Bool}
    (h : ∀ op, taken' op = true) (ws : List Waiting) :
    (ws.dropWhile (Waiting.isTaken taken)).dropWhile (Waiting.isTaken taken') =
      ws.dropWhile (Waiting.isTaken taken') := by
  induction ws with
  | nil => rfl
  | cons w ws ih =>
    cases hw : w.isTaken taken with
    | false => rw [List.dropWhile_cons_of_neg (by simp [hw])]
    | true =>
      rw [List.dropWhile_cons_of_pos hw, ih, List.dropWhile_cons_of_pos]
      cases w <;> first | exact h _ | cases hw

/-- A factor that is complete ends an expression, once all operators above it are taken. -/
theorem Awaits.exists_expression_of_factor (taken : Operator → Bool)
    (htaken : ∀ op, taken op = true) (h : Awaits .factor ts ws cs) (f : Factor) :
    ∃ ts' e, ts' ++ Expr.tokens e = ts ++ f.tokens ∧
      Awaits .expression ts' (ws.dropWhile (Waiting.isTaken taken)) cs := by
  obtain ⟨ts₁, t, ht, h₁⟩ := h.exists_term f
  obtain ⟨ts₂, e, he, h₂⟩ := h₁.exists_expression taken htaken t
  rw [dropWhile_isTaken_dropWhile htaken] at h₂
  exact ⟨ts₂, e, he.trans ht, h₂⟩

/-- Behind a factor that is complete an operator waits for another one. -/
theorem Awaits.operator (h : Awaits .factor ts ws cs) (f : Factor) (op : Operator) :
    Awaits .factor (ts ++ f.tokens ++ [.operator op])
      (.operator op :: ws.dropWhile (Waiting.isTaken fun op' => op.precedence ≤ op'.precedence)) cs := by
  obtain hp | hp := op.precedence_eq
  · obtain ⟨ts', e, hts, h⟩ := h.exists_expression_of_factor
      (fun op' => op.precedence ≤ op'.precedence) (fun op' => by
        rw [hp, decide_eq_true_iff]
        obtain hp' | hp' := op'.precedence_eq <;> omega) f
    rw [← hts]
    exact .only (.additive h e op hp)
  · obtain ⟨ts', t, hts, h⟩ := h.exists_term f
    rw [← hp] at h
    rw [← hts]
    exact .multiplicative h t op hp

/-- A comma ends an argument of a call. -/
theorem Awaits.comma (h : Awaits .factor ts ws cs) (f : Factor) (hcall : cs.head? = some true) :
    Awaits .factor (ts ++ f.tokens ++ [.comma]) (ws.dropWhile (Waiting.isTaken fun _ => true)) cs := by
  obtain ⟨ts', e, hts, ha⟩ := h.exists_expression_of_factor (fun _ => true) (fun _ => rfl) f
  rw [← hts]
  refine .only (.first ?_)
  generalize ws.dropWhile (Waiting.isTaken fun _ => true) = left at ha ⊢
  cases ha with
  | start => cases hcall
  | group => cases hcall
  | @call ts _ _ ha g arguments => simpa using Awaits.call ha g (arguments ++ [e])

end

/-! ## Steps -/

/-- Where a machine with these stacks and this last token stands after the tokens it has read, with
`next` to come: an operand is awaited, a call has been named or a factor has ended. -/
inductive Progress : List Waiting → List Bool → Option Token → List Token → Option Token → Prop where
  | operand {ws cs ts next} (h : Awaits .factor ts ws cs) : Progress ws cs ts.getLast? ts next
  | call {ws cs ts} (h : Awaits .factor ts ws cs) (f : Function) :
      Progress (.function f :: ws) cs (some (.name f.name)) (ts ++ [.name f.name]) (some .opening)
  | ended {ws cs ts last next} (h : Awaits .factor ts ws cs) (f : Factor)
      (hlast : Token.endsOperand last = true) : Progress ws cs (some last) (ts ++ f.tokens) next

theorem Progress.concat {ts : List Token} {t : Token} {ws : List Waiting} {cs : List Bool}
    {next : Option Token} (h : Awaits .factor (ts ++ [t]) ws cs) :
    Progress ws cs (some t) (ts ++ [t]) next := by
  have hp : Progress ws cs (ts ++ [t]).getLast? (ts ++ [t]) next := .operand h
  rwa [List.getLast?_concat] at hp

section

variable {context : Context} {m m' : Machine} {token : Token} {next : Option Token}

/-- Where a token may stand. -/
theorem checkOrder_eq_ok : m.checkOrder token = .ok () ↔
    (token.startsOperand = true → m.previous.any Token.endsOperand = false) ∧
      (token.followsOperand = true → m.previous.any Token.endsOperand = true ∨
        token = .closing ∧ m.previous = some .opening ∧ m.calls.head? = some true) := by
  unfold Machine.checkOrder
  cases token.startsOperand <;> cases token.followsOperand <;>
    cases m.previous.any Token.endsOperand <;> simp [and_assoc]

/-- A step checks where the token stands, reads it and remembers it. -/
theorem exists_read_of_step (h : m.step context token next = .ok m') :
    (token.startsOperand = true → m.previous.any Token.endsOperand = false) ∧
      (token.followsOperand = true → m.previous.any Token.endsOperand = true ∨
        token = .closing ∧ m.previous = some .opening ∧ m.calls.head? = some true) ∧
      ∃ m₁, m.read context token next = .ok m₁ ∧ m' = { m₁ with previous := some token } := by
  obtain ⟨_, hcheck, h⟩ := bind_eq_ok.1 h
  obtain ⟨m₁, hread, h⟩ := bind_eq_ok.1 h
  obtain ⟨hstarts, hfollows⟩ := checkOrder_eq_ok.1 (mapError_eq_ok.1 hcheck)
  exact ⟨hstarts, hfollows, m₁, hread, (pure_eq_ok.1 h).symm⟩

/-- The name of a function is read before a parenthesis that is opened. -/
theorem read_name_eq_ok {letters : String} : m.read context (.name letters) next = .ok m' ↔
    ∃ f, Function.ofName? letters = some f ∧ next = some .opening ∧
      m' = { m with waiting := .function f :: m.waiting } := by
  unfold Machine.read
  dsimp only
  cases Function.ofName? letters with
  | none => simp
  | some f => by_cases hnext : next = some .opening <;> simp [hnext, eq_comm]

/-- A comma is read in a call, once all that waits there is applied. -/
theorem read_comma_eq_ok : m.read context .comma next = .ok m' ↔
    ∃ values waiting, reduceAll context.dry m.values m.waiting = .ok (values, waiting) ∧
      m.calls.head? = some true ∧ m' = { m with values, waiting } := by
  refine bind_eq_ok.trans ⟨?_, ?_⟩
  · rintro ⟨⟨values, waiting⟩, hreduce, h⟩
    dsimp only at h
    split at h
    · next hcall =>
      cases h
      exact ⟨values, waiting, hreduce, hcall, rfl⟩
    · cases h
  · rintro ⟨values, waiting, hreduce, hcall, rfl⟩
    exact ⟨(values, waiting), hreduce, if_pos hcall⟩

theorem argumentTokens_concat (arguments : List Expr) (e : Expr) :
    argumentTokens (arguments ++ [e]) =
      (arguments.flatMap fun e => e.tokens ++ [.comma]) ++ e.tokens := by
  induction arguments with
  | nil => rfl
  | cons e' arguments ih =>
    cases arguments with
    | nil => simp [argumentTokens]
    | cons e'' arguments =>
      rw [List.cons_append, List.cons_append, argumentTokens, ← List.cons_append, ih]
      simp

/-- A closed parenthesis around an expression, or around the last argument of a call, completes a
factor. -/
theorem Awaits.exists_factor {ts : List Token} {splice isCall : Bool} {ws ws' : List Waiting}
    {cs : List Bool} (ha : Awaits .expression ts (.parenthesis splice :: ws) (isCall :: cs))
    (hws : isCall = false ∧ ws = ws' ∨ isCall = true ∧ ∃ f, ws = .function f :: ws') (e : Expr) :
    ∃ ts' f, ts' ++ Factor.tokens f = ts ++ e.tokens ++ [.closing] ∧ Awaits .factor ts' ws' cs := by
  obtain ⟨rfl, rfl⟩ | ⟨rfl, f, rfl⟩ := hws
  · cases ha with
    | @group ts _ _ ha => exact ⟨ts, .group e, by simp [Factor.tokens], ha⟩
  · cases ha with
    | @call ts _ _ ha _ arguments =>
      refine ⟨ts, .call f (arguments ++ [e]), ?_, ha⟩
      rw [Factor.tokens, argumentTokens_concat]
      simp

/-- A parenthesis that was opened just now and belongs to a call makes one without arguments. -/
theorem Awaits.exists_factor_of_empty {ts : List Token} {splice : Bool} {f : Function}
    {ws ws' : List Waiting} {cs : List Bool} (ha : Awaits .factor ts ws (true :: cs))
    (last : ts.getLast? = some .opening)
    (hws : ws.dropWhile (Waiting.isTaken fun _ => true) = .parenthesis splice :: .function f :: ws') :
    ∃ ts' f, ts' ++ Factor.tokens f = ts ++ [.closing] ∧ Awaits .factor ts' ws' cs := by
  cases ha with
  | multiplicative _ left op => simp at last
  | only ha =>
    cases ha with
    | additive _ left op => simp at last
    | first ha =>
      rw [ha.dropWhile_expression] at hws
      subst hws
      cases ha with
      | @call ts _ _ ha _ arguments =>
        rcases List.eq_nil_or_concat arguments with rfl | ⟨arguments, e, rfl⟩
        · exact ⟨ts, .call f [], by simp [Factor.tokens, argumentTokens], ha⟩
        · simp [List.getLast?_cons] at last

theorem Function.name_of_ofName? {s : String} {f : Function} (h : Function.ofName? s = some f) :
    f.name = s := by
  unfold Function.ofName? at h
  split at h
  · cases h
    exact Eq.symm ‹_›
  split at h
  · cases h
    exact Eq.symm ‹_›
  split at h
  · cases h
    exact Eq.symm ‹_›
  · cases h

/-- What was read last while an operand is awaited. -/
theorem Awaits.last_not {ts : List Token} {ws : List Waiting} {cs : List Bool}
    (ha : Awaits .factor ts ws cs) : ts.getLast?.any Token.endsOperand = false ∧
      ts.getLast?.any Token.isName = false := by
  obtain hl | hl | hl | ⟨op, hl⟩ := ha.getLast? <;> rw [hl] <;> exact ⟨rfl, rfl⟩

/-- What a step reads while an operand is awaited. -/
theorem progress_step_of_awaits {ts : List Token} (hm : m.splicing = false)
    (ha : Awaits .factor ts m.waiting m.calls) (last : m.previous = ts.getLast?)
    (h : m.step context token next = .ok m') (hs : token ≠ .splice) :
    m'.splicing = false ∧ Progress m'.waiting m'.calls m'.previous (ts ++ [token]) next := by
  obtain ⟨_, hfollows, m₁, hread, rfl⟩ := exists_read_of_step h
  obtain ⟨hended, hname⟩ := ha.last_not
  rw [← last] at hended hname
  rw [hended] at hfollows
  cases token with
  | splice => contradiction
  | comma => simp [Token.followsOperand] at hfollows
  | operator op => simp [Token.followsOperand] at hfollows
  | number digits =>
    cases hread
    exact ⟨rfl, .ended ha (.number digits) rfl⟩
  | place index =>
    obtain ⟨amount, _, hread⟩ := bind_eq_ok.1 hread
    cases hread
    exact ⟨rfl, .ended ha (.place index) rfl⟩
  | name letters =>
    obtain ⟨f, hf, rfl, rfl⟩ := read_name_eq_ok.1 hread
    obtain rfl := Function.name_of_ofName? hf
    exact ⟨hm, .call ha f⟩
  | opening =>
    cases hread
    refine ⟨rfl, ?_⟩
    show Progress (.parenthesis m.splicing :: m.waiting) (m.previous.any Token.isName :: m.calls)
      (some .opening) (ts ++ [.opening]) next
    rw [hm, hname]
    exact .concat (.only (.first (.group ha)))
  | closing =>
    simp [Token.followsOperand] at hfollows
    obtain ⟨splice, ws, hw, hsplicing, ⟨hcalls, _⟩ | ⟨hcalls, f, rfl⟩⟩ := exists_of_close hread
    · simp [hcalls] at hfollows
    · rw [hcalls] at ha
      obtain ⟨ts', f, hts, ha⟩ := ha.exists_factor_of_empty (last ▸ hfollows.1) hw
      rw [← hts]
      exact ⟨hsplicing.trans hm, .ended ha f rfl⟩

/-- What a step reads once a factor has ended. -/
theorem progress_step_of_ended {ts : List Token} (hm : m.splicing = false)
    (ha : Awaits .factor ts m.waiting m.calls) (f : Factor)
    (last : m.previous.any Token.endsOperand = true) (h : m.step context token next = .ok m') :
    m'.splicing = false ∧
      Progress m'.waiting m'.calls m'.previous (ts ++ f.tokens ++ [token]) next := by
  obtain ⟨hstarts, _, m₁, hread, rfl⟩ := exists_read_of_step h
  cases token with
  | splice => exact absurd (hstarts rfl) (by simp [last])
  | number digits => exact absurd (hstarts rfl) (by simp [last])
  | place index => exact absurd (hstarts rfl) (by simp [last])
  | name letters => exact absurd (hstarts rfl) (by simp [last])
  | opening => exact absurd (hstarts rfl) (by simp [last])
  | operator op =>
    obtain ⟨⟨values, waiting⟩, hreduce, hread⟩ := bind_eq_ok.1 hread
    cases hread
    refine ⟨hm, ?_⟩
    show Progress (.operator op :: waiting) m.calls (some (.operator op))
      (ts ++ f.tokens ++ [.operator op]) next
    rw [waiting_of_reduce hreduce]
    exact .concat (ha.operator f op)
  | comma =>
    obtain ⟨values, waiting, hreduce, hcall, rfl⟩ := read_comma_eq_ok.1 hread
    refine ⟨hm, ?_⟩
    show Progress waiting m.calls (some .comma) (ts ++ f.tokens ++ [.comma]) next
    rw [waiting_of_reduce hreduce]
    exact .concat (ha.comma f hcall)
  | closing =>
    obtain ⟨ts', e, hts, ha⟩ := ha.exists_expression_of_factor (fun _ => true) (fun _ => rfl) f
    obtain ⟨splice, ws, hw, hsplicing, hcalls⟩ := exists_of_close hread
    refine ⟨hsplicing.trans hm, ?_⟩
    rw [hw] at ha
    rw [← hts]
    obtain ⟨hcalls, hws⟩ | ⟨hcalls, hws⟩ := hcalls <;> rw [hcalls] at ha
    · obtain ⟨ts'', g, hg, ha⟩ := ha.exists_factor (.inl ⟨rfl, hws⟩) e
      rw [← hg]
      exact .ended ha g rfl
    · obtain ⟨ts'', g, hg, ha⟩ := ha.exists_factor (.inr ⟨rfl, hws⟩) e
      rw [← hg]
      exact .ended ha g rfl

/-- Each step keeps where the machine stands. -/
theorem progress_step {ts : List Token} (hm : m.splicing = false)
    (hp : Progress m.waiting m.calls m.previous ts (some token))
    (h : m.step context token next = .ok m') (hs : token ≠ .splice) :
    m'.splicing = false ∧ Progress m'.waiting m'.calls m'.previous (ts ++ [token]) next := by
  generalize hws : m.waiting = ws, hcs : m.calls = cs, hlast : m.previous = last,
    hnext : some token = next' at hp
  cases hp with
  | operand ha => exact progress_step_of_awaits hm (hws ▸ hcs ▸ ha) hlast h hs
  | ended ha f hended =>
    exact progress_step_of_ended hm (hws ▸ hcs ▸ ha) f (by rw [hlast]; exact hended) h
  | @call ws cs ts ha f =>
    cases hnext
    obtain ⟨_, _, m₁, hread, rfl⟩ := exists_read_of_step h
    cases hread
    refine ⟨rfl, ?_⟩
    show Progress (.parenthesis m.splicing :: m.waiting) (m.previous.any Token.isName :: m.calls)
      (some .opening) (ts ++ [.name f.name] ++ [.opening]) next
    rw [hm, hws, hcs, hlast]
    refine .concat (.only (.first ?_))
    simpa [Token.isName] using Awaits.call ha f []

/-- A run keeps where the machine stands. -/
theorem progress_run {ts : List Token} (tokens : List Token) (hs : Token.splice ∉ tokens)
    (hm : m.splicing = false) (hp : Progress m.waiting m.calls m.previous ts tokens.head?)
    (h : m.run context tokens = .ok m') :
    Progress m'.waiting m'.calls m'.previous (ts ++ tokens) none := by
  induction tokens generalizing m ts with
  | nil =>
    cases h
    rwa [List.append_nil]
  | cons token tokens ih =>
    obtain ⟨m₁, hstep, h⟩ := bind_eq_ok.1 h
    rw [List.mem_cons, not_or] at hs
    obtain ⟨hm₁, hp₁⟩ := progress_step hm hp hstep (Ne.symm hs.1)
    rw [List.append_cons]
    exact ih hs.2 hm₁ hp₁ h

/-- A machine that ends has read an operand last, if anything, and has only operators waiting. -/
theorem endsOperand_of_finish {amount : Amount} (h : m.finish context = .ok amount) :
    (∀ last, m.previous = some last → last.endsOperand = true) ∧
      m.waiting.dropWhile (Waiting.isTaken fun _ => true) = [] := by
  obtain ⟨hcheck, values, hreduce, -⟩ := finish_eq_ok.1 h
  refine ⟨fun last hlast => ?_, (waiting_of_reduce hreduce).symm⟩
  rw [Machine.checkEnd, hlast] at hcheck
  cases hends : last.endsOperand with
  | true => rfl
  | false => simp [hends] at hcheck

/-- Tokens without splices that have an amount are none or derive from the grammar. -/
theorem exists_tokens_of_evaluateTokens {tokens : List Token} {amount : Amount}
    (hs : Token.splice ∉ tokens) (h : evaluateTokens context tokens = .ok amount) :
    tokens = [] ∨ ∃ e : Expr, e.tokens = tokens := by
  obtain ⟨m, hrun, h⟩ := bind_eq_ok.1 h
  obtain ⟨hlast, hwaiting⟩ := endsOperand_of_finish h
  have hp : Progress m.waiting m.calls m.previous ([] ++ tokens) none :=
    progress_run tokens hs rfl (.operand (.only (.first .start))) hrun
  rw [List.nil_append] at hp
  generalize m.waiting = ws, m.calls = cs, m.previous = last, hn : (none : Option Token) = next
    at hp hlast hwaiting
  cases hp with
  | call => cases hn
  | operand ha =>
    left
    rcases List.eq_nil_or_concat tokens with rfl | ⟨tokens, last, rfl⟩
    · rfl
    · have hends := ha.last_not.1
      rw [List.concat_eq_append, List.getLast?_concat] at hends hlast
      exact absurd (hlast last rfl) (by simpa using hends)
  | ended ha f =>
    right
    obtain ⟨ts', e, hts, ha⟩ := ha.exists_expression_of_factor (fun _ => true)
      (fun _ => rfl) f
    rw [hwaiting] at ha
    cases ha with
    | start => exact ⟨e, hts⟩

end

end RollTray.Formula
