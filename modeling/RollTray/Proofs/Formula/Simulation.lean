import RollTray.Proofs.Formula.Grammar
import RollTray.Proofs.Formula.Reduction

/-!
# The machine evaluates derivations

`Expr.amount` evaluates a derivation by recursion, its operands from the left to the right. The
machine finds the same amount, or fails with the same fault, from the tokens that the derivation
derives (`evaluateTokens_tokens`).

While it reads an operand, the machine may hold operators back. What it holds is right if their
reduction gives the operand's amount, whatever lies below on the stacks (`Holds`). `Reads` says that
reading some tokens leaves such a held part, and it follows the grammar (`Reads.chain`,
`run_arguments`).
-/

namespace RollTray.Formula

section

variable (context : Context)

mutual

def Expr.amount : Expr → Except Fault Amount
  | .term t => t.amount
  | .chain left op _ right => do
    let a ← left.amount
    let b ← right.amount
    op.apply context.dry a b

def Term.amount : Term → Except Fault Amount
  | .factor f => f.amount
  | .chain left op _ right => do
    let a ← left.amount
    let b ← right.amount
    op.apply context.dry a b

def Factor.amount : Factor → Except Fault Amount
  | .number digits => .ok (numberAmount digits)
  | .place index => context.place index
  | .group inner => do
    let a ← inner.amount
    return { a with breakdown := "(" ++ a.breakdown ++ ")" }
  | .call f arguments => do f.apply (← argumentAmounts arguments)

/-- The amounts of all arguments. -/
def argumentAmounts : List Expr → Except Fault (List Amount)
  | [] => .ok []
  | e :: rest => do
    let a ← e.amount
    let as ← argumentAmounts rest
    return a :: as

end

end

/-! ## Held operands -/

/-- These amounts and operators on top of the stacks come to an operand's amount or fault in any
reduction that takes the operators from this precedence on. -/
def Holds (dry : Bool) (least : Nat) (values : List Amount) (waiting : List Waiting)
    (operand : Except Fault Amount) : Prop :=
  ∀ taken : Operator → Bool, (∀ op, least ≤ op.precedence → taken op = true) → ∀ below waiting',
    reduce dry taken (values ++ below) (waiting ++ waiting') =
      operand >>= fun a => reduce dry taken (a :: below) waiting'

theorem holds_amount (dry : Bool) (least : Nat) (a : Amount) : Holds dry least [a] [] (.ok a) :=
  fun _ _ _ _ => rfl

/-- An operator over a held operand holds the operation. -/
theorem Holds.operator {dry : Bool} {least least' : Nat} {values : List Amount}
    {waiting : List Waiting} {operand : Except Fault Amount}
    (h : Holds dry least' values waiting operand) (hle : least ≤ least') (a : Amount)
    {op : Operator} (hop : least ≤ op.precedence) :
    Holds dry least (values ++ [a]) (waiting ++ [.operator op])
      (operand >>= fun b => op.apply dry a b) := by
  intro taken htaken below waiting'
  rw [List.append_assoc, List.append_assoc,
    h taken fun op' hop' => htaken op' (Nat.le_trans hle hop'), bind_assoc]
  refine bind_congr fun b => ?_
  exact reduce_operator (htaken op hop) a b below waiting'

/-- On top waits no operator that binds as tightly as this. -/
def Stops (least : Nat) (waiting : List Waiting) : Prop :=
  ∀ op rest, waiting = .operator op :: rest → op.precedence < least

theorem stops_parenthesis (least : Nat) (splice : Bool) (waiting : List Waiting) :
    Stops least (.parenthesis splice :: waiting) := by
  intro op rest h
  cases h

theorem reduce_of_stops {dry : Bool} {least : Nat} {waiting : List Waiting} (h : Stops least waiting)
    {taken : Operator → Bool} (htaken : ∀ op, taken op = true → least ≤ op.precedence)
    (values : List Amount) : reduce dry taken values waiting = .ok (values, waiting) := by
  refine reduce_of_head (fun w hw => ?_) values
  cases w with
  | function f => rfl
  | parenthesis splice => rfl
  | operator op =>
    rw [Bool.eq_false_iff]
    intro hop
    obtain ⟨rest, hrest⟩ := List.head?_eq_some_iff.1 hw
    exact Nat.not_lt.2 (htaken op hop) (h op rest hrest)

/-! ## Reading tokens -/

/-- The machine may read an operand. -/
structure Ready (m : Machine) : Prop where
  splicing : m.splicing = false
  last : m.previous.any Token.endsOperand = false
  name : m.previous.any Token.isName = false

/-- The machine with an operand held on top of its stacks. -/
def Machine.hold (m : Machine) (values : List Amount) (waiting : List Waiting) (last : Token) :
    Machine :=
  { m with
    values := values ++ m.values
    waiting := waiting ++ m.waiting
    previous := some last }

/-- Reading these tokens fails as the operand does, or leaves the operand on top of the stacks. -/
def Reads (context : Context) (least : Nat) (tokens : List Token)
    (operand : Except Fault Amount) : Prop :=
  ∀ m, Ready m → Stops least m.waiting →
    (∃ fault, operand = .error fault ∧ ∀ rest, m.run context (tokens ++ rest) = .error fault) ∨
      ∃ values waiting last, Token.endsOperand last = true ∧
        Holds context.dry least values waiting operand ∧
        ∀ rest, m.run context (tokens ++ rest) = (m.hold values waiting last).run context rest

section

variable {context : Context} {least : Nat} {tokens : List Token} {operand : Except Fault Amount}

/-- A tighter operand is a looser one. -/
theorem Reads.loosen (h : Reads context (least + 1) tokens operand) :
    Reads context least tokens operand := by
  intro m hm hw
  obtain hf | ⟨values, waiting, last, hlast, hh, hrun⟩ :=
    h m hm fun op rest hop => Nat.lt_succ_of_lt (hw op rest hop)
  · exact .inl hf
  · refine .inr ⟨values, waiting, last, hlast, fun taken htaken => ?_, hrun⟩
    exact hh taken fun op hop => htaken op (Nat.le_of_succ_le hop)

/-- The operators that the machine takes when it reads a token. -/
def Token.takes : Token → Operator → Bool
  | .operator op, op' => op.precedence ≤ op'.precedence
  | _, _ => true

theorem checkOrder_of_followsOperand {m : Machine} {last token : Token}
    (hm : m.previous = some last) (hlast : last.endsOperand = true)
    (hf : token.followsOperand = true) : m.checkOrder token = .ok () := by
  have hs : token.startsOperand = false := by cases token <;> first | rfl | cases hf
  simp [Machine.checkOrder, hm, hs, hlast]

/-- A token that follows an operand is read by a reduction and what is done after it. -/
theorem exists_read_eq_reduce (context : Context) {token : Token}
    (hf : token.followsOperand = true) (m : Machine) (next : Option Token) : ∃ k, ∀ values waiting, { m with values, waiting }.read context token next =
      reduce context.dry token.takes values waiting >>= k := by
  cases token with
  | operator op =>
    exact ⟨fun p => pure { m with values := p.1, waiting := .operator op :: p.2 }, fun _ _ => rfl⟩
  | closing =>
    exact ⟨fun p => Machine.leave { m with values := p.1, waiting := p.2 }, fun _ _ => rfl⟩
  | comma =>
    exact ⟨fun p => if m.calls.head? = some true then pure { m with values := p.1, waiting := p.2 }
      else .error (.evaluation .unexpectedComma), fun _ _ => rfl⟩
  | _ => cases hf

/-- To a token that follows an operand, a held one is as good as its amount. -/
theorem step_hold {values : List Amount} {waiting : List Waiting} {last token : Token}
    (hh : Holds context.dry least values waiting operand)
    (hlast : last.endsOperand = true) (hf : token.followsOperand = true)
    (ht : ∀ op, least ≤ op.precedence → token.takes op = true) (m : Machine) (next : Option Token) :
    (m.hold values waiting last).step context token next =
      operand >>= fun a => (m.hold [a] [] last).step context token next := by
  obtain ⟨k, hk⟩ := exists_read_eq_reduce context hf { m with previous := some last } next
  have hread : (m.hold values waiting last).read context token next =
      operand >>= fun a => (m.hold [a] [] last).read context token next := by
    refine (hk _ _).trans ?_
    rw [hh token.takes ht, bind_assoc]
    exact bind_congr fun a => (hk (a :: m.values) m.waiting).symm
  have hstep : ∀ values waiting, (m.hold values waiting last).step context token next =
      (m.hold values waiting last).read context token next >>=
        fun m => pure { m with previous := some token } := by
    intro values waiting
    rw [Machine.step, checkOrder_of_followsOperand rfl hlast hf]
    rfl
  rw [hstep, hread, bind_assoc]
  exact bind_congr fun a => (hstep [a] []).symm

/-- Tokens of an operand and one that follows it are read as its amount would be. -/
theorem Reads.run_cons (h : Reads context least tokens operand) {m : Machine} (hm : Ready m)
    (hw : Stops least m.waiting) (token : Token) (hf : token.followsOperand = true)
    (ht : ∀ op, least ≤ op.precedence → token.takes op = true) :
    ∃ last, Token.endsOperand last = true ∧ ∀ rest, m.run context (tokens ++ token :: rest) =
      operand >>= fun a => (m.hold [a] [] last).run context (token :: rest) := by
  obtain ⟨fault, rfl, hrun⟩ | ⟨values, waiting, last, hlast, hh, hrun⟩ := h m hm hw
  · exact ⟨.closing, rfl, fun rest => hrun (token :: rest)⟩
  · refine ⟨last, hlast, fun rest => ?_⟩
    rw [hrun, Machine.run, step_hold hh hlast hf ht, bind_assoc]
    rfl

/-- Tokens that leave an amount, or fail as it does. -/
theorem reads_of_run (last : Token) (hlast : last.endsOperand = true)
    (h : ∀ m, Ready m → ∀ rest, m.run context (tokens ++ rest) =
      operand >>= fun a => (m.hold [a] [] last).run context rest) :
    Reads context least tokens operand := by
  intro m hm _
  cases operand with
  | error fault => exact .inl ⟨fault, rfl, h m hm⟩
  | ok a => exact .inr ⟨[a], [], last, hlast, holds_amount _ _ a, h m hm⟩

theorem step_eq_ok {m m' : Machine} {token : Token} {next : Option Token}
    (hcheck : m.checkOrder token = .ok ()) (hread : m.read context token next = .ok m') :
    m.step context token next = .ok { m' with previous := some token } := by
  rw [Machine.step, hcheck, hread]
  rfl

/-- An operator that takes nothing waits for its right operand. -/
theorem run_operator {m : Machine} {op : Operator} (hw : Stops op.precedence m.waiting) (a : Amount)
    {last : Token} (hlast : last.endsOperand = true) (rest : List Token) :
    (m.hold [a] [] last).run context (.operator op :: rest) =
      (m.hold [a] [.operator op] (.operator op)).run context rest := by
  have hr : reduce context.dry (op.precedence ≤ ·.precedence) (m.hold [a] [] last).values
      (m.hold [a] [] last).waiting = .ok (a :: m.values, m.waiting) :=
    reduce_of_stops hw (fun _ => of_decide_eq_true) _
  have hread : ∀ next, (m.hold [a] [] last).read context (.operator op) next =
      .ok (m.hold [a] [.operator op] last) := by
    intro next
    rw [Machine.read, hr]
    rfl
  rw [Machine.run, step_eq_ok (checkOrder_of_followsOperand rfl hlast rfl) (hread _)]
  rfl

theorem Machine.hold_hold (m : Machine) (a : Amount) (w : Waiting) (t : Token)
    (values : List Amount) (waiting : List Waiting) (last : Token) :
    (m.hold [a] [w] t).hold values waiting last = m.hold (values ++ [a]) (waiting ++ [w]) last := by
  simp [Machine.hold]

/-- An operator between a looser operand on the left and a tighter one on the right. -/
theorem Reads.chain {op : Operator} {left right : List Token} {a b : Except Fault Amount}
    (ha : Reads context op.precedence left a) (hb : Reads context (op.precedence + 1) right b) :
    Reads context op.precedence (left ++ .operator op :: right) (do
      let a ← a
      let b ← b
      op.apply context.dry a b) := by
  intro m hm hw
  obtain ⟨last, hlast, hrun⟩ := ha.run_cons hm hw (.operator op) rfl
    fun op' hop' => decide_eq_true hop'
  have happ : ∀ rest, m.run context ((left ++ .operator op :: right) ++ rest) =
      a >>= fun a => (m.hold [a] [] last).run context (.operator op :: (right ++ rest)) := by
    intro rest
    rw [List.append_assoc]
    exact hrun _
  cases a with
  | error fault => exact .inl ⟨fault, rfl, happ⟩
  | ok a =>
    have hstops : Stops (op.precedence + 1) (.operator op :: m.waiting) := by
      intro op' rest h
      cases h
      exact Nat.lt_succ_self _
    have hready : Ready (m.hold [a] [.operator op] (.operator op)) := ⟨hm.splicing, rfl, rfl⟩
    have hright : ∀ rest, m.run context ((left ++ .operator op :: right) ++ rest) =
        (m.hold [a] [.operator op] (.operator op)).run context (right ++ rest) :=
      fun rest => (happ rest).trans (run_operator hw a hlast _)
    obtain ⟨fault, rfl, hrun'⟩ | ⟨values, waiting, last', hlast', hh, hrun'⟩ := hb _ hready hstops
    · exact .inl ⟨fault, rfl, fun rest => (hright rest).trans (hrun' rest)⟩
    · refine .inr ⟨values ++ [a], waiting ++ [.operator op], last', hlast',
        hh.operator (Nat.le_succ _) a (Nat.le_refl _), fun rest => ?_⟩
      rw [hright, hrun', Machine.hold_hold]

/-! ## Operands in parentheses -/

theorem checkOrder_of_startsOperand {m : Machine} (hm : Ready m) {token : Token}
    (hs : token.startsOperand = true) : m.checkOrder token = .ok () := by
  have hf : token.followsOperand = false := by cases token <;> first | rfl | cases hs
  simp [Machine.checkOrder, hm.last, hf]

/-- The machine after an open parenthesis. -/
def Machine.enter (m : Machine) (isCall : Bool) : Machine :=
  { m with
    waiting := .parenthesis false :: m.waiting
    calls := isCall :: m.calls
    bases := m.values.length :: m.bases
    previous := some .opening }

theorem ready_enter {m : Machine} (hm : m.splicing = false) (isCall : Bool) :
    Ready (m.enter isCall) :=
  ⟨hm, rfl, rfl⟩

/-- An opening parenthesis where an operand may begin. -/
theorem run_opening {m : Machine} (hs : m.splicing = false)
    (hm : m.previous.any Token.endsOperand = false) (rest : List Token) :
    m.run context (.opening :: rest) = (m.enter (m.previous.any Token.isName)).run context rest := by
  have hcheck : m.checkOrder .opening = .ok () := by
    simp [Machine.checkOrder, hm, Token.followsOperand]
  rw [Machine.run, step_eq_ok hcheck rfl, hs]
  unfold Machine.enter
  rw [← hs]
  rfl

/-- What an open parenthesis stands before is not reduced. -/
theorem reduceAll_enter (dry : Bool) (m : Machine) (isCall : Bool) (values : List Amount)
    (last : Token) : reduceAll dry ((m.enter isCall).hold values [] last).values
      ((m.enter isCall).hold values [] last).waiting =
        .ok (values ++ m.values, .parenthesis false :: m.waiting) :=
  rfl

/-- A parenthesis is left with what was pushed in it as its arguments. -/
theorem leave_enter (m : Machine) (isCall : Bool) (arguments : List Amount) (last : Token) :
    ((m.enter isCall).hold arguments.reverse [] last).leave =
      if isCall then
        match m.waiting with
        | .function f :: waiting => do
          let result ← f.apply arguments
          return { m with values := result :: m.values, waiting, previous := some last }
        | _ => .error .outOfRange
      else do
        let result ← (group false arguments).mapError .evaluation
        return m.hold [result] [] last := by
  have hlength : (arguments.reverse ++ m.values).length - m.values.length =
      arguments.reverse.length := by rw [List.length_append, Nat.add_sub_cancel]
  simp only [Machine.leave, Machine.hold, Machine.enter, Machine.push, List.nil_append, hlength,
    List.take_left, List.drop_left, List.reverse_reverse]
  rfl

/-- A closed parenthesis around an operand. -/
theorem run_closing_group (m : Machine) (a : Amount) {last : Token}
    (hlast : last.endsOperand = true) (rest : List Token) :
    ((m.enter false).hold [a] [] last).run context (.closing :: rest) =
      (m.hold [{ a with breakdown := "(" ++ a.breakdown ++ ")" }] [] .closing).run context rest := by
  have hread : ∀ next, ((m.enter false).hold [a] [] last).read context .closing next =
      .ok (m.hold [{ a with breakdown := "(" ++ a.breakdown ++ ")" }] [] last) := by
    intro next
    rw [Machine.read, Machine.close, reduceAll_enter]
    exact leave_enter m false [a] last
  rw [Machine.run, step_eq_ok (checkOrder_of_followsOperand rfl hlast rfl) (hread _)]
  rfl

/-- The machine after the name of a function. -/
def Machine.await (m : Machine) (f : Function) : Machine :=
  { m with waiting := .function f :: m.waiting, previous := some (.name f.name) }

/-- A closed parenthesis around the arguments of a call. -/
theorem run_closing_call (m : Machine) (f : Function) (arguments : List Amount) {last : Token}
    (hcheck : (((m.await f).enter true).hold arguments.reverse [] last).checkOrder .closing = .ok ())
    (rest : List Token) :
    (((m.await f).enter true).hold arguments.reverse [] last).run context (.closing :: rest) =
      f.apply arguments >>= fun a => (m.hold [a] [] .closing).run context rest := by
  have hread : ∀ next, (((m.await f).enter true).hold arguments.reverse [] last).read context
      .closing next = f.apply arguments >>= fun a => .ok (m.hold [a] [] last) := by
    intro next
    rw [Machine.read, Machine.close, reduceAll_enter]
    exact leave_enter (m.await f) true arguments last
  rw [Machine.run, Machine.step, hcheck, hread]
  cases f.apply arguments with
  | error fault => rfl
  | ok a => rfl

/-- A comma between two arguments of a call. -/
theorem run_comma (m : Machine) (values : List Amount) {last : Token}
    (hlast : last.endsOperand = true) (rest : List Token) :
    ((m.enter true).hold values [] last).run context (.comma :: rest) =
      ((m.enter true).hold values [] .comma).run context rest := by
  have hread : ∀ next, ((m.enter true).hold values [] last).read context .comma next =
      .ok ((m.enter true).hold values [] last) := by
    intro next
    rw [Machine.read, reduceAll_enter]
    rfl
  rw [Machine.run, step_eq_ok (checkOrder_of_followsOperand rfl hlast rfl) (hread _)]
  rfl

/-- The arguments of a call up to the parenthesis that closes it, after those in `done`. -/
theorem run_arguments {m : Machine} (hm : m.splicing = false) (f : Function) (rest : List Token)
    (e : Expr) (arguments : List Expr)
    (h : ∀ e' ∈ e :: arguments, Reads context 1 e'.tokens (e'.amount context))
    (done : List Amount) (last : Token) (hlast : last = .opening ∨ last = .comma) :
    (((m.await f).enter true).hold done.reverse [] last).run context
        (argumentTokens (e :: arguments) ++ .closing :: rest) =
      argumentAmounts context (e :: arguments) >>= fun as => f.apply (done ++ as) >>= fun a =>
        (m.hold [a] [] .closing).run context rest := by
  have hready : Ready (((m.await f).enter true).hold done.reverse [] last) := by
    obtain rfl | rfl := hlast <;> exact ⟨hm, rfl, rfl⟩
  have hhold : ∀ a last', (((m.await f).enter true).hold done.reverse [] last).hold [a] [] last' =
      ((m.await f).enter true).hold (done ++ [a]).reverse [] last' := by
    simp [Machine.hold]
  induction arguments generalizing e done last with
  | nil =>
    obtain ⟨last', hlast', hrun⟩ := (h e (by simp)).run_cons hready (stops_parenthesis _ _ _)
      .closing rfl fun _ _ => rfl
    rw [argumentTokens, hrun, argumentAmounts, argumentAmounts, bind_assoc]
    refine bind_congr fun a => ?_
    rw [hhold, run_closing_call m f (done ++ [a]) (checkOrder_of_followsOperand rfl hlast' rfl)]
    rfl
  | cons e' arguments ih =>
    obtain ⟨last', hlast', hrun⟩ := (h e (by simp)).run_cons hready (stops_parenthesis _ _ _)
      .comma rfl fun _ _ => rfl
    rw [argumentTokens, List.append_assoc, List.cons_append, hrun, argumentAmounts, bind_assoc]
    refine bind_congr fun a => ?_
    rw [hhold, run_comma _ _ hlast', ih e' (fun e'' he => h e'' (List.mem_cons_of_mem e he))
      (done ++ [a]) .comma (.inr rfl) ⟨hm, rfl, rfl⟩ (by simp [Machine.hold]), bind_assoc]
    refine bind_congr fun as => ?_
    rw [List.append_assoc]
    rfl

/-! ## Derivations -/

/-- An amount is pushed and remembered with its token. -/
theorem push_eq_hold {m : Machine} (hm : m.splicing = false) (a : Amount) (last : Token) :
    { m.push false a with splicing := false, previous := some last } = m.hold [a] [] last := by
  obtain ⟨values, waiting, calls, bases, splicing, previous⟩ := m
  cases hm
  rfl

theorem reads_number (digits : String) :
    Reads context least [.number digits] (.ok (numberAmount digits)) := by
  refine reads_of_run (.number digits) rfl fun m hm rest => ?_
  rw [List.singleton_append, Machine.run, step_eq_ok (checkOrder_of_startsOperand hm rfl) rfl]
  exact congrArg (Machine.run context · rest) (push_eq_hold hm.splicing _ _)

theorem reads_place (index : String) :
    Reads context least [.place index] (context.place index) := by
  refine reads_of_run (.place index) rfl fun m hm rest => ?_
  rw [List.singleton_append, Machine.run, Machine.step, checkOrder_of_startsOperand hm rfl,
    Machine.read, hm.splicing]
  cases context.place index with
  | error fault => rfl
  | ok a => exact congrArg (Machine.run context · rest) (push_eq_hold hm.splicing a _)

theorem reads_group {operand : Except Fault Amount} (h : Reads context 1 tokens operand) :
    Reads context least (.opening :: tokens ++ [.closing]) (do
      let a ← operand
      return { a with breakdown := "(" ++ a.breakdown ++ ")" }) := by
  refine reads_of_run .closing rfl fun m hm rest => ?_
  obtain ⟨last, hlast, hrun⟩ := h.run_cons (ready_enter hm.splicing false)
    (stops_parenthesis 1 false m.waiting) .closing rfl fun _ _ => rfl
  rw [List.append_assoc, List.cons_append, run_opening hm.splicing hm.last, hm.name,
    List.singleton_append, hrun, bind_assoc]
  exact bind_congr fun a => run_closing_group m a hlast rest

theorem Function.ofName?_name (f : Function) : Function.ofName? f.name = some f := by
  cases f <;> decide

theorem reads_call (f : Function) (arguments : List Expr)
    (h : ∀ e ∈ arguments, Reads context 1 e.tokens (e.amount context)) :
    Reads context least (.name f.name :: .opening :: argumentTokens arguments ++ [.closing])
      (do f.apply (← argumentAmounts context arguments)) := by
  refine reads_of_run .closing rfl fun m hm rest => ?_
  have hname : m.read context (.name f.name) (some .opening) = .ok { m with
      waiting := .function f :: m.waiting } := by
    simp [Machine.read, f.ofName?_name]
  rw [List.append_assoc, List.cons_append, List.cons_append, Machine.run, List.head?_cons,
    step_eq_ok (checkOrder_of_startsOperand hm rfl) hname, List.singleton_append, bind_assoc]
  show ((m.await f).run context _) = _
  rw [run_opening (m := m.await f) hm.splicing rfl]
  cases arguments with
  | nil => exact run_closing_call m f [] rfl rest
  | cons e arguments =>
    exact run_arguments hm.splicing f rest e arguments h [] .opening (.inl rfl)

end

section

variable (context : Context)

mutual

theorem Expr.reads : ∀ e : Expr, Reads context 1 e.tokens (e.amount context)
  | .term t => (Term.reads t).loosen
  | .chain left op additive right => by
    have hl := Expr.reads left
    have hr := Term.reads right
    have hr' : Reads context (op.precedence + 1) right.tokens (right.amount context) := by
      rwa [additive]
    rw [← additive] at hl ⊢
    exact hl.chain hr'

theorem Term.reads : ∀ t : Term, Reads context 2 t.tokens (t.amount context)
  | .factor f => (Factor.reads f).loosen
  | .chain left op multiplicative right => by
    have hl := Term.reads left
    have hr := Factor.reads right
    have hr' : Reads context (op.precedence + 1) right.tokens (right.amount context) := by
      rwa [multiplicative]
    rw [← multiplicative] at hl ⊢
    exact hl.chain hr'

theorem Factor.reads : ∀ f : Factor, Reads context 3 f.tokens (f.amount context)
  | .number digits => reads_number digits
  | .place index => reads_place index
  | .group inner => reads_group (Expr.reads inner)
  | .call f arguments => reads_call f arguments (reads_arguments arguments)

theorem reads_arguments : ∀ arguments : List Expr, ∀ e ∈ arguments,
    Reads context 1 e.tokens (e.amount context)
  | [] => List.forall_mem_nil _
  | e :: rest => List.forall_mem_cons.2 ⟨Expr.reads e, reads_arguments rest⟩

end

/-- A machine that holds an operand and nothing else ends with its amount. -/
theorem finish_hold {operand : Except Fault Amount} {values : List Amount} {waiting : List Waiting}
    {last : Token} (hh : Holds context.dry 1 values waiting operand)
    (hlast : last.endsOperand = true) :
    (Machine.hold {} values waiting last).finish context = operand := by
  have hr := hh (fun _ => true) (fun _ _ => rfl) [] []
  have hcheck : (Machine.hold {} values waiting last).checkEnd = .ok () := if_pos hlast
  rw [Machine.finish, hcheck]
  show reduce context.dry (fun _ => true) (values ++ []) (waiting ++ []) >>= _ = _
  rw [hr, bind_assoc]
  exact bind_pure operand

/-- From the tokens of a derivation the machine finds the amount of the derivation. -/
theorem evaluateTokens_tokens (e : Expr) : evaluateTokens context e.tokens = e.amount context := by
  have hready : Ready {} := ⟨rfl, rfl, rfl⟩
  have hstops : Stops 1 ({} : Machine).waiting := by
    intro op rest h
    cases h
  obtain ⟨fault, hf, hrun⟩ | ⟨values, waiting, last, hlast, hh, hrun⟩ :=
    e.reads context {} hready hstops
  · rw [evaluateTokens, ← List.append_nil e.tokens, hrun, hf]
    rfl
  · rw [evaluateTokens, ← List.append_nil e.tokens, hrun]
    exact finish_hold context hh hlast

end

end RollTray.Formula
