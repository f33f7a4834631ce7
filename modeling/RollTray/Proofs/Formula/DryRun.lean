import RollTray.Proofs.Formula.Acceptance
import RollTray.Proofs.Formula.Amounts
import RollTray.Proofs.Number.Floats

/-!
# What a dry run tells

An expression whose dry run succeeds can still fail with the amounts of dice, and this says how: a
number is too large, a divisor is zero, or operands are missing or left over
(`follows_evaluate`). The last only happens to an expression with a splice that stands for other than
one operand, an expression that scatters (`Scatters`, `not_scatters`).

The two runs are compared token by token. They hold the same operators and parentheses (`Alike`), and
as long as nothing is scattered they hold as many amounts (`Balanced`). In the dry run every operand is
one amount, so all that lies below a parenthesis is still there when it is closed (`Machine.Rooted`).
-/

namespace RollTray

/-- The error says that operands are missing or left over. -/
def EvaluationError.miscounts : EvaluationError → Bool
  | tooFewOperands _ => true
  | noArguments _ => true
  | emptyParentheses => true
  | tooManyValues => true
  | _ => false

namespace Formula

/-! ## Operands that are scattered -/

/-- How many amounts lie below the operand that a token ends. -/
def Machine.floor (m : Machine) (token : Token) : Nat :=
  if token = .closing then m.bases.headD 0 else m.values.length

/-- One of these tokens ends an operand and leaves other than one amount for it. -/
def Machine.Scatters (context : Context) (m : Machine) : List Token → Prop
  | [] => False
  | token :: tokens => ∃ m', m.step context token tokens.head? = .ok m' ∧
      (token.endsOperand = true ∧ m'.values.length ≠ m.floor token + 1 ∨
        m'.Scatters context tokens)

/-- Some operand of the expression is spliced as other than one. -/
def Scatters (context : Context) (expression : String) : Prop :=
  ∃ tokens, tokenize expression = .ok tokens ∧
    Machine.Scatters context {} (tagSplices tokens)

/-- An outcome is as wanted, or fails because a number is too large, a divisor is zero or, unless the
operands are balanced, their number is not right. -/
inductive Follows {α : Type} (wanted : α → Prop) (balanced : Prop) : Except Fault α → Prop where
  | ok {a : α} (h : wanted a) : Follows wanted balanced (.ok a)
  | overflow : Follows wanted balanced (.error .overflow)
  | division : Follows wanted balanced (.error (.evaluation .divisionByZero))
  | miscount {reason : EvaluationError} (hbalanced : ¬balanced) (h : reason.miscounts = true) :
      Follows wanted balanced (.error (.evaluation reason))

namespace Follows

variable {α β : Type} {wanted wanted' : α → Prop} {balanced balanced' : Prop}

theorem mono {x : Except Fault α} (h : Follows wanted balanced x)
    (hwanted : ∀ a, x = .ok a → wanted a → wanted' a) (hbalanced : balanced' → balanced) :
    Follows wanted' balanced' x := by
  cases h with
  | ok h => exact .ok (hwanted _ rfl h)
  | overflow => exact .overflow
  | division => exact .division
  | miscount hn h => exact .miscount (fun h' => hn (hbalanced h')) h

theorem bind {wanted : α → Prop} {wanted' : β → Prop} {x : Except Fault α}
    {f : α → Except Fault β} (hx : Follows wanted balanced x)
    (hf : ∀ a, x = .ok a → wanted a → Follows wanted' balanced (f a)) :
    Follows wanted' balanced (x >>= f) := by
  cases hx with
  | ok h => exact hf _ rfl h
  | overflow => exact .overflow
  | division => exact .division
  | miscount hn h => exact .miscount hn h

theorem of_onlyOverflows {x : Except Fault α} (h : OnlyOverflows x)
    (hwanted : ∀ a, x = .ok a → wanted a) : Follows wanted balanced x := by
  cases x with
  | ok a => exact .ok (hwanted a rfl)
  | error fault =>
    rw [h fault rfl]
    exact .overflow

end Follows

/-! ## Operations and calls -/

theorem follows_compute (dry : Bool) (op : Operator) (a b : Num) (balanced : Prop) :
    Follows (fun _ => True) balanced (op.compute dry a b) := by
  cases op with
  | add => exact .of_onlyOverflows (Num.onlyOverflows_add a b) fun _ _ => trivial
  | sub => exact .of_onlyOverflows (Num.onlyOverflows_sub a b) fun _ _ => trivial
  | mul => exact .of_onlyOverflows (Num.onlyOverflows_mul a b) fun _ _ => trivial
  | div =>
    unfold Operator.compute
    dsimp only
    split
    · cases dry with
      | true => exact .ok trivial
      | false => exact .division
    · rename_i hzero
      rw [Bool.not_eq_true] at hzero
      exact .of_onlyOverflows (Num.onlyOverflows_div a hzero) fun _ _ => trivial

theorem follows_operator (dry : Bool) (op : Operator) (a b : Amount) (balanced : Prop) :
    Follows (fun _ => True) balanced (op.apply dry a b) :=
  (follows_compute dry op a.value b.value balanced).bind fun _ _ _ => .ok trivial

theorem onlyOverflows_sum (ns : List Num) : OnlyOverflows (Num.sum ns) := by
  unfold Num.sum
  generalize Num.int 0 = start
  induction ns generalizing start with
  | nil => exact onlyOverflows_ok _
  | cons n ns ih =>
    rw [List.foldlM_cons]
    exact (Num.onlyOverflows_add start n).bind fun sum _ => ih sum

theorem onlyOverflows_mean (values : List Num) : OnlyOverflows (Function.mean values) := by
  unfold Function.mean
  split
  · exact onlyOverflows_ok _
  · rename_i hne
    refine (onlyOverflows_sum values).bind fun sum _ => Num.onlyOverflows_div sum ?_
    have hlength : values.length ≠ 0 := by simpa using hne
    rw [Bool.eq_false_iff, Ne, Num.same, Num.compare?, beq_iff_eq, Option.some.injEq,
      compare_eq_iff_eq]
    omega

/-- A call of as many arguments as one that succeeds. -/
theorem follows_call {f : Function} {arguments arguments' : List Amount} {result : Amount}
    (h : f.apply arguments = .ok result) : Follows (fun _ => True)
      (arguments'.length = arguments.length) (f.apply arguments') := by
  have hselect : ∀ {pick : Num → List Num → Num},
      (f.select pick arguments).mapError Fault.evaluation = .ok result →
      Follows (fun _ => True) (arguments'.length = arguments.length)
        ((f.select pick arguments').mapError Fault.evaluation) := by
    intro pick h
    cases arguments' with
    | cons a rest => exact .ok trivial
    | nil =>
      refine .miscount (fun hlength => ?_) rfl
      obtain rfl : arguments = [] := List.length_eq_zero_iff.1 hlength.symm
      cases h
  cases f with
  | max => exact hselect h
  | min => exact hselect h
  | avg =>
    exact .of_onlyOverflows ((onlyOverflows_mean _).bind fun _ _ => onlyOverflows_ok _)
      fun _ _ => trivial

/-- A closed parenthesis with as many amounts in it as one that succeeds. -/
theorem follows_enclosed {isCall splice : Bool} {waiting waiting' : List Waiting}
    {arguments arguments' : List Amount} {result : Amount}
    (h : enclosed isCall splice waiting arguments = .ok (result, waiting')) :
    Follows (fun r => r.2 = waiting') (arguments'.length = arguments.length)
      (enclosed isCall splice waiting arguments') := by
  obtain ⟨rfl, f, rfl, hcall⟩ | ⟨rfl, rfl, hgroup⟩ := enclosed_eq_ok.1 h
  · exact (follows_call hcall).bind fun _ _ _ => .ok rfl
  · obtain ⟨inner, rfl, -⟩ := group_eq_ok.1 hgroup
    match arguments' with
    | [inner'] => exact .ok rfl
    | [] => exact .miscount (fun hlength => nomatch hlength) rfl
    | a :: b :: rest => exact .miscount (fun hlength => nomatch hlength) rfl

/-- A reduction of as many amounts as one that succeeds. -/
theorem follows_reduce {dry : Bool} {taken : Operator → Bool} {values values' vs : List Amount}
    {waiting ws : List Waiting} (h : reduce true taken values waiting = .ok (vs, ws)) :
    Follows (fun r => r.2 = ws ∧ (values'.length = values.length → r.1.length = vs.length))
      (values'.length = values.length) (reduce dry taken values' waiting) := by
  replace h := reduces_of_reduce h
  induction h generalizing values' with
  | stops h =>
    rw [reduce_of_head h]
    exact .ok ⟨rfl, id⟩
  | @applies op _ _ _ _ _ _ _ htaken _ _ ih =>
    match values' with
    | b' :: a' :: values' =>
      rw [reduce_operator htaken]
      refine (follows_operator dry op a' b' _).bind fun result' _ _ => ?_
      refine ih.mono (fun r _ hr => ⟨hr.1, fun hlength => hr.2 ?_⟩) fun hlength => ?_
      · simpa using hlength
      · simpa using hlength
    | [] =>
      rw [reduce_of_length_lt htaken [] Nat.zero_lt_two]
      exact .miscount (by simp) rfl
    | [a'] =>
      rw [reduce_of_length_lt htaken [a'] Nat.one_lt_two]
      exact .miscount (by simp) rfl

/-! ## Operands of one amount -/

/-- Under the operators that wait, and under each open parenthesis, there are as many amounts as they
need. -/
def Rooted : Nat → List Waiting → List Nat → Prop
  | _, [], _ => True
  | n, .operator _ :: waiting, bases => 0 < n ∧ Rooted (n - 1) waiting bases
  | n, .function _ :: waiting, bases => Rooted n waiting bases
  | n, .parenthesis _ :: waiting, base :: bases => base ≤ n ∧ Rooted base waiting bases
  | _, .parenthesis _ :: _, [] => False

theorem Rooted.mono {n n' : Nat} (hle : n ≤ n') {waiting : List Waiting} {bases : List Nat}
    (h : Rooted n waiting bases) : Rooted n' waiting bases := by
  induction waiting generalizing n n' with
  | nil => trivial
  | cons w waiting ih =>
    cases w with
    | operator op => exact ⟨Nat.lt_of_lt_of_le h.1 hle, ih (Nat.sub_le_sub_right hle 1) h.2⟩
    | function f => exact ih hle h
    | parenthesis splice =>
      cases bases with
      | nil => exact h
      | cons base bases => exact ⟨h.1.trans hle, h.2⟩

/-- A reduction takes one amount for each operator. -/
theorem Rooted.reduce {n above : Nat} {dry : Bool} {taken : Operator → Bool}
    {values values' : List Amount} {waiting waiting' : List Waiting} {bases : List Nat}
    (h : Rooted n waiting bases) (hn : n + above ≤ values.length)
    (hreduce : Formula.reduce dry taken values waiting = .ok (values', waiting')) :
    ∃ n', Rooted n' waiting' bases ∧ n' + above ≤ values'.length := by
  replace hreduce := reduces_of_reduce hreduce
  induction hreduce generalizing n with
  | stops => exact ⟨n, h, hn⟩
  | applies _ _ _ ih =>
    refine ih h.2 ?_
    have hpos := h.1
    simp only [List.length_cons] at hn ⊢
    omega

theorem Rooted.enclosed {n : Nat} {isCall splice : Bool} {waiting waiting' : List Waiting}
    {bases : List Nat} {arguments : List Amount} {result : Amount} (h : Rooted n waiting bases)
    (henclosed : Formula.enclosed isCall splice waiting arguments = .ok (result, waiting')) :
    Rooted n waiting' bases := by
  obtain ⟨-, f, rfl, -⟩ | ⟨-, rfl, -⟩ := enclosed_eq_ok.1 henclosed
  · exact h
  · exact h

/-- An amount that stands for itself. -/
def Amount.IsSingle (a : Amount) : Prop :=
  a.expanded = none

/-- Only places have amounts that stand for others. -/
theorem kept_isSingle {context : Context}
    (h : ∀ index a, context.place index = .ok a → a.IsSingle) : Kept context Amount.IsSingle where
  zero := rfl
  place := h
  operands a ha b hb := by
    rw [Amount.operands, ha] at hb
    rw [List.mem_singleton.1 hb]
    exact ha
  enclose _ ha := ha
  apply op a b r _ _ hr := by
    obtain ⟨value, -, hr⟩ := bind_eq_ok.1 hr
    cases hr
    rfl
  call f arguments r _ hr := by
    obtain ⟨value, texts, rfl, -⟩ := exists_of_call hr
    rfl

theorem kept_dryRun : Kept .dryRun Amount.IsSingle := by
  refine kept_isSingle fun index a h => ?_
  unfold Context.place at h
  split at h
  · cases h
  · cases h
    rfl

theorem push_of_isSingle {a : Amount} (h : a.IsSingle) (m : Machine) (splice : Bool) :
    m.push splice a = { m with values := a :: m.values } := by
  cases splice with
  | false => rfl
  | true =>
    rw [Machine.push, Amount.operands, h]
    rfl

theorem length_push (m : Machine) (splice : Bool) {a : Amount} (h : a.IsSingle) :
    (m.push splice a).values.length = m.values.length + 1 := by
  rw [push_of_isSingle h]
  rfl

/-- All amounts are single, and no parenthesis lacks amounts below it. An operand that has ended is
one amount more. -/
structure Machine.Sound (m : Machine) : Prop where
  single : ∀ a ∈ m.values, a.IsSingle
  rooted : ∃ n, Rooted n m.waiting m.bases ∧
    n + (m.previous.any Token.endsOperand).toNat ≤ m.values.length

section

variable {context : Context} {m m' : Machine}

/-- A closed parenthesis is one amount in place of what it holds. -/
theorem close_of_rooted (hP : Kept context Amount.IsSingle) {n : Nat}
    (hsingle : ∀ a ∈ m.values, a.IsSingle) (hroot : Rooted n m.waiting m.bases)
    (hn : n ≤ m.values.length) (h : m.close context = .ok m') :
    ∃ base, m.bases = base :: m'.bases ∧ m'.values.length = base + 1 ∧
      Rooted base m'.waiting m'.bases := by
  obtain ⟨⟨values, waiting⟩, hreduce, h⟩ := bind_eq_ok.1 h
  obtain ⟨n', hroot, hn'⟩ := hroot.reduce (show n + 0 ≤ m.values.length from hn) hreduce
  change ({ m with values, waiting } : Machine).leave = .ok m' at h
  obtain ⟨splice, waiting, isCall, calls, base, bases, result, waiting', hw, -, hb, hresult, rfl⟩ :=
    exists_of_leave h
  have hvalues := hP.reduce hsingle hreduce
  have hone : result.IsSingle := hP.enclosed (fun a ha =>
    hvalues a (List.mem_of_mem_take (List.mem_reverse.1 ha))) hresult
  dsimp only at hw hb
  rw [hw, hb] at hroot
  refine ⟨base, hb, ?_, hroot.2.enclosed hresult⟩
  rw [length_push _ _ hone, List.length_drop]
  change values.length - (values.length - base) + 1 = base + 1
  have hle := hroot.1
  omega

/-- One token. An operand that it ends has one amount. -/
theorem Machine.Sound.step (hP : Kept context Amount.IsSingle) (hm : m.Sound) {token : Token}
    {next : Option Token} (h : m.step context token next = .ok m') :
    m'.Sound ∧ (token.endsOperand = true → m'.values.length = m.floor token + 1) := by
  have hsingle := hP.step (fun _ _ => rfl) hm.single h
  obtain ⟨hstarts, hfollows, m₁, hread, rfl⟩ := exists_read_of_step h
  obtain ⟨n, hroot, hn⟩ := hm.rooted
  cases token with
  | splice =>
    cases hread
    exact ⟨⟨hsingle, n, hroot, (Nat.le_add_right ..).trans hn⟩, nofun⟩
  | number digits =>
    cases hread
    rw [hstarts rfl] at hn
    exact ⟨⟨hsingle, n, hroot, Nat.succ_le_succ hn⟩, fun _ => rfl⟩
  | place index =>
    obtain ⟨a, ha, hread⟩ := bind_eq_ok.1 hread
    cases hread
    rw [hstarts rfl] at hn
    have hlength := length_push m m.splicing (hP.place index a ha)
    refine ⟨⟨hsingle, n, hroot, ?_⟩, fun _ => hlength⟩
    exact (Nat.succ_le_succ hn).trans hlength.ge
  | name letters =>
    obtain ⟨f, -, -, rfl⟩ := read_name_eq_ok.1 hread
    exact ⟨⟨hsingle, n, hroot, (Nat.le_add_right ..).trans hn⟩, nofun⟩
  | opening =>
    cases hread
    refine ⟨⟨hsingle, m.values.length, ⟨le_rfl, hroot.mono ?_⟩, le_rfl⟩, nofun⟩
    exact (Nat.le_add_right ..).trans hn
  | comma =>
    obtain ⟨values, waiting, hreduce, -, rfl⟩ := read_comma_eq_ok.1 hread
    obtain ⟨n', hroot, hn'⟩ := hroot.reduce hn hreduce
    exact ⟨⟨hsingle, n', hroot, (Nat.le_add_right ..).trans hn'⟩, nofun⟩
  | operator op =>
    have hended : m.previous.any Token.endsOperand = true :=
      (hfollows rfl).resolve_right (fun h => nomatch h.1)
    rw [hended] at hn
    obtain ⟨⟨values, waiting⟩, hreduce, hread⟩ := bind_eq_ok.1 hread
    obtain ⟨n', hroot, hn'⟩ := hroot.reduce hn hreduce
    cases hread
    exact ⟨⟨hsingle, n' + 1, ⟨Nat.succ_pos _, hroot⟩, hn'⟩, nofun⟩
  | closing =>
    obtain ⟨base, hbases, hlength, hroot⟩ := close_of_rooted hP hm.single hroot
      ((Nat.le_add_right ..).trans hn) hread
    refine ⟨⟨hsingle, base, hroot, hlength.ge⟩, fun _ => ?_⟩
    rw [Machine.floor, if_pos rfl, hbases]
    exact hlength

/-- Where every place stands for itself, nothing is scattered. -/
theorem Machine.Sound.not_scatters (hP : Kept context Amount.IsSingle) (hm : m.Sound)
    (tokens : List Token) : ¬m.Scatters context tokens := by
  induction tokens generalizing m with
  | nil => exact id
  | cons token tokens ih =>
    rintro ⟨m', hstep, h⟩
    obtain ⟨hm', hlength⟩ := hm.step hP hstep
    rcases h with ⟨hends, hne⟩ | h
    · exact hne (hlength hends)
    · exact ih hm' h

end

/-! ## The two runs -/

/-- Two machines wait for the same, and may hold different amounts. -/
structure Alike (m m' : Machine) : Prop where
  waiting : m'.waiting = m.waiting
  calls : m'.calls = m.calls
  depth : m'.bases.length = m.bases.length
  splicing : m'.splicing = m.splicing
  previous : m'.previous = m.previous

/-- Two machines hold as many amounts. -/
structure Balanced (m m' : Machine) : Prop where
  values : m'.values.length = m.values.length
  bases : m'.bases = m.bases

/-- What a machine is to be after it has read a token, as one does in a dry run. -/
structure Beside (balanced : Prop) (token : Token) (m m' : Machine) : Prop where
  alike : Alike m m'
  bases : balanced → m'.bases = m.bases
  /-- If an operand ends, it is another question how many amounts it leaves. -/
  values : balanced → token.endsOperand = false → m'.values.length = m.values.length

/-- Every place has an amount if its index can be read. -/
def Context.Covers (context : Context) (tokens : List Token) : Prop :=
  ∀ index, .place index ∈ tokens → ∀ n, readInt index = some n →
    ∃ a, context.amount? n.toNat = some a

section

variable {context : Context} {m m' m₁ : Machine}

theorem checkOrder_of_alike (ha : Alike m m') (token : Token) :
    m'.checkOrder token = m.checkOrder token := by
  unfold Machine.checkOrder
  rw [ha.previous, ha.calls]

/-- A place that has an amount in a dry run. -/
theorem follows_place {index : String} {a : Amount}
    (hcovers : ∀ n, readInt index = some n → ∃ a, context.amount? n.toNat = some a)
    (h : Context.dryRun.place index = .ok a) (balanced : Prop) :
    Follows (fun _ => True) balanced (context.place index) := by
  unfold Context.place at h ⊢
  split at h
  · cases h
  · rename_i n hn
    obtain ⟨a, ha⟩ := hcovers n hn
    rw [ha]
    exact .ok trivial

/-- A parenthesis that can be closed in a dry run. -/
theorem follows_close (ha : Alike m m') (h : m.close .dryRun = .ok m₁) :
    Follows (Beside (Balanced m m') .closing m₁) (Balanced m m') (m'.close context) := by
  obtain ⟨⟨values, ws⟩, hreduce, h⟩ := bind_eq_ok.1 h
  change ({ m with values, waiting := ws } : Machine).leave = .ok m₁ at h
  obtain ⟨splice, waiting, isCall, calls, base, bases, result, waiting', hw, hc, hb, hresult, rfl⟩ :=
    exists_of_leave h
  unfold Machine.close
  rw [ha.waiting]
  refine ((follows_reduce hreduce).mono (fun _ _ => id) Balanced.values).bind ?_
  rintro ⟨values', ws'⟩ - ⟨rfl, hlength⟩
  change Follows _ _ ({ m' with values := values', waiting := ws' } : Machine).leave
  have hbases : ∃ base' bases', m'.bases = base' :: bases' := by
    have hdepth := ha.depth
    rw [show m.bases = base :: bases from hb] at hdepth
    exact List.exists_cons_of_length_eq_add_one hdepth
  obtain ⟨base', bases', hb'⟩ := hbases
  have hbalanced : Balanced m m' → base' = base ∧ bases' = bases := by
    intro hl
    have heq := hl.bases
    rw [hb', show m.bases = base :: bases from hb] at heq
    exact List.cons.inj heq
  rw [leave_eq (m := { m' with values := values', waiting := ws' }) hw (ha.calls.trans hc) hb']
  refine ((follows_enclosed hresult).mono (fun _ _ => id) ?_).bind ?_
  · intro hl
    simp only [List.length_reverse, List.length_take]
    rw [hlength hl.values, (hbalanced hl).1]
  · rintro ⟨result', waiting''⟩ - rfl
    refine .ok ⟨⟨rfl, rfl, ?_, ha.splicing, ha.previous⟩, fun hl => (hbalanced hl).2, nofun⟩
    have hdepth := ha.depth
    rw [hb', show m.bases = base :: bases from hb] at hdepth
    exact Nat.succ.inj hdepth

/-- A token that can be read in a dry run. -/
theorem follows_read {token : Token} {next : Option Token} (hcovers : context.Covers [token])
    (ha : Alike m m') (h : m.read .dryRun token next = .ok m₁) :
    Follows (Beside (Balanced m m') token m₁) (Balanced m m') (m'.read context token next) := by
  cases token with
  | splice =>
    cases h
    exact .ok ⟨⟨ha.waiting, ha.calls, ha.depth, rfl, ha.previous⟩, Balanced.bases,
      fun hl _ => hl.values⟩
  | number digits =>
    cases h
    exact .ok ⟨⟨ha.waiting, ha.calls, ha.depth, rfl, ha.previous⟩, Balanced.bases, nofun⟩
  | place index =>
    obtain ⟨a, hplace, h⟩ := bind_eq_ok.1 h
    cases h
    refine (follows_place (hcovers index (List.mem_singleton_self _)) hplace _).bind ?_
    intro a' _ _
    exact .ok ⟨⟨ha.waiting, ha.calls, ha.depth, rfl, ha.previous⟩, Balanced.bases, nofun⟩
  | name letters =>
    obtain ⟨f, hf, hnext, rfl⟩ := read_name_eq_ok.1 h
    rw [read_name_eq_ok.2 ⟨f, hf, hnext, rfl⟩]
    exact .ok ⟨⟨congrArg (List.cons _) ha.waiting, ha.calls, ha.depth, ha.splicing, ha.previous⟩,
      Balanced.bases, fun hl _ => hl.values⟩
  | opening =>
    cases h
    refine .ok ⟨⟨?_, ?_, congrArg (· + 1) ha.depth, rfl, ha.previous⟩, fun hl => ?_,
      fun hl _ => hl.values⟩
    · show Waiting.parenthesis m'.splicing :: m'.waiting = _
      rw [ha.splicing, ha.waiting]
    · show m'.previous.any Token.isName :: m'.calls = _
      rw [ha.previous, ha.calls]
    · show m'.values.length :: m'.bases = _
      rw [hl.values, hl.bases]
  | comma =>
    obtain ⟨values, ws, hreduce, hcall, rfl⟩ := read_comma_eq_ok.1 h
    unfold Machine.read
    dsimp only
    rw [ha.waiting]
    refine ((follows_reduce hreduce).mono (fun _ _ => id) Balanced.values).bind ?_
    rintro ⟨values', ws'⟩ - ⟨rfl, hlength⟩
    rw [if_pos (ha.calls ▸ hcall)]
    exact .ok ⟨⟨rfl, ha.calls, ha.depth, ha.splicing, ha.previous⟩, Balanced.bases,
      fun hl _ => hlength hl.values⟩
  | operator op =>
    obtain ⟨⟨values, ws⟩, hreduce, h⟩ := bind_eq_ok.1 h
    cases h
    unfold Machine.read
    dsimp only
    rw [ha.waiting]
    refine ((follows_reduce hreduce).mono (fun _ _ => id) Balanced.values).bind ?_
    rintro ⟨values', ws'⟩ - ⟨rfl, hlength⟩
    exact .ok ⟨⟨rfl, ha.calls, ha.depth, ha.splicing, ha.previous⟩, Balanced.bases,
      fun hl _ => hlength hl.values⟩
  | closing => exact follows_close ha h

/-- One token. -/
theorem follows_step {token : Token} {next : Option Token} (hcovers : context.Covers [token])
    (ha : Alike m m') (h : m.step .dryRun token next = .ok m₁) :
    Follows (Beside (Balanced m m') token m₁) (Balanced m m') (m'.step context token next) := by
  obtain ⟨_, hcheck, h⟩ := bind_eq_ok.1 h
  obtain ⟨m₂, hread, h⟩ := bind_eq_ok.1 h
  cases h
  unfold Machine.step
  rw [checkOrder_of_alike ha, hcheck]
  refine (follows_read hcovers ha hread).bind fun m₂' _ hbeside => ?_
  have halike := hbeside.alike
  exact .ok ⟨⟨halike.waiting, halike.calls, halike.depth, halike.splicing, rfl⟩, hbeside.bases,
    hbeside.values⟩

/-- A run whose dry run succeeds ends as it, or fails; it miscounts only if something is
scattered. -/
theorem follows_run {tokens : List Token} (hcovers : context.Covers tokens) (hm : m.Sound)
    (ha : Alike m m') (h : m.run .dryRun tokens = .ok m₁) :
    Follows (fun m₁' => Alike m₁ m₁' ∧
        (Balanced m m' ∧ ¬m'.Scatters context tokens → Balanced m₁ m₁'))
      (Balanced m m' ∧ ¬m'.Scatters context tokens) (m'.run context tokens) := by
  induction tokens generalizing m m' with
  | nil =>
    cases h
    exact .ok ⟨ha, And.left⟩
  | cons token tokens ih =>
    obtain ⟨m₂, hstep, h⟩ := bind_eq_ok.1 h
    have hone : context.Covers [token] := fun index hi =>
      hcovers index (List.mem_singleton.1 hi ▸ List.mem_cons_self ..)
    have hrest : context.Covers tokens := fun index hi => hcovers index (List.mem_cons_of_mem _ hi)
    obtain ⟨hm₂, hlength⟩ := hm.step kept_dryRun hstep
    refine ((follows_step hone ha hstep).mono (fun _ _ => id) And.left).bind ?_
    intro m₂' hstep' hbeside
    have hbalanced : Balanced m m' ∧ ¬m'.Scatters context (token :: tokens) →
        Balanced m₂ m₂' ∧ ¬m₂'.Scatters context tokens := by
      rintro ⟨hl, hnot⟩
      refine ⟨⟨?_, hbeside.bases hl⟩, fun hs => hnot ⟨m₂', hstep', .inr hs⟩⟩
      cases hends : token.endsOperand with
      | false => exact hbeside.values hl hends
      | true =>
        have hfloor : m'.floor token = m.floor token := by
          unfold Machine.floor
          rw [hl.bases, hl.values]
        have hone : m₂'.values.length = m'.floor token + 1 :=
          Classical.not_not.1 fun hne => hnot ⟨m₂', hstep', .inl ⟨hends, hne⟩⟩
        rw [hone, hfloor, hlength hends]
    exact (ih hrest hm₂ hbeside.alike h).mono
      (fun _ _ hr => ⟨hr.1, fun hl => hr.2 (hbalanced hl)⟩) hbalanced

theorem sound_empty : Machine.Sound {} :=
  ⟨List.forall_mem_nil _, 0, trivial, le_rfl⟩

/-- Tokens whose dry run succeeds. -/
theorem follows_evaluateTokens {tokens : List Token} (hcovers : context.Covers tokens)
    {amount : Amount} (h : evaluateTokens .dryRun tokens = .ok amount) :
    Follows (fun _ => True) (¬Machine.Scatters context {} tokens)
      (evaluateTokens context tokens) := by
  obtain ⟨m, hrun, h⟩ := bind_eq_ok.1 h
  have hbalanced : ¬Machine.Scatters context {} tokens →
      Balanced {} {} ∧ ¬Machine.Scatters context {} tokens := fun hnot => ⟨⟨rfl, rfl⟩, hnot⟩
  refine ((follows_run hcovers sound_empty ⟨rfl, rfl, rfl, rfl, rfl⟩ hrun).mono
    (fun _ _ => id) hbalanced).bind fun m' _ ⟨ha, hl⟩ => ?_
  obtain ⟨hcheck, values, hreduce, houtcome⟩ := finish_eq_ok.1 h
  unfold Machine.finish
  have hcheck' : m'.checkEnd = m.checkEnd := by
    unfold Machine.checkEnd
    rw [ha.previous]
  rw [hcheck', hcheck, ha.waiting]
  refine ((follows_reduce hreduce).mono (fun _ _ => id) fun hnot =>
    (hl (hbalanced hnot)).values).bind ?_
  rintro ⟨values', ws'⟩ - ⟨rfl, hlength⟩
  dsimp only
  rw [if_pos (List.isEmpty_nil)]
  match values' with
  | [] => exact .ok trivial
  | [_] => exact .ok trivial
  | a :: b :: rest =>
    refine .miscount (fun hnot => ?_) rfl
    have hlength := hlength (hl (hbalanced hnot)).values
    obtain ⟨rfl, -⟩ | rfl := outcome_eq_ok.1 houtcome
    · cases hlength
    · cases hlength

end

/-- An expression whose dry run succeeds, and whose places have amounts, has an amount unless a number
is too large, a divisor is zero or, if it scatters an operand, operands are missing or left over. -/
theorem follows_evaluate {context : Context} {expression : String} {amount : Amount}
    (hcovers : ∀ tokens, tokenize expression = .ok tokens → context.Covers (tagSplices tokens))
    (h : evaluate .dryRun expression = .ok amount) :
    Follows (fun _ => True) (¬Scatters context expression) (evaluate context expression) := by
  obtain ⟨tokens, htokens, h⟩ := bind_eq_ok.1 h
  obtain ⟨amount', hamount, h⟩ := bind_eq_ok.1 h
  unfold evaluate
  rw [htokens]
  refine ((follows_evaluateTokens (hcovers tokens (mapError_eq_ok.1 htokens)) hamount).mono
    (fun _ _ => id) fun hnot hs => hnot ⟨tokens, mapError_eq_ok.1 htokens, hs⟩).bind ?_
  intro a _ _
  exact .of_onlyOverflows ((Num.onlyOverflows_roundTenths a.value).bind fun _ _ =>
    onlyOverflows_ok _) fun _ _ => trivial

/-- Where every place stands for one operand, as in a dry run, nothing is scattered. -/
theorem not_scatters {context : Context} (hP : Kept context Amount.IsSingle) (expression : String) :
    ¬Scatters context expression :=
  fun ⟨_, _, h⟩ => sound_empty.not_scatters hP _ h

end Formula

end RollTray
