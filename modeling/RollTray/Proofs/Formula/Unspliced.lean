import Mathlib.Data.List.Forall2
import RollTray.Proofs.Formula.Arguments
import RollTray.Proofs.Formula.Auditing
import RollTray.Proofs.Formula.DryRun
import RollTray.Proofs.Formula.Reading

/-!
# Expressions without their splices

Where every place has an amount that stands for itself, a splice spreads one amount, so an expression has
the same value without its stars of splices (`evaluate_withoutSplices`). What is left is read as the tokens
that are no splices (`tokenize_withoutSplices`), and none of its stars is a splice then.

The two runs are compared token by token. Their stacks differ in breakdowns and in what the parentheses
that wait say of splices (`Machine.Unspliced`), and the run with splices may have read some since the token
that the other one has read last (`Shadows`).
-/

namespace RollTray.Formula

/-! ## The text without its splices -/

/-- A character after which a star is a splice. -/
def isInviting (c : Char) : Bool :=
  ['+', '-', '*', '/', '(', ','].contains c

/-- The text without the stars of its splices; whether a star in front would be one is given. -/
def dropSplices (invited : Bool) : List Char → List Char
  | [] => []
  | c :: cs =>
    if Text.isSpace c then c :: dropSplices invited cs
    else if c = '*' && invited then dropSplices true cs
    else c :: dropSplices (isInviting c) cs

/-- The expression without the stars of its splices. -/
def withoutSplices (expression : String) : String :=
  String.ofList (dropSplices true expression.toList)

theorem head?_dropSplices (cs : List Char) : (dropSplices false cs).head? = cs.head? := by
  cases cs with
  | nil => rfl
  | cons c cs =>
    unfold dropSplices
    rw [Bool.and_false, if_neg Bool.false_ne_true]
    split <;> rfl

/-- Where there are no stars nothing is dropped. -/
theorem dropSplices_append_of_notMem {tail : List Char} (h : '*' ∉ tail) (invited : Bool)
    (cs : List Char) : dropSplices invited (cs ++ tail) = dropSplices invited cs ++ tail := by
  induction cs generalizing invited with
  | nil =>
    induction tail generalizing invited with
    | nil => rfl
    | cons c tail ih =>
      rw [List.mem_cons, not_or] at h
      have hstar : (decide (c = '*') && invited) = false := by simp [Ne.symm h.1]
      rw [List.nil_append, dropSplices, dropSplices, hstar, if_neg Bool.false_ne_true]
      split <;> exact congrArg (c :: ·) (ih h.2 _)
  | cons c cs ih =>
    rw [List.cons_append, dropSplices, dropSplices]
    split
    · exact congrArg (c :: ·) (ih _)
    · split
      · exact ih _
      · exact congrArg (c :: ·) (ih _)

/-- Characters that invite no splice stay, and a star behind them is none. -/
theorem dropSplices_append_of_forall {taken : List Char} (hne : taken ≠ [])
    (h : ∀ c ∈ taken, isInviting c = false ∧ Text.isSpace c = false) (invited : Bool)
    (rest : List Char) :
    dropSplices invited (taken ++ rest) = taken ++ dropSplices false rest := by
  induction taken generalizing invited with
  | nil => exact absurd rfl hne
  | cons c taken ih =>
    obtain ⟨⟨hinviting, hspace⟩, h⟩ := List.forall_mem_cons.1 h
    have hstar : c ≠ '*' := by
      rintro rfl
      cases hinviting
    rw [List.cons_append, dropSplices, hspace, if_neg Bool.false_ne_true, decide_eq_false hstar,
      Bool.false_and, if_neg Bool.false_ne_true, hinviting]
    cases taken with
    | nil => rfl
    | cons d taken => exact congrArg (c :: ·) (ih nofun h false)

/-! ## Its tokens -/

/-- A symbol and its token invite splices alike, and the star is the token of a multiplication. -/
theorem invites_of_symbol? {c : Char} {token : Token} (h : symbol? c = some token) :
    isInviting c = token.invitesSplice ∧ (c = '*' ↔ token = .operator .mul) ∧ token ≠ .splice := by
  unfold symbol? at h
  split at h <;> cases h <;> decide

theorem isInviting_of_isWord {c : Char} (h : Text.isWord c = true) : isInviting c = false := by
  refine Bool.eq_false_iff.2 fun hinviting => ?_
  simp only [isInviting, List.contains_iff_mem, List.mem_cons, List.not_mem_nil, or_false] at hinviting
  rcases hinviting with rfl | rfl | rfl | rfl | rfl | rfl <;> cases h

/-- A lexeme is a symbol or holds none that invites a splice. -/
theorem IsLexeme.symbol_or_plain {taken : List Char} {token : Token} {more : Char → Bool}
    (h : IsLexeme taken token more) : (∃ c, taken = [c] ∧ symbol? c = some token) ∨
      token.invitesSplice = false ∧ ∀ c ∈ taken, isInviting c = false := by
  have hdigits : ∀ {cs : List Char}, (∀ c ∈ cs, Text.isDigit c = true) →
      ∀ c ∈ cs, isInviting c = false :=
    fun hcs c hc => isInviting_of_isWord (isWord_of_isDigit (hcs c hc))
  cases h with
  | whole _ h => exact .inr ⟨rfl, hdigits h⟩
  | decimal _ h hplaces =>
    exact .inr ⟨rfl, List.forall_mem_append.2
      ⟨hdigits h, List.forall_mem_cons.2 ⟨rfl, hdigits hplaces⟩⟩⟩
  | name _ h => exact .inr ⟨rfl, fun c hc => isInviting_of_isWord (isWord_of_isLetter (h c hc))⟩
  | place hg _ h =>
    have hmarks : ∀ c ∈ ['_', '_'], isInviting c = false :=
      List.forall_mem_cons.2 ⟨rfl, List.forall_mem_singleton.2 rfl⟩
    refine .inr ⟨rfl, List.forall_mem_cons.2 ⟨rfl, List.forall_mem_cons.2 ⟨rfl, List.forall_mem_cons.2
      ⟨?_, List.forall_mem_append.2 ⟨hdigits h, hmarks⟩⟩⟩⟩⟩
    rcases hg with rfl | rfl <;> rfl
  | symbol h => exact .inl ⟨_, rfl, h⟩

/-- What is left of a text reads as what is left of its tokens. -/
theorem ReadsAs.unspliced {cs : List Char} {tokens : List Token} (h : ReadsAs cs tokens)
    (previous : Option Token) : ReadsAs (dropSplices (previous.all Token.invitesSplice) cs)
      ((tagSplicesAfter previous tokens).filter (· ≠ .splice)) := by
  induction h generalizing previous with
  | nil => exact .nil
  | space hspace _ ih =>
    rw [dropSplices, if_pos hspace]
    exact .space hspace (ih previous)
  | @lexeme _ rest token tokens h _ ih =>
    obtain ⟨taken, more, hlex, hmore, rfl⟩ := lexeme?_eq_some.1 h
    rw [tagSplicesAfter]
    obtain ⟨c, rfl, hsymbol⟩ | ⟨hinvites, hplain⟩ := hlex.symbol_or_plain
    · obtain ⟨hinviting, hstar, hsplice⟩ := invites_of_symbol? hsymbol
      have hstar : decide (c = '*') = decide (token = .operator .mul) := decide_eq_decide.2 hstar
      rw [List.singleton_append, dropSplices, hlex.isSpace_eq c (List.mem_singleton_self c),
        if_neg Bool.false_ne_true, hstar]
      split
      · rw [List.filter_cons, if_neg (by decide)]
        exact ih (some .splice)
      · rw [List.filter_cons, if_pos (decide_eq_true hsplice), hinviting]
        exact .lexeme (lexeme?_eq_some.2 ⟨_, _, .symbol hsymbol, fun _ _ => rfl, rfl⟩) (ih (some token))
    · have hstar : token ≠ .operator .mul := by
        rintro rfl
        cases hinvites
      have hsplice : token ≠ .splice := by
        rintro rfl
        cases hinvites
      rw [decide_eq_false hstar, Bool.false_and, if_neg Bool.false_ne_true,
        List.filter_cons, if_pos (decide_eq_true hsplice),
        dropSplices_append_of_forall hlex.ne_nil fun c hc => ⟨hplain c hc, hlex.isSpace_eq c hc⟩]
      have hrest := ih (some token)
      rw [Option.all_some, hinvites] at hrest
      refine .lexeme (lexeme?_eq_some.2 ⟨taken, more, hlex, ?_, rfl⟩) hrest
      rwa [head?_dropSplices]

theorem trimEnd_append_blanks {tail : List Char} (h : ∀ c ∈ tail, Text.isBlank c = true)
    (cs : List Char) : Text.trimEnd (cs ++ tail) = Text.trimEnd cs := by
  induction cs with
  | nil => exact trimEnd_eq_nil h
  | cons c cs ih => rw [List.cons_append, Text.trimEnd_cons, ih, ← Text.trimEnd_cons]

/-- Without the stars of its splices an expression has the tokens that are no splices. -/
theorem tokenize_withoutSplices {expression : String} {tokens : List Token}
    (h : tokenize expression = .ok tokens) :
    tokenize (withoutSplices expression) = .ok ((tagSplices tokens).filter (· ≠ .splice)) := by
  obtain ⟨tail, htail, heq⟩ := Text.trimEnd_append expression.toList
  have hreads := (readsAs_of_scan h).unspliced none
  have hkept := (tokenize_eq_ok (isSpace_of_readsAs hreads)).2 hreads
  have hstar : '*' ∉ tail := fun hmem => nomatch htail _ hmem
  rw [withoutSplices, ← heq, dropSplices_append_of_notMem hstar]
  rw [tokenize, String.toList_ofList] at hkept ⊢
  rwa [trimEnd_append_blanks htail]

/-! ## Amounts of one value -/

/-- Two amounts of one value that stand for themselves. -/
structure Amount.Twins (a b : Amount) : Prop where
  value : b.value = a.value
  left : a.IsSingle
  right : b.IsSingle

section

variable {dry : Bool} {values values' results arguments arguments' : List Amount} {result : Amount}

theorem values_of_twins (h : List.Forall₂ Amount.Twins arguments arguments') :
    arguments'.map Amount.value = arguments.map Amount.value := by
  induction h with
  | nil => rfl
  | cons h _ ih => rw [List.map_cons, List.map_cons, h.value, ih]

theorem twins_operator {op : Operator} {a a' b b' : Amount} (ha : a.Twins a') (hb : b.Twins b')
    (h : op.apply dry a b = .ok result) :
    ∃ result', op.apply dry a' b' = .ok result' ∧ result.Twins result' := by
  obtain ⟨value, hvalue, h⟩ := bind_eq_ok.1 h
  cases h
  rw [Operator.apply, ha.value, hb.value, hvalue]
  exact ⟨_, rfl, rfl, rfl, rfl⟩

theorem twins_call {f : Function} (harguments : List.Forall₂ Amount.Twins arguments arguments')
    (h : f.apply arguments = .ok result) :
    ∃ result', f.apply arguments' = .ok result' ∧ result.Twins result' := by
  have hselect : ∀ {pick : Num → List Num → Num},
      (f.select pick arguments).mapError Fault.evaluation = .ok result →
      ∃ result', (f.select pick arguments').mapError Fault.evaluation = .ok result' ∧
        result.Twins result' := by
    intro pick h
    cases harguments with
    | nil => cases h
    | cons hfirst hrest =>
      cases h
      refine ⟨_, rfl, ?_, rfl, rfl⟩
      dsimp only
      rw [hfirst.value, values_of_twins hrest]
  cases f with
  | max => exact hselect h
  | min => exact hselect h
  | avg =>
    obtain ⟨value, hvalue, h⟩ := bind_eq_ok.1 h
    cases h
    rw [Function.apply, values_of_twins harguments, hvalue]
    exact ⟨_, rfl, rfl, rfl, rfl⟩

/-- What waits, as it does in a run without splices. -/
def Waiting.unspliced : Waiting → Waiting
  | .operator op => .operator op
  | .function f => .function f
  | .parenthesis _ => .parenthesis false

theorem Waiting.isTaken_unspliced (taken : Operator → Bool) (w : Waiting) :
    w.unspliced.isTaken taken = w.isTaken taken := by
  cases w <;> rfl

/-- A closed parenthesis has one value whether it is spliced or not. -/
theorem twins_enclosed {isCall splice : Bool} {waiting waiting' : List Waiting}
    (harguments : List.Forall₂ Amount.Twins arguments arguments')
    (h : enclosed isCall splice waiting arguments = .ok (result, waiting')) :
    ∃ result', enclosed isCall false (waiting.map Waiting.unspliced) arguments' =
        .ok (result', waiting'.map Waiting.unspliced) ∧ result.Twins result' := by
  obtain ⟨rfl, f, rfl, hcall⟩ | ⟨rfl, rfl, hgroup⟩ := enclosed_eq_ok.1 h
  · obtain ⟨result', hcall', htwins⟩ := twins_call harguments hcall
    exact ⟨result', enclosed_eq_ok.2 (.inl ⟨rfl, f, rfl, hcall'⟩), htwins⟩
  · obtain ⟨inner, rfl, rfl⟩ := group_eq_ok.1 hgroup
    obtain ⟨inner', _, htwins, ⟨⟩, rfl⟩ := List.forall₂_cons_left_iff.1 harguments
    refine ⟨_, enclosed_eq_ok.2 (.inr ⟨rfl, rfl, rfl⟩), htwins.value.trans ?_, ?_, htwins.right⟩
    · cases splice <;> rfl
    · cases splice <;> exact htwins.left

/-- Operators are applied to amounts of the same values, whatever the parentheses below them. -/
theorem twins_reduce {taken : Operator → Bool} {waiting left : List Waiting}
    (hvalues : List.Forall₂ Amount.Twins values values')
    (h : reduce dry taken values waiting = .ok (results, left)) :
    ∃ results', reduce dry taken values' (waiting.map Waiting.unspliced) =
        .ok (results', left.map Waiting.unspliced) ∧ List.Forall₂ Amount.Twins results results' := by
  replace h := reduces_of_reduce h
  induction h generalizing values' with
  | @stops values waiting h =>
    refine ⟨values', reduce_of_head (fun w hw => ?_) values', hvalues⟩
    rw [List.head?_map] at hw
    obtain ⟨w', hw', rfl⟩ := Option.mem_map.1 hw
    exact (w'.isTaken_unspliced taken).trans (h w' hw')
  | @applies op a b r values _ waiting _ htaken ha rest ih =>
    cases hvalues with
    | cons hb hvalues =>
      cases hvalues with
      | cons ha' hvalues =>
        obtain ⟨a', happly, htwins⟩ := twins_operator ha' hb ha
        rw [List.map_cons, Waiting.unspliced, reduce_operator htaken, happly]
        exact ih (.cons htwins hvalues)

end

/-! ## The two machines -/

/-- The stacks of a run with splices and of one without. -/
structure Machine.Unspliced (m n : Machine) : Prop where
  values : List.Forall₂ Amount.Twins m.values n.values
  waiting : n.waiting = m.waiting.map Waiting.unspliced
  calls : n.calls = m.calls
  bases : n.bases = m.bases
  splicing : n.splicing = false

/-- The token that was read last, and the one that was if splices are not read. -/
def Shadows (last last' : Option Token) : Prop :=
  last' = last ∨ last = some .splice ∧ last'.all Token.invitesSplice = true

theorem isName_of_invitesSplice {token : Token} (h : token.invitesSplice = true) :
    token.isName = false := by
  cases token <;> first | rfl | cases h

theorem Shadows.any {last last' : Option Token} (h : Shadows last last') {kind : Token → Bool}
    (hkind : ∀ token : Token, token.invitesSplice = true → kind token = false) :
    last'.any kind = last.any kind := by
  obtain rfl | ⟨rfl, hinvites⟩ := h
  · rfl
  · rw [Option.any_some, hkind .splice rfl]
    cases last' with
    | none => rfl
    | some token => exact hkind token hinvites

section

variable {context : Context} {m m' n : Machine} {token : Token} {next next' : Option Token}

theorem checkOrder_of_shadows (hcalls : n.calls = m.calls) (hlast : Shadows m.previous n.previous)
    (h : m.checkOrder token = .ok ()) : n.checkOrder token = .ok () := by
  have hended := hlast.any fun _ => endsOperand_of_invitesSplice
  obtain ⟨hstarts, hfollows⟩ := checkOrder_eq_ok.1 h
  refine checkOrder_eq_ok.2 ⟨fun h => hended.trans (hstarts h), fun h => ?_⟩
  obtain hend | ⟨hclosing, hopening, hcall⟩ := hfollows h
  · exact .inl (hended.trans hend)
  · obtain hlast | ⟨hsplice, -⟩ := hlast
    · exact .inr ⟨hclosing, hlast.trans hopening, hcalls ▸ hcall⟩
    · rw [hopening] at hsplice
      cases hsplice

theorem Machine.Unspliced.leave (h : m.Unspliced n) (hleave : m.leave = .ok m') :
    ∃ n', n.leave = .ok n' ∧ m'.Unspliced n' := by
  obtain ⟨splice, waiting, isCall, calls, base, bases, result, waiting', hw, hc, hb, hresult, rfl⟩ :=
    exists_of_leave hleave
  have hw' : n.waiting = .parenthesis false :: waiting.map Waiting.unspliced := by
    rw [h.waiting, hw]
    rfl
  rw [leave_eq hw' (h.calls.trans hc) (h.bases.trans hb), ← h.values.length_eq]
  obtain ⟨result', hresult', htwins⟩ := twins_enclosed
    (List.rel_reverse (List.forall₂_take _ h.values)) hresult
  rw [hresult']
  refine ⟨_, rfl, ?_⟩
  rw [push_of_isSingle htwins.left, push_of_isSingle htwins.right]
  exact ⟨.cons htwins (List.forall₂_drop _ h.values), rfl, rfl, rfl, h.splicing⟩

theorem Machine.Unspliced.close (h : m.Unspliced n) (hclose : m.close context = .ok m') :
    ∃ n', n.close context = .ok n' ∧ m'.Unspliced n' := by
  obtain ⟨⟨values, waiting⟩, hreduce, hleave⟩ := bind_eq_ok.1 hclose
  obtain ⟨values', hreduce', hvalues⟩ := twins_reduce h.values hreduce
  have hstacks : ({ m with values, waiting } : Machine).Unspliced
      { n with values := values', waiting := waiting.map Waiting.unspliced } :=
    ⟨hvalues, rfl, h.calls, h.bases, h.splicing⟩
  obtain ⟨n', hleave', hn'⟩ := hstacks.leave hleave
  refine ⟨n', ?_, hn'⟩
  rw [Machine.close, reduceAll, h.waiting, hreduce']
  exact hleave'

/-- A token other than a splice is read alike. -/
theorem Machine.Unspliced.read (h : m.Unspliced n) (hlast : Shadows m.previous n.previous)
    (hsplice : token ≠ .splice)
    (hplace : ∀ index, token = .place index → ∀ a, context.place index = .ok a → a.IsSingle)
    (hnext : next = some .opening → next' = some .opening)
    (hread : m.read context token next = .ok m') :
    ∃ n', n.read context token next' = .ok n' ∧ m'.Unspliced n' := by
  cases token with
  | splice => exact absurd rfl hsplice
  | place index =>
    obtain ⟨a, ha, hread⟩ := bind_eq_ok.1 hread
    cases hread
    have hsingle := hplace index rfl a ha
    refine ⟨_, by rw [Machine.read, ha]; rfl, ?_⟩
    rw [push_of_isSingle hsingle, push_of_isSingle hsingle]
    exact ⟨.cons ⟨rfl, hsingle, hsingle⟩ h.values, h.waiting, h.calls, h.bases, rfl⟩
  | number digits =>
    cases hread
    exact ⟨_, rfl, .cons ⟨rfl, rfl, rfl⟩ h.values, h.waiting, h.calls, h.bases, rfl⟩
  | name letters =>
    obtain ⟨f, hf, hopening, rfl⟩ := read_name_eq_ok.1 hread
    refine ⟨_, read_name_eq_ok.2 ⟨f, hf, hnext hopening, rfl⟩, h.values, ?_, h.calls, h.bases,
      h.splicing⟩
    exact congrArg (Waiting.function f :: ·) h.waiting
  | opening =>
    cases hread
    refine ⟨_, rfl, h.values, ?_, ?_, ?_, rfl⟩
    · exact congrArg₂ (Waiting.parenthesis · :: ·) h.splicing h.waiting
    · exact congrArg₂ (· :: ·) (hlast.any fun _ => isName_of_invitesSplice) h.calls
    · exact congrArg₂ (· :: ·) h.values.length_eq.symm h.bases
  | comma =>
    obtain ⟨values, waiting, hreduce, hcall, rfl⟩ := read_comma_eq_ok.1 hread
    obtain ⟨values', hreduce', hvalues⟩ := twins_reduce h.values hreduce
    rw [← h.waiting] at hreduce'
    exact ⟨_, read_comma_eq_ok.2 ⟨_, _, hreduce', h.calls ▸ hcall, rfl⟩, hvalues, rfl, h.calls,
      h.bases, h.splicing⟩
  | closing => exact h.close hread
  | operator op =>
    obtain ⟨⟨values, waiting⟩, hreduce, hread⟩ := bind_eq_ok.1 hread
    obtain ⟨values', hreduce', hvalues⟩ := twins_reduce h.values hreduce
    cases hread
    refine ⟨{ n with values := values', waiting := .operator op :: waiting.map Waiting.unspliced }, ?_,
      hvalues, rfl, h.calls, h.bases, h.splicing⟩
    rw [Machine.read, h.waiting, hreduce']
    rfl

/-- One token. -/
theorem Machine.Unspliced.step (h : m.Unspliced n) (hlast : Shadows m.previous n.previous)
    (hsplice : token ≠ .splice)
    (hplace : ∀ index, token = .place index → ∀ a, context.place index = .ok a → a.IsSingle)
    (hnext : next = some .opening → next' = some .opening)
    (hstep : m.step context token next = .ok m') :
    ∃ n', n.step context token next' = .ok n' ∧ m'.Unspliced n' ∧ n'.previous = m'.previous := by
  obtain ⟨hstarts, hfollows, m₁, hread, rfl⟩ := exists_read_of_step hstep
  obtain ⟨n₁, hread', h₁⟩ := h.read hlast hsplice hplace hnext hread
  refine ⟨{ n₁ with previous := some token }, step_eq_ok ?_ hread', ?_, rfl⟩
  · exact checkOrder_of_shadows h.calls hlast (checkOrder_eq_ok.2 ⟨hstarts, hfollows⟩)
  · exact ⟨h₁.values, h₁.waiting, h₁.calls, h₁.bases, h₁.splicing⟩

/-- A splice is not read in the other run. -/
theorem Machine.Unspliced.step_splice (h : m.Unspliced n)
    (hstep : m.step context .splice next = .ok m') : m'.Unspliced n := by
  obtain ⟨-, -, m₁, hread, rfl⟩ := exists_read_of_step hstep
  cases hread
  exact ⟨h.values, h.waiting, h.calls, h.bases, h.splicing⟩

theorem head?_filter_of_opening {tokens : List Token} (h : tokens.head? = some .opening) :
    (tokens.filter (· ≠ .splice)).head? = some .opening := by
  obtain ⟨rest, rfl⟩ := List.head?_eq_some_iff.1 h
  rfl

/-- All tokens. -/
theorem Machine.Unspliced.run {tokens : List Token} (hsplice : .splice ∉ tokens)
    (hplace : ∀ index, .place index ∈ tokens → ∀ a, context.place index = .ok a → a.IsSingle)
    (h : m.Unspliced n) (hlast : Shadows m.previous n.previous)
    (hrun : m.run context (tagSplicesAfter m.previous tokens) = .ok m') :
    ∃ n', n.run context ((tagSplicesAfter m.previous tokens).filter (· ≠ .splice)) = .ok n' ∧
      m'.Unspliced n' ∧ Shadows m'.previous n'.previous := by
  induction tokens generalizing m n with
  | nil =>
    cases hrun
    exact ⟨n, rfl, h, hlast⟩
  | cons token tokens ih =>
    obtain ⟨hne, hsplice⟩ := not_or.1 (List.mem_cons.not.1 hsplice)
    have hplace' : ∀ index, .place index ∈ tokens → ∀ a, context.place index = .ok a → a.IsSingle :=
      fun index hindex => hplace index (List.mem_cons_of_mem _ hindex)
    rw [tagSplicesAfter] at hrun ⊢
    by_cases htag : (token = .operator .mul && m.previous.all Token.invitesSplice) = true
    · rw [if_pos htag] at hrun ⊢
      obtain ⟨m₁, hstep, hrun⟩ := bind_eq_ok.1 hrun
      have hread := (fields_of_step hstep).1
      have hinvites : n.previous.all Token.invitesSplice = true := by
        obtain hlast | ⟨-, hinvites⟩ := hlast
        · rw [hlast]
          exact (Bool.and_eq_true_iff.1 htag).2
        · exact hinvites
      rw [List.filter_cons, if_neg (by decide)]
      rw [← hread] at hrun ⊢
      exact ih hsplice hplace' (h.step_splice hstep) (.inr ⟨hread, hinvites⟩) hrun
    · rw [if_neg htag] at hrun ⊢
      obtain ⟨m₁, hstep, hrun⟩ := bind_eq_ok.1 hrun
      have hread := (fields_of_step hstep).1
      obtain ⟨n₁, hstep', h₁, hlast₁⟩ := h.step hlast (Ne.symm hne)
        (fun index hindex => hplace index (hindex ▸ List.mem_cons_self ..)) head?_filter_of_opening hstep
      rw [List.filter_cons, if_pos (decide_eq_true (Ne.symm hne)), Machine.run, hstep']
      rw [← hread] at hrun ⊢
      exact ih hsplice hplace' h₁ (.inl hlast₁) hrun

theorem Machine.Unspliced.finish {amount : Amount} (h : m.Unspliced n)
    (hlast : Shadows m.previous n.previous) (hfinish : m.finish context = .ok amount) :
    ∃ amount', n.finish context = .ok amount' ∧ amount'.value = amount.value := by
  obtain ⟨hend, values, hreduce, houtcome⟩ := finish_eq_ok.1 hfinish
  obtain ⟨values', hreduce', hvalues⟩ := twins_reduce h.values hreduce
  have hend' : n.checkEnd = .ok () := by
    obtain hlast | ⟨hsplice, -⟩ := hlast
    · rwa [Machine.checkEnd, hlast]
    · rw [Machine.checkEnd, hsplice] at hend
      cases hend
  rw [← h.waiting] at hreduce'
  obtain ⟨rfl, rfl⟩ | rfl := outcome_eq_ok.1 houtcome
  · cases hvalues
    exact ⟨_, finish_eq_ok.2 ⟨hend', _, hreduce', rfl⟩, rfl⟩
  · obtain ⟨amount', _, htwins, ⟨⟩, rfl⟩ := List.forall₂_cons_left_iff.1 hvalues
    exact ⟨amount', finish_eq_ok.2 ⟨hend', _, hreduce', rfl⟩, htwins.value⟩

/-! ## Whole expressions -/

/-- Tokens have the value of those among them that are no splices. -/
theorem evaluateTokens_filter {tokens : List Token} {amount : Amount} (hsplice : .splice ∉ tokens)
    (hplace : ∀ index, .place index ∈ tokens → ∀ a, context.place index = .ok a → a.IsSingle)
    (h : evaluateTokens context (tagSplices tokens) = .ok amount) :
    ∃ amount', evaluateTokens context ((tagSplices tokens).filter (· ≠ .splice)) = .ok amount' ∧
      amount'.value = amount.value := by
  obtain ⟨m, hrun, hfinish⟩ := bind_eq_ok.1 h
  have hstart : Machine.Unspliced {} {} := ⟨.nil, rfl, rfl, rfl, rfl⟩
  obtain ⟨n, hrun', hstacks, hlast⟩ := hstart.run hsplice hplace (.inl rfl) hrun
  obtain ⟨amount', hfinish', hvalue⟩ := hstacks.finish hlast hfinish
  refine ⟨amount', ?_, hvalue⟩
  rw [evaluateTokens]
  exact bind_eq_ok.2 ⟨n, hrun', hfinish'⟩

/-- Tokens that have an amount are not only splices. -/
theorem filter_ne_nil {tokens : List Token} {amount : Amount} (hne : tokens ≠ [])
    (h : evaluateTokens context (tagSplices tokens) = .ok amount) :
    (tagSplices tokens).filter (· ≠ .splice) ≠ [] := by
  obtain ⟨m, hrun, hfinish⟩ := bind_eq_ok.1 h
  have htagged : tagSplices tokens ≠ [] := by
    cases tokens with
    | nil => exact absurd rfl hne
    | cons token tokens => exact List.cons_ne_nil _ _
  obtain ⟨last, hlast⟩ := Option.isSome_iff_exists.1 (List.getLast?_isSome.2 htagged)
  have hends := (endsOperand_of_finish hfinish).1 last ((previous_of_run htagged hrun).trans hlast)
  have hsplice : last ≠ .splice := by
    rintro rfl
    cases hends
  exact List.ne_nil_of_mem (List.mem_filter.2 ⟨List.mem_of_getLast? hlast, decide_eq_true hsplice⟩)

end

theorem splice_notMem_of_tokenize {expression : String} {tokens : List Token}
    (h : tokenize expression = .ok tokens) : .splice ∉ tokens := by
  intro hmem
  obtain ⟨taken, more, hlex⟩ := exists_isLexeme_of_readsAs (readsAs_of_scan h) _ hmem
  cases hlex with
  | symbol hsymbol => exact (invites_of_symbol? hsymbol).2.2 rfl

/-- No place of the expression has an amount that stands for others. -/
def Unexpanded (context : Context) (expression : String) : Prop :=
  ∀ tokens, tokenize expression = .ok tokens → ∀ index, .place index ∈ tokens →
    ∀ a, context.place index = .ok a → a.IsSingle

theorem unexpanded_of_isSingle {context : Context} (h : ∀ n a, context.amount? n = some a → a.IsSingle)
    (expression : String) : Unexpanded context expression := by
  intro _ _ index _ a ha
  unfold Context.place at ha
  split at ha
  · cases ha
  split at ha
  · next hamount =>
    cases ha
    exact h _ _ hamount
  split at ha
  · cases ha
    rfl
  · cases ha

section

variable {context : Context} {expression : String} {amount : Amount}

/-- What an evaluation comes to, and what it comes to without the tokens that are splices. -/
theorem exists_evaluateTokens (hplaces : Unexpanded context expression)
    (h : evaluate context expression = .ok amount) : ∃ tokens a a', tokenize expression = .ok tokens ∧
      evaluateTokens context (tagSplices tokens) = .ok a ∧
      evaluateTokens context ((tagSplices tokens).filter (· ≠ .splice)) = .ok a' ∧
      a'.value.roundTenths = .ok amount.value := by
  obtain ⟨tokens, htokens, h⟩ := bind_eq_ok.1 h
  rw [mapError_eq_ok] at htokens
  obtain ⟨a, ha, h⟩ := bind_eq_ok.1 h
  obtain ⟨value, hvalue, h⟩ := bind_eq_ok.1 h
  cases h
  obtain ⟨a', ha', heq⟩ := evaluateTokens_filter (splice_notMem_of_tokenize htokens)
    (hplaces tokens htokens) ha
  exact ⟨tokens, a, a', htokens, ha, ha', heq ▸ hvalue⟩

theorem isAllBlank_of_tokenize (h : tokenize expression = .ok []) :
    Text.isAllBlank expression.toList = true := by
  obtain ⟨tail, htail, heq⟩ := Text.trimEnd_append expression.toList
  have hspaces := (readsAs_of_scan h).isSpace_of_nil
  rw [← heq, Text.isAllBlank, List.all_eq_true]
  exact List.forall_mem_append.2 ⟨fun c hc => Text.isBlank_of_isSpace (hspaces c hc), htail⟩

/-- What passes a dry run derives from the grammar without its splices, unless it is blank. -/
theorem exists_tokens_of_dryRun (h : evaluate .dryRun expression = .ok amount)
    (hblank : Text.isAllBlank expression.toList = false) :
    ∃ e : Expr, tokenize (withoutSplices expression) = .ok e.tokens := by
  have hplaces : Unexpanded .dryRun expression := unexpanded_of_isSingle (fun _ _ h => by cases h) _
  obtain ⟨tokens, a, a', htokens, ha, ha', -⟩ := exists_evaluateTokens hplaces h
  have hne : tokens ≠ [] := by
    rintro rfl
    rw [isAllBlank_of_tokenize htokens] at hblank
    cases hblank
  have hsplice : .splice ∉ (tagSplices tokens).filter (· ≠ .splice) :=
    fun hmem => of_decide_eq_true (List.mem_filter.1 hmem).2 rfl
  obtain hnil | ⟨e, he⟩ := exists_tokens_of_evaluateTokens hsplice ha'
  · exact absurd hnil (filter_ne_nil hne ha)
  · exact ⟨e, he ▸ tokenize_withoutSplices htokens⟩

/-- A compiled template has the place of a dice term in it. -/
theorem isAllBlank_of_compile {formula : String} {compiled : Compiled}
    (h : compile formula = .ok compiled) : Text.isAllBlank compiled.template.toList = false := by
  refine Bool.eq_false_iff.2 fun hblank => ?_
  have htokens : tokenize compiled.template = .ok [] := by
    rw [tokenize, trimEnd_eq_nil (List.all_eq_true.1 hblank), scan]
  have hplaces := congrArg List.length (places_of_compile h htokens)
  rw [List.length_map, List.length_range] at hplaces
  obtain ⟨parts, hreaches, -, rfl⟩ := compile_eq_ok.1 h
  exact hreaches.dice (List.length_eq_zero_iff.1 hplaces.symm)

end

/-- An expression whose places have no amounts that stand for others has the same value without the stars of
its splices. So what passes a dry run derives from the grammar without them, be it an expression that is not
blank or the template of a formula. -/
theorem evaluate_withoutSplices :
    (∀ context expression amount, Unexpanded context expression →
      evaluate context expression = .ok amount →
        ∃ amount', evaluate context (withoutSplices expression) = .ok amount' ∧
          amount'.value = amount.value) ∧
    (∀ expression amount, evaluate .dryRun expression = .ok amount →
      Text.isAllBlank expression.toList = false →
        ∃ e : Expr, tokenize (withoutSplices expression) = .ok e.tokens) ∧
    (∀ formula compiled, compile formula = .ok compiled →
      ∃ e : Expr, tokenize (withoutSplices compiled.template) = .ok e.tokens) := by
  refine ⟨fun context expression amount hplaces h => ?_,
    fun expression amount => exists_tokens_of_dryRun, fun formula compiled h => ?_⟩
  · obtain ⟨tokens, -, a', htokens, -, ha', hvalue⟩ := exists_evaluateTokens hplaces h
    obtain ⟨m, hrun, -⟩ := bind_eq_ok.1 ha'
    -- none of the stars that are left is a splice now
    have htag : tagSplices ((tagSplices tokens).filter (· ≠ .splice)) =
        (tagSplices tokens).filter (· ≠ .splice) := tagSplicesAfter_of_run hrun
    refine ⟨{ value := amount.value, breakdown := a'.breakdown }, ?_, rfl⟩
    rw [evaluate, tokenize_withoutSplices htokens]
    show (evaluateTokens context (tagSplices _) >>= _) = _
    rw [htag, ha', ok_bind, hvalue]
    rfl
  · obtain ⟨-, -, -, -, -, amount, hdry⟩ := exists_parts_of_compile h
    exact exists_tokens_of_dryRun hdry (isAllBlank_of_compile h)

/-- The place of one die that came up four. -/
def Context.ofDie : Context where
  amount? index := [{ value := .int 4, breakdown := "4" }][index]?
  dry := false

/-- Splices in a call: of a place, twice, of a parenthesis, and after an operator. -/
theorem evaluate_withoutSplices_inCall :
    (evaluate .ofDie "max(**__G0__, *(2)) * *3").toOption.map Amount.value = some (.int 12) ∧
      (evaluate .ofDie "max(__G0__, (2)) * 3").toOption.map Amount.value = some (.int 12) := by
  have hspliced : (evaluate .ofDie "max(**__G0__, *(2)) * *3").toOption.map Amount.value =
      some (.int 12) := by decide +kernel
  have htext : withoutSplices "max(**__G0__, *(2)) * *3" = "max(__G0__, (2)) * 3" := by decide +kernel
  obtain ⟨amount, hamount, hvalue⟩ := Option.map_eq_some_iff.1 hspliced
  have hsingle : ∀ n a, Context.ofDie.amount? n = some a → a.IsSingle :=
    fun n a h => List.mem_singleton.1 (List.mem_of_getElem? h) ▸ rfl
  obtain ⟨amount', hamount', heq⟩ := evaluate_withoutSplices.1 .ofDie _ amount
    (unexpanded_of_isSingle hsingle _) (toOption_eq_some.1 hamount)
  rw [htext] at hamount'
  refine ⟨hspliced, ?_⟩
  rw [hamount', ← hvalue, ← heq]
  rfl

end RollTray.Formula
