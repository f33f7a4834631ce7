import RollTray.Proofs.Formula.Arguments
import RollTray.Proofs.Formula.Auditing
import RollTray.Proofs.Formula.Refusals

/-!
# What the machine's stacks hold

At every moment of an evaluation the parentheses that are open behind the tokens read so far
(`openBehind`) are the ones that wait, each over the function whose name stands before it if any does, and
they are those that the other two stacks have entries for (`Machine.Matches`). So whatever the machine takes
from a stack without asking is there when a parenthesis closes (`Machine.MayClose`), and an evaluation fails
with an error of the expression or with a number that is too large or too long (`evaluate_matched`).
-/

namespace RollTray.Formula

/-! ## Open parentheses -/

/-- The function that a token names. -/
def Token.function? : Token → Option Function
  | .name letters => Function.ofName? letters
  | _ => none

/-- What a token makes of the parentheses that are open before it, the innermost first. For each of them
stands the function that is named right before it; none if it only groups. -/
def Token.alter (previous : Option Token) (opened : List (Option Function)) : Token → List (Option Function)
  | .opening => previous.bind Token.function? :: opened
  | .closing => opened.tail
  | _ => opened

/-- The parentheses that are open behind some tokens, if these are open before them. -/
def openAfter (previous : Option Token) (opened : List (Option Function)) :
    List Token → List (Option Function)
  | [] => opened
  | token :: tokens => openAfter (some token) (token.alter previous opened) tokens

/-- The parentheses that are open behind the tokens of an expression's beginning. -/
def openBehind (tokens : List Token) : List (Option Function) :=
  openAfter none [] tokens

/-- The parentheses that wait, each with the function right below it. -/
def parentheses : List Waiting → List (Option Function)
  | [] => []
  | .parenthesis _ :: .function f :: waiting => some f :: parentheses waiting
  | .parenthesis _ :: waiting => none :: parentheses waiting
  | _ :: waiting => parentheses waiting

theorem openAfter_concat (previous : Option Token) (opened : List (Option Function)) (tokens : List Token)
    (token : Token) : openAfter previous opened (tokens ++ [token]) =
      token.alter (tokens.getLast?.or previous) (openAfter previous opened tokens) := by
  induction tokens generalizing previous opened with
  | nil => rfl
  | cons first tokens ih =>
    rw [List.cons_append, openAfter, ih, openAfter, List.getLast?_cons]
    cases tokens.getLast? <;> rfl

theorem openBehind_concat (tokens : List Token) (token : Token) :
    openBehind (tokens ++ [token]) = token.alter tokens.getLast? (openBehind tokens) := by
  rw [openBehind, openAfter_concat, Option.or_none]
  rfl

/-- Operators on top leave the parentheses as they are. -/
theorem parentheses_dropWhile (taken : Operator → Bool) (waiting : List Waiting) :
    parentheses (waiting.dropWhile (Waiting.isTaken taken)) = parentheses waiting := by
  induction waiting with
  | nil => rfl
  | cons w waiting ih =>
    cases w with
    | operator op =>
      rw [List.dropWhile_cons]
      split
      · exact ih
      · rfl
    | _ => rfl

section

variable {splice : Bool} {waiting : List Waiting} {calls : List Bool} {bases : List Nat}

theorem Nested.parentheses_cons (h : Nested waiting calls bases) (splice : Bool) :
    parentheses (.parenthesis splice :: waiting) = none :: parentheses waiting := by
  cases h <;> rfl

/-- Nested parentheses have their entries on the other two stacks. -/
theorem Nested.entries (h : Nested waiting calls bases) :
    calls = (parentheses waiting).map Option.isSome ∧ bases.length = (parentheses waiting).length := by
  induction h with
  | empty => exact ⟨rfl, rfl⟩
  | operator _ ih => exact ih
  | group below ih =>
    rw [below.parentheses_cons, List.map_cons, ← ih.1, List.length_cons, List.length_cons, ih.2]
    exact ⟨rfl, rfl⟩
  | call _ ih =>
    rw [parentheses, List.map_cons, ← ih.1, List.length_cons, List.length_cons, ih.2]
    exact ⟨rfl, rfl⟩

end

/-! ## Moments of an evaluation -/

/-- With these tokens to read, the machine has read a front of them and is left with the others. -/
inductive Machine.Reaches (context : Context) (tokens : List Token) :
    List Token → Machine → List Token → Prop
  | start : Reaches context tokens [] {} tokens
  | step {front rest : List Token} {m m' : Machine} {token : Token}
      (h : Reaches context tokens front m (token :: rest))
      (hstep : m.step context token rest.head? = .ok m') :
      Reaches context tokens (front ++ [token]) m' rest

/-- The stacks hold what is open behind the tokens that were read. -/
structure Machine.Matches (front : List Token) (m : Machine) : Prop where
  waiting : parentheses m.waiting = openBehind front
  calls : m.calls = (openBehind front).map Option.isSome
  bases : m.bases.length = (openBehind front).length

/-- A parenthesis is on top with its entries on the other two stacks, and if it is that of a call, the
function is right below it. -/
inductive Encloses : List Waiting → List Bool → List Nat → Prop
  | group {splice : Bool} {base : Nat} {waiting : List Waiting} {calls : List Bool} {bases : List Nat} :
      Encloses (.parenthesis splice :: waiting) (false :: calls) (base :: bases)
  | call {splice : Bool} {f : Function} {base : Nat} {waiting : List Waiting} {calls : List Bool}
      {bases : List Nat} :
      Encloses (.parenthesis splice :: .function f :: waiting) (true :: calls) (base :: bases)

/-- What the machine takes from its stacks unasked when it closes a parenthesis is there: the entry of the
parenthesis that was opened just before, and all of the innermost one when the operators on top have been
applied and something waits. -/
structure Machine.MayClose (context : Context) (m : Machine) : Prop where
  opened : m.previous = some .opening → m.calls ≠ []
  closed : ∀ values waiting, reduceAll context.dry m.values m.waiting = .ok (values, waiting) →
    waiting ≠ [] → Encloses waiting m.calls m.bases

section

variable {context : Context} {m m' : Machine} {token : Token} {tokens front rest : List Token}
  {next : Option Token}

/-- A name that was read last waits on top as its function. -/
def Machine.Names (m : Machine) : Prop :=
  ∀ letters, m.previous = some (.name letters) →
    ∃ f waiting, m.waiting = .function f :: waiting ∧ Function.ofName? letters = some f

theorem names_of_step (h : m.step context token next = .ok m') : m'.Names := by
  intro letters hlast
  rw [(fields_of_step h).1] at hlast
  cases hlast
  obtain ⟨-, -, m₁, hread, rfl⟩ := exists_read_of_step h
  obtain ⟨f, hf, -, rfl⟩ := read_name_eq_ok.1 hread
  exact ⟨f, m.waiting, rfl, hf⟩

theorem Machine.InOrder.nested (hm : m.InOrder next) (hname : m.previous.any Token.isName = false) :
    Nested m.waiting m.calls m.bases := by
  unfold Machine.InOrder at hm
  rwa [hname, if_neg Bool.false_ne_true] at hm

/-- A parenthesis is opened over the function that was just named, if any. -/
theorem parentheses_opening (hm : m.InOrder next) (hnames : m.Names) (splice : Bool) :
    parentheses (.parenthesis splice :: m.waiting) =
      m.previous.bind Token.function? :: parentheses m.waiting := by
  cases hlast : m.previous with
  | none => exact (hm.nested (by rw [hlast]; rfl)).parentheses_cons splice
  | some last =>
    cases last with
    | name letters =>
      obtain ⟨f, waiting, hwaiting, hf⟩ := hnames letters hlast
      rw [hwaiting]
      exact congrArg (· :: parentheses waiting) hf.symm
    | _ => exact (hm.nested (by rw [hlast]; rfl)).parentheses_cons splice

/-- A parenthesis is closed that was on top. -/
theorem parentheses_closing (hm' : Nested m'.waiting m'.calls m'.bases) (h : m.close context = .ok m') :
    parentheses m'.waiting = (parentheses m.waiting).tail := by
  obtain ⟨splice, below, hbelow, -, hcall⟩ := exists_of_close h
  rw [← parentheses_dropWhile (fun _ => true) m.waiting, hbelow]
  obtain ⟨-, rfl⟩ | ⟨-, f, rfl⟩ := hcall
  · rw [hm'.parentheses_cons, List.tail_cons]
  · rfl

/-- Each token alters the parentheses that wait as it does those that are open. -/
theorem parentheses_step (hm : m.InOrder (some token)) (hnames : m.Names)
    (h : m.step context token next = .ok m') (hm' : m'.InOrder next) :
    parentheses m'.waiting = token.alter m.previous (parentheses m.waiting) := by
  have hlast := (fields_of_step h).1
  obtain ⟨-, -, m₁, hread, rfl⟩ := exists_read_of_step h
  cases token with
  | opening =>
    cases hread
    exact parentheses_opening hm hnames m.splicing
  | closing =>
    have hnested : Nested m₁.waiting m₁.calls m₁.bases := hm'.nested rfl
    have hclosed : parentheses m₁.waiting = _ := parentheses_closing hnested hread
    exact hclosed
  | name letters =>
    obtain ⟨f, -, -, rfl⟩ := read_name_eq_ok.1 hread
    rfl
  | comma =>
    obtain ⟨values, waiting, hreduce, -, rfl⟩ := read_comma_eq_ok.1 hread
    have hwaiting := waiting_of_reduce hreduce
    exact hwaiting ▸ parentheses_dropWhile _ m.waiting
  | operator op =>
    obtain ⟨⟨values, waiting⟩, hreduce, hread⟩ := bind_eq_ok.1 hread
    have hwaiting := waiting_of_reduce hreduce
    cases hread
    exact hwaiting ▸ parentheses_dropWhile _ m.waiting
  | place index =>
    obtain ⟨amount, -, hread⟩ := bind_eq_ok.1 hread
    cases hread
    rfl
  | _ =>
    cases hread
    rfl

/-- What holds whenever a token has been read. -/
structure Machine.Keeps (front : List Token) (m : Machine) (next : Option Token) : Prop where
  previous : m.previous = front.getLast?
  names : m.Names
  inOrder : m.InOrder next
  waiting : parentheses m.waiting = openBehind front

theorem keeps_of_reaches (h : Machine.Reaches context tokens front m rest) : m.Keeps front rest.head? := by
  induction h with
  | start => exact ⟨rfl, nofun, Nested.empty, rfl⟩
  | @step front rest m m' token _ hstep ih =>
    have hm' : m'.InOrder rest.head? := by
      have hends : Ends _ _ (m.step context _ rest.head?) := ih.inOrder.step rest.head?
      rw [hstep] at hends
      cases hends
      assumption
    refine ⟨?_, names_of_step hstep, hm', ?_⟩
    · rw [(fields_of_step hstep).1, List.getLast?_concat]
    · rw [parentheses_step ih.inOrder ih.names hstep hm', ih.previous, ih.waiting, openBehind_concat]

/-- A reduction of all leaves a parenthesis on top, if anything. -/
theorem Nested.encloses_of_reduceAll (h : Nested m.waiting m.calls m.bases) {values : List Amount}
    {waiting : List Waiting} (hreduce : reduceAll context.dry m.values m.waiting = .ok (values, waiting))
    (hne : waiting ≠ []) : Encloses waiting m.calls m.bases := by
  have hstops := stops_of_reduceAll hreduce
  obtain ⟨-, hnested⟩ : _ ∧ Nested waiting m.calls m.bases := by
    have hends : Ends (Disturbs []) _ (reduceAll context.dry m.values m.waiting) := h.reduce ..
    rw [hreduce] at hends
    cases hends
    assumption
  generalize m.calls = calls, m.bases = bases at hnested
  cases hnested with
  | empty => exact absurd rfl hne
  | operator below => exact absurd (hstops _ _ rfl) (Nat.not_lt_zero _)
  | group below => exact .group
  | call below => exact .call

theorem Machine.Reaches.append_eq (h : Machine.Reaches context tokens front m rest) :
    front ++ rest = tokens := by
  induction h with
  | start => rfl
  | step _ _ ih => rw [List.append_assoc, List.singleton_append, ih]

/-- Also where a function waits for its parenthesis. -/
theorem Machine.InOrder.entries (hm : m.InOrder next) :
    m.calls = (parentheses m.waiting).map Option.isSome ∧
      m.bases.length = (parentheses m.waiting).length := by
  unfold Machine.InOrder at hm
  split at hm
  · obtain ⟨-, f, waiting, hwaiting, hnested⟩ := hm
    rw [hwaiting]
    exact hnested.entries
  · exact hm.entries

theorem matches_of_reaches (h : Machine.Reaches context tokens front m rest) : m.Matches front := by
  obtain ⟨-, -, hm, hwaiting⟩ := keeps_of_reaches h
  obtain ⟨hcalls, hbases⟩ := hm.entries
  rw [hwaiting] at hcalls hbases
  exact ⟨hwaiting, hcalls, hbases⟩

theorem openBehind_ne_nil (h : front.getLast? = some .opening) : openBehind front ≠ [] := by
  obtain ⟨init, rfl⟩ := List.getLast?_eq_some_iff.1 h
  rw [openBehind_concat]
  exact List.cons_ne_nil _ _

theorem mayClose_of_reaches (h : Machine.Reaches context tokens front m rest)
    (hnext : rest.head? = some .closing) : m.MayClose context := by
  obtain ⟨hprevious, -, hm, -⟩ := keeps_of_reaches h
  constructor
  · intro hopening hcalls
    rw [(matches_of_reaches h).calls, List.map_eq_nil_iff] at hcalls
    exact openBehind_ne_nil (hprevious ▸ hopening) hcalls
  · -- a name would have a parenthesis opened behind it
    have hname : m.previous.any Token.isName = false := by
      refine Bool.eq_false_iff.2 fun hname => ?_
      unfold Machine.InOrder at hm
      rw [if_pos hname, hnext] at hm
      cases hm.1
    intro values waiting
    exact (hm.nested hname).encloses_of_reduceAll

end

/-! ## Whole expressions -/

/-- The index of a place in an expression cannot be read only if it has too many digits. -/
theorem Disturbs.tooLong {expression : String} {tokens : List Token}
    (htokens : tokenize expression = .ok tokens) {fault : Fault} (h : Disturbs (tagSplices tokens) fault) :
    (∃ reason, fault = .evaluation reason) ∨ fault = .overflow ∨
      fault = .unreadable ∧ ∃ index, .place index ∈ tokens ∧ integerDigitLimit < index.length := by
  cases h with
  | evaluation reason => exact .inl ⟨reason, rfl⟩
  | overflow => exact .inr (.inl rfl)
  | @index index hmem hunreadable =>
    have hmem : .place index ∈ tokens := mem_of_mem_tagSplices nofun hmem
    refine .inr (.inr ⟨rfl, index, hmem, ?_⟩)
    obtain ⟨taken, more, hlex⟩ := exists_isLexeme_of_readsAs (readsAs_of_scan htokens) _ hmem
    cases hlex with
    | place hg hne hindex =>
      rw [readInt_of_digits hne hindex] at hunreadable
      rw [String.length_ofList]
      by_contra hlong
      rw [if_neg hlong] at hunreadable
      cases hunreadable
    | symbol h =>
      unfold symbol? at h
      split at h <;> cases h

/-- While an expression is evaluated the stacks hold what is open behind the tokens read so far, and what is
taken from them is there. So the evaluation ends, or fails with an error of the expression, with a number
that is too large or with an index that has too many digits. -/
theorem evaluate_matched (context : Context) (expression : String) :
    (∀ tokens, tokenize expression = .ok tokens → ∀ front m rest,
      Machine.Reaches context (tagSplices tokens) front m rest →
        front ++ rest = tagSplices tokens ∧ m.Matches front ∧
          (rest.head? = some .closing → m.MayClose context)) ∧
    Ends (fun fault => (∃ reason, fault = .evaluation reason) ∨ fault = .overflow ∨
        fault = .unreadable ∧ ∃ tokens index, tokenize expression = .ok tokens ∧
          .place index ∈ tokens ∧ integerDigitLimit < index.length)
      (fun _ => True) (evaluate context expression) := by
  refine ⟨fun tokens _ front m rest h =>
    ⟨h.append_eq, matches_of_reaches h, mayClose_of_reaches h⟩, ?_⟩
  cases h : evaluate context expression with
  | ok amount => exact .ok trivial
  | error fault =>
    refine .error ?_
    obtain hreason | ⟨tokens, htokens, h⟩ := disturbs_of_evaluate h
    · exact .inl hreason
    · refine (h.tooLong htokens).imp_right (Or.imp_right ?_)
      rintro ⟨rfl, index, hmem, hlong⟩
      exact ⟨rfl, tokens, index, htokens, hmem, hlong⟩

/-- A parenthesis about to be closed inside a call. -/
theorem evaluate_matched_inCall : ∃ m : Machine,
    Machine.Reaches .dryRun (tagSplices [.name "max", .opening, .opening, .number "2", .closing])
      [.name "max", .opening, .opening, .number "2"] m [.closing] ∧
    m.calls = [false, true] ∧ m.Matches [.name "max", .opening, .opening, .number "2"] ∧
    m.MayClose .dryRun := by
  have htokens : tokenize "max((2)" =
      .ok [.name "max", .opening, .opening, .number "2", .closing] :=
    toOption_eq_some.1 (by decide +kernel)
  have hreaches : ∃ m : Machine, m.calls = [false, true] ∧
      Machine.Reaches .dryRun (tagSplices [.name "max", .opening, .opening, .number "2", .closing])
        [.name "max", .opening, .opening, .number "2"] m [.closing] :=
    ⟨_, rfl, .step (.step (.step (.step .start rfl) rfl) rfl) rfl⟩
  obtain ⟨m, hcalls, hreaches⟩ := hreaches
  obtain ⟨-, hmatches, hclose⟩ := (evaluate_matched .dryRun "max((2)").1 _ htokens _ m _ hreaches
  exact ⟨m, hreaches, hcalls, hmatches, hclose rfl⟩

end RollTray.Formula
