import Mathlib.Data.List.Induction
import RollTray.Proofs.Formula.Acceptance
import RollTray.Proofs.Formula.Simulation

/-!
# Arguments of calls

A run over tokens is a run over their front and then one over their back (`run_append`), and only the amounts
of the places among them matter to it (`AgreesOn`).

Behind the parenthesis of a call and behind each of its commas the machine is where an argument begins
(`atArgument_front`): no splice waits there (`Poised`), and no operator on top.
-/

namespace RollTray.Formula

/-! ## Runs in parts -/

section

variable {context context' : Context} {m m' : Machine}

/-- What follows a token matters to a name alone. -/
theorem step_next {token : Token} {next next' : Option Token}
    (h : token.isName = true → (next = some .opening ↔ next' = some .opening)) :
    m.step context token next = m.step context token next' := by
  cases token with
  | name letters =>
    have hiff := h rfl
    have hread : m.read context (.name letters) next = m.read context (.name letters) next' := by
      unfold Machine.read
      simp only [hiff]
    rw [Machine.step, Machine.step, hread]
  | _ => rfl

/-- A run is one of the front and then one of the back, unless a name is cut off from its parenthesis. -/
theorem run_append {front back : List Token}
    (h : ∀ last ∈ front.getLast?, last.isName = true → back.head? ≠ some .opening) :
    m.run context (front ++ back) = m.run context front >>= fun m' => m'.run context back := by
  induction front generalizing m with
  | nil => rfl
  | cons token front ih =>
    rw [List.cons_append, Machine.run, Machine.run, bind_assoc]
    cases front with
    | nil =>
      have hstep : m.step context token ([] ++ back).head? = m.step context token [].head? := by
        refine step_next fun hname => iff_of_false (h token rfl hname) ?_
        simp
      rw [hstep]
      exact bind_congr fun m' => rfl
    | cons token' front =>
      rw [List.cons_append, List.head?_cons, List.head?_cons]
      refine bind_congr fun m' => ih fun last hlast => h last ?_
      rwa [List.getLast?_cons_cons]

/-- Two contexts give the same amounts to the places among some tokens. -/
structure Context.AgreesOn (context context' : Context) (tokens : List Token) : Prop where
  dry : context'.dry = context.dry
  place : ∀ index, .place index ∈ tokens → context'.place index = context.place index

theorem Context.AgreesOn.mono {tokens tokens' : List Token} (h : context.AgreesOn context' tokens)
    (hmem : ∀ index, .place index ∈ tokens' → .place index ∈ tokens) :
    context.AgreesOn context' tokens' :=
  ⟨h.dry, fun index hindex => h.place index (hmem index hindex)⟩

theorem step_congr {token : Token} (h : context.AgreesOn context' [token]) (next : Option Token) :
    m.step context' token next = m.step context token next := by
  have hread : m.read context' token next = m.read context token next := by
    cases token with
    | place index => rw [Machine.read, Machine.read, h.place index (List.mem_singleton_self _)]
    | comma => rw [Machine.read, Machine.read, h.dry]
    | closing => rw [Machine.read, Machine.read, Machine.close, Machine.close, h.dry]
    | operator op => rw [Machine.read, Machine.read, h.dry]
    | _ => rfl
  rw [Machine.step, Machine.step, hread]

theorem run_congr {tokens : List Token} (h : context.AgreesOn context' tokens) :
    m.run context' tokens = m.run context tokens := by
  induction tokens generalizing m with
  | nil => rfl
  | cons token tokens ih =>
    have hfirst : context.AgreesOn context' [token] := h.mono fun index hindex => by
      rw [← List.mem_singleton.1 hindex]
      exact List.mem_cons_self ..
    rw [Machine.run, Machine.run, step_congr hfirst]
    exact bind_congr fun m' => ih (h.mono fun _ => List.mem_cons_of_mem _)

/-- What is left to be done with a machine. -/
def Machine.complete (context : Context) (m : Machine) (tokens : List Token) : Except Fault Amount := do
  let m ← m.run context tokens
  m.finish context

theorem complete_congr {tokens : List Token} (h : context.AgreesOn context' tokens) :
    m.complete context' tokens = m.complete context tokens := by
  have hfinish : ∀ m : Machine, m.finish context' = m.finish context := fun m => by
    rw [Machine.finish, Machine.finish, h.dry]
  rw [Machine.complete, Machine.complete, run_congr h]
  exact bind_congr hfinish

theorem evaluateTokens_congr {tokens : List Token} (h : context.AgreesOn context' tokens) :
    evaluateTokens context' tokens = evaluateTokens context tokens :=
  complete_congr h

theorem complete_append {front back : List Token}
    (h : ∀ last ∈ front.getLast?, last.isName = true → back.head? ≠ some .opening) :
    m.complete context (front ++ back) =
      m.run context front >>= fun m' => m'.complete context back := by
  rw [Machine.complete, run_append h, bind_assoc]
  rfl

end

/-! ## Arguments -/

/-- How many parentheses are open after some tokens; none if they close more than there are. -/
def depthAfter? : Nat → List Token → Option Nat
  | depth, [] => some depth
  | depth, .opening :: tokens => depthAfter? (depth + 1) tokens
  | 0, .closing :: _ => none
  | depth + 1, .closing :: tokens => depthAfter? depth tokens
  | depth, _ :: tokens => depthAfter? depth tokens

/-- Tokens that close all parentheses that they open, and no other ones. -/
def IsBalanced (tokens : List Token) : Prop :=
  depthAfter? 0 tokens = some 0

/-- A call of a function with arguments of such tokens. -/
def callTokens (f : Function) (arguments : List (List Token)) : List Token :=
  .name f.name :: .opening :: ([Token.comma].intercalate arguments ++ [.closing])

section

variable {context : Context} {m m' : Machine} {token : Token} {next : Option Token}

/-- What a token does to the parentheses that are open and to a splice that waits. -/
theorem fields_of_step (h : m.step context token next = .ok m') :
    m'.previous = some token ∧
      m'.calls = (if token = .opening then m.previous.any Token.isName :: m.calls
        else if token = .closing then m.calls.tail else m.calls) ∧
      m'.splicing = (if token = .splice then true
        else if token.isName || token.followsOperand then m.splicing else false) := by
  obtain ⟨-, -, m₁, hread, rfl⟩ := exists_read_of_step h
  refine ⟨rfl, ?_⟩
  cases token with
  | closing =>
    obtain ⟨-, -, -, hsplicing, ⟨hcalls, -⟩ | ⟨hcalls, -⟩⟩ := exists_of_close hread
    · exact ⟨by rw [hcalls]; rfl, hsplicing⟩
    · exact ⟨by rw [hcalls]; rfl, hsplicing⟩
  | place index =>
    obtain ⟨amount, -, hread⟩ := bind_eq_ok.1 hread
    cases hread
    exact ⟨rfl, rfl⟩
  | name letters =>
    obtain ⟨f, -, -, rfl⟩ := read_name_eq_ok.1 hread
    exact ⟨rfl, rfl⟩
  | comma =>
    obtain ⟨values, waiting, -, -, rfl⟩ := read_comma_eq_ok.1 hread
    exact ⟨rfl, rfl⟩
  | operator op =>
    obtain ⟨p, -, hread⟩ := bind_eq_ok.1 hread
    cases hread
    exact ⟨rfl, rfl⟩
  | _ =>
    cases hread
    exact ⟨rfl, rfl⟩

theorem previous_of_run {tokens : List Token} (hne : tokens ≠ []) (h : m.run context tokens = .ok m') :
    m'.previous = tokens.getLast? := by
  induction tokens generalizing m with
  | nil => exact absurd rfl hne
  | cons token tokens ih =>
    obtain ⟨m₁, hstep, hrun⟩ := bind_eq_ok.1 h
    cases tokens with
    | nil =>
      cases hrun
      exact (fields_of_step hstep).1
    | cons token' tokens => exact ih (List.cons_ne_nil _ _) hrun

/-- A splice waits for what it spreads only behind its star or behind the name of a function. -/
def Machine.Poised (m : Machine) : Prop :=
  m.splicing = true → m.previous.any Token.endsOperand = false ∧ m.previous ≠ some .opening

theorem Machine.Poised.step (hm : m.Poised) (h : m.step context token next = .ok m') : m'.Poised := by
  obtain ⟨hlast, -, hsplicing⟩ := fields_of_step h
  obtain ⟨-, hfollows, -⟩ := exists_read_of_step h
  -- Where a token follows an operand, or an empty call ends, no splice waits.
  have hsettled : token.followsOperand = true → m.splicing ≠ true := by
    intro hf hs
    obtain ⟨hended, hopening⟩ := hm hs
    rcases hfollows hf with hended' | ⟨-, hopening', -⟩
    · rw [hended] at hended'
      cases hended'
    · exact hopening hopening'
  intro hs
  rw [hlast, Option.any_some]
  rw [hsplicing] at hs
  cases token with
  | splice => exact ⟨rfl, nofun⟩
  | name letters => exact ⟨rfl, nofun⟩
  | closing => exact absurd hs (hsettled rfl)
  | comma => exact absurd hs (hsettled rfl)
  | operator op => exact absurd hs (hsettled rfl)
  | _ => cases hs

theorem Machine.Poised.run {tokens : List Token} (hm : m.Poised) (h : m.run context tokens = .ok m') :
    m'.Poised := by
  induction tokens generalizing m with
  | nil =>
    cases h
    exact hm
  | cons token tokens ih =>
    obtain ⟨m₁, hstep, h⟩ := bind_eq_ok.1 h
    exact ih (hm.step hstep) h

/-- Tokens leave the parentheses as they were open before, below those that they open themselves. -/
theorem exists_calls_of_run {tokens : List Token} {depth depth' : Nat}
    (hdepth : depthAfter? depth tokens = some depth') {inner outer : List Bool}
    (hcalls : m.calls = inner ++ outer) (hinner : inner.length = depth)
    (h : m.run context tokens = .ok m') :
    ∃ inner', m'.calls = inner' ++ outer ∧ inner'.length = depth' := by
  induction tokens generalizing m depth inner with
  | nil =>
    cases h
    cases hdepth
    exact ⟨inner, hcalls, hinner⟩
  | cons token tokens ih =>
    obtain ⟨m₁, hstep, hrun⟩ := bind_eq_ok.1 h
    obtain ⟨-, hcalls₁, -⟩ := fields_of_step hstep
    rw [hcalls] at hcalls₁
    cases token with
    | opening =>
      have hopened : m₁.calls = (m.previous.any Token.isName :: inner) ++ outer := hcalls₁
      exact ih hdepth hopened (congrArg (· + 1) hinner) hrun
    | closing =>
      cases inner with
      | nil =>
        subst hinner
        cases hdepth
      | cons isCall inner =>
        subst hinner
        exact ih hdepth hcalls₁ rfl hrun
    | _ => exact ih hdepth hcalls₁ hinner hrun

theorem calls_of_run {tokens : List Token} (hbalanced : IsBalanced tokens)
    (h : m.run context tokens = .ok m') : m'.calls = m.calls := by
  obtain ⟨inner, hcalls, hinner⟩ := exists_calls_of_run hbalanced (m.calls.nil_append).symm rfl h
  rw [hcalls, List.length_eq_zero_iff.1 hinner, List.nil_append]

/-- Tokens that end in an open parenthesis are not balanced. -/
theorem depthAfter?_append_opening {depth : Nat} (tokens : List Token) :
    depthAfter? depth (tokens ++ [.opening]) ≠ some 0 := by
  induction tokens generalizing depth with
  | nil => exact nofun
  | cons token tokens ih =>
    cases token with
    | closing =>
      cases depth with
      | zero => exact nofun
      | succ depth => exact ih
    | _ => exact ih

/-- Where an argument of a call begins. -/
structure Machine.AtArgument (m : Machine) : Prop where
  call : m.calls.head? = some true
  splicing : m.splicing = false
  stops : Stops 0 m.waiting
  previous : m.previous = some .opening ∨ m.previous = some .comma

theorem Machine.AtArgument.poised (hm : m.AtArgument) : m.Poised := by
  intro hs
  cases hm.splicing.symm.trans hs

theorem Machine.AtArgument.not_ended (hm : m.AtArgument) :
    m.previous.any Token.endsOperand = false := by
  rcases hm.previous with h | h <;> rw [h] <;> rfl

/-- No operator waits on top after a reduction of all. -/
theorem stops_of_reduceAll {dry : Bool} {values values' : List Amount} {waiting waiting' : List Waiting}
    (h : reduceAll dry values waiting = .ok (values', waiting')) : Stops 0 waiting' := by
  rintro op rest rfl
  have hhead := List.head?_dropWhile_not (Waiting.isTaken fun _ => true) waiting
  rw [← waiting_of_reduce h, List.head?_cons] at hhead
  cases hhead

theorem reduceAll_of_stops {dry : Bool} {waiting : List Waiting} (h : Stops 0 waiting)
    (values : List Amount) : reduceAll dry values waiting = .ok (values, waiting) :=
  reduce_of_stops h (fun _ _ => Nat.zero_le _) values

theorem atArgument_of_comma (hcall : m.calls.head? = some true) (hm : m.Poised)
    (h : m.step context .comma next = .ok m') :
    m'.AtArgument ∧ m'.previous = some .comma := by
  obtain ⟨hlast, hcalls, hsplicing⟩ := fields_of_step h
  obtain ⟨-, hfollows, m₁, hread, rfl⟩ := exists_read_of_step h
  have hended : m.previous.any Token.endsOperand = true := by
    rcases hfollows rfl with hended | ⟨hclosing, -⟩
    · exact hended
    · cases hclosing
  have hsettled : m.splicing = false := by
    rw [Bool.eq_false_iff]
    intro hs
    rw [(hm hs).1] at hended
    cases hended
  obtain ⟨⟨values, waiting⟩, hreduce, hread⟩ := bind_eq_ok.1 hread
  dsimp only at hread
  rw [if_pos hcall] at hread
  cases hread
  exact ⟨⟨hcall, hsettled, stops_of_reduceAll hreduce, .inr rfl⟩, rfl⟩

/-- After an argument and a comma another argument begins. -/
theorem Machine.AtArgument.run_comma {argument : List Token} (hm : m.AtArgument)
    (hargument : IsBalanced argument) (h : m.run context (argument ++ [.comma]) = .ok m') :
    m'.AtArgument ∧ m'.previous = some .comma := by
  rw [run_append (by simp)] at h
  obtain ⟨m₁, hrun, h⟩ := bind_eq_ok.1 h
  obtain ⟨m₂, hstep, h⟩ := bind_eq_ok.1 h
  cases h
  exact atArgument_of_comma (calls_of_run hargument hrun ▸ hm.call) (hm.poised.run hrun) hstep

/-- Behind the parenthesis of a call its first argument begins. -/
theorem atArgument_of_opening {tokens : List Token} {f : Function}
    (h : m.run context (tokens ++ [.name f.name, .opening]) = .ok m') :
    m'.AtArgument ∧ m'.previous = some .opening := by
  rw [run_append (by simp)] at h
  obtain ⟨m₁, -, h⟩ := bind_eq_ok.1 h
  obtain ⟨m₂, hname, h⟩ := bind_eq_ok.1 h
  obtain ⟨m₃, hopening, h⟩ := bind_eq_ok.1 h
  cases h
  obtain ⟨hlast, -⟩ := fields_of_step hname
  obtain ⟨-, -, m₄, hread, rfl⟩ := exists_read_of_step hopening
  cases hread
  exact ⟨⟨by rw [hlast]; rfl, rfl, stops_parenthesis _ _ _, .inl rfl⟩, rfl⟩

/-! ## Tokens around an argument -/

variable {f : Function} {before after : List Token} {left right : List (List Token)}

/-- All tokens in front of an argument: those in front of its call, and other arguments with commas. -/
def frontTokens (before : List Token) (f : Function) (left : List (List Token)) : List Token :=
  before ++ [.name f.name, .opening] ++ left.flatMap (· ++ [.comma])

/-- All tokens behind an argument: other arguments with commas, and those behind its call. -/
def backTokens (right : List (List Token)) (after : List Token) : List Token :=
  right.flatMap (Token.comma :: ·) ++ .closing :: after

theorem intercalate_append_cons (left right : List (List Token)) (argument : List Token) :
    [Token.comma].intercalate (left ++ argument :: right) =
      left.flatMap (· ++ [.comma]) ++ (argument ++ right.flatMap (Token.comma :: ·)) := by
  induction left with
  | nil =>
    induction right generalizing argument with
    | nil => simp
    | cons argument' right ih =>
      rw [List.nil_append, List.intercalate_cons_cons, ← List.nil_append (argument' :: right), ih]
      simp
  | cons first left ih =>
    rw [List.cons_append, List.intercalate_cons_of_ne_nil (by simp), ih]
    simp

theorem callTokens_eq (argument : List Token) :
    before ++ callTokens f (left ++ argument :: right) ++ after =
      frontTokens before f left ++ (argument ++ backTokens right after) := by
  rw [callTokens, intercalate_append_cons, frontTokens, backTokens]
  simp

theorem frontTokens_concat (argument : List Token) :
    frontTokens before f (left ++ [argument]) = frontTokens before f left ++ (argument ++ [.comma]) := by
  simp [frontTokens]

theorem run_frontTokens (back : List Token) : m.run context (frontTokens before f left ++ back) =
    m.run context (frontTokens before f left) >>= fun m' => m'.run context back := by
  refine run_append fun last hlast hname => ?_
  rcases List.eq_nil_or_concat left with rfl | ⟨left, argument, rfl⟩
  · rw [frontTokens, List.flatMap_nil, List.append_nil, List.getLast?_append] at hlast
    cases hlast
    cases hname
  · rw [List.concat_eq_append, frontTokens_concat, ← List.append_assoc, List.getLast?_concat] at hlast
    cases hlast
    cases hname

theorem evaluateTokens_front (back : List Token) :
    evaluateTokens context (frontTokens before f left ++ back) =
      Machine.run context {} (frontTokens before f left) >>= fun m => m.complete context back := by
  rw [evaluateTokens, run_frontTokens, bind_assoc]
  rfl

/-- In front of an argument the machine is where one begins. -/
theorem atArgument_front (hleft : ∀ argument ∈ left, IsBalanced argument)
    (h : m.run context (frontTokens before f left) = .ok m') :
    m'.AtArgument ∧ (left = [] → m'.previous = some .opening) ∧
      (left ≠ [] → m'.previous = some .comma) := by
  induction left using List.reverseRecOn generalizing m' with
  | nil =>
    rw [frontTokens, List.flatMap_nil, List.append_nil] at h
    obtain ⟨hm, hlast⟩ := atArgument_of_opening h
    exact ⟨hm, fun _ => hlast, fun hne => absurd rfl hne⟩
  | append_singleton left argument ih =>
    obtain ⟨hleft, hargument⟩ := List.forall_mem_append.1 hleft
    rw [frontTokens_concat, run_frontTokens] at h
    obtain ⟨m₁, hrun, h⟩ := bind_eq_ok.1 h
    obtain ⟨hm, hlast⟩ := (ih hleft hrun).1.run_comma (hargument _ (List.mem_singleton_self _)) h
    exact ⟨hm, fun hnil => absurd hnil (by simp), fun _ => hlast⟩

theorem exists_backTokens (right : List (List Token)) (after : List Token) :
    ∃ token rest, backTokens right after = token :: rest ∧ (token = .comma ∨ token = .closing) := by
  cases right with
  | nil => exact ⟨_, _, rfl, .inr rfl⟩
  | cons argument right => exact ⟨_, _, rfl, .inl rfl⟩

theorem mem_frontTokens {index : String} (h : .place index ∈ frontTokens before f left) :
    .place index ∈ before ∨ .place index ∈ left.flatten := by
  simpa [frontTokens] using h

theorem mem_backTokens {index : String} (h : .place index ∈ backTokens right after) :
    .place index ∈ right.flatten ∨ .place index ∈ after := by
  simpa [backTokens] using h

theorem mem_callTokens {index : String} {arguments : List (List Token)}
    (h : .place index ∈ callTokens f arguments) : .place index ∈ arguments.flatten := by
  cases arguments with
  | nil => simp [callTokens] at h
  | cons argument arguments =>
    rw [callTokens, ← List.nil_append (argument :: arguments), intercalate_append_cons] at h
    simpa using h

end

end RollTray.Formula
