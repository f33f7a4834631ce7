import RollTray.Proofs.Formula.Lexemes
import RollTray.Proofs.Formula.Refusals

/-!
# What a formula is read as

A formula that compiles is read as its dice terms and the tokens of its template (`reading`), and its
pieces alone say which (`reading_eq_some`, `Accepts`).

Between pieces that are not of one number or one name (`Apart`), white space changes nothing
(`accepts_insert`): the template has the same lexemes on both sides with and without it
(`readsAs_insert`). And if one piece ends an operand and the next one begins an operand, no formula
compiles that has them side by side (`not_accepts`), since no machine takes one operand right after
another (`not_run_of_operands`).
-/

namespace RollTray.Formula

/-! ## Templates -/

/-- A place is a lexeme, whatever stands after it. -/
theorem lexeme?_placeText (index : Nat) (cs : List Char) :
    lexeme? (placeText index ++ cs) = some (.place (indexText index), cs) := by
  refine lexeme?_eq_some.2 ⟨_, _, .place (.inl rfl) Nat.toDigits_ne_nil
    (fun c => isDigit_of_mem_toDigits), fun _ _ => rfl, ?_⟩
  simp [placeText]

theorem templateFrom_append (parts parts' : List Part) (index : Nat) :
    templateFrom index (parts ++ parts') =
      templateFrom index parts ++ templateFrom (index + termCount parts) parts' := by
  induction parts generalizing index with
  | nil => rfl
  | cons part parts ih =>
    cases part with
    | plain c => exact congrArg (c :: ·) (ih index)
    | place term =>
      have hcount : termCount (.place term :: parts) = 1 + termCount parts :=
        termCount_append [.place term] parts
      rw [List.cons_append, templateFrom, templateFrom, ih, hcount, Nat.add_assoc, List.append_assoc]

theorem templateFrom_plain_append (cs : List Char) (parts : List Part) (index : Nat) :
    templateFrom index (cs.map .plain ++ parts) = cs ++ templateFrom index parts := by
  induction cs with
  | nil => rfl
  | cons c cs ih => exact congrArg (c :: ·) ih

/-- A lexeme of a template is made of parts, where none goes on in the text after the template. -/
theorem IsLexeme.exists_plain {taken cs rest : List Char} {token : Token} {more : Char → Bool}
    (h : IsLexeme taken token more) (hplace : '_' ∉ taken.head?) {part : Part} {parts : List Part}
    {index : Nat}
    (hseam : ∀ c ∈ (templateFrom index (part :: parts)).getLast?, ∀ d ∈ cs.head?, ¬Joins c d)
    (htext : templateFrom index (part :: parts) ++ cs = taken ++ rest) :
    ∃ parts', part :: parts = taken.map .plain ++ parts' ∧ rest = templateFrom index parts' ++ cs := by
  have hbetween : ∃ later, templateFrom index (part :: parts) = taken ++ later ∧ rest = later ++ cs := by
    rcases List.append_eq_append_iff.1 htext with ⟨later, htaken, rfl⟩ | hbetween
    · cases later with
      | nil => exact ⟨[], by rw [htaken, List.append_nil, List.append_nil], rfl⟩
      | cons d later =>
        have hne : templateFrom index (part :: parts) ≠ [] := by
          cases part <;> simp [templateFrom, placeText]
        rw [htaken] at h hplace
        rw [List.head?_append_of_ne_nil _ hne] at hplace
        exact absurd (h.joins_of_append hplace (List.getLast_mem hne) (List.mem_cons_self ..))
          (hseam _ (List.getLast?_eq_some_getLast hne) d rfl)
    · exact hbetween
  obtain ⟨later, htemplate, rfl⟩ := hbetween
  have hleft : LeftOf index (part :: parts) (taken ++ later) :=
    ⟨[], List.not_mem_nil, by rw [List.append_nil, htemplate]⟩
  obtain ⟨parts', heq, -⟩ := hleft.exists_plain (h.underscore_notMem hplace)
  rw [heq, templateFrom_plain_append] at htemplate
  exact ⟨parts', heq, congrArg (· ++ cs) (List.append_cancel_left htemplate).symm⟩

/-- The first lexeme of a template is the same with a text after it in which none goes on, and what it
leaves is a template. -/
theorem exists_lexeme?_templateFrom {part : Part} {parts : List Part} {cs rest : List Char}
    {token : Token} {index : Nat}
    (h : lexeme? (templateFrom index (part :: parts) ++ cs) = some (token, rest))
    (hallowed : ∀ part' ∈ part :: parts, part'.isAllowed = true)
    (hseam : ∀ c ∈ (templateFrom index (part :: parts)).getLast?, ∀ d ∈ cs.head?, ¬Joins c d) :
    ∃ index' parts', lexeme? (templateFrom index (part :: parts)) =
        some (token, templateFrom index' parts') ∧
      rest = templateFrom index' parts' ++ cs ∧ parts' <:+ part :: parts := by
  cases part with
  | place term =>
    have htemplate : templateFrom index (.place term :: parts) =
        placeText index ++ templateFrom (index + 1) parts := rfl
    rw [htemplate, List.append_assoc, lexeme?_placeText] at h
    cases h
    exact ⟨index + 1, parts, by rw [htemplate, lexeme?_placeText], rfl, List.suffix_cons ..⟩
  | plain c =>
    obtain ⟨taken, more, htaken, hmore, htext⟩ := lexeme?_eq_some.1 h
    obtain ⟨d, taken', rfl⟩ := List.exists_cons_of_ne_nil htaken.ne_nil
    obtain ⟨rfl, -⟩ := List.cons.inj htext
    have hplace : '_' ∉ (c :: taken').head? := by
      rintro hc
      cases hc
      cases (List.forall_mem_cons.1 hallowed).1
    obtain ⟨parts', heq, rfl⟩ := htaken.exists_plain hplace hseam htext
    refine ⟨index, parts', ?_, rfl, heq ▸ List.suffix_append ..⟩
    rw [heq, templateFrom_plain_append]
    exact lexeme?_eq_some.2
      ⟨_, more, htaken, fun e he => hmore e (List.mem_head?_append_of_mem_head? he), rfl⟩

/-- Where no lexeme of a template goes on in the text after it, the two are read one after the
other. -/
theorem ReadsAs.exists_append {parts : List Part} {cs : List Char} {tokens : List Token} {index : Nat}
    (h : ReadsAs (templateFrom index parts ++ cs) tokens)
    (hallowed : ∀ part ∈ parts, part.isAllowed = true)
    (hseam : ∀ c ∈ (templateFrom index parts).getLast?, ∀ d ∈ cs.head?, ¬Joins c d) :
    ∃ front back, tokens = front ++ back ∧ ReadsAs (templateFrom index parts) front ∧
      ReadsAs cs back := by
  generalize htext : templateFrom index parts ++ cs = text at h
  induction h generalizing index parts with
  | nil =>
    obtain ⟨hparts, rfl⟩ := List.append_eq_nil_iff.1 htext
    rw [hparts]
    exact ⟨[], [], rfl, .nil, .nil⟩
  | @space c text tokens hc tail ih =>
    cases parts with
    | nil =>
      obtain rfl : cs = c :: text := htext
      exact ⟨[], tokens, rfl, .nil, .space hc tail⟩
    | cons part parts =>
      cases part with
      | place term =>
        rw [templateFrom_place] at htext
        obtain ⟨rfl, -⟩ := List.cons.inj htext
        cases hc
      | plain d =>
        obtain ⟨rfl, rfl⟩ := List.cons.inj htext
        obtain ⟨front, back, rfl, hfront, hback⟩ := ih (List.forall_mem_cons.1 hallowed).2
          (fun e he => hseam e (mem_getLast?_cons he)) rfl
        exact ⟨front, back, rfl, .space hc hfront, hback⟩
  | @lexeme text rest token tokens hlex tail ih =>
    cases parts with
    | nil =>
      obtain rfl : cs = text := htext
      exact ⟨[], token :: tokens, rfl, .nil, .lexeme hlex tail⟩
    | cons part parts =>
      rw [← htext] at hlex
      obtain ⟨index', parts', hlex', rfl, hsuffix⟩ := exists_lexeme?_templateFrom hlex hallowed hseam
      obtain ⟨taken, -, -, -, htaken⟩ := lexeme?_eq_some.1 hlex'
      rw [htaken] at hseam
      obtain ⟨front, back, rfl, hfront, hback⟩ := ih (fun part' hpart => hallowed _ (hsuffix.mem hpart))
        (fun e he => hseam e (List.mem_getLast?_append_of_mem_getLast? he)) rfl
      exact ⟨token :: front, back, rfl, .lexeme hlex' hfront, hback⟩

theorem readsAs_insert {parts : List Part} {spaces cs : List Char} {tokens : List Token} {index : Nat}
    (hallowed : ∀ part ∈ parts, part.isAllowed = true)
    (hspaces : ∀ c ∈ spaces, Text.isSpace c = true)
    (hseam : ∀ c ∈ (templateFrom index parts).getLast?, ∀ d ∈ cs.head?, ¬Joins c d) :
    ReadsAs (templateFrom index parts ++ (spaces ++ cs)) tokens ↔
      ReadsAs (templateFrom index parts ++ cs) tokens := by
  have hseam' : ∀ c ∈ (templateFrom index parts).getLast?, ∀ d ∈ (spaces ++ cs).head?, ¬Joins c d := by
    intro c hc d hd
    cases spaces with
    | nil => exact hseam c hc d hd
    | cons space spaces =>
      cases hd
      exact not_joins_of_isSpace (.inr (hspaces _ (List.mem_cons_self ..)))
  constructor
  · intro h
    obtain ⟨front, back, rfl, hfront, hback⟩ := h.exists_append hallowed hseam'
    exact hfront.append ((ReadsAs.spaces_append hspaces).1 hback) hseam
  · intro h
    obtain ⟨front, back, rfl, hfront, hback⟩ := h.exists_append hallowed hseam
    exact hfront.append ((ReadsAs.spaces_append hspaces).2 hback) hseam'

/-! ## Operands side by side -/

theorem tagSplicesAfter_append (previous : Option Token) (front back : List Token) :
    ∃ front' previous', tagSplicesAfter previous (front ++ back) =
      front' ++ tagSplicesAfter previous' back := by
  induction front generalizing previous with
  | nil => exact ⟨[], previous, rfl⟩
  | cons token front ih =>
    obtain ⟨front', previous', h⟩ := ih (some
      (if token = .operator .mul && previous.all Token.invitesSplice then .splice else token))
    exact ⟨_ :: front', previous', by rw [List.cons_append, tagSplicesAfter, h, List.cons_append]⟩

/-- No machine takes an operand right after another one. -/
theorem not_run_of_operands {context : Context} {front back : List Token} {last first : Token}
    (hlast : last.endsOperand = true) (hfirst : first.startsOperand = true) {m m' : Machine} :
    m.run context (front ++ last :: first :: back) ≠ .ok m' := by
  induction front generalizing m with
  | nil =>
    -- A machine reads a token that begins an operand only after one that ends none.
    intro h
    obtain ⟨m₁, hstep, h⟩ := bind_eq_ok.1 h
    obtain ⟨m₂, hstep', -⟩ := bind_eq_ok.1 h
    obtain ⟨-, -, m, -, rfl⟩ := exists_read_of_step hstep
    have hended := (exists_read_of_step hstep').1 hfirst
    rw [Option.any_some, hlast] at hended
    cases hended
  | cons token front ih =>
    intro h
    obtain ⟨m₁, -, h⟩ := bind_eq_ok.1 h
    exact ih h

/-- A dry run takes the tokens. -/
def Runs (tokens : List Token) : Prop :=
  ∃ amount value, evaluateTokens .dryRun (tagSplices tokens) = .ok amount ∧
    amount.value.roundTenths = .ok value

theorem not_runs_of_operands {front back : List Token} {last first : Token}
    (hlast : last.endsOperand = true) (hfirst : first.startsOperand = true) :
    ¬Runs (front ++ last :: first :: back) := by
  rintro ⟨amount, -, h, -⟩
  obtain ⟨front', previous, htag⟩ := tagSplicesAfter_append none front (last :: first :: back)
  have hlast' : last ≠ .operator .mul := by
    rintro rfl
    cases hlast
  have hfirst' : first ≠ .operator .mul := by
    rintro rfl
    cases hfirst
  obtain ⟨m, hrun, -⟩ := bind_eq_ok.1 h
  rw [tagSplices, htag, tagSplicesAfter, if_neg (by simp [hlast']), tagSplicesAfter,
    if_neg (by simp [hfirst'])] at hrun
  exact not_run_of_operands hlast hfirst hrun

/-! ## Pieces that compile -/

/-- These parts have such dice terms and a template of such tokens, of which there is a dry run. -/
structure Suits (parts : List Part) (terms : List DiceTerm) (tokens : List Token) : Prop where
  shown : terms = parts.filterMap Part.term?
  dice : terms ≠ []
  allowed : ∀ part ∈ parts, part.isAllowed = true
  reads : ReadsAs (templateFrom 0 parts) tokens
  runs : Runs tokens

/-- A formula of these pieces compiles to such dice terms and a template of such tokens. -/
def Accepts (ps : List Piece) (terms : List DiceTerm) (tokens : List Token) : Prop :=
  ∃ parts, List.Forall₂ Piece.Becomes ps parts ∧ Suits parts terms tokens

theorem suits_insert {front back : List Part} {spaces : List Char}
    (hspaces : ∀ c ∈ spaces, Text.isSpace c = true)
    (hseam : ∀ c ∈ (templateFrom 0 front).getLast?,
      ∀ d ∈ (templateFrom (termCount front) back).head?, ¬Joins c d)
    {terms : List DiceTerm} {tokens : List Token} :
    Suits (front ++ (spaces.map .plain ++ back)) terms tokens ↔ Suits (front ++ back) terms tokens := by
  have hterms : (front ++ (spaces.map Part.plain ++ back)).filterMap Part.term? =
      (front ++ back).filterMap Part.term? := by
    simp [List.filterMap_append, List.filterMap_map, Function.comp_def, Part.term?]
  have hplain : ∀ part ∈ spaces.map Part.plain, part.isAllowed = true := by
    intro part hpart
    obtain ⟨c, hc, rfl⟩ := List.mem_map.1 hpart
    simp [Part.isAllowed, isFormulaChar, hspaces c hc]
  have hreads (hfront : ∀ part ∈ front, part.isAllowed = true) :
      ReadsAs (templateFrom 0 (front ++ (spaces.map .plain ++ back))) tokens ↔
        ReadsAs (templateFrom 0 (front ++ back)) tokens := by
    rw [templateFrom_append, templateFrom_plain_append, templateFrom_append, Nat.zero_add]
    exact readsAs_insert hfront hspaces hseam
  constructor
  · rintro ⟨rfl, hdice, hallowed, htokens, hruns⟩
    simp only [List.forall_mem_append] at hallowed
    exact ⟨hterms, hdice, List.forall_mem_append.2 ⟨hallowed.1, hallowed.2.2⟩,
      (hreads hallowed.1).1 htokens, hruns⟩
  · rintro ⟨rfl, hdice, hallowed, htokens, hruns⟩
    rw [List.forall_mem_append] at hallowed
    exact ⟨hterms.symm, hdice, List.forall_mem_append.2 ⟨hallowed.1, List.forall_mem_append.2
      ⟨hplain, hallowed.2⟩⟩, (hreads hallowed.1).2 htokens, hruns⟩

/-- The character that a template shows first and last for the piece. -/
def Piece.mark : Piece → Char
  | plain c => c
  | term _ => '_'

theorem becomes_append {ps qs : List Piece} {parts : List Part} :
    List.Forall₂ Piece.Becomes (ps ++ qs) parts ↔ ∃ front back, parts = front ++ back ∧
      List.Forall₂ Piece.Becomes ps front ∧ List.Forall₂ Piece.Becomes qs back := by
  constructor
  · intro h
    induction ps generalizing parts with
    | nil => exact ⟨[], parts, rfl, .nil, h⟩
    | cons p ps ih =>
      cases h with
      | cons hfirst hlater =>
        obtain ⟨front, back, rfl, hfront, hback⟩ := ih hlater
        exact ⟨_ :: front, back, rfl, .cons hfirst hfront, hback⟩
  · rintro ⟨front, back, rfl, hfront, hback⟩
    exact List.rel_append hfront hback

theorem becomes_plain {cs : List Char} {parts : List Part} :
    List.Forall₂ Piece.Becomes (cs.map .plain) parts ↔ parts = cs.map .plain := by
  induction cs generalizing parts with
  | nil => rw [List.map_nil, List.forall₂_nil_left_iff, List.map_nil]
  | cons c cs ih =>
    constructor
    · intro h
      cases h with
      | cons hfirst hlater =>
        cases hfirst
        rw [ih.1 hlater, List.map_cons]
    · rintro rfl
      exact .cons (.plain c) (ih.2 rfl)

theorem head?_templateFrom {ps : List Piece} {parts : List Part}
    (h : List.Forall₂ Piece.Becomes ps parts) (index : Nat) :
    (templateFrom index parts).head? = ps.head?.map Piece.mark := by
  cases h with
  | nil => rfl
  | cons hfirst _ =>
    cases hfirst with
    | plain c => rfl
    | place _ => rfl

theorem getLast?_templateFrom {ps : List Piece} {parts : List Part}
    (h : List.Forall₂ Piece.Becomes ps parts) (index : Nat) :
    (templateFrom index parts).getLast? = ps.getLast?.map Piece.mark := by
  induction h generalizing index with
  | nil => rfl
  | @cons p part ps parts hfirst hlater ih =>
    have hone : (templateFrom index [part]).getLast? = some p.mark := by
      cases hfirst with
      | plain c => rfl
      | place _ =>
        rw [templateFrom, templateFrom, List.append_nil]
        exact List.getLast?_append_of_ne_nil ("__G".toList ++ Nat.toDigits 10 index) (by simp)
    rw [← List.singleton_append, templateFrom_append, List.getLast?_append, ih, hone, List.getLast?_cons]
    cases ps.getLast? <;> rfl

/-- The last one of these pieces and the first one of those are not of one number or one name. -/
def Apart (ps qs : List Piece) : Prop :=
  ∀ p ∈ ps.getLast?, ∀ q ∈ qs.head?, ¬Joins p.mark q.mark

theorem Apart.not_joins {ps qs : List Piece} {front back : List Part} (h : Apart ps qs)
    (hfront : List.Forall₂ Piece.Becomes ps front) (hback : List.Forall₂ Piece.Becomes qs back)
    (index index' : Nat) : ∀ c ∈ (templateFrom index front).getLast?,
      ∀ d ∈ (templateFrom index' back).head?, ¬Joins c d := by
  rw [getLast?_templateFrom hfront, head?_templateFrom hback]
  intro c hc d hd
  obtain ⟨p, hp, rfl⟩ := Option.mem_map.1 hc
  obtain ⟨q, hq, rfl⟩ := Option.mem_map.1 hd
  exact h p hp q hq

/-- White space between pieces changes nothing, where these do not join. -/
theorem accepts_insert {ps qs : List Piece} {spaces : List Char}
    (hspaces : ∀ c ∈ spaces, Text.isSpace c = true) (hapart : Apart ps qs) {terms : List DiceTerm}
    {tokens : List Token} :
    Accepts (ps ++ (spaces.map .plain ++ qs)) terms tokens ↔ Accepts (ps ++ qs) terms tokens := by
  constructor
  · rintro ⟨parts, hbecomes, hsuits⟩
    obtain ⟨front, back', rfl, hfront, hback'⟩ := becomes_append.1 hbecomes
    obtain ⟨between, back, rfl, hbetween, hback⟩ := becomes_append.1 hback'
    obtain rfl := becomes_plain.1 hbetween
    exact ⟨front ++ back, becomes_append.2 ⟨front, back, rfl, hfront, hback⟩,
      (suits_insert hspaces (hapart.not_joins hfront hback 0 _)).1 hsuits⟩
  · rintro ⟨parts, hbecomes, hsuits⟩
    obtain ⟨front, back, rfl, hfront, hback⟩ := becomes_append.1 hbecomes
    have hback' : List.Forall₂ Piece.Becomes (spaces.map .plain ++ qs) (spaces.map .plain ++ back) :=
      becomes_append.2 ⟨_, back, rfl, becomes_plain.2 rfl, hback⟩
    exact ⟨_, becomes_append.2 ⟨front, _, rfl, hfront, hback'⟩,
      (suits_insert hspaces (hapart.not_joins hfront hback 0 _)).2 hsuits⟩

/-- No formula compiles in which an operand stands right after another one. -/
theorem not_accepts {ps qs : List Piece} {spaces : List Char}
    (hspaces : ∀ c ∈ spaces, Text.isSpace c = true)
    (hapart : Apart ps (spaces.map .plain ++ qs)) {p q : Piece} (hp : p ∈ ps.getLast?)
    (hends : p.isWord = true) (hletter : Text.isLetter p.mark = false) (hq : q ∈ qs.head?)
    (hstarts : q.isWord = true) (terms : List DiceTerm) (tokens : List Token) :
    ¬Accepts (ps ++ (spaces.map .plain ++ qs)) terms tokens := by
  rintro ⟨parts, hbecomes, -, -, hparts, htokens, hruns⟩
  obtain ⟨front, back', rfl, hfront, hback'⟩ := becomes_append.1 hbecomes
  rw [List.forall_mem_append] at hparts
  rw [templateFrom_append] at htokens
  obtain ⟨ts, ts', rfl, hts, hts'⟩ := htokens.exists_append hparts.1
    (hapart.not_joins hfront hback' 0 _)
  obtain ⟨between, back, rfl, hbetween, hback⟩ := becomes_append.1 hback'
  obtain rfl := becomes_plain.1 hbetween
  rw [templateFrom_plain_append, ReadsAs.spaces_append hspaces] at hts'
  have hlast : p.mark ∈ (templateFrom 0 front).getLast? := by
    rw [getLast?_templateFrom hfront, Option.mem_def.1 hp]
    rfl
  have hfirst : q.mark ∈ (templateFrom (0 + termCount front) back).head? := by
    rw [head?_templateFrom hback, Option.mem_def.1 hq]
    rfl
  have hp' : Text.isDigit p.mark = true ∨ p.mark = '_' := by
    cases p with
    | plain c =>
      rw [Piece.isWord, Text.isWord, show Text.isLetter c = false from hletter, Bool.false_or,
        Bool.or_eq_true, decide_eq_true_iff] at hends
      exact hends
    | term written => exact .inr rfl
  have hq' : Text.isWord q.mark = true := by
    cases q with
    | plain c => exact hstarts
    | term written => rfl
  obtain ⟨ts, last, rfl, hlast⟩ := hts.exists_endsOperand hlast hp'
  obtain ⟨first, ts', rfl, hfirst⟩ := hts'.exists_startsOperand hfirst hq'
  rw [List.append_assoc] at hruns
  exact not_runs_of_operands hlast hfirst hruns

/-! ## Compiling -/

/-- What a formula is read as, if it compiles: its dice terms and the tokens of its template. -/
def reading (formula : String) : Option (List DiceTerm × Except EvaluationError (List Token)) :=
  (compile formula).toOption.map fun compiled => (compiled.terms, tokenize compiled.template)

theorem readPieces_of_becomes {ps : List Piece} {parts : List Part}
    (h : List.Forall₂ Piece.Becomes ps parts) : readPieces ps = .ok parts := by
  induction h with
  | nil => rfl
  | @cons p part ps parts hfirst _ ih =>
    have hread : p.read = .ok [part] := by
      cases hfirst with
      | plain c => rfl
      | place hread => exact bind_eq_ok.2 ⟨_, hread, rfl⟩
    exact bind_eq_ok.2 ⟨_, hread, bind_eq_ok.2 ⟨_, ih, rfl⟩⟩

theorem evaluate_dryRun_eq_ok {expression : String} :
    (∃ amount, evaluate .dryRun expression = .ok amount) ↔
      ∃ tokens, tokenize expression = .ok tokens ∧ Runs tokens := by
  constructor
  · rintro ⟨amount, h⟩
    obtain ⟨tokens, htokens, h⟩ := bind_eq_ok.1 h
    obtain ⟨amount', hamount, h⟩ := bind_eq_ok.1 h
    obtain ⟨value, hvalue, -⟩ := bind_eq_ok.1 h
    exact ⟨tokens, mapError_eq_ok.1 htokens, amount', value, hamount, hvalue⟩
  · rintro ⟨tokens, htokens, amount, value, hamount, hvalue⟩
    exact ⟨_, bind_eq_ok.2 ⟨tokens, mapError_eq_ok.2 htokens, bind_eq_ok.2 ⟨amount, hamount,
      bind_eq_ok.2 ⟨value, hvalue, rfl⟩⟩⟩⟩

theorem compile_eq_ok {formula : String} {compiled : Compiled} :
    compile formula = .ok compiled ↔ ∃ parts, Reaches formula parts ∧
      (∃ amount, evaluate .dryRun (String.ofList (templateFrom 0 parts)) = .ok amount) ∧
        compiled = ⟨parts.filterMap Part.term?, String.ofList (templateFrom 0 parts), formula⟩ := by
  constructor
  · intro h
    obtain ⟨parts, hparts, -⟩ := bind_eq_ok.1 h
    rcases reaches_of_partsOf hparts with hreason | hreason | hreaches
    · exact nomatch h.symm.trans hreason
    · exact nomatch h.symm.trans hreason
    · rw [hreaches.compile_eq] at h
      split at h
      · next amount hrun =>
        cases h
        exact ⟨parts, hreaches, ⟨amount, hrun⟩, rfl⟩
      · cases h
      · cases h
  · rintro ⟨parts, hreaches, ⟨amount, hrun⟩, rfl⟩
    rw [hreaches.compile_eq, hrun]

theorem isSpace_of_isFormulaChar {c : Char} (h : isFormulaChar c = true)
    (hblank : Text.isBlank c = true) : Text.isSpace c = true := by
  have hword : ¬Text.isWord c = true := fun hword => by
    rw [isBlank_of_isWord hword] at hblank
    cases hblank
  simp only [isFormulaChar, Bool.or_eq_true, List.contains_iff_mem] at h
  rcases h with ((hdigit | hspace) | hletter) | hsymbol
  · exact absurd (isWord_of_isDigit hdigit) hword
  · exact hspace
  · exact absurd (isWord_of_isLetter (by rw [Text.isLetter, hletter, Bool.true_or])) hword
  · have hsymbols : ("+-*/().,".toList.all fun c => !Text.isBlank c) = true := rfl
    have hnot := List.all_eq_true.1 hsymbols c hsymbol
    rw [hblank] at hnot
    cases hnot

/-- A template has no other blanks than white space. -/
theorem isSpace_of_templateFrom {parts : List Part} (h : ∀ part ∈ parts, part.isAllowed = true)
    (index : Nat) : ∀ c ∈ templateFrom index parts, Text.isBlank c = true → Text.isSpace c = true := by
  induction parts generalizing index with
  | nil => exact List.forall_mem_nil _
  | cons part parts ih =>
    obtain ⟨hpart, hparts⟩ := List.forall_mem_cons.1 h
    cases part with
    | plain c =>
      exact List.forall_mem_cons.2 ⟨isSpace_of_isFormulaChar hpart, ih hparts index⟩
    | place term =>
      refine List.forall_mem_append.2 ⟨fun c hc hblank => ?_, ih hparts _⟩
      have hword : Text.isWord c = true := by
        rcases List.mem_append.1 hc with hc | hc
        · rcases List.mem_append.1 hc with hc | hc
          · exact List.all_eq_true.1 (show "__G".toList.all Text.isWord = true from rfl) c hc
          · exact isWord_of_isDigit (isDigit_of_mem_toDigits hc)
        · exact List.all_eq_true.1 (show "__".toList.all Text.isWord = true from rfl) c hc
      rw [isBlank_of_isWord hword] at hblank
      cases hblank

/-- What a formula is read as depends on its pieces, and its template has tokens if it has one. -/
theorem reading_eq_some {formula : String}
    {r : List DiceTerm × Except EvaluationError (List Token)} :
    reading formula = some r ↔ ∃ terms tokens, r = (terms, .ok tokens) ∧
      Accepts (pieces (expanded formula)) terms tokens := by
  rw [reading, Option.map_eq_some_iff]
  simp only [toOption_eq_some, compile_eq_ok, evaluate_dryRun_eq_ok]
  constructor
  · rintro ⟨compiled, ⟨parts, hreaches, ⟨tokens, htokens, hruns⟩, rfl⟩, rfl⟩
    have hrun := evaluate_dryRun_eq_ok.2 ⟨tokens, htokens, hruns⟩
    obtain ⟨amount, hrun⟩ := hrun
    have hnone : .plain 'd' ∉ parts := fun hmem => d_notMem_of_evaluate hrun (mem_templateFrom hmem)
    exact ⟨_, tokens, congrArg _ htokens, parts, becomes_of_readPieces hreaches.read hnone, rfl,
      hreaches.dice, hreaches.allowed,
      (tokenize_eq_ok (isSpace_of_templateFrom hreaches.allowed 0)).1 htokens, hruns⟩
  · rintro ⟨terms, tokens, rfl, parts, hbecomes, rfl, hdice, hallowed, htokens, hruns⟩
    have htokens := (tokenize_eq_ok (isSpace_of_templateFrom hallowed 0)).2 htokens
    exact ⟨_, ⟨parts, ⟨readPieces_of_becomes hbecomes, hdice, hallowed⟩, ⟨tokens, htokens, hruns⟩, rfl⟩,
      congrArg _ htokens⟩

end RollTray.Formula
