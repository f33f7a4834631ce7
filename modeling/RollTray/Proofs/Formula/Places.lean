import RollTray.Dice.Resolution
import RollTray.Proofs.Formula.Acceptance
import RollTray.Proofs.Formula.Pieces
import RollTray.Proofs.Formula.Template
import RollTray.Proofs.Tray.Sites

/-!
# Dice terms and their places

A formula that compiles is plain text around its dice terms, of which there is at least one; in its
template the same text stands around the places, numbered from zero on, and reading the template finds
just these places, whatever else the formula looks like (`placed_of_compile`). So each group of a roll
gives its amount to the place of its number.

A term that stands for no dice would stay in the template with its `d`. That is a letter, so it would be
read as part of a name, and no function's name has it (`d_notMem_of_evaluate`).
-/

namespace RollTray

namespace Formula

variable {context : Context} {tokens : List Token}

/-! ## What is read -/

/-- Each token that a machine takes is read at some point. -/
theorem exists_read_of_run {m m' : Machine} (h : m.run context tokens = .ok m') {token : Token}
    (hmem : token ∈ tokens) :
    ∃ (m₁ m₂ : Machine) (next : Option Token), m₁.read context token next = .ok m₂ := by
  induction tokens generalizing m with
  | nil => nomatch hmem
  | cons first rest ih =>
    obtain ⟨m₁, hstep, hrest⟩ := bind_eq_ok.1 h
    rcases List.mem_cons.1 hmem with rfl | hmem
    · obtain ⟨-, -, m₂, hread, -⟩ := exists_read_of_step hstep
      exact ⟨m, m₂, _, hread⟩
    · exact ih hrest hmem

theorem exists_read_of_evaluateTokens {amount : Amount} (h : evaluateTokens context tokens = .ok amount)
    {token : Token} (hmem : token ∈ tokens) :
    ∃ (m₁ m₂ : Machine) (next : Option Token), m₁.read context token next = .ok m₂ :=
  have ⟨_, hrun, _⟩ := bind_eq_ok.1 h
  exists_read_of_run hrun hmem

/-- A name that is read is that of a function. -/
theorem ofName?_of_read {m m' : Machine} {letters : String} {next : Option Token}
    (h : m.read context (.name letters) next = .ok m') : ∃ f, Function.ofName? letters = some f := by
  rw [Machine.read] at h
  split at h
  · cases h
  · exact ⟨_, ‹_›⟩

theorem place_of_read {m m' : Machine} {index : String} {next : Option Token}
    (h : m.read context (.place index) next = .ok m') : ∃ amount, context.place index = .ok amount :=
  have ⟨amount, hplace, _⟩ := bind_eq_ok.1 h
  ⟨amount, hplace⟩

/-! ## The letter of dice terms -/

/-- The letter of dice terms, where a text has it, is part of a name. -/
theorem d_mem_of_lexeme? {cs rest : List Char} {token : Token} (h : lexeme? cs = some (token, rest))
    (hd : 'd' ∈ cs) : 'd' ∈ rest ∨ ∃ letters, token = .name letters ∧ 'd' ∈ letters.toList := by
  obtain ⟨taken, more, hlex, -, rfl⟩ := lexeme?_eq_some.1 h
  refine (List.mem_append.1 hd).symm.imp_right fun hd => ?_
  have hdigits : ∀ {cs : List Char}, (∀ c ∈ cs, Text.isDigit c = true) → 'd' ∉ cs :=
    notMem_of_forall (by decide)
  cases hlex with
  | whole _ hwhole => exact absurd hd (hdigits hwhole)
  | decimal _ hwhole hplaces =>
    simp [hdigits hwhole, hdigits hplaces] at hd
  | name _ _ =>
    refine ⟨_, rfl, ?_⟩
    rw [String.toList_ofList]
    exact List.mem_map.2 ⟨'d', hd, by decide⟩
  | place hg _ hindex =>
    rcases hg with rfl | rfl <;> simp [hdigits hindex] at hd
  | symbol hsymbol =>
    cases List.mem_singleton.1 hd
    cases hsymbol

theorem d_mem_of_scan {position : Nat} {cs : List Char} (h : scan position cs = .ok tokens)
    (hd : 'd' ∈ cs) : ∃ letters, .name letters ∈ tokens ∧ 'd' ∈ letters.toList := by
  fun_induction scan position cs generalizing tokens with
  | case1 => cases hd
  | case2 => cases h
  | case3 position c tail token rest hlex _ tokens' hrest ih =>
    cases h
    rw [← List.takeWhile_append_dropWhile (p := Text.isSpace) (l := c :: tail)] at hd
    have hspace : 'd' ∉ (c :: tail).takeWhile Text.isSpace :=
      notMem_of_forall (by decide) fun c hc => List.mem_takeWhile_imp hc
    rcases d_mem_of_lexeme? hlex ((List.mem_append.1 hd).resolve_left hspace) with
      hd | ⟨letters, rfl, hd⟩
    · obtain ⟨letters, hmem, hd⟩ := ih hrest hd
      exact ⟨letters, List.mem_cons_of_mem _ hmem, hd⟩
    · exact ⟨letters, List.mem_cons_self .., hd⟩
  | case4 => cases h

theorem mem_tagSplices {token : Token} (hne : token ≠ .operator .mul) {previous : Option Token}
    (h : token ∈ tokens) : token ∈ tagSplicesAfter previous tokens := by
  induction tokens generalizing previous with
  | nil => nomatch h
  | cons first rest ih =>
    rcases List.mem_cons.1 h with rfl | h
    · rw [tagSplicesAfter, if_neg (by simp [hne])]
      exact List.mem_cons_self ..
    · exact List.mem_cons_of_mem _ (ih h)

/-- No text that can be evaluated has the letter of dice terms, as no function's name has it. -/
theorem d_notMem_of_evaluate {template : List Char} {amount : Amount}
    (h : evaluate context (String.ofList template) = .ok amount) : 'd' ∉ template := by
  intro hd
  obtain ⟨tokens, htokens, h⟩ := bind_eq_ok.1 h
  obtain ⟨amount', hamount, -⟩ := bind_eq_ok.1 h
  rw [mapError_eq_ok, tokenize, String.toList_ofList] at htokens
  obtain ⟨tail, hblank, htail⟩ := Text.trimEnd_append template
  have htrim : 'd' ∈ Text.trimEnd template := by
    rw [← htail] at hd
    exact (List.mem_append.1 hd).resolve_right (notMem_of_forall (by decide) hblank)
  obtain ⟨letters, hmem, hd⟩ := d_mem_of_scan htokens htrim
  have hmem : .name letters ∈ tagSplices tokens := mem_tagSplices (by simp) hmem
  obtain ⟨m₁, m₂, next, hread⟩ := exists_read_of_evaluateTokens hamount hmem
  obtain ⟨f, hname⟩ := ofName?_of_read hread
  rw [← Function.name_of_ofName? hname] at hd
  cases f <;> exact absurd hd (by decide)

/-! ## Text around dice terms -/

theorem mem_templateFrom {c : Char} {parts : List Part} {index : Nat} (h : .plain c ∈ parts) :
    c ∈ templateFrom index parts := by
  induction parts generalizing index with
  | nil => nomatch h
  | cons part parts ih =>
    rcases List.mem_cons.1 h with rfl | hmem
    · exact List.mem_cons_self ..
    · cases part with
      | plain d => exact List.mem_cons_of_mem _ (ih hmem)
      | place term => exact List.mem_append_right _ (ih hmem)

/-- What becomes of a piece in the template of a formula that compiles. -/
inductive Piece.Becomes : Piece → Part → Prop
  | plain (c : Char) : Becomes (.plain c) (.plain c)
  | place {written : WrittenTerm} {dice : DiceTerm} (read : written.read = .ok (some dice)) :
      Becomes (.term written) (.place dice)

/-- Each dice term stands for dice, where no letter of one is left over. -/
theorem becomes_of_readPieces {ps : List Piece} {parts : List Part} (h : readPieces ps = .ok parts)
    (hleft : .plain 'd' ∉ parts) : List.Forall₂ Piece.Becomes ps parts := by
  induction ps generalizing parts with
  | nil =>
    cases h
    exact .nil
  | cons piece rest ih =>
    obtain ⟨first, hfirst, h⟩ := bind_eq_ok.1 h
    obtain ⟨later, hlater, h⟩ := bind_eq_ok.1 h
    cases h
    rw [List.mem_append, not_or] at hleft
    cases piece with
    | plain c =>
      cases hfirst
      exact .cons (.plain c) (ih hlater hleft.2)
    | term written =>
      obtain ⟨dice, hread, hfirst⟩ := bind_eq_ok.1 hfirst
      cases dice with
      | some dice =>
        cases hfirst
        exact .cons (.place hread) (ih hlater hleft.2)
      | none =>
        cases hfirst
        refine absurd (List.mem_map_of_mem ?_) hleft.1
        simp [WrittenTerm.text]

/-- Words set into a text, each before the gap that follows it. -/
def setInto (front : List Char) (entries : List (List Char × List Char)) : List Char :=
  front ++ entries.flatMap fun entry => entry.1 ++ entry.2

/-- Dice terms, each with the text that follows it, and the template in which they have their places,
numbered from an index on. -/
structure Layout (ps : List Piece) (index : Nat) (front : List Char)
    (found : List (WrittenTerm × List Char)) (terms : List DiceTerm) (template : List Char) : Prop where
  pieces : ps = front.map .plain ++
    found.flatMap fun entry => .term entry.1 :: entry.2.map .plain
  template : template =
    setInto front ((found.zipIdx index).map fun (entry, k) => (placeText k, entry.2))
  read : List.Forall₂ (fun entry term => entry.1.read = .ok (some term)) found terms

theorem exists_layout {ps : List Piece} {parts : List Part} (h : List.Forall₂ Piece.Becomes ps parts)
    (index : Nat) : ∃ front found,
      Layout ps index front found (parts.filterMap Part.term?) (templateFrom index parts) := by
  induction h generalizing index with
  | nil => exact ⟨[], [], rfl, rfl, .nil⟩
  | cons hfirst _ ih =>
    cases hfirst with
    | plain c =>
      obtain ⟨front, found, hpieces, htemplate, hread⟩ := ih index
      refine ⟨c :: front, found, ?_, ?_, hread⟩
      · rw [hpieces]
        rfl
      · rw [templateFrom, htemplate]
        rfl
    | place hdice =>
      obtain ⟨front, found, hpieces, htemplate, hread⟩ := ih (index + 1)
      refine ⟨[], (_, front) :: found, ?_, ?_, .cons hdice hread⟩
      · rw [hpieces]
        rfl
      · rw [templateFrom, htemplate, setInto, setInto, List.zipIdx_cons, List.map_cons,
          List.flatMap_cons, List.nil_append, List.append_assoc]

/-- The text around the dice terms with the terms set into it. -/
theorem Layout.text {cs front : List Char} {index : Nat} {found : List (WrittenTerm × List Char)}
    {terms : List DiceTerm} {template : List Char}
    (h : Layout (Formula.pieces cs) index front found terms template) :
    setInto front (found.map fun entry => (entry.1.text, entry.2)) = cs := by
  have hplain : ∀ cs : List Char, (cs.map Piece.plain).flatMap Piece.text = cs := by
    intro cs
    induction cs with
    | nil => rfl
    | cons c cs ih => exact congrArg (c :: ·) ih
  rw [← text_pieces cs, h.pieces, List.flatMap_append, hplain, setInto, List.flatMap_map,
    List.flatMap_assoc]
  refine congrArg (front ++ ·) (congrArg (List.flatMap · found) (funext fun entry => ?_))
  rw [List.flatMap_cons, hplain]
  rfl

/-- The text of which a formula's dice terms are taken: in small letters, with its shorthands written
out. -/
def expanded (formula : String) : List Char :=
  Shorthand.expandFrom false (formula.toList.flatMap lowered)

/-- A compiled template is the formula's text with places for its dice terms. -/
theorem exists_layout_of_compile {formula : String} {compiled : Compiled}
    (h : compile formula = .ok compiled) : ∃ front found,
      Layout (pieces (expanded formula)) 0 front found compiled.terms compiled.template.toList := by
  obtain ⟨parts, hparts, hterms, htemplate, -, amount, hdry⟩ := exists_parts_of_compile h
  rw [htemplate] at hdry
  have hnone : .plain 'd' ∉ parts := fun hmem => d_notMem_of_evaluate hdry (mem_templateFrom hmem)
  rw [hterms, htemplate, String.toList_ofList]
  exact exists_layout (becomes_of_readPieces hparts hnone) 0

/-! ## The places of a compiled template -/

/-- Each place of a template that can be evaluated is read. -/
theorem readInt_of_evaluate {template : String} {amount : Amount}
    (h : evaluate context template = .ok amount) (htokens : tokenize template = .ok tokens)
    {index : String} (hmem : index ∈ tokens.filterMap Token.place?) : (readInt index).isSome := by
  obtain ⟨token, hmem, hplace⟩ := List.mem_filterMap.1 hmem
  obtain rfl : token = .place index := by
    unfold Token.place? at hplace
    split at hplace <;> cases hplace
    rfl
  obtain ⟨tokens', htokens', h⟩ := bind_eq_ok.1 h
  obtain ⟨amount', hamount, -⟩ := bind_eq_ok.1 h
  rw [mapError_eq_ok, htokens] at htokens'
  cases htokens'
  have hmem : .place index ∈ tagSplices tokens := mem_tagSplices (by simp) hmem
  obtain ⟨m₁, m₂, next, hread⟩ := exists_read_of_evaluateTokens hamount hmem
  obtain ⟨amount, hplace⟩ := place_of_read hread
  unfold Context.place at hplace
  split at hplace
  · cases hplace
  · next hint => exact Option.isSome_iff_exists.2 ⟨_, hint⟩

/-- The places of a template give the amounts of its groups, in order. -/
theorem amounts_of_places {formula : String} {compiled : Compiled}
    (h : compile formula = .ok compiled) (htokens : tokenize compiled.template = .ok tokens)
    {amounts : List Amount} (hlength : amounts.length = compiled.terms.length) :
    (tokens.filterMap Token.place?).map (Dice.contextOf amounts).place = amounts.map .ok := by
  obtain ⟨parts, -, -, -, -, amount, hdry⟩ := exists_parts_of_compile h
  have hread : ∀ index ∈ tokens.filterMap Token.place?, (readInt index).isSome := fun index hmem =>
    readInt_of_evaluate hdry htokens hmem
  rw [places_of_compile h htokens] at hread ⊢
  refine List.ext_getElem (by simp [hlength]) fun k hk hk' => ?_
  rw [List.length_map] at hk'
  have hlt : k < compiled.terms.length := hlength ▸ hk'
  obtain ⟨n, hn⟩ := Option.isSome_iff_exists.1
    (hread (indexText k) (List.mem_map_of_mem (List.mem_range.2 hlt)))
  have hvalue := eq_of_readInt_toDigits hn
  simp only [List.getElem_map, List.getElem_range]
  rw [Context.place, hn, hvalue]
  dsimp only [Dice.contextOf]
  rw [Int.toNat_natCast, List.getElem?_eq_getElem hk']

end Formula

/-- The amounts of groups are as many as these. -/
theorem Dice.length_amounts {values : List (Value × List Value)} {groups : List Group} {index : Nat}
    {results : List (List DieResult)} {amounts : List Formula.Amount}
    (h : settleGroups values index groups = .ok (results, amounts)) :
    amounts.length = groups.length := by
  induction groups generalizing index results amounts with
  | nil =>
    cases h
    rfl
  | cons g groups ih =>
    obtain ⟨first, _, h⟩ := bind_eq_ok.1 h
    obtain ⟨amount, _, h⟩ := bind_eq_ok.1 h
    obtain ⟨⟨later, others⟩, hrest, h⟩ := bind_eq_ok.1 h
    cases h
    exact congrArg (· + 1) (ih hrest)

/-- A group as formulas make them: a number of dice of some kind, and how many of them are kept where
the highest or the lowest are. -/
structure Group.Proper (g : Group) : Prop where
  kind : ∃ kind : DieKind, g.kind = .text kind.name
  count : ∃ n : Int, 1 ≤ n ∧ g.count = .int n
  keep : (g.keep = .text "kh" ∨ g.keep = .text "kl") ∧ (∃ n : Nat, g.keepCount = .int n) ∨
    (g.keep = .null ∨ g.keep = .text "ka") ∧ g.keepCount = .null

theorem Group.proper_ofTerm {term : Formula.DiceTerm} (h : 1 ≤ term.count) :
    (Group.ofTerm term).Proper where
  kind := ⟨_, rfl⟩
  count := ⟨term.count, by omega, rfl⟩
  keep := by rcases hkeep : term.keep with _ | (_ | _ | _) <;> simp [Group.ofTerm, Group.ofKeep, hkeep]

namespace Formula

/-- A compiled formula whose groups are proper and have their places in the template, each once and in
order, with the formula's own text around them. -/
structure WellPlaced (formula : String) (compiled : Compiled) : Prop where
  nonempty : compiled.terms ≠ []
  proper : ∀ term ∈ compiled.terms, (Group.ofTerm term).Proper
  layout : ∃ front found,
    setInto front (found.map fun entry => (entry.1.text, entry.2)) = expanded formula ∧
      Layout (pieces (expanded formula)) 0 front found compiled.terms compiled.template.toList
  places : ∃ tokens, tokenize compiled.template = .ok tokens ∧
    tokens.filterMap Token.place? = (List.range compiled.terms.length).map indexText ∧
      ∀ values results amounts,
        Dice.settleGroups values 0 (compiled.terms.map Group.ofTerm) = .ok (results, amounts) →
          (tokens.filterMap Token.place?).map (Dice.contextOf amounts).place = amounts.map .ok

/-- Whatever was typed, each group of a formula that compiles has its own place in the template, and
there are no other places. -/
theorem wellPlaced_of_compile {formula : String} {compiled : Compiled}
    (h : compile formula = .ok compiled) : WellPlaced formula compiled := by
  obtain ⟨front, found, hlayout⟩ := exists_layout_of_compile h
  obtain ⟨hne, hcount⟩ := terms_of_compile h
  obtain ⟨parts, -, -, -, -, amount, hdry⟩ := exists_parts_of_compile h
  obtain ⟨tokens, htokens, -⟩ := bind_eq_ok.1 hdry
  rw [mapError_eq_ok] at htokens
  refine ⟨hne, fun term hterm => Group.proper_ofTerm (hcount term hterm),
    ⟨front, found, hlayout.text, hlayout⟩, tokens, htokens, places_of_compile h htokens,
    fun values results amounts hsettle => amounts_of_places h htokens ?_⟩
  rw [Dice.length_amounts hsettle, List.length_map]

/-- One call is a shorthand, and the others stay in the text. -/
theorem wellPlaced_shorthand : ∃ compiled, compile "2*max( 1d20 )+min(d6,avg())" = .ok compiled ∧
    compiled.template = "2*__G0__+min(__G1__,avg())" ∧
      WellPlaced "2*max( 1d20 )+min(d6,avg())" compiled := by
  let compiled : Compiled := ⟨[⟨.d20, 1, some (.highest 1)⟩, ⟨.d6, 1, none⟩],
    "2*__G0__+min(__G1__,avg())", "2*max( 1d20 )+min(d6,avg())"⟩
  have h : compile "2*max( 1d20 )+min(d6,avg())" = .ok compiled := toOption_eq_some.1 (by decide +kernel)
  exact ⟨compiled, h, rfl, wellPlaced_of_compile h⟩

end Formula

end RollTray
