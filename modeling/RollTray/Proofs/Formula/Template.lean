import Mathlib.Algebra.Order.Ring.Nat
import Mathlib.Data.List.TakeWhile
import RollTray.Proofs.Formula.Lexemes

/-!
# The places of a template

The template of a formula shows its dice terms as numbered places, and reading it finds these places
again: those among the template's tokens have the indices of the formula's terms, in order
(`places_of_compile`), and what the digits of one are read as is this index (`eq_of_readInt_toDigits`).

What is left of a template after some tokens is again a template, of the later parts and numbered on,
with perhaps some blanks cut off at its end (`LeftOf`). A lexeme keeps that (`leftOf_of_lexeme?`).
-/

namespace RollTray

/-! ## The digits of an index -/

theorem isDigit_of_mem_toDigits {n : Nat} {c : Char} (h : c ∈ Nat.toDigits 10 n) :
    Text.isDigit c = true := by
  have hdigit := Nat.isDigit_of_mem_toDigits (by decide) (by decide) h
  simpa [Text.isDigit, Char.isDigit, Char.le_def] using hdigit

theorem digit?_of_isDigit {c : Char} (h : Text.isDigit c = true) :
    Text.digit? c = some (c.toNat - 48) := by
  obtain ⟨hlow, hhigh⟩ := toNat_of_isDigit h
  rw [Text.digit?, Text.digitZeros, List.find?_cons_of_pos]
  · rfl
  · simp only [Bool.and_eq_true, decide_eq_true_iff]
    omega

theorem isMargin_of_isDigit {c : Char} (h : Text.isDigit c = true) : Text.isMargin c = false := by
  obtain ⟨hlow, hhigh⟩ := toNat_of_isDigit h
  have hne : c ≠ ' ' := by
    rintro rfl
    exact absurd hlow (by decide)
  simp [Text.isMargin, Text.isBlank, Text.isSpace, hne]
  omega

theorem takeDigits_of_forall {cs : List Char} (h : ∀ c ∈ cs, Text.isDigit c = true) :
    takeDigits cs = (cs.map (·.toNat - 48), []) := by
  induction cs with
  | nil => rw [takeDigits, List.map_nil]
  | cons c cs ih =>
    obtain ⟨hc, hcs⟩ := List.forall_mem_cons.1 h
    have hjoins : joinsDigits cs = false := by
      cases cs with
      | nil => rfl
      | cons d cs =>
        have hd := hcs d (List.mem_cons_self ..)
        unfold joinsDigits
        split
        · rename_i heq
          cases heq
          exact absurd hd (by decide)
        · rfl
    rw [takeDigits, digit?_of_isDigit hc, hjoins]
    simp only [Bool.false_eq_true, if_false, ih hcs, List.map_cons]

theorem ofDigits_toDigits (n : Nat) : ofDigits ((Nat.toDigits 10 n).map (·.toNat - 48)) = n := by
  rw [ofDigits, List.foldl_map]
  conv => rhs; rw [← Nat.ofDigitChars_ten_toDigits (n := n), Nat.ofDigitChars_eq_foldl]
  rfl

/-- Digits have no margins and no sign. -/
theorem trimMargins_of_forall {cs : List Char} (h : ∀ c ∈ cs, Text.isDigit c = true) :
    Text.trimMargins cs = cs := by
  have hhead : ∀ c ∈ cs.head?, Text.isMargin c = false :=
    fun c hc => isMargin_of_isDigit (h c (List.mem_of_mem_head? hc))
  have hlast : ∀ c ∈ cs.reverse.head?, Text.isMargin c = false :=
    fun c hc => isMargin_of_isDigit (h c (List.mem_reverse.1 (List.mem_of_mem_head? hc)))
  rw [Text.trimMargins, Formula.dropWhile_of_head hhead, Formula.dropWhile_of_head hlast,
    List.reverse_reverse]

theorem takeSign_of_forall {cs : List Char} (h : ∀ c ∈ cs, Text.isDigit c = true) :
    takeSign cs = (false, cs) := by
  unfold takeSign
  split
  · exact absurd (h '-' (List.mem_cons_self ..)) (by decide)
  · exact absurd (h '+' (List.mem_cons_self ..)) (by decide)
  · rfl

/-- Digits are read as the number that they write, unless they are too many. -/
theorem readInt_of_digits {cs : List Char} (hne : cs ≠ [])
    (hdigits : ∀ c ∈ cs, Text.isDigit c = true) : readInt (String.ofList cs) =
      if integerDigitLimit < cs.length then none else some (ofDigits (cs.map (·.toNat - 48)) : Int) := by
  have hnumeral : readNumeral cs = some ⟨false, cs.map (·.toNat - 48)⟩ := by
    have hvalues : cs.map (·.toNat - 48) ≠ [] := by simpa using hne
    rw [readNumeral, takeSign_of_forall hdigits]
    dsimp only
    rw [takeDigits_of_forall hdigits]
    split
    · exact absurd (congrArg Prod.fst ‹_›) hvalues
    · rename_i heq
      rw [(Prod.mk.inj heq).1]
    · rename_i hsome
      exact absurd rfl (hsome _)
  rw [readInt, String.toList_ofList, trimMargins_of_forall hdigits, hnumeral]
  simp only [List.length_map, Numeral.value, Bool.false_eq_true, if_false]

/-- The digits of an index are read as the index, unless they are too many. -/
theorem readInt_toDigits (k : Nat) : readInt (String.ofList (Nat.toDigits 10 k)) =
    if integerDigitLimit < (Nat.toDigits 10 k).length then none else some (k : Int) := by
  rw [readInt_of_digits Nat.toDigits_ne_nil fun c => isDigit_of_mem_toDigits, ofDigits_toDigits]

theorem eq_of_readInt_toDigits {k : Nat} {n : Int}
    (h : readInt (String.ofList (Nat.toDigits 10 k)) = some n) : n = k := by
  rw [readInt_toDigits] at h
  split at h
  · cases h
  · exact (Option.some.inj h).symm

/-- Only the digits of a huge index are too many. -/
theorem le_of_readInt_toDigits {k : Nat} (h : readInt (String.ofList (Nat.toDigits 10 k)) = none) :
    10 ^ integerDigitLimit ≤ k := by
  rw [readInt_toDigits] at h
  split at h
  · next hlong =>
    by_contra hlt
    rw [not_le, ← Nat.length_toDigits_le_iff (by decide) (by decide)] at hlt
    omega
  · cases h

/-! ## What is left of a template -/

namespace Formula

/-- How many dice terms there are among the parts. -/
def termCount (parts : List Part) : Nat :=
  (parts.filterMap Part.term?).length

theorem termCount_append (parts parts' : List Part) :
    termCount (parts ++ parts') = termCount parts + termCount parts' := by
  simp [termCount, List.filterMap_append]

theorem termCount_plain (cs : List Char) : termCount (cs.map Part.plain) = 0 := by
  simp [termCount, List.filterMap_map, Function.comp_def, Part.term?]

/-- The digits of an index, as a place shows them. -/
def indexText (index : Nat) : String :=
  String.ofList (Nat.toDigits 10 index)

/-- The index of a place, as it is written. -/
def Token.place? : Token → Option String
  | .place index => some index
  | _ => none

/-- The characters are those of a template, perhaps with some cut off at its end that are none of a
place. -/
def LeftOf (index : Nat) (parts : List Part) (cs : List Char) : Prop :=
  ∃ tail, '_' ∉ tail ∧ cs ++ tail = templateFrom index parts

theorem templateFrom_place (index : Nat) (term : DiceTerm) (parts : List Part) :
    templateFrom index (.place term :: parts) =
      '_' :: '_' :: 'G' :: (Nat.toDigits 10 index ++ '_' :: '_' :: templateFrom (index + 1) parts) := by
  rw [templateFrom, placeText]
  simp [List.append_assoc]

/-- Characters that belong to no place are parts of their own. -/
theorem LeftOf.exists_plain {index : Nat} {taken cs : List Char} (hplace : '_' ∉ taken) :
    ∀ {parts : List Part}, LeftOf index parts (taken ++ cs) →
      ∃ parts', parts = taken.map .plain ++ parts' ∧ LeftOf index parts' cs := by
  induction taken with
  | nil => exact fun h => ⟨_, rfl, h⟩
  | cons c taken ih =>
    intro parts ⟨tail, hcut, h⟩
    rw [List.mem_cons, not_or] at hplace
    cases parts with
    | nil => cases h
    | cons part parts =>
      cases part with
      | place term =>
        rw [templateFrom_place] at h
        exact absurd (List.cons.inj h).1.symm hplace.1
      | plain d =>
        obtain ⟨rfl, htail⟩ := List.cons.inj h
        obtain ⟨parts', rfl, hleft⟩ := ih hplace.2 ⟨tail, hcut, htail⟩
        exact ⟨parts', rfl, hleft⟩

/-- Digits end where the first other character stands. -/
theorem append_underscore_inj {ds ds' rest rest' : List Char}
    (hds : ∀ c ∈ ds, Text.isDigit c = true) (hds' : ∀ c ∈ ds', Text.isDigit c = true)
    (h : ds ++ '_' :: rest = ds' ++ '_' :: rest') : ds = ds' ∧ rest = rest' := by
  have htake : ∀ {ds : List Char} (rest : List Char), (∀ c ∈ ds, Text.isDigit c = true) →
      (ds ++ '_' :: rest).takeWhile Text.isDigit = ds := by
    intro ds rest hds
    rw [List.takeWhile_append_of_pos hds, List.takeWhile_cons_of_neg (by decide), List.append_nil]
  obtain rfl : ds = ds' := by rw [← htake rest hds, h, htake rest' hds']
  exact ⟨rfl, (List.cons.inj (List.append_cancel_left h)).2⟩

/-- A place of the template is read with its index. -/
theorem LeftOf.exists_place {index : Nat} {g : Char} {digits rest : List Char} {parts : List Part}
    (h : LeftOf index parts ('_' :: '_' :: g :: (digits ++ ['_', '_']) ++ rest))
    (hdigits : ∀ c ∈ digits, Text.isDigit c = true)
    (hallowed : ∀ part ∈ parts, part.isAllowed = true) :
    ∃ term parts', parts = .place term :: parts' ∧ String.ofList digits = indexText index ∧
      LeftOf (index + 1) parts' rest := by
  obtain ⟨tail, hcut, h⟩ := h
  cases parts with
  | nil => cases h
  | cons part parts =>
    cases part with
    | plain c =>
      obtain ⟨rfl, -⟩ := List.cons.inj h
      exact absurd (hallowed _ (List.mem_cons_self ..)) (by decide)
    | place term =>
      rw [templateFrom_place] at h
      simp only [List.cons_append, List.append_assoc, List.cons.injEq, true_and] at h
      obtain ⟨rfl, hrest⟩ := append_underscore_inj hdigits (fun c => isDigit_of_mem_toDigits) h.2
      exact ⟨term, parts, rfl, rfl, tail, hcut, (List.cons.inj hrest).2⟩

/-- A lexeme of a template leaves a template of later parts, and if it takes a place it has its index. -/
theorem leftOf_of_lexeme? {index : Nat} {cs rest : List Char} {token : Token} {parts : List Part}
    (h : LeftOf index parts cs) (hallowed : ∀ part ∈ parts, part.isAllowed = true)
    (hlex : lexeme? cs = some (token, rest)) :
    ∃ front parts', parts = front ++ parts' ∧ LeftOf (index + termCount front) parts' rest ∧
      token.place?.toList = (List.range' index (termCount front)).map indexText := by
  obtain ⟨taken, more, hlexeme, -, rfl⟩ := lexeme?_eq_some.1 hlex
  have hplain (hplace : '_' ∉ taken) (htoken : token.place? = none) :
      ∃ front parts', parts = front ++ parts' ∧ LeftOf (index + termCount front) parts' rest ∧
        token.place?.toList = (List.range' index (termCount front)).map indexText := by
    obtain ⟨parts', hparts, hleft⟩ := h.exists_plain hplace
    refine ⟨_, parts', hparts, ?_, ?_⟩
    · rwa [termCount_plain]
    · rw [termCount_plain, htoken]
      rfl
  cases hlexeme with
  | whole _ hdigits => exact hplain (notMem_of_forall (by decide) hdigits) rfl
  | decimal _ hdigits hplaces =>
    have hwhole := notMem_of_forall (c := '_') (by decide) hdigits
    have hrest := notMem_of_forall (c := '_') (by decide) hplaces
    exact hplain (by simp [hwhole, hrest]) rfl
  | name _ hletters => exact hplain (notMem_of_forall (by decide) hletters) rfl
  | place _ _ hindex =>
    obtain ⟨term, parts', rfl, hdigits, hleft⟩ := h.exists_place hindex hallowed
    exact ⟨[.place term], parts', rfl, hleft, congrArg (fun index => [index]) hdigits⟩
  | symbol hsymbol =>
    refine hplain ?_ ?_
    · rw [List.mem_singleton]
      rintro rfl
      cases hsymbol
    · unfold symbol? at hsymbol
      split at hsymbol <;> cases hsymbol <;> rfl

theorem termCount_eq_zero {index : Nat} {parts : List Part} (h : '_' ∉ templateFrom index parts) :
    termCount parts = 0 := by
  induction parts with
  | nil => rfl
  | cons part parts ih =>
    cases part with
    | plain c => exact ih fun hmem => h (List.mem_cons_of_mem _ hmem)
    | place term =>
      rw [templateFrom_place] at h
      exact absurd (List.mem_cons_self ..) h

/-- The places among the tokens of a template are numbered one after the other. -/
theorem places_of_scan {position : Nat} {cs : List Char} {tokens : List Token}
    (hscan : scan position cs = .ok tokens) {index : Nat} {parts : List Part}
    (h : LeftOf index parts cs) (hallowed : ∀ part ∈ parts, part.isAllowed = true) :
    tokens.filterMap Token.place? = (List.range' index (termCount parts)).map indexText := by
  fun_induction scan position cs generalizing tokens index parts with
  | case1 =>
    cases hscan
    obtain ⟨tail, hcut, rfl⟩ := h
    rw [termCount_eq_zero hcut]
    rfl
  | case2 => cases hscan
  | case3 position c tail token rest hlex _ tokens' hrest ih =>
    cases hscan
    have hspace : LeftOf index parts
        ((c :: tail).takeWhile Text.isSpace ++ (c :: tail).dropWhile Text.isSpace) := by
      rwa [List.takeWhile_append_dropWhile]
    obtain ⟨parts', rfl, hleft⟩ := hspace.exists_plain
      (notMem_of_forall (p := Text.isSpace) (by decide) fun c hc => List.mem_takeWhile_imp hc)
    rw [List.forall_mem_append] at hallowed
    obtain ⟨front, parts'', rfl, hleft, hplace⟩ := leftOf_of_lexeme? hleft hallowed.2 hlex
    rw [List.forall_mem_append] at hallowed
    have hfirst : (token :: tokens').filterMap Token.place? =
        token.place?.toList ++ tokens'.filterMap Token.place? := by
      rw [List.filterMap_cons]
      cases token.place? <;> rfl
    rw [hfirst, hplace, ih hrest hleft hallowed.2.2, ← List.map_append, termCount_append,
      termCount_append, termCount_plain, Nat.zero_add, List.range'_append_1]
  | case4 => cases hscan

theorem mem_of_mem_tagSplices {previous : Option Token} {tokens : List Token} {token : Token}
    (hne : token ≠ .splice) (h : token ∈ tagSplicesAfter previous tokens) : token ∈ tokens := by
  induction tokens generalizing previous with
  | nil => cases h
  | cons first tokens ih =>
    rcases List.mem_cons.1 h with heq | h
    · split at heq
      · exact absurd heq hne
      · exact heq ▸ List.mem_cons_self ..
    · exact List.mem_cons_of_mem _ (ih h)

/-- What has been compiled: the dice terms and the template of the same parts, of which a dry run
has succeeded. -/
theorem exists_parts_of_compile {formula : String} {compiled : Compiled}
    (h : compile formula = .ok compiled) :
    ∃ parts, partsOf formula = .ok parts ∧ compiled.terms = parts.filterMap Part.term? ∧
      compiled.template = String.ofList (templateFrom 0 parts) ∧
      (∀ part ∈ parts, part.isAllowed = true) ∧
      ∃ amount, evaluate .dryRun compiled.template = .ok amount := by
  obtain ⟨parts, hparts, h⟩ := bind_eq_ok.1 h
  refine ⟨parts, hparts, ?_⟩
  dsimp only at h
  split at h
  · cases h
  split at h
  · cases h
  · rename_i hallowed
    rw [Bool.not_eq_true, Bool.not_eq_false', List.all_eq_true] at hallowed
    split at h
    · rename_i amount hdry
      cases h
      exact ⟨rfl, rfl, hallowed, amount, hdry⟩
    · cases h
    · cases h

theorem places_of_templateFrom {parts : List Part}
    (hallowed : ∀ part ∈ parts, part.isAllowed = true) {tokens : List Token}
    (htokens : tokenize (String.ofList (templateFrom 0 parts)) = .ok tokens) :
    tokens.filterMap Token.place? = (List.range (termCount parts)).map indexText := by
  rw [tokenize, String.toList_ofList] at htokens
  obtain ⟨tail, hblank, htail⟩ := Text.trimEnd_append (templateFrom 0 parts)
  have hcut : '_' ∉ tail := notMem_of_forall (p := Text.isBlank) (by decide) hblank
  rw [places_of_scan htokens ⟨tail, hcut, htail⟩ hallowed, List.range_eq_range']

/-- The places among the tokens of a compiled template are those of the formula's terms, in order. -/
theorem places_of_compile {formula : String} {compiled : Compiled}
    (h : compile formula = .ok compiled) {tokens : List Token}
    (htokens : tokenize compiled.template = .ok tokens) :
    tokens.filterMap Token.place? = (List.range compiled.terms.length).map indexText := by
  obtain ⟨parts, -, hterms, htemplate, hallowed, -⟩ := exists_parts_of_compile h
  rw [htemplate] at htokens
  rw [places_of_templateFrom hallowed htokens, hterms, termCount]

/-- Every place in a compiled template is that of one of the formula's terms. -/
theorem exists_index_of_place {formula : String} {compiled : Compiled}
    (h : compile formula = .ok compiled) {tokens : List Token}
    (htokens : tokenize compiled.template = .ok tokens) {i : String}
    (hi : .place i ∈ tagSplices tokens) :
    ∃ k < compiled.terms.length, i = indexText k := by
  have hmem : i ∈ tokens.filterMap Token.place? :=
    List.mem_filterMap.2 ⟨.place i, mem_of_mem_tagSplices nofun hi, rfl⟩
  rw [places_of_compile h htokens] at hmem
  obtain ⟨k, hk, rfl⟩ := List.mem_map.1 hmem
  exact ⟨k, List.mem_range.1 hk, rfl⟩

theorem isDigit_of_lexeme? {cs rest : List Char} {digits : String}
    (h : lexeme? cs = some (.number digits, rest)) :
    ∃ c, digits.toList.head? = some c ∧ Text.isDigit c = true := by
  obtain ⟨taken, more, hlex, -, rfl⟩ := lexeme?_eq_some.1 h
  cases hlex with
  | whole hne hdigits =>
    obtain ⟨c, taken, rfl⟩ := List.exists_cons_of_ne_nil hne
    exact ⟨c, by rw [String.toList_ofList]; rfl, hdigits c (List.mem_cons_self ..)⟩
  | decimal hne hdigits _ =>
    obtain ⟨c, whole, rfl⟩ := List.exists_cons_of_ne_nil hne
    exact ⟨c, by rw [String.toList_ofList]; rfl, hdigits c (List.mem_cons_self ..)⟩
  | symbol hsymbol =>
    unfold symbol? at hsymbol
    split at hsymbol <;> cases hsymbol

/-- A number begins with a digit. -/
theorem isDigit_of_number {position : Nat} {cs : List Char} {tokens : List Token}
    (hscan : scan position cs = .ok tokens) {digits : String} (h : .number digits ∈ tokens) :
    ∃ c, digits.toList.head? = some c ∧ Text.isDigit c = true := by
  fun_induction scan position cs generalizing tokens with
  | case1 =>
    cases hscan
    cases h
  | case2 => cases hscan
  | case3 position c tail token rest hlex _ tokens' hrest ih =>
    cases hscan
    rcases List.mem_cons.1 h with rfl | h
    · exact isDigit_of_lexeme? hlex
    · exact ih hrest h
  | case4 => cases hscan

end Formula

end RollTray
