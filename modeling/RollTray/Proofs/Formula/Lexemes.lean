import RollTray.Proofs.Formula.Pieces

/-!
# Lexemes and the text around them

The first lexeme of a text is one that stands there and does not go on (`lexeme?_eq_some`). Apart from
places, what a lexeme would go on with joins all of its characters (`Joins`), so that a lexeme can only
go on from one text into another where the characters on both sides join (`ReadsAs.append`).

`ReadsAs` is reading without the positions and the blanks at the end: an expression that has no other
blanks than white space has the tokens that it reads as (`tokenize_eq_ok`).
-/

namespace RollTray

theorem toNat_of_isDigit {c : Char} (h : Text.isDigit c = true) : 48 ≤ c.toNat ∧ c.toNat ≤ 57 := by
  simpa [Text.isDigit, Char.le_def, UInt32.le_iff_toNat_le] using h

namespace Text

theorem toNat_of_isCapital {c : Char} (h : ('A' ≤ c && c ≤ 'Z') = true) :
    65 ≤ c.toNat ∧ c.toNat ≤ 90 ∧ (toLowerAscii c).toNat = c.toNat + 32 := by
  have hlower : toLowerAscii c = Char.ofNat (c.toNat + 32) := if_pos h
  rw [Bool.and_eq_true, decide_eq_true_iff, decide_eq_true_iff, Char.le_def, Char.le_def,
    UInt32.le_iff_toNat_le, UInt32.le_iff_toNat_le] at h
  have hleast : 65 ≤ c.toNat := h.1
  have hmost : c.toNat ≤ 90 := h.2
  refine ⟨hleast, hmost, ?_⟩
  have hvalid : (c.toNat + 32).isValidChar := .inl (by omega)
  rw [hlower, Char.ofNat, dif_pos hvalid]
  rfl

/-- Digits, and only they, are digits in small letters. -/
theorem isDigit_toLowerAscii (c : Char) : isDigit (toLowerAscii c) = isDigit c := by
  by_cases h : ('A' ≤ c && c ≤ 'Z') = true
  · obtain ⟨hleast, -, hlower⟩ := toNat_of_isCapital h
    have hnot : ∀ d : Char, 65 ≤ d.toNat → isDigit d = false := fun d hd => by
      rw [Bool.eq_false_iff]
      intro hdigit
      have hmost := (toNat_of_isDigit hdigit).2
      omega
    rw [hnot c hleast, hnot _ (by omega)]
  · rw [show toLowerAscii c = c from if_neg h]

end Text

namespace Formula

/-- A character of numbers. -/
def isNumeric (c : Char) : Bool :=
  Text.isDigit c || c = '.'

/-- Two characters that are of one number or of one name where they stand next to each other. -/
def Joins (c d : Char) : Prop :=
  isNumeric c = true ∧ isNumeric d = true ∨ Text.isLetter c = true ∧ Text.isLetter d = true

/-- What a lexeme takes from a text, its token, and the characters that it would take as well. -/
inductive IsLexeme : List Char → Token → (Char → Bool) → Prop
  | whole {digits : List Char} (hne : digits ≠ []) (hdigits : ∀ c ∈ digits, Text.isDigit c = true) :
      IsLexeme digits (.number (String.ofList digits)) isNumeric
  | decimal {digits places : List Char} (hne : digits ≠ [])
      (hdigits : ∀ c ∈ digits, Text.isDigit c = true)
      (hplaces : ∀ c ∈ places, Text.isDigit c = true) :
      IsLexeme (digits ++ '.' :: places) (.number (String.ofList (digits ++ '.' :: places)))
        Text.isDigit
  | name {letters : List Char} (hne : letters ≠ [])
      (hletters : ∀ c ∈ letters, Text.isLetter c = true) :
      IsLexeme letters (.name (String.ofList (letters.map Text.toLowerAscii))) Text.isLetter
  | place {g : Char} {index : List Char} (hg : g = 'G' ∨ g = 'g') (hne : index ≠ [])
      (hindex : ∀ c ∈ index, Text.isDigit c = true) :
      IsLexeme ('_' :: '_' :: g :: (index ++ ['_', '_'])) (.place (String.ofList index))
        fun _ => false
  | symbol {c : Char} {token : Token} (h : symbol? c = some token) :
      IsLexeme [c] token fun _ => false

theorem isDigit_of_not_isNumeric {c : Char} (h : isNumeric c = false) :
    Text.isDigit c = false ∧ c ≠ '.' := by
  rwa [isNumeric, Bool.or_eq_false_iff, decide_eq_false_iff_not] at h

theorem takeNumber_whole {digits rest : List Char} (hdigits : ∀ c ∈ digits, Text.isDigit c = true)
    (hrest : ∀ c ∈ rest.head?, isNumeric c = false) : takeNumber (digits ++ rest) = (digits, rest) := by
  have hhead : ∀ c ∈ rest.head?, Text.isDigit c = false :=
    fun c hc => (isDigit_of_not_isNumeric (hrest c hc)).1
  unfold takeNumber
  rw [List.takeWhile_append_of_pos hdigits, List.dropWhile_append_of_pos hdigits,
    takeWhile_of_head hhead, dropWhile_of_head hhead, List.append_nil]
  split
  · exact absurd rfl (isDigit_of_not_isNumeric (hrest '.' rfl)).2
  · rfl

theorem takeNumber_decimal {digits places rest : List Char}
    (hdigits : ∀ c ∈ digits, Text.isDigit c = true) (hplaces : ∀ c ∈ places, Text.isDigit c = true)
    (hrest : ∀ c ∈ rest.head?, Text.isDigit c = false) :
    takeNumber (digits ++ '.' :: (places ++ rest)) = (digits ++ '.' :: places, rest) := by
  have htail : ('.' :: (places ++ rest)).dropWhile Text.isDigit = '.' :: (places ++ rest) := rfl
  have hfront : ('.' :: (places ++ rest)).takeWhile Text.isDigit = [] := rfl
  unfold takeNumber
  rw [List.takeWhile_append_of_pos hdigits, List.dropWhile_append_of_pos hdigits, htail, hfront,
    List.append_nil]
  split
  · next heq =>
    obtain ⟨-, rfl⟩ := List.cons.inj heq
    rw [List.takeWhile_append_of_pos hplaces, List.dropWhile_append_of_pos hplaces,
      takeWhile_of_head hrest, dropWhile_of_head hrest, List.append_nil]
  · next hno => exact absurd rfl (hno _)

/-- A number is taken where it stands and ends. -/
theorem exists_of_takeNumber {c : Char} (hc : Text.isDigit c = true) (cs : List Char) :
    ∃ more, IsLexeme (takeNumber (c :: cs)).1 (.number (String.ofList (takeNumber (c :: cs)).1)) more ∧
      ∀ d ∈ (takeNumber (c :: cs)).2.head?, more d = false := by
  have hdigits : ∀ d ∈ (c :: cs).takeWhile Text.isDigit, Text.isDigit d = true :=
    fun d hd => List.mem_takeWhile_imp hd
  have hne : (c :: cs).takeWhile Text.isDigit ≠ [] := by simp [hc]
  have hhead := head_of_dropWhile (p := Text.isDigit) (c :: cs)
  unfold takeNumber
  dsimp only
  split
  · next rest heq =>
    exact ⟨_, .decimal hne hdigits fun d hd => List.mem_takeWhile_imp hd, head_of_dropWhile rest⟩
  · next hno =>
    refine ⟨_, .whole hne hdigits, fun d hd => ?_⟩
    obtain ⟨rest, heq⟩ := List.head?_eq_some_iff.1 hd
    have hpoint : d ≠ '.' := by
      rintro rfl
      exact hno rest heq
    simp [isNumeric, hhead d hd, hpoint]

theorem ne_nil_of_takePlace? {cs index rest : List Char} (h : takePlace? cs = some (index, rest)) :
    index ≠ [] := by
  unfold takePlace? at h
  split at h
  · cases h
  · cases h
    assumption
  · cases h

theorem isDigit_of_isLetter {c : Char} (h : Text.isLetter c = true) : Text.isDigit c = false := by
  rw [Bool.eq_false_iff]
  intro hdigit
  have hle := (toNat_of_isDigit hdigit).2
  simp only [Text.isLetter, Char.le_def, UInt32.le_iff_toNat_le, Bool.or_eq_true, Bool.and_eq_true,
    decide_eq_true_iff] at h
  rcases h with ⟨h, -⟩ | ⟨h, -⟩
  · exact absurd (h.trans hle) (by decide)
  · exact absurd (h.trans hle) (by decide)

theorem takePlace?_eq {index : List Char} (hne : index ≠ [])
    (hindex : ∀ c ∈ index, Text.isDigit c = true) (rest : List Char) :
    takePlace? (index ++ '_' :: '_' :: rest) = some (index, rest) := by
  have htail : ('_' :: '_' :: rest).dropWhile Text.isDigit = '_' :: '_' :: rest := rfl
  have hfront : ('_' :: '_' :: rest).takeWhile Text.isDigit = [] := rfl
  unfold takePlace?
  rw [List.takeWhile_append_of_pos hindex, List.dropWhile_append_of_pos hindex, htail, hfront,
    List.append_nil]
  split
  · exact absurd rfl hne
  · next heq =>
    obtain ⟨-, htwo⟩ := List.cons.inj heq
    rw [(List.cons.inj htwo).2]
  · next hno => exact absurd rfl (hno _)

theorem isDigit_of_takePlace? {cs index rest : List Char} (h : takePlace? cs = some (index, rest)) :
    ∀ c ∈ index, Text.isDigit c = true := by
  have htaken : ∀ c ∈ cs.takeWhile Text.isDigit, Text.isDigit c = true :=
    fun c hc => List.mem_takeWhile_imp hc
  rw [takePlace?] at h
  generalize cs.takeWhile Text.isDigit = front at h htaken
  split at h
  · cases h
  · cases h
    exact htaken
  · cases h

theorem exists_isLexeme {cs rest : List Char} {token : Token} (h : lexeme? cs = some (token, rest)) :
    ∃ taken more, IsLexeme taken token more ∧ (∀ c ∈ rest.head?, more c = false) ∧
      cs = taken ++ rest := by
  cases cs with
  | nil => cases h
  | cons c cs =>
    rw [lexeme?] at h
    split at h
    · next hc =>
      cases h
      obtain ⟨more, hlex, hmore⟩ := exists_of_takeNumber hc cs
      exact ⟨_, more, hlex, hmore, (takeNumber_append _).symm⟩
    split at h
    · next hc =>
      cases h
      refine ⟨_, _, .name (by simp [hc]) fun d hd => List.mem_takeWhile_imp hd,
        head_of_dropWhile _, List.takeWhile_append_dropWhile.symm⟩
    split at h
    · rw [takePlaceToken?.eq_def] at h
      split at h
      · next g tail heq =>
        split at h
        · next hg =>
          obtain ⟨⟨index, rest'⟩, hfound, heq'⟩ := Option.map_eq_some_iff.1 h
          cases heq'
          refine ⟨_, _, .place (by simpa using hg) (ne_nil_of_takePlace? hfound)
            (isDigit_of_takePlace? hfound), fun _ _ => rfl, ?_⟩
          rw [heq, ← takePlace?_append hfound]
          simp
        · cases h
      · cases h
    · obtain ⟨symbol, hsymbol, heq⟩ := Option.map_eq_some_iff.1 h
      cases heq
      exact ⟨[c], _, .symbol hsymbol, fun _ _ => rfl, rfl⟩

theorem IsLexeme.lexeme?_eq {taken rest : List Char} {token : Token} {more : Char → Bool}
    (h : IsLexeme taken token more) (hmore : ∀ c ∈ rest.head?, more c = false) :
    lexeme? (taken ++ rest) = some (token, rest) := by
  cases h with
  | whole hne hdigits =>
    have htake := takeNumber_whole hdigits hmore
    obtain ⟨c, digits, rfl⟩ := List.exists_cons_of_ne_nil hne
    rw [List.cons_append] at htake ⊢
    rw [lexeme?, if_pos (hdigits c (List.mem_cons_self ..)), htake]
  | @decimal digits places hne hdigits hplaces =>
    have htake := takeNumber_decimal hdigits hplaces hmore
    rw [← List.cons_append, ← List.append_assoc] at htake
    obtain ⟨c, digits, rfl⟩ := List.exists_cons_of_ne_nil hne
    rw [List.cons_append, List.cons_append] at htake ⊢
    rw [lexeme?, if_pos (hdigits c (List.mem_cons_self ..)), htake]
  | name hne hletters =>
    obtain ⟨c, letters, rfl⟩ := List.exists_cons_of_ne_nil hne
    have hc := hletters c (List.mem_cons_self ..)
    have hdigit := isDigit_of_isLetter hc
    have htake : (c :: letters ++ rest).takeWhile Text.isLetter =
        c :: letters ++ rest.takeWhile Text.isLetter :=
      List.takeWhile_append_of_pos hletters
    have hdrop : (c :: letters ++ rest).dropWhile Text.isLetter = rest.dropWhile Text.isLetter :=
      List.dropWhile_append_of_pos hletters
    rw [takeWhile_of_head hmore, List.append_nil, List.cons_append] at htake
    rw [dropWhile_of_head hmore, List.cons_append] at hdrop
    rw [List.cons_append, lexeme?, if_neg (by simp [hdigit]), if_pos hc, htake, hdrop]
  | @place g index hg hne hindex =>
    have hplace := takePlace?_eq hne hindex rest
    have hg : (decide (g = 'G') || decide (g = 'g')) = true := by simpa using hg
    have hcs : '_' :: '_' :: g :: (index ++ ['_', '_']) ++ rest =
        '_' :: '_' :: g :: (index ++ '_' :: '_' :: rest) := by simp
    rw [hcs, lexeme?, if_neg (by decide), if_neg (by decide), if_pos rfl, takePlaceToken?, if_pos hg,
      hplace]
    rfl
  | symbol h =>
    rename_i c
    have hclass : Text.isDigit c = false ∧ Text.isLetter c = false ∧ c ≠ '_' := by
      unfold symbol? at h
      split at h <;> first | decide | cases h
    rw [List.singleton_append, lexeme?, if_neg (by simp [hclass]), if_neg (by simp [hclass]),
      if_neg hclass.2.2, h]
    rfl

/-- A lexeme is taken where it stands and ends. -/
theorem lexeme?_eq_some {cs rest : List Char} {token : Token} :
    lexeme? cs = some (token, rest) ↔ ∃ taken more, IsLexeme taken token more ∧
      (∀ c ∈ rest.head?, more c = false) ∧ cs = taken ++ rest := by
  refine ⟨exists_isLexeme, ?_⟩
  rintro ⟨taken, more, hlex, hmore, rfl⟩
  exact hlex.lexeme?_eq hmore

/-- A word has no blanks in it. -/
theorem isBlank_of_isWord {c : Char} (h : Text.isWord c = true) : Text.isBlank c = false := by
  have hspace := isSpace_of_isWord h
  have hrange : 48 ≤ c.toNat ∧ c.toNat ≤ 122 := by
    simp only [Text.isWord, Text.isLetter, Text.isDigit, Char.le_def, UInt32.le_iff_toNat_le,
      Bool.or_eq_true, Bool.and_eq_true, decide_eq_true_iff] at h
    rcases h with ((⟨hlow, hhigh⟩ | ⟨hlow, hhigh⟩) | ⟨hlow, hhigh⟩) | rfl
    · exact ⟨le_trans (by decide) hlow, le_trans hhigh (by decide)⟩
    · exact ⟨le_trans (by decide) hlow, le_trans hhigh (by decide)⟩
    · exact ⟨le_trans (by decide) hlow, le_trans hhigh (by decide)⟩
    · decide
  simp [Text.isBlank, hspace]
  omega

theorem notMem_of_forall {p : Char → Bool} {c : Char} (h : p c = false) {cs : List Char}
    (hcs : ∀ c ∈ cs, p c = true) : c ∉ cs :=
  fun hmem => by rw [hcs _ hmem] at h; cases h

namespace IsLexeme

variable {taken front back : List Char} {token : Token} {more : Char → Bool}

theorem ne_nil (h : IsLexeme taken token more) : taken ≠ [] := by
  cases h with
  | whole hne _ => exact hne
  | decimal hne _ _ => simp
  | name hne _ => exact hne
  | place _ _ _ => simp
  | symbol _ => simp

theorem joins_or_place (h : IsLexeme taken token more) :
    (∀ c ∈ taken, isNumeric c = true) ∧ (∀ c, more c = true → isNumeric c = true) ∨
      (∀ c ∈ taken, Text.isLetter c = true) ∧ (∀ c, more c = true → Text.isLetter c = true) ∨
        (∀ c, more c = false) ∧ (taken.length = 1 ∨ '_' ∈ taken.head?) := by
  cases h with
  | whole _ hdigits => exact .inl ⟨fun c hc => by simp [isNumeric, hdigits c hc], fun _ => id⟩
  | decimal _ hdigits hplaces =>
    refine .inl ⟨fun c hc => ?_, fun c hc => by simp [isNumeric, hc]⟩
    rcases List.mem_append.1 hc with hc | hc
    · simp [isNumeric, hdigits c hc]
    rcases List.mem_cons.1 hc with rfl | hc
    · rfl
    · simp [isNumeric, hplaces c hc]
  | name _ hletters => exact .inr (.inl ⟨hletters, fun _ => id⟩)
  | place _ _ _ => exact .inr (.inr ⟨fun _ => rfl, .inr rfl⟩)
  | symbol _ => exact .inr (.inr ⟨fun _ => rfl, .inl rfl⟩)

/-- A lexeme goes on with what joins its characters. -/
theorem joins_of_more (h : IsLexeme taken token more) {c d : Char} (hc : c ∈ taken)
    (hd : more d = true) : Joins c d := by
  rcases h.joins_or_place with ⟨hall, hmore⟩ | ⟨hall, hmore⟩ | ⟨hmore, -⟩
  · exact .inl ⟨hall c hc, hmore d hd⟩
  · exact .inr ⟨hall c hc, hmore d hd⟩
  · rw [hmore d] at hd
    cases hd

/-- The characters of a lexeme join each other, if it is no place. -/
theorem joins_of_append (h : IsLexeme (front ++ back) token more) (hplace : '_' ∉ front.head?)
    {c d : Char} (hc : c ∈ front) (hd : d ∈ back) : Joins c d := by
  rcases h.joins_or_place with ⟨hall, -⟩ | ⟨hall, -⟩ | ⟨-, hone | hunderscore⟩
  · exact .inl ⟨hall c (List.mem_append_left _ hc), hall d (List.mem_append_right _ hd)⟩
  · exact .inr ⟨hall c (List.mem_append_left _ hc), hall d (List.mem_append_right _ hd)⟩
  · have hfront := List.length_pos_of_mem hc
    have hback := List.length_pos_of_mem hd
    rw [List.length_append] at hone
    omega
  · obtain ⟨first, front, rfl⟩ := List.exists_cons_of_ne_nil (List.ne_nil_of_mem hc)
    exact absurd hunderscore hplace

theorem underscore_notMem (h : IsLexeme taken token more) (hplace : '_' ∉ taken.head?) : '_' ∉ taken := by
  rcases h.joins_or_place with ⟨hall, -⟩ | ⟨hall, -⟩ | ⟨-, hone | hunderscore⟩
  · exact notMem_of_forall (by decide) hall
  · exact notMem_of_forall (by decide) hall
  · obtain ⟨c, rfl⟩ := List.length_eq_one_iff.1 hone
    simpa [eq_comm] using hplace
  · exact absurd hunderscore hplace

/-- A lexeme begins with no white space, and one that begins like a word may be first in an operand. -/
theorem of_head (h : IsLexeme taken token more) {c : Char} (hc : c ∈ taken.head?) :
    Text.isSpace c = false ∧ (Text.isWord c = true → token.startsOperand = true) := by
  have hword : ∀ {cs : List Char}, cs ≠ [] → (∀ d ∈ cs, Text.isWord d = true) →
      ∀ {cs' : List Char}, c ∈ (cs ++ cs').head? → Text.isSpace c = false := by
    intro cs hne hcs cs' hc
    obtain ⟨d, cs, rfl⟩ := List.exists_cons_of_ne_nil hne
    cases hc
    exact isSpace_of_isWord (hcs c (List.mem_cons_self ..))
  cases h with
  | whole hne hdigits =>
    rw [← List.append_nil taken] at hc
    exact ⟨hword hne (fun d hd => isWord_of_isDigit (hdigits d hd)) hc, fun _ => rfl⟩
  | decimal hne hdigits _ =>
    exact ⟨hword hne (fun d hd => isWord_of_isDigit (hdigits d hd)) hc, fun _ => rfl⟩
  | name hne hletters =>
    rw [← List.append_nil taken] at hc
    exact ⟨hword hne (fun d hd => isWord_of_isLetter (hletters d hd)) hc, fun _ => rfl⟩
  | place _ _ _ =>
    cases hc
    exact ⟨rfl, fun _ => rfl⟩
  | symbol h =>
    cases hc
    unfold symbol? at h
    split at h <;> first | exact ⟨rfl, nofun⟩ | cases h

/-- A lexeme that ends in a digit or an underscore may be last in an operand. -/
theorem endsOperand (h : IsLexeme taken token more) {c : Char} (hc : c ∈ taken.getLast?)
    (hlast : Text.isDigit c = true ∨ c = '_') : token.endsOperand = true := by
  cases h with
  | whole _ _ => rfl
  | decimal _ _ _ => rfl
  | name _ hletters =>
    have hletter := hletters c (List.mem_of_getLast? hc)
    rcases hlast with hdigit | rfl
    · rw [isDigit_of_isLetter hletter] at hdigit
      cases hdigit
    · cases hletter
  | place _ _ _ => rfl
  | symbol h =>
    cases hc
    unfold symbol? at h
    split at h <;> first | exact absurd hlast (by decide) | cases h

/-- A lexeme is made of characters that are no blanks. -/
theorem isBlank_eq (h : IsLexeme taken token more) : ∀ c ∈ taken, Text.isBlank c = false := by
  have hdigit : ∀ {cs : List Char}, (∀ c ∈ cs, Text.isDigit c = true) →
      ∀ c ∈ cs, Text.isBlank c = false :=
    fun hcs c hc => isBlank_of_isWord (isWord_of_isDigit (hcs c hc))
  cases h with
  | whole _ hdigits => exact hdigit hdigits
  | decimal _ hdigits hplaces =>
    exact List.forall_mem_append.2 ⟨hdigit hdigits, List.forall_mem_cons.2 ⟨rfl, hdigit hplaces⟩⟩
  | name _ hletters => exact fun c hc => isBlank_of_isWord (isWord_of_isLetter (hletters c hc))
  | place hg _ hindex =>
    have hmarks : ∀ c ∈ ['_', '_'], Text.isBlank c = false :=
      List.forall_mem_cons.2 ⟨rfl, List.forall_mem_singleton.2 rfl⟩
    refine List.forall_mem_cons.2 ⟨rfl, List.forall_mem_cons.2 ⟨rfl, List.forall_mem_cons.2 ⟨?_,
      List.forall_mem_append.2 ⟨hdigit hindex, hmarks⟩⟩⟩⟩
    rcases hg with rfl | rfl <;> rfl
  | symbol h =>
    refine List.forall_mem_singleton.2 ?_
    unfold symbol? at h
    split at h <;> first | rfl | cases h

theorem isSpace_eq (h : IsLexeme taken token more) : ∀ c ∈ taken, Text.isSpace c = false := by
  refine fun c hc => Bool.eq_false_iff.2 fun hspace => ?_
  have hblank := h.isBlank_eq c hc
  rw [Text.isBlank_of_isSpace hspace] at hblank
  cases hblank

end IsLexeme

theorem lexeme?_of_isSpace {c : Char} (h : Text.isSpace c = true) (cs : List Char) :
    lexeme? (c :: cs) = none := by
  refine Option.eq_none_iff_forall_ne_some.2 fun ⟨token, rest⟩ hlex => ?_
  obtain ⟨taken, more, hlex, -, heq⟩ := lexeme?_eq_some.1 hlex
  obtain ⟨d, taken, rfl⟩ := List.exists_cons_of_ne_nil hlex.ne_nil
  obtain ⟨rfl, -⟩ := List.cons.inj heq
  rw [(hlex.of_head rfl).1] at h
  cases h

/-! ## Texts that read as tokens -/

/-- The text reads as these tokens, wherever there is white space between them. -/
inductive ReadsAs : List Char → List Token → Prop
  | nil : ReadsAs [] []
  | space {c : Char} {cs : List Char} {tokens : List Token} (h : Text.isSpace c = true)
      (tail : ReadsAs cs tokens) : ReadsAs (c :: cs) tokens
  | lexeme {cs rest : List Char} {token : Token} {tokens : List Token}
      (h : lexeme? cs = some (token, rest)) (tail : ReadsAs rest tokens) : ReadsAs cs (token :: tokens)

namespace ReadsAs

variable {cs cs' spaces : List Char} {tokens tokens' : List Token}

/-- White space in front is nothing to read. -/
theorem spaces_append (hspaces : ∀ c ∈ spaces, Text.isSpace c = true) :
    ReadsAs (spaces ++ cs) tokens ↔ ReadsAs cs tokens := by
  induction spaces with
  | nil => rfl
  | cons c spaces ih =>
    obtain ⟨hc, hspaces⟩ := List.forall_mem_cons.1 hspaces
    rw [List.cons_append, ← ih hspaces]
    refine ⟨fun h => ?_, .space hc⟩
    cases h with
    | space _ tail => exact tail
    | lexeme h _ => cases (lexeme?_of_isSpace hc _).symm.trans h

/-- Two texts with their tokens, where no lexeme of the one goes on in the other. -/
theorem append (h : ReadsAs cs tokens) (h' : ReadsAs cs' tokens')
    (hseam : ∀ c ∈ cs.getLast?, ∀ d ∈ cs'.head?, ¬Joins c d) : ReadsAs (cs ++ cs') (tokens ++ tokens') := by
  induction h with
  | nil => exact h'
  | @space c cs tokens hc tail ih =>
    exact .space hc (ih fun d hd => hseam d (mem_getLast?_cons hd))
  | @lexeme cs rest token tokens h tail ih =>
    obtain ⟨taken, more, hlex, hmore, rfl⟩ := lexeme?_eq_some.1 h
    refine .lexeme (lexeme?_eq_some.2 ⟨taken, more, hlex, ?_, List.append_assoc ..⟩) (ih ?_)
    · -- Only the last lexeme of the one text has the other one right after it.
      intro d hd
      by_cases hrest : rest = []
      · subst hrest
        rw [Bool.eq_false_iff]
        intro hd'
        rw [List.append_nil] at hseam
        have hlast := List.getLast?_eq_some_getLast hlex.ne_nil
        exact hseam _ hlast d hd (hlex.joins_of_more (List.getLast_mem _) hd')
      · obtain ⟨first, rest, rfl⟩ := List.exists_cons_of_ne_nil hrest
        exact hmore d hd
    · exact fun c hc => hseam c (List.mem_getLast?_append_of_mem_getLast? hc)

/-- The first token of a text that begins like a word. -/
theorem exists_startsOperand (h : ReadsAs cs tokens) {c : Char} (hc : c ∈ cs.head?)
    (hword : Text.isWord c = true) : ∃ first rest, tokens = first :: rest ∧
      first.startsOperand = true := by
  cases h with
  | nil => cases hc
  | space hspace _ =>
    cases hc
    rw [isSpace_of_isWord hword] at hspace
    cases hspace
  | @lexeme _ rest token tokens h _ =>
    obtain ⟨taken, more, hlex, -, rfl⟩ := lexeme?_eq_some.1 h
    obtain ⟨d, taken, rfl⟩ := List.exists_cons_of_ne_nil hlex.ne_nil
    exact ⟨token, tokens, rfl, (hlex.of_head hc).2 hword⟩

/-- The last token of a text that ends in a digit or with a place. -/
theorem exists_endsOperand (h : ReadsAs cs tokens) {c : Char} (hc : c ∈ cs.getLast?)
    (hlast : Text.isDigit c = true ∨ c = '_') : ∃ front last, tokens = front ++ [last] ∧
      last.endsOperand = true := by
  induction h with
  | nil => cases hc
  | @space d cs tokens hspace tail ih =>
    cases hcs : cs.getLast? with
    | none =>
      rw [List.getLast?_cons, hcs] at hc
      cases hc
      have hword : Text.isWord d = true := by
        rcases hlast with hdigit | rfl
        · exact isWord_of_isDigit hdigit
        · rfl
      rw [isSpace_of_isWord hword] at hspace
      cases hspace
    | some e =>
      rw [List.getLast?_cons, hcs] at hc
      exact ih (hcs.trans hc)
  | @lexeme _ rest token tokens h tail ih =>
    obtain ⟨taken, more, hlex, -, rfl⟩ := lexeme?_eq_some.1 h
    cases hrest : rest.getLast? with
    | none =>
      rw [List.getLast?_eq_none_iff] at hrest
      subst hrest
      rw [List.append_nil] at hc
      cases tail
      · exact ⟨[], token, rfl, hlex.endsOperand hc hlast⟩
      · next h => cases h
    | some e =>
      rw [List.getLast?_append, hrest] at hc
      obtain ⟨front, last, rfl, hends⟩ := ih (hrest.trans hc)
      exact ⟨token :: front, last, rfl, hends⟩

/-- What is not read at all is white space. -/
theorem isSpace_of_nil (h : ReadsAs cs []) : ∀ c ∈ cs, Text.isSpace c = true := by
  generalize htokens : ([] : List Token) = tokens at h
  induction h with
  | nil => exact List.forall_mem_nil _
  | space hc _ ih => exact List.forall_mem_cons.2 ⟨hc, ih htokens⟩
  | lexeme _ _ _ => cases htokens

/-- The first token is that of the lexeme after the white space in front. -/
theorem exists_of_cons {token : Token} (h : ReadsAs cs (token :: tokens)) :
    ∃ spaces taken more rest, (∀ c ∈ spaces, Text.isSpace c = true) ∧ IsLexeme taken token more ∧
      (∀ c ∈ rest.head?, more c = false) ∧ cs = spaces ++ (taken ++ rest) ∧ ReadsAs rest tokens := by
  generalize htokens : token :: tokens = all at h
  induction h with
  | nil => cases htokens
  | @space c cs tokens' hc _ ih =>
    obtain ⟨spaces, taken, more, rest, hspaces, hlex, hmore, rfl, hrest⟩ := ih htokens
    exact ⟨c :: spaces, taken, more, rest, List.forall_mem_cons.2 ⟨hc, hspaces⟩, hlex, hmore, rfl, hrest⟩
  | @lexeme cs rest token' tokens' h tail _ =>
    cases htokens
    obtain ⟨taken, more, hlex, hmore, rfl⟩ := lexeme?_eq_some.1 h
    exact ⟨[], taken, more, rest, List.forall_mem_nil _, hlex, hmore, rfl, tail⟩

end ReadsAs

theorem trimEnd_eq_nil {cs : List Char} (h : ∀ c ∈ cs, Text.isBlank c = true) :
    Text.trimEnd cs = [] := by
  induction cs with
  | nil => rfl
  | cons c cs ih =>
    obtain ⟨hc, hcs⟩ := List.forall_mem_cons.1 h
    rw [Text.trimEnd_cons, if_pos (ih hcs), if_pos hc]

/-- A text that ends in no blank is kept, whatever stands after it. -/
theorem trimEnd_append_of_last {front : List Char}
    (hlast : ∀ c ∈ front.getLast?, Text.isBlank c = false) (hne : front ≠ []) (rest : List Char) :
    Text.trimEnd (front ++ rest) = front ++ Text.trimEnd rest := by
  induction front with
  | nil => exact absurd rfl hne
  | cons c front ih =>
    rw [List.cons_append, Text.trimEnd_cons]
    cases front with
    | nil =>
      rw [List.nil_append, hlast c rfl]
      split
      · next hempty =>
        rw [hempty]
        rfl
      · rfl
    | cons d front =>
      have hrest := ih (fun e he => hlast e (by rwa [List.getLast?_cons_cons])) nofun
      rw [hrest, if_neg nofun]
      rfl

theorem readsAs_of_scan {position : Nat} {cs : List Char} {tokens : List Token}
    (h : scan position cs = .ok tokens) : ReadsAs cs tokens := by
  fun_induction scan position cs generalizing tokens with
  | case1 =>
    cases h
    exact .nil
  | case2 => cases h
  | case3 position c tail token rest hlex _ tokens' hrest ih =>
    cases h
    have hspaces : ∀ d ∈ (c :: tail).takeWhile Text.isSpace, Text.isSpace d = true :=
      fun d hd => List.mem_takeWhile_imp hd
    have hreads := (ReadsAs.spaces_append hspaces).2 (.lexeme hlex (ih hrest))
    rwa [List.takeWhile_append_dropWhile] at hreads
  | case4 => cases h

theorem scan_of_lexeme? {cs rest : List Char} {token : Token} {tokens : List Token}
    (hlex : lexeme? (cs.dropWhile Text.isSpace) = some (token, rest))
    (h : ∀ position, scan position rest = .ok tokens) (position : Nat) :
    scan position cs = .ok (token :: tokens) := by
  cases cs with
  | nil => cases hlex
  | cons c tail =>
    rw [scan]
    split
    · next heq => cases hlex.symm.trans heq
    · next heq =>
      cases hlex.symm.trans heq
      rw [h]

/-- White space at the end of a text is not read, either. -/
theorem scan_of_readsAs {cs : List Char} {tokens : List Token} (h : ReadsAs cs tokens)
    (position : Nat) : scan position (Text.trimEnd cs) = .ok tokens := by
  induction tokens generalizing cs position with
  | nil => rw [trimEnd_eq_nil fun c hc => Text.isBlank_of_isSpace (h.isSpace_of_nil c hc), scan]
  | cons token tokens ih =>
    obtain ⟨spaces, taken, more, rest, hspaces, hlex, hmore, rfl, hrest⟩ := h.exists_of_cons
    -- A lexeme has no blanks in it, so those that are cut off at the end are behind it.
    have hlast : ∀ c ∈ (spaces ++ taken).getLast?, Text.isBlank c = false := by
      intro c hc
      rw [List.getLast?_append_of_ne_nil _ hlex.ne_nil] at hc
      exact hlex.isBlank_eq c (List.mem_of_getLast? hc)
    have hmore' : ∀ c ∈ (Text.trimEnd rest).head?, more c = false := by
      intro c hc
      obtain ⟨tail, -, htail⟩ := Text.trimEnd_append rest
      exact hmore c (htail ▸ List.mem_head?_append_of_mem_head? hc)
    have hhead : ∀ c ∈ (taken ++ Text.trimEnd rest).head?, Text.isSpace c = false := by
      intro c hc
      rw [List.head?_append_of_ne_nil _ hlex.ne_nil] at hc
      exact (hlex.of_head hc).1
    rw [← List.append_assoc, trimEnd_append_of_last hlast (by simp [hlex.ne_nil]), List.append_assoc]
    refine scan_of_lexeme? ?_ (fun position => ih hrest position) position
    rw [List.dropWhile_append_of_pos hspaces, dropWhile_of_head hhead]
    exact lexeme?_eq_some.2 ⟨taken, more, hlex, hmore', rfl⟩

/-- White space joins nothing. -/
theorem not_joins_of_isSpace {c d : Char} (h : Text.isSpace c = true ∨ Text.isSpace d = true) :
    ¬Joins c d := by
  have hnumeric : ∀ {c : Char}, Text.isSpace c = true → isNumeric c = false := by
    intro c hc
    have hpoint : c ≠ '.' := by
      rintro rfl
      cases hc
    simp [isNumeric, (opens_of_isSpace hc).1, hpoint]
  rintro (⟨hc, hd⟩ | ⟨hc, hd⟩)
  · rcases h with h | h
    · rw [hnumeric h] at hc
      cases hc
    · rw [hnumeric h] at hd
      cases hd
  · rcases h with h | h
    · rw [isLetter_of_isSpace h] at hc
      cases hc
    · rw [isLetter_of_isSpace h] at hd
      cases hd

/-- An expression without other blanks than white space has the tokens that it reads as. -/
theorem tokenize_eq_ok {cs : List Char} {tokens : List Token}
    (hblank : ∀ c ∈ cs, Text.isBlank c = true → Text.isSpace c = true) :
    tokenize (String.ofList cs) = .ok tokens ↔ ReadsAs cs tokens := by
  rw [tokenize, String.toList_ofList]
  refine ⟨fun h => ?_, fun h => scan_of_readsAs h 0⟩
  obtain ⟨tail, htail, heq⟩ := Text.trimEnd_append cs
  -- The scanner takes only white space for nothing, but any blanks are cut off at the end.
  have hspaces : ∀ c ∈ tail, Text.isSpace c = true := by
    intro c hc
    refine hblank c ?_ (htail c hc)
    rw [← heq]
    exact List.mem_append_right _ hc
  have hempty : ReadsAs tail [] := by
    rw [← List.append_nil tail, ReadsAs.spaces_append hspaces]
    exact .nil
  have hreads := (readsAs_of_scan h).append hempty fun c _ d hd =>
    not_joins_of_isSpace (.inr (hspaces d (List.mem_of_mem_head? hd)))
  rwa [List.append_nil, heq] at hreads

end Formula

end RollTray
