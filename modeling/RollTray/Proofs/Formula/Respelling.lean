import RollTray.Proofs.Formula.Auditing

/-!
# Tokens and how they are spelled

An expression is refused at its first character that begins no token, or its tokens are all that it is made
of: their spellings, one after the other, are the expression without white space, in letters of either case.
Spelled with a blank between each two, they are read as they were (`tokenize_respelled`).

A token is spelled as a lexeme of it (`IsLexeme.spelling`), and a blank ends every lexeme.
-/

namespace RollTray

namespace Text

theorem toLowerAscii_toLowerAscii (c : Char) : toLowerAscii (toLowerAscii c) = toLowerAscii c := by
  by_cases h : ('A' ≤ c && c ≤ 'Z') = true
  · obtain ⟨hleast, -, hlower⟩ := toNat_of_isCapital h
    refine if_neg fun hagain => ?_
    have hmost := (toNat_of_isCapital hagain).2.1
    omega
  · have hsame : toLowerAscii c = c := if_neg h
    rw [hsame, hsame]

theorem isLetter_toLowerAscii {c : Char} (h : isLetter c = true) : isLetter (toLowerAscii c) = true := by
  by_cases hcapital : ('A' ≤ c && c ≤ 'Z') = true
  · obtain ⟨hleast, hmost, hlower⟩ := toNat_of_isCapital hcapital
    have hsmall : 97 ≤ (toLowerAscii c).toNat ∧ (toLowerAscii c).toNat ≤ 122 := by omega
    rw [isLetter, Bool.or_eq_true, Bool.and_eq_true, decide_eq_true_iff, decide_eq_true_iff, Char.le_def,
      Char.le_def, UInt32.le_iff_toNat_le, UInt32.le_iff_toNat_le]
    exact .inl hsmall
  · rwa [show toLowerAscii c = c from if_neg hcapital]

end Text

namespace Formula

/-- How a token is written in an expression. -/
def Token.spelling : Token → String
  | .place index => "__G" ++ index ++ "__"
  | token => token.text

section

variable {cs taken : List Char} {token : Token} {tokens : List Token} {more : Char → Bool}

/-- A token is spelled as one of its lexemes, in small letters. -/
theorem IsLexeme.spelling (h : IsLexeme taken token more) :
    (∃ more', IsLexeme token.spelling.toList token more') ∧
      token.spelling.toList.map Text.toLowerAscii = taken.map Text.toLowerAscii := by
  cases h with
  | whole hne hdigits =>
    have hspelling : (Token.number (String.ofList taken)).spelling.toList = taken := String.toList_ofList
    rw [hspelling]
    exact ⟨⟨_, .whole hne hdigits⟩, rfl⟩
  | @decimal digits places hne hdigits hplaces =>
    have hspelling : (Token.number (String.ofList (digits ++ '.' :: places))).spelling.toList =
        digits ++ '.' :: places := String.toList_ofList
    rw [hspelling]
    exact ⟨⟨_, .decimal hne hdigits hplaces⟩, rfl⟩
  | name hne hletters =>
    have hlower : (taken.map Text.toLowerAscii).map Text.toLowerAscii = taken.map Text.toLowerAscii := by
      rw [List.map_map]
      exact List.map_congr_left fun c _ => Text.toLowerAscii_toLowerAscii c
    have hsmall : ∀ c ∈ taken.map Text.toLowerAscii, Text.isLetter c = true :=
      List.forall_mem_map.2 fun c hc => Text.isLetter_toLowerAscii (hletters c hc)
    have hlex := IsLexeme.name (by simpa using hne) hsmall
    have hspelling : (Token.name (String.ofList (taken.map Text.toLowerAscii))).spelling.toList =
        taken.map Text.toLowerAscii := String.toList_ofList
    rw [hlower] at hlex
    rw [hspelling]
    exact ⟨⟨_, hlex⟩, hlower⟩
  | @place g index hg hne hindex =>
    have hspelling : (Token.place (String.ofList index)).spelling.toList =
        '_' :: '_' :: 'G' :: (index ++ ['_', '_']) := by
      simp [Token.spelling]
    rw [hspelling]
    refine ⟨⟨_, .place (.inl rfl) hne hindex⟩, ?_⟩
    rcases hg with rfl | rfl <;> rfl
  | @symbol c token h =>
    have hspelling : token.spelling.toList = [c] := by
      unfold symbol? at h
      split at h <;> first | (cases h; rfl) | cases h
    rw [hspelling]
    exact ⟨⟨_, .symbol h⟩, rfl⟩

theorem IsLexeme.readsAs (h : IsLexeme taken token more) : ReadsAs taken [token] := by
  have hlex : lexeme? (taken ++ []) = some (token, []) := h.lexeme?_eq nofun
  rw [List.append_nil] at hlex
  exact .lexeme hlex .nil

/-- The tokens that a text reads as are spelled by its characters, other than white space. -/
theorem ReadsAs.spellings (h : ReadsAs cs tokens) :
    (tokens.flatMap fun token => token.spelling.toList).map Text.toLowerAscii =
      (cs.filter fun c => !Text.isSpace c).map Text.toLowerAscii := by
  induction h with
  | nil => rfl
  | space hc _ ih => rwa [List.filter_cons_of_neg (by simp [hc])]
  | @lexeme cs rest token tokens h _ ih =>
    obtain ⟨taken, more, hlex, -, rfl⟩ := lexeme?_eq_some.1 h
    have hsolid : ∀ c ∈ taken, (!Text.isSpace c) = true := fun c hc => by
      rw [hlex.isSpace_eq c hc, Bool.not_false]
    rw [List.flatMap_cons, List.map_append, ih, hlex.spelling.2, List.filter_append,
      List.filter_eq_self.2 hsolid, List.map_append]

/-- Tokens of lexemes read as themselves from their spellings with a blank between each two. -/
theorem readsAs_spellings (h : ∀ token ∈ tokens, ∃ taken more, IsLexeme taken token more) :
    ReadsAs (" ".intercalate (tokens.map Token.spelling)).toList tokens := by
  induction tokens with
  | nil => exact .nil
  | cons token tokens ih =>
    obtain ⟨⟨taken, more, hlex⟩, htokens⟩ := List.forall_mem_cons.1 h
    obtain ⟨more', hspelling⟩ := hlex.spelling.1
    cases tokens with
    | nil =>
      rw [List.map_singleton, String.intercalate_singleton]
      exact hspelling.readsAs
    | cons token' tokens =>
      rw [List.map_cons, List.map_cons, String.intercalate_cons_cons, String.toList_append,
        String.toList_append, List.append_assoc]
      refine hspelling.readsAs.append (.space rfl (ih htokens)) fun c _ d hd => ?_
      cases hd
      exact not_joins_of_isSpace (.inr rfl)

/-- The scanner stops at a character that begins no token, behind a text that reads as tokens. -/
theorem exists_of_scan_error {position : Nat} {e : EvaluationError} (h : scan position cs = .error e) :
    ∃ front c back tokens, cs = front ++ c :: back ∧ ReadsAs front tokens ∧
      lexeme? ((c :: back).dropWhile Text.isSpace) = none ∧
        e = .unexpectedCharacter c (position + front.length) := by
  fun_induction scan position cs with
  | case1 => cases h
  | case2 position c tail hlex =>
    cases h
    exact ⟨[], c, tail, [], rfl, .nil, hlex, rfl⟩
  | case3 => cases h
  | case4 position c tail token rest hlex _ e' hrest ih =>
    cases h
    obtain ⟨front, d, back, tokens, rfl, hfront, hnone, rfl⟩ := ih hrest
    obtain ⟨taken, more, htaken, hmore, hcs⟩ := lexeme?_eq_some.1 hlex
    have hspaces : ∀ d ∈ (c :: tail).takeWhile Text.isSpace, Text.isSpace d = true :=
      fun d hd => List.mem_takeWhile_imp hd
    have hmore' : ∀ d ∈ front.head?, more d = false :=
      fun e he => hmore e (List.mem_head?_append_of_mem_head? he)
    have hall : c :: tail = (c :: tail).takeWhile Text.isSpace ++ (taken ++ front) ++ d :: back := by
      rw [List.append_assoc, List.append_assoc, ← hcs, List.takeWhile_append_dropWhile]
    refine ⟨_, d, back, token :: tokens, hall, ?_, hnone, ?_⟩
    · exact (ReadsAs.spaces_append hspaces).2 (.lexeme (htaken.lexeme?_eq hmore') hfront)
    · have hlength := congrArg List.length hall
      simp only [List.length_append, List.length_cons] at hlength ⊢
      congr 1
      omega

end

/-- Reading an expression ends at a character that begins no token, or takes all of the text that is no white
space or blank at the end, and the tokens can be spelled and read again. -/
theorem tokenize_respelled (expression : String) :
    (∃ front c back tokens, Text.trimEnd expression.toList = front ++ c :: back ∧ ReadsAs front tokens ∧
      lexeme? ((c :: back).dropWhile Text.isSpace) = none ∧
        tokenize expression = .error (.unexpectedCharacter c front.length)) ∨
      ∃ tokens, tokenize expression = .ok tokens ∧
        (tokens.flatMap fun token => token.spelling.toList).map Text.toLowerAscii =
          ((Text.trimEnd expression.toList).filter fun c => !Text.isSpace c).map Text.toLowerAscii ∧
        tokenize (" ".intercalate (tokens.map Token.spelling)) = .ok tokens := by
  cases h : tokenize expression with
  | error e =>
    obtain ⟨front, c, back, tokens, htext, hfront, hnone, rfl⟩ := exists_of_scan_error h
    rw [Nat.zero_add] at h ⊢
    exact .inl ⟨front, c, back, tokens, htext, hfront, hnone, rfl⟩
  | ok tokens =>
    have hreads : ReadsAs (Text.trimEnd expression.toList) tokens := readsAs_of_scan h
    have hagain := readsAs_spellings (exists_isLexeme_of_readsAs hreads)
    have htokens := (tokenize_eq_ok (isSpace_of_readsAs hagain)).2 hagain
    rw [String.ofList_toList] at htokens
    exact .inr ⟨tokens, rfl, hreads.spellings, htokens⟩

end Formula

end RollTray
