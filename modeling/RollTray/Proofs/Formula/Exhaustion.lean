import RollTray.Proofs.Formula.Spelling

/-!
# No shorthand is left

Writing the shorthands of a text out leaves none (`not_standsIn_expandFrom`), and a text that has none stays
as it is (`expandFrom_eq_self`). So doing it a second time changes nothing (`expand_expand`).

A shorthand in what is written out would stand in the text itself (`prefix_of_expandFrom`): a dice term that
is written for a shorthand goes on with the letter of keep rules, which no shorthand has in it, and before
that with nothing that closes a parenthesis. And a shorthand cannot begin in such a term, which is one word
that begins like no name.
-/

namespace RollTray.Formula

namespace Shorthand

/-- A shorthand as it is written: the name of a function, and one dice term in its parentheses. -/
inductive IsWritten : List Char → Prop
  | mk {name rule before count sides after : List Char} (hrule : (name, rule) ∈ keepRules)
      (hbefore : ∀ c ∈ before, Text.isSpace c = true) (hcount : ∀ c ∈ count, Text.isDigit c = true)
      (hsides : ∀ c ∈ sides, Text.isDigit c = true) (hne : sides ≠ [])
      (hafter : ∀ c ∈ after, Text.isSpace c = true) :
      IsWritten (name ++ '(' :: (before ++ (count ++ 'd' :: (sides ++ (after ++ [')'])))))

/-- Whether a word goes on behind a text; `inWord` says whether one goes on before it. -/
def goesOn (inWord : Bool) (cs : List Char) : Bool :=
  cs.foldl (fun _ c => Text.isWord c) inWord

/-- Somewhere in the text, where no word goes on, a shorthand is written. -/
def StandsIn (inWord : Bool) (cs : List Char) : Prop :=
  ∃ front text back, cs = front ++ (text ++ back) ∧ goesOn inWord front = false ∧ IsWritten text

section

variable {inWord : Bool} {cs text written rest : List Char}

/-- A shorthand is taken from the front of a text just where one is written. -/
theorem take?_isSome : (take? cs).isSome ↔ ∃ text rest, IsWritten text ∧ cs = text ++ rest := by
  rw [Option.isSome_iff_exists]
  constructor
  · rintro ⟨⟨written, rest⟩, h⟩
    obtain ⟨name, keep, keepCount, inside, dice, hrule, rfl, hargument, -⟩ := take?_eq_some.1 h
    obtain ⟨before, after, tail, hbefore, hafter, -, rfl, hdice⟩ := takeArgument?_eq_some.1 hargument
    obtain ⟨count, sides, hcount, hsides, hne, -, -, rfl⟩ := takeDice?_eq_some.1 hdice
    have hmem : (name, keep.text ++ keepCount) ∈ keepRules :=
      keepRules_eq ▸ List.mem_map_of_mem (f := fun rule => (rule.1, rule.2.1.text ++ rule.2.2)) hrule
    exact ⟨_, rest, .mk hmem hbefore hcount hsides hne hafter, by simp⟩
  · rintro ⟨_, rest, h, rfl⟩
    obtain @⟨name, rule, before, count, sides, after, hmem, hbefore, hcount, hsides, hne, hafter⟩ := h
    rw [keepRules_eq] at hmem
    obtain ⟨⟨_, keep, keepCount⟩, hrule, heq⟩ := List.mem_map.1 hmem
    cases heq
    have hstop : ∀ c ∈ (after ++ ')' :: rest).head?, Text.isDigit c = false := by
      cases after with
      | nil => simp; decide
      | cons c after => simpa using (opens_of_isSpace (hafter c (List.mem_cons_self ..))).1
    have hdice : takeDice? (count ++ 'd' :: (sides ++ (after ++ ')' :: rest))) =
        some (count ++ 'd' :: sides, after ++ ')' :: rest) :=
      takeDice?_eq_some.2 ⟨count, sides, hcount, hsides, hne, hstop, rfl, rfl⟩
    have hhead : ∀ c ∈ (count ++ 'd' :: (sides ++ (after ++ ')' :: rest))).head?,
        Text.isSpace c = false := by
      cases count with
      | nil => simp; decide
      | cons c count =>
        simpa using isSpace_of_isWord (isWord_of_isDigit (hcount c (List.mem_cons_self ..)))
    have hargument := takeArgument?_eq_some.2
      ⟨before, after, _, hbefore, hafter, hhead, rfl, hdice⟩
    exact ⟨_, take?_eq_some.2 ⟨_, keep, keepCount, _, _, hrule, by simp, hargument, rfl⟩⟩

/-- A shorthand ends in its closing parenthesis, and the letter of keep rules is not in it. -/
theorem IsWritten.exists_body (h : IsWritten text) : ∃ body, text = body ++ [')'] ∧ 'k' ∉ body := by
  obtain @⟨name, rule, before, count, sides, after, hrule, hbefore, hcount, hsides, hne, hafter⟩ := h
  refine ⟨name ++ '(' :: (before ++ (count ++ 'd' :: (sides ++ after))), by simp, ?_⟩
  have hname : 'k' ∉ name := by
    simp only [keepRules, List.mem_cons, List.not_mem_nil, or_false, Prod.mk.injEq] at hrule
    rcases hrule with ⟨rfl, -⟩ | ⟨rfl, -⟩ | ⟨rfl, -⟩ <;> decide
  have hdigits : ∀ {cs : List Char}, (∀ c ∈ cs, Text.isDigit c = true) → 'k' ∉ cs :=
    fun hcs hk => absurd (hcs _ hk) (by decide)
  have hspaces : ∀ {cs : List Char}, (∀ c ∈ cs, Text.isSpace c = true) → 'k' ∉ cs :=
    fun hcs hk => absurd (hcs _ hk) (by decide)
  simp [hname, hspaces hbefore, hdigits hcount, hdigits hsides, hspaces hafter]

/-- A shorthand begins with a letter of a name. -/
theorem IsWritten.exists_head (h : IsWritten text) :
    ∃ c, text.head? = some c ∧ Text.isDigit c = false ∧ c ≠ 'd' := by
  obtain @⟨name, rule, before, count, sides, after, hrule, -, -, -, -, -⟩ := h
  simp only [keepRules, List.mem_cons, List.not_mem_nil, or_false, Prod.mk.injEq] at hrule
  rcases hrule with ⟨rfl, -⟩ | ⟨rfl, -⟩ | ⟨rfl, -⟩
  · exact ⟨'m', rfl, by decide⟩
  · exact ⟨'m', rfl, by decide⟩
  · exact ⟨'a', rfl, by decide⟩

/-- A dice term is written for a shorthand, and then a keep rule from its letter on. -/
theorem exists_of_take? (h : take? cs = some (written, rest)) :
    ∃ dice rule, written = dice ++ 'k' :: rule ∧ dice ≠ [] ∧
      (∀ c ∈ dice, Text.isDigit c = true ∨ c = 'd') ∧ ∀ c ∈ rule, Text.isWord c = true := by
  obtain ⟨name, keep, keepCount, inside, dice, hrule, -, hargument, rfl⟩ := take?_eq_some.1 h
  obtain ⟨before, after, tail, -, -, -, -, hdice⟩ := takeArgument?_eq_some.1 hargument
  obtain ⟨count, sides, hcount, hsides, -, -, rfl, -⟩ := takeDice?_eq_some.1 hdice
  obtain ⟨letter, hkeep, hletter⟩ : ∃ c, keep.text = ['k', c] ∧ Text.isWord c = true := by
    cases keep <;> exact ⟨_, rfl, by decide⟩
  refine ⟨count ++ 'd' :: sides, letter :: keepCount, by simp [hkeep], by simp, ?_, ?_⟩
  · refine List.forall_mem_append.2 ⟨fun c hc => .inl (hcount c hc), ?_⟩
    exact List.forall_mem_cons.2 ⟨.inr rfl, fun c hc => .inl (hsides c hc)⟩
  · refine List.forall_mem_cons.2 ⟨hletter, fun c hc => isWord_of_isDigit ?_⟩
    exact isDigit_of_rule hrule c hc

/-- What is written for a shorthand is a word. -/
theorem isWord_of_take? (h : take? cs = some (written, rest)) :
    written ≠ [] ∧ ∀ c ∈ written, Text.isWord c = true := by
  obtain ⟨dice, rule, rfl, -, hdice, hrule⟩ := exists_of_take? h
  refine ⟨by simp, List.forall_mem_append.2 ⟨fun c hc => ?_, ?_⟩⟩
  · rcases hdice c hc with hdigit | rfl
    · exact isWord_of_isDigit hdigit
    · decide
  · exact List.forall_mem_cons.2 ⟨by decide, hrule⟩

/-- What is written for a shorthand begins like no shorthand. -/
theorem IsWritten.append_ne (htext : IsWritten text) (h : take? cs = some (written, rest))
    (back back' : List Char) : text ++ back ≠ written ++ back' := by
  intro heq
  obtain ⟨c, hc, hdigit, hside⟩ := htext.exists_head
  obtain ⟨dice, rule, rfl, hne, hdice, -⟩ := exists_of_take? h
  obtain ⟨text, rfl⟩ := List.head?_eq_some_iff.1 hc
  obtain ⟨first, dice, rfl⟩ := List.exists_cons_of_ne_nil hne
  obtain ⟨rfl, -⟩ := List.cons.inj heq
  rcases hdice c (List.mem_cons_self ..) with hdigit' | hside'
  · rw [hdigit] at hdigit'
    cases hdigit'
  · exact hside hside'

/-! ## The text that is written out -/

theorem goesOn_append (inWord : Bool) (front back : List Char) :
    goesOn inWord (front ++ back) = goesOn (goesOn inWord front) back :=
  List.foldl_append

theorem goesOn_of_word (hne : cs ≠ []) (hword : ∀ c ∈ cs, Text.isWord c = true) (inWord : Bool) :
    goesOn inWord cs = true := by
  rcases List.eq_nil_or_concat cs with rfl | ⟨front, last, rfl⟩
  · exact absurd rfl hne
  · rw [List.concat_eq_append, goesOn_append]
    exact hword last (by simp)

/-- A text in which no shorthand stands is written out as it is. -/
theorem expandFrom_eq_self (h : ¬StandsIn inWord cs) : expandFrom inWord cs = cs := by
  induction cs generalizing inWord with
  | nil => rw [expandFrom]
  | cons c cs ih =>
    have hnone : inWord = false → take? (c :: cs) = none := by
      intro hword
      rw [← Option.not_isSome_iff_eq_none, take?_isSome]
      rintro ⟨text, rest, htext, heq⟩
      exact h ⟨[], text, rest, heq, hword, htext⟩
    have htail : ¬StandsIn (Text.isWord c) cs := by
      rintro ⟨front, text, back, rfl, hword, htext⟩
      exact h ⟨c :: front, text, back, rfl, hword, htext⟩
    rw [expandFrom_cons hnone, ih htail]

/-- A text that has no letter of keep rules, and ends in a closing parenthesis, stands in front of what is
written out only if it stood there before. -/
theorem prefix_of_expandFrom {body : List Char} (hbody : 'k' ∉ body)
    (h : body ++ [')'] <+: expandFrom inWord cs) : body ++ [')'] <+: cs := by
  fun_induction expandFrom inWord cs generalizing body with
  | case1 => exact h
  | case2 inWord c tail written rest hshort _ ih =>
    exfalso
    split at hshort
    · cases hshort
    obtain ⟨dice, rule, rfl, -, hdice, -⟩ := exists_of_take? hshort
    have hletter : dice ++ ['k'] <+: dice ++ 'k' :: rule ++ expandFrom false rest := by simp
    -- Of the two that the text begins with, the shorter one ends within the longer one.
    rcases List.prefix_or_prefix_of_prefix h hletter with hshorter | hlonger
    · have hmem : ')' ∈ dice ++ ['k'] := hshorter.subset (by simp)
      have hdice : ')' ∈ dice := by simpa using hmem
      exact absurd (‹∀ c ∈ dice, _› _ hdice) (by decide)
    · have hmem : 'k' ∈ body ++ [')'] := hlonger.subset (by simp)
      exact hbody (by simpa using hmem)
  | case3 inWord c tail hshort ih =>
    cases body with
    | nil =>
      obtain ⟨rfl, -⟩ := List.cons_prefix_cons.1 h
      exact List.cons_prefix_cons.2 ⟨rfl, List.nil_prefix⟩
    | cons d body =>
      rw [List.cons_append, List.cons_prefix_cons] at h ⊢
      exact ⟨h.1, ih (fun hk => hbody (List.mem_cons_of_mem _ hk)) h.2⟩

/-- Where shorthands are written out, none is left. -/
theorem not_standsIn_expandFrom (inWord : Bool) (cs : List Char) :
    ¬StandsIn inWord (expandFrom inWord cs) := by
  rintro ⟨front, text, back, heq, hword, htext⟩
  fun_induction expandFrom inWord cs generalizing front with
  | case1 =>
    obtain ⟨c, hc, -⟩ := htext.exists_head
    obtain ⟨-, rfl, -⟩ : front = [] ∧ text = [] ∧ back = [] := by simpa using heq
    cases hc
  | case2 inWord c tail written rest hshort _ ih =>
    split at hshort
    · cases hshort
    obtain ⟨hne, hwords⟩ := isWord_of_take? hshort
    rcases List.append_eq_append_iff.1 heq with ⟨front', rfl, hrest⟩ | ⟨tail', hfront, -⟩
    · rw [goesOn_append, goesOn_of_word hne hwords] at hword
      refine ih front' hrest ?_
      cases front' with
      | nil => cases hword
      | cons d front' => exact hword
    · -- A shorthand would begin in the middle of a word, or like one that is written for it.
      cases front with
      | nil => exact htext.append_ne hshort _ _ heq.symm
      | cons d front =>
        rw [goesOn_of_word (List.cons_ne_nil d front)
          fun e he => hwords e (hfront ▸ List.mem_append_left _ he)] at hword
        cases hword
  | case3 inWord c tail hshort ih =>
    cases front with
    | cons d front =>
      obtain ⟨rfl, htail⟩ := List.cons.inj heq
      exact ih front htail hword
    | nil =>
      have hword : inWord = false := hword
      subst hword
      have hnone : take? (c :: tail) = none := hshort
      obtain ⟨body, rfl, hbody⟩ := htext.exists_body
      have hexpand := expandFrom_cons fun _ : false = false => hnone
      have hfront : body ++ [')'] <+: expandFrom false (c :: tail) :=
        hexpand ▸ ⟨back, heq.symm⟩
      obtain ⟨rest, hrest⟩ := prefix_of_expandFrom hbody hfront
      have hsome := take?_isSome.2 ⟨_, rest, htext, hrest.symm⟩
      rw [hnone] at hsome
      cases hsome

end

end Shorthand

/-- Writing the shorthands of a text out leaves none in it, and doing so again changes nothing. -/
theorem expand_expand (text : String) : ¬Shorthand.StandsIn false (Shorthand.expand text).toList ∧
    Shorthand.expand (Shorthand.expand text) = Shorthand.expand text := by
  have hnone := Shorthand.not_standsIn_expandFrom false text.toList
  have htext : (Shorthand.expand text).toList = Shorthand.expandFrom false text.toList :=
    String.toList_ofList
  refine ⟨htext ▸ hnone, ?_⟩
  rw [Shorthand.expand, htext, Shorthand.expandFrom_eq_self hnone]
  rfl

end RollTray.Formula
