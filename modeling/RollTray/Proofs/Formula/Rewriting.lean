import RollTray.Proofs.Formula.Spacing

/-!
# What a shorthand is compiled to

`max(XdY)` within a formula, where its name does not go on with a word, is cut out of it: the text before it
and the text after it have the pieces that they have alone (`pieces_around`). In a formula that compiles no
term stands next to another one (`SideBySide.not_accepts`), so the only thing that a shorthand can take from
the text after it are the digits of a number.

* `shorthand_kept_iff`: the shorthand is the term with its keep rule, and what stands around it is compiled as
  it would be alone, if and only if no digit follows.
* `shorthand_takes_digits`: a number right behind it becomes part of the keep rule.
-/

namespace RollTray.Formula

variable {ps qs : List Piece} {cs : List Char}

/-! ## Texts before a shorthand -/

/-- A character that belongs to no word ends every word in front of it. -/
theorem showsNoMore_append (h : ∃ c ∈ cs, Text.isWord c = false) (tail : List Char) :
    ShowsNoMore (cs ++ tail) cs := by
  obtain ⟨c, hc, hnot⟩ := h
  intro word hword hprefix
  rcases List.prefix_or_prefix_of_prefix hprefix (List.prefix_append cs tail) with hshort | hlong
  · exact hshort
  · rw [hword c (hlong.subset hc)] at hnot
    cases hnot

/-- Pieces that end in no word stay the same whatever follows them. -/
theorem Aligned.append (hps : Aligned ps) (hlast : ∀ p ∈ ps.getLast?, p.isWord = false)
    (hqs : Aligned qs) : Aligned (ps ++ qs) := by
  induction ps with
  | nil => exact hqs
  | cons p ps ih =>
    obtain ⟨hbefore, hps⟩ := aligned_cons.1 hps
    rw [List.cons_append]
    refine aligned_cons.2 ⟨hbefore.mono fun hword => ?_, ih hps fun q hq => hlast q (mem_getLast?_cons hq)⟩
    rw [textOf_append]
    cases hend : ps.getLast? with
    | none =>
      rw [List.getLast?_eq_none_iff.1 hend] at hlast
      rw [hlast p rfl] at hword
      cases hword
    | some q =>
      have hq := hlast q (mem_getLast?_cons hend)
      cases q with
      | term written => cases hq
      | plain c =>
        refine showsNoMore_append ⟨c, ?_, hq⟩ _
        exact List.mem_flatMap.2 ⟨.plain c, List.mem_of_getLast? hend, List.mem_singleton_self c⟩

/-- The last piece of a text that ends in no word. -/
theorem isWord_of_getLast?_pieces (h : ∀ c ∈ cs.getLast?, Text.isWord c = false) :
    ∀ p ∈ (pieces cs).getLast?, p.isWord = false := by
  intro p hp
  obtain ⟨front, hfront⟩ := List.getLast?_eq_some_iff.1 hp
  have htext : textOf (pieces cs) = cs := text_pieces cs
  have haligned := aligned_pieces cs
  rw [hfront] at htext haligned
  rw [textOf_append, textOf_cons, textOf_nil, List.append_nil] at htext
  cases p with
  | plain c => exact h c (by rw [← htext]; exact List.getLast?_concat)
  | term written =>
    have hproper := (takeTerm?_eq_some.1 (aligned_cons.1 haligned.of_append).1).1
    have hne : written.text ≠ [] := by simp [WrittenTerm.text]
    have hlast : written.text.getLast hne ∈ cs.getLast? := by
      rw [← htext]
      exact List.mem_getLast?_append_of_mem_getLast? (List.getLast?_eq_some_getLast hne)
    have hword := hproper.isWord_text _ (List.getLast_mem hne)
    rw [h _ hlast] at hword
    cases hword

/-! ## The pieces of a shorthand -/

/-- The text of a shorthand. -/
def Function.shorthandText (f : Function) (count sides : List Char) : List Char :=
  f.name.toList ++ '(' :: (count ++ 'd' :: (sides ++ [')']))

/-- The keep rule that the shorthand stands for. -/
def Function.keepRule : Function → KeepRule
  | max => .highest 1
  | min => .lowest 1
  | avg => .average

/-- The word for it, and the digits that are written behind it. -/
def Function.keepWord : Function → KeepWord × List Char
  | max => (.highest, ['1'])
  | min => (.lowest, ['1'])
  | avg => (.average, [])

/-- The dice term that the shorthand is written out as. -/
def Function.written (f : Function) (count sides : List Char) : WrittenTerm :=
  ⟨count, sides, some f.keepWord.1, f.keepWord.2⟩

theorem rule_of_function (f : Function) :
    (f.name.toList, f.keepWord.1, f.keepWord.2) ∈ shorthandRules := by
  cases f <;> decide

section

variable {count sides : List Char} {f : Function}

theorem proper_written (hcount : ∀ c ∈ count, Text.isDigit c = true)
    (hsides : ∀ c ∈ sides, Text.isDigit c = true) (hne : sides ≠ []) : (f.written count sides).Proper :=
  ⟨hcount, hsides, hne, isDigit_of_rule (rule_of_function f), nofun⟩

/-- A shorthand at the front of a text is taken, and written out as its dice term. -/
theorem take?_shorthandText (hcount : ∀ c ∈ count, Text.isDigit c = true)
    (hsides : ∀ c ∈ sides, Text.isDigit c = true) (hne : sides ≠ []) (rest : List Char) :
    Shorthand.take? (f.shorthandText count sides ++ rest) = some ((f.written count sides).text, rest) := by
  have hdice : Shorthand.takeDice? (count ++ 'd' :: (sides ++ ')' :: rest)) =
      some (count ++ 'd' :: sides, ')' :: rest) :=
    takeDice?_eq_some.2 ⟨count, sides, hcount, hsides, hne, by simp; decide, rfl, rfl⟩
  have hfirst : ∀ c ∈ (count ++ 'd' :: (sides ++ ')' :: rest)).head?, Text.isSpace c = false := by
    intro c hc
    cases count with
    | nil =>
      cases hc
      decide
    | cons digit count =>
      cases hc
      exact isSpace_of_isWord (isWord_of_isDigit (hcount _ (List.mem_cons_self ..)))
  have hargument : Shorthand.takeArgument? (count ++ 'd' :: (sides ++ ')' :: rest)) =
      some (count ++ 'd' :: sides, rest) :=
    takeArgument?_eq_some.2 ⟨[], [], _, List.forall_mem_nil _, List.forall_mem_nil _, hfirst, rfl, hdice⟩
  refine take?_eq_some.2 ⟨_, _, _, _, _, rule_of_function f, ?_, hargument, ?_⟩
  · simp [Function.shorthandText]
  · simp [WrittenTerm.text, Function.written]

/-- Terms with a keep rule that are written the same are the same. -/
theorem WrittenTerm.eq_of_text {term term' : WrittenTerm} (hproper : term.Proper) (hproper' : term'.Proper)
    (hkeep : term.keep ≠ none) (hkeep' : term'.keep ≠ none) (h : term.text = term'.text) :
    term = term' := by
  have hstops : ∀ term : WrittenTerm, term.keep ≠ none → term.StopsAt [] :=
    fun term hkeep => ⟨fun c hc => (by cases hc), fun hnone => absurd hnone hkeep⟩
  have hthis := takeTerm?_eq_some.2 ⟨hproper, hstops term hkeep, rfl⟩
  have hthat := takeTerm?_eq_some.2 ⟨hproper', hstops term' hkeep', rfl⟩
  rw [h, hthat] at hthis
  cases hthis
  rfl

/-- A shorthand at the front of a text is cut out of it. -/
theorem exists_shorthand (hcount : ∀ c ∈ count, Text.isDigit c = true)
    (hsides : ∀ c ∈ sides, Text.isDigit c = true) (hne : sides ≠ []) (rest : List Char) :
    ∃ sh, IsShorthand sh (f.written count sides) ∧
      pieces (f.shorthandText count sides ++ rest) = sh ++ pieces rest := by
  have htake := take?_shorthandText (f := f) hcount hsides hne rest
  rw [← show textOf (pieces (f.shorthandText count sides ++ rest)) = _ from text_pieces _] at htake
  obtain ⟨sh, ps, term, hpieces, hsh, htext, hrest⟩ := exists_of_take? (aligned_pieces _) htake
  have haligned := aligned_pieces (f.shorthandText count sides ++ rest)
  rw [hpieces] at haligned
  have hps : pieces rest = ps := by
    rw [← hrest]
    exact haligned.of_append
  obtain ⟨hproper, hkeep⟩ := hsh.proper haligned
  obtain rfl : term = f.written count sides :=
    WrittenTerm.eq_of_text hproper (proper_written hcount hsides hne) hkeep (Option.some_ne_none _) htext
  exact ⟨sh, hsh, by rw [hpieces, hps]⟩

end

/-! ## Terms next to each other -/

/-- A dice term right behind another one. -/
def SideBySide (ps : List Piece) : Prop :=
  ∃ front first second back, ps = front ++ .term first :: .term second :: back

theorem SideBySide.not_accepts (h : SideBySide ps) (terms : List DiceTerm) (tokens : List Token) :
    ¬Accepts ps terms tokens := by
  obtain ⟨front, first, second, back, rfl⟩ := h
  have hapart : Apart (front ++ [.term first]) (([] : List Char).map .plain ++ .term second :: back) := by
    rintro p hp q ⟨⟩
    exact not_joins_underscore (.inr rfl)
  have hnot := Formula.not_accepts (List.forall_mem_nil _) hapart
    (List.getLast?_concat : (front ++ [Piece.term first]).getLast? = _) rfl rfl rfl rfl terms tokens
  simpa using hnot

theorem SideBySide.cons (p : Piece) (h : SideBySide ps) : SideBySide (p :: ps) := by
  obtain ⟨front, first, second, back, rfl⟩ := h
  exact ⟨p :: front, first, second, back, rfl⟩

/-- What a shorthand takes leaves two terms next to each other. -/
theorem SideBySide.absorb (written : WrittenTerm) (h : SideBySide ps) :
    SideBySide (absorb written ps) := by
  obtain ⟨front, first, second, back, rfl⟩ := h
  cases front with
  | nil => exact ⟨[], _, _, .term second :: back, rfl⟩
  | cons p front =>
    cases p with
    | term next => exact ⟨[], _, _, front ++ .term first :: .term second :: back, rfl⟩
    | plain c =>
      rw [List.cons_append, absorb_plain, ← List.cons_append]
      have hterm : ∃ q ∈ Piece.plain c :: front ++ [.term first], q.isDigit = false :=
        ⟨.term first, by simp, rfl⟩
      refine SideBySide.cons _ ?_
      have hfront : Piece.plain c :: front ++ .term first :: .term second :: back =
          Piece.plain c :: front ++ [.term first] ++ (.term second :: back) := by simp
      rw [hfront, (takeWhile_append_of_exists hterm _).2, List.dropWhile_append]
      split
      · exact ⟨[], first, second, back, rfl⟩
      · exact ⟨(Piece.plain c :: front).dropWhile Piece.isDigit, first, second, back, by simp⟩

theorem SideBySide.settle {after : List Spelled} (h : SideBySide (settle after)) (before : List Spelled) :
    SideBySide (Formula.settle (before ++ after)) := by
  induction before with
  | nil => exact h
  | cons s before ih =>
    cases s with
    | piece p => exact ih.cons p
    | shorthand written => exact ih.absorb written

theorem sideBySide_absorb (written next : WrittenTerm) (ps : List Piece) :
    SideBySide (absorb written (.term next :: ps)) :=
  ⟨[], _, _, ps, rfl⟩

/-! ## The text around a shorthand -/

/-- The pieces of a text with its shorthands written out, from the shorthands that are found in it. -/
theorem exists_settle_eq (cs : List Char) : ∃ spelled, Spells false (pieces cs) spelled ∧
    pieces (Shorthand.expandFrom false cs) = settle spelled := by
  obtain ⟨spelled, hspelled⟩ := exists_spells false (pieces cs)
  have hexpand := pieces_expandFrom (aligned_pieces cs) hspelled
  rw [show textOf (pieces cs) = cs from text_pieces cs] at hexpand
  exact ⟨spelled, hspelled, hexpand⟩

theorem wordAfter_eq_false (h : ∀ p ∈ ps.getLast?, p.isWord = false) : wordAfter false ps = false := by
  cases hend : ps.getLast? with
  | none =>
    rw [List.getLast?_eq_none_iff.1 hend]
    rfl
  | some p => rw [wordAfter_of_getLast? hend, h p hend]

theorem Piece.isDigit_of_isWord {p : Piece} (h : p.isWord = false) : p.isDigit = false := by
  rw [Bool.eq_false_iff]
  intro hdigit
  cases p with
  | term next => cases hdigit
  | plain c =>
    rw [Piece.isWord, isWord_of_isDigit hdigit] at h
    cases h

section

variable {before after count sides : List Char} {f : Function} {terms : List DiceTerm} {tokens : List Token}

/-- Behind a text that ends in no word a shorthand is found as it is alone. -/
theorem pieces_eq_settle (hbefore : ∀ c ∈ before.getLast?, Text.isWord c = false)
    (hcount : ∀ c ∈ count, Text.isDigit c = true) (hsides : ∀ c ∈ sides, Text.isDigit c = true)
    (hne : sides ≠ []) {front back : List Spelled} (hfront : Spells false (pieces before) front)
    (hback : Spells false (pieces after) back) :
    pieces (Shorthand.expandFrom false (before ++ (f.shorthandText count sides ++ after))) =
      settle (front ++ .shorthand (f.written count sides) :: back) := by
  have hlast := isWord_of_getLast?_pieces hbefore
  obtain ⟨sh, hsh, hpieces⟩ := exists_shorthand (f := f) hcount hsides hne after
  obtain ⟨c, hc, hletter⟩ := hsh.head?
  have hall := hfront.append (List.mem_head?_append_of_mem_head? hc) hletter (wordAfter_eq_false hlast)
    (.shorthand hsh hback)
  have haligned : Aligned (pieces before ++ (sh ++ pieces after)) :=
    (aligned_pieces before).append hlast (hpieces ▸ aligned_pieces _)
  have htext : ∀ cs, textOf (pieces cs) = cs := text_pieces
  have hformula := pieces_expandFrom haligned hall
  rwa [← hpieces, textOf_append, htext, htext] at hformula

/-- In a formula that compiles the text before a shorthand is cut as it is alone, and the shorthand takes
of the text after it what begins with a digit. -/
theorem pieces_around (hbefore : ∀ c ∈ before.getLast?, Text.isWord c = false)
    (hcount : ∀ c ∈ count, Text.isDigit c = true) (hsides : ∀ c ∈ sides, Text.isDigit c = true)
    (hne : sides ≠ [])
    (haccepts : Accepts
      (pieces (Shorthand.expandFrom false (before ++ (f.shorthandText count sides ++ after)))) terms tokens) :
    pieces (Shorthand.expandFrom false (before ++ (f.shorthandText count sides ++ after))) =
      pieces (Shorthand.expandFrom false before) ++
        absorb (f.written count sides) (pieces (Shorthand.expandFrom false after)) := by
  obtain ⟨spelled, hspelled, hfront⟩ := exists_settle_eq before
  obtain ⟨spelled', hspelled', hback⟩ := exists_settle_eq after
  have hformula := pieces_eq_settle (f := f) hbefore hcount hsides hne hspelled hspelled'
  rw [hformula] at haccepts
  rw [hformula, hfront, hback]
  rcases hspelled.last with ⟨-, rfl⟩ | ⟨p, hp, hpiece⟩ | ⟨front, sh', term', -, -, -, hshorthand⟩
  · rfl
  · exact settle_append
      (.inl ⟨p, hpiece, Piece.isDigit_of_isWord (isWord_of_getLast?_pieces hbefore p hp)⟩)
  · -- A shorthand at the end of the text before this one is a term next to it.
    obtain ⟨spelled, rfl⟩ := List.getLast?_eq_some_iff.1 hshorthand
    rw [List.append_assoc] at haccepts
    refine absurd haccepts (SideBySide.not_accepts (SideBySide.settle ?_ spelled) terms tokens)
    obtain ⟨term, rest, heq⟩ := exists_absorb_eq (f.written count sides) (settle spelled')
    rw [List.singleton_append, settle, settle, heq]
    exact sideBySide_absorb term' term rest

/-- A number behind a shorthand is no piece of its own any more. -/
theorem length_absorb {c : Char} (written : WrittenTerm) (h : ps.head? = some (.plain c))
    (hdigit : Text.isDigit c = true) : (absorb written ps).length ≤ ps.length := by
  obtain ⟨ps, rfl⟩ := List.head?_eq_some_iff.1 h
  have hpiece : (Piece.plain c).isDigit = true := hdigit
  have hdrop := (ps.dropWhile_sublist Piece.isDigit).length_le
  rw [absorb_plain, List.dropWhile_cons_of_pos hpiece, List.length_cons, List.length_cons]
  omega

theorem absorb_eq_iff {written : WrittenTerm} :
    absorb written ps = .term written :: ps ↔ ∀ p ∈ ps.head?, p.startsDigit = false := by
  refine ⟨fun h p hp => ?_, absorb_of_head⟩
  obtain ⟨ps, rfl⟩ := List.head?_eq_some_iff.1 hp
  cases p with
  | plain c =>
    rw [Piece.startsDigit, Bool.eq_false_iff]
    intro hdigit
    have hshorter := length_absorb written hp hdigit
    rw [h, List.length_cons] at hshorter
    omega
  | term next =>
    obtain ⟨-, h⟩ := List.cons.inj h
    obtain ⟨h, -⟩ := List.cons.inj h
    have hcount := congrArg WrittenTerm.count (Piece.term.inj h)
    rw [Piece.startsDigit, ← hcount]
    rfl

/-- What a shorthand takes in a formula that compiles is a number or nothing. -/
theorem absorb_of_accepts {front : List Piece} {written : WrittenTerm}
    (haccepts : Accepts (front ++ absorb written ps) terms tokens) :
    absorb written ps = .term written :: ps ∨ ∃ c, ps.head? = some (.plain c) ∧ Text.isDigit c = true := by
  by_cases hstart : ∀ p ∈ ps.head?, p.startsDigit = false
  · exact .inl (absorb_of_head hstart)
  · simp only [not_forall, Bool.not_eq_false] at hstart
    obtain ⟨p, hp, hdigit⟩ := hstart
    cases p with
    | plain c => exact .inr ⟨c, hp, hdigit⟩
    | term next =>
      obtain ⟨ps, rfl⟩ := List.head?_eq_some_iff.1 hp
      obtain ⟨front', first, second, back, heq⟩ := sideBySide_absorb written next ps
      rw [heq, ← List.append_assoc] at haccepts
      exact absurd haccepts (SideBySide.not_accepts ⟨_, first, second, back, rfl⟩ terms tokens)

end

/-! ## Digits behind a shorthand -/

/-- A character in small letters begins with a digit just if it is one. -/
theorem exists_head?_lowered (c : Char) : ∃ d, (lowered c).head? = some d ∧ Text.isDigit d = Text.isDigit c := by
  unfold lowered
  split
  · next h => exact ⟨'k', rfl, by rw [h]; rfl⟩
  · split
    · next h => exact ⟨'i', rfl, by rw [h]; rfl⟩
    · exact ⟨Text.toLowerAscii c, rfl, Text.isDigit_toLowerAscii c⟩

theorem isDigit_of_lowered (cs : List Char) :
    (∀ c ∈ (cs.flatMap lowered).head?, Text.isDigit c = false) ↔ ∀ c ∈ cs.head?, Text.isDigit c = false := by
  cases cs with
  | nil => rfl
  | cons c cs =>
    obtain ⟨d, hd, hdigit⟩ := exists_head?_lowered c
    have hhead : ((c :: cs).flatMap lowered).head? = some d := List.mem_head?_append_of_mem_head? hd
    rw [hhead]
    simp [hdigit]

/-- A text with its shorthands written out begins with a number only where it does itself. -/
theorem head?_of_plain_digit {c : Char}
    (h : (pieces (Shorthand.expandFrom false cs)).head? = some (.plain c)) : cs.head? = some c := by
  obtain ⟨spelled, hspelled, hexpand⟩ := exists_settle_eq cs
  rw [hexpand] at h
  rcases exists_head?_settle h with hpiece | ⟨term, hterm⟩
  · obtain ⟨rest, hrest⟩ := List.head?_eq_some_iff.1 (hspelled.head? hpiece)
    have htext : textOf (pieces cs) = cs := text_pieces cs
    rw [← htext, hrest]
    rfl
  · cases hterm

/-- Where a text begins with a digit, so does its first piece once the shorthands are written out. -/
theorem startsDigit_of_head? {c : Char} (h : cs.head? = some c) (hdigit : Text.isDigit c = true) :
    ∃ p, (pieces (Shorthand.expandFrom false cs)).head? = some p ∧ p.startsDigit = true := by
  obtain ⟨cs, rfl⟩ := List.head?_eq_some_iff.1 h
  have hnone : Shorthand.take? (c :: cs) = none := by
    refine Option.eq_none_iff_forall_ne_some.2 fun found htake => ?_
    obtain ⟨name, keep, keepCount, inside, dice, hrule, heq, -⟩ := take?_eq_some.1 htake
    obtain ⟨hne, hname⟩ := isLetter_of_rule hrule
    obtain ⟨d, name, rfl⟩ := List.exists_cons_of_ne_nil hne
    obtain ⟨rfl, -⟩ := List.cons.inj heq
    rw [(hname c (List.mem_cons_self ..)).2.1] at hdigit
    cases hdigit
  rw [expandFrom_cons fun _ => hnone]
  obtain ⟨p, hp, hstart⟩ := exists_head?_pieces c (Shorthand.expandFrom (Text.isWord c) cs)
  exact ⟨p, hp, hstart.trans hdigit⟩

section

variable {front : List Piece} {written : WrittenTerm} {terms : List DiceTerm} {tokens : List Token}

/-- A shorthand takes nothing from a text that begins with no digit. -/
theorem absorb_of_not_digit
    (haccepts : Accepts (front ++ absorb written (pieces (Shorthand.expandFrom false cs))) terms tokens)
    (h : ∀ c ∈ cs.head?, Text.isDigit c = false) :
    absorb written (pieces (Shorthand.expandFrom false cs)) =
      .term written :: pieces (Shorthand.expandFrom false cs) := by
  refine (absorb_of_accepts haccepts).resolve_right ?_
  rintro ⟨c, hc, hdigit⟩
  rw [h c (head?_of_plain_digit hc)] at hdigit
  cases hdigit

/-- A shorthand takes the number at the beginning of a text. -/
theorem length_absorb_of_digit
    (haccepts : Accepts (front ++ absorb written (pieces (Shorthand.expandFrom false cs))) terms tokens)
    {c : Char} (h : cs.head? = some c) (hdigit : Text.isDigit c = true) :
    (absorb written (pieces (Shorthand.expandFrom false cs))).length ≤
      (pieces (Shorthand.expandFrom false cs)).length := by
  rcases absorb_of_accepts haccepts with hsame | ⟨d, hd, hdigit⟩
  · obtain ⟨p, hp, hstart⟩ := startsDigit_of_head? h hdigit
    rw [absorb_eq_iff.1 hsame p hp] at hstart
    cases hstart
  · exact length_absorb written hd hdigit

end

/-! ## Formulas -/

section

variable {count sides : List Char} {f : Function} {kind : DieKind}

/-- The dice term of a shorthand. -/
def Function.term (f : Function) (kind : DieKind) (count : List Char) : DiceTerm where
  kind
  count := if count.isEmpty then 1 else Text.natOfDigits count
  keep := some f.keepRule

theorem term_of_read {dice : DiceTerm} (hkind : DieKind.ofSides? (Text.natOfDigits sides) = some kind)
    (h : (f.written count sides).read = .ok (some dice)) : dice = f.term kind count := by
  have hkeep : (f.written count sides).readKeep = .ok (some f.keepRule) := by
    cases f <;> rfl
  have hread : ∀ {digits n}, readCount digits = .ok n → n = Text.natOfDigits digits := by
    intro digits n h
    unfold readCount at h
    split at h
    · cases h
    · exact (Except.ok.inj h).symm
  obtain ⟨n, hn, h⟩ := bind_eq_ok.1 h
  rw [hread hn, show (f.written count sides).sides = sides from rfl, hkind] at h
  obtain ⟨m, hm, h⟩ := bind_eq_ok.1 h
  have hcount : m = (f.term kind count).count := by
    unfold readCountOrOne at hm
    split at hm
    · next hempty => exact (Except.ok.inj hm).symm.trans (if_pos hempty).symm
    · next hempty => exact (hread hm).trans (if_neg hempty).symm
  rw [hkeep] at h
  dsimp only at h
  split at h
  · cases h
  · cases h
    rw [hcount]
    rfl

theorem lowered_shorthand (hcount : ∀ c ∈ count, Text.isDigit c = true)
    (hsides : ∀ c ∈ sides, Text.isDigit c = true) :
    (f.shorthandText count sides).flatMap lowered = f.shorthandText count sides := by
  have hdigits : ∀ {cs : List Char}, (∀ c ∈ cs, Text.isDigit c = true) → cs.flatMap lowered = cs := by
    intro cs hcs
    rw [List.flatMap_congr fun c hc => lowered_of_lt ((toNat_of_isDigit (hcs c hc)).2.trans_lt
      (by decide)), List.flatMap_singleton']
  have hname : f.name.toList.flatMap lowered = f.name.toList := by cases f <;> decide
  rw [Function.shorthandText, List.flatMap_append, hname, List.flatMap_cons, List.flatMap_append,
    hdigits hcount, List.flatMap_cons, List.flatMap_append, hdigits hsides]
  rfl

end

/-- A formula with its shorthands written out, around one of them. -/
theorem expanded_around (before after : String) {count sides : String} (f : Function)
    (hcount : ∀ c ∈ count.toList, Text.isDigit c = true)
    (hsides : ∀ c ∈ sides.toList, Text.isDigit c = true) :
    expanded (before ++ (f.name ++ "(" ++ count ++ "d" ++ sides ++ ")") ++ after) =
      Shorthand.expandFrom false (before.toList.flatMap lowered ++
        (f.shorthandText count.toList sides.toList ++ after.toList.flatMap lowered)) := by
  rw [expanded, String.toList_append, String.toList_append, List.flatMap_append, List.flatMap_append,
    List.append_assoc, ← lowered_shorthand (f := f) hcount hsides]
  simp [Function.shorthandText]

/-- A formula that compiles, by its pieces. -/
theorem exists_accepts_of_compile {formula : String} {compiled : Compiled}
    (h : compile formula = .ok compiled) : ∃ parts tokens, partsOf formula = .ok parts ∧
      .plain 'd' ∉ parts ∧ compiled.terms = parts.filterMap Part.term? ∧
        Accepts (pieces (expanded formula)) compiled.terms tokens := by
  have hreading : reading formula = some (compiled.terms, tokenize compiled.template) := by
    rw [reading, h]
    rfl
  obtain ⟨terms, tokens, heq, haccepts⟩ := reading_eq_some.1 hreading
  obtain ⟨parts, hreaches, ⟨amount, hrun⟩, rfl⟩ := compile_eq_ok.1 h
  obtain ⟨rfl, -⟩ := Prod.mk.inj heq
  exact ⟨parts, tokens, hreaches.read, fun hmem => d_notMem_of_evaluate hrun (mem_templateFrom hmem), rfl,
    haccepts⟩

/-- In a formula that compiles, the shorthand is compiled to its dice term with its keep rule, and what stands
around it to what it is alone, if and only if no digit follows. -/
theorem shorthand_kept_iff {before after count sides : String} {f : Function} {kind : DieKind}
    {compiled : Compiled} (hcount : ∀ c ∈ count.toList, Text.isDigit c = true)
    (hsides : ∀ c ∈ sides.toList, Text.isDigit c = true)
    (hkind : DieKind.ofSides? (Text.natOfDigits sides.toList) = some kind)
    (hword : ∀ c ∈ (before.toList.flatMap lowered).getLast?, Text.isWord c = false)
    (hcompile : compile (before ++ (f.name ++ "(" ++ count ++ "d" ++ sides ++ ")") ++ after) =
      .ok compiled) :
    (∃ front back, partsOf before = .ok front ∧ partsOf after = .ok back ∧
        partsOf (before ++ (f.name ++ "(" ++ count ++ "d" ++ sides ++ ")") ++ after) =
          .ok (front ++ .place (f.term kind count.toList) :: back) ∧
        compiled.terms = front.filterMap Part.term? ++ f.term kind count.toList :: back.filterMap Part.term?) ↔
      ∀ c ∈ after.toList.head?, Text.isDigit c = false := by
  obtain ⟨parts, tokens, hparts, hnone, hterms, haccepts⟩ := exists_accepts_of_compile hcompile
  have hne : sides.toList ≠ [] := fun hempty => by
    rw [hempty] at hkind
    cases hkind
  have hexpanded := expanded_around before after f hcount hsides
  rw [hexpanded] at haccepts
  have haround := pieces_around hword hcount hsides hne haccepts
  rw [haround] at haccepts
  have hread : ∀ {text parts'}, partsOf text = .ok parts' → .plain 'd' ∉ parts' →
      List.Forall₂ Piece.Becomes (pieces (expanded text)) parts' := fun h => becomes_of_readPieces h
  have hbecomes := hread hparts hnone
  rw [hexpanded, haround] at hbecomes
  constructor
  · rintro ⟨front, back, hfront, hback, hformula, -⟩
    by_contra hdigit
    rw [← isDigit_of_lowered] at hdigit
    simp only [not_forall, Bool.not_eq_false] at hdigit
    obtain ⟨c, hc, hdigit⟩ := hdigit
    have hshorter := length_absorb_of_digit haccepts hc hdigit
    cases hparts.symm.trans hformula
    simp only [List.mem_append, List.mem_cons, not_or] at hnone
    have hall := hbecomes.length_eq
    have hbefore := (hread hfront hnone.1).length_eq
    have hafter := (hread hback hnone.2.2).length_eq
    simp only [List.length_append, List.length_cons, expanded] at hall hbefore hafter
    omega
  · intro hnot
    have hsame := absorb_of_not_digit haccepts ((isDigit_of_lowered _).2 hnot)
    rw [hsame, ← expanded, ← expanded] at hbecomes
    obtain ⟨front, later, rfl, hfront, hlater⟩ := becomes_append.1 hbecomes
    cases hlater with
    | @cons _ part _ back hterm hback =>
    cases hterm with
    | place hdice =>
      obtain rfl := term_of_read hkind hdice
      refine ⟨front, back, readPieces_of_becomes hfront, readPieces_of_becomes hback, hparts, ?_⟩
      rw [hterms, List.filterMap_append]
      rfl

/-- `max(1d6)` keeps the highest die, and with a number right behind it the highest twelve. -/
theorem shorthand_takes_digits :
    (∃ front back, partsOf "1 + " = .ok front ∧ partsOf " * 2" = .ok back ∧
      partsOf ("1 + " ++ "max(1d6)" ++ " * 2") =
        .ok (front ++ .place ⟨.d6, 1, some (.highest 1)⟩ :: back)) ∧
      (compile ("" ++ "max(1d6)" ++ "2")).toOption.map Compiled.terms =
        some [⟨.d6, 1, some (.highest 12)⟩] ∧
      ∃ compiled, compile ("" ++ "max(1d6)" ++ "2") = .ok compiled ∧
        ¬∃ front back, partsOf "" = .ok front ∧ partsOf "2" = .ok back ∧
          partsOf ("" ++ "max(1d6)" ++ "2") =
            .ok (front ++ .place ⟨.d6, 1, some (.highest 1)⟩ :: back) ∧
          compiled.terms = front.filterMap Part.term? ++ ⟨.d6, 1, some (.highest 1)⟩ ::
            back.filterMap Part.term? := by
  have hone : ∀ c ∈ "1".toList, Text.isDigit c = true := List.forall_mem_singleton.2 rfl
  have hsix : ∀ c ∈ "6".toList, Text.isDigit c = true := List.forall_mem_singleton.2 rfl
  have hkept : (compile ("1 + " ++ "max(1d6)" ++ " * 2")).toOption.map Compiled.terms =
      some [⟨.d6, 1, some (.highest 1)⟩] := by decide +kernel
  have htaken : (compile ("" ++ "max(1d6)" ++ "2")).toOption.map Compiled.terms =
      some [⟨.d6, 1, some (.highest 12)⟩] := by decide +kernel
  obtain ⟨kept, hkept, -⟩ := Option.map_eq_some_iff.1 hkept
  obtain ⟨taken, htaken', -⟩ := Option.map_eq_some_iff.1 htaken
  have hfirst := @shorthand_kept_iff "1 + " " * 2" "1" "6" .max .d6 kept hone hsix rfl
    (by rintro _ ⟨⟩; rfl) (toOption_eq_some.1 hkept)
  have hsecond := @shorthand_kept_iff "" "2" "1" "6" .max .d6 taken hone hsix rfl nofun
    (toOption_eq_some.1 htaken')
  refine ⟨?_, htaken, taken, toOption_eq_some.1 htaken', fun hsame => ?_⟩
  · obtain ⟨front, back, hfront, hback, hformula, -⟩ := hfirst.2 (by rintro _ ⟨⟩; rfl)
    exact ⟨front, back, hfront, hback, hformula⟩
  · cases hsecond.1 hsame '2' rfl

end RollTray.Formula
