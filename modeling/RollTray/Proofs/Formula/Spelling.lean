import RollTray.Proofs.Formula.Pieces

/-!
# Shorthands among the pieces of a text

A shorthand of a text is a shorthand of its pieces: a name, a parenthesis and a dice term alone in it
(`take?_eq`, `exists_of_take?`).

Writing the shorthands out works on a text, and cutting into dice terms comes after it. On pieces
(`pieces_expandFrom`), the shorthands are found from left to right (`Spells`), and then each becomes a
dice term that takes the digits after it for the number of dice it keeps (`settle`). These digits are of
what stands there once it is settled itself, so `settle` goes from right to left. Where a shorthand takes
no digits over the border, two parts are settled each by itself (`settle_append`).
-/

namespace RollTray.Formula

/-! ## Shorthands -/

/-- The names that make shorthands, with the keep rule and the number of dice that each stands for. -/
def shorthandRules : List (List Char × KeepWord × List Char) :=
  [("max".toList, .highest, ['1']), ("min".toList, .lowest, ['1']), ("avg".toList, .average, [])]

theorem keepRules_eq : Shorthand.keepRules =
    shorthandRules.map fun rule => (rule.1, rule.2.1.text ++ rule.2.2) := rfl

def Piece.isSpace : Piece → Bool
  | plain c => Text.isSpace c
  | term _ => false

def Piece.isLetter : Piece → Bool
  | plain c => Text.isLetter c
  | term _ => false

/-- These pieces are one dice term without a keep rule, white space around it, and a closing
parenthesis. -/
inductive Argument : List Piece → WrittenTerm → Prop
  | mk {before after : List Char} (hbefore : ∀ c ∈ before, Text.isSpace c = true)
      {written : WrittenTerm} (plain : written.keep = none)
      (hafter : ∀ c ∈ after, Text.isSpace c = true) :
      Argument (before.map .plain ++ .term written :: (after.map .plain ++ [.plain ')'])) written

/-- These pieces are a shorthand of the term. -/
inductive IsShorthand : List Piece → WrittenTerm → Prop
  | mk {name keepCount : List Char} {keep : KeepWord}
      (rule : (name, keep, keepCount) ∈ shorthandRules) {inside : List Piece} {written : WrittenTerm}
      (argument : Argument inside written) :
      IsShorthand (name.map .plain ++ .plain '(' :: inside)
        { written with keep := some keep, keepCount }

/-- The characters of a name that makes shorthands. -/
theorem isLetter_of_rule {name keepCount : List Char} {keep : KeepWord}
    (h : (name, keep, keepCount) ∈ shorthandRules) :
    name ≠ [] ∧ ∀ c ∈ name, Text.isLetter c = true ∧ Text.isDigit c = false ∧ c ≠ 'd' := by
  have hall : name ≠ [] ∧
      (name.all fun c => Text.isLetter c && !Text.isDigit c && c != 'd') = true := by
    simp only [shorthandRules, List.mem_cons, List.not_mem_nil, or_false, Prod.mk.injEq] at h
    rcases h with ⟨rfl, -⟩ | ⟨rfl, -⟩ | ⟨rfl, -⟩ <;> decide
  refine hall.imp_right fun hall c hc => ?_
  simpa [and_assoc] using List.all_eq_true.1 hall c hc

theorem isDigit_of_rule {name keepCount : List Char} {keep : KeepWord}
    (h : (name, keep, keepCount) ∈ shorthandRules) : ∀ c ∈ keepCount, Text.isDigit c = true := by
  simp only [shorthandRules, List.mem_cons, List.not_mem_nil, or_false, Prod.mk.injEq] at h
  rcases h with ⟨-, -, rfl⟩ | ⟨-, -, rfl⟩ | ⟨-, -, rfl⟩ <;> simp <;> decide

theorem takeDice?_eq_some {cs dice rest : List Char} : Shorthand.takeDice? cs = some (dice, rest) ↔
    ∃ count sides, (∀ c ∈ count, Text.isDigit c = true) ∧ (∀ c ∈ sides, Text.isDigit c = true) ∧
      sides ≠ [] ∧ (∀ c ∈ rest.head?, Text.isDigit c = false) ∧ dice = count ++ 'd' :: sides ∧
        cs = count ++ 'd' :: (sides ++ rest) := by
  constructor
  · intro h
    have hcs : cs.takeWhile Text.isDigit ++ cs.dropWhile Text.isDigit = cs :=
      List.takeWhile_append_dropWhile
    have htake : ∀ cs : List Char, ∀ c ∈ cs.takeWhile Text.isDigit, Text.isDigit c = true :=
      fun cs c hc => List.mem_takeWhile_imp hc
    unfold Shorthand.takeDice? at h
    split at h
    · next tail htail =>
      split at h
      · cases h
      · next hne =>
        cases h
        refine ⟨_, _, htake _, htake _, hne, head_of_dropWhile _, rfl, ?_⟩
        rw [List.takeWhile_append_dropWhile, ← htail, hcs]
    · cases h
  · rintro ⟨count, sides, hcount, hsides, hne, hrest, rfl, rfl⟩
    have htail : ('d' :: (sides ++ rest)).dropWhile Text.isDigit = 'd' :: (sides ++ rest) := rfl
    have hfront : ('d' :: (sides ++ rest)).takeWhile Text.isDigit = [] := rfl
    unfold Shorthand.takeDice?
    rw [List.dropWhile_append_of_pos hcount, List.takeWhile_append_of_pos hcount, htail, hfront,
      List.append_nil]
    split
    · next tail heq =>
      obtain ⟨-, rfl⟩ := List.cons.inj heq
      rw [List.takeWhile_append_of_pos hsides, List.dropWhile_append_of_pos hsides,
        takeWhile_of_head hrest, dropWhile_of_head hrest, List.append_nil]
      split
      · exact absurd rfl hne
      · rfl
    · next hno => exact absurd rfl (hno _)

theorem takeArgument?_eq_some {cs dice rest : List Char} :
    Shorthand.takeArgument? cs = some (dice, rest) ↔
      ∃ before after tail, (∀ c ∈ before, Text.isSpace c = true) ∧
        (∀ c ∈ after, Text.isSpace c = true) ∧ (∀ c ∈ tail.head?, Text.isSpace c = false) ∧
          cs = before ++ tail ∧ Shorthand.takeDice? tail = some (dice, after ++ ')' :: rest) := by
  constructor
  · intro h
    have htake : ∀ cs : List Char, ∀ c ∈ cs.takeWhile Text.isSpace, Text.isSpace c = true :=
      fun cs c hc => List.mem_takeWhile_imp hc
    unfold Shorthand.takeArgument? at h
    split at h
    · cases h
    · next dice' tail hdice =>
      split at h
      · next tail' htail =>
        cases h
        refine ⟨_, tail.takeWhile Text.isSpace, _, htake cs, htake tail, head_of_dropWhile _,
          List.takeWhile_append_dropWhile.symm, ?_⟩
        rw [hdice, ← htail, List.takeWhile_append_dropWhile]
      · cases h
  · rintro ⟨before, after, tail, hbefore, hafter, hhead, rfl, hdice⟩
    unfold Shorthand.takeArgument?
    rw [List.dropWhile_append_of_pos hbefore, dropWhile_of_head hhead, hdice]
    dsimp only
    rw [List.dropWhile_append_of_pos hafter]
    rfl

theorem take?_eq_some {cs written rest : List Char} :
    Shorthand.take? cs = some (written, rest) ↔ ∃ name keep keepCount inside dice,
      (name, keep, keepCount) ∈ shorthandRules ∧ cs = name ++ '(' :: inside ∧
        Shorthand.takeArgument? inside = some (dice, rest) ∧
          written = dice ++ (KeepWord.text keep ++ keepCount) := by
  constructor
  · intro h
    unfold Shorthand.take? at h
    obtain ⟨⟨name, rule⟩, hmem, hname⟩ := List.exists_of_findSome?_eq_some h
    rw [keepRules_eq] at hmem
    obtain ⟨⟨name, keep, keepCount⟩, hrule, heq⟩ := List.mem_map.1 hmem
    cases heq
    dsimp only at hname
    split at hname
    · cases hname
    · next inside hskip =>
      obtain ⟨⟨dice, rest'⟩, hdice, heq⟩ := Option.map_eq_some_iff.1 hname
      cases heq
      refine ⟨name, keep, keepCount, inside, dice, hrule, ?_, hdice, rfl⟩
      rw [Text.eq_append_of_skip? hskip]
      simp
  · rintro ⟨name, keep, keepCount, inside, dice, hrule, rfl, hdice, rfl⟩
    simp only [shorthandRules, List.mem_cons, List.not_mem_nil, or_false, Prod.mk.injEq] at hrule
    unfold Shorthand.take?
    rcases hrule with ⟨rfl, rfl, rfl⟩ | ⟨rfl, rfl, rfl⟩ | ⟨rfl, rfl, rfl⟩
    · simp [Shorthand.keepRules, Text.skip?, hdice, KeepWord.text]
    · simp [Shorthand.keepRules, Text.skip?, hdice, KeepWord.text]
    · simp [Shorthand.keepRules, Text.skip?, hdice, KeepWord.text]

theorem text_of_keep_none {written : WrittenTerm} (hproper : written.Proper)
    (hplain : written.keep = none) : written.text = written.count ++ 'd' :: written.sides := by
  simp [WrittenTerm.text, hplain, hproper.plain hplain]

theorem isWord_of_head_text {written : WrittenTerm} (hproper : written.Proper) {rest : List Char}
    {c : Char} (hc : c ∈ (written.text ++ rest).head?) : Text.isWord c = true := by
  rcases hcount : written.count with _ | ⟨digit, digits⟩
  · simp only [WrittenTerm.text, hcount, List.nil_append, List.cons_append, List.head?_cons,
      Option.mem_some_iff] at hc
    subst hc
    decide
  · simp only [WrittenTerm.text, hcount, List.cons_append, List.head?_cons, Option.mem_some_iff] at hc
    exact hc ▸ isWord_of_isDigit (hproper.count digit (hcount ▸ List.mem_cons_self ..))

/-- The dice term of an argument stands before the white space and the parenthesis after it. -/
theorem Argument.exists_before {inside rest : List Piece} {written : WrittenTerm}
    (h : Argument inside written) (haligned : Aligned (inside ++ rest)) : ∃ before after,
      (∀ c ∈ before, Text.isSpace c = true) ∧ (∀ c ∈ after, Text.isSpace c = true) ∧
        textOf (inside ++ rest) = before ++ (written.text ++ (after ++ ')' :: textOf rest)) ∧
          (Piece.term written).Before (after ++ ')' :: textOf rest) := by
  cases h with | @mk before after hbefore _ hplain hafter =>
  refine ⟨before, after, hbefore, hafter, by simp [Piece.text], ?_⟩
  have htail : Aligned (before.map .plain ++
      .term written :: (after.map .plain ++ .plain ')' :: rest)) := by simpa using haligned
  simpa [Piece.text] using (aligned_cons.1 htail.of_append).1

theorem Argument.keep_eq {inside : List Piece} {written : WrittenTerm} (h : Argument inside written) :
    written.keep = none := by
  cases h
  assumption

theorem IsShorthand.proper {sh rest : List Piece} {term : WrittenTerm} (h : IsShorthand sh term)
    (haligned : Aligned (sh ++ rest)) : term.Proper ∧ term.keep ≠ none := by
  cases h with | @mk name keepCount keep hrule inside written hargument =>
  have hinside : Aligned ((name.map .plain ++ [.plain '(']) ++ (inside ++ rest)) := by
    simpa using haligned
  obtain ⟨before, after, -, -, -, hterm⟩ := hargument.exists_before hinside.of_append
  obtain ⟨hproper, -, -⟩ := takeTerm?_eq_some.1 hterm
  exact ⟨⟨hproper.count, hproper.sides, hproper.nonempty, isDigit_of_rule hrule, nofun⟩, nofun⟩

/-- A shorthand among pieces is one of their text. -/
theorem IsShorthand.take?_eq {sh rest : List Piece} {term : WrittenTerm} (h : IsShorthand sh term)
    (haligned : Aligned (sh ++ rest)) :
    Shorthand.take? (textOf (sh ++ rest)) = some (term.text, textOf rest) := by
  cases h with | @mk name keepCount keep hrule inside written hargument =>
  have hinside : Aligned ((name.map .plain ++ [.plain '(']) ++ (inside ++ rest)) := by
    simpa using haligned
  obtain ⟨before, after, hbefore, hafter, htext', hterm⟩ :=
    hargument.exists_before hinside.of_append
  obtain ⟨hproper, hstops, -⟩ := takeTerm?_eq_some.1 hterm
  have htext := text_of_keep_none hproper hargument.keep_eq
  have hdice : Shorthand.takeDice? (written.text ++ (after ++ ')' :: textOf rest)) =
      some (written.text, after ++ ')' :: textOf rest) := by
    refine takeDice?_eq_some.2 ⟨written.count, written.sides, hproper.count, hproper.sides,
      hproper.nonempty, hstops.digit, htext, ?_⟩
    rw [htext]
    simp
  have hargument' : Shorthand.takeArgument? (textOf (inside ++ rest)) =
      some (written.text, textOf rest) :=
    takeArgument?_eq_some.2 ⟨before, after, _, hbefore, hafter,
      fun c hc => isSpace_of_isWord (isWord_of_head_text hproper hc), htext', hdice⟩
  refine take?_eq_some.2 ⟨name, keep, keepCount, _, written.text, hrule, ?_, hargument', ?_⟩
  · simp [Piece.text]
  · rw [htext]
    simp [WrittenTerm.text]

/-- A shorthand in the text of pieces is one among them. -/
theorem exists_of_take? {ps : List Piece} (haligned : Aligned ps) {written rest : List Char}
    (h : Shorthand.take? (textOf ps) = some (written, rest)) :
    ∃ sh ps' term, ps = sh ++ ps' ∧ IsShorthand sh term ∧ term.text = written ∧ textOf ps' = rest := by
  obtain ⟨name, keep, keepCount, inside, dice, hrule, htext, hargument, rfl⟩ := take?_eq_some.1 h
  obtain ⟨before, after, tail, hbefore, hafter, -, rfl, hdice⟩ := takeArgument?_eq_some.1 hargument
  obtain ⟨count, sides, hcount, hsides, hne, hhead, rfl, rfl⟩ := takeDice?_eq_some.1 hdice
  let term : WrittenTerm := ⟨count, sides, none, []⟩
  have hterm : (Piece.term term).Before (after ++ ')' :: rest) := by
    refine takeTerm?_eq_some.2 ⟨⟨hcount, hsides, hne, List.forall_mem_nil _, fun _ => rfl⟩,
      ⟨hhead, fun _ => takeKeep_of_head ?_⟩, rfl⟩
    cases after with
    | nil => simp
    | cons c after =>
      rintro d hd rfl
      cases hd
      exact absurd (hafter _ (List.mem_cons_self ..)) (by decide)
  refine ⟨name.map .plain ++ .plain '(' :: (before.map .plain ++ .term term ::
    (after.map .plain ++ [.plain ')'])), pieces rest, { term with keep := some keep, keepCount }, ?_,
    .mk hrule (.mk hbefore rfl hafter), ?_, text_pieces rest⟩
  · have hrest : textOf (pieces rest) = rest := text_pieces rest
    have hafter' : Aligned (after.map .plain ++ ([')'].map .plain ++ pieces rest)) :=
      aligned_plain (fun c hc => opens_of_isSpace (hafter c hc))
        (aligned_plain (List.forall_mem_singleton.2 ⟨rfl, by decide⟩) (aligned_pieces rest))
    have hterm' : Aligned (.term term :: (after.map .plain ++ ([')'].map .plain ++ pieces rest))) :=
      aligned_cons.2 ⟨by simpa [hrest, Piece.text] using hterm, hafter'⟩
    have hname : Aligned (name.map .plain ++ (['('].map .plain ++ (before.map .plain ++
        .term term :: (after.map .plain ++ ([')'].map .plain ++ pieces rest))))) :=
      aligned_plain (fun c hc => ((isLetter_of_rule hrule).2 c hc).2)
        (aligned_plain (List.forall_mem_singleton.2 ⟨rfl, by decide⟩)
          (aligned_plain (fun c hc => opens_of_isSpace (hbefore c hc)) hterm'))
    rw [← haligned, htext]
    simpa [Aligned, Piece.text, WrittenTerm.text, term, hrest] using hname
  · simp [WrittenTerm.text, term]

/-! ## Writing shorthands out -/

/-- A piece of a formula, or a term that a shorthand stands for. -/
inductive Spelled where
  | piece (p : Piece)
  | shorthand (term : WrittenTerm)
  deriving DecidableEq, Repr

/-- Whether a text continues a word after such pieces; `inWord` says whether it does before them. -/
def wordAfter (inWord : Bool) (ps : List Piece) : Bool :=
  ps.foldl (fun _ p => p.isWord) inWord

/-- The pieces begin with a shorthand. -/
def BeginsShorthand (ps : List Piece) : Prop :=
  ∃ sh rest term, IsShorthand sh term ∧ ps = sh ++ rest

/-- Pieces with their shorthands, read from left to right; `inWord` says whether they continue a
word. -/
inductive Spells : Bool → List Piece → List Spelled → Prop
  | nil {inWord : Bool} : Spells inWord [] []
  | shorthand {sh rest : List Piece} {term : WrittenTerm} {spelled : List Spelled}
      (h : IsShorthand sh term) (tail : Spells false rest spelled) :
      Spells false (sh ++ rest) (.shorthand term :: spelled)
  | piece {inWord : Bool} {p : Piece} {ps : List Piece} {spelled : List Spelled}
      (h : inWord = false → ¬BeginsShorthand (p :: ps))
      (tail : Spells p.isWord ps spelled) : Spells inWord (p :: ps) (.piece p :: spelled)

/-- The digit that a piece is. -/
def Piece.isDigit : Piece → Bool
  | plain c => Text.isDigit c
  | term _ => false

/-- A term with the pieces after it. The number of dice that its keep rule keeps goes on with the
digits that follow, be they those of a number or of another dice term. -/
def absorb (written : WrittenTerm) : List Piece → List Piece
  | .term next :: ps =>
    .term { written with keepCount := written.keepCount ++ next.count } ::
      .term { next with count := [] } :: ps
  | ps =>
    .term { written with keepCount := written.keepCount ++ textOf (ps.takeWhile Piece.isDigit) } ::
      ps.dropWhile Piece.isDigit

/-- The pieces of a text with its shorthands written out. -/
def settle : List Spelled → List Piece
  | [] => []
  | .piece p :: spelled => p :: settle spelled
  | .shorthand written :: spelled => absorb written (settle spelled)

/-- Digits at the front of a text, where no dice term begins with them. -/
theorem pieces_dropWhile_isDigit {cs : List Char} (h : takeTerm? cs = none) :
    cs.takeWhile Text.isDigit = textOf ((pieces cs).takeWhile Piece.isDigit) ∧
      pieces (cs.dropWhile Text.isDigit) = (pieces cs).dropWhile Piece.isDigit := by
  induction cs with
  | nil =>
    rw [pieces]
    exact ⟨rfl, pieces.eq_1⟩
  | cons c cs ih =>
    by_cases hc : Text.isDigit c = true
    · have hcs : takeTerm? cs = none := by
        rw [← Option.not_isSome_iff_eq_none, takeTerm?_isSome] at h ⊢
        rintro ⟨digits, side, tail, rfl, hdigits, hside⟩
        exact h ⟨c :: digits, side, tail, rfl, List.forall_mem_cons.2 ⟨hc, hdigits⟩, hside⟩
      obtain ⟨htake, hdrop⟩ := ih hcs
      have hpiece : (Piece.plain c).isDigit = true := hc
      rw [pieces_of_plain h, List.takeWhile_cons_of_pos hc, List.dropWhile_cons_of_pos hc,
        List.takeWhile_cons_of_pos hpiece, List.dropWhile_cons_of_pos hpiece, htake]
      exact ⟨rfl, hdrop⟩
    · have hpiece : ¬(Piece.plain c).isDigit = true := hc
      rw [pieces_of_plain h, List.takeWhile_cons_of_neg hc, List.dropWhile_cons_of_neg hc,
        List.takeWhile_cons_of_neg hpiece, List.dropWhile_cons_of_neg hpiece]
      exact ⟨rfl, pieces_of_plain h⟩

/-- A term with a keep rule and the text after it. -/
theorem pieces_text_append {written : WrittenTerm} (hproper : written.Proper)
    (hkeep : written.keep ≠ none) (cs : List Char) :
    pieces (written.text ++ cs) = absorb written (pieces cs) := by
  have hfirst : takeTerm? (written.text ++ cs) = some
      ({ written with keepCount := written.keepCount ++ cs.takeWhile Text.isDigit },
        cs.dropWhile Text.isDigit) := by
    refine takeTerm?_eq_some.2 ⟨⟨hproper.count, hproper.sides, hproper.nonempty, ?_, fun hnone => ?_⟩,
      ⟨head_of_dropWhile cs, fun hnone => absurd hnone hkeep⟩, ?_⟩
    · exact List.forall_mem_append.2 ⟨hproper.keepCount, fun c hc => List.mem_takeWhile_imp hc⟩
    · exact absurd hnone hkeep
    · simp [WrittenTerm.text, List.takeWhile_append_dropWhile]
  rw [pieces_of_term hfirst]
  cases hcs : takeTerm? cs with
  | none =>
    obtain ⟨htake, hdrop⟩ := pieces_dropWhile_isDigit hcs
    rw [htake, hdrop]
    cases cs with
    | nil =>
      rw [pieces]
      rfl
    | cons c cs =>
      rw [pieces_of_plain hcs]
      rfl
  | some found =>
    obtain ⟨next, rest⟩ := found
    obtain ⟨hnext, hstops, rfl⟩ := takeTerm?_eq_some.1 hcs
    have htail : (next.text ++ rest) = next.count ++ ({ next with count := [] }.text ++ rest) := by
      simp [WrittenTerm.text]
    have hd : ∀ c ∈ ({ next with count := [] }.text ++ rest).head?, Text.isDigit c = false := by
      rintro c hc
      cases hc
      rfl
    have hlater : takeTerm? ({ next with count := [] }.text ++ rest) =
        some ({ next with count := [] }, rest) :=
      takeTerm?_eq_some.2 ⟨⟨List.forall_mem_nil _, hnext.sides, hnext.nonempty, hnext.keepCount,
        hnext.plain⟩, ⟨hstops.digit, hstops.keep⟩, rfl⟩
    rw [pieces_of_term hcs, htail, List.takeWhile_append_of_pos hnext.count,
      List.dropWhile_append_of_pos hnext.count, takeWhile_of_head hd, dropWhile_of_head hd,
      pieces_of_term hlater, List.append_nil]
    rfl

/-! ### The text that is written out -/

theorem expandFrom_of_take? {cs written rest : List Char}
    (h : Shorthand.take? cs = some (written, rest)) :
    Shorthand.expandFrom false cs = written ++ Shorthand.expandFrom false rest := by
  cases cs with
  | nil =>
    have hlength := Shorthand.length_take? h
    cases hlength
  | cons c tail =>
    rw [Shorthand.expandFrom]
    split
    · next heq =>
      cases h.symm.trans heq
      rfl
    · next heq => cases h.symm.trans heq

theorem expandFrom_cons {inWord : Bool} {c : Char} {tail : List Char}
    (h : inWord = false → Shorthand.take? (c :: tail) = none) :
    Shorthand.expandFrom inWord (c :: tail) = c :: Shorthand.expandFrom (Text.isWord c) tail := by
  rw [Shorthand.expandFrom]
  split
  · next heq =>
    split at heq
    · cases heq
    · next hword => cases (h (Bool.eq_false_iff.2 hword)).symm.trans heq
  · rfl

/-- No shorthand begins within a word. -/
theorem expandFrom_word {word : List Char} (hword : ∀ c ∈ word, Text.isWord c = true)
    (tail : List Char) :
    Shorthand.expandFrom true (word ++ tail) = word ++ Shorthand.expandFrom true tail := by
  induction word with
  | nil => rfl
  | cons c word ih =>
    obtain ⟨hc, hword⟩ := List.forall_mem_cons.1 hword
    rw [List.cons_append, expandFrom_cons (fun h => absurd h (by decide)), hc, ih hword]
    rfl

theorem showsNoMore_expandFrom (cs : List Char) :
    ShowsNoMore (Shorthand.expandFrom true cs) cs := by
  intro word hword h
  induction word generalizing cs with
  | nil => exact List.nil_prefix
  | cons c word ih =>
    obtain ⟨hc, hword⟩ := List.forall_mem_cons.1 hword
    cases cs with
    | nil =>
      rw [Shorthand.expandFrom] at h
      exact h
    | cons d cs =>
      rw [expandFrom_cons (fun h => absurd h (by decide))] at h
      obtain ⟨rfl, h⟩ := List.cons_prefix_cons.1 h
      rw [hc] at h
      exact List.cons_prefix_cons.2 ⟨rfl, ih cs hword h⟩

theorem WrittenTerm.Proper.isWord_text {written : WrittenTerm} (h : written.Proper) :
    ∀ c ∈ written.text, Text.isWord c = true := by
  have hkeep : ∀ c ∈ (written.keep.map KeepWord.text).getD [], Text.isWord c = true := by
    cases written.keep with
    | none => exact List.forall_mem_nil _
    | some keep => exact keep.isWord_text
  intro c hc
  simp only [WrittenTerm.text, List.mem_append, List.mem_cons] at hc
  rcases hc with ((hc | rfl | hc) | hc) | hc
  · exact isWord_of_isDigit (h.count c hc)
  · decide
  · exact isWord_of_isDigit (h.sides c hc)
  · exact hkeep c hc
  · exact isWord_of_isDigit (h.keepCount c hc)

/-- The pieces of a text whose shorthands have been written out. -/
theorem pieces_expandFrom {inWord : Bool} {ps : List Piece} {spelled : List Spelled}
    (haligned : Aligned ps) (h : Spells inWord ps spelled) :
    pieces (Shorthand.expandFrom inWord (textOf ps)) = settle spelled := by
  induction h with
  | nil =>
    rw [textOf_nil, Shorthand.expandFrom, pieces]
    rfl
  | shorthand hsh tail ih =>
    obtain ⟨hproper, hkeep⟩ := hsh.proper haligned
    rw [expandFrom_of_take? (hsh.take?_eq haligned), pieces_text_append hproper hkeep,
      ih haligned.of_append]
    rfl
  | @piece inWord p ps spelled hno tail ih =>
    obtain ⟨hbefore, hps⟩ := aligned_cons.1 haligned
    have hnone : inWord = false → Shorthand.take? (textOf (p :: ps)) = none := by
      intro hword
      refine Option.eq_none_iff_forall_ne_some.2 fun found htake => ?_
      obtain ⟨sh, ps', term, heq, hsh, -, -⟩ := exists_of_take? haligned htake
      exact hno hword ⟨sh, ps', term, hsh, heq⟩
    have hexpand : Shorthand.expandFrom inWord (textOf (p :: ps)) =
        p.text ++ Shorthand.expandFrom p.isWord (textOf ps) := by
      cases p with
      | plain c => exact expandFrom_cons hnone
      | term written =>
        -- All of a dice term is one word, and no shorthand begins within a word.
        have hproper := (takeTerm?_eq_some.1 hbefore).1
        have hword := hproper.isWord_text
        rw [textOf_cons] at hnone ⊢
        have hne : written.text ≠ [] := by simp [WrittenTerm.text]
        obtain ⟨c, word, heq⟩ := List.exists_cons_of_ne_nil hne
        rw [Piece.text, heq, List.cons_append] at hnone ⊢
        rw [heq] at hword
        obtain ⟨hc, hword⟩ := List.forall_mem_cons.1 hword
        rw [expandFrom_cons hnone, hc, expandFrom_word hword]
        rfl
    rw [hexpand, settle, ← ih hps]
    refine (hbefore.mono fun hword => ?_).pieces_eq
    rw [hword]
    exact showsNoMore_expandFrom _

/-! ## Digits after shorthands -/

section

variable {ps front back : List Piece} {written : WrittenTerm} {before after : List Spelled}

/-- The piece begins with a digit. -/
def Piece.startsDigit : Piece → Bool
  | .plain c => Text.isDigit c
  | .term written => !written.count.isEmpty

theorem absorb_of_head (h : ∀ p ∈ ps.head?, p.startsDigit = false) :
    absorb written ps = .term written :: ps := by
  cases ps with
  | nil => simp [absorb]
  | cons p ps =>
    have hp := h p rfl
    cases p with
    | plain c =>
      have hc : ¬(Piece.plain c).isDigit = true := by simpa [Piece.startsDigit, Piece.isDigit] using hp
      rw [absorb, List.takeWhile_cons_of_neg hc, List.dropWhile_cons_of_neg hc]
      · simp
      · nofun
    | term next =>
      have hcount : next.count = [] := by simpa [Piece.startsDigit] using hp
      rw [absorb, hcount, List.append_nil, ← hcount]

theorem absorb_plain (c : Char) (ps : List Piece) : absorb written (.plain c :: ps) =
    .term { written with keepCount :=
        written.keepCount ++ textOf ((Piece.plain c :: ps).takeWhile Piece.isDigit) } ::
      (Piece.plain c :: ps).dropWhile Piece.isDigit :=
  rfl

/-- A term takes no more than the digits right after it. -/
theorem absorb_append (h : (∃ p ∈ front, p.isDigit = false) ∨ ∀ p ∈ back.head?, p.startsDigit = false) :
    absorb written (front ++ back) = absorb written front ++ back := by
  by_cases hfront : ∃ p ∈ front, p.isDigit = false
  · cases front with
    | nil => simp at hfront
    | cons p front =>
      cases p with
      | term next => rfl
      | plain c =>
        have hspan := takeWhile_append_of_exists hfront back
        rw [List.cons_append] at hspan
        rw [List.cons_append, absorb_plain, hspan.1, hspan.2]
        rfl
  · have hback := h.resolve_left hfront
    simp only [not_exists, not_and, Bool.not_eq_false] at hfront
    cases front with
    | nil =>
      have hnil : absorb written [] = [.term written] := absorb_of_head nofun
      rw [List.nil_append, absorb_of_head hback, hnil]
      rfl
    | cons p front =>
      have hdigit := hfront p (List.mem_cons_self ..)
      cases p with
      | term next => cases hdigit
      | plain c =>
        have hhead : ∀ p ∈ back.head?, p.isDigit = false := by
          intro p hp
          have hstart := hback p hp
          cases p with
          | plain c => exact hstart
          | term next => rfl
        have htake : (Piece.plain c :: front ++ back).takeWhile Piece.isDigit = .plain c :: front := by
          rw [List.takeWhile_append_of_pos hfront, takeWhile_of_head hhead, List.append_nil]
        have hdrop : (Piece.plain c :: front ++ back).dropWhile Piece.isDigit = back := by
          rw [List.dropWhile_append_of_pos hfront, dropWhile_of_head hhead]
        rw [List.cons_append] at htake hdrop
        rw [List.cons_append, absorb_plain, htake, hdrop, absorb_plain,
          List.takeWhile_eq_self_iff.2 hfront, List.dropWhile_eq_nil_iff.2 hfront]
        rfl

theorem exists_absorb_eq (written : WrittenTerm) (ps : List Piece) :
    ∃ term rest, absorb written ps = .term term :: rest := by
  unfold absorb
  split
  · exact ⟨_, _, rfl⟩
  · exact ⟨_, _, rfl⟩

theorem exists_of_getLast?_piece {p : Piece} (h : before.getLast? = some (.piece p))
    (hp : p.isDigit = false) : ∃ q ∈ settle before, q.isDigit = false := by
  induction before with
  | nil => cases h
  | cons s before ih =>
    cases s with
    | shorthand written =>
      obtain ⟨term, rest, heq⟩ := exists_absorb_eq written (settle before)
      exact ⟨.term term, by rw [settle, heq]; exact List.mem_cons_self .., rfl⟩
    | piece q =>
      cases before with
      | nil =>
        cases h
        exact ⟨p, List.mem_cons_self .., hp⟩
      | cons t before =>
        obtain ⟨r, hr, hdigit⟩ := ih (by rwa [List.getLast?_cons_cons] at h)
        exact ⟨r, List.mem_cons_of_mem _ hr, hdigit⟩

/-- Where a shorthand, with digits after it or none, is not followed by a digit, what is before and
after the place is settled by itself. -/
theorem settle_append (h : (∃ p, before.getLast? = some (.piece p) ∧ p.isDigit = false) ∨
    ∀ p ∈ (settle after).head?, p.startsDigit = false) :
    settle (before ++ after) = settle before ++ settle after := by
  induction before with
  | nil => rfl
  | cons s before ih =>
    have htail : settle (before ++ after) = settle before ++ settle after := by
      cases before with
      | nil => rfl
      | cons t before => exact ih (by rwa [List.getLast?_cons_cons] at h)
    cases s with
    | piece p => rw [List.cons_append, settle, htail, settle, List.cons_append]
    | shorthand written =>
      rw [List.cons_append, settle, htail, settle]
      refine absorb_append (h.imp_left ?_)
      rintro ⟨p, hp, hdigit⟩
      cases before with
      | nil => cases hp
      | cons t before =>
        rw [List.getLast?_cons_cons] at hp
        exact exists_of_getLast?_piece hp hdigit

theorem settle_pieces (ps : List Piece) (after : List Spelled) :
    settle (ps.map .piece ++ after) = ps ++ settle after := by
  induction ps with
  | nil => rfl
  | cons p ps ih => exact congrArg (p :: ·) ih

theorem exists_getLast?_absorb {q : Piece} (h : ps.getLast? = some q) :
    ∃ r, (absorb written ps).getLast? = some r ∧ (r = q ∨ ∃ term, r = .term term) := by
  cases ps with
  | nil => cases h
  | cons p ps =>
    cases p with
    | plain c =>
      rw [absorb_plain]
      cases hdrop : ((Piece.plain c :: ps).dropWhile Piece.isDigit).getLast? with
      | none =>
        rw [List.getLast?_cons, hdrop]
        exact ⟨_, rfl, .inr ⟨_, rfl⟩⟩
      | some r =>
        refine ⟨r, by rw [List.getLast?_cons, hdrop]; rfl, .inl ?_⟩
        rw [← List.takeWhile_append_dropWhile (p := Piece.isDigit) (l := .plain c :: ps),
          List.getLast?_append, hdrop] at h
        exact Option.some.inj h
    | term next =>
      cases hps : ps.getLast? with
      | none =>
        rw [List.getLast?_eq_none_iff] at hps
        subst hps
        exact ⟨_, rfl, .inr ⟨_, rfl⟩⟩
      | some r =>
        rw [List.getLast?_cons, hps] at h
        exact ⟨r, by rw [absorb, List.getLast?_cons_cons, List.getLast?_cons, hps]; rfl,
          .inl (Option.some.inj h)⟩

/-- What is last among pieces with their shorthands is last among the pieces of the text, unless a term
is that has taken it. -/
theorem exists_getLast?_settle {s : Spelled} (h : before.getLast? = some s) :
    ∃ q, (settle before).getLast? = some q ∧ (s = .piece q ∨ ∃ term, q = .term term) := by
  induction before with
  | nil => cases h
  | cons t before ih =>
    cases hbefore : before.getLast? with
    | none =>
      rw [List.getLast?_cons, hbefore] at h
      obtain rfl : t = s := Option.some.inj h
      rw [List.getLast?_eq_none_iff] at hbefore
      subst hbefore
      cases t with
      | piece p => exact ⟨p, rfl, .inl rfl⟩
      | shorthand written => exact ⟨_, rfl, .inr ⟨_, rfl⟩⟩
    | some r =>
      rw [List.getLast?_cons, hbefore] at h
      obtain rfl : r = s := Option.some.inj h
      obtain ⟨q, hq, hlast⟩ := ih hbefore
      cases t with
      | piece p => exact ⟨q, mem_getLast?_cons hq, hlast⟩
      | shorthand written =>
        obtain ⟨r, hr, rfl | hterm⟩ := exists_getLast?_absorb hq
        · exact ⟨r, hr, hlast⟩
        · exact ⟨r, hr, .inr hterm⟩

theorem exists_head?_settle {q : Piece} (h : (settle after).head? = some q) :
    after.head? = some (.piece q) ∨ ∃ term, q = .term term := by
  cases after with
  | nil => cases h
  | cons s after =>
    cases s with
    | piece p =>
      cases h
      exact .inl rfl
    | shorthand written =>
      obtain ⟨term, rest, heq⟩ := exists_absorb_eq written (settle after)
      rw [settle, heq] at h
      cases h
      exact .inr ⟨term, rfl⟩

end

end RollTray.Formula
