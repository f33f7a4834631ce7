import Mathlib.Data.List.Basic
import Mathlib.Data.List.TakeWhile
import RollTray.Formula.Compiled

/-!
# The pieces of a text

A text is cut into its dice terms and the characters between them. A term is taken where it stands and
the text does not go on with something that belongs to it (`takeTerm?_eq_some`), and one stands wherever
a number of sides follows the letter of dice terms (`takeTerm?_isSome`).

Pieces that are those of their text (`Aligned`) are so piece by piece: each is the first one of its text
with the later text after it (`aligned_cons`). That depends on the word that goes on after the piece and
on nothing else (`Piece.Before.mono`), so white space between pieces leaves them as they are
(`Aligned.insert`).
-/

namespace RollTray.Formula

/-! ## Dice terms and what follows them -/

/-- A dice term as it can be taken from a text. -/
structure WrittenTerm.Proper (term : WrittenTerm) : Prop where
  count : ∀ c ∈ term.count, Text.isDigit c = true
  sides : ∀ c ∈ term.sides, Text.isDigit c = true
  nonempty : term.sides ≠ []
  keepCount : ∀ c ∈ term.keepCount, Text.isDigit c = true
  plain : term.keep = none → term.keepCount = []

/-- The text does not go on with something that belongs to the term. -/
structure WrittenTerm.StopsAt (term : WrittenTerm) (rest : List Char) : Prop where
  digit : ∀ c ∈ rest.head?, Text.isDigit c = false
  keep : term.keep = none → (takeKeep rest).1 = none

section

variable {α : Type} {p : α → Bool} {as : List α}

theorem mem_getLast?_cons {a b : α} (h : b ∈ as.getLast?) : b ∈ (a :: as).getLast? := by
  rw [← List.singleton_append]
  exact List.mem_getLast?_append_of_mem_getLast? h

theorem takeWhile_of_head (h : ∀ a ∈ as.head?, p a = false) : as.takeWhile p = [] := by
  cases as with
  | nil => rfl
  | cons a as => exact List.takeWhile_cons_of_neg (by simp [h a rfl])

theorem head_of_dropWhile (as : List α) : ∀ a ∈ (as.dropWhile p).head?, p a = false := by
  intro a ha
  have h := List.head?_dropWhile_not p as
  rwa [Option.mem_def.1 ha] at h

theorem dropWhile_of_head (h : ∀ a ∈ as.head?, p a = false) : as.dropWhile p = as := by
  cases as with
  | nil => rfl
  | cons a as => exact List.dropWhile_cons_of_neg (by simp [h a rfl])

theorem takeWhile_append_of_exists (h : ∃ a ∈ as, p a = false) (bs : List α) : (as ++ bs).takeWhile p = as.takeWhile p ∧
      (as ++ bs).dropWhile p = as.dropWhile p ++ bs := by
  obtain ⟨a, ha, hpa⟩ := h
  have hdrop : ¬as.dropWhile p = [] := by
    rw [List.dropWhile_eq_nil_iff]
    exact fun hall => by rw [hall a ha] at hpa; cases hpa
  have htake : (as.takeWhile p).length ≠ as.length := by
    intro hlength
    rw [(List.takeWhile_prefix p).eq_of_length hlength |> List.takeWhile_eq_self_iff.1 |> (· a ha)] at hpa
    cases hpa
  rw [List.takeWhile_append, if_neg htake, List.dropWhile_append, if_neg (by simpa using hdrop)]
  exact ⟨rfl, rfl⟩

end

theorem takeKeep_of_none {cs : List Char} (h : (takeKeep cs).1 = none) : takeKeep cs = (none, cs) := by
  unfold takeKeep at h ⊢
  split <;> first | rfl | cases h

/-- A keep rule that is written is found. -/
theorem takeKeep_text {keep : Option KeepWord} {cs : List Char}
    (h : keep = none → (takeKeep cs).1 = none) :
    takeKeep ((keep.map KeepWord.text).getD [] ++ cs) = (keep, cs) := by
  rcases keep with _ | _ | _ | _
  · exact takeKeep_of_none (h rfl)
  · rfl
  · rfl
  · rfl

/-- A dice term takes all that follows its sides and can belong to it. -/
theorem takeTerm?_dice {count sides rest : List Char}
    (hcount : ∀ c ∈ count, Text.isDigit c = true) (hsides : ∀ c ∈ sides, Text.isDigit c = true)
    (hne : sides ≠ []) (hrest : rest.takeWhile Text.isDigit = []) :
    takeTerm? (count ++ 'd' :: (sides ++ rest)) =
      some (⟨count, sides, (takeKeep rest).1, (takeKeep rest).2.takeWhile Text.isDigit⟩,
        (takeKeep rest).2.dropWhile Text.isDigit) := by
  have hdrop : rest.dropWhile Text.isDigit = rest := by
    simpa [hrest] using List.takeWhile_append_dropWhile (p := Text.isDigit) (l := rest)
  have hafter : (sides ++ rest).dropWhile Text.isDigit = rest := by
    rw [List.dropWhile_append_of_pos hsides, hdrop]
  have htake : (sides ++ rest).takeWhile Text.isDigit = sides := by
    rw [List.takeWhile_append_of_pos hsides, hrest, List.append_nil]
  have htail : ('d' :: (sides ++ rest)).dropWhile Text.isDigit = 'd' :: (sides ++ rest) := rfl
  have hfront : ('d' :: (sides ++ rest)).takeWhile Text.isDigit = [] := rfl
  unfold takeTerm?
  rw [List.dropWhile_append_of_pos hcount, List.takeWhile_append_of_pos hcount, htail, hfront,
    List.append_nil]
  split
  · next tail heq =>
    obtain ⟨-, rfl⟩ := List.cons.inj heq
    rw [htake, hafter]
    split
    · exact absurd rfl hne
    · rfl
  · next hno => exact absurd rfl (hno _)

/-- A term is taken where it stands and ends. -/
theorem takeTerm?_eq_some {cs rest : List Char} {term : WrittenTerm} :
    takeTerm? cs = some (term, rest) ↔ term.Proper ∧ term.StopsAt rest ∧ cs = term.text ++ rest := by
  constructor
  · intro h
    have htext := (takeTerm?_append h).symm
    have htake : ∀ cs : List Char, ∀ c ∈ cs.takeWhile Text.isDigit, Text.isDigit c = true :=
      fun cs c hc => List.mem_takeWhile_imp hc
    unfold takeTerm? at h
    split at h
    · next tail _ =>
      have hhead := head_of_dropWhile (p := Text.isDigit) tail
      split at h
      · cases h
      · next hne =>
        cases h
        refine ⟨⟨htake _, htake _, hne, htake _, fun hnone => ?_⟩,
          ⟨head_of_dropWhile _, fun hnone => ?_⟩, htext⟩
        · dsimp only at hnone ⊢
          rw [takeKeep_of_none hnone]
          exact takeWhile_of_head hhead
        · dsimp only at hnone ⊢
          rw [takeKeep_of_none hnone, dropWhile_of_head hhead]
          exact hnone
    · cases h
  · rintro ⟨hproper, hstops, rfl⟩
    have htail : takeKeep ((term.keep.map KeepWord.text).getD [] ++ (term.keepCount ++ rest)) =
        (term.keep, term.keepCount ++ rest) := takeKeep_text fun hnone => by
      rw [hproper.plain hnone]
      exact hstops.keep hnone
    have hhead : ((term.keep.map KeepWord.text).getD [] ++ (term.keepCount ++ rest)).takeWhile
        Text.isDigit = [] := by
      rcases hkeep : term.keep with _ | _ | _ | _
      · rw [hproper.plain hkeep]
        exact takeWhile_of_head hstops.digit
      · rfl
      · rfl
      · rfl
    have h := takeTerm?_dice hproper.count hproper.sides hproper.nonempty hhead
    rw [htail, List.takeWhile_append_of_pos hproper.keepCount,
      List.dropWhile_append_of_pos hproper.keepCount, takeWhile_of_head hstops.digit,
      dropWhile_of_head hstops.digit, List.append_nil] at h
    rw [← h]
    simp [WrittenTerm.text]

/-- A term is taken wherever a number of sides follows the letter of dice terms, after digits or
none. -/
theorem takeTerm?_isSome {cs : List Char} : (takeTerm? cs).isSome ↔ ∃ digits side tail,
    cs = digits ++ 'd' :: side :: tail ∧ (∀ c ∈ digits, Text.isDigit c = true) ∧
      Text.isDigit side = true := by
  constructor
  · intro h
    obtain ⟨⟨term, rest⟩, h⟩ := Option.isSome_iff_exists.1 h
    obtain ⟨hproper, -, rfl⟩ := takeTerm?_eq_some.1 h
    obtain ⟨side, sides, hsides⟩ := List.exists_cons_of_ne_nil hproper.nonempty
    refine ⟨term.count, side, sides ++ ((term.keep.map KeepWord.text).getD [] ++ term.keepCount ++ rest),
      ?_, hproper.count, hproper.sides side (hsides ▸ List.mem_cons_self ..)⟩
    simp [WrittenTerm.text, hsides]
  · rintro ⟨digits, side, tail, rfl, hdigits, hside⟩
    have hsides : ∀ c ∈ (side :: tail).takeWhile Text.isDigit, Text.isDigit c = true :=
      fun c hc => List.mem_takeWhile_imp hc
    have hne : (side :: tail).takeWhile Text.isDigit ≠ [] := by simp [hside]
    have hrest := takeWhile_of_head (head_of_dropWhile (p := Text.isDigit) (side :: tail))
    have h := takeTerm?_dice hdigits hsides hne hrest
    rw [List.takeWhile_append_dropWhile] at h
    exact Option.isSome_of_eq_some h

/-! ## Pieces and the text after them -/

theorem pieces_of_term {cs rest : List Char} {term : WrittenTerm}
    (h : takeTerm? cs = some (term, rest)) : pieces cs = .term term :: pieces rest := by
  cases cs with
  | nil => cases h
  | cons c cs =>
    rw [pieces]
    split
    · next heq =>
      cases h.symm.trans heq
      rfl
    · next heq => cases h.symm.trans heq

theorem pieces_of_plain {c : Char} {cs : List Char} (h : takeTerm? (c :: cs) = none) :
    pieces (c :: cs) = .plain c :: pieces cs := by
  rw [pieces]
  split
  · next heq => cases h.symm.trans heq
  · rfl

/-- A piece as it is written. -/
def Piece.text : Piece → List Char
  | plain c => [c]
  | term written => written.text

/-- The pieces of a text make it up. -/
theorem text_pieces (cs : List Char) : (pieces cs).flatMap Piece.text = cs := by
  fun_induction pieces cs with
  | case1 => rfl
  | case2 c tail term rest hterm _ ih =>
    rw [List.flatMap_cons, ih]
    exact takeTerm?_append hterm
  | case3 c tail _ ih =>
    rw [List.flatMap_cons, ih]
    rfl

/-- Such pieces as a text. -/
def textOf (ps : List Piece) : List Char :=
  ps.flatMap Piece.text

@[simp]
theorem textOf_nil : textOf [] = [] := rfl

@[simp]
theorem textOf_cons (p : Piece) (ps : List Piece) : textOf (p :: ps) = p.text ++ textOf ps := rfl

@[simp]
theorem textOf_append (ps qs : List Piece) : textOf (ps ++ qs) = textOf ps ++ textOf qs :=
  List.flatMap_append

@[simp]
theorem textOf_map_plain (cs : List Char) : textOf (cs.map .plain) = cs := by
  induction cs with
  | nil => rfl
  | cons c cs ih => exact congrArg (c :: ·) ih

/-- The piece is the first one of its text with this text after it. -/
def Piece.Before : Piece → List Char → Prop
  | plain c, cs => takeTerm? (c :: cs) = none
  | term written, cs => takeTerm? (written.text ++ cs) = some (written, cs)

theorem Piece.Before.pieces_eq {p : Piece} {cs : List Char} (h : p.Before cs) :
    pieces (p.text ++ cs) = p :: pieces cs := by
  cases p with
  | plain c => exact pieces_of_plain h
  | term written => exact pieces_of_term h

theorem before_of_pieces {cs : List Char} {p : Piece} {ps : List Piece} (h : pieces cs = p :: ps) :
    p.Before (textOf ps) ∧ pieces (textOf ps) = ps := by
  have htext : textOf (pieces cs) = cs := text_pieces cs
  rw [h, textOf_cons] at htext
  cases cs with
  | nil =>
    rw [pieces] at h
    cases h
  | cons c tail =>
    cases hterm : takeTerm? (c :: tail) with
    | none =>
      rw [pieces_of_plain hterm] at h
      cases h
      obtain ⟨-, htail⟩ := List.cons.inj htext
      rw [← htail] at hterm
      exact ⟨hterm, congrArg pieces htail⟩
    | some found =>
      obtain ⟨written, rest⟩ := found
      rw [pieces_of_term hterm] at h
      cases h
      have hrest : textOf (pieces rest) = rest := text_pieces rest
      rw [← htext] at hterm
      rw [hrest] at hterm ⊢
      exact ⟨hterm, rfl⟩

/-- A character that no dice term begins with. -/
theorem before_plain {c : Char} (hdigit : Text.isDigit c = false) (hd : c ≠ 'd') (cs : List Char) :
    (Piece.plain c).Before cs := by
  rw [Piece.Before, ← Option.not_isSome_iff_eq_none, takeTerm?_isSome]
  rintro ⟨digits, side, tail, heq, hdigits, -⟩
  cases digits with
  | nil => exact hd (List.cons.inj heq).1
  | cons d digits =>
    obtain ⟨rfl, -⟩ := List.cons.inj heq
    rw [hdigits c (List.mem_cons_self ..)] at hdigit
    cases hdigit

/-- The text has just these pieces. -/
def Aligned (ps : List Piece) : Prop :=
  pieces (textOf ps) = ps

theorem aligned_pieces (cs : List Char) : Aligned (pieces cs) :=
  congrArg pieces (text_pieces cs)

theorem aligned_cons {p : Piece} {ps : List Piece} :
    Aligned (p :: ps) ↔ p.Before (textOf ps) ∧ Aligned ps :=
  ⟨before_of_pieces, fun h => h.1.pieces_eq.trans (congrArg (p :: ·) h.2)⟩

theorem aligned_plain {cs : List Char} (hcs : ∀ c ∈ cs, Text.isDigit c = false ∧ c ≠ 'd')
    {ps : List Piece} (h : Aligned ps) : Aligned (cs.map .plain ++ ps) := by
  induction cs with
  | nil => exact h
  | cons c cs ih =>
    obtain ⟨⟨hdigit, hd⟩, hcs⟩ := List.forall_mem_cons.1 hcs
    exact aligned_cons.2 ⟨before_plain hdigit hd _, ih hcs⟩

theorem Aligned.of_append {ps qs : List Piece} (h : Aligned (ps ++ qs)) : Aligned qs := by
  induction ps with
  | nil => exact h
  | cons p ps ih => exact ih (aligned_cons.1 h).2

/-! ### Words -/

/-- What the first text has of a word at its front, the second one has as well. -/
def ShowsNoMore (cs cs' : List Char) : Prop :=
  ∀ word, (∀ c ∈ word, Text.isWord c = true) → word <+: cs → word <+: cs'

/-- The piece is made of characters of words. -/
def Piece.isWord : Piece → Bool
  | plain c => Text.isWord c
  | term _ => true

theorem isWord_of_isDigit {c : Char} (h : Text.isDigit c = true) : Text.isWord c = true := by
  simp [Text.isWord, h]

theorem isWord_of_isLetter {c : Char} (h : Text.isLetter c = true) : Text.isWord c = true := by
  simp [Text.isWord, h]

theorem KeepWord.isWord_text (keep : KeepWord) : ∀ c ∈ keep.text, Text.isWord c = true := by
  rw [← List.all_eq_true]
  cases keep <;> rfl

theorem takeKeep_of_head {cs : List Char} (h : ∀ c ∈ cs.head?, c ≠ 'k') : (takeKeep cs).1 = none := by
  unfold takeKeep
  split <;> first | rfl | exact absurd rfl (h _ rfl)

theorem prefix_of_takeKeep {cs : List Char} {keep : KeepWord} (h : (takeKeep cs).1 = some keep) :
    keep.text <+: cs := by
  have happend := takeKeep_append cs
  rw [h] at happend
  exact ⟨_, happend⟩

/-- It depends on the word after a piece only whether it is the first piece. -/
theorem Piece.Before.mono {p : Piece} {cs cs' : List Char} (h : p.Before cs)
    (hword : p.isWord = true → ShowsNoMore cs' cs) : p.Before cs' := by
  cases p with
  | plain c =>
    rw [Before, ← Option.not_isSome_iff_eq_none, takeTerm?_isSome] at h ⊢
    rintro ⟨digits, side, tail, heq, hdigits, hside⟩
    have hfront : ∀ d ∈ digits ++ ['d', side], Text.isWord d = true := by
      rw [List.forall_mem_append]
      refine ⟨fun d hd => isWord_of_isDigit (hdigits d hd), ?_⟩
      simp [isWord_of_isDigit hside]
      decide
    have hne : digits ++ ['d', side] ≠ [] := by simp
    obtain ⟨first, word, hsplit⟩ := List.exists_cons_of_ne_nil hne
    have hcs : c :: cs' = digits ++ ['d', side] ++ tail := by simp [heq]
    rw [hsplit] at hfront hcs
    obtain ⟨rfl, rfl⟩ := List.cons.inj hcs
    obtain ⟨hc, hwords⟩ := List.forall_mem_cons.1 hfront
    obtain ⟨tail', rfl⟩ := hword hc word hwords (List.prefix_append ..)
    refine h ⟨digits, side, tail', ?_, hdigits, hside⟩
    rw [← List.cons_append, ← hsplit]
    simp
  | term written =>
    obtain ⟨hproper, hstops, -⟩ := takeTerm?_eq_some.1 h
    refine takeTerm?_eq_some.2 ⟨hproper, ⟨fun c hc => ?_, fun hnone => ?_⟩, rfl⟩
    · by_contra hdigit
      rw [Bool.not_eq_false] at hdigit
      have hword := hword rfl [c] (List.forall_mem_singleton.2 (isWord_of_isDigit hdigit))
        (List.singleton_prefix_iff_head?_eq_some.2 hc)
      have hhead := hstops.digit c (List.singleton_prefix_iff_head?_eq_some.1 hword)
      rw [hdigit] at hhead
      cases hhead
    · by_contra hsome
      obtain ⟨keep, hkeep⟩ := Option.ne_none_iff_exists'.1 hsome
      obtain ⟨tail, htail⟩ := hword rfl keep.text keep.isWord_text (prefix_of_takeKeep hkeep)
      have hnone := hstops.keep hnone
      rw [← htail] at hnone
      cases keep <;> cases hnone

theorem toNat_of_isSpace {c : Char} (h : Text.isSpace c = true) : c.toNat ≤ 32 := by
  rw [Text.isSpace, Bool.or_eq_true, decide_eq_true_iff, Bool.and_eq_true, decide_eq_true_iff,
    decide_eq_true_iff] at h
  rcases h with rfl | ⟨-, h⟩
  · decide
  · omega

theorem isWord_of_isSpace {c : Char} (h : Text.isSpace c = true) : Text.isWord c = false := by
  have hle := toNat_of_isSpace h
  rw [Bool.eq_false_iff]
  intro hword
  simp only [Text.isWord, Text.isLetter, Text.isDigit, Char.le_def, UInt32.le_iff_toNat_le,
    Bool.or_eq_true, Bool.and_eq_true, decide_eq_true_iff] at hword
  rcases hword with ((⟨h, -⟩ | ⟨h, -⟩) | ⟨h, -⟩) | rfl
  · exact absurd (h.trans hle) (by decide)
  · exact absurd (h.trans hle) (by decide)
  · exact absurd (h.trans hle) (by decide)
  · exact absurd hle (by decide)

theorem isSpace_of_isWord {c : Char} (h : Text.isWord c = true) : Text.isSpace c = false := by
  rw [Bool.eq_false_iff]
  intro hspace
  rw [isWord_of_isSpace hspace] at h
  cases h

theorem isLetter_of_isSpace {c : Char} (h : Text.isSpace c = true) : Text.isLetter c = false := by
  have hword := isWord_of_isSpace h
  simp only [Text.isWord, Bool.or_eq_false_iff] at hword
  exact hword.1.1

/-- White space begins no dice term. -/
theorem opens_of_isSpace {c : Char} (h : Text.isSpace c = true) :
    Text.isDigit c = false ∧ c ≠ 'd' := by
  have hword := isWord_of_isSpace h
  constructor
  · rw [Bool.eq_false_iff]
    intro hdigit
    rw [isWord_of_isDigit hdigit] at hword
    cases hword
  · rintro rfl
    cases hword

/-- White space ends a word. -/
theorem showsNoMore_insert {spaces : List Char} (hspaces : ∀ c ∈ spaces, Text.isSpace c = true)
    (front tail : List Char) : ShowsNoMore (front ++ (spaces ++ tail)) (front ++ tail) := by
  intro word hword
  induction front generalizing word with
  | nil =>
    cases spaces with
    | nil => exact id
    | cons space spaces =>
      intro h
      cases word with
      | nil => exact List.nil_prefix
      | cons c word =>
        obtain ⟨rfl, -⟩ := List.cons_prefix_cons.1 h
        have hspace := isWord_of_isSpace (hspaces c (List.mem_cons_self ..))
        rw [hword c (List.mem_cons_self ..)] at hspace
        cases hspace
  | cons c front ih =>
    intro h
    cases word with
    | nil => exact List.nil_prefix
    | cons d word =>
      obtain ⟨rfl, hrest⟩ := List.cons_prefix_cons.1 h
      exact List.cons_prefix_cons.2 ⟨rfl, ih word (List.forall_mem_cons.1 hword).2 hrest⟩

/-- Pieces stay the same where white space is set between them. -/
theorem Aligned.insert {ps qs : List Piece} (h : Aligned (ps ++ qs)) {spaces : List Char}
    (hspaces : ∀ c ∈ spaces, Text.isSpace c = true) :
    Aligned (ps ++ (spaces.map .plain ++ qs)) := by
  induction ps with
  | nil => exact aligned_plain (fun c hc => opens_of_isSpace (hspaces c hc)) h
  | cons p ps ih =>
    rw [List.cons_append, aligned_cons] at h ⊢
    refine ⟨h.1.mono fun _ => ?_, ih h.2⟩
    rw [textOf_append, textOf_append, textOf_map_plain, textOf_append]
    exact showsNoMore_insert hspaces _ _

end RollTray.Formula
