import RollTray.Proofs.Formula.Reading
import RollTray.Proofs.Formula.Spelling

/-!
# Shorthands and the places within them

White space may be set between pieces in three ways, as seen from the shorthands (`Spells.insert`).
Between shorthands it leaves them all as they are, apart from one that could not begin because a word was
going on, and can after white space. Within the parentheses of a shorthand it leaves this one a
shorthand of the same term (`Argument.insert_iff`). And between the name of a shorthand and its
parentheses there is no shorthand any more (`CutsShorthand`, `Spells.cut_name`).

A place within the name of a shorthand is none between pieces that are apart, and there is no fourth
kind (`IsShorthand.seam`).
-/

namespace RollTray.Formula

variable {inWord : Bool} {ps qs front back sh rest : List Piece} {term written : WrittenTerm}
  {spelled : List Spelled} {spaces : List Char}

/-! ## Words and shorthands -/

theorem wordAfter_append (inWord : Bool) (ps qs : List Piece) :
    wordAfter inWord (ps ++ qs) = wordAfter (wordAfter inWord ps) qs :=
  List.foldl_append

theorem wordAfter_of_getLast? {p : Piece} (h : ps.getLast? = some p) :
    wordAfter inWord ps = p.isWord := by
  obtain ⟨front, rfl⟩ := List.getLast?_eq_some_iff.1 h
  exact wordAfter_append inWord front [p]

/-- All pieces are in some way spelled. -/
theorem exists_spells (inWord : Bool) (ps : List Piece) : ∃ spelled, Spells inWord ps spelled := by
  -- A shorthand takes several pieces at once.
  induction hlength : ps.length using Nat.strong_induction_on generalizing inWord ps with
  | _ n ih =>
    subst hlength
    cases ps with
    | nil => exact ⟨[], .nil⟩
    | cons p ps =>
      by_cases hsh : inWord = false ∧ BeginsShorthand (p :: ps)
      · obtain ⟨rfl, sh, rest, term, h, heq⟩ := hsh
        have hne : sh ≠ [] := by
          cases h
          simp
        have hpos := List.length_pos_iff.2 hne
        rw [heq] at ih ⊢
        obtain ⟨spelled, htail⟩ := ih rest.length (by rw [List.length_append]; omega) false rest rfl
        exact ⟨_, .shorthand h htail⟩
      · obtain ⟨spelled, htail⟩ := ih ps.length (Nat.lt_succ_self _) p.isWord ps rfl
        exact ⟨_, .piece (fun hword hbegins => hsh ⟨hword, hbegins⟩) htail⟩

theorem forall_isSpace_iff : (∀ p ∈ ps, p.isSpace = true) ↔
    ∃ cs : List Char, (∀ c ∈ cs, Text.isSpace c = true) ∧ ps = cs.map .plain := by
  constructor
  · intro h
    induction ps with
    | nil => exact ⟨[], List.forall_mem_nil _, rfl⟩
    | cons p ps ih =>
      obtain ⟨hp, hps⟩ := List.forall_mem_cons.1 h
      obtain ⟨cs, hcs, rfl⟩ := ih hps
      cases p with
      | plain c => exact ⟨c :: cs, List.forall_mem_cons.2 ⟨hp, hcs⟩, rfl⟩
      | term written => cases hp
  · rintro ⟨cs, hcs, rfl⟩
    exact List.forall_mem_map.2 hcs

/-- An argument is the dice term and the closing parenthesis, with white space in front of either. -/
theorem argument_iff {inside : List Piece} : Argument inside written ↔ written.keep = none ∧
    inside.filter (fun p => !p.isSpace) = [.term written, .plain ')'] ∧
      inside.getLast? = some (.plain ')') := by
  have hnil : ∀ {ps : List Piece}, ps.filter (fun p => !p.isSpace) = [] ↔
      ∃ cs : List Char, (∀ c ∈ cs, Text.isSpace c = true) ∧ ps = cs.map .plain := by
    intro ps
    rw [← forall_isSpace_iff, List.filter_eq_nil_iff]
    simp
  constructor
  · intro h
    cases h with | @mk before after hbefore _ hkeep hafter =>
    refine ⟨hkeep, ?_, ?_⟩
    rotate_left
    · rw [List.getLast?_append_cons, ← List.cons_append, List.getLast?_append_cons]
      rfl
    rw [List.filter_append, hnil.2 ⟨before, hbefore, rfl⟩, List.filter_cons_of_pos rfl,
      List.filter_append, hnil.2 ⟨after, hafter, rfl⟩]
    rfl
  · rintro ⟨hkeep, hfilter, hlast⟩
    obtain ⟨before, tail, rfl, hbefore, -, htail⟩ := List.filter_eq_cons_iff.1 hfilter
    obtain ⟨after, later, rfl, hafter, -, hlater⟩ := List.filter_eq_cons_iff.1 htail
    obtain ⟨before, hbefore', rfl⟩ := hnil.1 (List.filter_eq_nil_iff.2 hbefore)
    obtain ⟨after, hafter', rfl⟩ := hnil.1 (List.filter_eq_nil_iff.2 hafter)
    obtain ⟨later, hlater', rfl⟩ := hnil.1 hlater
    obtain rfl : later = [] := by
      by_contra hne
      obtain ⟨c, hc⟩ := Option.ne_none_iff_exists'.1 (mt List.getLast?_eq_none_iff.1 hne)
      rw [List.getLast?_append_cons, ← List.cons_append, List.getLast?_append_cons, List.getLast?_cons,
        List.getLast?_map, hc] at hlast
      cases hlast
      cases hlater' _ (List.mem_of_getLast? hc)
    exact .mk hbefore' hkeep hafter'

/-- White space in front of a piece of an argument is nothing to it. -/
theorem Argument.insert_iff (hspaces : ∀ c ∈ spaces, Text.isSpace c = true) (hback : back ≠ []) :
    Argument (front ++ (spaces.map .plain ++ back)) written ↔ Argument (front ++ back) written := by
  have hfilter : (spaces.map Piece.plain).filter (fun p => !p.isSpace) = [] := by
    rw [List.filter_eq_nil_iff]
    simpa [Piece.isSpace] using hspaces
  rw [argument_iff, argument_iff, List.filter_append, List.filter_append, List.filter_append, hfilter,
    List.nil_append, ← List.append_assoc, List.getLast?_append_of_ne_nil _ hback,
    List.getLast?_append_of_ne_nil _ hback]

theorem Argument.isLetter_eq {inside : List Piece} (h : Argument inside written) {c : Char}
    (hc : .plain c ∈ inside) : Text.isLetter c = false := by
  cases h with | @mk before after hbefore _ hkeep hafter =>
  simp only [List.mem_append, List.mem_cons, List.mem_map, List.not_mem_nil, or_false,
    Piece.plain.injEq, exists_eq_right, reduceCtorEq, false_or] at hc
  rcases hc with hc | hc | rfl
  · exact isLetter_of_isSpace (hbefore c hc)
  · exact isLetter_of_isSpace (hafter c hc)
  · rfl

/-! ## Places within a shorthand -/

theorem IsShorthand.head? (h : IsShorthand sh term) :
    ∃ c, sh.head? = some (.plain c) ∧ Text.isLetter c = true := by
  cases h with | @mk name keepCount keep hrule inside written hargument =>
  obtain ⟨hne, hname⟩ := isLetter_of_rule hrule
  obtain ⟨c, name, rfl⟩ := List.exists_cons_of_ne_nil hne
  exact ⟨c, rfl, (hname c (List.mem_cons_self ..)).1⟩

theorem IsShorthand.getLast? (h : IsShorthand sh term) : sh.getLast? = some (.plain ')') := by
  cases h with | @mk name keepCount keep hrule inside written hargument =>
  obtain ⟨-, -, hlast⟩ := argument_iff.1 hargument
  rw [List.getLast?_append_cons, List.getLast?_cons, hlast]
  rfl

/-- No word goes on after a shorthand. -/
theorem IsShorthand.wordAfter_eq (h : IsShorthand sh term) (inWord : Bool) (front : List Piece) :
    wordAfter inWord (front ++ sh) = false :=
  wordAfter_of_getLast? (List.mem_getLast?_append_of_mem_getLast? h.getLast?)

theorem IsShorthand.wordAfter_append (h : IsShorthand sh term) (inWord : Bool) (ps : List Piece) :
    wordAfter inWord (sh ++ ps) = wordAfter false ps := by
  rw [Formula.wordAfter_append, wordAfter_of_getLast? h.getLast?]
  rfl

/-- A shorthand does not end in white space. -/
theorem IsShorthand.eq_nil_of_isSpace (h : IsShorthand (front ++ back) term)
    (hback : ∀ p ∈ back, p.isSpace = true) : back = [] := by
  by_contra hne
  have hlast := h.getLast?
  rw [List.getLast?_append_of_ne_nil _ hne] at hlast
  cases hback _ (List.mem_of_getLast? hlast)

/-- A place within a shorthand is within its name, behind it or within the parentheses. -/
theorem IsShorthand.seam (h : IsShorthand (front ++ back) term) (hfront : front ≠ [])
    (hback : back ≠ []) :
    (∃ c d, front.getLast? = some (.plain c) ∧ back.head? = some (.plain d) ∧
        Text.isLetter c = true ∧ Text.isLetter d = true) ∨
      (∃ name keep keepCount inside written, (name, keep, keepCount) ∈ shorthandRules ∧
        front = name.map .plain ∧ back = .plain '(' :: inside ∧ Argument inside written) ∨
      ∃ name keep keepCount inside written, (name, keep, keepCount) ∈ shorthandRules ∧
        front = name.map .plain ++ .plain '(' :: inside ∧ Argument (inside ++ back) written ∧
          term = { written with keep := some keep, keepCount } := by
  generalize hsh : front ++ back = sh at h
  cases h with | @mk name keepCount keep hrule inside written hargument =>
  have hname := (isLetter_of_rule hrule).2
  rcases List.append_eq_append_iff.1 hsh with ⟨between, hmap, rfl⟩ | ⟨between, rfl, hinside⟩
  · cases between with
    | nil =>
      rw [List.append_nil] at hmap
      exact .inr (.inl ⟨name, keep, keepCount, inside, written, hrule, hmap.symm, rfl, hargument⟩)
    | cons p between =>
      obtain ⟨letters, letters', rfl, rfl, hletters'⟩ := List.map_eq_append_iff.1 hmap
      obtain ⟨d, letters', rfl, rfl, -⟩ := List.map_eq_cons_iff.1 hletters'
      have hne : letters ≠ [] := by simpa using hfront
      refine .inl ⟨letters.getLast hne, d, ?_, rfl, (hname _ ?_).1, (hname d ?_).1⟩
      · rw [List.getLast?_map, List.getLast?_eq_some_getLast hne]
        rfl
      · exact List.mem_append_left _ (List.getLast_mem hne)
      · exact List.mem_append_right _ (List.mem_cons_self ..)
  · cases between with
    | nil =>
      rw [List.append_nil]
      exact .inr (.inl ⟨name, keep, keepCount, inside, written, hrule, rfl, hinside.symm, hargument⟩)
    | cons p between =>
      obtain ⟨rfl, rfl⟩ := List.cons.inj hinside
      exact .inr (.inr ⟨name, keep, keepCount, between, written, hrule, rfl, hargument, rfl⟩)

/-- A shorthand is none of another one's argument. -/
theorem IsShorthand.isLetter_of_head (h : IsShorthand (front ++ back) term) (hfront : front ≠ [])
    {d : Char} (hd : back.head? = some (.plain d)) (hletter : Text.isLetter d = true) :
    ∃ c, front.getLast? = some (.plain c) ∧ Text.isLetter c = true := by
  have hback : back ≠ [] := by
    rintro rfl
    cases hd
  rcases h.seam hfront hback with ⟨c, -, hc, -, hletter, -⟩ | hparenthesis | hargument
  · exact ⟨c, hc, hletter⟩
  · obtain ⟨name, keep, keepCount, inside, written, -, -, rfl, -⟩ := hparenthesis
    cases hd
    cases hletter
  · obtain ⟨name, keep, keepCount, inside, written, -, -, hargument, -⟩ := hargument
    have hmem := List.mem_append_right inside (List.mem_of_mem_head? hd)
    rw [hargument.isLetter_eq hmem] at hletter
    cases hletter

/-- White space within a shorthand is within its parentheses, and can be left out. -/
theorem IsShorthand.of_insert (hspaces : ∀ c ∈ spaces, Text.isSpace c = true) (hne : spaces ≠ [])
    (hfront : front ≠ []) (hback : back ≠ []) (h : IsShorthand (front ++ (spaces.map .plain ++ back)) term) :
    IsShorthand (front ++ back) term := by
  obtain ⟨c, spaces, rfl⟩ := List.exists_cons_of_ne_nil hne
  have hc := hspaces c (List.mem_cons_self ..)
  rcases h.seam hfront (by simp) with ⟨-, d, -, hd, -, hletter⟩ | hparenthesis | hargument
  · cases hd
    rw [isSpace_of_isWord (isWord_of_isLetter hletter)] at hc
    cases hc
  · obtain ⟨name, keep, keepCount, inside, written, -, -, heq, -⟩ := hparenthesis
    cases heq
    cases hc
  · obtain ⟨name, keep, keepCount, inside, written, hrule, rfl, hargument, rfl⟩ := hargument
    rw [Argument.insert_iff hspaces hback] at hargument
    simpa using IsShorthand.mk hrule hargument

/-! ## White space among shorthands -/

theorem BeginsShorthand.append (h : BeginsShorthand ps) (qs : List Piece) :
    BeginsShorthand (ps ++ qs) := by
  obtain ⟨sh, rest, term, hsh, rfl⟩ := h
  exact ⟨sh, rest ++ qs, term, hsh, List.append_assoc ..⟩

/-- White space after the first piece makes no shorthand. -/
theorem BeginsShorthand.of_insert (hspaces : ∀ c ∈ spaces, Text.isSpace c = true) (hne : ps ≠ [])
    (h : BeginsShorthand (ps ++ (spaces.map .plain ++ qs))) : BeginsShorthand (ps ++ qs) := by
  obtain ⟨sh, rest, term, hsh, heq⟩ := h
  by_cases hempty : spaces = []
  · subst hempty
    exact ⟨sh, rest, term, hsh, heq⟩
  have hspace : ∀ p ∈ spaces.map Piece.plain, p.isSpace = true :=
    forall_isSpace_iff.2 ⟨spaces, hspaces, rfl⟩
  rcases List.append_eq_append_iff.1 heq with ⟨tail, rfl, hrest⟩ | ⟨later, rfl, -⟩
  · rcases List.append_eq_append_iff.1 hrest with ⟨back, rfl, rfl⟩ | ⟨spaces', hmap, rfl⟩
    · by_cases hback : back = []
      · subst hback
        rw [List.append_nil] at hsh
        exact absurd (List.map_eq_nil_iff.1 (hsh.eq_nil_of_isSpace hspace)) hempty
      · exact ⟨ps ++ back, rest, term, hsh.of_insert hspaces hempty hne hback, by simp⟩
    · rw [hmap] at hspace
      obtain rfl := hsh.eq_nil_of_isSpace fun p hp => hspace p (List.mem_append_left _ hp)
      exact ⟨ps, qs, term, by simpa using hsh, rfl⟩
  · exact ⟨sh, later ++ qs, term, hsh, List.append_assoc ..⟩

/-- The name of a shorthand ends here, and its parentheses follow. -/
inductive CutsShorthand (inWord : Bool) : List Piece → List Piece → Prop
  | mk {front inside rest : List Piece} {name keepCount : List Char} {keep : KeepWord}
      {written : WrittenTerm} (word : wordAfter inWord front = false)
      (rule : (name, keep, keepCount) ∈ shorthandRules) (argument : Argument inside written) :
      CutsShorthand inWord (front ++ name.map .plain) (.plain '(' :: (inside ++ rest))

/-- What becomes of the shorthands of pieces with white space set between them. -/
inductive Insertion (spaces : List Char) (inWord : Bool) (ps qs : List Piece) : List Spelled → Prop
  /-- The shorthands before and after it stay what they are, where these can be read on their own. -/
  | between {before after : List Spelled} (hbefore : Spells inWord ps before)
      (hafter : Spells (wordAfter inWord ps) qs after)
      (spaced : ∀ after', Spells false qs after' → Spells inWord (ps ++ (spaces.map .plain ++ qs))
        (before ++ ((spaces.map .plain).map .piece ++ after'))) :
      Insertion spaces inWord ps qs (before ++ after)
  /-- It is within the parentheses of a shorthand. -/
  | within {spelled : List Spelled}
      (spaced : Spells inWord (ps ++ (spaces.map .plain ++ qs)) spelled) :
      Insertion spaces inWord ps qs spelled
  /-- It is between the name and the parentheses of one. -/
  | cut {spelled : List Spelled} (cuts : CutsShorthand inWord ps qs) :
      Insertion spaces inWord ps qs spelled

theorem BeginsShorthand.isLetter_of_head (h : BeginsShorthand ps) :
    ∃ c, ps.head? = some (.plain c) ∧ Text.isLetter c = true := by
  obtain ⟨sh, rest, term, hsh, rfl⟩ := h
  obtain ⟨c, hc, hletter⟩ := hsh.head?
  exact ⟨c, List.mem_head?_append_of_mem_head? hc, hletter⟩

/-- Pieces that are no letters begin no shorthand. -/
theorem Spells.pieces_append (hps : ∀ p ∈ ps, p.isLetter = false)
    (h : Spells (wordAfter inWord ps) qs spelled) :
    Spells inWord (ps ++ qs) (ps.map .piece ++ spelled) := by
  induction ps generalizing inWord with
  | nil => exact h
  | cons p ps ih =>
    obtain ⟨hp, hps⟩ := List.forall_mem_cons.1 hps
    refine .piece (fun _ hbegins => ?_) (ih hps h)
    obtain ⟨c, hc, hletter⟩ := hbegins.isLetter_of_head
    cases hc
    cases hletter.symm.trans hp

/-- A shorthand has a parenthesis right after its name. -/
theorem BeginsShorthand.head?_dropWhile (h : BeginsShorthand ps) :
    (ps.dropWhile Piece.isLetter).head? = some (.plain '(') := by
  obtain ⟨sh, rest, term, hsh, rfl⟩ := h
  cases hsh with | @mk name keepCount keep hrule inside written hargument =>
  have hname : ∀ p ∈ name.map Piece.plain, p.isLetter = true :=
    List.forall_mem_map.2 fun c hc => ((isLetter_of_rule hrule).2 c hc).1
  rw [List.append_assoc, List.dropWhile_append_of_pos hname]
  rfl

/-- Letters begin no shorthand if no parenthesis is right after them. -/
theorem Spells.letters_append {letters : List Char} (hletters : ∀ c ∈ letters, Text.isLetter c = true)
    {c : Char} (hc : qs.head? = some (.plain c)) (hnot : Text.isLetter c = false) (hopening : c ≠ '(')
    (h : ∀ inWord, Spells inWord qs spelled) (inWord : Bool) :
    Spells inWord (letters.map .plain ++ qs) ((letters.map .plain).map .piece ++ spelled) := by
  induction letters generalizing inWord with
  | nil => exact h inWord
  | cons d letters ih =>
    refine .piece (fun _ (hbegins : BeginsShorthand ((d :: letters).map .plain ++ qs)) => ?_)
      (ih (List.forall_mem_cons.1 hletters).2 _)
    have hall : ∀ p ∈ (d :: letters).map Piece.plain, p.isLetter = true :=
      List.forall_mem_map.2 hletters
    have hqs : ∀ p ∈ qs.head?, p.isLetter = false := by
      rw [hc]
      rintro _ ⟨⟩
      exact hnot
    have hhead := hbegins.head?_dropWhile
    rw [List.dropWhile_append_of_pos hall, dropWhile_of_head hqs, hc] at hhead
    cases hhead
    exact hopening rfl

/-- What stands after white space continues no word. -/
theorem Spells.spaces_append (hspaces : ∀ c ∈ spaces, Text.isSpace c = true) (hne : spaces ≠ [])
    (h : Spells false qs spelled) (inWord : Bool) :
    Spells inWord (spaces.map .plain ++ qs) ((spaces.map .plain).map .piece ++ spelled) := by
  have hlast : (spaces.map Piece.plain).getLast? = some (.plain (spaces.getLast hne)) := by
    rw [List.getLast?_map, List.getLast?_eq_some_getLast hne]
    rfl
  refine .pieces_append (List.forall_mem_map.2 fun c hc => isLetter_of_isSpace (hspaces c hc)) ?_
  rwa [wordAfter_of_getLast? hlast, Piece.isWord, isWord_of_isSpace (hspaces _ (List.getLast_mem hne))]

/-- A name with white space after it makes no shorthand. -/
theorem Spells.cut_name (hspaces : ∀ c ∈ spaces, Text.isSpace c = true) (hne : spaces ≠ [])
    {name keepCount : List Char} {keep : KeepWord} (hrule : (name, keep, keepCount) ∈ shorthandRules)
    {inside : List Piece} (hargument : Argument inside written) (h : Spells false rest spelled) :
    Spells false (name.map .plain ++ (spaces.map .plain ++ (.plain '(' :: inside ++ rest)))
      ((name.map .plain).map .piece ++ ((spaces.map .plain).map .piece ++
        ((.plain '(' :: inside).map .piece ++ spelled))) := by
  have hinside : ∀ p ∈ .plain '(' :: inside, p.isLetter = false := by
    refine List.forall_mem_cons.2 ⟨rfl, fun p hp => ?_⟩
    cases p with
    | plain c => exact hargument.isLetter_eq hp
    | term next => rfl
  have hlast : (Piece.plain '(' :: inside).getLast? = some (.plain ')') :=
    mem_getLast?_cons (argument_iff.1 hargument).2.2
  have hparentheses : Spells false (.plain '(' :: inside ++ rest)
      ((.plain '(' :: inside).map .piece ++ spelled) := by
    refine .pieces_append hinside ?_
    rwa [wordAfter_of_getLast? hlast]
  obtain ⟨space, spaces, rfl⟩ := List.exists_cons_of_ne_nil hne
  have hspace := hspaces space (List.mem_cons_self ..)
  have hopening : space ≠ '(' := by
    rintro rfl
    cases hspace
  exact Spells.letters_append (fun c hc => ((isLetter_of_rule hrule).2 c hc).1) rfl
    (isLetter_of_isSpace hspace) hopening (hparentheses.spaces_append hspaces hne) false

theorem Spells.insert_nil (hspaces : ∀ c ∈ spaces, Text.isSpace c = true) (hne : spaces ≠ [])
    (h : Spells inWord qs spelled) : Insertion spaces inWord [] qs spelled :=
  .between .nil h fun _ hafter => hafter.spaces_append hspaces hne inWord

theorem Insertion.piece {p : Piece} (hspaces : ∀ c ∈ spaces, Text.isSpace c = true)
    (hno : inWord = false → ¬BeginsShorthand (p :: (ps ++ qs)))
    (h : Insertion spaces p.isWord ps qs spelled) :
    Insertion spaces inWord (p :: ps) qs (.piece p :: spelled) := by
  have hspaced : inWord = false → ¬BeginsShorthand (p :: (ps ++ (spaces.map .plain ++ qs))) :=
    fun hword hbegins => hno hword (BeginsShorthand.of_insert hspaces (List.cons_ne_nil p ps) hbegins)
  cases h with
  | between hbefore hafter spaced =>
    exact .between (.piece (fun hword hbegins => hno hword (hbegins.append qs)) hbefore) hafter
      fun after' hafter' => .piece hspaced (spaced after' hafter')
  | within spaced => exact .within (.piece hspaced spaced)
  | cut cuts =>
    cases cuts with | @mk front _ _ _ _ _ _ word rule argument =>
    have hfront : wordAfter inWord (p :: front) = false := word
    exact .cut (.mk hfront rule argument)

theorem Insertion.shorthand (hsh : IsShorthand sh term) (h : Insertion spaces false ps qs spelled) :
    Insertion spaces false (sh ++ ps) qs (.shorthand term :: spelled) := by
  have hword := hsh.wordAfter_append false
  cases h with
  | @between before after hbefore hafter spaced =>
    rw [← hword] at hafter
    refine .between (.shorthand hsh hbefore) hafter fun after' hafter' => ?_
    rw [List.append_assoc]
    exact .shorthand hsh (spaced after' hafter')
  | within spaced =>
    refine .within ?_
    rw [List.append_assoc]
    exact .shorthand hsh spaced
  | cut cuts =>
    cases cuts with | @mk front _ _ name _ _ _ word rule argument =>
    rw [← hword] at word
    rw [← List.append_assoc]
    exact .cut (.mk word rule argument)

/-- White space between pieces that it does not tear apart. -/
theorem Spells.insert (hspaces : ∀ c ∈ spaces, Text.isSpace c = true) (hne : spaces ≠ [])
    (hapart : Apart ps qs) (h : Spells inWord (ps ++ qs) spelled) :
    Insertion spaces inWord ps qs spelled := by
  generalize hall : ps ++ qs = all at h
  induction h generalizing ps with
  | nil =>
    obtain ⟨rfl, rfl⟩ := List.append_eq_nil_iff.1 hall
    exact Spells.nil.insert_nil hspaces hne
  | @shorthand sh rest term spelled hsh tail ih =>
    by_cases hps : ps = []
    · subst hps
      obtain rfl : qs = sh ++ rest := hall
      exact (Spells.shorthand hsh tail).insert_nil hspaces hne
    -- The place is within this shorthand or right behind it, or among the later pieces.
    rcases List.append_eq_append_iff.1 hall with ⟨back, rfl, rfl⟩ | ⟨ps', rfl, rfl⟩
    · by_cases hback : back = []
      · subst hback
        have hnil : Apart [] rest := nofun
        simpa using (ih hnil rfl).shorthand hsh
      rcases hsh.seam hps hback with ⟨c, d, hc, hd, hname⟩ | hparenthesis | hargument
      · exact absurd (.inr hname) (hapart _ hc _ (List.mem_head?_append_of_mem_head? hd))
      · obtain ⟨name, keep, keepCount, inside, written, hrule, rfl, rfl, hargument⟩ := hparenthesis
        have hword : wordAfter false [] = false := rfl
        exact .cut (.mk hword hrule hargument)
      · obtain ⟨name, keep, keepCount, inside, written, hrule, rfl, hargument, rfl⟩ := hargument
        have hargument' := (Argument.insert_iff hspaces hback).2 hargument
        exact .within (by simpa using Spells.shorthand (.mk hrule hargument') tail)
    · have hapart' : Apart ps' qs :=
        fun p hp => hapart p (List.mem_getLast?_append_of_mem_getLast? hp)
      exact (ih hapart' rfl).shorthand hsh
  | @piece inWord p rest spelled hno tail ih =>
    cases ps with
    | nil =>
      obtain rfl : qs = p :: rest := hall
      exact (Spells.piece hno tail).insert_nil hspaces hne
    | cons q ps =>
      obtain ⟨rfl, rfl⟩ := List.cons.inj hall
      have hapart' : Apart ps qs := fun p hp => hapart p (mem_getLast?_cons hp)
      exact (ih hapart' rfl).piece hspaces hno

/-- What is spelled before a new word stays so. -/
theorem Spells.append {before after : List Spelled} (h : Spells inWord ps before) {c : Char}
    (hc : qs.head? = some (.plain c)) (hletter : Text.isLetter c = true)
    (hword : wordAfter inWord ps = false) (h' : Spells false qs after) :
    Spells inWord (ps ++ qs) (before ++ after) := by
  induction h with
  | @nil inWord =>
    obtain rfl : inWord = false := hword
    exact h'
  | @shorthand sh rest term spelled hsh tail ih =>
    rw [hsh.wordAfter_append] at hword
    rw [List.append_assoc]
    exact .shorthand hsh (ih hword)
  | @piece inWord p ps spelled hno tail ih =>
    refine .piece (fun hstart hbegins => ?_) (ih hword)
    obtain ⟨sh, rest, term, hsh, heq⟩ := hbegins
    have heq : p :: ps ++ qs = sh ++ rest := heq
    rcases List.append_eq_append_iff.1 heq with ⟨back, rfl, rfl⟩ | ⟨later, heq, -⟩
    · by_cases hback : back = []
      · subst hback
        exact hno hstart ⟨_, [], term, hsh, by simp⟩
      · rw [List.head?_append_of_ne_nil _ hback] at hc
        obtain ⟨d, hd, hletter⟩ := hsh.isLetter_of_head (List.cons_ne_nil p ps) hc hletter
        rw [wordAfter_of_getLast? hd, Piece.isWord, isWord_of_isLetter hletter] at hword
        cases hword
    · exact hno hstart ⟨sh, later, term, hsh, heq⟩

end RollTray.Formula
