import RollTray.Proofs.Formula.Seams

/-!
# White space in formulas

White space between two units of a formula changes what the formula is read as at two kinds of places
and at no other (`reading_ne_iff`): between the name of a shorthand and its parentheses, where one term
less has a keep rule (`keeps_of_cutsShorthand`), and between a shorthand and digits, which are an operand
of their own after white space (`not_accepts_of_meetsDigits`).

Everywhere else the formula has the same pieces with the white space between them, once the shorthands
are written out, or two operands side by side both times (`accepts_spaced`).
-/

namespace RollTray.Formula

variable {inWord : Bool} {ps qs front back : List Piece} {written : WrittenTerm}
  {before after : List Spelled} {spaces : List Char}

/-! ## The two sides of a place -/

theorem Spells.last (h : Spells inWord ps before) : ps = [] ∧ before = [] ∨
    (∃ p, ps.getLast? = some p ∧ before.getLast? = some (.piece p)) ∨
      ∃ front sh term, ps = front ++ sh ∧ IsShorthand sh term ∧ wordAfter inWord front = false ∧
        before.getLast? = some (.shorthand term) := by
  induction h with
  | nil => exact .inl ⟨rfl, rfl⟩
  | @shorthand sh rest term before hsh _ ih =>
    rcases ih with ⟨rfl, rfl⟩ | ⟨p, hp, hlast⟩ | ⟨front, sh', term', rfl, hsh', hword, hlast⟩
    · exact .inr (.inr ⟨[], sh, term, by simp, hsh, rfl, rfl⟩)
    · exact .inr (.inl ⟨p, List.mem_getLast?_append_of_mem_getLast? hp, mem_getLast?_cons hlast⟩)
    · rw [← hsh.wordAfter_append false] at hword
      exact .inr (.inr ⟨sh ++ front, sh', term', (List.append_assoc ..).symm, hsh', hword,
        mem_getLast?_cons hlast⟩)
  | @piece inWord p ps before hno _ ih =>
    rcases ih with ⟨rfl, rfl⟩ | ⟨q, hq, hlast⟩ | ⟨front, sh, term, rfl, hsh, hword, hlast⟩
    · exact .inr (.inl ⟨p, rfl, rfl⟩)
    · exact .inr (.inl ⟨q, mem_getLast?_cons hq, mem_getLast?_cons hlast⟩)
    · exact .inr (.inr ⟨p :: front, sh, term, rfl, hsh, hword, mem_getLast?_cons hlast⟩)

theorem Spells.head? (h : Spells inWord qs after) {p : Piece} (hp : after.head? = some (.piece p)) :
    qs.head? = some p := by
  cases h with
  | nil => cases hp
  | shorthand _ _ => cases hp
  | piece _ _ =>
    cases hp
    rfl

/-- It matters only for a shorthand whether a word goes on. -/
theorem Spells.of_not_begins (h : Spells inWord qs after) (hno : ¬BeginsShorthand qs)
    (inWord' : Bool) : Spells inWord' qs after := by
  cases h with
  | nil => exact .nil
  | shorthand hsh _ => exact absurd ⟨_, _, _, hsh, rfl⟩ hno
  | piece _ tail => exact .piece (fun _ => hno) tail

theorem not_joins_underscore {c d : Char} (h : c = '_' ∨ d = '_') : ¬Joins c d := by
  rintro (⟨hc, hd⟩ | ⟨hc, hd⟩)
  · rcases h with rfl | rfl
    · cases hc
    · cases hd
  · rcases h with rfl | rfl
    · cases hc
    · cases hd

/-- Pieces that do not join do not join with their shorthands written out, either. -/
theorem Apart.settle {inWord' : Bool} (h : Apart ps qs) (hbefore : Spells inWord ps before)
    (hafter : Spells inWord' qs after) : Apart (settle before) (settle after) := by
  intro p hp q hq
  have hne : before ≠ [] := by
    rintro rfl
    cases hp
  obtain ⟨p', hp', hlast⟩ := exists_getLast?_settle (List.getLast?_eq_some_getLast hne)
  obtain rfl : p = p' := Option.some.inj (hp.symm.trans hp')
  rcases hlast with hlast | ⟨term, rfl⟩
  · rcases exists_head?_settle hq with hhead | ⟨term, rfl⟩
    · rcases hbefore.last with ⟨-, rfl⟩ | ⟨r, hr, hpiece⟩ | ⟨_, _, _, -, -, -, hshorthand⟩
      · exact absurd rfl hne
      · rw [List.getLast?_eq_some_getLast hne, hlast] at hpiece
        cases hpiece
        exact h p hr q (hafter.head? hhead)
      · rw [List.getLast?_eq_some_getLast hne, hlast] at hshorthand
        cases hshorthand
    · exact not_joins_underscore (.inr rfl)
  · exact not_joins_underscore (.inl rfl)

/-- A shorthand ends here, and a digit is next once all shorthands are written out. -/
inductive MeetsDigits (inWord : Bool) : List Piece → List Piece → Prop
  | mk {front sh qs : List Piece} {term : WrittenTerm} {c : Char} (word : wordAfter inWord front = false)
      (shorthand : IsShorthand sh term) (next : c ∈ (Shorthand.expandFrom false (textOf qs)).head?)
      (digit : Text.isDigit c = true) : MeetsDigits inWord (front ++ sh) qs

/-- The first piece of a text begins with a digit where the text does. -/
theorem exists_head?_pieces (c : Char) (cs : List Char) :
    ∃ p, (pieces (c :: cs)).head? = some p ∧ p.startsDigit = Text.isDigit c := by
  cases hterm : takeTerm? (c :: cs) with
  | none => exact ⟨.plain c, by rw [pieces_of_plain hterm]; rfl, rfl⟩
  | some found =>
    obtain ⟨term, rest⟩ := found
    refine ⟨.term term, by rw [pieces_of_term hterm]; rfl, ?_⟩
    obtain ⟨hproper, -, htext⟩ := takeTerm?_eq_some.1 hterm
    rw [WrittenTerm.text] at htext
    cases hcount : term.count with
    | nil =>
      rw [hcount] at htext
      obtain ⟨rfl, -⟩ := List.cons.inj htext
      simp [Piece.startsDigit, hcount]
      rfl
    | cons digit digits =>
      rw [hcount] at htext
      obtain ⟨rfl, -⟩ := List.cons.inj htext
      rw [hproper.count c (hcount ▸ List.mem_cons_self ..)]
      simp [Piece.startsDigit, hcount]

theorem startsDigit_iff {cs : List Char} :
    (∃ p ∈ (pieces cs).head?, p.startsDigit = true) ↔ ∃ c ∈ cs.head?, Text.isDigit c = true := by
  cases cs with
  | nil =>
    rw [pieces]
    constructor <;> rintro ⟨_, h, -⟩ <;> cases h
  | cons c cs =>
    obtain ⟨p, hp, hdigit⟩ := exists_head?_pieces c cs
    simp only [hp, List.head?_cons, Option.mem_some_iff, exists_eq_left', hdigit]

/-- An operand at the end of the pieces, even with their shorthands written out. -/
theorem exists_operand {s : Spelled} (hs : before.getLast? = some s)
    (hpiece : ∀ p, s = .piece p → p.isWord = true ∧ Text.isLetter p.mark = false) :
    ∃ q, (settle before).getLast? = some q ∧ q.isWord = true ∧ Text.isLetter q.mark = false := by
  obtain ⟨q, hq, hpiece' | ⟨term, rfl⟩⟩ := exists_getLast?_settle hs
  · exact ⟨q, hq, hpiece q hpiece'⟩
  · exact ⟨_, hq, rfl, rfl⟩

theorem settle_spaces (hspaces : ∀ c ∈ spaces, Text.isSpace c = true) (hne : spaces ≠ [])
    (before after : List Spelled) :
    settle (before ++ ((spaces.map .plain).map .piece ++ after)) =
      settle before ++ (spaces.map .plain ++ settle after) := by
  rw [settle_append, settle_pieces]
  rw [settle_pieces]
  refine .inr fun p hp => ?_
  obtain ⟨c, spaces, rfl⟩ := List.exists_cons_of_ne_nil hne
  cases hp
  exact (opens_of_isSpace (hspaces c (List.mem_cons_self ..))).1

theorem apart_spaces (hspaces : ∀ c ∈ spaces, Text.isSpace c = true) (hne : spaces ≠ [])
    (ps qs : List Piece) : Apart ps (spaces.map .plain ++ qs) := by
  intro p hp q hq
  obtain ⟨c, spaces, rfl⟩ := List.exists_cons_of_ne_nil hne
  cases hq
  exact not_joins_of_isSpace (.inr (hspaces c (List.mem_cons_self ..)))

/-- A shorthand's name right after a number or a dice term is one of a function, and with white space
before it the shorthand is a dice term; both are operands. -/
theorem not_accepts_of_begins {before after after' : List Spelled}
    (hspaces : ∀ c ∈ spaces, Text.isSpace c = true) (hne : spaces ≠ []) (hapart : Apart ps qs)
    (hbefore : Spells false ps before) (hword : wordAfter false ps = true) (hbegins : BeginsShorthand qs)
    (hafter : Spells true qs after) (hafter' : Spells false qs after') (terms : List DiceTerm)
    (tokens : List Token) : ¬Accepts (settle (before ++ after)) terms tokens ∧
      ¬Accepts (settle (before ++ ((spaces.map .plain).map .piece ++ after'))) terms tokens := by
  obtain ⟨c, hc, hletter⟩ := hbegins.isLetter_of_head
  -- The word before the place ends in no letter, as that would join the name.
  have hlast : ∃ p, before.getLast? = some (.piece p) ∧ p.isWord = true ∧
      Text.isLetter p.mark = false := by
    rcases hbefore.last with ⟨rfl, -⟩ | ⟨p, hp, hpiece⟩ | ⟨front, sh, term, rfl, hsh, -, -⟩
    · cases hword
    · rw [wordAfter_of_getLast? hp] at hword
      refine ⟨p, hpiece, hword, ?_⟩
      rw [Bool.eq_false_iff]
      exact fun hp' => hapart p hp _ hc (.inr ⟨hp', hletter⟩)
    · rw [hsh.wordAfter_eq] at hword
      cases hword
  obtain ⟨p, hp, hpword, hpletter⟩ := hlast
  obtain ⟨q, hq, hqword, hqletter⟩ := exists_operand hp fun _ heq => by
    cases heq
    exact ⟨hpword, hpletter⟩
  constructor
  · have hhead : (settle after).head? = some (.plain c) := by
      cases hafter with
      | nil => cases hc
      | piece _ _ => exact hc
    have hsettle : settle (before ++ after) = settle before ++ settle after := by
      refine settle_append (.inr fun r hr => ?_)
      rw [hhead] at hr
      cases hr
      exact isDigit_of_isLetter hletter
    rw [hsettle]
    exact not_accepts (List.forall_mem_nil _) (hapart.settle hbefore hafter) hq hqword hqletter hhead
      (isWord_of_isLetter hletter) terms tokens
  · have hhead : ∃ term, (settle after').head? = some (.term term) := by
      cases hafter' with
      | nil => cases hc
      | @shorthand _ _ term later _ _ =>
        obtain ⟨term', rest, heq⟩ := exists_absorb_eq term (settle later)
        exact ⟨term', by rw [settle, heq]; rfl⟩
      | piece hno _ => exact absurd hbegins (hno rfl)
    obtain ⟨term, hhead⟩ := hhead
    rw [settle_spaces hspaces hne]
    exact not_accepts hspaces (apart_spaces hspaces hne _ _) hq hqword hqletter hhead rfl terms tokens

/-- The count of a dice term begins with its first digit. -/
theorem Aligned.isDigit_eq {c : Char} (h : Aligned (.plain c :: .term written :: ps)) :
    Text.isDigit c = false := by
  obtain ⟨hbefore, htail⟩ := aligned_cons.1 h
  obtain ⟨hproper, -, -⟩ := takeTerm?_eq_some.1 (aligned_cons.1 htail).1
  obtain ⟨side, sides, hsides⟩ := List.exists_cons_of_ne_nil hproper.nonempty
  rw [Bool.eq_false_iff]
  intro hc
  rw [Piece.Before, ← Option.not_isSome_iff_eq_none, takeTerm?_isSome] at hbefore
  refine hbefore ⟨c :: written.count, side, sides ++ ((written.keep.map KeepWord.text).getD [] ++
    written.keepCount ++ textOf ps), ?_, List.forall_mem_cons.2 ⟨hc, hproper.count⟩,
    hproper.sides side (hsides ▸ List.mem_cons_self ..)⟩
  simp [Piece.text, WrittenTerm.text, hsides]

/-- Where no number is cut, digits follow a digit neither here nor once shorthands are written out. -/
theorem startsDigit_settle {c : Char} (haligned : Aligned (.plain c :: qs)) (hc : Text.isDigit c = true)
    (hapart : ∀ q ∈ qs.head?, ¬Joins c q.mark) (hafter : Spells true qs after) :
    ∀ q ∈ (settle after).head?, q.startsDigit = false := by
  obtain ⟨-, hqs⟩ := aligned_cons.1 haligned
  intro q hq
  rw [Bool.eq_false_iff]
  intro hstart
  rw [← pieces_expandFrom hqs hafter] at hq
  obtain ⟨d, hd, hdigit⟩ := startsDigit_iff.1 ⟨q, hq, hstart⟩
  have htext : d ∈ (textOf qs).head? := by
    cases htext : textOf qs with
    | nil =>
      rw [htext, Shorthand.expandFrom] at hd
      exact hd
    | cons e tail =>
      rw [htext, expandFrom_cons (fun h => absurd h (by decide))] at hd
      exact hd
  obtain ⟨r, hr, hstart⟩ := startsDigit_iff.2 ⟨d, htext, hdigit⟩
  rw [show pieces (textOf qs) = qs from hqs] at hr
  cases r with
  | plain e =>
    have he : Text.isDigit e = true := hstart
    exact hapart _ hr (.inl ⟨by simp [isNumeric, hc], by simp [isNumeric, Piece.mark, he]⟩)
  | term written =>
    obtain ⟨qs, rfl⟩ := List.head?_eq_some_iff.1 hr
    rw [haligned.isDigit_eq] at hc
    cases hc

/-- What is before and after a place is settled by itself, where no digits meet a shorthand. -/
theorem settle_of_not_meetsDigits {before after : List Spelled} (haligned : Aligned (ps ++ qs))
    (hapart : Apart ps qs) (hmeets : ¬MeetsDigits false ps qs) (hbefore : Spells false ps before)
    (hafter : Spells (wordAfter false ps) qs after) :
    settle (before ++ after) = settle before ++ settle after := by
  rcases hbefore.last with ⟨rfl, rfl⟩ | ⟨p, hp, hpiece⟩ | ⟨front, sh, term, rfl, hsh, hword, -⟩
  · rfl
  · by_cases hdigit : p.isDigit = false
    · exact settle_append (.inl ⟨p, hpiece, hdigit⟩)
    cases p with
    | term written => exact absurd rfl hdigit
    | plain c =>
      have hc : Text.isDigit c = true := by simpa [Piece.isDigit] using hdigit
      rw [wordAfter_of_getLast? hp, Piece.isWord, isWord_of_isDigit hc] at hafter
      obtain ⟨front, rfl⟩ := List.getLast?_eq_some_iff.1 hp
      rw [List.append_assoc] at haligned
      exact settle_append (.inr (startsDigit_settle haligned.of_append hc (hapart _ hp) hafter))
  · rw [hsh.wordAfter_eq] at hafter
    refine settle_append (.inr fun q hq => ?_)
    rw [Bool.eq_false_iff]
    intro hstart
    rw [← pieces_expandFrom haligned.of_append hafter] at hq
    obtain ⟨c, hc, hdigit⟩ := startsDigit_iff.1 ⟨q, hq, hstart⟩
    exact hmeets (.mk hword hsh hc hdigit)

/-- White space between pieces changes nothing, unless it cuts off the name of a shorthand or keeps the
digits away that a shorthand takes. -/
theorem accepts_spaced (haligned : Aligned (ps ++ qs)) (hspaces : ∀ c ∈ spaces, Text.isSpace c = true)
    (hne : spaces ≠ []) (hapart : Apart ps qs) (hcuts : ¬CutsShorthand false ps qs)
    (hmeets : ¬MeetsDigits false ps qs) : ∃ spelled spelled', Spells false (ps ++ qs) spelled ∧
      Spells false (ps ++ (spaces.map .plain ++ qs)) spelled' ∧
        ∀ terms tokens, Accepts (settle spelled') terms tokens ↔ Accepts (settle spelled) terms tokens := by
  obtain ⟨spelled, hspelled⟩ := exists_spells false (ps ++ qs)
  cases hspelled.insert hspaces hne hapart with
  | cut cuts => exact absurd cuts hcuts
  | within spaced => exact ⟨spelled, spelled, hspelled, spaced, fun _ _ => .rfl⟩
  | @between before after hbefore hafter spaced =>
    -- Right after a word, a shorthand is none without white space and is one with it.
    by_cases hflag : wordAfter false ps = true ∧ BeginsShorthand qs
    · obtain ⟨hword, hbegins⟩ := hflag
      obtain ⟨after', hafter'⟩ := exists_spells false qs
      rw [hword] at hafter
      refine ⟨_, _, hspelled, spaced after' hafter', fun terms tokens => ?_⟩
      obtain ⟨hnot, hnot'⟩ := not_accepts_of_begins hspaces hne hapart hbefore hword hbegins hafter
        hafter' terms tokens
      exact ⟨fun h => absurd h hnot', fun h => absurd h hnot⟩
    · have hafter' : Spells false qs after := by
        cases hword : wordAfter false ps with
        | false => rwa [hword] at hafter
        | true => exact hafter.of_not_begins (fun hbegins => hflag ⟨hword, hbegins⟩) false
      refine ⟨_, _, hspelled, spaced after hafter', fun terms tokens => ?_⟩
      rw [settle_spaces hspaces hne, settle_of_not_meetsDigits haligned hapart hmeets hbefore hafter]
      exact accepts_insert hspaces (hapart.settle hbefore hafter)

/-! ## Where white space matters -/

/-- Digits that white space keeps away from a shorthand make an operand of their own. -/
theorem not_accepts_of_meetsDigits (haligned : Aligned (ps ++ qs))
    (hspaces : ∀ c ∈ spaces, Text.isSpace c = true) (hne : spaces ≠ [])
    (h : MeetsDigits false ps qs) : ∃ spelled, Spells false (ps ++ (spaces.map .plain ++ qs)) spelled ∧
      ∀ terms tokens, ¬Accepts (settle spelled) terms tokens := by
  cases h with | @mk front sh _ term c hword hsh hnext hdigit =>
  obtain ⟨before, hbefore⟩ := exists_spells false front
  obtain ⟨after, hafter⟩ := exists_spells false qs
  obtain ⟨d, hd, hletter⟩ := hsh.head?
  have hspelled := hbefore.append (List.mem_head?_append_of_mem_head? hd) hletter hword
    (.shorthand hsh (hafter.spaces_append hspaces hne false))
  rw [← List.append_assoc] at hspelled
  refine ⟨_, hspelled, fun terms tokens => ?_⟩
  obtain ⟨q, hq, hqword, hqletter⟩ := exists_operand
    (List.getLast?_concat : (before ++ [Spelled.shorthand term]).getLast? = _) nofun
  obtain ⟨r, hr, hstart⟩ := startsDigit_iff.2 ⟨c, hnext, hdigit⟩
  rw [pieces_expandFrom haligned.of_append hafter] at hr
  have hrword : r.isWord = true := by
    cases r with
    | plain e => exact isWord_of_isDigit hstart
    | term written => rfl
  rw [List.append_cons, settle_spaces hspaces hne]
  exact not_accepts hspaces (apart_spaces hspaces hne _ _) hq hqword hqletter hr hrword terms tokens

/-- Whether the piece is a dice term that has a keep rule. -/
def Piece.keeps? : Piece → Option Bool
  | .plain _ => none
  | .term written => some written.keep.isSome

def Spelled.keeps? : Spelled → Option Bool
  | .piece p => p.keeps?
  | .shorthand written => some written.keep.isSome

theorem isSome_keep_of_read {dice : DiceTerm} (h : written.read = .ok (some dice)) :
    dice.keep.isSome = written.keep.isSome := by
  obtain ⟨sides, -, h⟩ := bind_eq_ok.1 h
  split at h
  · cases h
  obtain ⟨count, -, h⟩ := bind_eq_ok.1 h
  split at h
  · cases h
  obtain ⟨keep, hkeep, h⟩ := bind_eq_ok.1 h
  cases h
  unfold WrittenTerm.readKeep at hkeep
  split at hkeep
  · next hnone =>
    cases hkeep
    rw [hnone]
    rfl
  · next haverage =>
    cases hkeep
    rw [haverage]
    rfl
  · next hhighest =>
    obtain ⟨n, -, hkeep⟩ := bind_eq_ok.1 hkeep
    cases hkeep
    rw [hhighest]
    rfl
  · next hlowest =>
    obtain ⟨n, -, hkeep⟩ := bind_eq_ok.1 hkeep
    cases hkeep
    rw [hlowest]
    rfl

theorem keeps_of_accepts {terms : List DiceTerm} {tokens : List Token} (h : Accepts ps terms tokens) :
    terms.map (·.keep.isSome) = ps.filterMap Piece.keeps? := by
  obtain ⟨parts, hbecomes, hsuits⟩ := h
  rw [hsuits.shown]
  clear hsuits
  induction hbecomes with
  | nil => rfl
  | cons hfirst _ ih =>
    cases hfirst with
    | plain c => exact ih
    | place hread => exact congrArg₂ List.cons (isSome_keep_of_read hread) ih

theorem keeps_pieces (ps : List Piece) :
    (ps.map .piece).filterMap Spelled.keeps? = ps.filterMap Piece.keeps? := by
  rw [List.filterMap_map]
  rfl

theorem keeps_plain (cs : List Char) : (cs.map .plain).filterMap Piece.keeps? = [] := by
  rw [List.filterMap_map]
  exact List.filterMap_eq_nil_iff.2 fun _ _ => rfl

theorem keeps_argument {inside : List Piece} (h : Argument inside written) :
    inside.filterMap Piece.keeps? = [false] := by
  cases h with | @mk before after _ _ hkeep _ =>
  rw [List.filterMap_append, keeps_plain, List.filterMap_cons, List.filterMap_append, keeps_plain,
    Piece.keeps?, hkeep]
  rfl

theorem keeps_absorb (written : WrittenTerm) (ps : List Piece) :
    (absorb written ps).filterMap Piece.keeps? =
      written.keep.isSome :: ps.filterMap Piece.keeps? := by
  cases ps with
  | nil => rfl
  | cons p ps =>
    cases p with
    | term next => rfl
    | plain c =>
      have hdigits : ((Piece.plain c :: ps).takeWhile Piece.isDigit).filterMap Piece.keeps? = [] := by
        rw [List.filterMap_eq_nil_iff]
        intro p hp
        cases p with
        | plain c => rfl
        | term next => cases List.mem_takeWhile_imp hp
      rw [absorb_plain]
      conv => rhs; rw [← List.takeWhile_append_dropWhile (p := Piece.isDigit) (l := .plain c :: ps),
        List.filterMap_append, hdigits]
      rfl

theorem keeps_settle (spelled : List Spelled) :
    (settle spelled).filterMap Piece.keeps? = spelled.filterMap Spelled.keeps? := by
  induction spelled with
  | nil => rfl
  | cons s spelled ih =>
    cases s with
    | piece p => rw [settle, List.filterMap_cons, List.filterMap_cons, ih]; rfl
    | shorthand written =>
      rw [settle, keeps_absorb, ih]
      rfl

/-- A term has no keep rule once white space cuts off the name of its shorthand. -/
theorem keeps_of_cutsShorthand (hspaces : ∀ c ∈ spaces, Text.isSpace c = true) (hne : spaces ≠ [])
    (h : CutsShorthand false ps qs) : ∃ spelled spelled', Spells false (ps ++ qs) spelled ∧
      Spells false (ps ++ (spaces.map .plain ++ qs)) spelled' ∧
        spelled.filterMap Spelled.keeps? ≠ spelled'.filterMap Spelled.keeps? := by
  cases h with | @mk front inside rest name keepCount keep written hword hrule hargument =>
  obtain ⟨before, hbefore⟩ := exists_spells false front
  obtain ⟨after, hafter⟩ := exists_spells false rest
  have hsh := IsShorthand.mk hrule hargument
  obtain ⟨c, hc, hletter⟩ := hsh.head?
  have hspelled := hbefore.append (List.mem_head?_append_of_mem_head? hc) hletter hword
    (.shorthand hsh hafter)
  have hname : name.map Piece.plain ≠ [] := by simpa using (isLetter_of_rule hrule).1
  rw [List.head?_append_of_ne_nil _ hname] at hc
  have hspelled' := hbefore.append (List.mem_head?_append_of_mem_head? hc) hletter hword
    (hafter.cut_name hspaces hne hrule hargument)
  refine ⟨_, _, by simpa only [List.append_assoc, List.cons_append] using hspelled,
    by simpa only [List.append_assoc, List.cons_append] using hspelled', fun heq => ?_⟩
  simp only [List.filterMap_append, keeps_pieces, keeps_plain, List.nil_append] at heq
  have heq := List.append_cancel_left heq
  rw [List.filterMap_cons, List.filterMap_cons, keeps_argument hargument] at heq
  cases heq

/-! ## Formulas -/

/-- A place between units of a formula: these pieces are before it and those after it, and no number
and no name is cut. -/
structure Seam (a b : String) (ps qs : List Piece) : Prop where
  units : pieces ((a ++ b).toList.flatMap lowered) = ps ++ qs
  here : textOf ps = a.toList.flatMap lowered
  apart : Apart ps qs

namespace Seam

variable {a b gap : String} {spelled : List Spelled}

theorem text (h : Seam a b ps qs) : textOf (ps ++ qs) = (a ++ b).toList.flatMap lowered := by
  rw [← h.units]
  exact text_pieces _

theorem aligned (h : Seam a b ps qs) : Aligned (ps ++ qs) := by
  rw [← h.units]
  exact aligned_pieces _

theorem pieces_expanded (h : Seam a b ps qs) (hspelled : Spells false (ps ++ qs) spelled) :
    pieces (expanded (a ++ b)) = settle spelled := by
  rw [expanded, ← h.text]
  exact pieces_expandFrom h.aligned hspelled

theorem pieces_spaced (h : Seam a b ps qs) (hgap : ∀ c ∈ gap.toList, Text.isSpace c = true)
    (hspelled : Spells false (ps ++ (gap.toList.map .plain ++ qs)) spelled) :
    pieces (expanded (a ++ gap ++ b)) = settle spelled := by
  have htext : textOf (ps ++ (gap.toList.map .plain ++ qs)) =
      (a ++ gap ++ b).toList.flatMap lowered := by
    have hback := h.text
    rw [textOf_append, String.toList_append, List.flatMap_append, h.here] at hback
    have hlowered : gap.toList.flatMap lowered = gap.toList := by
      have hlow : ∀ c ∈ gap.toList, lowered c = [c] :=
        fun c hc => lowered_of_lt ((toNat_of_isSpace (hgap c hc)).trans_lt (by decide))
      rw [List.flatMap_congr hlow, List.flatMap_singleton']
    rw [textOf_append, textOf_append, textOf_map_plain, List.append_cancel_left hback, h.here,
      String.toList_append, String.toList_append, List.flatMap_append, List.flatMap_append, hlowered,
      List.append_assoc]
  rw [expanded, ← htext]
  exact pieces_expandFrom (h.aligned.insert hgap) hspelled

end Seam

/-- White space in a formula changes what the formula is read as just where it cuts off the name of a
shorthand or keeps the digits away that a shorthand takes, as far as there is anything to read. -/
theorem reading_ne_iff {a b gap : String} (h : Seam a b ps qs)
    (hgap : ∀ c ∈ gap.toList, Text.isSpace c = true) (hne : gap ≠ "") :
    reading (a ++ gap ++ b) ≠ reading (a ++ b) ↔
      (CutsShorthand false ps qs ∨ MeetsDigits false ps qs) ∧
        (reading (a ++ gap ++ b) ≠ none ∨ reading (a ++ b) ≠ none) := by
  have hne : gap.toList ≠ [] := by
    simpa using hne
  constructor
  · refine fun hreading => ⟨?_, ?_⟩
    · by_contra hplace
      obtain ⟨hcuts, hmeets⟩ := not_or.1 hplace
      obtain ⟨spelled, spelled', hspelled, hspelled', haccepts⟩ :=
        accepts_spaced h.aligned hgap hne h.apart hcuts hmeets
      refine hreading (Option.ext fun r => ?_)
      rw [reading_eq_some, reading_eq_some, h.pieces_spaced hgap hspelled', h.pieces_expanded hspelled]
      simp only [haccepts]
    · by_contra hnone
      simp only [not_or, not_not] at hnone
      exact hreading (hnone.1.trans hnone.2.symm)
  · rintro ⟨hplace, hread⟩ heq
    have hsome : ∃ r, reading (a ++ b) = some r := by
      rw [heq, or_self] at hread
      exact Option.ne_none_iff_exists'.1 hread
    obtain ⟨r, hr⟩ := hsome
    obtain ⟨terms, tokens, rfl, haccepts⟩ := reading_eq_some.1 hr
    obtain ⟨terms', tokens', heq', haccepts'⟩ := reading_eq_some.1 (heq.trans hr)
    obtain ⟨rfl, -⟩ := Prod.mk.inj heq'
    -- Both formulas compile, to the same dice terms.
    rcases hplace with hcuts | hmeets
    · obtain ⟨spelled, spelled', hspelled, hspelled', hkeeps⟩ := keeps_of_cutsShorthand hgap hne hcuts
      rw [h.pieces_expanded hspelled] at haccepts
      rw [h.pieces_spaced hgap hspelled'] at haccepts'
      rw [← keeps_settle, ← keeps_settle, ← keeps_of_accepts haccepts, ← keeps_of_accepts haccepts'] at hkeeps
      exact hkeeps rfl
    · obtain ⟨spelled', hspelled', hnot⟩ := not_accepts_of_meetsDigits h.aligned hgap hne hmeets
      rw [h.pieces_spaced hgap hspelled'] at haccepts'
      exact hnot _ _ haccepts'

/-- A shorthand takes the number behind it, and no operand may follow it after white space. -/
theorem reading_ne_digits : reading ("max(1d6)" ++ " " ++ "2") ≠ reading ("max(1d6)" ++ "2") := by
  let written : WrittenTerm := ⟨['1'], ['6'], none, []⟩
  let sh : List Piece := "max".toList.map .plain ++ .plain '(' :: [.term written, .plain ')']
  have hseam : Seam "max(1d6)" "2" ([] ++ sh) [.plain '2'] := by
    refine ⟨by decide +kernel, by decide +kernel, ?_⟩
    rintro _ ⟨⟩ _ ⟨⟩ (⟨h, -⟩ | ⟨h, -⟩) <;> cases h
  have hspace : ∀ c ∈ " ".toList, Text.isSpace c = true := List.forall_mem_singleton.2 rfl
  have hargument : Argument [.term written, .plain ')'] written :=
    .mk (List.forall_mem_nil _) rfl (List.forall_mem_nil _)
  have hword : wordAfter false [] = false := rfl
  have hmeets : MeetsDigits false ([] ++ sh) [.plain '2'] :=
    .mk hword (.mk (List.mem_cons_self ..) hargument) (show '2' ∈ _ by decide +kernel) rfl
  exact (reading_ne_iff hseam hspace (by decide)).2 ⟨.inr hmeets, .inr (by decide +kernel)⟩

-- White space cuts off the name of the shorthand, and cuts nothing in the next formula.
example : reading "max (1d20)" ≠ reading "max(1d20)" := by decide +kernel

example : reading " 2 * max( 1d20 ) + 1 " = reading "2*max(1d20)+1" := by decide +kernel

end RollTray.Formula
