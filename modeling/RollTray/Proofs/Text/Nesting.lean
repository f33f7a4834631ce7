import Mathlib.Data.List.Infix
import Mathlib.Logic.Function.Iterate
import RollTray.Text.Strike

/-!
# Struck-through text in struck-through text

A text is proper if its tags are nested properly and it is a single line (`Proper`). Proper texts may be put
one after the other, with something between them that belongs to no tag (`Proper.join`), and struck through as
a whole (`Proper.struck`).

A pass of `toMarkdown` replaces the innermost pairs only. It neither changes which tags are open where
(`openAfter?_pass`) nor what the text is with all of its tags replaced (`marked_pass`). As long as a proper text
has tags it has an innermost pair, so when a pass changes nothing, no tag is left (`untagged_of_pass`): the passes
replace each tag of a proper text, and nothing else (`replaceAll_eq_marked`).
-/

namespace RollTray.Text.Strike

/-- How many pairs are open after a text if so many are before it; none if it closes one that is not. -/
def openAfter? : Nat → List Char → Option Nat
  | depth, [] => some depth
  | depth, c :: cs =>
    if openTag.isPrefixOf (c :: cs) then openAfter? (depth + 1) cs
    else if closeTag.isPrefixOf (c :: cs) then
      if depth = 0 then none else openAfter? (depth - 1) cs
    else openAfter? depth cs

/-- The tags of the text are properly nested, and it is a single line. -/
structure Proper (cs : List Char) : Prop where
  nested : openAfter? 0 cs = some 0
  line : '\n' ∉ cs

/-- No tag is in the text. -/
def Untagged (cs : List Char) : Prop :=
  ¬openTag <:+: cs ∧ ¬closeTag <:+: cs

/-- The text with `~~` in place of each tag, be it part of a pair or not. -/
def marked (cs : List Char) : List Char :=
  match cs with
  | [] => []
  | c :: tail =>
    if openTag.isPrefixOf (c :: tail) then mark ++ marked (tail.drop (openTag.length - 1))
    else if closeTag.isPrefixOf (c :: tail) then mark ++ marked (tail.drop (closeTag.length - 1))
    else c :: marked tail
termination_by cs.length
decreasing_by all_goals (simp only [List.length_cons, List.length_drop] at *; omega)

/-! ## Where tags begin -/

/-- A character with which a tag goes on. -/
def Continues (c : Char) : Prop := c ∈ ['/', 'd', 'e', 'l', '>']

instance (c : Char) : Decidable (Continues c) := inferInstanceAs (Decidable (c ∈ _))

/-- No tag that begins before the text goes on in it. -/
def Apart (cs : List Char) : Prop := ∀ c ∈ cs.head?, ¬Continues c

/-- No tag begins with this character if this text follows it. -/
structure Stands (c : Char) (cs : List Char) : Prop where
  opening : openTag.isPrefixOf (c :: cs) = false
  closing : closeTag.isPrefixOf (c :: cs) = false

theorem openTag_eq : ∃ word, openTag = '<' :: word ∧ ∀ c ∈ word, Continues c :=
  ⟨['d', 'e', 'l', '>'], rfl, by simp [Continues]⟩

theorem closeTag_eq : ∃ word, closeTag = '<' :: word ∧ ∀ c ∈ word, Continues c :=
  ⟨['/', 'd', 'e', 'l', '>'], rfl, by simp [Continues]⟩

/-- No tag begins where another one goes on. -/
theorem openWord_ne : ∀ c ∈ ['d', 'e', 'l', '>'], c ≠ '<' := by simp

theorem closeWord_ne : ∀ c ∈ ['/', 'd', 'e', 'l', '>'], c ≠ '<' := by simp

theorem mark_ne : ∀ c ∈ mark, c ≠ '<' := by simp [mark]

theorem apart_nil : Apart [] := nofun

theorem apart_cons {c : Char} (h : ¬Continues c) (cs : List Char) : Apart (c :: cs) := by
  simpa [Apart] using h

/-- As much of a tag is read in front of the one text as of the other. -/
def SameFront (cs cs' : List Char) : Prop :=
  ∀ word : List Char, (∀ c ∈ word, Continues c) → word.isPrefixOf cs = word.isPrefixOf cs'

theorem sameFront_append {back : List Char} (hback : Apart back) (front : List Char) :
    SameFront (front ++ back) front := by
  intro word hword
  induction word generalizing front with
  | nil => simp
  | cons x word ih =>
    obtain ⟨hx, hword⟩ := List.forall_mem_cons.1 hword
    cases front with
    | cons y front => simp only [List.cons_append, List.isPrefixOf_cons_cons, ih _ hword]
    | nil =>
      cases back with
      | nil => rfl
      | cons y back =>
        have hne : (x == y) = false := beq_false_of_ne fun h => hback y rfl (h ▸ hx)
        rw [List.nil_append, List.isPrefixOf_cons_cons, hne, Bool.false_and]
        rfl

/-- A function that changes a text only where tags may begin leaves the rests of tags as they are. -/
theorem sameFront_rewritten {f : List Char → List Char} (hnil : f [] = [])
    (hother : ∀ c cs, c ≠ '<' → f (c :: cs) = c :: f cs) (htag : ∀ cs, Apart (f ('<' :: cs)))
    (cs : List Char) : SameFront (f cs) cs := by
  intro word hword
  induction word generalizing cs with
  | nil => simp
  | cons x word ih =>
    cases cs with
    | nil => rw [hnil]
    | cons c cs =>
      by_cases hc : c = '<'
      · subst hc
        have hfront : ∀ {cs}, Apart cs → (x :: word).isPrefixOf cs = false := fun hcs =>
          sameFront_append hcs [] (x :: word) hword
        rw [hfront (htag cs), hfront (apart_cons (by decide) cs)]
      · rw [hother c cs hc, List.isPrefixOf_cons_cons, List.isPrefixOf_cons_cons,
          ih _ (List.forall_mem_cons.1 hword).2]

namespace SameFront

variable {c : Char} {cs cs' : List Char} (h : SameFront cs cs')

include h

theorem openTag_eq : openTag.isPrefixOf (c :: cs) = openTag.isPrefixOf (c :: cs') := by
  obtain ⟨word, hopen, hword⟩ := Strike.openTag_eq
  rw [hopen, List.isPrefixOf_cons_cons, List.isPrefixOf_cons_cons, h word hword]

theorem closeTag_eq : closeTag.isPrefixOf (c :: cs) = closeTag.isPrefixOf (c :: cs') := by
  obtain ⟨word, hclose, hword⟩ := Strike.closeTag_eq
  rw [hclose, List.isPrefixOf_cons_cons, List.isPrefixOf_cons_cons, h word hword]

theorem stands (hstands : Stands c cs') : Stands c cs :=
  ⟨h.openTag_eq.trans hstands.opening, h.closeTag_eq.trans hstands.closing⟩

theorem symm : SameFront cs' cs := fun word hword => (h word hword).symm

end SameFront

theorem stands_of_ne {c : Char} (h : c ≠ '<') (cs : List Char) : Stands c cs := by
  obtain ⟨word, hopen, -⟩ := openTag_eq
  obtain ⟨word', hclose, -⟩ := closeTag_eq
  constructor
  · rw [hopen, List.isPrefixOf_cons_cons, beq_false_of_ne h.symm, Bool.false_and]
  · rw [hclose, List.isPrefixOf_cons_cons, beq_false_of_ne h.symm, Bool.false_and]

theorem untagged_cons {c : Char} {cs : List Char} : Untagged (c :: cs) ↔ Stands c cs ∧ Untagged cs := by
  have hstands : Stands c cs ↔ ¬openTag <+: c :: cs ∧ ¬closeTag <+: c :: cs := by
    rw [← List.isPrefixOf_iff_prefix, ← List.isPrefixOf_iff_prefix, Bool.not_eq_true, Bool.not_eq_true]
    exact ⟨fun h => ⟨h.opening, h.closing⟩, fun h => ⟨h.1, h.2⟩⟩
  rw [Untagged, Untagged, hstands, List.infix_cons_iff, List.infix_cons_iff]
  tauto

theorem untagged_nil : Untagged [] := ⟨by decide, by decide⟩

/-- A text is read tag by tag, and character by character between them. -/
@[elab_as_elim]
theorem tagInduction {P : List Char → Prop} (nil : P [])
    (opening : ∀ rest, P rest → P (openTag ++ rest))
    (closing : ∀ rest, P rest → P (closeTag ++ rest))
    (other : ∀ c rest, Stands c rest → P rest → P (c :: rest)) (cs : List Char) : P cs := by
  induction hn : cs.length using Nat.strong_induction_on generalizing cs with
  | _ n ih =>
    subst hn
    cases cs with
    | nil => exact nil
    | cons c tail =>
      cases hopen : openTag.isPrefixOf (c :: tail) with
      | true =>
        obtain ⟨rest, hrest⟩ := List.isPrefixOf_iff_prefix.1 hopen
        have hlt : rest.length < (c :: tail).length := by
          simp only [← hrest, openTag, List.length_append, String.length_toList]
          exact Nat.lt_add_of_pos_left (by decide)
        exact hrest ▸ opening rest (ih _ hlt rest rfl)
      | false =>
        cases hclose : closeTag.isPrefixOf (c :: tail) with
        | true =>
          obtain ⟨rest, hrest⟩ := List.isPrefixOf_iff_prefix.1 hclose
          have hlt : rest.length < (c :: tail).length := by
            simp only [← hrest, closeTag, List.length_append, String.length_toList]
            exact Nat.lt_add_of_pos_left (by decide)
          exact hrest ▸ closing rest (ih _ hlt rest rfl)
        | false => exact other c tail ⟨hopen, hclose⟩ (ih _ (Nat.lt_succ_self _) tail rfl)

/-! ## Reading a text tag by tag -/

variable {c : Char} {cs front back content rest : List Char}

theorem openAfter?_of_stands (h : Stands c cs) (depth : Nat) :
    openAfter? depth (c :: cs) = openAfter? depth cs := by
  rw [openAfter?, h.opening, h.closing]
  rfl

theorem openAfter?_word {word : List Char} (hword : ∀ c ∈ word, c ≠ '<') (depth : Nat) (cs : List Char) :
    openAfter? depth (word ++ cs) = openAfter? depth cs := by
  induction word with
  | nil => rfl
  | cons c word ih =>
    obtain ⟨hc, hword⟩ := List.forall_mem_cons.1 hword
    rw [List.cons_append, openAfter?_of_stands (stands_of_ne hc _), ih hword]

theorem openAfter?_openTag (depth : Nat) (cs : List Char) :
    openAfter? depth (openTag ++ cs) = openAfter? (depth + 1) cs :=
  openAfter?_word openWord_ne (depth + 1) cs

theorem openAfter?_closeTag (depth : Nat) (cs : List Char) :
    openAfter? (depth + 1) (closeTag ++ cs) = openAfter? depth cs :=
  openAfter?_word closeWord_ne depth cs

theorem openAfter?_append (hback : Apart back) (front : List Char) (depth : Nat) :
    openAfter? depth (front ++ back) = (openAfter? depth front).bind (openAfter? · back) := by
  induction front using tagInduction generalizing depth with
  | nil => rfl
  | opening rest ih => rw [List.append_assoc, openAfter?_openTag, openAfter?_openTag, ih]
  | closing rest ih =>
    cases depth with
    | zero => rfl
    | succ depth => rw [List.append_assoc, openAfter?_closeTag, openAfter?_closeTag, ih]
  | other c rest hstands ih =>
    rw [List.cons_append, openAfter?_of_stands ((sameFront_append hback rest).stands hstands),
      openAfter?_of_stands hstands, ih]

/-- More open pairs around a text stay open. -/
theorem openAfter?_add {depth after : Nat} (h : openAfter? depth cs = some after) (outer : Nat) :
    openAfter? (depth + outer) cs = some (after + outer) := by
  induction cs using tagInduction generalizing depth with
  | nil => simpa [openAfter?] using h
  | opening rest ih =>
    rw [openAfter?_openTag] at h ⊢
    rw [Nat.add_right_comm]
    exact ih h
  | closing rest ih =>
    cases depth with
    | zero => cases h
    | succ depth =>
      rw [openAfter?_closeTag] at h
      rw [Nat.add_right_comm, openAfter?_closeTag]
      exact ih h
  | other c rest hstands ih =>
    rw [openAfter?_of_stands hstands] at h ⊢
    exact ih h

theorem marked_of_stands (h : Stands c cs) : marked (c :: cs) = c :: marked cs := by
  rw [marked, h.opening, h.closing]
  rfl

theorem marked_openTag (cs : List Char) : marked (openTag ++ cs) = mark ++ marked cs := by
  show marked ('<' :: (['d', 'e', 'l', '>'] ++ cs)) = _
  rw [marked, show openTag.isPrefixOf _ = true from rfl, if_pos rfl]
  rfl

theorem marked_closeTag (cs : List Char) : marked (closeTag ++ cs) = mark ++ marked cs := by
  show marked ('<' :: (['/', 'd', 'e', 'l', '>'] ++ cs)) = _
  rw [marked, show openTag.isPrefixOf _ = false from rfl, show closeTag.isPrefixOf _ = true from rfl]
  rfl

theorem marked_word {word : List Char} (hword : ∀ c ∈ word, c ≠ '<') (cs : List Char) :
    marked (word ++ cs) = word ++ marked cs := by
  induction word with
  | nil => rfl
  | cons c word ih =>
    obtain ⟨hc, hword⟩ := List.forall_mem_cons.1 hword
    rw [List.cons_append, marked_of_stands (stands_of_ne hc _), ih hword, List.cons_append]

/-- Before what stands apart, text without tags is passed over. -/
theorem openAfter?_untagged (h : Untagged front) (hback : Apart back) (depth : Nat) :
    openAfter? depth (front ++ back) = openAfter? depth back := by
  induction front with
  | nil => rfl
  | cons c front ih =>
    obtain ⟨hstands, hfront⟩ := untagged_cons.1 h
    rw [List.cons_append, openAfter?_of_stands ((sameFront_append hback front).stands hstands),
      ih hfront]

theorem marked_untagged (h : Untagged front) (hback : Apart back) :
    marked (front ++ back) = front ++ marked back := by
  induction front with
  | nil => rfl
  | cons c front ih =>
    obtain ⟨hstands, hfront⟩ := untagged_cons.1 h
    rw [List.cons_append, marked_of_stands ((sameFront_append hback front).stands hstands),
      ih hfront, List.cons_append]

/-! ## Proper texts -/

namespace Proper

/-- A text to which no tag belongs. -/
theorem plain (htag : '<' ∉ cs) (hline : '\n' ∉ cs) : Proper cs := by
  refine ⟨?_, hline⟩
  have hword : openAfter? 0 (cs ++ []) = _ := openAfter?_word (fun c hc heq => htag (heq ▸ hc)) 0 []
  rwa [List.append_nil] at hword

theorem append (hfront : Proper front) (hback : Proper back) (hapart : Apart back) :
    Proper (front ++ back) := by
  refine ⟨?_, fun hmem => (List.mem_append.1 hmem).elim hfront.line hback.line⟩
  rw [openAfter?_append hapart, hfront.nested, Option.bind_some, hback.nested]

/-- Text to which no tag belongs stands before a proper text. -/
theorem after {word : List Char} (htag : '<' ∉ word) (hline : '\n' ∉ word) (h : Proper cs) :
    Proper (word ++ cs) := by
  refine ⟨?_, fun hmem => (List.mem_append.1 hmem).elim hline h.line⟩
  rw [openAfter?_word fun c hc heq => htag (heq ▸ hc), h.nested]

/-- Two proper texts with something between them to which no tag belongs. -/
theorem join {word : List Char} (hfront : Proper front) (hback : Proper back) (htag : '<' ∉ word)
    (hline : '\n' ∉ word) (hapart : Apart (word ++ back)) : Proper (front ++ (word ++ back)) :=
  hfront.append (hback.after htag hline) hapart

/-- A proper text that is struck through as a whole. -/
theorem struck (h : Proper cs) : Proper (openTag ++ (cs ++ closeTag)) := by
  refine ⟨?_, ?_⟩
  · have hopen : openAfter? 1 cs = some 1 := openAfter?_add h.nested 1
    have hapart : Apart closeTag := apart_cons (by decide) _
    rw [openAfter?_openTag, openAfter?_append hapart, hopen, Option.bind_some]
    rfl
  · have hopen : '\n' ∉ openTag := by decide
    have hclose : '\n' ∉ closeTag := by decide
    simp [hopen, hclose, h.line]

end Proper

/-! ## One pass -/

/-- What is inside a pair has no tags. -/
theorem inside?_eq_some (h : inside? cs = some (content, rest)) :
    cs = content ++ (closeTag ++ rest) ∧ Untagged content := by
  induction cs generalizing content with
  | nil => cases h
  | cons c cs ih =>
    rw [inside?] at h
    split at h
    · next hclose =>
      cases h
      obtain ⟨after, hafter⟩ := List.isPrefixOf_iff_prefix.1 hclose
      rw [← hafter, List.drop_left, List.nil_append]
      exact ⟨rfl, untagged_nil⟩
    · next hclose =>
      split at h
      · cases h
      · next hopen =>
        obtain ⟨⟨before, after⟩, hfound, heq⟩ := Option.map_eq_some_iff.1 h
        cases heq
        obtain ⟨rfl, huntagged⟩ := ih hfound
        rw [Bool.or_eq_true, not_or] at hopen
        have hstands : Stands c (before ++ (closeTag ++ after)) :=
          ⟨Bool.eq_false_iff.2 hopen.2, Bool.eq_false_iff.2 hclose⟩
        have hapart : Apart (closeTag ++ after) := apart_cons (by decide) _
        exact ⟨rfl, untagged_cons.2 ⟨(sameFront_append hapart before).symm.stands hstands, huntagged⟩⟩

theorem pair?_eq_some (h : pair? cs = some (content, rest)) :
    cs = openTag ++ (content ++ (closeTag ++ rest)) ∧ Untagged content := by
  rw [pair?] at h
  split at h
  · next hopen =>
    obtain ⟨after, rfl⟩ := List.isPrefixOf_iff_prefix.1 hopen
    rw [List.drop_left] at h
    obtain ⟨rfl, huntagged⟩ := inside?_eq_some h
    exact ⟨rfl, huntagged⟩
  · cases h

theorem pass_of_pair (h : pair? cs = some (content, rest)) :
    pass cs = mark ++ (content ++ (mark ++ pass rest)) := by
  obtain ⟨hcs, -⟩ := pair?_eq_some h
  cases cs with
  | nil => cases h
  | cons c tail =>
    rw [pass]
    split
    · next content' rest' hpair =>
      cases h.symm.trans hpair
      simp only [List.append_assoc]
    · next hpair => cases h.symm.trans hpair

theorem pass_of_none (h : pair? (c :: cs) = none) : pass (c :: cs) = c :: pass cs := by
  rw [pass]
  split
  · next hpair => cases h.symm.trans hpair
  · rfl

theorem pair?_of_ne (hc : c ≠ '<') (cs : List Char) : pair? (c :: cs) = none := by
  rw [pair?, (stands_of_ne hc cs).opening]
  rfl

theorem pass_word {word : List Char} (hword : ∀ c ∈ word, c ≠ '<') (cs : List Char) :
    pass (word ++ cs) = word ++ pass cs := by
  induction word with
  | nil => rfl
  | cons c word ih =>
    obtain ⟨hc, hword⟩ := List.forall_mem_cons.1 hword
    rw [List.cons_append, pass_of_none (pair?_of_ne hc _), ih hword, List.cons_append]

theorem apart_mark (cs : List Char) : Apart (mark ++ cs) :=
  apart_cons (by decide) _

/-- A pass leaves the rests of tags as they are. -/
theorem sameFront_pass (cs : List Char) : SameFront (pass cs) cs := by
  refine sameFront_rewritten (by rw [pass]) (fun c cs hc => pass_of_none (pair?_of_ne hc cs)) ?_ cs
  intro cs
  cases hpair : pair? ('<' :: cs) with
  | none =>
    rw [pass_of_none hpair]
    exact apart_cons (by decide) _
  | some found =>
    rw [pass_of_pair hpair]
    exact apart_mark _

theorem sameFront_marked (cs : List Char) : SameFront (marked cs) cs := by
  refine sameFront_rewritten (by rw [marked]) (fun c cs hc => marked_of_stands (stands_of_ne hc cs)) ?_ cs
  intro cs
  rw [marked]
  split
  · exact apart_mark _
  · split
    · exact apart_mark _
    · exact apart_cons (by decide) _

/-- Texts are read pair by pair, and character by character between them. -/
@[elab_as_elim]
theorem pairInduction {P : List Char → Prop} (nil : P [])
    (pair : ∀ content rest, Untagged content →
      pair? (openTag ++ (content ++ (closeTag ++ rest))) = some (content, rest) → P rest →
        P (openTag ++ (content ++ (closeTag ++ rest))))
    (other : ∀ c rest, pair? (c :: rest) = none → P rest → P (c :: rest)) (cs : List Char) : P cs := by
  fun_induction pass cs with
  | case1 => exact nil
  | case2 c tail content rest hpair _ ih =>
    obtain ⟨hcs, huntagged⟩ := pair?_eq_some hpair
    rw [hcs] at hpair ⊢
    exact pair content rest huntagged hpair ih
  | case3 c tail hpair ih => exact other c tail hpair ih

/-- A pass does not change which pairs are open after the text. -/
theorem openAfter?_pass (depth : Nat) (cs : List Char) : openAfter? depth (pass cs) = openAfter? depth cs := by
  induction cs using pairInduction generalizing depth with
  | nil => rw [pass]
  | pair content rest huntagged hpair ih =>
    have hapart : Apart (closeTag ++ rest) := apart_cons (by decide) _
    have hmark : ∀ cs, openAfter? depth (mark ++ cs) = openAfter? depth cs :=
      openAfter?_word mark_ne depth
    rw [pass_of_pair hpair, hmark, openAfter?_untagged huntagged (apart_mark _), hmark, ih,
      openAfter?_openTag, openAfter?_untagged huntagged hapart, openAfter?_closeTag]
  | other c rest hpair ih =>
    have hfront := sameFront_pass rest
    rw [pass_of_none hpair, openAfter?, openAfter?, hfront.openTag_eq, hfront.closeTag_eq]
    simp only [ih]

/-- A tag without a partner stays, and what comes after it is passed over. -/
theorem marked_pass_of_tag {word after : List Char} (hword : ∀ c ∈ word, c ≠ '<')
    (htag : ∀ cs, marked ('<' :: (word ++ cs)) = mark ++ marked cs)
    (ih : marked (pass (word ++ after)) = marked (word ++ after)) :
    marked ('<' :: pass (word ++ after)) = marked ('<' :: (word ++ after)) := by
  rw [pass_word hword, marked_word hword, marked_word hword, List.append_cancel_left_eq] at ih
  rw [pass_word hword, htag, htag, ih]

/-- Nor does it change what the text is once all of its tags are replaced. -/
theorem marked_pass (cs : List Char) : marked (pass cs) = marked cs := by
  induction cs using pairInduction with
  | nil => rw [pass]
  | pair content rest huntagged hpair ih =>
    have hapart : Apart (closeTag ++ rest) := apart_cons (by decide) _
    have hmark : ∀ cs, marked (mark ++ cs) = mark ++ marked cs := marked_word mark_ne
    rw [pass_of_pair hpair, hmark, marked_untagged huntagged (apart_mark _), hmark, ih,
      marked_openTag, marked_untagged huntagged hapart, marked_closeTag]
  | other c rest hpair ih =>
    rw [pass_of_none hpair]
    -- The text may begin with a tag all the same, one without a partner.
    by_cases hopen : openTag.isPrefixOf (c :: rest) = true
    · obtain ⟨after, hafter⟩ := List.isPrefixOf_iff_prefix.1 hopen
      obtain ⟨rfl, rfl⟩ : '<' = c ∧ ['d', 'e', 'l', '>'] ++ after = rest := List.cons.inj hafter
      exact marked_pass_of_tag openWord_ne marked_openTag ih
    by_cases hclose : closeTag.isPrefixOf (c :: rest) = true
    · obtain ⟨after, hafter⟩ := List.isPrefixOf_iff_prefix.1 hclose
      obtain ⟨rfl, rfl⟩ : '<' = c ∧ ['/', 'd', 'e', 'l', '>'] ++ after = rest := List.cons.inj hafter
      exact marked_pass_of_tag closeWord_ne marked_closeTag ih
    · have hstands : Stands c rest := ⟨Bool.eq_false_iff.2 hopen, Bool.eq_false_iff.2 hclose⟩
      rw [marked_of_stands ((sameFront_pass rest).stands hstands), marked_of_stands hstands, ih]

theorem mem_of_mem_pass {x : Char} (hx : x ∉ mark) (h : x ∈ pass cs) : x ∈ cs := by
  induction cs using pairInduction with
  | nil => rwa [pass] at h
  | pair content rest _ hpair ih =>
    rw [pass_of_pair hpair] at h
    simp only [List.mem_append, hx, false_or] at h ⊢
    rcases h with h | h
    · exact .inr (.inl h)
    · exact .inr (.inr (.inr (ih h)))
  | other c rest hpair ih =>
    rw [pass_of_none hpair] at h
    rcases List.mem_cons.1 h with rfl | h
    · exact List.mem_cons_self ..
    · exact List.mem_cons_of_mem _ (ih h)

theorem Proper.pass (h : Proper cs) : Proper (pass cs) :=
  ⟨(openAfter?_pass 0 cs).trans h.nested, fun hmem => h.line (mem_of_mem_pass (by decide) hmem)⟩

/-! ## All passes -/

/-- Where a pass changes nothing there is no pair. -/
theorem pair?_of_pass (h : pass cs = cs) {suffix : List Char} (hsuffix : suffix <:+ cs) :
    pair? suffix = none := by
  induction cs with
  | nil =>
    rw [List.suffix_nil.1 hsuffix]
    rfl
  | cons c cs ih =>
    cases hpair : pair? (c :: cs) with
    | some found =>
      -- The pair's opening tag begins the text, and the pass would have put a mark there.
      obtain ⟨hcs, -⟩ := pair?_eq_some hpair
      rw [pass_of_pair hpair, hcs] at h
      nomatch h
    | none =>
      rw [pass_of_none hpair] at h
      rcases List.suffix_cons_iff.1 hsuffix with rfl | hsuffix
      · exact hpair
      · exact ih (List.cons.inj h).2 hsuffix

/-- If a pair that must be closed on its line is not, another one is opened before. -/
theorem exists_opening {depth : Nat} (hinside : inside? cs = none) (hline : '\n' ∉ cs)
    (hnested : openAfter? (depth + 1) cs = some 0) :
    ∃ depth' after, openTag ++ after <:+ cs ∧ openAfter? depth' (openTag ++ after) = some 0 := by
  induction cs using tagInduction with
  | nil => cases hnested
  | opening rest => exact ⟨_, rest, List.suffix_refl _, hnested⟩
  | closing rest =>
    rw [show inside? (closeTag ++ rest) = some ([], (closeTag ++ rest).drop closeTag.length) from rfl]
      at hinside
    cases hinside
  | other c rest hstands ih =>
    obtain ⟨hc, hline⟩ := List.ne_and_not_mem_of_not_mem_cons hline
    rw [openAfter?_of_stands hstands] at hnested
    rw [inside?, hstands.closing, hstands.opening, Bool.or_false, if_neg Bool.false_ne_true,
      if_neg (by simpa using Ne.symm hc), Option.map_eq_none_iff] at hinside
    obtain ⟨depth', after, hsuffix, hopen⟩ := ih hinside hline hnested
    exact ⟨depth', after, hsuffix.trans (List.suffix_cons ..), hopen⟩

/-- Where a pass changes nothing, no pair is opened that is closed again on its line. -/
theorem not_opening_of_pass (h : pass cs = cs) (hline : '\n' ∉ cs) {depth : Nat} {after : List Char}
    (hsuffix : openTag ++ after <:+ cs) : openAfter? depth (openTag ++ after) ≠ some 0 := by
  induction hn : after.length using Nat.strong_induction_on generalizing depth after with
  | _ n ih =>
    intro hnested
    have hpair := pair?_of_pass h hsuffix
    rw [pair?, if_pos (List.isPrefixOf_iff_prefix.2 (List.prefix_append ..)), List.drop_left] at hpair
    rw [openAfter?_openTag] at hnested
    have hafter : after <:+ cs := (List.suffix_append ..).trans hsuffix
    obtain ⟨depth', later, hlater, hopen⟩ :=
      exists_opening hpair (fun hmem => hline (hafter.subset hmem)) hnested
    refine ih later.length ?_ (hlater.trans hafter) rfl hopen
    have hle := hlater.length_le
    rw [List.length_append] at hle
    have : 0 < openTag.length := by decide
    omega

/-- Where a pass changes nothing about a proper text, all tags are replaced. -/
theorem untagged_of_pass (h : pass cs = cs) (hproper : Proper cs) : Untagged cs := by
  have hall : ∀ suffix, suffix <:+ cs → openAfter? 0 suffix = some 0 → Untagged suffix := by
    intro suffix hsuffix hnested
    induction suffix using tagInduction with
    | nil => exact untagged_nil
    | opening rest => exact absurd hnested (not_opening_of_pass h hproper.line hsuffix)
    | closing rest => cases hnested
    | other c rest hstands ih =>
      rw [openAfter?_of_stands hstands] at hnested
      exact untagged_cons.2 ⟨hstands, ih ((List.suffix_cons ..).trans hsuffix) hnested⟩
  exact hall cs (List.suffix_refl _) hproper.nested

theorem replaceAll_eq_marked (h : Proper cs) : replaceAll cs = marked cs := by
  fun_induction replaceAll cs with
  | case1 cs hpass =>
    have hmarked := marked_untagged (untagged_of_pass hpass h) apart_nil
    rw [List.append_nil, marked, List.append_nil] at hmarked
    exact hmarked.symm
  | case2 cs _ _ ih => rw [ih h.pass, marked_pass]

/-- The passes come to an end, and one more changes nothing. -/
theorem exists_passes (cs : List Char) :
    ∃ passes, pass^[passes] cs = replaceAll cs ∧ pass (replaceAll cs) = replaceAll cs := by
  fun_induction replaceAll cs with
  | case1 cs hpass => exact ⟨0, rfl, hpass⟩
  | case2 cs _ _ ih =>
    obtain ⟨passes, hpasses, hlast⟩ := ih
    exact ⟨passes + 1, hpasses, hlast⟩

theorem untagged_marked (cs : List Char) : Untagged (marked cs) := by
  have hmark : ∀ {cs}, Untagged cs → Untagged (mark ++ cs) := fun h =>
    untagged_cons.2 ⟨stands_of_ne (by decide) _, untagged_cons.2 ⟨stands_of_ne (by decide) _, h⟩⟩
  induction cs using tagInduction with
  | nil =>
    rw [marked]
    exact untagged_nil
  | opening rest ih =>
    rw [marked_openTag]
    exact hmark ih
  | closing rest ih =>
    rw [marked_closeTag]
    exact hmark ih
  | other c rest hstands ih =>
    rw [marked_of_stands hstands]
    exact untagged_cons.2 ⟨(sameFront_marked rest).stands hstands, ih⟩

end RollTray.Text.Strike
