import Mathlib.Data.List.Perm.Basic
import Mathlib.Order.Lattice
import RollTray.Order

/-!
# Sorting

A sorted list has the items of the list that was sorted (`sortBy_perm`), and there is one if every
two items can be compared (`exists_sortBy_eq`). If the items are compared by a rank that each has,
they are in ascending order (`sortBy_ascending`). No item is compared with itself.
-/

namespace RollTray.Order

variable {α : Type} {before : α → α → Except Fault Bool}

/-! ## The same items -/

theorem splitRun_eq {falling : Bool} {x : α} {items run rest : List α}
    (h : splitRun before falling x items = .ok (run, rest)) : run ++ rest = items := by
  induction items generalizing x run with
  | nil =>
    cases h
    rfl
  | cons y ys ih =>
    obtain ⟨b, _, h⟩ := bind_eq_ok.1 h
    dsimp only at h
    split at h
    · obtain ⟨⟨run', rest'⟩, hsplit, h⟩ := bind_eq_ok.1 h
      cases h
      exact congrArg (y :: ·) (ih hsplit)
    · cases h
      rfl

theorem placeOf_le {x : α} {sorted : Array α} {low high place : Nat} (hle : low ≤ high)
    (h : placeOf before x sorted low high = .ok place) : low ≤ place ∧ place ≤ high := by
  fun_induction placeOf before x sorted low high with
  | case1 =>
    cases h
    omega
  | case2 => nomatch h
  | case3 =>
    rename_i ih
    have := ih (by omega) h
    omega
  | case4 =>
    rename_i ih
    have := ih (by omega) h
    omega
  | case5 =>
    cases h
    omega

theorem insertBy_perm {sorted sorted' : Array α} {x : α}
    (h : insertBy before sorted x = .ok sorted') : sorted'.toList.Perm (x :: sorted.toList) := by
  obtain ⟨place, hplace, h⟩ := bind_eq_ok.1 h
  cases h
  obtain ⟨items⟩ := sorted
  rw [List.insertIdxIfInBounds_toArray]
  exact List.perm_insertIdx x items (placeOf_le (Nat.zero_le _) hplace).2

theorem foldlM_insertBy_perm {items : List α} {sorted sorted' : Array α}
    (h : items.foldlM (insertBy before) sorted = .ok sorted') :
    sorted'.toList.Perm (sorted.toList ++ items) := by
  induction items generalizing sorted with
  | nil =>
    cases h
    rw [List.append_nil]
  | cons x items ih =>
    rw [List.foldlM_cons] at h
    obtain ⟨sorted'', hinsert, h⟩ := bind_eq_ok.1 h
    refine (ih h).trans ?_
    refine ((insertBy_perm hinsert).append_right items).trans ?_
    exact List.perm_middle.symm

/-- Sorting keeps the items. -/
theorem sortBy_perm {items sorted : List α} (h : sortBy before items = .ok sorted) :
    sorted.Perm items := by
  rcases items with _ | ⟨x, _ | ⟨y, ys⟩⟩
  · cases h
    exact List.Perm.refl _
  · cases h
    exact List.Perm.refl _
  · obtain ⟨falling, _, h⟩ := bind_eq_ok.1 h
    obtain ⟨⟨run, rest⟩, hsplit, h⟩ := bind_eq_ok.1 h
    obtain ⟨sorted', hfold, h⟩ := bind_eq_ok.1 h
    cases h
    refine (foldlM_insertBy_perm hfold).trans ?_
    have hrun : (if falling then (x :: run).reverse else x :: run).Perm (x :: run) := by
      split
      · exact List.reverse_perm _
      · exact List.Perm.refl _
    refine (hrun.append_right rest).trans ?_
    rw [List.cons_append, splitRun_eq hsplit]

/-! ## If all items can be compared -/

/-- Two items can be compared, in either order. -/
def Comparable (before : α → α → Except Fault Bool) (a b : α) : Prop :=
  (∃ c, before a b = .ok c) ∧ ∃ c, before b a = .ok c

theorem Comparable.symm {a b : α} (h : Comparable before a b) : Comparable before b a :=
  And.symm h

theorem exists_splitRun_eq (falling : Bool) {x : α} {items : List α}
    (h : (x :: items).Pairwise (Comparable before)) :
    ∃ run rest, splitRun before falling x items = .ok (run, rest) := by
  induction items generalizing x with
  | nil => exact ⟨_, _, rfl⟩
  | cons y ys ih =>
    obtain ⟨hfirst, hrest⟩ := List.pairwise_cons.1 h
    obtain ⟨_, b, hb⟩ := hfirst y (List.mem_cons_self ..)
    obtain ⟨run, rest, hsplit⟩ := ih hrest
    rw [splitRun, hb]
    simp only [bind, Except.bind, hsplit]
    split
    · exact ⟨_, _, rfl⟩
    · exact ⟨_, _, rfl⟩

theorem exists_placeOf_eq {x : α} {sorted : Array α} (low high : Nat)
    (h : ∀ y ∈ sorted, ∃ b, before x y = .ok b) :
    ∃ place, placeOf before x sorted low high = .ok place := by
  fun_induction placeOf before x sorted low high with
  | case1 => exact ⟨_, rfl⟩
  | case2 low high hlt y hy fault hbefore =>
    obtain ⟨b, hb⟩ := h y (Array.mem_of_getElem? hy)
    cases hbefore.symm.trans hb
  | case3 low high hlt y hy hbefore ih => exact ih
  | case4 low high hlt y hy hbefore ih => exact ih
  | case5 => exact ⟨_, rfl⟩

theorem exists_foldlM_insertBy_eq {items : List α} (sorted : Array α)
    (h : (sorted.toList ++ items).Pairwise (Comparable before)) :
    ∃ sorted', items.foldlM (insertBy before) sorted = .ok sorted' := by
  induction items generalizing sorted with
  | nil => exact ⟨_, rfl⟩
  | cons x items ih =>
    obtain ⟨place, hplace⟩ := exists_placeOf_eq 0 sorted.size fun y hy =>
      ((List.pairwise_append.1 h).2.2 y (Array.mem_toList_iff.2 hy) x (List.mem_cons_self ..)).2
    have hinsert : insertBy before sorted x = .ok (sorted.insertIdxIfInBounds place x) := by
      rw [insertBy, hplace]
      rfl
    rw [List.foldlM_cons, hinsert]
    have hperm := ((insertBy_perm hinsert).append_right items).trans List.perm_middle.symm
    exact ih _ ((hperm.pairwise_iff Comparable.symm).2 h)

/-- Items can be sorted if every two of them can be compared. -/
theorem exists_sortBy_eq {items : List α} (h : items.Pairwise (Comparable before)) :
    ∃ sorted, sortBy before items = .ok sorted := by
  rcases items with _ | ⟨x, _ | ⟨y, ys⟩⟩
  · exact ⟨_, rfl⟩
  · exact ⟨_, rfl⟩
  · obtain ⟨_, falling, hfalling⟩ := (List.pairwise_cons.1 h).1 y (List.mem_cons_self ..)
    obtain ⟨run, rest, hsplit⟩ := exists_splitRun_eq falling h
    have hitems : (x :: run) ++ rest = x :: y :: ys := congrArg (x :: ·) (splitRun_eq hsplit)
    have hperm : ((if falling then (x :: run).reverse else x :: run) ++ rest).Perm
        (x :: y :: ys) := by
      rw [← hitems]
      refine List.Perm.append_right rest ?_
      split
      · exact List.reverse_perm _
      · exact List.Perm.refl _
    obtain ⟨sorted, hfold⟩ := exists_foldlM_insertBy_eq
      (if falling then (x :: run).reverse else x :: run).toArray
      ((hperm.pairwise_iff Comparable.symm).2 h)
    refine ⟨sorted.toList, ?_⟩
    rw [sortBy, hfalling]
    simp only [bind, Except.bind, hsplit, hfold]
    rfl

/-! ## In ascending order -/

variable {β : Type} [LinearOrder β] {rank : α → β}

/-- Two items are compared by their ranks, in either order. -/
def Ranked (before : α → α → Except Fault Bool) (rank : α → β) (a b : α) : Prop :=
  before a b = .ok (decide (rank a < rank b)) ∧ before b a = .ok (decide (rank b < rank a))

theorem Ranked.symm {a b : α} (h : Ranked before rank a b) : Ranked before rank b a :=
  And.symm h

theorem Ranked.comparable {a b : α} (h : Ranked before rank a b) : Comparable before a b :=
  ⟨⟨_, h.1⟩, _, h.2⟩

theorem splitRun_ordered {falling : Bool} {x : α} {items run rest : List α}
    (hrank : (x :: items).Pairwise (Ranked before rank))
    (h : splitRun before falling x items = .ok (run, rest)) :
    (x :: run).Pairwise fun a b => if falling then rank b < rank a else rank a ≤ rank b := by
  induction items generalizing x run with
  | nil =>
    cases h
    exact List.pairwise_singleton ..
  | cons y ys ih =>
    obtain ⟨b, hb, h⟩ := bind_eq_ok.1 h
    obtain ⟨hfirst, hrest⟩ := List.pairwise_cons.1 hrank
    rw [(hfirst y (List.mem_cons_self ..)).2] at hb
    cases hb
    dsimp only at h
    split at h
    · rename_i hfalling
      obtain ⟨⟨run', rest'⟩, hsplit, h⟩ := bind_eq_ok.1 h
      cases h
      have hrun := ih hrest hsplit
      refine List.pairwise_cons.2 ⟨fun z hz => ?_, hrun⟩
      have hyz := List.pairwise_cons.1 hrun
      cases falling with
      | false =>
        have hxy : rank x ≤ rank y := by simpa using hfalling
        rcases List.mem_cons.1 hz with rfl | hz
        · exact hxy
        · exact le_trans hxy (hyz.1 z hz)
      | true =>
        have hxy : rank y < rank x := by simpa using hfalling
        rcases List.mem_cons.1 hz with rfl | hz
        · exact hxy
        · exact lt_trans (hyz.1 z hz) hxy
    · cases h
      exact List.pairwise_singleton ..

theorem drop_of_getElem? {items : List α} {place : Nat} {y : α} (h : items[place]? = some y) :
    items.drop place = y :: items.drop (place + 1) := by
  obtain ⟨hlt, rfl⟩ := List.getElem?_eq_some_iff.1 h
  exact List.drop_eq_getElem_cons hlt

theorem take_of_getElem? {items : List α} {place : Nat} {y : α} (h : items[place]? = some y) :
    items.take (place + 1) = items.take place ++ [y] := by
  rw [List.take_add_one, h, Option.toList_some]

/-- The place for an item: what stands before it does not come after the item, and what stands from
it on does. -/
theorem placeOf_spec {x : α} {items : List α} {low high place : Nat}
    (hrank : ∀ y ∈ items, before x y = .ok (decide (rank x < rank y)))
    (hsorted : items.Pairwise fun a b => rank a ≤ rank b) (hle : low ≤ high)
    (hhigh : high ≤ items.length) (hbelow : ∀ y ∈ items.take low, rank y ≤ rank x)
    (habove : ∀ y ∈ items.drop high, rank x < rank y)
    (h : placeOf before x items.toArray low high = .ok place) :
    (∀ y ∈ items.take place, rank y ≤ rank x) ∧ ∀ y ∈ items.drop place, rank x < rank y := by
  fun_induction placeOf before x items.toArray low high with
  | case1 low high hlt hnone =>
    rw [List.getElem?_toArray, List.getElem?_eq_none_iff] at hnone
    omega
  | case2 => nomatch h
  | case3 low high hlt y hy hbefore ih =>
    rw [List.getElem?_toArray] at hy
    rw [hrank y (List.mem_of_getElem? hy)] at hbefore
    have hxy : rank x < rank y := by simpa using hbefore
    refine ih (by omega) (by omega) hbelow (fun z hz => ?_) h
    have hdrop := hsorted.sublist (List.drop_sublist ((low + high) / 2) items)
    rw [drop_of_getElem? hy] at hz hdrop
    rcases List.mem_cons.1 hz with rfl | hz
    · exact hxy
    · exact lt_of_lt_of_le hxy ((List.pairwise_cons.1 hdrop).1 z hz)
  | case4 low high hlt y hy hbefore ih =>
    rw [List.getElem?_toArray] at hy
    rw [hrank y (List.mem_of_getElem? hy)] at hbefore
    have hxy : rank y ≤ rank x := by simpa using hbefore
    refine ih (by omega) (by omega) (fun z hz => ?_) habove h
    have htake := hsorted.sublist (List.take_sublist ((low + high) / 2 + 1) items)
    rw [take_of_getElem? hy] at hz htake
    rcases List.mem_append.1 hz with hz | hz
    · exact le_trans ((List.pairwise_append.1 htake).2.2 z hz y (by simp)) hxy
    · rw [List.mem_singleton.1 hz]
      exact hxy
  | case5 low high hlt =>
    obtain rfl : low = high := by omega
    cases h
    exact ⟨hbelow, habove⟩

theorem insertIdx_eq {items : List α} {place : Nat} (x : α) (h : place ≤ items.length) :
    items.insertIdx place x = items.take place ++ x :: items.drop place := by
  induction items generalizing place with
  | nil =>
    obtain rfl : place = 0 := by simpa using h
    rfl
  | cons y ys ih =>
    cases place with
    | zero => rfl
    | succ place => exact congrArg (y :: ·) (ih (by simpa using h))

theorem insertBy_ascending {sorted sorted' : Array α} {x : α}
    (hrank : ∀ y ∈ sorted.toList, before x y = .ok (decide (rank x < rank y)))
    (hsorted : sorted.toList.Pairwise fun a b => rank a ≤ rank b)
    (h : insertBy before sorted x = .ok sorted') :
    sorted'.toList.Pairwise fun a b => rank a ≤ rank b := by
  obtain ⟨place, hplace, h⟩ := bind_eq_ok.1 h
  cases h
  obtain ⟨items⟩ := sorted
  have hle := (placeOf_le (Nat.zero_le _) hplace).2
  obtain ⟨hbelow, habove⟩ := placeOf_spec hrank hsorted (Nat.zero_le _) (Nat.le_refl _)
    (fun y hy => nomatch hy) (fun y hy => by simp at hy) hplace
  rw [List.insertIdxIfInBounds_toArray, insertIdx_eq x hle]
  refine List.pairwise_append.2 ⟨hsorted.sublist (List.take_sublist ..), ?_, ?_⟩
  · refine List.pairwise_cons.2 ⟨fun y hy => le_of_lt (habove y hy), ?_⟩
    exact hsorted.sublist (List.drop_sublist ..)
  · intro y hy z hz
    rcases List.mem_cons.1 hz with rfl | hz
    · exact hbelow y hy
    · exact le_trans (hbelow y hy) (le_of_lt (habove z hz))

theorem foldlM_insertBy_ascending {items : List α} {sorted sorted' : Array α}
    (hrank : (sorted.toList ++ items).Pairwise (Ranked before rank))
    (hsorted : sorted.toList.Pairwise fun a b => rank a ≤ rank b)
    (h : items.foldlM (insertBy before) sorted = .ok sorted') :
    sorted'.toList.Pairwise fun a b => rank a ≤ rank b := by
  induction items generalizing sorted with
  | nil =>
    cases h
    exact hsorted
  | cons x items ih =>
    rw [List.foldlM_cons] at h
    obtain ⟨sorted'', hinsert, h⟩ := bind_eq_ok.1 h
    have hstep := insertBy_ascending (fun y hy =>
      ((List.pairwise_append.1 hrank).2.2 y hy x (List.mem_cons_self ..)).2) hsorted hinsert
    have hperm := ((insertBy_perm hinsert).append_right items).trans List.perm_middle.symm
    exact ih ((hperm.pairwise_iff Ranked.symm).2 hrank) hstep h

/-- Sorting puts items in ascending order that are compared by a rank. -/
theorem sortBy_ascending (rank : α → β) {items sorted : List α}
    (hrank : items.Pairwise (Ranked before rank))
    (h : sortBy before items = .ok sorted) : sorted.Pairwise fun a b => rank a ≤ rank b := by
  rcases items with _ | ⟨x, _ | ⟨y, ys⟩⟩
  · cases h
    exact .nil
  · cases h
    exact List.pairwise_singleton ..
  · obtain ⟨falling, _, h⟩ := bind_eq_ok.1 h
    obtain ⟨⟨run, rest⟩, hsplit, h⟩ := bind_eq_ok.1 h
    obtain ⟨sorted', hfold, h⟩ := bind_eq_ok.1 h
    cases h
    have hitems : (x :: run) ++ rest = x :: y :: ys := congrArg (x :: ·) (splitRun_eq hsplit)
    have hordered := splitRun_ordered hrank hsplit
    refine foldlM_insertBy_ascending ?_ ?_ hfold
    · rw [← hitems] at hrank
      refine (List.Perm.pairwise_iff Ranked.symm (List.Perm.append_right rest ?_)).2 hrank
      split
      · exact List.reverse_perm _
      · exact List.Perm.refl _
    · cases falling with
      | false => simpa using hordered
      | true =>
        rw [if_pos rfl]
        exact (List.pairwise_reverse.2 hordered).imp fun hlt => le_of_lt (by simpa using hlt)

end RollTray.Order
