import RollTray.Heap
import RollTray.Proofs.Sorting

/-!
# Heaps in order

A heap is in order if no item ranks below its parent (`Ordered`); then no item ranks below the first one
(`Ordered.first_le`). If items are compared by a rank that each has, heaps stay in order when items are
added to them (`ordered_push`) and when the first one is taken away (`ordered_pop`). Meanwhile one item is
out of its place. What is in order then is said by `LightAt`, as long as it rises, and by `LooseAt` while
it sinks.
-/

namespace RollTray.Heap

variable {α β : Type} [LinearOrder β] {before : α → α → Except Fault Bool} {rank : α → β}
  {heap heap' : Array α} {place : Nat}

/-- One place is the parent of another one. -/
def IsChild (child place : Nat) : Prop :=
  0 < child ∧ (child - 1) / 2 = place

/-- Of the items at two places, the second one does not rank below the first one. -/
def Above (rank : α → β) (heap : Array α) (i j : Nat) : Prop :=
  ∀ x y, heap[i]? = some x → heap[j]? = some y → rank x ≤ rank y

/-- No item ranks below its parent. -/
def Ordered (rank : α → β) (heap : Array α) : Prop :=
  ∀ child, 0 < child → Above rank heap ((child - 1) / 2) child

/-- All items are in order but the one at a place: it may rank below its parent, or above its children. -/
structure LooseAt (rank : α → β) (heap : Array α) (place : Nat) : Prop where
  rest : ∀ child, 0 < child → child ≠ place → (child - 1) / 2 ≠ place →
    Above rank heap ((child - 1) / 2) child
  across : 0 < place → ∀ child, IsChild child place → Above rank heap ((place - 1) / 2) child

/-- All items are in order but the one at a place, which may rank below its parent. -/
structure LightAt (rank : α → β) (heap : Array α) (place : Nat) : Prop extends LooseAt rank heap place where
  below : ∀ child, IsChild child place → Above rank heap place child

theorem Above.congr {i j i' j' : Nat} (h : Above rank heap i j) (hi : heap'[i']? = heap[i]?)
    (hj : heap'[j']? = heap[j]?) : Above rank heap' i' j' :=
  fun x y hx hy => h x y (hi ▸ hx) (hj ▸ hy)

theorem Above.trans {i j k : Nat} (hij : Above rank heap i j) (hjk : Above rank heap j k)
    (hj : j < heap.size) : Above rank heap i k :=
  fun x z hx hz => (hij x _ hx (Array.getElem?_eq_getElem hj)).trans
    (hjk _ z (Array.getElem?_eq_getElem hj) hz)

/-- The first item of a heap in order. -/
theorem Ordered.first_le (h : Ordered rank heap) {x y : α} (hx : heap[0]? = some x) (hy : y ∈ heap) :
    rank x ≤ rank y := by
  obtain ⟨i, hlt, rfl⟩ := Array.mem_iff_getElem.1 hy
  induction i using Nat.strongRecOn with
  | ind i ih =>
    rcases Nat.eq_zero_or_pos i with rfl | hpos
    · rw [Array.getElem?_eq_getElem hlt] at hx
      rw [Option.some.inj hx]
    · have hparent : (i - 1) / 2 < heap.size := by omega
      refine (ih ((i - 1) / 2) (by omega) hparent (Array.getElem_mem hparent)).trans ?_
      exact h i hpos _ _ (Array.getElem?_eq_getElem hparent) (Array.getElem?_eq_getElem hlt)

/-- Of items in ascending order the first one is the first one of the heap. -/
theorem Ordered.exists_cons (h : Ordered rank heap) {x : α} (hx : heap[0]? = some x) {items : List α}
    (hitems : items.Perm heap.toList) (hsorted : items.Pairwise fun a b => rank a < rank b) :
    ∃ rest, items = x :: rest := by
  have hmem : x ∈ items := hitems.mem_iff.2 (Array.mem_toList_iff.2 (Array.mem_of_getElem? hx))
  cases items with
  | nil => cases hmem
  | cons y rest =>
    rcases List.mem_cons.1 hmem with rfl | hrest
    · exact ⟨rest, rfl⟩
    · have hy : y ∈ heap := Array.mem_toList_iff.1 (hitems.mem_iff.1 (List.mem_cons_self ..))
      exact absurd ((List.pairwise_cons.1 hsorted).1 x hrest) (not_lt.2 (h.first_le hx hy))

/-! ## Exchanges -/

section Exchange

variable {i j : Nat} (hi : i < heap.size) (hj : j < heap.size)

include hi hj

omit [LinearOrder β] in
theorem getElem?_exchanged (k : Nat) :
    (heap.swapIfInBounds i j)[k]? = if j = k then heap[i]? else if i = k then heap[j]? else heap[k]? := by
  rw [Array.swapIfInBounds_def, dif_pos hi, dif_pos hj, Array.getElem?_swap,
    Array.getElem?_eq_getElem hi, Array.getElem?_eq_getElem hj]

theorem exchanged_first : (heap.swapIfInBounds i j)[i]? = heap[j]? := by
  rw [getElem?_exchanged hi hj]
  split
  · next h => rw [h]
  · exact if_pos rfl

theorem exchanged_second : (heap.swapIfInBounds i j)[j]? = heap[i]? := by
  rw [getElem?_exchanged hi hj, if_pos rfl]

theorem exchanged_of_ne {k : Nat} (hki : k ≠ i) (hkj : k ≠ j) :
    (heap.swapIfInBounds i j)[k]? = heap[k]? := by
  rw [getElem?_exchanged hi hj, if_neg hkj.symm, if_neg hki.symm]

end Exchange

/-- An item that ranks below its parent is exchanged with it. -/
theorem LightAt.rise (h : LightAt rank heap place) (hpos : 0 < place) (hlt : place < heap.size)
    (hle : Above rank heap place ((place - 1) / 2)) :
    LightAt rank (heap.swapIfInBounds place ((place - 1) / 2)) ((place - 1) / 2) := by
  have hparent : (place - 1) / 2 < heap.size := by omega
  have hfirst := exchanged_first hlt hparent
  have hsecond := exchanged_second hlt hparent
  have hother := @exchanged_of_ne _ _ _ _ hlt hparent
  refine ⟨⟨fun child hchild hne hne' => ?_, fun hpos' child hchild => ?_⟩, fun child hchild => ?_⟩
  · have hplace : child ≠ place := by
      rintro rfl
      exact hne' rfl
    by_cases hunder : (child - 1) / 2 = place
    · rw [hunder]
      exact (h.across hpos child ⟨hchild, hunder⟩).congr hfirst (hother hplace hne)
    · exact (h.rest child hchild hplace hunder).congr (hother hunder hne') (hother hplace hne)
  · have hgrand := h.rest ((place - 1) / 2) hpos' (by omega) (by omega)
    have habove := hother (k := ((place - 1) / 2 - 1) / 2) (by omega) (by omega)
    by_cases hplace : child = place
    · rw [hplace]
      exact hgrand.congr habove hfirst
    · have hsibling := h.rest child hchild.1 hplace (by have := hchild.2; omega)
      rw [hchild.2] at hsibling
      have hne : child ≠ (place - 1) / 2 := by have := hchild.2; omega
      exact (hgrand.trans hsibling hparent).congr habove (hother hplace hne)
  · by_cases hplace : child = place
    · rw [hplace]
      exact hle.congr hsecond hfirst
    · have hsibling := h.rest child hchild.1 hplace (by have := hchild.2; omega)
      rw [hchild.2] at hsibling
      have hne : child ≠ (place - 1) / 2 := by have := hchild.1; have := hchild.2; omega
      exact (hle.trans hsibling hparent).congr hsecond (hother hplace hne)

/-- An item is exchanged with the child of the lowest rank. -/
theorem LooseAt.sink (h : LooseAt rank heap place) {child : Nat} (hchild : IsChild child place)
    (hlt : child < heap.size) (hleast : ∀ other, IsChild other place → Above rank heap child other) :
    LooseAt rank (heap.swapIfInBounds place child) child := by
  obtain ⟨hpos, hunder⟩ := hchild
  have hplace : place < heap.size := by omega
  have hfirst := exchanged_first hplace hlt
  have hother := @exchanged_of_ne _ _ _ _ hplace hlt
  refine ⟨fun other hother' hne hne' => ?_, fun _ other hother' => ?_⟩
  · by_cases heq : other = place
    · rw [heq]
      rw [heq] at hother'
      exact (h.across hother' child ⟨hpos, hunder⟩).congr (hother (by omega) (by omega)) hfirst
    · by_cases hsibling : (other - 1) / 2 = place
      · rw [hsibling]
        exact (hleast other ⟨hother', hsibling⟩).congr hfirst (hother heq hne)
      · exact (h.rest other hother' heq hsibling).congr (hother hsibling hne') (hother heq hne)
  · obtain ⟨hpos', hunder'⟩ := hother'
    have hrest := h.rest other hpos' (by omega) (by omega)
    rw [hunder'] at hrest
    rw [hunder]
    exact hrest.congr hfirst (hother (by omega) (by omega))

/-- An item that does not rank below its parent is in its place. -/
theorem LightAt.ordered (h : LightAt rank heap place)
    (hparent : 0 < place → Above rank heap ((place - 1) / 2) place) : Ordered rank heap := by
  intro child hchild
  by_cases hplace : child = place
  · rw [hplace]
    exact hparent (hplace ▸ hchild)
  · by_cases hunder : (child - 1) / 2 = place
    · rw [hunder]
      exact h.below child ⟨hchild, hunder⟩
    · exact h.rest child hchild hplace hunder

/-- An item at the end of a heap has no children. -/
theorem LooseAt.light (h : LooseAt rank heap place) (hend : heap.size ≤ 2 * place + 1) :
    LightAt rank heap place := by
  refine ⟨h, fun child hchild _ y _ hy => ?_⟩
  obtain ⟨hlt, _⟩ := Array.getElem?_eq_some_iff.1 hy
  obtain ⟨hpos, hunder⟩ := hchild
  omega

/-! ## Items that rise and sink -/

theorem ranked_at (hrank : heap.toList.Pairwise (Order.Ranked before rank)) {i j : Nat} {x y : α}
    (hx : heap[i]? = some x) (hy : heap[j]? = some y) (hne : i ≠ j) : Order.Ranked before rank x y := by
  obtain ⟨hi, rfl⟩ := Array.getElem?_eq_some_iff.1 hx
  obtain ⟨hj, rfl⟩ := Array.getElem?_eq_some_iff.1 hy
  rcases Nat.lt_or_gt_of_ne hne with hij | hij
  · exact List.pairwise_iff_getElem.1 hrank i j hi hj hij
  · exact (List.pairwise_iff_getElem.1 hrank j i hj hi hij).symm

theorem ranked_exchanged (hrank : heap.toList.Pairwise (Order.Ranked before rank)) (i j : Nat) :
    (heap.swapIfInBounds i j).toList.Pairwise (Order.Ranked before rank) :=
  ((swapIfInBounds_perm heap i j).toList.pairwise_iff Order.Ranked.symm).2 hrank

/-- Items at two places, compared. -/
theorem above_of_before (hrank : heap.toList.Pairwise (Order.Ranked before rank)) {i j : Nat} {x y : α}
    (hx : heap[i]? = some x) (hy : heap[j]? = some y) (hne : i ≠ j) {answer : Bool}
    (hbefore : before x y = .ok answer) :
    if answer then Above rank heap i j else Above rank heap j i := by
  rw [(ranked_at hrank hx hy hne).1] at hbefore
  cases hbefore
  by_cases hlt : rank x < rank y
  · rw [if_pos (by simpa using hlt)]
    intro a b ha hb
    cases ha.symm.trans hx
    cases hb.symm.trans hy
    exact hlt.le
  · rw [if_neg (by simpa using hlt)]
    intro b a hb ha
    cases ha.symm.trans hx
    cases hb.symm.trans hy
    exact not_lt.1 hlt

theorem ordered_rise (hrank : heap.toList.Pairwise (Order.Ranked before rank)) (hlt : place < heap.size)
    (h : LightAt rank heap place) : Ordered rank (rise before heap place).2 := by
  fun_induction rise before heap place with
  | case1 heap => exact h.ordered fun hpos => absurd hpos (Nat.lt_irrefl 0)
  | case2 heap place hplace x parent hparent hx fault hbefore =>
    rw [(ranked_at hrank hx hparent (by omega)).1] at hbefore
    cases hbefore
  | case3 heap place hplace x parent hparent hx hbefore =>
    exact h.ordered fun _ => above_of_before hrank hx hparent (by omega) hbefore
  | case4 heap place hplace x parent hparent hx hbefore ih =>
    refine ih (ranked_exchanged hrank ..) (by rw [Array.size_swapIfInBounds]; omega) ?_
    exact h.rise (Nat.pos_of_ne_zero hplace) hlt (above_of_before hrank hx hparent (by omega) hbefore)
  | case5 heap place hplace hnone =>
    exact (hnone _ _ (Array.getElem?_eq_getElem hlt)
      (Array.getElem?_eq_getElem (i := (place - 1) / 2) (by omega))).elim

/-- The preferred child of a place. -/
theorem isChild_preferred (place : Nat) (second : Bool) :
    IsChild (2 * place + if second then 2 else 1) place := by
  cases second with
  | true => exact ⟨Nat.succ_pos _, by simp only [if_true]; omega⟩
  | false => exact ⟨Nat.succ_pos _, by simp⟩

/-- Of the children of a place the one is preferred that has the lowest rank. -/
theorem least_of_prefersSecond (hrank : heap.toList.Pairwise (Order.Ranked before rank))
    {second : Bool} (h : prefersSecond before heap place = .ok second) (hlt : place < heap.size / 2) :
    2 * place + (if second then 2 else 1) < heap.size ∧
      ∀ other, IsChild other place →
        Above rank heap (2 * place + if second then 2 else 1) other := by
  have hself (i : Nat) : Above rank heap i i := by
    intro x y hx hy
    cases hx.symm.trans hy
    exact le_rfl
  have hchildren {other : Nat} (hother : IsChild other place) :
      other = 2 * place + 1 ∨ other = 2 * place + 2 := by
    obtain ⟨hpos, hunder⟩ := hother
    omega
  unfold prefersSecond at h
  split at h
  · next x y hx hy =>
    obtain ⟨answer, hbefore, h⟩ := bind_eq_ok.1 h
    cases h
    have habove := above_of_before hrank hx hy (by omega) hbefore
    obtain ⟨hsize, _⟩ := Array.getElem?_eq_some_iff.1 hy
    cases answer with
    | true =>
      refine ⟨by simp; omega, fun other hother => ?_⟩
      rcases hchildren hother with rfl | rfl
      · exact hself _
      · exact habove
    | false =>
      refine ⟨by simp; omega, fun other hother => ?_⟩
      rcases hchildren hother with rfl | rfl
      · exact habove
      · exact hself _
  · next hnone =>
    cases h
    refine ⟨by simp; omega, fun other hother x y hx hy => ?_⟩
    rcases hchildren hother with rfl | rfl
    · exact hself _ x y hx hy
    · exact (hnone _ _ hx hy).elim

theorem ordered_sink {fuel : Nat} (hrank : heap.toList.Pairwise (Order.Ranked before rank))
    (hlt : place < heap.size) (hfuel : heap.size ≤ place + fuel) (h : LooseAt rank heap place) :
    Ordered rank (sink before fuel heap place).2 := by
  fun_induction sink before fuel heap place with
  | case1 heap place => omega
  | case2 fuel heap place hparent fault hprefers =>
    unfold prefersSecond at hprefers
    split at hprefers
    · next x y hx hy =>
      rw [(ranked_at hrank hx hy (by omega)).1] at hprefers
      cases hprefers
    · cases hprefers
  | case3 fuel heap place hparent second hprefers child ih =>
    obtain ⟨hsize, hleast⟩ := least_of_prefersSecond hrank hprefers hparent
    have hchild := isChild_preferred place second
    have hbelow : place < child := by
      obtain ⟨hpos, hunder⟩ := hchild
      omega
    refine ih (ranked_exchanged hrank ..) ?_ ?_ (h.sink hchild hsize hleast)
    · rw [Array.size_swapIfInBounds]
      exact hsize
    · rw [Array.size_swapIfInBounds]
      omega
  | case4 fuel heap place hend => exact ordered_rise hrank hlt (h.light (by omega))

/-! ## Heaps stay in order -/

theorem ordered_empty : Ordered rank (#[] : Array α) :=
  fun _ _ _ _ hx _ => by simp at hx

theorem ordered_push {x : α} (hrank : (heap.push x).toList.Pairwise (Order.Ranked before rank))
    (h : Ordered rank heap) : Ordered rank ((push before x).perform heap).2 := by
  have hold {i : Nat} (hi : i ≠ heap.size) : (heap.push x)[i]? = heap[i]? := by
    rw [Array.getElem?_push, if_neg hi]
  have hloose : LooseAt rank (heap.push x) heap.size := by
    refine ⟨fun child hpos hne hne' => ?_, fun _ child hchild _ y _ hy => ?_⟩
    · exact (h child hpos).congr (hold hne') (hold hne)
    · obtain ⟨hlt, _⟩ := Array.getElem?_eq_some_iff.1 hy
      obtain ⟨hpos, hunder⟩ := hchild
      rw [Array.size_push] at hlt
      omega
  refine ordered_rise hrank (by rw [Array.size_push]; omega) (hloose.light ?_)
  rw [Array.size_push]
  omega

/-- The last item takes the place of the first one. -/
theorem ranked_moved (hrank : heap.toList.Pairwise (Order.Ranked before rank)) {last : α}
    (hlast : heap.back? = some last) (hsize : heap.size ≠ 1) :
    (heap.pop.setIfInBounds 0 last).toList.Pairwise (Order.Ranked before rank) := by
  obtain ⟨items⟩ := heap
  cases items with
  | nil => simp at hlast
  | cons first rest =>
    rcases List.eq_nil_or_concat rest with rfl | ⟨middle, last', rfl⟩
    · exact absurd rfl hsize
    · obtain rfl : last' = last := by simpa [List.getLast?_cons] using hlast
      have hmoved : (first :: middle.concat last').toArray.pop.setIfInBounds 0 last' =
          (last' :: middle).toArray := by simp [List.dropLast_cons_of_ne_nil]
      rw [hmoved]
      rw [List.concat_eq_append] at hrank
      exact (List.perm_append_singleton last' middle).pairwise_iff Order.Ranked.symm |>.1 hrank.tail

theorem ordered_pop (hrank : heap.toList.Pairwise (Order.Ranked before rank)) (h : Ordered rank heap) :
    Ordered rank ((pop before).perform heap).2 := by
  simp only [pop, Attempt.perform_of]
  split
  · next last hlast =>
    split
    · exact ordered_empty
    · next hsize =>
      have hpos : 0 < heap.size := by
        refine Nat.pos_of_ne_zero fun hempty => ?_
        rw [Array.back?, hempty] at hlast
        simp [hempty] at hlast
      have hmoved : (heap.pop.setIfInBounds 0 last).size = heap.size - 1 := by
        rw [Array.size_setIfInBounds, Array.size_pop]
      refine ordered_sink (ranked_moved hrank hlast hsize) (by omega) (by omega) ?_
      refine ⟨fun child hchild _ hne x y hx hy => ?_, fun hroot => absurd hroot (Nat.lt_irrefl 0)⟩
      have hold {i : Nat} {z : α} (hi : i ≠ 0) (hz : (heap.pop.setIfInBounds 0 last)[i]? = some z) :
          heap[i]? = some z := by
        rw [Array.getElem?_setIfInBounds_ne hi.symm, Array.getElem?_pop] at hz
        split at hz
        · exact hz
        · cases hz
      exact h child hchild x y (hold hne hx) (hold hchild.ne' hy)
  · exact h

end RollTray.Heap
