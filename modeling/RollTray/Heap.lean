import RollTray.Attempt

/-!
# Heaps

Items that wait for their turn. The item at a place has its parent at half that place, and items
change places with their parents so that none comes before its parent; the next item is then the
first. The order may fail, as loosely typed items need not have one. Items that were exchanged
before it failed stay exchanged, so `push`, which adds an item, and `pop`, which takes the first one
away, are attempts on the heap. Exchanges lose no item and add none (`rise_perm`, `sink_perm`), so
`push` leaves the items that there were and the new one (`push_perm`) and `pop` those but the first
one (`pop_perm`), even if they fail.
-/

namespace RollTray.Heap

variable {α : Type}

/-- Exchanges the item at a place with its parent as long as it comes before it. -/
def rise (before : α → α → Except Fault Bool) (heap : Array α) (place : Nat) :
    Except Fault Unit × Array α :=
  if _h : place = 0 then (.ok (), heap)
  else
    match heap[place]?, heap[(place - 1) / 2]? with
    | some x, some parent =>
      match before x parent with
      | .error fault => (.error fault, heap)
      | .ok false => (.ok (), heap)
      | .ok true => rise before (heap.swapIfInBounds place ((place - 1) / 2)) ((place - 1) / 2)
    | _, _ => (.ok (), heap)
termination_by place
decreasing_by omega

/-- Whether the second child of a place is to move up: there are two, and the first one does not
come before it. -/
def prefersSecond (before : α → α → Except Fault Bool) (heap : Array α) (place : Nat) :
    Except Fault Bool :=
  match heap[2 * place + 1]?, heap[2 * place + 2]? with
  | some x, some y => do return !(← before x y)
  | _, _ => .ok false

/-- Exchanges the item at a place with one of its children until it has none, and lets it rise
from there. As many exchanges as the heap has items are enough. -/
def sink (before : α → α → Except Fault Bool) :
    Nat → Array α → Nat → Except Fault Unit × Array α
  | 0, heap, place => rise before heap place
  | fuel + 1, heap, place =>
    if place < heap.size / 2 then
      match prefersSecond before heap place with
      | .error fault => (.error fault, heap)
      | .ok second =>
        let child := 2 * place + if second then 2 else 1
        sink before fuel (heap.swapIfInBounds place child) child
    else rise before heap place

/-- Adds an item. -/
def push (before : α → α → Except Fault Bool) (x : α) : Attempt (Array α) Unit :=
  Attempt.of fun heap => rise before (heap.push x) heap.size

/-- Takes the first item away, if there is one. The last item moves into its place. -/
def pop (before : α → α → Except Fault Bool) : Attempt (Array α) Unit :=
  Attempt.of fun heap =>
    match heap.back? with
    | some last =>
      if heap.size = 1 then (.ok (), #[])
      else sink before heap.size (heap.pop.setIfInBounds 0 last) 0
    | none => (.ok (), heap)

theorem swapIfInBounds_perm (heap : Array α) (i j : Nat) :
    (heap.swapIfInBounds i j).Perm heap := by
  rw [Array.swapIfInBounds_def]
  split
  · split
    · exact Array.swap_perm ..
    · exact Array.Perm.refl _
  · exact Array.Perm.refl _

theorem rise_perm (before : α → α → Except Fault Bool) (heap : Array α) (place : Nat) :
    (rise before heap place).2.Perm heap := by
  fun_induction rise before heap place with
  | case4 _ _ _ _ _ _ _ _ ih => exact ih.trans (swapIfInBounds_perm ..)
  | _ => exact Array.Perm.refl _

theorem sink_perm (before : α → α → Except Fault Bool) (fuel : Nat) (heap : Array α)
    (place : Nat) : (sink before fuel heap place).2.Perm heap := by
  fun_induction sink before fuel heap place with
  | case1 => exact rise_perm ..
  | case2 => exact Array.Perm.refl _
  | case3 _ _ _ _ _ _ _ ih => exact ih.trans (swapIfInBounds_perm ..)
  | case4 => exact rise_perm ..

theorem push_perm (before : α → α → Except Fault Bool) (x : α) (heap : Array α) :
    ((push before x).perform heap).2.Perm (heap.push x) :=
  rise_perm ..

theorem pop_perm (before : α → α → Except Fault Bool) {heap : Array α} {x : α}
    (h : heap[0]? = some x) :
    heap.toList.Perm (x :: ((pop before).perform heap).2.toList) := by
  obtain ⟨items⟩ := heap
  cases items with
  | nil => simp at h
  | cons y rest =>
    obtain rfl : y = x := by simpa using h
    rcases List.eq_nil_or_concat rest with rfl | ⟨middle, last, rfl⟩
    · simp [pop]
    · have hpop : ((pop before).perform (y :: middle.concat last).toArray).2.Perm
          (last :: middle).toArray := by
        have hlast : (y :: middle.concat last).toArray.back? = some last := by
          simp [List.getLast?_cons]
        have hmoved : (y :: middle.concat last).toArray.pop.setIfInBounds 0 last =
            (last :: middle).toArray := by simp [List.dropLast_cons_of_ne_nil]
        simp only [pop, Attempt.perform_of, hlast, hmoved]
        rw [if_neg (by simp)]
        exact sink_perm ..
      refine (List.Perm.cons y ?_).trans (List.Perm.cons y hpop.toList.symm)
      rw [List.concat_eq_append]
      exact List.perm_append_comm

end RollTray.Heap
