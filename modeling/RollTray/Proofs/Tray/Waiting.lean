import Mathlib.Data.Prod.Lex
import RollTray.Proofs.Keys
import RollTray.Proofs.Sorting
import RollTray.Proofs.Tray.Keeping

/-!
# The order of throws

Throws with floats for times and with numbers of their own can always be compared, so one more can always
be added to those that wait (`addThrow_perform`). If their times are numbers, they wait in the order of a
rank (`throwsBefore_ranked`), the time and the order in which they were added. Throws that are added again
in the order in which they waited wait in this order again (`waiting_of_perm`).
-/

namespace RollTray

namespace Value

mutual

/-- Values do not compare if they are not of one kind, or their items are not. -/
theorem fault_of_lt (a b : Value) {fault : Fault} (h : a.lt b = .error fault) : fault = .mistyped := by
  unfold lt at h
  split at h
  · exact fault_of_ltItems _ _ h
  · cases h
  · split at h <;> cases h
    rfl

theorem fault_of_ltItems (xs ys : List Value) {fault : Fault} (h : ltItems xs ys = .error fault) :
    fault = .mistyped := by
  unfold ltItems at h
  split at h
  · cases h
  · cases h
  · split at h
    · exact fault_of_ltItems _ _ h
    · exact fault_of_lt _ _ h

end

end Value

/-- The time of a throw is a number. -/
def Throw.Timed (throw : Throw) : Prop :=
  ∃ n, throw.due.num? = some n ∧ n.isNaN = false

/-- The time of a throw is a float, and a number. -/
def Throw.Timely (throw : Throw) : Prop :=
  ∃ x, throw.due = .float x ∧ (Num.float x).isNaN = false

theorem Throw.Timely.timed {throw : Throw} (h : throw.Timely) : throw.Timed := by
  obtain ⟨x, hdue, hnumber⟩ := h
  exact ⟨.float x, by rw [hdue]; rfl, hnumber⟩

/-- The time of a throw among all numbers. -/
def Throw.time (throw : Throw) : WithBot (WithTop ℚ) :=
  (throw.due.num?.getD (.int 0)).point

namespace Tray

/-- Where a throw stands among those that wait. -/
def rank (item : Nat × Throw) : Lex (WithBot (WithTop ℚ) × Nat) :=
  toLex (item.2.time, item.1)

/-- Throws are due one after the other, or at one time. -/
def InTurn (throws : List Throw) : Prop :=
  throws.Pairwise fun a b => a.time ≤ b.time

/-- Throws with floats for times can be compared. -/
theorem exists_throwsBefore_eq {a b : Nat × Throw} (ha : ∃ x, a.2.due = .float x)
    (hb : ∃ x, b.2.due = .float x) (hne : a.1 ≠ b.1) :
    ∃ before, throwsBefore a b = .ok before := by
  obtain ⟨x, hx⟩ := ha
  obtain ⟨y, hy⟩ := hb
  rw [throwsBefore, hx, hy, Value.lt_of_num rfl rfl, if_pos hne]
  split
  · exact ⟨_, rfl⟩
  · exact ⟨_, rfl⟩

/-- Throws whose times are numbers are compared by their ranks. -/
theorem throwsBefore_timed {a b : Nat × Throw} (ha : a.2.Timed) (hb : b.2.Timed) (hne : a.1 ≠ b.1) :
    throwsBefore a b = .ok (decide (rank a < rank b)) := by
  obtain ⟨m, hm, hmn⟩ := ha
  obtain ⟨n, hn, hnn⟩ := hb
  have hrank : rank a < rank b ↔ m.point < n.point ∨ m.point = n.point ∧ a.1 < b.1 := by
    rw [rank, rank, Throw.time, Throw.time, hm, hn, Prod.Lex.toLex_lt_toLex]
    rfl
  rw [throwsBefore, Value.sameKey_of_num hm hn hmn, Value.lt_of_num hm hn, if_pos hne]
  by_cases hsame : m.point = n.point
  · rw [(Num.same_iff hmn hnn).2 hsame, if_neg (by simp)]
    refine congrArg _ (decide_eq_decide.2 ?_)
    rw [hrank, hsame]
    simp
  · rw [Bool.eq_false_iff.2 (mt (Num.same_iff hmn hnn).1 hsame), if_pos (by simp)]
    refine congrArg _ (Bool.eq_iff_iff.2 ?_)
    rw [decide_eq_true_iff, hrank, Num.lt_iff hmn hnn]
    simp [hsame]

theorem throwsBefore_ranked {a b : Nat × Throw} (ha : a.2.Timed) (hb : b.2.Timed) (hne : a.1 ≠ b.1) :
    Order.Ranked throwsBefore rank a b :=
  ⟨throwsBefore_timed ha hb hne, throwsBefore_timed hb ha hne.symm⟩

/-! ## Adding throws -/

/-- An item finds its place in a heap if every two items can be compared. -/
theorem rise_eq_ok {α : Type} {before : α → α → Except Fault Bool} {heap : Array α} {place : Nat}
    (h : heap.toList.Pairwise (Order.Comparable before)) :
    (Heap.rise before heap place).1 = .ok () := by
  fun_induction Heap.rise before heap place with
  | case2 heap place hplace x parent hparent hx fault hbefore =>
    obtain ⟨hlt, rfl⟩ := Array.getElem?_eq_some_iff.1 hx
    obtain ⟨hlt', rfl⟩ := Array.getElem?_eq_some_iff.1 hparent
    obtain ⟨_, b, hb⟩ :=
      List.pairwise_iff_getElem.1 h ((place - 1) / 2) place hlt' hlt (by omega)
    cases hbefore.symm.trans hb
  | case4 heap place hplace x parent hx hparent hbefore ih =>
    exact ih (((Heap.swapIfInBounds_perm ..).toList.pairwise_iff Order.Comparable.symm).2 h)
  | _ => rfl

/-- An item fails to find its place only if two items cannot be compared. -/
theorem fault_of_rise {α : Type} {before : α → α → Except Fault Bool} {heap : Array α} {place : Nat}
    {fault : Fault} (h : (Heap.rise before heap place).1 = .error fault) :
    ∃ a b, before a b = .error fault := by
  fun_induction Heap.rise before heap place with
  | case2 =>
    cases h
    exact ⟨_, _, ‹_›⟩
  | case4 _ _ _ _ _ _ _ _ ih => exact ih h
  | _ => cases h

theorem fault_of_throwsBefore {a b : Nat × Throw} {fault : Fault}
    (h : throwsBefore a b = .error fault) : fault = .mistyped := by
  unfold throwsBefore at h
  split at h
  · exact Value.fault_of_lt _ _ h
  · split at h
    · cases h
    · split at h <;> cases h
      rfl

variable {ω : Type} {t : Tray ω}

/-- Of two of these throws it cannot be said which one comes first. -/
def Clash (throws : List (Nat × Throw)) : Prop :=
  ¬throws.Pairwise (Order.Comparable throwsBefore)

theorem Clash.perm {throws throws' : List (Nat × Throw)} (h : Clash throws)
    (hperm : throws.Perm throws') : Clash throws' :=
  mt (hperm.pairwise_iff Order.Comparable.symm).2 h

theorem Clash.sublist {throws throws' : List (Nat × Throw)} (h : Clash throws)
    (hsublist : throws.Sublist throws') : Clash throws' :=
  mt (List.Pairwise.sublist hsublist) h

/-- A throw waits with the others, whether it can be compared with them or not. -/
theorem addThrow_cases (throw : Throw) (t : Tray ω) :
    ∃ pending, pending.toList.Perm ((t.nextThrow, throw) :: t.pending.toList) ∧
      ((addThrow throw).perform t = (.ok (), { t with pending, nextThrow := t.nextThrow + 1 }) ∨
        Clash ((t.nextThrow, throw) :: t.pending.toList) ∧
          (addThrow throw).perform t = (.error .mistyped, { t with pending })) := by
  have hperm := push_toList_perm t.pending t.nextThrow throw
  rcases hpush : (Heap.push throwsBefore (t.nextThrow, throw)).perform t.pending with
    ⟨answer, pending⟩
  have hwithin : ((Heap.push throwsBefore (t.nextThrow, throw)).within Tray.pending
      fun pending t => { t with pending } : Attempt (Tray ω) Unit).perform t =
        (answer, { t with pending }) := by
    rw [Attempt.perform_within, hpush]
  rw [hpush] at hperm
  refine ⟨pending, hperm, ?_⟩
  rw [addThrow, Attempt.perform_bind_of_ok (Attempt.perform_get t)]
  cases answer with
  | error fault =>
    have hrise := congrArg Prod.fst hpush
    obtain ⟨_, _, hbefore⟩ := fault_of_rise hrise
    obtain rfl := fault_of_throwsBefore hbefore
    refine .inr ⟨fun hcomparable => ?_, Attempt.perform_bind_of_error hwithin⟩
    have hpushed : (t.pending.push (t.nextThrow, throw)).toList.Pairwise
        (Order.Comparable throwsBefore) := by
      rw [Array.toList_push]
      exact (List.perm_append_comm.pairwise_iff Order.Comparable.symm).2 hcomparable
    cases hrise.symm.trans (rise_eq_ok hpushed)
  | ok _ => exact .inl (Attempt.perform_bind_of_ok hwithin)

/-- Throws that wait have floats for their times, and numbers of their own, lower than the next one. -/
structure Queued (nextThrow : Nat) (pending : List (Nat × Throw)) : Prop where
  due : ∀ item ∈ pending, ∃ x, item.2.due = .float x
  number : ∀ item ∈ pending, item.1 < nextThrow
  apart : pending.Pairwise fun a b => a.1 ≠ b.1

namespace Queued

variable {nextThrow : Nat} {pending pending' : List (Nat × Throw)}

theorem nil (nextThrow : Nat) : Queued nextThrow [] :=
  ⟨List.forall_mem_nil _, List.forall_mem_nil _, .nil⟩

theorem cons (h : Queued nextThrow pending) {throw : Throw} (hdue : ∃ x, throw.due = .float x) :
    Queued (nextThrow + 1) ((nextThrow, throw) :: pending) where
  due := List.forall_mem_cons.2 ⟨hdue, h.due⟩
  number := List.forall_mem_cons.2
    ⟨Nat.lt_succ_self _, fun item hitem => Nat.lt_succ_of_lt (h.number item hitem)⟩
  apart := List.pairwise_cons.2 ⟨fun item hitem => (h.number item hitem).ne', h.apart⟩

theorem tail {item : Nat × Throw} (h : Queued nextThrow (item :: pending)) :
    Queued nextThrow pending :=
  ⟨(List.forall_mem_cons.1 h.due).2, (List.forall_mem_cons.1 h.number).2, h.apart.tail⟩

theorem perm (h : Queued nextThrow pending) (hperm : pending'.Perm pending) :
    Queued nextThrow pending' where
  due item hitem := h.due item (hperm.mem_iff.1 hitem)
  number item hitem := h.number item (hperm.mem_iff.1 hitem)
  apart := (hperm.pairwise_iff Ne.symm).2 h.apart

theorem comparable (h : Queued nextThrow pending) : pending.Pairwise (Order.Comparable throwsBefore) :=
  h.apart.imp_of_mem fun ha hb hne =>
    ⟨exists_throwsBefore_eq (h.due _ ha) (h.due _ hb) hne,
      exists_throwsBefore_eq (h.due _ hb) (h.due _ ha) hne.symm⟩

end Queued

/-- A throw that can be compared with those that wait is added to them. -/
theorem addThrow_perform (h : Queued t.nextThrow t.pending.toList) {throw : Throw}
    (hdue : ∃ x, throw.due = .float x) :
    ∃ pending, (addThrow throw).perform t =
        (.ok (), { t with pending, nextThrow := t.nextThrow + 1 }) ∧
      pending.toList.Perm ((t.nextThrow, throw) :: t.pending.toList) ∧
      Queued (t.nextThrow + 1) pending.toList := by
  have hqueued := h.cons hdue
  obtain ⟨pending, hperm, hadd | ⟨hclash, _⟩⟩ := addThrow_cases throw t
  · exact ⟨pending, hadd, hperm, hqueued.perm hperm⟩
  · exact absurd hqueued.comparable hclash

/-- Throws with the numbers under which they are added one after the other. -/
def numbered : Nat → List Throw → List (Nat × Throw)
  | _, [] => []
  | n, throw :: rest => (n, throw) :: numbered (n + 1) rest

theorem map_snd_numbered (n : Nat) (throws : List Throw) : (numbered n throws).map Prod.snd = throws := by
  induction throws generalizing n with
  | nil => rfl
  | cons throw rest ih => exact congrArg (throw :: ·) (ih (n + 1))

theorem le_of_mem_numbered {n : Nat} {throws : List Throw} {item : Nat × Throw}
    (h : item ∈ numbered n throws) : n ≤ item.1 ∧ item.2 ∈ throws := by
  induction throws generalizing n with
  | nil => nomatch h
  | cons throw rest ih =>
    rcases List.mem_cons.1 h with rfl | h
    · exact ⟨Nat.le_refl _, List.mem_cons_self ..⟩
    · obtain ⟨hle, hmem⟩ := ih h
      exact ⟨by omega, List.mem_cons_of_mem _ hmem⟩

theorem apart_numbered (n : Nat) (throws : List Throw) :
    (numbered n throws).Pairwise fun a b => a.1 ≠ b.1 := by
  induction throws generalizing n with
  | nil => exact .nil
  | cons throw rest ih =>
    refine List.pairwise_cons.2 ⟨fun item hitem => ?_, ih (n + 1)⟩
    exact Nat.ne_of_lt (le_of_mem_numbered hitem).1

theorem forM_addThrow_perform (h : Queued t.nextThrow t.pending.toList) {throws : List Throw}
    (hdue : ∀ throw ∈ throws, ∃ x, throw.due = .float x) :
    ∃ pending nextThrow, (throws.forM addThrow).perform t =
        (.ok (), { t with pending, nextThrow }) ∧
      pending.toList.Perm (numbered t.nextThrow throws ++ t.pending.toList) := by
  induction throws generalizing t with
  | nil => exact ⟨t.pending, t.nextThrow, rfl, List.Perm.refl _⟩
  | cons throw rest ih =>
    obtain ⟨pending, hperform, hperm, hqueued⟩ :=
      addThrow_perform h (hdue throw (List.mem_cons_self ..))
    obtain ⟨pending', nextThrow, hrest, hperm'⟩ :=
      ih (t := { t with pending, nextThrow := t.nextThrow + 1 }) hqueued
        fun throw h => hdue throw (List.mem_cons_of_mem _ h)
    refine ⟨pending', nextThrow, ?_, ?_⟩
    · rw [List.forM, Attempt.perform_bind_of_ok hperform]
      exact hrest
    · refine hperm'.trans (((hperm.append_left _).trans ?_))
      exact List.perm_middle

/-! ## The order in which throws wait -/

/-- Throws that are due in turn come in the order of their numbers. -/
theorem pairwise_numbered {n : Nat} {throws : List Throw}
    (h : InTurn throws) : (numbered n throws).Pairwise fun a b => rank a < rank b := by
  induction throws generalizing n with
  | nil => exact .nil
  | cons throw rest ih =>
    obtain ⟨hfirst, hrest⟩ := List.pairwise_cons.1 h
    refine List.pairwise_cons.2 ⟨fun item hitem => ?_, ih hrest⟩
    obtain ⟨hle, hmem⟩ := le_of_mem_numbered hitem
    rw [rank, rank, Prod.Lex.toLex_lt_toLex]
    exact (hfirst _ hmem).lt_or_eq.imp_right fun heq => ⟨heq, by omega⟩

/-- Those that wait will be thrown in the order of their ranks. -/
theorem exists_items (hapart : t.pending.toList.Pairwise fun a b => a.1 ≠ b.1)
    (h : ∀ item ∈ t.pending.toList, item.2.Timed) :
    ∃ items : List (Nat × Throw), t.waiting = .ok (items.map Prod.snd) ∧
      items.Perm t.pending.toList ∧ items.Pairwise fun a b => rank a < rank b := by
  have hrank : t.pending.toList.Pairwise (Order.Ranked throwsBefore rank) :=
    hapart.imp_of_mem fun ha hb hne => throwsBefore_ranked (h _ ha) (h _ hb) hne
  obtain ⟨items, hsort⟩ := Order.exists_sortBy_eq (hrank.imp Order.Ranked.comparable)
  have hperm := Order.sortBy_perm hsort
  refine ⟨items, ?_, hperm, ?_⟩
  · rw [waiting, hsort]
    rfl
  · have hne : items.Pairwise fun a b => a.1 ≠ b.1 := (hperm.pairwise_iff Ne.symm).2 hapart
    refine (Order.sortBy_ascending rank hrank hsort).imp₂ (fun a b hle hne => ?_) hne
    exact lt_of_le_of_ne hle fun heq => hne (congrArg (fun key => (ofLex key).2) heq)

/-- Those that will be thrown are those that wait. -/
theorem perm_of_waiting {throws : List Throw} (h : t.waiting = .ok throws) :
    throws.Perm (t.pending.toList.map Prod.snd) := by
  obtain ⟨items, hsort, h⟩ := bind_eq_ok.1 h
  obtain rfl := pure_eq_ok.1 h
  exact (Order.sortBy_perm hsort).map _

/-- There is one order of ranks only. -/
theorem waiting_eq {items : List (Nat × Throw)} (hperm : t.pending.toList.Perm items)
    (hapart : items.Pairwise fun a b => a.1 ≠ b.1) (h : ∀ item ∈ items, item.2.Timed)
    (hsorted : items.Pairwise fun a b => rank a < rank b) : t.waiting = .ok (items.map Prod.snd) := by
  obtain ⟨items', hwaiting, hperm', hsorted'⟩ := exists_items (t := t)
    ((hperm.pairwise_iff Ne.symm).2 hapart) fun item hitem => h item (hperm.mem_iff.1 hitem)
  have hdistinct : (items.map rank).Nodup := List.pairwise_map.2 (hsorted.imp ne_of_lt)
  have hitems := hperm'.trans hperm
  have heq : items' = items :=
    List.Perm.eq_of_pairwise (fun a b ha hb hab hba =>
      List.inj_on_of_nodup_map hdistinct (hitems.mem_iff.1 ha) hb (le_antisymm hab hba))
      (hsorted'.imp le_of_lt) (hsorted.imp le_of_lt) hitems
  rw [hwaiting, heq]

/-- If the times of those that wait are numbers, there is an order in which they will be thrown. -/
theorem exists_waiting (hapart : t.pending.toList.Pairwise fun a b => a.1 ≠ b.1)
    (h : ∀ item ∈ t.pending, item.2.Timely) :
    ∃ throws, t.waiting = .ok throws ∧ throws.Perm (t.pending.toList.map Prod.snd) ∧
      InTurn throws := by
  obtain ⟨items, hwaiting, hperm, hsorted⟩ :=
    exists_items hapart fun item hitem => (h item (Array.mem_toList_iff.1 hitem)).timed
  refine ⟨items.map Prod.snd, hwaiting, hperm.map _, List.pairwise_map.2 (hsorted.imp fun {a b} hlt => ?_)⟩
  exact Prod.Lex.monotone_fst _ _ hlt.le

/-- Throws that are added in the order in which they are due wait in this order. -/
theorem waiting_of_perm {n : Nat} {throws : List Throw}
    (hperm : t.pending.toList.Perm (numbered n throws)) (htimely : ∀ throw ∈ throws, throw.Timely)
    (h : InTurn throws) : t.waiting = .ok throws := by
  rw [waiting_eq hperm (apart_numbered n throws) (fun item hitem => ?_) (pairwise_numbered h),
    map_snd_numbered]
  exact (htimely _ (le_of_mem_numbered hitem).2).timed

end Tray

end RollTray
