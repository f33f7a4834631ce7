import Mathlib.Algebra.BigOperators.Group.List.Basic
import Mathlib.Algebra.Order.Ring.Int
import Mathlib.Algebra.Order.Monoid.OrderDual
import Mathlib.Data.Multiset.OrderedMonoid
import RollTray.Proofs.Dice.Faces
import RollTray.Proofs.Number.Order

/-!
# What keep rules keep

A group with a keep rule sorts its dice and keeps the first of them. These have the best sum of all
choices of as many (`isBest_sum_take`), so the group is worth that sum; the highest dice and the lowest of
the others together are all dice (`sum_take_add_sum_take`); and the highest die alone is what `max` selects
(`exists_pick`). `keptBest_of_keeps` says so of every rule and all values. The only limit is that a group is
worth what it keeps if all its dice can be written (`Writable`): its breakdown shows each of them, and an
integer of too many digits has no text (`worthless_of_long`).
-/

namespace RollTray

/-- The group keeps so many of its dice, the highest or the lowest ones. A number that is not said is
one. -/
structure Group.Keeps (g : Group) (highest : Bool) (k : Nat) : Prop where
  rule : g.keep = .text (if highest then "kh" else "kl")
  count : g.keepCount = .int k ∨ g.keepCount = .null ∧ k = 1

namespace Dice

/-- A value comes before another one where the highest is in front, or where the lowest is. -/
def InFront (highest : Bool) (a b : Int) : Prop :=
  if highest then b ≤ a else a ≤ b

/-- The sums of so many of some values. -/
def sumsOf (values : List Int) (count : Nat) : Set Int :=
  {sum | ∃ part : Multiset Int, part ≤ ↑values ∧ part.card = count ∧ part.sum = sum}

/-- The highest number of a set, or the lowest one. -/
def IsBest (highest : Bool) (numbers : Set Int) (n : Int) : Prop :=
  if highest then IsGreatest numbers n else IsLeast numbers n

theorem isBest_iff {highest : Bool} {numbers : Set Int} {n : Int} :
    IsBest highest numbers n ↔ n ∈ numbers ∧ ∀ m ∈ numbers, InFront highest n m := by
  cases highest <;> exact Iff.rfl

theorem IsBest.unique {highest : Bool} {numbers : Set Int} {m n : Int} (hm : IsBest highest numbers m)
    (hn : IsBest highest numbers n) : m = n := by
  cases highest with
  | true => exact IsGreatest.unique hm hn
  | false => exact IsLeast.unique hm hn

/-! ## The front of a sorted list -/

/-- Of a descending list no part has a larger sum than the front of its length. -/
theorem sum_le_sum_take {M : Type} [AddCommMonoid M] [Preorder M] [IsOrderedAddMonoid M]
    {values part : List M} (hvalues : values.Pairwise fun a b => b ≤ a) (hpart : part.Sublist values) :
    part.sum ≤ (values.take part.length).sum := by
  induction values generalizing part with
  | nil =>
    rw [List.sublist_nil.1 hpart]
    exact le_rfl
  | cons v values ih =>
    cases part with
    | nil => exact le_rfl
    | cons p part =>
      obtain ⟨hfirst, hvalues⟩ := List.pairwise_cons.1 hvalues
      have hle : p ≤ v := by
        rcases List.mem_cons.1 (hpart.subset (List.mem_cons_self ..)) with rfl | hp
        · exact le_rfl
        · exact hfirst p hp
      rw [List.length_cons, List.take_succ_cons, List.sum_cons, List.sum_cons]
      exact add_le_add hle (ih hvalues hpart.tail)

variable {highest : Bool} {values sorted : List Int}

/-- No other choice of as many values is better than the first of them. -/
theorem inFront_sum_take (hsorted : sorted.Pairwise (InFront highest)) {part : Multiset Int}
    (hpart : part ≤ ↑sorted) : InFront highest (sorted.take part.card).sum part.sum := by
  induction part using Quot.inductionOn with
  | _ part =>
    obtain ⟨chosen, hperm, hsub⟩ := Multiset.coe_le.1 hpart
    have hsum : chosen.sum = part.sum := hperm.sum_eq
    have hlength : chosen.length = part.length := hperm.length_eq
    show InFront highest (sorted.take part.length).sum part.sum
    rw [← hsum, ← hlength]
    cases highest with
    | true => exact sum_le_sum_take hsorted hsub
    | false => exact sum_le_sum_take (M := Intᵒᵈ) hsorted hsub

/-- The first of the sorted values have the best sum. -/
theorem isBest_sum_take (hperm : sorted.Perm values) (hsorted : sorted.Pairwise (InFront highest))
    {count : Nat} (hcount : count ≤ values.length) :
    IsBest highest (sumsOf values count) (sorted.take count).sum := by
  have hcoe : (sorted : Multiset Int) = values := Multiset.coe_eq_coe.2 hperm
  refine isBest_iff.2 ⟨⟨sorted.take count, ?_, ?_, rfl⟩, ?_⟩
  · rw [← hcoe]
    exact Multiset.coe_le.2 (List.take_sublist ..).subperm
  · rw [Multiset.coe_card, List.length_take, hperm.length_eq, min_eq_left hcount]
  · rintro sum ⟨part, hpart, rfl, rfl⟩
    exact inFront_sum_take hsorted (hcoe ▸ hpart)

/-- Values sorted one way are the reverse of those sorted the other way. -/
theorem eq_reverse_of_inFront {sorted' : List Int} (hperm : sorted.Perm values)
    (hsorted : sorted.Pairwise (InFront highest)) (hperm' : sorted'.Perm values)
    (hsorted' : sorted'.Pairwise (InFront !highest)) : sorted' = sorted.reverse := by
  have hreverse : sorted.reverse.Pairwise (InFront !highest) := by
    refine List.pairwise_reverse.2 (hsorted.imp fun h => ?_)
    cases highest <;> exact h
  refine List.Perm.eq_of_pairwise (fun a b _ _ hab hba => ?_) hsorted' hreverse
    (hperm'.trans (hperm.symm.trans (List.reverse_perm _).symm))
  cases highest with
  | true => exact le_antisymm hab hba
  | false => exact le_antisymm hba hab

/-- What is kept one way and what is kept the other way make up all values. -/
theorem sum_take_add_sum_take {sorted' : List Int} (hperm : sorted.Perm values)
    (hsorted : sorted.Pairwise (InFront highest)) (hperm' : sorted'.Perm values)
    (hsorted' : sorted'.Pairwise (InFront !highest)) {count : Nat} (hcount : count ≤ values.length) :
    (sorted.take count).sum + (sorted'.take (values.length - count)).sum = values.sum := by
  have hdrop : sorted.length - (sorted.length - count) = count := by
    rw [hperm.length_eq]
    omega
  rw [eq_reverse_of_inFront hperm hsorted hperm' hsorted', ← hperm.length_eq, List.take_reverse, hdrop,
    List.sum_reverse, List.sum_take_add_sum_drop, hperm.sum_eq]

/-! ## Integers as values -/

/-- The integer of a value. -/
def rank : Value → Int
  | .int n => n
  | _ => 0

theorem map_rank (values : List Int) : (values.map Value.int).map rank = values := by
  rw [List.map_map]
  exact List.map_id values

theorem ranked_int {values : List Value} (h : ∀ v ∈ values, ∃ n : Int, v = .int n) :
    values.Pairwise (Order.Ranked Value.lt rank) := by
  refine List.pairwise_of_forall_mem_list fun a ha b hb => ?_
  obtain ⟨m, rfl⟩ := h a ha
  obtain ⟨n, rfl⟩ := h b hb
  exact ⟨Value.lt_int m n, Value.lt_int n m⟩

/-- Sorting integers puts them one after the other, from the highest or from the lowest one. -/
theorem exists_sortValues_int (highest : Bool) (values : List Int) :
    ∃ sorted : List Int, sortValues highest (values.map .int) = .ok (sorted.map .int) ∧
      sorted.Perm values ∧ sorted.Pairwise (InFront highest) := by
  have hsort : ∀ items : List Value, items.Perm (values.map .int) →
      ∃ sorted : List Int, Order.sortBy Value.lt items = .ok (sorted.map .int) ∧
        sorted.Perm values ∧ sorted.Pairwise (· ≤ ·) := by
    intro items hitems
    have hint : ∀ v ∈ items, ∃ n : Int, v = .int n := fun v hv =>
      (List.mem_map.1 (hitems.mem_iff.1 hv)).imp fun n hn => hn.2.symm
    obtain ⟨sorted, hsorted⟩ := Order.exists_sortBy_eq
      ((ranked_int hint).imp Order.Ranked.comparable)
    have hperm := Order.sortBy_perm hsorted
    have hmap : (sorted.map rank).map .int = sorted := by
      rw [List.map_map]
      refine (List.map_congr_left fun v hv => ?_).trans (List.map_id sorted)
      obtain ⟨n, rfl⟩ := hint v (hperm.mem_iff.1 hv)
      rfl
    refine ⟨sorted.map rank, hsorted.trans (congrArg _ hmap.symm), ?_,
      List.pairwise_map.2 (Order.sortBy_ascending rank (ranked_int hint) hsorted)⟩
    exact map_rank values ▸ (hperm.trans hitems).map rank
  cases highest with
  | true =>
    obtain ⟨sorted, hsorted, hperm, hordered⟩ := hsort _ (List.reverse_perm _)
    refine ⟨sorted.reverse, ?_, (List.reverse_perm _).trans hperm, List.pairwise_reverse.2 hordered⟩
    rw [sortValues, if_pos rfl, hsorted, List.map_reverse]
    rfl
  | false => exact hsort _ (List.Perm.refl _)

theorem sumValues_int (values : List Int) :
    sumValues (values.map .int) = .ok (.int values.sum) := by
  suffices hfold : ∀ start : Int, (values.map Value.int).foldlM (fun sum v => do
      sum.add (← v.num) : Num → Value → Except Fault Num) (.int start) =
        .ok (.int (start + values.sum)) by
    rw [sumValues, hfold, zero_add]
  induction values with
  | nil => exact fun start => congrArg (fun n => Except.ok (Num.int n)) (add_zero start).symm
  | cons v values ih =>
    intro start
    rw [List.sum_cons, ← add_assoc]
    exact ih (start + v)

/-! ## What is kept -/

/-- All integers are short enough to be written. -/
def Writable (values : List Int) : Prop :=
  ∀ n ∈ values, n.natAbs < pow10 integerDigitLimit

instance (values : List Int) : Decidable (Writable values) :=
  List.decidableBAll _ values

/-- A list on which only one fault is met fails with it as soon as one of its items does. -/
theorem mapM_eq_error {α β : Type} {f : α → Except Fault β} {fault : Fault} {items : List α}
    (h : ∀ a ∈ items, (∃ b, f a = .ok b) ∨ f a = .error fault)
    (hfail : ∃ a ∈ items, f a = .error fault) : items.mapM f = .error fault := by
  induction items with
  | nil => exact nomatch hfail
  | cons a items ih =>
    rw [List.mapM_cons]
    rcases h a (List.mem_cons_self ..) with ⟨b, hb⟩ | ha
    · obtain ⟨c, hc, hfault⟩ := hfail
      have hc : c ∈ items := by
        rcases List.mem_cons.1 hc with rfl | hc
        · cases hb.symm.trans hfault
        · exact hc
      rw [hb, ok_bind, ih (fun c hc => h c (List.mem_cons_of_mem _ hc)) ⟨c, hc, hfault⟩]
      rfl
    · rw [ha]
      rfl

variable {g : Group} {k : Nat}

theorem resultText_int {r : DieResult} {n : Int} (hr : r.value = .int n) :
    (∃ text, resultText r = .ok text) ∧ n.natAbs < pow10 integerDigitLimit ∨
      resultText r = .error .unreadable ∧ ¬n.natAbs < pow10 integerDigitLimit := by
  rw [resultText, hr, Value.shown_int, Num.writeInt]
  split
  · next hn => exact .inl ⟨⟨_, rfl⟩, hn⟩
  · next hn => exact .inr ⟨rfl, hn⟩

theorem memberAmount_int {r : DieResult} {n : Int} (hr : r.value = .int n)
    (hn : n.natAbs < pow10 integerDigitLimit) :
    memberAmount r = .ok { value := .int n, breakdown := Text.decimalOfInt n } := by
  rw [memberAmount, hr, Value.shown_int, Num.writeInt, if_pos hn]
  rfl

theorem rule_same (highest : Bool) (word : String) :
    (Value.text (if highest then "kh" else "kl")).same (.text word) =
      decide ((if highest then "kh" else "kl") = word) := by
  rw [Value.same, Bool.beq_eq_decide_eq]

/-- A keep rule sorts the values and marks the first of them. -/
theorem applyKeep_of_keeps (hg : g.Keeps highest k) (values : List Int) :
    ∃ sorted : List Int, applyKeep g (values.map .int) = .ok (markKept k (sorted.map .int)) ∧
      sorted.Perm values ∧ sorted.Pairwise (InFront highest) := by
  obtain ⟨sorted, hsorted, hperm, hordered⟩ := exists_sortValues_int highest values
  have hnumber : keepNumber g.keepCount = .ok k := by
    rcases hg.count with hcount | ⟨hcount, rfl⟩ <;> rw [hcount] <;> rfl
  have hfrom : dropFrom (sorted.map Value.int).length k = k := by
    rw [dropFrom, if_neg (by omega), Int.toNat_natCast]
  have hrule : (decide ((if highest then "kh" else "kl") = "kh")) = highest := by
    cases highest <;> rfl
  refine ⟨sorted, ?_, hperm, hordered⟩
  rw [applyKeep, hg.rule, rule_same, rule_same, hrule, if_pos (by cases highest <;> rfl), hsorted, ok_bind,
    hnumber, ok_bind, hfrom]
  rfl

theorem kept_markKept (kept : Nat) (values : List Value) :
    (markKept kept values).map DieResult.kept =
      List.replicate (min kept values.length) (.bool true) ++
        List.replicate (values.length - kept) (.bool false) := by
  rw [markKept, List.map_append, List.map_map, List.map_map, ← List.length_take, ← List.length_drop]
  exact congrArg₂ _ List.map_const List.map_const

theorem value_filter_markKept (kept : Nat) (values : List Value) :
    ((markKept kept values).filter fun r => r.kept.truthy).map DieResult.value = values.take kept := by
  have hfront : ((values.take kept).map fun v => (⟨v, .bool true⟩ : DieResult)).filter
      (fun r => r.kept.truthy) = (values.take kept).map fun v => ⟨v, .bool true⟩ :=
    List.filter_eq_self.2 (List.forall_mem_map.2 fun _ _ => rfl)
  have hback : ((values.drop kept).map fun v => (⟨v, .bool false⟩ : DieResult)).filter
      (fun r => r.kept.truthy) = [] :=
    List.filter_eq_nil_iff.2 (List.forall_mem_map.2 fun _ _ => Bool.false_ne_true)
  rw [markKept, List.filter_append, hfront, hback, List.append_nil, List.map_map]
  exact List.map_id _

theorem exists_of_map_value {results : List DieResult} {values : List Int}
    (h : results.map DieResult.value = values.map .int) :
    ∀ r ∈ results, ∃ n ∈ values, r.value = .int n := by
  intro r hr
  obtain ⟨n, hn, heq⟩ := List.mem_map.1 (h ▸ List.mem_map_of_mem hr)
  exact ⟨n, hn, heq.symm⟩

/-- The total of a group is so much. -/
def IsWorth (g : Group) (results : List DieResult) (total : Int) : Prop :=
  (groupAmount g results).map Formula.Amount.value = .ok (.int total)

/-- A group that keeps some integers is worth their sum if all its dice can be written, and nothing if not. -/
theorem isWorth_of_keeps (hg : g.Keeps highest k) {results : List DieResult} {kept : List Int}
    (hvalues : results.map DieResult.value = values.map .int)
    (hkept : (results.filter fun r => r.kept.truthy).map DieResult.value = kept.map .int) :
    (Writable values → IsWorth g results kept.sum) ∧
      (¬Writable values → groupAmount g results = .error .unreadable) := by
  have hresult := exists_of_map_value hvalues
  have hrule : (g.keep.same (.text "kh") || g.keep.same (.text "kl")) = true := by
    rw [hg.rule, rule_same, rule_same]
    cases highest <;> rfl
  rw [IsWorth, groupAmount, hg.rule, rule_same, if_neg (by cases highest <;> decide), ← hg.rule, hrule]
  refine ⟨fun hwritable => ?_, fun hlong => ?_⟩
  · obtain ⟨texts, htexts, -⟩ := exists_mapM (P := fun _ => True) (f := resultText) fun r hr => by
      obtain ⟨n, hn, hr⟩ := hresult r hr
      rcases resultText_int hr with ⟨⟨text, htext⟩, -⟩ | ⟨-, hlong⟩
      · exact ⟨text, htext, trivial⟩
      · exact absurd (hwritable n hn) hlong
    obtain ⟨members, hmembers, -⟩ := exists_mapM (P := fun _ => True) (f := memberAmount) fun r hr => by
      obtain ⟨n, hn, hr⟩ := hresult r (List.mem_of_mem_filter hr)
      exact ⟨_, memberAmount_int hr (hwritable n hn), trivial⟩
    rw [htexts, ok_bind]
    dsimp only
    rw [hkept, sumValues_int, ok_bind, hmembers]
    rfl
  · have hfault : results.mapM resultText = .error .unreadable := by
      refine mapM_eq_error (fun r hr => ?_) ?_
      · obtain ⟨n, -, hr⟩ := hresult r hr
        exact (resultText_int hr).imp And.left And.left
      · obtain ⟨n, hn, hlong⟩ : ∃ n ∈ values, ¬n.natAbs < pow10 integerDigitLimit := by
          simpa [Writable] using hlong
        obtain ⟨r, hr, hvalue⟩ := List.mem_map.1 (hvalues ▸ List.mem_map_of_mem (f := Value.int) hn)
        rcases resultText_int hvalue with ⟨-, hshort⟩ | ⟨hfault, -⟩
        · exact absurd hshort hlong
        · exact ⟨r, hr, hfault⟩
    rw [hfault]
    rfl

/-! ## The functions -/

/-- The function that selects the highest of its arguments, or the lowest. -/
def selector (highest : Bool) : Formula.Function :=
  if highest then .max else .min

/-- The number that the function selects. -/
def pick (highest : Bool) : Num → List Num → Num :=
  if highest then Num.maximum else Num.minimum

theorem apply_selector (highest : Bool) (a : Formula.Amount) (rest : List Formula.Amount) :
    ((selector highest).apply (a :: rest)).map Formula.Amount.value =
      .ok (pick highest a.value (rest.map Formula.Amount.value)) := by
  cases highest <;> rfl

/-- Of two numbers the one in front goes on. -/
theorem exists_pick_cons (highest : Bool) (a b : Int) (rest : List Num) :
    ∃ c, (c = a ∨ c = b) ∧ InFront highest c a ∧ InFront highest c b ∧
      pick highest (.int a) (.int b :: rest) = pick highest (.int c) rest := by
  cases highest with
  | true =>
    by_cases h : a < b
    · refine ⟨b, .inr rfl, h.le, le_rfl, ?_⟩
      simp [pick, Num.maximum, Num.lt_int, h]
    · refine ⟨a, .inl rfl, le_rfl, not_lt.1 h, ?_⟩
      simp [pick, Num.maximum, Num.lt_int, h]
  | false =>
    by_cases h : b < a
    · refine ⟨b, .inr rfl, h.le, le_rfl, ?_⟩
      simp [pick, Num.minimum, Num.lt_int, h]
    · refine ⟨a, .inl rfl, le_rfl, not_lt.1 h, ?_⟩
      simp [pick, Num.minimum, Num.lt_int, h]

theorem InFront.trans {a b c : Int} (hab : InFront highest a b) (hbc : InFront highest b c) :
    InFront highest a c := by
  cases highest with
  | true => exact le_trans hbc hab
  | false => exact le_trans hab hbc

/-- The number selected is the best of the numbers. -/
theorem exists_pick (highest : Bool) (n : Int) (rest : List Int) :
    ∃ m, pick highest (.int n) (rest.map .int) = .int m ∧ IsBest highest {v | v ∈ n :: rest} m := by
  induction rest generalizing n with
  | nil =>
    refine ⟨n, by cases highest <;> rfl, isBest_iff.2 ⟨List.mem_singleton_self n, fun m hm => ?_⟩⟩
    rw [List.mem_singleton.1 hm]
    cases highest <;> exact le_rfl
  | cons b rest ih =>
    obtain ⟨c, hc, hcn, hcb, hpick⟩ := exists_pick_cons highest n b (rest.map .int)
    obtain ⟨m, hm, hbest⟩ := ih c
    obtain ⟨hmem, hfront⟩ := isBest_iff.1 hbest
    refine ⟨m, hpick.trans hm, isBest_iff.2 ⟨?_, fun v hv => ?_⟩⟩
    · rcases List.mem_cons.1 hmem with rfl | hmem
      · rcases hc with rfl | rfl
        · exact List.mem_cons_self ..
        · exact List.mem_cons_of_mem _ (List.mem_cons_self ..)
      · exact List.mem_cons_of_mem _ (List.mem_cons_of_mem _ hmem)
    · have hmc := hfront c (List.mem_cons_self ..)
      rcases List.mem_cons.1 hv with rfl | hv
      · exact hmc.trans hcn
      rcases List.mem_cons.1 hv with rfl | hv
      · exact hmc.trans hcb
      · exact hfront v (List.mem_cons_of_mem _ hv)

theorem sumsOf_one (values : List Int) : sumsOf values 1 = {v | v ∈ values} := by
  ext sum
  constructor
  · rintro ⟨part, hpart, hcard, rfl⟩
    obtain ⟨v, rfl⟩ := Multiset.card_eq_one.1 hcard
    rw [Multiset.sum_singleton]
    exact Multiset.singleton_le.1 hpart
  · exact fun hsum => ⟨{sum}, Multiset.singleton_le.2 hsum, rfl, Multiset.sum_singleton sum⟩

/-! ## Keep rules -/

/-- What keeping so many of some values comes to: all values in order with the first of them marked, and
a total that no other choice of as many beats. -/
structure KeptBest (g : Group) (highest : Bool) (k : Nat) (values : List Int)
    (results : List DieResult) (total : Int) : Prop where
  applied : applyKeep g (values.map .int) = .ok results
  ordered : ∃ sorted : List Int, results.map DieResult.value = sorted.map .int ∧ sorted.Perm values ∧
    sorted.Pairwise (InFront highest)
  kept : results.map DieResult.kept =
    List.replicate (min k values.length) (.bool true) ++
      List.replicate (values.length - k) (.bool false)
  best : IsBest highest (sumsOf values (min k values.length)) total

theorem exists_keptBest (hg : g.Keeps highest k) (values : List Int) :
    ∃ (sorted : List Int) (results : List DieResult), sorted.Perm values ∧
      sorted.Pairwise (InFront highest) ∧ KeptBest g highest k values results (sorted.take k).sum ∧
      (Writable values → IsWorth g results (sorted.take k).sum) ∧
      (¬Writable values → groupAmount g results = .error .unreadable) := by
  obtain ⟨sorted, happlied, hperm, hordered⟩ := applyKeep_of_keeps hg values
  have hwritable : Writable sorted ↔ Writable values := forall_congr' fun n => by rw [hperm.mem_iff]
  have htake : sorted.take k = sorted.take (min k values.length) := by
    rw [← hperm.length_eq, List.take_eq_take_min]
  have hkept : ((markKept k (sorted.map .int)).filter fun r => r.kept.truthy).map DieResult.value =
      (sorted.take k).map .int := by rw [value_filter_markKept, List.map_take]
  have hworth := isWorth_of_keeps hg (value_markKept ..) hkept
  rw [hwritable] at hworth
  refine ⟨sorted, _, hperm, hordered, ⟨happlied, ⟨sorted, value_markKept .., hperm, hordered⟩, ?_, ?_⟩,
    hworth⟩
  · rw [kept_markKept, List.length_map, hperm.length_eq]
  · rw [htake]
    exact isBest_sum_take hperm hordered (min_le_right ..)

/-- A group that keeps its highest dice, or its lowest, keeps the best ones: no choice of as many has a
better sum, and the group is worth that sum unless one of its dice is too long to be written. What the
opposite rule keeps of the others makes up the rest of the sum, and one die kept is what `max` or `min`
selects among the values one by one. -/
theorem keptBest_of_keeps (hg : g.Keeps highest k) (values : List Int) :
    ∃ results total, KeptBest g highest k values results total ∧
      (Writable values → IsWorth g results total) ∧
      (¬Writable values → groupAmount g results = .error .unreadable) ∧
      (k ≤ values.length → ∀ g' : Group, g'.Keeps (!highest) (values.length - k) →
        ∃ results' total', KeptBest g' (!highest) (values.length - k) values results' total' ∧
          (Writable values → IsWorth g' results' total') ∧
          (¬Writable values → groupAmount g' results' = .error .unreadable) ∧
          total + total' = values.sum) ∧
      (k = 1 → values ≠ [] → ∀ members : List Formula.Amount,
        members.map Formula.Amount.value = values.map Num.int →
        ((selector highest).apply members).map Formula.Amount.value = .ok (.int total)) := by
  obtain ⟨sorted, results, hperm, hordered, hkept, hworth, hlong⟩ := exists_keptBest hg values
  refine ⟨results, _, hkept, hworth, hlong, fun hk g' hg' => ?_, ?_⟩
  · obtain ⟨sorted', results', hperm', hordered', hkept', hworth', hlong'⟩ := exists_keptBest hg' values
    exact ⟨results', _, hkept', hworth', hlong', sum_take_add_sum_take hperm hordered hperm' hordered' hk⟩
  · rintro rfl hne members hmembers
    obtain ⟨n, rest, rfl⟩ := List.exists_cons_of_ne_nil hne
    obtain ⟨a, others, rfl, hvalue, hothers⟩ := List.map_eq_cons_iff.1 hmembers
    obtain ⟨m, hpick, hbest⟩ := exists_pick highest n rest
    have htotal := hkept.best
    rw [List.length_cons, min_eq_left (Nat.le_add_left 1 _), sumsOf_one] at htotal
    rw [apply_selector, hvalue, hothers, hpick, hbest.unique htotal]

/-- Two of three dice are kept, the other one by the opposite rule. -/
theorem keptBest_of_three :
    let g : Group := { kind := .text "d6", count := .int 3, keep := .text "kh", keepCount := .int 2 }
    let g' : Group := { g with keep := .text "kl", keepCount := .null }
    g.Keeps true 2 ∧ g'.Keeps false 1 ∧ ∃ total total' : Int, ∃ results results',
      KeptBest g true 2 [3, 1, 5] results total ∧ IsWorth g results total ∧
      KeptBest g' false 1 [3, 1, 5] results' total' ∧ IsWorth g' results' total' ∧ total + total' = 9 := by
  intro g g'
  have hg : g.Keeps true 2 := ⟨rfl, .inl rfl⟩
  have hg' : g'.Keeps false 1 := ⟨rfl, .inr ⟨rfl, rfl⟩⟩
  have hwritable : Writable [3, 1, 5] := by decide +kernel
  obtain ⟨results, total, hkept, hworth, -, hrest, -⟩ := keptBest_of_keeps hg [3, 1, 5]
  obtain ⟨results', total', hkept', hworth', -, hsum⟩ := hrest (by decide) g' hg'
  exact ⟨hg, hg', total, total', results, results', hkept, hworth hwritable, hkept', hworth' hwritable, hsum⟩

/-- A group that keeps its highest die is worth nothing if that is too long to be written. -/
theorem worthless_of_long :
    let g : Group := { kind := .text "d100", count := .int 1, keep := .text "kh", keepCount := .int 1 }
    g.Keeps true 1 ∧ ∃ results, applyKeep g [.int (10 ^ 4300)] = .ok results ∧
      ¬∃ total, IsWorth g results total := by
  intro g
  have hg : g.Keeps true 1 := ⟨rfl, .inl rfl⟩
  have hlong : ¬Writable [10 ^ 4300] := by decide +kernel
  obtain ⟨sorted, results, -, -, hkept, -, hfault⟩ := exists_keptBest hg [10 ^ 4300]
  refine ⟨hg, results, hkept.applied, ?_⟩
  rintro ⟨total, hworth⟩
  rw [IsWorth, hfault hlong] at hworth
  cases hworth

end Dice

end RollTray
