import RollTray.Number
import Mathlib.Algebra.Order.Field.Power
import Mathlib.Data.Rat.Cast.Order
import Mathlib.Order.WithBot
import Mathlib.Tactic.Positivity

/-!
# The order of numbers

Comparisons compare the numbers that are meant: every number but the one that is none stands for a
point of the rationals with two ends (`Num.point`), and `Num.lt_iff` and `Num.same_iff` say that
`Num.lt` and `Num.same` are the order and equality of these points. So the maximum of a list is the
first of its numbers that no other one exceeds (`find?_same_maximum`), and the minimum the first
that exceeds no other one (`find?_same_minimum`).
-/

namespace RollTray

namespace FloatForm

/-- The point of the line that a number stands for. -/
def point : FloatForm → WithBot (WithTop ℚ)
  | finite negative m q => (((signed negative m : ℚ) * 2 ^ q : ℚ) : WithTop ℚ)
  | infinite negative => if negative then ⊥ else ((⊤ : WithTop ℚ) : WithBot (WithTop ℚ))
  | notANumber => ⊥

theorem point_finite (negative : Bool) (m : Nat) (q : Int) :
    (finite negative m q).point = (((signed negative m : ℚ) * 2 ^ q : ℚ) : WithTop ℚ) := rfl

/-- A finite number over a smaller exponent. -/
theorem scaled_eq (a : Int) {q k : Int} (h : k ≤ q) :
    (a : ℚ) * 2 ^ q = ((a * pow2 (q - k).toNat : Int) : ℚ) * 2 ^ k := by
  have hq : q = ((q - k).toNat : Int) + k := by omega
  have hp : ((pow2 (q - k).toNat : Int) : ℚ) = 2 ^ (q - k).toNat := by simp [pow2]
  rw [Int.cast_mul, hp, mul_assoc, ← zpow_natCast, ← zpow_add₀ (by norm_num : (2 : ℚ) ≠ 0), ← hq]

theorem compare?_eq_lt_iff {a b : FloatForm} (ha : a ≠ notANumber) (hb : b ≠ notANumber) :
    compare? a b = some .lt ↔ a.point < b.point := by
  rcases a with ⟨n, m, q⟩ | n | _ <;> rcases b with ⟨n', m', q'⟩ | n' | _ <;>
    try contradiction
  · have hk : (0 : ℚ) < 2 ^ min q q' := by positivity
    rw [compare?, Option.some.injEq, compare_lt_iff_lt, point_finite, point_finite,
      WithBot.coe_lt_coe, WithTop.coe_lt_coe, scaled_eq _ (min_le_left q q'),
      scaled_eq _ (min_le_right q q'), mul_lt_mul_iff_of_pos_right hk, Int.cast_lt]
  · cases n' with
    | true => exact iff_of_false (fun h => nomatch h) not_lt_bot
    | false => exact iff_of_true rfl (WithBot.coe_lt_coe.2 (WithTop.coe_lt_top _))
  · cases n with
    | true => exact iff_of_true rfl (WithBot.bot_lt_coe _)
    | false => exact iff_of_false (fun h => nomatch h) (not_lt_of_ge (WithBot.coe_le_coe.2 le_top))
  · cases n <;> cases n' <;> simp [compare?, point]

theorem compare?_eq_eq_iff {a b : FloatForm} (ha : a ≠ notANumber) (hb : b ≠ notANumber) :
    compare? a b = some .eq ↔ a.point = b.point := by
  rcases a with ⟨n, m, q⟩ | n | _ <;> rcases b with ⟨n', m', q'⟩ | n' | _ <;>
    try contradiction
  · have hk : (2 : ℚ) ^ min q q' ≠ 0 := by positivity
    rw [compare?, Option.some.injEq, compare_eq_iff_eq, point_finite, point_finite,
      WithBot.coe_inj, WithTop.coe_inj, scaled_eq _ (min_le_left q q'),
      scaled_eq _ (min_le_right q q'), mul_left_inj' hk, Int.cast_inj]
  · cases n' with
    | true => exact iff_of_false (fun h => nomatch h) WithBot.coe_ne_bot
    | false => exact iff_of_false (fun h => nomatch h) fun h => WithTop.coe_ne_top (WithBot.coe_inj.1 h)
  · cases n with
    | true => exact iff_of_false (fun h => nomatch h) WithBot.coe_ne_bot.symm
    | false =>
      exact iff_of_false (fun h => nomatch h) fun h => WithTop.coe_ne_top (WithBot.coe_inj.1 h).symm
  · cases n <;> cases n' <;> simp [compare?, point]

theorem signed_ofInt (n : Int) : signed (n < 0) n.natAbs = n := by
  by_cases h : n < 0 <;> simp only [signed, h, decide_true, decide_false, ite_true, ite_false,
    Bool.false_eq_true] <;> omega

end FloatForm

namespace Num

/-- The point of the line that a number stands for. -/
def point (n : Num) : WithBot (WithTop ℚ) :=
  n.form.point

theorem form_ne_of_isNaN {n : Num} (h : n.isNaN = false) : n.form ≠ .notANumber := by
  simpa [isNaN] using h

/-- Integers compare like the numbers that they stand for. -/
theorem compare?_eq (a b : Num) : compare? a b = FloatForm.compare? a.form b.form := by
  cases a with
  | float x => rfl
  | int a =>
    cases b with
    | float y => rfl
    | int b =>
      simp only [compare?, form, FloatForm.ofInt, FloatForm.compare?, min_self, sub_self,
        Int.toNat_zero, FloatForm.signed_ofInt]
      simp [pow2]

theorem lt_iff {a b : Num} (ha : a.isNaN = false) (hb : b.isNaN = false) :
    a.lt b = true ↔ a.point < b.point := by
  rw [lt, compare?_eq, beq_iff_eq,
    FloatForm.compare?_eq_lt_iff (form_ne_of_isNaN ha) (form_ne_of_isNaN hb), point, point]

theorem same_iff {a b : Num} (ha : a.isNaN = false) (hb : b.isNaN = false) :
    a.same b = true ↔ a.point = b.point := by
  rw [same, compare?_eq, beq_iff_eq,
    FloatForm.compare?_eq_eq_iff (form_ne_of_isNaN ha) (form_ne_of_isNaN hb), point, point]

theorem le_eq (a b : Num) : a.le b = (a.lt b || a.same b) := by
  rw [le, lt, same]
  cases compare? a b with
  | none => rfl
  | some order => cases order <;> rfl

theorem le_iff {a b : Num} (ha : a.isNaN = false) (hb : b.isNaN = false) :
    a.le b = true ↔ a.point ≤ b.point := by
  rw [le_eq, Bool.or_eq_true, lt_iff ha hb, same_iff ha hb, le_iff_lt_or_eq]

theorem lt_of_not_le {a b : Num} (ha : a.isNaN = false) (hb : b.isNaN = false) (h : a.le b = false) :
    b.lt a = true := by
  rw [lt_iff hb ha, ← not_le, ← le_iff ha hb, h]
  exact Bool.false_ne_true

/-- What is no number does not come before anything, and nothing before it. -/
theorem isNaN_of_le {a b : Num} (h : a.le b = true) : a.isNaN = false ∧ b.isNaN = false := by
  rw [le, compare?_eq] at h
  refine ⟨Bool.eq_false_iff.2 fun hnone => ?_, Bool.eq_false_iff.2 fun hnone => ?_⟩
  · have hform : a.form = .notANumber := by simpa [isNaN] using hnone
    rw [hform] at h
    generalize b.form = form at h
    cases form <;> cases h
  · have hform : b.form = .notANumber := by simpa [isNaN] using hnone
    rw [hform] at h
    generalize a.form = form at h
    cases form <;> cases h

/-- What is no number is equal to nothing. -/
theorem same_of_isNaN {m : Num} (h : m.isNaN = true) (n : Num) : n.same m = false := by
  have hform : m.form = .notANumber := by simpa [isNaN] using h
  rw [same, compare?_eq, hform]
  cases n.form <;> rfl

theorem isNaN_of_not_same {m : Num} (h : m.same m = false) : m.isNaN = true := by
  refine Bool.not_eq_false _ ▸ fun hnumber => ?_
  rw [(same_iff hnumber hnumber).2 rfl] at h
  cases h

/-! ## The first of the largest -/

section Best

variable {α β : Type*} [LinearOrder β] {P : α → Prop} {r : α → α → Bool} {f : α → β}

/-- The item kept so far, replaced by each later one that is better. -/
abbrev best (r : α → α → Bool) (a : α) (l : List α) : α :=
  l.foldl (fun kept x => if r kept x then x else kept) a

/-- No item is better than the one that is kept. -/
theorem le_best (h : ∀ x y, P x → P y → (r x y = true ↔ f x < f y)) :
    ∀ (l : List α) (a : α), (∀ x ∈ a :: l, P x) → ∀ x ∈ a :: l, f x ≤ f (best r a l)
  | [], a, _, x, hx => by
    rw [List.mem_singleton.1 hx]
    exact le_rfl
  | b :: l, a, hP, x, hx => by
    obtain ⟨ha, hb, hl⟩ : P a ∧ P b ∧ ∀ x ∈ l, P x := by simpa using hP
    rw [best, List.foldl_cons]
    split
    · rename_i hr
      have ih := le_best h l b (by simpa using ⟨hb, hl⟩)
      rcases List.mem_cons.1 hx with rfl | hx
      · exact ((h _ _ ha hb).1 hr).le.trans (ih b (by simp))
      · exact ih x hx
    · rename_i hr
      have ih := le_best h l a (by simpa using ⟨ha, hl⟩)
      rcases List.mem_cons.1 hx with rfl | hx
      · exact ih x (by simp)
      rcases List.mem_cons.1 hx with rfl | hx
      · exact (not_lt.1 fun hlt => hr ((h _ _ ha hb).2 hlt)).trans (ih a (by simp))
      · exact ih x (List.mem_cons_of_mem a hx)

/-- The item that is kept is the first of those that are as good. -/
theorem find?_best (h : ∀ x y, P x → P y → (r x y = true ↔ f x < f y)) :
    ∀ (l : List α) (a : α), (∀ x ∈ a :: l, P x) →
      (a :: l).find? (fun x => f x = f (best r a l)) = some (best r a l)
  | [], a, _ => by simp
  | b :: l, a, hP => by
    obtain ⟨ha, hb, hl⟩ : P a ∧ P b ∧ ∀ x ∈ l, P x := by simpa using hP
    have hab := h a b ha hb
    rw [best, List.foldl_cons]
    split
    · rename_i hr
      have hbl : ∀ x ∈ b :: l, P x := by simpa using ⟨hb, hl⟩
      have hle := le_best h l b hbl b (by simp)
      rw [List.find?_cons_of_neg (by simpa using ((hab.1 hr).trans_le hle).ne)]
      exact find?_best h l b hbl
    · rename_i hr
      have hal : ∀ x ∈ a :: l, P x := by simpa using ⟨ha, hl⟩
      have hle := le_best h l a hal a (by simp)
      have hba : f b ≤ f a := not_lt.1 fun hlt => hr (hab.2 hlt)
      have ih := find?_best h l a hal
      by_cases heq : f a = f (best r a l)
      · rw [List.find?_cons_of_pos (by simpa using heq)] at ih ⊢
        exact ih
      · rw [List.find?_cons_of_neg (by simpa using heq)] at ih ⊢
        rw [List.find?_cons_of_neg (by simpa using (hba.trans_lt (lt_of_le_of_ne hle heq)).ne)]
        exact ih

/-- Of items that compare, those as good as the one that is kept are those that no other one
beats. -/
theorem all_not_eq_decide (h : ∀ x y, P x → P y → (r x y = true ↔ f x < f y)) {l : List α} {a : α}
    (hP : ∀ x ∈ a :: l, P x) {x : α} (hx : x ∈ a :: l) :
    ((a :: l).all fun y => !r x y) = decide (f x = f (best r a l)) := by
  have hbest : best r a l ∈ a :: l := List.mem_of_find?_eq_some (find?_best h l a hP)
  rw [Bool.eq_iff_iff, List.all_eq_true, decide_eq_true_iff]
  constructor
  · intro hall
    refine le_antisymm (le_best h l a hP x hx) (not_lt.1 fun hlt => ?_)
    simpa [(h _ _ (hP x hx) (hP _ hbest)).2 hlt] using hall _ hbest
  · intro heq y hy
    rw [Bool.not_eq_true', ← Bool.not_eq_true, h _ _ (hP x hx) (hP y hy), heq]
    exact not_lt.2 (le_best h l a hP y hy)

end Best

/-- A running choice among numbers, by the order of their points or its dual. -/
theorem find?_same_best {r : Num → Num → Bool} {f : Num → β} [LinearOrder β]
    (hr : ∀ a b : Num, a.isNaN = false → b.isNaN = false → (r a b = true ↔ f a < f b))
    (hf : ∀ a b : Num, f a = f b ↔ a.point = b.point) {n : Num} {ns : List Num}
    (h : ∀ x ∈ n :: ns, x.isNaN = false) :
    (n :: ns).find? (fun x => x.same (best r n ns)) = some (best r n ns) ∧
      ∀ x ∈ n :: ns, ((n :: ns).all fun y => !r x y) = x.same (best r n ns) := by
  have hbest := find?_best hr ns n h
  have hmem : best r n ns ∈ n :: ns := List.mem_of_find?_eq_some hbest
  have hsame : ∀ x ∈ n :: ns, decide (f x = f (best r n ns)) = x.same (best r n ns) := by
    intro x hx
    rw [Bool.eq_iff_iff, decide_eq_true_iff, hf, same_iff (h x hx) (h _ hmem)]
  refine ⟨?_, fun x hx => (all_not_eq_decide hr h hx).trans (hsame x hx)⟩
  rw [List.find?_eq_some_iff_getElem] at hbest ⊢
  obtain ⟨hb, i, hi, heq, hlt⟩ := hbest
  refine ⟨by rwa [← hsame _ hmem], i, hi, heq, fun j hj => ?_⟩
  rw [← hsame _ (List.getElem_mem _)]
  exact hlt j hj

/-- The maximum is the first of the numbers that no other one exceeds. -/
theorem find?_same_maximum {n : Num} {ns : List Num} (h : ∀ x ∈ n :: ns, x.isNaN = false) :
    (n :: ns).find? (fun x => x.same (maximum n ns)) = some (maximum n ns) ∧
      ∀ x ∈ n :: ns, ((n :: ns).all fun y => !x.lt y) = x.same (maximum n ns) :=
  find?_same_best (f := point) (fun _ _ => lt_iff) (fun _ _ => Iff.rfl) h

/-- The minimum is the first of the numbers that exceed no other one. -/
theorem find?_same_minimum {n : Num} {ns : List Num} (h : ∀ x ∈ n :: ns, x.isNaN = false) :
    (n :: ns).find? (fun x => x.same (minimum n ns)) = some (minimum n ns) ∧
      ∀ x ∈ n :: ns, ((n :: ns).all fun y => !y.lt x) = x.same (minimum n ns) :=
  find?_same_best (r := fun a b => b.lt a) (f := fun n => OrderDual.toDual n.point)
    (fun _ _ ha hb => (lt_iff hb ha).trans OrderDual.toDual_lt_toDual.symm)
    (fun _ _ => OrderDual.toDual_inj) h

end Num

end RollTray
