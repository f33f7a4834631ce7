import RollTray.Proofs.Number.Order
import RollTray.Proofs.Number.Rounding

/-!
# Rounding integers to tenths

An integer is rounded by way of floats: ten times its size becomes the nearest float, and a tenth of
that the nearest float again. What the second step makes of the first is a matter of arithmetic
(`digits_eq_iff`).
-/

namespace RollTray

/-! ## A tenth of a whole float -/

theorem two_pow_split (place : Nat) : 2 ^ place * 2 ^ (52 - place) = 2 ^ 52 * 2 ^ (place - 52) := by
  rw [← Nat.pow_add, ← Nat.pow_add]
  congr 1
  omega

/-- Five units of a digit 52 places below the leading one, in two scales. -/
theorem scaled_eq (b place : Nat) : (b * 2 ^ 52 + 5 * 2 ^ place) * 2 ^ (52 - place) =
    (b * 2 ^ (52 - place) + 5 * 2 ^ (place - 52)) * 2 ^ 52 := by
  rw [Nat.add_mul, Nat.mul_assoc 5, two_pow_split]
  ring

theorem lt_scaled_iff (a b place : Nat) : a * 2 ^ 52 < b * 2 ^ 52 + 5 * 2 ^ place ↔
    a * 2 ^ (52 - place) < b * 2 ^ (52 - place) + 5 * 2 ^ (place - 52) := by
  rw [← Nat.mul_lt_mul_right (Nat.two_pow_pos (52 - place)), scaled_eq, Nat.mul_right_comm,
    Nat.mul_lt_mul_right (Nat.two_pow_pos 52)]

theorem le_scaled_iff (a b place : Nat) : a * 2 ^ 52 ≤ b * 2 ^ 52 + 5 * 2 ^ place ↔
    a * 2 ^ (52 - place) ≤ b * 2 ^ (52 - place) + 5 * 2 ^ (place - 52) := by
  rw [← Nat.mul_le_mul_right_iff (Nat.two_pow_pos (52 - place)), scaled_eq, Nat.mul_right_comm,
    Nat.mul_le_mul_right_iff (Nat.two_pow_pos 52)]

theorem Leading.unique {num den place place' : Nat} (h : Leading num den place)
    (h' : Leading num den place') : place = place' := by
  have hle : ∀ p p', Leading num den p → Leading num den p' → p ≤ p' := by
    intro p p' hp hp'
    have hlt := Nat.lt_of_mul_lt_mul_left (hp.low.trans_lt hp'.high)
    exact Nat.lt_succ_iff.1 ((Nat.pow_lt_pow_iff_right (by decide)).1 hlt)
  exact Nat.le_antisymm (hle _ _ h h') (hle _ _ h' h)

/-- A whole float from a power of two on has zeros from 52 places below it on. -/
theorem two_pow_dvd_of_le {n place : Nat} (hn : nearestWhole n = n) (h : 2 ^ place ≤ n) :
    2 ^ (place - 52) ∣ n := by
  have hzero : n ≠ 0 := (Nat.lt_of_lt_of_le (Nat.two_pow_pos place) h).ne'
  have hplace : place ≤ n.log2 := (Nat.le_log2 hzero).2 h
  exact (pow_dvd_pow 2 (Nat.sub_le_sub_right hplace 52)).trans ((nearestWhole_eq_iff n).1 hn)

/-- So many tenths are next to a whole float: less than half a unit of its last digit away. -/
structure TenthsOf (tenths n : Nat) : Prop where
  whole : nearestWhole n = n
  low : 10 * n * 2 ^ 52 < tenths * 2 ^ 52 + 5 * 2 ^ n.log2
  high : tenths * 2 ^ 52 < 10 * n * 2 ^ 52 + 5 * 2 ^ n.log2

variable {tenths n place : Nat}

/-- From eight units of a power of two on, tenths have no digits five below it. -/
theorem two_pow_dvd_tenths (htenths : nearestWhole tenths = tenths)
    (h : 8 * 2 ^ place ≤ tenths) : 2 ^ (place + 3 - 52) ∣ tenths := by
  refine two_pow_dvd_of_le htenths ?_
  rw [Nat.pow_add, Nat.mul_comm]
  exact h

/-- Below the place of the last of 53 digits, half a unit of it is no integer. -/
theorem ne_add_half_of_lt (a b : Nat) (h : place < 52) : a * 2 ^ 52 ≠ b * 2 ^ 52 + 5 * 2 ^ place := by
  have hsplit : 2 ^ 52 = 2 ^ place * (2 * 2 ^ (51 - place)) := by
    rw [← Nat.pow_succ' (m := 2), ← Nat.pow_add]
    congr 1
    omega
  generalize 2 ^ 52 = whole at hsplit
  subst hsplit
  intro heq
  have hhalves : 2 * (a * 2 ^ (51 - place)) = 2 * (b * 2 ^ (51 - place)) + 5 := by
    refine Nat.eq_of_mul_eq_mul_right (Nat.two_pow_pos place) ?_
    linarith
  omega

/-- Two even multiples of a unit are not five units apart. -/
theorem ne_add_five_units {unit : Nat} (hunit : 0 < unit) (a b : Nat) :
    unit * (2 * a) ≠ unit * (2 * b) + 5 * unit := by
  intro heq
  rw [Nat.mul_comm 5, ← Nat.mul_add] at heq
  have := Nat.eq_of_mul_eq_mul_left hunit heq
  omega

/-- A whole float is not just half a unit away from a tenth of another one. -/
theorem tenths_ne (hn : nearestWhole n = n) (htenths : nearestWhole tenths = tenths)
    (hpos : n ≠ 0) : 10 * n * 2 ^ 52 ≠ tenths * 2 ^ 52 + 5 * 2 ^ n.log2 ∧
      tenths * 2 ^ 52 ≠ 10 * n * 2 ^ 52 + 5 * 2 ^ n.log2 := by
  rcases Nat.lt_or_ge n.log2 52 with hlt | hge
  · exact ⟨ne_add_half_of_lt _ _ hlt, ne_add_half_of_lt _ _ hlt⟩
  · have hsplit : 2 ^ n.log2 = 2 ^ (n.log2 - 52) * 2 ^ 52 := by
      rw [← Nat.pow_add, Nat.sub_add_cancel hge]
    have hlead := Nat.log2_self_le hpos
    have hunit := Nat.two_pow_pos (n.log2 - 52)
    obtain ⟨k, hk⟩ := (nearestWhole_eq_iff n).1 hn
    have hten : 10 * n = 2 ^ (n.log2 - 52) * (2 * (5 * k)) := by
      calc 10 * n = 10 * (2 ^ (n.log2 - 52) * k) := by rw [← hk]
        _ = 2 ^ (n.log2 - 52) * (2 * (5 * k)) := by ring
    -- as large as the equations make them, the tenths are a multiple of eight units
    have heights (hlarge : 8 * 2 ^ n.log2 ≤ tenths) : ∃ j, tenths = 2 ^ (n.log2 - 52) * (2 * (4 * j)) := by
      obtain ⟨j, hj⟩ := two_pow_dvd_tenths htenths hlarge
      rw [show n.log2 + 3 - 52 = n.log2 - 52 + 3 by omega, Nat.pow_add] at hj
      exact ⟨j, hj.trans (by ring)⟩
    constructor <;> intro h <;> obtain ⟨j, hj⟩ := heights (by omega)
    · refine ne_add_five_units hunit (5 * k) (4 * j) ?_
      rw [← hten, ← hj]
      omega
    · refine ne_add_five_units hunit (4 * j) (5 * k) ?_
      rw [← hten, ← hj]
      omega

namespace TenthsOf

theorem ne_zero (h : TenthsOf tenths n) (htenths : tenths ≠ 0) : n ≠ 0 := by
  rintro rfl
  have := h.high
  rw [Nat.log2_zero] at this
  omega

/-- The tenths are not below those of the power of two at or below the number. -/
theorem le_tenths (h : TenthsOf tenths n) (htenths : nearestWhole tenths = tenths) (hn : n ≠ 0) :
    10 * 2 ^ n.log2 ≤ tenths := by
  have hlow := (lt_scaled_iff _ _ _).1 h.low
  have hsplit := two_pow_split n.log2
  have hzeros := Nat.two_pow_pos (52 - n.log2)
  have hten : 10 * (2 ^ n.log2 * 2 ^ (52 - n.log2)) ≤ 10 * n * 2 ^ (52 - n.log2) := by
    rw [← Nat.mul_assoc]
    exact Nat.mul_le_mul_right _ (Nat.mul_le_mul_left 10 (Nat.log2_self_le hn))
  have height : 8 * 2 ^ n.log2 ≤ tenths := by
    by_contra hlt
    have hless := Nat.mul_lt_mul_of_pos_right (Nat.not_le.1 hlt) hzeros
    rw [Nat.mul_assoc] at hless
    omega
  -- both are multiples of eight units
  by_contra hlt
  have hpower : 2 ^ (n.log2 + 3 - 52) ∣ 10 * 2 ^ n.log2 :=
    Dvd.dvd.mul_left (pow_dvd_pow 2 (by omega)) 10
  have hgap : 2 ^ (n.log2 + 3 - 52) ≤ 10 * 2 ^ n.log2 - tenths :=
    Nat.le_of_dvd (by omega) (Nat.dvd_sub hpower (two_pow_dvd_tenths htenths height))
  have hunits : 2 ^ 3 * 2 ^ (n.log2 - 52) ≤ 2 ^ (n.log2 + 3 - 52) * 2 ^ (52 - n.log2) := by
    rw [← Nat.pow_add, ← Nat.pow_add]
    exact Nat.pow_le_pow_right Nat.two_pos (by omega)
  have hless := hunits.trans (Nat.mul_le_mul_right (2 ^ (52 - n.log2)) hgap)
  have hunit := Nat.two_pow_pos (n.log2 - 52)
  rw [Nat.sub_mul, Nat.mul_assoc 10] at hless
  omega

/-- The tenths have their leading digit where the number has it. -/
theorem leading (h : TenthsOf tenths n) (htenths : nearestWhole tenths = tenths) (hn : n ≠ 0) :
    Leading tenths 10 n.log2 := by
  refine ⟨h.le_tenths htenths hn, ?_⟩
  have hhigh := (lt_scaled_iff _ _ _).1 h.high
  have hpower : 2 ^ (n.log2 - 52) ∣ 2 ^ (n.log2 + 1) - n :=
    Nat.dvd_sub (pow_dvd_pow 2 (by omega)) ((nearestWhole_eq_iff n).1 h.whole)
  have hgap := Nat.le_of_dvd (Nat.sub_pos_of_lt Nat.lt_log2_self) hpower
  refine Nat.lt_of_mul_lt_mul_right (a := 2 ^ (52 - n.log2)) (hhigh.trans_le ?_)
  calc 10 * n * 2 ^ (52 - n.log2) + 5 * 2 ^ (n.log2 - 52) ≤
        10 * n * 2 ^ (52 - n.log2) + 10 * 2 ^ (n.log2 - 52) * 2 ^ (52 - n.log2) := by
        refine Nat.add_le_add_left (le_trans ?_ (Nat.le_mul_of_pos_right _ (Nat.two_pow_pos _))) _
        omega
    _ = 10 * (n + 2 ^ (n.log2 - 52)) * 2 ^ (52 - n.log2) := by ring
    _ ≤ 10 * 2 ^ (n.log2 + 1) * 2 ^ (52 - n.log2) :=
        Nat.mul_le_mul_right _ (Nat.mul_le_mul_left 10 (by omega))

/-- The nearest float is that number. -/
theorem digits (h : TenthsOf tenths n) :
    leadingDigits tenths 10 n.log2 * 2 ^ (n.log2 - 52) = n * 2 ^ (52 - n.log2) := by
  obtain ⟨k, hk⟩ := (nearestWhole_eq_iff n).1 h.whole
  have hlow := (lt_scaled_iff _ _ _).1 h.low
  have hhigh := (lt_scaled_iff _ _ _).1 h.high
  have hunit := Nat.two_pow_pos (n.log2 - 52)
  unfold leadingDigits
  generalize 2 ^ (n.log2 - 52) = unit at *
  generalize 2 ^ (52 - n.log2) = zeros at *
  have hshifted : k * zeros * unit = n * zeros := by
    rw [hk]
    ring
  have hten : k * zeros * (10 * unit) = 10 * n * zeros := by
    rw [hk]
    ring
  rw [← hshifted]
  refine congrArg (· * unit) (roundDiv_eq_of_lt (by omega) ?_ ?_)
  · rw [hten]
    linarith
  · rw [hten]
    linarith

end TenthsOf

theorem TenthsOf.of_digits (hlead : Leading tenths 10 place)
    (htenths : nearestWhole tenths = tenths)
    (h : leadingDigits tenths 10 place * 2 ^ (place - 52) = n * 2 ^ (52 - place)) :
    TenthsOf tenths n := by
  have hunit := Nat.two_pow_pos (place - 52)
  have hzeros := Nat.two_pow_pos (52 - place)
  have hsplit := two_pow_split place
  have hlow : 2 ^ place ≤ n := by
    refine Nat.le_of_mul_le_mul_right ?_ hzeros
    rw [hsplit, ← h]
    exact Nat.mul_le_mul_right _ hlead.le_digits
  have hhigh : n ≤ 2 ^ (place + 1) := by
    refine Nat.le_of_mul_le_mul_right ?_ hzeros
    rw [Nat.pow_succ', Nat.mul_assoc, hsplit, ← h, ← Nat.mul_assoc]
    exact Nat.mul_le_mul_right _ hlead.digits_le
  have hpos : n ≠ 0 := by
    have := Nat.two_pow_pos place
    omega
  have hlog : place ≤ n.log2 := (Nat.le_log2 hpos).2 hlow
  have hwhole : nearestWhole n = n := by
    rw [nearestWhole_eq_iff]
    rcases Nat.lt_or_eq_of_le hhigh with hlt | rfl
    · rw [Nat.le_antisymm (Nat.lt_succ_iff.1 ((Nat.log2_lt hpos).2 hlt)) hlog]
      rcases Nat.le_total place 52 with hle | hge
      · rw [Nat.sub_eq_zero_of_le hle]
        exact one_dvd n
      · rw [Nat.sub_eq_zero_of_le hge, Nat.pow_zero, Nat.mul_one] at h
        exact Dvd.intro_left _ h
    · rw [Nat.log2_two_pow]
      exact pow_dvd_pow 2 (by omega)
  obtain ⟨hbelow, habove⟩ := roundDiv_error (a := tenths * 2 ^ (52 - place)) hlead.down_pos
  change 2 * (leadingDigits tenths 10 place * _) ≤ _ at hbelow
  change _ ≤ 2 * (leadingDigits tenths 10 place * _) + _ at habove
  have hten : leadingDigits tenths 10 place * (10 * 2 ^ (place - 52)) =
      10 * n * 2 ^ (52 - place) := by
    rw [Nat.mul_left_comm, h, Nat.mul_assoc]
  rw [hten] at hbelow habove
  have hbelow : 10 * n * 2 ^ 52 ≤ tenths * 2 ^ 52 + 5 * 2 ^ place :=
    (le_scaled_iff _ _ _).2 (by omega)
  have habove : tenths * 2 ^ 52 ≤ 10 * n * 2 ^ 52 + 5 * 2 ^ place :=
    (le_scaled_iff _ _ _).2 (by omega)
  obtain ⟨hne, hne'⟩ := tenths_ne hwhole htenths hpos
  have hpower : 2 ^ place ≤ 2 ^ n.log2 := Nat.pow_le_pow_right Nat.two_pos hlog
  have hhigh := hbelow.trans (Nat.add_le_add_left (Nat.mul_le_mul_left 5 hpower) _)
  exact ⟨hwhole, lt_of_le_of_ne hhigh hne,
    lt_of_le_of_ne (habove.trans (Nat.add_le_add_left (Nat.mul_le_mul_left 5 hpower) _)) hne'⟩

/-- A tenth of a whole float is rounded to an integer just if that is next to it. -/
theorem digits_eq_iff (hlead : Leading tenths 10 place) (htenths : nearestWhole tenths = tenths) :
    leadingDigits tenths 10 place * 2 ^ (place - 52) = n * 2 ^ (52 - place) ↔ TenthsOf tenths n := by
  refine ⟨.of_digits hlead htenths, fun h => ?_⟩
  have hn := h.ne_zero hlead.num_pos.ne'
  rw [hlead.unique (h.leading htenths hn)]
  exact h.digits

/-! ## What is read off a float -/

namespace FloatForm

variable {form : FloatForm} {negative : Bool} {num den : Nat}

theorem Holds.floor (h : form.Holds false num den) (hden : 0 < den) :
    form.floor = some ((num / den : Nat) : Int) := by
  obtain ⟨m, q, rfl, hvalue⟩ := h
  refine congrArg some ?_
  split
  · rename_i hneg
    rw [show q.toNat = 0 by omega, show (-q).toNat = q.natAbs by omega, Nat.pow_zero, Nat.mul_one]
      at hvalue
    show (m : Int).fdiv (2 ^ q.natAbs : Nat) = _
    rw [Int.fdiv_eq_ediv_of_nonneg _ (Int.natCast_nonneg _), ← Int.natCast_ediv,
      ← Nat.mul_div_mul_right _ _ hden, hvalue, Nat.mul_comm _ den,
      Nat.mul_div_mul_right _ _ (Nat.two_pow_pos _)]
  · rename_i hpos
    rw [show q.toNat = q.natAbs by omega, show (-q).toNat = 0 by omega, Nat.pow_zero, Nat.mul_one]
      at hvalue
    show (m : Int) * (2 ^ q.natAbs : Nat) = _
    rw [← hvalue, Nat.mul_div_cancel _ hden]
    push_cast
    rfl

end FloatForm

namespace Num

/-- A float is tidied to an integer just if it stands for that. -/
theorem tidy_eq_int_iff {x : Float} {negative : Bool} {num den : Nat}
    (h : (FloatForm.of x).Holds negative num den) (hden : 0 < den) {w : Int} :
    tidy (float x) = int w ↔ ∃ n, num = n * den ∧ w = FloatForm.signed negative n := by
  obtain ⟨m, q, hform, hvalue⟩ := h
  have htruncate : (FloatForm.finite negative m q).truncate =
      some (FloatForm.signed negative (m * 2 ^ q.toNat / 2 ^ (-q).toNat)) := by
    refine congrArg some ?_
    show FloatForm.signed negative (if q < 0 then m / pow2 q.natAbs else m * pow2 q.natAbs) = _
    split
    · rw [show q.toNat = 0 by omega, show (-q).toNat = q.natAbs by omega, Nat.pow_zero, Nat.mul_one]
      rfl
    · rw [show q.toNat = q.natAbs by omega, show (-q).toNat = 0 by omega, Nat.pow_zero, Nat.div_one]
      rfl
  have hwhole : (FloatForm.finite negative m q).isWhole = true ↔
      2 ^ (-q).toNat ∣ m * 2 ^ q.toNat := by
    show (decide (0 ≤ q) || m % 2 ^ q.natAbs == 0) = true ↔ _
    by_cases hq : 0 ≤ q
    · rw [decide_eq_true hq, show (-q).toNat = 0 by omega, Nat.pow_zero]
      exact iff_of_true rfl (one_dvd _)
    · rw [decide_eq_false hq, Bool.false_or, beq_iff_eq, show q.toNat = 0 by omega,
        show (-q).toNat = q.natAbs by omega, Nat.pow_zero, Nat.mul_one, Nat.dvd_iff_mod_eq_zero]
  unfold tidy
  dsimp only
  rw [hform, htruncate]
  split
  · rename_i h
    obtain ⟨k, hk⟩ := hwhole.1 h
    rw [hk, Nat.mul_div_cancel_left _ (Nat.two_pow_pos _)]
    rw [hk, Nat.mul_right_comm, Nat.mul_comm num, Nat.mul_assoc] at hvalue
    have hnum := Nat.eq_of_mul_eq_mul_left (Nat.two_pow_pos _) hvalue
    rw [Nat.mul_comm] at hnum
    show int _ = int w ↔ _
    rw [int.injEq]
    constructor
    · rintro rfl
      exact ⟨k, hnum.symm, rfl⟩
    · rintro ⟨n, hn, rfl⟩
      rw [Nat.eq_of_mul_eq_mul_right hden (hnum.trans hn)]
  · rename_i h
    refine iff_of_false nofun ?_
    rintro ⟨n, rfl, -⟩
    refine h (hwhole.2 ⟨n, Nat.eq_of_mul_eq_mul_right hden ?_⟩)
    rw [hvalue]
    ring

/-- The sign of a float goes over to another one. -/
theorem holds_copySign {x y : Float} {negative : Bool} {num den : Nat}
    (h : (FloatForm.of x).Holds negative num den) :
    (FloatForm.of (copySign x y)).Holds (y.toBits.toNat / 2 ^ 63 == 1) num den := by
  obtain ⟨m, q, hform, hvalue⟩ := h
  refine ⟨m, q, ?_, hvalue⟩
  have hx := x.toBits.toNat_lt
  have hy := y.toBits.toNat_lt
  have hnat : (UInt64.ofNat (x.toBits.toNat % pow2 63 + y.toBits.toNat / pow2 63 * pow2 63)).toNat =
      x.toBits.toNat % 2 ^ 63 + y.toBits.toNat / 2 ^ 63 * 2 ^ 63 := by
    rw [UInt64.toNat_ofNat']
    show (x.toBits.toNat % 2 ^ 63 + y.toBits.toNat / 2 ^ 63 * 2 ^ 63) % 2 ^ 64 = _
    exact Nat.mod_eq_of_lt (by omega)
  have hexponent : x.toBits.toNat / 2 ^ 52 % 2 ^ 11 ≠ 2047 := by
    intro hfull
    rw [FloatForm.of_eq, if_pos hfull] at hform
    split at hform <;> cases hform
  have hbits : (copySign x y).toBits.toNat =
      x.toBits.toNat % 2 ^ 63 + y.toBits.toNat / 2 ^ 63 * 2 ^ 63 := by
    rw [copySign, toBits_ofBits, hnat]
    rw [hnat]
    intro hfull
    exact absurd (by omega) hexponent
  have hsign : ((copySign x y).toBits.toNat / 2 ^ 63 == 1) = (y.toBits.toNat / 2 ^ 63 == 1) := by
    rw [hbits, show (x.toBits.toNat % 2 ^ 63 + y.toBits.toNat / 2 ^ 63 * 2 ^ 63) / 2 ^ 63 =
      y.toBits.toNat / 2 ^ 63 by omega]
  rw [FloatForm.of_eq] at hform ⊢
  rw [hsign, hbits,
    show (x.toBits.toNat % 2 ^ 63 + y.toBits.toNat / 2 ^ 63 * 2 ^ 63) / 2 ^ 52 % 2 ^ 11 =
      x.toBits.toNat / 2 ^ 52 % 2 ^ 11 by omega,
    show (x.toBits.toNat % 2 ^ 63 + y.toBits.toNat / 2 ^ 63 * 2 ^ 63) % 2 ^ 52 =
      x.toBits.toNat % 2 ^ 52 by omega, if_neg hexponent]
  rw [if_neg hexponent] at hform
  split at hform
  · rename_i hzero
    obtain ⟨-, rfl, rfl⟩ := FloatForm.finite.inj hform
    rw [if_pos hzero]
  · rename_i hzero
    obtain ⟨-, rfl, rfl⟩ := FloatForm.finite.inj hform
    rw [if_neg hzero]

theorem ne_zero_of_holds {x : Float} {negative : Bool} {num den : Nat}
    (h : (FloatForm.of x).Holds negative num den) (hnum : num ≠ 0) : (x == 0) = false := by
  obtain ⟨m, q, hform, hvalue⟩ := h
  have hm : m ≠ 0 := by
    rintro rfl
    rw [Nat.zero_mul, Nat.zero_mul] at hvalue
    exact Nat.mul_ne_zero hnum (Nat.two_pow_pos _).ne' hvalue.symm
  rw [of_eq_formOf] at hform
  show Float.Model.UnpackedFloat.beq x.toModel.unpack (.zero .positive) = false
  generalize x.toModel.unpack = u at hform
  cases u with
  | notANumber => cases hform
  | infinity s => cases hform
  | zero s => exact absurd (FloatForm.finite.inj hform).2.1.symm hm
  | finite s m e hm => cases s <;> rfl

end Num

/-! ## Whole floats -/

theorem nearestWhole_nearestWhole (n : Nat) : nearestWhole (nearestWhole n) = nearestWhole n := by
  by_cases hn : n = 0
  · subst hn
    rfl
  have hpos : nearestWhole n ≠ 0 :=
    (Nat.lt_of_lt_of_le (Nat.two_pow_pos _) (nearestWhole_bounds hn).1).ne'
  rw [nearestWhole_eq_iff]
  rcases Nat.lt_or_eq_of_le (nearestWhole_bounds hn).2 with hlt | heq
  · refine dvd_trans (pow_dvd_pow 2 (Nat.sub_le_sub_right ?_ 52)) (two_pow_dvd_nearestWhole n)
    exact Nat.lt_succ_iff.1 ((Nat.log2_lt hpos).2 hlt)
  · rw [heq, Nat.log2_two_pow]
    exact pow_dvd_pow 2 (Nat.sub_le _ _)

/-- What is below the limit is not rounded to it. -/
theorem nearestWhole_lt {n unit : Nat} (h : n < (2 ^ 54 - 1) * 2 ^ unit) :
    nearestWhole n < (2 ^ 54 - 1) * 2 ^ unit := by
  have hunit := Nat.two_pow_pos unit
  by_cases hn : n = 0
  · subst hn
    exact h
  rcases Nat.lt_or_ge n.log2 (53 + unit) with hlt | hge
  · have hle := (nearestWhole_bounds hn).2.trans (Nat.pow_le_pow_right Nat.two_pos hlt)
    rw [Nat.pow_add] at hle
    omega
  · have hlog : n.log2 = 53 + unit := by
      refine Nat.le_antisymm (Nat.lt_succ_iff.1 ((Nat.log2_lt hn).2 ?_)) hge
      rw [show (53 + unit).succ = 54 + unit by omega, Nat.pow_add]
      omega
    have hup := le_roundDiv_iff_of_even (a := n) (b := 2 ^ unit * 2) (k := 2 ^ 53) (by omega) rfl
    have hdigits : roundDiv n (2 ^ unit * 2) ≤ 2 ^ 53 - 1 := by omega
    rw [nearestWhole, hlog, show 53 + unit - 52 = unit + 1 by omega, Nat.pow_succ]
    have := Nat.mul_le_mul_right (2 ^ unit * 2) hdigits
    omega

theorem nearestWhole_lt_floatLimit {n : Nat} (h : n < floatLimit) :
    nearestWhole n < floatLimit := by
  rw [floatLimit_eq] at h ⊢
  exact nearestWhole_lt h

/-- An even number stays even. -/
theorem even_nearestWhole {n : Nat} (h : n % 2 = 0) : nearestWhole n % 2 = 0 := by
  rcases Nat.lt_or_ge n (2 ^ 53) with hlt | hge
  · rw [nearestWhole_of_le hlt.le, h]
  · have hlog : 53 ≤ n.log2 := (Nat.le_log2 (by omega)).2 hge
    have hdvd : 2 ^ 1 ∣ nearestWhole n :=
      (pow_dvd_pow 2 (by omega)).trans (two_pow_dvd_nearestWhole n)
    omega

/-- A whole float of 53 digits or more is the float nearest to the number a half above it. -/
theorem nearest_half {n : Nat} (hn : 0 < n) (hwhole : nearestWhole n = n) (heven : n % 2 = 0)
    (hlog : 52 ≤ n.log2) : nearest false (2 * n + 1) 2 = nearest false n 1 := by
  have hunit := Nat.two_pow_pos (n.log2 - 52)
  obtain ⟨k, hk⟩ := (nearestWhole_eq_iff n).1 hwhole
  have hdigits : leadingDigits n 1 n.log2 = k := by
    rw [leadingDigits, Nat.sub_eq_zero_of_le hlog, Nat.pow_zero, Nat.mul_one, Nat.one_mul]
    generalize 2 ^ (n.log2 - 52) = unit at *
    rw [hk, Nat.mul_comm, roundDiv_mul_self hunit]
  have hhalf : leadingDigits (2 * n + 1) 2 n.log2 = k := by
    rw [leadingDigits, Nat.sub_eq_zero_of_le hlog, Nat.pow_zero, Nat.mul_one]
    rcases Nat.eq_or_lt_of_le hlog with heq | hlt
    · -- a tie, which goes to the even number
      rw [← heq, Nat.sub_self, Nat.pow_zero, Nat.one_mul] at hk
      rw [← heq, ← hk]
      unfold roundDiv
      dsimp only
      rw [if_neg (by omega), if_neg (by omega)]
      omega
    · have htwo : 2 ^ 1 ≤ 2 ^ (n.log2 - 52) := Nat.pow_le_pow_right Nat.two_pos (by omega)
      generalize 2 ^ (n.log2 - 52) = unit at *
      rw [Nat.mul_comm] at hk
      refine roundDiv_eq_of_lt (by omega) ?_ ?_ <;> rw [Nat.mul_left_comm k, ← hk] <;> omega
  rw [(leading_half hn).nearest_eq, (leading_log2 hn.ne').nearest_eq, hdigits, hhalf]

theorem floorOf_of_holds {x : Float} {num den : Nat} (h : (FloatForm.of x).Holds false num den)
    (hden : 0 < den) : Num.floorOf x = .ok ((num / den : Nat) : Int) := by
  have hfloor := h.floor hden
  obtain ⟨m, q, hform, -⟩ := h
  rw [hform] at hfloor
  unfold Num.floorOf
  rw [hform]
  dsimp only
  rw [hfloor]

theorem ten_le_nearestWhole {n : Nat} (h : 10 ≤ n) : 10 ≤ nearestWhole n := by
  rcases Nat.le_total n (2 ^ 53) with hle | hge
  · rwa [nearestWhole_of_le hle]
  · have hn : n ≠ 0 := by omega
    have hlog : 53 ≤ n.log2 := (Nat.le_log2 hn).2 hge
    have hlarge := (Nat.pow_le_pow_right Nat.two_pos hlog).trans (nearestWhole_bounds hn).1
    omega

/-- A whole float raised by a half is cut to itself. -/
theorem floorOf_nearest_half {n : Nat} (hn : 0 < n) (hwhole : nearestWhole n = n)
    (heven : n % 2 = 0)
    (hlimit : n < floatLimit) : Num.floorOf (nearest false (2 * n + 1) 2) = .ok (n : Int) := by
  rcases Nat.lt_or_ge n.log2 52 with hlt | hge
  · have hsmall : n < 2 ^ 52 := (Nat.log2_lt hn.ne').1 hlt
    have hfinite : (nearest false (2 * n + 1) 2).isInf = false :=
      isInf_nearest (by decide) (by omega)
    have hdigits : leadingDigits (2 * n + 1) 2 n.log2 = (2 * n + 1) * 2 ^ (51 - n.log2) := by
      rw [leadingDigits, Nat.sub_eq_zero_of_le hlt.le, Nat.pow_zero, Nat.mul_one,
        show 52 - n.log2 = 51 - n.log2 + 1 by omega, Nat.pow_succ, ← Nat.mul_assoc,
        roundDiv_mul_self Nat.two_pos]
    have hholds : (FloatForm.of (nearest false (2 * n + 1) 2)).Holds false (2 * n + 1) 2 := by
      refine ((leading_half hn).holds_nearest hfinite).congr (Nat.two_pow_pos _) ?_
      rw [hdigits, Nat.sub_eq_zero_of_le hlt.le, Nat.pow_zero, Nat.mul_one, Nat.mul_assoc,
        ← Nat.pow_succ, show (51 - n.log2).succ = 52 - n.log2 by omega]
    rw [floorOf_of_holds hholds Nat.two_pos, show (2 * n + 1) / 2 = n by omega]
  · have hholds := holds_nearestInt (n := n) (by simpa using hlimit)
    have hsign : decide ((n : Int) < 0) = false := decide_eq_false (by omega)
    rw [nearestInt, hsign, Int.natAbs_natCast, hwhole] at hholds
    rw [nearest_half hn hwhole heven hge, floorOf_of_holds hholds Nat.one_pos, Nat.div_one]

/-! ## Rounding -/

theorem leading_div {num den : Nat} (hden : 0 < den) (h : den ≤ num) :
    Leading num den (num / den).log2 := by
  have hpos : num / den ≠ 0 := (Nat.div_pos h hden).ne'
  constructor
  · rw [Nat.mul_comm]
    exact (Nat.le_div_iff_mul_le hden).1 (Nat.log2_self_le hpos)
  · rw [Nat.mul_comm]
    exact (Nat.div_lt_iff_lt_mul hden).1 Nat.lt_log2_self

theorem isInf_nearest_ten_of_lt {n unit : Nat} (hunit : unit + 53 = 1023)
    (h : n < (2 ^ 54 - 1) * 2 ^ unit)
    (negative : Bool) : (nearest negative n 10).isInf = false := by
  rcases Nat.lt_or_ge n 10 with hlt | hge
  · exact isInf_nearest (by decide) (by omega)
  have hlead := leading_div (show 0 < 10 by decide) hge
  generalize (n / 10).log2 = place at hlead
  have hplace : place < 53 + unit := by
    by_contra hle
    have hpow := Nat.pow_le_pow_right (n := 2) Nat.two_pos (Nat.not_lt.1 hle)
    have hlow := hlead.low
    have hpos := Nat.two_pow_pos unit
    rw [Nat.pow_add] at hpow
    omega
  have hdigits := hlead.digits_le
  rw [hlead.nearest_eq, Bool.eq_false_iff, Ne, isInf_ofSize_iff]
  omega

/-- A tenth of what is below the limit is finite. -/
theorem isInf_nearest_ten {n : Nat} (h : n < floatLimit) (negative : Bool) :
    (nearest negative n 10).isInf = false := by
  rw [floatLimit_eq] at h
  exact isInf_nearest_ten_of_lt rfl h negative

theorem natAbs_signed (negative : Bool) (n : Nat) : (FloatForm.signed negative n).natAbs = n := by
  cases negative
  · exact Int.natAbs_natCast n
  · exact (Int.natAbs_neg _).trans (Int.natAbs_natCast n)

namespace Num

theorem toFloat_int {n : Int} (h : n.natAbs < floatLimit) :
    (int n).toFloat = .ok (nearestInt n) := by
  have hfinite : ¬(nearestInt n).isInf = true := by
    rw [isInf_nearestInt_iff]
    omega
  exact if_neg hfinite

theorem toFloat_int_of_le {n : Int} (h : floatLimit ≤ n.natAbs) :
    (int n).toFloat = .error .overflow :=
  if_pos ((isInf_nearestInt_iff n).2 h)

/-- The size of an integer, scaled by ten and raised by a half. -/
def scaledSize (v : Int) : Except Fault Num := do
  (← (int v.natAbs).mul (int 10)).add (float 0.5)

theorem scaledSize_eq (v : Int) : scaledSize v =
    (int (10 * v.natAbs : Nat)).toFloat >>= fun x => .ok (float (x + 0.5)) := by
  have hten : (v.natAbs : Int) * 10 = (10 * v.natAbs : Nat) := by omega
  show viaFloat (· + ·) (int (v.natAbs * 10)) (float 0.5) = _
  rw [hten]
  rfl

theorem roundTenths_int {v : Int} (h : v.natAbs < floatLimit) : (int v).roundTenths = do
    let scaled ← (← scaledSize v).toFloat
    let tenths ← floorOf scaled
    let rounded ← (← (int tenths).div (int 10)).toFloat
    if rounded == 0 then return int 0
    return tidy (float (copySign rounded (nearestInt v))) := by
  have hfinite : (nearestInt v).isInf = false := by
    rw [Bool.eq_false_iff, Ne, isInf_nearestInt_iff]
    omega
  unfold roundTenths
  rw [toFloat_int h, ok_bind, isNaN_nearestInt, hfinite]
  rfl

/-- An integer of which ten times the size is too large is not rounded. -/
theorem roundTenths_of_le {v : Int} (h : floatLimit ≤ 10 * v.natAbs) :
    (int v).roundTenths = .error .overflow := by
  rcases Nat.lt_or_ge v.natAbs floatLimit with hlt | hge
  · rw [roundTenths_int hlt, scaledSize_eq, toFloat_int_of_le (by omega)]
    rfl
  · unfold roundTenths
    rw [toFloat_int_of_le hge]
    rfl

/-- Other integers are rounded to the float nearest to a tenth of the whole float nearest to ten
times their size. -/
theorem roundTenths_of_lt {v : Int} (hv : v ≠ 0) (h : 10 * v.natAbs < floatLimit) :
    (int v).roundTenths =
      .ok (tidy (float
        (copySign (nearest false (nearestWhole (10 * v.natAbs)) 10) (nearestInt v)))) := by
  have hpos : 0 < nearestWhole (10 * v.natAbs) :=
    Nat.lt_of_lt_of_le (Nat.two_pow_pos _) (nearestWhole_bounds (by omega)).1
  have hlimit := nearestWhole_lt_floatLimit h
  have hholds := holds_nearestInt (n := (10 * v.natAbs : Nat)) (by omega)
  rw [Int.natAbs_natCast, decide_eq_false (by omega)] at hholds
  rw [roundTenths_int (by omega), scaledSize_eq, toFloat_int (by omega), ok_bind, ok_bind]
  show (floorOf (nearestInt (10 * v.natAbs : Nat) + 0.5) >>= _) = _
  rw [add_half hholds hpos, floorOf_nearest_half hpos (nearestWhole_nearestWhole _)
    (even_nearestWhole (by omega)) hlimit, ok_bind]
  have hten : 10 ≤ nearestWhole (10 * v.natAbs) := ten_le_nearestWhole (by omega)
  have hfinite : (nearest false (nearestWhole (10 * v.natAbs)) 10).isInf = false :=
    isInf_nearest_ten hlimit false
  have hlead := leading_div (show 0 < 10 by decide) hten
  have hdiv : (int (nearestWhole (10 * v.natAbs) : Nat)).div (int 10) =
      .ok (float (nearest false (nearestWhole (10 * v.natAbs)) 10)) := by
    have hsign : decide ((nearestWhole (10 * v.natAbs) : Int) < 0) = false :=
      decide_eq_false (by omega)
    unfold Num.div
    dsimp only
    rw [if_neg (by decide), hsign, Int.natAbs_natCast]
    show (if (nearest false _ 10).isInf = true then _ else _) = _
    rw [hfinite]
    rfl
  have hzero : (nearest false (nearestWhole (10 * v.natAbs)) 10 == 0) = false :=
    ne_zero_of_holds (hlead.holds_nearest hfinite) (Nat.mul_ne_zero
      (Nat.lt_of_lt_of_le (by decide) hlead.le_digits).ne' (Nat.two_pow_pos _).ne')
  rw [hdiv, ok_bind]
  show (if (nearest false (nearestWhole (10 * v.natAbs)) 10 == 0) = true then _ else _) = _
  rw [hzero]
  rfl

/-- The sign bit of the float nearest to an integer. -/
theorem sign_nearestInt (v : Int) :
    ((nearestInt v).toBits.toNat / 2 ^ 63 == 1) = decide (v < 0) := by
  rw [nearestInt, nearest_eq, toBits_ofSize]
  have hle := Nat.min_le_right (if v.natAbs = 0 then 0 else nearestSize v.natAbs 1) (2047 * 2 ^ 52)
  generalize min (if v.natAbs = 0 then 0 else nearestSize v.natAbs 1) (2047 * 2 ^ 52) = size at hle
  generalize decide (v < 0) = negative
  cases negative
  · rw [beq_eq_false_iff_ne, if_neg Bool.false_ne_true]
    omega
  · rw [beq_iff_eq, if_pos rfl]
    omega

/-- Rounding to tenths leads from one integer to another one, perhaps the same. -/
structure RoundsTo (v w : Int) : Prop where
  below : 10 * v.natAbs < floatLimit
  tenths : TenthsOf (nearestWhole (10 * v.natAbs)) w.natAbs
  sign : w = FloatForm.signed (v < 0) w.natAbs

theorem roundTenths_zero : (int 0).roundTenths = .ok (int 0) := by
  decide +kernel

theorem roundsTo_zero_iff {w : Int} : RoundsTo 0 w ↔ w = 0 := by
  constructor
  · intro h
    have hw : w.natAbs = 0 := by
      by_contra hne
      have hlow := h.tenths.low
      have := Nat.log2_self_le hne
      change 10 * w.natAbs * 2 ^ 52 < 0 * 2 ^ 52 + _ at hlow
      omega
    omega
  · rintro rfl
    exact ⟨Nat.lt_of_lt_of_le (by decide) le_floatLimit, ⟨rfl, by decide, by decide⟩, rfl⟩

theorem roundTenths_eq_int_iff {v w : Int} : (int v).roundTenths = .ok (int w) ↔ RoundsTo v w := by
  by_cases hv : v = 0
  · subst hv
    rw [roundTenths_zero, roundsTo_zero_iff, Except.ok.injEq, int.injEq, eq_comm]
  rcases Nat.lt_or_ge (10 * v.natAbs) floatLimit with h | h
  · have hlimit := nearestWhole_lt_floatLimit h
    have hten : 10 ≤ nearestWhole (10 * v.natAbs) := ten_le_nearestWhole (by omega)
    have hfinite : (nearest false (nearestWhole (10 * v.natAbs)) 10).isInf = false :=
      isInf_nearest_ten hlimit false
    have hlead := leading_div (show 0 < 10 by decide) hten
    have hholds := holds_copySign (y := nearestInt v) (hlead.holds_nearest hfinite)
    have hdigits := fun n => digits_eq_iff (n := n) hlead (nearestWhole_nearestWhole _)
    rw [sign_nearestInt] at hholds
    rw [roundTenths_of_lt hv h, Except.ok.injEq, tidy_eq_int_iff hholds (Nat.two_pow_pos _)]
    constructor
    · rintro ⟨n, hn, rfl⟩
      rw [← natAbs_signed (decide (v < 0)) n] at hn
      exact ⟨h, (hdigits _).1 hn, by rw [natAbs_signed]⟩
    · intro hrounds
      exact ⟨w.natAbs, (hdigits _).2 hrounds.tenths, hrounds.sign⟩
  · rw [roundTenths_of_le h]
    exact iff_of_false nofun fun hrounds => Nat.not_le.2 hrounds.below h

/-- An integer is rounded, or ten times its size is too large. -/
theorem roundTenths_eq_error_iff {v : Int} {fault : Fault} :
    (int v).roundTenths = .error fault ↔ fault = .overflow ∧ floatLimit ≤ 10 * v.natAbs := by
  rcases Nat.lt_or_ge (10 * v.natAbs) floatLimit with h | h
  · refine iff_of_false ?_ fun hlarge => Nat.not_le.2 h hlarge.2
    by_cases hv : v = 0
    · subst hv
      rw [roundTenths_zero]
      nofun
    · rw [roundTenths_of_lt hv h]
      nofun
  · rw [roundTenths_of_le h, Except.error.injEq, eq_comm]
    exact (and_iff_left h).symm

/-- A number of which ten times is a whole float is one. -/
theorem nearestWhole_of_ten {n : Nat} (h : nearestWhole (10 * n) = 10 * n) :
    nearestWhole n = n := by
  by_cases hn : n = 0
  · subst hn
    rfl
  rcases Nat.le_total n.log2 52 with hle | hge
  · rw [nearestWhole_eq_iff, Nat.sub_eq_zero_of_le hle]
    exact one_dvd n
  · have hdvd : 2 ^ (n.log2 + 3 - 52) ∣ 10 * n :=
      two_pow_dvd_tenths h (Nat.mul_le_mul (by decide) (Nat.log2_self_le hn))
    have hcoprime : Nat.Coprime (2 ^ (n.log2 - 52)) 5 := Nat.Coprime.pow_left _ (by decide)
    rw [nearestWhole_eq_iff]
    refine hcoprime.dvd_of_dvd_mul_left (Nat.dvd_of_mul_dvd_mul_left Nat.two_pos ?_)
    rw [← Nat.pow_succ', ← Nat.mul_assoc]
    exact (pow_dvd_pow 2 (by omega)).trans hdvd

/-- An integer stays as it is if ten times its size is a float. -/
theorem roundsTo_self {v : Int} (hwhole : nearestWhole (10 * v.natAbs) = 10 * v.natAbs)
    (h : 10 * v.natAbs < floatLimit) : RoundsTo v v := by
  have hunit := Nat.two_pow_pos v.natAbs.log2
  refine ⟨h, ⟨nearestWhole_of_ten hwhole, ?_, ?_⟩, (FloatForm.signed_ofInt v).symm⟩
  · rw [hwhole]
    omega
  · rw [hwhole]
    omega

/-- The integers up to here stay as they are; the next one does not. -/
theorem roundsTo_self_of_le {v : Int} (h : v.natAbs ≤ 1801439850948198) : RoundsTo v v := by
  refine roundsTo_self ?_ ?_
  · rcases Nat.le_total (10 * v.natAbs) (2 ^ 53) with hle | hge
    · exact nearestWhole_of_le hle
    · have hlog : (10 * v.natAbs).log2 ≤ 53 :=
        Nat.lt_succ_iff.1 ((Nat.log2_lt (by omega)).2 (by omega))
      rw [nearestWhole_eq_iff]
      exact (pow_dvd_pow 2 (Nat.sub_le_sub_right hlog 52)).trans ⟨5 * v.natAbs, by omega⟩
  · exact Nat.lt_of_lt_of_le (by omega) le_floatLimit

example : ¬RoundsTo 1801439850948199 1801439850948199 :=
  fun h => absurd h.tenths.high (by decide +kernel)

end Num

end RollTray
