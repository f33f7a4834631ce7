import RollTray.Proofs.Number.Nearest

/-!
# How the arithmetic of floats rounds

The arithmetic of floats keeps two bits of what it shifts out of a number, and these say how the
number is rounded (`roundedMantissa_shiftRight`). So from one on, it rounds to the nearest float
(`pack_round`), and the sum of an integer and a half is the float nearest to that number
(`add_half`).
-/

namespace RollTray

open Float.Model (Format UnpackedFloat)
open Float.Model.UnpackedFloat

/-! ## Shifting -/

/-- What is left of a number after it was shifted. -/
theorem shiftRight_exact (m n : Nat) : (⟨m, false, false⟩ : ExtendedMantissa) >>> n =
    ⟨m / 2 ^ n, decide (2 ^ n ≤ 2 * (m % 2 ^ n)), decide (2 * (m % 2 ^ n) % 2 ^ n ≠ 0)⟩ := by
  induction n with
  | zero =>
    show (⟨m, false, false⟩ : ExtendedMantissa) = _
    simp [Nat.mod_one]
  | succ n ih =>
    show ((⟨m, false, false⟩ : ExtendedMantissa) >>> n).shiftRightOne = _
    rw [ih]
    have hpos := Nat.two_pow_pos n
    have hr := Nat.mod_lt m hpos
    have hmod : m % (2 ^ n * 2) = m % 2 ^ n + 2 ^ n * (m / 2 ^ n % 2) := Nat.mod_mul
    have hb : m / 2 ^ n % 2 < 2 := Nat.mod_lt _ (by decide)
    rw [Nat.pow_succ, hmod]
    refine congr (congrArg₂ ExtendedMantissa.mk ?_ ?_) ?_
    · exact Nat.div_div_eq_div_mul ..
    · rw [Bool.eq_iff_iff, bne_iff_ne, decide_eq_true_iff]
      generalize m / 2 ^ n % 2 = b at hb ⊢
      generalize m % 2 ^ n = r at hr ⊢
      generalize 2 ^ n = u at hpos hr ⊢
      rcases Nat.le_one_iff_eq_zero_or_eq_one.1 (Nat.le_of_lt_succ hb) with rfl | rfl <;> omega
    · rw [Bool.eq_iff_iff, Bool.or_eq_true, decide_eq_true_iff, decide_eq_true_iff,
        decide_eq_true_iff]
      clear hmod ih
      generalize m / 2 ^ n % 2 = b
      generalize m % 2 ^ n = r at hr ⊢
      generalize 2 ^ n = u at hpos hr ⊢
      have htwice : 2 * (r + u * b) % (u * 2) = 2 * r := by
        rw [Nat.mul_add, ← Nat.mul_assoc, Nat.mul_comm 2 u, Nat.add_mul_mod_self_left,
          Nat.mod_eq_of_lt (by omega)]
      rw [htwice]
      by_cases hhalf : u ≤ 2 * r
      · exact iff_of_true (.inl hhalf) (by omega)
      · rw [Nat.mod_eq_of_lt (by omega)]
        omega

/-- A number that is shifted and rounded is divided and rounded. -/
theorem roundedMantissa_shiftRight (m n : Nat) :
    ((⟨m, false, false⟩ : ExtendedMantissa) >>> n).roundedMantissa = roundDiv m (2 ^ n) := by
  have hpos := Nat.two_pow_pos n
  have hr := Nat.mod_lt m hpos
  rw [shiftRight_exact]
  unfold roundDiv
  dsimp only
  generalize 2 ^ n = u at *
  rcases Nat.lt_trichotomy (2 * (m % u)) u with hlt | heq | hgt
  · rw [decide_eq_false (by omega), if_pos hlt]
    cases decide (2 * (m % u) % u ≠ 0) <;> rfl
  · rw [decide_eq_true heq.ge, decide_eq_false (by rw [heq, Nat.mod_self]; decide),
      if_neg heq.not_lt, if_neg heq.not_gt]
    rfl
  · have hsticky : 2 * (m % u) % u ≠ 0 := by
      rw [Nat.mod_eq_sub_mod hgt.le, Nat.mod_eq_of_lt (by omega)]
      omega
    rw [decide_eq_true hgt.le, decide_eq_true hsticky, if_neg hgt.not_gt, if_pos hgt]
    rfl

/-! ## Packing -/

theorem toNat_packComponents (s : Sign) (e : BitVec 11) (m : BitVec 52) :
    (packComponents Format.binary64 s e m).toNat =
      s.toBitVec.toNat * 2 ^ 63 + e.toNat * 2 ^ 52 + m.toNat := by
  have he := e.isLt
  have hm := m.isLt
  show (s.toBitVec ++ e ++ m).toNat = _
  rw [BitVec.toNat_append, ← Nat.shiftLeft_add_eq_or_of_lt hm, BitVec.toNat_append,
    ← Nat.shiftLeft_add_eq_or_of_lt he, Nat.shiftLeft_eq, Nat.shiftLeft_eq]
  omega

/-- A number of 53 digits is packed by its count, unless that is too large. -/
theorem toNat_pack {m : Nat} {e : Int} (hm : 0 < m) (hlow : 2 ^ 52 ≤ m) (hhigh : m < 2 ^ 53)
    (he : -1074 ≤ e) :
    (pack Format.binary64 (.finite .positive m e hm)).toNat =
      min ((e + 1074).toNat * 2 ^ 52 + m) (2047 * 2 ^ 52) := by
  have hlog : m.log2 + 1 = Format.binary64.mantissaBits := by
    have : m.log2 = 52 := by
      apply Nat.le_antisymm
      · exact Nat.lt_succ_iff.1 ((Nat.log2_lt hm.ne').2 hhigh)
      · exact (Nat.le_log2 hm.ne').2 hlow
    rw [this]
    rfl
  have hbiased : e + (Format.binary64.exponentBias : Int) +
      (Format.binary64.mantissaBitsWithoutImplicit : Int) =
      e + 1075 := by
    show e + 1023 + 52 = _
    omega
  unfold pack
  dsimp only
  rw [hbiased]
  split
  · rename_i hlarge
    change 2 ^ 11 ≤ _ at hlarge
    rw [packedInfinity, toNat_packComponents]
    have hfields : Sign.positive.toBitVec.toNat = 0 ∧ (-1#11).toNat = 2047 := by decide
    rw [hfields.1, hfields.2]
    show 0 * 2 ^ 63 + 2047 * 2 ^ 52 + (0#52).toNat = _
    rw [BitVec.toNat_zero]
    clear hbiased hlog
    omega
  · rename_i hsmall
    change ¬2 ^ 11 ≤ _ at hsmall
    rw [toNat_packComponents, BitVec.toNat_ofNat, BitVec.toNat_ofNat]
    show 0 * 2 ^ 63 + (e + 1075).toNat % 2 ^ 11 * 2 ^ 52 + m % 2 ^ 52 = _
    clear hbiased hlog
    omega

/-! ## Rounding -/

theorem targetExponent_eq (total : Int) :
    Format.binary64.targetExponent total = max (total - 53) (-1074) := rfl

theorem shiftToTargetExponent_exact {m : Nat} {e t : Int}
    (ht : Format.binary64.targetExponent (Float.Model.totalExponent m e) = t) (hle : e ≤ t) :
    shiftToTargetExponent Format.binary64 m e .exact =
      ((⟨m, false, false⟩ : ExtendedMantissa) >>> (t - e).toNat, t) := by
  unfold shiftToTargetExponent shiftToExponent
  dsimp only
  rw [ht, Int.toNat_of_nonneg (by omega), show e + (t - e) = t by omega]
  rfl

theorem log2_eq_of_digits {m : Nat} (hlow : 2 ^ 52 ≤ m) (hhigh : m < 2 ^ 53) : m.log2 = 52 := by
  have hm : m ≠ 0 := by omega
  exact Nat.le_antisymm (Nat.lt_succ_iff.1 ((Nat.log2_lt hm).2 hhigh)) ((Nat.le_log2 hm).2 hlow)

/-- A number is rounded at the exponent of the last of its 53 digits; if they become the next
power of two, the exponent is one more. -/
theorem roundWithAccuracy_exact {m digits : Nat} {e t : Int} (s : Sign)
    (ht : Format.binary64.targetExponent (Float.Model.totalExponent m e) = t) (hle : e ≤ t)
    (hmin : -1074 ≤ t) (hdigits : roundDiv m (2 ^ (t - e).toNat) = digits) (hlow : 2 ^ 52 ≤ digits)
    (hhigh : digits ≤ 2 ^ 53) : ∃ hm, roundWithAccuracy Format.binary64 s m e .exact =
      .finite s (if digits = 2 ^ 53 then 2 ^ 52 else digits) (if digits = 2 ^ 53 then t + 1 else t)
        hm := by
  unfold roundWithAccuracy
  rw [shiftToTargetExponent_exact ht hle]
  dsimp only
  rw [roundedMantissa_shiftRight, hdigits]
  rcases Nat.lt_or_eq_of_le hhigh with hlt | rfl
  · have htarget : Format.binary64.targetExponent (Float.Model.totalExponent digits t) = t := by
      rw [targetExponent_eq, Float.Model.totalExponent, log2_eq_of_digits hlow hlt]
      omega
    rw [shiftToTargetExponent_exact htarget le_rfl, Int.sub_self, shiftRight_exact, if_neg hlt.ne,
      if_neg hlt.ne]
    dsimp only [Int.toNat_zero]
    simp only [Nat.pow_zero, Nat.div_one]
    exact ⟨by omega, dif_neg (by omega)⟩
  · have htarget :
        Format.binary64.targetExponent (Float.Model.totalExponent (2 ^ 53) t) = t + 1 := by
      rw [targetExponent_eq, Float.Model.totalExponent, Nat.log2_two_pow]
      omega
    rw [shiftToTargetExponent_exact htarget (by omega), show t + 1 - t = 1 by omega,
      shiftRight_exact, if_pos rfl, if_pos rfl]
    have hhalf : 2 ^ 53 / 2 ^ Int.toNat 1 = 2 ^ 52 := by decide
    dsimp only
    rw [hhalf]
    exact ⟨by decide, dif_neg (by decide)⟩

theorem eq_of_toModel {x y : Float} (h : x.toModel = y.toModel) : x = y := by
  cases x
  cases y
  cases h
  rfl

theorem eq_of_toNat {x y : Float.Model} (h : x.toBits.toNat = y.toBits.toNat) : x = y := by
  cases x
  cases y
  simpa [UInt64.toNat_inj] using h

theorem log2_mul_two_pow {m : Nat} (hm : m ≠ 0) (k : Nat) : (m * 2 ^ k).log2 = m.log2 + k := by
  rw [Nat.log2_eq_iff (Nat.mul_pos (Nat.pos_of_ne_zero hm) (Nat.two_pow_pos k)).ne', Nat.pow_add,
    Nat.add_right_comm, Nat.pow_add _ _ k]
  exact ⟨Nat.mul_le_mul_right _ (Nat.log2_self_le hm),
    Nat.mul_lt_mul_of_pos_right Nat.lt_log2_self (Nat.two_pow_pos k)⟩

theorem leading_two_pow {m k : Nat} (h : 2 ^ k ≤ m) : Leading m (2 ^ k) (m.log2 - k) := by
  have hpos : m ≠ 0 := (Nat.lt_of_lt_of_le (Nat.two_pow_pos k) h).ne'
  have hk : k ≤ m.log2 := (Nat.le_log2 hpos).2 h
  constructor
  · rw [← Nat.pow_add, Nat.add_sub_cancel' hk]
    exact Nat.log2_self_le hpos
  · rw [← Nat.pow_add, ← Nat.add_assoc, Nat.add_sub_cancel' hk]
    exact Nat.lt_log2_self

/-- A number of fewer than 53 digits gets as many zeros as it is short of them before it is rounded. -/
theorem round_eq {m k : Nat} (h : 2 ^ k ≤ m) :
    round Format.binary64 .positive m (-k : Int) =
      roundWithAccuracy Format.binary64 .positive (m * 2 ^ (52 - m.log2))
        (-k - (52 - m.log2 : Nat) : Int) .exact := by
  have hk : k ≤ m.log2 := (Nat.le_log2 (Nat.lt_of_lt_of_le (Nat.two_pow_pos k) h).ne').2 h
  have htarget : Format.binary64.targetExponent (Float.Model.totalExponent m (-k : Int)) =
      ((m.log2 - k : Nat) : Int) - 52 := by
    rw [targetExponent_eq, Float.Model.totalExponent]
    omega
  unfold UnpackedFloat.round
  rw [htarget]
  unfold decreaseExponent
  dsimp only
  rw [Nat.shiftLeft_eq,
    show ((-k : Int) - (((m.log2 - k : Nat) : Int) - 52)).toNat = 52 - m.log2 by omega]

/-- The 53 digits of a number are packed as a float of their size. -/
theorem pack_digits {digits place : Nat} (hlow : 2 ^ 52 ≤ digits) (hhigh : digits ≤ 2 ^ 53)
    (hpos : 0 < if digits = 2 ^ 53 then 2 ^ 52 else digits) :
    Float.Model.pack (.finite .positive (if digits = 2 ^ 53 then 2 ^ 52 else digits)
        (if digits = 2 ^ 53 then (place : Int) - 52 + 1 else (place : Int) - 52) hpos) =
      (ofSize false ((place + 1022) * 2 ^ 52 + digits)).toModel := by
  refine eq_of_toNat ?_
  show (pack Format.binary64 _).toNat = (ofSize _ _).toBits.toNat
  rw [toBits_ofSize, if_neg Bool.false_ne_true, Nat.zero_add]
  rcases Nat.lt_or_eq_of_le hhigh with hlt | heq
  · simp only [if_neg hlt.ne]
    rw [toNat_pack _ hlow hlt (by omega)]
    congr 3
    omega
  · simp only [if_pos heq]
    rw [toNat_pack _ le_rfl (by decide) (by omega), heq]
    have hsum : 2 ^ 52 + 2 ^ 52 = 2 ^ 53 := by decide
    rw [show ((place : Int) - 52 + 1 + 1074).toNat = place + 1022 + 1 by omega,
      Nat.succ_mul (place + 1022), Nat.add_assoc, hsum]

/-- The rounding of the arithmetic, from one on. -/
theorem pack_round {m k : Nat} (h : 2 ^ k ≤ m) :
    Float.Model.pack (round Format.binary64 .positive m (-k : Int)) =
      (nearest false m (2 ^ k)).toModel := by
  have hpos : m ≠ 0 := (Nat.lt_of_lt_of_le (Nat.two_pow_pos k) h).ne'
  have hk : k ≤ m.log2 := (Nat.le_log2 hpos).2 h
  have hlead := leading_two_pow h
  have hexponent : Format.binary64.targetExponent (Float.Model.totalExponent (m * 2 ^ (52 - m.log2))
      (-k - (52 - m.log2 : Nat) : Int)) = ((m.log2 - k : Nat) : Int) - 52 := by
    rw [targetExponent_eq, Float.Model.totalExponent, log2_mul_two_pow hpos]
    omega
  have hdigits : roundDiv (m * 2 ^ (52 - m.log2)) (2 ^ ((((m.log2 - k : Nat) : Int) - 52) -
      (-k - (52 - m.log2 : Nat) : Int)).toNat) = leadingDigits m (2 ^ k) (m.log2 - k) := by
    refine roundDiv_congr (Nat.two_pow_pos _) hlead.down_pos ?_
    rw [← Nat.pow_add, Nat.mul_assoc, Nat.mul_assoc, ← Nat.pow_add, ← Nat.pow_add]
    congr 2
    omega
  obtain ⟨hm, hround⟩ := roundWithAccuracy_exact .positive hexponent (by omega) (by omega) hdigits
    hlead.le_digits hlead.digits_le
  rw [round_eq h, hround, hlead.nearest_eq]
  exact pack_digits hlead.le_digits hlead.digits_le hm

/-! ## A half more -/

theorem unpack_half :
    (0.5 : Float).toModel.unpack = .finite .positive (2 ^ 52) (-53) (by decide) := rfl

theorem normalize_natCast {m : Nat} (hm : 0 < m) (e : Int) (s : Sign) :
    UnpackedFloat.normalize Format.binary64 m e s =
      UnpackedFloat.round Format.binary64 .positive m e := by
  have hgt : compare (m : Int) 0 = .gt := compare_gt_iff_gt.2 (by omega)
  unfold UnpackedFloat.normalize
  rw [hgt]
  rfl

/-- The sum of a number and a half, before it is rounded. -/
theorem add_half_eq {x : Float} {m : Nat} {q : Int} (h : FloatForm.of x = .finite false m q)
    (hm : 0 < m) (hq : -53 ≤ q) : (x + 0.5).toModel = Float.Model.pack
      (UnpackedFloat.round Format.binary64 .positive (m * 2 ^ (q + 53).toNat + 2 ^ 52) (-53)) := by
  show Float.Model.pack
    (UnpackedFloat.add Format.binary64 x.toModel.unpack (0.5 : Float).toModel.unpack) = _
  rw [unpack_of_form h hm, unpack_half]
  unfold UnpackedFloat.add
  dsimp only
  rw [min_eq_right hq]
  unfold decreaseExponent
  dsimp only
  rw [Nat.shiftLeft_eq, Nat.shiftLeft_eq, show q - -53 = q + 53 by omega]
  have hsum : Sign.positive.apply ((m * 2 ^ (q + 53).toNat : Nat) : Int) +
      Sign.positive.apply ((2 ^ 52 * 2 ^ ((-53 : Int) - -53).toNat : Nat) : Int) =
        ((m * 2 ^ (q + 53).toNat + 2 ^ 52 : Nat) : Int) := by
    show ((m * 2 ^ (q + 53).toNat : Nat) : Int) + ((2 ^ 52 * 2 ^ 0 : Nat) : Int) = _
    omega
  rw [hsum, normalize_natCast (by omega)]

theorem leading_half {n : Nat} (hn : 0 < n) : Leading (2 * n + 1) 2 n.log2 := by
  have hlow := Nat.log2_self_le hn.ne'
  have hhigh : n < 2 ^ (n.log2 + 1) := Nat.lt_log2_self
  exact ⟨by omega, by omega⟩

/-- A half is added to an integer from one on. -/
theorem add_half {x : Float} {n : Nat} (hx : (FloatForm.of x).Holds false n 1) (hn : 0 < n) :
    x + 0.5 = nearest false (2 * n + 1) 2 := by
  obtain ⟨m, q, hform, hvalue⟩ := hx
  rw [Nat.mul_one] at hvalue
  have hm : 0 < m := Nat.pos_of_mul_pos_right (hvalue ▸ Nat.mul_pos hn (Nat.two_pow_pos _))
  have hq : -53 ≤ q := by
    by_contra hlt
    have hup : q.toNat = 0 := by omega
    have hlt := significand_lt hform
    have : 2 ^ 53 ≤ n * 2 ^ (-q).toNat :=
      (Nat.pow_le_pow_right Nat.two_pos (by omega)).trans (Nat.le_mul_of_pos_left _ hn)
    rw [hup, Nat.pow_zero, Nat.mul_one] at hvalue
    omega
  have hscaled : m * 2 ^ (q + 53).toNat = n * 2 ^ 53 := by
    refine Nat.eq_of_mul_eq_mul_right (Nat.two_pow_pos (-q).toNat) ?_
    calc m * 2 ^ (q + 53).toNat * 2 ^ (-q).toNat = m * 2 ^ q.toNat * 2 ^ 53 := by
          rw [Nat.mul_assoc, Nat.mul_assoc, ← Nat.pow_add, ← Nat.pow_add]
          congr 2
          omega
      _ = n * 2 ^ 53 * 2 ^ (-q).toNat := by rw [hvalue]; ring
  have hsum := add_half_eq hform hm hq
  rw [hscaled] at hsum
  have hround : (x + 0.5).toModel = (nearest false (n * 2 ^ 53 + 2 ^ 52) (2 ^ 53)).toModel :=
    hsum.trans (pack_round (k := 53) (by omega))
  rw [eq_of_toModel hround]
  exact (leading_half hn).nearest_congr _ (Nat.two_pow_pos _) (by ring)

end RollTray
