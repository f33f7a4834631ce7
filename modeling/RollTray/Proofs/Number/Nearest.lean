import RollTray.Proofs.Number.Floats

/-!
# The float nearest to a number from one on

A fraction from one on has a leading binary digit (`Leading`), and the float nearest to it has the
53 digits from there, rounded (`nearestSize_eq`). So the float nearest to an integer is infinite
from `2 ^ 1024 - 2 ^ 970` on (`isInf_nearestInt_iff`) and otherwise stands for the integer
`nearestWhole` (`holds_nearestInt`), which is the integer itself just if that has no more than 53
digits before its zeros (`nearestWhole_eq_iff`).
-/

namespace RollTray

open Float.Model (Format UnpackedFloat)
open Float.Model.UnpackedFloat (unpack unpackSign unpackExponent unpackMantissa Sign)

/-! ## Rounded division -/

theorem roundDiv_mul_mul {a b k : Nat} (hk : 0 < k) : roundDiv (a * k) (b * k) = roundDiv a b := by
  have hlt : 2 * (a % b * k) < b * k ↔ 2 * (a % b) < b := by
    rw [← Nat.mul_assoc, Nat.mul_lt_mul_right hk]
  have hgt : b * k < 2 * (a % b * k) ↔ b < 2 * (a % b) := by
    rw [← Nat.mul_assoc, Nat.mul_lt_mul_right hk]
  simp only [roundDiv, Nat.mul_div_mul_right _ _ hk, Nat.mul_mod_mul_right, hlt, hgt]

/-- Equal fractions round to the same number. -/
theorem roundDiv_congr {a b c d : Nat} (hb : 0 < b) (hd : 0 < d) (h : a * d = c * b) :
    roundDiv a b = roundDiv c d := by
  rw [← roundDiv_mul_mul hd, h, Nat.mul_comm b d, roundDiv_mul_mul hb]

/-- The quotient is kept below a half or raised above it, and at a half if it is odd. -/
theorem roundDiv_cases (a b : Nat) :
    roundDiv a b = a / b ∧ 2 * (a % b) ≤ b ∨ roundDiv a b = a / b + 1 ∧ b ≤ 2 * (a % b) := by
  unfold roundDiv
  dsimp only
  split
  · exact .inl ⟨rfl, by omega⟩
  · split
    · exact .inr ⟨rfl, by omega⟩
    · omega

/-- The rounding error is no more than a half. -/
theorem roundDiv_error {a b : Nat} (hb : 0 < b) :
    2 * (roundDiv a b * b) ≤ 2 * a + b ∧ 2 * a ≤ 2 * (roundDiv a b * b) + b := by
  have hsplit : a / b * b + a % b = a := by rw [Nat.mul_comm]; exact Nat.div_add_mod a b
  have hlt := Nat.mod_lt a hb
  rcases roundDiv_cases a b with ⟨hround, hmod⟩ | ⟨hround, hmod⟩
  · rw [hround]
    omega
  · rw [hround, Nat.succ_mul (a / b)]
    omega

/-- A number is rounded to what is less than a half away. -/
theorem roundDiv_eq_of_lt {a b k : Nat} (hb : 0 < b) (hlow : 2 * (k * b) < 2 * a + b)
    (hhigh : 2 * a < 2 * (k * b) + b) : roundDiv a b = k := by
  obtain ⟨hle, hge⟩ := roundDiv_error (a := a) hb
  rcases Nat.lt_trichotomy (roundDiv a b) k with hlt | heq | hgt
  · have := Nat.mul_le_mul_right b hlt
    rw [Nat.succ_mul] at this
    omega
  · exact heq
  · have := Nat.mul_le_mul_right b hgt
    rw [Nat.succ_mul] at this
    omega

theorem roundDiv_mul_self {b : Nat} (hb : 0 < b) (k : Nat) : roundDiv (k * b) b = k :=
  roundDiv_eq_of_lt hb (by omega) (by omega)

/-- What is not below a whole number is not rounded below it. -/
theorem le_roundDiv {a b k : Nat} (hb : 0 < b) (h : k * b ≤ a) : k ≤ roundDiv a b := by
  have hdiv : k ≤ a / b := (Nat.le_div_iff_mul_le hb).2 h
  rcases roundDiv_cases a b with ⟨hround, -⟩ | ⟨hround, -⟩ <;> omega

theorem roundDiv_le_of_le {a b k : Nat} (hb : 0 < b) (h : a ≤ k * b) : roundDiv a b ≤ k := by
  by_contra hlt
  have hmul := Nat.mul_le_mul_right b (Nat.not_le.1 hlt)
  have herror := (roundDiv_error (a := a) hb).1
  rw [Nat.succ_mul] at hmul
  omega

/-- An even number is rounded to from a half below it on. -/
theorem le_roundDiv_iff_of_even {a b k : Nat} (hb : 0 < b) (hk : k % 2 = 0) :
    k ≤ roundDiv a b ↔ 2 * (k * b) ≤ 2 * a + b := by
  constructor
  · intro h
    have := (roundDiv_error (a := a) hb).1
    have := Nat.mul_le_mul_right b h
    omega
  · intro h
    have hsplit : a / b * b + a % b = a := by rw [Nat.mul_comm]; exact Nat.div_add_mod a b
    have hmod := Nat.mod_lt a hb
    have hnext : ∀ d, a / b + d < k → a / b * b + (d + 1) * b ≤ k * b := fun d hd => by
      rw [← Nat.add_mul]
      exact Nat.mul_le_mul_right b hd
    have hzero := hnext 0
    have hone := hnext 1
    unfold roundDiv
    dsimp only
    -- at a half, the quotient is odd or not the number below the even one
    split
    · omega
    · split <;> omega

/-! ## The leading digit -/

/-- The leading binary digit of a fraction has this place. -/
structure Leading (num den place : Nat) : Prop where
  low : den * 2 ^ place ≤ num
  high : num < den * 2 ^ (place + 1)

theorem leading_log2 {n : Nat} (h : n ≠ 0) : Leading n 1 n.log2 :=
  ⟨by simpa using Nat.log2_self_le h, by simpa using Nat.lt_log2_self⟩

/-- The 53 digits from the leading one on, rounded. -/
def leadingDigits (num den place : Nat) : Nat :=
  roundDiv (num * 2 ^ (52 - place)) (den * 2 ^ (place - 52))

theorem significandAt_eq (round : Nat → Nat → Nat) (num den : Nat) (q : Int) :
    significandAt round num den q = round (num * 2 ^ (-q).toNat) (den * 2 ^ q.toNat) := by
  unfold significandAt
  split
  · rename_i hneg
    have hdown : q.toNat = 0 := by omega
    have hup : (-q).toNat = q.natAbs := by omega
    rw [hdown, hup, Nat.pow_zero, Nat.mul_one]
    rfl
  · rename_i hpos
    have hdown : q.toNat = q.natAbs := by omega
    have hup : (-q).toNat = 0 := by omega
    rw [hdown, hup, Nat.pow_zero, Nat.mul_one]
    rfl

/-- Whether a fraction has no more than 53 digits before a place. -/
theorem significandAt_lt_iff {num den : Nat} (hden : 0 < den) (place : Nat) :
    significandAt (· / ·) num den ((place : Int) - 53) < pow2 53 ↔ num < den * 2 ^ place := by
  have hscale : 2 ^ 53 * (den * 2 ^ (place - 53)) = den * 2 ^ place * 2 ^ (53 - place) := by
    rw [Nat.mul_left_comm, Nat.mul_assoc, ← Nat.pow_add, ← Nat.pow_add,
      show 53 + (place - 53) = place + (53 - place) by omega]
  rw [significandAt_eq, show (-((place : Int) - 53)).toNat = 53 - place by omega,
    show ((place : Int) - 53).toNat = place - 53 by omega,
    Nat.div_lt_iff_lt_mul (Nat.mul_pos hden (Nat.two_pow_pos _))]
  show _ < 2 ^ 53 * (den * 2 ^ (place - 53)) ↔ _
  rw [hscale, Nat.mul_lt_mul_right (Nat.two_pow_pos _)]

namespace Leading

variable {num den place : Nat}

theorem den_pos (h : Leading num den place) : 0 < den := by
  have := h.high
  by_contra hzero
  rw [Nat.eq_zero_of_not_pos hzero, Nat.zero_mul] at this
  omega

theorem num_pos (h : Leading num den place) : 0 < num :=
  Nat.lt_of_lt_of_le (Nat.mul_pos h.den_pos (Nat.two_pow_pos _)) h.low

theorem down_pos (h : Leading num den place) : 0 < den * 2 ^ (place - 52) :=
  Nat.mul_pos h.den_pos (Nat.two_pow_pos _)

/-- The digits from the leading one on, before they are rounded. -/
theorem scaled (h : Leading num den place) :
    2 ^ 52 * (den * 2 ^ (place - 52)) ≤ num * 2 ^ (52 - place) ∧
      num * 2 ^ (52 - place) < 2 ^ 53 * (den * 2 ^ (place - 52)) := by
  have hlow := Nat.mul_le_mul_right (2 ^ (52 - place)) h.low
  have hhigh := Nat.mul_lt_mul_of_pos_right h.high (Nat.two_pow_pos (52 - place))
  rw [Nat.mul_assoc, ← Nat.pow_add] at hlow hhigh
  rw [Nat.mul_left_comm, Nat.mul_left_comm (2 ^ 53), ← Nat.pow_add, ← Nat.pow_add,
    show 52 + (place - 52) = place + (52 - place) by omega,
    show 53 + (place - 52) = place + 1 + (52 - place) by omega]
  exact ⟨hlow, hhigh⟩

theorem le_digits (h : Leading num den place) : 2 ^ 52 ≤ leadingDigits num den place :=
  le_roundDiv h.down_pos h.scaled.1

theorem digits_le (h : Leading num den place) : leadingDigits num den place ≤ 2 ^ 53 :=
  roundDiv_le_of_le h.down_pos h.scaled.2.le

/-- The exponent of the digits is that of the last of them. -/
theorem roundedExponent_eq (h : Leading num den place) :
    roundedExponent num den = (place : Int) - 52 := by
  have hnum : num ≠ 0 := h.num_pos.ne'
  have hden : den ≠ 0 := h.den_pos.ne'
  have hlow : den.log2 + place ≤ num.log2 := by
    rw [Nat.le_log2 hnum, Nat.pow_add]
    exact (Nat.mul_le_mul_right _ (Nat.log2_self_le hden)).trans h.low
  have hhigh : num.log2 ≤ den.log2 + place + 1 := by
    rw [← Nat.lt_succ_iff, Nat.log2_lt hnum,
      show (den.log2 + place + 1).succ = den.log2 + 1 + (place + 1) by omega, Nat.pow_add]
    exact h.high.trans_le (Nat.mul_le_mul_right _ Nat.lt_log2_self.le)
  have hguess : guessedExponent num den = (num.log2 : Int) - den.log2 - 53 := rfl
  unfold roundedExponent
  rcases Nat.lt_or_eq_of_le hhigh with hlt | heq
  · have hplace : guessedExponent num den = (place : Int) - 53 := by omega
    rw [hplace, if_neg (by rw [significandAt_lt_iff h.den_pos]; exact Nat.not_lt.2 h.low)]
    omega
  · have hplace : guessedExponent num den = ((place + 1 : Nat) : Int) - 53 := by omega
    rw [hplace, if_pos ((significandAt_lt_iff h.den_pos _).2 h.high)]
    omega

/-- The count of the nearest float, from the place of its leading digit and its digits. -/
theorem nearestSize_eq (h : Leading num den place) :
    nearestSize num den = (place + 1022) * 2 ^ 52 + leadingDigits num den place := by
  have hdigits : significandAt roundDiv num den ((place : Int) - 52) =
      leadingDigits num den place := by
    rw [significandAt_eq, show (-((place : Int) - 52)).toNat = 52 - place by omega,
      show ((place : Int) - 52).toNat = place - 52 by omega]
    rfl
  have hle := h.le_digits
  unfold nearestSize
  rw [h.roundedExponent_eq, hdigits]
  show (if leadingDigits num den place < 2 ^ 52 then _ else _ * 2 ^ 52 + _) = _
  rw [if_neg (Nat.not_lt.2 hle), show ((place : Int) - 52 + 1074).toNat = place + 1022 by omega]

/-- The nearest float, by its count. -/
theorem nearest_eq (h : Leading num den place) (negative : Bool) : nearest negative num den =
    ofSize negative ((place + 1022) * 2 ^ 52 + leadingDigits num den place) := by
  rw [RollTray.nearest_eq, if_neg h.num_pos.ne', h.nearestSize_eq]

theorem congr {num' den' : Nat} (h : Leading num den place) (hden : 0 < den')
    (heq : num * den' = num' * den) : Leading num' den' place := by
  have hpos := h.den_pos
  constructor
  · refine Nat.le_of_mul_le_mul_right ?_ hpos
    calc den' * 2 ^ place * den = den * 2 ^ place * den' := by ring
      _ ≤ num * den' := Nat.mul_le_mul_right _ h.low
      _ = num' * den := heq
  · refine Nat.lt_of_mul_lt_mul_right (a := den) ?_
    calc num' * den = num * den' := heq.symm
      _ < den * 2 ^ (place + 1) * den' := Nat.mul_lt_mul_of_pos_right h.high hden
      _ = den' * 2 ^ (place + 1) * den := by ring

/-- Equal fractions have one nearest float. -/
theorem nearest_congr {num' den' : Nat} (h : Leading num den place) (negative : Bool)
    (hden : 0 < den') (heq : num * den' = num' * den) :
    nearest negative num' den' = nearest negative num den := by
  have h' := h.congr hden heq
  have hdigits : leadingDigits num' den' place = leadingDigits num den place := by
    refine roundDiv_congr h'.down_pos h.down_pos ?_
    calc num' * 2 ^ (52 - place) * (den * 2 ^ (place - 52)) =
          num' * den * (2 ^ (52 - place) * 2 ^ (place - 52)) := by ring
      _ = num * 2 ^ (52 - place) * (den' * 2 ^ (place - 52)) := by rw [← heq]; ring
  rw [h.nearest_eq, h'.nearest_eq, hdigits]

end Leading

/-! ## What a float stands for -/

/-- The form of a float that is neither tiny nor infinite. -/
theorem of_ofSize {negative : Bool} {size : Nat} (hlow : 2 ^ 52 ≤ size)
    (hhigh : size < 2047 * 2 ^ 52) :
    FloatForm.of (ofSize negative size) =
      .finite negative (2 ^ 52 + size % 2 ^ 52) ((size / 2 ^ 52 : Nat) - 1075) := by
  have hbits := toBits_ofSize negative size
  rw [Nat.min_eq_left hhigh.le] at hbits
  have hsign : ((ofSize negative size).toBits.toNat / 2 ^ 63 == 1) = negative := by
    rw [hbits]
    cases negative
    · rw [beq_eq_false_iff_ne, if_neg Bool.false_ne_true]
      omega
    · rw [beq_iff_eq, if_pos rfl]
      omega
  have hexponent : (ofSize negative size).toBits.toNat / 2 ^ 52 % 2 ^ 11 = size / 2 ^ 52 := by
    rw [hbits]
    split <;> omega
  have hfraction : (ofSize negative size).toBits.toNat % 2 ^ 52 = size % 2 ^ 52 := by
    rw [hbits]
    split <;> omega
  rw [FloatForm.of_eq, hsign, hexponent, hfraction, if_neg (by omega), if_neg (by omega)]

/-- A float is infinite from some count on. -/
theorem isInf_ofSize_iff {negative : Bool} {size : Nat} :
    (ofSize negative size).isInf = true ↔ 2047 * 2 ^ 52 ≤ size := by
  refine ⟨fun h => Nat.not_lt.1 fun hlt => ?_, fun h => (isInf_unpack_iff _).2 ?_⟩
  · rw [isInf_ofSize hlt] at h
    cases h
  · show (ofSize negative size).toBits.toNat / 2 ^ 52 % 2 ^ 11 = 2047 ∧
      (ofSize negative size).toBits.toNat % 2 ^ 52 = 0
    rw [toBits_ofSize, Nat.min_eq_right h]
    split <;> decide

namespace FloatForm

/-- A form of the fraction, or of its opposite. -/
def Holds (form : FloatForm) (negative : Bool) (num den : Nat) : Prop :=
  ∃ m q, form = finite negative m q ∧ m * 2 ^ q.toNat * den = num * 2 ^ (-q).toNat

theorem Holds.congr {form : FloatForm} {negative : Bool} {num den num' den' : Nat}
    (h : form.Holds negative num den) (hden : 0 < den) (heq : num * den' = num' * den) :
    form.Holds negative num' den' := by
  obtain ⟨m, q, rfl, hvalue⟩ := h
  refine ⟨m, q, rfl, Nat.eq_of_mul_eq_mul_right hden ?_⟩
  calc m * 2 ^ q.toNat * den' * den = m * 2 ^ q.toNat * den * den' := by ring
    _ = num * den' * 2 ^ (-q).toNat := by rw [hvalue]; ring
    _ = num' * 2 ^ (-q).toNat * den := by rw [heq]; ring

end FloatForm

namespace Leading

variable {num den place : Nat}

/-- A finite nearest float stands for the rounded digits. -/
theorem holds_nearest (h : Leading num den place) {negative : Bool}
    (hfinite : (nearest negative num den).isInf = false) :
    (FloatForm.of (nearest negative num den)).Holds negative
      (leadingDigits num den place * 2 ^ (place - 52)) (2 ^ (52 - place)) := by
  have hle := h.le_digits
  have hge := h.digits_le
  rw [h.nearest_eq, Bool.eq_false_iff, Ne, isInf_ofSize_iff, Nat.not_le] at hfinite
  rw [h.nearest_eq, of_ofSize (by omega) hfinite]
  refine ⟨_, _, rfl, ?_⟩
  -- the digits may have been rounded up to the next power of two
  rcases Nat.lt_or_eq_of_le hge with hlt | heq
  · have hfraction : 2 ^ 52 + ((place + 1022) * 2 ^ 52 + leadingDigits num den place) % 2 ^ 52 =
        leadingDigits num den place := by omega
    have hexponent :
        ((((place + 1022) * 2 ^ 52 + leadingDigits num den place) / 2 ^ 52 : Nat) : Int) -
        1075 = place - 52 := by omega
    rw [hfraction, hexponent, show ((place : Int) - 52).toNat = place - 52 by omega,
      show (-((place : Int) - 52)).toNat = 52 - place by omega]
  · rw [heq] at hfinite ⊢
    have hfraction : 2 ^ 52 + ((place + 1022) * 2 ^ 52 + 2 ^ 53) % 2 ^ 52 = 2 ^ 52 := by omega
    have hexponent : ((((place + 1022) * 2 ^ 52 + 2 ^ 53) / 2 ^ 52 : Nat) : Int) - 1075 =
        place - 51 := by omega
    rw [hfraction, hexponent, show ((place : Int) - 51).toNat = place - 51 by omega,
      show (-((place : Int) - 51)).toNat = 51 - place by omega]
    simp only [← Nat.pow_add]
    rw [show 52 + (place - 51) + (52 - place) = 53 + (place - 52) + (51 - place) by omega]

end Leading

/-! ## The parts of a float -/

theorem toNat_unpackSign (b : BitVec 64) :
    (@unpackSign Format.binary64 b).toNat = b.toNat / 2 ^ 63 := by
  rw [UnpackedFloat.unpackSign_def, BitVec.extractLsb'_toNat, Nat.shiftRight_eq_div_pow]
  have := b.isLt
  show b.toNat / 2 ^ 63 % 2 ^ 1 = _
  omega

/-- The sign bit is set. -/
def isNegative : Sign → Bool
  | .negative => true
  | .positive => false

theorem isNegative_ofBitVec (b : BitVec 64) :
    isNegative (Sign.ofBitVec (@unpackSign Format.binary64 b)) = (b.toNat / 2 ^ 63 == 1) := by
  have hle : b.toNat / 2 ^ 63 ≤ 1 := by have := b.isLt; omega
  rw [Sign.ofBitVec, ← toNat_unpackSign]
  split
  · rename_i h
    rw [h]; rfl
  · rename_i h
    have : (@unpackSign Format.binary64 b).toNat ≠ 0 := fun h0 => h (BitVec.eq_of_toNat_eq h0)
    rw [← toNat_unpackSign] at hle
    rw [show (@unpackSign Format.binary64 b).toNat = 1 by omega]
    rfl

/-- What a float stands for, from its parts. -/
def formOf : UnpackedFloat → FloatForm
  | .infinity s => .infinite (isNegative s)
  | .notANumber => .notANumber
  | .zero s => .finite (isNegative s) 0 (-1074)
  | .finite s m e _ => .finite (isNegative s) m e

theorem toNat_one_append (m : BitVec 52) : (1#1 ++ m).toNat = 2 ^ 52 + m.toNat := by
  rw [BitVec.toNat_append, ← Nat.shiftLeft_add_eq_or_of_lt m.isLt]
  rfl

/-- The parts of a float, from its bits. -/
theorem formOf_unpack (b : BitVec 64) : formOf (unpack Format.binary64 b) =
    if b.toNat / 2 ^ 52 % 2 ^ 11 = 2047 then
      if b.toNat % 2 ^ 52 = 0 then .infinite (b.toNat / 2 ^ 63 == 1) else .notANumber
    else if b.toNat / 2 ^ 52 % 2 ^ 11 = 0 then
      .finite (b.toNat / 2 ^ 63 == 1) (b.toNat % 2 ^ 52) (-1074)
    else .finite (b.toNat / 2 ^ 63 == 1) (2 ^ 52 + b.toNat % 2 ^ 52)
      ((b.toNat / 2 ^ 52 % 2 ^ 11 : Nat) - 1075) := by
  have hzero : @unpackExponent Format.binary64 b = 0#11 ↔ b.toNat / 2 ^ 52 % 2 ^ 11 = 0 := by
    rw [← toNat_unpackExponent, ← BitVec.toNat_inj]
    rfl
  simp only [← isNegative_ofBitVec, ← unpackExponent_eq_iff, ← unpackMantissa_eq_iff, ← hzero]
  fun_cases unpack Format.binary64 b with
  | case1 mantissa exponent sign s hexponent hmantissa =>
    rw [if_pos hexponent, if_pos hmantissa]
    rfl
  | case2 mantissa exponent hexponent hmantissa =>
    rw [if_pos hexponent, if_neg hmantissa]
    rfl
  | case3 mantissa exponent sign s hfull hexponent hmantissa =>
    rw [if_neg hfull, if_pos hexponent, ← toNat_unpackMantissa,
      show @unpackMantissa Format.binary64 b = 0#52 from hmantissa]
    rfl
  | case4 mantissa exponent e sign s hfull hexponent hmantissa =>
    rw [if_neg hfull, if_pos hexponent, ← toNat_unpackMantissa]
    refine congrArg (FloatForm.finite _ _) ?_
    show ((@unpackExponent Format.binary64 b).toNat : Int) - (1023 + 52) + 1 = -1074
    rw [show @unpackExponent Format.binary64 b = 0#11 from hexponent]
    rfl
  | case5 mantissa exponent e sign s hfull hexponent =>
    rw [if_neg hfull, if_neg hexponent, ← toNat_unpackMantissa, ← toNat_one_append,
      ← toNat_unpackExponent]
    rfl

theorem of_eq_formOf (x : Float) : FloatForm.of x = formOf x.toModel.unpack :=
  (FloatForm.of_eq x).trans (formOf_unpack x.toBits.toBitVec).symm

/-- A form with a positive sign and a significand is that of a positive number. -/
theorem unpack_of_form {x : Float} {m : Nat} {q : Int} (h : FloatForm.of x = .finite false m q)
    (hm : 0 < m) : x.toModel.unpack = .finite .positive m q hm := by
  rw [of_eq_formOf] at h
  generalize x.toModel.unpack = u at h
  cases u with
  | notANumber => cases h
  | infinity s => cases h
  | zero s =>
    obtain ⟨-, hzero, -⟩ := FloatForm.finite.inj h
    exact absurd hzero hm.ne
  | finite s m' e hm' =>
    obtain ⟨hsign, rfl, rfl⟩ := FloatForm.finite.inj h
    cases s with
    | negative => cases hsign
    | positive => rfl

theorem significand_lt {x : Float} {negative : Bool} {m : Nat} {q : Int}
    (h : FloatForm.of x = .finite negative m q) : m < 2 ^ 53 := by
  rw [FloatForm.of_eq] at h
  split at h
  · split at h <;> cases h
  · split at h
    all_goals
      obtain ⟨-, rfl, -⟩ := FloatForm.finite.inj h
      omega

/-- A number that is not below zero is at least zero. -/
theorem zero_le_of_not_lt {x : Float} (hnumber : x.isNaN = false) (h : ¬x < 0) : 0 ≤ x := by
  have hnumber : x.toModel.unpack ≠ .notANumber :=
    mt UnpackedFloat.isNaN_iff.2 (Bool.eq_false_iff.1 hnumber)
  have hlt : ¬UnpackedFloat.lt x.toModel.unpack (.zero .positive) = true :=
    fun hlt => h (decide_eq_true hlt)
  refine decide_eq_true (p := UnpackedFloat.le (.zero .positive) x.toModel.unpack = true) ?_
  generalize x.toModel.unpack = u at hnumber hlt ⊢
  cases u with
  | notANumber => exact absurd rfl hnumber
  | zero s => rfl
  | infinity s =>
    cases s with
    | negative => exact absurd rfl hlt
    | positive => rfl
  | finite s m e hm =>
    cases s with
    | negative => exact absurd rfl hlt
    | positive => rfl

theorem not_zero_le_of_isNaN {x : Float} (h : x.isNaN = true) : ¬0 ≤ x := by
  intro hle
  have hle : UnpackedFloat.le (.zero .positive) x.toModel.unpack = true := of_decide_eq_true hle
  rw [UnpackedFloat.isNaN_iff.1 h] at hle
  cases hle

/-- A float whose sign bit is clear is not below zero. -/
theorem not_lt_zero {x : Float} (h : x.toBits.toNat < 2 ^ 63) : ¬x < 0 := by
  have hsign : (x.toBits.toNat / 2 ^ 63 == 1) = false := by
    rw [beq_eq_false_iff_ne]
    omega
  have hform := of_eq_formOf x
  rw [FloatForm.of_eq, hsign] at hform
  intro hlt
  have hlt : UnpackedFloat.lt x.toModel.unpack (.zero .positive) = true := of_decide_eq_true hlt
  generalize x.toModel.unpack = u at hform hlt
  -- only what has a negative sign is below zero
  have hnegative : (∃ m e, formOf u = .finite true m e) ∨ formOf u = .infinite true := by
    cases u with
    | notANumber => cases hlt
    | zero s => cases hlt
    | infinity s =>
      cases s with
      | negative => exact .inr rfl
      | positive => cases hlt
    | finite s m e hm =>
      cases s with
      | negative => exact .inl ⟨m, e, rfl⟩
      | positive => cases hlt
  rw [← hform] at hnegative
  split at hnegative
  · split at hnegative <;> simp at hnegative
  · split at hnegative <;> simp at hnegative

/-! ## Integers -/

/-- A natural number with no more than 53 digits before its zeros, the nearest to a given one. -/
def nearestWhole (n : Nat) : Nat :=
  roundDiv n (2 ^ (n.log2 - 52)) * 2 ^ (n.log2 - 52)

/-- The numbers that are too large for a float. -/
def floatLimit : Nat := 2 ^ 1024 - 2 ^ 970

theorem nearestWhole_eq_iff (n : Nat) : nearestWhole n = n ↔ 2 ^ (n.log2 - 52) ∣ n := by
  refine ⟨Dvd.intro_left _, fun h => ?_⟩
  have hround := roundDiv_mul_self (Nat.two_pow_pos (n.log2 - 52)) (n / 2 ^ (n.log2 - 52))
  rw [Nat.div_mul_cancel h] at hround
  rw [nearestWhole, hround, Nat.div_mul_cancel h]

/-- Every number of at most 53 digits is one. -/
theorem nearestWhole_of_le {n : Nat} (h : n ≤ 2 ^ 53) : nearestWhole n = n := by
  rw [nearestWhole_eq_iff]
  rcases Nat.lt_or_eq_of_le h with hlt | rfl
  · have hlog : n.log2 - 52 = 0 := by
      rcases Nat.eq_zero_or_pos n with rfl | hpos
      · simp
      · have := (Nat.log2_lt hpos.ne').2 hlt
        omega
    rw [hlog]
    exact one_dvd n
  · rw [Nat.log2_two_pow]
    decide

theorem two_pow_dvd_nearestWhole (n : Nat) : 2 ^ (n.log2 - 52) ∣ nearestWhole n :=
  Nat.dvd_mul_left _ _

/-- The rounding keeps a number between the powers of two around it. -/
theorem nearestWhole_bounds {n : Nat} (h : n ≠ 0) :
    2 ^ n.log2 ≤ nearestWhole n ∧ nearestWhole n ≤ 2 ^ (n.log2 + 1) := by
  have hsplit : ∀ k, n.log2 ≤ k → 2 ^ (k - (n.log2 - 52)) * 2 ^ (n.log2 - 52) = 2 ^ k := by
    intro k hk
    rw [← Nat.pow_add, Nat.sub_add_cancel (by omega)]
  constructor
  · rw [← hsplit n.log2 le_rfl]
    refine Nat.mul_le_mul_right _ (le_roundDiv (Nat.two_pow_pos _) ?_)
    rw [hsplit n.log2 le_rfl]
    exact Nat.log2_self_le h
  · rw [← hsplit (n.log2 + 1) (Nat.le_succ _)]
    refine Nat.mul_le_mul_right _ (roundDiv_le_of_le (Nat.two_pow_pos _) ?_)
    rw [hsplit (n.log2 + 1) (Nat.le_succ _)]
    exact Nat.lt_log2_self.le

theorem leadingDigits_log2 (n : Nat) : leadingDigits n 1 n.log2 * 2 ^ (n.log2 - 52) =
    nearestWhole n * 2 ^ (52 - n.log2) := by
  rcases Nat.le_total n.log2 52 with hle | hge
  · have hone := fun k => roundDiv_mul_self Nat.one_pos k
    simp only [Nat.mul_one] at hone
    simp [leadingDigits, nearestWhole, Nat.sub_eq_zero_of_le hle, hone]
  · simp [leadingDigits, nearestWhole, Nat.sub_eq_zero_of_le hge]

theorem floatLimit_eq : floatLimit = (2 ^ 54 - 1) * 2 ^ 970 := by
  rw [Nat.sub_mul, Nat.one_mul, ← Nat.pow_add, floatLimit]

theorem le_floatLimit : 2 ^ 54 - 1 ≤ floatLimit := by
  rw [floatLimit_eq]
  apply Nat.le_mul_of_pos_right
  apply Nat.two_pow_pos

/-- The largest float has 53 digits above the place `unit`; from half a unit above it on, the
nearest float is infinite. -/
theorem isInf_nearest_one_iff (negative : Bool) (n : Nat) {unit : Nat} (hunit : unit + 53 = 1023) :
    (nearest negative n 1).isInf = true ↔ (2 ^ 54 - 1) * 2 ^ unit ≤ n := by
  have hpos : 0 < 2 ^ unit := Nat.two_pow_pos unit
  by_cases hzero : n = 0
  · rw [nearest_eq, isInf_ofSize_iff, if_pos hzero, hzero]
    omega
  have hlead := leading_log2 hzero
  have hle := hlead.digits_le
  rw [hlead.nearest_eq, isInf_ofSize_iff]
  rcases Nat.lt_trichotomy n.log2 (53 + unit) with hlt | heq | hgt
  · have hsmall : n < 2 ^ 53 * 2 ^ unit := by
      rw [← Nat.pow_add, ← Nat.log2_lt hzero]
      exact hlt
    exact iff_of_false (by omega) (by omega)
  · -- the digits are rounded up to the next power of two
    have hup := le_roundDiv_iff_of_even (a := n) (b := 2 ^ unit * 2) (k := 2 ^ 53) (by omega) rfl
    have hdigits : leadingDigits n 1 n.log2 = roundDiv n (2 ^ unit * 2) := by
      rw [heq, leadingDigits, show 52 - (53 + unit) = 0 by omega,
        show 53 + unit - 52 = unit + 1 by omega, Nat.pow_zero, Nat.mul_one, Nat.one_mul,
        Nat.pow_succ]
    rw [← hdigits] at hup
    omega
  · have hlarge : 2 ^ 54 * 2 ^ unit ≤ n := by
      rw [← Nat.pow_add, ← Nat.le_log2 hzero]
      omega
    have hge := hlead.le_digits
    exact iff_of_true (by omega) (by omega)

/-- The float nearest to an integer is infinite just if that is too large. -/
theorem isInf_nearestInt_iff (n : Int) : (nearestInt n).isInf = true ↔ floatLimit ≤ n.natAbs := by
  rw [floatLimit_eq]
  exact isInf_nearest_one_iff _ _ rfl

/-- The float nearest to an integer, if it is finite. -/
theorem holds_nearestInt {n : Int} (h : n.natAbs < floatLimit) :
    (FloatForm.of (nearestInt n)).Holds (n < 0) (nearestWhole n.natAbs) 1 := by
  by_cases hzero : n = 0
  · subst hzero
    refine ⟨0, -1074, rfl, ?_⟩
    rw [show nearestWhole (Int.natAbs 0) = 0 from rfl]
    simp only [Nat.zero_mul]
  · have hfinite : (nearestInt n).isInf = false := by
      rw [Bool.eq_false_iff, Ne, isInf_nearestInt_iff]
      omega
    refine ((leading_log2 (Int.natAbs_ne_zero.2 hzero)).holds_nearest hfinite).congr
      (Nat.two_pow_pos _) ?_
    rw [Nat.mul_one, leadingDigits_log2]

/-- A float nearest to an integer has its sign. -/
theorem zero_le_nearestInt {n : Int} (h : 0 ≤ n) : 0 ≤ nearestInt n := by
  refine zero_le_of_not_lt (Num.isNaN_nearestInt n) (not_lt_zero ?_)
  rw [nearestInt, nearest_eq, toBits_ofSize, decide_eq_false (by omega), if_neg Bool.false_ne_true]
  omega

end RollTray
