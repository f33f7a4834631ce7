import Mathlib
import RollTray.Number

/-!
# Floats that are numbers

`FloatForm.of` reads the fields of a float as the arithmetic of floats does (`of_eq_notANumber_iff`).
So a number stays one when it is multiplied by an ordinary number or raised by one (`isNaN_mul`,
`isNaN_add`). The float nearest to a fraction is always a number (`of_nearest_ne`), and a finite one
unless the fraction is large (`isInf_nearest`). Hence arithmetic on numbers and rounding to tenths
fail for no other reason than that a number is too large (`onlyOverflows_roundTenths`).
-/

namespace RollTray

open Float.Model (Format UnpackedFloat)
open Float.Model.UnpackedFloat (unpack unpackExponent unpackMantissa packedNaN)

/-! ## The fields of a float -/

theorem toNat_unpackExponent (b : BitVec 64) :
    (@unpackExponent Format.binary64 b).toNat = b.toNat / 2 ^ 52 % 2 ^ 11 := by
  rw [UnpackedFloat.unpackExponent_def, BitVec.extractLsb'_toNat,
    Nat.shiftRight_eq_div_pow]

theorem toNat_unpackMantissa (b : BitVec 64) :
    (@unpackMantissa Format.binary64 b).toNat = b.toNat % 2 ^ 52 := by
  rw [UnpackedFloat.unpackMantissa_def, BitVec.extractLsb'_toNat]
  rfl

/-- All bits of the exponent are set. -/
theorem unpackExponent_eq_iff (b : BitVec 64) :
    @unpackExponent Format.binary64 b = -1#11 ↔ b.toNat / 2 ^ 52 % 2 ^ 11 = 2047 := by
  rw [← toNat_unpackExponent, ← BitVec.toNat_inj]
  rfl

theorem unpackMantissa_eq_iff (b : BitVec 64) :
    @unpackMantissa Format.binary64 b = 0#52 ↔ b.toNat % 2 ^ 52 = 0 := by
  rw [← toNat_unpackMantissa, ← BitVec.toNat_inj]
  rfl

/-- What no number is written as. -/
theorem unpack_eq_notANumber_iff (b : BitVec 64) : unpack Format.binary64 b = .notANumber ↔
    b.toNat / 2 ^ 52 % 2 ^ 11 = 2047 ∧ b.toNat % 2 ^ 52 ≠ 0 := by
  rw [← unpackExponent_eq_iff, Ne, ← unpackMantissa_eq_iff]
  fun_cases unpack Format.binary64 b <;> simp_all +zetaDelta

theorem isInf_unpack_iff (b : BitVec 64) : (unpack Format.binary64 b).isInf = true ↔
    b.toNat / 2 ^ 52 % 2 ^ 11 = 2047 ∧ b.toNat % 2 ^ 52 = 0 := by
  rw [← unpackExponent_eq_iff, ← unpackMantissa_eq_iff]
  fun_cases unpack Format.binary64 b <;> simp_all +zetaDelta [UnpackedFloat.isInf]

namespace FloatForm

theorem of_eq (x : Float) : of x =
    if x.toBits.toNat / 2 ^ 52 % 2 ^ 11 = 2047 then
      if x.toBits.toNat % 2 ^ 52 = 0 then .infinite (x.toBits.toNat / 2 ^ 63 == 1) else .notANumber
    else if x.toBits.toNat / 2 ^ 52 % 2 ^ 11 = 0 then
      .finite (x.toBits.toNat / 2 ^ 63 == 1) (x.toBits.toNat % 2 ^ 52) (-1074)
    else .finite (x.toBits.toNat / 2 ^ 63 == 1) (2 ^ 52 + x.toBits.toNat % 2 ^ 52)
      ((x.toBits.toNat / 2 ^ 52 % 2 ^ 11 : Nat) - 1075) := rfl

/-- A float that is no number has the form of none. -/
theorem of_eq_notANumber_iff (x : Float) : of x = .notANumber ↔ x.isNaN = true := by
  have hnan : x.isNaN = true ↔ unpack Format.binary64 x.toBits.toBitVec = .notANumber :=
    UnpackedFloat.isNaN_iff
  rw [hnan, of_eq, unpack_eq_notANumber_iff, UInt64.toNat_toBitVec]
  split
  · split <;> simp_all
  · split <;> simp_all

end FloatForm

/-! ## Arithmetic -/

theorem unpack_packComponents_ne {s : UnpackedFloat.Sign} {e : BitVec 11} {m : BitVec 52}
    (h : e.toNat ≠ 2047 ∨ m = 0#52) : unpack Format.binary64
      (UnpackedFloat.packComponents Format.binary64 s e m) ≠ .notANumber := by
  rw [Ne, unpack_eq_notANumber_iff, ← toNat_unpackExponent, Ne, ← unpackMantissa_eq_iff,
    UnpackedFloat.unpackExponent_packComponents, UnpackedFloat.unpackMantissa_packComponents]
  exact fun ⟨he, hm⟩ => h.elim (· he) hm

/-- What is a number is packed as one. -/
theorem unpack_pack_ne {u : UnpackedFloat} (h : u ≠ .notANumber) :
    unpack Format.binary64 (u.pack Format.binary64) ≠ .notANumber := by
  fun_cases UnpackedFloat.pack Format.binary64 u with
  | case1 => exact absurd rfl h
  | case2 s => exact unpack_packComponents_ne (.inr rfl)
  | case3 s => exact unpack_packComponents_ne (.inr rfl)
  | case4 s m e hm biased hlarge => exact unpack_packComponents_ne (.inr rfl)
  | case5 s m e hm bits biased hsmall hbits =>
    refine unpack_packComponents_ne (.inl ?_)
    rw [BitVec.toNat_ofNat]
    change ¬2 ^ 11 ≤ biased + 1 at hsmall
    omega
  | case6 s m e hm bits biased hsmall hbits =>
    exact unpack_packComponents_ne (.inl (by decide))

theorem isNaN_pack (u : UnpackedFloat) : (Float.Model.pack u).isNaN = true ↔ u = .notANumber := by
  refine UnpackedFloat.isNaN_iff.trans ⟨fun h => ?_, ?_⟩
  · by_contra hne
    exact unpack_pack_ne hne h
  · rintro rfl
    exact UnpackedFloat.unpack_packedNaN

theorem isNaN_abs (x : Float) : x.abs.isNaN = x.isNaN := by
  rw [Bool.eq_iff_iff]
  refine (isNaN_pack _).trans (Iff.trans ?_ UnpackedFloat.isNaN_iff.symm)
  cases x.toModel.unpack <;> simp [UnpackedFloat.abs]

/-- A number that is neither zero nor infinite. -/
def IsOrdinary (x : Float) : Prop :=
  ∃ s m e hm, x.toModel.unpack = .finite s m e hm

theorem isOrdinary_of_ctorIdx {x : Float} (h : x.toModel.unpack.ctorIdx = 3) : IsOrdinary x := by
  unfold IsOrdinary
  generalize x.toModel.unpack = u at h ⊢
  cases u with
  | finite s m e hm => exact ⟨s, m, e, hm, rfl⟩
  | _ => cases h

theorem roundWithAccuracy_ne (spec : Format) (s : UnpackedFloat.Sign) (m : Nat) (e : Int)
    (a : UnpackedFloat.Accuracy) : UnpackedFloat.roundWithAccuracy spec s m e a ≠ .notANumber := by
  unfold UnpackedFloat.roundWithAccuracy
  dsimp only
  split <;> nofun

theorem normalize_ne (spec : Format) (m e : Int) (s : UnpackedFloat.Sign) :
    UnpackedFloat.normalize spec m e s ≠ .notANumber := by
  unfold UnpackedFloat.normalize
  split
  · exact roundWithAccuracy_ne _ _ _ _ _
  · nofun
  · exact roundWithAccuracy_ne _ _ _ _ _

theorem isNaN_mul {y : Float} (hy : IsOrdinary y) (x : Float) : (x * y).isNaN = x.isNaN := by
  obtain ⟨s, m, e, hm, hy⟩ := hy
  rw [Bool.eq_iff_iff]
  refine (isNaN_pack _).trans (Iff.trans ?_ UnpackedFloat.isNaN_iff.symm)
  rw [hy]
  cases x.toModel.unpack <;> simp [UnpackedFloat.mul, roundWithAccuracy_ne]

theorem isNaN_add {y : Float} (hy : IsOrdinary y) (x : Float) : (x + y).isNaN = x.isNaN := by
  obtain ⟨s, m, e, hm, hy⟩ := hy
  rw [Bool.eq_iff_iff]
  refine (isNaN_pack _).trans (Iff.trans ?_ UnpackedFloat.isNaN_iff.symm)
  rw [hy]
  cases x.toModel.unpack <;> simp [UnpackedFloat.add, normalize_ne]

/-- The difference of two numbers is one unless they are infinite and equal. -/
theorem isNaN_sub_iff {x y : Float} (hx : x.isNaN = false) (hy : y.isNaN = false) :
    (x - y).isNaN = true ↔ x.isInf = true ∧ (x == y) = true := by
  have hx : x.toModel.unpack ≠ .notANumber := mt UnpackedFloat.isNaN_iff.2 (Bool.eq_false_iff.1 hx)
  have hy : y.toModel.unpack ≠ .notANumber := mt UnpackedFloat.isNaN_iff.2 (Bool.eq_false_iff.1 hy)
  refine (isNaN_pack _).trans ?_
  show UnpackedFloat.sub _ x.toModel.unpack y.toModel.unpack = _ ↔
    x.toModel.unpack.isInf = true ∧ x.toModel.unpack.beq y.toModel.unpack = true
  generalize x.toModel.unpack = u at hx ⊢
  generalize y.toModel.unpack = v at hy ⊢
  cases u with
  | notANumber => exact absurd rfl hx
  | infinity s =>
    cases v with
    | notANumber => exact absurd rfl hy
    | infinity s' =>
      cases s <;> cases s' <;> first | exact iff_of_true rfl ⟨rfl, rfl⟩ | exact iff_of_false nofun nofun
    | _ => cases s <;> exact iff_of_false nofun nofun
  | zero s =>
    refine iff_of_false ?_ nofun
    cases v with
    | notANumber => exact absurd rfl hy
    | zero s' =>
      rw [UnpackedFloat.sub]
      split <;> nofun
    | _ => nofun
  | finite s m e hm =>
    refine iff_of_false ?_ nofun
    cases v with
    | notANumber => exact absurd rfl hy
    | finite => exact normalize_ne _ _ _ _
    | _ => nofun

/-! ## The nearest float -/

/-- A pattern that does not write no number is the bits of its float. -/
theorem toBits_ofBits {b : UInt64} (h : b.toNat / 2 ^ 52 % 2 ^ 11 = 2047 → b.toNat % 2 ^ 52 = 0) :
    (Float.ofBits b).toBits = b := by
  have hvalid : Format.binary64.Valid b.toBitVec := by
    refine ⟨fun he hm => absurd ?_ hm⟩
    exact (unpackMantissa_eq_iff _).2 (h ((unpackExponent_eq_iff _).1 he))
  exact congrArg UInt64.ofBitVec (UnpackedFloat.pack_unpack_of_valid hvalid)

/-- The float of a sign and a size, which counts the floats below it. -/
def ofSize (negative : Bool) (size : Nat) : Float :=
  Float.ofBits (UInt64.ofNat ((if negative then pow2 63 else 0) + min size (2047 * pow2 52)))

theorem toBits_ofSize (negative : Bool) (size : Nat) : (ofSize negative size).toBits.toNat =
    (if negative then 2 ^ 63 else 0) + min size (2047 * 2 ^ 52) := by
  have hle : min size (2047 * 2 ^ 52) ≤ 2047 * 2 ^ 52 := Nat.min_le_right ..
  have hnat : (UInt64.ofNat ((if negative then pow2 63 else 0) + min size (2047 * pow2 52))).toNat =
      (if negative then 2 ^ 63 else 0) + min size (2047 * 2 ^ 52) := by
    rw [UInt64.toNat_ofNat']
    show ((if negative then 2 ^ 63 else 0) + min size (2047 * 2 ^ 52)) % 2 ^ 64 = _
    split <;> omega
  rw [ofSize, toBits_ofBits, hnat]
  rw [hnat]
  split <;> omega

theorem of_ofSize_ne (negative : Bool) (size : Nat) :
    FloatForm.of (ofSize negative size) ≠ .notANumber := by
  have hle : min size (2047 * 2 ^ 52) ≤ 2047 * 2 ^ 52 := Nat.min_le_right ..
  have hbits := toBits_ofSize negative size
  have hform := FloatForm.of_eq (ofSize negative size)
  rw [hform]
  by_cases he : (ofSize negative size).toBits.toNat / 2 ^ 52 % 2 ^ 11 = 2047
  · have hm : (ofSize negative size).toBits.toNat % 2 ^ 52 = 0 := by
      rw [hbits] at he ⊢
      cases negative
      · simp only [Bool.false_eq_true, if_false] at he ⊢
        omega
      · simp only [if_true] at he ⊢
        omega
    rw [if_pos he, if_pos hm]
    nofun
  · rw [if_neg he]
    split <;> nofun

theorem isInf_ofSize {negative : Bool} {size : Nat} (h : size < 2047 * 2 ^ 52) :
    (ofSize negative size).isInf = false := by
  have hbits := toBits_ofSize negative size
  refine Bool.eq_false_iff.2 fun hinf => ?_
  have hunpack := (isInf_unpack_iff _).1 hinf
  change (ofSize negative size).toBits.toNat / 2 ^ 52 % 2 ^ 11 = 2047 ∧ _ at hunpack
  rw [hbits, Nat.min_eq_left h.le] at hunpack
  have he := hunpack.1
  split at he <;> omega

/-- The significand over an exponent, by a division of two numbers. -/
def significandAt (round : Nat → Nat → Nat) (num den : Nat) (q : Int) : Nat :=
  if q < 0 then round (num * pow2 q.natAbs) den else round num (den * pow2 q.natAbs)

/-- The exponent at which a fraction has 53 binary digits, or 54. -/
def guessedExponent (num den : Nat) : Int :=
  (Nat.log2 num : Int) - Nat.log2 den - 53

/-- The exponent at which a fraction is rounded. -/
def roundedExponent (num den : Nat) : Int :=
  max (if significandAt (· / ·) num den (guessedExponent num den) < pow2 53
    then guessedExponent num den else guessedExponent num den + 1) (-1074)

/-- The count of the float nearest to a fraction. -/
def nearestSize (num den : Nat) : Nat :=
  let m := significandAt roundDiv num den (roundedExponent num den)
  if m < pow2 52 then m else (roundedExponent num den + 1074).toNat * pow2 52 + m

theorem nearest_eq (negative : Bool) (num den : Nat) :
    nearest negative num den = ofSize negative (if num = 0 then 0 else nearestSize num den) := by
  by_cases hnum : num = 0
  · rw [nearest, if_pos hnum, if_pos hnum]
    rfl
  · rw [nearest, if_neg hnum, if_neg hnum]
    rfl

theorem of_nearest_ne (negative : Bool) (num den : Nat) :
    FloatForm.of (nearest negative num den) ≠ .notANumber := by
  rw [nearest_eq]
  exact of_ofSize_ne _ _

theorem roundDiv_le (a b : Nat) : roundDiv a b ≤ a / b + 1 := by
  unfold roundDiv
  dsimp only
  have := Nat.mod_lt (a / b) (by decide : 0 < 2)
  split
  · omega
  split
  · omega
  · omega

/-- At the guessed exponent, or above it, a significand is small. -/
theorem significandAt_le {num den : Nat} (hden : den ≠ 0) {q : Int}
    (hq : guessedExponent num den ≤ q) : significandAt roundDiv num den q ≤ 2 ^ 54 := by
  have hlt : num < 2 ^ (num.log2 + 1) := Nat.lt_log2_self
  have hle : 2 ^ den.log2 ≤ den := Nat.log2_self_le hden
  unfold guessedExponent at hq
  unfold significandAt
  split
  · refine (roundDiv_le _ _).trans (Nat.div_lt_of_lt_mul ?_)
    calc num * pow2 q.natAbs < 2 ^ (num.log2 + 1) * 2 ^ q.natAbs :=
          Nat.mul_lt_mul_of_pos_right hlt (Nat.two_pow_pos _)
      _ = 2 ^ (num.log2 + 1 + q.natAbs) := (Nat.pow_add ..).symm
      _ ≤ 2 ^ (den.log2 + 54) := Nat.pow_le_pow_right (by decide) (by omega)
      _ = 2 ^ den.log2 * 2 ^ 54 := Nat.pow_add ..
      _ ≤ den * 2 ^ 54 := Nat.mul_le_mul_right _ hle
  · refine (roundDiv_le _ _).trans (Nat.div_lt_of_lt_mul ?_)
    calc num < 2 ^ (num.log2 + 1) := hlt
      _ ≤ 2 ^ (den.log2 + q.natAbs + 54) := Nat.pow_le_pow_right (by decide) (by omega)
      _ = 2 ^ den.log2 * 2 ^ q.natAbs * 2 ^ 54 := by rw [Nat.pow_add, Nat.pow_add]
      _ ≤ den * pow2 q.natAbs * 2 ^ 54 := Nat.mul_le_mul_right _ (Nat.mul_le_mul_right _ hle)

theorem le_roundedExponent (num den : Nat) :
    guessedExponent num den ≤ roundedExponent num den :=
  le_trans (by split <;> omega) (le_max_left _ _)

theorem roundedExponent_le (num den : Nat) :
    roundedExponent num den ≤ max (guessedExponent num den + 1) (-1074) :=
  max_le_max (by split <;> omega) le_rfl

/-- A fraction below a large power of two has a finite float. -/
theorem isInf_nearest {negative : Bool} {num den : Nat} (hden : den ≠ 0)
    (h : num < 2 ^ 200 * den) : (nearest negative num den).isInf = false := by
  rw [nearest_eq]
  refine isInf_ofSize ?_
  split
  · decide
  · rename_i hnum
    have hlog : num.log2 < 201 + den.log2 := by
      rw [Nat.log2_lt hnum, show 201 + den.log2 = 200 + (den.log2 + 1) by omega, Nat.pow_add]
      exact h.trans_le (Nat.mul_le_mul_left _ Nat.lt_log2_self.le)
    have hm := significandAt_le hden (le_roundedExponent num den)
    have hq : (roundedExponent num den + 1074).toNat ≤ 1224 := by
      have hle := roundedExponent_le num den
      unfold guessedExponent at hle
      omega
    unfold nearestSize
    dsimp only
    change _ < 2047 * 2 ^ 52
    split
    · omega
    · change _ * 2 ^ 52 + _ < _
      omega

/-! ## Overflow -/

/-- If this fails, then because a number is too large. -/
def OnlyOverflows {α : Type} (x : Except Fault α) : Prop :=
  ∀ fault, x = .error fault → fault = .overflow

section

variable {α β : Type}

theorem onlyOverflows_ok (a : α) : OnlyOverflows (.ok a) :=
  fun _ h => nomatch h

theorem onlyOverflows_overflow : OnlyOverflows (α := α) (.error .overflow) :=
  fun _ h => (Except.error.inj h).symm

theorem OnlyOverflows.bind {x : Except Fault α} {f : α → Except Fault β} (hx : OnlyOverflows x)
    (hf : ∀ a, x = .ok a → OnlyOverflows (f a)) : OnlyOverflows (x >>= f) := by
  cases x with
  | error fault => exact fun fault' h => hx fault' (by rw [← Except.error.inj h])
  | ok a => exact hf a rfl

end

namespace Num

theorem isNaN_float (x : Float) : (float x).isNaN = x.isNaN := by
  rw [Bool.eq_iff_iff, ← FloatForm.of_eq_notANumber_iff, isNaN, beq_iff_eq]
  rfl

theorem onlyOverflows_toFloat (n : Num) : OnlyOverflows n.toFloat := by
  cases n with
  | int n =>
    unfold toFloat
    dsimp only
    split
    · exact onlyOverflows_overflow
    · exact onlyOverflows_ok _
  | float x => exact onlyOverflows_ok _

theorem onlyOverflows_viaFloat (op : Float → Float → Float) (a b : Num) :
    OnlyOverflows (viaFloat op a b) :=
  (onlyOverflows_toFloat a).bind fun _ _ => (onlyOverflows_toFloat b).bind fun _ _ =>
    onlyOverflows_ok _

theorem onlyOverflows_add (a b : Num) : OnlyOverflows (a.add b) := by
  cases a <;> cases b <;> first | exact onlyOverflows_ok _ | exact onlyOverflows_viaFloat _ _ _

theorem onlyOverflows_sub (a b : Num) : OnlyOverflows (a.sub b) := by
  cases a <;> cases b <;> first | exact onlyOverflows_ok _ | exact onlyOverflows_viaFloat _ _ _

theorem onlyOverflows_mul (a b : Num) : OnlyOverflows (a.mul b) := by
  cases a <;> cases b <;> first | exact onlyOverflows_ok _ | exact onlyOverflows_viaFloat _ _ _

/-- A division by what is not zero. -/
theorem onlyOverflows_div (a : Num) {b : Num} (h : b.same (.int 0) = false) :
    OnlyOverflows (a.div b) := by
  fun_cases div a b with
  | case1 a => cases h
  | case2 a b hb x hinf => exact onlyOverflows_overflow
  | case3 a b hb x hinf => exact onlyOverflows_ok _
  | case4 a b hints hzero => exact absurd hzero (by simp [h])
  | case5 a b hints hzero => exact onlyOverflows_viaFloat _ _ _

theorem isNaN_nearestInt (n : Int) : (nearestInt n).isNaN = false := by
  rw [Bool.eq_false_iff, Ne, ← FloatForm.of_eq_notANumber_iff]
  exact of_nearest_ne _ _ _

theorem eq_of_toFloat_int {n : Int} {x : Float} (h : (int n).toFloat = .ok x) :
    x = nearestInt n := by
  unfold toFloat at h
  dsimp only at h
  split at h
  · cases h
  · exact (Except.ok.inj h).symm

theorem exists_of_viaFloat {op : Float → Float → Float} {a b r : Num}
    (h : viaFloat op a b = .ok r) :
    ∃ x y, a.toFloat = .ok x ∧ b.toFloat = .ok y ∧ r = float (op x y) := by
  obtain ⟨x, hx, h⟩ := bind_eq_ok.1 h
  obtain ⟨y, hy, h⟩ := bind_eq_ok.1 h
  exact ⟨x, y, hx, hy, (pure_eq_ok.1 h).symm⟩

theorem onlyOverflows_floorOf {x : Float} (h : x.isNaN = false) : OnlyOverflows (floorOf x) := by
  unfold floorOf
  split
  · rename_i hform
    rw [FloatForm.of_eq_notANumber_iff, h] at hform
    cases hform
  · split
    · exact onlyOverflows_ok _
    · exact onlyOverflows_overflow

theorem isOrdinary_half : IsOrdinary 0.5 :=
  isOrdinary_of_ctorIdx (by decide +kernel)

theorem isOrdinary_nearestInt_ten : IsOrdinary (nearestInt 10) :=
  isOrdinary_of_ctorIdx (by decide +kernel)

/-- The number without its sign. -/
def size : Num → Num
  | int n => int n.natAbs
  | float x => float x.abs

/-- The size of a number, scaled by ten and raised by a half, is a number. -/
theorem isNaN_scaled {n a b : Num} {x scaled : Float} (hx : n.toFloat = .ok x)
    (hnan : x.isNaN = false) (ha : n.size.mul (int 10) = .ok a)
    (hb : a.add (float 0.5) = .ok b) (hscaled : b.toFloat = .ok scaled) :
    scaled.isNaN = false := by
  cases n with
  | int n =>
    cases ha
    obtain ⟨y, z, hy, hz, rfl⟩ := exists_of_viaFloat hb
    cases hz
    cases hscaled
    rw [isNaN_add isOrdinary_half, eq_of_toFloat_int hy, isNaN_nearestInt]
  | float x =>
    cases hx
    obtain ⟨y, z, hy, hz, rfl⟩ := exists_of_viaFloat ha
    cases hy
    obtain ⟨y', z', hy', hz', rfl⟩ := exists_of_viaFloat hb
    cases hy'
    cases hz'
    cases hscaled
    rw [isNaN_add isOrdinary_half, eq_of_toFloat_int hz, isNaN_mul isOrdinary_nearestInt_ten,
      isNaN_abs, hnan]

/-- Rounding to tenths. -/
theorem onlyOverflows_roundTenths (n : Num) : OnlyOverflows n.roundTenths := by
  refine (onlyOverflows_toFloat n).bind fun x hx => ?_
  by_cases hfinite : (x.isNaN || x.isInf) = true
  · rw [if_pos hfinite]
    exact onlyOverflows_ok _
  · rw [if_neg hfinite]
    have hnan : x.isNaN = false := by
      rw [Bool.not_eq_true, Bool.or_eq_false_iff] at hfinite
      exact hfinite.1
    refine (onlyOverflows_mul _ _).bind fun a ha => ?_
    refine (onlyOverflows_add _ _).bind fun b hb => ?_
    refine (onlyOverflows_toFloat b).bind fun scaled hscaled => ?_
    refine (onlyOverflows_floorOf (isNaN_scaled hx hnan ha hb hscaled)).bind fun tenths _ => ?_
    refine (onlyOverflows_div _ rfl).bind fun quotient _ => ?_
    refine (onlyOverflows_toFloat quotient).bind fun rounded _ => ?_
    split
    · exact onlyOverflows_ok _
    · exact onlyOverflows_ok _

end Num

end RollTray
