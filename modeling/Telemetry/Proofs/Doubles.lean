import Mathlib
import Telemetry.Binary64

/-!
# The order of doubles

Every double has a place among the integers: its bits, read as a sign and a magnitude. Numbers
compare as their places do, and the total order by which values are sorted refines that.
-/

namespace Telemetry.Binary64

open Float.Model Float.Model.UnpackedFloat

/-- Bits read as a sign and a magnitude. -/
def signedMagnitude (bits : ℕ) : ℤ := if bits < 2 ^ 63 then bits else 2 ^ 63 - bits

/-- The place of a double in numeric order. -/
def place (x : Float) : ℤ := signedMagnitude x.toBits.toNat

/-! ## Unpacked doubles -/

/-- The place of an unpacked double. -/
def unpackedPlace : UnpackedFloat → ℤ
  | .infinity s => s.apply (2047 * 2 ^ 52)
  | .notANumber => 0
  | .zero _ => 0
  | .finite s m e _ => s.apply ((e + 1074) * 2 ^ 52 + m)

/-- The mantissa has all its digits unless the exponent is least. -/
def Canonical : UnpackedFloat → Prop
  | .finite _ m e _ => -1074 ≤ e ∧ e ≤ 971 ∧ m < 2 ^ 53 ∧ (e = -1074 ∨ 2 ^ 52 ≤ m)
  | _ => True

/-- Among canonical doubles of one sign the exponent decides, then the mantissa. -/
theorem then_compare_eq {m n : ℕ} {e f : ℤ} (hm : m < 2 ^ 53) (hn : n < 2 ^ 53)
    (he : -1074 ≤ e) (hf : -1074 ≤ f) (hem : e = -1074 ∨ 2 ^ 52 ≤ m)
    (hfn : f = -1074 ∨ 2 ^ 52 ≤ n) :
    (compare e f).then (compare m n) =
      compare ((e + 1074) * 2 ^ 52 + (m : ℤ)) ((f + 1074) * 2 ^ 52 + (n : ℤ)) := by
  rcases lt_trichotomy e f with h | rfl | h
  · rw [compare_lt_iff_lt.2 h]
    exact (compare_lt_iff_lt.2 (by omega)).symm
  · rcases lt_trichotomy m n with h | rfl | h
    · rw [compare_eq_iff_eq.2 rfl, compare_lt_iff_lt.2 h]
      exact (compare_lt_iff_lt.2 (by omega)).symm
    · rw [compare_eq_iff_eq.2 rfl, compare_eq_iff_eq.2 rfl, compare_eq_iff_eq.2 rfl]
      rfl
    · rw [compare_eq_iff_eq.2 rfl, compare_gt_iff_gt.2 h]
      exact (compare_gt_iff_gt.2 (by omega)).symm
  · rw [compare_gt_iff_gt.2 h]
    exact (compare_gt_iff_gt.2 (by omega)).symm

theorem swap_compare_eq_compare_neg (a b : ℤ) : (compare a b).swap = compare (-a) (-b) := by
  rcases lt_trichotomy a b with h | rfl | h
  · rw [compare_lt_iff_lt.2 h]
    exact (compare_gt_iff_gt.2 (by omega)).symm
  · rw [compare_eq_iff_eq.2 rfl, compare_eq_iff_eq.2 rfl]
    rfl
  · rw [compare_gt_iff_gt.2 h]
    exact (compare_lt_iff_lt.2 (by omega)).symm

/-- Canonical doubles compare as their places do. -/
theorem compare_eq_compare_unpackedPlace {u v : UnpackedFloat} (hu : Canonical u)
    (hv : Canonical v) (nu : u.isNaN = false) (nv : v.isNaN = false) :
    u.compare v = some (compare (unpackedPlace u) (unpackedPlace v)) := by
  have lt : ∀ {a b : ℤ}, a < b → some Ordering.lt = some (compare a b) := fun h =>
    congrArg some (compare_lt_iff_lt.2 h).symm
  have gt : ∀ {a b : ℤ}, b < a → some Ordering.gt = some (compare a b) := fun h =>
    congrArg some (compare_gt_iff_gt.2 h).symm
  cases u with
  | notANumber => cases nu
  | infinity s =>
    cases v with
    | notANumber => cases nv
    | infinity t => cases s <;> cases t <;> rfl
    | zero t => cases s <;> rfl
    | finite t n f hn =>
      simp only [Canonical] at hv
      cases s <;> cases t <;> simp only [UnpackedFloat.compare, unpackedPlace, Sign.apply] <;>
        first | exact lt (by omega) | exact gt (by omega)
  | zero s =>
    cases v with
    | notANumber => cases nv
    | infinity t => cases t <;> rfl
    | zero t => rfl
    | finite t n f hn =>
      simp only [Canonical] at hv
      cases t <;> simp only [UnpackedFloat.compare, unpackedPlace, Sign.apply] <;>
        first | exact lt (by omega) | exact gt (by omega)
  | finite s m e hm =>
    simp only [Canonical] at hu
    cases v with
    | notANumber => cases nv
    | infinity t =>
      cases s <;> cases t <;> simp only [UnpackedFloat.compare, unpackedPlace, Sign.apply] <;>
        first | exact lt (by omega) | exact gt (by omega)
    | zero t =>
      cases s <;> simp only [UnpackedFloat.compare, unpackedPlace, Sign.apply] <;>
        first | exact lt (by omega) | exact gt (by omega)
    | finite t n f hn =>
      simp only [Canonical] at hv
      have fields := then_compare_eq hu.2.2.1 hv.2.2.1 hu.1 hv.1 hu.2.2.2 hv.2.2.2
      cases s <;> cases t <;> simp only [UnpackedFloat.compare, unpackedPlace, Sign.apply]
      · rw [fields, swap_compare_eq_compare_neg]
      · exact lt (by omega)
      · exact gt (by omega)
      · rw [fields]

/-! ## Unpacking -/

section Unpack

variable {b : BitVec Format.binary64.numBits}

theorem toNat_unpackMantissa : (unpackMantissa b).toNat = b.toNat % 2 ^ 52 := by
  simp [unpackMantissa, BitVec.extractLsb_toNat]

theorem unpackMantissa_eq_zero_iff : unpackMantissa b = 0#52 ↔ b.toNat % 2 ^ 52 = 0 := by
  rw [← BitVec.toNat_inj, toNat_unpackMantissa, BitVec.toNat_zero]

theorem toNat_unpackExponent : (unpackExponent b).toNat = b.toNat / 2 ^ 52 % 2 ^ 11 := by
  simp [unpackExponent, BitVec.extractLsb_toNat, Nat.shiftRight_eq_div_pow]

theorem unpackExponent_eq_iff (c : BitVec 11) :
    unpackExponent b = c ↔ b.toNat / 2 ^ 52 % 2 ^ 11 = c.toNat := by
  rw [← BitVec.toNat_inj, toNat_unpackExponent]

theorem toNat_unpackSign : (unpackSign b).toNat = b.toNat / 2 ^ 63 % 2 := by
  simp [unpackSign, BitVec.extractLsb_toNat, Nat.shiftRight_eq_div_pow]

theorem unpack_sign :
    Sign.ofBitVec (unpackSign b) = if b.toNat < 2 ^ 63 then .positive else .negative := by
  have hb : b.toNat < 2 ^ 64 := b.isLt
  have h : unpackSign b = 0#1 ↔ b.toNat < 2 ^ 63 := by
    rw [← BitVec.toNat_inj, toNat_unpackSign, BitVec.toNat_zero]
    omega
  simp only [Sign.ofBitVec, h]

theorem apply_unpack_sign (k : ℤ) :
    (Sign.ofBitVec (unpackSign b)).apply k = if b.toNat < 2 ^ 63 then k else -k := by
  rw [unpack_sign]
  split_ifs <;> rfl

theorem toNat_normal_mantissa (m : BitVec 52) : (1#1 ++ m).toNat = 2 ^ 52 + m.toNat := by
  rw [BitVec.toNat_append, ← Nat.shiftLeft_add_eq_or_of_lt m.isLt]
  rfl

/-- Unpacking gives a canonical double with the place that the bits say, unless it gives NaN. -/
theorem canonical_unpack (h : (UnpackedFloat.unpack Format.binary64 b).isNaN = false) :
    Canonical (UnpackedFloat.unpack Format.binary64 b) ∧
      unpackedPlace (UnpackedFloat.unpack Format.binary64 b) = signedMagnitude b.toNat := by
  have hb : b.toNat < 2 ^ 64 := b.isLt
  have bias : (Format.binary64.exponentBias : ℤ) + (52 : ℕ) = 1075 := rfl
  revert h
  unfold UnpackedFloat.unpack
  simp only [bias]
  split_ifs with infinite whole subnormal zeroMantissa
  · intro _
    rw [unpackExponent_eq_iff] at infinite
    rw [unpackMantissa_eq_zero_iff] at whole
    refine ⟨trivial, ?_⟩
    simp only [unpackedPlace, apply_unpack_sign]
    simp at infinite
    unfold signedMagnitude
    split_ifs <;> omega
  · intro h
    cases h
  · intro _
    rw [unpackExponent_eq_iff] at subnormal
    rw [unpackMantissa_eq_zero_iff] at zeroMantissa
    refine ⟨trivial, ?_⟩
    simp only [unpackedPlace]
    simp at subnormal
    unfold signedMagnitude
    split_ifs <;> omega
  · intro _
    rw [unpackExponent_eq_iff] at subnormal
    simp only [Canonical, unpackedPlace, apply_unpack_sign, toNat_unpackMantissa,
      toNat_unpackExponent]
    simp at subnormal
    refine ⟨by omega, ?_⟩
    unfold signedMagnitude
    split_ifs <;> omega
  · intro _
    rw [unpackExponent_eq_iff] at infinite subnormal
    simp only [Canonical, unpackedPlace, apply_unpack_sign, toNat_normal_mantissa,
      toNat_unpackMantissa, toNat_unpackExponent]
    simp at infinite subnormal
    refine ⟨by omega, ?_⟩
    unfold signedMagnitude
    split_ifs <;> omega

end Unpack

/-! ## Packing -/

theorem toNat_packComponents (s : Sign) (e : BitVec 11) (m : BitVec 52) :
    (packComponents Format.binary64 s e m).toNat =
      (s.toBitVec.toNat * 2 ^ 11 + e.toNat) * 2 ^ 52 + m.toNat := by
  change (s.toBitVec ++ e ++ m).toNat = _
  rw [BitVec.toNat_append, BitVec.toNat_append, ← Nat.shiftLeft_add_eq_or_of_lt m.isLt,
    ← Nat.shiftLeft_add_eq_or_of_lt e.isLt, Nat.shiftLeft_eq, Nat.shiftLeft_eq]

theorem toNat_pack_unpack {n : ℕ} {b : BitVec Format.binary64.numBits} (bits : b.toNat = n)
    (hn : 2 ^ 52 ≤ n) (hn' : n < 2047 * 2 ^ 52) :
    (UnpackedFloat.pack Format.binary64 (UnpackedFloat.unpack Format.binary64 b)).toNat = n := by
  have sign : Sign.ofBitVec (unpackSign b) = .positive := by
    rw [unpack_sign, bits, if_pos (by omega)]
  have exponent : (unpackExponent b).toNat = n / 2 ^ 52 % 2 ^ 11 := bits ▸ toNat_unpackExponent
  have mantissa : (unpackMantissa b).toNat = n % 2 ^ 52 := bits ▸ toNat_unpackMantissa
  unfold UnpackedFloat.unpack
  simp only [sign]
  rw [if_neg, if_neg]
  · simp only [UnpackedFloat.pack, toNat_normal_mantissa]
    have log : (2 ^ 52 + (unpackMantissa b).toNat).log2 = 52 := by
      rw [mantissa, Nat.log2_eq_iff (by omega)]
      omega
    have biased : ((unpackExponent b).toNat -
        ((Format.binary64.exponentBias : ℤ) + (Format.binary64.mantissaBitsWithoutImplicit : ℕ)) +
        (Format.binary64.exponentBias : ℤ) +
        (Format.binary64.mantissaBitsWithoutImplicit : ℕ)).toNat = n / 2 ^ 52 := by
      rw [exponent]
      omega
    have bits52 : 52 + 1 = Format.binary64.mantissaBits := rfl
    rw [log, biased, if_neg, if_pos bits52, toNat_packComponents, mantissa, BitVec.toNat_ofNat,
      BitVec.toNat_ofNat]
    · change (0 * 2 ^ 11 + n / 2 ^ 52 % 2 ^ 11) * 2 ^ 52 + (2 ^ 52 + n % 2 ^ 52) % 2 ^ 52 = n
      omega
    · omega
  · rw [← BitVec.toNat_inj, exponent]
    simp
    omega
  · rw [← BitVec.toNat_inj, exponent]
    simp
    omega

/-- A positive normal double has the bits that it is made of. -/
theorem toNat_toBits_ofBits {n : ℕ} (hn : 2 ^ 52 ≤ n) (hn' : n < 2047 * 2 ^ 52) :
    (Float.ofBits (UInt64.ofNat n)).toBits.toNat = n := by
  refine toNat_pack_unpack ?_ hn hn'
  change n % 2 ^ 64 = n
  omega

theorem isFinite_of_toBits_lt {x : Float} (hx : x.toBits.toNat < 2047 * 2 ^ 52) :
    x.isFinite = true := by
  have exponent : @unpackExponent Format.binary64 x.toBits.toBitVec ≠ -1#11 := by
    rw [ne_eq, ← BitVec.toNat_inj, toNat_unpackExponent]
    change x.toBits.toNat / 2 ^ 52 % 2 ^ 11 ≠ 2047
    omega
  change (UnpackedFloat.unpack Format.binary64 x.toBits.toBitVec).isFinite = true
  unfold UnpackedFloat.unpack
  simp only
  rw [if_neg exponent]
  split_ifs <;> rfl

theorem isNaN_of_isFinite {x : Float} (hx : x.isFinite = true) : x.isNaN = false := by
  change x.toModel.unpack.isFinite = true at hx
  change x.toModel.unpack.isNaN = false
  cases h : x.toModel.unpack with
  | notANumber =>
    rw [h] at hx
    cases hx
  | infinity | zero | finite => rfl

/-! ## Comparing doubles -/

theorem compare_eq_compare_place {x y : Float} (hx : x.isNaN = false) (hy : y.isNaN = false) :
    x.toModel.unpack.compare y.toModel.unpack = some (compare (place x) (place y)) := by
  obtain ⟨cx, px⟩ := canonical_unpack (b := x.toModel.toBits.toBitVec) hx
  obtain ⟨cy, py⟩ := canonical_unpack (b := y.toModel.toBits.toBitVec) hy
  have h := compare_eq_compare_unpackedPlace cx cy hx hy
  rw [px, py] at h
  exact h

/-- Numbers are ordered as their places. -/
theorem lt_iff_place_lt {x y : Float} (hx : x.isNaN = false) (hy : y.isNaN = false) :
    x < y ↔ place x < place y := by
  have h := compare_eq_compare_place hx hy
  change decide (x.toModel < y.toModel) = true ↔ _
  rw [decide_eq_true_iff]
  change (x.toModel.unpack.compare y.toModel.unpack == some .lt) = true ↔ _
  rw [h, beq_iff_eq, Option.some_inj, compare_lt_iff_lt]

theorem le_iff_place_le {x y : Float} (hx : x.isNaN = false) (hy : y.isNaN = false) :
    x ≤ y ↔ place x ≤ place y := by
  have h := compare_eq_compare_place hx hy
  change decide (x.toModel ≤ y.toModel) = true ↔ _
  rw [decide_eq_true_iff]
  change (x.toModel.unpack.compare y.toModel.unpack).any (·.isLE) = true ↔ _
  rw [h, Option.any_some, Ordering.isLE_iff_ne_gt]
  exact (not_congr compare_gt_iff_gt).trans not_lt

/-! ## The total order -/

theorem and_signBit_eq_zero_iff (n : ℕ) (hn : n < 2 ^ 64) : n &&& 2 ^ 63 = 0 ↔ n < 2 ^ 63 := by
  rw [Nat.and_two_pow, Nat.testBit_eq_decide_div_mod_eq]
  rcases lt_or_ge n (2 ^ 63) with h | h
  · rw [Nat.div_eq_of_lt h]
    simpa using h
  · rw [show n / 2 ^ 63 = 1 by omega]
    simpa using h

theorem or_signBit (n : ℕ) (hn : n < 2 ^ 63) : n ||| 2 ^ 63 = 2 ^ 63 + n := by
  have h := Nat.two_pow_add_eq_or_of_lt hn 1
  rw [Nat.mul_one] at h
  rw [h, Nat.or_comm]

theorem toNat_keyOfBits (bits : UInt64) : (keyOfBits bits).toNat =
    if bits.toNat < 2 ^ 63 then 2 ^ 63 + bits.toNat else 2 ^ 64 - 1 - bits.toNat := by
  have sign : bits &&& 0x8000000000000000 = 0 ↔ bits.toNat < 2 ^ 63 := by
    rw [← UInt64.toNat_inj, UInt64.toNat_and]
    exact and_signBit_eq_zero_iff _ bits.toNat_lt
  simp only [keyOfBits, sign]
  split_ifs with h
  · rw [UInt64.toNat_or]
    exact or_signBit _ h
  · rw [UInt64.toNat_not]
    rfl

/-- Different bits have different keys. -/
theorem keyOfBits_injective : Function.Injective keyOfBits := by
  intro a b h
  have key := congrArg UInt64.toNat h
  rw [toNat_keyOfBits, toNat_keyOfBits] at key
  have ha := a.toNat_lt
  have hb := b.toNat_lt
  refine UInt64.toNat_inj.1 ?_
  split_ifs at key <;> omega

/-- The order of keys refines that of signed magnitudes. -/
theorem signedMagnitude_le_of_keyOfBits_le {a b : UInt64} (h : keyOfBits a ≤ keyOfBits b) :
    signedMagnitude a.toNat ≤ signedMagnitude b.toNat := by
  rw [UInt64.le_iff_toNat_le, toNat_keyOfBits, toNat_keyOfBits] at h
  have ha := a.toNat_lt
  have hb := b.toNat_lt
  unfold signedMagnitude
  split_ifs at h ⊢ <;> omega

theorem toNat_orderKey (x : Float) : (orderKey x).toNat =
    if x.toBits.toNat < 2 ^ 63 then 2 ^ 63 + x.toBits.toNat else 2 ^ 64 - 1 - x.toBits.toNat :=
  toNat_keyOfBits x.toBits

theorem totalLe_iff (x y : Float) : totalLe x y = true ↔ orderKey x ≤ orderKey y :=
  decide_eq_true_iff

theorem totalLe_total (x y : Float) : (totalLe x y || totalLe y x) = true := by
  rw [Bool.or_eq_true, totalLe_iff, totalLe_iff]
  exact UInt64.le_total _ _

theorem totalLe_trans (x y z : Float) (hxy : totalLe x y = true) (hyz : totalLe y z = true) :
    totalLe x z = true := by
  rw [totalLe_iff] at *
  exact UInt64.le_trans hxy hyz

theorem totalLe_antisymm {x y : Float} (hxy : totalLe x y = true) (hyx : totalLe y x = true) :
    x = y := by
  rw [totalLe_iff] at hxy hyx
  exact Float.toBits_inj.1 (keyOfBits_injective (UInt64.le_antisymm hxy hyx))

/-- The total order refines the numeric order. -/
theorem place_le_of_totalLe {x y : Float} (h : totalLe x y = true) : place x ≤ place y :=
  signedMagnitude_le_of_keyOfBits_le ((totalLe_iff x y).1 h)

/-! ## Doubles in a row -/

/-- The double `2 ^ 52 + k`. -/
def whole (k : ℕ) : Float := Float.ofBits (UInt64.ofNat (1075 * 2 ^ 52 + k))

section Whole

variable {k : ℕ} (hk : k < 2 ^ 52)

include hk

theorem toNat_toBits_whole : (whole k).toBits.toNat = 1075 * 2 ^ 52 + k :=
  toNat_toBits_ofBits (by omega) (by omega)

theorem place_whole : place (whole k) = 1075 * 2 ^ 52 + k := by
  rw [place, toNat_toBits_whole hk, signedMagnitude, if_pos (by omega)]
  push_cast
  rfl

theorem isFinite_whole : (whole k).isFinite = true :=
  isFinite_of_toBits_lt (by rw [toNat_toBits_whole hk]; omega)

end Whole

theorem whole_lt_whole_iff {j k : ℕ} (hj : j < 2 ^ 52) (hk : k < 2 ^ 52) :
    whole j < whole k ↔ j < k := by
  rw [lt_iff_place_lt (isNaN_of_isFinite (isFinite_whole hj))
    (isNaN_of_isFinite (isFinite_whole hk)), place_whole hj, place_whole hk]
  omega

theorem totalLe_whole {j k : ℕ} (le : j ≤ k) (hk : k < 2 ^ 52) :
    totalLe (whole j) (whole k) = true := by
  rw [totalLe_iff, UInt64.le_iff_toNat_le, toNat_orderKey, toNat_orderKey, toNat_toBits_whole hk,
    toNat_toBits_whole (le.trans_lt hk), if_pos (by omega), if_pos (by omega)]
  omega

example : whole 1155 = 4503599627371651 := by decide +kernel

end Telemetry.Binary64
