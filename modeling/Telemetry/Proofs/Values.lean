import Telemetry.Proofs.WholeSums

/-!
# The numbers that doubles stand for

Finite doubles are ordered as the rational numbers that they stand for: a greater place has a
greater exponent, or the same one and a greater mantissa (`toRat_lt_toRat_iff`). A double is packed
from what it is unpacked to, and multiplied by one it needs no rounding, so that a value counted
once is itself (`mul_ofNat_one`). Turned into a natural number a double is rounded down, as far as
64 bits go (`truncate_eq`).
-/

namespace Telemetry.Binary64

open Float.Model Float.Model.UnpackedFloat

variable {x y : Float} {u v : UnpackedFloat}

/-! ## Numbers and places -/

/-- The rational number that an unpacked double stands for. -/
def unpackedRat : UnpackedFloat → ℚ
  | .finite s m e _ => s.apply m * 2 ^ e
  | _ => 0

theorem toRat_eq (x : Float) : toRat x = unpackedRat x.toModel.unpack := by
  unfold toRat unpackedRat
  cases x.toModel.unpack <;> rfl

theorem unpackedPlace_unpack (hx : x.isNaN = false) :
    unpackedPlace x.toModel.unpack = place x :=
  (canonical_unpack (b := x.toModel.toBits.toBitVec) hx).2

/-- A mantissa of all digits outweighs any other with a lesser exponent. -/
theorem mul_zpow_lt_mul_zpow {m n : ℕ} {e f : ℤ} (hm : m < 2 ^ 53) (full : 2 ^ 52 ≤ n)
    (h : e < f) : (m * 2 ^ e : ℚ) < n * 2 ^ f := by
  have hm : (m : ℚ) < 2 ^ 53 := by exact_mod_cast hm
  have full : (2 ^ 52 : ℚ) ≤ n := by exact_mod_cast full
  calc (m * 2 ^ e : ℚ) < 2 ^ 53 * 2 ^ e := by gcongr
    _ = 2 ^ 52 * 2 ^ (e + 1) := by rw [zpow_add_one₀ two_ne_zero]; ring
    _ ≤ n * 2 ^ f := by
      gcongr
      · exact one_le_two
      · exact h

/-- Among canonical doubles of one sign a greater place has a greater number. -/
theorem mul_zpow_lt_of_place_lt {s t : Sign} {m n : ℕ} {e f : ℤ} {hm : 0 < m} {hn : 0 < n}
    (hu : Canonical (.finite s m e hm)) (hv : Canonical (.finite t n f hn))
    (h : (e + 1074) * 2 ^ 52 + (m : ℤ) < (f + 1074) * 2 ^ 52 + n) :
    (m * 2 ^ e : ℚ) < n * 2 ^ f := by
  obtain ⟨he, -, hm, hem⟩ := hu
  obtain ⟨hf, -, hn, hfn⟩ := hv
  rcases lt_trichotomy e f with less | rfl | greater
  · exact mul_zpow_lt_mul_zpow hm (hfn.resolve_left (by omega)) less
  · have less : (m : ℚ) < n := by
      have : m < n := by omega
      exact_mod_cast this
    gcongr
  · omega

theorem unpackedRat_lt (hu : Canonical u) (hv : Canonical v) (fu : u.isFinite = true)
    (fv : v.isFinite = true) (h : unpackedPlace u < unpackedPlace v) :
    unpackedRat u < unpackedRat v := by
  have value_pos : ∀ (m : ℕ) (e : ℤ), 0 < m → (0 : ℚ) < m * 2 ^ e := fun m e pos => by positivity
  cases u with
  | notANumber | infinity => cases fu
  | zero s =>
    cases v with
    | notANumber | infinity => cases fv
    | zero t => exact absurd h (lt_irrefl _)
    | finite t n f hn =>
      have low := hv.1
      cases t <;> simp only [unpackedPlace, unpackedRat, Sign.apply, Int.cast_natCast] at h ⊢
      · omega
      · exact value_pos n f hn
  | finite s m e hm =>
    have low := hu.1
    cases v with
    | notANumber | infinity => cases fv
    | zero t =>
      cases s <;> simp only [unpackedPlace, unpackedRat, Sign.apply, Int.cast_neg, Int.cast_natCast,
        neg_mul] at h ⊢
      · exact neg_neg_of_pos (value_pos m e hm)
      · omega
    | finite t n f hn =>
      have low' := hv.1
      cases s <;> cases t <;> simp only [unpackedPlace, unpackedRat, Sign.apply, Int.cast_neg,
        Int.cast_natCast, neg_mul] at h ⊢
      · exact neg_lt_neg (mul_zpow_lt_of_place_lt hv hu (neg_lt_neg_iff.1 h))
      · exact (neg_neg_of_pos (value_pos m e hm)).trans (value_pos n f hn)
      · omega
      · exact mul_zpow_lt_of_place_lt hu hv h

theorem unpackedRat_congr (hu : Canonical u) (hv : Canonical v) (fu : u.isFinite = true)
    (fv : v.isFinite = true) (h : unpackedPlace u = unpackedPlace v) :
    unpackedRat u = unpackedRat v := by
  cases u with
  | notANumber | infinity => cases fu
  | zero s =>
    cases v with
    | notANumber | infinity => cases fv
    | zero t => rfl
    | finite t n f hn =>
      simp only [Canonical] at hv
      cases t <;> simp only [unpackedPlace, Sign.apply] at h <;> omega
  | finite s m e hm =>
    simp only [Canonical] at hu
    cases v with
    | notANumber | infinity => cases fv
    | zero t => cases s <;> simp only [unpackedPlace, Sign.apply] at h <;> omega
    | finite t n f hn =>
      simp only [Canonical] at hv
      have same : s = t ∧ e = f ∧ m = n := by
        cases s <;> cases t <;> simp only [unpackedPlace, Sign.apply] at h <;>
          simp only [true_and, reduceCtorEq, false_and] <;> omega
      obtain ⟨rfl, rfl, rfl⟩ := same
      rfl

/-- Finite doubles are ordered as the numbers that they stand for. -/
theorem toRat_lt_toRat_iff (hx : x.isFinite = true) (hy : y.isFinite = true) :
    toRat x < toRat y ↔ x < y := by
  have less : ∀ {x y : Float}, x.isFinite = true → y.isFinite = true → place x < place y →
      toRat x < toRat y := by
    intro x y hx hy h
    rw [toRat_eq, toRat_eq]
    refine unpackedRat_lt (canonical_unpack_toModel x) (canonical_unpack_toModel y) hx hy ?_
    rwa [unpackedPlace_unpack (isNaN_of_isFinite hx), unpackedPlace_unpack (isNaN_of_isFinite hy)]
  rw [lt_iff_place_lt (isNaN_of_isFinite hx) (isNaN_of_isFinite hy)]
  refine ⟨fun h => ?_, less hx hy⟩
  rcases lt_trichotomy (place x) (place y) with less | same | greater
  · exact less
  · have equal : toRat x = toRat y := by
      rw [toRat_eq, toRat_eq]
      refine unpackedRat_congr (canonical_unpack_toModel x) (canonical_unpack_toModel y) hx hy ?_
      rwa [unpackedPlace_unpack (isNaN_of_isFinite hx),
        unpackedPlace_unpack (isNaN_of_isFinite hy)]
    exact absurd h equal.not_lt
  · exact absurd h (less hy hx greater).not_gt

theorem toRat_le_toRat_iff (hx : x.isFinite = true) (hy : y.isFinite = true) :
    toRat x ≤ toRat y ↔ x ≤ y := by
  rw [← not_lt, toRat_lt_toRat_iff hy hx,
    le_iff_place_le (isNaN_of_isFinite hx) (isNaN_of_isFinite hy),
    lt_iff_place_lt (isNaN_of_isFinite hy) (isNaN_of_isFinite hx), not_lt]

/-! ## Multiplying by one -/

section Unpack

variable {b : BitVec Format.binary64.numBits}

/-- A word is its own sign, exponent and mantissa put together. -/
theorem packComponents_unpack (b : BitVec Format.binary64.numBits) :
    packComponents Format.binary64 (Sign.ofBitVec (unpackSign b)) (unpackExponent b)
      (unpackMantissa b) = b := by
  have hb : b.toNat < 2 ^ 64 := b.isLt
  apply BitVec.eq_of_toNat_eq
  rw [toNat_packComponents, toNat_unpackExponent, toNat_unpackMantissa, unpack_sign]
  split_ifs <;> simp only [Sign.toBitVec, BitVec.toNat_ofNat] <;> omega

theorem packComponents_of_fields {e : BitVec 11} {m : BitVec 52} (he : unpackExponent b = e)
    (hm : unpackMantissa b = m) :
    packComponents Format.binary64 (Sign.ofBitVec (unpackSign b)) e m = b := by
  rw [← he, ← hm]
  exact packComponents_unpack b

/-- Unpacking loses nothing of a word that is a double. -/
theorem pack_unpack (valid : Format.binary64.Valid b) :
    UnpackedFloat.pack Format.binary64 (UnpackedFloat.unpack Format.binary64 b) = b := by
  have hb : b.toNat < 2 ^ 64 := b.isLt
  have exponent := toNat_unpackExponent (b := b)
  have mantissa := toNat_unpackMantissa (b := b)
  have bias : (Format.binary64.exponentBias : ℤ) + (52 : ℕ) = 1075 := rfl
  unfold UnpackedFloat.unpack
  simp only [bias]
  split_ifs with proper whole subnormal zeroMantissa
  · exact packComponents_of_fields proper whole
  · exact (valid.eq_packedNaN proper whole).symm
  · exact packComponents_of_fields subnormal zeroMantissa
  · have digits : (unpackMantissa b).toNat.log2 < 52 := by
      refine (Nat.log2_lt ?_).2 (by omega)
      exact fun zero => zeroMantissa (BitVec.eq_of_toNat_eq zero)
    have least : (unpackExponent b).toNat = 0 := congrArg BitVec.toNat subnormal
    rw [pack_finite, if_neg (by omega), if_neg digits.ne]
    refine packComponents_of_fields subnormal ?_
    rw [BitVec.ofNat_toNat, BitVec.setWidth_eq]
  · have low : (unpackExponent b).toNat ≠ 0 := fun zero =>
      subnormal (BitVec.eq_of_toNat_eq zero)
    have high : (unpackExponent b).toNat ≠ 2047 := fun full =>
      proper (BitVec.eq_of_toNat_eq full)
    have filled := toNat_normal_mantissa (unpackMantissa b)
    have digits : (1#1 ++ unpackMantissa b).toNat.log2 = 52 := by
      rw [filled, Nat.log2_eq_iff (by omega)]
      omega
    rw [pack_finite, if_neg (by omega), if_pos digits]
    apply packComponents_of_fields
    · rw [Int.sub_add_cancel, Int.toNat_natCast, BitVec.ofNat_toNat, BitVec.setWidth_eq]
    · apply BitVec.eq_of_toNat_eq
      rw [filled, BitVec.toNat_ofNat]
      change (unpackMantissa b).toNat = (2 ^ 52 + (unpackMantissa b).toNat) % 2 ^ 52
      omega

end Unpack

/-- A double is packed from what it is unpacked to. -/
theorem packed_unpack (x : Float) : packed x.toModel.unpack = x := by
  obtain ⟨⟨bits, valid⟩⟩ := x
  have same : UnpackedFloat.pack .binary64 (UnpackedFloat.unpack .binary64 bits.toBitVec) =
      bits.toBitVec := pack_unpack valid
  simp only [packed, Float.Model.pack, Float.Model.unpack, same]

/-- A mantissa that has no more digits than fit is not rounded, however it is scaled. -/
theorem roundWithAccuracy_mul_two_pow {s : Sign} {m : ℕ} {e : ℤ} {pos : 0 < m}
    (h : Canonical (.finite s m e pos)) (k : ℕ) :
    roundWithAccuracy Format.binary64 s (m * 2 ^ k) (e - k) .exact = .finite s m e pos := by
  obtain ⟨low, -, small, full⟩ := h
  have digits : m.log2 ≤ 52 := Nat.le_of_lt_succ ((Nat.log2_lt pos.ne').2 small)
  have digits_full : 2 ^ 52 ≤ m → m.log2 = 52 := fun full =>
    (Nat.log2_eq_iff pos.ne').2 ⟨full, small⟩
  have target : (Format.binary64.targetExponent (totalExponent (m * 2 ^ k) (e - k)) -
      (e - k)).toNat = k := by
    rw [targetExponent_eq, log2_mul_two_pow pos.ne']
    omega
  have settled : (Format.binary64.targetExponent (totalExponent m e) - e).toNat = 0 := by
    rw [targetExponent_eq]
    omega
  have exponent : e - k + k = e := Int.sub_add_cancel e k
  unfold roundWithAccuracy
  simp only [shiftToTargetExponent, shiftToExponent, target, roundedMantissa_shiftRight,
    roundEven_mul_two_pow, exponent, settled]
  simp only [shiftRight_exact, Nat.pow_zero, Nat.div_one]
  exact (dif_neg pos.ne').trans (by congr; omega)

/-- A double that is counted once stays as it is. -/
theorem mul_ofNat_one (x : Float) : x * Float.ofNat 1 = x := by
  have one : (Float.ofNat 1).toModel.unpack =
      .finite .positive (2 ^ 52) (-52) (Nat.two_pow_pos 52) :=
    unpack_ofInt .positive one_pos (by decide)
  have positive : ∀ s : Sign, s * .positive = s := by
    intro s
    cases s <;> rfl
  have canonical := canonical_unpack_toModel x
  refine Eq.trans ?_ (packed_unpack x)
  change packed (UnpackedFloat.mul Format.binary64 x.toModel.unpack (Float.ofNat 1).toModel.unpack)
    = _
  rw [one]
  cases unpacked : x.toModel.unpack with
  | notANumber => rfl
  | infinity s | zero s =>
    rw [UnpackedFloat.mul, positive]
  | finite s m e pos =>
    rw [unpacked] at canonical
    rw [UnpackedFloat.mul, positive]
    exact congrArg packed (roundWithAccuracy_mul_two_pow canonical 52)

/-! ## Rounding down -/

theorem floor_mul_zpow_natCast (m k : ℕ) : ⌊(m * 2 ^ (k : ℤ) : ℚ)⌋ = m * 2 ^ k := by
  rw [zpow_natCast]
  exact_mod_cast Int.floor_natCast (m * 2 ^ k)

theorem floor_mul_zpow_neg (m k : ℕ) : ⌊(m * 2 ^ (-k : ℤ) : ℚ)⌋ = m / 2 ^ k := by
  rw [zpow_neg, zpow_natCast, ← div_eq_mul_inv]
  exact_mod_cast Rat.floor_natCast_div_natCast m (2 ^ k)

/-- Toward zero a number is rounded by the digits before the point. -/
theorem roundToInt_eq (s : Sign) (m : ℕ) (e : ℤ) :
    roundToInt s m e = s.apply ⌊(m * 2 ^ e : ℚ)⌋ := by
  unfold roundToInt
  simp only [decreaseExponent, shiftToExponent, shiftRight_exact, Nat.shiftLeft_eq]
  congr 1
  rcases le_total 0 e with whole | fraction
  · obtain ⟨k, rfl⟩ := Int.eq_ofNat_of_zero_le whole
    have shifts : ((k : ℤ) - 0).toNat = k ∧ (0 - ((k : ℤ) - k)).toNat = 0 := by omega
    rw [shifts.1, shifts.2, floor_mul_zpow_natCast, Nat.pow_zero, Nat.div_one]
    push_cast
    rfl
  · obtain ⟨k, hk⟩ := Int.eq_ofNat_of_zero_le (neg_nonneg.2 fraction)
    obtain rfl : e = -k := by omega
    have shifts : (-(k : ℤ) - 0).toNat = 0 ∧ (0 - (-(k : ℤ) - (0 : ℕ))).toNat = k := by omega
    rw [shifts.1, shifts.2, floor_mul_zpow_neg, Nat.pow_zero, Nat.mul_one]
    push_cast
    rfl

theorem toNat_ofNatClamp (n : ℕ) : (UInt64.ofNatClamp n).toNat = min n (2 ^ 64 - 1) := by
  unfold UInt64.ofNatClamp
  split_ifs with h
  · change n = _
    change n < 2 ^ 64 at h
    omega
  · change 2 ^ 64 - 1 = _
    change ¬n < 2 ^ 64 at h
    omega

/-- A finite double is rounded down, to zero if it is negative. -/
theorem truncate_eq (hx : x.isFinite = true) :
    truncate x = min ⌊toRat x⌋.toNat (2 ^ 64 - 1) := by
  change (UInt64.ofNatClamp (toInt 0 (2 ^ 64 - 1) x.toModel.unpack).toNat).toNat = _
  rw [toNat_ofNatClamp, toRat_eq]
  congr 1
  change x.toModel.unpack.isFinite = true at hx
  cases unpacked : x.toModel.unpack with
  | notANumber | infinity =>
    rw [unpacked] at hx
    cases hx
  | zero s => rfl
  | finite s m e pos =>
    rw [toInt, roundToInt_eq, unpackedRat]
    cases s with
    | positive => rfl
    | negative =>
      have value : (0 : ℚ) ≤ m * 2 ^ e := by positivity
      have floor : 0 ≤ ⌊(m * 2 ^ e : ℚ)⌋ := Int.floor_nonneg.2 value
      have below : ⌊(-(m * 2 ^ e) : ℚ)⌋ ≤ 0 := Int.floor_nonpos (neg_nonpos.2 value)
      have negated : (((Sign.negative.apply m : ℤ) : ℚ) * 2 ^ e) = -(m * 2 ^ e) := by
        rw [Sign.apply, Int.cast_neg, neg_mul, Int.cast_natCast]
      rw [negated, Sign.apply, Int.toNat_of_nonpos (neg_nonpos.2 floor),
        Int.toNat_of_nonpos below]

/-- An infinity is rounded to zero or to the greatest number of 64 bits, and NaN to zero. -/
theorem truncate_of_not_isFinite (hx : x.isFinite = false) :
    truncate x = if 0 < x then 2 ^ 64 - 1 else 0 := by
  have positive : 0 < x ↔
      (UnpackedFloat.compare (.zero .positive) x.toModel.unpack == some .lt) = true := by
    change decide ((0 : Float).toModel < x.toModel) = true ↔ _
    rw [decide_eq_true_iff]
    rfl
  simp only [positive]
  change (UInt64.ofNatClamp (toInt 0 (2 ^ 64 - 1) x.toModel.unpack).toNat).toNat = _
  change x.toModel.unpack.isFinite = false at hx
  rw [toNat_ofNatClamp]
  cases unpacked : x.toModel.unpack with
  | notANumber => rfl
  | infinity s => cases s <;> rfl
  | zero | finite =>
    rw [unpacked] at hx
    cases hx
end Telemetry.Binary64
