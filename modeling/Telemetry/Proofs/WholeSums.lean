import Mathlib.Algebra.Order.Group.Abs
import Telemetry.Proofs.Rounding

/-!
# Sums of whole numbers

Doubles are added by aligning the two mantissas to one exponent, adding them as integers and
rounding the result. Integers of at most `2 ^ 53` have 53 digits or end in zeros, so that none of
these steps loses anything (`ofInt_add_ofInt`). The running sum of a list of integers stays exact
as long as their sizes add up to no more (`foldl_add_ofInt`), and so it does not depend on their
order.
-/

namespace Telemetry.Binary64

open Float.Model Float.Model.UnpackedFloat

/-! ## Rounding at a place -/

theorem roundEven_mul_two_pow_add (m j k : ℕ) : roundEven (m * 2 ^ j) (k + j) = roundEven m k := by
  have pos := Nat.two_pow_pos j
  have less : 2 ^ k * 2 ^ j < 2 * (m % 2 ^ k * 2 ^ j) ↔ 2 ^ k < 2 * (m % 2 ^ k) := by
    rw [← Nat.mul_assoc]
    exact Nat.mul_lt_mul_right pos
  have half : 2 * (m % 2 ^ k * 2 ^ j) = 2 ^ k * 2 ^ j ↔ 2 * (m % 2 ^ k) = 2 ^ k := by
    rw [← Nat.mul_assoc]
    exact Nat.mul_left_inj pos.ne'
  simp only [roundEven, Nat.pow_add, Nat.mul_div_mul_right _ _ pos, Nat.mul_mod_mul_right, less,
    half]

/-- The unpacked double of a sign with the place next to a positive number. -/
def Near (s : Sign) (n : ℕ) (u : UnpackedFloat) : Prop :=
  ∃ m e pos, u = .finite s m e pos ∧ 2 ^ 52 ≤ m ∧ m < 2 ^ 53 ∧ -1074 ≤ e ∧
    (e + 1074) * 2 ^ 52 + m = nearPlace n

variable {s t : Sign} {n k : ℕ} {u v : UnpackedFloat}

theorem Near.unique (hu : Near s n u) (hv : Near s n v) : u = v := by
  obtain ⟨m, e, pos, rfl, low, high, bound, place⟩ := hu
  obtain ⟨m', e', pos', rfl, low', high', bound', place'⟩ := hv
  obtain rfl : m = m' := by omega
  obtain rfl : e = e' := by omega
  rfl

theorem nearPlace_mul_two_pow (hn : 0 < n) (k : ℕ) :
    nearPlace (n * 2 ^ k) = nearPlace n + k * 2 ^ 52 := by
  have exponent : n.log2 + k + 1 = n.log2 + 1 + k := Nat.add_right_comm ..
  rw [nearPlace, nearPlace, log2_mul_two_pow hn.ne', exponent, Nat.mul_right_comm,
    roundEven_mul_two_pow_add]
  omega

/-- Unless it is too small for 53 digits, a number with an exponent is rounded to the place next to
it. -/
theorem exists_round_near {m : ℕ} {e : ℤ} (s : Sign) (hm : 0 < m) (he : -1074 ≤ e)
    (normal : -1022 ≤ m.log2 + e) : ∃ n f pos,
      UnpackedFloat.round Format.binary64 s m e = .finite s n f pos ∧ 2 ^ 52 ≤ n ∧ n < 2 ^ 53 ∧
        -1074 ≤ f ∧ (f + 1074) * 2 ^ 52 + n = nearPlace m + e * 2 ^ 52 := by
  have target : (e - Format.binary64.targetExponent (totalExponent m e)).toNat = 52 - m.log2 := by
    rw [targetExponent_eq]
    omega
  obtain ⟨j, hj⟩ : ∃ j, j = 52 - m.log2 := ⟨_, rfl⟩
  have digits : (m * 2 ^ j).log2 = m.log2 + j := log2_mul_two_pow hm.ne' j
  have filled : 2 ^ 52 ≤ m * 2 ^ j :=
    (Nat.le_log2 (Nat.mul_pos hm (Nat.two_pow_pos j)).ne').1 (by omega)
  obtain ⟨n, f, pos, eq, low, high, bound, place⟩ :=
    exists_roundWithAccuracy s filled (e := e - j) (by omega)
  have rounded : roundEven (m * 2 ^ j) (m.log2 + j - 52) = roundEven (m * 2 ^ 53) (m.log2 + 1) := by
    rw [← roundEven_mul_two_pow_add _ 53, ← roundEven_mul_two_pow_add (m * 2 ^ 53) j,
      Nat.mul_right_comm]
    congr 1
    omega
  refine ⟨n, f, pos, ?_, low, high, by omega, ?_⟩
  · rw [UnpackedFloat.round, decreaseExponent, target, Nat.shiftLeft_eq, ← hj]
    exact eq
  · rw [place, digits, rounded, nearPlace]
    push_cast
    omega

/-- A number that is scaled before it is rounded keeps its place. -/
theorem near_round (s : Sign) (hn : 0 < n) (hk : k ≤ 1022) :
    Near s n (UnpackedFloat.round Format.binary64 s (n * 2 ^ k) (-k)) := by
  have digits : (n * 2 ^ k).log2 = n.log2 + k := log2_mul_two_pow hn.ne' k
  obtain ⟨m, e, pos, eq, low, high, bound, place⟩ :=
    exists_round_near s (Nat.mul_pos hn (Nat.two_pow_pos k)) (e := -k) (by omega) (by omega)
  refine ⟨m, e, pos, eq, low, high, bound, ?_⟩
  rw [place, nearPlace_mul_two_pow hn]
  push_cast
  omega

theorem nearPlace_lt : nearPlace n < (n.log2 + 1025) * 2 ^ 52 := by
  have high := roundEven_digits_le n
  unfold nearPlace
  omega

theorem Near.canonical (h : Near s n u) (hn : 0 < n) (small : n < 2 ^ 54) : Canonical u := by
  obtain ⟨m, e, pos, rfl, low, high, bound, place⟩ := h
  have digits : n.log2 < 54 := (Nat.log2_lt hn.ne').2 small
  have lt := nearPlace_lt (n := n)
  exact ⟨bound, by omega, high, .inr low⟩

/-- Integers below `2 ^ 54` stand at their place. -/
theorem Near.packed_eq (h : Near s n u) (hn : 0 < n) (small : n < 2 ^ 54) :
    packed u = Float.ofInt (s.apply n) := by
  obtain ⟨m, e, pos, eq, low, high, bound, place⟩ := exists_ofNat hn
  have near : Near .positive n (.finite .positive m e pos) :=
    ⟨m, e, pos, rfl, low, high, bound, place⟩
  cases s with
  | positive =>
    rw [h.unique near]
    exact eq.symm
  | negative =>
    have negated : Float.ofInt (-(n : ℤ)) = -Float.ofNat n := by
      obtain ⟨p, rfl⟩ := Nat.exists_eq_succ_of_ne_zero hn.ne'
      rfl
    have unpacked := unpack_packed (near.canonical hn small)
    rw [Sign.apply, negated, eq, h.unique ⟨m, e, pos, rfl, low, high, bound, place⟩]
    change _ = packed (packed (.finite .positive m e pos)).toModel.unpack.neg
    rw [unpacked]
    rfl

/-! ## Integers with a sign -/

theorem exists_eq_apply {a : ℤ} (ha : a ≠ 0) :
    ∃ s n, 0 < n ∧ n = a.natAbs ∧ a = Sign.apply s n := by
  rcases ha.lt_or_gt with negative | positive
  · exact ⟨.negative, a.natAbs, by omega, rfl, by rw [Sign.apply]; omega⟩
  · exact ⟨.positive, a.natAbs, by omega, rfl, by rw [Sign.apply]; omega⟩

theorem apply_mul (s : Sign) (a b : ℤ) : s.apply (a * b) = s.apply a * b := by
  cases s
  · exact neg_mul_eq_neg_mul a b
  · rfl

/-- An integer that is not zero is rounded with its sign apart. -/
theorem normalize_apply (s : Sign) (hn : 0 < n) (e : ℤ) :
    UnpackedFloat.normalize Format.binary64 (s.apply n) e .positive =
      UnpackedFloat.round Format.binary64 s n e := by
  rw [UnpackedFloat.normalize.eq_def]
  cases s with
  | positive =>
    have sign : compare (Sign.apply .positive n) 0 = .gt :=
      compare_gt_iff_gt.2 (Int.natCast_pos.2 hn)
    rw [sign]
    rfl
  | negative =>
    have sign : compare (Sign.apply .negative n) 0 = .lt :=
      compare_lt_iff_lt.2 (neg_neg_of_pos (Int.natCast_pos.2 hn))
    rw [sign]
    dsimp only [Sign.apply]
    rw [neg_neg, Int.toNat_natCast]

/-- Rounding an integer, scaled or not, gives its double. -/
theorem packed_normalize {a : ℤ} (small : a.natAbs < 2 ^ 54) (hk : k ≤ 1022) :
    packed (UnpackedFloat.normalize Format.binary64 (a * 2 ^ k) (-k) .positive) =
      Float.ofInt a := by
  by_cases zero : a = 0
  · rw [zero, zero_mul]
    rfl
  obtain ⟨s, n, hn, abs, eq⟩ := exists_eq_apply zero
  have scaled : a * 2 ^ k = s.apply (n * 2 ^ k : ℕ) := by
    rw [eq, Nat.cast_mul, apply_mul]
    push_cast
    rfl
  rw [scaled, normalize_apply s (Nat.mul_pos hn (Nat.two_pow_pos k)),
    (near_round s hn hk).packed_eq hn (abs ▸ small), ← eq]

theorem unpack_ofInt (s : Sign) (hn : 0 < n) (small : n < 2 ^ 53) :
    (Float.ofInt (s.apply n)).toModel.unpack =
      .finite s (scaled n) (-(52 - n.log2 : ℕ)) (scaled_pos hn) := by
  have digits : n.log2 ≤ 52 := Nat.le_of_lt_succ ((Nat.log2_lt hn.ne').2 small)
  have near : Near s n (.finite s (scaled n) (-(52 - n.log2 : ℕ)) (scaled_pos hn)) := by
    refine ⟨_, _, _, rfl, le_scaled hn small, scaled_lt hn small, by omega, ?_⟩
    rw [nearPlace_of_lt hn small]
    omega
  rw [← near.packed_eq hn (by omega), unpack_packed (near.canonical hn (by omega))]

/-- Aligned to an exponent, a scaled number is the number scaled further. -/
theorem decreaseExponent_scaled (n : ℕ) (hk : 52 - n.log2 ≤ k) :
    (decreaseExponent (scaled n) (-(52 - n.log2 : ℕ)) (-k)).1 = n * 2 ^ k := by
  have shift : (-(52 - n.log2 : ℕ) - -(k : ℤ)).toNat = k - (52 - n.log2) := by omega
  rw [decreaseExponent, shift, Nat.shiftLeft_eq, scaled, Nat.mul_assoc, ← Nat.pow_add,
    Nat.add_sub_cancel' hk]

/-! ## Addition -/

theorem ofInt_add_ofInt_of_lt {a b : ℤ} (ha : a.natAbs < 2 ^ 53) (hb : b.natAbs < 2 ^ 53)
    (ha0 : a ≠ 0) (hb0 : b ≠ 0) : Float.ofInt a + Float.ofInt b = Float.ofInt (a + b) := by
  obtain ⟨s, n, hn, abs_a, eq_a⟩ := exists_eq_apply ha0
  obtain ⟨t, p, hp, abs_b, eq_b⟩ := exists_eq_apply hb0
  obtain ⟨k, hk⟩ : ∃ k, k = max (52 - n.log2) (52 - p.log2) := ⟨_, rfl⟩
  have exponent : min (-(52 - n.log2 : ℕ) : ℤ) (-(52 - p.log2 : ℕ)) = -k := by omega
  have aligned : s.apply (n * 2 ^ k : ℕ) + t.apply (p * 2 ^ k : ℕ) = (a + b) * 2 ^ k := by
    rw [eq_a, eq_b, add_mul, ← apply_mul, ← apply_mul]
    push_cast
    rfl
  change packed (UnpackedFloat.add Format.binary64 (Float.ofInt a).toModel.unpack
    (Float.ofInt b).toModel.unpack) = _
  have unpacked_a := unpack_ofInt s hn (abs_a ▸ ha)
  have unpacked_b := unpack_ofInt t hp (abs_b ▸ hb)
  rw [← eq_a] at unpacked_a
  rw [← eq_b] at unpacked_b
  rw [unpacked_a, unpacked_b]
  unfold UnpackedFloat.add
  dsimp only
  rw [exponent, decreaseExponent_scaled n (by omega), decreaseExponent_scaled p (by omega), aligned]
  exact packed_normalize (by omega) (by omega)

/-- Zero adds nothing. -/
theorem ofInt_add_zero {a : ℤ} (small : a.natAbs < 2 ^ 54) :
    Float.ofInt a + Float.ofInt 0 = Float.ofInt a ∧
      Float.ofInt 0 + Float.ofInt a = Float.ofInt a := by
  by_cases zero : a = 0
  · subst zero
    exact ⟨rfl, rfl⟩
  obtain ⟨s, n, hn, abs, eq⟩ := exists_eq_apply zero
  have near := near_round s hn (k := 0) (Nat.zero_le _)
  have packed_eq := near.packed_eq hn (abs ▸ small)
  have unpacked := unpack_packed (near.canonical hn (abs ▸ small))
  obtain ⟨m, e, pos, finite, -⟩ := near
  rw [finite] at packed_eq unpacked
  rw [eq, ← packed_eq]
  constructor
  · change packed (UnpackedFloat.add Format.binary64 (packed (.finite s m e pos)).toModel.unpack
      (.zero .positive)) = _
    rw [unpacked]
    rfl
  · change packed (UnpackedFloat.add Format.binary64 (.zero .positive)
      (packed (.finite s m e pos)).toModel.unpack) = _
    rw [unpacked]
    rfl

/-- Integers are added without loss as long as their sizes add up to at most `2 ^ 53`. -/
theorem ofInt_add_ofInt {a b : ℤ} (small : a.natAbs + b.natAbs ≤ 2 ^ 53) :
    Float.ofInt a + Float.ofInt b = Float.ofInt (a + b) := by
  by_cases ha : a = 0
  · rw [ha, zero_add]
    exact (ofInt_add_zero (by omega)).2
  by_cases hb : b = 0
  · rw [hb, add_zero]
    exact (ofInt_add_zero (by omega)).1
  -- Neither is zero, so both are below the bound.
  exact ofInt_add_ofInt_of_lt (by omega) (by omega) ha hb

/-- The running sum is exact: what is summed so far is never larger than the sizes so far. -/
theorem foldl_add_ofInt (zs : List ℤ) (a : ℤ)
    (small : a.natAbs + (zs.map Int.natAbs).sum ≤ 2 ^ 53) :
    (zs.map Float.ofInt).foldl (· + ·) (Float.ofInt a) = Float.ofInt (a + zs.sum) := by
  induction zs generalizing a with
  | nil =>
    rw [List.sum_nil, add_zero]
    rfl
  | cons z zs ih =>
    rw [List.map_cons, List.sum_cons] at small
    rw [List.map_cons, List.foldl_cons, ofInt_add_ofInt (by omega), ih (a + z) (by omega),
      List.sum_cons, add_assoc]

end Telemetry.Binary64
