import Telemetry.Precision
import Telemetry.Proofs.Doubles

/-!
# Whole numbers as doubles

Counts and ranks are turned into doubles, which keep 53 binary digits of a number. Where a number
has more, it is rounded to the nearest that has not, half way to the even one (`roundEven`). This
loses digits, but never the order: a greater integer has no lesser double (`place_ofInt_mono`). And
below `2 ^ 53` nothing is lost at all (`toRat_ofNat`).
-/

namespace Telemetry

namespace Binary64

open Float.Model Float.Model.UnpackedFloat

/-! ## Packing and unpacking -/

section Pack

variable {s : Sign} {m b : ℕ} {e : ℤ} {pos : 0 < m}

theorem exponentBias_eq : (Format.binary64.exponentBias : ℤ) = 1023 := rfl

theorem mantissaBits_eq : Format.binary64.mantissaBits = 53 := rfl

theorem unpackSign_packComponents (s : Sign) (e : BitVec 11) (m : BitVec 52) :
    unpackSign (packComponents Format.binary64 s e m) = s.toBitVec := by
  apply BitVec.eq_of_toNat_eq
  rw [toNat_unpackSign, toNat_packComponents]
  have he := e.isLt
  have hm := m.isLt
  cases s <;> simp only [Sign.toBitVec, BitVec.toNat_ofNat] <;> omega

theorem ofBitVec_toBitVec (s : Sign) : Sign.ofBitVec s.toBitVec = s := by
  cases s <;> rfl

theorem unpack_normal (hb : 0 < b) (hb' : b < 2047) (hm : 2 ^ 52 ≤ m) (hm' : m < 2 ^ 53) :
    UnpackedFloat.unpack Format.binary64
      (packComponents Format.binary64 s (BitVec.ofNat 11 b) (BitVec.ofNat 52 m)) =
      .finite s m (b - 1075) pos := by
  have proper : BitVec.ofNat 11 b ≠ -1#11 := by
    rw [ne_eq, ← BitVec.toNat_inj, BitVec.toNat_ofNat]
    change ¬b % 2 ^ 11 = 2047
    omega
  have normal : BitVec.ofNat 11 b ≠ 0#11 := by
    rw [ne_eq, ← BitVec.toNat_inj, BitVec.toNat_ofNat]
    change ¬b % 2 ^ 11 = 0
    omega
  simp only [UnpackedFloat.unpack, unpackExponent_packComponents, unpackMantissa_packComponents,
    unpackSign_packComponents, ofBitVec_toBitVec, exponentBias_eq, if_neg proper, if_neg normal,
    finite.injEq, toNat_normal_mantissa, BitVec.toNat_ofNat, true_and]
  omega

theorem unpack_subnormal (hm : m < 2 ^ 52) :
    UnpackedFloat.unpack Format.binary64
      (packComponents Format.binary64 s 0#11 (BitVec.ofNat 52 m)) = .finite s m (-1074) pos := by
  have proper : 0#11 ≠ -1#11 := by decide
  have filled : BitVec.ofNat 52 m ≠ 0#52 := by
    rw [ne_eq, ← BitVec.toNat_inj, BitVec.toNat_ofNat]
    change ¬m % 2 ^ 52 = 0
    omega
  simp only [UnpackedFloat.unpack, unpackExponent_packComponents, unpackMantissa_packComponents,
    unpackSign_packComponents, ofBitVec_toBitVec, exponentBias_eq, if_neg proper, if_true,
    dif_neg filled, finite.injEq, BitVec.toNat_ofNat, true_and]
  omega

theorem pack_finite : UnpackedFloat.pack Format.binary64 (.finite s m e pos) =
    if 971 < e then packedInfinity Format.binary64 s
    else if m.log2 = 52 then
      packComponents Format.binary64 s (BitVec.ofNat 11 (e + 1075).toNat) (BitVec.ofNat 52 m)
    else packComponents Format.binary64 s 0#11 (BitVec.ofNat 52 m) := by
  have biased : (e + (Format.binary64.exponentBias : ℤ) +
      (Format.binary64.mantissaBitsWithoutImplicit : ℕ)).toNat = (e + 1075).toNat := by
    rw [exponentBias_eq, Int.add_assoc]
    rfl
  unfold UnpackedFloat.pack
  simp only [biased]
  refine if_congr ?_ rfl (if_congr ?_ rfl rfl)
  · change 2048 ≤ _ ↔ _
    omega
  · change _ = 53 ↔ _
    omega

/-- Packing loses nothing of a canonical double. -/
theorem unpack_pack {u : UnpackedFloat} (h : Canonical u) :
    UnpackedFloat.unpack Format.binary64 (UnpackedFloat.pack Format.binary64 u) = u := by
  cases u with
  | notANumber => rfl
  | infinity s => cases s <;> rfl
  | zero s => cases s <;> rfl
  | finite s m e pos =>
    obtain ⟨low, high, small, normal⟩ := h
    rw [pack_finite, if_neg (by omega)]
    by_cases full : 2 ^ 52 ≤ m
    · have log : m.log2 = 52 := (Nat.log2_eq_iff (by omega)).2 ⟨full, small⟩
      rw [if_pos log, @unpack_normal s m _ pos (by omega) (by omega) full small]
      congr 1
      omega
    · have log : m.log2 < 52 := (Nat.log2_lt (by omega)).2 (by omega)
      rw [if_neg (by omega), @unpack_subnormal s m pos (by omega)]
      congr 1
      omega

/-- Beyond the greatest exponent there is only infinity. -/
theorem pack_of_overflow (he : 971 < e) :
    UnpackedFloat.pack Format.binary64 (.finite s m e pos) =
      UnpackedFloat.pack Format.binary64 (.infinity s) := by
  rw [pack_finite, if_pos he]
  rfl

end Pack

/-! ## Doubles from unpacked ones -/

/-- The double that an unpacked one is packed into. -/
def packed (u : UnpackedFloat) : Float := .ofModel (.pack u)

theorem packed_congr {u v : UnpackedFloat}
    (h : UnpackedFloat.pack Format.binary64 u = UnpackedFloat.pack Format.binary64 v) :
    packed u = packed v := by
  simp only [packed, Float.Model.pack, h]

theorem unpack_packed {u : UnpackedFloat} (h : Canonical u) : (packed u).toModel.unpack = u :=
  unpack_pack h

theorem isNaN_packed {u : UnpackedFloat} (h : Canonical u) : (packed u).isNaN = u.isNaN := by
  change (packed u).toModel.unpack.isNaN = _
  rw [unpack_packed h]

theorem place_packed {u : UnpackedFloat} (h : Canonical u) (number : u.isNaN = false) :
    place (packed u) = unpackedPlace u := by
  have unpacked := unpack_packed h
  have bits := canonical_unpack (b := (packed u).toModel.toBits.toBitVec) (by
    change (packed u).toModel.unpack.isNaN = false
    rw [unpacked, number])
  exact bits.2.symm.trans (congrArg unpackedPlace unpacked)

/-! ## Rounding -/

/-- `m / 2 ^ k` rounded to the nearest integer, halves to the even one. -/
def roundEven (m k : ℕ) : ℕ :=
  m / 2 ^ k + if 2 ^ k < 2 * (m % 2 ^ k) then 1
    else if 2 * (m % 2 ^ k) = 2 ^ k then m / 2 ^ k % 2 else 0

section RoundEven

variable {m n k : ℕ}

theorem roundEven_mono (h : m ≤ n) (k : ℕ) : roundEven m k ≤ roundEven n k := by
  have div := Nat.div_le_div_right (c := 2 ^ k) h
  have hm := Nat.div_add_mod m (2 ^ k)
  have hn := Nat.div_add_mod n (2 ^ k)
  rcases div.lt_or_eq with less | same
  · unfold roundEven
    split_ifs <;> omega
  · unfold roundEven
    rw [same] at hm ⊢
    split_ifs <;> omega

theorem roundEven_mul_two_pow (m k : ℕ) : roundEven (m * 2 ^ k) k = m := by
  have pos := Nat.two_pow_pos k
  rw [roundEven, Nat.mul_mod_left, Nat.mul_div_cancel _ pos, if_neg (by omega), if_neg (by omega),
    Nat.add_zero]

/-- Rounding keeps within bounds that are whole. -/
theorem le_roundEven (h : n * 2 ^ k ≤ m) : n ≤ roundEven m k := by
  have := roundEven_mono h k
  rwa [roundEven_mul_two_pow] at this

theorem roundEven_le (h : m ≤ n * 2 ^ k) : roundEven m k ≤ n := by
  have := roundEven_mono h k
  rwa [roundEven_mul_two_pow] at this

end RoundEven

/-- The bits that a shift drops are told apart by two questions. -/
theorem shiftRight_exact (m k : ℕ) :
    ExtendedMantissa.ofMantissaAndAccuracy m .exact >>> k =
      ⟨m / 2 ^ k, decide (2 ^ k ≤ 2 * (m % 2 ^ k)),
        decide (m % 2 ^ k ≠ 0 ∧ 2 * (m % 2 ^ k) ≠ 2 ^ k)⟩ := by
  induction k with
  | zero =>
    change ExtendedMantissa.ofMantissaAndAccuracy m .exact = _
    simp [ExtendedMantissa.ofMantissaAndAccuracy, Nat.mod_one]
  | succ k ih =>
    change ExtendedMantissa.shiftRightOne
      (ExtendedMantissa.ofMantissaAndAccuracy m .exact >>> k) = _
    have digit := Nat.mod_pow_succ (x := m) (b := 2) (k := k)
    have rest := Nat.mod_lt m (Nat.two_pow_pos k)
    rw [ih, ExtendedMantissa.shiftRightOne, digit, Nat.pow_succ, ← Nat.div_div_eq_div_mul]
    clear digit ih
    generalize m / 2 ^ k = q at *
    generalize m % 2 ^ k = r at *
    generalize 2 ^ k = p at *
    rw [ExtendedMantissa.mk.injEq]
    refine ⟨rfl, Bool.eq_iff_iff.2 ?_, Bool.eq_iff_iff.2 ?_⟩
    · rw [bne_iff_ne, decide_eq_true_eq]
      rcases Nat.mod_two_eq_zero_or_one q with bit | bit <;> simp only [bit] <;> omega
    · rw [Bool.or_eq_true, decide_eq_true_eq, decide_eq_true_eq, decide_eq_true_eq]
      rcases Nat.mod_two_eq_zero_or_one q with bit | bit <;> simp only [bit] <;> omega

theorem roundedMantissa_shiftRight (m k : ℕ) :
    (ExtendedMantissa.ofMantissaAndAccuracy m .exact >>> k).roundedMantissa = roundEven m k := by
  have pos := Nat.two_pow_pos k
  rw [shiftRight_exact, roundEven, ExtendedMantissa.roundedMantissa]
  rcases lt_trichotomy (2 * (m % 2 ^ k)) (2 ^ k) with less | half | greater
  · rw [decide_eq_false (not_le.2 less), if_neg less.not_gt, if_neg less.ne]
    cases decide (m % 2 ^ k ≠ 0 ∧ 2 * (m % 2 ^ k) ≠ 2 ^ k) <;> rfl
  · rw [decide_eq_true half.ge, decide_eq_false (fun h => h.2 half), if_neg half.not_gt,
      if_pos half]
    rfl
  · rw [decide_eq_true greater.le, decide_eq_true ⟨by omega, greater.ne'⟩, if_pos greater]
    rfl

section Round

variable {m : ℕ} {e : ℤ}

/-- The exponent at which a mantissa is rounded leaves 53 digits, if it is not the least. -/
theorem targetExponent_eq (m : ℕ) (e : ℤ) :
    Format.binary64.targetExponent (totalExponent m e) = max (m.log2 + 1 + e - 53) (-1074) := rfl

/-- A mantissa with enough digits loses those beyond 53. -/
theorem shiftToTargetExponent_exact (hm : 2 ^ 52 ≤ m) (he : -1074 ≤ e) :
    shiftToTargetExponent Format.binary64 m e .exact =
      (ExtendedMantissa.ofMantissaAndAccuracy m .exact >>> (m.log2 - 52),
        e + (m.log2 - 52 : ℕ)) := by
  have digits : 52 ≤ m.log2 := (Nat.le_log2 (by omega)).2 hm
  have target : (Format.binary64.targetExponent (totalExponent m e) - e).toNat = m.log2 - 52 := by
    rw [targetExponent_eq]
    omega
  rw [shiftToTargetExponent, shiftToExponent, target]

/-- A mantissa with enough digits is rounded to 53 of them. -/
theorem exists_roundWithAccuracy (s : Sign) (hm : 2 ^ 52 ≤ m) (he : -1074 ≤ e) :
    ∃ n f pos, roundWithAccuracy Format.binary64 s m e .exact = .finite s n f pos ∧
      2 ^ 52 ≤ n ∧ n < 2 ^ 53 ∧ e ≤ f ∧
      (f + 1074) * 2 ^ 52 + n =
        (e + (m.log2 - 52 : ℕ) + 1074) * 2 ^ 52 + roundEven m (m.log2 - 52) := by
  have digits : 52 ≤ m.log2 := (Nat.le_log2 (by omega)).2 hm
  have split : 52 + (m.log2 - 52) = m.log2 := Nat.add_sub_of_le digits
  have low : 2 ^ 52 ≤ roundEven m (m.log2 - 52) := by
    apply le_roundEven
    rw [← Nat.pow_add, split]
    exact Nat.log2_self_le (by omega)
  have high : roundEven m (m.log2 - 52) ≤ 2 ^ 53 := by
    apply roundEven_le
    rw [← Nat.pow_add, Nat.add_right_comm 52 1, split]
    exact Nat.lt_log2_self.le
  generalize q_eq : roundEven m (m.log2 - 52) = q at *
  -- rounding up may have made one digit more
  have carry : (q.log2 = 52 ∧ q < 2 ^ 53) ∨ (q.log2 = 53 ∧ q = 2 ^ 53) := by
    rcases high.lt_or_eq with less | rfl
    · exact .inl ⟨(Nat.log2_eq_iff (by omega)).2 ⟨low, less⟩, less⟩
    · exact .inr ⟨Nat.log2_two_pow, rfl⟩
  have pos : 0 < q / 2 ^ (q.log2 - 52) := by
    rcases carry with ⟨log, -⟩ | ⟨log, rfl⟩ <;> rw [log] <;> omega
  refine ⟨q / 2 ^ (q.log2 - 52), e + (m.log2 - 52 : ℕ) + (q.log2 - 52 : ℕ), pos, ?_, ?_⟩
  · unfold roundWithAccuracy
    simp only [shiftToTargetExponent_exact hm he, roundedMantissa_shiftRight, q_eq,
      shiftToTargetExponent_exact low (le_add_of_le_of_nonneg he (Int.natCast_nonneg _))]
    simp only [shiftRight_exact]
    exact dif_neg pos.ne'
  · rcases carry with ⟨log, less⟩ | ⟨log, rfl⟩ <;> rw [log] <;> omega

end Round

/-! ## Natural numbers -/

theorem log2_mul_two_pow {n : ℕ} (hn : n ≠ 0) (k : ℕ) : (n * 2 ^ k).log2 = n.log2 + k := by
  induction k with
  | zero => rw [Nat.pow_zero, Nat.mul_one, Nat.add_zero]
  | succ k ih =>
    have pos : n * 2 ^ k ≠ 0 := Nat.mul_ne_zero hn (Nat.two_pow_pos k).ne'
    rw [Nat.pow_succ, ← Nat.mul_assoc, Nat.mul_comm _ 2, Nat.log2_two_mul pos, ih, Nat.add_assoc]

section OfNat

variable {n : ℕ}

/-- The place next to `n` if there were doubles of any size. -/
def nearPlace (n : ℕ) : ℕ := (n.log2 + 1022) * 2 ^ 52 + roundEven (n * 2 ^ 53) (n.log2 + 1)

theorem ofNat_of_ge (h : 2 ^ 53 ≤ n) : Float.ofNat n =
    packed (roundWithAccuracy Format.binary64 .positive (n * 2 ^ 53) (-53) .exact) := by
  change Float.ofScientific n false 0 = _
  rw [Float.ofScientific, dif_neg (by omega)]
  change packed (UnpackedFloat.ofScientific Format.binary64 n 0) = _
  have small : ¬(0 : ℤ) < -(2 ^ Format.binary64.exponentBits + (n.log2 : ℤ)) := by
    change ¬(0 : ℤ) < -(2048 + (n.log2 : ℤ))
    omega
  have shifted : n <<< Format.binary64.mantissaBits * 10 ^ (0 : ℤ).toNat = n * 2 ^ 53 := by
    rw [Nat.shiftLeft_eq, mantissaBits_eq]
    exact Nat.mul_one _
  rw [UnpackedFloat.ofScientific, dif_neg (by omega), if_neg (by decide), if_neg small,
    if_pos le_rfl, UnpackedFloat.mul, shifted]
  rfl

theorem unpack_one : (Float.ofBits 0x3FF0000000000000).toModel.unpack =
    .finite .positive (2 ^ 52) (-52) (Nat.two_pow_pos 52) := by
  rfl

/-- Small numbers are scaled to 53 digits. -/
def scaled (n : ℕ) : ℕ := n * 2 ^ (52 - n.log2)

theorem log2_scaled (hn : 0 < n) (h : n < 2 ^ 53) : (scaled n).log2 = 52 := by
  have digits : n.log2 ≤ 52 := Nat.le_of_lt_succ ((Nat.log2_lt hn.ne').2 h)
  rw [scaled, log2_mul_two_pow hn.ne', Nat.add_sub_of_le digits]

theorem scaled_pos (hn : 0 < n) : 0 < scaled n := Nat.mul_pos hn (Nat.two_pow_pos _)

theorem le_scaled (hn : 0 < n) (h : n < 2 ^ 53) : 2 ^ 52 ≤ scaled n :=
  (Nat.le_log2 (scaled_pos hn).ne').1 (log2_scaled hn h).ge

theorem scaled_lt (hn : 0 < n) (h : n < 2 ^ 53) : scaled n < 2 ^ 53 :=
  (Nat.log2_lt (scaled_pos hn).ne').1 (Nat.lt_succ_of_le (log2_scaled hn h).le)

theorem nearPlace_of_lt (hn : 0 < n) (h : n < 2 ^ 53) :
    nearPlace n = (n.log2 + 1022) * 2 ^ 52 + scaled n := by
  have digits : n.log2 ≤ 52 := Nat.le_of_lt_succ ((Nat.log2_lt hn.ne').2 h)
  have shift : 52 - n.log2 + (n.log2 + 1) = 53 := by omega
  rw [nearPlace, ← shift, Nat.pow_add, ← Nat.mul_assoc]
  exact congrArg _ (roundEven_mul_two_pow _ _)

/-- The unpacked double of a small number needs no rounding. -/
theorem unpacked_ofNat (hn : 0 < n) (h : n < 2 ^ 53) :
    UnpackedFloat.ofNat Format.binary64 n =
      .finite .positive (scaled n) (-(52 - n.log2 : ℕ)) (scaled_pos hn) := by
  have low := le_scaled hn h
  have high := scaled_lt hn h
  have target : ((0 : ℤ) - Format.binary64.targetExponent (totalExponent n 0)).toNat =
      52 - n.log2 := by
    rw [targetExponent_eq]
    have := log2_scaled hn h
    omega
  obtain ⟨m, e, pos, eq, m_low, m_high, -, place⟩ :=
    exists_roundWithAccuracy .positive low (e := -(52 - n.log2 : ℕ)) (by omega)
  have whole := roundEven_mul_two_pow (scaled n) 0
  rw [Nat.pow_zero, Nat.mul_one] at whole
  rw [log2_scaled hn h, Nat.sub_self, whole] at place
  obtain rfl : m = scaled n := by omega
  obtain rfl : e = -(52 - n.log2 : ℕ) := by omega
  have positive : compare (n : ℤ) 0 = .gt := compare_gt_iff_gt.2 (by omega)
  rw [UnpackedFloat.ofNat, UnpackedFloat.ofInt, UnpackedFloat.normalize.eq_def, positive]
  dsimp only
  rw [Int.toNat_natCast, UnpackedFloat.round, decreaseExponent, target, Nat.shiftLeft_eq,
    Int.zero_sub]
  exact eq

theorem ofNat_of_lt (hn : 0 < n) (h : n < 2 ^ 53) : Float.ofNat n =
    packed (roundWithAccuracy Format.binary64 .positive (scaled n * 2 ^ 52)
      (-(52 - n.log2 : ℕ) + -52) .exact) := by
  change Float.ofScientific n false 0 = _
  rw [Float.ofScientific, dif_pos ⟨h, by decide⟩]
  have fits : n.toUInt64.toNat = n := by
    change n % 2 ^ 64 = n
    omega
  have canonical : Canonical (UnpackedFloat.ofNat Format.binary64 n) := by
    rw [unpacked_ofNat hn h]
    exact ⟨by omega, by omega, scaled_lt hn h, .inr (le_scaled hn h)⟩
  change packed (UnpackedFloat.mul Format.binary64
    (packed (UnpackedFloat.ofNat Format.binary64 n.toUInt64.toNat)).toModel.unpack
    (Float.ofBits 0x3FF0000000000000).toModel.unpack) = _
  rw [fits, unpack_packed canonical, unpacked_ofNat hn h, unpack_one]
  rfl

/-- The double that stands for a positive number has all its digits. -/
theorem exists_ofNat (hn : 0 < n) : ∃ m e pos,
    Float.ofNat n = packed (.finite .positive m e pos) ∧ 2 ^ 52 ≤ m ∧ m < 2 ^ 53 ∧ -1074 ≤ e ∧
      (e + 1074) * 2 ^ 52 + m = nearPlace n := by
  rcases Nat.lt_or_ge n (2 ^ 53) with less | ge
  · have low := le_scaled hn less
    have log := log2_scaled hn less
    obtain ⟨m, e, pos, eq, m_low, m_high, bound, place⟩ :=
      exists_roundWithAccuracy .positive (m := scaled n * 2 ^ 52)
        (e := -(52 - n.log2 : ℕ) + -52) (by omega) (by omega)
    refine ⟨m, e, pos, by rw [ofNat_of_lt hn less, eq], m_low, m_high, by omega, ?_⟩
    rw [log2_mul_two_pow (scaled_pos hn).ne', log, Nat.add_sub_cancel_right,
      roundEven_mul_two_pow] at place
    have digits : n.log2 ≤ 52 := Nat.le_of_lt_succ ((Nat.log2_lt hn.ne').2 less)
    rw [place, nearPlace_of_lt hn less]
    push_cast
    omega
  · obtain ⟨m, e, pos, eq, low, high, bound, place⟩ :=
      exists_roundWithAccuracy .positive (m := n * 2 ^ 53) (e := -53) (by omega) (by omega)
    refine ⟨m, e, pos, by rw [ofNat_of_ge ge, eq], low, high, by omega, ?_⟩
    have digits : n.log2 + 53 - 52 = n.log2 + 1 := rfl
    rw [log2_mul_two_pow hn.ne', digits] at place
    rw [place, nearPlace]
    push_cast
    ring

theorem roundEven_digits_le (n : ℕ) : roundEven (n * 2 ^ 53) (n.log2 + 1) ≤ 2 ^ 53 := by
  apply roundEven_le
  rw [Nat.mul_comm]
  exact Nat.mul_le_mul_left _ Nat.lt_log2_self.le

/-- A greater number has no lesser place: either it has more digits, or as many and they count. -/
theorem nearPlace_mono {k : ℕ} (hk : 0 < k) (h : k ≤ n) : nearPlace k ≤ nearPlace n := by
  have hn : 0 < n := hk.trans_le h
  have digits : k.log2 ≤ n.log2 := (Nat.le_log2 hn.ne').2 ((Nat.log2_self_le hk.ne').trans h)
  rcases digits.lt_or_eq with less | same
  · have high := roundEven_digits_le k
    have low : 2 ^ 52 ≤ roundEven (n * 2 ^ 53) (n.log2 + 1) := by
      apply le_roundEven
      have := Nat.log2_self_le hn.ne'
      rw [Nat.pow_succ]
      omega
    unfold nearPlace
    omega
  · rw [nearPlace, nearPlace, same]
    exact Nat.add_le_add_left (roundEven_mono (Nat.mul_le_mul_right _ h) _) _

/-- The place of the double that stands for `n`. -/
def natPlace (n : ℕ) : ℕ := if n = 0 then 0 else min (2047 * 2 ^ 52) (nearPlace n)

theorem natPlace_mono {k : ℕ} (h : k ≤ n) : natPlace k ≤ natPlace n := by
  unfold natPlace
  by_cases zero : k = 0
  · rw [if_pos zero]
    exact Nat.zero_le _
  · rw [if_neg zero, if_neg (by omega)]
    exact min_le_min_left _ (nearPlace_mono (Nat.pos_of_ne_zero zero) h)

/-- Every natural number stands at its place, far ones at that of infinity. -/
theorem exists_canonical_ofNat (n : ℕ) : ∃ u, Float.ofNat n = packed u ∧ Canonical u ∧
    u.isNaN = false ∧ unpackedPlace u = natPlace n := by
  rcases Nat.eq_zero_or_pos n with rfl | hn
  · exact ⟨.zero .positive, rfl, trivial, rfl, rfl⟩
  · obtain ⟨m, e, pos, eq, low, high, bound, place⟩ := exists_ofNat hn
    rw [natPlace, if_neg hn.ne', eq]
    rcases le_or_gt e 971 with fits | overflow
    · refine ⟨_, rfl, ⟨bound, fits, high, .inr low⟩, rfl, ?_⟩
      rw [unpackedPlace, Sign.apply]
      omega
    · refine ⟨.infinity .positive, packed_congr (pack_of_overflow overflow), trivial, rfl, ?_⟩
      rw [unpackedPlace, Sign.apply]
      omega

theorem isNaN_ofNat (n : ℕ) : (Float.ofNat n).isNaN = false := by
  obtain ⟨u, eq, canonical, number, -⟩ := exists_canonical_ofNat n
  rw [eq, isNaN_packed canonical, number]

theorem place_ofNat (n : ℕ) : place (Float.ofNat n) = natPlace n := by
  obtain ⟨u, eq, canonical, number, place⟩ := exists_canonical_ofNat n
  rw [eq, place_packed canonical number, place]

end OfNat

/-! ## Integers -/

section OfInt

variable {x y : Float}

/-- Whatever is unpacked is canonical. -/
theorem canonical_unpack_bits (b : BitVec Format.binary64.numBits) :
    Canonical (UnpackedFloat.unpack Format.binary64 b) := by
  by_cases number : (UnpackedFloat.unpack Format.binary64 b).isNaN = false
  · exact (canonical_unpack number).1
  · cases unpacked : UnpackedFloat.unpack Format.binary64 b with
    | notANumber => trivial
    | infinity | zero | finite =>
      rw [unpacked] at number
      exact absurd rfl number

theorem canonical_unpack_toModel (x : Float) : Canonical x.toModel.unpack :=
  canonical_unpack_bits _

theorem Canonical.neg {u : UnpackedFloat} (h : Canonical u) : Canonical u.neg := by
  cases u <;> exact h

theorem isNaN_neg (x : Float) : (-x).isNaN = x.isNaN := by
  change (packed x.toModel.unpack.neg).isNaN = x.toModel.unpack.isNaN
  rw [isNaN_packed (canonical_unpack_toModel x).neg]
  cases x.toModel.unpack <;> rfl

theorem place_neg (hx : x.isNaN = false) : place (-x) = -place x := by
  have at_place : unpackedPlace x.toModel.unpack = place x :=
    (canonical_unpack (b := x.toModel.toBits.toBitVec) hx).2
  have number : x.toModel.unpack.neg.isNaN = false := by
    rw [← isNaN_packed (canonical_unpack_toModel x).neg]
    exact (isNaN_neg x).trans hx
  change place (packed x.toModel.unpack.neg) = _
  rw [place_packed (canonical_unpack_toModel x).neg number, ← at_place]
  cases x.toModel.unpack with
  | notANumber | zero => rfl
  | infinity s | finite s =>
    cases s
    · exact (neg_neg _).symm
    · rfl

theorem isNaN_ofInt (a : ℤ) : (Float.ofInt a).isNaN = false := by
  cases a with
  | ofNat n => exact isNaN_ofNat n
  | negSucc n => exact (isNaN_neg _).trans (isNaN_ofNat _)

theorem place_ofInt_mono {a b : ℤ} (h : a ≤ b) :
    place (Float.ofInt a) ≤ place (Float.ofInt b) := by
  have negative : ∀ n : ℕ, place (Float.ofInt (Int.negSucc n)) = -natPlace (n + 1) := by
    intro n
    rw [← place_ofNat]
    exact place_neg (isNaN_ofNat _)
  have positive : ∀ n : ℕ, place (Float.ofInt (Int.ofNat n)) = natPlace n := place_ofNat
  cases a with
  | ofNat m =>
    cases b with
    | ofNat n =>
      rw [positive, positive]
      exact Int.ofNat_le.2 (natPlace_mono (Int.ofNat_le.1 h))
    | negSucc n => exact absurd ((Int.natCast_nonneg m).trans h) (Int.negSucc_lt_zero n).not_ge
  | negSucc m =>
    cases b with
    | ofNat n =>
      rw [negative, positive]
      omega
    | negSucc n =>
      rw [negative, negative]
      have := natPlace_mono (show n + 1 ≤ m + 1 by omega)
      omega

theorem isNaN_of_le (h : x ≤ y) : y.isNaN = false := by
  change decide (x.toModel ≤ y.toModel) = true at h
  rw [decide_eq_true_iff] at h
  change (x.toModel.unpack.compare y.toModel.unpack).any (·.isLE) = true at h
  change y.toModel.unpack.isNaN = false
  cases unpacked : y.toModel.unpack with
  | notANumber =>
    have incomparable : ∀ u : UnpackedFloat, u.compare .notANumber = none := by
      intro u
      cases u <;> rfl
    rw [unpacked, incomparable] at h
    cases h
  | infinity | zero | finite => rfl

/-- What a greater integer does not exceed, a lesser one does not either. -/
theorem ofInt_le_of_le {a b : ℤ} (h : a ≤ b) (hx : Float.ofInt b ≤ x) : Float.ofInt a ≤ x := by
  have number := isNaN_of_le hx
  rw [le_iff_place_le (isNaN_ofInt _) number] at hx ⊢
  exact (place_ofInt_mono h).trans hx

end OfInt

/-! ## Values of doubles -/

/-- The rational number that a finite double stands for. -/
def toRat (x : Float) : ℚ :=
  match x.toModel.unpack with
  | .finite s m e _ => s.apply m * 2 ^ e
  | _ => 0

/-- Numbers below `2 ^ 53` have a double of their own. -/
theorem toRat_ofNat {n : ℕ} (h : n < 2 ^ 53) : toRat (Float.ofNat n) = n := by
  rcases Nat.eq_zero_or_pos n with rfl | hn
  · rfl
  · obtain ⟨m, e, pos, eq, low, high, bound, place⟩ := exists_ofNat hn
    have digits : n.log2 ≤ 52 := Nat.le_of_lt_succ ((Nat.log2_lt hn.ne').2 h)
    have least := le_scaled hn h
    have greatest := scaled_lt hn h
    rw [nearPlace_of_lt hn h] at place
    obtain rfl : m = scaled n := by omega
    obtain rfl : e = -(52 - n.log2 : ℕ) := by omega
    have unpacked := @unpack_packed (.finite .positive (scaled n) (-(52 - n.log2 : ℕ)) pos)
      ⟨bound, by omega, high, .inr low⟩
    rw [eq, toRat, unpacked]
    have nonzero : (2 : ℚ) ^ (52 - n.log2) ≠ 0 := pow_ne_zero _ two_ne_zero
    change ((scaled n : ℕ) : ℤ) * (2 : ℚ) ^ (-(52 - n.log2 : ℕ) : ℤ) = n
    rw [scaled, zpow_neg, zpow_natCast]
    push_cast
    exact mul_inv_cancel_right₀ nonzero _

end Binary64

/-! ## Ranks -/

/-- The law of rank arithmetic: turning integers into ranks keeps their order. -/
class LawfulPrecision (ρ : Type) [Precision ρ] : Prop where
  ofInt_le_of_le {a b : ℤ} {x : ρ} :
    a ≤ b → Precision.ofInt b ≤ x → (Precision.ofInt a : ρ) ≤ x

instance : LawfulPrecision Float where
  ofInt_le_of_le := Binary64.ofInt_le_of_le

instance : LawfulPrecision Rat where
  ofInt_le_of_le h hx := (Int.cast_le.2 h).trans hx

end Telemetry
