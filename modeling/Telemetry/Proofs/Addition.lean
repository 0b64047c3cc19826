import Telemetry.Proofs.Values

/-!
# Adding doubles

The sum of two doubles is rounded, but in one direction only as far as the order goes: a greater
operand never gives a lesser sum (`add_le_of_le`). For this all finite doubles are counted in units
of `2 ^ -1074`, the least positive double. A whole number of units has a nearest double, whose place
grows with it (`signedPlace_mono`), and the sum of two doubles is the double nearest to the sum of
their units (`place_add`).

A difference is a sum with the operand negated, so that differences of integers are exact like their
sums (`ofInt_sub_ofNat`).
-/

namespace Telemetry.Binary64

open Float.Model Float.Model.UnpackedFloat

variable {x y z d : Float} {u : UnpackedFloat} {s : Sign} {m n : ℕ} {a b e : ℤ}

/-! ## Places of units -/

/-- The place of the double nearest to `n` units, if there were doubles of any size. -/
def unitPlace (n : ℕ) : ℕ := if n < 2 ^ 52 then n else nearPlace n - 1074 * 2 ^ 52

theorem le_nearPlace (h : 2 ^ 52 ≤ n) : 1075 * 2 ^ 52 ≤ nearPlace n := by
  have digits : 52 ≤ n.log2 := (Nat.le_log2 (by omega)).2 h
  have low : 2 ^ 52 ≤ roundEven (n * 2 ^ 53) (n.log2 + 1) := by
    apply le_roundEven
    have := Nat.log2_self_le (n := n) (by omega)
    rw [Nat.pow_succ]
    omega
  unfold nearPlace
  omega

theorem unitPlace_mono (h : m ≤ n) : unitPlace m ≤ unitPlace n := by
  unfold unitPlace
  split_ifs with hm hn hn
  · exact h
  · have := le_nearPlace (not_lt.1 hn)
    omega
  · omega
  · exact Nat.sub_le_sub_right (nearPlace_mono (by omega) h) _

/-- The place of the double nearest to `n` units; that of infinity if they are too many. -/
def roundedPlace (n : ℕ) : ℕ := min (2047 * 2 ^ 52) (unitPlace n)

theorem roundedPlace_mono (h : m ≤ n) : roundedPlace m ≤ roundedPlace n :=
  min_le_min_left _ (unitPlace_mono h)

/-- The place of the double nearest to a number of units with a sign. -/
def signedPlace (a : ℤ) : ℤ := if 0 ≤ a then roundedPlace a.natAbs else -roundedPlace a.natAbs

theorem signedPlace_mono (h : a ≤ b) : signedPlace a ≤ signedPlace b := by
  unfold signedPlace
  split_ifs with ha hb hb
  · exact Int.ofNat_le.2 (roundedPlace_mono (by omega))
  · omega
  · omega
  · exact neg_le_neg (Int.ofNat_le.2 (roundedPlace_mono (by omega)))

theorem signedPlace_apply (s : Sign) (n : ℕ) :
    signedPlace (s.apply n) = s.apply (roundedPlace n) := by
  cases s with
  | positive => exact if_pos (Int.natCast_nonneg n)
  | negative =>
    rcases Nat.eq_zero_or_pos n with rfl | pos
    · rfl
    · rw [signedPlace, Sign.apply, if_neg (by omega), Int.natAbs_neg]
      rfl

/-- A canonical double stands at the place of its units. -/
theorem roundedPlace_of_canonical {k : ℕ} (hm : m < 2 ^ 53) (hk : k ≤ 2045)
    (full : k = 0 ∨ 2 ^ 52 ≤ m) : roundedPlace (m * 2 ^ k) = k * 2 ^ 52 + m := by
  have capped : unitPlace (m * 2 ^ k) = k * 2 ^ 52 + m := by
    rcases Nat.lt_or_ge m (2 ^ 52) with less | ge
    · obtain rfl := full.resolve_right less.not_ge
      rw [Nat.pow_zero, Nat.mul_one, unitPlace, if_pos less, Nat.zero_mul, Nat.zero_add]
    · have digits : m.log2 = 52 := (Nat.log2_eq_iff (by omega)).2 ⟨ge, hm⟩
      have many : ¬m * 2 ^ k < 2 ^ 52 :=
        not_lt.2 (ge.trans (Nat.le_mul_of_pos_right m (Nat.two_pow_pos k)))
      have exponent : 52 + k + 1 = k + 53 := by omega
      rw [unitPlace, if_neg many, nearPlace, log2_mul_two_pow (by omega), digits, exponent,
        Nat.mul_assoc, ← Nat.pow_add, roundEven_mul_two_pow]
      omega
  rw [roundedPlace, capped]
  omega

/-! ## Rounding -/

/-- Rounding gives the double at the place of the units. -/
theorem exists_round (s : Sign) (hm : 0 < m) (he : -1074 ≤ e) : ∃ n f pos,
    UnpackedFloat.round Format.binary64 s m e = .finite s n f pos ∧ -1074 ≤ f ∧ n < 2 ^ 53 ∧
      (f = -1074 ∨ 2 ^ 52 ≤ n) ∧
        (f + 1074) * 2 ^ 52 + n = unitPlace (m * 2 ^ (e + 1074).toNat) := by
  obtain ⟨k, hk⟩ : ∃ k : ℕ, e = k - 1074 := ⟨(e + 1074).toNat, by omega⟩
  have units : (e + 1074).toNat = k := by omega
  have digits : (m * 2 ^ k).log2 = m.log2 + k := log2_mul_two_pow hm.ne' k
  have pos : 0 < m * 2 ^ k := Nat.mul_pos hm (Nat.two_pow_pos k)
  rw [units]
  rcases Nat.lt_or_ge (m * 2 ^ k) (2 ^ 52) with few | many
  · -- no digit is lost at the least exponent
    have bound : m.log2 + k < 52 := digits ▸ (Nat.log2_lt pos.ne').2 few
    have target : (e - Format.binary64.targetExponent (totalExponent m e)).toNat = k := by
      rw [targetExponent_eq]
      omega
    have canonical : Canonical (.finite s (m * 2 ^ k) (-1074) pos) :=
      ⟨le_rfl, by decide, by omega, .inl rfl⟩
    have exact_round := roundWithAccuracy_mul_two_pow canonical 0
    rw [Nat.pow_zero, Nat.mul_one, Nat.cast_zero, sub_zero] at exact_round
    have least : e - (k : ℤ) = -1074 := by omega
    refine ⟨m * 2 ^ k, -1074, pos, ?_, le_rfl, by omega, .inl rfl, ?_⟩
    · rw [UnpackedFloat.round, decreaseExponent, target, Nat.shiftLeft_eq, least]
      exact exact_round
    · rw [unitPlace, if_pos few]
      omega
  · have bound : 52 ≤ m.log2 + k := digits ▸ (Nat.le_log2 pos.ne').2 many
    obtain ⟨n, f, pos, eq, full, small, least, place⟩ := exists_round_near s hm he (by omega)
    have high := le_nearPlace many
    refine ⟨n, f, pos, eq, least, small, .inr full, ?_⟩
    rw [nearPlace_mul_two_pow hm] at high
    rw [place, unitPlace, if_neg (not_lt.2 many), nearPlace_mul_two_pow hm]
    omega

theorem place_round (s : Sign) (hm : 0 < m) (he : -1074 ≤ e) :
    (packed (UnpackedFloat.round Format.binary64 s m e)).isNaN = false ∧
      place (packed (UnpackedFloat.round Format.binary64 s m e)) =
        s.apply (roundedPlace (m * 2 ^ (e + 1074).toNat)) := by
  obtain ⟨n, f, pos, eq, least, small, full, place_eq⟩ := exists_round s hm he
  rw [eq]
  rcases le_or_gt f 971 with fits | overflow
  · have canonical : Canonical (.finite s n f pos) := ⟨least, fits, small, full⟩
    refine ⟨isNaN_packed canonical, ?_⟩
    rw [place_packed canonical rfl, unpackedPlace, place_eq, roundedPlace]
    congr 1
    omega
  · have far : packed (.finite s n f pos) = packed (.infinity s) :=
      packed_congr (pack_of_overflow overflow)
    rw [far]
    refine ⟨isNaN_packed (u := .infinity s) trivial, ?_⟩
    rw [place_packed (u := .infinity s) trivial rfl, unpackedPlace, roundedPlace]
    congr 1
    omega

theorem place_normalize (a : ℤ) (he : -1074 ≤ e) :
    (packed (UnpackedFloat.normalize Format.binary64 a e .positive)).isNaN = false ∧
      place (packed (UnpackedFloat.normalize Format.binary64 a e .positive)) =
        signedPlace (a * 2 ^ (e + 1074).toNat) := by
  by_cases zero : a = 0
  · have sign : compare (0 : ℤ) 0 = .eq := compare_eq_iff_eq.2 rfl
    rw [zero, zero_mul, UnpackedFloat.normalize.eq_def, sign]
    dsimp only
    exact ⟨rfl, rfl⟩
  obtain ⟨s, n, hn, -, rfl⟩ := exists_eq_apply zero
  have scaled : s.apply n * 2 ^ (e + 1074).toNat = s.apply (n * 2 ^ (e + 1074).toNat : ℕ) := by
    rw [← apply_mul]
    push_cast
    rfl
  rw [normalize_apply s hn, scaled, signedPlace_apply]
  exact place_round s hn he

/-! ## Sums -/

/-- An unpacked double, counted in the least positive ones. -/
def units : UnpackedFloat → ℤ
  | .finite s m e _ => s.apply (m * 2 ^ (e + 1074).toNat : ℕ)
  | _ => 0

theorem cast_units (h : Canonical u) : (units u : ℚ) = unpackedRat u * 2 ^ 1074 := by
  cases u with
  | notANumber | infinity | zero => simp [units, unpackedRat]
  | finite s m e pos =>
    obtain ⟨k, hk⟩ : ∃ k : ℕ, e = k - 1074 := ⟨(e + 1074).toNat, by have := h.1; omega⟩
    have exponent : (e + 1074).toNat = k := by omega
    have power : (2 : ℚ) ^ e * 2 ^ 1074 = 2 ^ k := by
      rw [hk, ← zpow_natCast 2 1074, ← zpow_add₀ two_ne_zero, ← zpow_natCast 2 k]
      congr 1
      omega
    rw [units, unpackedRat, exponent, Nat.cast_mul, apply_mul, mul_assoc, power]
    push_cast
    rfl

theorem units_mono (hx : x.isFinite = true) (hy : y.isFinite = true) (h : x ≤ y) :
    units x.toModel.unpack ≤ units y.toModel.unpack := by
  rw [← toRat_le_toRat_iff hx hy, toRat_eq, toRat_eq] at h
  have scale : (0 : ℚ) ≤ 2 ^ 1074 := by positivity
  rw [← Int.cast_le (R := ℚ), cast_units (canonical_unpack_toModel x),
    cast_units (canonical_unpack_toModel y)]
  exact mul_le_mul_of_nonneg_right h scale

/-- A finite double stands at the place of its units. -/
theorem signedPlace_units (h : Canonical u) (finite : u.isFinite = true) :
    signedPlace (units u) = unpackedPlace u := by
  cases u with
  | notANumber | infinity => cases finite
  | zero s => rfl
  | finite s m e pos =>
    obtain ⟨least, fits, small, full⟩ := h
    rw [units, signedPlace_apply, unpackedPlace,
      roundedPlace_of_canonical small (by omega) (by omega)]
    congr 1
    push_cast
    omega

/-- Aligned to a lesser exponent, a mantissa stands for the same units. -/
theorem apply_decreaseExponent {f : ℤ} (s : Sign) (hf : -1074 ≤ f) (h : f ≤ e) :
    s.apply (decreaseExponent m e f).1 * 2 ^ (f + 1074).toNat =
      s.apply (m * 2 ^ (e + 1074).toNat : ℕ) := by
  have exponent : (e + 1074).toNat = (e - f).toNat + (f + 1074).toNat := by omega
  rw [decreaseExponent, Nat.shiftLeft_eq, ← apply_mul, exponent, Nat.pow_add, ← Nat.mul_assoc]
  push_cast
  rfl

/-- The sum of finite doubles is the double nearest to the sum of their units. -/
theorem place_add (hx : x.isFinite = true) (hd : d.isFinite = true) :
    (x + d).isNaN = false ∧
      place (x + d) = signedPlace (units x.toModel.unpack + units d.toModel.unpack) := by
  have single : ∀ {u}, Canonical u → u.isFinite = true →
      (packed u).isNaN = false ∧ place (packed u) = signedPlace (units u) := by
    intro u canonical finite
    have number : u.isNaN = false := by cases u <;> first | rfl | cases finite
    rw [isNaN_packed canonical, place_packed canonical number, signedPlace_units canonical finite]
    exact ⟨number, rfl⟩
  have canonical_x := canonical_unpack_toModel x
  have canonical_d := canonical_unpack_toModel d
  change (packed (UnpackedFloat.add Format.binary64 x.toModel.unpack d.toModel.unpack)).isNaN =
    false ∧ place (packed (UnpackedFloat.add Format.binary64 x.toModel.unpack d.toModel.unpack)) = _
  change x.toModel.unpack.isFinite = true at hx
  change d.toModel.unpack.isFinite = true at hd
  generalize x.toModel.unpack = u at *
  generalize d.toModel.unpack = v at *
  cases u with
  | notANumber | infinity => cases hx
  | zero s =>
    cases v with
    | notANumber | infinity => cases hd
    | zero t => cases s <;> cases t <;> exact ⟨rfl, rfl⟩
    | finite t n f pos =>
      have alone := single canonical_d rfl
      rwa [← zero_add (units (.finite t n f pos))] at alone
  | finite s m e pos =>
    cases v with
    | notANumber | infinity => cases hd
    | zero t =>
      have alone := single canonical_x rfl
      rwa [← add_zero (units (.finite s m e pos))] at alone
    | finite t n f pos' =>
      have least : -1074 ≤ min e f := le_min canonical_x.1 canonical_d.1
      have aligned := place_normalize (s.apply (decreaseExponent m e (min e f)).1 +
        t.apply (decreaseExponent n f (min e f)).1) least
      rwa [add_mul, apply_decreaseExponent s least (min_le_left e f),
        apply_decreaseExponent t least (min_le_right e f)] at aligned

theorem isFinite_or (d : Float) : d.isFinite = true ∨ d.toModel.unpack = .notANumber ∨
    ∃ s, d.toModel.unpack = .infinity s := by
  change d.toModel.unpack.isFinite = true ∨ _
  cases d.toModel.unpack with
  | notANumber => exact .inr (.inl rfl)
  | infinity s => exact .inr (.inr ⟨s, rfl⟩)
  | zero | finite => exact .inl rfl

/-- What a sum with the greater number does not exceed, the sum with the lesser one does not
either. -/
theorem add_le_of_le (hx : x.isFinite = true) (hy : y.isFinite = true) (h : x ≤ y)
    (hz : y + d ≤ z) : x + d ≤ z := by
  rcases isFinite_or d with finite | special
  · have number := isNaN_of_le hz
    obtain ⟨number_x, place_x⟩ := place_add hx finite
    obtain ⟨number_y, place_y⟩ := place_add hy finite
    rw [le_iff_place_le number_y number, place_y] at hz
    rw [le_iff_place_le number_x number, place_x]
    exact (signedPlace_mono (Int.add_le_add_right (units_mono hx hy h) _)).trans hz
  · -- neither sum depends on its finite operand
    have absorbed : ∀ u : UnpackedFloat, u.isFinite = true →
        UnpackedFloat.add Format.binary64 u d.toModel.unpack = d.toModel.unpack := by
      intro u hu
      rcases special with nan | ⟨s, infinite⟩
      · rw [nan]
        cases u <;> rfl
      · rw [infinite]
        cases u with
        | notANumber | infinity => cases hu
        | zero | finite => rfl
    have sums : x + d = y + d := congrArg packed ((absorbed _ hx).trans (absorbed _ hy).symm)
    rwa [sums]

/-! ## Differences -/

theorem sub_eq_add_neg (x y : Float) : x - y = x + -y := by
  have negated : (-y).toModel.unpack = y.toModel.unpack.neg :=
    unpack_packed (canonical_unpack_toModel y).neg
  change packed (UnpackedFloat.sub Format.binary64 x.toModel.unpack y.toModel.unpack) =
    packed (UnpackedFloat.add Format.binary64 x.toModel.unpack (-y).toModel.unpack)
  rw [negated]
  congr 1
  cases x.toModel.unpack with
  | notANumber | infinity | zero => cases y.toModel.unpack <;> rfl
  | finite s m e pos =>
    cases y.toModel.unpack with
    | notANumber | infinity | zero => rfl
    | finite t n f pos' =>
      have sign : ∀ k : ℕ, (-t).apply k = -t.apply k := by
        intro k
        cases t
        · exact (neg_neg (k : ℤ)).symm
        · rfl
      rw [UnpackedFloat.neg, UnpackedFloat.sub, UnpackedFloat.add]
      dsimp only
      rw [sign, Int.sub_eq_add_neg]

/-- Integers below `2 ^ 53` are added without loss, up to the rounding of their sum. -/
theorem ofInt_add_ofInt_of_natAbs_lt (ha : a.natAbs < 2 ^ 53) (hb : b.natAbs < 2 ^ 53) :
    Float.ofInt a + Float.ofInt b = Float.ofInt (a + b) := by
  by_cases zero : a = 0 ∨ b = 0
  · exact ofInt_add_ofInt (by omega)
  · rw [not_or] at zero
    exact ofInt_add_ofInt_of_lt ha hb zero.1 zero.2

/-- Taking off a number loses nothing, either. -/
theorem ofInt_sub_ofNat (ha : a.natAbs < 2 ^ 53) (hn : 0 < n) (small : n < 2 ^ 53) :
    Float.ofInt a - Float.ofNat n = Float.ofInt (a - n) := by
  have negated : -Float.ofNat n = Float.ofInt (-n) := by
    obtain ⟨k, rfl⟩ := Nat.exists_eq_succ_of_ne_zero hn.ne'
    rfl
  rw [sub_eq_add_neg, negated, ofInt_add_ofInt_of_natAbs_lt ha (by omega), Int.sub_eq_add_neg]

/-! ## Sums with integers -/

theorem isFinite_ofInt (small : a.natAbs < 2 ^ 53) : (Float.ofInt a).isFinite = true := by
  by_cases zero : a = 0
  · rw [zero]
    rfl
  · obtain ⟨s, n, hn, abs, eq⟩ := exists_eq_apply zero
    change (Float.ofInt a).toModel.unpack.isFinite = true
    rw [eq, unpack_ofInt s hn (abs ▸ small)]
    rfl

theorem ofInt_add_le_of_le (ha : a.natAbs < 2 ^ 53) (hb : b.natAbs < 2 ^ 53) (h : a ≤ b)
    (hz : Float.ofInt b + d ≤ z) : Float.ofInt a + d ≤ z :=
  add_le_of_le (isFinite_ofInt ha) (isFinite_ofInt hb)
    ((le_iff_place_le (isNaN_ofInt a) (isNaN_ofInt b)).2 (place_ofInt_mono h)) hz

end Telemetry.Binary64
