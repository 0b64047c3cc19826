import Telemetry.RawDouble
import Telemetry.Proofs.Measure
import Telemetry.Proofs.Values

/-!
# The order of bits

Bits that are no NaN are those of the double that they give (`Binary64.toBits_ofBits`), so they
compare as doubles do. The total order of all bits refines that comparison and leaves no choice,
not even among NaNs. So whatever is proved of lawful measures holds of doubles as they are in
memory.
-/

namespace Telemetry

namespace Binary64

open Float.Model Float.Model.UnpackedFloat

variable {bits : UInt64}

theorem isNaN_ofBits : (Float.ofBits bits).isNaN =
    (UnpackedFloat.unpack Format.binary64 bits.toBitVec).isNaN :=
  isNaN_packed (canonical_unpack_bits _)

/-- Only the bits of a NaN are changed. -/
theorem toBits_ofBits (number : (Float.ofBits bits).isNaN = false) :
    (Float.ofBits bits).toBits = bits := by
  rw [isNaN_ofBits] at number
  have valid : Format.binary64.Valid bits.toBitVec := by
    refine ⟨fun full nonzero => ?_⟩
    unfold UnpackedFloat.unpack at number
    simp only at number
    rw [if_pos full, if_neg nonzero] at number
    cases number
  exact congrArg UInt64.ofBitVec (pack_unpack valid)

theorem ofBits_toBits (x : Float) : Float.ofBits x.toBits = x := packed_unpack x

end Binary64

namespace RawDouble

variable {x y : RawDouble}

@[simp]
theorem toFloat_ofFloat (x : Float) : (ofFloat x).toFloat = x := Binary64.ofBits_toBits x

theorem place_toFloat (number : x.toFloat.isNaN = false) :
    Binary64.place x.toFloat = Binary64.signedMagnitude x.bits.toNat :=
  congrArg (fun bits : UInt64 => Binary64.signedMagnitude bits.toNat) (Binary64.toBits_ofBits number)

theorem totalLe_iff : totalLe x y = true ↔ Binary64.keyOfBits x.bits ≤ Binary64.keyOfBits y.bits :=
  decide_eq_true_iff

instance : LawfulMeasure RawDouble where
  IsNumber x := x.toFloat.isNaN = false
  place x := Binary64.signedMagnitude x.bits.toNat
  lt_iff_place_lt hx hy := by
    rw [← place_toFloat hx, ← place_toFloat hy, Int.cast_lt]
    exact Binary64.lt_iff_place_lt hx hy
  sortLe_total x y := by
    rw [Bool.or_eq_true]
    exact (UInt64.le_total _ _).imp totalLe_iff.2 totalLe_iff.2
  sortLe_trans _ _ _ hxy hyz :=
    totalLe_iff.2 (UInt64.le_trans (totalLe_iff.1 hxy) (totalLe_iff.1 hyz))
  place_le_of_sortLe h :=
    Int.cast_le.2 (Binary64.signedMagnitude_le_of_keyOfBits_le (totalLe_iff.1 h))

instance : LawfulMeasure.SortsStrictly RawDouble where
  sortLe_antisymm {x y} hxy hyx := by
    have key := UInt64.le_antisymm (totalLe_iff.1 hxy) (totalLe_iff.1 hyx)
    exact congrArg RawDouble.mk (Binary64.keyOfBits_injective key)

end RawDouble

/-! ## Counting once -/

namespace LawfulMeasure

instance : CountsOnce Float where
  add_weighted_one x v := congrArg (x + ·) (Binary64.mul_ofNat_one v)

instance : CountsOnce RawDouble where
  add_weighted_one x v := by
    refine congrArg (fun y => RawDouble.ofFloat (x.toFloat + y)) ?_
    change (RawDouble.ofFloat (v.toFloat * Float.ofNat 1)).toFloat = v.toFloat
    rw [RawDouble.toFloat_ofFloat, Binary64.mul_ofNat_one]

end LawfulMeasure

end Telemetry
