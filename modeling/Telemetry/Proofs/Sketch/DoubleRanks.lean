import Telemetry.Proofs.Rounding
import Telemetry.Proofs.Sketch.Whole

/-!
# Evaluating with doubles as ranks

A whole number becomes a double by a multiplication by one, and the product is rounded bit by bit.
The bits of the result are known beforehand (`ofNat_eq_ofBits`). Ranks with this shortcut are the
same ranks (`quickPrecision_eq`), and the kernel can fold hundreds of samples with them.
-/

namespace Telemetry

namespace Binary64

/-- The bits of the double that stands for a positive number below `2 ^ 53`. -/
def natBits (n : ℕ) : ℕ := (n.log2 + 1022) * 2 ^ 52 + scaled n

section

variable {n : ℕ} (hn : 0 < n) (h : n < 2 ^ 53)

include hn h

theorem natBits_bounds : 2 ^ 52 ≤ natBits n ∧ natBits n < 2047 * 2 ^ 52 := by
  have digits : n.log2 ≤ 52 := Nat.le_of_lt_succ ((Nat.log2_lt hn.ne').2 h)
  have high := scaled_lt hn h
  unfold natBits
  omega

theorem ofNat_eq_ofBits : Float.ofNat n = Float.ofBits (UInt64.ofNat (natBits n)) := by
  obtain ⟨low, high⟩ := natBits_bounds hn h
  have bits : (Float.ofNat n).toBits.toNat = natBits n := by
    have at_place := place_ofNat n
    rw [natPlace, if_neg hn.ne', nearPlace_of_lt hn h, ← natBits, min_eq_right high.le, place,
      signedMagnitude] at at_place
    split_ifs at at_place <;> omega
  refine Float.toBits_inj.1 (UInt64.toNat_inj.1 ?_)
  rw [bits, toNat_toBits_ofBits low high]

end

/-- The double of an integer, with the bits of small positive numbers put together at once. -/
def quickInt : ℤ → Float
  | .ofNat (n + 1) =>
    bif Nat.blt (n + 1) (2 ^ 53) then Float.ofBits (UInt64.ofNat (natBits (n + 1)))
    else Float.ofNat (n + 1)
  | a => Float.ofInt a

theorem quickInt_eq : quickInt = Float.ofInt := by
  funext a
  unfold quickInt
  split
  next n =>
    cases small : Nat.blt (n + 1) (2 ^ 53) with
    | true => exact (ofNat_eq_ofBits n.succ_pos (Nat.blt_eq.mp small)).symm
    | false => rfl
  next => rfl

end Binary64

/-- Doubles as ranks, with a shortcut for whole numbers. -/
@[reducible]
def quickPrecision : Precision Float := { instPrecisionFloat with ofInt := Binary64.quickInt }

theorem quickPrecision_eq : quickPrecision = instPrecisionFloat := by
  rw [quickPrecision, Binary64.quickInt_eq]
  rfl

end Telemetry
