import Telemetry.Measure
import Telemetry.Proofs.Doubles

/-!
# Values in a row

The guarantees of a sketch concern the order of values only. `LawfulMeasure` says what that order
has to satisfy: the values that are numbers stand on a line, and the order of sorting agrees with
it. Doubles without NaN do, and so do the rational numbers. Where sorting leaves no choice
(`SortsStrictly`), the sorted values do not tell in which order they came.

A value's rank is judged by two counts, of the values that are not greater and of those that are
less. `lt_atMost_iff` and `below_le_iff` turn bounds on these counts into bounds by entries of the
ascending list.
-/

namespace Telemetry

/-- The laws of the order on measured values. -/
class LawfulMeasure (ν : Type) [Measure ν] where
  /-- The values that compare with one another. -/
  IsNumber : ν → Prop
  /-- Where a value stands on the line. -/
  place : ν → ℚ
  lt_iff_place_lt {x y : ν} : IsNumber x → IsNumber y → (x < y ↔ place x < place y)
  sortLe_total (x y : ν) : (Measure.sortLe x y || Measure.sortLe y x) = true
  sortLe_trans (x y z : ν) :
    Measure.sortLe x y = true → Measure.sortLe y z = true → Measure.sortLe x z = true
  place_le_of_sortLe {x y : ν} : Measure.sortLe x y = true → place x ≤ place y

export LawfulMeasure (IsNumber place)

instance : LawfulMeasure Float where
  IsNumber x := x.isNaN = false
  place x := Binary64.place x
  lt_iff_place_lt hx hy := by rw [Binary64.lt_iff_place_lt hx hy, Int.cast_lt]
  sortLe_total := Binary64.totalLe_total
  sortLe_trans := Binary64.totalLe_trans
  place_le_of_sortLe h := Int.cast_le.2 (Binary64.place_le_of_totalLe h)

instance : LawfulMeasure Rat where
  IsNumber _ := True
  place x := x
  lt_iff_place_lt _ _ := Iff.rfl
  sortLe_total x y := by
    rw [Bool.or_eq_true]
    exact (le_total x y).imp decide_eq_true decide_eq_true
  sortLe_trans _ _ _ hxy hyz :=
    decide_eq_true ((of_decide_eq_true hxy).trans (of_decide_eq_true hyz))
  place_le_of_sortLe h := of_decide_eq_true h

namespace LawfulMeasure

/-- Sorting leaves no choice: two values that may stand in either order are the same. -/
class SortsStrictly (ν : Type) [Measure ν] : Prop where
  sortLe_antisymm {x y : ν} :
    Measure.sortLe x y = true → Measure.sortLe y x = true → x = y

instance : SortsStrictly Float where
  sortLe_antisymm := Binary64.totalLe_antisymm

instance : SortsStrictly Rat where
  sortLe_antisymm hxy hyx := (of_decide_eq_true hxy).antisymm (of_decide_eq_true hyx)

/-- In a sum, a value that is counted once counts as it is. -/
class CountsOnce (ν : Type) [Measure ν] : Prop where
  add_weighted_one (x v : ν) : x + Measure.weighted v 1 = x + v

instance : CountsOnce Rat where
  add_weighted_one x v := congrArg (x + ·) (mul_one v)

variable {ν : Type} [Measure ν]

/-- Values in the order of sorting. -/
def sorted (values : List ν) : List ν := values.mergeSort Measure.sortLe

theorem sorted_perm (values : List ν) : (sorted values).Perm values := List.mergeSort_perm ..

theorem length_sorted (values : List ν) : (sorted values).length = values.length :=
  (sorted_perm values).length_eq

variable [LawfulMeasure ν]

theorem not_lt_iff_place_le {x y : ν} (hx : IsNumber x) (hy : IsNumber y) :
    ¬x < y ↔ place y ≤ place x := by
  rw [lt_iff_place_lt hx hy, not_lt]

theorem sorted_pairwise (values : List ν) :
    (sorted values).Pairwise fun x y => place x ≤ place y :=
  (List.pairwise_mergeSort sortLe_trans sortLe_total values).imp place_le_of_sortLe

/-- The sorted values do not depend on the order in which they come. -/
theorem sorted_congr [SortsStrictly ν] {values others : List ν} (h : values.Perm others) :
    sorted values = sorted others := by
  refine List.Perm.eq_of_pairwise (fun _ _ _ _ => SortsStrictly.sortLe_antisymm)
    (List.pairwise_mergeSort sortLe_trans sortLe_total values)
    (List.pairwise_mergeSort sortLe_trans sortLe_total others) ?_
  exact (sorted_perm values).trans (h.trans (sorted_perm others).symm)

/-! ## Counts -/

/-- How many values are not greater than `v`. -/
def atMost (values : List ν) (v : ν) : ℕ := values.countP fun w => decide (place w ≤ place v)

/-- How many values are less than `v`. -/
def below (values : List ν) (v : ν) : ℕ := values.countP fun w => decide (place w < place v)

variable {values others : List ν} {v w : ν}

theorem atMost_congr (h : values.Perm others) (v : ν) : atMost values v = atMost others v :=
  h.countP_eq _

theorem below_congr (h : values.Perm others) (v : ν) : below values v = below others v :=
  h.countP_eq _

theorem atMost_cons (w v : ν) (values : List ν) :
    atMost (w :: values) v = atMost values v + if place w ≤ place v then 1 else 0 := by
  simp only [atMost, List.countP_cons, decide_eq_true_eq]

theorem below_cons (w v : ν) (values : List ν) :
    below (w :: values) v = below values v + if place w < place v then 1 else 0 := by
  simp only [below, List.countP_cons, decide_eq_true_eq]

theorem atMost_le_length (values : List ν) (v : ν) : atMost values v ≤ values.length :=
  List.countP_le_length

theorem below_le_length (values : List ν) (v : ν) : below values v ≤ values.length :=
  List.countP_le_length

theorem atMost_mono (h : place v ≤ place w) : atMost values v ≤ atMost values w := by
  refine List.countP_mono_left fun u _ hu => ?_
  rw [decide_eq_true_eq] at hu ⊢
  exact hu.trans h

theorem below_mono (h : place v ≤ place w) : below values v ≤ below values w := by
  refine List.countP_mono_left fun u _ hu => ?_
  rw [decide_eq_true_eq] at hu ⊢
  exact hu.trans_le h

theorem below_lt_length_of_mem (h : v ∈ values) : below values v < values.length := by
  refine lt_of_le_of_ne List.countP_le_length fun all => ?_
  have := List.countP_eq_length.1 all v h
  simp at this

theorem atMost_pos_of_mem (h : v ∈ values) : 0 < atMost values v :=
  List.countP_pos_iff.2 ⟨v, h, decide_eq_true le_rfl⟩

/-! ## Entries of an ascending list -/

section Ascending

variable {xs : List ν} {i k : ℕ}

theorem place_getElem_mono (hxs : xs.Pairwise fun x y => place x ≤ place y) (hk : k < xs.length)
    (le : i ≤ k) : place xs[i] ≤ place xs[k] := by
  rcases le.eq_or_lt with rfl | less
  · exact le_rfl
  · exact List.pairwise_iff_getElem.1 hxs i k (le.trans_lt hk) hk less

theorem place_le_of_mem_take (hxs : xs.Pairwise fun x y => place x ≤ place y) (hk : k < xs.length)
    (hw : w ∈ xs.take (k + 1)) : place w ≤ place xs[k] := by
  obtain ⟨i, hi, rfl⟩ := List.getElem_of_mem hw
  rw [List.getElem_take]
  rw [List.length_take] at hi
  exact place_getElem_mono hxs hk (by omega)

theorem place_le_of_mem_drop (hxs : xs.Pairwise fun x y => place x ≤ place y) (hk : k < xs.length)
    (hw : w ∈ xs.drop k) : place xs[k] ≤ place w := by
  obtain ⟨i, hi, rfl⟩ := List.getElem_of_mem hw
  rw [List.getElem_drop]
  rw [List.length_drop] at hi
  exact place_getElem_mono hxs (by omega) (Nat.le_add_right k i)

theorem atMost_take_add_drop (xs : List ν) (k : ℕ) (v : ν) :
    atMost (xs.take k) v + atMost (xs.drop k) v = atMost xs v := by
  rw [atMost, atMost, atMost, ← List.countP_append, List.take_append_drop]

theorem below_take_add_drop (xs : List ν) (k : ℕ) (v : ν) :
    below (xs.take k) v + below (xs.drop k) v = below xs v := by
  rw [below, below, below, ← List.countP_append, List.take_append_drop]

/-- In an ascending list, more than `k` entries are not greater than `v` if and only if the one at
position `k` is not. -/
theorem lt_atMost_iff (hxs : xs.Pairwise fun x y => place x ≤ place y) (hk : k < xs.length) :
    k < atMost xs v ↔ place xs[k] ≤ place v := by
  constructor
  · intro h
    by_contra greater
    have rest : atMost (xs.drop k) v = 0 := by
      refine List.countP_eq_zero.2 fun w hw => ?_
      rw [decide_eq_true_eq]
      exact fun le => greater ((place_le_of_mem_drop hxs hk hw).trans le)
    have split := atMost_take_add_drop xs k v
    have start := atMost_le_length (xs.take k) v
    rw [List.length_take] at start
    omega
  · intro le
    have start : atMost (xs.take (k + 1)) v = (xs.take (k + 1)).length := by
      refine List.countP_eq_length.2 fun w hw => ?_
      exact decide_eq_true ((place_le_of_mem_take hxs hk hw).trans le)
    have split := atMost_take_add_drop xs (k + 1) v
    rw [List.length_take] at start
    omega

/-- In an ascending list, at most `k` entries are less than `v` if and only if the one at position
`k` is not. -/
theorem below_le_iff (hxs : xs.Pairwise fun x y => place x ≤ place y) (hk : k < xs.length) :
    below xs v ≤ k ↔ place v ≤ place xs[k] := by
  constructor
  · intro h
    by_contra less
    rw [not_le] at less
    have start : below (xs.take (k + 1)) v = (xs.take (k + 1)).length := by
      refine List.countP_eq_length.2 fun w hw => ?_
      exact decide_eq_true ((place_le_of_mem_take hxs hk hw).trans_lt less)
    have split := below_take_add_drop xs (k + 1) v
    rw [List.length_take] at start
    omega
  · intro le
    have rest : below (xs.drop k) v = 0 := by
      refine List.countP_eq_zero.2 fun w hw => ?_
      rw [decide_eq_true_eq]
      exact fun less => (le.trans (place_le_of_mem_drop hxs hk hw)).not_gt less
    have split := below_take_add_drop xs k v
    have start := below_le_length (xs.take k) v
    rw [List.length_take] at start
    omega

end Ascending

/-! ## Doubles -/

section Doubles

variable {values : List Float} {v : Float}

theorem atMost_eq_countP (numbers : ∀ w ∈ values, w.isNaN = false) (hv : v.isNaN = false) :
    atMost values v = values.countP fun w => decide (w ≤ v) := by
  refine List.countP_congr fun w hw => ?_
  rw [decide_eq_true_eq, decide_eq_true_eq, Binary64.le_iff_place_le (numbers w hw) hv]
  exact Int.cast_le

theorem below_eq_countP (numbers : ∀ w ∈ values, w.isNaN = false) (hv : v.isNaN = false) :
    below values v = values.countP fun w => decide (w < v) := by
  refine List.countP_congr fun w hw => ?_
  rw [decide_eq_true_eq, decide_eq_true_eq, Binary64.lt_iff_place_lt (numbers w hw) hv]
  exact Int.cast_lt

theorem le_of_place_le {w : Float} (hv : v.isNaN = false) (hw : w.isNaN = false)
    (h : place v ≤ place w) : v ≤ w := by
  rw [Binary64.le_iff_place_le hv hw]
  exact Int.cast_le.1 h

end Doubles

end LawfulMeasure

end Telemetry
