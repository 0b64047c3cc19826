import Telemetry.Proofs.Addition
import Telemetry.Proofs.Sketch.TotalOrder

/-!
# Merging in place

Samples may be stored as they are, with a width and a delta that are doubles like the value
(`Sample.stored`), and new values may be put among them where they stand. For ascending values the
search for the place of the next one need not start over: it goes on behind the value put in before
(`Merge.insert`). Whether it goes on or starts over each time (`put`), the outcome is the same
(`Merge.slots_insertAll`), since what was passed is not greater than the values still to come. And
as long as widths and deltas are small, these are the samples of a sketch that weaves its buffer in
(`merge_in_place`), for which nothing need ascend (`Sample.slots_insertAll_stored`).
-/

namespace Telemetry

open LawfulMeasure

variable {ν ω δ ρ : Type}

/-- A value with a width and a delta, each a number of its own kind. -/
structure Slot (ν ω δ : Type) where
  value : ν
  width : ω
  delta : δ
  deriving DecidableEq

/-- A sample with its width and its delta in the arithmetic of ranks. -/
def Sample.stored [Precision ρ] (s : Sample ν) : Slot ν ρ ρ :=
  ⟨s.value, Precision.ofInt s.width, Precision.ofInt s.delta⟩

/-- The slots of a merge in progress, the index at which the next search starts, and the number of
values merged. -/
structure Merge (ν ρ : Type) where
  slots : List (Slot ν ρ ρ)
  index : ℕ
  merged : ρ

/-! ## Values put in place -/

namespace Slot

variable [Measure ν]

/-- The first index from `i` on at which a greater value stands, or the end. -/
def search (v : ν) (slots : List (Slot ν ω δ)) (i : ℕ) : ℕ :=
  i + (slots.drop i).findIdx fun s => decide (v < s.value)

variable [Precision ρ]

/-- The slot of a value whose rank is known. -/
def exact (v : ν) : Slot ν ρ ρ := ⟨v, Precision.ofInt 1, Precision.ofInt 0⟩

/-- The slot of a value between two parts: at the head and at the end its rank is known, elsewhere
it has the uncertainty of what follows. -/
def between (v : ν) : List (Slot ν ρ ρ) → List (Slot ν ρ ρ) → Slot ν ρ ρ
  | _ :: _, s :: _ => ⟨v, Precision.ofInt 1, s.width + s.delta - Precision.ofInt 1⟩
  | _, _ => exact v

/-- Puts one value in front of the first greater one, or to the end. -/
def put (slots : List (Slot ν ρ ρ)) (v : ν) : List (Slot ν ρ ρ) :=
  let front := slots.takeWhile fun s => !decide (v < s.value)
  let back := slots.dropWhile fun s => !decide (v < s.value)
  front ++ between v front back :: back

end Slot

namespace Merge

variable [Measure ν] [Precision ρ]

/-- Puts a value in front of the first greater one from the index on, or to the end. The next search
starts behind it. -/
def insert (m : Merge ν ρ) (v : ν) : Merge ν ρ :=
  let i := Slot.search v m.slots m.index
  let slots := match m.slots[i]? with
    | none => m.slots ++ [Slot.exact v]
    | some s =>
      let delta := if i = 0 then Precision.ofInt 0 else s.width + s.delta - Precision.ofInt 1
      m.slots.insertIdx i ⟨v, Precision.ofInt 1, delta⟩
  ⟨slots, i + 1, m.merged + Precision.ofInt 1⟩

/-- Puts in values one after the other. -/
def insertAll (m : Merge ν ρ) (values : List ν) : Merge ν ρ := values.foldl insert m

end Merge

/-! ## Where a value goes -/

namespace Slot

variable [Measure ν] {v : ν} {front back slots : List (Slot ν ω δ)}

/-- Slots that are not greater than a value, in front of one that is or of none. -/
structure Parts (v : ν) (front back : List (Slot ν ω δ)) : Prop where
  not_less : ∀ s ∈ front, ¬v < s.value
  less : ∀ s ∈ back.head?, v < s.value

theorem exists_parts (v : ν) (slots : List (Slot ν ω δ)) :
    ∃ front back, slots = front ++ back ∧ Parts v front back := by
  induction slots with
  | nil => exact ⟨[], [], rfl, List.forall_mem_nil _, by simp⟩
  | cons s rest ih =>
    by_cases h : v < s.value
    · exact ⟨[], s :: rest, rfl, List.forall_mem_nil _, by simpa using h⟩
    · obtain ⟨front, back, rfl, parts⟩ := ih
      exact ⟨s :: front, back, rfl, List.forall_mem_cons.2 ⟨h, parts.not_less⟩, parts.less⟩

theorem findIdx_eq_zero (less : ∀ s ∈ back.head?, v < s.value) :
    back.findIdx (fun s => decide (v < s.value)) = 0 := by
  cases back with
  | nil => rfl
  | cons s rest => rw [List.findIdx_cons, decide_eq_true (less s rfl), cond_true]

/-- A search that starts at a greater slot, or at the end, stays there. -/
theorem search_of_less (less : ∀ s ∈ back.head?, v < s.value) :
    search v (front ++ back) front.length = front.length := by
  rw [search, List.drop_left, findIdx_eq_zero less, Nat.add_zero]

/-- A search passes a slot that is not greater. -/
theorem search_of_not_lt {s : Slot ν ω δ} (h : ¬v < s.value) :
    search v (front ++ s :: back) front.length =
      search v (front ++ s :: back) (front ++ [s]).length := by
  have behind : (front ++ s :: back).drop (front ++ [s]).length = back := by
    rw [List.append_cons front s back, List.drop_left]
  rw [search, search, behind, List.drop_left, List.findIdx_cons, decide_eq_false h, cond_false,
    List.length_append, List.length_singleton, Nat.add_comm _ 1, Nat.add_assoc]

theorem Parts.search_eq (h : Parts v front back) {i : ℕ} (hi : i ≤ front.length) :
    search v (front ++ back) i = front.length := by
  have passed : (front.drop i).findIdx (fun s => decide (v < s.value)) = (front.drop i).length :=
    List.findIdx_eq_length_of_false fun s hs =>
      decide_eq_false (h.not_less s (List.mem_of_mem_drop hs))
  rw [search, List.drop_append_of_le_length hi, List.findIdx_append, passed,
    if_neg (lt_irrefl _), findIdx_eq_zero h.less, List.length_drop]
  omega

variable [Precision ρ]

theorem Parts.put_eq {front back : List (Slot ν ρ ρ)} (h : Parts v front back) :
    put (front ++ back) v = front ++ between v front back :: back := by
  have passed : ∀ s ∈ front, (!decide (v < s.value)) = true := fun s hs => by
    rw [decide_eq_false (h.not_less s hs), Bool.not_false]
  have stop : back.takeWhile (fun s => !decide (v < s.value)) = [] ∧
      back.dropWhile (fun s => !decide (v < s.value)) = back := by
    cases back with
    | nil => exact ⟨rfl, rfl⟩
    | cons s rest =>
      have greater : ¬(!decide (v < s.value)) = true := by simpa using h.less s rfl
      exact ⟨List.takeWhile_cons_of_neg greater, List.dropWhile_cons_of_neg greater⟩
  rw [put, List.takeWhile_append_of_pos passed, List.dropWhile_append_of_pos passed, stop.1, stop.2,
    List.append_nil]

omit [Measure ν] in
theorem between_value {front back : List (Slot ν ρ ρ)} : (between v front back).value = v := by
  cases front <;> cases back <;> rfl

theorem isNumber_put [LawfulMeasure ν] {slots : List (Slot ν ρ ρ)} (hv : IsNumber v)
    (numbers : ∀ s ∈ slots, IsNumber s.value) : ∀ s ∈ put slots v, IsNumber s.value := by
  obtain ⟨front, back, rfl, parts⟩ := exists_parts v slots
  have numbers := List.forall_mem_append.1 numbers
  rw [parts.put_eq]
  refine List.forall_mem_append.2 ⟨numbers.1, List.forall_mem_cons.2 ⟨?_, numbers.2⟩⟩
  rwa [between_value]

/-- Slots in ascending order are so with one value more. -/
theorem pairwise_put [LawfulMeasure ν] {slots : List (Slot ν ρ ρ)} (hv : IsNumber v)
    (numbers : ∀ s ∈ slots, IsNumber s.value)
    (ascending : slots.Pairwise fun s t => place s.value ≤ place t.value) :
    (put slots v).Pairwise fun s t => place s.value ≤ place t.value := by
  obtain ⟨front, back, rfl, parts⟩ := exists_parts v slots
  have numbers := List.forall_mem_append.1 numbers
  obtain ⟨low, high, across⟩ := List.pairwise_append.1 ascending
  have not_above : ∀ s ∈ front, place s.value ≤ place v := fun s hs =>
    (not_lt_iff_place_le hv (numbers.1 s hs)).1 (parts.not_less s hs)
  have not_below : ∀ s ∈ back, place v ≤ place s.value := by
    cases back with
    | nil => exact List.forall_mem_nil _
    | cons s rest =>
      have less := ((lt_iff_place_lt hv (numbers.2 s List.mem_cons_self)).1 (parts.less s rfl)).le
      exact List.forall_mem_cons.2
        ⟨less, fun t ht => less.trans (List.rel_of_pairwise_cons high ht)⟩
  rw [parts.put_eq]
  refine List.pairwise_append.2 ⟨low, List.pairwise_cons.2 ⟨?_, high⟩, fun s hs => ?_⟩
  · rwa [between_value]
  · refine List.forall_mem_cons.2 ⟨?_, across s hs⟩
    rw [between_value]
    exact not_above s hs

theorem isNumber_and_pairwise_foldl_put [LawfulMeasure ν] {slots : List (Slot ν ρ ρ)}
    {values : List ν} (hv : ∀ v ∈ values, IsNumber v) (numbers : ∀ s ∈ slots, IsNumber s.value)
    (ascending : slots.Pairwise fun s t => place s.value ≤ place t.value) :
    (∀ s ∈ values.foldl put slots, IsNumber s.value) ∧
      (values.foldl put slots).Pairwise fun s t => place s.value ≤ place t.value := by
  induction values generalizing slots with
  | nil => exact ⟨numbers, ascending⟩
  | cons v values ih =>
    have hv := List.forall_mem_cons.1 hv
    exact ih hv.2 (isNumber_put hv.1 numbers) (pairwise_put hv.1 numbers ascending)

end Slot

/-! ## Going on where the last value was put -/

namespace Merge

open Slot

theorem insertIdx_append {α : Type} (front back : List α) (a : α) :
    (front ++ back).insertIdx front.length a = front ++ a :: back := by
  induction front with
  | nil => rfl
  | cons b front ih =>
    rw [List.cons_append, List.length_cons, List.insertIdx_succ_cons, ih, List.cons_append]

variable [Measure ν] [Precision ρ] {v : ν} {front back : List (Slot ν ρ ρ)}

/-- A search that ends between two parts puts the value there. -/
theorem insert_of_search_eq {i : ℕ} (h : search v (front ++ back) i = front.length) (merged : ρ) :
    insert ⟨front ++ back, i, merged⟩ v =
      ⟨front ++ between v front back :: back, front.length + 1,
        merged + Precision.ofInt 1⟩ := by
  unfold insert
  dsimp only
  rw [h]
  cases back with
  | nil =>
    have last : between v front [] = exact v := by cases front <;> rfl
    rw [List.append_nil, List.getElem?_eq_none le_rfl, last]
  | cons s rest =>
    rw [List.getElem?_append_right le_rfl, Nat.sub_self, List.getElem?_cons_zero]
    dsimp only
    rw [insertIdx_append]
    cases front <;> rfl

/-- A search that starts in the first part puts the value between the two. -/
theorem insert_eq (h : Parts v front back) {i : ℕ} (hi : i ≤ front.length) (merged : ρ) :
    insert ⟨front ++ back, i, merged⟩ v =
      ⟨front ++ between v front back :: back, front.length + 1,
        merged + Precision.ofInt 1⟩ :=
  insert_of_search_eq (h.search_eq hi) merged

/-- A slot that is not greater is passed. -/
theorem insert_of_not_lt {s : Slot ν ρ ρ} (h : ¬v < s.value) (merged : ρ) :
    insert ⟨front ++ s :: back, front.length, merged⟩ v =
      insert ⟨front ++ [s] ++ back, (front ++ [s]).length, merged⟩ v := by
  unfold insert
  dsimp only
  rw [search_of_not_lt h, List.append_cons]

/-- While values ascend, going on behind the last one finds the same places as starting over: what
lies behind is not greater than any value to come. -/
theorem slots_insertAll [LawfulMeasure ν] {values : List ν} (done rest : List (Slot ν ρ ρ))
    (merged : ρ) (numbers : ∀ v ∈ values, IsNumber v) (rest_numbers : ∀ s ∈ rest, IsNumber s.value)
    (ascending : values.Pairwise fun v w => place v ≤ place w)
    (passed : ∀ s ∈ done, ∀ v ∈ values, ¬v < s.value) :
    (insertAll ⟨done ++ rest, done.length, merged⟩ values).slots =
      values.foldl put (done ++ rest) := by
  -- what was passed joins `done`, so that the next value goes into `rest` or between the two
  induction values generalizing done rest merged with
  | nil => rfl
  | cons v values ih =>
    obtain ⟨hv, numbers⟩ := List.forall_mem_cons.1 numbers
    obtain ⟨least, ascending⟩ := List.pairwise_cons.1 ascending
    obtain ⟨front, back, rfl, parts⟩ := exists_parts v rest
    have rest_numbers := List.forall_mem_append.1 rest_numbers
    have all_parts : Parts v (done ++ front) back :=
      ⟨List.forall_mem_append.2 ⟨fun s hs => passed s hs v List.mem_cons_self, parts.not_less⟩,
        parts.less⟩
    have not_less : ∀ s : Slot ν ρ ρ, IsNumber s.value → ¬v < s.value →
        ∀ w ∈ values, ¬w < s.value := by
      intro s hs h w hw
      rw [not_lt_iff_place_le hv hs] at h
      exact (not_lt_iff_place_le (numbers w hw) hs).2 (h.trans (least w hw))
    rw [insertAll, List.foldl_cons, List.foldl_cons, ← List.append_assoc, all_parts.put_eq,
      insert_eq all_parts (List.length_append ▸ Nat.le_add_right _ _), List.append_cons]
    have next := ih (done ++ front ++ [between v (done ++ front) back]) back
      (merged + Precision.ofInt 1) numbers rest_numbers.2 ascending ?_
    · rwa [List.length_append] at next
    · have behind : ∀ s ∈ done ++ front, ∀ w ∈ values, ¬w < s.value :=
        List.forall_mem_append.2 ⟨fun s hs w hw => passed s hs w (List.mem_cons_of_mem _ hw),
          fun s hs => not_less s (rest_numbers.1 s hs) (parts.not_less s hs)⟩
      refine List.forall_mem_append.2 ⟨behind, List.forall_mem_singleton.2 ?_⟩
      rw [between_value]
      exact fun w hw => (not_lt_iff_place_le (numbers w hw) hv).2 (least w hw)

theorem merged_insertAll (m : Merge ν ρ) (values : List ν) :
    (insertAll m values).merged = values.foldl (fun n _ => n + Precision.ofInt 1) m.merged := by
  induction values generalizing m with
  | nil => rfl
  | cons v values ih => exact ih (insert m v)

end Merge

/-! ## Samples as they are stored -/

namespace Sample

variable {ν : Type}

/-- A width and a delta so small that doubles stand for them, and for what a value put in front of
the sample has of them. -/
def Small (s : Sample ν) : Prop := 1 ≤ s.width ∧ s.width + s.delta.natAbs < 2 ^ 53

theorem Small.stored_span {s : Sample ν} (h : s.Small) :
    (s.stored : Slot ν Float Float).width + s.stored.delta - Precision.ofInt 1 =
      Precision.ofInt (s.span - 1) := by
  obtain ⟨-, small⟩ := h
  change Float.ofInt s.width + Float.ofInt s.delta - Float.ofNat 1 = Float.ofInt (s.span - (1 : ℕ))
  rw [Binary64.ofInt_add_ofInt (by omega),
    Binary64.ofInt_sub_ofNat (by omega) Nat.one_pos (by decide)]
  rfl

variable [Measure ν] {v : ν} {samples : List (Sample ν)}

/-- Going on where the last value was put does what the pass does, whatever the order of the values
and of the samples is. -/
theorem slots_insertAll_stored (values : List ν) (small : ∀ s ∈ samples, s.Small)
    (done : List (Slot ν Float Float)) (merged : Float) :
    (Merge.insertAll ⟨done ++ samples.map stored, done.length, merged⟩ values).slots =
      done ++ (weave done.isEmpty values samples).map stored := by
  refine weave_rec (P := fun atHead values samples out => ∀ done merged, done.isEmpty = atHead →
    (∀ s ∈ samples, s.Small) →
      (Merge.insertAll ⟨done ++ samples.map stored, done.length, merged⟩ values).slots =
        done ++ out.map (stored : _ → Slot ν Float Float))
    (fun _ _ _ _ _ _ => rfl) ?last ?front ?pass done merged rfl small
  case last =>
    intro atHead v values out ih done merged _ _
    have last : Merge.insert ⟨done ++ [], done.length, merged⟩ v =
        ⟨done ++ [Slot.exact v], done.length + 1, merged + Precision.ofInt 1⟩ := by
      rw [Merge.insert_of_search_eq (Slot.search_of_less (by simp))]
      cases done <;> rfl
    have later := ih (done ++ [Slot.exact v]) (merged + Precision.ofInt 1) (by simp)
      (List.forall_mem_nil _)
    rw [List.map_nil, List.append_nil, List.length_append, List.append_assoc] at later
    rw [List.map_nil, Merge.insertAll, List.foldl_cons, last]
    exact later
  case front =>
    intro atHead v values s rest out less ih done merged head small
    have first : Merge.insert ⟨done ++ s.stored :: rest.map stored, done.length, merged⟩ v = _ :=
      Merge.insert_of_search_eq (Slot.search_of_less fun t ht => by cases ht; exact less) merged
    have new : Slot.between v done (s.stored :: rest.map stored) =
        stored ⟨v, 1, if atHead then 0 else s.span - 1⟩ := by
      subst head
      cases done with
      | nil => rfl
      | cons t done =>
        exact congrArg (Slot.mk v _) (small s List.mem_cons_self).stored_span
    have later := ih (done ++ [Slot.between v done (s.stored :: rest.map stored)])
      (merged + Precision.ofInt 1) (by simp) small
    rw [List.length_append, List.append_assoc, List.append_assoc] at later
    rw [List.map_cons, Merge.insertAll, List.foldl_cons, first, List.map_cons, ← new]
    exact later
  case pass =>
    intro atHead v values s rest out not_less ih done merged _ small
    have later := ih (done ++ [s.stored]) merged (by simp) (List.forall_mem_cons.1 small).2
    rw [List.append_assoc _ _ (out.map stored)] at later
    rw [List.map_cons, List.map_cons, Merge.insertAll, List.foldl_cons,
      Merge.insert_of_not_lt not_less]
    exact later

/-- A pass over ascending values weaves them in one by one. -/
theorem weave_eq_foldl [LawfulMeasure ν] {values : List ν} (numbers : ∀ v ∈ values, IsNumber v)
    (ascending : values.Pairwise fun v w => place v ≤ place w)
    (hs : ∀ s ∈ samples, IsNumber s.value) :
    weave true values samples = values.foldl (fun xs v => weaveOne true v xs) samples := by
  induction values generalizing samples with
  | nil => exact weave_nil
  | cons v values ih =>
    obtain ⟨hv, numbers⟩ := List.forall_mem_cons.1 numbers
    obtain ⟨least, ascending⟩ := List.pairwise_cons.1 ascending
    rw [weave_cons hv numbers least hs, List.foldl_cons,
      ih numbers ascending (isNumber_weaveOne hv hs)]

end Sample

namespace Sketch

variable {ν ρ : Type} [Measure ν]

/-- Sorted values are woven in one by one, and counted. -/
theorem weaveBuffer_eq_foldl [LawfulMeasure ν] (s : Sketch ν ρ)
    (numbers : ∀ v ∈ s.sortedBuffer, IsNumber v) (hs : ∀ x ∈ s.summary, IsNumber x.value) :
    s.weaveBuffer.summary =
        s.sortedBuffer.foldl (fun xs v => Sample.weaveOne true v xs) s.summary ∧
      s.weaveBuffer.merged = s.merged + s.sortedBuffer.length := by
  refine ⟨Sample.weave_eq_foldl numbers (sortedBuffer_pairwise s) hs, ?_⟩
  rw [(sortedBuffer_perm s).length_eq, Array.length_toList]
  rfl

end Sketch

/-! ## Doubles -/

namespace LawfulMeasure

theorem pairwise_le_iff {xs : List Float} (numbers : ∀ x ∈ xs, x.isNaN = false) :
    xs.Pairwise (· ≤ ·) ↔ xs.Pairwise fun x y => place x ≤ place y :=
  List.Pairwise.iff_of_mem fun hx hy =>
    (Binary64.le_iff_place_le (numbers _ hx) (numbers _ hy)).trans Int.cast_le.symm

end LawfulMeasure

namespace Sketch

/-- Samples of numbers still ascend when numbers were woven in. -/
theorem pairwise_le_weaveBuffer {ρ : Type} (s : Sketch Float ρ)
    (numbers : ∀ v ∈ s.sortedBuffer, v.isNaN = false)
    (value_numbers : ∀ v ∈ s.summary.map Sample.value, v.isNaN = false)
    (ascending : (s.summary.map Sample.value).Pairwise (· ≤ ·)) :
    (s.weaveBuffer.summary.map Sample.value).Pairwise (· ≤ ·) := by
  have woven : ∀ v ∈ s.weaveBuffer.summary.map Sample.value, v.isNaN = false := fun v hv =>
    (List.mem_append.1 (Sample.map_value_weave_perm.subset hv)).elim (numbers v) (value_numbers v)
  rw [pairwise_le_iff woven]
  exact Sample.pairwise_weave (fun _ _ _ => le_trans) (sortedBuffer_pairwise s)
    ((pairwise_le_iff value_numbers).1 ascending)
    fun x hx v hv => agrees_place (value_numbers _ (List.mem_map_of_mem hx)) (numbers v hv)

end Sketch

namespace Slot

theorem foldl_add_one (values : List ν) {merged : ℕ} (few : merged + values.length ≤ 2 ^ 53) :
    values.foldl (fun n _ => n + Precision.ofInt 1) (Float.ofNat merged) =
      Float.ofNat (merged + values.length) := by
  induction values generalizing merged with
  | nil => rfl
  | cons v values ih =>
    rw [List.length_cons] at few ⊢
    have next : Float.ofNat merged + Float.ofInt 1 = Float.ofNat (merged + 1) :=
      Binary64.ofInt_add_ofInt (a := merged) (b := 1) (by omega)
    rw [List.foldl_cons]
    change values.foldl _ (Float.ofNat merged + Float.ofInt 1) = _
    rw [next, ih (by omega), Nat.add_assoc, Nat.add_comm 1]

theorem pairwise_le_foldl_put {slots : List (Slot Float Float Float)} {values : List Float}
    (slot_numbers : ∀ s ∈ slots, s.value.isNaN = false)
    (ascending : (slots.map value).Pairwise (· ≤ ·)) (numbers : ∀ v ∈ values, v.isNaN = false) :
    ((values.foldl put slots).map value).Pairwise (· ≤ ·) := by
  rw [pairwise_le_iff (List.forall_mem_map.2 slot_numbers), List.pairwise_map] at ascending
  have after := isNumber_and_pairwise_foldl_put numbers slot_numbers ascending
  rw [pairwise_le_iff (List.forall_mem_map.2 after.1), List.pairwise_map]
  exact after.2

/-- Ascending values merged in place, going on behind the last one each time, are put in place as if
each search started at the head. The slots still ascend, and the values are counted. The buffer of a
sketch is woven in like this. -/
theorem merge_in_place {slots : List (Slot Float Float Float)} {values : List Float}
    (slot_numbers : ∀ s ∈ slots, s.value.isNaN = false)
    (ascending : (slots.map value).Pairwise (· ≤ ·))
    (numbers : ∀ v ∈ values, v.isNaN = false)
    (sorted : values.Pairwise fun v w => Binary64.totalLe v w = true) (merged : ℕ) :
    let m := Merge.insertAll ⟨slots, 0, Float.ofNat merged⟩ values
    m.slots = values.foldl put slots ∧
      (m.slots.map value).Pairwise (· ≤ ·) ∧
      (merged + values.length ≤ 2 ^ 53 → m.merged = Float.ofNat (merged + values.length)) ∧
      ∀ s : Sketch Float Float, s.sortedBuffer = values →
        s.summary.map Sample.value = slots.map value →
        s.weaveBuffer.summary = values.foldl (fun xs v => Sample.weaveOne true v xs) s.summary ∧
          (s.weaveBuffer.summary.map Sample.value).Pairwise (· ≤ ·) ∧
          s.weaveBuffer.merged = s.merged + values.length ∧
          ((∀ x ∈ s.summary, x.Small) → s.summary.map Sample.stored = slots →
            s.weaveBuffer.summary.map Sample.stored = m.slots) := by
  intro m
  have places : values.Pairwise fun v w => place v ≤ place w := sorted.imp place_le_of_sortLe
  have put_eq : m.slots = values.foldl put slots :=
    Merge.slots_insertAll [] slots _ numbers slot_numbers places (List.forall_mem_nil _)
  refine ⟨put_eq, ?_, fun few => ?_, fun s buffer same => ?_⟩
  · rw [put_eq]
    exact pairwise_le_foldl_put slot_numbers ascending numbers
  · exact (Merge.merged_insertAll _ values).trans (foldl_add_one values few)
  · subst buffer
    have value_numbers : ∀ v ∈ s.summary.map Sample.value, v.isNaN = false := by
      rw [same]
      exact List.forall_mem_map.2 slot_numbers
    obtain ⟨woven, counted⟩ := s.weaveBuffer_eq_foldl numbers (List.forall_mem_map.1 value_numbers)
    refine ⟨woven, s.pairwise_le_weaveBuffer numbers value_numbers (same ▸ ascending), counted,
      fun small stored => ?_⟩
    subst stored
    exact (Sample.slots_insertAll_stored s.sortedBuffer small [] (Float.ofNat merged)).symm

theorem merge_in_place_signedZeros :
    let samples : List (Sample Float) := [⟨0, 1, 0⟩, ⟨2, 3, 1⟩]
    let slots : List (Slot Float Float Float) := samples.map Sample.stored
    let values : List Float := [-3, -1, -0, 0, 2, 5]
    let s : Sketch Float Float := ⟨[], values.toArray, samples, 4, 10, 9⟩
    let m := Merge.insertAll ⟨slots, 0, Float.ofNat 4⟩ values
    (∀ s ∈ slots, s.value.isNaN = false) ∧ (slots.map value).Pairwise (· ≤ ·) ∧
      (∀ v ∈ values, v.isNaN = false) ∧
      (values.Pairwise fun v w => Binary64.totalLe v w = true) ∧ s.sortedBuffer = values ∧
      (∀ x ∈ samples, x.Small) ∧ m.slots = values.foldl put slots ∧
      m.slots = [⟨-3, 1, 0⟩, ⟨-1, 1, 0⟩, ⟨0, 1, 0⟩, ⟨-0, 1, 3⟩, ⟨0, 1, 3⟩, ⟨2, 3, 1⟩, ⟨2, 1, 0⟩,
        ⟨5, 1, 0⟩] ∧
      m.merged = Float.ofNat 10 ∧ s.weaveBuffer.summary.map Sample.stored = m.slots := by
  intro samples slots values s m
  have slot_numbers : ∀ s ∈ slots, s.value.isNaN = false := by decide
  have ascending : (slots.map value).Pairwise (· ≤ ·) := by decide
  have numbers : ∀ v ∈ values, v.isNaN = false := by decide
  have sorted : values.Pairwise fun v w => Binary64.totalLe v w = true := by decide
  have buffer : s.sortedBuffer = values := List.mergeSort_of_pairwise sorted
  have small : ∀ x ∈ samples, x.Small := by
    unfold Sample.Small
    decide
  obtain ⟨put_eq, -, counted, sketch⟩ := merge_in_place slot_numbers ascending numbers sorted 4
  exact ⟨slot_numbers, ascending, numbers, sorted, buffer, small, put_eq, by decide +kernel,
    counted (by decide), (sketch s buffer rfl).2.2.2 small rfl⟩

end Slot

end Telemetry
