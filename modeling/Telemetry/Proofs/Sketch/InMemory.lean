import Telemetry.Proofs.RawDouble
import Telemetry.Proofs.Sketch.Cursor
import Telemetry.Proofs.Sketch.InPlace

/-!
# Sketches in memory

In memory a sketch has doubles for all ranks, merges its buffer and condenses its samples where they
stand, and reads lists at indices that are computed (`InMemory`). Whatever the values and their
order are, the ranks of samples lie between zero and the number of merged values (`Ranked`), so as
long as that is less than `2 ^ 53` no rank is rounded. A use then finds every index in bounds and
leaves what the sketch that sorts in place comes to (`apply_inMemory`). So a whole run has an
outcome, which is stored as that sketch says, and every answer is the sketch's (`run_inMemory`).
-/

namespace Telemetry

open LawfulMeasure

variable {ν ρ : Type}

/-! ## Ranks within bounds -/

namespace Sample

/-- Samples that stand for `n` values, each for at least one, and put none beyond the last rank. -/
structure Ranked (n : ℕ) (samples : List (Sample ν)) : Prop where
  width_pos : ∀ s ∈ samples, 1 ≤ s.width
  total : totalWidth samples = n
  within : ∀ b ∈ brackets 0 samples, b.low ≤ b.high ∧ b.high ≤ n

variable {n : ℕ} {samples : List (Sample ν)}

theorem exists_bracket_of_mem (before : ℕ) {s : Sample ν} (hs : s ∈ samples) :
    ∃ b ∈ brackets before samples, s.width ≤ b.low ∧ b.high = b.low + s.delta := by
  induction samples generalizing before with
  | nil => cases hs
  | cons c rest ih =>
    rcases List.mem_cons.1 hs with rfl | hs
    · refine ⟨_, List.mem_cons_self, Nat.le_add_left _ _, ?_⟩
      dsimp only [span]
      omega
    · obtain ⟨b, hb, bounds⟩ := ih (before + c.width) hs
      exact ⟨b, List.mem_cons_of_mem _ hb, bounds⟩

/-- Of few values no sample is too wide or too uncertain. -/
theorem Ranked.small (h : Ranked n samples) (few : n < 2 ^ 53) : ∀ s ∈ samples, s.Small := by
  intro s hs
  obtain ⟨b, hb, width_le, high_eq⟩ := exists_bracket_of_mem 0 hs
  obtain ⟨low_le, high_le⟩ := h.within b hb
  exact ⟨h.width_pos s hs, by omega⟩

/-- Brackets within bounds are so after values were woven in, in whatever order. -/
theorem within_weave [Measure ν] {values : List ν} {atHead : Bool} {before : ℕ}
    (pos : ∀ s ∈ samples, 1 ≤ s.width) (le : before + totalWidth samples ≤ n)
    (within : ∀ b ∈ brackets before samples, b.low ≤ b.high ∧ b.high ≤ n) :
    ∀ b ∈ brackets before (weave atHead values samples),
      b.low ≤ b.high ∧ b.high ≤ n + values.length := by
  -- `m` bounds the outcome of the whole pass, and a value put in brings `n` nearer to it
  refine weave_rec (P := fun _ values samples out => ∀ before n m : ℕ, n + values.length ≤ m →
    (∀ s ∈ samples, 1 ≤ s.width) → before + totalWidth samples ≤ n →
      (∀ b ∈ brackets before samples, b.low ≤ b.high ∧ b.high ≤ n) →
        ∀ b ∈ brackets before out, b.low ≤ b.high ∧ b.high ≤ m)
    ?done ?last ?front ?pass before n _ le_rfl pos le within
  case done =>
    intro _ samples before n m room _ _ within b hb
    exact ⟨(within b hb).1, (within b hb).2.trans (Int.ofNat_le.2 room)⟩
  case last =>
    intro _ v values out ih before n m room pos le _
    rw [List.length_cons] at room
    rw [totalWidth_nil] at le
    have later := ih (before + 1) (n + 1) m (by omega) pos (by simpa using le) nofun
    rw [brackets_cons]
    refine List.forall_mem_cons.2 ⟨?_, later⟩
    simp only [exact, span]
    omega
  case front =>
    intro atHead v values s rest out _ ih before n m room pos le within
    have width := (List.forall_mem_cons.1 pos).1
    have at_s := within _ List.mem_cons_self
    dsimp only at at_s
    rw [List.length_cons] at room
    rw [totalWidth_cons] at le
    have shifted : ∀ b ∈ brackets (before + 1) (s :: rest), b.low ≤ b.high ∧ b.high ≤ n + 1 := by
      rw [brackets_add]
      refine List.forall_mem_map.2 fun b hb => ?_
      have := within b hb
      simp only [Bracket.shift]
      omega
    have later := ih (before + 1) (n + 1) m (by omega) pos (by rw [totalWidth_cons]; omega) shifted
    rw [brackets_cons]
    refine List.forall_mem_cons.2 ⟨?_, later⟩
    simp only [span] at at_s ⊢
    split_ifs <;> omega
  case pass =>
    intro _ v values s rest out _ ih before n m room pos le within
    rw [totalWidth_cons] at le
    have within := List.forall_mem_cons.1 within
    have later := ih (before + s.width) n m room (List.forall_mem_cons.1 pos).2 (by omega) within.2
    refine List.forall_mem_cons.2 ⟨⟨within.1.1, within.1.2.trans ?_⟩, later⟩
    omega

theorem ranked_nil : Ranked 0 ([] : List (Sample ν)) := ⟨nofun, rfl, nofun⟩

theorem Ranked.weave [Measure ν] (h : Ranked n samples) (values : List ν) :
    Ranked (n + values.length) (weave true values samples) where
  width_pos := width_pos_weave h.width_pos
  total := by rw [totalWidth_weave, h.total]
  within := by
    have le : 0 + totalWidth samples ≤ n := by rw [Nat.zero_add, h.total]
    exact_mod_cast within_weave h.width_pos le h.within

theorem Ranked.condense [Precision ρ] (h : Ranked n samples) (limit : ℤ → ρ) (merged : ℕ) :
    Ranked n (condense limit merged samples) where
  width_pos := width_pos_condense h.width_pos
  total := totalWidth_condense.trans h.total
  within b hb := h.within b ((brackets_condense_sublist limit merged samples).subset hb)

end Sample

/-! ## The sketch in memory -/

/-- Values that a double can weigh. -/
class Weighing (ν : Type) [Measure ν] where
  times : ν → Float → ν
  times_ofNat (v : ν) (n : ℕ) : times v (Float.ofNat n) = Measure.weighted v n

instance : Weighing Float where
  times v w := v * w
  times_ofNat _ _ := rfl

instance : Weighing RawDouble where
  times v w := .ofFloat (v.toFloat * w)
  times_ofNat _ _ := rfl

namespace Slot

/-- The value of the last slot before the first one whose greatest rank is above the threshold. The
ranks of the slots passed add up to `rank`, and `held` is the slot reached so far. -/
def walk [Precision ρ] (threshold rank : ρ) (held : Slot ν ρ ρ) : List (Slot ν ρ ρ) → ν
  | [] => held.value
  | s :: rest =>
    if threshold < rank + held.width + s.width + s.delta then held.value
    else walk threshold (rank + held.width) s rest

/-- The sum of the values of slots, each weighed with the width of its slot. -/
def weighedSum [Measure ν] [Weighing ν] (slots : List (Slot ν Float Float)) : ν :=
  slots.foldl (fun sum s => sum + Weighing.times s.value s.width) Measure.emptySum

end Slot

/-- A sketch as it is kept in memory, with doubles for all ranks. -/
structure InMemory (ν : Type) where
  targets : List (Target Float)
  buffer : Array ν
  isSorted : Bool
  slots : List (Slot ν Float Float)
  merged : Float
  count : ℕ
  sum : ν

namespace InMemory

variable [Measure ν]

def empty (targets : List (Target Float)) : InMemory ν :=
  ⟨targets, #[], true, [], Float.ofNat 0, 0, Measure.zero⟩

/-- Sorts the buffer unless it is known to be sorted. -/
def sortBuffer (m : InMemory ν) : InMemory ν :=
  if m.isSorted then m
  else { m with buffer := (m.buffer.toList.mergeSort Measure.sortLe).toArray, isSorted := true }

/-- The uncertainty that the targets allow at a rank of the merged values. -/
def limit (m : InMemory ν) (r : Float) : Float :=
  Precision.least (m.targets.map fun t => t.allowance m.merged r)

/-- Joins slots where they stand. There is no outcome if an index is out of bounds. -/
def condense (m : InMemory ν) : Option (InMemory ν) := do
  let slots ← Slot.condenseInPlace m.limit m.merged m.slots
  some { m with slots := slots }

/-- Merges the buffer where the slots stand, and condenses them. -/
def flush (m : InMemory ν) : Option (InMemory ν) :=
  if m.buffer.isEmpty then some m
  else
    let m := m.sortBuffer
    let merge := Merge.insertAll ⟨m.slots, 0, m.merged⟩ m.buffer.toList
    condense { m with slots := merge.slots, merged := merge.merged, buffer := #[] }

def insert (m : InMemory ν) (v : ν) : Option (InMemory ν) :=
  let m := { m with
    buffer := m.buffer.push v
    isSorted := false
    count := m.count + 1
    sum := m.sum + v }
  if Sketch.capacity ≤ m.buffer.size then m.flush else some m

/-- The greatest rank that a slot may have to answer for the quantile `φ`. -/
def threshold (m : InMemory ν) (φ : Float) : Float :=
  let rank := Precision.ceiling (φ * m.merged)
  rank + Precision.ceiling (m.limit rank / Precision.ofInt 2)

def quantile (m : InMemory ν) (φ : Float) : Option (ν × InMemory ν) :=
  if m.slots.isEmpty then
    if m.buffer.isEmpty then some (Measure.zero, m)
    else do
      let m := m.sortBuffer
      let i := Precision.truncate (Precision.ofInt m.buffer.size * φ)
      let v ← m.buffer[min (if 0 < i then i - 1 else i) (m.buffer.size - 1)]?
      some (v, m)
  else do
    let m ← m.flush
    let first ← m.slots[0]?
    some (Slot.walk (m.threshold φ) (Float.ofNat 0) first (m.slots.drop 1), m)

def toSlots (m : InMemory ν) : Option (List (Slot ν Float Float) × InMemory ν) :=
  if m.slots.isEmpty then
    let m := m.sortBuffer
    some (m.buffer.toList.map Slot.exact, m)
  else do
    let m ← m.flush
    let m ← m.condense
    some (m.slots, m)

/-- What a read of the memory returns. -/
inductive Reply (ν : Type) where
  | value (v : ν)
  | slots (slots : List (Slot ν Float Float))

variable [Weighing ν]

/-- What a read returns, with the memory after it. -/
def answer (m : InMemory ν) : Sketch.Read Float → Option (Reply ν × InMemory ν)
  | .quantile φ => (m.quantile φ).map fun (v, m) => (.value v, m)
  | .toSamples => m.toSlots.map fun (slots, m) => (.slots slots, m)
  | .sampledSum => m.toSlots.map fun (slots, m) => (.value (Slot.weighedSum slots), m)

/-- The memory after a use. -/
def apply (m : InMemory ν) : Sketch.Use ν Float → Option (InMemory ν)
  | .insert v => m.insert v
  | .quantile φ => (m.answer (.quantile φ)).map Prod.snd
  | .toSamples => (m.answer .toSamples).map Prod.snd
  | .sampledSum => (m.answer .sampledSum).map Prod.snd

/-- The memory after several uses in turn. -/
def run (m : InMemory ν) (uses : List (Sketch.Use ν Float)) : Option (InMemory ν) :=
  uses.foldlM apply m

end InMemory

/-- An answer with the samples as they are stored. -/
def Sketch.Answer.stored : Sketch.Answer ν → InMemory.Reply ν
  | .value v => .value v
  | .samples xs => .slots (xs.map Sample.stored)

namespace InPlace

/-- The sketch as it is kept in memory. -/
def inMemory (c : InPlace ν Float) : InMemory ν where
  targets := c.targets
  buffer := c.buffer
  isSorted := c.isSorted
  slots := c.summary.map Sample.stored
  merged := Float.ofNat c.merged
  count := c.count
  sum := c.sum

@[simp]
theorem inMemory_buffer (c : InPlace ν Float) : c.inMemory.buffer = c.buffer := rfl

@[simp]
theorem isEmpty_slots_inMemory (c : InPlace ν Float) :
    c.inMemory.slots.isEmpty = c.summary.isEmpty :=
  List.isEmpty_map

end InPlace

/-! ## One use -/

namespace Sample

/-- Ranks of few values are added without rounding, so the walk finds the sample that is sought. -/
theorem walk_stored {before n : ℕ} {held : Sample ν} {rest : List (Sample ν)} (threshold : Float)
    (few : n < 2 ^ 53)
    (within : ∀ b ∈ brackets before (held :: rest), b.low ≤ b.high ∧ b.high ≤ n) :
    Slot.walk threshold (Float.ofNat before) held.stored (rest.map stored) =
      seek threshold before held rest := by
  induction rest generalizing before held with
  | nil => rfl
  | cons s rest ih =>
    have later := (List.forall_mem_cons.1 within).2
    have at_s := later _ List.mem_cons_self
    simp only [span] at at_s
    have passed : Float.ofNat before + (held.stored : Slot ν Float Float).width =
        Float.ofNat (before + held.width) :=
      Binary64.ofInt_add_ofInt_of_natAbs_lt (a := before) (by omega) (by omega)
    have reached : Float.ofNat (before + held.width) + (s.stored : Slot ν Float Float).width +
        (s.stored : Slot ν Float Float).delta =
          Precision.ofInt ((before + held.width : ℕ) + s.span) := by
      change Float.ofInt (before + held.width : ℕ) + Float.ofInt s.width + Float.ofInt s.delta =
        Float.ofInt ((before + held.width : ℕ) + (s.width + s.delta))
      rw [Binary64.ofInt_add_ofInt_of_natAbs_lt (by omega) (by omega),
        Binary64.ofInt_add_ofInt_of_natAbs_lt (by omega) (by omega), Int.add_assoc]
    rw [List.map_cons, Slot.walk, seek, passed, reached, ih later]
    rfl

theorem weighedSum_stored [Measure ν] [Weighing ν] (samples : List (Sample ν)) :
    Slot.weighedSum (samples.map stored) = total samples := by
  rw [Slot.weighedSum, List.foldl_map, total]
  exact List.foldl_ext _ _ _ fun sum s _ => congrArg (sum + ·) (Weighing.times_ofNat _ _)

end Sample

namespace InPlace

variable [Measure ν] {c : InPlace ν Float}

/-- The ranks of the samples lie within bounds. -/
abbrev Ranked (c : InPlace ν ρ) : Prop := Sample.Ranked c.merged c.summary

theorem sortBuffer_inMemory (c : InPlace ν Float) :
    c.inMemory.sortBuffer = c.sortBuffer.inMemory := by
  unfold InMemory.sortBuffer sortBuffer
  split_ifs with known known' known'
  · rfl
  · exact absurd known known'
  · exact absurd known' known
  · rfl

omit [Measure ν] in
theorem condense_inMemory (ranked : c.Ranked) (few : c.merged < 2 ^ 53) :
    c.inMemory.condense = some (inMemory ⟨c.toSketch.condense, c.isSorted⟩) := by
  have deltas : ∀ x ∈ c.summary, x.delta.natAbs < 2 ^ 53 := fun x hx => by
    have := (ranked.small few x hx).2
    omega
  have joined : Slot.condenseInPlace c.inMemory.limit c.inMemory.merged c.inMemory.slots = _ :=
    c.toSketch.condenseInPlace_stored ranked.width_pos ranked.total few deltas
  rw [InMemory.condense, joined]
  rfl

/-- The sketch after the buffer was merged as it is, before samples are joined. -/
def weaveBuffer (c : InPlace ν ρ) : InPlace ν ρ where
  targets := c.targets
  buffer := #[]
  summary := Sample.weave true c.buffer.toList c.summary
  merged := c.merged + c.buffer.size
  count := c.count
  sum := c.sum
  isSorted := c.isSorted

theorem Ranked.weaveBuffer (ranked : c.Ranked) : c.weaveBuffer.Ranked :=
  ranked.weave c.buffer.toList

theorem Ranked.sortBuffer (ranked : c.Ranked) : c.sortBuffer.Ranked := by
  unfold InPlace.sortBuffer
  split_ifs <;> exact ranked

theorem size_sortBuffer (c : InPlace ν ρ) : c.sortBuffer.buffer.size = c.buffer.size := by
  unfold sortBuffer
  split_ifs
  · rfl
  · exact (Sketch.sortedBuffer_perm c.toSketch).length_eq

theorem merged_sortBuffer (c : InPlace ν ρ) : c.sortBuffer.merged = c.merged := by
  unfold sortBuffer
  split_ifs <;> rfl

/-- Merged where the slots stand, the buffer is woven in. -/
theorem insertAll_inMemory (ranked : c.Ranked) (few : c.merged + c.buffer.size < 2 ^ 53) :
    let merge := Merge.insertAll ⟨c.inMemory.slots, 0, c.inMemory.merged⟩ c.inMemory.buffer.toList
    merge.slots = c.weaveBuffer.inMemory.slots ∧ merge.merged = c.weaveBuffer.inMemory.merged := by
  intro merge
  have small := ranked.small ((Nat.le_add_right _ _).trans_lt few)
  refine ⟨Sample.slots_insertAll_stored c.buffer.toList small [] _, ?_⟩
  exact (Merge.merged_insertAll _ _).trans (Slot.foldl_add_one _ few.le)

/-- One flush: no index is out of bounds, and nothing is rounded. -/
theorem flush_inMemory (ranked : c.Ranked) (few : c.merged + c.buffer.size < 2 ^ 53) :
    c.inMemory.flush = some c.settle.inMemory := by
  unfold InMemory.flush settle
  rw [inMemory_buffer]
  split_ifs
  · rfl
  · have few_sorted : c.sortBuffer.merged + c.sortBuffer.buffer.size < 2 ^ 53 := by
      rwa [size_sortBuffer, merged_sortBuffer]
    obtain ⟨slots, merged⟩ := insertAll_inMemory ranked.sortBuffer few_sorted
    dsimp only
    rw [sortBuffer_inMemory, slots, merged]
    exact condense_inMemory ranked.sortBuffer.weaveBuffer few_sorted

theorem Ranked.settle (ranked : c.Ranked) : c.settle.Ranked := by
  unfold InPlace.settle
  split_ifs
  · exact ranked
  · exact ranked.sortBuffer.weaveBuffer.condense _ _

theorem merged_settle_le (c : InPlace ν Float) : c.settle.merged ≤ c.merged + c.buffer.size := by
  unfold settle
  split_ifs
  · exact Nat.le_add_right _ _
  · change c.sortBuffer.merged + c.sortBuffer.buffer.size ≤ _
    rw [size_sortBuffer, merged_sortBuffer]

theorem summary_settle_ne_nil (samples : c.summary ≠ []) : c.settle.summary ≠ [] := by
  have sorted : c.sortBuffer.summary = c.summary := by
    unfold sortBuffer
    split_ifs <;> rfl
  unfold settle
  split_ifs
  · exact samples
  · intro nil
    have woven := Sample.weave_eq_nil_iff.1 (Sample.condense_eq_nil_iff.1 nil)
    exact samples (sorted ▸ woven.1)

theorem insert_inMemory (v : ν) (ranked : c.Ranked)
    (few : c.merged + c.buffer.size + 1 < 2 ^ 53) :
    c.inMemory.insert v = some (c.insert v).inMemory := by
  have size : (c.buffer.push v).size = c.buffer.size + 1 := Array.size_push v
  have flushed := @flush_inMemory _ _ ⟨c.toSketch.push v, false⟩ ranked (size ▸ few)
  change (if Sketch.capacity ≤ (c.buffer.push v).size then
      (inMemory ⟨c.toSketch.push v, false⟩).flush else _) = some (inMemory
    (if Sketch.capacity ≤ (c.buffer.push v).size then _ else _))
  split_ifs
  · exact flushed
  · rfl

theorem quantile_inMemory (φ : Float) (ranked : c.Ranked)
    (few : c.merged + c.buffer.size < 2 ^ 53) :
    c.inMemory.quantile φ = some ((c.quantile φ).1, (c.quantile φ).2.inMemory) := by
  unfold InMemory.quantile quantile
  rw [isEmpty_slots_inMemory, inMemory_buffer]
  split_ifs with nil empty
  · rfl
  · have filled : c.sortBuffer.buffer.toList ≠ [] := fun no_values => by
      have size := size_sortBuffer c
      rw [← Array.length_toList, no_values] at size
      exact empty (Array.isEmpty_iff_size_eq_zero.2 size.symm)
    have index : ∀ i : ℕ, (if 0 < i then i - 1 else i) = i - 1 := fun i => by
      split_ifs <;> omega
    have answer := Sketch.getElem?_exactQuantile filled φ
    rw [Array.length_toList, Array.getElem?_toList] at answer
    rw [sortBuffer_inMemory]
    dsimp only
    rw [index, inMemory_buffer, answer, Option.bind_eq_bind, Option.bind_some]
  · have filled := summary_settle_ne_nil (mt List.isEmpty_iff.2 nil)
    have settled := ranked.settle
    have few_settled := (merged_settle_le c).trans_lt few
    rw [flush_inMemory ranked few]
    simp only [Option.bind_eq_bind, Option.bind_some]
    cases samples : c.settle.summary with
    | nil => exact absurd samples filled
    | cons first rest =>
      have walked := Sample.walk_stored (c.settle.threshold φ) few_settled (samples ▸ settled.within)
      have slots : c.settle.inMemory.slots = first.stored :: rest.map Sample.stored :=
        congrArg (List.map Sample.stored) samples
      rw [slots]
      exact congrArg (fun v => some (v, c.settle.inMemory)) walked

theorem toSlots_inMemory (ranked : c.Ranked) (few : c.merged + c.buffer.size < 2 ^ 53) :
    c.inMemory.toSlots =
      some (c.toSamples.1.map Sample.stored, c.toSamples.2.inMemory) := by
  unfold InMemory.toSlots toSamples
  rw [isEmpty_slots_inMemory]
  split_ifs
  · rw [sortBuffer_inMemory, List.map_map]
    rfl
  · rw [flush_inMemory ranked few]
    simp only [Option.bind_eq_bind, Option.bind_some]
    rw [condense_inMemory ranked.settle ((merged_settle_le c).trans_lt few)]
    rfl

variable [Weighing ν]

/-- A read of the memory. -/
theorem answer_inMemory (ranked : c.Ranked) (few : c.merged + c.buffer.size < 2 ^ 53)
    (r : Sketch.Read Float) :
    c.inMemory.answer r = some ((c.answer r).1.stored, (c.answer r).2.inMemory) := by
  cases r with
  | quantile φ =>
    rw [InMemory.answer, quantile_inMemory φ ranked few]
    rfl
  | toSamples =>
    rw [InMemory.answer, toSlots_inMemory ranked few]
    rfl
  | sampledSum =>
    rw [InMemory.answer, toSlots_inMemory ranked few]
    exact congrArg (fun v => some (InMemory.Reply.value v, c.toSamples.2.inMemory))
      (Sample.weighedSum_stored c.toSamples.1)

/-- A use of the memory finds every index in bounds, and leaves what the sketch comes to. -/
theorem apply_inMemory (ranked : c.Ranked) (u : Sketch.Use ν Float)
    (few : c.merged + c.buffer.size + (Sketch.inserted [u]).length < 2 ^ 53) :
    c.inMemory.apply u = some (c.apply u).inMemory := by
  have room := (Nat.le_add_right _ _).trans_lt few
  cases u with
  | insert v => exact insert_inMemory v ranked few
  | quantile φ => exact congrArg (Option.map Prod.snd) (answer_inMemory ranked room (.quantile φ))
  | toSamples => exact congrArg (Option.map Prod.snd) (answer_inMemory ranked room .toSamples)
  | sampledSum => exact congrArg (Option.map Prod.snd) (answer_inMemory ranked room .sampledSum)

end InPlace

/-! ## Runs -/

theorem Sketch.ranked_run [Measure ν] [Precision ρ] (targets : List (Target ρ))
    (uses : List (Use ν ρ)) :
    Sample.Ranked ((empty targets).run uses).merged ((empty targets).run uses).summary := by
  refine run_induction (P := fun _ (s : Sketch ν ρ) => Sample.Ranked s.merged s.summary)
    Sample.ranked_nil (fun _ _ _ h => h) (fun _ s _ h => ?_) (fun _ _ h => h.condense _ _) uses
  have woven := h.weave s.sortedBuffer
  rwa [(sortedBuffer_perm s).length_eq, Array.length_toList] at woven

namespace InMemory

variable [Measure ν] [LawfulMeasure ν] [SortsStrictly ν]

/-- The ranks of a sketch that sorts in place lie within bounds, and all values are counted. -/
theorem ranked_run (targets : List (Target Float)) (uses : List (Sketch.Use ν Float)) :
    let c : InPlace ν Float := (InPlace.empty targets).run uses
    c.Ranked ∧ c.merged + c.buffer.size = (Sketch.inserted uses).length := by
  intro c
  have refines : c.Refines _ := (InPlace.refines_empty targets).run uses
  have ranked := Sketch.ranked_run targets uses
  have all := (Sketch.holds_run targets uses).merged_add_size
  rw [← refines.alike.merged_eq, ← refines.alike.size_eq] at all
  rw [← refines.alike.merged_eq, ← refines.alike.summary_eq] at ranked
  exact ⟨ranked, all⟩

variable [Weighing ν] {uses : List (Sketch.Use ν Float)}

/-- A run that inserts fewer than `2 ^ 53` values finds every index in bounds. -/
theorem run_eq_some (targets : List (Target Float))
    (few : (Sketch.inserted uses).length < 2 ^ 53) :
    (empty targets).run uses = some ((InPlace.empty targets).run uses).inMemory := by
  induction uses using List.reverseRecOn with
  | nil => rfl
  | append_singleton uses u ih =>
    rw [Sketch.inserted_append, List.length_append] at few
    obtain ⟨ranked, all⟩ := ranked_run targets uses
    have before : uses.foldlM apply (empty targets) = _ := ih ((Nat.le_add_right _ _).trans_lt few)
    have next : (InPlace.empty targets).run (uses ++ [u]) =
        ((InPlace.empty targets).run uses).apply u := List.foldl_append
    rw [run, List.foldlM_append, before, next]
    exact (bind_pure _).trans (InPlace.apply_inMemory ranked u (all ▸ few))

/-- Whatever the targets and the values are, and whatever is read in between, a run that inserts
fewer than `2 ^ 53` values finds every index in bounds. Its slots are the samples of the sketch,
stored as doubles without rounding, its counters and its sum are those of the sketch, and its buffer
has the same values, in order whenever it is noted as sorted. Every read returns what the sketch
answers. -/
theorem run_inMemory (targets : List (Target Float))
    (few : (Sketch.inserted uses).length < 2 ^ 53) :
    let s : Sketch ν Float := (Sketch.empty targets).run uses
    ∃ m : InMemory ν, (empty targets).run uses = some m ∧
      m.slots = s.summary.map Sample.stored ∧
      m.merged = Float.ofNat s.merged ∧ m.count = s.count ∧ m.sum = s.sum ∧
      m.buffer.toList.Perm s.buffer.toList ∧
      (m.isSorted = true → m.buffer.toList.Pairwise fun v w => Measure.sortLe v w = true) ∧
      ∀ r : Sketch.Read Float, (m.answer r).map Prod.fst = some (r.answer s).1.stored := by
  intro s
  have refines : ((InPlace.empty targets).run uses).Refines s :=
    (InPlace.refines_empty targets).run uses
  obtain ⟨ranked, all⟩ := ranked_run targets uses
  refine ⟨_, run_eq_some targets few, ?_, ?_, refines.count_eq, refines.sum_eq,
    refines.alike.buffer_perm, refines.sorted, fun r => ?_⟩
  · exact congrArg (List.map Sample.stored) refines.alike.summary_eq
  · exact congrArg Float.ofNat refines.alike.merged_eq
  · rw [InPlace.answer_inMemory ranked (all ▸ few), (refines.answer r).1]
    rfl

end InMemory

end Telemetry
