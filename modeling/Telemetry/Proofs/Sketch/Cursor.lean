import Mathlib.Data.Nat.PSub
import Telemetry.Proofs.Sketch.Conservation
import Telemetry.Proofs.Sketch.Greedy

/-!
# Condensing in place

Slots can be joined in the list where they stand. An index runs through the list from the right, a
second one marks the slot that takes in its left neighbours, a copy of which is held, and the rank
is counted down in doubles (`Cursor.step`). The list shrinks meanwhile, and any access could be out
of bounds. None is: the two indices meet after each step, the copy agrees with the list, and widths
and ranks are not rounded (`Cursor.reached`). So the outcome is that of the pass which counts the
values before each slot (`Cursor.sweep_reached`), for any deltas and any limits
(`condense_in_place`).
-/

namespace Telemetry

variable {ν ρ : Type}

/-! ## The loop -/

/-- The slots of a pass in place, the index of the slot that takes in others, a copy of that slot,
and the rank below the slots that were passed. -/
structure Cursor (ν ρ : Type) where
  slots : List (Slot ν ρ ρ)
  index : ℕ
  held : Slot ν ρ ρ
  rank : ρ

namespace Cursor

section Lists

variable {α : Type}

/-- Overwrites an entry of a list. -/
def write? (xs : List α) (i : ℕ) (a : α) : Option (List α) :=
  if i < xs.length then some (xs.set i a) else none

/-- Removes an entry from a list. -/
def remove? (xs : List α) (i : ℕ) : Option (List α) :=
  if i < xs.length then some (xs.eraseIdx i) else none

theorem write?_append (front : List α) (a b : α) (back : List α) :
    write? (front ++ a :: back) front.length b = some (front ++ b :: back) := by
  rw [write?, if_pos (by simp), List.set_append_right _ _ le_rfl, Nat.sub_self, List.set_cons_zero]

theorem remove?_append (front : List α) (a : α) (back : List α) :
    remove? (front ++ a :: back) front.length = some (front ++ back) := by
  rw [remove?, if_pos (by simp), List.eraseIdx_append_of_length_le le_rfl, Nat.sub_self,
    List.eraseIdx_cons_zero]

end Lists

variable [Precision ρ]

/-- Goes on to the slot at `i`, which is taken in or held from now on. -/
def step (limit : ρ → ρ) (i : ℕ) (c : Cursor ν ρ) : Option (Cursor ν ρ) := do
  let current ← c.slots[i]?
  let rank := c.rank - current.width
  if current.width + c.held.width + c.held.delta ≤ limit c.rank then
    let held := { c.held with width := c.held.width + current.width }
    let written ← write? c.slots c.index held
    let slots ← remove? written i
    let index ← c.index.ppred
    some ⟨slots, index, held, rank⟩
  else some ⟨c.slots, i, current, rank⟩

/-- Goes on to each slot to the left, but for the first one. -/
def sweep (limit : ρ → ρ) : ℕ → Cursor ν ρ → Option (Cursor ν ρ)
  | i + 2, c => (c.step limit (i + 1)).bind (sweep limit (i + 1))
  | _, c => some c

end Cursor

namespace Slot

variable [Precision ρ]

/-- Joins slots in place. There is no outcome if an index is out of bounds. -/
def condenseInPlace (limit : ρ → ρ) (merged : ρ) (slots : List (Slot ν ρ ρ)) :
    Option (List (Slot ν ρ ρ)) :=
  if slots.length < 3 then some slots
  else do
    let last := slots.length - 1
    let held ← slots[last]?
    let c ← Cursor.sweep limit last ⟨slots, last, held, merged - Precision.ofInt 1 - held.width⟩
    some c.slots

/-- A slot with its width in the arithmetic of ranks. -/
def store (s : Slot ν ℕ ρ) : Slot ν ρ ρ := ⟨s.value, Precision.ofInt s.width, s.delta⟩

/-- Whether two slots stay together within the limit at a rank, in the arithmetic of ranks. -/
def within (limit : ρ → ρ) (rank : ℤ) (c x : Slot ν ℕ ρ) : Bool :=
  decide (c.store.width + x.store.width + x.delta ≤ limit (Precision.ofInt rank))

end Slot

/-! ## One step -/

namespace Cursor

section Step

variable [Precision ρ] {limit : ρ → ρ} {c x : Slot ν ρ ρ} {rank : ρ}

/-- A slot that fits is taken in by its right neighbour, which is still held. -/
theorem step_of_le (front back : List (Slot ν ρ ρ))
    (h : c.width + x.width + x.delta ≤ limit rank) :
    step limit front.length ⟨front ++ c :: x :: back, front.length + 1, x, rank⟩ =
      some ⟨front ++ { x with width := x.width + c.width } :: back, front.length,
        { x with width := x.width + c.width }, rank - c.width⟩ := by
  have current : (front ++ c :: x :: back)[front.length]? = some c := by simp
  have written : write? (front ++ c :: x :: back) (front.length + 1)
      { x with width := x.width + c.width } =
        some (front ++ c :: { x with width := x.width + c.width } :: back) := by
    simpa using write?_append (front ++ [c]) x { x with width := x.width + c.width } back
  have removed := remove?_append front c ({ x with width := x.width + c.width } :: back)
  simp only [step, current, written, removed, if_pos h, Option.bind_eq_bind, Option.bind_some,
    Nat.ppred]

/-- A slot that does not fit is held instead. -/
theorem step_of_not_le (front back : List (Slot ν ρ ρ))
    (h : ¬c.width + x.width + x.delta ≤ limit rank) :
    step limit front.length ⟨front ++ c :: x :: back, front.length + 1, x, rank⟩ =
      some ⟨front ++ c :: x :: back, front.length, c, rank - c.width⟩ := by
  have current : (front ++ c :: x :: back)[front.length]? = some c := by simp
  simp only [step, current, if_neg h, Option.bind_eq_bind, Option.bind_some]

end Step

/-! ## All steps -/

section Sweep

open Slot

variable {c x first : Slot ν ℕ Float} {mid rest kept : List (Slot ν ℕ Float)}

/-- The cursor when the slots of `front` are still to come, and `x :: kept` is what was kept of the
others. -/
def reached (front : List (Slot ν ℕ Float)) (x : Slot ν ℕ Float) (kept : List (Slot ν ℕ Float)) :
    Cursor ν Float where
  slots := front.map store ++ x.store :: kept.map store
  index := front.length
  held := x.store
  rank := Precision.ofInt ((total front : ℕ) - 1)

theorem length_map_store (slots : List (Slot ν ℕ Float)) :
    (slots.map (store (ρ := Float))).length = slots.length :=
  List.length_map _

/-- One step joins the next slot to those kept so far. -/
theorem step_reached (limit : Float → Float) (front kept : List (Slot ν ℕ Float))
    (pos : 1 ≤ c.width) (few : total front + c.width + x.width < 2 ^ 53) :
    ∃ y ys, join (within limit) ((total front + c.width : ℕ) - 1) c (x :: kept) = y :: ys ∧
      (reached (front ++ [c]) x kept).step limit front.length = some (reached front y ys) := by
  have rank : Precision.ofInt ((total front + c.width : ℕ) - 1) - c.store.width =
      Precision.ofInt ((total front : ℕ) - 1) := by
    refine (Binary64.ofInt_sub_ofNat (by omega) pos (by omega)).trans (congrArg Float.ofInt ?_)
    omega
  have sum : x.store.width + c.store.width = (widen c.width x).store.width :=
    Binary64.ofInt_add_ofInt_of_natAbs_lt (by omega) (by omega)
  have start : reached (front ++ [c]) x kept =
      ⟨front.map store ++ c.store :: x.store :: kept.map store, (front.map store).length + 1,
        x.store, Precision.ofInt ((total front + c.width : ℕ) - 1)⟩ := by
    rw [reached, total_append, List.map_append, List.append_assoc, List.length_append,
      length_map_store]
    rfl
  rw [start, ← length_map_store front, join]
  split_ifs with fits
  · refine ⟨_, _, rfl, ?_⟩
    rw [step_of_le _ _ (of_decide_eq_true fits), rank, sum, length_map_store]
    rfl
  · refine ⟨_, _, rfl, ?_⟩
    rw [step_of_not_le _ _ (mt decide_eq_true fits), rank, length_map_store]
    rfl

/-- The steps down to the second slot join what is left of it as the pass does. -/
theorem sweep_reached {limit : Float → Float} (pos : ∀ c ∈ mid, 1 ≤ c.width)
    (few : total (first :: mid ++ rest) < 2 ^ 53)
    (h : groups (within limit) (total (first :: mid)) rest = x :: kept) :
    ∃ y ys, groups (within limit) first.width (mid ++ rest) = y :: ys ∧
      sweep limit (mid.length + 1) (reached (first :: mid) x kept) =
        some (reached [first] y ys) := by
  -- the last slot of `mid` is the next to be looked at, and goes over to `rest`
  induction mid using List.reverseRecOn generalizing rest x kept with
  | nil => exact ⟨x, kept, h, rfl⟩
  | append_singleton mid c ih =>
    have pos := List.forall_mem_append.1 pos
    have regroup : first :: (mid ++ [c]) ++ rest = first :: mid ++ c :: rest := by simp
    have before : total (first :: (mid ++ [c])) = total (first :: mid) + c.width :=
      total_append (first :: mid) [c]
    rw [before] at h
    rw [regroup] at few
    have total_kept : x.width + total kept = total rest :=
      (congrArg total h).symm.trans (total_groups ..)
    have bound : total (first :: mid) + (c.width + total rest) < 2 ^ 53 :=
      (total_append (first :: mid) (c :: rest)) ▸ few
    obtain ⟨y, ys, joined, stepped⟩ := step_reached limit (first :: mid) kept
      (pos.2 c (List.mem_singleton.2 rfl)) (x := x) (by omega)
    have grouped : groups (within limit) (total (first :: mid)) (c :: rest) = y :: ys := by
      rw [groups, h, joined]
    obtain ⟨z, zs, outcome, swept⟩ := ih pos.1 few grouped
    refine ⟨z, zs, ?_, ?_⟩
    · rwa [List.append_assoc]
    · rw [List.length_append]
      change (step limit (first :: mid).length (reached (first :: mid ++ [c]) x kept)).bind _ = _
      rw [stepped]
      exact swept

end Sweep

end Cursor

/-! ## The outcome -/

namespace Slot

section Outcome

variable (limit : Float → Float)

/-- Of three slots and more, the loop starts at the last one. -/
theorem condenseInPlace_eq_sweep (first x : Slot ν ℕ Float) {mid : List (Slot ν ℕ Float)}
    (many : mid ≠ []) (pos : 1 ≤ x.width) (few : total (first :: mid ++ [x]) < 2 ^ 53) :
    condenseInPlace limit (Float.ofNat (total (first :: mid ++ [x])))
        ((first :: mid ++ [x]).map store) =
      (Cursor.sweep limit (mid.length + 1) (.reached (first :: mid) x [])).map Cursor.slots := by
  have length : ((first :: mid ++ [x]).map (store (ρ := Float))).length = mid.length + 2 := by simp
  have long : ¬mid.length + 2 < 3 := by
    have := List.length_pos_iff.2 many
    omega
  have last : ((first :: mid ++ [x]).map (store (ρ := Float)))[mid.length + 1]? = some x.store := by
    simp
  have rank : Float.ofNat (total (first :: mid ++ [x])) - Precision.ofInt 1 - x.store.width =
      Precision.ofInt ((total (first :: mid) : ℕ) - 1) := by
    have total_eq : total (first :: mid ++ [x]) = total (first :: mid) + x.width :=
      total_append (first :: mid) [x]
    have pred : Float.ofNat (total (first :: mid ++ [x])) - Precision.ofInt 1 =
        Float.ofInt ((total (first :: mid ++ [x]) : ℕ) - (1 : ℕ)) :=
      Binary64.ofInt_sub_ofNat (a := (total (first :: mid ++ [x]) : ℕ)) (n := 1) few Nat.one_pos
        (by decide)
    rw [pred]
    refine (Binary64.ofInt_sub_ofNat (by omega) pos (by omega)).trans (congrArg Float.ofInt ?_)
    omega
  have start : (first :: mid ++ [x]).map (store (ρ := Float)) =
      (first :: mid).map store ++ [x.store] := List.map_append
  rw [condenseInPlace, length, if_neg long]
  simp only [Nat.add_one_sub_one, last, Option.bind_eq_bind, Option.bind_some, rank]
  rw [start]
  exact Option.map_eq_bind.symm

/-- Joined in place, slots become what the pass makes of them. -/
theorem condenseInPlace_eq {slots : List (Slot ν ℕ Float)} (pos : ∀ s ∈ slots, 1 ≤ s.width)
    (few : total slots < 2 ^ 53) :
    condenseInPlace limit (Float.ofNat (total slots)) (slots.map store) =
      some ((greedy (within limit) slots).map store) := by
  cases slots with
  | nil => rfl
  | cons first rest =>
    rcases rest.eq_nil_or_concat' with rfl | ⟨mid, x, rfl⟩
    · rfl
    by_cases many : mid = []
    · rw [many]
      rfl
    have pos := List.forall_mem_append.1 (List.forall_mem_cons.1 pos).2
    have alone : groups (within limit) (total (first :: mid)) [x] = [x] := rfl
    obtain ⟨y, ys, kept, swept⟩ := Cursor.sweep_reached pos.1 few alone
    rw [← List.cons_append,
      condenseInPlace_eq_sweep limit first x many (pos.2 x (List.mem_singleton.2 rfl)) few, swept,
      List.cons_append, greedy, kept]
    rfl

variable {limit}

/-- Of slots that stand for few values together, a wider one does not fit any better. -/
theorem within_of_within_widen {rank : ℤ} {c x : Slot ν ℕ Float} {w : ℕ}
    (few : c.width + w + x.width < 2 ^ 53) (h : within limit rank (widen w c) x = true) :
    within limit rank c x = true := by
  have sum : ∀ k : ℕ, k + x.width < 2 ^ 53 →
      Float.ofInt k + Float.ofInt x.width = Float.ofInt (k + x.width) := fun k hk =>
    Binary64.ofInt_add_ofInt_of_natAbs_lt (by omega) (by omega)
  have wide : Float.ofInt (c.width + w : ℕ) + Float.ofInt x.width + x.delta ≤
      limit (Precision.ofInt rank) := of_decide_eq_true h
  refine decide_eq_true ?_
  change Float.ofInt c.width + Float.ofInt x.width + x.delta ≤ limit (Precision.ofInt rank)
  rw [sum _ (by omega)] at wide ⊢
  exact Binary64.ofInt_add_le_of_le (by omega) (by omega) (by omega) wide

end Outcome

/-! ## Deltas as doubles -/

section Rounded

/-- A slot with its delta in the arithmetic of ranks. -/
def rounded [Precision ρ] (s : Slot ν ℕ ℤ) : Slot ν ℕ ρ :=
  ⟨s.value, s.width, Precision.ofInt s.delta⟩

variable (limit : Float → Float)

theorem within_rounded (rank : ℤ) {c x : Slot ν ℕ ℤ} (few : c.width + x.width < 2 ^ 53)
    (small : x.delta.natAbs < 2 ^ 53) :
    within limit rank c.rounded x.rounded = withinWhole (limit ∘ Precision.ofInt) rank c x := by
  have sum : Float.ofInt c.width + Float.ofInt x.width + Float.ofInt x.delta =
      Float.ofInt (c.width + (x.width + x.delta)) := by
    rw [Binary64.ofInt_add_ofInt_of_natAbs_lt (by omega) (by omega),
      Binary64.ofInt_add_ofInt_of_natAbs_lt (by omega) small, Int.add_assoc]
  exact decide_eq_decide.2 (iff_of_eq (congrArg (· ≤ limit (Precision.ofInt rank)) sum))

/-- Small deltas are compared alike as integers and as doubles. -/
theorem groups_rounded (before : ℕ) {slots : List (Slot ν ℕ ℤ)} (few : total slots < 2 ^ 53)
    (small : ∀ s ∈ slots, s.delta.natAbs < 2 ^ 53) :
    groups (within limit) before (slots.map rounded) =
      (groups (withinWhole (limit ∘ Precision.ofInt)) before slots).map rounded := by
  induction slots generalizing before with
  | nil => rfl
  | cons c rest ih =>
    have small := (List.forall_mem_cons.1 small).2
    rw [total] at few
    have total_kept :=
      total_groups (withinWhole (limit ∘ Precision.ofInt)) (before + c.width) rest
    have labels := sublist_groups (withinWhole (limit ∘ Precision.ofInt)) (before + c.width) rest
    rw [List.map_cons, groups, groups]
    change join _ _ _ (groups _ (before + c.width) _) = _
    rw [ih _ (by omega) small]
    cases eq : groups (withinWhole (limit ∘ Precision.ofInt)) (before + c.width) rest with
    | nil => rfl
    | cons x kept =>
      rw [eq] at total_kept labels
      have few_x : c.width + x.width < 2 ^ 53 := by
        rw [total] at total_kept
        omega
      have small_x : x.delta.natAbs < 2 ^ 53 := by
        obtain ⟨s, hs, same⟩ := List.mem_map.1 (labels.subset List.mem_cons_self)
        rw [← (Prod.mk.inj same).2]
        exact small s hs
      rw [List.map_cons, join, join, ← within_rounded limit _ few_x small_x]
      change (if within limit ((before + c.width : ℕ) - 1) c.rounded x.rounded = true then _
        else _) = _
      split_ifs <;> rfl

theorem greedy_rounded {slots : List (Slot ν ℕ ℤ)} (few : total slots < 2 ^ 53)
    (small : ∀ s ∈ slots, s.delta.natAbs < 2 ^ 53) :
    greedy (within limit) (slots.map rounded) =
      (greedy (withinWhole (limit ∘ Precision.ofInt)) slots).map rounded := by
  cases slots with
  | nil => rfl
  | cons s rest =>
    rw [total] at few
    have kept := groups_rounded limit s.width (by omega) (List.forall_mem_cons.1 small).2
    exact congrArg (s.rounded :: ·) kept

end Rounded

end Slot

/-! ## Condensing -/

namespace Sample

open Slot (rounded store)

theorem total_map_rounded (samples : List (Sample ν)) :
    Slot.total (samples.map fun x => (x.slot.rounded : Slot ν ℕ Float)) = totalWidth samples := by
  induction samples with
  | nil => rfl
  | cons s rest ih => rw [List.map_cons, Slot.total, ih, totalWidth, slot, rounded]

theorem map_rounded_slot (samples : List (Sample ν)) :
    (samples.map slot).map (rounded (ρ := Float)) = samples.map fun x => x.slot.rounded := by
  rw [List.map_map]
  rfl

theorem map_store_rounded (samples : List (Sample ν)) :
    (samples.map fun x => x.slot.rounded).map (store (ρ := Float)) = samples.map stored := by
  rw [List.map_map]
  rfl

end Sample

namespace Sketch

open Slot (condenseInPlace condenseInPlace_eq greedy_rounded)

/-- The samples of a sketch can be condensed in place if their deltas are small. -/
theorem condenseInPlace_stored (s : Sketch ν Float) (pos : ∀ x ∈ s.summary, 1 ≤ x.width)
    (weighed : Sample.totalWidth s.summary = s.merged) (few : s.merged < 2 ^ 53)
    (small : ∀ x ∈ s.summary, x.delta.natAbs < 2 ^ 53) :
    condenseInPlace s.limit (Float.ofNat s.merged) (s.summary.map Sample.stored) =
      some (s.condense.summary.map Sample.stored) := by
  have total_slot := (Sample.total_map_slot s.summary).trans weighed
  have total_rounded := (Sample.total_map_rounded s.summary).trans weighed
  have pass := greedy_rounded s.limit (total_slot ▸ few) (List.forall_mem_map.2 small)
  have in_place := condenseInPlace_eq s.limit (List.forall_mem_map.2 pos) (total_rounded ▸ few)
  rw [← (condense_eq_greedy s weighed).1, Sample.map_rounded_slot, Sample.map_rounded_slot] at pass
  rw [total_rounded, Sample.map_store_rounded, pass, Sample.map_store_rounded] at in_place
  exact in_place

end Sketch

namespace Slot

/-- Slots with positive widths that add up to less than `2 ^ 53` can be condensed in place, with any
deltas and for any targets: no index is out of bounds, the outcome is that of the pass, and it is
joined as far as possible. A sketch condenses its samples by that pass with integers for deltas, and
as far as possible, too. If the deltas are small, this is what becomes of its samples in place. -/
theorem condense_in_place (targets : List (Target Float)) {slots : List (Slot ν ℕ Float)}
    (pos : ∀ s ∈ slots, 1 ≤ s.width) (few : total slots < 2 ^ 53) :
    let limit := tolerance targets (total slots)
    condenseInPlace limit (Float.ofNat (total slots)) (slots.map store) =
        some ((greedy (within limit) slots).map store) ∧
      Joined (within limit) slots (greedy (within limit) slots) ∧
      ∀ s : Sketch ν Float, s.targets = targets → s.merged = total slots →
        s.summary.map (fun x => x.slot.rounded) = slots →
        let fits := withinWhole (limit ∘ Precision.ofInt)
        s.condense.summary.map Sample.slot = greedy fits (s.summary.map Sample.slot) ∧
          Joined fits (s.summary.map Sample.slot) (s.condense.summary.map Sample.slot) ∧
          ((∀ x ∈ s.summary, x.delta.natAbs < 2 ^ 53) →
            condenseInPlace limit (Float.ofNat s.merged) (s.summary.map Sample.stored) =
              some (s.condense.summary.map Sample.stored)) := by
  intro limit
  refine ⟨condenseInPlace_eq limit pos few, joined_greedy fun _ _ _ _ bound =>
    within_of_within_widen (bound.trans_lt few), fun s same_targets merged same => ?_⟩
  have weighed : Sample.totalWidth s.summary = s.merged := by
    rw [merged, ← same, Sample.total_map_rounded]
  have limit_eq : limit = s.limit := by
    funext r
    rw [Sketch.limit, same_targets, merged]
  obtain ⟨condensed, joined⟩ := s.condense_eq_greedy weighed
  rw [limit_eq]
  refine ⟨condensed, joined, fun small => ?_⟩
  subst same
  exact s.condenseInPlace_stored (fun x hx => pos _ (List.mem_map_of_mem hx)) weighed
    (merged ▸ few) small

theorem condense_in_place_threeKept :
    let samples : List (Sample Float) :=
      [⟨1, 1, 0⟩, ⟨2, 1, 0⟩, ⟨3, 1, 2⟩, ⟨4, 1, 0⟩, ⟨5, 1, 7⟩, ⟨6, 1, 1⟩]
    let slots : List (Slot Float ℕ Float) := samples.map fun x => x.slot.rounded
    let s : Sketch Float Float := ⟨[⟨0.5, 0.2⟩], #[], samples, 6, 6, 21⟩
    let limit := tolerance s.targets (total slots)
    (∀ s ∈ slots, 1 ≤ s.width) ∧ total slots < 2 ^ 53 ∧
      condenseInPlace limit (Float.ofNat 6) (slots.map store) =
        some [⟨1, 1, 0⟩, ⟨4, 3, 0⟩, ⟨6, 2, 1⟩] ∧
      Joined (within limit) slots (greedy (within limit) slots) ∧
      condenseInPlace limit (Float.ofNat 6) (samples.map Sample.stored) =
        some (s.condense.summary.map Sample.stored) := by
  intro samples slots s limit
  have pos : ∀ s ∈ slots, 1 ≤ s.width := by decide
  have few : total slots < 2 ^ 53 := by decide
  have pass : (greedy (within limit) slots).map store = [⟨1, 1, 0⟩, ⟨4, 3, 0⟩, ⟨6, 2, 1⟩] := by
    decide +kernel
  obtain ⟨in_place, joined, sketch⟩ := condense_in_place s.targets pos few
  exact ⟨pos, few, in_place.trans (congrArg some pass), joined,
    (sketch s rfl rfl rfl).2.2 (by decide)⟩

end Slot

end Telemetry
