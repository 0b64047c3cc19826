import Telemetry.Proofs.Measure
import Telemetry.Sketch.Sample

/-!
# Weaving values one by one

`weave` puts ascending values into a list of samples in one pass. The same list comes about when
they are put in one at a time (`weave_cons`), so that whatever a single value keeps is kept by the
pass (`weave_induction`). Values and samples in any order are passed one after the other
(`weave_rec`).
-/

namespace Telemetry.Sample

open LawfulMeasure

variable {ν : Type}

theorem inFrontOf_cons (s : Sample ν) (atHead : Bool) (v : ν) (values : List ν) :
    inFrontOf s atHead (v :: values) =
      ⟨v, 1, if atHead then 0 else s.span - 1⟩ :: inFrontOf s false values := by
  simp [inFrontOf, List.mapIdx_cons]

theorem inFrontOf_false (s : Sample ν) (values : List ν) :
    inFrontOf s false values = values.map fun v => ⟨v, 1, s.span - 1⟩ := by
  induction values with
  | nil => rfl
  | cons v values ih =>
    rw [inFrontOf_cons, ih]
    rfl

/-- A value in front of a sample takes over its span, if the first of all samples spans one rank. -/
theorem span_inFront {pre rest : List (Sample ν)} {s : Sample ν}
    (head : ∀ t ∈ (pre ++ s :: rest).head?, t.width = 1 ∧ t.delta = 0) (v : ν) :
    span ⟨v, 1, if pre.isEmpty then 0 else s.span - 1⟩ = s.span := by
  cases pre with
  | nil =>
    obtain ⟨width, delta⟩ := head s rfl
    simp [span, width, delta]
  | cons p pre => simp [span]

variable [Measure ν]

/-! ## One value -/

/-- Puts one value into a list of samples, in front of the first greater one or to the end. -/
def weaveOne (atHead : Bool) (v : ν) : List (Sample ν) → List (Sample ν)
  | [] => [exact v]
  | s :: rest =>
    if v < s.value then ⟨v, 1, if atHead then 0 else s.span - 1⟩ :: s :: rest
    else s :: weaveOne false v rest

/-- Where one value goes: behind samples that are not greater, and in front of one that is, if
there is one. Only at the head of the list is its rank known then. -/
theorem weaveOne_split (atHead : Bool) (v : ν) (xs : List (Sample ν)) :
    (∀ s ∈ xs, ¬v < s.value) ∧ weaveOne atHead v xs = xs ++ [exact v] ∨
      ∃ pre s rest, xs = pre ++ s :: rest ∧ (∀ p ∈ pre, ¬v < p.value) ∧ v < s.value ∧
        weaveOne atHead v xs =
          pre ++ ⟨v, 1, if atHead && pre.isEmpty then 0 else s.span - 1⟩ :: s :: rest := by
  induction xs generalizing atHead with
  | nil => exact .inl ⟨by simp, rfl⟩
  | cons s rest ih =>
    by_cases h : v < s.value
    · refine .inr ⟨[], s, rest, rfl, by simp, h, ?_⟩
      simp [weaveOne, h]
    · rw [weaveOne, if_neg h]
      rcases ih false with ⟨not_less, eq⟩ | ⟨pre, t, rest', rfl, not_less, less, eq⟩
      · exact .inl ⟨List.forall_mem_cons.2 ⟨h, not_less⟩, by rw [eq, List.cons_append]⟩
      · refine .inr ⟨s :: pre, t, rest', rfl, List.forall_mem_cons.2 ⟨h, not_less⟩, less, ?_⟩
        simp [eq]

/-! ## Several values -/

variable {samples : List (Sample ν)} {values : List ν} {v : ν} {atHead : Bool}

theorem weave_nil : weave atHead ([] : List ν) samples = samples := by
  induction samples generalizing atHead with
  | nil => rfl
  | cons s rest ih => rw [weave, List.takeWhile_nil, List.dropWhile_nil, ih]; rfl

section Passing

variable {s : Sample ν} {rest : List (Sample ν)}

/-- A value goes in front of the next sample if that is greater. -/
theorem weave_cons_of_lt (h : v < s.value) : weave atHead (v :: values) (s :: rest) =
    ⟨v, 1, if atHead then 0 else s.span - 1⟩ :: weave false values (s :: rest) := by
  rw [weave, List.takeWhile_cons_of_pos (p := fun w => decide (w < s.value)) (decide_eq_true h),
    List.dropWhile_cons_of_pos (p := fun w => decide (w < s.value)) (decide_eq_true h),
    inFrontOf_cons]
  rfl

/-- A sample that is not greater than the next value is passed. -/
theorem weave_cons_of_not_lt (h : ¬v < s.value) :
    weave atHead (v :: values) (s :: rest) = s :: weave false (v :: values) rest := by
  have stop : ¬decide (v < s.value) = true := mt of_decide_eq_true h
  rw [weave, List.takeWhile_cons_of_neg (p := fun w => decide (w < s.value)) stop,
    List.dropWhile_cons_of_neg (p := fun w => decide (w < s.value)) stop]
  rfl

/-- What a pass keeps whenever it puts in a value or passes a sample, whatever the order of either
is, holds of its outcome. -/
theorem weave_rec {P : Bool → List ν → List (Sample ν) → List (Sample ν) → Prop}
    (done : ∀ atHead samples, P atHead [] samples samples)
    (last : ∀ atHead v values out, P false values [] out →
      P atHead (v :: values) [] (exact v :: out))
    (front : ∀ atHead v values s rest out, v < s.value → P false values (s :: rest) out →
      P atHead (v :: values) (s :: rest) (⟨v, 1, if atHead then 0 else s.span - 1⟩ :: out))
    (pass : ∀ atHead v values s rest out, ¬v < s.value → P false (v :: values) rest out →
      P atHead (v :: values) (s :: rest) (s :: out)) :
    P atHead values samples (weave atHead values samples) := by
  induction samples generalizing values atHead with
  | nil =>
    induction values generalizing atHead with
    | nil => exact done atHead []
    | cons v values ih => exact last atHead v values _ ih
  | cons s rest ih =>
    induction values generalizing atHead with
    | nil =>
      rw [weave_nil]
      exact done atHead _
    | cons v values ih_values =>
      by_cases h : v < s.value
      · rw [weave_cons_of_lt h]
        exact front atHead v values s rest _ h ih_values
      · rw [weave_cons_of_not_lt h]
        exact pass atHead v values s rest _ h ih

/-- Nothing is lost or made up. -/
theorem map_value_weave_perm :
    ((weave atHead values samples).map value).Perm (values ++ samples.map value) := by
  refine weave_rec (P := fun _ values samples out =>
    (out.map value).Perm (values ++ samples.map value)) ?done ?last ?front ?pass
  case done => exact fun _ _ => .refl _
  case last => exact fun _ v _ _ ih => ih.cons v
  case front => exact fun _ v _ _ _ _ _ ih => ih.cons v
  case pass => exact fun _ v values s _ _ _ ih => (ih.cons s.value).trans List.perm_middle.symm

end Passing

theorem weave_eq_nil_iff : weave atHead values samples = [] ↔ samples = [] ∧ values = [] := by
  cases samples with
  | nil => simp [weave]
  | cons s rest => simp [weave]

theorem takeWhile_lt_eq_nil (not_less : ∀ w ∈ values, ¬w < v) :
    values.takeWhile (· < v) = [] ∧ values.dropWhile (· < v) = values := by
  cases values with
  | nil => exact ⟨rfl, rfl⟩
  | cons w values =>
    have h : ¬decide (w < v) = true := fun h => not_less w List.mem_cons_self (of_decide_eq_true h)
    exact ⟨List.takeWhile_cons_of_neg h, List.dropWhile_cons_of_neg h⟩

/-- Values that are not less than any sample of the first part go into the second. -/
theorem weave_append {pre : List (Sample ν)} (h : ∀ s ∈ pre, ∀ v ∈ values, ¬v < s.value) :
    weave atHead values (pre ++ samples) =
      pre ++ weave (atHead && pre.isEmpty) values samples := by
  induction pre generalizing atHead with
  | nil => simp
  | cons s pre ih =>
    have h := List.forall_mem_cons.1 h
    obtain ⟨none, all⟩ := takeWhile_lt_eq_nil h.1
    rw [List.cons_append, weave, none, all, ih h.2, List.isEmpty_cons, Bool.and_false]
    rfl

/-- Values that are not less than any sample's go to the end. -/
theorem weave_eq_append (h : ∀ s ∈ samples, ∀ v ∈ values, ¬v < s.value) :
    weave atHead values samples = samples ++ values.map exact := by
  have appended : weave atHead values (samples ++ []) = _ := weave_append h
  rwa [List.append_nil] at appended

variable [LawfulMeasure ν]

/-- The least of several values can be woven in first. -/
theorem weave_cons (hv : IsNumber v) (numbers : ∀ w ∈ values, IsNumber w)
    (least : ∀ w ∈ values, place v ≤ place w) (hs : ∀ s ∈ samples, IsNumber s.value) :
    weave atHead (v :: values) samples = weave atHead values (weaveOne atHead v samples) := by
  have stop : values.takeWhile (· < v) = [] ∧ values.dropWhile (· < v) = values :=
    takeWhile_lt_eq_nil fun w hw => (not_lt_iff_place_le (numbers w hw) hv).2 (least w hw)
  induction samples generalizing atHead with
  | nil =>
    rw [weaveOne, weave, weave, exact, stop.1, stop.2]
    rfl
  | cons s rest ih =>
    have hs := List.forall_mem_cons.1 hs
    by_cases less : v < s.value
    · rw [weaveOne, if_pos less, weave_cons_of_lt less, weave, weave, weave, stop.1, stop.2]
      rfl
    · have not_less : ∀ w ∈ v :: values, ¬w < s.value := by
        have le := (not_lt_iff_place_le hv hs.1).1 less
        refine List.forall_mem_cons.2 ⟨less, fun w hw => ?_⟩
        exact (not_lt_iff_place_le (numbers w hw) hs.1).2 (le.trans (least w hw))
      have stop_s := takeWhile_lt_eq_nil not_less
      have stop_s' := takeWhile_lt_eq_nil (List.forall_mem_cons.1 not_less).2
      rw [weaveOne, if_neg less, weave, weave, stop_s.1, stop_s.2, stop_s'.1, stop_s'.2, ih hs.2]

theorem isNumber_weaveOne (hv : IsNumber v) (hs : ∀ s ∈ samples, IsNumber s.value) :
    ∀ s ∈ weaveOne atHead v samples, IsNumber s.value := by
  rcases weaveOne_split atHead v samples with ⟨-, eq⟩ | ⟨pre, s, rest, rfl, -, -, eq⟩
  · rw [eq]
    exact List.forall_mem_append.2 ⟨hs, by simpa [exact] using hv⟩
  · rw [eq]
    have hs := List.forall_mem_append.1 hs
    exact List.forall_mem_append.2 ⟨hs.1, List.forall_mem_cons.2 ⟨hv, hs.2⟩⟩

/-- What each single value keeps is kept by a pass over several, in ascending order. -/
theorem weave_induction {P : List ν → List (Sample ν) → Prop} {merged : List ν}
    (step : ∀ v merged samples, IsNumber v → (∀ s ∈ samples, IsNumber s.value) →
      P merged samples → P (v :: merged) (weaveOne atHead v samples))
    (numbers : ∀ w ∈ values, IsNumber w) (ascending : values.Pairwise fun v w => place v ≤ place w)
    (hs : ∀ s ∈ samples, IsNumber s.value) (h : P merged samples) :
    P (values.reverse ++ merged) (weave atHead values samples) := by
  induction values generalizing merged samples with
  | nil => rwa [weave_nil]
  | cons v values ih =>
    have numbers := List.forall_mem_cons.1 numbers
    have ascending := List.pairwise_cons.1 ascending
    rw [weave_cons numbers.1 numbers.2 ascending.1 hs, List.reverse_cons, List.append_assoc]
    exact ih numbers.2 ascending.2 (isNumber_weaveOne numbers.1 hs) (step v _ _ numbers.1 hs h)

end Telemetry.Sample
