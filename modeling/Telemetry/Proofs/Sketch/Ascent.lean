import Telemetry.Proofs.Sketch.Batch

/-!
# Values in ascending order

Ascending values go to the end of the samples, and their ranks are known. Which of them stay depends
on how many there are and not on what they are: the ranks that stay are the `marks`. A mark that
goes never comes back (`mem_marks_of_le`), and one stays only where its right neighbour could not
absorb it (`tolerance_lt_of_mem_marks`).
-/

namespace Telemetry

open LawfulMeasure

variable {ν ρ : Type}

/-- The bracket of a value that is its own rank. -/
def Bracket.exact (m : ℕ) : Bracket ℕ := ⟨m, m, m⟩

namespace Sample

/-! ## Values of known rank -/

theorem brackets_exact (before k : ℕ) :
    brackets before ((List.range' (before + 1) k).map exact) =
      (List.range' (before + 1) k).map Bracket.exact := by
  induction k generalizing before with
  | zero => rfl
  | succ k ih =>
    rw [List.range'_succ, List.map_cons, List.map_cons, brackets_cons]
    refine congrArg₂ List.cons ?_ (ih (before + 1))
    simp [Bracket.exact, exact, span]

/-! ## Samples that stay -/

section Kept

/-- The bracket `x` is too wide to take over what `b` covers, wherever `b` began. -/
def TooWide (limit : ℤ → ℚ) (starts : List ℕ) (b x : Bracket ν) : Prop :=
  ∀ a ∈ starts, a < b.low → limit (b.low - 1) < (x.high - a : ℤ)

theorem TooWide.cons {limit : ℤ → ℚ} {starts : List ℕ} {b x : Bracket ν} {a a' : ℕ}
    (h : TooWide limit (a' :: starts) b x) (le : a ≤ a') (lt : a' < b.low) :
    TooWide limit (a :: a' :: starts) b x := by
  refine List.forall_mem_cons.2 ⟨fun _ => ?_, h⟩
  refine (h a' List.mem_cons_self lt).trans_le (Int.cast_le.2 ?_)
  omega

variable {limit : ℤ → ℚ} {m : ℤ} {before merged : ℕ} {samples : List (Sample ν)}

/-- Where the brackets of samples begin. -/
def starts (before : ℕ) (samples : List (Sample ν)) : List ℕ :=
  before :: (brackets before samples).map Bracket.low

theorem tooWide_of_not_fits {c x : Sample ν} (pos : ∀ s ∈ samples, 1 ≤ s.width)
    (total : m = (before + totalWidth (c :: samples) : ℕ) - 1)
    (fits : ¬Fits limit (m - totalWidth samples) c x) :
    TooWide limit (starts before (c :: samples)) ⟨c.value, before + c.width, before + c.span⟩
      ⟨x.value, before + c.width + x.width, (before + c.width : ℕ) + x.span⟩ := by
  intro a ha lt
  -- the other starts are not before the end of `c`
  have start : a = before := by
    rw [starts, brackets_cons] at ha
    rcases List.mem_cons.1 ha with rfl | ha
    · rfl
    · rcases List.mem_cons.1 ha with rfl | ha
      · exact absurd lt (lt_irrefl _)
      · obtain ⟨b, hb, rfl⟩ := List.mem_map.1 ha
        exact absurd lt (before_lt_low pos hb).not_gt
  have rank : ((before + c.width : ℕ) : ℤ) - 1 = m - totalWidth samples := by
    rw [total, totalWidth_cons]
    omega
  have width : ((before + c.width : ℕ) : ℤ) + x.span - before = c.width + x.span := by
    rw [Nat.cast_add]
    omega
  rw [start]
  change limit (((before + c.width : ℕ) : ℤ) - 1) <
    ((((before + c.width : ℕ) : ℤ) + x.span - before : ℤ) : ℚ)
  rw [rank, width]
  exact not_le.1 fits

/-- A sample that stays was too wide for its right neighbour. -/
theorem isChain_tooWide_kept (limit : ℤ → ℚ) (pos : ∀ s ∈ samples, 1 ≤ s.width)
    (total : m = (before + totalWidth samples : ℕ) - 1) :
    (brackets before (samples.foldr (Folding.take limit) ⟨m, []⟩).kept).IsChain
      (TooWide limit (starts before samples)) := by
  suffices h : (∀ s ∈ samples, 1 ≤ s.width) →
      (∀ s ∈ (samples.foldr (Folding.take limit) ⟨m, []⟩).kept, 1 ≤ s.width) ∧
        ∀ before : ℕ, m = (before + totalWidth samples : ℕ) - 1 →
          (brackets before (samples.foldr (Folding.take limit) ⟨m, []⟩).kept).IsChain
            (TooWide limit (starts before samples)) from (h pos).2 before total
  refine kept_induction (P := fun samples kept => (∀ s ∈ samples, 1 ≤ s.width) →
    (∀ s ∈ kept, 1 ≤ s.width) ∧ ∀ before : ℕ, m = (before + totalWidth samples : ℕ) - 1 →
      (brackets before kept).IsChain (TooWide limit (starts before samples))) ?_ ?_ ?_ ?_
  · exact fun _ => ⟨by simp, fun _ _ => List.isChain_nil⟩
  · intro c samples _ pos
    exact ⟨by simpa using (List.forall_mem_cons.1 pos).1, fun _ _ => List.isChain_singleton _⟩
  · intro c samples x kept ih _ pos
    have pos := List.forall_mem_cons.1 pos
    obtain ⟨pos_kept, chain⟩ := ih pos.2
    refine ⟨List.forall_mem_cons.2 ?_, fun before total => ?_⟩
    · have pos_kept := List.forall_mem_cons.1 pos_kept
      exact ⟨Nat.le_add_right_of_le pos_kept.1, pos_kept.2⟩
    · rw [brackets_absorb]
      refine (chain _ (by rw [total, totalWidth_cons, Nat.add_assoc])).imp_of_mem_imp ?_
      exact fun b x hb _ h => h.cons (Nat.le_add_right _ _) (before_lt_low pos_kept hb)
  · intro c samples x kept ih fits pos
    have pos := List.forall_mem_cons.1 pos
    obtain ⟨pos_kept, chain⟩ := ih pos.2
    refine ⟨List.forall_mem_cons.2 ⟨pos.1, pos_kept⟩, fun before total => ?_⟩
    have rest := (chain _ (by rw [total, totalWidth_cons, Nat.add_assoc])).imp_of_mem_imp
      fun b x hb _ h => h.cons (Nat.le_add_right before _) (before_lt_low pos_kept hb)
    rw [brackets_cons]
    rw [brackets_cons] at rest ⊢
    exact List.isChain_cons_cons.2 ⟨tooWide_of_not_fits pos.2 total fits, rest⟩

variable {b x : Bracket ν} {pre post : List (Bracket ν)}

theorem limit_lt_of_condense (pos : ∀ s ∈ samples, 1 ≤ s.width)
    (total : totalWidth samples = merged)
    (split : brackets 0 (condense limit merged samples) = pre ++ b :: x :: post) (hpre : pre ≠ [])
    {a : Bracket ν} (ha : a ∈ brackets 0 samples) (lt : a.low < b.low) :
    limit (b.low - 1) < (x.high - a.low : ℤ) := by
  cases samples with
  | nil => cases ha
  | cons s rest =>
    have pos := List.forall_mem_cons.1 pos
    obtain ⟨p, pre, rfl⟩ := List.exists_cons_of_ne_nil hpre
    rw [condense, brackets_cons, List.cons_append] at split
    have merged_eq : (merged : ℤ) - 1 = (0 + s.width + totalWidth rest : ℕ) - 1 := by
      rw [← total, totalWidth_cons, Nat.zero_add]
    have chain := isChain_tooWide_kept limit pos.2 merged_eq
    rw [(List.cons.inj split).2] at chain
    refine (List.isChain_append_cons_cons.1 chain).2.1 a.low ?_ lt
    rw [brackets_cons] at ha
    rcases List.mem_cons.1 ha with rfl | ha
    · exact List.mem_cons_self
    · exact List.mem_cons_of_mem _ (List.mem_map_of_mem ha)

end Kept

end Sample

/-! ## Marks -/

namespace Sketch

open Sample

section Marks

variable [Precision ρ]

/-- The samples of the ranks after `n` that a full batch fills. -/
def ranks (n : ℕ) : List (Sample ℕ) := (List.range' (n + 1) capacity).map Sample.exact

theorem brackets_ranks (n : ℕ) :
    brackets n (ranks n) = (List.range' (n + 1) capacity).map Bracket.exact :=
  brackets_exact n capacity

theorem width_pos_ranks (n : ℕ) : ∀ s ∈ ranks n, 1 ≤ s.width := by
  intro s hs
  obtain ⟨v, -, rfl⟩ := List.mem_map.1 hs
  exact le_rfl

/-- The samples after full batches of ascending values, where each value is its own rank. -/
def ladder (targets : List (Target ρ)) : ℕ → List (Sample ℕ)
  | 0 => []
  | k + 1 =>
    Sample.condense (fun r => tolerance targets (capacity * (k + 1)) (Precision.ofInt r))
      (capacity * (k + 1)) (ladder targets k ++ ranks (capacity * k))

theorem head?_ladder (targets : List (Target ρ)) (k : ℕ) :
    (ladder targets (k + 1)).head? = some (Sample.exact 1) := by
  induction k with
  | zero =>
    rw [ladder, head?_condense]
    rfl
  | succ k ih => rw [ladder, head?_condense, List.head?_append, ih, Option.some_or]

/-- The ranks that stay. -/
def marks (targets : List (Target ρ)) (k : ℕ) : List ℕ := (ladder targets k).map Sample.value

variable (targets : List (Target ρ)) {k l m m' : ℕ}

theorem totalWidth_ladder (k : ℕ) : totalWidth (ladder targets k) = capacity * k := by
  induction k with
  | zero => rfl
  | succ k ih =>
    rw [ladder, totalWidth_condense, totalWidth_append, ih, ranks, totalWidth_exact,
      List.length_range']
    rfl

theorem totalWidth_ladder_append (k : ℕ) :
    totalWidth (ladder targets k ++ ranks (capacity * k)) = capacity * (k + 1) := by
  rw [← totalWidth_ladder targets (k + 1), ladder, totalWidth_condense]

theorem width_pos_ladder (k : ℕ) : ∀ s ∈ ladder targets k, 1 ≤ s.width := by
  induction k with
  | zero => simp [ladder]
  | succ k ih => exact width_pos_condense (List.forall_mem_append.2 ⟨ih, width_pos_ranks _⟩)

variable {targets}

theorem marks_succ (h : brackets 0 (ladder targets k) = (marks targets k).map Bracket.exact) :
    brackets 0 (ladder targets (k + 1)) = (marks targets (k + 1)).map Bracket.exact ∧
      (marks targets (k + 1)).Sublist
        (marks targets k ++ List.range' (capacity * k + 1) capacity) := by
  have sublist := brackets_condense_sublist
    (fun r => tolerance targets (capacity * (k + 1)) (Precision.ofInt r)) (capacity * (k + 1))
    (ladder targets k ++ ranks (capacity * k))
  rw [brackets_append, h, totalWidth_ladder, Nat.zero_add, brackets_ranks,
    ← List.map_append] at sublist
  obtain ⟨stay, hs, eq⟩ := List.sublist_map_iff.1 sublist
  have marks_eq : marks targets (k + 1) = stay := by
    rw [marks, ← map_value_brackets 0, ladder, eq, List.map_map]
    exact List.map_id stay
  rw [marks_eq]
  exact ⟨eq, hs⟩

variable (targets)

/-- Every mark's rank is known. -/
theorem brackets_ladder (k : ℕ) :
    brackets 0 (ladder targets k) = (marks targets k).map Bracket.exact := by
  induction k with
  | zero => rfl
  | succ k ih => exact (marks_succ ih).1

theorem marks_sublist (k : ℕ) : (marks targets (k + 1)).Sublist
    (marks targets k ++ List.range' (capacity * k + 1) capacity) :=
  (marks_succ (brackets_ladder targets k)).2

theorem marks_sublist_range (k : ℕ) :
    (marks targets k).Sublist (List.range' 1 (capacity * k)) := by
  induction k with
  | zero => exact List.Sublist.refl _
  | succ k ih =>
    rw [Nat.mul_succ, ← List.range'_append_1, Nat.add_comm 1]
    exact (marks_sublist targets k).trans (ih.append (List.Sublist.refl _))

variable {targets}

/-- A mark that goes never comes back. -/
theorem mem_marks_of_le (kl : k ≤ l) (hm : m ∈ marks targets l) (le : m ≤ capacity * k) :
    m ∈ marks targets k := by
  induction l, kl using Nat.le_induction with
  | base => exact hm
  | succ l kl ih =>
    refine ih ?_
    rcases List.mem_append.1 ((marks_sublist targets l).subset hm) with hm | hm
    · exact hm
    · have later := (List.mem_range'_1.1 hm).1
      have := Nat.mul_le_mul_left capacity kl
      omega

theorem marks_pairwise (targets : List (Target ρ)) (k : ℕ) : (marks targets k).Pairwise (· < ·) :=
  List.Pairwise.sublist (marks_sublist_range targets k) List.pairwise_lt_range'

theorem exact_mem_brackets (hm : m ∈ marks targets k) :
    Bracket.exact m ∈ brackets 0 (ladder targets k) := by
  rw [brackets_ladder]
  exact List.mem_map_of_mem hm

/-- The greatest rank is the last mark. -/
theorem eq_of_marks_eq_concat {pre : List ℕ} (split : marks targets k = pre ++ [m]) :
    m = capacity * k := by
  have last : brackets 0 (ladder targets k) = pre.map Bracket.exact ++ [Bracket.exact m] := by
    rw [brackets_ladder, split, List.map_append, List.map_singleton]
  have low := low_of_brackets_eq_concat last
  rwa [Nat.zero_add, totalWidth_ladder] at low

end Marks

/-- A mark other than the last stays only if the distance from any mark below it to the greatest
rank is more than what the targets allow. -/
theorem tolerance_lt_of_mem_marks {targets : List (Target ℚ)} {k m m' : ℕ}
    (hm : m ∈ marks targets (k + 1)) (hm' : m' ∈ marks targets (k + 1)) (lt : m < m')
    (top : m' < capacity * (k + 1)) :
    tolerance targets (capacity * (k + 1)) ((m' : ℚ) - 1) < capacity * (k + 1) - m := by
  obtain ⟨pre, post, split⟩ := List.append_of_mem hm'
  have ascending := marks_pairwise targets (k + 1)
  rw [split] at ascending hm
  have before : m ∈ pre := by
    rcases List.mem_append.1 hm with before | behind
    · exact before
    · rcases List.mem_cons.1 behind with rfl | behind
      · exact absurd lt (lt_irrefl _)
      · have after := (List.pairwise_cons.1 (List.pairwise_append.1 ascending).2.1).1 m behind
        exact absurd lt after.not_gt
  cases post with
  | nil => exact absurd (eq_of_marks_eq_concat split) top.ne
  | cons x post =>
    have x_le : x ≤ capacity * (k + 1) := by
      have hx : x ∈ marks targets (k + 1) := by simp [split]
      have := (List.mem_range'_1.1 ((marks_sublist_range targets (k + 1)).subset hx)).2
      omega
    have marks_eq := brackets_ladder targets (k + 1)
    rw [split, List.map_append, List.map_cons, List.map_cons] at marks_eq
    have start : Bracket.exact m ∈ brackets 0 (ladder targets (k + 1)) :=
      exact_mem_brackets (split ▸ hm)
    have pos := List.forall_mem_append.2
      ⟨width_pos_ladder targets k, width_pos_ranks (capacity * k)⟩
    have far := limit_lt_of_condense pos (totalWidth_ladder_append targets k)
      marks_eq (by simpa using List.ne_nil_of_mem before)
      ((brackets_condense_sublist _ _ _).subset start) lt
    have far : tolerance targets (capacity * (k + 1)) (((m' : ℤ) - 1 : ℤ) : ℚ) <
        ((x : ℤ) - m : ℤ) := far
    have x_le : (x : ℚ) ≤ capacity * (k + 1) := by exact_mod_cast x_le
    push_cast at far
    linarith

/-! ## Runs -/

section Runs

variable [Measure ν] [Precision ρ] {targets : List (Target ρ)} {f : ℕ → ν}

/-- The values of the ranks up to `n`. -/
def ascent (f : ℕ → ν) (n : ℕ) : List ν := (List.range' 1 n).map f

omit [Measure ν] [Precision ρ] in
theorem length_ascent (f : ℕ → ν) (n : ℕ) : (ascent f n).length = n := by
  rw [ascent, List.length_map, List.length_range']

/-- Greater ranks have values that sort behind and are not less. -/
structure Climbs (f : ℕ → ν) : Prop where
  sortLe {i j : ℕ} : i ≤ j → Measure.sortLe (f i) (f j) = true
  not_lt {i j : ℕ} : i ≤ j → ¬f j < f i

theorem mergeBatch_ladder (climbs : Climbs f) (k : ℕ) :
    mergeBatch targets (capacity * k, (ladder targets k).map (Sample.map f))
        ((List.range' (capacity * k + 1) capacity).map f) =
      (capacity * (k + 1), (ladder targets (k + 1)).map (Sample.map f)) := by
  have in_order : sorted ((List.range' (capacity * k + 1) capacity).map f) =
      (List.range' (capacity * k + 1) capacity).map f :=
    sorted_map (List.pairwise_le_range'.imp climbs.sortLe)
  have appended : Sample.weave true ((List.range' (capacity * k + 1) capacity).map f)
      ((ladder targets k).map (Sample.map f)) =
        (ladder targets k ++ ranks (capacity * k)).map (Sample.map f) := by
    rw [weave_eq_append, List.map_append, ranks, List.map_map, List.map_map]
    · rfl
    · intro s hs v hv
      obtain ⟨t, ht, rfl⟩ := List.mem_map.1 hs
      obtain ⟨j, hj, rfl⟩ := List.mem_map.1 hv
      have early := (List.mem_range'_1.1
        ((marks_sublist_range targets k).subset (List.mem_map_of_mem ht))).2
      have late := (List.mem_range'_1.1 hj).1
      exact climbs.not_lt (by omega)
  rw [mergeBatch]
  dsimp only
  rw [in_order, appended, condense_map, List.length_map, List.length_range']
  rfl

theorem at_ascent (targets : List (Target ρ)) (climbs : Climbs f) (k : ℕ) :
    At targets (capacity * k, (ladder targets k).map (Sample.map f)) []
      ((empty targets).insertAll (ascent f (capacity * k))) := by
  induction k with
  | zero => exact ⟨rfl, rfl, rfl⟩
  | succ k ih =>
    have full : ((List.range' (capacity * k + 1) capacity).map f).length = capacity := by
      rw [List.length_map, List.length_range']
    have batch := ih.insertAll_full full
    rw [mergeBatch_ladder climbs k] at batch
    rw [Nat.mul_succ, ascent, ← List.range'_append_1, List.map_append, Nat.add_comm 1, insertAll,
      List.foldl_append]
    exact batch

end Runs

/-- The mark that answers for a quantile: the greatest that the threshold allows. -/
structure Answers (targets : List (Target ℚ)) (φ : ℚ) (k m : ℕ) : Prop where
  mem : m ∈ marks targets k
  le : (m : ℤ) ≤ max 1 (exactThreshold targets (capacity * k) φ)
  next {m' : ℕ} : m' ∈ marks targets k → m < m' → exactThreshold targets (capacity * k) φ < m'

theorem answers_of_find {targets : List (Target ℚ)} {φ : ℚ} {k m : ℕ}
    (found : find targets φ (capacity * (k + 1), ladder targets (k + 1)) = some m) :
    Answers targets φ (k + 1) m := by
  obtain ⟨pre, b, post, split, rfl, reach, next⟩ := find_split found
  rw [brackets_ladder] at split
  obtain ⟨before, from_m, marks_eq, rfl, from_eq⟩ := List.map_eq_append_iff.1 split
  obtain ⟨m, after, rfl, rfl, rfl⟩ := List.map_eq_cons_iff.1 from_eq
  change Answers targets φ (k + 1) m
  refine ⟨by simp [marks_eq], ?_, fun {m'} hm' lt => ?_⟩
  · rcases reach with nothing | reach
    · -- the first mark is the least rank
      have head := congrArg (Option.map Sample.value) (head?_ladder targets k)
      rw [← List.head?_map, ← marks, marks_eq, List.map_eq_nil_iff.1 nothing] at head
      obtain rfl := Option.some.inj head
      exact le_max_left _ _
    · exact le_max_of_le_right reach
  · have ascending := marks_pairwise targets (k + 1)
    rw [marks_eq] at ascending hm'
    have ascending := List.pairwise_append.1 ascending
    rcases List.mem_append.1 hm' with early | late
    · exact absurd lt (ascending.2.2 m' early m List.mem_cons_self).not_gt
    · rcases List.mem_cons.1 late with rfl | late
      · exact absurd lt (lt_irrefl _)
      · cases after with
        | nil => cases late
        | cons x after =>
          have above : exactThreshold targets (capacity * (k + 1)) φ < (x : ℤ) :=
            next (Bracket.exact x) rfl
          rcases List.mem_cons.1 late with rfl | late
          · exact above
          · have := (List.pairwise_cons.1 (List.pairwise_cons.1 ascending.2.1).2).1 m' late
            omega

theorem exists_answers [Measure ν] {f : ℕ → ν} (climbs : Climbs f) (targets : List (Target ℚ))
    (φ : ℚ) (k : ℕ) :
    ∃ m, Answers targets φ (k + 1) m ∧
      (((empty targets).insertAll (ascent f (capacity * (k + 1)))).quantile φ).1 = f m := by
  have state := at_ascent targets climbs (k + 1)
  have samples : ((empty targets).insertAll (ascent f (capacity * (k + 1)))).summary ≠ [] := by
    refine summary_insertAll_ne_nil targets ?_
    rw [length_ascent]
    exact Nat.le_mul_of_pos_right _ k.succ_pos
  have found := state.settle_nil.find_eq (φ := φ) samples
  rw [find_map] at found
  obtain ⟨m, found, answer⟩ := Option.map_eq_some_iff.1 found
  exact ⟨m, answers_of_find found, answer.symm⟩

end Sketch

end Telemetry
