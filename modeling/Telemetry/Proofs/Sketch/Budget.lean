import Telemetry.Proofs.Sketch.Soundness
import Telemetry.Proofs.Sketch.Tolerance

/-!
# How wide brackets get

Samples are joined only as far as the targets allow at a rank between the two. Later values move
the ranks and change what is allowed, but with exact arithmetic never to less. So in every summary
each bracket after the first is one rank wide, or no wider than what the targets allow now at some
rank that it reaches (`narrow_run`). A bracket's width is taken from the `low` of the one before.
-/

namespace Telemetry

open LawfulMeasure

variable {ν : Type}

/-- The bracket `b`, right after `p`, is one rank wide or within what `f` allows at a rank that it
reaches. -/
structure Bracket.Narrow (f : ℤ → ℚ) (p b : Bracket ν) : Prop where
  low_lt : p.low < b.low
  low_le_high : (b.low : ℤ) ≤ b.high
  within : b.high - p.low ≤ 1 ∨
    ∃ r : ℤ, p.low ≤ r ∧ r ≤ b.high ∧ ((b.high - p.low : ℤ) : ℚ) ≤ f r

namespace Bracket

variable {f g : ℤ → ℚ} {p b c : Bracket ν}

theorem Narrow.mono (h : Narrow f p b) (hf : ∀ r, f r ≤ g r) : Narrow g p b where
  low_lt := h.low_lt
  low_le_high := h.low_le_high
  within := by
    refine h.within.imp_right ?_
    rintro ⟨r, low, high, le⟩
    exact ⟨r, low, high, le.trans (hf r)⟩

/-- A bracket that takes over the greatest rank of its right neighbour. -/
theorem Narrow.inFront (h : Narrow f p b) (hf : ∀ r, f r ≤ g r) (v : ν) :
    Narrow g p ⟨v, p.low + 1, b.high⟩ where
  low_lt := Nat.lt_succ_self _
  low_le_high := by
    have := h.low_lt
    have := h.low_le_high
    change ((p.low + 1 : ℕ) : ℤ) ≤ b.high
    omega
  within := (h.mono hf).within

/-- A bracket keeps its width when a value comes in between. -/
theorem Narrow.behind (h : Narrow f p b) (hf : ∀ r, f r ≤ g (r + 1)) (hc : c.low = p.low + 1) :
    Narrow g c (b.shift 1) where
  low_lt := by
    have := h.low_lt
    change c.low < b.low + 1
    omega
  low_le_high := by
    have := h.low_le_high
    change ((b.low + 1 : ℕ) : ℤ) ≤ b.high + 1
    omega
  within := by
    have width : (b.shift 1).high - c.low = b.high - p.low := by
      change b.high + 1 - c.low = _
      omega
    rw [width]
    refine h.within.imp_right ?_
    rintro ⟨r, low, high, le⟩
    refine ⟨r + 1, by omega, ?_, le.trans (hf r)⟩
    exact Int.add_le_add_right high 1

theorem Narrow.shift (h : Narrow f p b) (hf : ∀ r, f r ≤ g (r + 1)) :
    Narrow g (p.shift 1) (b.shift 1) :=
  h.behind hf rfl

/-- Joining two neighbours within what is allowed right below the end of the left one. -/
theorem Narrow.join {x : Bracket ν} (hc : Narrow f p c) (hx : Narrow f c x)
    (fits : ((x.high - p.low : ℤ) : ℚ) ≤ f (c.low - 1)) : Narrow f p x where
  low_lt := hc.low_lt.trans hx.low_lt
  low_le_high := hx.low_le_high
  within := by
    have := hc.low_lt
    have := hx.low_lt
    have := hx.low_le_high
    exact .inr ⟨c.low - 1, by omega, by omega, fits⟩

end Bracket

namespace Sample

variable {samples : List (Sample ν)} {f g : ℤ → ℚ}

theorem isChain_narrow_condense {m : ℕ} (h : (brackets 0 samples).IsChain (Bracket.Narrow f))
    (total : totalWidth samples = m) :
    (brackets 0 (condense f m samples)).IsChain (Bracket.Narrow f) :=
  isChain_condense (fun _ _ _ fits hc hx => hc.join hx fits) total h

variable [Measure ν] {v : ν}

/-- A chain of narrow brackets stays one when a value is woven in, if nothing is allowed less. -/
theorem isChain_narrow_weaveOne (h : (brackets 0 samples).IsChain (Bracket.Narrow f))
    (head : ∀ s ∈ samples.head?, s.width = 1 ∧ s.delta = 0) (above : ∀ r, f r ≤ g r)
    (below : ∀ r, f r ≤ g (r + 1)) :
    (brackets 0 (weaveOne true v samples)).IsChain (Bracket.Narrow g) := by
  rcases weaveOne_split true v samples with ⟨-, eq⟩ | ⟨pre, s, rest, rfl, -, -, eq⟩
  · rw [eq, brackets_append]
    refine List.isChain_append.2 ⟨h.imp fun _ _ hb => hb.mono above, List.isChain_singleton _, ?_⟩
    intro p hp b hb
    obtain rfl := Option.some.inj hb
    have low := low_of_mem_getLast? hp
    refine ⟨?_, ?_, .inl ?_⟩ <;> simp [low, exact, span]
  · rw [brackets_append] at h
    obtain ⟨h_pre, h_rest, h_last⟩ := List.isChain_append.1 h
    rw [Nat.zero_add] at h_rest h_last
    rw [eq, Bool.true_and, brackets_append, brackets_cons, span_inFront head, Nat.zero_add,
      brackets_add]
    refine List.isChain_append.2
      ⟨h_pre.imp fun _ _ hb => hb.mono above, List.isChain_cons.2 ⟨?_, ?_⟩, ?_⟩
    · intro b hb
      obtain rfl := Option.some.inj hb
      rcases pre.eq_nil_or_concat' with rfl | ⟨init, t, rfl⟩
      · -- the least value so far is one rank wide, and now second
        obtain ⟨width, delta⟩ := head s rfl
        refine ⟨?_, ?_, .inl ?_⟩ <;> simp [Bracket.shift, span, width, delta]
      · have last := h_last _ (by rw [brackets_append]; exact List.getLast?_concat) _ rfl
        refine last.behind below ?_
        simp [Nat.add_assoc]
    · refine List.isChain_map _ |>.2 (h_rest.imp fun _ _ hb => hb.shift below)
    · intro p hp b hb
      obtain rfl := Option.some.inj hb
      have low := low_of_mem_getLast? hp
      have narrow := (h_last p hp _ rfl).inFront above v
      rw [low, Nat.zero_add] at narrow
      exact narrow

end Sample

namespace Sketch

variable [Measure ν] [LawfulMeasure ν] {targets : List (Target ℚ)}

theorem narrow_invariant (valid : ∀ t ∈ targets, t.Valid) :
    SummaryInvariant targets fun (merged : List ν) samples => Sample.Faithful merged samples ∧
      (Sample.brackets 0 samples).IsChain
        (Bracket.Narrow fun r => tolerance targets merged.length (Precision.ofInt r)) where
  nil := ⟨.nil, List.isChain_nil⟩
  mem h := h.1.mem
  perm h hm := ⟨h.1.perm hm, hm.length_eq ▸ h.2⟩
  weaveOne {_ merged _} h numbers hv := ⟨h.1.weaveOne numbers hv,
    Sample.isChain_narrow_weaveOne h.2 h.1.head (fun r => tolerance_le_succ valid merged.length r)
      (fun r => tolerance_le_succ_succ valid merged.length r)⟩
  condense h := ⟨h.1.condense _ _, Sample.isChain_narrow_condense h.2 h.1.total⟩

/-- In every summary each bracket after the first is narrow by what the targets allow now. -/
theorem narrow_run (valid : ∀ t ∈ targets, t.Valid) (uses : List (Use ν ℚ))
    (numbers : ∀ v ∈ inserted uses, IsNumber v) :
    (Sample.brackets 0 ((empty targets).run uses).summary).IsChain (Bracket.Narrow fun r =>
      tolerance targets ((empty targets).run uses).merged (Precision.ofInt r)) := by
  have narrow := ((narrow_invariant valid).run uses numbers).2
  rwa [(holds_run targets uses).length_take] at narrow

end Sketch

end Telemetry
