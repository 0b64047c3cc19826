import Telemetry.Proofs.Scope

/-!
# Separators

Normalizing looks at the neighbours of a character, to find where words start. It does not look
past a separator, which is any character but an ASCII letter or digit: no word starts for its sake
on either side (`startsWord_of_separator_left`, `startsWord_of_separator_right`). So a text can be
normalized in parts, and it is the separators at which that is so (`normalize_at_separators`). The
parts of a reading's metric name are normalized like one text.
-/

namespace Telemetry.Name

variable {c : Char} {previous next : Option Char}

/-! ## Neighbours -/

theorem isAlphanum_eq_false (h : c.isAlphanum = false) :
    c.isUpper = false ∧ c.isLower = false ∧ c.isDigit = false := by
  simpa only [Char.isAlphanum, Char.isAlpha, Bool.or_eq_false_iff, and_assoc] using h

/-- Behind a separator a word starts no more than at the start of the text. -/
theorem startsWord_of_separator_left (h : c.isAlphanum = false) (next : Option Char) :
    startsWord (some c) next = startsWord none next := by
  obtain ⟨upper, lower, digit⟩ := isAlphanum_eq_false h
  simp only [startsWord, upper, lower, digit, Bool.or_self, Bool.false_and]

/-- Before a separator a word starts no more than at the end of the text. -/
theorem startsWord_of_separator_right (h : c.isAlphanum = false) (previous : Option Char) :
    startsWord previous (some c) = startsWord previous none := by
  obtain ⟨-, lower, -⟩ := isAlphanum_eq_false h
  cases previous with
  | none => rfl
  | some p => simp only [startsWord, Option.any_some, Option.any_none, lower]

theorem normalizeChar_congr {previous' next' : Option Char}
    (h : startsWord previous next = startsWord previous' next') (c : Char) :
    normalizeChar previous c next = normalizeChar previous' c next' := by
  rw [normalizeChar, normalizeChar, h]

/-- A separator becomes an underscore, whatever its neighbours are. -/
theorem normalizeChar_separator (h : c.isAlphanum = false) (previous next : Option Char) :
    normalizeChar previous c next = ['_'] := by
  obtain ⟨upper, -, -⟩ := isAlphanum_eq_false h
  rw [normalizeChar, upper, if_neg Bool.false_ne_true, h, Bool.false_or]
  split_ifs with underscore
  · rw [beq_iff_eq.1 underscore]
  · rfl

/-! ## Texts -/

theorem normalizeAfter_separator (h : c.isAlphanum = false) (chars : List Char) :
    normalizeAfter (some c) chars = normalizeAfter none chars := by
  cases chars with
  | nil => rfl
  | cons d rest =>
    rw [normalizeAfter, normalizeAfter,
      normalizeChar_congr (startsWord_of_separator_left h rest.head?)]

/-- What stands before a separator and what stands behind it are normalized apart. -/
theorem normalizeAfter_append (h : c.isAlphanum = false) (previous : Option Char)
    (front back : List Char) : normalizeAfter previous (front ++ c :: back) =
      normalizeAfter previous front ++ '_' :: normalizeAfter none back := by
  induction front generalizing previous with
  | nil =>
    change normalizeChar previous c back.head? ++ normalizeAfter (some c) back = _
    rw [normalizeChar_separator h, normalizeAfter_separator h]
    rfl
  | cons d rest ih =>
    rw [List.cons_append, normalizeAfter, normalizeAfter, ih, List.append_assoc]
    congr 1
    cases rest with
    | nil => exact normalizeChar_congr (startsWord_of_separator_right h previous) d
    | cons e rest => rfl

theorem normalize_append_separator (h : c.isAlphanum = false) (front back : String) :
    normalize (front ++ String.singleton c ++ back) =
      normalize front ++ "_" ++ normalize back := by
  rw [← String.toList_inj]
  simp only [normalize, String.toList_append, String.toList_ofList, String.toList_singleton,
    List.append_assoc, List.singleton_append, normalizeAfter_append h]
  rfl

/-- A letter or a digit by itself becomes no underscore. -/
theorem normalizeChar_ne_underscore (h : c.isAlphanum = true) :
    normalizeChar none c none ≠ ['_'] := by
  unfold normalizeChar
  split_ifs with upper starts legal
  · cases starts
  · intro underscore
    have alpha : c.toLower.isAlpha = true := by
      rw [Char.isAlpha_toLower_eq_isAlpha, Char.isAlpha, upper, Bool.true_or]
    rw [List.singleton_inj.1 underscore] at alpha
    cases alpha
  · intro underscore
    rw [List.singleton_inj.1 underscore] at h
    cases h
  · rw [h] at legal
    exact absurd rfl legal

/-- The separators are the characters at which normalizing a text comes to the same as normalizing
the two parts, whatever these are. In particular a metric name can be made from an origin and a name
that are joined first. -/
theorem normalize_at_separators :
    (∀ c : Char, ¬(IsLetter c ∨ IsDigit c) ↔ ∀ front back : String,
      normalize (front ++ String.singleton c ++ back) =
        normalize front ++ "_" ++ normalize back) ∧
      ∀ (p : ReadingReporter) (r : Reading), p.metricName r =
        qualify p.scope ReadingReporter.subsystem (normalize (r.origin ++ "_" ++ r.name)) := by
  refine ⟨fun c => ?_, fun p r => ?_⟩
  · rw [← isAlphanum_iff, Bool.not_eq_true]
    refine ⟨fun h front back => normalize_append_separator h front back, fun h => ?_⟩
    by_contra alphanumeric
    rw [Bool.not_eq_false] at alphanumeric
    have alone := congrArg String.toList (h "" "")
    simp only [normalize, String.toList_append, String.toList_ofList, String.toList_singleton,
      String.toList_empty, List.nil_append, List.append_nil, normalizeAfter] at alone
    exact normalizeChar_ne_underscore alphanumeric alone
  · have joined := normalize_append_separator (c := '_') (by decide) r.origin r.name
    have underscore : String.singleton '_' = "_" := rfl
    rw [underscore] at joined
    rw [ReadingReporter.metricName, joined]

end Telemetry.Name
