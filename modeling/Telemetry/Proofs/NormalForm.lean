import Telemetry.Proofs.Separators

/-!
# Normal form

What normalizing leaves is plain: lower-case letters, digits and underscores. A plain text is not
changed any more (`normalize_eq_self_iff`), so that normalizing twice is normalizing once. Each
letter and each digit is kept, in its place among the others (`normalize_normal_form`).

Underscores come from separators, one for each, and from the starts of words. The latter stand
alone: a letter or a digit is on either side (`normalizeChar_of_isAlphanum`). So where two
underscores meet, two separators met before (`isChain_normalizeAfter`), and it can be read off a key
whether it becomes a label name (`isLabelName_normalize`).
-/

namespace Telemetry.Name

variable {c : Char} {previous next : Option Char} {chars : List Char}

/-! ## Plain characters -/

/-- The class `[a-z0-9_]`. -/
def IsPlain (c : Char) : Prop := ('a' ≤ c ∧ c ≤ 'z') ∨ IsDigit c ∨ c = '_'

theorem isLower_iff (c : Char) : c.isLower = true ↔ 'a' ≤ c ∧ c ≤ 'z' := by
  rw [Char.isLower, Bool.and_eq_true, decide_eq_true_iff, decide_eq_true_iff]
  rfl

theorem isPlain_iff (c : Char) : IsPlain c ↔ c.isLower = true ∨ c.isDigit = true ∨ c = '_' := by
  rw [IsPlain, isLower_iff, isDigit_iff]

theorem not_isUpper_of_isDigit (h : c.isDigit = true) : ¬c.isUpper = true := by
  simp [Char.isUpper, Char.isDigit, UInt32.le_iff_toNat_le] at h ⊢
  omega

theorem IsPlain.not_isUpper (h : IsPlain c) : ¬c.isUpper = true := by
  rcases (isPlain_iff c).1 h with lower | digit | rfl
  · exact Char.not_isUpper_of_isLower lower
  · exact not_isUpper_of_isDigit digit
  · decide

theorem isPlain_toLower (h : c.isAlphanum = true) : IsPlain c.toLower := by
  rw [isPlain_iff, Char.isLower_toLower_eq_isAlpha]
  rcases Bool.or_eq_true_iff.1 h with alpha | digit
  · exact .inl alpha
  · rw [Char.toLower_eq_of_not_isUpper (not_isUpper_of_isDigit digit)]
    exact .inr (.inl digit)

theorem toLower_ne_underscore (h : c.isAlphanum = true) : c.toLower ≠ '_' := by
  intro underscore
  have alpha : c.isAlpha = false := by
    rw [← Char.isAlpha_toLower_eq_isAlpha, underscore]
    rfl
  have digit : c.isDigit = true := by rwa [Char.isAlphanum, alpha, Bool.false_or] at h
  rw [Char.toLower_eq_of_not_isUpper (not_isUpper_of_isDigit digit)] at underscore
  rw [underscore] at digit
  cases digit

/-! ## One character -/

/-- A letter or a digit is kept in lower case, behind an underscore where it starts a word. -/
theorem normalizeChar_of_isAlphanum (h : c.isAlphanum = true) (previous next : Option Char) :
    normalizeChar previous c next =
      (if c.isUpper && startsWord previous next then ['_'] else []) ++ [c.toLower] := by
  rw [normalizeChar, h, Bool.true_or, if_pos rfl]
  by_cases upper : c.isUpper = true
  · rw [if_pos upper, upper, Bool.true_and]
    split_ifs <;> rfl
  · rw [if_neg upper, Char.toLower_eq_of_not_isUpper upper, Bool.eq_false_iff.2 upper]
    rfl

theorem normalizeChar_of_isPlain (h : IsPlain c) (previous next : Option Char) :
    normalizeChar previous c next = [c] := by
  have legal : (c.isAlphanum || c == '_') = true := by
    rcases (isPlain_iff c).1 h with lower | digit | rfl
    · simp [Char.isAlphanum, Char.isAlpha, lower]
    · simp [Char.isAlphanum, digit]
    · rfl
  rw [normalizeChar, if_neg h.not_isUpper, if_pos legal]

theorem isPlain_normalizeChar (previous : Option Char) (c : Char) (next : Option Char) :
    ∀ d ∈ normalizeChar previous c next, IsPlain d := by
  have underscore : IsPlain '_' := .inr (.inr rfl)
  by_cases h : c.isAlphanum = true
  · rw [normalizeChar_of_isAlphanum h]
    refine List.forall_mem_append.2 ⟨?_, List.forall_mem_singleton.2 (isPlain_toLower h)⟩
    split_ifs
    · exact List.forall_mem_singleton.2 underscore
    · exact List.forall_mem_nil _
  · rw [normalizeChar_separator (Bool.eq_false_iff.2 h)]
    exact List.forall_mem_singleton.2 underscore

theorem filter_normalizeChar (previous : Option Char) (c : Char) (next : Option Char) :
    (normalizeChar previous c next).filter (· ≠ '_') =
      if c.isAlphanum then [c.toLower] else [] := by
  split_ifs with h
  · have kept : [c.toLower].filter (· ≠ '_') = [c.toLower] :=
      List.filter_eq_self.2 (List.forall_mem_singleton.2 (decide_eq_true (toLower_ne_underscore h)))
    rw [normalizeChar_of_isAlphanum h, List.filter_append, kept]
    split_ifs <;> rfl
  · rw [normalizeChar_separator (Bool.eq_false_iff.2 h)]
    rfl

/-! ## Whole texts -/

theorem isPlain_normalizeAfter (previous : Option Char) (chars : List Char) :
    ∀ c ∈ normalizeAfter previous chars, IsPlain c := by
  induction chars generalizing previous with
  | nil => exact List.forall_mem_nil _
  | cons c rest ih =>
    exact List.forall_mem_append.2 ⟨isPlain_normalizeChar previous c rest.head?, ih (some c)⟩

theorem normalizeAfter_of_isPlain (h : ∀ c ∈ chars, IsPlain c) (previous : Option Char) :
    normalizeAfter previous chars = chars := by
  induction chars generalizing previous with
  | nil => rfl
  | cons c rest ih =>
    have h := List.forall_mem_cons.1 h
    rw [normalizeAfter, normalizeChar_of_isPlain h.1, ih h.2]
    rfl

theorem filter_normalizeAfter (previous : Option Char) (chars : List Char) :
    (normalizeAfter previous chars).filter (· ≠ '_') =
      (chars.filter Char.isAlphanum).map Char.toLower := by
  induction chars generalizing previous with
  | nil => rfl
  | cons c rest ih =>
    rw [normalizeAfter, List.filter_append, filter_normalizeChar, ih, List.filter_cons]
    split_ifs <;> rfl

theorem isPlain_normalize (name : String) : ∀ c ∈ (normalize name).toList, IsPlain c := by
  rw [normalize, String.toList_ofList]
  exact isPlain_normalizeAfter none name.toList

/-- The plain texts are those in normal form. -/
theorem normalize_eq_self_iff (name : String) :
    normalize name = name ↔ ∀ c ∈ name.toList, IsPlain c := by
  constructor
  · intro normal
    rw [← normal]
    exact isPlain_normalize name
  · intro plain
    rw [normalize, normalizeAfter_of_isPlain plain, String.ofList_toList]

/-- A normalized name consists of lower-case letters, digits and underscores, and is not changed by
normalizing it again. Its underscores apart, it is made of the letters and digits of the name, in
their order and in lower case. -/
theorem normalize_normal_form (name : String) :
    (∀ c ∈ (normalize name).toList, ('a' ≤ c ∧ c ≤ 'z') ∨ IsDigit c ∨ c = '_') ∧
      normalize (normalize name) = normalize name ∧
      (normalize name).toList.filter (· ≠ '_') =
        (name.toList.filter Char.isAlphanum).map Char.toLower := by
  refine ⟨isPlain_normalize name, (normalize_eq_self_iff _).2 (isPlain_normalize name), ?_⟩
  rw [normalize, String.toList_ofList]
  exact filter_normalizeAfter none name.toList

/-! ## Underscores that meet -/

/-- At the start of a text no word is set apart. -/
theorem head?_normalizeAfter_none (chars : List Char) : (normalizeAfter none chars).head? =
    chars.head?.map fun c => if c.isAlphanum then c.toLower else '_' := by
  cases chars with
  | nil => rfl
  | cons c rest =>
    rw [normalizeAfter, List.head?_cons, Option.map_some]
    split_ifs with h
    · rw [normalizeChar_of_isAlphanum h, startsWord, Bool.and_false]
      rfl
    · rw [normalizeChar_separator (Bool.eq_false_iff.2 h)]
      rfl

theorem underscore_mem_head?_iff : '_' ∈ (normalizeAfter none chars).head? ↔
    ∃ c ∈ chars.head?, c.isAlphanum = false := by
  rw [head?_normalizeAfter_none, Option.mem_map]
  refine exists_congr fun c => and_congr_right fun _ => ?_
  split_ifs with h
  · exact iff_of_false (toLower_ne_underscore h) (by simp [h])
  · exact iff_of_true rfl (Bool.eq_false_iff.2 h)

/-- Two underscores meet where two separators did, and nowhere else. -/
theorem isChain_normalizeAfter (previous : Option Char) (chars : List Char) :
    (normalizeAfter previous chars).IsChain (fun c d => ¬(c = '_' ∧ d = '_')) ↔
      chars.IsChain fun c d => ¬(c.isAlphanum = false ∧ d.isAlphanum = false) := by
  induction chars generalizing previous with
  | nil => exact iff_of_true .nil .nil
  | cons c rest ih =>
    rw [normalizeAfter, List.isChain_append, List.isChain_cons, ih]
    by_cases h : c.isAlphanum = true
    · -- a letter or digit parts what stands before it from what stands behind it
      have apart : ∀ d, ¬(c.toLower = '_' ∧ d = '_') := fun d both => toLower_ne_underscore h both.1
      have here : ∀ d ∈ rest.head?, ¬(c.isAlphanum = false ∧ d.isAlphanum = false) :=
        fun d _ both => Bool.eq_false_iff.1 both.1 h
      rw [normalizeChar_of_isAlphanum h, List.getLast?_concat]
      have single : ((if c.isUpper && startsWord previous rest.head? then ['_'] else []) ++
          [c.toLower]).IsChain fun c d => ¬(c = '_' ∧ d = '_') := by
        split_ifs
        · exact List.isChain_pair.2 fun both => toLower_ne_underscore h both.2
        · exact List.isChain_singleton _
      refine ⟨fun chain => ⟨here, chain.2.1⟩, fun chain => ⟨single, chain.2, ?_⟩⟩
      rintro _ ⟨⟩ d -
      exact apart d
    · have separator := Bool.eq_false_iff.2 h
      rw [normalizeChar_separator separator, normalizeAfter_separator separator]
      simp only [separator, List.isChain_singleton, List.getLast?_singleton, true_and]
      rw [and_comm]
      refine and_congr_left' ⟨?_, ?_⟩
      · intro apart d hd alike
        exact apart '_' rfl '_' (underscore_mem_head?_iff.2 ⟨d, hd, alike⟩) ⟨rfl, rfl⟩
      · rintro apart _ ⟨⟩ _ hd ⟨-, rfl⟩
        obtain ⟨d, hd, alike⟩ := underscore_mem_head?_iff.1 hd
        exact apart d hd alike

/-! ## Keys -/

/-- The characters that are no letters and no digits. -/
def IsSeparator (c : Char) : Prop := ¬(IsLetter c ∨ IsDigit c)

theorem isSeparator_iff (c : Char) : IsSeparator c ↔ c.isAlphanum = false := by
  rw [IsSeparator, ← isAlphanum_iff, Bool.not_eq_true]

theorem isAlpha_iff_not_isDigit (h : c.isAlphanum = true) : c.isAlpha = true ↔ ¬IsDigit c := by
  rw [← isDigit_iff]
  constructor
  · intro alpha digit
    have lower := Bool.or_eq_true_iff.1 alpha |>.resolve_left (not_isUpper_of_isDigit digit)
    simp [Char.isLower, Char.isDigit, UInt32.le_iff_toNat_le] at lower digit
    omega
  · exact (Bool.or_eq_true_iff.1 h).resolve_right

/-- Two characters with a property meet if neighbours are not kept from having it. -/
theorem exists_infix_iff (p : Char → Prop) (chars : List Char) :
    (∃ c d, [c, d] <:+: chars ∧ p c ∧ p d) ↔ ¬chars.IsChain fun c d => ¬(p c ∧ p d) := by
  rw [List.isChain_iff_forall_rel_of_append_cons_cons]
  push Not
  constructor
  · rintro ⟨c, d, ⟨front, back, rfl⟩, both⟩
    exact ⟨c, d, front, back, by simp, both⟩
  · rintro ⟨c, d, front, back, rfl, both⟩
    exact ⟨c, d, ⟨front, back, by simp⟩, both⟩

theorem pair_prefix_cons_iff {d e : Char} : [c, d] <+: e :: chars ↔ c = e ∧ d ∈ chars.head? := by
  rw [List.cons_prefix_cons]
  refine and_congr_right fun _ => ?_
  cases chars with
  | nil => simp
  | cons f rest => simp [eq_comm]

theorem isLabelName_ofList_cons (plain : ∀ d ∈ chars, IsPlain d) :
    IsLabelName (String.ofList (c :: chars)) ↔
      (c.isAlpha ∨ c = '_') ∧ ¬(c = '_' ∧ '_' ∈ chars.head?) := by
  have legal : ∀ d ∈ chars, d.isAlphanum ∨ d = '_' := by
    intro d hd
    rcases (isPlain_iff d).1 (plain d hd) with lower | digit | underscore
    · exact .inl (by simp [Char.isAlphanum, Char.isAlpha, lower])
    · exact .inl (by simp [Char.isAlphanum, digit])
    · exact .inr underscore
  rw [IsLabelName, String.toList_ofList]
  dsimp only
  rw [pair_prefix_cons_iff, and_iff_right legal, eq_comm (a := '_')]

/-- Whether a key becomes a label name can be read off its first two characters. -/
theorem isLabelName_ofList_normalizeAfter (c : Char) (rest : List Char) :
    IsLabelName (String.ofList (normalizeAfter none (c :: rest))) ↔
      ¬IsDigit c ∧ ¬∃ d e, [d, e] <+: c :: rest ∧ d.isAlphanum = false ∧ e.isAlphanum = false := by
  by_cases h : c.isAlphanum = true
  · have starts : normalizeAfter none (c :: rest) = c.toLower :: normalizeAfter (some c) rest := by
      rw [normalizeAfter, normalizeChar_of_isAlphanum h, startsWord, Bool.and_false]
      rfl
    have apart : ¬∃ d e, [d, e] <+: c :: rest ∧ d.isAlphanum = false ∧ e.isAlphanum = false := by
      rintro ⟨d, e, front, alike, -⟩
      obtain rfl := (pair_prefix_cons_iff.1 front).1
      exact Bool.eq_false_iff.1 alike h
    rw [starts, isLabelName_ofList_cons (isPlain_normalizeAfter _ _), and_iff_left apart,
      Char.isAlpha_toLower_eq_isAlpha, or_iff_left (toLower_ne_underscore h),
      isAlpha_iff_not_isDigit h]
    exact and_iff_left fun both => toLower_ne_underscore h both.1
  · have separator := Bool.eq_false_iff.2 h
    have starts : normalizeAfter none (c :: rest) = '_' :: normalizeAfter none rest := by
      rw [normalizeAfter, normalizeChar_separator separator, normalizeAfter_separator separator]
      rfl
    have digit : ¬IsDigit c := fun digit => h ((isAlphanum_iff c).2 (.inr digit))
    rw [starts, isLabelName_ofList_cons (isPlain_normalizeAfter _ _), and_iff_right (.inr rfl),
      and_iff_right digit, and_iff_right rfl, underscore_mem_head?_iff]
    refine not_congr ⟨?_, ?_⟩
    · rintro ⟨e, he, alike⟩
      exact ⟨c, e, pair_prefix_cons_iff.2 ⟨rfl, he⟩, separator, alike⟩
    · rintro ⟨d, e, front, -, alike⟩
      exact ⟨e, (pair_prefix_cons_iff.1 front).2, alike⟩

/-- A key becomes a label name if it is not empty, does not start with a digit and does not start
with two separators. More generally, two underscores meet in the normalized key just where two
separators meet in the key, so that words set apart never make a name reserved. -/
theorem isLabelName_normalize (key : String) :
    (IsLabelName (normalize key) ↔ key ≠ "" ∧ (∀ c ∈ key.toList.head?, ¬IsDigit c) ∧
      ¬∃ c d, [c, d] <+: key.toList ∧ IsSeparator c ∧ IsSeparator d) ∧
    (['_', '_'] <:+: (normalize key).toList ↔
      ∃ c d, [c, d] <:+: key.toList ∧ IsSeparator c ∧ IsSeparator d) := by
  simp only [isSeparator_iff]
  constructor
  · rw [ne_eq, ← String.toList_eq_nil_iff, normalize]
    cases key.toList with
    | nil => exact iff_of_false id fun named => named.1 rfl
    | cons c rest =>
      rw [isLabelName_ofList_normalizeAfter, and_iff_right (List.cons_ne_nil c rest),
        List.head?_cons]
      simp only [Option.mem_some_iff, forall_eq']
  · rw [exists_infix_iff, ← isChain_normalizeAfter none, ← exists_infix_iff (· = '_'), normalize,
      String.toList_ofList]
    simp only [exists_eq_right_right, exists_eq_right]

end Telemetry.Name
