/-!
# Tags

Free-form tags of a reading: texts under distinct keys, kept in the order of the keys. The order
makes equal tags equal as values.
-/

namespace Telemetry

/-- Texts by key, in ascending order of the keys. -/
structure Tags where
  entries : List (String × String)
  ascending : entries.Pairwise fun a b => a.1 < b.1
  deriving DecidableEq

namespace Tags

/-- Puts a text under a key into ascending entries, in place of one that the key may have. -/
def insertEntry (key text : String) : List (String × String) → List (String × String)
  | [] => [(key, text)]
  | e :: rest =>
    if key < e.1 then (key, text) :: e :: rest
    else if e.1 < key then e :: insertEntry key text rest
    else (key, text) :: rest

theorem eq_or_mem_of_mem_insertEntry {key text : String} {entries : List (String × String)}
    {e : String × String} (h : e ∈ insertEntry key text entries) :
    e = (key, text) ∨ e ∈ entries := by
  induction entries with
  | nil => simpa [insertEntry] using h
  | cons head rest ih =>
    simp only [insertEntry] at h
    split at h
    · simpa using h
    · split at h
      · rcases List.mem_cons.1 h with rfl | h
        · simp
        · exact (ih h).imp_right (List.mem_cons_of_mem _)
      · rcases List.mem_cons.1 h with rfl | h
        · simp
        · exact .inr (List.mem_cons_of_mem _ h)

theorem pairwise_insertEntry (key text : String) {entries : List (String × String)}
    (h : entries.Pairwise fun a b => a.1 < b.1) :
    (insertEntry key text entries).Pairwise fun a b => a.1 < b.1 := by
  induction entries with
  | nil => simp [insertEntry]
  | cons head rest ih =>
    have ⟨above, tail⟩ := List.pairwise_cons.1 h
    simp only [insertEntry]
    split
    · next before =>
      refine List.pairwise_cons.2 ⟨fun e he => ?_, h⟩
      rcases List.mem_cons.1 he with rfl | he
      · exact before
      · exact String.lt_trans before (above e he)
    · next notBefore =>
      split
      · next after =>
        refine List.pairwise_cons.2 ⟨fun e he => ?_, ih tail⟩
        rcases eq_or_mem_of_mem_insertEntry he with rfl | he
        · exact after
        · exact above e he
      · next notAfter =>
        have same : key = head.1 := String.le_antisymm notAfter notBefore
        exact List.pairwise_cons.2 ⟨fun e he => same ▸ above e he, tail⟩

def empty : Tags := ⟨[], .nil⟩

/-- Puts a text under a key; a text that the key already has gives way. -/
def insert (tags : Tags) (key text : String) : Tags :=
  ⟨insertEntry key text tags.entries, pairwise_insertEntry key text tags.ascending⟩

/-- The tags of a list of keys and texts. The last text of a key counts. -/
def ofList (entries : List (String × String)) : Tags :=
  entries.foldl (fun tags e => tags.insert e.1 e.2) empty

end Tags

end Telemetry
