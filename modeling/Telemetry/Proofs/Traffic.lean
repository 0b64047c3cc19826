import Mathlib.Algebra.BigOperators.Group.List.Lemmas
import Mathlib.Algebra.BigOperators.Ring.Finset
import Mathlib.Data.List.Dedup
import Mathlib.Data.List.Induction
import Telemetry.Traffic

/-!
# Traffic as groups of requests

Requests are taken in one after the other, in whatever order their endpoints come. What an endpoint
ends up with depends on its own requests alone, in their order: it is what these requests would have
left by themselves (`get?_ofRequests`). So look-ups, sizes and counts of traffic are those of the
list of requests grouped by endpoint (`ofRequests_groups`).
-/

namespace Telemetry

/-! ## Maps as lists -/

section Map

variable {α β γ : Type} {cmp : α → α → Ordering}

theorem values_eq_map_toList (m : Std.TreeMap α β cmp) : m.values = m.toList.map Prod.snd := by
  change m.foldr (fun _ v values => v :: values) [] = _
  rw [Std.TreeMap.foldr_eq_foldr_toList]
  induction m.toList with
  | nil => rfl
  | cons e entries ih => rw [List.foldr_cons, ih, List.map_cons]

variable [Std.TransCmp cmp]

theorem nodup_toList (m : Std.TreeMap α β cmp) : m.toList.Nodup := by
  refine List.Nodup.of_map Prod.fst ?_
  rw [Std.TreeMap.map_fst_toList_eq_keys]
  exact Std.TreeMap.nodup_keys

variable [Std.LawfulEqCmp cmp]

/-- A map that counts the entries of a list holds each entry once, with its count. -/
theorem toList_perm_count [DecidableEq α] {m : Std.TreeMap α ℕ cmp} {xs : List α}
    (h : ∀ x, m[x]? = if xs.count x = 0 then none else some (xs.count x)) :
    m.toList.Perm (xs.dedup.map fun x => (x, xs.count x)) := by
  have nodup : (xs.dedup.map fun x => (x, xs.count x)).Nodup :=
    (List.nodup_dedup xs).map fun x y eq => congrArg Prod.fst eq
  rw [List.perm_ext_iff_of_nodup (nodup_toList m) nodup]
  rintro ⟨x, n⟩
  rw [Std.TreeMap.mem_toList_iff_getElem?_eq_some, h]
  by_cases zero : xs.count x = 0
  · have absent : x ∉ xs := List.count_eq_zero.1 zero
    simp [zero, absent]
  · have present : x ∈ xs := List.one_le_count_iff.1 (Nat.one_le_iff_ne_zero.2 zero)
    simp [zero, present]

/-- What depends on the value of one key only is computed from that value. -/
theorem flatMap_toList_of_key (m : Std.TreeMap α β cmp) (key : α) {f : α × β → List γ}
    (h : ∀ k v, k ≠ key → f (k, v) = []) :
    m.toList.flatMap f = (m[key]?).elim [] fun v => f (key, v) := by
  cases found : m[key]? with
  | none =>
    refine List.flatMap_eq_nil_iff.2 ?_
    rintro ⟨k, v⟩ mem
    refine h k v ?_
    rintro rfl
    rw [Std.TreeMap.mem_toList_iff_getElem?_eq_some, found] at mem
    cases mem
  | some v =>
    obtain ⟨pre, post, split⟩ :=
      List.append_of_mem (Std.TreeMap.mem_toList_iff_getElem?_eq_some.2 found)
    have nodup : (m.toList.map Prod.fst).Nodup := by
      rw [Std.TreeMap.map_fst_toList_eq_keys]
      exact Std.TreeMap.nodup_keys
    rw [split, List.map_append, List.map_cons, List.nodup_middle, List.nodup_cons,
      List.mem_append, not_or] at nodup
    have elsewhere : ∀ entries : List (α × β), key ∉ entries.map Prod.fst →
        entries.flatMap f = [] := by
      intro entries absent
      refine List.flatMap_eq_nil_iff.2 ?_
      rintro ⟨k, v⟩ mem
      refine h k v ?_
      rintro rfl
      exact absent (List.mem_map_of_mem mem)
    rw [split, List.flatMap_append, List.flatMap_cons, elsewhere pre nodup.1.1,
      elsewhere post nodup.1.2, List.nil_append, List.append_nil]
    rfl

theorem filter_toList_of_key [DecidableEq α] (m : Std.TreeMap α β cmp) (key : α) :
    (m.toList.filter fun x => x.1 = key) = (m[key]?).elim [] fun v => [(key, v)] := by
  have single := flatMap_toList_of_key m key (f := fun x => [x].filter fun x => x.1 = key) ?_
  · rw [← List.filter_flatMap, List.flatMap_singleton'] at single
    rw [single]
    simp
  · intro k v other
    simp [other]

end Map

/-! ## One endpoint -/

namespace EndpointStats

variable {ρ : Type} [Precision ρ]

/-- The statistics of a list of requests, taken in one after the other. -/
def ofRequests (requests : List Request) : EndpointStats ρ := requests.foldl insert empty

theorem ofRequests_concat (requests : List Request) (r : Request) :
    (ofRequests (requests ++ [r]) : EndpointStats ρ) = (ofRequests requests).insert r := by
  rw [ofRequests, List.foldl_append]
  rfl

/-- Every status code has the number of its requests. -/
theorem getElem?_statusCodes (requests : List Request) (code : ℤ) :
    (ofRequests requests : EndpointStats ρ).statusCodes[code]? =
      if (requests.map Request.statusCode).count code = 0 then none
      else some ((requests.map Request.statusCode).count code) := by
  induction requests using List.reverseRecOn with
  | nil => rfl
  | append_singleton requests r ih =>
    rw [ofRequests_concat, insert, countStatus, Std.TreeMap.getElem?_alter, List.map_append,
      List.count_append]
    by_cases same : r.statusCode = code
    · subst same
      rw [if_pos Std.ReflCmp.compare_self, ih]
      by_cases zero : (requests.map Request.statusCode).count r.statusCode = 0 <;> simp [zero]
    · have other : ¬compare r.statusCode code = .eq := fun eq =>
        same (Std.LawfulEqCmp.eq_of_compare eq)
      rw [if_neg other, ih]
      simp [same]

/-- A sketch that takes in one number of each request is the sketch of these numbers. -/
theorem sketch_ofRequests (sketch : EndpointStats ρ → Sketch Float ρ) (number : Request → ℤ)
    (start : sketch empty = .standard)
    (step : ∀ s r, sketch (s.insert r) = (sketch s).insert (Float.ofInt (number r)))
    (requests : List Request) : sketch (ofRequests requests) =
      Sketch.standard.insertAll (requests.map fun r => Float.ofInt (number r)) := by
  induction requests using List.reverseRecOn with
  | nil => exact start
  | append_singleton requests r ih =>
    rw [ofRequests_concat, step, ih, Sketch.insertAll, Sketch.insertAll, List.map_append,
      List.foldl_append]
    rfl

theorem requests_ofRequests (requests : List Request) :
    (ofRequests requests : EndpointStats ρ).requests = requests.length := by
  have counts := toList_perm_count (getElem?_statusCodes (ρ := ρ) requests)
  rw [EndpointStats.requests, values_eq_map_toList, ← List.sum_eq_foldr,
    (counts.map Prod.snd).sum_eq, List.map_map]
  exact (List.sum_map_count_dedup_eq_length _).trans (List.length_map _)

end EndpointStats

/-! ## All endpoints -/

namespace Traffic

/-- The requests that belong to an application. -/
def attributed (requests : List Request) : List Request :=
  requests.filter fun r => r.applicationId ≠ ""

/-- The requests of an endpoint that belong to an application, in order. -/
def requestsOf (requests : List Request) (e : Endpoint) : List Request :=
  (attributed requests).filter fun r => r.toEndpoint = e

variable {ρ : Type} [Precision ρ]

theorem ofRequests_concat (requests : List Request) (r : Request) :
    (ofRequests (requests ++ [r]) : Traffic ρ) = (ofRequests requests).insert r := by
  rw [ofRequests, List.foldl_append]
  rfl

/-- An endpoint has the statistics of its own requests, if it has any. -/
theorem get?_ofRequests (requests : List Request) (e : Endpoint) :
    (ofRequests requests : Traffic ρ).get? e =
      if requestsOf requests e = [] then none
      else some (EndpointStats.ofRequests (requestsOf requests e)) := by
  induction requests using List.reverseRecOn with
  | nil => rfl
  | append_singleton requests r ih =>
    rw [ofRequests_concat, insert, requestsOf, attributed, List.filter_append, List.filter_append]
    change _ = if requestsOf requests e ++ _ = [] then none
      else some (EndpointStats.ofRequests (requestsOf requests e ++ _))
    by_cases orphan : r.applicationId = ""
    · rw [if_pos (by simpa using orphan)]
      change (ofRequests requests : Traffic ρ).get? e = _
      simp [orphan, ih]
    · rw [if_neg (by simpa using orphan), get?, Std.TreeMap.getElem?_alter]
      by_cases same : r.toEndpoint = e
      · subst same
        rw [if_pos Std.ReflCmp.compare_self]
        change some
          ((((ofRequests requests : Traffic ρ).get? r.toEndpoint).getD .empty).insert r) = _
        rw [ih]
        by_cases nil : requestsOf requests r.toEndpoint = [] <;>
          simp [orphan, nil, EndpointStats.ofRequests]
      · have other : ¬compare r.toEndpoint e = .eq := fun eq =>
          same (Std.LawfulEqCmp.eq_of_compare eq)
        rw [if_neg other]
        change (ofRequests requests : Traffic ρ).get? e = _
        rw [ih]
        simp [orphan, same]

theorem discarded_ofRequests (requests : List Request) :
    (ofRequests requests : Traffic ρ).discarded =
      requests.countP fun r => r.applicationId = "" := by
  induction requests using List.reverseRecOn with
  | nil => rfl
  | append_singleton requests r ih =>
    rw [ofRequests_concat, insert, List.countP_append]
    by_cases orphan : r.applicationId = "" <;> simp [orphan, ih]

theorem requestsOf_eq_nil_iff (requests : List Request) (e : Endpoint) :
    requestsOf requests e = [] ↔ e ∉ (attributed requests).map Request.toEndpoint := by
  simp [requestsOf, List.filter_eq_nil_iff]

/-- The requests of an endpoint with an application all belong to it. -/
theorem requestsOf_eq_filter {requests : List Request} {e : Endpoint}
    (owned : e.applicationId ≠ "") :
    requestsOf requests e = requests.filter fun r => r.toEndpoint = e := by
  rw [requestsOf, attributed, List.filter_filter]
  refine List.filter_congr fun r _ => ?_
  rw [← Bool.decide_and, decide_eq_decide]
  exact and_iff_left_of_imp fun same => same ▸ owned

theorem applicationId_ne_of_mem {requests : List Request} {e : Endpoint}
    (h : e ∈ ((attributed requests).map Request.toEndpoint).dedup) : e.applicationId ≠ "" := by
  obtain ⟨r, hr, rfl⟩ := List.mem_map.1 (List.mem_dedup.1 h)
  exact of_decide_eq_true (List.mem_filter.1 hr).2

theorem length_requestsOf (requests : List Request) (e : Endpoint) :
    (requestsOf requests e).length =
      ((attributed requests).map Request.toEndpoint).count e := by
  rw [requestsOf, ← List.countP_eq_length_filter, List.count, List.countP_map]
  refine List.countP_congr fun r _ => ?_
  simp

/-- The endpoints are those of the requests, each once. -/
theorem keys_ofRequests_perm (requests : List Request) :
    (ofRequests requests : Traffic ρ).endpoints.keys.Perm
      ((attributed requests).map Request.toEndpoint).dedup := by
  rw [List.perm_ext_iff_of_nodup Std.TreeMap.nodup_keys (List.nodup_dedup _)]
  intro e
  rw [Std.TreeMap.mem_keys, Std.TreeMap.mem_iff_isSome_getElem?, List.mem_dedup]
  change ((ofRequests requests : Traffic ρ).get? e).isSome = true ↔ _
  rw [get?_ofRequests, ← not_iff_not, ← requestsOf_eq_nil_iff]
  split_ifs with nil <;> simp [nil]

/-- Requests belong to an application or are discarded. -/
theorem length_attributed_add_discarded (requests : List Request) :
    (attributed requests).length + (ofRequests requests : Traffic ρ).discarded =
      requests.length := by
  rw [discarded_ofRequests, attributed, ← List.countP_eq_length_filter, Nat.add_comm,
    List.length_eq_countP_add_countP fun r : Request => decide (r.applicationId = "")]
  congr 1
  exact List.countP_congr fun r _ => by simp

/-- The requests of all endpoints together are those that belong to an application. -/
theorem sum_length_requestsOf {M : Type} [AddCommMonoidWithOne M] (requests : List Request) :
    (((attributed requests).map Request.toEndpoint).dedup.map
      fun e => ((requestsOf requests e).length : M)).sum = (attributed requests).length := by
  have total := List.sum_map_count_dedup_eq_length ((attributed requests).map Request.toEndpoint)
  rw [List.length_map] at total
  simp only [length_requestsOf]
  rw [← total, Nat.cast_list_sum, List.map_map]
  rfl

/-- The entries are those of the endpoints, each with the statistics of its own requests. -/
theorem toList_ofRequests_perm (requests : List Request) :
    (ofRequests requests : Traffic ρ).toList.Perm
      (((attributed requests).map Request.toEndpoint).dedup.map
        fun e => (e, EndpointStats.ofRequests (requestsOf requests e))) := by
  have each : (ofRequests requests : Traffic ρ).toList =
      (ofRequests requests : Traffic ρ).endpoints.keys.map
        fun e => (e, EndpointStats.ofRequests (requestsOf requests e)) := by
    rw [← Std.TreeMap.map_fst_toList_eq_keys, List.map_map]
    refine (List.map_id _).symm.trans (List.map_congr_left ?_)
    rintro ⟨e, s⟩ mem
    have found := Std.TreeMap.mem_toList_iff_getElem?_eq_some.1 mem
    change (ofRequests requests : Traffic ρ).get? e = some s at found
    rw [get?_ofRequests] at found
    split_ifs at found with nil
    exact congrArg (Prod.mk e) (Option.some.inj found).symm
  rw [each]
  exact (keys_ofRequests_perm requests).map _

/-- What is made of each entry is made of each endpoint and its own requests. -/
theorem flatMap_toList_ofRequests_perm {β : Type} (f : Endpoint → EndpointStats ρ → List β)
    (requests : List Request) : ((ofRequests requests : Traffic ρ).toList.flatMap
      fun (e, s) => f e s).Perm (((attributed requests).map Request.toEndpoint).dedup.flatMap
        fun e => f e (.ofRequests (requestsOf requests e))) := by
  have entries := (toList_ofRequests_perm (ρ := ρ) requests).flatMap_right fun (e, s) => f e s
  rwa [List.flatMap_map] at entries

/-- What amounts to the requests of each endpoint amounts to all that belong to an application. -/
theorem sum_toList_ofRequests {M : Type} [AddCommMonoidWithOne M] (requests : List Request)
    (f : Endpoint × EndpointStats ρ → M)
    (h : ∀ e, requestsOf requests e ≠ [] → f (e, .ofRequests (requestsOf requests e)) =
      (requestsOf requests e).length) :
    ((ofRequests requests : Traffic ρ).toList.map f).sum = (attributed requests).length := by
  rw [((toList_ofRequests_perm requests).map f).sum_eq, List.map_map, ← sum_length_requestsOf]
  refine congrArg List.sum (List.map_congr_left fun e mem => h e ?_)
  rw [ne_eq, requestsOf_eq_nil_iff, not_not]
  exact List.mem_dedup.1 mem

omit [Precision ρ] in
theorem applications_pairwise (t : Traffic ρ) : t.applications.Pairwise (· < ·) := by
  have ordered : t.applications.Pairwise fun a b => compare a b = .lt := Std.TreeSet.ordered_toList
  exact ordered.imp fun less => compareOfLessAndEq_eq_lt.1 less

theorem mem_applications_ofRequests (requests : List Request) (a : String) :
    a ∈ (ofRequests requests : Traffic ρ).applications ↔
      ∃ r ∈ requests, r.applicationId ≠ "" ∧ r.applicationId = a := by
  have keys : ∀ e, e ∈ (ofRequests requests : Traffic ρ).endpoints.keys ↔
      ∃ r ∈ requests, r.applicationId ≠ "" ∧ r.toEndpoint = e := by
    intro e
    rw [(keys_ofRequests_perm requests).mem_iff]
    simp [attributed, and_assoc]
  rw [applications, Std.TreeSet.mem_toList, Std.TreeSet.mem_ofList, List.contains_iff_mem,
    List.mem_map]
  constructor
  · rintro ⟨e, mem, rfl⟩
    obtain ⟨r, hr, owned, rfl⟩ := (keys e).1 mem
    exact ⟨r, hr, owned, rfl⟩
  · rintro ⟨r, hr, owned, rfl⟩
    exact ⟨r.toEndpoint, (keys _).2 ⟨r, hr, owned, rfl⟩, rfl⟩

/-- Traffic is the requests grouped by endpoint. Statistics are kept of exactly those endpoints
that a request with an application has: the counts of the status codes of the endpoint's requests,
and the sketches that their numbers make by themselves, in their order. Endpoints and applications
are counted once, and requests without an application apart. The requests of other endpoints,
wherever they stand, make no difference. -/
theorem ofRequests_groups (requests : List Request) (e : Endpoint) :
    let t : Traffic ρ := ofRequests requests
    let own := requests.filter fun r => r.applicationId ≠ "" ∧ r.toEndpoint = e
    (t.get? e = none ↔ ¬∃ r ∈ requests, r.applicationId ≠ "" ∧ r.toEndpoint = e) ∧
      (∀ s, t.get? e = some s →
        (∀ code : ℤ, s.statusCodes[code]? =
          if own.countP (fun r => r.statusCode = code) = 0 then none
          else some (own.countP fun r => r.statusCode = code)) ∧
        s.contentLength =
          Sketch.standard.insertAll (own.map fun r => Float.ofInt r.contentLength) ∧
        s.clientDuration =
          Sketch.standard.insertAll (own.map fun r => Float.ofInt r.clientDuration) ∧
        s.serverDuration =
          Sketch.standard.insertAll (own.map fun r => Float.ofInt r.serverDuration) ∧
        s.requests = own.length) ∧
      t.size =
        ((requests.filter fun r => r.applicationId ≠ "").map Request.toEndpoint).dedup.length ∧
      t.applications.Pairwise (· < ·) ∧
      (∀ a, a ∈ t.applications ↔ ∃ r ∈ requests, r.applicationId ≠ "" ∧ r.applicationId = a) ∧
      t.discarded = requests.countP (fun r => r.applicationId = "") ∧
      ∀ others : List Request,
        (others.filter fun r => r.applicationId ≠ "" ∧ r.toEndpoint = e) = own →
          (ofRequests others).get? e = t.get? e := by
  intro t own
  have own_eq : ∀ requests : List Request, requestsOf requests e =
      requests.filter fun r => r.applicationId ≠ "" ∧ r.toEndpoint = e := by
    intro requests
    rw [requestsOf, attributed, List.filter_filter]
    refine List.filter_congr fun r _ => ?_
    simp [and_comm]
  have got : t.get? e = if own = [] then none else some (EndpointStats.ofRequests own) := by
    rw [get?_ofRequests, own_eq]
  refine ⟨?_, ?_, ?_, applications_pairwise t, mem_applications_ofRequests requests,
    discarded_ofRequests requests, ?_⟩
  · rw [got]
    simp [own, List.filter_eq_nil_iff]
  · intro s hs
    rw [got] at hs
    split_ifs at hs
    obtain rfl := Option.some.inj hs
    refine ⟨fun code => ?_, ?_, ?_, ?_, EndpointStats.requests_ofRequests own⟩
    · rw [EndpointStats.getElem?_statusCodes, List.count, List.countP_map]
      rfl
    · exact EndpointStats.sketch_ofRequests _ _ rfl (fun _ _ => rfl) own
    · exact EndpointStats.sketch_ofRequests _ _ rfl (fun _ _ => rfl) own
    · exact EndpointStats.sketch_ofRequests _ _ rfl (fun _ _ => rfl) own
  · rw [size, ← Std.TreeMap.length_keys, (keys_ofRequests_perm requests).length_eq]
    rfl
  · intro others same
    rw [got, get?_ofRequests, own_eq, same]

end Traffic

end Telemetry
