import Mathlib.Data.Int.Notation
import Mathlib.Data.List.Induction
import Mathlib.Data.List.Nodup
import Telemetry.Inbox

/-!
# What an inbox gives back

An inbox files lazily: envelopes wait until the next read. Seen with everything filed, a run is
simpler, since sending files at once and every refresh, by a read or not, drops what is too old
(`filed_run_send`, `filed_run_refresh`). From this view follows what every run gives back: the
requests that no refresh found too old, in the order of sending, and for each identity the reading
sent last, if no refresh found that one too old (`reads_live`).
-/

namespace Telemetry.Inbox

/-! ## Filing -/

section File

variable {b : Inbox} {now : ℤ}

theorem waiting_file (b : Inbox) (e : Stamped Envelope) : (b.file e).waiting = b.waiting := by
  unfold file
  split <;> rfl

theorem lifetime_file (b : Inbox) (e : Stamped Envelope) : (b.file e).lifetime = b.lifetime := by
  unfold file
  split <;> rfl

/-- Filing all that waits leaves what filing one envelope leaves. -/
theorem fileWaiting_leaves {α : Type} (part : Inbox → α)
    (leaves : ∀ b e, part (b.file e) = part b) (b : Inbox) :
    part b.fileWaiting = part { b with waiting := #[] } := by
  rw [fileWaiting, ← Array.foldl_toList]
  generalize b.waiting.toList = es
  induction es using List.reverseRecOn with
  | nil => rfl
  | append_singleton es e ih =>
    rw [List.foldl_append, List.foldl_cons, List.foldl_nil, leaves, ih]

theorem waiting_fileWaiting (b : Inbox) : b.fileWaiting.waiting = #[] :=
  fileWaiting_leaves waiting waiting_file b

theorem lifetime_fileWaiting (b : Inbox) : b.fileWaiting.lifetime = b.lifetime :=
  fileWaiting_leaves lifetime lifetime_file b

theorem fileWaiting_of_waiting (h : b.waiting = #[]) : b.fileWaiting = b := by
  obtain ⟨lifetime, waiting, readings, requests⟩ := b
  obtain rfl : waiting = #[] := h
  rfl

/-- Filing later files what is sent last at the end. -/
theorem fileWaiting_receive (b : Inbox) (now : ℤ) (e : Envelope) :
    (b.receive now e).fileWaiting = b.fileWaiting.file ⟨now, e⟩ := by
  simp only [fileWaiting, receive, Array.foldl_push]

theorem update_fst (b : Inbox) (now : ℤ) : (b.update now).1 = b.fileWaiting.dropExpired now := rfl

theorem fileWaiting_update (b : Inbox) (now : ℤ) :
    (b.update now).1.fileWaiting = b.fileWaiting.dropExpired now :=
  fileWaiting_of_waiting (waiting_fileWaiting b)

/-- A second update at the same instant changes nothing and tells nothing. -/
theorem update_update (b : Inbox) (now : ℤ) :
    (b.update now).1.update now = ((b.update now).1, []) := by
  have filed : (b.update now).1.fileWaiting = (b.update now).1 :=
    fileWaiting_of_waiting (waiting_fileWaiting b)
  have again : (b.update now).1.dropExpired now = (b.update now).1 := by
    show (b.fileWaiting.dropExpired now).dropExpired now = b.fileWaiting.dropExpired now
    simp [dropExpired, List.filter_filter]
  rw [update, filed, expire, again]
  simp

/-- Updates tell of expired records only. -/
theorem level_of_mem_update (b : Inbox) (now : ℤ) :
    ∀ entry ∈ (b.update now).2, entry.level = .trace := by
  intro entry mem
  unfold update expire at mem
  dsimp only at mem
  split_ifs at mem
  · obtain rfl := List.mem_singleton.1 mem
    rfl
  · cases mem

end File

/-! ## Runs -/

/-- What happens to an inbox, and when. -/
inductive Event where
  | send (now : ℤ) (e : Envelope)
  | readReadings (now : ℤ)
  | readRequests (now : ℤ)
  | prune (now : ℤ)

/-- The inbox after an event. -/
def Event.apply (b : Inbox) : Event → Inbox
  | send now e => b.receive now e
  | readReadings now => (Source.readings (InboxAt.mk b now)).source.inbox
  | readRequests now => (Source.requests (InboxAt.mk b now)).source.inbox
  | prune now => (b.update now).1

/-- The instant to which an event brings the inbox up to date. Sending does not. -/
def Event.refresh? : Event → Option ℤ
  | send _ _ => none
  | readReadings now | readRequests now | prune now => some now

/-- The inbox after several events in turn. -/
def run (b : Inbox) (events : List Event) : Inbox := events.foldl Event.apply b

section Run

variable {e : Event} {now : ℤ}

theorem run_append_singleton (b : Inbox) (events : List Event) (e : Event) :
    b.run (events ++ [e]) = e.apply (b.run events) := by
  rw [run, List.foldl_append]
  rfl

theorem apply_of_refresh? (b : Inbox) (h : e.refresh? = some now) :
    e.apply b = (b.update now).1 := by
  cases e with
  | send => cases h
  | readReadings | readRequests | prune =>
    obtain rfl := Option.some.inj h
    rfl

/-- An event sends an envelope or refreshes. -/
theorem send_or_refresh (e : Event) :
    (∃ now x, e = .send now x) ∨ ∃ now, e.refresh? = some now := by
  cases e with
  | send now x => exact .inl ⟨now, x, rfl⟩
  | readReadings now | readRequests now | prune now => exact .inr ⟨now, rfl⟩

theorem filed_run_send (b : Inbox) (events : List Event) (now : ℤ) (e : Envelope) :
    (b.run (events ++ [.send now e])).fileWaiting = (b.run events).fileWaiting.file ⟨now, e⟩ := by
  rw [run_append_singleton]
  exact fileWaiting_receive ..

theorem filed_run_refresh (b : Inbox) (events : List Event) (h : e.refresh? = some now) :
    (b.run (events ++ [e])).fileWaiting = (b.run events).fileWaiting.dropExpired now := by
  rw [run_append_singleton, apply_of_refresh? _ h, fileWaiting_update]

theorem lifetime_run (b : Inbox) (events : List Event) : (b.run events).lifetime = b.lifetime := by
  induction events using List.reverseRecOn with
  | nil => rfl
  | append_singleton events e ih =>
    rw [run_append_singleton, ← ih]
    cases e with
    | send => rfl
    | readReadings | readRequests | prune => exact lifetime_fileWaiting _

theorem lifetime_filed_run (b : Inbox) (events : List Event) :
    (b.run events).fileWaiting.lifetime = b.lifetime := by
  rw [lifetime_fileWaiting, lifetime_run]

end Run

/-! ## What is live -/

/-- Whether no refresh after the sending found an item too old. -/
def live (lifetime : ℕ) (sent : ℤ) (later : List Event) : Bool :=
  (later.filterMap Event.refresh?).all fun now => decide ((now - sent).toNat ≤ lifetime)

/-- The requests that are live after all events, in the order of sending. -/
def liveRequests (lifetime : ℕ) : List Event → List (Stamped Request)
  | [] => []
  | .send now (.request r) :: later =>
    if live lifetime now later then ⟨now, r⟩ :: liveRequests lifetime later
    else liveRequests lifetime later
  | _ :: later => liveRequests lifetime later

/-- The event sends a reading of an identity. -/
def Event.Replaces (id : Identity) (e : Event) : Prop :=
  ∃ now r, e = .send now (.reading r) ∧ r.toIdentity = id

/-- A reading that was sent last of its identity, and is live after all events. -/
def LastLive (lifetime : ℕ) (events : List Event) (x : Stamped Reading) : Prop :=
  ∃ earlier later, events = earlier ++ .send x.sent (.reading x.item) :: later ∧
    (∀ e ∈ later, ¬e.Replaces x.item.toIdentity) ∧ live lifetime x.sent later

section Live

variable {now : ℤ} {e : Event}

theorem live_append (lifetime : ℕ) (sent : ℤ) (later last : List Event) :
    live lifetime sent (later ++ last) = (live lifetime sent later && live lifetime sent last) := by
  rw [live, List.filterMap_append, List.all_append, live, live]

theorem live_send (lifetime : ℕ) (sent now : ℤ) (x : Envelope) :
    live lifetime sent [.send now x] = true := rfl

theorem live_refresh {α : Type} (lifetime : ℕ) (x : Stamped α) (h : e.refresh? = some now) :
    live lifetime x.sent [e] = !x.expired lifetime now := by
  rw [live, List.filterMap_cons_some h, List.filterMap_nil, List.all_cons, List.all_nil,
    Bool.and_true, Stamped.expired, Stamped.age, ← decide_not]
  exact decide_eq_decide.2 Nat.not_lt.symm

theorem liveRequests_append (lifetime : ℕ) (events : List Event) (e : Event) :
    liveRequests lifetime (events ++ [e]) =
      ((liveRequests lifetime events).filter fun x => live lifetime x.sent [e]) ++
        liveRequests lifetime [e] := by
  induction events using liveRequests.induct lifetime with
  | case1 => rfl
  | case2 sent r later isLive ih =>
    rw [List.cons_append, liveRequests, liveRequests, live_append, ih, if_pos isLive, isLive,
      Bool.true_and, List.filter_cons]
    split_ifs <;> rfl
  | case3 sent r later isLive ih =>
    have expired : live lifetime sent later = false := Bool.eq_false_iff.2 isLive
    rw [List.cons_append, liveRequests, liveRequests, live_append, ih, expired, Bool.false_and,
      if_neg Bool.false_ne_true, if_neg Bool.false_ne_true]
  | case4 later x other ih =>
    rw [List.cons_append, liveRequests, liveRequests, ih]
    · exact other
    · exact other

theorem lastLive_append_iff {lifetime : ℕ} {events : List Event} {x : Stamped Reading} :
    LastLive lifetime (events ++ [e]) x ↔ e = .send x.sent (.reading x.item) ∨
      LastLive lifetime events x ∧ ¬e.Replaces x.item.toIdentity ∧ live lifetime x.sent [e] := by
  constructor
  · rintro ⟨earlier, later, eq, last, isLive⟩
    rcases later.eq_nil_or_concat' with rfl | ⟨later, e', rfl⟩
    · exact .inl (List.singleton_inj.1 (List.append_inj' eq rfl).2)
    · rw [← List.cons_append, ← List.append_assoc] at eq
      obtain ⟨init, final⟩ := List.append_inj' eq rfl
      obtain rfl := List.singleton_inj.1 final
      obtain ⟨last, last'⟩ := List.forall_mem_append.1 last
      rw [live_append, Bool.and_eq_true] at isLive
      exact .inr ⟨⟨earlier, later, init, last, isLive.1⟩, last' e List.mem_cons_self, isLive.2⟩
  · rintro (rfl | ⟨⟨earlier, later, rfl, last, isLive⟩, not_replaced, spared⟩)
    · exact ⟨events, [], rfl, by simp, rfl⟩
    · refine ⟨earlier, later ++ [e], by simp, ?_, ?_⟩
      · exact List.forall_mem_append.2 ⟨last, List.forall_mem_singleton.2 not_replaced⟩
      · rw [live_append, isLive, spared, Bool.and_self]

theorem replaces_reading (now : ℤ) (r : Reading) (id : Identity) :
    (Event.send now (.reading r)).Replaces id ↔ r.toIdentity = id := by
  constructor
  · rintro ⟨_, _, eq, rfl⟩
    cases eq
    rfl
  · exact fun h => ⟨now, r, rfl, h⟩

theorem not_replaces_request (now : ℤ) (r : Request) (id : Identity) :
    ¬(Event.send now (.request r)).Replaces id := by
  rintro ⟨_, _, eq, -⟩
  cases eq

theorem not_replaces_of_refresh (h : e.refresh? = some now) (id : Identity) : ¬e.Replaces id := by
  rintro ⟨_, _, rfl, -⟩
  cases h

end Live

/-! ## What is filed -/

section Filed

variable {now : ℤ} {e : Event}

theorem liveRequests_of_refresh (lifetime : ℕ) (h : e.refresh? = some now) :
    liveRequests lifetime [e] = [] := by
  cases e with
  | send => cases h
  | readReadings | readRequests | prune => rfl

theorem filed_requests (lifetime : ℕ) (events : List Event) :
    ((empty lifetime).run events).fileWaiting.requests.toList = liveRequests lifetime events := by
  induction events using List.reverseRecOn with
  | nil => rfl
  | append_singleton events e ih =>
    rw [liveRequests_append, ← ih]
    rcases send_or_refresh e with ⟨now, x, rfl⟩ | ⟨now, h⟩
    · rw [filed_run_send, List.filter_eq_self.2 fun _ _ => live_send ..]
      cases x with
      | reading r => simp [file, liveRequests]
      | request r => simp [file, liveRequests, live]
    · rw [filed_run_refresh _ _ h, liveRequests_of_refresh lifetime h, List.append_nil,
        List.filter_congr fun x _ => live_refresh lifetime x h, dropExpired, lifetime_filed_run,
        Array.toList_filter]
      rfl

/-- The readings on file, one for each identity, are those sent last that are live. -/
theorem filed_readings (lifetime : ℕ) (events : List Event) :
    (((empty lifetime).run events).fileWaiting.readings.map fun x => x.item.toIdentity).Nodup ∧
      ∀ x, x ∈ ((empty lifetime).run events).fileWaiting.readings ↔ LastLive lifetime events x := by
  induction events using List.reverseRecOn with
  | nil =>
    refine ⟨List.nodup_nil, fun x => iff_of_false List.not_mem_nil ?_⟩
    rintro ⟨earlier, later, eq, -⟩
    simp at eq
  | append_singleton events e ih =>
    obtain ⟨nodup, mem⟩ := ih
    rcases send_or_refresh e with ⟨now, x, rfl⟩ | ⟨now, h⟩
    · rw [filed_run_send]
      cases x with
      | reading r =>
        constructor
        · simp only [file, List.map_append]
          refine List.nodup_append.2 ⟨nodup.sublist (List.filter_sublist.map _),
            List.nodup_singleton _, ?_⟩
          intro id hid id' hid'
          obtain ⟨x, hx, rfl⟩ := List.mem_map.1 hid
          obtain rfl := List.mem_singleton.1 hid'
          exact of_decide_eq_true (List.mem_filter.1 hx).2
        · rintro ⟨sent, item⟩
          rw [lastLive_append_iff, ← mem, live_send, replaces_reading]
          simp only [file, List.mem_append, List.mem_filter, List.mem_singleton, decide_eq_true_eq,
            Event.send.injEq, Envelope.reading.injEq, Stamped.mk.injEq, and_true]
          rw [or_comm, eq_comm, eq_comm (a := item), ne_comm]
      | request r =>
        refine ⟨nodup, fun x => ?_⟩
        rw [lastLive_append_iff, ← mem x]
        simp [file, not_replaces_request, live_send]
    · rw [filed_run_refresh _ _ h]
      refine ⟨nodup.sublist (List.filter_sublist.map _), fun x => ?_⟩
      rw [lastLive_append_iff, ← mem x, live_refresh lifetime x h, dropExpired, lifetime_filed_run,
        List.mem_filter]
      have not_sent : e ≠ .send x.sent (.reading x.item) := by
        rintro rfl
        cases h
      simp only [not_sent, not_replaces_of_refresh h, not_false_eq_true, false_or, true_and]
      rfl

end Filed

/-! ## What reads give -/

/-- How many envelopes were sent since the last refresh. -/
def sentSinceRefresh (events : List Event) : ℕ :=
  (events.reverse.takeWhile fun e => e.refresh?.isNone).length

theorem size_waiting_run (lifetime : ℕ) (events : List Event) :
    ((empty lifetime).run events).waiting.size = sentSinceRefresh events := by
  induction events using List.reverseRecOn with
  | nil => rfl
  | append_singleton events e ih =>
    rw [run_append_singleton, sentSinceRefresh, List.reverse_append]
    rcases send_or_refresh e with ⟨now, x, rfl⟩ | ⟨now, h⟩
    · change (((empty lifetime).run events).waiting.push _).size = _
      rw [Array.size_push, ih]
      rfl
    · rw [apply_of_refresh? _ h, update_fst]
      change ((empty lifetime).run events).fileWaiting.waiting.size = _
      rw [waiting_fileWaiting]
      simp [h]

theorem update_run (b : Inbox) (events : List Event) {e : Event} {now : ℤ}
    (h : e.refresh? = some now) :
    ((b.run events).update now).1 = (b.run (events ++ [e])).fileWaiting := by
  rw [filed_run_refresh b events h, update_fst]

/-- Whatever happened to an inbox, a read gives back exactly what is live, the read itself counted
as a refresh: the live requests in the order of sending, and one reading of each identity whose
reading sent last is live, namely that one. Until the next refresh envelopes wait. -/
theorem reads_live (lifetime : ℕ) (events : List Event) (now : ℤ) :
    let inbox := (empty lifetime).run events
    let readings := (Source.readings (InboxAt.mk inbox now)).value
    (Source.requests (InboxAt.mk inbox now)).value =
        (liveRequests lifetime (events ++ [.readRequests now])).map Stamped.item ∧
      (readings.map Reading.toIdentity).Nodup ∧
      (∀ r, r ∈ readings ↔
        ∃ sent, LastLive lifetime (events ++ [.readReadings now]) ⟨sent, r⟩) ∧
      inbox.waiting.size = sentSinceRefresh events := by
  intro inbox readings
  have requests_eq : (Source.requests (InboxAt.mk inbox now)).value =
      (inbox.update now).1.requests.toList.map Stamped.item := rfl
  have readings_eq : readings = (inbox.update now).1.readings.map Stamped.item := rfl
  obtain ⟨nodup, mem⟩ := filed_readings lifetime (events ++ [.readReadings now])
  rw [← update_run (e := .readReadings now) _ events rfl] at nodup mem
  refine ⟨?_, ?_, fun r => ?_, size_waiting_run lifetime events⟩
  · rw [requests_eq, update_run (e := .readRequests now) _ events rfl, filed_requests]
  · rw [readings_eq, List.map_map]
    exact nodup
  · rw [readings_eq, List.mem_map]
    constructor
    · rintro ⟨x, hx, rfl⟩
      exact ⟨x.sent, (mem x).1 hx⟩
    · rintro ⟨sent, last⟩
      exact ⟨⟨sent, r⟩, (mem _).2 last, rfl⟩

end Telemetry.Inbox
