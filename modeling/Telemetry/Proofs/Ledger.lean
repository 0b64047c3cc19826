import Mathlib.Data.List.DropRight
import Telemetry.Proofs.Inbox

/-!
# The books of an inbox

An envelope leaves the books of an inbox in three ways: a reading gives way to a later one of its
identity, a reading expires, or a request does. All three can happen in one refresh, right after the
envelopes that waited are filed. Seen with everything filed, each event is one entry in the books,
so the envelopes sent are those on file, those that gave way and those that the log counts as
expired (`filed_balance`). With the envelopes that still wait, the books of the inbox itself
balance after every event (`ledger_balances`).
-/

namespace Telemetry.Inbox

/-! ## What is told -/

/-- What an event logs. -/
def Event.log (b : Inbox) : Event → List LogEntry
  | send _ _ => []
  | readReadings now => (Source.readings (InboxAt.mk b now)).log
  | readRequests now => (Source.requests (InboxAt.mk b now)).log
  | prune now => (b.update now).2

/-- What several events in turn log. -/
def runLog (b : Inbox) : List Event → List LogEntry
  | [] => []
  | e :: later => e.log b ++ runLog (e.apply b) later

/-- How many expired records log entries tell of. -/
def expiredRecords : List LogEntry → ℕ
  | [] => 0
  | .expired records :: later => records + expiredRecords later
  | _ :: later => expiredRecords later

/-- How many records are too old at an instant. -/
def overdue (b : Inbox) (now : ℤ) : ℕ :=
  b.readings.countP (fun x => x.expired b.lifetime now) +
    b.requests.toList.countP fun x => x.expired b.lifetime now

section Log

variable {b : Inbox} {e : Event} {now : ℤ}

theorem runLog_append_singleton (b : Inbox) (events : List Event) (e : Event) :
    b.runLog (events ++ [e]) = b.runLog events ++ e.log (b.run events) := by
  induction events generalizing b with
  | nil => exact List.append_nil _
  | cons first events ih =>
    rw [List.cons_append, runLog, runLog, ih, List.append_assoc]
    rfl

theorem expiredRecords_append (log later : List LogEntry) :
    expiredRecords (log ++ later) = expiredRecords log + expiredRecords later := by
  induction log with
  | nil => exact (Nat.zero_add _).symm
  | cons entry log ih =>
    cases entry with
    | expired records => rw [List.cons_append, expiredRecords, expiredRecords, ih, Nat.add_assoc]
    | skipped | scraped => exact ih

theorem log_of_refresh? (b : Inbox) (h : e.refresh? = some now) : e.log b = (b.update now).2 := by
  cases e with
  | send => cases h
  | readReadings | readRequests | prune =>
    obtain rfl := Option.some.inj h
    rfl

/-- Records are dropped for their age, and no others. -/
theorem size_dropExpired (b : Inbox) (now : ℤ) :
    (b.dropExpired now).size + b.overdue now = b.size := by
  have split : ∀ {α : Type} (xs : List (Stamped α)),
      (xs.filter fun x => !x.expired b.lifetime now).length +
        xs.countP (fun x => x.expired b.lifetime now) = xs.length := by
    intro α xs
    have parts := List.length_eq_countP_add_countP (fun x => x.expired b.lifetime now) (l := xs)
    simp only [Bool.not_eq_true, Bool.decide_eq_false] at parts
    rw [parts, ← List.countP_eq_length_filter, Nat.add_comm]
  have readings := split b.readings
  have requests := split b.requests.toList
  rw [← Array.toList_filter, Array.length_toList, Array.length_toList] at requests
  simp only [size, dropExpired, overdue]
  omega

/-- An update tells how many records it drops, if any. -/
theorem update_snd (b : Inbox) (now : ℤ) : (b.update now).2 =
    if b.fileWaiting.overdue now = 0 then [] else [.expired (b.fileWaiting.overdue now)] := by
  have dropped := size_dropExpired b.fileWaiting now
  have number : b.fileWaiting.size - (b.fileWaiting.dropExpired now).size =
      b.fileWaiting.overdue now := by omega
  rw [update, expire, number]
  rcases Nat.eq_zero_or_pos (b.fileWaiting.overdue now) with none | some
  · rw [if_pos none, none]
    rfl
  · rw [if_neg some.ne', if_pos some]

theorem expiredRecords_update (b : Inbox) (now : ℤ) :
    expiredRecords (b.update now).2 = b.fileWaiting.overdue now := by
  rw [update_snd]
  split_ifs with none
  · exact none.symm
  · exact Nat.add_zero _

end Log

/-! ## Readings that give way -/

/-- The identity of the reading that an event sends, if it sends one. -/
def Event.identity? : Event → Option Identity
  | send _ (.reading r) => some r.toIdentity
  | _ => none

/-- Whether a reading of an identity that was sent before the events is still on file when the next
one of its identity takes its place. -/
def givesWay (lifetime : ℕ) (sent : ℤ) (id : Identity) : List Event → Bool
  | [] => false
  | e :: later => e.identity? = some id || live lifetime sent [e] && givesWay lifetime sent id later

/-- How many readings are on file when the next one of their identity takes their place, if all are
filed. -/
def replaced (lifetime : ℕ) : List Event → ℕ
  | [] => 0
  | .send now (.reading r) :: later =>
    (givesWay lifetime now r.toIdentity later).toNat + replaced lifetime later
  | _ :: later => replaced lifetime later

/-- How many readings were overwritten by a later one of their identity while they were on file.
What was sent after the last refresh waits, and overwrites nothing yet. -/
def overwritten (lifetime : ℕ) (events : List Event) : ℕ :=
  replaced lifetime (events.rdropWhile fun e => e.refresh?.isNone)

/-- Whether the events neither replace a reading nor find it too old. -/
def stays (lifetime : ℕ) (x : Stamped Reading) (later : List Event) : Bool :=
  later.all (fun e => e.identity? ≠ some x.item.toIdentity) && live lifetime x.sent later

/-- The readings that stay, in the order of sending. -/
def liveReadings (lifetime : ℕ) : List Event → List (Stamped Reading)
  | [] => []
  | .send now (.reading r) :: later =>
    if stays lifetime ⟨now, r⟩ later then ⟨now, r⟩ :: liveReadings lifetime later
    else liveReadings lifetime later
  | _ :: later => liveReadings lifetime later

section Replaced

variable {now : ℤ} {e : Event}

theorem identity?_of_refresh (h : e.refresh? = some now) : e.identity? = none := by
  cases e with
  | send => cases h
  | readReadings | readRequests | prune => rfl

theorem stays_append (lifetime : ℕ) (x : Stamped Reading) (later last : List Event) :
    stays lifetime x (later ++ last) = (stays lifetime x later && stays lifetime x last) := by
  simp only [stays, List.all_append, live_append, Bool.and_assoc, Bool.and_left_comm]

theorem stays_send (lifetime : ℕ) (x : Stamped Reading) (now : ℤ) (r : Reading) :
    stays lifetime x [.send now (.reading r)] = decide (x.item.toIdentity ≠ r.toIdentity) := by
  simp [stays, live_send, Event.identity?, eq_comm]

theorem stays_request (lifetime : ℕ) (x : Stamped Reading) (now : ℤ) (r : Request) :
    stays lifetime x [.send now (.request r)] = true := rfl

theorem stays_refresh (lifetime : ℕ) (x : Stamped Reading) (h : e.refresh? = some now) :
    stays lifetime x [e] = !x.expired lifetime now := by
  rw [stays, live_refresh lifetime x h, List.all_cons, identity?_of_refresh h]
  rfl

theorem liveReadings_append (lifetime : ℕ) (events : List Event) (e : Event) :
    liveReadings lifetime (events ++ [e]) =
      ((liveReadings lifetime events).filter fun x => stays lifetime x [e]) ++
        liveReadings lifetime [e] := by
  induction events using liveReadings.induct lifetime with
  | case1 => rfl
  | case2 sent r later staying ih =>
    rw [List.cons_append, liveReadings, liveReadings, stays_append, ih, if_pos staying, staying,
      Bool.true_and, List.filter_cons]
    split_ifs <;> rfl
  | case3 sent r later staying ih =>
    have gone : stays lifetime ⟨sent, r⟩ later = false := Bool.eq_false_iff.2 staying
    rw [List.cons_append, liveReadings, liveReadings, stays_append, ih, gone, Bool.false_and,
      if_neg Bool.false_ne_true, if_neg Bool.false_ne_true]
  | case4 later x other ih =>
    rw [List.cons_append, liveReadings, liveReadings, ih]
    · exact other
    · exact other

/-- A reading gives way to the last event if it stayed until then. -/
theorem givesWay_append (lifetime : ℕ) (sent : ℤ) (r : Reading) (later : List Event) (e : Event) :
    (givesWay lifetime sent r.toIdentity (later ++ [e])).toNat =
      (givesWay lifetime sent r.toIdentity later).toNat +
        if stays lifetime ⟨sent, r⟩ later ∧ e.identity? = some r.toIdentity then 1 else 0 := by
  induction later with
  | nil =>
    by_cases same : e.identity? = some r.toIdentity <;> simp [givesWay, stays, live, same]
  | cons first later ih =>
    have split := stays_append lifetime ⟨sent, r⟩ [first] later
    rw [List.singleton_append] at split
    rw [List.cons_append, givesWay, givesWay, split]
    by_cases same : first.identity? = some r.toIdentity
    · simp [same, stays]
    · by_cases spared : live lifetime sent [first] = true
      · simpa [same, spared, stays] using ih
      · simp [same, spared, stays]

/-- The last event replaces the readings of its identity that stayed until then. -/
theorem replaced_append (lifetime : ℕ) (events : List Event) (e : Event) :
    replaced lifetime (events ++ [e]) = replaced lifetime events +
      (liveReadings lifetime events).countP fun x => e.identity? = some x.item.toIdentity := by
  induction events using liveReadings.induct lifetime with
  | case1 => rcases e with ⟨now, _ | _⟩ | _ | _ | _ <;> rfl
  | case2 sent r later staying ih =>
    have way := givesWay_append lifetime sent r later e
    rw [List.cons_append, replaced, replaced, liveReadings, if_pos staying, List.countP_cons, ih]
    simp only [staying, true_and] at way
    simp only [decide_eq_true_eq]
    omega
  | case3 sent r later staying ih =>
    have way := givesWay_append lifetime sent r later e
    rw [List.cons_append, replaced, replaced, liveReadings, if_neg staying, ih]
    rw [if_neg fun both => staying both.1] at way
    omega
  | case4 later x other ih =>
    rw [List.cons_append, replaced, replaced, liveReadings, ih]
    · exact other
    · exact other
    · exact other

theorem replaced_reading (lifetime : ℕ) (events : List Event) (now : ℤ) (r : Reading) :
    replaced lifetime (events ++ [.send now (.reading r)]) = replaced lifetime events +
      (liveReadings lifetime events).countP fun x => x.item.toIdentity = r.toIdentity := by
  rw [replaced_append]
  refine congrArg _ (List.countP_congr fun x _ => ?_)
  simp [Event.identity?, eq_comm]

theorem replaced_of_identity?_none (lifetime : ℕ) (events : List Event) (h : e.identity? = none) :
    replaced lifetime (events ++ [e]) = replaced lifetime events := by
  rw [replaced_append, h, List.countP_eq_zero.2 (by simp), Nat.add_zero]

end Replaced

/-! ## The books with everything filed -/

theorem filed_readings_eq (lifetime : ℕ) (events : List Event) :
    ((empty lifetime).run events).fileWaiting.readings = liveReadings lifetime events := by
  induction events using List.reverseRecOn with
  | nil => rfl
  | append_singleton events e ih =>
    rw [liveReadings_append, ← ih]
    rcases send_or_refresh e with ⟨now, x, rfl⟩ | ⟨now, h⟩
    · rw [filed_run_send]
      cases x with
      | reading r =>
        rw [List.filter_congr fun x _ => stays_send lifetime x now r]
        rfl
      | request r =>
        rw [List.filter_eq_self.2 fun x _ => stays_request lifetime x now r]
        exact (List.append_nil _).symm
    · rw [filed_run_refresh _ _ h, List.filter_congr fun x _ => stays_refresh lifetime x h,
        dropExpired, lifetime_filed_run]
      have silent : liveReadings lifetime [e] = [] := by
        cases e with
        | send => cases h
        | readReadings | readRequests | prune => rfl
      rw [silent, List.append_nil]
      rfl

theorem size_file_reading (b : Inbox) (now : ℤ) (r : Reading) :
    (b.file ⟨now, .reading r⟩).size +
      b.readings.countP (fun x => x.item.toIdentity = r.toIdentity) = b.size + 1 := by
  have parts := List.length_eq_countP_add_countP
    (fun x : Stamped Reading => decide (x.item.toIdentity = r.toIdentity)) (l := b.readings)
  simp only [decide_eq_true_eq] at parts
  simp only [size, file, List.length_append, List.length_singleton, ne_eq,
    ← List.countP_eq_length_filter]
  omega

theorem size_file_request (b : Inbox) (now : ℤ) (r : Request) :
    (b.file ⟨now, .request r⟩).size = b.size + 1 := by
  simp only [size, file, Array.size_push, Nat.add_assoc]

/-- How many envelopes events send: all that do not refresh do. -/
def sentBy (events : List Event) : ℕ := events.countP fun e => e.refresh?.isNone

/-- The envelopes that were sent are on file, gave way or expired. -/
theorem filed_balance (lifetime : ℕ) (events : List Event) :
    sentBy events = ((empty lifetime).run events).fileWaiting.size + replaced lifetime events +
      expiredRecords ((empty lifetime).runLog events) := by
  induction events using List.reverseRecOn with
  | nil => rfl
  | append_singleton events e ih =>
    rw [sentBy, List.countP_append, ← sentBy, ih, runLog_append_singleton, expiredRecords_append]
    rcases send_or_refresh e with ⟨now, x, rfl⟩ | ⟨now, h⟩
    · have silent : expiredRecords ((Event.send now x).log ((empty lifetime).run events)) = 0 := rfl
      have one : [Event.send now x].countP (fun e => e.refresh?.isNone) = 1 := rfl
      rw [filed_run_send, silent, one]
      cases x with
      | reading r =>
        have moved := size_file_reading ((empty lifetime).run events).fileWaiting now r
        rw [replaced_reading, ← filed_readings_eq]
        omega
      | request r =>
        have added := size_file_request ((empty lifetime).run events).fileWaiting now r
        rw [replaced_of_identity?_none lifetime events rfl]
        omega
    · have dropped := size_dropExpired ((empty lifetime).run events).fileWaiting now
      have none : [e].countP (fun e => e.refresh?.isNone) = 0 := by simp [h]
      rw [filed_run_refresh _ _ h, log_of_refresh? _ h, expiredRecords_update, none,
        replaced_of_identity?_none lifetime events (identity?_of_refresh h)]
      omega

/-! ## The books -/

theorem overwritten_send (lifetime : ℕ) (events : List Event) (now : ℤ) (x : Envelope) :
    overwritten lifetime (events ++ [.send now x]) = overwritten lifetime events := by
  rw [overwritten, List.rdropWhile_concat_pos _ _ _ rfl, overwritten]

theorem overwritten_refresh (lifetime : ℕ) (events : List Event) {e : Event} {now : ℤ}
    (h : e.refresh? = some now) :
    overwritten lifetime (events ++ [e]) = replaced lifetime (events ++ [e]) := by
  rw [overwritten, List.rdropWhile_concat_neg _ _ _ (by simp [h])]

theorem sentBy_send (events : List Event) (now : ℤ) (x : Envelope) :
    sentBy (events ++ [.send now x]) = sentBy events + 1 := List.countP_append ..

/-- An envelope that is sent waits, and what is on file stays as it is. -/
theorem balance_run (lifetime : ℕ) (events : List Event) :
    let b := (empty lifetime).run events
    sentBy events = b.waiting.size + b.size + overwritten lifetime events +
      expiredRecords ((empty lifetime).runLog events) := by
  induction events using List.reverseRecOn with
  | nil => rfl
  | append_singleton events e ih =>
    intro b
    have step : b = e.apply ((empty lifetime).run events) := run_append_singleton ..
    rcases send_or_refresh e with ⟨now, x, rfl⟩ | ⟨now, h⟩
    · have waiting : b.waiting.size = ((empty lifetime).run events).waiting.size + 1 := by
        rw [step]
        exact Array.size_push ..
      have kept : b.size = ((empty lifetime).run events).size := by
        rw [step]
        rfl
      rw [sentBy_send, ih, waiting, kept, overwritten_send, runLog_append_singleton]
      simp only [Event.log, List.append_nil]
      omega
    · -- nothing waits any more, so the books are those with everything filed
      have updated : b = (((empty lifetime).run events).update now).1 :=
        step.trans (apply_of_refresh? _ h)
      have none : b.waiting = #[] := by
        rw [updated]
        exact waiting_fileWaiting _
      have balance := filed_balance lifetime (events ++ [e])
      rw [show (empty lifetime).run (events ++ [e]) = b from rfl, fileWaiting_of_waiting none]
        at balance
      rw [balance, none, overwritten_refresh lifetime events h, Array.size_empty, Nat.zero_add]

/-- After everything that can happen to an inbox its books balance: the envelopes that were sent
wait, are on file, were overwritten by a later one of their identity while they were on file, or are
among those that the log tells of as expired. Each refresh tells how many records it drops among
those on file once everything is filed, and tells nothing if there are none. -/
theorem ledger_balances (lifetime : ℕ) (events : List Event) :
    let b := (empty lifetime).run events
    sentBy events = b.waiting.size + b.readings.length + b.requests.size +
        overwritten lifetime events + expiredRecords ((empty lifetime).runLog events) ∧
      ∀ e : Event, e.log b = e.refresh?.elim [] fun now =>
        let dropped := b.fileWaiting.overdue now
        if dropped = 0 then [] else [.expired dropped] := by
  intro b
  constructor
  · rw [balance_run, size, ← Nat.add_assoc]
  · intro e
    rcases send_or_refresh e with ⟨now, x, rfl⟩ | ⟨now, h⟩
    · rfl
    · rw [log_of_refresh? b h, update_snd, h]
      rfl

/-- One refresh that files four envelopes, of which one gives way and two expire. -/
example :
    let load : Reading := ⟨⟨"cell", "cf", "diego", "0", "10.0.0.1", "load", .empty⟩, 1, "ms"⟩
    let events : List Event :=
      [.send 0 (.reading load), .send 1 (.reading { load with value := 2 }),
        .send 2 (.request ⟨⟨"app", "0", "/", "GET"⟩, 200, 512, 7, 5⟩),
        .send 9 (.reading { load with unit := "s", name := "idle" }), .prune 13]
    overwritten 10 events = 1 ∧ (empty 10).runLog events = [.expired 2] := by
  decide

end Telemetry.Inbox
