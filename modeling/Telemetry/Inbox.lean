import Telemetry.Source

/-!
# The inbox

An inbox receives envelopes, each with the instant of its sending, and files them whenever it is
read. It keeps the latest reading of each identity and all requests, and at every read drops what
was sent too long ago. Instants and durations are counted in nanoseconds; instants may lie on
either side of the first.
-/

namespace Telemetry

/-- Something with the instant at which it was sent. -/
structure Stamped (α : Type) where
  sent : Int
  item : α
  deriving DecidableEq

namespace Stamped

variable {α : Type}

/-- How long ago something was sent. What is sent only after `now` has no age. -/
def age (x : Stamped α) (now : Int) : Nat := (now - x.sent).toNat

/-- Whether something is older than `lifetime`. -/
def expired (lifetime : Nat) (now : Int) (x : Stamped α) : Bool := decide (lifetime < x.age now)

end Stamped

/-- The envelopes that wait and the records that are kept. -/
structure Inbox where
  /-- How long a record is kept. -/
  lifetime : Nat
  /-- The envelopes that were received but not filed yet, in order of sending. -/
  waiting : Array (Stamped Envelope)
  /-- The latest reading of each identity. -/
  readings : List (Stamped Reading)
  /-- The requests in order of sending. -/
  requests : Array (Stamped Request)
  deriving DecidableEq

namespace Inbox

/-- An inbox that has received nothing. -/
def empty (lifetime : Nat) : Inbox := ⟨lifetime, #[], [], #[]⟩

/-- Receives an envelope that is sent at an instant. -/
def receive (b : Inbox) (now : Int) (e : Envelope) : Inbox :=
  { b with waiting := b.waiting.push ⟨now, e⟩ }

/-- Files one envelope. A reading takes the place of an older one of its identity. -/
def file (b : Inbox) (e : Stamped Envelope) : Inbox :=
  match e.item with
  | .reading r =>
    let others := b.readings.filter fun old => old.item.toIdentity ≠ r.toIdentity
    { b with readings := others ++ [⟨e.sent, r⟩] }
  | .request r => { b with requests := b.requests.push ⟨e.sent, r⟩ }

/-- Files all envelopes that wait, in order. -/
def fileWaiting (b : Inbox) : Inbox :=
  b.waiting.foldl file { b with waiting := #[] }

/-- The number of records kept. -/
def size (b : Inbox) : Nat := b.readings.length + b.requests.size

/-- Drops the records that are too old at an instant. -/
def dropExpired (b : Inbox) (now : Int) : Inbox :=
  { b with
    readings := b.readings.filter fun x => !x.expired b.lifetime now
    requests := b.requests.filter fun x => !x.expired b.lifetime now }

/-- Drops the records that are too old at an instant, and logs how many there were, if any. -/
def expire (b : Inbox) (now : Int) : Inbox × List LogEntry :=
  let kept := b.dropExpired now
  let dropped := b.size - kept.size
  (kept, if 0 < dropped then [.expired dropped] else [])

/-- Files what waits, then drops what is too old at an instant. -/
def update (b : Inbox) (now : Int) : Inbox × List LogEntry := b.fileWaiting.expire now

end Inbox

/-- An inbox read at a given instant. -/
structure InboxAt where
  inbox : Inbox
  now : Int

/-- Every read brings the inbox up to date first. -/
instance : Source InboxAt where
  readings s :=
    let (inbox, log) := s.inbox.update s.now
    ⟨inbox.readings.map Stamped.item, log, { s with inbox }⟩
  requests s :=
    let (inbox, log) := s.inbox.update s.now
    ⟨inbox.requests.toList.map Stamped.item, log, { s with inbox }⟩

/-! ## Feeding an inbox -/

/-- Why an envelope could not be sent. -/
inductive FeedError where
  | disconnected
  deriving DecidableEq, Repr

namespace FeedError

def message : FeedError → String
  | disconnected => "store is no longer receiving envelopes"

end FeedError

/-- The way to an inbox, which may be gone. -/
structure Feed where
  inbox? : Option Inbox

namespace Feed

/-- Sends an envelope at an instant. -/
def send (f : Feed) (now : Int) (e : Envelope) : Except FeedError Feed :=
  match f.inbox? with
  | some inbox => .ok ⟨some (inbox.receive now e)⟩
  | none => .error .disconnected

/-- The way to an inbox that was taken down. -/
def closed : Feed := ⟨none⟩

end Feed

end Telemetry
