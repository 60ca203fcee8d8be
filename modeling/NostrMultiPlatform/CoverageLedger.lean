import NostrMultiPlatform.NegentropyExits

/-!
# The coverage ledger of a wire subscription

A completed reconciliation records that its relay is covered up to now; an EOSE does
where the registered filter has no floor. Both are played out beside the relays: what
they hold, what they were asked, and what has been stored.
-/
namespace CoverageLedger

open NegentropyFilter NegentropySync StoreEvent Tables

variable {ρ : Type}

/-- A filter hash and a relay, covered through a second. -/
abbrev Ledger := Table (String × String) Nat

/-- The hash in the id of a planner subscription. -/
def filterHash (subId : String) : Option String :=
  if "sub-".toList <+: subId.toList then some (String.ofList (subId.toList.drop 4)) else none

variable (coverage : Ledger)

def recordCoverage (filterHash relay : String) (coveredThrough : Nat) : Ledger :=
  if (coverage.lookup (filterHash, relay)).getD 0 < coveredThrough then
    coverage.insert (filterHash, relay) coveredThrough
  else coverage

def recordCoverageComplete (subId relayUrl : String) (coveredThrough : Nat) : Ledger :=
  match filterHash subId with
  | none => coverage
  | some hash => recordCoverage coverage hash relayUrl coveredThrough

/-- The reconciliation ran without a floor. -/
def recordNegDoneCoverage (subId relayUrl : String) (now : Nat) : Ledger :=
  recordCoverageComplete coverage subId relayUrl now

/-- What an EOSE covers, by the floor of the registered filter. -/
def eoseCovers (sinceFloor : Option Nat) (now : Nat) : Nat :=
  match sinceFloor with
  | none | some 0 => now
  | some (_ + 1) => 0

def recordEoseCoverage (subId relayUrl : String) (sinceFloor : Option Nat) (now : Nat) : Ledger :=
  recordCoverageComplete coverage subId relayUrl (eoseCovers sinceFloor now)

def coverageFloor (filterHash relayUrl : String) : Option Nat :=
  coverage.lookup (filterHash, relayUrl)

/-- The floors of the open subscriptions, and those that stay open at an EOSE. -/
structure Wire where
  subs : Table Key (Option Nat)
  persistent : List Key

/-- `since` of a filter text, where it is an unsigned number. -/
def sinceOf (c : Crates ρ) (filterJson : String) : Option Nat :=
  match c.parse filterJson with
  | some (.object rows) =>
    match rows.lookup "since" with
    | some (.uint n) => some n
    | _ => none
  | _ => none

namespace Wire

def registerReq (c : Crates ρ) (wire : Wire) (ctx : ReqFrameContext) : Wire where
  subs := wire.subs.insert (ctx.relayUrl, ctx.subId) (sinceOf c ctx.filterJson)
  persistent :=
    match ctx.lifecycle with
    | .tailing => (ctx.relayUrl, ctx.subId) :: wire.persistent
    | .oneShot => wire.persistent

/-- `complete_rewritten_wire_sub`, and what a planner CLOSE does. -/
def complete (wire : Wire) (key : Key) : Wire :=
  ⟨wire.subs.erase key, wire.persistent.filter (· ≠ key)⟩

def keepLive (wire : Wire) (key : Key) : Bool :=
  key.2 == "seed-timeline" || decide ("seed-timeline-".toList <+: key.2.toList) ||
    decide ("diag-firehose-".toList <+: key.2.toList) || wire.persistent.contains key

end Wire

/-- One completion that advances the ledger: what it covers, the filter it is about, the ids it
still needs, and what the relay holds then. -/
structure Recording where
  hash : String
  relay : String
  through : Nat
  filter : Option String
  need : List Id
  held : List RawEvent

/-- The runtime, the subscriptions and the ledger; what the relays hold and what is stored; and as
history what was last asked under a key, how its last reconciliation was opened, and the
recordings. -/
structure World (ρ : Type) where
  runtime : Runtime ρ
  wire : Wire
  coverage : Ledger
  held : String → List RawEvent
  stored : List Id
  sent : Table Key Frame
  opened : Table Key (String × List SyncedItem)
  recordings : List Recording

def World.new (threshold : Nat) : World ρ :=
  ⟨.new threshold, ⟨∅, []⟩, ∅, fun _ => [], [], ∅, ∅, []⟩

/-- A planner REQ or CLOSE, what a relay says, the clock, a relay that gets an event, and an event
that is delivered and stored. -/
inductive Input where
  | req (ctx : ReqFrameContext) (store : EventStore) (now : Nat)
  | close (relayUrl subId : String)
  | text (relayUrl text : String) (now : Nat)
  | tick (now : Nat)
  | eose (relayUrl subId : String) (now : Nat)
  | publish (relayUrl : String) (event : RawEvent)
  | arrive (event : RawEvent)

/-- The session that the text completes, and the ids it needs. -/
def completed (c : Crates ρ) (rt : Runtime ρ) (relayUrl text : String) :
    Option (Session ρ × List Id) :=
  match c.relayMessage text with
  | some (.negMsg subId message) =>
    match rt.sessions.lookup (relayUrl, subId), hexDecodeSizeLimited message with
    | some s, .ok msg =>
      match (s.reconciler.reconcile c msg).1 with
      | some (.done _ need) => some (s, need)
      | _ => none
    | _, _ => none
  | _ => none

/-- The filter and the items that a reconciliation is opened with. -/
def opening (c : Crates ρ) (rt : Runtime ρ) (ctx : ReqFrameContext) (store : EventStore) :
    Option (String × List SyncedItem) :=
  (rt.candidate c ctx).bind fun filter =>
    (filter.unfloored.localItems store).toOption.map fun items =>
      (c.render (.object filter.unfloored.rows), items)

namespace World

variable (w : World ρ)

/-- The filter of the REQ that is open under the key. -/
def openFilter (key : Key) : Option String :=
  match w.sent.lookup key with
  | some (.req _ text) => some text
  | _ => none

def recording (subId relayUrl : String) (through : Nat) (filter : Option String)
    (need : List Id) : List Recording :=
  if 0 < through then
    (filterHash subId).toList.map fun hash =>
      ⟨hash, relayUrl, through, filter, need, w.held relayUrl⟩
  else []

def perform (w : World ρ) : Effect → World ρ
  | .call (.recordNegDoneCoverage subId relayUrl now) =>
    { w with coverage := recordNegDoneCoverage w.coverage subId relayUrl now }
  | .call (.completeRewrittenWireSub relayUrl subId) =>
    { w with wire := w.wire.complete (relayUrl, subId) }
  | .call (.setNegentropyProbeState _ _) => w
  | .call (.setNegentropySyncStats _ _ _ _) => w
  | .send ⟨_, relayUrl, .req subId text⟩ =>
    { w with sent := w.sent.insert (relayUrl, subId) (.req subId text) }
  | .send ⟨_, relayUrl, .idsReq subId ids⟩ =>
    { w with sent := w.sent.insert (relayUrl, subId) (.idsReq subId ids) }
  | .send ⟨_, _, .negOpen _ _ _⟩ => w
  | .send ⟨_, _, .negMsg _ _⟩ => w
  | .send ⟨_, _, .negClose _⟩ => w

def performAll (effects : List Effect) : World ρ := effects.foldl perform w

variable (c : Crates ρ)

/-- The planner's frame: registered, then reconciled or sent as it is. -/
def onReq (ctx : ReqFrameContext) (store : EventStore) (now : Nat) : World ρ :=
  match w.runtime.interceptReq c ctx store now with
  | some out =>
    performAll
      { w with
        wire := w.wire.registerReq c ctx
        runtime := out.1
        opened := (opening c w.runtime ctx store).elim w.opened
          (w.opened.insert (ctx.relayUrl, ctx.subId)) } out.2
  | none =>
    { w with
      wire := w.wire.registerReq c ctx
      sent := w.sent.insert (ctx.relayUrl, ctx.subId) (.req ctx.subId ctx.filterJson) }

def onText (relayUrl text : String) (now : Nat) : World ρ :=
  performAll
    { w with
      runtime := (w.runtime.onRelayText c relayUrl text now).1
      recordings := w.recordings ++ (completed c w.runtime relayUrl text).elim [] fun done =>
        w.recording done.1.subId relayUrl now (some done.1.filterJson) done.2 }
    (w.runtime.onRelayText c relayUrl text now).2

/-- Nothing is recorded for a subscription that is not registered. -/
def handleEose (relayUrl subId : String) (now : Nat) : World ρ :=
  match w.wire.subs.lookup (relayUrl, subId) with
  | none => w
  | some floor =>
    { w with
      coverage := recordEoseCoverage w.coverage subId relayUrl floor now
      recordings := w.recordings ++ w.recording subId relayUrl (eoseCovers floor now)
        (w.openFilter (relayUrl, subId)) []
      wire :=
        if w.wire.keepLive (relayUrl, subId) then w.wire
        else { w.wire with subs := w.wire.subs.erase (relayUrl, subId) } }

def step (w : World ρ) : Input → World ρ
  | .req ctx store now => w.onReq c ctx store now
  | .close relayUrl subId => { w with wire := w.wire.complete (relayUrl, subId) }
  | .text relayUrl text now => w.onText c relayUrl text now
  | .tick now =>
    performAll { w with runtime := (w.runtime.onIdleTick now).1 } (w.runtime.onIdleTick now).2
  | .eose relayUrl subId now => w.handleEose relayUrl subId now
  | .publish relayUrl event =>
    { w with held := fun url => if url = relayUrl then event :: w.held url else w.held url }
  | .arrive event => { w with stored := (hexToBytes32 event.id).toList ++ w.stored }

end World

end CoverageLedger
