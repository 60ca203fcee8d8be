import NostrMultiPlatform.JobLog
import NostrMultiPlatform.PublishState
import NostrMultiPlatform.Tables

/-!
# The publish engine

One row per handle in flight with a state for each targeted relay, the relays
that cannot take a dispatch, the terminals recorded for the host, and the durable
records behind the store. What a call meets outside the engine (resolver, blocked
relays, dispatcher, store errors, iteration orders) is a `World`. The log lists
what the engine did; the code keeps no such list.
-/
namespace PublishEngine

open JobLog PublishState Sorted Tables

abbrev PublishHandle : Type := String

structure SignedEvent where
  id : String
  sig : String
  pubkey : String
  kind : Nat
  tags : List (List String)
  content : String
  createdAt : Nat
  deriving DecidableEq, Repr

inductive PublishRouteClass where
  | manualOverride | groupHostPin | verifiedPrivateInbox | importedOrPresigned | diagnostic
  deriving DecidableEq, Repr

inductive PublishTarget where
  | auto
  | explicit (relays : List RelayUrl) (routeClass : PublishRouteClass)
  deriving DecidableEq, Repr

inductive RelaySelectionReason where
  | authorWriteRelay
  | localConfigRelay
  | discoveryIndexer (kind : Nat)
  | recipientInbox (pubkey : String)
  | explicit (routeClass : PublishRouteClass)
  deriving DecidableEq, Repr

structure ResolvedRelay where
  url : RelayUrl
  reason : RelaySelectionReason
  deriving DecidableEq, Repr

/-- The `EVENT` frame of an event. -/
inductive Frame where
  | event (event : SignedEvent)
  deriving DecidableEq, Repr

def buildEventFrame (event : SignedEvent) : Frame := .event event

def kindChatMessage : Nat := 14
def kindGiftWrap : Nat := 1059

def isPrivateFailClosed (kind : Nat) : Bool := kind = kindGiftWrap || kind = kindChatMessage

/-- A private envelope goes only to a relay pinned as a verified private inbox. -/
def relayEmitIsSanctioned (kind : Nat) (reasons : List RelaySelectionReason) : Bool :=
  !isPrivateFailClosed kind || decide (.explicit .verifiedPrivateInbox ∈ reasons)

/-- The values of `p` tags, each once and in order. -/
def collectPTags (event : SignedEvent) : List String :=
  (SortedSet.ofList (event.tags.filterMap fun tag =>
    match tag with
    | "p" :: value :: _ => some value
    | _ => none)).elems

structure InFlight where
  event : SignedEvent
  target : PublishTarget
  perRelay : SortedMap RelayUrl PerRelayState
  relayReasons : SortedMap RelayUrl (List RelaySelectionReason)
  pendingRetries : SortedMap RelayUrl Nat
  correlationIdOverride : Option String
  deriving DecidableEq

structure PublishRecord where
  handle : PublishHandle
  event : SignedEvent
  target : PublishTarget
  perRelay : List (RelayUrl × PerRelayState)
  pendingRetries : List (RelayUrl × Nat)
  relayReasons : List (RelayUrl × List RelaySelectionReason)
  deriving DecidableEq

structure TerminalOutcome where
  eventId : String
  accepted : List RelayUrl
  failed : List (RelayUrl × String)
  relayReasons : SortedMap RelayUrl (List RelaySelectionReason)
  deriving DecidableEq

inductive PublishQueueTerminal where
  | settled (outcome : TerminalOutcome)
  | cancelled (eventId : String)
  | none
  deriving DecidableEq

structure LastTerminal where
  correlationId : String
  status : String
  error : Option String
  eventId : Option String
  publishQueue : PublishQueueTerminal
  deriving DecidableEq

inductive PublishStoreError where
  | notFound
  | backend (message : String)
  deriving DecidableEq, Repr

inductive PublishEngineError where
  | duplicateHandle (handle : PublishHandle)
  | noTargets
  | store (error : PublishStoreError)
  | unsupportedAction (name : String)
  deriving DecidableEq, Repr

/-- Only the pre-signed variant is serviced; the others are signed and published by the actor. -/
inductive PublishAction where
  | publish (handle : PublishHandle) (event : SignedEvent) (target : PublishTarget)
  | publishProfile
  | publishRaw
  | publishReply
  deriving DecidableEq, Repr

/-- Records filed under their own handle. -/
structure PublishStore where
  rows : Table PublishHandle PublishRecord
  keyed : ∀ handle record, rows.lookup handle = some record → record.handle = handle

def PublishStore.empty : PublishStore := ⟨∅, fun _ _ h => by simp at h⟩

def PublishStore.upsert (store : PublishStore) (record : PublishRecord) : PublishStore where
  rows := store.rows.insert record.handle record
  keyed := by
    intro handle found h
    rw [lookup_insert_eq] at h
    split at h
    next heq => exact Option.some.inj h ▸ heq.symm
    next => exact store.keyed handle found h

def PublishStore.delete (store : PublishStore) (handle : PublishHandle) : PublishStore where
  rows := store.rows.erase handle
  keyed := by
    intro other found h
    rw [lookup_erase_eq] at h
    split at h
    next => cases h
    next => exact store.keyed other found h

abbrev LogEntry : Type := Entry PublishHandle RelayUrl PerRelayState LastTerminal

inductive StoreCall where
  | upsert (record : PublishRecord)
  | delete (handle : PublishHandle)
  | loadPending

/-- What the engine meets outside itself during one call. -/
structure World where
  blockedRelays : String → List RelayUrl
  resolve : String → List String → PublishTarget → Nat → List RelayUrl → List ResolvedRelay
  dispatch : List LogEntry → RelayUrl → Frame → List RelayAck
  storeError : List LogEntry → StoreCall → Option PublishStoreError
  rowOrder : Table PublishHandle InFlight → List PublishHandle
  rowOrder_perm : ∀ rows, (rowOrder rows).Perm rows.keys
  loadOrder : Table PublishHandle PublishRecord → List PublishHandle
  loadOrder_perm : ∀ rows, (loadOrder rows).Perm rows.keys

/-- No call to the store fails. -/
def World.Reliable (w : World) : Prop := ∀ log call, w.storeError log call = none

structure PublishEngine where
  inFlight : Table PublishHandle InFlight
  /-- `some` since when the connection is lost; `none` while a relay is parked for authentication. -/
  unavailableRelays : SortedMap RelayUrl (Option Nat)
  policy : RetryPolicy
  pendingTerminals : List LastTerminal
  store : PublishStore
  log : List LogEntry

def PublishEngine.new (policy : RetryPolicy) (store : PublishStore) : PublishEngine :=
  ⟨∅, ∅, policy, [], store, []⟩

def InFlight.setState (row : InFlight) (url : RelayUrl) (state : PerRelayState) : InFlight :=
  { row with perRelay := row.perRelay.insert url state }

def InFlight.clearRetry (row : InFlight) (url : RelayUrl) : InFlight :=
  { row with pendingRetries := row.pendingRetries.erase url }

def InFlight.reasonsOf (row : InFlight) (url : RelayUrl) : List RelaySelectionReason :=
  (row.relayReasons.lookup url).getD []

def InFlight.sanctioned (row : InFlight) (url : RelayUrl) : Bool :=
  relayEmitIsSanctioned row.event.kind (row.reasonsOf url)

def isComplete (row : InFlight) : Bool := row.perRelay.rows.all fun r => r.2.isTerminal

def hasAnyAccepted (row : InFlight) : Bool := row.perRelay.rows.any fun r => r.2.isOk

def acceptedOf (row : InFlight) : List RelayUrl :=
  row.perRelay.rows.filterMap fun r =>
    match r.2 with
    | .ok _ => some r.1
    | _ => none

def failedOf (row : InFlight) : List (RelayUrl × String) :=
  row.perRelay.rows.filterMap fun r =>
    match r.2 with
    | .failedAfterRetries reason _ => some (r.1, reason)
    | _ => none

def terminalOutcomeOf (row : InFlight) : TerminalOutcome :=
  ⟨row.event.id, acceptedOf row, failedOf row, row.relayReasons⟩

def failureText (failed : List (RelayUrl × String)) : String :=
  if failed = [] then "publish failed: no relays settled"
  else "; ".intercalate (failed.map fun f => f.1 ++ ": " ++ f.2)

def LastTerminal.fromOutcome (handle : PublishHandle) (correlationIdOverride : Option String)
    (outcome : TerminalOutcome) : LastTerminal where
  correlationId := correlationIdOverride.getD handle
  status := if outcome.accepted = [] then "failed" else "ok"
  error := if outcome.accepted = [] then some (failureText outcome.failed) else none
  eventId := some outcome.eventId
  publishQueue := .settled outcome

def recordOf (handle : PublishHandle) (row : InFlight) : PublishRecord :=
  ⟨handle, row.event, row.target, row.perRelay.rows, row.pendingRetries.rows,
    row.relayReasons.rows⟩

def setRow (s : PublishEngine) (handle : PublishHandle) (row : InFlight) : PublishEngine :=
  { s with inFlight := s.inFlight.insert handle row }

def logged (s : PublishEngine) (e : LogEntry) : PublishEngine := { s with log := s.log ++ [e] }

def upsert (w : World) (record : PublishRecord) (s : PublishEngine) :
    PublishEngine × Option PublishStoreError :=
  match w.storeError s.log (.upsert record) with
  | some error => (s, some error)
  | none => ({ s with store := s.store.upsert record }, none)

/-- The store's delete; callers ignore its error. -/
def delete (w : World) (handle : PublishHandle) (s : PublishEngine) : PublishEngine :=
  match w.storeError s.log (.delete handle) with
  | some _ => s
  | none => { s with store := s.store.delete handle }

def persist (w : World) (handle : PublishHandle) (s : PublishEngine) :
    PublishEngine × Option PublishStoreError :=
  match s.inFlight.lookup handle with
  | none => (s, none)
  | some row => upsert w (recordOf handle row) s

def recordTerminal (handle : PublishHandle) (terminal : LastTerminal) (s : PublishEngine) :
    PublishEngine :=
  logged { s with pendingTerminals := s.pendingTerminals ++ [terminal] } (.ended handle terminal)

/-- Terminal verdict, durable delete and eviction of a complete row. -/
def settleRow (w : World) (handle : PublishHandle) (row : InFlight) (s : PublishEngine) :
    PublishEngine :=
  let terminal := LastTerminal.fromOutcome handle row.correlationIdOverride (terminalOutcomeOf row)
  let s := delete w handle (recordTerminal handle terminal s)
  { s with inFlight := s.inFlight.erase handle }

def finalizeRow (w : World) (s : PublishEngine) (handle : PublishHandle) : PublishEngine :=
  match s.inFlight.lookup handle with
  | none => s
  | some row => if isComplete row then settleRow w handle row s else s

def finalizeCompletedRows (w : World) (handles : List PublishHandle) (s : PublishEngine) :
    PublishEngine :=
  handles.foldl (finalizeRow w) s

/-- Whether the row waits for an acknowledgement of the relay. -/
def awaits (url : RelayUrl) (row : InFlight) : Bool :=
  (row.perRelay.lookup url).any PerRelayState.isInFlight

def demoteRow (url : RelayUrl) (row : InFlight) : InFlight :=
  (row.setState url .pending).clearRetry url

/-- The rows walked back, one after the other. -/
def demoteRows (url : RelayUrl) (handles : List PublishHandle) (s : PublishEngine) :
    PublishEngine :=
  handles.foldl (fun s handle =>
    match s.inFlight.lookup handle with
    | none => s
    | some row => if awaits url row then setRow s handle (demoteRow url row) else s) s

/-- Persist until the first error. -/
def persistAll (w : World) : List PublishHandle → PublishEngine →
    PublishEngine × Option PublishStoreError
  | [], s => (s, none)
  | handle :: rest, s =>
    match persist w handle s with
    | (s, some error) => (s, some error)
    | (s, none) => persistAll w rest s

def demoteInflightToPending (w : World) (url : RelayUrl) (s : PublishEngine) :
    PublishEngine × Option PublishStoreError :=
  let handles := w.rowOrder s.inFlight
  let changed := handles.filter fun handle => (s.inFlight.lookup handle).any (awaits url)
  persistAll w changed (demoteRows url handles s)

def markRelayUnavailable (w : World) (relayUrl : String) (nowMs : Nat) (s : PublishEngine) :
    PublishEngine × Option PublishStoreError :=
  let url := canonicalRelayIdentity relayUrl
  let s := match s.unavailableRelays.lookup url with
    | some (some _) => s
    | _ => { s with unavailableRelays := s.unavailableRelays.insert url (some nowMs) }
  demoteInflightToPending w url s

/-- A relay that asks for authentication is parked without a deadline. -/
def parkRelayAwaitingAuth (w : World) (relayUrl : String) (s : PublishEngine) :
    PublishEngine × Option PublishStoreError :=
  let url := canonicalRelayIdentity relayUrl
  let s := { s with
    unavailableRelays := s.unavailableRelays.alter url fun entry => entry.getD none }
  demoteInflightToPending w url s

def retryMessage (nextAttempt : Nat) : String :=
  "retry scheduled (attempt " ++ toString nextAttempt ++ ")"

/-- The row after the verdict, unless the verdict parks the relay. -/
def applyVerdict (row : InFlight) (url : RelayUrl) (verdict : RetryVerdict) (nowMs : Nat) :
    Option InFlight :=
  match verdict with
  | .settled next => some (row.setState url next)
  | .scheduleRetry delayMs nextAttempt =>
    let row := row.setState url (.relayError (retryMessage nextAttempt) (nextAttempt - 1) nowMs)
    some { row with
      pendingRetries := row.pendingRetries.insert url (saturatingAdd nowMs delayMs) }
  | .parkAwaitingAuth _ => none

/-- The log notes an acknowledgement that was taken in, with the state it led to. -/
def noteAnswer (handle : PublishHandle) (url : RelayUrl) (state : PerRelayState) (row : InFlight)
    (s : PublishEngine) : PublishEngine :=
  if state.isInFlight then
    logged s (.answered handle url ((row.perRelay.lookup url).getD state))
  else s

def onAck (w : World) (handle : PublishHandle) (ack : RelayAck) (nowMs : Nat)
    (s : PublishEngine) : PublishEngine :=
  match s.inFlight.lookup handle with
  | none => s
  | some row =>
    let url := canonicalRelayIdentity ack.relayUrl
    match row.perRelay.lookup url with
    | none => s
    | some state =>
      match applyVerdict row url (applyAck state ack s.policy nowMs) nowMs with
      | none => (parkRelayAwaitingAuth w url s).1
      | some row =>
        let s := noteAnswer handle url state row (setRow s handle row)
        if isComplete row then settleRow w handle row s else (persist w handle s).1

def isReady (row : InFlight) (url : RelayUrl) (state : PerRelayState) (nowMs : Nat) : Bool :=
  match state with
  | .pending => true
  | .relayError .. | .timedOut .. => (row.pendingRetries.lookup url).all fun due => due ≤ nowMs
  | _ => false

def refusalReason : String :=
  "refused: private envelope not routable to a non-explicit relay (D10)"

/-- One relay of `dispatch_due`: the row, what is logged and the acknowledgements so far. -/
def dispatchRelay (w : World) (handle : PublishHandle) (nowMs : Nat) (frame : Frame)
    (relayFilter : Option RelayUrl) (unavailable : SortedMap RelayUrl (Option Nat))
    (acc : InFlight × List LogEntry × List RelayAck) (url : RelayUrl) :
    InFlight × List LogEntry × List RelayAck :=
  let (row, log, acks) := acc
  match row.perRelay.lookup url with
  | none => acc
  | some state =>
    if relayFilter.any (· ≠ url) then acc
    else if (unavailable.lookup url).isSome then acc
    else if !isReady row url state nowMs then acc
    else if !row.sanctioned url then
      ((row.setState url (.failedAfterRetries refusalReason nowMs)).clearRetry url, log, acks)
    else
      let attempt := max (min (state.attempt + 1) u32Max) 1
      ((row.setState url (.inFlight nowMs attempt)).clearRetry url, log ++ [.sent handle url],
        acks ++ w.dispatch log url frame)

def dispatchPendingMatching (w : World) (handle : PublishHandle) (relayFilter : Option RelayUrl)
    (nowMs : Nat) (s : PublishEngine) : PublishEngine :=
  match s.inFlight.lookup handle with
  | none => s
  | some row =>
    let out := row.perRelay.keys.foldl
      (dispatchRelay w handle nowMs (buildEventFrame row.event) relayFilter s.unavailableRelays)
      (row, s.log, [])
    let s := { setRow s handle out.1 with log := out.2.1 }
    out.2.2.foldl (fun s ack => onAck w handle ack nowMs s) s

def dispatchPending (w : World) (handle : PublishHandle) (nowMs : Nat) (s : PublishEngine) :
    PublishEngine :=
  dispatchPendingMatching w handle none nowMs s

/-- Reasons per canonical relay, each once. -/
def relayMap (resolved : List ResolvedRelay) : SortedMap RelayUrl (List RelaySelectionReason) :=
  resolved.foldl (fun m r => m.alter (canonicalRelayIdentity r.url) fun bucket =>
    let bucket := bucket.getD []
    if r.reason ∈ bucket then bucket else bucket ++ [r.reason]) ∅

def resolveFor (w : World) (event : SignedEvent) (target : PublishTarget) : List ResolvedRelay :=
  w.resolve event.pubkey (collectPTags event) target event.kind (w.blockedRelays event.pubkey)

def noTargetsText : String := "no relays resolved for publish target"

def emitNoTargets (handle : PublishHandle) (correlationIdOverride : Option String)
    (s : PublishEngine) : PublishEngine :=
  recordTerminal handle
    ⟨correlationIdOverride.getD handle, "failed", some noTargetsText, some handle, .none⟩ s

def newRow (event : SignedEvent) (target : PublishTarget)
    (reasons : SortedMap RelayUrl (List RelaySelectionReason))
    (correlationIdOverride : Option String) : InFlight :=
  ⟨event, target, reasons.mapRows fun _ _ => .pending, reasons, ∅, correlationIdOverride⟩

/-- The row enters the map; the log notes its targets. -/
def insertRow (handle : PublishHandle) (row : InFlight) (s : PublishEngine) : PublishEngine :=
  logged (setRow s handle row) (.opened handle row.perRelay.keys)

def startPublishInner (w : World) (handle : PublishHandle) (event : SignedEvent)
    (target : PublishTarget) (correlationIdOverride : Option String) (nowMs : Nat)
    (s : PublishEngine) : PublishEngine × Option PublishEngineError :=
  if handle ∈ s.inFlight then (s, some (.duplicateHandle handle))
  else
    let reasons := relayMap (resolveFor w event target)
    if reasons.rows = [] then
      (emitNoTargets handle correlationIdOverride s, some .noTargets)
    else
      let s := insertRow handle (newRow event target reasons correlationIdOverride) s
      match persist w handle s with
      | (s, some error) => (s, some (.store error))
      | (s, none) =>
        (finalizeCompletedRows w [handle] (dispatchPending w handle nowMs s), none)

def startPublish (w : World) (action : PublishAction) (nowMs : Nat)
    (correlationIdOverride : Option String) (s : PublishEngine) :
    PublishEngine × Option PublishEngineError :=
  match action with
  | .publish handle event target =>
    startPublishInner w handle event target correlationIdOverride nowMs s
  | .publishProfile => (s, some (.unsupportedAction
      "PublishProfile is published via ActorCommand::PublishProfile, not the publish engine"))
  | .publishRaw => (s, some (.unsupportedAction
      "PublishRaw is published via ActorCommand::PublishRawEvent, not the publish engine"))
  | .publishReply => (s, some (.unsupportedAction
      "PublishReply is published via ActorCommand::PublishReply, not the publish engine"))

/-- A send older than the deadline times out, for good once the attempts are spent. -/
def expire (policy : RetryPolicy) (nowMs : Nat) (state : PerRelayState) : PerRelayState :=
  match state with
  | .inFlight sentAtMs attempt =>
    if policy.inflightDeadlineMs ≤ nowMs - sentAtMs then
      if policy.transientMaxRetries ≤ attempt then
        .failedAfterRetries (timeoutReason attempt) nowMs
      else .timedOut attempt nowMs
    else state
  | _ => state

def sweepInflightTimeouts (policy : RetryPolicy) (nowMs : Nat) (row : InFlight) : InFlight :=
  { row with perRelay := row.perRelay.mapRows fun _ state => expire policy nowMs state }

def unreachableReason : String := "relay unreachable past the publish deadline"

/-- A relay whose connection has been lost past the deadline is given up. -/
def giveUp (deadlineMs nowMs : Nat) (unavailable : SortedMap RelayUrl (Option Nat))
    (url : RelayUrl) (state : PerRelayState) : PerRelayState :=
  if state.isTerminal then state
  else
    match unavailable.lookup url with
    | some (some since) =>
      if deadlineMs ≤ nowMs - since then .failedAfterRetries unreachableReason nowMs else state
    | _ => state

/-- Only a row that some relay accepted gives up on others. -/
def sweepUnavailableTimeouts (deadlineMs nowMs : Nat)
    (unavailable : SortedMap RelayUrl (Option Nat)) (row : InFlight) : InFlight :=
  if hasAnyAccepted row then
    { row with perRelay := row.perRelay.mapRows (giveUp deadlineMs nowMs unavailable) }
  else row

def sweepRow (nowMs : Nat) (s : PublishEngine) (handle : PublishHandle) : PublishEngine :=
  match s.inFlight.lookup handle with
  | none => s
  | some row => setRow s handle (sweepUnavailableTimeouts s.policy.inflightDeadlineMs nowMs
      s.unavailableRelays (sweepInflightTimeouts s.policy nowMs row))

def tick (w : World) (nowMs : Nat) (s : PublishEngine) : PublishEngine :=
  let handles := w.rowOrder s.inFlight
  let s := handles.foldl (sweepRow nowMs) s
  let s := handles.foldl (fun s handle => dispatchPending w handle nowMs s) s
  finalizeCompletedRows w handles s

/-- Resolved relays that the row does not know, with their reasons. -/
def newRelays (row : InFlight) (resolved : List ResolvedRelay) :
    SortedMap RelayUrl (List RelaySelectionReason) :=
  relayMap (resolved.filter fun r =>
    (row.perRelay.lookup (canonicalRelayIdentity r.url)).isNone)

def widenRow (row : InFlight) (fresh : SortedMap RelayUrl (List RelaySelectionReason)) :
    InFlight :=
  { row with
    perRelay := fresh.rows.foldl (fun m r => m.insert r.1 .pending) row.perRelay
    relayReasons := fresh.rows.foldl (fun m r => m.insert r.1 r.2) row.relayReasons }

def retargetRow (w : World) (handle : PublishHandle) (s : PublishEngine) : PublishEngine :=
  match s.inFlight.lookup handle with
  | none => s
  | some row =>
    if isComplete row then s
    else
      let fresh := newRelays row (resolveFor w row.event row.target)
      if fresh.rows = [] then s
      else
        let s := logged (setRow s handle (widenRow row fresh)) (.widened handle fresh.keys)
        (persist w handle s).1

def markRelayAvailable (w : World) (relayUrl : String) (nowMs : Nat) (s : PublishEngine) :
    PublishEngine :=
  let url := canonicalRelayIdentity relayUrl
  let s := { s with unavailableRelays := s.unavailableRelays.erase url }
  let handles := w.rowOrder s.inFlight
  let s := handles.foldl (fun s handle =>
    dispatchPendingMatching w handle (some url) nowMs (retargetRow w handle s)) s
  finalizeCompletedRows w handles s

/-- The retries of relays that are not settled are due at once. -/
def dropRetries (row : InFlight) : InFlight :=
  { row with
    pendingRetries := row.perRelay.rows.foldl
      (fun m r => if r.2.isTerminal then m else m.erase r.1) row.pendingRetries }

def retryNow (w : World) (handle : PublishHandle) (nowMs : Nat) (s : PublishEngine) :
    PublishEngine × Option PublishStoreError :=
  match s.inFlight.lookup handle with
  | none => (s, some .notFound)
  | some row =>
    match persist w handle (setRow s handle (dropRetries row)) with
    | (s, some error) => (s, some error)
    | (s, none) => (finalizeCompletedRows w [handle] (dispatchPending w handle nowMs s), none)

/-- The row leaves first; its states are not read again. -/
def cancelByHandle (w : World) (handle : PublishHandle) (correlationId : String)
    (s : PublishEngine) : PublishEngine :=
  let s := { s with inFlight := s.inFlight.erase handle }
  delete w handle (recordTerminal handle
    ⟨correlationId, "cancelled", none, some handle, .cancelled handle⟩ s)

/-- Later entries of one canonical relay replace earlier ones. -/
def canonicalRows {ν : Type} (rows : List (RelayUrl × ν)) : SortedMap RelayUrl ν :=
  rows.foldl (fun m r => m.insert (canonicalRelayIdentity r.1) r.2) ∅

def rowOfRecord (record : PublishRecord) : InFlight :=
  ⟨record.event, record.target, canonicalRows record.perRelay, canonicalRows record.relayReasons,
    canonicalRows record.pendingRetries, none⟩

/-- A record is pending while a relay is not settled. -/
def isPending (record : PublishRecord) : Bool := record.perRelay.any fun r => !r.2.isTerminal

def pendingRecords (w : World) (store : PublishStore) : List PublishRecord :=
  ((w.loadOrder store.rows).filterMap store.rows.lookup).filter isPending

def resumeRecord (w : World) (nowMs : Nat) (s : PublishEngine) (record : PublishRecord) :
    PublishEngine :=
  finalizeCompletedRows w [record.handle] (dispatchPending w record.handle nowMs
    (insertRow record.handle (rowOfRecord record) s))

def resumeFromStore (w : World) (nowMs : Nat) (s : PublishEngine) :
    PublishEngine × Option PublishStoreError :=
  match w.storeError s.log .loadPending with
  | some error => (s, some error)
  | none => ((pendingRecords w s.store).foldl (resumeRecord w nowMs) s, none)

/-- The process stops: only the store is left. -/
def stop (s : PublishEngine) (policy : RetryPolicy) : PublishEngine :=
  { PublishEngine.new policy s.store with log := s.log ++ [.stopped] }

inductive Call where
  | startPublish (action : PublishAction) (nowMs : Nat) (correlationIdOverride : Option String)
  | onAck (handle : PublishHandle) (ack : RelayAck) (nowMs : Nat)
  | tick (nowMs : Nat)
  | markRelayUnavailable (relayUrl : String) (nowMs : Nat)
  | markRelayAvailable (relayUrl : String) (nowMs : Nat)
  | retryNow (handle : PublishHandle) (nowMs : Nat)
  | cancelByHandle (handle : PublishHandle) (correlationId : String)
  /-- The process stops; a fresh engine resumes on the same store. -/
  | restart (policy : RetryPolicy) (nowMs : Nat)

/-- A step of the engine: one call, in the world it meets. -/
def perform (s : PublishEngine) : World × Call → PublishEngine
  | (w, .startPublish action nowMs correlationIdOverride) =>
    (startPublish w action nowMs correlationIdOverride s).1
  | (w, .onAck handle ack nowMs) => onAck w handle ack nowMs s
  | (w, .tick nowMs) => tick w nowMs s
  | (w, .markRelayUnavailable relayUrl nowMs) => (markRelayUnavailable w relayUrl nowMs s).1
  | (w, .markRelayAvailable relayUrl nowMs) => markRelayAvailable w relayUrl nowMs s
  | (w, .retryNow handle nowMs) => (retryNow w handle nowMs s).1
  | (w, .cancelByHandle handle correlationId) => cancelByHandle w handle correlationId s
  | (w, .restart policy nowMs) => (resumeFromStore w nowMs (stop s policy)).1

/-- A world whose resolver names fixed relays, with the given answers and store errors. -/
def fixedWorld (relays : List ResolvedRelay) (answers : RelayUrl → List RelayAck)
    (errors : StoreCall → Option PublishStoreError) : World where
  blockedRelays _ := []
  resolve _ _ _ _ _ := relays
  dispatch _ url _ := answers url
  storeError _ call := errors call
  rowOrder rows := rows.keys
  rowOrder_perm _ := .refl _
  loadOrder rows := rows.keys
  loadOrder_perm _ := .refl _

/-- The frames are queued; acknowledgements arrive later, as calls. -/
def queueWorld (relays : List ResolvedRelay) : World := fixedWorld relays (fun _ => []) fun _ => none

theorem queueWorld_reliable (relays : List ResolvedRelay) : (queueWorld relays).Reliable :=
  fun _ _ => rfl

end PublishEngine
