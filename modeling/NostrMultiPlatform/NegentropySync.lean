import NostrMultiPlatform.NegentropyFilter
import NostrMultiPlatform.SubsFilter
import NostrMultiPlatform.Tables
import NostrMultiPlatform.Transducers
import Mathlib.Data.List.Infix

/-!
# The negentropy runtime

A planner REQ is replaced by a reconciliation session, kept under its relay and
subscription id. Relay messages move the session or end it; an idle tick ends the
sessions that made no progress for thirty seconds.
-/
namespace NegentropySync

open NegentropyFilter StoreEvent Tables
open PlannerShape (InterestLifecycle)
open SubsFilter (lower)

abbrev Bytes := List UInt8
abbrev Id := EventId

/-- Frame-size cap used by the underlying negentropy engine. -/
def frameSizeLimit : Nat := 64 * 1024

inductive HexError where
  | oddLength | invalidNibble | tooLarge
  deriving DecidableEq, Repr

def hexDecode (s : String) : Except HexError Bytes :=
  if s.utf8ByteSize % 2 ≠ 0 then .error .oddLength
  else
    match hexPairs s.toList with
    | none => .error .invalidNibble
    | some bytes => .ok bytes

def hexDecodeSizeLimited (s : String) : Except HexError Bytes :=
  if frameSizeLimit * 2 < s.utf8ByteSize then .error .tooLarge else hexDecode s

def contains (s needle : String) : Bool := decide (needle.toList <:+: s.toList)

def noticeMentionsNegentropy (message : String) : Bool :=
  contains (lower message) "negentropy" || contains (lower message) "neg-open" ||
    contains (lower message) "neg_msg" || contains (lower message) "bad msg"

inductive RelayMessage where
  | notice (message : String)
  | negErr (subId message : String)
  | negMsg (subId message : String)
  | other

/-- What is used of the serde_json, nostr and negentropy crates: `acceptsFilter` is the reading of
an object as a nostr filter, `engine` is `reconcile_with_ids` with the ids it found. -/
structure Crates (ρ : Type) where
  parse : String → Option Json
  render : Json → String
  acceptsFilter : Json → Bool
  relayMessage : String → Option RelayMessage
  storage : List SyncedItem → Option ρ
  initiate : ρ → Option (Bytes × ρ)
  engine : ρ → Bytes → Option (Option Bytes × List Id × List Id) × ρ

variable {ρ : Type}

structure Reconciler (ρ : Type) where
  inner : ρ
  initiated : Bool
  haveAcc : List Id
  needAcc : List Id

inductive ReconcilerOutcome where
  | send (msg : Bytes)
  | done (have_ need : List Id)
  deriving DecidableEq, Repr

/-- The first item of each id. -/
def distinctItems (items : List SyncedItem) : List SyncedItem :=
  items.foldl (fun kept item =>
    if kept.any fun other => other.id == item.id then kept else kept ++ [item]) []

def Reconciler.client (c : Crates ρ) (items : List SyncedItem) : Option (Reconciler ρ) :=
  (c.storage (distinctItems items)).map fun inner => ⟨inner, false, [], []⟩

def Reconciler.initiate (c : Crates ρ) (r : Reconciler ρ) : Option (Bytes × Reconciler ρ) :=
  if r.initiated then none
  else (c.initiate r.inner).map fun (bytes, inner) => (bytes, { r with inner, initiated := true })

/-- Consume one relay response; no outcome is an error of the engine. -/
def Reconciler.reconcile (c : Crates ρ) (r : Reconciler ρ) (peer : Bytes) :
    Option ReconcilerOutcome × Reconciler ρ :=
  match c.engine r.inner peer with
  | (none, inner) => (none, { r with inner })
  | (some (some bytes, have_, need), inner) =>
    (some (.send bytes),
      { r with inner, haveAcc := r.haveAcc ++ have_, needAcc := r.needAcc ++ need })
  | (some (none, have_, need), inner) =>
    (some (.done (r.haveAcc ++ have_) (r.needAcc ++ need)),
      { r with inner, haveAcc := [], needAcc := [] })

abbrev RelayRole := String

/-- The client messages, by their parts. -/
inductive Frame where
  | req (subId filterJson : String)
  | idsReq (subId : String) (ids : List Id)
  | negOpen (subId : String) (filter : String) (msg : Bytes)
  | negMsg (subId : String) (msg : Bytes)
  | negClose (subId : String)
  deriving DecidableEq

structure OutboundMessage where
  role : RelayRole
  relayUrl : String
  frame : Frame
  deriving DecidableEq

inductive KernelCall where
  | setNegentropyProbeState (role : RelayRole) (key : String)
  | setNegentropySyncStats (rounds have_ need localItemCount : Nat)
  | recordNegDoneCoverage (subId relayUrl : String) (nowSecs : Nat)
  | completeRewrittenWireSub (relayUrl subId : String)
  deriving DecidableEq

inductive Effect where
  | call (c : KernelCall)
  | send (m : OutboundMessage)
  deriving DecidableEq

inductive RelayNegentropyState where
  | unknown | probing | supported | unsupported
  deriving DecidableEq, Repr

def RelayNegentropyState.key : RelayNegentropyState → String
  | .unknown => "unknown"
  | .probing => "probing"
  | .supported => "supported"
  | .unsupported => "unsupported"

inductive SessionMode where
  | replaceOneShot
  | backfillTailing (idsSubId : String)
  deriving DecidableEq, Repr

structure Session (ρ : Type) where
  subId : String
  role : RelayRole
  relayUrl : String
  filterJson : String
  reconciler : Reconciler ρ
  mode : SessionMode
  rounds : Nat
  localItemCount : Nat
  openedAtSecs : Nat

def negOpenLivenessDeadlineSecs : Nat := 30

/-- A relay and a subscription id. -/
abbrev Key := String × String

/-- `threshold` is the fan-out of the coverage gate. -/
structure Runtime (ρ : Type) where
  threshold : Nat
  sessions : Table Key (Session ρ)
  relayStates : Table String RelayNegentropyState

def Runtime.new (threshold : Nat) : Runtime ρ := ⟨threshold, ∅, ∅⟩

/-- What the planner hands over with a REQ. -/
structure ReqFrameContext where
  role : RelayRole
  relayUrl : String
  subId : String
  filterJson : String
  lifecycle : InterestLifecycle

def shouldUseNegentropy (threshold : Nat) : ResultSurface → Bool
  | .knownMax max => decide (threshold ≤ max)
  | .unbounded => true

namespace Session

variable (s : Session ρ)

def fallbackReq : OutboundMessage := ⟨s.role, s.relayUrl, .req s.subId s.filterJson⟩

def closeMsg : OutboundMessage := ⟨s.role, s.relayUrl, .negClose s.subId⟩

def idsSub : String :=
  match s.mode with
  | .replaceOneShot => s.subId
  | .backfillTailing idsSubId => idsSubId

def idsReq (s : Session ρ) (ids : List Id) : OutboundMessage :=
  ⟨s.role, s.relayUrl, .idsReq s.idsSub ids⟩

/-- The session after a message: its round is counted and its deadline starts again. -/
def advanced (now : Nat) : Session ρ :=
  { s with rounds := min (s.rounds + 1) (2 ^ 64 - 1), openedAtSecs := now }

end Session

namespace Runtime

variable (rt : Runtime ρ)

variable (c : Crates ρ) (relayUrl : String) (ctx : ReqFrameContext)

def relayState : RelayNegentropyState :=
  (rt.relayStates.lookup relayUrl).getD .unknown

def markRelay (state : RelayNegentropyState) : Runtime ρ :=
  { rt with relayStates := rt.relayStates.insert relayUrl state }

def dropSession (key : Key) : Runtime ρ := { rt with sessions := rt.sessions.erase key }

def putSession (key : Key) (s : Session ρ) : Runtime ρ :=
  { rt with sessions := rt.sessions.insert key s }

/-- The kernel call of `set_relay_state`. -/
def probe (role : RelayRole) (state : RelayNegentropyState) : KernelCall :=
  .setNegentropyProbeState role state.key

@[simp] theorem markRelay_sessions (url : String) (state : RelayNegentropyState) :
    (rt.markRelay url state).sessions = rt.sessions := rfl

@[simp] theorem dropSession_sessions (key : Key) :
    (rt.dropSession key).sessions = rt.sessions.erase key := rfl

@[simp] theorem putSession_sessions (key : Key) (s : Session ρ) :
    (rt.putSession key s).sessions = rt.sessions.insert key s := rfl

/-- The session of the key is taken out and its relay marked. -/
def retire (key : Key) (url : String) : Runtime ρ :=
  (rt.dropSession key).markRelay url .unsupported

@[simp] theorem retire_sessions (key : Key) (url : String) :
    (rt.retire key url).sessions = rt.sessions.erase key := rfl

/-- Take out each session of the keys, mark the relay of its url and fall back to its REQ. -/
def fallBackAll (url : Session ρ → String) : List Key → Runtime ρ → Runtime ρ × List (Session ρ)
  | [], rt => (rt, [])
  | key :: keys, rt =>
    match rt.sessions.lookup key with
    | none => fallBackAll url keys rt
    | some s =>
      let rest := fallBackAll url keys (rt.retire key (url s))
      (rest.1, s :: rest.2)

/-- What the sessions that were taken out lead to. -/
def fallbackEffects (gone : List (Session ρ)) : List Effect :=
  gone.map (fun s => .call (probe s.role .unsupported)) ++ gone.map fun s => .send s.fallbackReq

def fallbackAllForRelay : Runtime ρ × List Effect :=
  let out := fallBackAll (fun _ => relayUrl)
    (rt.sessions.keys.filter fun key => key.1 = relayUrl) rt
  (out.1, fallbackEffects out.2)

def modeOf : SessionMode :=
  match ctx.lifecycle with
  | .oneShot => .replaceOneShot
  | .tailing => .backfillTailing (ctx.subId ++ "-neg-ids")

/-- The filter of the REQ, if the gate lets it be reconciled. -/
def candidate : Option EligibleFilter :=
  if rt.relayState ctx.relayUrl = .unsupported then none
  else
    match EligibleFilter.parse (c.parse ctx.filterJson) with
    | .error _ => none
    | .ok filter => if shouldUseNegentropy rt.threshold filter.resultSurface then some filter else none

/-- The opening message and the session over the filter without its floor. -/
def openSession (filter : EligibleFilter) (store : EventStore) (now : Nat) :
    Option (Bytes × Session ρ) := do
  let items ← (filter.unfloored.localItems store).toOption
  guard (c.acceptsFilter (.object filter.unfloored.rows))
  let client ← Reconciler.client c items
  let (msg, reconciler) ← client.initiate c
  return (msg, ⟨ctx.subId, ctx.role, ctx.relayUrl, ctx.filterJson, reconciler, modeOf ctx, 0,
    items.length, now⟩)

def openFrames (filter : EligibleFilter) (msg : Bytes) : List OutboundMessage :=
  let negOpen : OutboundMessage := ⟨ctx.role, ctx.relayUrl,
    .negOpen ctx.subId (c.render (.object filter.unfloored.rows)) msg⟩
  match ctx.lifecycle with
  | .oneShot => [negOpen]
  | .tailing =>
    [⟨ctx.role, ctx.relayUrl, .req ctx.subId (c.render filter.liveOnly)⟩, negOpen]

/-- No result lets the actor send the REQ as it is. -/
def interceptReq (store : EventStore) (now : Nat) : Option (Runtime ρ × List Effect) :=
  match rt.candidate c ctx with
  | none => none
  | some filter =>
    match openSession c ctx filter store now with
    | none => none
    | some (msg, session) =>
      some ((rt.markRelay ctx.relayUrl .probing).putSession (ctx.relayUrl, ctx.subId) session,
        .call (probe ctx.role .probing) :: (openFrames c ctx filter msg).map .send)

def onNegErr (relayUrl subId : String) : Runtime ρ × List Effect :=
  match rt.sessions.lookup (relayUrl, subId) with
  | none => (rt, [])
  | some session => (rt.retire (relayUrl, subId) relayUrl, fallbackEffects [session])

/-- What is sent when the reconciliation is complete. -/
def doneEffects (session : Session ρ) (relayUrl : String) (have_ need : List Id) (now : Nat) :
    List Effect :=
  [.call (.setNegentropySyncStats session.rounds have_.length need.length session.localItemCount),
    .call (.recordNegDoneCoverage session.subId relayUrl now)] ++
  (match need, session.mode with
    | [], .replaceOneShot =>
      [.call (.completeRewrittenWireSub relayUrl session.subId), .send session.closeMsg]
    | [], .backfillTailing _ => [.send session.closeMsg]
    | _ :: _, _ => [.send session.closeMsg, .send (session.idsReq need)])

def onNegMsg (relayUrl subId message : String) (now : Nat) : Runtime ρ × List Effect :=
  match rt.sessions.lookup (relayUrl, subId) with
  | none => (rt, [])
  | some session =>
    match hexDecodeSizeLimited message with
    | .error _ => (rt.retire (relayUrl, subId) relayUrl, fallbackEffects [session])
    | .ok msg =>
      let taken := (rt.dropSession (relayUrl, subId)).markRelay relayUrl .supported
      let supported : Effect := .call (probe session.role .supported)
      let session := session.advanced now
      match session.reconciler.reconcile c msg with
      | (some (.send next), reconciler) =>
        (taken.putSession (relayUrl, session.subId) { session with reconciler },
          [supported, .send ⟨session.role, session.relayUrl, .negMsg session.subId next⟩])
      | (some (.done have_ need), _) =>
        (taken, supported :: doneEffects session relayUrl have_ need now)
      | (none, _) => (taken, [supported, .send session.fallbackReq])

def onRelayText (relayUrl text : String) (now : Nat) : Runtime ρ × List Effect :=
  match c.relayMessage text with
  | some (.notice message) =>
    if noticeMentionsNegentropy message then rt.fallbackAllForRelay relayUrl else (rt, [])
  | some (.negErr subId _) => rt.onNegErr relayUrl subId
  | some (.negMsg subId message) => rt.onNegMsg c relayUrl subId message now
  | some .other => (rt, [])
  | none => (rt, [])

/-- The session made no progress for the whole deadline. -/
def timedOut (now : Nat) (session : Session ρ) : Bool :=
  decide (negOpenLivenessDeadlineSecs ≤ now - session.openedAtSecs)

def onIdleTick (now : Nat) : Runtime ρ × List Effect :=
  let out := fallBackAll Session.relayUrl
    ((rt.sessions.entries.filter fun e => timedOut now e.2).map fun e => e.1) rt
  (out.1, fallbackEffects out.2)

end Runtime

inductive Op where
  | interceptReq (ctx : ReqFrameContext) (store : EventStore) (now : Nat)
  | onRelayText (relayUrl text : String) (now : Nat)
  | onIdleTick (now : Nat)

def step (c : Crates ρ) (rt : Runtime ρ) : Op → Runtime ρ × List Effect
  | .interceptReq ctx store now => (rt.interceptReq c ctx store now).getD (rt, [])
  | .onRelayText relayUrl text now => rt.onRelayText c relayUrl text now
  | .onIdleTick now => rt.onIdleTick now

end NegentropySync
