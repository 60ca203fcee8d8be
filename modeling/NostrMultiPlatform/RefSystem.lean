import NostrMultiPlatform.RefResolve
import NostrMultiPlatform.Runs

/-!
# The kernel around the references

What reaches the references from outside: calls of the consumers, frames of the
planner and of the relays, and the drains and polls of the actor's idle tick.
-/
namespace RefSystem

open PlannerShape RefEvents RefFetches RefKeys RefResolve RefState Sorted

def maxUnknownIds : Nat := 500
def discoveryBatch : Nat := 50
def maxDiscoveryConcurrency : Nat := 2

def isHexDigit (c : Char) : Bool := isLowerHexDigit c || 'A' ≤ c && c ≤ 'F'

def tryInsertCapped (ids : SortedSet String) (id : String) : SortedSet String :=
  if id ∈ ids then ids else if maxUnknownIds ≤ ids.card then ids else insert id ids

def putBack (ids : SortedSet String) (batch : List String) : SortedSet String :=
  batch.foldl tryInsertCapped ids

variable (s : Kernel)

def noteEvent (id : String) : Kernel :=
  if isHexPubkey id = false ∨ id ∈ s.events then s
  else { s with unknownEvents := tryInsertCapped s.unknownEvents id }

def notePubkey (pubkey : String) : Kernel :=
  if isHexPubkey pubkey = false ∨ pubkey ∈ s.residentProfiles then s
  else { s with unknownPubkeys := tryInsertCapped s.unknownPubkeys pubkey }

def noteTag : List String → Kernel
  | key :: value :: _ =>
    if key = "e" ∨ key = "q" then noteEvent s value
    else if key = "p" then notePubkey s value
    else s
  | _ => s

/-- The ids the tags of an event name. -/
def collectUnknownRefs (tags : List (List String)) : Kernel := tags.foldl noteTag s

/-- A one-shot whose token waits for its frame. -/
def requestDiscovery (shape : InterestShape) : Kernel :=
  let (token, fetches) := s.fetches.request shape []
  let waiting := fetches.pendingDiscoveryOneshots.insert (.oneshot shape) token
  { s with fetches := { fetches with pendingDiscoveryOneshots := waiting } }

def discoveryEvents (batch : List String) : InterestShape :=
  { InterestShape.default with eventIds := .ofList batch, limit := some batch.length }

/-- Profile, contact list and relay list. -/
def discoveryProfiles (batch : List String) : InterestShape :=
  { InterestShape.default with
    authors := .ofList batch
    kinds := .ofList [0, 3, 10002]
    limit := some (batch.length * 3) }

def drainUnknownOneshots : Kernel :=
  if maxDiscoveryConcurrency ≤ s.fetches.oneshot.inFlight then s
  else
    let slots := maxDiscoveryConcurrency - s.fetches.oneshot.inFlight
    let eventIds := s.unknownEvents.elems
    let pubkeys := s.unknownPubkeys.elems
    let s := { s with unknownEvents := ∅, unknownPubkeys := ∅ }
    let (used, s) :=
      if eventIds = [] then (0, s)
      else
        let s := requestDiscovery s (discoveryEvents (eventIds.take discoveryBatch))
        (1, { s with unknownEvents := putBack s.unknownEvents (eventIds.drop discoveryBatch) })
    if pubkeys = [] then s
    else if used < slots then
      let s := requestDiscovery s (discoveryProfiles (pubkeys.take discoveryBatch))
      { s with unknownPubkeys := putBack s.unknownPubkeys (pubkeys.drop discoveryBatch) }
    else { s with unknownPubkeys := putBack s.unknownPubkeys pubkeys }

def reverifyShape : ReplaceableKey → InterestShape
  | .regular kind pubkey => { InterestShape.default with kinds := {kind}, authors := {pubkey} }
  | .parameterized kind pubkey dTag => { InterestShape.default with
      kinds := {kind}
      authors := {pubkey}
      tags := (∅ : SortedMap String (SortedSet String)).insert "d" {dTag} }

/-- The token of the one-shot is not kept. -/
def requestReverify (key : ReplaceableKey) : Kernel :=
  let (_, fetches) := s.fetches.request (reverifyShape key) []
  let interestId := SubKey.oneshot (reverifyShape key)
  let keys := (s.pendingReverifyOneshots.lookup interestId).getD []
  { s with
    fetches := fetches
    pendingReverifyOneshots := s.pendingReverifyOneshots.insert interestId (keys ++ [key]) }

def drainPendingReverify : Kernel :=
  s.pendingReverify.foldl requestReverify { s with pendingReverify := [] }

/-- A `REQ` of the planner, for one interest on one relay. -/
structure WireReq where
  relayUrl : String
  subId : String
  interestId : SubKey
  deriving DecidableEq

def registerPlannerReq (h : Host) (s : Kernel) (req : WireReq) : Kernel :=
  let s := match s.pendingReverifyOneshots.lookup req.interestId with
    | none => s
    | some keys => { s with
      pendingReverifyOneshots := s.pendingReverifyOneshots.erase req.interestId
      reverifySubs := s.reverifySubs.insert req.subId
        ((s.reverifySubs.lookup req.subId).getD [] ++ keys) }
  { s with
    fetches := s.fetches.registerReq (h.canonicalRelay req.relayUrl) req.subId req.interestId }

/-- Stamp the identities a re-verification has confirmed. -/
def confirmReverified (h : Host) (s : Kernel) (subId : String) : Kernel :=
  match s.reverifySubs.lookup subId with
  | none => s
  | some keys => { s with
      reverifySubs := s.reverifySubs.erase subId
      checkAgainAfter := keys.foldl
        (fun stamps key => stamps.insert key (s.clockMs + h.ttlForKind key.kind))
        s.checkAgainAfter }

def handleEose (h : Host) (s : Kernel) (relayUrl subId : String) : Kernel :=
  let fetches := s.fetches.completeUnknownOneshot subId
  let fetches := fetches.onClaimOutcomeEoseNoMatch subId (h.canonicalRelay relayUrl)
  confirmReverified h { s with fetches := fetches } subId

/-- An accepted event is cached and stored; on a claim's subscription one of the claim's author
ends the claim. -/
def handleEvent (subId id : String) (ev : StoredEvent) : Kernel :=
  let author := (s.fetches.claimSubIndex.lookup subId).bind fun interestId =>
    (s.fetches.pendingClaims.lookup interestId).bind PendingClaim.author
  let s := collectUnknownRefs { s with
    events := s.events.insert id ev
    store := s.store.insert id ev } ev.tags
  if author = some ev.author then onClaimOutcomeHit s subId else s

inductive Op
  | resolveEvent (claim : PendingEventClaim) (startedAt : Nat)
  | releaseEvent (key consumerId : String)
  | resolveProfile (pubkey consumerId : String) (shape : ProfileShape) (liveness : RefLiveness)
    (force : Bool) (hints : List String)
  | releaseProfile (pubkey consumerId : String)
  | drainParked (now : Nat)
  | drainReverify
  | drainUnknown
  | req (req : WireReq)
  | eose (relayUrl subId : String)
  | closed (relayUrl subId : String)
  | event (subId id : String) (ev : StoredEvent)
  | mention (pubkey : String)
  | relayFailed (relayUrl : String)
  | poll (now : Nat) (weight : Weight)
  | evict (id : String)
  | profiles (resident : SortedSet String)
  | connected (connected : Bool)
  | clock (nowMs : Nat)

/-- A `CLOSED` frame drops the row of the wire subscription, and a failed relay weighs less from
then on: nothing here keeps either. An evicted event stays in the store, and a profile mentioned in
the text of a note is noted like one that is tagged. -/
def step (h : Host) (s : Kernel) : Op → Kernel
  | .resolveEvent claim startedAt => resolveEventRef h s claim s.connected startedAt
  | .releaseEvent key consumerId => releaseEventRef h s key consumerId
  | .resolveProfile pubkey consumerId shape liveness force hints =>
    resolveProfileRef h s pubkey consumerId shape liveness force hints
  | .releaseProfile pubkey consumerId => releaseProfileRef s pubkey consumerId
  | .drainParked now => drainParked h s now
  | .drainReverify => drainPendingReverify s
  | .drainUnknown => drainUnknownOneshots s
  | .req req => registerPlannerReq h s req
  | .eose relayUrl subId => handleEose h s relayUrl subId
  | .closed _ _ => s
  | .event subId id ev => handleEvent s subId id ev
  | .mention pubkey => notePubkey s pubkey
  | .relayFailed _ => s
  | .poll now weight => pollClaimExpansion h weight s now
  | .evict id => { s with events := s.events.erase id }
  | .profiles resident => { s with residentProfiles := resident }
  | .connected connected => { s with connected := connected }
  | .clock nowMs => { s with clockMs := nowMs }

end RefSystem
