import NostrMultiPlatform.RefEvents

/-!
# Resolving and releasing references

Event keys park while no relay is connected and no hint tells where to ask. Profile
keys share one interest, which tails while some consumer is live and falls back to a
one-shot when the last one leaves.
-/
namespace RefResolve

open PlannerShape RefEvents RefFetches RefKeys RefState

variable (h : Host) (s : Kernel) (pubkey primaryId : String) (claim : PendingEventClaim)
  (target : EventTarget) (consumerId : String)

def registerEventClaimInterest (filter : InterestShape) (hints : List String) : Kernel :=
  let tail : Interest := ⟨filter, userHints hints, .tailing, true⟩
  { s with
    eventRefs := s.eventRefs.goLive primaryId consumerId
    fetches :=
      s.fetches.registerInterest true (.eventClaim primaryId) (.eventClaim consumerId) tail }

/-- Mark the key as requested. -/
def markRequested : Kernel :=
  { s with eventClaimRequested := insert primaryId s.eventClaimRequested }

/-- A one-shot with a claim behind it. -/
def requestEvent (author : Option String) (hints : List String) (startedAt : Nat) : Kernel :=
  let (token, fetches) := s.fetches.request target.filter (userHints hints)
  let interestId := SubKey.oneshot target.filter
  let fetches := { fetches with
    pendingDiscoveryOneshots := fetches.pendingDiscoveryOneshots.insert interestId token }
  let fetches :=
    fetches.registerClaimExpansion target.primaryId interestId author hints startedAt
  markRequested { s with fetches := fetches } target.primaryId

/-- Start the fetch the key needs, after its consumer is counted in. -/
def fetchEvent (canSend : Bool) (startedAt : Nat) : Kernel :=
  let author := target.author <|> claim.eventAuthor.filter isHexPubkey
  let primaryId := target.primaryId
  if claim.liveness = .live ∧ target.replaceableCoord.isSome then
    let s := { s with fetches := s.fetches.cancelEventOneshot primaryId }
    let s := registerEventClaimInterest s primaryId claim.consumerId target.filter claim.relayHints
    let s := markRequested s primaryId
    if eventAlreadyKnown h s primaryId then reverifyCoord h s target.replaceableCoord claim.force
    else s
  else if eventAlreadyKnown h s primaryId then
    reverifyCoord h s target.replaceableCoord claim.force
  else if primaryId ∈ s.eventClaimRequested then s
  else if canSend = false ∧ claim.relayHints = [] then
    { s with pendingEventClaims := s.pendingEventClaims ++ [{ claim with eventAuthor := author }] }
  else requestEvent s target author claim.relayHints startedAt

/-- Count the consumer in, and bump the row if that changes it. -/
def claimEvent : Option Kernel :=
  let key := target.primaryId
  match s.eventRefs.claim key claim.consumerId with
  | none => none
  | some (inserted, refs) =>
    let demanded := refs.demand key claim.consumerId claim.shape
    let widened := refs.demanded EventShape.widen key ≠ demanded.demanded EventShape.widen key
    let upgraded := claim.liveness = .live ∧ target.replaceableCoord.isSome ∧ key ∉ refs.live
    some { s with
      eventRefs := demanded
      versions := if inserted = true ∨ widened ∨ upgraded then s.versions.bumpEvent key
        else s.versions }

def resolveEventRef (canSend : Bool) (startedAt : Nat) : Kernel :=
  match parseEventKey h.externalIdValidator claim.key with
  | none => s
  | some target =>
    match claimEvent s claim target with
    | none => { s with eventRefs := s.eventRefs.overflow }
    | some s => fetchEvent h s claim target canSend startedAt

/-- Detach the consumer's live owner; the tail goes with the last one. -/
def releaseEventClaimInterest : Kernel :=
  let left := s.eventRefs.leaveLive primaryId consumerId
  if left.1 then
    { s with
      eventRefs := left.2.2
      fetches := s.fetches.dropOwner (.eventClaim primaryId) (.eventClaim consumerId) }
  else s

def parkedPrimaryId : Option String :=
  (parseEventKey h.externalIdValidator claim.key).map EventTarget.primaryId

def removeParkedEventClaim : Kernel :=
  { s with pendingEventClaims := s.pendingEventClaims.filter fun claim =>
      claim.consumerId ≠ consumerId || parkedPrimaryId h claim ≠ some primaryId }

def releaseEventRef (key consumerId : String) : Kernel :=
  match parseEventKey h.externalIdValidator key with
  | none => s
  | some target =>
    let primaryId := target.primaryId
    let (removed, last, refs) := s.eventRefs.unclaim primaryId consumerId
    let narrowedRefs := refs.undemand primaryId consumerId
    let narrowed := s.eventRefs.demanded EventShape.widen primaryId ≠
      narrowedRefs.demanded EventShape.widen primaryId
    let s := releaseEventClaimInterest { s with eventRefs := narrowedRefs } primaryId consumerId
    let s := removeParkedEventClaim h s primaryId consumerId
    if last then teardownEventClaimKey s primaryId
    else if removed = true ∨ narrowed then { s with versions := s.versions.bumpEvent primaryId }
    else s

/-- Resolve what was parked, but for consumers that left meanwhile. -/
def drainParked (now : Nat) : Kernel :=
  s.pendingEventClaims.foldl
    (fun s claim =>
      match parkedPrimaryId h claim with
      | none => resolveEventRef h s claim true now
      | some primaryId =>
        if claim.consumerId ∈ s.eventRefs.consumers primaryId then
          resolveEventRef h s claim true now
        else s)
    { s with pendingEventClaims := [] }

def profileFilter : InterestShape :=
  { InterestShape.default with authors := {pubkey}, kinds := {0} }

/-- The slot tails while some consumer is live. -/
def registerProfileClaimInterest (liveness : RefLiveness) (hints : List String) : Kernel :=
  let refs := if liveness = .live then s.profileRefs.goLive pubkey consumerId else s.profileRefs
  let interest : Interest := ⟨profileFilter pubkey, userHints hints,
    if pubkey ∈ refs.live then .tailing else .oneShot, true⟩
  { s with
    profileRefs := refs
    fetches :=
      s.fetches.registerInterest true (.profileClaim pubkey) (.profileClaim consumerId) interest }

/-- Count the consumer in, and bump the row if that changes it. -/
def claimProfile (shape : ProfileShape) (liveness : RefLiveness) : Option Kernel :=
  match s.profileRefs.claim pubkey consumerId with
  | none => none
  | some (inserted, refs) =>
    let demanded := refs.demand pubkey consumerId shape
    let widened :=
      refs.demanded ProfileShape.widen pubkey ≠ demanded.demanded ProfileShape.widen pubkey
    let upgraded := liveness = .live ∧ pubkey ∉ refs.live
    some { s with
      profileRefs := demanded
      versions := if inserted = true ∨ widened ∨ upgraded then s.versions.bumpProfile pubkey
        else s.versions }

/-- The freshness gate of a resident profile. -/
def reverifyProfile (force : Bool) : Kernel :=
  if pubkey ∈ s.residentProfiles then
    match h.publicKeyFromHex pubkey with
    | none => s
    | some pubkeyHex => claimReplaceable s 0 pubkeyHex none force
  else s

/-- A resident profile is fetched only to stay live. -/
def resolveProfileRef (shape : ProfileShape) (liveness : RefLiveness) (force : Bool)
    (hints : List String) : Kernel :=
  match claimProfile s pubkey consumerId shape liveness with
  | none => { s with profileRefs := s.profileRefs.overflow }
  | some s =>
    let s := reverifyProfile h s pubkey force
    if pubkey ∉ s.residentProfiles ∨ liveness = .live then
      registerProfileClaimInterest s pubkey consumerId liveness hints
    else s

def releaseProfileRef : Kernel :=
  let (removed, last, refs) := s.profileRefs.unclaim pubkey consumerId
  let narrowedRefs := refs.undemand pubkey consumerId
  let narrowed := s.profileRefs.demanded ProfileShape.widen pubkey ≠
    narrowedRefs.demanded ProfileShape.widen pubkey
  let (_, lastLive, refs) := narrowedRefs.leaveLive pubkey consumerId
  let downgraded := lastLive && !last
  let refs := if last then refs.removeClaims pubkey else refs
  let detached :=
    OwnedSlots.detach s.fetches.registry (.profileClaim pubkey) (.profileClaim consumerId)
  let s := { s with
    profileRefs := refs
    fetches := { s.fetches with registry := detached.2 } }
  let s :=
    if detached.1 = false ∧ downgraded = true then
      match (refs.consumers pubkey).elems with
      | [] => s
      | survivor :: _ => registerProfileClaimInterest s pubkey survivor .cacheOk []
    else s
  if last = true ∧ removed = true then { s with versions := s.versions.clearProfile pubkey }
  else if removed = true ∨ narrowed ∨ downgraded = true then
    { s with versions := s.versions.bumpProfile pubkey }
  else s

end RefResolve
