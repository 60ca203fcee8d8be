import NostrMultiPlatform.RefState

/-!
# Event references

Resolving counts the consumer in and starts the fetch the key needs: a tailing
interest for a live coordinate, a one-shot with a claim behind it otherwise. A claim
widens its search from the relays of the plan to the hinted ones and ends when the
event is known, when no relay is left to try, or when its time is up.
-/
namespace RefEvents

open RefFetches RefKeys RefState Sorted Tables

/-- The tag has a value behind the given name. -/
def hasTagValue (ev : StoredEvent) (name value : String) : Bool :=
  ev.tags.any fun tag => tag[0]? = some name && tag[1]? = some value

def known (validator : ExternalIdValidator) (events : Table String StoredEvent)
    (primaryId : String) : Bool :=
  if isLowerHex64 primaryId then primaryId ∈ events
  else
    match externalIdFromKey validator primaryId with
    | some externalId => (values events).any fun ev => hasTagValue ev "i" externalId
    | none =>
      match splitCoordinate primaryId with
      | none => false
      | some (kindText, pubkey, dTag) =>
        match parseU32 kindText with
        | none => false
        | some kind => (values events).any fun ev =>
          ev.kind = kind && ev.author = pubkey && hasTagValue ev "d" dTag

def eventAlreadyKnown (h : Host) (s : Kernel) (primaryId : String) : Bool :=
  known h.externalIdValidator s.events primaryId

def inflightGuardMs : Nat := 3600000

/-- Only addressable kinds carry a `d` tag. -/
def replaceableKey (kind : Nat) (pubkey : String) (dTag : Option String) : ReplaceableKey :=
  if 30000 ≤ kind ∧ kind ≤ 39999 then .parameterized kind pubkey (dTag.getD "")
  else .regular kind pubkey

/-- When the identity is due; `force` overrides its stamp. -/
def dueAt (s : Kernel) (key : ReplaceableKey) (force : Bool) : Nat :=
  if force then 0 else (s.checkAgainAfter.lookup key).getD 0

/-- Queue the identity unless it is fresh or queued. -/
def claimReplaceable (s : Kernel) (kind : Nat) (pubkey : String) (dTag : Option String)
    (force : Bool) : Kernel :=
  let key := replaceableKey kind pubkey dTag
  if dueAt s key force < s.clockMs ∧ key ∉ s.pendingReverify then
    { s with
      pendingReverify := s.pendingReverify ++ [key]
      checkAgainAfter := s.checkAgainAfter.insert key (s.clockMs + inflightGuardMs) }
  else s

/-- The freshness gate of a cached coordinate. -/
def reverifyCoord (h : Host) (s : Kernel) (coord : Option (Nat × String × String))
    (force : Bool) : Kernel :=
  match coord with
  | none => s
  | some (kind, pubkeyHex, dTag) =>
    match h.publicKeyFromHex pubkeyHex with
    | none => s
    | some pubkey => claimReplaceable s kind pubkey (some dTag) force

def dropOwners (f : Fetches) (primaryId : String) (owners : List String) : Fetches :=
  owners.foldl (fun f owner => f.dropOwner (.eventClaim primaryId) (.eventClaim owner)) f

/-- The one end of an event key, on its last release as on a miss. -/
def teardownEventClaimKey (s : Kernel) (primaryId : String) : Kernel :=
  let liveOwners := ((s.eventRefs.live.lookup primaryId).getD ∅).elems
  { s with
    eventRefs := s.eventRefs.removeKey primaryId
    eventClaimRequested := s.eventClaimRequested.erase primaryId
    fetches := (dropOwners s.fetches primaryId liveOwners).releaseClaimExpansion primaryId
    versions := s.versions.clearEvent primaryId }

def maxProjectionMessages : Nat := 10000

def pushReleased (ring : List String) (primaryId : String) : List String :=
  (if maxProjectionMessages ≤ ring.length then ring.tail else ring) ++ [primaryId]

/-- A claim ends; a miss tears its key down. -/
def terminateClaim (s : Kernel) (interestId : SubKey) (reason : ClaimTermination) : Kernel :=
  match s.fetches.pendingClaims.lookup interestId with
  | none => s
  | some claim =>
    let marked : Fetches := { s.fetches with
      pendingClaims := s.fetches.pendingClaims.insert interestId
        { claim with phase := .terminal reason } }
    let s := { s with
      fetches := (marked.releaseClaimOneshotOwner claim.interestId).unindex interestId
      terminated := (claim.primaryId, reason) :: s.terminated }
    match reason with
    | .hit => s
    | _ =>
      let s := teardownEventClaimKey s claim.primaryId
      { s with eventClaimReleased := pushReleased s.eventClaimReleased claim.primaryId }

def isTerminal : Phase → Bool
  | .terminal _ => true
  | _ => false

def pruneTerminal (s : Kernel) : Kernel :=
  let live := filterMapValues (fun claim => if isTerminal claim.phase then none else some claim)
    s.fetches.pendingClaims
  { s with fetches := { s.fetches with pendingClaims := live } }

/-- The weight of a relay for an author, as the score map has it at the time of the poll. -/
abbrev Weight := String → String → Rat

/-- Heavier relays first, then the URLs backwards. -/
def candidateLe (weight : Weight) (author : Option String) (a b : String) : Bool :=
  let weigh := fun url => author.elim 0 fun author => weight author url
  decide (weigh b < weigh a) || decide (weigh a = weigh b) && decide (b ≤ a)

/-- `Vec::dedup`. -/
def dedup : List String → List String
  | a :: b :: rest => if a = b then dedup (b :: rest) else a :: dedup (b :: rest)
  | rest => rest

def relaysInFlight (claim : PendingClaim) : Nat := (claim.inFlightAttempts.image Prod.fst).card

def openSlots (claim : PendingClaim) : Nat := maxExpansionConcurrency - relaysInFlight claim

/-- The untried relays of the queue in the order of their weights. -/
def candidates (weight : Weight) (claim : PendingClaim) : List String :=
  dedup ((claim.candidateQueue.filter (· ∉ claim.attempted)).mergeSort
    (candidateLe weight claim.author))

def toPick (weight : Weight) (claim : PendingClaim) : Nat :=
  min (min (openSlots claim) (maxRelaysTriedPerClaim - claim.attempted.card))
    (candidates weight claim).length

def picked (weight : Weight) (claim : PendingClaim) : List String :=
  (candidates weight claim).take (toPick weight claim)

/-- The claim with its picks tried. -/
def retarget (h : Host) (weight : Weight) (claim : PendingClaim) : PendingClaim :=
  let picked := picked weight claim
  { claim with
    attempted := claim.attempted ∪ (picked.map h.canonicalRelay).toFinset
    candidateQueue := claim.candidateQueue.filter (· ∉ picked)
    phase := .phase2InFlight }

/-- Take the next candidates; in phase 1 a claim without any is exhausted. -/
def advanceToPhase2 (h : Host) (weight : Weight) (s : Kernel) (interestId : SubKey) : Kernel :=
  match s.fetches.pendingClaims.lookup interestId with
  | none => s
  | some claim =>
    if toPick weight claim = 0 ∧ claim.phase = .phase1 then terminateClaim s interestId .exhausted
    else
      match s.fetches.oneshot.tokenForInterest claim.interestId with
      | none => s
      | some token =>
        let fetches : Fetches := { s.fetches with
          pendingClaims := s.fetches.pendingClaims.insert interestId (retarget h weight claim) }
        let hinted : Interest := ⟨claim.shape, userHints (picked weight claim), .oneShot, false⟩
        { s with
          fetches := fetches.registerInterest true claim.interestId (.oneshot token) hinted }

/-- How a poll ends a claim. -/
def terminationDue (h : Host) (s : Kernel) (now : Nat) (claim : PendingClaim) :
    Option ClaimTermination :=
  if eventAlreadyKnown h s claim.primaryId then some .hit
  else if perClaimTotalBudgetMs ≤ claim.elapsedMs now then some .budget
  else if claim.phase = .phase2InFlight ∧ claim.candidateQueue = [] ∧
    claim.inFlightAttempts = ∅ then some .exhausted
  else none

/-- Whether a poll lets a claim take candidates. -/
def advanceDue (h : Host) (s : Kernel) (now : Nat) (claim : PendingClaim) : Bool :=
  !eventAlreadyKnown h s claim.primaryId && decide (claim.elapsedMs now < perClaimTotalBudgetMs) &&
    match claim.phase with
    | .phase1 => decide (phase1BudgetMs ≤ claim.elapsedMs now)
    | .phase2InFlight => decide (0 < openSlots claim ∧ claim.candidateQueue ≠ [] ∧
        claim.attempted.card < maxRelaysTriedPerClaim)
    | .terminal _ => false

def pollClaimExpansion (h : Host) (weight : Weight) (s : Kernel) (now : Nat) : Kernel :=
  let claims := s.fetches.pendingClaims.entries
  let toAdvance := (claims.filter fun e => advanceDue h s now e.2).map Sigma.fst
  let toTerminate := claims.filterMap fun e => (terminationDue h s now e.2).map fun r => (e.1, r)
  let s := toAdvance.foldl (advanceToPhase2 h weight) s
  let s := toTerminate.foldl (fun s due => terminateClaim s due.1 due.2) s
  pruneTerminal s

/-- The claim a subscription belongs to, by its index or by what is in flight. -/
def onClaimOutcomeHit (s : Kernel) (subId : String) : Kernel :=
  let found := s.fetches.claimSubIndex.lookup subId <|>
    ((values s.fetches.pendingClaims).find? fun claim =>
      decide (∃ attempt ∈ claim.inFlightAttempts, attempt.2 = subId)).map PendingClaim.interestId
  match found with
  | none => s
  | some interestId =>
    let s := terminateClaim s interestId .hit
    pruneTerminal { s with fetches := s.fetches.unindex interestId }

end RefEvents
