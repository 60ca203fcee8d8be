import NostrMultiPlatform.OwnedSlots
import NostrMultiPlatform.RefKeys

/-!
# Fetches of references

Interests in the registry, one-shot reads with their tokens, and the claims that
expand a one-shot to further relays. A subscription key is modelled by what is
hashed into it; the id of an interest is its key. All of them have global scope.
-/
namespace RefFetches

open OwnedSlots PlannerPlan PlannerShape Sorted Tables

inductive SubKey
  | oneshot (shape : InterestShape)
  | profileClaim (pubkey : String)
  | eventClaim (primaryId : String)
  deriving DecidableEq

inductive SubOwner
  | oneshot (token : Nat)
  | profileClaim (consumerId : String)
  | eventClaim (consumerId : String)
  deriving DecidableEq, Repr

/-- What the registry keeps under a key. -/
structure Interest where
  shape : InterestShape
  hints : List RelayHint
  lifecycle : InterestLifecycle
  isIndexerDiscovery : Bool
  deriving DecidableEq

/-- The pending one-shots by token, each with the key of its interest. -/
structure OneshotApi where
  pending : SortedMap Nat SubKey
  nextToken : Nat

namespace OneshotApi

def new : OneshotApi := ⟨∅, 0⟩

variable (api : OneshotApi)

def prepare (shape : InterestShape) : Nat × OneshotApi :=
  (api.nextToken, ⟨api.pending.insert api.nextToken (.oneshot shape), api.nextToken + 1⟩)

def forget (token : Nat) : OneshotApi :=
  { api with pending := api.pending.erase token }

/-- The first token of the interest. -/
def tokenForInterest (interestId : SubKey) : Option Nat :=
  (api.pending.rows.find? fun row => row.2 = interestId).map Prod.fst

def inFlight : Nat := api.pending.rows.length

end OneshotApi

inductive ClaimTermination
  | hit
  | exhausted
  | budget
  deriving DecidableEq, Repr

inductive Phase
  | phase1
  | phase2InFlight
  | terminal (reason : ClaimTermination)
  deriving DecidableEq, Repr

/-- Times are nanoseconds. -/
structure PendingClaim where
  interestId : SubKey
  primaryId : String
  author : Option String
  shape : InterestShape
  startedAt : Nat
  phase : Phase
  attempted : Finset String
  candidateQueue : List String
  inFlightAttempts : Finset (String × String)

def PendingClaim.elapsedMs (claim : PendingClaim) (now : Nat) : Nat :=
  min ((now - claim.startedAt) / 1000000) (2 ^ 64 - 1)

def phase1BudgetMs : Nat := 1500
def maxExpansionConcurrency : Nat := 3
def maxRelaysTriedPerClaim : Nat := 12
def perClaimTotalBudgetMs : Nat := 8000

structure Fetches where
  registry : Slots SubKey SubOwner Interest
  oneshot : OneshotApi
  pendingDiscoveryOneshots : Table SubKey Nat
  oneshotSubs : Table String Nat
  pendingClaims : Table SubKey PendingClaim
  claimSubIndex : Table String SubKey

def userHints (urls : List String) : List RelayHint := urls.map fun url => ⟨url, .userConfigured⟩

namespace Fetches

def new : Fetches := ⟨∅, .new, ∅, ∅, ∅, ∅⟩

variable (f : Fetches) (primaryId : String) (interestId : SubKey)

def registerInterest (replace : Bool) (key : SubKey) (owner : SubOwner) (interest : Interest) :
    Fetches :=
  { f with registry := attach f.registry replace key owner interest }

def dropOwner (key : SubKey) (owner : SubOwner) : Fetches :=
  { f with registry := (detach f.registry key owner).2 }

/-- Prepare a one-shot and register its interest if there is none. -/
def request (shape : InterestShape) (hints : List RelayHint) : Nat × Fetches :=
  let (token, oneshot) := f.oneshot.prepare shape
  (token, { f with oneshot := oneshot }.registerInterest false (.oneshot shape) (.oneshot token)
    ⟨shape, hints, .oneShot, true⟩)

/-- `OneshotApi::release`. -/
def release (token : Nat) : Fetches :=
  match f.oneshot.pending.lookup token with
  | none => f
  | some key => { f with oneshot := f.oneshot.forget token }.dropOwner key (.oneshot token)

def claimFor : Option PendingClaim :=
  (values f.pendingClaims).find? fun claim => claim.primaryId = primaryId

def registerClaimExpansion (author : Option String) (uriHints : List String) (startedAt : Nat) :
    Fetches :=
  if (f.claimFor primaryId).isSome then f
  else
    let shape := (value f.registry interestId).elim .default Interest.shape
    let claim : PendingClaim :=
      ⟨interestId, primaryId, author, shape, startedAt, .phase1, ∅, uriHints, ∅⟩
    { f with pendingClaims := f.pendingClaims.insert interestId claim }

/-- The token that waits for its frame, or else the first one of the interest. -/
def releaseClaimOneshotOwner : Fetches :=
  let token := f.pendingDiscoveryOneshots.lookup interestId <|>
    f.oneshot.tokenForInterest interestId
  let f := { f with pendingDiscoveryOneshots := f.pendingDiscoveryOneshots.erase interestId }
  match token with
  | none => f
  | some token => { f with
      oneshotSubs := filterMapValues (fun t => if t = token then none else some t) f.oneshotSubs
      }.release token

/-- Forget the subscriptions that lead to the claim. -/
def unindex : Fetches :=
  { f with claimSubIndex :=
      filterMapValues (fun id => if id = interestId then none else some id) f.claimSubIndex }

def releaseClaimExpansion : Fetches :=
  match f.claimFor primaryId with
  | none => f
  | some claim =>
    let f := (f.releaseClaimOneshotOwner claim.interestId).unindex claim.interestId
    { f with pendingClaims := f.pendingClaims.erase claim.interestId }

/-- A live claim retires the one-shot of its key. -/
def cancelEventOneshot : Fetches :=
  match f.claimFor primaryId with
  | none => f
  | some claim =>
    let released := match f.pendingDiscoveryOneshots.lookup claim.interestId with
      | none => f
      | some token =>
        { f with pendingDiscoveryOneshots := f.pendingDiscoveryOneshots.erase claim.interestId
          }.release token
    released.releaseClaimExpansion primaryId

def onClaimOutcomeEoseNoMatch (subId canonicalRelay : String) : Fetches :=
  match f.claimSubIndex.lookup subId with
  | none => f
  | some interestId => { f with pendingClaims := edit f.pendingClaims interestId fun claim =>
      { claim with
        inFlightAttempts := claim.inFlightAttempts.erase (canonicalRelay, subId)
        attempted := insert canonicalRelay claim.attempted } }

/-- The answer to a one-shot: claims keep their token until they end. -/
def completeUnknownOneshot (subId : String) : Fetches :=
  match f.oneshotSubs.lookup subId with
  | none => f
  | some token =>
    let f := { f with oneshotSubs := f.oneshotSubs.erase subId }
    if subId ∈ f.claimSubIndex then f else f.release token

/-- The token of a one-shot moves to the subscription of its frame. -/
def bridgeDiscovery (subId : String) (interestId : SubKey) : Fetches :=
  match f.pendingDiscoveryOneshots.lookup interestId with
  | none => f
  | some token => { f with
      pendingDiscoveryOneshots := f.pendingDiscoveryOneshots.erase interestId
      oneshotSubs := f.oneshotSubs.insert subId token }

/-- The claim of the interest counts one more attempt. -/
def recordAttempt (canonicalRelay subId : String) (interestId : SubKey) : Fetches :=
  match f.pendingClaims.lookup interestId with
  | none => f
  | some claim => { f with
      claimSubIndex := f.claimSubIndex.insert subId interestId
      pendingClaims := f.pendingClaims.insert interestId { claim with
        inFlightAttempts := insert (canonicalRelay, subId) claim.inFlightAttempts } }

/-- A subscription goes out to a relay for an interest. -/
def registerReq (canonicalRelay subId : String) (interestId : SubKey) : Fetches :=
  (f.bridgeDiscovery subId interestId).recordAttempt canonicalRelay subId interestId

end Fetches

end RefFetches
