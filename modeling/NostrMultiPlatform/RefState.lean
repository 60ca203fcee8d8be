import NostrMultiPlatform.RefFetches

/-!
# References and their owners

Both kinds of references count their consumers by key, with the shape each consumer
demands and which of them are live, and number the rows of each namespace from one
sequence that never rewinds.
-/
namespace RefState

open RefFetches RefKeys Sorted Tables

/-- The consumers of each key, the shapes they demand and those of them that are live. -/
structure RefTable (σ : Type) where
  claims : Table String (SortedSet String)
  shapes : Table String (Table String σ)
  live : Table String (SortedSet String)
  drops : Nat

/-- `MAX_CLAIMS_PER_PUBKEY` and `MAX_EVENT_CLAIMS_PER_KEY`. -/
def maxClaims : Nat := 256

/-- The widest of the shapes, if there is one. -/
def widest {σ : Type} (widen : σ → σ → σ) (shapes : Table String σ) : Option σ :=
  match values shapes with
  | [] => none
  | shape :: rest => some (rest.foldl widen shape)

namespace RefTable

variable {σ : Type}

def new : RefTable σ := ⟨∅, ∅, ∅, 0⟩

variable (t : RefTable σ) (key consumerId : String)

def consumers : SortedSet String := (t.claims.lookup key).getD ∅

def demanded (widen : σ → σ → σ) (t : RefTable σ) (key : String) : Option σ :=
  (t.shapes.lookup key).bind (widest widen)

/-- Count a consumer in; `none` beyond the bound, else whether it is new. -/
def claim : Option (Bool × RefTable σ) :=
  let consumers := t.consumers key
  if consumerId ∉ consumers ∧ maxClaims ≤ consumers.card then none
  else some (decide (consumerId ∉ consumers),
    { t with claims := t.claims.insert key (insert consumerId consumers) })

def overflow : RefTable σ := { t with drops := min (t.drops + 1) (2 ^ 64 - 1) }

def demand (shape : σ) : RefTable σ :=
  { t with shapes :=
      t.shapes.insert key (((t.shapes.lookup key).getD ∅).insert consumerId shape) }

def goLive : RefTable σ :=
  { t with live := t.live.insert key (insert consumerId ((t.live.lookup key).getD ∅)) }

/-- Count a consumer out: whether it was counted, and whether none is left in the row. -/
def unclaim : Bool × Bool × RefTable σ :=
  match t.claims.lookup key with
  | none => (false, false, t)
  | some consumers => (decide (consumerId ∈ consumers), decide (consumers.erase consumerId = ∅),
      { t with claims := t.claims.insert key (consumers.erase consumerId) })

def undemand : RefTable σ :=
  match t.shapes.lookup key with
  | none => t
  | some shapes =>
    if (shapes.erase consumerId).keys = [] then { t with shapes := t.shapes.erase key }
    else { t with shapes := t.shapes.insert key (shapes.erase consumerId) }

/-- Whether the consumer was live, and whether it was the last one to be. -/
def leaveLive : Bool × Bool × RefTable σ :=
  match t.live.lookup key with
  | none => (false, false, t)
  | some owners =>
    if consumerId ∈ owners then
      if owners.erase consumerId = ∅ then (true, true, { t with live := t.live.erase key })
      else (true, false, { t with live := t.live.insert key (owners.erase consumerId) })
    else (false, false, t)

def removeClaims : RefTable σ :=
  { t with claims := t.claims.erase key }

/-- Drop the claims, shapes and live owners of the key. -/
def removeKey : RefTable σ :=
  { t with claims := t.claims.erase key, shapes := t.shapes.erase key, live := t.live.erase key }

end RefTable

def saturatingSucc (n : Nat) : Nat := min (n + 1) (2 ^ 64 - 1)

/-- The revisions of the rows that are there, and the last one handed out. -/
structure RowRevs where
  ver : Nat
  revs : Table String Nat

namespace RowRevs

def new : RowRevs := ⟨0, ∅⟩

def rev (r : RowRevs) (key : String) : Nat := (r.revs.lookup key).getD 0

def bump (r : RowRevs) (key : String) : RowRevs :=
  ⟨saturatingSucc r.ver, r.revs.insert key (saturatingSucc r.ver)⟩

/-- The last revision of the row, which is dropped. -/
def clear (r : RowRevs) (key : String) : Nat × RowRevs :=
  if key ∈ r.revs then
    let bumped := r.bump key
    (bumped.rev key, { bumped with revs := bumped.revs.erase key })
  else (0, r)

end RowRevs

structure SourceVersions where
  profileClaimsVer : Nat
  claimedEventContentVer : Nat
  profileRows : RowRevs
  eventRows : RowRevs

namespace SourceVersions

def new : SourceVersions := ⟨0, 0, .new, .new⟩

variable (v : SourceVersions) (key : String)

/-- `bump_profile_claims` and `bump_profile_row`. -/
def bumpProfile : SourceVersions :=
  { v with profileClaimsVer := saturatingSucc v.profileClaimsVer, profileRows := v.profileRows.bump key }

/-- `bump_profile_claims` and `clear_profile_row`. -/
def clearProfile : SourceVersions :=
  { v with
    profileClaimsVer := saturatingSucc v.profileClaimsVer
    profileRows := (v.profileRows.clear key).2 }

/-- `bump_claimed_event_content` and `bump_event_row`. -/
def bumpEvent : SourceVersions :=
  { v with
    claimedEventContentVer := saturatingSucc v.claimedEventContentVer
    eventRows := v.eventRows.bump key }

/-- `bump_claimed_event_content` and `clear_event_row`. -/
def clearEvent : SourceVersions :=
  { v with
    claimedEventContentVer := saturatingSucc v.claimedEventContentVer
    eventRows := (v.eventRows.clear key).2 }

end SourceVersions

/-- What reading references sees of a cached event; the cache holds it under its id. -/
structure StoredEvent where
  author : String
  kind : Nat
  tags : List (List String)
  deriving DecidableEq, Repr

inductive ReplaceableKey
  | regular (kind : Nat) (pubkey : String)
  | parameterized (kind : Nat) (pubkey dTag : String)
  deriving DecidableEq, Repr

def ReplaceableKey.kind : ReplaceableKey → Nat
  | .regular kind _ => kind
  | .parameterized kind _ _ => kind

/-- A resolve of an event key with what came along; parked while no relay is connected. -/
structure PendingEventClaim where
  key : String
  consumerId : String
  shape : EventShape
  liveness : RefLiveness
  force : Bool
  eventAuthor : Option String
  relayHints : List String
  deriving DecidableEq, Repr

/-- The code around the references: the canonical form of a relay URL, the validator of external
ids, the lower-case hex of a public key that parses, and the lifetimes of replaceable kinds. -/
structure Host where
  canonicalRelay : String → String
  externalIdValidator : ExternalIdValidator
  publicKeyFromHex : String → Option String
  ttlForKind : Nat → Nat

structure Kernel where
  events : Table String StoredEvent
  store : Table String StoredEvent
  residentProfiles : SortedSet String
  connected : Bool
  clockMs : Nat
  fetches : Fetches
  eventRefs : RefTable EventShape
  eventClaimRequested : SortedSet String
  pendingEventClaims : List PendingEventClaim
  eventClaimReleased : List String
  /-- Every claim terminated so far, the last one first. -/
  terminated : List (String × ClaimTermination)
  profileRefs : RefTable ProfileShape
  versions : SourceVersions
  checkAgainAfter : Table ReplaceableKey Nat
  pendingReverify : List ReplaceableKey
  pendingReverifyOneshots : Table SubKey (List ReplaceableKey)
  reverifySubs : Table String (List ReplaceableKey)
  unknownEvents : SortedSet String
  unknownPubkeys : SortedSet String

def Kernel.new : Kernel where
  events := ∅
  store := ∅
  residentProfiles := ∅
  connected := false
  clockMs := 0
  fetches := .new
  eventRefs := .new
  eventClaimRequested := ∅
  pendingEventClaims := []
  eventClaimReleased := []
  terminated := []
  profileRefs := .new
  versions := .new
  checkAgainAfter := ∅
  pendingReverify := []
  pendingReverifyOneshots := ∅
  reverifySubs := ∅
  unknownEvents := ∅
  unknownPubkeys := ∅

end RefState
