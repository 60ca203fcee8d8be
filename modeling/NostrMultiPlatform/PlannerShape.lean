import Mathlib.Data.Prod.Lex
import Mathlib.Data.String.Basic
import NostrMultiPlatform.Sorted

/-!
# Interest shapes

A shape is a normalised filter. An empty set is a wildcard, a missing bound is
no bound. Matching reads the dimensions a relay would honour; the routing fields
and the relay-evaluated search never take part.
-/
namespace PlannerShape

open Sorted

inductive PTagRouting
  | nip65ReadRelays
  | nip17DmRelays
  deriving DecidableEq, Repr

def PTagRouting.planHashTag : PTagRouting → Nat
  | .nip65ReadRelays => 0
  | .nip17DmRelays => 1

/-- The coordinate of an addressable event. -/
structure NaddrCoord where
  pubkey : String
  kind : Nat
  dTag : String
  deriving DecidableEq, Repr

/-- The fields in the order they are compared. -/
def NaddrCoord.key (c : NaddrCoord) : String ×ₗ Nat ×ₗ String := toLex (c.pubkey, toLex (c.kind, c.dTag))

theorem NaddrCoord.key_injective : Function.Injective NaddrCoord.key := by
  intro a b h
  cases a
  cases b
  simpa [key] using h

instance : LinearOrder NaddrCoord := LinearOrder.lift' NaddrCoord.key NaddrCoord.key_injective

structure InterestShape where
  authors : SortedSet String
  kinds : SortedSet Nat
  tags : SortedMap String (SortedSet String)
  since : Option Nat
  until_ : Option Nat
  limit : Option Nat
  search : Option String
  eventIds : SortedSet String
  addresses : SortedSet NaddrCoord
  relayPin : Option String
  pTagRouting : PTagRouting
  deriving DecidableEq

/-- `InterestShape::default()`. -/
def InterestShape.default : InterestShape :=
  ⟨∅, ∅, ∅, none, none, none, none, ∅, ∅, none, .nip65ReadRelays⟩

inductive InterestLifecycle
  | tailing
  | oneShot
  deriving DecidableEq, Repr

/-- What matching reads of an event. -/
structure Event where
  id : String
  author : String
  kind : Nat
  createdAt : Nat
  tags : List (List String)
  deriving DecidableEq, Repr

/-- The value of the first `d` row, if it has one. -/
def dTagValue (tags : List (List String)) : Option String :=
  (tags.find? fun row => row[0]? = some "d").bind fun row => row[1]?

def addressCoordMatches (coord : NaddrCoord) (author : String) (kind : Nat)
    (tags : List (List String)) : Bool :=
  if kind ≠ coord.kind ∨ author ≠ coord.pubkey then false
  else if coord.dTag = "" then (dTagValue tags).all (· = "")
  else dTagValue tags = some coord.dTag

/-- Some row of the key carries a wanted value. -/
def carries (tags : List (List String)) (key : String) (wanted : SortedSet String) : Bool :=
  tags.any fun row => row[0]? = some key && row[1]?.any (· ∈ wanted)

/-- A tag dimension is honoured if it names values under a one-byte key. -/
def queryable (key : String) (wanted : SortedSet String) : Bool :=
  wanted ≠ ∅ && key.utf8ByteSize = 1

def matchesEvent (shape : InterestShape) (author : String) (kind createdAt : Nat)
    (tags : List (List String)) : Bool :=
  (shape.authors = ∅ || author ∈ shape.authors) &&
  (shape.kinds = ∅ || kind ∈ shape.kinds) &&
  shape.since.all (· ≤ createdAt) &&
  shape.until_.all (createdAt ≤ ·) &&
  (shape.addresses = ∅ ||
    shape.addresses.elems.any fun coord => addressCoordMatches coord author kind tags) &&
  shape.tags.rows.all fun row => !queryable row.1 row.2 || carries tags row.1 row.2

def matchesEventWithId (shape : InterestShape) (e : Event) : Bool :=
  (shape.eventIds = ∅ || e.id ∈ shape.eventIds) &&
    matchesEvent shape e.author e.kind e.createdAt e.tags

end PlannerShape
