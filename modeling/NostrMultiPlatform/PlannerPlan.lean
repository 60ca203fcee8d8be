import NostrMultiPlatform.PlannerShape

/-!
# Interests and plans

What goes into a compilation and what comes out. A sub-shape carries the hash of
its serialised filter: the FNV-1a digest of the JSON text, which leaves out how
`p` tags are routed.
-/
namespace PlannerPlan

open Sorted PlannerShape

inductive InterestScope
  | activeAccount
  | account (pubkey : String)
  | global
  deriving DecidableEq, Repr

inductive HintSource
  | eventTag (eventId tag : String) (position : Nat)
  | userConfigured
  | provenance (eventId : String)
  deriving DecidableEq, Repr

structure RelayHint where
  url : String
  source : HintSource
  deriving DecidableEq, Repr

structure LogicalInterest where
  id : Nat
  scope : InterestScope
  shape : InterestShape
  hints : List RelayHint
  lifecycle : InterestLifecycle
  isIndexerDiscovery : Bool
  deriving DecidableEq

inductive UserConfiguredCategory
  | accountRead
  | accountWrite
  | indexer
  | appRelay
  | debug
  | bootstrap
  | activePin
  deriving DecidableEq, Repr

/-- The place in the declaration order, by which categories are compared. -/
def UserConfiguredCategory.rank : UserConfiguredCategory → Nat
  | .accountRead => 0
  | .accountWrite => 1
  | .indexer => 2
  | .appRelay => 3
  | .debug => 4
  | .bootstrap => 5
  | .activePin => 6

theorem UserConfiguredCategory.rank_injective : Function.Injective rank := by
  intro a b h
  cases a <;> cases b <;> simp [rank] at h ⊢

instance : LinearOrder UserConfiguredCategory :=
  LinearOrder.lift' UserConfiguredCategory.rank UserConfiguredCategory.rank_injective

inductive RoutingSource
  | nip65
  | nip17DmRelay
  | hint
  | provenance
  | userConfigured (category : UserConfiguredCategory)
  deriving DecidableEq, Repr

def RoutingSource.rank : RoutingSource → Nat
  | .nip65 => 0
  | .nip17DmRelay => 1
  | .hint => 2
  | .provenance => 3
  | .userConfigured category => 4 + category.rank

theorem RoutingSource.rank_injective : Function.Injective rank := by
  intro a b h
  cases a <;> cases b <;> simp only [rank] at h
  all_goals first
    | rfl
    | omega
    | exact congrArg _ (UserConfiguredCategory.rank_injective (by omega))

instance : LinearOrder RoutingSource :=
  LinearOrder.lift' RoutingSource.rank RoutingSource.rank_injective

inductive HintOrigin
  | eventTag (eventId : String)
  | provenance (eventId : String)
  | userConfigured
  deriving DecidableEq, Repr

def HintOrigin.key : HintOrigin → Nat ×ₗ String
  | .eventTag eventId => toLex (0, eventId)
  | .provenance eventId => toLex (1, eventId)
  | .userConfigured => toLex (2, "")

theorem HintOrigin.key_injective : Function.Injective key := by
  intro a b h
  cases a <;> cases b <;> simp_all [key]

instance : LinearOrder HintOrigin := LinearOrder.lift' HintOrigin.key HintOrigin.key_injective

structure InterestAttribution where
  interestId : Nat
  kinds : SortedSet Nat
  authors : SortedSet String
  deriving DecidableEq

structure RelayAttribution where
  userConfigured : SortedSet UserConfiguredCategory
  outboxAuthors : SortedSet String
  hints : SortedSet HintOrigin
  interests : List InterestAttribution
  deriving DecidableEq

/-- `RelayAttribution::default()`. -/
def RelayAttribution.default : RelayAttribution := ⟨∅, ∅, ∅, []⟩

/-- The attribution of a relay grows with every entry. -/
def RelayAttribution.extend (a b : RelayAttribution) : RelayAttribution :=
  { userConfigured := a.userConfigured ∪ b.userConfigured
    outboxAuthors := a.outboxAuthors ∪ b.outboxAuthors
    hints := a.hints ∪ b.hints
    interests := a.interests ++ b.interests }

structure SubShape where
  shape : InterestShape
  originatingInterests : List Nat
  canonicalFilterHash : String
  deriving DecidableEq

structure RelayPlan where
  relayUrl : String
  roleTags : SortedSet RoutingSource
  subShapes : List SubShape
  attribution : RelayAttribution
  deriving DecidableEq

structure CompiledPlan where
  planId : String
  perRelay : SortedMap String RelayPlan
  unroutableAuthors : SortedSet String

def quote : Char := Char.ofNat 34

def backslash : Char := Char.ofNat 92

/-- The JSON escape of a character inside a string. -/
def jsonChar (c : Char) : List Char :=
  if c = quote then [backslash, quote]
  else if c = backslash then [backslash, backslash]
  else if c.toNat = 8 then [backslash, 'b']
  else if c.toNat = 9 then [backslash, 't']
  else if c.toNat = 10 then [backslash, 'n']
  else if c.toNat = 12 then [backslash, 'f']
  else if c.toNat = 13 then [backslash, 'r']
  else if c.toNat < 32 then
    [backslash, 'u', '0', '0', Nat.digitChar (c.toNat / 16), Nat.digitChar (c.toNat % 16)]
  else [c]

def jsonString (s : String) : List Char := quote :: s.toList.flatMap jsonChar ++ [quote]

def jsonNat (n : Nat) : List Char := Nat.toDigits 10 n

def jsonOption {α : Type} (render : α → List Char) : Option α → List Char
  | none => "null".toList
  | some a => render a

def jsonArray (items : List (List Char)) : List Char :=
  '[' :: (items.intersperse [',']).flatten ++ [']']

/-- An object from its rendered keys and values. -/
def jsonObject (rows : List (String × List Char)) : List Char :=
  Char.ofNat 123 ::
    ((rows.map fun row => jsonString row.1 ++ ':' :: row.2).intersperse [',']).flatten ++
    [Char.ofNat 125]

def jsonCoord (c : NaddrCoord) : List Char :=
  jsonObject [("pubkey", jsonString c.pubkey), ("kind", jsonNat c.kind), ("d_tag", jsonString c.dTag)]

/-- The serialised shape: an absent search is skipped, the routing of `p` tags always is. -/
def shapeJson (shape : InterestShape) : List Char :=
  jsonObject <|
    [("authors", jsonArray (shape.authors.elems.map jsonString)),
      ("kinds", jsonArray (shape.kinds.elems.map jsonNat)),
      ("tags", jsonObject (shape.tags.rows.map fun row =>
        (row.1, jsonArray (row.2.elems.map jsonString)))),
      ("since", jsonOption jsonNat shape.since),
      ("until", jsonOption jsonNat shape.until_),
      ("limit", jsonOption jsonNat shape.limit)] ++
    (shape.search.map fun query => ("search", jsonString query)).toList ++
    [("event_ids", jsonArray (shape.eventIds.elems.map jsonString)),
      ("addresses", jsonArray (shape.addresses.elems.map jsonCoord)),
      ("relay_pin", jsonOption jsonString shape.relayPin)]

def utf8 (cs : List Char) : List UInt8 := cs.flatMap String.utf8EncodeChar

/-- One step of the 64-bit FNV-1a digest. -/
def fnvByte (h : UInt64) (b : UInt8) : UInt64 := (h ^^^ b.toUInt64) * 0x100000001b3

def fnv (bytes : List UInt8) : UInt64 := bytes.foldl fnvByte 0xcbf29ce484222325

/-- Sixteen lowercase hexadecimal digits. -/
def hex16 (n : UInt64) : String :=
  let digits := Nat.toDigits 16 n.toNat
  String.ofList (List.replicate (16 - digits.length) '0' ++ digits)

/-- Strings are hashed with a closing byte each. -/
def canonicalFilterHash (shape : InterestShape) : String :=
  hex16 (fnv (utf8 "canonical-filter".toList ++ [255] ++ utf8 (shapeJson shape) ++ [255]))

/-- The wire sub-id of a sub-shape. -/
def subIdFor (shape : SubShape) : String := "sub-" ++ shape.canonicalFilterHash

/-- The part of a shape that is serialised. -/
def wireShape (shape : InterestShape) : InterestShape :=
  { shape with pTagRouting := .nip65ReadRelays }

theorem canonicalFilterHash_wireShape (shape : InterestShape) :
    canonicalFilterHash (wireShape shape) = canonicalFilterHash shape := rfl

end PlannerPlan
