import NostrMultiPlatform.PlannerShape

/-!
# Filters on the wire

A shape is handed to the filter builder of the nostr crate field by field, and
the builder writes the JSON object that the relay reads. The crate is a
parameter; what is relied on is the documented form of the object.
-/
namespace SubsFilter

open Sorted PlannerShape

/-- The values that occur in a filter object. -/
inductive JsonValue
  | strings (items : List String)
  | numbers (items : List Nat)
  | number (n : Nat)
  | text (s : String)
  deriving DecidableEq, Repr

/-- A filter object, as its rows. -/
abbrev FilterObject : Type := List (String × JsonValue)

structure Coordinate where
  kind : Nat
  publicKey : String
  identifier : String
  deriving DecidableEq, Repr

/-- The calls made on a new filter; a field that is not set stays absent. -/
structure Filter where
  authors : Option (List String)
  kinds : Option (List Nat)
  ids : Option (List String)
  customTags : List (Char × List String)
  coordinates : Option (List Coordinate)
  since : Option Nat
  until_ : Option Nat
  limit : Option Nat
  search : Option String
  deriving DecidableEq, Repr

/-- What is used of the nostr crate: strict hex parsing, single-letter tags and the serialiser. -/
structure NostrCrate where
  publicKeyFromHex : String → Option String
  eventIdFromHex : String → Option String
  singleLetterFromChar : Char → Bool
  toJson : Filter → FilterObject

/-- `Kind::from(k as u16)`. -/
def kindOf (k : Nat) : Nat := k % 65536

/-- A field is set to the parsed entries, unless none parses. -/
def parsed {α β : Type} (parse : α → Option β) (items : List α) : Option (List β) :=
  match items.filterMap parse with
  | [] => none
  | entries => some entries

variable (filter : Filter) (nostr : NostrCrate)

/-- Keys that are not a single letter are dropped. -/
def customTag (row : String × SortedSet String) : Option (Char × List String) :=
  match row.1.toList with
  | [c] => if nostr.singleLetterFromChar c then some (c, row.2.elems) else none
  | _ => none

def coordinate (a : NaddrCoord) : Option Coordinate :=
  (nostr.publicKeyFromHex a.pubkey).map fun pk => ⟨kindOf a.kind, pk, a.dTag⟩

def filterFor (shape : InterestShape) : Filter :=
  { authors := parsed nostr.publicKeyFromHex shape.authors.elems
    kinds := if shape.kinds = ∅ then none else some (shape.kinds.elems.map kindOf)
    ids := parsed nostr.eventIdFromHex shape.eventIds.elems
    customTags := shape.tags.rows.filterMap (customTag nostr)
    coordinates := parsed (coordinate nostr) shape.addresses.elems
    since := shape.since
    until_ := shape.until_
    limit := shape.limit
    search := shape.search }

def filterJsonFor (shape : InterestShape) : FilterObject :=
  nostr.toJson (filterFor nostr shape)

def isHexDigit (c : Char) : Bool :=
  ('0' ≤ c && c ≤ '9') || ('a' ≤ c && c ≤ 'f') || ('A' ≤ c && c ≤ 'F')

def lower (s : String) : String := String.ofList (s.toList.map Char.toLower)

/-- Thirty-two bytes in hex, whatever the case of the digits. -/
def hex64 (s : String) : Bool := s.toList.length = 64 && s.toList.all isHexDigit

/-- A parsed key is printed in lower case. -/
def fromHex (s : String) : Option String := if hex64 s then some (lower s) else none

def isLetter (c : Char) : Bool := ('a' ≤ c && c ≤ 'z') || ('A' ≤ c && c ≤ 'Z')

def Coordinate.display (c : Coordinate) : String :=
  toString c.kind ++ ":" ++ c.publicKey ++ ":" ++ c.identifier

/-- Coordinates are tag values too; the values of one letter are united. -/
def tagCalls : List (Char × List String) :=
  filter.customTags ++
    (filter.coordinates.map fun cs => ('a', cs.map Coordinate.display)).toList

def genericTags : SortedMap Char (SortedSet String) :=
  (tagCalls filter).foldl
    (fun tags call => tags.alter call.1 fun values => values.getD ∅ ∪ SortedSet.ofList call.2) ∅

def tagName (c : Char) : String := String.ofList ['#', c]

/-- The rows of the object; sets are written without repetition. -/
def objectOf : FilterObject :=
  (filter.ids.map fun ids => ("ids", JsonValue.strings (SortedSet.ofList ids).elems)).toList ++
  (filter.authors.map fun as => ("authors", JsonValue.strings (SortedSet.ofList as).elems)).toList ++
  (filter.kinds.map fun ks => ("kinds", JsonValue.numbers (SortedSet.ofList ks).elems)).toList ++
  (filter.search.map fun q => ("search", JsonValue.text q)).toList ++
  (filter.since.map fun t => ("since", JsonValue.number t)).toList ++
  (filter.until_.map fun t => ("until", JsonValue.number t)).toList ++
  (filter.limit.map fun n => ("limit", JsonValue.number n)).toList ++
  (genericTags filter).rows.map fun row => (tagName row.1, JsonValue.strings row.2.elems)

/-- The crate with the documented parsing and the documented object. -/
def documentedCrate : NostrCrate := ⟨fromHex, fromHex, isLetter, objectOf⟩

end SubsFilter
