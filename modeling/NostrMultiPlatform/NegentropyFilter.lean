import NostrMultiPlatform.PlannerShape
import NostrMultiPlatform.StoreEvent

/-!
# Filters that can be reconciled

A filter is taken from its JSON object when every field is structural. It knows a
bound on its results, reads the matching events of the store, and has two variants:
without its lower time bound, and for live events only.
-/
namespace NegentropyFilter

open StoreEvent

/-- A parsed value; a number that is no unsigned integer keeps its text. -/
inductive Json where
  | null
  | bool (b : Bool)
  | uint (n : Nat)
  | number (text : String)
  | string (s : String)
  | array (items : List Json)
  | object (rows : List (String × Json))

inductive FilterEligibilityError where
  | malformedJson
  | notObject
  | unsupportedField (key : String)
  | searchUnsupported
  | invalidField (field : String)
  | noLocalQuery
  | store (e : String)
  deriving DecidableEq, Repr

variable (value : Option Json)

def parseStringArray (field : String) : Except FilterEligibilityError (List String) :=
  match value with
  | none => .ok []
  | some (.array items) => items.mapM fun
    | .string s => .ok s
    | _ => .error (.invalidField field)
  | some _ => .error (.invalidField field)

def parseKindArray : Except FilterEligibilityError (List Nat) :=
  match value with
  | none => .ok []
  | some (.array items) => items.mapM fun
    | .uint n => if n < 2 ^ 32 then .ok n else .error (.invalidField "kinds")
    | _ => .error (.invalidField "kinds")
  | some _ => .error (.invalidField "kinds")

/-- `parse_optional_u64` and, on a 64-bit target, `parse_optional_usize`. -/
def parseOptional (field : String) : Except FilterEligibilityError (Option Nat) :=
  match value with
  | none => .ok none
  | some (.uint n) => .ok (some n)
  | some _ => .error (.invalidField field)

/-- The tag letter of a field, or nothing for one of the six plain fields. -/
def tagKey (key : String) : Except FilterEligibilityError (Option String) :=
  if key ∈ ["ids", "authors", "kinds", "since", "until", "limit"] then .ok none
  else if key = "search" then .error .searchUnsupported
  else
    match key.toList with
    | ['#', letter] =>
      if letter.isAlpha then .ok (some (String.singleton letter))
      else .error (.unsupportedField key)
    | _ => .error (.unsupportedField key)

/-- The tag rows, in the order of the fields; the first field that is not accepted decides. -/
def parseTags : List (String × Json) →
    Except FilterEligibilityError (List (String × List String))
  | [] => .ok []
  | (key, value) :: rows => do
    match ← tagKey key with
    | none => parseTags rows
    | some letter =>
      let values ← parseStringArray (some value) "tag"
      return (letter, values) :: (← parseTags rows)

/-- `rows` is the JSON object the other fields were read from. -/
structure EligibleFilter where
  rows : List (String × Json)
  ids : List String
  authors : List String
  kinds : List Nat
  tags : List (String × List String)
  since : Option Nat
  until_ : Option Nat
  limit : Option Nat

/-- Parse and validate a filter object; no value stands for text that is no JSON. -/
def EligibleFilter.parse : Except FilterEligibilityError EligibleFilter :=
  match value with
  | none => .error .malformedJson
  | some (.object rows) => do
    let tags ← parseTags rows
    let ids ← parseStringArray (rows.lookup "ids") "ids"
    let authors ← parseStringArray (rows.lookup "authors") "authors"
    let kinds ← parseKindArray (rows.lookup "kinds")
    let since ← parseOptional (rows.lookup "since") "since"
    let until_ ← parseOptional (rows.lookup "until") "until"
    let limit ← parseOptional (rows.lookup "limit") "limit"
    return ⟨rows, ids, authors, kinds, tags, since, until_, limit⟩
  | some _ => .error .notObject

/-- `knownMax` is a static bound on the number of results. -/
inductive ResultSurface where
  | knownMax (max : Nat)
  | unbounded
  deriving DecidableEq, Repr

def saturatingMul (a b : Nat) : Nat := min (a * b) (2 ^ 64 - 1)

def minKnown (current : Option Nat) (candidate : Nat) : Option Nat :=
  some (match current with
    | none => candidate
    | some current => min current candidate)

namespace EligibleFilter

variable (f : EligibleFilter)

def isReplaceableAuthorKey : Bool :=
  !f.authors.isEmpty && !f.kinds.isEmpty &&
    f.kinds.all fun k => k == 0 || k == 3 || (decide (10000 ≤ k) && decide (k ≤ 19999))

def isAddressableAuthorDKey : Bool :=
  !f.authors.isEmpty && !f.kinds.isEmpty && (f.tags.lookup "d").any (fun values => !values.isEmpty) &&
    f.kinds.all fun k => decide (30000 ≤ k) && decide (k ≤ 39999)

/-- Static upper bound for the possible result set. -/
def resultSurface : ResultSurface :=
  let known := if f.ids.isEmpty then none else some f.ids.length
  let known :=
    if f.isReplaceableAuthorKey then
      minKnown known (saturatingMul f.authors.length f.kinds.length)
    else known
  let known :=
    match f.tags.lookup "d" with
    | none => known
    | some dValues =>
      if f.isAddressableAuthorDKey then
        minKnown known
          (saturatingMul (saturatingMul f.authors.length f.kinds.length) dValues.length)
      else known
  let known :=
    match f.limit with
    | none => known
    | some limit => minKnown known limit
  match known with
  | none => .unbounded
  | some max => .knownMax max

/-- The filter without its lower time bound; upper bound and limit stay. -/
def unfloored : EligibleFilter :=
  { f with rows := f.rows.filter fun row => row.1 ≠ "since", since := none }

/-- The object of the filter with `limit` set to zero. -/
def liveOnly : Json :=
  .object (("limit", .uint 0) :: f.rows.filter fun row => row.1 ≠ "limit")

def matchesTag (ev : RawEvent) (tag : String × List String) : Bool :=
  tag.2.isEmpty || ev.tags.any fun row =>
    match row with
    | key :: value :: _ => key == tag.1 && tag.2.contains value
    | _ => false

def «matches» (ev : RawEvent) : Bool :=
  (f.ids.isEmpty || f.ids.contains ev.id) &&
  (f.authors.isEmpty || f.authors.contains ev.pubkey) &&
  (f.kinds.isEmpty || f.kinds.contains ev.kind) &&
  f.since.all (fun since => decide (since ≤ ev.createdAt)) &&
  f.until_.all (fun until_ => decide (ev.createdAt ≤ until_)) &&
  f.tags.all (matchesTag ev)

end EligibleFilter

/-- The store queries that the filter reads candidates by. -/
inductive StoreQuery where
  | authorKind (author : PubKey) (kinds : List Nat) (since until_ : Option Nat)
  | authorsKind (authors : List PubKey) (kinds : List Nat) (since until_ : Option Nat)
  | kindTime (kinds : List Nat) (since until_ : Option Nat)
  | tags (authors : List PubKey) (kinds : List Nat) (tags : List (String × List String))
    (since until_ : Option Nat)

/-- What the filter reads of a store. -/
structure EventStore where
  getById : EventId → Except String (Option RawEvent)
  queryVisit : StoreQuery → Except String (List RawEvent)

structure SyncedItem where
  createdAt : Nat
  id : EventId
  deriving DecidableEq, Repr

/-- Newest first, then by id. -/
def SyncedItem.before (a b : SyncedItem) : Bool :=
  decide (b.createdAt < a.createdAt) || (a.createdAt == b.createdAt && decide (a.id ≤ b.id))

namespace EligibleFilter

variable (f : EligibleFilter)

def storeQueries : List StoreQuery :=
  let authors := (f.authors.filterMap hexToBytes32).dedup
  let tags := f.tags.filter fun tag => !tag.2.isEmpty
  if !tags.isEmpty then [.tags authors f.kinds tags f.since f.until_]
  else
    match authors, f.kinds.isEmpty with
    | [author], false => [.authorKind author f.kinds f.since f.until_]
    | _ :: _ :: _, false => [.authorsKind authors f.kinds f.since f.until_]
    | _, _ => [.kindTime f.kinds f.since f.until_]

def pushIfMatch (out : List SyncedItem) (ev : RawEvent) : List SyncedItem :=
  if f.matches ev then
    match hexToBytes32 ev.id with
    | none => out
    | some id => if out.any (fun item => item.id == id) then out else out ++ [⟨ev.createdAt, id⟩]
  else out

def applyLimit (out : List SyncedItem) : List SyncedItem :=
  let sorted := out.mergeSort SyncedItem.before
  match f.limit with
  | none => sorted
  | some limit => sorted.take limit

def visitIds (store : EventStore) : List String → List SyncedItem →
    Except FilterEligibilityError (List SyncedItem)
  | [], out => .ok out
  | idHex :: rest, out =>
    match hexToBytes32 idHex with
    | none => visitIds store rest out
    | some id =>
      match store.getById id with
      | .error e => .error (.store e)
      | .ok none => visitIds store rest out
      | .ok (some ev) => visitIds store rest (f.pushIfMatch out ev)

def visitQueries (store : EventStore) : List StoreQuery → List SyncedItem →
    Except FilterEligibilityError (List SyncedItem)
  | [], out => .ok out
  | query :: rest, out =>
    match store.queryVisit query with
    | .error e => .error (.store e)
    | .ok rows => visitQueries store rest (rows.foldl f.pushIfMatch out)

/-- The items of the store that match. -/
def localItems (store : EventStore) : Except FilterEligibilityError (List SyncedItem) :=
  if f.limit = some 0 then .ok []
  else if !f.ids.isEmpty then (f.visitIds store f.ids []).map f.applyLimit
  else if f.storeQueries.isEmpty then .error .noLocalQuery
  else (f.visitQueries store f.storeQueries []).map f.applyLimit

end EligibleFilter

end NegentropyFilter
