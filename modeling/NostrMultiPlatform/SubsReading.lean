import NostrMultiPlatform.NegentropyFilter
import NostrMultiPlatform.SubsAgreement
import NostrMultiPlatform.WalletProof

/-!
# Filters read back

A filter object is read key by key. What the builder wrote for a well-formed shape
reads as that shape; kinds and limits of others are cut to 32 bits.
-/
namespace SubsReading

open NegentropyFilter (Json)
open Sorted PlannerShape SubsFilter SubsAgreement SortedSet SortedMap

/-- `MAX_SEARCH_QUERY_CHARS`. -/
def maxSearchQueryChars : Nat := 256

def boundedSearchQuery (value : String) : Option String :=
  match WalletProof.trimChars value.toList with
  | [] => none
  | trimmed => some (String.ofList (trimmed.take maxSearchQueryChars))

def asStr : Json → Option String
  | .string s => some s
  | _ => none

def asU64 : Json → Option Nat
  | .uint n => some n
  | _ => none

def asArray : Json → Option (List Json)
  | .array items => some items
  | _ => none

/-- The value of a key; an object has each key once. -/
def field (rows : List (String × Json)) (key : String) : Option Json :=
  (rows.find? (·.1 = key)).map (·.2)

/-- The entries of an array that read as wanted; others are skipped. -/
def entries {α : Type} (read : Json → Option α) (value : Option Json) : List α :=
  ((value.bind asArray).getD []).filterMap read

def parseCoord (text : String) : Option NaddrCoord :=
  (StoreEvent.splitAddr text).bind fun (kindText, pubkey, dTag) =>
    (StoreEvent.parseU32 kindText).map fun kind => ⟨pubkey, kind, dTag⟩

/-- `#` and one character, but for coordinates. -/
def tagRow (row : String × Json) : Option (String × List String) :=
  match row.1.toList with
  | ['#', c] =>
    if c = 'a' then none
    else (asArray row.2).map fun items => (String.ofList [c], items.filterMap asStr)
  | _ => none

def fromFilterJson : Json → Option InterestShape
  | .object rows => some
    { InterestShape.default with
      kinds := ofList ((entries asU64 (field rows "kinds")).map (· % 2 ^ 32))
      authors := ofList (entries asStr (field rows "authors"))
      eventIds := ofList (entries asStr (field rows "ids"))
      since := (field rows "since").bind asU64
      until_ := (field rows "until").bind asU64
      limit := ((field rows "limit").bind asU64).map (· % 2 ^ 32)
      search := ((field rows "search").bind asStr).bind boundedSearchQuery
      addresses := ofList ((entries asStr (field rows "#a")).filterMap parseCoord)
      tags := (rows.filterMap tagRow).foldl (fun tags call =>
        tags.alter call.1 fun values => values.getD ∅ ∪ ofList call.2) ∅ }
  | _ => none

/-- The kinds and the limit of the shape are the numbers of the object. -/
structure SameNumbers (rows : List (String × Json)) (shape : InterestShape) : Prop where
  kinds : shape.kinds = ofList (entries asU64 (field rows "kinds"))
  limit : shape.limit = (field rows "limit").bind asU64

/-- The kinds and the limit of the object fit 32 bits. -/
structure Fits (rows : List (String × Json)) : Prop where
  kinds : ∀ k ∈ entries asU64 (field rows "kinds"), k < 2 ^ 32
  limit : ∀ n ∈ (field rows "limit").bind asU64, n < 2 ^ 32

variable {rows : List (String × Json)} {shape : InterestShape}

theorem sameNumbers_iff (h : fromFilterJson (.object rows) = some shape) :
    SameNumbers rows shape ↔ Fits rows := by
  obtain rfl := Option.some.inj h
  constructor
  · intro ⟨hkinds, hlimit⟩
    refine ⟨fun k hk => ?_, fun n hn => ?_⟩
    · have hmem := mem_ofList.mpr hk
      rw [← hkinds, mem_ofList] at hmem
      obtain ⟨k', -, rfl⟩ := List.mem_map.mp hmem
      exact Nat.mod_lt _ (by decide)
    · rw [Option.mem_def.mp hn, Option.map_some] at hlimit
      have := Option.some.inj hlimit
      omega
  · intro ⟨hkinds, hlimit⟩
    refine ⟨?_, ?_⟩
    · refine congrArg ofList ((List.map_congr_left fun k hk => ?_).trans (List.map_id _))
      exact Nat.mod_eq_of_lt (hkinds k hk)
    · change Option.map _ _ = _
      cases hn : (field rows "limit").bind asU64 with
      | none => rfl
      | some n => exact congrArg some (Nat.mod_eq_of_lt (hlimit n hn))

def jsonOf : JsonValue → Json
  | .strings items => .array (items.map .string)
  | .numbers items => .array (items.map .uint)
  | .number n => .uint n
  | .text s => .string s

/-- The object the builder writes, as it is parsed. -/
def parsedFilter (nostr : NostrCrate) (shape : InterestShape) : List (String × Json) :=
  (filterJsonFor nostr shape).map fun row => (row.1, jsonOf row.2)

/-- Keys in lower case, coordinates as addresses, a limit that is a `u32` and a search as it is
bounded. -/
structure Canonical (shape : InterestShape) : Prop extends WellFormed shape where
  lowerIds : ∀ id ∈ shape.eventIds, lower id = id
  lowerAuthors : ∀ author ∈ shape.authors, lower author = author
  lowerCoords : ∀ coord ∈ shape.addresses, lower coord.pubkey = coord.pubkey
  addressed : shape.tags.lookup "a" = none
  limit : ∀ n ∈ shape.limit, n < 2 ^ 32
  search : ∀ q ∈ shape.search, boundedSearchQuery q = some q

variable {nostr : NostrCrate}

@[simp] theorem filterMap_asStr (xs : List String) : xs.filterMap (asStr ∘ .string) = xs :=
  List.filterMap_some

@[simp] theorem filterMap_asU64 (xs : List Nat) : xs.filterMap (asU64 ∘ .uint) = xs :=
  List.filterMap_some

theorem tagRow_tagName (c : Char) (values : SortedSet String) :
    tagRow (tagName c, jsonOf (.strings values.elems)) =
      if c = 'a' then none else some (String.ofList [c], values.elems) := by
  simp only [tagRow, tagName, String.toList_ofList, jsonOf, asArray, Option.map_some,
    List.filterMap_map, filterMap_asStr]

theorem tagName_ne (key : String) (h : key.toList.head? ≠ some '#') (c : Char) : tagName c ≠ key := by
  rintro rfl
  exact h (by simp [tagName])

/-- A key is read as the only value the builder writes under it. -/
theorem field_of_mem (hdoc : Documented nostr) {key : String} {value : Option JsonValue}
    (h : ∀ v, (key, v) ∈ objectOf (filterFor nostr shape) ↔ value = some v) :
    field (parsedFilter nostr shape) key = value.map jsonOf := by
  have hmem : ∀ v, (key, v) ∈ filterJsonFor nostr shape ↔ value = some v :=
    fun v => (hdoc.toJson _).mem_iff.trans (h v)
  rw [field, parsedFilter, List.find?_map]
  cases hfound : (filterJsonFor nostr shape).find? ((fun row : String × Json => decide (row.1 = key)) ∘
      fun row => (row.1, jsonOf row.2)) with
  | none =>
    refine (Option.map_eq_none_iff.mpr (Option.eq_none_iff_forall_ne_some.mpr fun v hv => ?_)).symm
    have hnot := List.find?_eq_none.mp hfound _ ((hmem v).mpr hv)
    simp at hnot
  | some row =>
    have hkey : row.1 = key := by simpa using List.find?_some hfound
    rw [(hmem row.2).mp (hkey ▸ List.mem_of_find?_eq_some hfound)]
    rfl

theorem parseCoord_coordText {coord : NaddrCoord} (hlower : lower coord.pubkey = coord.pubkey)
    (hhex : hex64 coord.pubkey = true) (hkind : coord.kind ≤ 65535) :
    parseCoord (coordText coord) = some coord := by
  have hpubkey : ':' ∉ coord.pubkey.toList := fun hcolon => by
    simp only [hex64, Bool.and_eq_true] at hhex
    exact absurd (List.all_eq_true.mp hhex.2 _ hcolon) (by decide)
  have htext : coordText coord = StoreEvent.addrKey (toString coord.kind) coord.pubkey coord.dTag := by
    rw [coordText, hlower]
    rfl
  rw [parseCoord, htext, StoreEvent.splitAddr_addrKey _ _ _ (StoreEvent.colon_notMem_toString _) hpubkey]
  simp only [Option.bind_some, StoreEvent.parseU32]
  rw [StoreEvent.parseUInt_toString _ _ (by omega)]
  rfl

section

variable (hdoc : Documented nostr)
include hdoc

/-- Hex keys in lower case are read as they were written. -/
theorem read_keys {keys : SortedSet String} {key : String}
    (hrow : ∀ v, (key, v) ∈ objectOf (filterFor nostr shape) ↔
      (parsed fromHex keys.elems).map (fun xs => JsonValue.strings (ofList xs).elems) = some v)
    (hhex : ∀ s ∈ keys, hex64 s = true) (hlower : ∀ s ∈ keys, lower s = s) :
    ofList (entries asStr (field (parsedFilter nostr shape) key)) = keys := by
  have hmap : keys.elems.map lower = keys.elems :=
    (List.map_congr_left hlower).trans (List.map_id _)
  rw [field_of_mem hdoc hrow, parsed_fromHex hhex, hmap]
  refine SortedSet.ext fun s => ?_
  by_cases hempty : keys = ∅
  · subst hempty
    simp [entries, elems_eq_nil.mpr]
  · simp [mt elems_eq_nil.mp hempty, entries, asArray, jsonOf, asStr]

theorem read_kinds (hkinds : ∀ kind ∈ shape.kinds, kind ≤ 65535) :
    ofList ((entries asU64 (field (parsedFilter nostr shape) "kinds")).map (· % 2 ^ 32)) =
      shape.kinds := by
  have hrow : ∀ v, ("kinds", v) ∈ objectOf (filterFor nostr shape) ↔
      (filterFor nostr shape).kinds.map (fun ks => JsonValue.numbers (ofList ks).elems) = some v :=
    fun v => by simp [objectOf, tagName_ne "kinds" (by decide)]
  rw [field_of_mem hdoc hrow, filterFor]
  refine SortedSet.ext fun k => ?_
  by_cases hempty : shape.kinds = ∅
  · simp [hempty, entries]
  · have hmod : ∀ kind ∈ shape.kinds, kindOf kind % 2 ^ 32 = kind := by
      intro kind hkind
      have := hkinds kind hkind
      rw [kindOf]
      omega
    simp only [hempty, if_false, Option.map_some, entries, Option.bind_some, asArray, jsonOf,
      Option.getD_some, List.filterMap_map, filterMap_asU64, mem_ofList, List.mem_map, mem_elems,
      exists_exists_and_eq_and]
    refine ⟨?_, fun h => ⟨k, h, hmod k h⟩⟩
    rintro ⟨kind, h, rfl⟩
    rwa [hmod kind h]

theorem read_coords (hwf : Canonical shape) :
    ofList ((entries asStr (field (parsedFilter nostr shape) "#a")).filterMap parseCoord) =
      shape.addresses := by
  have hrow : ∀ v, ("#a", v) ∈ objectOf (filterFor nostr shape) ↔
      ((genericTags (filterFor nostr shape)).lookup 'a').map
        (fun values => JsonValue.strings values.elems) = some v := by
    intro v
    have hname : ∀ c, tagName c = "#a" ↔ c = 'a' := fun c =>
      ⟨fun h => by simpa [tagName] using congrArg String.toList h, fun h => h ▸ rfl⟩
    simp [objectOf, hname, ← lookup_eq_some]
  have htexts : entries asStr (field (parsedFilter nostr shape) "#a") =
      (((genericTags (filterFor nostr shape)).lookup 'a').getD ∅).elems := by
    rw [field_of_mem hdoc hrow]
    cases (genericTags (filterFor nostr shape)).lookup 'a' with
    | none => rfl
    | some values => simp [entries, asArray, jsonOf, asStr]
  have hcoord : ∀ coord ∈ shape.addresses, parseCoord (coordText coord) = some coord :=
    fun coord h => parseCoord_coordText (hwf.lowerCoords coord h) (hwf.coords coord h).1
      (hwf.coords coord h).2
  refine SortedSet.ext fun coord => ?_
  rw [htexts, mem_ofList, List.mem_filterMap]
  simp only [mem_elems, genericTags_wanted hdoc hwf.toWellFormed, Wanted]
  constructor
  · rintro ⟨text, hrow | ⟨-, coord', hcoord', rfl⟩, hparse⟩
    · rw [show String.ofList ['a'] = "a" from rfl, hwf.addressed] at hrow
      exact absurd hrow (not_mem_empty text)
    · rw [hcoord coord' hcoord'] at hparse
      exact Option.some.inj hparse ▸ hcoord'
  · exact fun h => ⟨_, .inr ⟨trivial, coord, h, rfl⟩, hcoord coord h⟩

/-- The letters but `a`, with their values. -/
theorem mem_tagRows {call : String × List String} :
    call ∈ (parsedFilter nostr shape).filterMap tagRow ↔
      ∃ c values, c ≠ 'a' ∧ (genericTags (filterFor nostr shape)).lookup c = some values ∧
        (String.ofList [c], values.elems) = call := by
  rw [List.mem_filterMap]
  constructor
  · rintro ⟨row, hrow, hcall⟩
    obtain ⟨row, hwritten, rfl⟩ := List.mem_map.mp hrow
    have hmem := (hdoc.toJson _).mem_iff.mp hwritten
    simp only [objectOf, List.mem_append, Option.mem_toList, Option.map_eq_some_iff] at hmem
    rcases hmem with hbase | hletter
    · have hkey : row.1.toList.head? ≠ some '#' := by
        rcases hbase with ((((((⟨_, -, rfl⟩ | ⟨_, -, rfl⟩) | ⟨_, -, rfl⟩) | ⟨_, -, rfl⟩) | ⟨_, -, rfl⟩) |
          ⟨_, -, rfl⟩) | ⟨_, -, rfl⟩) <;> dsimp only <;> decide
      unfold tagRow at hcall
      split at hcall
      next c heq =>
        dsimp only at heq
        exact absurd (heq ▸ rfl) hkey
      next => cases hcall
    · obtain ⟨⟨c, values⟩, hlookup, rfl⟩ := List.mem_map.mp hletter
      obtain ⟨hc, hcall⟩ := Option.ite_none_left_eq_some.mp ((tagRow_tagName c values).symm.trans hcall)
      exact ⟨c, values, hc, lookup_eq_some.mpr hlookup, Option.some.inj hcall⟩
  · rintro ⟨c, values, hc, hlookup, rfl⟩
    refine ⟨(tagName c, jsonOf (.strings values.elems)), List.mem_map.mpr
      ⟨(tagName c, .strings values.elems), (hdoc.toJson _).mem_iff.mpr ?_, rfl⟩, ?_⟩
    · exact List.mem_append_right _ (List.mem_map.mpr ⟨_, lookup_eq_some.mp hlookup, rfl⟩)
    · exact (tagRow_tagName c values).trans (if_neg hc)

end

theorem eq_of_values {a b : Option (SortedSet String)}
    (hsome : (∃ values, a = some values) ↔ ∃ values, b = some values)
    (hmem : ∀ v, v ∈ a.getD ∅ ↔ v ∈ b.getD ∅) : a = b := by
  cases a with
  | none =>
    cases b with
    | none => rfl
    | some values => exact absurd (hsome.mpr ⟨values, rfl⟩) (by simp)
  | some values =>
    obtain ⟨other, rfl⟩ := hsome.mp ⟨values, rfl⟩
    exact congrArg some (SortedSet.ext hmem)

theorem read_tags (hdoc : Documented nostr) (hwf : Canonical shape) :
    ((parsedFilter nostr shape).filterMap tagRow).foldl (fun tags call =>
      tags.alter call.1 fun values => values.getD ∅ ∪ ofList call.2) ∅ = shape.tags := by
  have hletter : ∀ key values, shape.tags.lookup key = some values →
      ∃ c other, c ≠ 'a' ∧ key = String.ofList [c] ∧
        (genericTags (filterFor nostr shape)).lookup c = some other := by
    intro key values h
    obtain ⟨c, -, rfl⟩ := hwf.tags key values h
    obtain ⟨other, hother⟩ := (genericTags_asked hdoc hwf.toWellFormed).mpr (.inl ⟨values, h⟩)
    refine ⟨c, other, ?_, rfl, hother⟩
    rintro rfl
    cases h.symm.trans hwf.addressed
  refine SortedMap.ext fun key => eq_of_values ?_ fun v => ?_
  · rw [unite_isSome]
    simp only [lookup_empty, reduceCtorEq, exists_false, false_or, mem_tagRows hdoc]
    constructor
    · rintro ⟨_, ⟨c, values, hc, hlookup, rfl⟩, rfl⟩
      exact ((genericTags_asked hdoc hwf.toWellFormed).mp ⟨values, hlookup⟩).resolve_right
        fun h => hc h.1
    · intro ⟨values, h⟩
      obtain ⟨c, other, hc, rfl, hother⟩ := hletter key values h
      exact ⟨_, ⟨c, other, hc, hother, rfl⟩, rfl⟩
  · rw [mem_unite]
    simp only [lookup_empty, Option.getD_none, not_mem_empty, false_or, mem_tagRows hdoc]
    constructor
    · rintro ⟨_, ⟨c, values, hc, hlookup, rfl⟩, rfl, hv⟩
      refine ((genericTags_wanted hdoc hwf.toWellFormed).mp ?_).resolve_right fun h => hc h.1
      rwa [hlookup]
    · intro hv
      cases h : shape.tags.lookup key with
      | none =>
        rw [h] at hv
        exact absurd hv (not_mem_empty v)
      | some values =>
        obtain ⟨c, other, hc, rfl, hother⟩ := hletter key values h
        have hmem := (genericTags_wanted hdoc hwf.toWellFormed (c := c)).mpr (.inl hv)
        rw [hother] at hmem
        exact ⟨_, ⟨c, other, hc, hother, rfl⟩, rfl, hmem⟩

theorem read_filter (hdoc : Documented nostr) (hwf : Canonical shape) :
    fromFilterJson (.object (parsedFilter nostr shape)) =
      some { shape with relayPin := none, pTagRouting := .nip65ReadRelays } := by
  have hids : ofList (entries asStr (field (parsedFilter nostr shape) "ids")) = shape.eventIds :=
    read_keys hdoc (fun v => by
      rw [← funext hdoc.eventIdFromHex]
      simp [objectOf, tagName_ne "ids" (by decide), filterFor]) hwf.ids hwf.lowerIds
  have hauthors : ofList (entries asStr (field (parsedFilter nostr shape) "authors")) =
      shape.authors :=
    read_keys hdoc (fun v => by
      rw [← funext hdoc.publicKeyFromHex]
      simp [objectOf, tagName_ne "authors" (by decide), filterFor]) hwf.authors hwf.lowerAuthors
  have hsince : field (parsedFilter nostr shape) "since" = (shape.since.map .number).map jsonOf :=
    field_of_mem hdoc fun v => by simp [objectOf, tagName_ne "since" (by decide), filterFor]
  have huntil : field (parsedFilter nostr shape) "until" = (shape.until_.map .number).map jsonOf :=
    field_of_mem hdoc fun v => by simp [objectOf, tagName_ne "until" (by decide), filterFor]
  have hlimit : field (parsedFilter nostr shape) "limit" = (shape.limit.map .number).map jsonOf :=
    field_of_mem hdoc fun v => by simp [objectOf, tagName_ne "limit" (by decide), filterFor]
  have hsearch : field (parsedFilter nostr shape) "search" = (shape.search.map .text).map jsonOf :=
    field_of_mem hdoc fun v => by simp [objectOf, tagName_ne "search" (by decide), filterFor]
  rw [fromFilterJson, read_kinds hdoc hwf.kinds, hauthors, hids, read_coords hdoc hwf,
    read_tags hdoc hwf, hsince, huntil, hlimit, hsearch]
  have hnumber : ∀ n : Option Nat, ((n.map JsonValue.number).map jsonOf).bind asU64 = n := by
    rintro (_ | _) <;> rfl
  have hmod : shape.limit.map (· % 2 ^ 32) = shape.limit := by
    cases hn : shape.limit with
    | none => rfl
    | some n => exact congrArg some (Nat.mod_eq_of_lt (hwf.limit n hn))
  have htext : (((shape.search.map JsonValue.text).map jsonOf).bind asStr).bind boundedSearchQuery =
      shape.search := by
    cases hq : shape.search with
    | none => rfl
    | some q => exact hwf.search q hq
  rw [hnumber, hnumber, hnumber, hmod, htext]
  rfl

/-- The reader inverts the builder, and keeps numbers exactly where they fit. -/
theorem filters_read (nostr : NostrCrate) (hdoc : Documented nostr) :
    (∀ shape, Canonical shape → fromFilterJson (.object (parsedFilter nostr shape)) =
      some { shape with relayPin := none, pTagRouting := .nip65ReadRelays }) ∧
    ∀ rows shape, fromFilterJson (.object rows) = some shape → (SameNumbers rows shape ↔ Fits rows) :=
  ⟨fun _ hwf => read_filter hdoc hwf, fun _ _ => sameNumbers_iff⟩

theorem tagged_canonical : Canonical tagged where
  toWellFormed := tagged_wellFormed
  lowerIds := fun _ h => absurd h (not_mem_empty _)
  lowerAuthors := by
    intro author hauthor
    rw [mem_singleton.mp hauthor]
    decide +kernel
  lowerCoords := fun _ h => absurd h (not_mem_empty _)
  addressed := by decide +kernel
  limit := nofun
  search := nofun

theorem filters_read_tagged :
    fromFilterJson (.object (parsedFilter documentedCrate tagged)) = some tagged :=
  (filters_read documentedCrate documentedCrate_documented).1 tagged tagged_canonical

end SubsReading
