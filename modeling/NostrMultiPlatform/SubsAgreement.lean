import Mathlib
import NostrMultiPlatform.PlannerMerge
import NostrMultiPlatform.SubsFilter

/-!
# Wire filters and the local predicate

The same shape is read twice: by relays, as the filter object on the wire, and by
the client, as a predicate on the events that arrive. The readings differ where a
coordinate is asked for, since a relay looks for events that cite it and the
client for the event at it; where a tag has no values, since a relay then finds
nothing and the client anything; and where a key is not written in lower case.
-/
namespace SubsAgreement

open Sorted PlannerShape PlannerMerge SubsFilter SortedSet SortedMap

/-- One row of the object; searches, limits and unknown rows select nothing. -/
def rowAccepts (e : Event) (row : String × JsonValue) : Bool :=
  match row.2 with
  | .strings items =>
    if row.1 = "ids" then e.id ∈ items
    else if row.1 = "authors" then e.author ∈ items
    else
      match row.1.toList with
      | ['#', c] =>
        e.tags.any fun tag => tag[0]? = some (String.ofList [c]) && tag[1]?.any (· ∈ items)
      | _ => true
  | .numbers items => if row.1 = "kinds" then e.kind ∈ items else true
  | .number n =>
    if row.1 = "since" then n ≤ e.createdAt
    else if row.1 = "until" then e.createdAt ≤ n
    else true
  | .text _ => true

/-- An event meets all rows of the object. -/
def accepts (object : FilterObject) (e : Event) : Bool := object.all (rowAccepts e)

/-- What the nostr crate documents: keys of 64 hex digits are printed in lower case, tag names are
ASCII letters, and the object has a row for each field that is set. -/
structure Documented (nostr : NostrCrate) : Prop where
  publicKeyFromHex : ∀ s, nostr.publicKeyFromHex s = fromHex s
  eventIdFromHex : ∀ s, nostr.eventIdFromHex s = fromHex s
  singleLetterFromChar : ∀ c, nostr.singleLetterFromChar c = isLetter c
  toJson : ∀ filter, (nostr.toJson filter).Perm (objectOf filter)

theorem documentedCrate_documented : Documented documentedCrate :=
  ⟨fun _ => rfl, fun _ => rfl, fun _ => rfl, fun _ => List.Perm.refl _⟩

/-- Hex keys and ids, 16-bit kinds and single-letter tags. -/
structure WellFormed (shape : InterestShape) : Prop where
  ids : ∀ id ∈ shape.eventIds, hex64 id = true
  authors : ∀ author ∈ shape.authors, hex64 author = true
  kinds : ∀ kind ∈ shape.kinds, kind ≤ 65535
  coords : ∀ coord ∈ shape.addresses, hex64 coord.pubkey = true ∧ coord.kind ≤ 65535
  tags : ∀ key values, shape.tags.lookup key = some values →
    ∃ c, isLetter c = true ∧ key = String.ofList [c]

variable {nostr : NostrCrate} {shape : InterestShape} {e : Event}

/-- Some row of the key has a value with the property. -/
def Carries (tags : List (List String)) (key : String) (wanted : String → Prop) : Prop :=
  ∃ tag ∈ tags, tag[0]? = some key ∧ ∃ v, tag[1]? = some v ∧ wanted v

/-- A coordinate as a tag value. -/
def coordText (coord : NaddrCoord) : String :=
  (Coordinate.mk coord.kind (lower coord.pubkey) coord.dTag).display

/-- The letter is asked for by a tag row, or by the coordinates. -/
def Asked (shape : InterestShape) (c : Char) : Prop :=
  (∃ values, shape.tags.lookup (String.ofList [c]) = some values) ∨ (c = 'a' ∧ shape.addresses ≠ ∅)

/-- The value is wanted under the letter. -/
def Wanted (shape : InterestShape) (c : Char) (v : String) : Prop :=
  v ∈ (shape.tags.lookup (String.ofList [c])).getD ∅ ∨
    (c = 'a' ∧ ∃ coord ∈ shape.addresses, coordText coord = v)

/-- The filter object of the shape accepts the event. -/
structure WireAccepts (shape : InterestShape) (e : Event) : Prop where
  ids : shape.eventIds = ∅ ∨ ∃ id ∈ shape.eventIds, lower id = e.id
  authors : shape.authors = ∅ ∨ ∃ author ∈ shape.authors, lower author = e.author
  kinds : shape.kinds = ∅ ∨ e.kind ∈ shape.kinds
  since : ∀ t ∈ shape.since, t ≤ e.createdAt
  until_ : ∀ t ∈ shape.until_, e.createdAt ≤ t
  tags : ∀ c, Asked shape c → Carries e.tags (String.ofList [c]) (Wanted shape c)

theorem parsed_eq_none {α β : Type} {parse : α → Option β} {items : List α} :
    parsed parse items = none ↔ ∀ x ∈ items, parse x = none := by
  rw [parsed, ← List.filterMap_eq_nil_iff]
  cases items.filterMap parse with
  | nil | cons => simp

theorem parsed_eq_some {α β : Type} {parse : α → Option β} {items : List α} {entries : List β} :
    parsed parse items = some entries ↔ items.filterMap parse = entries ∧ entries ≠ [] := by
  rw [parsed]
  cases items.filterMap parse with
  | nil => simp +contextual [eq_comm]
  | cons => simp +contextual [eq_comm]

theorem parsed_fromHex {items : List String} (h : ∀ s ∈ items, hex64 s = true) :
    parsed fromHex items = if items = [] then none else some (items.map lower) := by
  have hmap : items.filterMap fromHex = items.map lower := by
    rw [← List.filterMap_eq_map]
    refine List.filterMap_congr fun s hs => ?_
    rw [fromHex, if_pos (h s hs)]
    rfl
  rw [parsed, hmap]
  cases items with
  | nil | cons => rfl

theorem parsed_coordinate (hdoc : Documented nostr) {items : List NaddrCoord}
    (h : ∀ coord ∈ items, hex64 coord.pubkey = true ∧ coord.kind ≤ 65535) :
    parsed (coordinate nostr) items =
      if items = [] then none
      else some (items.map fun coord => ⟨coord.kind, lower coord.pubkey, coord.dTag⟩) := by
  have hmap : items.filterMap (coordinate nostr) =
      items.map fun coord => ⟨coord.kind, lower coord.pubkey, coord.dTag⟩ := by
    rw [← List.filterMap_eq_map]
    refine List.filterMap_congr fun coord hcoord => ?_
    obtain ⟨hhex, hkind⟩ := h coord hcoord
    have hsame : kindOf coord.kind = coord.kind := Nat.mod_eq_of_lt (by omega)
    rw [coordinate, hdoc.publicKeyFromHex, fromHex, if_pos hhex, hsame]
    rfl
  rw [parsed, hmap]
  cases items with
  | nil | cons => rfl

variable {c : Char} {filter : Filter} {x key : String}

/-- Calls unite the values of each key. -/
theorem mem_unite {κ : Type} [LinearOrder κ] {k : κ} {v : String} (calls : List (κ × List String))
    (tags : SortedMap κ (SortedSet String)) :
    v ∈ ((calls.foldl (fun tags call => tags.alter call.1 fun values =>
      values.getD ∅ ∪ ofList call.2) tags).lookup k).getD ∅ ↔
        v ∈ (tags.lookup k).getD ∅ ∨ ∃ call ∈ calls, call.1 = k ∧ v ∈ call.2 := by
  induction calls generalizing tags with
  | nil => simp
  | cons call _ ih =>
    rw [List.foldl_cons, ih, lookup_alter, List.exists_mem_cons_iff]
    by_cases h : k = call.1
    · subst h
      simp only [if_true, Option.getD_some, mem_union, mem_ofList, true_and, or_assoc]
    · simp only [if_neg h, Ne.symm h, false_and, false_or]

theorem unite_isSome {κ : Type} [LinearOrder κ] {k : κ} (calls : List (κ × List String))
    (tags : SortedMap κ (SortedSet String)) :
    (∃ values, (calls.foldl (fun tags call => tags.alter call.1 fun values =>
      values.getD ∅ ∪ ofList call.2) tags).lookup k = some values) ↔
        (∃ values, tags.lookup k = some values) ∨ ∃ call ∈ calls, call.1 = k := by
  induction calls generalizing tags with
  | nil => simp
  | cons call _ ih =>
    rw [List.foldl_cons, ih, lookup_alter, List.exists_mem_cons_iff]
    by_cases h : k = call.1
    · simp [h]
    · simp [h, Ne.symm h]

theorem mem_genericTags {v : String} :
    v ∈ ((genericTags filter).lookup c).getD ∅ ↔ ∃ call ∈ tagCalls filter, call.1 = c ∧ v ∈ call.2 := by
  rw [genericTags, mem_unite]
  simp

theorem genericTags_isSome :
    (∃ values, (genericTags filter).lookup c = some values) ↔ ∃ call ∈ tagCalls filter, call.1 = c := by
  rw [genericTags, unite_isSome]
  simp

/-- Each row of a single letter is a call. -/
theorem mem_customTags (hdoc : Documented nostr) {call : Char × List String} :
    call ∈ (filterFor nostr shape).customTags ↔
      isLetter call.1 = true ∧
        ∃ values, shape.tags.lookup (String.ofList [call.1]) = some values ∧
          call.2 = values.elems := by
  change call ∈ shape.tags.rows.filterMap (customTag nostr) ↔ _
  simp only [List.mem_filterMap, customTag, hdoc.singleLetterFromChar]
  constructor
  · intro ⟨row, hrow, hcall⟩
    split at hcall
    next c hkey =>
      split at hcall
      next hletter =>
        cases hcall
        have hrowKey : row.1 = String.ofList [c] := String.toList_injective (by simp [hkey])
        exact ⟨hletter, row.2, lookup_eq_some.mpr (hrowKey ▸ hrow), rfl⟩
      next => cases hcall
    next => cases hcall
  · intro ⟨hletter, values, hlookup, heq⟩
    refine ⟨_, lookup_eq_some.mp hlookup, ?_⟩
    simp [hletter, ← heq]

/-- The calls of a shape: one for each tag row, and one for the coordinates. -/
theorem mem_tagCalls (hdoc : Documented nostr) (hwf : WellFormed shape)
    {call : Char × List String} :
    call ∈ tagCalls (filterFor nostr shape) ↔
      (∃ values, shape.tags.lookup (String.ofList [call.1]) = some values ∧
          call.2 = values.elems) ∨
        (shape.addresses ≠ ∅ ∧ call = ('a', shape.addresses.elems.map coordText)) := by
  rw [tagCalls, List.mem_append]
  refine or_congr ((mem_customTags hdoc).trans (and_iff_right_of_imp ?_)) ?_
  · intro ⟨values, hlookup, _⟩
    obtain ⟨c, hletter, hkey⟩ := hwf.tags _ _ hlookup
    have hc : call.1 = c := by simpa using congrArg String.toList hkey
    rwa [hc]
  · have hcoords : (filterFor nostr shape).coordinates =
        if shape.addresses.elems = [] then none
        else some (shape.addresses.elems.map fun coord =>
          ⟨coord.kind, lower coord.pubkey, coord.dTag⟩) := parsed_coordinate hdoc hwf.coords
    simp only [hcoords, elems_eq_nil]
    by_cases h : shape.addresses = ∅
    · simp [h]
    · rw [if_neg h, Option.map_some, Option.mem_toList, Option.some.injEq, List.map_map,
        and_iff_right h]
      exact eq_comm

theorem genericTags_asked (hdoc : Documented nostr) (hwf : WellFormed shape) :
    (∃ values, (genericTags (filterFor nostr shape)).lookup c = some values) ↔ Asked shape c := by
  rw [genericTags_isSome]
  constructor
  · intro ⟨call, hcall, hc⟩
    obtain ⟨values, hlookup, -⟩ | ⟨hne, rfl⟩ := (mem_tagCalls hdoc hwf).mp hcall
    · exact .inl ⟨values, hc ▸ hlookup⟩
    · exact .inr ⟨hc.symm, hne⟩
  · rintro (⟨values, hlookup⟩ | ⟨rfl, hne⟩)
    · exact ⟨(c, values.elems), (mem_tagCalls hdoc hwf).mpr (.inl ⟨values, hlookup, rfl⟩), rfl⟩
    · exact ⟨_, (mem_tagCalls hdoc hwf).mpr (.inr ⟨hne, rfl⟩), rfl⟩

theorem genericTags_wanted (hdoc : Documented nostr) (hwf : WellFormed shape) {v : String} :
    v ∈ ((genericTags (filterFor nostr shape)).lookup c).getD ∅ ↔ Wanted shape c v := by
  rw [mem_genericTags]
  constructor
  · intro ⟨call, hcall, hc, hv⟩
    obtain ⟨values, hlookup, heq⟩ | ⟨hne, rfl⟩ := (mem_tagCalls hdoc hwf).mp hcall
    · left
      rw [← hc, hlookup]
      rw [heq] at hv
      exact hv
    · exact .inr ⟨hc.symm, List.mem_map.mp hv⟩
  · rintro (hv | ⟨rfl, coord, hcoord, rfl⟩)
    · cases hlookup : shape.tags.lookup (String.ofList [c]) with
      | none =>
        rw [hlookup] at hv
        exact absurd hv (not_mem_empty v)
      | some values =>
        rw [hlookup] at hv
        exact ⟨(c, values.elems), (mem_tagCalls hdoc hwf).mpr (.inl ⟨values, hlookup, rfl⟩), rfl, hv⟩
    · have hne : shape.addresses ≠ ∅ := ne_empty_iff.mpr ⟨coord, hcoord⟩
      exact ⟨_, (mem_tagCalls hdoc hwf).mpr (.inr ⟨hne, rfl⟩), rfl,
        List.mem_map.mpr ⟨coord, hcoord, rfl⟩⟩

theorem rowAccepts_tag (e : Event) (c : Char) (items : List String) :
    rowAccepts e (tagName c, .strings items) = true ↔
      Carries e.tags (String.ofList [c]) (· ∈ items) := by
  have hlist : (tagName c).toList = ['#', c] := String.toList_ofList
  have hids : tagName c ≠ "ids" := fun h => by simpa [hlist] using congrArg String.toList h
  have hauthors : tagName c ≠ "authors" := fun h => by simpa [hlist] using congrArg String.toList h
  simp [rowAccepts, hids, hauthors, hlist, Carries, Option.any_eq_true]

/-- The rows of one field, if the field is set. -/
theorem all_toList {α : Type} {p : String × JsonValue → Bool} {field : Option α}
    {f : α → String × JsonValue} :
    (field.map f).toList.all p = true ↔ ∀ x, field = some x → p (f x) = true := by
  cases field with
  | none | some => simp

theorem accepts_objectOf :
    accepts (objectOf filter) e = true ↔
      (∀ ids, filter.ids = some ids → e.id ∈ ids) ∧
      (∀ authors, filter.authors = some authors → e.author ∈ authors) ∧
      (∀ kinds, filter.kinds = some kinds → e.kind ∈ kinds) ∧
      (∀ t ∈ filter.since, t ≤ e.createdAt) ∧
      (∀ t ∈ filter.until_, e.createdAt ≤ t) ∧
      ∀ c, (∃ values, (genericTags filter).lookup c = some values) →
        Carries e.tags (String.ofList [c]) (· ∈ ((genericTags filter).lookup c).getD ∅) := by
  have htags : ((genericTags filter).rows.map fun row =>
      (tagName row.1, JsonValue.strings row.2.elems)).all (rowAccepts e) = true ↔
        ∀ c, (∃ values, (genericTags filter).lookup c = some values) →
          Carries e.tags (String.ofList [c]) (· ∈ ((genericTags filter).lookup c).getD ∅) := by
    rw [List.all_map, List.all_eq_true]
    constructor
    · intro h c ⟨values, hlookup⟩
      rw [hlookup]
      exact (rowAccepts_tag e c values.elems).mp (h _ (lookup_eq_some.mp hlookup))
    · intro h row hrow
      have hlookup := lookup_eq_some.mpr hrow
      have hcarries := h row.1 ⟨row.2, hlookup⟩
      rw [hlookup] at hcarries
      exact (rowAccepts_tag e row.1 row.2.elems).mpr hcarries
  rw [accepts, objectOf]
  simp only [List.all_append, Bool.and_eq_true, all_toList, htags, and_assoc]
  simp [rowAccepts]

theorem mem_parsed_fromHex {items : SortedSet String} (h : ∀ s ∈ items, hex64 s = true) :
    (∀ xs, parsed fromHex items.elems = some xs → x ∈ xs) ↔
      (items = ∅ ∨ ∃ s ∈ items, lower s = x) := by
  simp only [parsed_fromHex h, elems_eq_nil]
  by_cases hempty : items = ∅
  · simp [hempty]
  · simp [hempty]

theorem mem_map_kindOf {kinds : SortedSet Nat} (h : ∀ kind ∈ kinds, kind ≤ 65535) {k : Nat} :
    (∀ ks, (if kinds = ∅ then none else some (kinds.elems.map kindOf)) = some ks → k ∈ ks) ↔
      (kinds = ∅ ∨ k ∈ kinds) := by
  have hmap : kinds.elems.map kindOf = kinds.elems := by
    refine List.map_congr_left (fun kind hkind => ?_) |>.trans (List.map_id _)
    exact Nat.mod_eq_of_lt (by have := h kind hkind; omega)
  rw [hmap]
  by_cases hempty : kinds = ∅
  · simp [hempty]
  · simp [hempty]

/-- The keys that parse, the kinds as they are cast, the bounds and the letters. -/
theorem accepts_filterJsonFor (hdoc : Documented nostr) :
    accepts (filterJsonFor nostr shape) e = true ↔
      (∀ ids, parsed fromHex shape.eventIds.elems = some ids → e.id ∈ ids) ∧
      (∀ authors, parsed fromHex shape.authors.elems = some authors → e.author ∈ authors) ∧
      (∀ kinds, (if shape.kinds = ∅ then none else some (shape.kinds.elems.map kindOf)) =
        some kinds → e.kind ∈ kinds) ∧
      (∀ t ∈ shape.since, t ≤ e.createdAt) ∧
      (∀ t ∈ shape.until_, e.createdAt ≤ t) ∧
      ∀ c, (∃ values, (genericTags (filterFor nostr shape)).lookup c = some values) →
        Carries e.tags (String.ofList [c])
          (· ∈ ((genericTags (filterFor nostr shape)).lookup c).getD ∅) := by
  have hperm : accepts (filterJsonFor nostr shape) e = accepts (objectOf (filterFor nostr shape)) e :=
    (hdoc.toJson _).all_eq
  have hids : (filterFor nostr shape).ids = parsed fromHex shape.eventIds.elems :=
    congrArg (parsed · _) (funext hdoc.eventIdFromHex)
  have hauthors : (filterFor nostr shape).authors = parsed fromHex shape.authors.elems :=
    congrArg (parsed · _) (funext hdoc.publicKeyFromHex)
  rw [hperm, accepts_objectOf, hids, hauthors]
  rfl

theorem accepts_iff (hdoc : Documented nostr) (hwf : WellFormed shape) :
    accepts (filterJsonFor nostr shape) e = true ↔ WireAccepts shape e := by
  rw [accepts_filterJsonFor hdoc, mem_parsed_fromHex hwf.ids, mem_parsed_fromHex hwf.authors,
    mem_map_kindOf hwf.kinds]
  simp only [genericTags_asked hdoc hwf, genericTags_wanted hdoc hwf]
  constructor
  · intro ⟨ids, authors, kinds, since, until_, tags⟩
    exact ⟨ids, authors, kinds, since, until_, tags⟩
  · intro h
    exact ⟨h.ids, h.authors, h.kinds, h.since, h.until_, h.tags⟩

theorem carries_iff {tags : List (List String)} {values : SortedSet String} :
    carries tags key values = true ↔ Carries tags key (· ∈ values) := by
  simp [carries, Carries, Option.any_eq_true]

theorem isLetter_utf8Size (h : isLetter c = true) : c.utf8Size = 1 := by
  simp only [isLetter, Bool.or_eq_true, Bool.and_eq_true, decide_eq_true_eq, Char.le_def,
    UInt32.le_iff_toNat_le] at h
  have hsmall : c.val.toNat ≤ 127 := by
    change (97 ≤ c.val.toNat ∧ c.val.toNat ≤ 122) ∨ (65 ≤ c.val.toNat ∧ c.val.toNat ≤ 90) at h
    omega
  exact Char.utf8Size_eq_one_iff.mpr (UInt32.le_iff_toNat_le.mpr hsmall)

/-- Keys of well-formed shapes are single letters, so only an empty set is skipped. -/
theorem queryable_iff (hwf : WellFormed shape) {values : SortedSet String}
    (hlookup : shape.tags.lookup key = some values) : queryable key values = true ↔ values ≠ ∅ := by
  obtain ⟨c, hletter, rfl⟩ := hwf.tags key values hlookup
  simp [queryable, isLetter_utf8Size hletter]

theorem Carries.mono {tags more : List (List String)} {p q : String → Prop} (h : Carries tags key p)
    (hsub : ∀ tag ∈ tags, tag ∈ more) (hpq : ∀ v, p v → q v) : Carries more key q := by
  obtain ⟨tag, htag, hkey, v, hv, hp⟩ := h
  exact ⟨tag, hsub tag htag, hkey, v, hv, hpq v hp⟩

/-- Relays find an event for a shape with a coordinate, one that cites it. -/
theorem exists_wireAccepts (hwindow : Window shape) (haddr : shape.addresses ≠ ∅)
    (hnamed : ∀ key, key ≠ "a" → shape.tags.lookup key ≠ some ∅) : ∃ e, WireAccepts shape e := by
  obtain ⟨coord, hcoord⟩ := ne_empty_iff.mp haddr
  obtain ⟨id, hid⟩ := exists_allowed shape.eventIds ""
  obtain ⟨author, hauthor⟩ := exists_allowed shape.authors ""
  obtain ⟨kind, hkind⟩ := exists_allowed shape.kinds 0
  obtain ⟨hsince, huntil⟩ := sample_in_window hwindow (lower id) (lower author) kind
    ["a", coordText coord]
  refine ⟨_, hid.imp_right fun h => ⟨id, h, rfl⟩, hauthor.imp_right fun h => ⟨author, h, rfl⟩, hkind,
    hsince, huntil, fun c hasked => ?_⟩
  by_cases hc : c = 'a'
  · subst hc
    exact ⟨_, List.mem_cons_self, rfl, _, rfl, .inr ⟨rfl, coord, hcoord, rfl⟩⟩
  · obtain ⟨values, hlookup⟩ := hasked.resolve_right fun h => hc h.1
    have hkey : String.ofList [c] ≠ "a" := fun heq => hc (by simpa using congrArg String.toList heq)
    have hne : values ≠ ∅ := fun heq => hnamed _ hkey (heq ▸ hlookup)
    refine (carries_iff.mp (wantedRows_carries hlookup hne)).mono
      (fun _ => List.mem_cons_of_mem _) fun v hv => ?_
    exact .inl (by rw [hlookup]; exact hv)

/-- An event that cites a coordinate and is at none is found by relays and refused by the client. -/
theorem exists_refused (haddr : shape.addresses ≠ ∅) (h : WireAccepts shape e) :
    ∃ e, WireAccepts shape e ∧ matchesEventWithId shape e ≠ true := by
  obtain ⟨d, hd⟩ := exists_dTag shape.addresses
  refine ⟨{ e with tags := ["d", d] :: e.tags }, ⟨h.ids, h.authors, h.kinds, h.since, h.until_,
    fun c hasked => (h.tags c hasked).mono (fun _ => List.mem_cons_of_mem _) fun _ h => h⟩, ?_⟩
  intro hmatch
  obtain ⟨coord, hcoord, hat⟩ := (matchesEventWithId_iff.mp hmatch).2.2.2.2.2.1.resolve_left haddr
  exact absurd hat (Bool.eq_false_iff.mp (hd coord hcoord _ _ _))

/-- Relays find nothing for a tag without values. -/
theorem not_wireAccepts (hwf : WellFormed shape) (hkey : key = "a" → shape.addresses = ∅)
    (hlookup : shape.tags.lookup key = some ∅) : ¬ WireAccepts shape e := by
  intro h
  obtain ⟨c, -, rfl⟩ := hwf.tags key ∅ hlookup
  obtain ⟨_, _, _, v, _, hwanted⟩ := h.tags c (.inl ⟨∅, hlookup⟩)
  rcases hwanted with hv | ⟨rfl, coord, hcoord, -⟩
  · rw [hlookup] at hv
    exact not_mem_empty v hv
  · exact ne_empty_iff.mpr ⟨coord, hcoord⟩ (hkey rfl)

theorem lower_lower (s : String) : lower (lower s) = lower s := by
  simp [lower, Function.comp_def]

/-- Keys that relays give back as they stand are written in lower case. -/
theorem lower_of_found {items : SortedSet String} (hx : x ∈ items)
    (h : items = ∅ ∨ ∃ s ∈ items, lower s = x) : lower x = x := by
  obtain ⟨s, -, rfl⟩ := h.resolve_left (ne_empty_iff.mpr ⟨x, hx⟩)
  exact lower_lower s

theorem found_iff {items : SortedSet String} (h : ∀ s ∈ items, lower s = s) :
    (items = ∅ ∨ ∃ s ∈ items, lower s = x) ↔ items = ∅ ∨ x ∈ items := by
  refine or_congr_right ⟨?_, fun hx => ⟨x, hx, h x hx⟩⟩
  rintro ⟨s, hs, rfl⟩
  rwa [h s hs]

/-- Without coordinates, with values for each tag and with keys in lower case, the clauses are the
same. -/
theorem wireAccepts_iff_matches (hwf : WellFormed shape) (haddr : shape.addresses = ∅)
    (hnamed : ∀ key, shape.tags.lookup key ≠ some ∅)
    (hauthors : ∀ author ∈ shape.authors, lower author = author)
    (hids : ∀ id ∈ shape.eventIds, lower id = id) :
    WireAccepts shape e ↔ matchesEventWithId shape e = true := by
  rw [matchesEventWithId_iff]
  constructor
  · intro h
    refine ⟨(found_iff hids).mp h.ids, (found_iff hauthors).mp h.authors, h.kinds, h.since, h.until_,
      .inl haddr, fun key values hlookup _ => ?_⟩
    obtain ⟨c, -, rfl⟩ := hwf.tags key values hlookup
    refine carries_iff.mpr ((h.tags c (.inl ⟨values, hlookup⟩)).mono (fun _ h => h) fun v hwanted => ?_)
    rcases hwanted with hv | ⟨-, coord, hcoord, -⟩
    · rwa [hlookup] at hv
    · exact absurd haddr (ne_empty_iff.mpr ⟨coord, hcoord⟩)
  · intro ⟨ids, authors, kinds, since, until_, _, tags⟩
    refine ⟨(found_iff hids).mpr ids, (found_iff hauthors).mpr authors, kinds, since, until_,
      fun c hasked => ?_⟩
    obtain ⟨values, hlookup⟩ := hasked.resolve_right fun hcoords => hcoords.2 haddr
    have hne : values ≠ ∅ := fun heq => hnamed _ (heq ▸ hlookup)
    have hcarries := tags _ values hlookup ((queryable_iff hwf hlookup).mpr hne)
    refine (carries_iff.mp hcarries).mono (fun _ h => h) fun v hv => .inl ?_
    rw [hlookup]
    exact hv

/-- No time lies between the bounds; or there is no coordinate, each tag has a value and keys are in
lower case; or there is a coordinate and both readings accept nothing. -/
def Agreeing (shape : InterestShape) : Prop :=
  ¬ Window shape ∨
    (shape.addresses = ∅ ∧ (∀ key, shape.tags.lookup key ≠ some ∅) ∧
      (∀ author ∈ shape.authors, lower author = author) ∧ ∀ id ∈ shape.eventIds, lower id = id) ∨
    (shape.addresses ≠ ∅ ∧ (∃ key, key ≠ "a" ∧ shape.tags.lookup key = some ∅) ∧
      ∀ coord ∈ shape.addresses, ¬ Usable shape coord)

theorem agreeing_of_iff (hwf : WellFormed shape)
    (h : ∀ e, WireAccepts shape e ↔ matchesEventWithId shape e = true) : Agreeing shape := by
  by_cases hwindow : Window shape
  · right
    obtain ⟨anId, hanId⟩ := exists_allowed shape.eventIds ""
    by_cases haddr : shape.addresses = ∅
    · left
      obtain ⟨anAuthor, hanAuthor⟩ := exists_allowed shape.authors ""
      obtain ⟨kind, hkind⟩ := exists_allowed shape.kinds 0
      -- With no coordinate the client accepts a sample of any id and author of the shape.
      have hsample : ∀ id author, (shape.eventIds = ∅ ∨ id ∈ shape.eventIds) →
          (shape.authors = ∅ ∨ author ∈ shape.authors) →
            WireAccepts shape (sample shape id author kind []) := by
        intro id author hid hauthor
        exact (h _).mpr (sample_matches hwindow hid hauthor hkind (.inl haddr))
      refine ⟨haddr, fun key hlookup => ?_, fun author hauthor => ?_, fun id hid => ?_⟩
      · exact not_wireAccepts hwf (fun _ => haddr) hlookup (hsample _ _ hanId hanAuthor)
      · exact lower_of_found hauthor (hsample _ author hanId (.inr hauthor)).authors
      · exact lower_of_found hid (hsample id _ (.inr hid) hanAuthor).ids
    · right
      have hnone : ∀ e, ¬ WireAccepts shape e := by
        intro e hwire
        obtain ⟨e', hwire', hrefused⟩ := exists_refused haddr hwire
        exact hrefused ((h e').mp hwire')
      refine ⟨haddr, ?_, fun coord hcoord husable => ?_⟩
      · by_contra hnamed
        obtain ⟨e, hwire⟩ := exists_wireAccepts hwindow haddr fun key hkey hlookup =>
          hnamed ⟨key, hkey, hlookup⟩
        exact hnone e hwire
      · exact hnone _ ((h _).mpr (sample_at_coord hwindow hcoord husable hanId))
  · exact .inl hwindow

theorem iff_of_agreeing (hwf : WellFormed shape) (h : Agreeing shape) (e : Event) :
    WireAccepts shape e ↔ matchesEventWithId shape e = true := by
  rcases h with hwindow | ⟨haddr, hnamed, hauthors, hids⟩ | ⟨haddr, ⟨key, hkey, hlookup⟩, hnone⟩
  · refine iff_of_false (fun hwire => hwindow fun since hs until_ hu => ?_)
      fun hmatch => hwindow (reaches_of_matches hmatch fun _ _ => trivial).1
    exact (hwire.since since hs).trans (hwire.until_ until_ hu)
  · exact wireAccepts_iff_matches hwf haddr hnamed hauthors hids
  · refine iff_of_false (not_wireAccepts hwf (absurd · hkey) hlookup) fun hmatch => ?_
    obtain ⟨coord, hcoord, husable, -⟩ :=
      (reaches_of_matches hmatch fun _ _ => trivial).2.resolve_left haddr
    exact hnone coord hcoord husable

/-- Relays and the client accept the same events exactly for the agreeing shapes. -/
theorem wire_agrees_iff (nostr : NostrCrate) (hdoc : Documented nostr) (shape : InterestShape)
    (hwf : WellFormed shape) :
    (∀ e, accepts (filterJsonFor nostr shape) e = matchesEventWithId shape e) ↔ Agreeing shape := by
  have hsame : ∀ e, accepts (filterJsonFor nostr shape) e = matchesEventWithId shape e ↔
      (WireAccepts shape e ↔ matchesEventWithId shape e = true) := by
    intro e
    rw [Bool.eq_iff_iff, accepts_iff hdoc hwf]
  simp only [hsame]
  exact ⟨agreeing_of_iff hwf, iff_of_agreeing hwf⟩

def alice : String := String.ofList (List.replicate 64 'a')

/-- Alice's notes under one hashtag. -/
def tagged : InterestShape :=
  { InterestShape.default with
    authors := {alice}
    kinds := {1}
    tags := (∅ : SortedMap String (SortedSet String)).insert "t" {"nostr"} }

theorem tagged_wellFormed : WellFormed tagged where
  ids := fun id hid => absurd hid (not_mem_empty id)
  authors := by
    intro author hauthor
    rw [mem_singleton.mp hauthor]
    decide +kernel
  kinds := by
    intro kind hkind
    rw [mem_singleton.mp hkind]
    decide
  coords := fun coord hcoord => absurd hcoord (not_mem_empty coord)
  tags := by
    intro key values hlookup
    have hkey : key ∈ tagged.tags.keys := mem_keys.mpr ⟨values, hlookup⟩
    exact ⟨'t', by decide, List.mem_singleton.mp hkey⟩

theorem wire_agrees_iff_tagged :
    Agreeing tagged ∧
      accepts (filterJsonFor documentedCrate tagged) ⟨"", alice, 1, 0, [["t", "nostr"]]⟩ =
        matchesEventWithId tagged ⟨"", alice, 1, 0, [["t", "nostr"]]⟩ := by
  have hagree : Agreeing tagged := by
    refine .inr (.inl ⟨rfl, fun key hlookup => ?_, fun author hauthor => ?_, fun id hid => ?_⟩)
    · have hrow := lookup_eq_some.mp hlookup
      have hvalues := congrArg Prod.snd (List.mem_singleton.mp hrow)
      exact insert_ne_empty _ _ hvalues.symm
    · rw [mem_singleton.mp hauthor]
      decide +kernel
    · exact absurd hid (not_mem_empty id)
  exact ⟨hagree, (wire_agrees_iff documentedCrate documentedCrate_documented tagged
    tagged_wellFormed).mpr hagree _⟩

/-- Alice's article, asked for by its coordinate. -/
def addressed : InterestShape :=
  { InterestShape.default with addresses := {⟨alice, 30023, "intro"⟩} }

theorem addressed_wellFormed : WellFormed addressed where
  ids := fun id hid => absurd hid (not_mem_empty id)
  authors := fun author hauthor => absurd hauthor (not_mem_empty author)
  kinds := fun kind hkind => absurd hkind (not_mem_empty kind)
  coords := by
    intro coord hcoord
    rw [mem_singleton.mp hcoord]
    decide +kernel
  tags := fun key values hlookup => by cases hlookup

/-- The client takes the article, and the filter does not ask for it. -/
theorem article_not_on_wire :
    WellFormed addressed ∧
      matchesEventWithId addressed ⟨"", alice, 30023, 0, [["d", "intro"]]⟩ = true ∧
      accepts (filterJsonFor documentedCrate addressed) ⟨"", alice, 30023, 0, [["d", "intro"]]⟩ =
        false :=
  ⟨addressed_wellFormed, by decide +kernel, by decide +kernel⟩

end SubsAgreement
