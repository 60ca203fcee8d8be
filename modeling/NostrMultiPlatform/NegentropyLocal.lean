import NostrMultiPlatform.KeyedFirsts
import NostrMultiPlatform.NegentropyFilter
import NostrMultiPlatform.QueryPaths
import NostrMultiPlatform.RefKeys

/-!
# The local side of a reconciliation

A filter reads candidates from the store in memory, by id or through one query, and
keeps those that match. Every query gives a superset of what the filter selects, so
the items are those of the selected rows, each id once, in order and up to the limit.
-/
namespace NegentropyLocal

open HashWalks KeyedFirsts NegentropyFilter QueryPaths RefKeys Sorted StoreActions StoreEdits
open CacheServe
open SyncedItem
open StoreEvent StoreState SubsAgreement SubsFilter Tables

variable {f : EligibleFilter} {nostr : NostrCrate} {o : WalkOrder StoredEvent} {st : MemState}

/-- A key that is no single letter is dropped; the values of one letter are united. -/
def addLetter (nostr : NostrCrate) (sets : SortedMap Char (SortedSet String))
    (row : String × List String) : SortedMap Char (SortedSet String) :=
  match row.1.toList with
  | [c] =>
    if nostr.singleLetterFromChar c then
      sets.alter c fun old => old.getD ∅ ∪ SortedSet.ofList row.2
    else sets
  | _ => sets

def letterSets (nostr : NostrCrate) (rows : List (String × List String)) :
    SortedMap Char (SortedSet String) :=
  rows.foldl (addLetter nostr) ∅

def storeQuery (nostr : NostrCrate) : NegentropyFilter.StoreQuery → CacheServe.StoreQuery
  | .authorKind author kinds since until_ => .authorKind author kinds since until_
  | .authorsKind authors kinds since until_ => .authorsKind authors kinds since until_
  | .kindTime kinds since until_ => .kindTime kinds since until_
  | .tags authors kinds tags since until_ =>
    .tags authors kinds (letterSets nostr tags) since until_

/-- Reads do not fail; the visit has no limit but the machine's, and the visitor never stops. -/
def memoryStore (nostr : NostrCrate) (o : WalkOrder StoredEvent) (st : MemState) : EventStore where
  getById id := .ok ((StoreGc.getById st id).1.map (·.raw))
  queryVisit query := .ok (QueryPaths.queryVisit o st (storeQuery nostr query) (2 ^ 64 - 1)
    (fun seen ev => (seen ++ [ev.raw], false)) [])

/-- What a store can hold: the rows of some run, in a table of machine size. -/
structure Content where
  st : MemState
  reachable : Reachable st
  fits : st.events.entries.length < 2 ^ 64

/-- The stored events, in the order of the table. -/
def stored (o : WalkOrder StoredEvent) (st : MemState) : List RawEvent :=
  (storedEvents o st).map (·.raw)

variable {ev : RawEvent} {row : StoredEvent} {value : Option Json}

theorem mem_stored : ev ∈ stored o st ↔ ∃ row ∈ storedEvents o st, row.raw = ev :=
  List.mem_map

theorem mem_storedEvents : row ∈ storedEvents o st ↔ ∃ id, st.events.lookup id = some row :=
  (o.perm _).mem_iff.trans (mem_values _ _)

theorem getById_fst (st : MemState) (id : EventId) :
    (StoreGc.getById st id).1 = st.events.lookup (bytesToHex id) := by
  unfold StoreGc.getById
  cases st.events.lookup (bytesToHex id) <;> rfl

theorem getById_memoryStore (id : EventId) : (memoryStore nostr o st).getById id =
    .ok ((st.events.lookup (bytesToHex id)).map (·.raw)) := by
  simp only [memoryStore, getById_fst]

/-- NIP-01, an empty list read as absent. -/
structure Selects (f : EligibleFilter) (ev : RawEvent) : Prop where
  ids : f.ids ≠ [] → ev.id ∈ f.ids
  authors : f.authors ≠ [] → ev.pubkey ∈ f.authors
  kinds : f.kinds ≠ [] → ev.kind ∈ f.kinds
  since : ∀ t, f.since = some t → t ≤ ev.createdAt
  until_ : ∀ t, f.until_ = some t → ev.createdAt ≤ t
  tags : ∀ tag ∈ f.tags, tag.2 ≠ [] →
    ∃ row ∈ ev.tags, row[0]? = some tag.1 ∧ ∃ value ∈ tag.2, row[1]? = some value

theorem listed_iff {α : Type} [BEq α] [LawfulBEq α] (xs : List α) (x : α) :
    (xs.isEmpty || xs.contains x) = true ↔ (xs ≠ [] → x ∈ xs) := by
  rw [Bool.or_eq_true, List.isEmpty_iff, List.contains_iff_mem, ← or_iff_not_imp_left]

theorem bounded_iff (bound : Option Nat) (p : Nat → Prop) [DecidablePred p] :
    bound.all (fun t => decide (p t)) = true ↔ ∀ t, bound = some t → p t := by
  cases bound with
  | none | some => simp

theorem matchesTag_iff {tag : String × List String} :
    EligibleFilter.matchesTag ev tag = true ↔ (tag.2 ≠ [] →
      ∃ row ∈ ev.tags, row[0]? = some tag.1 ∧ ∃ value ∈ tag.2, row[1]? = some value) := by
  rw [EligibleFilter.matchesTag, Bool.or_eq_true, List.isEmpty_iff, List.any_eq_true,
    ← or_iff_not_imp_left]
  refine or_congr_right (exists_congr fun row => and_congr_right fun _ => ?_)
  rcases row with _ | ⟨key, _ | ⟨value, rest⟩⟩
  · simp
  · simp
  · simp

/-- The matching loop decides the selection. -/
theorem matches_iff : f.matches ev = true ↔ Selects f ev := by
  simp only [EligibleFilter.matches, Bool.and_eq_true, listed_iff, bounded_iff, List.all_eq_true,
    matchesTag_iff]
  constructor
  · rintro ⟨⟨⟨⟨⟨hids, hauthors⟩, hkinds⟩, hsince⟩, huntil⟩, htags⟩
    exact ⟨hids, hauthors, hkinds, hsince, huntil, htags⟩
  · rintro ⟨hids, hauthors, hkinds, hsince, huntil, htags⟩
    exact ⟨⟨⟨⟨⟨hids, hauthors⟩, hkinds⟩, hsince⟩, huntil⟩, htags⟩

instance (f : EligibleFilter) (ev : RawEvent) : Decidable (Selects f ev) :=
  decidable_of_iff _ matches_iff

/-- The item is that of a selected event. -/
def Finds (f : EligibleFilter) (ev : RawEvent) (item : SyncedItem) : Prop :=
  Selects f ev ∧ ev.idBytes = some item.id ∧ ev.createdAt = item.createdAt

def isLowerHex (s : String) : Bool := s.toList.all isLowerHexDigit

/-- Ids and authors are hex in lower case. -/
def LowerCase (f : EligibleFilter) : Prop :=
  ∀ s ∈ f.ids ++ f.authors, isLowerHex s = true

instance (f : EligibleFilter) : Decidable (LowerCase f) := by
  unfold LowerCase
  infer_instance

theorem mem_digits {c : Char} (h : isLowerHexDigit c = true) : c ∈ "0123456789abcdef".toList := by
  have hsmall : ∀ n : Fin 103, isLowerHexDigit (Char.ofNat n) = true →
      Char.ofNat n ∈ "0123456789abcdef".toList := by decide +kernel
  have hlt : c.toNat < 103 := by
    simp only [isLowerHexDigit, Bool.or_eq_true, Bool.and_eq_true, decide_eq_true_eq] at h
    rcases h with ⟨-, h⟩ | ⟨-, h⟩
    · exact lt_of_le_of_lt (show c.toNat ≤ '9'.toNat from h) (by decide)
    · exact lt_of_le_of_lt (show c.toNat ≤ 'f'.toNat from h) (by decide)
  have hc := hsmall ⟨c.toNat, hlt⟩
  simp only [Char.ofNat_toNat] at hc
  exact hc h

/-- The two digits of a byte are the ones it is read from. -/
theorem digits_of_pair :
    ("0123456789abcdef".toList.all fun h => "0123456789abcdef".toList.all fun l =>
      (do
        let hi ← hexNibble h
        let lo ← hexNibble l
        return [hexDigit ((hi <<< 4 ||| lo) >>> 4), hexDigit ((hi <<< 4 ||| lo) &&& 15)]) ==
        some [h, l]) = true := by decide +kernel

theorem digits_of_hexPairs {cs : List Char} {bytes : List UInt8}
    (h : ∀ c ∈ cs, isLowerHexDigit c = true) (hbytes : hexPairs cs = some bytes) :
    (bytes.flatMap fun (b : UInt8) => [hexDigit (b >>> 4), hexDigit (b &&& 15)]) = cs := by
  fun_induction hexPairs cs generalizing bytes with
  | case1 =>
    cases hbytes
    rfl
  | case2 => cases hbytes
  | case3 hi lo _ ih =>
    have hpair := beq_iff_eq.mp <| List.all_eq_true.mp
      (List.all_eq_true.mp digits_of_pair hi (mem_digits (h hi List.mem_cons_self))) lo
      (mem_digits (h lo (List.mem_cons_of_mem _ List.mem_cons_self)))
    simp only [Option.bind_eq_bind, Option.bind_eq_some_iff, Option.pure_def,
      Option.some.injEq] at hbytes hpair
    obtain ⟨high, hhigh, low, hlow, later, hlater, rfl⟩ := hbytes
    obtain ⟨high', hhigh', low', hlow', hdigits⟩ := hpair
    obtain rfl := Option.eq_some_unique hhigh hhigh'
    obtain rfl := Option.eq_some_unique hlow hlow'
    have hrest := ih (fun c hc => h c (List.mem_cons_of_mem _ (List.mem_cons_of_mem _ hc))) hlater
    rw [List.flatMap_cons, hdigits, hrest]
    rfl

/-- A key in lower case is what its bytes are spelled as. -/
theorem bytesToHex_of_isLowerHex {s : String} {bytes : List UInt8} (h : isLowerHex s = true)
    (hbytes : hexToBytes32 s = some bytes) : bytesToHex bytes = s := by
  unfold hexToBytes32 at hbytes
  split at hbytes
  · rw [bytesToHex, digits_of_hexPairs (List.all_eq_true.mp h) hbytes, String.ofList_toList]
  · cases hbytes

theorem isLetter_of_isAlpha {c : Char} (h : c.isAlpha = true) : isLetter c = true := by
  delta Char.isAlpha Char.isUpper Char.isLower at h
  simp only [isLetter, Bool.or_eq_true, Bool.and_eq_true, decide_eq_true_eq] at h ⊢
  exact h.symm

/-- The tag fields that are accepted are named by a letter. -/
theorem letter_of_tagKey {key letter : String} (h : tagKey key = .ok (some letter)) :
    ∃ c : Char, c.isAlpha = true ∧ letter = String.singleton c := by
  unfold tagKey at h
  split at h
  · cases h
  split at h
  · cases h
  split at h
  next c _ =>
    split at h
    next halpha =>
      cases h
      exact ⟨c, halpha, rfl⟩
    next => cases h
  next => cases h

theorem letters_of_parseTags {rows : List (String × Json)} {tags : List (String × List String)}
    (h : parseTags rows = .ok tags) :
    ∀ tag ∈ tags, ∃ c : Char, c.isAlpha = true ∧ tag.1 = String.singleton c := by
  induction rows generalizing tags with
  | nil =>
    cases h
    nofun
  | cons row rows ih =>
    obtain ⟨key, value⟩ := row
    rw [parseTags] at h
    cases hkey : tagKey key with
    | error => rw [hkey] at h; cases h
    | ok found =>
      rw [hkey] at h
      cases found with
      | none => exact ih h
      | some =>
        cases hvalues : parseStringArray (some value) "tag" with
        | error => simp only [hvalues, bind, Except.bind] at h; cases h
        | ok =>
          cases hrest : parseTags rows with
          | error => simp only [hvalues, hrest, bind, Except.bind] at h; cases h
          | ok =>
            simp only [hvalues, hrest, bind, Except.bind, pure, Except.pure] at h
            cases h
            intro tag htag
            rcases List.mem_cons.mp htag with rfl | hlater
            · exact letter_of_tagKey hkey
            · exact ih hrest tag hlater

theorem parseTags_of_parse (h : EligibleFilter.parse value = .ok f) :
    ∃ rows, parseTags rows = .ok f.tags := by
  unfold EligibleFilter.parse at h
  split at h
  · cases h
  next rows =>
    cases htags : parseTags rows with
    | error => simp only [htags, bind, Except.bind] at h; cases h
    | ok =>
      simp only [htags, bind, Except.bind, pure, Except.pure] at h
      iterate 6
        split at h
        · cases h
      cases h
      exact ⟨rows, htags⟩
  · cases h

/-- Every set is that of a row with its letter, and holds the values of the row. -/
theorem row_of_letterSets {rows : List (String × List String)} {c : Char} {set : SortedSet String}
    (h : (letterSets nostr rows).lookup c = some set) :
    ∃ row ∈ rows, row.1 = String.ofList [c] ∧ ∀ value ∈ row.2, value ∈ set := by
  induction rows using List.reverseRecOn generalizing set with
  | nil => cases h
  | append_singleton rows row ih =>
    have hearlier : ∀ set, (letterSets nostr rows).lookup c = some set →
        ∃ row' ∈ rows ++ [row], row'.1 = String.ofList [c] ∧ ∀ value ∈ row'.2, value ∈ set := by
      intro set hset
      obtain ⟨row', hmem, hspec⟩ := ih hset
      exact ⟨row', List.mem_append_left _ hmem, hspec⟩
    rw [letterSets, List.foldl_concat, ← letterSets, addLetter] at h
    split at h
    next letter hletter =>
      split at h
      next =>
        rw [SortedMap.lookup_alter] at h
        split at h
        next heq =>
          cases h
          refine ⟨row, List.mem_append_right _ List.mem_cons_self, ?_, fun value hvalue => ?_⟩
          · rw [heq, ← hletter, String.ofList_toList]
          · exact SortedSet.mem_union.mpr (.inr (SortedSet.mem_ofList.mpr hvalue))
        next => exact hearlier set h
      next => exact hearlier set h
    next => exact hearlier set h

/-- A row with a letter leaves a set. -/
theorem letterSets_ne_nil (hdoc : Documented nostr) {rows : List (String × List String)}
    (hletters : ∀ row ∈ rows, ∃ c : Char, c.isAlpha = true ∧ row.1 = String.singleton c)
    (h : rows ≠ []) : (letterSets nostr rows).rows ≠ [] := by
  obtain ⟨earlier, row, rfl⟩ := (List.eq_nil_or_concat' rows).resolve_left h
  obtain ⟨c, halpha, hkey⟩ := hletters row (List.mem_append_right _ List.mem_cons_self)
  have hchars : row.1.toList = [c] := by rw [hkey, String.toList_singleton]
  have hletter : nostr.singleLetterFromChar c = true := by
    rw [hdoc.singleLetterFromChar, isLetter_of_isAlpha halpha]
  intro hnil
  have hlookup : (letterSets nostr (earlier ++ [row])).lookup c ≠ none := by
    rw [letterSets, List.foldl_concat, addLetter, hchars]
    simp only [hletter, if_true, SortedMap.lookup_alter]
    nofun
  refine hlookup ?_
  rw [SortedMap.lookup, hnil]
  rfl

theorem decodes_of_stored (h : Rooted st) (hrow : row ∈ storedEvents o st) :
    (∃ id, hexToBytes32 row.raw.id = some id) ∧ ∃ key, hexToBytes32 row.raw.pubkey = some key := by
  obtain ⟨id, hlookup⟩ := mem_storedEvents.mp hrow
  have hvalid := (h id row hlookup).2.1
  simp only [RawEvent.isStructurallyValid, Bool.and_eq_true, Option.isSome_iff_exists] at hvalid
  exact ⟨hvalid.1.2, hvalid.2⟩

theorem author_decoded (hlower : LowerCase f) {key : PubKey} (h : Selects f ev)
    (hkey : hexToBytes32 ev.pubkey = some key) (hne : f.authors ≠ []) :
    key ∈ (f.authors.filterMap hexToBytes32).dedup ∧ bytesToHex key = ev.pubkey := by
  have hmem := h.authors hne
  refine ⟨List.mem_dedup.mpr (List.mem_filterMap.mpr ⟨_, hmem, hkey⟩), ?_⟩
  exact bytesToHex_of_isLowerHex (hlower _ (List.mem_append_right _ hmem)) hkey

theorem inRange_of_selects (h : Selects f row.raw) :
    inRange row f.since f.until_ = true := by
  rw [inRange, Bool.and_eq_true, bounded_iff, bounded_iff]
  exact ⟨h.since, h.until_⟩

section

variable (hdoc : Documented nostr) (hlower : LowerCase f)
  (hletters : ∀ tag ∈ f.tags, ∃ c : Char, c.isAlpha = true ∧ tag.1 = String.singleton c)
include hdoc hlower hletters

/-- The tag query sees every row with the wanted tags. -/
theorem tags_cover (htags : (f.tags.filter fun tag => !tag.2.isEmpty) ≠ []) {key : PubKey}
    (hkey : hexToBytes32 row.raw.pubkey = some key) (h : Selects f row.raw) :
    eventMatchesTagQuery row (f.authors.filterMap hexToBytes32).dedup f.kinds
      (letterSets nostr (f.tags.filter fun tag => !tag.2.isEmpty)) f.since f.until_ = true := by
  have hset : ∀ c set, (letterSets nostr (f.tags.filter fun tag => !tag.2.isEmpty)).lookup c =
      some set → ∃ tag ∈ f.tags, tag.2 ≠ [] ∧ tag.1 = String.ofList [c] ∧
        ∀ value ∈ tag.2, value ∈ set := by
    intro c set hlookup
    obtain ⟨tag, htag, hspec⟩ := row_of_letterSets hlookup
    obtain ⟨hmem, hnonempty⟩ := List.mem_filter.mp htag
    exact ⟨tag, hmem, by simpa using hnonempty, hspec⟩
  rw [eventMatchesTagQuery_iff]
  have hnamed : ∀ tag ∈ f.tags.filter fun tag => !tag.2.isEmpty,
      ∃ c : Char, c.isAlpha = true ∧ tag.1 = String.singleton c :=
    fun tag htag => hletters tag (List.mem_of_mem_filter htag)
  refine ⟨⟨letterSets_ne_nil hdoc hnamed htags,
    List.any_eq_false.mpr fun entry hentry => ?_⟩, ?_, ?_, inRange_of_selects h,
    List.all_eq_true.mpr fun entry hentry => ?_⟩
  · obtain ⟨tag, -, hne, -, hvalues⟩ := hset entry.1 entry.2 (SortedMap.lookup_eq_some.mpr hentry)
    obtain ⟨value, hvalue⟩ := List.exists_mem_of_ne_nil _ hne
    rw [decide_eq_true_eq]
    exact SortedSet.ne_empty_iff.mpr ⟨value, hvalues value hvalue⟩
  · by_cases hne : f.authors = []
    · rw [hne]
      exact .inl rfl
    · obtain ⟨hmem, hhex⟩ := author_decoded hlower h hkey hne
      exact .inr (List.any_eq_true.mpr ⟨key, hmem, decide_eq_true hhex⟩)
  · exact or_iff_not_imp_left.mpr h.kinds
  · obtain ⟨tag, hmem, hne, hname, hvalues⟩ :=
      hset entry.1 entry.2 (SortedMap.lookup_eq_some.mpr hentry)
    obtain ⟨tagRow, htagRow, hkey, value, hvalue, hcarried⟩ := h.tags tag hmem hne
    refine List.any_eq_true.mpr ⟨tagRow, htagRow, ?_⟩
    rw [hkey, hcarried, hname, Bool.and_eq_true]
    exact ⟨decide_eq_true rfl, decide_eq_true (hvalues value hvalue)⟩

/-- Whichever query is picked, it misses no selected row. -/
theorem storeQueries_cover (hroot : Rooted st) : ∃ query, f.storeQueries = [query] ∧
      ∀ row ∈ storedEvents o st, Selects f row.raw →
        storeMatches row (storeQuery nostr query) = true := by
  have hauthor : ∀ row ∈ storedEvents o st, Selects f row.raw →
      (f.authors.filterMap hexToBytes32).dedup ≠ [] →
      ∃ key ∈ (f.authors.filterMap hexToBytes32).dedup, bytesToHex key = row.raw.pubkey := by
    intro row hrow h hne
    obtain ⟨-, key, hkey⟩ := decodes_of_stored hroot hrow
    refine ⟨key, author_decoded hlower h hkey fun hnil => hne ?_⟩
    rw [hnil]
    rfl
  unfold EligibleFilter.storeQueries
  dsimp only
  by_cases htags : (f.tags.filter fun tag => !tag.2.isEmpty) = []
  · rw [htags, if_neg (by simp)]
    split
    next author hauthors hkinds =>
      refine ⟨_, rfl, fun row hrow h => ?_⟩
      obtain ⟨key, hmem, hhex⟩ := hauthor row hrow h (by simp [hauthors])
      rw [hauthors] at hmem
      obtain rfl := List.mem_singleton.mp hmem
      simp only [storeQuery, storeMatches, Bool.and_eq_true, decide_eq_true_eq]
      exact ⟨⟨hhex.symm, h.kinds (by simpa using hkinds)⟩, inRange_of_selects h⟩
    next first second rest hauthors hkinds =>
      refine ⟨_, rfl, fun row hrow h => ?_⟩
      obtain ⟨key, hmem, hhex⟩ := hauthor row hrow h (by simp [hauthors])
      simp only [storeQuery, storeMatches, Bool.and_eq_true, decide_eq_true_eq]
      exact ⟨⟨List.any_eq_true.mpr ⟨key, hmem, decide_eq_true hhex⟩,
        h.kinds (by simpa using hkinds)⟩, inRange_of_selects h⟩
    next =>
      refine ⟨_, rfl, fun row hrow h => ?_⟩
      simp only [storeQuery, storeMatches, Bool.and_eq_true, decide_eq_true_eq]
      exact ⟨or_iff_not_imp_left.mpr h.kinds, inRange_of_selects h⟩
  · rw [if_pos (by simpa using htags)]
    refine ⟨_, rfl, fun row hrow h => ?_⟩
    obtain ⟨-, key, hkey⟩ := decodes_of_stored hroot hrow
    exact tags_cover hdoc hlower hletters htags hkey h

end

def itemOf (f : EligibleFilter) (ev : RawEvent) : Option SyncedItem :=
  if f.matches ev then ev.idBytes.map fun id => ⟨ev.createdAt, id⟩ else none

theorem itemOf_eq_some {item : SyncedItem} : itemOf f ev = some item ↔ Finds f ev item := by
  unfold itemOf Finds
  rw [← matches_iff]
  split
  next h =>
    rw [Option.map_eq_some_iff, and_iff_right h]
    constructor
    · rintro ⟨id, hid, rfl⟩
      exact ⟨hid, rfl⟩
    · rintro ⟨hid, htime⟩
      exact ⟨item.id, hid, by rw [htime]⟩
  next h => exact iff_of_false nofun fun hfinds => h hfinds.1

/-- A candidate is pushed when it has an item whose id is new. -/
theorem foldl_pushIfMatch (evs : List RawEvent) :
    evs.foldl f.pushIfMatch [] = firsts (·.id) (evs.filterMap (itemOf f)) := by
  rw [firsts, List.foldl_filterMap]
  congr
  funext out ev
  unfold EligibleFilter.pushIfMatch itemOf keep RawEvent.idBytes
  split
  · cases hexToBytes32 ev.id <;> rfl
  · rfl

def fetched (st : MemState) (idHex : String) : Option RawEvent :=
  (hexToBytes32 idHex).bind fun id => (st.events.lookup (bytesToHex id)).map (·.raw)

theorem visitIds_memoryStore (ids : List String) (out : List SyncedItem) :
    f.visitIds (memoryStore nostr o st) ids out =
      .ok ((ids.filterMap (fetched st)).foldl f.pushIfMatch out) := by
  induction ids generalizing out with
  | nil => rfl
  | cons idHex _ ih =>
    rw [EligibleFilter.visitIds, List.filterMap_cons]
    cases hid : hexToBytes32 idHex with
    | none =>
      rw [fetched, hid]
      exact ih out
    | some id =>
      dsimp only
      rw [getById_memoryStore, fetched, hid, Option.bind_some]
      cases st.events.lookup (bytesToHex id) with
      | none => exact ih out
      | some row => exact ih (f.pushIfMatch out row.raw)

theorem queryVisit_memoryStore (h : Rooted st) (query : NegentropyFilter.StoreQuery) :
    (memoryStore nostr o st).queryVisit query =
      .ok ((plainQuery o st (storeQuery nostr query) (2 ^ 64 - 1)).map (·.raw)) := by
  have hloop : ∀ (rows : List StoredEvent) (seen : List RawEvent),
      visitLoop (fun seen ev => (seen ++ [ev.raw], false)) seen rows =
        seen ++ rows.map (·.raw) := by
    intro rows
    induction rows with
    | nil => exact fun seen => (List.append_nil seen).symm
    | cons _ _ ih =>
      intro seen
      rw [visitLoop, if_neg Bool.false_ne_true, ih, List.append_assoc]
      rfl
  have hvisit := (hloop (plainQuery o st (storeQuery nostr query) (2 ^ 64 - 1)) []).trans
    (List.nil_append _)
  exact congrArg Except.ok ((queryVisit_eq h _ _ _ _).trans hvisit)

/-- A visit of machine size reads every row of its query. -/
theorem mem_plainQuery (h : st.events.entries.length < 2 ^ 64) {query : CacheServe.StoreQuery} :
    row ∈ plainQuery o st query (2 ^ 64 - 1) ↔
      row ∈ storedEvents o st ∧ storeMatches row query = true := by
  have hlength : (storedEvents o st).length < 2 ^ 64 := by
    rw [storedEvents, (o.perm _).length_eq, values, List.length_map]
    exact h
  rw [plainQuery, List.take_of_length_le, List.mem_mergeSort, List.mem_filter]
  rw [List.length_mergeSort]
  exact (List.length_filter_le _ _).trans (by omega)

/-- The candidates are stored, miss no selected event, and of one id come the newer first. -/
structure Candidates (f : EligibleFilter) (evs candidates : List RawEvent) : Prop where
  stored : ∀ ev ∈ candidates, ev ∈ evs
  complete : ∀ ev ∈ evs, Selects f ev → ev ∈ candidates
  newestFirst : (candidates.filterMap (itemOf f)).Pairwise fun a b =>
    a.id = b.id → b.createdAt ≤ a.createdAt

theorem mem_fetched (hroot : Rooted st) (hlower : LowerCase f) (hstored : ev ∈ stored o st)
    (h : Selects f ev) (hids : f.ids ≠ []) : ev ∈ f.ids.filterMap (fetched st) := by
  obtain ⟨row, hrow, rfl⟩ := mem_stored.mp hstored
  obtain ⟨⟨id, hid⟩, -⟩ := decodes_of_stored hroot hrow
  obtain ⟨key, hlookup⟩ := mem_storedEvents.mp hrow
  have hmem := h.ids hids
  have hhex := bytesToHex_of_isLowerHex (hlower _ (List.mem_append_left _ hmem)) hid
  refine List.mem_filterMap.mpr ⟨_, hmem, ?_⟩
  rw [fetched, hid, Option.bind_some, hhex, (hroot key row hlookup).1, hlookup]
  rfl

theorem stored_fetched {idHex : String} (h : fetched st idHex = some ev) : ev ∈ stored o st := by
  obtain ⟨id, -, hrow⟩ := Option.bind_eq_some_iff.mp h
  obtain ⟨row, hlookup, rfl⟩ := Option.map_eq_some_iff.mp hrow
  exact mem_stored.mpr ⟨row, mem_storedEvents.mpr ⟨_, hlookup⟩, rfl⟩

/-- The ids read their rows. -/
theorem candidates_ids (hroot : Rooted st) (hlower : LowerCase f) (hids : f.ids ≠ []) :
    Candidates f (stored o st) (f.ids.filterMap (fetched st)) where
  stored ev hev := by
    obtain ⟨idHex, -, hfetched⟩ := List.mem_filterMap.mp hev
    exact stored_fetched hfetched
  complete ev hev h := mem_fetched hroot hlower hev h hids
  newestFirst := by
    -- a selected row is spelled as its bytes, so that two items of one id are one item
    have hevent : ∀ item ∈ (f.ids.filterMap (fetched st)).filterMap (itemOf f),
        ∃ row ∈ storedEvents o st, row.raw.id = bytesToHex item.id ∧
          row.raw.createdAt = item.createdAt := by
      intro item hitem
      obtain ⟨ev, hev, hfound⟩ := List.mem_filterMap.mp hitem
      obtain ⟨idHex, -, hfetched⟩ := List.mem_filterMap.mp hev
      obtain ⟨row, hrow, rfl⟩ := mem_stored.mp (stored_fetched (o := o) hfetched)
      obtain ⟨hselects, hid, htime⟩ := itemOf_eq_some.mp hfound
      exact ⟨row, hrow, (bytesToHex_of_isLowerHex
        (hlower _ (List.mem_append_left _ (hselects.ids hids))) hid).symm, htime⟩
    refine List.pairwise_of_forall_mem_list fun a ha b hb heq => ?_
    obtain ⟨row, hrow, hid, htime⟩ := hevent a ha
    obtain ⟨row', hrow', hid', htime'⟩ := hevent b hb
    rw [← htime, ← htime', untied_storedEvents hroot row hrow row' hrow' (by rw [hid, hid', heq])]

/-- One query reads the rows that its store query matches. -/
theorem candidates_query (c : Content) {query : CacheServe.StoreQuery}
    (hcover : ∀ row ∈ storedEvents o c.st, Selects f row.raw →
      storeMatches row query = true) :
    Candidates f (stored o c.st) ((plainQuery o c.st query (2 ^ 64 - 1)).map (·.raw)) where
  stored ev hev := by
    obtain ⟨row, hrow, rfl⟩ := List.mem_map.mp hev
    exact mem_stored.mpr ⟨row, ((mem_plainQuery c.fits).mp hrow).1, rfl⟩
  complete ev hev h := by
    obtain ⟨row, hrow, rfl⟩ := mem_stored.mp hev
    exact List.mem_map.mpr ⟨row, (mem_plainQuery c.fits).mpr ⟨hrow, hcover row hrow h⟩, rfl⟩
  newestFirst := by
    have hsorted : (plainQuery o c.st query (2 ^ 64 - 1)).Pairwise (visitLe · ·) :=
      (List.pairwise_mergeSort visitLe_trans visitLe_total _).sublist (List.take_sublist _ _)
    rw [List.pairwise_filterMap, List.pairwise_map]
    refine hsorted.imp fun {a b} hab item hitem item' hitem' _ => ?_
    rw [← (itemOf_eq_some.mp hitem).2.2, ← (itemOf_eq_some.mp hitem').2.2]
    rcases visitLe_iff.mp hab with hlt | ⟨heq, -⟩
    · exact hlt.le
    · exact heq.ge

/-- An item of a selected event, none of the same id being newer. -/
def Newest (f : EligibleFilter) (evs : List RawEvent) (item : SyncedItem) : Prop :=
  (∃ ev ∈ evs, Finds f ev item) ∧
    ∀ ev ∈ evs, ∀ other, Finds f ev other → other.id = item.id → other.createdAt ≤ item.createdAt

/-- Newer, or of one time and with a smaller id. -/
def Ahead (a b : SyncedItem) : Prop :=
  b.createdAt < a.createdAt ∨ (a.createdAt = b.createdAt ∧ a.id < b.id)

/-- The items are those of the selected events, each id once, newest first and then by id. -/
structure Exact (f : EligibleFilter) (evs : List RawEvent) (items : List SyncedItem) : Prop where
  distinct : (items.map (·.id)).Nodup
  ordered : items.Pairwise Ahead
  mem : ∀ item, item ∈ items ↔ Newest f evs item

theorem before_iff {a b : SyncedItem} : before a b = true ↔
    b.createdAt < a.createdAt ∨ (a.createdAt = b.createdAt ∧ a.id ≤ b.id) := by
  simp [before]

theorem before_trans (a b c : SyncedItem) (hab : before a b = true)
    (hbc : before b c = true) : before a c = true := by
  rw [before_iff] at *
  rcases hab with hab | ⟨hab, hid⟩
  · exact .inl (hbc.elim (·.trans hab) fun h => h.1 ▸ hab)
  · rcases hbc with hbc | ⟨hbc, hid'⟩
    · exact .inl (hab ▸ hbc)
    · exact .inr ⟨hab.trans hbc, List.le_trans hid hid'⟩

theorem before_total (a b : SyncedItem) :
    (before a b || before b a) = true := by
  rw [Bool.or_eq_true, before_iff, before_iff]
  rcases lt_trichotomy a.createdAt b.createdAt with hlt | heq | hgt
  · exact .inr (.inl hlt)
  · exact (List.le_total a.id b.id).imp (fun h => .inr ⟨heq, h⟩) fun h => .inr ⟨heq.symm, h⟩
  · exact .inl (.inl hgt)

/-- Sorted items with distinct ids are strictly so. -/
theorem ordered_mergeSort {items : List SyncedItem} (h : (items.map (·.id)).Nodup) :
    (items.mergeSort before).Pairwise Ahead := by
  have hne : (items.mergeSort before).Pairwise fun a b => a.id ≠ b.id :=
    List.pairwise_map.mp (((List.mergeSort_perm _ _).map _).nodup_iff.mpr h)
  refine (List.pairwise_mergeSort before_trans before_total items).imp₂ (fun a b hab hid => ?_) hne
  rcases before_iff.mp hab with hlt | ⟨heq, hle⟩
  · exact .inl hlt
  · exact .inr ⟨heq, (List.le_iff_lt_or_eq.mp hle).resolve_right hid⟩

theorem mem_firsts_iff {evs candidates : List RawEvent} (h : Candidates f evs candidates)
    {item : SyncedItem} :
    item ∈ firsts (·.id) (candidates.filterMap (itemOf f)) ↔ Newest f evs item := by
  have hfound : ∀ {item : SyncedItem}, item ∈ candidates.filterMap (itemOf f) ↔
      ∃ ev ∈ evs, Finds f ev item := by
    intro item
    rw [List.mem_filterMap]
    refine exists_congr fun ev => ?_
    rw [itemOf_eq_some]
    exact ⟨fun hev => ⟨h.stored ev hev.1, hev.2⟩, fun hev => ⟨h.complete ev hev.1 hev.2.1, hev.2⟩⟩
  constructor
  · intro hitem
    refine ⟨hfound.mp (firsts_subset hitem), fun ev hev other hfinds hid => ?_⟩
    rcases firsts_before h.newestFirst hitem (hfound.mpr ⟨ev, hev, hfinds⟩) hid with rfl | hbefore
    · exact le_rfl
    · exact hbefore hid.symm
  · rintro ⟨hitem, hnewest⟩
    have hkey : item.id ∈ (firsts (·.id) (candidates.filterMap (itemOf f))).map (·.id) :=
      key_mem_firsts (hfound.mpr hitem)
    obtain ⟨kept, hkept, hid⟩ := List.mem_map.mp hkey
    obtain ⟨ev, hev, hfinds⟩ := hfound.mp (firsts_subset hkept)
    have hle := hnewest ev hev kept hfinds hid
    rcases firsts_before h.newestFirst hkept (hfound.mpr hitem) hid.symm with rfl | hbefore
    · exact hkept
    · have heq : kept = item := by
        obtain ⟨time, id⟩ := kept
        obtain ⟨time', id'⟩ := item
        simp only [mk.injEq]
        exact ⟨le_antisymm hle (hbefore hid), hid⟩
      exact heq ▸ hkept

theorem exact_mergeSort {evs candidates : List RawEvent} (h : Candidates f evs candidates) :
    Exact f evs
      ((firsts (·.id) (candidates.filterMap (itemOf f))).mergeSort before) where
  distinct := ((List.mergeSort_perm _ _).map _).nodup_iff.mpr (nodup_firsts _ _)
  ordered := ordered_mergeSort (nodup_firsts _ _)
  mem _ := List.mem_mergeSort.trans (mem_firsts_iff h)

def truncated : Option Nat → List SyncedItem → List SyncedItem
  | none, items => items
  | some limit, items => items.take limit

theorem applyLimit_eq (items : List SyncedItem) :
    f.applyLimit items = truncated f.limit (items.mergeSort before) := by
  unfold EligibleFilter.applyLimit
  cases f.limit <;> rfl

/-- By id or through its query, the filter reads candidates. -/
theorem localItems_candidates (hdoc : Documented nostr) (o : WalkOrder StoredEvent) (c : Content)
    (hparse : EligibleFilter.parse value = .ok f) (hlower : LowerCase f) :
    ∃ candidates, Candidates f (stored o c.st) candidates ∧ (f.limit ≠ some 0 →
      f.localItems (memoryStore nostr o c.st) =
        .ok (f.applyLimit (firsts (·.id) (candidates.filterMap (itemOf f))))) := by
  have hroot := c.reachable.rooted
  by_cases hids : f.ids = []
  · obtain ⟨rows, htags⟩ := parseTags_of_parse hparse
    obtain ⟨query, hquery, hcover⟩ :=
      storeQueries_cover hdoc hlower (letters_of_parseTags htags) (o := o) hroot
    refine ⟨_, candidates_query c hcover, fun hlimit => ?_⟩
    rw [EligibleFilter.localItems, if_neg hlimit, hids, if_neg nofun, hquery, if_neg nofun,
      EligibleFilter.visitQueries, queryVisit_memoryStore hroot]
    dsimp only
    rw [foldl_pushIfMatch]
    rfl
  · refine ⟨_, candidates_ids hroot hlower hids, fun hlimit => ?_⟩
    rw [EligibleFilter.localItems, if_neg hlimit, if_pos (by simpa using hids),
      visitIds_memoryStore, foldl_pushIfMatch]
    rfl

/-- The items are exact up to the limit. -/
theorem localItems_exact (hdoc : Documented nostr) (o : WalkOrder StoredEvent) (c : Content)
    (hparse : EligibleFilter.parse value = .ok f) (hlower : LowerCase f) :
    ∃ items, Exact f (stored o c.st) items ∧
      f.localItems (memoryStore nostr o c.st) = .ok (truncated f.limit items) := by
  obtain ⟨candidates, hcandidates, hitems⟩ := localItems_candidates hdoc o c hparse hlower
  refine ⟨_, exact_mergeSort hcandidates, ?_⟩
  by_cases hlimit : f.limit = some 0
  · rw [EligibleFilter.localItems, if_pos hlimit, hlimit, truncated, List.take_zero]
  · rw [hitems hlimit, applyLimit_eq]

end NegentropyLocal
