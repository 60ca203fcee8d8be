import NostrMultiPlatform.StoreState
import NostrMultiPlatform.SubsAgreement

/-!
# Cache-serve queries

An interest shape is compiled to structural queries of the local store, and nothing
filters what they visit. Tag, author and kind queries carry the whole shape; the
query of an address drops its author.
-/
namespace CacheServe

open PlannerShape Sorted StoreEvent StoreState SubsAgreement SubsFilter Tables SortedSet

/-- The `d` value of an address is kept as text; its bytes are the UTF-8 of it. -/
inductive StoreQuery where
  | authorKind (author : PubKey) (kinds : List Nat) (since until_ : Option Nat)
  | authorsKind (authors : List PubKey) (kinds : List Nat) (since until_ : Option Nat)
  | kindTime (kinds : List Nat) (since until_ : Option Nat)
  | kindDtag (kind : Nat) (dTag : String) (since until_ : Option Nat)
  | tags (authors : List PubKey) (kinds : List Nat) (tags : SortedMap Char (SortedSet String))
    (since until_ : Option Nat)

def inRange (ev : StoredEvent) (since until_ : Option Nat) : Bool :=
  since.all (· ≤ ev.raw.createdAt) && until_.all (ev.raw.createdAt ≤ ·)

/-- No tags, and a tag without values, match nothing. -/
def eventMatchesTagQuery (ev : StoredEvent) (authors : List PubKey) (kinds : List Nat)
    (tags : SortedMap Char (SortedSet String)) (since until_ : Option Nat) : Bool :=
  if tags.rows = [] ∨ (tags.rows.any fun row => row.2 = ∅) = true then false
  else if authors ≠ [] ∧ (authors.any fun a => bytesToHex a = ev.raw.pubkey) = false then false
  else if kinds ≠ [] ∧ ev.raw.kind ∉ kinds then false
  else inRange ev since until_ &&
    tags.rows.all fun row => carries ev.raw.tags (String.ofList [row.1]) row.2

def storeMatches (ev : StoredEvent) : StoreQuery → Bool
  | .authorKind author kinds since until_ =>
    ev.raw.pubkey = bytesToHex author && decide (ev.raw.kind ∈ kinds) && inRange ev since until_
  | .authorsKind authors kinds since until_ =>
    (authors.any fun a => bytesToHex a = ev.raw.pubkey) && decide (ev.raw.kind ∈ kinds) &&
      inRange ev since until_
  | .kindTime kinds since until_ =>
    decide (kinds = [] ∨ ev.raw.kind ∈ kinds) && inRange ev since until_
  | .kindDtag kind dTag since until_ =>
    decide (ev.raw.kind = kind) && ev.raw.dTag.any (· = dTag) && inRange ev since until_
  | .tags authors kinds tags since until_ =>
    eventMatchesTagQuery ev authors kinds tags since until_

/-- Newest first, by id among the equally new. -/
def visitLe (a b : StoredEvent) : Bool :=
  decide (b.raw.createdAt < a.raw.createdAt) ||
    decide (a.raw.createdAt = b.raw.createdAt) && decide (a.raw.id ≤ b.raw.id)

/-- The last of the newest events with the smallest id. -/
def newest : List StoredEvent → Option StoredEvent
  | [] => none
  | ev :: rest => some (rest.foldl (fun best ev => if visitLe ev best then ev else best) ev)

/-- What the visitor is given, up to the event it stops at. -/
def visitUntil (visitor : StoredEvent → Bool) : List StoredEvent → List StoredEvent
  | [] => []
  | ev :: rest => if visitor ev then [ev] else ev :: visitUntil visitor rest

def queryVisit (st : MemState) (query : StoreQuery) (limit : Nat) (visitor : StoredEvent → Bool) :
    List StoredEvent :=
  let matched := (values st.events).filter (storeMatches · query)
  if limit = 0 then []
  else if limit = 1 then (newest matched).toList
  else visitUntil visitor ((matched.mergeSort visitLe).take limit)

inductive UnsupportedShapeReason where
  | wildcardKinds | searchShape | eventIds | invalidTagKey | emptyTagValues | addressesWithTags
  | authorHexDecodeFailure
  deriving DecidableEq, Repr

structure StoreQueryPlan where
  queries : List StoreQuery
  timelineBound : Bool

/-- The tag rows of a shape under their letters. -/
def compileTags (nostr : NostrCrate) : List (String × SortedSet String) →
    SortedMap Char (SortedSet String) →
    Except UnsupportedShapeReason (SortedMap Char (SortedSet String))
  | [], tags => .ok tags
  | (key, values) :: rest, tags =>
    if values = ∅ then .error .emptyTagValues
    else
      match key.toList with
      | [c] =>
        if nostr.singleLetterFromChar c then
          compileTags nostr rest (tags.alter c fun old => old.getD ∅ ∪ values)
        else .error .invalidTagKey
      | _ => .error .invalidTagKey

/-- Authors that do not decode are skipped. -/
def decodedAuthors (shape : InterestShape) : List PubKey :=
  shape.authors.elems.filterMap hexToBytes32

def compileStoreQueryPlan (nostr : NostrCrate) (shape : InterestShape) :
    Except UnsupportedShapeReason StoreQueryPlan :=
  if shape.search.isSome then .error .searchShape
  else if shape.eventIds ≠ ∅ then .error .eventIds
  else if shape.tags.rows ≠ [] then
    if shape.addresses ≠ ∅ then .error .addressesWithTags
    else
      match compileTags nostr shape.tags.rows ∅ with
      | .error reason => .error reason
      | .ok tags =>
        if shape.authors ≠ ∅ ∧ decodedAuthors shape = [] then .error .authorHexDecodeFailure
        else .ok ⟨[.tags (decodedAuthors shape) shape.kinds.elems tags shape.since shape.until_],
          shape.authors ≠ ∅⟩
  else if shape.kinds = ∅ then .error .wildcardKinds
  else if shape.addresses ≠ ∅ then
    .ok ⟨shape.addresses.elems.map fun coord =>
      .kindDtag coord.kind coord.dTag shape.since shape.until_, shape.authors ≠ ∅⟩
  else if shape.authors = ∅ then
    .ok ⟨[.kindTime shape.kinds.elems shape.since shape.until_], false⟩
  else
    match decodedAuthors shape with
    | [] => .error .authorHexDecodeFailure
    | [author] => .ok ⟨[.authorKind author shape.kinds.elems shape.since shape.until_], true⟩
    | authors => .ok ⟨[.authorsKind authors shape.kinds.elems shape.since shape.until_], true⟩

theorem visitUntil_all (evs : List StoredEvent) : visitUntil (fun _ => false) evs = evs := by
  induction evs with
  | nil => rfl
  | cons _ _ ih => rw [visitUntil, if_neg Bool.false_ne_true, ih]

variable {ev : StoredEvent} {shape : InterestShape} {nostr : NostrCrate} {plan : StoreQueryPlan}

theorem newest_mem {evs : List StoredEvent} (h : newest evs = some ev) : ev ∈ evs := by
  have hfold : ∀ (rest : List StoredEvent) (best : StoredEvent),
      rest.foldl (fun best ev => if visitLe ev best then ev else best) best ∈ best :: rest := by
    intro rest
    induction rest with
    | nil => intro best; exact List.mem_cons_self
    | cons next _ ih =>
      intro best
      rw [List.foldl_cons]
      split
      next => exact List.mem_cons_of_mem _ (ih next)
      next =>
        rcases List.mem_cons.mp (ih best) with heq | hmem
        · rw [heq]
          exact List.mem_cons_self
        · exact List.mem_cons_of_mem _ (List.mem_cons_of_mem _ hmem)
  cases evs with
  | nil => cases h
  | cons head rest =>
    obtain rfl := Option.some.inj h
    exact hfold rest head

/-- The event is visited by the query for some limit. -/
def Visited (st : MemState) (query : StoreQuery) (ev : StoredEvent) : Prop :=
  ∃ limit, ev ∈ queryVisit st query limit fun _ => false

theorem visited_iff {st : MemState} {query : StoreQuery} :
    Visited st query ev ↔ ev ∈ values st.events ∧ storeMatches ev query = true := by
  let matched := (values st.events).filter (storeMatches · query)
  have hmatched : ev ∈ matched ↔ ev ∈ values st.events ∧ storeMatches ev query = true :=
    List.mem_filter
  rw [← hmatched]
  constructor
  · rintro ⟨limit, hev⟩
    rw [queryVisit] at hev
    split at hev
    next => cases hev
    split at hev
    next =>
      cases hnewest : newest matched with
      | none => exact absurd (hnewest ▸ hev) nofun
      | some found =>
        have hev' : ev ∈ (some found).toList := hnewest ▸ hev
        obtain rfl := List.mem_singleton.mp hev'
        exact newest_mem hnewest
    next =>
      rw [visitUntil_all] at hev
      exact List.mem_mergeSort.mp (List.mem_of_mem_take hev)
  · intro hev
    refine ⟨matched.length + 2, ?_⟩
    rw [queryVisit, if_neg (by omega), if_neg (by omega), visitUntil_all, List.take_of_length_le]
    · exact List.mem_mergeSort.mpr hev
    · rw [List.length_mergeSort]
      exact Nat.le_add_right _ 2

/-- The authors are the hex of 32-byte keys. -/
def HexAuthors (shape : InterestShape) : Prop :=
  ∀ author ∈ shape.authors, ∃ key : PubKey, key.length = 32 ∧ author = bytesToHex key

theorem any_decodedAuthors (h : HexAuthors shape) (pubkey : String) :
    ((decodedAuthors shape).any fun a => bytesToHex a = pubkey) =
      decide (pubkey ∈ shape.authors) := by
  rw [Bool.eq_iff_iff, List.any_eq_true, decide_eq_true_iff]
  constructor
  · rintro ⟨key, hkey, heq⟩
    obtain ⟨author, hauthor, hdecoded⟩ := List.mem_filterMap.mp hkey
    obtain ⟨key', hlength, rfl⟩ := h author hauthor
    rw [hexToBytes32_bytesToHex hlength] at hdecoded
    obtain rfl := Option.some.inj hdecoded
    exact of_decide_eq_true heq ▸ hauthor
  · intro hmem
    obtain ⟨key, hlength, rfl⟩ := h pubkey hmem
    exact ⟨key, List.mem_filterMap.mpr ⟨_, hmem, hexToBytes32_bytesToHex hlength⟩,
      decide_eq_true rfl⟩

theorem decodedAuthors_eq_nil (h : HexAuthors shape) :
    decodedAuthors shape = [] ↔ shape.authors = ∅ := by
  constructor
  · intro hnil
    refine eq_empty_iff.mpr fun author hauthor => ?_
    have hany := any_decodedAuthors h author
    rw [hnil, decide_eq_true hauthor] at hany
    cases hany
  · intro hempty
    rw [decodedAuthors, elems_eq_nil.mpr hempty]
    rfl

/-- What the tag rows compile to: each row under the letter that is its key. -/
theorem compileTags_spec {rows : List (String × SortedSet String)}
    {acc tags : SortedMap Char (SortedSet String)} (h : compileTags nostr rows acc = .ok tags)
    (hkeys : (rows.map Prod.fst).Nodup)
    (hfresh : ∀ c, String.ofList [c] ∈ rows.map Prod.fst → acc.lookup c = none) :
    (∀ row ∈ rows, row.2 ≠ ∅ ∧
      ∃ c, nostr.singleLetterFromChar c = true ∧ row.1 = String.ofList [c]) ∧
    ∀ c values, tags.lookup c = some values ↔
      acc.lookup c = some values ∨ (String.ofList [c], values) ∈ rows := by
  induction rows generalizing acc with
  | nil =>
    cases h
    exact ⟨nofun, fun c values => (or_iff_left List.not_mem_nil).symm⟩
  | cons row rest ih =>
    obtain ⟨key, values⟩ := row
    obtain ⟨hhead, hrest⟩ := List.nodup_cons.mp hkeys
    rw [compileTags] at h
    split at h
    next => cases h
    next hvalues =>
      split at h
      next c hchars =>
        have hkey : key = String.ofList [c] := by rw [← hchars, String.ofList_toList]
        subst hkey
        split at h
        next hletter =>
          have hnew : acc.lookup c = none := hfresh c List.mem_cons_self
          have hother : ∀ c', String.ofList [c'] ∈ rest.map Prod.fst →
              (acc.alter c fun old => old.getD ∅ ∪ values).lookup c' = none := by
            intro c' hc'
            have hne : c' ≠ c := by
              rintro rfl
              exact hhead hc'
            rw [SortedMap.lookup_alter, if_neg hne]
            exact hfresh c' (List.mem_cons_of_mem _ hc')
          obtain ⟨hrows, hlookup⟩ := ih h hrest hother
          refine ⟨fun row hrow => ?_, fun c' values' => ?_⟩
          · rcases List.mem_cons.mp hrow with rfl | hlater
            · exact ⟨hvalues, c, hletter, rfl⟩
            · exact hrows row hlater
          · rw [hlookup, SortedMap.lookup_alter]
            by_cases hc : c' = c
            · subst hc
              rw [if_pos rfl, hnew, Option.getD_none, empty_union]
              constructor
              · rintro (heq | hmem)
                · exact .inr (Option.some.inj heq ▸ List.mem_cons_self)
                · exact .inr (List.mem_cons_of_mem _ hmem)
              · rintro (heq | hmem)
                · cases heq
                · rcases List.mem_cons.mp hmem with heq | hlater
                  · cases heq
                    exact .inl rfl
                  · exact .inr hlater
            · have hne : (String.ofList [c'], values') ≠ (String.ofList [c], values) := fun heq =>
                hc (by simpa using String.ofList_injective (congrArg Prod.fst heq))
              rw [if_neg hc, List.mem_cons, or_iff_right hne]
        next => cases h
      next => cases h

theorem matchesEvent_iff :
    matchesEvent shape ev.raw.pubkey ev.raw.kind ev.raw.createdAt ev.raw.tags = true ↔
      (shape.authors = ∅ ∨ ev.raw.pubkey ∈ shape.authors) ∧
      (shape.kinds = ∅ ∨ ev.raw.kind ∈ shape.kinds) ∧
      inRange ev shape.since shape.until_ = true ∧
      (shape.addresses = ∅ ∨ (shape.addresses.elems.any fun coord =>
        addressCoordMatches coord ev.raw.pubkey ev.raw.kind ev.raw.tags) = true) ∧
      (shape.tags.rows.all fun row =>
        !queryable row.1 row.2 || carries ev.raw.tags row.1 row.2) = true := by
  simp only [matchesEvent, inRange, Bool.and_eq_true, Bool.or_eq_true, decide_eq_true_iff,
    and_assoc]

theorem eventMatchesTagQuery_iff {authors : List PubKey} {kinds : List Nat}
    {tags : SortedMap Char (SortedSet String)} {since until_ : Option Nat} :
    eventMatchesTagQuery ev authors kinds tags since until_ = true ↔
      (tags.rows ≠ [] ∧ (tags.rows.any fun row => decide (row.2 = ∅)) = false) ∧
      (authors = [] ∨ (authors.any fun a => decide (bytesToHex a = ev.raw.pubkey)) = true) ∧
      (kinds = [] ∨ ev.raw.kind ∈ kinds) ∧ inRange ev since until_ = true ∧
      (tags.rows.all fun row => carries ev.raw.tags (String.ofList [row.1]) row.2) = true := by
  rw [eventMatchesTagQuery]
  split
  next h =>
    simp only [← Bool.not_eq_true] at h ⊢
    simp only [Bool.false_eq_true, false_iff]
    tauto
  next h =>
    simp only [← Bool.not_eq_true] at h ⊢
    split
    next h' =>
      simp only [Bool.false_eq_true, false_iff]
      tauto
    next h' =>
      split
      next h'' =>
        simp only [Bool.false_eq_true, false_iff]
        tauto
      next h'' =>
        rw [Bool.and_eq_true]
        tauto

theorem storeMatches_tags (hdoc : Documented nostr) (hauthors : HexAuthors shape)
    (haddresses : shape.addresses = ∅) (htags : shape.tags.rows ≠ [])
    {tags : SortedMap Char (SortedSet String)} (h : compileTags nostr shape.tags.rows ∅ = .ok tags)
    (ev : StoredEvent) :
    storeMatches ev (.tags (decodedAuthors shape) shape.kinds.elems tags shape.since shape.until_) =
      matchesEvent shape ev.raw.pubkey ev.raw.kind ev.raw.createdAt ev.raw.tags := by
  obtain ⟨hrows, hlookup⟩ := compileTags_spec h shape.tags.keys_nodup fun _ _ => rfl
  have hmem : ∀ c values, (c, values) ∈ tags.rows ↔
      (String.ofList [c], values) ∈ shape.tags.rows := by
    intro c values
    rw [← SortedMap.lookup_eq_some, hlookup]
    exact or_iff_right nofun
  have hall : (tags.rows.all fun row => carries ev.raw.tags (String.ofList [row.1]) row.2) =
      shape.tags.rows.all fun row => !queryable row.1 row.2 || carries ev.raw.tags row.1 row.2 := by
    rw [Bool.eq_iff_iff, List.all_eq_true, List.all_eq_true]
    constructor
    · intro hcarries row hrow
      obtain ⟨-, c, -, hkey⟩ := hrows row hrow
      have hserved := hcarries (c, row.2) ((hmem c row.2).mpr (hkey ▸ hrow))
      rw [Bool.or_eq_true, hkey]
      exact .inr hserved
    · intro hcarries row hrow
      have hrow' := (hmem row.1 row.2).mp hrow
      obtain ⟨hvalues, c, hletter, hkey⟩ := hrows _ hrow'
      obtain rfl : row.1 = c := by simpa using String.ofList_injective hkey
      have hone : (String.ofList [row.1]).utf8ByteSize = 1 := by
        have hsize := isLetter_utf8Size (hdoc.singleLetterFromChar row.1 ▸ hletter)
        simpa using hsize
      have hasked : queryable (String.ofList [row.1]) row.2 = true := by
        rw [queryable, hone]
        simpa using hvalues
      have hcarried := hcarries _ hrow'
      rwa [hasked, Bool.not_true, Bool.false_or] at hcarried
  have hnonempty : tags.rows ≠ [] := by
    obtain ⟨row, hrow⟩ := List.exists_mem_of_ne_nil _ htags
    obtain ⟨-, c, -, hkey⟩ := hrows row hrow
    exact List.ne_nil_of_mem ((hmem c row.2).mpr (hkey ▸ hrow))
  have hvalues : (tags.rows.any fun row => decide (row.2 = ∅)) = false := by
    rw [List.any_eq_false]
    intro row hrow
    have hne := (hrows _ ((hmem row.1 row.2).mp hrow)).1
    simpa using hne
  rw [Bool.eq_iff_iff, storeMatches, eventMatchesTagQuery_iff, matchesEvent_iff, ← hall,
    any_decodedAuthors hauthors, decodedAuthors_eq_nil hauthors, elems_eq_nil]
  simp only [hnonempty, hvalues, haddresses, decide_eq_true_iff, mem_elems, true_or,
    true_and, ne_eq, not_false_eq_true]

/-- Without addresses the compiled queries match what the shape matches. -/
theorem plan_exact (hdoc : Documented nostr) (h : compileStoreQueryPlan nostr shape = .ok plan)
    (hauthors : HexAuthors shape) (haddresses : shape.addresses = ∅) (ev : StoredEvent) :
    (∃ query ∈ plan.queries, storeMatches ev query = true) ↔
      matchesEvent shape ev.raw.pubkey ev.raw.kind ev.raw.createdAt ev.raw.tags = true := by
  have hnil := decodedAuthors_eq_nil hauthors
  have hany := any_decodedAuthors hauthors ev.raw.pubkey
  rw [compileStoreQueryPlan] at h
  split at h
  next => cases h
  split at h
  next => cases h
  split at h
  next htags =>
    rw [if_neg (not_not.mpr haddresses)] at h
    split at h
    next => cases h
    next tags hcompiled =>
      split at h
      next => cases h
      next =>
        cases h
        simp only [List.mem_singleton, exists_eq_left,
          storeMatches_tags hdoc hauthors haddresses htags hcompiled]
  next htags =>
    have hrows : shape.tags.rows = [] := not_not.mp htags
    split at h
    next => cases h
    next hkinds =>
      rw [if_neg (not_not.mpr haddresses)] at h
      rw [matchesEvent_iff, hrows, List.all_nil]
      split at h
      next hempty =>
        cases h
        simp [storeMatches, hempty, haddresses, hkinds, elems_eq_nil]
      next hsome =>
        split at h
        next => cases h
        next author hdecoded =>
          cases h
          rw [hdecoded] at hany
          simp only [List.any_cons, List.any_nil, Bool.or_false, decide_eq_decide] at hany
          simp [storeMatches, hsome, haddresses, hkinds, ← hany, and_assoc,
            eq_comm (a := ev.raw.pubkey)]
        next =>
          cases h
          simp [storeMatches, hsome, haddresses, hkinds, hany, and_assoc]

/-- Every compiled query carries the time window of the shape. -/
theorem plan_inRange (h : compileStoreQueryPlan nostr shape = .ok plan) {query : StoreQuery}
    (hquery : query ∈ plan.queries) (hmatches : storeMatches ev query = true) :
    inRange ev shape.since shape.until_ = true := by
  rw [compileStoreQueryPlan] at h
  split at h
  next => cases h
  split at h
  next => cases h
  split at h
  next =>
    split at h
    next => cases h
    split at h
    next => cases h
    next =>
      split at h
      next => cases h
      next =>
        cases h
        obtain rfl := List.mem_singleton.mp hquery
        exact (eventMatchesTagQuery_iff.mp hmatches).2.2.2.1
  next =>
    split at h
    next => cases h
    split at h
    next =>
      cases h
      obtain ⟨coord, -, rfl⟩ := List.mem_map.mp hquery
      exact (Bool.and_eq_true_iff.mp hmatches).2
    next =>
      split at h
      next =>
        cases h
        obtain rfl := List.mem_singleton.mp hquery
        exact (Bool.and_eq_true_iff.mp hmatches).2
      next =>
        split at h
        next => cases h
        next =>
          cases h
          obtain rfl := List.mem_singleton.mp hquery
          exact (Bool.and_eq_true_iff.mp hmatches).2
        next =>
          cases h
          obtain rfl := List.mem_singleton.mp hquery
          exact (Bool.and_eq_true_iff.mp hmatches).2

/-- No time lies in the window. -/
def EmptyWindow (shape : InterestShape) : Prop :=
  ∃ since until_, shape.since = some since ∧ shape.until_ = some until_ ∧ until_ < since

theorem not_inRange (h : EmptyWindow shape) (ev : StoredEvent) :
    inRange ev shape.since shape.until_ = false := by
  obtain ⟨since, until_, hsince, huntil, hlt⟩ := h
  rw [inRange, hsince, huntil, Option.all_some, Option.all_some, Bool.and_eq_false_iff]
  by_cases hle : since ≤ ev.raw.createdAt
  · exact .inr (decide_eq_false (by omega))
  · exact .inl (decide_eq_false hle)

theorem addresses_plan (h : compileStoreQueryPlan nostr shape = .ok plan)
    (haddresses : shape.addresses ≠ ∅) :
    plan.queries = shape.addresses.elems.map fun coord =>
      .kindDtag coord.kind coord.dTag shape.since shape.until_ := by
  rw [compileStoreQueryPlan] at h
  split at h
  next => cases h
  split at h
  next => cases h
  split at h
  next => cases h
  next =>
    split at h
    next => cases h
    next =>
      cases h
      rfl

/-- A public key that no address names. -/
theorem exists_stranger (shape : InterestShape) :
    ∃ pubkey : String, ∀ coord ∈ shape.addresses, pubkey ≠ coord.pubkey := by
  let spell (n : Nat) : String := String.ofList (List.replicate n 'a')
  have hinjective : Function.Injective spell := by
    intro m n heq
    simpa using congrArg List.length (String.ofList_injective heq)
  have : Infinite String := .of_injective spell hinjective
  obtain ⟨pubkey, hnot⟩ :=
    Infinite.exists_notMem_finset (shape.addresses.elems.map (·.pubkey)).toFinset
  refine ⟨pubkey, fun coord hcoord heq => hnot ?_⟩
  rw [List.mem_toFinset, heq]
  exact List.mem_map_of_mem hcoord

/-- The event of a stranger under an address, in the window. -/
def strangerEvent (shape : InterestShape) (coord : NaddrCoord) (pubkey : String) : StoredEvent :=
  ⟨⟨"id", pubkey, shape.since.getD 0, coord.kind, [["d", coord.dTag]], "", "sig"⟩, 0⟩

theorem stranger_visited (h : compileStoreQueryPlan nostr shape = .ok plan)
    (hwindow : ¬ EmptyWindow shape) {coord : NaddrCoord} (hcoord : coord ∈ shape.addresses)
    (pubkey : String) :
    ∃ query ∈ plan.queries, storeMatches (strangerEvent shape coord pubkey) query = true := by
  have haddresses : shape.addresses ≠ ∅ := ne_empty_iff.mpr ⟨coord, hcoord⟩
  rw [addresses_plan h haddresses]
  refine ⟨_, List.mem_map_of_mem hcoord, ?_⟩
  have hrange : inRange (strangerEvent shape coord pubkey) shape.since shape.until_ = true := by
    rw [inRange, strangerEvent]
    cases hsince : shape.since with
    | none => simp
    | some since =>
      cases huntil : shape.until_ with
      | none => simp
      | some until_ =>
        have hle : since ≤ until_ :=
          not_lt.mp fun hlt => hwindow ⟨since, until_, hsince, huntil, hlt⟩
        simpa using hle
  rw [storeMatches, hrange, Bool.and_true]
  simp [strangerEvent, RawEvent.dTag, firstTagValue]

/-- For every shape that compiles, with authors in hex: over every store the events visited by the
compiled queries are those that the shape matches, exactly if the shape has no address or no time
lies in its window. -/
theorem visits_exact_iff (nostr : NostrCrate) (hdoc : Documented nostr) (shape : InterestShape)
    (plan : StoreQueryPlan) (h : compileStoreQueryPlan nostr shape = .ok plan)
    (hauthors : HexAuthors shape) :
    (∀ st : MemState, ∀ ev ∈ values st.events,
      (∃ query ∈ plan.queries, Visited st query ev) ↔
        matchesEvent shape ev.raw.pubkey ev.raw.kind ev.raw.createdAt ev.raw.tags = true) ↔
      shape.addresses = ∅ ∨ EmptyWindow shape := by
  constructor
  · intro hexact
    by_contra hnot
    obtain ⟨haddresses, hwindow⟩ := not_or.mp hnot
    obtain ⟨coord, hcoord⟩ := ne_empty_iff.mp haddresses
    obtain ⟨pubkey, hstranger⟩ := exists_stranger shape
    let ev := strangerEvent shape coord pubkey
    let st : MemState := { MemState.new with events := MemState.new.events.insert "id" ev }
    have hmem : ev ∈ values st.events := (mem_values _ _).mpr ⟨"id", AList.lookup_insert _⟩
    obtain ⟨query, hquery, hmatches⟩ := stranger_visited h hwindow hcoord pubkey
    have hmatched := (hexact st ev hmem).mp ⟨query, hquery, visited_iff.mpr ⟨hmem, hmatches⟩⟩
    obtain ⟨-, -, -, hempty | hany, -⟩ := matchesEvent_iff.mp hmatched
    · exact haddresses hempty
    · obtain ⟨other, hother, hcoordMatches⟩ := List.any_eq_true.mp hany
      rw [addressCoordMatches, if_pos (.inr (hstranger other hother))] at hcoordMatches
      cases hcoordMatches
  · rintro (haddresses | hwindow) st ev hev
    · simp only [visited_iff, hev, true_and]
      exact plan_exact hdoc h hauthors haddresses ev
    · constructor
      · rintro ⟨query, hquery, hvisited⟩
        have hrange := plan_inRange h hquery (visited_iff.mp hvisited).2
        rw [not_inRange hwindow] at hrange
        cases hrange
      · intro hmatches
        have hrange := (matchesEvent_iff.mp hmatches).2.2.1
        rw [not_inRange hwindow] at hrange
        cases hrange

/-- Alice's notes. -/
def aliceNotes : InterestShape :=
  { InterestShape.default with
    authors := {bytesToHex (List.replicate 32 0xaa)}
    kinds := {1} }

theorem aliceNotes_hexAuthors : HexAuthors aliceNotes := by
  intro author hauthor
  exact ⟨List.replicate 32 0xaa, List.length_replicate, mem_singleton.mp hauthor⟩

theorem aliceNotes_visits :
    compileStoreQueryPlan documentedCrate aliceNotes =
        .ok ⟨[.authorKind (List.replicate 32 0xaa) [1] none none], true⟩ ∧
      ((∀ st : MemState, ∀ ev ∈ values st.events,
        (∃ query ∈ [StoreQuery.authorKind (List.replicate 32 0xaa) [1] none none],
          Visited st query ev) ↔
          matchesEvent aliceNotes ev.raw.pubkey ev.raw.kind ev.raw.createdAt ev.raw.tags = true) ↔
        aliceNotes.addresses = ∅ ∨ EmptyWindow aliceNotes) := by
  have hplan : compileStoreQueryPlan documentedCrate aliceNotes =
      .ok ⟨[.authorKind (List.replicate 32 0xaa) [1] none none], true⟩ := by rfl
  exact ⟨hplan, visits_exact_iff documentedCrate documentedCrate_documented aliceNotes _ hplan
    aliceNotes_hexAuthors⟩

/-- Alice's article, asked for by its coordinate and kind. -/
def aliceArticle : InterestShape :=
  { InterestShape.default with
    addresses := {⟨alice, 30023, "intro"⟩}
    kinds := {30023} }

/-- Bob has an article under the same kind and `d` tag. -/
def bobArticle : StoredEvent :=
  let bob := String.ofList (List.replicate 64 'b')
  ⟨⟨String.ofList (List.replicate 64 '1'), bob, 10, 30023, [["d", "intro"]], "", ""⟩, 10⟩

def bobStore : MemState :=
  { MemState.new with events := MemState.new.events.insert bobArticle.raw.id bobArticle }

/-- Bob's article is visited for Alice's coordinate. -/
theorem bobArticle_visited :
    compileStoreQueryPlan documentedCrate aliceArticle =
        .ok ⟨[.kindDtag 30023 "intro" none none], false⟩ ∧
      HexAuthors aliceArticle ∧ bobArticle ∈ values bobStore.events ∧
      Visited bobStore (.kindDtag 30023 "intro" none none) bobArticle ∧
      matchesEvent aliceArticle bobArticle.raw.pubkey bobArticle.raw.kind
        bobArticle.raw.createdAt bobArticle.raw.tags = false := by
  have hstored : bobArticle ∈ values bobStore.events :=
    (mem_values _ _).mpr ⟨bobArticle.raw.id, AList.lookup_insert _⟩
  have hplan : compileStoreQueryPlan documentedCrate aliceArticle =
      .ok ⟨[.kindDtag 30023 "intro" none none], false⟩ := by rfl
  have hhex : HexAuthors aliceArticle := fun author hauthor =>
    absurd hauthor (not_mem_empty author)
  exact ⟨hplan, hhex, hstored, visited_iff.mpr ⟨hstored, by decide +kernel⟩, by decide +kernel⟩

end CacheServe
