import NostrMultiPlatform.CacheServe
import NostrMultiPlatform.HashWalks
import NostrMultiPlatform.StoreActions

/-!
# The paths of a query

The store in memory answers a query by a visit of its own, with a short cut where
one event is asked for; every kind of query also has a scan, and a visit may go
through that. The rows have distinct ids, so that no two of them are tied, and all
paths come to the same rows in the same order, whatever the order of the table.
-/
namespace QueryPaths

open HashWalks CacheServe StoreEvent StoreState StoreActions StoreEdits Sorted Tables Runs

variable {σ : Type} {st : MemState} {o o' : WalkOrder StoredEvent}

/-- A visitor keeps a state of its own and says whether to stop. -/
abbrev Visitor (σ : Type) : Type := σ → StoredEvent → σ × Bool

def visitLoop (visitor : Visitor σ) : σ → List StoredEvent → σ
  | s, [] => s
  | s, ev :: rest => if (visitor s ev).2 then (visitor s ev).1 else visitLoop visitor (visitor s ev).1 rest

/-- The rows in the order of the table. -/
def storedEvents (o : WalkOrder StoredEvent) (st : MemState) : List StoredEvent :=
  o.order (values st.events)

def queryVisit (o : WalkOrder StoredEvent) (st : MemState) (query : StoreQuery) (limit : Nat)
    (visitor : Visitor σ) (s : σ) : σ :=
  let matched := (storedEvents o st).filter (storeMatches · query)
  if limit = 0 then s
  else if limit = 1 then
    match newest matched with
    | some ev => (visitor s ev).1
    | none => s
  else visitLoop visitor s ((matched.mergeSort visitLe).take limit)

/-- All scans filter, sort and truncate. -/
def scanWhere (o : WalkOrder StoredEvent) (st : MemState) (p : StoredEvent → Bool) (limit : Nat) :
    List StoredEvent :=
  (((storedEvents o st).filter p).mergeSort visitLe).take limit

def scanByAuthorKind (o : WalkOrder StoredEvent) (st : MemState) (author : PubKey) (kinds : List Nat)
    (since until_ : Option Nat) : Nat → List StoredEvent :=
  let authorHex := bytesToHex author
  scanWhere o st fun ev => ev.raw.pubkey == authorHex && kinds.contains ev.raw.kind &&
    since.all (· ≤ ev.raw.createdAt) && until_.all (ev.raw.createdAt ≤ ·)

def scanByAuthorsKind (o : WalkOrder StoredEvent) (st : MemState) (authors : List PubKey)
    (kinds : List Nat) (since until_ : Option Nat) : Nat → List StoredEvent :=
  let authorHexes := authors.map bytesToHex
  scanWhere o st fun ev => authorHexes.contains ev.raw.pubkey && kinds.contains ev.raw.kind &&
    since.all (· ≤ ev.raw.createdAt) && until_.all (ev.raw.createdAt ≤ ·)

def scanByKindDtag (o : WalkOrder StoredEvent) (st : MemState) (kind : Nat) (dTag : String)
    (since until_ : Option Nat) : Nat → List StoredEvent :=
  scanWhere o st fun ev => ev.raw.kind == kind && ev.raw.dTag.any (· == dTag) &&
    since.all (· ≤ ev.raw.createdAt) && until_.all (ev.raw.createdAt ≤ ·)

def scanByKindTime (o : WalkOrder StoredEvent) (st : MemState) (kinds : List Nat)
    (since until_ : Option Nat) : Nat → List StoredEvent :=
  scanWhere o st fun ev => (kinds.isEmpty || kinds.contains ev.raw.kind) &&
    since.all (· ≤ ev.raw.createdAt) && until_.all (ev.raw.createdAt ≤ ·)

def scanByTags (o : WalkOrder StoredEvent) (st : MemState) (authors : List PubKey) (kinds : List Nat)
    (tags : SortedMap Char (SortedSet String)) (since until_ : Option Nat) :
    Nat → List StoredEvent :=
  scanWhere o st fun ev => eventMatchesTagQuery ev authors kinds tags since until_

/-- The scan of a query. -/
def scanOf (o : WalkOrder StoredEvent) (st : MemState) : StoreQuery → Nat → List StoredEvent
  | .authorKind author kinds since until_ => scanByAuthorKind o st author kinds since until_
  | .authorsKind authors kinds since until_ => scanByAuthorsKind o st authors kinds since until_
  | .kindTime kinds since until_ => scanByKindTime o st kinds since until_
  | .kindDtag kind dTag since until_ => scanByKindDtag o st kind dTag since until_
  | .tags authors kinds tags since until_ => scanByTags o st authors kinds tags since until_

/-- The visit of a backend without one of its own. -/
def queryVisitDefault (o : WalkOrder StoredEvent) (st : MemState) (query : StoreQuery) (limit : Nat)
    (visitor : Visitor σ) (s : σ) : σ :=
  visitLoop visitor s (scanOf o st query limit)

/-- Filter by the predicate, sort, truncate. -/
def plainQuery (o : WalkOrder StoredEvent) (st : MemState) (query : StoreQuery) (limit : Nat) :
    List StoredEvent :=
  (((storedEvents o st).filter (storeMatches · query)).mergeSort visitLe).take limit

/-- Every scan filters by the predicate of its query. -/
theorem scanOf_eq (query : StoreQuery) (limit : Nat) :
    scanOf o st query limit = plainQuery o st query limit := by
  have hwhere : ∀ {p : StoredEvent → Bool}, (∀ ev, p ev = storeMatches ev query) →
      scanWhere o st p limit = plainQuery o st query limit := fun hp => by
    rw [scanWhere, plainQuery, funext hp]
  cases query with
  | authorKind =>
    refine hwhere fun ev => ?_
    simp only [storeMatches, inRange, Bool.and_assoc, List.contains_eq_mem, Bool.beq_eq_decide_eq]
  | authorsKind authors =>
    refine hwhere fun ev => ?_
    have hauthors : (authors.map bytesToHex).contains ev.raw.pubkey =
        authors.any fun a => bytesToHex a = ev.raw.pubkey := by
      rw [Bool.eq_iff_iff, List.contains_iff_mem, List.any_eq_true, List.mem_map]
      simp only [decide_eq_true_eq]
    simp only [hauthors, storeMatches, inRange, Bool.and_assoc, List.contains_eq_mem]
  | kindTime kinds =>
    refine hwhere fun ev => ?_
    have hempty : kinds.isEmpty = decide (kinds = []) := by cases kinds <;> rfl
    simp only [hempty, storeMatches, inRange, Bool.and_assoc, List.contains_eq_mem, Bool.decide_or]
  | kindDtag =>
    refine hwhere fun ev => ?_
    simp only [storeMatches, inRange, Bool.and_assoc, Bool.beq_eq_decide_eq]
  | tags => exact hwhere fun _ => rfl

theorem visitLe_iff {a b : StoredEvent} : visitLe a b = true ↔
    b.raw.createdAt < a.raw.createdAt ∨
      (a.raw.createdAt = b.raw.createdAt ∧ a.raw.id ≤ b.raw.id) := by
  simp [visitLe]

theorem visitLe_trans (a b c : StoredEvent) (hab : visitLe a b = true) (hbc : visitLe b c = true) :
    visitLe a c = true := by
  rw [visitLe_iff] at *
  rcases hab with hab | ⟨hab, hid⟩
  · exact .inl (hbc.elim (·.trans hab) fun h => h.1 ▸ hab)
  · rcases hbc with hbc | ⟨hbc, hid'⟩
    · exact .inl (hab ▸ hbc)
    · exact .inr ⟨hab.trans hbc, hid.trans hid'⟩

theorem visitLe_total (a b : StoredEvent) : (visitLe a b || visitLe b a) = true := by
  rw [Bool.or_eq_true, visitLe_iff, visitLe_iff]
  rcases lt_trichotomy a.raw.createdAt b.raw.createdAt with hlt | heq | hgt
  · exact .inr (.inl hlt)
  · exact (le_total a.raw.id b.raw.id).imp (fun h => .inr ⟨heq, h⟩) fun h => .inr ⟨heq.symm, h⟩
  · exact .inl (.inl hgt)

theorem visitLe_tied {a b : StoredEvent} (hab : visitLe a b = true) (hba : visitLe b a = true) :
    a.raw.id = b.raw.id := by
  rw [visitLe_iff] at *
  rcases hab with hab | ⟨hab, hid⟩
  · rcases hba with hba | ⟨hba, -⟩
    · exact absurd (hab.trans hba) (lt_irrefl _)
    · exact absurd hba hab.ne
  · rcases hba with hba | ⟨-, hid'⟩
    · exact absurd hab hba.ne
    · exact le_antisymm hid hid'

/-- The newer of two events. -/
def newer (best ev : StoredEvent) : StoredEvent := if visitLe ev best then ev else best

theorem newest_eq (evs : List StoredEvent) : newest evs = greatest newer evs := by
  cases evs <;> rfl

theorem newer_picks : Picks (fun a b => visitLe b a = true) newer where
  one a b := by
    unfold newer
    split
    · exact .inr rfl
    · exact .inl rfl
  left a b := by
    unfold newer
    split
    next h => exact h
    · exact (Bool.or_self _).symm.trans (visitLe_total a a)
  right a b := by
    unfold newer
    split
    · exact (Bool.or_self _).symm.trans (visitLe_total b b)
    next h => exact (Bool.or_eq_true_iff.mp (visitLe_total a b)).resolve_right h
  trans hab hbc := visitLe_trans _ _ _ hbc hab

/-- Rows that agree in their ids are one row. -/
def Untied (evs : List StoredEvent) : Prop :=
  ∀ a ∈ evs, ∀ b ∈ evs, a.raw.id = b.raw.id → a = b

theorem untied_storedEvents (h : Rooted st) : Untied (storedEvents o st) := by
  intro a ha b hb heq
  obtain ⟨id, hid⟩ := (mem_values _ _).mp ((o.perm _).mem_iff.mp ha)
  obtain ⟨id', hid'⟩ := (mem_values _ _).mp ((o.perm _).mem_iff.mp hb)
  have hkey : id = id' := (h id a hid).1.symm.trans (heq.trans (h id' b hid').1)
  rw [hkey, hid'] at hid
  exact (Option.some.inj hid).symm

theorem nodup_storedEvents (h : Rooted st) : (storedEvents o st).Nodup := by
  refine (o.perm _).nodup_iff.mpr (List.Nodup.of_map (·.raw.id) ?_)
  have hkeys : (values st.events).map (·.raw.id) = st.events.keys := by
    rw [values, List.map_map, AList.keys, List.keys]
    exact List.map_congr_left fun e he => (h e.1 e.2 (AList.mem_lookup_iff.mpr he)).1
  rw [hkeys]
  exact st.events.keys_nodup

theorem Untied.filter {evs : List StoredEvent} (h : Untied evs) (p : StoredEvent → Bool) :
    Untied (evs.filter p) := fun a ha b hb =>
  h a (List.mem_of_mem_filter ha) b (List.mem_of_mem_filter hb)

/-- Without ties the order before a sort does not matter. -/
theorem Untied.mergeSort_eq {evs evs' : List StoredEvent} (h : Untied evs) (hperm : evs.Perm evs') :
    evs.mergeSort visitLe = evs'.mergeSort visitLe := by
  have hsorted : ∀ evs : List StoredEvent, (evs.mergeSort visitLe).Pairwise (visitLe · ·) :=
    List.pairwise_mergeSort visitLe_trans visitLe_total
  refine List.Perm.eq_of_pairwise (fun a b ha hb hab hba => ?_) (hsorted evs) (hsorted evs') ?_
  · exact h a (List.mem_mergeSort.mp ha) b (hperm.mem_iff.mpr (List.mem_mergeSort.mp hb))
      (visitLe_tied hab hba)
  · exact (List.mergeSort_perm _ _).trans (hperm.trans (List.mergeSort_perm _ _).symm)

/-- Without ties the newest row is the first of the sorted ones. -/
theorem Untied.newest_eq_head {evs : List StoredEvent} (h : Untied evs) :
    (newest evs).toList = (evs.mergeSort visitLe).take 1 := by
  cases hnewest : newest evs with
  | none =>
    have hnil : evs = [] := by
      cases evs with
      | nil => rfl
      | cons => cases hnewest
    rw [hnil, List.mergeSort_nil]
    rfl
  | some ev =>
    rw [newest_eq] at hnewest
    obtain ⟨hmem, hnone⟩ := newer_picks.greatest hnewest
    have hsorted := List.pairwise_mergeSort visitLe_trans visitLe_total evs
    cases hsort : evs.mergeSort visitLe with
    | nil => exact absurd (List.mem_mergeSort.mpr hmem) (hsort ▸ List.not_mem_nil)
    | cons head =>
      rw [hsort] at hsorted
      have hhead : head ∈ evs := List.mem_mergeSort.mp (hsort ▸ List.mem_cons_self)
      have hfirst : visitLe head ev = true := by
        rcases List.mem_cons.mp (hsort ▸ List.mem_mergeSort.mpr hmem) with rfl | hlater
        · exact (Bool.or_self _).symm.trans (visitLe_total ev ev)
        · exact List.rel_of_pairwise_cons hsorted hlater
      rw [h ev hmem head hhead (visitLe_tied (hnone head hhead) hfirst)]
      rfl

/-- The plain query does not see the order of the table. -/
theorem plainQuery_order (h : Rooted st) (query : StoreQuery) (limit : Nat) :
    plainQuery o st query limit = plainQuery o' st query limit := by
  have hperm : (storedEvents o st).Perm (storedEvents o' st) :=
    (o.perm _).trans (o'.perm _).symm
  rw [plainQuery, plainQuery,
    ((untied_storedEvents h).filter _).mergeSort_eq (hperm.filter (storeMatches · query))]

theorem queryVisit_eq (h : Rooted st) (query : StoreQuery) (limit : Nat) (visitor : Visitor σ)
    (s : σ) : queryVisit o st query limit visitor s =
      visitLoop visitor s (plainQuery o st query limit) := by
  have huntied := (untied_storedEvents (o := o) h).filter (storeMatches · query)
  unfold queryVisit plainQuery
  dsimp only
  split
  next hzero => rw [hzero, List.take_zero, visitLoop]
  · split
    next hone =>
      -- a visit of one row stops there anyway
      rw [hone, ← huntied.newest_eq_head]
      cases newest ((storedEvents o st).filter (storeMatches · query)) with
      | none => rfl
      | some => simp only [Option.toList_some, visitLoop, ite_self]
    · rfl

/-- In every reachable store, whatever the order of its table on each walk: a visit, by the store
itself or through the scan of the query, runs the visitor over the plain query. -/
theorem query_paths_agree (actions : List Action) (o o' : WalkOrder StoredEvent)
    (query : StoreQuery) (limit : Nat) (visitor : Visitor σ) (s : σ) :
    queryVisit o (run act .new actions) query limit visitor s =
      visitLoop visitor s (plainQuery o' (run act .new actions) query limit) ∧
    queryVisitDefault o (run act .new actions) query limit visitor s =
      visitLoop visitor s (plainQuery o' (run act .new actions) query limit) ∧
    scanOf o (run act .new actions) query limit =
      plainQuery o' (run act .new actions) query limit := by
  have hroot : Rooted (run act .new actions) := Reachable.rooted ⟨actions, rfl⟩
  have hscan : scanOf o (run act .new actions) query limit =
      plainQuery o' (run act .new actions) query limit :=
    (scanOf_eq query limit).trans (plainQuery_order hroot query limit)
  refine ⟨?_, congrArg (visitLoop visitor s) hscan, hscan⟩
  rw [queryVisit_eq hroot, plainQuery_order hroot query limit]

end QueryPaths
