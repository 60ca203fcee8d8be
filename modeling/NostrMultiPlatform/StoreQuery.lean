import NostrMultiPlatform.StoreSearch

/-!
# Full-text search

All words of a query but the last are matched exactly, the last as a prefix. The
prefix scan and the emission run under budgets; a search that reports itself
complete has given every stored event that answers the query, newest first.
-/
namespace StoreQuery

open PostingIndex StoreEvent StoreText StoreState StoreInsert StoreGc StoreStep StoreEdits
open StoreActions StoreIndexes StoreSearch Sorted Tables Runs

/-- Maximum number of candidate documents examined, and of matches given. -/
structure TextSearchBudget where
  maxDocsScanned : Nat
  maxMatches : Nat

inductive TextSearchOrder where
  | newestFirst | relevance

/-- No kinds stand for all kinds of the scope; the time bounds are inclusive. -/
structure TextSearchQuery where
  scope : Nat
  query : String
  kinds : Finset Nat
  since : Option Nat
  until_ : Option Nat
  limit : Nat
  order : TextSearchOrder
  budget : TextSearchBudget

structure TextSearchHit where
  doc : SearchDocumentKey
  eventId : Option EventId
  createdAt : Nat
  score : Nat

/-- `stopped` is the source's `Partial`. -/
inductive TextSearchStatus where
  | complete
  | stopped (budgetExhausted : Bool)
  | unsupported
  deriving DecidableEq

/-- A document at its rank, newest first. -/
abbrev Ranked := Nat ×ₗ SearchDocumentKey

variable (index : ScopeIndex)

/-- The postings of the terms that begin with `pre`: the sorted terms are read from `pre` up to
the first one that does not match. -/
def prefixPostings (pre : String) : List Ranked :=
  ((index.postings.rows.filter fun row => decide (pre ≤ row.1)).takeWhile fun row =>
    isPrefixMatch row.1 pre).flatMap fun row => row.2.elems

/-- The documents of the postings, and whether the scan ran out of budget. -/
def scanDocs (maxDocsScanned : Nat) : List Ranked → Nat → SortedSet SearchDocumentKey →
    SortedSet SearchDocumentKey × Bool
  | [], _, docs => (docs, false)
  | posting :: rest, docsScanned, docs =>
    if maxDocsScanned ≤ docsScanned + 1 then (insert (ofLex posting).2 docs, true)
    else scanDocs maxDocsScanned rest (docsScanned + 1) (insert (ofLex posting).2 docs)

/-- The document is posted in the set, at the rank its own time gives. -/
def postedIn (set : SortedSet Ranked) (doc : SearchDocumentKey) : Bool :=
  match index.docMeta.lookup doc with
  | some info => decide (toLex (revCreatedAt info.2, doc) ∈ set)
  | none => false

/-- The documents that are posted under every exact term as well. -/
def retainTerms (index : ScopeIndex) : List String → SortedSet SearchDocumentKey →
    SortedSet SearchDocumentKey
  | [], acc => acc
  | term :: rest, acc =>
    match index.postings.lookup term with
    | none => ∅
    | some set =>
      let kept := acc.retain (postedIn index set)
      if kept = ∅ then kept else retainTerms index rest kept

/-- The document at its rank, if it passes the filters of the query. -/
def rankDoc (query : TextSearchQuery) (doc : SearchDocumentKey) : Option Ranked :=
  match index.docMeta.lookup doc with
  | none => none
  | some (kind, createdAt) =>
    if query.kinds ≠ ∅ ∧ kind ∉ query.kinds then none
    else if query.since.any fun since => decide (createdAt < since) then none
    else if query.until_.any fun until_ => decide (until_ < createdAt) then none
    else some (toLex (revCreatedAt createdAt, doc))

def orderDocs (docs : SortedSet SearchDocumentKey) (query : TextSearchQuery) : List Ranked :=
  (docs.elems.filterMap (rankDoc index query)).mergeSort fun a b => decide (a ≤ b)

/-- The candidates, newest first, and whether the scan ran out of budget. -/
def collectCandidates (exactTerms : List String) (pre : String) (query : TextSearchQuery) :
    List Ranked × Bool :=
  let (docs, budgetExhausted) :=
    scanDocs query.budget.maxDocsScanned (prefixPostings index pre) 0 ∅
  (orderDocs index (retainTerms index exactTerms docs) query, budgetExhausted)

def hitOf (candidate : Ranked) : TextSearchHit where
  doc := (ofLex candidate).2
  eventId := some (ofLex candidate).2.bytes
  createdAt := u64Max - (ofLex candidate).1
  score := 1

/-- Give the candidates to the visitor, which answers whether to stop after what it was given. -/
def emit (query : TextSearchQuery) (visitor : List TextSearchHit → Bool) :
    List Ranked → List TextSearchHit → Bool → List TextSearchHit × TextSearchStatus
  | [], emitted, budgetExhausted =>
    (emitted, if budgetExhausted then .stopped true else .complete)
  | candidate :: rest, emitted, budgetExhausted =>
    if query.limit ≤ emitted.length then (emitted, .stopped budgetExhausted)
    else if query.budget.maxMatches ≤ emitted.length then (emitted, .stopped true)
    else if visitor (emitted ++ [hitOf candidate]) then (emitted ++ [hitOf candidate], .complete)
    else emit query visitor rest (emitted ++ [hitOf candidate]) budgetExhausted

/-- The hits given to the visitor and the status. Both orders are newest first. -/
def textSearchVisit (st : MemState) (query : TextSearchQuery)
    (visitor : List TextSearchHit → Bool) : List TextSearchHit × TextSearchStatus :=
  match st.fts.indices.lookup query.scope with
  | none => ([], .unsupported)
  | some index =>
    match splitQueryTerms st.fts.text query.query with
    | (_, none) => ([], .complete)
    | (exactTerms, some pre) =>
      let (candidates, budgetExhausted) := collectCandidates index exactTerms pre query
      emit query visitor candidates [] budgetExhausted

/-- Between a list and one it begins, every list begins with it. -/
theorem prefix_convex {α : Type} [LT α] [Std.Asymm (α := α) (· < ·)]
    [Std.Trichotomous (α := α) (· < ·)] {p k k' : List α} (hlo : p ≤ k) (hhi : k ≤ k')
    (h : p <+: k') : p <+: k := by
  induction p generalizing k k' with
  | nil => exact List.nil_prefix
  | cons a p ih =>
    obtain ⟨t, rfl⟩ := h
    cases k with
    | nil => exact absurd hlo (by simp)
    | cons =>
      rw [List.cons_append, List.cons_le_cons_iff] at hhi
      rw [List.cons_le_cons_iff] at hlo
      rcases hlo with hlt | ⟨rfl, hlo⟩
      · rcases hhi with hgt | ⟨rfl, -⟩
        · exact absurd hlt (Std.Asymm.asymm _ _ hgt)
        · exact absurd hlt (Std.Irrefl.irrefl _)
      · rcases hhi with hgt | ⟨-, hhi⟩
        · exact absurd hgt (Std.Irrefl.irrefl _)
        · exact List.cons_prefix_cons.mpr ⟨rfl, ih hlo hhi (List.prefix_append p t)⟩

theorem isPrefixMatch_iff {candidate pre : String} :
    isPrefixMatch candidate pre = true ↔ pre.toList <+: candidate.toList :=
  List.isPrefixOf_iff_prefix

theorem le_of_isPrefixMatch {candidate pre : String} (h : isPrefixMatch candidate pre = true) :
    pre ≤ candidate := (isPrefixMatch_iff.mp h).le

theorem isPrefixMatch_of_le {pre candidate candidate' : String} (hlo : pre ≤ candidate)
    (hhi : candidate ≤ candidate') (h : isPrefixMatch candidate' pre = true) :
    isPrefixMatch candidate pre = true :=
  isPrefixMatch_iff.mpr (prefix_convex hlo hhi (isPrefixMatch_iff.mp h))

/-- Where no element behind one that fails passes, taking while is filtering. -/
theorem takeWhile_eq_filter {α : Type} {p : α → Bool} {xs : List α}
    (h : xs.Pairwise fun a b => p b = true → p a = true) : xs.takeWhile p = xs.filter p := by
  induction xs with
  | nil => rfl
  | cons x _ ih =>
    obtain ⟨hx, hxs⟩ := List.pairwise_cons.mp h
    by_cases hpx : p x = true
    · rw [List.takeWhile_cons_of_pos hpx, List.filter_cons_of_pos hpx, ih hxs]
    · rw [List.takeWhile_cons_of_neg hpx, List.filter_cons_of_neg hpx, eq_comm,
        List.filter_eq_nil_iff]
      exact fun y hy hpy => hpx (hx y hy hpy)

variable {doc : SearchDocumentKey}

/-- The scan reads the postings of all terms with the prefix. -/
theorem mem_prefixPostings {index : ScopeIndex} {pre : String} {rank : Nat} :
    toLex (rank, doc) ∈ prefixPostings index pre ↔
      ∃ term, isPrefixMatch term pre = true ∧ Posted index.postings term rank doc := by
  have hsorted : (index.postings.rows.filter fun row => decide (pre ≤ row.1)).Pairwise
      fun a b => isPrefixMatch b.1 pre = true → isPrefixMatch a.1 pre = true := by
    rw [List.pairwise_filter]
    refine index.postings.sorted.imp fun hlt ha _ hb => ?_
    exact isPrefixMatch_of_le (of_decide_eq_true ha) hlt.le hb
  rw [prefixPostings, takeWhile_eq_filter hsorted, List.mem_flatMap]
  simp only [List.mem_filter, decide_eq_true_eq]
  constructor
  · rintro ⟨⟨term, set⟩, ⟨⟨hrow, -⟩, hpre⟩, hmem⟩
    exact ⟨term, hpre, set, SortedMap.lookup_eq_some.mpr hrow, hmem⟩
  · rintro ⟨term, hpre, set, hset, hmem⟩
    exact ⟨⟨term, set⟩, ⟨⟨SortedMap.lookup_eq_some.mp hset, le_of_isPrefixMatch hpre⟩, hpre⟩, hmem⟩

theorem scanDocs_subset (maxDocsScanned : Nat) (postings : List Ranked) (docsScanned : Nat)
    (docs : SortedSet SearchDocumentKey)
    (h : doc ∈ (scanDocs maxDocsScanned postings docsScanned docs).1) :
    doc ∈ docs ∨ ∃ rank, toLex (rank, doc) ∈ postings := by
  induction postings generalizing docsScanned docs with
  | nil => exact .inl h
  | cons posting rest ih =>
    have hfirst : doc ∈ insert (ofLex posting).2 docs →
        doc ∈ docs ∨ ∃ rank, toLex (rank, doc) ∈ posting :: rest := by
      intro hmem
      rcases SortedSet.mem_insert.mp hmem with rfl | hmem
      · exact .inr ⟨(ofLex posting).1, List.mem_cons_self⟩
      · exact .inl hmem
    rw [scanDocs] at h
    split at h
    · exact hfirst h
    · rcases ih _ _ h with hmem | ⟨rank, hrank⟩
      · exact hfirst hmem
      · exact .inr ⟨rank, List.mem_cons_of_mem _ hrank⟩

/-- A scan within its budget takes every document. -/
theorem scanDocs_complete (maxDocsScanned : Nat) (postings : List Ranked) (docsScanned : Nat)
    (docs : SortedSet SearchDocumentKey)
    (hall : (scanDocs maxDocsScanned postings docsScanned docs).2 = false)
    (h : doc ∈ docs ∨ ∃ rank, toLex (rank, doc) ∈ postings) :
    doc ∈ (scanDocs maxDocsScanned postings docsScanned docs).1 := by
  induction postings generalizing docsScanned docs with
  | nil =>
    rcases h with h | ⟨rank, hrank⟩
    · exact h
    · cases hrank
  | cons _ _ ih =>
    rw [scanDocs] at hall ⊢
    split at hall
    · cases hall
    next hbudget =>
      rw [if_neg hbudget]
      refine ih _ _ hall ?_
      rcases h with h | ⟨rank, hrank⟩
      · exact .inl (SortedSet.mem_insert.mpr (.inr h))
      · rcases List.mem_cons.mp hrank with rfl | hrank
        · exact .inl (SortedSet.mem_insert.mpr (.inl rfl))
        · exact .inr ⟨rank, hrank⟩

theorem mem_retainTerms {index : ScopeIndex} {terms : List String}
    {acc : SortedSet SearchDocumentKey} :
    doc ∈ retainTerms index terms acc ↔ doc ∈ acc ∧ ∀ term ∈ terms,
      ∃ set, index.postings.lookup term = some set ∧ postedIn index set doc = true := by
  induction terms generalizing acc with
  | nil => simp [retainTerms]
  | cons term _ ih =>
    rw [retainTerms]
    cases hset : index.postings.lookup term with
    | none => simp [hset]
    | some set =>
      have hkept : doc ∈ acc.retain (postedIn index set) ↔
          doc ∈ acc ∧ postedIn index set doc = true := SortedSet.mem_retain
      dsimp only
      split
      next hempty =>
        rw [hempty] at hkept ⊢
        simp only [SortedSet.not_mem_empty, false_iff, not_and, List.mem_cons, forall_eq_or_imp,
          hset, Option.some.injEq, exists_eq_left'] at hkept ⊢
        exact fun hacc hposted => absurd hposted (hkept hacc)
      next =>
        rw [ih, hkept]
        simp only [List.mem_cons, forall_eq_or_imp, hset, Option.some.injEq, exists_eq_left',
          and_assoc]

section Emit

variable (query : TextSearchQuery) (visitor : List TextSearchHit → Bool)

/-- What the emission gives is a first part of the candidates, within the limit. -/
theorem emit_prefix (candidates : List Ranked) (emitted : List TextSearchHit)
    (budgetExhausted : Bool) : ∃ given, given <+: candidates ∧
      (emit query visitor candidates emitted budgetExhausted).1 = emitted ++ given.map hitOf ∧
      (emitted.length ≤ query.limit → emitted.length + given.length ≤ query.limit) := by
  induction candidates generalizing emitted with
  | nil => exact ⟨[], List.prefix_rfl, by simp [emit], fun h => h⟩
  | cons candidate rest ih =>
    rw [emit]
    split
    · exact ⟨[], List.nil_prefix, by simp, fun h => h⟩
    next hlimit =>
      split
      · exact ⟨[], List.nil_prefix, by simp, fun h => h⟩
      · split
        · exact ⟨[candidate], ⟨rest, rfl⟩, rfl, fun _ => by rw [List.length_singleton]; omega⟩
        · obtain ⟨given, hpre, hhits, hlen⟩ := ih (emitted ++ [hitOf candidate])
          refine ⟨candidate :: given, List.cons_prefix_cons.mpr ⟨rfl, hpre⟩, ?_, fun _ => ?_⟩
          · rw [hhits, List.map_cons, List.append_assoc, List.singleton_append]
          · rw [List.length_append, List.length_singleton] at hlen
            rw [List.length_cons]
            omega

/-- A complete emission that was not stopped gives every candidate. -/
theorem emit_complete (candidates : List Ranked) (emitted : List TextSearchHit)
    (budgetExhausted : Bool)
    (hcomplete : (emit query visitor candidates emitted budgetExhausted).2 = .complete)
    (hgo : ∀ given, given <+: (emit query visitor candidates emitted budgetExhausted).1 →
      emitted.length < given.length → visitor given = false) :
    (emit query visitor candidates emitted budgetExhausted).1 =
      emitted ++ candidates.map hitOf ∧ budgetExhausted = false := by
  induction candidates generalizing emitted with
  | nil =>
    refine ⟨by simp [emit], ?_⟩
    rw [emit] at hcomplete
    cases budgetExhausted with
    | true => cases hcomplete
    | false => rfl
  | cons candidate _ ih =>
    rw [emit] at hcomplete hgo ⊢
    split at hcomplete
    · cases hcomplete
    next hlimit =>
      rw [if_neg hlimit] at hgo ⊢
      split at hcomplete
      · cases hcomplete
      next hmatches =>
        rw [if_neg hmatches] at hgo ⊢
        split at hcomplete
        next hstop =>
          rw [if_pos hstop] at hgo
          have hnot := hgo _ List.prefix_rfl (by simp)
          rw [hstop] at hnot
          cases hnot
        next hgoes =>
          rw [if_neg hgoes] at hgo ⊢
          have hrest := ih (emitted ++ [hitOf candidate]) hcomplete fun given hpre hlen =>
            hgo given hpre (by rw [List.length_append, List.length_singleton] at hlen; omega)
          rw [hrest.1, List.map_cons, List.append_assoc, List.singleton_append]
          exact ⟨rfl, hrest.2⟩

end Emit

/-- A record passes the kind and time filters of the query. -/
def Passes (query : TextSearchQuery) (kind createdAt : Nat) : Prop :=
  (query.kinds = ∅ ∨ kind ∈ query.kinds) ∧ (∀ since ∈ query.since, since ≤ createdAt) ∧
    ∀ until_ ∈ query.until_, createdAt ≤ until_

/-- The terms have every exact query token, and one that begins with the prefix. -/
def HasTerms (exactTerms : List String) (pre : String) (terms : List String) : Prop :=
  (∀ term ∈ exactTerms, term ∈ terms) ∧ ∃ term ∈ terms, isPrefixMatch term pre = true

theorem rankDoc_eq_some {index : ScopeIndex} {query : TextSearchQuery} {doc : SearchDocumentKey}
    {candidate : Ranked} : rankDoc index query doc = some candidate ↔
      ∃ info, index.docMeta.lookup doc = some info ∧ Passes query info.1 info.2 ∧
        candidate = toLex (revCreatedAt info.2, doc) := by
  unfold rankDoc
  cases hinfo : index.docMeta.lookup doc with
  | none => simp
  | some info =>
    obtain ⟨kind, createdAt⟩ := info
    have hkinds : ¬ (query.kinds ≠ ∅ ∧ kind ∉ query.kinds) ↔
        query.kinds = ∅ ∨ kind ∈ query.kinds := by
      rw [not_and_or, not_not, not_not]
    have hsince : ¬ (query.since.any fun since => decide (createdAt < since)) = true ↔
        ∀ since ∈ query.since, since ≤ createdAt := by
      cases query.since <;> simp
    have huntil : ¬ (query.until_.any fun until_ => decide (until_ < createdAt)) = true ↔
        ∀ until_ ∈ query.until_, createdAt ≤ until_ := by
      cases query.until_ <;> simp
    simp only [Option.some.injEq, exists_eq_left', Passes, ← hkinds, ← hsince, ← huntil]
    split
    next h => simp [h]
    next h =>
      split
      next h' => simp [h']
      next h' =>
        split
        next h'' => simp [h'']
        next h'' => simp [h, h', h'', eq_comm]

theorem orderDocs_sorted (index : ScopeIndex) (docs : SortedSet SearchDocumentKey)
    (query : TextSearchQuery) : (orderDocs index docs query).Pairwise (· < ·) := by
  have hsorted : (orderDocs index docs query).Pairwise fun a b => decide (a ≤ b) = true :=
    List.pairwise_mergeSort (fun a b c hab hbc => decide_eq_true
      ((of_decide_eq_true hab).trans (of_decide_eq_true hbc))) (fun a b => by
        simpa using le_total a b) _
  have hnodup : (orderDocs index docs query).Nodup := by
    rw [orderDocs, (List.mergeSort_perm _ _).nodup_iff]
    refine List.Nodup.filterMap (fun doc doc' candidate h h' => ?_)
      (docs.sorted.imp fun hlt => hlt.ne)
    obtain ⟨info, -, -, rfl⟩ := rankDoc_eq_some.mp h
    obtain ⟨info', -, -, heq⟩ := rankDoc_eq_some.mp h'
    exact congrArg (fun candidate => (ofLex candidate).2) heq
  exact (hsorted.and hnodup).imp fun h => lt_of_le_of_ne (of_decide_eq_true h.1) h.2

theorem mem_orderDocs {index : ScopeIndex} {docs : SortedSet SearchDocumentKey}
    {query : TextSearchQuery} {candidate : Ranked} : candidate ∈ orderDocs index docs query ↔
      (ofLex candidate).2 ∈ docs ∧ ∃ info, index.docMeta.lookup (ofLex candidate).2 = some info ∧
        Passes query info.1 info.2 ∧ (ofLex candidate).1 = revCreatedAt info.2 := by
  rw [orderDocs, (List.mergeSort_perm _ _).mem_iff, List.mem_filterMap]
  constructor
  · rintro ⟨doc, hdoc, hrank⟩
    obtain ⟨info, hinfo, hpasses, rfl⟩ := rankDoc_eq_some.mp hrank
    exact ⟨hdoc, info, hinfo, hpasses, rfl⟩
  · rintro ⟨hdoc, info, hinfo, hpasses, hrank⟩
    refine ⟨_, hdoc, rankDoc_eq_some.mpr ⟨info, hinfo, hpasses, ?_⟩⟩
    rw [← hrank]
    rfl

section Candidates

variable {index : ScopeIndex} {content : Content} {exactTerms : List String} {pre : String}
  {query : TextSearchQuery}

/-- A candidate is a document whose record answers the query. -/
theorem record_of_candidate (hrep : Represents index content)
    (hranks : ∀ doc record, content doc = some record → record.rank = revCreatedAt record.info.2)
    {candidate : Ranked} (h : candidate ∈ (collectCandidates index exactTerms pre query).1) :
    ∃ record, content (ofLex candidate).2 = some record ∧
      Passes query record.info.1 record.info.2 ∧ HasTerms exactTerms pre record.terms ∧
      (ofLex candidate).1 = record.rank := by
  obtain ⟨hdoc, info, hinfo, hpasses, hrank⟩ := mem_orderDocs.mp h
  obtain ⟨hscan, hterms⟩ := mem_retainTerms.mp hdoc
  rw [hrep.info, Option.map_eq_some_iff] at hinfo
  obtain ⟨record, hrecord, rfl⟩ := hinfo
  refine ⟨record, hrecord, hpasses, ⟨fun term hterm => ?_, ?_⟩, hrank.trans (hranks _ _ hrecord).symm⟩
  · obtain ⟨set, hset, hposted⟩ := hterms term hterm
    rw [postedIn, hrep.info, hrecord, Option.map_some] at hposted
    obtain ⟨record', hrecord', hmem, -⟩ := (hrep.posted term _ _).mp
      ⟨set, hset, of_decide_eq_true hposted⟩
    rw [hrecord] at hrecord'
    cases hrecord'
    exact hmem
  · rcases scanDocs_subset _ _ _ _ hscan with hnone | ⟨rank, hposting⟩
    · exact absurd hnone (SortedSet.not_mem_empty _)
    · obtain ⟨term, hpre, hposted⟩ := mem_prefixPostings.mp hposting
      obtain ⟨record', hrecord', hmem, -⟩ := (hrep.posted term _ _).mp hposted
      rw [hrecord] at hrecord'
      cases hrecord'
      exact ⟨term, hmem, hpre⟩

/-- A scan within its budget finds every document whose record answers the query. -/
theorem candidate_of_record (hrep : Represents index content)
    (hranks : ∀ doc record, content doc = some record → record.rank = revCreatedAt record.info.2)
    (hall : (collectCandidates index exactTerms pre query).2 = false) {doc : SearchDocumentKey}
    {record : Record String (Nat × Nat)} (hrecord : content doc = some record)
    (hpasses : Passes query record.info.1 record.info.2)
    (hterms : HasTerms exactTerms pre record.terms) :
    toLex (record.rank, doc) ∈ (collectCandidates index exactTerms pre query).1 := by
  have hinfo : index.docMeta.lookup doc = some record.info := by
    rw [hrep.info, hrecord, Option.map_some]
  refine mem_orderDocs.mpr ⟨mem_retainTerms.mpr ⟨?_, fun term hterm => ?_⟩, record.info, hinfo,
    hpasses, hranks doc record hrecord⟩
  · obtain ⟨term, hterm, hpre⟩ := hterms.2
    refine scanDocs_complete _ _ _ _ hall (.inr ⟨record.rank, mem_prefixPostings.mpr ?_⟩)
    exact ⟨term, hpre, (hrep.posted term _ doc).mpr ⟨record, hrecord, hterm, rfl⟩⟩
  · obtain ⟨set, hset, hmem⟩ := (hrep.posted term record.rank doc).mpr
      ⟨record, hrecord, hterms.1 term hterm, rfl⟩
    refine ⟨set, hset, ?_⟩
    show postedIn index set doc = true
    rw [hranks doc record hrecord] at hmem
    rw [postedIn, hinfo]
    exact decide_eq_true hmem

end Candidates

/-- The stored row is in the scope, passes the filters and has the terms of the query. -/
def Answers (fts : FtsState) (query : TextSearchQuery) (row : StoredEvent) : Prop :=
  ∃ spec, fts.specs.lookup query.scope = some spec ∧ row.raw.kind ∈ spec.kinds ∧
    Passes query row.raw.kind row.raw.createdAt ∧
    ∃ pre, (splitQueryTerms fts.text query.query).2 = some pre ∧
      HasTerms (splitQueryTerms fts.text query.query).1 pre (docTokens fts.text spec row)

/-- The hit reports a stored event that answers the query. -/
def Reports (st : MemState) (query : TextSearchQuery) (hit : TextSearchHit) : Prop :=
  ∃ key row, st.events.lookup key = some row ∧ hexToBytes32 key = some hit.doc.bytes ∧
    Answers st.fts query row ∧
    hit = ⟨hit.doc, some hit.doc.bytes, row.raw.createdAt, 1⟩

def Newer (a b : TextSearchHit) : Prop :=
  b.createdAt < a.createdAt ∨ (b.createdAt = a.createdAt ∧ a.doc < b.doc)

/-- The visitor let the search go on after each of the hits. -/
def NeverStopped (visitor : List TextSearchHit → Bool) (hits : List TextSearchHit) : Prop :=
  ∀ given, given <+: hits → 0 < given.length → visitor given = false

theorem answers_iff {fts : FtsState} {query : TextSearchQuery} {row : StoredEvent} {pre : String}
    (hpre : (splitQueryTerms fts.text query.query).2 = some pre) :
    Answers fts query row ↔ ∃ record, filing fts query.scope row = some record ∧
      Passes query record.info.1 record.info.2 ∧
      HasTerms (splitQueryTerms fts.text query.query).1 pre record.terms := by
  constructor
  · rintro ⟨spec, hspec, hkind, hpasses, pre', hpre', hterms⟩
    rw [hpre] at hpre'
    cases hpre'
    obtain ⟨term, hterm, -⟩ := hterms.2
    exact ⟨_, filing_eq_some.mpr ⟨spec, hspec, hkind, List.ne_nil_of_mem hterm, rfl⟩, hpasses, hterms⟩
  · rintro ⟨record, hfiling, hpasses, hterms⟩
    obtain ⟨spec, hspec, hkind, -, rfl⟩ := filing_eq_some.mp hfiling
    exact ⟨spec, hspec, hkind, hpasses, pre, hpre, hterms⟩

theorem sub_revCreatedAt {createdAt : Nat} (h : createdAt ≤ u64Max) :
    u64Max - revCreatedAt createdAt = createdAt := Nat.sub_sub_self h

section Search

variable {st : MemState} {content : Nat → Content} (h : Filed st content) (htimed : Timed st)
  {query : TextSearchQuery} {index : ScopeIndex} {pre : String}
  (hindex : st.fts.indices.lookup query.scope = some index)
  (hpre : (splitQueryTerms st.fts.text query.query).2 = some pre)

include h htimed hindex hpre

theorem reports_of_candidate {candidate : Ranked}
    (hmem : candidate ∈ (collectCandidates index (splitQueryTerms st.fts.text query.query).1 pre
      query).1) : Reports st query (hitOf candidate) := by
  have hrep := h.represents query.scope
  rw [scopeIndex, hindex, Option.getD_some] at hrep
  obtain ⟨record, hrecord, hpasses, hterms, hrank⟩ :=
    record_of_candidate hrep (h.rank query.scope) hmem
  obtain ⟨key, row, hrow, hbytes, hfiling⟩ := h.backed query.scope _ record hrecord
  refine ⟨key, row, hrow, hbytes, (answers_iff hpre).mpr ⟨record, hfiling, hpasses, hterms⟩, ?_⟩
  obtain ⟨spec, -, -, -, rfl⟩ := filing_eq_some.mp hfiling
  rw [hitOf, hrank, sub_revCreatedAt (htimed key row hrow)]

theorem candidate_of_reports (hcomplete : Complete st content)
    (hall : (collectCandidates index (splitQueryTerms st.fts.text query.query).1 pre
      query).2 = false) {hit : TextSearchHit} (hreports : Reports st query hit) :
    hit ∈ (collectCandidates index (splitQueryTerms st.fts.text query.query).1 pre
      query).1.map hitOf := by
  have hrep := h.represents query.scope
  rw [scopeIndex, hindex, Option.getD_some] at hrep
  obtain ⟨key, row, hrow, hbytes, hanswers, hhit⟩ := hreports
  obtain ⟨record, hfiling, hpasses, hterms⟩ := (answers_iff hpre).mp hanswers
  have hcandidate := candidate_of_record hrep (h.rank query.scope) hall
    (hcomplete query.scope key row hit.doc record hrow hbytes hfiling) hpasses hterms
  refine List.mem_map.mpr ⟨_, hcandidate, ?_⟩
  obtain ⟨spec, -, -, -, rfl⟩ := filing_eq_some.mp hfiling
  rw [hhit, hitOf]
  simp only [ofLex_toLex, sub_revCreatedAt (htimed key row hrow)]

end Search

theorem newer_of_lt {a b : Ranked} (hlt : a < b) (hrank : (ofLex b).1 ≤ u64Max) :
    Newer (hitOf a) (hitOf b) := by
  rcases Prod.Lex.lt_iff.mp hlt with hlt | ⟨heq, hlt⟩
  · refine .inl ?_
    simp only [hitOf]
    omega
  · exact .inr ⟨by simp only [hitOf, heq], hlt⟩

theorem rank_le_of_candidate {index : ScopeIndex} {docs : SortedSet SearchDocumentKey}
    {query : TextSearchQuery} {candidate : Ranked} (h : candidate ∈ orderDocs index docs query) :
    (ofLex candidate).1 ≤ u64Max := by
  obtain ⟨-, info, -, -, hrank⟩ := mem_orderDocs.mp h
  rw [hrank]
  exact Nat.sub_le _ _

/-- What every search of a state may report, and what its postings refer to. -/
structure SearchSafe (st : MemState) : Prop where
  sound : ∀ query visitor, ∀ hit ∈ (textSearchVisit st query visitor).1, Reports st query hit
  newest_first : ∀ query visitor, (textSearchVisit st query visitor).1.Pairwise Newer
  limited : ∀ query visitor, (textSearchVisit st query visitor).1.length ≤ query.limit
  posted : ∀ scope term rank doc, Posted (scopeIndex st.fts scope).postings term rank doc →
    ∃ key, key ∈ st.events ∧ hexToBytes32 key = some doc.bytes

/-- A complete search that was not stopped reports all there is. -/
def SearchExact (st : MemState) : Prop :=
  ∀ query visitor, (textSearchVisit st query visitor).2 = .complete →
    NeverStopped visitor (textSearchVisit st query visitor).1 →
    ∀ hit, hit ∈ (textSearchVisit st query visitor).1 ↔ Reports st query hit

/-- A search visits nothing, or emits the candidates of its scope. -/
theorem textSearchVisit_cases (st : MemState) (query : TextSearchQuery)
    (visitor : List TextSearchHit → Bool) :
    (textSearchVisit st query visitor = ([], .unsupported)) ∨
    (textSearchVisit st query visitor = ([], .complete) ∧
      (splitQueryTerms st.fts.text query.query).2 = none) ∨
    ∃ index pre, st.fts.indices.lookup query.scope = some index ∧
      (splitQueryTerms st.fts.text query.query).2 = some pre ∧
      textSearchVisit st query visitor =
        emit query visitor (collectCandidates index (splitQueryTerms st.fts.text query.query).1 pre
          query).1 [] (collectCandidates index (splitQueryTerms st.fts.text query.query).1 pre
          query).2 := by
  unfold textSearchVisit
  cases hindex : st.fts.indices.lookup query.scope with
  | none => exact .inl rfl
  | some index =>
    dsimp only
    split
    next hnone => exact .inr (.inl ⟨rfl, by rw [hnone]⟩)
    next exactTerms pre hsome =>
      exact .inr (.inr ⟨index, pre, rfl, by rw [hsome], by rw [hsome]⟩)

section Store

variable {st : MemState} {content : Nat → Content} (h : Filed st content) (htimed : Timed st)
  (query : TextSearchQuery) (visitor : List TextSearchHit → Bool)

include h htimed

theorem reports_of_hit {hit : TextSearchHit} (hmem : hit ∈ (textSearchVisit st query visitor).1) :
    Reports st query hit := by
  rcases textSearchVisit_cases st query visitor with heq | ⟨heq, -⟩ | ⟨index, pre, hindex, hpre, heq⟩
  · rw [heq] at hmem
    cases hmem
  · rw [heq] at hmem
    cases hmem
  · obtain ⟨given, hgiven, hhits, -⟩ := emit_prefix query visitor (collectCandidates index
      (splitQueryTerms st.fts.text query.query).1 pre query).1 [] (collectCandidates index
      (splitQueryTerms st.fts.text query.query).1 pre query).2
    rw [heq, hhits, List.nil_append] at hmem
    obtain ⟨candidate, hcandidate, rfl⟩ := List.mem_map.mp hmem
    exact reports_of_candidate h htimed hindex hpre (hgiven.subset hcandidate)

theorem hit_of_reports (hcomplete : Complete st content)
    (hstatus : (textSearchVisit st query visitor).2 = .complete)
    (hnever : NeverStopped visitor (textSearchVisit st query visitor).1) {hit : TextSearchHit}
    (hreports : Reports st query hit) : hit ∈ (textSearchVisit st query visitor).1 := by
  rcases textSearchVisit_cases st query visitor with heq | ⟨-, hnone⟩ | ⟨index, pre, hindex, hpre, heq⟩
  · rw [heq] at hstatus
    cases hstatus
  · obtain ⟨key, row, -, -, ⟨spec, -, -, -, pre, hpre, -⟩, -⟩ := hreports
    rw [hnone] at hpre
    cases hpre
  · rw [heq] at hstatus hnever ⊢
    obtain ⟨hall, hbudget⟩ := emit_complete query visitor _ [] _ hstatus hnever
    rw [hall, List.nil_append]
    exact candidate_of_reports h htimed hindex hpre hcomplete hbudget hreports

end Store

theorem pairwise_newer (st : MemState) (query : TextSearchQuery)
    (visitor : List TextSearchHit → Bool) :
    (textSearchVisit st query visitor).1.Pairwise Newer ∧
      (textSearchVisit st query visitor).1.length ≤ query.limit := by
  rcases textSearchVisit_cases st query visitor with heq | ⟨heq, -⟩ | ⟨index, pre, -, -, heq⟩
  · rw [heq]
    exact ⟨.nil, Nat.zero_le _⟩
  · rw [heq]
    exact ⟨.nil, Nat.zero_le _⟩
  · obtain ⟨given, hgiven, hhits, hlen⟩ := emit_prefix query visitor (collectCandidates index
      (splitQueryTerms st.fts.text query.query).1 pre query).1 [] (collectCandidates index
      (splitQueryTerms st.fts.text query.query).1 pre query).2
    rw [heq, hhits, List.nil_append, List.length_map]
    refine ⟨?_, by simpa using hlen (Nat.zero_le _)⟩
    have hsorted := (orderDocs_sorted index _ query).sublist hgiven.sublist
    refine List.pairwise_map.mpr (hsorted.imp_of_mem fun _ hb hlt => newer_of_lt hlt ?_)
    exact rank_le_of_candidate (hgiven.subset hb)

theorem safe_of_filed {st : MemState} {content : Nat → Content} (h : Filed st content)
    (htimed : Timed st) : SearchSafe st where
  sound query visitor _ hmem := reports_of_hit h htimed query visitor hmem
  newest_first query visitor := (pairwise_newer st query visitor).1
  limited query visitor := (pairwise_newer st query visitor).2
  posted scope term rank doc hposted := by
    obtain ⟨key, row, hrow, hbytes, -⟩ := h.posted hposted
    exact ⟨key, (mem_iff_lookup _ _).mpr ⟨row, hrow⟩, hbytes⟩

theorem exact_of_searchable {st : MemState} (h : Searchable st) : SearchExact st := by
  obtain ⟨content, hfiled, hcomplete⟩ := h.filed
  intro query visitor hstatus hnever hit
  exact ⟨reports_of_hit hfiled h.timed query visitor,
    hit_of_reports hfiled h.timed query visitor hcomplete hstatus hnever⟩

/-- Searches report only what is stored and answers the query, and after runs that leave no row
unfiled all of it. -/
theorem search_correct (actions : List Action)
    (htimed : ∀ a ∈ arrivalsOf actions, a.event.createdAt ≤ u64Max) :
    SearchSafe (run act .new actions) ∧
      (Meets act Indexable .new actions → SearchExact (run act .new actions)) := by
  obtain ⟨content, hfiled⟩ := filed_reachable ⟨actions, rfl⟩
  exact ⟨safe_of_filed hfiled (timed_run htimed),
    fun hok => exact_of_searchable (searchable_run htimed hok)⟩

/-- A scope that indexes the content of the kinds. -/
def contentSpec (kinds : Finset Nat) : CompiledIndexSpec :=
  ⟨0, kinds, fun row => [("content", row.raw.content)]⟩

/-- An event of the kind that says `spam`. -/
def spam (kind : Nat) : RawEvent := { (arrivalOf '1' 'a' 10 kind []).event with content := "spam" }

/-- The scope of the kind is installed and the event stored. -/
def spamOf (kind : Nat) : List Action :=
  [.installSearchIndexSpecs ⟨id, Char.isAlphanum⟩ [contentSpec {kind}],
    .insert ⟨spam kind, "wss://relay.example", 1000⟩]

theorem timed_spamOf (kind : Nat) : ∀ a ∈ arrivalsOf (spamOf kind), a.event.createdAt ≤ u64Max := by
  intro a ha
  simp only [arrivalsOf, spamOf, List.filterMap_cons, List.filterMap_nil, List.mem_singleton] at ha
  rw [ha]
  show 10 ≤ u64Max
  decide

theorem search_correct_note : (spamOf 1).length = 2 ∧ SearchExact (run act .new (spamOf 1)) :=
  ⟨rfl, (search_correct (spamOf 1) (timed_spamOf 1)).2
    ⟨(fun _ _ _ h => by cases h),
      fun _ => ⟨fun key hkey => absurd hkey (AList.notMem_empty key), nofun⟩, trivial⟩⟩

def spamQuery : TextSearchQuery := ⟨0, "spam", ∅, none, none, 10, .newestFirst, ⟨10000, 1000⟩⟩

/-- The deletion is stored and says what is searched for, and a complete search misses it. -/
theorem spam_deletion_not_found : (∀ a ∈ arrivalsOf (spamOf 5), a.event.createdAt ≤ u64Max) ∧
    ¬ SearchExact (run act .new (spamOf 5)) := by
  refine ⟨timed_spamOf 5, fun h => ?_⟩
  have hrun : run act .new (spamOf 5) = accept (act .new (.installSearchIndexSpecs
      ⟨id, Char.isAlphanum⟩ [contentSpec {5}])) ⟨spam 5, "wss://relay.example", 1000⟩ := by
    rw [spamOf, run_cons, run_cons, run_nil, act_admitted]
    exact ⟨isStructurallyValid_arrivalOf (by decide) (by decide) 10 5 [], by decide, by decide⟩
  have hstatus : (textSearchVisit (run act .new (spamOf 5)) spamQuery fun _ => false).2 =
      .complete ∧
      (textSearchVisit (run act .new (spamOf 5)) spamQuery fun _ => false).1.length = 0 := by
    rw [hrun]
    decide +kernel
  have hrow : (run act .new (spamOf 5)).events.lookup (digitKey '1') = some ⟨spam 5, 1000⟩ := by
    rw [hrun]
    decide +kernel
  have hscope : ((run act .new (spamOf 5)).fts.specs.lookup 0).map (fun spec =>
      (spec.kinds, docTokens (run act .new (spamOf 5)).fts.text spec ⟨spam 5, 1000⟩)) =
        some ({5}, ["spam"]) := by
    rw [hrun]
    decide +kernel
  have hterms : splitQueryTerms (run act .new (spamOf 5)).fts.text spamQuery.query =
      ([], some "spam") := by
    rw [hrun]
    decide +kernel
  obtain ⟨spec, hspec, hfacts⟩ := Option.map_eq_some_iff.mp hscope
  obtain ⟨hkinds, htokens⟩ := Prod.mk.inj hfacts
  have hanswers : Answers (run act .new (spamOf 5)).fts spamQuery ⟨spam 5, 1000⟩ := by
    refine ⟨spec, hspec, ?_, ⟨.inl rfl, nofun, nofun⟩, "spam", by rw [hterms], ?_⟩
    · rw [hkinds]
      exact Finset.mem_singleton_self 5
    · rw [hterms, htokens]
      exact ⟨nofun, "spam", List.mem_singleton_self _, by decide +kernel⟩
  obtain ⟨bytes, hbytes⟩ := Option.isSome_iff_exists.mp
    (isSome_digitKey (by decide) : (hexToBytes32 (digitKey '1')).isSome = true)
  have hhit := (h spamQuery (fun _ => false) hstatus.1 (fun _ _ _ => rfl)
    ⟨⟨bytes⟩, some bytes, 10, 1⟩).mpr ⟨digitKey '1', _, hrow, hbytes, hanswers, rfl⟩
  rw [List.eq_nil_of_length_eq_zero hstatus.2] at hhit
  cases hhit

end StoreQuery
