import NostrMultiPlatform.PlannerShape
import NostrMultiPlatform.StoreLog

/-!
# Paging through the log by scope

A pull reads a bounded part of the log and keeps the rows that match its scope.
The cursor it returns is the end of what was read, or the last row visited where
the page filled up first, so that paging from cursor to cursor misses nothing.
-/
namespace StorePull

open PlannerShape (InterestShape NaddrCoord)
open StoreEvent StoreState StoreActions StoreLog RetainedLog Sorted Tables

/-- Author and kind sets are lists; a `d` value is the text its bytes spell. -/
inductive StoreQuery where
  | authorKind (author : PubKey) (kinds : List Nat) (since until_ : Option Nat)
  | authorsKind (authors : List PubKey) (kinds : List Nat) (since until_ : Option Nat)
  | kindTime (kinds : List Nat) (since until_ : Option Nat)
  | kindDtag (kind : Nat) (dTag : String) (since until_ : Option Nat)
  | tags (authors : List PubKey) (kinds : List Nat) (tags : SortedMap Char (SortedSet String))
    (since until_ : Option Nat)

structure StoreQueryPlan where
  queries : List StoreQuery
  timelineBound : Bool

inductive UnsupportedShapeReason where
  | wildcardKinds
  | searchShape
  | eventIds
  | invalidTagKey
  | emptyTagValues
  | addressesWithTags
  | authorHexDecodeFailure
  deriving DecidableEq, Repr

/-- The tag map under single letters. -/
def compileTags : List (String × SortedSet String) → SortedMap Char (SortedSet String) →
    Except UnsupportedShapeReason (SortedMap Char (SortedSet String))
  | [], tags => .ok tags
  | (tagKey, values) :: rest, tags =>
    if values = ∅ then .error .emptyTagValues
    else
      match tagKey.toList with
      | [c] =>
        if c.isAlpha then compileTags rest (tags.alter c fun old => old.getD ∅ ∪ values)
        else .error .invalidTagKey
      | _ => .error .invalidTagKey

variable (raw : RawEvent) (shape : InterestShape)

def compileTagShape : Except UnsupportedShapeReason StoreQueryPlan :=
  if shape.addresses ≠ ∅ then .error .addressesWithTags
  else
    match compileTags shape.tags.rows ∅ with
    | .error reason => .error reason
    | .ok tags =>
      let authors := shape.authors.elems.filterMap hexToBytes32
      if shape.authors ≠ ∅ ∧ authors = [] then .error .authorHexDecodeFailure
      else .ok
        { queries := [.tags authors shape.kinds.elems tags shape.since shape.until_]
          timelineBound := decide (shape.authors ≠ ∅) }

def compileAuthorShape : Except UnsupportedShapeReason StoreQueryPlan :=
  match shape.authors.elems.filterMap hexToBytes32 with
  | [] => .error .authorHexDecodeFailure
  | [author] =>
    .ok ⟨[.authorKind author shape.kinds.elems shape.since shape.until_], true⟩
  | authors =>
    .ok ⟨[.authorsKind authors shape.kinds.elems shape.since shape.until_], true⟩

def compileStoreQueryPlan : Except UnsupportedShapeReason StoreQueryPlan :=
  if shape.search.isSome then .error .searchShape
  else if shape.eventIds ≠ ∅ then .error .eventIds
  else if shape.tags.rows ≠ [] then compileTagShape shape
  else if shape.kinds = ∅ then .error .wildcardKinds
  else if shape.addresses ≠ ∅ then .ok
    { queries := shape.addresses.elems.map fun coord =>
        .kindDtag coord.kind coord.dTag shape.since shape.until_
      timelineBound := decide (shape.authors ≠ ∅) }
  else if shape.authors = ∅ then
    .ok ⟨[.kindTime shape.kinds.elems shape.since shape.until_], false⟩
  else compileAuthorShape shape

def inRange (since until_ : Option Nat) : Bool :=
  since.all (· ≤ raw.createdAt) && until_.all (raw.createdAt ≤ ·)

/-- Some row of the letter carries one of the values. -/
def tagRowMatches (letter : Char) (values : SortedSet String) : Bool :=
  raw.tags.any fun row => row[0]? = some letter.toString && row[1]?.any (· ∈ values)

def rawMatchesStoreQuery : StoreQuery → Bool
  | .authorKind author kinds since until_ =>
    raw.pubkey == bytesToHex author && kinds.contains raw.kind && inRange raw since until_
  | .authorsKind authors kinds since until_ =>
    authors.any (fun a => bytesToHex a == raw.pubkey) && kinds.contains raw.kind &&
      inRange raw since until_
  | .kindTime kinds since until_ =>
    (kinds.isEmpty || kinds.contains raw.kind) && inRange raw since until_
  | .kindDtag kind dTag since until_ =>
    raw.kind == kind && raw.dTag.any (· == dTag) && inRange raw since until_
  | .tags authors kinds tags since until_ =>
    if tags.rows = [] ∨ tags.rows.any (fun row => row.2 = ∅) then false
    else if authors ≠ [] ∧ ¬ authors.any (fun a => bytesToHex a == raw.pubkey) then false
    else if kinds ≠ [] ∧ ¬ kinds.contains raw.kind then false
    else inRange raw since until_ && tags.rows.all fun row => tagRowMatches raw row.1 row.2

/-- A `d` query does not name the author; the address it came from does. -/
def pubkeyGuardForAddress (coord : NaddrCoord) : Bool :=
  raw.pubkey == coord.pubkey && raw.kind == coord.kind

def rawMatchesShape (queries : List StoreQuery) (shape : InterestShape) : Bool :=
  queries.any fun query =>
    rawMatchesStoreQuery raw query &&
      match query with
      | .kindDtag kind dTag _ _ =>
        shape.addresses = ∅ || shape.addresses.elems.any fun coord =>
          coord.kind == kind && coord.dTag == dTag && pubkeyGuardForAddress raw coord
      | _ => true

def localPublish : RelayUrl := "local://publish"

/-- Relays that are on record for the event now. -/
def provenanceFor (st : MemState) (raw : RawEvent) : List RelayUrl :=
  match raw.idBytes with
  | some id => (sourcesOf st (bytesToHex id)).map (·.relayUrl)
  | none => []

def relayPinMatches (st : MemState) (shape : InterestShape) (sourceRelay : Option RelayUrl)
    (raw : RawEvent) : Bool :=
  match shape.relayPin with
  | none => true
  | some pin =>
    sourceRelay == some pin || sourceRelay == some localPublish ||
      (provenanceFor st raw).any fun url => url == pin || url == localPublish

abbrev CompiledShapes := List (InterestShape × List StoreQuery)

def entryMatchesAnyShape (st : MemState) (entry : StoreLogEntry) (raw : RawEvent)
    (compiled : CompiledShapes) : Bool :=
  compiled.any fun c =>
    rawMatchesShape raw c.2 c.1 && relayPinMatches st c.1 entry.sourceRelay raw

inductive PullScope where
  | globalLog
  | interestShape (shape : InterestShape)
  | interestShapes (shapes : List InterestShape)

/-- Both limits are positive. -/
structure PullLimits where
  maxEntries : Nat
  maxScanEntries : Nat
  entries_pos : 0 < maxEntries
  scan_pos : 0 < maxScanEntries

inductive PullError where
  | unsupportedInterestShape
  deriving DecidableEq, Repr

def compileShapes : List InterestShape → Except PullError CompiledShapes
  | [] => .ok []
  | shape :: rest =>
    match compileStoreQueryPlan shape with
    | .error _ => .error .unsupportedInterestShape
    | .ok plan =>
      if plan.queries = [] then .error .unsupportedInterestShape
      else (compileShapes rest).map fun compiled => (shape, plan.queries) :: compiled

def compileShapeSet (shapes : List InterestShape) : Except PullError CompiledShapes :=
  match compileShapes shapes with
  | .ok [] => .error .unsupportedInterestShape
  | result => result

/-- The rows collected, the last one visited, and whether the page was full before the end. -/
def visitRows (st : MemState) (compiled : CompiledShapes) (maxEntries : Nat) :
    List StoreLogEntry → List StoreLogEntry → Option Nat → List StoreLogEntry × Option Nat × Bool
  | [], collected, lastVisited => (collected, lastVisited, false)
  | entry :: rest, collected, _ =>
    match entry.op, entry.rawEvent with
    | .deleted _ _, _ => visitRows st compiled maxEntries rest collected (some entry.seq)
    | _, none => visitRows st compiled maxEntries rest collected (some entry.seq)
    | _, some raw =>
      if entryMatchesAnyShape st entry raw compiled then
        if maxEntries ≤ (collected ++ [entry]).length then
          (collected ++ [entry], some entry.seq, true)
        else visitRows st compiled maxEntries rest (collected ++ [entry]) (some entry.seq)
      else visitRows st compiled maxEntries rest collected (some entry.seq)

def filterPage (st : MemState) (page : PullPage) (compiled : CompiledShapes) (maxEntries : Nat) :
    PullPage :=
  let (collected, lastVisited, stoppedEarly) :=
    visitRows st compiled maxEntries page.entries [] none
  let nextAfterSeq :=
    if stoppedEarly then lastVisited.getD page.nextAfterSeq else page.nextAfterSeq
  ⟨collected, nextAfterSeq, page.latestSeq, decide (nextAfterSeq < page.latestSeq)⟩

def pullShapesPage (st : MemState) (shapes : List InterestShape) (afterSeq : Nat)
    (limits : PullLimits) : Except PullError ScanLogResult :=
  match compileShapeSet shapes with
  | .error e => .error e
  | .ok compiled =>
    match scanLogSinceSeq st afterSeq limits.maxScanEntries with
    | .gap gap => .ok (.gap gap)
    | .page page => .ok (.page (filterPage st page compiled limits.maxEntries))

def pullPageOver (st : MemState) (scope : PullScope) (afterSeq : Nat) (limits : PullLimits) :
    Except PullError ScanLogResult :=
  match scope with
  | .globalLog => .ok (scanLogSinceSeq st afterSeq limits.maxEntries)
  | .interestShape shape => pullShapesPage st [shape] afterSeq limits
  | .interestShapes shapes => pullShapesPage st shapes afterSeq limits

/-- Page from cursor to cursor while there is more; nothing where a call fails or fuel runs out. -/
def pullAll (st : MemState) (scope : PullScope) (limits : PullLimits) :
    Nat → Nat → Option (List StoreLogEntry)
  | 0, _ => none
  | fuel + 1, cursor =>
    match pullPageOver st scope cursor limits with
    | .ok (.page page) =>
      if page.hasMore then
        (pullAll st scope limits fuel page.nextAfterSeq).map fun later => page.entries ++ later
      else some page.entries
    | _ => none

/-- Some shape compiles to queries that the event matches, and its relay pin is met. -/
def ShapeMatches (st : MemState) (shapes : List InterestShape) (e : StoreLogEntry)
    (raw : RawEvent) : Prop :=
  ∃ shape ∈ shapes, ∃ plan, compileStoreQueryPlan shape = .ok plan ∧
    rawMatchesShape raw plan.queries shape = true ∧
    relayPinMatches st shape e.sourceRelay raw = true

/-- The rows of shapes are the insertions and replacements that match one of them. -/
def ShapeRow (st : MemState) (shapes : List InterestShape) (e : StoreLogEntry) : Prop :=
  (∀ target reason, e.op ≠ .deleted target reason) ∧
    ∃ raw, e.rawEvent = some raw ∧ ShapeMatches st shapes e raw

def InScope (st : MemState) (scope : PullScope) (e : StoreLogEntry) : Prop :=
  match scope with
  | .globalLog => True
  | .interestShape shape => ShapeRow st [shape] e
  | .interestShapes shapes => ShapeRow st shapes e

/-- The scope is one that a pull takes. -/
def Supported : PullScope → Prop
  | .globalLog => True
  | .interestShape shape => ∃ compiled, compileShapeSet [shape] = .ok compiled
  | .interestShapes shapes => ∃ compiled, compileShapeSet shapes = .ok compiled

variable {compiled : CompiledShapes} {shapes : List InterestShape} {st : MemState}
  {history : List StoreLogEntry} {after : Nat} {scope : PullScope}

theorem mem_compileShapes (h : compileShapes shapes = .ok compiled) (shape : InterestShape)
    (queries : List StoreQuery) :
    (shape, queries) ∈ compiled ↔ shape ∈ shapes ∧
      ∃ plan, compileStoreQueryPlan shape = .ok plan ∧ plan.queries = queries := by
  induction shapes generalizing compiled with
  | nil =>
    cases h
    simp
  | cons first rest ih =>
    rw [compileShapes] at h
    cases hplan : compileStoreQueryPlan first with
    | error =>
      rw [hplan] at h
      cases h
    | ok plan =>
      rw [hplan] at h
      dsimp only at h
      split at h
      · cases h
      · cases hrest : compileShapes rest with
        | error =>
          rw [hrest] at h
          cases h
        | ok =>
          rw [hrest] at h
          cases h
          rw [List.mem_cons, ih hrest, List.mem_cons]
          constructor
          · rintro (heq | ⟨hmem, hqueries⟩)
            · cases heq
              exact ⟨.inl rfl, plan, hplan, rfl⟩
            · exact ⟨.inr hmem, hqueries⟩
          · rintro ⟨rfl | hmem, plan', hplan', rfl⟩
            · rw [hplan] at hplan'
              cases hplan'
              exact .inl rfl
            · exact .inr ⟨hmem, plan', hplan', rfl⟩

theorem compileShapes_of_set (h : compileShapeSet shapes = .ok compiled) :
    compileShapes shapes = .ok compiled := by
  unfold compileShapeSet at h
  split at h
  · cases h
  · exact h

theorem entryMatches_iff (h : compileShapeSet shapes = .ok compiled) (e : StoreLogEntry)
    (raw : RawEvent) :
    entryMatchesAnyShape st e raw compiled = true ↔ ShapeMatches st shapes e raw := by
  rw [entryMatchesAnyShape, List.any_eq_true]
  simp only [Bool.and_eq_true]
  constructor
  · rintro ⟨⟨shape, queries⟩, hmem, hraw, hpin⟩
    obtain ⟨hshape, plan, hplan, rfl⟩ := (mem_compileShapes (compileShapes_of_set h) _ _).mp hmem
    exact ⟨shape, hshape, plan, hplan, hraw, hpin⟩
  · rintro ⟨shape, hshape, plan, hplan, hraw, hpin⟩
    exact ⟨(shape, plan.queries), (mem_compileShapes (compileShapes_of_set h) _ _).mpr
      ⟨hshape, plan, hplan, rfl⟩, hraw, hpin⟩

/-- The row is positive and matches. -/
def yields (st : MemState) (compiled : CompiledShapes) (e : StoreLogEntry) : Bool :=
  match e.op, e.rawEvent with
  | .deleted _ _, _ => false
  | _, none => false
  | _, some raw => entryMatchesAnyShape st e raw compiled

theorem yields_iff (h : compileShapeSet shapes = .ok compiled) (e : StoreLogEntry) :
    yields st compiled e = true ↔ ShapeRow st shapes e := by
  unfold yields ShapeRow
  cases hop : e.op with
  | deleted => simp
  | inserted | replaced =>
    cases hraw : e.rawEvent with
    | none => simp
    | some => simp [entryMatches_iff h]

theorem visitRows_cons (st : MemState) (compiled : CompiledShapes) (maxEntries : Nat)
    (entry : StoreLogEntry) (rest collected : List StoreLogEntry) (last : Option Nat) :
    visitRows st compiled maxEntries (entry :: rest) collected last =
      if yields st compiled entry then
        if maxEntries ≤ collected.length + 1 then (collected ++ [entry], some entry.seq, true)
        else visitRows st compiled maxEntries rest (collected ++ [entry]) (some entry.seq)
      else visitRows st compiled maxEntries rest collected (some entry.seq) := by
  rw [visitRows, yields]
  cases entry.op <;> cases entry.rawEvent <;> simp

/-- What a visit did: it collected the matching rows of a first part of the page, all of the page
unless it stopped, and it stops at a row only. -/
structure Visited (st : MemState) (compiled : CompiledShapes) (entries collected : List StoreLogEntry)
    (result : List StoreLogEntry × Option Nat × Bool) (seen rest : List StoreLogEntry) : Prop where
  parts : entries = seen ++ rest
  rows : result.1 = collected ++ seen.filter (yields st compiled)
  stopped : result.2.2 = true → seen ≠ [] ∧ result.2.1 = seen.getLast?.map (·.seq)
  finished : result.2.2 = false → rest = []

theorem Visited.cons {entries collected collected' seen rest : List StoreLogEntry}
    {entry : StoreLogEntry} {result : List StoreLogEntry × Option Nat × Bool}
    (h : Visited st compiled entries collected' result seen rest)
    (hcollected : collected' = collected ++ [entry].filter (yields st compiled)) :
    Visited st compiled (entry :: entries) collected result (entry :: seen) rest where
  parts := by rw [h.parts, List.cons_append]
  rows := by
    rw [h.rows, hcollected, List.append_assoc, ← List.filter_append, List.singleton_append]
  stopped hstop := by
    obtain ⟨hne, hlast⟩ := h.stopped hstop
    refine ⟨List.cons_ne_nil entry seen, ?_⟩
    rw [hlast, List.getLast?_cons]
    cases hseen : seen.getLast? with
    | none => exact absurd (List.getLast?_eq_none_iff.mp hseen) hne
    | some => rfl
  finished := h.finished

theorem visitRows_spec (st : MemState) (compiled : CompiledShapes) (maxEntries : Nat)
    (entries collected : List StoreLogEntry) (last : Option Nat) :
    ∃ seen rest, Visited st compiled entries collected
      (visitRows st compiled maxEntries entries collected last) seen rest := by
  induction entries generalizing collected last with
  | nil => exact ⟨[], [], rfl, by simp [visitRows], (fun h => by cases h), fun _ => rfl⟩
  | cons entry entries ih =>
    rw [visitRows_cons]
    split
    next hyields =>
      have hone : [entry].filter (yields st compiled) = [entry] := by
        rw [List.filter_cons_of_pos hyields, List.filter_nil]
      split
      · exact ⟨[entry], entries, rfl, by rw [hone], fun _ => ⟨by simp, rfl⟩, fun h => by cases h⟩
      · obtain ⟨seen, rest, hvisited⟩ := ih (collected ++ [entry]) (some entry.seq)
        exact ⟨entry :: seen, rest, hvisited.cons (by rw [hone])⟩
    next hskips =>
      obtain ⟨seen, rest, hvisited⟩ := ih collected (some entry.seq)
      refine ⟨entry :: seen, rest, hvisited.cons ?_⟩
      rw [List.filter_cons_of_neg hskips, List.filter_nil, List.append_nil]

theorem take_segment {lo hi k : Nat} :
    (segment history lo hi).take k = segment history lo (min hi (lo + k)) := by
  rw [RetainedLog.segment, RetainedLog.segment, List.take_drop, List.take_take, Nat.min_comm]

/-- A page from a cursor: the rows of the scope in the segment it moved over. -/
structure Pulled (history : List StoreLogEntry) (st : MemState) (scope : PullScope) (after : Nat)
    (page : PullPage) : Prop where
  le : after ≤ page.nextAfterSeq
  bound : page.nextAfterSeq ≤ max after st.ingestSeq
  advances : after < st.ingestSeq → after < page.nextAfterSeq
  rows : page.entries.Sublist (segment history after page.nextAfterSeq)
  mem : ∀ e, e ∈ page.entries ↔
    e ∈ segment history after page.nextAfterSeq ∧ InScope st scope e
  more : page.hasMore = decide (page.nextAfterSeq < st.ingestSeq)

section

variable (h : LogWindow history st)
include h

/-- A scan, also from the last cursor there is. -/
theorem scan_pulled (hseq : st.ingestSeq ≤ StoreText.u64Max) (hfloor : st.logGcFloor ≤ after)
    (limit : Nat) :
    scanLogSinceSeq st after limit =
      .page ⟨segment history after (max after (min st.ingestSeq (after + limit))),
        max after (min st.ingestSeq (after + limit)), st.ingestSeq,
        decide (max after (min st.ingestSeq (after + limit)) < st.ingestSeq)⟩ := by
  by_cases hmax : after = StoreText.u64Max
  · have hnext : max after (min st.ingestSeq (after + limit)) = after := by omega
    rw [hnext, segment_self, scanLogSinceSeq, if_neg (by omega), if_pos hmax,
      decide_eq_false (by omega)]
  · exact scan_page h hfloor hmax limit

/-- Where the visit of a segment stopped is the number of its last row. -/
theorem stop_eq {after next : Nat} (hle : after ≤ next) (hbound : next ≤ max after st.ingestSeq)
    {seen rest : List StoreLogEntry} (hparts : segment history after next = seen ++ rest)
    (hne : seen ≠ []) :
    ∃ stop, seen.getLast?.map (·.seq) = some stop ∧ after < stop ∧ stop ≤ next ∧
      seen = segment history after stop := by
  have hafter : after < next := by
    by_contra hnot
    have hsame : next = after := by omega
    rw [hsame, segment_self] at hparts
    exact hne (List.append_eq_nil_iff.mp hparts.symm).1
  have hhead := h.head_le
  have hseen : seen = segment history after (min next (after + seen.length)) := by
    rw [← take_segment, hparts, List.take_left]
  have hpos : 0 < seen.length := List.length_pos_iff.mpr hne
  have hstop : after ≤ min next (after + seen.length) := by omega
  have hlast := last_segment h.numbered hstop (by omega)
  rw [← hseen] at hlast
  obtain ⟨e, he⟩ := Option.ne_none_iff_exists'.mp (mt List.getLast?_eq_none_iff.mp hne)
  rw [he] at hlast
  refine ⟨min next (after + seen.length), ?_, by omega, by omega, hseen⟩
  rw [he, ← hlast]
  rfl

theorem pulled_filterPage (hcompiled : compileShapeSet shapes = .ok compiled)
    (hscope : ∀ e, InScope st scope e ↔ ShapeRow st shapes e) {after next : Nat}
    (hle : after ≤ next) (hbound : next ≤ max after st.ingestSeq)
    (hadvances : after < st.ingestSeq → after < next) (limits : PullLimits) :
    Pulled history st scope after (filterPage st
      ⟨segment history after next, next, st.ingestSeq, decide (next < st.ingestSeq)⟩ compiled
      limits.maxEntries) := by
  obtain ⟨seen, rest, hparts, hrows, hstopped, hfinished⟩ := visitRows_spec st compiled
    limits.maxEntries (segment history after next) [] none
  unfold filterPage
  generalize visitRows st compiled limits.maxEntries (segment history after next) [] none = result
    at hrows hstopped hfinished
  obtain ⟨collected, lastVisited, stoppedEarly⟩ := result
  rw [List.nil_append] at hrows
  dsimp only at hrows hstopped hfinished ⊢
  -- wherever the visit ended, it saw the segment up to there
  have hend : ∃ stop, (if stoppedEarly = true then lastVisited.getD next else next) = stop ∧
      after ≤ stop ∧ stop ≤ next ∧ (after < st.ingestSeq → after < stop) ∧
      seen = segment history after stop := by
    cases stoppedEarly with
    | true =>
      obtain ⟨hne, hlast⟩ := hstopped rfl
      obtain ⟨stop, hstop, hlo, hhi, hseen⟩ := stop_eq h hle hbound hparts hne
      exact ⟨stop, by rw [hlast, hstop]; rfl, hlo.le, hhi, fun _ => hlo, hseen⟩
    | false =>
      refine ⟨next, rfl, hle, Nat.le_refl _, hadvances, ?_⟩
      rw [hparts, hfinished rfl, List.append_nil]
  obtain ⟨stop, hstop, hlo, hhi, hmore, hseen⟩ := hend
  rw [hstop]
  refine ⟨hlo, hhi.trans hbound, hmore, ?_, fun e => ?_, rfl⟩
  · rw [← hseen, hrows]
    exact List.filter_sublist
  · rw [← hseen, hrows, List.mem_filter, yields_iff hcompiled, hscope]

theorem pulled_shapes (hseq : st.ingestSeq ≤ StoreText.u64Max)
    (hcompiled : compileShapeSet shapes = .ok compiled)
    (hscope : ∀ e, InScope st scope e ↔ ShapeRow st shapes e) (hfloor : st.logGcFloor ≤ after)
    (limits : PullLimits) :
    ∃ page, pullShapesPage st shapes after limits = .ok (.page page) ∧
      Pulled history st scope after page := by
  have hscan := limits.scan_pos
  unfold pullShapesPage
  rw [hcompiled, scan_pulled h hseq hfloor]
  exact ⟨_, rfl, pulled_filterPage h hcompiled hscope (Nat.le_max_left _ _) (by omega)
    (fun _ => by omega) limits⟩

/-- Every call from a cursor without gap returns a page. -/
theorem pulled_page (hseq : st.ingestSeq ≤ StoreText.u64Max) (hscope : Supported scope)
    (hfloor : st.logGcFloor ≤ after) (limits : PullLimits) :
    ∃ page, pullPageOver st scope after limits = .ok (.page page) ∧
      Pulled history st scope after page := by
  cases scope with
  | globalLog =>
    have hentries := limits.entries_pos
    rw [pullPageOver, scan_pulled h hseq hfloor]
    refine ⟨_, rfl, Nat.le_max_left _ _, by simp only; omega, fun _ => by simp only; omega,
      List.Sublist.refl _, fun e => ?_, rfl⟩
    exact (and_iff_left trivial).symm
  | interestShape | interestShapes =>
    obtain ⟨compiled, hcompiled⟩ := hscope
    exact pulled_shapes h hseq hcompiled (fun _ => Iff.rfl) hfloor limits

end

/-- What was drained from a cursor on: the rows of the scope above it, in order. -/
structure Drained (history : List StoreLogEntry) (st : MemState) (scope : PullScope) (start : Nat)
    (rows : List StoreLogEntry) : Prop where
  sublist : rows.Sublist (segment history start (max start st.ingestSeq))
  mem : ∀ e, e ∈ rows ↔ e ∈ segment history start (max start st.ingestSeq) ∧ InScope st scope e

theorem drained (h : LogWindow history st) (hseq : st.ingestSeq ≤ StoreText.u64Max)
    (hscope : Supported scope) (limits : PullLimits) {fuel start : Nat}
    (hfloor : st.logGcFloor ≤ start) (hfuel : st.ingestSeq - start < fuel) :
    ∃ rows, pullAll st scope limits fuel start = some rows ∧ Drained history st scope start rows := by
  induction fuel generalizing start with
  | zero => omega
  | succ _ ih =>
    obtain ⟨page, hpage, hpulled⟩ := pulled_page h hseq hscope hfloor limits
    have hle := hpulled.le
    have hbound := hpulled.bound
    rw [pullAll, hpage]
    dsimp only
    split
    next hmore =>
      rw [hpulled.more, decide_eq_true_eq] at hmore
      have hadvances := hpulled.advances (by omega)
      have hnextFloor : st.logGcFloor ≤ page.nextAfterSeq := by omega
      obtain ⟨later, hlater, hdrained⟩ := ih hnextFloor (by omega)
      rw [hlater]
      refine ⟨_, rfl, ?_⟩
      have hjoin : segment history start (max start st.ingestSeq) =
          segment history start page.nextAfterSeq ++
            segment history page.nextAfterSeq (max page.nextAfterSeq st.ingestSeq) := by
        rw [segment_append hle (Nat.le_max_left _ _)]
        congr 1
        omega
      refine ⟨?_, fun e => ?_⟩
      · rw [hjoin]
        exact hpulled.rows.append hdrained.sublist
      · rw [hjoin, List.mem_append, List.mem_append, hpulled.mem, hdrained.mem, or_and_right]
    next hdone =>
      rw [hpulled.more, decide_eq_true_eq] at hdone
      have hend : page.nextAfterSeq = max start st.ingestSeq := by omega
      exact ⟨_, rfl, hend ▸ hpulled.rows, hend ▸ hpulled.mem⟩

theorem segment_above (h : LogWindow history st) {start : Nat} (hfloor : st.logGcFloor ≤ start) :
    segment history start (max start st.ingestSeq) =
      st.ingestLog.filter fun e => start < e.seq := by
  rw [Window.above h hfloor]
  by_cases hle : start ≤ st.ingestSeq
  · rw [Nat.max_eq_right hle]
  · rw [Nat.max_eq_left (by omega), segment_self, RetainedLog.segment, List.drop_eq_nil_of_le]
    rw [List.length_take]
    omega

/-- Over the log of any reachable store, from a start without gap: every call returns a page and
moves the cursor on where it reports more, and paging until there is no more delivers the rows of
the scope above the start, each once and in order. -/
theorem pull_drains {st : MemState} (h : Reachable st) (hseq : st.ingestSeq ≤ StoreText.u64Max)
    {scope : PullScope} (hscope : Supported scope) (limits : PullLimits) {start : Nat}
    (hgap : st.logGcFloor ≤ start) :
    (∀ cursor, start ≤ cursor → ∃ page, pullPageOver st scope cursor limits = .ok (.page page) ∧
      (page.hasMore = true → cursor < page.nextAfterSeq)) ∧
    ∀ fuel, st.ingestSeq - start < fuel → ∃ rows, pullAll st scope limits fuel start = some rows ∧
      rows.Pairwise (fun a b => a.seq < b.seq) ∧
      ∀ e, e ∈ rows ↔ e ∈ st.ingestLog ∧ start < e.seq ∧ InScope st scope e := by
  obtain ⟨history, hwindow, -⟩ := exists_history h
  constructor
  · intro cursor hcursor
    obtain ⟨page, hpage, hpulled⟩ := pulled_page hwindow hseq hscope (by omega : _ ≤ cursor) limits
    refine ⟨page, hpage, fun hmore => hpulled.advances ?_⟩
    have hle := hpulled.le
    rw [hpulled.more, decide_eq_true_eq] at hmore
    omega
  · intro fuel hfuel
    obtain ⟨rows, hrows, hsub, hmem⟩ := drained hwindow hseq hscope limits hgap hfuel
    rw [segment_above hwindow hgap] at hsub hmem
    refine ⟨rows, hrows, ?_, fun e => ?_⟩
    · exact (Window.increasing hwindow).sublist (hsub.trans List.filter_sublist)
    · rw [hmem, List.mem_filter, decide_eq_true_eq, and_assoc]

/-- Two notes of different kinds, paged one row at a time for the second kind. -/
def twoKinds : List Action :=
  [.insert (StoreStep.arrivalOf '1' 'a' 10 1 []), .insert (StoreStep.arrivalOf '2' 'a' 20 7 [])]

def reactions : PullScope :=
  .interestShape { InterestShape.default with kinds := SortedSet.ofList [7] }

theorem twoKinds_counters : (Runs.run act .new twoKinds).ingestSeq = 2 ∧
    (Runs.run act .new twoKinds).logGcFloor = 0 := by
  rw [twoKinds, Runs.run_cons, Runs.run_cons, Runs.run_nil,
    act_admitted (StoreStep.admitted_arrivalOf (by decide) (by decide) (by decide)),
    act_admitted (StoreStep.admitted_arrivalOf (by decide) (by decide) (by decide))]
  decide +kernel

theorem pull_drains_two_kinds : (Runs.run act .new twoKinds).ingestSeq = 2 ∧
    ∃ rows, pullAll (Runs.run act .new twoKinds) reactions ⟨1, 1, by decide, by decide⟩ 3 0 =
        some rows ∧
      rows.Pairwise (fun a b => a.seq < b.seq) ∧
      ∀ e, e ∈ rows ↔ e ∈ (Runs.run act .new twoKinds).ingestLog ∧ 0 < e.seq ∧
        InScope (Runs.run act .new twoKinds) reactions e := by
  obtain ⟨hseq, hfloor⟩ := twoKinds_counters
  have hscope : Supported reactions := ⟨_, rfl⟩
  refine ⟨hseq, (pull_drains ⟨twoKinds, rfl⟩ ?_ hscope _ (Nat.le_of_eq hfloor)).2 3 ?_⟩
  · rw [hseq]
    decide
  · rw [hseq]
    decide

end StorePull
