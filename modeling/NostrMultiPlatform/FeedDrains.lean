import NostrMultiPlatform.FeedPull
import NostrMultiPlatform.Stretches

/-!
# Drains of the log

Each drain covers the next stretch of the log, whatever load makes it, and asks
for one page only. It evicts what its rows replaced, then applies their events.
-/
namespace FeedDrains

open PlannerShape (InterestShape)
open ThreadGrouper (KernelEvent)
open StoreState StoreActions StoreLog StorePull RetainedLog Stretches FeedPull

def shapesMatch (st : MemState) (shapes : List InterestShape) (e : StoreLogEntry) : Bool :=
  match compileShapeSet shapes with
  | .ok compiled => yields st compiled e
  | .error _ => false

/-- The row is one that pulls in the scope bring. -/
def matching (st : MemState) (scope : PullScope) (e : StoreLogEntry) : Bool :=
  match scope with
  | .globalLog => true
  | .interestShape shape => shapesMatch st [shape] e
  | .interestShapes shapes => shapesMatch st shapes e

theorem shapesMatch_iff (st : MemState) (shapes : List InterestShape) (e : StoreLogEntry) :
    shapesMatch st shapes e = true ↔
      (∃ compiled, compileShapeSet shapes = .ok compiled) ∧ ShapeRow st shapes e := by
  unfold shapesMatch
  cases hset : compileShapeSet shapes with
  | ok compiled =>
    rw [yields_iff hset]
    exact ⟨fun hrow => ⟨⟨compiled, rfl⟩, hrow⟩, fun h => h.2⟩
  | error =>
    refine iff_of_false Bool.false_ne_true fun h => ?_
    obtain ⟨compiled, hcompiled⟩ := h.1
    cases hcompiled

theorem matching_iff (st : MemState) (scope : PullScope) (e : StoreLogEntry) :
    matching st scope e = true ↔ Supported scope ∧ InScope st scope e := by
  cases scope with
  | globalLog => exact iff_of_true rfl ⟨trivial, trivial⟩
  | interestShape shape => exact shapesMatch_iff st [shape] e
  | interestShapes shapes => exact shapesMatch_iff st shapes e

/-- The scope of a provider stands for a list of shapes. -/
structure ShapeScope (scope : PullScope) (shapes : List InterestShape) : Prop where
  pull : ∀ st after limits, pullPageOver st scope after limits = pullShapesPage st shapes after limits
  matching : ∀ st, matching st scope = shapesMatch st shapes

theorem exists_shapes {provider : PullProvider} {scope : PullScope}
    (h : provider.pullScope = some scope) : ∃ shapes, ShapeScope scope shapes := by
  have hone : ∀ shape, ShapeScope (.interestShape shape) [shape] := fun shape =>
    ⟨fun _ _ _ => rfl, fun _ => rfl⟩
  cases provider with
  | one =>
    obtain ⟨shape', -, rfl⟩ := Option.map_eq_some_iff.mp h
    exact ⟨_, hone shape'⟩
  | many =>
    rw [PullProvider.pullScope] at h
    split at h
    · cases h
    · cases h
      exact ⟨_, hone _⟩
    · cases h
      exact ⟨_, fun _ _ _ => rfl, fun _ => rfl⟩

/-- A visit of rows within the budget sees their first stretch. -/
theorem visitRows_stretch (st : MemState) (compiled : CompiledShapes) (maxEntries : Nat)
    (entries collected : List StoreLogEntry) (last : Option Nat) {budget : Nat}
    (hbudget : entries.length ≤ budget) (hroom : collected.length < maxEntries) :
    ∃ seen rest, Visited st compiled entries collected
        (visitRows st compiled maxEntries entries collected last) seen rest ∧
      seen.length = stretch (yields st compiled) (maxEntries - collected.length) budget entries := by
  induction entries generalizing collected last budget with
  | nil => exact ⟨[], [], ⟨rfl, by simp [visitRows], (fun h => by cases h), fun _ => rfl⟩, rfl⟩
  | cons entry entries ih =>
    rw [List.length_cons] at hbudget
    -- with no budget left there are no rows left either
    have hlast : budget ≤ 1 → entries = [] := fun h => List.eq_nil_of_length_eq_zero (by omega)
    have hbudget' : entries.length ≤ budget - 1 := by omega
    rw [visitRows_cons, stretch]
    by_cases hyields : yields st compiled entry = true
    · have hone : [entry].filter (yields st compiled) = [entry] := by
        rw [List.filter_cons_of_pos hyields, List.filter_nil]
      have hafter : roomAfter (yields st compiled) (maxEntries - collected.length) entry =
          maxEntries - (collected ++ [entry]).length := by
        rw [roomAfter, if_pos hyields, List.length_append, List.length_singleton]
        omega
      rw [if_pos hyields, hafter]
      by_cases hfull : maxEntries ≤ collected.length + 1
      · rw [if_pos hfull, if_pos (.inl (by rw [List.length_append, List.length_singleton]; omega))]
        exact ⟨[entry], entries,
          ⟨rfl, by rw [hone], fun _ => ⟨by simp, rfl⟩, fun h => by cases h⟩, rfl⟩
      · have hroom' : (collected ++ [entry]).length < maxEntries := by
          rw [List.length_append, List.length_singleton]
          omega
        rw [if_neg hfull]
        obtain ⟨seen, rest, hvisited, hlength⟩ :=
          ih (collected ++ [entry]) (some entry.seq) hbudget' hroom'
        refine ⟨entry :: seen, rest, hvisited.cons (by rw [hone]), ?_⟩
        rw [List.length_cons, hlength]
        split
        next hstop =>
          obtain hzero | hused := hstop
          · omega
          · rw [hlast hused, stretch]
        next hgoes => rfl
    · have hafter : roomAfter (yields st compiled) (maxEntries - collected.length) entry =
          maxEntries - collected.length := by rw [roomAfter, if_neg hyields]
      rw [if_neg hyields, hafter]
      obtain ⟨seen, rest, hvisited, hlength⟩ :=
        ih collected (some entry.seq) hbudget' hroom
      refine ⟨entry :: seen, rest, hvisited.cons ?_, ?_⟩
      · rw [List.filter_cons_of_neg hyields, List.filter_nil, List.append_nil]
      · rw [List.length_cons, hlength]
        split
        next hstop =>
          obtain hzero | hused := hstop
          · omega
          · rw [hlast hused, stretch]
        next hgoes => rfl

/-- A log from which nothing was trimmed is its own history. -/
theorem whole_log {st : MemState} (h : Reachable st) (hgap : st.logGcFloor = 0) :
    LogWindow st.ingestLog st := by
  obtain ⟨history, hwindow, -⟩ := exists_history h
  have hkept : st.ingestLog = history.take st.ingestSeq := by
    rw [hwindow.kept_eq, hgap, RetainedLog.segment, List.drop_zero]
  have hlength : st.ingestLog.length = st.ingestSeq := by rw [hwindow.length, hgap, Nat.sub_zero]
  refine ⟨hwindow.numbered.of_extends ?_, hwindow.floor_le, hlength.ge, ?_⟩
  · rw [hkept]
    exact List.take_prefix _ _
  · rw [hgap, RetainedLog.segment, List.drop_zero, List.take_of_length_le hlength.le]

section Drains

variable {st : MemState} {scope : PullScope} {shapes : List InterestShape}

/-- Where the drain from a cursor ends. -/
def nextCursor (st : MemState) (scope : PullScope) (pageSize scanBudget after : Nat) : Nat :=
  after + stretch (matching st scope) pageSize scanBudget (st.ingestLog.drop after)

/-- The rows of the scope between two cursors. -/
def matchingRows (st : MemState) (scope : PullScope) (lo hi : Nat) : List StoreLogEntry :=
  (segment st.ingestLog lo hi).filter (matching st scope)

/-- A page covers the next stretch of the log. -/
theorem feedPull_page (h : LogWindow st.ingestLog st) (hgap : st.logGcFloor = 0)
    (hseq : st.ingestSeq ≤ StoreText.u64Max) (hscope : ShapeScope scope shapes)
    (hsupported : ∃ compiled, compileShapeSet shapes = .ok compiled) {after : Nat}
    (hafter : after ≤ st.ingestSeq) (limits : PullLimits) :
    ∃ next, next = nextCursor st scope limits.maxEntries limits.maxScanEntries after ∧
      feedPullFn st scope after limits =
        .page ⟨matchingRows st scope after next, next, st.ingestSeq,
          decide (next < st.ingestSeq)⟩ := by
  obtain ⟨compiled, hcompiled⟩ := hsupported
  have hlength : st.ingestLog.length = st.ingestSeq := by rw [h.length, hgap, Nat.sub_zero]
  have hyields : matching st scope = yields st compiled := by
    funext e
    rw [hscope.matching, shapesMatch, hcompiled]
  have hentries := limits.entries_pos
  have hscan := limits.scan_pos
  let bound := max after (min st.ingestSeq (after + limits.maxScanEntries))
  have hbound : bound = max after (min st.ingestSeq (after + limits.maxScanEntries)) := rfl
  have hrows : segment st.ingestLog after bound =
      (st.ingestLog.drop after).take limits.maxScanEntries := by
    rw [RetainedLog.segment, List.drop_take, List.take_eq_take_iff, List.length_drop]
    omega
  have hsize : (segment st.ingestLog after bound).length = bound - after :=
    length_segment (by omega)
  obtain ⟨seen, rest, hvisited, hseen⟩ := visitRows_stretch st compiled limits.maxEntries
    (segment st.ingestLog after bound) [] none
    (show (segment st.ingestLog after bound).length ≤ limits.maxScanEntries by omega) hentries
  rw [hrows, stretch_take _ hscan, List.length_nil, Nat.sub_zero, ← hyields] at hseen
  obtain ⟨hparts, hcollected, hstopped, hfinished⟩ := hvisited
  have hle : seen.length ≤ bound - after := by
    rw [← hsize, hparts, List.length_append]
    exact Nat.le_add_right _ _
  -- wherever the visit ended, it saw the segment up to there
  have hsegment : seen = segment st.ingestLog after (after + seen.length) := by
    have htake : (segment st.ingestLog after bound).take seen.length =
        segment st.ingestLog after (min bound (after + seen.length)) := take_segment
    rw [hparts, List.take_left, Nat.min_eq_right (by omega)] at htake
    exact htake
  refine ⟨after + seen.length, by rw [hseen, nextCursor], ?_⟩
  rw [feedPullFn, hscope.pull, pullShapesPage, hcompiled, scan_pulled h hseq (by omega)]
  unfold filterPage
  rw [← hbound]
  dsimp only
  generalize visitRows st compiled limits.maxEntries (segment st.ingestLog after bound) [] none =
    result at hcollected hstopped hfinished ⊢
  obtain ⟨collected, lastVisited, stoppedEarly⟩ := result
  dsimp only at hcollected hstopped hfinished ⊢
  have hnext : (if stoppedEarly = true then lastVisited.getD bound else bound) =
      after + seen.length := by
    cases stoppedEarly with
    | true =>
      obtain ⟨hne, hlast⟩ := hstopped rfl
      have hend := last_segment h.numbered (Nat.le_add_right after seen.length) (by omega)
      rw [← hsegment] at hend
      obtain ⟨e, he⟩ := Option.ne_none_iff_exists'.mp (mt List.getLast?_eq_none_iff.mp hne)
      rw [he, Option.map_some, Option.getD_some] at hend
      rw [if_pos rfl, hlast, he, Option.map_some, Option.getD_some, hend]
    | false =>
      rw [if_neg Bool.false_ne_true]
      rw [hfinished rfl, List.append_nil] at hparts
      rw [hparts] at hsize
      omega
  rw [hnext, hcollected, List.nil_append, matchingRows, ← hsegment, hyields]

/-- Rows of shapes are events. -/
theorem exists_event (hscope : ShapeScope scope shapes) {e : StoreLogEntry}
    (h : matching st scope e = true) :
    ∃ raw event, e.rawEvent = some raw ∧ rawToKernelEvent e = some event ∧ event.id = raw.id := by
  rw [hscope.matching] at h
  obtain ⟨-, hpositive, raw, hraw, -⟩ := (shapesMatch_iff st shapes e).mp h
  unfold rawToKernelEvent
  cases hop : e.op with
  | deleted target reason => exact absurd hop (hpositive target reason)
  | inserted | replaced => exact ⟨raw, _, hraw, by rw [hraw]; rfl, rfl⟩

/-- What a drain brings: the rows of the scope up to the next cursor. -/
structure Turn (st : MemState) (scope : PullScope) (after next : Nat) (outcome : DrainOutcome) :
    Prop where
  events : outcome.events = (matchingRows st scope after next).filterMap rawToKernelEvent
  replacedIds : outcome.replacedIds = (matchingRows st scope after next).filterMap replacedIdOf
  visited : outcome.visited = next - after
  filled : outcome.stop = .pageFilled → after < next
  exhausted : outcome.stop = .exhausted → next = st.ingestSeq

theorem drain_turn (h : LogWindow st.ingestLog st) (hgap : st.logGcFloor = 0)
    (hseq : st.ingestSeq ≤ StoreText.u64Max) (hscope : ShapeScope scope shapes)
    (hsupported : ∃ compiled, compileShapeSet shapes = .ok compiled) {pager : FeedPullPager}
    (hafter : pager.afterSeq ≤ st.ingestSeq) {fuel : Nat} (hfuel : 0 < fuel) :
    ∃ outcome next,
      next = nextCursor st scope pager.pageSize pager.scanBudget pager.afterSeq ∧
      pager.drain (feedPullFn st scope) fuel = some (outcome, { pager with afterSeq := next }) ∧
      Turn st scope pager.afterSeq next outcome := by
  obtain ⟨fuel, rfl⟩ : ∃ n, fuel = n + 1 := ⟨fuel - 1, by omega⟩
  have hlength : st.ingestLog.length = st.ingestSeq := by rw [h.length, hgap, Nat.sub_zero]
  have hpage := pager.page_pos
  have hbudget := pager.budget_pos
  let start : Draining := ⟨pager.afterSeq, [], [], 0⟩
  have hentries : (start.limits pager).maxEntries = pager.pageSize := by
    show max (pager.pageSize - 0) 1 = _
    omega
  have hscan : (start.limits pager).maxScanEntries = pager.scanBudget := by
    show max (pager.scanBudget - 0) 1 = _
    omega
  obtain ⟨next, hnext, hpull⟩ :=
    feedPull_page h hgap hseq hscope hsupported hafter (start.limits pager)
  rw [hentries, hscan] at hnext
  have hle : pager.afterSeq ≤ next := hnext ▸ Nat.le_add_right _ _
  let page : PullPage := ⟨matchingRows st scope pager.afterSeq next, next, st.ingestSeq,
    decide (next < st.ingestSeq)⟩
  have htake : start.take page = ⟨next, (matchingRows st scope pager.afterSeq next).filterMap
      rawToKernelEvent, (matchingRows st scope pager.afterSeq next).filterMap replacedIdOf,
      next - pager.afterSeq⟩ := by
    show Draining.mk (max next pager.afterSeq) ([] ++ _) ([] ++ _)
      (0 + (max next pager.afterSeq - pager.afterSeq)) = _
    rw [Nat.max_eq_left hle, List.nil_append, List.nil_append, Nat.zero_add]
  -- one page is enough: it fills the room, uses the budget or ends the log
  have hstop : ∃ stop, start.stopAfter pager page = some stop ∧
      (stop = .pageFilled → pager.afterSeq < next) ∧ (stop = .exhausted → next = st.ingestSeq) := by
    have hrest : (st.ingestLog.drop pager.afterSeq).length = st.ingestSeq - pager.afterSeq := by
      rw [List.length_drop, hlength]
    have hwithin := stretch_le_length (matching st scope) pager.pageSize pager.scanBudget
      (st.ingestLog.drop pager.afterSeq)
    rw [nextCursor] at hnext
    rw [Draining.stopAfter, htake]
    by_cases hmore : next < st.ingestSeq
    · have hpos : pager.afterSeq < next := by
        have hne : st.ingestLog.drop pager.afterSeq ≠ [] := by
          rw [← List.length_pos_iff, hrest]
          omega
        have := stretch_pos (matching st scope) pager.pageSize pager.scanBudget hne
        omega
      rw [if_neg (by simp [page, hmore])]
      by_cases hfull : pager.pageSize ≤
          ((matchingRows st scope pager.afterSeq next).filterMap rawToKernelEvent).length
      · exact ⟨_, if_pos hfull, fun _ => hpos, fun h => by cases h⟩
      · rw [if_neg hfull, if_neg fun h => absurd h.1 (Nat.not_le_of_lt hpos)]
        obtain hfilled | hused := stretch_ends hpage hbudget
          (show stretch (matching st scope) pager.pageSize pager.scanBudget
            (st.ingestLog.drop pager.afterSeq) < _ by omega)
        · refine absurd ?_ hfull
          rw [List.filterMap_length_eq_length.mpr, matchingRows, RetainedLog.segment, hnext, List.drop_take,
            Nat.add_sub_cancel_left, hfilled]
          intro e he
          obtain ⟨raw, event, -, hevent, -⟩ := exists_event hscope (List.mem_filter.mp he).2
          rw [hevent, Option.isSome_some]
        · refine ⟨_, if_pos ?_, (fun h => by cases h), fun h => by cases h⟩
          show pager.scanBudget ≤ next - pager.afterSeq
          omega
    · refine ⟨_, if_pos (by simp [page, hmore]), (fun h => by cases h), fun _ => ?_⟩
      omega
  obtain ⟨stop, hstop, hfilled, hexhausted⟩ := hstop
  refine ⟨⟨(start.take page).events, (start.take page).replacedIds, stop,
    (start.take page).scanned⟩, next, hnext, ?_, ?_⟩
  · rw [FeedPullPager.drain, drainLoop]
    rw [hpull]
    dsimp only
    rw [hstop, htake]
    rfl
  · rw [htake]
    exact ⟨rfl, rfl, rfl, hfilled, hexhausted⟩

end Drains

section Loads

variable {F : Type}

/-- Applying adds a source, replacing removes one, and a wider view changes none. -/
structure Keeps (hooks : Hooks F) (sources : F → Set String) : Prop where
  apply : ∀ event f, sources (hooks.apply event f).1 = insert event.id (sources f)
  replace : ∃ replace, hooks.replace = some replace ∧
    ∀ id f, sources (replace id f) = sources f \ {id}
  advance : ∀ f, sources (hooks.advance f) = sources f

def appliedBy : HookCall → Option KernelEvent
  | .apply event => some event
  | .replace _ | .advance => none

/-- The events applied to the feed, first to last. -/
def applied (s : Session F) : List KernelEvent := s.calls.filterMap appliedBy

theorem applied_append (s : Session F) (calls : List HookCall) (pager : FeedPullPager) (feed : F) :
    applied ⟨pager, feed, s.calls ++ calls⟩ = applied s ++ calls.filterMap appliedBy :=
  List.filterMap_append

variable {hooks : Hooks F} {sources : F → Set String}

/-- What evicting ids leaves of a session. -/
structure Evicted (sources : F → Set String) (s : Session F) (ids : List String) (s' : Session F) :
    Prop where
  pager : s'.pager = s.pager
  applied : applied s' = applied s
  sources : ∀ x, x ∈ sources s'.feed ↔ x ∈ sources s.feed ∧ x ∉ ids

theorem evicted (hkeeps : Keeps hooks sources) (s : Session F) (ids : List String) :
    Evicted sources s ids (ids.foldl (Session.runReplace hooks) s) := by
  induction ids generalizing s with
  | nil => exact ⟨rfl, rfl, fun x => by simp⟩
  | cons id _ ih =>
    obtain ⟨replace, hreplace, hremoves⟩ := hkeeps.replace
    have hone : s.runReplace hooks id =
        { s with feed := replace id s.feed, calls := s.calls ++ [.replace id] } := by
      rw [Session.runReplace, hreplace]
    obtain ⟨hpager, happlied, hsources⟩ := ih (s.runReplace hooks id)
    rw [List.foldl_cons]
    refine ⟨hpager.trans (by rw [hone]), happlied.trans ?_, fun x => ?_⟩
    · rw [hone, applied_append]
      exact List.append_nil _
    · rw [hsources, hone, hremoves, Set.mem_sdiff, Set.mem_singleton_iff, List.mem_cons, not_or,
        and_assoc]

/-- What applying events makes of a load. -/
structure Ingested (sources : F → Set String) (l : Loading F) (events : List KernelEvent)
    (l' : Loading F) : Prop where
  pager : l'.session.pager = l.session.pager
  applied : applied l'.session = applied l.session ++ events
  visited : l'.visited = l.visited
  sources : ∀ x, x ∈ sources l'.session.feed ↔
    x ∈ sources l.session.feed ∨ ∃ event ∈ events, event.id = x

theorem ingested (hkeeps : Keeps hooks sources) (l : Loading F) (events : List KernelEvent) :
    Ingested sources l events (events.foldl (Loading.ingest hooks) l) := by
  induction events generalizing l with
  | nil => exact ⟨rfl, (List.append_nil _).symm, rfl, fun x => by simp⟩
  | cons event _ ih =>
    obtain ⟨hpager, happlied, hvisited, hsources⟩ := ih (l.ingest hooks event)
    rw [List.foldl_cons]
    refine ⟨hpager, happlied.trans ?_, hvisited, fun x => ?_⟩
    · rw [Loading.ingest, Session.runApply, applied_append, List.append_assoc]
      rfl
    · rw [hsources]
      show x ∈ sources (hooks.apply event l.session.feed).1 ∨ _ ↔ _
      rw [hkeeps.apply, Set.mem_insert_iff, List.exists_mem_cons_iff, eq_comm, or_assoc,
        or_left_comm]

/-- What one drain makes of a load. -/
structure Performed (sources : F → Set String) (l : Loading F) (outcome : DrainOutcome)
    (pager : FeedPullPager) (l' : Loading F) : Prop where
  pager : l'.session.pager = pager
  applied : applied l'.session = applied l.session ++ outcome.events
  visited : l'.visited = l.visited + outcome.visited
  sources : ∀ x, x ∈ sources l'.session.feed ↔
    (x ∈ sources l.session.feed ∧ x ∉ outcome.replacedIds) ∨ ∃ event ∈ outcome.events, event.id = x

theorem performed (hkeeps : Keeps hooks sources) (l : Loading F) (outcome : DrainOutcome)
    (pager : FeedPullPager) :
    Performed sources l outcome pager (l.perform hooks outcome pager) := by
  have hevicted := evicted hkeeps { l.session with pager := pager } outcome.replacedIds
  have hingested := ingested hkeeps
    ⟨outcome.replacedIds.foldl (Session.runReplace hooks) { l.session with pager := pager },
      l.accepted, l.visited + outcome.visited, l.replaced || !outcome.replacedIds.isEmpty⟩
    outcome.events
  refine ⟨hingested.pager.trans hevicted.pager, hingested.applied.trans ?_, hingested.visited,
    fun x => ?_⟩
  · rw [hevicted.applied]
    rfl
  · exact (hingested.sources x).trans (or_congr_left (hevicted.sources x))

end Loads

end FeedDrains
