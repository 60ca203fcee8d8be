import Mathlib.Algebra.Order.BigOperators.Group.List
import NostrMultiPlatform.QueryPaths

/-!
# Cache serves in chunks

Pending serves share the visits of a tick. A chunk visits the newest matches below
the cursor of a query, feeds those the cache has not, and lowers the cursor to the
last one. Every chunk makes progress, and every serve comes to its end.
-/
namespace ServeChunks

open CacheServe HashWalks QueryPaths StoreActions StoreEdits StoreState Tables

def queryUntil : StoreQuery → Option Nat
  | .authorKind _ _ _ until_ | .authorsKind _ _ _ until_ | .kindTime _ _ until_
  | .kindDtag _ _ _ until_ | .tags _ _ _ _ until_ => until_

def setUntil : StoreQuery → Option Nat → StoreQuery
  | .authorKind author kinds since _, until_ => .authorKind author kinds since until_
  | .authorsKind authors kinds since _, until_ => .authorsKind authors kinds since until_
  | .kindTime kinds since _, until_ => .kindTime kinds since until_
  | .kindDtag kind dTag since _, until_ => .kindDtag kind dTag since until_
  | .tags authors kinds tags since _, until_ => .tags authors kinds tags since until_

/-- The lower end of the window is at least the floor. -/
def raiseSince (floor : Nat) : StoreQuery → StoreQuery
  | .authorKind author kinds since until_ =>
    .authorKind author kinds (some (since.elim floor (max · floor))) until_
  | .authorsKind authors kinds since until_ =>
    .authorsKind authors kinds (some (since.elim floor (max · floor))) until_
  | .kindTime kinds since until_ => .kindTime kinds (some (since.elim floor (max · floor))) until_
  | .kindDtag kind dTag since until_ =>
    .kindDtag kind dTag (some (since.elim floor (max · floor))) until_
  | .tags authors kinds tags since until_ =>
    .tags authors kinds tags (some (since.elim floor (max · floor))) until_

@[simp] theorem queryUntil_setUntil (query : StoreQuery) (u : Option Nat) :
    queryUntil (setUntil query u) = u := by cases query <;> rfl

@[simp] theorem setUntil_setUntil (query : StoreQuery) (u v : Option Nat) :
    setUntil (setUntil query u) v = setUntil query v := by cases query <;> rfl

@[simp] theorem setUntil_queryUntil (query : StoreQuery) :
    setUntil query (queryUntil query) = query := by cases query <;> rfl

@[simp] theorem queryUntil_raiseSince (floor : Nat) (query : StoreQuery) :
    queryUntil (raiseSince floor query) = queryUntil query := by cases query <;> rfl

/-- The upper end of the window is one condition among others. -/
theorem storeMatches_setUntil (ev : StoredEvent) (query : StoreQuery) (u : Option Nat) :
    storeMatches ev (setUntil query u) =
      (storeMatches ev (setUntil query none) && u.all (ev.raw.createdAt ≤ ·)) := by
  cases query with
  | tags =>
    simp only [setUntil, storeMatches, eventMatchesTagQuery, inRange, Option.all_none, Bool.and_true]
    split
    · rfl
    split
    · rfl
    split
    · rfl
    · exact Bool.and_right_comm _ _ _
  | _ => simp [setUntil, storeMatches, inRange, Bool.and_assoc]

theorem createdAt_le_until {ev : StoredEvent} {query : StoreQuery} {u : Nat}
    (h : storeMatches ev query = true) (hu : queryUntil query = some u) : ev.raw.createdAt ≤ u := by
  rw [← setUntil_queryUntil query, hu, storeMatches_setUntil, Bool.and_eq_true, Option.all_some,
    decide_eq_true_eq] at h
  exact h.2

/-- An event of the read cache. -/
structure CachedEvent where
  id : String
  author : String
  kind : Nat
  createdAt : Nat
  tags : List (List String)
  content : String
  relayCount : Nat

structure PendingCacheServe where
  completionKey : Nat
  queries : List StoreQuery
  queryIdx : Nat
  remainingDepth : Nat
  timelineBound : Bool

/-- What a chunk started from, and how many events it visited. -/
structure Chunk where
  events : Table String CachedEvent
  pending : PendingCacheServe
  tickRemaining : Nat
  visited : Nat

/-- The part of the kernel that serves from the cache. The last field is history: the chunks. -/
structure Kernel where
  events : Table String CachedEvent
  timeline : List String
  timelineAuthors : Finset String
  visibleLimit : Nat
  pendingCacheServes : List PendingCacheServe
  servedInterestShapes : Finset Nat
  chunks : List Chunk

namespace Kernel

def timelineCacheLimit : Nat := 500

variable (k : Kernel)

def timelineCreatedAt (id : String) : Nat := (k.events.lookup id).elim 0 (·.createdAt)

def timelineIdPrecedes (left right : String) : Bool :=
  let a := k.timelineCreatedAt left
  let b := k.timelineCreatedAt right
  a > b || (a == b && left < right)

def insertTimelineIdSorted (id : String) : Kernel :=
  let timeline := k.timeline.erase id
  let insertAt := timeline.findIdx (k.timelineIdPrecedes id)
  { k with timeline := (timeline.insertIdx insertAt id).take timelineCacheLimit }

/-- An event read from the store enters the cache, and the timeline if its author is followed. -/
def feedServedEvent (ev : StoredEvent) : Kernel :=
  let cached := { k with
    events := k.events.insert ev.raw.id
      ⟨ev.raw.id, ev.raw.pubkey, ev.raw.kind, ev.raw.createdAt, ev.raw.tags, ev.raw.content, 0⟩ }
  if ev.raw.pubkey ∈ k.timelineAuthors then cached.insertTimelineIdSorted ev.raw.id else cached

/-- The time at the edge of a full window; the index wraps for a window of no events. -/
def windowFloor (pending : PendingCacheServe) : Option Nat :=
  if pending.timelineBound ∧ k.visibleLimit ≤ k.timeline.length ∧ k.visibleLimit ≠ 0 then
    (k.timeline[k.visibleLimit - 1]?.bind k.events.lookup).map (·.createdAt)
  else none

end Kernel

structure Collecting where
  visited : Nat
  lastVisitedCreatedAt : Option Nat
  collected : List StoredEvent

/-- Events of the cache are passed over; the visit stops when it has as many as it serves. -/
def collect (cache : Table String CachedEvent) (serveTarget : Nat) : Visitor Collecting :=
  fun c ev =>
    if ev.raw.id ∈ cache then (⟨c.visited + 1, some ev.raw.createdAt, c.collected⟩, false)
    else (⟨c.visited + 1, some ev.raw.createdAt, c.collected ++ [ev]⟩,
      decide (serveTarget ≤ c.collected.length + 1))

variable (o : WalkOrder StoredEvent) (k : Kernel) (pending : PendingCacheServe) (st : MemState)

def visitLimit (tickRemaining : Nat) : Nat :=
  min tickRemaining (max pending.remainingDepth 1)

def effectiveQuery (query : StoreQuery) : StoreQuery :=
  (k.windowFloor pending).elim query (raiseSince · query)

/-- The scan of a chunk. -/
def scanChunk (k : Kernel) (pending : PendingCacheServe) (query : StoreQuery) (tickRemaining : Nat)
    : Collecting :=
  QueryPaths.queryVisit o st (effectiveQuery k pending query) (visitLimit pending tickRemaining)
    (collect k.events pending.remainingDepth) ⟨0, none, []⟩

/-- What the scan leaves of the serve: the next query, or this one below its cursor. -/
def advance (query : StoreQuery) (limit : Nat) (c : Collecting) : PendingCacheServe :=
  let served := { pending with remainingDepth := pending.remainingDepth - c.collected.length }
  if c.visited < limit then { served with queryIdx := pending.queryIdx + 1 }
  else if c.collected = [] ∧ c.lastVisitedCreatedAt = queryUntil query then
    -- the cursor cannot descend
    { served with queryIdx := pending.queryIdx + 1 }
  else
    match c.lastVisitedCreatedAt with
    | some ts => { served with queries := pending.queries.set pending.queryIdx (setUntil query (some ts)) }
    | none => { served with queryIdx := pending.queryIdx + 1 }

/-- The oldest of the collected events is fed first. -/
def feedChunk (tickRemaining : Nat) (c : Collecting) : Kernel :=
  c.collected.reverse.foldl Kernel.feedServedEvent
    { k with chunks := k.chunks ++ [⟨k.events, pending, tickRemaining, c.visited⟩] }

/-- A visit that finds nothing costs one, too. -/
def tickAfter (tickRemaining visited : Nat) : Nat := tickRemaining - min (max visited 1) tickRemaining

/-- Chunk after chunk while there is a query, depth and budget; whether the serve is finished. -/
def serveChunk (o : WalkOrder StoredEvent) (st : MemState) (k : Kernel) (pending : PendingCacheServe)
    (tickRemaining : Nat) : Kernel × PendingCacheServe × Nat × Bool :=
  match pending.queries[pending.queryIdx]? with
  | none => (k, pending, tickRemaining, true)
  | some query =>
    if pending.remainingDepth = 0 then (k, pending, tickRemaining, true)
    else if tickRemaining = 0 then (k, pending, tickRemaining, false)
    else
      let c := scanChunk o st k pending query tickRemaining
      serveChunk o st (feedChunk k pending tickRemaining c)
        (advance pending query (visitLimit pending tickRemaining) c) (tickAfter tickRemaining c.visited)
  termination_by tickRemaining
  decreasing_by
    rw [tickAfter]
    omega

def markServed : Kernel :=
  { k with servedInterestShapes := insert pending.completionKey k.servedInterestShapes }

/-- The queue from its front, while there is budget; the front is put back if it is not finished. -/
def drainQueue (o : WalkOrder StoredEvent) (st : MemState) (k : Kernel) :
    List PendingCacheServe → Nat → Kernel
  | [], _ => { k with pendingCacheServes := [] }
  | pending :: rest, tickRemaining =>
    if tickRemaining = 0 then { k with pendingCacheServes := pending :: rest }
    else
      match serveChunk o st k pending tickRemaining with
      | (k', pending', tickRemaining', true) =>
        drainQueue o st (markServed k' pending') rest tickRemaining'
      | (k', pending', _, false) => { k' with pendingCacheServes := pending' :: rest }

/-- A step under a budget of its own. -/
def stepWithin (budget : Nat) (k : Kernel) : Kernel :=
  drainQueue o st k k.pendingCacheServes budget

/-- `usize` arithmetic. -/
def cacheServeTickBudget : Nat := max (k.visibleLimit * 2 % 2 ^ 64) 1

def runCacheServeStep (k : Kernel) : Kernel :=
  stepWithin o st (cacheServeTickBudget k) k

/-- A serve that is done or queued is not queued again. -/
def enqueueCacheServe : Kernel :=
  if pending.completionKey ∈ k.servedInterestShapes ∨
      pending.completionKey ∈ k.pendingCacheServes.map (·.completionKey) then k
  else { k with pendingCacheServes := k.pendingCacheServes ++ [pending] }

section Chunks

variable {o : WalkOrder StoredEvent} {st : MemState} {k : Kernel} {pending : PendingCacheServe}
  {query : StoreQuery} {tickRemaining : Nat}

/-- With room for all events a visit stops at none of them, or at the last. -/
theorem visitLoop_collect (cache : Table String CachedEvent) (serveTarget : Nat)
    (evs : List StoredEvent) (c : Collecting) (hroom : c.collected.length + evs.length ≤ serveTarget) :
    visitLoop (collect cache serveTarget) c evs =
      ⟨c.visited + evs.length, (evs.getLast?.map (·.raw.createdAt)).or c.lastVisitedCreatedAt,
        c.collected ++ evs.filter (·.raw.id ∉ cache)⟩ := by
  induction evs generalizing c with
  | nil => simp [visitLoop]
  | cons ev rest ih =>
    rw [List.length_cons] at hroom
    have hlast : ∀ last : Option Nat,
        (rest.getLast?.map (·.raw.createdAt)).or (some ev.raw.createdAt) =
          ((ev :: rest).getLast?.map (·.raw.createdAt)).or last := by
      intro last
      rw [List.getLast?_cons]
      cases rest.getLast? <;> rfl
    rw [visitLoop, collect]
    by_cases hcached : ev.raw.id ∈ cache
    · rw [if_pos hcached]
      dsimp only
      rw [if_neg Bool.false_ne_true, ih _ (by dsimp only; omega), List.filter_cons_of_neg (by simpa)]
      dsimp only
      rw [hlast c.lastVisitedCreatedAt, List.length_cons, Nat.add_assoc, Nat.add_comm 1]
    · rw [if_neg hcached]
      dsimp only
      rw [List.filter_cons_of_pos (by simpa)]
      split
      next hfull =>
        have hnone : rest = [] := List.eq_nil_of_length_eq_zero (by
          have := of_decide_eq_true hfull
          omega)
        subst hnone
        rfl
      next =>
        rw [ih _ (by dsimp only; rw [List.length_append, List.length_singleton]; omega)]
        dsimp only
        rw [hlast c.lastVisitedCreatedAt, List.length_cons, Nat.add_assoc, Nat.add_comm 1,
          List.append_assoc, List.singleton_append]

/-- The events a chunk visits. -/
def visitedEvents (o : WalkOrder StoredEvent) (st : MemState) (k : Kernel)
    (pending : PendingCacheServe) (query : StoreQuery) (tickRemaining : Nat) : List StoredEvent :=
  plainQuery o st (effectiveQuery k pending query) (visitLimit pending tickRemaining)

theorem length_visitedEvents : (visitedEvents o st k pending query tickRemaining).length ≤
    visitLimit pending tickRemaining := List.length_take_le _ _

theorem scanChunk_eq (h : Rooted st) (hdepth : pending.remainingDepth ≠ 0) :
    scanChunk o st k pending query tickRemaining =
      ⟨(visitedEvents o st k pending query tickRemaining).length,
        (visitedEvents o st k pending query tickRemaining).getLast?.map (·.raw.createdAt),
        (visitedEvents o st k pending query tickRemaining).filter (·.raw.id ∉ k.events)⟩ := by
  have hlength : (visitedEvents o st k pending query tickRemaining).length ≤
      visitLimit pending tickRemaining := length_visitedEvents
  rw [scanChunk, queryVisit_eq h, visitLoop_collect]
  · rw [Option.or_none, List.nil_append, Nat.zero_add]
    rfl
  · rw [List.length_nil, Nat.zero_add]
    refine hlength.trans ?_
    rw [visitLimit]
    omega

theorem createdAt_visited {ev : StoredEvent}
    (hev : ev ∈ visitedEvents o st k pending query tickRemaining) {u : Nat}
    (hu : queryUntil query = some u) : ev.raw.createdAt ≤ u := by
  have hmatch := (List.mem_filter.mp (List.mem_mergeSort.mp (List.mem_of_mem_take hev))).2
  refine createdAt_le_until hmatch ?_
  rw [effectiveQuery]
  cases k.windowFloor pending with
  | none => exact hu
  | some floor => exact (queryUntil_raiseSince floor query).trans hu

/-- How far a cursor can still descend in a store with nothing above the bound. -/
def room (bound : Nat) (u : Option Nat) : Nat := u.elim (bound + 1) (min · (bound + 1))

/-- What is left of a serve: the cursors of its queries and its depth. -/
def workLeft (bound : Nat) (pending : PendingCacheServe) : Nat :=
  ((pending.queries.drop pending.queryIdx).map fun q => room bound (queryUntil q) + 1).sum +
    pending.remainingDepth

/-- Every event is at the bound or below it. -/
def Bounded (bound : Nat) (o : WalkOrder StoredEvent) (st : MemState) : Prop :=
  ∀ ev ∈ storedEvents o st, ev.raw.createdAt ≤ bound

theorem exists_bound (o : WalkOrder StoredEvent) (st : MemState) : ∃ bound, Bounded bound o st := by
  refine ⟨((storedEvents o st).map (·.raw.createdAt)).sum, fun ev hev => ?_⟩
  exact List.le_sum_of_mem (List.mem_map_of_mem hev)

/-- A chunk ends a query, lowers its cursor or serves an event. -/
theorem workLeft_advance {bound : Nat} (hbound : Bounded bound o st) (h : Rooted st)
    (hquery : pending.queries[pending.queryIdx]? = some query)
    (hdepth : pending.remainingDepth ≠ 0) :
    workLeft bound (advance pending query (visitLimit pending tickRemaining)
      (scanChunk o st k pending query tickRemaining)) < workLeft bound pending := by
  obtain ⟨hidx, hget⟩ := List.getElem?_eq_some_iff.mp hquery
  have hdrop : pending.queries.drop pending.queryIdx =
      query :: pending.queries.drop (pending.queryIdx + 1) := by
    rw [← hget, List.drop_eq_getElem_cons hidx]
  have hnext : ∀ depth ≤ pending.remainingDepth, workLeft bound { pending with
      remainingDepth := depth, queryIdx := pending.queryIdx + 1 } < workLeft bound pending := by
    intro depth hle
    rw [workLeft, workLeft, hdrop, List.map_cons, List.sum_cons]
    dsimp only
    omega
  rw [scanChunk_eq h hdepth, advance]
  dsimp only
  generalize hevs : visitedEvents o st k pending query tickRemaining = evs
  split
  next => exact hnext _ (Nat.sub_le _ _)
  split
  next => exact hnext _ (Nat.sub_le _ _)
  next hmoves =>
  cases hlast : evs.getLast? with
  | none => exact hnext _ (Nat.sub_le _ _)
  | some ev =>
    have hev : ev ∈ visitedEvents o st k pending query tickRemaining :=
      hevs ▸ List.mem_of_getLast? hlast
    have hts : ev.raw.createdAt ≤ bound :=
      hbound ev (List.mem_filter.mp (List.mem_mergeSort.mp (List.mem_of_mem_take hev))).1
    rw [hlast, Option.map_some] at hmoves
    rw [Option.map_some, workLeft, workLeft, hdrop, List.map_cons, List.sum_cons]
    dsimp only
    rw [List.drop_set, if_neg (lt_irrefl _), Nat.sub_self, hdrop, List.set_cons_zero,
      List.map_cons, List.sum_cons, queryUntil_setUntil]
    have hroom : room bound (some ev.raw.createdAt) = ev.raw.createdAt := by
      show min _ _ = _
      omega
    cases hu : queryUntil query with
    | none =>
      have hfull : room bound none = bound + 1 := rfl
      omega
    | some u =>
      have hle := createdAt_visited hev hu
      have hold : room bound (some u) = min u (bound + 1) := rfl
      by_cases hsame : ev.raw.createdAt = u
      · have hserved : evs.filter (·.raw.id ∉ k.events) ≠ [] := fun hnone =>
          hmoves ⟨hnone, by rw [hu, hsame]⟩
        have hpos := List.length_pos_iff.mpr hserved
        omega
      · omega

end Chunks

section Serves

variable {o : WalkOrder StoredEvent} {st : MemState}

theorem feed_keeps (k : Kernel) (ev : StoredEvent) :
    (k.feedServedEvent ev).chunks = k.chunks ∧
      (k.feedServedEvent ev).servedInterestShapes = k.servedInterestShapes ∧
      (k.feedServedEvent ev).visibleLimit = k.visibleLimit := by
  rw [Kernel.feedServedEvent]
  split <;> exact ⟨rfl, rfl, rfl⟩

theorem feedChunk_keeps (k : Kernel) (pending : PendingCacheServe) (tickRemaining : Nat)
    (c : Collecting) :
    (feedChunk k pending tickRemaining c).chunks =
        k.chunks ++ [⟨k.events, pending, tickRemaining, c.visited⟩] ∧
      (feedChunk k pending tickRemaining c).servedInterestShapes = k.servedInterestShapes ∧
      (feedChunk k pending tickRemaining c).visibleLimit = k.visibleLimit := by
  have hfold : ∀ (evs : List StoredEvent) (k : Kernel),
      (evs.foldl Kernel.feedServedEvent k).chunks = k.chunks ∧
        (evs.foldl Kernel.feedServedEvent k).servedInterestShapes = k.servedInterestShapes ∧
        (evs.foldl Kernel.feedServedEvent k).visibleLimit = k.visibleLimit := by
    intro evs
    induction evs with
    | nil => exact fun k => ⟨rfl, rfl, rfl⟩
    | cons ev _ ih =>
      intro k
      obtain ⟨hchunks, hserved, hlimit⟩ := ih (k.feedServedEvent ev)
      obtain ⟨hchunks', hserved', hlimit'⟩ := feed_keeps k ev
      exact ⟨hchunks.trans hchunks', hserved.trans hserved', hlimit.trans hlimit'⟩
  exact hfold _ _

@[simp] theorem advance_completionKey (pending : PendingCacheServe) (query : StoreQuery) (limit : Nat)
    (c : Collecting) : (advance pending query limit c).completionKey = pending.completionKey := by
  rw [advance]
  split
  · rfl
  split
  · rfl
  split <;> rfl

/-- The visits of chunks. -/
def visits (chunks : List Chunk) : Nat := (chunks.map (·.visited)).sum

/-- What serving a pending serve does: its chunks stay within the budget, and it is finished, or the
budget is used up and less work is left. -/
structure Served (bound : Nat) (k : Kernel) (pending : PendingCacheServe) (tickRemaining : Nat)
    (result : Kernel × PendingCacheServe × Nat × Bool) : Prop where
  chunks : ∃ new, result.1.chunks = k.chunks ++ new ∧ visits new + result.2.2.1 ≤ tickRemaining
  served : result.1.servedInterestShapes = k.servedInterestShapes
  limit : result.1.visibleLimit = k.visibleLimit
  key : result.2.1.completionKey = pending.completionKey
  work : workLeft bound result.2.1 ≤ workLeft bound pending
  less : result.2.2.2 = false → 0 < tickRemaining →
    workLeft bound result.2.1 < workLeft bound pending

theorem served_chunk {bound : Nat} (hbound : Bounded bound o st) (h : Rooted st) (k : Kernel)
    (pending : PendingCacheServe) (tickRemaining : Nat) :
    Served bound k pending tickRemaining (serveChunk o st k pending tickRemaining) := by
  have hstops : ∀ k pending tickRemaining done, (done = false → tickRemaining = 0) →
      Served bound k pending tickRemaining (k, pending, tickRemaining, done) :=
    fun k pending tickRemaining done hdone =>
      ⟨⟨[], (List.append_nil _).symm, (Nat.zero_add _).le⟩, rfl, rfl, rfl, Nat.le_refl _,
        fun hfalse hpos => absurd (hdone hfalse) hpos.ne'⟩
  induction tickRemaining using Nat.strong_induction_on generalizing k pending with
  | _ tickRemaining ih =>
  rw [serveChunk]
  cases hquery : pending.queries[pending.queryIdx]? with
  | none => exact hstops _ _ _ true nofun
  | some query =>
    dsimp only
    split
    next => exact hstops _ _ _ true nofun
    next hdepth =>
    split
    next hzero => exact hstops _ _ _ false fun _ => hzero
    next hpos =>
    have hless : workLeft bound (advance pending query (visitLimit pending tickRemaining)
        (scanChunk o st k pending query tickRemaining)) < workLeft bound pending :=
      workLeft_advance hbound h hquery hdepth
    have hvisited : (scanChunk o st k pending query tickRemaining).visited ≤ tickRemaining := by
      rw [scanChunk_eq h hdepth]
      exact length_visitedEvents.trans (Nat.min_le_left _ _)
    generalize scanChunk o st k pending query tickRemaining = c at hless hvisited ⊢
    have hafter : c.visited + tickAfter tickRemaining c.visited ≤ tickRemaining ∧
        tickAfter tickRemaining c.visited < tickRemaining := by
      rw [tickAfter]
      omega
    obtain ⟨hchunks, hserved, hlimit⟩ := feedChunk_keeps k pending tickRemaining c
    obtain ⟨⟨new, hnew, hvisits⟩, hserved', hlimit', hkey, hwork, -⟩ := ih _ hafter.2
      (feedChunk k pending tickRemaining c) (advance pending query (visitLimit pending tickRemaining) c)
    refine ⟨⟨⟨k.events, pending, tickRemaining, c.visited⟩ :: new, ?_, ?_⟩, hserved'.trans hserved,
      hlimit'.trans hlimit, hkey.trans (advance_completionKey ..), hwork.trans hless.le,
      fun _ _ => hwork.trans_lt hless⟩
    · rw [hnew, hchunks, List.append_assoc, List.singleton_append]
    · have hsum : visits (⟨k.events, pending, tickRemaining, c.visited⟩ :: new) =
          c.visited + visits new := List.sum_cons
      omega

/-- The work of a queue; a serve that only has to be taken off counts, too. -/
def queueWork (bound : Nat) (queue : List PendingCacheServe) : Nat :=
  (queue.map fun pending => workLeft bound pending + 1).sum

/-- What draining a queue does. -/
structure Drained (bound : Nat) (k : Kernel) (queue : List PendingCacheServe) (tickRemaining : Nat)
    (k' : Kernel) : Prop where
  chunks : ∃ new, k'.chunks = k.chunks ++ new ∧ visits new ≤ tickRemaining
  served : k.servedInterestShapes ⊆ k'.servedInterestShapes
  limit : k'.visibleLimit = k.visibleLimit
  kept : ∀ pending ∈ queue, pending.completionKey ∈ k'.servedInterestShapes ∨
    ∃ pending' ∈ k'.pendingCacheServes, pending'.completionKey = pending.completionKey
  work : queueWork bound k'.pendingCacheServes ≤ queueWork bound queue
  less : 0 < tickRemaining → queue ≠ [] →
    queueWork bound k'.pendingCacheServes < queueWork bound queue

theorem drained_queue {bound : Nat} (hbound : Bounded bound o st) (h : Rooted st) (k : Kernel)
    (queue : List PendingCacheServe) (tickRemaining : Nat) :
    Drained bound k queue tickRemaining (drainQueue o st k queue tickRemaining) := by
  induction queue generalizing k tickRemaining with
  | nil =>
    exact ⟨⟨[], (List.append_nil _).symm, Nat.zero_le _⟩, Finset.Subset.refl _, rfl, nofun,
      Nat.le_refl _, fun _ hne => absurd rfl hne⟩
  | cons pending rest ih =>
    have hsum : ∀ p : PendingCacheServe, queueWork bound (p :: rest) =
        workLeft bound p + 1 + queueWork bound rest := fun p => List.sum_cons
    rw [drainQueue]
    split
    next hzero =>
      exact ⟨⟨[], (List.append_nil _).symm, Nat.zero_le _⟩, Finset.Subset.refl _, rfl,
        fun p hp => .inr ⟨p, hp, rfl⟩, Nat.le_refl _, fun hpos => absurd hzero hpos.ne'⟩
    next hpos =>
    have hserve := served_chunk hbound h k pending tickRemaining
    generalize serveChunk o st k pending tickRemaining = result at hserve ⊢
    obtain ⟨k', pending', left, done⟩ := result
    obtain ⟨⟨new, hnew, hvisits⟩, hserved, hlimit, hkey, hwork, hless⟩ := hserve
    dsimp only at hnew hvisits hserved hlimit hkey hwork hless
    cases done with
    | false =>
      dsimp only
      refine ⟨⟨new, hnew, by omega⟩, hserved ▸ Finset.Subset.refl _, hlimit, fun p hp => .inr ?_, ?_, ?_⟩
      · rcases List.mem_cons.mp hp with rfl | hrest
        · exact ⟨pending', List.mem_cons_self, hkey⟩
        · exact ⟨p, List.mem_cons_of_mem _ hrest, rfl⟩
      · show queueWork bound (pending' :: rest) ≤ _
        rw [hsum, hsum]
        omega
      · intro hbudget _
        have hdown := hless rfl hbudget
        show queueWork bound (pending' :: rest) < _
        rw [hsum, hsum]
        omega
    | true =>
      dsimp only
      obtain ⟨⟨later, hlater, hrest⟩, hserved', hlimit', hkept, hwork', -⟩ :=
        ih (markServed k' pending') left
      refine ⟨⟨new ++ later, ?_, ?_⟩, ?_, hlimit'.trans hlimit, fun p hp => ?_, ?_, fun _ _ => ?_⟩
      · rw [hlater, ← List.append_assoc, ← hnew]
        rfl
      · have happend : visits (new ++ later) = visits new + visits later := by
          rw [visits, List.map_append, List.sum_append]
          rfl
        omega
      · exact hserved ▸ (Finset.subset_insert _ _).trans hserved'
      · rcases List.mem_cons.mp hp with rfl | hin
        · exact .inl (hserved' (hkey ▸ Finset.mem_insert_self _ _))
        · exact hkept p hin
      · rw [hsum]
        omega
      · rw [hsum]
        omega

end Serves

/-- On an unchanged store a step visits no more events than its budget, and after some steps every
serve of the queue is done. -/
theorem serves_finish (actions : List Action) (o : WalkOrder StoredEvent) (k : Kernel) :
    (∀ k : Kernel, ∃ new,
      (runCacheServeStep o (Runs.run act .new actions) k).chunks = k.chunks ++ new ∧
        visits new ≤ cacheServeTickBudget k) ∧
    ∃ n, ((runCacheServeStep o (Runs.run act .new actions))^[n] k).pendingCacheServes = [] ∧
      ∀ pending ∈ k.pendingCacheServes, pending.completionKey ∈
        ((runCacheServeStep o (Runs.run act .new actions))^[n] k).servedInterestShapes := by
  have hroot : Rooted (Runs.run act .new actions) := Reachable.rooted ⟨actions, rfl⟩
  generalize Runs.run act .new actions = st at hroot ⊢
  obtain ⟨bound, hbound⟩ := exists_bound o st
  have hstep : ∀ k : Kernel, Drained bound k k.pendingCacheServes (cacheServeTickBudget k)
      (runCacheServeStep o st k) := fun k => drained_queue hbound hroot k _ _
  have hgrows : ∀ (n : Nat) (k : Kernel),
      k.servedInterestShapes ⊆ ((runCacheServeStep o st)^[n] k).servedInterestShapes := by
    intro n
    induction n with
    | zero => exact fun k => Finset.Subset.refl _
    | succ n ih => exact fun k => (hstep k).served.trans (ih _)
  refine ⟨fun k => (hstep k).chunks, ?_⟩
  -- every step on a queue that is not empty leaves less work
  generalize hwork : queueWork bound k.pendingCacheServes = work
  induction work using Nat.strong_induction_on generalizing k with
  | _ work ih =>
  by_cases hqueue : k.pendingCacheServes = []
  · exact ⟨0, hqueue, fun p hp => by simp [hqueue] at hp⟩
  · have hpos : 0 < cacheServeTickBudget k := Nat.le_max_right _ _
    obtain ⟨n, hdone, hall⟩ := ih _ (hwork ▸ (hstep k).less hpos hqueue) (runCacheServeStep o st k) rfl
    refine ⟨n + 1, hdone, fun p hp => ?_⟩
    rcases (hstep k).kept p hp with hserved | ⟨p', hp', hkey⟩
    · exact hgrows n _ hserved
    · exact hkey ▸ hall p' hp'

end ServeChunks
