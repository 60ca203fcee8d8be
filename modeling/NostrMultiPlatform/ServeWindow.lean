import NostrMultiPlatform.CursorPages
import NostrMultiPlatform.ServeChunks

/-!
# The window of a chunked serve

A serve that is cut into chunks brings the newest events of its query into the cache,
unless a chunk of one visit is spent on the event at the cursor, which the chunk
before has served: such a chunk ends the query early.
-/
namespace ServeWindow

open CacheServe CursorPages HashWalks QueryPaths ServeChunks StoreActions StoreEdits Runs StoreState
  StoreStep Tables

def createdAt (ev : StoredEvent) : Nat := ev.raw.createdAt

/-- No two stored events are equally old. -/
def Dated (o : WalkOrder StoredEvent) (st : MemState) : Prop :=
  ∀ a ∈ storedEvents o st, ∀ b ∈ storedEvents o st, createdAt a = createdAt b → a = b

/-- All events that match, the newest first. -/
def rows (o : WalkOrder StoredEvent) (st : MemState) (query : StoreQuery) : List StoredEvent :=
  ((storedEvents o st).filter (storeMatches · query)).mergeSort visitLe

section Rows

variable {o : WalkOrder StoredEvent} {st : MemState} {query : StoreQuery}

theorem mem_rows {ev : StoredEvent} :
    ev ∈ rows o st query ↔ ev ∈ storedEvents o st ∧ storeMatches ev query = true := by
  rw [rows, List.mem_mergeSort, List.mem_filter]

theorem rows_descending (h : Rooted st) (hdated : Dated o st) :
    Descending createdAt (rows o st query) := by
  have hnodup : (rows o st query).Nodup :=
    (List.mergeSort_perm _ _).nodup_iff.mpr ((nodup_storedEvents h).filter _)
  have hsorted := List.pairwise_mergeSort visitLe_trans visitLe_total
    ((storedEvents o st).filter (storeMatches · query))
  refine (hsorted.and hnodup).imp_of_mem fun {a b} ha hb hab => ?_
  rcases visitLe_iff.mp hab.1 with hlt | ⟨heq, -⟩
  · exact hlt
  · exact absurd (hdated a (mem_rows.mp ha).1 b (mem_rows.mp hb).1 heq) hab.2

/-- Below a cursor the rows are those of the query at or below it. -/
theorem rows_setUntil (h : Rooted st) (u : Option Nat)
    (hu : ∀ t, queryUntil query = some t → ∃ t', u = some t' ∧ t' ≤ t) :
    rows o st (setUntil query u) =
      (rows o st query).filter fun ev => u.all (createdAt ev ≤ ·) := by
  have hsorted : ∀ evs : List StoredEvent, (evs.mergeSort visitLe).Pairwise (visitLe · ·) :=
    List.pairwise_mergeSort visitLe_trans visitLe_total
  have hmatch : ∀ ev, storeMatches ev (setUntil query u) =
      (storeMatches ev query && u.all (createdAt ev ≤ ·)) := by
    intro ev
    rw [← setUntil_queryUntil query, setUntil_setUntil, storeMatches_setUntil,
      storeMatches_setUntil ev query (queryUntil query), Bool.and_assoc]
    cases hquery : queryUntil query with
    | none => rfl
    | some t =>
      obtain ⟨t', rfl, hle⟩ := hu t hquery
      have hboth : createdAt ev ≤ t' ↔ createdAt ev ≤ t ∧ createdAt ev ≤ t' :=
        ⟨fun hev => ⟨hev.trans hle, hev⟩, And.right⟩
      exact congrArg _ ((decide_eq_decide.mpr hboth).trans (Bool.decide_and _ _))
  refine @List.Perm.eq_of_pairwise _ (visitLe · ·) _ _ (fun a b ha hb hab hba => ?_) (hsorted _)
    ((hsorted _).filter _) ?_
  · exact untied_storedEvents h a (mem_rows.mp ha).1 b (mem_rows.mp (List.mem_of_mem_filter hb)).1
      (visitLe_tied hab hba)
  · refine (List.perm_ext_iff_of_nodup ?_ ?_).mpr fun ev => ?_
    · exact (List.mergeSort_perm _ _).nodup_iff.mpr ((nodup_storedEvents h).filter _)
    · exact ((List.mergeSort_perm _ _).nodup_iff.mpr ((nodup_storedEvents h).filter _)).filter _
    · rw [List.mem_filter, mem_rows, mem_rows, hmatch, Bool.and_eq_true, and_assoc]

end Rows

section Reading

variable {α : Type} {key : α → Nat} {xs : List α}

/-- The values at or above a cursor; none without one. -/
def atOrAbove (key : α → Nat) (cursor : Option Nat) (xs : List α) : List α :=
  xs.filter fun a => cursor.any (· ≤ key a)

/-- In a list in descending order they come first. -/
theorem take_subset_atOrAbove (h : Descending key xs) {cursor : Option Nat} {n : Nat}
    (hn : min n xs.length ≤ (atOrAbove key cursor xs).length) {a : α} (ha : a ∈ xs.take n) :
    a ∈ atOrAbove key cursor xs := by
  induction xs generalizing n with
  | nil => simp at ha
  | cons x rest ih =>
    obtain ⟨habove, hrest⟩ := List.pairwise_cons.mp h
    cases n with
    | zero => simp at ha
    | succ n =>
      rw [atOrAbove, List.filter_cons] at hn ⊢
      split at hn
      next hx =>
        rw [if_pos hx]
        rw [List.length_cons, List.length_cons] at hn
        rcases List.mem_cons.mp ha with rfl | hlater
        · exact List.mem_cons_self
        · refine List.mem_cons_of_mem _ (ih hrest (n := n) ?_ hlater)
          rw [atOrAbove]
          omega
      next hx =>
        -- below the first value there is nothing at the cursor either
        have hnone : rest.filter (fun a => cursor.any (· ≤ key a)) = [] := by
          refine List.filter_eq_nil_iff.mpr fun b hb hat => hx ?_
          cases cursor with
          | none => cases hat
          | some =>
            have hlt := habove b hb
            simp only [Option.any_some, decide_eq_true_eq] at hat ⊢
            omega
        rw [hnone] at hn
        simp at hn

/-- A page that is full reaches down to its last value. -/
theorem mem_take_of_le (h : Descending key xs) {limit : Nat} {last a : α}
    (hlast : (xs.take limit).getLast? = some last) (ha : a ∈ xs) (hle : key last ≤ key a) :
    a ∈ xs.take limit := by
  have hsplit := h
  rw [Descending, ← List.take_append_drop limit xs] at hsplit
  rw [← List.take_append_drop limit xs] at ha
  rcases List.mem_append.mp ha with hread | hleft
  · exact hread
  · have hlt := (List.pairwise_append.mp hsplit).2.2 last (List.mem_of_getLast? hlast) a hleft
    exact absurd hle hlt.not_ge

theorem Descending.getLast_le (h : Descending key xs) {last a : α} (hlast : xs.getLast? = some last)
    (ha : a ∈ xs) : key last ≤ key a := by
  obtain ⟨front, rfl⟩ := List.getLast?_eq_some_iff.mp hlast
  rcases List.mem_append.mp ha with hfront | hend
  · exact ((List.pairwise_append.mp h).2.2 a hfront last (List.mem_singleton_self _)).le
  · rw [List.mem_singleton.mp hend]

/-- What is read below the old cursor and not known yet comes on top of what is above it. -/
theorem length_atOrAbove (known : α → Bool) {page : List α} (hpage : page.Sublist xs)
    {cursor : Option Nat} {new : Nat} (hdown : ∀ a ∈ xs, cursor.any (· ≤ key a) → new ≤ key a)
    (hreach : ∀ a ∈ page, new ≤ key a) (hknown : ∀ a ∈ atOrAbove key cursor xs, known a = true) :
    (atOrAbove key cursor xs).length + (page.filter fun a => !known a).length ≤
      (atOrAbove key (some new) xs).length := by
  rw [List.length_eq_length_filter_add (l := atOrAbove key (some new) xs) known]
  refine Nat.add_le_add ?_ (List.Sublist.length_le ?_)
  · rw [atOrAbove, atOrAbove, List.filter_filter, ← List.countP_eq_length_filter,
      ← List.countP_eq_length_filter]
    refine List.countP_mono_left fun a ha hat => ?_
    rw [Bool.and_eq_true]
    exact ⟨hknown a (List.mem_filter.mpr ⟨ha, hat⟩), decide_eq_true (hdown a ha hat)⟩
  · have hself : page.filter (fun a => (some new).any (· ≤ key a)) = page :=
      List.filter_eq_self.mpr fun a ha => decide_eq_true (hreach a ha)
    rw [atOrAbove]
    exact ((hself ▸ hpage.filter _).filter _)

theorem length_le_one {page : List α} {last : α} (hnodup : page.Nodup) (h : ∀ a ∈ page, a = last) :
    page.length ≤ 1 := by
  rw [List.eq_replicate_of_mem h] at hnodup
  exact List.nodup_replicate.mp hnodup

end Reading

section Serves

variable (o : WalkOrder StoredEvent) (st : MemState) (served : StoreQuery) (depth : Nat)

/-- The newest events of the query, as many as the serve is deep, are in the cache. -/
def Complete (cache : Table String CachedEvent) : Prop :=
  ∀ ev ∈ plainQuery o st served depth, ev.raw.id ∈ cache

/-- Everything above the cursor is in the cache, and with the depth that is left it makes up the
depth of the serve. -/
structure OnWay (cache : Table String CachedEvent) (pending : PendingCacheServe)
    (cursor : Option Nat) : Prop where
  queries : pending.queries = [setUntil served (cursor.or (queryUntil served))]
  first : pending.queryIdx = 0
  unbound : pending.timelineBound = false
  below : ∀ c t, cursor = some c → queryUntil served = some t → c ≤ t
  cached : ∀ ev ∈ atOrAbove createdAt cursor (rows o st served), ev.raw.id ∈ cache
  reached : depth ≤ pending.remainingDepth +
    (atOrAbove createdAt cursor (rows o st served)).length

/-- The serve is under way, or it is through its query and complete. -/
def Sound (cache : Table String CachedEvent) (pending : PendingCacheServe) : Prop :=
  (∃ cursor, OnWay o st served depth cache pending cursor) ∨
    (pending.queries[pending.queryIdx]? = none ∧ Complete o st served depth cache)

/-- A chunk has a single visit, and the event at its cursor is in the cache. -/
def Stalls (chunk : Chunk) : Prop :=
  visitLimit chunk.pending chunk.tickRemaining = 1 ∧
    ∃ query, chunk.pending.queries[chunk.pending.queryIdx]? = some query ∧
      ∃ ev ∈ rows o st query, queryUntil query = some (createdAt ev) ∧ ev.raw.id ∈ chunk.events

/-- A chunk that stalls has its cursor at the end of the window, or below. -/
def ReachesFirst (chunk : Chunk) : Prop :=
  Stalls o st chunk → ∀ query, chunk.pending.queries[chunk.pending.queryIdx]? = some query →
    min depth (rows o st served).length ≤
      (atOrAbove createdAt (queryUntil query) (rows o st served)).length

variable {o st served depth} {cache cache' : Table String CachedEvent} {pending : PendingCacheServe}

theorem Complete.mono (h : Complete o st served depth cache)
    (hsub : ∀ id, id ∈ cache → id ∈ cache') : Complete o st served depth cache' :=
  fun ev hev => hsub _ (h ev hev)

theorem Sound.mono (h : Sound o st served depth cache pending)
    (hsub : ∀ id, id ∈ cache → id ∈ cache') : Sound o st served depth cache' pending := by
  rcases h with ⟨cursor, hway⟩ | ⟨hend, hcomplete⟩
  · exact .inl ⟨cursor, hway.queries, hway.first, hway.unbound, hway.below,
      fun ev hev => hsub _ (hway.cached ev hev), hway.reached⟩
  · exact .inr ⟨hend, hcomplete.mono hsub⟩

variable {cursor : Option Nat}

/-- With no depth left the window is in the cache. -/
theorem OnWay.complete (hroot : Rooted st) (hdated : Dated o st)
    (h : OnWay o st served depth cache pending cursor) (hdepth : pending.remainingDepth = 0) :
    Complete o st served depth cache := by
  intro ev hev
  refine h.cached ev (take_subset_atOrAbove (rows_descending hroot hdated) ?_ hev)
  have hreached := h.reached
  omega

/-- The query of a serve on its way. -/
theorem OnWay.query_eq (h : OnWay o st served depth cache pending cursor) {query : StoreQuery}
    (hquery : pending.queries[pending.queryIdx]? = some query) :
    query = setUntil served (cursor.or (queryUntil served)) := by
  rw [h.queries, h.first] at hquery
  exact (Option.some.inj hquery).symm

/-- The rows a serve on its way has still to visit. -/
theorem OnWay.rows_eq (hroot : Rooted st) (h : OnWay o st served depth cache pending cursor) :
    rows o st (setUntil served (cursor.or (queryUntil served))) = (rows o st served).filter
      fun ev => (cursor.or (queryUntil served)).all (createdAt ev ≤ ·) := by
  refine rows_setUntil hroot _ fun t ht => ?_
  cases hcursor : cursor with
  | none => exact ⟨t, ht, Nat.le_refl t⟩
  | some c => exact ⟨c, rfl, h.below c t hcursor ht⟩

/-- The rows above the cursor are in the cache. -/
theorem OnWay.above (h : OnWay o st served depth cache pending cursor) {ev : StoredEvent}
    (hev : ev ∈ rows o st served)
    (habove : ¬ (cursor.or (queryUntil served)).all (createdAt ev ≤ ·) = true) :
    ev.raw.id ∈ cache := by
  cases hcursor : cursor with
  | none =>
    refine absurd ?_ habove
    rw [hcursor, Option.none_or]
    cases huntil : queryUntil served with
    | none => rfl
    | some => exact decide_eq_true (createdAt_le_until (mem_rows.mp hev).2 huntil)
  | some =>
    refine h.cached ev (List.mem_filter.mpr ⟨hev, ?_⟩)
    rw [hcursor, Option.some_or, Option.all_some, decide_eq_true_eq] at habove
    rw [hcursor, Option.any_some, decide_eq_true_eq]
    exact (not_le.mp habove).le

/-- A chunk of the serve keeps it sound. -/
theorem OnWay.advance (hroot : Rooted st) (hdated : Dated o st) {k : Kernel}
    (h : OnWay o st served depth k.events pending cursor) {query : StoreQuery}
    (hquery : pending.queries[pending.queryIdx]? = some query) (hdepth : pending.remainingDepth ≠ 0)
    {tickRemaining visited : Nat} (htick : tickRemaining ≠ 0)
    (hok : ReachesFirst o st served depth ⟨k.events, pending, tickRemaining, visited⟩)
    (hsub : ∀ id, id ∈ k.events → id ∈ cache')
    (hfed : ∀ ev ∈ (scanChunk o st k pending query tickRemaining).collected, ev.raw.id ∈ cache') :
    Sound o st served depth cache' (ServeChunks.advance pending query
      (visitLimit pending tickRemaining) (scanChunk o st k pending query tickRemaining)) := by
  have hdesc : Descending createdAt (rows o st served) := rows_descending hroot hdated
  have hcurrent := h.query_eq hquery
  have hrows := h.rows_eq hroot
  have hvisits : visitedEvents o st k pending query tickRemaining =
      (rows o st query).take (visitLimit pending tickRemaining) := by
    have hfloor : k.windowFloor pending = none := by
      rw [Kernel.windowFloor, h.unbound, if_neg (fun hbound => Bool.false_ne_true hbound.1)]
    rw [visitedEvents, effectiveQuery, hfloor]
    rfl
  have hlimit : 0 < visitLimit pending tickRemaining := by
    rw [visitLimit]
    omega
  have huntil : queryUntil query = cursor.or (queryUntil served) := by
    rw [hcurrent, queryUntil_setUntil]
  rw [scanChunk_eq hroot hdepth, hvisits] at hfed ⊢
  rw [← hcurrent, ← huntil] at hrows
  have habove : ∀ ev ∈ rows o st served, ev ∉ rows o st query → ev.raw.id ∈ k.events := by
    intro ev hev hnot
    refine h.above hev fun hbelow => hnot ?_
    rw [hrows, List.mem_filter]
    exact ⟨hev, huntil ▸ hbelow⟩
  generalize hpage : (rows o st query).take (visitLimit pending tickRemaining) = page at hfed ⊢
  dsimp only at hfed
  have hread : ∀ ev ∈ page, ev.raw.id ∈ cache' := by
    intro ev hev
    by_cases hcached : ev.raw.id ∈ k.events
    · exact hsub _ hcached
    · exact hfed ev (List.mem_filter.mpr ⟨hev, decide_eq_true hcached⟩)
  have hsublist : page.Sublist (rows o st served) := by
    rw [← hpage, hrows]
    exact (List.take_sublist _ _).trans List.filter_sublist
  have hthrough : ∀ p : PendingCacheServe, p.queries = pending.queries →
      p.queryIdx = pending.queryIdx + 1 → p.queries[p.queryIdx]? = none := by
    intro p hqueries hidx
    rw [hqueries, hidx, h.queries, h.first]
    rfl
  rw [ServeChunks.advance]
  dsimp only
  split
  next hexhausted =>
    -- the page has all that was left
    refine .inr ⟨hthrough _ rfl rfl, fun ev hev => ?_⟩
    have hev' : ev ∈ rows o st served := List.mem_of_mem_take hev
    by_cases hleft : ev ∈ rows o st query
    · refine hread ev ?_
      rw [← hpage, List.length_take] at hexhausted
      rwa [← hpage, List.take_of_length_le (by omega)]
    · exact hsub _ (habove ev hev' hleft)
  next hfull =>
  cases hlast : page.getLast? with
  | none =>
    rw [List.getLast?_eq_none_iff] at hlast
    subst hlast
    exact absurd hlimit hfull
  | some last =>
    have hin : last ∈ page := List.mem_of_getLast? hlast
    have hpaged : ∀ ev ∈ rows o st served, createdAt last ≤ createdAt ev → ev ∉ page →
        ev.raw.id ∈ k.events := by
      intro ev hev hle hnot
      refine habove ev hev fun hleft => hnot ?_
      have hdesc' : Descending createdAt (rows o st query) := hrows ▸ hdesc.filter _
      rw [← hpage]
      exact mem_take_of_le hdesc' (hpage.symm ▸ hlast) hleft hle
    have hleft : (queryUntil query).all (createdAt last ≤ ·) = true := by
      have hlast' : last ∈ rows o st query := List.mem_of_mem_take (hpage.symm ▸ hin)
      rw [hrows, List.mem_filter] at hlast'
      exact hlast'.2
    split
    next hstuck =>
      obtain ⟨hnone, hend⟩ := hstuck
      have hend' : queryUntil query = some (createdAt last) := hend.symm
      have hsame : ∀ ev ∈ page, ev = last := by
        intro ev hev
        have hev' : ev ∈ rows o st query := List.mem_of_mem_take (hpage.symm ▸ hev)
        have hle := createdAt_le_until (mem_rows.mp hev').2 hend'
        have hge := Descending.getLast_le (hdesc.sublist hsublist) hlast hev
        exact hdated ev (mem_rows.mp hev').1 last (mem_rows.mp (hsublist.subset hin)).1
          (Nat.le_antisymm hle hge)
      have hone := length_le_one (hdesc.sublist hsublist).nodup hsame
      have hknown : last.raw.id ∈ k.events := by
        have hnot := List.filter_eq_nil_iff.mp hnone last hin
        rwa [decide_eq_true_eq, not_not] at hnot
      have hreached := hok ⟨show visitLimit pending tickRemaining = 1 by omega, query, hquery, last,
        List.mem_of_mem_take (hpage.symm ▸ hin), hend', hknown⟩ query hquery
      refine .inr ⟨hthrough _ rfl rfl, fun ev hev => ?_⟩
      obtain ⟨hev', hle⟩ := List.mem_filter.mp (take_subset_atOrAbove hdesc hreached hev)
      rw [hend', Option.any_some, decide_eq_true_eq] at hle
      by_cases hnow : ev ∈ page
      · exact hread ev hnow
      · exact hsub _ (hpaged ev hev' hle hnow)
    next hmoves =>
      rw [Option.map_some]
      dsimp only
      refine .inl ⟨some (createdAt last), ?_, h.first, h.unbound, ?_, ?_, ?_⟩
      · rw [hcurrent, setUntil_setUntil, h.queries, h.first]
        rfl
      · intro c t hc ht
        cases hc
        exact createdAt_le_until (mem_rows.mp (hsublist.subset hin)).2 ht
      · intro ev hev
        obtain ⟨hev', hle⟩ := List.mem_filter.mp hev
        by_cases hnow : ev ∈ page
        · exact hread ev hnow
        · exact hsub _ (hpaged ev hev' (of_decide_eq_true hle) hnow)
      · have hcount : (atOrAbove createdAt cursor (rows o st served)).length +
            (page.filter fun ev => !decide (ev.raw.id ∈ k.events)).length ≤
              (atOrAbove createdAt (some (createdAt last)) (rows o st served)).length := by
          refine length_atOrAbove (fun ev => decide (ev.raw.id ∈ k.events)) hsublist ?_ ?_ ?_
          · intro ev hev hat
            cases hcursor : cursor with
            | none =>
              rw [hcursor] at hat
              cases hat
            | some =>
              rw [hcursor, Option.any_some, decide_eq_true_eq] at hat
              rw [huntil, hcursor, Option.some_or, Option.all_some, decide_eq_true_eq] at hleft
              exact hleft.trans hat
          · exact fun ev hev => Descending.getLast_le (hdesc.sublist hsublist) hlast hev
          · exact fun ev hev => decide_eq_true (h.cached ev hev)
        have hreached := h.reached
        have hnew : (page.filter fun ev => !decide (ev.raw.id ∈ k.events)) =
            page.filter fun ev => decide (ev.raw.id ∉ k.events) :=
          List.filter_congr fun ev _ => (decide_not ..).symm
        rw [hnew] at hcount
        show depth ≤ pending.remainingDepth - _ + _
        omega

end Serves

section Steps

variable {o : WalkOrder StoredEvent} {st : MemState} {served : StoreQuery} {depth key : Nat}

variable (k : Kernel)

theorem mem_feedServedEvent (ev : StoredEvent) (id : String) :
    id ∈ (k.feedServedEvent ev).events ↔ id = ev.raw.id ∨ id ∈ k.events := by
  rw [Kernel.feedServedEvent]
  split <;> exact AList.mem_insert _

/-- Feeding a chunk adds what it collected to the cache. -/
theorem mem_feedChunk (pending : PendingCacheServe) (tickRemaining : Nat) (c : Collecting)
    (id : String) : id ∈ (feedChunk k pending tickRemaining c).events ↔
      (∃ ev ∈ c.collected, ev.raw.id = id) ∨ id ∈ k.events := by
  have hfold : ∀ (evs : List StoredEvent) (k : Kernel),
      id ∈ (evs.foldl Kernel.feedServedEvent k).events ↔
        (∃ ev ∈ evs, ev.raw.id = id) ∨ id ∈ k.events := by
    intro evs
    induction evs with
    | nil => simp
    | cons ev _ ih =>
      intro k
      rw [List.foldl_cons, ih, mem_feedServedEvent, ← or_assoc, List.exists_mem_cons_iff,
        or_comm (a := ev.raw.id = id), eq_comm (a := id)]
  rw [feedChunk, hfold]
  simp only [List.mem_reverse]

/-- The cache only grows while a serve is drained. -/
theorem serveChunk_grows (pending : PendingCacheServe) (tickRemaining : Nat) {id : String}
    (hid : id ∈ k.events) : id ∈ (serveChunk o st k pending tickRemaining).1.events := by
  induction tickRemaining using Nat.strong_induction_on generalizing k pending with
  | _ tickRemaining ih =>
  rw [serveChunk]
  cases hquery : pending.queries[pending.queryIdx]? with
  | none => exact hid
  | some =>
    dsimp only
    split
    next => exact hid
    split
    next => exact hid
    next hpos =>
      refine ih _ ?_ _ _ ((mem_feedChunk ..).mpr (.inr hid))
      rw [tickAfter]
      omega

/-- The first chunk stays in the history. -/
theorem mem_chunks (hroot : Rooted st) (k : Kernel) (pending pending' : PendingCacheServe)
    (tickRemaining left : Nat) (c : Collecting) :
    (⟨k.events, pending, tickRemaining, c.visited⟩ : Chunk) ∈
      (serveChunk o st (feedChunk k pending tickRemaining c) pending' left).1.chunks := by
  obtain ⟨bound, hbound⟩ := exists_bound o st
  obtain ⟨new, hnew, -⟩ := (served_chunk hbound hroot (feedChunk k pending tickRemaining c) pending'
    left).chunks
  rw [hnew, (feedChunk_keeps k pending tickRemaining c).1]
  exact List.mem_append_left _ (List.mem_append_right _ (List.mem_singleton_self _))

/-- The chunks of the serve under the key reach the end of the window first. -/
def AllReach (o : WalkOrder StoredEvent) (st : MemState) (served : StoreQuery) (depth key : Nat)
    (chunks : List Chunk) : Prop :=
  ∀ chunk ∈ chunks, chunk.pending.completionKey = key → ReachesFirst o st served depth chunk

theorem sound_serveChunk (hroot : Rooted st) (hdated : Dated o st) (k : Kernel)
    {pending : PendingCacheServe} (tickRemaining : Nat) (hkey : pending.completionKey = key)
    (hsound : Sound o st served depth k.events pending)
    (hok : AllReach o st served depth key (serveChunk o st k pending tickRemaining).1.chunks) :
    ((serveChunk o st k pending tickRemaining).2.2.2 = true →
      Complete o st served depth (serveChunk o st k pending tickRemaining).1.events) ∧
    ((serveChunk o st k pending tickRemaining).2.2.2 = false →
      Sound o st served depth (serveChunk o st k pending tickRemaining).1.events
        (serveChunk o st k pending tickRemaining).2.1) := by
  induction tickRemaining using Nat.strong_induction_on generalizing k pending with
  | _ tickRemaining ih =>
  have hunfold := serveChunk.eq_1 o st k pending tickRemaining
  cases hquery : pending.queries[pending.queryIdx]? with
  | none =>
    rw [hquery] at hunfold
    rw [hunfold]
    refine ⟨fun _ => ?_, by simp⟩
    rcases hsound with ⟨cursor, hway⟩ | ⟨-, hcomplete⟩
    · rw [hway.queries, hway.first] at hquery
      cases hquery
    · exact hcomplete
  | some query =>
    rw [hquery] at hunfold
    dsimp only at hunfold
    rcases hsound with ⟨cursor, hway⟩ | ⟨hend, -⟩
    · by_cases hdepth : pending.remainingDepth = 0
      · rw [hunfold, if_pos hdepth]
        exact ⟨fun _ => hway.complete hroot hdated hdepth, by simp⟩
      · by_cases hzero : tickRemaining = 0
        · rw [hunfold, if_neg hdepth, if_pos hzero]
          exact ⟨by simp, fun _ => .inl ⟨cursor, hway⟩⟩
        · rw [if_neg hdepth, if_neg hzero] at hunfold
          rw [hunfold] at hok ⊢
          have hless : tickAfter tickRemaining (scanChunk o st k pending query tickRemaining).visited <
              tickRemaining := by
            rw [tickAfter]
            omega
          refine ih _ hless _ ((advance_completionKey ..).trans hkey) ?_ hok
          refine hway.advance hroot hdated hquery hdepth hzero
            (hok _ (mem_chunks hroot k pending _ tickRemaining _ _) hkey)
            (fun id hid => (mem_feedChunk ..).mpr (.inr hid))
            fun ev hev => (mem_feedChunk ..).mpr (.inl ⟨ev, hev, rfl⟩)
    · rw [hquery] at hend
      cases hend

/-- The serve under the key is complete once it is done, and sound while it is queued. -/
structure Watched (o : WalkOrder StoredEvent) (st : MemState) (served : StoreQuery) (depth key : Nat)
    (k : Kernel) : Prop where
  done : key ∈ k.servedInterestShapes → Complete o st served depth k.events
  queued : ∀ pending ∈ k.pendingCacheServes, pending.completionKey = key →
    Sound o st served depth k.events pending

theorem watched_drainQueue (hroot : Rooted st) (hdated : Dated o st) (k : Kernel)
    (queue : List PendingCacheServe) (tickRemaining : Nat)
    (hdone : key ∈ k.servedInterestShapes → Complete o st served depth k.events)
    (hqueued : ∀ pending ∈ queue, pending.completionKey = key →
      Sound o st served depth k.events pending)
    (hok : AllReach o st served depth key (drainQueue o st k queue tickRemaining).chunks) :
    Watched o st served depth key (drainQueue o st k queue tickRemaining) := by
  obtain ⟨bound, hbound⟩ := exists_bound o st
  induction queue generalizing k tickRemaining with
  | nil => exact ⟨hdone, nofun⟩
  | cons pending rest ih =>
    rw [drainQueue] at hok ⊢
    split at hok
    next hzero =>
      rw [if_pos hzero]
      exact ⟨hdone, hqueued⟩
    next hpos =>
    rw [if_neg hpos]
    have hserve := served_chunk (o := o) hbound hroot k pending tickRemaining
    have hgrows : ∀ id, id ∈ k.events →
        id ∈ (serveChunk o st k pending tickRemaining).1.events := fun id hid =>
      serveChunk_grows k pending tickRemaining hid
    have hfront : pending.completionKey = key →
        AllReach o st served depth key (serveChunk o st k pending tickRemaining).1.chunks →
        _ := fun hkey hreach => sound_serveChunk hroot hdated k tickRemaining hkey
          (hqueued pending List.mem_cons_self hkey) hreach
    generalize serveChunk o st k pending tickRemaining = result at hserve hgrows hfront hok ⊢
    obtain ⟨k', pending', left, done⟩ := result
    have hkey' : pending'.completionKey = pending.completionKey := hserve.key
    have hserved : k'.servedInterestShapes = k.servedInterestShapes := hserve.served
    have hdone' : key ∈ k'.servedInterestShapes → Complete o st served depth k'.events := fun hin =>
      (hdone (hserved ▸ hin)).mono hgrows
    have hrest : ∀ p ∈ rest, p.completionKey = key → Sound o st served depth k'.events p :=
      fun p hp hkey => (hqueued p (List.mem_cons_of_mem _ hp) hkey).mono hgrows
    cases done with
    | false =>
      refine ⟨hdone', fun p hp hkey => ?_⟩
      rcases List.mem_cons.mp hp with rfl | hin
      · exact (hfront (hkey'.symm.trans hkey) hok).2 rfl
      · exact hrest p hin hkey
    | true =>
      dsimp only at hok ⊢
      refine ih (markServed k' pending') left (fun hin => ?_) hrest hok
      rcases Finset.mem_insert.mp hin with hkey | hold
      · obtain ⟨new, hnew, -⟩ := (drained_queue (o := o) hbound hroot (markServed k' pending') rest
          left).chunks
        refine (hfront (hkey'.symm.trans hkey.symm) fun chunk hchunk => hok chunk ?_).1 rfl
        rw [hnew]
        exact List.mem_append_left _ hchunk
      · exact hdone' hold

/-- A serve is queued, or a tick drains the queue under some budget. -/
inductive Turn where
  | enqueue (pending : PendingCacheServe)
  | tick (budget : Nat)

def perform (o : WalkOrder StoredEvent) (st : MemState) (k : Kernel) : Turn → Kernel
  | .enqueue pending => enqueueCacheServe k pending
  | .tick budget => stepWithin o st budget k

theorem perform_chunks (hroot : Rooted st) (k : Kernel) (turn : Turn) :
    ∃ new, (perform o st k turn).chunks = k.chunks ++ new := by
  cases turn with
  | enqueue =>
    refine ⟨[], ?_⟩
    rw [perform, enqueueCacheServe, List.append_nil]
    split <;> rfl
  | tick budget =>
    obtain ⟨bound, hbound⟩ := exists_bound o st
    obtain ⟨new, hnew, -⟩ := (drained_queue hbound hroot k k.pendingCacheServes budget).chunks
    exact ⟨new, hnew⟩

theorem run_chunks (hroot : Rooted st) (k : Kernel) (turns : List Turn) :
    ∃ new, (run (perform o st) k turns).chunks = k.chunks ++ new := by
  induction turns generalizing k with
  | nil => exact ⟨[], (List.append_nil _).symm⟩
  | cons turn _ ih =>
    obtain ⟨new, hnew⟩ := perform_chunks hroot k turn
    obtain ⟨later, hlater⟩ := ih (perform o st k turn)
    exact ⟨new ++ later, by rw [run_cons, hlater, hnew, List.append_assoc]⟩

/-- While the key is known, no second serve gets it. -/
theorem Watched.perform (hroot : Rooted st) (hdated : Dated o st) {k : Kernel}
    (h : Watched o st served depth key k) (turn : Turn)
    (hknown : key ∈ k.servedInterestShapes ∨ key ∈ k.pendingCacheServes.map (·.completionKey))
    (hok : AllReach o st served depth key (perform o st k turn).chunks) :
    Watched o st served depth key (perform o st k turn) ∧
      (key ∈ (ServeWindow.perform o st k turn).servedInterestShapes ∨
        key ∈ (ServeWindow.perform o st k turn).pendingCacheServes.map (·.completionKey)) := by
  cases turn with
  | enqueue =>
    rw [ServeWindow.perform, enqueueCacheServe]
    split
    next => exact ⟨h, hknown⟩
    next hnew =>
      refine ⟨⟨h.done, fun p hp hkey => ?_⟩, hknown.imp id fun hin => ?_⟩
      · rcases List.mem_append.mp hp with hold | hadded
        · exact h.queued p hold hkey
        · rw [List.mem_singleton.mp hadded] at hkey
          exact absurd (hkey ▸ hknown) hnew
      · rw [List.map_append]
        exact List.mem_append_left _ hin
  | tick budget =>
    obtain ⟨bound, hbound⟩ := exists_bound o st
    have hdrained := drained_queue hbound hroot k k.pendingCacheServes budget
    refine ⟨watched_drainQueue hroot hdated k _ budget h.done h.queued hok, ?_⟩
    rcases hknown with hserved | hin
    · exact .inl (hdrained.served hserved)
    · obtain ⟨p, hp, rfl⟩ := List.mem_map.mp hin
      exact (hdrained.kept p hp).imp id fun ⟨p', hp', hkey⟩ => List.mem_map.mpr ⟨p', hp', hkey⟩

/-- A serve of one query is enqueued; the others share the ticks in any way. If each of its chunks
that stalls has reached the end of the window, then the window is in the cache once it is done. -/
theorem window_served (actions : List Action) (o : WalkOrder StoredEvent)
    (hdated : Dated o (run act .new actions)) (k : Kernel) (query : StoreQuery)
    (depth key : Nat) (hserved : key ∉ k.servedInterestShapes)
    (hqueued : key ∉ k.pendingCacheServes.map (·.completionKey)) (turns : List Turn)
    (hok : AllReach o (run act .new actions) query depth key
      (run (perform o (run act .new actions)) k
        (.enqueue ⟨key, [query], 0, depth, false⟩ :: turns)).chunks)
    (hdone : key ∈ (run (perform o (run act .new actions)) k
      (.enqueue ⟨key, [query], 0, depth, false⟩ :: turns)).servedInterestShapes) :
    Complete o (run act .new actions) query depth
      (run (perform o (run act .new actions)) k
        (.enqueue ⟨key, [query], 0, depth, false⟩ :: turns)).events := by
  have hroot : Rooted (run act .new actions) := Reachable.rooted ⟨actions, rfl⟩
  generalize run act .new actions = st at *
  have hrun : ∀ (turns : List Turn) (k : Kernel), Watched o st query depth key k →
      (key ∈ k.servedInterestShapes ∨ key ∈ k.pendingCacheServes.map (·.completionKey)) →
      AllReach o st query depth key (run (perform o st) k turns).chunks →
      Watched o st query depth key (run (perform o st) k turns) := by
    intro turns
    induction turns with
    | nil => exact fun k h _ _ => h
    | cons turn rest ih =>
      intro k h hknown hreach
      obtain ⟨new, hnew⟩ := run_chunks (o := o) hroot (perform o st k turn) rest
      obtain ⟨hnext, hknown'⟩ := h.perform hroot hdated turn hknown fun chunk hchunk =>
        hreach chunk (by rw [run_cons, hnew]; exact List.mem_append_left _ hchunk)
      exact ih _ hnext hknown' hreach
  rw [run_cons] at hok hdone ⊢
  have hstart : perform o st k (.enqueue ⟨key, [query], 0, depth, false⟩) =
      { k with pendingCacheServes := k.pendingCacheServes ++ [⟨key, [query], 0, depth, false⟩] } :=
    if_neg (not_or_intro hserved hqueued)
  refine (hrun turns _ ?_ ?_ hok).done hdone
  · rw [hstart]
    refine ⟨fun hin => absurd hin hserved, fun p hp hkey => ?_⟩
    rcases List.mem_append.mp hp with hold | hadded
    · exact absurd (List.mem_map.mpr ⟨p, hold, hkey⟩) hqueued
    · rw [List.mem_singleton.mp hadded]
      refine .inl ⟨none, ?_, rfl, rfl, nofun, fun ev hev => ?_, Nat.le_add_right _ _⟩
      · rw [Option.none_or, setUntil_queryUntil]
      · exact absurd (List.mem_filter.mp hev).2 Bool.false_ne_true
  · rw [hstart]
    exact .inr (by simp)

end Steps

def emptyKernel : Kernel := ⟨∅, [], ∅, 80, [], ∅, []⟩

def notes : StoreQuery := .kindTime [1] none none

def twoNotes : List Action :=
  [.insert (arrivalOf '1' 'a' 10 1 []), .insert (arrivalOf '2' 'a' 20 1 [])]

theorem run_twoNotes : run act .new twoNotes =
    accept (accept .new (arrivalOf '1' 'a' 10 1 [])) (arrivalOf '2' 'a' 20 1 []) := by
  rw [twoNotes, run_cons, run_cons, run_nil,
    act_admitted (admitted_arrivalOf (by decide) (by decide) (by decide)),
    act_admitted (admitted_arrivalOf (by decide) (by decide) (by decide))]

theorem dated_twoNotes : Dated .sorted (run act .new twoNotes) := by
  rw [run_twoNotes]
  unfold Dated
  decide +kernel

set_option maxRecDepth 10000 in
/-- The newest of two notes, in one tick. -/
theorem newest_note_served : Complete .sorted (run act .new twoNotes) notes 1
    (run (perform .sorted (run act .new twoNotes)) emptyKernel
      [.enqueue ⟨7, [notes], 0, 1, false⟩, .tick 1]).events := by
  refine window_served twoNotes .sorted dated_twoNotes emptyKernel notes 1 7 (by decide) (by decide)
    [.tick 1] ?_ ?_
  · rw [run_twoNotes]
    have hchunks : ∀ chunk ∈ (run (perform .sorted (accept (accept .new (arrivalOf '1' 'a' 10 1 []))
        (arrivalOf '2' 'a' 20 1 []))) emptyKernel
        [.enqueue ⟨7, [notes], 0, 1, false⟩, .tick 1]).chunks, chunk.events.keys = [] := by
      decide +kernel
    rintro chunk hchunk - ⟨-, query, -, ev, -, -, hcached⟩
    rw [AList.mem_keys, hchunks chunk hchunk] at hcached
    cases hcached
  · rw [run_twoNotes]
    decide +kernel

set_option maxRecDepth 10000 in
/-- Of the two notes only the newer one is served: the second chunk sees it again, and the query is
given up. -/
theorem second_note_unserved :
    Dated .sorted (run act .new twoNotes) ∧
      7 ∈ (run (perform .sorted (run act .new twoNotes)) emptyKernel
        [.enqueue ⟨7, [notes], 0, 2, false⟩, .tick 1, .tick 1]).servedInterestShapes ∧
      ¬ Complete .sorted (run act .new twoNotes) notes 2
        (run (perform .sorted (run act .new twoNotes)) emptyKernel
          [.enqueue ⟨7, [notes], 0, 2, false⟩, .tick 1, .tick 1]).events := by
  refine ⟨dated_twoNotes, ?_, fun hcomplete => ?_⟩
  · rw [run_twoNotes]
    decide +kernel
  · have hwindow : plainQuery .sorted (run act .new twoNotes) notes 2 =
        rows .sorted (run act .new twoNotes) notes := by
      refine List.take_of_length_le ?_
      rw [List.length_mergeSort, run_twoNotes]
      decide +kernel
    have hall : ∀ ev ∈ (storedEvents .sorted (run act .new twoNotes)).filter
        (storeMatches · notes), ev.raw.id ∈ (run (perform .sorted (run act .new twoNotes))
          emptyKernel [.enqueue ⟨7, [notes], 0, 2, false⟩, .tick 1, .tick 1]).events :=
      fun ev hev => hcomplete ev (hwindow ▸ List.mem_mergeSort.mpr hev)
    rw [run_twoNotes] at hall
    revert hall
    decide +kernel

end ServeWindow
