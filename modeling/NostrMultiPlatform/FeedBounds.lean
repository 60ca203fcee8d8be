import NostrMultiPlatform.FeedDrains

/-!
# The work of a load

A drain keeps within the budget it was given. A load drains again as long as its
rows were rejected and the budget is not used up, and each drain counts anew: the
load visits less than twice the budget.
-/
namespace FeedBounds

open ThreadGrouper (KernelEvent)
open Sorted StoreState StoreActions StoreLog StorePull RetainedLog FeedPull StoreStep

/-- A page has no more rows than it may, and visits no more of the log. -/
structure Honours (pull : Nat → PullLimits → ScanLogResult) : Prop where
  entries : ∀ {after limits page}, pull after limits = .page page →
    page.entries.length ≤ limits.maxEntries
  visits : ∀ {after limits page}, pull after limits = .page page →
    page.nextAfterSeq ≤ after + limits.maxScanEntries
  advances : ∀ {after limits page}, pull after limits = .page page → page.entries ≠ [] →
    after < page.nextAfterSeq

theorem visitRows_length (st : MemState) (compiled : CompiledShapes) {maxEntries : Nat}
    (entries collected : List StoreLogEntry) (last : Option Nat)
    (hroom : collected.length < maxEntries) :
    (visitRows st compiled maxEntries entries collected last).1.length ≤ maxEntries := by
  induction entries generalizing collected last with
  | nil => exact hroom.le
  | cons _ _ ih =>
    rw [visitRows_cons]
    split
    · split
      · rw [List.length_append, List.length_singleton]
        omega
      · refine ih _ _ ?_
        rw [List.length_append, List.length_singleton]
        omega
    · exact ih _ _ hroom

variable {st : MemState}

/-- What a scan returns lies above the cursor and within the limit. -/
theorem scan_bounds (h : Reachable st) {after limit : Nat} {page : PullPage}
    (hscan : scanLogSinceSeq st after limit = .page page) :
    after ≤ page.nextAfterSeq ∧ page.nextAfterSeq ≤ after + limit ∧
      ∀ e ∈ page.entries, after < e.seq ∧ e.seq ≤ page.nextAfterSeq := by
  obtain ⟨history, hwindow, -⟩ := exists_history h
  by_cases hfloor : st.logGcFloor ≤ after
  · by_cases hmax : after = StoreText.u64Max
    · rw [scanLogSinceSeq, if_neg (by omega), if_pos hmax] at hscan
      cases hscan
      exact ⟨Nat.le_refl _, Nat.le_add_right _ _, fun e he => absurd he List.not_mem_nil⟩
    · rw [scan_page hwindow hfloor hmax] at hscan
      cases hscan
      have hhead := hwindow.head_le
      refine ⟨Nat.le_max_left _ _, by dsimp only; omega, fun e he => ?_⟩
      exact ((mem_segment hwindow.numbered).mp he).2
  · rw [scanLogSinceSeq, if_pos (by omega)] at hscan
    cases hscan

theorem filterPage_bounds {compiled : CompiledShapes} {after limit : Nat} {page : PullPage}
    (limits : PullLimits) (hnext : after ≤ page.nextAfterSeq)
    (hlimit : page.nextAfterSeq ≤ after + limit)
    (hrows : ∀ e ∈ page.entries, after < e.seq ∧ e.seq ≤ page.nextAfterSeq) :
    (filterPage st page compiled limits.maxEntries).entries.length ≤ limits.maxEntries ∧
      (filterPage st page compiled limits.maxEntries).nextAfterSeq ≤ after + limit ∧
      ((filterPage st page compiled limits.maxEntries).entries ≠ [] →
        after < (filterPage st page compiled limits.maxEntries).nextAfterSeq) := by
  have hlength := visitRows_length st compiled page.entries [] none limits.entries_pos
  obtain ⟨seen, rest, hparts, hcollected, hstopped, -⟩ :=
    visitRows_spec st compiled limits.maxEntries page.entries [] none
  unfold filterPage
  generalize visitRows st compiled limits.maxEntries page.entries [] none = result
    at hlength hcollected hstopped
  obtain ⟨collected, lastVisited, stoppedEarly⟩ := result
  dsimp only at hlength hcollected hstopped ⊢
  have hseen : ∀ e ∈ seen, after < e.seq ∧ e.seq ≤ page.nextAfterSeq := fun e he =>
    hrows e (hparts ▸ List.mem_append_left _ he)
  cases stoppedEarly with
  | false =>
    refine ⟨hlength, hlimit, fun hne => ?_⟩
    obtain ⟨e, he⟩ := List.exists_mem_of_ne_nil _ hne
    rw [hcollected, List.nil_append] at he
    have hbetween := hseen e (List.mem_filter.mp he).1
    show after < page.nextAfterSeq
    omega
  | true =>
    -- the page ends at the last row that was seen
    obtain ⟨hne, hlast⟩ := hstopped rfl
    have hbetween := hseen _ (List.getLast_mem hne)
    rw [hlast, List.getLast?_eq_some_getLast hne, Option.map_some, if_pos rfl, Option.getD_some]
    exact ⟨hlength, hbetween.2.trans hlimit, fun _ => hbetween.1⟩

theorem honours_shapes (h : Reachable st) {scope : PullScope}
    {shapes : List PlannerShape.InterestShape} (hscope : FeedDrains.ShapeScope scope shapes) :
    Honours (feedPullFn st scope) := by
  have hpage : ∀ {after limits page}, feedPullFn st scope after limits = .page page →
      page.entries.length ≤ limits.maxEntries ∧
        page.nextAfterSeq ≤ after + limits.maxScanEntries ∧
        (page.entries ≠ [] → after < page.nextAfterSeq) := by
    intro after limits page hpull
    rw [feedPullFn, hscope.pull, pullShapesPage] at hpull
    cases hset : compileShapeSet shapes with
    | error =>
      -- a scope the store cannot serve gives an empty last page
      rw [hset] at hpull
      cases hpull
      exact ⟨Nat.zero_le _, Nat.le_add_right _ _, fun hne => absurd rfl hne⟩
    | ok =>
      cases hscan : scanLogSinceSeq st after limits.maxScanEntries with
      | gap =>
        rw [hset, hscan] at hpull
        cases hpull
      | page =>
        rw [hset, hscan] at hpull
        cases hpull
        obtain ⟨hnext, hlimit, hrows⟩ := scan_bounds h hscan
        exact filterPage_bounds limits hnext hlimit hrows
  exact ⟨fun hpull => (hpage hpull).1, fun hpull => (hpage hpull).2.1, fun hpull => (hpage hpull).2.2⟩

/-- Whatever a feed asks for, the store's pages keep to their limits. -/
theorem honours_feedPull (h : Reachable st) {provider : PullProvider} {scope : PullScope}
    (hprovider : provider.pullScope = some scope) : Honours (feedPullFn st scope) := by
  obtain ⟨shapes, hscope⟩ := FeedDrains.exists_shapes hprovider
  exact honours_shapes h hscope

section Drains

variable {pager : FeedPullPager} {pull : Nat → PullLimits → ScanLogResult}

/-- A drain that goes on has room and budget left; events came from rows it visited. -/
structure Underway (pager : FeedPullPager) (d : Draining) : Prop where
  room : d.events.length < pager.pageSize
  budget : d.scanned < pager.scanBudget
  visited : d.events ≠ [] → 0 < d.scanned

/-- A drain within its bounds. -/
structure Within (pager : FeedPullPager) (d : Draining) : Prop where
  room : d.events.length ≤ pager.pageSize
  budget : d.scanned ≤ pager.scanBudget
  visited : d.events ≠ [] → 0 < d.scanned

variable {d : Draining} {page : PullPage}

theorem Underway.take (hpull : Honours pull) (h : Underway pager d)
    (hpage : pull d.afterSeq (d.limits pager) = .page page) : Within pager (d.take page) := by
  have hentries : page.entries.length ≤ max (pager.pageSize - d.events.length) 1 :=
    hpull.entries hpage
  have hvisits : page.nextAfterSeq ≤ d.afterSeq + max (pager.scanBudget - d.scanned) 1 :=
    hpull.visits hpage
  have hroom := h.room
  have hbudget := h.budget
  refine ⟨?_, ?_, fun hne => ?_⟩
  · have hfewer := List.length_filterMap_le rawToKernelEvent page.entries
    rw [Draining.take, List.length_append]
    omega
  · show d.scanned + (max page.nextAfterSeq d.afterSeq - d.afterSeq) ≤ pager.scanBudget
    omega
  · show 0 < d.scanned + (max page.nextAfterSeq d.afterSeq - d.afterSeq)
    by_cases hold : d.events = []
    · have hrows : page.entries ≠ [] := by
        rintro hnone
        rw [Draining.take, hold, hnone] at hne
        exact hne rfl
      have hadvances := hpull.advances hpage hrows
      omega
    · have hscanned := h.visited hold
      omega

/-- A drain that does not stop after a page has moved on. -/
theorem Within.underway (hpull : Honours pull)
    (hpage : pull d.afterSeq (d.limits pager) = .page page) (h : Within pager (d.take page))
    (hstop : d.stopAfter pager page = none) :
    Underway pager (d.take page) ∧ d.scanned < (d.take page).scanned := by
  rw [Draining.stopAfter] at hstop
  split at hstop
  · cases hstop
  split at hstop
  · cases hstop
  next hroom =>
  split at hstop
  · cases hstop
  next hmoves =>
  split at hstop
  · cases hstop
  next hbudget =>
  refine ⟨⟨Nat.lt_of_not_le hroom, Nat.lt_of_not_le hbudget, h.visited⟩, ?_⟩
  have hadvances : d.afterSeq < page.nextAfterSeq := by
    by_contra hnot
    have hrows : page.entries ≠ [] := fun hnone => hmoves ⟨Nat.le_of_not_lt hnot, hnone⟩
    exact hnot (hpull.advances hpage hrows)
  show d.scanned < d.scanned + (max page.nextAfterSeq d.afterSeq - d.afterSeq)
  omega

theorem full_of_pageFilled (h : d.stopAfter pager page = some .pageFilled) :
    pager.pageSize ≤ (d.take page).events.length := by
  rw [Draining.stopAfter] at h
  split at h
  · cases h
  split at h
  · assumption
  split at h
  · cases h
  split at h <;> cases h

theorem drainLoop_within (hpull : Honours pull) {fuel : Nat} (h : Underway pager d)
    (hfuel : pager.scanBudget - d.scanned ≤ fuel) :
    ∃ d' stop, drainLoop pager pull fuel d = some (d', stop) ∧ Within pager d' ∧
      (stop = .pageFilled → 0 < d'.scanned) := by
  induction fuel generalizing d with
  | zero =>
    have hbudget := h.budget
    omega
  | succ _ ih =>
    rw [drainLoop]
    cases hpage : pull d.afterSeq (d.limits pager) with
    | gap =>
      exact ⟨_, _, rfl, ⟨h.room.le, h.budget.le, h.visited⟩, fun hstop => by cases hstop⟩
    | page page =>
      have hwithin := h.take hpull hpage
      dsimp only
      cases hstop : d.stopAfter pager page with
      | some =>
        refine ⟨_, _, rfl, hwithin, fun hfilled => hwithin.visited fun hnone => ?_⟩
        have hfull := full_of_pageFilled (hfilled ▸ hstop)
        rw [hnone] at hfull
        exact absurd hfull (Nat.not_le_of_lt pager.page_pos)
      | none =>
        obtain ⟨hunderway, hmoved⟩ := hwithin.underway hpull hpage hstop
        exact ih hunderway (by omega)

/-- A drain comes back within the page and the budget, its cursor moved at most. -/
theorem drain_within (hpull : Honours pull) {fuel : Nat} (hfuel : pager.scanBudget ≤ fuel) :
    ∃ outcome cursor, pager.drain pull fuel = some (outcome, { pager with afterSeq := cursor }) ∧
      outcome.events.length ≤ pager.pageSize ∧ outcome.visited ≤ pager.scanBudget ∧
      (outcome.stop = .pageFilled → 0 < outcome.visited) := by
  obtain ⟨d, stop, hloop, hwithin, hfilled⟩ := drainLoop_within hpull (d := ⟨pager.afterSeq, [], [], 0⟩)
    ⟨pager.page_pos, pager.budget_pos, fun hne => absurd rfl hne⟩ hfuel
  rw [FeedPullPager.drain, hloop]
  exact ⟨_, _, rfl, hwithin.room, hwithin.budget, hfilled⟩

end Drains

section Loads

variable {F : Type} (hooks : Hooks F)

theorem foldl_runReplace_pager (ids : List String) (s : Session F) :
    (ids.foldl (Session.runReplace hooks) s).pager = s.pager := by
  induction ids generalizing s with
  | nil => rfl
  | cons _ _ ih =>
    rw [List.foldl_cons, ih, Session.runReplace]
    cases hooks.replace <;> rfl

theorem foldl_ingest (events : List KernelEvent) (l : Loading F) :
    (events.foldl (Loading.ingest hooks) l).session.pager = l.session.pager ∧
      (events.foldl (Loading.ingest hooks) l).visited = l.visited := by
  induction events generalizing l with
  | nil => exact ⟨rfl, rfl⟩
  | cons event _ ih => exact ih (l.ingest hooks event)

theorem perform_pager (l : Loading F) (outcome : DrainOutcome) (pager : FeedPullPager) :
    (l.perform hooks outcome pager).session.pager = pager ∧
      (l.perform hooks outcome pager).visited = l.visited + outcome.visited := by
  rw [Loading.perform]
  obtain ⟨hpager, hvisited⟩ := foldl_ingest hooks outcome.events
    ⟨outcome.replacedIds.foldl (Session.runReplace hooks) { l.session with pager := pager },
      l.accepted, l.visited + outcome.visited, l.replaced || !outcome.replacedIds.isEmpty⟩
  exact ⟨hpager.trans (foldl_runReplace_pager hooks _ _), hvisited⟩

/-- A load comes back, whatever the feed makes of its rows. -/
theorem loadLoop_bounded {pull : Nat → PullLimits → ScanLogResult} (hpull : Honours pull)
    {budget drainFuel fuel : Nat} {l : Loading F} (hpager : l.session.pager.scanBudget = budget)
    (hleft : l.visited < budget) (hdrain : budget ≤ drainFuel) (hfuel : budget - l.visited ≤ fuel) :
    ∃ l' stop, loadLoop hooks pull drainFuel fuel l = some (l', stop) ∧
      l'.visited < 2 * budget := by
  induction fuel generalizing l with
  | zero => omega
  | succ _ ih =>
    obtain ⟨outcome, cursor, hdrained, -, hvisited, hfilled⟩ :=
      drain_within hpull (hpager.trans_le hdrain)
    rw [loadLoop, hdrained]
    dsimp only
    obtain ⟨hpager', hcount⟩ :=
      perform_pager hooks l outcome { l.session.pager with afterSeq := cursor }
    split
    next hmore =>
      obtain ⟨hstop, -, hbudget⟩ := hmore
      have hpos := hfilled hstop
      refine ih (by rw [hpager']; exact hpager) ?_ ?_
      · rwa [← hpager]
      · rw [hcount]
        omega
    next hdone =>
      refine ⟨_, _, rfl, ?_⟩
      rw [hcount]
      omega

/-- The rows a load visits. -/
def visitedBy (pull : PullFn) (provider : PullProvider) (fuel : Nat) (s : Session F) : Option Nat :=
  match provider.pullScope with
  | none => some 0
  | some scope => (loadLoop hooks (pull scope) fuel fuel ⟨s, 0, 0, false⟩).map (·.1.visited)

/-- Every drain of a feed's scope keeps to its page and to the budget; a load comes back,
and visits less than twice the budget. -/
theorem load_bounded {st : MemState} (h : Reachable st) (provider : PullProvider) (s : Session F)
    {fuel : Nat} (hfuel : s.pager.scanBudget ≤ fuel) :
    (∀ scope, provider.pullScope = some scope → ∃ outcome pager,
      s.pager.drain (feedPullFn st scope) fuel = some (outcome, pager) ∧
        outcome.events.length ≤ s.pager.pageSize ∧ outcome.visited ≤ s.pager.scanBudget) ∧
      (loadOlderStatus hooks (feedPullFn st) provider fuel s).isSome = true ∧
      ∃ visited, visitedBy hooks (feedPullFn st) provider fuel s = some visited ∧
        visited < 2 * s.pager.scanBudget := by
  have hbudget := s.pager.budget_pos
  rw [loadOlderStatus, visitedBy]
  cases hprovider : provider.pullScope with
  | none => exact ⟨fun scope hscope => (by cases hscope), rfl, 0, rfl, by omega⟩
  | some =>
    have hpull := honours_feedPull h hprovider
    obtain ⟨l, stop, hloop, hvisited⟩ := loadLoop_bounded hooks hpull (l := ⟨s, 0, 0, false⟩) rfl
      hbudget hfuel ((Nat.sub_le _ _).trans hfuel)
    refine ⟨fun scope' hscope => ?_, ?_, l.visited, ?_, hvisited⟩
    · cases hscope
      obtain ⟨outcome, cursor, hdrained, hevents, hrows, -⟩ := drain_within hpull hfuel
      exact ⟨outcome, _, hdrained, hevents, hrows⟩
    · dsimp only
      rw [hloop]
      dsimp only
      split <;> rfl
    · dsimp only
      rw [hloop]
      rfl

end Loads

/-- A feed that shows none of the rows it is given. -/
def hidingFeed : Hooks Unit := ⟨fun _ _ => ((), false), none, id⟩

def reactionsOnly : PullProvider :=
  .one (some { PlannerShape.InterestShape.default with kinds := SortedSet.ofList [7] })

theorem two_kinds_bounded : ∃ visited,
    visitedBy hidingFeed (feedPullFn (Runs.run act .new twoKinds)) reactionsOnly 4000
        ⟨.atStart, (), []⟩ = some visited ∧ visited < 2 * FeedPullPager.atStart.scanBudget :=
  (load_bounded hidingFeed ⟨twoKinds, rfl⟩ reactionsOnly ⟨.atStart, (), []⟩ (by decide)).2.2

/-- A reaction, a note and another reaction. -/
def threeRows : List Action :=
  [.insert (arrivalOf '1' 'a' 10 7 []), .insert (arrivalOf '2' 'a' 20 1 []),
    .insert (arrivalOf '3' 'a' 30 7 [])]

theorem run_threeRows : Runs.run act .new threeRows = accept (accept
    (accept .new (arrivalOf '1' 'a' 10 7 []))
    (arrivalOf '2' 'a' 20 1 [])) (arrivalOf '3' 'a' 30 7 []) := by
  rw [threeRows, Runs.run_cons, Runs.run_cons, Runs.run_cons, Runs.run_nil,
    act_admitted (admitted_arrivalOf (by decide) (by decide) (by decide)),
    act_admitted (admitted_arrivalOf (by decide) (by decide) (by decide)),
    act_admitted (admitted_arrivalOf (by decide) (by decide) (by decide))]

/-- The first drain visits one row, which the feed does not show; the second visits the
whole budget again. -/
theorem rejected_row_restarts_count :
    (FeedPullPager.atStart.withBudgets 1 2).scanBudget = 2 ∧
      visitedBy hidingFeed (feedPullFn (Runs.run act .new threeRows)) reactionsOnly 9
        ⟨FeedPullPager.atStart.withBudgets 1 2, (), []⟩ = some 3 := by
  rw [run_threeRows]
  exact ⟨rfl, by decide +kernel⟩

end FeedBounds
