import NostrMultiPlatform.FeedDrains

/-!
# A feed replays the log

Whatever calls load it, the rows of the scope are applied once and in order. A
superseded version stays in the feed where its row and the last row that
replaces it are drained together, for the eviction comes before the version is
applied.
-/
namespace FeedReplay

open ThreadGrouper (KernelEvent)
open PlannerShape (InterestShape)
open Sorted StoreState StoreActions StoreLog StorePull RetainedLog Stretches FeedPull FeedDrains
open FeedPullPager
open StoreStep

variable {F : Type} {st : MemState} {scope : PullScope} {shapes : List InterestShape}
  {hooks : Hooks F} {sources : F → Set String} {pager : FeedPullPager} {feed : F}

/-- A row of the log that the scope matches. -/
def Row (st : MemState) (scope : PullScope) (e : StoreLogEntry) : Prop :=
  e ∈ st.ingestLog ∧ Supported scope ∧ InScope st scope e

/-- Where the drains of a pager end. -/
def drainEnd (st : MemState) (scope : PullScope) (pager : FeedPullPager) : Nat → Nat :=
  boundary (matching st scope) pager.pageSize pager.scanBudget st.ingestLog

/-- A drain ends between the two rows. -/
def DrainedLater (st : MemState) (scope : PullScope) (pager : FeedPullPager)
    (e r : StoreLogEntry) : Prop :=
  ∃ k, e.seq ≤ drainEnd st scope pager k ∧ drainEnd st scope pager k < r.seq

/-- The event id that the row carries. -/
def carriedId (e : StoreLogEntry) : Option String := e.rawEvent.map (·.id)

theorem mem_matchingRows (h : LogWindow st.ingestLog st) {lo hi : Nat} {e : StoreLogEntry} :
    e ∈ matchingRows st scope lo hi ↔ Row st scope e ∧ lo < e.seq ∧ e.seq ≤ hi := by
  rw [matchingRows, List.mem_filter, mem_segment h.numbered, matching_iff, Row]
  constructor
  · rintro ⟨⟨hmem, hbounds⟩, hmatch⟩
    exact ⟨⟨hmem, hmatch⟩, hbounds⟩
  · rintro ⟨⟨hmem, hmatch⟩, hbounds⟩
    exact ⟨⟨hmem, hbounds⟩, hmatch⟩

theorem carriedId_eq (hscope : ShapeScope scope shapes) {e : StoreLogEntry} (h : Row st scope e)
    {x : String} :
    carriedId e = some x ↔ ∃ event, rawToKernelEvent e = some event ∧ event.id = x := by
  obtain ⟨raw, event, hraw, hevent, hid⟩ := exists_event hscope ((matching_iff st scope e).mpr h.2)
  rw [carriedId, hraw, hevent, Option.map_some, Option.some.injEq, ← hid]
  simp

/-- After `k` drains from the start of the log: the rows up to the cursor are applied in order, and
an event is there where it was and no row replaced it, or where it was applied and none of a later
drain replaced it. -/
structure Replayed (st : MemState) (scope : PullScope) (sources : F → Set String)
    (pager : FeedPullPager) (feed : F) (k : Nat) (s : Session F) : Prop where
  cursor : s.pager = { pager with afterSeq := drainEnd st scope pager k }
  applied : applied s =
    (matchingRows st scope 0 (drainEnd st scope pager k)).filterMap rawToKernelEvent
  present : ∀ x, x ∈ sources s.feed ↔
    (x ∈ sources feed ∧ ∀ r, Row st scope r → r.seq ≤ drainEnd st scope pager k →
      replacedIdOf r ≠ some x) ∨
    ∃ e, Row st scope e ∧ e.seq ≤ drainEnd st scope pager k ∧ carriedId e = some x ∧
      ∀ r, Row st scope r → r.seq ≤ drainEnd st scope pager k → replacedIdOf r = some x →
        ¬ DrainedLater st scope pager e r

theorem replayed_start (hcursor : pager.afterSeq = 0) (h : LogWindow st.ingestLog st) :
    Replayed st scope sources pager feed 0 ⟨pager, feed, []⟩ where
  cursor := by
    show pager = { pager with afterSeq := 0 }
    rw [← hcursor]
  applied := by
    show [] = (matchingRows st scope 0 0).filterMap rawToKernelEvent
    rw [matchingRows, segment_self]
    rfl
  present x := by
    have hnone : ∀ r, Row st scope r → ¬ r.seq ≤ drainEnd st scope pager 0 := fun r hr hle => by
      have hpos := (h.bounds hr.1).1
      have hzero : drainEnd st scope pager 0 = 0 := rfl
      omega
    constructor
    · exact fun hx => .inl ⟨hx, fun r hr hle => absurd hle (hnone r hr)⟩
    · rintro (hx | ⟨e, he, hle, -⟩)
      · exact hx.1
      · exact absurd hle (hnone e he)

/-- One more drain. -/
theorem Replayed.perform (h : LogWindow st.ingestLog st) (hscope : ShapeScope scope shapes)
    {k : Nat} {l l' : Loading F} (hreplayed : Replayed st scope sources pager feed k l.session)
    {outcome : DrainOutcome}
    (hturn : Turn st scope (drainEnd st scope pager k) (drainEnd st scope pager (k + 1)) outcome)
    (hperformed : Performed sources l outcome
      { pager with afterSeq := drainEnd st scope pager (k + 1) } l') :
    Replayed st scope sources pager feed (k + 1) l'.session := by
  have hle : drainEnd st scope pager k ≤ drainEnd st scope pager (k + 1) := Nat.le_add_right _ _
  refine ⟨hperformed.pager, ?_, fun x => ?_⟩
  · rw [hperformed.applied, hreplayed.applied, hturn.events, ← List.filterMap_append, matchingRows,
      matchingRows, ← List.filter_append, segment_append (Nat.zero_le _) hle, ← matchingRows]
  -- what this drain evicts and applies, in terms of the rows it covers
  have hevicts : x ∈ outcome.replacedIds ↔ ∃ r, Row st scope r ∧
      drainEnd st scope pager k < r.seq ∧ r.seq ≤ drainEnd st scope pager (k + 1) ∧
      replacedIdOf r = some x := by
    simp only [hturn.replacedIds, List.mem_filterMap, mem_matchingRows h, and_assoc]
  have happlies : (∃ event ∈ outcome.events, event.id = x) ↔ ∃ e, Row st scope e ∧
      drainEnd st scope pager k < e.seq ∧ e.seq ≤ drainEnd st scope pager (k + 1) ∧
      carriedId e = some x := by
    simp only [hturn.events, List.mem_filterMap, mem_matchingRows h]
    constructor
    · rintro ⟨event, ⟨e, ⟨he, hlo, hhi⟩, hevent⟩, hid⟩
      exact ⟨e, he, hlo, hhi, (carriedId_eq hscope he).mpr ⟨event, hevent, hid⟩⟩
    · rintro ⟨e, he, hlo, hhi, hid⟩
      obtain ⟨event, hevent, hid⟩ := (carriedId_eq hscope he).mp hid
      exact ⟨event, ⟨e, ⟨he, hlo, hhi⟩, hevent⟩, hid⟩
  rw [hperformed.sources, hreplayed.present, happlies]
  constructor
  · rintro (⟨hkept, hnot⟩ | ⟨e, he, hlo, hhi, hid⟩)
    · -- no row of this drain replaces what stays
      have hbefore : ∀ r, Row st scope r → r.seq ≤ drainEnd st scope pager (k + 1) →
          replacedIdOf r = some x → r.seq ≤ drainEnd st scope pager k := fun r hr hrle hrx => by
        by_contra hlt
        exact hnot (hevicts.mpr ⟨r, hr, Nat.lt_of_not_le hlt, hrle, hrx⟩)
      obtain ⟨hx, hnone⟩ | ⟨e, he, hele, hid, hlate⟩ := hkept
      · exact .inl ⟨hx, fun r hr hrle hrx => hnone r hr (hbefore r hr hrle hrx) hrx⟩
      · exact .inr ⟨e, he, hele.trans hle, hid, fun r hr hrle hrx =>
          hlate r hr (hbefore r hr hrle hrx) hrx⟩
    · refine .inr ⟨e, he, hhi, hid, ?_⟩
      rintro r - hrle - ⟨j, hej, hjr⟩
      have hnext : drainEnd st scope pager (k + 1) ≤ drainEnd st scope pager j :=
        boundary_next (hlo.trans_le hej)
      omega
  · rintro (⟨hx, hnone⟩ | ⟨e, he, hele, hid, hlate⟩)
    · refine .inl ⟨.inl ⟨hx, fun r hr hrle => hnone r hr (hrle.trans hle)⟩, fun hin => ?_⟩
      obtain ⟨r, hr, -, hrle, hrx⟩ := hevicts.mp hin
      exact hnone r hr hrle hrx
    · by_cases hnew : drainEnd st scope pager k < e.seq
      · exact .inr ⟨e, he, hnew, hele, hid⟩
      · have hold : e.seq ≤ drainEnd st scope pager k := Nat.le_of_not_lt hnew
        refine .inl ⟨.inr ⟨e, he, hold, hid, fun r hr hrle =>
          hlate r hr (hrle.trans hle)⟩, fun hin => ?_⟩
        obtain ⟨r, hr, hrlt, hrle, hrx⟩ := hevicts.mp hin
        exact hlate r hr hrle hrx ⟨k, hold, hrlt⟩

section Calls

variable (h : LogWindow st.ingestLog st) (hgap : st.logGcFloor = 0)
  (hseq : st.ingestSeq ≤ StoreText.u64Max) (hscope : ShapeScope scope shapes)
  (hsupported : ∃ compiled, compileShapeSet shapes = .ok compiled) (hkeeps : Keeps hooks sources)
include h hgap hseq hscope hsupported hkeeps

/-- The budget of a call is fuel enough: a drain that filled its page has read some of it. -/
theorem replayed_loop {drainFuel : Nat} (hdrain : 0 < drainFuel) {fuel k : Nat} {l : Loading F}
    (hl : Replayed st scope sources pager feed k l.session) (hmore : l.visited < pager.scanBudget)
    (hfuel : pager.scanBudget ≤ fuel + l.visited) :
    ∃ l' stop k', loadLoop hooks (feedPullFn st scope) drainFuel fuel l = some (l', stop) ∧
      Replayed st scope sources pager feed k' l'.session ∧
      (stop = .exhausted → drainEnd st scope pager k' = st.ingestSeq) := by
  induction fuel generalizing k l with
  | zero => omega
  | succ _ ih =>
    have hlength : st.ingestLog.length = st.ingestSeq := by rw [h.length, hgap, Nat.sub_zero]
    have hwithin : drainEnd st scope pager k ≤ st.ingestSeq := by
      rw [← hlength]
      exact boundary_le_length k
    obtain ⟨outcome, next, hnext, hout, hturn⟩ := drain_turn h hgap hseq hscope hsupported
      (show l.session.pager.afterSeq ≤ st.ingestSeq by rw [hl.cursor]; exact hwithin) hdrain
    rw [hl.cursor] at hnext hout hturn
    obtain rfl : next = drainEnd st scope pager (k + 1) := hnext
    have hperformed := performed hkeeps l outcome
      { pager with afterSeq := drainEnd st scope pager (k + 1) }
    have hl' := hl.perform h hscope hturn hperformed
    rw [loadLoop, hl.cursor, hout]
    dsimp only
    split
    next hcontinue =>
      have hread := hturn.filled hcontinue.1
      have hvisited := hperformed.visited
      rw [hturn.visited] at hvisited
      exact ih hl' hcontinue.2.2 (by omega)
    next hstop => exact ⟨_, _, k + 1, rfl, hl', hturn.exhausted⟩

theorem replayed_load {provider : PullProvider} (hprovider : provider.pullScope = some scope)
    {fuel k : Nat} (hfuel : pager.scanBudget ≤ fuel) {s : Session F}
    (hs : Replayed st scope sources pager feed k s) :
    ∃ s' status k', loadOlderStatus hooks (feedPullFn st) provider fuel s = some (s', status) ∧
      Replayed st scope sources pager feed k' s' ∧
      (status.reason = .sourceExhausted → drainEnd st scope pager k' = st.ingestSeq) := by
  have hbudget := pager.budget_pos
  obtain ⟨l, stop, k', hloop, hl, hend⟩ := replayed_loop h hgap hseq hscope hsupported hkeeps
    (show 0 < fuel by omega) (l := ⟨s, 0, 0, false⟩) hs hbudget hfuel
  have hreason : reasonOf stop = .sourceExhausted → stop = .exhausted := by
    cases stop <;> simp [reasonOf]
  rw [loadOlderStatus, hprovider]
  dsimp only
  rw [hloop]
  dsimp only
  split
  · refine ⟨_, _, k', rfl, ⟨hl.cursor, ?_, fun x => ?_⟩, fun hr => hend (hreason hr)⟩
    · rw [Session.runAdvance, applied_append, hl.applied]
      exact List.append_nil _
    · rw [← hl.present, Session.runAdvance, hkeeps.advance]
  · exact ⟨_, _, k', rfl, hl, fun hr => hend (hreason hr)⟩

theorem replayed_loads {provider : PullProvider} (hprovider : provider.pullScope = some scope)
    {fuel : Nat} (hfuel : pager.scanBudget ≤ fuel) {s : Session F}
    (hs : Replayed st scope sources pager feed 0 s) (n : Nat) :
    ∃ s' statuses k', loads hooks (feedPullFn st) provider fuel n s = some (s', statuses) ∧
      Replayed st scope sources pager feed k' s' ∧
      ∀ status, statuses.getLast? = some status → status.reason = .sourceExhausted →
        drainEnd st scope pager k' = st.ingestSeq := by
  induction n with
  | zero => exact ⟨s, [], 0, rfl, hs, fun _ hlast => nomatch hlast⟩
  | succ n ih =>
    obtain ⟨s', statuses, k', hloads, hs', -⟩ := ih
    obtain ⟨s'', status, k'', hload, hs'', hend⟩ :=
      replayed_load h hgap hseq hscope hsupported hkeeps hprovider hfuel hs'
    refine ⟨s'', statuses ++ [status], k'', ?_, hs'', fun last hlast hreason => ?_⟩
    · rw [loads, hloads]
      dsimp only
      rw [hload]
      rfl
    · rw [List.getLast?_concat] at hlast
      cases hlast
      exact hend hreason

end Calls

/-- Where the store cannot serve the scope, every call ends at once and does nothing. -/
theorem loads_unsupported (hscope : ShapeScope scope shapes)
    (hnot : ¬ ∃ compiled, compileShapeSet shapes = .ok compiled) {provider : PullProvider}
    (hprovider : provider.pullScope = some scope) {fuel : Nat} (hfuel : 0 < fuel) (s : Session F)
    (n : Nat) :
    ∃ statuses, loads hooks (feedPullFn st) provider fuel n s = some (s, statuses) := by
  obtain ⟨fuel, rfl⟩ : ∃ m, fuel = m + 1 := ⟨fuel - 1, by omega⟩
  have hpull : ∀ after limits,
      feedPullFn st scope after limits = .page ⟨[], after, after, false⟩ := fun after limits => by
    rw [feedPullFn, hscope.pull, pullShapesPage]
    cases hset : compileShapeSet shapes with
    | ok compiled => exact absurd ⟨compiled, hset⟩ hnot
    | error => rfl
  have hdrain : s.pager.drain (feedPullFn st scope) (fuel + 1) =
      some (⟨[], [], .exhausted, 0⟩, s.pager) := by
    rw [drain, drainLoop, hpull]
    simp [Draining.stopAfter, Draining.take]
  have hload : loadOlderStatus hooks (feedPullFn st) provider (fuel + 1) s =
      some (s, ⟨false, .sourceExhausted⟩) := by
    rw [loadOlderStatus, hprovider]
    dsimp only
    rw [loadLoop, hdrain]
    simp [Loading.perform, reasonOf]
  induction n with
  | zero => exact ⟨[], rfl⟩
  | succ n ih =>
    obtain ⟨statuses, hloads⟩ := ih
    refine ⟨statuses ++ [⟨false, .sourceExhausted⟩], ?_⟩
    rw [loads, hloads]
    dsimp only
    rw [hload]
    rfl

/-- A row of the scope replaces the event. -/
def Named (st : MemState) (scope : PullScope) (x : String) : Prop :=
  ∃ r, Row st scope r ∧ replacedIdOf r = some x

/-- The events of the rows of the scope, each once and by sequence number. -/
def InOrder (st : MemState) (scope : PullScope) (events : List KernelEvent) : Prop :=
  ∃ rows : List StoreLogEntry, rows.Pairwise (fun a b => a.seq < b.seq) ∧
    (∀ e, e ∈ rows ↔ Row st scope e) ∧ events.map some = rows.map rawToKernelEvent

/-- After each row of a replaced event a drain ends, before some row that replaces the event. -/
def Parted (st : MemState) (scope : PullScope) (pager : FeedPullPager) : Prop :=
  ∀ x e, Named st scope x → Row st scope e → carriedId e = some x →
    ∃ r, Row st scope r ∧ replacedIdOf r = some x ∧ DrainedLater st scope pager e r

/-- Over the whole log, calls that end exhausted applied the rows of the scope, each once and in
order; and no replaced event is left in the feed if and only if drains part each of its rows from a
row that replaces it. -/
theorem feed_replays (h : Reachable st) (hseq : st.ingestSeq ≤ StoreText.u64Max)
    (hgap : st.logGcFloor = 0) (hkeeps : Keeps hooks sources) {provider : PullProvider}
    (hprovider : provider.pullScope = some scope) (pageSize scanBudget : Nat) (feed : F) (n : Nat)
    {fuel : Nat} (hfuel : maxPullScanBudget ≤ fuel) :
    ∃ s statuses, loads hooks (feedPullFn st) provider fuel n
        ⟨atStart.withBudgets pageSize scanBudget, feed, []⟩ = some (s, statuses) ∧
      ∀ status, statuses.getLast? = some status → status.reason = .sourceExhausted →
        InOrder st scope (applied s) ∧
        ((∀ x, Named st scope x → x ∉ sources s.feed) ↔
          Parted st scope (atStart.withBudgets pageSize scanBudget)) := by
  have hwindow := whole_log h hgap
  obtain ⟨shapes, hscope⟩ := exists_shapes hprovider
  have hmax : 0 < maxPullScanBudget := by decide
  by_cases hsupported : ∃ compiled, compileShapeSet shapes = .ok compiled
  · generalize hpager : atStart.withBudgets pageSize scanBudget = pager
    have hbudget : pager.scanBudget ≤ fuel := by
      rw [← hpager]
      show max 1 (min scanBudget maxPullScanBudget) ≤ fuel
      omega
    obtain ⟨s, statuses, k, hloads, hs, hend⟩ := replayed_loads hwindow hgap hseq hscope hsupported
      hkeeps hprovider hbudget
      (replayed_start (by rw [← hpager]; rfl) hwindow) n
    refine ⟨s, statuses, hloads, fun status hlast hreason => ?_⟩
    have hcursor := hend status hlast hreason
    have hall : ∀ e, Row st scope e → e.seq ≤ drainEnd st scope pager k := fun e he => by
      rw [hcursor]
      exact (hwindow.bounds he.1).2
    constructor
    · refine ⟨matchingRows st scope 0 (drainEnd st scope pager k), ?_, fun e => ?_, ?_⟩
      · refine (Window.increasing hwindow).sublist ?_
        exact List.filter_sublist.trans ((List.drop_sublist _ _).trans (List.take_sublist _ _))
      · rw [mem_matchingRows hwindow]
        exact ⟨fun he => he.1, fun he => ⟨he, (hwindow.bounds he.1).1.trans_le' (Nat.zero_le _),
          hall e he⟩⟩
      · rw [hs.applied, List.map_filterMap_some_eq_filter_map_isSome, List.filter_eq_self]
        intro result hresult
        obtain ⟨e, he, rfl⟩ := List.mem_map.mp hresult
        obtain ⟨raw, event, -, hevent, -⟩ := exists_event hscope (List.mem_filter.mp he).2
        rw [hevent, Option.isSome_some]
    · constructor
      · intro hclean x e hnamed he hid
        by_contra hnone
        refine hclean x hnamed ((hs.present x).mpr (.inr ⟨e, he, hall e he, hid, ?_⟩))
        exact fun r hr _ hrx hlater => hnone ⟨r, hr, hrx, hlater⟩
      · intro hparted x hnamed hx
        obtain ⟨-, hnone⟩ | ⟨e, he, -, hid, hlate⟩ := (hs.present x).mp hx
        · obtain ⟨r, hr, hrx⟩ := hnamed
          exact hnone r hr (hall r hr) hrx
        · obtain ⟨r, hr, hrx, hlater⟩ := hparted x e hnamed he hid
          exact hlate r hr (hall r hr) hrx hlater
  · have hnorow : ∀ e, ¬ Row st scope e := fun e he => by
      have hmatch := (matching_iff st scope e).mpr he.2
      rw [hscope.matching] at hmatch
      exact hsupported ((shapesMatch_iff st shapes e).mp hmatch).1
    obtain ⟨statuses, hloads⟩ := loads_unsupported hscope hsupported hprovider
      (show 0 < fuel by omega) ⟨atStart.withBudgets pageSize scanBudget, feed, []⟩ n
    refine ⟨_, statuses, hloads, fun _ _ _ => ⟨⟨[], .nil, fun e => ?_, rfl⟩, ?_⟩⟩
    · exact iff_of_false (List.not_mem_nil) (hnorow e)
    · refine iff_of_true (fun x hx => ?_) fun x e _ he => absurd he (hnorow e)
      obtain ⟨r, hr, -⟩ := hx
      exact absurd hr (hnorow r)

def idHooks : Hooks (List String) where
  apply event ids := (event.id :: ids, true)
  replace := some fun id ids => ids.filter (· ≠ id)
  advance ids := ids

theorem keeps_idHooks : Keeps idHooks (fun ids => {x | x ∈ ids}) where
  apply event ids := by
    ext x
    exact List.mem_cons
  replace := ⟨_, rfl, fun id ids => by
    ext x
    simp⟩
  advance _ := rfl

theorem feed_replays_reactions : (Runs.run act .new twoKinds).ingestSeq = 2 ∧
    ∃ s statuses, loads idHooks (feedPullFn (Runs.run act .new twoKinds))
        (.one (some { InterestShape.default with kinds := SortedSet.ofList [7] })) 4000 1
        ⟨atStart.withBudgets 1 1, [], []⟩ = some (s, statuses) ∧
      ∀ status, statuses.getLast? = some status → status.reason = .sourceExhausted →
        InOrder (Runs.run act .new twoKinds) reactions (applied s) ∧
        ((∀ x, Named (Runs.run act .new twoKinds) reactions x → x ∉ {x | x ∈ s.feed}) ↔
          Parted (Runs.run act .new twoKinds) reactions
            (atStart.withBudgets 1 1)) := by
  obtain ⟨hseq, hfloor⟩ := twoKinds_counters
  refine ⟨hseq, feed_replays ⟨twoKinds, rfl⟩ ?_ hfloor keeps_idHooks rfl 1 1 [] 1 (by decide)⟩
  rw [hseq]
  decide

/-- Two versions of a profile, the newer one after the older. -/
def twoProfiles : List Action :=
  [.insert (arrivalOf '1' 'a' 10 0 []), .insert (arrivalOf '2' 'a' 20 0 [])]

def profiles : InterestShape := { InterestShape.default with kinds := SortedSet.ofList [0] }

theorem run_twoProfiles : Runs.run act .new twoProfiles = accept
    (accept .new (arrivalOf '1' 'a' 10 0 []))
    (arrivalOf '2' 'a' 20 0 []) := by
  rw [twoProfiles, Runs.run_cons, Runs.run_cons, Runs.run_nil,
    act_admitted (admitted_arrivalOf (by decide) (by decide) (by decide)),
    act_admitted (admitted_arrivalOf (by decide) (by decide) (by decide))]

/-- One call drains both versions, evicts the older one first, then applies both. -/
theorem superseded_lingers : (Runs.run act .new twoProfiles).logGcFloor = 0 ∧
    ((loads idHooks (feedPullFn (Runs.run act .new twoProfiles)) (.one (some profiles)) 4000 1
        ⟨atStart, [], []⟩).map fun out => (out.1.feed, out.2)) =
      some ([(arrivalOf '2' 'a' 20 0 []).event.id,
        (arrivalOf '1' 'a' 10 0 []).event.id], [⟨true, .sourceExhausted⟩]) ∧
    Named (Runs.run act .new twoProfiles) (.interestShape profiles)
      (arrivalOf '1' 'a' 10 0 []).event.id := by
  rw [run_twoProfiles]
  generalize hst : accept (accept .new (arrivalOf '1' 'a' 10 0 []))
    (arrivalOf '2' 'a' 20 0 []) = st
  have hrow : ∃ r ∈ st.ingestLog, matching st (.interestShape profiles) r = true ∧
      replacedIdOf r = some (arrivalOf '1' 'a' 10 0 []).event.id := by
    rw [← hst]
    decide +kernel
  refine ⟨by rw [← hst]; decide +kernel, by rw [← hst]; decide +kernel, ?_⟩
  obtain ⟨r, hr, hmatch, hreplaced⟩ := hrow
  exact ⟨r, ⟨hr, (matching_iff _ _ r).mp hmatch⟩, hreplaced⟩

end FeedReplay
