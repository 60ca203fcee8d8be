import NostrMultiPlatform.RefRowDelta
import NostrMultiPlatform.Runs

/-!
# Convergence of the row cache

One tracker builds batches from a source that moves on, and one cache applies them
in order. While the resync latch is down the cache has, for every namespace built
under the current identity, the rows of its last build; a baseline that adopts an
identity takes the latch down for the other namespaces as well.
-/
namespace RefRowFeed

open RefRowDelta RefRows Runs Sorted Tables RefRowCache

/-- A batch to build and deliver: the source at that time, the kind of the batch, the identity of its
frame, and how the host decodes. -/
structure Build where
  source : RefRowRevSource
  ns : Namespace
  baseline : Bool
  /-- The tracker is reset before the build. -/
  reset : Bool
  sessionId : Nat
  epoch : Nat
  decodeOk : Key → Payload → Bool
  mapOrder : Table Key Nat → List Key
  mapOrder_perm : ∀ prev, (mapOrder prev).Perm prev.keys

/-- Producer and host, with the identity of the last frame, the source at the last build of each
namespace under it, and all sources so far. -/
structure Feed where
  tracker : RefRowDeltaTracker
  cache : RefRowCache
  sessionId : Nat
  epoch : Nat
  /-- The identity has changed since the start. -/
  moved : Bool
  built : Table Namespace RefRowRevSource
  sources : List RefRowRevSource

def Feed.start (sessionId epoch : Nat) : Feed := ⟨.new, .new, sessionId, epoch, false, ∅, []⟩

def changes (f : Feed) (b : Build) : Bool := b.sessionId ≠ f.sessionId || b.epoch ≠ f.epoch

/-- Under another identity nothing is built yet. -/
def enter (f : Feed) (b : Build) : Feed :=
  let tracker := if b.reset then f.tracker.reset else f.tracker
  if changes f b then
    { f with
      tracker := tracker, sessionId := b.sessionId, epoch := b.epoch, moved := true, built := ∅ }
  else { f with tracker := tracker }

def emit (f : Feed) (b : Build) : Feed :=
  let out := if b.baseline then f.tracker.buildBaseline b.ns b.source
    else f.tracker.buildIncremental b.ns b.source b.mapOrder
  { f with
    tracker := out.1
    cache := (f.cache.apply out.2 b.sessionId b.epoch b.decodeOk).1
    built := f.built.insert b.ns b.source
    sources := f.sources ++ [b.source] }

def feed (f : Feed) (b : Build) : Feed := emit (enter f b) b

/-- The source keeps its contract; the identity changes, and the tracker is reset, only together with
a baseline of each namespace. -/
structure Orderly (f : Feed) (b : Build) : Prop where
  live : Live b.source
  follows : ∀ old ∈ f.sources, Follows old b.source
  known : b.baseline = false → changes f b = false ∧ (f.moved = true → b.ns ∈ f.built)
  reset : b.reset = true → changes f b = true

/-- A baselined cache without the latch shows what was live at the last builds. -/
def Converged (f : Feed) : Prop :=
  f.cache.baselined = true → f.cache.needsResync = false →
    ∀ ns source, f.built.lookup ns = some source → f.cache.snapshot ns = liveMap source ns

/-- Every payload of the namespace decodes. -/
def Decodes (b : Build) : Prop :=
  ∀ key ∈ b.source.refRowKeys b.ns, ∀ payload, b.source.refRowPayload b.ns key = some payload →
    b.decodeOk key payload = true

/-- A baseline that decodes and adopts its identity is the first one built under it, unless the ones
before were of the same namespace. -/
def First (f : Feed) (b : Build) : Prop :=
  b.baseline = true → f.cache.identityChanged b.sessionId b.epoch = true → Decodes b →
    changes f b = false → ∀ ns ∈ f.built, ns = b.ns

/-- The rows of the last build, none where nothing was built. -/
def base (f : Feed) (ns : Namespace) (key : Key) : Option CachedRow :=
  (f.built.lookup ns).bind fun source => liveRow source ns key

/-- Namespaces an incremental batch may be built for. -/
def Known (f : Feed) (ns : Namespace) : Prop := f.moved = false ∨ ns ∈ f.built

structure InStep (f : Feed) : Prop where
  recent : ∀ ns source, f.built.lookup ns = some source → source ∈ f.sources
  tracked : ∀ ns, Known f ns → ∀ key,
    (f.tracker.emitted ns).lookup key = (base f ns key).map (·.rev)
  applied : f.cache.needsResync = false → ∀ ns ∈ f.built,
    f.cache.identityChanged f.sessionId f.epoch = false
  synced : f.cache.needsResync = false → ∀ ns, Known f ns → ∀ key,
    f.cache.rowAt ns key = base f ns key
  pending : f.cache.identityChanged f.sessionId f.epoch = true → ∀ ns source,
    f.built.lookup ns = some source → ∃ key row, liveRow source ns key = some row

variable {f : Feed} {b : Build}

variable {ns : Namespace}

theorem base_of_built {source : RefRowRevSource} (h : f.built.lookup ns = some source) (key : Key) :
    base f ns key = liveRow source ns key := by
  rw [base, h, Option.bind_some]

theorem base_of_not_built (h : ns ∉ f.built) (key : Key) : base f ns key = none := by
  rw [base, AList.lookup_eq_none.mpr h, Option.bind_none]

theorem inStep_start (sessionId epoch : Nat) : InStep (.start sessionId epoch) where
  recent _ _ h := absurd h nofun
  tracked _ _ _ := rfl
  applied _ _ h := absurd h (AList.notMem_empty _)
  synced _ _ _ _ := rfl
  pending _ _ _ h := absurd h nofun

theorem InStep.converged (h : InStep f) : Converged f := by
  intro _ hlatch ns source hbuilt
  have hmem : ns ∈ f.built := (mem_iff_lookup _ _).mpr ⟨source, hbuilt⟩
  apply SortedMap.ext
  intro key
  rw [lookup_snapshot, lookup_liveMap, h.synced hlatch ns (.inr hmem), base_of_built hbuilt]

theorem enter_same (horderly : Orderly f b) (h : changes f b = false) : enter f b = f := by
  have hreset : b.reset = false := by
    by_contra hne
    rw [horderly.reset (Bool.not_eq_false _ ▸ hne)] at h
    cases h
  rw [enter, hreset, h]
  rfl

theorem inStep_enter (h : InStep f) (horderly : Orderly f b) : InStep (enter f b) := by
  cases hchanges : changes f b with
  | false =>
    rw [enter_same horderly hchanges]
    exact h
  | true =>
    have hbuilt : (enter f b).built = ∅ := by rw [enter, hchanges]; rfl
    have hmoved : (enter f b).moved = true := by rw [enter, hchanges]; rfl
    have hnone : ∀ ns, ns ∉ (enter f b).built := fun ns => hbuilt ▸ AList.notMem_empty _
    have hunknown : ∀ ns, ¬ Known (enter f b) ns := by
      rintro ns (hmoved' | hmem)
      · exact absurd (hmoved'.symm.trans hmoved) nofun
      · exact hnone ns hmem
    refine ⟨fun ns source hlookup => ?_, fun ns hknown => absurd hknown (hunknown ns),
      fun _ ns hmem => absurd hmem (hnone ns), fun _ ns hknown => absurd hknown (hunknown ns),
      fun _ ns source hlookup => ?_⟩
    · rw [hbuilt] at hlookup
      cases hlookup
    · rw [hbuilt] at hlookup
      cases hlookup

theorem identity_enter (f : Feed) (b : Build) :
    (enter f b).sessionId = b.sessionId ∧ (enter f b).epoch = b.epoch := by
  cases hchanges : changes f b with
  | true => rw [enter, hchanges]; exact ⟨rfl, rfl⟩
  | false =>
    have hsame : b.sessionId = f.sessionId ∧ b.epoch = f.epoch := by
      simpa [changes] using hchanges
    rw [enter, hchanges]
    exact ⟨hsame.1.symm, hsame.2.symm⟩

/-- What a build asks of the feed it finds, once the identity is its own. -/
structure Ready (f : Feed) (b : Build) : Prop where
  session : f.sessionId = b.sessionId
  epoch : f.epoch = b.epoch
  live : Live b.source
  follows : ∀ old ∈ f.sources, Follows old b.source
  known : b.baseline = false → Known f b.ns

theorem ready_enter (horderly : Orderly f b) : Ready (enter f b) b where
  session := (identity_enter f b).1
  epoch := (identity_enter f b).2
  live := horderly.live
  follows old hold := by
    refine horderly.follows old ?_
    rw [enter] at hold
    split at hold
    next => exact hold
    next => exact hold
  known hincremental := by
    obtain ⟨hsame, hmoved⟩ := horderly.known hincremental
    rw [enter_same horderly hsame]
    cases hm : f.moved with
    | false => exact .inl hm
    | true => exact .inr (hmoved hm)

theorem base_emit (f : Feed) (b : Build) (ns : Namespace) (key : Key) :
    base (emit f b) ns key = if ns = b.ns then liveRow b.source ns key else base f ns key := by
  have hbuilt : (emit f b).built.lookup ns = if ns = b.ns then some b.source
      else f.built.lookup ns := lookup_insert_eq ..
  rw [base, hbuilt]
  split
  next => rfl
  next => rfl

theorem known_emit (h : Known (emit f b) ns) (hne : ns ≠ b.ns) : Known f ns := by
  rcases h with hmoved | hmem
  · exact .inl hmoved
  · exact .inr ((AList.mem_insert f.built).mp hmem |>.resolve_left hne)

theorem recent_emit (h : InStep f) {source : RefRowRevSource}
    (hlookup : (emit f b).built.lookup ns = some source) : source ∈ (emit f b).sources := by
  have hbuilt : (emit f b).built.lookup ns = if ns = b.ns then some b.source
      else f.built.lookup ns := lookup_insert_eq ..
  rw [hbuilt] at hlookup
  split at hlookup
  next =>
    obtain rfl := Option.some.inj hlookup
    exact List.mem_append_right _ List.mem_cons_self
  next => exact List.mem_append_left _ (h.recent ns source hlookup)

theorem follows_base (h : InStep f) (hready : Ready f b) (key : Key) (r r' : CachedRow)
    (hr : base f ns key = some r) (hr' : liveRow b.source ns key = some r') :
    r.rev ≤ r'.rev ∧ (r.rev = r'.rev → r = r') := by
  cases hbuilt : f.built.lookup ns with
  | none =>
    rw [base, hbuilt] at hr
    cases hr
  | some source =>
    rw [base_of_built hbuilt] at hr
    exact (hready.follows source (h.recent ns source hbuilt)).rows hr hr'

theorem tracked_emit (h : InStep f) (hready : Ready f b) (hknown : Known (emit f b) ns) (key : Key)
    :
    ((emit f b).tracker.emitted ns).lookup key = (base (emit f b) ns key).map (·.rev) := by
  rw [base_emit]
  by_cases hns : ns = b.ns
  · subst hns
    rw [if_pos rfl, emit]
    cases hbaseline : b.baseline with
    | true => exact emitted_buildBaseline f.tracker b.ns b.source key
    | false =>
      exact emitted_buildIncremental hready.live (h.tracked b.ns (hready.known hbaseline))
        (follows_base h hready) b.mapOrder key
  · rw [if_neg hns, ← h.tracked ns (known_emit hknown hns), emit]
    cases b.baseline with
    | true | false => exact congrArg (·.lookup key) ((emitted_insert ..).trans (if_neg hns))

theorem changed_isSome {decodeOk : Key → Payload → Bool} {rows : List RefRow}
    (h : ∀ row ∈ rows, decodeOk row.key row.payload = true) (scratch : Table Key CachedRow) :
    (scratchOf decodeOk rows scratch).isSome = true := by
  induction rows generalizing scratch with
  | nil => rfl
  | cons row _ ih =>
    have hrest := fun r hr => h r (List.mem_cons_of_mem row hr)
    rw [scratchOf]
    cases row.state with
    | cleared => exact ih hrest _
    | changed =>
      dsimp only
      rw [if_pos (h row List.mem_cons_self)]
      split
      next => exact ih hrest _
      next => exact ih hrest _

theorem scratchOf_of_decodes (h : Decodes b) (tracker : RefRowDeltaTracker) :
    ∃ t, scratchOf b.decodeOk (tracker.buildBaseline b.ns b.source).2.rows ∅ = some t := by
  refine Option.isSome_iff_exists.mp (changed_isSome (fun row hrow => ?_) ∅)
  obtain ⟨key, hkey, hmade⟩ := List.mem_filterMap.mp hrow
  obtain ⟨payload, hpayload, rfl⟩ := Option.map_eq_some_iff.mp hmade
  exact h key (mem_sortedKeys.mp hkey) payload hpayload

theorem decodes_of_scratchOf {decodeOk : Key → Payload → Bool} {rows : List RefRow}
    {scratch t : Table Key CachedRow} (h : scratchOf decodeOk rows scratch = some t) :
    ∀ row ∈ rows, row.state = .changed → decodeOk row.key row.payload = true := by
  induction rows generalizing scratch with
  | nil => simp
  | cons row rest ih =>
    rw [scratchOf] at h
    cases hstate : row.state with
    | cleared =>
      rw [hstate] at h
      intro r hr hchanged
      rcases List.mem_cons.mp hr with rfl | hlater
      · cases hstate.symm.trans hchanged
      · exact ih h r hlater hchanged
    | changed =>
      rw [hstate] at h
      dsimp only at h
      split at h
      next hok =>
        have hrest : ∀ r ∈ rest, r.state = .changed → decodeOk r.key r.payload = true := by
          split at h
          next => exact ih h
          next => exact ih h
        intro r hr hchanged
        rcases List.mem_cons.mp hr with rfl | hlater
        · exact hok
        · exact hrest r hlater hchanged
      next => cases h

theorem decodes_of_committed {tracker : RefRowDeltaTracker} {t : Table Key CachedRow}
    (h : scratchOf b.decodeOk (tracker.buildBaseline b.ns b.source).2.rows ∅ = some t) :
    Decodes b := by
  intro key hkey payload hpayload
  refine decodes_of_scratchOf h (.changed key (b.source.refRowRev b.ns key) payload)
    (List.mem_filterMap.mpr ⟨key, mem_sortedKeys.mpr hkey, ?_⟩) rfl
  exact congrArg (Option.map _) hpayload

/-- The cache after a baseline that does not decode. -/
theorem cache_baseline_failed (hbaseline : b.baseline = true)
    (h : scratchOf b.decodeOk (f.tracker.buildBaseline b.ns b.source).2.rows ∅ = none) :
    (emit f b).cache = { f.cache with needsResync := true } := by
  have hbatch : (f.tracker.buildBaseline b.ns b.source).2.baseline = true := rfl
  rw [emit, hbaseline, if_pos rfl, apply, hbatch, if_pos rfl, applyBaseline, h]

/-- The cache after a baseline that decodes. -/
theorem cache_baseline (hbaseline : b.baseline = true) {t : Table Key CachedRow}
    (h : scratchOf b.decodeOk (f.tracker.buildBaseline b.ns b.source).2.rows ∅ = some t) :
    (emit f b).cache = if f.cache.identityChanged b.sessionId b.epoch then
        ⟨(∅ : Table Namespace (Table Key CachedRow)).insert b.ns t, b.sessionId, b.epoch, true, false⟩
      else { f.cache with rows := f.cache.rows.insert b.ns t, baselined := true } := by
  have hbatch : (f.tracker.buildBaseline b.ns b.source).2.baseline = true := rfl
  rw [emit, hbaseline, if_pos rfl, apply, hbatch, if_pos rfl, applyBaseline, h]
  cases f.cache.identityChanged b.sessionId b.epoch with
  | true | false => rfl

theorem cache_incremental (hincremental : b.baseline = false) :
    (emit f b).cache = if f.cache.identityChanged b.sessionId b.epoch then
        { f.cache with
          appliedSession := b.sessionId, appliedEpoch := b.epoch, baselined := false,
          needsResync := true }
      else (applyIncremental b.decodeOk (f.tracker.buildIncremental b.ns b.source b.mapOrder).2
        f.cache).1 := by
  have hbatch : (f.tracker.buildIncremental b.ns b.source b.mapOrder).2.baseline = false := rfl
  rw [emit, hincremental, if_neg Bool.false_ne_true, apply, hbatch,
    if_neg Bool.false_ne_true]
  cases f.cache.identityChanged b.sessionId b.epoch with
  | true | false => rfl

theorem adopted_identity {rows : Table Namespace (Table Key CachedRow)} {sessionId epoch : Nat}
    {baselined needsResync : Bool} :
    (mk rows sessionId epoch baselined needsResync).identityChanged sessionId epoch =
      false := by
  simp [identityChanged]

theorem inStep_baseline (h : InStep f) (hready : Ready f b) (hbaseline : b.baseline = true)
    (hfirst : f.cache.identityChanged b.sessionId b.epoch = true → Decodes b →
      ∀ ns ∈ f.built, ns = b.ns) : InStep (emit f b) := by
  have hsession : (emit f b).sessionId = b.sessionId := hready.session
  have hepoch : (emit f b).epoch = b.epoch := hready.epoch
  have hrecent (ns : Namespace) (source : RefRowRevSource) :
      (emit f b).built.lookup ns = some source → source ∈ (emit f b).sources := recent_emit h
  have htracked (ns : Namespace) (hknown : Known (emit f b) ns) (key : Key) :
      ((emit f b).tracker.emitted ns).lookup key = (base (emit f b) ns key).map (·.rev) :=
    tracked_emit h hready hknown key
  cases hscratch : scratchOf b.decodeOk (f.tracker.buildBaseline b.ns b.source).2.rows ∅ with
  | none =>
    have hcache := cache_baseline_failed hbaseline hscratch
    have hlatch : (emit f b).cache.needsResync = true := by rw [hcache]
    have hdown : (emit f b).cache.needsResync ≠ false := by rw [hlatch]; exact nofun
    refine ⟨hrecent, htracked, fun hd => absurd hd hdown, fun hd => absurd hd hdown,
      fun hchanged ns source hlookup => ?_⟩
    have hbuilt : (emit f b).built.lookup ns = if ns = b.ns then some b.source
        else f.built.lookup ns := lookup_insert_eq ..
    rw [hbuilt] at hlookup
    split at hlookup
    next hns =>
      obtain rfl := Option.some.inj hlookup
      rw [hns]
      exact live_of_scratchOf_none hscratch
    next =>
      rw [hsession, hepoch, ← hready.session, ← hready.epoch, hcache] at hchanged
      exact h.pending hchanged ns source hlookup
  | some =>
    have hcache := cache_baseline hbaseline hscratch
    have hlive := scratchOf_baseline hscratch
    cases hchanged : f.cache.identityChanged b.sessionId b.epoch with
    | true =>
      rw [hchanged, if_pos rfl] at hcache
      have hsame : (emit f b).cache.identityChanged (emit f b).sessionId (emit f b).epoch =
          false := by
        rw [hsession, hepoch, hcache]
        exact adopted_identity
      refine ⟨hrecent, htracked, fun _ _ _ => hsame, fun _ ns hknown key => ?_,
        fun hd => absurd (hd.symm.trans hsame) nofun⟩
      rw [rowAt_of_rows (congrArg rows hcache), base_emit]
      split
      next hns => rw [hlive, hns]
      next hns =>
        refine Eq.symm (base_of_not_built (fun hmem => hns ?_) key)
        exact hfirst hchanged (decodes_of_committed hscratch) ns hmem
    | false =>
      rw [hchanged, if_neg Bool.false_ne_true] at hcache
      have hsame : (emit f b).cache.identityChanged (emit f b).sessionId (emit f b).epoch =
          false := by
        rw [hsession, hepoch, hcache]
        exact hchanged
      have hlatch : (emit f b).cache.needsResync = f.cache.needsResync := by rw [hcache]
      refine ⟨hrecent, htracked, fun _ _ _ => hsame, fun hdown ns hknown key => ?_,
        fun hd => absurd (hd.symm.trans hsame) nofun⟩
      rw [rowAt_of_rows (congrArg rows hcache), base_emit]
      split
      next hns => rw [hlive, hns]
      next hns => exact h.synced (hlatch ▸ hdown) ns (known_emit hknown hns) key

theorem inStep_incremental (h : InStep f) (hready : Ready f b) (hincremental : b.baseline = false) :
    InStep (emit f b) := by
  have hsession : (emit f b).sessionId = b.sessionId := hready.session
  have hepoch : (emit f b).epoch = b.epoch := hready.epoch
  have hrecent (ns : Namespace) (source : RefRowRevSource) :
      (emit f b).built.lookup ns = some source → source ∈ (emit f b).sources := recent_emit h
  have htracked (ns : Namespace) (hknown : Known (emit f b) ns) (key : Key) :
      ((emit f b).tracker.emitted ns).lookup key = (base (emit f b) ns key).map (·.rev) :=
    tracked_emit h hready hknown key
  have hcache := cache_incremental (f := f) hincremental
  cases hchanged : f.cache.identityChanged b.sessionId b.epoch with
  | true =>
    rw [hchanged, if_pos rfl] at hcache
    have hdown : (emit f b).cache.needsResync ≠ false := by rw [hcache]; exact nofun
    have hsame : (emit f b).cache.identityChanged (emit f b).sessionId (emit f b).epoch =
        false := by
      rw [hsession, hepoch, hcache]
      exact adopted_identity
    exact ⟨hrecent, htracked, fun hd => absurd hd hdown, fun hd => absurd hd hdown,
      fun hd => absurd (hd.symm.trans hsame) nofun⟩
  | false =>
    rw [hchanged, if_neg Bool.false_ne_true] at hcache
    have hsame : (emit f b).cache.identityChanged (emit f b).sessionId (emit f b).epoch =
        false := by
      rw [hsession, hepoch, hcache]
      exact hchanged
    refine ⟨hrecent, htracked, fun _ _ _ => hsame, fun hdown ns hknown key => ?_,
      fun hd => absurd (hd.symm.trans hsame) nofun⟩
    rw [hcache] at hdown
    obtain ⟨hlatch, hdecoded⟩ := Bool.or_eq_false_iff.mp hdown
    have hrows := rowAt_of_rows (congrArg rows hcache) ns key
    rw [hrows, base_emit]
    by_cases hns : ns = b.ns
    · subst hns
      have hknown' := hready.known hincremental
      have hdelta := delta_buildIncremental hready.live (h.tracked b.ns hknown')
        (follows_base h hready) b.mapOrder_perm
      refine (if_pos rfl).trans (Eq.trans ?_ (if_pos rfl).symm)
      exact hdelta.merge (m := ⟨f.cache.rowsOf b.ns, ∅, false⟩)
        (fun other => h.synced hlatch b.ns hknown' other) hdecoded key
    · refine (if_neg hns).trans (Eq.trans ?_ (if_neg hns).symm)
      exact h.synced hlatch ns (known_emit hknown hns) key

/-- A build keeps the invariant unless it adopts an identity under which something else was built. -/
theorem inStep_feed (h : InStep f) (horderly : Orderly f b) (hfirst : First f b) :
    InStep (feed f b) := by
  have hentered := inStep_enter h horderly
  have hready := ready_enter horderly
  cases hbaseline : b.baseline with
  | false => exact inStep_incremental hentered hready hbaseline
  | true =>
    refine inStep_baseline hentered hready hbaseline fun hchanged hdecodes ns hmem => ?_
    cases hchanges : changes f b with
    | true =>
      rw [enter, hchanges] at hmem
      exact absurd hmem (AList.notMem_empty _)
    | false =>
      rw [enter_same horderly hchanges] at hchanged hmem
      exact hfirst hbaseline hchanged hdecodes hchanges ns hmem

theorem first_of_converged (h : InStep f) (horderly : Orderly f b) (hconverged : Converged (feed f b)) :
    First f b := by
  intro hbaseline hchanged hdecodes hchanges ns hmem
  obtain ⟨hsession, hepoch⟩ := identity_enter f b
  rw [feed] at hconverged
  rw [enter_same horderly hchanges] at hsession hepoch hconverged
  by_contra hns
  obtain ⟨source, hbuilt⟩ := (mem_iff_lookup _ _).mp hmem
  obtain ⟨t, hscratch⟩ := scratchOf_of_decodes hdecodes f.tracker
  have hcache := cache_baseline hbaseline hscratch
  rw [hchanged, if_pos rfl] at hcache
  have hbuilt' : (emit f b).built.lookup ns = some source :=
    (lookup_insert_eq ..).trans ((if_neg hns).trans hbuilt)
  have hsnapshot := hconverged (by rw [hcache]) (by rw [hcache]) ns source hbuilt'
  rw [← hsession, ← hepoch] at hchanged
  obtain ⟨key, row, hrow⟩ := h.pending hchanged ns source hbuilt
  have hnone : ((emit f b).cache.snapshot ns).lookup key = none := by
    rw [lookup_snapshot, rowAt_of_rows (congrArg rows hcache), if_neg hns]
    rfl
  rw [hsnapshot, lookup_liveMap, hrow] at hnone
  cases hnone

/-- For any source that keeps its contract and any orderly sequence of builds, delivered in order,
whatever fails to decode: a baselined cache without the latch shows, for every namespace built under
the current identity, what was live at its last build, in every state reached, exactly if every
baseline that decodes and adopts its identity comes before builds of other namespaces under it. -/
theorem converged_iff_first (sessionId epoch : Nat) (builds : List Build)
    (h : Meets feed Orderly (.start sessionId epoch) builds) :
    (∀ before, before <+: builds → Converged (run feed (.start sessionId epoch) before)) ↔
      Meets feed First (.start sessionId epoch) builds :=
  always_iff_meets InStep Converged (fun _ _ hs horderly hfirst => inStep_feed hs horderly hfirst)
    (fun _ hs => hs.converged) (fun _ _ hs horderly hgood => first_of_converged hs horderly hgood)
    (inStep_start sessionId epoch) h

/-- A source with one live row in each namespace. -/
def aliceAndNote : RefRowRevSource where
  refRowRev _ _ := 1
  refRowKeys ns := if ns = "profile" then ["alice"] else ["note"]
  refRowPayload _ _ := some [1]

theorem aliceAndNote_live : Live aliceAndNote := fun _ _ _ => rfl

theorem aliceAndNote_follows : Follows aliceAndNote aliceAndNote :=
  fun _ _ _ _ => ⟨le_refl _, fun _ => rfl⟩

/-- A baseline of a namespace under an epoch, with a host that may refuse what it carries. -/
def baselineOf (ns : Namespace) (epoch : Nat) (decodes : Bool) : Build where
  source := aliceAndNote
  ns := ns
  baseline := true
  reset := false
  sessionId := 1
  epoch := epoch
  decodeOk _ _ := decodes
  mapOrder prev := prev.keys
  mapOrder_perm _ := .refl _

theorem orderly_baselineOf {f : Feed} (h : ∀ old ∈ f.sources, old = aliceAndNote)
    (ns : Namespace) (epoch : Nat) (decodes : Bool) : Orderly f (baselineOf ns epoch decodes) where
  live := aliceAndNote_live
  follows old hold := h old hold ▸ aliceAndNote_follows
  known := nofun
  reset := nofun

theorem orderly_baselines {f : Feed} (h : ∀ old ∈ f.sources, old = aliceAndNote)
    (builds : List (Namespace × Nat × Bool)) :
    Meets feed Orderly f (builds.map fun b => baselineOf b.1 b.2.1 b.2.2) := by
  induction builds generalizing f with
  | nil => trivial
  | cons b _ ih =>
    refine ⟨orderly_baselineOf h b.1 b.2.1 b.2.2, ih fun old hold => ?_⟩
    rcases List.mem_append.mp hold with hbefore | hnew
    · refine h old ?_
      rw [enter] at hbefore
      split at hbefore
      next => exact hbefore
      next => exact hbefore
    · exact List.mem_singleton.mp hnew

/-- The profiles and then the events of one epoch. -/
theorem baselines_converge :
    (run feed (.start 1 0) ([("profile", 1, true), ("event", 1, true)].map fun b =>
      baselineOf b.1 b.2.1 b.2.2)).cache.needsResync = false ∧
    ∀ before, before <+: [("profile", 1, true), ("event", 1, true)].map (fun b =>
        baselineOf b.1 b.2.1 b.2.2) →
      Converged (run feed (.start 1 0) before) := by
  refine ⟨by decide +kernel, (converged_iff_first 1 0 _
    (orderly_baselines (fun _ h => absurd h List.not_mem_nil)
      [("profile", 1, true), ("event", 1, true)])).mpr ⟨?_, ?_, trivial⟩⟩
  · exact fun _ _ _ hchanges => absurd hchanges (by decide +kernel)
  · exact fun _ hchanged => absurd hchanged (by decide +kernel)

/-- Under a new epoch the profiles do not decode and the events do: the events adopt the epoch and
take the latch down, and the host shows no profile where one is live. -/
theorem latch_lost :
    let f := run feed (.start 1 0)
      ([("profile", 0, true), ("event", 0, true), ("profile", 1, false), ("event", 1, true)].map
        fun b => baselineOf b.1 b.2.1 b.2.2)
    Meets feed Orderly (.start 1 0)
      ([("profile", 0, true), ("event", 0, true), ("profile", 1, false), ("event", 1, true)].map
        fun b => baselineOf b.1 b.2.1 b.2.2) ∧
    f.cache.baselined = true ∧ f.cache.needsResync = false ∧ "profile" ∈ f.built ∧
      (f.cache.snapshot "profile").lookup "alice" = none ∧
      (liveMap aliceAndNote "profile").lookup "alice" = some [1] :=
  ⟨orderly_baselines (fun _ h => absurd h List.not_mem_nil) _, by decide +kernel⟩

end RefRowFeed
