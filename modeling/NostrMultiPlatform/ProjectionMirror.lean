import NostrMultiPlatform.ProjectionPresence
import NostrMultiPlatform.ProjectionRows

/-!
# The host mirrors the kernel

A frame says at most one thing about a projection. What it says is what the host is
to see, unless a change is lost in a counter that has run full; and a projection
that ended is cleared once, unless something else clears it again.
-/
namespace ProjectionMirror

open ProjectionMerge (Bytes WireProjectionState)
open ProjectionRevs ProjectionRevTracker ProjectionFrames ProjectionPresence ProjectionRows Runs
open World

variable (w : World) (tick : Tick)

/-- The sources bumped since the last tick, by the kernel or by the tick itself. -/
def Bumped (source : Source) : Prop :=
  source ∈ tickBumps w.tracker tick ∨ w.bumped source = true

/-- The revision of a projection in the frame of the tick. -/
def revAt (t : ProjectionRevTracker) (tick : Tick) (key : Key) : Nat :=
  ((tickBumps t tick).foldl SourceVersions.bump t.sourceVersions).rev key

structure Kept (w : World) : Prop where
  pending : w.tracker.pendingPresence = fun _ => none
  permits : ∀ key, w.tracker.lastDeclaredPermits key =
    w.seen.map fun tick => tick.declared.permits key
  drained : ∀ key ∈ drainKeys, (w.tracker.drainPrevNonempty key).getD false =
    w.seen.any fun tick => (tick.contents.payload key).isSome
  copied : ∀ key ∈ conditionalKeys, key ∉ drainKeys →
    (w.tracker.copyPrevNonempty key).getD false =
      w.seen.any fun tick => (tick.contents.payload key).isSome
  unseen : w.seen = none → ∀ key, w.tracker.lastEmitted key = none ∧ w.everShown key = false
  epoch : ∀ key last, w.tracker.lastEmitted key = some last → w.host.epoch = some w.tracker.epoch
  grown : ∀ key last, w.tracker.lastEmitted key = some last →
    Grown last (Touches (fun dep => w.bumped dep = true) key) (w.tracker.sourceVersions.rev key)

theorem kept_new : Kept new :=
  ⟨rfl, fun _ => rfl, fun _ _ => rfl, fun _ _ _ => rfl, fun _ _ => ⟨rfl, rfl⟩, nofun, nofun⟩

theorem presenceFor_prepare {w : World} (h : Kept w) (tick : Tick) (key : Key) :
    (prepare w.tracker tick).presenceFor key =
      (gated (w.seen.map fun prev => prev.declared.permits key) (tick.declared.permits key)
        (noted w.tracker tick.contents key)).getD
          (if ((if tick.baselinePending then none else w.tracker.lastEmitted key).all fun last =>
            decide (last < revAt w.tracker tick key)) then .changed else .unchanged) := by
  rw [presenceFor_eq, prepare_eq _ _ h.pending, ← h.permits key]
  cases tick.baselinePending <;> rfl

theorem shown_eq {tick : Tick} {key : Key} {payload : Bytes} : tick.shown key = some payload ↔
    tick.declared.permits key = true ∧ tick.contents.payload key = some payload := by
  unfold Tick.shown
  split
  next hpermits => rw [and_iff_right hpermits]
  next hnot => exact iff_of_false nofun fun hboth => hnot hboth.1

theorem world_shown_eq {w : World} {key : Key} {payload : Bytes} : w.shown key = some payload ↔
    ∃ prev, w.seen = some prev ∧ prev.declared.permits key = true ∧
      prev.contents.payload key = some payload := by
  unfold shown
  rw [Option.bind_eq_some_iff]
  exact exists_congr fun prev => and_congr_right fun _ => shown_eq

/-- What the frame says about the projection. -/
def saidOf (key : Key) : Option Row :=
  said (prepare w.tracker tick) (typedRows tick.contents tick.declared) key

/-- An empty projection stays unmentioned: it is permitted as before, and, if it is a copy, none of
its sources was bumped since it was emitted. -/
def Quiet (key : Key) : Prop :=
  w.tracker.lastDeclaredPermits key = some (tick.declared.permits key) ∧
    (tick.declared.permits key = true → key ∉ drainKeys → tick.baselinePending = false ∧
      ∃ last, w.tracker.lastEmitted key = some last ∧
        (last = maxCount ∨ ¬ Touches (Bumped w tick) key))

/-- A projection that is not a drain stays unmentioned: it is permitted as before and its revision
has not grown. -/
def Stale (key : Key) : Prop :=
  key ∉ drainKeys ∧ w.tracker.lastDeclaredPermits key = some true ∧ tick.baselinePending = false ∧
    ∃ last, w.tracker.lastEmitted key = some last ∧ revAt w.tracker tick key ≤ last

theorem grown_revAt {w : World} (h : Kept w) (tick : Tick) {key : Key} {last : Nat}
    (hlast : w.tracker.lastEmitted key = some last) :
    Grown last (Touches (Bumped w tick) key) (revAt w.tracker tick key) :=
  (h.grown key last hlast).bumps (tickBumps w.tracker tick)

theorem revAt_le (t : ProjectionRevTracker) (tick : Tick) (key : Key) :
    revAt t tick key ≤ maxCount := rev_le _ key

theorem find_typedRows_shown {tick : Tick} {key : Key} (hpermits : tick.declared.permits key = true) :
    ((typedRows tick.contents tick.declared).find? fun row => row.key = key) =
      (tick.shown key).map fun payload => ⟨key, payload, 0, .changed⟩ := by
  rw [find_typedRows hpermits, rowOf, Tick.shown, if_pos hpermits]

/-- Only what has a payload is unconditional. -/
theorem conditional_of_empty {contents : Contents} {key : Key}
    (hempty : contents.payload key = none) : key ∈ conditionalKeys := by
  by_contra hnot
  have hsome := contents.unconditional key hnot
  rw [hempty] at hsome
  exact absurd hsome nofun

section Said

variable {w : World} {tick : Tick} {key : Key}

/-- A projection that the host is not to see is cleared or left out. -/
theorem said_hidden (h : Kept w) (hhidden : tick.shown key = none) : saidOf w tick key = none ∨
    ∃ rev, saidOf w tick key = some ⟨key, [], rev, .cleared⟩ := by
  unfold saidOf said
  cases hpresence : (prepare w.tracker tick).presenceFor key with
  | unchanged => exact .inl rfl
  | cleared => exact .inr ⟨_, rfl⟩
  | changed =>
    dsimp only
    cases hpermits : tick.declared.permits key with
    | true =>
      rw [find_typedRows_shown hpermits, hhidden, Option.map_none]
      dsimp only
      split
      · exact .inr ⟨_, rfl⟩
      · exact .inl rfl
    | false =>
      rw [presenceFor_prepare h, hpermits] at hpresence
      cases hseen : w.seen.map fun prev => prev.declared.permits key with
      | none => rw [hseen] at hpresence; cases hpresence
      | some before => rw [hseen] at hpresence; cases before <;> cases hpresence

/-- A projection that ended is cleared. -/
theorem said_ended (h : Kept w) (hshown : (w.shown key).isSome = true)
    (hhidden : tick.shown key = none) :
    ∃ rev, saidOf w tick key = some ⟨key, [], rev, .cleared⟩ := by
  obtain ⟨payload, hpayload⟩ := Option.isSome_iff_exists.mp hshown
  obtain ⟨prev, hseen, hbefore, hheld⟩ := world_shown_eq.mp hpayload
  have hcleared : (prepare w.tracker tick).presenceFor key = .cleared := by
    rw [presenceFor_prepare h, hseen, Option.map_some, hbefore]
    cases hpermits : tick.declared.permits key with
    | false => rfl
    | true =>
      have hempty : tick.contents.payload key = none := by
        rwa [Tick.shown, if_pos hpermits] at hhidden
      have hnoted : noted w.tracker tick.contents key = some .cleared := by
        unfold noted
        dsimp only
        rw [hempty]
        split
        next hdrain =>
          rw [h.drained key hdrain, hseen, Option.any_some, hheld]
          rfl
        next hcopy =>
          rw [if_pos (conditional_of_empty hempty),
            h.copied key (conditional_of_empty hempty) hcopy, hseen, Option.any_some, hheld]
          rfl
      rw [hnoted]
      rfl
  unfold saidOf said
  rw [hcleared]
  exact ⟨_, rfl⟩

/-- By its revision alone a projection is unchanged when that has not grown since the last tick. -/
theorem not_fresh_iff : ((if tick.baselinePending then none else w.tracker.lastEmitted key).all
    fun last => decide (last < revAt w.tracker tick key)) = false ↔
      tick.baselinePending = false ∧ ∃ last, w.tracker.lastEmitted key = some last ∧
        revAt w.tracker tick key ≤ last := by
  cases tick.baselinePending with
  | true => exact iff_of_false nofun fun hboth => absurd hboth.1 nofun
  | false =>
    cases w.tracker.lastEmitted key with
    | none => exact iff_of_false nofun fun ⟨_, last, hlast, _⟩ => absurd hlast nofun
    | some => simp

/-- One that was not there before stays unmentioned exactly when it is quiet. -/
theorem said_quiet (h : Kept w) {prev : Tick} (hseen : w.seen = some prev)
    (hbefore : w.shown key = none) (hcond : key ∈ conditionalKeys)
    (hhidden : tick.shown key = none) : saidOf w tick key = none ↔ Quiet w tick key := by
  have hdeclared := h.permits key
  rw [hseen, Option.map_some] at hdeclared
  have hpresence := presenceFor_prepare h tick key
  rw [hseen, Option.map_some] at hpresence
  unfold saidOf said Quiet
  rw [hdeclared, hpresence]
  cases hpermits : tick.declared.permits key with
  | false =>
    -- the gate alone decides
    cases prev.declared.permits key <;> simp [gated]
  | true =>
    have hempty : tick.contents.payload key = none := by
      rwa [Tick.shown, if_pos hpermits] at hhidden
    rw [find_typedRows_shown hpermits, hhidden, Option.map_none]
    cases hpermitted : prev.declared.permits key with
    | false => simp [gated, hcond]
    | true =>
      have hprev : prev.contents.payload key = none := by
        rwa [shown, hseen, Option.bind_some, Tick.shown, if_pos hpermitted] at hbefore
      by_cases hdrain : key ∈ drainKeys
      · have hnoted : noted w.tracker tick.contents key = some .unchanged := by
          unfold noted
          dsimp only
          rw [if_pos hdrain, hempty, h.drained key hdrain, hseen, Option.any_some, hprev]
          rfl
        simp [gated, hnoted, hdrain]
      · have hnoted : noted w.tracker tick.contents key = none := by
          unfold noted
          dsimp only
          rw [if_neg hdrain, if_pos hcond, hempty, h.copied key hcond hdrain, hseen,
            Option.any_some, hprev]
          rfl
        have hrule : (∃ last, w.tracker.lastEmitted key = some last ∧
            (last = maxCount ∨ ¬ Touches (Bumped w tick) key)) ↔
              ∃ last, w.tracker.lastEmitted key = some last ∧ revAt w.tracker tick key ≤ last :=
          exists_congr fun last => and_congr_right fun hlast =>
            ((grown_revAt h tick hlast).le_iff (revAt_le _ _ _)).symm
        rw [hnoted, hrule, and_iff_right rfl, imp_iff_right rfl, imp_iff_right hdrain,
          ← not_fresh_iff]
        cases ((if tick.baselinePending then none else w.tracker.lastEmitted key).all
          fun last => decide (last < revAt w.tracker tick key)) <;> simp [gated, hcond]

/-- A payload that the host is to see is sent, unless it is stale. -/
theorem said_shown (h : Kept w) {payload : Bytes} (hshown : tick.shown key = some payload) :
    (saidOf w tick key = none ∧ Stale w tick key) ∨ ¬ Stale w tick key ∧
      ∃ rev, saidOf w tick key = some ⟨key, payload, rev, .changed⟩ := by
  obtain ⟨hpermits, hpayload⟩ := shown_eq.mp hshown
  have hpresence := presenceFor_prepare h tick key
  rw [hpermits] at hpresence
  have hsent : (prepare w.tracker tick).presenceFor key = .changed →
      ∃ rev, saidOf w tick key = some ⟨key, payload, rev, .changed⟩ := by
    intro hchanged
    unfold saidOf said
    rw [hchanged, find_typedRows_shown hpermits, hshown]
    exact ⟨_, rfl⟩
  unfold Stale
  rw [h.permits key]
  by_cases hdrain : key ∈ drainKeys
  · have hnoted : noted w.tracker tick.contents key = some .changed := by
      unfold noted
      dsimp only
      rw [if_pos hdrain, hpayload]
      rfl
    refine .inr ⟨fun hstale => hstale.1 hdrain, hsent ?_⟩
    rw [hpresence, hnoted]
    cases w.seen.map fun prev => prev.declared.permits key with
    | none => rfl
    | some before => cases before <;> rfl
  · have hnoted : noted w.tracker tick.contents key = none := by
      unfold noted
      dsimp only
      rw [if_neg hdrain, hpayload]
      simp
    rw [hnoted] at hpresence
    cases hseen : w.seen with
    | none =>
      refine .inr ⟨fun hstale => absurd hstale.2.1 nofun, hsent ?_⟩
      rw [hpresence, hseen, (h.unseen hseen key).1, ite_self]
      rfl
    | some prev =>
      rw [Option.map_some]
      rw [hseen, Option.map_some] at hpresence
      cases hpermitted : prev.declared.permits key with
      | false =>
        refine .inr ⟨fun hstale => absurd hstale.2.1 (by decide), hsent ?_⟩
        rw [hpresence, hpermitted]
        rfl
      | true =>
        rw [hpermitted] at hpresence
        rw [and_iff_right hdrain, and_iff_right rfl, ← not_fresh_iff]
        cases hfresh : ((if tick.baselinePending then none else w.tracker.lastEmitted key).all
            fun last => decide (last < revAt w.tracker tick key)) with
        | true =>
          refine .inr ⟨by decide, hsent ?_⟩
          rw [hpresence, hfresh]
          rfl
        | false =>
          refine .inl ⟨?_, rfl⟩
          have hunchanged : (prepare w.tracker tick).presenceFor key = .unchanged := by
            rw [hpresence, hfresh]
            rfl
          unfold saidOf said
          rw [hunchanged]

end Said

theorem prepare_epoch {w : World} (h : Kept w) (tick : Tick) :
    (prepare w.tracker tick).epoch = w.tracker.epoch := by
  rw [prepare_eq _ _ h.pending]

theorem kept_step {w : World} (h : Kept w) (op : Op) : Kept (step w op) := by
  cases op with
  | bump source =>
    refine ⟨h.pending, h.permits, h.drained, h.copied, h.unseen, h.epoch, fun key last hlast => ?_⟩
    refine ((h.grown key last hlast).bump source).congr (exists_congr fun dep =>
      and_congr_right fun _ => ?_)
    rw [step]
    by_cases hdep : dep = source
    · simp [hdep]
    · simp [hdep]
  | bumpEpoch =>
    exact ⟨h.pending, h.permits, h.drained, h.copied, fun hseen key =>
      ⟨rfl, (h.unseen hseen key).2⟩, fun _ _ hlast => absurd hlast nofun,
      fun _ _ hlast => absurd hlast nofun⟩
  | tick tick =>
    have htracker : (step w (.tick tick)).tracker =
        { prepare w.tracker tick with
          lastEmitted := fun key => some ((prepare w.tracker tick).sourceVersions.rev key)
          pendingPresence := fun _ => none } := recordEmittedForManifest_eq _
    constructor
    · rw [htracker]
    · intro key
      rw [htracker, prepare_eq _ _ h.pending]
      rfl
    · intro key hdrain
      rw [htracker, prepare_eq _ _ h.pending]
      dsimp only
      rw [if_pos hdrain]
      rfl
    · intro key hcond hcopy
      rw [htracker, prepare_eq _ _ h.pending]
      dsimp only
      rw [if_pos ⟨hcond, hcopy⟩]
      rfl
    · exact fun hseen => absurd hseen nofun
    · intro key last _
      rw [htracker]
      rfl
    · intro key last hlast
      rw [htracker] at hlast ⊢
      obtain rfl := Option.some.inj hlast
      exact ⟨le_rfl, fun ⟨_, _, hbumped⟩ => absurd hbumped nofun, fun _ => rfl⟩

/-- The host after a tick, by what the frame says. -/
theorem host_tick {w : World} (h : Kept w) (tick : Tick) (key : Key) :
    (step w (.tick tick)).host.rows key = ((saidOf w tick key).map held).getD
      (if w.host.epoch = some w.tracker.epoch then w.host.rows key else none) := by
  have hnodup := frame_nodup (prepare w.tracker tick)
    (typedRows_nodup tick.contents tick.declared)
  have hfound := find_frame (prepare w.tracker tick)
    (typedRows_nodup tick.contents tick.declared) key
  have hrows := foldl_applyRow hnodup
    (if w.host.epoch = some (prepare w.tracker tick).epoch then w.host.rows else fun _ => none) key
  rw [hfound, prepare_epoch h] at hrows
  rw [saidOf]
  refine Eq.trans ?_ (hrows.trans ?_)
  · rw [← prepare_epoch h tick]
    rfl
  · split <;> rfl

theorem clears_tick {w : World} (tick : Tick) (key : Key) :
    (step w (.tick tick)).clears key = (if (w.shown key).isSome then 0 else w.clears key) +
      if (saidOf w tick key).any fun row => row.state = .cleared then 1 else 0 := by
  have hrows := clearedRows_eq (frame_nodup (prepare w.tracker tick)
    (typedRows_nodup tick.contents tick.declared)) key
  rw [find_frame _ (typedRows_nodup tick.contents tick.declared)] at hrows
  exact congrArg (_ + ·) hrows

/-- The host holds what it is to see, and every conditional projection that ended has been cleared
once since. -/
structure Mirrors (w : World) : Prop where
  rows : ∀ key, w.host.rows key = w.shown key
  once : ∀ key ∈ conditionalKeys, w.everShown key = true → w.shown key = none → w.clears key = 1

theorem mirrors_new : Mirrors new := ⟨fun _ => rfl, fun _ _ hever => absurd hever nofun⟩

/-- Every content that changes between two ticks has a source that was bumped. -/
def Bumps (w : World) : Op → Prop
  | .tick tick => ∀ prev, w.seen = some prev → ∀ key,
      prev.contents.payload key ≠ tick.contents.payload key → Touches (Bumped w tick) key
  | _ => True

/-- A conditional projection that ended before stays quiet, and no changed content of another one
was last sent at the full revision. -/
def Settled (w : World) : Op → Prop
  | .tick tick =>
    (∀ key ∈ conditionalKeys, w.everShown key = true → w.shown key = none →
      tick.shown key = none → Quiet w tick key) ∧
    ∀ key ∉ drainKeys, w.tracker.lastDeclaredPermits key = some true →
      (tick.shown key).isSome = true → tick.shown key ≠ w.shown key →
        tick.baselinePending = false → w.tracker.lastEmitted key ≠ some maxCount
  | _ => True

theorem ever_of_step {w : World} {tick : Tick} {key : Key}
    (hever : (step w (.tick tick)).everShown key = true) (hhidden : tick.shown key = none) :
    w.everShown key = true := by
  have hor : (w.everShown key || (tick.shown key).isSome) = true := hever
  rwa [hhidden, Option.isSome_none, Bool.or_false] at hor

theorem seen_of_ever {w : World} (h : Kept w) {key : Key} (hever : w.everShown key = true) :
    ∃ prev, w.seen = some prev := by
  cases hseen : w.seen with
  | none =>
    rw [(h.unseen hseen key).2] at hever
    exact absurd hever nofun
  | some prev => exact ⟨prev, rfl⟩

theorem mirrors_step {w : World} (h : Kept w) (hmirrors : Mirrors w) {op : Op} (hbumps : Bumps w op)
    (hsettled : Settled w op) : Mirrors (step w op) := by
  cases op with
  | bump | bumpEpoch => exact ⟨hmirrors.rows, hmirrors.once⟩
  | tick tick =>
    refine ⟨fun key => ?_, fun key hcond hever hhidden => ?_⟩
    · have hshown : (step w (.tick tick)).shown key = tick.shown key := rfl
      rw [host_tick h, hshown]
      cases hnow : tick.shown key with
      | none =>
        rcases said_hidden h hnow with hsaid | ⟨rev, hsaid⟩
        · rw [hsaid, Option.map_none, Option.getD_none, hmirrors.rows]
          cases hbefore : w.shown key with
          | none => rw [ite_self]
          | some =>
            obtain ⟨rev, hcleared⟩ := said_ended h (Option.isSome_of_eq_some hbefore) hnow
            exact absurd (hsaid.symm.trans hcleared) nofun
        · rw [hsaid]
          rfl
      | some =>
        rcases said_shown h hnow with ⟨hsaid, hstale⟩ | ⟨-, rev, hsaid⟩
        · obtain ⟨hcopy, hpermitted, hbaseline, last, hlast, hle⟩ := hstale
          rw [hsaid, Option.map_none, Option.getD_none, if_pos (h.epoch key last hlast),
            hmirrors.rows]
          by_contra hne
          -- the content changed, so that its revision is full
          have hfull : last = maxCount := by
            obtain ⟨prev, hseen, hbefore⟩ :=
              Option.map_eq_some_iff.mp ((h.permits key).symm.trans hpermitted)
            have hchanged : prev.contents.payload key ≠ tick.contents.payload key := by
              rw [shown, hseen, Option.bind_some, Tick.shown, if_pos hbefore] at hne
              rw [(shown_eq.mp hnow).2]
              exact hne
            refine ((grown_revAt h tick hlast).le_iff (revAt_le _ _ _)).mp hle |>.resolve_right ?_
            exact not_not.mpr (hbumps prev hseen key hchanged)
          refine hsettled.2 key hcopy hpermitted (Option.isSome_of_eq_some hnow) ?_ hbaseline
            (hfull ▸ hlast)
          rw [hnow]
          exact fun heq => hne heq.symm
        · rw [hsaid]
          rfl
    · rw [clears_tick]
      cases hbefore : w.shown key with
      | some =>
        obtain ⟨rev, hsaid⟩ := said_ended h (Option.isSome_of_eq_some hbefore) hhidden
        rw [hsaid]
        rfl
      | none =>
        have hold := ever_of_step hever hhidden
        obtain ⟨prev, hseen⟩ := seen_of_ever h hold
        rw [(said_quiet h hseen hbefore hcond hhidden).mpr
          (hsettled.1 key hcond hold hbefore hhidden), hmirrors.once key hcond hold hbefore]
        rfl

/-- A tick after which the host mirrors the kernel was settled. -/
theorem settled_of_mirrors {w : World} (h : Kept w) (hmirrors : Mirrors w) {op : Op}
    (hafter : Mirrors (step w op)) : Settled w op := by
  cases op with
  | bump | bumpEpoch => trivial
  | tick tick =>
    refine ⟨fun key hcond hever hbefore hhidden => ?_,
      fun key hcopy hpermitted hsome hne hbaseline hfull => ?_⟩
    · obtain ⟨prev, hseen⟩ := seen_of_ever h hever
      rw [← said_quiet h hseen hbefore hcond hhidden]
      have hstill : (step w (.tick tick)).everShown key = true := by
        have hor : (w.everShown key || (tick.shown key).isSome) = true := by rw [hever, Bool.true_or]
        exact hor
      have hcount := hafter.once key hcond hstill hhidden
      rw [clears_tick, hbefore, hmirrors.once key hcond hever hbefore] at hcount
      rcases said_hidden h hhidden with hsaid | ⟨rev, hsaid⟩
      · exact hsaid
      · rw [hsaid] at hcount
        simp at hcount
    · obtain ⟨payload, hnow⟩ := Option.isSome_iff_exists.mp hsome
      have hstale : Stale w tick key :=
        ⟨hcopy, hpermitted, hbaseline, maxCount, hfull, revAt_le _ _ _⟩
      have hsaid : saidOf w tick key = none := by
        rcases said_shown h hnow with ⟨hsaid, -⟩ | ⟨hnot, -⟩
        · exact hsaid
        · exact absurd hstale hnot
      have hrow := hafter.rows key
      rw [host_tick h, hsaid, Option.map_none, Option.getD_none, if_pos (h.epoch key _ hfull),
        hmirrors.rows] at hrow
      exact hne hrow.symm

/-- In runs whose content changes are counted, the host mirrors the kernel throughout exactly when
every tick is settled. -/
theorem mirrors_iff_settled (ops : List Op) (hbumps : Meets step Bumps new ops) :
    (∀ ran, ran <+: ops → Mirrors (run step new ran)) ↔ Meets step Settled new ops :=
  always_iff_meets (fun w => Kept w ∧ Mirrors w) Mirrors
    (fun _ op h hbumps hsettled => ⟨kept_step h.1 op, mirrors_step h.1 h.2 hbumps hsettled⟩)
    (fun _ h => h.2) (fun _ _ h _ hafter => settled_of_mirrors h.1 h.2 hafter)
    ⟨kept_new, mirrors_new⟩ hbumps

/-- Only the stages of actions and the signed events are there or not. -/
def payloads (stages signed : Option Bytes) : Contents where
  payload
    | .actionStages => stages
    | .signedEvents => signed
    | .actionResults | .actionLifecycle => none
    | _ => some []
  unconditional key hkey := by
    cases key <;> first | rfl | exact absurd (by decide) hkey

def tickOf (stages signed : Option Bytes) : Tick := ⟨payloads stages signed, .all, false, 0, 0⟩

/-- An action is dispatched, and dismissed before the next tick. -/
def dismissed : List Op :=
  [.tick (tickOf (some [1]) none), .bump .settlementEnqueue, .tick (tickOf none none)]

/-- Then an event is signed for someone. -/
def signedLater : List Op := dismissed ++ [.bump .settlementEnqueue, .tick (tickOf none (some [2]))]

theorem dismissed_bumps : Meets step Bumps new dismissed := by
  refine ⟨fun _ hseen => absurd hseen nofun, trivial, ?_, trivial⟩
  rintro _ ⟨⟩ key hchanged
  cases key with
  | actionStages => exact ⟨.settlementEnqueue, by decide, .inr rfl⟩
  | _ => exact absurd rfl hchanged

/-- In such a run the mirror of the stages is cleared when it ends, and only then. -/
theorem dismissed_mirrors : Mirrors (run step new dismissed) := by
  refine (mirrors_iff_settled dismissed dismissed_bumps).mpr ⟨?_, trivial, ?_, trivial⟩ dismissed
    List.prefix_rfl
  · exact ⟨fun _ _ hever => absurd hever nofun, fun _ _ hpermitted => absurd hpermitted nofun⟩
  · refine ⟨fun key hcond hever hbefore => ?_, fun key _ _ hsome hchanged => ?_⟩
    · simp only [conditionalKeys, List.mem_cons, List.not_mem_nil, or_false] at hcond
      rcases hcond with rfl | rfl | rfl | rfl
      · exact absurd hever nofun
      · exact absurd hever nofun
      · exact absurd hever nofun
      · exact absurd hbefore nofun
    · cases key with
      | actionStages => exact absurd hsome nofun
      | _ => exact absurd rfl hchanged

/-- The signed event clears the stages once more. -/
theorem signed_event_clears_stages : Meets step Bumps new signedLater ∧
    ¬ Mirrors (run step new signedLater) := by
  refine ⟨(meets_append _ _ _ _ _).mpr ⟨dismissed_bumps, trivial, ?_, trivial⟩, fun hmirrors => ?_⟩
  · rintro _ ⟨⟩ key hchanged
    cases key with
    | signedEvents => exact ⟨.settlementEnqueue, by decide, .inr rfl⟩
    | _ => exact absurd rfl hchanged
  · have honce := hmirrors.once .actionStages (by decide) rfl rfl
    have htwice : (run step new signedLater).clears .actionStages = 2 := by decide +kernel
    rw [htwice] at honce
    exact absurd honce (by decide)

end ProjectionMirror
