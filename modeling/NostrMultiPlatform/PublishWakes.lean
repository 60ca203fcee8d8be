import NostrMultiPlatform.PublishDeadline
import NostrMultiPlatform.PublishSettlement
import NostrMultiPlatform.PublishSilence

/-!
# What a wake of the engine does

A relay that is due when a tick comes does not stay as it is: its lane closes, or
goes past the attempt it was on. Only an answer that asks for authentication at
once walks it back. Rows wait for some relay between calls, so the deadline tells
exactly when a tick has work.
-/
namespace PublishWakes

open PublishDeadline PublishEngine PublishLanes PublishMoves PublishSettlement
open PublishSilence PublishState Runs Sorted Tables

/-- The state of a relay that was sent to after the attempt, or that is settled. -/
def Past (attempt : Nat) : PerRelayState → Prop
  | .inFlight _ later => attempt < later ∨ u32Max ≤ later
  | .relayError _ later _ => attempt < later
  | .ok _ | .failedAfterRetries .. => True
  | .pending | .timedOut .. => False

/-- The lane is past the attempt, or its relay has been parked. -/
def Gone (attempt : Nat) (v : View) : Prop :=
  (v.blocked = true ∧ ∀ l, v.lane = some l → l.state.isInFlight = false) ∨
    ∀ l, v.lane = some l → Past attempt l.state

def Closed (v : View) : Prop := ∀ l, v.lane = some l → l.state.isTerminal = true

section Steps
variable {policy : RetryPolicy} {nowMs attempt : Nat} {v v' : View} {notes : List Note} {l : Lane}

theorem past_terminal {state : PerRelayState} (h : state.isTerminal = true) :
    Past attempt state := by
  cases state with
  | ok | failedAfterRetries => trivial
  | _ => cases h

theorem past_nextAttempt (l : Lane) (h : attempt ≤ l.state.attempt) :
    Past attempt (.inFlight nowMs l.nextAttempt) := by
  change attempt < max (min (l.state.attempt + 1) u32Max) 1 ∨
    u32Max ≤ max (min (l.state.attempt + 1) u32Max) 1
  omega

theorem not_inFlight_park (l : Lane) : l.park.state.isInFlight = false := by
  unfold Lane.park
  split
  next => rfl
  next h => exact Bool.not_eq_true _ ▸ h

theorem gone_step (hmax : policy.transientMaxRetries ≤ u32Max)
    (h : LaneStep policy nowMs v notes v') (hgone : Gone attempt v) : Gone attempt v' := by
  cases h with
  | send l hready =>
    refine .inr fun l' hl' => ?_
    obtain rfl := Option.some.inj hl'
    rcases hgone with ⟨hblocked, -⟩ | hpast
    · cases hblocked
    · have hstate := hpast l rfl
      refine past_nextAttempt l ?_
      obtain ⟨state, due, sanctioned⟩ := l
      cases state with
      | relayError => exact Nat.le_of_lt hstate
      | pending | timedOut => exact hstate.elim
      | _ => cases hready
  | refuse => exact .inr fun l' hl' => Option.some.inj hl' ▸ trivial
  | fail _ later =>
    refine .inr fun l' hl' => ?_
    obtain rfl := Option.some.inj hl'
    rcases hgone with ⟨-, hflight⟩ | hpast
    · cases hflight _ rfl
    · have hstate : attempt < later ∨ u32Max ≤ later := hpast _ rfl
      change attempt < max later 1
      omega
  | settle _ _ _ _ hterminal =>
    exact .inr fun l' hl' => Option.some.inj hl' ▸ past_terminal hterminal
  | park =>
    refine .inl ⟨rfl, fun l' hl' => ?_⟩
    obtain ⟨l, -, rfl⟩ := Option.map_eq_some_iff.mp hl'
    exact not_inFlight_park l
  | close => exact .inr nofun

/-- Whatever happens to a lane that waits for no answer, it is gone past its attempt. -/
theorem gone_of_step (h : LaneStep policy nowMs ⟨some l, false⟩ notes v')
    (hflight : l.state.isInFlight = false) : Gone l.state.attempt v' := by
  cases h with
  | send =>
    exact .inr fun l' hl' => Option.some.inj hl' ▸ past_nextAttempt l le_rfl
  | refuse => exact .inr fun l' hl' => Option.some.inj hl' ▸ trivial
  | fail => cases hflight
  | settle _ _ _ hin => cases hflight.symm.trans hin
  | park =>
    refine .inl ⟨rfl, fun l' hl' => ?_⟩
    obtain rfl := Option.some.inj hl'
    exact not_inFlight_park l
  | close => exact .inr (by simp)

theorem closed_step (h : LaneStep policy nowMs v notes v') (hclosed : Closed v) : Closed v' := by
  cases h with
  | send l hready =>
    have hterminal := hclosed l rfl
    obtain ⟨state, due, sanctioned⟩ := l
    cases state with
    | ok | failedAfterRetries => cases hready
    | _ => cases hterminal
  | refuse => exact fun l' hl' => Option.some.inj hl' ▸ rfl
  | fail => cases hclosed _ rfl
  | settle _ _ _ _ hterminal =>
    exact fun l' hl' => Option.some.inj hl' ▸ hterminal
  | park =>
    intro l' hl'
    obtain ⟨l, hl, rfl⟩ := Option.map_eq_some_iff.mp hl'
    have hterminal := hclosed l hl
    obtain ⟨state, due, sanctioned⟩ := l
    cases state with
    | inFlight => cases hterminal
    | _ => exact hterminal
  | close => exact nofun

end Steps

section Work
variable {w : World} {s s' : PublishEngine} {nowMs : Nat} {handle : PublishHandle}
  {url : RelayUrl} {row : InFlight} {state : PerRelayState} {l : Lane}

/-- What every step of a lane keeps, a call keeps. -/
theorem works_keeps (inv : View → Prop) (h : Works handle url nowMs s s')
    (keep : ∀ v notes v', LaneStep s.policy nowMs v notes v' → inv v → inv v')
    (hinv : inv (viewOf s handle url)) : inv (viewOf s' handle url) := by
  obtain ⟨more, -, hsteps⟩ := h.steps
  exact hsteps.keeps keep hinv

/-- A lane that waits for no answer stays as it is or goes past its attempt. -/
theorem onward_works (hmax : s.policy.transientMaxRetries ≤ u32Max)
    (h : Works handle url nowMs s s') (hview : viewOf s handle url = ⟨some l, false⟩)
    (hflight : l.state.isInFlight = false) :
    viewOf s' handle url = ⟨some l, false⟩ ∨ Gone l.state.attempt (viewOf s' handle url) := by
  refine works_keeps (fun v => v = ⟨some l, false⟩ ∨ Gone l.state.attempt v) h
    (fun v notes v' hstep hor => .inr ?_) (.inl hview)
  rcases hor with rfl | hgone
  · exact gone_of_step hstep hflight
  · exact gone_step hmax hstep hgone

/-- A lane that is sent to by the dispatch of its handle is gone past its attempt afterwards. -/
theorem gone_dispatchAll (hmax : s.policy.transientMaxRetries ≤ u32Max) {keys : List PublishHandle}
    (hmem : handle ∈ keys) (hview : viewOf s handle url = ⟨some l, false⟩)
    (hready : l.ready nowMs = true) : Gone l.state.attempt
      (viewOf (keys.foldl (fun s key => dispatchPending w key nowMs s) s) handle url) := by
  have hflight : l.state.isInFlight = false := by
    obtain ⟨state, due, sanctioned⟩ := l
    cases state with
    | inFlight => cases hready
    | _ => rfl
  obtain ⟨before, after, rfl⟩ := List.append_of_mem hmem
  rw [List.foldl_append, List.foldl_cons]
  generalize hs₁ : before.foldl (fun s key => dispatchPending w key nowMs s) s = s₁
  have hbefore : Works handle url nowMs s s₁ := hs₁ ▸ works_dispatchAll before s
  have hleaves : Leaves nowMs fun l => l.ready nowMs = false := ⟨fun _ _ => rfl, fun _ _ _ => rfl⟩
  obtain ⟨mid, hloop, hunready, hacks⟩ := leaves_dispatchPending (w := w) hleaves s₁
    fun l (_ : viewOf s₁ handle url = ⟨some l, false⟩) hunready => hunready
  have hmid : Works handle url nowMs s mid := hbefore.trans hloop
  have hgone : Gone l.state.attempt (viewOf mid handle url) := by
    refine (onward_works hmax hmid hview hflight).resolve_left fun hsame => ?_
    cases (hunready l hsame).symm.trans hready
  have hafter : Works handle url nowMs mid
      (after.foldl (fun s key => dispatchPending w key nowMs s)
        (dispatchPending w handle nowMs s₁)) :=
    hacks.trans (works_dispatchAll after _)
  exact works_keeps (Gone l.state.attempt) hafter
    (fun v notes v' hstep h => gone_step (hmid.policy ▸ hmax) hstep h) hgone

theorem hasAnyAccepted_iff {row : InFlight} : hasAnyAccepted row = true ↔
    ∃ url state, row.perRelay.lookup url = some state ∧ state.isOk = true := by
  rw [hasAnyAccepted, List.any_eq_true]
  constructor
  · rintro ⟨r, hr, hok⟩
    exact ⟨r.1, r.2, SortedMap.lookup_eq_some.mpr hr, hok⟩
  · rintro ⟨url, state, hstate, hok⟩
    exact ⟨(url, state), SortedMap.lookup_eq_some.mp hstate, hok⟩

theorem hasAnyAccepted_sweep (policy : RetryPolicy) (nowMs : Nat)
    (h : hasAnyAccepted row = true) :
    hasAnyAccepted (sweepInflightTimeouts policy nowMs row) = true := by
  obtain ⟨url, state, hstate, hok⟩ := hasAnyAccepted_iff.mp h
  refine hasAnyAccepted_iff.mpr ⟨url, state, (SortedMap.lookup_mapRows ..).trans ?_, hok⟩
  rw [hstate, Option.map_some]
  cases state with
  | ok => rfl
  | _ => cases hok

/-- The sweeps of a tick, row by row. -/
theorem lookup_sweepAll (nowMs : Nat) (keys : List PublishHandle) (hnodup : keys.Nodup)
    (s : PublishEngine) :
    (∃ inFlight, keys.foldl (sweepRow nowMs) s = { s with inFlight := inFlight }) ∧
      ∀ handle, (keys.foldl (sweepRow nowMs) s).inFlight.lookup handle =
        if handle ∈ keys then (s.inFlight.lookup handle).map (sweptRow s nowMs)
        else s.inFlight.lookup handle := by
  induction keys generalizing s with
  | nil => exact ⟨⟨_, rfl⟩, fun _ => rfl⟩
  | cons key _ ih =>
    obtain ⟨hkey, hrest⟩ := List.nodup_cons.mp hnodup
    obtain ⟨⟨inFlight, hone⟩, -, -⟩ := sweepRow_spec key "" nowMs key s
    have hrow : ∀ handle, (sweepRow nowMs s key).inFlight.lookup handle =
        if handle = key then (s.inFlight.lookup handle).map (sweptRow s nowMs)
        else s.inFlight.lookup handle := by
      intro handle
      unfold sweepRow
      split
      next hnone =>
        split
        next heq => rw [heq, hnone, Option.map_none]
        next => rfl
      next row hrow =>
        rw [lookup_setRow]
        split
        next heq => rw [heq, hrow, Option.map_some, sweptRow]
        next => rfl
    obtain ⟨⟨inFlight', hframe⟩, hlookup⟩ := ih hrest (sweepRow nowMs s key)
    have hswept : sweptRow (sweepRow nowMs s key) nowMs = sweptRow s nowMs := by rw [hone]; rfl
    refine ⟨⟨inFlight', by rw [List.foldl_cons, hframe, hone]⟩, fun handle => ?_⟩
    rw [List.foldl_cons, hlookup, hrow, hswept]
    by_cases heq : handle = key
    · rw [if_neg (heq ▸ hkey), if_pos heq, if_pos (heq ▸ List.mem_cons_self)]
    · simp only [heq, List.mem_cons, false_or, if_false]

/-- A relay that is given up is settled by the sweeps. -/
theorem sweptRow_settles (hstate : row.perRelay.lookup url = some state)
    {since : Nat} (hlost : s.unavailableRelays.lookup url = some (some since))
    (haccepted : hasAnyAccepted row = true)
    (hlate : s.policy.inflightDeadlineMs ≤ nowMs - since) :
    ∃ after, (sweptRow s nowMs row).perRelay.lookup url = some after ∧
      after.isTerminal = true := by
  rw [sweptRow, sweepUnavailableTimeouts, if_pos (hasAnyAccepted_sweep _ _ haccepted)]
  refine ⟨_, (SortedMap.lookup_mapRows ..).trans (congrArg _ ((SortedMap.lookup_mapRows ..).trans
    (congrArg _ hstate))), ?_⟩
  rw [giveUp, hlost]
  dsimp only
  split
  next hterminal => exact hterminal
  next => rfl

/-- A lane that was ready to be sent to does not come back, unless its relay is parked. -/
theorem moved_ready (hmax : s.policy.transientMaxRetries ≤ u32Max) {keys : List PublishHandle}
    (hmem : handle ∈ keys) (hview : viewOf s handle url = ⟨some l, false⟩)
    (hready : l.ready nowMs = true) :
    let s' := finalizeCompletedRows w keys
      (keys.foldl (fun s key => dispatchPending w key nowMs s) s)
    (viewOf s' handle url).lane ≠ some l ∨ (viewOf s' handle url).blocked = true := by
  intro s'
  have hdispatch : Works handle url nowMs s
      (keys.foldl (fun s key => dispatchPending w key nowMs s) s) := works_dispatchAll keys s
  have hfinalize : Works handle url nowMs
      (keys.foldl (fun s key => dispatchPending w key nowMs s) s) s' :=
    works_finalizeCompletedRows keys _
  have hfinal := works_keeps (Gone l.state.attempt) hfinalize
    (fun v notes v' hstep h => gone_step (hdispatch.policy ▸ hmax) hstep h)
    (gone_dispatchAll hmax hmem hview hready)
  rcases hfinal with ⟨hblocked, -⟩ | hpast
  · exact .inr hblocked
  · refine .inl fun heq => ?_
    have hstate := hpast l heq
    obtain ⟨state, due, sanctioned⟩ := l
    cases state with
    | pending | timedOut => exact hstate
    | relayError => exact Nat.lt_irrefl _ hstate
    | _ => cases hready

/-- A lane whose attempt the sweep ended does not wait for an answer to it again. -/
theorem moved_expired (hmax : s.policy.transientMaxRetries ≤ u32Max) {sentAtMs attempt : Nat}
    {due : Option Nat} {sanctioned : Bool}
    (hlate : s.policy.inflightDeadlineMs ≤ nowMs - sentAtMs)
    (hview : viewOf s handle url =
      ⟨some (Lane.expire s.policy nowMs ⟨.inFlight sentAtMs attempt, due, sanctioned⟩), false⟩)
    (h : Works handle url nowMs s s') :
    (viewOf s' handle url).lane ≠ some ⟨.inFlight sentAtMs attempt, due, sanctioned⟩ := by
  intro heq
  rw [Lane.expire, PublishEngine.expire, if_pos hlate] at hview
  split at hview
  next =>
    have hclosed : Closed (viewOf s handle url) := by
      rw [hview]
      exact fun l hl => Option.some.inj hl ▸ rfl
    cases works_keeps Closed h (fun v notes v' => closed_step) hclosed _ heq
  next hleft =>
    rcases onward_works hmax h hview rfl with hsame | ⟨-, hflight⟩ | hpast
    · rw [hsame] at heq
      cases heq
    · cases hflight _ heq
    · have hstate : attempt < attempt ∨ u32Max ≤ attempt := hpast _ heq
      omega

/-- A relay that is due does not stay as it is, unless it is parked. -/
theorem moved_tick (hmax : s.policy.transientMaxRetries ≤ u32Max)
    (hrow : s.inFlight.lookup handle = some row) (hstate : row.perRelay.lookup url = some state)
    (hdue : Due s.policy s.unavailableRelays nowMs row url state) :
    (viewOf (tick w nowMs s) handle url).lane ≠ (viewOf s handle url).lane ∨
      s.unavailableRelays.lookup url = none ∧
        (viewOf (tick w nowMs s) handle url).blocked = true := by
  have hmem : handle ∈ w.rowOrder s.inFlight := (w.rowOrder_perm _).symm.subset
    (AList.mem_keys.mp ((mem_iff_lookup _ _).mpr ⟨row, hrow⟩))
  have hnodup : (w.rowOrder s.inFlight).Nodup :=
    (w.rowOrder_perm _).nodup_iff.mpr s.inFlight.keys_nodup
  obtain ⟨⟨inFlight, hframe⟩, hlookup⟩ := lookup_sweepAll nowMs _ hnodup s
  have hlane : (viewOf s handle url).lane =
      some ⟨state, row.pendingRetries.lookup url, row.sanctioned url⟩ := by
    rw [viewOf_row hrow]
    exact laneIn_state hstate
  obtain ⟨-, hswept⟩ := swept_all w handle url nowMs s
  generalize hs₁ : (w.rowOrder s.inFlight).foldl (sweepRow nowMs) s = s₁ at hframe hlookup hswept
  have hpolicy : s₁.policy = s.policy := by rw [hframe]
  have hrest : Works handle url nowMs s₁ (tick w nowMs s) := by
    rw [tick, hs₁]
    exact (works_dispatchAll _ _).trans (works_finalizeCompletedRows _ _)
  rw [hlane]
  unfold Due at hdue
  cases hlost : s.unavailableRelays.lookup url with
  | some =>
    rw [hlost] at hdue
    obtain ⟨hopen, haccepted, since, rfl, hlate⟩ := hdue
    obtain ⟨after, hafter, hterminal⟩ := sweptRow_settles hstate hlost haccepted hlate
    have hrow₁ := hlookup handle
    rw [if_pos hmem, hrow, Option.map_some] at hrow₁
    have hclosed : Closed (viewOf s₁ handle url) := by
      intro l hl
      rw [viewOf_row hrow₁, laneIn_state hafter] at hl
      obtain rfl := Option.some.inj hl
      exact hterminal
    refine .inl fun heq => ?_
    have hlast := works_keeps Closed hrest (fun v notes v' => closed_step) hclosed _ heq
    cases hopen.symm.trans hlast
  | none =>
    rw [hlost] at hdue
    let l : Lane := ⟨state, row.pendingRetries.lookup url, row.sanctioned url⟩
    have hopen : (viewOf s handle url).blocked = false := by
      rw [viewOf, hlost]
      rfl
    have hview : viewOf s₁ handle url = ⟨some (l.expire s.policy nowMs), false⟩ := by
      have hafter := hswept.lane hopen
      rw [hlane] at hafter
      exact congrArg₂ View.mk hafter (hswept.blocked.trans hopen)
    have hready : l.ready nowMs = true → l.expire s.policy nowMs = l →
        (viewOf (tick w nowMs s) handle url).lane ≠ some l ∨
          (viewOf (tick w nowMs s) handle url).blocked = true := by
      intro hnow hsame
      rw [hsame] at hview
      rw [tick, hs₁]
      exact moved_ready (hpolicy ▸ hmax) hmem hview hnow
    cases state with
    | inFlight =>
      exact .inl (moved_expired (hpolicy ▸ hmax) (hpolicy ▸ hdue) (hpolicy ▸ hview) hrest)
    | _ => exact (hready (ready_laneIn.trans hdue) rfl).imp_right (And.intro rfl)

/-- The dispatcher answers some frame at once by asking for authentication. -/
def AsksAuth (w : World) : Prop :=
  ∃ log url frame, ∃ ack ∈ w.dispatch log url frame, classifyAck ack = .authRequired

variable {ack : RelayAck}

theorem applyAck_park {policy : RetryPolicy} {reason : String}
    (h : applyAck state ack policy nowMs = .parkAwaitingAuth reason) :
    classifyAck ack = .authRequired := by
  unfold applyAck at h
  split at h
  next =>
    dsimp only at h
    split at h
    next => cases h
    next =>
      split at h
      next => cases h
      next hclass => exact hclass
      next => split at h <;> cases h
  next => cases h

theorem unavailable_settleRow (w : World) (handle : PublishHandle) (row : InFlight)
    (s : PublishEngine) :
    (settleRow w handle row s).unavailableRelays = s.unavailableRelays := by
  obtain ⟨store, hsettle, -⟩ := settleRow_eq w handle row s
  rw [hsettle]
  rfl

theorem unavailable_persist (w : World) (handle : PublishHandle) (s : PublishEngine) :
    (persist w handle s).1.unavailableRelays = s.unavailableRelays := by
  unfold persist
  split
  next => rfl
  next row hrow =>
    obtain ⟨store, hupsert, -⟩ := upsert_spec w (recordOf handle row) s
    rw [hupsert]

theorem unavailable_noteAnswer (handle : PublishHandle) (url : RelayUrl) (state : PerRelayState)
    (row : InFlight) (s : PublishEngine) :
    (noteAnswer handle url state row s).unavailableRelays = s.unavailableRelays := by
  unfold noteAnswer
  split
  next => rfl
  next => rfl

theorem unavailable_onAck (h : classifyAck ack ≠ .authRequired) (s : PublishEngine) :
    (onAck w handle ack nowMs s).unavailableRelays = s.unavailableRelays := by
  unfold onAck
  split
  next => rfl
  next row hrow =>
    dsimp only
    split
    next => rfl
    next state hstate =>
      split
      next hverdict =>
        cases happly : applyAck state ack s.policy nowMs with
        | parkAwaitingAuth => exact absurd (applyAck_park happly) h
        | settled | scheduleRetry => rw [happly] at hverdict; cases hverdict
      next row' hverdict =>
        split
        next => rw [unavailable_settleRow, unavailable_noteAnswer]; rfl
        next => rw [unavailable_persist, unavailable_noteAnswer]; rfl

theorem acks_dispatchRelay (frame : Frame) (relayFilter : Option RelayUrl)
    (unavailable : SortedMap RelayUrl (Option Nat)) (acc : InFlight × List LogEntry × List RelayAck)
    (url : RelayUrl)
    (h : ack ∈ (dispatchRelay w handle nowMs frame relayFilter unavailable acc url).2.2) :
    ack ∈ acc.2.2 ∨ ∃ log, ack ∈ w.dispatch log url frame := by
  obtain ⟨row, log, acks⟩ := acc
  have hcase := dispatched w nowMs handle frame relayFilter unavailable row log acks url
  generalize dispatchRelay w handle nowMs frame relayFilter unavailable (row, log, acks) url = acc'
    at hcase h
  cases hcase with
  | passed | refused => exact .inl h
  | sent => exact (List.mem_append.mp h).imp_right fun hnew => ⟨log, hnew⟩

theorem acks_dispatchLoop (frame : Frame) (relayFilter : Option RelayUrl)
    (unavailable : SortedMap RelayUrl (Option Nat)) (targets : List RelayUrl)
    (acc : InFlight × List LogEntry × List RelayAck)
    (h : ack ∈ (targets.foldl (dispatchRelay w handle nowMs frame relayFilter unavailable) acc).2.2)
    :
    ack ∈ acc.2.2 ∨ ∃ log url, ack ∈ w.dispatch log url frame := by
  induction targets generalizing acc with
  | nil => exact .inl h
  | cons target _ ih =>
    rcases ih _ h with hacc | hnew
    · exact (acks_dispatchRelay frame relayFilter unavailable acc target hacc).imp_right
        fun ⟨log, hlog⟩ => ⟨log, target, hlog⟩
    · exact .inr hnew

theorem unavailable_foldl {α : Type} {step : PublishEngine → α → PublishEngine} (xs : List α)
    (hstep : ∀ t x, x ∈ xs → (step t x).unavailableRelays = t.unavailableRelays)
    (s : PublishEngine) : (xs.foldl step s).unavailableRelays = s.unavailableRelays := by
  induction xs generalizing s with
  | nil => rfl
  | cons x _ ih =>
    rw [List.foldl_cons, ih (fun t y hy => hstep t y (List.mem_cons_of_mem x hy)),
      hstep s x List.mem_cons_self]

theorem unavailable_dispatchPending (hcalm : ¬ AsksAuth w) (handle : PublishHandle)
    (s : PublishEngine) :
    (dispatchPending w handle nowMs s).unavailableRelays = s.unavailableRelays := by
  unfold dispatchPending dispatchPendingMatching
  split
  next => rfl
  next row hrow =>
    refine unavailable_foldl _ (fun t ack hack => unavailable_onAck (fun hclass => hcalm ?_) t) _
    rcases acks_dispatchLoop _ _ _ _ _ hack with hnone | ⟨log, url, hnew⟩
    · cases hnone
    · exact ⟨log, url, _, ack, hnew, hclass⟩

theorem unavailable_tick (hcalm : ¬ AsksAuth w) (nowMs : Nat) (s : PublishEngine) :
    (tick w nowMs s).unavailableRelays = s.unavailableRelays := by
  have hsweep : ∀ t key, (sweepRow nowMs t key).unavailableRelays = t.unavailableRelays := by
    intro t key
    obtain ⟨⟨inFlight, hframe⟩, -, -⟩ := sweepRow_spec key "" nowMs key t
    rw [hframe]
  have hfinalize : ∀ t key, (finalizeRow w t key).unavailableRelays = t.unavailableRelays := by
    intro t key
    unfold finalizeRow
    split
    next => rfl
    next =>
      split
      next => exact unavailable_settleRow ..
      next => rfl
  unfold tick finalizeCompletedRows
  dsimp only
  rw [unavailable_foldl _ fun t key _ => hfinalize t key,
    unavailable_foldl _ fun t key _ => unavailable_dispatchPending hcalm key t,
    unavailable_foldl _ fun t key _ => hsweep t key]

end Work

/-- Between calls no row is complete; a row under work may be. -/
def Waits (work : List PublishHandle) (s : PublishEngine) : Prop :=
  ∀ handle row, s.inFlight.lookup handle = some row → handle ∉ work → isComplete row = false

section Waits
variable {w : World} {work : List PublishHandle} {s s' : PublishEngine}

theorem waits_act {sweeping : Prop} {handle : PublishHandle} {found : InFlight}
    (h : ∀ row, s.inFlight.lookup handle = some row → isComplete row = false)
    (hact : Act w sweeping work handle s s') (hnot : handle ∉ work)
    (hfound : s'.inFlight.lookup handle = some found) : isComplete found = false := by
  cases hact with
  | edit row _ hrow hmove =>
    obtain rfl := Option.some.inj ((lookup_setRow_self ..).symm.trans hfound)
    exact waits_rowMove hmove hnot (h row hrow)
  | send _ url =>
    obtain rfl := Option.some.inj ((lookup_setRow_self ..).symm.trans hfound)
    exact isComplete_eq_false.mpr ⟨url, _, by rw [lookup_change, if_pos rfl], rfl⟩
  | answer _ _ _ _ _ _ _ _ _ hleft =>
    obtain rfl := Option.some.inj ((lookup_setRow_self ..).symm.trans hfound)
    exact hleft
  | save => exact h found hfound
  | widen _ _ _ _ _ hsome =>
    obtain rfl := Option.some.inj ((lookup_setRow_self ..).symm.trans hfound)
    exact isComplete_widenRow hsome
  | close | settle => exact absurd ((AList.lookup_erase _ _).symm.trans hfound) nofun

theorem waits_moves (sweeping : Prop) (h : Waits work s) (hmoves : Moves w sweeping work s s') :
    Waits work s' := by
  induction hmoves with
  | refl => exact h
  | tail _ hmove ih =>
    cases hmove with
    | gate => exact ih
    | act key hact =>
      intro handle found hfound hnot
      by_cases hkey : handle = key
      · subst hkey
        exact waits_act (fun row hrow => ih handle row hrow hnot) hact hnot hfound
      · rw [hact.off.rows handle hkey] at hfound
        exact ih handle found hfound hnot

theorem Waits.mono {work' : List PublishHandle} (h : Waits work s)
    (hwork : ∀ handle ∈ work, handle ∈ work') : Waits work' s :=
  fun handle row hrow hnot => h handle row hrow fun hmem => hnot (hwork handle hmem)

theorem waits_finalize (h : Waits work s) : Waits [] (finalizeCompletedRows w work s) := by
  have hkept := waits_moves False h (finalizeCompletedRows_moves (w := w) work s)
  intro handle row hrow _
  by_cases hmem : handle ∈ work
  · exact finalizeCompletedRows_waits s hmem hrow
  · exact hkept handle row hrow hmem

theorem waits_finish {key : PublishHandle} (h : Waits [key] s) (nowMs : Nat) :
    Waits [] (finalizeCompletedRows w [key] (dispatchPending w key nowMs s)) :=
  waits_finalize (waits_moves False h (dispatchPending_moves List.mem_cons_self nowMs s))

theorem waits_insertRow (h : Waits [] s) (key : PublishHandle) (row : InFlight) :
    Waits [key] (insertRow key row s) := by
  intro handle found hfound hnot
  have hne : handle ≠ key := fun heq => hnot (List.mem_singleton.mpr heq)
  exact h handle found ((AList.lookup_insert_ne hne).symm.trans hfound) List.not_mem_nil

theorem waits_startPublish (h : Waits [] s) (action : PublishAction) (nowMs : Nat)
    (override : Option String) : Waits [] (startPublish w action nowMs override s).1 := by
  cases action with
  | publish key event target =>
    rw [startPublish, startPublishInner]
    split
    next => exact h
    next =>
      dsimp only
      split
      next => exact h
      next hsome =>
        let row := newRow event target (relayMap (resolveFor w event target)) override
        have hleft : isComplete row = false := by
          obtain ⟨r, hr⟩ := List.exists_mem_of_ne_nil _ hsome
          refine isComplete_eq_false.mpr
            ⟨r.1, .pending, (SortedMap.lookup_mapRows ..).trans ?_, rfl⟩
          rw [SortedMap.lookup_eq_some.mpr hr, Option.map_some]
        have hopened : Waits [] (insertRow key row s) := by
          intro handle found hfound hnot
          by_cases hkey : handle = key
          · subst hkey
            obtain rfl := Option.some.inj ((lookup_setRow_self ..).symm.trans hfound)
            exact hleft
          · exact waits_insertRow h key row handle found hfound
              fun hmem => hkey (List.mem_singleton.mp hmem)
        have hsaved : Waits [] (persist w key (insertRow key row s)).1 :=
          waits_moves False hopened (persist_moves _ key)
        split
        next s' error heq =>
          rw [heq] at hsaved
          exact hsaved
        next s' heq =>
          rw [heq] at hsaved
          exact waits_finish (hsaved.mono (by simp)) nowMs
  | _ => exact h

theorem waits_retryNow (h : Waits [] s) (handle : PublishHandle) (nowMs : Nat) :
    Waits [] (retryNow w handle nowMs s).1 := by
  unfold retryNow
  split
  next => exact h
  next row hrow =>
    have hdrop : Move w False [] s (setRow s handle (dropRetries row)) :=
      .act handle (.edit row _ hrow (.reschedule row _))
    have hsaved : Waits [] (persist w handle (setRow s handle (dropRetries row))).1 :=
      waits_moves False h (.head hdrop (persist_moves _ handle))
    split
    next s' error heq =>
      rw [heq] at hsaved
      exact hsaved
    next s' heq =>
      rw [heq] at hsaved
      exact waits_finish (hsaved.mono nofun) nowMs

theorem waits_resumeFromStore (h : Waits [] s) (nowMs : Nat) :
    Waits [] (resumeFromStore w nowMs s).1 := by
  unfold resumeFromStore
  split
  next => exact h
  next =>
    have hall : ∀ (records : List PublishRecord) (t : PublishEngine), Waits [] t →
        Waits [] (records.foldl (resumeRecord w nowMs) t) := by
      intro records
      induction records with
      | nil => exact fun t ht => ht
      | cons record _ ih =>
        exact fun t ht => ih _ (waits_finish (waits_insertRow ht record.handle _) nowMs)
    exact hall _ s h

theorem waits_cancel (h : Waits [] s) (key : PublishHandle) (correlationId : String) :
    Waits [] (cancelByHandle w key correlationId s) := by
  obtain ⟨store, hdelete, -⟩ := delete_spec w key (recordTerminal key
    ⟨correlationId, "cancelled", none, some key, .cancelled key⟩
    { s with inFlight := s.inFlight.erase key })
  have hcall : cancelByHandle w key correlationId s = _ := hdelete
  rw [hcall]
  intro handle row hrow _
  have hne : handle ≠ key := by
    rintro rfl
    exact absurd ((AList.lookup_erase _ _).symm.trans hrow) nofun
  exact h handle row ((AList.lookup_erase_ne hne).symm.trans hrow) List.not_mem_nil

theorem waits_perform (h : Waits [] s) (step : World × Call) : Waits [] (perform s step) := by
  obtain ⟨w, call⟩ := step
  cases call with
  | startPublish action nowMs override => exact waits_startPublish h action nowMs override
  | onAck key ack nowMs => exact waits_moves False h (onAck_moves key ack nowMs s)
  | tick nowMs =>
    have hstart : Waits (w.rowOrder s.inFlight) s := h.mono nofun
    have hsweep := waits_moves True hstart (foldl_moves (w := w)
      (fun s' handle hwork => sweepRow_moves hwork trivial nowMs s') s)
    exact waits_finalize (waits_moves True hsweep
      (foldl_moves (fun s' handle hwork => dispatchPending_moves hwork nowMs s') _))
  | markRelayUnavailable relayUrl nowMs =>
    exact waits_moves False h (markRelayUnavailable_moves relayUrl nowMs s)
  | markRelayAvailable relayUrl nowMs =>
    let url := canonicalRelayIdentity relayUrl
    have hstart : Waits (w.rowOrder s.inFlight)
        { s with unavailableRelays := s.unavailableRelays.erase url } := h.mono nofun
    exact waits_finalize (waits_moves False hstart
      (foldl_moves (fun s' handle hwork => (retargetRow_moves handle s').trans
        (dispatchPendingMatching_moves hwork (some url) nowMs _)) _))
  | retryNow key nowMs => exact waits_retryNow h key nowMs
  | cancelByHandle key correlationId => exact waits_cancel h key correlationId
  | restart policy nowMs =>
    have hstopped : Waits [] (stop s policy) := fun _ _ hrow => absurd hrow nofun
    exact waits_resumeFromStore hstopped nowMs

theorem waits_run (policy : RetryPolicy) (steps : List (World × Call)) :
    Waits [] (run perform (.new policy .empty) steps) :=
  run_invariant (Waits []) (fun _ step h _ => waits_perform h step)
    (fun _ _ hrow => absurd hrow nofun)
    (meets_of_forall perform (fun _ => True) _ steps fun _ _ => trivial)

end Waits

/-- Some row of the engine is not what it was. -/
def Changes (s s' : PublishEngine) : Prop :=
  ∃ handle, s'.inFlight.lookup handle ≠ s.inFlight.lookup handle

/-- A relay that was available is not any more. -/
def Parks (s s' : PublishEngine) : Prop :=
  ∃ url, s.unavailableRelays.lookup url = none ∧ (s'.unavailableRelays.lookup url).isSome

/-- In every run, as long as no relay behind a lost connection still waits for an answer: without a
deadline a tick at any later time leaves everything alone, and with one so does a tick before it. A
tick at the deadline changes a row, unless the dispatcher answers a frame at once by asking for
authentication, and then the relay may be parked instead. A deadline at the end of time, where it
saturates, promises nothing; and a deadline of zero needs a clock that does not run backwards. -/
theorem wakes_exact (policy : RetryPolicy) (steps : List (World × Call)) (w : World) (nowMs : Nat) :
    let s := run perform (.new policy .empty) steps
    s.policy.transientMaxRetries ≤ u32Max → Walked s → Clocked s nowMs →
      (nextDeadlineMs s nowMs = none → ∀ later, nowMs ≤ later → Idle s (tick w later s)) ∧
      ∀ t, nextDeadlineMs s nowMs = some t →
        (∀ later, nowMs ≤ later → later < t → Idle s (tick w later s)) ∧
        (t < u64Max → Changes s (tick w (max nowMs t) s) ∨
          AsksAuth w ∧ Parks s (tick w (max nowMs t) s)) := by
  intro s hmax hwalked hclock
  have hwaits : ∀ handle row, s.inFlight.lookup handle = some row → isComplete row = false :=
    fun handle row hrow => waits_run policy steps handle row hrow List.not_mem_nil
  refine ⟨fun hnone later hnow => ?_, fun t hnext => ⟨fun later hnow hlater => ?_, fun hend => ?_⟩⟩
  · refine idle_tick ⟨quiet_before hclock hnow fun t hnext => ?_, hwalked, hwaits⟩
    exact absurd (hnone.symm.trans hnext) nofun
  · refine idle_tick ⟨quiet_before hclock hnow fun t' hnext' => ?_, hwalked, hwaits⟩
    obtain rfl := Option.eq_some_unique hnext hnext'
    exact hlater
  · obtain ⟨handle, row, url, state, hrow, hstate, hdue⟩ := due_at hnext (le_max_right nowMs t) hend
    rcases moved_tick (w := w) hmax hrow hstate hdue with hmoved | ⟨hopen, hblocked⟩
    · refine .inl ⟨handle, fun hsame => hmoved ?_⟩
      rw [viewOf, viewOf, hsame]
    · by_cases hasks : AsksAuth w
      · exact .inr ⟨hasks, url, hopen, hblocked⟩
      · rw [viewOf, unavailable_tick hasks, hopen] at hblocked
        cases hblocked

theorem sent_note_wakes :
    let s := run perform (.new .default .empty) [(noteWorld, .startPublish publishNote 10 none)]
    nextDeadlineMs s 20 = some 30010 ∧ Idle s (tick noteWorld 30009 s) ∧
      Changes s (tick noteWorld 30010 s) := by
  intro s
  have hnone : s.unavailableRelays.rows = [] := by decide +kernel
  have hwalked : Walked s := by
    intro handle row hrow url state hstate hflight
    rw [SortedMap.lookup, hnone]
    rfl
  have hnext : nextDeadlineMs s 20 = some 30010 := by decide +kernel
  obtain ⟨-, hwakes⟩ := wakes_exact .default [(noteWorld, .startPublish publishNote 10 none)]
    noteWorld 20 (by decide) hwalked (.inl (by decide))
  obtain ⟨hidle, hchanges⟩ := hwakes 30010 hnext
  refine ⟨hnext, hidle 30009 (by decide) (by decide), (hchanges (by decide)).resolve_right ?_⟩
  rintro ⟨⟨log, url, frame, ack, hack, -⟩, -⟩
  cases hack

/-- A deadline that saturates is reached and nothing is due. A deadline of zero lets a tick of an
earlier clock end an attempt. A relay that a newer relay list brought in is sent to, asks for
authentication at once, is parked and walked back: its row is as it was. -/
theorem wakes_inexact :
    (let patient : RetryPolicy := { RetryPolicy.default with inflightDeadlineMs := u64Max }
    let s := run perform (.new patient .empty) [(noteWorld, .startPublish publishNote 10 none)]
    nextDeadlineMs s 20 = some u64Max ∧
      (tick noteWorld u64Max s).inFlight.lookup "id" = s.inFlight.lookup "id" ∧
      (tick noteWorld u64Max s).inFlight.keys = ["id"]) ∧
    (let hasty : RetryPolicy := { RetryPolicy.default with inflightDeadlineMs := 0 }
    let s := run perform (.new hasty .empty) [(noteWorld, .startPublish publishNote 100 none)]
    nextDeadlineMs s 50 = some 100 ∧ ((tick noteWorld 60 s).inFlight.lookup "id").map
      (·.perRelay.rows) = some [("wss://r", .inFlight 60 2)]) ∧
    (let relays : List ResolvedRelay :=
      [⟨"wss://r", .authorWriteRelay⟩, ⟨"wss://q", .authorWriteRelay⟩]
    let asking : World := fixedWorld relays
      (fun url => [⟨url, false, authRequiredCode, ""⟩]) fun _ => none
    let s := run perform (.new .default .empty) [(noteWorld, .startPublish publishNote 10 none),
      (queueWorld relays, .markRelayAvailable "wss://r" 20)]
    nextDeadlineMs s 30 = some 30 ∧
      (s.inFlight.lookup "id").map (·.perRelay.rows) =
        some [("wss://q", .pending), ("wss://r", .inFlight 10 1)] ∧
      (tick asking 30 s).inFlight.lookup "id" = s.inFlight.lookup "id" ∧
      (tick asking 30 s).inFlight.keys = ["id"]) := by
  decide +kernel

end PublishWakes
