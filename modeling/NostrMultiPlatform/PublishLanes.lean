import NostrMultiPlatform.Chains
import NostrMultiPlatform.PublishMoves

/-!
# One relay of one publish

What the engine holds on one relay of one handle is a lane: the state, the due
time of its retry and whether the gate lets the event through. While relays do
not become available by hand, whatever a call does is, for each lane, a chain of
a few steps: it is sent or refused, an answer fails or settles it, the relay is
parked, the row closes. What the engine logs of the lane are the notes of these
steps. A publish opens lanes, and the sweep of a tick rewrites them all.
-/
namespace PublishLanes

open Chains JobLog PublishEngine PublishMoves PublishState Sorted Tables SortedMap

structure Lane where
  state : PerRelayState
  due : Option Nat
  sanctioned : Bool

/-- The lane, if the handle is in flight to the relay, and whether the relay is unavailable. -/
structure View where
  lane : Option Lane
  blocked : Bool

def laneIn (row : InFlight) (url : RelayUrl) : Option Lane :=
  (row.perRelay.lookup url).map fun state =>
    ⟨state, row.pendingRetries.lookup url, row.sanctioned url⟩

def viewOf (s : PublishEngine) (handle : PublishHandle) (url : RelayUrl) : View :=
  ⟨(s.inFlight.lookup handle).bind (laneIn · url), (s.unavailableRelays.lookup url).isSome⟩

def Lane.ready (l : Lane) (nowMs : Nat) : Bool :=
  match l.state with
  | .pending => true
  | .relayError .. | .timedOut .. => l.due.all fun due => due ≤ nowMs
  | _ => false

def Lane.nextAttempt (l : Lane) : Nat := max (min (l.state.attempt + 1) u32Max) 1

/-- The lane once its relay is parked. -/
def Lane.park (l : Lane) : Lane :=
  if l.state.isInFlight then ⟨.pending, none, l.sanctioned⟩ else l

inductive Note where
  | opened
  | sent (atMs : Nat)
  | failed (attempt atMs : Nat)
  deriving DecidableEq, Repr

inductive LaneStep (policy : RetryPolicy) (nowMs : Nat) : View → List Note → View → Prop
  | send (l : Lane) (hready : l.ready nowMs = true) (hgate : l.sanctioned = true) :
    LaneStep policy nowMs ⟨some l, false⟩ [.sent nowMs]
      ⟨some ⟨.inFlight nowMs l.nextAttempt, none, true⟩, false⟩
  | refuse (l : Lane) (reason : String) (hready : l.ready nowMs = true)
    (hgate : l.sanctioned = false) :
    LaneStep policy nowMs ⟨some l, false⟩ []
      ⟨some ⟨.failedAfterRetries reason nowMs, none, false⟩, false⟩
  | fail (sentAtMs attempt : Nat) (due : Option Nat) (sanctioned blocked : Bool) (message : String)
    (hleft : max attempt 1 < policy.transientMaxRetries) :
    LaneStep policy nowMs ⟨some ⟨.inFlight sentAtMs attempt, due, sanctioned⟩, blocked⟩
      [.failed (max attempt 1) nowMs]
      ⟨some ⟨.relayError message (max attempt 1) nowMs,
        some (saturatingAdd nowMs (policy.backoffFor (max attempt 1))), sanctioned⟩, blocked⟩
  | settle (l : Lane) (blocked : Bool) (next : PerRelayState) (hflight : l.state.isInFlight = true)
    (hterminal : next.isTerminal = true) :
    LaneStep policy nowMs ⟨some l, blocked⟩ [] ⟨some { l with state := next }, blocked⟩
  | park (v : View) : LaneStep policy nowMs v [] ⟨v.lane.map Lane.park, true⟩
  | close (v : View) : LaneStep policy nowMs v [] ⟨none, v.blocked⟩

abbrev Lanes (policy : RetryPolicy) (nowMs : Nat) : View → List Note → View → Prop :=
  Chain (LaneStep policy nowMs)

/-- What a log entry notes of the lane. -/
def noteOf (handle : PublishHandle) (url : RelayUrl) (nowMs : Nat) : LogEntry → Option Note
  | .opened key _ => if key = handle then some .opened else none
  | .sent key target => if key = handle ∧ target = url then some (.sent nowMs) else none
  | .answered key target (.relayError _ attempt lastAtMs) =>
    if key = handle ∧ target = url then some (.failed attempt lastAtMs) else none
  | _ => none

/-- The engine goes on under the same policy, and the lane makes the steps that the log notes. -/
structure Works (handle : PublishHandle) (url : RelayUrl) (nowMs : Nat) (s s' : PublishEngine) :
    Prop where
  policy : s'.policy = s.policy
  steps : ∃ more, s'.log = s.log ++ more ∧ Lanes s.policy nowMs (viewOf s handle url)
    (more.filterMap (noteOf handle url nowMs)) (viewOf s' handle url)

section Works
variable {handle : PublishHandle} {url : RelayUrl} {nowMs : Nat} {w : World}
  {s s' s'' : PublishEngine}

theorem Works.refl (s : PublishEngine) : Works handle url nowMs s s :=
  ⟨rfl, [], (List.append_nil _).symm, .refl _⟩

theorem Works.trans (h : Works handle url nowMs s s') (h' : Works handle url nowMs s' s'') :
    Works handle url nowMs s s'' := by
  obtain ⟨hpolicy, more, hlog, hsteps⟩ := h
  obtain ⟨hpolicy', later, hlog', hsteps'⟩ := h'
  refine ⟨hpolicy'.trans hpolicy, more ++ later, by rw [hlog', hlog, List.append_assoc], ?_⟩
  rw [hpolicy] at hsteps'
  rw [List.filterMap_append]
  exact hsteps.trans hsteps'

/-- The lane is left as it is and nothing is logged of it. -/
theorem Works.idle (more : List LogEntry) (hpolicy : s'.policy = s.policy)
    (hlog : s'.log = s.log ++ more) (hnotes : more.filterMap (noteOf handle url nowMs) = [])
    (hview : viewOf s' handle url = viewOf s handle url) : Works handle url nowMs s s' := by
  refine ⟨hpolicy, more, hlog, ?_⟩
  rw [hnotes, hview]
  exact .refl _

/-- One step of the lane, noted by at most one entry of the log. -/
theorem Works.step (more : List LogEntry) (notes : List Note) (hpolicy : s'.policy = s.policy)
    (hlog : s'.log = s.log ++ more) (hnotes : more.filterMap (noteOf handle url nowMs) = notes)
    (hstep : LaneStep s.policy nowMs (viewOf s handle url) notes (viewOf s' handle url)) :
    Works handle url nowMs s s' := by
  refine ⟨hpolicy, more, hlog, ?_⟩
  rw [hnotes]
  exact .single hstep

theorem Works.foldl {α : Type} {step : PublishEngine → α → PublishEngine}
    (h : ∀ s x, Works handle url nowMs s (step s x)) (s : PublishEngine) (xs : List α) :
    Works handle url nowMs s (xs.foldl step s) := by
  induction xs generalizing s with
  | nil => exact .refl s
  | cons x _ ih => exact (h s x).trans (ih (step s x))

theorem viewOf_setRow (s : PublishEngine) (key : PublishHandle) (row : InFlight) :
    viewOf (setRow s key row) handle url =
      if handle = key then ⟨laneIn row url, (viewOf s handle url).blocked⟩
      else viewOf s handle url := by
  unfold viewOf
  rw [lookup_setRow]
  split
  · rfl
  · rfl

theorem viewOf_row {row : InFlight} (h : s.inFlight.lookup handle = some row) :
    viewOf s handle url = ⟨laneIn row url, (s.unavailableRelays.lookup url).isSome⟩ := by
  rw [viewOf, h, Option.bind_some]

theorem laneIn_state {row : InFlight} {state : PerRelayState}
    (h : row.perRelay.lookup url = some state) :
    laneIn row url = some ⟨state, row.pendingRetries.lookup url, row.sanctioned url⟩ := by
  rw [laneIn, h, Option.map_some]

/-- A change at one relay leaves the lanes of the others. -/
theorem laneIn_change (row : InFlight) (target : RelayUrl) (state : PerRelayState)
    {retries : SortedMap RelayUrl Nat}
    (hretries : ∀ other, other ≠ target → retries.lookup other = row.pendingRetries.lookup other) :
    laneIn (change row target state retries) url =
      if url = target then some ⟨state, retries.lookup url, row.sanctioned url⟩
      else laneIn row url := by
  rw [laneIn, lookup_change]
  split
  · rfl
  next hne =>
    rw [laneIn]
    congr 1
    funext old
    exact congrArg (Lane.mk old · (row.sanctioned url)) (hretries url hne)

theorem works_persist (s : PublishEngine) (key : PublishHandle) :
    Works handle url nowMs s (persist w key s).1 := by
  cases hrow : s.inFlight.lookup key with
  | none =>
    rw [persist, hrow]
    exact .refl s
  | some row =>
    obtain ⟨store, hupsert, -⟩ := upsert_spec w (recordOf key row) s
    rw [persist_eq w hrow, hupsert]
    exact .idle _ rfl (List.append_nil _).symm rfl rfl

theorem viewOf_erase {key : PublishHandle} (hrows : s'.inFlight = s.inFlight.erase key)
    (hblocked : s'.unavailableRelays = s.unavailableRelays) : viewOf s' handle url =
      if handle = key then ⟨none, (viewOf s handle url).blocked⟩ else viewOf s handle url := by
  unfold viewOf
  rw [hrows, lookup_erase_eq, hblocked]
  split
  · rfl
  · rfl

/-- A row that leaves closes its lanes. -/
theorem works_erase {key : PublishHandle} {terminal : LastTerminal}
    (hpolicy : s'.policy = s.policy) (hlog : s'.log = s.log ++ [.ended key terminal])
    (hrows : s'.inFlight = s.inFlight.erase key)
    (hblocked : s'.unavailableRelays = s.unavailableRelays) : Works handle url nowMs s s' := by
  have hview : viewOf s' handle url = _ := viewOf_erase hrows hblocked
  by_cases hkey : handle = key
  · rw [if_pos hkey] at hview
    refine .step _ _ hpolicy hlog rfl ?_
    rw [hview]
    exact .close _
  · rw [if_neg hkey] at hview
    exact .idle _ hpolicy hlog rfl hview

theorem works_settleRow (s : PublishEngine) (key : PublishHandle) (row : InFlight) :
    Works handle url nowMs s (settleRow w key row s) := by
  obtain ⟨store, hsettle, -⟩ := settleRow_eq w key row s
  rw [hsettle]
  exact works_erase rfl rfl rfl rfl

theorem works_finalizeRow (s : PublishEngine) (key : PublishHandle) :
    Works handle url nowMs s (finalizeRow w s key) := by
  unfold finalizeRow
  split
  next => exact .refl s
  next row _ =>
    split
    next => exact works_settleRow s key row
    next => exact .refl s

theorem works_finalizeCompletedRows (keys : List PublishHandle) (s : PublishEngine) :
    Works handle url nowMs s (finalizeCompletedRows w keys s) :=
  .foldl (works_finalizeRow) s keys

theorem works_cancelByHandle (key : PublishHandle) (correlationId : String) (s : PublishEngine) :
    Works handle url nowMs s (cancelByHandle w key correlationId s) := by
  obtain ⟨store, hdelete, -⟩ := delete_spec w key (recordTerminal key
    ⟨correlationId, "cancelled", none, some key, .cancelled key⟩
    { s with inFlight := s.inFlight.erase key })
  have hcall : cancelByHandle w key correlationId s = _ := hdelete
  rw [hcall]
  exact works_erase rfl rfl rfl rfl

theorem park_park (l : Lane) : l.park.park = l.park := by
  unfold Lane.park
  by_cases h : l.state.isInFlight = true
  · rw [if_pos h]
    rfl
  · rw [if_neg h, if_neg h]

theorem laneIn_demoteRow (row : InFlight) (target : RelayUrl) (hawaits : awaits target row = true) :
    laneIn (demoteRow target row) url =
      if url = target then (laneIn row url).map Lane.park else laneIn row url := by
  have hchange : demoteRow target row =
      change row target .pending (row.pendingRetries.erase target) := rfl
  rw [hchange, laneIn_change]
  · split
    next heq =>
      obtain ⟨state, hstate, hflight⟩ := awaits_iff.mp hawaits
      rw [heq, laneIn_state hstate, Option.map_some, Lane.park, if_pos hflight,
        lookup_erase, if_pos rfl]
    · rfl
  · intro other hne
    rw [lookup_erase, if_neg hne]

theorem laneIn_park_of_not_awaits {row : InFlight} (h : awaits url row = false) :
    (laneIn row url).map Lane.park = laneIn row url := by
  unfold laneIn
  cases hstate : row.perRelay.lookup url with
  | none => rfl
  | some state =>
    have hflight : state.isInFlight = false := by
      rw [awaits, hstate] at h
      exact h
    rw [Option.map_some, Option.map_some, Lane.park, if_neg (by simp [hflight])]

/-- The lane where its relay is the one parked. -/
def View.parkAt (v : View) (url target : RelayUrl) : View :=
  if url = target then ⟨v.lane.map Lane.park, v.blocked⟩ else v

theorem parkAt_parkAt (v : View) (url target : RelayUrl) :
    (v.parkAt url target).parkAt url target = v.parkAt url target := by
  unfold View.parkAt
  split
  · rw [Option.map_map]
    congr 2
    funext l
    exact park_park l
  · rfl

theorem demoteRow_spec (handle : PublishHandle) (url target : RelayUrl) (key : PublishHandle)
    (s : PublishEngine) :
    (∃ inFlight, demoteRows target [key] s = { s with inFlight := inFlight }) ∧
      viewOf (demoteRows target [key] s) handle url =
        if handle = key then (viewOf s handle url).parkAt url target else viewOf s handle url := by
  simp only [demoteRows, List.foldl_cons, List.foldl_nil]
  cases hrow : s.inFlight.lookup key with
  | none =>
    refine ⟨⟨_, rfl⟩, ?_⟩
    dsimp only
    split
    next heq =>
      rw [← heq] at hrow
      rw [viewOf, hrow, View.parkAt]
      exact (ite_self _).symm
    next => rfl
  | some row =>
    dsimp only
    split
    next hawaits =>
      refine ⟨⟨_, rfl⟩, ?_⟩
      rw [viewOf_setRow]
      split
      next heq =>
        rw [← heq] at hrow
        rw [viewOf_row hrow, laneIn_demoteRow row target hawaits, View.parkAt]
        split
        · rfl
        · rfl
      next => rfl
    next hnot =>
      refine ⟨⟨_, rfl⟩, ?_⟩
      split
      next heq =>
        rw [← heq] at hrow
        rw [viewOf_row hrow, View.parkAt]
        split
        next hurl =>
          rw [← hurl] at hnot
          rw [laneIn_park_of_not_awaits (by simpa using hnot)]
        next => rfl
      next => rfl

theorem demoteRows_spec (handle : PublishHandle) (url target : RelayUrl)
    (keys : List PublishHandle) (s : PublishEngine) :
    (∃ inFlight, demoteRows target keys s = { s with inFlight := inFlight }) ∧
      viewOf (demoteRows target keys s) handle url =
        if handle ∈ keys then (viewOf s handle url).parkAt url target else viewOf s handle url := by
  induction keys generalizing s with
  | nil => exact ⟨⟨_, rfl⟩, rfl⟩
  | cons key rest ih =>
    obtain ⟨⟨inFlight, hframe⟩, hview⟩ := demoteRow_spec handle url target key s
    obtain ⟨⟨inFlight', hframe'⟩, hview'⟩ := ih (demoteRows target [key] s)
    have hcons : demoteRows target (key :: rest) s =
        demoteRows target rest (demoteRows target [key] s) := rfl
    rw [hcons]
    refine ⟨⟨inFlight', ?_⟩, ?_⟩
    · rw [hframe', hframe]
    · rw [hview', hview]
      by_cases hkey : handle = key
      · simp only [hkey, if_true, List.mem_cons_self, parkAt_parkAt, ite_self]
      · simp only [hkey, if_false, List.mem_cons, false_or]

theorem works_persistAll (keys : List PublishHandle) (s : PublishEngine) :
    Works handle url nowMs s (persistAll w keys s).1 := by
  induction keys generalizing s with
  | nil => exact .refl s
  | cons key _ ih =>
    have hhead : Works handle url nowMs s (persist w key s).1 := works_persist s key
    rw [persistAll]
    split
    next s' error h =>
      rw [h] at hhead
      exact hhead
    next s' h =>
      rw [h] at hhead
      exact hhead.trans (ih s')

/-- The lanes of the parked relay are walked back and their relay is unavailable. -/
theorem works_parkRelayAwaitingAuth (relayUrl : String) (s : PublishEngine) :
    Works handle url nowMs s (parkRelayAwaitingAuth w relayUrl s).1 := by
  unfold parkRelayAwaitingAuth demoteInflightToPending
  dsimp only
  refine Works.trans ?_ (works_persistAll _ _)
  let target := canonicalRelayIdentity relayUrl
  let gated : PublishEngine := { s with
    unavailableRelays := s.unavailableRelays.alter target fun entry => entry.getD none }
  obtain ⟨⟨inFlight, hframe⟩, hview⟩ :=
    demoteRows_spec handle url target (w.rowOrder gated.inFlight) gated
  have hpolicy : (demoteRows target (w.rowOrder gated.inFlight) gated).policy = s.policy := by
    rw [hframe]
  have hlog : (demoteRows target (w.rowOrder gated.inFlight) gated).log = s.log ++ [] := by
    rw [hframe, List.append_nil]
  have hgated : viewOf gated handle url =
      ⟨(viewOf s handle url).lane,
        if url = target then true else (viewOf s handle url).blocked⟩ := by
    unfold viewOf
    dsimp only [gated]
    rw [lookup_alter]
    split
    · rfl
    · rfl
  -- a handle that is not walked has no row
  have hparked : viewOf (demoteRows target (w.rowOrder gated.inFlight) gated) handle url =
      (viewOf gated handle url).parkAt url target := by
    rw [hview]
    split
    next => rfl
    next hnot =>
      have hrow : s.inFlight.lookup handle = none := by
        rw [AList.lookup_eq_none]
        exact fun hmem => hnot ((w.rowOrder_perm _).mem_iff.mpr hmem)
      rw [hgated, viewOf, hrow, View.parkAt]
      exact (ite_self _).symm
  by_cases hurl : url = target
  · refine .step _ _ hpolicy hlog rfl ?_
    rw [hparked, hgated, if_pos hurl, View.parkAt, if_pos hurl]
    exact .park _
  · refine .idle _ hpolicy hlog rfl ?_
    rw [hparked, hgated, if_neg hurl, View.parkAt, if_neg hurl]

/-- What an acknowledgement makes of a relay that waits for one. -/
inductive Verdict (policy : RetryPolicy) (attempt : Nat) : RetryVerdict → Prop
  | settled (next : PerRelayState) (hterminal : next.isTerminal = true) :
    Verdict policy attempt (.settled next)
  | retry (hleft : max attempt 1 < policy.transientMaxRetries) :
    Verdict policy attempt (.scheduleRetry (policy.backoffFor (max attempt 1)) (max attempt 1 + 1))
  | park (reason : String) : Verdict policy attempt (.parkAwaitingAuth reason)

theorem verdict_applyAck (sentAtMs attempt : Nat) (ack : RelayAck) (policy : RetryPolicy)
    (nowMs : Nat) :
    Verdict policy attempt (applyAck (.inFlight sentAtMs attempt) ack policy nowMs) := by
  rw [applyAck, if_pos (show (PerRelayState.inFlight sentAtMs attempt).isInFlight = true from rfl)]
  dsimp only [PerRelayState.attempt]
  split
  next => exact .settled _ rfl
  next =>
    split
    next => exact .settled _ rfl
    next => exact .park _
    next =>
      split
      next => exact .settled _ rfl
      next hleft => exact .retry (Nat.lt_of_not_le hleft)

theorem notes_answered {key : PublishHandle} {target : RelayUrl} {next : PerRelayState}
    (h : next.isTerminal = true ∨ ¬ (key = handle ∧ target = url)) :
    [Entry.answered key target next].filterMap (noteOf handle url nowMs) = [] := by
  have hnone : noteOf handle url nowMs (.answered key target next) = none := by
    cases next with
    | relayError => exact if_neg (h.resolve_left Bool.false_ne_true)
    | _ => rfl
  rw [List.filterMap_cons_none hnone, List.filterMap_nil]

/-- An answered relay changes no other lane. -/
theorem works_elsewhere {key : PublishHandle} {row : InFlight} {target : RelayUrl}
    {next : PerRelayState} {retries : SortedMap RelayUrl Nat} {e : LogEntry}
    (hrow : s.inFlight.lookup key = some row)
    (hretries : ∀ other, other ≠ target → retries.lookup other = row.pendingRetries.lookup other)
    (hnote : noteOf handle url nowMs e = none) (hne : ¬ (key = handle ∧ target = url)) :
    Works handle url nowMs s (logged (setRow s key (change row target next retries)) e) := by
  refine .idle [e] rfl rfl ?_ ?_
  · rw [List.filterMap_cons_none hnote, List.filterMap_nil]
  · change viewOf (setRow s key (change row target next retries)) handle url = _
    rw [viewOf_setRow]
    split
    next heq =>
      rw [laneIn_change _ _ _ hretries, if_neg fun hurl => hne ⟨heq.symm, hurl.symm⟩, heq,
        viewOf_row hrow]
    next => rfl

/-- The lane of the relay that is answered or sent to. -/
theorem viewOf_here (s : PublishEngine) (row : InFlight) (next : PerRelayState)
    (retries : SortedMap RelayUrl Nat) (e : LogEntry) :
    viewOf (logged (setRow s handle (change row url next retries)) e) handle url =
      ⟨some ⟨next, retries.lookup url, row.sanctioned url⟩, (viewOf s handle url).blocked⟩ := by
  change viewOf (setRow s handle (change row url next retries)) handle url = _
  rw [viewOf_setRow, if_pos rfl, laneIn, lookup_change, if_pos rfl]
  rfl

/-- An answer that is taken in settles the relay or schedules its retry. -/
theorem works_answer {key : PublishHandle} {row row' : InFlight} {target : RelayUrl}
    {sentAtMs attempt : Nat} {verdict : RetryVerdict} (hrow : s.inFlight.lookup key = some row)
    (hstate : row.perRelay.lookup target = some (.inFlight sentAtMs attempt))
    (hverdict : Verdict s.policy attempt verdict)
    (happly : applyVerdict row target verdict nowMs = some row') :
    Works handle url nowMs s
      (noteAnswer key target (.inFlight sentAtMs attempt) row' (setRow s key row')) := by
  have hnote : ∀ next retries, row' = change row target next retries →
      noteAnswer key target (.inFlight sentAtMs attempt) row' (setRow s key row') =
        logged (setRow s key (change row target next retries)) (.answered key target next) := by
    rintro next retries rfl
    rw [noteAnswer,
      if_pos (show (PerRelayState.inFlight sentAtMs attempt).isInFlight = true from rfl),
      lookup_change, if_pos rfl, Option.getD_some]
  cases hverdict with
  | park => cases happly
  | settled next hterminal =>
    rw [hnote next row.pendingRetries (Option.some.inj happly).symm]
    by_cases hhere : key = handle ∧ target = url
    · obtain ⟨rfl, rfl⟩ := hhere
      refine .step [.answered key target next] [] rfl rfl
        (notes_answered (.inl hterminal)) ?_
      rw [viewOf_here, viewOf_row hrow, laneIn_state hstate]
      exact .settle _ _ next rfl hterminal
    · refine works_elsewhere hrow (fun _ _ => rfl) ?_ hhere
      cases next with
      | relayError => cases hterminal
      | _ => rfl
  | retry hleft =>
    rw [hnote _ _ (Option.some.inj happly).symm]
    by_cases hhere : key = handle ∧ target = url
    · obtain ⟨rfl, rfl⟩ := hhere
      refine .step _ [.failed (max attempt 1) nowMs] rfl rfl ?_ ?_
      · exact List.filterMap_cons_some (if_pos ⟨rfl, rfl⟩)
      · rw [viewOf_here, viewOf_row hrow, laneIn_state hstate, lookup_insert, if_pos rfl]
        exact .fail sentAtMs attempt _ _ _ _ hleft
    · refine works_elsewhere hrow (fun other hne => ?_) (if_neg hhere) hhere
      exact (lookup_insert ..).trans (if_neg hne)

theorem works_onAck (key : PublishHandle) (ack : RelayAck) (s : PublishEngine) :
    Works handle url nowMs s (onAck w key ack nowMs s) := by
  unfold onAck
  split
  next => exact .refl s
  next row hrow =>
    dsimp only
    split
    next => exact .refl s
    next state hstate =>
      generalize canonicalRelayIdentity ack.relayUrl = target at hstate ⊢
      split
      next => exact works_parkRelayAwaitingAuth _ s
      next row' hverdict =>
        suffices hanswer : Works handle url nowMs s
            (noteAnswer key target state row' (setRow s key row')) by
          split
          next => exact hanswer.trans (works_settleRow _ key row')
          next => exact hanswer.trans (works_persist _ key)
        cases hflight : state.isInFlight with
        | false =>
          rw [applyAck_stale hflight, applyVerdict, setState_same hstate] at hverdict
          cases hverdict
          rw [noteAnswer, if_neg (by simp [hflight])]
          refine .idle _ rfl (List.append_nil _).symm rfl ?_
          rw [viewOf_setRow]
          split
          next heq => rw [heq, viewOf_row hrow]
          next => rfl
        | true =>
          cases state with
          | inFlight sentAtMs attempt =>
            exact works_answer hrow hstate (verdict_applyAck sentAtMs attempt ack s.policy nowMs)
              hverdict
          | _ => cases hflight

theorem ready_laneIn {row : InFlight} {state : PerRelayState} :
    Lane.ready ⟨state, row.pendingRetries.lookup url, row.sanctioned url⟩ nowMs =
      isReady row url state nowMs := by
  cases state with
  | _ => rfl

/-- One relay of the dispatch loop: passed over, refused, or sent to. -/
inductive Dispatched (w : World) (key : PublishHandle) (nowMs : Nat) (frame : Frame)
    (relayFilter : Option RelayUrl) (unavailable : SortedMap RelayUrl (Option Nat))
    (row : InFlight) (log : List LogEntry) (acks : List RelayAck) (target : RelayUrl) :
    InFlight × List LogEntry × List RelayAck → Prop
  | passed (hleft : relayFilter = none → unavailable.lookup target = none →
      ∀ l, laneIn row target = some l → l.ready nowMs = false) :
    Dispatched w key nowMs frame relayFilter unavailable row log acks target (row, log, acks)
  | refused (l : Lane) (hlane : laneIn row target = some l) (hready : l.ready nowMs = true)
    (hopen : unavailable.lookup target = none) (hgate : l.sanctioned = false) :
    Dispatched w key nowMs frame relayFilter unavailable row log acks target
      (change row target (.failedAfterRetries refusalReason nowMs)
        (row.pendingRetries.erase target), log, acks)
  | sent (l : Lane) (hlane : laneIn row target = some l) (hready : l.ready nowMs = true)
    (hopen : unavailable.lookup target = none) (hgate : l.sanctioned = true) :
    Dispatched w key nowMs frame relayFilter unavailable row log acks target
      (change row target (.inFlight nowMs l.nextAttempt) (row.pendingRetries.erase target),
        log ++ [.sent key target], acks ++ w.dispatch log target frame)

theorem dispatched (w : World) (nowMs : Nat) (key : PublishHandle) (frame : Frame)
    (relayFilter : Option RelayUrl)
    (unavailable : SortedMap RelayUrl (Option Nat)) (row : InFlight) (log : List LogEntry)
    (acks : List RelayAck) (target : RelayUrl) :
    Dispatched w key nowMs frame relayFilter unavailable row log acks target
      (dispatchRelay w key nowMs frame relayFilter unavailable (row, log, acks) target) := by
  unfold dispatchRelay
  dsimp only
  split
  next hnone =>
    refine .passed fun _ _ l hlane => ?_
    rw [laneIn, hnone] at hlane
    cases hlane
  next state hstate =>
    have hlane := laneIn_state hstate
    split
    next hfiltered =>
      refine .passed fun hfilter => ?_
      rw [hfilter] at hfiltered
      cases hfiltered
    split
    next hblocked =>
      refine .passed fun _ hopen => ?_
      rw [hopen] at hblocked
      cases hblocked
    split
    next hnot =>
      refine .passed fun _ _ l hl => ?_
      rw [hlane] at hl
      cases hl
      rw [ready_laneIn]
      simpa using hnot
    next hopen hready =>
      have hready' : isReady row target state nowMs = true := by simpa using hready
      have hopen' : unavailable.lookup target = none := by simpa using hopen
      split
      next hgate =>
        exact .refused _ hlane (ready_laneIn.trans hready') hopen' (by simpa using hgate)
      next hgate =>
        exact .sent _ hlane (ready_laneIn.trans hready') hopen' (by simpa using hgate)

theorem viewOf_dispatching (s : PublishEngine) (key : PublishHandle) (row : InFlight)
    (log : List LogEntry) (acks : List RelayAck) :
    viewOf (dispatching s key (row, log, acks)) handle url =
      if handle = key then ⟨laneIn row url, (s.unavailableRelays.lookup url).isSome⟩
      else viewOf s handle url := viewOf_setRow s key row

theorem sanctioned_of_laneIn {row : InFlight} {l : Lane} (h : laneIn row url = some l) :
    l.sanctioned = row.sanctioned url := by
  obtain ⟨state, -, rfl⟩ := Option.map_eq_some_iff.mp h
  rfl

section Change
variable (s : PublishEngine) {key : PublishHandle} {row : InFlight} {target : RelayUrl}
  (next : PerRelayState) (log log' : List LogEntry) (acks acks' : List RelayAck)

theorem viewOf_change_elsewhere (hne : ¬ (handle = key ∧ url = target)) :
    viewOf (dispatching s key
        (change row target next (row.pendingRetries.erase target), log', acks')) handle url =
      viewOf (dispatching s key (row, log, acks)) handle url := by
  rw [viewOf_dispatching, viewOf_dispatching]
  split
  next hkey =>
    rw [laneIn_change, if_neg fun hurl => hne ⟨hkey, hurl⟩]
    exact fun other hother => (lookup_erase ..).trans (if_neg hother)
  next => rfl

theorem viewOf_change_here (handle : PublishHandle) {l : Lane} (hlane : laneIn row url = some l)
    (hopen : s.unavailableRelays.lookup url = none) :
    viewOf (dispatching s handle (row, log, acks)) handle url = ⟨some l, false⟩ ∧
    viewOf (dispatching s handle
        (change row url next (row.pendingRetries.erase url), log', acks')) handle url =
      ⟨some ⟨next, none, l.sanctioned⟩, false⟩ := by
  rw [viewOf_dispatching, if_pos rfl, viewOf_dispatching, if_pos rfl, hlane, hopen,
    sanctioned_of_laneIn hlane, laneIn, lookup_change, if_pos rfl, Option.map_some]
  refine ⟨rfl, ?_⟩
  have hcleared : (row.pendingRetries.erase url).lookup url = none :=
    (lookup_erase ..).trans (if_pos rfl)
  exact congrArg (fun due => View.mk (some ⟨next, due, row.sanctioned url⟩) false) hcleared

end Change

theorem works_dispatchRelay (s : PublishEngine) (key : PublishHandle) (frame : Frame)
    (relayFilter : Option RelayUrl) (acc : InFlight × List LogEntry × List RelayAck)
    (target : RelayUrl) :
    Works handle url nowMs (dispatching s key acc) (dispatching s key
      (dispatchRelay w key nowMs frame relayFilter s.unavailableRelays acc target)) := by
  obtain ⟨row, log, acks⟩ := acc
  have hcase := dispatched w nowMs key frame relayFilter s.unavailableRelays row
    log acks target
  generalize dispatchRelay w key nowMs frame relayFilter s.unavailableRelays (row, log, acks)
    target = acc' at hcase ⊢
  cases hcase with
  | passed => exact .refl _
  | refused l hlane hready hopen hgate =>
    by_cases hhere : handle = key ∧ url = target
    · obtain ⟨rfl, rfl⟩ := hhere
      obtain ⟨hbefore, hafter⟩ := viewOf_change_here s
        (.failedAfterRetries refusalReason nowMs) log log acks acks handle hlane hopen
      refine .step [] [] rfl (List.append_nil _).symm rfl ?_
      rw [hbefore, hafter, hgate]
      exact .refuse l _ hready hgate
    · exact .idle _ rfl (List.append_nil _).symm rfl
        (viewOf_change_elsewhere s _ log log acks acks hhere)
  | sent l hlane hready hopen hgate =>
    by_cases hhere : handle = key ∧ url = target
    · obtain ⟨rfl, rfl⟩ := hhere
      obtain ⟨hbefore, hafter⟩ := viewOf_change_here s
        (.inFlight nowMs l.nextAttempt) log (log ++ [.sent handle url]) acks
        (acks ++ w.dispatch log url frame) handle hlane hopen
      refine .step _ [.sent nowMs] rfl rfl
        (List.filterMap_cons_some (if_pos ⟨rfl, rfl⟩)) ?_
      rw [hbefore, hafter, hgate]
      exact .send l hready hgate
    · have hnote : noteOf handle url nowMs (.sent key target) = none :=
        if_neg fun h => hhere ⟨h.1.symm, h.2.symm⟩
      refine .idle [.sent key target] rfl rfl ?_
        (viewOf_change_elsewhere s _ log _ acks _ hhere)
      rw [List.filterMap_cons_none hnote, List.filterMap_nil]

theorem works_dispatchLoop (s : PublishEngine) (key : PublishHandle) (frame : Frame)
    (relayFilter : Option RelayUrl) (targets : List RelayUrl)
    (acc : InFlight × List LogEntry × List RelayAck) :
    Works handle url nowMs (dispatching s key acc) (dispatching s key
      (targets.foldl (dispatchRelay w key nowMs frame relayFilter s.unavailableRelays) acc)) := by
  induction targets generalizing acc with
  | nil => exact .refl _
  | cons target _ ih =>
    exact (works_dispatchRelay s key frame relayFilter acc target).trans (ih _)

/-- The lane waits for an answer, for its retry or for nothing at all. -/
def Lane.Rested (l : Lane) : Prop :=
  match l.state with
  | .pending | .timedOut .. => False
  | _ => True

/-- What holds of every lane that the dispatcher refuses or sends to. -/
structure Leaves (nowMs : Nat) (p : Lane → Prop) : Prop where
  refused : ∀ due gate, p ⟨.failedAfterRetries refusalReason nowMs, due, gate⟩
  sent : ∀ attempt due gate, p ⟨.inFlight nowMs attempt, due, gate⟩

section Leaves
variable {p : Lane → Prop}

section

variable (hleaves : Leaves nowMs p) (key : PublishHandle) (frame : Frame)
  (unavailable : SortedMap RelayUrl (Option Nat)) (hopen : unavailable.lookup url = none)
include hleaves key frame unavailable hopen

theorem leaves_dispatchRelay (acc : InFlight × List LogEntry × List RelayAck) (target : RelayUrl)
    (hleft : ∀ l, laneIn acc.1 url = some l → l.ready nowMs = false → p l) (l : Lane)
    (hl : laneIn (dispatchRelay w key nowMs frame none unavailable acc target).1 url = some l) :
    p l ∨ (target ≠ url ∧ laneIn acc.1 url = some l) := by
  obtain ⟨row, log, acks⟩ := acc
  have hcase := dispatched w nowMs key frame none unavailable row log acks target
  generalize dispatchRelay w key nowMs frame none unavailable (row, log, acks) target = acc'
    at hcase hl
  have hchange : ∀ next : PerRelayState, (∀ due gate, p ⟨next, due, gate⟩) →
      laneIn (change row target next (row.pendingRetries.erase target)) url = some l →
      p l ∨ (target ≠ url ∧ laneIn row url = some l) := by
    intro next hnext hafter
    rw [laneIn_change] at hafter
    · split at hafter
      next => exact .inl (Option.some.inj hafter ▸ hnext _ _)
      next hne => exact .inr ⟨fun h => hne h.symm, hafter⟩
    · exact fun other hother => (lookup_erase ..).trans (if_neg hother)
  cases hcase with
  | refused => exact hchange (.failedAfterRetries refusalReason nowMs) hleaves.refused hl
  | sent l' => exact hchange (.inFlight nowMs l'.nextAttempt) (hleaves.sent _) hl
  | passed hpassed =>
    by_cases hurl : target = url
    · rw [hurl] at hpassed
      exact .inl (hleft l hl (hpassed rfl hopen l hl))
    · exact .inr ⟨hurl, hl⟩

/-- The loop comes by every target. -/
theorem leaves_dispatchLoop (targets : List RelayUrl)
    (acc : InFlight × List LogEntry × List RelayAck)
    (hleft : ∀ l, laneIn acc.1 url = some l → l.ready nowMs = false → p l)
    (h : url ∈ targets ∨ ∀ l, laneIn acc.1 url = some l → p l) (l : Lane)
    (hl : laneIn (targets.foldl (dispatchRelay w key nowMs frame none unavailable) acc).1 url = some l)
    : p l := by
  induction targets generalizing acc with
  | nil => exact h.resolve_left List.not_mem_nil l hl
  | cons target _ ih =>
    have hone := leaves_dispatchRelay (w := w) hleaves key frame unavailable hopen acc target hleft
    refine ih _ (fun l' hl' => ?_) ?_ hl
    · exact (hone l' hl').elim (fun hp _ => hp) fun hsame => hleft l' hsame.2
    · by_cases hurl : target = url
      · exact .inr fun l' hl' => (hone l' hl').resolve_right fun hsame => hsame.1 hurl
      · rcases h with hmem | hall
        · exact .inl (List.mem_of_ne_of_mem (Ne.symm hurl) hmem)
        · exact .inr fun l' hl' => (hone l' hl').elim id fun hsame => hall l' hsame.2

end

end Leaves

theorem works_dispatchPendingMatching (key : PublishHandle) (relayFilter : Option RelayUrl)
    (s : PublishEngine) :
    Works handle url nowMs s (dispatchPendingMatching w key relayFilter nowMs s) := by
  unfold dispatchPendingMatching
  split
  next => exact .refl s
  next row hrow =>
    have hsame : Works handle url nowMs s (dispatching s key (row, s.log, [])) := by
      refine .idle _ rfl (List.append_nil _).symm rfl ?_
      rw [viewOf_dispatching]
      split
      next heq => rw [heq, viewOf_row hrow]
      next => rfl
    exact (hsame.trans (works_dispatchLoop s key _ relayFilter _ _)).trans
      (.foldl (fun s ack => works_onAck key ack s) _ _)

/-- The dispatch of a handle in two parts: its available lanes are left before the acknowledgements
that come back at once are taken in. -/
theorem leaves_dispatchPending {p : Lane → Prop} (hleaves : Leaves nowMs p) (s : PublishEngine)
    (hleft : ∀ l, viewOf s handle url = ⟨some l, false⟩ → l.ready nowMs = false → p l) :
    ∃ mid, Works handle url nowMs s mid ∧
      (∀ l, viewOf mid handle url = ⟨some l, false⟩ → p l) ∧
      Works handle url nowMs mid (dispatchPending w handle nowMs s) := by
  unfold dispatchPending dispatchPendingMatching
  split
  next hnone =>
    refine ⟨s, .refl s, fun l hl => ?_, .refl s⟩
    rw [viewOf, hnone] at hl
    cases congrArg View.lane hl
  next row hrow =>
    have hsame : Works handle url nowMs s (dispatching s handle (row, s.log, [])) := by
      refine .idle _ rfl (List.append_nil _).symm rfl ?_
      rw [viewOf_dispatching, if_pos rfl, viewOf_row hrow]
    refine ⟨_, hsame.trans (works_dispatchLoop s handle _ none row.perRelay.keys _), fun l hl => ?_,
      .foldl (fun s ack => works_onAck handle ack s) _ _⟩
    generalize hout : row.perRelay.keys.foldl (dispatchRelay w handle nowMs
      (buildEventFrame row.event) none s.unavailableRelays) (row, s.log, []) = out at hl
    rw [viewOf_dispatching, if_pos rfl] at hl
    have hlane : laneIn out.1 url = some l := congrArg View.lane hl
    have hopen : s.unavailableRelays.lookup url = none := by simpa using congrArg View.blocked hl
    have hview : ∀ l', laneIn row url = some l' → viewOf s handle url = ⟨some l', false⟩ := by
      intro l' hl'
      rw [viewOf_row hrow, hl', hopen]
      rfl
    rw [← hout] at hlane
    refine leaves_dispatchLoop hleaves handle _ s.unavailableRelays hopen row.perRelay.keys
      (row, s.log, []) (fun l' hl' => hleft l' (hview l' hl')) ?_ l hlane
    by_cases hmem : url ∈ row.perRelay.keys
    · exact .inl hmem
    · refine .inr fun l' hl' => ?_
      obtain ⟨state, hstate, -⟩ := Option.map_eq_some_iff.mp hl'
      exact absurd (mem_keys.mpr ⟨state, hstate⟩) hmem

theorem works_dispatchAll (keys : List PublishHandle) (s : PublishEngine) :
    Works handle url nowMs s (keys.foldl (fun s key => dispatchPending w key nowMs s) s) :=
  .foldl (fun s key => works_dispatchPendingMatching key none s) s keys

/-- The lanes of a row that has just entered wait to be sent. -/
theorem viewOf_insertRow (event : SignedEvent) (target : PublishTarget)
    (reasons : SortedMap RelayUrl (List RelaySelectionReason)) (override : Option String)
    (s : PublishEngine) :
    (viewOf (insertRow handle (newRow event target reasons override) s) handle url).blocked =
        (viewOf s handle url).blocked ∧
      ∀ l, (viewOf (insertRow handle (newRow event target reasons override) s) handle url).lane =
        some l → l.state = .pending := by
  change (viewOf (setRow s handle _) handle url).blocked = _ ∧
    ∀ l, (viewOf (setRow s handle _) handle url).lane = some l → _
  rw [viewOf_setRow, if_pos rfl]
  refine ⟨rfl, fun l hl => ?_⟩
  obtain ⟨state, hstate, rfl⟩ := Option.map_eq_some_iff.mp hl
  rw [newRow, lookup_mapRows, Option.map_eq_some_iff] at hstate
  obtain ⟨_, _, hpending⟩ := hstate
  exact hpending.symm

theorem works_insertRow {key : PublishHandle} (hne : key ≠ handle) (row : InFlight)
    (s : PublishEngine) : Works handle url nowMs s (insertRow key row s) := by
  refine .idle [.opened key row.perRelay.keys] rfl rfl ?_ ?_
  · have hnote : noteOf handle url nowMs (.opened key row.perRelay.keys) = none := if_neg hne
    rw [List.filterMap_cons_none hnote, List.filterMap_nil]
  · change viewOf (setRow s key row) handle url = _
    rw [viewOf_setRow, if_neg (Ne.symm hne)]

def Lane.expire (policy : RetryPolicy) (nowMs : Nat) (l : Lane) : Lane :=
  { l with state := PublishEngine.expire policy nowMs l.state }

/-- Every available lane is swept once; one whose relay is unavailable may be given up. -/
structure Swept (policy : RetryPolicy) (nowMs : Nat) (v v' : View) : Prop where
  blocked : v'.blocked = v.blocked
  lane : v.blocked = false → v'.lane = v.lane.map (Lane.expire policy nowMs)

theorem expire_expire (policy : RetryPolicy) (state : PerRelayState) :
    expire policy nowMs (expire policy nowMs state) = expire policy nowMs state := by
  cases state with
  | inFlight sentAtMs attempt =>
    simp only [expire]
    by_cases hlate : policy.inflightDeadlineMs ≤ nowMs - sentAtMs
    · rw [if_pos hlate]
      by_cases hspent : policy.transientMaxRetries ≤ attempt
      · rw [if_pos hspent]
      · rw [if_neg hspent]
    · rw [if_neg hlate]
      exact if_neg hlate
  | _ => rfl

theorem Swept.again {policy : RetryPolicy} {v v' v'' : View} (h : Swept policy nowMs v v')
    (h' : Swept policy nowMs v' v'') : Swept policy nowMs v v'' where
  blocked := h'.blocked.trans h.blocked
  lane := by
    intro hopen
    rw [h'.lane (h.blocked.trans hopen), h.lane hopen, Option.map_map]
    congr 1
    funext l
    exact congrArg (fun state => { l with state := state }) (expire_expire policy l.state)

theorem giveUp_available (deadlineMs : Nat) {unavailable : SortedMap RelayUrl (Option Nat)}
    (hopen : unavailable.lookup url = none) (state : PerRelayState) :
    giveUp deadlineMs nowMs unavailable url state = state := by
  rw [giveUp, hopen]
  exact ite_self _

theorem sweepRow_spec (handle : PublishHandle) (url : RelayUrl) (nowMs : Nat) (key : PublishHandle)
    (s : PublishEngine) :
    (∃ inFlight, sweepRow nowMs s key = { s with inFlight := inFlight }) ∧
      (handle ≠ key → viewOf (sweepRow nowMs s key) handle url = viewOf s handle url) ∧
      (handle = key →
        Swept s.policy nowMs (viewOf s handle url) (viewOf (sweepRow nowMs s key) handle url)) := by
  unfold sweepRow
  split
  next hnone =>
    refine ⟨⟨_, rfl⟩, fun _ => rfl, fun heq => ⟨rfl, fun _ => ?_⟩⟩
    rw [← heq] at hnone
    rw [viewOf, hnone]
    rfl
  next row hrow =>
    refine ⟨⟨_, rfl⟩, fun hne => ?_, fun heq => ⟨?_, fun hopen => ?_⟩⟩
    · rw [viewOf_setRow, if_neg hne]
    · rw [viewOf_setRow, if_pos heq]
    · rw [← heq] at hrow
      rw [viewOf_row hrow] at hopen ⊢
      have hfree : s.unavailableRelays.lookup url = none := by simpa using hopen
      rw [viewOf_setRow, if_pos heq]
      have hstate : (sweepUnavailableTimeouts s.policy.inflightDeadlineMs nowMs s.unavailableRelays
          (sweepInflightTimeouts s.policy nowMs row)).perRelay.lookup url =
          (row.perRelay.lookup url).map (PublishEngine.expire s.policy nowMs) := by
        unfold sweepUnavailableTimeouts sweepInflightTimeouts
        split
        · dsimp only
          rw [lookup_mapRows, lookup_mapRows, Option.map_map]
          congr 1
          funext state
          exact giveUp_available _ hfree _
        · exact lookup_mapRows ..
      have hframe : ∀ row' : InFlight, row' = sweepUnavailableTimeouts s.policy.inflightDeadlineMs
          nowMs s.unavailableRelays (sweepInflightTimeouts s.policy nowMs row) →
          row'.pendingRetries = row.pendingRetries ∧ row'.sanctioned url = row.sanctioned url := by
        rintro _ rfl
        unfold sweepUnavailableTimeouts
        split <;> exact ⟨rfl, rfl⟩
      obtain ⟨hretries, hgate⟩ := hframe _ rfl
      dsimp only
      rw [laneIn, laneIn, hstate, hretries, hgate, Option.map_map, Option.map_map]
      rfl

/-- The sweep of a tick, over all rows. -/
theorem swept_all (w : World) (handle : PublishHandle) (url : RelayUrl) (nowMs : Nat)
    (s : PublishEngine) :
    (∃ inFlight, (w.rowOrder s.inFlight).foldl (sweepRow nowMs) s =
        { s with inFlight := inFlight }) ∧
      Swept s.policy nowMs (viewOf s handle url)
        (viewOf ((w.rowOrder s.inFlight).foldl (sweepRow nowMs) s) handle url) := by
  have hfold : ∀ (keys : List PublishHandle) (t : PublishEngine),
      (∃ inFlight, keys.foldl (sweepRow nowMs) t = { t with inFlight := inFlight }) ∧
        (handle ∉ keys → viewOf (keys.foldl (sweepRow nowMs) t) handle url = viewOf t handle url) ∧
        (handle ∈ keys → Swept t.policy nowMs (viewOf t handle url)
          (viewOf (keys.foldl (sweepRow nowMs) t) handle url)) := by
    intro keys
    induction keys with
    | nil => exact fun t => ⟨⟨_, rfl⟩, fun _ => rfl, fun h => absurd h List.not_mem_nil⟩
    | cons key rest ih =>
      intro t
      obtain ⟨⟨inFlight, hone⟩, helse, hhere⟩ :=
        sweepRow_spec handle url nowMs key t
      obtain ⟨⟨inFlight', hrest⟩, hout, hin⟩ := ih (sweepRow nowMs t key)
      have hpolicy : (sweepRow nowMs t key).policy = t.policy := by rw [hone]
      rw [List.foldl_cons]
      refine ⟨⟨inFlight', by rw [hrest, hone]⟩, fun hnot => ?_, fun hmem => ?_⟩
      · rw [List.mem_cons, not_or] at hnot
        rw [hout hnot.2, helse hnot.1]
      · rw [hpolicy] at hin
        by_cases hkey : handle = key
        · by_cases hlater : handle ∈ rest
          · exact (hhere hkey).again (hin hlater)
          · rw [hout hlater]
            exact hhere hkey
        · rw [← helse hkey]
          exact hin (List.mem_of_ne_of_mem hkey hmem)
  obtain ⟨hframe, hout, hin⟩ := hfold (w.rowOrder s.inFlight) s
  refine ⟨hframe, ?_⟩
  by_cases hmem : handle ∈ w.rowOrder s.inFlight
  · exact hin hmem
  · rw [hout hmem]
    have hrow : s.inFlight.lookup handle = none :=
      AList.lookup_eq_none.mpr fun h => hmem ((w.rowOrder_perm _).mem_iff.mpr h)
    refine ⟨rfl, fun _ => ?_⟩
    rw [viewOf, hrow]
    rfl

/-- Dropping the retries of a row changes no state. -/
theorem viewOf_dropRetries (handle : PublishHandle) (url : RelayUrl) {key : PublishHandle}
    {row : InFlight}
    (hrow : s.inFlight.lookup key = some row) :
    (viewOf (setRow s key (dropRetries row)) handle url).blocked = (viewOf s handle url).blocked ∧
      (viewOf (setRow s key (dropRetries row)) handle url).lane.map Lane.state =
        (viewOf s handle url).lane.map Lane.state := by
  rw [viewOf_setRow]
  split
  next heq =>
    rw [← heq] at hrow
    rw [viewOf_row hrow, laneIn, laneIn, Option.map_map, Option.map_map]
    exact ⟨rfl, rfl⟩
  next => exact ⟨rfl, rfl⟩

end Works

end PublishLanes
