import Mathlib.Logic.Relation
import NostrMultiPlatform.PublishEngine

/-!
# The engine as moves

What a call does between rows entering and leaving by hand is a sequence of small
moves: a row is rescheduled, walked back, refused, swept or sent; it takes in an
answer, is saved, widened or settled. Every later invariant is an argument about
one move.
-/
namespace PublishMoves

open PublishEngine PublishState Sorted Tables Relation

/-- An upsert in a world takes effect, or the world's store is not reliable. -/
def Upserted (w : World) (record : PublishRecord) (store store' : PublishStore) : Prop :=
  store' = store.upsert record ∨ ¬ w.Reliable ∧ store' = store

def Deleted (w : World) (handle : PublishHandle) (store store' : PublishStore) : Prop :=
  store' = store.delete handle ∨ ¬ w.Reliable ∧ store' = store

def change (row : InFlight) (url : RelayUrl) (state : PerRelayState)
    (retries : SortedMap RelayUrl Nat) : InFlight :=
  { row with perRelay := row.perRelay.insert url state, pendingRetries := retries }

/-- Moves of one row that leave no trace; only a row under work may lose its last open relay. -/
inductive RowMove (sweeping work : Prop) : InFlight → InFlight → Prop
  | reschedule (row : InFlight) (retries : SortedMap RelayUrl Nat) :
    RowMove sweeping work row { row with pendingRetries := retries }
  | demote (row : InFlight) (url : RelayUrl) (state : PerRelayState)
    (retries : SortedMap RelayUrl Nat) (hstate : row.perRelay.lookup url = some state)
    (hflight : state.isInFlight = true) :
    RowMove sweeping work row (change row url .pending retries)
  | refuse (row : InFlight) (url : RelayUrl) (state : PerRelayState)
    (retries : SortedMap RelayUrl Nat) (reason : String) (lastAtMs : Nat) (hwork : work)
    (hstate : row.perRelay.lookup url = some state) (hopen : state.isTerminal = false)
    (hgate : row.sanctioned url = false) :
    RowMove sweeping work row (change row url (.failedAfterRetries reason lastAtMs) retries)
  | sweep (row : InFlight) (f : RelayUrl → PerRelayState → PerRelayState) (hwork : work)
    (hsweeping : sweeping)
    (hf : ∀ url state, f url state = state ∨ state.isTerminal = false ∧ (f url state).isOk = false) :
    RowMove sweeping work row { row with perRelay := row.perRelay.mapRows f }

/-- The terminal of a complete row is recorded and the row leaves. -/
def evict (s : PublishEngine) (handle : PublishHandle) (row : InFlight) (store : PublishStore) :
    PublishEngine :=
  let terminal := LastTerminal.fromOutcome handle row.correlationIdOverride (terminalOutcomeOf row)
  { recordTerminal handle terminal s with inFlight := s.inFlight.erase handle, store := store }

/-- A move of the row of one handle. -/
inductive Act (w : World) (sweeping : Prop) (hs : List PublishHandle) (handle : PublishHandle)
    (s : PublishEngine) : PublishEngine → Prop
  | edit (row row' : InFlight) (hrow : s.inFlight.lookup handle = some row)
    (hmove : RowMove sweeping (handle ∈ hs) row row') :
    Act w sweeping hs handle s (setRow s handle row')
  | send (row : InFlight) (url : RelayUrl) (state : PerRelayState)
    (retries : SortedMap RelayUrl Nat) (sentAtMs attempt : Nat)
    (hrow : s.inFlight.lookup handle = some row) (hstate : row.perRelay.lookup url = some state)
    (hopen : state.isTerminal = false) (hgate : row.sanctioned url = true) :
    Act w sweeping hs handle s (logged (setRow s handle
      (change row url (.inFlight sentAtMs attempt) retries)) (.sent handle url))
  | answer (row : InFlight) (url : RelayUrl) (state next : PerRelayState)
    (retries : SortedMap RelayUrl Nat) (store : PublishStore)
    (hrow : s.inFlight.lookup handle = some row) (hstate : row.perRelay.lookup url = some state)
    (hflight : state.isInFlight = true) (hleft : isComplete (change row url next retries) = false)
    (hstore : Upserted w (recordOf handle (change row url next retries)) s.store store) :
    Act w sweeping hs handle s { logged (setRow s handle (change row url next retries))
      (.answered handle url next) with store := store }
  | close (row : InFlight) (url : RelayUrl) (state next : PerRelayState)
    (retries : SortedMap RelayUrl Nat) (store : PublishStore)
    (hrow : s.inFlight.lookup handle = some row) (hstate : row.perRelay.lookup url = some state)
    (hflight : state.isInFlight = true) (hdone : isComplete (change row url next retries) = true)
    (hstore : Deleted w handle s.store store) :
    Act w sweeping hs handle s (evict (logged (setRow s handle (change row url next retries))
      (.answered handle url next)) handle (change row url next retries) store)
  | save (row : InFlight) (store : PublishStore) (hrow : s.inFlight.lookup handle = some row)
    (hstore : Upserted w (recordOf handle row) s.store store) :
    Act w sweeping hs handle s { s with store := store }
  | widen (row : InFlight) (fresh : SortedMap RelayUrl (List RelaySelectionReason))
    (store : PublishStore) (hrow : s.inFlight.lookup handle = some row)
    (hfresh : ∀ url ∈ fresh.keys, row.perRelay.lookup url = none) (hsome : fresh.rows ≠ [])
    (hresolved : ∃ resolved, (∀ r ∈ resolved, r ∈ resolveFor w row.event row.target) ∧
      fresh = relayMap resolved)
    (hstore : Upserted w (recordOf handle (widenRow row fresh)) s.store store) :
    Act w sweeping hs handle s { logged (setRow s handle (widenRow row fresh))
      (.widened handle fresh.keys) with store := store }
  | settle (row : InFlight) (store : PublishStore) (hrow : s.inFlight.lookup handle = some row)
    (hdone : isComplete row = true) (hstore : Deleted w handle s.store store) :
    Act w sweeping hs handle s (evict s handle row store)

inductive Move (w : World) (sweeping : Prop) (hs : List PublishHandle) (s : PublishEngine) :
    PublishEngine → Prop
  | gate (unavailable : SortedMap RelayUrl (Option Nat)) :
    Move w sweeping hs s { s with unavailableRelays := unavailable }
  | act (handle : PublishHandle) {s' : PublishEngine} (h : Act w sweeping hs handle s s') :
    Move w sweeping hs s s'

abbrev Moves (w : World) (sweeping : Prop) (hs : List PublishHandle) :
    PublishEngine → PublishEngine → Prop :=
  ReflTransGen (Move w sweeping hs)

theorem upsert_spec (w : World) (record : PublishRecord) (s : PublishEngine) :
    ∃ store, (upsert w record s).1 = { s with store := store } ∧
      Upserted w record s.store store := by
  unfold upsert
  split
  next error h =>
    refine ⟨s.store, rfl, .inr ⟨fun hw => ?_, rfl⟩⟩
    rw [hw] at h
    cases h
  next => exact ⟨_, rfl, .inl rfl⟩

theorem delete_eq {w : World} {handle : PublishHandle} {s : PublishEngine}
    (h : w.storeError s.log (.delete handle) = none) :
    delete w handle s = { s with store := s.store.delete handle } := by
  rw [delete, h]

theorem delete_spec (w : World) (handle : PublishHandle) (s : PublishEngine) :
    ∃ store, delete w handle s = { s with store := store } ∧ Deleted w handle s.store store := by
  unfold delete
  split
  next error h =>
    refine ⟨s.store, rfl, .inr ⟨fun hw => ?_, rfl⟩⟩
    rw [hw] at h
    cases h
  next => exact ⟨_, rfl, .inl rfl⟩

theorem settleRow_eq (w : World) (handle : PublishHandle) (row : InFlight) (s : PublishEngine) :
    ∃ store, settleRow w handle row s = evict s handle row store ∧
      Deleted w handle s.store store := by
  obtain ⟨store, hdelete, hstore⟩ := delete_spec w handle
    (recordTerminal handle (LastTerminal.fromOutcome handle row.correlationIdOverride
      (terminalOutcomeOf row)) s)
  refine ⟨store, ?_, hstore⟩
  simp only [settleRow, hdelete]
  rfl

theorem lookup_setRow (s : PublishEngine) (handle other : PublishHandle) (row : InFlight) :
    (setRow s handle row).inFlight.lookup other =
      if other = handle then some row else s.inFlight.lookup other :=
  lookup_insert_eq ..

@[simp] theorem lookup_setRow_self (s : PublishEngine) (handle : PublishHandle) (row : InFlight) :
    (setRow s handle row).inFlight.lookup handle = some row := by
  rw [lookup_setRow, if_pos rfl]

theorem persist_eq (w : World) {s : PublishEngine} {handle : PublishHandle} {row : InFlight}
    (h : s.inFlight.lookup handle = some row) :
    persist w handle s = upsert w (recordOf handle row) s := by
  rw [persist, h]

section Moves
variable {w : World} {sweeping : Prop} {hs : List PublishHandle}

variable {url : RelayUrl} {handle key : PublishHandle} (relayUrl : String) (s : PublishEngine)
  (nowMs : Nat)

theorem persist_moves (handle : PublishHandle) : Moves w sweeping hs s (persist w handle s).1 := by
  cases h : s.inFlight.lookup handle with
  | none =>
    rw [persist, h]
  | some row =>
    obtain ⟨store, hupsert, hstore⟩ := upsert_spec w (recordOf handle row) s
    rw [persist_eq w h, hupsert]
    exact .single (.act handle (.save row store h hstore))

theorem finalizeRow_moves (handle : PublishHandle) :
    Moves w sweeping hs s (finalizeRow w s handle) := by
  unfold finalizeRow
  split
  next => exact .refl
  next row h =>
    split
    next hdone =>
      obtain ⟨store, hsettle, hstore⟩ := settleRow_eq w handle row s
      rw [hsettle]
      exact .single (.act handle (.settle row store h hdone hstore))
    next => exact .refl

/-- A fold of steps that are moves is moves. -/
theorem foldl_moves {α : Type} {step : PublishEngine → α → PublishEngine} {xs : List α}
    (hstep : ∀ s x, x ∈ xs → Moves w sweeping hs s (step s x)) (s : PublishEngine) :
    Moves w sweeping hs s (xs.foldl step s) := by
  induction xs generalizing s with
  | nil => exact .refl
  | cons x _ ih =>
    have hhead := hstep s x List.mem_cons_self
    exact hhead.trans (ih (fun s y hy => hstep s y (List.mem_cons_of_mem x hy)) (step s x))

theorem finalizeCompletedRows_moves (handles : List PublishHandle) (s : PublishEngine) :
    Moves w sweeping hs s (finalizeCompletedRows w handles s) :=
  foldl_moves (fun s handle _ => finalizeRow_moves s handle) s

theorem awaits_iff {row : InFlight} :
    awaits url row = true ↔
      ∃ state, row.perRelay.lookup url = some state ∧ state.isInFlight = true := by
  rw [awaits, Option.any_eq_true]

theorem demoteRows_moves (url : RelayUrl) (handles : List PublishHandle) (s : PublishEngine) :
    Moves w sweeping hs s (demoteRows url handles s) := by
  refine foldl_moves (fun s handle _ => ?_) s
  split
  next => exact .refl
  next row hrow =>
    split
    next hawaits =>
      obtain ⟨state, hstate, hflight⟩ := awaits_iff.mp hawaits
      exact .single (.act handle (.edit row _ hrow (.demote row url state _ hstate hflight)))
    next => exact .refl

theorem persistAll_moves (handles : List PublishHandle) (s : PublishEngine) :
    Moves w sweeping hs s (persistAll w handles s).1 := by
  induction handles generalizing s with
  | nil => exact .refl
  | cons handle _ ih =>
    have hhead : Moves w sweeping hs s (persist w handle s).1 := persist_moves s handle
    rw [persistAll]
    split
    next s' error h =>
      rw [h] at hhead
      exact hhead
    next s' h =>
      rw [h] at hhead
      exact hhead.trans (ih s')

theorem demoteInflightToPending_moves (url : RelayUrl) (s : PublishEngine) :
    Moves w sweeping hs s (demoteInflightToPending w url s).1 :=
  (demoteRows_moves url _ s).trans (persistAll_moves _ _)

theorem markRelayUnavailable_moves (s : PublishEngine) :
    Moves w sweeping hs s (markRelayUnavailable w relayUrl nowMs s).1 := by
  unfold markRelayUnavailable
  dsimp only
  split
  next => exact demoteInflightToPending_moves _ s
  next => exact .head (.gate _) (demoteInflightToPending_moves _ _)

theorem parkRelayAwaitingAuth_moves :
    Moves w sweeping hs s (parkRelayAwaitingAuth w relayUrl s).1 :=
  .head (.gate _) (demoteInflightToPending_moves _ _)

theorem setState_same {row : InFlight} {state : PerRelayState}
    (h : row.perRelay.lookup url = some state) : row.setState url state = row := by
  have hsame : row.perRelay.insert url state = row.perRelay := by
    apply SortedMap.ext
    intro other
    rw [SortedMap.lookup_insert]
    split
    next heq => rw [heq, h]
    next => rfl
  rw [InFlight.setState, hsame]

/-- A verdict that does not park writes one state of the row. -/
theorem applyVerdict_eq {row row' : InFlight} {verdict : RetryVerdict} {nowMs : Nat}
    (h : applyVerdict row url verdict nowMs = some row') :
    ∃ next retries, row' = change row url next retries := by
  cases verdict with
  | settled next => exact ⟨next, row.pendingRetries, (Option.some.inj h).symm⟩
  | scheduleRetry => exact ⟨_, _, (Option.some.inj h).symm⟩
  | parkAwaitingAuth => cases h

theorem lookup_change (row : InFlight) (url other : RelayUrl) (state : PerRelayState)
    (retries : SortedMap RelayUrl Nat) : (change row url state retries).perRelay.lookup other =
      if other = url then some state else row.perRelay.lookup other :=
  SortedMap.lookup_insert ..

/-- An answered row is settled when it is complete and saved when it is not. -/
theorem answered_moves {s : PublishEngine} {row : InFlight} {state next : PerRelayState}
    {retries : SortedMap RelayUrl Nat} (hrow : s.inFlight.lookup handle = some row)
    (hstate : row.perRelay.lookup url = some state) (hflight : state.isInFlight = true) :
    let row' := change row url next retries
    let s' := logged (setRow s handle row') (.answered handle url next)
    Moves w sweeping hs s
      (if isComplete row' then settleRow w handle row' s' else (persist w handle s').1) := by
  intro row' s'
  split
  next hdone =>
    obtain ⟨store, hsettle, hstore⟩ := settleRow_eq w handle row' s'
    rw [hsettle]
    exact .single (.act handle
      (.close row url state next retries store hrow hstate hflight hdone hstore))
  next hleft =>
    have hfound : s'.inFlight.lookup handle = some row' := lookup_setRow_self s handle row'
    obtain ⟨store, hupsert, hstore⟩ := upsert_spec w (recordOf handle row') s'
    rw [persist_eq w hfound, hupsert]
    exact .single (.act handle (.answer row url state next retries store hrow hstate hflight
      (Bool.not_eq_true _ ▸ hleft) hstore))

/-- A stale acknowledgement saves the row as it is, or settles it where nothing is left to do. -/
theorem stale_moves {s : PublishEngine} {row : InFlight}
    (hrow : s.inFlight.lookup handle = some row) :
    Moves w sweeping hs s
      (if isComplete row then settleRow w handle row (setRow s handle row)
        else (persist w handle (setRow s handle row)).1) := by
  have hsame : Move w sweeping hs s (setRow s handle row) :=
    .act handle (.edit row row hrow (.reschedule row row.pendingRetries))
  split
  next hdone =>
    obtain ⟨store, hsettle, hstore⟩ := settleRow_eq w handle row (setRow s handle row)
    rw [hsettle]
    exact .head hsame (.single (.act handle
      (.settle row store (lookup_setRow_self ..) hdone hstore)))
  next => exact .head hsame (persist_moves _ handle)

theorem onAck_moves (handle : PublishHandle) (ack : RelayAck) (nowMs : Nat) (s : PublishEngine) :
    Moves w sweeping hs s (onAck w handle ack nowMs s) := by
  unfold onAck
  split
  next => exact .refl
  next row hrow =>
    dsimp only
    split
    next => exact .refl
    next state hstate =>
      cases hflight : state.isInFlight with
      | true =>
        split
        next => exact parkRelayAwaitingAuth_moves _ s
        next row' hverdict =>
          obtain ⟨next, retries, rfl⟩ := applyVerdict_eq hverdict
          rw [noteAnswer, if_pos hflight, lookup_change, if_pos rfl, Option.getD_some]
          exact answered_moves hrow hstate hflight
      | false =>
        rw [applyAck_stale hflight, applyVerdict]
        dsimp only
        rw [setState_same hstate, noteAnswer, hflight, if_neg Bool.false_ne_true]
        exact stale_moves hrow

/-- The engine in the middle of a dispatch loop. -/
def dispatching (s : PublishEngine) (handle : PublishHandle)
    (acc : InFlight × List LogEntry × List RelayAck) : PublishEngine :=
  { setRow s handle acc.1 with log := acc.2.1 }

theorem setRow_dispatching (handle : PublishHandle) (row row' : InFlight) (log : List LogEntry)
    (acks acks' : List RelayAck) :
    setRow (dispatching s handle (row, log, acks)) handle row' =
      dispatching s handle (row', log, acks') := by
  simp only [dispatching, setRow, AList.insert_insert]

theorem logged_dispatching (handle : PublishHandle) (row : InFlight) (log : List LogEntry)
    (e : LogEntry) (acks acks' : List RelayAck) :
    logged (dispatching s handle (row, log, acks)) e =
      dispatching s handle (row, log ++ [e], acks') := rfl

theorem isTerminal_of_isReady {row : InFlight} {state : PerRelayState} {nowMs : Nat}
    (h : isReady row url state nowMs = true) : state.isTerminal = false := by
  cases state with
  | ok | failedAfterRetries => cases h
  | _ => rfl

theorem dispatchRelay_moves {s : PublishEngine} (hwork : handle ∈ hs) (nowMs : Nat) (frame : Frame)
    (relayFilter : Option RelayUrl) (unavailable : SortedMap RelayUrl (Option Nat))
    (acc : InFlight × List LogEntry × List RelayAck) (url : RelayUrl) :
    Moves w sweeping hs (dispatching s handle acc) (dispatching s handle
      (dispatchRelay w handle nowMs frame relayFilter unavailable acc url)) := by
  obtain ⟨row, log, acks⟩ := acc
  have hrow : (dispatching s handle (row, log, acks)).inFlight.lookup handle = some row :=
    lookup_setRow_self s handle row
  unfold dispatchRelay
  dsimp only
  split
  next => exact .refl
  next state hstate =>
    split
    next => exact .refl
    split
    next => exact .refl
    split
    next => exact .refl
    next hready =>
      have hopen : state.isTerminal = false :=
        isTerminal_of_isReady (by simpa using hready : isReady row url state nowMs = true)
      split
      next hgate =>
        have hrefused : RowMove sweeping (handle ∈ hs) row _ :=
          .refuse row url state (row.pendingRetries.erase url) refusalReason nowMs hwork hstate
            hopen (by simpa using hgate)
        have hmove : Move w sweeping hs _ _ := .act handle (.edit row _ hrow hrefused)
        rw [setRow_dispatching s handle row _ log acks acks] at hmove
        exact .single hmove
      next hgate =>
        have hmove : Move w sweeping hs _ _ := .act handle (.send row url state
          (row.pendingRetries.erase url) nowMs (max (min (state.attempt + 1) u32Max) 1) hrow hstate
          hopen (by simpa using hgate))
        rw [setRow_dispatching s handle row _ log acks acks,
          logged_dispatching s handle _ log _ acks (acks ++ w.dispatch log url frame)] at hmove
        exact .single hmove

theorem dispatchLoop_moves {s : PublishEngine} (hwork : handle ∈ hs) (nowMs : Nat) (frame : Frame)
    (relayFilter : Option RelayUrl) (unavailable : SortedMap RelayUrl (Option Nat))
    (urls : List RelayUrl) (acc : InFlight × List LogEntry × List RelayAck) :
    Moves w sweeping hs (dispatching s handle acc) (dispatching s handle
      (urls.foldl (dispatchRelay w handle nowMs frame relayFilter unavailable) acc)) := by
  induction urls generalizing acc with
  | nil => exact .refl
  | cons url _ ih =>
    exact (dispatchRelay_moves hwork nowMs frame relayFilter unavailable acc url).trans (ih _)

theorem dispatchPendingMatching_moves (hwork : handle ∈ hs) (relayFilter : Option RelayUrl)
    (nowMs : Nat) (s : PublishEngine) :
    Moves w sweeping hs s (dispatchPendingMatching w handle relayFilter nowMs s) := by
  unfold dispatchPendingMatching
  split
  next => exact .refl
  next row hrow =>
    have hsame : Move w sweeping hs s (dispatching s handle (row, s.log, [])) :=
      .act handle (.edit row row hrow (.reschedule row row.pendingRetries))
    have hloop : Moves w sweeping hs (dispatching s handle (row, s.log, [])) _ :=
      dispatchLoop_moves hwork nowMs (buildEventFrame row.event) relayFilter s.unavailableRelays
        row.perRelay.keys (row, s.log, [])
    have hacks : ∀ (acks : List RelayAck) t, Moves w sweeping hs t
        (acks.foldl (fun s ack => onAck w handle ack nowMs s) t) :=
      fun acks => foldl_moves fun t ack _ => onAck_moves handle ack nowMs t
    exact (hloop.head hsame).trans (hacks _ _)

theorem dispatchPending_moves (hwork : handle ∈ hs) (nowMs : Nat) (s : PublishEngine) :
    Moves w sweeping hs s (dispatchPending w handle nowMs s) :=
  dispatchPendingMatching_moves hwork none nowMs s

theorem expire_cases (policy : RetryPolicy) (nowMs : Nat) (state : PerRelayState) :
    expire policy nowMs state = state ∨
      state.isTerminal = false ∧ (expire policy nowMs state).isOk = false := by
  cases state with
  | inFlight =>
    right
    refine ⟨rfl, ?_⟩
    simp only [expire]
    split
    · split <;> rfl
    · rfl
  | _ => exact .inl rfl

theorem giveUp_cases (deadlineMs nowMs : Nat) (unavailable : SortedMap RelayUrl (Option Nat))
    (url : RelayUrl) (state : PerRelayState) :
    giveUp deadlineMs nowMs unavailable url state = state ∨ state.isTerminal = false ∧
      (giveUp deadlineMs nowMs unavailable url state).isOk = false := by
  unfold giveUp
  split
  next => exact .inl rfl
  next hopen =>
    split
    next since hsince =>
      split
      next => exact .inr ⟨Bool.not_eq_true _ ▸ hopen, rfl⟩
      next => exact .inl rfl
    next => exact .inl rfl

theorem sweepRow_moves (hwork : handle ∈ hs) (hsweeping : sweeping) (nowMs : Nat)
    (s : PublishEngine) : Moves w sweeping hs s (sweepRow nowMs s handle) := by
  unfold sweepRow
  split
  next => exact .refl
  next row hrow =>
    let swept := sweepInflightTimeouts s.policy nowMs row
    have hexpire : Move w sweeping hs s (setRow s handle swept) :=
      .act handle (.edit row swept hrow (.sweep row _ hwork hsweeping
        fun _ state => expire_cases s.policy nowMs state))
    unfold sweepUnavailableTimeouts
    split
    next =>
      have hgive : Move w sweeping hs (setRow s handle swept) _ :=
        .act handle (.edit swept _ (lookup_setRow_self ..) (.sweep swept _ hwork hsweeping fun url state =>
          giveUp_cases s.policy.inflightDeadlineMs nowMs s.unavailableRelays url state))
      have hsame : ∀ row', setRow (setRow s handle swept) handle row' = setRow s handle row' :=
        fun row' => by simp only [setRow, AList.insert_insert]
      rw [hsame] at hgive
      exact .head hexpire (.single hgive)
    next => exact .single hexpire

theorem tick_moves (s : PublishEngine) :
    Moves w True (w.rowOrder s.inFlight) s (tick w nowMs s) := by
  have hsweep : ∀ s', Moves w True (w.rowOrder s.inFlight) s'
      ((w.rowOrder s.inFlight).foldl (sweepRow nowMs) s') :=
    foldl_moves fun s' handle hwork => sweepRow_moves hwork trivial nowMs s'
  have hdispatch : ∀ s', Moves w True (w.rowOrder s.inFlight) s'
      ((w.rowOrder s.inFlight).foldl (fun s handle => dispatchPending w handle nowMs s) s') :=
    foldl_moves fun s' handle hwork => dispatchPending_moves hwork nowMs s'
  exact (hsweep s).trans ((hdispatch _).trans (finalizeCompletedRows_moves _ _))

theorem mem_keys_relayMap {resolved : List ResolvedRelay} :
    url ∈ (relayMap resolved).keys ↔ ∃ r ∈ resolved, canonicalRelayIdentity r.url = url := by
  have hfold : ∀ m : SortedMap RelayUrl (List RelaySelectionReason),
      url ∈ (resolved.foldl (fun m r => m.alter (canonicalRelayIdentity r.url) fun bucket =>
        let bucket := bucket.getD []
        if r.reason ∈ bucket then bucket else bucket ++ [r.reason]) m).keys ↔
      url ∈ m.keys ∨ ∃ r ∈ resolved, canonicalRelayIdentity r.url = url := by
    induction resolved with
    | nil => simp
    | cons r _ ih =>
      intro m
      rw [List.foldl_cons, ih, List.exists_mem_cons_iff, SortedMap.mem_keys, SortedMap.mem_keys,
        SortedMap.lookup_alter]
      by_cases h : url = canonicalRelayIdentity r.url
      · simp [h]
      · simp [h, Ne.symm h]
  have hempty : url ∉ (∅ : SortedMap RelayUrl (List RelaySelectionReason)).keys :=
    fun hmem => List.not_mem_nil hmem
  rw [relayMap, hfold]
  exact or_iff_right hempty

theorem retargetRow_moves (handle : PublishHandle) (s : PublishEngine) :
    Moves w sweeping hs s (retargetRow w handle s) := by
  unfold retargetRow
  split
  next => exact .refl
  next row hrow =>
    split
    next => exact .refl
    dsimp only
    split
    next => exact .refl
    next hsome =>
      let fresh := newRelays row (resolveFor w row.event row.target)
      have hfresh : ∀ url ∈ fresh.keys, row.perRelay.lookup url = none := by
        intro url hurl
        obtain ⟨r, hr, rfl⟩ := mem_keys_relayMap.mp hurl
        exact Option.isNone_iff_eq_none.mp (List.mem_filter.mp hr).2
      let s' := logged (setRow s handle (widenRow row fresh)) (.widened handle fresh.keys)
      have hfound : s'.inFlight.lookup handle = some (widenRow row fresh) :=
        lookup_setRow_self s handle _
      obtain ⟨store, hupsert, hstore⟩ := upsert_spec w (recordOf handle (widenRow row fresh)) s'
      have hpersist : (persist w handle s').1 = { s' with store := store } := by
        rw [persist_eq w hfound, hupsert]
      have hact : Act w sweeping hs handle s (persist w handle s').1 :=
        hpersist ▸ .widen row fresh store hrow hfresh hsome
          ⟨_, fun r hr => (List.mem_filter.mp hr).1, rfl⟩ hstore
      exact .single (.act handle hact)

theorem markRelayAvailable_moves (s : PublishEngine) :
    Moves w sweeping (w.rowOrder s.inFlight) s (markRelayAvailable w relayUrl nowMs s) := by
  let url := canonicalRelayIdentity relayUrl
  have hopen : Move w sweeping (w.rowOrder s.inFlight) s
      { s with unavailableRelays := s.unavailableRelays.erase url } := .gate _
  have hrows : ∀ s', Moves w sweeping (w.rowOrder s.inFlight) s'
      ((w.rowOrder s.inFlight).foldl (fun s handle =>
        dispatchPendingMatching w handle (some url) nowMs (retargetRow w handle s)) s') :=
    foldl_moves fun s' handle hwork => (retargetRow_moves handle s').trans
      (dispatchPendingMatching_moves hwork (some url) nowMs _)
  exact .head hopen ((hrows _).trans (finalizeCompletedRows_moves _ _))

theorem retryNow_moves (handle : PublishHandle) (nowMs : Nat) (s : PublishEngine) :
    Moves w sweeping [handle] s (retryNow w handle nowMs s).1 := by
  unfold retryNow
  split
  next => exact .refl
  next row hrow =>
    have hdrop : Move w sweeping [handle] s (setRow s handle (dropRetries row)) :=
      .act handle (.edit row _ hrow (.reschedule row _))
    have hsave : Moves w sweeping [handle] _
        (persist w handle (setRow s handle (dropRetries row))).1 := persist_moves _ handle
    split
    next s' error h =>
      rw [h] at hsave
      exact .head hdrop hsave
    next s' h =>
      rw [h] at hsave
      exact .head hdrop (hsave.trans ((dispatchPending_moves List.mem_cons_self nowMs s').trans
        (finalizeCompletedRows_moves _ _)))

/-- A move acts on one row in flight and leaves all other handles as they are. -/
structure Off (key : PublishHandle) (s s' : PublishEngine) : Prop where
  rows : ∀ handle, handle ≠ key → s'.inFlight.lookup handle = s.inFlight.lookup handle
  store : ∀ handle, handle ≠ key → s'.store.rows.lookup handle = s.store.rows.lookup handle
  log : ∃ more, s'.log = s.log ++ more ∧ ∀ e ∈ more, e.about = some key

theorem Upserted.off {record : PublishRecord} {store store' : PublishStore}
    (h : Upserted w record store store') (hne : handle ≠ record.handle) :
    store'.rows.lookup handle = store.rows.lookup handle := by
  rcases h with rfl | ⟨-, rfl⟩
  · exact AList.lookup_insert_ne hne
  · rfl

theorem Deleted.off {store store' : PublishStore} (h : Deleted w key store store')
    (hne : handle ≠ key) : store'.rows.lookup handle = store.rows.lookup handle := by
  rcases h with rfl | ⟨-, rfl⟩
  · exact AList.lookup_erase_ne hne
  · rfl

theorem off_setRow (key : PublishHandle) (row : InFlight) :
    Off key s (setRow s key row) where
  rows _ hne := AList.lookup_insert_ne hne
  store _ _ := rfl
  log := ⟨[], (List.append_nil _).symm, fun _ he => absurd he List.not_mem_nil⟩

theorem Off.logged {key : PublishHandle} {s s' : PublishEngine} (h : Off key s s') {e : LogEntry}
    (he : e.about = some key) : Off key s (logged s' e) where
  rows := h.rows
  store := h.store
  log := by
    obtain ⟨more, hmore, habout⟩ := h.log
    refine ⟨more ++ [e], ?_, fun e' he' => ?_⟩
    · rw [PublishEngine.logged, hmore, List.append_assoc]
    · rcases List.mem_append.mp he' with he' | he'
      · exact habout e' he'
      · exact List.mem_singleton.mp he' ▸ he

theorem Off.withStore {s s' : PublishEngine} (h : Off key s s') {store : PublishStore}
    (hstore : ∀ handle, handle ≠ key → store.rows.lookup handle = s.store.rows.lookup handle) :
    Off key s { s' with store := store } where
  rows := h.rows
  store := hstore
  log := h.log

theorem Off.evict {key : PublishHandle} {s s' : PublishEngine} (h : Off key s s') (row : InFlight)
    {store : PublishStore} (hstore : ∀ handle, handle ≠ key →
      store.rows.lookup handle = s.store.rows.lookup handle) :
    Off key s (evict s' key row store) where
  rows _ hne := (AList.lookup_erase_ne hne).trans (h.rows _ hne)
  store := hstore
  log := (h.logged (e := .ended key _) rfl).log

theorem Act.off {s s' : PublishEngine} (h : Act w sweeping hs key s s') : Off key s s' := by
  have hself : Off key s s := ⟨fun _ _ => rfl, fun _ _ => rfl, [], by simp⟩
  cases h with
  | edit _ row' => exact off_setRow s key row'
  | send => exact (off_setRow s key _).logged rfl
  | answer _ _ _ _ _ _ _ _ _ _ hstore =>
    exact ((off_setRow s key _).logged rfl).withStore fun _ hne => Upserted.off hstore hne
  | close _ _ _ _ _ _ _ _ _ _ hstore =>
    exact ((off_setRow s key _).logged rfl).evict _ fun _ hne => Deleted.off hstore hne
  | save _ _ _ hstore => exact hself.withStore fun _ hne => Upserted.off hstore hne
  | widen _ _ _ _ _ _ _ hstore =>
    exact ((off_setRow s key _).logged rfl).withStore fun _ hne => Upserted.off hstore hne
  | settle row _ _ _ hstore => exact hself.evict row fun _ hne => Deleted.off hstore hne

theorem Act.row {key : PublishHandle} {s s' : PublishEngine} (h : Act w sweeping hs key s s') :
    ∃ row, s.inFlight.lookup key = some row := by
  cases h with
  | edit row _ hrow => exact ⟨row, hrow⟩
  | send row _ _ _ _ _ hrow => exact ⟨row, hrow⟩
  | answer row _ _ _ _ _ hrow => exact ⟨row, hrow⟩
  | close row _ _ _ _ _ hrow => exact ⟨row, hrow⟩
  | save row _ hrow => exact ⟨row, hrow⟩
  | widen row _ _ hrow => exact ⟨row, hrow⟩
  | settle row _ hrow => exact ⟨row, hrow⟩

end Moves

end PublishMoves
