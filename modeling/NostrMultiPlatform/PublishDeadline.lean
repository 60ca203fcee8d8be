import NostrMultiPlatform.PublishLanes

/-!
# When the engine wants to be woken

`next_deadline_ms` computes from the rows when the next tick has work. A relay is
due at a time if a tick then sweeps it, gives it up, sends to it or refuses it.
Before the deadline no relay is due, and a tick leaves everything alone; at the
deadline one is.
-/
namespace PublishDeadline

open PublishEngine PublishLanes PublishMoves PublishState Sorted Tables

/-- What one relay adds to the deadlines of its row. -/
def candidateMs (row : InFlight) (unavailable : SortedMap RelayUrl (Option Nat)) (nowMs : Nat)
    (policy : RetryPolicy) (unavailableDeadlineIsLive : Bool) (url : RelayUrl)
    (state : PerRelayState) : Option Nat :=
  match unavailable.lookup url with
  | some unavailableSince =>
    if !state.isTerminal && unavailableDeadlineIsLive then
      unavailableSince.map fun since => saturatingAdd since policy.inflightDeadlineMs
    else none
  | none =>
    match state with
    | .pending => some nowMs
    | .inFlight sentAtMs _ => some (saturatingAdd sentAtMs policy.inflightDeadlineMs)
    | .relayError .. | .timedOut .. => (row.pendingRetries.lookup url).or (some nowMs)
    | .ok _ | .failedAfterRetries .. => none

def sooner (next candidate : Option Nat) : Option Nat :=
  match candidate with
  | none => next
  | some candidate => some (next.elim candidate fun current => min current candidate)

def rowNextDeadlineMs (row : InFlight) (unavailable : SortedMap RelayUrl (Option Nat))
    (nowMs : Nat) (policy : RetryPolicy) : Option Nat :=
  row.perRelay.rows.foldl (fun next r => sooner next
    (candidateMs row unavailable nowMs policy (hasAnyAccepted row) r.1 r.2)) none

def nextDeadlineMs (s : PublishEngine) (nowMs : Nat) : Option Nat :=
  ((values s.inFlight).filterMap fun row =>
    rowNextDeadlineMs row s.unavailableRelays nowMs s.policy).min?

/-- The deadline is the least of the candidates. -/
def Soonest (deadline : Option Nat) (candidate : Nat → Prop) : Prop :=
  match deadline with
  | none => ∀ c, ¬ candidate c
  | some t => candidate t ∧ ∀ c, candidate c → t ≤ c

theorem soonest_congr {deadline : Option Nat} {p q : Nat → Prop} (h : ∀ c, p c ↔ q c)
    (hsoonest : Soonest deadline p) : Soonest deadline q := by
  have hpq : p = q := funext fun c => propext (h c)
  rwa [← hpq]

theorem soonest_sooner {next candidate : Option Nat} {p : Nat → Prop} (h : Soonest next p) :
    Soonest (sooner next candidate) fun c => p c ∨ candidate = some c := by
  cases candidate with
  | none => exact soonest_congr (fun c => (or_iff_left nofun).symm) h
  | some d =>
    cases next with
    | none =>
      refine ⟨.inr rfl, fun c hc => ?_⟩
      rcases hc with hc | hc
      · exact absurd hc (h c)
      · exact (Option.some.inj hc).le
    | some t =>
      refine ⟨?_, fun c hc => ?_⟩
      · change p (min t d) ∨ some d = some (min t d)
        rcases min_choice t d with heq | heq
        · exact .inl (heq.symm ▸ h.1)
        · exact .inr (congrArg some heq.symm)
      · rcases hc with hc | hc
        · exact (min_le_left t d).trans (h.2 c hc)
        · exact (min_le_right t d).trans (Option.some.inj hc).le

theorem soonest_foldl {α : Type} {f : α → Option Nat} (rows : List α) {next : Option Nat}
    {p : Nat → Prop} (h : Soonest next p) :
    Soonest (rows.foldl (fun next r => sooner next (f r)) next) fun c =>
      p c ∨ ∃ r ∈ rows, f r = some c := by
  induction rows generalizing next p with
  | nil => exact soonest_congr (fun c => (or_iff_left (by simp)).symm) h
  | cons _ _ ih =>
    refine soonest_congr (fun c => ?_) (ih (soonest_sooner h))
    rw [List.exists_mem_cons_iff, or_assoc]

/-- The candidates of a row. -/
def RowCandidate (row : InFlight) (unavailable : SortedMap RelayUrl (Option Nat)) (nowMs : Nat)
    (policy : RetryPolicy) (c : Nat) : Prop :=
  ∃ url state, row.perRelay.lookup url = some state ∧
    candidateMs row unavailable nowMs policy (hasAnyAccepted row) url state = some c

theorem soonest_row (row : InFlight) (unavailable : SortedMap RelayUrl (Option Nat)) (nowMs : Nat)
    (policy : RetryPolicy) : Soonest (rowNextDeadlineMs row unavailable nowMs policy)
      (RowCandidate row unavailable nowMs policy) := by
  have hnone : Soonest none fun _ => False := fun _ h => h
  refine soonest_congr (fun c => ?_) (soonest_foldl row.perRelay.rows hnone)
  rw [false_or]
  constructor
  · rintro ⟨r, hr, hc⟩
    exact ⟨r.1, r.2, SortedMap.lookup_eq_some.mpr hr, hc⟩
  · rintro ⟨url, state, hstate, hc⟩
    exact ⟨(url, state), SortedMap.lookup_eq_some.mp hstate, hc⟩

theorem soonest_engine (s : PublishEngine) (nowMs : Nat) : Soonest (nextDeadlineMs s nowMs) fun c =>
    ∃ handle row, s.inFlight.lookup handle = some row ∧
      RowCandidate row s.unavailableRelays nowMs s.policy c := by
  have hrow := fun row => soonest_row row s.unavailableRelays nowMs s.policy
  cases hnext : nextDeadlineMs s nowMs with
  | none =>
    rintro c ⟨handle, row, hlookup, hc⟩
    have hempty := List.filterMap_eq_nil_iff.mp (List.min?_eq_none_iff.mp hnext) row
      ((mem_values ..).mpr ⟨handle, hlookup⟩)
    have hnothing := hrow row
    rw [hempty] at hnothing
    exact hnothing c hc
  | some =>
    obtain ⟨hmem, hleast⟩ := List.min?_eq_some_iff.mp hnext
    obtain ⟨row, hvalue, hdeadline⟩ := List.mem_filterMap.mp hmem
    obtain ⟨handle, hlookup⟩ := (mem_values ..).mp hvalue
    have hthis := hrow row
    rw [hdeadline] at hthis
    refine ⟨⟨handle, row, hlookup, hthis.1⟩, ?_⟩
    rintro c ⟨other, row', hlookup', hc⟩
    have hthat := hrow row'
    cases hdeadline' : rowNextDeadlineMs row' s.unavailableRelays nowMs s.policy with
    | none =>
      rw [hdeadline'] at hthat
      exact absurd hc (hthat c)
    | some d =>
      rw [hdeadline'] at hthat
      exact (hleast d (List.mem_filterMap.mpr
        ⟨row', (mem_values ..).mpr ⟨other, hlookup'⟩, hdeadline'⟩)).trans (hthat.2 c hc)

/-- A tick at this time has work at the relay. -/
def Due (policy : RetryPolicy) (unavailable : SortedMap RelayUrl (Option Nat)) (nowMs : Nat)
    (row : InFlight) (url : RelayUrl) (state : PerRelayState) : Prop :=
  match unavailable.lookup url with
  | some unavailableSince => state.isTerminal = false ∧ hasAnyAccepted row = true ∧
    ∃ since, unavailableSince = some since ∧ policy.inflightDeadlineMs ≤ nowMs - since
  | none =>
    match state with
    | .inFlight sentAtMs _ => policy.inflightDeadlineMs ≤ nowMs - sentAtMs
    | _ => isReady row url state nowMs = true

/-- The deadline is positive, or no send and no loss of a connection lies after this time. -/
def Clocked (s : PublishEngine) (nowMs : Nat) : Prop :=
  0 < s.policy.inflightDeadlineMs ∨
    (∀ handle row url sentAtMs attempt, s.inFlight.lookup handle = some row →
      row.perRelay.lookup url = some (.inFlight sentAtMs attempt) → sentAtMs ≤ nowMs) ∧
    ∀ url since, s.unavailableRelays.lookup url = some (some since) → since ≤ nowMs

theorem late_of_saturatingAdd {start deadline now : Nat} (h : saturatingAdd start deadline ≤ now)
    (hend : saturatingAdd start deadline < u64Max) : deadline ≤ now - start := by
  unfold saturatingAdd at h hend
  omega

theorem early_of_saturatingAdd {start deadline now : Nat} (h : now < saturatingAdd start deadline)
    (hclock : 0 < deadline ∨ start ≤ now) : ¬ deadline ≤ now - start := by
  unfold saturatingAdd at h
  omega

section Due
variable {row : InFlight} {unavailable : SortedMap RelayUrl (Option Nat)} {nowMs later : Nat}
  {policy : RetryPolicy} {url : RelayUrl} {state : PerRelayState}

theorem ready_of_candidate {retry : Option Nat} {c : Nat} (h : retry.or (some nowMs) = some c)
    (hc : c ≤ later) : (retry.all fun due => due ≤ later) = true := by
  cases retry with
  | none => rfl
  | some =>
    obtain rfl := Option.some.inj h
    exact decide_eq_true hc

theorem due_of_candidate {c : Nat}
    (h : candidateMs row unavailable nowMs policy (hasAnyAccepted row) url state = some c)
    (hc : c ≤ later) (hend : c < u64Max) :
    Due policy unavailable later row url state := by
  unfold candidateMs at h
  unfold Due
  cases hlookup : unavailable.lookup url with
  | some =>
    rw [hlookup] at h
    dsimp only at h ⊢
    split at h
    next hlive =>
      obtain ⟨since, rfl, rfl⟩ := Option.map_eq_some_iff.mp h
      rw [Bool.and_eq_true, Bool.not_eq_true'] at hlive
      exact ⟨hlive.1, hlive.2, since, rfl, late_of_saturatingAdd hc hend⟩
    next => cases h
  | none =>
    rw [hlookup] at h
    cases state with
    | pending => rfl
    | inFlight =>
      obtain rfl := Option.some.inj h
      exact late_of_saturatingAdd hc hend
    | ok | failedAfterRetries => cases h
    | relayError | timedOut => exact ready_of_candidate h hc

theorem not_ready_before {retry : Option Nat}
    (h : ∀ c, retry.or (some nowMs) = some c → later < c) (hnow : nowMs ≤ later) :
    (retry.all fun due => due ≤ later) = false := by
  cases retry with
  | none => exact absurd (h nowMs rfl) (Nat.not_lt.mpr hnow)
  | some due => exact decide_eq_false (Nat.not_le.mpr (h due rfl))

theorem not_due_before
    (h : ∀ c, candidateMs row unavailable nowMs policy (hasAnyAccepted row) url state = some c →
      later < c) (hnow : nowMs ≤ later)
    (hsent : ∀ sentAtMs attempt, state = .inFlight sentAtMs attempt →
      0 < policy.inflightDeadlineMs ∨ sentAtMs ≤ later)
    (hlost : ∀ since, unavailable.lookup url = some (some since) →
      0 < policy.inflightDeadlineMs ∨ since ≤ later) :
    ¬ Due policy unavailable later row url state := by
  unfold candidateMs at h
  unfold Due
  cases hlookup : unavailable.lookup url with
  | some =>
    rw [hlookup] at h
    dsimp only at h ⊢
    rintro ⟨hopen, hlive, since, rfl, hlate⟩
    rw [hopen, hlive] at h
    exact early_of_saturatingAdd (h _ rfl) (hlost since hlookup) hlate
  | none =>
    rw [hlookup] at h
    dsimp only at h ⊢
    cases state with
    | pending => exact absurd (h nowMs rfl) (Nat.not_lt.mpr hnow)
    | inFlight sentAtMs attempt =>
      exact early_of_saturatingAdd (h _ rfl) (hsent sentAtMs attempt rfl)
    | ok | failedAfterRetries => exact nofun
    | relayError | timedOut => exact Bool.eq_false_iff.mp (not_ready_before h hnow)

end Due

/-- No relay of a row in flight is due. -/
def Quiet (s : PublishEngine) (nowMs : Nat) : Prop :=
  ∀ handle row, s.inFlight.lookup handle = some row → ∀ url state,
    row.perRelay.lookup url = some state → ¬ Due s.policy s.unavailableRelays nowMs row url state

/-- No relay behind a lost connection or an authentication still waits for an answer. -/
def Walked (s : PublishEngine) : Prop :=
  ∀ handle row, s.inFlight.lookup handle = some row → ∀ url state,
    row.perRelay.lookup url = some state → state.isInFlight = true →
      s.unavailableRelays.lookup url = none

theorem quiet_before {s : PublishEngine} {nowMs later : Nat} (hclock : Clocked s nowMs)
    (hnow : nowMs ≤ later) (h : ∀ t, nextDeadlineMs s nowMs = some t → later < t) :
    Quiet s later := by
  intro handle row hrow url state hstate
  have hsoonest := soonest_engine s nowMs
  refine not_due_before (fun c hc => ?_) hnow (fun sentAtMs attempt hsent => ?_)
    fun since hsince => ?_
  · have hcandidate : ∃ handle row, s.inFlight.lookup handle = some row ∧
        RowCandidate row s.unavailableRelays nowMs s.policy c :=
      ⟨handle, row, hrow, url, state, hstate, hc⟩
    cases hnext : nextDeadlineMs s nowMs with
    | none =>
      rw [hnext] at hsoonest
      exact absurd hcandidate (hsoonest c)
    | some t =>
      rw [hnext] at hsoonest
      exact (h t hnext).trans_le (hsoonest.2 c hcandidate)
  · exact hclock.imp_right fun hclock =>
      (hclock.1 handle row url sentAtMs attempt hrow (hsent ▸ hstate)).trans hnow
  · exact hclock.imp_right fun hclock => (hclock.2 url since hsince).trans hnow

theorem due_at {s : PublishEngine} {nowMs later t : Nat} (h : nextDeadlineMs s nowMs = some t)
    (hlater : t ≤ later) (hend : t < u64Max) :
    ∃ handle row url state, s.inFlight.lookup handle = some row ∧
      row.perRelay.lookup url = some state ∧
      Due s.policy s.unavailableRelays later row url state := by
  have hsoonest := soonest_engine s nowMs
  rw [h] at hsoonest
  obtain ⟨handle, row, hrow, url, state, hstate, hc⟩ := hsoonest.1
  exact ⟨handle, row, url, state, hrow, hstate, due_of_candidate hc hlater hend⟩

/-- Only the order of the rows in the table may differ. -/
def Idle (s s' : PublishEngine) : Prop :=
  s' = { s with inFlight := s'.inFlight } ∧
    ∀ handle, s'.inFlight.lookup handle = s.inFlight.lookup handle

/-- The row as the sweeps of a tick leave it. -/
def sweptRow (s : PublishEngine) (nowMs : Nat) (row : InFlight) : InFlight :=
  sweepUnavailableTimeouts s.policy.inflightDeadlineMs nowMs s.unavailableRelays
    (sweepInflightTimeouts s.policy nowMs row)

section Idle
variable {w : World} {s s' s'' : PublishEngine} {nowMs : Nat} {handle : PublishHandle}
  {row : InFlight}

theorem Idle.refl (s : PublishEngine) : Idle s s := ⟨rfl, fun _ => rfl⟩

theorem Idle.trans (h : Idle s s') (h' : Idle s' s'') : Idle s s'' := by
  refine ⟨?_, fun handle => (h'.2 handle).trans (h.2 handle)⟩
  rw [h'.1, h.1]

theorem idle_setRow (hrow : s.inFlight.lookup handle = some row) :
    Idle s (setRow s handle row) := by
  refine ⟨rfl, fun other => (lookup_setRow ..).trans ?_⟩
  split
  next heq => rw [heq, hrow]
  next => rfl

/-- Nothing is due and no row is complete. -/
structure Resting (s : PublishEngine) (nowMs : Nat) : Prop where
  quiet : Quiet s nowMs
  walked : Walked s
  waits : ∀ handle row, s.inFlight.lookup handle = some row → isComplete row = false

theorem Resting.idle (h : Resting s nowMs) (hidle : Idle s s') : Resting s' nowMs := by
  obtain ⟨hframe, hrows⟩ := hidle
  have hpolicy : s'.policy = s.policy := by rw [hframe]
  have hunavailable : s'.unavailableRelays = s.unavailableRelays := by rw [hframe]
  refine ⟨fun handle row hrow => ?_, fun handle row hrow => ?_, fun handle row hrow => ?_⟩
  · rw [hrows] at hrow
    rw [hpolicy, hunavailable]
    exact h.quiet handle row hrow
  · rw [hrows] at hrow
    rw [hunavailable]
    exact h.walked handle row hrow
  · rw [hrows] at hrow
    exact h.waits handle row hrow

theorem idle_foldl {α : Type} {step : PublishEngine → α → PublishEngine}
    (hstep : ∀ t x, Resting t nowMs → Idle t (step t x)) (xs : List α) (h : Resting s nowMs) :
    Idle s (xs.foldl step s) := by
  induction xs generalizing s with
  | nil => exact .refl s
  | cons x _ ih =>
    have hone := hstep s x h
    exact hone.trans (ih (h.idle hone))

section

variable (h : Resting s nowMs)
include h

theorem sweptRow_eq (hrow : s.inFlight.lookup handle = some row) : sweptRow s nowMs row = row := by
  have hexpire : sweepInflightTimeouts s.policy nowMs row = row := by
    have hsame : row.perRelay.mapRows (fun _ state => expire s.policy nowMs state) =
        row.perRelay := by
      apply SortedMap.ext
      intro url
      rw [SortedMap.lookup_mapRows]
      cases hstate : row.perRelay.lookup url with
      | none => rfl
      | some state =>
        rw [Option.map_some]
        cases state with
        | inFlight =>
          have hquiet := h.quiet handle row hrow url _ hstate
          unfold Due at hquiet
          rw [h.walked handle row hrow url _ hstate rfl] at hquiet
          rw [expire, if_neg hquiet]
        | _ => rfl
    rw [sweepInflightTimeouts, hsame]
  rw [sweptRow, hexpire, sweepUnavailableTimeouts]
  split
  next haccepted =>
    have hsame : row.perRelay.mapRows
        (giveUp s.policy.inflightDeadlineMs nowMs s.unavailableRelays) = row.perRelay := by
      apply SortedMap.ext
      intro url
      rw [SortedMap.lookup_mapRows]
      cases hstate : row.perRelay.lookup url with
      | none => rfl
      | some state =>
        have hquiet := h.quiet handle row hrow url state hstate
        rw [Option.map_some, giveUp]
        split
        next => rfl
        next hopen =>
          split
          next since hsince =>
            unfold Due at hquiet
            rw [hsince] at hquiet
            rw [if_neg fun hlate =>
              hquiet ⟨Bool.eq_false_iff.mpr hopen, haccepted, since, rfl, hlate⟩]
          next => rfl
    rw [hsame]
  next => rfl

theorem idle_sweepRow (handle : PublishHandle) : Idle s (sweepRow nowMs s handle) := by
  unfold sweepRow
  split
  next => exact .refl s
  next row hrow =>
    rw [show sweepUnavailableTimeouts s.policy.inflightDeadlineMs nowMs s.unavailableRelays
      (sweepInflightTimeouts s.policy nowMs row) = row from sweptRow_eq h hrow]
    exact idle_setRow hrow

theorem dispatchRelay_idle (hrow : s.inFlight.lookup handle = some row) (frame : Frame)
    (relayFilter : Option RelayUrl) (log : List LogEntry) (acks : List RelayAck) (url : RelayUrl) :
    dispatchRelay w handle nowMs frame relayFilter s.unavailableRelays (row, log, acks) url =
      (row, log, acks) := by
  have hready : ∀ l, laneIn row url = some l → s.unavailableRelays.lookup url = none →
      l.ready nowMs = false := by
    intro l hl hopen
    obtain ⟨state, hstate, rfl⟩ := Option.map_eq_some_iff.mp hl
    have hquiet := h.quiet handle row hrow url state hstate
    unfold Due at hquiet
    rw [hopen] at hquiet
    rw [ready_laneIn]
    cases state with
    | inFlight => rfl
    | _ => exact Bool.eq_false_iff.mpr hquiet
  have hcase := dispatched w nowMs handle frame relayFilter s.unavailableRelays row log acks url
  generalize dispatchRelay w handle nowMs frame relayFilter s.unavailableRelays (row, log, acks)
    url = acc at hcase ⊢
  cases hcase with
  | passed => rfl
  | refused l hlane hnow hopen => exact absurd ((hready l hlane hopen).symm.trans hnow) nofun
  | sent l hlane hnow hopen => exact absurd ((hready l hlane hopen).symm.trans hnow) nofun

theorem idle_dispatchPending (handle : PublishHandle) :
    Idle s (dispatchPending w handle nowMs s) := by
  unfold dispatchPending dispatchPendingMatching
  split
  next => exact .refl s
  next row hrow =>
    have hloop : ∀ urls : List RelayUrl,
        urls.foldl (dispatchRelay w handle nowMs (buildEventFrame row.event) none
          s.unavailableRelays) (row, s.log, []) = (row, s.log, []) := by
      intro urls
      induction urls with
      | nil => rfl
      | cons _ _ ih => rw [List.foldl_cons, dispatchRelay_idle h hrow, ih]
    rw [hloop]
    exact idle_setRow hrow

theorem idle_finalizeRow (handle : PublishHandle) : Idle s (finalizeRow w s handle) := by
  unfold finalizeRow
  split
  next => exact .refl s
  next row hrow =>
    rw [h.waits handle row hrow, if_neg Bool.false_ne_true]
    exact .refl s

theorem idle_tick : Idle s (tick w nowMs s) := by
  have hsweep := idle_foldl (fun _ handle ht => idle_sweepRow ht handle) (w.rowOrder s.inFlight) h
  have hdispatch := idle_foldl (fun _ handle ht => idle_dispatchPending (w := w) ht handle)
    (w.rowOrder s.inFlight) (h.idle hsweep)
  have hdone := hsweep.trans hdispatch
  exact hdone.trans (idle_foldl (fun _ handle ht => idle_finalizeRow ht handle)
    (w.rowOrder s.inFlight) (h.idle hdone))

end

end Idle

end PublishDeadline
