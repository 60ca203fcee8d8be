import NostrMultiPlatform.PublishLanes

/-!
# The retry ladder

A lane counts the attempts it has spent, and the frames sent since the handle
entered never outnumber them; so the policy bounds the frames of a publish. A
lane whose attempt failed waits for its due time, and a monitor of the notes
asks that no frame goes out before. Both are kept by every step of a lane.
-/
namespace PublishRetries

open Chains JobLog PublishEngine PublishLanes PublishMoves PublishState Runs Sorted Tables

/-- Calls that neither change the availability of a relay nor restart the engine. -/
def Steady : Call → Prop
  | .markRelayUnavailable .. | .markRelayAvailable .. | .restart .. => False
  | _ => True

/-- The frames sent to the relay since the handle last entered. -/
def sendsOf (handle : PublishHandle) (url : RelayUrl) (log : List LogEntry) : Nat :=
  log.foldl (fun sends e =>
    match e with
    | .opened key _ => if key = handle then 0 else sends
    | .sent key target => if key = handle ∧ target = url then sends + 1 else sends
    | _ => sends) 0

def count (sends : Nat) : Note → Nat
  | .opened => 0
  | .sent _ => sends + 1
  | .failed .. => sends

theorem sendsOf_append (handle : PublishHandle) (url : RelayUrl) (nowMs : Nat)
    (log more : List LogEntry) : sendsOf handle url (log ++ more) =
      run count (sendsOf handle url log) (more.filterMap (noteOf handle url nowMs)) := by
  rw [sendsOf, List.foldl_append]
  change more.foldl _ (sendsOf handle url log) = _
  generalize sendsOf handle url log = sends
  induction more generalizing sends with
  | nil => rfl
  | cons e _ ih =>
    rw [List.foldl_cons, ih]
    cases e with
    | opened key =>
      by_cases h : key = handle
      · simp [noteOf, h, count]
      · simp [noteOf, h]
    | sent key target =>
      by_cases h : key = handle ∧ target = url
      · simp [noteOf, h, count]
      · simp [noteOf, h]
    | answered key target verdict =>
      cases verdict with
      | relayError =>
        by_cases h : key = handle ∧ target = url
        · simp [noteOf, h, count]
        · simp [noteOf, h]
      | _ => rfl
    | _ => rfl

/-- What the state of a lane says of the frames sent, under a bound on the attempts. -/
def Within (policy : RetryPolicy) (state : PerRelayState) (sends : Nat) : Prop :=
  match state with
  | .pending => sends = 0
  | .inFlight _ attempt => sends ≤ attempt ∧ attempt ≤ max 1 policy.transientMaxRetries
  | .relayError _ attempt _ | .timedOut attempt _ =>
    sends ≤ attempt ∧ attempt < policy.transientMaxRetries
  | _ => True

structure Counted (policy : RetryPolicy) (v : View) (sends : Nat) : Prop where
  spent : sends ≤ max 1 policy.transientMaxRetries
  left : v.blocked = false → ∀ l, v.lane = some l → Within policy l.state sends

section Count
variable {policy : RetryPolicy} {nowMs sends : Nat} {v v' : View} {notes : List Note}

theorem counted_step (hmax : policy.transientMaxRetries ≤ u32Max)
    (h : LaneStep policy nowMs v notes v') (hcounted : Counted policy v sends) :
    Counted policy v' (run count sends notes) := by
  obtain ⟨hspent, hleft⟩ := hcounted
  cases h with
  | send l hready =>
    have hwithin := hleft rfl l rfl
    have hnext : sends + 1 ≤ l.nextAttempt ∧ l.nextAttempt ≤ max 1 policy.transientMaxRetries := by
      obtain ⟨state, due, gate⟩ := l
      have hu32 : 1 ≤ u32Max := by decide
      unfold Lane.nextAttempt
      cases state with
      | pending =>
        have hzero : sends = 0 := hwithin
        simp only [PerRelayState.attempt]
        omega
      | relayError | timedOut =>
        obtain ⟨hle, hlt⟩ := hwithin
        simp only [PerRelayState.attempt]
        omega
      | _ => cases hready
    refine ⟨Nat.le_trans hnext.1 hnext.2, fun _ l' hl' => ?_⟩
    cases hl'
    exact hnext
  | refuse =>
    refine ⟨hspent, fun _ l' hl' => ?_⟩
    cases hl'
    trivial
  | fail _ attempt _ _ _ _ hattempt =>
    refine ⟨hspent, fun hopen l' hl' => ?_⟩
    have hwithin : sends ≤ attempt ∧ _ := hleft hopen _ rfl
    cases hl'
    exact ⟨Nat.le_trans hwithin.1 (Nat.le_max_left _ _), hattempt⟩
  | settle _ _ next _ hterminal =>
    refine ⟨hspent, fun _ l' hl' => ?_⟩
    cases hl'
    cases next with
    | ok | failedAfterRetries => trivial
    | _ => cases hterminal
  | park => exact ⟨hspent, fun hopen => nomatch hopen⟩
  | close => exact ⟨hspent, fun _ l' hl' => nomatch hl'⟩

theorem counted_swept (h : Swept policy nowMs v v') (hcounted : Counted policy v sends) :
    Counted policy v' sends := by
  refine ⟨hcounted.spent, fun hopen l hl => ?_⟩
  rw [h.blocked] at hopen
  rw [h.lane hopen, Option.map_eq_some_iff] at hl
  obtain ⟨old, hold, rfl⟩ := hl
  have hwithin := hcounted.left hopen old hold
  obtain ⟨state, due, gate⟩ := old
  cases state with
  | inFlight =>
    simp only [Lane.expire, expire]
    split
    · split
      next => trivial
      next hfew => exact ⟨hwithin.1, Nat.lt_of_not_le hfew⟩
    · exact hwithin
  | _ => exact hwithin

end Count

/-- Every lane of the engine is within the bound of its policy. -/
structure Bounded (policy : RetryPolicy) (s : PublishEngine) : Prop where
  policy_eq : s.policy = policy
  lanes : ∀ handle url, Counted policy (viewOf s handle url) (sendsOf handle url s.log)

section Calls
variable {policy : RetryPolicy} {w : World} {handle : PublishHandle} {url : RelayUrl} {nowMs : Nat}
  {s s' : PublishEngine}

theorem counted_works (h : Works handle url nowMs s s') (hpolicy : s.policy = policy)
    (hmax : policy.transientMaxRetries ≤ u32Max)
    (hcounted : Counted policy (viewOf s handle url) (sendsOf handle url s.log)) :
    Counted policy (viewOf s' handle url) (sendsOf handle url s'.log) := by
  obtain ⟨-, more, hlog, hsteps⟩ := h
  rw [hpolicy] at hsteps
  rw [hlog, sendsOf_append handle url nowMs]
  have hchain : Meets count (fun _ _ => True) _ _ ∧ Counted policy (viewOf s' handle url) _ :=
    Chain.monitored (Counted policy) (fun v notes v' sends hstep hinv =>
      ⟨meets_of_forall count (fun _ => True) _ _ fun _ _ => trivial,
        counted_step hmax hstep hinv⟩) hsteps hcounted
  exact hchain.2

theorem bounded_works (h : ∀ handle url, Works handle url nowMs s s')
    (hmax : policy.transientMaxRetries ≤ u32Max) (hbounded : Bounded policy s) :
    Bounded policy s' where
  policy_eq := (h "" "").policy.trans hbounded.policy_eq
  lanes handle url :=
    counted_works (h handle url) hbounded.policy_eq hmax (hbounded.lanes handle url)

/-- The row that a publish enters with. -/
def enteringRow (w : World) (event : SignedEvent) (target : PublishTarget)
    (override : Option String) : InFlight :=
  newRow event target (relayMap (resolveFor w event target)) override

/-- The store takes the row in when it enters. -/
def accepts (w : World) (s : PublishEngine) (handle : PublishHandle) (row : InFlight) : Prop :=
  w.storeError (s.log ++ [.opened handle row.perRelay.keys]) (.upsert (recordOf handle row)) = none

/-- A publish seen from one lane: it is about others, or it opens the lane and goes on from there,
with a dispatch if the row is saved. -/
inductive Started (w : World) (handle : PublishHandle) (url : RelayUrl) (nowMs : Nat)
    (override : Option String) (s : PublishEngine) : PublishAction → PublishEngine → Prop
  | apart (action : PublishAction) {s' : PublishEngine} (h : Works handle url nowMs s s') :
    Started w handle url nowMs override s action s'
  | entered (event : SignedEvent) (target : PublishTarget) {s' : PublishEngine}
    (hnew : handle ∉ s.inFlight)
    (h : Works handle url nowMs (insertRow handle (enteringRow w event target override) s) s')
    (hsaved : accepts w s handle (enteringRow w event target override) → ∃ t,
      Works handle url nowMs (insertRow handle (enteringRow w event target override) s) t ∧
      s' = finalizeCompletedRows w [handle] (dispatchPending w handle nowMs t)) :
    Started w handle url nowMs override s (.publish handle event target) s'

theorem persist_accepts {row : InFlight} (h : accepts w s handle row) :
    (persist w handle (insertRow handle row s)).2 = none := by
  have hrow : (insertRow handle row s).inFlight.lookup handle = some row :=
    lookup_setRow_self s handle row
  have hopen : w.storeError (insertRow handle row s).log (.upsert (recordOf handle row)) = none := h
  rw [persist_eq w hrow, upsert, hopen]

theorem started (w : World) (handle : PublishHandle) (url : RelayUrl) (nowMs : Nat)
    (override : Option String) (s : PublishEngine) (action : PublishAction) :
    Started w handle url nowMs override s action (startPublish w action nowMs override s).1 := by
  cases action with
  | publish key event target =>
    rw [startPublish, startPublishInner]
    split
    next => exact .apart _ (.refl s)
    next hnew =>
      dsimp only
      split
      next => exact .apart _ (.idle [.ended key _] rfl rfl rfl rfl)
      next =>
        rw [← enteringRow]
        generalize hpersist :
          persist w key (insertRow key (enteringRow w event target override) s) = saved
        obtain ⟨t, error⟩ := saved
        have hsave : Works handle url nowMs (insertRow key (enteringRow w event target override) s)
            t := by
          have hworks : Works handle url nowMs _
            (persist w key (insertRow key (enteringRow w event target override) s)).1 :=
              works_persist _ key
          rwa [hpersist] at hworks
        have hfinish : Works handle url nowMs t
            (finalizeCompletedRows w [key] (dispatchPending w key nowMs t)) :=
          (works_dispatchPendingMatching key none t).trans (works_finalizeCompletedRows [key] _)
        by_cases hkey : key = handle
        · subst hkey
          cases error with
          | some =>
            refine .entered event target hnew hsave fun haccepts => ?_
            have hnone := persist_accepts haccepts
            rw [hpersist] at hnone
            cases hnone
          | none => exact .entered event target hnew (hsave.trans hfinish) fun _ => ⟨t, hsave, rfl⟩
        · have hentered : Works handle url nowMs s t := (works_insertRow hkey _ s).trans hsave
          cases error with
          | some => exact .apart _ hentered
          | none => exact .apart _ (hentered.trans hfinish)
  | _ => exact .apart _ (.refl s)

theorem viewOf_entering (event : SignedEvent) (target : PublishTarget) (override : Option String) :
    (viewOf (insertRow handle (enteringRow w event target override) s) handle url).blocked =
        (viewOf s handle url).blocked ∧
      ∀ l, (viewOf (insertRow handle (enteringRow w event target override) s) handle url).lane =
        some l → l.state = .pending :=
  viewOf_insertRow event target _ override s

theorem counted_entering (policy : RetryPolicy) (event : SignedEvent) (target : PublishTarget)
    (override : Option String) (s : PublishEngine) :
    Counted policy (viewOf (insertRow handle (enteringRow w event target override) s) handle url)
      (sendsOf handle url (insertRow handle (enteringRow w event target override) s).log) := by
  have hzero : sendsOf handle url
      (insertRow handle (enteringRow w event target override) s).log = 0 := by
    refine (sendsOf_append handle url 0 s.log [.opened handle _]).trans ?_
    simp [noteOf, count]
  rw [hzero]
  refine ⟨Nat.zero_le _, fun _ l hl => ?_⟩
  rw [(viewOf_entering event target override).2 l hl]
  rfl

theorem Started.policy_eq {override : Option String} {action : PublishAction}
    (h : Started w handle url nowMs override s action s') : s'.policy = s.policy := by
  cases h with
  | apart _ h => exact h.policy
  | entered _ _ _ h => exact h.policy

section

variable (hmax : policy.transientMaxRetries ≤ u32Max)
include hmax

theorem bounded_startPublish (hbounded : Bounded policy s) (action : PublishAction)
    (override : Option String) :
    Bounded policy (startPublish w action nowMs override s).1 where
  policy_eq := (started w "" "" nowMs override s action).policy_eq.trans hbounded.policy_eq
  lanes handle url := by
    have hcase := started w handle url nowMs override s action
    generalize (startPublish w action nowMs override s).1 = s' at hcase ⊢
    cases hcase with
    | apart _ h => exact counted_works h hbounded.policy_eq hmax (hbounded.lanes handle url)
    | entered event target _ h =>
      exact counted_works h hbounded.policy_eq hmax
        (counted_entering policy event target override s)

theorem bounded_tick (hbounded : Bounded policy s) : Bounded policy (tick w nowMs s) := by
  have hsweep : Bounded policy ((w.rowOrder s.inFlight).foldl (sweepRow nowMs) s) := by
    refine ⟨?_, fun handle url => ?_⟩
    · obtain ⟨⟨inFlight, hframe⟩, -⟩ := swept_all w "" "" nowMs s
      rw [hframe]
      exact hbounded.policy_eq
    · obtain ⟨⟨inFlight, hframe⟩, hswept⟩ := swept_all w handle url nowMs s
      rw [hbounded.policy_eq] at hswept
      have hcounted := counted_swept hswept (hbounded.lanes handle url)
      rw [hframe] at hcounted ⊢
      exact hcounted
  exact bounded_works (fun handle url => (works_dispatchAll _ _).trans
    (works_finalizeCompletedRows _ _)) hmax hsweep

theorem bounded_retryNow (hbounded : Bounded policy s) (key : PublishHandle) :
    Bounded policy (retryNow w key nowMs s).1 := by
  unfold retryNow
  split
  next => exact hbounded
  next row hrow =>
    have hdropped : Bounded policy (setRow s key (dropRetries row)) := by
      refine ⟨hbounded.policy_eq, fun handle url => ?_⟩
      obtain ⟨hspent, hleft⟩ := hbounded.lanes handle url
      obtain ⟨hblocked, hstates⟩ := viewOf_dropRetries handle url hrow
      refine ⟨hspent, fun hopen l hl => ?_⟩
      rw [hblocked] at hopen
      rw [hl] at hstates
      obtain ⟨old, hold, hstate⟩ := Option.map_eq_some_iff.mp hstates.symm
      exact hstate ▸ hleft hopen old hold
    have hsave : ∀ handle url, Works handle url nowMs (setRow s key (dropRetries row))
        (persist w key (setRow s key (dropRetries row))).1 := fun handle url => works_persist _ key
    split
    next s' error h =>
      rw [h] at hsave
      exact bounded_works hsave hmax hdropped
    next s' h =>
      rw [h] at hsave
      exact bounded_works (fun handle url => (hsave handle url).trans
        ((works_dispatchPendingMatching key none s').trans (works_finalizeCompletedRows [key] _)))
        hmax hdropped

theorem bounded_perform (hbounded : Bounded policy s) {step : World × Call}
    (hsteady : Steady step.2) : Bounded policy (perform s step) := by
  obtain ⟨w, call⟩ := step
  cases call with
  | startPublish action _ override => exact bounded_startPublish hmax hbounded action override
  | onAck key ack nowMs =>
    have h : ∀ handle url, Works handle url nowMs s (onAck w key ack nowMs s) :=
      fun handle url => works_onAck key ack s
    exact bounded_works h hmax hbounded
  | tick => exact bounded_tick hmax hbounded
  | retryNow key => exact bounded_retryNow hmax hbounded key
  | cancelByHandle key correlationId =>
    have h : ∀ handle url, Works handle url 0 s (cancelByHandle w key correlationId s) :=
      fun handle url => works_cancelByHandle key correlationId s
    exact bounded_works h hmax hbounded
  | markRelayUnavailable | markRelayAvailable | restart => exact hsteady.elim

end

theorem bounded_new (policy : RetryPolicy) (store : PublishStore) :
    Bounded policy (.new policy store) where
  policy_eq := rfl
  lanes _ _ := ⟨Nat.zero_le _, fun _ _ hl => nomatch hl⟩

end Calls

/-- In every run without changes of availability and restarts, whatever fails, times out, arrives
late or twice or is retried by hand, the frames sent to a relay since the handle entered are at most
the attempts of the policy, and one where the policy allows none. -/
theorem sends_bounded (policy : RetryPolicy) (hmax : policy.transientMaxRetries ≤ u32Max)
    (store : PublishStore) (steps : List (World × Call))
    (hsteady : ∀ step ∈ steps, Steady step.2) (handle : PublishHandle) (url : RelayUrl) :
    sendsOf handle url (run perform (.new policy store) steps).log ≤
      max 1 policy.transientMaxRetries := by
  have hbounded : Bounded policy (run perform (.new policy store) steps) :=
    run_invariant (Bounded policy) (fun _ _ hs hok => bounded_perform hmax hs hok)
      (bounded_new policy store)
      (meets_of_forall perform (fun step => Steady step.2) _ steps hsteady)
  exact (hbounded.lanes handle url).spent

def oneTry : RetryPolicy := ⟨1, 1000, 4, 30000⟩

def retryWorld : World := queueWorld [⟨"wss://r", .authorWriteRelay⟩]

def publishNote : Call :=
  .startPublish (.publish "id" ⟨"id", "sig", "alice", 1, [], "note", 0⟩ .auto) 10 none

/-- A note whose only send times out for good. -/
def timedOutNote : List (World × Call) := [(retryWorld, publishNote), (retryWorld, .tick 30010)]

theorem timed_out_note_sent_once :
    (run perform (.new oneTry .empty) timedOutNote).log.count (.sent "id" "wss://r") = 1 ∧
      sendsOf "id" "wss://r" (run perform (.new oneTry .empty) timedOutNote).log ≤ 1 := by
  refine ⟨by decide +kernel, sends_bounded oneTry (by decide) .empty timedOutNote ?_ "id" "wss://r"⟩
  intro step hstep
  rcases List.mem_pair.mp hstep with rfl | rfl
  · trivial
  · trivial

/-- A settled note is published again and counts anew. -/
theorem settled_note_sent_again :
    let steps := timedOutNote ++ [(retryWorld, publishNote)]
    (∀ step ∈ steps, Steady step.2) ∧
      (run perform (.new oneTry .empty) steps).log.count (.sent "id" "wss://r") = 2 ∧
      max 1 oneTry.transientMaxRetries = 1 := by
  refine ⟨fun step hstep => ?_, by decide +kernel, rfl⟩
  simp only [timedOutNote, List.cons_append, List.nil_append, List.mem_cons, List.not_mem_nil,
    or_false] at hstep
  rcases hstep with rfl | rfl | rfl <;> trivial

/-- The time before which no frame may go out, after the note. -/
def follow (policy : RetryPolicy) : Option Nat → Note → Option Nat
  | wait, .opened => wait
  | _, .sent _ => none
  | _, .failed attempt atMs => some (atMs + policy.backoffFor attempt)

/-- A frame goes out no earlier than the wait of the attempt that failed before it. -/
def OnTime (wait : Option Nat) : Note → Prop
  | .sent atMs => ∀ earliest ∈ wait, earliest ≤ atMs
  | _ => True

/-- What a lane holds while a call at this time is under way. -/
def Due (nowMs : Nat) (l : Lane) (wait : Option Nat) : Prop :=
  match l.state with
  | .pending => ∀ earliest ∈ wait, earliest ≤ nowMs
  | .inFlight .. => l.due = none ∧ wait = none
  | .relayError .. => ∀ earliest ∈ wait, ∃ due ∈ l.due, min earliest u64Max ≤ due
  | .timedOut .. => l.due = none ∧ ∀ earliest ∈ wait, earliest ≤ nowMs
  | _ => True

/-- What a lane holds between calls: only an attempt that an answer failed leaves a wait. -/
def Calm (l : Lane) (wait : Option Nat) : Prop :=
  match l.state with
  | .pending => wait = none
  | .inFlight .. => l.due = none ∧ wait = none
  | .relayError .. => ∀ earliest ∈ wait, ∃ due ∈ l.due, min earliest u64Max ≤ due
  | .timedOut .. => False
  | _ => True

/-- The condition on the lane, if it is there and its relay is available. -/
def Held (condition : Lane → Option Nat → Prop) (v : View) (wait : Option Nat) : Prop :=
  v.blocked = false → ∀ l, v.lane = some l → condition l wait

section Waits
variable {policy : RetryPolicy} {nowMs : Nat} {l : Lane} {wait : Option Nat} {v v' : View}
  {notes : List Note}

theorem Calm.due (h : Calm l wait) (nowMs : Nat) : Due nowMs l wait := by
  obtain ⟨state, due, gate⟩ := l
  cases state with
  | pending =>
    have hnone : wait = none := h
    rw [hnone]
    exact fun _ hmem => nomatch hmem
  | timedOut => exact h.elim
  | _ => exact h

theorem Due.calm (h : Due nowMs l wait) (hrested : l.Rested) : Calm l wait := by
  obtain ⟨state, due, gate⟩ := l
  cases state with
  | pending | timedOut => exact hrested.elim
  | _ => exact h

theorem Due.ready (h : Due nowMs l wait) : l.Rested ∨ l.ready nowMs = true := by
  obtain ⟨state, due, gate⟩ := l
  cases state with
  | pending => exact .inr rfl
  | timedOut =>
    have hnone : due = none := h.1
    rw [hnone]
    exact .inr rfl
  | _ => exact .inl trivial

/-- A lane that may be sent has waited. -/
theorem Due.waited (hnow : nowMs < u64Max) (h : Due nowMs l wait) (hready : l.ready nowMs = true) :
    ∀ earliest ∈ wait, earliest ≤ nowMs := by
  obtain ⟨state, due, gate⟩ := l
  cases state with
  | pending => exact h
  | timedOut => exact h.2
  | relayError =>
    intro earliest hmem
    obtain ⟨at', hdue, hle⟩ := h earliest hmem
    have hpassed : at' ≤ nowMs := by
      rw [Lane.ready, Option.mem_def.mp hdue] at hready
      exact of_decide_eq_true hready
    omega
  | _ => cases hready

/-- One step is on time and leaves the lane calm. -/
theorem calm_step (hnow : nowMs < u64Max) (h : LaneStep policy nowMs v notes v')
    (hdue : Held (Due nowMs) v wait) :
    Meets (follow policy) OnTime wait notes ∧ Held Calm v' (run (follow policy) wait notes) := by
  cases h with
  | send l hready =>
    refine ⟨⟨(hdue rfl l rfl).waited hnow hready, trivial⟩, fun _ l' hl' => ?_⟩
    cases hl'
    exact ⟨rfl, rfl⟩
  | refuse =>
    refine ⟨trivial, fun _ l' hl' => ?_⟩
    cases hl'
    trivial
  | fail =>
    refine ⟨⟨trivial, trivial⟩, fun _ l' hl' => ?_⟩
    cases hl'
    intro earliest hmem
    cases hmem
    exact ⟨_, rfl, Nat.le_refl _⟩
  | settle _ _ next _ hterminal =>
    refine ⟨trivial, fun _ l' hl' => ?_⟩
    cases hl'
    cases next with
    | ok | failedAfterRetries => trivial
    | _ => cases hterminal
  | park => exact ⟨trivial, fun hopen => nomatch hopen⟩
  | close => exact ⟨trivial, fun _ _ hl' => nomatch hl'⟩

theorem Held.mono {p q : Lane → Option Nat → Prop} (h : Held p v wait)
    (hweaker : ∀ l, p l wait → q l wait) : Held q v wait :=
  fun hopen l hl => hweaker l (h hopen l hl)

end Waits

def timeOf : Call → Nat
  | .startPublish _ nowMs _ | .onAck _ _ nowMs | .tick nowMs | .markRelayUnavailable _ nowMs
  | .markRelayAvailable _ nowMs | .retryNow _ nowMs | .restart _ nowMs => nowMs
  | .cancelByHandle .. => 0

/-- The attempt that a tick at this time finds past the deadline, with attempts left. -/
def timeoutsOf (policy : RetryPolicy) (nowMs : Nat) (l : Lane) : List Note :=
  match l.state with
  | .inFlight sentAtMs attempt =>
    if policy.inflightDeadlineMs ≤ nowMs - sentAtMs ∧ attempt < policy.transientMaxRetries then
      [.failed attempt nowMs]
    else []
  | _ => []

def timeouts (s : PublishEngine) (call : Call) (handle : PublishHandle) (url : RelayUrl) :
    List Note :=
  match call with
  | .tick nowMs => (viewOf s handle url).lane.toList.flatMap (timeoutsOf s.policy nowMs)
  | _ => []

/-- What a call does to the lane, in order: a tick first sweeps, the rest is in the log. -/
def notesOf (s : PublishEngine) (step : World × Call) (handle : PublishHandle) (url : RelayUrl) :
    List Note :=
  timeouts s step.2 handle url ++
    ((perform s step).log.drop s.log.length).filterMap (noteOf handle url (timeOf step.2))

/-- The engine with the wait of each lane beside it. -/
structure Watched where
  engine : PublishEngine
  waits : PublishHandle → RelayUrl → Option Nat

def Watched.new (policy : RetryPolicy) (store : PublishStore) : Watched :=
  ⟨.new policy store, fun _ _ => none⟩

def watch (x : Watched) (step : World × Call) : Watched :=
  ⟨perform x.engine step, fun handle url =>
    run (follow x.engine.policy) (x.waits handle url) (notesOf x.engine step handle url)⟩

/-- Every frame of the call goes out no earlier than the backoff of the attempt before it. -/
def Respects (x : Watched) (step : World × Call) : Prop :=
  ∀ handle url, Meets (follow x.engine.policy) OnTime (x.waits handle url)
    (notesOf x.engine step handle url)

/-- Calls other than changes of availability, restarts and retries by hand. -/
def Automatic : Call → Prop
  | .retryNow .. => False
  | call => Steady call

/-- The wait that a lane has when its handle enters is over, and the row is saved. -/
def Entering (w : World) (s : PublishEngine) (handle : PublishHandle) (url : RelayUrl)
    (nowMs : Nat) (wait : Option Nat) (row : InFlight) : Prop :=
  url ∈ row.perRelay.keys → s.unavailableRelays.lookup url = none →
    ∀ earliest, wait = some earliest → earliest ≤ nowMs ∧ accepts w s handle row

/-- The clock has not reached its end; no send with attempts left has timed out, unless it is to be
repeated at once; and a handle enters only when the waits that a cancelled publish of it left on its
relays are over, and is then saved. -/
def Timely (x : Watched) (step : World × Call) : Prop :=
  timeOf step.2 < u64Max ∧
  (∀ handle url attempt atMs, .failed attempt atMs ∈ timeouts x.engine step.2 handle url →
    x.engine.policy.backoffFor attempt = 0) ∧
  match step.2 with
  | .startPublish (.publish handle event target) nowMs override =>
    handle ∉ x.engine.inFlight → ∀ url, Entering step.1 x.engine handle url nowMs
      (x.waits handle url) (enteringRow step.1 event target override)
  | _ => True

section Waiting
variable {policy : RetryPolicy} {w : World} {handle : PublishHandle} {url : RelayUrl} {nowMs : Nat}
  {s s' s'' : PublishEngine} {wait wait' wait'' : Option Nat}

/-- The engine goes on, everything noted of the lane is on time, and leads from wait to wait. -/
structure Goes (policy : RetryPolicy) (handle : PublishHandle) (url : RelayUrl) (nowMs : Nat)
    (s : PublishEngine) (wait : Option Nat) (s' : PublishEngine) (wait' : Option Nat) : Prop where
  policy_eq : s'.policy = s.policy
  notes : ∃ more, s'.log = s.log ++ more ∧
    Meets (follow policy) OnTime wait (more.filterMap (noteOf handle url nowMs)) ∧
    run (follow policy) wait (more.filterMap (noteOf handle url nowMs)) = wait'

theorem Goes.trans (h : Goes policy handle url nowMs s wait s' wait')
    (h' : Goes policy handle url nowMs s' wait' s'' wait'') :
    Goes policy handle url nowMs s wait s'' wait'' := by
  obtain ⟨hpolicy, more, hlog, hmeets, hrun⟩ := h
  obtain ⟨hpolicy', later, hlog', hmeets', hrun'⟩ := h'
  refine ⟨hpolicy'.trans hpolicy, more ++ later, by rw [hlog', hlog, List.append_assoc], ?_, ?_⟩
  · rw [List.filterMap_append, meets_append, hrun]
    exact ⟨hmeets, hmeets'⟩
  · rw [List.filterMap_append, run_append, hrun, hrun']

theorem goes_works (hnow : nowMs < u64Max) (hpolicy : s.policy = policy)
    (h : Works handle url nowMs s s') (hdue : Held (Due nowMs) (viewOf s handle url) wait) :
    ∃ wait', Goes policy handle url nowMs s wait s' wait' ∧
      Held (Due nowMs) (viewOf s' handle url) wait' ∧
      (Held Calm (viewOf s handle url) wait → Held Calm (viewOf s' handle url) wait') := by
  obtain ⟨hsame, more, hlog, hsteps⟩ := h
  rw [hpolicy] at hsteps
  obtain ⟨hmeets, hlast⟩ := Chain.monitored (Held (Due nowMs)) (fun v notes v' wait hstep hheld =>
    (calm_step hnow hstep hheld).imp_right fun hcalm => hcalm.mono fun _ hl => hl.due nowMs)
    hsteps hdue
  refine ⟨_, ⟨hsame, more, hlog, hmeets, rfl⟩, hlast, fun hcalm => ?_⟩
  exact (Chain.monitored (Held Calm) (fun v notes v' wait hstep hheld =>
    calm_step hnow hstep (hheld.mono fun _ hl => hl.due nowMs)) hsteps hcalm).2

theorem calm_works (hnow : nowMs < u64Max) (hpolicy : s.policy = policy)
    (h : Works handle url nowMs s s') (hcalm : Held Calm (viewOf s handle url) wait) :
    ∃ wait', Goes policy handle url nowMs s wait s' wait' ∧
      Held Calm (viewOf s' handle url) wait' := by
  obtain ⟨wait', hgoes, -, hkeep⟩ := goes_works hnow hpolicy h (hcalm.mono fun _ hl => hl.due nowMs)
  exact ⟨wait', hgoes, hkeep hcalm⟩

/-- After its own dispatch a lane is calm. -/
theorem calm_dispatchPending (hnow : nowMs < u64Max) (hpolicy : s.policy = policy)
    (hdue : Held (Due nowMs) (viewOf s handle url) wait) :
    ∃ wait', Goes policy handle url nowMs s wait (dispatchPending w handle nowMs s) wait' ∧
      Held Calm (viewOf (dispatchPending w handle nowMs s) handle url) wait' := by
  have hleaves : Leaves nowMs Lane.Rested := ⟨fun _ _ => trivial, fun _ _ _ => trivial⟩
  obtain ⟨mid, hfirst, hrested, hlater⟩ := leaves_dispatchPending (w := w) hleaves s
    fun l hl hunready =>
      (hdue (congrArg View.blocked hl) l (congrArg View.lane hl)).ready.resolve_right
        (Bool.eq_false_iff.mp hunready)
  obtain ⟨wait₁, hgoes, hheld, -⟩ := goes_works hnow hpolicy hfirst hdue
  have hcalm : Held Calm (viewOf mid handle url) wait₁ := by
    intro hopen l hl
    refine (hheld hopen l hl).calm (hrested l ?_)
    rw [← hopen, ← hl]
  obtain ⟨wait₂, hgoes', hcalm'⟩ := calm_works hnow (hfirst.policy.trans hpolicy) hlater hcalm
  exact ⟨wait₂, hgoes.trans hgoes', hcalm'⟩

theorem calm_dispatchAll (hnow : nowMs < u64Max) (keys : List PublishHandle)
    (hpolicy : s.policy = policy) (hdue : Held (Due nowMs) (viewOf s handle url) wait)
    (h : handle ∈ keys ∨ Held Calm (viewOf s handle url) wait) :
    ∃ wait', Goes policy handle url nowMs s wait
        (keys.foldl (fun s key => dispatchPending w key nowMs s) s) wait' ∧
      Held Calm (viewOf (keys.foldl (fun s key => dispatchPending w key nowMs s) s) handle url)
        wait' := by
  induction keys generalizing s wait with
  | nil =>
    exact ⟨wait, ⟨rfl, [], (List.append_nil _).symm, trivial, rfl⟩, h.resolve_left List.not_mem_nil⟩
  | cons key rest ih =>
    have hone : ∃ wait₁, Goes policy handle url nowMs s wait (dispatchPending w key nowMs s) wait₁ ∧
        Held (Due nowMs) (viewOf (dispatchPending w key nowMs s) handle url) wait₁ ∧
        (handle = key ∨ Held Calm (viewOf s handle url) wait →
          Held Calm (viewOf (dispatchPending w key nowMs s) handle url) wait₁) := by
      by_cases hkey : handle = key
      · rw [← hkey]
        obtain ⟨wait₁, hgoes, hcalm⟩ := calm_dispatchPending (w := w) hnow hpolicy hdue
        exact ⟨wait₁, hgoes, hcalm.mono fun _ hl => hl.due nowMs, fun _ => hcalm⟩
      · obtain ⟨wait₁, hgoes, hheld, hkeep⟩ := goes_works hnow hpolicy
          (works_dispatchPendingMatching (w := w) key none s) hdue
        exact ⟨wait₁, hgoes, hheld, fun hcase => hkeep (hcase.resolve_left hkey)⟩
    obtain ⟨wait₁, hgoes, hheld, hkeep⟩ := hone
    have hrest : handle ∈ rest ∨
        Held Calm (viewOf (dispatchPending w key nowMs s) handle url) wait₁ := by
      rcases h with hmem | hcalm
      · rcases List.mem_cons.mp hmem with heq | hmem
        · exact .inr (hkeep (.inl heq))
        · exact .inl hmem
      · exact .inr (hkeep (.inr hcalm))
    obtain ⟨wait₂, hgoes', hcalm'⟩ := ih (hgoes.policy_eq.trans hpolicy) hheld hrest
    exact ⟨wait₂, hgoes.trans hgoes', hcalm'⟩

/-- The sweep turns what has timed out into waits that are over at once. -/
theorem due_swept {v v' : View} (hswept : Swept policy nowMs v v')
    (hcalm : Held Calm v wait)
    (hover : ∀ attempt atMs,
      .failed attempt atMs ∈ v.lane.toList.flatMap (timeoutsOf policy nowMs) →
        policy.backoffFor attempt = 0) :
    Held (Due nowMs) v'
      (run (follow policy) wait (v.lane.toList.flatMap (timeoutsOf policy nowMs))) := by
  intro hopen l' hl'
  rw [hswept.blocked] at hopen
  rw [hswept.lane hopen, Option.map_eq_some_iff] at hl'
  obtain ⟨l, hl, rfl⟩ := hl'
  have hheld := hcalm hopen l hl
  rw [hl] at hover ⊢
  rw [Option.toList_some, List.flatMap_singleton] at hover ⊢
  obtain ⟨state, due, gate⟩ := l
  cases state with
  | inFlight sentAtMs attempt =>
    simp only [timeoutsOf, Lane.expire, expire] at hover ⊢
    by_cases hlate : policy.inflightDeadlineMs ≤ nowMs - sentAtMs
    · by_cases hspent : policy.transientMaxRetries ≤ attempt
      · rw [if_pos hlate, if_pos hspent]
        trivial
      · have hnote := show policy.inflightDeadlineMs ≤ nowMs - sentAtMs ∧
          attempt < policy.transientMaxRetries from ⟨hlate, Nat.lt_of_not_le hspent⟩
        rw [if_pos hnote] at hover ⊢
        rw [if_pos hlate, if_neg hspent]
        refine ⟨hheld.1, fun earliest hmem => ?_⟩
        cases hmem
        rw [hover attempt nowMs List.mem_cons_self]
        exact Nat.le_refl _
    · have hnote := show ¬ (policy.inflightDeadlineMs ≤ nowMs - sentAtMs ∧
        attempt < policy.transientMaxRetries) from fun h => hlate h.1
      rw [if_neg hnote, if_neg hlate]
      exact hheld
  | timedOut => exact hheld.elim
  | _ => exact hheld.due nowMs

theorem meets_timeoutsOf (policy policy' : RetryPolicy) (nowMs : Nat) (wait : Option Nat)
    (lane : Option Lane) :
    Meets (follow policy) OnTime wait (lane.toList.flatMap (timeoutsOf policy' nowMs)) := by
  cases lane with
  | none => trivial
  | some =>
    rw [Option.toList_some, List.flatMap_singleton, timeoutsOf]
    split
    · split
      · exact ⟨trivial, trivial⟩
      · trivial
    · trivial

theorem meets_timeouts (policy : RetryPolicy) (s : PublishEngine) (wait : Option Nat)
    (call : Call) (handle : PublishHandle) (url : RelayUrl) :
    Meets (follow policy) OnTime wait (timeouts s call handle url) := by
  cases call with
  | tick nowMs => exact meets_timeoutsOf policy s.policy nowMs wait _
  | _ => trivial

theorem calm_tick (hnow : nowMs < u64Max) (hpolicy : s.policy = policy)
    (hcalm : Held Calm (viewOf s handle url) wait)
    (hover : ∀ attempt atMs, .failed attempt atMs ∈ timeouts s (.tick nowMs) handle url →
      policy.backoffFor attempt = 0) :
    ∃ wait', Goes policy handle url nowMs s
        (run (follow policy) wait (timeouts s (.tick nowMs) handle url)) (tick w nowMs s) wait' ∧
      Held Calm (viewOf (tick w nowMs s) handle url) wait' := by
  obtain ⟨⟨inFlight, hframe⟩, hswept⟩ := swept_all w handle url nowMs s
  have hsweptPolicy : ((w.rowOrder s.inFlight).foldl (sweepRow nowMs) s).policy = policy := by
    rw [hframe]
    exact hpolicy
  have hsweptLog : ((w.rowOrder s.inFlight).foldl (sweepRow nowMs) s).log = s.log := by
    rw [hframe]
  rw [hpolicy] at hswept
  rw [timeouts, hpolicy] at hover ⊢
  have hdue := due_swept hswept hcalm hover
  have hturn : handle ∈ w.rowOrder s.inFlight ∨ Held Calm
      (viewOf ((w.rowOrder s.inFlight).foldl (sweepRow nowMs) s) handle url)
      (run (follow policy) wait ((viewOf s handle url).lane.toList.flatMap
        (timeoutsOf policy nowMs))) := by
    by_cases hmem : handle ∈ w.rowOrder s.inFlight
    · exact .inl hmem
    · have hrow : s.inFlight.lookup handle = none :=
        AList.lookup_eq_none.mpr fun h => hmem ((w.rowOrder_perm _).mem_iff.mpr h)
      refine .inr fun hopen l hl => ?_
      rw [hswept.blocked] at hopen
      rw [hswept.lane hopen, viewOf, hrow] at hl
      cases hl
  obtain ⟨wait₁, hgoes, hcalm₁⟩ := calm_dispatchAll (w := w) hnow _ hsweptPolicy hdue hturn
  obtain ⟨wait₂, hgoes', hcalm₂⟩ := calm_works hnow (hgoes.policy_eq.trans hsweptPolicy)
    (works_finalizeCompletedRows (w := w) (w.rowOrder s.inFlight) _) hcalm₁
  have hall := hgoes.trans hgoes'
  refine ⟨wait₂, ⟨hall.policy_eq.trans (hsweptPolicy.trans hpolicy.symm), ?_⟩, hcalm₂⟩
  obtain ⟨more, hlog, hnotes⟩ := hall.notes
  exact ⟨more, hlog.trans (congrArg (· ++ more) hsweptLog), hnotes⟩

theorem calm_startPublish (hnow : nowMs < u64Max) (hpolicy : s.policy = policy)
    (hcalm : Held Calm (viewOf s handle url) wait) {action : PublishAction}
    {override : Option String}
    (hentering : ∀ event target, action = .publish handle event target → handle ∉ s.inFlight →
      Entering w s handle url nowMs wait (enteringRow w event target override)) :
    ∃ wait', Goes policy handle url nowMs s wait (startPublish w action nowMs override s).1 wait' ∧
      Held Calm (viewOf (startPublish w action nowMs override s).1 handle url) wait' := by
  have hcase := started w handle url nowMs override s action
  generalize (startPublish w action nowMs override s).1 = s' at hcase ⊢
  cases hcase with
  | apart _ h => exact calm_works hnow hpolicy h hcalm
  | entered event target hnew h hsaved =>
    let row := enteringRow w event target override
    let entered := insertRow handle row s
    have hcond : Entering w s handle url nowMs wait row := hentering event target rfl hnew
    have hgoes : Goes policy handle url nowMs s wait entered wait := by
      refine ⟨rfl, [.opened handle row.perRelay.keys], rfl, ?_⟩
      have hnote : noteOf handle url nowMs (.opened handle row.perRelay.keys) = some .opened :=
        if_pos rfl
      rw [List.filterMap_cons_some hnote, List.filterMap_nil]
      exact ⟨⟨trivial, trivial⟩, rfl⟩
    have hlane : Held (fun l wait => l.state = .pending ∧ ∀ earliest, wait = some earliest →
        earliest ≤ nowMs ∧ accepts w s handle row) (viewOf entered handle url) wait := by
      intro hopen l hl
      refine ⟨(viewOf_entering event target override).2 l hl, ?_⟩
      have hview : viewOf entered handle url = _ := viewOf_setRow s handle row
      rw [hview, if_pos rfl] at hl
      obtain ⟨state, hstate, -⟩ := Option.map_eq_some_iff.mp hl
      refine hcond (SortedMap.mem_keys.mpr ⟨state, hstate⟩) ?_
      have hfree : (s.unavailableRelays.lookup url).isSome = false := hopen
      simpa using hfree
    by_cases haccepts : accepts w s handle row
    · obtain ⟨t, hsave, rfl⟩ := hsaved haccepts
      have hdue : Held (Due nowMs) (viewOf entered handle url) wait := by
        refine hlane.mono fun l hl => ?_
        rw [Due, hl.1]
        exact fun earliest hmem => (hl.2 earliest hmem).1
      obtain ⟨wait₁, hgoes₁, hdue₁, -⟩ :=
        goes_works hnow (show entered.policy = policy from hpolicy) hsave hdue
      obtain ⟨wait₂, hgoes₂, hcalm₂⟩ :=
        calm_dispatchPending (w := w) hnow (hsave.policy.trans hpolicy) hdue₁
      obtain ⟨wait₃, hgoes₃, hcalm₃⟩ := calm_works hnow
        (hgoes₂.policy_eq.trans (hsave.policy.trans hpolicy))
        (works_finalizeCompletedRows (w := w) [handle] _) hcalm₂
      exact ⟨wait₃, ((hgoes.trans hgoes₁).trans hgoes₂).trans hgoes₃, hcalm₃⟩
    · have hcalm₀ : Held Calm (viewOf entered handle url) wait := by
        refine hlane.mono fun l hl => ?_
        rw [Calm, hl.1]
        cases hwait : wait with
        | none => rfl
        | some earliest => exact absurd (hl.2 earliest hwait).2 haccepts
      obtain ⟨wait₁, hgoes₁, hcalm₁⟩ :=
        calm_works hnow (show entered.policy = policy from hpolicy) h hcalm₀
      exact ⟨wait₁, hgoes.trans hgoes₁, hcalm₁⟩

/-- What holds between calls. -/
structure Waiting (policy : RetryPolicy) (x : Watched) : Prop where
  policy_eq : x.engine.policy = policy
  lanes : ∀ handle url, Held Calm (viewOf x.engine handle url) (x.waits handle url)

theorem waiting_watch {x : Watched} {step : World × Call} (hwaiting : Waiting policy x)
    (hautomatic : Automatic step.2) (htimely : Timely x step) :
    Respects x step ∧ Waiting policy (watch x step) := by
  obtain ⟨hpolicy, hcalm⟩ := hwaiting
  obtain ⟨hnow, hover, hentering⟩ := htimely
  have hlane : ∀ handle url, ∃ wait', Goes policy handle url (timeOf step.2) x.engine
      (run (follow policy) (x.waits handle url) (timeouts x.engine step.2 handle url))
      (perform x.engine step) wait' ∧
        Held Calm (viewOf (perform x.engine step) handle url) wait' := by
    intro handle url
    obtain ⟨w, call⟩ := step
    cases call with
    | startPublish =>
      refine calm_startPublish hnow hpolicy (hcalm handle url) fun event target haction hnew => ?_
      subst haction
      exact hentering hnew url
    | onAck key ack =>
      exact calm_works hnow hpolicy (works_onAck key ack _) (hcalm handle url)
    | tick =>
      refine calm_tick hnow hpolicy (hcalm handle url) fun attempt atMs hmem => ?_
      rw [← hpolicy]
      exact hover handle url attempt atMs hmem
    | cancelByHandle key correlationId =>
      exact calm_works hnow hpolicy (works_cancelByHandle key correlationId _) (hcalm handle url)
    | markRelayUnavailable | markRelayAvailable | retryNow | restart => exact hautomatic.elim
  refine ⟨fun handle url => ?_, (hlane "" "").choose_spec.1.policy_eq.trans hpolicy,
    fun handle url => ?_⟩
  · obtain ⟨wait', hgoes, -⟩ := hlane handle url
    obtain ⟨more, hlog, hmeets, -⟩ := hgoes.notes
    rw [notesOf, hlog, List.drop_left, hpolicy, meets_append]
    exact ⟨meets_timeouts _ _ _ step.2 handle url, hmeets⟩
  · obtain ⟨wait', hgoes, hlast⟩ := hlane handle url
    obtain ⟨more, hlog, -, hrun⟩ := hgoes.notes
    have hwait : (watch x step).waits handle url = wait' := by
      change run (follow x.engine.policy) _ (notesOf x.engine step handle url) = wait'
      rw [notesOf, hlog, List.drop_left, hpolicy, run_append, hrun]
    rw [hwait]
    exact hlast

theorem waiting_new (policy : RetryPolicy) (store : PublishStore) :
    Waiting policy (.new policy store) where
  policy_eq := rfl
  lanes _ _ := fun _ _ hl => nomatch hl

end Waiting

/-- In every run without changes of availability, restarts and retries by hand whose calls are all
timely, no frame goes out before the attempt that failed before it has waited its backoff. -/
theorem retries_wait (policy : RetryPolicy) (store : PublishStore) (steps : List (World × Call))
    (hautomatic : ∀ step ∈ steps, Automatic step.2)
    (htimely : Meets watch Timely (.new policy store) steps) :
    Meets watch Respects (.new policy store) steps := by
  exact meets_along (Waiting policy) (fun _ _ hwaiting hok => waiting_watch hwaiting hok.1 hok.2)
    (waiting_new policy store)
    ((meets_of_forall watch (fun step => Automatic step.2) _ steps hautomatic).and htimely)

/-- No relay owes an answer, so a tick finds nothing past the deadline. -/
def Idle (s : PublishEngine) : Prop :=
  ∀ row ∈ values s.inFlight, ∀ lane ∈ row.perRelay.rows, lane.2.isInFlight = false

instance (s : PublishEngine) : Decidable (Idle s) :=
  inferInstanceAs (Decidable (∀ row ∈ values s.inFlight, _))

theorem timeouts_of_idle {s : PublishEngine} (hidle : Idle s) (nowMs : Nat)
    (handle : PublishHandle) (url : RelayUrl) : timeouts s (.tick nowMs) handle url = [] := by
  rw [timeouts, List.flatMap_eq_nil_iff]
  intro l hl
  obtain ⟨row, hrow, hlane⟩ := Option.bind_eq_some_iff.mp (Option.mem_toList.mp hl)
  obtain ⟨state, hstate, rfl⟩ := Option.map_eq_some_iff.mp hlane
  have hflight : state.isInFlight = false := hidle row ((mem_values _ _).mpr ⟨handle, hrow⟩)
    (url, state) ((find_eq_some row.perRelay.sorted).mp hstate)
  cases state with
  | inFlight => cases hflight
  | _ => rfl

section Timely
variable {nowMs : Nat} (hnow : nowMs < u64Max)
include hnow

/-- The first call may always be a publish. -/
theorem timely_startPublish (policy : RetryPolicy) (store : PublishStore) (w : World)
    (action : PublishAction) (override : Option String) :
    Timely (.new policy store) (w, .startPublish action nowMs override) := by
  refine ⟨hnow, fun _ _ _ _ hmem => absurd hmem List.not_mem_nil, ?_⟩
  cases action with
  | publish => exact fun _ _ _ _ _ hwait => nomatch hwait
  | _ => trivial

theorem timely_onAck (x : Watched) (w : World) (handle : PublishHandle) (ack : RelayAck) :
    Timely x (w, .onAck handle ack nowMs) :=
  ⟨hnow, fun _ _ _ _ hmem => absurd hmem List.not_mem_nil, trivial⟩

theorem timely_tick {x : Watched} (hidle : Idle x.engine) (w : World) :
    Timely x (w, .tick nowMs) := by
  refine ⟨hnow, fun handle url attempt atMs hmem => ?_, trivial⟩
  rw [timeouts_of_idle hidle] at hmem
  cases hmem

end Timely

def busyAck : RelayAck := ⟨"wss://r", false, "rate-limited", "slow down"⟩

/-- A note whose first attempt the relay turns away, with a tick before the backoff is over and one
when it is. -/
def busyNote : List (World × Call) :=
  [(retryWorld, publishNote), (retryWorld, .onAck "id" busyAck 20), (retryWorld, .tick 1019),
    (retryWorld, .tick 1020)]

theorem busy_note_waits :
    (run perform (.new .default .empty) (busyNote.take 3)).log.count (.sent "id" "wss://r") = 1 ∧
      (run perform (.new .default .empty) busyNote).log.count (.sent "id" "wss://r") = 2 ∧
      Meets watch Respects (.new .default .empty) busyNote := by
  refine ⟨by decide +kernel, by decide +kernel, retries_wait .default .empty busyNote ?_ ?_⟩
  · intro step hstep
    simp only [busyNote, List.mem_cons, List.not_mem_nil, or_false] at hstep
    rcases hstep with rfl | rfl | rfl | rfl <;> trivial
  · exact ⟨timely_startPublish (by decide) .default .empty retryWorld _ none,
      timely_onAck (by decide) _ retryWorld "id" busyAck,
      timely_tick (by decide) (by decide +kernel) retryWorld,
      timely_tick (by decide) (by decide +kernel) retryWorld, trivial⟩

/-- A tick finds the first attempt past the deadline and sends the second at once, long before the
backoff of a second. -/
theorem timed_out_send_repeats_at_once :
    let x := run watch (.new .default .empty) [(retryWorld, publishNote)]
    (∀ step ∈ [(retryWorld, publishNote), (retryWorld, .tick 30010)], Automatic step.2) ∧
      notesOf x.engine (retryWorld, .tick 30010) "id" "wss://r" =
        [.failed 1 30010, .sent 30010] ∧
      RetryPolicy.default.backoffFor 1 = 1000 ∧
      ¬ Meets watch Respects (.new .default .empty)
        [(retryWorld, publishNote), (retryWorld, .tick 30010)] := by
  have hnotes : notesOf (run watch (.new .default .empty) [(retryWorld, publishNote)]).engine
      (retryWorld, .tick 30010) "id" "wss://r" = [.failed 1 30010, .sent 30010] := by
    decide +kernel
  refine ⟨fun step hstep => ?_, hnotes, by decide, fun hmeets => ?_⟩
  · rcases List.mem_pair.mp hstep with rfl | rfl
    · trivial
    · trivial
  · have hsecond := hmeets.2.1 "id" "wss://r"
    rw [run_cons, run_nil] at hnotes
    rw [hnotes] at hsecond
    exact absurd (hsecond.2.1 31010 rfl) (by decide)

end PublishRetries
