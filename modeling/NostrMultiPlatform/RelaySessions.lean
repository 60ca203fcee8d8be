import NostrMultiPlatform.PoolTranslate
import NostrMultiPlatform.RelayWorker
import NostrMultiPlatform.SessionLogs

/-!
# What a worker reports

The events of a worker are a log of sessions. Which steps keep the log in step with
the worker is a condition on the answer of the step: it fails at a flush that breaks, at
a stop while the worker waits to reconnect, and at an error whose text reads like a
denial but comes from elsewhere than a dial or a read.
-/
namespace RelaySessions

open Runs Transducers SessionLogs RelayProtocol PoolTranslate RelayWorker

/-- The events among the marks. -/
def events (marks : List Mark) : List RelayEvent :=
  marks.filterMap fun
    | .event event => some event
    | _ => none

@[simp] theorem events_append (marks more : List Mark) :
    events (marks ++ more) = events marks ++ events more := List.filterMap_append

/-- The worker owns an open socket. -/
def inSession : Phase → Bool
  | .dialing | .refused | .leaving | .waiting _ | .ended => false
  | _ => true

/-- What the log should say when the worker stands there. -/
def standing (phase : Phase) : Status :=
  if phase = .ended then .finished else if inSession phase then .up else .down

def kind : RelayEvent → Kind
  | .connected _ _ => .opens
  | .message _ _ _ => .carries
  | .failed _ _ error => if isPermanentError error then .ends else .drops
  | .closed _ _ => .ends

variable (authChallenge : String → Option String) (cfg : Config)

/-- The pool's view of the relay once it has taken the events. -/
def healthAfter (log : List RelayEvent) : RelayHealth :=
  (log.filterMap (prepareEvent authChallenge)).foldl applyHealth .dialing

/-- The event is classified as a denial for good. -/
def Permanent (event : RelayEvent) : Prop :=
  ∃ url generation error,
    prepareEvent authChallenge event = some (.failed url generation error true)

/-- The log tells where the worker stands, and the pool's view follows. -/
structure Honest (w : Worker) (log : List RelayEvent) : Prop where
  reconnects : ∀ a u g b u' g' c, log = a ++ .connected u g :: (b ++ .connected u' g' :: c) →
    ∃ v k error, .failed v k error ∈ b
  messages : ∀ a u g message b, log = a ++ .message u g message :: b →
    ∃ a₁ v k a₂, a = a₁ ++ .connected v k :: a₂ ∧
      ∀ e ∈ a₂, (∀ v k error, e ≠ .failed v k error) ∧ ∀ v k, e ≠ .closed v k
  permanence : ∀ a u g error b, log = a ++ .failed u g error :: b →
    (Permanent authChallenge (.failed u g error) ↔ b = [] ∧ w.phase = .ended)
  last : w.phase = .ended →
    ∃ a e, log = a ++ [e] ∧ ((∃ u g, e = .closed u g) ∨ Permanent authChallenge e)
  view : (inSession w.phase = false → (healthAfter authChallenge log).state ≠ .connected) ∧
    (w.phase = .ended → (healthAfter authChallenge log).state = .closed)

theorem permanent_failed (u : String) (g : Nat) (error : String) :
    Permanent authChallenge (.failed u g error) ↔ isPermanentError error = true := by
  constructor
  · rintro ⟨_, _, _, h⟩
    injection h with h
    injection h
  · intro h
    exact ⟨u, g, error, by rw [prepareEvent, h]⟩

/-- The health that goes with a status. -/
def Agrees : Status → HealthState → Prop
  | .up, state => state = .connected
  | .down, state => state = .connecting ∨ state = .reconnecting
  | .finished, state => state = .closed

theorem healthAfter_snoc (log : List RelayEvent) (e : RelayEvent) :
    healthAfter authChallenge (log ++ [e]) =
      match prepareEvent authChallenge e with
      | some event => applyHealth (healthAfter authChallenge log) event
      | none => healthAfter authChallenge log := by
  rw [healthAfter, healthAfter, List.filterMap_append, List.foldl_append]
  cases h : prepareEvent authChallenge e <;> simp [h]

variable {log : List RelayEvent} {e : RelayEvent} {w : Worker} {error : String} {io : Io}

theorem health_agrees {s : Status} (h : follow kind .down log = some s) :
    Agrees s (healthAfter authChallenge log).state := by
  induction log using List.reverseRecOn generalizing s with
  | nil =>
    cases h
    exact .inl rfl
  | append_singleton _ e ih =>
    obtain ⟨m, hm, h⟩ := exists_follow_append h
    have hbefore := ih hm
    rw [follow_singleton] at h
    rw [healthAfter_snoc]
    cases e with
    | connected =>
      obtain ⟨-, rfl⟩ := next_opens h
      exact rfl
    | message u g message =>
      obtain ⟨rfl, rfl⟩ := next_carries h
      rw [prepareEvent]
      cases tungsteniteToRelayFrame authChallenge message <;> exact hbefore
    | closed =>
      rw [next_ends h]
      exact rfl
    | failed u g error =>
      rw [kind] at h
      cases hperm : isPermanentError error with
      | true =>
        rw [hperm] at h
        rw [next_ends h, prepareEvent, hperm]
        exact rfl
      | false =>
        rw [hperm] at h
        rw [prepareEvent, hperm]
        cases m with
        | finished => cases h
        | up =>
          cases h
          simp only [Agrees, applyHealth] at hbefore ⊢
          simp [hbefore]
        | down =>
          cases h
          simp only [Agrees, applyHealth] at hbefore ⊢
          rcases hbefore with hb | hb <;> simp [hb]

theorem kind_opens (h : kind e = .opens) : ∃ u g, e = .connected u g := by
  cases e with
  | connected u g => exact ⟨u, g, rfl⟩
  | message | closed => cases h
  | failed =>
    rw [kind] at h
    split at h <;> cases h

theorem kind_drops (h : kind e = .drops) : ∃ u g error, e = .failed u g error := by
  cases e with
  | connected | message | closed => cases h
  | failed u g error => exact ⟨u, g, error, rfl⟩

theorem kind_ends (h : kind e = .ends) : (∃ u g, e = .closed u g) ∨ Permanent authChallenge e := by
  cases e with
  | connected | message => cases h
  | closed u g => exact .inl ⟨u, g, rfl⟩
  | failed u g error =>
    rw [kind] at h
    split at h
    next hperm => exact .inr ((permanent_failed authChallenge u g error).mpr hperm)
    · cases h

theorem standing_finished {phase : Phase} (h : standing phase = .finished) : phase = .ended := by
  unfold standing at h
  split at h
  · assumption
  · split at h <;> cases h

theorem standing_ended : standing .ended = .finished := rfl

/-- A log that leads to where the worker stands is honest. -/
theorem honest_of_follow (h : follow kind .down log = some (standing w.phase)) :
    Honest authChallenge w log := by
  have hagrees := health_agrees authChallenge h
  refine ⟨?_, ?_, ?_, ?_, ?_, ?_⟩
  · intro a u g b u' g' c hlog
    rw [hlog] at h
    obtain ⟨e, he, hdrop⟩ := drops_between h rfl rfl
    obtain ⟨v, k, error, rfl⟩ := kind_drops hdrop
    exact ⟨v, k, error, he⟩
  · intro a u g message b hlog
    rw [hlog] at h
    obtain ⟨a₁, x, a₂, ha, hx, hcarry⟩ := opened_before h rfl
    obtain ⟨v, k, rfl⟩ := kind_opens hx
    refine ⟨a₁, v, k, a₂, ha, fun e he => ⟨?_, ?_⟩⟩
    · rintro v k error rfl
      have := hcarry _ he
      rw [kind] at this
      split at this <;> cases this
    · rintro v k rfl
      cases hcarry _ he
  · intro a u g error b hlog
    rw [hlog] at h
    rw [permanent_failed]
    constructor
    · intro hperm
      have hends : kind (.failed u g error) = .ends := if_pos hperm
      obtain ⟨hb, hover⟩ := ends_last h hends
      exact ⟨hb, standing_finished hover⟩
    · rintro ⟨rfl, hend⟩
      rw [hend, standing_ended] at h
      obtain ⟨m, -, hlast⟩ := exists_follow_append h
      rw [follow_singleton, kind] at hlast
      by_contra hperm
      rw [if_neg hperm] at hlast
      cases m <;> cases hlast
  · intro hend
    rw [hend, standing_ended] at h
    obtain ⟨a, e, hlog, he⟩ := last_of_finished h
    exact ⟨a, e, hlog, kind_ends authChallenge he⟩
  · intro hout hstate
    rw [hstate] at hagrees
    unfold standing at hagrees
    rw [hout] at hagrees
    split at hagrees
    · cases hagrees
    · rcases hagrees with h | h <;> cases h
  · intro hend
    rw [hend] at hagrees
    exact hagrees

/-- The worker would be told to stop by its next look at the inbox. -/
def Stops (control : Control) : Prop :=
  match control.inbox with
  | [] => control.forwarderGone = true
  | command :: _ => command = .shutdown

/-- The answer of the step is one the worker reports as it should. -/
def Reported (w : Worker) : Input → Prop
  | .work io =>
    match w.phase with
    | .flushing => ∀ error, io.flush ≠ .failed error
    | .waiting deadline => io.now < deadline → ¬ Stops w.control
    | .writing =>
      w.pending ≠ [] → ∀ error, io.write = .failed error → isPermanentError error = false
    | .setup => ∀ error, io.setup = .error error →
        isPermanentError ("relay readiness setup failed: " ++ error) = false
    | .updating wantsWrite | .updatingAgain wantsWrite =>
      w.pollerWantsWrite ≠ wantsWrite → ∀ error, io.interest = .error error →
        isPermanentError ("relay readiness update failed: " ++ error) = false
    | .polling => ∀ error, io.wait = .error error →
        isPermanentError ("relay readiness wait failed: " ++ error) = false
    | _ => True
  | _ => True

/-- The marks of a step lead the log to where the worker stands after it. -/
def Follows (w : Worker) (next : Worker × List Mark) : Prop :=
  follow kind (standing w.phase) (events next.2) = some (standing next.1.phase)

theorem follows_silent {w w' : Worker} (h : standing w'.phase = standing w.phase) :
    Follows w (w', []) := congrArg some h.symm

theorem follows_drop (hup : standing w.phase = .up) (h : isPermanentError error = false) :
    Follows w (drop cfg w error) := by
  have hkind : kind (.failed cfg.relayUrl cfg.generation error) = .drops := by
    rw [kind, h]
    rfl
  change follow kind (standing w.phase) [_] = _
  rw [hup, follow_singleton, hkind]
  rfl

theorem follows_closed {w w' : Worker} (hup : standing w.phase = .up) (hend : w'.phase = .ended) :
    Follows w (w', [.event (.closed cfg.relayUrl cfg.generation)]) := by
  change follow kind (standing w.phase) [_] = some (standing w'.phase)
  rw [hup, hend]
  rfl

theorem follows_dial (hphase : w.phase = .dialing) (io : Io) : Follows w (dial cfg w io) := by
  unfold dial
  split
  · change follow kind (standing w.phase) [_] = _
    rw [hphase]
    rfl
  next error _ =>
    change follow kind (standing w.phase) [.failed _ _ error] = _
    rw [hphase, follow_singleton, kind]
    cases isPermanentError error <;> rfl

theorem follows_wait {deadline : Nat} (hphase : w.phase = .waiting deadline)
    (h : io.now < deadline → ¬ Stops w.control) :
    Follows w (waitBeforeReconnect deadline w io, []) := by
  refine follows_silent ?_
  rw [hphase]
  unfold waitBeforeReconnect
  split
  · rfl
  next hbefore =>
    have hstops := h (not_le.mp hbefore)
    unfold Stops at hstops
    split
    next hnil =>
      rw [hnil] at hstops
      rw [if_neg hstops, hphase]
    next command rest hcons =>
      rw [hcons] at hstops
      cases command with
      | shutdown => exact absurd rfl hstops
      | send | setBackoffHint | setReconnectPreamble => exact congrArg standing hphase

theorem follows_drain (hphase : w.phase = .draining) : Follows w (drainPending cfg w) := by
  have hup : standing w.phase = .up := by
    rw [hphase]
    rfl
  unfold drainPending
  split
  · split
    · exact follows_closed cfg hup rfl
    · exact follows_silent hup.symm
  next command rest _ =>
    cases command with
    | send | setBackoffHint | setReconnectPreamble => exact follows_silent rfl
    | shutdown => exact follows_closed cfg hup rfl

theorem follows_setWantsWrite (hup : standing w.phase = .up) {wantsWrite : Bool} {next : Phase}
    (hnext : standing next = .up)
    (h : w.pollerWantsWrite ≠ wantsWrite → ∀ error, io.interest = .error error → isPermanentError ("relay readiness update failed: " ++ error) = false)
    :
    Follows w (setWantsWrite cfg wantsWrite next w io) := by
  unfold setWantsWrite
  split
  · exact follows_silent (hnext.trans hup.symm)
  next hne =>
    split
    · exact follows_silent (hnext.trans hup.symm)
    next error herror => exact follows_drop cfg hup (h hne error herror)

theorem follows_read (hup : standing w.phase = .up) (io : Io) :
    Follows w (drainReads cfg w io) := by
  unfold drainReads
  split
  next message _ =>
    cases hpong : message.isPong with
    | true => exact follows_silent rfl
    | false =>
      change follow kind (standing w.phase) [_] = some (standing w.phase)
      rw [hup]
      rfl
  · exact follows_silent hup.symm
  next error _ =>
    change follow kind (standing w.phase) [.failed _ _ error] = _
    rw [hup, follow_singleton, kind]
    cases isPermanentError error <;> rfl

/-- A step that reports keeps the log in step with the worker. -/
theorem follows_work (h : Reported w (.work io)) : Follows w (work cfg w io) := by
  have hup : ∀ {phase}, w.phase = phase → standing phase = .up → standing w.phase = .up :=
    fun hphase hst => hphase ▸ hst
  unfold Reported at h
  unfold work
  cases hphase : w.phase with
  | dialing => exact follows_dial cfg hphase io
  | refused | leaving =>
    refine follows_silent ?_
    rw [hphase]
    rfl
  | setup =>
    simp only [hphase] at h ⊢
    unfold setUp
    split
    · exact follows_silent (hup hphase rfl).symm
    next error herror => exact follows_drop cfg (hup hphase rfl) (h error herror)
  | draining => exact follows_drain cfg hphase
  | writing =>
    simp only [hphase] at h ⊢
    unfold writeNext
    split
    · exact follows_silent (hup hphase rfl).symm
    next text rest hpending =>
      split
      · exact follows_silent rfl
      · exact follows_silent (hup hphase rfl).symm
      next error herror =>
        exact follows_drop cfg (hup hphase rfl) (h (by simp [hpending]) error herror)
  | flushing =>
    simp only [hphase] at h ⊢
    unfold flushSocket
    split
    · exact follows_silent (hup hphase rfl).symm
    · exact follows_silent (hup hphase rfl).symm
    next error herror => exact absurd herror (h error)
  | updating | updatingAgain =>
    simp only [hphase] at h ⊢
    exact follows_setWantsWrite cfg (hup hphase rfl) rfl h
  | keepalive =>
    dsimp only
    unfold stepKeepalive
    split
    · exact follows_silent (hup hphase rfl).symm
    · exact follows_silent (hup hphase rfl).symm
    · exact follows_drop cfg (hup hphase rfl) (by decide +kernel)
  | pinging =>
    dsimp only
    unfold writePing
    split
    · exact follows_silent (hup hphase rfl).symm
    · exact follows_silent (hup hphase rfl).symm
    · exact follows_drop cfg (hup hphase rfl) (by decide +kernel)
  | pingFlushing =>
    dsimp only
    unfold flushPing
    split
    · exact follows_silent (hup hphase rfl).symm
    · exact follows_silent (hup hphase rfl).symm
    · exact follows_drop cfg (hup hphase rfl) (by decide +kernel)
  | polling =>
    simp only [hphase] at h ⊢
    unfold poll
    split
    next error herror => exact follows_drop cfg (hup hphase rfl) (h error herror)
    next ready _ =>
      refine follows_silent ((?_ : _ = Status.up).trans (hup hphase rfl).symm)
      cases ready.readable <;> rfl
  | reading => exact follows_read cfg (hup hphase rfl) io
  | waiting =>
    simp only [hphase] at h ⊢
    exact follows_wait hphase h
  | ended => exact follows_silent rfl

theorem follows_step {input : Input} (h : Reported w input) : Follows w (step cfg w input) := by
  cases input with
  | work => exact follows_work cfg h
  | post =>
    simp only [step]
    split
    · exact congrArg some rfl
    · exact follows_silent rfl
  | dropSender | forward => exact follows_silent rfl

/-- A session that drops with an error that reads like a denial is not honest. -/
theorem drop_needs
    (h : Honest authChallenge (drop cfg w error).1 (log ++ [.failed cfg.relayUrl cfg.generation error]))
    :
    isPermanentError error = false := by
  by_contra hperm
  have hiff := h.permanence log _ _ error [] rfl
  rw [permanent_failed] at hiff
  cases (hiff.mp (by simpa using hperm)).2

theorem setWantsWrite_needs {wantsWrite : Bool} {next : Phase}
    (h : Honest authChallenge (setWantsWrite cfg wantsWrite next w io).1 (log ++ events (setWantsWrite cfg wantsWrite next w io).2))
    (hne : w.pollerWantsWrite ≠ wantsWrite) (herror : io.interest = .error error) :
    isPermanentError ("relay readiness update failed: " ++ error) = false := by
  have hdrop : setWantsWrite cfg wantsWrite next w io =
      drop cfg w ("relay readiness update failed: " ++ error) := by
    rw [setWantsWrite, if_neg hne, herror]
  rw [hdrop] at h
  exact drop_needs authChallenge cfg h

/-- A stop while waiting leaves the pool's view where it was. -/
theorem wait_needs {deadline : Nat} (hinv : Agrees .down (healthAfter authChallenge log).state)
    (h : Honest authChallenge (waitBeforeReconnect deadline w io) log) (hnow : io.now < deadline) :
    ¬ Stops w.control := by
  intro hstops
  have hend : (waitBeforeReconnect deadline w io).phase = .ended := by
    unfold waitBeforeReconnect
    rw [if_neg (not_le.mpr hnow)]
    unfold Stops at hstops
    split
    next hnil =>
      rw [hnil] at hstops
      rw [if_pos hstops]
    next command rest hcons =>
      rw [hcons] at hstops
      subst hstops
      rfl
  rcases hinv with hstate | hstate <;> cases hstate.symm.trans (h.view.2 hend)

/-- An honest log needs a step that reports. -/
theorem reported_of_honest {input : Input} (hlog : follow kind .down log = some (standing w.phase))
    (h : Honest authChallenge (step cfg w input).1 (log ++ events (step cfg w input).2)) :
    Reported w input := by
  have hinv := health_agrees authChallenge hlog
  cases input with
  | post | dropSender | forward => trivial
  | work io =>
    unfold Reported
    simp only [step, work] at h
    cases hphase : w.phase with
    | setup =>
      simp only [hphase] at h ⊢
      intro error herror
      have hdrop : setUp cfg w io = drop cfg w ("relay readiness setup failed: " ++ error) := by
        rw [setUp, herror]
      rw [hdrop] at h
      exact drop_needs authChallenge cfg h
    | writing =>
      simp only [hphase] at h ⊢
      intro hpending error herror
      obtain ⟨text, rest, hcons⟩ := List.exists_cons_of_ne_nil hpending
      have hdrop : writeNext cfg w io = drop cfg w error := by rw [writeNext, hcons, herror]
      rw [hdrop] at h
      exact drop_needs authChallenge cfg h
    | flushing =>
      simp only [hphase] at h hinv ⊢
      intro error herror
      have hout : flushSocket w io = ({ w with phase := .leaving }, []) := by
        rw [flushSocket, herror]
      rw [hout] at h
      simp only [events, List.filterMap_nil, List.append_nil] at h
      exact h.view.1 rfl hinv
    | updating =>
      simp only [hphase] at h ⊢
      intro hne error herror
      exact setWantsWrite_needs authChallenge cfg h hne herror
    | updatingAgain =>
      simp only [hphase] at h ⊢
      intro hne error herror
      exact setWantsWrite_needs authChallenge cfg h hne herror
    | polling =>
      simp only [hphase] at h ⊢
      intro error herror
      have hdrop : poll cfg w io = drop cfg w ("relay readiness wait failed: " ++ error) := by
        rw [poll, herror]
      rw [hdrop] at h
      exact drop_needs authChallenge cfg h
    | waiting =>
      simp only [hphase, events, List.filterMap_nil, List.append_nil] at h hinv ⊢
      exact wait_needs authChallenge hinv h
    | dialing => trivial
    | refused => trivial
    | draining => trivial
    | keepalive => trivial
    | pinging => trivial
    | pingFlushing => trivial
    | reading => trivial
    | leaving => trivial
    | ended => trivial

/-- A run is honest throughout exactly when each of its steps reports. -/
theorem honest_iff (inputs : List Input) :
    (∀ ran, ran <+: inputs → Honest authChallenge (after (step cfg) spawn ran)
      (events (emitted (step cfg) spawn ran))) ↔
    Meets (fun w input => (step cfg w input).1) Reported spawn inputs := by
  have hdom : Meets (watch (step cfg)) (fun _ _ => True) (spawn, []) inputs :=
    meets_of_forall _ (fun _ => True) _ _ fun _ _ => trivial
  have halways := @always_iff_meets _ _ (watch (step cfg)) (fun _ _ => True)
    (fun s input => Reported s.1 input)
    (fun s => follow kind .down (events s.2) = some (standing s.1.phase))
    (fun s => Honest authChallenge s.1 (events s.2))
    (fun s input hlog _ hok => ?_) (fun s hlog => honest_of_follow authChallenge hlog)
    (fun s input hlog _ hhonest => ?_) (spawn, []) rfl inputs hdom
  · rw [meets_watch] at halways
    simp only [run_watch, List.nil_append] at halways
    exact halways
  · rw [watch, events_append, follow_append, hlog]
    exact follows_step cfg hok
  · rw [watch, events_append] at hhonest
    exact reported_of_honest authChallenge cfg hlog hhonest

/-- A session whose first flush breaks, and the session that comes after it. -/
def brokenFlush : List Input :=
  [.work answering, .work answering, .work answering, .work answering,
    .work { answering with flush := .failed "connection reset" }, .work answering,
    .work { answering with now := 20000 }, .work answering]

theorem broken_flush_unreported :
    ¬ Honest (fun _ => none) (after (step (steady "wss://r.example")) spawn brokenFlush)
      (events (emitted (step (steady "wss://r.example")) spawn brokenFlush)) := by
  intro h
  have hlog : events (emitted (step (steady "wss://r.example")) spawn brokenFlush) =
      [.connected "wss://r.example" 1, .connected "wss://r.example" 1] := by
    decide +kernel
  obtain ⟨_, _, _, hmem⟩ := h.reconnects [] _ _ [] _ _ [] hlog
  exact absurd hmem List.not_mem_nil

end RelaySessions
