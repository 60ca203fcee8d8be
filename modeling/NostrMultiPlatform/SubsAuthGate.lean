import NostrMultiPlatform.SubsWire
import NostrMultiPlatform.Tables

/-!
# The auth gate

Requests to a relay in the middle of its handshake are buffered, those to a relay
that failed it are dropped, and closes always pass. The buffer of a relay is
handed out when it is authenticated and discarded when it fails.
-/
namespace SubsAuthGate

open SubsWire Tables

inductive RelayAuthState
  | notRequired
  | challengeReceived
  | authenticating
  | authenticated
  | failed
  deriving DecidableEq, Repr

/-- Requests flow to the relay in this state. -/
def RelayAuthState.opens : RelayAuthState → Bool
  | .notRequired => true
  | .authenticated => true
  | _ => false

structure AuthGate where
  state : Table String RelayAuthState
  pending : Table String (List WireFrame)

namespace AuthGate

def new : AuthGate := ⟨∅, ∅⟩

variable (g : AuthGate) (relayUrl : String)

/-- A relay without a recorded state needs no authentication. -/
def stateOf : RelayAuthState :=
  (g.state.lookup relayUrl).getD .notRequired

def isPaused : Bool :=
  match g.state.lookup relayUrl with
  | some .challengeReceived => true
  | some .authenticating => true
  | some .failed => true
  | _ => false

def isFailed : Bool :=
  g.state.lookup relayUrl = some .failed

/-- The buffer of a relay, empty if there is none. -/
def pendingAt : List WireFrame :=
  (g.pending.lookup relayUrl).getD []

def recordTransition (state : RelayAuthState) : AuthGate × List WireFrame :=
  match state with
  | .authenticated =>
    (⟨g.state.insert relayUrl state, g.pending.erase relayUrl⟩, g.pendingAt relayUrl)
  | .failed => (⟨g.state.insert relayUrl state, g.pending.erase relayUrl⟩, [])
  | _ => (⟨g.state.insert relayUrl state, g.pending⟩, [])

/-- One frame of a batch: dropped, buffered or passed through. -/
def partitionFrame (acc : AuthGate × List WireFrame) (frame : WireFrame) : AuthGate × List WireFrame :=
  match frame with
  | .req relayUrl .. =>
    if acc.1.isFailed relayUrl then acc
    else if acc.1.isPaused relayUrl then
      ({ acc.1 with
        pending := acc.1.pending.insert relayUrl (acc.1.pendingAt relayUrl ++ [frame]) }, acc.2)
    else (acc.1, acc.2 ++ [frame])
  | .close .. => (acc.1, acc.2 ++ [frame])

def partition (frames : List WireFrame) : AuthGate × List WireFrame :=
  frames.foldl partitionFrame (g, [])

/-- The frame reaches the relay at once. -/
def passes : WireFrame → Bool
  | .req relayUrl .. => !g.isPaused relayUrl
  | .close .. => true

/-- The frame goes to the buffer of the relay. -/
def waitsAt (relay : String) : WireFrame → Bool
  | .req relayUrl .. => relayUrl = relay && g.isPaused relayUrl && !g.isFailed relayUrl
  | .close .. => false

theorem isPaused_of_isFailed {g : AuthGate} {relayUrl : String} (h : g.isFailed relayUrl = true) :
    g.isPaused relayUrl = true := by
  simp only [isFailed, decide_eq_true_eq] at h
  simp only [isPaused, h]

theorem passes_congr {g g' : AuthGate} (h : g'.state = g.state) : g'.passes = g.passes := by
  funext frame
  cases frame <;> simp only [passes, isPaused, h]

theorem waitsAt_congr {g g' : AuthGate} (h : g'.state = g.state) : g'.waitsAt = g.waitsAt := by
  funext relay frame
  cases frame <;> simp only [waitsAt, isPaused, isFailed, h]

/-- What one frame does to the gate and the output. -/
theorem partitionFrame_spec (acc : AuthGate × List WireFrame) (frame : WireFrame) :
    (partitionFrame acc frame).1.state = acc.1.state ∧
      (partitionFrame acc frame).2 = acc.2 ++ [frame].filter acc.1.passes ∧
      ∀ relay, (partitionFrame acc frame).1.pendingAt relay =
        acc.1.pendingAt relay ++ [frame].filter (acc.1.waitsAt relay) := by
  cases frame with
  | close => exact ⟨rfl, rfl, fun relay => (List.append_nil _).symm⟩
  | req relayUrl =>
    cases hfailed : acc.1.isFailed relayUrl with
    | true =>
      have hpaused := isPaused_of_isFailed hfailed
      simp [partitionFrame, passes, waitsAt, hfailed, hpaused]
    | false =>
      cases hpaused : acc.1.isPaused relayUrl with
      | false => simp [partitionFrame, passes, waitsAt, hfailed, hpaused]
      | true =>
        refine ⟨by simp [partitionFrame, hfailed, hpaused], by simp [partitionFrame, passes, hfailed, hpaused], ?_⟩
        intro relay
        by_cases hrelay : relay = relayUrl
        · subst hrelay
          simp [partitionFrame, waitsAt, pendingAt, hfailed, hpaused]
        · have hother : ¬ relayUrl = relay := fun h => hrelay h.symm
          simp [partitionFrame, waitsAt, pendingAt, hfailed, hpaused, hother, hrelay]

variable (g : AuthGate) (frames : List WireFrame) (relayUrl : String) (state : RelayAuthState)

theorem foldl_partitionFrame (acc : AuthGate × List WireFrame) :
    (frames.foldl partitionFrame acc).1.state = acc.1.state ∧
      (frames.foldl partitionFrame acc).2 = acc.2 ++ frames.filter acc.1.passes ∧
      ∀ relay, (frames.foldl partitionFrame acc).1.pendingAt relay =
        acc.1.pendingAt relay ++ frames.filter (acc.1.waitsAt relay) := by
  induction frames generalizing acc with
  | nil => simp
  | cons frame rest ih =>
    obtain ⟨hstate, hout, hpending⟩ := partitionFrame_spec acc frame
    obtain ⟨ihState, ihOut, ihPending⟩ := ih (partitionFrame acc frame)
    have hcons : frame :: rest = [frame] ++ rest := rfl
    refine ⟨ihState.trans hstate, ?_, fun relay => ?_⟩
    · rw [List.foldl_cons, ihOut, hout, passes_congr hstate, hcons, List.filter_append,
        List.append_assoc]
    · rw [List.foldl_cons, ihPending, hpending, waitsAt_congr hstate, hcons, List.filter_append,
        List.append_assoc]

theorem partition_state :
    (g.partition frames).1.state = g.state := (foldl_partitionFrame frames (g, [])).1

theorem partition_out :
    (g.partition frames).2 = frames.filter g.passes := (foldl_partitionFrame frames (g, [])).2.1

theorem partition_pendingAt (relay : String) :
    (g.partition frames).1.pendingAt relay =
      g.pendingAt relay ++ frames.filter (g.waitsAt relay) :=
  (foldl_partitionFrame frames (g, [])).2.2 relay

theorem isPaused_eq : g.isPaused relayUrl = !(g.stateOf relayUrl).opens := by
  simp only [isPaused, stateOf]
  cases h : g.state.lookup relayUrl with
  | none => rfl
  | some state => cases state <;> rfl

theorem recordTransition_state :
    (g.recordTransition relayUrl state).1.state = g.state.insert relayUrl state := by
  cases state <;> rfl

theorem stateOf_recordTransition (relay : String) :
    (g.recordTransition relayUrl state).1.stateOf relay =
      if relay = relayUrl then state else g.stateOf relay := by
  rw [stateOf, recordTransition_state, lookup_insert_eq]
  split <;> rfl

/-- Only an authenticated relay gets its buffer. -/
theorem recordTransition_out :
    (g.recordTransition relayUrl state).2 =
      if state = .authenticated then g.pendingAt relayUrl else [] := by
  cases state <;> rfl

end AuthGate

end SubsAuthGate
