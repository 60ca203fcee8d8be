import NostrMultiPlatform.PlannerPartition

/-!
# Relay states and acknowledgements

The per-relay state machine of a publish: how a raw acknowledgement is
classified, and what it makes of the state, given the retry policy and the clock.
-/
namespace PublishState

abbrev RelayUrl : Type := String

def u32Max : Nat := 2 ^ 32 - 1
def u64Max : Nat := 2 ^ 64 - 1

/-- `u64::saturating_add`. -/
def saturatingAdd (a b : Nat) : Nat := min (a + b) u64Max

structure RelayAck where
  relayUrl : RelayUrl
  ok : Bool
  code : String
  message : String
  deriving DecidableEq, Repr

inductive AckClass where
  | authRequired | transient | permanent
  deriving DecidableEq, Repr

def timeoutCode : String := "timeout"
def authRequiredCode : String := "auth-required"

def permanentCodes : List String :=
  ["blocked", "pow", "restricted", "invalid", "duplicate", "mute"]

def classifyAck (ack : RelayAck) : AckClass :=
  if ack.ok then .permanent
  else if ack.code = authRequiredCode then .authRequired
  else if ack.code ∈ permanentCodes then .permanent
  else .transient

inductive PerRelayState where
  | pending
  | inFlight (sentAtMs attempt : Nat)
  | ok (ackedAtMs : Nat)
  | relayError (message : String) (attempt lastAtMs : Nat)
  | timedOut (attempt lastAtMs : Nat)
  | failedAfterRetries (reason : String) (lastAtMs : Nat)
  deriving DecidableEq, Repr

namespace PerRelayState

def isTerminal : PerRelayState → Bool
  | ok _ | failedAfterRetries .. => true
  | _ => false

def isOk : PerRelayState → Bool
  | ok _ => true
  | _ => false

def isInFlight : PerRelayState → Bool
  | inFlight .. => true
  | _ => false

def attempt : PerRelayState → Nat
  | inFlight _ attempt | relayError _ attempt _ | timedOut attempt _ => attempt
  | pending | ok _ | failedAfterRetries .. => 0

theorem isTerminal_of_isOk {state : PerRelayState} (h : state.isOk = true) :
    state.isTerminal = true := by
  cases state with
  | ok => rfl
  | _ => cases h

end PerRelayState

structure RetryPolicy where
  transientMaxRetries : Nat
  backoffBaseMs : Nat
  backoffFactor : Nat
  inflightDeadlineMs : Nat
  deriving DecidableEq, Repr

def RetryPolicy.default : RetryPolicy := ⟨3, 1000, 4, 30000⟩

/-- One multiplication for each attempt before the one that just failed. -/
def RetryPolicy.backoffFor (policy : RetryPolicy) (attemptJustFailed : Nat) : Nat :=
  (fun delay => min (delay * policy.backoffFactor) u64Max)^[attemptJustFailed - 1]
    policy.backoffBaseMs

inductive RetryVerdict where
  | settled (next : PerRelayState)
  | scheduleRetry (delayMs nextAttempt : Nat)
  | parkAwaitingAuth (reason : String)
  deriving DecidableEq, Repr

def permanentReason (ack : RelayAck) : String :=
  if ack.message = "" then ack.code else ack.message

def parkReason (ack : RelayAck) : String :=
  if ack.message = "" then authRequiredCode else ack.message

def timeoutReason (attempt : Nat) : String := "timeout after " ++ toString attempt ++ " retries"

def transientReason (ack : RelayAck) (attempt : Nat) : String :=
  if ack.code = timeoutCode then timeoutReason attempt
  else "transient after " ++ toString attempt ++ " retries: " ++
    if ack.message = "" then ack.code else ack.message

/-- Only a relay that was sent the event takes an acknowledgement in; elsewhere it is stale. -/
def applyAck (state : PerRelayState) (ack : RelayAck) (policy : RetryPolicy) (nowMs : Nat) :
    RetryVerdict :=
  if state.isInFlight then
    let attempt := max state.attempt 1
    if ack.ok then .settled (.ok nowMs)
    else
      match classifyAck ack with
      | .permanent => .settled (.failedAfterRetries (permanentReason ack) nowMs)
      | .authRequired => .parkAwaitingAuth (parkReason ack)
      | .transient =>
        if policy.transientMaxRetries ≤ attempt then
          .settled (.failedAfterRetries (transientReason ack attempt) nowMs)
        else .scheduleRetry (policy.backoffFor attempt) (attempt + 1)
  else .settled state

theorem applyAck_stale {state : PerRelayState} (h : state.isInFlight = false) (ack : RelayAck)
    (policy : RetryPolicy) (nowMs : Nat) : applyAck state ack policy nowMs = .settled state := by
  rw [applyAck, if_neg (by simp [h])]

/-- `canonical_relay_identity`: the canonical form, or the raw string where there is none. -/
def canonicalRelayIdentity (raw : String) : RelayUrl := (PlannerPartition.canonicalize raw).getD raw

end PublishState
