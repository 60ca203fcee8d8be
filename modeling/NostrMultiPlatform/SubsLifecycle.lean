import NostrMultiPlatform.PlannerCompile
import NostrMultiPlatform.SubsAuthGate

/-!
# The subscription lifecycle

A compiled plan is committed: the difference to the plan in effect goes through
the gate, and so do the probes for the mailboxes of authors that are neither
cached, probed nor asked for already. Probes are not part of the plan.
-/
namespace SubsLifecycle

open Sorted PlannerShape PlannerPlan PlannerCompile SubsFilter SubsWire SubsAuthGate

/-- The controller; of the registry it keeps what `iter_active` lists. -/
structure SubscriptionLifecycle where
  active : List LogicalInterest
  indexerRelays : List String
  appRelays : List String
  activeAccountReadRelays : List String
  bootstrapContentRelays : List String
  bootstrapIndexerRelays : List String
  currentPlan : Option CompiledPlan
  currentPlanAttribution : SortedMap String RelayAttribution
  authGate : AuthGate
  compileCount : Nat
  coverageHook : Option (CompiledPlan → CompiledPlan)
  watermarkFn : Option (InterestShape → String → Option Nat)
  selectMaxConnections : Nat
  selectMaxPerUser : Nat
  deadRelays : SortedSet String
  probedMailboxes : SortedSet String
  mailboxGeneration : Nat
  watermarkGeneration : Nat
  lastCompileFingerprint : Option UInt64

def defaultSelectMaxConnections : Nat := 30

def defaultSelectMaxPerUser : Nat := 2

def SubscriptionLifecycle.new : SubscriptionLifecycle where
  active := []
  indexerRelays := []
  appRelays := []
  activeAccountReadRelays := []
  bootstrapContentRelays := []
  bootstrapIndexerRelays := []
  currentPlan := none
  currentPlanAttribution := ∅
  authGate := .new
  compileCount := 0
  coverageHook := none
  watermarkFn := none
  selectMaxConnections := defaultSelectMaxConnections
  selectMaxPerUser := defaultSelectMaxPerUser
  deadRelays := ∅
  probedMailboxes := ∅
  mailboxGeneration := 0
  watermarkGeneration := 0
  lastCompileFingerprint := none

def mailboxProbeBatch : Nat := 500

def kindRelayList : Nat := 10002

/-- The id of a planner frame that belongs to no interest. -/
def probeInterestId : Nat := 2 ^ 64 - 1

/-- Authors whose relay lists some interest fetches itself. -/
def kind10002Covered (interests : List LogicalInterest) : SortedSet String :=
  SortedSet.ofList ((interests.filter fun interest => kindRelayList ∈ interest.shape.kinds).flatMap
    fun interest => interest.shape.authors.elems)

def probeRelays (lc : SubscriptionLifecycle) : SortedSet String :=
  SortedSet.ofList (lc.indexerRelays ++ lc.appRelays)

/-- Nobody is probed while there is no relay to ask. -/
def toProbe (lc : SubscriptionLifecycle) (interests : List LogicalInterest)
    (cached : String → Bool) : SortedSet String :=
  if probeRelays lc = ∅ then ∅
  else
    SortedSet.ofList ((interests.flatMap fun interest => interest.shape.authors.elems).filter
      fun author => author ∉ lc.probedMailboxes ∧ !cached author ∧
        author ∉ kind10002Covered interests)

/-- The low half of a digest, in eight hexadecimal digits. -/
def hex8 (n : UInt64) : String :=
  let digits := Nat.toDigits 16 (n.toNat % 2 ^ 32)
  String.ofList (List.replicate (8 - digits.length) '0' ++ digits)

/-- Strings are hashed with a closing byte, slices with their length in front. -/
def probeSubId (chunk : List String) : String :=
  "mailbox-probe-" ++ hex8 (fnv (stringBytes "mailbox-probe" ++ [255] ++ leBytes chunk.length ++
    chunk.flatMap fun author => stringBytes author ++ [255]))

def probeFrame (chunk : List String) (relayUrl : String) : WireFrame :=
  .req relayUrl (probeSubId chunk)
    [("kinds", .numbers [kindRelayList]), ("authors", .strings chunk), ("limit", .number chunk.length)]
    probeInterestId .oneShot

def probeFrames (relays : SortedSet String) (authors : SortedSet String) : List WireFrame :=
  (authors.elems.toChunks mailboxProbeBatch).flatMap fun chunk => relays.elems.map (probeFrame chunk)

/-- The end of a recompile: the difference, the gate, then the probes. -/
def SubscriptionLifecycle.commit (nostr : NostrCrate) (lc : SubscriptionLifecycle)
    (plan : CompiledPlan) (interests : List LogicalInterest) (cached : String → Bool)
    (fingerprint : UInt64) : SubscriptionLifecycle × List WireFrame :=
  let rawFrames := planDiff nostr lc.currentPlan (some plan) interests
  let diffed := lc.authGate.partition rawFrames
  let authors := toProbe lc interests cached
  let probed := diffed.1.partition (probeFrames (probeRelays lc) authors)
  ({ lc with
      currentPlan := some plan
      lastCompileFingerprint := some fingerprint
      authGate := probed.1
      probedMailboxes := lc.probedMailboxes ∪ authors },
    diffed.2 ++ probed.2)

def SubscriptionLifecycle.handleAuthStateChange (lc : SubscriptionLifecycle) (relayUrl : String)
    (state : RelayAuthState) : SubscriptionLifecycle × List WireFrame :=
  let recorded := lc.authGate.recordTransition relayUrl state
  ({ lc with authGate := recorded.1 }, recorded.2)

/-- The plan keys of the lifecycle. -/
def SubscriptionLifecycle.planKeys (lc : SubscriptionLifecycle) : Finset Key :=
  collectRelaySubKeys lc.currentPlan

section

variable (nostr : NostrCrate) (lc : SubscriptionLifecycle) (plan : CompiledPlan)
  (interests : List LogicalInterest) (cached : String → Bool) (fingerprint : UInt64)
include nostr lc plan interests cached fingerprint

theorem commit_planKeys :
    (lc.commit nostr plan interests cached fingerprint).1.planKeys =
      collectRelaySubKeys (some plan) := rfl

theorem commit_gateState :
    (lc.commit nostr plan interests cached fingerprint).1.authGate.state = lc.authGate.state := by
  simp only [SubscriptionLifecycle.commit, AuthGate.partition_state]

/-- The frames that leave at once: those of the difference and the probes that pass the gate. -/
theorem commit_frames :
    (lc.commit nostr plan interests cached fingerprint).2 =
      (planDiff nostr lc.currentPlan (some plan) interests).filter lc.authGate.passes ++
        (probeFrames (probeRelays lc) (toProbe lc interests cached)).filter lc.authGate.passes := by
  simp only [SubscriptionLifecycle.commit, AuthGate.partition_out]
  rw [AuthGate.passes_congr (AuthGate.partition_state _ _)]

end

end SubsLifecycle
