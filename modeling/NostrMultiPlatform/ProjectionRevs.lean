import Mathlib.Data.List.Basic
import Mathlib.Algebra.Ring.Nat

/-!
# Revisions of the built-in projections

Every source of content counts its changes. The revision of a projection sums the
counters of its sources; a projection changed when its revision has grown since it
was last emitted. Drains, mirrors that expire and the declaration gate override
that for the tick at hand.
-/
namespace ProjectionRevs

inductive Source
  | profiles | accounts | activeAccount | profileClaims | claimedEventContent | openViews
  | configuredRelays | publish | publishEngine | diagnosticsInputs | settlementEnqueue
  | settlementDrain | ttlExpiry | refProfileRows | refEventRows
  deriving DecidableEq, Repr

inductive Key
  | accounts | actionLifecycle | actionResults | actionStages | activeAccount | configuredRelays
  | outboxSummary | profile | publishOutbox | publishQueue | refsEvent | refsProfile
  | relayDiagnostics | relayRoleOptions | settingsHub | signedEvents
  deriving DecidableEq, Repr

/-- `KERNEL_BUILTIN_PROJECTION_KEYS`. -/
def builtinKeys : List Key :=
  [.accounts, .actionLifecycle, .actionResults, .actionStages, .activeAccount, .configuredRelays,
    .outboxSummary, .profile, .publishOutbox, .publishQueue, .refsEvent, .refsProfile,
    .relayDiagnostics, .relayRoleOptions, .settingsHub, .signedEvents]

theorem mem_builtinKeys (key : Key) : key ∈ builtinKeys := by cases key <;> decide

theorem builtinKeys_nodup : builtinKeys.Nodup := by decide

/-- `BUILTIN_PROJECTION_DEPENDENCIES`. -/
def dependencies : Key → List Source
  | .accounts => [.accounts, .profiles]
  | .actionLifecycle => [.settlementEnqueue, .ttlExpiry]
  | .actionResults => [.settlementEnqueue, .settlementDrain]
  | .actionStages => [.settlementEnqueue, .ttlExpiry]
  | .activeAccount => [.activeAccount]
  | .configuredRelays => [.configuredRelays]
  | .outboxSummary => [.publishEngine]
  | .profile => [.profiles, .activeAccount]
  | .publishOutbox => [.publishEngine]
  | .publishQueue => [.publish]
  | .refsEvent => [.refEventRows]
  | .refsProfile => [.refProfileRows]
  | .relayDiagnostics => [.diagnosticsInputs]
  | .relayRoleOptions => [.configuredRelays]
  | .settingsHub => [.configuredRelays]
  | .signedEvents => [.settlementEnqueue, .settlementDrain]

def drainKeys : List Key := [.actionResults, .signedEvents]

/-- The drains and the copies that expire: absent when empty. -/
def conditionalKeys : List Key := [.actionResults, .signedEvents, .actionLifecycle, .actionStages]

def maxCount : Nat := 2 ^ 64 - 1

def saturatingAdd (a b : Nat) : Nat := min (a + b) maxCount

abbrev SourceVersions := Source → Nat

namespace SourceVersions

def bump (versions : SourceVersions) (source : Source) : SourceVersions :=
  Function.update versions source (saturatingAdd (versions source) 1)

/-- `compute_rev`. -/
def rev (versions : SourceVersions) (key : Key) : Nat :=
  (dependencies key).foldl (fun acc dep => saturatingAdd acc (versions dep)) 0

end SourceVersions

inductive ProjectionPresence
  | changed | unchanged | cleared
  deriving DecidableEq, Repr

/-- Which projections the host consumes. -/
inductive DeclaredProjections
  | undeclared
  | narrow (keys : List Key)
  | all
  deriving Repr

namespace DeclaredProjections

/-- The two mirrors of dispatched actions cannot be declared away. -/
def permits (declared : DeclaredProjections) (key : Key) : Bool :=
  if key = .actionLifecycle ∨ key = .actionStages then true
  else
    match declared with
    | .undeclared | .all => true
    | .narrow keys => decide (key ∈ keys)

def isNarrowing : DeclaredProjections → Bool
  | .narrow keys => decide (keys ≠ [])
  | _ => false

end DeclaredProjections

structure ProjectionRevTracker where
  sourceVersions : SourceVersions
  lastEmitted : Key → Option Nat
  epoch : Nat
  drainPrevNonempty : Key → Option Bool
  copyPrevNonempty : Key → Option Bool
  pendingPresence : Key → Option ProjectionPresence
  lastDeclaredPermits : Key → Option Bool
  lastSeenDiagnosticsFingerprint : Nat
  lastSeenPublishEngineFingerprint : Nat

namespace ProjectionRevTracker

def new : ProjectionRevTracker where
  sourceVersions := fun _ => 0
  lastEmitted := fun _ => none
  epoch := 0
  drainPrevNonempty := fun _ => none
  copyPrevNonempty := fun _ => none
  pendingPresence := fun _ => none
  lastDeclaredPermits := fun _ => none
  lastSeenDiagnosticsFingerprint := 0
  lastSeenPublishEngineFingerprint := 0

variable (t : ProjectionRevTracker)

def bump (source : Source) : ProjectionRevTracker :=
  { t with sourceVersions := t.sourceVersions.bump source }

variable (key : Key)

def park (presence : ProjectionPresence) : ProjectionRevTracker :=
  { t with pendingPresence := Function.update t.pendingPresence key (some presence) }

def recordEmitted : ProjectionRevTracker :=
  { t with
    lastEmitted := Function.update t.lastEmitted key (some (t.sourceVersions.rev key))
    pendingPresence := Function.update t.pendingPresence key none }

def changedSinceLastEmit : Bool :=
  match t.pendingPresence key with
  | some presence => presence = .changed || presence = .cleared
  | none =>
    match t.lastEmitted key with
    | none => true
    | some last => decide (last < t.sourceVersions.rev key)

def presenceFor : ProjectionPresence :=
  match t.pendingPresence key with
  | some presence => presence
  | none => if t.changedSinceLastEmit key then .changed else .unchanged

def resetLastEmitted : ProjectionRevTracker := { t with lastEmitted := fun _ => none }

def bumpEpoch : ProjectionRevTracker :=
  { t with epoch := saturatingAdd t.epoch 1, lastEmitted := fun _ => none }

/-- A drain is changed while it carries content and cleared once when it runs dry. -/
def noteDrainEmit (nonempty : Bool) : ProjectionRevTracker :=
  let wasNonempty := (t.drainPrevNonempty key).getD false
  let noted := if nonempty || wasNonempty then t.bump .settlementDrain else t
  let presence : ProjectionPresence :=
    if nonempty then .changed else if wasNonempty then .cleared else .unchanged
  { noted with drainPrevNonempty := Function.update t.drainPrevNonempty key (some nonempty) }.park key
    presence

/-- A copy that runs empty is cleared; otherwise its revision decides. -/
def noteCopyEmit (nonempty : Bool) : ProjectionRevTracker :=
  let wasNonempty := (t.copyPrevNonempty key).getD false
  let noted :=
    { t with copyPrevNonempty := Function.update t.copyPrevNonempty key (some nonempty) }
  if !nonempty && wasNonempty then (noted.bump .ttlExpiry).park key .cleared else noted

/-- One key of `reconcile_declared_permits`. -/
def reconcilePermit (declared : DeclaredProjections) (key : Key) : ProjectionRevTracker :=
  let permitted := declared.permits key
  let seen :=
    { t with lastDeclaredPermits := Function.update t.lastDeclaredPermits key (some permitted) }
  match t.lastDeclaredPermits key, permitted with
  | some false, true => seen.park key .changed
  | some true, false => seen.park key .cleared
  | _, false => seen.park key .unchanged
  | _, true => seen

def reconcileDeclaredPermits (declared : DeclaredProjections) : ProjectionRevTracker :=
  builtinKeys.foldl (fun t key => t.reconcilePermit declared key) t

def reconcileDiagnosticsFingerprint (fingerprint : Nat) : ProjectionRevTracker :=
  if fingerprint ≠ t.lastSeenDiagnosticsFingerprint then
    { t with lastSeenDiagnosticsFingerprint := fingerprint }.bump .diagnosticsInputs
  else t

def reconcilePublishEngineFingerprint (fingerprint : Nat) : ProjectionRevTracker :=
  if fingerprint ≠ t.lastSeenPublishEngineFingerprint then
    { t with lastSeenPublishEngineFingerprint := fingerprint }.bump .publishEngine
  else t

end ProjectionRevTracker

structure ProjectionState where
  key : Key
  rev : Nat
  presence : ProjectionPresence
  deriving DecidableEq, Repr

/-- `build_manifest`, without the identity of the session. -/
def buildManifest (t : ProjectionRevTracker) : List ProjectionState :=
  builtinKeys.map fun key => ⟨key, t.sourceVersions.rev key, t.presenceFor key⟩

def recordEmittedForManifest (t : ProjectionRevTracker) (manifest : List ProjectionState) :
    ProjectionRevTracker :=
  manifest.foldl (fun t state => t.recordEmitted state.key) t

end ProjectionRevs
