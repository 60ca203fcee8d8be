import NostrMultiPlatform.ProjectionMerge
import NostrMultiPlatform.ProjectionRevs
import NostrMultiPlatform.Runs

/-!
# Incremental frames

Each tick drains and copies the projections, reconciles the tracker, and sends the
rows that changed or were cleared. A host applies the frames one after another.
-/
namespace ProjectionFrames

open ProjectionMerge (Bytes WireProjectionState)
open ProjectionRevs ProjectionRevTracker

/-- `TypedProjectionData` of a built-in projection, without the schema its key determines. -/
structure Row where
  key : Key
  payload : Bytes
  projectionRev : Nat
  state : WireProjectionState
  deriving DecidableEq, Repr

/-- The payloads at a tick; only the conditional ones can be absent. The carriers of row deltas
count as unchanged on a tick without rows. -/
structure Contents where
  payload : Key → Option Bytes
  unconditional : ∀ key, key ∉ conditionalKeys → (payload key).isSome = true

/-- What the tick reads: the payloads, the declared set, whether a baseline is due, and the
fingerprints of the payloads whose sources are not counted one by one. -/
structure Tick where
  contents : Contents
  declared : DeclaredProjections
  baselinePending : Bool
  diagnosticsFingerprint : Nat
  publishEngineFingerprint : Nat

variable (t : ProjectionRevTracker) (manifest : List ProjectionState) (contents : Contents)

/-- `drain_and_capture_projections`, as far as the tracker goes. -/
def drainAndCapture : ProjectionRevTracker :=
  let t := t.noteDrainEmit .actionResults (contents.payload .actionResults).isSome
  let t := t.noteDrainEmit .signedEvents (contents.payload .signedEvents).isSome
  let t := t.noteCopyEmit .actionStages (contents.payload .actionStages).isSome
  t.noteCopyEmit .actionLifecycle (contents.payload .actionLifecycle).isSome

def rowOf (key : Key) : Option Row :=
  (contents.payload key).map fun payload => ⟨key, payload, 0, .changed⟩

/-- The projections that are encoded whenever they are read. -/
def liveKeys : List Key :=
  [.configuredRelays, .relayRoleOptions, .settingsHub, .publishQueue, .publishOutbox,
    .outboxSummary, .accounts, .activeAccount, .profile]

/-- The ones that are captured only when permitted. -/
def capturedKeys : List Key :=
  [.actionResults, .signedEvents, .actionStages, .actionLifecycle, .relayDiagnostics]

/-- The two carriers of row deltas. -/
def deltaKeys : List Key := [.refsProfile, .refsEvent]

/-- `builtin_typed_projections` and the carriers behind them. -/
def typedRows (declared : DeclaredProjections) : List Row :=
  let captured := capturedKeys.filter declared.permits
  let rows := (liveKeys ++ captured ++ deltaKeys).filterMap (rowOf contents)
  if declared.isNarrowing then rows.filter fun row => declared.permits row.key else rows

def stateOf (key : Key) : Option ProjectionState :=
  manifest.find? fun state => state.key = key

/-- `stamp_typed_projections`. -/
def stampRow (row : Row) : Row :=
  match stateOf manifest row.key with
  | none => row
  | some state => { row with
      projectionRev := state.rev
      state := if state.presence = .cleared then .cleared else .changed }

/-- The forward pass of `omit_unchanged`. -/
def keepRow (row : Row) : Option Row :=
  match ((stateOf manifest row.key).map ProjectionState.presence).getD .changed with
  | .changed => some row
  | .cleared => some { row with payload := [], state := .cleared }
  | .unchanged => none

/-- The inverse pass: what is cleared, or conditional and gone, gets a row of its own. -/
def synthesizeRow (present : List Key) (state : ProjectionState) : Option Row :=
  if state.key ∈ present then none
  else
    match state.presence with
    | .cleared => some ⟨state.key, [], state.rev, .cleared⟩
    | .changed =>
      if state.key ∈ conditionalKeys then some ⟨state.key, [], state.rev, .cleared⟩ else none
    | .unchanged => none

def omitUnchanged (typed : List Row) (manifest : List ProjectionState) (enabled : Bool) : List Row :=
  if enabled then
    let out := typed.filterMap (keepRow manifest)
    out ++ manifest.filterMap (synthesizeRow (out.map Row.key))
  else typed

structure Frame where
  snapshotEpoch : Nat
  rows : List Row

/-- The tracker when the manifest is built. -/
def prepare (tick : Tick) : ProjectionRevTracker :=
  let t := drainAndCapture t tick.contents
  let t := t.reconcileDeclaredPermits tick.declared
  let t := t.reconcileDiagnosticsFingerprint tick.diagnosticsFingerprint
  let t := t.reconcilePublishEngineFingerprint tick.publishEngineFingerprint
  if tick.baselinePending then t.resetLastEmitted else t

/-- `make_update`, as far as the built-in projections go. -/
def makeUpdate (tick : Tick) (enabled : Bool) : Frame × ProjectionRevTracker :=
  let t := prepare t tick
  let manifest := buildManifest t
  let typed := (typedRows tick.contents tick.declared).map (stampRow manifest)
  (⟨t.epoch, omitUnchanged typed manifest enabled⟩, recordEmittedForManifest t manifest)

/-- A host with the epoch it has seen last. -/
structure Host where
  epoch : Option Nat
  rows : Key → Option Bytes

def Host.empty : Host := ⟨none, fun _ => none⟩

def applyRow (rows : Key → Option Bytes) (row : Row) : Key → Option Bytes :=
  Function.update rows row.key <|
    match row.state with
    | .changed => some row.payload
    | .cleared => none

/-- Drop everything on a new epoch, store what changed, remove what was cleared. -/
def Host.apply (host : Host) (frame : Frame) : Host :=
  let kept := if host.epoch = some frame.snapshotEpoch then host.rows else fun _ => none
  ⟨some frame.snapshotEpoch, frame.rows.foldl applyRow kept⟩

/-- What the host is to see of a projection. -/
def Tick.shown (tick : Tick) (key : Key) : Option Bytes :=
  if tick.declared.permits key then tick.contents.payload key else none

/-- The kernel and its host, with the last tick, the sources bumped since, and of each projection
whether it was ever shown and how often it was cleared since then. -/
structure World where
  tracker : ProjectionRevTracker
  host : Host
  seen : Option Tick
  bumped : Source → Bool
  everShown : Key → Bool
  clears : Key → Nat

def World.new : World where
  tracker := .new
  host := .empty
  seen := none
  bumped := fun _ => false
  everShown := fun _ => false
  clears := fun _ => 0

/-- What the host was last to see. -/
def World.shown (w : World) (key : Key) : Option Bytes := w.seen.bind fun tick => tick.shown key

def clearedRows (rows : List Row) (key : Key) : Nat :=
  rows.countP fun row => row.key = key ∧ row.state = .cleared

inductive Op
  | bump (source : Source)
  | bumpEpoch
  | tick (tick : Tick)

def step (w : World) : Op → World
  | .bump source => { w with
      tracker := w.tracker.bump source
      bumped := Function.update w.bumped source true }
  | .bumpEpoch => { w with tracker := w.tracker.bumpEpoch }
  | .tick tick =>
    let emitted := makeUpdate w.tracker tick true
    { tracker := emitted.2
      host := w.host.apply emitted.1
      seen := some tick
      bumped := fun _ => false
      everShown := fun key => w.everShown key || (tick.shown key).isSome
      clears := fun key =>
        (if (w.shown key).isSome then 0 else w.clears key) + clearedRows emitted.1.rows key }

end ProjectionFrames
