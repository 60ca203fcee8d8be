import Mathlib.Data.List.Induction
import Mathlib.Data.String.Basic
import NostrMultiPlatform.Sorted
import NostrMultiPlatform.Texts

/-!
# Merging projection frames

A frame carries the projections that changed or were cleared. The cache keeps the
set built from them since the session or its epoch changed, and answers a frame
with the same frame carrying the whole set.
-/
namespace ProjectionMerge

open Sorted Texts

inductive WireProjectionState where
  | changed | cleared
  deriving DecidableEq, Repr

/-- Every value but that of `Cleared` is read as `Changed`. -/
def WireProjectionState.ofWire (v : UInt8) : WireProjectionState :=
  if v = 1 then .cleared else .changed

def WireProjectionState.toWire : WireProjectionState → UInt8
  | .changed => 0
  | .cleared => 1

@[simp] theorem WireProjectionState.ofWire_toWire (state : WireProjectionState) :
    ofWire state.toWire = state := by
  cases state <;> rfl

structure TypedProjectionData where
  key : String
  schemaId : String
  schemaVersion : Nat
  fileIdentifier : String
  payload : List UInt8
  projectionRev : Nat
  state : WireProjectionState
  deriving DecidableEq, Repr

structure TypedPayload where
  schemaId : Option String
  schemaVersion : Nat
  fileIdentifier : Option String
  payload : Option (List UInt8)
  deriving DecidableEq, Repr

structure TypedProjection where
  key : Option String
  payload : Option TypedPayload
  projectionRev : Nat
  state : UInt8
  deriving DecidableEq, Repr

/-- A snapshot with the fields that the merge reads; the others are copied together. -/
structure SnapshotFrame (Rest : Type) where
  sessionId : Nat
  snapshotEpoch : Nat
  typedProjections : Option (List TypedProjection)
  rest : Rest
  deriving DecidableEq

inductive FrameKind where
  | snapshot | panic | unknown (n : UInt8)
  deriving DecidableEq

structure UpdateFrame (Rest : Type) where
  kind : FrameKind
  panic : Option String
  snapshot : Option (SnapshotFrame Rest)
  deriving DecidableEq

inductive UpdateFrameDecodeError where
  | invalidFlatbuffer (msg : String)
  | invalidValue (msg : String)
  | missingSnapshotPayload
  | missingPanicPayload
  | unexpectedPanicFrame (msg : String)
  deriving DecidableEq, Repr

abbrev Bytes : Type := List UInt8

/-- What is used of the flatbuffers crate. The identifier probe answers, or panics; the verifier
gives the frame, or the text of its error; the builder writes a frame. -/
structure Flatbuffers (Rest : Type) where
  hasIdentifier : Bytes → Option Bool
  rootAsUpdateFrame : Bytes → Except String (UpdateFrame Rest)
  finish : UpdateFrame Rest → Bytes
  printable : Char → Bool

def decodeTypedProjection (printable : Char → Bool) (index : Nat) (projection : TypedProjection) :
    Except UpdateFrameDecodeError TypedProjectionData :=
  match projection.key with
  | none =>
    .error (.invalidValue ("typed projection at index " ++ toString index ++ " missing key"))
  | some key =>
    match projection.payload with
    | none =>
      .error (.invalidValue ("typed projection " ++ debugStr printable key ++ " missing payload"))
    | some typed =>
      .ok
        { key := key
          schemaId := typed.schemaId.getD ""
          schemaVersion := typed.schemaVersion
          fileIdentifier := typed.fileIdentifier.getD ""
          payload := typed.payload.getD []
          projectionRev := projection.projectionRev
          state := .ofWire projection.state }

def decodeRows (printable : Char → Bool) :
    Nat → List TypedProjection → Except UpdateFrameDecodeError (List TypedProjectionData)
  | _, [] => .ok []
  | index, projection :: rest => do
    let row ← decodeTypedProjection printable index projection
    let rows ← decodeRows printable (index + 1) rest
    return row :: rows

def decodeTypedProjections {Rest : Type} (printable : Char → Bool) (snapshot : SnapshotFrame Rest) :
    Except UpdateFrameDecodeError (List TypedProjectionData) :=
  match snapshot.typedProjections with
  | none => .ok []
  | some projections => decodeRows printable 0 projections

def encodeTypedProjection (entry : TypedProjectionData) : TypedProjection where
  key := some entry.key
  payload := some ⟨some entry.schemaId, entry.schemaVersion, some entry.fileIdentifier,
    some entry.payload⟩
  projectionRev := entry.projectionRev
  state := entry.state.toWire

def encodeTypedProjections (typed : List TypedProjectionData) : Option (List TypedProjection) :=
  if typed = [] then none else some (typed.map encodeTypedProjection)

abbrev Projections : Type := SortedMap String TypedProjectionData

structure ProjectionMergeCache where
  frameIdentity : Option (Nat × Nat)
  projections : Projections

def ProjectionMergeCache.default : ProjectionMergeCache := ⟨none, ∅⟩

def applyRow (projections : Projections) (row : TypedProjectionData) : Projections :=
  match row.state with
  | .changed => projections.insert row.key row
  | .cleared => projections.erase row.key

variable {Rest : Type}

def SnapshotFrame.identity (snapshot : SnapshotFrame Rest) : Nat × Nat :=
  (snapshot.sessionId, snapshot.snapshotEpoch)

/-- The snapshot of a frame, after the checks of its kind. -/
def snapshotOf (frame : UpdateFrame Rest) :
    Except UpdateFrameDecodeError (SnapshotFrame Rest) :=
  if frame.kind = .panic then .error (.unexpectedPanicFrame (frame.panic.getD ""))
  else if frame.kind ≠ .snapshot then .error .missingSnapshotPayload
  else
    match frame.snapshot with
    | none => .error .missingSnapshotPayload
    | some snapshot => .ok snapshot

/-- The snapshot of a buffer; nothing where the probe panics. -/
def readSnapshot (fb : Flatbuffers Rest) (bytes : Bytes) :
    Option (Except UpdateFrameDecodeError (SnapshotFrame Rest)) :=
  match fb.hasIdentifier bytes with
  | none => none
  | some false => some (.error (.invalidFlatbuffer "missing NMPU file identifier"))
  | some true =>
    match fb.rootAsUpdateFrame bytes with
    | .error err => some (.error (.invalidFlatbuffer err))
    | .ok frame => some (snapshotOf frame)

/-- The baseline that a frame of this identity continues from. -/
def ProjectionMergeCache.baseline (cache : ProjectionMergeCache) (identity : Nat × Nat) :
    Projections :=
  if cache.frameIdentity = some identity then cache.projections else ∅

def ProjectionMergeCache.commit (cache : ProjectionMergeCache) (identity : Nat × Nat)
    (rows : List TypedProjectionData) : ProjectionMergeCache where
  frameIdentity := some identity
  projections := rows.foldl applyRow (cache.baseline identity)

def rewriteTypedProjections (fb : Flatbuffers Rest) (snapshot : SnapshotFrame Rest)
    (typed : List TypedProjectionData) : Bytes :=
  fb.finish ⟨.snapshot, none,
    some { snapshot with typedProjections := encodeTypedProjections typed }⟩

/-- The values of a map, in the order of their keys. -/
def valuesOf (projections : Projections) : List TypedProjectionData :=
  projections.rows.map Prod.snd

/-- A result with the next cache; nothing where the call panics. -/
abbrev Merged : Type := Except UpdateFrameDecodeError Bytes × ProjectionMergeCache

def ProjectionMergeCache.mergeUpdateFrameWithExtraProjections (fb : Flatbuffers Rest)
    (cache : ProjectionMergeCache) (bytes : Bytes) (extra : List TypedProjectionData) :
    Option Merged :=
  (readSnapshot fb bytes).map fun
    | .error err => (.error err, cache)
    | .ok snapshot =>
      match decodeTypedProjections fb.printable snapshot with
      | .error err => (.error err, cache)
      | .ok rows =>
        let next := cache.commit snapshot.identity rows
        let output := extra.foldl (fun output entry => output.insert entry.key entry)
          next.projections
        (.ok (rewriteTypedProjections fb snapshot (valuesOf output)), next)

def ProjectionMergeCache.mergeUpdateFrame (fb : Flatbuffers Rest) (cache : ProjectionMergeCache)
    (bytes : Bytes) : Option Merged :=
  cache.mergeUpdateFrameWithExtraProjections fb bytes []

variable {cache : ProjectionMergeCache} {fb : Flatbuffers Rest} (printable : Char → Bool)

theorem decodeTypedProjection_encode (index : Nat) (entry : TypedProjectionData) :
    decodeTypedProjection printable index (encodeTypedProjection entry) = .ok entry := by
  simp [decodeTypedProjection, encodeTypedProjection]

theorem decodeRows_encode (index : Nat) (typed : List TypedProjectionData) :
    decodeRows printable index (typed.map encodeTypedProjection) = .ok typed := by
  induction typed generalizing index with
  | nil => rfl
  | cons _ _ ih =>
    simp only [List.map_cons, decodeRows, decodeTypedProjection_encode, ih]
    rfl

/-- The rows that are written are the rows that are read. -/
theorem decodeTypedProjections_encode (snapshot : SnapshotFrame Rest)
    (typed : List TypedProjectionData) :
    decodeTypedProjections printable
      { snapshot with typedProjections := encodeTypedProjections typed } = .ok typed := by
  unfold decodeTypedProjections encodeTypedProjections
  by_cases h : typed = []
  · rw [if_pos h, h]
  · rw [if_neg h]
    exact decodeRows_encode printable 0 typed

/-- The last row of a key, where it changed the projection. -/
def latest (rows : List TypedProjectionData) (key : String) : Option TypedProjectionData :=
  (rows.reverse.find? fun row => row.key = key).filter fun row => row.state = .changed

/-- The identity and the rows of a frame. -/
abbrev Frame : Type := (Nat × Nat) × List TypedProjectionData

/-- The rows, in order, of the frames that follow the last change of the identity. -/
def sinceLastChange (frames : List Frame) : List TypedProjectionData :=
  (frames.reverse.takeWhile fun frame =>
    some frame.1 = frames.getLast?.map Prod.fst).reverse.flatMap Prod.snd

theorem latest_concat (rows : List TypedProjectionData) (row : TypedProjectionData)
    (key : String) :
    latest (rows ++ [row]) key =
      if row.key = key then (if row.state = .changed then some row else none)
      else latest rows key := by
  unfold latest
  rw [List.reverse_append, List.reverse_singleton, List.singleton_append, List.find?_cons]
  by_cases hkey : row.key = key
  · simp only [hkey, decide_true, if_true, Option.filter_some]
    split <;> simp_all
  · simp only [hkey, decide_false, if_false]

theorem sinceLastChange_concat (frames : List Frame) (frame : Frame) :
    sinceLastChange (frames ++ [frame]) =
      if frames.getLast?.map Prod.fst = some frame.1 then sinceLastChange frames ++ frame.2
      else frame.2 := by
  have hsame : ((frames ++ [frame]).reverse.takeWhile fun f =>
      some f.1 = (frames ++ [frame]).getLast?.map Prod.fst) =
        frame :: frames.reverse.takeWhile fun f => some f.1 = some frame.1 := by
    rw [List.getLast?_concat, List.reverse_append, List.reverse_singleton, List.singleton_append,
      Option.map_some, List.takeWhile_cons_of_pos (by simp)]
  unfold sinceLastChange
  rw [hsame, List.reverse_cons, List.flatMap_append, List.flatMap_singleton]
  by_cases h : frames.getLast?.map Prod.fst = some frame.1
  · rw [if_pos h, h]
  · rw [if_neg h]
    have hnone : (frames.reverse.takeWhile fun f => some f.1 = some frame.1) = [] := by
      cases hrev : frames.reverse with
      | nil => rfl
      | cons last =>
        have hlast : frames.getLast? = some last := by
          rw [← List.reverse_reverse frames, hrev, List.reverse_cons, List.getLast?_concat]
        rw [hlast] at h
        exact List.takeWhile_cons_of_neg (by simpa using h)
    rw [hnone]
    rfl

theorem lookup_applyRow (projections : Projections) (row : TypedProjectionData) (key : String) :
    (applyRow projections row).lookup key =
      if row.key = key then (if row.state = .changed then some row else none)
      else projections.lookup key := by
  unfold applyRow
  cases row.state with
  | changed => simp [SortedMap.lookup_insert, eq_comm]
  | cleared => simp [SortedMap.lookup_erase, eq_comm]

/-- Applying rows to the set of earlier rows gives the set of all of them. -/
theorem lookup_foldl_applyRow {projections : Projections} {before : List TypedProjectionData}
    (h : ∀ key, projections.lookup key = latest before key) (rows : List TypedProjectionData)
    (key : String) : (rows.foldl applyRow projections).lookup key = latest (before ++ rows) key := by
  induction rows generalizing projections before with
  | nil => rw [List.append_nil]; exact h key
  | cons _ _ ih =>
    rw [List.foldl_cons, List.append_cons]
    apply ih
    intro key
    rw [lookup_applyRow, latest_concat, h]

/-- The cache is at the identity of the last frame, with the rows since it changed. -/
structure Holds (frames : List Frame) (cache : ProjectionMergeCache) : Prop where
  identity : cache.frameIdentity = frames.getLast?.map Prod.fst
  lookup : ∀ key, cache.projections.lookup key = latest (sinceLastChange frames) key

theorem holds_default : Holds [] .default := ⟨rfl, fun _ => rfl⟩

variable {frames : List Frame}

theorem Holds.commit (h : Holds frames cache) (identity : Nat × Nat)
    (rows : List TypedProjectionData) :
    Holds (frames ++ [(identity, rows)]) (cache.commit identity rows) := by
  constructor
  · rw [List.getLast?_concat]
    rfl
  · intro key
    rw [sinceLastChange_concat, ← h.identity]
    unfold ProjectionMergeCache.commit ProjectionMergeCache.baseline
    dsimp only
    by_cases hsame : cache.frameIdentity = some identity
    · rw [if_pos hsame, if_pos hsame]
      exact lookup_foldl_applyRow h.lookup rows key
    · rw [if_neg hsame, if_neg hsame]
      have hempty : ∀ key, (∅ : Projections).lookup key = latest [] key := fun _ => rfl
      simpa using lookup_foldl_applyRow hempty rows key

/-- The rows of the set, each under its own key. -/
theorem Holds.mem_valuesOf (h : Holds frames cache) (row : TypedProjectionData) :
    row ∈ valuesOf cache.projections ↔
      latest (sinceLastChange frames) row.key = some row := by
  rw [valuesOf, List.mem_map]
  constructor
  · rintro ⟨⟨key, value⟩, hmem, rfl⟩
    have hlookup := (h.lookup key).symm.trans (SortedMap.lookup_eq_some.mpr hmem)
    have hkey : value.key = key := by
      obtain ⟨hfind, _⟩ := Option.filter_eq_some_iff.mp hlookup
      simpa using List.find?_some hfind
    dsimp only
    rw [hkey]
    exact hlookup
  · intro hlatest
    refine ⟨(row.key, row), SortedMap.lookup_eq_some.mp ?_, rfl⟩
    rw [h.lookup, hlatest]

/-- What a buffer contributes, if it is accepted. -/
def accepted (fb : Flatbuffers Rest) (bytes : Bytes) : Option Frame :=
  match readSnapshot fb bytes with
  | some (.ok snapshot) =>
    match decodeTypedProjections fb.printable snapshot with
    | .ok rows => some (snapshot.identity, rows)
    | .error _ => none
  | _ => none

/-- The buffer is a snapshot frame that carries these rows. -/
def Carries (fb : Flatbuffers Rest) (bytes : Bytes) (rows : List TypedProjectionData) : Prop :=
  ∃ snapshot : SnapshotFrame Rest, bytes = fb.finish ⟨.snapshot, none, some snapshot⟩ ∧
    decodeTypedProjections fb.printable snapshot = .ok rows

/-- The three ways a merge goes: the probe panics, the frame is refused, or it is committed. -/
inductive Outcome (fb : Flatbuffers Rest) (cache : ProjectionMergeCache) (bytes : Bytes) :
    Option Merged → Prop
  | panicked (h : fb.hasIdentifier bytes = none) : Outcome fb cache bytes none
  | refused (err : UpdateFrameDecodeError) (hprobe : fb.hasIdentifier bytes ≠ none)
    (h : accepted fb bytes = none) : Outcome fb cache bytes (some (.error err, cache))
  | committed {identity : Nat × Nat} {rows : List TypedProjectionData} {out : Bytes}
    (hprobe : fb.hasIdentifier bytes ≠ none) (h : accepted fb bytes = some (identity, rows))
    (hout : Carries fb out (valuesOf (cache.commit identity rows).projections)) :
    Outcome fb cache bytes (some (.ok out, cache.commit identity rows))

theorem readSnapshot_eq_none {bytes : Bytes} :
    readSnapshot fb bytes = none ↔ fb.hasIdentifier bytes = none := by
  unfold readSnapshot
  cases fb.hasIdentifier bytes with
  | none => exact iff_of_true rfl rfl
  | some found =>
    cases found with
    | false => exact iff_of_false nofun nofun
    | true => cases fb.rootAsUpdateFrame bytes <;> exact iff_of_false nofun nofun

theorem mergeUpdateFrame_outcome (fb : Flatbuffers Rest) (cache : ProjectionMergeCache)
    (bytes : Bytes) : Outcome fb cache bytes (cache.mergeUpdateFrame fb bytes) := by
  unfold ProjectionMergeCache.mergeUpdateFrame
    ProjectionMergeCache.mergeUpdateFrameWithExtraProjections
  cases hread : readSnapshot fb bytes with
  | none => exact .panicked (readSnapshot_eq_none.mp hread)
  | some result =>
    have hprobe : fb.hasIdentifier bytes ≠ none := fun h => by
      rw [readSnapshot_eq_none.mpr h] at hread
      cases hread
    cases result with
    | error err => exact .refused err hprobe (by simp [accepted, hread])
    | ok snapshot =>
      dsimp only [Option.map_some]
      cases hrows : decodeTypedProjections fb.printable snapshot with
      | error err => exact .refused err hprobe (by simp [accepted, hread, hrows])
      | ok =>
        refine .committed hprobe (by simp [accepted, hread, hrows]) ⟨_, rfl, ?_⟩
        exact decodeTypedProjections_encode fb.printable snapshot _

/-- A call that returns, and leaves the cache as it was if it returns an error. -/
def Returns (fb : Flatbuffers Rest) (cache : ProjectionMergeCache) (bytes : Bytes) : Prop :=
  ∃ result next, cache.mergeUpdateFrame fb bytes = some (result, next) ∧
    ((∃ err, result = .error err) → next = cache)

theorem returns_iff (fb : Flatbuffers Rest) (cache : ProjectionMergeCache) (bytes : Bytes) :
    Returns fb cache bytes ↔ fb.hasIdentifier bytes ≠ none := by
  have houtcome := mergeUpdateFrame_outcome fb cache bytes
  unfold Returns
  generalize cache.mergeUpdateFrame fb bytes = merged at houtcome ⊢
  cases houtcome with
  | panicked h => simp [h]
  | refused _ hprobe => exact iff_of_true ⟨_, _, rfl, fun _ => rfl⟩ hprobe
  | committed hprobe => exact iff_of_true ⟨_, _, rfl, fun ⟨_, h⟩ => nomatch h⟩ hprobe

/-- A cache with the last output. -/
abbrev Host : Type := ProjectionMergeCache × Option Bytes

def host (fb : Flatbuffers Rest) (s : Host) (bytes : Bytes) : Option Host :=
  (s.1.mergeUpdateFrame fb bytes).map fun merged => (merged.2, merged.1.toOption <|> s.2)

/-- A host that starts empty and is given the buffers in order. -/
def receive (fb : Flatbuffers Rest) (frames : List Bytes) : Option Host :=
  frames.foldlM (host fb) (.default, none)

/-- The buffers are all answered, and the last output has exactly the rows that the changes since
the identity last changed leave. -/
def Folds (fb : Flatbuffers Rest) (frames : List Bytes) : Prop :=
  ∃ s, receive fb frames = some s ∧
    (s.2 = none ↔ frames.filterMap (accepted fb) = []) ∧
    ∀ out, s.2 = some out → ∃ rows, Carries fb out rows ∧
      (rows.map TypedProjectionData.key).Nodup ∧
      ∀ row, row ∈ rows ↔
        latest (sinceLastChange (frames.filterMap (accepted fb))) row.key = some row

/-- What holds of a host after the accepted frames. -/
structure Follows (fb : Flatbuffers Rest) (frames : List Frame) (s : Host) : Prop where
  holds : Holds frames s.1
  fresh : s.2 = none ↔ frames = []
  output : ∀ out, s.2 = some out → Carries fb out (valuesOf s.1.projections)

theorem Holds.keys_nodup (h : Holds frames cache) :
    ((valuesOf cache.projections).map TypedProjectionData.key).Nodup := by
  have hkeys : (valuesOf cache.projections).map TypedProjectionData.key =
      cache.projections.keys := by
    rw [valuesOf, List.map_map]
    apply List.map_congr_left
    rintro ⟨key, value⟩ hmem
    have hlookup := (h.lookup key).symm.trans (SortedMap.lookup_eq_some.mpr hmem)
    obtain ⟨hfind, _⟩ := Option.filter_eq_some_iff.mp hlookup
    simpa using List.find?_some hfind
  rw [hkeys]
  exact cache.projections.keys_nodup

theorem Follows.host {s : Host} (h : Follows fb frames s) {bytes : Bytes}
    (hprobe : fb.hasIdentifier bytes ≠ none) :
    ∃ s', ProjectionMerge.host fb s bytes = some s' ∧
      Follows fb (frames ++ (accepted fb bytes).toList) s' := by
  have houtcome := mergeUpdateFrame_outcome fb s.1 bytes
  unfold ProjectionMerge.host
  generalize s.1.mergeUpdateFrame fb bytes = merged at houtcome ⊢
  cases houtcome with
  | panicked hnone => exact absurd hnone hprobe
  | refused _ _ hacc =>
    refine ⟨_, rfl, ?_⟩
    rw [hacc]
    simpa [Except.toOption] using h
  | @committed identity rows out _ hacc hout =>
    refine ⟨_, rfl, ?_⟩
    rw [hacc]
    refine ⟨h.holds.commit identity rows, by simp [Except.toOption], ?_⟩
    intro out' hout'
    cases hout'
    exact hout

theorem receive_concat (fb : Flatbuffers Rest) (frames : List Bytes) (bytes : Bytes) :
    receive fb (frames ++ [bytes]) = (receive fb frames).bind fun s => host fb s bytes := by
  unfold receive
  rw [List.foldlM_append]
  cases h : List.foldlM (host fb) (ProjectionMergeCache.default, none) frames with
  | none => rfl
  | some s =>
    change (host fb s bytes).bind some = host fb s bytes
    cases host fb s bytes <;> rfl

theorem follows_receive {frames : List Bytes} (h : ∀ bytes ∈ frames, fb.hasIdentifier bytes ≠ none)
    :
    ∃ s, receive fb frames = some s ∧ Follows fb (frames.filterMap (accepted fb)) s := by
  induction frames using List.reverseRecOn with
  | nil => exact ⟨_, rfl, holds_default, iff_of_true rfl rfl, nofun⟩
  | append_singleton _ bytes ih =>
    obtain ⟨s, hs, hfollows⟩ := ih fun b hb => h b (List.mem_append_left _ hb)
    have hlast := h bytes (List.mem_append_right _ List.mem_cons_self)
    obtain ⟨s', hhost, hnext⟩ := hfollows.host hlast
    refine ⟨s', by rw [receive_concat, hs]; exact hhost, ?_⟩
    rw [List.filterMap_append]
    have hone : [bytes].filterMap (accepted fb) = (accepted fb bytes).toList := by
      cases hacc : accepted fb bytes <;> simp [hacc]
    rw [hone]
    exact hnext

theorem probed_of_receive {frames : List Bytes} {s : Host} (h : receive fb frames = some s) :
    ∀ bytes ∈ frames, fb.hasIdentifier bytes ≠ none := by
  induction frames using List.reverseRecOn generalizing s with
  | nil => exact nofun
  | append_singleton _ last ih =>
    rw [receive_concat] at h
    obtain ⟨s₀, hs₀, hhost⟩ := Option.bind_eq_some_iff.mp h
    intro bytes hmem
    obtain hmem | hmem := List.mem_append.mp hmem
    · exact ih hs₀ bytes hmem
    · rw [List.mem_singleton.mp hmem]
      obtain ⟨merged, hmerged, _⟩ := Option.map_eq_some_iff.mp hhost
      obtain ⟨result, next⟩ := merged
      have houtcome := mergeUpdateFrame_outcome fb s₀.1 last
      rw [hmerged] at houtcome
      cases houtcome with
      | refused _ hprobe => exact hprobe
      | committed hprobe => exact hprobe

theorem folds_iff (fb : Flatbuffers Rest) (frames : List Bytes) :
    Folds fb frames ↔ ∀ bytes ∈ frames, fb.hasIdentifier bytes ≠ none := by
  constructor
  · rintro ⟨s, hs, _⟩
    exact probed_of_receive hs
  · intro h
    obtain ⟨s, hs, hfollows⟩ := follows_receive h
    refine ⟨s, hs, hfollows.fresh, fun out hout => ?_⟩
    exact ⟨_, hfollows.output out hout, hfollows.holds.keys_nodup, hfollows.holds.mem_valuesOf⟩

/-- With a probe that needs eight bytes, a merge answers exactly the buffers that have them, and a
sequence of buffers is folded as it should be exactly where each of them has. -/
theorem merge_iff_eight_bytes (fb : Flatbuffers Rest)
    (hprobe : ∀ bytes, fb.hasIdentifier bytes = none ↔ bytes.length < 8) :
    (∀ cache bytes, Returns fb cache bytes ↔ 8 ≤ bytes.length) ∧
      ∀ frames, Folds fb frames ↔ ∀ bytes ∈ frames, 8 ≤ bytes.length := by
  have hlong (bytes : Bytes) : fb.hasIdentifier bytes ≠ none ↔ 8 ≤ bytes.length := by
    rw [ne_eq, hprobe, Nat.not_lt]
  constructor
  · intro cache bytes
    rw [returns_iff, hlong]
  · intro frames
    rw [folds_iff]
    exact forall₂_congr fun bytes _ => hlong bytes

def demoRow (key : String) : TypedProjectionData :=
  ⟨key, "schema", 1, "NFLR", [1], 1, .changed⟩

/-- A buffer of the identity with one row, told apart by the byte after the header. -/
def demoFrame (n : UInt8) (key : String) : Bytes × UpdateFrame Unit :=
  ([16, 0, 0, 0, 78, 77, 80, 85, n],
    ⟨.snapshot, none, some ⟨1, 1, some [encodeTypedProjection (demoRow key)], ()⟩⟩)

/-- The probe compares the four bytes after the root offset; a table of two buffers stands for the
verifier. -/
def demoFlatbuffers : Flatbuffers Unit where
  hasIdentifier bytes :=
    if bytes.length < 8 then none else some ((bytes.drop 4).take 4 = [78, 77, 80, 85])
  rootAsUpdateFrame bytes :=
    match [demoFrame 1 "feed", demoFrame 2 "profile"].lookup bytes with
    | some frame => .ok frame
    | none => .error "RangeOutOfBounds"
  finish _ := (demoFrame 1 "feed").1
  printable _ := true

theorem demo_folds :
    (accepted demoFlatbuffers (demoFrame 2 "profile").1).isSome = true ∧
      Folds demoFlatbuffers [(demoFrame 1 "feed").1, (demoFrame 2 "profile").1] := by
  have hprobe (bytes : Bytes) : demoFlatbuffers.hasIdentifier bytes = none ↔ bytes.length < 8 := by
    unfold demoFlatbuffers
    dsimp only
    split <;> simp_all
  refine ⟨by decide +kernel, ?_⟩
  exact ((merge_iff_eight_bytes demoFlatbuffers hprobe).2 _).mpr (by decide)

/-- An empty buffer is not answered. -/
theorem empty_not_returned : ¬ Returns demoFlatbuffers .default [] := by
  rw [returns_iff]
  decide

end ProjectionMerge
