import Mathlib.Data.String.Basic
import NostrMultiPlatform.Sorted
import NostrMultiPlatform.Tables

/-!
# Reference rows

The producer remembers the revision of each key it last emitted and builds
baseline and incremental batches from a source of revisions; the host keeps one
cached row per key and applies the batches under a session and an epoch.
-/
namespace RefRows

open Sorted Tables

abbrev Namespace : Type := String
abbrev Key : Type := String
abbrev Payload : Type := List UInt8

inductive RefRowState where
  | changed | cleared
  deriving DecidableEq, Repr

structure RefRow where
  key : Key
  rev : Nat
  state : RefRowState
  payload : Payload
  deriving DecidableEq, Repr

def RefRow.changed (key : Key) (rev : Nat) (payload : Payload) : RefRow :=
  ⟨key, rev, .changed, payload⟩

def RefRow.cleared (key : Key) (rev : Nat) : RefRow := ⟨key, rev, .cleared, []⟩

/-- A batch of rows of one namespace; a baseline carries every live row. -/
structure RefRowDeltaBatch where
  ns : Namespace
  baseline : Bool
  rows : List RefRow
  deriving DecidableEq, Repr

structure CachedRow where
  rev : Nat
  payload : Payload
  deriving DecidableEq, Repr

structure RefRowApplyOutcome where
  changedKeys : List Key
  decodeFailed : Bool
  deriving DecidableEq, Repr

structure RefRowCache where
  rows : Table Namespace (Table Key CachedRow)
  appliedSession : Nat
  appliedEpoch : Nat
  baselined : Bool
  needsResync : Bool

def RefRowCache.new : RefRowCache := ⟨∅, 0, 0, false, false⟩

/-- The rows of a namespace, none where the namespace is absent. -/
def RefRowCache.rowsOf (cache : RefRowCache) (ns : Namespace) : Table Key CachedRow :=
  (cache.rows.lookup ns).getD ∅

def RefRowCache.rowAt (cache : RefRowCache) (ns : Namespace) (key : Key) : Option CachedRow :=
  (cache.rowsOf ns).lookup key

/-- The keys that have a value, with it, in order. -/
def sortedOf {ν : Type} (keys : List Key) (value : Key → Option ν) : SortedMap Key ν :=
  keys.foldl (fun m key =>
    match value key with
    | some v => m.insert key v
    | none => m) ∅

def RefRowCache.snapshot (cache : RefRowCache) (ns : Namespace) : SortedMap Key Payload :=
  sortedOf (cache.rowsOf ns).keys fun key => (cache.rowAt ns key).map (·.payload)

/-- The rows of a baseline, if all of them decode; of two rows for a key the newer one stays. -/
def scratchOf (decodeOk : Key → Payload → Bool) :
    List RefRow → Table Key CachedRow → Option (Table Key CachedRow)
  | [], scratch => some scratch
  | row :: rest, scratch =>
    match row.state with
    | .cleared => scratchOf decodeOk rest (scratch.erase row.key)
    | .changed =>
      if decodeOk row.key row.payload then
        if (scratch.lookup row.key).all (·.rev < row.rev) then
          scratchOf decodeOk rest (scratch.insert row.key ⟨row.rev, row.payload⟩)
        else scratchOf decodeOk rest scratch
      else none

/-- The keys whose slot differs between the prior rows and the new ones. -/
def diffKeys (prior : Table Key CachedRow) (scratch : Table Key CachedRow) : SortedSet Key :=
  SortedSet.ofList (scratch.keys.filter (fun key =>
      (prior.lookup key).map (·.payload) ≠ (scratch.lookup key).map (·.payload)) ++
    prior.keys.filter (· ∉ scratch))

def applyBaseline (decodeOk : Key → Payload → Bool) (batch : RefRowDeltaBatch)
    (identityChanged : Bool) (sessionId epoch : Nat) (cache : RefRowCache) :
    RefRowCache × RefRowApplyOutcome :=
  match scratchOf decodeOk batch.rows ∅ with
  | none => ({ cache with needsResync := true }, ⟨[], true⟩)
  | some scratch =>
    -- adopting an identity drops every other namespace and the latch
    let kept := if identityChanged then
      { cache with
        rows := ∅, appliedSession := sessionId, appliedEpoch := epoch, needsResync := false }
      else cache
    ({ kept with rows := kept.rows.insert batch.ns scratch, baselined := true },
      ⟨(diffKeys (kept.rowsOf batch.ns) scratch).elems, false⟩)

/-- An incremental merge under way. -/
structure Merge where
  rows : Table Key CachedRow
  changed : SortedSet Key
  decodeFailed : Bool

/-- A row changes the cache only if it is newer than the cached one, and decodes. -/
def mergeRow (decodeOk : Key → Payload → Bool) (m : Merge) (row : RefRow) : Merge :=
  match row.state with
  | .cleared =>
    if (m.rows.lookup row.key).any (·.rev < row.rev) then
      { m with rows := m.rows.erase row.key, changed := insert row.key m.changed }
    else m
  | .changed =>
    if (m.rows.lookup row.key).any (row.rev ≤ ·.rev) then m
    else if decodeOk row.key row.payload then
      { m with
        rows := m.rows.insert row.key ⟨row.rev, row.payload⟩, changed := insert row.key m.changed }
    else { m with decodeFailed := true }

def applyIncremental (decodeOk : Key → Payload → Bool) (batch : RefRowDeltaBatch)
    (cache : RefRowCache) : RefRowCache × RefRowApplyOutcome :=
  let m := batch.rows.foldl (mergeRow decodeOk) ⟨cache.rowsOf batch.ns, ∅, false⟩
  ({ cache with
      rows := cache.rows.insert batch.ns m.rows
      needsResync := cache.needsResync || m.decodeFailed
      baselined := true },
    ⟨m.changed.elems, m.decodeFailed⟩)

def RefRowCache.identityChanged (cache : RefRowCache) (sessionId epoch : Nat) : Bool :=
  sessionId ≠ cache.appliedSession || epoch ≠ cache.appliedEpoch

def RefRowCache.apply (cache : RefRowCache) (batch : RefRowDeltaBatch) (sessionId epoch : Nat)
    (decodeOk : Key → Payload → Bool) : RefRowCache × RefRowApplyOutcome :=
  if batch.baseline then
    applyBaseline decodeOk batch (cache.identityChanged sessionId epoch) sessionId epoch cache
  else if cache.identityChanged sessionId epoch then
    -- the identity is adopted, the rows are retained
    ({ cache with
        appliedSession := sessionId, appliedEpoch := epoch, baselined := false,
        needsResync := true }, ⟨[], false⟩)
  else applyIncremental decodeOk batch cache

/-- A source of revisions and payloads. -/
structure RefRowRevSource where
  refRowRev : Namespace → Key → Nat
  refRowKeys : Namespace → List Key
  refRowPayload : Namespace → Key → Option Payload

structure RefRowDeltaTracker where
  lastEmitted : Table Namespace (Table Key Nat)

def RefRowDeltaTracker.new : RefRowDeltaTracker := ⟨∅⟩

def RefRowDeltaTracker.reset (_ : RefRowDeltaTracker) : RefRowDeltaTracker := ⟨∅⟩

def RefRowDeltaTracker.resetNamespace (tracker : RefRowDeltaTracker) (ns : Namespace) :
    RefRowDeltaTracker := ⟨tracker.lastEmitted.erase ns⟩

/-- The revisions emitted for a namespace, none where the namespace is absent. -/
def RefRowDeltaTracker.emitted (tracker : RefRowDeltaTracker) (ns : Namespace) : Table Key Nat :=
  (tracker.lastEmitted.lookup ns).getD ∅

def sortedKeys (source : RefRowRevSource) (ns : Namespace) : List Key :=
  (SortedSet.ofList (source.refRowKeys ns)).elems

/-- The keys that have a value, with it. -/
def collect {ν : Type} (keys : List Key) (value : Key → Option ν) : Table Key ν :=
  keys.foldl (fun t key =>
    match value key with
    | some v => t.insert key v
    | none => t) ∅

def RefRowDeltaTracker.buildBaseline (tracker : RefRowDeltaTracker) (ns : Namespace)
    (source : RefRowRevSource) : RefRowDeltaTracker × RefRowDeltaBatch :=
  let keys := sortedKeys source ns
  let rows := keys.filterMap fun key =>
    (source.refRowPayload ns key).map (RefRow.changed key (source.refRowRev ns key))
  let emitted := collect keys fun key =>
    (source.refRowPayload ns key).map fun _ => source.refRowRev ns key
  (⟨tracker.lastEmitted.insert ns emitted⟩, ⟨ns, true, rows⟩)

/-- The payload of a live key whose revision advanced past the last one emitted. -/
def advanced (prev : Table Key Nat) (source : RefRowRevSource) (ns : Namespace) (key : Key) :
    Option Payload :=
  if (prev.lookup key).all (· < source.refRowRev ns key) then source.refRowPayload ns key else none

/-- Of a key that advanced the new revision is remembered, of any other the prior one. -/
def emittedRev (prev : Table Key Nat) (source : RefRowRevSource) (ns : Namespace) (key : Key) :
    Option Nat :=
  match advanced prev source ns key with
  | some _ => some (source.refRowRev ns key)
  | none => prev.lookup key

/-- The prior keys come in the order the hash map lists them. -/
def RefRowDeltaTracker.buildIncremental (tracker : RefRowDeltaTracker) (ns : Namespace)
    (source : RefRowRevSource) (mapOrder : Table Key Nat → List Key) :
    RefRowDeltaTracker × RefRowDeltaBatch :=
  let prev := tracker.emitted ns
  let live := sortedKeys source ns
  let changed := live.filterMap fun key =>
    (advanced prev source ns key).map (RefRow.changed key (source.refRowRev ns key))
  let emitted := collect live (emittedRev prev source ns)
  let cleared := (mapOrder prev).filterMap fun key =>
    if key ∈ live then none
    else (prev.lookup key).map fun last =>
      RefRow.cleared key (max (source.refRowRev ns key) (last + 1))
  (⟨tracker.lastEmitted.insert ns emitted⟩, ⟨ns, false, changed ++ cleared⟩)

theorem rowAt_of_rows {cache : RefRowCache} {base : Table Namespace (Table Key CachedRow)}
    {ns : Namespace} {rows : Table Key CachedRow} (h : cache.rows = base.insert ns rows)
    (other : Namespace) (key : Key) : cache.rowAt other key =
      if other = ns then rows.lookup key else ((base.lookup other).getD ∅).lookup key := by
  rw [RefRowCache.rowAt, RefRowCache.rowsOf, h, lookup_insert_eq]
  split
  next => rfl
  next => rfl

theorem lookup_collect {ν : Type} {keys : List Key} (value : Key → Option ν) (key : Key) :
    (collect keys value).lookup key = if key ∈ keys then value key else none := by
  have hfold : ∀ (keys : List Key) (t : Table Key ν),
      (keys.foldl (fun t key =>
        match value key with
        | some v => t.insert key v
        | none => t) t).lookup key =
      if key ∈ keys then (value key).or (t.lookup key) else t.lookup key := by
    intro keys
    induction keys with
    | nil => intro t; rfl
    | cons head _ ih =>
      intro t
      rw [List.foldl_cons, ih]
      cases hhead : value head with
      | none =>
        dsimp only
        by_cases heq : key = head
        · subst heq
          simp [hhead]
        · simp [heq]
      | some =>
        dsimp only
        rw [lookup_insert_eq]
        by_cases heq : key = head
        · subst heq
          simp [hhead]
        · simp [heq]
  refine (hfold keys ∅).trans ?_
  simp

theorem lookup_sortedOf {ν : Type} {keys : List Key} (value : Key → Option ν) (key : Key) :
    (sortedOf keys value).lookup key = if key ∈ keys then value key else none := by
  have hfold : ∀ (keys : List Key) (m : SortedMap Key ν),
      (keys.foldl (fun m key =>
        match value key with
        | some v => m.insert key v
        | none => m) m).lookup key =
      if key ∈ keys then (value key).or (m.lookup key) else m.lookup key := by
    intro keys
    induction keys with
    | nil => intro m; rfl
    | cons head _ ih =>
      intro m
      rw [List.foldl_cons, ih]
      cases hhead : value head with
      | none =>
        dsimp only
        by_cases heq : key = head
        · subst heq
          simp [hhead]
        · simp [heq]
      | some =>
        dsimp only
        rw [SortedMap.lookup_insert]
        by_cases heq : key = head
        · subst heq
          simp [hhead]
        · simp [heq]
  refine (hfold keys ∅).trans ?_
  rw [SortedMap.lookup_empty, Option.or_none]

theorem lookup_snapshot (cache : RefRowCache) (ns : Namespace) (key : Key) :
    (cache.snapshot ns).lookup key = (cache.rowAt ns key).map (·.payload) := by
  rw [RefRowCache.snapshot, lookup_sortedOf]
  split
  next => rfl
  next hnot =>
    have hnone : cache.rowAt ns key = none := AList.lookup_eq_none.mpr hnot
    rw [hnone, Option.map_none]

section Merging
variable {decodeOk : Key → Payload → Bool}

/-- What an incremental row makes of the cached row of its key. -/
def effect (decodeOk : Key → Payload → Bool) (row : RefRow) (old : Option CachedRow) :
    Option CachedRow :=
  match row.state with
  | .cleared => if old.any (·.rev < row.rev) then none else old
  | .changed =>
    if old.any (row.rev ≤ ·.rev) then old
    else if decodeOk row.key row.payload then some ⟨row.rev, row.payload⟩ else old

def fails (decodeOk : Key → Payload → Bool) (row : RefRow) (old : Option CachedRow) : Bool :=
  row.state = .changed && !old.any (row.rev ≤ ·.rev) && !decodeOk row.key row.payload

theorem lookup_mergeRow (m : Merge) (row : RefRow) (key : Key) :
    (mergeRow decodeOk m row).rows.lookup key =
      if key = row.key then effect decodeOk row (m.rows.lookup key) else m.rows.lookup key := by
  by_cases hkey : key = row.key
  · subst hkey
    rw [if_pos rfl, mergeRow, effect]
    cases row.state with
    | cleared =>
      dsimp only
      split
      next => exact AList.lookup_erase _ _
      next => rfl
    | changed =>
      dsimp only
      split
      next => rfl
      next =>
        split
        next => exact AList.lookup_insert _
        next => rfl
  · rw [if_neg hkey, mergeRow]
    cases row.state with
    | cleared =>
      dsimp only
      split
      next => exact AList.lookup_erase_ne hkey
      next => rfl
    | changed =>
      dsimp only
      split
      next => rfl
      next =>
        split
        next => exact AList.lookup_insert_ne hkey
        next => rfl

theorem decodeFailed_mergeRow (m : Merge) (row : RefRow) :
    (mergeRow decodeOk m row).decodeFailed =
      (m.decodeFailed || fails decodeOk row (m.rows.lookup row.key)) := by
  rw [mergeRow, fails]
  cases row.state with
  | cleared =>
    dsimp only
    split
    next => simp
    next => simp
  | changed =>
    dsimp only
    split
    next h => simp [h]
    next h =>
      split
      next hok => simp [hok]
      next hok => simp [h, hok]

variable {key : Key} {rows : List RefRow} {row : RefRow} {old : CachedRow}

theorem lookup_foldl_of_not_mem (h : key ∉ rows.map (·.key)) (m : Merge) :
    (rows.foldl (mergeRow decodeOk) m).rows.lookup key = m.rows.lookup key := by
  induction rows generalizing m with
  | nil => rfl
  | cons _ _ ih =>
    obtain ⟨hne, hrest⟩ := not_or.mp (mt List.mem_cons.mpr h)
    rw [List.foldl_cons, ih hrest, lookup_mergeRow, if_neg hne]

/-- Where no key comes twice, each row acts on what was cached before the batch. -/
theorem lookup_foldl_of_mem (hnodup : (rows.map (·.key)).Nodup) (hrow : row ∈ rows) (m : Merge) :
    (rows.foldl (mergeRow decodeOk) m).rows.lookup row.key =
      effect decodeOk row (m.rows.lookup row.key) := by
  induction rows generalizing m with
  | nil => cases hrow
  | cons head _ ih =>
    obtain ⟨hhead, hrest⟩ := List.nodup_cons.mp hnodup
    rw [List.foldl_cons]
    rcases List.mem_cons.mp hrow with rfl | hlater
    · rw [lookup_foldl_of_not_mem hhead, lookup_mergeRow, if_pos rfl]
    · have hne : row.key ≠ head.key := fun heq =>
        hhead (List.mem_map.mpr ⟨row, hlater, heq⟩)
      rw [ih hrest hlater, lookup_mergeRow, if_neg hne]

theorem decodeFailed_foldl (hnodup : (rows.map (·.key)).Nodup) (m : Merge) :
    (rows.foldl (mergeRow decodeOk) m).decodeFailed =
      (m.decodeFailed || rows.any fun row => fails decodeOk row (m.rows.lookup row.key)) := by
  induction rows generalizing m with
  | nil => exact (Bool.or_false _).symm
  | cons head rest ih =>
    obtain ⟨hhead, hrest⟩ := List.nodup_cons.mp hnodup
    have hsame : (rest.any fun row =>
        fails decodeOk row ((mergeRow decodeOk m head).rows.lookup row.key)) =
        rest.any fun row => fails decodeOk row (m.rows.lookup row.key) := by
      rw [Bool.eq_iff_iff, List.any_eq_true, List.any_eq_true]
      refine exists_congr fun row => and_congr_right fun hrow => ?_
      have hne : row.key ≠ head.key := fun heq =>
        hhead (List.mem_map.mpr ⟨row, hrow, heq⟩)
      rw [lookup_mergeRow, if_neg hne]
    rw [List.foldl_cons, ih hrest, decodeFailed_mergeRow, List.any_cons, Bool.or_assoc, hsame]

/-- The row is newer than a cached one and can be taken in. -/
def Accepted (decodeOk : Key → Payload → Bool) (row : RefRow) (old : CachedRow) : Prop :=
  old.rev < row.rev ∧ (row.state = .changed → decodeOk row.key row.payload = true)

theorem effect_of_not_accepted (h : ¬ Accepted decodeOk row old) :
    effect decodeOk row (some old) = some old := by
  rw [effect]
  cases hstate : row.state with
  | cleared =>
    have hrev : ¬ old.rev < row.rev := fun hlt => h ⟨hlt, fun heq => by rw [hstate] at heq; cases heq⟩
    simp [hrev]
  | changed =>
    dsimp only
    split
    next => rfl
    next hnewer =>
      have hlt : old.rev < row.rev := by simpa using hnewer
      rw [if_neg fun hok => h ⟨hlt, fun _ => hok⟩]

variable (decodeOk) in
theorem effect_cases (row : RefRow) (old : Option CachedRow) :
    effect decodeOk row old = old ∨ effect decodeOk row old = none ∨
      row.state = .changed ∧ effect decodeOk row old = some ⟨row.rev, row.payload⟩ := by
  rw [effect]
  cases row.state with
  | cleared =>
    dsimp only
    split
    next => exact .inr (.inl rfl)
    next => exact .inl rfl
  | changed =>
    dsimp only
    split
    next => exact .inl rfl
    next =>
      split
      next => exact .inr (.inr ⟨rfl, rfl⟩)
      next => exact .inl rfl

/-- A cached row that no row of the batch supersedes stays. -/
theorem lookup_foldl_kept {m : Merge} (hold : m.rows.lookup key = some old)
    (h : ∀ row ∈ rows, row.key = key → ¬ Accepted decodeOk row old) :
    (rows.foldl (mergeRow decodeOk) m).rows.lookup key = some old := by
  induction rows generalizing m with
  | nil => exact hold
  | cons row _ ih =>
    refine ih ?_ fun other hother => h other (List.mem_cons_of_mem _ hother)
    rw [lookup_mergeRow]
    split
    next hkey => rw [hold, effect_of_not_accepted (h row List.mem_cons_self hkey.symm)]
    next => exact hold

theorem effect_of_accepted (h : Accepted decodeOk row old) :
    effect decodeOk row (some old) = none ∨
      row.state = .changed ∧ effect decodeOk row (some old) = some ⟨row.rev, row.payload⟩ := by
  rw [effect]
  cases hstate : row.state with
  | cleared => exact .inl (by simp [h.1])
  | changed => exact .inr ⟨rfl, by simp [h.2 hstate, h.1]⟩

/-- A row cached after the batch was cached before and not superseded, or the batch carried it. -/
theorem lookup_foldl_origin {found : CachedRow} {m : Merge}
    (h : (rows.foldl (mergeRow decodeOk) m).rows.lookup key = some found) :
    RefRow.changed key found.rev found.payload ∈ rows ∨
      m.rows.lookup key = some found ∧
        ∀ row ∈ rows, row.key = key → ¬ Accepted decodeOk row found := by
  induction rows generalizing m with
  | nil => exact .inr ⟨h, nofun⟩
  | cons row rest ih =>
    rcases ih h with hlater | ⟨hfound, hrest⟩
    · exact .inl (List.mem_cons_of_mem _ hlater)
    · rw [lookup_mergeRow] at hfound
      have hcarried : row.key = key → row.state = .changed →
          some (⟨row.rev, row.payload⟩ : CachedRow) = some found →
          RefRow.changed key found.rev found.payload ∈ row :: rest := by
        intro hkey hstate heq
        obtain rfl := Option.some.inj heq
        have hsame : row = RefRow.changed key row.rev row.payload := by
          rw [RefRow.changed, ← hkey, ← hstate]
        exact hsame ▸ List.mem_cons_self
      split at hfound
      next hkey =>
        cases hold : m.rows.lookup key with
        | none =>
          rw [hold] at hfound
          rcases effect_cases decodeOk row none with hsame | hnone | ⟨hstate, hsome⟩
          · exact absurd (hsame.symm.trans hfound) nofun
          · exact absurd (hnone.symm.trans hfound) nofun
          · exact .inl (hcarried hkey.symm hstate (hsome.symm.trans hfound))
        | some old =>
          rw [hold] at hfound
          by_cases haccepted : Accepted decodeOk row old
          · rcases effect_of_accepted haccepted with hnone | ⟨hstate, hsome⟩
            · exact absurd (hnone.symm.trans hfound) nofun
            · exact .inl (hcarried hkey.symm hstate (hsome.symm.trans hfound))
          · rw [effect_of_not_accepted haccepted] at hfound
            obtain rfl := Option.some.inj hfound
            refine .inr ⟨rfl, fun other hother hother' => ?_⟩
            rcases List.mem_cons.mp hother with rfl | hlater
            · exact haccepted
            · exact hrest other hlater hother'
      next hkey =>
        refine .inr ⟨hfound, fun other hother hother' => ?_⟩
        rcases List.mem_cons.mp hother with rfl | hlater
        · exact absurd hother'.symm hkey
        · exact hrest other hlater hother'

/-- What a baseline commits, the batch carried. -/
theorem scratchOf_origin {scratch t : Table Key CachedRow}
    (h : scratchOf decodeOk rows scratch = some t) {found : CachedRow}
    (hfound : t.lookup key = some found) :
    RefRow.changed key found.rev found.payload ∈ rows ∨ scratch.lookup key = some found := by
  induction rows generalizing scratch with
  | nil =>
    obtain rfl := Option.some.inj h
    exact .inr hfound
  | cons row _ ih =>
    rw [scratchOf] at h
    cases hstate : row.state with
    | cleared =>
      rw [hstate] at h
      rcases ih h with hlater | hscratch
      · exact .inl (List.mem_cons_of_mem _ hlater)
      · rw [lookup_erase_eq] at hscratch
        split at hscratch
        next => cases hscratch
        next => exact .inr hscratch
    | changed =>
      rw [hstate] at h
      dsimp only at h
      split at h
      next =>
        split at h
        next =>
          rcases ih h with hlater | hscratch
          · exact .inl (List.mem_cons_of_mem _ hlater)
          · rw [lookup_insert_eq] at hscratch
            split at hscratch
            next hkey =>
              obtain rfl := Option.some.inj hscratch
              have hsame : row = RefRow.changed key row.rev row.payload := by
                rw [RefRow.changed, hkey, ← hstate]
              exact .inl (hsame ▸ List.mem_cons_self)
            next => exact .inr hscratch
        next =>
          exact (ih h).imp_left (List.mem_cons_of_mem _)
      next => cases h

end Merging

end RefRows
