import NostrMultiPlatform.KeyedLists
import NostrMultiPlatform.ProjectionFrames

/-!
# Rows of a frame

A frame has at most one row for a projection, and the manifest and the encoded
payloads say which. A host that applies the frame follows that row.
-/
namespace ProjectionRows

open ProjectionMerge (Bytes WireProjectionState)
open KeyedLists ProjectionRevs ProjectionRevTracker ProjectionFrames

def encodedKeys (declared : DeclaredProjections) : List Key :=
  liveKeys ++ capturedKeys.filter declared.permits ++ deltaKeys

theorem encodedKeys_nodup (declared : DeclaredProjections) : (encodedKeys declared).Nodup := by
  have hall : (liveKeys ++ capturedKeys ++ deltaKeys).Nodup := by decide
  exact hall.sublist
    (((List.Sublist.refl _).append List.filter_sublist).append (List.Sublist.refl _))

theorem mem_encodedKeys {declared : DeclaredProjections} {key : Key}
    (hpermits : declared.permits key = true) : key ∈ encodedKeys declared := by
  have hall : key ∈ liveKeys ∨ key ∈ capturedKeys ∨ key ∈ deltaKeys := by cases key <;> decide
  rw [encodedKeys, List.mem_append, List.mem_append, List.mem_filter]
  rcases hall with hlive | hcaptured | hdelta
  · exact .inl (.inl hlive)
  · exact .inl (.inr ⟨hcaptured, hpermits⟩)
  · exact .inr hdelta

theorem rowOf_key (contents : Contents) (key : Key) (row : Row)
    (h : rowOf contents key = some row) : row.key = key := by
  obtain ⟨payload, -, rfl⟩ := Option.map_eq_some_iff.mp h
  rfl

theorem typedRows_nodup (contents : Contents) (declared : DeclaredProjections) :
    ((typedRows contents declared).map Row.key).Nodup := by
  have hrows : (((encodedKeys declared).filterMap (rowOf contents)).map Row.key).Nodup := by
    have hsub := map_filterMap_sublist (rowOf contents) id Row.key (rowOf_key contents)
      (encodedKeys declared)
    rw [List.map_id] at hsub
    exact (encodedKeys_nodup declared).sublist hsub
  unfold typedRows
  dsimp only
  split
  · exact hrows.sublist (List.filter_sublist.map _)
  · exact hrows

/-- A permitted projection has a row when it has a payload. -/
theorem find_typedRows {contents : Contents} {declared : DeclaredProjections} {key : Key}
    (hpermits : declared.permits key = true) :
    ((typedRows contents declared).find? fun row => row.key = key) = rowOf contents key := by
  have hrows : (((encodedKeys declared).filterMap (rowOf contents)).find? fun row =>
      row.key = key) = rowOf contents key := by
    rw [find?_filterMap_key (rowOf contents) id Row.key (rowOf_key contents)
      (by rw [List.map_id]; exact encodedKeys_nodup declared)]
    exact (congrArg (Option.bind · _) (find?_key (mem_encodedKeys hpermits))).trans rfl
  unfold typedRows
  dsimp only
  split
  · rw [List.find?_filter]
    refine Eq.trans (congrArg (List.find? · _) ?_) hrows
    funext row
    by_cases hrow : row.key = key
    · simp [hrow, hpermits]
    · simp [hrow]
  · exact hrows

theorem stampRow_key (manifest : List ProjectionState) (row : Row) :
    (stampRow manifest row).key = row.key := by
  unfold stampRow
  split <;> rfl

theorem keepRow_key (manifest : List ProjectionState) (row kept : Row)
    (h : keepRow manifest row = some kept) : kept.key = row.key := by
  unfold keepRow at h
  split at h
  · rw [← Option.some.inj h]
  · rw [← Option.some.inj h]
  · cases h

theorem synthesizeRow_key (present : List Key) (state : ProjectionState) (row : Row)
    (h : synthesizeRow present state = some row) : row.key = state.key := by
  unfold synthesizeRow at h
  split at h
  · cases h
  · split at h
    · rw [← Option.some.inj h]
    · split at h
      · rw [← Option.some.inj h]
      · cases h
    · cases h

variable {rows : List Row} (p : ProjectionRevTracker)

theorem stateOf_buildManifest (key : Key) :
    stateOf (buildManifest p) key =
      some ⟨key, p.sourceVersions.rev key, p.presenceFor key⟩ := by
  unfold stateOf buildManifest
  rw [List.find?_map]
  exact (congrArg (Option.map _) (find?_key (mem_builtinKeys key))).trans rfl

/-- What the frame says about a projection. -/
def said (p : ProjectionRevTracker) (rows : List Row) (key : Key) : Option Row :=
  match p.presenceFor key with
  | .unchanged => none
  | .cleared => some ⟨key, [], p.sourceVersions.rev key, .cleared⟩
  | .changed =>
    match rows.find? fun row => row.key = key with
    | some row => some ⟨key, row.payload, p.sourceVersions.rev key, .changed⟩
    | none =>
      if key ∈ conditionalKeys then some ⟨key, [], p.sourceVersions.rev key, .cleared⟩ else none

theorem find_frame (hnodup : (rows.map Row.key).Nodup) (key : Key) :
    ((omitUnchanged (rows.map (stampRow (buildManifest p))) (buildManifest p) true).find? fun row =>
      row.key = key) = said p rows key := by
  have hstamped : ((rows.map (stampRow (buildManifest p))).map Row.key).Nodup := by
    rw [List.map_map, show Row.key ∘ stampRow (buildManifest p) = Row.key from
      funext fun row => stampRow_key _ row]
    exact hnodup
  have hstates : ((buildManifest p).map ProjectionState.key).Nodup := by
    rw [buildManifest, List.map_map]
    exact (List.map_id builtinKeys).symm ▸ builtinKeys_nodup
  have hout : ((rows.map (stampRow (buildManifest p))).filterMap (keepRow (buildManifest p))).find?
      (fun row => row.key = key) = (rows.find? fun row => row.key = key).bind fun row =>
        keepRow (buildManifest p) (stampRow (buildManifest p) row) := by
    rw [find?_filterMap_key _ Row.key Row.key (keepRow_key _) hstamped, List.find?_map,
      Option.bind_map]
    simp only [Function.comp_def, stampRow_key]
  have hsynthesized : ∀ present : List Key, ((buildManifest p).filterMap
      (synthesizeRow present)).find? (fun row => row.key = key) =
        synthesizeRow present ⟨key, p.sourceVersions.rev key, p.presenceFor key⟩ := by
    intro present
    rw [find?_filterMap_key _ ProjectionState.key Row.key (synthesizeRow_key present) hstates]
    exact (congrArg (Option.bind · _) (stateOf_buildManifest p key)).trans rfl
  unfold omitUnchanged
  rw [if_pos rfl, List.find?_append, hout, hsynthesized]
  have hpresent : key ∈ ((rows.map (stampRow (buildManifest p))).filterMap
      (keepRow (buildManifest p))).map Row.key ↔ ∃ row, (rows.find? fun row => row.key = key).bind
        (fun row => keepRow (buildManifest p) (stampRow (buildManifest p) row)) = some row := by
    rw [← hout, ← Option.isSome_iff_exists, List.find?_isSome, List.mem_map]
    simp only [decide_eq_true_eq]
  unfold synthesizeRow
  cases hfound : rows.find? fun row => row.key = key with
  | none =>
    rw [hfound] at hpresent
    rw [if_neg (hpresent.not.mpr (by simp)), said, hfound]
    cases p.presenceFor key <;> rfl
  | some row =>
    have hkey : row.key = key := by simpa using List.find?_some hfound
    have hkept : keepRow (buildManifest p) (stampRow (buildManifest p) row) =
        said p rows key := by
      unfold keepRow said
      rw [hfound, stampRow_key, hkey, stateOf_buildManifest]
      unfold stampRow
      rw [hkey, stateOf_buildManifest]
      cases p.presenceFor key <;> simp
    rw [hfound, Option.bind_some, hkept] at hpresent
    rw [Option.bind_some, hkept]
    unfold said at hpresent ⊢
    rw [hfound] at hpresent ⊢
    cases hpresence : p.presenceFor key with
    | changed | cleared => rfl
    | unchanged => simp

theorem frame_nodup (hnodup : (rows.map Row.key).Nodup) :
    ((omitUnchanged (rows.map (stampRow (buildManifest p))) (buildManifest p) true).map
      Row.key).Nodup := by
  have hstamped : ((rows.map (stampRow (buildManifest p))).map Row.key).Nodup := by
    rw [List.map_map, show Row.key ∘ stampRow (buildManifest p) = Row.key from
      funext fun row => stampRow_key _ row]
    exact hnodup
  have hstates : ((buildManifest p).map ProjectionState.key).Nodup := by
    rw [buildManifest, List.map_map]
    exact (List.map_id builtinKeys).symm ▸ builtinKeys_nodup
  unfold omitUnchanged
  rw [if_pos rfl, List.map_append, List.nodup_append]
  refine ⟨hstamped.sublist (map_filterMap_sublist _ Row.key Row.key (keepRow_key _) _),
    hstates.sublist (map_filterMap_sublist _ ProjectionState.key Row.key (synthesizeRow_key _) _),
    ?_⟩
  rintro key hpresent other hother rfl
  obtain ⟨row, hrow, rfl⟩ := List.mem_map.mp hother
  obtain ⟨state, -, hsynthesized⟩ := List.mem_filterMap.mp hrow
  unfold synthesizeRow at hsynthesized
  rw [if_pos (synthesizeRow_key _ _ _ hsynthesized ▸ hpresent)] at hsynthesized
  cases hsynthesized

/-- What a host holds after the row. -/
def held (row : Row) : Option Bytes :=
  match row.state with
  | .changed => some row.payload
  | .cleared => none

theorem foldl_applyRow (hnodup : (rows.map Row.key).Nodup) (kept : Key → Option Bytes) (key : Key) :
    rows.foldl applyRow kept key =
      ((rows.find? fun row => row.key = key).map held).getD (kept key) := by
  induction rows generalizing kept with
  | nil => rfl
  | cons row rest ih =>
    rw [List.map_cons, List.nodup_cons] at hnodup
    obtain ⟨hfresh, hrest⟩ := hnodup
    rw [List.foldl_cons, ih hrest]
    by_cases hrow : row.key = key
    · have hnone : (rest.find? fun other => other.key = key) = none := by
        rw [List.find?_eq_none]
        intro other hother hkey
        exact hfresh (hrow ▸ of_decide_eq_true hkey ▸ List.mem_map_of_mem hother)
      rw [hnone, List.find?_cons_of_pos (by simpa using hrow)]
      subst hrow
      exact Function.update_self _ _ _
    · rw [List.find?_cons_of_neg (by simpa using hrow), applyRow,
        Function.update_of_ne fun heq => hrow heq.symm]

theorem clearedRows_eq (hnodup : (rows.map Row.key).Nodup) (key : Key) :
    clearedRows rows key =
      if (rows.find? fun row => row.key = key).any fun row => row.state = .cleared then 1 else 0 := by
  induction rows with
  | nil => rfl
  | cons row rest ih =>
    rw [List.map_cons, List.nodup_cons] at hnodup
    obtain ⟨hfresh, hrest⟩ := hnodup
    have hcons : clearedRows (row :: rest) key = clearedRows rest key +
        if row.key = key ∧ row.state = .cleared then 1 else 0 := by
      unfold clearedRows
      rw [List.countP_cons]
      simp only [decide_eq_true_eq]
    rw [hcons, ih hrest]
    by_cases hrow : row.key = key
    · have hnone : (rest.find? fun other => other.key = key) = none := by
        rw [List.find?_eq_none]
        intro other hother hkey
        exact hfresh (hrow ▸ of_decide_eq_true hkey ▸ List.mem_map_of_mem hother)
      rw [hnone, List.find?_cons_of_pos (by simpa using hrow)]
      simp [hrow]
    · rw [List.find?_cons_of_neg (by simpa using hrow)]
      simp [hrow]

end ProjectionRows
