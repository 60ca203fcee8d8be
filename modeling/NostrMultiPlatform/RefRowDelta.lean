import NostrMultiPlatform.RefRows

/-!
# Deltas of rows

The rows a source has live, what an incremental batch says between two of them,
and what merging it makes of the old ones. A baseline says all of the new ones.
-/
namespace RefRowDelta

open RefRows Sorted Tables

variable (source : RefRowRevSource)

def liveRow (ns : Namespace) (key : Key) : Option CachedRow :=
  if key ∈ source.refRowKeys ns then
    (source.refRowPayload ns key).map fun payload => ⟨source.refRowRev ns key, payload⟩
  else none

/-- The live keys of a source with their payloads. -/
def liveMap (ns : Namespace) : SortedMap Key Payload :=
  sortedOf (sortedKeys source ns) (source.refRowPayload ns)

/-- Every live key has a payload. -/
def Live : Prop :=
  ∀ ns, ∀ key ∈ source.refRowKeys ns, (source.refRowPayload ns key).isSome = true

/-- What monotonic revisions give for a key live at two times: the revision has not gone back, and
where it is the same the payload is, since every change, release and reclaim moves it on. -/
def Follows (old new : RefRowRevSource) : Prop :=
  ∀ ns key, key ∈ old.refRowKeys ns → key ∈ new.refRowKeys ns →
    old.refRowRev ns key ≤ new.refRowRev ns key ∧
      (old.refRowRev ns key = new.refRowRev ns key →
        old.refRowPayload ns key = new.refRowPayload ns key)

theorem mem_sortedKeys {source : RefRowRevSource} {ns : Namespace} {key : Key} :
    key ∈ sortedKeys source ns ↔ key ∈ source.refRowKeys ns := by
  rw [sortedKeys, SortedSet.mem_elems, SortedSet.mem_ofList]

theorem sortedKeys_nodup (source : RefRowRevSource) (ns : Namespace) :
    (sortedKeys source ns).Nodup :=
  (SortedSet.ofList (source.refRowKeys ns)).sorted.imp ne_of_lt

theorem lookup_liveMap (source : RefRowRevSource) (ns : Namespace) (key : Key) :
    (liveMap source ns).lookup key = (liveRow source ns key).map (·.payload) := by
  rw [liveMap, lookup_sortedOf, liveRow]
  by_cases hkey : key ∈ source.refRowKeys ns
  · rw [if_pos (mem_sortedKeys.mpr hkey), if_pos hkey, Option.map_map]
    exact Option.map_id'.symm
  · rw [if_neg (mt mem_sortedKeys.mp hkey), if_neg hkey, Option.map_none]

theorem Follows.rows {old new : RefRowRevSource} (h : Follows old new) {ns : Namespace} {key : Key}
    {r r' : CachedRow} (hr : liveRow old ns key = some r) (hr' : liveRow new ns key = some r') :
    r.rev ≤ r'.rev ∧ (r.rev = r'.rev → r = r') := by
  unfold liveRow at hr hr'
  split at hr
  next hold =>
    split at hr'
    next hnew =>
      obtain ⟨payload, hpayload, rfl⟩ := Option.map_eq_some_iff.mp hr
      obtain ⟨payload', hpayload', rfl⟩ := Option.map_eq_some_iff.mp hr'
      obtain ⟨hrev, hsame⟩ := h ns key hold hnew
      refine ⟨hrev, fun heq => ?_⟩
      have hpayloads := hsame heq
      rw [hpayload, hpayload'] at hpayloads
      rw [Option.some.inj hpayloads]
      exact congrArg (CachedRow.mk · payload') heq
    next => cases hr'
  next => cases hr

/-- The rows say what became of the old ones, each newer than the row it replaces. -/
structure Delta (old new : Key → Option CachedRow) (rows : List RefRow) : Prop where
  nodup : (rows.map (·.key)).Nodup
  tells : ∀ row ∈ rows, row.state = .changed ∧ new row.key = some ⟨row.rev, row.payload⟩ ∨
    row.state = .cleared ∧ new row.key = none
  newer : ∀ row ∈ rows, ∀ r, old row.key = some r → r.rev < row.rev
  rest : ∀ key, key ∉ rows.map (·.key) → old key = new key

theorem Delta.merge {old new : Key → Option CachedRow} {rows : List RefRow} (h : Delta old new rows)
    {decodeOk : Key → Payload → Bool} {m : Merge} (hm : ∀ key, m.rows.lookup key = old key)
    (hok : (rows.foldl (mergeRow decodeOk) m).decodeFailed = false) (key : Key) :
    (rows.foldl (mergeRow decodeOk) m).rows.lookup key = new key := by
  by_cases hkey : key ∈ rows.map (·.key)
  · obtain ⟨row, hrow, rfl⟩ := List.mem_map.mp hkey
    rw [decodeFailed_foldl h.nodup, Bool.or_eq_false_iff, List.any_eq_false] at hok
    have hdecodes := hok.2 row hrow
    have hnewer : ¬ (old row.key).any (row.rev ≤ ·.rev) = true := by
      intro hany
      obtain ⟨r, hr, hle⟩ := (Option.any_eq_true _ _).mp hany
      have hlt := h.newer row hrow r hr
      have hle' : row.rev ≤ r.rev := by simpa using hle
      omega
    rw [lookup_foldl_of_mem h.nodup hrow, hm, effect]
    rcases h.tells row hrow with ⟨hstate, hnew⟩ | ⟨hstate, hnew⟩
    · rw [hstate, hnew]
      dsimp only
      rw [if_neg hnewer, if_pos]
      rw [fails, hm, hstate] at hdecodes
      simpa [hnewer] using hdecodes
    · rw [hstate, hnew]
      dsimp only
      split
      next => rfl
      next hnot =>
        cases hold : old row.key with
        | none => rfl
        | some r => exact absurd (by simp [hold, h.newer row hrow r hold]) hnot
  · rw [lookup_foldl_of_not_mem hkey, hm, h.rest key hkey]

theorem scratchOf_lookup {decodeOk : Key → Payload → Bool} {rows : List RefRow}
    (hnodup : (rows.map (·.key)).Nodup) (hchanged : ∀ row ∈ rows, row.state = .changed)
    {scratch t : Table Key CachedRow} (hnew : ∀ row ∈ rows, scratch.lookup row.key = none)
    (h : scratchOf decodeOk rows scratch = some t) :
    (∀ row ∈ rows, t.lookup row.key = some ⟨row.rev, row.payload⟩) ∧
      ∀ key, key ∉ rows.map (·.key) → t.lookup key = scratch.lookup key := by
  induction rows generalizing scratch with
  | nil =>
    obtain rfl := Option.some.inj h
    exact ⟨nofun, fun _ _ => rfl⟩
  | cons row rest ih =>
    obtain ⟨hhead, hrest⟩ := List.nodup_cons.mp hnodup
    rw [scratchOf, hchanged row List.mem_cons_self] at h
    dsimp only at h
    have hfree : (scratch.lookup row.key).all (·.rev < row.rev) = true := by
      rw [hnew row List.mem_cons_self, Option.all_none]
    rw [if_pos hfree] at h
    split at h
    next =>
      have hother : ∀ r ∈ rest, (scratch.insert row.key ⟨row.rev, row.payload⟩).lookup r.key =
          none := by
        intro r hr
        have hne : r.key ≠ row.key := fun heq => hhead (List.mem_map.mpr ⟨r, hr, heq⟩)
        rw [lookup_insert_eq, if_neg hne]
        exact hnew r (List.mem_cons_of_mem _ hr)
      obtain ⟨hrows, hothers⟩ := ih hrest (fun r hr => hchanged r (List.mem_cons_of_mem _ hr))
        hother h
      refine ⟨fun r hr => ?_, fun key hkey => ?_⟩
      · rcases List.mem_cons.mp hr with rfl | hlater
        · rw [hothers r.key hhead, lookup_insert_eq, if_pos rfl]
        · exact hrows r hlater
      · obtain ⟨hne, hkey'⟩ := not_or.mp (mt List.mem_cons.mpr hkey)
        rw [hothers key hkey', lookup_insert_eq, if_neg hne]
    next => cases h

/-- Rows made for some of the keys, each under its own key. -/
theorem keys_filterMap (keys : List Key) {row : Key → Option RefRow}
    (h : ∀ key r, row key = some r → r.key = key) :
    ((keys.filterMap row).map (·.key)).Sublist keys := by
  induction keys with
  | nil => exact .refl _
  | cons key _ ih =>
    rw [List.filterMap_cons]
    split
    next => exact ih.cons key
    next r hr =>
      rw [List.map_cons, h key r hr]
      exact ih.cons_cons key

section Build
variable {source : RefRowRevSource} {ns : Namespace} {tracker : RefRowDeltaTracker}

theorem liveRow_eq_some (hlive : Live source) {key : Key} (hkey : key ∈ source.refRowKeys ns) :
    ∃ payload, source.refRowPayload ns key = some payload ∧
      liveRow source ns key = some ⟨source.refRowRev ns key, payload⟩ := by
  obtain ⟨payload, hpayload⟩ := Option.isSome_iff_exists.mp (hlive ns key hkey)
  exact ⟨payload, hpayload, by rw [liveRow, if_pos hkey, hpayload, Option.map_some]⟩

theorem liveRow_eq_none {key : Key} (hkey : key ∉ source.refRowKeys ns) :
    liveRow source ns key = none := by
  rw [liveRow, if_neg hkey]

theorem emitted_insert (lastEmitted : Table Namespace (Table Key Nat)) (ns : Namespace)
    (emitted : Table Key Nat) (other : Namespace) :
    (RefRowDeltaTracker.mk (lastEmitted.insert ns emitted)).emitted other =
      if other = ns then emitted else (RefRowDeltaTracker.mk lastEmitted).emitted other := by
  rw [RefRowDeltaTracker.emitted, RefRowDeltaTracker.emitted, lookup_insert_eq]
  split
  next => rfl
  next => rfl

theorem emitted_buildBaseline (tracker : RefRowDeltaTracker) (ns : Namespace)
    (source : RefRowRevSource) (key : Key) :
    ((tracker.buildBaseline ns source).1.emitted ns).lookup key =
      (liveRow source ns key).map (·.rev) := by
  rw [RefRowDeltaTracker.buildBaseline, emitted_insert, if_pos rfl, lookup_collect, liveRow]
  by_cases hkey : key ∈ source.refRowKeys ns
  · rw [if_pos (mem_sortedKeys.mpr hkey), if_pos hkey, Option.map_map]
    rfl
  · rw [if_neg (mt mem_sortedKeys.mp hkey), if_neg hkey, Option.map_none]

theorem scratchOf_baseline {decodeOk : Key → Payload → Bool} {t : Table Key CachedRow}
    (h : scratchOf decodeOk (tracker.buildBaseline ns source).2.rows ∅ = some t) (key : Key) :
    t.lookup key = liveRow source ns key := by
  let row (key : Key) : Option RefRow :=
    (source.refRowPayload ns key).map (RefRow.changed key (source.refRowRev ns key))
  have hrow : ∀ key r, row key = some r → r.key = key ∧ r.state = .changed ∧
      source.refRowPayload ns key = some r.payload ∧ r.rev = source.refRowRev ns key := by
    intro key r hr
    obtain ⟨payload, hpayload, rfl⟩ := Option.map_eq_some_iff.mp hr
    exact ⟨rfl, rfl, hpayload, rfl⟩
  have hnodup : (((sortedKeys source ns).filterMap row).map (·.key)).Nodup :=
    (keys_filterMap _ fun key r hr => (hrow key r hr).1).nodup (sortedKeys_nodup source ns)
  have hrows : ∀ r ∈ (sortedKeys source ns).filterMap row,
      r.key ∈ sortedKeys source ns ∧ row r.key = some r := by
    intro r hr
    obtain ⟨key, hkey, hmade⟩ := List.mem_filterMap.mp hr
    obtain rfl := (hrow key r hmade).1
    exact ⟨hkey, hmade⟩
  obtain ⟨hin, hout⟩ := scratchOf_lookup hnodup
    (fun r hr => (hrow r.key r (hrows r hr).2).2.1) (fun _ _ => rfl) h
  by_cases hkey : key ∈ ((sortedKeys source ns).filterMap row).map (·.key)
  · obtain ⟨r, hr, rfl⟩ := List.mem_map.mp hkey
    obtain ⟨hlive, hmade⟩ := hrows r hr
    obtain ⟨-, -, hpayload, hrev⟩ := hrow r.key r hmade
    rw [hin r hr, liveRow, if_pos (mem_sortedKeys.mp hlive), hpayload, Option.map_some, hrev]
  · rw [hout key hkey, liveRow]
    split
    next hlive =>
      cases hpayload : source.refRowPayload ns key with
      | none => rfl
      | some payload =>
        refine absurd (List.mem_map.mpr ⟨RefRow.changed key (source.refRowRev ns key) payload,
          List.mem_filterMap.mpr ⟨key, mem_sortedKeys.mpr hlive, ?_⟩, rfl⟩) hkey
        exact congrArg (Option.map _) hpayload
    next => rfl

/-- A baseline that does not decode has a live row. -/
theorem live_of_scratchOf_none {decodeOk : Key → Payload → Bool}
    (h : scratchOf decodeOk (tracker.buildBaseline ns source).2.rows ∅ = none) :
    ∃ key row, liveRow source ns key = some row := by
  by_contra hnone
  push Not at hnone
  have hempty : (tracker.buildBaseline ns source).2.rows = [] := by
    refine List.filterMap_eq_nil_iff.mpr fun key hkey => ?_
    have hlive := mem_sortedKeys.mp hkey
    cases hpayload : source.refRowPayload ns key with
    | none => rfl
    | some =>
      exact absurd (by rw [liveRow, if_pos hlive, hpayload, Option.map_some]) (hnone key _)
  rw [hempty] at h
  cases h

variable {old : Key → Option CachedRow}

/-- A live key that is not sent has the row that was sent before. -/
theorem same_of_not_advanced (hlive : Live source)
    (hprev : ∀ key, (tracker.emitted ns).lookup key = (old key).map (·.rev))
    (hfollows : ∀ key r r', old key = some r → liveRow source ns key = some r' →
      r.rev ≤ r'.rev ∧ (r.rev = r'.rev → r = r')) {key : Key} (hkey : key ∈ source.refRowKeys ns)
    (h : advanced (tracker.emitted ns) source ns key = none) :
    old key = liveRow source ns key := by
  obtain ⟨payload, hpayload, hrow⟩ := liveRow_eq_some hlive hkey
  rw [advanced, hpayload, hprev] at h
  cases hold : old key with
  | none =>
    rw [hold] at h
    simp at h
  | some r =>
    rw [hold, Option.map_some, Option.all_some] at h
    have hnot : ¬ r.rev < source.refRowRev ns key := by simpa using h
    obtain ⟨hle, hsame⟩ := hfollows key r _ hold hrow
    have heq : r.rev = source.refRowRev ns key := by
      dsimp only at hle
      omega
    rw [hrow, hsame heq]

section

variable (hlive : Live source)
  (hprev : ∀ key, (tracker.emitted ns).lookup key = (old key).map (·.rev))
  (hfollows : ∀ key r r', old key = some r → liveRow source ns key = some r' → r.rev ≤ r'.rev ∧ (r.rev = r'.rev → r = r'))
include hlive hprev hfollows

theorem emitted_buildIncremental (mapOrder : Table Key Nat → List Key) (key : Key) :
    ((tracker.buildIncremental ns source mapOrder).1.emitted ns).lookup key =
      (liveRow source ns key).map (·.rev) := by
  rw [RefRowDeltaTracker.buildIncremental, emitted_insert, if_pos rfl, lookup_collect]
  by_cases hkey : key ∈ source.refRowKeys ns
  · rw [if_pos (mem_sortedKeys.mpr hkey), emittedRev]
    cases hadvanced : advanced (tracker.emitted ns) source ns key with
    | none =>
      dsimp only
      rw [hprev, same_of_not_advanced hlive hprev hfollows hkey hadvanced]
    | some =>
      obtain ⟨payload', -, hrow⟩ := liveRow_eq_some hlive hkey
      rw [hrow, Option.map_some]
  · rw [if_neg (mt mem_sortedKeys.mp hkey), liveRow_eq_none hkey, Option.map_none]

theorem delta_buildIncremental {mapOrder : Table Key Nat → List Key}
    (horder : ∀ prev, (mapOrder prev).Perm prev.keys) :
    Delta old (liveRow source ns) (tracker.buildIncremental ns source mapOrder).2.rows := by
  let prev := tracker.emitted ns
  let sent (key : Key) : Option RefRow :=
    (advanced prev source ns key).map (RefRow.changed key (source.refRowRev ns key))
  let dropped (key : Key) : Option RefRow :=
    if key ∈ sortedKeys source ns then none
    else (prev.lookup key).map fun last =>
      RefRow.cleared key (max (source.refRowRev ns key) (last + 1))
  have hrows : (tracker.buildIncremental ns source mapOrder).2.rows =
      (sortedKeys source ns).filterMap sent ++ (mapOrder prev).filterMap dropped := rfl
  have hsent : ∀ key r, sent key = some r → r.key = key ∧ r.state = .changed ∧
      r.rev = source.refRowRev ns key ∧ source.refRowPayload ns key = some r.payload ∧
        ∀ last, prev.lookup key = some last → last < r.rev := by
    intro key r hr
    obtain ⟨payload, hpayload, rfl⟩ := Option.map_eq_some_iff.mp hr
    unfold advanced at hpayload
    split at hpayload
    next hall =>
      refine ⟨rfl, rfl, rfl, hpayload, fun last hlast => ?_⟩
      rw [hlast, Option.all_some] at hall
      exact of_decide_eq_true hall
    next => cases hpayload
  have hdropped : ∀ key r, dropped key = some r → r.key = key ∧ r.state = .cleared ∧
      key ∉ source.refRowKeys ns ∧ ∀ last, prev.lookup key = some last → last < r.rev := by
    intro key r hr
    dsimp only [dropped] at hr
    split at hr
    next => cases hr
    next hnot =>
      obtain ⟨last, hlast, rfl⟩ := Option.map_eq_some_iff.mp hr
      refine ⟨rfl, rfl, mt mem_sortedKeys.mpr hnot, fun last' hlast' => ?_⟩
      obtain rfl := Option.eq_some_unique hlast hlast'
      have hmax := le_max_right (source.refRowRev ns key) (last + 1)
      exact lt_of_lt_of_le (Nat.lt_succ_self last) hmax
  rw [hrows]
  have hkeysSent := keys_filterMap (sortedKeys source ns) fun key r hr => (hsent key r hr).1
  have hkeysDropped := keys_filterMap (mapOrder prev) fun key r hr => (hdropped key r hr).1
  refine ⟨?_, fun row hrow => ?_, fun row hrow r hr => ?_, fun key hkey => ?_⟩
  · rw [List.map_append]
    refine List.nodup_append.mpr ⟨hkeysSent.nodup (sortedKeys_nodup source ns),
      hkeysDropped.nodup ((horder prev).nodup_iff.mpr prev.keys_nodup), ?_⟩
    rintro key hsentKey _ hdroppedKey rfl
    obtain ⟨r, hr, rfl⟩ := List.mem_map.mp hdroppedKey
    obtain ⟨key, -, hmade⟩ := List.mem_filterMap.mp hr
    obtain ⟨rfl, -, hnot, -⟩ := hdropped key r hmade
    exact hnot (mem_sortedKeys.mp (hkeysSent.subset hsentKey))
  · rcases List.mem_append.mp hrow with hmem | hmem
    · obtain ⟨key, hkey, hmade⟩ := List.mem_filterMap.mp hmem
      obtain ⟨rfl, hstate, hrev, hpayload, -⟩ := hsent key row hmade
      refine .inl ⟨hstate, ?_⟩
      rw [liveRow, if_pos (mem_sortedKeys.mp hkey), hpayload, Option.map_some, hrev]
    · obtain ⟨key, hkey, hmade⟩ := List.mem_filterMap.mp hmem
      obtain ⟨rfl, hstate, hnot, -⟩ := hdropped key row hmade
      exact .inr ⟨hstate, liveRow_eq_none hnot⟩
  · have hlast : prev.lookup row.key = some r.rev := by rw [hprev, hr, Option.map_some]
    rcases List.mem_append.mp hrow with hmem | hmem
    · obtain ⟨key, hkey, hmade⟩ := List.mem_filterMap.mp hmem
      obtain ⟨rfl, -, -, -, hnewer⟩ := hsent key row hmade
      exact hnewer r.rev hlast
    · obtain ⟨key, hkey, hmade⟩ := List.mem_filterMap.mp hmem
      obtain ⟨rfl, -, -, hnewer⟩ := hdropped key row hmade
      exact hnewer r.rev hlast
  · by_cases hlive' : key ∈ source.refRowKeys ns
    · refine same_of_not_advanced hlive hprev hfollows hlive' ?_
      cases hadvanced : advanced prev source ns key with
      | none => rfl
      | some payload =>
        refine absurd (List.mem_map.mpr ⟨RefRow.changed key (source.refRowRev ns key) payload,
          List.mem_append_left _ (List.mem_filterMap.mpr ⟨key, mem_sortedKeys.mpr hlive', ?_⟩),
          rfl⟩) hkey
        exact congrArg (Option.map _) hadvanced
    · rw [liveRow_eq_none hlive']
      cases hold : old key with
      | none => rfl
      | some r =>
        have hlast : prev.lookup key = some r.rev := by rw [hprev, hold, Option.map_some]
        have hmem : key ∈ mapOrder prev :=
          (horder prev).mem_iff.mpr (AList.mem_keys.mp ((mem_iff_lookup _ _).mpr ⟨_, hlast⟩))
        refine absurd (List.mem_map.mpr ⟨RefRow.cleared key (max (source.refRowRev ns key)
          (r.rev + 1)), List.mem_append_right _ (List.mem_filterMap.mpr ⟨key, hmem, ?_⟩), rfl⟩) hkey
        dsimp only [dropped]
        rw [if_neg (mt mem_sortedKeys.mp hlive'), hlast, Option.map_some]

end

end Build

end RefRowDelta
