import Mathlib.Algebra.Order.BigOperators.Group.List
import NostrMultiPlatform.ProjectionFrames

/-!
# Revisions and presence

A bump of a source raises the revisions that depend on it until they are full. What
the notes and the gate of a tick leave in the tracker is said once for all keys.
-/
namespace ProjectionPresence

open ProjectionRevs ProjectionRevTracker ProjectionFrames

theorem foldl_saturatingAdd (l : List Source) (versions : SourceVersions) {a : Nat}
    (ha : a ≤ maxCount) : l.foldl (fun acc dep => saturatingAdd acc (versions dep)) a =
      min (a + (l.map versions).sum) maxCount := by
  induction l generalizing a with
  | nil => simp [ha]
  | cons dep _ ih =>
    have hroom : saturatingAdd a (versions dep) ≤ maxCount := Nat.min_le_right _ _
    rw [List.foldl_cons, ih hroom, List.map_cons, List.sum_cons, saturatingAdd]
    omega

variable {key : Key} {source : Source} (versions : SourceVersions)

theorem rev_eq (key : Key) :
    versions.rev key = min ((dependencies key).map versions).sum maxCount := by
  rw [SourceVersions.rev, foldl_saturatingAdd _ _ (Nat.zero_le _), Nat.zero_add]

theorem rev_le (key : Key) : versions.rev key ≤ maxCount := by
  rw [rev_eq]
  exact Nat.min_le_right _ _

theorem rev_of_full {versions : SourceVersions} (hmem : source ∈ dependencies key)
    (hfull : maxCount ≤ versions source) : versions.rev key = maxCount := by
  rw [rev_eq]
  have hle : versions source ≤ ((dependencies key).map versions).sum :=
    List.single_le_sum (fun _ _ => Nat.zero_le _) _ (List.mem_map_of_mem hmem)
  omega

/-- A bump of a source raises the revision, unless it is full. -/
theorem rev_bump (hmem : source ∈ dependencies key) :
    versions.rev key < (versions.bump source).rev key ∨
      (versions.bump source).rev key = maxCount := by
  rcases Nat.lt_or_ge (versions source) maxCount with hroom | hfull
  · have hsum : ((dependencies key).map versions).sum <
        ((dependencies key).map (versions.bump source)).sum := by
      refine List.sum_lt_sum _ _ (fun dep _ => ?_) ⟨source, hmem, ?_⟩
      · by_cases hdep : dep = source
        · subst hdep
          rw [SourceVersions.bump, Function.update_self, saturatingAdd]
          omega
        · rw [SourceVersions.bump, Function.update_of_ne hdep]
      · rw [SourceVersions.bump, Function.update_self, saturatingAdd]
        omega
    rw [rev_eq, rev_eq]
    omega
  · refine .inr (rev_of_full hmem ?_)
    rw [SourceVersions.bump, Function.update_self, saturatingAdd]
    omega

theorem rev_bump_of_not_mem {versions : SourceVersions} (hnot : source ∉ dependencies key) :
    (versions.bump source).rev key = versions.rev key := by
  have hmap : (dependencies key).map (versions.bump source) = (dependencies key).map versions :=
    List.map_congr_left fun dep hdep => Function.update_of_ne (ne_of_mem_of_not_mem hdep hnot) _ _
  rw [rev_eq, rev_eq, hmap]

theorem rev_le_bump (source : Source) (key : Key) :
    versions.rev key ≤ (versions.bump source).rev key := by
  by_cases hmem : source ∈ dependencies key
  · rcases rev_bump versions hmem with hlt | hfull
    · exact hlt.le
    · rw [hfull]
      exact rev_le versions key
  · rw [rev_bump_of_not_mem hmem]

/-- Some source of the projection is among the bumped ones. -/
def Touches (bumped : Source → Prop) (key : Key) : Prop := ∃ dep ∈ dependencies key, bumped dep

/-- Since it was emitted the revision has grown if a source was bumped, unless it is full, and is
the same otherwise. -/
structure Grown (last : Nat) (touched : Prop) (rev : Nat) : Prop where
  le : last ≤ rev
  lt : touched → last < rev ∨ rev = maxCount
  eq : ¬ touched → rev = last

theorem Grown.bump {last : Nat} {versions : SourceVersions} {bumped : Source → Prop}
    (h : Grown last (Touches bumped key) (versions.rev key)) (source : Source) :
    Grown last (Touches (fun dep => dep = source ∨ bumped dep) key)
      ((versions.bump source).rev key) := by
  have hle := rev_le_bump versions source key
  refine ⟨h.le.trans hle, ?_, fun hnot => ?_⟩
  · rintro ⟨dep, hdep, rfl | hold⟩
    · rcases rev_bump versions hdep with hlt | hfull
      · exact .inl (h.le.trans_lt hlt)
      · exact .inr hfull
    · rcases h.lt ⟨dep, hdep, hold⟩ with hlt | hfull
      · exact .inl (hlt.trans_le hle)
      · exact .inr (le_antisymm (rev_le _ key) (hfull ▸ hle))
  · rw [rev_bump_of_not_mem fun hmem => hnot ⟨source, hmem, .inl rfl⟩]
    exact h.eq fun ⟨dep, hdep, hold⟩ => hnot ⟨dep, hdep, .inr hold⟩

theorem Grown.congr {last rev : Nat} {p q : Prop} (h : Grown last p rev) (hpq : p ↔ q) :
    Grown last q rev :=
  ⟨h.le, fun hq => h.lt (hpq.mpr hq), fun hq => h.eq fun hp => hq (hpq.mp hp)⟩

theorem Grown.bumps {last : Nat} {versions : SourceVersions} {bumped : Source → Prop}
    (h : Grown last (Touches bumped key) (versions.rev key)) (sources : List Source) :
    Grown last (Touches (fun dep => dep ∈ sources ∨ bumped dep) key)
      ((sources.foldl SourceVersions.bump versions).rev key) := by
  induction sources generalizing versions bumped with
  | nil => exact h.congr (by simp [Touches])
  | cons source _ ih =>
    refine (ih (h.bump source)).congr (exists_congr fun dep => and_congr_right fun _ => ?_)
    dsimp only
    rw [List.mem_cons]
    tauto

/-- The revision has not grown when no source was bumped, or when it was full. -/
theorem Grown.le_iff {last rev : Nat} {touched : Prop} (h : Grown last touched rev)
    (hrev : rev ≤ maxCount) : rev ≤ last ↔ last = maxCount ∨ ¬ touched := by
  constructor
  · intro hle
    by_cases htouched : touched
    · rcases h.lt htouched with hlt | hfull
      · exact absurd hle (Nat.not_le.mpr hlt)
      · exact .inl (le_antisymm (h.le.trans hrev) (hfull ▸ hle))
    · exact .inr htouched
  · rintro (hfull | hnot)
    · exact hfull ▸ hrev
    · exact (h.eq hnot).le

variable (t : ProjectionRevTracker)

/-- What the notes park for a projection. -/
def noted (contents : Contents) (key : Key) : Option ProjectionPresence :=
  let nonempty := (contents.payload key).isSome
  if key ∈ drainKeys then
    let wasNonempty := (t.drainPrevNonempty key).getD false
    some (if nonempty then .changed else if wasNonempty then .cleared else .unchanged)
  else if key ∈ conditionalKeys then
    if !nonempty && (t.copyPrevNonempty key).getD false then some .cleared else none
  else none

/-- What the gate makes of it. -/
def gated (before : Option Bool) (permitted : Bool) (parked : Option ProjectionPresence) :
    Option ProjectionPresence :=
  match before, permitted with
  | some false, true => some .changed
  | some true, false => some .cleared
  | _, false => some .unchanged
  | _, true => parked

def drainBumps (wasNonempty : Option Bool) (nonempty : Bool) : List Source :=
  if nonempty || wasNonempty.getD false then [.settlementDrain] else []

def expiryBumps (wasNonempty : Option Bool) (nonempty : Bool) : List Source :=
  if !nonempty && wasNonempty.getD false then [.ttlExpiry] else []

def noteBumps (contents : Contents) : List Source :=
  drainBumps (t.drainPrevNonempty .actionResults) (contents.payload .actionResults).isSome ++
    drainBumps (t.drainPrevNonempty .signedEvents) (contents.payload .signedEvents).isSome ++
    expiryBumps (t.copyPrevNonempty .actionStages) (contents.payload .actionStages).isSome ++
    expiryBumps (t.copyPrevNonempty .actionLifecycle) (contents.payload .actionLifecycle).isSome

/-- The sources that the tick itself bumps. -/
def tickBumps (tick : Tick) : List Source :=
  noteBumps t tick.contents ++
    (if tick.diagnosticsFingerprint ≠ t.lastSeenDiagnosticsFingerprint then
      [.diagnosticsInputs] else []) ++
    (if tick.publishEngineFingerprint ≠ t.lastSeenPublishEngineFingerprint then
      [.publishEngine] else [])

section Prepare

variable (t : ProjectionRevTracker)

variable (declared : DeclaredProjections) (key : Key)

theorem reconcilePermit_fields :
    t.reconcilePermit declared key = { t with
      pendingPresence := Function.update t.pendingPresence key
        (gated (t.lastDeclaredPermits key) (declared.permits key) (t.pendingPresence key))
      lastDeclaredPermits :=
        Function.update t.lastDeclaredPermits key (some (declared.permits key)) } := by
  cases hbefore : t.lastDeclaredPermits key with
  | none =>
    cases hpermits : declared.permits key <;> simp [reconcilePermit, gated, park, hbefore, hpermits]
  | some before =>
    cases before <;> cases hpermits : declared.permits key <;>
      simp [reconcilePermit, gated, park, hbefore, hpermits]

/-- The gate goes over the keys one by one. -/
theorem foldl_reconcilePermit (keys : List Key) (hnodup : keys.Nodup) :
    keys.foldl (fun t key => t.reconcilePermit declared key) t = { t with
      pendingPresence := fun key =>
        if key ∈ keys then
          gated (t.lastDeclaredPermits key) (declared.permits key) (t.pendingPresence key)
        else t.pendingPresence key
      lastDeclaredPermits := fun key =>
        if key ∈ keys then some (declared.permits key) else t.lastDeclaredPermits key } := by
  induction keys generalizing t with
  | nil => simp
  | cons key _ ih =>
    obtain ⟨hfresh, hrest⟩ := List.nodup_cons.mp hnodup
    rw [List.foldl_cons, ih _ hrest, reconcilePermit_fields]
    congr 1
    · funext other
      by_cases hother : other = key
      · subst hother
        simp [hfresh]
      · simp [hother]
    · funext other
      by_cases hother : other = key
      · subst hother
        simp [hfresh]
      · simp [hother]

theorem reconcileDeclaredPermits_eq :
    t.reconcileDeclaredPermits declared = { t with
      pendingPresence := fun key =>
        gated (t.lastDeclaredPermits key) (declared.permits key) (t.pendingPresence key)
      lastDeclaredPermits := fun key => some (declared.permits key) } := by
  unfold reconcileDeclaredPermits
  rw [foldl_reconcilePermit t declared builtinKeys builtinKeys_nodup]
  simp only [mem_builtinKeys, if_true]

theorem noteDrainEmit_eq (nonempty : Bool) : t.noteDrainEmit key nonempty = { t with
    sourceVersions :=
      (drainBumps (t.drainPrevNonempty key) nonempty).foldl SourceVersions.bump t.sourceVersions
    drainPrevNonempty := Function.update t.drainPrevNonempty key (some nonempty)
    pendingPresence := Function.update t.pendingPresence key (some (if nonempty then .changed else
      if (t.drainPrevNonempty key).getD false then .cleared else .unchanged)) } := by
  unfold noteDrainEmit drainBumps
  dsimp only
  split <;> rfl

theorem noteCopyEmit_eq (nonempty : Bool) : t.noteCopyEmit key nonempty = { t with
    sourceVersions :=
      (expiryBumps (t.copyPrevNonempty key) nonempty).foldl SourceVersions.bump t.sourceVersions
    copyPrevNonempty := Function.update t.copyPrevNonempty key (some nonempty)
    pendingPresence := Function.update t.pendingPresence key
      (if !nonempty && (t.copyPrevNonempty key).getD false then some .cleared
        else t.pendingPresence key) } := by
  unfold noteCopyEmit expiryBumps
  dsimp only
  split
  · rfl
  · rw [Function.update_eq_self]
    rfl

/-- The four notes of a tick. -/
theorem drainAndCapture_eq (contents : Contents) (hpending : t.pendingPresence = fun _ => none) :
    drainAndCapture t contents = { t with
      sourceVersions := (noteBumps t contents).foldl SourceVersions.bump t.sourceVersions
      drainPrevNonempty := fun key =>
        if key ∈ drainKeys then some (contents.payload key).isSome else t.drainPrevNonempty key
      copyPrevNonempty := fun key =>
        if key ∈ conditionalKeys ∧ key ∉ drainKeys then some (contents.payload key).isSome
        else t.copyPrevNonempty key
      pendingPresence := noted t contents } := by
  unfold drainAndCapture
  dsimp only
  rw [noteDrainEmit_eq, noteDrainEmit_eq, noteCopyEmit_eq, noteCopyEmit_eq]
  dsimp only
  have hstages : Function.update t.copyPrevNonempty .actionStages
      (some (contents.payload .actionStages).isSome) .actionLifecycle =
        t.copyPrevNonempty .actionLifecycle := Function.update_of_ne (by decide) _ _
  have hsigned : Function.update t.drainPrevNonempty .actionResults
      (some (contents.payload .actionResults).isSome) .signedEvents =
        t.drainPrevNonempty .signedEvents := Function.update_of_ne (by decide) _ _
  simp only [hstages, hsigned, noteBumps, List.foldl_append, hpending]
  congr 1
  · funext key
    cases key <;> rfl
  · funext key
    cases key <;> rfl
  · funext key
    cases key <;> rfl

/-- What the tracker is when the manifest is built. -/
theorem prepare_eq (tick : Tick) (hpending : t.pendingPresence = fun _ => none) :
    prepare t tick =
      { sourceVersions := (tickBumps t tick).foldl SourceVersions.bump t.sourceVersions
        lastEmitted := if tick.baselinePending then fun _ => none else t.lastEmitted
        epoch := t.epoch
        drainPrevNonempty := fun key =>
          if key ∈ drainKeys then some (tick.contents.payload key).isSome
          else t.drainPrevNonempty key
        copyPrevNonempty := fun key =>
          if key ∈ conditionalKeys ∧ key ∉ drainKeys then some (tick.contents.payload key).isSome
          else t.copyPrevNonempty key
        pendingPresence := fun key => gated (t.lastDeclaredPermits key) (tick.declared.permits key)
          (noted t tick.contents key)
        lastDeclaredPermits := fun key => some (tick.declared.permits key)
        lastSeenDiagnosticsFingerprint := tick.diagnosticsFingerprint
        lastSeenPublishEngineFingerprint := tick.publishEngineFingerprint } := by
  have hdiagnostics : ∀ (u : ProjectionRevTracker) (fingerprint : Nat),
      u.reconcileDiagnosticsFingerprint fingerprint = { u with
        sourceVersions := (if fingerprint ≠ u.lastSeenDiagnosticsFingerprint then
          [Source.diagnosticsInputs] else []).foldl SourceVersions.bump u.sourceVersions
        lastSeenDiagnosticsFingerprint := fingerprint } := by
    intro u fingerprint
    unfold reconcileDiagnosticsFingerprint
    split
    · rfl
    next hsame => rw [not_not.mp hsame]; rfl
  have hengine : ∀ (u : ProjectionRevTracker) (fingerprint : Nat),
      u.reconcilePublishEngineFingerprint fingerprint = { u with
        sourceVersions := (if fingerprint ≠ u.lastSeenPublishEngineFingerprint then
          [Source.publishEngine] else []).foldl SourceVersions.bump u.sourceVersions
        lastSeenPublishEngineFingerprint := fingerprint } := by
    intro u fingerprint
    unfold reconcilePublishEngineFingerprint
    split
    · rfl
    next hsame => rw [not_not.mp hsame]; rfl
  unfold prepare
  dsimp only
  rw [drainAndCapture_eq t _ hpending, reconcileDeclaredPermits_eq, hdiagnostics, hengine]
  dsimp only
  rw [tickBumps, List.foldl_append, List.foldl_append]
  split <;> rfl

theorem presenceFor_eq : t.presenceFor key = (t.pendingPresence key).getD
    (if (t.lastEmitted key).all fun last => decide (last < t.sourceVersions.rev key) then .changed
      else .unchanged) := by
  unfold presenceFor changedSinceLastEmit
  cases t.pendingPresence key with
  | some => rfl
  | none => cases t.lastEmitted key <;> rfl

theorem foldl_recordEmitted (keys : List Key) : keys.foldl recordEmitted t = { t with
    lastEmitted := fun key =>
      if key ∈ keys then some (t.sourceVersions.rev key) else t.lastEmitted key
    pendingPresence := fun key => if key ∈ keys then none else t.pendingPresence key } := by
  induction keys generalizing t with
  | nil => simp
  | cons key rest ih =>
    rw [List.foldl_cons, ih, recordEmitted]
    congr 1
    · funext other
      by_cases hrest : other ∈ rest <;> by_cases hother : other = key <;> simp [hrest, hother]
    · funext other
      by_cases hrest : other ∈ rest <;> by_cases hother : other = key <;> simp [hrest, hother]

theorem recordEmittedForManifest_eq : recordEmittedForManifest t (buildManifest t) = { t with
    lastEmitted := fun key => some (t.sourceVersions.rev key)
    pendingPresence := fun _ => none } := by
  have hfold : recordEmittedForManifest t (buildManifest t) = builtinKeys.foldl recordEmitted t :=
    List.foldl_map
  rw [hfold, foldl_recordEmitted]
  simp only [mem_builtinKeys, if_true]

end Prepare

end ProjectionPresence
