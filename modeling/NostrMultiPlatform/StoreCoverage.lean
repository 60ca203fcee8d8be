import NostrMultiPlatform.StoreSearch

/-!
# Collection keeps the coverage ledger honest

A collection pass lowers every coverage row below what its eviction removed, and
takes a row out of every structure at once, on each of its exits. Pinned events
survive it as long as their rows are keyed by the lower-case spelling of the id.
-/
namespace StoreCoverage

open PostingIndex StoreEvent StoreText StoreState StoreInsert StoreGc StoreStep StoreEdits
open StoreActions StoreIndexes StoreReplica StoreSearch Tables Runs

theorem lookup_lowerRow {coverage : Table (String × String) Nat}
    {slot : CoverageGuard × Option Nat} {key : String × String} {bound : Nat}
    (h : (lowerRow coverage slot).lookup key = some bound) :
    (∃ old, coverage.lookup key = some old ∧ bound ≤ old) ∧
      (key = slot.1.key → ∀ oldest, slot.2 = some oldest → bound ≤ oldest - 1) := by
  unfold lowerRow at h
  cases holdest : slot.2 with
  | none =>
    rw [holdest] at h
    exact ⟨⟨bound, h, Nat.le_refl _⟩, fun _ _ hnone => by cases hnone⟩
  | some =>
    cases hexisting : coverage.lookup slot.1.key with
    | none =>
      rw [holdest, hexisting] at h
      refine ⟨⟨bound, h, Nat.le_refl _⟩, fun hkey => ?_⟩
      rw [hkey] at h
      cases hexisting.symm.trans h
    | some existing =>
      rw [holdest, hexisting] at h
      dsimp only at h
      split at h
      next hlower =>
        split at h
        · rw [lookup_erase_eq] at h
          split at h
          · cases h
          next hne => exact ⟨⟨bound, h, Nat.le_refl _⟩, fun hkey => absurd hkey hne⟩
        · rw [lookup_insert_eq] at h
          split at h
          next hkey =>
            cases h
            refine ⟨⟨existing, hkey ▸ hexisting, hlower.le⟩, fun _ m hm => ?_⟩
            cases hm
            exact Nat.le_refl _
          next hne => exact ⟨⟨bound, h, Nat.le_refl _⟩, fun hkey => absurd hkey hne⟩
      next hkeep =>
        refine ⟨⟨bound, h, Nat.le_refl _⟩, fun hkey m hm => ?_⟩
        cases hm
        rw [hkey] at h
        cases hexisting.symm.trans h
        exact not_lt.mp hkeep

theorem lookup_foldl_lowerRow {slots : Slots} {coverage : Table (String × String) Nat}
    {key : String × String} {bound : Nat}
    (h : (slots.foldl lowerRow coverage).lookup key = some bound) :
    (∃ old, coverage.lookup key = some old ∧ bound ≤ old) ∧
      ∀ slot ∈ slots, key = slot.1.key → ∀ oldest, slot.2 = some oldest → bound ≤ oldest - 1 := by
  induction slots generalizing coverage with
  | nil => exact ⟨⟨bound, h, Nat.le_refl _⟩, nofun⟩
  | cons _ _ ih =>
    obtain ⟨⟨mid, hmid, hle⟩, hrest⟩ := ih h
    obtain ⟨⟨old, hold, hle'⟩, hslot⟩ := lookup_lowerRow hmid
    refine ⟨⟨old, hold, hle.trans hle'⟩, fun other hother hkey oldest holdest => ?_⟩
    rcases List.mem_cons.mp hother with rfl | hother
    · exact hle.trans (hslot hkey oldest holdest)
    · exact hrest other hother hkey oldest holdest

/-- The slot of a guard knows of an evicted event in its range. -/
def Noted (slot : CoverageGuard × Option Nat) (id : String) (row : StoredEvent) : Prop :=
  row.raw.createdAt ≤ slot.1.coveredThrough → slot.1.matchesRow id row = true →
    ∃ oldest, slot.2 = some oldest ∧ oldest ≤ row.raw.createdAt

theorem noteSlot_fst (id : String) (row : StoredEvent) (slot : CoverageGuard × Option Nat) :
    (noteSlot id row slot).1 = slot.1 := by
  unfold noteSlot
  split <;> rfl

theorem noted_noteSlot (id : String) (row : StoredEvent) (slot : CoverageGuard × Option Nat) :
    Noted (noteSlot id row slot) id row := by
  intro hbelow hmatches
  rw [noteSlot_fst] at hbelow hmatches
  rw [noteSlot, if_pos ⟨hbelow, hmatches⟩]
  refine ⟨_, rfl, ?_⟩
  cases slot.2 with
  | none => exact Nat.le_refl _
  | some => exact Nat.min_le_right _ _

theorem Noted.noteSlot {slot : CoverageGuard × Option Nat} {id : String} {row : StoredEvent}
    (h : Noted slot id row) (id' : String) (row' : StoredEvent) :
    Noted (noteSlot id' row' slot) id row := by
  intro hbelow hmatches
  rw [noteSlot_fst] at hbelow hmatches
  obtain ⟨oldest, holdest, hle⟩ := h hbelow hmatches
  unfold StoreGc.noteSlot
  split
  · refine ⟨_, rfl, ?_⟩
    rw [holdest, Option.map_some, Option.getD_some]
    exact (Nat.min_le_left _ _).trans hle
  · exact ⟨oldest, holdest, hle⟩

/-- What one eviction, or a run of them, does: rows of the listed ids go, each noted in every
slot, and the coverage rows wait. -/
structure Evicted (ids : List String) (pass : Pass) (slots : Slots) (pass' : Pass)
    (slots' : Slots) : Prop where
  rows : ∀ id row, pass.st.events.lookup id = some row →
    pass'.st.events.lookup id = some row ∨ (pass'.st.events.lookup id = none ∧ id ∈ ids ∧
      ∀ slot ∈ slots', Noted slot id row)
  fewer : ∀ id, pass.st.events.lookup id = none → pass'.st.events.lookup id = none
  coverage : pass'.st.coverage = pass.st.coverage
  guards : slots'.map (·.1) = slots.map (·.1)
  noted : ∀ id row, (∀ slot ∈ slots, Noted slot id row) → ∀ slot ∈ slots', Noted slot id row

theorem evicted_evictOne (pass : Pass) (slots : Slots) (id : String) :
    Evicted [id] pass slots (evictOne pass slots id).1 (evictOne pass slots id).2 := by
  unfold evictOne
  cases hrow : pass.st.events.lookup id with
  | none => exact ⟨fun _ _ h => .inl h, fun _ h => h, rfl, rfl, fun _ _ h => h⟩
  | some row =>
    refine ⟨fun id' row' hrow' => ?_, fun id' hnone => ?_, rfl, ?_,
      fun id' row' hnoted slot hslot => ?_⟩
    · by_cases hid : id' = id
      · subst hid
        rw [hrow] at hrow'
        cases hrow'
        refine .inr ⟨?_, List.mem_singleton_self _, fun slot hslot => ?_⟩
        · rw [removeRow_events, lookup_erase_eq, if_pos rfl]
        · obtain ⟨old, -, rfl⟩ := List.mem_map.mp hslot
          exact noted_noteSlot id' row old
      · refine .inl ?_
        rw [removeRow_events, lookup_erase_eq, if_neg hid, hrow']
    · rw [removeRow_events, lookup_erase_eq, hnone, ite_self]
    · rw [List.map_map]
      exact List.map_congr_left fun slot _ => noteSlot_fst id row slot
    · obtain ⟨old, hold, rfl⟩ := List.mem_map.mp hslot
      exact (hnoted old hold).noteSlot id row

theorem Evicted.refl (pass : Pass) (slots : Slots) : Evicted [] pass slots pass slots :=
  ⟨fun _ _ h => .inl h, fun _ h => h, rfl, rfl, fun _ _ h => h⟩

theorem Evicted.trans {ids ids' : List String} {p q r : Pass} {ps qs rs : Slots}
    (h : Evicted ids p ps q qs) (h' : Evicted ids' q qs r rs) :
    Evicted (ids ++ ids') p ps r rs where
  rows id row hrow := by
    rcases h.rows id row hrow with hkept | ⟨hgone, hmem, hnoted⟩
    · exact (h'.rows id row hkept).imp_right fun hlater =>
        ⟨hlater.1, List.mem_append_right _ hlater.2.1, hlater.2.2⟩
    · exact .inr ⟨h'.fewer id hgone, List.mem_append_left _ hmem, h'.noted id row hnoted⟩
  fewer id hnone := h'.fewer id (h.fewer id hnone)
  coverage := h'.coverage.trans h.coverage
  guards := h'.guards.trans h.guards
  noted id row hnoted := h'.noted id row (h.noted id row hnoted)

theorem Evicted.mono {ids ids' : List String} {p q : Pass} {ps qs : Slots}
    (h : Evicted ids p ps q qs) (hsub : ∀ id ∈ ids, id ∈ ids') : Evicted ids' p ps q qs where
  rows id row hrow := (h.rows id row hrow).imp_right fun hgone =>
    ⟨hgone.1, hsub id hgone.2.1, hgone.2.2⟩
  fewer := h.fewer
  coverage := h.coverage
  guards := h.guards
  noted := h.noted

variable {st : MemState} {row : StoredEvent} {key : String} (call : GcCall)

/-- The loop, wherever it stops. -/
theorem evicted_evict (ids : List String) (pass : Pass) (slots : Slots) :
    Evicted ids pass slots (evict call ids pass slots).1.1 (evict call ids pass slots).1.2 := by
  induction ids generalizing pass slots with
  | nil => exact .refl pass slots
  | cons id _ ih =>
    obtain ⟨hrows, hfewer, hcoverage, hguards, hnoted⟩ := evicted_evictOne pass slots id
    have hone : Evicted [id] pass slots
        { (evictOne pass slots id).1 with reads := pass.reads + 1 } (evictOne pass slots id).2 :=
      ⟨hrows, hfewer, hcoverage, hguards, hnoted⟩
    rw [evict]
    dsimp only
    split
    · exact hone.mono fun other hother => List.mem_singleton.mp hother ▸ List.mem_cons_self
    · exact hone.trans (ih _ _)

/-- With time left the loop takes every listed row. -/
theorem evict_all {call : GcCall} (hearly : ∀ pass, call.late pass = false) {ids : List String}
    {pass : Pass} {slots : Slots} {id : String} (h : id ∈ ids) :
    (evict call ids pass slots).1.1.st.events.lookup id = none := by
  induction ids generalizing pass slots with
  | nil => cases h
  | cons _ rest ih =>
    rw [evict]
    dsimp only
    rw [hearly, if_neg (by simp)]
    rcases List.mem_cons.mp h with rfl | h
    · apply (evicted_evict call rest _ _).fewer
      show (evictOne pass slots id).1.st.events.lookup id = none
      unfold evictOne
      split
      next hnone => exact hnone
      next => rw [removeRow_events, lookup_erase_eq, if_pos rfl]
    · exact ih h

theorem mem_victims {call : GcCall} {id : String} (h : id ∈ victims call st) :
    id ∉ call.pins.map bytesToHex := by
  have hcandidate := List.mem_of_mem_take h
  rw [candidates, List.mem_map] at hcandidate
  obtain ⟨entry, hentry, rfl⟩ := hcandidate
  rw [List.mem_mergeSort, List.mem_map] at hentry
  obtain ⟨key, hkey, rfl⟩ := hentry
  exact of_decide_eq_true (List.mem_filter.mp hkey).2

/-- The pass that the eviction phase starts from, and whether time ran out before it. -/
def reaped (call : GcCall) (st : MemState) : Pass × Bool := reap call (expiredIds call st) ⟨st, {}, 0⟩

/-- The eviction of the step removes the row. -/
def Evicts (call : GcCall) (st : MemState) (id : String) (row : StoredEvent) : Prop :=
  (reaped call st).1.st.events.lookup id = some row ∧
    (gcStepWithPins call st).1.events.lookup id = none

/-- What the step leaves of rows and coverage is what its eviction phase leaves, if that runs. -/
theorem gcStep_cases (st : MemState) :
    ((reaped call st).2 = true ∧ (gcStepWithPins call st).1 = (reaped call st).1.st) ∨
    ((reaped call st).2 = false ∧
      (gcStepWithPins call st).1.events = (evictLru call (reaped call st).1).1.st.events ∧
      (gcStepWithPins call st).1.coverage = (evictLru call (reaped call st).1).1.st.coverage) := by
  unfold gcStepWithPins reaped
  dsimp only
  split
  next hout => exact .inl ⟨hout, rfl⟩
  next hout =>
    refine .inr ⟨Bool.eq_false_of_not_eq_true hout, ?_⟩
    generalize evictLru call (reap call (expiredIds call st) ⟨st, {}, 0⟩).1 = evicted
    split
    · exact ⟨rfl, rfl⟩
    · exact ⟨rfl, rfl⟩

theorem reap_coverage (ids : List String) (pass : Pass) :
    (reap call ids pass).1.st.coverage = pass.st.coverage := by
  induction ids generalizing pass with
  | nil => rfl
  | cons id _ ih =>
    have hone : (reapOne call.nowSecs pass id).st.coverage = pass.st.coverage := by
      unfold reapOne
      split
      · rfl
      · exact logAppend_coverage _ _ _ _ _ _
    rw [reap]
    dsimp only
    split
    · exact hone
    · rw [ih]
      exact hone

/-- The slots of the eviction phase, before any eviction. -/
def freshSlots (call : GcCall) : Slots := call.guards.map fun guard => (guard, none)

theorem foldl_lowerRow_fresh (guards : List CoverageGuard) (coverage : Table (String × String) Nat) :
    (guards.map fun guard => (guard, none)).foldl lowerRow coverage = coverage := by
  induction guards with
  | nil => rfl
  | cons _ _ ih => exact ih

theorem reaped_coverage (st : MemState) :
    (reaped call st).1.st.coverage = st.coverage := reap_coverage call _ _

/-- Rows and coverage of a step: the eviction starts from the reaped rows, and what it takes is
noted before the rows of the ledger are lowered. -/
theorem gcStep_evicted (st : MemState) :
    ∃ pass slots, Evicted (victims call (reaped call st).1.st) (reaped call st).1 (freshSlots call)
        pass slots ∧
      (gcStepWithPins call st).1.events = pass.st.events ∧
      (gcStepWithPins call st).1.coverage = slots.foldl lowerRow st.coverage := by
  have hidle : Evicted (victims call (reaped call st).1.st) (reaped call st).1 (freshSlots call)
      (reaped call st).1 (freshSlots call) := (Evicted.refl _ _).mono nofun
  rcases gcStep_cases call st with ⟨-, hgc⟩ | ⟨-, hevents, hcoverage⟩
  · refine ⟨_, _, hidle, by rw [hgc], ?_⟩
    rw [hgc, reaped_coverage, freshSlots, foldl_lowerRow_fresh]
  · unfold evictLru at hevents hcoverage
    split at hevents
    next hover =>
      rw [if_pos hover] at hcoverage
      have hevicted := evicted_evict call (victims call (reaped call st).1.st) (reaped call st).1
        (freshSlots call)
      refine ⟨_, _, hevicted, hevents, ?_⟩
      rw [hcoverage, ← reaped_coverage call st, ← hevicted.coverage]
      rfl
    next hunder =>
      rw [if_neg hunder] at hcoverage
      refine ⟨_, _, hidle, hevents, ?_⟩
      rw [hcoverage, reaped_coverage, freshSlots, foldl_lowerRow_fresh]

/-- The guards are the coverage rows. -/
structure Guarded (call : GcCall) (st : MemState) : Prop where
  rows : ∀ guard ∈ call.guards, st.coverage.lookup guard.key = some guard.coveredThrough
  all : ∀ key, key ∈ st.coverage → ∃ guard ∈ call.guards, guard.key = key

/-- A bound that is left is below every evicted event its row speaks of. -/
def Honest (call : GcCall) (st : MemState) : Prop :=
  ∀ guard ∈ call.guards, ∀ bound, (gcStepWithPins call st).1.coverage.lookup guard.key = some bound →
    0 < bound → ∀ id row, Evicts call st id row → guard.matchesRow id row = true →
      bound < row.raw.createdAt

def OnlyLowered (call : GcCall) (st : MemState) : Prop :=
  ∀ key bound, (gcStepWithPins call st).1.coverage.lookup key = some bound →
    ∃ old, st.coverage.lookup key = some old ∧ bound ≤ old

def KeepsPins (call : GcCall) (st : MemState) : Prop :=
  ∀ id row bytes, Evicts call st id row → hexToBytes32 id = some bytes → bytes ∉ call.pins

/-- A posting is kept exactly when no row of its document went, and is of a stored row. -/
structure PostingsFollow (st st' : MemState) : Prop where
  kept : ∀ scope term rank doc, Posted (scopeIndex st'.fts scope).postings term rank doc ↔
    Posted (scopeIndex st.fts scope).postings term rank doc ∧
      ∀ key, key ∈ st.events → hexToBytes32 key = some doc.bytes → key ∈ st'.events
  stored : ∀ scope term rank doc, Posted (scopeIndex st'.fts scope).postings term rank doc →
    ∃ key row, st'.events.lookup key = some row ∧ hexToBytes32 key = some doc.bytes ∧
      rank = revCreatedAt row.raw.createdAt

theorem honest_gcStep {call : GcCall} (h : Guarded call st) : Honest call st := by
  intro guard hguard bound hbound hpos id row ⟨hrow, hgone⟩ hmatches
  obtain ⟨pass, slots, hevicted, hevents, hcoverage⟩ := gcStep_evicted call st
  rw [hevents] at hgone
  rw [hcoverage] at hbound
  obtain ⟨⟨old, hold, hle⟩, hslots⟩ := lookup_foldl_lowerRow hbound
  rw [h.rows guard hguard] at hold
  cases hold
  have hmem : guard ∈ slots.map (·.1) := by
    rw [hevicted.guards]
    exact List.mem_map.mpr ⟨(guard, none), List.mem_map.mpr ⟨guard, hguard, rfl⟩, rfl⟩
  obtain ⟨slot, hslot, rfl⟩ := List.mem_map.mp hmem
  rcases hevicted.rows id row hrow with hkept | ⟨-, -, hnoted⟩
  · rw [hgone] at hkept
    cases hkept
  · by_contra hcovered
    have hbelow : row.raw.createdAt ≤ slot.1.coveredThrough := (not_lt.mp hcovered).trans hle
    obtain ⟨oldest, holdest, hoid⟩ := hnoted slot hslot hbelow hmatches
    have hlow := hslots slot hslot rfl oldest holdest
    omega

theorem onlyLowered_gcStep (st : MemState) : OnlyLowered call st := by
  intro key bound hbound
  obtain ⟨pass, slots, -, -, hcoverage⟩ := gcStep_evicted call st
  rw [hcoverage] at hbound
  exact (lookup_foldl_lowerRow hbound).1

/-- Only victims are evicted. -/
theorem mem_victims_of_evicts {call : GcCall} {id : String} (h : Evicts call st id row) :
    id ∈ victims call (reaped call st).1.st := by
  obtain ⟨pass, slots, hevicted, hevents, -⟩ := gcStep_evicted call st
  rcases hevicted.rows id row h.1 with hkept | ⟨-, hmem, -⟩
  · have hgone := h.2
    rw [hevents, hkept] at hgone
    cases hgone
  · exact hmem

theorem exact_gcStep (hroot : Rooted st) (h : Exact st) (call : GcCall) :
    Exact (gcStepWithPins call st).1 :=
  (editsTo_gcStep hroot call).invariant Exact h fun s edit hs hsound hedit => by
    refine exact_perform hs hsound ?_
    cases edit with
    | sight => exact hedit.elim
    | _ => trivial

theorem posted_remove {st st' : MemState} {content : Nat → Content} (h : Filed st content)
    (hevents : st'.events = st.events.erase key) (hfts : st'.fts = st.fts.indexRemove key)
    (scope : Nat) (term : String) (rank : Nat) (doc : SearchDocumentKey) :
    Posted (scopeIndex st'.fts scope).postings term rank doc ↔
      Posted (scopeIndex st.fts scope).postings term rank doc ∧
        hexToBytes32 key ≠ some doc.bytes := by
  rw [((h.remove hevents hfts).represents scope).posted, (h.represents scope).posted]
  unfold unfiled
  by_cases hdoc : hexToBytes32 key = some doc.bytes
  · simp [hdoc]
  · simp [hdoc]

/-- A row and the postings of its document go together. -/
theorem kept_remove {st s s' : MemState} {doc : SearchDocumentKey} {posted : Prop}
    (hwithin : Within st s) (hkey : key ∈ s.events) (hevents : s'.events = s.events.erase key) :
    ((posted ∧ ∀ k, k ∈ st.events → hexToBytes32 k = some doc.bytes → k ∈ s.events) ∧
        hexToBytes32 key ≠ some doc.bytes) ↔
      posted ∧ ∀ k, k ∈ st.events → hexToBytes32 k = some doc.bytes → k ∈ s'.events := by
  rw [hevents]
  constructor
  · rintro ⟨⟨hposted, hall⟩, hother⟩
    refine ⟨hposted, fun k hk hbytes => AList.mem_erase.mpr ⟨?_, hall k hk hbytes⟩⟩
    rintro rfl
    exact hother hbytes
  · rintro ⟨hposted, hall⟩
    refine ⟨⟨hposted, fun k hk hbytes => (AList.mem_erase.mp (hall k hk hbytes)).2⟩, fun hbytes => ?_⟩
    exact (AList.mem_erase.mp (hall key (hwithin key hkey) hbytes)).1 rfl

theorem stores_of_collects {s : MemState} {edit : Edit} (h : Collects s edit) : edit.stores = none := by
  cases edit with
  | insert | replace => exact h.elim
  | _ => rfl

/-- The state during a collection that began in `st`. -/
structure Collecting (st s : MemState) : Prop where
  filed : ∃ content, Filed s content
  within : Within st s
  kept : ∀ scope term rank doc, Posted (scopeIndex s.fts scope).postings term rank doc ↔
    Posted (scopeIndex st.fts scope).postings term rank doc ∧
      ∀ key, key ∈ st.events → hexToBytes32 key = some doc.bytes → key ∈ s.events

theorem Collecting.refl (h : ∃ content, Filed st content) : Collecting st st :=
  ⟨h, fun _ hkey => hkey, fun _ _ _ _ => ⟨fun hposted => ⟨hposted, fun _ hkey _ => hkey⟩, And.left⟩⟩

theorem Collecting.perform {st s : MemState} (h : Collecting st s) {edit : Edit}
    (hsound : Sound s edit) (hedit : Collects s edit) : Collecting st (perform s edit) := by
  obtain ⟨content, hfiled⟩ := h.filed
  refine ⟨⟨_, filed_perform hfiled hsound⟩, within_perform h.within (stores_of_collects hedit), ?_⟩
  intro scope term rank doc
  cases edit with
  | delete idHex carrier target reason time =>
    obtain ⟨hevents, hfts⟩ := delete_fields s idHex carrier target reason time
    rw [posted_remove hfiled hevents hfts, h.kept]
    exact kept_remove h.within hedit.1 hevents
  | evict idHex =>
    have hevents : (StoreEdits.perform s (.evict idHex)).events = s.events.erase idHex := rfl
    rw [posted_remove hfiled hevents rfl, h.kept]
    exact kept_remove h.within hedit hevents
  | bury | cover => exact h.kept scope term rank doc
  | _ => exact hedit.elim

theorem collecting_gcStep (hroot : Rooted st) (h : ∃ content, Filed st content) (call : GcCall) :
    Collecting st (gcStepWithPins call st).1 :=
  (editsTo_gcStep hroot call).invariant (Collecting st) (.refl h)
    fun _ _ hs hsound hedit => hs.perform hsound hedit

theorem postingsFollow_gcStep (h : Reachable st) (call : GcCall) :
    PostingsFollow st (gcStepWithPins call st).1 := by
  have hcollected := collecting_gcStep h.rooted (filed_reachable h) call
  obtain ⟨content, hfiled⟩ := hcollected.filed
  exact ⟨hcollected.kept, fun _ _ _ _ hposted => hfiled.posted hposted⟩

theorem reaped_within (hroot : Rooted st) (call : GcCall) : Within st (reaped call st).1.st :=
  (editsTo_reap call (expiredIds call st) ⟨st, {}, 0⟩ hroot).invariant (Within st)
    (fun _ hkey => hkey) fun _ _ hs _ hedit => within_perform hs (stores_of_collects hedit)

/-- The stored rows of the pinned ids are keyed by their lower-case spelling. -/
def PinnedAsHex (st : MemState) (pins : List EventId) : Prop :=
  ∀ key, key ∈ st.events → ∀ bytes ∈ pins, hexToBytes32 key = some bytes → bytesToHex bytes = key

theorem keepsPins_of_pinnedAsHex (hroot : Rooted st) {call : GcCall} (h : PinnedAsHex st call.pins)
    : KeepsPins call st := by
  intro id row bytes hevicts hbytes hpin
  have hmem := reaped_within hroot call id ((mem_iff_lookup _ _).mpr ⟨row, hevicts.1⟩)
  refine mem_victims (mem_victims_of_evicts hevicts) ?_
  exact List.mem_map.mpr ⟨bytes, hpin, h id hmem bytes hpin hbytes⟩

/-- Every stored row has an access stamp. -/
def Stamped (st : MemState) : Prop := ∀ key, key ∈ st.accessIndex ↔ key ∈ st.events

theorem recordSighting_access (st : MemState) (source : RelayUrl) (kind : Nat) (id : String)
    (t : Nat) : (recordSighting st source kind id t).accessIndex = st.accessIndex := by
  unfold recordSighting relayKindAdd
  split <;> rfl

theorem Stamped.remove {st st' : MemState} (h : Stamped st)
    (hevents : st'.events = st.events.erase key)
    (haccess : st'.accessIndex = st.accessIndex.erase key) : Stamped st' := by
  intro k
  rw [hevents, haccess, AList.mem_erase, AList.mem_erase, h k]

theorem Stamped.insert {st st' : MemState} (h : Stamped st) {stamp : Nat}
    (hevents : st'.events = st.events.insert key row)
    (haccess : st'.accessIndex = st.accessIndex.insert key stamp) : Stamped st' := by
  intro k
  rw [hevents, haccess, AList.mem_insert, AList.mem_insert, h k]

theorem storeSearchableRow_access (st : MemState) (event : RawEvent) (source : RelayUrl) (t : Nat) :
    (storeSearchableRow st event source t).accessIndex =
      st.accessIndex.insert event.id (st.accessSeq + 1) := by
  obtain ⟨fts, hfts⟩ := ftsAddById_frame
    (accessStamp { st with events := st.events.insert event.id ⟨event, t⟩ } event.id) event.id
  rw [storeSearchableRow, recordSighting_access, hfts]
  rfl

theorem stamped_perform (h : Stamped st) {edit : Edit} (hsound : Sound st edit) :
    Stamped (perform st edit) := by
  cases edit with
  | delete idHex carrier target reason time =>
    exact h.remove (delete_fields st idHex carrier target reason time).1
      (logAppend_accessIndex _ _ _ _ _ _)
  | evict => exact h.remove rfl rfl
  | insert a searchable =>
    cases searchable with
    | true =>
      exact h.insert (perform_insert_events st a true)
        ((logAppend_accessIndex _ _ _ _ _ _).trans (storeSearchableRow_access _ _ _ _))
    | false =>
      exact h.insert (perform_insert_events st a false)
        ((logAppend_accessIndex _ _ _ _ _ _).trans (recordSighting_access _ _ _ _ _))
  | replace old oldId a =>
    have hremoved : Stamped (removeRow st old) := h.remove rfl rfl
    exact hremoved.insert (replaced_fields st old oldId a).1
      ((logAppend_accessIndex _ _ _ _ _ _).trans (storeSearchableRow_access _ _ _ _))
  | sight =>
    intro key
    rw [perform, recordSighting_access, (recordSighting_rows _ _ _ _ _).1]
    exact h key
  | touch idHex =>
    intro key
    show key ∈ st.accessIndex.insert idHex (st.accessSeq + 1) ↔ key ∈ st.events
    rw [AList.mem_insert, h key]
    exact or_iff_right_of_imp fun heq => heq ▸ hsound
  | bury | cover | retain | install => exact h

theorem stamped_reachable (h : Reachable st) : Stamped st :=
  (h.invariant Stamped (fun _ => Iff.rfl) fun _ _ _ hs hsound => stamped_perform hs hsound).2

/-- A step that evicts all it may: no event is expired and time does not run out. -/
def greedy (st : MemState) (pins : List EventId) : GcCall where
  budget := ⟨st.events.keys.length, 1, 0⟩
  nowSecs := 0
  pins := pins
  guards := st.coverage.entries.map fun e => ⟨e.1.1, e.1.2, e.2, fun _ _ _ _ _ => false⟩
  clock := fun _ => 0
  expiredOrder := .asStored
  accessOrder := .asStored

theorem guarded_greedy (st : MemState) (pins : List EventId) : Guarded (greedy st pins) st where
  rows guard hguard := by
    obtain ⟨e, he, rfl⟩ := List.mem_map.mp hguard
    exact AList.mem_lookup_iff.mpr he
  all key hkey := by
    obtain ⟨bound, hbound⟩ := (mem_iff_lookup _ _).mp hkey
    exact ⟨_, List.mem_map.mpr ⟨⟨key, bound⟩, AList.mem_lookup_iff.mp hbound, rfl⟩, rfl⟩

/-- No stored row is expired at the start of time. -/
theorem reaped_greedy (hroot : Rooted st) (pins : List EventId) :
    reaped (greedy st pins) st = (⟨st, {}, 0⟩, false) := by
  have hnone : expiredIds (greedy st pins) st = [] := by
    rw [expiredIds, List.take_eq_nil_iff]
    refine .inr (List.eq_nil_iff_forall_not_mem.mpr fun id hid => ?_)
    obtain ⟨row, hrow, hexpired⟩ := mem_keysWhere.mp hid
    obtain ⟨-, -, -, hfresh⟩ := hroot id row hrow
    obtain ⟨exp, hexp, hle⟩ := (Option.any_eq_true _ _).mp hexpired
    have hexpires : row.raw.expiredAt row.receivedAtMs = true := by
      rw [RawEvent.expiredAt, hexp]
      exact decide_eq_true ((of_decide_eq_true hle).trans (Nat.zero_le _))
    cases hexpires.symm.trans hfresh
  rw [reaped, hnone]
  rfl

theorem mem_victims_greedy (hstamped : Stamped st) {pins : List EventId} (hkey : key ∈ st.events)
    (hpins : key ∉ pins.map bytesToHex) : key ∈ victims (greedy st pins) st := by
  have hperm : st.accessIndex.keys.Perm st.events.keys :=
    (List.perm_ext_iff_of_nodup st.accessIndex.keys_nodup st.events.keys_nodup).mpr hstamped
  have hlen : (candidates (greedy st pins) st).length ≤ st.events.keys.length := by
    rw [← hperm.length_eq, candidates, List.length_map, (List.mergeSort_perm _ _).length_eq,
      List.length_map]
    exact List.length_filter_le _ _
  rw [victims, List.take_of_length_le]
  · rw [candidates, List.mem_map]
    refine ⟨((st.accessIndex.lookup key).getD 0, key), ?_, rfl⟩
    rw [List.mem_mergeSort]
    refine List.mem_map.mpr ⟨key, List.mem_filter.mpr ⟨?_, decide_eq_true hpins⟩, rfl⟩
    exact (hstamped key).mpr hkey
  · show (candidates (greedy st pins) st).length ≤
      min (st.events.keys.length - 0) st.events.keys.length
    rw [Nat.sub_zero, Nat.min_self]
    exact hlen

theorem evictLru_all {call : GcCall} (hearly : ∀ pass, call.late pass = false) {pass : Pass}
    {id : String} (hover : call.budget.maxTotalEvents < pass.st.events.keys.length)
    (h : id ∈ victims call pass.st) : (evictLru call pass).1.st.events.lookup id = none := by
  have hgone := @evict_all call hearly (victims call pass.st) pass
    (call.guards.map fun guard => (guard, none)) id h
  rw [evictLru, if_pos hover]
  exact hgone

/-- The greedy step evicts every row that is not under the lower-case spelling of a pin. -/
theorem evicts_greedy (h : Reachable st) {pins : List EventId}
    (hrow : st.events.lookup key = some row) (hpins : key ∉ pins.map bytesToHex) :
    Evicts (greedy st pins) st key row := by
  have hkey : key ∈ st.events := (mem_iff_lookup _ _).mpr ⟨row, hrow⟩
  have hreaped := reaped_greedy h.rooted pins
  refine ⟨by rw [hreaped]; exact hrow, ?_⟩
  rcases gcStep_cases (greedy st pins) st with ⟨hout, -⟩ | ⟨-, hevents, -⟩
  · rw [hreaped] at hout
    cases hout
  · have hover : 0 < st.events.keys.length := List.length_pos_of_mem hkey
    rw [hreaped] at hevents
    have hvictim := mem_victims_greedy (stamped_reachable h) hkey hpins
    rw [hevents]
    exact @evictLru_all (greedy st pins) (fun _ => rfl) ⟨st, {}, 0⟩ key hover hvictim

/-- What a step keeps of the ledger and of the agreement between the structures. -/
structure Agreeing (call : GcCall) (st : MemState) : Prop where
  honest : Honest call st
  lowered : OnlyLowered call st
  exact : Exact st → Exact (gcStepWithPins call st).1
  postings : PostingsFollow st (gcStepWithPins call st).1

theorem agreeing_gcStep (h : Reachable st) {call : GcCall} (hguarded : Guarded call st) :
    Agreeing call st where
  honest := honest_gcStep hguarded
  lowered := onlyLowered_gcStep call st
  exact hexact := exact_gcStep h.rooted hexact call
  postings := postingsFollow_gcStep h call

/-- Whatever the budget, the clock and the iteration order, a step keeps the ledger honest and the
structures in agreement. With given pins it also keeps every pinned event, exactly where the rows
of the pinned ids are keyed by the lower-case spelling. -/
theorem gcStep_reliable_iff {st : MemState} (h : Reachable st) :
    (∀ call, Guarded call st → Agreeing call st) ∧
      ∀ pins, (∀ call, call.pins = pins → Guarded call st → Agreeing call st ∧ KeepsPins call st) ↔
        PinnedAsHex st pins := by
  refine ⟨fun call hguarded => agreeing_gcStep h hguarded, fun pins => ⟨?_, ?_⟩⟩
  · intro hall key hkey bytes hpin hbytes
    by_contra hne
    obtain ⟨row, hrow⟩ := (mem_iff_lookup _ _).mp hkey
    have hpins : key ∉ pins.map bytesToHex := fun hmem => by
      obtain ⟨other, -, rfl⟩ := List.mem_map.mp hmem
      rw [decode_bytesToHex hbytes] at hne
      exact hne rfl
    have hevicts := evicts_greedy h hrow hpins
    exact (hall (greedy st pins) rfl (guarded_greedy st pins)).2 key row bytes hevicts hbytes hpin
  · rintro hpinned call rfl hguarded
    exact ⟨agreeing_gcStep h hguarded, keepsPins_of_pinnedAsHex h.rooted hpinned⟩

/-- The note with the id of one hex digit, and a synced range that covers it. -/
def coveredNote (digit : Char) : List Action :=
  [.insert (arrivalOf digit 'b' 10 1 []), .recordCoverage "deadbeefdeadbeef" "wss://relay.example" 20]

def pinnedId : EventId := List.replicate 32 0xaa

theorem pinnedAsHex_of_lower (pins : List EventId)
    (h : ∀ key ∈ st.events.keys, (hexToBytes32 key).map bytesToHex = some key) :
    PinnedAsHex st pins := by
  intro key hkey bytes _ hbytes
  have hlower := h key hkey
  rw [hbytes, Option.map_some] at hlower
  exact Option.some.inj hlower

theorem run_coveredNote {digit : Char} (hdigit : (hexNibble digit).isSome = true) :
    run act .new (coveredNote digit) = act (accept .new (arrivalOf digit 'b' 10 1 []))
      (.recordCoverage "deadbeefdeadbeef" "wss://relay.example" 20) := by
  rw [coveredNote, run_cons, run_cons, run_nil,
    act_admitted (admitted_arrivalOf hdigit (by decide) ⟨rfl, rfl⟩)]

theorem gcStep_reliable_lower : digitKey 'a' ∈ (run act .new (coveredNote 'a')).events ∧
    ∀ call, call.pins = [pinnedId] → Guarded call (run act .new (coveredNote 'a')) →
      Agreeing call (run act .new (coveredNote 'a')) ∧
        KeepsPins call (run act .new (coveredNote 'a')) := by
  have hfacts : digitKey 'a' ∈ (run act .new (coveredNote 'a')).events ∧
      ∀ key ∈ (run act .new (coveredNote 'a')).events.keys,
        (hexToBytes32 key).map bytesToHex = some key := by
    rw [run_coveredNote (by decide)]
    decide +kernel
  exact ⟨hfacts.1, ((gcStep_reliable_iff ⟨coveredNote 'a', rfl⟩).2 [pinnedId]).mpr
    (pinnedAsHex_of_lower [pinnedId] hfacts.2)⟩

/-- The row of a pinned event under the upper-case spelling of its id is evicted. -/
theorem respelled_pin_evicted :
    Guarded (greedy (run act .new (coveredNote 'A')) [pinnedId]) (run act .new (coveredNote 'A')) ∧
      ¬ KeepsPins (greedy (run act .new (coveredNote 'A')) [pinnedId])
        (run act .new (coveredNote 'A')) := by
  refine ⟨guarded_greedy _ _, fun h => ?_⟩
  have hstored : digitKey 'A' ∈ (run act .new (coveredNote 'A')).events := by
    rw [run_coveredNote (by decide)]
    decide +kernel
  obtain ⟨row, hrow⟩ := (mem_iff_lookup _ _).mp hstored
  have hspelled : digitKey 'A' ∉ [pinnedId].map bytesToHex ∧
      hexToBytes32 (digitKey 'A') = some pinnedId := by decide +kernel
  have hevicts : Evicts (greedy (run act .new (coveredNote 'A')) [pinnedId])
      (run act .new (coveredNote 'A')) (digitKey 'A') row :=
    evicts_greedy ⟨coveredNote 'A', rfl⟩ hrow hspelled.1
  exact h (digitKey 'A') row pinnedId hevicts hspelled.2 (List.mem_singleton_self _)

end StoreCoverage
