import NostrMultiPlatform.StoreActions
import NostrMultiPlatform.StoreConvergence

/-!
# Secondary indexes

Provenance, the access index and the two relay indexes as projections of the
stored rows. Every edit keeps them exact but one: the re-delivery of a row whose
provenance is full, which overwrites an old source that the relay indexes keep.
-/
namespace StoreIndexes

open StoreEvent StoreState StoreInsert StoreGc StoreStep StoreEdits StoreActions StoreConvergence
open AList
open Tables Runs

def relaysOf (entries : List ProvenanceEntry) : List RelayUrl := entries.map (·.relayUrl)

theorem relaysOf_sortProvenance (entries : List ProvenanceEntry) :
    (relaysOf (sortProvenance entries)).Perm (relaysOf entries) := by
  have hmark : relaysOf (sortProvenance entries) =
      relaysOf (entries.insertionSort provenanceLe) := by
    unfold relaysOf sortProvenance
    apply List.ext_getElem
    · simp
    · intro i hi hi'
      simp
  rw [hmark]
  exact (List.perm_insertionSort _ _).map _

/-- A fold that keeps what it has or takes the next element ends with one of them. -/
theorem foldl_pick {α : Type} {f : Option α → α → Option α}
    (hf : ∀ best x, f best x = some x ∨ (f best x = best ∧ best.isSome)) {xs : List α}
    {best : Option α} (h : xs ≠ [] ∨ best.isSome) :
    ∃ e, xs.foldl f best = some e ∧ (e ∈ xs ∨ best = some e) := by
  induction xs generalizing best with
  | nil =>
    obtain ⟨e, he⟩ := Option.isSome_iff_exists.mp (h.resolve_left fun hne => hne rfl)
    exact ⟨e, he, .inr he⟩
  | cons x _ ih =>
    rw [List.foldl_cons]
    rcases hf best x with htake | ⟨hkeep, hsome⟩
    · obtain ⟨e, he, hmem⟩ := ih (.inr (Option.isSome_some (a := x)))
      refine ⟨e, by rw [htake, he], .inl ?_⟩
      rcases hmem with hmem | hmem
      · exact List.mem_cons_of_mem x hmem
      · cases hmem
        exact List.mem_cons_self
    · obtain ⟨e, he, hmem⟩ := ih (.inr hsome)
      exact ⟨e, by rw [hkeep, he], hmem.imp_left (List.mem_cons_of_mem x)⟩

/-- The entry seen longest ago, the earlier one among equals. -/
def olderEntry (best : Option (ProvenanceEntry × Nat)) (e : ProvenanceEntry × Nat) :
    Option (ProvenanceEntry × Nat) :=
  match best with
  | none => some e
  | some b => if e.1.lastSeenMs < b.1.lastSeenMs then some e else some b

theorem olderEntry_picks (best : Option (ProvenanceEntry × Nat)) (e : ProvenanceEntry × Nat) :
    olderEntry best e = some e ∨ (olderEntry best e = best ∧ best.isSome) := by
  cases best with
  | none => exact .inl rfl
  | some b =>
    by_cases hlt : e.1.lastSeenMs < b.1.lastSeenMs
    · exact .inl (if_pos hlt)
    · exact .inr ⟨if_neg hlt, rfl⟩

theorem oldestIdx_eq (entries : List ProvenanceEntry) :
    oldestIdx entries = (entries.zipIdx.tail.foldl olderEntry none).map Prod.snd := rfl

variable {entries : List ProvenanceEntry} {relay : RelayUrl} {st : MemState} {a : Arrival}
  {edit : Edit} {content : String → RawEvent} {action : Action} {n : Nat}

/-- The oldest entry behind the first exists where there is one behind the first. -/
theorem oldestIdx_spec (h : 2 ≤ entries.length) :
    ∃ i, i < entries.length ∧ oldestIdx entries = some i := by
  have htail : entries.zipIdx.tail ≠ [] := by
    intro hnil
    have hlen := congrArg List.length hnil
    rw [List.length_tail, List.length_zipIdx, List.length_nil] at hlen
    omega
  obtain ⟨e, he, hmem⟩ := foldl_pick olderEntry_picks (.inl htail)
  refine ⟨e.2, ?_, by rw [oldestIdx_eq, he, Option.map_some]⟩
  rcases hmem with hmem | hmem
  · have := List.snd_lt_of_mem_zipIdx (List.mem_of_mem_tail hmem)
    simpa using this
  · cases hmem

/-- A relay that is listed already is updated in place. -/
theorem relaysOf_upsert_known (h : relay ∈ relaysOf entries) (t : Nat) :
    (relaysOf (upsertProvenance entries relay t)).Perm (relaysOf entries) := by
  obtain ⟨e, he, rfl⟩ := List.mem_map.mp h
  have hsome : (entries.findIdx? fun x => x.relayUrl == e.relayUrl).isSome := by
    rw [List.findIdx?_isSome, List.any_eq_true]
    exact ⟨e, he, beq_self_eq_true _⟩
  obtain ⟨i, hi⟩ := Option.isSome_iff_exists.mp hsome
  rw [upsertProvenance, hi]
  refine (relaysOf_sortProvenance _).trans ?_
  apply List.Perm.of_eq
  unfold relaysOf
  apply List.ext_getElem
  · simp
  · intro j hj hj'
    simp only [List.getElem_map, List.getElem_modify]
    split <;> rfl

theorem findIdx?_eq_none_of_fresh (h : relay ∉ relaysOf entries) :
    (entries.findIdx? fun x => x.relayUrl == relay) = none := by
  rw [List.findIdx?_eq_none_iff]
  intro x hx
  rw [beq_eq_false_iff_ne]
  rintro rfl
  exact h (List.mem_map_of_mem hx)

/-- A new relay is added while there is room. -/
theorem relaysOf_upsert_room (h : relay ∉ relaysOf entries)
    (hroom : entries.length < maxProvenanceEntries) (t : Nat) :
    (relaysOf (upsertProvenance entries relay t)).Perm (relay :: relaysOf entries) := by
  rw [upsertProvenance, findIdx?_eq_none_of_fresh h]
  dsimp only
  rw [if_neg (by omega)]
  refine (relaysOf_sortProvenance _).trans ?_
  simp only [relaysOf, List.map_append, List.map_cons, List.map_nil]
  exact List.perm_append_singleton _ _

/-- At capacity a new relay takes the place of another one. -/
theorem relaysOf_upsert_full (h : relay ∉ relaysOf entries)
    (hfull : maxProvenanceEntries ≤ entries.length) (t : Nat) :
    ∃ i, i < entries.length ∧ (relaysOf (upsertProvenance entries relay t)).Perm
      ((relaysOf entries).set i relay) := by
  have htwo : 2 ≤ entries.length := Nat.le_trans (by decide) hfull
  obtain ⟨i, hi, holdest⟩ := oldestIdx_spec htwo
  refine ⟨i, hi, ?_⟩
  rw [upsertProvenance, findIdx?_eq_none_of_fresh h]
  dsimp only
  rw [if_pos hfull, holdest]
  refine (relaysOf_sortProvenance _).trans (.of_eq ?_)
  simp only [relaysOf, List.map_set]

/-- The relays of a row stay distinct. -/
theorem nodup_upsert (h : (relaysOf entries).Nodup) (relay : RelayUrl) (t : Nat) :
    (relaysOf (upsertProvenance entries relay t)).Nodup := by
  by_cases hknown : relay ∈ relaysOf entries
  · exact (relaysOf_upsert_known hknown t).nodup_iff.mpr h
  · by_cases hroom : entries.length < maxProvenanceEntries
    · exact (relaysOf_upsert_room hknown hroom t).nodup_iff.mpr (List.nodup_cons.mpr ⟨hknown, h⟩)
    · obtain ⟨i, -, hperm⟩ := relaysOf_upsert_full hknown (by omega) t
      exact hperm.nodup_iff.mpr (h.set hknown)

/-- The relay that is overwritten is no longer listed. -/
theorem lost_upsert_full (hnodup : (relaysOf entries).Nodup) (h : relay ∉ relaysOf entries)
    (hfull : maxProvenanceEntries ≤ entries.length) (t : Nat) :
    ∃ old ∈ relaysOf entries, old ∉ relaysOf (upsertProvenance entries relay t) := by
  obtain ⟨i, hi, hperm⟩ := relaysOf_upsert_full h hfull t
  have hi' : i < (relaysOf entries).length := by simpa [relaysOf] using hi
  refine ⟨(relaysOf entries)[i], List.getElem_mem hi', fun hmem => ?_⟩
  obtain ⟨j, hj, heq⟩ := List.mem_iff_getElem.mp (hperm.mem_iff.mp hmem)
  rw [List.getElem_set] at heq
  split at heq
  · exact h (heq ▸ List.getElem_mem hi')
  next hne => exact hne ((hnodup.getElem_inj_iff).mp heq.symm)

def seenIds (st : MemState) (relay : RelayUrl) : Finset String := (st.relayIndex.lookup relay).getD ∅

def seenKind (st : MemState) (relay : RelayUrl) (kind : Nat) : Finset String :=
  (((st.relayKind.lookup relay).getD ∅).lookup kind).getD ∅

/-- The relays that a row was seen on. -/
def sourceRelays (st : MemState) (id : String) : List RelayUrl := relaysOf (sourcesOf st id)

/-- The indexes are projections of the stored rows and their provenance. -/
structure Exact (st : MemState) : Prop where
  provenance_keys : ∀ id, id ∈ st.provenance ↔ id ∈ st.events
  access_keys : ∀ id, id ∈ st.accessIndex ↔ id ∈ st.events
  relay_index : ∀ relay id, id ∈ seenIds st relay ↔ relay ∈ sourceRelays st id
  relay_kind : ∀ relay kind id, id ∈ seenKind st relay kind ↔
    relay ∈ sourceRelays st id ∧ isRelayProvenancePrivate kind = false ∧
      ∃ row, st.events.lookup id = some row ∧ row.raw.kind = kind

theorem exact_new : Exact .new where
  provenance_keys _ := Iff.rfl
  access_keys _ := Iff.rfl
  relay_index relay id := by simp [seenIds, sourceRelays, relaysOf, sourcesOf, MemState.new]
  relay_kind relay kind id := by simp [seenKind, sourceRelays, relaysOf, sourcesOf, MemState.new]

variable {id : String} {source : RelayUrl}

theorem Exact.no_source (h : Exact st) (hid : id ∉ st.events) : sourcesOf st id = [] := by
  rw [sourcesOf, (lookup_none_iff _ _).mpr fun hmem => hid ((h.provenance_keys id).mp hmem)]
  rfl

theorem getD_pruneId (id : String) (ids : Option (Finset String)) :
    (ids.bind (pruneId id)).getD ∅ = (ids.getD ∅).erase id := by
  cases ids with
  | none => rfl
  | some =>
    rw [Option.bind_some, Option.getD_some, pruneId]
    split
    next hempty => rw [hempty, Option.getD_none]
    next => rfl

theorem seenIds_removeRow (st : MemState) (id : String) (relay : RelayUrl) :
    seenIds (removeRow st id) relay = (seenIds st relay).erase id := by
  have hindex : (removeRow st id).relayIndex = filterMapValues (pruneId id) st.relayIndex := rfl
  rw [seenIds, hindex, lookup_filterMapValues, getD_pruneId, seenIds]

theorem lookup_pruneKinds (id : String) (kinds : Option (Table Nat (Finset String))) (kind : Nat) :
    ((kinds.bind (pruneKinds id)).getD ∅).lookup kind =
      ((kinds.getD ∅).lookup kind).bind (pruneId id) := by
  cases kinds with
  | none => rfl
  | some =>
    rw [Option.bind_some, Option.getD_some, pruneKinds]
    split
    next hempty =>
      rw [Option.getD_none, ← lookup_filterMapValues, lookup_empty, eq_comm, lookup_none_iff]
      intro hmem
      obtain ⟨ids, hids⟩ := (mem_iff_lookup _ _).mp hmem
      have hentry := mem_lookup_iff.mp hids
      rw [List.isEmpty_iff.mp hempty] at hentry
      cases hentry
    next => rw [Option.getD_some, lookup_filterMapValues]

theorem seenKind_removeRow (st : MemState) (id : String) (relay : RelayUrl) (kind : Nat) :
    seenKind (removeRow st id) relay kind = (seenKind st relay kind).erase id := by
  have hindex : (removeRow st id).relayKind = filterMapValues (pruneKinds id) st.relayKind := rfl
  rw [seenKind, hindex, lookup_filterMapValues, lookup_pruneKinds, getD_pruneId, seenKind]

theorem sourcesOf_removeRow (st : MemState) (id id' : String) :
    sourcesOf (removeRow st id) id' = if id' = id then [] else sourcesOf st id' := by
  have hprovenance : (removeRow st id).provenance = st.provenance.erase id := rfl
  rw [sourcesOf, hprovenance, lookup_erase_eq]
  split <;> rfl

theorem exact_removeRow (h : Exact st) (id : String) : Exact (removeRow st id) where
  provenance_keys id' := by
    have hprovenance : (removeRow st id).provenance = st.provenance.erase id := rfl
    rw [hprovenance, removeRow_events, mem_erase, mem_erase, h.provenance_keys]
  access_keys id' := by
    have haccess : (removeRow st id).accessIndex = st.accessIndex.erase id := rfl
    rw [haccess, removeRow_events, mem_erase, mem_erase, h.access_keys]
  relay_index relay id' := by
    rw [seenIds_removeRow, Finset.mem_erase, h.relay_index, sourceRelays, sourceRelays,
      sourcesOf_removeRow]
    by_cases hid : id' = id
    · simp [hid, relaysOf]
    · simp [hid]
  relay_kind relay kind id' := by
    rw [seenKind_removeRow, Finset.mem_erase, h.relay_kind, sourceRelays, sourceRelays,
      sourcesOf_removeRow, removeRow_events, lookup_erase_eq]
    by_cases hid : id' = id
    · simp [hid, relaysOf]
    · simp [hid]

theorem sourcesOf_recordSighting (st : MemState) (source : RelayUrl) (kind : Nat) (id : String)
    (t : Nat) (id' : String) : sourcesOf (recordSighting st source kind id t) id' =
      if id' = id then upsertProvenance (sourcesOf st id) source t else sourcesOf st id' := by
  have hprovenance : (recordSighting st source kind id t).provenance =
      st.provenance.insert id (upsertProvenance (sourcesOf st id) source t) := by
    unfold recordSighting relayKindAdd
    split <;> rfl
  rw [sourcesOf, hprovenance, lookup_insert_eq]
  split <;> rfl

theorem mem_provenance_recordSighting (st : MemState) (source : RelayUrl) (kind : Nat)
    (id : String) (t : Nat) (id' : String) :
    id' ∈ (recordSighting st source kind id t).provenance ↔ id' = id ∨ id' ∈ st.provenance := by
  have hprovenance : (recordSighting st source kind id t).provenance =
      st.provenance.insert id (upsertProvenance (sourcesOf st id) source t) := by
    unfold recordSighting relayKindAdd
    split <;> rfl
  rw [hprovenance, mem_insert]

theorem mem_seenIds_recordSighting (st : MemState) (source : RelayUrl) (kind : Nat) (id : String)
    (t : Nat) (relay : RelayUrl) (id' : String) :
    id' ∈ seenIds (recordSighting st source kind id t) relay ↔
      id' ∈ seenIds st relay ∨ (relay = source ∧ id' = id) := by
  have hindex : (recordSighting st source kind id t).relayIndex =
      st.relayIndex.insert source (insert id ((st.relayIndex.lookup source).getD ∅)) := by
    unfold recordSighting relayKindAdd
    split <;> rfl
  rw [seenIds, hindex, lookup_insert_eq]
  by_cases hrelay : relay = source
  · subst hrelay
    simp [seenIds, or_comm]
  · simp [seenIds, hrelay]

theorem mem_seenKind_recordSighting (st : MemState) (source : RelayUrl) (kind : Nat) (id : String)
    (t : Nat) (relay : RelayUrl) (k : Nat) (id' : String) :
    id' ∈ seenKind (recordSighting st source kind id t) relay k ↔ id' ∈ seenKind st relay k ∨
      (relay = source ∧ k = kind ∧ id' = id ∧ isRelayProvenancePrivate kind = false) := by
  unfold recordSighting relayKindAdd
  split
  next hprivate => simp [seenKind, relayIndexAdd, recordSource, hprivate]
  next hpublic =>
    simp only [seenKind, relayIndexAdd, recordSource, lookup_insert_eq]
    by_cases hrelay : relay = source
    · subst hrelay
      by_cases hkind : k = kind
      · subst hkind
        simp [hpublic, or_comm]
      · simp [hkind]
    · simp [hrelay]

/-- The provenance of a row has no room for this relay. -/
def Crowded (st : MemState) (id : String) (source : RelayUrl) : Prop :=
  maxProvenanceEntries ≤ (sourcesOf st id).length ∧ source ∉ sourceRelays st id

instance (st : MemState) (id : String) (source : RelayUrl) : Decidable (Crowded st id source) :=
  inferInstanceAs (Decidable (_ ∧ _))

theorem mem_sourceRelays_recordSighting (hroom : ¬ Crowded st id source) (kind t : Nat)
    (relay : RelayUrl) (id' : String) :
    relay ∈ sourceRelays (recordSighting st source kind id t) id' ↔
      relay ∈ sourceRelays st id' ∨ (relay = source ∧ id' = id) := by
  rw [sourceRelays, sourcesOf_recordSighting]
  by_cases hid : id' = id
  · subst hid
    rw [if_pos rfl]
    by_cases hknown : source ∈ sourceRelays st id'
    · rw [(relaysOf_upsert_known hknown t).mem_iff]
      constructor
      · exact .inl
      · rintro (h | ⟨rfl, -⟩)
        · exact h
        · exact hknown
    · have hlen : (sourcesOf st id').length < maxProvenanceEntries := by
        by_contra hfull
        exact hroom ⟨by omega, hknown⟩
      rw [(relaysOf_upsert_room hknown hlen t).mem_iff, List.mem_cons, or_comm, sourceRelays]
      simp
  · simp [hid, sourceRelays]

/-- A sighting with room for its relay completes the indexes of a row. -/
theorem exact_recordSighting {kind : Nat}
    (hprovenance : ∀ id', (id' = id ∨ id' ∈ st.provenance) ↔ id' ∈ st.events)
    (haccess : ∀ id', id' ∈ st.accessIndex ↔ id' ∈ st.events)
    (hrelay : ∀ relay id', id' ∈ seenIds st relay ↔ relay ∈ sourceRelays st id')
    (hkind : ∀ relay k id', id' ∈ seenKind st relay k ↔ relay ∈ sourceRelays st id' ∧ isRelayProvenancePrivate k = false ∧ ∃ row, st.events.lookup id' = some row ∧ row.raw.kind = k)
    (hrow : ∃ row, st.events.lookup id = some row ∧ row.raw.kind = kind)
    (hroom : ¬ Crowded st id source) (t : Nat) : Exact (recordSighting st source kind id t) := by
  have hevents : (recordSighting st source kind id t).events = st.events :=
    (recordSighting_rows _ _ _ _ _).1
  have haccessIndex : (recordSighting st source kind id t).accessIndex = st.accessIndex := by
    unfold recordSighting relayKindAdd
    split <;> rfl
  refine ⟨fun id' => ?_, fun id' => ?_, fun relay id' => ?_, fun relay k id' => ?_⟩
  · rw [mem_provenance_recordSighting, hprovenance, hevents]
  · rw [haccessIndex, haccess, hevents]
  · rw [mem_seenIds_recordSighting, hrelay, mem_sourceRelays_recordSighting hroom]
  · rw [mem_seenKind_recordSighting, hkind, mem_sourceRelays_recordSighting hroom, hevents]
    obtain ⟨row, hrow, hrowKind⟩ := hrow
    constructor
    · rintro (⟨hmem, hpublic, hstored⟩ | ⟨rfl, rfl, rfl, hpublic⟩)
      · exact ⟨.inl hmem, hpublic, hstored⟩
      · exact ⟨.inr ⟨rfl, rfl⟩, hpublic, row, hrow, hrowKind⟩
    · rintro ⟨hmem | ⟨rfl, rfl⟩, hpublic, stored, hstored, rfl⟩
      · exact .inl ⟨hmem, hpublic, stored, hstored, rfl⟩
      · obtain rfl := Option.eq_some_unique hstored hrow
        exact .inr ⟨rfl, hrowKind, rfl, hrowKind ▸ hpublic⟩

/-- A sighting without room leaves the relay indexes an entry that provenance lost. -/
theorem not_exact_of_crowded (h : Exact st) (hnodup : (sourceRelays st id).Nodup)
    (hcrowded : Crowded st id source) (kind t : Nat) :
    ¬ Exact (recordSighting st source kind id t) := by
  intro hexact
  obtain ⟨old, hold, hlost⟩ := lost_upsert_full hnodup hcrowded.2 hcrowded.1 t
  have hseen : id ∈ seenIds (recordSighting st source kind id t) old :=
    (mem_seenIds_recordSighting _ _ _ _ _ _ _).mpr (.inl ((h.relay_index old id).mpr hold))
  have hsource := (hexact.relay_index old id).mp hseen
  rw [sourceRelays, sourcesOf_recordSighting, if_pos rfl] at hsource
  exact hlost hsource

/-- The fields that the indexes are made of are the same. -/
structure SameIndexes (a b : MemState) : Prop where
  events : a.events = b.events
  provenance : a.provenance = b.provenance
  access : a.accessIndex = b.accessIndex
  relay : a.relayIndex = b.relayIndex
  kind : a.relayKind = b.relayKind

theorem sameIndexes_logAppend (st : MemState) (op : LogOp) (id : EventId) (raw : Option RawEvent)
    (source : Option RelayUrl) (t : Nat) : SameIndexes (logAppend st op id raw source t) st :=
  ⟨logAppend_events _ _ _ _ _ _, logAppend_provenance _ _ _ _ _ _,
    logAppend_accessIndex _ _ _ _ _ _, logAppend_relayIndex _ _ _ _ _ _,
    logAppend_relayKind _ _ _ _ _ _⟩

theorem SameIndexes.sourcesOf {a b : MemState} (h : SameIndexes a b) (id : String) :
    sourcesOf a id = sourcesOf b id := by
  rw [StoreState.sourcesOf, h.provenance, StoreState.sourcesOf]

theorem Exact.congr {a b : MemState} (hb : Exact b) (h : SameIndexes a b) : Exact a where
  provenance_keys id := by rw [h.provenance, h.events, hb.provenance_keys]
  access_keys id := by rw [h.access, h.events, hb.access_keys]
  relay_index relay id := by
    rw [seenIds, h.relay, sourceRelays, h.sourcesOf]
    exact hb.relay_index relay id
  relay_kind relay kind id := by
    rw [seenKind, h.kind, sourceRelays, h.sourcesOf, h.events]
    exact hb.relay_kind relay kind id

theorem ftsAddById_frame (st : MemState) (id : String) :
    ∃ fts, ftsAddById st id = { st with fts := fts } := by
  unfold ftsAddById
  split
  · exact ⟨_, rfl⟩
  · exact ⟨_, rfl⟩

/-- A new row, with whatever search index, has its first sighting. -/
theorem exact_storeRow (h : Exact st) (hnew : a.event.id ∉ st.events) (fts : FtsState) :
    Exact (recordSighting
      { accessStamp { st with events := st.events.insert a.event.id ⟨a.event, a.receivedAtMs⟩ }
          a.event.id with fts := fts }
      a.source a.event.kind a.event.id a.receivedAtMs) := by
  have hnone := h.no_source hnew
  apply exact_recordSighting
  · intro id'
    show id' = a.event.id ∨ id' ∈ st.provenance ↔
      id' ∈ st.events.insert a.event.id ⟨a.event, a.receivedAtMs⟩
    rw [mem_insert, h.provenance_keys]
  · intro id'
    show id' ∈ st.accessIndex.insert a.event.id (st.accessSeq + 1) ↔
      id' ∈ st.events.insert a.event.id ⟨a.event, a.receivedAtMs⟩
    rw [mem_insert, mem_insert, h.access_keys]
  · exact h.relay_index
  · intro relay k id'
    refine (h.relay_kind relay k id').trans ?_
    show _ ↔ relay ∈ sourceRelays st id' ∧ _ ∧
      ∃ row, (st.events.insert a.event.id ⟨a.event, a.receivedAtMs⟩).lookup id' = some row ∧ _
    rw [lookup_insert_eq]
    by_cases hid : id' = a.event.id
    · simp [hid, sourceRelays, hnone, relaysOf]
    · simp [hid]
  · exact ⟨⟨a.event, a.receivedAtMs⟩, lookup_insert _, rfl⟩
  · intro hcrowded
    have hlen : maxProvenanceEntries ≤ (sourcesOf st a.event.id).length := hcrowded.1
    rw [hnone] at hlen
    exact absurd hlen (by decide)

theorem exact_storeSearchableRow (h : Exact st) (hnew : a.event.id ∉ st.events) :
    Exact (storeSearchableRow st a.event a.source a.receivedAtMs) := by
  obtain ⟨fts, hfts⟩ := ftsAddById_frame
    (accessStamp { st with events := st.events.insert a.event.id ⟨a.event, a.receivedAtMs⟩ }
      a.event.id) a.event.id
  rw [storeSearchableRow, hfts]
  exact exact_storeRow h hnew fts

/-- The edit is no sighting of a crowded row, and a sighting is of the row's kind. -/
def KeepsExact (st : MemState) : Edit → Prop
  | .sight a => ¬ Crowded st a.event.id a.source ∧
      ∃ row, st.events.lookup a.event.id = some row ∧ row.raw.kind = a.event.kind
  | _ => True

theorem exact_perform (h : Exact st) (hsound : Sound st edit) (hkeep : KeepsExact st edit) :
    Exact (perform st edit) := by
  cases edit with
  | delete idHex =>
    exact (exact_removeRow h idHex).congr (sameIndexes_logAppend _ _ _ _ _ _)
  | evict idHex => exact exact_removeRow h idHex
  | insert a searchable =>
    cases searchable with
    | true =>
      exact (exact_storeSearchableRow h hsound.2.1).congr (sameIndexes_logAppend _ _ _ _ _ _)
    | false =>
      exact (exact_storeRow h hsound.2.1 st.fts).congr (sameIndexes_logAppend _ _ _ _ _ _)
  | replace old _ a =>
    have hnew : a.event.id ∉ (removeRow st old).events := fun hmem =>
      hsound.2.1 (mem_erase.mp hmem).2
    exact (exact_storeSearchableRow (exact_removeRow h old) hnew).congr
      (sameIndexes_logAppend _ _ _ _ _ _)
  | sight =>
    exact exact_recordSighting (fun id => by
        rw [h.provenance_keys]
        exact or_iff_right_of_imp fun hid => hid ▸ hsound.2)
      h.access_keys h.relay_index h.relay_kind hkeep.2 hkeep.1 _
  | touch idHex =>
    refine ⟨h.provenance_keys, fun id => ?_, h.relay_index, h.relay_kind⟩
    show id ∈ st.accessIndex.insert idHex (st.accessSeq + 1) ↔ id ∈ st.events
    rw [mem_insert, h.access_keys]
    exact or_iff_right_of_imp fun hid => hid ▸ hsound
  | bury | cover | retain | install => exact h.congr ⟨rfl, rfl, rfl, rfl, rfl⟩

/-- No relay is listed twice for a row. -/
def Distinct (st : MemState) : Prop := ∀ id, (sourceRelays st id).Nodup

theorem distinct_recordSighting (h : Distinct st) (source : RelayUrl) (kind : Nat) (id : String)
    (t : Nat) : Distinct (recordSighting st source kind id t) := by
  intro id'
  rw [sourceRelays, sourcesOf_recordSighting]
  split
  · exact nodup_upsert (h id) source t
  · exact h id'

theorem Distinct.congr {a b : MemState} (hb : Distinct b) (h : a.provenance = b.provenance) :
    Distinct a := fun id => by
  rw [sourceRelays, sourcesOf, h]
  exact hb id

theorem distinct_removeRow (h : Distinct st) (id : String) : Distinct (removeRow st id) := by
  intro id'
  rw [sourceRelays, sourcesOf_removeRow]
  split
  · exact List.nodup_nil
  · exact h id'

theorem distinct_storeSearchableRow (h : Distinct st) (a : Arrival) :
    Distinct (storeSearchableRow st a.event a.source a.receivedAtMs) := by
  obtain ⟨fts, hfts⟩ := ftsAddById_frame
    (accessStamp { st with events := st.events.insert a.event.id ⟨a.event, a.receivedAtMs⟩ }
      a.event.id) a.event.id
  rw [storeSearchableRow, hfts]
  apply distinct_recordSighting
  exact h

theorem distinct_perform (h : Distinct st) (edit : Edit) : Distinct (perform st edit) := by
  cases edit with
  | delete idHex =>
    exact (distinct_removeRow h idHex).congr (logAppend_provenance _ _ _ _ _ _)
  | evict idHex => exact distinct_removeRow h idHex
  | insert a searchable =>
    cases searchable with
    | true => exact (distinct_storeSearchableRow h a).congr (logAppend_provenance _ _ _ _ _ _)
    | false =>
      have hstored : Distinct (storeRow st a.event a.source a.receivedAtMs) := by
        apply distinct_recordSighting
        exact h
      exact hstored.congr (logAppend_provenance _ _ _ _ _ _)
  | replace old _ a =>
    exact (distinct_storeSearchableRow (distinct_removeRow h old) a).congr
      (logAppend_provenance _ _ _ _ _ _)
  | sight => exact distinct_recordSighting h _ _ _ _
  | _ => exact h

/-- Rows have the content of their ids. -/
def Faithful (content : String → RawEvent) (st : MemState) : Prop :=
  ∀ id row, st.events.lookup id = some row → content id = unsigned row.raw

/-- The event of the edit has the content of its id. -/
def FaithfulEdit (content : String → RawEvent) (edit : Edit) : Prop :=
  ∀ a, edit.stores = some a → content a.event.id = unsigned a.event

theorem faithful_perform (h : Faithful content st) (hedit : FaithfulEdit content edit) :
    Faithful content (perform st edit) := by
  intro id row hrow
  rw [lookup_perform] at hrow
  cases hstores : edit.stores.filter fun a => a.event.id = id with
  | none =>
    rw [hstores] at hrow
    dsimp only at hrow
    split at hrow
    · cases hrow
    · exact h id row hrow
  | some a =>
    rw [hstores] at hrow
    cases hrow
    obtain ⟨hstored, hid⟩ := Option.filter_eq_some_iff.mp hstores
    rw [← of_decide_eq_true hid]
    exact hedit a hstored

/-- Events that are inserted by the actions. -/
def arrivalsOf (actions : List Action) : List Arrival :=
  actions.filterMap fun action => match action with
    | .insert a => some a
    | _ => none

/-- An inserted event has the content of its id. -/
def Authentic (content : String → RawEvent) (action : Action) : Prop :=
  ∀ a, action = .insert a → content a.event.id = unsigned a.event

/-- The action does not re-deliver a stored event from a relay its provenance has no room for. -/
def RoomForSource (st : MemState) (action : Action) : Prop :=
  ∀ a, action = .insert a → Redelivers st a → ¬ Crowded st a.event.id a.source

structure Indexed (content : String → RawEvent) (st : MemState) : Prop where
  rooted : Rooted st
  exact : Exact st
  distinct : Distinct st
  faithful : Faithful content st

theorem indexed_new (content : String → RawEvent) : Indexed content .new :=
  ⟨rooted_new, exact_new, fun _ => List.nodup_nil, fun _ _ h => nomatch h⟩

theorem arrivalOfEdit_of_stores (h : edit.stores = some a) : arrivalOfEdit edit = some a := by
  cases edit <;> first | exact h | cases h

theorem faithfulEdit_of_action {st s : MemState} (h : Authentic content action)
    (hedit : ActionEdit st action s edit) : FaithfulEdit content edit := fun a ha =>
  h a (insert_of_arrival (arrivalOfEdit_of_stores ha) hedit).1

theorem keepsExact_of_action {st s : MemState} (hs : Indexed content s)
    (hauth : Authentic content action) (hroom : RoomForSource st action) (hsound : Sound s edit)
    (hedit : ActionEdit st action s edit) : KeepsExact s edit := by
  cases edit with
  | sight a =>
    obtain ⟨rfl, hshrunk, -, hagain⟩ := insert_of_arrival rfl hedit
    obtain ⟨row, hrow⟩ := (mem_iff_lookup _ _).mp hsound.2
    refine ⟨fun hcrowded => hroom a rfl hagain ?_, row, hrow, ?_⟩
    · rwa [Crowded, sourceRelays, hshrunk.sources _ hsound.2] at hcrowded
    · have hsame : unsigned row.raw = unsigned a.event := by
        rw [← hs.faithful _ row hrow, hauth a rfl]
      have hkind : (unsigned row.raw).kind = (unsigned a.event).kind := by rw [hsame]
      exact hkind
  | _ => trivial

/-- What an action with room keeps. -/
theorem indexed_act (h : Indexed content st) (hauth : Authentic content action)
    (hroom : RoomForSource st action) : Indexed content (act st action) :=
  (editsTo_act h.rooted action).invariant (Indexed content) h fun _ e hs hsound hedit =>
    ⟨rooted_perform hs.rooted hsound,
      exact_perform hs.exact hsound (keepsExact_of_action hs hauth hroom hsound hedit),
      distinct_perform hs.distinct e,
      faithful_perform hs.faithful (faithfulEdit_of_action hauth hedit)⟩

theorem sourcesOf_cleared (st : MemState) (event : RawEvent) (id : String) :
    sourcesOf (cleared st event) id = sourcesOf st id := by
  unfold cleared
  split <;> rfl

theorem exact_cleared (h : Exact st) (event : RawEvent) : Exact (cleared st event) := by
  unfold cleared
  split
  · exact h.congr ⟨rfl, rfl, rfl, rfl, rfl⟩
  · exact h

/-- Exact indexes after a re-delivery mean that there was room. -/
theorem room_of_exact (h : Indexed content st) (hexact : Exact (act st action)) :
    RoomForSource st action := by
  rintro a rfl hagain hcrowded
  have hstep : act st (.insert a) = _ := step_again hagain
  rw [hstep] at hexact
  refine not_exact_of_crowded (exact_cleared h.exact a.event) ?_ ?_ _ _ hexact
  · rw [sourceRelays, sourcesOf_cleared]
    exact h.distinct a.event.id
  · rwa [Crowded, sourceRelays, sourcesOf_cleared]

/-- Over runs whose ids are content hashes: the indexes are exact in every state exactly where no
step re-delivers a stored event, with its provenance full, from one more relay. -/
theorem indexes_exact_iff (actions : List Action) (hids : ContentIds (arrivalsOf actions)) :
    (∀ ys, ys <+: actions → Exact (run act .new ys)) ↔ Meets act RoomForSource .new actions := by
  obtain ⟨content, hcontent⟩ := exists_content (arrivalsOf actions) hids
  have hauth : ∀ action ∈ actions, Authentic content action := by
    rintro action haction a rfl
    exact hcontent a (List.mem_filterMap.mpr ⟨.insert a, haction, rfl⟩)
  exact always_iff_meets (Indexed content) Exact
    (fun _ _ hs hok hroom => indexed_act hs hok hroom) (fun _ hs => hs.exact)
    (fun _ _ hs _ hexact => room_of_exact hs hexact) (indexed_new content)
    (meets_of_forall act (Authentic content) .new actions hauth)

def note : RawEvent := (arrivalOf '1' 'a' 10 1 []).event

/-- The note from the relay whose name has `i` letters. -/
def noteFrom (i : Nat) : Arrival := ⟨note, String.ofList (List.replicate i 'r'), 1000 + i⟩

theorem noteFrom_event (i : Nat) : (noteFrom i).event = note := rfl

/-- The note delivered in turn by `n` relays. -/
def deliveries (n : Nat) : List Action := (List.range n).map fun i => .insert (noteFrom i)

theorem deliveries_succ (n : Nat) : deliveries (n + 1) = deliveries n ++ [.insert (noteFrom n)] := by
  rw [deliveries, List.range_succ, List.map_append]
  rfl

theorem contentIds_deliveries (n : Nat) : ContentIds (arrivalsOf (deliveries n)) := by
  have hnote : ∀ a ∈ arrivalsOf (deliveries n), a.event = note := by
    intro a ha
    obtain ⟨action, haction, hsome⟩ := List.mem_filterMap.mp ha
    obtain ⟨i, -, rfl⟩ := List.mem_map.mp haction
    cases hsome
    rfl
  intro a ha b hb _
  rw [hnote a ha, hnote b hb]

/-- Two relays are room enough. -/
theorem indexes_exact_two : (arrivalsOf (deliveries 2)).length = 2 ∧
    ((∀ ys, ys <+: deliveries 2 → Exact (run act .new ys)) ↔
      Meets act RoomForSource .new (deliveries 2)) :=
  ⟨rfl, indexes_exact_iff (deliveries 2) (contentIds_deliveries 2)⟩

/-- The note after deliveries from distinct relays that its provenance has room for. -/
structure Delivered (n : Nat) (st : MemState) : Prop where
  indexed : Indexed (fun _ => unsigned note) st
  stored : note.id ∈ st.events
  clean : st.tombstones.lookup note.id = none
  sources : (sourceRelays st note.id).Perm ((List.range n).map fun i =>
    (noteFrom i).source)

theorem noteFrom_source_inj {i j : Nat} (h : (noteFrom i).source = (noteFrom j).source) : i = j := by
  have hlist := congrArg (fun s => s.toList.length) h
  simpa [noteFrom] using hlist

theorem admitted_noteFrom (i : Nat) : Admitted (noteFrom i) :=
  ⟨isStructurallyValid_arrivalOf (by decide) (by decide) 10 1 [], rfl, rfl⟩

theorem Delivered.redelivers (h : Delivered n st) (i : Nat) : Redelivers st (noteFrom i) := by
  refine ⟨⟨admitted_noteFrom i, ?_, ?_⟩, h.stored⟩
  · rw [idTombstone, noteFrom_event, h.clean]
    rfl
  · exact (blockingAddress_eq_none_iff _ _).mpr fun hparam => by cases hparam

theorem Delivered.length (h : Delivered n st) : (sourcesOf st note.id).length = n := by
  have hlen := h.sources.length_eq
  simpa [sourceRelays, relaysOf] using hlen

theorem Delivered.fresh (h : Delivered n st) : (noteFrom n).source ∉ sourceRelays st note.id := by
  intro hmem
  obtain ⟨i, hi, heq⟩ := List.mem_map.mp (h.sources.mem_iff.mp hmem)
  have hlt := List.mem_range.mp hi
  have := noteFrom_source_inj heq
  omega

theorem Delivered.next (h : Delivered n st) (hroom : n < maxProvenanceEntries) :
    Delivered (n + 1) (act st (.insert (noteFrom n))) := by
  have hnot : ¬ Crowded st note.id (noteFrom n).source := fun hcrowded => by
    have hfull := hcrowded.1
    rw [h.length] at hfull
    omega
  have hauth : Authentic (fun _ => unsigned note) (.insert (noteFrom n)) := by
    rintro a heq
    cases heq
    rfl
  have hindexed := indexed_act h.indexed hauth fun a heq _ => by
    cases heq
    exact hnot
  have hstep : act st (.insert (noteFrom n)) = recordSighting st (noteFrom n).source
      note.kind note.id (noteFrom n).receivedAtMs := by
    have hagain := step_again (h.redelivers n)
    rwa [noteFrom_event, cleared_of_no_tombstone h.clean] at hagain
  have hrows := recordSighting_rows st (noteFrom n).source note.kind
    note.id (noteFrom n).receivedAtMs
  refine ⟨hindexed, ?_, ?_, ?_⟩
  · rw [hstep, hrows.1]
    exact h.stored
  · rw [hstep, hrows.2.1]
    exact h.clean
  · have hadded := relaysOf_upsert_room h.fresh (by rw [h.length]; exact hroom)
      (noteFrom n).receivedAtMs
    rw [hstep, sourceRelays, sourcesOf_recordSighting, if_pos rfl,
      List.range_succ, List.map_append]
    exact hadded.trans ((h.sources.cons _).trans (List.perm_append_singleton _ _).symm)

theorem indexed_first :
    Indexed (fun _ => unsigned note) (act .new (.insert (noteFrom 0))) := by
  apply indexed_act (indexed_new _)
  · rintro a heq
    cases heq
    rfl
  · rintro a heq hagain
    exact absurd hagain.2 (notMem_empty a.event.id)

theorem delivered_first : Delivered 1 (run act .new (deliveries 1)) := by
  have hrun : run act .new (deliveries 1) = accept .new (noteFrom 0) := by
    rw [deliveries, List.range_one, List.map_singleton, run_cons, run_nil,
      act_admitted (admitted_noteFrom 0)]
  have hfacts : note.id ∈ (accept .new (noteFrom 0)).events ∧
      (accept .new (noteFrom 0)).tombstones.lookup note.id = none ∧
      (sourceRelays (accept .new (noteFrom 0)) note.id).Perm ((List.range 1).map fun i =>
        (noteFrom i).source) := by decide +kernel
  rw [hrun]
  refine ⟨?_, hfacts.1, hfacts.2.1, hfacts.2.2⟩
  rw [← act_admitted (admitted_noteFrom 0)]
  exact indexed_first

theorem delivered (hlo : 1 ≤ n) (hhi : n ≤ maxProvenanceEntries) :
    Delivered n (run act .new (deliveries n)) := by
  induction n, hlo using Nat.le_induction with
  | base => exact delivered_first
  | succ n _ ih =>
    rw [deliveries_succ, run_append, run_cons, run_nil]
    exact (ih (by omega)).next (by omega)

/-- The note of 33 relays: one of them is overwritten in its provenance, and the relay indexes
still list the note under it. -/
theorem provenance_overflow_not_exact : ContentIds (arrivalsOf (deliveries 33)) ∧
    ¬ Exact (run act .new (deliveries 33)) := by
  refine ⟨contentIds_deliveries 33, fun hexact => ?_⟩
  have h : Delivered 32 (run act .new (deliveries 32)) := delivered (by decide) (by decide)
  rw [deliveries_succ, run_append, run_cons, run_nil] at hexact
  refine room_of_exact h.indexed hexact (noteFrom 32) rfl (h.redelivers 32) ⟨?_, h.fresh⟩
  have hlen := h.length
  exact Nat.le_of_eq hlen.symm

end StoreIndexes
