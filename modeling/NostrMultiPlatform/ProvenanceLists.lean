import NostrMultiPlatform.StoreIndexes

/-!
# Provenance lists

Over any sightings of an event, in any order of time, the list keeps at most 32
distinct relays in the order of their first sighting. Its first entry, the
primary one, is the least of all sightings by time and then by relay, and is
never evicted: an eviction spares the head, and whatever becomes the head is
less still. Among relays first seen at the same time all but one may be evicted.
-/
namespace ProvenanceLists

open StoreEvent StoreState StoreIndexes Sorted Runs

instance : Std.Total provenanceLe where
  total a b := by
    unfold provenanceLe
    rcases lt_trichotomy a.firstSeenMs b.firstSeenMs with hlt | heq | hgt
    · exact .inl (.inl hlt)
    · exact (le_total a.relayUrl b.relayUrl).imp (fun h => .inr ⟨heq, h⟩) fun h => .inr ⟨heq.symm, h⟩
    · exact .inr (.inl hgt)

instance : IsTrans ProvenanceEntry provenanceLe where
  trans a b c hab hbc := by
    unfold provenanceLe at *
    rcases hab with hab | ⟨hab, hurl⟩
    · exact .inl (hab.trans_le (hbc.elim le_of_lt fun h => h.1.le))
    · rcases hbc with hbc | ⟨hbc, hurl'⟩
      · exact .inl (hab ▸ hbc)
      · exact .inr ⟨hab.trans hbc, hurl.trans hurl'⟩

theorem provenanceLe_refl (e : ProvenanceEntry) : provenanceLe e e := .inr ⟨rfl, le_refl _⟩

/-- Two entries that differ in their marks at most. -/
def SameSighting (a b : ProvenanceEntry) : Prop :=
  a.relayUrl = b.relayUrl ∧ a.firstSeenMs = b.firstSeenMs ∧ a.lastSeenMs = b.lastSeenMs

theorem length_sortProvenance (entries : List ProvenanceEntry) :
    (sortProvenance entries).length = entries.length := by
  simp [sortProvenance]

theorem getElem_sortProvenance {entries : List ProvenanceEntry} {i : Nat}
    (h : i < (sortProvenance entries).length) :
    ∃ e ∈ entries, (sortProvenance entries)[i] = { e with primary := i == 0 } := by
  have hi : i < (entries.insertionSort provenanceLe).length := by
    simpa [sortProvenance] using h
  refine ⟨(entries.insertionSort provenanceLe)[i], ?_, ?_⟩
  · exact (List.mem_insertionSort provenanceLe).mp (List.getElem_mem hi)
  · simp [sortProvenance]

/-- An entry of the sorted list was there before, but for its mark. -/
theorem mem_sortProvenance {entries : List ProvenanceEntry} {e : ProvenanceEntry}
    (h : e ∈ sortProvenance entries) : ∃ e' ∈ entries, SameSighting e e' := by
  obtain ⟨i, hi, rfl⟩ := List.mem_iff_getElem.mp h
  obtain ⟨e', he', heq⟩ := getElem_sortProvenance hi
  exact ⟨e', he', by rw [heq]; exact ⟨rfl, rfl, rfl⟩⟩

theorem sorted_sortProvenance (entries : List ProvenanceEntry) :
    (sortProvenance entries).Pairwise provenanceLe := by
  have hsorted := List.pairwise_insertionSort provenanceLe entries
  rw [List.pairwise_iff_getElem] at hsorted ⊢
  intro i j hi hj hlt
  rw [length_sortProvenance] at hi hj
  have hle := hsorted i j (by simpa using hi) (by simpa using hj) hlt
  simp only [sortProvenance, List.getElem_mapIdx]
  exact hle

/-- The head of the sorted list comes before everything that was sorted. -/
theorem head_sortProvenance {entries : List ProvenanceEntry} {e : ProvenanceEntry}
    (h : e ∈ entries) :
    ∃ head, (sortProvenance entries).head? = some head ∧ provenanceLe head e := by
  have hmem : e ∈ entries.insertionSort provenanceLe := (List.mem_insertionSort provenanceLe).mpr h
  have hsorted := List.pairwise_insertionSort provenanceLe entries
  rw [sortProvenance]
  cases hsort : entries.insertionSort provenanceLe with
  | nil => rw [hsort] at hmem; exact absurd hmem List.not_mem_nil
  | cons head =>
    rw [hsort] at hmem hsorted
    refine ⟨{ head with primary := true }, by rw [List.mapIdx_cons]; rfl, ?_⟩
    rcases List.mem_cons.mp hmem with rfl | hrest
    · exact provenanceLe_refl _
    · exact List.rel_of_pairwise_cons hsorted hrest

/-- A relay and a time. -/
abbrev Sighting : Type := RelayUrl × Nat

def entryOf (c : Sighting) : ProvenanceEntry := ⟨c.1, c.2, c.2, false⟩

/-- The times of an entry, widened to a sighting. -/
def widen (c : Sighting) (e : ProvenanceEntry) : ProvenanceEntry :=
  { e with
    firstSeenMs := min c.2 e.firstSeenMs
    lastSeenMs := max c.2 e.lastSeenMs }

/-- What is done to the list before it is sorted. -/
inductive Upserted (entries : List ProvenanceEntry) (c : Sighting) : List ProvenanceEntry → Prop
  | known (i : Nat) (hi : i < entries.length) (hrelay : entries[i].relayUrl = c.1) :
    Upserted entries c (entries.modify i (widen c))
  | evicted (i : Nat) (hbehind : 0 < i) (hi : i < entries.length) :
    Upserted entries c (entries.set i (entryOf c))
  | added (hroom : entries.length < maxProvenanceEntries) :
    Upserted entries c (entries ++ [entryOf c])

/-- The entry that an eviction overwrites is behind the head. -/
theorem oldestIdx_behind {entries : List ProvenanceEntry} (h : 2 ≤ entries.length) :
    ∃ i, 0 < i ∧ i < entries.length ∧ oldestIdx entries = some i := by
  obtain ⟨i, hi, holdest⟩ := oldestIdx_spec h
  refine ⟨i, ?_, hi, holdest⟩
  obtain ⟨first, second, rest, rfl⟩ : ∃ first second rest, entries = first :: second :: rest := by
    match entries, h with
    | first :: second :: rest, _ => exact ⟨first, second, rest, rfl⟩
  rw [oldestIdx_eq, List.zipIdx_cons, List.tail_cons] at holdest
  have hne : (second :: rest).zipIdx (0 + 1) ≠ [] := by simp
  obtain ⟨e, he, hmem⟩ := foldl_pick olderEntry_picks (.inl hne)
  rw [he, Option.map_some, Option.some.injEq] at holdest
  rcases hmem with hmem | hmem
  · have hle := List.le_snd_of_mem_zipIdx hmem
    omega
  · cases hmem

theorem upsert_cases (entries : List ProvenanceEntry) (c : Sighting) :
    ∃ body, upsertProvenance entries c.1 c.2 = sortProvenance body ∧ Upserted entries c body := by
  unfold upsertProvenance
  dsimp only
  split
  next i hi =>
    obtain ⟨hlt, hrelay, -⟩ := List.findIdx?_eq_some_iff_getElem.mp hi
    exact ⟨_, rfl, .known i hlt (eq_of_beq hrelay)⟩
  · split
    next hfull =>
      have htwo : 2 ≤ entries.length := Nat.le_trans (by decide) hfull
      obtain ⟨i, hbehind, hi, holdest⟩ := oldestIdx_behind htwo
      rw [holdest]
      exact ⟨_, rfl, .evicted i hbehind hi⟩
    next hroom => exact ⟨_, rfl, .added (Nat.lt_of_not_le hroom)⟩

section Body
variable {entries body : List ProvenanceEntry} {c : Sighting}

theorem Upserted.capacity (h : Upserted entries c body)
    (hcapacity : entries.length ≤ maxProvenanceEntries) : body.length ≤ maxProvenanceEntries := by
  cases h with
  | known => rwa [List.length_modify]
  | evicted => rwa [List.length_set]
  | added => rwa [List.length_append, List.length_singleton]

/-- Every first sighting in the list was one before, or is the new one. -/
theorem Upserted.seen (h : Upserted entries c body) {e : ProvenanceEntry} (he : e ∈ body) :
    (∃ e' ∈ entries, e.relayUrl = e'.relayUrl ∧ e.firstSeenMs = e'.firstSeenMs) ∨
      (e.relayUrl = c.1 ∧ e.firstSeenMs = c.2) := by
  cases h with
  | known i hi hrelay =>
    obtain ⟨j, hj, rfl⟩ := List.mem_iff_getElem.mp he
    rw [List.length_modify] at hj
    rw [List.getElem_modify]
    split
    next heq =>
      subst heq
      by_cases hearlier : c.2 ≤ entries[i].firstSeenMs
      · exact .inr ⟨hrelay, Nat.min_eq_left hearlier⟩
      · exact .inl ⟨_, List.getElem_mem hi, rfl, Nat.min_eq_right (by omega)⟩
    · exact .inl ⟨_, List.getElem_mem hj, rfl, rfl⟩
  | evicted =>
    rcases List.mem_or_eq_of_mem_set he with hold | rfl
    · exact .inl ⟨e, hold, rfl, rfl⟩
    · exact .inr ⟨rfl, rfl⟩
  | added =>
    rcases List.mem_append.mp he with hold | hnew
    · exact .inl ⟨e, hold, rfl, rfl⟩
    · rw [List.mem_singleton.mp hnew]
      exact .inr ⟨rfl, rfl⟩

/-- The new sighting is accounted for. -/
theorem Upserted.recorded (h : Upserted entries c body) :
    ∃ e ∈ body, provenanceLe e (entryOf c) := by
  cases h with
  | known i _ hrelay =>
    have hi' : i < (entries.modify i (widen c)).length := by rwa [List.length_modify]
    refine ⟨_, List.getElem_mem hi', ?_⟩
    rw [List.getElem_modify, if_pos rfl]
    rcases (Nat.min_le_left c.2 entries[i].firstSeenMs).lt_or_eq with hlt | heq
    · exact .inl hlt
    · exact .inr ⟨heq, hrelay.le⟩
  | evicted i _ hi =>
    exact ⟨entryOf c, List.mem_set hi _, provenanceLe_refl _⟩
  | added _ => exact ⟨_, List.mem_append_right _ (List.mem_singleton_self _), provenanceLe_refl _⟩

/-- The head stays, or the entry of its relay moves further to the front. -/
theorem Upserted.head (h : Upserted entries c body) {head : ProvenanceEntry}
    (hhead : entries.head? = some head) : ∃ e ∈ body, provenanceLe e head := by
  obtain ⟨rest, rfl⟩ := List.head?_eq_some_iff.mp hhead
  cases h with
  | known i _ _ =>
    cases i with
    | zero =>
      refine ⟨widen c head, by rw [List.modify_zero_cons]; exact List.mem_cons_self, ?_⟩
      rcases (Nat.min_le_right c.2 head.firstSeenMs).lt_or_eq with hlt | heq
      · exact .inl hlt
      · exact .inr ⟨heq, le_refl _⟩
    | succ =>
      exact ⟨head, by rw [List.modify_succ_cons]; exact List.mem_cons_self, provenanceLe_refl _⟩
  | evicted i hbehind _ =>
    obtain ⟨j, rfl⟩ := Nat.exists_eq_succ_of_ne_zero hbehind.ne'
    exact ⟨head, by rw [List.set_cons_succ]; exact List.mem_cons_self, provenanceLe_refl _⟩
  | added _ => exact ⟨head, List.mem_append_left _ List.mem_cons_self, provenanceLe_refl _⟩

end Body

def afterSightings (calls : List Sighting) : List ProvenanceEntry :=
  run (fun entries c => upsertProvenance entries c.1 c.2) [] calls

/-- What the list says of the sightings it was made from. -/
structure Listed (calls : List Sighting) (entries : List ProvenanceEntry) : Prop where
  capacity : entries.length ≤ maxProvenanceEntries
  distinct : (relaysOf entries).Nodup
  sorted : entries.Pairwise provenanceLe
  /-- The head alone is primary. -/
  marked : ∀ i (h : i < entries.length), entries[i].primary = (i == 0)
  seen : ∀ e ∈ entries, (e.relayUrl, e.firstSeenMs) ∈ calls
  /-- No sighting comes before the head. -/
  least : ∀ c ∈ calls, ∃ head, entries.head? = some head ∧ provenanceLe head (entryOf c)

theorem listed_nil : Listed [] [] where
  capacity := Nat.zero_le _
  distinct := List.nodup_nil
  sorted := .nil
  marked := fun _ h => absurd h (Nat.not_lt_zero _)
  seen := fun _ h => absurd h List.not_mem_nil
  least := fun _ h => absurd h List.not_mem_nil

theorem Listed.upsert {calls : List Sighting} {entries : List ProvenanceEntry}
    (h : Listed calls entries) (c : Sighting) :
    Listed (calls ++ [c]) (upsertProvenance entries c.1 c.2) := by
  have hdistinct := nodup_upsert h.distinct c.1 c.2
  obtain ⟨body, heq, hbody⟩ := upsert_cases entries c
  rw [heq] at hdistinct ⊢
  refine ⟨?_, hdistinct, sorted_sortProvenance body, fun i hi => ?_, fun e he => ?_, fun c' hc' => ?_⟩
  · rw [length_sortProvenance]
    exact hbody.capacity h.capacity
  · obtain ⟨e, -, he⟩ := getElem_sortProvenance hi
    rw [he]
  · obtain ⟨e', he', hrelay, hfirst, -⟩ := mem_sortProvenance he
    rw [List.mem_append, List.mem_singleton, hrelay, hfirst]
    rcases hbody.seen he' with ⟨old, hold, hrelay', hfirst'⟩ | ⟨hrelay', hfirst'⟩
    · exact .inl (by rw [hrelay', hfirst']; exact h.seen old hold)
    · exact .inr (by rw [hrelay', hfirst'])
  · -- something in the list comes before the sighting, and the new head before that
    have hbefore : ∃ e ∈ body, provenanceLe e (entryOf c') := by
      rw [List.mem_append, List.mem_singleton] at hc'
      rcases hc' with hold | rfl
      · obtain ⟨head, hhead, hle⟩ := h.least c' hold
        obtain ⟨e, he, hle'⟩ := hbody.head hhead
        exact ⟨e, he, IsTrans.trans _ _ _ hle' hle⟩
      · exact hbody.recorded
    obtain ⟨e, he, hle⟩ := hbefore
    obtain ⟨head, hhead, hle'⟩ := head_sortProvenance he
    exact ⟨head, hhead, IsTrans.trans _ _ _ hle' hle⟩

theorem listed_afterSightings (calls : List Sighting) : Listed calls (afterSightings calls) := by
  induction calls using List.reverseRecOn with
  | nil => exact listed_nil
  | append_singleton _ c ih =>
    rw [afterSightings, run_append]
    exact ih.upsert c

/-- What the durable backend keeps for one event: its list, and under which relays the two
indexes have it. -/
structure ProvRow where
  entries : List ProvenanceEntry
  relayIndex : SortedSet RelayUrl
  relayKind : SortedSet RelayUrl

namespace ProvRow

def empty : ProvRow := ⟨[], ∅, ∅⟩

def relayPut (row : ProvRow) (kind : Nat) (relay : RelayUrl) : ProvRow :=
  { row with
    relayIndex := insert relay row.relayIndex
    relayKind := if isRelayProvenancePrivate kind then row.relayKind else insert relay row.relayKind }

def relayDelete (row : ProvRow) (relay : RelayUrl) : ProvRow :=
  { row with relayIndex := row.relayIndex.erase relay, relayKind := row.relayKind.erase relay }

end ProvRow

/-- The entry that an eviction overwrites and its place. -/
def oldestBehind (entries : List ProvenanceEntry) : Option (ProvenanceEntry × Nat) :=
  entries.zipIdx.tail.foldl olderEntry none

def upsert (kind : Nat) (row : ProvRow) (c : Sighting) : ProvRow × Nat :=
  match row.entries.findIdx? (fun e => e.relayUrl == c.1) with
  | some i =>
    let entries := sortProvenance (row.entries.modify i (widen c))
    ({ row with entries := entries }.relayPut kind c.1, entries.length)
  | none =>
    match (if maxProvenanceEntries ≤ row.entries.length then oldestBehind row.entries else none) with
    | some (evicted, i) =>
      let entries := sortProvenance (row.entries.set i (entryOf c))
      let kept := { row with entries := entries }
      let cleaned := if entries.any (fun e => e.relayUrl == evicted.relayUrl) then kept
        else kept.relayDelete evicted.relayUrl
      (cleaned.relayPut kind c.1, entries.length)
    | none =>
      let entries := sortProvenance (row.entries ++ [entryOf c])
      ({ row with entries := entries }.relayPut kind c.1, entries.length)

/-- The durable backend keeps the list that the store in memory keeps, and tells its length. -/
theorem upsert_eq (kind : Nat) (row : ProvRow) (c : Sighting) :
    (upsert kind row c).1.entries = upsertProvenance row.entries c.1 c.2 ∧
      (upsert kind row c).2 = (upsertProvenance row.entries c.1 c.2).length := by
  have holdest : oldestIdx row.entries = (oldestBehind row.entries).map Prod.snd := rfl
  unfold upsert upsertProvenance
  dsimp only
  cases row.entries.findIdx? fun e => e.relayUrl == c.1 with
  | some => exact ⟨rfl, rfl⟩
  | none =>
    by_cases hfull : maxProvenanceEntries ≤ row.entries.length
    · simp only [if_pos hfull, holdest]
      cases oldestBehind row.entries with
      | none => exact ⟨rfl, rfl⟩
      | some =>
        dsimp only [Option.map_some]
        constructor
        · split <;> rfl
        · rfl
    · simp only [if_neg hfull]
      exact ⟨rfl, rfl⟩

theorem entries_run_upsert (kind : Nat) (calls : List Sighting) :
    (run (fun row c => (upsert kind row c).1) .empty calls).entries = afterSightings calls := by
  induction calls using List.reverseRecOn with
  | nil => rfl
  | append_singleton _ c ih =>
    rw [afterSightings, run_append, run_append]
    exact (upsert_eq kind _ c).1.trans (congrArg (upsertProvenance · c.1 c.2) ih)

/-- What holds of the list after the sightings. -/
structure Provenance (calls : List Sighting) (entries : List ProvenanceEntry) : Prop where
  capacity : entries.length ≤ maxProvenanceEntries
  distinct : (relaysOf entries).Nodup
  sorted : entries.Pairwise provenanceLe
  onePrimary : calls ≠ [] → (entries.filter (·.primary)).length = 1
  earliest : ∀ e ∈ entries, e.primary = true → ∀ e' ∈ entries, e.firstSeenMs ≤ e'.firstSeenMs
  /-- The least sighting of all, by time and then by relay, is the primary entry. -/
  primary : ∀ c ∈ calls, (∀ c' ∈ calls, provenanceLe (entryOf c) (entryOf c')) →
    ∃ e ∈ entries, e.primary = true ∧ e.relayUrl = c.1 ∧ e.firstSeenMs = c.2

theorem filter_primary {entries : List ProvenanceEntry}
    (h : ∀ i (hi : i < entries.length), entries[i].primary = (i == 0)) :
    entries.filter (·.primary) = entries.take 1 := by
  cases entries with
  | nil => rfl
  | cons head rest =>
    have hhead : head.primary = true := h 0 (Nat.succ_pos _)
    have hrest : rest.filter (·.primary) = [] := by
      rw [List.filter_eq_nil_iff]
      intro e he
      obtain ⟨i, hi, rfl⟩ := List.mem_iff_getElem.mp he
      have hmark := h (i + 1) (Nat.succ_lt_succ hi)
      rw [List.getElem_cons_succ] at hmark
      simp [hmark]
    rw [List.filter_cons_of_pos hhead, hrest]
    rfl

theorem provenance_listed {calls : List Sighting} {entries : List ProvenanceEntry}
    (h : Listed calls entries) : Provenance calls entries where
  capacity := h.capacity
  distinct := h.distinct
  sorted := h.sorted
  onePrimary hne := by
    obtain ⟨c, hc⟩ := List.exists_mem_of_ne_nil calls hne
    obtain ⟨head, hhead, -⟩ := h.least c hc
    obtain ⟨rest, rfl⟩ := List.head?_eq_some_iff.mp hhead
    rw [filter_primary h.marked]
    rfl
  earliest e he hprimary e' he' := by
    obtain ⟨i, hi, rfl⟩ := List.mem_iff_getElem.mp he
    obtain ⟨j, hj, rfl⟩ := List.mem_iff_getElem.mp he'
    rw [h.marked i hi, beq_iff_eq] at hprimary
    subst hprimary
    cases j with
    | zero => exact Nat.le_refl _
    | succ j =>
      have hle := List.pairwise_iff_getElem.mp h.sorted 0 (j + 1) hi hj (Nat.succ_pos j)
      exact hle.elim le_of_lt fun h => h.1.le
  primary c hc hleast := by
    obtain ⟨head, hhead, hle⟩ := h.least c hc
    obtain ⟨rest, rfl⟩ := List.head?_eq_some_iff.mp hhead
    have hseen := hleast _ (h.seen head List.mem_cons_self)
    refine ⟨head, List.mem_cons_self, h.marked 0 (Nat.succ_pos _), ?_⟩
    -- the head and the least sighting come before each other
    rcases hle with hlt | ⟨heq, hurl⟩
    · rcases hseen with hlt' | ⟨heq', -⟩
      · exact absurd (hlt.trans hlt') (lt_irrefl _)
      · exact absurd heq' hlt.ne'
    · rcases hseen with hlt' | ⟨-, hurl'⟩
      · exact absurd heq hlt'.ne'
      · exact ⟨le_antisymm hurl hurl', heq⟩

/-- Over every sequence of sightings, on both backends: the list is sound, and the relay of the
least sighting, by time and then by relay, is listed from that sighting on. -/
theorem provenance_sound (calls : List Sighting) :
    Provenance calls (afterSightings calls) ∧
    (∀ c ys, ys <+: calls → c ∈ ys →
      (∀ c' ∈ calls, provenanceLe (entryOf c) (entryOf c')) →
        c.1 ∈ relaysOf (afterSightings ys)) ∧
    ∀ kind, (run (fun row c => (upsert kind row c).1) .empty calls).entries =
      afterSightings calls := by
  refine ⟨provenance_listed (listed_afterSightings calls), fun c ys hys hc hleast => ?_,
    fun kind => entries_run_upsert kind calls⟩
  obtain ⟨e, he, -, hrelay, -⟩ := (provenance_listed (listed_afterSightings ys)).primary c hc
    fun c' hc' => hleast c' (hys.subset hc')
  exact List.mem_map.mpr ⟨e, he, hrelay⟩

/-- One more relay than there is room for, all at one time. -/
def tied : List Sighting :=
  (List.range (maxProvenanceEntries + 1)).map fun n => (String.ofList (List.replicate n 'r'), 0)

/-- Every one of them has the earliest time there is, and one of them is not listed. -/
theorem tied_evicts : ∃ c ∈ tied, (∀ c' ∈ tied, c.2 ≤ c'.2) ∧
    c.1 ∉ relaysOf (afterSightings tied) := by
  have hzero : ∀ c ∈ tied, c.2 = 0 := fun c hc => by
    obtain ⟨n, -, rfl⟩ := List.mem_map.mp hc
    rfl
  have hnodup : (tied.map Prod.fst).Nodup := by
    rw [tied, List.map_map]
    refine List.nodup_range.map fun m n heq => ?_
    have hlen := congrArg (fun s => s.toList.length) heq
    simpa using hlen
  by_contra hall
  have hsub : tied.map Prod.fst ⊆ relaysOf (afterSightings tied) := fun relay hrelay => by
    obtain ⟨c, hc, rfl⟩ := List.mem_map.mp hrelay
    by_contra hlost
    exact hall ⟨c, hc, fun c' hc' => by rw [hzero c hc, hzero c' hc'], hlost⟩
  have hle := (hnodup.subperm hsub).length_le
  have hcapacity := (listed_afterSightings tied).capacity
  have hlength : tied.length = maxProvenanceEntries + 1 := by simp [tied]
  rw [relaysOf, List.length_map, List.length_map, hlength] at hle
  omega

end ProvenanceLists
