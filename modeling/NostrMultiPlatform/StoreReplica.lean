import NostrMultiPlatform.StoreLog

/-!
# The log as a replica of the store

A pull consumer that folds the ingest log keeps a set of event ids. The set is
that of the stored rows after inserts and logged deletions, as long as no event
is stored a second time under another spelling of its id: rows are keyed by the
spelling, log entries name the bytes.
-/
namespace StoreReplica

open StoreEvent StoreState StoreInsert StoreGc StoreStep StoreEdits StoreActions StoreLog
open Tables Runs

/-- What one log entry does to the set of ids a consumer holds. -/
def replayEntry (ids : Finset EventId) (e : StoreLogEntry) : Finset EventId :=
  match e.op with
  | .inserted => insert e.eventId ids
  | .replaced replacedId => (insert e.eventId ids).erase replacedId
  | .deleted targetId _ => ids.erase targetId

def replay (log : List StoreLogEntry) : Finset EventId := log.foldl replayEntry ∅

/-- Some row is stored under a spelling of the id. -/
def StoredId (st : MemState) (id : EventId) : Prop :=
  ∃ key, key ∈ st.events ∧ hexToBytes32 key = some id

/-- The consumer of the whole log holds exactly the stored ids. -/
def Replicates (st : MemState) : Prop := ∀ id, id ∈ replay st.ingestLog ↔ StoredId st id

/-- No two rows have the same id in bytes. -/
def OneSpelling (st : MemState) : Prop :=
  ∀ key, key ∈ st.events → ∀ key', key' ∈ st.events →
    hexToBytes32 key = hexToBytes32 key' → key = key'

variable {key : String} {st : MemState} {a : Arrival} {edit : Edit}

theorem not_replicates_of_empty (hempty : replay st.ingestLog = ∅) (hkey : key ∈ st.events)
    (hdecodes : (hexToBytes32 key).isSome) : ¬ Replicates st := by
  intro h
  obtain ⟨id, hid⟩ := Option.isSome_iff_exists.mp hdecodes
  have hheld := (h id).mpr ⟨key, hkey, hid⟩
  rw [hempty] at hheld
  exact Finset.notMem_empty id hheld

theorem replay_append (log : List StoreLogEntry) (e : StoreLogEntry) :
    replay (log ++ [e]) = replayEntry (replay log) e := by
  rw [replay, List.foldl_append]
  rfl

theorem storedId_erase {st st' : MemState} {target : EventId}
    (hevents : st'.events = st.events.erase key) (hkey : hexToBytes32 key = some target)
    (hone : ∀ key', key' ∈ st.events → hexToBytes32 key' = some target → key' = key) (id : EventId)
    : StoredId st' id ↔ id ≠ target ∧ StoredId st id := by
  unfold StoredId
  rw [hevents]
  constructor
  · rintro ⟨key', hmem, hid⟩
    obtain ⟨hne, hmem⟩ := AList.mem_erase.mp hmem
    exact ⟨fun heq => hne (hone key' hmem (heq ▸ hid)), key', hmem, hid⟩
  · rintro ⟨hne, key', hmem, hid⟩
    refine ⟨key', AList.mem_erase.mpr ⟨?_, hmem⟩, hid⟩
    rintro rfl
    exact hne (Option.eq_some_unique hid hkey)

theorem storedId_insert {st st' : MemState} {row : StoredEvent} {target : EventId}
    (hevents : st'.events = st.events.insert key row) (hkey : hexToBytes32 key = some target)
    (id : EventId) : StoredId st' id ↔ id = target ∨ StoredId st id := by
  unfold StoredId
  rw [hevents]
  constructor
  · rintro ⟨key', hmem, hid⟩
    rcases (AList.mem_insert _).mp hmem with rfl | hmem
    · exact .inl (Option.eq_some_unique hid hkey)
    · exact .inr ⟨key', hmem, hid⟩
  · rintro (rfl | ⟨key', hmem, hid⟩)
    · exact ⟨key, (AList.mem_insert _).mpr (.inl rfl), hkey⟩
    · exact ⟨key', (AList.mem_insert _).mpr (.inr hmem), hid⟩

/-- An edit that the replica can follow: it stores no second spelling of a stored id, and deletes
an id whose only spelling it removes. -/
def Followed (st : MemState) : Edit → Prop
  | .delete key _ target _ _ =>
    ∀ key', key' ∈ st.events → hexToBytes32 key' = some target → key' = key
  | .insert a _ => ∀ key, key ∈ st.events → hexToBytes32 key ≠ hexToBytes32 a.event.id
  | .replace _ _ a => ∀ key, key ∈ st.events → hexToBytes32 key ≠ hexToBytes32 a.event.id
  | .evict _ => False
  | .retain _ => False
  | _ => True

theorem decodes_admitted (h : Admitted a) : hexToBytes32 a.event.id = some a.event.id32 := by
  have hvalid := h.1
  simp only [RawEvent.isStructurallyValid, Bool.and_eq_true, Option.isSome_iff_exists] at hvalid
  obtain ⟨⟨-, bytes, hbytes⟩, -⟩ := hvalid
  rw [RawEvent.id32, RawEvent.idBytes, hbytes]
  rfl

/-- The rows after an edit are the one it stores and some that were there. -/
theorem mem_of_perform (h : key ∈ (perform st edit).events) :
    key ∈ st.events ∨ ∃ a, edit.stores = some a ∧ a.event.id = key := by
  obtain ⟨row, hrow⟩ := (mem_iff_lookup _ _).mp h
  rw [lookup_perform] at hrow
  cases hstores : edit.stores.filter fun a => a.event.id = key with
  | none =>
    rw [hstores] at hrow
    dsimp only at hrow
    split at hrow
    · cases hrow
    · exact .inl ((mem_iff_lookup _ _).mpr ⟨row, hrow⟩)
  | some a =>
    obtain ⟨hstored, hid⟩ := Option.filter_eq_some_iff.mp hstores
    exact .inr ⟨a, hstored, of_decide_eq_true hid⟩

theorem oneSpelling_perform (h : OneSpelling st)
    (hnew : ∀ a, edit.stores = some a → ∀ key, key ∈ st.events → hexToBytes32 key ≠ hexToBytes32 a.event.id)
    : OneSpelling (perform st edit) := by
  intro x hx y hy heq
  rcases mem_of_perform hx with hx | ⟨a, ha, rfl⟩
  · rcases mem_of_perform hy with hy | ⟨b, hb, rfl⟩
    · exact h x hx y hy heq
    · exact absurd heq (hnew b hb x hx)
  · rcases mem_of_perform hy with hy | ⟨b, hb, rfl⟩
    · exact absurd heq.symm (hnew a ha y hy)
    · rw [ha] at hb
      cases hb
      rfl

theorem Followed.stores (h : Followed st edit) (ha : edit.stores = some a) (key : String)
    (hkey : key ∈ st.events) : hexToBytes32 key ≠ hexToBytes32 a.event.id := by
  cases edit with
  | insert | replace => cases ha; exact h key hkey
  | _ => cases ha

/-- The fold of the entry that an edit logs is what the edit does to the stored ids. -/
theorem storedId_perform (hone : OneSpelling st) (hsound : Sound st edit)
    (hfollowed : Followed st edit) {e : StoreLogEntry} (he : logEntry st edit = some e)
    {ids : Finset EventId} (hids : ∀ id, id ∈ ids ↔ StoredId st id) (id : EventId) :
    id ∈ replayEntry ids e ↔ StoredId (perform st edit) id := by
  cases edit with
  | delete =>
    cases he
    rw [storedId_erase (logAppend_events _ _ _ _ _ _) hsound hfollowed, ← hids]
    exact Finset.mem_erase
  | insert a searchable =>
    cases he
    rw [storedId_insert (perform_insert_events st a searchable) (decodes_admitted hsound.1), ← hids]
    exact Finset.mem_insert
  | replace old oldId a =>
    cases he
    obtain ⟨hadm, -, hold, hbytes, -⟩ := hsound
    have hkey := decodes_admitted hadm
    have hother : ∀ key, key ∈ st.events → hexToBytes32 key = some oldId → key = old :=
      fun key hmem heq => hone key hmem old hold (heq.trans hbytes.symm)
    have hne : a.event.id32 ≠ oldId := fun heq => hfollowed old hold (by rw [hbytes, hkey, heq])
    have hstored : (perform st (.replace old oldId a)).events =
        (removeRow st old).events.insert a.event.id ⟨a.event, a.receivedAtMs⟩ :=
      perform_replace_events st old oldId a
    rw [storedId_insert hstored hkey, storedId_erase (removeRow_events st old) hbytes hother, ← hids]
    have hentry : id ∈ replayEntry ids ⟨st.ingestSeq + 1, .replaced oldId, a.event.id32,
        some a.event, some a.source, a.receivedAtMs⟩ ↔ id ≠ oldId ∧ (id = a.event.id32 ∨ id ∈ ids) :=
      Finset.mem_erase.trans (and_congr_right fun _ => Finset.mem_insert)
    rw [hentry]
    constructor
    · rintro ⟨hid, rfl | hmem⟩
      · exact .inl rfl
      · exact .inr ⟨hid, hmem⟩
    · rintro (rfl | ⟨hid, hmem⟩)
      · exact ⟨hne, .inl rfl⟩
      · exact ⟨hid, .inr hmem⟩
  | _ => cases he

theorem storedId_silent (hfollowed : Followed st edit) (he : logEntry st edit = none) (id : EventId)
    :
    StoredId (perform st edit) id ↔ StoredId st id := by
  cases edit with
  | sight a =>
    have hevents := (recordSighting_rows st a.source a.event.kind a.event.id a.receivedAtMs).1
    rw [StoredId, perform, hevents, StoredId]
  | evict => exact hfollowed.elim
  | delete | insert | replace => cases he
  | _ => exact Iff.rfl

/-- A store without retention claims whose untrimmed log replicates it. -/
structure Tracks (st : MemState) : Prop where
  rooted : Rooted st
  spelling : OneSpelling st
  claims : st.retentionClaims = []
  floor : st.logGcFloor = st.ingestSeq - defaultLogMaxEntries
  replicates : st.ingestSeq ≤ defaultLogMaxEntries → Replicates st

theorem tracks_new : Tracks .new where
  rooted := rooted_new
  spelling _ h := absurd h (AList.notMem_empty _)
  claims := rfl
  floor := rfl
  replicates _ id := by
    constructor
    · intro h
      exact absurd h (Finset.notMem_empty id)
    · rintro ⟨key, hkey, -⟩
      exact absurd hkey (AList.notMem_empty key)

theorem tracks_perform (h : Tracks st) (hsound : Sound st edit) (hfollowed : Followed st edit) :
    Tracks (perform st edit) := by
  have hroot := rooted_perform h.rooted hsound
  have hspelling := oneSpelling_perform h.spelling fun a ha => hfollowed.stores ha
  cases he : logEntry st edit with
  | none =>
    obtain ⟨hlog, hclaims⟩ := perform_silent he
    refine ⟨hroot, hspelling, ?_, by rw [hlog.floor, hlog.seq, h.floor], fun hseq id => ?_⟩
    · rcases hclaims with hsame | hretain
      · rw [hsame, h.claims]
      · rw [hretain] at hfollowed
        exact hfollowed.elim
    · rw [hlog.seq] at hseq
      rw [hlog.log, storedId_silent hfollowed he]
      exact h.replicates hseq id
  | some e =>
    have happend := perform_appends he
    have hnext : nextFloor st = st.ingestSeq + 1 - defaultLogMaxEntries := by
      have hfloor := h.floor
      have htarget : targetFloor (st.ingestSeq + 1) st.retentionClaims =
          st.ingestSeq + 1 - defaultLogMaxEntries := by rw [h.claims]; rfl
      rw [nextFloor, htarget]
      omega
    refine ⟨hroot, hspelling, by rw [happend.claims, h.claims],
      by rw [happend.floor, happend.seq, hnext], fun hseq id => ?_⟩
    rw [happend.seq] at hseq
    have hkept : (perform st edit).ingestLog = st.ingestLog ++ [e] := by
      rw [happend.log, List.filter_eq_self]
      intro x _
      simp only [decide_eq_true_eq]
      omega
    rw [hkept, replay_append]
    exact storedId_perform h.spelling hsound hfollowed he (h.replicates (by omega)) id

/-- The calls that insert, or delete with a log entry. -/
def Logged : Action → Prop
  | .insert _ => True
  | .deleteByFilter _ filter => filter.isRelayOnly = false
  | _ => False

/-- An event about to be stored is not there already under another spelling of its id. -/
def SpelledOnce (st : MemState) (action : Action) : Prop :=
  ∀ a, action = .insert a → Wins st a →
    ∀ key, key ∈ st.events → hexToBytes32 key ≠ hexToBytes32 a.event.id

theorem followed_of_insert {st s : MemState} (hspelled : SpelledOnce st (.insert a))
    (hs : OneSpelling s) (hsound : Sound s edit) (hedit : InsertEdit st a s edit) :
    Followed s edit := by
  obtain ⟨hshrunk, hedit⟩ := hedit
  cases edit with
  | delete key =>
    exact fun key' hmem heq => hs key' hmem key hedit (heq.trans hsound.symm)
  | insert b =>
    obtain ⟨rfl, hwins⟩ := hedit
    exact fun key hmem => hspelled b rfl hwins key (hshrunk.mem hmem)
  | replace _ _ b =>
    obtain ⟨rfl, hwins⟩ := hedit
    exact fun key hmem => hspelled b rfl hwins key (hshrunk.mem hmem)
  | sight | bury => trivial
  | _ => exact hedit.elim

theorem tracks_insert (h : Tracks st) (hspelled : SpelledOnce st (.insert a)) :
    Tracks (act st (.insert a)) :=
  (editsTo_act h.rooted (.insert a)).invariant Tracks h fun _ _ hs hsound hedit =>
    tracks_perform hs hsound (followed_of_insert hspelled hs.spelling hsound hedit)

/-- Rows are only removed. -/
def Within (st s : MemState) : Prop := ∀ key, key ∈ s.events → key ∈ st.events

theorem within_perform {st s : MemState} (h : Within st s) (hnone : edit.stores = none) :
    Within st (perform s edit) := fun key hkey => by
  rcases mem_of_perform hkey with hkey | ⟨a, ha, -⟩
  · exact h key hkey
  · rw [hnone] at ha
    cases ha

theorem tracks_deleteByFilter (h : Tracks st) (order : HashOrder) {filter : DeleteFilter}
    (hfilter : filter.isRelayOnly = false) : Tracks (act st (.deleteByFilter order filter)) := by
  have hkeep := (editsTo_deleteByFilter h.rooted order filter).invariant
    (fun s => Tracks s ∧ Within st s) ⟨h, fun _ hkey => hkey⟩ fun s edit hs hsound hedit => by
      cases edit with
      | delete key =>
        refine ⟨tracks_perform hs.1 hsound fun key' hmem heq => ?_, fun key' hmem => ?_⟩
        · exact h.spelling key' (hs.2 key' hmem) key hedit.1 (heq.trans hsound.symm)
        · rw [perform, emitDeleted, logAppend_events, removeRow_events] at hmem
          exact hs.2 key' (AList.mem_erase.mp hmem).2
      | evict =>
        have hlogged := hedit.2
        rw [hfilter] at hlogged
        cases hlogged
      | _ => exact hedit.elim
  exact hkeep.1

theorem tracks_act (h : Tracks st) {action : Action} (hlogged : Logged action)
    (hspelled : SpelledOnce st action) : Tracks (act st action) := by
  cases action with
  | insert => exact tracks_insert h hspelled
  | deleteByFilter order => exact tracks_deleteByFilter h order hlogged
  | _ => exact hlogged.elim

/-- Over runs of inserts and logged deletions from the empty store that store no event under a
second spelling of its id: while nothing is trimmed, folding the log gives the stored ids. -/
theorem log_replicates_store (actions : List Action) (hlogged : ∀ action ∈ actions, Logged action)
    (hspelled : Meets act SpelledOnce .new actions)
    (hshort : (run act .new actions).ingestSeq ≤ defaultLogMaxEntries) :
    Replicates (run act .new actions) :=
  (run_invariant Tracks (fun _ _ hs hok => tracks_act hs hok.1 hok.2) tracks_new
    ((meets_of_forall act Logged .new actions hlogged).and hspelled)).replicates hshort

/-- A note is stored and purged. -/
def purgedNote : List Action :=
  [.insert (arrivalOf '1' 'a' 10 1 []), .deleteByFilter .asStored (.byKindRange 1 1)]

theorem run_purgedNote : run act .new purgedNote =
    act (accept .new (arrivalOf '1' 'a' 10 1 [])) (.deleteByFilter .asStored (.byKindRange 1 1)) := by
  rw [purgedNote, run_cons, run_cons, run_nil,
    act_admitted (admitted_arrivalOf (by decide) (by decide) (by decide +kernel))]

theorem log_replicates_store_purged :
    purgedNote.length = 2 ∧ Replicates (run act .new purgedNote) :=
  ⟨rfl, log_replicates_store purgedNote (by simp [purgedNote, Logged, DeleteFilter.isRelayOnly])
    ⟨fun _ _ _ key hkey => absurd hkey (AList.notMem_empty key), (by intro _ h; cases h), trivial⟩
    (by rw [run_purgedNote]; decide +kernel)⟩

/-- One note under both spellings of its id, then purged by the id in bytes. -/
def respelledNote : List Action :=
  [.insert (arrivalOf 'a' 'b' 10 1 []), .insert (arrivalOf 'A' 'b' 10 1 []),
    .deleteByFilter .asStored (.byIds [List.replicate 32 0xaa])]

theorem run_respelledNote : run act .new respelledNote =
    act (accept (accept .new (arrivalOf 'a' 'b' 10 1 [])) (arrivalOf 'A' 'b' 10 1 []))
      (.deleteByFilter .asStored (.byIds [List.replicate 32 0xaa])) := by
  rw [respelledNote, run_cons, run_cons, run_cons, run_nil,
    act_admitted (admitted_arrivalOf (by decide) (by decide) (by decide +kernel)),
    act_admitted (admitted_arrivalOf (by decide) (by decide) (by decide +kernel))]

/-- The log ends with the deletion of the id, and the row under its other spelling stays. -/
theorem respelled_note_not_replicated :
    (∀ action ∈ respelledNote, Logged action) ∧
      (run act .new respelledNote).ingestSeq < defaultLogMaxEntries ∧
      ¬ Replicates (run act .new respelledNote) := by
  have hfacts : (run act .new respelledNote).ingestSeq < defaultLogMaxEntries ∧
      replay (run act .new respelledNote).ingestLog = ∅ ∧
      digitKey 'A' ∈ (run act .new respelledNote).events := by
    rw [run_respelledNote]
    decide +kernel
  obtain ⟨hshort, hempty, hkey⟩ := hfacts
  exact ⟨by simp [respelledNote, Logged, DeleteFilter.isRelayOnly], hshort,
    not_replicates_of_empty hempty hkey (isSome_digitKey (by decide))⟩

end StoreReplica
