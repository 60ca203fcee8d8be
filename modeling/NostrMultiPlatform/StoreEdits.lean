import NostrMultiPlatform.StoreGc
import NostrMultiPlatform.StoreStep

/-!
# The edits of the store

Every action of the store is a run of a few edits, each of which touches its
structures in one fixed way. What one action can do is said here once; an
invariant is then checked edit by edit.
-/
namespace StoreEdits

open StoreEvent StoreState StoreInsert StoreGc StoreStep Tables Runs

inductive Edit where
  | delete (idHex : String) (carrier target : EventId) (reason : DeleteReason) (time : Nat)
  | evict (idHex : String)
  | insert (a : Arrival) (searchable : Bool)
  | replace (old : String) (oldId : EventId) (a : Arrival)
  | sight (a : Arrival)
  | bury (tombstones addrTombstones : Table String TombstoneRow)
  | touch (idHex : String)
  | cover (coverage : Table (String × String) Nat)
  | retain (claims : List LogRetentionClaim)
  | install (text : StoreText.TextRules) (specs : List CompiledIndexSpec)

def perform (st : MemState) : Edit → MemState
  | .delete idHex carrier target reason time =>
    emitDeleted (removeRow st idHex) carrier target reason time
  | .evict idHex => removeRow st idHex
  | .insert a true => (insertSearchable st a.event a.source a.receivedAtMs).2
  | .insert a false => (insertFresh st a.event a.source a.receivedAtMs).2
  | .replace old oldId a =>
    emitReplaced (storeSearchableRow (removeRow st old) a.event a.source a.receivedAtMs)
      a.event.id32 oldId a.event a.source a.receivedAtMs
  | .sight a => recordSighting st a.source a.event.kind a.event.id a.receivedAtMs
  | .bury tombstones addrTombstones =>
    { st with tombstones := tombstones, addrTombstones := addrTombstones }
  | .touch idHex => accessStamp st idHex
  | .cover coverage => { st with coverage := coverage }
  | .retain claims => replaceLogRetentionClaims st claims
  | .install text specs => installSearchIndexSpecs st text specs

/-- What a row that an edit removes or stores is known to be. -/
def Sound (st : MemState) : Edit → Prop
  | .delete idHex _ target _ _ => hexToBytes32 idHex = some target
  | .insert a searchable => Admitted a ∧ a.event.id ∉ st.events ∧
      (searchable = true ↔ a.event.kind ≠ 5)
  | .replace old oldId a => Admitted a ∧ a.event.id ∉ st.events ∧ old ∈ st.events ∧
      hexToBytes32 old = some oldId ∧ a.event.kind ≠ 5
  | .sight a => Admitted a ∧ a.event.id ∈ st.events
  | .touch idHex => idHex ∈ st.events
  | _ => True

/-- Every row is under its own id and passed the checks at the door. -/
def Rooted (st : MemState) : Prop :=
  ∀ id row, st.events.lookup id = some row →
    row.raw.id = id ∧ Admitted ⟨row.raw, "", row.receivedAtMs⟩

section Log

variable (st : MemState) (op : LogOp) (id : EventId) (raw : Option RawEvent)
  (source : Option RelayUrl) (t : Nat)

/-- An append touches the log alone. -/
theorem logAppend_frame : ∃ seq log floor, logAppend st op id raw source t =
    { st with ingestSeq := seq, ingestLog := log, logGcFloor := floor } := by
  unfold logAppend logGcTrim
  dsimp only
  split
  · exact ⟨_, _, _, rfl⟩
  · exact ⟨_, _, _, rfl⟩

@[simp] theorem logAppend_provenance :
    (logAppend st op id raw source t).provenance = st.provenance := by
  obtain ⟨seq, log, floor, h⟩ := logAppend_frame st op id raw source t
  rw [h]

@[simp] theorem logAppend_relayIndex :
    (logAppend st op id raw source t).relayIndex = st.relayIndex := by
  obtain ⟨seq, log, floor, h⟩ := logAppend_frame st op id raw source t
  rw [h]

@[simp] theorem logAppend_relayKind :
    (logAppend st op id raw source t).relayKind = st.relayKind := by
  obtain ⟨seq, log, floor, h⟩ := logAppend_frame st op id raw source t
  rw [h]

@[simp] theorem logAppend_accessIndex :
    (logAppend st op id raw source t).accessIndex = st.accessIndex := by
  obtain ⟨seq, log, floor, h⟩ := logAppend_frame st op id raw source t
  rw [h]

@[simp] theorem logAppend_fts : (logAppend st op id raw source t).fts = st.fts := by
  obtain ⟨seq, log, floor, h⟩ := logAppend_frame st op id raw source t
  rw [h]

@[simp] theorem logAppend_coverage :
    (logAppend st op id raw source t).coverage = st.coverage := by
  obtain ⟨seq, log, floor, h⟩ := logAppend_frame st op id raw source t
  rw [h]

@[simp] theorem logAppend_events : (logAppend st op id raw source t).events = st.events :=
  (logAppend_rows _ _ _ _ _ _).1

end Log

theorem FtsState.indexRemove_specs (fts : FtsState) (idHex : String) :
    (fts.indexRemove idHex).specs = fts.specs := by
  unfold FtsState.indexRemove
  split <;> rfl

theorem FtsState.indexRemove_text (fts : FtsState) (idHex : String) :
    (fts.indexRemove idHex).text = fts.text := by
  unfold FtsState.indexRemove
  split <;> rfl

theorem perform_insert_events (st : MemState) (a : Arrival) (searchable : Bool) :
    (perform st (.insert a searchable)).events =
      st.events.insert a.event.id ⟨a.event, a.receivedAtMs⟩ := by
  cases searchable with
  | true => exact (insertSearchable_rows _ _ _ _).1.trans (storeRow_events _ _ _ _)
  | false => exact (insertFresh_rows _ _ _ _).1.trans (storeRow_events _ _ _ _)

theorem perform_replace_events (st : MemState) (old : String) (oldId : EventId) (a : Arrival) :
    (perform st (.replace old oldId a)).events =
      (st.events.erase old).insert a.event.id ⟨a.event, a.receivedAtMs⟩ :=
  (replaced_rows _ _ _ _ _ _).1.trans (storeRow_events _ _ _ _)

/-- The row an edit stores, and the id it removes. -/
def Edit.stores : Edit → Option Arrival
  | .insert a _ => some a
  | .replace _ _ a => some a
  | _ => none

def Edit.removes : Edit → Option String
  | .delete idHex _ _ _ _ => some idHex
  | .evict idHex => some idHex
  | .replace old _ _ => some old
  | _ => none

/-- The rows after an edit are those it stores and those that were there and are not removed. -/
theorem lookup_perform (st : MemState) (edit : Edit) (id : String) :
    (perform st edit).events.lookup id =
      match edit.stores.filter fun a => a.event.id = id with
      | some a => some ⟨a.event, a.receivedAtMs⟩
      | none => if edit.removes = some id then none else st.events.lookup id := by
  cases edit with
  | delete =>
    simp only [perform, Edit.stores, Edit.removes, Option.filter_none, emitDeleted,
      logAppend_events, removeRow_events, lookup_erase_eq, Option.some.injEq, eq_comm]
  | evict =>
    simp only [perform, Edit.stores, Edit.removes, Option.filter_none, removeRow_events,
      lookup_erase_eq, Option.some.injEq, eq_comm]
  | insert a =>
    rw [perform_insert_events, lookup_insert_eq]
    by_cases h : a.event.id = id
    · simp [Edit.stores, Option.filter_some, h]
    · simp [Edit.stores, Edit.removes, Option.filter_some, h, Ne.symm h]
  | replace _ _ a =>
    rw [perform_replace_events, lookup_insert_eq, lookup_erase_eq]
    by_cases h : a.event.id = id
    · simp [Edit.stores, Option.filter_some, h]
    · simp [Edit.stores, Edit.removes, Option.filter_some, Ne.symm h, eq_comm]
  | sight => exact congrArg (fun t => AList.lookup id t) (recordSighting_rows _ _ _ _ _).1
  | bury | touch | cover | retain | install => rfl

theorem rooted_new : Rooted .new := fun _ _ h => nomatch h

theorem rooted_perform {st : MemState} (h : Rooted st) {edit : Edit} (hsound : Sound st edit) :
    Rooted (perform st edit) := by
  intro id row hrow
  rw [lookup_perform] at hrow
  cases hstores : edit.stores.filter fun a => a.event.id = id with
  | none =>
    rw [hstores] at hrow
    by_cases hremoves : edit.removes = some id
    · simp only [hremoves, if_true] at hrow
      cases hrow
    · simp only [hremoves, if_false] at hrow
      exact h id row hrow
  | some =>
    rw [hstores] at hrow
    cases hrow
    obtain ⟨hstored, hid⟩ := Option.filter_eq_some_iff.mp hstores
    refine ⟨of_decide_eq_true hid, ?_⟩
    cases edit with
    | insert | replace => cases hstored; exact hsound.1
    | _ => cases hstored

/-- What the decoding of a stored key gives. -/
theorem Rooted.decodes {st : MemState} (h : Rooted st) {id : String} {row : StoredEvent}
    (hrow : st.events.lookup id = some row) : hexToBytes32 id = some row.raw.id32 := by
  obtain ⟨hid, hadm⟩ := h id row hrow
  have hvalid := hadm.1
  simp only [RawEvent.isStructurallyValid, Bool.and_eq_true, Option.isSome_iff_exists] at hvalid
  obtain ⟨⟨-, bytes, hbytes⟩, -⟩ := hvalid
  rw [RawEvent.id32, RawEvent.idBytes, hbytes, ← hid, hbytes]
  rfl

theorem Rooted.decodes_mem {st : MemState} (h : Rooted st) {id : String} (hid : id ∈ st.events) :
    ∃ bytes, hexToBytes32 id = some bytes := by
  obtain ⟨row, hrow⟩ := (mem_iff_lookup _ _).mp hid
  exact ⟨_, h.decodes hrow⟩

/-- The event passes the checks at the door and no tombstone blocks it. -/
def Open (st : MemState) (a : Arrival) : Prop :=
  Admitted a ∧ idTombstone st a.event = none ∧ blockingAddress st a.event = none

/-- The stored version the event competes with. -/
def rivalOf (st : MemState) (event : RawEvent) : Option Entry :=
  if event.isReplaceable then newestEntry (competitors st event none)
  else if event.isParamReplaceable then newestEntry (competitors st event event.dTag)
  else none

/-- The event is not stored yet and beats the version it competes with. -/
def Wins (st : MemState) (a : Arrival) : Prop :=
  Open st a ∧ a.event.id ∉ st.events ∧
    ∀ rival, rivalOf st a.event = some rival → a.event.outranks rival.2.raw = true

/-- An event that is stored already arrives again. -/
def Redelivers (st : MemState) (a : Arrival) : Prop := Open st a ∧ a.event.id ∈ st.events

theorem competitors_cleared (st : MemState) (event e : RawEvent) (dFilter : Option String) :
    competitors (cleared st event) e dFilter = competitors st e dFilter := by
  unfold competitors
  rw [cleared_events]

theorem rivalOf_kind5 (st : MemState) {event : RawEvent} (h : event.kind = 5) :
    rivalOf st event = none := by
  rw [rivalOf, if_neg, if_neg]
  · rw [not_param_of_kind5 h]
    simp
  · rw [RawEvent.isReplaceable, h]
    decide

inductive Effect (st : MemState) (a : Arrival) : MemState → Prop
  | refused (hnot : ¬ Redelivers st a) (hloses : ¬ Wins st a) : Effect st a st
  | dropped (hnot : ¬ Redelivers st a) (hloses : ¬ Wins st a) : Effect st a (cleared st a.event)
  | again (hagain : Redelivers st a) : Effect st a
      (recordSighting (cleared st a.event) a.source a.event.kind a.event.id a.receivedAtMs)
  | deletion (hwins : Wins st a) (hkind : a.event.kind = 5) : Effect st a
      (insertFresh (applyDeletions a.event a.source (cleared st a.event)) a.event a.source
        a.receivedAtMs).2
  | fresh (hwins : Wins st a) (hkind : a.event.kind ≠ 5) (halone : rivalOf st a.event = none) :
      Effect st a (insertSearchable (cleared st a.event) a.event a.source a.receivedAtMs).2
  | replaced (hwins : Wins st a) (hkind : a.event.kind ≠ 5) (rival : Entry)
      (hrival : rivalOf st a.event = some rival) (hmem : st.events.lookup rival.1 = some rival.2) :
      Effect st a (emitReplaced (storeSearchableRow (removeRow (cleared st a.event) rival.1) a.event
        a.source a.receivedAtMs) a.event.id32 ((hexToBytes32 rival.1).getD zeroId) a.event a.source
        a.receivedAtMs)

theorem effect_handleSupersession {st : MemState} {a : Arrival} (hopen : Open st a)
    (hkind : a.event.kind ≠ 5) {dFilter : Option String}
    (hrival : rivalOf st a.event = newestEntry (competitors st a.event dFilter)) :
    Effect st a
      (handleSupersession (cleared st a.event) a.event a.source a.receivedAtMs dFilter).2 := by
  unfold handleSupersession
  rw [cleared_events, competitors_cleared, ← hrival]
  split
  next hmem => exact .again ⟨hopen, hmem⟩
  next hfresh =>
    split
    next hnone =>
      exact .fresh ⟨hopen, hfresh, fun rival h => by rw [hnone] at h; cases h⟩ hkind hnone
    next hex existing hsome =>
      dsimp only
      have hentry : (⟨hex, existing⟩ : Entry) ∈ competitors st a.event dFilter :=
        newestEntry_mem (hrival.symm.trans hsome)
      split
      next hwins =>
        refine .replaced ⟨hopen, hfresh, fun rival h => ?_⟩ hkind ⟨hex, existing⟩ hsome
          (mem_competitors.mp hentry).1
        rw [hsome] at h
        cases h
        exact hwins
      next hloses =>
        exact .dropped (fun h => hfresh h.2) fun h => hloses (h.2.2 _ hsome)

theorem effect_handleNormalInsert {st : MemState} {a : Arrival} (hopen : Open st a)
    (hkind : a.event.kind ≠ 5) (halone : rivalOf st a.event = none) :
    Effect st a (handleNormalInsert (cleared st a.event) a.event a.source a.receivedAtMs).2 := by
  unfold handleNormalInsert
  rw [cleared_events]
  split
  next hmem => exact .again ⟨hopen, hmem⟩
  next hfresh => exact .fresh ⟨hopen, hfresh, fun rival h => by rw [halone] at h; cases h⟩ hkind halone

theorem effect_handleKind5Insert {st : MemState} {a : Arrival} (hopen : Open st a)
    (hkind : a.event.kind = 5) :
    Effect st a (handleKind5Insert (cleared st a.event) a.event a.source a.receivedAtMs).2 := by
  unfold handleKind5Insert
  rw [cleared_events]
  split
  next hmem => exact .again ⟨hopen, hmem⟩
  next hfresh =>
    refine .deletion ⟨hopen, hfresh, fun rival h => ?_⟩ hkind
    rw [rivalOf_kind5 st hkind] at h
    cases h

/-- One insert has one of six effects. -/
theorem effect_step (st : MemState) (a : Arrival) : Effect st a (StoreStep.step st a) := by
  by_cases hadm : Admitted a
  · have heq : StoreStep.step st a = _ := congrArg Prod.snd (insert_admitted hadm st)
    cases hid : idTombstone st a.event with
    | some =>
      rw [heq, hid]
      have hnot : ¬ Open st a := fun h => by cases hid.symm.trans h.2.1
      exact .refused (fun h => hnot h.1) fun h => hnot h.1
    | none =>
      cases haddr : blockingAddress st a.event with
      | some =>
        rw [heq, hid]
        dsimp only
        rw [insertLive_blocked (by rw [blockingAddress_cleared, haddr])]
        have hnot : ¬ Open st a := fun h => by cases haddr.symm.trans h.2.2
        exact .dropped (fun h => hnot h.1) fun h => hnot h.1
      | none =>
        have hopen : Open st a := ⟨hadm, hid, haddr⟩
        rw [StoreStep.step, step_open hadm hid haddr]
        split
        next hkind => exact effect_handleKind5Insert hopen hkind
        next hkind =>
          split
          next hrep => exact effect_handleSupersession hopen hkind (by rw [rivalOf, if_pos hrep])
          next hrep =>
            split
            next hpar =>
              exact effect_handleSupersession hopen hkind
                (by rw [rivalOf, if_neg hrep, if_pos hpar])
            next hpar =>
              exact effect_handleNormalInsert hopen hkind
                (by rw [rivalOf, if_neg hrep, if_neg hpar])
  · rw [insert_not_admitted hadm]
    exact .refused (fun h => hadm h.1.1) fun h => hadm h.1.1

/-- A re-delivered event is recorded as one more sighting. -/
theorem step_again {st : MemState} {a : Arrival} (h : Redelivers st a) :
    StoreStep.step st a =
      recordSighting (cleared st a.event) a.source a.event.kind a.event.id a.receivedAtMs := by
  have heffect := effect_step st a
  generalize hst : StoreStep.step st a = st' at heffect ⊢
  cases heffect with
  | refused hnot => exact absurd h hnot
  | dropped hnot => exact absurd h hnot
  | again => rfl
  | deletion hwins => exact absurd h.2 hwins.2.1
  | fresh hwins => exact absurd h.2 hwins.2.1
  | replaced hwins => exact absurd h.2 hwins.2.1

/-- The second state comes from the first by edits under the condition. -/
def EditsTo (p : MemState → Edit → Prop) (st st' : MemState) : Prop :=
  ∃ edits, st' = run perform st edits ∧ Meets perform (fun s e => Sound s e ∧ p s e) st edits

namespace EditsTo

variable {p q : MemState → Edit → Prop} {st st' st'' : MemState}

theorem refl (p : MemState → Edit → Prop) (st : MemState) : EditsTo p st st := ⟨[], rfl, trivial⟩

theorem single (edit : Edit) (hsound : Sound st edit) (hp : p st edit) :
    EditsTo p st (perform st edit) := ⟨[edit], rfl, ⟨hsound, hp⟩, trivial⟩

theorem trans (h : EditsTo p st st') (h' : EditsTo p st' st'') : EditsTo p st st'' := by
  obtain ⟨edits, rfl, hmeets⟩ := h
  obtain ⟨edits', rfl, hmeets'⟩ := h'
  exact ⟨edits ++ edits', by rw [run_append], (meets_append _ _ _ _ _).mpr ⟨hmeets, hmeets'⟩⟩

theorem invariant (h : EditsTo p st st') (inv : MemState → Prop) (hinv : inv st)
    (keep : ∀ s e, inv s → Sound s e → p s e → inv (perform s e)) : inv st' := by
  obtain ⟨edits, rfl, hmeets⟩ := h
  exact run_invariant inv (fun s e hs hok => keep s e hs hok.1 hok.2) hinv hmeets

theorem rooted (h : EditsTo p st st') (hroot : Rooted st) : Rooted st' :=
  h.invariant Rooted hroot fun _ _ hs hsound _ => rooted_perform hs hsound

/-- An invariant of the edits may be asked of the states in which they are performed. -/
theorem under (h : EditsTo p st st') (inv : MemState → Prop) (hinv : inv st)
    (keep : ∀ s e, inv s → Sound s e → p s e → inv (perform s e))
    (weaken : ∀ s e, inv s → Sound s e → p s e → q s e) : EditsTo q st st' := by
  obtain ⟨edits, rfl, hmeets⟩ := h
  refine ⟨edits, rfl, ?_⟩
  induction edits generalizing st with
  | nil => trivial
  | cons e _ ih =>
    obtain ⟨⟨hsound, hp⟩, hrest⟩ := hmeets
    exact ⟨⟨hsound, weaken st e hinv hsound hp⟩, ih (keep st e hinv hsound hp) hrest⟩

/-- Folding a step that is a run of edits gives a run of edits. -/
theorem foldl {ι : Type} {f : MemState → ι → MemState} {xs : List ι}
    (hf : ∀ s, ∀ x ∈ xs, Rooted s → EditsTo p s (f s x)) (hroot : Rooted st) :
    EditsTo p st (xs.foldl f st) := by
  induction xs generalizing st with
  | nil => exact refl p st
  | cons x _ ih =>
    have hx := hf st x List.mem_cons_self hroot
    exact hx.trans (ih (fun s y hy => hf s y (List.mem_cons_of_mem x hy)) (hx.rooted hroot))

end EditsTo

/-- The edits of a deletion: a stored row goes, or tombstones are written. -/
def Deletes (st : MemState) : Edit → Prop
  | .delete idHex _ _ _ _ => idHex ∈ st.events
  | .bury _ _ => True
  | _ => False

theorem editsTo_addTombstone (st : MemState) (key : String) (row : TombstoneRow) :
    EditsTo Deletes st (addTombstone st key row) :=
  EditsTo.single (.bury (mergeTombstone st.tombstones key row) st.addrTombstones)
    trivial trivial

theorem editsTo_addAddrTombstone (st : MemState) (key : String) (row : TombstoneRow) :
    EditsTo Deletes st (addAddrTombstone st key row) :=
  EditsTo.single (.bury st.tombstones (mergeTombstone st.addrTombstones key row))
    trivial trivial

section

variable {st : MemState} (kind5 : RawEvent) (source : RelayUrl) (h : Rooted st)
include kind5 source h

theorem editsTo_deleteTarget {hex : String} {existing : StoredEvent}
    (hrow : st.events.lookup hex = some existing) :
    EditsTo Deletes st (deleteTarget kind5 source st hex existing) :=
  (EditsTo.single (.delete hex kind5.id32 existing.raw.id32 .nip09 (millis kind5.createdAt))
    (h.decodes hrow) ((mem_iff_lookup _ _).mpr ⟨existing, hrow⟩)).trans
    (editsTo_addTombstone _ _ _)

theorem editsTo_deleteByIdTag (hex : String) :
    EditsTo Deletes st (deleteByIdTag kind5 source st hex) := by
  unfold deleteByIdTag
  split
  next existing hrow =>
    split
    · exact .refl _ st
    · exact editsTo_deleteTarget kind5 source h hrow
  next =>
    split
    · exact .refl _ st
    · exact editsTo_addTombstone _ _ _

theorem editsTo_deleteListed (hex : String) :
    EditsTo Deletes st (deleteListed kind5 source st hex) := by
  unfold deleteListed
  split
  next existing hrow => exact editsTo_deleteTarget kind5 source h hrow
  next => exact .refl _ st

theorem editsTo_deleteByAddrTag (addr : String) :
    EditsTo Deletes st (deleteByAddrTag kind5 source st addr) := by
  unfold deleteByAddrTag
  split
  next => exact .refl _ st
  next kindStr pubkey d _ =>
    split
    · exact .refl _ st
    · split
      · exact .refl _ st
      · exact (EditsTo.foldl (fun s hex _ hs => editsTo_deleteListed kind5 source hs hex) h).trans
          (editsTo_addAddrTombstone _ _ _)

theorem editsTo_applyDeletions : EditsTo Deletes st (applyDeletions kind5 source st) := by
  have hids : EditsTo Deletes st (kind5.eTags.foldl (deleteByIdTag kind5 source) st) :=
    EditsTo.foldl (fun s hex _ hs => editsTo_deleteByIdTag kind5 source hs hex) h
  exact hids.trans
    (EditsTo.foldl (fun s addr _ hs => editsTo_deleteByAddrTag kind5 source hs addr) (hids.rooted h))

end

/-- What is left of a state after deletions: fewer rows, the same about each. -/
structure Shrunk (st s : MemState) : Prop where
  rows : ∀ id row, s.events.lookup id = some row → st.events.lookup id = some row
  sources : ∀ id, id ∈ s.events → sourcesOf s id = sourcesOf st id
  text : s.fts.text = st.fts.text
  specs : s.fts.specs = st.fts.specs

theorem Shrunk.refl (st : MemState) : Shrunk st st := ⟨fun _ _ h => h, fun _ _ => rfl, rfl, rfl⟩

theorem Shrunk.mem {st s : MemState} (h : Shrunk st s) {id : String} (hid : id ∈ s.events) :
    id ∈ st.events := by
  obtain ⟨row, hrow⟩ := (mem_iff_lookup _ _).mp hid
  exact (mem_iff_lookup _ _).mpr ⟨row, h.rows id row hrow⟩

/-- The edits of one insert, and when it makes them. -/
def InsertEdit (st : MemState) (a : Arrival) (s : MemState) (edit : Edit) : Prop :=
  Shrunk st s ∧ match edit with
    | .delete idHex _ _ _ _ => idHex ∈ s.events
    | .bury _ _ => True
    | .sight b => b = a ∧ Redelivers st a
    | .insert b _ => b = a ∧ Wins st a
    | .replace _ _ b => b = a ∧ Wins st a
    | _ => False

theorem shrunk_delete {st s : MemState} (h : Shrunk st s) (hex : String)
    (carrier target : EventId) (reason : DeleteReason) (time : Nat) :
    Shrunk st (perform s (.delete hex carrier target reason time)) where
  rows id row hrow := by
    simp only [perform, emitDeleted, logAppend_events, removeRow_events, lookup_erase_eq] at hrow
    split at hrow
    · cases hrow
    · exact h.rows id row hrow
  sources id hid := by
    simp only [perform, emitDeleted, logAppend_events, removeRow_events, AList.mem_erase] at hid
    rw [← h.sources id hid.2]
    simp only [sourcesOf, perform, emitDeleted, logAppend_provenance]
    exact congrArg (Option.getD · []) (AList.lookup_erase_ne hid.1)
  text := by
    simp only [perform, emitDeleted, logAppend_fts]
    exact (FtsState.indexRemove_text _ _).trans h.text
  specs := by
    simp only [perform, emitDeleted, logAppend_fts]
    exact (FtsState.indexRemove_specs _ _).trans h.specs

theorem shrunk_deletes {st s : MemState} {edit : Edit} (h : Shrunk st s) (he : Deletes s edit) :
    Shrunk st (perform s edit) := by
  cases edit with
  | delete hex carrier target reason time => exact shrunk_delete h hex carrier target reason time
  | bury => exact ⟨h.rows, h.sources, h.text, h.specs⟩
  | _ => exact he.elim

theorem insertEdit_of_deletes {st s : MemState} {a : Arrival} {edit : Edit} (h : Shrunk st s)
    (he : Deletes s edit) : InsertEdit st a s edit := by
  cases edit with
  | delete => exact ⟨h, he⟩
  | bury => exact ⟨h, trivial⟩
  | _ => exact he.elim

theorem EditsTo.insertEdits {st st' : MemState} (a : Arrival) (h : EditsTo Deletes st st') :
    EditsTo (InsertEdit st a) st st' :=
  h.under (Shrunk st) (Shrunk.refl st) (fun _ _ hs _ he => shrunk_deletes hs he)
    fun _ _ hs _ he => insertEdit_of_deletes hs he

theorem editsTo_cleared (st : MemState) (event : RawEvent) :
    EditsTo Deletes st (cleared st event) := by
  unfold cleared
  split
  · exact EditsTo.single (.bury (st.tombstones.erase event.id) st.addrTombstones)
      trivial trivial
  · exact .refl _ st

/-- One insert is a run of its edits. -/
theorem editsTo_step {st : MemState} (h : Rooted st) (a : Arrival) :
    EditsTo (InsertEdit st a) st (StoreStep.step st a) := by
  have hcleared := editsTo_cleared st a.event
  have hshrunk : Shrunk st (cleared st a.event) :=
    hcleared.invariant (Shrunk st) (Shrunk.refl st) fun _ _ hs _ he => shrunk_deletes hs he
  generalize StoreStep.step st a = st', effect_step st a = heffect
  cases heffect with
  | refused => exact .refl _ st
  | dropped => exact hcleared.insertEdits a
  | again hagain =>
    exact (hcleared.insertEdits a).trans (EditsTo.single (.sight a)
      ⟨hagain.1.1, by rw [cleared_events]; exact hagain.2⟩ ⟨hshrunk, rfl, hagain⟩)
  | deletion hwins hkind =>
    have hdeleted := hcleared.trans
      (editsTo_applyDeletions a.event a.source (hcleared.rooted h))
    have hshrunk' := hdeleted.invariant (Shrunk st) (Shrunk.refl st)
      fun _ _ hs _ he => shrunk_deletes hs he
    exact (hdeleted.insertEdits a).trans (EditsTo.single (.insert a false)
      ⟨hwins.1.1, fun hmem => hwins.2.1 (hshrunk'.mem hmem), by simp [hkind]⟩
      ⟨hshrunk', rfl, hwins⟩)
  | fresh hwins hkind =>
    exact (hcleared.insertEdits a).trans (EditsTo.single (.insert a true)
      ⟨hwins.1.1, by rw [cleared_events]; exact hwins.2.1, by simp [hkind]⟩ ⟨hshrunk, rfl, hwins⟩)
  | replaced hwins hkind rival _ hmem =>
    refine (hcleared.insertEdits a).trans (EditsTo.single
      (.replace rival.1 ((hexToBytes32 rival.1).getD zeroId) a)
      ⟨hwins.1.1, by rw [cleared_events]; exact hwins.2.1, ?_, ?_, hkind⟩ ⟨hshrunk, rfl, hwins⟩)
    · rw [cleared_events]
      exact (mem_iff_lookup _ _).mpr ⟨_, hmem⟩
    · rw [h.decodes hmem]
      rfl

end StoreEdits
