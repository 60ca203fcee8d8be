import NostrMultiPlatform.StoreDeletion

/-!
# What one insert can do

Runs of the store are folds of `insert` over arrivals. One insert changes the
view of an id other than the event's own only by removing its row or by claiming
its empty tombstone slot; the event's own id keeps its row or receives the event.
-/
namespace StoreStep

open StoreEvent StoreState StoreInsert StoreDeletion Tables Runs

/-- One call of `insert`. -/
structure Arrival where
  event : RawEvent
  source : RelayUrl
  receivedAtMs : Nat
  deriving DecidableEq, Repr

def outcome (st : MemState) (a : Arrival) : InsertOutcome :=
  (StoreInsert.insert st a.event a.source a.receivedAtMs).1

def step (st : MemState) (a : Arrival) : MemState :=
  (StoreInsert.insert st a.event a.source a.receivedAtMs).2

/-- A key or id made of one hex digit. -/
def digitKey (c : Char) : String := String.ofList (List.replicate 64 c)

/-- A structurally valid event with empty content, seen at one relay. -/
def arrivalOf (id pubkey : Char) (createdAt kind : Nat) (tags : List (List String)) : Arrival where
  event :=
    { id := digitKey id
      pubkey := digitKey pubkey
      createdAt := createdAt
      kind := kind
      tags := tags
      content := ""
      sig := String.ofList (List.replicate 128 '0') }
  source := "wss://relay.example"
  receivedAtMs := 1000

/-- The state after these arrivals at an empty store. -/
def stateAfter (arrivals : List Arrival) : MemState := run step .new arrivals

/-- The event passes the checks that look at nothing but the event and the time. -/
def Admitted (a : Arrival) : Prop :=
  a.event.isStructurallyValid = true ∧ a.event.isEphemeral = false ∧
    a.event.expiredAt a.receivedAtMs = false

instance (a : Arrival) : Decidable (Admitted a) := by unfold Admitted; infer_instance

theorem isSome_digitKey {c : Char} (h : (hexNibble c).isSome = true) :
    (hexToBytes32 (digitKey c)).isSome = true := by
  have hsize : (digitKey c).utf8ByteSize = 64 :=
    (utf8ByteSize_ascii fun _ hc => List.eq_of_mem_replicate hc ▸ utf8Size_of_hexNibble h).trans
      List.length_replicate
  rw [hexToBytes32, if_pos hsize, digitKey, String.toList_ofList]
  exact hexPairs_replicate 32 h

theorem isStructurallyValid_arrivalOf {id pubkey : Char} (hid : (hexNibble id).isSome = true)
    (hpubkey : (hexNibble pubkey).isSome = true) (createdAt kind : Nat)
    (tags : List (List String)) :
    (arrivalOf id pubkey createdAt kind tags).event.isStructurallyValid = true := by
  have hsig : (String.ofList (List.replicate 128 '0')).utf8ByteSize = 128 :=
    (utf8ByteSize_ascii fun _ hc => List.eq_of_mem_replicate hc ▸ by decide).trans
      List.length_replicate
  rw [RawEvent.isStructurallyValid, Bool.and_eq_true, Bool.and_eq_true]
  exact ⟨⟨beq_iff_eq.mpr hsig, isSome_digitKey hid⟩, isSome_digitKey hpubkey⟩

theorem admitted_arrivalOf {id pubkey : Char} (hid : (hexNibble id).isSome = true)
    (hpubkey : (hexNibble pubkey).isSome = true) {createdAt kind : Nat} {tags : List (List String)}
    (h : (arrivalOf id pubkey createdAt kind tags).event.isEphemeral = false ∧
      (arrivalOf id pubkey createdAt kind tags).event.expiredAt 1000 = false) :
    Admitted (arrivalOf id pubkey createdAt kind tags) :=
  ⟨isStructurallyValid_arrivalOf hid hpubkey createdAt kind tags, h⟩

/-- The per-id tombstone that blocks the event. -/
def idTombstone (st : MemState) (event : RawEvent) : Option TombstoneRow :=
  (st.tombstones.lookup event.id).filter fun tomb => tombstoneApplies tomb event

/-- The state once a per-id tombstone that does not apply is dropped. -/
def cleared (st : MemState) (event : RawEvent) : MemState :=
  match st.tombstones.lookup event.id with
  | some _ => { st with tombstones := st.tombstones.erase event.id }
  | none => st

variable {id : String} {a : Arrival} (st : MemState) (event : RawEvent)

@[simp] theorem cleared_events : (cleared st event).events = st.events := by
  unfold cleared
  split <;> rfl

@[simp] theorem cleared_addrTombstones : (cleared st event).addrTombstones = st.addrTombstones := by
  unfold cleared
  split <;> rfl

theorem slot_cleared_other (h : id ≠ event.id) : slot (cleared st event) id = slot st id := by
  unfold cleared slot
  split <;> simp [h]

theorem slot_cleared_self : slot (cleared st event) event.id = none := by
  unfold cleared slot
  split <;> simp_all

theorem insert_not_admitted {st : MemState} (h : ¬ Admitted a) : step st a = st := by
  unfold Admitted at h
  unfold step StoreInsert.insert
  split
  · rfl
  · split
    · rfl
    · split
      · rfl
      · simp_all

theorem insert_checked (h : Admitted a) (st : MemState) :
    StoreInsert.insert st a.event a.source a.receivedAtMs =
      insertChecked st a.event a.source a.receivedAtMs := by
  obtain ⟨hvalid, hephemeral, hexpired⟩ := h
  rw [StoreInsert.insert, if_neg (not_not.mpr hvalid), if_neg (by simp [hephemeral]),
    if_neg (by simp [hexpired])]

theorem outcome_admitted (h : Admitted a) (st : MemState) :
    outcome st a = (insertChecked st a.event a.source a.receivedAtMs).1 :=
  congrArg Prod.fst (insert_checked h st)

/-- The insert of an event that passes these checks. -/
def accept (st : MemState) (a : Arrival) : MemState :=
  (insertChecked st a.event a.source a.receivedAtMs).2

theorem step_admitted (h : Admitted a) (st : MemState) : step st a = accept st a :=
  congrArg Prod.snd (insert_checked h st)

theorem stateAfter_admitted {arrivals : List Arrival} (h : ∀ a ∈ arrivals, Admitted a) :
    stateAfter arrivals = run accept .new arrivals := by
  rw [stateAfter]
  generalize MemState.new = st
  induction arrivals generalizing st with
  | nil => rfl
  | cons a _ ih =>
    rw [run_cons, run_cons, step_admitted (h a List.mem_cons_self)]
    exact ih (fun b hb => h b (List.mem_cons_of_mem a hb)) (accept st a)

theorem insert_admitted (h : Admitted a) (st : MemState) :
    StoreInsert.insert st a.event a.source a.receivedAtMs =
      match idTombstone st a.event with
      | some tomb => (.tombstoned a.event.id32 tomb.kind5EventId tomb.origin, st)
      | none => insertLive (cleared st a.event) a.event a.source a.receivedAtMs := by
  obtain ⟨hvalid, hephemeral, hexpired⟩ := h
  unfold StoreInsert.insert insertChecked idTombstone cleared
  simp only [hvalid, hephemeral, hexpired, not_true_eq_false, if_false, Bool.false_eq_true]
  cases htomb : st.tombstones.lookup a.event.id with
  | none => simp
  | some tomb => cases happ : tombstoneApplies tomb a.event <;> simp [Option.filter_some, happ]

/-- The address tombstone that blocks the event. -/
def blockingAddress (st : MemState) (event : RawEvent) : Option TombstoneRow :=
  (addressTombstone st event).filter fun tomb => decide (event.createdAt ≤ tomb.deletedAt)

theorem insertLive_blocked {st : MemState} {event : RawEvent} {tomb : TombstoneRow}
    (h : blockingAddress st event = some tomb) (source : String) (t : Nat) :
    insertLive st event source t = (.tombstoned event.id32 tomb.kind5EventId tomb.origin, st) := by
  unfold insertLive
  unfold blockingAddress at h
  rw [h]

/-- Which handler takes an event that no tombstone blocks. -/
theorem insertLive_open {st : MemState} {event : RawEvent} (h : blockingAddress st event = none)
    (source : String) (t : Nat) :
    insertLive st event source t =
      if event.kind = 5 then handleKind5Insert st event source t
      else if event.isReplaceable then handleSupersession st event source t none
      else if event.isParamReplaceable then handleSupersession st event source t event.dTag
      else handleNormalInsert st event source t := by
  unfold insertLive
  unfold blockingAddress at h
  rw [h]

theorem cleared_of_no_tombstone {st : MemState} {event : RawEvent}
    (h : st.tombstones.lookup event.id = none) : cleared st event = st := by
  unfold cleared
  rw [h]

/-- Without tombstones an admitted event goes straight to its handler. -/
theorem insert_open {st : MemState} (hadm : Admitted a)
    (hid : st.tombstones.lookup a.event.id = none) (haddr : blockingAddress st a.event = none) :
    StoreInsert.insert st a.event a.source a.receivedAtMs =
      if a.event.kind = 5 then handleKind5Insert st a.event a.source a.receivedAtMs
      else if a.event.isReplaceable then
        handleSupersession st a.event a.source a.receivedAtMs none
      else if a.event.isParamReplaceable then
        handleSupersession st a.event a.source a.receivedAtMs a.event.dTag
      else handleNormalInsert st a.event a.source a.receivedAtMs := by
  have hnone : idTombstone st a.event = none := by rw [idTombstone, hid]; rfl
  rw [insert_admitted hadm, hnone]
  simp only [cleared_of_no_tombstone hid]
  exact insertLive_open haddr _ _

/-- What an insert may do to an id: keep the row, drop it, or store the event there; the slot
keeps its owner if it has one. -/
structure Bounded (st st' : MemState) (a : Arrival) (id : String) : Prop where
  row : st'.events.lookup id = st.events.lookup id ∨ (id ≠ a.event.id ∧ st'.events.lookup id = none) ∨
    (id = a.event.id ∧ st'.events.lookup id = some ⟨a.event, a.receivedAtMs⟩)
  slot : ∃ claim, StoreDeletion.slot st' id = (StoreDeletion.slot st id).or claim

theorem bounded_of_sameRows {st st' : MemState} (h : SameRows st' st) (a : Arrival) (id : String) :
    Bounded st st' a id where
  row := .inl (by rw [h.1])
  slot := ⟨none, by simp only [StoreDeletion.slot, h.2.1, Option.or_none]⟩

theorem newerEntry_ne_none (best : Option Entry) (e : Entry) : newerEntry best e ≠ none := by
  unfold newerEntry
  split
  · simp
  · split <;> simp

theorem newerEntry_eq {best : Option Entry} {e x : Entry} (h : newerEntry best e = some x) :
    x = e ∨ best = some x := by
  unfold newerEntry at h
  split at h
  · cases h; exact .inl rfl
  · split at h <;> cases h
    · exact .inr rfl
    · exact .inl rfl

theorem foldl_newerEntry_mem {l : List Entry} {best : Option Entry} {e : Entry}
    (h : l.foldl newerEntry best = some e) : e ∈ l ∨ best = some e := by
  induction l generalizing best with
  | nil => exact .inr h
  | cons x l ih =>
    rcases ih h with hmem | hbest
    · exact .inl (List.mem_cons_of_mem x hmem)
    · rcases newerEntry_eq hbest with rfl | hbest
      · exact .inl List.mem_cons_self
      · exact .inr hbest

theorem newestEntry_mem {entries : List Entry} {e : Entry} (h : newestEntry entries = some e) :
    e ∈ entries := by
  rcases foldl_newerEntry_mem h with h | h
  · exact h
  · cases h

theorem newestEntry_eq_none {entries : List Entry} (h : newestEntry entries = none) :
    entries = [] := by
  have hfold : ∀ (l : List Entry) best, best ≠ none → l.foldl newerEntry best ≠ none := by
    intro l
    induction l with
    | nil => exact fun _ h => h
    | cons x l ih => exact fun best _ => ih _ (newerEntry_ne_none best x)
  cases entries with
  | nil => rfl
  | cons x l => exact absurd h (hfold l _ (newerEntry_ne_none none x))

theorem mem_competitors {st : MemState} {event : RawEvent} {dFilter : Option String} {e : Entry} :
    e ∈ competitors st event dFilter ↔ st.events.lookup e.1 = some e.2 ∧
      e.2.raw.pubkey = event.pubkey ∧ e.2.raw.kind = event.kind ∧
        ∀ d, dFilter = some d → e.2.raw.dTag = some d := by
  unfold competitors
  rw [List.mem_filter, ← Option.mem_def, AList.mem_lookup_iff]
  cases dFilter <;> simp [and_assoc]

theorem lookup_storeRow (a : Arrival) (id : String) :
    (storeRow st a.event a.source a.receivedAtMs).events.lookup id =
      if id = a.event.id then some ⟨a.event, a.receivedAtMs⟩ else st.events.lookup id := by
  rw [storeRow_events, lookup_insert_eq]

theorem bounded_storeRow {st base : MemState} (h : Bounded st base a id) :
    Bounded st (storeRow base a.event a.source a.receivedAtMs) a id where
  row := by
    rw [lookup_storeRow]
    by_cases hid : id = a.event.id
    · exact .inr (.inr ⟨hid, if_pos hid⟩)
    · rw [if_neg hid]
      exact h.row
  slot := by
    obtain ⟨claim, hclaim⟩ := h.slot
    exact ⟨claim, by rw [← hclaim]; simp only [StoreDeletion.slot, storeRow_tombstones]⟩

theorem bounded_of_rows {st st' st'' : MemState} (h : Bounded st st' a id)
    (hrows : SameRows st'' st') : Bounded st st'' a id where
  row := by rw [hrows.1]; exact h.row
  slot := by simpa only [StoreDeletion.slot, hrows.2.1] using h.slot

theorem bounded_handleNormalInsert (a : Arrival) (id : String) :
    Bounded st (handleNormalInsert st a.event a.source a.receivedAtMs).2 a id := by
  unfold handleNormalInsert
  split
  · exact bounded_of_sameRows (redeliver_rows _ _ _ _) a id
  · exact bounded_of_rows (bounded_storeRow (bounded_of_sameRows ⟨rfl, rfl, rfl⟩ a id))
      (insertSearchable_rows _ _ _ _)

theorem bounded_handleSupersession (a : Arrival) (dFilter : Option String) (id : String) :
    Bounded st (handleSupersession st a.event a.source a.receivedAtMs dFilter).2 a id := by
  unfold handleSupersession
  split
  · exact bounded_of_sameRows (redeliver_rows _ _ _ _) a id
  · next hfresh =>
    split
    · exact bounded_of_rows (bounded_storeRow (bounded_of_sameRows ⟨rfl, rfl, rfl⟩ a id))
        (insertSearchable_rows _ _ _ _)
    · next hex existing _ =>
      dsimp only
      split
      · refine bounded_of_rows (bounded_storeRow ⟨?_, none, ?_⟩) (replaced_rows _ _ _ _ _ _)
        · rw [removeRow_events, lookup_erase_eq]
          by_cases hid : id = hex
          · subst hid
            by_cases hself : id = a.event.id
            · rw [if_pos rfl, hself, (lookup_none_iff _ _).mpr hfresh]
              exact .inl rfl
            · exact .inr (.inl ⟨hself, if_pos rfl⟩)
          · exact .inl (if_neg hid)
        · simp [StoreDeletion.slot]
      · exact bounded_of_sameRows ⟨rfl, rfl, rfl⟩ a id

theorem bounded_applyDeletions (a : Arrival) (hfresh : a.event.id ∉ st.events) :
    Bounded st (applyDeletions a.event a.source st) a id := by
  have hview := view_applyDeletions a.event a.source st id
  refine ⟨?_, _, congrArg Prod.snd hview⟩
  have hrow : (applyDeletions a.event a.source st).events.lookup id =
      (st.events.lookup id).filter fun r => !deletes a.event id r := congrArg Prod.fst hview
  rw [hrow]
  cases hst : st.events.lookup id with
  | none => exact .inl rfl
  | some row =>
    rw [Option.filter_some]
    split
    · exact .inl rfl
    · refine .inr (.inl ⟨?_, rfl⟩)
      rintro rfl
      exact hfresh ((mem_iff_lookup _ _).mpr ⟨row, hst⟩)

theorem bounded_handleKind5Insert (a : Arrival) (id : String) :
    Bounded st (handleKind5Insert st a.event a.source a.receivedAtMs).2 a id := by
  unfold handleKind5Insert
  split
  · exact bounded_of_sameRows (redeliver_rows _ _ _ _) a id
  · next hfresh =>
    exact bounded_of_rows (bounded_storeRow (bounded_applyDeletions st a hfresh))
      (insertFresh_rows _ _ _ _)

theorem bounded_insertLive (a : Arrival) (id : String) :
    Bounded st (insertLive st a.event a.source a.receivedAtMs).2 a id := by
  cases h : blockingAddress st a.event with
  | some =>
    rw [insertLive_blocked h]
    exact bounded_of_sameRows ⟨rfl, rfl, rfl⟩ a id
  | none =>
    rw [insertLive_open h]
    split
    · exact bounded_handleKind5Insert st a id
    · split
      · exact bounded_handleSupersession st a none id
      · split
        · exact bounded_handleSupersession st a a.event.dTag id
        · exact bounded_handleNormalInsert st a id

/-- The two states hold the same tombstones of both sorts. -/
def SameTombstones (a b : MemState) : Prop :=
  a.tombstones = b.tombstones ∧ a.addrTombstones = b.addrTombstones

theorem sameTombstones_handleNormalInsert (a : Arrival) :
    SameTombstones (handleNormalInsert st a.event a.source a.receivedAtMs).2 st := by
  unfold handleNormalInsert
  split
  · exact (redeliver_rows _ _ _ _).2
  · obtain ⟨-, hids, haddrs⟩ := insertSearchable_rows st a.event a.source a.receivedAtMs
    exact ⟨hids.trans (storeRow_tombstones _ _ _ _), haddrs.trans (storeRow_addrTombstones _ _ _ _)⟩

theorem sameTombstones_handleSupersession (a : Arrival) (dFilter : Option String) :
    SameTombstones (handleSupersession st a.event a.source a.receivedAtMs dFilter).2 st := by
  unfold handleSupersession
  split
  · exact (redeliver_rows _ _ _ _).2
  · split
    · obtain ⟨-, hids, haddrs⟩ := insertSearchable_rows st a.event a.source a.receivedAtMs
      exact ⟨hids.trans (storeRow_tombstones _ _ _ _),
        haddrs.trans (storeRow_addrTombstones _ _ _ _)⟩
    · dsimp only
      split
      · obtain ⟨-, hids, haddrs⟩ := replaced_rows _ _ _ _ _ _
        exact ⟨hids.trans (storeRow_tombstones _ _ _ _),
          haddrs.trans (storeRow_addrTombstones _ _ _ _)⟩
      · exact ⟨rfl, rfl⟩

/-- The rows of an id after one insert. -/
theorem step_row (a : Arrival) (id : String) :
    (step st a).events.lookup id = st.events.lookup id ∨
      (id ≠ a.event.id ∧ (step st a).events.lookup id = none) ∨
      (id = a.event.id ∧ Admitted a ∧ idTombstone st a.event = none ∧
        (step st a).events.lookup id = some ⟨a.event, a.receivedAtMs⟩) := by
  by_cases hadm : Admitted a
  · have heq : step st a = _ := congrArg Prod.snd (insert_admitted hadm st)
    cases htomb : idTombstone st a.event with
    | some => left; rw [heq, htomb]
    | none =>
      simp only [htomb] at heq
      rw [heq]
      rcases (bounded_insertLive (cleared st a.event) a id).row with h | h | ⟨hid, h⟩
      · left; rw [h, cleared_events]
      · exact .inr (.inl h)
      · exact .inr (.inr ⟨hid, hadm, rfl, h⟩)
  · left; rw [insert_not_admitted hadm]

/-- An insert never changes the owner of another id's tombstone. -/
theorem step_slot_other (a : Arrival) (hid : id ≠ a.event.id) {owner : Owner}
    (h : slot st id = some owner) : slot (step st a) id = some owner := by
  by_cases hadm : Admitted a
  · have heq : step st a = _ := congrArg Prod.snd (insert_admitted hadm st)
    cases htomb : idTombstone st a.event with
    | some => rw [heq, htomb]; exact h
    | none =>
      simp only [htomb] at heq
      obtain ⟨claim, hclaim⟩ := (bounded_insertLive (cleared st a.event) a id).slot
      rw [heq, hclaim, slot_cleared_other _ _ hid, h, Option.some_or]
  · rw [insert_not_admitted hadm]; exact h

theorem idTombstone_eq_none_iff :
    idTombstone st event = none ↔
      ∀ owner, slot st event.id = some owner → ownerApplies owner event.pubkey = false := by
  unfold idTombstone slot
  cases h : st.tombstones.lookup event.id with
  | none => simp
  | some => simp [Option.filter_some, tombstoneApplies_eq]

/-- An id whose tombstone blocks the event keeps its view under the event's arrival. -/
theorem step_blocked (a : Arrival) {owner : Owner} (h : slot st a.event.id = some owner)
    (happ : ownerApplies owner a.event.pubkey = true) : step st a = st := by
  by_cases hadm : Admitted a
  · have heq : step st a = _ := congrArg Prod.snd (insert_admitted hadm st)
    cases htomb : idTombstone st a.event with
    | some => rw [heq, htomb]
    | none =>
      have hfalse := (idTombstone_eq_none_iff st a.event).mp htomb owner h
      rw [happ] at hfalse
      exact absurd hfalse (by decide)
  · exact insert_not_admitted hadm

/-- An accepted kind 5 event marks every other id by its tags. -/
theorem step_kind5_inserted {st : MemState} (hkind : a.event.kind = 5) {id32 : EventId} {n : Nat}
    (hout : outcome st a = .inserted id32 n) (hid : id ≠ a.event.id) :
    view (step st a) id =
      mark (kind5Owner a.event) (deletes a.event id) (pends a.event id) (view st id) := by
  by_cases hadm : Admitted a
  · have heq := insert_admitted hadm st
    have hout' : (StoreInsert.insert st a.event a.source a.receivedAtMs).1 = .inserted id32 n := hout
    cases htomb : idTombstone st a.event with
    | some => rw [heq, htomb] at hout'; cases hout'
    | none =>
      simp only [htomb] at heq
      cases haddr : blockingAddress (cleared st a.event) a.event with
      | some => rw [heq, insertLive_blocked haddr] at hout'; cases hout'
      | none =>
        rw [insertLive_open haddr, if_pos hkind] at heq
        unfold handleKind5Insert at heq
        split at heq
        · rw [heq] at hout'; cases hout'
        · have hst : step st a = _ := congrArg Prod.snd heq
          rw [hst, view_eq_of_sameRows (insertFresh_rows _ _ _ _)]
          have hstore : ∀ base : MemState,
              view (storeRow base a.event a.source a.receivedAtMs) id = view base id := by
            intro base
            simp only [view, lookup_storeRow, if_neg hid, slot, storeRow_tombstones]
          rw [hstore, view_applyDeletions]
          simp only [view, cleared_events, slot_cleared_other _ _ hid]
  · have hout' : (StoreInsert.insert st a.event a.source a.receivedAtMs).1 = .inserted id32 n := hout
    unfold Admitted at hadm
    unfold StoreInsert.insert at hout'
    split at hout'
    · cases hout'
    · split at hout'
      · cases hout'
      · split at hout'
        · cases hout'
        · simp_all

theorem blockingAddress_cleared :
    blockingAddress (cleared st event) event = blockingAddress st event := by
  simp only [blockingAddress, addressTombstone, cleared_addrTombstones]

theorem blockingAddress_eq_none_iff :
    blockingAddress st event = none ↔ (event.isParamReplaceable = true → ∀ d, event.dTag = some d →
      ∀ time, deadline st (addrKey (toString event.kind) event.pubkey d) = some time →
        time < event.createdAt) := by
  unfold blockingAddress addressTombstone deadline
  cases hparam : event.isParamReplaceable with
  | false => simp
  | true =>
    cases hd : event.dTag with
    | none => simp
    | some d =>
      simp only [if_true, Option.bind_some, Option.some.injEq, forall_eq', forall_const,
        Option.map_eq_some_iff, forall_exists_index, and_imp, forall_apply_eq_imp_iff₂]
      cases htomb : st.addrTombstones.lookup (addrKey (toString event.kind) event.pubkey d) with
      | none => simp
      | some => simp [Option.filter_some]

theorem not_param_of_kind5 {event : RawEvent} (h : event.kind = 5) :
    event.isParamReplaceable = false := by
  rw [RawEvent.isParamReplaceable, h]
  rfl

theorem blockingAddress_kind5 {event : RawEvent} (h : event.kind = 5) :
    blockingAddress st event = none :=
  (blockingAddress_eq_none_iff st event).mpr fun hp => by
    rw [not_param_of_kind5 h] at hp
    cases hp

/-- An admitted event that no tombstone blocks goes to its handler. -/
theorem step_open {st : MemState} (hadm : Admitted a) (hid : idTombstone st a.event = none)
    (haddr : blockingAddress st a.event = none) :
    StoreInsert.insert st a.event a.source a.receivedAtMs =
      if a.event.kind = 5 then handleKind5Insert (cleared st a.event) a.event a.source a.receivedAtMs
      else if a.event.isReplaceable then
        handleSupersession (cleared st a.event) a.event a.source a.receivedAtMs none
      else if a.event.isParamReplaceable then
        handleSupersession (cleared st a.event) a.event a.source a.receivedAtMs a.event.dTag
      else handleNormalInsert (cleared st a.event) a.event a.source a.receivedAtMs := by
  rw [insert_admitted hadm, hid]
  exact insertLive_open (by rw [blockingAddress_cleared, haddr]) _ _

/-- A blocked event changes neither rows nor address tombstones. -/
theorem step_closed {st : MemState}
    (h : idTombstone st a.event ≠ none ∨ blockingAddress st a.event ≠ none) :
    (step st a).events = st.events ∧ (step st a).addrTombstones = st.addrTombstones := by
  by_cases hadm : Admitted a
  · have heq : step st a = _ := congrArg Prod.snd (insert_admitted hadm st)
    cases hid : idTombstone st a.event with
    | some => rw [heq, hid]; exact ⟨rfl, rfl⟩
    | none =>
      rw [hid] at heq h
      simp only [ne_eq, not_true_eq_false, false_or] at h
      cases haddr : blockingAddress st a.event with
      | none => exact absurd haddr h
      | some =>
        rw [heq]
        dsimp only
        rw [insertLive_blocked (by rw [blockingAddress_cleared, haddr])]
        exact ⟨cleared_events _ _, cleared_addrTombstones _ _⟩
  · rw [insert_not_admitted hadm]
    exact ⟨rfl, rfl⟩

/-- An event that is no deletion leaves the address tombstones and all slots but its own. -/
theorem step_regular_tombstones (hkind : a.event.kind ≠ 5) :
    (step st a).addrTombstones = st.addrTombstones ∧
      (∀ id, id ≠ a.event.id → slot (step st a) id = slot st id) ∧
      (slot (step st a) a.event.id = slot st a.event.id ∨ slot (step st a) a.event.id = none) := by
  have hhandler : ∀ base, SameTombstones
      (insertLive base a.event a.source a.receivedAtMs).2 base := by
    intro base
    cases haddr : blockingAddress base a.event with
    | some => rw [insertLive_blocked haddr]; exact ⟨rfl, rfl⟩
    | none =>
      rw [insertLive_open haddr, if_neg hkind]
      split
      · exact sameTombstones_handleSupersession _ _ _
      · split
        · exact sameTombstones_handleSupersession _ _ _
        · exact sameTombstones_handleNormalInsert _ _
  by_cases hadm : Admitted a
  · have heq : step st a = _ := congrArg Prod.snd (insert_admitted hadm st)
    cases hid : idTombstone st a.event with
    | some => rw [heq, hid]; exact ⟨rfl, fun _ _ => rfl, .inl rfl⟩
    | none =>
      rw [hid] at heq
      obtain ⟨hids, haddrs⟩ := hhandler (cleared st a.event)
      rw [heq]
      refine ⟨haddrs.trans (cleared_addrTombstones _ _), fun id hne => ?_, .inr ?_⟩
      · rw [slot, hids]
        exact slot_cleared_other st a.event hne
      · rw [slot, hids]
        exact slot_cleared_self st a.event
  · rw [insert_not_admitted hadm]
    exact ⟨rfl, fun _ _ => rfl, .inl rfl⟩

/-- A stored kind 5 event that arrives again deletes nothing. -/
theorem step_kind5_again {st : MemState} (hkind : a.event.kind = 5)
    (hstored : a.event.id ∈ st.events) :
    (step st a).events = st.events ∧ (step st a).addrTombstones = st.addrTombstones ∧
      (∀ id, id ≠ a.event.id → slot (step st a) id = slot st id) ∧
      (slot (step st a) a.event.id = slot st a.event.id ∨ slot (step st a) a.event.id = none) := by
  by_cases hadm : Admitted a
  · cases hid : idTombstone st a.event with
    | some =>
      have heq : step st a = _ := congrArg Prod.snd (insert_admitted hadm st)
      rw [heq, hid]
      exact ⟨rfl, rfl, fun _ _ => rfl, .inl rfl⟩
    | none =>
      have heq : step st a = _ :=
        congrArg Prod.snd (step_open hadm hid (blockingAddress_kind5 st hkind))
      rw [if_pos hkind, handleKind5Insert, if_pos (by rwa [cleared_events])] at heq
      have hrows := redeliver_rows (cleared st a.event) a.event a.source a.receivedAtMs
      rw [heq]
      refine ⟨hrows.1.trans (cleared_events _ _), hrows.2.2.trans (cleared_addrTombstones _ _),
        fun id hne => ?_, .inr ?_⟩
      · rw [slot, hrows.2.1]
        exact slot_cleared_other st a.event hne
      · rw [slot, hrows.2.1]
        exact slot_cleared_self st a.event
  · rw [insert_not_admitted hadm]
    exact ⟨rfl, rfl, fun _ _ => rfl, .inl rfl⟩

/-- A kind 5 event that is new and not blocked is accepted, stored, and raises its address
tombstones. -/
theorem step_kind5_new {st : MemState} (hkind : a.event.kind = 5) (hadm : Admitted a)
    (hnew : a.event.id ∉ st.events) (hid : idTombstone st a.event = none) :
    (∃ n, outcome st a = .inserted a.event.id32 n) ∧
      (∀ id, (step st a).events.lookup id = if id = a.event.id then
        some ⟨a.event, a.receivedAtMs⟩
        else (st.events.lookup id).filter fun r => !deletes a.event id r) ∧
      (∀ id, slot (step st a) id = (mark (kind5Owner a.event) (deletes a.event id)
        (pends a.event id) (view (cleared st a.event) id)).2) ∧
      ∀ key, deadline (step st a) key =
        if key ∈ a.event.aTags ∧ (addrTarget a.event key).isSome then
          raise a.event.createdAt (deadline st key)
        else deadline st key := by
  have hopen := step_open hadm hid (blockingAddress_kind5 st hkind)
  rw [if_pos hkind, handleKind5Insert, if_neg (by rwa [cleared_events])] at hopen
  have hrows := insertFresh_rows (applyDeletions a.event a.source (cleared st a.event)) a.event
    a.source a.receivedAtMs
  have hview := view_applyDeletions a.event a.source (cleared st a.event)
  refine ⟨⟨_, congrArg Prod.fst hopen⟩, fun id => ?_, fun id => ?_, fun key => ?_⟩
  · have hrow : (applyDeletions a.event a.source (cleared st a.event)).events.lookup id =
        (st.events.lookup id).filter fun r => !deletes a.event id r := by
      rw [← cleared_events st a.event]
      exact congrArg Prod.fst (hview id)
    rw [step, hopen, hrows.1, lookup_storeRow, hrow]
  · rw [← hview id, step, hopen, slot, hrows.2.1, storeRow_tombstones]
    rfl
  · have hdead : deadline (step st a) key =
        deadline (applyDeletions a.event a.source (cleared st a.event)) key := by
      rw [step, hopen, deadline_eq_of_sameRows hrows]
      simp only [deadline, storeRow_addrTombstones]
    rw [hdead, deadline_applyDeletions]
    simp only [deadline, cleared_addrTombstones]

end StoreStep
