import NostrMultiPlatform.StoreConvergence
import NostrMultiPlatform.StoreDurability

/-!
# Deletion by coordinate

One deletion event and the versions of one coordinate arrive in any order. The
store then behaves like a single cell that holds the id of the current version:
versions compete for it, and the deletion empties it. What late versions meet is
the address tombstone, which is filed under the coordinate as the tag spells it
and consulted only for addressable kinds.
-/
namespace StoreCoordinate

open StoreEvent StoreState StoreInsert StoreDeletion StoreStep StoreDurability StoreConvergence
open RawEvent
open Tables Runs

/-- A version of the coordinate: same author and kind, and the `d` value where the kind is
addressable. -/
def Version (kind : Nat) (pubkey d : String) (e : RawEvent) : Prop :=
  e.pubkey = pubkey ∧ e.kind = kind ∧ (isAddressableKind kind = true → e.dTag = some d)

instance (kind : Nat) (pubkey d : String) (e : RawEvent) : Decidable (Version kind pubkey d e) := by
  unfold Version; infer_instance

/-- Can be presented: valid, lasting, and before its deadline at least at time zero. -/
def Live (e : RawEvent) : Prop :=
  e.isStructurallyValid = true ∧ e.isEphemeral = false ∧ e.expiredAt 0 = false

instance (e : RawEvent) : Decidable (Live e) := by unfold Live; infer_instance

/-- The deletion, the coordinate it names and versions of it; ids are content hashes. -/
structure Case (kind5 : RawEvent) (kind : Nat) (d : String) (versions : List RawEvent) : Prop where
  isKind5 : kind5.kind = 5
  coordinateKind : isReplaceableKind kind = true ∨ isAddressableKind kind = true
  named : ∃ addr ∈ kind5.aTags, addrTarget kind5 addr = some (kind, d)
  version : ∀ v ∈ versions, Version kind kind5.pubkey d v
  live : ∀ e ∈ kind5 :: versions, Live e
  ids : ∀ e ∈ kind5 :: versions, ∀ f ∈ kind5 :: versions, e.id = f.id → unsigned e = unsigned f

variable (kind5 : RawEvent) (versions : List RawEvent)

/-- An order of insertion of the deletion, some times again, and of the versions. -/
def Order (again : Nat) (versions : List RawEvent) (arrivals : List Arrival) : Prop :=
  (arrivals.map Arrival.event).Perm (List.replicate (again + 1) kind5 ++ versions) ∧
    ∀ a ∈ arrivals, Admitted a

/-- No version up to the deletion time is stored in the end. -/
def DeletesOld (arrivals : List Arrival) : Prop :=
  ∀ v ∈ versions, v.createdAt ≤ kind5.createdAt → v.id ∉ (stateAfter arrivals).events

/-- No other version is later, or as late with a smaller id. -/
def Newest (n : RawEvent) : Prop :=
  n ∈ versions ∧ ∀ v ∈ versions, v.outranks n = false

/-- The newest version is stored in the end if it is later than the deletion, unless the
deletion names it by id as well. -/
def KeepsNewest (arrivals : List Arrival) : Prop :=
  ∀ n, Newest versions n → kind5.createdAt < n.createdAt → n.id ∉ kind5.eTags →
    n.id ∈ (stateAfter arrivals).events

/-- The address tombstone is filed where late versions look: the kind is addressable and some
tag spells its number the way it is printed. -/
def FiledForLateVersions (kind : Nat) (d : String) : Prop :=
  isAddressableKind kind = true ∧ addrKey (toString kind) kind5.pubkey d ∈ kind5.aTags

/-- Each old version is named by id as well, by a key in lower case, or a version later than the
deletion and not named by id is the newest. -/
def OldVersionsCovered : Prop :=
  ∀ v ∈ versions, v.createdAt ≤ kind5.createdAt →
    (v.id ∈ kind5.eTags ∧ LowerHex kind5.pubkey) ∨
      ∃ n, Newest versions n ∧ kind5.createdAt < n.createdAt ∧ n.id ∉ kind5.eTags

section Cell

variable {kind5 : RawEvent} {kind : Nat} {d : String} {versions : List RawEvent}
variable {content : String → RawEvent}

/-- The stored versions of the coordinate are exactly the id in the cell, if any. -/
def Current (kind : Nat) (pubkey d : String) (st : MemState) (cell : Option String) : Prop :=
  ∀ id, (∃ row, st.events.lookup id = some row ∧ Version kind pubkey d row.raw) ↔ cell = some id

/-- The cell after a version competes for it. -/
def compete (content : String → RawEvent) (cell : Option String) (e : RawEvent) : Option String :=
  match cell with
  | none => some e.id
  | some m => if e.outranks (content m) then some e.id else some m

/-- The filter the insert path uses for a version. -/
def versionFilter (e : RawEvent) : Option String := if e.isReplaceable then none else e.dTag

theorem addressable_or_replaceable (c : Case kind5 kind d versions) :
    (isAddressableKind kind = true ∧ isReplaceableKind kind = false) ∨
      (isAddressableKind kind = false ∧ isReplaceableKind kind = true) := by
  have hdisjoint : isReplaceableKind kind = true → isAddressableKind kind = false := fun h =>
    kinds_disjoint (e := ⟨"", "", 0, kind, [], "", ""⟩) h
  rcases c.coordinateKind with h | h
  · exact .inr ⟨hdisjoint h, h⟩
  · refine .inl ⟨h, Bool.eq_false_iff.mpr fun hr => ?_⟩
    rw [hdisjoint hr] at h
    cases h

theorem kind_ne_five (c : Case kind5 kind d versions) : kind ≠ 5 := by
  rintro rfl
  rcases c.coordinateKind with h | h <;> simp [isReplaceableKind, isAddressableKind] at h

variable {e v n : RawEvent} {a : Arrival} {st : MemState} {cell : Option String} {id : String}
  {row : StoredEvent}

/-- For a version, the competitors are the stored versions of the coordinate. -/
theorem competitors_of_version (c : Case kind5 kind d versions) (he : Version kind kind5.pubkey d e)
    (st : MemState) (x : Entry) :
    x ∈ competitors st e (versionFilter e) ↔
      st.events.lookup x.1 = some x.2 ∧ Version kind kind5.pubkey d x.2.raw := by
  rw [mem_competitors]
  obtain ⟨hpk, hkind, hd⟩ := he
  unfold versionFilter Version
  rw [isReplaceable, hkind, hpk]
  rcases addressable_or_replaceable c with ⟨ha, hr⟩ | ⟨ha, hr⟩
  · simp [ha, hr, hd ha]
  · simp [ha, hr]

theorem handler_of_version (c : Case kind5 kind d versions)
    (he : Version kind kind5.pubkey d a.event) (hadm : Admitted a)
    (hid : idTombstone st a.event = none) (haddr : blockingAddress st a.event = none) :
    step st a = (handleSupersession (cleared st a.event) a.event a.source a.receivedAtMs
      (versionFilter a.event)).2 := by
  have hopen := congrArg Prod.snd (step_open hadm hid haddr)
  have hne : a.event.kind ≠ 5 := by rw [he.2.1]; exact kind_ne_five c
  rw [if_neg hne] at hopen
  rw [step, hopen, versionFilter]
  split
  · rfl
  · next hrepl =>
    have hparam : a.event.isParamReplaceable = true := by
      rcases addressable_or_replaceable c with ⟨ha, -⟩ | ⟨-, hr⟩
      · rwa [isParamReplaceable, he.2.1]
      · rw [isReplaceable, he.2.1] at hrepl
        exact absurd hr hrepl
    rw [if_pos hparam]

/-- A row is the content of its id. -/
def RowsOf (content : String → RawEvent) (st : MemState) : Prop :=
  ∀ id row, st.events.lookup id = some row → row.raw.id = id ∧ content id = unsigned row.raw

theorem version_unsigned {pubkey : String} :
    Version kind pubkey d (unsigned e) ↔ Version kind pubkey d e := Iff.rfl

theorem outranks_unsigned (e f : RawEvent) : e.outranks (unsigned f) = e.outranks f := rfl

theorem not_outranks_self (e : RawEvent) : e.outranks e = false := by
  simp [outranks]

/-- A version that no tombstone blocks competes for the cell. -/
theorem current_step_open (c : Case kind5 kind d versions) (hrows : RowsOf content st)
    (hcur : Current kind kind5.pubkey d st cell) (he : Version kind kind5.pubkey d a.event)
    (hcontent : content a.event.id = unsigned a.event) (hadm : Admitted a)
    (hid : idTombstone st a.event = none) (haddr : blockingAddress st a.event = none) :
    Current kind kind5.pubkey d (step st a) (compete content cell a.event) := by
  rw [handler_of_version c he hadm hid haddr]
  unfold handleSupersession
  rw [cleared_events]
  split
  · next hmem =>
    -- the id is stored already, so it is the cell's and does not outrank itself
    obtain ⟨row, hrow⟩ := (mem_iff_lookup _ _).mp hmem
    have hbody := (hrows _ _ hrow).2
    have hversion : Version kind kind5.pubkey d row.raw := by
      rw [← version_unsigned, ← hbody, hcontent]
      exact he
    have hcell : cell = some a.event.id := (hcur a.event.id).mp ⟨row, hrow, hversion⟩
    have hsame : compete content cell a.event = cell := by
      rw [hcell, compete, hcontent, outranks_unsigned, not_outranks_self]
      rfl
    rw [hsame]
    intro id
    rw [(redeliver_rows _ _ _ _).1, cleared_events]
    exact hcur id
  · next hmem =>
    split
    · next hnewest =>
      have hnone : cell = none := by
        cases hcell : cell with
        | none => rfl
        | some m =>
          obtain ⟨row, hrow, hv⟩ := (hcur m).mpr hcell
          have hx : (⟨m, row⟩ : Entry) ∈ competitors (cleared st a.event) a.event
              (versionFilter a.event) :=
            (competitors_of_version c he _ _).mpr ⟨by rw [cleared_events]; exact hrow, hv⟩
          rw [newestEntry_eq_none hnewest] at hx
          cases hx
      subst hnone
      intro id
      rw [(insertSearchable_rows _ _ _ _).1, lookup_storeRow, cleared_events]
      constructor
      · rintro ⟨row, hrow, hv⟩
        by_cases heq : id = a.event.id
        · exact congrArg some heq.symm
        · rw [if_neg heq] at hrow
          cases (hcur id).mp ⟨row, hrow, hv⟩
      · intro h
        cases h
        exact ⟨_, if_pos rfl, he⟩
    · next hex existing hnewest =>
      obtain ⟨hrow, hv⟩ := (competitors_of_version c he _ _).mp (newestEntry_mem hnewest)
      dsimp only at hrow hv
      rw [cleared_events] at hrow
      have hcell : cell = some hex := (hcur hex).mp ⟨existing, hrow, hv⟩
      have hrank : a.event.outranks (content hex) = a.event.outranks existing.raw := by
        rw [(hrows hex existing hrow).2, outranks_unsigned]
      subst hcell
      rw [compete, hrank]
      dsimp only
      split
      · intro id
        rw [(replaced_rows _ _ _ _ _ _).1, lookup_storeRow, removeRow_events,
          lookup_erase_eq, cleared_events]
        constructor
        · rintro ⟨row, hrow', hv'⟩
          by_cases heq : id = a.event.id
          · exact congrArg some heq.symm
          · rw [if_neg heq] at hrow'
            by_cases hhex : id = hex
            · rw [if_pos hhex] at hrow'; cases hrow'
            · rw [if_neg hhex] at hrow'
              have hother := (hcur id).mp ⟨row, hrow', hv'⟩
              cases hother
              exact absurd rfl hhex
        · intro h
          cases h
          exact ⟨_, if_pos rfl, he⟩
      · intro id
        rw [cleared_events]
        exact hcur id

/-- A version changes no row that is not a version. -/
theorem other_rows_step (c : Case kind5 kind d versions) (he : Version kind kind5.pubkey d a.event)
    (hadm : Admitted a) (hrow : ¬ Version kind kind5.pubkey d row.raw) :
    (step st a).events.lookup id = some row ↔ st.events.lookup id = some row := by
  by_cases hclosed : idTombstone st a.event ≠ none ∨ blockingAddress st a.event ≠ none
  · rw [(step_closed hclosed).1]
  · rw [not_or, not_not, not_not] at hclosed
    rw [handler_of_version c he hadm hclosed.1 hclosed.2]
    have hstored : ∀ base : MemState, (∀ r, base.events.lookup id = some r → id = a.event.id → False) →
        ((storeRow base a.event a.source a.receivedAtMs).events.lookup id = some row ↔
          base.events.lookup id = some row) := by
      intro base hfresh
      rw [lookup_storeRow]
      by_cases heq : id = a.event.id
      · rw [if_pos heq]
        constructor
        · intro h
          cases h
          exact absurd he hrow
        · intro h
          exact absurd heq (hfresh row h)
      · rw [if_neg heq]
    unfold handleSupersession
    rw [cleared_events]
    split
    · rw [(redeliver_rows _ _ _ _).1, cleared_events]
    · next hmem =>
      have hfresh : ∀ r, st.events.lookup id = some r → id = a.event.id → False := by
        rintro r hr rfl
        exact hmem ((mem_iff_lookup _ _).mpr ⟨r, hr⟩)
      split
      · rw [(insertSearchable_rows _ _ _ _).1, hstored _ (by rwa [cleared_events]), cleared_events]
      · next hex existing hnewest =>
        obtain ⟨hexrow, hv⟩ := (competitors_of_version c he _ _).mp (newestEntry_mem hnewest)
        dsimp only at hexrow hv
        rw [cleared_events] at hexrow
        dsimp only
        split
        · rw [(replaced_rows _ _ _ _ _ _).1, hstored, removeRow_events, lookup_erase_eq,
            cleared_events]
          · by_cases heq : id = hex
            · subst heq
              rw [if_pos rfl, hexrow]
              constructor
              · intro h; cases h
              · intro h
                cases h
                exact absurd hv hrow
            · rw [if_neg heq]
          · intro r hr
            rw [removeRow_events, lookup_erase_eq, cleared_events] at hr
            by_cases heq : id = hex
            · rw [if_pos heq] at hr; cases hr
            · rw [if_neg heq] at hr
              exact hfresh r hr
        · rw [cleared_events]

theorem current_step_closed {pubkey : String} (hcur : Current kind pubkey d st cell)
    (h : idTombstone st a.event ≠ none ∨ blockingAddress st a.event ≠ none) :
    Current kind pubkey d (step st a) cell := by
  intro id
  rw [(step_closed h).1]
  exact hcur id

/-- The deletion and the versions, by id: rows, the cell, and what the deletion has left. -/
structure Track (kind5 : RawEvent) (kind : Nat) (d : String) (versions : List RawEvent)
    (content : String → RawEvent) (st : MemState) (cell : Option String) : Prop where
  rows : RowsOf content st
  known : ∀ id, id ∈ st.events → ∃ e ∈ kind5 :: versions, e.id = id
  current : Current kind kind5.pubkey d st cell
  slots : ∀ id owner, slot st id = some owner →
    kind5.id ∈ st.events ∧ owner = kind5Owner kind5 ∧
      (id ∈ kind5.eTags ∨ (content id).createdAt ≤ kind5.createdAt)
  deadlines : ∀ key time, deadline st key = some time →
    kind5.id ∈ st.events ∧ time = kind5.createdAt ∧ key ∈ kind5.aTags
  filed : kind5.id ∈ st.events → ∀ key ∈ kind5.aTags, (addrTarget kind5 key).isSome →
    deadline st key = some kind5.createdAt

theorem track_new : Track kind5 kind d versions content .new none where
  rows := fun id row h => by cases h
  known := fun id h => by simp [MemState.new] at h
  current := fun id => ⟨fun ⟨row, h, _⟩ => (by cases h), fun h => by cases h⟩
  slots := fun id owner h => by cases h
  deadlines := fun key time h => by cases h
  filed := fun h => by simp [MemState.new] at h

theorem kind5_not_version (c : Case kind5 kind d versions) (h : e.kind = 5) :
    ¬ Version kind kind5.pubkey d e := fun hv => kind_ne_five c (hv.2.1.symm.trans h)

/-- A version neither stores nor removes the deletion. -/
theorem fired_version (c : Case kind5 kind d versions)
    (hcontent : ∀ e ∈ kind5 :: versions, content e.id = unsigned e)
    (h : Track kind5 kind d versions content st cell) (he : a.event ∈ versions) (hadm : Admitted a)
    :
    kind5.id ∈ (step st a).events ↔ kind5.id ∈ st.events := by
  have hv := c.version _ he
  have hid : kind5.id ≠ a.event.id := by
    intro heq
    have hbody := c.ids kind5 List.mem_cons_self a.event (List.mem_cons_of_mem _ he) heq
    exact kind5_not_version c ((congrArg (fun e => e.kind) hbody).symm.trans c.isKind5) hv
  have hkind : ∀ row, st.events.lookup kind5.id = some row →
      ¬ Version kind kind5.pubkey d row.raw := by
    intro row hrow
    have hbody := (h.rows _ row hrow).2
    rw [hcontent kind5 List.mem_cons_self] at hbody
    exact kind5_not_version c ((congrArg (fun e => e.kind) hbody).symm.trans c.isKind5)
  rw [mem_iff_lookup, mem_iff_lookup]
  constructor
  · rintro ⟨row, hrow⟩
    rcases step_row st a kind5.id with heq | ⟨-, heq⟩ | ⟨heq, -⟩
    · exact ⟨row, heq ▸ hrow⟩
    · rw [heq] at hrow; cases hrow
    · exact absurd heq hid
  · rintro ⟨row, hrow⟩
    exact ⟨row, (other_rows_step c hv hadm (hkind row hrow)).mpr hrow⟩

/-- Rows, cell and tombstones after a version, whatever becomes of the cell. -/
theorem track_version (c : Case kind5 kind d versions)
    (hcontent : ∀ e ∈ kind5 :: versions, content e.id = unsigned e) {cell cell' : Option String}
    (h : Track kind5 kind d versions content st cell) (he : a.event ∈ versions) (hadm : Admitted a)
    (hcur : Current kind kind5.pubkey d (step st a) cell') :
    Track kind5 kind d versions content (step st a) cell' := by
  have hv := c.version _ he
  have hne : a.event.kind ≠ 5 := by rw [hv.2.1]; exact kind_ne_five c
  obtain ⟨haddrs, hslots, hown⟩ := step_regular_tombstones st hne
  have hfired := fired_version c hcontent h he hadm
  have hdead : ∀ key, deadline (step st a) key = deadline st key := fun key => by
    rw [deadline, haddrs, deadline]
  constructor
  · intro id row hrow
    rcases step_row st a id with heq | ⟨-, heq⟩ | ⟨hid, -, -, heq⟩
    · exact h.rows id row (heq ▸ hrow)
    · rw [heq] at hrow; cases hrow
    · rw [heq] at hrow
      cases hrow
      exact ⟨hid.symm, hid ▸ hcontent _ (List.mem_cons_of_mem _ he)⟩
  · intro id hid
    obtain ⟨row, hrow⟩ := (mem_iff_lookup _ _).mp hid
    rcases step_row st a id with heq | ⟨-, heq⟩ | ⟨hid, -⟩
    · exact h.known id ((mem_iff_lookup _ _).mpr ⟨row, heq ▸ hrow⟩)
    · rw [heq] at hrow; cases hrow
    · exact ⟨a.event, List.mem_cons_of_mem _ he, hid.symm⟩
  · exact hcur
  · intro id owner hslot
    rw [hfired]
    by_cases hid : id = a.event.id
    · subst hid
      rcases hown with heq | heq
      · exact h.slots _ owner (heq ▸ hslot)
      · rw [heq] at hslot; cases hslot
    · exact h.slots id owner (hslots id hid ▸ hslot)
  · intro key time hkey
    rw [hfired]
    exact h.deadlines key time (hdead key ▸ hkey)
  · intro hfire key hkey hsome
    rw [hdead]
    exact h.filed (hfired.mp hfire) key hkey hsome

/-- The deletion removes a stored version when it names its id or is not older. -/
theorem deletes_version (c : Case kind5 kind d versions) (hv : Version kind kind5.pubkey d row.raw)
    :
    deletes kind5 id row = true ↔ id ∈ kind5.eTags ∨ row.raw.createdAt ≤ kind5.createdAt := by
  have hsmall : kind % 2 ^ 16 = kind := by
    refine Nat.mod_eq_of_lt ?_
    rcases c.coordinateKind with h | h <;>
      simp only [isReplaceableKind, isAddressableKind, Bool.or_eq_true, beq_iff_eq,
        Bool.and_eq_true, decide_eq_true_eq] at h <;> omega
  unfold deletes
  rw [Bool.or_eq_true, List.any_eq_true, List.any_eq_true]
  constructor
  · rintro (⟨hex, hmem, hhit⟩ | ⟨addr, -, hhit⟩)
    · simp only [idTagHits, Bool.and_eq_true, beq_iff_eq] at hhit
      exact .inl (hhit.1 ▸ hmem)
    · unfold addrTagHits at hhit
      split at hhit
      · simp only [coordinateHit, Bool.and_eq_true, decide_eq_true_eq] at hhit
        exact .inr hhit.1.2
      · cases hhit
  · rintro (hmem | hle)
    · exact .inl ⟨id, hmem, by simp [idTagHits, hv.1]⟩
    · obtain ⟨addr, hmem, htarget⟩ := c.named
      refine .inr ⟨addr, hmem, ?_⟩
      simp only [addrTagHits, htarget, coordinateHit, hsmall, hv.1, hv.2.1, hle, beq_self_eq_true,
        decide_true, Bool.and_self, Bool.true_and]
      rcases addressable_or_replaceable c with ⟨ha, hr⟩ | ⟨ha, hr⟩
      · simp [ha, hv.2.2 ha]
      · simp [ha, hr]

/-- Any hit of the deletion is by id or on an event that is not newer. -/
theorem deletes_le (h : deletes kind5 id row = true) :
    id ∈ kind5.eTags ∨ row.raw.createdAt ≤ kind5.createdAt := by
  unfold deletes at h
  rw [Bool.or_eq_true, List.any_eq_true, List.any_eq_true] at h
  rcases h with ⟨hex, hmem, hhit⟩ | ⟨addr, -, hhit⟩
  · simp only [idTagHits, Bool.and_eq_true, beq_iff_eq] at hhit
    exact .inl (hhit.1 ▸ hmem)
  · unfold addrTagHits at hhit
    split at hhit
    · simp only [coordinateHit, Bool.and_eq_true, decide_eq_true_eq] at hhit
      exact .inr hhit.1.2
    · cases hhit

/-- The cell after the deletion: emptied when it holds an old version or one named by id. -/
def empty (content : String → RawEvent) (kind5 : RawEvent) (cell : Option String) : Option String :=
  cell.filter fun m => decide (m ∉ kind5.eTags) && decide (kind5.createdAt < (content m).createdAt)

/-- A deletion that is stored already changes nothing that is tracked. -/
theorem track_again (c : Case kind5 kind d versions)
    (h : Track kind5 kind d versions content st cell) (ha : a.event = kind5)
    (hfired : kind5.id ∈ st.events) : Track kind5 kind d versions content (step st a) cell := by
  subst ha
  obtain ⟨hevents, haddrs, hother, hown⟩ := step_kind5_again c.isKind5 hfired
  have hdead : ∀ key, deadline (step st a) key = deadline st key := fun key => by
    rw [deadline, haddrs, deadline]
  constructor
  · rw [RowsOf, hevents]; exact h.rows
  · rw [hevents]; exact h.known
  · rw [Current, hevents]; exact h.current
  · intro id owner hslot
    rw [hevents]
    by_cases hid : id = a.event.id
    · subst hid
      rcases hown with heq | heq
      · exact h.slots _ owner (heq ▸ hslot)
      · rw [heq] at hslot; cases hslot
    · exact h.slots id owner (hother id hid ▸ hslot)
  · intro key time hkey
    rw [hevents]
    exact h.deadlines key time (hdead key ▸ hkey)
  · intro hfire key hkey hsome
    rw [hdead]
    exact h.filed hfired key hkey hsome

theorem idTombstone_of_no_slot (h : slot st e.id = none) : idTombstone st e = none :=
  (idTombstone_eq_none_iff st e).mpr fun owner hslot => by rw [h] at hslot; cases hslot

theorem Track.no_slot (h : Track kind5 kind d versions content st cell)
    (hnew : kind5.id ∉ st.events) (id : String) : slot st id = none := by
  cases hslot : slot st id with
  | none => rfl
  | some owner => exact absurd (h.slots id owner hslot).1 hnew

theorem Track.no_deadline (h : Track kind5 kind d versions content st cell)
    (hnew : kind5.id ∉ st.events) (key : String) : deadline st key = none := by
  cases hdead : deadline st key with
  | none => rfl
  | some time => exact absurd (h.deadlines key time hdead).1 hnew

/-- The first arrival of the deletion empties the cell, fires, and marks every id it names. -/
theorem track_first (c : Case kind5 kind d versions)
    (hcontent : ∀ e ∈ kind5 :: versions, content e.id = unsigned e)
    (h : Track kind5 kind d versions content st cell) (ha : a.event = kind5) (hadm : Admitted a)
    (hnew : kind5.id ∉ st.events) :
    Track kind5 kind d versions content (step st a) (empty content kind5 cell) ∧
      isInserted (outcome st a) = true ∧ kind5.id ∈ (step st a).events ∧
      ∀ id, st.events.lookup id = none →
        slot (step st a) id = if pends kind5 id then some (kind5Owner kind5) else none := by
  subst ha
  have hfree := h.no_slot hnew
  obtain ⟨⟨n, hout⟩, hrow, hslot, hdead⟩ :=
    step_kind5_new c.isKind5 hadm hnew (idTombstone_of_no_slot (hfree _))
  have hcleared : ∀ id, view (cleared st a.event) id = (st.events.lookup id, none) := by
    intro id
    by_cases hid : id = a.event.id
    · rw [hid, view, slot_cleared_self, cleared_events]
    · rw [view, slot_cleared_other _ _ hid, cleared_events, hfree]
  have hfired : a.event.id ∈ (step st a).events :=
    (mem_iff_lookup _ _).mpr ⟨_, by rw [hrow, if_pos rfl]⟩
  refine ⟨⟨?_, ?_, ?_, ?_, ?_, ?_⟩, (isInserted_iff _).mpr ⟨_, n, hout⟩, hfired, ?_⟩
  · intro id row hid
    rcases step_row st a id with heq | ⟨-, heq⟩ | ⟨hown, -, -, heq⟩
    · exact h.rows id row (heq ▸ hid)
    · rw [heq] at hid; cases hid
    · rw [heq] at hid
      cases hid
      exact ⟨hown.symm, hown ▸ hcontent _ List.mem_cons_self⟩
  · intro id hid
    obtain ⟨row, hrow'⟩ := (mem_iff_lookup _ _).mp hid
    rcases step_row st a id with heq | ⟨-, heq⟩ | ⟨hown, -⟩
    · exact h.known id ((mem_iff_lookup _ _).mpr ⟨row, heq ▸ hrow'⟩)
    · rw [heq] at hrow'; cases hrow'
    · exact ⟨a.event, List.mem_cons_self, hown.symm⟩
  · intro id
    unfold empty
    rw [Option.filter_eq_some_iff, ← h.current id, hrow]
    by_cases hid : id = a.event.id
    · rw [if_pos hid]
      constructor
      · rintro ⟨row, hr, hv⟩
        cases hr
        exact absurd hv (kind5_not_version c c.isKind5)
      · rintro ⟨⟨row, hr, -⟩, -⟩
        exact absurd ((mem_iff_lookup _ _).mpr ⟨row, hid ▸ hr⟩) hnew
    · rw [if_neg hid]
      constructor
      · rintro ⟨row, hr, hv⟩
        rw [Option.filter_eq_some_iff] at hr
        obtain ⟨hr, hkeep⟩ := hr
        refine ⟨⟨row, hr, hv⟩, ?_⟩
        rw [Bool.not_eq_true', Bool.eq_false_iff, ne_eq, deletes_version c hv, not_or,
          not_le] at hkeep
        have htime : (content id).createdAt = row.raw.createdAt := by rw [(h.rows id row hr).2]; rfl
        simp [hkeep.1, htime, hkeep.2]
      · rintro ⟨⟨row, hr, hv⟩, hkeep⟩
        have htime : (content id).createdAt = row.raw.createdAt := by rw [(h.rows id row hr).2]; rfl
        rw [Bool.and_eq_true, decide_eq_true_eq, decide_eq_true_eq, htime] at hkeep
        refine ⟨row, Option.filter_eq_some_iff.mpr ⟨hr, ?_⟩, hv⟩
        rw [Bool.not_eq_true', Bool.eq_false_iff, ne_eq, deletes_version c hv, not_or, not_le]
        exact hkeep
  · intro id owner hown
    rw [hslot, hcleared] at hown
    simp only [mark, Option.none_or] at hown
    split at hown
    · next hclaim =>
      cases hown
      refine ⟨hfired, rfl, ?_⟩
      cases hr : st.events.lookup id with
      | none =>
        rw [hr] at hclaim
        exact .inl ((pends_iff _ _).mp (by simpa using hclaim)).1
      | some row =>
        rw [hr] at hclaim
        rw [(h.rows id row hr).2]
        exact deletes_le (by simpa using hclaim)
    · cases hown
  · intro key time hkey
    rw [hdead, h.no_deadline hnew] at hkey
    split at hkey
    · next hin =>
      rw [raise, Option.getD_none, Option.some.injEq, Nat.zero_max] at hkey
      exact ⟨hfired, hkey.symm, hin.1⟩
    · cases hkey
  · intro _ key hkey hsome
    rw [hdead, if_pos ⟨hkey, hsome⟩, h.no_deadline hnew, raise, Option.getD_none, Nat.zero_max]
  · intro id hnone
    rw [hslot, hcleared, hnone]
    simp [mark]

/-- An admitted arrival of the deletion or of a version. -/
def Member (kind5 : RawEvent) (versions : List RawEvent) (a : Arrival) : Prop :=
  Admitted a ∧ (a.event = kind5 ∨ a.event ∈ versions)

/-- A tombstone blocks the event. -/
def Blocked (st : MemState) (e : RawEvent) : Prop :=
  idTombstone st e ≠ none ∨ blockingAddress st e ≠ none

/-- What one arrival does to the cell. -/
inductive Move (content : String → RawEvent) (kind5 : RawEvent) (versions : List RawEvent)
    (st : MemState) (e : RawEvent) (cell : Option String) : Option String → Prop where
  | again : e = kind5 → kind5.id ∈ st.events → Move content kind5 versions st e cell cell
  | first : e = kind5 → kind5.id ∉ st.events →
      Move content kind5 versions st e cell (empty content kind5 cell)
  | blocked : e ∈ versions → Blocked st e → Move content kind5 versions st e cell cell
  | compete : e ∈ versions → ¬ Blocked st e →
      Move content kind5 versions st e cell (compete content cell e)

section

variable (c : Case kind5 kind d versions)
  (hcontent : ∀ e ∈ kind5 :: versions, content e.id = unsigned e)
include c hcontent

theorem track_step (h : Track kind5 kind d versions content st cell) (ha : Member kind5 versions a)
    :
    ∃ cell', Track kind5 kind d versions content (step st a) cell' ∧
      Move content kind5 versions st a.event cell cell' := by
  obtain ⟨hadm, heq | he⟩ := ha
  · by_cases hfired : kind5.id ∈ st.events
    · exact ⟨cell, track_again c h heq hfired, .again heq hfired⟩
    · exact ⟨_, (track_first c hcontent h heq hadm hfired).1, .first heq hfired⟩
  · by_cases hblocked : Blocked st a.event
    · exact ⟨cell, track_version c hcontent h he hadm (current_step_closed h.current hblocked),
        .blocked he hblocked⟩
    · have hopen := hblocked
      rw [Blocked, not_or, not_not, not_not] at hopen
      exact ⟨_, track_version c hcontent h he hadm
        (current_step_open c h.rows h.current (c.version _ he)
          (hcontent _ (List.mem_cons_of_mem _ he)) hadm hopen.1 hopen.2), .compete he hblocked⟩

theorem fired_step (h : Track kind5 kind d versions content st cell) (ha : Member kind5 versions a)
    (hfired : kind5.id ∈ st.events ∨ a.event = kind5) : kind5.id ∈ (step st a).events := by
  obtain ⟨hadm, heq | he⟩ := ha
  · by_cases hst : kind5.id ∈ st.events
    · have hevents := (step_kind5_again (heq.symm ▸ c.isKind5) (heq.symm ▸ hst)).1
      rwa [hevents]
    · exact (track_first c hcontent h heq hadm hst).2.2.1
  · refine (fired_version c hcontent h he hadm).mpr (hfired.resolve_right fun heq => ?_)
    exact kind5_not_version c (heq ▸ c.isKind5) (c.version _ he)

/-- An invariant of state and cell that every move keeps holds after a run. -/
theorem track_run (inv : MemState → Option String → Prop) (arrivals : List Arrival)
    (keep : ∀ st a cell cell', Track kind5 kind d versions content st cell → a ∈ arrivals → Move content kind5 versions st a.event cell cell' → Track kind5 kind d versions content (step st a) cell' → inv st cell → inv (step st a) cell')
    (h : Track kind5 kind d versions content st cell) (hinv : inv st cell)
    (hmem : ∀ a ∈ arrivals, Member kind5 versions a) :
    ∃ cell', Track kind5 kind d versions content (run step st arrivals) cell' ∧
      inv (run step st arrivals) cell' := by
  induction arrivals generalizing st cell with
  | nil => exact ⟨cell, h, hinv⟩
  | cons a as ih =>
    have ha : a ∈ a :: as := List.mem_cons_self
    obtain ⟨cell', htrack, hmove⟩ := track_step c hcontent h (hmem a ha)
    exact ih (fun st b cell cell' htr hb => keep st b cell cell' htr (List.mem_cons_of_mem _ hb))
      htrack (keep st a cell cell' h ha hmove htrack hinv) fun b hb => hmem b (List.mem_cons_of_mem _ hb)

/-- A run of arrivals is tracked by some cell. -/
theorem track_exists (arrivals : List Arrival) (hmem : ∀ a ∈ arrivals, Member kind5 versions a) :
    ∃ cell, Track kind5 kind d versions content (stateAfter arrivals) cell := by
  obtain ⟨cell, htrack, -⟩ := track_run c hcontent (fun _ _ => True) arrivals
    (fun _ _ _ _ _ _ _ _ _ => trivial) track_new trivial hmem
  exact ⟨cell, htrack⟩

/-- The id in the cell is a version's, and its row is stored. -/
theorem Track.cell_version {m : String} (h : Track kind5 kind d versions content st (some m)) :
    ∃ v ∈ versions, v.id = m ∧ content m = unsigned v ∧ m ∈ st.events := by
  obtain ⟨row, hrow, hv⟩ := (h.current m).mpr rfl
  have hmem : m ∈ st.events := (mem_iff_lookup _ _).mpr ⟨row, hrow⟩
  obtain ⟨e, he, rfl⟩ := h.known m hmem
  have hbody := (h.rows _ row hrow).2
  rw [hcontent e he] at hbody
  rcases List.mem_cons.mp he with rfl | he
  · exact absurd hv (kind5_not_version c ((congrArg (fun e => e.kind) hbody).symm.trans c.isKind5))
  · exact ⟨e, he, rfl, hcontent e (List.mem_cons_of_mem _ he), hmem⟩

/-- A stored version is the one in the cell. -/
theorem Track.cell_of_stored (h : Track kind5 kind d versions content st cell) (hv : v ∈ versions)
    (hmem : v.id ∈ st.events) : cell = some v.id := by
  obtain ⟨row, hrow⟩ := (mem_iff_lookup _ _).mp hmem
  refine (h.current v.id).mp ⟨row, hrow, ?_⟩
  have hbody := (h.rows _ row hrow).2
  rw [hcontent v (List.mem_cons_of_mem _ hv)] at hbody
  rw [← version_unsigned, ← hbody]
  exact c.version v hv

end

theorem old_blocked_when_filed (c : Case kind5 kind d versions)
    (hfiled : FiledForLateVersions kind5 kind d) (h : Track kind5 kind d versions content st cell)
    (hfired : kind5.id ∈ st.events) (he : e ∈ versions) (hold : e.createdAt ≤ kind5.createdAt) :
    Blocked st e := by
  obtain ⟨hpk, hkind, hd⟩ := c.version e he
  obtain ⟨haddr, hmem⟩ := hfiled
  refine .inr fun hnone => ?_
  have htarget : (addrTarget kind5 (addrKey (toString kind) kind5.pubkey d)).isSome := by
    have hsmall : kind < 2 ^ 32 := by
      simp only [isAddressableKind, Bool.and_eq_true, decide_eq_true_eq] at haddr
      omega
    have hcolon : ':' ∉ kind5.pubkey.toList := by
      obtain ⟨addr, -, hnamed⟩ := c.named
      unfold addrTarget at hnamed
      rw [Option.bind_eq_some_iff] at hnamed
      obtain ⟨p, hsplit, hp⟩ := hnamed
      split at hp
      · next heq => exact heq ▸ splitAddr_pubkey hsplit
      · cases hp
    have hparse : parseU32 (toString kind) = some kind := parseUInt_toString 32 kind hsmall
    rw [addrTarget, splitAddr_addrKey _ _ _ (colon_notMem_toString kind) hcolon, Option.bind_some,
      if_pos rfl, hparse]
    rfl
  have hparam : e.isParamReplaceable = true := by
    rw [isParamReplaceable, hkind]
    exact haddr
  have hlt := (blockingAddress_eq_none_iff st e).mp hnone hparam d (hd haddr) kind5.createdAt
    (by rw [hkind, hpk]; exact h.filed hfired _ hmem htarget)
  omega

/-- Once the deletion has arrived, it stays stored. -/
theorem fired_stateAfter (c : Case kind5 kind d versions)
    (hcontent : ∀ e ∈ kind5 :: versions, content e.id = unsigned e) {arrivals : List Arrival}
    (hmem : ∀ a ∈ arrivals, Member kind5 versions a) (harrives : ∃ a ∈ arrivals, a.event = kind5) :
    kind5.id ∈ (stateAfter arrivals).events := by
  obtain ⟨a, ha, heq⟩ := harrives
  obtain ⟨pre, post, rfl⟩ := List.append_of_mem ha
  obtain ⟨cell₁, htrack₁⟩ := track_exists c hcontent pre fun b hb => hmem b (by simp [hb])
  obtain ⟨cell₂, htrack₂, -⟩ := track_step c hcontent htrack₁ (hmem a ha)
  have hpost : ∀ b ∈ post, Member kind5 versions b := fun b hb => hmem b (by simp [hb])
  obtain ⟨-, -, hlast⟩ := track_run c hcontent (fun st _ => kind5.id ∈ st.events) post
    (fun st b cell _ htr hb _ _ hst => fired_step c hcontent htr (hpost b hb) (.inl hst)) htrack₂
    (fired_step c hcontent htrack₁ (hmem a ha) (.inr heq)) hpost
  rw [stateAfter, run_append, run_cons]
  exact hlast

/-- Once the deletion has arrived under a filed address, the cell holds no old version. -/
theorem filed_deletes (c : Case kind5 kind d versions)
    (hcontent : ∀ e ∈ kind5 :: versions, content e.id = unsigned e)
    (hfiled : FiledForLateVersions kind5 kind d) {arrivals : List Arrival}
    (hmem : ∀ a ∈ arrivals, Member kind5 versions a) (harrives : ∃ a ∈ arrivals, a.event = kind5) :
    DeletesOld kind5 versions arrivals := by
  have hinv := track_run c hcontent (fun st cell => kind5.id ∈ st.events →
      ∀ m, cell = some m → kind5.createdAt < (content m).createdAt) arrivals ?_ track_new
    (fun h => by simp [MemState.new] at h) hmem
  · obtain ⟨cell, htrack, hnew⟩ := hinv
    have hfired := fired_stateAfter c hcontent hmem harrives
    intro v hv hold hstored
    have hcell := htrack.cell_of_stored c hcontent hv hstored
    have hlt := hnew hfired v.id hcell
    rw [hcontent v (List.mem_cons_of_mem _ hv), unsigned_createdAt] at hlt
    omega
  · intro st a cell cell' htr ha hmove htr' hkeep hfired m hm
    cases hmove with
    | again _ hst => exact hkeep hst m hm
    | first =>
      rw [empty, Option.filter_eq_some_iff] at hm
      simpa using (Bool.and_eq_true_iff.mp hm.2).2
    | blocked he => exact hkeep ((fired_version c hcontent htr he (hmem a ha).1).mp hfired) m hm
    | compete he hb =>
      have hst := (fired_version c hcontent htr he (hmem a ha).1).mp hfired
      have hnew : kind5.createdAt < a.event.createdAt := by
        by_contra hle
        exact hb (old_blocked_when_filed c hfiled htr hst he (not_lt.mp hle))
      have hown : kind5.createdAt < (content a.event.id).createdAt := by
        rwa [hcontent _ (List.mem_cons_of_mem _ he)]
      unfold StoreCoordinate.compete at hm
      split at hm
      · cases hm; exact hown
      · split at hm <;> cases hm
        · exact hown
        · exact hkeep hst _ rfl

/-- A version that is not old and not named by id is never blocked. -/
theorem new_not_blocked (hcontent : ∀ e ∈ kind5 :: versions, content e.id = unsigned e)
    (h : Track kind5 kind d versions content st cell) (hn : n ∈ versions)
    (hnew : kind5.createdAt < n.createdAt) (hname : n.id ∉ kind5.eTags) : ¬ Blocked st n := by
  rintro (hid | haddr)
  · refine hid (idTombstone_of_no_slot ?_)
    cases hslot : slot st n.id with
    | none => rfl
    | some owner =>
      rcases (h.slots _ owner hslot).2.2 with hmem | hle
      · exact absurd hmem hname
      · rw [hcontent n (List.mem_cons_of_mem _ hn), unsigned_createdAt] at hle
        omega
  · refine haddr ((blockingAddress_eq_none_iff st n).mpr fun _ d' _ time htime => ?_)
    rw [(h.deadlines _ time htime).2.1]
    exact hnew

theorem outranks_total {a b : RawEvent} (hne : a.id ≠ b.id) (h : b.outranks a = false) :
    a.outranks b = true := by
  simp only [outranks, Bool.or_eq_true, Bool.or_eq_false_iff, Bool.and_eq_true,
    Bool.and_eq_false_iff, decide_eq_true_eq, decide_eq_false_iff_not, beq_iff_eq,
    beq_eq_false_iff_ne] at *
  rcases lt_trichotomy b.createdAt a.createdAt with hlt | heq | hlt
  · exact .inl hlt
  · refine .inr ⟨heq.symm, ?_⟩
    rcases h.2 with h | h
    · exact absurd heq h
    · exact lt_of_le_of_ne (not_lt.mp h) hne
  · exact absurd hlt h.1

theorem outranks_trans {a b c : RawEvent} (hab : a.outranks b = true) (hbc : b.outranks c = true) :
    a.outranks c = true := by
  simp only [outranks, Bool.or_eq_true, Bool.and_eq_true, decide_eq_true_eq,
    beq_iff_eq] at *
  rcases hab with hab | ⟨hab, hid⟩ <;> rcases hbc with hbc | ⟨hbc, hid'⟩
  · exact .inl (by omega)
  · exact .inl (by omega)
  · exact .inl (by omega)
  · exact .inr ⟨by omega, hid.trans hid'⟩

/-- The newest version takes the cell from any other. -/
theorem compete_newest (hcontent : ∀ e ∈ kind5 :: versions, content e.id = unsigned e)
    (hn : Newest versions n) (hcell : ∀ m, cell = some m → ∃ v ∈ versions, v.id = m) :
    compete content cell n = some n.id := by
  cases cell with
  | none => rfl
  | some m =>
    obtain ⟨v, hv, rfl⟩ := hcell m rfl
    rw [compete, hcontent v (List.mem_cons_of_mem _ hv), outranks_unsigned]
    by_cases heq : n.id = v.id
    · rw [heq]; split <;> rfl
    · rw [if_pos (outranks_total heq (hn.2 v hv))]

/-- From the arrival of the newest version on, the cell holds it, if it is later than the
deletion and not named by id. -/
theorem newest_in_cell (c : Case kind5 kind d versions)
    (hcontent : ∀ e ∈ kind5 :: versions, content e.id = unsigned e) (hn : Newest versions n)
    (hnew : kind5.createdAt < n.createdAt) (hname : n.id ∉ kind5.eTags) {arrivals : List Arrival}
    (hmem : ∀ a ∈ arrivals, Member kind5 versions a) (harrives : ∃ a ∈ arrivals, a.event = n) :
    Track kind5 kind d versions content (stateAfter arrivals) (some n.id) := by
  obtain ⟨a, ha, rfl⟩ := harrives
  obtain ⟨pre, post, rfl⟩ := List.append_of_mem ha
  obtain ⟨cell₁, htrack₁⟩ := track_exists c hcontent pre fun b hb => hmem b (by simp [hb])
  have hopen := new_not_blocked hcontent htrack₁ hn.1 hnew hname
  have hopen' := hopen
  rw [Blocked, not_or, not_not, not_not] at hopen'
  have hcur := current_step_open c htrack₁.rows htrack₁.current (c.version _ hn.1)
    (hcontent _ (List.mem_cons_of_mem _ hn.1)) (hmem a ha).1 hopen'.1 hopen'.2
  have hwins : compete content cell₁ a.event = some a.event.id := by
    refine compete_newest hcontent hn fun m hm => ?_
    subst hm
    obtain ⟨v, hv, hid, -⟩ := htrack₁.cell_version c hcontent
    exact ⟨v, hv, hid⟩
  rw [hwins] at hcur
  have htrack₂ := track_version c hcontent htrack₁ hn.1 (hmem a ha).1 hcur
  have hlast := track_run c hcontent (fun _ cell => cell = some a.event.id) post ?_ htrack₂ rfl
    fun b hb => hmem b (by simp [hb])
  · obtain ⟨cell₃, htrack₃, rfl⟩ := hlast
    rw [stateAfter, run_append, run_cons]
    exact htrack₃
  · rintro st b cell cell' htr hb hmove htr' rfl
    have hbody := hcontent _ (List.mem_cons_of_mem _ hn.1)
    cases hmove with
    | again | blocked => rfl
    | first => simp [empty, Option.filter_some, hname, hbody, hnew]
    | compete he =>
      rw [StoreCoordinate.compete, hbody, outranks_unsigned, hn.2 _ he]
      rfl

/-- A version named by id in lower case is gone once the deletion has arrived. -/
theorem named_deleted (c : Case kind5 kind d versions)
    (hcontent : ∀ e ∈ kind5 :: versions, content e.id = unsigned e) (hv : v ∈ versions)
    (hname : v.id ∈ kind5.eTags) (hlower : LowerHex kind5.pubkey) {arrivals : List Arrival}
    (hmem : ∀ a ∈ arrivals, Member kind5 versions a) (harrives : ∃ a ∈ arrivals, a.event = kind5) :
    v.id ∉ (stateAfter arrivals).events := by
  have hvm : v ∈ kind5 :: versions := List.mem_cons_of_mem _ hv
  have hpk : v.pubkey = kind5.pubkey := (c.version v hv).1
  have hid : v.id ≠ kind5.id := by
    intro heq
    have hbody := c.ids v hvm kind5 List.mem_cons_self heq
    exact kind5_not_version c ((congrArg (fun e => e.kind) hbody).trans c.isKind5) (c.version v hv)
  have hver : ∀ b : Arrival, Member kind5 versions b → b.event.id = v.id →
      b.event.pubkey = v.pubkey := by
    rintro b ⟨-, hb⟩ heq
    have hbm : b.event ∈ kind5 :: versions := by
      rcases hb with hb | hb
      · exact hb ▸ List.mem_cons_self
      · exact List.mem_cons_of_mem _ hb
    exact congrArg (fun e => e.pubkey) (c.ids _ hbm v hvm heq)
  have hgone : ∀ {st : MemState} {cell : Option String},
      Track kind5 kind d versions content st cell → (kind5.id ∈ st.events → Gone v st) →
      ∀ a, Member kind5 versions a → kind5.id ∈ st.events ∨ a.event = kind5 → Gone v (step st a) := by
    intro st cell htr hst a ha hor
    by_cases hfired : kind5.id ∈ st.events
    · exact gone_step (hst hfired) (hver a ha)
    · have heq := hor.resolve_left hfired
      have hfirst := track_first c hcontent htr heq ha.1 hfired
      have hown : OwnRow v st := by
        intro row hrow
        have hbody := (htr.rows _ row hrow).2
        rw [hcontent v hvm] at hbody
        exact congrArg (fun e => e.pubkey) hbody.symm
      have hclear : Uncontested v st a := by
        intro _
        have hnone := htr.no_slot hfired v.id
        rw [slot, Option.map_eq_none_iff] at hnone
        rw [hnone]
        rfl
      refine gone_of_accepted ?_ hfirst.2.1 hown hclear (hpk ▸ hlower) ?_ (heq ▸ hid)
      · rw [heq]
        exact ⟨c.isKind5, hpk.symm, hname⟩
      · have hvalid := (c.live v hvm).1
        simp only [isStructurallyValid, Bool.and_eq_true] at hvalid
        exact hvalid.1.2
  obtain ⟨a, ha, heq⟩ := harrives
  obtain ⟨pre, post, rfl⟩ := List.append_of_mem ha
  have hpre : ∀ b ∈ pre, Member kind5 versions b := fun b hb => hmem b (by simp [hb])
  obtain ⟨cell₁, htrack₁, hgone₁⟩ := track_run c hcontent
    (fun st _ => kind5.id ∈ st.events → Gone v st) pre
    (fun st b cell _ htr hb hmove _ hkeep hfired => hgone htr hkeep b (hpre b hb) (by
      cases hmove with
      | again heq => exact .inr heq
      | first heq => exact .inr heq
      | blocked he => exact .inl ((fired_version c hcontent htr he (hpre b hb).1).mp hfired)
      | compete he => exact .inl ((fired_version c hcontent htr he (hpre b hb).1).mp hfired)))
    track_new (fun h => by simp [MemState.new] at h) hpre
  have hfirst := hgone htrack₁ hgone₁ a (hmem a ha) (.inr heq)
  have hrest := meets_of_forall step (fun b => b.event.id = v.id → b.event.pubkey = v.pubkey)
    (step (run step .new pre) a) post fun b hb => hver b (hmem b (by simp [hb]))
  rw [stateAfter, run_append, run_cons]
  exact (lookup_none_iff _ _).mp
    (run_invariant (Gone v) (fun _ _ h hk => gone_step h hk) hfirst hrest).1

/-- An order puts a version behind the deletion only if neither way of blocking applies. -/
theorem late_not_blocked (c : Case kind5 kind d versions)
    (hunfiled : ¬ FiledForLateVersions kind5 kind d)
    (h : Track kind5 kind d versions content st cell) (hv : v ∈ versions)
    (hname : ¬ (v.id ∈ kind5.eTags ∧ LowerHex kind5.pubkey))
    (hslot : slot st v.id = if pends kind5 v.id then some (kind5Owner kind5) else none) :
    ¬ Blocked st v := by
  obtain ⟨hpk, hkind, hd⟩ := c.version v hv
  rintro (hid | haddr)
  · refine hid ((idTombstone_eq_none_iff st v).mpr fun owner howner => ?_)
    rw [hslot] at howner
    split at howner
    · next hpends =>
      cases howner
      have hlower : ¬ LowerHex kind5.pubkey := fun hl => hname ⟨((pends_iff _ _).mp hpends).1, hl⟩
      rw [hpk]
      unfold ownerApplies kind5Owner
      dsimp only
      split
      · next dp hdp =>
        rw [beq_eq_false_iff_ne]
        rintro heq
        exact hlower (by rw [LowerHex, hdp, Option.map_some, heq])
      · rfl
    · cases howner
  · refine haddr ((blockingAddress_eq_none_iff st v).mpr fun hparam d' hd' time htime => ?_)
    have haddressable : isAddressableKind kind = true := by
      rwa [isParamReplaceable, hkind] at hparam
    rw [hd haddressable, Option.some.injEq] at hd'
    subst hd'
    rw [hkind, hpk] at htime
    exact absurd ⟨haddressable, (h.deadlines _ time htime).2.2⟩ hunfiled

/-- The deletion, and then again as often as it comes. -/
theorem track_deletions (c : Case kind5 kind d versions)
    (hcontent : ∀ e ∈ kind5 :: versions, content e.id = unsigned e)
    (h : Track kind5 kind d versions content st cell) (hnew : kind5.id ∉ st.events)
    (ha : a.event = kind5) (hadm : Admitted a) (again : Nat) (hv : v ∈ versions)
    (hrow : st.events.lookup v.id = none) :
    ∃ st', st' = run step st (List.replicate (again + 1) a) ∧
      Track kind5 kind d versions content st' (empty content kind5 cell) ∧
      kind5.id ∈ st'.events ∧ slot st' v.id = if pends kind5 v.id then some (kind5Owner kind5) else none := by
  obtain ⟨htrack, -, hfired, hslot⟩ := track_first c hcontent h ha hadm hnew
  have hid : v.id ≠ kind5.id := by
    intro heq
    have hbody := c.ids v (List.mem_cons_of_mem _ hv) kind5 List.mem_cons_self heq
    exact kind5_not_version c ((congrArg (fun e => e.kind) hbody).trans c.isKind5) (c.version v hv)
  refine ⟨_, rfl, ?_⟩
  rw [List.replicate_succ, run_cons]
  have hagain : ∀ (k : Nat) (st : MemState), Track kind5 kind d versions content st
      (empty content kind5 cell) → kind5.id ∈ st.events →
      Track kind5 kind d versions content (run step st (List.replicate k a))
        (empty content kind5 cell) ∧ kind5.id ∈ (run step st (List.replicate k a)).events ∧
        slot (run step st (List.replicate k a)) v.id = slot st v.id := by
    intro k
    induction k with
    | zero => exact fun st htr hst => ⟨htr, hst, rfl⟩
    | succ k ih =>
      intro st htr hst
      have hstep := step_kind5_again (ha.symm ▸ c.isKind5) (ha.symm ▸ hst)
      obtain ⟨hend, hlast, hsame⟩ := ih (step st a) (track_again c htr ha hst) (by rwa [hstep.1])
      rw [List.replicate_succ, run_cons]
      exact ⟨hend, hlast, hsame.trans (hstep.2.2.1 v.id (ha.symm ▸ hid))⟩
  obtain ⟨hend, hlast, hsame⟩ := hagain again _ htrack hfired
  exact ⟨hend, hlast, hsame.trans (hslot v.id hrow)⟩

/-- The event at time zero from an unnamed relay. -/
def arrive (e : RawEvent) : Arrival := ⟨e, "", 0⟩

theorem member_arrive (c : Case kind5 kind d versions) (he : e ∈ kind5 :: versions) :
    Member kind5 versions (arrive e) :=
  ⟨c.live e he, List.mem_cons.mp he⟩

theorem exists_newest {l : List RawEvent} (h : l ≠ []) : ∃ n, Newest l n := by
  induction l with
  | nil => exact absurd rfl h
  | cons x l ih =>
    by_cases hl : l = []
    · subst hl
      refine ⟨x, List.mem_cons_self, fun v hv => ?_⟩
      rw [List.mem_singleton.mp hv, not_outranks_self]
    · obtain ⟨n, hn, hbest⟩ := ih hl
      cases hx : x.outranks n with
      | false =>
        refine ⟨n, List.mem_cons_of_mem _ hn, fun v hv => ?_⟩
        rcases List.mem_cons.mp hv with rfl | hv
        · exact hx
        · exact hbest v hv
      | true =>
        refine ⟨x, List.mem_cons_self, fun v hv => ?_⟩
        rcases List.mem_cons.mp hv with rfl | hv
        · exact not_outranks_self _
        · refine Bool.eq_false_iff.mpr fun hvx => ?_
          have := hbest v hv
          rw [outranks_trans hvx hx] at this
          cases this

theorem createdAt_le_newest (hn : Newest versions n) (hv : v ∈ versions) :
    v.createdAt ≤ n.createdAt := by
  have h := hn.2 v hv
  simp only [outranks, Bool.or_eq_false_iff, decide_eq_false_iff_not] at h
  omega

theorem compete_ne_none (cell : Option String) (e : RawEvent) :
    StoreCoordinate.compete content cell e ≠ none := by
  unfold StoreCoordinate.compete
  split
  · simp
  · split <;> simp

section

variable (c : Case kind5 kind d versions)
  (hcontent : ∀ e ∈ kind5 :: versions, content e.id = unsigned e)
  (hunfiled : ¬ FiledForLateVersions kind5 kind d) (hv : v ∈ versions)
  (hname : ¬ (v.id ∈ kind5.eTags ∧ LowerHex kind5.pubkey))
include c hcontent hunfiled hv hname

/-- A late version meets an empty cell and no tombstone, so it is stored. -/
theorem late_stored (h : Track kind5 kind d versions content st cell) (hnew : kind5.id ∉ st.events)
    (hrow : st.events.lookup v.id = none) (hempty : empty content kind5 cell = none) (again : Nat) :
    Track kind5 kind d versions content
        (run step st (List.replicate (again + 1) (arrive kind5) ++ [arrive v])) (some v.id) ∧
      kind5.id ∈ (run step st (List.replicate (again + 1) (arrive kind5) ++ [arrive v])).events := by
  have hvm := List.mem_cons_of_mem kind5 hv
  obtain ⟨st', rfl, htrack, hfired, hslot⟩ := track_deletions c hcontent h hnew rfl
    (member_arrive c List.mem_cons_self).1 again hv hrow
  rw [hempty] at htrack
  have hopen := late_not_blocked c hunfiled htrack hv hname hslot
  rw [Blocked, not_or, not_not, not_not] at hopen
  have hadm : Admitted (arrive v) := (member_arrive c hvm).1
  rw [run_append, run_cons, run_nil]
  refine ⟨track_version c hcontent htrack hv hadm ?_,
    (fired_version c hcontent htrack hv hadm).mpr hfired⟩
  exact current_step_open c htrack.rows htrack.current (c.version v hv) (hcontent v hvm) hadm
    hopen.1 hopen.2

/-- With no version later than the deletion, the deletion first and an unprotected version
next leave an old version stored. -/
theorem old_version_survives (hn : Newest versions n) (hold : n.createdAt ≤ kind5.createdAt)
    (again : Nat) :
    ∃ arrivals, Order kind5 again versions arrivals ∧ ¬ DeletesOld kind5 versions arrivals := by
  refine ⟨List.replicate (again + 1) (arrive kind5) ++ [arrive v] ++
    (versions.erase v).map arrive, ⟨?_, ?_⟩, ?_⟩
  · simp only [List.map_append, List.map_replicate, List.map_cons, List.map_map,
      List.append_assoc, List.singleton_append]
    have hmap : (versions.erase v).map (Arrival.event ∘ arrive) = versions.erase v :=
      (List.map_congr_left fun _ _ => rfl).trans (List.map_id _)
    rw [hmap]
    exact List.Perm.append_left _ (List.perm_cons_erase hv).symm
  · intro a ha
    simp only [List.mem_append, List.mem_replicate, List.mem_singleton, List.mem_map] at ha
    rcases ha with (⟨-, rfl⟩ | rfl) | ⟨e, he, rfl⟩
    · exact (member_arrive c List.mem_cons_self).1
    · exact (member_arrive c (List.mem_cons_of_mem _ hv)).1
    · exact (member_arrive c (List.mem_cons_of_mem _ (List.mem_of_mem_erase he))).1
  · intro hdel
    have hlate : ∀ a ∈ (versions.erase v).map arrive, Member kind5 versions a := by
      intro a ha
      obtain ⟨e, he, rfl⟩ := List.mem_map.mp ha
      exact member_arrive c (List.mem_cons_of_mem _ (List.mem_of_mem_erase he))
    have hfirst := late_stored c hcontent hunfiled hv hname track_new (by simp [MemState.new]) rfl rfl
      again
    have hend := track_run c hcontent (fun st cell => cell ≠ none ∧ kind5.id ∈ st.events) _ ?_
      hfirst.1 ⟨by simp, hfirst.2⟩ hlate
    · obtain ⟨cell, htrack, hsome, -⟩ := hend
      rw [← run_append] at htrack
      obtain ⟨m, rfl⟩ := Option.ne_none_iff_exists'.mp hsome
      obtain ⟨u, hu, rfl, -, hstored⟩ := htrack.cell_version c hcontent
      exact hdel u hu ((createdAt_le_newest hn hu).trans hold) hstored
    · rintro st a cell cell' htr ha hmove - ⟨hne, hst⟩
      refine ⟨?_, fired_step c hcontent htr (hlate a ha) (.inl hst)⟩
      cases hmove with
      | again | blocked => exact hne
      | first _ hnew => exact absurd hst hnew
      | compete => exact compete_ne_none _ _

end

/-- Before the deletion arrives nothing is blocked. -/
theorem not_blocked_before (h : Track kind5 kind d versions content st cell)
    (hnew : kind5.id ∉ st.events) (e : RawEvent) : ¬ Blocked st e := by
  rintro (hid | haddr)
  · exact hid (idTombstone_of_no_slot (h.no_slot hnew e.id))
  · refine haddr ((blockingAddress_eq_none_iff st e).mpr fun _ d' _ time htime => ?_)
    rw [h.no_deadline hnew] at htime
    cases htime

/-- Versions alone, the newest first, leave the newest in the cell. -/
theorem early_versions (c : Case kind5 kind d versions)
    (hcontent : ∀ e ∈ kind5 :: versions, content e.id = unsigned e) (hn : Newest versions n)
    {rest : List RawEvent} (hrest : ∀ e ∈ rest, e ∈ versions) :
    Track kind5 kind d versions content (stateAfter ((n :: rest).map arrive)) (some n.id) ∧
      kind5.id ∉ (stateAfter ((n :: rest).map arrive)).events := by
  have hnm := List.mem_cons_of_mem kind5 hn.1
  have hadm : Admitted (arrive n) := (member_arrive c hnm).1
  have hstart : kind5.id ∉ (MemState.new).events := by simp [MemState.new]
  have htrack₀ : Track kind5 kind d versions content .new none := track_new
  have hopen := not_blocked_before htrack₀ hstart n
  rw [Blocked, not_or, not_not, not_not] at hopen
  have hfirst := track_version c hcontent htrack₀ hn.1 hadm
    (current_step_open c htrack₀.rows htrack₀.current (c.version n hn.1) (hcontent n hnm) hadm
      hopen.1 hopen.2)
  have hfresh : kind5.id ∉ (step .new (arrive n)).events := fun h =>
    hstart ((fired_version c hcontent htrack₀ hn.1 hadm).mp h)
  have hmem : ∀ a ∈ rest.map arrive, a.event ∈ versions ∧ Member kind5 versions a := by
    intro a ha
    obtain ⟨e, he, rfl⟩ := List.mem_map.mp ha
    exact ⟨hrest e he, member_arrive c (List.mem_cons_of_mem _ (hrest e he))⟩
  have hend := track_run c hcontent (fun st cell => kind5.id ∉ st.events ∧ cell = some n.id) _ ?_
    hfirst ⟨hfresh, rfl⟩ fun a ha => (hmem a ha).2
  · obtain ⟨cell, htrack, hnone, rfl⟩ := hend
    exact ⟨htrack, hnone⟩
  · rintro st a cell cell' htr ha hmove - ⟨hst, rfl⟩
    obtain ⟨he, hadm', -⟩ := hmem a ha
    refine ⟨fun h => hst ((fired_version c hcontent htr he hadm').mp h), ?_⟩
    cases hmove with
    | again _ h => exact absurd h hst
    | first heq => exact absurd (c.version _ he) (kind5_not_version c (heq ▸ c.isKind5))
    | blocked => rfl
    | compete =>
      rw [StoreCoordinate.compete, hcontent n hnm, outranks_unsigned, hn.2 _ he]
      rfl

/-- With the newest version named by id, that version and all others but one first, then the
deletion, then the remaining version leave it stored. -/
theorem late_version_survives (c : Case kind5 kind d versions)
    (hcontent : ∀ e ∈ kind5 :: versions, content e.id = unsigned e)
    (hunfiled : ¬ FiledForLateVersions kind5 kind d) (hv : v ∈ versions)
    (hold : v.createdAt ≤ kind5.createdAt) (hname : ¬ (v.id ∈ kind5.eTags ∧ LowerHex kind5.pubkey))
    (hn : Newest versions n) (hnew : kind5.createdAt < n.createdAt) (hnamed : n.id ∈ kind5.eTags)
    (again : Nat) :
    ∃ arrivals, Order kind5 again versions arrivals ∧ ¬ DeletesOld kind5 versions arrivals := by
  have hne : v ≠ n := by rintro rfl; omega
  have hve : v ∈ versions.erase n := (List.mem_erase_of_ne hne).mpr hv
  let early := n :: (versions.erase n).erase v
  have hearly : ∀ e ∈ early, e ∈ versions := by
    intro e he
    rcases List.mem_cons.mp he with rfl | he
    · exact hn.1
    · exact List.mem_of_mem_erase (List.mem_of_mem_erase he)
  have hmap : ∀ l : List RawEvent, (l.map arrive).map Arrival.event = l := by
    intro l
    rw [List.map_map]
    exact (List.map_congr_left fun _ _ => rfl).trans (List.map_id _)
  have hmem : ∀ a ∈ early.map arrive, Member kind5 versions a := by
    intro a ha
    obtain ⟨e, he, rfl⟩ := List.mem_map.mp ha
    exact member_arrive c (List.mem_cons_of_mem _ (hearly e he))
  refine ⟨early.map arrive ++ (List.replicate (again + 1) (arrive kind5) ++ [arrive v]),
    ⟨?_, ?_⟩, ?_⟩
  · rw [List.map_append, List.map_append, hmap, List.map_replicate]
    have hperm : versions.Perm (v :: early) :=
      (List.perm_cons_erase hn.1).trans
        (((List.perm_cons_erase hve).cons n).trans (List.Perm.swap v n _))
    have hmove : (early ++ (List.replicate (again + 1) kind5 ++ [v])).Perm
        (List.replicate (again + 1) kind5 ++ ([v] ++ early)) := by
      rw [← List.append_assoc _ [v] early]
      exact List.perm_append_comm
    exact hmove.trans (List.Perm.append_left _ hperm.symm)
  · intro a ha
    rcases List.mem_append.mp ha with ha | ha
    · exact (hmem a ha).1
    · rcases List.mem_append.mp ha with ha | ha
      · rw [(List.mem_replicate.mp ha).2]
        exact (member_arrive c List.mem_cons_self).1
      · rw [List.mem_singleton.mp ha]
        exact (member_arrive c (List.mem_cons_of_mem _ hv)).1
  · intro hdel
    obtain ⟨htrack, hfresh⟩ := early_versions c hcontent hn fun e he =>
      List.mem_of_mem_erase (List.mem_of_mem_erase he)
    have hgone : (stateAfter (early.map arrive)).events.lookup v.id = none := by
      rw [lookup_none_iff]
      intro hstored
      have hcell := htrack.cell_of_stored c hcontent hv hstored
      have hbody := c.ids n (List.mem_cons_of_mem _ hn.1) v (List.mem_cons_of_mem _ hv)
        (Option.some.inj hcell)
      have htime : n.createdAt = v.createdAt := congrArg (fun e => e.createdAt) hbody
      omega
    have hempty : empty content kind5 (some n.id) = none := by
      simp [empty, Option.filter_some, hnamed]
    have hlast := (late_stored c hcontent hunfiled hv hname htrack hfresh hgone hempty again).1
    rw [stateAfter, ← run_append] at hlast
    obtain ⟨-, -, -, -, hstored⟩ := hlast.cell_version c hcontent
    exact hdel v hv hold hstored

end Cell

theorem case_content {kind5 : RawEvent} {kind : Nat} {d : String} {versions : List RawEvent}
    (c : Case kind5 kind d versions) :
    ∃ content : String → RawEvent, ∀ e ∈ kind5 :: versions, content e.id = unsigned e := by
  obtain ⟨content, hcontent⟩ := exists_content ((kind5 :: versions).map arrive) (by
    intro a ha b hb
    obtain ⟨e, he, rfl⟩ := List.mem_map.mp ha
    obtain ⟨f, hf, rfl⟩ := List.mem_map.mp hb
    exact c.ids e he f hf)
  exact ⟨content, fun e he => hcontent (arrive e) (List.mem_map_of_mem he)⟩

section

variable {again : Nat} {arrivals : List Arrival} {kind5 : RawEvent} {versions : List RawEvent}
  (h : Order kind5 again versions arrivals)
include h

theorem Order.members : ∀ a ∈ arrivals, Member kind5 versions a := by
  intro a ha
  refine ⟨h.2 a ha, ?_⟩
  have hmem := h.1.mem_iff.mp (List.mem_map_of_mem ha)
  rcases List.mem_append.mp hmem with hk | hv
  · exact .inl (List.mem_replicate.mp hk).2
  · exact .inr hv

theorem Order.presents {e : RawEvent} (he : e ∈ List.replicate (again + 1) kind5 ++ versions) :
    ∃ a ∈ arrivals, a.event = e :=
  List.mem_map.mp (h.1.mem_iff.mpr he)

end

/-- An article, and deletions of its coordinate with the kind spelled as printed and with a
leading zero. -/
def article : RawEvent := (arrivalOf '1' 'a' 10 30023 [["d", "x"]]).event
def articleDeletion : RawEvent :=
  (arrivalOf '2' 'a' 20 5 [["a", addrKey "30023" (digitKey 'a') "x"]]).event
def zeroPaddedDeletion : RawEvent :=
  (arrivalOf '2' 'a' 20 5 [["a", addrKey "030023" (digitKey 'a') "x"]]).event

/-- A relay list and the deletion of its coordinate. -/
def relayList : RawEvent := (arrivalOf '1' 'a' 10 10002 []).event
def relayListDeletion : RawEvent :=
  (arrivalOf '2' 'a' 20 5 [["a", addrKey "10002" (digitKey 'a') ""]]).event

theorem live_arrivalOf {id pubkey : Char} (hid : (hexNibble id).isSome = true)
    (hpubkey : (hexNibble pubkey).isSome = true) {createdAt kind : Nat} {tags : List (List String)}
    (h : (arrivalOf id pubkey createdAt kind tags).event.isEphemeral = false ∧
      (arrivalOf id pubkey createdAt kind tags).event.expiredAt 0 = false) :
    Live (arrivalOf id pubkey createdAt kind tags).event :=
  ⟨isStructurallyValid_arrivalOf hid hpubkey createdAt kind tags, h⟩

theorem live_article : Live article :=
  live_arrivalOf (by decide) (by decide) (by decide +kernel)

theorem live_relayList : Live relayList :=
  live_arrivalOf (by decide) (by decide) (by decide +kernel)

theorem article_case : Case articleDeletion 30023 "x" [article] where
  isKind5 := rfl
  coordinateKind := by decide
  named := by decide +kernel
  version := by decide +kernel
  live := List.forall_mem_cons.mpr ⟨live_arrivalOf (by decide) (by decide) (by decide +kernel),
    List.forall_mem_singleton.mpr live_article⟩
  ids := by decide +kernel

theorem zero_padded_case : Case zeroPaddedDeletion 30023 "x" [article] where
  isKind5 := rfl
  coordinateKind := by decide
  named := by decide +kernel
  version := by decide +kernel
  live := List.forall_mem_cons.mpr ⟨live_arrivalOf (by decide) (by decide) (by decide +kernel),
    List.forall_mem_singleton.mpr live_article⟩
  ids := by decide +kernel

theorem relay_list_case : Case relayListDeletion 10002 "" [relayList] where
  isKind5 := rfl
  coordinateKind := by decide
  named := by decide +kernel
  version := by decide +kernel
  live := List.forall_mem_cons.mpr ⟨live_arrivalOf (by decide) (by decide) (by decide +kernel),
    List.forall_mem_singleton.mpr live_relayList⟩
  ids := by decide +kernel

/-- The deletion first, then the versions. -/
theorem Case.presented {kind5 : RawEvent} {kind : Nat} {d : String} {versions : List RawEvent}
    (c : Case kind5 kind d versions) : Order kind5 0 versions ((kind5 :: versions).map arrive) := by
  refine ⟨?_, fun a ha => ?_⟩
  · rw [List.map_map]
    exact .of_eq (List.map_id _)
  · obtain ⟨e, he, rfl⟩ := List.mem_map.mp ha
    exact c.live e he

end StoreCoordinate
