import NostrMultiPlatform.StoreStep
import NostrMultiPlatform.Winners

/-!
# Replaceable events converge

Without deletions the store settles every coordinate on its winner: the supersession
path is the abstract contest in which ids are rivals when their events share a
coordinate. The stored ids then depend on what was presented, not on its order.
-/
namespace StoreConvergence

open StoreEvent StoreState StoreInsert StoreStep Tables Runs Winners

/-- The event without its signature: what its id is the hash of. -/
def unsigned (e : RawEvent) : RawEvent := { e with sig := "" }

variable {content : String → RawEvent} {offered : Set String} {a : Arrival} {st : MemState}
  {arrivals : List Arrival} (e : RawEvent)

@[simp] theorem unsigned_id : (unsigned e).id = e.id := rfl
@[simp] theorem unsigned_pubkey (e : RawEvent) : (unsigned e).pubkey = e.pubkey := rfl
@[simp] theorem unsigned_createdAt (e : RawEvent) : (unsigned e).createdAt = e.createdAt := rfl
@[simp] theorem unsigned_kind (e : RawEvent) : (unsigned e).kind = e.kind := rfl
@[simp] theorem unsigned_dTag (e : RawEvent) : (unsigned e).dTag = e.dTag := rfl

/-- Author, kind and `d` value of a replaceable or addressable event; an absent `d` tag counts
as the empty value. -/
def coordinate (e : RawEvent) : Option (String × Nat × String) :=
  if e.isReplaceable then some (e.pubkey, e.kind, "")
  else if e.isParamReplaceable then some (e.pubkey, e.kind, e.dTag.getD "")
  else none

@[simp] theorem coordinate_unsigned : coordinate (unsigned e) = coordinate e := rfl

/-- Two ids compete: they are equal or their events share a coordinate. -/
def Rival (content : String → RawEvent) (i j : String) : Prop :=
  i = j ∨ ∃ c, coordinate (content i) = some c ∧ coordinate (content j) = some c

/-- The first id's event is later, or as late with the smaller id. -/
def Beats (content : String → RawEvent) (i j : String) : Prop :=
  (content j).createdAt < (content i).createdAt ∨
    ((content i).createdAt = (content j).createdAt ∧ i < j)

theorem contest (content : String → RawEvent) : Contest (Rival content) (Beats content) where
  refl := fun _ => .inl rfl
  symm := by
    rintro e f (rfl | ⟨c, he, hf⟩)
    · exact .inl rfl
    · exact .inr ⟨c, hf, he⟩
  trans := by
    rintro e f g (rfl | ⟨c, he, hf⟩) hfg
    · exact hfg
    · rcases hfg with rfl | ⟨c', hf', hg⟩
      · exact .inr ⟨c, he, hf⟩
      · rw [hf] at hf'
        cases hf'
        exact .inr ⟨c, he, hg⟩
  beats_trans := by
    rintro e f g (h | ⟨h, hlt⟩) (h' | ⟨h', hlt'⟩)
    · exact .inl (by omega)
    · exact .inl (by omega)
    · exact .inl (by omega)
    · exact .inr ⟨by omega, hlt.trans hlt'⟩
  asymm := by
    rintro e f (h | ⟨h, hlt⟩) (h' | ⟨h', hlt'⟩)
    · omega
    · omega
    · omega
    · exact lt_asymm hlt hlt'
  total := by
    intro e f _ hne
    rcases lt_trichotomy (content e).createdAt (content f).createdAt with h | h | h
    · exact .inr (.inl h)
    · rcases lt_or_gt_of_ne hne with hlt | hlt
      · exact .inl (.inr ⟨h, hlt⟩)
      · exact .inr (.inr ⟨h.symm, hlt⟩)
    · exact .inl (.inl h)

theorem outranks_iff (content : String → RawEvent) {e f : RawEvent}
    (he : content e.id = unsigned e) (hf : content f.id = unsigned f) :
    e.outranks f = true ↔ Beats content e.id f.id := by
  simp [RawEvent.outranks, Beats, he, hf]

/-- The ids the store holds. -/
def heldIds (st : MemState) : Set String := {id | id ∈ st.events}

/-- No tombstone is set, every row is the content of its id, and the held ids are settled. -/
structure Settles (content : String → RawEvent) (st : MemState) (offered : Set String) : Prop where
  open_ids : ∀ id, st.tombstones.lookup id = none
  open_addresses : ∀ key, st.addrTombstones.lookup key = none
  rows : ∀ id row, st.events.lookup id = some row → row.raw.id = id ∧ content id = unsigned row.raw
  settled : Settled (Rival content) (Beats content) (heldIds st) offered

theorem settles_new (content : String → RawEvent) : Settles content .new ∅ where
  open_ids := fun _ => rfl
  open_addresses := fun _ => rfl
  rows := fun id row h => by cases h
  settled := by
    have hheld : heldIds .new = ∅ := by
      ext id
      simp [heldIds, MemState.new]
    rw [hheld]
    exact settled_empty

theorem heldIds_of_sameRows {a b : MemState} (h : SameRows a b) : heldIds a = heldIds b := by
  simp only [heldIds, h.1]

theorem heldIds_storeRow (st : MemState) (event : RawEvent) (source : String) (t : Nat) :
    heldIds (storeRow st event source t) = insert event.id (heldIds st) := by
  ext id
  simp [heldIds]

theorem heldIds_removeRow (st : MemState) (hex : String) :
    heldIds (removeRow st hex) = heldIds st \ {hex} := by
  ext id
  simp [heldIds, and_comm]

theorem Settles.of_rows {st st' : MemState} (h : Settles content st offered)
    (hrows : SameRows st' st) {offered' : Set String}
    (hset : Settled (Rival content) (Beats content) (heldIds st) offered') :
    Settles content st' offered' where
  open_ids := by rw [hrows.2.1]; exact h.open_ids
  open_addresses := by rw [hrows.2.2]; exact h.open_addresses
  rows := by rw [hrows.1]; exact h.rows
  settled := by rwa [heldIds_of_sameRows hrows]

/-- Storing the event over a base that lost at most rows keeps every row its id's content. -/
theorem Settles.store {st st' : MemState} {offered offered' : Set String}
    (h : Settles content st offered) (base : MemState)
    (hcontent : content a.event.id = unsigned a.event)
    (hsub : ∀ id row, base.events.lookup id = some row → st.events.lookup id = some row)
    (hids : base.tombstones = st.tombstones) (haddr : base.addrTombstones = st.addrTombstones)
    (hrows : SameRows st' (storeRow base a.event a.source a.receivedAtMs))
    (hset : Settled (Rival content) (Beats content) (insert a.event.id (heldIds base)) offered') :
    Settles content st' offered' where
  open_ids := by rw [hrows.2.1, storeRow_tombstones, hids]; exact h.open_ids
  open_addresses := by rw [hrows.2.2, storeRow_addrTombstones, haddr]; exact h.open_addresses
  rows := by
    intro id row hrow
    rw [hrows.1, lookup_storeRow] at hrow
    by_cases hid : id = a.event.id
    · rw [if_pos hid] at hrow
      cases hrow
      exact ⟨hid.symm, hid ▸ hcontent⟩
    · rw [if_neg hid] at hrow
      exact h.rows id row (hsub id row hrow)
  settled := by rwa [heldIds_of_sameRows hrows, heldIds_storeRow]

theorem Settles.content_held (h : Settles content st offered) {id : String} (hid : id ∈ heldIds st)
    :
    ∃ row, st.events.lookup id = some row ∧ row.raw.id = id ∧ content id = unsigned row.raw := by
  obtain ⟨row, hrow⟩ := (mem_iff_lookup _ _).mp hid
  exact ⟨row, hrow, h.rows id row hrow⟩

/-- The filter of a supersession picks exactly the rows that share the event's coordinate. -/
def FilterExact (st : MemState) (event : RawEvent) (dFilter : Option String) : Prop :=
  ∀ id row, st.events.lookup id = some row →
    ((row.raw.pubkey = event.pubkey ∧ row.raw.kind = event.kind ∧
        ∀ d, dFilter = some d → row.raw.dTag = some d) ↔
      ∃ c, coordinate row.raw = some c ∧ coordinate event = some c)

theorem settles_redeliver (h : Settles content st offered) (hid : a.event.id ∈ st.events) :
    Settles content (redeliver st a.event a.source a.receivedAtMs).2
      (insert a.event.id offered) :=
  h.of_rows (redeliver_rows _ _ _ _) (h.settled.again (h.settled.offered_of_held hid))

section

variable (h : Settles content st offered) (hcontent : content a.event.id = unsigned a.event)
include h hcontent

theorem settles_insertSearchable (hfree : ∀ g ∈ heldIds st, ¬ Rival content g a.event.id) :
    Settles content (insertSearchable st a.event a.source a.receivedAtMs).2
      (insert a.event.id offered) :=
  h.store st hcontent (fun _ _ hrow => hrow) rfl rfl (insertSearchable_rows _ _ _ _)
    (h.settled.fresh (contest content) hfree)

theorem settles_handleNormalInsert (hnone : coordinate a.event = none) :
    Settles content (handleNormalInsert st a.event a.source a.receivedAtMs).2
      (insert a.event.id offered) := by
  unfold handleNormalInsert
  split
  · next hid => exact settles_redeliver h hid
  · next hid =>
    refine settles_insertSearchable h hcontent ?_
    rintro g hg (rfl | ⟨c, -, hc⟩)
    · exact hid hg
    · rw [hcontent, coordinate_unsigned, hnone] at hc
      cases hc

theorem settles_handleSupersession {dFilter : Option String}
    (hfilter : FilterExact st a.event dFilter) :
    Settles content (handleSupersession st a.event a.source a.receivedAtMs dFilter).2
      (insert a.event.id offered) := by
  unfold handleSupersession
  split
  · next hid => exact settles_redeliver h hid
  · next hid =>
    split
    · next hnewest =>
      refine settles_insertSearchable h hcontent ?_
      rintro g hg (rfl | ⟨c, hcg, hce⟩)
      · exact hid hg
      · obtain ⟨row, hrow, -, hrowc⟩ := h.content_held hg
        rw [hrowc, coordinate_unsigned] at hcg
        rw [hcontent, coordinate_unsigned] at hce
        have hmem : (⟨g, row⟩ : Entry) ∈ competitors st a.event dFilter :=
          mem_competitors.mpr ⟨hrow, (hfilter g row hrow).mpr ⟨c, hcg, hce⟩⟩
        rw [newestEntry_eq_none hnewest] at hmem
        cases hmem
    · next hex existing hnewest =>
      obtain ⟨hrow, hsame⟩ := mem_competitors.mp (newestEntry_mem hnewest)
      dsimp only at hrow hsame
      obtain ⟨hexid, hexc⟩ := h.rows hex existing hrow
      have hheld : hex ∈ heldIds st := (mem_iff_lookup _ _).mpr ⟨existing, hrow⟩
      have hrival : Rival content hex a.event.id := by
        obtain ⟨c, hc, hce⟩ := (hfilter hex existing hrow).mp hsame
        refine .inr ⟨c, ?_, ?_⟩
        · rw [hexc, coordinate_unsigned, hc]
        · rw [hcontent, coordinate_unsigned, hce]
      have hrank := outranks_iff content (f := existing.raw) hcontent (hexid.symm ▸ hexc)
      rw [hexid] at hrank
      dsimp only
      split
      · next hwins =>
        refine h.store (removeRow st hex) hcontent ?_ rfl rfl
          (replaced_rows _ _ _ _ _ _) ?_
        · intro id row hbase
          rw [removeRow_events, lookup_erase_eq] at hbase
          by_cases hid' : id = hex
          · rw [if_pos hid'] at hbase; cases hbase
          · rwa [if_neg hid'] at hbase
        · rw [heldIds_removeRow]
          exact h.settled.win (contest content) hheld hrival (hrank.mp hwins)
      · next hloses =>
        have hne : hex ≠ a.event.id := fun heq => hid (heq ▸ hheld)
        rcases (contest content).total hrival hne with hb | hb
        · exact h.of_rows ⟨rfl, rfl, rfl⟩ (h.settled.lose (contest content) hheld hrival hb)
        · exact absurd (hrank.mpr hb) hloses

end

theorem coordinate_kind {e : RawEvent} {c : String × Nat × String} (h : coordinate e = some c) :
    e.pubkey = c.1 ∧ e.kind = c.2.1 := by
  unfold coordinate at h
  split at h
  · cases h; exact ⟨rfl, rfl⟩
  · split at h
    · cases h; exact ⟨rfl, rfl⟩
    · cases h

theorem kinds_disjoint {e : RawEvent} (h : e.isReplaceable = true) : e.isParamReplaceable = false := by
  simp only [RawEvent.isReplaceable, isReplaceableKind, RawEvent.isParamReplaceable,
    isAddressableKind, Bool.or_eq_true, beq_iff_eq, Bool.and_eq_true, decide_eq_true_eq,
    Bool.and_eq_false_iff, decide_eq_false_iff_not] at *
  omega

theorem filterExact_replaceable {e : RawEvent} (h : e.isReplaceable = true) :
    FilterExact st e none := by
  intro id row _
  have he : coordinate e = some (e.pubkey, e.kind, "") := by simp [coordinate, h]
  constructor
  · rintro ⟨hpk, hkind, -⟩
    have hrow : row.raw.isReplaceable = true := by rwa [RawEvent.isReplaceable, hkind]
    exact ⟨_, by simp [coordinate, hrow, hpk, hkind], he⟩
  · rintro ⟨c, hc, hce⟩
    rw [he] at hce
    cases hce
    exact ⟨(coordinate_kind hc).1, (coordinate_kind hc).2, fun d hd => by cases hd⟩

/-- With the `d` tag present on both or on neither, the filter compares coordinates. -/
theorem filterExact_addressable {e : RawEvent} (h : e.isParamReplaceable = true)
    (hmixed : ∀ id row, st.events.lookup id = some row → row.raw.pubkey = e.pubkey → row.raw.kind = e.kind → row.raw.dTag.isSome = e.dTag.isSome)
    :
    FilterExact st e e.dTag := by
  intro id row hrow
  have hrepl : ∀ e' : RawEvent, e'.kind = e.kind →
      e'.isParamReplaceable = true ∧ e'.isReplaceable = false := by
    intro e' hk
    have hp : e'.isParamReplaceable = true := by rwa [RawEvent.isParamReplaceable, hk]
    refine ⟨hp, Bool.eq_false_iff.mpr fun hr => ?_⟩
    rw [kinds_disjoint hr] at hp
    cases hp
  have hcoord : ∀ e' : RawEvent, e'.kind = e.kind →
      coordinate e' = some (e'.pubkey, e'.kind, e'.dTag.getD "") := by
    intro e' hk
    simp [coordinate, (hrepl e' hk).1, (hrepl e' hk).2]
  constructor
  · rintro ⟨hpk, hkind, hd⟩
    refine ⟨_, hcoord row.raw hkind, ?_⟩
    rw [hcoord e rfl, hpk, hkind]
    have hsome := hmixed id row hrow hpk hkind
    cases he : e.dTag with
    | some d => rw [hd d he]
    | none =>
      rw [he, Option.isSome_none, Option.isSome_eq_false_iff, Option.isNone_iff_eq_none] at hsome
      rw [hsome]
  · rintro ⟨c, hc, hce⟩
    rw [hcoord e rfl] at hce
    cases hce
    have hkind : row.raw.kind = e.kind := (coordinate_kind hc).2
    rw [hcoord row.raw hkind, Option.some.injEq, Prod.mk.injEq, Prod.mk.injEq] at hc
    obtain ⟨hpk, -, hd⟩ := hc
    refine ⟨hpk, hkind, fun d he => ?_⟩
    have hsome := hmixed id row hrow hpk hkind
    rw [he, Option.isSome_some, Option.isSome_iff_exists] at hsome
    obtain ⟨d', hd'⟩ := hsome
    rw [he, hd', Option.getD_some, Option.getD_some] at hd
    rw [hd', hd]

/-- Structurally valid, not expired on arrival, and not a deletion. -/
def Fit (a : Arrival) : Prop :=
  a.event.isStructurallyValid = true ∧ a.event.expiredAt a.receivedAtMs = false ∧ a.event.kind ≠ 5

instance (a : Arrival) : Decidable (Fit a) := by unfold Fit; infer_instance

/-- Ids are content hashes: equal ids mean the same event up to its signature. -/
def ContentIds (arrivals : List Arrival) : Prop :=
  ∀ a ∈ arrivals, ∀ b ∈ arrivals, a.event.id = b.event.id → unsigned a.event = unsigned b.event

/-- For each author and addressable kind, all events carry a `d` tag or none does. -/
def Unmixed (arrivals : List Arrival) : Prop :=
  ∀ a ∈ arrivals, ∀ b ∈ arrivals, a.event.isParamReplaceable = true →
    a.event.pubkey = b.event.pubkey → a.event.kind = b.event.kind →
    a.event.dTag.isSome = b.event.dTag.isSome

/-- The ids presented in events that are kept at all. -/
def offeredIds (arrivals : List Arrival) : Set String :=
  {id | ∃ a ∈ arrivals, a.event.isEphemeral = false ∧ a.event.id = id}

theorem step_ephemeral (h : a.event.isEphemeral = true) : step st a = st :=
  insert_not_admitted fun hadm => by rw [hadm.2.1] at h; cases h

theorem settles_step (h : Settles content st offered) (hfit : Fit a)
    (hlive : a.event.isEphemeral = false) (hcontent : content a.event.id = unsigned a.event)
    (hmixed : a.event.isParamReplaceable = true → ∀ id row, st.events.lookup id = some row → row.raw.pubkey = a.event.pubkey → row.raw.kind = a.event.kind → row.raw.dTag.isSome = a.event.dTag.isSome)
    :
    Settles content (step st a) (insert a.event.id offered) := by
  have haddr : blockingAddress st a.event = none := by
    have hnone : addressTombstone st a.event = none := by
      simp only [addressTombstone, h.open_addresses]
      split
      · cases a.event.dTag <;> rfl
      · rfl
    rw [blockingAddress, hnone]
    rfl
  have hopen := congrArg Prod.snd
    (insert_open ⟨hfit.1, hlive, hfit.2.1⟩ (h.open_ids a.event.id) haddr)
  rw [if_neg hfit.2.2] at hopen
  rw [step, hopen]
  split
  · next hrepl => exact settles_handleSupersession h hcontent (filterExact_replaceable hrepl)
  · next hrepl =>
    split
    · next hparam =>
      exact settles_handleSupersession h hcontent (filterExact_addressable hparam (hmixed hparam))
    · next hparam =>
      exact settles_handleNormalInsert h hcontent (by simp [coordinate, hrepl, hparam])

/-- The rows of a settled store are events that were presented. -/
theorem Settles.presented (h : Settles content st (offeredIds arrivals))
    (hcontent : ∀ a ∈ arrivals, content a.event.id = unsigned a.event) {id : String}
    {row : StoredEvent} (hrow : st.events.lookup id = some row) :
    ∃ a ∈ arrivals, a.event.id = id ∧ unsigned row.raw = unsigned a.event := by
  have hheld : id ∈ heldIds st := (mem_iff_lookup _ _).mpr ⟨row, hrow⟩
  obtain ⟨a, ha, -, hid⟩ := h.settled.offered_of_held hheld
  refine ⟨a, ha, hid, ?_⟩
  rw [← (h.rows id row hrow).2, ← hid, hcontent a ha]

theorem settles_stateAfter (hfit : ∀ a ∈ arrivals, Fit a)
    (hcontent : ∀ a ∈ arrivals, content a.event.id = unsigned a.event) (hunmixed : Unmixed arrivals)
    : Settles content (stateAfter arrivals) (offeredIds arrivals) := by
  induction arrivals using List.reverseRecOn with
  | nil =>
    have hempty : offeredIds [] = ∅ := by
      ext id
      simp [offeredIds]
    rw [hempty]
    exact settles_new content
  | append_singleton as a ih =>
    have hsub : ∀ b ∈ as, b ∈ as ++ [a] := fun b hb => List.mem_append_left _ hb
    have hprev := ih (fun b hb => hfit b (hsub b hb)) (fun b hb => hcontent b (hsub b hb))
      (fun b hb c hc => hunmixed b (hsub b hb) c (hsub c hc))
    have hlast : a ∈ as ++ [a] := by simp
    rw [stateAfter, run_append, run_cons, run_nil]
    cases hephemeral : a.event.isEphemeral with
    | true =>
      rw [step_ephemeral hephemeral]
      have hsame : offeredIds (as ++ [a]) = offeredIds as := by
        ext id
        simp [offeredIds, or_and_right, exists_or, hephemeral]
      rw [hsame]
      exact hprev
    | false =>
      have hnext : offeredIds (as ++ [a]) = insert a.event.id (offeredIds as) := by
        ext id
        constructor
        · rintro ⟨b, hb, hlive, rfl⟩
          rcases List.mem_append.mp hb with hb | hb
          · exact .inr ⟨b, hb, hlive, rfl⟩
          · rw [List.mem_singleton] at hb
            exact .inl (hb ▸ rfl)
        · rintro (rfl | ⟨b, hb, hlive, rfl⟩)
          · exact ⟨a, hlast, hephemeral, rfl⟩
          · exact ⟨b, hsub b hb, hlive, rfl⟩
      rw [hnext]
      refine settles_step hprev (hfit a hlast) hephemeral (hcontent a hlast) ?_
      intro hparam id row hrow hpk hkind
      obtain ⟨b, hb, -, hbody⟩ := hprev.presented (fun b hb => hcontent b (hsub b hb)) hrow
      have hbpk : row.raw.pubkey = b.event.pubkey := congrArg (fun e => e.pubkey) hbody
      have hbkind : row.raw.kind = b.event.kind := congrArg (fun e => e.kind) hbody
      have hbd : row.raw.dTag = b.event.dTag := congrArg (fun e => e.dTag) hbody
      rw [hbd]
      exact (hunmixed a hlast b (hsub b hb) hparam (hpk.symm.trans hbpk)
        (hkind.symm.trans hbkind)).symm

theorem exists_content (arrivals : List Arrival) (h : ContentIds arrivals) :
    ∃ content : String → RawEvent, ∀ a ∈ arrivals, content a.event.id = unsigned a.event := by
  classical
  refine ⟨fun id => if hid : ∃ a ∈ arrivals, a.event.id = id then unsigned hid.choose.event
    else unsigned ⟨"", "", 0, 0, [], "", ""⟩, fun a ha => ?_⟩
  have hid : ∃ b ∈ arrivals, b.event.id = a.event.id := ⟨a, ha, rfl⟩
  dsimp only
  rw [dif_pos hid]
  exact h _ hid.choose_spec.1 a ha hid.choose_spec.2

/-- Every coordinate presented has exactly one stored row, and no presented event of the
coordinate outranks it. -/
def OnePerCoordinate (arrivals : List Arrival) : Prop :=
  ∀ a ∈ arrivals, ∀ c, coordinate a.event = some c →
    ∃ id row, (stateAfter arrivals).events.lookup id = some row ∧ coordinate row.raw = some c ∧
      (∀ b ∈ arrivals, coordinate b.event = some c → b.event.outranks row.raw = false) ∧
      ∀ id' row', (stateAfter arrivals).events.lookup id' = some row' →
        coordinate row'.raw = some c → id' = id

/-- Every presented event without a coordinate is stored. -/
def StoresEvery (arrivals : List Arrival) : Prop :=
  ∀ a ∈ arrivals, coordinate a.event = none → a.event.id ∈ (stateAfter arrivals).events

/-- Every presented event without a coordinate is stored, ephemeral events apart. -/
def StoresRegular (arrivals : List Arrival) : Prop :=
  ∀ a ∈ arrivals, coordinate a.event = none → a.event.isEphemeral = false →
    a.event.id ∈ (stateAfter arrivals).events

/-- Presenting the same events in another order, from other relays at other times, stores the
same ids. -/
def OrderIrrelevant (arrivals : List Arrival) : Prop :=
  ∀ others : List Arrival, (others.map Arrival.event).Perm (arrivals.map Arrival.event) →
    (∀ a ∈ others, Fit a) →
      ∀ id, id ∈ (stateAfter others).events ↔ id ∈ (stateAfter arrivals).events

theorem not_ephemeral_of_coordinate {e : RawEvent} {c : String × Nat × String}
    (h : coordinate e = some c) : e.isEphemeral = false := by
  unfold coordinate at h
  simp only [RawEvent.isEphemeral, isEphemeralKind, Bool.and_eq_false_iff, decide_eq_false_iff_not]
  split at h
  · next hr =>
    simp only [RawEvent.isReplaceable, isReplaceableKind, Bool.or_eq_true, beq_iff_eq,
      Bool.and_eq_true, decide_eq_true_eq] at hr
    omega
  · split at h
    · next hp =>
      simp only [RawEvent.isParamReplaceable, isAddressableKind, Bool.and_eq_true,
        decide_eq_true_eq] at hp
      omega
    · cases h

section

variable (hcontent : ∀ a ∈ arrivals, content a.event.id = unsigned a.event)
  (h : Settles content (stateAfter arrivals) (offeredIds arrivals))
include hcontent h

theorem onePerCoordinate_of_settles : OnePerCoordinate arrivals := by
  intro a ha c hc
  have hoffered : a.event.id ∈ offeredIds arrivals := ⟨a, ha, not_ephemeral_of_coordinate hc, rfl⟩
  obtain ⟨id, hheld, hrival⟩ := h.settled.covers _ hoffered
  obtain ⟨row, hrow, hrowid, hbody⟩ := h.content_held hheld
  have hrowc : coordinate (content id) = some c := by
    rcases hrival with rfl | ⟨c', hid, hc'⟩
    · rw [hcontent a ha, coordinate_unsigned, hc]
    · rw [hcontent a ha, coordinate_unsigned, hc] at hc'
      rw [hid, hc']
  refine ⟨id, row, hrow, by rw [← hrowc, hbody, coordinate_unsigned], ?_, ?_⟩
  · intro b hb hbc
    have hbest := ((h.settled.kept id).mp hheld).2 b.event.id
      ⟨b, hb, not_ephemeral_of_coordinate hbc, rfl⟩
      (.inr ⟨c, by rw [hcontent b hb, coordinate_unsigned, hbc], hrowc⟩)
    have hrank := outranks_iff content (f := row.raw) (hcontent b hb) (hrowid.symm ▸ hbody)
    rw [hrowid] at hrank
    exact Bool.eq_false_iff.mpr fun hout => hbest (hrank.mp hout)
  · intro id' row' hrow' hc'
    have hheld' : id' ∈ heldIds (stateAfter arrivals) := (mem_iff_lookup _ _).mpr ⟨row', hrow'⟩
    have hcontent' : coordinate (content id') = some c := by
      rw [(h.rows id' row' hrow').2, coordinate_unsigned, hc']
    exact h.settled.unique (contest content) hheld' hheld (.inr ⟨c, hcontent', hrowc⟩)

theorem storesRegular_of_settles : StoresRegular arrivals := by
  intro a ha hnone hlive
  obtain ⟨id, hheld, hrival⟩ := h.settled.covers _ ⟨a, ha, hlive, rfl⟩
  rcases hrival with rfl | ⟨c, -, hc⟩
  · exact hheld
  · rw [hcontent a ha, coordinate_unsigned, hnone] at hc
    cases hc

end

theorem offeredIds_perm {as bs : List Arrival}
    (h : (as.map Arrival.event).Perm (bs.map Arrival.event)) : offeredIds as = offeredIds bs := by
  have hsub : ∀ {as bs : List Arrival}, (as.map Arrival.event).Perm (bs.map Arrival.event) →
      offeredIds as ⊆ offeredIds bs := by
    rintro as bs h id ⟨a, ha, hlive, rfl⟩
    obtain ⟨b, hb, heq⟩ := List.mem_map.mp (h.mem_iff.mp (List.mem_map_of_mem ha))
    exact ⟨b, hb, heq ▸ hlive, heq ▸ rfl⟩
  exact Set.Subset.antisymm (hsub h) (hsub h.symm)

/-- Two versions of one article, the older with the `d` value and the newer without a tag. -/
def tagged : Arrival := arrivalOf '1' 'a' 10 30023 [["d", "x"]]
def untagged : Arrival := arrivalOf '2' 'a' 20 30023 []
def ephemeral : Arrival := arrivalOf '3' 'a' 10 20001 []

theorem admitted_tagged : Admitted tagged :=
  admitted_arrivalOf (by decide) (by decide) (by decide +kernel)

theorem admitted_untagged : Admitted untagged :=
  admitted_arrivalOf (by decide) (by decide) (by decide +kernel)

theorem fit_ephemeral : Fit ephemeral :=
  ⟨isStructurallyValid_arrivalOf (by decide) (by decide) 10 20001 [], by decide⟩

end StoreConvergence
