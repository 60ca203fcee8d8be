import NostrMultiPlatform.StoreStep

/-!
# Deletion by id is durable

Once an author's own deletion has claimed the tombstone slot of an event, the
event is blocked for good: the slot keeps its owner and no row returns. The slot
is lost to another deleter only where that deleter claimed it first.
-/
namespace StoreDurability

open StoreEvent StoreState StoreInsert StoreDeletion StoreStep Tables Runs

/-- A kind 5 event by the author of `x` that names the id of `x`. -/
def OwnDeletion (x kind5 : RawEvent) : Prop :=
  kind5.kind = 5 ∧ kind5.pubkey = x.pubkey ∧ x.id ∈ kind5.eTags

instance (x kind5 : RawEvent) : Decidable (OwnDeletion x kind5) := by
  unfold OwnDeletion; infer_instance

def isInserted : InsertOutcome → Bool
  | .inserted _ _ => true
  | _ => false

theorem isInserted_iff (o : InsertOutcome) : isInserted o = true ↔ ∃ id n, o = .inserted id n := by
  cases o <;> simp [isInserted]

/-- Some own deletion of `x` was answered `Inserted`. -/
def OwnDeletionAccepted (x : RawEvent) (arrivals : List Arrival) : Prop :=
  ∃ pre a post, arrivals = pre ++ a :: post ∧ OwnDeletion x a.event ∧
    isInserted (outcome (stateAfter pre) a) = true

def Presented (x : RawEvent) (arrivals : List Arrival) : Prop := ∃ a ∈ arrivals, a.event = x

/-- In every state after an own deletion was accepted and `x` was presented, `x` is not stored. -/
def DeletionDurable (x : RawEvent) (arrivals : List Arrival) : Prop :=
  ∀ pre post, arrivals = pre ++ post → OwnDeletionAccepted x pre → Presented x pre →
    x.id ∉ (stateAfter pre).events

/-- Ids are content hashes: what arrives under the id of `x` has its author and kind. -/
def Verified (x : RawEvent) (arrivals : List Arrival) : Prop :=
  ∀ a ∈ arrivals, a.event.id = x.id → a.event.pubkey = x.pubkey ∧ a.event.kind = x.kind

instance (x : RawEvent) (arrivals : List Arrival) : Decidable (Verified x arrivals) := by
  unfold Verified; infer_instance

/-- The key is spelled as the store prints it. -/
def LowerHex (s : String) : Prop := (hexToBytes32 s).map bytesToHex = some s

instance (s : String) : Decidable (LowerHex s) := by unfold LowerHex; infer_instance

/-- When an own deletion arrives, the tombstone slot of `x` is empty or already blocks `x`. -/
def Uncontested (x : RawEvent) (st : MemState) (a : Arrival) : Prop :=
  OwnDeletion x a.event →
    (st.tombstones.lookup x.id).all (fun tomb => tombstoneApplies tomb x) = true

instance (x : RawEvent) (st : MemState) (a : Arrival) : Decidable (Uncontested x st a) := by
  unfold Uncontested; infer_instance

/-- The slot of `x` belongs to an owner that blocks `x`, and no row is stored under its id. -/
def Gone (x : RawEvent) (st : MemState) : Prop :=
  st.events.lookup x.id = none ∧ ∃ owner, slot st x.id = some owner ∧
    ownerApplies owner x.pubkey = true

/-- A row stored under the id of `x` has the author of `x`. -/
def OwnRow (x : RawEvent) (st : MemState) : Prop :=
  ∀ row, st.events.lookup x.id = some row → row.raw.pubkey = x.pubkey

variable {a : Arrival} {st : MemState} {x : RawEvent}

theorem gone_step (h : Gone x st) (hver : a.event.id = x.id → a.event.pubkey = x.pubkey) :
    Gone x (step st a) := by
  obtain ⟨hrow, owner, hslot, happ⟩ := h
  by_cases hid : x.id = a.event.id
  · rw [step_blocked st a (hid ▸ hslot) (by rw [hver hid.symm]; exact happ)]
    exact ⟨hrow, owner, hslot, happ⟩
  · refine ⟨?_, owner, step_slot_other st a hid hslot, happ⟩
    rcases step_row st a x.id with h | ⟨-, h⟩ | ⟨h, -⟩
    · rw [h, hrow]
    · exact h
    · exact absurd h hid

theorem ownRow_step (h : OwnRow x st) (hver : a.event.id = x.id → a.event.pubkey = x.pubkey) :
    OwnRow x (step st a) := by
  intro row hrow
  rcases step_row st a x.id with hst | ⟨-, hst⟩ | ⟨hid, -, -, hst⟩
  · exact h row (hst ▸ hrow)
  · rw [hst] at hrow; cases hrow
  · rw [hst] at hrow
    cases hrow
    exact hver hid.symm

theorem ownerApplies_kind5Owner {x kind5 : RawEvent} (hpk : kind5.pubkey = x.pubkey)
    (hlower : LowerHex x.pubkey) : ownerApplies (kind5Owner kind5) x.pubkey = true := by
  unfold LowerHex at hlower
  rw [Option.map_eq_some_iff] at hlower
  obtain ⟨bytes, hbytes, hprint⟩ := hlower
  simp [ownerApplies, kind5Owner, hpk, hbytes, hprint]

/-- An accepted own deletion removes `x` and takes its slot, unless the slot is contested. -/
theorem gone_of_accepted (hown : OwnDeletion x a.event) (hacc : isInserted (outcome st a) = true)
    (hrow : OwnRow x st) (hclear : Uncontested x st a) (hlower : LowerHex x.pubkey)
    (hhex : (hexToBytes32 x.id).isSome = true) (hid : x.id ≠ a.event.id) : Gone x (step st a) := by
  obtain ⟨hkind, hpk, htag⟩ := hown
  obtain ⟨id32, n, hout⟩ := (isInserted_iff _).mp hacc
  have hview := step_kind5_inserted hkind hout hid
  have hevents : (step st a).events.lookup x.id =
      (st.events.lookup x.id).filter fun r => !deletes a.event x.id r := congrArg Prod.fst hview
  have hmark : ((st.events.lookup x.id).map (deletes a.event x.id)).getD
      (pends a.event x.id) = true := by
    cases hst : st.events.lookup x.id with
    | none => exact (pends_iff _ _).mpr ⟨htag, hhex⟩
    | some r => exact deletes_of_named _ _ _ htag ((hrow r hst).trans hpk.symm)
  have hslot : slot (step st a) x.id = (slot st x.id).or (some (kind5Owner a.event)) := by
    have hsnd : slot (step st a) x.id = _ := congrArg Prod.snd hview
    rw [hsnd]
    simp only [mark, view, hmark, if_true]
  constructor
  · rw [hevents]
    cases hst : st.events.lookup x.id with
    | none => rfl
    | some r =>
      have hdel : deletes a.event x.id r = true := by simpa [hst] using hmark
      simp [Option.filter_some, hdel]
  · have hfree := hclear ⟨hkind, hpk, htag⟩
    cases hold : st.tombstones.lookup x.id with
    | none =>
      refine ⟨kind5Owner a.event, ?_, ownerApplies_kind5Owner hpk hlower⟩
      rw [hslot]
      simp [slot, hold]
    | some tomb =>
      rw [hold, Option.all_some, tombstoneApplies_eq] at hfree
      refine ⟨ownerOf tomb, ?_, hfree⟩
      rw [hslot]
      simp [slot, hold]

/-- Nothing is stored under an id that is not hex. -/
theorem no_row_of_bad_id (hhex : (hexToBytes32 x.id).isSome = false) (arrivals : List Arrival) :
    (stateAfter arrivals).events.lookup x.id = none := by
  have hok : Meets step (fun _ _ => True) .new arrivals :=
    meets_of_forall step (fun _ => True) .new arrivals fun _ _ => trivial
  refine run_invariant (fun st => st.events.lookup x.id = none) ?_ rfl hok
  intro st a hnone _
  rcases step_row st a x.id with h | ⟨-, h⟩ | ⟨hid, hadm, -⟩
  · rw [h, hnone]
  · exact h
  · have hvalid := hadm.1
    simp [RawEvent.isStructurallyValid, ← hid, hhex] at hvalid

theorem ownRow_stateAfter {arrivals : List Arrival} (hver : Verified x arrivals) :
    OwnRow x (stateAfter arrivals) := by
  have hok := meets_of_forall step (fun a => a.event.id = x.id → a.event.pubkey = x.pubkey) .new
    arrivals fun a ha hid => (hver a ha hid).1
  exact run_invariant (OwnRow x) (fun _ _ h hv => ownRow_step h hv) (fun row h => by cases h) hok

/-- Deletion by id is durable in every run whose own deletions of `x` meet an uncontested slot,
for an author key in lower case. -/
theorem own_deletion_durable (x : RawEvent) (hkind : x.kind ≠ 5) (hlower : LowerHex x.pubkey)
    (arrivals : List Arrival) (hver : Verified x arrivals)
    (hclear : Meets step (Uncontested x) .new arrivals) : DeletionDurable x arrivals := by
  rintro pre post rfl ⟨first, a, rest, rfl, hown, hacc⟩ -
  by_cases hhex : (hexToBytes32 x.id).isSome = true
  · rw [List.append_assoc, List.cons_append, meets_append, meets_cons] at hclear
    have ha := hver a (by simp)
    have hid : x.id ≠ a.event.id := fun h => hkind ((ha h.symm).2 ▸ hown.1)
    have hrow : OwnRow x (stateAfter first) :=
      ownRow_stateAfter fun b hb => hver b (by simp [hb])
    have hgone := gone_of_accepted hown hacc hrow hclear.2.1 hlower hhex hid
    have hrest := meets_of_forall step (fun b => b.event.id = x.id → b.event.pubkey = x.pubkey)
      (step (stateAfter first) a) rest fun b hb h => (hver b (by simp [hb]) h).1
    have hend : Gone x (stateAfter (first ++ a :: rest)) := by
      rw [stateAfter, run_append, run_cons]
      exact run_invariant (Gone x) (fun _ _ h hv => gone_step h hv) hgone hrest
    exact (lookup_none_iff _ _).mp hend.1
  · exact (lookup_none_iff _ _).mp (no_row_of_bad_id (Bool.eq_false_iff.mpr hhex) _)

/-- A note, a stranger's deletion of it and its author's deletion of it. -/
def note : Arrival := arrivalOf '1' 'a' 10 1 []
def foreignDeletion : Arrival := arrivalOf '2' 'b' 20 5 [["e", digitKey '1']]
def ownDeletion : Arrival := arrivalOf '3' 'a' 30 5 [["e", digitKey '1']]

theorem admitted_note : Admitted note :=
  admitted_arrivalOf (by decide) (by decide) (by decide +kernel)

theorem admitted_foreignDeletion : Admitted foreignDeletion :=
  admitted_arrivalOf (by decide) (by decide) (by decide +kernel)

theorem admitted_ownDeletion : Admitted ownDeletion :=
  admitted_arrivalOf (by decide) (by decide) (by decide +kernel)

theorem own_deletion_durable_note : note.event.id ∉ (stateAfter [ownDeletion, note]).events := by
  have haccepted : isInserted (outcome (stateAfter []) ownDeletion) = true := by
    rw [outcome_admitted admitted_ownDeletion]
    decide +kernel
  exact own_deletion_durable note.event (by decide) (by decide +kernel) [ownDeletion, note]
    (by decide +kernel) (by decide +kernel) [ownDeletion, note] [] rfl
    ⟨[], ownDeletion, [note], rfl, by decide +kernel, haccepted⟩ ⟨note, by simp, rfl⟩

/-- The stranger's deletion comes first and keeps the slot, so the note is stored although its
author's deletion was accepted. -/
theorem foreign_deletion_first_resurrects :
    ¬ DeletionDurable note.event [foreignDeletion, ownDeletion, note] := by
  have hadmitted : ∀ a ∈ [foreignDeletion, ownDeletion, note], Admitted a :=
    List.forall_mem_cons.mpr ⟨admitted_foreignDeletion, List.forall_mem_cons.mpr
      ⟨admitted_ownDeletion, List.forall_mem_singleton.mpr admitted_note⟩⟩
  have haccepted : isInserted (outcome (stateAfter [foreignDeletion]) ownDeletion) = true := by
    rw [outcome_admitted admitted_ownDeletion,
      stateAfter_admitted (List.forall_mem_singleton.mpr admitted_foreignDeletion)]
    decide +kernel
  intro h
  refine h [foreignDeletion, ownDeletion, note] [] rfl
    ⟨[foreignDeletion], ownDeletion, [note], rfl, by decide +kernel, haccepted⟩
    ⟨note, by simp, rfl⟩ ?_
  rw [stateAfter_admitted hadmitted]
  decide +kernel

end StoreDurability
