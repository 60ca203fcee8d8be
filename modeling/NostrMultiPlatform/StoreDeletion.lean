import NostrMultiPlatform.Runs
import NostrMultiPlatform.StoreInsert

/-!
# What a kind 5 event does to the store

For one id, a deletion acts on the row stored under it and on the owner of its
tombstone slot. Each tag acts on this pair by `mark`, marks compose, and so the
whole event acts by one mark whose condition is read off its tags. Address
tombstones only ever rise to the deletion time.
-/
namespace StoreDeletion

open StoreEvent StoreState StoreInsert Tables

/-- Who deleted, and on what grounds: the part of a tombstone a merge never changes. -/
abbrev Owner := Option PubKey × TombstoneOrigin

def ownerOf (tomb : TombstoneRow) : Owner := (tomb.deleterPubkey, tomb.origin)

def kind5Owner (kind5 : RawEvent) : Owner := (hexToBytes32 kind5.pubkey, .kind5)

/-- Whether a tombstone with this owner blocks an event of this author. -/
def ownerApplies (owner : Owner) (pubkey : String) : Bool :=
  match owner.2 with
  | .kind5 => match owner.1 with
    | some dp => bytesToHex dp == pubkey
    | none => false
  | .nip40Expiry | .adminPurge => true

theorem tombstoneApplies_eq (tomb : TombstoneRow) (event : RawEvent) :
    tombstoneApplies tomb event = ownerApplies (ownerOf tomb) event.pubkey := rfl

@[simp] theorem ownerOf_mergeRow (a b : TombstoneRow) : ownerOf (mergeRow a b) = ownerOf a := rfl

@[simp] theorem ownerOf_kind5Tomb (target : EventId) (kind5 : RawEvent) (source : String) :
    ownerOf (kind5Tomb target kind5.id32 kind5.pubkey kind5.createdAt source) = kind5Owner kind5 :=
  rfl

def slot (st : MemState) (id : String) : Option Owner := (st.tombstones.lookup id).map ownerOf

/-- The row and the tombstone owner of one id. -/
abbrev View := Option StoredEvent × Option Owner

def view (st : MemState) (id : String) : View := (st.events.lookup id, slot st id)

/-- One deletion seen at one id: a hit removes the row, and a hit or a pending target claims
the slot unless it is taken. -/
def mark (owner : Owner) (hit : StoredEvent → Bool) (pending : Bool) (v : View) : View :=
  (v.1.filter (fun r => !hit r),
    v.2.or (if (v.1.map hit).getD pending then some owner else none))

variable (owner : Owner) (kind5 : RawEvent) (source : String) (st : MemState) (key id : String)
  (row : TombstoneRow)

theorem mark_none (v : View) : mark owner (fun _ => false) false v = v := by
  obtain ⟨row, sl⟩ := v
  cases row <;> simp [mark]

theorem mark_mark (h₁ h₂ : StoredEvent → Bool) (p₁ p₂ : Bool) (v : View) :
    mark owner h₂ p₂ (mark owner h₁ p₁ v) =
      mark owner (fun r => h₁ r || h₂ r) (p₁ || p₂) v := by
  obtain ⟨row, sl⟩ := v
  cases row with
  | none => cases p₁ <;> cases p₂ <;> cases sl <;> simp [mark]
  | some r => cases hr : h₁ r <;> cases hs : h₂ r <;> cases sl <;>
      simp [mark, Option.filter_some, hr, hs]

theorem mark_congr (h₁ h₂ : StoredEvent → Bool) (p : Bool) (v : View)
    (h : ∀ r, v.1 = some r → h₁ r = h₂ r) : mark owner h₁ p v = mark owner h₂ p v := by
  obtain ⟨row, sl⟩ := v
  cases row with
  | none => rfl
  | some r => simp [mark, Option.filter_some, h r rfl]

/-- Tags that each act by a mark act together by the mark of their disjunction. -/
theorem foldl_mark {ι : Type} (step : MemState → ι → MemState) (id : String)
    (hit : ι → StoredEvent → Bool) (pending : ι → Bool)
    (h : ∀ st x, view (step st x) id = mark owner (hit x) (pending x) (view st id)) (st : MemState)
    (xs : List ι) :
    view (xs.foldl step st) id =
      mark owner (fun r => xs.any fun x => hit x r) (xs.any pending) (view st id) := by
  induction xs generalizing st with
  | nil => exact (mark_none owner _).symm
  | cons _ _ ih =>
    rw [List.foldl_cons, ih, h, mark_mark]
    rfl

theorem slot_mergeTombstone (map : Table String TombstoneRow) (key id : String)
    (row : TombstoneRow) :
    ((mergeTombstone map key row).lookup id).map ownerOf =
      ((map.lookup id).map ownerOf).or (if id = key then some (ownerOf row) else none) := by
  by_cases h : id = key
  · subst h
    unfold mergeTombstone
    split
    · next existing hex => simp [hex]
    · next hnone => simp [hnone]
  · unfold mergeTombstone
    split <;> simp [h]

@[simp] theorem addTombstone_events : (addTombstone st key row).events = st.events := rfl

theorem slot_addTombstone :
    slot (addTombstone st key row) id =
      (slot st id).or (if id = key then some (ownerOf row) else none) :=
  slot_mergeTombstone _ _ _ _

@[simp] theorem view_addAddrTombstone : view (addAddrTombstone st key row) id = view st id := rfl

theorem emitDeleted_rows (carrier target : EventId) (reason : DeleteReason) (t : Nat) :
    SameRows (emitDeleted st carrier target reason t) st := logAppend_rows _ _ _ _ _ _

theorem view_eq_of_sameRows {a b : MemState} (h : SameRows a b) (id : String) :
    view a id = view b id := by
  simp only [view, slot, h.1, h.2.1]

theorem view_deleteTarget (hex id : String) (existing : StoredEvent) :
    view (deleteTarget kind5 source st hex existing) id =
      (if id = hex then none else st.events.lookup id,
        (slot st id).or (if id = hex then some (kind5Owner kind5) else none)) := by
  have hrows := emitDeleted_rows (removeRow st hex) kind5.id32 existing.raw.id32 .nip09
    (millis kind5.createdAt)
  have hevents : (deleteTarget kind5 source st hex existing).events = st.events.erase hex := by
    simp only [deleteTarget, addTombstone_events, hrows.1, removeRow_events]
  have hslot : slot (deleteTarget kind5 source st hex existing) id =
      (slot st id).or (if id = hex then some (kind5Owner kind5) else none) := by
    simp only [deleteTarget, slot_addTombstone, ownerOf_kind5Tomb]
    congr 1
    simp only [slot, hrows.2.1, removeRow_tombstones]
  rw [view, hevents, hslot, lookup_erase_eq]

/-- An `e` tag hits the stored row it names when its author is the deleter's. -/
def idTagHits (kind5 : RawEvent) (id hex : String) (row : StoredEvent) : Bool :=
  id == hex && row.raw.pubkey == kind5.pubkey

/-- An `e` tag claims the slot of an absent id that is hex. -/
def idTagPending (id hex : String) : Bool := id == hex && (hexToBytes32 hex).isSome

theorem view_deleteByIdTag (hex id : String) :
    view (deleteByIdTag kind5 source st hex) id =
      mark (kind5Owner kind5) (idTagHits kind5 id hex) (idTagPending id hex) (view st id) := by
  unfold deleteByIdTag
  by_cases hid : id = hex
  · subst hid
    cases hrow : st.events.lookup id with
    | some existing =>
      by_cases hpk : existing.raw.pubkey = kind5.pubkey
      · simp only [hpk, ne_eq, not_true_eq_false, if_false, view_deleteTarget]
        simp [mark, view, hrow, idTagHits, hpk, Option.filter_some]
      · simp [hpk, mark, view, hrow, idTagHits, Option.filter_some]
    | none =>
      cases hhex : hexToBytes32 id with
      | none => simp [mark, view, hrow, idTagPending, hhex]
      | some =>
        simp [mark, view, hrow, idTagPending, hhex, slot_addTombstone]
  · have hskip : mark (kind5Owner kind5) (idTagHits kind5 id hex) (idTagPending id hex)
        (view st id) = view st id := by
      have hp : idTagPending id hex = false := by simp [idTagPending, hid]
      rw [hp]
      refine (mark_congr _ _ _ _ _ fun r _ => ?_).trans (mark_none (kind5Owner kind5) _)
      simp [idTagHits, hid]
    rw [hskip]
    cases hrow : st.events.lookup hex with
    | some existing =>
      by_cases hpk : existing.raw.pubkey = kind5.pubkey
      · simp only [hpk, ne_eq, not_true_eq_false, if_false, view_deleteTarget]
        simp [hid, view]
      · simp [hpk]
    | none =>
      cases hhex : hexToBytes32 hex with
      | none => rfl
      | some => simp [view, slot_addTombstone, hid]

theorem view_deleteListed (hex id : String) :
    view (deleteListed kind5 source st hex) id =
      mark (kind5Owner kind5) (fun _ => id == hex) false (view st id) := by
  unfold deleteListed
  by_cases hid : id = hex
  · subst hid
    cases hrow : st.events.lookup id with
    | none => simp [mark, view, hrow]
    | some =>
      simp only [view_deleteTarget]
      simp [mark, view, hrow, Option.filter_some]
  · have hskip : mark (kind5Owner kind5) (fun _ => id == hex) false (view st id) = view st id := by
      refine (mark_congr _ _ _ _ _ fun r _ => ?_).trans (mark_none (kind5Owner kind5) _)
      simp [hid]
    rw [hskip]
    cases hrow : st.events.lookup hex with
    | none => rfl
    | some =>
      simp only [view_deleteTarget]
      simp [hid, view]

/-- The coordinate an `a` tag deletes: the author's own, with a kind number that parses. -/
def addrTarget (kind5 : RawEvent) (addr : String) : Option (Nat × String) :=
  (splitAddr addr).bind fun p =>
    if p.2.1 = kind5.pubkey then (parseU32 p.1).map fun kind => (kind, p.2.2) else none

/-- An `a` tag hits the stored versions of its coordinate that are not newer. -/
def addrTagHits (kind5 : RawEvent) (addr : String) (row : StoredEvent) : Bool :=
  match addrTarget kind5 addr with
  | some (kind, d) => coordinateHit kind5.pubkey kind d kind5.createdAt row.raw
  | none => false

/-- The rows of a table entry list that satisfy a test, by key. -/
theorem mem_hitKeys (test : RawEvent → Bool) (id : String) (row : StoredEvent)
    (h : st.events.lookup id = some row) :
    id ∈ (st.events.entries.filter fun e => test e.2.raw).map (·.1) ↔ test row.raw = true := by
  have hmem : (⟨id, row⟩ : Sigma fun _ : String => StoredEvent) ∈ st.events.entries :=
    AList.mem_lookup_iff.mp h
  simp only [List.mem_map, List.mem_filter]
  constructor
  · rintro ⟨⟨key, r⟩, ⟨he, ht⟩, rfl⟩
    have hr : st.events.lookup key = some r := AList.mem_lookup_iff.mpr he
    rw [h] at hr
    cases hr
    exact ht
  · intro ht
    exact ⟨⟨id, row⟩, ⟨hmem, ht⟩, rfl⟩

theorem view_deleteByAddrTag (addr id : String) :
    view (deleteByAddrTag kind5 source st addr) id =
      mark (kind5Owner kind5) (addrTagHits kind5 addr) false (view st id) := by
  have hskip : addrTarget kind5 addr = none → view st id =
      mark (kind5Owner kind5) (addrTagHits kind5 addr) false (view st id) := by
    intro hnone
    refine ((mark_congr _ _ _ _ _ fun r _ => ?_).trans (mark_none (kind5Owner kind5) _)).symm
    simp [addrTagHits, hnone]
  unfold deleteByAddrTag
  cases hsplit : splitAddr addr with
  | none => exact hskip (by simp [addrTarget, hsplit])
  | some p =>
    obtain ⟨kindStr, pubkey, d⟩ := p
    by_cases hpk : pubkey = kind5.pubkey
    · cases hkind : parseU32 kindStr with
      | none =>
        simp only [hpk, ne_eq, not_true_eq_false, if_false, hkind]
        exact hskip (by simp [addrTarget, hsplit, hkind])
      | some kind =>
        have htarget : addrTarget kind5 addr = some (kind, d) := by
          simp [addrTarget, hsplit, hkind, hpk]
        simp only [hpk, ne_eq, not_true_eq_false, if_false, hkind, view_addAddrTombstone]
        rw [foldl_mark _ _ id _ _ (fun st hex => view_deleteListed kind5 source st hex id)]
        have hpend : ∀ hexes : List String, hexes.any (fun _ => false) = false := by simp
        rw [hpend]
        refine mark_congr _ _ _ _ _ fun r hr => ?_
        rw [Bool.eq_iff_iff, List.any_eq_true]
        simp only [addrTagHits, htarget, beq_iff_eq, exists_eq_right']
        exact mem_hitKeys st (coordinateHit kind5.pubkey kind d kind5.createdAt) id r hr
    · simp only [ne_eq, hpk, not_false_eq_true, if_true]
      exact hskip (by simp [addrTarget, hsplit, hpk])

/-- The event deletes this row: same author, named by id or by coordinate. -/
def deletes (kind5 : RawEvent) (id : String) (row : StoredEvent) : Bool :=
  (kind5.eTags.any fun hex => idTagHits kind5 id hex row) ||
    kind5.aTags.any fun addr => addrTagHits kind5 addr row

/-- The event names this id, which is hex, in an `e` tag. -/
def pends (kind5 : RawEvent) (id : String) : Bool := kind5.eTags.any (idTagPending id)

theorem view_applyDeletions :
    view (applyDeletions kind5 source st) id =
      mark (kind5Owner kind5) (deletes kind5 id) (pends kind5 id) (view st id) := by
  unfold applyDeletions
  rw [foldl_mark _ _ id _ _ (fun st addr => view_deleteByAddrTag kind5 source st addr id),
    foldl_mark _ _ id _ _ (fun st hex => view_deleteByIdTag kind5 source st hex id), mark_mark]
  have hpend : kind5.aTags.any (fun _ => false) = false := by simp
  rw [hpend, Bool.or_false]
  rfl

theorem pends_iff : pends kind5 id = true ↔ id ∈ kind5.eTags ∧ (hexToBytes32 id).isSome := by
  simp only [pends, idTagPending, List.any_eq_true, Bool.and_eq_true, beq_iff_eq]
  constructor
  · rintro ⟨hex, hmem, rfl, hh⟩
    exact ⟨hmem, hh⟩
  · rintro ⟨hmem, hh⟩
    exact ⟨id, hmem, rfl, hh⟩

theorem deletes_of_named (row : StoredEvent) (hid : id ∈ kind5.eTags)
    (hpk : row.raw.pubkey = kind5.pubkey) : deletes kind5 id row = true := by
  refine Bool.or_eq_true_iff.mpr (.inl (List.any_eq_true.mpr ⟨id, hid, ?_⟩))
  simp [idTagHits, hpk]

/-- Deletion time of the address tombstone under a key. -/
def deadline (st : MemState) (key : String) : Option Nat :=
  (st.addrTombstones.lookup key).map (·.deletedAt)

/-- The deletion time after one more deletion. -/
def raise (time : Nat) (old : Option Nat) : Option Nat := some (max (old.getD 0) time)

@[simp] theorem raise_raise (time : Nat) (old : Option Nat) :
    raise time (raise time old) = raise time old := by
  simp [raise]

theorem deadline_addAddrTombstone (key key' : String) (row : TombstoneRow) :
    deadline (addAddrTombstone st key row) key' =
      if key' = key then raise row.deletedAt (deadline st key') else deadline st key' := by
  by_cases h : key' = key
  · subst h
    rw [if_pos rfl]
    unfold deadline addAddrTombstone mergeTombstone
    cases hrow : st.addrTombstones.lookup key' with
    | none => simp [raise]
    | some =>
      simp only [AList.lookup_insert, Option.map_some, mergeRow, raise, Option.getD_some,
        Option.some.injEq]
      split <;> omega
  · unfold deadline addAddrTombstone mergeTombstone
    cases hrow : st.addrTombstones.lookup key <;> simp [h]

theorem deadline_eq_of_sameRows {a b : MemState} (h : SameRows a b) (key : String) :
    deadline a key = deadline b key := by
  simp only [deadline, h.2.2]

theorem deadline_deleteTarget (hex : String) (existing : StoredEvent) (key : String) :
    deadline (deleteTarget kind5 source st hex existing) key = deadline st key :=
  (deadline_eq_of_sameRows (emitDeleted_rows _ _ _ _ _) key).trans rfl

theorem deadline_deleteByIdTag (hex key : String) :
    deadline (deleteByIdTag kind5 source st hex) key = deadline st key := by
  unfold deleteByIdTag
  split
  · split
    · rfl
    · exact deadline_deleteTarget _ _ _ _ _ _
  · split <;> rfl

theorem deadline_deleteListed (hex key : String) :
    deadline (deleteListed kind5 source st hex) key = deadline st key := by
  unfold deleteListed
  split
  · exact deadline_deleteTarget _ _ _ _ _ _
  · rfl

theorem foldl_keeps {ι α : Type} (step : MemState → ι → MemState) (obs : MemState → α)
    (h : ∀ st x, obs (step st x) = obs st) (st : MemState) (xs : List ι) :
    obs (xs.foldl step st) = obs st := by
  induction xs generalizing st with
  | nil => rfl
  | cons _ _ ih => rw [List.foldl_cons, ih, h]

theorem deadline_deleteByAddrTag (addr key : String) :
    deadline (deleteByAddrTag kind5 source st addr) key =
      if key = addr ∧ (addrTarget kind5 addr).isSome then
        raise kind5.createdAt (deadline st key)
      else deadline st key := by
  unfold deleteByAddrTag
  cases hsplit : splitAddr addr with
  | none => simp [addrTarget, hsplit]
  | some p =>
    obtain ⟨kindStr, pubkey, d⟩ := p
    by_cases hpk : pubkey = kind5.pubkey
    · cases hkind : parseU32 kindStr with
      | none => simp [addrTarget, hsplit, hkind, hpk]
      | some =>
        simp only [hpk, ne_eq, not_true_eq_false, if_false, hkind, deadline_addAddrTombstone]
        rw [← hpk, addrKey_of_splitAddr hsplit,
          foldl_keeps _ (deadline · key) fun st hex => deadline_deleteListed kind5 source st hex key]
        simp [addrTarget, hsplit, hkind, hpk, kind5Tomb]
    · simp [addrTarget, hsplit, hpk]

/-- A kind 5 event raises exactly the tombstones under the addresses its tags spell. -/
theorem deadline_applyDeletions :
    deadline (applyDeletions kind5 source st) key =
      if key ∈ kind5.aTags ∧ (addrTarget kind5 key).isSome then
        raise kind5.createdAt (deadline st key)
      else deadline st key := by
  have hfold : ∀ (tags : List String) (st : MemState),
      deadline (tags.foldl (deleteByAddrTag kind5 source) st) key =
        if key ∈ tags ∧ (addrTarget kind5 key).isSome then
          raise kind5.createdAt (deadline st key)
        else deadline st key := by
    intro tags
    induction tags with
    | nil => simp
    | cons addr tags ih =>
      intro st
      rw [List.foldl_cons, ih, deadline_deleteByAddrTag]
      by_cases heq : key = addr
      · subst heq
        by_cases hsome : (addrTarget kind5 key).isSome <;> by_cases hmem : key ∈ tags <;>
          simp [hsome, hmem]
      · simp [heq]
  unfold applyDeletions
  rw [hfold, foldl_keeps _ (deadline · key) fun st hex =>
    deadline_deleteByIdTag kind5 source st hex key]

end StoreDeletion
