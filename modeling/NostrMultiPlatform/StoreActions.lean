import NostrMultiPlatform.StoreEdits

/-!
# The store as a machine

The calls that change the store, as inputs of one step function, and each of
them as a run of edits. A state is reachable when a run from the empty store
ends in it.
-/
namespace StoreActions

open StoreEvent StoreState StoreInsert StoreGc StoreStep StoreEdits Tables Runs EditsTo

inductive Action where
  | insert (a : Arrival)
  | deleteByFilter (order : HashOrder) (filter : DeleteFilter)
  | gcStep (call : GcCall)
  | getById (id : EventId)
  | recordCoverage (filterHash : String) (relay : RelayUrl) (coveredThrough : Nat)
  | replaceLogRetentionClaims (claims : List LogRetentionClaim)
  | installSearchIndexSpecs (text : StoreText.TextRules) (specs : List CompiledIndexSpec)

def act (st : MemState) : Action → MemState
  | .insert a => StoreStep.step st a
  | .deleteByFilter order filter => (deleteByFilter order st filter).2
  | .gcStep call => (gcStepWithPins call st).1
  | .getById id => (getById st id).2
  | .recordCoverage filterHash relay coveredThrough => recordCoverage st filterHash relay coveredThrough
  | .replaceLogRetentionClaims claims => replaceLogRetentionClaims st claims
  | .installSearchIndexSpecs text specs => installSearchIndexSpecs st text specs

theorem act_admitted {a : Arrival} (h : Admitted a) (st : MemState) :
    act st (.insert a) = accept st a := step_admitted h st

/-- Some run of the store ends in the state. -/
def Reachable (st : MemState) : Prop := ∃ actions, st = run act .new actions

/-- The edits of a deletion by filter: rows that were stored when it began. -/
def Purges (st : MemState) (emitPurge : Bool) : Edit → Prop
  | .delete idHex carrier target reason time =>
    idHex ∈ st.events ∧ emitPurge = true ∧ carrier = target ∧ reason = .adminPurge ∧ time = 0
  | .evict idHex => idHex ∈ st.events ∧ emitPurge = false
  | _ => False

variable {st : MemState} (call : GcCall)

theorem mem_idsToRemove {order : HashOrder} {filter : DeleteFilter} {id : String}
    (h : id ∈ idsToRemove order st filter) : id ∈ st.events := by
  cases filter with
  | byIds => exact of_decide_eq_true (List.mem_filter.mp h).2
  | _ =>
    rw [idsToRemove] at h
    obtain ⟨row, hrow, -⟩ := mem_keysWhere.mp h
    exact (mem_iff_lookup _ _).mpr ⟨row, hrow⟩

theorem editsTo_purgeRow (emitPurge : Bool) (s : MemState) {id : String} {bytes : EventId}
    (hmem : id ∈ st.events) (h : hexToBytes32 id = some bytes) :
    EditsTo (fun _ e => Purges st emitPurge e) s (purgeRow emitPurge s id) := by
  unfold purgeRow
  rw [h]
  cases emitPurge with
  | true =>
    exact single (.delete id bytes bytes .adminPurge 0) h ⟨hmem, rfl, rfl, rfl, rfl⟩
  | false => exact single (.evict id) trivial ⟨hmem, rfl⟩

theorem editsTo_deleteByFilter (h : Rooted st) (order : HashOrder) (filter : DeleteFilter) :
    EditsTo (fun _ e => Purges st (!filter.isRelayOnly) e) st
      (deleteByFilter order st filter).2 := by
  refine foldl (fun s id hid _ => ?_) h
  have hmem := mem_idsToRemove hid
  obtain ⟨bytes, hbytes⟩ := h.decodes_mem hmem
  exact editsTo_purgeRow _ s hmem hbytes

/-- The edits of a collection pass. -/
def Collects (st : MemState) : Edit → Prop
  | .delete idHex carrier target reason _ =>
    idHex ∈ st.events ∧ carrier = target ∧ reason = .nip40Expiry
  | .evict idHex => idHex ∈ st.events
  | .bury _ _ => True
  | .cover _ => True
  | _ => False

theorem editsTo_reapOne (nowSecs : Nat) (pass : Pass) (id : String) (h : Rooted pass.st) :
    EditsTo Collects pass.st (reapOne nowSecs pass id).st := by
  unfold reapOne
  split
  next => exact .refl _ _
  next row hrow =>
    have hmem : id ∈ pass.st.events := (mem_iff_lookup _ _).mpr ⟨row, hrow⟩
    -- the tombstone is written before the removal is logged
    exact (single (.bury (pass.st.tombstones.insert id (expiryTomb row.raw.id32 nowSecs))
      pass.st.addrTombstones) trivial trivial).trans
      (single (.delete id row.raw.id32 row.raw.id32 .nip40Expiry (millis nowSecs))
        (h.decodes hrow) ⟨hmem, rfl, rfl⟩)

theorem editsTo_reap (ids : List String) (pass : Pass) (h : Rooted pass.st) :
    EditsTo Collects pass.st (reap call ids pass).1.st := by
  induction ids generalizing pass with
  | nil => exact .refl _ _
  | cons id _ ih =>
    have hone := editsTo_reapOne call.nowSecs pass id h
    rw [reap]
    dsimp only
    split
    · exact hone
    · exact hone.trans (ih { reapOne call.nowSecs pass id with reads := pass.reads + 1 }
        (hone.rooted h))

theorem editsTo_evictOne (pass : Pass) (slots : Slots) (id : String) :
    EditsTo Collects pass.st (evictOne pass slots id).1.st := by
  unfold evictOne
  split
  next => exact .refl _ _
  next row hrow =>
    exact single (.evict id) trivial ((mem_iff_lookup _ _).mpr ⟨row, hrow⟩)

theorem editsTo_evict (ids : List String) (pass : Pass) (slots : Slots) :
    EditsTo Collects pass.st (evict call ids pass slots).1.1.st := by
  induction ids generalizing pass slots with
  | nil => exact .refl _ _
  | cons id _ ih =>
    have hone := editsTo_evictOne pass slots id
    rw [evict]
    dsimp only
    split
    · exact hone
    · exact hone.trans (ih { (evictOne pass slots id).1 with reads := pass.reads + 1 } _)

theorem editsTo_evictLru (pass : Pass) : EditsTo Collects pass.st (evictLru call pass).1.st := by
  unfold evictLru
  split
  · exact (editsTo_evict call _ pass _).trans (single (.cover _) trivial trivial)
  · exact .refl _ _

theorem editsTo_purgeTombstones (nowSecs : Nat) (pass : Pass) :
    EditsTo Collects pass.st (purgeTombstones nowSecs pass).st :=
  single (.bury _ _) trivial trivial

theorem editsTo_gcStep (h : Rooted st) (call : GcCall) :
    EditsTo Collects st (gcStepWithPins call st).1 := by
  have hreap := editsTo_reap call (expiredIds call st) ⟨st, {}, 0⟩ h
  unfold gcStepWithPins
  dsimp only
  split
  · exact hreap
  · split
    · exact hreap.trans (editsTo_evictLru call _)
    · exact hreap.trans ((editsTo_evictLru call _).trans (editsTo_purgeTombstones _ _))

/-- The edits of an action, and when it makes them. -/
def ActionEdit (st : MemState) (action : Action) (s : MemState) (edit : Edit) : Prop :=
  match action with
  | .insert a => InsertEdit st a s edit
  | .deleteByFilter _ filter => Purges st (!filter.isRelayOnly) edit
  | .gcStep _ => Collects s edit
  | .getById id => edit = .touch (bytesToHex id) ∧ s = st
  | .recordCoverage _ _ _ => ∃ coverage, edit = .cover coverage
  | .replaceLogRetentionClaims claims => edit = .retain claims
  | .installSearchIndexSpecs text specs => edit = .install text specs ∧ s = st

theorem editsTo_getById (st : MemState) (id : EventId) :
    EditsTo (fun s e => e = .touch (bytesToHex id) ∧ s = st) st (getById st id).2 := by
  unfold getById
  split
  next row hrow =>
    exact single (.touch (bytesToHex id)) ((mem_iff_lookup _ _).mpr ⟨row, hrow⟩) ⟨rfl, rfl⟩
  next => exact .refl _ st

theorem editsTo_recordCoverage (st : MemState) (filterHash : String) (relay : RelayUrl)
    (coveredThrough : Nat) :
    EditsTo (fun _ e => ∃ coverage, e = .cover coverage) st
      (recordCoverage st filterHash relay coveredThrough) := by
  unfold recordCoverage
  split
  · exact single (.cover _) trivial ⟨_, rfl⟩
  · exact .refl _ st

/-- Every action is a run of its edits. -/
theorem editsTo_act (h : Rooted st) (action : Action) :
    EditsTo (ActionEdit st action) st (act st action) := by
  cases action with
  | insert a => exact editsTo_step h a
  | deleteByFilter order filter => exact editsTo_deleteByFilter h order filter
  | gcStep call => exact editsTo_gcStep h call
  | getById id => exact editsTo_getById st id
  | recordCoverage filterHash relay coveredThrough =>
    exact editsTo_recordCoverage st filterHash relay coveredThrough
  | replaceLogRetentionClaims claims => exact single (.retain claims) trivial rfl
  | installSearchIndexSpecs text specs => exact single (.install text specs) trivial ⟨rfl, rfl⟩

theorem rooted_act (h : Rooted st) (action : Action) : Rooted (act st action) :=
  (editsTo_act h action).rooted h

/-- The event an edit stores or sights. -/
def arrivalOfEdit : Edit → Option Arrival
  | .insert a _ => some a
  | .replace _ _ a => some a
  | .sight a => some a
  | _ => none

/-- Events come in by insert actions only. -/
theorem insert_of_arrival {st s : MemState} {action : Action} {edit : Edit} {a : Arrival}
    (ha : arrivalOfEdit edit = some a) (hedit : ActionEdit st action s edit) :
    action = .insert a ∧ InsertEdit st a s edit := by
  cases action with
  | insert b =>
    obtain rfl : a = b := by
      cases edit with
      | insert => cases ha; exact hedit.2.1
      | replace => cases ha; exact hedit.2.1
      | sight => cases ha; exact hedit.2.1
      | _ => cases ha
    exact ⟨rfl, hedit⟩
  | deleteByFilter | gcStep => cases edit <;> first | exact hedit.elim | cases ha
  | getById | installSearchIndexSpecs =>
    cases hedit.1
    cases ha
  | recordCoverage =>
    obtain ⟨_, rfl⟩ := hedit
    cases ha
  | replaceLogRetentionClaims =>
    cases hedit
    cases ha

/-- What every edit keeps, every action keeps. -/
theorem act_invariant (inv : MemState → Prop)
    (keep : ∀ s e, Rooted s → inv s → Sound s e → inv (perform s e)) (h : Rooted st) (hinv : inv st)
    (action : Action) : inv (act st action) :=
  ((editsTo_act h action).invariant (fun s => Rooted s ∧ inv s) ⟨h, hinv⟩
    fun s e hs hsound _ => ⟨rooted_perform hs.1 hsound, keep s e hs.1 hs.2 hsound⟩).2

/-- What holds of the empty store and is kept by every edit holds of every reachable state. -/
theorem Reachable.invariant (h : Reachable st) (inv : MemState → Prop) (hnew : inv .new)
    (keep : ∀ s e, Rooted s → inv s → Sound s e → inv (perform s e)) : Rooted st ∧ inv st := by
  obtain ⟨actions, rfl⟩ := h
  exact run_invariant (fun s => Rooted s ∧ inv s)
    (fun s action hs _ => ⟨rooted_act hs.1 action, act_invariant inv keep hs.1 hs.2 action⟩)
    ⟨rooted_new, hnew⟩ (meets_of_forall act (fun _ => True) _ _ fun _ _ => trivial)

theorem Reachable.rooted (h : Reachable st) : Rooted st :=
  (h.invariant (fun _ => True) trivial fun _ _ _ _ _ => trivial).1

end StoreActions
