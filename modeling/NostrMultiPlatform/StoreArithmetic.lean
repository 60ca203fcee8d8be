import NostrMultiPlatform.MachineWords
import NostrMultiPlatform.StoreLog

/-!
# The arithmetic of the in-memory store

The additions, subtractions and multiplications of the insert path and of a
collection pass, in the order they are made. Divisions, comparisons and the
saturating operations cannot leave their range and are not listed. The counters
of the log and of the reads move by one, and the time of a deletion entry is the
time in seconds times one thousand.
-/
namespace StoreArithmetic

open StoreEvent StoreText StoreState StoreInsert StoreGc StoreDeletion StoreStep StoreEdits
open StoreActions StoreLog Tables Runs MachineWords

section

variable (kind5 : RawEvent) (st : MemState) (event : RawEvent) (source : RelayUrl)
  (targetHex : String) (receivedAtMs : Nat)

def accessStampOps : List Op := [.add st.accessSeq 1]

def logAppendOps : List Op := [.add st.ingestSeq 1]

/-- Filing a row under one scope computes its rank. -/
def addToScopeOps (stored : StoredEvent) (fts : FtsState) (scopeId : Nat) : List Op :=
  match fts.specs.lookup scopeId with
  | none => []
  | some spec =>
    if docTokens fts.text spec stored = [] then []
    else [.sub u64Max stored.raw.createdAt]

def indexAddOps (fts : FtsState) (stored : StoredEvent) : List Op :=
  match stored.raw.idBytes with
  | none => []
  | some bytes =>
    foldOps (FtsState.addToScope stored ⟨bytes⟩) (addToScopeOps stored) fts
      (((values fts.specs).filter fun spec => stored.raw.kind ∈ spec.kinds).map (·.scopeId))

def ftsAddByIdOps (idHex : String) : List Op :=
  match st.events.lookup idHex with
  | none => []
  | some stored => indexAddOps st.fts stored

def storeSearchableRowOps : List Op :=
  let placed := { st with events := st.events.insert event.id ⟨event, receivedAtMs⟩ }
  accessStampOps placed ++ ftsAddByIdOps (accessStamp placed event.id) event.id

def insertFreshOps : List Op :=
  accessStampOps st ++ logAppendOps (storeRow st event source receivedAtMs)

def insertSearchableOps : List Op :=
  storeSearchableRowOps st event receivedAtMs ++
    logAppendOps (storeSearchableRow st event source receivedAtMs)

def deleteTargetOps : List Op :=
  .mul kind5.createdAt 1000 :: logAppendOps (removeRow st targetHex)

def deleteByIdTagOps : List Op :=
  match st.events.lookup targetHex with
  | some existing =>
    if existing.raw.pubkey ≠ kind5.pubkey then [] else deleteTargetOps kind5 st targetHex
  | none => []

def deleteListedOps : List Op :=
  match st.events.lookup targetHex with
  | some _ => deleteTargetOps kind5 st targetHex
  | none => []

def deleteByAddrTagOps (st : MemState) (addr : String) : List Op :=
  match splitAddr addr with
  | none => []
  | some (kindStr, pubkey, d) =>
    if pubkey ≠ kind5.pubkey then []
    else match parseU32 kindStr with
      | none => []
      | some kind =>
        foldOps (deleteListed kind5 source) (deleteListedOps kind5) st
          ((st.events.entries.filter fun e =>
            coordinateHit pubkey kind d kind5.createdAt e.2.raw).map (·.1))

def applyDeletionsOps (st : MemState) : List Op :=
  foldOps (deleteByIdTag kind5 source) (deleteByIdTagOps kind5) st kind5.eTags ++
    foldOps (deleteByAddrTag kind5 source) (deleteByAddrTagOps kind5 source)
      (kind5.eTags.foldl (deleteByIdTag kind5 source) st) kind5.aTags

def handleKind5InsertOps : List Op :=
  if event.id ∈ st.events then []
  else applyDeletionsOps event source st ++
    insertFreshOps (applyDeletions event source st) event source receivedAtMs

def handleSupersessionOps (dFilter : Option String) : List Op :=
  if event.id ∈ st.events then []
  else match newestEntry (competitors st event dFilter) with
    | none => insertSearchableOps st event source receivedAtMs
    | some ⟨existingHex, existing⟩ =>
      if event.outranks existing.raw then
        insertSearchableOps (removeRow st existingHex) event source receivedAtMs
      else []

def handleNormalInsertOps : List Op :=
  if event.id ∈ st.events then [] else insertSearchableOps st event source receivedAtMs

def insertLiveOps : List Op :=
  match (addressTombstone st event).filter fun tomb => decide (event.createdAt ≤ tomb.deletedAt) with
  | some _ => []
  | none =>
    if event.kind = 5 then handleKind5InsertOps st event source receivedAtMs
    else if event.isReplaceable then handleSupersessionOps st event source receivedAtMs none
    else if event.isParamReplaceable then
      handleSupersessionOps st event source receivedAtMs event.dTag
    else handleNormalInsertOps st event source receivedAtMs

def insertCheckedOps : List Op :=
  match st.tombstones.lookup event.id with
  | some tomb =>
    if tombstoneApplies tomb event then []
    else insertLiveOps { st with tombstones := st.tombstones.erase event.id } event source
      receivedAtMs
  | none => insertLiveOps st event source receivedAtMs

def insertOps : List Op :=
  if ¬ event.isStructurallyValid then []
  else if event.isEphemeral then []
  else if event.expiredAt receivedAtMs then []
  else insertCheckedOps st event source receivedAtMs

end

def reapOneOps (nowSecs : Nat) (pass : Pass) (idHex : String) : List Op :=
  match pass.st.events.lookup idHex with
  | none => []
  | some row =>
    .mul nowSecs 1000 ::
      logAppendOps (buryExpired (removeRow pass.st idHex) idHex row.raw.id32 nowSecs)

def reapOps (call : GcCall) : List String → Pass → List Op
  | [], _ => []
  | idHex :: rest, pass =>
    let next := { reapOne call.nowSecs pass idHex with reads := pass.reads + 1 }
    reapOneOps call.nowSecs pass idHex ++ if call.late pass then [] else reapOps call rest next

/-- The other phases of a pass only subtract with saturation and compare. -/
def gcStepWithPinsOps (call : GcCall) (st : MemState) : List Op :=
  reapOps call (expiredIds call st) ⟨st, {}, 0⟩

/-- The number of stored rows. -/
def stock (st : MemState) : Nat := st.events.keys.length

theorem stock_erase {st st' : MemState} {id : String} (h : id ∈ st.events)
    (hevents : st'.events = st.events.erase id) : stock st' + 1 = stock st := by
  have hmem : id ∈ st.events.keys := h
  rw [stock, stock, hevents, AList.keys_erase, List.length_erase_of_mem hmem]
  exact Nat.sub_add_cancel (List.length_pos_of_mem hmem)

theorem ingestSeq_emitDeleted (st : MemState) (carrier target : EventId) (reason : DeleteReason)
    (t : Nat) : (emitDeleted st carrier target reason t).ingestSeq = st.ingestSeq + 1 :=
  (appended_logAppend _ _ _ _ _ _).seq

/-- One deletion of this event, as far as the counters go. -/
abbrev Deletion (kind5 : RawEvent) := Passage [.mul kind5.createdAt 1000] MemState.ingestSeq stock

section Deletions

variable (kind5 : RawEvent) (source : RelayUrl) (st : MemState)

theorem deletion_deleteTarget {hex : String} {existing : StoredEvent}
    (h : st.events.lookup hex = some existing) :
    Deletion kind5 st (deleteTarget kind5 source st hex existing) (deleteTargetOps kind5 st hex)
      1 := by
  refine Passage.single (ingestSeq_emitDeleted _ _ _ _ _) ?_
  refine stock_erase ((mem_iff_lookup _ _).mpr ⟨existing, h⟩) ?_
  rw [deleteTarget, addTombstone_events, (emitDeleted_rows _ _ _ _ _).1, removeRow_events]

theorem deletion_deleteByIdTag (hex : String) :
    ∃ k, Deletion kind5 st (deleteByIdTag kind5 source st hex) (deleteByIdTagOps kind5 st hex)
      k := by
  unfold deleteByIdTag deleteByIdTagOps
  cases hrow : st.events.lookup hex with
  | none =>
    dsimp only
    split
    · exact ⟨0, .idle st⟩
    · exact ⟨0, (Passage.idle st).congr rfl rfl⟩
  | some =>
    dsimp only
    split
    · exact ⟨0, .idle st⟩
    · exact ⟨1, deletion_deleteTarget kind5 source st hrow⟩

theorem deletion_deleteListed (hex : String) :
    ∃ k, Deletion kind5 st (deleteListed kind5 source st hex) (deleteListedOps kind5 st hex) k := by
  unfold deleteListed deleteListedOps
  cases hrow : st.events.lookup hex with
  | none => exact ⟨0, .idle st⟩
  | some => exact ⟨1, deletion_deleteTarget kind5 source st hrow⟩

theorem deletion_deleteByAddrTag (addr : String) :
    ∃ k, Deletion kind5 st (deleteByAddrTag kind5 source st addr)
      (deleteByAddrTagOps kind5 source st addr) k := by
  unfold deleteByAddrTag deleteByAddrTagOps
  cases splitAddr addr with
  | none => exact ⟨0, .idle st⟩
  | some parts =>
    obtain ⟨kindStr, pubkey, d⟩ := parts
    dsimp only
    split
    · exact ⟨0, .idle st⟩
    · cases parseU32 kindStr with
      | none => exact ⟨0, .idle st⟩
      | some kind =>
        obtain ⟨k, hk⟩ := Passage.fold (deletion_deleteListed kind5 source) st
          ((st.events.entries.filter fun e =>
            coordinateHit pubkey kind d kind5.createdAt e.2.raw).map (·.1))
        exact ⟨k, hk.congr rfl rfl⟩

theorem deletion_applyDeletions :
    ∃ k, Deletion kind5 st (applyDeletions kind5 source st) (applyDeletionsOps kind5 source st)
      k := by
  obtain ⟨k, hnamed⟩ := Passage.fold (deletion_deleteByIdTag kind5 source) st kind5.eTags
  obtain ⟨l, haddressed⟩ := Passage.fold (deletion_deleteByAddrTag kind5 source)
    (kind5.eTags.foldl (deleteByIdTag kind5 source) st) kind5.aTags
  exact ⟨k + l, hnamed.trans haddressed⟩

end Deletions

/-- The stored rows that a kind 5 event deletes. -/
def targets (st : MemState) (event : RawEvent) : Nat :=
  if event.kind = 5 then (st.events.entries.filter fun e => deletes event e.1 e.2).length else 0

theorem keys_applyDeletions (kind5 : RawEvent) (source : RelayUrl) (st : MemState) :
    (applyDeletions kind5 source st).events.keys.Perm
      ((st.events.entries.filter fun e => !deletes kind5 e.1 e.2).map (·.1)) := by
  have hkeys : ((st.events.entries.filter fun e => !deletes kind5 e.1 e.2).map (·.1)).Sublist
      st.events.keys := List.filter_sublist.map _
  refine (List.perm_ext_iff_of_nodup (AList.nodupKeys _) (hkeys.nodup (AList.nodupKeys _))).mpr ?_
  intro id
  have hview := congrArg Prod.fst (view_applyDeletions kind5 source st id)
  simp only [view, mark] at hview
  refine (mem_iff_lookup _ id).trans ?_
  rw [hview]
  simp only [Option.filter_eq_some_iff, List.mem_map, List.mem_filter]
  constructor
  · rintro ⟨row, hrow, hkeep⟩
    exact ⟨⟨id, row⟩, ⟨AList.mem_lookup_iff.mp hrow, hkeep⟩, rfl⟩
  · rintro ⟨⟨key, row⟩, ⟨hmem, hkeep⟩, rfl⟩
    exact ⟨row, AList.mem_lookup_iff.mpr hmem, hkeep⟩

/-- A kind 5 event makes one round for each row it deletes. -/
theorem deletion_targets {kind5 : RawEvent} (hkind : kind5.kind = 5) (source : RelayUrl)
    (st : MemState) :
    Deletion kind5 st (applyDeletions kind5 source st) (applyDeletionsOps kind5 source st)
      (targets st kind5) := by
  obtain ⟨k, hk⟩ := deletion_applyDeletions kind5 source st
  have hused := hk.used
  have hkept := (keys_applyDeletions kind5 source st).length_eq
  have hsplit := List.length_eq_length_filter_add (l := st.events.entries)
    fun e => deletes kind5 e.1 e.2
  have htotal : st.events.keys.length = st.events.entries.length := List.length_map _
  have hcount : targets st kind5 = k := by
    rw [targets, if_pos hkind]
    rw [List.length_map] at hkept
    unfold stock at hused
    omega
  rw [hcount]
  exact hk

theorem accessSeq_emitDeleted (st : MemState) (carrier target : EventId) (reason : DeleteReason)
    (t : Nat) : (emitDeleted st carrier target reason t).accessSeq = st.accessSeq := by
  obtain ⟨seq, log, floor, h⟩ := logAppend_frame st (.deleted target reason) carrier none none t
  rw [emitDeleted, h]

section

variable (kind5 : RawEvent) (source : RelayUrl) (st : MemState)
include kind5 source st

theorem accessSeq_deleteTarget (hex : String) (existing : StoredEvent) :
    (deleteTarget kind5 source st hex existing).accessSeq = st.accessSeq :=
  accessSeq_emitDeleted _ _ _ _ _

theorem accessSeq_deleteByIdTag (hex : String) :
    (deleteByIdTag kind5 source st hex).accessSeq = st.accessSeq := by
  unfold deleteByIdTag
  split
  · split
    · rfl
    · exact accessSeq_deleteTarget _ _ _ _ _
  · split <;> rfl

theorem accessSeq_deleteListed (hex : String) :
    (deleteListed kind5 source st hex).accessSeq = st.accessSeq := by
  unfold deleteListed
  split
  · exact accessSeq_deleteTarget _ _ _ _ _
  · rfl

theorem accessSeq_deleteByAddrTag (addr : String) :
    (deleteByAddrTag kind5 source st addr).accessSeq = st.accessSeq := by
  unfold deleteByAddrTag
  split
  · rfl
  · split
    · rfl
    · split
      · rfl
      · exact foldl_keeps _ MemState.accessSeq (accessSeq_deleteListed kind5 source) _ _

theorem accessSeq_applyDeletions : (applyDeletions kind5 source st).accessSeq = st.accessSeq :=
  (foldl_keeps _ MemState.accessSeq (accessSeq_deleteByAddrTag kind5 source) _ _).trans
    (foldl_keeps _ MemState.accessSeq (accessSeq_deleteByIdTag kind5 source) _ _)

end

theorem counters_cleared (st : MemState) (event : RawEvent) :
    (cleared st event).accessSeq = st.accessSeq ∧ (cleared st event).ingestSeq = st.ingestSeq := by
  unfold cleared
  split <;> exact ⟨rfl, rfl⟩

theorem targets_cleared (st : MemState) (event e : RawEvent) :
    targets (cleared st event) e = targets st e := by
  rw [targets, targets, cleared_events]

theorem add_one_fits {c : Nat} : (Op.add c 1).Fits 64 ↔ c < u64Max := by
  rw [Op.Fits, u64Max]
  omega

theorem millis_fits {t : Nat} : (Op.mul t 1000).Fits 64 ↔ t * 1000 ≤ u64Max := by
  rw [Op.Fits, u64Max]
  omega

/-- The rank of a row fits, as its time does. -/
theorem rank_fits {createdAt : Nat} (h : createdAt ≤ u64Max) : (Op.sub u64Max createdAt).Fits 64 :=
  ⟨h, Nat.lt_of_le_of_lt (Nat.sub_le _ _) (by decide)⟩

theorem allFit_foldOps {σ ι : Type} {step : σ → ι → σ} {ops : σ → ι → List Op} {w : Nat}
    (h : ∀ s x, AllFit w (ops s x)) (s : σ) (xs : List ι) : AllFit w (foldOps step ops s xs) := by
  induction xs generalizing s with
  | nil => exact allFit_nil
  | cons x _ ih => exact allFit_append.mpr ⟨h s x, ih _⟩

theorem allFit_addToScopeOps {stored : StoredEvent} (h : stored.raw.createdAt ≤ u64Max)
    (fts : FtsState) (scopeId : Nat) : AllFit 64 (addToScopeOps stored fts scopeId) := by
  unfold addToScopeOps
  split
  · exact allFit_nil
  · split
    · exact allFit_nil
    · exact allFit_cons.mpr ⟨rank_fits h, allFit_nil⟩

theorem allFit_indexAddOps {stored : StoredEvent} (h : stored.raw.createdAt ≤ u64Max)
    (fts : FtsState) : AllFit 64 (indexAddOps fts stored) := by
  unfold indexAddOps
  split
  · exact allFit_nil
  · exact allFit_foldOps (allFit_addToScopeOps h) _ _

variable {event : RawEvent} {a : Arrival} (call : GcCall)

theorem allFit_insertSearchableOps (h : event.createdAt ≤ u64Max) (st : MemState)
    (source : RelayUrl) (t : Nat) :
    AllFit 64 (insertSearchableOps st event source t) ↔
      st.accessSeq < u64Max ∧ st.ingestSeq < u64Max := by
  have hrow : AllFit 64 (storeSearchableRowOps st event t) ↔ st.accessSeq < u64Max := by
    have hindex : AllFit 64 (ftsAddByIdOps
        (accessStamp { st with events := st.events.insert event.id ⟨event, t⟩ } event.id)
        event.id) := by
      rw [ftsAddByIdOps, accessStamp, AList.lookup_insert]
      exact allFit_indexAddOps h _
    rw [storeSearchableRowOps, allFit_append, accessStampOps, allFit_cons, add_one_fits]
    exact ⟨fun hall => hall.1.1, fun hroom => ⟨⟨hroom, allFit_nil⟩, hindex⟩⟩
  rw [insertSearchableOps, allFit_append, hrow, logAppendOps, allFit_cons, add_one_fits,
    (sameLog_storeSearchableRow st event source t).1.seq]
  exact ⟨fun hall => ⟨hall.1, hall.2.1⟩, fun hroom => ⟨hroom.1, hroom.2, allFit_nil⟩⟩

theorem allFit_insertFreshOps (st : MemState) (event : RawEvent) (source : RelayUrl) (t : Nat) :
    AllFit 64 (insertFreshOps st event source t) ↔
      st.accessSeq < u64Max ∧ st.ingestSeq < u64Max := by
  rw [insertFreshOps, allFit_append, accessStampOps, logAppendOps, allFit_cons, allFit_cons,
    add_one_fits, add_one_fits, (sameLog_storeRow st event source t).1.seq]
  exact ⟨fun hall => ⟨hall.1.1, hall.2.1⟩, fun hroom => ⟨⟨hroom.1, allFit_nil⟩, hroom.2, allFit_nil⟩⟩

/-- The counters have room for the event and its deletions, and so has the time of these. -/
structure Room (st : MemState) (event : RawEvent) : Prop where
  stamp : st.accessSeq < u64Max
  append : st.ingestSeq + targets st event < u64Max
  time : 0 < targets st event → event.createdAt * 1000 ≤ u64Max

/-- The event is not taken in, or there is room for it. -/
def InsertFits (st : MemState) (a : Arrival) : Prop := Wins st a → Room st a.event

theorem room_of_not_kind5 {st : MemState} (h : event.kind ≠ 5) :
    Room st event ↔ st.accessSeq < u64Max ∧ st.ingestSeq < u64Max := by
  have hnone : targets st event = 0 := by rw [targets, if_neg h]
  constructor
  · intro hroom
    have happend := hroom.append
    rw [hnone] at happend
    exact ⟨hroom.stamp, happend⟩
  · intro ⟨hstamp, happend⟩
    refine ⟨hstamp, by rwa [hnone], fun hpos => ?_⟩
    rw [hnone] at hpos
    exact absurd hpos (Nat.lt_irrefl 0)

theorem allFit_handleKind5Insert {st : MemState} (hkind : event.kind = 5) (source : RelayUrl)
    (t : Nat) : AllFit 64 (handleKind5InsertOps st event source t) ↔
      (event.id ∉ st.events → Room st event) := by
  rw [handleKind5InsertOps]
  split
  next hmem => exact iff_of_true allFit_nil fun hfresh => absurd hmem hfresh
  next hfresh =>
    have hdeletion := deletion_targets hkind source st
    rw [allFit_append, allFit_insertFreshOps, hdeletion.ops_eq, allFit_rounds, allFit_cons,
      millis_fits, accessSeq_applyDeletions, hdeletion.counted]
    constructor
    · intro ⟨hrounds, hstamp, happend⟩ _
      exact ⟨hstamp, happend, fun hpos => (hrounds hpos).1.1⟩
    · intro hroom
      obtain ⟨hstamp, happend, htime⟩ := hroom hfresh
      refine ⟨fun hpos => ⟨⟨htime hpos, allFit_nil⟩, ?_⟩, hstamp, happend⟩
      exact Nat.lt_of_lt_of_le happend (by decide)

/-- What stands for `Wins` once the event is open. -/
theorem insertFits_open {st : MemState} (hopen : Open st a) :
    InsertFits st a ↔ (a.event.id ∉ st.events →
      (∀ rival, rivalOf st a.event = some rival → a.event.outranks rival.2.raw = true) →
        Room st a.event) :=
  ⟨fun h hfresh hrank => h ⟨hopen, hfresh, hrank⟩, fun h hwins => h hwins.2.1 hwins.2.2⟩

theorem room_cleared (st : MemState) (event e : RawEvent) :
    Room (cleared st event) e ↔ Room st e := by
  obtain ⟨hstamp, happend⟩ := counters_cleared st event
  constructor
  · intro ⟨hs, ha, ht⟩
    rw [hstamp] at hs
    rw [happend, targets_cleared] at ha
    rw [targets_cleared] at ht
    exact ⟨hs, ha, ht⟩
  · intro ⟨hs, ha, ht⟩
    refine ⟨by rwa [hstamp], by rwa [happend, targets_cleared], ?_⟩
    rwa [targets_cleared]

theorem fits_kind5 {st : MemState} (hopen : Open st a) (hkind : a.event.kind = 5) :
    AllFit 64 (handleKind5InsertOps (cleared st a.event) a.event a.source a.receivedAtMs) ↔
      InsertFits st a := by
  rw [allFit_handleKind5Insert hkind, cleared_events, room_cleared, insertFits_open hopen,
    rivalOf_kind5 st hkind]
  exact ⟨fun h hfresh _ => h hfresh, fun h hfresh => h hfresh fun rival hrival => nomatch hrival⟩

theorem fits_searchable {st : MemState} (hkind : event.kind ≠ 5)
    (hcreated : event.createdAt ≤ u64Max) (source : RelayUrl) (t : Nat) :
    AllFit 64 (insertSearchableOps (cleared st event) event source t) ↔ Room st event := by
  rw [allFit_insertSearchableOps hcreated, ← room_of_not_kind5 hkind, room_cleared]

theorem fits_supersession {st : MemState} (hopen : Open st a) (hkind : a.event.kind ≠ 5)
    (hcreated : a.event.createdAt ≤ u64Max) {dFilter : Option String}
    (hrival : rivalOf st a.event = newestEntry (competitors st a.event dFilter)) :
    AllFit 64 (handleSupersessionOps (cleared st a.event) a.event a.source a.receivedAtMs dFilter) ↔
      InsertFits st a := by
  rw [handleSupersessionOps, cleared_events, competitors_cleared, ← hrival,
    insertFits_open hopen]
  split
  next hmem => exact iff_of_true allFit_nil fun hfresh => absurd hmem hfresh
  next hfresh =>
    cases hbest : rivalOf st a.event with
    | none =>
      dsimp only
      rw [fits_searchable hkind hcreated]
      exact ⟨fun h _ _ => h, fun h => h hfresh fun rival hrival => nomatch hrival⟩
    | some rival =>
      dsimp only
      split
      next hwins =>
        -- the older version goes first, and the counters are as before
        have hfits : AllFit 64 (insertSearchableOps (removeRow (cleared st a.event) rival.1) a.event
            a.source a.receivedAtMs) ↔ Room st a.event := by
          rw [← fits_searchable hkind hcreated a.source a.receivedAtMs,
            allFit_insertSearchableOps hcreated, allFit_insertSearchableOps hcreated]
          exact Iff.rfl
        rw [hfits]
        refine ⟨fun h _ _ => h, fun h => h hfresh fun other hother => ?_⟩
        cases hother
        exact hwins
      next hloses =>
        refine iff_of_true allFit_nil fun _ hrank => ?_
        exact absurd (hrank rival rfl) hloses

theorem fits_normal {st : MemState} (hopen : Open st a) (hkind : a.event.kind ≠ 5)
    (hcreated : a.event.createdAt ≤ u64Max) (halone : rivalOf st a.event = none) :
    AllFit 64 (handleNormalInsertOps (cleared st a.event) a.event a.source a.receivedAtMs) ↔
      InsertFits st a := by
  rw [handleNormalInsertOps, cleared_events, insertFits_open hopen, halone]
  split
  next hmem => exact iff_of_true allFit_nil fun hfresh => absurd hmem hfresh
  next hfresh =>
    rw [fits_searchable hkind hcreated]
    exact ⟨fun h _ _ => h, fun h => h hfresh fun rival hrival => nomatch hrival⟩

theorem insertOps_not_admitted {st : MemState} (h : ¬ Admitted a) :
    insertOps st a.event a.source a.receivedAtMs = [] := by
  unfold Admitted at h
  unfold insertOps
  split
  · rfl
  · split
    · rfl
    · split
      · rfl
      · simp_all

theorem insertOps_admitted (h : Admitted a) (st : MemState) :
    insertOps st a.event a.source a.receivedAtMs =
      match idTombstone st a.event with
      | some _ => []
      | none => insertLiveOps (cleared st a.event) a.event a.source a.receivedAtMs := by
  obtain ⟨hvalid, hephemeral, hexpired⟩ := h
  unfold insertOps insertCheckedOps idTombstone cleared
  simp only [hvalid, hephemeral, hexpired, not_true_eq_false, if_false, Bool.false_eq_true]
  cases htomb : st.tombstones.lookup a.event.id with
  | none => simp
  | some tomb => cases happ : tombstoneApplies tomb a.event <;> simp [Option.filter_some, happ]

theorem insertLiveOps_eq (st : MemState) (event : RawEvent) (source : RelayUrl) (t : Nat) :
    insertLiveOps st event source t =
      match blockingAddress st event with
      | some _ => []
      | none =>
        if event.kind = 5 then handleKind5InsertOps st event source t
        else if event.isReplaceable then handleSupersessionOps st event source t none
        else if event.isParamReplaceable then handleSupersessionOps st event source t event.dTag
        else handleNormalInsertOps st event source t := rfl

/-- An insert stays within its words exactly when the event is not taken in or has room. -/
theorem fits_insert (hcreated : a.event.createdAt ≤ u64Max) (st : MemState) :
    AllFit 64 (insertOps st a.event a.source a.receivedAtMs) ↔ InsertFits st a := by
  by_cases hadm : Admitted a
  · rw [insertOps_admitted hadm]
    cases hid : idTombstone st a.event with
    | some =>
      refine iff_of_true allFit_nil fun hwins => ?_
      cases hid.symm.trans hwins.1.2.1
    | none =>
      dsimp only
      rw [insertLiveOps_eq, blockingAddress_cleared]
      cases haddr : blockingAddress st a.event with
      | some =>
        refine iff_of_true allFit_nil fun hwins => ?_
        cases haddr.symm.trans hwins.1.2.2
      | none =>
        have hopen : Open st a := ⟨hadm, hid, haddr⟩
        dsimp only
        split
        next hkind => exact fits_kind5 hopen hkind
        next hkind =>
          split
          next hrep => exact fits_supersession hopen hkind hcreated (by rw [rivalOf, if_pos hrep])
          next hrep =>
            split
            next hpar =>
              exact fits_supersession hopen hkind hcreated
                (by rw [rivalOf, if_neg hrep, if_pos hpar])
            next hpar =>
              exact fits_normal hopen hkind hcreated (by rw [rivalOf, if_neg hrep, if_neg hpar])
  · rw [insertOps_not_admitted hadm]
    exact iff_of_true allFit_nil fun hwins => absurd hwins.1.1 hadm

/-- How many of `n` turns are taken before the clock stops the pass. -/
def turns (call : GcCall) : Nat → Nat → Nat
  | 0, _ => 0
  | n + 1, reads =>
    if call.budget.maxDurationMs ≤ call.clock reads % 2 ^ 32 then 1
    else turns call n (reads + 1) + 1

/-- The stored rows whose time has run out. -/
def due (call : GcCall) (st : MemState) : Nat :=
  (st.events.entries.filter fun e =>
    e.2.raw.expiration.any fun exp => decide (exp ≤ call.nowSecs)).length

/-- The rows that a pass reaps: those due, up to the budget and as long as time remains. -/
def reaped (call : GcCall) (st : MemState) : Nat :=
  turns call (min call.budget.maxEventsPerStep (due call st)) 0

theorem length_expiredIds (st : MemState) :
    (expiredIds call st).length = min call.budget.maxEventsPerStep (due call st) := by
  rw [expiredIds, List.length_take, keysWhere, (call.expiredOrder.perm _).length_eq,
    List.length_map, due]

theorem nodup_expiredIds (st : MemState) : (expiredIds call st).Nodup := by
  refine (List.take_sublist _ _).nodup ?_
  rw [keysWhere, (call.expiredOrder.perm _).nodup_iff]
  exact (List.filter_sublist.map _).nodup (AList.nodupKeys st.events)

theorem mem_of_mem_expiredIds {call : GcCall} {st : MemState} {id : String}
    (h : id ∈ expiredIds call st) : id ∈ st.events := by
  obtain ⟨row, hrow, -⟩ := mem_keysWhere.mp (List.mem_of_mem_take h)
  exact (mem_iff_lookup _ _).mpr ⟨row, hrow⟩

theorem mem_reapOne {nowSecs : Nat} {pass : Pass} {id other : String} (hne : other ≠ id)
    (hmem : other ∈ pass.st.events) : other ∈ (reapOne nowSecs pass id).st.events := by
  unfold reapOne
  split
  · exact hmem
  · dsimp only
    rw [(emitDeleted_rows _ _ _ _ _).1]
    exact AList.mem_erase.mpr ⟨hne, hmem⟩

/-- A pass makes one round for each row it reaps. -/
theorem reapOps_eq {ids : List String} {pass : Pass} (hnodup : ids.Nodup)
    (hmem : ∀ id ∈ ids, id ∈ pass.st.events) : reapOps call ids pass =
      rounds [.mul call.nowSecs 1000] pass.st.ingestSeq (turns call ids.length pass.reads) := by
  induction ids generalizing pass with
  | nil => rfl
  | cons id rest ih =>
    obtain ⟨hfresh, hrest⟩ := List.nodup_cons.mp hnodup
    obtain ⟨row, hrow⟩ := (mem_iff_lookup _ _).mp (hmem id List.mem_cons_self)
    have hone : reapOneOps call.nowSecs pass id =
        [.mul call.nowSecs 1000, .add pass.st.ingestSeq 1] := by
      rw [reapOneOps, hrow]
      rfl
    have hseq : (reapOne call.nowSecs pass id).st.ingestSeq = pass.st.ingestSeq + 1 := by
      rw [reapOne, hrow]
      exact ingestSeq_emitDeleted _ _ _ _ _
    have hkept : ∀ other ∈ rest, other ∈ (reapOne call.nowSecs pass id).st.events :=
      fun other hother => mem_reapOne (fun heq => hfresh (heq ▸ hother))
        (hmem other (List.mem_cons_of_mem _ hother))
    have hnext : reapOps call rest
          { reapOne call.nowSecs pass id with reads := pass.reads + 1 } =
        rounds [.mul call.nowSecs 1000] (reapOne call.nowSecs pass id).st.ingestSeq
          (turns call rest.length (pass.reads + 1)) := ih hrest hkept
    rw [reapOps, hone, List.length_cons, turns, GcCall.late]
    by_cases hlate : call.budget.maxDurationMs ≤ call.clock pass.reads % 2 ^ 32
    · rw [if_pos hlate, if_pos (decide_eq_true hlate)]
      rfl
    · rw [if_neg hlate, if_neg (Bool.eq_false_iff.mp (decide_eq_false hlate)), hnext, hseq]
      rfl

/-- No row is reaped, or the log and the time have room for their entries. -/
def GcFits (call : GcCall) (st : MemState) : Prop :=
  0 < reaped call st →
    call.nowSecs * 1000 ≤ u64Max ∧ st.ingestSeq + reaped call st ≤ u64Max

instance (call : GcCall) (st : MemState) : Decidable (GcFits call st) := by
  unfold GcFits
  infer_instance

theorem fits_gcStep (st : MemState) : AllFit 64 (gcStepWithPinsOps call st) ↔ GcFits call st := by
  have hrounds : gcStepWithPinsOps call st =
      rounds [.mul call.nowSecs 1000] st.ingestSeq (reaped call st) := by
    rw [reaped, ← length_expiredIds]
    exact reapOps_eq call (nodup_expiredIds call st) fun _ => mem_of_mem_expiredIds
  have hlast : st.ingestSeq + reaped call st < 2 ^ 64 ↔
      st.ingestSeq + reaped call st ≤ u64Max := by
    rw [u64Max]
    omega
  rw [hrounds, allFit_rounds, allFit_cons, millis_fits, hlast]
  exact forall_congr' fun _ => and_congr_left fun _ => and_iff_left allFit_nil

/-- In every reachable state an insert stays within its words exactly when the event is not taken
in or has room, and a collection pass exactly when nothing is reaped or there is room. -/
theorem ingestion_fits_iff (actions : List Action) (a : Arrival)
    (hcreated : a.event.createdAt ≤ u64Max) (call : GcCall) :
    (AllFit 64 (insertOps (run act .new actions) a.event a.source a.receivedAtMs) ↔
      InsertFits (run act .new actions) a) ∧
    (AllFit 64 (gcStepWithPinsOps call (run act .new actions)) ↔
      GcFits call (run act .new actions)) :=
  ⟨fits_insert hcreated _, fits_gcStep call _⟩

def doomedNote : Arrival := arrivalOf 'a' 'b' 1 1 []

/-- A deletion of the note from the first second whose milliseconds are no word of 64 bits. -/
def farDeletion : Arrival := arrivalOf 'c' 'b' 18446744073709552 5 [["e", digitKey 'a']]

def idleCall : GcCall where
  budget := ⟨0, 0, 0⟩
  nowSecs := 0
  pins := []
  guards := []
  clock := fun _ => 0
  expiredOrder := .asStored
  accessOrder := .asStored

theorem first_note_fits :
    AllFit 64 (insertOps (run act .new []) doomedNote.event doomedNote.source
      doomedNote.receivedAtMs) ∧
    AllFit 64 (gcStepWithPinsOps idleCall (run act .new [])) := by
  have h := ingestion_fits_iff [] doomedNote (by decide) idleCall
  exact ⟨h.1.mpr fun _ => ⟨by decide, by decide, by decide⟩, h.2.mpr (by decide)⟩

theorem far_deletion_overflows :
    farDeletion.event.isStructurallyValid = true ∧ farDeletion.event.createdAt ≤ u64Max ∧
    ¬ AllFit 64 (insertOps (run act .new [.insert doomedNote]) farDeletion.event
      farDeletion.source farDeletion.receivedAtMs) := by
  have hfar : Admitted farDeletion :=
    admitted_arrivalOf (by decide) (by decide) (by decide +kernel)
  have hdoomed : Admitted doomedNote := admitted_arrivalOf (by decide) (by decide) (by decide)
  refine ⟨hfar.1, by decide, ?_⟩
  rw [run_cons, run_nil, act_admitted hdoomed, insertOps_admitted hfar]
  decide +kernel

end StoreArithmetic
