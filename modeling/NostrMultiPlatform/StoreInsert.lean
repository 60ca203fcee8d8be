import NostrMultiPlatform.StoreState

/-!
# Inserting into the in-memory store

The insert path: structural check, ephemeral and expired events, per-id and
address tombstones, kind 5 deletions, supersession of replaceable coordinates,
and the plain insert. Every path runs under one lock, so it is one function of
the state.
-/
namespace StoreInsert

open StoreEvent StoreState Tables

/-- Drop a row together with its provenance, relay index, search and access entries. -/
def removeRow (st : MemState) (idHex : String) : MemState :=
  accessRemove (ftsIndexRemove (relayKindRemoveId (relayIndexRemove
    { st with
      events := st.events.erase idHex
      provenance := st.provenance.erase idHex } idHex) idHex) idHex) idHex

variable (st : MemState) (event : RawEvent) (source : String) (t : Nat)

@[simp] theorem removeRow_events (idHex : String) :
    (removeRow st idHex).events = st.events.erase idHex := rfl

@[simp] theorem removeRow_tombstones (idHex : String) :
    (removeRow st idHex).tombstones = st.tombstones := rfl

@[simp] theorem removeRow_addrTombstones (idHex : String) :
    (removeRow st idHex).addrTombstones = st.addrTombstones := rfl

/-- Record one more sighting of a row that is kept. -/
def recordSighting (st : MemState) (source : RelayUrl) (kind : Nat) (idHex : String)
    (receivedAtMs : Nat) : MemState :=
  relayKindAdd (relayIndexAdd (recordSource st source idHex receivedAtMs) source idHex)
    source kind idHex

theorem recordSighting_rows (kind : Nat) (idHex : String) (t : Nat) :
    SameRows (recordSighting st source kind idHex t) st :=
  relayKindAdd_rows _ _ _ _

/-- Write a new row and its first sighting. -/
def storeRow (st : MemState) (event : RawEvent) (source : RelayUrl) (receivedAtMs : Nat) :
    MemState :=
  recordSighting
    (accessStamp { st with events := st.events.insert event.id ⟨event, receivedAtMs⟩ } event.id)
    source event.kind event.id receivedAtMs

@[simp] theorem storeRow_events :
    (storeRow st event source t).events = st.events.insert event.id ⟨event, t⟩ :=
  (recordSighting_rows _ _ _ _ _).1

@[simp] theorem storeRow_tombstones : (storeRow st event source t).tombstones = st.tombstones :=
  (recordSighting_rows _ _ _ _ _).2.1

@[simp] theorem storeRow_addrTombstones :
    (storeRow st event source t).addrTombstones = st.addrTombstones :=
  (recordSighting_rows _ _ _ _ _).2.2

/-- Write a new row, make it searchable and record its first sighting. -/
def storeSearchableRow (st : MemState) (event : RawEvent) (source : RelayUrl)
    (receivedAtMs : Nat) : MemState :=
  recordSighting
    (ftsAddById
      (accessStamp { st with events := st.events.insert event.id ⟨event, receivedAtMs⟩ } event.id)
      event.id)
    source event.kind event.id receivedAtMs

theorem storeSearchableRow_rows :
    SameRows (storeSearchableRow st event source t) (storeRow st event source t) :=
  (recordSighting_rows _ _ _ _ _).trans
    ((ftsAddById_rows _ _).trans (recordSighting_rows _ _ _ _ _).symm)

/-- The answer to an id that is stored already: one more sighting of it. -/
def redeliver (st : MemState) (event : RawEvent) (source : RelayUrl) (receivedAtMs : Nat) :
    InsertOutcome × MemState :=
  let st' := recordSighting st source event.kind event.id receivedAtMs
  (.duplicate event.id32 (sourcesOf st' event.id).length, st')

theorem redeliver_rows :
    SameRows (redeliver st event source t).2 st := recordSighting_rows _ _ _ _ _

/-- The answer to a row that meets no other one. -/
def insertFresh (st : MemState) (event : RawEvent) (source : RelayUrl) (receivedAtMs : Nat) :
    InsertOutcome × MemState :=
  let st' := storeRow st event source receivedAtMs
  (.inserted event.id32 (sourcesOf st' event.id).length,
    emitInserted st' event.id32 event source receivedAtMs)

theorem insertFresh_rows :
    SameRows (insertFresh st event source t).2 (storeRow st event source t) := logAppend_rows _ _ _ _ _ _

/-- The same for a row that is searchable. -/
def insertSearchable (st : MemState) (event : RawEvent) (source : RelayUrl) (receivedAtMs : Nat) :
    InsertOutcome × MemState :=
  let st' := storeSearchableRow st event source receivedAtMs
  (.inserted event.id32 (sourcesOf st' event.id).length,
    emitInserted st' event.id32 event source receivedAtMs)

theorem insertSearchable_rows :
    SameRows (insertSearchable st event source t).2 (storeRow st event source t) :=
  (logAppend_rows _ _ _ _ _ _).trans (storeSearchableRow_rows _ _ _ _)

/-- The row that takes the place of an older version. -/
theorem replaced_rows (newId oldId : EventId) :
    SameRows (emitReplaced (storeSearchableRow st event source t) newId oldId event source t)
      (storeRow st event source t) :=
  (emitReplaced_rows _ _ _ _ _ _).trans (storeSearchableRow_rows _ _ _ _)

def kind5Tomb (targetId kind5Id : EventId) (kind5Pubkey : String) (deletedAt : Nat)
    (source : RelayUrl) : TombstoneRow where
  targetId := targetId
  kind5EventId := some kind5Id
  deleterPubkey := hexToBytes32 kind5Pubkey
  deletedAt := deletedAt
  sources := [source]
  origin := .kind5

/-- Later deletion time wins and sources are united; the deleter stays the first one. -/
def mergeRow (existing incoming : TombstoneRow) : TombstoneRow :=
  { existing with
    deletedAt := if existing.deletedAt < incoming.deletedAt then incoming.deletedAt
      else existing.deletedAt
    kind5EventId := if existing.deletedAt < incoming.deletedAt then incoming.kind5EventId
      else existing.kind5EventId
    sources := incoming.sources.foldl
      (fun kept src => if src ∈ kept then kept else kept ++ [src]) existing.sources }

def mergeTombstone (map : Table String TombstoneRow) (key : String) (incoming : TombstoneRow) :
    Table String TombstoneRow :=
  match map.lookup key with
  | some existing => map.insert key (mergeRow existing incoming)
  | none => map.insert key incoming

/-- A per-id tombstone blocks an event when its deleter is the event's author. -/
def tombstoneApplies (tomb : TombstoneRow) (event : RawEvent) : Bool :=
  match tomb.origin with
  | .kind5 => match tomb.deleterPubkey with
    | some dp => bytesToHex dp == event.pubkey
    | none => false
  | .nip40Expiry | .adminPurge => true

def addTombstone (st : MemState) (key : String) (row : TombstoneRow) : MemState :=
  { st with tombstones := mergeTombstone st.tombstones key row }

def addAddrTombstone (st : MemState) (key : String) (row : TombstoneRow) : MemState :=
  { st with addrTombstones := mergeTombstone st.addrTombstones key row }

def millis (seconds : Nat) : Nat := seconds * 1000 % 2 ^ 64

variable (kind5 : RawEvent)

/-- Remove a stored target of a deletion, log the removal and leave a tombstone. -/
def deleteTarget (source : RelayUrl) (st : MemState) (targetHex : String) (existing : StoredEvent) :
    MemState :=
  addTombstone
    (emitDeleted (removeRow st targetHex) kind5.id32 existing.raw.id32 .nip09
      (millis kind5.createdAt))
    targetHex (kind5Tomb existing.raw.id32 kind5.id32 kind5.pubkey kind5.createdAt source)

/-- One `e` tag: only the author's own events, stored or still to come. -/
def deleteByIdTag (source : RelayUrl) (st : MemState) (targetHex : String) : MemState :=
  match st.events.lookup targetHex with
  | some existing =>
    if existing.raw.pubkey ≠ kind5.pubkey then st
    else deleteTarget kind5 source st targetHex existing
  | none =>
    match hexToBytes32 targetHex with
    | none => st
    | some targetId =>
      addTombstone st targetHex
        (kind5Tomb targetId kind5.id32 kind5.pubkey kind5.createdAt source)

/-- Whether a stored event is deleted by the coordinate at time `deletedAt`. The kind is
classified after truncation to 16 bits, and compared before. -/
def coordinateHit (pubkey : String) (kind : Nat) (d : String) (deletedAt : Nat)
    (e : RawEvent) : Bool :=
  e.pubkey == pubkey && e.kind == kind && decide (e.createdAt ≤ deletedAt) &&
    (if isAddressableKind (kind % 2 ^ 16) then e.dTag == some d
     else isReplaceableKind (kind % 2 ^ 16))

def deleteListed (source : RelayUrl) (st : MemState) (targetHex : String) : MemState :=
  match st.events.lookup targetHex with
  | some existing => deleteTarget kind5 source st targetHex existing
  | none => st

/-- One `a` tag: remove the author's stored versions, then leave an address tombstone under
the coordinate as the tag spells it. -/
def deleteByAddrTag (source : RelayUrl) (st : MemState) (addr : String) : MemState :=
  match splitAddr addr with
  | none => st
  | some (kindStr, pubkey, d) =>
    if pubkey ≠ kind5.pubkey then st
    else match parseU32 kindStr with
      | none => st
      | some kind =>
        let targets := (st.events.entries.filter fun e =>
          coordinateHit pubkey kind d kind5.createdAt e.2.raw).map (·.1)
        addAddrTombstone (targets.foldl (deleteListed kind5 source) st) (addrKey kindStr pubkey d)
          (kind5Tomb zeroId kind5.id32 kind5.pubkey kind5.createdAt source)

/-- All deletions of one kind 5 event, `e` tags first. -/
def applyDeletions (source : RelayUrl) (st : MemState) : MemState :=
  kind5.aTags.foldl (deleteByAddrTag kind5 source)
    (kind5.eTags.foldl (deleteByIdTag kind5 source) st)

def handleKind5Insert (st : MemState) (event : RawEvent) (source : RelayUrl)
    (receivedAtMs : Nat) : InsertOutcome × MemState :=
  if event.id ∈ st.events then redeliver st event source receivedAtMs
  else insertFresh (applyDeletions event source st) event source receivedAtMs

/-- A row under its key. -/
abbrev Entry := Sigma fun _ : String => StoredEvent

/-- Rows that compete with `event`: same author and kind, and the same `d` value unless the
filter is open. -/
def competitors (st : MemState) (event : RawEvent) (dFilter : Option String) :
    List Entry :=
  st.events.entries.filter fun e =>
    e.2.raw.pubkey == event.pubkey && e.2.raw.kind == event.kind &&
      (match dFilter with
       | none => true
       | some d => e.2.raw.dTag == some d)

def newerEntry (best : Option Entry) (e : Entry) : Option Entry :=
  match best with
  | none => some e
  | some b => if b.2.raw.outranks e.2.raw then some b else some e

/-- The latest entry, the smallest id among equals. -/
def newestEntry (entries : List Entry) : Option Entry := entries.foldl newerEntry none

def handleSupersession (st : MemState) (event : RawEvent) (source : RelayUrl)
    (receivedAtMs : Nat) (dFilter : Option String) : InsertOutcome × MemState :=
  if event.id ∈ st.events then redeliver st event source receivedAtMs
  else match newestEntry (competitors st event dFilter) with
    | none => insertSearchable st event source receivedAtMs
    | some ⟨existingHex, existing⟩ =>
      let existingId := (hexToBytes32 existingHex).getD zeroId
      if event.outranks existing.raw then
        (.replaced event.id32 existingId,
          emitReplaced (storeSearchableRow (removeRow st existingHex) event source receivedAtMs)
            event.id32 existingId event source receivedAtMs)
      else (.superseded event.id32 existingId, st)

def handleNormalInsert (st : MemState) (event : RawEvent) (source : RelayUrl)
    (receivedAtMs : Nat) : InsertOutcome × MemState :=
  if event.id ∈ st.events then redeliver st event source receivedAtMs
  else insertSearchable st event source receivedAtMs

/-- The tombstone under the event's own address, where the kind is addressable and the event
carries a `d` tag. -/
def addressTombstone (st : MemState) (event : RawEvent) : Option TombstoneRow :=
  if event.isParamReplaceable then
    event.dTag.bind fun d => st.addrTombstones.lookup (addrKey (toString event.kind) event.pubkey d)
  else none

/-- The steps that follow the per-id tombstone check. -/
def insertLive (st : MemState) (event : RawEvent) (source : RelayUrl) (receivedAtMs : Nat) :
    InsertOutcome × MemState :=
  match (addressTombstone st event).filter fun tomb => decide (event.createdAt ≤ tomb.deletedAt) with
  | some tomb => (.tombstoned event.id32 tomb.kind5EventId tomb.origin, st)
  | none =>
    if event.kind = 5 then handleKind5Insert st event source receivedAtMs
    else if event.isReplaceable then handleSupersession st event source receivedAtMs none
    else if event.isParamReplaceable then handleSupersession st event source receivedAtMs event.dTag
    else handleNormalInsert st event source receivedAtMs

/-- The steps that follow the checks on the event alone. A per-id tombstone that does not
apply is removed. -/
def insertChecked (st : MemState) (event : RawEvent) (source : RelayUrl) (receivedAtMs : Nat) :
    InsertOutcome × MemState :=
  match st.tombstones.lookup event.id with
  | some tomb =>
    if tombstoneApplies tomb event then (.tombstoned event.id32 tomb.kind5EventId tomb.origin, st)
    else insertLive { st with tombstones := st.tombstones.erase event.id } event source receivedAtMs
  | none => insertLive st event source receivedAtMs

def malformedText : String := "invalid id/pubkey/sig length or non-hex"

def insert (st : MemState) (event : RawEvent) (source : RelayUrl) (receivedAtMs : Nat) :
    InsertOutcome × MemState :=
  if ¬ event.isStructurallyValid then (.rejected event.id32 (.malformed malformedText), st)
  else if event.isEphemeral then (.ephemeral event.id32, st)
  else if event.expiredAt receivedAtMs then (.rejected event.id32 .expiredOnArrival, st)
  else insertChecked st event source receivedAtMs

end StoreInsert
