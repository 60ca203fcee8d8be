import Mathlib.Data.Finset.Insert
import NostrMultiPlatform.StoreText

/-!
# State of the in-memory store

Rows, tombstones, provenance and the indexes derived from it, the access clock,
the coverage ledger, the full-text index and the bounded ingest log, with the
operations every insert path performs on them.
-/
namespace StoreState

open PostingIndex Sorted StoreEvent StoreText Tables

structure StoredEvent where
  raw : RawEvent
  receivedAtMs : Nat
  deriving DecidableEq, Repr

inductive TombstoneOrigin where
  | kind5 | nip40Expiry | adminPurge
  deriving DecidableEq, Repr

structure TombstoneRow where
  targetId : EventId
  kind5EventId : Option EventId
  deleterPubkey : Option PubKey
  deletedAt : Nat
  sources : List RelayUrl
  origin : TombstoneOrigin
  deriving DecidableEq, Repr

inductive RejectReason where
  | badSignature
  | badDelegation (text : String)
  | malformed (text : String)
  | expiredOnArrival
  deriving DecidableEq, Repr

inductive InsertOutcome where
  | inserted (id : EventId) (sourcesAfter : Nat)
  | duplicate (id : EventId) (sourcesAfter : Nat)
  | replaced (newId replacedId : EventId)
  | superseded (id currentId : EventId)
  | tombstoned (id : EventId) (kind5EventId : Option EventId) (origin : TombstoneOrigin)
  | rejected (id : EventId) (reason : RejectReason)
  | ephemeral (id : EventId)
  deriving DecidableEq, Repr

inductive DeleteReason where
  | nip09 | nip40Expiry | adminPurge
  deriving DecidableEq, Repr

inductive LogOp where
  | inserted
  | replaced (replacedId : EventId)
  | deleted (targetId : EventId) (reason : DeleteReason)
  deriving DecidableEq, Repr

structure StoreLogEntry where
  seq : Nat
  op : LogOp
  eventId : EventId
  rawEvent : Option RawEvent
  sourceRelay : Option RelayUrl
  receivedAtMs : Nat
  deriving DecidableEq, Repr

structure LogRetentionClaim where
  afterSeq : Nat
  maxLagEntries : Nat
  deriving DecidableEq, Repr

structure ProvenanceEntry where
  relayUrl : RelayUrl
  firstSeenMs : Nat
  lastSeenMs : Nat
  primary : Bool
  deriving DecidableEq, Repr

/-- What one search scope indexes. -/
structure CompiledIndexSpec where
  scopeId : Nat
  kinds : Finset Nat
  extract : StoredEvent → List (String × String)

/-- Postings of one scope; of a document its kind and time are kept. -/
abbrev ScopeIndex := Index SearchDocumentKey String (Nat × Nat)

structure FtsState where
  text : TextRules
  specs : Table Nat CompiledIndexSpec
  indices : Table Nat ScopeIndex

/-- Rows and tombstones are keyed by the hex id as it was spelled on the wire. -/
structure MemState where
  events : Table String StoredEvent
  tombstones : Table String TombstoneRow
  addrTombstones : Table String TombstoneRow
  provenance : Table String (List ProvenanceEntry)
  relayIndex : Table RelayUrl (Finset String)
  relayKind : Table RelayUrl (Table Nat (Finset String))
  ingestSeq : Nat
  ingestLog : List StoreLogEntry
  logGcFloor : Nat
  retentionClaims : List LogRetentionClaim
  accessSeq : Nat
  accessIndex : Table String Nat
  coverage : Table (String × String) Nat
  fts : FtsState

/-- No scope is installed; the text rules come with the scopes. -/
def FtsState.new : FtsState := ⟨⟨id, Char.isAlphanum⟩, ∅, ∅⟩

def MemState.new : MemState where
  events := ∅
  tombstones := ∅
  addrTombstones := ∅
  provenance := ∅
  relayIndex := ∅
  relayKind := ∅
  ingestSeq := 0
  ingestLog := []
  logGcFloor := 0
  retentionClaims := []
  accessSeq := 0
  accessIndex := ∅
  coverage := ∅
  fts := FtsState.new

/-- The two states hold the same rows, tombstones and address tombstones. -/
def SameRows (a b : MemState) : Prop :=
  a.events = b.events ∧ a.tombstones = b.tombstones ∧ a.addrTombstones = b.addrTombstones

theorem SameRows.symm {a b : MemState} (h : SameRows a b) : SameRows b a :=
  ⟨h.1.symm, h.2.1.symm, h.2.2.symm⟩

theorem SameRows.trans {a b c : MemState} (hab : SameRows a b) (hbc : SameRows b c) :
    SameRows a c :=
  ⟨hab.1.trans hbc.1, hab.2.1.trans hbc.2.1, hab.2.2.trans hbc.2.2⟩

def maxProvenanceEntries : Nat := 32

def provenanceLe (a b : ProvenanceEntry) : Prop :=
  a.firstSeenMs < b.firstSeenMs ∨ (a.firstSeenMs = b.firstSeenMs ∧ a.relayUrl ≤ b.relayUrl)

instance : DecidableRel provenanceLe := fun a b => by unfold provenanceLe; infer_instance

variable (entries : List ProvenanceEntry) (st : MemState) (idHex : String)

/-- Earliest first sighting first; only the head is primary. -/
def sortProvenance : List ProvenanceEntry :=
  (entries.insertionSort provenanceLe).mapIdx fun i e => { e with primary := i == 0 }

/-- Position of the least recently seen entry behind the primary one. -/
def oldestIdx : Option Nat :=
  (entries.zipIdx.tail.foldl
    (fun best e => match best with
      | none => some e
      | some b => if e.1.lastSeenMs < b.1.lastSeenMs then some e else some b) none).map Prod.snd

def upsertProvenance (relayUrl : RelayUrl) (receivedAtMs : Nat) : List ProvenanceEntry :=
  let fresh : ProvenanceEntry := ⟨relayUrl, receivedAtMs, receivedAtMs, false⟩
  match entries.findIdx? (fun e => e.relayUrl == relayUrl) with
  | some i =>
    sortProvenance (entries.modify i fun e =>
      { e with
        firstSeenMs := min receivedAtMs e.firstSeenMs
        lastSeenMs := max receivedAtMs e.lastSeenMs })
  | none =>
    if maxProvenanceEntries ≤ entries.length then
      match oldestIdx entries with
      | some i => sortProvenance (entries.set i fresh)
      | none => sortProvenance (entries ++ [fresh])
    else sortProvenance (entries ++ [fresh])

/-- Provenance entries of one row. -/
def sourcesOf : List ProvenanceEntry :=
  (st.provenance.lookup idHex).getD []

def recordSource (source : RelayUrl) (idHex : String) (receivedAtMs : Nat) : MemState :=
  { st with provenance :=
      st.provenance.insert idHex (upsertProvenance (sourcesOf st idHex) source receivedAtMs) }

def relayIndexAdd (relay : RelayUrl) (idHex : String) : MemState :=
  { st with relayIndex :=
      st.relayIndex.insert relay (insert idHex ((st.relayIndex.lookup relay).getD ∅)) }

/-- The set without `idHex`, or nothing where that empties it. -/
def pruneId (ids : Finset String) : Option (Finset String) :=
  if ids.erase idHex = ∅ then none else some (ids.erase idHex)

def relayIndexRemove : MemState :=
  { st with relayIndex := filterMapValues (pruneId idHex) st.relayIndex }

def relayKindAdd (relay : RelayUrl) (kind : Nat) (idHex : String) : MemState :=
  if isRelayProvenancePrivate kind then st
  else
    let kinds := (st.relayKind.lookup relay).getD ∅
    { st with relayKind :=
        st.relayKind.insert relay (kinds.insert kind (insert idHex ((kinds.lookup kind).getD ∅))) }

/-- The kind buckets without `idHex`, or nothing where that empties them all. -/
def pruneKinds (kinds : Table Nat (Finset String)) : Option (Table Nat (Finset String)) :=
  let kept := filterMapValues (pruneId idHex) kinds
  if kept.entries.isEmpty then none else some kept

def relayKindRemoveId : MemState :=
  { st with relayKind := filterMapValues (pruneKinds idHex) st.relayKind }

def accessStamp : MemState :=
  { st with
    accessSeq := st.accessSeq + 1
    accessIndex := st.accessIndex.insert idHex (st.accessSeq + 1) }

def accessRemove : MemState :=
  { st with accessIndex := st.accessIndex.erase idHex }

theorem relayKindAdd_rows (st : MemState) (relay : String) (kind : Nat) (idHex : String) :
    SameRows (relayKindAdd st relay kind idHex) st := by
  unfold relayKindAdd
  split <;> exact ⟨rfl, rfl, rfl⟩

/-- Install the scopes; what was indexed before is gone. -/
def FtsState.install (text : TextRules) (specs : List CompiledIndexSpec) : FtsState :=
  specs.foldl (fun fts spec =>
    { fts with
      specs := fts.specs.insert spec.scopeId spec
      indices := fts.indices.insert spec.scopeId
        ((fts.indices.lookup spec.scopeId).getD Index.empty) })
    ⟨text, ∅, ∅⟩

/-- The distinct tokens of a row under a scope, in order. -/
def docTokens (text : TextRules) (spec : CompiledIndexSpec) (stored : StoredEvent) : List String :=
  (SortedSet.ofList ((spec.extract stored).flatMap fun field => tokenize text field.2)).elems

/-- File a row under one scope, anew if it was there; a row without tokens leaves the scope
as it is. -/
def FtsState.addToScope (stored : StoredEvent) (doc : SearchDocumentKey) (fts : FtsState)
    (scopeId : Nat) : FtsState :=
  match fts.specs.lookup scopeId with
  | none => fts
  | some spec =>
    if docTokens fts.text spec stored = [] then fts
    else
      { fts with
        indices := fts.indices.insert scopeId
          (((fts.indices.lookup scopeId).getD Index.empty).addDoc doc
            (revCreatedAt stored.raw.createdAt) (stored.raw.kind, stored.raw.createdAt)
            (docTokens fts.text spec stored)) }

def FtsState.indexAdd (fts : FtsState) (stored : StoredEvent) : FtsState :=
  match stored.raw.idBytes with
  | none => fts
  | some bytes =>
    (((values fts.specs).filter fun spec => stored.raw.kind ∈ spec.kinds).map (·.scopeId)).foldl
      (FtsState.addToScope stored ⟨bytes⟩) fts

/-- Take a document out of every scope. -/
def FtsState.indexRemove (fts : FtsState) (idHex : String) : FtsState :=
  match hexToBytes32 idHex with
  | none => fts
  | some bytes =>
    { fts with indices := filterMapValues (fun index => some (index.removeDoc ⟨bytes⟩)) fts.indices }

def ftsIndexRemove : MemState :=
  { st with fts := st.fts.indexRemove idHex }

/-- Index the stored row under `idHex`. -/
def ftsAddById : MemState :=
  match st.events.lookup idHex with
  | none => st
  | some stored => { st with fts := st.fts.indexAdd stored }

theorem ftsAddById_rows (st : MemState) (idHex : String) : SameRows (ftsAddById st idHex) st := by
  unfold ftsAddById
  split <;> exact ⟨rfl, rfl, rfl⟩

def defaultLogMaxEntries : Nat := 10000

/-- The slowest claim still within its lag bound. -/
def protectedFloor (latest : Nat) (claims : List LogRetentionClaim) : Option Nat :=
  ((claims.filter fun c => latest - c.afterSeq ≤ c.maxLagEntries).map (·.afterSeq)).min?

/-- The retention floor, held back by the slowest eligible claim. -/
def targetFloor (latest : Nat) (claims : List LogRetentionClaim) : Nat :=
  match protectedFloor latest claims with
  | some p => min (latest - defaultLogMaxEntries) p
  | none => latest - defaultLogMaxEntries

def logGcTrim : MemState :=
  let newFloor := max st.logGcFloor (targetFloor st.ingestSeq st.retentionClaims)
  if newFloor ≤ st.logGcFloor then st
  else
    { st with
      ingestLog := st.ingestLog.filter fun e => ¬ (st.logGcFloor < e.seq ∧ e.seq ≤ newFloor)
      logGcFloor := newFloor }

def logAppend (op : LogOp) (eventId : EventId) (rawEvent : Option RawEvent)
    (sourceRelay : Option RelayUrl) (receivedAtMs : Nat) : MemState :=
  logGcTrim { st with
    ingestSeq := st.ingestSeq + 1
    ingestLog := st.ingestLog ++
      [⟨st.ingestSeq + 1, op, eventId, rawEvent, sourceRelay, receivedAtMs⟩] }

theorem logGcTrim_rows (st : MemState) : SameRows (logGcTrim st) st := by
  unfold logGcTrim
  dsimp only
  split <;> exact ⟨rfl, rfl, rfl⟩

theorem logAppend_rows (st : MemState) (op : LogOp) (id : EventId) (raw : Option RawEvent)
    (source : Option RelayUrl) (t : Nat) : SameRows (logAppend st op id raw source t) st :=
  logGcTrim_rows _

def emitInserted (eventId : EventId) (raw : RawEvent) (source : RelayUrl) (receivedAtMs : Nat) :
    MemState :=
  logAppend st .inserted eventId (some raw) (some source) receivedAtMs

def emitReplaced (newId replacedId : EventId) (raw : RawEvent) (source : RelayUrl)
    (receivedAtMs : Nat) : MemState :=
  logAppend st (.replaced replacedId) newId (some raw) (some source) receivedAtMs

theorem emitReplaced_rows (st : MemState) (newId replacedId : EventId) (raw : RawEvent)
    (source : RelayUrl) (t : Nat) : SameRows (emitReplaced st newId replacedId raw source t) st :=
  logAppend_rows _ _ _ _ _ _

def emitDeleted (carrier target : EventId) (reason : DeleteReason) (receivedAtMs : Nat) :
    MemState :=
  logAppend st (.deleted target reason) carrier none none receivedAtMs

end StoreState
