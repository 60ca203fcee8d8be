import NostrMultiPlatform.StoreInsert

/-!
# Deletion by filter, garbage collection and coverage

The removals that no event asks for: the delete filters of the kernel, and the
bounded collection pass that reaps expired rows, evicts the least recently read
ones and purges old tombstones, lowering the coverage rows an eviction holes.
The order in which a hash map is walked and the clock are inputs.
-/
namespace StoreGc

open StoreEvent StoreState StoreInsert Tables

/-- An order in which a hash map hands out its keys. -/
structure HashOrder where
  walk : List String → List String
  perm : ∀ keys, (walk keys).Perm keys

def HashOrder.asStored : HashOrder := ⟨id, fun _ => .refl _⟩

theorem HashOrder.mem_walk (order : HashOrder) (keys : List String) (id : String) :
    id ∈ order.walk keys ↔ id ∈ keys := (order.perm keys).mem_iff

/-- Keys of the stored rows that satisfy `p`, as the map hands them out. -/
def keysWhere (order : HashOrder) (st : MemState) (p : String → StoredEvent → Bool) :
    List String :=
  order.walk ((st.events.entries.filter fun e => p e.1 e.2).map (·.1))

theorem mem_keysWhere {order : HashOrder} {st : MemState} {p : String → StoredEvent → Bool}
    {id : String} : id ∈ keysWhere order st p ↔
      ∃ row, st.events.lookup id = some row ∧ p id row = true := by
  rw [keysWhere, order.mem_walk]
  simp only [List.mem_map, List.mem_filter]
  constructor
  · rintro ⟨⟨key, row⟩, ⟨hmem, hp⟩, rfl⟩
    exact ⟨row, AList.mem_lookup_iff.mpr hmem, hp⟩
  · rintro ⟨row, hrow, hp⟩
    exact ⟨⟨id, row⟩, ⟨AList.mem_lookup_iff.mp hrow, hp⟩, rfl⟩

inductive DeleteFilter where
  | byRelayOnly (relay : RelayUrl)
  | byAuthor (pubkey : PubKey)
  | byIds (ids : List EventId)
  | byKindRange (lo hi : Nat)
  deriving DecidableEq, Repr

def DeleteFilter.isRelayOnly : DeleteFilter → Bool
  | .byRelayOnly _ => true
  | _ => false

/-- The relay is the only source of the row. -/
def onlySource (st : MemState) (relay : RelayUrl) (idHex : String) : Bool :=
  match st.provenance.lookup idHex with
  | some [entry] => entry.relayUrl == relay
  | _ => false

def idsToRemove (order : HashOrder) (st : MemState) : DeleteFilter → List String
  | .byRelayOnly relay => keysWhere order st fun id _ => onlySource st relay id
  | .byAuthor pubkey => keysWhere order st fun _ row => row.raw.pubkey == bytesToHex pubkey
  | .byIds ids => (ids.map bytesToHex).filter (· ∈ st.events)
  | .byKindRange lo hi =>
    keysWhere order st fun _ row => decide (lo ≤ row.raw.kind) && decide (row.raw.kind ≤ hi)

/-- Remove a row; a purge is logged, a removal for retention is not. -/
def purgeRow (emitPurge : Bool) (st : MemState) (idHex : String) : MemState :=
  match emitPurge, hexToBytes32 idHex with
  | true, some eventId => emitDeleted (removeRow st idHex) eventId eventId .adminPurge 0
  | _, _ => removeRow st idHex

def deleteByFilter (order : HashOrder) (st : MemState) (filter : DeleteFilter) :
    Nat × MemState :=
  ((idsToRemove order st filter).length,
    (idsToRemove order st filter).foldl (purgeRow (!filter.isRelayOnly)) st)

structure GcBudget where
  maxEventsPerStep : Nat
  maxDurationMs : Nat
  maxTotalEvents : Nat

structure GcReport where
  expiredReaped : Nat := 0
  lruEvicted : Nat := 0
  tombstonesPurged : Nat := 0
  addrTombstonesPurged : Nat := 0
  durationMs : Nat := 0

/-- The bound of a coverage row with the events it speaks of. -/
structure CoverageGuard where
  filterHash : String
  relay : RelayUrl
  coveredThrough : Nat
  matchesEvent : String → String → Nat → Nat → List (List String) → Bool

def CoverageGuard.key (guard : CoverageGuard) : String × String := (guard.filterHash, guard.relay)

def CoverageGuard.matchesRow (guard : CoverageGuard) (idHex : String) (row : StoredEvent) : Bool :=
  guard.matchesEvent idHex row.raw.pubkey row.raw.kind row.raw.createdAt row.raw.tags

/-- The input of one call. `clock` answers the reads of the elapsed milliseconds in turn. -/
structure GcCall where
  budget : GcBudget
  nowSecs : Nat
  pins : List EventId
  guards : List CoverageGuard
  clock : Nat → Nat
  expiredOrder : HashOrder
  accessOrder : HashOrder

/-- The store in the middle of a pass, and how often the clock was read. -/
structure Pass where
  st : MemState
  report : GcReport
  reads : Nat

/-- The time budget is spent at the next read of the clock. -/
def GcCall.late (call : GcCall) (pass : Pass) : Bool :=
  decide (call.budget.maxDurationMs ≤ call.clock pass.reads % 2 ^ 32)

def expiredIds (call : GcCall) (st : MemState) : List String :=
  (keysWhere call.expiredOrder st fun _ row =>
    row.raw.expiration.any fun exp => decide (exp ≤ call.nowSecs)).take call.budget.maxEventsPerStep

def expiryTomb (targetId : EventId) (nowSecs : Nat) : TombstoneRow where
  targetId := targetId
  kind5EventId := none
  deleterPubkey := none
  deletedAt := nowSecs
  sources := []
  origin := .nip40Expiry

def buryExpired (st : MemState) (idHex : String) (targetId : EventId) (nowSecs : Nat) : MemState :=
  { st with tombstones := st.tombstones.insert idHex (expiryTomb targetId nowSecs) }

def reapOne (nowSecs : Nat) (pass : Pass) (idHex : String) : Pass :=
  match pass.st.events.lookup idHex with
  | none => pass
  | some row =>
    { pass with
      st := emitDeleted (buryExpired (removeRow pass.st idHex) idHex row.raw.id32 nowSecs)
        row.raw.id32 row.raw.id32 .nip40Expiry (millis nowSecs)
      report := { pass.report with expiredReaped := pass.report.expiredReaped + 1 } }

/-- The loop over the expired rows, and whether it ran out of time. -/
def reap (call : GcCall) : List String → Pass → Pass × Bool
  | [], pass => (pass, false)
  | idHex :: rest, pass =>
    let next := { reapOne call.nowSecs pass idHex with reads := pass.reads + 1 }
    if call.late pass then (next, true) else reap call rest next

/-- For each guard the oldest event in its covered range that was evicted. -/
abbrev Slots := List (CoverageGuard × Option Nat)

def noteSlot (idHex : String) (row : StoredEvent) (slot : CoverageGuard × Option Nat) :
    CoverageGuard × Option Nat :=
  if row.raw.createdAt ≤ slot.1.coveredThrough ∧ slot.1.matchesRow idHex row then
    (slot.1, some ((slot.2.map (min · row.raw.createdAt)).getD row.raw.createdAt))
  else slot

def evictOne (pass : Pass) (slots : Slots) (idHex : String) : Pass × Slots :=
  match pass.st.events.lookup idHex with
  | none => (pass, slots)
  | some row =>
    ({ pass with
        st := removeRow pass.st idHex
        report := { pass.report with lruEvicted := pass.report.lruEvicted + 1 } },
      slots.map (noteSlot idHex row))

def evict (call : GcCall) : List String → Pass → Slots → (Pass × Slots) × Bool
  | [], pass, slots => ((pass, slots), false)
  | idHex :: rest, pass, slots =>
    let (after, slots') := evictOne pass slots idHex
    let next := { after with reads := pass.reads + 1 }
    if call.late pass then ((next, slots'), true) else evict call rest next slots'

/-- Lower one row to just below the oldest evicted event; a row at zero goes. -/
def lowerRow (coverage : Table (String × String) Nat) (slot : CoverageGuard × Option Nat) :
    Table (String × String) Nat :=
  match slot.2, coverage.lookup slot.1.key with
  | some oldest, some existing =>
    if oldest - 1 < existing then
      if oldest - 1 = 0 then coverage.erase slot.1.key
      else coverage.insert slot.1.key (oldest - 1)
    else coverage
  | _, _ => coverage

def lowerCoverageRows (st : MemState) (slots : Slots) : MemState :=
  { st with coverage := slots.foldl lowerRow st.coverage }

/-- Unpinned rows, least recently read first. -/
def candidates (call : GcCall) (st : MemState) : List String :=
  (((call.accessOrder.walk st.accessIndex.keys).filter
      fun idHex => idHex ∉ call.pins.map bytesToHex).map
    fun idHex => ((st.accessIndex.lookup idHex).getD 0, idHex)).mergeSort
      (fun a b => decide (a.1 ≤ b.1)) |>.map (·.2)

def victims (call : GcCall) (st : MemState) : List String :=
  (candidates call st).take
    (min (st.events.keys.length - call.budget.maxTotalEvents) call.budget.maxEventsPerStep)

/-- The eviction phase, and whether it ran out of time. The coverage rows are lowered either way. -/
def evictLru (call : GcCall) (pass : Pass) : Pass × Bool :=
  if call.budget.maxTotalEvents < pass.st.events.keys.length then
    let ((after, slots), out) :=
      evict call (victims call pass.st) pass (call.guards.map fun guard => (guard, none))
    ({ after with st := lowerCoverageRows after.st slots }, out)
  else (pass, false)

def tombstoneMaxAgeSecs : Nat := 90 * 24 * 60 * 60

def stale (nowSecs : Nat) (tomb : TombstoneRow) : Bool :=
  decide (tombstoneMaxAgeSecs < nowSecs - tomb.deletedAt)

def keepFresh (nowSecs : Nat) (tomb : TombstoneRow) : Option TombstoneRow :=
  if stale nowSecs tomb then none else some tomb

def purgeTombstones (nowSecs : Nat) (pass : Pass) : Pass :=
  { pass with
    st :=
      { pass.st with
        tombstones := filterMapValues (keepFresh nowSecs) pass.st.tombstones
        addrTombstones := filterMapValues (keepFresh nowSecs) pass.st.addrTombstones }
    report :=
      { pass.report with
        tombstonesPurged := ((values pass.st.tombstones).filter (stale nowSecs)).length
        addrTombstonesPurged := ((values pass.st.addrTombstones).filter (stale nowSecs)).length } }

def finish (call : GcCall) (pass : Pass) : MemState × GcReport :=
  (pass.st, { pass.report with durationMs := call.clock pass.reads % 2 ^ 32 })

def gcStepWithPins (call : GcCall) (st : MemState) : MemState × GcReport :=
  let (reaped, outOfTime) := reap call (expiredIds call st) ⟨st, {}, 0⟩
  if outOfTime then finish call reaped
  else
    let (evicted, outOfTime) := evictLru call reaped
    if outOfTime then finish call evicted
    else finish call (purgeTombstones call.nowSecs evicted)

/-- A completed sync raises the bound of its row, never lowers it. -/
def recordCoverage (st : MemState) (filterHash : String) (relay : RelayUrl)
    (coveredThrough : Nat) : MemState :=
  if (st.coverage.lookup (filterHash, relay)).getD 0 < coveredThrough then
    { st with coverage := st.coverage.insert (filterHash, relay) coveredThrough }
  else st

/-- A point read stamps the access clock on a hit. -/
def getById (st : MemState) (id : EventId) : Option StoredEvent × MemState :=
  match st.events.lookup (bytesToHex id) with
  | some row => (some row, accessStamp st (bytesToHex id))
  | none => (none, st)

def replaceLogRetentionClaims (st : MemState) (claims : List LogRetentionClaim) : MemState :=
  { st with retentionClaims := claims }

def installSearchIndexSpecs (st : MemState) (text : StoreText.TextRules)
    (specs : List CompiledIndexSpec) : MemState :=
  { st with fts := FtsState.install text specs }

end StoreGc
