import NostrMultiPlatform.StoreLog

/-!
# The ingest log on disk

The durable backend keeps its log in two tables: entries under their numbers, and
a head and a floor under two keys. Seen as a store with nothing else in it, it
appends, trims and scans as the store in memory does.
-/
namespace LmdbLog

open StoreEvent StoreState StoreLog RetainedLog Sorted Runs

/-- What is on disk for an entry; the number is its key. -/
structure LogEntryPersist where
  version : Nat
  op : LogOp
  eventId : EventId
  rawEvent : Option RawEvent
  sourceRelay : Option RelayUrl
  receivedAtMs : Nat

def LogEntryPersist.entry (row : LogEntryPersist) (seq : Nat) : StoreLogEntry :=
  ⟨seq, row.op, row.eventId, row.rawEvent, row.sourceRelay, row.receivedAtMs⟩

/-- Both tables; a key that is not there reads as zero. -/
structure LogDb where
  lastSeq : Nat
  gcFloor : Nat
  rows : SortedMap Nat LogEntryPersist

namespace LogDb

def empty : LogDb := ⟨0, 0, ∅⟩

def entries (db : LogDb) : List StoreLogEntry := db.rows.rows.map fun row => row.2.entry row.1

end LogDb

inductive StoreError where
  | encoding (message : String)

inductive Append where
  | inserted (eventId : EventId) (rawEvent : RawEvent) (sourceRelay : RelayUrl) (receivedAtMs : Nat)
  | replaced (newEventId replacedId : EventId) (rawEvent : RawEvent) (sourceRelay : RelayUrl)
    (receivedAtMs : Nat)
  | deleted (carrierEventId targetId : EventId) (reason : DeleteReason) (receivedAtMs : Nat)

def Append.persist : Append → LogEntryPersist
  | .inserted eventId rawEvent sourceRelay receivedAtMs =>
    ⟨1, .inserted, eventId, some rawEvent, some sourceRelay, receivedAtMs⟩
  | .replaced newEventId replacedId rawEvent sourceRelay receivedAtMs =>
    ⟨1, .replaced replacedId, newEventId, some rawEvent, some sourceRelay, receivedAtMs⟩
  | .deleted carrierEventId targetId reason receivedAtMs =>
    ⟨1, .deleted targetId reason, carrierEventId, none, none, receivedAtMs⟩

def trimInTxn (db : LogDb) (latestSeq : Nat) (claims : List LogRetentionClaim) : LogDb :=
  let newFloor := max db.gcFloor (targetFloor latestSeq claims)
  if newFloor ≤ db.gcFloor then db
  else
    let keysToDelete := db.rows.keys.filter fun seq => db.gcFloor + 1 ≤ seq ∧ seq < newFloor + 1
    { db with rows := keysToDelete.foldl SortedMap.erase db.rows, gcFloor := newFloor }

/-- One append and its trim, in one transaction, under the claims as they are at that time. -/
def append (db : LogDb) (call : Append × List LogRetentionClaim) : LogDb :=
  let seq := db.lastSeq + 1
  trimInTxn { db with lastSeq := seq, rows := db.rows.insert seq call.1.persist } seq call.2

/-- Some run of appends ends in the log. -/
def Reachable (db : LogDb) : Prop := ∃ calls, db = run append .empty calls

def decodeEntry (row : LogEntryPersist) : Except StoreError LogEntryPersist :=
  if 1 < row.version then
    .error (.encoding s!"ingest_log: unknown format version {row.version} (max supported: 1)")
  else .ok row

/-- The scan ends after the entry that reaches the limit. -/
def collect (limit : Nat) : List (Nat × LogEntryPersist) → List StoreLogEntry →
    Except StoreError (List StoreLogEntry)
  | [], entries => .ok entries
  | (seq, row) :: rest, entries =>
    match decodeEntry row with
    | .error e => .error e
    | .ok persist =>
      if limit ≤ entries.length + 1 then .ok (entries ++ [persist.entry seq])
      else collect limit rest (entries ++ [persist.entry seq])

def scanSince (db : LogDb) (afterSeq limit : Nat) : Except StoreError ScanLogResult :=
  if 0 < db.gcFloor ∧ afterSeq < db.gcFloor then .ok (.gap ⟨afterSeq, db.gcFloor + 1⟩)
  else if afterSeq = StoreText.u64Max then .ok (.page ⟨[], afterSeq, db.lastSeq, false⟩)
  else
    match collect limit (db.rows.rows.filter fun row => afterSeq + 1 ≤ row.1) [] with
    | .error e => .error e
    | .ok entries =>
      let nextAfterSeq := (entries.getLast?.map (·.seq)).getD afterSeq
      .ok (.page ⟨entries, nextAfterSeq, db.lastSeq, decide (nextAfterSeq < db.lastSeq)⟩)

section Keys
variable {κ ν : Type} [LinearOrder κ]

theorem alterRow_last {k : κ} (f : Option ν → ν) {rows : List (κ × ν)}
    (h : ∀ row ∈ rows, row.1 < k) : alterRow k f rows = rows ++ [(k, f none)] := by
  induction rows with
  | nil => rfl
  | cons row _ ih =>
    have hrow := h row List.mem_cons_self
    rw [alterRow, if_neg hrow.not_gt, if_neg hrow.ne', List.cons_append,
      ih fun other hother => h other (List.mem_cons_of_mem _ hother)]

/-- A key above all others goes to the end. -/
theorem rows_insert_last {m : SortedMap κ ν} {k : κ} (h : ∀ row ∈ m.rows, row.1 < k) (v : ν) :
    (m.insert k v).rows = m.rows ++ [(k, v)] := alterRow_last _ h

/-- What is left after some keys are deleted one by one. -/
theorem rows_foldl_erase (keys : List κ) (m : SortedMap κ ν) :
    (keys.foldl SortedMap.erase m).rows = m.rows.filter fun row => row.1 ∉ keys := by
  induction keys generalizing m with
  | nil => simp
  | cons k _ ih =>
    have hone : (m.erase k).rows = m.rows.filter fun row => row.1 ≠ k := by
      rw [← List.filterMap_eq_filter]
      refine List.filterMap_congr fun row _ => ?_
      by_cases h : row.1 = k <;> simp [h, Option.guard]
    rw [List.foldl_cons, ih, hone, List.filter_filter]
    refine List.filter_congr fun row _ => ?_
    simp [Bool.and_comm]

end Keys

/-- The rows of the log, in a store that holds nothing else. -/
def asMem (claims : List LogRetentionClaim) (db : LogDb) : MemState :=
  { MemState.new with
    ingestSeq := db.lastSeq
    ingestLog := db.entries
    logGcFloor := db.gcFloor
    retentionClaims := claims }

theorem asMem_trimInTxn (claims : List LogRetentionClaim) (db : LogDb) :
    asMem claims (trimInTxn db db.lastSeq claims) = logGcTrim (asMem claims db) := by
  unfold trimInTxn logGcTrim
  by_cases hrises : max db.gcFloor (targetFloor db.lastSeq claims) ≤ db.gcFloor
  · simp only [asMem, hrises, if_true]
  · have hkept : (((db.rows.keys.filter fun seq => db.gcFloor + 1 ≤ seq ∧
        seq < max db.gcFloor (targetFloor db.lastSeq claims) + 1).foldl SortedMap.erase db.rows).rows.map
          fun row => row.2.entry row.1) = db.entries.filter fun e => ¬ (db.gcFloor < e.seq ∧
            e.seq ≤ max db.gcFloor (targetFloor db.lastSeq claims)) := by
      rw [rows_foldl_erase, LogDb.entries, List.filter_map]
      congr 1
      refine List.filter_congr fun row hrow => ?_
      have hkey : row.1 ∈ db.rows.keys := List.mem_map_of_mem hrow
      simp only [Function.comp_apply, LogEntryPersist.entry, List.mem_filter, hkey, true_and,
        decide_eq_true_eq, decide_eq_decide]
      omega
    simp only [asMem, LogDb.entries, hrises, if_false] at hkept ⊢
    rw [hkept]
    rfl

variable {db : LogDb}

/-- An append on disk is the append in memory, if no key is above the head. -/
theorem asMem_append (hkeys : ∀ row ∈ db.rows.rows, row.1 ≤ db.lastSeq) (call : Append)
    (claims : List LogRetentionClaim) :
    asMem claims (append db (call, claims)) =
      logAppend (asMem claims db) call.persist.op call.persist.eventId call.persist.rawEvent
        call.persist.sourceRelay call.persist.receivedAtMs := by
  have hrows : (db.rows.insert (db.lastSeq + 1) call.persist).rows =
      db.rows.rows ++ [(db.lastSeq + 1, call.persist)] :=
    rows_insert_last (fun row hrow => Nat.lt_succ_of_le (hkeys row hrow)) _
  rw [append, asMem_trimInTxn, logAppend]
  simp only [asMem, LogDb.entries, hrows, List.map_append, List.map_cons, List.map_nil,
    LogEntryPersist.entry]

/-- What holds of a log on disk: a window of its history, in the current format. -/
structure Stored (history : List StoreLogEntry) (db : LogDb) : Prop where
  complete : History history (asMem [] db)
  current : ∀ row ∈ db.rows.rows, row.2.version ≤ 1

theorem stored_empty : Stored [] .empty :=
  ⟨history_new, fun _ hrow => absurd hrow List.not_mem_nil⟩

theorem Stored.keys_le {history : List StoreLogEntry} (h : Stored history db) :
    ∀ row ∈ db.rows.rows, row.1 ≤ db.lastSeq := fun row hrow =>
  (Window.bounds h.complete.window (e := row.2.entry row.1) (List.mem_map_of_mem hrow)).2

theorem mem_rows_append (hkeys : ∀ row ∈ db.rows.rows, row.1 ≤ db.lastSeq)
    {call : Append × List LogRetentionClaim} {row : Nat × LogEntryPersist}
    (hrow : row ∈ (append db call).rows.rows) :
    row ∈ db.rows.rows ∨ row = (db.lastSeq + 1, call.1.persist) := by
  have hrows : (db.rows.insert (db.lastSeq + 1) call.1.persist).rows =
      db.rows.rows ++ [(db.lastSeq + 1, call.1.persist)] :=
    rows_insert_last (fun row hrow => Nat.lt_succ_of_le (hkeys row hrow)) _
  have hmem : row ∈ db.rows.rows ++ [(db.lastSeq + 1, call.1.persist)] := by
    rw [← hrows]
    unfold append trimInTxn at hrow
    dsimp only at hrow
    split at hrow
    · exact hrow
    · rw [rows_foldl_erase] at hrow
      exact (List.mem_filter.mp hrow).1
  rw [List.mem_append, List.mem_singleton] at hmem
  exact hmem

theorem Stored.append {history : List StoreLogEntry} {db : LogDb} (h : Stored history db)
    (call : Append × List LogRetentionClaim) :
    ∃ history', Stored history' (append db call) := by
  obtain ⟨call, claims⟩ := call
  have hbase : History history (asMem claims db) := h.complete.of_sameLog ⟨rfl, rfl, rfl⟩
  have happend := hbase.append (appended_logAppend _ call.persist.op call.persist.eventId
    call.persist.rawEvent call.persist.sourceRelay call.persist.receivedAtMs)
  rw [← asMem_append h.keys_le] at happend
  refine ⟨_, happend.of_sameLog ⟨rfl, rfl, rfl⟩, fun row hrow => ?_⟩
  rcases mem_rows_append h.keys_le hrow with hold | rfl
  · exact h.current row hold
  · cases call <;> exact Nat.le_refl 1

/-- The log after any run of appends is a window of one history. -/
theorem Reachable.stored (h : Reachable db) : ∃ history, Stored history db := by
  obtain ⟨calls, rfl⟩ := h
  induction calls using List.reverseRecOn with
  | nil => exact ⟨[], stored_empty⟩
  | append_singleton _ call ih =>
    obtain ⟨history, hstored⟩ := ih
    rw [run_append]
    exact hstored.append call

theorem collect_eq (limit : Nat) {rows : List (Nat × LogEntryPersist)}
    (hcurrent : ∀ row ∈ rows, row.2.version ≤ 1) (entries : List StoreLogEntry) :
    collect limit rows entries = .ok (entries ++
      (rows.take (max 1 (limit - entries.length))).map fun row => row.2.entry row.1) := by
  induction rows generalizing entries with
  | nil => simp [collect]
  | cons row _ ih =>
    obtain ⟨seq, row⟩ := row
    have hdecode : decodeEntry row = .ok row :=
      if_neg (Nat.not_lt.mpr (hcurrent (seq, row) List.mem_cons_self))
    rw [collect, hdecode]
    dsimp only
    split
    next hfull =>
      have hone : max 1 (limit - entries.length) = 1 := by omega
      rw [hone]
      rfl
    next hmore =>
      have hnext : max 1 (limit - entries.length) =
          max 1 (limit - (entries ++ [row.entry seq]).length) + 1 := by
        rw [List.length_append, List.length_singleton]
        omega
      rw [ih fun other hother => hcurrent other (List.mem_cons_of_mem _ hother), hnext,
        List.take_succ_cons, List.map_cons, List.append_assoc, List.singleton_append]

/-- A scan on disk is the scan in memory, but for a limit of zero, which reads one entry. -/
theorem scanSince_eq (hcurrent : ∀ row ∈ db.rows.rows, row.2.version ≤ 1)
    (claims : List LogRetentionClaim) (afterSeq limit : Nat) :
    scanSince db afterSeq limit =
      .ok (scanLogSinceSeq (asMem claims db) afterSeq (max 1 limit)) := by
  have hrows : (db.entries.filter fun e => afterSeq + 1 ≤ e.seq).take (max 1 limit) =
      ((db.rows.rows.filter fun row => afterSeq + 1 ≤ row.1).take (max 1 limit)).map
        fun row => row.2.entry row.1 := by
    rw [LogDb.entries, List.filter_map, List.map_take]
    rfl
  by_cases hbehind : 0 < db.gcFloor ∧ afterSeq < db.gcFloor
  · rw [scanSince, if_pos hbehind, scanLogSinceSeq, if_pos ⟨hbehind.1, hbehind.2⟩]
    rfl
  · have hbehind' : ¬ (0 < (asMem claims db).logGcFloor ∧ afterSeq < (asMem claims db).logGcFloor) :=
      hbehind
    rw [scanSince, if_neg hbehind, scanLogSinceSeq, if_neg hbehind']
    by_cases hmax : afterSeq = StoreText.u64Max
    · rw [if_pos hmax, if_pos hmax]
      rfl
    · rw [if_neg hmax, if_neg hmax, show (asMem claims db).ingestLog = db.entries from rfl, hrows,
        collect_eq limit fun row hrow => hcurrent row (List.mem_of_mem_filter hrow)]
      rfl

end LmdbLog
