import NostrMultiPlatform.FeedPull
import NostrMultiPlatform.LmdbLog

/-!
# Recovery from a gap

A reader that is told of a gap goes on from the number it is told. The cursor is
exclusive: the entry with that number, which the log still has, is passed by, on
both backends and whatever happens to the log later. The entries above it are
received.
-/
namespace StoreGaps

open StoreState StoreLog StorePull FeedPull RetainedLog Runs LmdbLog

variable {S : Type}

abbrev ScanFn (S : Type) : Type := S → Nat → Nat → Except StoreError ScanLogResult

def memScan : ScanFn MemState := fun st afterSeq limit => .ok (scanLogSinceSeq st afterSeq limit)

/-- A reader and what it has received since it was reset. -/
structure Reader where
  cursor : Nat
  got : List StoreLogEntry

def resetTo (gap : PullGap) : Reader := ⟨gap.firstAvailableSeq, []⟩

/-- One read, of the log as it is then; another gap resets the cursor again. -/
def read (scan : ScanFn S) (r : Reader) (call : S × Nat) : Reader :=
  match scan call.1 r.cursor call.2 with
  | .ok (.page page) => ⟨page.nextAfterSeq, r.got ++ page.entries⟩
  | .ok (.gap gap) => { r with cursor := gap.firstAvailableSeq }
  | .error _ => r

/-- Some run of reads after the reset receives every entry of the log. -/
def Recovers (scan : ScanFn S) (log : List StoreLogEntry) (gap : PullGap) : Prop :=
  ∃ calls, ∀ e ∈ log, e ∈ (run (read scan) (resetTo gap) calls).got

/-- A scan that returns entries above its cursor only and never moves the cursor back. -/
structure Exclusive (scan : ScanFn S) : Prop where
  above : ∀ {s afterSeq limit page}, scan s afterSeq limit = .ok (.page page) →
    ∀ e ∈ page.entries, afterSeq < e.seq
  forward : ∀ {s afterSeq limit page}, scan s afterSeq limit = .ok (.page page) →
    afterSeq ≤ page.nextAfterSeq
  rebased : ∀ {s afterSeq limit gap}, scan s afterSeq limit = .ok (.gap gap) →
    afterSeq < gap.firstAvailableSeq

variable {afterSeq limit : Nat} {gap : PullGap} {history : List StoreLogEntry} {st : MemState}
  {db : LogDb}

theorem le_last {entries : List StoreLogEntry} (h : ∀ e ∈ entries, afterSeq < e.seq) :
    afterSeq ≤ (entries.getLast?.map (·.seq)).getD afterSeq := by
  cases hlast : entries.getLast? with
  | none => exact Nat.le_refl _
  | some e => exact (h e (List.mem_of_getLast? hlast)).le

theorem exclusive_memScan : Exclusive memScan := by
  have habove : ∀ (st : MemState) afterSeq limit,
      ∀ e ∈ (st.ingestLog.filter fun e => afterSeq + 1 ≤ e.seq).take limit, afterSeq < e.seq :=
    fun st afterSeq limit e he =>
      of_decide_eq_true (List.mem_filter.mp (List.mem_of_mem_take he)).2
  constructor
  all_goals
    intro st afterSeq limit result h
    rw [memScan, scanLogSinceSeq] at h
    split at h
  · cases h
  · split at h
    · cases h
      exact fun e he => absurd he List.not_mem_nil
    · cases h
      exact habove st afterSeq limit
  · cases h
  · split at h
    · cases h
      exact Nat.le_refl _
    · cases h
      exact le_last (habove st afterSeq limit)
  · cases h
    dsimp only
    omega
  · split at h <;> cases h

theorem mem_of_collect {rows : List (Nat × LogEntryPersist)}
    {entries collected : List StoreLogEntry} (h : collect limit rows entries = .ok collected) :
    ∀ e ∈ collected, e ∈ entries ∨ ∃ row ∈ rows, e.seq = row.1 := by
  induction rows generalizing entries with
  | nil =>
    cases h
    exact fun e he => .inl he
  | cons row rest ih =>
    obtain ⟨seq, row⟩ := row
    rw [collect] at h
    have hnew : ∀ persist : LogEntryPersist, ∀ e ∈ entries ++ [persist.entry seq],
        e ∈ entries ∨ ∃ row' ∈ (seq, row) :: rest, e.seq = row'.1 := fun persist e he => by
      rw [List.mem_append, List.mem_singleton] at he
      exact he.imp_right fun heq => ⟨_, List.mem_cons_self, by rw [heq]; rfl⟩
    split at h
    · cases h
    next persist _ =>
      split at h
      · cases h
        exact hnew persist
      · intro e he
        rcases ih h e he with hold | ⟨row', hrow', heq⟩
        · exact hnew persist e hold
        · exact .inr ⟨row', List.mem_cons_of_mem _ hrow', heq⟩

theorem exclusive_scanSince : Exclusive scanSince := by
  have habove : ∀ {db : LogDb} {afterSeq limit : Nat} {entries : List StoreLogEntry},
      collect limit (db.rows.rows.filter fun row => afterSeq + 1 ≤ row.1) [] = .ok entries →
        ∀ e ∈ entries, afterSeq < e.seq := fun hcollect e he => by
    rcases mem_of_collect hcollect e he with hnil | ⟨row, hrow, heq⟩
    · exact absurd hnil List.not_mem_nil
    · rw [heq]
      exact of_decide_eq_true (List.mem_filter.mp hrow).2
  constructor
  all_goals
    intro db afterSeq limit result h
    rw [scanSince] at h
    split at h
  · cases h
  · split at h
    · cases h
      exact fun e he => absurd he List.not_mem_nil
    · split at h
      · cases h
      next hcollect =>
        cases h
        exact habove hcollect
  · cases h
  · split at h
    · cases h
      exact Nat.le_refl _
    · split at h
      · cases h
      next hcollect =>
        cases h
        exact le_last (habove hcollect)
  · cases h
    dsimp only
    omega
  · split at h
    · cases h
    · split at h <;> cases h

variable {scan : ScanFn S}

/-- Nothing at or below the cursor of a reader is received by it later. -/
theorem Exclusive.read (h : Exclusive scan) {first : Nat} {r : Reader}
    (hr : first ≤ r.cursor ∧ ∀ e ∈ r.got, first < e.seq) (call : S × Nat) :
    first ≤ (read scan r call).cursor ∧ ∀ e ∈ (read scan r call).got, first < e.seq := by
  obtain ⟨hcursor, hgot⟩ := hr
  unfold StoreGaps.read
  split
  next hscan =>
    refine ⟨hcursor.trans (h.forward hscan), fun e he => ?_⟩
    rcases List.mem_append.mp he with he | he
    · exact hgot e he
    · exact hcursor.trans_lt (h.above hscan e he)
  next hscan => exact ⟨hcursor.trans (h.rebased hscan).le, hgot⟩
  · exact ⟨hcursor, hgot⟩

theorem Exclusive.run (h : Exclusive scan) (gap : PullGap) (calls : List (S × Nat)) :
    ∀ e ∈ (run (StoreGaps.read scan) (resetTo gap) calls).got, gap.firstAvailableSeq < e.seq := by
  have hall : ∀ r : Reader,
      (gap.firstAvailableSeq ≤ r.cursor ∧ ∀ e ∈ r.got, gap.firstAvailableSeq < e.seq) →
        ∀ e ∈ (Runs.run (StoreGaps.read scan) r calls).got, gap.firstAvailableSeq < e.seq := by
    induction calls with
    | nil => exact fun r hr => hr.2
    | cons call _ ih => exact fun r hr => ih _ (h.read hr call)
  exact hall _ ⟨Nat.le_refl _, fun e he => absurd he List.not_mem_nil⟩

/-- The entry that the gap names is never received. -/
theorem Exclusive.not_recovers (h : Exclusive scan) {log : List StoreLogEntry}
    (hfirst : ∃ e ∈ log, e.seq = gap.firstAvailableSeq) : ¬ Recovers scan log gap := by
  rintro ⟨calls, hall⟩
  obtain ⟨e, he, heq⟩ := hfirst
  have habove := h.run gap calls e (hall e he)
  omega

/-- Reads of one state, none of them empty, move through the log. -/
theorem received_above (h : LogWindow history st) (hseq : st.ingestSeq ≤ StoreText.u64Max)
    {limits : List Nat} (hlimits : ∀ limit ∈ limits, 1 ≤ limit) {cursor : Nat}
    (hfloor : st.logGcFloor ≤ cursor) (got : List StoreLogEntry) :
    ∃ cursor', cursor ≤ cursor' ∧ cursor' ≤ max cursor st.ingestSeq ∧
      min st.ingestSeq (cursor + limits.length) ≤ cursor' ∧
      run (read memScan) ⟨cursor, got⟩ (limits.map fun limit => (st, limit)) =
        ⟨cursor', got ++ segment history cursor cursor'⟩ := by
  induction limits generalizing cursor got with
  | nil =>
    refine ⟨cursor, Nat.le_refl _, Nat.le_max_left _ _, Nat.min_le_right _ _, ?_⟩
    rw [segment_self, List.append_nil]
    rfl
  | cons limit _ ih =>
    have hlimit := hlimits limit List.mem_cons_self
    have hread : read memScan ⟨cursor, got⟩ (st, limit) =
        ⟨max cursor (min st.ingestSeq (cursor + limit)),
          got ++ segment history cursor (max cursor (min st.ingestSeq (cursor + limit)))⟩ := by
      rw [read, memScan, scan_pulled h hseq hfloor]
    obtain ⟨cursor', hlo, hhi, hfar, hrun⟩ :=
      ih (fun limit hmem => hlimits limit (List.mem_cons_of_mem _ hmem))
        (hfloor.trans (Nat.le_max_left cursor (min st.ingestSeq (cursor + limit))))
        (got ++ segment history cursor (max cursor (min st.ingestSeq (cursor + limit))))
    refine ⟨cursor', by omega, by omega, ?_, ?_⟩
    · rw [List.length_cons]
      omega
    · rw [List.map_cons, run_cons, hread, hrun, List.append_assoc,
        segment_append (Nat.le_max_left _ _) hlo]

/-- What a gap says and what a reader makes of it. -/
structure LosesFirst (scan : ScanFn S) (s : S) (log : List StoreLogEntry) (head : Nat)
    (gap : PullGap) : Prop where
  /-- The entry is in the log and is never received, whatever happens to the log later. -/
  lost : ∃ e ∈ log, e.seq = gap.firstAvailableSeq ∧
    ∀ calls, e ∉ (run (read scan) (resetTo gap) calls).got
  not_recovers : ¬ Recovers scan log gap
  /-- All that is above it is received in order, in pages of any sizes. -/
  above : head ≤ StoreText.u64Max → ∀ limits : List Nat, (∀ limit ∈ limits, 1 ≤ limit) →
    head ≤ gap.firstAvailableSeq + limits.length →
    (run (read scan) (resetTo gap) (limits.map fun limit => (s, limit))).got =
      log.filter fun e => gap.firstAvailableSeq < e.seq

theorem Exclusive.lost (h : Exclusive scan) {e : StoreLogEntry}
    (heq : e.seq = gap.firstAvailableSeq) (calls : List (S × Nat)) :
    e ∉ (Runs.run (StoreGaps.read scan) (resetTo gap) calls).got := fun he => by
  have habove := h.run gap calls e he
  omega

theorem gap_of_scan (h : scanLogSinceSeq st afterSeq limit = .gap gap) :
    0 < st.logGcFloor ∧ gap.firstAvailableSeq = st.logGcFloor + 1 := by
  rw [scanLogSinceSeq] at h
  split at h
  next hbehind =>
    cases h
    exact ⟨hbehind.1, rfl⟩
  · split at h <;> cases h

/-- A trimmed log still has the entry after its floor: a trim leaves the newest entries. -/
theorem first_available (h : LogWindow history st)
    (hkept : st.logGcFloor ≤ st.ingestSeq - defaultLogMaxEntries) (hfloor : 0 < st.logGcFloor) :
    ∃ e ∈ st.ingestLog, e.seq = st.logGcFloor + 1 := by
  have hmax : 0 < defaultLogMaxEntries := by decide
  exact h.mem_iff.mpr ⟨by omega, by omega⟩

theorem losesFirst_mem (h : LogWindow history st)
    (hkept : st.logGcFloor ≤ st.ingestSeq - defaultLogMaxEntries)
    (hscan : scanLogSinceSeq st afterSeq limit = .gap gap) :
    LosesFirst memScan st st.ingestLog st.ingestSeq gap := by
  obtain ⟨hfloor, hgap⟩ := gap_of_scan hscan
  obtain ⟨e, he, heq⟩ := first_available h hkept hfloor
  refine ⟨⟨e, he, heq.trans hgap.symm, exclusive_memScan.lost (heq.trans hgap.symm)⟩,
    exclusive_memScan.not_recovers ⟨e, he, heq.trans hgap.symm⟩, fun hseq limits hlimits hfar => ?_⟩
  have hstart : st.logGcFloor ≤ gap.firstAvailableSeq := by omega
  obtain ⟨cursor', hlo, hhi, hreached, hrun⟩ := received_above h hseq hlimits hstart []
  have hend : cursor' = max gap.firstAvailableSeq st.ingestSeq := by omega
  rw [resetTo, hrun, List.nil_append, hend, segment_above h hstart]

/-- A floor never passes the newest entries. -/
theorem floor_perform (h : st.logGcFloor ≤ st.ingestSeq - defaultLogMaxEntries)
    (edit : StoreEdits.Edit) : (StoreEdits.perform st edit).logGcFloor ≤
      (StoreEdits.perform st edit).ingestSeq - defaultLogMaxEntries := by
  rcases perform_log st edit with ⟨hlog, -⟩ | ⟨e, happend⟩
  · rw [hlog.floor, hlog.seq]
    exact h
  · have htarget := targetFloor_le (st.ingestSeq + 1) st.retentionClaims
    rw [happend.floor, happend.seq, nextFloor]
    omega

theorem floor_reachable (h : StoreActions.Reachable st) :
    st.logGcFloor ≤ st.ingestSeq - defaultLogMaxEntries :=
  (h.invariant (fun s => s.logGcFloor ≤ s.ingestSeq - defaultLogMaxEntries) (Nat.zero_le _)
    fun _ edit _ hs _ => floor_perform hs edit).2

theorem append_counters (db : LogDb) (call : Append × List LogRetentionClaim) :
    (append db call).lastSeq = db.lastSeq + 1 ∧
      (append db call).gcFloor = max db.gcFloor (targetFloor (db.lastSeq + 1) call.2) := by
  unfold append trimInTxn
  dsimp only
  split
  next hle => exact ⟨rfl, (max_eq_left (le_of_max_le_right hle)).symm⟩
  · exact ⟨rfl, rfl⟩

theorem floor_lmdb (h : LmdbLog.Reachable db) : db.gcFloor ≤ db.lastSeq - defaultLogMaxEntries := by
  obtain ⟨calls, rfl⟩ := h
  induction calls using List.reverseRecOn with
  | nil => exact Nat.zero_le _
  | append_singleton calls call =>
    obtain ⟨hseq, hfloor⟩ := append_counters (run append .empty calls) call
    have htarget := targetFloor_le ((run append .empty calls).lastSeq + 1) call.2
    rw [run_append, run_cons, run_nil, hseq, hfloor]
    omega

/-- Reads of the log on disk are reads of it in memory. -/
theorem run_scanSince (hcurrent : ∀ row ∈ db.rows.rows, row.2.version ≤ 1) {limits : List Nat}
    (hlimits : ∀ limit ∈ limits, 1 ≤ limit) (r : Reader) :
    run (read scanSince) r (limits.map fun limit => (db, limit)) =
      run (read memScan) r (limits.map fun limit => (asMem [] db, limit)) := by
  induction limits generalizing r with
  | nil => rfl
  | cons limit _ ih =>
    have hone : read scanSince r (db, limit) = read memScan r (asMem [] db, limit) := by
      rw [read, read, scanSince_eq hcurrent [], Nat.max_eq_right (hlimits limit List.mem_cons_self)]
      rfl
    rw [List.map_cons, List.map_cons, run_cons, run_cons, hone]
    exact ih (fun limit hmem => hlimits limit (List.mem_cons_of_mem _ hmem)) _

theorem losesFirst_lmdb (h : LmdbLog.Reachable db)
    (hscan : scanSince db afterSeq limit = .ok (.gap gap)) :
    LosesFirst scanSince db db.entries db.lastSeq gap := by
  obtain ⟨history, hstored⟩ := h.stored
  rw [scanSince_eq hstored.current []] at hscan
  have hmem := losesFirst_mem hstored.complete.window (floor_lmdb h) (Except.ok.inj hscan)
  obtain ⟨e, he, heq, -⟩ := hmem.lost
  refine ⟨⟨e, he, heq, exclusive_scanSince.lost heq⟩,
    exclusive_scanSince.not_recovers ⟨e, he, heq⟩, fun hseq limits hlimits hfar => ?_⟩
  rw [run_scanSince hstored.current hlimits]
  exact hmem.above hseq limits hlimits hfar

/-- A pager that stops at a gap goes on from the number it was told. -/
theorem drain_rebases {pager pager' : FeedPullPager} {pull : Nat → PullLimits → ScanLogResult}
    {fuel n : Nat} {outcome : DrainOutcome} (h : pager.drain pull fuel = some (outcome, pager'))
    (hstop : outcome.stop = .gap n) :
    pager'.afterSeq = n ∧ ∃ afterSeq limits gap,
      pull afterSeq limits = .gap gap ∧ gap.firstAvailableSeq = n := by
  have hloop : ∀ fuel (d d' : Draining), drainLoop pager pull fuel d = some (d', .gap n) →
      d'.afterSeq = n ∧ ∃ afterSeq limits gap,
        pull afterSeq limits = .gap gap ∧ gap.firstAvailableSeq = n := by
    intro fuel
    induction fuel with
    | zero => exact fun _ _ hnone => by cases hnone
    | succ _ ih =>
      intro d d' hsome
      rw [drainLoop] at hsome
      split at hsome
      next gap hgap =>
        cases hsome
        exact ⟨rfl, d.afterSeq, _, gap, hgap, rfl⟩
      next page _ =>
        split at hsome
        next stop hstop =>
          -- a page never stops a drain with a gap
          cases hsome
          unfold Draining.stopAfter at hstop
          split_ifs at hstop <;> cases hstop
        · exact ih _ _ hsome
  obtain ⟨⟨d', stop⟩, hd', heq⟩ := Option.map_eq_some_iff.mp h
  cases heq
  dsimp only at hstop
  rw [hstop] at hd'
  exact hloop fuel _ d' hd'

/-- Wherever a reader is told of a gap, on either backend, the entry it is sent to is still in the
log and is lost to it; the entries above are received. The pager is sent there too. -/
theorem gap_loses_first (afterSeq limit : Nat) (gap : PullGap) :
    (∀ st, StoreActions.Reachable st → scanLogSinceSeq st afterSeq limit = .gap gap →
      LosesFirst memScan st st.ingestLog st.ingestSeq gap) ∧
    (∀ db, LmdbLog.Reachable db → scanSince db afterSeq limit = .ok (.gap gap) →
      LosesFirst scanSince db db.entries db.lastSeq gap) ∧
    ∀ (pager pager' : FeedPullPager) pull fuel outcome n,
      pager.drain pull fuel = some (outcome, pager') → outcome.stop = .gap n →
        pager'.afterSeq = n ∧ ∃ asked limits told,
          pull asked limits = .gap told ∧ told.firstAvailableSeq = n := by
  refine ⟨fun st h hscan => ?_, fun db h => losesFirst_lmdb h,
    fun _ _ _ _ _ _ => drain_rebases⟩
  obtain ⟨history, hhistory⟩ := exists_history h
  exact losesFirst_mem hhistory.window (floor_reachable h) hscan

/-- A log that only purges were written to. -/
def purges (n : Nat) : LogDb :=
  run append .empty (List.replicate n (.deleted StoreEvent.zeroId StoreEvent.zeroId .adminPurge 0, []))

theorem purges_counters (n : Nat) :
    (purges n).lastSeq = n ∧ (purges n).gcFloor = n - defaultLogMaxEntries := by
  induction n with
  | zero => exact ⟨rfl, rfl⟩
  | succ n ih =>
    obtain ⟨hseq, hfloor⟩ := append_counters (purges n)
      (.deleted StoreEvent.zeroId StoreEvent.zeroId .adminPurge 0, [])
    have htarget : targetFloor ((purges n).lastSeq + 1) [] =
        (purges n).lastSeq + 1 - defaultLogMaxEntries := rfl
    rw [htarget, ih.1, ih.2] at hfloor
    rw [ih.1] at hseq
    rw [purges, List.replicate_succ', run_append]
    exact ⟨hseq, hfloor.trans (by omega)⟩

/-- One entry more than the log keeps: a reader from the start is sent to entry two, which is
there, and never receives it. -/
theorem entry_two_lost :
    scanSince (purges (defaultLogMaxEntries + 1)) 0 1 = .ok (.gap ⟨0, 2⟩) ∧
      ¬ Recovers scanSince (purges (defaultLogMaxEntries + 1)).entries ⟨0, 2⟩ := by
  obtain ⟨-, hfloor⟩ := purges_counters (defaultLogMaxEntries + 1)
  have hone : (purges (defaultLogMaxEntries + 1)).gcFloor = 1 := hfloor
  have hscan : scanSince (purges (defaultLogMaxEntries + 1)) 0 1 = .ok (.gap ⟨0, 2⟩) := by
    rw [scanSince, hone, if_pos ⟨Nat.one_pos, Nat.one_pos⟩]
  exact ⟨hscan, (losesFirst_lmdb ⟨_, rfl⟩ hscan).not_recovers⟩

end StoreGaps
