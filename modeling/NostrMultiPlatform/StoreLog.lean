import NostrMultiPlatform.RetainedLog
import NostrMultiPlatform.StoreActions

/-!
# The ingest log as a stream

The store's log is a window of the history of its appends: every edit either
leaves it alone or appends one entry and trims. A consumer that pages from a
cursor, with mutations between its reads, collects a segment of that history
or is told that entries it still needs are gone.
-/
namespace StoreLog

open StoreEvent StoreState StoreInsert StoreEdits StoreActions Tables Runs
open RetainedLog

structure PullGap where
  requestedAfterSeq : Nat
  firstAvailableSeq : Nat
  deriving DecidableEq, Repr

structure PullPage where
  entries : List StoreLogEntry
  nextAfterSeq : Nat
  latestSeq : Nat
  hasMore : Bool
  deriving DecidableEq, Repr

inductive ScanLogResult where
  | page (page : PullPage)
  | gap (gap : PullGap)
  deriving DecidableEq, Repr

def scanLogSinceSeq (st : MemState) (afterSeq limit : Nat) : ScanLogResult :=
  if 0 < st.logGcFloor ∧ afterSeq < st.logGcFloor then
    .gap ⟨afterSeq, st.logGcFloor + 1⟩
  else if afterSeq = StoreText.u64Max then
    .page ⟨[], afterSeq, st.ingestSeq, false⟩
  else
    let entries := (st.ingestLog.filter fun e => afterSeq + 1 ≤ e.seq).take limit
    let nextAfterSeq := (entries.getLast?.map (·.seq)).getD afterSeq
    .page ⟨entries, nextAfterSeq, st.ingestSeq, decide (nextAfterSeq < st.ingestSeq)⟩

/-- The log, its counters and the claims on it. -/
structure SameLog (a b : MemState) : Prop where
  seq : a.ingestSeq = b.ingestSeq
  log : a.ingestLog = b.ingestLog
  floor : a.logGcFloor = b.logGcFloor

theorem SameLog.trans {a b c : MemState} (hab : SameLog a b) (hbc : SameLog b c) : SameLog a c :=
  ⟨hab.seq.trans hbc.seq, hab.log.trans hbc.log, hab.floor.trans hbc.floor⟩

/-- The floor that a trim at this head would reach. -/
def nextFloor (st : MemState) : Nat :=
  max st.logGcFloor (targetFloor (st.ingestSeq + 1) st.retentionClaims)

/-- An append numbers the entry after the head and trims up to the next floor. -/
structure Appended (st st' : MemState) (e : StoreLogEntry) : Prop where
  entry : e.seq = st.ingestSeq + 1
  seq : st'.ingestSeq = st.ingestSeq + 1
  floor : st'.logGcFloor = nextFloor st
  log : st'.ingestLog = (st.ingestLog ++ [e]).filter fun x =>
    ¬ (st.logGcFloor < x.seq ∧ x.seq ≤ nextFloor st)
  claims : st'.retentionClaims = st.retentionClaims

theorem appended_logAppend (st : MemState) (op : LogOp) (id : EventId) (raw : Option RawEvent)
    (source : Option RelayUrl) (t : Nat) :
    Appended st (logAppend st op id raw source t) ⟨st.ingestSeq + 1, op, id, raw, source, t⟩ := by
  have hfloor : st.logGcFloor ≤ nextFloor st := Nat.le_max_left _ _
  unfold logAppend logGcTrim
  dsimp only
  by_cases h : nextFloor st ≤ st.logGcFloor
  · have heq : nextFloor st = st.logGcFloor := by omega
    rw [if_pos (show max st.logGcFloor _ ≤ st.logGcFloor from h)]
    refine ⟨rfl, rfl, heq.symm, ?_, rfl⟩
    rw [eq_comm, List.filter_eq_self]
    intro x _
    simp only [decide_eq_true_eq]
    omega
  · rw [if_neg (show ¬ max st.logGcFloor _ ≤ st.logGcFloor from h)]
    exact ⟨rfl, rfl, rfl, rfl, rfl⟩

theorem sameLog_recordSighting (st : MemState) (source : RelayUrl) (kind : Nat) (id : String)
    (t : Nat) : SameLog (recordSighting st source kind id t) st ∧
      (recordSighting st source kind id t).retentionClaims = st.retentionClaims := by
  unfold recordSighting relayKindAdd
  split
  · exact ⟨⟨rfl, rfl, rfl⟩, rfl⟩
  · exact ⟨⟨rfl, rfl, rfl⟩, rfl⟩

theorem sameLog_ftsAddById (st : MemState) (id : String) :
    SameLog (ftsAddById st id) st ∧ (ftsAddById st id).retentionClaims = st.retentionClaims := by
  unfold ftsAddById
  split
  · exact ⟨⟨rfl, rfl, rfl⟩, rfl⟩
  · exact ⟨⟨rfl, rfl, rfl⟩, rfl⟩

theorem sameLog_storeRow (st : MemState) (event : RawEvent) (source : RelayUrl) (t : Nat) :
    SameLog (storeRow st event source t) st ∧
      (storeRow st event source t).retentionClaims = st.retentionClaims := by
  obtain ⟨hlog, hclaims⟩ := sameLog_recordSighting
    (accessStamp { st with events := st.events.insert event.id ⟨event, t⟩ } event.id)
    source event.kind event.id t
  exact ⟨⟨hlog.seq, hlog.log, hlog.floor⟩, hclaims⟩

theorem sameLog_storeSearchableRow (st : MemState) (event : RawEvent) (source : RelayUrl) (t : Nat) :
    SameLog (storeSearchableRow st event source t) st ∧
      (storeSearchableRow st event source t).retentionClaims = st.retentionClaims := by
  obtain ⟨hfts, hclaims⟩ := sameLog_ftsAddById
    (accessStamp { st with events := st.events.insert event.id ⟨event, t⟩ } event.id) event.id
  obtain ⟨hlog, hclaims'⟩ := sameLog_recordSighting (ftsAddById
    (accessStamp { st with events := st.events.insert event.id ⟨event, t⟩ } event.id) event.id)
    source event.kind event.id t
  exact ⟨hlog.trans ⟨hfts.seq, hfts.log, hfts.floor⟩, hclaims'.trans hclaims⟩

variable {e : StoreLogEntry} {st : MemState} {history : List StoreLogEntry} {start : Nat}

theorem Appended.of_base {st base st' : MemState} (h : Appended base st' e) (hlog : SameLog base st)
    (hclaims : base.retentionClaims = st.retentionClaims) : Appended st st' e := by
  have hnext : nextFloor base = nextFloor st := by
    rw [nextFloor, nextFloor, hlog.floor, hlog.seq, hclaims]
  exact ⟨hlog.seq ▸ h.entry, hlog.seq ▸ h.seq, hnext ▸ h.floor,
    by rw [h.log, hlog.log, hlog.floor, hnext], hclaims ▸ h.claims⟩

/-- The entry that an edit appends, if it appends one. -/
def logEntry (st : MemState) : Edit → Option StoreLogEntry
  | .delete _ carrier target reason time =>
    some ⟨st.ingestSeq + 1, .deleted target reason, carrier, none, none, time⟩
  | .insert a _ =>
    some ⟨st.ingestSeq + 1, .inserted, a.event.id32, some a.event, some a.source, a.receivedAtMs⟩
  | .replace _ oldId a =>
    some ⟨st.ingestSeq + 1, .replaced oldId, a.event.id32, some a.event, some a.source,
      a.receivedAtMs⟩
  | _ => none

theorem perform_appends {edit : Edit} (h : logEntry st edit = some e) :
    Appended st (perform st edit) e := by
  cases edit with
  | delete idHex =>
    cases h
    exact (appended_logAppend (removeRow st idHex) _ _ _ _ _).of_base ⟨rfl, rfl, rfl⟩ rfl
  | insert a searchable =>
    cases h
    cases searchable with
    | true =>
      obtain ⟨hlog, hclaims⟩ := sameLog_storeSearchableRow st a.event a.source a.receivedAtMs
      have happend := (appended_logAppend _ .inserted a.event.id32 (some a.event) (some a.source)
        a.receivedAtMs).of_base hlog hclaims
      rwa [hlog.seq] at happend
    | false =>
      obtain ⟨hlog, hclaims⟩ := sameLog_storeRow st a.event a.source a.receivedAtMs
      have happend := (appended_logAppend _ .inserted a.event.id32 (some a.event) (some a.source)
        a.receivedAtMs).of_base hlog hclaims
      rwa [hlog.seq] at happend
  | replace old oldId a =>
    cases h
    obtain ⟨hlog, hclaims⟩ :=
      sameLog_storeSearchableRow (removeRow st old) a.event a.source a.receivedAtMs
    have hlog' := hlog.trans (c := st) ⟨rfl, rfl, rfl⟩
    have happend := (appended_logAppend _ (.replaced oldId) a.event.id32 (some a.event)
      (some a.source) a.receivedAtMs).of_base hlog' hclaims
    rwa [hlog'.seq] at happend
  | _ => cases h

theorem perform_silent {edit : Edit} (h : logEntry st edit = none) :
    SameLog (perform st edit) st ∧ ((perform st edit).retentionClaims = st.retentionClaims ∨
      edit = .retain (perform st edit).retentionClaims) := by
  cases edit with
  | sight a =>
    obtain ⟨hlog, hclaims⟩ :=
      sameLog_recordSighting st a.source a.event.kind a.event.id a.receivedAtMs
    exact ⟨hlog, .inl hclaims⟩
  | retain => exact ⟨⟨rfl, rfl, rfl⟩, .inr rfl⟩
  | delete | insert | replace => cases h
  | _ => exact ⟨⟨rfl, rfl, rfl⟩, .inl rfl⟩

/-- What one edit does to the log. -/
theorem perform_log (st : MemState) (edit : Edit) :
    (SameLog (perform st edit) st ∧ ((perform st edit).retentionClaims = st.retentionClaims ∨
      edit = .retain (perform st edit).retentionClaims)) ∨
    ∃ e, Appended st (perform st edit) e := by
  cases h : logEntry st edit with
  | none => exact .inl (perform_silent h)
  | some e => exact .inr ⟨e, perform_appends h⟩

/-- The log keeps the entries above the floor of this history. -/
def LogWindow (history : List StoreLogEntry) (st : MemState) : Prop :=
  Window StoreLogEntry.seq history st.logGcFloor st.ingestSeq st.ingestLog

/-- The history ends with the last entry appended. -/
structure History (history : List StoreLogEntry) (st : MemState) : Prop where
  window : LogWindow history st
  full : history.length = st.ingestSeq

theorem history_new : History [] .new := ⟨window_nil _, rfl⟩

theorem targetFloor_le (latest : Nat) (claims : List LogRetentionClaim) :
    targetFloor latest claims ≤ latest - defaultLogMaxEntries := by
  unfold targetFloor
  split
  · exact Nat.min_le_left _ _
  · exact Nat.le_refl _

theorem History.of_sameLog {st st' : MemState} (h : History history st) (hlog : SameLog st' st) :
    History history st' where
  window := by
    rw [LogWindow, hlog.seq, hlog.log, hlog.floor]
    exact h.window
  full := h.full.trans hlog.seq.symm

theorem History.append {st st' : MemState} (h : History history st) (happend : Appended st st' e) :
    History (history ++ [e]) st' where
  window := by
    have hgrown := Window.append h.window h.full.symm happend.entry
    have hnext : nextFloor st ≤ st.ingestSeq + 1 := by
      have hfloor := h.window.floor_le
      have htarget := targetFloor_le (st.ingestSeq + 1) st.retentionClaims
      rw [nextFloor]
      omega
    rw [LogWindow, happend.seq, happend.floor, happend.log]
    exact hgrown.trim (Nat.le_max_left _ _) hnext
  full := by rw [List.length_append, h.full, happend.seq, List.length_singleton]

theorem history_perform (h : History history st) (edit : Edit) :
    ∃ history', history <+: history' ∧ History history' (perform st edit) := by
  rcases perform_log st edit with ⟨hlog, -⟩ | ⟨e, happend⟩
  · exact ⟨history, List.prefix_refl history, h.of_sameLog hlog⟩
  · exact ⟨history ++ [e], List.prefix_append history [e], h.append happend⟩

/-- An action extends the history. -/
theorem history_act (hroot : Rooted st) (h : History history st) (action : Action) :
    ∃ history', history <+: history' ∧ History history' (act st action) :=
  (editsTo_act hroot action).invariant
    (fun s => ∃ history', history <+: history' ∧ History history' s)
    ⟨history, List.prefix_refl history, h⟩ fun s e ⟨history', hpre, hs⟩ _ _ => by
      obtain ⟨history'', hpre', hs'⟩ := history_perform hs e
      exact ⟨history'', hpre.trans hpre', hs'⟩

/-- What a scan from a cursor at or above the floor returns. -/
theorem scan_page (h : LogWindow history st) {after : Nat} (hfloor : st.logGcFloor ≤ after)
    (hmax : after ≠ StoreText.u64Max) (limit : Nat) :
    scanLogSinceSeq st after limit =
      .page ⟨segment history after (max after (min st.ingestSeq (after + limit))),
        max after (min st.ingestSeq (after + limit)), st.ingestSeq,
        decide (max after (min st.ingestSeq (after + limit)) < st.ingestSeq)⟩ := by
  have hhead := h.head_le
  have hpage := h.page hfloor limit
  have hentries : (st.ingestLog.filter fun e => after + 1 ≤ e.seq).take limit =
      segment history after (max after (min st.ingestSeq (after + limit))) := by
    rw [show (st.ingestLog.filter fun e => after + 1 ≤ e.seq).take limit =
      page StoreLogEntry.seq st.ingestLog after limit from rfl, hpage]
    by_cases hlt : after < st.ingestSeq
    · rw [Nat.max_eq_right (by omega)]
    · rw [Nat.max_eq_left (by omega), segment_self, RetainedLog.segment, List.drop_eq_nil_of_le]
      rw [List.length_take]
      omega
  have hlast : ((segment history after (max after (min st.ingestSeq (after + limit)))).getLast?.map
      (·.seq)).getD after = max after (min st.ingestSeq (after + limit)) := by
    by_cases hlt : after < st.ingestSeq
    · exact last_segment h.numbered (Nat.le_max_left _ _) (by omega)
    · rw [Nat.max_eq_left (by omega), segment_self]
      rfl
  rw [scanLogSinceSeq, if_neg (by omega), if_neg hmax]
  simp only [hentries, hlast]

/-- A reader of the log: where it stands, what it has collected, what it was last told. -/
structure Consumer where
  cursor : Nat
  got : List StoreLogEntry
  hasMore : Bool
  gap : Option PullGap

def Consumer.startAt (start : Nat) : Consumer := ⟨start, [], true, none⟩

/-- One read; a reader that was told of a gap reads no further. -/
def Consumer.poll (c : Consumer) (st : MemState) (limit : Nat) : Consumer :=
  if c.gap.isSome then c
  else match scanLogSinceSeq st c.cursor limit with
    | .gap gap => { c with gap := some gap }
    | .page page => ⟨page.nextAfterSeq, c.got ++ page.entries, page.hasMore, none⟩

/-- The store and one consumer of its log. -/
structure System where
  store : MemState
  consumer : Consumer

inductive Call where
  | mutate (action : Action)
  | poll (limit : Nat)

def call (s : System) : Call → System
  | .mutate action => { s with store := act s.store action }
  | .poll limit => { s with consumer := s.consumer.poll s.store limit }

/-- What one more read of the consumer brings. -/
structure Served (start : Nat) (s : System) (limit : Nat) : Prop where
  /-- A page is served only while nothing above the cursor is trimmed. -/
  complete : (s.consumer.poll s.store limit).gap = none → s.store.logGcFloor ≤ s.consumer.cursor
  /-- A gap is told only where entries above the cursor are trimmed. -/
  gap : s.consumer.gap = none → ∀ gap, (s.consumer.poll s.store limit).gap = some gap →
    s.consumer.cursor < s.store.logGcFloor ∧
      gap = ⟨s.consumer.cursor, s.store.logGcFloor + 1⟩
  /-- At the end of the log every entry above the start has been received. -/
  drained : (s.consumer.poll s.store limit).gap = none →
    (s.consumer.poll s.store limit).hasMore = false →
      ∀ n, start < n → n ≤ s.store.ingestSeq → n ≤ StoreText.u64Max →
        n ∈ (s.consumer.poll s.store limit).got.map (·.seq)
  /-- Short of the end the cursor advances. -/
  progress : (s.consumer.poll s.store limit).gap = none →
    (s.consumer.poll s.store limit).hasMore = true → s.consumer.gap = none → 1 ≤ limit →
      s.consumer.cursor < (s.consumer.poll s.store limit).cursor

/-- The log is a contiguous window, and the consumer holds the segment it has read. -/
structure Intact (history : List StoreLogEntry) (start : Nat) (s : System) : Prop where
  window : LogWindow history s.store
  contiguous : s.store.ingestLog.map (·.seq) =
    List.range' (s.store.logGcFloor + 1) (s.store.ingestSeq - s.store.logGcFloor)
  received : s.consumer.got = segment history start s.consumer.cursor
  in_order : s.consumer.got.map (·.seq) = List.range' (start + 1) (s.consumer.cursor - start)
  served : ∀ limit, Served start s limit

/-- The consumer stands at its start or inside the history, and holds what lies between. -/
structure Reading (history : List StoreLogEntry) (start : Nat) (c : Consumer) : Prop where
  started : start ≤ c.cursor
  inside : c.cursor = start ∨ c.cursor ≤ history.length
  received : c.got = segment history start c.cursor

theorem reading_startAt (start : Nat) : Reading [] start (.startAt start) :=
  ⟨Nat.le_refl _, .inl rfl, (segment_self [] start).symm⟩

/-- The cursor after a page of at most `limit` entries. -/
def nextCursor (st : MemState) (cursor limit : Nat) : Nat :=
  max cursor (min st.ingestSeq (cursor + limit))

inductive Polled (history : List StoreLogEntry) (st : MemState) (c : Consumer) (limit : Nat) :
    Consumer → Prop
  | behind (hlt : c.cursor < st.logGcFloor) :
      Polled history st c limit { c with gap := some ⟨c.cursor, st.logGcFloor + 1⟩ }
  | exhausted (hle : st.logGcFloor ≤ c.cursor) (hmax : c.cursor = StoreText.u64Max) :
      Polled history st c limit ⟨c.cursor, c.got, false, none⟩
  | read (hle : st.logGcFloor ≤ c.cursor) :
      Polled history st c limit ⟨nextCursor st c.cursor limit,
        c.got ++ segment history c.cursor (nextCursor st c.cursor limit),
        decide (nextCursor st c.cursor limit < st.ingestSeq), none⟩

variable {c : Consumer}

theorem polled (h : LogWindow history st) (hgap : c.gap = none) (limit : Nat) :
    Polled history st c limit (c.poll st limit) := by
  rw [Consumer.poll, hgap, if_neg (by simp)]
  by_cases hlt : c.cursor < st.logGcFloor
  · rw [scanLogSinceSeq, if_pos ⟨by omega, hlt⟩]
    exact .behind hlt
  · by_cases hmax : c.cursor = StoreText.u64Max
    · rw [scanLogSinceSeq, if_neg (by omega), if_pos hmax]
      simp only [List.append_nil]
      exact .exhausted (by omega) hmax
    · rw [scan_page h (by omega) hmax]
      exact .read (by omega)

theorem Reading.poll (h : Reading history start c) (hwindow : LogWindow history st) (limit : Nat) :
    Reading history start (c.poll st limit) := by
  by_cases hgap : c.gap = none
  · have hpolled := polled hwindow hgap limit
    generalize c.poll st limit = c' at hpolled ⊢
    have hhead := hwindow.head_le
    cases hpolled with
    | behind | exhausted => exact ⟨h.started, h.inside, h.received⟩
    | read =>
      refine ⟨Nat.le_trans h.started (Nat.le_max_left _ _), ?_, ?_⟩
      · have hinside := h.inside
        simp only [nextCursor]
        omega
      · rw [h.received]
        exact segment_append h.started (Nat.le_max_left _ _)
  · rw [Consumer.poll, if_pos (Option.isSome_iff_ne_none.mpr hgap)]
    exact h

theorem Reading.extend {history history' : List StoreLogEntry} (h : Reading history start c)
    (hpre : history <+: history') : Reading history' start c where
  started := h.started
  inside := h.inside.imp_right fun hle => Nat.le_trans hle hpre.length_le
  received := by
    rcases h.inside with heq | hle
    · rw [h.received, heq, segment_self, segment_self]
    · rw [h.received, segment_of_extends hpre hle]

theorem Reading.in_order (h : Reading history start c) (hnum : Numbered StoreLogEntry.seq history) :
    c.got.map (·.seq) = List.range' (start + 1) (c.cursor - start) := by
  rw [h.received]
  rcases h.inside with heq | hle
  · rw [heq, segment_self, Nat.sub_self]
    rfl
  · exact map_seq_segment hnum hle

variable {s : System}

theorem served (hwindow : LogWindow history s.store) (h : Reading history start s.consumer)
    (limit : Nat) : Served start s limit := by
  by_cases hgap : s.consumer.gap = none
  · have hnext := (h.poll hwindow limit).in_order hwindow.numbered
    have hpolled := polled hwindow hgap limit
    generalize hc : s.consumer.poll s.store limit = c' at hpolled hnext
    refine ⟨fun hc' => ?_, fun _ gap hc' => ?_, fun hc' hmore n hlo hhi hmax => ?_,
      fun hc' hmore _ hlimit => ?_⟩
    all_goals rw [hc] at *
    · cases hpolled with
      | behind => cases hc'
      | exhausted hle => exact hle
      | read hle => exact hle
    · cases hpolled with
      | behind hlt => cases hc'; exact ⟨hlt, rfl⟩
      | exhausted | read => cases hc'
    · rw [hnext, List.mem_range'_1]
      cases hpolled with
      | behind => cases hc'
      | exhausted => dsimp only; omega
      | read =>
        have hdone := of_decide_eq_false hmore
        dsimp only
        omega
    · cases hpolled with
      | behind => cases hc'
      | exhausted => cases hmore
      | read =>
        have hshort := of_decide_eq_true hmore
        simp only [nextCursor] at hshort ⊢
        omega
  · have hsame : s.consumer.poll s.store limit = s.consumer := by
      rw [Consumer.poll, if_pos (Option.isSome_iff_ne_none.mpr hgap)]
    refine ⟨fun h' => ?_, fun h' => absurd h' hgap, fun h' => ?_, fun _ _ h' => absurd h' hgap⟩
    · exact absurd (hsame ▸ h') hgap
    · exact absurd (hsame ▸ h') hgap

theorem intact (hwindow : LogWindow history s.store) (h : Reading history start s.consumer) :
    Intact history start s where
  window := hwindow
  contiguous := hwindow.seqs
  received := h.received
  in_order := h.in_order hwindow.numbered
  served := served hwindow h

/-- What holds between calls: the history is complete and the consumer reads in it. -/
structure Streaming (history : List StoreLogEntry) (start : Nat) (s : System) : Prop where
  rooted : Rooted s.store
  complete : History history s.store
  reading : Reading history start s.consumer

theorem streaming_call (h : Streaming history start s) (c : Call) :
    ∃ history', history <+: history' ∧ Streaming history' start (call s c) := by
  cases c with
  | mutate action =>
    obtain ⟨history', hpre, hhistory⟩ := history_act h.rooted h.complete action
    exact ⟨history', hpre, rooted_act h.rooted action, hhistory, h.reading.extend hpre⟩
  | poll limit =>
    exact ⟨history, List.prefix_refl history, h.rooted, h.complete,
      h.reading.poll h.complete.window limit⟩

/-- One history serves every state of a run. -/
theorem streaming_run (h : Streaming history start s) (calls : List Call) :
    ∃ history', history <+: history' ∧ Numbered StoreLogEntry.seq history' ∧
      ∀ ys, ys <+: calls → LogWindow history' (run call s ys).store ∧
        Reading history' start (run call s ys).consumer := by
  induction calls generalizing s history with
  | nil =>
    refine ⟨history, List.prefix_refl history, h.complete.window.numbered, fun ys hys => ?_⟩
    rw [List.prefix_nil.mp hys]
    exact ⟨h.complete.window, h.reading⟩
  | cons c _ ih =>
    obtain ⟨mid, hpre, hmid⟩ := streaming_call h c
    obtain ⟨last, hpre', hnum, hall⟩ := ih hmid
    refine ⟨last, hpre.trans hpre', hnum, fun ys hys => ?_⟩
    cases ys with
    | nil => exact ⟨h.complete.window.extend hnum (hpre.trans hpre'), h.reading.extend (hpre.trans hpre')⟩
    | cons y ys =>
      obtain ⟨rfl, hrest⟩ := List.cons_prefix_cons.mp hys
      exact hall ys hrest

theorem exists_history (h : Reachable st) : ∃ history, History history st :=
  (h.invariant (fun s => ∃ history, History history s) ⟨[], history_new⟩
    fun s e _ ⟨history, hs⟩ _ => by
      obtain ⟨history', -, hs'⟩ := history_perform hs e
      exact ⟨history', hs'⟩).2

/-- From any reachable store, over any interleaving of mutations and reads: the log is the
contiguous window of one numbered history, no number is used twice, and the consumer receives the
entries in order, each once, to the end of the log, or is told of a gap. -/
theorem ingest_log_stream (before : List Action) (start : Nat) (calls : List Call) :
    ∃ history, Numbered StoreLogEntry.seq history ∧
      (∀ ys, ys <+: calls →
        Intact history start (run call ⟨run act .new before, .startAt start⟩ ys)) ∧
      ∀ ys zs, ys <+: calls → zs <+: calls →
        ∀ e ∈ (run call ⟨run act .new before, .startAt start⟩ ys).store.ingestLog,
        ∀ e' ∈ (run call ⟨run act .new before, .startAt start⟩ zs).store.ingestLog,
          e.seq = e'.seq → e = e' := by
  have hreach : Reachable (run act .new before) := ⟨before, rfl⟩
  obtain ⟨past, hpast⟩ := exists_history hreach
  have hstart : Streaming past start ⟨run act .new before, .startAt start⟩ :=
    ⟨hreach.rooted, hpast, (reading_startAt start).extend List.nil_prefix⟩
  obtain ⟨history, -, hnum, hall⟩ := streaming_run hstart calls
  refine ⟨history, hnum, fun ys hys => intact (hall ys hys).1 (hall ys hys).2, ?_⟩
  intro ys zs hys hzs e he e' he' hseq
  exact Window.unique (hall ys hys).1 (hall zs hzs).1 he he' hseq

end StoreLog
