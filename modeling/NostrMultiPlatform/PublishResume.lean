import NostrMultiPlatform.PublishCrash

/-!
# What a restart resumes

A fact about a row and its record is watched until the row leaves. Each watch says
what a move makes of its fact; from there it is followed through moves, restarts
and whole runs. Three watches give crash safety: the handle is present, a relay is
pursued, a relay is barred.
-/
namespace PublishResume

open JobLog PublishCrash PublishEngine PublishMoves PublishSettlement PublishSilence PublishState
open Relation Runs Sorted Tables

/-- What a move leaves of a row: a relay settles by a sweep, by the gate or by an answer. -/
structure Kept (sweeping : Prop) (handle : PublishHandle) (more : List LogEntry)
    (row row' : InFlight) : Prop where
  event : row'.event = row.event
  reasons : ∀ url ∈ row.perRelay.keys, row'.reasonsOf url = row.reasonsOf url
  settled : ∀ url state, row.perRelay.lookup url = some state → state.isTerminal = true →
    row'.perRelay.lookup url = some state
  waits : ∀ url state, row.perRelay.lookup url = some state → state.isTerminal = false →
    ∃ state', row'.perRelay.lookup url = some state' ∧
      (state'.isTerminal = true →
        sweeping ∨ row.sanctioned url = false ∨ ∃ verdict, .answered handle url verdict ∈ more)

/-- The row left with a terminal of all its relays; the last ones to settle were answered. -/
structure Left (handle : PublishHandle) (more : List LogEntry) (row : InFlight) : Prop where
  ended : ∃ terminal outcome, .ended handle terminal ∈ more ∧
    terminal.publishQueue = .settled outcome
  answered : ∀ url state, row.perRelay.lookup url = some state → state.isTerminal = false →
    ∃ verdict, .answered handle url verdict ∈ more

/-- A fact about a row and its record, the entries that release it, and the relays that get nothing
while it holds. -/
structure Watch (sweeping : Prop) (handle : PublishHandle) where
  live : InFlight → PublishRecord → Prop
  mark : LogEntry → Prop
  bad : RelayUrl → Prop
  kept : ∀ {row row' record record' more}, live row record → Kept sweeping handle more row row' →
    (record' = record ∨ record' = recordOf handle row') → live row' record' ∨ ∃ e ∈ more, mark e
  quiet : ∀ {row record url state}, live row record → row.perRelay.lookup url = some state →
    state.isTerminal = false → row.sanctioned url = true → ¬ bad url
  left : ∀ {row record more}, live row record → Left handle more row → ∃ e ∈ more, mark e

variable {w : World} {sweeping : Prop} {hs : List PublishHandle} {handle : PublishHandle}
  {row : InFlight} {record : PublishRecord} {s s' s'' : PublishEngine}

theorem Kept.refl (more : List LogEntry) (row : InFlight) : Kept sweeping handle more row row where
  event := rfl
  reasons _ _ := rfl
  settled _ _ hstate _ := hstate
  waits _ state hstate hopen :=
    ⟨state, hstate, fun hterminal => absurd (hopen.symm.trans hterminal) nofun⟩

/-- One relay moves on. -/
theorem kept_change {more : List LogEntry} {url : RelayUrl} {state next : PerRelayState}
    (retries : SortedMap RelayUrl Nat) (hstate : row.perRelay.lookup url = some state)
    (hopen : state.isTerminal = false)
    (hnext : next.isTerminal = true →
      sweeping ∨ row.sanctioned url = false ∨ ∃ verdict, .answered handle url verdict ∈ more) :
    Kept sweeping handle more row (change row url next retries) where
  event := rfl
  reasons _ _ := rfl
  settled := change_kept hstate hopen next retries
  waits := by
    intro other found hfound hopen'
    by_cases heq : other = url
    · subst heq
      exact ⟨next, by rw [lookup_change, if_pos rfl], hnext⟩
    · refine ⟨found, by rw [lookup_change, if_neg heq, hfound], fun hterminal => ?_⟩
      exact absurd (hopen'.symm.trans hterminal) nofun

theorem kept_rowMove {work : Prop} {row' : InFlight} (h : RowMove sweeping work row row') :
    Kept sweeping handle [] row row' := by
  cases h with
  | reschedule =>
    have hsame : Kept sweeping handle [] row row := .refl [] row
    exact ⟨rfl, fun _ _ => rfl, hsame.settled, hsame.waits⟩
  | demote _ _ retries hstate hflight =>
    exact kept_change retries hstate (isTerminal_of_isInFlight hflight) nofun
  | refuse _ _ retries _ _ _ hstate hopen hgate =>
    exact kept_change retries hstate hopen fun _ => .inr (.inl hgate)
  | sweep f _ hsweeping hf =>
    refine ⟨rfl, fun _ _ => rfl, fun url state hstate hterminal => ?_, fun url state hstate _ => ?_⟩
    · rw [SortedMap.lookup_mapRows, hstate, Option.map_some]
      rcases hf url state with heq | ⟨hopen, -⟩
      · rw [heq]
      · exact absurd (hopen.symm.trans hterminal) nofun
    · refine ⟨f url state, ?_, fun _ => .inl hsweeping⟩
      rw [SortedMap.lookup_mapRows, hstate, Option.map_some]

theorem kept_widenRow {more : List LogEntry} {fresh : SortedMap RelayUrl (List RelaySelectionReason)}
    (hfresh : ∀ url ∈ fresh.keys, row.perRelay.lookup url = none) :
    Kept sweeping handle more row (widenRow row fresh) where
  event := rfl
  reasons := by
    intro url hurl
    obtain ⟨state, hstate⟩ := SortedMap.mem_keys.mp hurl
    exact congrArg (Option.getD · [])
      (lookup_foldl_insert _ _ (lookup_widenRow_of_some hfresh hstate).1)
  settled _ _ hstate _ := (lookup_widenRow_of_some hfresh hstate).2
  waits _ state hstate hopen := ⟨state, (lookup_widenRow_of_some hfresh hstate).2,
    fun hterminal => absurd (hopen.symm.trans hterminal) nofun⟩

theorem left_of_complete {more : List LogEntry} (last : InFlight)
    (hended : .ended handle (.fromOutcome handle last.correlationIdOverride
      (terminalOutcomeOf last)) ∈ more)
    (hanswered : ∀ url state, row.perRelay.lookup url = some state → state.isTerminal = false →
      ∃ verdict, .answered handle url verdict ∈ more) : Left handle more row :=
  ⟨⟨_, _, hended, rfl⟩, hanswered⟩

/-- What a move of the handle's row makes of row and record. -/
structure Acted (sweeping : Prop) (handle : PublishHandle) (row : InFlight) (record : PublishRecord)
    (s s' : PublishEngine) (more : List LogEntry) : Prop where
  log : s'.log = s.log ++ more
  sent : ∀ url, .sent handle url ∈ more → row.sanctioned url = true ∧
    ∃ state, row.perRelay.lookup url = some state ∧ state.isTerminal = false
  moved : (∃ row' record', s'.inFlight.lookup handle = some row' ∧
      s'.store.rows.lookup handle = some record' ∧ Kept sweeping handle more row row' ∧
      (record' = record ∨ record' = recordOf handle row')) ∨ Left handle more row

theorem upserted_or {row' : InFlight} {store store' : PublishStore}
    (h : Upserted w (recordOf handle row') store store')
    (hrecord : store.rows.lookup handle = some record) :
    ∃ record', store'.rows.lookup handle = some record' ∧
      (record' = record ∨ record' = recordOf handle row') := by
  rcases h with rfl | ⟨-, rfl⟩
  · exact ⟨recordOf handle row', AList.lookup_insert _, .inr rfl⟩
  · exact ⟨record, hrecord, .inl rfl⟩

theorem acted (h : Act w sweeping hs handle s s') (hrow : s.inFlight.lookup handle = some row)
    (hrecord : s.store.rows.lookup handle = some record) :
    ∃ more, Acted sweeping handle row record s s' more := by
  cases h with
  | edit _ row' hrow₁ hmove =>
    obtain rfl := Option.eq_some_unique hrow hrow₁
    exact ⟨[], (List.append_nil _).symm, fun _ h => absurd h List.not_mem_nil,
      .inl ⟨row', record, lookup_setRow_self .., hrecord, kept_rowMove hmove, .inl rfl⟩⟩
  | send _ url state retries _ _ hrow₁ hstate hopen hgate =>
    obtain rfl := Option.eq_some_unique hrow hrow₁
    refine ⟨[.sent handle url], rfl, fun other hmem => ?_, .inl ⟨_, record, lookup_setRow_self ..,
      hrecord, kept_change retries hstate hopen nofun, .inl rfl⟩⟩
    cases List.mem_singleton.mp hmem
    exact ⟨hgate, state, hstate, hopen⟩
  | answer _ url _ next retries _ hrow₁ hstate hflight _ hstore =>
    obtain rfl := Option.eq_some_unique hrow hrow₁
    obtain ⟨record', hrecord', hor⟩ := upserted_or hstore hrecord
    exact ⟨[.answered handle url next], rfl, by simp, .inl ⟨_, record', lookup_setRow_self ..,
      hrecord', kept_change retries hstate (isTerminal_of_isInFlight hflight)
        fun _ => .inr (.inr ⟨next, List.mem_cons_self⟩), hor⟩⟩
  | close _ url _ next retries _ hrow₁ _ _ hdone =>
    obtain rfl := Option.eq_some_unique hrow hrow₁
    refine ⟨[.answered handle url next, .ended handle _], List.append_assoc .., by simp,
      .inr (left_of_complete (change row url next retries) (by simp) fun other found hfound hopen => ?_)⟩
    by_cases heq : other = url
    · exact ⟨next, by simp [heq]⟩
    · have hterminal := isComplete_iff.mp hdone other found (by rw [lookup_change, if_neg heq, hfound])
      exact absurd (hopen.symm.trans hterminal) nofun
  | save _ _ hrow₁ hstore =>
    obtain rfl := Option.eq_some_unique hrow hrow₁
    obtain ⟨record', hrecord', hor⟩ := upserted_or hstore hrecord
    exact ⟨[], (List.append_nil _).symm, fun _ h => absurd h List.not_mem_nil,
      .inl ⟨row, record', hrow, hrecord', .refl [] row, hor⟩⟩
  | widen _ fresh _ hrow₁ hfresh _ _ hstore =>
    obtain rfl := Option.eq_some_unique hrow hrow₁
    obtain ⟨record', hrecord', hor⟩ := upserted_or hstore hrecord
    exact ⟨[.widened handle fresh.keys], rfl, by simp, .inl ⟨_, record', lookup_setRow_self ..,
      hrecord', kept_widenRow hfresh, hor⟩⟩
  | settle _ _ hrow₁ hdone =>
    obtain rfl := Option.eq_some_unique hrow hrow₁
    refine ⟨[.ended handle _], rfl, by simp,
      .inr (left_of_complete row (by simp) fun url state hstate hopen => ?_)⟩
    exact absurd (hopen.symm.trans (isComplete_iff.mp hdone url state hstate)) nofun

/-- The log only grows. -/
def Grows (s s' : PublishEngine) : Prop := ∃ more, s'.log = s.log ++ more

theorem Grows.trans (h : Grows s s') (h' : Grows s' s'') : Grows s s'' := by
  obtain ⟨more, hmore⟩ := h
  obtain ⟨later, hlater⟩ := h'
  exact ⟨more ++ later, by rw [hlater, hmore, List.append_assoc]⟩

theorem Grows.of_off {key : PublishHandle} (h : Off key s s') : Grows s s' := by
  obtain ⟨more, hmore, -⟩ := h.log
  exact ⟨more, hmore⟩

theorem grows_moves (sweeping : Prop) (hs : List PublishHandle) (h : Moves w sweeping hs s s') :
    Grows s s' := by
  induction h with
  | refl => exact ⟨[], (List.append_nil _).symm⟩
  | tail _ hmove ih =>
    cases hmove with
    | gate => exact ih
    | act _ hact => exact ih.trans (.of_off hact.off)

theorem grows_resumeRecord (nowMs : Nat) (s : PublishEngine) (record : PublishRecord) :
    Grows s (resumeRecord w nowMs s record) :=
  Grows.trans ⟨[.opened record.handle (rowOfRecord record).perRelay.keys], rfl⟩
    (grows_moves False [record.handle] (resumeRecord_moves nowMs s record))

theorem grows_resumeAll (nowMs : Nat) (records : List PublishRecord) (s : PublishEngine) :
    Grows s (records.foldl (resumeRecord w nowMs) s) := by
  induction records generalizing s with
  | nil => exact ⟨[], (List.append_nil _).symm⟩
  | cons record _ ih => exact (grows_resumeRecord nowMs s record).trans (ih _)

section Watching
variable {watch : Watch sweeping handle}

def Holds (watch : Watch sweeping handle) (s : PublishEngine) : Prop :=
  ∃ row record, s.inFlight.lookup handle = some row ∧ s.store.rows.lookup handle = some record ∧
    watch.live row record

/-- Nothing goes out to a bad relay before a mark. -/
def Quiet (watch : Watch sweeping handle) (more : List LogEntry) : Prop :=
  ∀ pre post url, more = pre ++ .sent handle url :: post → watch.bad url → ∃ e ∈ pre, watch.mark e

/-- The fact holds at the end, unless a mark released it. -/
def Leads (watch : Watch sweeping handle) (s s' : PublishEngine) : Prop :=
  ∃ more, s'.log = s.log ++ more ∧ Quiet watch more ∧ (Holds watch s' ∨ ∃ e ∈ more, watch.mark e)

theorem quiet_of_not_sent {more : List LogEntry}
    (h : ∀ url, watch.bad url → .sent handle url ∉ more) : Quiet watch more := by
  rintro pre post url rfl hbad
  exact absurd (List.mem_append_right pre List.mem_cons_self) (h url hbad)

theorem Quiet.append {more later : List LogEntry} (h : Quiet watch more)
    (h' : Quiet watch later ∨ ∃ e ∈ more, watch.mark e) : Quiet watch (more ++ later) := by
  intro pre post url heq hbad
  rcases List.append_eq_append_iff.mp heq with ⟨mid, hpre, hlater⟩ | ⟨mid, hmore, hpost⟩
  · rcases h' with hquiet | ⟨e, he, hmark⟩
    · obtain ⟨e, he, hmark⟩ := hquiet mid post url hlater hbad
      exact ⟨e, hpre ▸ List.mem_append_right more he, hmark⟩
    · exact ⟨e, hpre ▸ List.mem_append_left mid he, hmark⟩
  · cases mid with
    | nil =>
      have hnone : more = pre := hmore.trans (List.append_nil pre)
      rcases h' with hquiet | ⟨e, he, hmark⟩
      · obtain ⟨e, he, -⟩ := hquiet [] post url hpost.symm hbad
        cases he
      · exact ⟨e, hnone ▸ he, hmark⟩
    | cons e rest =>
      obtain ⟨rfl, -⟩ := List.cons_eq_cons.mp hpost
      exact h pre rest url hmore hbad

theorem Leads.trans (h : Leads watch s s') (h' : Holds watch s' → Leads watch s' s'')
    (hgrows : Grows s' s'') : Leads watch s s'' := by
  obtain ⟨more, hmore, hquiet, hholds | ⟨e, he, hmark⟩⟩ := h
  · obtain ⟨later, hlater, hquiet', hholds'⟩ := h' hholds
    refine ⟨more ++ later, by rw [hlater, hmore, List.append_assoc], hquiet.append (.inl hquiet'), ?_⟩
    exact hholds'.imp_right fun ⟨e, he, hmark⟩ => ⟨e, List.mem_append_right more he, hmark⟩
  · obtain ⟨later, hlater⟩ := hgrows
    exact ⟨more ++ later, by rw [hlater, hmore, List.append_assoc],
      hquiet.append (.inr ⟨e, he, hmark⟩), .inr ⟨e, List.mem_append_left later he, hmark⟩⟩

theorem Leads.refl (h : Holds watch s) : Leads watch s s :=
  ⟨[], (List.append_nil _).symm, quiet_of_not_sent fun _ _ => List.not_mem_nil, .inl h⟩

/-- Calls of other handles come first. -/
theorem Leads.after (h : Leads watch s' s'')
    (hlog : ∃ more, s'.log = s.log ++ more ∧ ∀ url, .sent handle url ∉ more) :
    Leads watch s s'' := by
  obtain ⟨more, hmore, hsent⟩ := hlog
  obtain ⟨later, hlater, hquiet, hholds⟩ := h
  refine ⟨more ++ later, by rw [hlater, hmore, List.append_assoc],
    (quiet_of_not_sent fun url _ => hsent url).append (.inl hquiet), ?_⟩
  exact hholds.imp_right fun ⟨e, he, hmark⟩ => ⟨e, List.mem_append_right more he, hmark⟩

theorem leads_off {key : PublishHandle} (h : Holds watch s) (hoff : Off key s s')
    (hne : handle ≠ key) : Leads watch s s' := by
  obtain ⟨row, record, hrow, hrecord, hlive⟩ := h
  obtain ⟨more, hmore, habout⟩ := hoff.log
  refine ⟨more, hmore, quiet_of_not_sent fun url _ hmem => ?_,
    .inl ⟨row, record, (hoff.rows handle hne).trans hrow, (hoff.store handle hne).trans hrecord,
      hlive⟩⟩
  exact hne (Option.some.inj (habout _ hmem))

theorem leads_act (h : Holds watch s) (hact : Act w sweeping hs handle s s') :
    Leads watch s s' := by
  obtain ⟨row, record, hrow, hrecord, hlive⟩ := h
  obtain ⟨more, hacted⟩ := acted hact hrow hrecord
  refine ⟨more, hacted.log, quiet_of_not_sent fun url hbad hmem => ?_, ?_⟩
  · obtain ⟨hgate, state, hstate, hopen⟩ := hacted.sent url hmem
    exact watch.quiet hlive hstate hopen hgate hbad
  · rcases hacted.moved with ⟨row', record', hrow', hrecord', hkept, hor⟩ | hleft
    · exact (watch.kept hlive hkept hor).imp_left fun hlive' =>
        ⟨row', record', hrow', hrecord', hlive'⟩
    · exact .inr (watch.left hlive hleft)

theorem leads_moves (hs : List PublishHandle) (h : Holds watch s)
    (hmoves : Moves w sweeping hs s s') : Leads watch s s' := by
  induction hmoves with
  | refl => exact .refl h
  | tail _ hmove ih =>
    cases hmove with
    | gate => exact ih.trans (fun hholds => .refl hholds) ⟨[], (List.append_nil _).symm⟩
    | act key hact =>
      refine ih.trans (fun hholds => ?_) (.of_off hact.off)
      by_cases hkey : handle = key
      · subst hkey
        exact leads_act hholds hact
      · exact leads_off hholds hact.off hkey

/-- A record under the watched handle is loaded. -/
theorem leads_resumeRecord (nowMs : Nat) (hkey : handle = record.handle)
    (hstored : s.store.rows.lookup record.handle = some record)
    (hlive : watch.live (rowOfRecord record) record) :
    Leads watch s (resumeRecord w nowMs s record) := by
  subst hkey
  have hopened : Leads watch s (insertRow record.handle (rowOfRecord record) s) :=
    ⟨[.opened record.handle (rowOfRecord record).perRelay.keys], rfl, quiet_of_not_sent (by simp),
      .inl ⟨rowOfRecord record, record, lookup_setRow_self .., hstored, hlive⟩⟩
  have hmoves : Moves w sweeping [record.handle] (insertRow record.handle (rowOfRecord record) s)
      (resumeRecord w nowMs s record) :=
    (dispatchPending_moves List.mem_cons_self nowMs _).trans (finalizeCompletedRows_moves _ _)
  exact hopened.trans (fun hholds => leads_moves _ hholds hmoves) (grows_moves sweeping _ hmoves)

theorem leads_resumeOther (nowMs : Nat) (hkey : handle ≠ record.handle) (h : Holds watch s) :
    Leads watch s (resumeRecord w nowMs s record) := by
  have hopened : Off record.handle s (insertRow record.handle (rowOfRecord record) s) :=
    (off_setRow s record.handle _).logged rfl
  have hmoves : Moves w sweeping [record.handle] (insertRow record.handle (rowOfRecord record) s)
      (resumeRecord w nowMs s record) :=
    (dispatchPending_moves List.mem_cons_self nowMs _).trans (finalizeCompletedRows_moves _ _)
  exact (leads_off h hopened hkey).trans (fun hholds => leads_moves _ hholds hmoves)
    (grows_moves sweeping _ hmoves)

theorem leads_resumeOthers (nowMs : Nat) {records : List PublishRecord}
    (hne : ∀ record ∈ records, handle ≠ record.handle) (h : Holds watch s) :
    Leads watch s (records.foldl (resumeRecord w nowMs) s) := by
  induction records generalizing s with
  | nil => exact .refl h
  | cons record others ih =>
    have hhead : Leads watch s (resumeRecord w nowMs s record) :=
      leads_resumeOther nowMs (hne record List.mem_cons_self) h
    exact hhead.trans (ih fun other hother => hne other (List.mem_cons_of_mem _ hother))
      (grows_resumeAll nowMs others _)

theorem leads_resumeAll (nowMs : Nat) {records : List PublishRecord} (hwaiting : Waiting records s)
    (hmem : record ∈ records) (hkey : handle = record.handle)
    (hlive : watch.live (rowOfRecord record) record) :
    Leads watch s (records.foldl (resumeRecord w nowMs) s) := by
  induction records generalizing s with
  | nil => cases hmem
  | cons first others ih =>
    obtain ⟨hfirst, -⟩ := List.nodup_cons.mp hwaiting.nodup
    rw [List.foldl_cons]
    rcases List.mem_cons.mp hmem with rfl | hlater
    · have hhead : Leads watch s (resumeRecord w nowMs s record) :=
        leads_resumeRecord nowMs hkey (hwaiting.stored record List.mem_cons_self) hlive
      refine hhead.trans (leads_resumeOthers nowMs fun other hother heq => hfirst ?_)
        (grows_resumeAll nowMs others _)
      exact List.mem_map.mpr ⟨other, hother, heq.symm.trans hkey⟩
    · have hne : handle ≠ first.handle := fun heq =>
        hfirst (List.mem_map.mpr ⟨record, hlater, hkey.symm.trans heq⟩)
      have hnone : s.inFlight.lookup handle = none :=
        hkey ▸ hwaiting.rowless record (List.mem_cons_of_mem _ hlater)
      have hopened := silent_insertRow hne (rowOfRecord first) hnone
      have hsilent := hopened.trans (silent_finish (w := w) first.handle nowMs hopened.rowless)
      exact (ih (hwaiting.tail nowMs) hlater).after hsilent.log

theorem leads_restart (hw : w.Reliable) (policy : RetryPolicy) (nowMs : Nat)
    (hstored : s.store.rows.lookup handle = some record) (hpending : isPending record = true)
    (hlive : watch.live (rowOfRecord record) record) :
    Leads watch s (resumeFromStore w nowMs (stop s policy)).1 := by
  have hkey : handle = record.handle := (s.store.keyed handle record hstored).symm
  rw [resumeFromStore_eq hw]
  have hresumed : Leads watch (stop s policy)
      ((pendingRecords w s.store).foldl (resumeRecord w nowMs) (stop s policy)) :=
    leads_resumeAll nowMs (waiting_stop w s policy)
      (mem_pendingRecords.mpr ⟨hkey ▸ hstored, hpending⟩) hkey hlive
  exact hresumed.after ⟨[.stopped], rfl, by simp⟩

theorem leads_startPublish (h : Holds watch s) (action : PublishAction) (nowMs : Nat)
    (override : Option String) : Leads watch s (startPublish w action nowMs override s).1 := by
  cases action with
  | publish key event target =>
    rw [startPublish, startPublishInner]
    split
    next => exact .refl h
    next hnot =>
      have hne : handle ≠ key := by
        rintro rfl
        obtain ⟨row, -, hrow, -⟩ := h
        exact hnot ((mem_iff_lookup _ _).mpr ⟨row, hrow⟩)
      dsimp only
      split
      next =>
        exact leads_off h ⟨fun _ _ => rfl, fun _ _ => rfl, [.ended key _], rfl,
          by simp [Entry.about]⟩ hne
      next =>
        let opened := insertRow key
          (newRow event target (relayMap (resolveFor w event target)) override) s
        have hopened : Leads watch s opened := leads_off h ((off_setRow s key _).logged rfl) hne
        have hpersist : Moves w sweeping [] opened (persist w key opened).1 :=
          persist_moves opened key
        have hsaved : Leads watch s (persist w key opened).1 :=
          hopened.trans (fun hholds => leads_moves [] hholds hpersist)
            (grows_moves sweeping [] hpersist)
        split
        next s' error heq =>
          rw [heq] at hsaved
          exact hsaved
        next s' heq =>
          rw [heq] at hsaved
          have hmoves : Moves w sweeping [key] s'
              (finalizeCompletedRows w [key] (dispatchPending w key nowMs s')) :=
            (dispatchPending_moves List.mem_cons_self nowMs s').trans
              (finalizeCompletedRows_moves [key] _)
          exact hsaved.trans (fun hholds => leads_moves [key] hholds hmoves)
            (grows_moves sweeping [key] hmoves)
  | _ => exact .refl h

theorem leads_cancel (h : Holds watch s) (hmark : ∀ terminal, watch.mark (.ended handle terminal))
    (key : PublishHandle) (correlationId : String) :
    Leads watch s (cancelByHandle w key correlationId s) := by
  obtain ⟨store, hdelete, hstore⟩ := delete_spec w key (recordTerminal key
    ⟨correlationId, "cancelled", none, some key, .cancelled key⟩
    { s with inFlight := s.inFlight.erase key })
  have hcall : cancelByHandle w key correlationId s = _ := hdelete
  rw [hcall]
  by_cases hkey : handle = key
  · subst hkey
    exact ⟨[.ended handle _], rfl, quiet_of_not_sent (by simp), .inr ⟨_, List.mem_cons_self, hmark _⟩⟩
  · exact leads_off h ⟨fun other hne => AList.lookup_erase_ne hne,
      fun other hne => Deleted.off hstore hne, [.ended key _], rfl, by simp [Entry.about]⟩ hkey

end Watching

/-- A watch that endings release, that sweeps do not disturb, and that survives loading. -/
structure Lasting (watch : Watch True handle) : Prop where
  ended : ∀ terminal, watch.mark (.ended handle terminal)
  loads : ∀ {s : PublishEngine} {row record}, Durable s → s.inFlight.lookup handle = some row →
    s.store.rows.lookup handle = some record → watch.live row record →
      watch.live (rowOfRecord record) record

theorem pending_stored (h : Settling [] [] s) (hrow : s.inFlight.lookup handle = some row)
    (hrecord : s.store.rows.lookup handle = some record) : isPending record = true := by
  obtain ⟨found, hfound, hpending⟩ := (h.each handle).stored row hrow
  obtain rfl := Option.eq_some_unique hfound hrecord
  exact hpending ((h.each handle).waits row hrow List.not_mem_nil)

theorem leads_perform {watch : Watch True handle} (hlasting : Lasting watch) (hs : Durable s)
    (h : Holds watch s) {step : World × Call} (hstep : Sound step) :
    Leads watch s (perform s step) := by
  obtain ⟨w, call⟩ := step
  cases call with
  | startPublish action nowMs override => exact leads_startPublish h action nowMs override
  | onAck key ack nowMs => exact leads_moves [] h (onAck_moves key ack nowMs s)
  | tick nowMs => exact leads_moves _ h (tick_moves nowMs s)
  | markRelayUnavailable relayUrl nowMs =>
    exact leads_moves [] h (markRelayUnavailable_moves relayUrl nowMs s)
  | markRelayAvailable relayUrl nowMs =>
    exact leads_moves _ h (markRelayAvailable_moves relayUrl nowMs s)
  | retryNow key nowMs => exact leads_moves _ h (retryNow_moves key nowMs s)
  | cancelByHandle key correlationId => exact leads_cancel h hlasting.ended key correlationId
  | restart policy nowMs =>
    obtain ⟨row, record, hrow, hrecord, hlive⟩ := h
    exact leads_restart hstep.1 policy nowMs hrecord (pending_stored hs.settling hrow hrecord)
      (hlasting.loads hs hrow hrecord hlive)

theorem grows_startPublish (w : World) (s : PublishEngine) (action : PublishAction) (nowMs : Nat)
    (override : Option String) : Grows s (startPublish w action nowMs override s).1 := by
  have hsame : Grows s s := ⟨[], (List.append_nil _).symm⟩
  cases action with
  | publish key event target =>
    rw [startPublish, startPublishInner]
    split
    next => exact hsame
    next =>
      dsimp only
      split
      next => exact ⟨[.ended key _], rfl⟩
      next =>
        let opened := insertRow key
          (newRow event target (relayMap (resolveFor w event target)) override) s
        have hsaved : Grows s (persist w key opened).1 :=
          Grows.trans ⟨[.opened key _], rfl⟩ (grows_moves False [] (persist_moves opened key))
        split
        next s' error heq =>
          rw [heq] at hsaved
          exact hsaved
        next s' heq =>
          rw [heq] at hsaved
          exact hsaved.trans (grows_moves False [key]
            ((dispatchPending_moves List.mem_cons_self nowMs s').trans
              (finalizeCompletedRows_moves [key] _)))
  | _ => exact hsame

theorem grows_perform (s : PublishEngine) (step : World × Call) : Grows s (perform s step) := by
  obtain ⟨w, call⟩ := step
  cases call with
  | startPublish action nowMs override => exact grows_startPublish w s action nowMs override
  | onAck key ack nowMs => exact grows_moves False [] (onAck_moves key ack nowMs s)
  | tick nowMs => exact grows_moves True _ (tick_moves nowMs s)
  | markRelayUnavailable relayUrl nowMs =>
    exact grows_moves False [] (markRelayUnavailable_moves relayUrl nowMs s)
  | markRelayAvailable relayUrl nowMs =>
    exact grows_moves False _ (markRelayAvailable_moves relayUrl nowMs s)
  | retryNow key nowMs => exact grows_moves False _ (retryNow_moves key nowMs s)
  | cancelByHandle key correlationId =>
    obtain ⟨store, hdelete, -⟩ := delete_spec w key (recordTerminal key
      ⟨correlationId, "cancelled", none, some key, .cancelled key⟩
      { s with inFlight := s.inFlight.erase key })
    have hcall : cancelByHandle w key correlationId s = _ := hdelete
    exact ⟨[.ended key _], by rw [perform, hcall]; rfl⟩
  | restart policy nowMs =>
    have hstop : Grows s (stop s policy) := ⟨[.stopped], rfl⟩
    refine hstop.trans ?_
    change Grows _ (resumeFromStore w nowMs (stop s policy)).1
    unfold resumeFromStore
    split
    next => exact ⟨[], (List.append_nil _).symm⟩
    next => exact grows_resumeAll nowMs _ _

theorem grows_run (steps : List (World × Call)) (s : PublishEngine) :
    Grows s (run perform s steps) := by
  induction steps generalizing s with
  | nil => exact ⟨[], (List.append_nil _).symm⟩
  | cons step _ ih => exact (grows_perform s step).trans (ih (perform s step))

theorem durable_perform (hs : Durable s) {step : World × Call} (hstep : Sound step) :
    Durable (perform s step) :=
  ⟨settling_perform hs.settling step hstep.1,
    backed_perform hs.settling hs.backed hstep.1 hstep.2⟩

theorem leads_run {watch : Watch True handle} (hlasting : Lasting watch) (hs : Durable s)
    (h : Holds watch s) {steps : List (World × Call)} (hsteps : ∀ step ∈ steps, Sound step) :
    Leads watch s (run perform s steps) := by
  induction steps generalizing s with
  | nil => exact .refl h
  | cons step rest ih =>
    have hstep := hsteps step List.mem_cons_self
    refine (leads_perform hlasting hs h hstep).trans (fun hholds => ?_) (grows_run rest _)
    exact ih (durable_perform hs hstep) hholds fun other hother =>
      hsteps other (List.mem_cons_of_mem _ hother)

/-- The handle stays in flight until a terminal of all its relays. -/
def present (handle : PublishHandle) : Watch False handle where
  live _ _ := True
  mark e := ∃ terminal outcome, e = .ended handle terminal ∧ terminal.publishQueue = .settled outcome
  bad _ := False
  kept _ _ _ := .inl trivial
  quiet _ _ _ _ h := h
  left _ h := by
    obtain ⟨terminal, outcome, hended, hsettled⟩ := h.ended
    exact ⟨_, hended, terminal, outcome, rfl, hsettled⟩

section

variable {more : List LogEntry} {row' : InFlight} {url : RelayUrl}
  (h : Kept sweeping handle more row row') (hurl : url ∈ row.perRelay.keys)
include h hurl

theorem Kept.sanctioned : row'.sanctioned url = row.sanctioned url := by
  rw [InFlight.sanctioned, InFlight.sanctioned, h.event, h.reasons url hurl]

theorem Kept.key : url ∈ row'.perRelay.keys := by
  obtain ⟨state, hstate⟩ := SortedMap.mem_keys.mp hurl
  cases hterminal : state.isTerminal with
  | true => exact SortedMap.mem_keys.mpr ⟨state, h.settled url state hstate hterminal⟩
  | false =>
    obtain ⟨state', hstate', -⟩ := h.waits url state hstate hterminal
    exact SortedMap.mem_keys.mpr ⟨state', hstate'⟩

end

/-- A relay that the gate lets through waits until it is answered. -/
def pursued (handle : PublishHandle) (url : RelayUrl) : Watch False handle where
  live row _ := row.sanctioned url = true ∧
    ∃ state, row.perRelay.lookup url = some state ∧ state.isTerminal = false
  mark e := ∃ verdict, e = .answered handle url verdict
  bad _ := False
  kept := by
    rintro row row' - - more ⟨hgate, state, hstate, hopen⟩ hkept -
    obtain ⟨state', hstate', hnext⟩ := hkept.waits url state hstate hopen
    cases hterminal : state'.isTerminal with
    | false =>
      have hsame := hkept.sanctioned (SortedMap.mem_keys.mpr ⟨state, hstate⟩)
      exact .inl ⟨hsame.trans hgate, state', hstate', hterminal⟩
    | true =>
      rcases hnext hterminal with hfalse | hrefused | ⟨verdict, hmem⟩
      · exact hfalse.elim
      · exact absurd (hrefused.symm.trans hgate) nofun
      · exact .inr ⟨_, hmem, verdict, rfl⟩
  quiet _ _ _ _ h := h
  left := by
    rintro row - more ⟨-, state, hstate, hopen⟩ hleft
    obtain ⟨verdict, hmem⟩ := hleft.answered url state hstate hopen
    exact ⟨_, hmem, verdict, rfl⟩

/-- A relay that is settled in row and record, or that the gate refuses, gets nothing. -/
def barred (handle : PublishHandle) (url : RelayUrl) : Watch True handle where
  live row record :=
    (∃ state state', row.perRelay.lookup url = some state ∧ state.isTerminal = true ∧
      (url, state') ∈ record.perRelay ∧ state'.isTerminal = true) ∨
    url ∈ row.perRelay.keys ∧ row.sanctioned url = false
  mark e := ∃ terminal, e = .ended handle terminal
  bad other := other = url
  kept := by
    rintro row row' record record' more (⟨state, state', hstate, hterminal, hmem, hsaved⟩ |
      ⟨hurl, hgate⟩) hkept hor
    · have hstate' := hkept.settled url state hstate hterminal
      rcases hor with rfl | rfl
      · exact .inl (.inl ⟨state, state', hstate', hterminal, hmem, hsaved⟩)
      · exact .inl (.inl ⟨state, state, hstate', hterminal, SortedMap.lookup_eq_some.mp hstate',
          hterminal⟩)
    · exact .inl (.inr ⟨hkept.key hurl, (hkept.sanctioned hurl).trans hgate⟩)
  quiet := by
    rintro row record other found (⟨state, -, hstate, hterminal, -⟩ | ⟨-, hgate⟩) hfound hopen
      hpassed rfl
    · obtain rfl := Option.eq_some_unique hfound hstate
      exact absurd (hopen.symm.trans hterminal) nofun
    · exact absurd (hgate.symm.trans hpassed) nofun
  left _ h := by
    obtain ⟨terminal, -, hended, -⟩ := h.ended
    exact ⟨_, hended, terminal, rfl⟩

/-- What a restart loads of a row. -/
structure Loaded (row loaded : InFlight) (answers : List (RelayUrl × PerRelayState)) : Prop where
  event : loaded.event = row.event
  reasons : loaded.relayReasons = row.relayReasons
  lags : Lags answers row.perRelay loaded.perRelay

theorem Loaded.sanctioned {loaded : InFlight} {answers : List (RelayUrl × PerRelayState)}
    (h : Loaded row loaded answers) (url : RelayUrl) :
    loaded.sanctioned url = row.sanctioned url := by
  rw [InFlight.sanctioned, InFlight.sanctioned, InFlight.reasonsOf, InFlight.reasonsOf, h.event,
    h.reasons]

theorem loaded_of_durable (hs : Durable s) (hrow : s.inFlight.lookup handle = some row) :
    ∃ record life, s.store.rows.lookup handle = some record ∧ isPending record = true ∧
      lifeOf handle s.log = some life ∧ Loads record (rowOfRecord record).perRelay row.relayReasons ∧
        Loaded row (rowOfRecord record) life.answers := by
  obtain ⟨record, life, saved, hrecord, hlife, hevent, hloads, hlags⟩ := hs.backed handle row hrow
  refine ⟨record, life, hrecord, pending_stored hs.settling hrow hrecord, hlife,
    hloads.perRelay_eq.symm ▸ hloads, hevent, hloads.relayReasons_eq, hloads.perRelay_eq.symm ▸ hlags⟩

theorem mem_keys_of_lags {answers : List (RelayUrl × PerRelayState)}
    {now saved : SortedMap RelayUrl PerRelayState} (h : Lags answers now saved) {url : RelayUrl} :
    url ∈ saved.keys ↔ url ∈ now.keys := by
  rw [SortedMap.mem_keys, SortedMap.mem_keys, ← Option.isSome_iff_exists,
    ← Option.isSome_iff_exists, h.keys]

theorem barred_lasting (handle : PublishHandle) (url : RelayUrl) : Lasting (barred handle url) where
  ended terminal := ⟨terminal, rfl⟩
  loads := by
    rintro s row record hs hrow hrecord (⟨-, state', -, -, hmem, hsaved⟩ | ⟨hurl, hgate⟩)
    · obtain ⟨found, life, hfound, -, -, hloads, -⟩ := loaded_of_durable hs hrow
      obtain rfl := Option.eq_some_unique hfound hrecord
      have hstate : (rowOfRecord found).perRelay.lookup url = some state' :=
        SortedMap.lookup_eq_some.mpr (hloads.perRelay ▸ hmem)
      exact .inl ⟨state', state', hstate, hsaved, hmem, hsaved⟩
    · obtain ⟨found, life, hfound, -, -, -, hloaded⟩ := loaded_of_durable hs hrow
      obtain rfl := Option.eq_some_unique hfound hrecord
      exact .inr ⟨(mem_keys_of_lags hloaded.lags).mpr hurl, (hloaded.sanctioned url).trans hgate⟩

theorem leads_loaded {watch : Watch sweeping handle} (hs : Durable s) (hw : w.Reliable)
    (policy : RetryPolicy) (nowMs : Nat) (hrow : s.inFlight.lookup handle = some row)
    (hlive : ∀ record life, lifeOf handle s.log = some life →
      Loads record (rowOfRecord record).perRelay row.relayReasons →
      Loaded row (rowOfRecord record) life.answers → watch.live (rowOfRecord record) record) :
    Leads watch s (perform s (w, .restart policy nowMs)) := by
  obtain ⟨record, life, hrecord, hpending, hlife, hloads, hloaded⟩ := loaded_of_durable hs hrow
  exact leads_restart hw policy nowMs hrecord hpending (hlive record life hlife hloads hloaded)

/-- A relay that some answer settled, as the log of the handle's open life has it. -/
def AnsweredAs (s : PublishEngine) (handle : PublishHandle) (url : RelayUrl)
    (state : PerRelayState) : Prop :=
  ∃ life, lifeOf handle s.log = some life ∧ (url, state) ∈ life.answers

theorem not_sent_again (hs : Durable s) (hw : Sound (w, .restart policy nowMs))
    (hrow : s.inFlight.lookup handle = some row) {url : RelayUrl} {state : PerRelayState}
    (hstate : row.perRelay.lookup url = some state)
    (hdone : state.isOk = true ∨ AnsweredAs s handle url state ∧ state.isTerminal = true ∨
      row.sanctioned url = false)
    {later : List (World × Call)} (hlater : ∀ step ∈ later, Sound step)
    {before after : List LogEntry}
    (hlog : (run perform (perform s (w, .restart policy nowMs)) later).log =
      s.log ++ (before ++ .sent handle url :: after)) :
    ∃ terminal, .ended handle terminal ∈ before := by
  let watch : Watch True handle := barred handle url
  have hresumed : Leads watch s (perform s (w, .restart policy nowMs)) := by
    refine leads_loaded hs hw.1 policy nowMs hrow fun record life hlife hloads hloaded => ?_
    have hsaved : ∀ final, (rowOfRecord record).perRelay.lookup url = some final →
        final.isTerminal = true → watch.live (rowOfRecord record) record :=
      fun final hfinal hterminal => .inl ⟨final, final, hfinal, hterminal,
        hloads.perRelay ▸ SortedMap.lookup_eq_some.mp hfinal, hterminal⟩
    rcases hdone with hok | ⟨⟨life', hlife', hmem⟩, hterminal⟩ | hgate
    · exact hsaved state (hloaded.lags.accepted url state hstate hok)
        (PerRelayState.isTerminal_of_isOk hok)
    · obtain rfl := Option.eq_some_unique hlife' hlife
      exact hsaved state (hloaded.lags.answered url state hmem hterminal) hterminal
    · exact .inr ⟨(mem_keys_of_lags hloaded.lags).mpr (SortedMap.mem_keys.mpr ⟨state, hstate⟩),
        (hloaded.sanctioned url).trans hgate⟩
  have hall : Leads watch s (run perform (perform s (w, .restart policy nowMs)) later) :=
    hresumed.trans (fun hholds => leads_run (barred_lasting handle url) (durable_perform hs hw)
      hholds hlater) (grows_run later _)
  obtain ⟨more, hmore, hquiet, -⟩ := hall
  obtain ⟨e, he, terminal, rfl⟩ :=
    hquiet before after url (List.append_cancel_left (hmore.symm.trans hlog)) rfl
  exact ⟨terminal, he⟩

/-- After any run with stores that do not fail and relays with stable identities, let the process
stop and a fresh engine resume. Every handle that was in flight has a row again, or has recorded a
terminal of all its relays meanwhile; every relay that was not settled, and that the emission gate
lets through, is not settled in that row, or an answer from it has been taken in meanwhile; and
whatever is called afterwards, until the handle ends nothing is sent for it to a relay that had
accepted the event, that an answer had settled, or that the gate refuses. -/
theorem restart_resumes (policy : RetryPolicy) (steps : List (World × Call))
    (hsteps : ∀ step ∈ steps, Sound step) (w : World) (fresh : RetryPolicy) (nowMs : Nat)
    (hw : Sound (w, .restart fresh nowMs)) :
    let s := run perform (.new policy .empty) steps
    let s' := perform s (w, .restart fresh nowMs)
    ∃ new, s'.log = s.log ++ new ∧ ∀ handle row, s.inFlight.lookup handle = some row →
      ((∃ row', s'.inFlight.lookup handle = some row') ∨
        ∃ terminal outcome, .ended handle terminal ∈ new ∧
          terminal.publishQueue = .settled outcome) ∧
      (∀ url state, row.perRelay.lookup url = some state → state.isTerminal = false →
        row.sanctioned url = true →
          (∃ row' state', s'.inFlight.lookup handle = some row' ∧
            row'.perRelay.lookup url = some state' ∧ state'.isTerminal = false) ∨
          ∃ verdict, .answered handle url verdict ∈ new) ∧
      ∀ url state, row.perRelay.lookup url = some state →
        state.isOk = true ∨ AnsweredAs s handle url state ∧ state.isTerminal = true ∨
          row.sanctioned url = false →
        ∀ later : List (World × Call), (∀ step ∈ later, Sound step) → ∀ before after,
          (run perform s' later).log = s.log ++ (before ++ .sent handle url :: after) →
            ∃ terminal, .ended handle terminal ∈ before := by
  intro s s'
  have hs : Durable s := durable_run policy hsteps
  obtain ⟨new, hnew⟩ := grows_perform s (w, .restart fresh nowMs)
  refine ⟨new, hnew, fun handle row hrow => ⟨?_, fun url state hstate hopen hgate => ?_,
    fun url state hstate hdone later hlater before after hlog =>
      not_sent_again hs hw hrow hstate hdone hlater hlog⟩⟩
  · have hleads : Leads (present handle) s s' :=
      leads_loaded hs hw.1 fresh nowMs hrow fun _ _ _ _ _ => trivial
    obtain ⟨more, hmore, -, ⟨row', -, hrow', -⟩ | ⟨e, he, terminal, outcome, rfl, hsettled⟩⟩ := hleads
    · exact .inl ⟨row', hrow'⟩
    · have heq : more = new := List.append_cancel_left (hmore.symm.trans hnew)
      exact .inr ⟨terminal, outcome, heq ▸ he, hsettled⟩
  · have hleads : Leads (pursued handle url) s s' := by
      refine leads_loaded hs hw.1 fresh nowMs hrow fun record life _ _ hloaded => ?_
      refine ⟨(hloaded.sanctioned url).trans hgate, ?_⟩
      obtain ⟨loaded, hfound⟩ := SortedMap.mem_keys.mp
        ((mem_keys_of_lags hloaded.lags).mpr (SortedMap.mem_keys.mpr ⟨state, hstate⟩))
      refine ⟨loaded, hfound, Bool.eq_false_iff.mpr fun hterminal => ?_⟩
      obtain rfl := Option.some.inj
        ((hloaded.lags.settled url loaded hfound hterminal).symm.trans hstate)
      exact absurd (hopen.symm.trans hterminal) nofun
    obtain ⟨more, hmore, -, ⟨row', -, hrow', -, -, state', hstate', hopen'⟩ |
      ⟨e, he, verdict, rfl⟩⟩ := hleads
    · exact .inl ⟨row', state', hrow', hstate', hopen'⟩
    · have heq : more = new := List.append_cancel_left (hmore.symm.trans hnew)
      exact .inr ⟨verdict, heq ▸ he⟩

/-- One relay accepts, the other does not answer before the process stops. -/
def halfAccepted : List (World × Call) :=
  let w := queueWorld [⟨"wss://r", .authorWriteRelay⟩, ⟨"wss://q", .authorWriteRelay⟩]
  [(w, .startPublish publishNote 10 none), (w, .onAck "id" ⟨"wss://r", true, "", ""⟩ 20)]

theorem stableTargets_queueWorld {relays : List ResolvedRelay}
    (h : ∀ r ∈ relays, canonicalRelayIdentity (canonicalRelayIdentity r.url) =
      canonicalRelayIdentity r.url) : StableTargets (queueWorld relays) :=
  fun _ _ r hr => h r hr

theorem halfAccepted_resumes :
    (run perform (.new .default .empty) halfAccepted).inFlight.keys = ["id"] ∧
      ∃ new, (perform (run perform (.new .default .empty) halfAccepted)
          (queueWorld [], .restart .default 30)).log =
        (run perform (.new .default .empty) halfAccepted).log ++ new ∧
      new = [.stopped, .opened "id" ["wss://q", "wss://r"]] := by
  have hstable : StableTargets (queueWorld [⟨"wss://r", .authorWriteRelay⟩,
      ⟨"wss://q", .authorWriteRelay⟩]) := stableTargets_queueWorld (by decide +kernel)
  obtain ⟨new, hnew, -⟩ := restart_resumes .default halfAccepted (fun step hstep => by
      rcases List.mem_pair.mp hstep with rfl | rfl
      · exact ⟨queueWorld_reliable _, hstable⟩
      · exact ⟨queueWorld_reliable _, hstable⟩) (queueWorld []) .default 30
    ⟨queueWorld_reliable _, stableTargets_queueWorld nofun⟩
  refine ⟨by decide +kernel, new, hnew, List.append_cancel_left (hnew.symm.trans ?_)⟩
  decide +kernel

/-- A private envelope without a pinned inbox waits for its relay: a restart finds the relay
available, refuses to send and settles the handle. A verdict of a sweep is not saved, so a restart
sends to the relay again. A relay whose canonical identity is not its own canonical identity accepts
the event, is loaded under another name, and is sent the event again. -/
theorem restart_loses :
    (let w := queueWorld [⟨"wss://r", .authorWriteRelay⟩]
    let s := run perform (.new .default .empty)
      [(w, .markRelayUnavailable "wss://r" 5),
        (w, .startPublish (.publish "id" { note with kind := kindChatMessage } .auto) 10 none)]
    let s' := perform s (w, .restart .default 30)
    (s.inFlight.lookup "id").map (·.perRelay.rows) = some [("wss://r", .pending)] ∧
      s'.inFlight.lookup "id" = none ∧ .sent "id" "wss://r" ∉ s'.log) ∧
    (let w := queueWorld [⟨"wss://r", .authorWriteRelay⟩, ⟨"wss://q", .authorWriteRelay⟩]
    let once : RetryPolicy := { RetryPolicy.default with transientMaxRetries := 1 }
    let s := run perform (.new once .empty) [(w, .markRelayUnavailable "wss://r" 5),
      (w, .startPublish publishNote 10 none), (w, .tick 40000)]
    (s.inFlight.lookup "id").map (·.perRelay.rows) = some
        [("wss://q", .failedAfterRetries "timeout after 1 retries" 40000), ("wss://r", .pending)] ∧
      (perform s (w, .restart once 50000)).log = s.log ++
        [.stopped, .opened "id" ["wss://q", "wss://r"], .sent "id" "wss://q",
          .sent "id" "wss://r"]) ∧
    (let w := queueWorld [⟨"wss://host /", .authorWriteRelay⟩, ⟨"wss://q", .authorWriteRelay⟩]
    let s := run perform (.new .default .empty)
      [(w, .startPublish publishNote 10 none), (w, .onAck "id" ⟨"wss://host /", true, "", ""⟩ 20)]
    (s.inFlight.lookup "id").map (·.perRelay.rows) =
        some [("wss://host ", .ok 20), ("wss://q", .inFlight 10 1)] ∧
      (run perform s [(w, .restart .default 30), (w, .markRelayAvailable "wss://host /" 40)]).log =
        s.log ++ [.stopped, .opened "id" ["wss://host", "wss://q"], .widened "id" ["wss://host "],
          .sent "id" "wss://host "]) := by
  decide +kernel

end PublishResume
