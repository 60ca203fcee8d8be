import NostrMultiPlatform.PublishResume

/-!
# Acceptances taken in

An acceptance that the engine takes in is credited to its relay until the handle
ends. A credited relay is accepted in the row, or in the record a restart is about
to load, so the terminal that ends the handle lists it, unless the handle was
cancelled.
-/
namespace PublishAcceptance

open JobLog PublishCrash PublishEngine PublishMoves PublishResume PublishSettlement PublishSilence
open PublishState Relation Runs Sorted Tables

/-- The relays credited with an acceptance; a stop may write them off. -/
def credit (keep : Bool) (handle : PublishHandle) (urls : List RelayUrl) :
    LogEntry → List RelayUrl
  | .answered k url (.ok _) => if k = handle then urls ++ [url] else urls
  | .ended k _ => if k = handle then [] else urls
  | .stopped => if keep then urls else []
  | _ => urls

def creditedIn (keep : Bool) (handle : PublishHandle) (log : List LogEntry) : List RelayUrl :=
  run (credit keep handle) [] log

/-- The terminal lists the relay as accepted, or tells of a cancel. -/
def Lists (url : RelayUrl) (terminal : LastTerminal) : Prop :=
  match terminal.publishQueue with
  | .settled outcome => url ∈ outcome.accepted
  | .cancelled _ => True
  | .none => False

def Pays (handle : PublishHandle) (urls : List RelayUrl) (e : LogEntry) : Prop :=
  ∀ terminal, e = .ended handle terminal → ∀ url ∈ urls, Lists url terminal

/-- Every terminal of the handle lists the relays credited before it. -/
def Honest (keep : Bool) (handle : PublishHandle) (log : List LogEntry) : Prop :=
  Meets (credit keep handle) (Pays handle) [] log

def AcceptedBy (row : InFlight) (url : RelayUrl) : Prop :=
  ∃ state, row.perRelay.lookup url = some state ∧ state.isOk = true

/-- The acceptance is in the row in flight, or in a record still to be loaded. -/
def Backs (records : List PublishRecord) (s : PublishEngine) (handle : PublishHandle)
    (url : RelayUrl) : Prop :=
  (∃ row, s.inFlight.lookup handle = some row ∧ AcceptedBy row url) ∨
    s.inFlight.lookup handle = none ∧
      ∃ record ∈ records, record.handle = handle ∧ AcceptedBy (rowOfRecord record) url

structure Credited (keep : Bool) (records : List PublishRecord) (s : PublishEngine)
    (handle : PublishHandle) : Prop where
  honest : Honest keep handle s.log
  backed : ∀ url ∈ creditedIn keep handle s.log, Backs records s handle url

variable {keep : Bool} {w : World} {hs : List PublishHandle} {handle : PublishHandle}
  {records : List PublishRecord} {s s' : PublishEngine} {row row' : InFlight} {url : RelayUrl}

theorem creditedIn_append (keep : Bool) (handle : PublishHandle) (log more : List LogEntry) :
    creditedIn keep handle (log ++ more) =
      run (credit keep handle) (creditedIn keep handle log) more := run_append ..

theorem creditedIn_snoc (keep : Bool) (handle : PublishHandle) (log : List LogEntry)
    (e : LogEntry) : creditedIn keep handle (log ++ [e]) =
      credit keep handle (creditedIn keep handle log) e := creditedIn_append ..

theorem honest_append {log more : List LogEntry} :
    Honest keep handle (log ++ more) ↔ Honest keep handle log ∧
      Meets (credit keep handle) (Pays handle) (creditedIn keep handle log) more :=
  meets_append ..

theorem honest_snoc {log : List LogEntry} {e : LogEntry} :
    Honest keep handle (log ++ [e]) ↔
      Honest keep handle log ∧ Pays handle (creditedIn keep handle log) e := by
  rw [honest_append, meets_cons]
  exact and_congr_right fun _ => and_iff_left trivial

variable {key : PublishHandle}

theorem credit_other {urls : List RelayUrl} {e : LogEntry} (he : e.about = some key)
    (hne : handle ≠ key) : credit keep handle urls e = urls ∧ Pays handle urls e := by
  have hkey : key ≠ handle := hne.symm
  cases e with
  | stopped => cases he
  | ended =>
    obtain rfl := Option.some.inj he
    refine ⟨if_neg hkey, fun found heq => ?_⟩
    injection heq with hk
    exact absurd hk hkey
  | answered _ _ state =>
    obtain rfl := Option.some.inj he
    cases state with
    | ok => exact ⟨if_neg hkey, nofun⟩
    | _ => exact ⟨rfl, nofun⟩
  | _ => exact ⟨rfl, nofun⟩

/-- Entries about another handle leave the credit alone. -/
theorem run_credit_other {more : List LogEntry} (hmore : ∀ e ∈ more, e.about = some key)
    (hne : handle ≠ key) (urls : List RelayUrl) :
    run (credit keep handle) urls more = urls ∧
      Meets (credit keep handle) (Pays handle) urls more := by
  induction more with
  | nil => exact ⟨rfl, trivial⟩
  | cons e _ ih =>
    obtain ⟨hsame, hpays⟩ : credit keep handle urls e = urls ∧ Pays handle urls e :=
      credit_other (hmore e List.mem_cons_self) hne
    obtain ⟨hrun, hmeets⟩ := ih fun e' he' => hmore e' (List.mem_cons_of_mem e he')
    rw [run_cons, meets_cons, hsame]
    exact ⟨hrun, hpays, hmeets⟩

/-- Only the end of the handle, or a stop, takes a credit away. -/
theorem mem_run_credit {more : List LogEntry} {urls : List RelayUrl} (hurl : url ∈ urls)
    (hended : ∀ terminal, .ended handle terminal ∉ more)
    (hstopped : keep = false → .stopped ∉ more) : url ∈ run (credit keep handle) urls more := by
  induction more generalizing urls with
  | nil => exact hurl
  | cons e _ ih =>
    refine ih ?_ (fun terminal hmem => hended terminal (List.mem_cons_of_mem e hmem))
      fun hkeep hmem => hstopped hkeep (List.mem_cons_of_mem e hmem)
    cases e with
    | ended k terminal =>
      have hk : k ≠ handle := fun heq => hended terminal (heq ▸ List.mem_cons_self)
      rw [credit, if_neg hk]
      exact hurl
    | answered _ _ state =>
      cases state with
      | ok =>
        rw [credit]
        split
        · exact List.mem_append_left _ hurl
        · exact hurl
      | _ => exact hurl
    | stopped =>
      cases keep with
      | false => exact absurd List.mem_cons_self (hstopped rfl)
      | true => exact hurl
    | _ => exact hurl

theorem Honest.lists {pre mid post : List LogEntry} {ackedAt : Nat} {terminal : LastTerminal}
    (h : Honest keep handle
      (pre ++ .answered handle url (.ok ackedAt) :: (mid ++ .ended handle terminal :: post)))
    (hended : ∀ other, .ended handle other ∉ mid) (hstopped : keep = false → .stopped ∉ mid) :
    Lists url terminal := by
  have hlater := (honest_append.mp h).2.2
  rw [credit, if_pos rfl] at hlater
  have hlast := ((meets_append ..).mp hlater).2.1
  exact hlast terminal rfl url (mem_run_credit (List.mem_append_right _ List.mem_cons_self)
    hended hstopped)

theorem AcceptedBy.kept (h : AcceptedBy row url)
    (hkept : ∀ state, row.perRelay.lookup url = some state → state.isTerminal = true →
      row'.perRelay.lookup url = some state) : AcceptedBy row' url := by
  obtain ⟨state, hstate, hok⟩ := h
  exact ⟨state, hkept state hstate (PerRelayState.isTerminal_of_isOk hok), hok⟩

theorem AcceptedBy.lists (h : AcceptedBy row url) (handle : PublishHandle)
    (override : Option String) :
    Lists url (LastTerminal.fromOutcome handle override (terminalOutcomeOf row)) := by
  obtain ⟨state, hstate, hok⟩ := h
  change url ∈ acceptedOf row
  refine List.mem_filterMap.mpr ⟨(url, state), SortedMap.lookup_eq_some.mp hstate, ?_⟩
  cases state with
  | ok => rfl
  | _ => cases hok

theorem Backs.accepted (h : Backs records s handle url)
    (hrow : s.inFlight.lookup handle = some row) : AcceptedBy row url := by
  rcases h with ⟨found, hfound, haccepted⟩ | ⟨hnone, -⟩
  · exact Option.eq_some_unique hfound hrow ▸ haccepted
  · exact absurd (hnone.symm.trans hrow) nofun

/-- Without a row and without a record to load nothing is credited. -/
theorem Credited.none_credited (h : Credited keep records s handle)
    (hnone : s.inFlight.lookup handle = none)
    (hrecords : ∀ record ∈ records, record.handle ≠ handle) :
    creditedIn keep handle s.log = [] := by
  apply List.eq_nil_iff_forall_not_mem.mpr
  intro url hurl
  rcases h.backed url hurl with ⟨row, hrow, -⟩ | ⟨-, record, hrecord, hkey, -⟩
  · exact absurd (hnone.symm.trans hrow) nofun
  · exact hrecords record hrecord hkey

theorem Credited.off (h : Credited keep records s handle) (hoff : Off key s s') (hne : handle ≠ key)
    : Credited keep records s' handle := by
  obtain ⟨more, hlog, habout⟩ := hoff.log
  obtain ⟨hrun, hmeets⟩ : run (credit keep handle) (creditedIn keep handle s.log) more = _ ∧ _ :=
    run_credit_other habout hne _
  refine ⟨?_, fun url hurl => ?_⟩
  · rw [hlog]
    exact honest_append.mpr ⟨h.honest, hmeets⟩
  · rw [hlog, creditedIn_append, hrun] at hurl
    rw [Backs, hoff.rows handle hne]
    exact h.backed url hurl

/-- The row stays and the log grows by entries that leave the credit alone. -/
theorem Credited.stay (h : Credited keep records s handle)
    (hrow : s.inFlight.lookup handle = some row)
    (hrow' : s'.inFlight.lookup handle = some row')
    (hlog : creditedIn keep handle s'.log = creditedIn keep handle s.log)
    (hhonest : Honest keep handle s'.log)
    (haccepted : ∀ url, AcceptedBy row url → AcceptedBy row' url) :
    Credited keep records s' handle := by
  refine ⟨hhonest, fun url hurl => .inl ⟨row', hrow', haccepted url ?_⟩⟩
  rw [hlog] at hurl
  exact (h.backed url hurl).accepted hrow

theorem Credited.answered {state next : PerRelayState} (h : Credited keep records s handle)
    (hrow : s.inFlight.lookup handle = some row) (hstate : row.perRelay.lookup url = some state)
    (hflight : state.isInFlight = true) (retries : SortedMap RelayUrl Nat) :
    Credited keep records (logged (setRow s handle (change row url next retries))
      (.answered handle url next)) handle := by
  have hhonest : Honest keep handle (s.log ++ [.answered handle url next]) :=
    honest_snoc.mpr ⟨h.honest, nofun⟩
  refine ⟨hhonest, fun other hother => .inl ⟨_, lookup_setRow_self .., ?_⟩⟩
  change other ∈ creditedIn keep handle (s.log ++ [.answered handle url next]) at hother
  rw [creditedIn_snoc] at hother
  have hold : other ∈ creditedIn keep handle s.log →
      AcceptedBy (change row url next retries) other :=
    fun hmem => ((h.backed other hmem).accepted hrow).kept
      (change_kept hstate (isTerminal_of_isInFlight hflight) next retries other)
  cases next with
  | ok ackedAt =>
    rw [credit, if_pos rfl, List.mem_append, List.mem_singleton] at hother
    rcases hother with hmem | rfl
    · exact hold hmem
    · exact ⟨.ok ackedAt, by rw [lookup_change, if_pos rfl], rfl⟩
  | _ => exact hold hother

theorem Credited.evict (h : Credited keep records s handle)
    (hrow : s.inFlight.lookup handle = some row) (store : PublishStore) :
    Credited keep records (evict s handle row store) handle := by
  refine ⟨honest_snoc.mpr ⟨h.honest, ?_⟩, fun url hurl => ?_⟩
  · rintro terminal heq url hurl
    injection heq with _ hterminal
    subst hterminal
    exact ((h.backed url hurl).accepted hrow).lists handle _
  · change url ∈ creditedIn keep handle (s.log ++ [.ended handle _]) at hurl
    rw [creditedIn_snoc, credit, if_pos rfl] at hurl
    cases hurl

theorem credited_act {sweeping : Prop} (h : Credited keep records s handle)
    (hact : Act w sweeping hs handle s s') : Credited keep records s' handle := by
  cases hact with
  | edit row row' hrow hmove =>
    have hkept : Kept sweeping handle [] row row' := kept_rowMove hmove
    exact h.stay hrow (lookup_setRow_self ..) rfl h.honest fun url haccepted =>
      haccepted.kept (hkept.settled url)
  | send _ _ _ retries sentAtMs attempt hrow hstate hopen =>
    exact h.stay hrow (lookup_setRow_self ..) (creditedIn_snoc ..)
      (honest_snoc.mpr ⟨h.honest, nofun⟩) fun other haccepted =>
        haccepted.kept (change_kept hstate hopen (.inFlight sentAtMs attempt) retries other)
  | answer row url _ next retries _ hrow hstate hflight =>
    have hanswered : Credited keep records (logged (setRow s handle (change row url next retries))
        (.answered handle url next)) handle := h.answered hrow hstate hflight retries
    exact ⟨hanswered.honest, hanswered.backed⟩
  | close _ _ _ _ retries store hrow hstate hflight =>
    exact (h.answered hrow hstate hflight retries).evict (lookup_setRow_self ..) store
  | save _ _ hrow => exact h.stay hrow hrow rfl h.honest fun _ haccepted => haccepted
  | widen _ _ _ hrow hfresh =>
    exact h.stay hrow (lookup_setRow_self ..) (creditedIn_snoc ..)
      (honest_snoc.mpr ⟨h.honest, nofun⟩) fun other haccepted =>
        haccepted.kept fun _ hstate _ => (lookup_widenRow_of_some hfresh hstate).2
  | settle _ store hrow => exact h.evict hrow store

theorem credited_moves (sweeping : Prop) (hs : List PublishHandle)
    (h : ∀ handle, Credited keep records s handle) (hmoves : Moves w sweeping hs s s') :
    ∀ handle, Credited keep records s' handle := by
  induction hmoves with
  | refl => exact h
  | tail _ hmove ih =>
    cases hmove with
    | gate =>
      intro handle
      exact ⟨(ih handle).honest, (ih handle).backed⟩
    | act key hact =>
      intro handle
      by_cases hkey : handle = key
      · rw [hkey]
        exact credited_act (ih key) hact
      · exact (ih handle).off hact.off hkey

theorem credited_finish (h : ∀ handle, Credited keep records s handle) (key : PublishHandle)
    (nowMs : Nat) : ∀ handle,
      Credited keep records
        (finalizeCompletedRows w [key] (dispatchPending w key nowMs s)) handle :=
  credited_moves False [key] h ((dispatchPending_moves List.mem_cons_self nowMs s).trans
    (finalizeCompletedRows_moves [key] _))

/-- A row enters under a handle that has none; its record, if one is to be loaded, is the row. -/
theorem credited_insertRow {others : List PublishRecord}
    (h : ∀ handle, Credited keep records s handle) (hnone : s.inFlight.lookup key = none)
    (hkey : ∀ record ∈ records, record.handle = key → row = rowOfRecord record)
    (hothers : ∀ record ∈ records, record.handle ≠ key → record ∈ others) :
    ∀ handle, Credited keep others (insertRow key row s) handle := by
  have hoff : Off key s (insertRow key row s) := (off_setRow s key row).logged rfl
  intro handle
  by_cases heq : handle = key
  · subst heq
    refine ⟨honest_snoc.mpr ⟨(h handle).honest, nofun⟩, fun url hurl => ?_⟩
    refine .inl ⟨row, lookup_setRow_self .., ?_⟩
    change url ∈ creditedIn keep handle (s.log ++ [.opened handle row.perRelay.keys]) at hurl
    rw [creditedIn_snoc] at hurl
    rcases (h handle).backed url hurl with ⟨found, hfound, -⟩ | ⟨-, record, hrecord, hsame, hin⟩
    · exact absurd (hnone.symm.trans hfound) nofun
    · exact hkey record hrecord hsame ▸ hin
  · obtain ⟨hhonest, hbacked⟩ := (h handle).off hoff heq
    refine ⟨hhonest, fun url hurl => (hbacked url hurl).imp_right ?_⟩
    rintro ⟨hrow, record, hrecord, rfl, hin⟩
    exact ⟨hrow, record, hothers record hrecord heq, rfl, hin⟩

theorem credited_recordTerminal {terminal : LastTerminal}
    (h : ∀ handle, Credited keep records s handle)
    (hpays : ∀ url ∈ creditedIn keep key s.log, Lists url terminal)
    (table : Table PublishHandle InFlight)
    (htable : ∀ handle, handle ≠ key → table.lookup handle = s.inFlight.lookup handle)
    (store : PublishStore) :
    ∀ handle, Credited keep records
      { recordTerminal key terminal s with inFlight := table, store := store } handle := by
  intro handle
  by_cases heq : handle = key
  · subst heq
    refine ⟨honest_snoc.mpr ⟨(h handle).honest, ?_⟩, fun url hurl => ?_⟩
    · rintro found hsame url hurl
      injection hsame with _ hterminal
      exact hterminal ▸ hpays url hurl
    · change url ∈ creditedIn keep handle (s.log ++ [.ended handle terminal]) at hurl
      rw [creditedIn_snoc, credit, if_pos rfl] at hurl
      cases hurl
  · have habout : ∀ e ∈ [(Entry.ended key terminal : LogEntry)], e.about = some key := by
      simp [Entry.about]
    obtain ⟨hrun, hmeets⟩ : run (credit keep handle) (creditedIn keep handle s.log) _ = _ ∧ _ :=
      run_credit_other habout heq _
    refine ⟨honest_append.mpr ⟨(h handle).honest, hmeets⟩, fun url hurl => ?_⟩
    change url ∈ creditedIn keep handle (s.log ++ [.ended key terminal]) at hurl
    rw [creditedIn_append, hrun] at hurl
    change (∃ row, table.lookup handle = some row ∧ _) ∨ table.lookup handle = none ∧ _
    rw [htable handle heq]
    exact (h handle).backed url hurl

theorem credited_startPublish (h : ∀ handle, Credited keep [] s handle) (action : PublishAction)
    (nowMs : Nat) (override : Option String) :
    ∀ handle, Credited keep [] (startPublish w action nowMs override s).1 handle := by
  cases action with
  | publish key event target =>
    rw [startPublish, startPublishInner]
    split
    next => exact h
    next hnot =>
      have hnew : s.inFlight.lookup key = none := AList.lookup_eq_none.mpr hnot
      have hnothing : creditedIn keep key s.log = [] := (h key).none_credited hnew (by simp)
      dsimp only
      split
      next =>
        refine credited_recordTerminal h (fun url hurl => ?_) s.inFlight (fun _ _ => rfl) s.store
        rw [hnothing] at hurl
        cases hurl
      next =>
        let opened := insertRow key
          (newRow event target (relayMap (resolveFor w event target)) override) s
        have hopened : ∀ handle, Credited keep [] opened handle :=
          credited_insertRow h hnew (by simp) (by simp)
        have hsaved : ∀ handle, Credited keep [] (persist w key opened).1 handle :=
          credited_moves False [] hopened (persist_moves opened key)
        split
        next s' error heq =>
          rw [heq] at hsaved
          exact hsaved
        next s' heq =>
          rw [heq] at hsaved
          exact credited_finish hsaved key nowMs
  | _ => exact h

theorem credited_cancel (h : ∀ handle, Credited keep [] s handle) (key : PublishHandle)
    (correlationId : String) :
    ∀ handle, Credited keep [] (cancelByHandle w key correlationId s) handle := by
  let terminal : LastTerminal := ⟨correlationId, "cancelled", none, some key, .cancelled key⟩
  obtain ⟨store, hdelete, -⟩ := delete_spec w key
    (recordTerminal key terminal { s with inFlight := s.inFlight.erase key })
  have hcall : cancelByHandle w key correlationId s = _ := hdelete
  have hpays : ∀ url ∈ creditedIn keep key s.log, Lists url terminal := fun _ _ => trivial
  rw [hcall]
  exact credited_recordTerminal h hpays _ (fun _ hne => AList.lookup_erase_ne hne) store

theorem credited_resumeAll (nowMs : Nat) (h : ∀ handle, Credited keep records s handle)
    (hwaiting : Waiting records s) :
    ∀ handle, Credited keep [] (records.foldl (resumeRecord w nowMs) s) handle := by
  induction records generalizing s with
  | nil => exact h
  | cons record others ih =>
    obtain ⟨hfirst, -⟩ := List.nodup_cons.mp hwaiting.nodup
    have hopened : ∀ handle,
        Credited keep others (insertRow record.handle (rowOfRecord record) s) handle := by
      refine credited_insertRow h (hwaiting.rowless record List.mem_cons_self)
        (fun other hother hsame => ?_) fun other hother hne => ?_
      · rcases List.mem_cons.mp hother with rfl | hlater
        · rfl
        · exact absurd (List.mem_map.mpr ⟨other, hlater, hsame⟩) hfirst
      · exact (List.mem_cons.mp hother).resolve_left fun heq => hne (heq ▸ rfl)
    exact ih (credited_finish hopened record.handle nowMs) (hwaiting.tail nowMs)

/-- A stop writes the credit off, or the records to load back it. -/
theorem credited_stop (h : ∀ handle, Credited keep [] s handle) (w : World) (policy : RetryPolicy)
    (hkeep : keep = true → Durable s) :
    ∀ handle, Credited keep (pendingRecords w s.store) (stop s policy) handle := by
  intro handle
  refine ⟨honest_snoc.mpr ⟨(h handle).honest, nofun⟩, fun url hurl => .inr ⟨rfl, ?_⟩⟩
  change url ∈ creditedIn keep handle (s.log ++ [.stopped]) at hurl
  rw [creditedIn_snoc, credit] at hurl
  cases keep with
  | false => cases hurl
  | true =>
    have hdurable := hkeep rfl
    rcases (h handle).backed url hurl with ⟨row, hrow, state, hstate, hok⟩ | ⟨-, record, hrecord, -⟩
    · obtain ⟨record, life, hrecord, hpending, -, -, hloaded⟩ := loaded_of_durable hdurable hrow
      have hsame : record.handle = handle := s.store.keyed handle record hrecord
      exact ⟨record, mem_pendingRecords.mpr ⟨hsame.symm ▸ hrecord, hpending⟩, hsame, state,
        hloaded.lags.accepted url state hstate hok, hok⟩
    · cases hrecord

theorem credited_restart (h : ∀ handle, Credited keep [] s handle) (policy : RetryPolicy)
    (nowMs : Nat) (hkeep : keep = true → Durable s ∧ w.Reliable) :
    ∀ handle, Credited keep [] (resumeFromStore w nowMs (stop s policy)).1 handle := by
  have hstopped := credited_stop h w policy fun hk => (hkeep hk).1
  unfold resumeFromStore
  split
  next error herror =>
    intro handle
    refine ⟨(hstopped handle).honest, fun url hurl => ?_⟩
    cases keep with
    | true => exact absurd (herror.symm.trans ((hkeep rfl).2 ..)) nofun
    | false =>
      change url ∈ creditedIn false handle (s.log ++ [.stopped]) at hurl
      rw [creditedIn_snoc] at hurl
      cases hurl
  next => exact credited_resumeAll nowMs hstopped (waiting_stop w s policy)

theorem credited_perform (h : ∀ handle, Credited keep [] s handle) (step : World × Call)
    (hkeep : keep = true → Durable s ∧ step.1.Reliable) :
    ∀ handle, Credited keep [] (perform s step) handle := by
  obtain ⟨w, call⟩ := step
  cases call with
  | startPublish action nowMs override => exact credited_startPublish h action nowMs override
  | onAck key ack nowMs => exact credited_moves False [] h (onAck_moves key ack nowMs s)
  | tick nowMs => exact credited_moves True _ h (tick_moves nowMs s)
  | markRelayUnavailable relayUrl nowMs =>
    exact credited_moves False [] h (markRelayUnavailable_moves relayUrl nowMs s)
  | markRelayAvailable relayUrl nowMs =>
    exact credited_moves False _ h (markRelayAvailable_moves relayUrl nowMs s)
  | retryNow key nowMs => exact credited_moves False _ h (retryNow_moves key nowMs s)
  | cancelByHandle key correlationId => exact credited_cancel h key correlationId
  | restart policy nowMs => exact credited_restart h policy nowMs hkeep

theorem credited_new (keep : Bool) (policy : RetryPolicy) (handle : PublishHandle) :
    Credited keep [] (.new policy .empty) handle := ⟨trivial, nofun⟩

theorem credited_run (policy : RetryPolicy) (steps : List (World × Call)) :
    ∀ handle, Credited false [] (run perform (.new policy .empty) steps) handle :=
  run_invariant (fun s => ∀ handle, Credited false [] s handle)
    (fun _ step h _ => credited_perform h step (by simp)) (credited_new false policy)
    (meets_of_forall perform (fun _ => True) _ steps fun _ _ => trivial)

/-- Where stores do not fail and relays have stable identities, no stop takes a credit away. -/
theorem credited_sound (policy : RetryPolicy) {steps : List (World × Call)}
    (hsteps : ∀ step ∈ steps, Sound step) :
    ∀ handle, Credited true [] (run perform (.new policy .empty) steps) handle := by
  have hrun := run_invariant (fun s => Durable s ∧ ∀ handle, Credited true [] s handle)
    (fun s step h hok => ⟨⟨settling_perform h.1.settling step hok.1,
      backed_perform h.1.settling h.1.backed hok.1 hok.2⟩,
      credited_perform h.2 step fun _ => ⟨h.1, hok.1⟩⟩)
    ⟨durable_run policy (List.forall_mem_nil Sound), credited_new true policy⟩
    (meets_of_forall perform Sound _ steps hsteps)
  exact hrun.2

theorem onAck_taken {ack : RelayAck} {state : PerRelayState}
    (hrow : s.inFlight.lookup handle = some row)
    (hstate : row.perRelay.lookup (canonicalRelayIdentity ack.relayUrl) = some state)
    (hok : ack.ok = true) (hflight : state.isInFlight = true) (nowMs : Nat) :
    ∃ more, (onAck w handle ack nowMs s).log =
      s.log ++ .answered handle (canonicalRelayIdentity ack.relayUrl) (.ok nowMs) :: more := by
  let url := canonicalRelayIdentity ack.relayUrl
  let row' := row.setState url (.ok nowMs)
  let s' := logged (setRow s handle row') (.answered handle url (.ok nowMs))
  have hnoted : noteAnswer handle url state row' (setRow s handle row') = s' := by
    rw [noteAnswer, if_pos hflight]
    exact congrArg (fun found : Option PerRelayState =>
      logged (setRow s handle row') (.answered handle url (found.getD state)))
      ((SortedMap.lookup_insert ..).trans (if_pos rfl))
  have hcall : onAck w handle ack nowMs s =
      if isComplete row' then settleRow w handle row' s' else (persist w handle s').1 := by
    rw [onAck, hrow]
    dsimp only
    rw [hstate]
    dsimp only
    rw [applyAck, if_pos hflight]
    dsimp only
    rw [if_pos hok, applyVerdict]
    dsimp only
    rw [hnoted]
  rw [hcall]
  split
  · obtain ⟨store, hsettle, -⟩ := settleRow_eq w handle row' s'
    exact ⟨[.ended handle _], by rw [hsettle]; exact List.append_assoc ..⟩
  · obtain ⟨store, hupsert, -⟩ := upsert_spec w (recordOf handle row') s'
    have hfound : s'.inFlight.lookup handle = some row' := lookup_setRow_self s handle row'
    exact ⟨[], by rw [persist_eq w hfound, hupsert]; rfl⟩

theorem onAck_dropped {ack : RelayAck} {state : PerRelayState}
    (hrow : s.inFlight.lookup handle = some row)
    (hstate : row.perRelay.lookup (canonicalRelayIdentity ack.relayUrl) = some state)
    (hflight : state.isInFlight = false) (hopen : state.isTerminal = false) (nowMs : Nat) :
    (onAck w handle ack nowMs s).log = s.log ∧
      ∀ other, (onAck w handle ack nowMs s).inFlight.lookup other = s.inFlight.lookup other := by
  have hleft : isComplete row = false := isComplete_eq_false.mpr ⟨_, state, hstate, hopen⟩
  obtain ⟨store, hupsert, -⟩ := upsert_spec w (recordOf handle row) (setRow s handle row)
  have hcall : onAck w handle ack nowMs s = { setRow s handle row with store := store } := by
    rw [onAck, hrow]
    dsimp only
    rw [hstate]
    dsimp only
    rw [applyAck_stale hflight, applyVerdict]
    dsimp only
    rw [setState_same hstate, noteAnswer, hflight, if_neg Bool.false_ne_true, hleft,
      if_neg Bool.false_ne_true, persist_eq w (lookup_setRow_self ..), hupsert]
  rw [hcall]
  refine ⟨rfl, fun other => (lookup_setRow ..).trans ?_⟩
  split
  next heq => rw [heq, hrow]
  next => rfl

/-- In every run, once an acceptance of a relay has been taken in for a handle, the terminal that
ends the handle lists the relay as accepted, or tells of a cancel; stops of the process in between
keep it so where no store fails and relays have stable identities. At any time an acceptance is
taken in if the relay waits for an acknowledgement, and one that meets a relay in any other state
that is not settled changes no row and leaves no trace. -/
theorem acceptances_listed (policy : RetryPolicy) (steps : List (World × Call)) :
    (∀ handle url ackedAt terminal pre mid post,
      (run perform (.new policy .empty) steps).log =
        pre ++ .answered handle url (.ok ackedAt) :: (mid ++ .ended handle terminal :: post) →
      (∀ other, .ended handle other ∉ mid) →
      .stopped ∉ mid ∨ (∀ step ∈ steps, Sound step) → Lists url terminal) ∧
    ∀ (w : World) (s : PublishEngine) handle row ack nowMs state,
      s.inFlight.lookup handle = some row →
      row.perRelay.lookup (canonicalRelayIdentity ack.relayUrl) = some state → ack.ok = true →
      (state.isInFlight = true → ∃ more, (onAck w handle ack nowMs s).log =
        s.log ++ .answered handle (canonicalRelayIdentity ack.relayUrl) (.ok nowMs) :: more) ∧
      (state.isInFlight = false → state.isTerminal = false →
        (onAck w handle ack nowMs s).log = s.log ∧
        ∀ other, (onAck w handle ack nowMs s).inFlight.lookup other =
          s.inFlight.lookup other) := by
  refine ⟨fun handle url ackedAt terminal pre mid post hlog hended hor => ?_,
    fun w s handle row ack nowMs state hrow hstate hok =>
      ⟨fun hflight => ?_, fun hflight hopen => ?_⟩⟩
  · rcases hor with hstopped | hsound
    · have hhonest := (credited_run policy steps handle).honest
      rw [hlog] at hhonest
      exact hhonest.lists hended fun _ => hstopped
    · have hhonest := (credited_sound policy hsound handle).honest
      rw [hlog] at hhonest
      exact hhonest.lists hended nofun
  · exact onAck_taken hrow hstate hok hflight nowMs
  · exact onAck_dropped hrow hstate hflight hopen nowMs

theorem acceptedNote_listed : Lists "wss://r" ⟨"id", "ok", none, some "id", .settled ⟨"id",
    ["wss://r"], [], SortedMap.insert ∅ "wss://r" [.authorWriteRelay]⟩⟩ :=
  (acceptances_listed .default acceptedNote).1 "id" "wss://r" 20 _
    [.opened "id" ["wss://r"], .sent "id" "wss://r"] [] [] (by decide +kernel) nofun (.inl nofun)

/-- The accepted and the failed relays of the outcomes recorded since the process started. -/
def outcomesOf (s : PublishEngine) : List (List RelayUrl × List (RelayUrl × String)) :=
  s.pendingTerminals.filterMap fun terminal =>
    match terminal.publishQueue with
    | .settled outcome => some (outcome.accepted, outcome.failed)
    | _ => none

/-- A relay that was sent the note is walked back when its connection is lost, or asks for a retry;
its acceptance arrives then and is dropped; the relay is sent the note again, blocks it, and is
listed as failed. So is a relay whose acceptance was taken in but not saved when the process
stops. -/
theorem late_acceptances_dropped :
    let accepts : RelayAck := ⟨"wss://r", true, "", ""⟩
    let blocks : RelayAck := ⟨"wss://r", false, "blocked", ""⟩
    let sent : List (World × Call) := [(noteWorld, .startPublish publishNote 10 none)]
    (let early := run perform (.new .default .empty)
      (sent ++ [(noteWorld, .markRelayUnavailable "wss://r" 15)])
    (early.inFlight.lookup "id").map (·.perRelay.rows) = some [("wss://r", .pending)] ∧
      outcomesOf (run perform early [(noteWorld, .onAck "id" accepts 20),
        (noteWorld, .markRelayAvailable "wss://r" 30), (noteWorld, .onAck "id" blocks 40)]) =
          [([], [("wss://r", "blocked")])]) ∧
    (let early := run perform (.new .default .empty)
      (sent ++ [(noteWorld, .onAck "id" ⟨"wss://r", false, "rate-limited", ""⟩ 15)])
    (early.inFlight.lookup "id").map (·.perRelay.rows) =
        some [("wss://r", .relayError "retry scheduled (attempt 2)" 1 15)] ∧
      outcomesOf (run perform early [(noteWorld, .onAck "id" accepts 20),
        (noteWorld, .tick 1015), (noteWorld, .onAck "id" blocks 1040)]) =
          [([], [("wss://r", "blocked")])]) ∧
    (let relays : List ResolvedRelay :=
      [⟨"wss://r", .authorWriteRelay⟩, ⟨"wss://q", .authorWriteRelay⟩]
    let full : World := fixedWorld relays (fun _ => []) fun call =>
      match call with
      | .upsert _ => some (.backend "disk full")
      | _ => none
    let early := run perform (.new .default .empty)
      [(queueWorld relays, .startPublish publishNote 10 none)]
    (early.inFlight.lookup "id").map (·.perRelay.rows) =
        some [("wss://q", .inFlight 10 1), ("wss://r", .inFlight 10 1)] ∧
      outcomesOf (run perform early [(full, .onAck "id" accepts 20),
        (queueWorld relays, .restart .default 30), (queueWorld relays, .onAck "id" blocks 40),
        (queueWorld relays, .onAck "id" ⟨"wss://q", true, "", ""⟩ 50)]) =
          [(["wss://q"], [("wss://r", "blocked")])]) := by
  decide +kernel

end PublishAcceptance
