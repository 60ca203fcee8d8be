import NostrMultiPlatform.PublishMoves

/-!
# Handles without a row

No frame goes out for a handle that has no row, in any world. A row enters only
through a new publish or, after a restart, from a pending record; so a publish
that was refused is never sent, and a cancelled one only if its record survived.
-/
namespace PublishSilence

open PublishEngine PublishMoves PublishState Runs Tables Relation

/-- The handle stays without a row, gains no record, and nothing is sent for it. -/
structure Silent (handle : PublishHandle) (s s' : PublishEngine) : Prop where
  rowless : s'.inFlight.lookup handle = none
  store : s'.store.rows.lookup handle = s.store.rows.lookup handle ∨
    s'.store.rows.lookup handle = none
  log : ∃ more, s'.log = s.log ++ more ∧ ∀ url, .sent handle url ∉ more

variable {w : World} {handle : PublishHandle}
  {s s' s'' : PublishEngine}

theorem Silent.refl (h : s.inFlight.lookup handle = none) : Silent handle s s :=
  ⟨h, .inl rfl, [], (List.append_nil _).symm, fun _ => List.not_mem_nil⟩

theorem Silent.trans (h : Silent handle s s') (h' : Silent handle s' s'') :
    Silent handle s s'' where
  rowless := h'.rowless
  store := by
    rcases h'.store with heq | hnone
    · rw [heq]
      exact h.store
    · exact .inr hnone
  log := by
    obtain ⟨more, hmore, hsent⟩ := h.log
    obtain ⟨later, hlater, hsent'⟩ := h'.log
    refine ⟨more ++ later, by rw [hlater, hmore, List.append_assoc], fun url hmem => ?_⟩
    exact (List.mem_append.mp hmem).elim (hsent url) (hsent' url)

/-- Entries about another key send nothing for the handle. -/
theorem Silent.of_off {key : PublishHandle} (h : Off key s s') (hne : handle ≠ key)
    (hnone : s.inFlight.lookup handle = none) : Silent handle s s' where
  rowless := (h.rows handle hne).trans hnone
  store := .inl (h.store handle hne)
  log := by
    obtain ⟨more, hmore, habout⟩ := h.log
    exact ⟨more, hmore, fun url hmem => hne (Option.some.inj (habout _ hmem))⟩

theorem silent_moves (sweeping : Prop) (hs : List PublishHandle) (h : Moves w sweeping hs s s')
    (hnone : s.inFlight.lookup handle = none) : Silent handle s s' := by
  induction h with
  | refl => exact .refl hnone
  | tail _ hmove ih =>
    refine ih.trans ?_
    cases hmove with
    | gate => exact ⟨ih.rowless, .inl rfl, [], (List.append_nil _).symm, fun _ => List.not_mem_nil⟩
    | act _ hact =>
      refine .of_off hact.off ?_ ih.rowless
      rintro rfl
      obtain ⟨row, hrow⟩ := hact.row
      rw [ih.rowless] at hrow
      cases hrow

theorem silent_recordTerminal (hnone : s.inFlight.lookup handle = none) (key : PublishHandle)
    (terminal : LastTerminal) : Silent handle s (recordTerminal key terminal s) :=
  ⟨hnone, .inl rfl, [.ended key terminal], rfl, by simp⟩

theorem silent_insertRow {key : PublishHandle} (hne : handle ≠ key) (row : InFlight)
    (hnone : s.inFlight.lookup handle = none) : Silent handle s (insertRow key row s) :=
  .of_off ((off_setRow s key row).logged rfl) hne hnone

theorem silent_finish (key : PublishHandle) (nowMs : Nat) (hnone : s.inFlight.lookup handle = none) :
    Silent handle s (finalizeCompletedRows w [key] (dispatchPending w key nowMs s)) :=
  silent_moves False [key] ((dispatchPending_moves List.mem_cons_self nowMs s).trans
    (finalizeCompletedRows_moves [key] _)) hnone

theorem silent_startPublish {action : PublishAction} (nowMs : Nat) (override : Option String)
    (hne : ∀ event target, action ≠ .publish handle event target)
    (hnone : s.inFlight.lookup handle = none) :
    Silent handle s (startPublish w action nowMs override s).1 := by
  cases action with
  | publish key event target =>
    have hkey : handle ≠ key := fun heq => hne event target (heq ▸ rfl)
    rw [startPublish, startPublishInner]
    split
    next => exact .refl hnone
    next =>
      dsimp only
      split
      next => exact silent_recordTerminal hnone key _
      next =>
        let opened := insertRow key
          (newRow event target (relayMap (resolveFor w event target)) override) s
        have hopened : Silent handle s opened := silent_insertRow hkey _ hnone
        have hsaved : Silent handle s (persist w key opened).1 :=
          hopened.trans (silent_moves False [] (persist_moves opened key)
            hopened.rowless)
        split
        next s' error heq =>
          rw [heq] at hsaved
          exact hsaved
        next s' heq =>
          rw [heq] at hsaved
          exact hsaved.trans (silent_finish key nowMs hsaved.rowless)
  | _ => exact .refl hnone

theorem silent_cancelByHandle (w : World) (s : PublishEngine) (key : PublishHandle)
    (correlationId : String) (h : handle = key ∨ s.inFlight.lookup handle = none) :
    Silent handle s (cancelByHandle w key correlationId s) := by
  have hrowless : (s.inFlight.erase key).lookup handle = none := by
    rw [lookup_erase_eq]
    split
    next => rfl
    next hne => exact h.resolve_left hne
  obtain ⟨store, hdelete, hstore⟩ := delete_spec w key (recordTerminal key
    ⟨correlationId, "cancelled", none, some key, .cancelled key⟩
    { s with inFlight := s.inFlight.erase key })
  have hcall : cancelByHandle w key correlationId s = _ := hdelete
  rw [hcall]
  refine ⟨hrowless, ?_, [.ended key _], rfl, by simp⟩
  by_cases hkey : handle = key
  · rcases hstore with rfl | ⟨-, rfl⟩
    · exact .inr (hkey ▸ AList.lookup_erase _ _)
    · exact .inl rfl
  · exact .inl (Deleted.off hstore hkey)

/-- Neither in flight nor in a record that a restart would load. -/
structure Forgotten (handle : PublishHandle) (s : PublishEngine) : Prop where
  rowless : s.inFlight.lookup handle = none
  settled : ∀ record, s.store.rows.lookup handle = some record → isPending record = false

theorem Forgotten.silent (h : Forgotten handle s) (hsilent : Silent handle s s') :
    Forgotten handle s' := by
  refine ⟨hsilent.rowless, fun record hrecord => ?_⟩
  rcases hsilent.store with heq | hnone
  · exact h.settled record (heq ▸ hrecord)
  · rw [hnone] at hrecord
    cases hrecord

theorem silent_resumeAll (nowMs : Nat) {records : List PublishRecord}
    (hne : ∀ record ∈ records, handle ≠ record.handle) (hnone : s.inFlight.lookup handle = none) :
    Silent handle s (records.foldl (resumeRecord w nowMs) s) := by
  induction records generalizing s with
  | nil => exact .refl hnone
  | cons record _ ih =>
    have hopened := silent_insertRow (hne record List.mem_cons_self) (rowOfRecord record) hnone
    have hhead : Silent handle s (resumeRecord w nowMs s record) :=
      hopened.trans (silent_finish record.handle nowMs hopened.rowless)
    exact hhead.trans (ih (fun other hother => hne other (List.mem_cons_of_mem _ hother))
      hhead.rowless)

theorem silent_restart (h : Forgotten handle s) (policy : RetryPolicy) (nowMs : Nat) :
    Silent handle s (resumeFromStore w nowMs (stop s policy)).1 := by
  have hstop : Silent handle s (stop s policy) :=
    ⟨rfl, .inl rfl, [.stopped], rfl, by simp⟩
  refine hstop.trans ?_
  unfold resumeFromStore
  split
  next => exact .refl rfl
  next =>
    refine silent_resumeAll nowMs (fun record hrecord heq => ?_) rfl
    obtain ⟨hfound, hpending⟩ := List.mem_filter.mp hrecord
    obtain ⟨key, -, hkey⟩ := List.mem_filterMap.mp hfound
    have hstored : s.store.rows.lookup handle = some record := by
      rw [heq, s.store.keyed key record hkey]
      exact hkey
    rw [h.settled record hstored] at hpending
    cases hpending

/-- Calls that do not start the handle anew. -/
def Spares (handle : PublishHandle) : Call → Prop
  | .startPublish (.publish key _ _) _ _ => key ≠ handle
  | _ => True

/-- Calls that neither start the handle anew nor load the store. -/
def Keeps (handle : PublishHandle) : Call → Prop
  | .startPublish (.publish key _ _) _ _ => key ≠ handle
  | .restart .. => False
  | _ => True

theorem Keeps.spares {call : Call} (h : Keeps handle call) : Spares handle call := by
  cases call with
  | startPublish action =>
    cases action with
    | publish => exact h
    | _ => trivial
  | _ => trivial

/-- One call; a restart needs the handle's record to be gone or settled. -/
theorem silent_perform {step : World × Call} (hspares : Spares handle step.2)
    (h : Forgotten handle s ∨ s.inFlight.lookup handle = none ∧ Keeps handle step.2) :
    Silent handle s (perform s step) := by
  have hnone : s.inFlight.lookup handle = none := h.elim (fun hs => hs.rowless) fun hs => hs.1
  obtain ⟨w, call⟩ := step
  cases call with
  | startPublish _ nowMs override =>
    refine silent_startPublish nowMs override (fun event target heq => ?_) hnone
    rw [heq] at hspares
    exact hspares rfl
  | onAck key ack nowMs =>
    exact silent_moves False [] (onAck_moves key ack nowMs s) hnone
  | tick nowMs => exact silent_moves True _ (tick_moves nowMs s) hnone
  | markRelayUnavailable relayUrl nowMs =>
    exact silent_moves False [] (markRelayUnavailable_moves relayUrl nowMs s)
      hnone
  | markRelayAvailable relayUrl nowMs =>
    exact silent_moves False _ (markRelayAvailable_moves relayUrl nowMs s) hnone
  | retryNow key nowMs =>
    exact silent_moves False _ (retryNow_moves key nowMs s) hnone
  | cancelByHandle key correlationId =>
    exact silent_cancelByHandle w s key correlationId (.inr hnone)
  | restart policy nowMs =>
    exact silent_restart (h.resolve_right fun hs => hs.2) policy nowMs

theorem silent_run {steps : List (World × Call)} (h : Forgotten handle s)
    (hsteps : ∀ step ∈ steps, Spares handle step.2) : Silent handle s (run perform s steps) := by
  induction steps generalizing s with
  | nil => exact .refl h.rowless
  | cons step _ ih =>
    have hhead := silent_perform (hsteps step List.mem_cons_self) (.inl h)
    exact hhead.trans (ih (h.silent hhead) fun other hother =>
      hsteps other (List.mem_cons_of_mem _ hother))

theorem silent_keeping {steps : List (World × Call)} (hnone : s.inFlight.lookup handle = none)
    (hsteps : ∀ step ∈ steps, Keeps handle step.2) : Silent handle s (run perform s steps) := by
  induction steps generalizing s with
  | nil => exact .refl hnone
  | cons step _ ih =>
    have hkeeps := hsteps step List.mem_cons_self
    have hhead := silent_perform hkeeps.spares (.inr ⟨hnone, hkeeps⟩)
    exact hhead.trans (ih hhead.rowless fun other hother =>
      hsteps other (List.mem_cons_of_mem _ hother))

theorem startPublish_refused {w : World} {s : PublishEngine} {action : PublishAction} {nowMs : Nat}
    {override : Option String} {error : PublishEngineError}
    (h : (startPublish w action nowMs override s).2 = some error) (hstore : ∀ e, error ≠ .store e) :
    (startPublish w action nowMs override s).1 = s ∧
        (∀ handle event target, action = .publish handle event target →
          error = .duplicateHandle handle) ∨
      ∃ handle event target terminal, action = .publish handle event target ∧
        error = .noTargets ∧ s.inFlight.lookup handle = none ∧
        (startPublish w action nowMs override s).1 = recordTerminal handle terminal s := by
  cases action with
  | publish handle event target =>
    rw [startPublish, startPublishInner] at h ⊢
    split at h
    next hmem =>
      rw [if_pos hmem]
      refine .inl ⟨rfl, fun key event' target' heq => ?_⟩
      cases heq
      exact (Option.some.inj h).symm
    next hnot =>
      rw [if_neg hnot]
      dsimp only at h ⊢
      split at h
      next hempty =>
        rw [if_pos hempty]
        exact .inr ⟨handle, event, target, _, rfl, (Option.some.inj h).symm,
          AList.lookup_eq_none.mpr hnot, rfl⟩
      next =>
        split at h
        next s' e heq => exact absurd (Option.some.inj h).symm (hstore e)
        next => cases h
  | _ => exact .inl ⟨rfl, nofun⟩

/-- A publish refused with anything but a store error changes no row and sends nothing. A duplicate
leaves the engine as it was; after any other refusal nothing is sent for the handle until it is
started again, and it can be started again. -/
theorem refused_publish_leaves_nothing (w : World) (s : PublishEngine) (action : PublishAction)
    (nowMs : Nat) (override : Option String) (error : PublishEngineError)
    (h : (startPublish w action nowMs override s).2 = some error) (hstore : ∀ e, error ≠ .store e) :
    let s' := (startPublish w action nowMs override s).1
    s'.inFlight = s.inFlight ∧
      (∃ more, s'.log = s.log ++ more ∧ ∀ key url, .sent key url ∉ more) ∧
      ∀ handle event target, action = .publish handle event target →
        (error = .duplicateHandle handle → s' = s) ∧
        (error ≠ .duplicateHandle handle → ∀ steps : List (World × Call),
          (∀ step ∈ steps, Keeps handle step.2) →
          (∃ more, (run perform s' steps).log = s'.log ++ more ∧ ∀ url, .sent handle url ∉ more) ∧
          ∀ w' event' target' nowMs' override',
            (startPublish w' (.publish handle event' target') nowMs' override'
              (run perform s' steps)).2 ≠ some (.duplicateHandle handle)) := by
  intro s'
  rcases startPublish_refused h hstore with ⟨hsame, hdup⟩ | ⟨key, event, target, terminal, rfl, rfl,
    hnone, hsame⟩
  · have hs' : s' = s := hsame
    refine ⟨by rw [hs'], ⟨[], by rw [hs', List.append_nil], nofun⟩, ?_⟩
    intro handle event target haction
    exact ⟨fun _ => hs', fun hne => absurd (hdup handle event target haction) hne⟩
  · have hs' : s' = recordTerminal key terminal s := hsame
    refine ⟨by rw [hs']; rfl, ⟨[.ended key terminal], by rw [hs']; rfl, by simp⟩, ?_⟩
    intro handle event' target' haction
    cases haction
    refine ⟨nofun, fun _ steps hsteps => ?_⟩
    have hnone' : s'.inFlight.lookup key = none := by
      rw [hs']
      exact hnone
    have hsilent := silent_keeping hnone' hsteps
    refine ⟨hsilent.log, fun w' event' target' nowMs' override' hdup => ?_⟩
    rw [startPublish, startPublishInner,
      if_neg (AList.lookup_eq_none.mp hsilent.rowless)] at hdup
    dsimp only at hdup
    split at hdup
    next => cases hdup
    next =>
      split at hdup
      next => cases hdup
      next => cases hdup

def note : SignedEvent := ⟨"id", "sig", "alice", 1, [], "note", 0⟩

def publishNote : PublishAction := .publish "id" note .auto

def noteWorld : World := queueWorld [⟨"wss://r", .authorWriteRelay⟩]

theorem refused_note_not_sent :
    (startPublish (queueWorld []) publishNote 10 none (.new .default .empty)).2 = some .noTargets ∧
      (startPublish (queueWorld []) publishNote 10 none (.new .default .empty)).1.inFlight = ∅ :=
  ⟨by decide +kernel, (refused_publish_leaves_nothing (queueWorld []) (.new .default .empty)
    publishNote 10 none .noTargets (by decide +kernel) nofun).1⟩

/-- A duplicate is refused while the publish it repeats goes on: the relay becomes available, the
frame goes out, and a third attempt is a duplicate again. -/
theorem duplicate_publish_goes_on :
    let waiting := run perform (.new .default .empty)
      [(noteWorld, .markRelayUnavailable "wss://r" 5), (noteWorld, .startPublish publishNote 10 none)]
    let refused := startPublish noteWorld publishNote 20 none waiting
    refused.2 = some (.duplicateHandle "id") ∧
      .sent "id" "wss://r" ∉ refused.1.log ∧
      .sent "id" "wss://r" ∈ (markRelayAvailable noteWorld "wss://r" 30 refused.1).log ∧
      (startPublish noteWorld publishNote 40 none refused.1).2 = some (.duplicateHandle "id") := by
  decide +kernel

def cancelTerminal (handle : PublishHandle) (correlationId : String) : LastTerminal :=
  ⟨correlationId, "cancelled", none, some handle, .cancelled handle⟩

/-- The store accepts the delete of the cancel. -/
def deletes (w : World) (handle : PublishHandle) (correlationId : String) (s : PublishEngine) :
    Prop :=
  w.storeError (s.log ++ [.ended handle (cancelTerminal handle correlationId)]) (.delete handle) =
    none

theorem forgotten_cancelByHandle {w : World} {s : PublishEngine} {handle : PublishHandle}
    {correlationId : String} (h : deletes w handle correlationId s ∨
      ∀ record, s.store.rows.lookup handle = some record → isPending record = false) :
    Forgotten handle (cancelByHandle w handle correlationId s) := by
  have hsilent := silent_cancelByHandle w s handle correlationId (.inl rfl)
  refine ⟨hsilent.rowless, fun record hrecord => ?_⟩
  rcases h with hdeletes | hsettled
  · let gone : PublishEngine := { s with inFlight := s.inFlight.erase handle }
    have hcall : cancelByHandle w handle correlationId s = _ :=
      delete_eq (s := recordTerminal handle (cancelTerminal handle correlationId) gone) hdeletes
    rw [hcall] at hrecord
    have hgone : (s.store.delete handle).rows.lookup handle = none := AList.lookup_erase _ _
    exact absurd (hgone.symm.trans hrecord) nofun
  · rcases hsilent.store with heq | hnone
    · exact hsettled record (heq ▸ hrecord)
    · rw [hnone] at hrecord
      cases hrecord

/-- A cancel whose delete succeeds, or that finds no pending record, is final: whatever is called
afterwards, restarts on the same store included, nothing is sent for the handle until it is
published anew. -/
theorem cancel_final (w : World) (s : PublishEngine) (handle : PublishHandle)
    (correlationId : String) (h : deletes w handle correlationId s ∨
      ∀ record, s.store.rows.lookup handle = some record → isPending record = false)
    (steps : List (World × Call)) (hsteps : ∀ step ∈ steps, Spares handle step.2) :
    ∃ more, (run perform (cancelByHandle w handle correlationId s) steps).log =
        (cancelByHandle w handle correlationId s).log ++ more ∧
      ∀ url, .sent handle url ∉ more :=
  (silent_run (forgotten_cancelByHandle h) hsteps).log

/-- The note sent and stored, before it is cancelled. -/
def sentNote : PublishEngine :=
  run perform (.new .default .empty) [(noteWorld, .startPublish publishNote 10 none)]

theorem cancelled_note_stays_cancelled :
    "id" ∈ sentNote.inFlight ∧ ∃ more,
      (run perform (cancelByHandle noteWorld "id" "id" sentNote)
        [(noteWorld, .restart .default 30)]).log =
        (cancelByHandle noteWorld "id" "id" sentNote).log ++ more ∧
      ∀ url, .sent "id" url ∉ more :=
  ⟨by decide +kernel, cancel_final noteWorld sentNote "id" "id" (.inl rfl)
    [(noteWorld, .restart .default 30)] fun step hstep => by
      rw [List.mem_singleton.mp hstep]
      trivial⟩

def brokenStore : World :=
  fixedWorld [⟨"wss://r", .authorWriteRelay⟩] (fun _ => []) fun call =>
    match call with
    | .delete _ => some (.backend "disk full")
    | _ => none

/-- A delete that fails leaves the record, and the restart sends the cancelled note again. -/
theorem cancelled_note_sent_again :
    let cancelled := cancelByHandle brokenStore "id" "id" sentNote
    let resumed := perform cancelled (noteWorld, .restart .default 30)
    "id" ∉ cancelled.inFlight ∧
      resumed.log = cancelled.log ++ [.stopped, .opened "id" ["wss://r"], .sent "id" "wss://r"] := by
  decide +kernel

end PublishSilence
