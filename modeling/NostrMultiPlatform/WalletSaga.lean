import NostrMultiPlatform.WalletEffect

/-!
# One operation, its log and its journal

While one operation runs, the durable log and the journal hold at most its row,
the log at most its payload, and both keep them for as long as the operation is
live. Transitions, write-throughs, crashes and restores maintain this for any
property of the payload.
-/
namespace WalletSaga

open Tables WalletJournal WalletState WalletLifecycle

section
variable (account op : String) (kind : WalletOperationKind)
  (payloadOk : CashuWalPayload → Prop) (live : Prop)

def RowOk (row : WalletOperation) : Prop := row.id = op ∧ row.kind = kind

structure LogOk (store : WalletWalStore) : Prop where
  rows : ∀ key row, store.operations.lookup key = some row →
    key = (account, op) ∧ RowOk op kind row ∧ row.state.isTerminal = false
  payloads : ∀ key payload, store.payloads.lookup key = some payload →
    key = (account, op) ∧ payloadOk payload
  kept : live → store.operations.lookup (account, op) ≠ none ∧
    store.payloads.lookup (account, op) ≠ none

structure SagaOk (st : CashuWalletState) : Prop where
  log : ∃ store, st.walStore = some store ∧ LogOk account op kind payloadOk live store
  session : st.walAccount = none ∧ st.journal = [] ∨ st.walAccount = some account
  journal : ∀ row ∈ st.journal, RowOk op kind row
  kept : live → st.walAccount = some account →
    ∃ row, st.journal.get op = some row ∧ row.state.isTerminal = false

end

variable {account op : String} {kind : WalletOperationKind}
  {payloadOk payloadOk' : CashuWalPayload → Prop} {live live' : Prop}
  {st st' : CashuWalletState}

variable {payload : CashuWalPayload} {row : WalletOperation} {store : WalletWalStore}

/-- An operation that has just been logged. -/
theorem SagaOk.first (hrow : RowOk op kind row) (hopen : row.state.isTerminal = false)
    (hpayload : payloadOk payload)
    (hlog : st.walStore = some ((WalletWalStore.empty.upsertOperation account row).upsertPayload account op payload))
    (hsession : st.walAccount = some account) (hjournal : st.journal = [row]) :
    SagaOk account op kind payloadOk live st where
  log := by
    refine ⟨_, hlog, fun key found hfound => ?_, fun key found hfound => ?_, fun _ => ?_⟩
    · simp only [WalletWalStore.upsertPayload, WalletWalStore.upsertOperation,
        WalletWalStore.empty, lookup_insert_eq] at hfound
      split at hfound
      next hkey =>
        obtain rfl := Option.some.inj hfound
        exact ⟨by rw [hkey, hrow.1], hrow, hopen⟩
      · cases hfound
    · simp only [WalletWalStore.upsertPayload, WalletWalStore.upsertOperation,
        WalletWalStore.empty, lookup_insert_eq] at hfound
      split at hfound
      next hkey =>
        obtain rfl := Option.some.inj hfound
        exact ⟨hkey, hpayload⟩
      · cases hfound
    · simp [WalletWalStore.upsertPayload, WalletWalStore.upsertOperation, hrow.1]
  session := .inr hsession
  journal found hfound := by
    rw [hjournal] at hfound
    exact List.mem_singleton.mp hfound ▸ hrow
  kept _ _ := ⟨row, by simp [hjournal, WalletOperationJournal.get, hrow.1], hopen⟩

/-- Only log, account and journal matter. -/
theorem SagaOk.congr (h : SagaOk account op kind payloadOk live st)
    (hlog : st'.walStore = st.walStore) (haccount : st'.walAccount = st.walAccount)
    (hjournal : st'.journal = st.journal) : SagaOk account op kind payloadOk live st' where
  log := by rw [hlog]; exact h.log
  session := by rw [haccount, hjournal]; exact h.session
  journal := by rw [hjournal]; exact h.journal
  kept := by rw [haccount, hjournal]; exact h.kept

/-- The demands on the log may be relaxed. -/
theorem SagaOk.mono (h : SagaOk account op kind payloadOk live st)
    (hpayload : ∀ payload, payloadOk payload → payloadOk' payload) (hlive : live' → live) :
    SagaOk account op kind payloadOk' live' st where
  log := by
    obtain ⟨store, hstore, hlog⟩ := h.log
    exact ⟨store, hstore, hlog.rows,
      fun key payload hp => ⟨(hlog.payloads key payload hp).1,
        hpayload payload (hlog.payloads key payload hp).2⟩,
      fun hl => hlog.kept (hlive hl)⟩
  session := h.session
  journal := h.journal
  kept hl := h.kept (hlive hl)

theorem SagaOk.withWal (h : SagaOk account op kind payloadOk live st)
    {f : WalletWalStore → String → WalletWalStore}
    (hf : ∀ store, LogOk account op kind payloadOk live store →
      LogOk account op kind payloadOk live (f store account)) :
    SagaOk account op kind payloadOk live (st.withWal f) where
  log := by
    obtain ⟨store, hstore, hlog⟩ := h.log
    rcases h.session with ⟨hnone, -⟩ | hsome
    · exact ⟨store, by simp [CashuWalletState.withWal, hnone, hstore], hlog⟩
    · exact ⟨f store account, by simp [CashuWalletState.withWal, hsome, hstore], hf store hlog⟩
  session := by simpa using h.session
  journal := by simpa using h.journal
  kept := by simpa using h.kept

theorem LogOk.upsertOperation (h : LogOk account op kind payloadOk live store)
    (hrow : RowOk op kind row) (hopen : row.state.isTerminal = false) :
    LogOk account op kind payloadOk live (store.upsertOperation account row) where
  rows key found hfound := by
    simp only [WalletWalStore.upsertOperation, lookup_insert_eq] at hfound
    split at hfound
    next hkey =>
      obtain rfl := Option.some.inj hfound
      exact ⟨by rw [hkey, hrow.1], hrow, hopen⟩
    · exact h.rows key found hfound
  payloads := h.payloads
  kept hlive := by
    refine ⟨?_, (h.kept hlive).2⟩
    simp only [WalletWalStore.upsertOperation, lookup_insert_eq]
    split
    · simp
    · exact (h.kept hlive).1

theorem LogOk.upsertPayload (h : LogOk account op kind payloadOk live store)
    (hpayload : payloadOk payload) :
    LogOk account op kind payloadOk live (store.upsertPayload account op payload) where
  rows := h.rows
  payloads key found hfound := by
    simp only [WalletWalStore.upsertPayload, lookup_insert_eq] at hfound
    split at hfound
    next hkey =>
      obtain rfl := Option.some.inj hfound
      exact ⟨hkey, hpayload⟩
    · exact h.payloads key found hfound
  kept hlive := by
    refine ⟨(h.kept hlive).1, ?_⟩
    simp only [WalletWalStore.upsertPayload, lookup_insert_eq]
    split
    · simp
    · exact (h.kept hlive).2

theorem LogOk.delete (h : LogOk account op kind payloadOk live store) (hover : ¬ live) (id : String)
    :
    LogOk account op kind payloadOk live
      ((store.deleteOperation account id).deletePayload account id) where
  rows key row hrow := by
    simp only [WalletWalStore.deleteOperation, WalletWalStore.deletePayload,
      lookup_erase_eq] at hrow
    split at hrow
    · cases hrow
    · exact h.rows key row hrow
  payloads key payload hpayload := by
    simp only [WalletWalStore.deleteOperation, WalletWalStore.deletePayload,
      lookup_erase_eq] at hpayload
    split at hpayload
    · cases hpayload
    · exact h.payloads key payload hpayload
  kept hlive := absurd hlive hover

theorem mem_update {journal : WalletOperationJournal} {id : String}
    {f : WalletOperation → WalletOperation} (h : row ∈ WalletOperationJournal.update id f journal) :
    row ∈ journal ∨ ∃ old ∈ journal, row = f old := by
  induction journal with
  | nil => cases h
  | cons first _ ih =>
    simp only [WalletOperationJournal.update] at h
    split at h
    · rcases List.mem_cons.mp h with rfl | hrest
      · exact .inr ⟨first, List.mem_cons_self, rfl⟩
      · exact .inl (List.mem_cons_of_mem _ hrest)
    · rcases List.mem_cons.mp h with rfl | hrest
      · exact .inl List.mem_cons_self
      · rcases ih hrest with hold | ⟨old, hold, rfl⟩
        · exact .inl (List.mem_cons_of_mem _ hold)
        · exact .inr ⟨old, List.mem_cons_of_mem _ hold, rfl⟩

section

variable (h : SagaOk account op kind payloadOk live st)
include h

/-- A transition keeps the invariant, a terminal one once the operation is no longer live. -/
theorem SagaOk.advance (id : String) (next : WalletOperationState)
    (hnext : live → next.isTerminal = false) :
    SagaOk account op kind payloadOk live (st.advance id next) := by
  rcases st.advance_eq id next with hsame | ⟨journal, hjournal, hwritten⟩
  · rwa [hsame]
  obtain ⟨row, hget, -, hupdate⟩ := WalletOperationJournal.transition_ok hjournal
  have hrow : RowOk op kind row := h.journal row (List.mem_of_find?_eq_some hget)
  have hid : row.id = id := by simpa using List.find?_some hget
  have hself : journal.get id = some { row with state := next } := by
    rw [hupdate]
    exact WalletOperationJournal.get_update_self (fun _ => rfl) hget
  have hmoved : SagaOk account op kind payloadOk live { st with journal := journal } :=
    { log := h.log
      session := h.session.imp_left fun hnone => by
        rw [hnone.2] at hget
        cases hget
      journal := fun row hmem => by
        rw [hupdate] at hmem
        rcases mem_update hmem with hold | ⟨old, hold, rfl⟩
        · exact h.journal row hold
        · exact h.journal old hold
      kept := fun hlive _ => ⟨_, (hid.symm.trans hrow.1) ▸ hself, hnext hlive⟩ }
  rw [hwritten]
  refine hmoved.withWal fun store hlog => ?_
  simp only [hself]
  split
  next hterminal =>
    refine hlog.delete (fun hlive => ?_) id
    rw [hnext hlive] at hterminal
    cases hterminal
  next hopen => exact hlog.upsertOperation ⟨hrow.1, hrow.2⟩ (Bool.eq_false_iff.mpr hopen)

/-- Edits of a row that keep its state. -/
theorem SagaOk.editJournal (id : String) {f : WalletOperation → WalletOperation}
    (hf : ∀ row, (f row).id = row.id ∧ (f row).kind = row.kind ∧ (f row).state = row.state) :
    SagaOk account op kind payloadOk live (st.editJournal fun j => j.edit id f) := by
  simp only [CashuWalletState.editJournal, WalletOperationJournal.edit]
  cases hget : st.journal.get id with
  | none => exact h
  | some row =>
    refine ⟨h.log, h.session.imp_left fun hnone => ?_, fun found hfound => ?_,
      fun hlive hsession => ?_⟩
    · rw [hnone.2] at hget
      cases hget
    · rcases mem_update hfound with hold | ⟨old, hold, rfl⟩
      · exact h.journal found hold
      · exact ⟨(hf old).1.trans (h.journal old hold).1, (hf old).2.1.trans (h.journal old hold).2⟩
    · obtain ⟨current, hcurrent, hopen⟩ := h.kept hlive hsession
      by_cases hid : op = id
      · subst hid
        exact ⟨f current, WalletOperationJournal.get_update_self (fun row => (hf row).1) hcurrent,
          (hf current).2.2 ▸ hopen⟩
      · exact ⟨current, (WalletOperationJournal.get_update_other (fun row => (hf row).1) hid).trans
          hcurrent, hopen⟩

/-- Writing the payload of the operation through. -/
theorem SagaOk.write (hsession : st.walAccount = some account) (hpayload : payloadOk' payload)
    (hlive : live' → live) :
    SagaOk account op kind payloadOk' live'
      (st.withWal fun store account => store.upsertPayload account op payload) where
  log := by
    obtain ⟨store, hstore, hlog⟩ := h.log
    refine ⟨store.upsertPayload account op payload,
      by simp [CashuWalletState.withWal, hsession, hstore], hlog.rows,
      fun key found hfound => ?_, fun hl => ⟨(hlog.kept (hlive hl)).1, ?_⟩⟩
    · simp only [WalletWalStore.upsertPayload, lookup_insert_eq] at hfound
      split at hfound
      next hkey =>
        obtain rfl := Option.some.inj hfound
        exact ⟨hkey, hpayload⟩
      next hkey => exact absurd (hlog.payloads key found hfound).1 hkey
    · simp [WalletWalStore.upsertPayload]
  session := by simpa using h.session
  journal := by simpa using h.journal
  kept hl hsession' := by simpa using h.kept (hlive hl) hsession

/-- Rewriting rows of an operation that is not live, with a write-through. -/
theorem SagaOk.walPersist (hover : ¬ live) (hactive : st.walAccount = some account)
    {journal : WalletOperationJournal} (hrows : ∀ row ∈ journal, RowOk op kind row) (id : String) :
    SagaOk account op kind payloadOk live
      (({ st with journal := journal } : CashuWalletState).walPersist id) := by
  have hmoved : SagaOk account op kind payloadOk live
      ({ st with journal := journal } : CashuWalletState) :=
    ⟨h.log, .inr hactive, hrows, fun hlive => absurd hlive hover⟩
  refine hmoved.withWal fun store hlog => ?_
  dsimp only
  split
  · exact hlog
  next row hget =>
    split
    · exact hlog.delete hover id
    next hopen =>
      exact hlog.upsertOperation (hrows row (List.mem_of_find?_eq_some hget))
        (Bool.eq_false_iff.mpr hopen)

/-- Dropping the row from log and journal. -/
theorem SagaOk.drop (hover : ¬ live) (id : String) :
    SagaOk account op kind payloadOk live
      { st.withWal fun store account =>
          (store.deleteOperation account id).deletePayload account id with
        journal := st.journal.remove id } where
  log := (h.withWal fun store hlog => hlog.delete hover id).log
  session := by
    rcases h.session with ⟨hnone, hjournal⟩ | hactive
    · exact .inl ⟨by simpa using hnone, by rw [hjournal]; rfl⟩
    · exact .inr (by simpa using hactive)
  journal row hrow := h.journal row (List.mem_of_mem_filter hrow)
  kept hlive := absurd hlive hover

theorem SagaOk.crash :
    SagaOk account op kind payloadOk live (.new st.walStore) where
  log := h.log
  session := .inl ⟨rfl, rfl⟩
  journal row hrow := by cases hrow
  kept _ hsession := by cases hsession

end

/-- The only key of a table, if its entries are all under it. -/
theorem entries_of_only {κ ν : Type} [DecidableEq κ] {t : Table κ ν} {a : κ}
    (h : ∀ b v, t.lookup b = some v → b = a) :
    t.entries = match t.lookup a with
      | none => []
      | some v => [⟨a, v⟩] := by
  have hkeys : ∀ e ∈ t.entries, e.1 = a := fun e he => h e.1 e.2 (AList.mem_lookup_iff.mpr he)
  have hnodup := t.nodupKeys.pairwise_ne
  cases hentries : t.entries with
  | nil =>
    have hnone : t.lookup a = none := by
      by_contra hsome
      obtain ⟨v, hv⟩ := Option.ne_none_iff_exists'.mp hsome
      have := AList.mem_lookup_iff.mp hv
      simp [hentries] at this
    rw [hnone]
  | cons e rest =>
    obtain ⟨b, v⟩ := e
    obtain rfl : b = a := hkeys ⟨b, v⟩ (by simp [hentries])
    have hv : t.lookup b = some v := AList.mem_lookup_iff.mpr (by simp [hentries])
    have hrest : rest = [] := by
      cases rest with
      | nil => rfl
      | cons e' =>
        have hsame : e'.1 = b := hkeys e' (by simp [hentries])
        rw [hentries] at hnodup
        exact absurd hsame.symm ((List.pairwise_cons.mp hnodup).1 e' (by simp))
    rw [hv, hrest]

/-- The row of the log comes back into the journal, unless it never left. -/
theorem SagaOk.restoreRow (h : SagaOk account op kind payloadOk live st) {row : WalletOperation}
    (hrow : RowOk op kind row) (hopen : row.state.isTerminal = false) :
    SagaOk account op kind payloadOk live
      (restoreRow account { st with walAccount := some account } row) := by
  have hrestore : WalletLifecycle.restoreRow account { st with walAccount := some account } row =
      ({ st with walAccount := some account } : CashuWalletState).editJournal
        fun j => j.insert row := by
    simp [WalletLifecycle.restoreRow, hopen]
  rw [hrestore]
  simp only [CashuWalletState.editJournal]
  split
  next e hinsert =>
    refine ⟨h.log, .inr rfl, h.journal, fun hlive _ => ?_⟩
    rcases h.session with ⟨-, hempty⟩ | hsession
    · simp [hempty, WalletOperationJournal.insert] at hinsert
    · exact h.kept hlive hsession
  next journal hinsert =>
    refine ⟨h.log, .inr rfl, fun found hfound => ?_, fun hlive _ => ⟨row, ?_, hopen⟩⟩
    · simp only [WalletOperationJournal.insert] at hinsert
      split at hinsert
      · cases hinsert
      · obtain rfl := Except.ok.inj hinsert
        rcases List.mem_append.mp hfound with hold | hnew
        · exact h.journal found hold
        · exact List.mem_singleton.mp hnew ▸ hrow
    · rw [WalletOperationJournal.get_insert hinsert, if_pos hrow.1.symm]

/-- What a restore of the account reads back: at most the operation with its payload, and
nothing else changes before the pending tables are rebuilt. -/
theorem SagaOk.restore (h : SagaOk account op kind payloadOk live st) :
    ∃ (back : CashuWalletState) (store : WalletWalStore) (rows : List (String × CashuWalPayload)),
      SagaOk account op kind payloadOk live back ∧ back.walAccount = some account ∧
      (back.walStore = some store ∧ st.walStore = some store) ∧
      (back.proofs = st.proofs ∧ back.ledger = st.ledger ∧ back.mints = st.mints ∧
        back.pendingDeposits = st.pendingDeposits ∧
        back.pendingCrossMintTransfers = st.pendingCrossMintTransfers) ∧
      (rows = [] ∧ ¬ live ∨ ∃ payload, rows = [(op, payload)] ∧ payloadOk payload) ∧
      (∀ kind', inFlight store account kind' = if kind' = kind then rows else []) ∧
      restoreFromWal st account =
        (let deposits := (inFlight store account .depositCashu).foldl restoreDeposit (back, [])
        let sends := (inFlight store account .sendNutzap).filterMap restoreSend
        let redeems := (inFlight store account .redeemNutzap).filterMap restoreRedeem
        let transfers := (inFlight store account .crossMintTransfer).foldl restoreCrossMint
          (deposits.1, [])
        (transfers.1, deposits.2 ++ sends ++ redeems ++ transfers.2)) ∧
      ∀ row ∈ back.journal, row ∈ st.journal ∨ row.state.isTerminal = false := by
  obtain ⟨store, hstore, hlog⟩ := h.log
  have hentries := entries_of_only fun key row hrow => (hlog.rows key row hrow).1
  have hunfold : ∀ back : CashuWalletState, back.walStore = some store →
      restoreIntoJournal { st with walAccount := some account } account
        (store.loadOperations account) = back →
      restoreFromWal st account =
        (let deposits := (inFlight store account .depositCashu).foldl restoreDeposit (back, [])
        let sends := (inFlight store account .sendNutzap).filterMap restoreSend
        let redeems := (inFlight store account .redeemNutzap).filterMap restoreRedeem
        let transfers := (inFlight store account .crossMintTransfer).foldl restoreCrossMint
          (deposits.1, [])
        (transfers.1, deposits.2 ++ sends ++ redeems ++ transfers.2)) := by
    intro back hbackLog hback
    unfold restoreFromWal
    split
    next hnone =>
      rw [hstore] at hnone
      cases hnone
    next found hfound =>
      obtain rfl : store = found := Option.eq_some_unique hstore hfound
      simp only [hback, hbackLog]
  cases hrow : store.operations.lookup (account, op) with
  | none =>
    have hload : store.loadOperations account = [] := by
      simp [WalletWalStore.loadOperations, hentries, hrow]
    refine ⟨{ st with walAccount := some account }, store, [], ?_, rfl, ⟨hstore, hstore⟩,
      ⟨rfl, rfl, rfl, rfl, rfl⟩, .inl ⟨rfl, fun hlive => (hlog.kept hlive).1 hrow⟩,
      fun kind' => by simp [inFlight, hload], hunfold _ hstore (by rw [hload]; rfl),
      fun row hrow => .inl hrow⟩
    exact ⟨h.log, .inr rfl, h.journal, fun hlive _ => absurd hrow (hlog.kept hlive).1⟩
  | some row =>
    obtain ⟨-, hrowOk, hopen⟩ := hlog.rows _ row hrow
    have hload : store.loadOperations account = [row] := by
      simp [WalletWalStore.loadOperations, hentries, hrow]
    have hback : WalletLifecycle.restoreRow account { st with walAccount := some account } row =
        ({ st with walAccount := some account } : CashuWalletState).editJournal
          fun j => j.insert row := by
      simp [WalletLifecycle.restoreRow, hopen]
    have hbackLog : (WalletLifecycle.restoreRow account { st with walAccount := some account }
        row).walStore = some store := by
      rw [hback]
      unfold CashuWalletState.editJournal
      split <;> exact hstore
    have hinFlight : ∀ kind', inFlight store account kind' = if kind' = kind then
        (match store.payloads.lookup (account, op) with
        | none => []
        | some payload => [(op, payload)]) else [] := by
      intro kind'
      simp only [inFlight, hload, List.filterMap_cons, List.filterMap_nil]
      by_cases hkind : kind' = kind
      · rw [if_pos ⟨hrowOk.2.trans hkind.symm, hopen⟩, if_pos hkind, hrowOk.1,
          WalletWalStore.loadPayload]
        cases store.payloads.lookup (account, op) <;> rfl
      · rw [if_neg fun hboth => hkind (hboth.1.symm.trans hrowOk.2), if_neg hkind]
    refine ⟨_, store, _, h.restoreRow hrowOk hopen, by rw [hback]; simp, ⟨hbackLog, hstore⟩,
      by rw [hback]; simp, ?_, hinFlight, hunfold _ hbackLog (by rw [hload]; rfl), ?_⟩
    rotate_left
    · rw [hback]
      intro found hfound
      simp only [CashuWalletState.editJournal] at hfound
      split at hfound
      · exact .inl hfound
      next journal hinsert =>
        simp only [WalletOperationJournal.insert] at hinsert
        split at hinsert
        · cases hinsert
        · obtain rfl := Except.ok.inj hinsert
          rcases List.mem_append.mp hfound with hold | hnew
          · exact .inl hold
          · exact .inr (List.mem_singleton.mp hnew ▸ hopen)
    cases hpayload : store.payloads.lookup (account, op) with
    | none => exact .inl ⟨rfl, fun hlive => (hlog.kept hlive).2 hpayload⟩
    | some payload => exact .inr ⟨payload, rfl, (hlog.payloads _ payload hpayload).2⟩

end WalletSaga
