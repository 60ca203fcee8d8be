import NostrMultiPlatform.WalletDepositOnce
import NostrMultiPlatform.WalletMirror

/-!
# A nutzap is redeemed once

One kind 9321 event is observed and redeemed over and over, the mint may execute
a swap request whenever it likes, workers crash and are resumed from the log.
Beside the world runs a ghost that remembers which requests have left, what the
committed swap produced, and how many requests left after it.
-/
namespace WalletRedeemOnce

open Runs Tables WalletProof WalletJournal WalletLedger WalletState WalletJobs WalletRedeem
  WalletIngest WalletLifecycle WalletSystem WalletEffect WalletSaga WalletMirror
open WalletDepositOnce (EventOk Absent Present credits restarts liveCount credit_present
  absent_congr present_congr ingestToken_skips ingestToken_credits)
open WalletDeposit (settleDepositOnIngestedToken)

section
variable (account op : String)

/-- A resume payload of the redeem; fresh proofs in it are those the mint swapped. -/
def PayloadOk (minted : Option (List Proof)) (payload : CashuWalPayload) : Prop :=
  ∃ nutzap event mint fresh, payload = .redeem nutzap event mint fresh ∧
    ∀ proofs, fresh = some proofs → minted = some proofs

structure StateOk (minted : Option (List Proof)) (st : CashuWalletState) : Prop where
  saga : SagaOk account op .redeemNutzap (PayloadOk minted) False st
  session : Shadow account (fun _ => False) st ∨ Crashed account st
  paired : ∀ store, st.walStore = some store → store.payloads.lookup (account, op) ≠ none →
    store.operations.lookup (account, op) ≠ none
  deposits : st.pendingDeposits = ∅

variable (st : CashuWalletState)

/-- The journal has the operation. -/
def Begun : Prop := st.journal.get op ≠ none

/-- The log has a row for the operation. -/
def Logged : Prop :=
  ∃ rows, rowsOf st = some rows ∧ rows.lookup (account, op) ≠ none

/-- The log holds no fresh proofs. -/
def Unswapped : Prop :=
  ∀ store, st.walStore = some store → ∀ nutzap event mint fresh,
    store.payloads.lookup (account, op) = some (.redeem nutzap event mint fresh) → fresh = none

/-- A move of the operation that touches no money; one that stays keeps what the log says. -/
structure Moves (minted : Option (List Proof)) (stays : Prop) (st st' : CashuWalletState) :
    Prop where
  state : StateOk account op minted st'
  begun : Begun op st → Begun op st'
  unswapped : stays → Unswapped account op st → Unswapped account op st'
  logged : stays → Logged account op st → Logged account op st'
  proofs : st'.proofs = st.proofs
  ledger : st'.ledger = st.ledger

end

variable {account op : String} {minted minted' : Option (List Proof)} {stays stays' : Prop}
  {st st' st'' : CashuWalletState}

theorem Moves.refl (h : StateOk account op minted st) : Moves account op minted stays st st :=
  ⟨h, id, fun _ => id, fun _ => id, rfl, rfl⟩

theorem Moves.trans (h : Moves account op minted stays st st')
    (h' : Moves account op minted stays st' st'') : Moves account op minted stays st st'' where
  state := h'.state
  begun := h'.begun ∘ h.begun
  unswapped hstays := h'.unswapped hstays ∘ h.unswapped hstays
  logged hstays := h'.logged hstays ∘ h.logged hstays
  proofs := h'.proofs.trans h.proofs
  ledger := h'.ledger.trans h.ledger

theorem Moves.mono (h : Moves account op minted stays st st') (hstays : stays' → stays) :
    Moves account op minted stays' st st' :=
  ⟨h.state, h.begun, fun hs => h.unswapped (hstays hs), fun hs => h.logged (hstays hs), h.proofs,
    h.ledger⟩

/-- Money, mints and keys do not matter to the operation. -/
theorem StateOk.congr (h : StateOk account op minted st) (hlog : st'.walStore = st.walStore)
    (hactive : st'.walAccount = st.walAccount) (hjournal : st'.journal = st.journal)
    (hdeposits : st'.pendingDeposits = st.pendingDeposits) : StateOk account op minted st' where
  saga := h.saga.congr hlog hactive hjournal
  session := by
    refine h.session.imp (fun hshadow => ?_) fun hcrashed => ?_
    · exact hshadow.congr (by rw [rowsOf, rowsOf, hlog]) hactive hjournal
    · refine ⟨hactive.trans hcrashed.inactive, hjournal.trans hcrashed.journal, ?_⟩
      rw [rowsOf, hlog]
      exact hcrashed.log
  paired := by rw [hlog]; exact h.paired
  deposits := hdeposits.trans h.deposits

theorem logged_congr (h : Logged account op st) (hlog : st'.walStore = st.walStore) :
    Logged account op st' := by
  rw [Logged, rowsOf, hlog]
  exact h

theorem unswapped_congr (h : Unswapped account op st) (hlog : st'.walStore = st.walStore) :
    Unswapped account op st' := by
  rw [Unswapped, hlog]
  exact h

theorem Moves.of_congr (h : StateOk account op minted st) (hlog : st'.walStore = st.walStore)
    (hactive : st'.walAccount = st.walAccount) (hjournal : st'.journal = st.journal)
    (hdeposits : st'.pendingDeposits = st.pendingDeposits) (hproofs : st'.proofs = st.proofs)
    (hledger : st'.ledger = st.ledger) : Moves account op minted stays st st' where
  state := h.congr hlog hactive hjournal hdeposits
  begun hbegun := by rwa [Begun, hjournal]
  unswapped _ hunswapped := unswapped_congr hunswapped hlog
  logged _ hlogged := logged_congr hlogged hlog
  proofs := hproofs
  ledger := hledger

/-- While the session lives, the log has the row exactly as long as the journal's is open. -/
theorem logged_iff (h : Shadow account (fun _ => False) st) :
    Logged account op st ↔ openRow st.journal op ≠ none := by
  obtain ⟨rows, hrows, -, -, hpresent⟩ := h.log
  have hsame : rows.lookup (account, op) ≠ none ↔ openRow st.journal op ≠ none := by
    simp only [ne_eq, ← Option.isSome_iff_ne_none, hpresent op]
  constructor
  · rintro ⟨rows', hrows', hrow⟩
    obtain rfl := Option.eq_some_unique hrows hrows'
    exact hsame.mp hrow
  · exact fun hopen => ⟨rows, hrows, hsame.mpr hopen⟩

theorem get_walPersist (st : CashuWalletState) (journal : WalletOperationJournal)
    (id other : String) :
    (({ st with journal := journal } : CashuWalletState).walPersist id).journal.get other =
      journal.get other := by
  rw [(CashuWalletState.walPersist_frame _ id).2.2.1]

section

variable (h : StateOk account op minted st)
include h

/-- A rewritten row of the operation, written through. -/
theorem StateOk.walPersist (hshadow : Shadow account (fun _ => False) st)
    {journal : WalletOperationJournal} (row : WalletOperation) (htidy : Tidy journal)
    (hrows : ∀ row ∈ journal, RowOk op .redeemNutzap row) (hget : journal.get op = some row)
    (hother : ∀ other, other ≠ op → journal.get other = st.journal.get other) :
    Moves account op minted (row.state.isTerminal = false) st
      (({ st with journal := journal } : CashuWalletState).walPersist op) := by
  have hnext := hshadow.walPersist htidy hget hother
  obtain ⟨store, hstore, -⟩ := h.saga.log
  have hid : row.id = op := id_of_get hget
  have hwritten : (({ st with journal := journal } : CashuWalletState).walPersist op).walStore =
      some (if row.state.isTerminal then
        (store.deleteOperation account op).deletePayload account op
      else store.upsertOperation account row) := by
    simp only [CashuWalletState.walPersist, CashuWalletState.withWal, hshadow.active, hstore, hget,
      Option.map_some]
  have hpayload : ∀ payload, (if row.state.isTerminal then
        (store.deleteOperation account op).deletePayload account op
      else store.upsertOperation account row).payloads.lookup (account, op) = some payload →
        row.state.isTerminal = false ∧ store.payloads.lookup (account, op) = some payload := by
    intro payload hlookup
    split at hlookup
    · simp [WalletWalStore.deletePayload] at hlookup
    next hopen => exact ⟨Bool.eq_false_iff.mpr hopen, hlookup⟩
  refine ⟨⟨h.saga.walPersist id hshadow.active hrows op, .inl (hnext.mono fun _ => False.elim),
    fun found hfound hsome => ?_, ?_⟩, fun _ => ?_, fun _ hunswapped found hfound => ?_,
    fun hopen _ => ?_, by simp, by simp⟩
  · obtain rfl := Option.eq_some_unique hwritten hfound
    obtain ⟨payload, hlookup⟩ := Option.ne_none_iff_exists'.mp hsome
    rw [if_neg (Bool.eq_false_iff.mp (hpayload payload hlookup).1)]
    simp [WalletWalStore.upsertOperation, hid]
  · simpa using h.deposits
  · rw [Begun, get_walPersist, hget]
    exact Option.some_ne_none _
  · obtain rfl := Option.eq_some_unique hwritten hfound
    intro nutzap event mint fresh hlookup
    exact hunswapped store hstore nutzap event mint fresh (hpayload _ hlookup).2
  · refine (logged_iff (hnext.mono fun _ => False.elim)).mpr ?_
    rw [(CashuWalletState.walPersist_frame _ op).2.2.1, openRow_eq_some.mpr ⟨hget, hopen⟩]
    exact Option.some_ne_none _

/-- Every row of the journal is the operation's, also after an edit that keeps id and kind. -/
theorem StateOk.rows_update {f : WalletOperation → WalletOperation}
    (hf : ∀ row, (f row).id = row.id ∧ (f row).kind = row.kind) :
    ∀ row ∈ WalletOperationJournal.update op f st.journal, RowOk op .redeemNutzap row := by
  intro row hrow
  rcases mem_update hrow with hold | ⟨old, hold, rfl⟩
  · exact h.saga.journal row hold
  · exact ⟨(hf old).1.trans (h.saga.journal old hold).1,
      (hf old).2.trans (h.saga.journal old hold).2⟩

/-- A journal with a row belongs to a live session. -/
theorem StateOk.shadow {row : WalletOperation} (hget : st.journal.get op = some row) :
    Shadow account (fun _ => False) st := by
  refine h.session.resolve_right fun hcrashed => ?_
  rw [hcrashed.journal] at hget
  cases hget

/-- A payload has its row. -/
theorem StateOk.unswapped (hnone : ¬ Logged account op st) : Unswapped account op st := by
  intro store hstore nutzap event mint fresh hpayload
  refine absurd ⟨store.operations, by rw [rowsOf, hstore]; rfl, ?_⟩ hnone
  exact h.paired store hstore (by simp [hpayload])

theorem StateOk.advance (next : WalletOperationState) :
    Moves account op minted (next.isTerminal = false) st (st.advance op next) := by
  rcases st.advance_eq op next with hsame | ⟨journal, hjournal, hwritten⟩
  · rw [hsame]
    exact .refl h
  obtain ⟨row, hget, hcan, rfl⟩ := WalletOperationJournal.transition_ok hjournal
  have hshadow := h.shadow hget
  have hnext : next ≠ .draft := by
    rintro rfl
    rw [canTransitionTo_draft] at hcan
    cases hcan
  rw [hwritten]
  exact h.walPersist hshadow { row with state := next }
    (hshadow.tidy.update (fun _ => rfl) fun _ _ => hnext) (h.rows_update fun _ => ⟨rfl, rfl⟩)
    (WalletOperationJournal.get_update_self (fun _ => rfl) hget)
    fun other hne => WalletOperationJournal.get_update_other (fun _ => rfl) hne

theorem StateOk.recordConsumedInput (input : WalletConsumedInput) :
    Moves account op minted True st (st.recordConsumedInput op input) := by
  cases hget : st.journal.get op with
  | none =>
    have hsame : st.recordConsumedInput op input = st := by
      simp only [CashuWalletState.recordConsumedInput, WalletOperationJournal.recordConsumedInput,
        WalletOperationJournal.edit, hget]
    rw [hsame]
    exact .refl h
  | some row =>
    let consume : WalletOperation → WalletOperation := fun op =>
      { op with consumedInputs := op.consumedInputs ++ [input] }
    have hshadow := h.shadow hget
    have hself := WalletOperationJournal.get_update_self (f := consume) (fun _ => rfl) hget
    have hmoves := h.walPersist hshadow (consume row)
      (hshadow.tidy.update (f := consume) (fun _ => rfl) fun row hrow => hshadow.tidy.begun op row hrow)
      (h.rows_update (f := consume) fun _ => ⟨rfl, rfl⟩)
      hself
      fun other hne => WalletOperationJournal.get_update_other (f := consume) (fun _ => rfl) hne
    simp only [CashuWalletState.recordConsumedInput, WalletOperationJournal.recordConsumedInput,
      WalletOperationJournal.edit, hget]
    cases hopen : row.state.isTerminal with
    | false => exact hmoves.mono fun _ => hopen
    | true =>
      -- the row is over, before and after
      have hover : ∀ {st' : CashuWalletState} {row' : WalletOperation},
          Shadow account (fun _ => False) st' → st'.journal.get op = some row' →
          row'.state = row.state → ¬ Logged account op st' := by
        intro st' row' hshadow' hget' hstate hlogged
        refine (logged_iff hshadow').mp hlogged ?_
        simp [openRow, hget', hstate, hopen]
      have hself' := (get_walPersist st _ op op).trans hself
      exact { hmoves with
        unswapped := fun _ _ => hmoves.state.unswapped
          (hover (hmoves.state.shadow hself') hself' rfl)
        logged := fun _ hlogged => absurd hlogged (hover hshadow hget rfl) }

theorem StateOk.active (hbegun : Begun op st) : st.walAccount = some account := by
  obtain ⟨row, hrow⟩ := Option.ne_none_iff_exists'.mp hbegun
  exact (h.shadow hrow).active

/-- A mint request is written through before it goes out. -/
theorem StateOk.transition {next : WalletOperationState} (hopen : next.isTerminal = false)
    (ht : st.transition op next = .ok st') :
    Moves account op minted True st st' ∧ Begun op st' ∧ Logged account op st' := by
  have hadvance : st.advance op next = st' := by simp only [CashuWalletState.advance, ht]
  have hmoves := (h.advance next).mono fun _ : True => hopen
  rw [hadvance] at hmoves
  obtain ⟨journal, hjournal, rfl⟩ := CashuWalletState.transition_eq ht
  obtain ⟨row, hget, -, rfl⟩ := WalletOperationJournal.transition_ok hjournal
  have hself := WalletOperationJournal.get_update_self
    (f := fun op => { op with state := next }) (fun _ => rfl) hget
  rw [← get_walPersist st _ op] at hself
  refine ⟨hmoves, ?_, (logged_iff (hmoves.state.shadow hself)).mpr ?_⟩
  · rw [Begun, hself]
    exact Option.some_ne_none _
  · rw [openRow_eq_some.mpr ⟨hself, hopen⟩]
    exact Option.some_ne_none _

/-- A note on the row that is not written through. -/
theorem StateOk.note {f : WalletOperation → WalletOperation}
    (hf : ∀ row, (f row).id = row.id ∧ (f row).kind = row.kind ∧ (f row).state = row.state) :
    Moves account op minted True st (st.editJournal fun j => j.edit op f) := by
  have hf' : ∀ row, (f row).id = row.id ∧ (f row).state = row.state :=
    fun row => ⟨(hf row).1, (hf row).2.2⟩
  have hlog : (st.editJournal fun j => j.edit op f).walStore = st.walStore := by
    unfold CashuWalletState.editJournal
    split <;> rfl
  refine ⟨⟨h.saga.editJournal op hf, ?_, by rw [hlog]; exact h.paired, by simpa using h.deposits⟩,
    fun hbegun => ?_, fun _ hunswapped => unswapped_congr hunswapped hlog,
    fun _ hlogged => logged_congr hlogged hlog, by simp, by simp⟩
  · refine h.session.imp (fun hshadow => ?_) fun hcrashed => ?_
    · exact (hshadow.editJournal hf' op).mono fun _ => False.elim
    · have hsame : (st.editJournal fun j => j.edit op f) = st := by
        simp [CashuWalletState.editJournal, WalletOperationJournal.edit, hcrashed.journal,
          WalletOperationJournal.get]
      rwa [hsame]
  · rw [Begun, editJournal_get hf', if_pos rfl]
    simpa [Begun] using hbegun

end

theorem StateOk.redeemFail (h : StateOk account op minted st) (input : WalletConsumedInput) :
    Moves account op minted False st (redeemFail st op input) := by
  obtain ⟨recorded, heq, hrecorded⟩ : ∃ recorded : CashuWalletState,
      WalletRedeem.redeemFail st op input = recorded.advance op .failed ∧
        Moves account op minted False st recorded := by
    refine ⟨_, rfl, ?_⟩
    split
    · split
      · exact (h.recordConsumedInput input).mono False.elim
      · exact .refl h
    · exact (h.recordConsumedInput input).mono False.elim
  rw [heq]
  exact hrecorded.trans ((hrecorded.state.advance .failed).mono False.elim)

/-- The operation begins where the journal has none. -/
theorem StateOk.begin (h : StateOk account op minted st) (hactive : st.walAccount = some account)
    {now : Nat} (hbegin : st.beginOperationAt op .redeemNutzap now = .ok st') :
    Moves account op minted True st st' ∧ Begun op st' := by
  have hshadow : Shadow account (fun _ => False) st := by
    refine h.session.resolve_right fun hcrashed => ?_
    rw [hcrashed.inactive] at hactive
    cases hactive
  obtain ⟨-, row, hget, hopen, -⟩ := beginOperationAt_row hbegin
  have hnext := hshadow.beginOperationAt hbegin
  simp only [CashuWalletState.beginOperationAt] at hbegin
  split at hbegin
  · cases hbegin
  next drafted hinsert =>
    obtain ⟨journal, hjournal, rfl⟩ := CashuWalletState.transition_eq hbegin
    obtain ⟨-, -, -, rfl⟩ := WalletOperationJournal.transition_ok hjournal
    rw [get_walPersist] at hget
    have hdrafted : ∀ row ∈ drafted, RowOk op .redeemNutzap row := by
      intro row hrow
      simp only [WalletOperationJournal.insert] at hinsert
      split at hinsert
      · cases hinsert
      · obtain rfl := Except.ok.inj hinsert
        rcases List.mem_append.mp hrow with hold | hnew
        · exact h.saga.journal row hold
        · exact List.mem_singleton.mp hnew ▸ ⟨rfl, rfl⟩
    refine ⟨(h.walPersist hshadow row (by simpa using hnext.tidy) (fun row hrow => ?_) hget
      fun other hne => ?_).mono fun _ => hopen, ?_⟩
    · rcases mem_update hrow with hold | ⟨old, hold, rfl⟩
      · exact hdrafted row hold
      · exact hdrafted old hold
    · exact (WalletOperationJournal.get_update_other
        (f := fun op => { op with state := .prepared }) (fun _ => rfl) hne).trans
        ((WalletOperationJournal.get_insert hinsert other).trans (if_neg hne))
    · rw [Begun, get_walPersist, hget]
      exact Option.some_ne_none _

/-- A payload written for the row the log has. -/
theorem StateOk.persistPayload (h : StateOk account op minted st)
    (hactive : st.walAccount = some account) (hlogged : Logged account op st)
    (payload : CashuWalPayload) (hpayload : PayloadOk minted payload) :
    Moves account op minted
      (∀ nutzap event mint fresh, payload = .redeem nutzap event mint fresh → fresh = none) st
      (st.persistPayload op payload) := by
  obtain ⟨store, hstore, -⟩ := h.saga.log
  have hwritten : (st.persistPayload op payload).walStore =
      some (store.upsertPayload account op payload) := by
    simp [CashuWalletState.persistPayload, CashuWalletState.withWal, hactive, hstore]
  refine ⟨⟨h.saga.withWal fun store hlog => hlog.upsertPayload hpayload,
    .inl ?_, fun found hfound _ => ?_, by simpa using h.deposits⟩, ?_,
    fun hnone _ found hfound nutzap event mint fresh hlookup => ?_, fun _ hlogged => ?_,
    by simp, by simp⟩
  · have hshadow : Shadow account (fun _ => False) st := by
      refine h.session.resolve_right fun hcrashed => ?_
      rw [hcrashed.inactive] at hactive
      cases hactive
    exact hshadow.persistPayload op payload
  · obtain rfl := Option.eq_some_unique hwritten hfound
    obtain ⟨rows, hrows, hrow⟩ := hlogged
    rw [rowsOf, hstore, Option.map_some] at hrows
    exact Option.some.inj hrows ▸ hrow
  · simp [Begun]
  · obtain rfl := Option.eq_some_unique hwritten hfound
    simp only [WalletWalStore.upsertPayload, lookup_insert_eq, if_true, Option.some.injEq] at hlookup
    exact hnone nutzap event mint fresh hlookup
  · rw [Logged, rowsOf_persistPayload]
    exact hlogged

/-- The row and its payload are dropped. -/
theorem StateOk.dropRedeem (h : StateOk account op minted st) :
    StateOk account op minted (dropRedeem st op) where
  saga := h.saga.drop id op
  session := by
    rcases h.session with hshadow | hcrashed
    · exact .inl (hshadow.dropRedeem op)
    · refine .inr ⟨by simpa [WalletRedeem.dropRedeem] using hcrashed.inactive, ?_, ?_⟩
      · simp [WalletRedeem.dropRedeem, hcrashed.journal, WalletOperationJournal.remove]
      · obtain ⟨rows, hrows, hfiled⟩ := hcrashed.log
        refine ⟨rows, ?_, hfiled⟩
        simpa [rowsOf, WalletRedeem.dropRedeem, CashuWalletState.withWal, hcrashed.inactive] using hrows
  paired := by
    intro store hstore hpayload
    rcases h.saga.session with ⟨hnone, -⟩ | hactive
    · exact h.paired store (by simpa [WalletRedeem.dropRedeem, CashuWalletState.withWal, hnone]
        using hstore) hpayload
    · obtain ⟨before, hbefore, -⟩ := h.saga.log
      have hwritten : store = (before.deleteOperation account op).deletePayload account op := by
        simpa [WalletRedeem.dropRedeem, CashuWalletState.withWal, hactive, hbefore]
          using hstore.symm
      simp [hwritten, WalletWalStore.deletePayload] at hpayload
  deposits := by simpa [WalletRedeem.dropRedeem] using h.deposits

theorem StateOk.crash (h : StateOk account op minted st) :
    StateOk account op minted (.new st.walStore) where
  saga := h.saga.crash
  session := by
    rcases h.session with hshadow | hcrashed
    · obtain ⟨rows, hrows, hfiled, -⟩ := hshadow.log
      exact .inr (.of_new hrows hfiled)
    · obtain ⟨rows, hrows, hfiled⟩ := hcrashed.log
      exact .inr (.of_new hrows hfiled)
  paired := h.paired
  deposits := rfl

/-- A restore takes no row away. -/
theorem restoreFromWal_get {rows : Table (String × String) WalletOperation}
    (hrows : rowsOf st = some rows) (hfiled : Filed account rows) {id : String}
    (hget : st.journal.get id ≠ none) : (restoreFromWal st account).1.journal.get id ≠ none := by
  obtain ⟨store, hstore, rfl⟩ := Option.map_eq_some_iff.mp hrows
  have hback := (restoreIntoJournal_open account { st with walAccount := some account }
    fun op hop => (open_of_loaded hfiled hop).1).2.2.2 id
  have hkept : (restoreIntoJournal { st with walAccount := some account } account
      (store.loadOperations account)).journal.get id ≠ none := by
    obtain ⟨row, hrow⟩ := Option.ne_none_iff_exists'.mp hget
    rw [hback]
    simp [hrow]
  unfold restoreFromWal
  split
  · exact hget
  next found hfound =>
    obtain rfl := Option.eq_some_unique hstore hfound
    simp only
    split
    · exact hkept
    next healed hhealed =>
      rw [(foldl_restoreCrossMint_saga _ _).2.2, (foldl_restoreDeposit_saga _ _).2.2]
      exact hkept

/-- A restore brings back the row the log has, and one command if there is a payload for it. -/
theorem StateOk.restore (h : StateOk account op minted st) :
    Moves account op minted True st (restoreFromWal st account).1 ∧
    ((restoreFromWal st account).2 = [] ∨ ∃ nutzap fresh,
      (restoreFromWal st account).2 = [.redeemResume op nutzap fresh] ∧
      (∀ proofs, fresh = some proofs → minted = some proofs) ∧
      Begun op (restoreFromWal st account).1 ∧ (Unswapped account op st → fresh = none)) := by
  obtain ⟨back, store, rows, hsaga, -, ⟨hlog, hstore⟩, ⟨hproofs, hledger, -, hdeposits, -⟩,
    hrows, hinFlight, hresult, -⟩ := h.saga.restore
  have hfold : restoreFromWal st account = (back, rows.filterMap restoreRedeem) := by
    rw [hresult]
    simp [hinFlight]
  have hshadow : Shadow account (fun _ => False) (restoreFromWal st account).1 := by
    rcases h.session with hshadow | hcrashed
    · obtain ⟨logged, hlogged, hfiled, -, hpresent⟩ := hshadow.log
      exact shadow_restoreFromWal hlogged hfiled hshadow.tidy
        fun id _ => ⟨False.elim, hpresent id⟩
    · obtain ⟨logged, hlogged, hfiled⟩ := hcrashed.log
      refine shadow_restoreFromWal hlogged hfiled (hcrashed.journal ▸ tidy_nil) fun id hid => ?_
      rw [hcrashed.journal] at hid
      exact absurd rfl hid
  have hbegun : Begun op st → Begun op (restoreFromWal st account).1 := by
    rcases h.session with hshadow | hcrashed
    · obtain ⟨logged, hlogged, hfiled, -⟩ := hshadow.log
      exact restoreFromWal_get hlogged hfiled
    · exact fun hbegun => absurd (by rw [hcrashed.journal]; rfl) hbegun
  rw [hfold] at hshadow hbegun ⊢
  have hsame : back.walStore = st.walStore := hlog.trans hstore.symm
  have hback : StateOk account op minted back :=
    ⟨hsaga, .inl hshadow, by rw [hsame]; exact h.paired, hdeposits.trans h.deposits⟩
  refine ⟨⟨hback, hbegun, fun _ hunswapped => unswapped_congr hunswapped hsame,
    fun _ hlogged => logged_congr hlogged hsame, hproofs, hledger⟩, ?_⟩
  rcases hrows with ⟨rfl, -⟩ | ⟨payload, rfl, nutzap, event, mint, fresh, rfl, hminted⟩
  · exact .inl rfl
  · have hmem : (op, CashuWalPayload.redeem nutzap event mint fresh) ∈
        inFlight store account .redeemNutzap := by simp [hinFlight]
    obtain ⟨row, hrow, hload⟩ := List.mem_filterMap.mp hmem
    obtain ⟨-, hload⟩ := Option.ite_none_right_eq_some.mp hload
    obtain ⟨payload, hpayload, heq⟩ := Option.map_eq_some_iff.mp hload
    obtain ⟨hid, rfl⟩ := Prod.mk.inj heq
    rw [hid] at hpayload
    refine .inr ⟨nutzap, fresh, rfl, hminted, fun hnone => ?_,
      fun hunswapped => hunswapped store hstore nutzap event mint fresh hpayload⟩
    have hlogged : Logged account op back :=
      ⟨store.operations, by rw [rowsOf, hlog]; rfl, h.paired store hstore
        (by rw [← WalletWalStore.loadPayload, hpayload]; exact Option.some_ne_none _)⟩
    refine (logged_iff hshadow).mp hlogged ?_
    rw [openRow, hnone]
    rfl

/-- The world with the swap requests that have left (those before the mint committed one are
early), the proofs of the committed swap, and how many requests left after it. -/
structure Redeeming where
  world : World
  sent : List (String × Job)
  minted : Option (List Proof)
  early : List (String × Job)
  late : Nat
  credited : Bool

inductive RedeemAct
  | act (act : Act)
  /-- A worker sends its swap request. -/
  | sends (tag : String) (job : Job)
  /-- The mint executes one of the requests. -/
  | commits (fresh : List Proof)
  deriving DecidableEq

/-- The nutzap a swap request is for. -/
def swapped : Job → Option ReceivedNutZap
  | .redeemSwap _ nutzap => some nutzap
  | _ => none

def isSwap (job : Job) : Bool := (swapped job).isSome

/-- The requests whose workers still wait after the act. -/
def waiting (requests : List (String × Job)) : Act → List (String × Job)
  | .resume tag job _ _ => requests.erase (tag, job)
  | .crash => []
  | _ => requests

/-- The act folds fresh proofs into inventory and ledger. -/
def folds (w : World) : Act → Bool
  | .resume tag (.redeemHistorySigning op nutzap fresh tokenEventId) (.signed _) _ =>
    (tag, Job.redeemHistorySigning op nutzap fresh tokenEventId) ∈ w.jobs && !fresh.isEmpty
  | _ => false

/-- The act drops a redeem whose inputs the mint reports unspent. -/
def drops (w : World) : Act → Bool
  | .resume tag (.redeemResume op nutzap none) (.spendStates states) _ =>
    (tag, Job.redeemResume op nutzap none) ∈ w.jobs && states.length == nutzap.proofs.length &&
      states.all (· = .unspent)
  | _ => false

variable (t : Redeeming)

def redeem : RedeemAct → Redeeming
  | .act act =>
    { t with
      world := step t.world act
      sent := waiting t.sent act
      early := waiting t.early act
      credited := !restarts act && (t.credited || credits t.world act || folds t.world act) }
  | .sends tag job =>
    if isSwap job = true ∧ t.sent.count (tag, job) < t.world.jobs.count (tag, job) then
      { t with
        sent := (tag, job) :: t.sent
        late := if t.minted = none then t.late else t.late + 1 }
    else t
  | .commits fresh =>
    if t.minted = none then { t with minted := some fresh, early := t.sent } else t

/-- Each fresh proof is at most once in the inventory and at most once in the ledger, and at most
one swap request has left after the mint committed one. -/
def RedeemedOnce : Prop :=
  (∀ proofs, t.minted = some proofs → ∀ c ∈ proofCs proofs,
    (storedCs t.world.state.proofs).count c ≤ 1 ∧ liveCount t.world.state.ledger c ≤ 1) ∧
  t.late ≤ 1

/-- The jobs of a redeem, of the ingestion of what it published, and of loading the wallet. -/
def isRedeemJob : Job → Bool
  | .fail _ | .redeemRun _ | .redeemKeys _ _ _ | .redeemReserve _ _ | .redeemSwap _ _
  | .redeemFinish _ _ _ | .redeemTokenSigning _ _ _ | .redeemHistorySigning _ _ _ _
  | .redeemResume _ _ _ | .ingestToken _ | .ingestConfig _ => true
  | _ => false

/-- A mint returns the swapped proofs to a request that it executed; a worker that never sent one
is the only to find its witness invalid or the fee too high. -/
def MintAnswers (row : String × Job) (nutzap : ReceivedNutZap) : Answer → Prop
  | .proofs fresh => row ∈ t.early ∧ t.minted = some fresh
  | .feePpk inputFeePpk =>
    row ∈ t.sent → nutzap.amountSats - computeFee nutzap.proofs.length inputFeePpk ≠ 0
  | .invalid => row ∉ t.sent
  | _ => True

instance (t : Redeeming) (row : String × Job) (nutzap : ReceivedNutZap) (answer : Answer) :
    Decidable (MintAnswers t row nutzap answer) :=
  match answer with
  | .proofs _ => inferInstanceAs (Decidable (_ ∧ _))
  | .feePpk _ => inferInstanceAs (Decidable (_ → _))
  | .invalid => inferInstanceAs (Decidable (¬ _))
  | .none | .recipient _ | .nutzap _ _ | .signed _ | .mintQuote _ _ | .meltQuote _ _ _
  | .melt _ _ | .meltState _ | .quoteNotPaid | .quotePaid _ | .spendStates _ => .isTrue trivial

/-- The acts of redeeming one event: observations and explicit redeems of it, swap outcomes,
signatures and their failures, published events coming back, crashes and restores. -/
def RedeemingAct (account eventId : String) (t : Redeeming) : RedeemAct → Prop
  | .act (.startRedeem _ eventId' _) =>
    eventId' = eventId ∧ t.world.state.walAccount = some account
  | .act (.resume tag job answer _) =>
    isRedeemJob job = true ∧
      ∀ nutzap ∈ swapped job, MintAnswers t (tag, job) nutzap answer
  | .act (.observe _ event) => event ∈ t.world.relay
  | .act (.observeConfig _ _) => True
  | .act .crash => True
  | .act (.restore account') => account' = account
  | .act _ => False
  | .sends _ _ => True
  | .commits fresh =>
    t.minted = none → (proofCs fresh).Nodup ∧ ∀ c ∈ proofCs fresh,
      c ∉ storedCs t.world.state.proofs ∧ liveCount t.world.state.ledger c = 0

instance (account eventId : String) (t : Redeeming) (act : RedeemAct) :
    Decidable (RedeemingAct account eventId t act) :=
  match act with
  | .act (.startRedeem _ _ _) | .act (.resume _ _ _ _) => inferInstanceAs (Decidable (_ ∧ _))
  | .act (.observe _ event) => inferInstanceAs (Decidable (event ∈ _))
  | .act (.restore account') => inferInstanceAs (Decidable (account' = account))
  | .act (.observeConfig _ _) | .act .crash | .sends _ _ => .isTrue trivial
  | .act (.startSend _ _ _ _) | .act (.startCrossMint _ _ _ _) | .act (.startDeposit _ _ _ _ _)
  | .act (.startComplete _ _) | .act (.checkState _) | .act .reset => .isFalse id
  | .commits _ => inferInstanceAs (Decidable (_ → _))

/-- Before the swap: at most one of these is in flight. -/
def isPre : Job → Bool
  | .fail _ | .redeemRun _ | .redeemKeys _ _ _ | .redeemReserve _ _ | .redeemSwap _ _ => true
  | _ => false

/-- After the swap, with the fresh proofs in hand. -/
def isPost : Job → Bool
  | .redeemFinish _ _ _ | .redeemTokenSigning _ _ _ | .redeemHistorySigning _ _ _ _
  | .redeemResume _ _ (some _) => true
  | _ => false

def isAttempt (job : Job) : Bool :=
  isPre job || isPost job ||
    match job with
    | .redeemResume _ _ none => true
    | _ => false

/-- Only the last attempt in flight drops its redeem, and only while the mint has not committed a
swap of it. -/
def DropsAlone : RedeemAct → Prop
  | .act (.resume tag job answer now) =>
    drops t.world (.resume tag job answer now) = true → t.minted = none ∧
      ∀ row ∈ t.world.jobs.erase (tag, job), isAttempt row.2 = false
  | _ => True

instance (t : Redeeming) (act : RedeemAct) : Decidable (DropsAlone t act) :=
  match act with
  | .act (.resume _ _ _ _) => inferInstanceAs (Decidable (_ → _))
  | .act (.startRedeem _ _ _) | .act (.observe _ _) | .act (.restore _)
  | .act (.observeConfig _ _) | .act .crash | .sends _ _ | .commits _
  | .act (.startSend _ _ _ _) | .act (.startCrossMint _ _ _ _) | .act (.startDeposit _ _ _ _ _)
  | .act (.startComplete _ _) | .act (.checkState _) | .act .reset => .isTrue trivial

/-- No event of the redeem has been credited, and no proofs folded, since the restart. -/
def FoldUncredited : RedeemAct → Prop
  | .act act => folds t.world act = true → t.credited = false
  | _ => True

instance (t : Redeeming) (act : RedeemAct) : Decidable (FoldUncredited t act) :=
  match act with
  | .act _ => inferInstanceAs (Decidable (_ → _))
  | .sends _ _ | .commits _ => .isTrue trivial

/-- What a job of the redeem was started with. -/
def JobOk (op : String) (minted : Option (List Proof)) : Job → Prop
  | .fail op' | .redeemRun op' | .redeemKeys op' _ _ | .redeemReserve op' _ | .redeemSwap op' _ =>
    op' = op
  | .redeemFinish op' _ fresh | .redeemTokenSigning op' _ fresh
  | .redeemHistorySigning op' _ fresh _ => op' = op ∧ minted = some fresh
  | .redeemResume op' _ fresh => op' = op ∧ ∀ proofs, fresh = some proofs → minted = some proofs
  | .ingestToken event => EventOk minted event
  | .ingestConfig _ | .checkPass _ | .checkMints _ _ | .spawnDebounced => True
  | _ => False

/-- The attempts in flight, beside what journal and log say of their operation. -/
structure Attempting (op : String) (minted : Option (List Proof)) (begun unswapped logged : Prop)
    (jobs sent early : List (String × Job)) (late : Nat) : Prop where
  kinds : ∀ row ∈ jobs, JobOk op minted row.2
  begun : ∀ row ∈ jobs, isAttempt row.2 = true → begun
  single : (jobs.countP fun row => isPre row.2) ≤ 1
  exclusive : (∃ row ∈ jobs, isPre row.2 = true) ∨ 0 < late →
    unswapped ∧ ∀ row ∈ jobs, isPost row.2 = false
  logged : (∃ row ∈ jobs, isSwap row.2 = true) ∨ 0 < late → logged
  once : late ≤ 1
  committed : 0 < late → minted ≠ none
  spent : 0 < late → ∀ row ∈ jobs, isPre row.2 = true → row ∈ sent ∧ row ∉ early
  swaps : ∀ row ∈ sent, isSwap row.2 = true
  early : ∀ row, early.count row ≤ sent.count row
  sent : ∀ row, sent.count row ≤ jobs.count row

section
variable {begun begun' unswapped unswapped' logged logged' : Prop}
  {jobs sent early : List (String × Job)} {late : Nat} {row : String × Job}

theorem isPre_of_isSwap {job : Job} (h : isSwap job = true) : isPre job = true := by
  cases job <;> first | rfl | cases h

theorem isAttempt_of_isPre {job : Job} (h : isPre job = true) : isAttempt job = true := by
  simp [isAttempt, h]

section

variable (h : Attempting op minted begun unswapped logged jobs sent early late)
include h

/-- An attempt before the swap is the only one, and none is past it. -/
theorem Attempting.pre (hrow : row ∈ jobs) (hpre : isPre row.2 = true) :
    unswapped ∧ ∀ other ∈ jobs.erase row, isPre other.2 = false ∧ isPost other.2 = false := by
  obtain ⟨hunswapped, hpost⟩ := h.exclusive (.inl ⟨row, hrow, hpre⟩)
  refine ⟨hunswapped, fun other hother => ⟨?_, hpost other (List.mem_of_mem_erase hother)⟩⟩
  have hsingle := h.single
  have hnone : (jobs.erase row).countP (fun row => isPre row.2) = 0 := by
    rw [List.countP_erase, if_pos ⟨hrow, hpre⟩]
    omega
  simpa using List.countP_eq_zero.mp hnone other hother

theorem Attempting.post (hrow : row ∈ jobs) (hpost : isPost row.2 = true) :
    late = 0 ∧ ∀ other ∈ jobs, isPre other.2 = false := by
  have hnone : ¬ ((∃ row ∈ jobs, isPre row.2 = true) ∨ 0 < late) := fun hsome => by
    have := (h.exclusive hsome).2 row hrow
    rw [hpost] at this
    cases this
  refine ⟨by omega, fun other hother => Bool.eq_false_iff.mpr fun hpre => ?_⟩
  exact hnone (.inl ⟨other, hother, hpre⟩)

/-- Only a request that came too late is still out once one has. -/
theorem Attempting.late_eq (hrow : row ∈ jobs) (hpre : isPre row.2 = true)
    (hout : row ∉ sent ∨ row ∈ early) : late = 0 := by
  by_contra hlate
  obtain ⟨hsent, hearly⟩ := h.spent (Nat.pos_of_ne_zero hlate) row hrow hpre
  exact hout.elim (fun hno => hno hsent) hearly

theorem Attempting.done (row : String × Job) :
    Attempting op minted begun unswapped logged (jobs.erase row)
      (sent.erase row) (early.erase row) late where
  kinds other hother := h.kinds other (List.mem_of_mem_erase hother)
  begun other hother := h.begun other (List.mem_of_mem_erase hother)
  single := (List.erase_sublist.countP_le).trans h.single
  exclusive hsome := by
    obtain ⟨hunswapped, hpost⟩ := h.exclusive
      (hsome.imp_left fun ⟨other, hother, hpre⟩ => ⟨other, List.mem_of_mem_erase hother, hpre⟩)
    exact ⟨hunswapped, fun other hother => hpost other (List.mem_of_mem_erase hother)⟩
  logged hsome := h.logged
    (hsome.imp_left fun ⟨other, hother, hswap⟩ => ⟨other, List.mem_of_mem_erase hother, hswap⟩)
  once := h.once
  committed := h.committed
  spent hlate other hother hpre := by
    have hmem := List.mem_of_mem_erase hother
    obtain ⟨hsent, hearly⟩ := h.spent hlate other hmem hpre
    have hne : other ≠ row := by
      rintro rfl
      have := ((h.pre hmem hpre).2 other hother).1
      rw [hpre] at this
      cases this
    exact ⟨(List.mem_erase_of_ne hne).mpr hsent, fun hin => hearly (List.mem_of_mem_erase hin)⟩
  swaps other hother := h.swaps other (List.mem_of_mem_erase hother)
  early other := by
    have := h.early other
    rw [List.count_erase, List.count_erase]
    omega
  sent other := by
    have := h.sent other
    rw [List.count_erase, List.count_erase]
    omega

/-- What the log says matters only as long as an attempt before the swap or a late request is
left. -/
theorem Attempting.moves (stays : Prop)
    (hover : stays ∨ late = 0 ∧ ∀ row ∈ jobs, isPre row.2 = false) (hbegun : begun → begun')
    (hunswapped : stays → unswapped → unswapped') (hlogged : stays → logged → logged') :
    Attempting op minted begun' unswapped' logged' jobs sent early late where
  kinds := h.kinds
  begun other hother hattempt := hbegun (h.begun other hother hattempt)
  single := h.single
  exclusive hsome := by
    rcases hover with hstays | ⟨hlate, hnone⟩
    · exact (h.exclusive hsome).imp_left (hunswapped hstays)
    · rcases hsome with ⟨other, hother, hpre⟩ | hlate'
      · rw [hnone other hother] at hpre
        cases hpre
      · omega
  logged hsome := by
    rcases hover with hstays | ⟨hlate, hnone⟩
    · exact hlogged hstays (h.logged hsome)
    · rcases hsome with ⟨other, hother, hswap⟩ | hlate'
      · have hpre := isPre_of_isSwap hswap
        rw [hnone other hother] at hpre
        cases hpre
      · omega
  once := h.once
  committed := h.committed
  spent := h.spent
  swaps := h.swaps
  early := h.early
  sent := h.sent

/-- Nothing of the operation is left. -/
theorem Attempting.over (hlate : late = 0) (hnone : ∀ row ∈ jobs, isAttempt row.2 = false) :
    Attempting op minted begun' unswapped' logged' jobs sent early late :=
  have hnopre : ∀ row ∈ jobs, isPre row.2 = false := fun row hrow => by
    have := hnone row hrow
    simp only [isAttempt, Bool.or_eq_false_iff] at this
    exact this.1.1
  { h.moves False (.inr ⟨hlate, hnopre⟩) (fun hbegun : begun => hbegun) False.elim False.elim with
    begun := fun row hrow hattempt => by
      rw [hnone row hrow] at hattempt
      cases hattempt }

end

/-- A job may join the attempts in flight. -/
structure Joins (op : String) (minted : Option (List Proof)) (begun unswapped logged : Prop)
    (jobs : List (String × Job)) (late : Nat) (job : Job) : Prop where
  kind : JobOk op minted job
  begun : isAttempt job = true → begun
  pre : isPre job = true →
    late = 0 ∧ unswapped ∧ ∀ row ∈ jobs, isPre row.2 = false ∧ isPost row.2 = false
  post : isPost job = true → late = 0 ∧ ∀ row ∈ jobs, isPre row.2 = false
  swap : isSwap job = true → logged

/-- A job that is no attempt may always join. -/
theorem Joins.plain {job : Job} (hkind : JobOk op minted job) (hnone : isAttempt job = false) :
    Joins op minted begun unswapped logged jobs late job := by
  have hnone' : isPre job = false ∧ isPost job = false := by
    simp only [isAttempt, Bool.or_eq_false_iff] at hnone
    exact hnone.1
  refine ⟨hkind, fun hattempt => ?_, fun hpre => ?_, fun hpost => ?_, fun hswap => ?_⟩
  · rw [hnone] at hattempt
    cases hattempt
  · rw [hnone'.1] at hpre
    cases hpre
  · rw [hnone'.2] at hpost
    cases hpost
  · rw [isPre_of_isSwap hswap] at hnone'
    cases hnone'.1

theorem not_isPost_of_isPre {job : Job} (h : isPre job = true) : isPost job = false := by
  cases job <;> first | rfl | cases h

theorem Attempting.join (h : Attempting op minted begun unswapped logged jobs sent early late)
    (job : Job) (hjob : Joins op minted begun unswapped logged jobs late job) (tag : String) :
    Attempting op minted begun unswapped logged (jobs ++ [(tag, job)]) sent early late where
  kinds other hother := by
    rcases List.mem_append.mp hother with hold | hnew
    · exact h.kinds other hold
    · exact List.mem_singleton.mp hnew ▸ hjob.kind
  begun other hother hattempt := by
    rcases List.mem_append.mp hother with hold | hnew
    · exact h.begun other hold hattempt
    · obtain rfl := List.mem_singleton.mp hnew
      exact hjob.begun hattempt
  single := by
    have hsingle := h.single
    rw [List.countP_append, List.countP_singleton]
    cases hpre : isPre job with
    | false => simpa using hsingle
    | true =>
      have hnone : jobs.countP (fun row => isPre row.2) = 0 :=
        List.countP_eq_zero.mpr fun row hrow => by simp [((hjob.pre hpre).2.2 row hrow).1]
      rw [hnone]
      simp
  exclusive hsome := by
    cases hpre : isPre job with
    | true =>
      obtain ⟨-, hunswapped, hnone⟩ := hjob.pre hpre
      refine ⟨hunswapped, fun other hother => ?_⟩
      rcases List.mem_append.mp hother with hold | hnew
      · exact (hnone other hold).2
      · exact List.mem_singleton.mp hnew ▸ not_isPost_of_isPre hpre
    | false =>
      have hold : (∃ row ∈ jobs, isPre row.2 = true) ∨ 0 < late := by
        refine hsome.imp_left fun ⟨other, hother, hother'⟩ => ?_
        rcases List.mem_append.mp hother with hold | hnew
        · exact ⟨other, hold, hother'⟩
        · obtain rfl := List.mem_singleton.mp hnew
          rw [hpre] at hother'
          cases hother'
      obtain ⟨hunswapped, hnone⟩ := h.exclusive hold
      refine ⟨hunswapped, fun other hother => ?_⟩
      rcases List.mem_append.mp hother with hold' | hnew
      · exact hnone other hold'
      · obtain rfl := List.mem_singleton.mp hnew
        refine Bool.eq_false_iff.mpr fun hpost => ?_
        obtain ⟨hlate, hnopre⟩ := hjob.post hpost
        rcases hold with ⟨row, hrow, hrow'⟩ | hlate'
        · rw [hnopre row hrow] at hrow'
          cases hrow'
        · omega
  logged hsome := by
    cases hswap : isSwap job with
    | true => exact hjob.swap hswap
    | false =>
      refine h.logged (hsome.imp_left fun ⟨other, hother, hother'⟩ => ?_)
      rcases List.mem_append.mp hother with hold | hnew
      · exact ⟨other, hold, hother'⟩
      · obtain rfl := List.mem_singleton.mp hnew
        rw [hswap] at hother'
        cases hother'
  once := h.once
  committed := h.committed
  spent hlate other hother hpre := by
    rcases List.mem_append.mp hother with hold | hnew
    · exact h.spent hlate other hold hpre
    · obtain rfl := List.mem_singleton.mp hnew
      have := (hjob.pre hpre).1
      omega
  swaps := h.swaps
  early := h.early
  sent other := (h.sent other).trans (by rw [List.count_append]; omega)

theorem Attempting.crash (h : Attempting op minted begun unswapped logged jobs sent early late)
    (begun' : Prop) : Attempting op minted begun' unswapped logged [] [] [] late where
  kinds other hother := by cases hother
  begun other hother := by cases hother
  single := by simp
  exclusive hsome := by
    refine ⟨(h.exclusive (.inr ?_)).1, fun other hother => by cases hother⟩
    exact hsome.resolve_left fun ⟨_, hother, _⟩ => by cases hother
  logged hsome := h.logged (.inr (hsome.resolve_left fun ⟨_, hother, _⟩ => by cases hother))
  once := h.once
  committed := h.committed
  spent _ other hother := by cases hother
  swaps other hother := by cases hother
  early _ := Nat.le_refl _
  sent _ := Nat.le_refl _

theorem jobOk_commits {job : Job} (h : JobOk op none job) (fresh : List Proof) :
    JobOk op (some fresh) job := by
  cases job <;> simp only [JobOk, EventOk] at h ⊢ <;> first | exact h | simp at h
  exact ⟨h.1, fun proofs hproofs => absurd (h.2 proofs hproofs) (by simp)⟩

/-- The mint commits one of the requests that are out. -/
theorem Attempting.commits (h : Attempting op none begun unswapped logged jobs sent early late)
    (fresh : List Proof) :
    Attempting op (some fresh) begun unswapped logged jobs sent sent late where
  kinds other hother := jobOk_commits (h.kinds other hother) fresh
  begun := h.begun
  single := h.single
  exclusive := h.exclusive
  logged := h.logged
  once := h.once
  committed _ := Option.some_ne_none _
  spent hlate := absurd rfl (h.committed hlate)
  swaps := h.swaps
  early _ := Nat.le_refl _
  sent := h.sent

/-- A worker sends its request: a second one after the commit finds the first. -/
theorem Attempting.sends (h : Attempting op minted begun unswapped logged jobs sent early late)
    (hswap : isSwap row.2 = true) (hcount : sent.count row < jobs.count row) :
    Attempting op minted begun unswapped logged jobs (row :: sent) early
      (if minted = none then late else late + 1) := by
  have hrow : row ∈ jobs := List.count_pos_iff.mp (by omega)
  have hpre := isPre_of_isSwap hswap
  have halone := (h.pre hrow hpre).2
  have hone : jobs.count row ≤ 1 := by
    have hzero : (jobs.erase row).count row = 0 := List.count_eq_zero.mpr fun hmem => by
      have := (halone row hmem).1
      rw [hpre] at this
      cases this
    rw [List.count_erase_self] at hzero
    omega
  have hunsent : row ∉ sent := List.count_eq_zero.mp (by omega)
  have hlate : late = 0 := h.late_eq hrow hpre (.inl hunsent)
  have hearly : row ∉ early := List.count_eq_zero.mp (by have := h.early row; omega)
  have hothers : ∀ other ∈ jobs, isPre other.2 = true → other = row := by
    intro other hother hother'
    by_contra hne
    rw [(halone other ((List.mem_erase_of_ne hne).mpr hother)).1] at hother'
    cases hother'
  exact {
    kinds := h.kinds
    begun := h.begun
    single := h.single
    exclusive := fun _ => h.exclusive (.inl ⟨row, hrow, hpre⟩)
    logged := fun _ => h.logged (.inl ⟨row, hrow, hswap⟩)
    once := by split <;> omega
    committed := fun hpos => by
      split at hpos
      · omega
      · assumption
    spent := fun _ other hother hother' => by
      obtain rfl := hothers other hother hother'
      exact ⟨List.mem_cons_self, hearly⟩
    swaps := fun other hother => by
      rcases List.mem_cons.mp hother with rfl | hold
      · exact hswap
      · exact h.swaps other hold
    early := fun other => (h.early other).trans (by rw [List.count_cons]; omega)
    sent := fun other => by
      have := h.sent other
      rw [List.count_cons]
      split
      next heq =>
        obtain rfl : row = other := by simpa using heq
        omega
      · omega }

end

/-- What the log holds, which attempts are in flight, and whether the fresh proofs are credited. -/
structure Inv (account op : String) (t : Redeeming) : Prop where
  state : StateOk account op t.minted t.world.state
  jobs : Attempting op t.minted (Begun op t.world.state) (Unswapped account op t.world.state)
    (Logged account op t.world.state) t.world.jobs t.sent t.early t.late
  relay : ∀ event ∈ t.world.relay, EventOk t.minted event
  unminted : t.minted = none → t.credited = false
  money : ∀ proofs, t.minted = some proofs → (proofCs proofs).Nodup ∧
    (t.credited = true → Present t.world.state proofs ∧ proofs ≠ []) ∧
    (t.credited = false → Absent t.world.state proofs)

section
variable {t : Redeeming} {tag : String} {job : Job} {answer : Answer} {now : Nat} {out : Outcome}

theorem redeem_resume (hjob : (tag, job) ∈ t.world.jobs) (answer : Answer) (now : Nat) :
    redeem t (.act (.resume tag job answer now)) =
      { t with
        world := { t.world with jobs := t.world.jobs.erase (tag, job) }.after tag
          (resumeJob t.world.state answer now job)
        sent := t.sent.erase (tag, job)
        early := t.early.erase (tag, job)
        credited := t.credited || credits t.world (.resume tag job answer now) ||
          folds t.world (.resume tag job answer now) } := by
  simp [redeem, step, hjob, waiting, restarts]

/-- A section that touches no money. -/
theorem Inv.quiet (h : Inv account op t) {jobs sent early : List (String × Job)}
    {relay : List TokenEvent} (hstate : StateOk account op t.minted st)
    (hproofs : st.proofs = t.world.state.proofs) (hledger : st.ledger = t.world.state.ledger)
    (hjobs : Attempting op t.minted (Begun op st) (Unswapped account op st)
      (Logged account op st) jobs sent early t.late)
    (hrelay : ∀ event ∈ relay, EventOk t.minted event) :
    Inv account op { t with world := ⟨st, jobs, relay⟩, sent := sent, early := early } where
  state := hstate
  jobs := hjobs
  relay := hrelay
  unminted := h.unminted
  money proofs hminted := by
    simp only [absent_congr hproofs hledger, present_congr hproofs hledger]
    exact h.money proofs hminted

section

variable (h : Inv account op t) (hjob : (tag, job) ∈ t.world.jobs)
include h hjob

/-- A resumed job that touches no money leaves at most one job that may join the others. -/
theorem Inv.resumed (hout : resumeJob t.world.state answer now job = out)
    (hmoves : Moves account op t.minted stays t.world.state out.state)
    (hover : stays ∨ t.late = 0 ∧ ∀ row ∈ t.world.jobs.erase (tag, job), isPre row.2 = false)
    (hjobs : out.jobs = [] ∨ ∃ next, out.jobs = [next] ∧ Joins op t.minted (Begun op out.state) (Unswapped account op out.state) (Logged account op out.state) (t.world.jobs.erase (tag, job)) t.late next)
    (hpublished : ∀ event ∈ out.published, EventOk t.minted event)
    (hcredits : credits t.world (.resume tag job answer now) = false)
    (hfolds : folds t.world (.resume tag job answer now) = false) :
    Inv account op (redeem t (.act (.resume tag job answer now))) := by
  have hdone := (h.jobs.done (tag, job)).moves stays hover hmoves.begun hmoves.unswapped hmoves.logged
  rw [redeem_resume hjob, hout, hcredits, hfolds, Bool.or_false, Bool.or_false]
  refine h.quiet hmoves.state hmoves.proofs hmoves.ledger ?_ fun event hevent =>
    (List.mem_append.mp hevent).elim (h.relay event) (hpublished event)
  rcases hjobs with hnone | ⟨next, hone, hjoins⟩
  · simpa [World.after, hnone] using hdone
  · simpa [World.after, hone] using hdone.join next hjoins tag

/-- A job before the swap fails, or is followed by the next one. -/
theorem Inv.resumed_pre (hpre : isPre job = true) (hunsent : isSwap job = false)
    (hout : resumeJob t.world.state answer now job = out) (hpublished : out.published = [])
    (hnext : Moves account op t.minted False t.world.state out.state ∧ out.jobs = [] ∨ Moves account op t.minted True t.world.state out.state ∧ ∃ next, out.jobs = [next] ∧ isPre next = true ∧ JobOk op t.minted next ∧ (isSwap next = true → Logged account op out.state))
    :
    Inv account op (redeem t (.act (.resume tag job answer now))) := by
  have hlate : t.late = 0 := h.jobs.late_eq hjob hpre <| .inl fun hsent => by
    have := h.jobs.swaps _ hsent
    rw [hunsent] at this
    cases this
  obtain ⟨hunswapped, halone⟩ := h.jobs.pre hjob hpre
  have hbegun := h.jobs.begun _ hjob (isAttempt_of_isPre hpre)
  have hmoney : credits t.world (.resume tag job answer now) = false ∧
      folds t.world (.resume tag job answer now) = false := by
    cases job <;> first | exact ⟨rfl, rfl⟩ | cases hpre
  rcases hnext with ⟨hmoves, hnone⟩ | ⟨hmoves, next, hone, hpre', hkind, hlogged⟩
  · exact h.resumed hjob hout hmoves (.inr ⟨hlate, fun row hrow => (halone row hrow).1⟩)
      (.inl hnone) (by simp [hpublished]) hmoney.1 hmoney.2
  · refine h.resumed hjob hout hmoves (.inl trivial) (.inr ⟨next, hone, hkind,
      fun _ => hmoves.begun hbegun, fun _ => ⟨hlate, hmoves.unswapped trivial hunswapped, halone⟩,
      fun hpost => ?_, hlogged⟩) (by simp [hpublished]) hmoney.1 hmoney.2
    rw [not_isPost_of_isPre hpre'] at hpost
    cases hpost

/-- A job past the swap ends, or is followed by the next one. -/
theorem Inv.resumed_post (hpost : isPost job = true)
    (hout : resumeJob t.world.state answer now job = out)
    (hmoves : Moves account op t.minted False t.world.state out.state)
    (hnext : out.jobs = [] ∨ ∃ next, out.jobs = [next] ∧ isPost next = true ∧ JobOk op t.minted next)
    (hpublished : ∀ event ∈ out.published, EventOk t.minted event)
    (hfolds : folds t.world (.resume tag job answer now) = false) :
    Inv account op (redeem t (.act (.resume tag job answer now))) := by
  obtain ⟨hlate, hnone⟩ := h.jobs.post hjob hpost
  have hbegun := h.jobs.begun _ hjob (by simp [isAttempt, hpost])
  have hnone' : ∀ row ∈ t.world.jobs.erase (tag, job), isPre row.2 = false :=
    fun row hrow => hnone row (List.mem_of_mem_erase hrow)
  have hcredits : credits t.world (.resume tag job answer now) = false := by
    cases job <;> first | rfl | cases hpost
  refine h.resumed hjob hout hmoves (.inr ⟨hlate, hnone'⟩) (hnext.imp_right ?_) hpublished hcredits
    hfolds
  rintro ⟨next, hone, hpost', hkind⟩
  have hpre' : isPre next = false := Bool.eq_false_iff.mpr fun hpre => by
    rw [not_isPost_of_isPre hpre] at hpost'
    cases hpost'
  refine ⟨next, hone, hkind, fun _ => hmoves.begun hbegun, fun hpre => ?_,
    fun _ => ⟨hlate, hnone'⟩, fun hswap => ?_⟩
  · rw [hpre'] at hpre
    cases hpre
  · have hpre := isPre_of_isSwap hswap
    rw [hpre'] at hpre
    cases hpre

end

theorem Inv.redeemRun (h : Inv account op t) (hjob : (tag, .redeemRun op) ∈ t.world.jobs)
    (answer : Answer) (now : Nat) :
    Inv account op (redeem t (.act (.resume tag (.redeemRun op) answer now))) := by
  have hfail : (∀ nutzap locks, answer ≠ .nutzap nutzap locks) →
      WalletRedeem.redeemRun t.world.state op answer =
        .stay (redeemFail t.world.state op ⟨"", "", sat, 0⟩) [] := fun hother => by
    unfold WalletRedeem.redeemRun
    split
    next nutzap locks => exact absurd rfl (hother nutzap locks)
    · rfl
  by_cases hanswer : ∃ nutzap locks, answer = .nutzap nutzap locks
  · obtain ⟨nutzap, locks, rfl⟩ := hanswer
    have hnoted := h.state.note (f := noteSender nutzap.senderPubkey) fun _ => ⟨rfl, rfl, rfl⟩
    have hrun : WalletRedeem.redeemRun t.world.state op (.nutzap nutzap locks) =
        if (t.world.state.editJournal fun j =>
            j.edit op (noteSender nutzap.senderPubkey)).ledger.isNutzapRedeemed nutzap.eventId then
          .stay (redeemFail (t.world.state.editJournal fun j =>
            j.edit op (noteSender nutzap.senderPubkey)) op (inputOf nutzap)) []
        else .stay (t.world.state.editJournal fun j => j.edit op (noteSender nutzap.senderPubkey))
          [.redeemKeys op nutzap locks] := rfl
    split at hrun
    · exact h.resumed_pre hjob rfl rfl hrun rfl (.inl
        ⟨(hnoted.mono False.elim).trans (hnoted.state.redeemFail _), rfl⟩)
    · exact h.resumed_pre hjob rfl rfl hrun rfl
        (.inr ⟨hnoted, _, rfl, rfl, rfl, fun hswap => by cases hswap⟩)
  · exact h.resumed_pre hjob rfl rfl
      (hfail fun nutzap locks heq => hanswer ⟨nutzap, locks, heq⟩) rfl
      (.inl ⟨h.state.redeemFail _, rfl⟩)

variable {nutzap : ReceivedNutZap} {fresh : List Proof}

section

variable (h : Inv account op t)
include h

theorem Inv.redeemKeys {locks : List (Option String)}
    (hjob : (tag, .redeemKeys op nutzap locks) ∈ t.world.jobs) (answer : Answer) (now : Nat) :
    Inv account op (redeem t (.act (.resume tag (.redeemKeys op nutzap locks) answer now))) := by
  have hkeys : WalletRedeem.redeemKeys t.world.state op nutzap locks =
        .stay t.world.state [.redeemReserve op nutzap] ∨
      WalletRedeem.redeemKeys t.world.state op nutzap locks =
        .stay (redeemFail t.world.state op (inputOf nutzap)) [] := by
    simp only [WalletRedeem.redeemKeys]
    split
    · exact .inl rfl
    · exact .inr rfl
  rcases hkeys with hout | hout
  · exact h.resumed_pre hjob rfl rfl hout rfl
      (.inr ⟨.refl h.state, _, rfl, rfl, rfl, fun hswap => by cases hswap⟩)
  · exact h.resumed_pre hjob rfl rfl hout rfl (.inl ⟨h.state.redeemFail _, rfl⟩)

theorem Inv.redeemReserve (hjob : (tag, .redeemReserve op nutzap) ∈ t.world.jobs) (answer : Answer)
    (now : Nat) :
    Inv account op (redeem t (.act (.resume tag (.redeemReserve op nutzap) answer now))) := by
  have hrecorded := h.state.recordConsumedInput (inputOf nutzap)
  cases ht : (t.world.state.recordConsumedInput op (inputOf nutzap)).transition op .mintPending with
  | error =>
    have hout : resumeJob t.world.state answer now (.redeemReserve op nutzap) =
        .stay (t.world.state.recordConsumedInput op (inputOf nutzap)) [.fail op] := by
      simp only [resumeJob, WalletRedeem.redeemReserve, ht]
    exact h.resumed_pre hjob rfl rfl hout rfl
      (.inr ⟨hrecorded, _, rfl, rfl, rfl, fun hswap => by cases hswap⟩)
  | ok pending =>
    obtain ⟨hmoved, hbegun, hlogged⟩ := hrecorded.state.transition rfl ht
    have hwritten := hmoved.state.persistPayload (hmoved.state.active hbegun) hlogged
      (.redeem nutzap nutzap.eventId nutzap.mintUrl none)
      ⟨_, _, _, _, rfl, fun proofs hproofs => by cases hproofs⟩
    have hplain : ∀ nutzap' event mint fresh,
        CashuWalPayload.redeem nutzap nutzap.eventId nutzap.mintUrl none =
          .redeem nutzap' event mint fresh → fresh = none := by
      rintro _ _ _ _ heq
      cases heq
      rfl
    have hout : resumeJob t.world.state answer now (.redeemReserve op nutzap) =
        .stay (pending.persistPayload op (.redeem nutzap nutzap.eventId nutzap.mintUrl none))
          [.redeemSwap op nutzap] := by
      simp only [resumeJob, WalletRedeem.redeemReserve, ht]
    exact h.resumed_pre hjob rfl rfl hout rfl (.inr
      ⟨(hrecorded.trans hmoved).trans (hwritten.mono fun _ => hplain), _, rfl, rfl, rfl,
        fun _ => hwritten.logged hplain hlogged⟩)

/-- The swap is answered: a request that came too late is left as it is. -/
theorem Inv.redeemSwap (hjob : (tag, .redeemSwap op nutzap) ∈ t.world.jobs)
    (hanswer : MintAnswers t (tag, .redeemSwap op nutzap) nutzap answer) (now : Nat) :
    Inv account op (redeem t (.act (.resume tag (.redeemSwap op nutzap) answer now))) := by
  obtain ⟨-, halone⟩ := h.jobs.pre hjob rfl
  have hnopre : ∀ row ∈ t.world.jobs.erase (tag, .redeemSwap op nutzap), isPre row.2 = false :=
    fun row hrow => (halone row hrow).1
  have hbegun := h.jobs.begun _ hjob rfl
  have hunknown : resumeJob t.world.state answer now (.redeemSwap op nutzap) =
        .stay (t.world.state.advance op .unknown) [] →
      Inv account op (redeem t (.act (.resume tag (.redeemSwap op nutzap) answer now))) :=
    fun hout => h.resumed hjob hout (h.state.advance .unknown) (.inl rfl) (.inl rfl)
      (fun event hevent => by cases hevent) rfl rfl
  have hfailed : (tag, .redeemSwap op nutzap) ∉ t.sent →
      resumeJob t.world.state answer now (.redeemSwap op nutzap) =
        .stay (t.world.state.advance op .failed) [] →
      Inv account op (redeem t (.act (.resume tag (.redeemSwap op nutzap) answer now))) :=
    fun hunsent hout => h.resumed hjob hout ((h.state.advance .failed).mono False.elim)
      (.inr ⟨h.jobs.late_eq hjob rfl (.inl hunsent), hnopre⟩) (.inl rfl)
      (fun event hevent => by cases hevent) rfl rfl
  cases answer with
  | proofs fresh =>
    obtain ⟨hearly, hminted⟩ := hanswer
    have hlate := h.jobs.late_eq hjob rfl (.inr hearly)
    have hwritten := (h.state.persistPayload (h.state.active hbegun)
      (h.jobs.logged (.inl ⟨_, hjob, rfl⟩))
      (.redeem nutzap nutzap.eventId nutzap.mintUrl (some fresh))
      ⟨_, _, _, _, rfl, fun proofs hproofs => Option.some.inj hproofs ▸ hminted⟩).mono False.elim
    exact h.resumed hjob rfl hwritten (.inr ⟨hlate, hnopre⟩)
      (.inr ⟨_, rfl, ⟨rfl, hminted⟩, fun _ => hwritten.begun hbegun, (fun hpre => by cases hpre),
        fun _ => ⟨hlate, hnopre⟩, fun hswap => by cases hswap⟩)
      (fun event hevent => by cases hevent) rfl rfl
  | feePpk inputFeePpk =>
    by_cases hfee : nutzap.amountSats - computeFee nutzap.proofs.length inputFeePpk = 0
    · exact hfailed (fun hsent => hanswer hsent hfee) (if_pos hfee)
    · exact hunknown (if_neg hfee)
  | invalid => exact hfailed hanswer rfl
  | _ => exact hunknown rfl

theorem Inv.fail (hjob : (tag, .fail op) ∈ t.world.jobs) (answer : Answer) (now : Nat) :
    Inv account op (redeem t (.act (.resume tag (.fail op) answer now))) :=
  h.resumed_pre hjob rfl rfl rfl rfl (.inl ⟨(h.state.advance .failed).mono False.elim, rfl⟩)

theorem Inv.redeemFinish (hjob : (tag, .redeemFinish op nutzap fresh) ∈ t.world.jobs)
    (hminted : t.minted = some fresh) (answer : Answer) (now : Nat) :
    Inv account op (redeem t (.act (.resume tag (.redeemFinish op nutzap fresh) answer now))) :=
  h.resumed_post hjob rfl rfl ((h.state.advance .mintSettled).mono False.elim)
    (.inr ⟨_, rfl, rfl, rfl, hminted⟩) (fun event hevent => by cases hevent) rfl

theorem Inv.redeemTokenSigning (hjob : (tag, .redeemTokenSigning op nutzap fresh) ∈ t.world.jobs)
    (hminted : t.minted = some fresh) (answer : Answer) (now : Nat) :
    Inv account op
      (redeem t (.act (.resume tag (.redeemTokenSigning op nutzap fresh) answer now))) := by
  cases answer with
  | signed =>
    refine h.resumed_post hjob rfl rfl ((h.state.advance .publishPending).mono False.elim)
      (.inr ⟨_, rfl, rfl, rfl, hminted⟩) (fun event hevent => ?_) rfl
    obtain rfl := List.mem_singleton.mp hevent
    exact ⟨hminted, rfl⟩
  | _ =>
    exact h.resumed_post hjob rfl rfl (.refl h.state) (.inl rfl)
      (fun event hevent => by cases hevent) rfl

section

variable {tokenEventId : String}
  (hjob : (tag, .redeemHistorySigning op nutzap fresh tokenEventId) ∈ t.world.jobs)
  (hminted : t.minted = some fresh)
include hjob hminted

/-- The fold, while none of the fresh proofs is held. -/
theorem Inv.fold (eventId : String) (now : Nat)
    (hok : FoldUncredited t (.act (.resume tag (.redeemHistorySigning op nutzap fresh tokenEventId) (.signed eventId) now)))
    :
    Inv account op (redeem t (.act (.resume tag
      (.redeemHistorySigning op nutzap fresh tokenEventId) (.signed eventId) now))) := by
  obtain ⟨hlate, hnone⟩ := h.jobs.post hjob rfl
  obtain ⟨hnodup, hcredited, huncredited⟩ := h.money fresh hminted
  let mint := canonicalizeMintUrl nutzap.mintUrl
  let credited := ((t.world.state.applyFact (.tokenAdded tokenEventId mint sat
    (proofAtoms fresh))).applyFact (.nutzapRedeemed nutzap.eventId (msatOf nutzap.amountSats)
      nutzap.senderPubkey)).addProofs (some tokenEventId) mint fresh
  have hstate : StateOk account op t.minted credited := h.state.congr rfl rfl rfl rfl
  have hmoves := (hstate.advance .settled).mono False.elim
  have hfolds : folds t.world (.resume tag
      (.redeemHistorySigning op nutzap fresh tokenEventId) (.signed eventId) now) =
        !fresh.isEmpty := by simp [folds, hjob]
  have hnow : t.credited = false → Present (credited.advance op .settled) fresh := by
    intro hnone
    have hfirst : Present ((t.world.state.applyFact (.tokenAdded tokenEventId mint sat
        (proofAtoms fresh))).addProofs (some tokenEventId) mint fresh) fresh :=
      credit_present hnodup (huncredited hnone) rfl rfl
    exact (present_congr hmoves.proofs hmoves.ledger).mpr fun c hc => hfirst c hc
  have hjobs : Attempting op t.minted (Begun op (credited.advance op .settled))
      (Unswapped account op (credited.advance op .settled))
      (Logged account op (credited.advance op .settled))
      (t.world.jobs.erase (tag, .redeemHistorySigning op nutzap fresh tokenEventId))
      (t.sent.erase (tag, .redeemHistorySigning op nutzap fresh tokenEventId))
      (t.early.erase (tag, .redeemHistorySigning op nutzap fresh tokenEventId)) t.late :=
    (h.jobs.done _).moves False (.inr ⟨hlate, fun row hrow => hnone row (List.mem_of_mem_erase hrow)⟩)
      hmoves.begun False.elim False.elim
  have hout : resumeJob t.world.state (.signed eventId) now
      (.redeemHistorySigning op nutzap fresh tokenEventId) =
        .stay (credited.advance op .settled) [] := rfl
  rw [redeem_resume hjob, hfolds, hout]
  refine ⟨hmoves.state, by simpa [World.after, Outcome.stay] using hjobs,
    by simpa [World.after, Outcome.stay] using h.relay, fun hno => ?_, fun other hother => ?_⟩
  · rw [hminted] at hno
    cases hno
  · obtain rfl : fresh = other := Option.eq_some_unique hminted hother
    refine ⟨hnodup, fun htrue => ?_, fun hfalse => ?_⟩
    · cases hempty : fresh with
      | nil =>
        rw [hempty] at htrue
        simp [credits] at htrue
        exact absurd hempty (hcredited htrue).2
      | cons =>
        rw [← hempty]
        exact ⟨hnow (hok (by rw [hfolds, hempty]; rfl)), by simp [hempty]⟩
    · have hempty : fresh = [] := by simpa using (Bool.or_eq_false_iff.mp hfalse).2
      intro c hc
      simp [hempty, proofCs] at hc

theorem Inv.redeemHistorySigning
    (hok : FoldUncredited t (.act (.resume tag (.redeemHistorySigning op nutzap fresh tokenEventId) answer now)))
    :
    Inv account op (redeem t (.act (.resume tag
      (.redeemHistorySigning op nutzap fresh tokenEventId) answer now))) := by
  cases answer with
  | signed eventId => exact h.fold hjob hminted eventId now hok
  | _ =>
    exact h.resumed_post hjob rfl rfl (.refl h.state) (.inl rfl)
      (fun event hevent => by cases hevent) rfl

end

/-- A restart either finishes the redeem, leaves it as it is, or drops it as the last attempt. -/
theorem Inv.redeemResume {fresh : Option (List Proof)}
    (hjob : (tag, .redeemResume op nutzap fresh) ∈ t.world.jobs)
    (hminted : ∀ proofs, fresh = some proofs → t.minted = some proofs)
    (halone : DropsAlone t (.act (.resume tag (.redeemResume op nutzap fresh) answer now))) :
    Inv account op (redeem t (.act (.resume tag (.redeemResume op nutzap fresh) answer now))) := by
  cases fresh with
  | some proofs =>
    exact h.resumed_post hjob rfl rfl (.refl h.state)
      (.inr ⟨_, rfl, rfl, rfl, hminted proofs rfl⟩) (fun event hevent => by cases hevent) rfl
  | none =>
    have hstays : ∀ st, resumeJob t.world.state answer now (.redeemResume op nutzap none) =
          .stay st [] → Moves account op t.minted True t.world.state st →
        Inv account op (redeem t (.act (.resume tag (.redeemResume op nutzap none) answer now))) :=
      fun st hout hmoves => h.resumed hjob hout hmoves (.inl trivial) (.inl rfl)
        (fun event hevent => by cases hevent) rfl rfl
    by_cases hanswer : ∃ states, answer = .spendStates states
    · obtain ⟨states, rfl⟩ := hanswer
      by_cases hlength : states.length = nutzap.proofs.length
      · by_cases hunspent : states.all (· = .unspent) = true
        · obtain ⟨hunminted, hnone⟩ := halone (by simp [drops, hjob, hlength, hunspent])
          have hlate : t.late = 0 := by
            by_contra hpos
            exact h.jobs.committed (Nat.pos_of_ne_zero hpos) hunminted
          have hout : resumeJob t.world.state (.spendStates states) now
              (.redeemResume op nutzap none) = .stay (dropRedeem t.world.state op) [] := by
            simp only [resumeJob, WalletRedeem.redeemResume]
            rw [if_neg (not_not.mpr hlength), if_pos hunspent]
          have hdropped := h.quiet h.state.dropRedeem (by simp [WalletRedeem.dropRedeem])
            (by simp [WalletRedeem.dropRedeem]) ((h.jobs.done _).over hlate hnone) h.relay
          rw [redeem_resume hjob, hout]
          simpa [World.after, Outcome.stay, credits, folds] using hdropped
        · refine hstays _ ?_ ((h.state.advance .unknown).mono fun _ => rfl)
          simp only [resumeJob, WalletRedeem.redeemResume]
          rw [if_neg (not_not.mpr hlength), if_neg hunspent]
      · exact hstays _ (if_pos hlength) (.refl h.state)
    · refine hstays _ ?_ (.refl h.state)
      cases answer with
      | spendStates states => exact absurd ⟨states, rfl⟩ hanswer
      | _ => rfl

theorem Inv.ingestToken {event : TokenEvent} (hjob : (tag, .ingestToken event) ∈ t.world.jobs)
    (hevent : EventOk t.minted event) :
    Inv account op (redeem t (.act (.resume tag (.ingestToken event) answer now))) := by
  obtain ⟨hminted, hdel⟩ := hevent
  obtain ⟨hnodup, hcredited, huncredited⟩ := h.money event.proofs hminted
  by_cases hskip : alreadyKnown t.world.state event = true ∨ freshProofs t.world.state event = []
  · have hcredits : credits t.world (.resume tag (.ingestToken event) answer now) = false := by
      rcases hskip with hknown | hheld
      · simp [credits, hknown]
      · simp [credits, hheld]
    exact h.resumed hjob (ingestToken_skips hdel hskip) (.refl h.state) (.inl trivial) (.inl rfl)
      (fun other hother => by cases hother) hcredits rfl
  · obtain ⟨hunknown, hfresh⟩ := not_or.mp hskip
    have hcases : Absent t.world.state event.proofs ∨ Present t.world.state event.proofs := by
      cases hflag : t.credited with
      | true => exact .inr (hcredited hflag).1
      | false => exact .inl (huncredited hflag)
    obtain ⟨-, hsome, credited, hout, hnow, hlog, hactive, hjournal, hdeposits⟩ :=
      ingestToken_credits hdel (Bool.eq_false_iff.mpr hunknown) hfresh hnodup hcases
    have hcredits : credits t.world (.resume tag (.ingestToken event) answer now) = true := by
      simp [credits, hjob, Bool.eq_false_iff.mpr hunknown, hfresh]
    have hjobs : Attempting op t.minted (Begun op credited) (Unswapped account op credited)
        (Logged account op credited) (t.world.jobs.erase (tag, .ingestToken event))
        (t.sent.erase (tag, .ingestToken event)) (t.early.erase (tag, .ingestToken event)) t.late :=
      (h.jobs.done _).moves True (.inl trivial) (fun hbegun => by rwa [Begun, hjournal])
        (fun _ hunswapped => unswapped_congr hunswapped hlog)
        fun _ hlogged => logged_congr hlogged hlog
    rw [redeem_resume hjob, hcredits, resumeJob, hout]
    refine ⟨h.state.congr hlog hactive hjournal hdeposits, hjobs.join .spawnDebounced (.plain trivial rfl) tag, ?_,
      fun hno => ?_, fun other hother => ?_⟩
    · simpa [World.after, Outcome.stay] using h.relay
    · rw [hminted] at hno
      cases hno
    · obtain rfl : event.proofs = other := Option.eq_some_unique hminted hother
      exact ⟨hnodup, fun _ => ⟨hnow, hsome⟩, fun hfalse => by simp at hfalse⟩

end

/-- Loading the wallet does not touch the operation. -/
theorem moves_ingestConfig (h : StateOk account op minted st) (config : WalletConfig) :
    Moves account op minted True st (ingestWalletConfig st config) := by
  unfold ingestWalletConfig
  split
  · exact .refl h
  · exact .of_congr h rfl rfl rfl rfl rfl rfl

theorem Inv.resume (h : Inv account op t) (hjob : (tag, job) ∈ t.world.jobs)
    {eventId : String} (hdom : RedeemingAct account eventId t (.act (.resume tag job answer now)))
    (halone : DropsAlone t (.act (.resume tag job answer now)))
    (hok : FoldUncredited t (.act (.resume tag job answer now))) :
    Inv account op (redeem t (.act (.resume tag job answer now))) := by
  obtain ⟨hkind, hanswer⟩ := hdom
  have hjobOk := h.jobs.kinds _ hjob
  cases job with
  | fail op' =>
    obtain rfl : op' = op := hjobOk
    exact h.fail hjob answer now
  | redeemRun op' =>
    obtain rfl : op' = op := hjobOk
    exact h.redeemRun hjob answer now
  | redeemKeys op' =>
    obtain rfl : op' = op := hjobOk
    exact h.redeemKeys hjob answer now
  | redeemReserve op' =>
    obtain rfl : op' = op := hjobOk
    exact h.redeemReserve hjob answer now
  | redeemSwap op' nutzap =>
    obtain rfl : op' = op := hjobOk
    exact h.redeemSwap hjob (hanswer nutzap rfl) now
  | redeemFinish =>
    obtain ⟨rfl, hminted⟩ := hjobOk
    exact h.redeemFinish hjob hminted answer now
  | redeemTokenSigning =>
    obtain ⟨rfl, hminted⟩ := hjobOk
    exact h.redeemTokenSigning hjob hminted answer now
  | redeemHistorySigning =>
    obtain ⟨rfl, hminted⟩ := hjobOk
    exact h.redeemHistorySigning hjob hminted hok
  | redeemResume =>
    obtain ⟨rfl, hminted⟩ := hjobOk
    exact h.redeemResume hjob hminted halone
  | ingestToken => exact h.ingestToken hjob hjobOk
  | ingestConfig config =>
    exact h.resumed hjob rfl (moves_ingestConfig h.state config) (.inl trivial) (.inl rfl)
      (fun event hevent => by cases hevent) rfl rfl
  | _ => cases hkind

theorem redeem_plain {act : Act} (hwaiting : ∀ requests, waiting requests act = requests)
    (hcredits : credits t.world act = false) (hfolds : folds t.world act = false)
    (hrestarts : restarts act = false) :
    redeem t (.act act) = { t with world := step t.world act } := by
  simp [redeem, hwaiting, hcredits, hfolds, hrestarts]

/-- A section that no job runs leaves at most one job beside the others. -/
theorem Inv.started (h : Inv account op t) (out : Outcome)
    (hmoves : Moves account op t.minted True t.world.state out.state)
    (hjobs : out.jobs = [] ∨ ∃ next, out.jobs = [next] ∧ Joins op t.minted
      (Begun op out.state) (Unswapped account op out.state) (Logged account op out.state)
      t.world.jobs t.late next)
    (hpublished : out.published = []) (tag : String) :
    Inv account op { t with world := t.world.after tag out } := by
  have hmoved := h.jobs.moves True (.inl trivial) hmoves.begun hmoves.unswapped hmoves.logged
  refine h.quiet hmoves.state hmoves.proofs hmoves.ledger ?_
    (by simpa [hpublished] using h.relay)
  rcases hjobs with hnone | ⟨next, hone, hjoins⟩
  · simpa [hnone] using hmoved
  · simpa [hone] using hmoved.join next hjoins tag

/-- A redeem begins only after everything of an earlier one is over. -/
theorem Inv.startRedeem (h : Inv account ("redeem-" ++ eventId) t)
    (hactive : t.world.state.walAccount = some account) (tag : String) (now : Nat) :
    Inv account ("redeem-" ++ eventId) (redeem t (.act (.startRedeem tag eventId now))) := by
  rw [redeem_plain (fun _ => rfl) rfl rfl rfl]
  simp only [WalletSystem.step, startOperation]
  split
  · exact h.started (.stay _ []) (.refl h.state) (.inl rfl) rfl tag
  next st' hbegin =>
    obtain ⟨hmoves, hbegun⟩ := h.state.begin hactive hbegin
    have hnew := (beginOperationAt_row hbegin).1
    have hnone : ∀ row ∈ t.world.jobs, isAttempt row.2 = false := fun row hrow =>
      Bool.eq_false_iff.mpr fun hattempt => h.jobs.begun row hrow hattempt hnew
    have hunlogged : ¬ Logged account ("redeem-" ++ eventId) t.world.state := by
      intro hlogged
      have hshadow : Shadow account (fun _ => False) t.world.state := by
        refine h.state.session.resolve_right fun hcrashed => ?_
        rw [hcrashed.inactive] at hactive
        cases hactive
      refine (logged_iff hshadow).mp hlogged ?_
      rw [openRow, hnew]
      rfl
    have hlate : t.late = 0 := by
      by_contra hpos
      exact hunlogged (h.jobs.logged (.inr (Nat.pos_of_ne_zero hpos)))
    refine h.started (.stay st' _) hmoves (.inr ⟨.redeemRun _, rfl, rfl, fun _ => hbegun, fun _ => ⟨hlate,
      hmoves.unswapped trivial (h.state.unswapped hunlogged), fun row hrow => ?_⟩,
      (fun hpost => by cases hpost), fun hswap => by cases hswap⟩) rfl tag
    have := hnone row hrow
    simp only [isAttempt, Bool.or_eq_false_iff] at this
    exact this.1

theorem Inv.restore (h : Inv account op t) :
    Inv account op (redeem t (.act (.restore account))) := by
  obtain ⟨hmoves, hresume⟩ := h.state.restore
  rw [redeem_plain (fun _ => rfl) rfl rfl rfl]
  refine h.started (.stay _ _) hmoves (hresume.imp_right ?_) rfl account
  rintro ⟨nutzap, fresh, hone, hminted, hbegun, hfresh⟩
  refine ⟨_, hone, ⟨rfl, hminted⟩, fun _ => hbegun, fun hpre => ?_, fun hpost => ?_,
    fun hswap => ?_⟩
  · cases hpre
  · cases fresh with
    | none => cases hpost
    | some proofs =>
      -- fresh proofs in the log: no attempt is before the swap, and no request came too late
      have hnone : ¬ ((∃ row ∈ t.world.jobs, isPre row.2 = true) ∨ 0 < t.late) := fun hsome => by
        have := hfresh (h.jobs.exclusive hsome).1
        cases this
      rw [not_or] at hnone
      refine ⟨Nat.eq_zero_of_not_pos hnone.2, fun row hrow => Bool.eq_false_iff.mpr fun hpre => ?_⟩
      exact hnone.1 ⟨row, hrow, hpre⟩
  · cases hswap

theorem Inv.crash (h : Inv account op t) : Inv account op (redeem t (.act .crash)) := by
  have hcrash : redeem t (.act .crash) =
      { t with
        world := { t.world with state := .new t.world.state.walStore, jobs := [] }
        sent := []
        early := []
        credited := false } := by
    simp [redeem, WalletSystem.step, waiting, restarts]
  rw [hcrash]
  refine ⟨h.state.crash, ?_, h.relay, fun _ => rfl, fun proofs hminted => ?_⟩
  · exact (h.jobs.crash _).moves True (.inl trivial) id
      (fun _ hunswapped => unswapped_congr hunswapped rfl) fun _ hlogged => logged_congr hlogged rfl
  · exact ⟨(h.money proofs hminted).1, (fun htrue => by cases htrue), fun _ c _ => ⟨rfl, rfl⟩⟩

theorem Inv.commits (h : Inv account op t) (fresh : List Proof)
    (hfresh : t.minted = none → (proofCs fresh).Nodup ∧ ∀ c ∈ proofCs fresh,
      c ∉ storedCs t.world.state.proofs ∧ liveCount t.world.state.ledger c = 0) :
    Inv account op (redeem t (.commits fresh)) := by
  cases hminted : t.minted with
  | some =>
    have hsame : redeem t (.commits fresh) = t := by simp [redeem, hminted]
    rwa [hsame]
  | none =>
    have hcommit : redeem t (.commits fresh) = { t with minted := some fresh, early := t.sent } := by
      simp [redeem, hminted]
    obtain ⟨hnodup, habsent⟩ := hfresh hminted
    have hstate := h.state
    have hjobs := h.jobs
    rw [hminted] at hstate hjobs
    rw [hcommit]
    refine ⟨⟨hstate.saga.mono ?_ id, hstate.session, hstate.paired, hstate.deposits⟩,
      hjobs.commits fresh, fun event hevent => ?_, (fun hno => by cases hno), fun proofs hproofs => ?_⟩
    · rintro payload ⟨nutzap, event, mint, swapped, rfl, hswapped⟩
      exact ⟨nutzap, event, mint, swapped, rfl, fun proofs hproofs => by
        cases hswapped proofs hproofs⟩
    · have := (h.relay event hevent).1
      rw [hminted] at this
      cases this
    · obtain rfl : fresh = proofs := Option.some.inj hproofs
      refine ⟨hnodup, fun htrue => ?_, fun _ c hc => ?_⟩
      · have := h.unminted hminted
        simp [this] at htrue
      · exact ⟨List.count_eq_zero.mpr (habsent c hc).1, (habsent c hc).2⟩

theorem Inv.sends (h : Inv account op t) (tag : String) (job : Job) :
    Inv account op (redeem t (.sends tag job)) := by
  by_cases hsend : isSwap job = true ∧ t.sent.count (tag, job) < t.world.jobs.count (tag, job)
  · have hsent : redeem t (.sends tag job) = { t with
        sent := (tag, job) :: t.sent
        late := if t.minted = none then t.late else t.late + 1 } := if_pos hsend
    rw [hsent]
    exact ⟨h.state, h.jobs.sends hsend.1 hsend.2, h.relay, h.unminted, h.money⟩
  · have hsame : redeem t (.sends tag job) = t := if_neg hsend
    rwa [hsame]

/-- Resuming a job that is not there does nothing. -/
theorem redeem_absent (h : Inv account op t) (hjob : (tag, job) ∉ t.world.jobs) (answer : Answer)
    (now : Nat) : redeem t (.act (.resume tag job answer now)) = t := by
  have hsent : (tag, job) ∉ t.sent := fun hmem => by
    have := h.jobs.sent (tag, job)
    have := List.count_pos_iff.mpr hmem
    exact hjob (List.count_pos_iff.mp (by omega))
  have hearly : (tag, job) ∉ t.early := fun hmem => by
    have := h.jobs.early (tag, job)
    have := List.count_pos_iff.mpr hmem
    exact hsent (List.count_pos_iff.mp (by omega))
  have hcredits : credits t.world (.resume tag job answer now) = false := by
    cases job <;> simp [credits, hjob]
  have hfolds : folds t.world (.resume tag job answer now) = false := by
    simp only [folds]
    split
    next heq =>
      obtain ⟨rfl, rfl, -⟩ := Act.resume.inj heq
      simp [hjob]
    · rfl
  simp [redeem, WalletSystem.step, hjob, waiting, restarts, hcredits, hfolds,
    List.erase_of_not_mem hsent, List.erase_of_not_mem hearly]

theorem Inv.step {eventId : String} (h : Inv account ("redeem-" ++ eventId) t) {act : RedeemAct}
    (hdom : RedeemingAct account eventId t act ∧ DropsAlone t act) (hok : FoldUncredited t act) :
    Inv account ("redeem-" ++ eventId) (redeem t act) := by
  obtain ⟨hact, halone⟩ := hdom
  cases act with
  | sends tag job => exact h.sends tag job
  | commits fresh => exact h.commits fresh hact
  | act act =>
    cases act with
    | startRedeem tag _ now =>
      obtain ⟨rfl, hactive⟩ := hact
      exact h.startRedeem hactive tag now
    | resume tag job =>
      by_cases hjob : (tag, job) ∈ t.world.jobs
      · exact h.resume hjob hact halone hok
      · rwa [redeem_absent h hjob]
    | observe tag event =>
      rw [redeem_plain (fun _ => rfl) rfl rfl rfl]
      have hsettle : settleDepositOnIngestedToken t.world.state event.id = t.world.state := by
        simp [settleDepositOnIngestedToken, h.state.deposits]
      simp only [WalletSystem.step, hsettle]
      exact h.started (.stay _ _) (.refl h.state)
        (.inr ⟨.ingestToken event, rfl, .plain (h.relay event hact) rfl⟩) rfl tag
    | observeConfig tag config =>
      rw [redeem_plain (fun _ => rfl) rfl rfl rfl]
      exact h.started (.stay _ _) (.refl h.state)
        (.inr ⟨.ingestConfig config, rfl, .plain trivial rfl⟩) rfl tag
    | restore account' =>
      obtain rfl : account' = account := hact
      exact h.restore
    | crash => exact h.crash
    | _ => cases hact

theorem Inv.redeemedOnce (h : Inv account op t) : RedeemedOnce t := by
  refine ⟨fun proofs hminted c hc => ?_, h.jobs.once⟩
  obtain ⟨-, hcredited, huncredited⟩ := h.money proofs hminted
  cases hflag : t.credited with
  | true =>
    have := (hcredited hflag).1 c hc
    omega
  | false =>
    have := huncredited hflag c hc
    omega

/-- A fold after the fresh proofs were credited holds each of them twice. -/
theorem Inv.fold_needs (h : Inv account op t) {act : RedeemAct}
    (hgood : RedeemedOnce (redeem t act)) : FoldUncredited t act := by
  cases act with
  | sends | commits => trivial
  | act =>
    intro hfolds
    by_contra hcredited
    simp only [folds] at hfolds
    split at hfolds
    next tag op' nutzap fresh tokenEventId eventId now =>
      simp only [Bool.and_eq_true, decide_eq_true_eq] at hfolds
      obtain ⟨rfl, hminted⟩ := h.jobs.kinds _ hfolds.1
      obtain ⟨hpresent, hsome⟩ := (h.money fresh hminted).2.1 (by simpa using hcredited)
      obtain ⟨p, hp⟩ := List.exists_mem_of_ne_nil _ hsome
      have hc : p.c ∈ proofCs fresh := List.mem_map_of_mem hp
      have htwice := (hgood.1 fresh hminted p.c hc).1
      have hproofs : (redeem t (.act (.resume tag
          (.redeemHistorySigning op' nutzap fresh tokenEventId)
            (.signed eventId) now))).world.state.proofs =
          t.world.state.proofs ++ attach (some tokenEventId) (canonicalizeMintUrl nutzap.mintUrl)
            fresh := by
        rw [redeem_resume hfolds.1]
        simp [World.after, resumeJob, WalletRedeem.redeemHistorySigning, foldRedeem, Outcome.stay,
          CashuWalletState.addProofs, CashuWalletState.applyFact]
      rw [hproofs, storedCs_append, storedCs_attach, List.count_append] at htwice
      have hone := (hpresent p.c hc).1
      have hmore := List.count_pos_iff.mpr hc
      omega
    · cases hfolds

end

/-- A wallet before any redeem: it has its mints, its key pair and what it held before. -/
def opened (account : String) (mints : List String) (pubkeyHex privkey : Option String)
    (held : List StoredProof) (ledger : WalletDerivedState) : Redeeming where
  world :=
    { state :=
        { CashuWalletState.new (some .empty) with
          mints := mints
          cashuPubkeyHex := pubkeyHex
          cashuPrivkey := privkey
          proofs := held
          ledger := ledger
          walAccount := some account }
      jobs := []
      relay := [] }
  sent := []
  minted := none
  early := []
  late := 0
  credited := false

theorem opened_inv (account op : String) (mints : List String) (pubkeyHex privkey : Option String)
    (held : List StoredProof) (ledger : WalletDerivedState) :
    Inv account op (opened account mints pubkeyHex privkey held ledger) where
  state :=
    { saga :=
        { log := ⟨.empty, rfl, (fun key row hrow => by cases hrow),
            (fun key payload hpayload => by cases hpayload), False.elim⟩
          session := .inr rfl
          journal := fun row hrow => by cases hrow
          kept := False.elim }
      session := .inl ⟨rfl, ⟨∅, rfl, (fun key row hrow => by cases hrow), fun _ => False.elim,
        fun _ => rfl⟩, tidy_nil⟩
      paired := fun store hstore hpayload => by
        obtain rfl := Option.some.inj hstore
        exact absurd rfl hpayload
      deposits := rfl }
  jobs :=
    { kinds := fun row hrow => by cases hrow
      begun := fun row hrow => by cases hrow
      single := by simp [opened]
      exclusive := by simp [opened]
      logged := by simp [opened]
      once := Nat.zero_le 1
      committed := by simp [opened]
      spent := fun _ row hrow => by cases hrow
      swaps := fun row hrow => by cases hrow
      early := fun _ => Nat.le_refl _
      sent := fun _ => Nat.le_refl _ }
  relay event hevent := by cases hevent
  unminted _ := rfl
  money proofs hminted := by cases hminted

/-- Over all interleavings of the attempts to redeem one event, where a redeem is dropped only by
the last of them: the fresh proofs are credited once and at most one request comes after the swap,
throughout, exactly when nothing is folded that has been credited. -/
theorem nutzap_redeemed_once_iff (account eventId : String) (mints : List String)
    (pubkeyHex privkey : Option String) (held : List StoredProof) (ledger : WalletDerivedState)
    (acts : List RedeemAct)
    (hdom : Meets redeem (fun t act => RedeemingAct account eventId t act ∧ DropsAlone t act)
      (opened account mints pubkeyHex privkey held ledger) acts) :
    (∀ xs, xs <+: acts →
      RedeemedOnce (run redeem (opened account mints pubkeyHex privkey held ledger) xs)) ↔
    Meets redeem FoldUncredited (opened account mints pubkeyHex privkey held ledger) acts :=
  always_iff_meets (Inv account ("redeem-" ++ eventId)) RedeemedOnce
    (fun _ _ h hact hok => h.step hact hok) (fun _ h => h.redeemedOnce)
    (fun _ _ h _ hgood => h.fold_needs hgood) (opened_inv account _ mints pubkeyHex privkey held
      ledger) hdom

/-- The token event comes back before the history event is signed. -/
def observed : List RedeemAct :=
  let proofs : List Proof := [⟨4, "k", "s", "P"⟩]
  let nutzap : ReceivedNutZap := ⟨"e", "sender", [⟨4, "k", "locked", "Q"⟩], "https://m", 4⟩
  let op := "redeem-e"
  [.act (.startRedeem "a" "e" 0),
    .act (.resume "a" (.redeemRun op) (.nutzap nutzap [some "pub"]) 0),
    .act (.resume "a" (.redeemKeys op nutzap [some "pub"]) .none 0),
    .act (.resume "a" (.redeemReserve op nutzap) .none 0),
    .sends "a" (.redeemSwap op nutzap), .commits proofs,
    .act (.resume "a" (.redeemSwap op nutzap) (.proofs proofs) 0),
    .act (.resume "a" (.redeemFinish op nutzap proofs) .none 0),
    .act (.resume "a" (.redeemTokenSigning op nutzap proofs) (.signed "1") 0),
    .act (.observe "a" ⟨"1", "https://m", proofs, []⟩),
    .act (.resume "a" (.ingestToken ⟨"1", "https://m", proofs, []⟩) .none 0),
    .act (.resume "a" (.redeemHistorySigning op nutzap proofs "1") (.signed "2") 0)]

theorem nutzap_redeemed_once_iff_observed :
    (∀ xs, xs <+: observed → RedeemedOnce
      (run redeem (opened "a" ["https://m"] (some "pub") (some "key") [] .empty) xs)) ↔
    Meets redeem FoldUncredited
      (opened "a" ["https://m"] (some "pub") (some "key") [] .empty) observed :=
  nutzap_redeemed_once_iff "a" "e" ["https://m"] (some "pub") (some "key") [] .empty observed
    (by decide +kernel)

theorem nutzap_redeemed_twice :
    ¬ ∀ acts, Meets redeem (fun t act => RedeemingAct "a" "e" t act ∧ DropsAlone t act)
        (opened "a" ["https://m"] (some "pub") (some "key") [] .empty) acts →
      ∀ xs, xs <+: acts → RedeemedOnce
        (run redeem (opened "a" ["https://m"] (some "pub") (some "key") [] .empty) xs) := by
  intro h
  have hall := (h observed (by decide +kernel) observed (List.prefix_refl _)).1
    [⟨4, "k", "s", "P"⟩] (by decide +kernel) "P" (by decide)
  exact absurd hall.1 (by decide +kernel)

end WalletRedeemOnce
