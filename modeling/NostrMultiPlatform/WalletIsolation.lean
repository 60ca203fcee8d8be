import NostrMultiPlatform.WalletEffect

/-!
# Account isolation

A continuation started under one account may run after the switch to another.
Two runs are compared, with and without the late continuations, by their states
up to the durable log, which no critical section reads back.
-/
namespace WalletIsolation

open Runs Tables WalletProof WalletJournal WalletLedger WalletState WalletJobs WalletSend
  WalletRedeem WalletCrossMint WalletDeposit WalletIngest WalletLifecycle WalletSystem
  WalletEffect

/-- The state without its durable log. -/
def unlogged (st : CashuWalletState) : CashuWalletState := { st with walStore := none }

def unloggedOutcome (out : Outcome) : Outcome := ⟨unlogged out.state, out.jobs, out.published⟩

variable {account op : String} (st : CashuWalletState) (id quote : String)

@[simp] theorem unloggedOutcome_stay (jobs : List Job) :
    unloggedOutcome (.stay st jobs) = .stay (unlogged st) jobs := rfl

@[simp] theorem unloggedOutcome_mk (jobs : List Job) (published : List TokenEvent) :
    unloggedOutcome ⟨st, jobs, published⟩ = ⟨unlogged st, jobs, published⟩ := rfl

@[simp] theorem unlogged_unlogged : unlogged (unlogged st) = unlogged st := rfl

@[simp] theorem unlogged_fields :
    (unlogged st).proofs = st.proofs ∧ (unlogged st).ledger = st.ledger ∧
      (unlogged st).journal = st.journal ∧ (unlogged st).mints = st.mints ∧
      (unlogged st).created = st.created ∧ (unlogged st).cashuPubkeyHex = st.cashuPubkeyHex ∧
      (unlogged st).cashuPrivkey = st.cashuPrivkey ∧
      (unlogged st).pendingDeposits = st.pendingDeposits ∧
      (unlogged st).pendingCrossMintTransfers = st.pendingCrossMintTransfers ∧
      (unlogged st).checkStateInFlight = st.checkStateInFlight ∧
      (unlogged st).checkStateRerunNeeded = st.checkStateRerunNeeded := by
  simp [unlogged]

@[simp] theorem unlogged_withWal (f : WalletWalStore → String → WalletWalStore) :
    unlogged (st.withWal f) = unlogged st ∧ (unlogged st).withWal f = unlogged st := by
  refine ⟨rfl, ?_⟩
  cases h : st.walAccount <;> simp [CashuWalletState.withWal, unlogged, h]

@[simp] theorem unlogged_walPersist :
    unlogged (st.walPersist id) = unlogged st ∧ (unlogged st).walPersist id = unlogged st := by
  simp [CashuWalletState.walPersist]

@[simp] theorem unlogged_persistPayload (payload : CashuWalPayload) :
    unlogged (st.persistPayload id payload) = unlogged st ∧
      (unlogged st).persistPayload id payload = unlogged st := by
  simp [CashuWalletState.persistPayload]

@[simp] theorem unlogged_persistQuote :
    unlogged (st.persistDepositPayload quote) = unlogged st ∧
      (unlogged st).persistDepositPayload quote = unlogged st ∧
      unlogged (st.persistCrossMintPayload quote) = unlogged st ∧
      (unlogged st).persistCrossMintPayload quote = unlogged st := by
  simp [CashuWalletState.persistDepositPayload, CashuWalletState.persistCrossMintPayload]

@[simp] theorem applyFact_unlogged (fact : WalletFact) :
    (unlogged st).applyFact fact = unlogged (st.applyFact fact) := rfl

@[simp] theorem probeSpent_unlogged (spent : List StoredProof) :
    (unlogged st).probeSpent spent = unlogged (st.probeSpent spent) := rfl

@[simp] theorem removeProofs_unlogged (spent : List StoredProof) :
    (unlogged st).removeProofs spent = unlogged (st.removeProofs spent) := rfl

@[simp] theorem addProofs_unlogged (tokenEvent : Option String) (mint : String)
    (proofs : List Proof) :
    (unlogged st).addProofs tokenEvent mint proofs =
      unlogged (st.addProofs tokenEvent mint proofs) := rfl

@[simp] theorem insertDeposit_unlogged (pending : PendingDeposit) :
    (unlogged st).insertDeposit quote pending = unlogged (st.insertDeposit quote pending) := rfl

@[simp] theorem insertCrossMint_unlogged (pending : PendingCrossMintTransfer) :
    (unlogged st).insertCrossMint quote pending =
      unlogged (st.insertCrossMint quote pending) := rfl

@[simp] theorem eraseCrossMint_unlogged :
    (unlogged st).eraseCrossMint quote = unlogged (st.eraseCrossMint quote) := rfl

@[simp] theorem eraseDeposit_unlogged :
    (unlogged st).eraseDeposit quote = unlogged (st.eraseDeposit quote) := rfl

@[simp] theorem editDeposit_unlogged (f : PendingDeposit → PendingDeposit) :
    (unlogged st).editDeposit quote f = unlogged (st.editDeposit quote f) := rfl

@[simp] theorem editCrossMint_unlogged (f : PendingCrossMintTransfer → PendingCrossMintTransfer) :
    (unlogged st).editCrossMint quote f = unlogged (st.editCrossMint quote f) := rfl

@[simp] theorem editJournal_unlogged
    (f : WalletOperationJournal → Except WalletJournalError WalletOperationJournal) :
    (unlogged st).editJournal f = unlogged (st.editJournal f) := by
  simp only [CashuWalletState.editJournal, unlogged_fields]
  split <;> rfl

theorem transition_unlogged (next : WalletOperationState) :
    (unlogged st).transition id next = (st.transition id next).map unlogged := by
  simp only [CashuWalletState.transition, unlogged_fields]
  split
  next op journal hget hj =>
    exact congrArg Except.ok (unlogged_walPersist (({ st with journal := journal } :
      CashuWalletState).applyFact (.sagaTransition id op.state next)) id).2
  · rfl
  · rfl

@[simp] theorem advance_unlogged (next : WalletOperationState) :
    (unlogged st).advance id next = unlogged (st.advance id next) := by
  simp only [CashuWalletState.advance, transition_unlogged]
  cases st.transition id next <;> rfl

@[simp] theorem recordConsumedInput_unlogged (input : WalletConsumedInput) :
    (unlogged st).recordConsumedInput id input = unlogged (st.recordConsumedInput id input) := by
  simp only [CashuWalletState.recordConsumedInput, unlogged_fields]
  split
  · rfl
  next journal h =>
    exact (unlogged_walPersist ({ st with journal := journal } : CashuWalletState) id).2

theorem beginOperationAt_unlogged (kind : WalletOperationKind) (now : Nat) :
    (unlogged st).beginOperationAt id kind now =
      (st.beginOperationAt id kind now).map unlogged := by
  simp only [CashuWalletState.beginOperationAt, unlogged_fields]
  split
  · rfl
  next journal h =>
    exact transition_unlogged ({ st with journal := journal } : CashuWalletState) id .prepared

@[simp] theorem recordInputs_unlogged (op mint : String) (selected : List StoredProof) :
    recordInputs (unlogged st) op mint selected = unlogged (recordInputs st op mint selected) := by
  induction selected generalizing st with
  | nil => rfl
  | cons s rest ih =>
    have hstep : ∀ st, recordInputs st op mint (s :: rest) = recordInputs
        (st.recordConsumedInput op ⟨s.tokenEvent.getD "", mint, sat, s.proof.amount⟩) op mint
        rest := fun _ => rfl
    rw [hstep, hstep, recordConsumedInput_unlogged, ih]

theorem reserveInputs_unlogged (op mint : String) (selected : List StoredProof) :
    reserveInputs (unlogged st) op mint selected =
      (unlogged (reserveInputs st op mint selected).1, (reserveInputs st op mint selected).2) := by
  simp only [reserveInputs, recordInputs_unlogged, transition_unlogged]
  cases (recordInputs st op mint selected).transition op .mintPending <;> rfl

@[simp] theorem restoreProofs_unlogged (mint : String) (selected : List StoredProof) :
    (unlogged st).restoreProofs mint selected = unlogged (st.restoreProofs mint selected) := by
  simp [CashuWalletState.restoreProofs_eq, unlogged]

@[simp] theorem creditChange_unlogged (op mint : String) (change : List Proof) :
    creditChange (unlogged st) op mint change = unlogged (creditChange st op mint change) := by
  simp only [creditChange]
  split <;> rfl

@[simp] theorem acceptMint_unlogged (mint : String) :
    acceptMint (unlogged st) mint = unlogged (acceptMint st mint) := by
  simp only [acceptMint, unlogged_fields]
  split <;> rfl

theorem ingestTokenEvent_unlogged (event : TokenEvent) :
    ingestTokenEvent (unlogged st) event =
      (unlogged (ingestTokenEvent st event).1, (ingestTokenEvent st event).2) := by
  have hdel : ∀ (del : List String) (st : CashuWalletState),
      del.foldl (tombstone event.id) (unlogged st) = unlogged (del.foldl (tombstone event.id) st) := by
    intro del
    induction del with
    | nil => intro st; rfl
    | cons old _ ih => intro st; exact ih (tombstone event.id st old)
  simp only [ingestTokenEvent, hdel, unlogged_fields]
  split
  · rfl
  · split <;> rfl

@[simp] theorem redeemFail_unlogged (op : String) (input : WalletConsumedInput) :
    redeemFail (unlogged st) op input = unlogged (redeemFail st op input) := by
  simp only [redeemFail, unlogged_fields]
  cases st.journal.get op with
  | none => simp
  | some row => by_cases hrow : row.consumedInputs = [] <;> simp [hrow]

@[simp] theorem dropRedeem_unlogged (op : String) :
    dropRedeem (unlogged st) op = unlogged (dropRedeem st op) := by
  simp only [dropRedeem, unlogged_withWal]
  rfl

@[simp] theorem foldDeposit_unlogged (op quote mint : String) (proofs : List Proof) (lease : Nat)
    (signed : TokenEvent) :
    foldDeposit (unlogged st) op quote mint proofs lease signed =
      unlogged (foldDeposit st op quote mint proofs lease signed) := by
  simp only [foldDeposit, unlogged_fields]
  split <;> simp

/-- No critical section reads the durable log. -/
theorem resumeJob_unlogged (answer : Answer) (now : Nat) (job : Job) :
    resumeJob (unlogged st) answer now job = unloggedOutcome (resumeJob st answer now job) := by
  cases job with
  | fail | markUncertain => simp [resumeJob]
  | sendRun => cases answer <;> simp [resumeJob, sendRun]
  | sendProbe _ amount _ remaining =>
    cases remaining with
    | nil => rfl
    | cons mint =>
      have hselect : (unlogged st).selectProofs mint amount = st.selectProofs mint amount := rfl
      simp only [resumeJob, sendProbe, hselect]
      split <;> rfl
  | sendFallback _ _ targets =>
    cases targets with
    | nil => rfl
    | cons =>
      simp only [resumeJob, sendFallback, unlogged_fields]
      split <;> rfl
  | sendSupersede => simp [resumeJob, sendSupersede]
  | sendChosen =>
    simp only [resumeJob, sendChosen, CashuWalletState.selectProofs, unlogged_fields]
    split <;> rfl
  | sendSelected op _ mint selected =>
    simp only [resumeJob, sendSelected, reserveInputs_unlogged]
    rcases reserveInputs st op mint selected with ⟨st', _ | _⟩ <;> simp
  | sendKeyset =>
    cases answer with
    | feePpk =>
      simp only [resumeJob, sendKeyset]
      split <;> simp [restoreAndFail]
    | _ => simp [resumeJob, sendKeyset, restoreAndFail]
  | sendSwap => cases answer <;> simp [resumeJob, sendSwap]
  | sendSigning =>
    cases answer <;> simp [resumeJob, sendSigning, foldSend]
  | sendResume =>
    simp only [resumeJob, sendResume]
    split
    · rfl
    · split
      · rfl
      · split <;> simp
    · rfl
  | redeemRun =>
    cases answer with
    | nutzap nutzap =>
      by_cases hredeemed : st.ledger.isNutzapRedeemed nutzap.eventId = true <;>
        simp [resumeJob, redeemRun, hredeemed]
    | _ => simp [resumeJob, redeemRun]
  | redeemKeys =>
    simp only [resumeJob, redeemKeys, unlogged_fields]
    split <;> simp
  | redeemReserve op nutzap =>
    simp only [resumeJob, redeemReserve, recordConsumedInput_unlogged, transition_unlogged]
    cases (st.recordConsumedInput op (inputOf nutzap)).transition op .mintPending <;>
      simp [Except.map]
  | redeemSwap =>
    simp only [resumeJob, redeemSwap]
    split
    · simp
    · split <;> simp
    · simp
    · simp
  | redeemFinish => simp [resumeJob, redeemFinish]
  | redeemTokenSigning => cases answer <;> simp [resumeJob, redeemTokenSigning]
  | redeemHistorySigning =>
    cases answer <;> simp [resumeJob, redeemHistorySigning, foldRedeem]
  | redeemResume =>
    simp only [resumeJob, redeemResume]
    split
    · rfl
    · split
      · rfl
      · split
        · simp
        · simp
    · rfl
  | crossPrepare =>
    simp only [resumeJob, crossPrepare, unlogged_fields]
    split <;> rfl
  | crossBegin op =>
    simp only [resumeJob, crossBegin, beginOperationAt_unlogged]
    cases st.beginOperationAt op .crossMintTransfer now <;> rfl
  | crossQuote => cases answer <;> rfl
  | crossWalk =>
    simp only [resumeJob, crossWalk, CashuWalletState.selectProofs, unlogged_fields]
    split
    · rfl
    · split
      · split
        · rfl
        · split <;> rfl
      · rfl
  | crossSelected op _ _ source _ _ _ selected =>
    simp only [resumeJob, crossSelected, reserveInputs_unlogged]
    rcases reserveInputs st op source selected with ⟨st', _ | _⟩
    · simp
    · simp
  | crossMelt =>
    cases answer with
    | melt state => cases state <;> simp [resumeJob, crossMelt, foldMelt]
    | _ => simp [resumeJob, crossMelt]
  | crossTarget =>
    simp only [resumeJob, crossTarget, meltFeeSats, unlogged_fields]
    split
    · rfl
    · split
      · rfl
      · split <;> rfl
  | crossMint =>
    simp only [resumeJob, crossMint, meltFeeSats]
    split <;> simp
  | crossSigning =>
    cases answer <;> simp [resumeJob, crossSigning, foldTarget]
  | crossRetry quote =>
    simp only [resumeJob, crossRetry, beginOperationAt_unlogged]
    cases st.beginOperationAt ("cross-mint-retry-send-" ++ quote) .sendNutzap now <;>
      simp [Except.map]
  | crossResume =>
    simp only [resumeJob, crossResume, unlogged_fields]
    split
    · rfl
    · split <;> simp
  | crossStatus =>
    cases answer with
    | meltState state => cases state <;> simp [resumeJob, crossStatus, revertTransfer]
    | _ => rfl
  | depositQuote =>
    cases answer with
    | mintQuote =>
      simp [resumeJob, depositQuote]
    | _ => simp [resumeJob, depositQuote]
  | depositComplete op quote mint amount =>
    have hlease : ∀ p, takeLease (unlogged st) op quote mint amount now p =
        unloggedOutcome (takeLease st op quote mint amount now p) := fun p => by
      simp only [takeLease]
      split <;> simp
    simp only [resumeJob, depositComplete, unlogged_fields, hlease]
    split
    · rfl
    · split
      · rfl
      · split <;> rfl
      · rfl
  | depositStillHeld quote signed =>
    have hheld : stillHeld (unlogged st) quote signed = stillHeld st quote signed := rfl
    simp only [resumeJob, depositStillHeld, hheld]
    split <;> rfl
  | depositMint =>
    simp only [resumeJob, depositMint, clearChainLease]
    split <;> simp
  | depositSigning =>
    cases answer <;> simp [resumeJob, depositSigning]
  | depositResume =>
    simp only [resumeJob, depositResume, unlogged_fields]
    split
    · rfl
    · split <;> simp
  | ingestToken event =>
    simp only [resumeJob, ingestToken, ingestTokenEvent_unlogged]
    rcases ingestTokenEvent st event with ⟨st', _ | _⟩ <;> rfl
  | ingestConfig =>
    simp only [resumeJob, ingestWalletConfig, unlogged_fields]
    split <;> rfl
  | checkPass => rfl
  | checkMints _ groups =>
    cases groups with
    | nil =>
      simp only [resumeJob, checkMints, unlogged_fields]
      split
      · rfl
      · split <;> rfl
    | cons =>
      simp only [resumeJob, checkMints]
      split
      · split <;> simp
      · rfl
  | spawnDebounced =>
    simp only [resumeJob, spawnDebounced, unlogged_fields]
    split <;> rfl

theorem startOperation_unlogged (op : String) (kind : WalletOperationKind) (now : Nat)
    {note : CashuWalletState → CashuWalletState} (job : Job)
    (hnote : ∀ st, note (unlogged st) = unlogged (note st)) :
    startOperation (unlogged st) op kind now note job =
      unloggedOutcome (startOperation st op kind now note job) := by
  simp only [startOperation, beginOperationAt_unlogged]
  cases st.beginOperationAt op kind now <;> simp [Except.map, hnote]

theorem startDeposit_unlogged (op mint : String) (amount now : Nat) :
    startDeposit (unlogged st) op mint amount now =
      unloggedOutcome (startDeposit st op mint amount now) := by
  simp only [startDeposit, unlogged_fields, beginOperationAt_unlogged]
  split
  · rfl
  · cases st.beginOperationAt op .depositCashu now with
    | error => rfl
    | ok begun =>
      simp only [Except.map, transition_unlogged]
      cases begun.transition op .mintPending <;> rfl

theorem startComplete_unlogged :
    startComplete (unlogged st) quote = unloggedOutcome (startComplete st quote) := by
  simp only [startComplete, unlogged_fields]
  split <;> rfl

theorem settleDeposit_unlogged (eventId : String) :
    settleDepositOnIngestedToken (unlogged st) eventId =
      unlogged (settleDepositOnIngestedToken st eventId) := by
  simp only [settleDepositOnIngestedToken, unlogged_fields]
  split <;> simp

/-- An act replaces the live state or reads the log. -/
def switches : Act → Bool
  | .reset | .crash | .restore _ => true
  | _ => false

/-- A continuation of the account, run. -/
def late (account : String) : Act → Bool
  | .resume tag _ _ _ => tag = account
  | _ => false

/-- Two worlds agree but for the log, the account's jobs and what was published. -/
structure Agree (account : String) (w v : World) : Prop where
  state : unlogged w.state = unlogged v.state
  jobs : w.jobs.filter (fun row => row.1 ≠ account) = v.jobs.filter fun row => row.1 ≠ account

theorem Agree.refl (account : String) (w : World) : Agree account w w := ⟨rfl, rfl⟩

theorem Agree.after {w v : World} (h : Agree account w v) (tag : String)
    (f : CashuWalletState → Outcome) (hf : ∀ st, f (unlogged st) = unloggedOutcome (f st)) :
    Agree account (w.after tag (f w.state)) (v.after tag (f v.state)) := by
  have hout : unloggedOutcome (f w.state) = unloggedOutcome (f v.state) := by
    rw [← hf, ← hf, h.state]
  have hstate : unlogged (f w.state).state = unlogged (f v.state).state := by
    have := congrArg Outcome.state hout
    exact this
  have hjobs : (f w.state).jobs = (f v.state).jobs := by
    have := congrArg Outcome.jobs hout
    exact this
  refine ⟨hstate, ?_⟩
  simp only [World.after, List.filter_append, h.jobs, hjobs]

/-- An act that is nobody's late continuation and no switch keeps two worlds in agreement. -/
theorem Agree.step {account : String} {w v : World} (h : Agree account w v) {act : Act}
    (hlate : late account act = false) (hswitch : switches act = false) :
    Agree account (step w act) (step v act) := by
  cases act with
  | startSend tag op amount now =>
    exact h.after tag (startOperation · op .sendNutzap now
      (fun st => st.editJournal fun j => j.recordAmount op amount) (.sendRun op amount))
      fun st => startOperation_unlogged st op _ now _ fun st => by simp
  | startRedeem tag eventId now =>
    exact h.after tag (startOperation · ("redeem-" ++ eventId) .redeemNutzap now id
      (.redeemRun ("redeem-" ++ eventId)))
      fun st => startOperation_unlogged st _ _ now _ fun st => rfl
  | startCrossMint tag op target amount =>
    exact h.after tag (crossPrepare · op target amount none)
      fun st => resumeJob_unlogged st .none 0 (.crossPrepare op target amount none)
  | startDeposit tag op mint amount now =>
    exact h.after tag (startDeposit · op mint amount now)
      fun st => startDeposit_unlogged st op mint amount now
  | startComplete tag quote =>
    exact h.after tag (startComplete · quote) fun st => startComplete_unlogged st quote
  | checkState tag => exact h.after tag (Outcome.stay · [.checkPass false]) fun _ => rfl
  | resume tag job answer now =>
    have htag : tag ≠ account := by simpa [late] using hlate
    have hmem : ∀ u : World, (tag, job) ∈ u.jobs ↔
        (tag, job) ∈ u.jobs.filter fun row => row.1 ≠ account := fun u => by
      simp [htag]
    have hsame : (tag, job) ∈ w.jobs ↔ (tag, job) ∈ v.jobs := by rw [hmem w, hmem v, h.jobs]
    by_cases hjob : (tag, job) ∈ w.jobs
    · have herased : Agree account { w with jobs := w.jobs.erase (tag, job) }
          { v with jobs := v.jobs.erase (tag, job) } :=
        ⟨h.state, by simp only [← List.erase_filter, h.jobs]⟩
      simpa only [WalletSystem.step, if_pos hjob, if_pos (hsame.mp hjob)] using
        herased.after tag (resumeJob · answer now job)
          fun st => resumeJob_unlogged st answer now job
    · simpa only [WalletSystem.step, if_neg hjob, if_neg fun hv => hjob (hsame.mpr hv)] using h
  | observe tag event =>
    exact h.after tag
      (fun st => .stay (settleDepositOnIngestedToken st event.id) [.ingestToken event])
      fun st => by rw [settleDeposit_unlogged, unloggedOutcome_stay]
  | observeConfig tag config =>
    exact h.after tag (Outcome.stay · [.ingestConfig config]) fun _ => rfl
  | reset | restore | crash => cases hswitch

/-- What keeps a late section from the live state: its operation or quote is not of the account
now active, and it is no fold, restore, ingest or begin. -/
def Fenced (st : CashuWalletState) (answer : Answer) : Job → Prop
  | .fail op | .markUncertain op | .sendRun op _ | .sendSupersede op _ _ | .sendSelected op _ _ _ _
  | .sendSwap op _ _ _ | .sendResume op _ _ _ | .redeemRun op | .redeemKeys op _ _
  | .redeemReserve op _ | .redeemSwap op _ | .redeemFinish op _ _ | .redeemTokenSigning op _ _
  | .redeemResume op _ _ | .crossSelected op _ _ _ _ _ _ _ _ => st.journal.get op = none
  | .sendKeyset _ amount _ selected total => coversFee amount total selected answer = true
  | .sendSigning _ _ _ _ | .redeemHistorySigning _ _ _ _ | .crossSigning _ _ _ _ _ _ _ =>
    ∀ eventId, answer ≠ .signed eventId
  | .crossBegin op _ _ _ _ => st.journal.get op ≠ none
  | .crossRetry quote _ _ _ => st.journal.get ("cross-mint-retry-send-" ++ quote) ≠ none
  | .crossMelt op _ _ _ _ _ =>
    st.journal.get op = none ∧ ∀ change, answer ≠ .melt .paid change
  | .crossMint quote _ _ | .crossResume quote =>
    st.pendingCrossMintTransfers.lookup quote = none
  | .crossStatus quote pending =>
    st.journal.get pending.operationId = none ∧
      st.pendingCrossMintTransfers.lookup quote = none ∧
      ∀ state, answer = .meltState state → state = .paid
  | .depositQuote op _ _ =>
    st.journal.get op = none ∧ ∀ quote headroom, answer ≠ .mintQuote quote headroom
  | .depositComplete _ quote _ _ | .depositMint _ quote _ _ _ | .depositSigning _ quote _ _ _
  | .depositResume _ quote _ => st.pendingDeposits.lookup quote = none
  | .ingestToken event => event.del = [] ∧ alreadyKnown st event = true
  | .ingestConfig _ => st.created = true
  | .checkMints debounced groups =>
    (groups = [] → debounced = false) ∧ ∀ states, answer = .spendStates states → .spent ∉ states
  | .spawnDebounced => st.checkStateInFlight = true ∧ st.checkStateRerunNeeded = true
  | .sendProbe _ _ _ _ _ | .sendFallback _ _ _ | .sendChosen _ _ _ | .crossPrepare _ _ _ _
  | .crossQuote _ _ _ _ _ | .crossWalk _ _ _ _ _ _ | .crossTarget _ _ | .depositStillHeld _ _
  | .checkPass _ => True

theorem transition_missing {st : CashuWalletState} (h : st.journal.get op = none)
    (next : WalletOperationState) : st.transition op next = .error (.missingOperation op) := by
  have hjournal : st.journal.transition op next = .error (.missingOperation op) := by
    simp [WalletOperationJournal.transition, h]
  simp [CashuWalletState.transition, h, hjournal]

theorem advance_missing {st : CashuWalletState} (h : st.journal.get op = none)
    (next : WalletOperationState) : st.advance op next = st := by
  simp [CashuWalletState.advance, transition_missing h]

theorem recordConsumedInput_missing {st : CashuWalletState} (h : st.journal.get op = none)
    (input : WalletConsumedInput) : st.recordConsumedInput op input = st := by
  simp [CashuWalletState.recordConsumedInput, WalletOperationJournal.recordConsumedInput,
    WalletOperationJournal.edit, h]

theorem editJournal_missing {st : CashuWalletState} (h : st.journal.get op = none)
    (f : WalletOperation → WalletOperation) : (st.editJournal fun j => j.edit op f) = st := by
  simp [CashuWalletState.editJournal, WalletOperationJournal.edit, h]

theorem reserveInputs_missing {st : CashuWalletState} (h : st.journal.get op = none) (mint : String)
    (selected : List StoredProof) : reserveInputs st op mint selected = (st, false) := by
  have hrecord : recordInputs st op mint selected = st := by
    induction selected with
    | nil => rfl
    | cons s rest ih =>
      have hstep : recordInputs st op mint (s :: rest) = recordInputs
          (st.recordConsumedInput op ⟨s.tokenEvent.getD "", mint, sat, s.proof.amount⟩) op mint
          rest := rfl
      rw [hstep, recordConsumedInput_missing h, ih]
  simp [reserveInputs, hrecord, transition_missing h]

theorem redeemFail_missing {st : CashuWalletState} (h : st.journal.get op = none)
    (input : WalletConsumedInput) : redeemFail st op input = st := by
  simp [redeemFail, h, recordConsumedInput_missing h, advance_missing h]

theorem beginOperationAt_known {st : CashuWalletState} (h : st.journal.get op ≠ none)
    (kind : WalletOperationKind) (now : Nat) :
    st.beginOperationAt op kind now = .error (.duplicateOperation op) := by
  have hany : st.journal.any (fun row => row.id = op) = true := by
    obtain ⟨row, hrow⟩ := Option.ne_none_iff_exists'.mp h
    have hid := List.find?_some hrow
    exact List.any_eq_true.mpr ⟨row, List.mem_of_find?_eq_some hrow, hid⟩
  have hinsert : st.journal.insert { WalletOperation.new op kind .draft with
      recordedAt := some now } = .error (.duplicateOperation op) := if_pos hany
  simp only [CashuWalletState.beginOperationAt, hinsert]

theorem editDeposit_missing {st : CashuWalletState} {quote : String}
    (h : st.pendingDeposits.lookup quote = none) (f : PendingDeposit → PendingDeposit) :
    st.editDeposit quote f = st := by
  simp [CashuWalletState.editDeposit, edit, h]

theorem editCrossMint_missing {st : CashuWalletState} {quote : String}
    (h : st.pendingCrossMintTransfers.lookup quote = none)
    (f : PendingCrossMintTransfer → PendingCrossMintTransfer) :
    st.editCrossMint quote f = st := by
  simp [CashuWalletState.editCrossMint, edit, h]

theorem checkMints_unspent (debounced : Bool) (groups : List (String × List StoredProof))
    (answer : Answer) (hend : groups = [] → debounced = false)
    (hspent : ∀ states, answer = .spendStates states → .spent ∉ states) :
    (checkMints st debounced groups answer).state = st := by
  cases groups with
  | nil => simp [checkMints, hend rfl, Outcome.stay]
  | cons group =>
    cases answer with
    | spendStates states =>
      have hnone : spentOf group.2 states = [] := by
        have hfilter : (group.2.zip states).filter (fun pair => pair.2 = .spent) = [] :=
          List.filter_eq_nil_iff.mpr fun pair hpair => by
            have hmem : pair.2 ∈ states := (List.of_mem_zip (a := pair.1) (b := pair.2) hpair).2
            simpa using fun h : pair.2 = .spent => hspent states rfl (h ▸ hmem)
        simp [spentOf, hfilter]
      simp only [checkMints]
      split
      · rfl
      · simp [hnone, Outcome.stay, CashuWalletState.removeProofs, CashuWalletState.probeSpent,
          WalletProof.removeProofs, WalletDerivedState.probeSpent]
    | _ => rfl

/-- A fenced section leaves the live state as it was, the log apart. -/
theorem fenced_unlogged {st : CashuWalletState} {answer : Answer} {job : Job}
    (h : Fenced st answer job) (now : Nat) :
    unlogged (resumeJob st answer now job).state = unlogged st := by
  by_cases hlooks : looks job = true
  · rw [resumeJob_looks st answer now hlooks]
  cases hop : journals job with
  | some op =>
    have hnone : st.journal.get op = none := by cases job <;> cases hop <;> exact h
    have hmoved : ∀ st', Journaled st op st' → unlogged st' = unlogged st := by
      rintro _ (_ | next | p)
      · rfl
      · rw [advance_missing hnone]
      · simp
    exact hmoved _ (resumeJob_journals st answer now hop)
  | none =>
  cases job with
  | sendSelected =>
    simp only [resumeJob, sendSelected, reserveInputs_missing h, Outcome.stay]
  | sendKeyset _ amount _ selected total =>
    cases answer with
    | feePpk inputFeePpk =>
      have hcovers : ¬ total - amount < computeFee selected.length inputFeePpk := by
        simpa [Fenced, coversFee] using h
      simp only [resumeJob, sendKeyset, if_neg hcovers, Outcome.stay]
    | _ => cases h
  | sendSigning | redeemHistorySigning | crossSigning =>
    cases answer with
    | signed eventId => exact absurd rfl (h eventId)
    | _ => rfl
  | redeemRun op =>
    cases answer with
    | nutzap nutzap =>
      have hnamed : (st.editJournal fun j => j.recordSender op nutzap.senderPubkey) = st :=
        editJournal_missing h _
      simp only [resumeJob, redeemRun, hnamed, redeemFail_missing h]
      split <;> rfl
    | _ => simp only [resumeJob, redeemRun, redeemFail_missing h, Outcome.stay]
  | redeemKeys =>
    simp only [resumeJob, redeemKeys, redeemFail_missing h]
    split <;> rfl
  | redeemReserve =>
    simp only [resumeJob, redeemReserve, recordConsumedInput_missing h, transition_missing h,
      Outcome.stay]
  | redeemResume op =>
    have hremove : st.journal.remove op = st.journal :=
      List.filter_eq_self.mpr fun row hrow => by
        have := List.find?_eq_none.mp h row hrow
        simpa using this
    simp only [resumeJob, redeemResume, advance_missing h]
    split
    · rfl
    · split
      · rfl
      · split
        · show unlogged { st with journal := st.journal.remove op } = unlogged st
          rw [hremove]
        · rfl
    · rfl
  | crossBegin =>
    simp only [resumeJob, crossBegin, beginOperationAt_known h, Outcome.stay]
  | crossSelected =>
    simp only [resumeJob, crossSelected, reserveInputs_missing h, Outcome.stay]
  | crossMelt =>
    cases answer with
    | melt state change =>
      cases state with
      | paid => exact absurd rfl (h.2 change)
      | _ => simp only [resumeJob, crossMelt, advance_missing h.1, Outcome.stay]
    | _ => simp only [resumeJob, crossMelt, advance_missing h.1, Outcome.stay]
  | crossMint =>
    simp only [resumeJob, crossMint, editCrossMint_missing h]
    split <;> simp [Outcome.stay]
  | crossRetry =>
    simp only [resumeJob, crossRetry, beginOperationAt_known h, Outcome.stay]
  | crossResume quote =>
    have hnone : st.pendingCrossMintTransfers.lookup quote = none := h
    simp only [resumeJob, crossResume, hnone, Outcome.stay]
  | crossStatus =>
    obtain ⟨hop, hquote, hpaid⟩ := h
    cases answer with
    | meltState state =>
      obtain rfl := hpaid state rfl
      simp [resumeJob, crossStatus, Outcome.stay, editCrossMint_missing hquote,
        advance_missing hop]
    | _ => rfl
  | depositQuote =>
    cases answer with
    | mintQuote quote headroom => exact absurd rfl (h.2 quote headroom)
    | _ => simp only [resumeJob, depositQuote, advance_missing h.1, Outcome.stay]
  | depositComplete _ quote =>
    have hnone : st.pendingDeposits.lookup quote = none := h
    simp only [resumeJob, depositComplete, hnone, Outcome.stay]
  | depositMint =>
    simp only [resumeJob, depositMint, clearChainLease, editDeposit_missing h]
    split <;> simp [Outcome.stay]
  | depositSigning _ quote =>
    have hnone : st.pendingDeposits.lookup quote = none := h
    cases answer <;> simp [resumeJob, depositSigning, foldDeposit, hnone, Outcome.stay]
  | depositResume _ quote =>
    have hnone : st.pendingDeposits.lookup quote = none := h
    simp only [resumeJob, depositResume, hnone, Outcome.stay]
  | ingestToken event =>
    obtain ⟨hdel, hknown⟩ := h
    have hlive : (st.ledger.isTokenLive event.id || st.ledger.isTokenTombstoned event.id) = true := by
      simpa [alreadyKnown, hdel] using hknown
    have hskip : ingestTokenEvent st event = (st, false) := by
      simp only [ingestTokenEvent, hdel, List.foldl_nil, hlive, if_true]
    simp only [resumeJob, ingestToken, hskip, Outcome.stay]
  | ingestConfig =>
    have hcreated : st.created = true := h
    simp only [resumeJob, ingestWalletConfig, hcreated, if_true, Outcome.stay]
  | checkMints debounced groups =>
    exact congrArg unlogged (checkMints_unspent st debounced groups answer h.1 h.2)
  | spawnDebounced =>
    have hsame : ({ st with checkStateRerunNeeded := true } : CashuWalletState) = st := by
      rw [← h.2]
    have hsection : (spawnDebounced st).state = { st with checkStateRerunNeeded := true } := by
      rw [spawnDebounced, if_pos h.1, Outcome.stay]
    rw [resumeJob, hsection, hsame]
  | _ => first | exact absurd rfl hlooks | cases hop

theorem fields_of_unlogged {st st' : CashuWalletState} (h : unlogged st = unlogged st') :
    st.proofs = st'.proofs ∧ st.ledger = st'.ledger ∧ st.mints = st'.mints := by
  have hproofs := congrArg CashuWalletState.proofs h
  have hledger := congrArg CashuWalletState.ledger h
  have hmints := congrArg CashuWalletState.mints h
  exact ⟨hproofs, hledger, hmints⟩

/-- A fenced late continuation is not seen by anyone else. -/
theorem Agree.late_step {w v : World} (h : Agree account w v) {job : Job} {answer : Answer}
    {now : Nat} (hfenced : (account, job) ∈ w.jobs → Fenced w.state answer job) :
    Agree account (WalletSystem.step w (.resume account job answer now)) v := by
  by_cases hjob : (account, job) ∈ w.jobs
  · simp only [WalletSystem.step, if_pos hjob, World.after]
    refine ⟨(fenced_unlogged (hfenced hjob) now).trans h.state, ?_⟩
    rw [← h.jobs]
    have hnew : ((resumeJob w.state answer now job).jobs.map fun job => (account, job)).filter
        (fun row => row.1 ≠ account) = [] := by
      simp
    rw [List.filter_append, hnew, List.append_nil, ← List.erase_filter]
    exact List.erase_of_not_mem (by simp)
  · simpa only [WalletSystem.step, if_neg hjob] using h

/-- A late continuation of the account meets the fence in the state it runs in. -/
def LateFenced (account : String) (w : World) : Act → Prop
  | .resume tag job answer _ => tag = account → (tag, job) ∈ w.jobs → Fenced w.state answer job
  | _ => True

/-- The same acts without the account's late continuations. -/
def withoutLate (account : String) (acts : List Act) : List Act :=
  acts.filter fun act => late account act = false

theorem agree_run {w v : World} (h : Agree account w v) {acts : List Act}
    (hstay : ∀ act ∈ acts, switches act = false) (hfenced : Meets step (LateFenced account) w acts)
    :
    Agree account (run step w acts) (run step v (withoutLate account acts)) := by
  induction acts generalizing w v with
  | nil => exact h
  | cons act acts ih =>
    have hrest := fun act' h' => hstay act' (List.mem_cons_of_mem act h')
    cases hlate : late account act with
    | false =>
      have hkeep : withoutLate account (act :: acts) = act :: withoutLate account acts := by
        simp [withoutLate, hlate]
      rw [hkeep, run_cons, run_cons]
      exact ih (h.step hlate (hstay act List.mem_cons_self)) hrest hfenced.2
    | true =>
      have hdrop : withoutLate account (act :: acts) = withoutLate account acts := by
        simp [withoutLate, hlate]
      rw [hdrop, run_cons]
      refine ih ?_ hrest hfenced.2
      cases act with
      | resume tag =>
        obtain rfl : tag = account := by simpa [late] using hlate
        exact h.late_step fun hjob => hfenced.1 rfl hjob
      | _ => cases hlate

/-- After a run, a reset and a restore: proofs, ledger, balances and accepted mints are those of
the run in which none of the departed account's continuations executes. -/
def Isolated (w : World) (earlier : List Act) (departed entered : String) (acts : List Act) :
    Prop :=
  let mixed := (run step w (earlier ++ [.reset, .restore entered] ++ acts)).state
  let alone := (run step w (earlier ++ [.reset, .restore entered] ++
    withoutLate departed acts)).state
  mixed.proofs = alone.proofs ∧ mixed.ledger = alone.ledger ∧ mixed.mints = alone.mints ∧
    ∀ mint unit, mixed.ledger.balance mint unit = alone.ledger.balance mint unit

/-- Whatever ran before the switch, late continuations that are fenced off leave no trace. -/
theorem account_isolation (w : World) (earlier : List Act) (departed entered : String)
    (acts : List Act) (hstay : ∀ act ∈ acts, switches act = false)
    (hfenced : Meets step (LateFenced departed)
      (run step w (earlier ++ [.reset, .restore entered])) acts) :
    Isolated w earlier departed entered acts := by
  have hagree := agree_run (Agree.refl departed _) hstay hfenced
  rw [← run_append, ← run_append] at hagree
  obtain ⟨hproofs, hledger, hmints⟩ := fields_of_unlogged hagree.state
  exact ⟨hproofs, hledger, hmints, fun mint unit => congrArg (·.balance mint unit) hledger⟩

theorem account_isolation_send :
    Isolated (.new (some .empty)) [.startSend "a" "send-1" 5 0] "a" "b"
      [.resume "a" (.sendRun "send-1" 5) .invalid 0, .checkState "b"] :=
  account_isolation (.new (some .empty)) [.startSend "a" "send-1" 5 0] "a" "b"
    [.resume "a" (.sendRun "send-1" 5) .invalid 0, .checkState "b"] (by decide)
    ⟨fun _ _ => by unfold Fenced; decide +kernel, trivial, trivial⟩

/-- A token event observed under the first account, ingested after the switch. -/
def lateIngest : TokenEvent := ⟨"1", "https://m", [⟨4, "k", "s", "P"⟩], []⟩

theorem late_ingest_leaks :
    ¬ ∀ (earlier : List Act) (departed entered : String) (acts : List Act),
      departed ≠ entered → (∀ act ∈ acts, switches act = false) →
        Isolated (.new (some .empty)) earlier departed entered acts := by
  intro h
  have hproofs := (h [.observe "a" lateIngest] "a" "b"
    [.resume "a" (.ingestToken lateIngest) .none 0] (by decide) (by decide)).1
  exact absurd hproofs (by decide +kernel)

end WalletIsolation
