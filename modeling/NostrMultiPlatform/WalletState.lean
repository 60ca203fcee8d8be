import NostrMultiPlatform.WalletLedger

/-!
# The state of the Cashu backend

One state is shared by every command, worker thread and signing continuation;
each critical section below reads and writes it whole. The write-ahead log
shadows the journal and carries the resume payloads, filed under the active
account. Metadata that no operation on proofs reads is left out.
-/
namespace WalletState

open Tables WalletProof WalletJournal WalletLedger

/-- A kind 7375 event, decrypted: its proofs and the ids of the events it replaces. -/
structure TokenEvent where
  id : String
  mint : String
  proofs : List Proof
  del : List String
  deriving DecidableEq, Repr

/-- A received kind 9321 event. -/
structure ReceivedNutZap where
  eventId : String
  senderPubkey : String
  proofs : List Proof
  mintUrl : String
  amountSats : Nat
  deriving DecidableEq, Repr

structure PendingDeposit where
  operationId : String
  mint : String
  amountSats : Nat
  mintedProofs : Option (List Proof)
  chainStartedAt : Option Nat
  signedToken : Option TokenEvent
  deriving DecidableEq, Repr

structure PendingCrossMintTransfer where
  operationId : String
  targetMint : String
  sourceMint : String
  amountSats : Nat
  targetQuoteId : String
  meltQuoteId : String
  sourceSelected : List StoredProof
  meltSettled : Bool
  mintedProofs : Option (List Proof)
  signedToken : Option TokenEvent
  chainStartedAt : Option Nat
  deriving DecidableEq, Repr

/-- The mint's swap response of a send: the recipient's outputs come first, then the change. -/
structure SwappedSend where
  newProofs : List Proof
  nutzapCount : Nat
  deriving DecidableEq, Repr

inductive CashuWalPayload
  | deposit (quoteId mint : String) (amountSats : Nat) (mintedProofs : Option (List Proof))
      (signedToken : Option TokenEvent)
  | send (mint : String) (selected : List StoredProof) (swapped : Option SwappedSend)
  | redeem (nutzap : ReceivedNutZap) (nutzapWalletEvent mint : String)
      (freshProofs : Option (List Proof))
  | crossMintTransfer (transfer : PendingCrossMintTransfer)
  deriving DecidableEq, Repr

/-- The durable log: saga rows and resume payloads by account and operation. -/
structure WalletWalStore where
  operations : Table (String × String) WalletOperation
  payloads : Table (String × String) CashuWalPayload
  deriving DecidableEq

namespace WalletWalStore

def empty : WalletWalStore := ⟨∅, ∅⟩

variable (store : WalletWalStore) (account id : String)

def upsertOperation (op : WalletOperation) : WalletWalStore :=
  { store with operations := store.operations.insert (account, op.id) op }

def deleteOperation : WalletWalStore :=
  { store with operations := store.operations.erase (account, id) }

def loadOperations : List WalletOperation :=
  store.operations.entries.filterMap fun row => if row.1.1 = account then some row.2 else none

def upsertPayload (payload : CashuWalPayload) : WalletWalStore :=
  { store with payloads := store.payloads.insert (account, id) payload }

def loadPayload : Option CashuWalPayload :=
  store.payloads.lookup (account, id)

def deletePayload : WalletWalStore :=
  { store with payloads := store.payloads.erase (account, id) }

end WalletWalStore

structure CashuWalletState where
  created : Bool
  mints : List String
  cashuPubkeyHex : Option String
  cashuPrivkey : Option String
  proofs : List StoredProof
  journal : WalletOperationJournal
  ledger : WalletDerivedState
  pendingDeposits : Table String PendingDeposit
  pendingCrossMintTransfers : Table String PendingCrossMintTransfer
  checkStateInFlight : Bool
  checkStateRerunNeeded : Bool
  walStore : Option WalletWalStore
  walAccount : Option String
  deriving DecidableEq

namespace CashuWalletState

/-- `CashuWalletState::new`, over the store the backend was built with. -/
def new (walStore : Option WalletWalStore) : CashuWalletState where
  created := false
  mints := []
  cashuPubkeyHex := none
  cashuPrivkey := none
  proofs := []
  journal := []
  ledger := .empty
  pendingDeposits := ∅
  pendingCrossMintTransfers := ∅
  checkStateInFlight := false
  checkStateRerunNeeded := false
  walStore := walStore
  walAccount := none

variable (st : CashuWalletState) (id quoteId targetQuoteId : String)

def applyFact (fact : WalletFact) : CashuWalletState :=
  { st with ledger := st.ledger.apply fact }

/-- A spent verdict for each of the stored proofs. -/
def probeSpent (st : CashuWalletState) (spent : List StoredProof) : CashuWalletState :=
  { st with ledger := st.ledger.probeSpent (storedCs spent) }

def selectProofs (st : CashuWalletState) (mint : String) (amountSats : Nat) :
    Option (List StoredProof × Nat) :=
  WalletProof.selectProofs st.proofs mint amountSats

def removeProofs (st : CashuWalletState) (spent : List StoredProof) : CashuWalletState :=
  { st with proofs := WalletProof.removeProofs spent st.proofs }

def addProofs (tokenEvent : Option String) (mint : String) (proofs : List Proof) :
    CashuWalletState :=
  { st with proofs := st.proofs ++ attach tokenEvent mint proofs }

def removeProofsForTokenEvent (st : CashuWalletState) (tokenEvent : String) : CashuWalletState :=
  { st with proofs := WalletProof.removeProofsForTokenEvent tokenEvent st.proofs }

/-- Puts reserved proofs back one by one, under the mint they were reserved at. -/
def restoreProofs (mint : String) (selected : List StoredProof) : CashuWalletState :=
  selected.foldl (fun st s => st.addProofs s.tokenEvent mint [s.proof]) st

/-- Edits the durable store under the active account; nothing without a store or an account. -/
def withWal (f : WalletWalStore → String → WalletWalStore) : CashuWalletState :=
  { st with
    walStore := match st.walAccount with
      | none => st.walStore
      | some account => st.walStore.map fun store => f store account }

/-- Writes the saga row through, or deletes row and payload once it is terminal. -/
def walPersist : CashuWalletState :=
  st.withWal fun store account =>
    match st.journal.get id with
    | none => store
    | some op =>
      if op.state.isTerminal then (store.deleteOperation account id).deletePayload account id
      else store.upsertOperation account op

def persistPayload (payload : CashuWalPayload) : CashuWalletState :=
  st.withWal fun store account => store.upsertPayload account id payload

def persistDepositPayload : CashuWalletState :=
  st.withWal fun store account =>
    match st.pendingDeposits.lookup quoteId with
    | none => store
    | some p =>
      store.upsertPayload account p.operationId
        (.deposit quoteId p.mint p.amountSats p.mintedProofs p.signedToken)

/-- The lease is an in-flight token and never persisted. -/
def persistCrossMintPayload : CashuWalletState :=
  st.withWal fun store account =>
    match st.pendingCrossMintTransfers.lookup targetQuoteId with
    | none => store
    | some p =>
      store.upsertPayload account p.operationId
        (.crossMintTransfer { p with chainStartedAt := none })

/-- The one saga transition: journal, trail fact, write-through. -/
def transition (st : CashuWalletState) (id : String) (next : WalletOperationState) :
    Except WalletJournalError CashuWalletState :=
  match st.journal.get id, st.journal.transition id next with
  | some op, .ok journal =>
    .ok ((({ st with journal := journal } : CashuWalletState).applyFact
      (.sagaTransition id op.state next)).walPersist id)
  | _, .error e => .error e
  | none, .ok _ => .error (.missingOperation id)

/-- A transition whose failure the caller ignores. -/
def advance (next : WalletOperationState) : CashuWalletState :=
  match st.transition id next with
  | .ok st' => st'
  | .error _ => st

def beginOperationAt (kind : WalletOperationKind) (nowSecs : Nat) :
    Except WalletJournalError CashuWalletState :=
  match st.journal.insert { WalletOperation.new id kind .draft with recordedAt := some nowSecs } with
  | .error e => .error e
  | .ok journal => ({ st with journal := journal } : CashuWalletState).transition id .prepared

def recordConsumedInput (st : CashuWalletState) (id : String) (input : WalletConsumedInput) :
    CashuWalletState :=
  match st.journal.recordConsumedInput id input with
  | .error _ => st
  | .ok journal => ({ st with journal := journal } : CashuWalletState).walPersist id

/-- Edits of a row that are not written through. -/
def editJournal (f : WalletOperationJournal → Except WalletJournalError WalletOperationJournal) :
    CashuWalletState :=
  match f st.journal with
  | .error _ => st
  | .ok journal => { st with journal := journal }

def insertDeposit (pending : PendingDeposit) : CashuWalletState :=
  { st with pendingDeposits := st.pendingDeposits.insert quoteId pending }

def insertCrossMint (pending : PendingCrossMintTransfer) : CashuWalletState :=
  { st with
    pendingCrossMintTransfers := st.pendingCrossMintTransfers.insert targetQuoteId pending }

def eraseDeposit : CashuWalletState :=
  { st with pendingDeposits := st.pendingDeposits.erase quoteId }

def eraseCrossMint : CashuWalletState :=
  { st with pendingCrossMintTransfers := st.pendingCrossMintTransfers.erase targetQuoteId }

def editDeposit (f : PendingDeposit → PendingDeposit) : CashuWalletState :=
  { st with pendingDeposits := edit st.pendingDeposits quoteId f }

def editCrossMint (f : PendingCrossMintTransfer → PendingCrossMintTransfer) : CashuWalletState :=
  { st with pendingCrossMintTransfers := edit st.pendingCrossMintTransfers targetQuoteId f }

/-- A transition that goes through moves the journal and writes the row through. -/
theorem transition_eq {st st' : CashuWalletState} {id : String} {next : WalletOperationState}
    (h : st.transition id next = .ok st') :
    ∃ journal, st.journal.transition id next = .ok journal ∧
      st' = ({ st with journal := journal } : CashuWalletState).walPersist id := by
  simp only [transition] at h
  split at h
  next op journal hget hj =>
    injection h with h
    exact ⟨journal, hj, h.symm⟩
  · cases h
  · cases h

variable (st : CashuWalletState) (id quoteId : String)

theorem advance_eq (next : WalletOperationState) :
    st.advance id next = st ∨ ∃ journal, st.journal.transition id next = .ok journal ∧
      st.advance id next = ({ st with journal := journal } : CashuWalletState).walPersist id := by
  unfold advance
  split
  next st' h => exact .inr (transition_eq h)
  · exact .inl rfl

@[simp] theorem withWal_frame (f : WalletWalStore → String → WalletWalStore) :
    (st.withWal f).proofs = st.proofs ∧ (st.withWal f).ledger = st.ledger ∧
      (st.withWal f).journal = st.journal ∧ (st.withWal f).mints = st.mints ∧
      (st.withWal f).pendingDeposits = st.pendingDeposits ∧
      (st.withWal f).pendingCrossMintTransfers = st.pendingCrossMintTransfers ∧
      (st.withWal f).walAccount = st.walAccount := by
  simp [withWal]

/-- A write-through changes the durable store only. -/
@[simp] theorem walPersist_frame :
    (st.walPersist id).proofs = st.proofs ∧ (st.walPersist id).ledger = st.ledger ∧
      (st.walPersist id).journal = st.journal ∧ (st.walPersist id).mints = st.mints ∧
      (st.walPersist id).pendingDeposits = st.pendingDeposits ∧
      (st.walPersist id).pendingCrossMintTransfers = st.pendingCrossMintTransfers ∧
      (st.walPersist id).walAccount = st.walAccount := by
  simp [walPersist]

@[simp] theorem persistPayload_frame (payload : CashuWalPayload) :
    (st.persistPayload id payload).proofs = st.proofs ∧
      (st.persistPayload id payload).ledger = st.ledger ∧
      (st.persistPayload id payload).journal = st.journal ∧
      (st.persistPayload id payload).mints = st.mints ∧
      (st.persistPayload id payload).pendingDeposits = st.pendingDeposits ∧
      (st.persistPayload id payload).pendingCrossMintTransfers = st.pendingCrossMintTransfers ∧
      (st.persistPayload id payload).walAccount = st.walAccount := by
  simp [persistPayload]

@[simp] theorem persistDepositPayload_frame :
    (st.persistDepositPayload quoteId).proofs = st.proofs ∧
      (st.persistDepositPayload quoteId).ledger = st.ledger ∧
      (st.persistDepositPayload quoteId).journal = st.journal ∧
      (st.persistDepositPayload quoteId).mints = st.mints ∧
      (st.persistDepositPayload quoteId).pendingDeposits = st.pendingDeposits ∧
      (st.persistDepositPayload quoteId).pendingCrossMintTransfers =
        st.pendingCrossMintTransfers ∧
      (st.persistDepositPayload quoteId).walAccount = st.walAccount := by
  simp [persistDepositPayload]

@[simp] theorem persistCrossMintPayload_frame :
    (st.persistCrossMintPayload quoteId).proofs = st.proofs ∧
      (st.persistCrossMintPayload quoteId).ledger = st.ledger ∧
      (st.persistCrossMintPayload quoteId).journal = st.journal ∧
      (st.persistCrossMintPayload quoteId).mints = st.mints ∧
      (st.persistCrossMintPayload quoteId).pendingDeposits = st.pendingDeposits ∧
      (st.persistCrossMintPayload quoteId).pendingCrossMintTransfers =
        st.pendingCrossMintTransfers ∧
      (st.persistCrossMintPayload quoteId).walAccount = st.walAccount := by
  simp [persistCrossMintPayload]

/-- A transition moves the saga and nothing it is about. -/
@[simp] theorem advance_frame (next : WalletOperationState) :
    (st.advance id next).proofs = st.proofs ∧ (st.advance id next).ledger = st.ledger ∧
      (st.advance id next).mints = st.mints ∧
      (st.advance id next).pendingDeposits = st.pendingDeposits ∧
      (st.advance id next).pendingCrossMintTransfers = st.pendingCrossMintTransfers ∧
      (st.advance id next).walAccount = st.walAccount := by
  rcases st.advance_eq id next with h | ⟨journal, -, h⟩ <;> simp [h]

theorem transition_frame {st st' : CashuWalletState} {id : String} {next : WalletOperationState}
    (h : st.transition id next = .ok st') :
    st'.proofs = st.proofs ∧ st'.ledger = st.ledger ∧ st'.mints = st.mints ∧
      st'.pendingDeposits = st.pendingDeposits ∧
      st'.pendingCrossMintTransfers = st.pendingCrossMintTransfers ∧
      st'.walAccount = st.walAccount := by
  obtain ⟨journal, -, rfl⟩ := transition_eq h
  simp

theorem beginOperationAt_frame {st st' : CashuWalletState} {id : String}
    {kind : WalletOperationKind} {now : Nat} (h : st.beginOperationAt id kind now = .ok st') :
    st'.proofs = st.proofs ∧ st'.ledger = st.ledger ∧ st'.mints = st.mints ∧
      st'.pendingDeposits = st.pendingDeposits ∧
      st'.pendingCrossMintTransfers = st.pendingCrossMintTransfers ∧
      st'.walAccount = st.walAccount := by
  simp only [beginOperationAt] at h
  split at h
  · cases h
  · simpa using transition_frame h

@[simp] theorem recordConsumedInput_frame (input : WalletConsumedInput) :
    (st.recordConsumedInput id input).proofs = st.proofs ∧
      (st.recordConsumedInput id input).ledger = st.ledger ∧
      (st.recordConsumedInput id input).mints = st.mints ∧
      (st.recordConsumedInput id input).pendingDeposits = st.pendingDeposits ∧
      (st.recordConsumedInput id input).pendingCrossMintTransfers =
        st.pendingCrossMintTransfers ∧
      (st.recordConsumedInput id input).walAccount = st.walAccount := by
  unfold recordConsumedInput
  split <;> simp

@[simp] theorem editJournal_frame
    (f : WalletOperationJournal → Except WalletJournalError WalletOperationJournal) :
    (st.editJournal f).proofs = st.proofs ∧ (st.editJournal f).ledger = st.ledger ∧
      (st.editJournal f).mints = st.mints ∧
      (st.editJournal f).pendingDeposits = st.pendingDeposits ∧
      (st.editJournal f).pendingCrossMintTransfers = st.pendingCrossMintTransfers ∧
      (st.editJournal f).walAccount = st.walAccount := by
  unfold editJournal
  split <;> simp

@[simp] theorem editDeposit_frame (f : PendingDeposit → PendingDeposit) :
    (st.editDeposit quoteId f).proofs = st.proofs ∧
      (st.editDeposit quoteId f).ledger = st.ledger ∧
      (st.editDeposit quoteId f).journal = st.journal ∧
      (st.editDeposit quoteId f).mints = st.mints ∧
      (st.editDeposit quoteId f).pendingCrossMintTransfers = st.pendingCrossMintTransfers ∧
      (st.editDeposit quoteId f).walAccount = st.walAccount := by
  simp [editDeposit]

@[simp] theorem editCrossMint_frame (f : PendingCrossMintTransfer → PendingCrossMintTransfer) :
    (st.editCrossMint quoteId f).proofs = st.proofs ∧
      (st.editCrossMint quoteId f).ledger = st.ledger ∧
      (st.editCrossMint quoteId f).journal = st.journal ∧
      (st.editCrossMint quoteId f).mints = st.mints ∧
      (st.editCrossMint quoteId f).pendingDeposits = st.pendingDeposits ∧
      (st.editCrossMint quoteId f).walAccount = st.walAccount := by
  simp [editCrossMint]

@[simp] theorem insertDeposit_frame (pending : PendingDeposit) :
    (st.insertDeposit quoteId pending).proofs = st.proofs ∧
      (st.insertDeposit quoteId pending).ledger = st.ledger ∧
      (st.insertDeposit quoteId pending).journal = st.journal ∧
      (st.insertDeposit quoteId pending).mints = st.mints ∧
      (st.insertDeposit quoteId pending).pendingCrossMintTransfers =
        st.pendingCrossMintTransfers ∧
      (st.insertDeposit quoteId pending).walAccount = st.walAccount := by
  simp [insertDeposit]

@[simp] theorem insertCrossMint_frame (pending : PendingCrossMintTransfer) :
    (st.insertCrossMint quoteId pending).proofs = st.proofs ∧
      (st.insertCrossMint quoteId pending).ledger = st.ledger ∧
      (st.insertCrossMint quoteId pending).journal = st.journal ∧
      (st.insertCrossMint quoteId pending).mints = st.mints ∧
      (st.insertCrossMint quoteId pending).pendingDeposits = st.pendingDeposits ∧
      (st.insertCrossMint quoteId pending).walAccount = st.walAccount := by
  simp [insertCrossMint]

@[simp] theorem eraseDeposit_frame :
    (st.eraseDeposit quoteId).proofs = st.proofs ∧
      (st.eraseDeposit quoteId).ledger = st.ledger ∧
      (st.eraseDeposit quoteId).journal = st.journal ∧
      (st.eraseDeposit quoteId).mints = st.mints ∧
      (st.eraseDeposit quoteId).pendingCrossMintTransfers = st.pendingCrossMintTransfers ∧
      (st.eraseDeposit quoteId).walAccount = st.walAccount := by
  simp [eraseDeposit]

@[simp] theorem eraseCrossMint_frame :
    (st.eraseCrossMint quoteId).proofs = st.proofs ∧
      (st.eraseCrossMint quoteId).ledger = st.ledger ∧
      (st.eraseCrossMint quoteId).journal = st.journal ∧
      (st.eraseCrossMint quoteId).mints = st.mints ∧
      (st.eraseCrossMint quoteId).pendingDeposits = st.pendingDeposits ∧
      (st.eraseCrossMint quoteId).walAccount = st.walAccount := by
  simp [eraseCrossMint]

/-- The proofs come back under the mint they were reserved at, one after another. -/
theorem restoreProofs_eq (mint : String) (selected : List StoredProof) :
    st.restoreProofs mint selected =
      { st with
        proofs := st.proofs ++ selected.map fun s =>
          ⟨s.tokenEvent, canonicalizeMintUrl mint, s.proof⟩ } := by
  induction selected generalizing st with
  | nil => simp [restoreProofs]
  | cons s rest ih =>
    have hstep : st.restoreProofs mint (s :: rest) =
        (st.addProofs s.tokenEvent mint [s.proof]).restoreProofs mint rest := rfl
    rw [hstep, ih]
    simp [addProofs, attach]

end CashuWalletState

def proofAtoms (proofs : List Proof) : List ProofAtom :=
  proofs.map fun p => ⟨p.c, msatOf p.amount⟩

/-- The unit every fact of this backend is written under. -/
def sat : String := "sat"

end WalletState
