import NostrMultiPlatform.WalletSend

/-!
# Cross-mint transfers

A source mint is melted to pay the target mint's invoice. Candidates are walked
until one reserves proofs; from there the melt is irreversible, and a restart
asks the source mint what became of it. The target leg mints, publishes and folds.
-/
namespace WalletCrossMint

open WalletProof WalletState WalletJobs WalletSend

variable (st : CashuWalletState) (op quote : String) (pending : PendingCrossMintTransfer)
  (target : String)

def crossPrepare (amount : Nat) (retry : Option Nat) : Outcome :=
  let candidates := (spendableSourceCandidatesExcluding st.proofs target amount).map Prod.fst
  if amount = 0 ∨ isWellFormedMintUrl target = false ∨ candidates = [] then .stay st []
  else .stay st [.crossBegin op target candidates amount retry]

def crossBegin (candidates : List String) (amount : Nat) (retry : Option Nat) (now : Nat) :
    Outcome :=
  match st.beginOperationAt op .crossMintTransfer now with
  | .error _ => .stay st []
  | .ok st => .stay st [.crossQuote op target candidates amount retry]

/-- The target quote; only a transfer that funds a send adds headroom for its fee. -/
def crossQuote (candidates : List String) (amount : Nat) (retry : Option Nat) : Answer → Outcome
  | .mintQuote quote headroom =>
    let funded := if retry.isSome then min (amount + headroom) (u64Modulus - 1) else amount
    .stay st [.crossWalk op target quote candidates funded retry]
  | _ => .stay st [.fail op]

/-- One candidate: its melt quote, then a selection for amount and fee reserve. Nothing has
moved, so any failure falls through to the next. -/
def crossWalk (st : CashuWalletState) (op target quote : String) (candidates : List String)
    (funded : Nat) (retry : Option Nat) (answer : Answer) : Outcome :=
  match candidates with
  | [] => .stay st [.fail op]
  | source :: rest =>
    let next := Outcome.stay st [.crossWalk op target quote rest funded retry]
    match answer with
    | .meltQuote meltQuote amount feeReserve =>
      if amount ≠ funded ∨ u64Modulus ≤ amount + feeReserve then next
      else
        match st.selectProofs source (amount + feeReserve) with
        | none => next
        | some (selected, _) =>
          .stay st [.crossSelected op target quote source meltQuote funded feeReserve selected
            retry]
    | _ => next

/-- The commit: inputs journalled and removed, the transfer recorded, all before the melt. -/
def crossSelected (op target quote source meltQuote : String) (funded feeReserve : Nat)
    (selected : List StoredProof) (retry : Option Nat) (now : Nat) : Outcome :=
  match reserveInputs st op source selected with
  | (st, false) => .stay st [.fail op]
  | (st, true) =>
    let transfer : PendingCrossMintTransfer :=
      ⟨op, target, source, funded, quote, meltQuote, selected, false, none, none, some now⟩
    .stay ((st.insertCrossMint quote transfer).persistCrossMintPayload quote)
      [.crossMelt op quote source feeReserve selected retry]

/-- The fold of a melt the mint reports paid. -/
def foldMelt (op quote source : String) (feeReserve : Nat) (selected : List StoredProof)
    (change : List Proof) : CashuWalletState :=
  let credited := creditChange (st.probeSpent selected) op source change
  let settled := credited.editCrossMint quote fun p => { p with meltSettled := true }
  let charged := settled.editJournal fun j => j.recordFeeSats op (feeReserve - sumAmounts change)
  (charged.advance op .mintSettled).persistCrossMintPayload quote

/-- Only a paid melt moves on. Anything else may still be paid and restores nothing. -/
def crossMelt (op quote source : String) (feeReserve : Nat) (selected : List StoredProof)
    (retry : Option Nat) : Answer → Outcome
  | .melt .paid change =>
    .stay (foldMelt st op quote source feeReserve selected change) [.crossTarget quote retry]
  | _ => .stay (st.advance op .unknown) []

/-- The melt fee this transfer recorded, for the row of a retried send. -/
def meltFeeSats : Nat :=
  ((st.journal.get op).bind fun row => row.recordedFeeSats).getD 0

/-- The target leg resumes from what is recorded: a signed event, minted proofs, or neither. -/
def crossTarget (retry : Option Nat) : Outcome :=
  match st.pendingCrossMintTransfers.lookup quote with
  | none => .stay st []
  | some p =>
    match p.signedToken with
    | some signed => ⟨st, [], [signed]⟩
    | none =>
      match p.mintedProofs with
      | some proofs =>
        .stay st [.crossSigning p.operationId quote p.targetMint proofs p.sourceMint
          (meltFeeSats st p.operationId) retry]
      | none => .stay st [.crossMint quote p retry]

def crossMint (retry : Option Nat) : Answer → Outcome
  | .quotePaid (some proofs) =>
    let recorded := st.editCrossMint quote fun p =>
      { p with mintedProofs := p.mintedProofs <|> some proofs }
    .stay (recorded.persistCrossMintPayload quote)
      [.crossSigning pending.operationId quote pending.targetMint proofs pending.sourceMint
        (meltFeeSats recorded pending.operationId) retry]
  | _ => .stay st []

/-- A mint the wallet holds proofs at becomes an accepted one. -/
def acceptMint (mint : String) : CashuWalletState :=
  if st.mints.any fun m => canonicalizeMintUrl m = mint then st
  else { st with mints := st.mints ++ [mint] }

@[simp] theorem acceptMint_frame (st : CashuWalletState) (mint : String) :
    (acceptMint st mint).proofs = st.proofs ∧ (acceptMint st mint).ledger = st.ledger ∧
      (acceptMint st mint).journal = st.journal ∧
      (acceptMint st mint).pendingDeposits = st.pendingDeposits ∧
      (acceptMint st mint).pendingCrossMintTransfers = st.pendingCrossMintTransfers ∧
      (acceptMint st mint).walAccount = st.walAccount := by
  unfold acceptMint
  split <;> simp

/-- The fold of the signed target token. It is not fenced on the lease. -/
def foldTarget (proofs : List Proof) (signed : TokenEvent) : CashuWalletState :=
  let mint := canonicalizeMintUrl target
  let credited := (st.addProofs (some signed.id) mint proofs).applyFact
    (.tokenAdded signed.id mint sat (proofAtoms proofs))
  let settled := ((acceptMint credited mint).advance op .publishPending).advance op .settled
  (settled.editCrossMint quote fun p =>
    { p with signedToken := some signed }).persistCrossMintPayload quote

def crossSigning (proofs : List Proof) (source : String) (feeSats : Nat) (retry : Option Nat) :
    Answer → Outcome
  | .signed eventId =>
    let signed : TokenEvent := ⟨eventId, target, proofs, []⟩
    let again := match retry with
      | none => []
      | some amount => [Job.crossRetry quote source amount feeSats]
    ⟨foldTarget st op quote target proofs signed, again, [signed]⟩
  | _ => .stay st []

/-- The send this transfer funded starts over under a fresh operation. -/
def crossRetry (quote source : String) (amount feeSats now : Nat) : Outcome :=
  let op := "cross-mint-retry-send-" ++ quote
  match st.beginOperationAt op .sendNutzap now with
  | .error _ => .stay st []
  | .ok st =>
    let noted := (st.editJournal fun j => j.recordAmount op amount).editJournal fun j =>
      j.recordCrossMintOrigin op source feeSats
    .stay noted [.sendRun op amount]

def crossResume (now : Nat) : Outcome :=
  match st.pendingCrossMintTransfers.lookup quote with
  | none => .stay st []
  | some p =>
    let stamped := st.editCrossMint quote fun p => { p with chainStartedAt := some now }
    if p.meltSettled then .stay stamped [.crossTarget quote none]
    else .stay stamped [.crossStatus quote { p with chainStartedAt := some now }]

/-- The revert of a transfer: its inputs return to the inventory, the operation fails. -/
def revertTransfer : CashuWalletState :=
  let restored := st.restoreProofs pending.sourceMint pending.sourceSelected
  (restored.eraseCrossMint quote).advance pending.operationId .failed

/-- The source mint's word on the melt: paid moves on, every other state reverts, no answer
changes nothing. -/
def crossStatus :
    Answer → Outcome
  | .meltState .paid =>
    let settled := st.editCrossMint quote fun p => { p with meltSettled := true }
    .stay ((settled.advance pending.operationId .mintSettled).persistCrossMintPayload quote)
      [.crossTarget quote none]
  | .meltState _ => .stay (revertTransfer st quote pending) []
  | _ => .stay st []

end WalletCrossMint
