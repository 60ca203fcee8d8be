import NostrMultiPlatform.WalletJobs

/-!
# Deposits

A quote is completed by attempts that may overlap. An attempt takes a lease,
mints unless proofs are recorded, signs a token event and folds it if the lease
is still its own. The event is handed to the relays either way.
-/
namespace WalletDeposit

open WalletProof WalletState WalletJobs

/-- `DEPOSIT_CHAIN_LEASE_SECS`. -/
def depositChainLeaseSecs : Nat := 60

variable (st : CashuWalletState) (op quote mint : String)

def depositQuote (amount : Nat) : Answer → Outcome
  | .mintQuote quote _ =>
    let pending : PendingDeposit := ⟨op, mint, amount, none, none, none⟩
    let recorded := (st.insertDeposit quote pending).advance op .mintSettled
    .stay (recorded.persistDepositPayload quote) []
  | _ => .stay (st.advance op .failed) []

/-- Takes the lease and resumes from the minted proofs, or from the start. -/
def takeLease (amount now : Nat) (pending : PendingDeposit) : Outcome :=
  let leased := st.editDeposit quote fun p => { p with chainStartedAt := some now }
  match pending.mintedProofs with
  | some proofs => .stay leased [.depositSigning op quote mint proofs now]
  | none => .stay leased [.depositMint op quote mint amount now]

/-- A signed event is republished, a fresh lease is waited for, an expired one taken over. -/
def depositComplete (amount now : Nat) : Outcome :=
  match st.pendingDeposits.lookup quote with
  | none => .stay st []
  | some p =>
    match p.signedToken, p.chainStartedAt with
    | some signed, _ => .stay st [.depositStillHeld quote signed]
    | none, some startedAt =>
      if now - startedAt < depositChainLeaseSecs then .stay st []
      else takeLease st op quote mint amount now p
    | none, none => takeLease st op quote mint amount now p

/-- Every minted proof is still held under the signed event. -/
def stillHeld (signed : TokenEvent) : Bool :=
  match (st.pendingDeposits.lookup quote).bind fun p => p.mintedProofs with
  | none => false
  | some original =>
    let held := storedCs (st.proofs.filter fun s => s.tokenEvent = some signed.id)
    original.all fun p => p.c ∈ held

def depositStillHeld (signed : TokenEvent) : Outcome :=
  if stillHeld st quote signed then ⟨st, [], [signed]⟩ else .stay st []

/-- Clears the lease only if it is still the attempt's own. -/
def clearChainLease (lease : Nat) : CashuWalletState :=
  st.editDeposit quote fun p =>
    if p.chainStartedAt = some lease then { p with chainStartedAt := none } else p

/-- Minted proofs are written if none are recorded; the attempt goes on with its own. -/
def depositMint (lease : Nat) :
    Answer → Outcome
  | .quotePaid (some proofs) =>
    let recorded := st.editDeposit quote fun p =>
      { p with mintedProofs := p.mintedProofs <|> some proofs }
    .stay (recorded.persistDepositPayload quote) [.depositSigning op quote mint proofs lease]
  | .quotePaid none => .stay (clearChainLease st quote lease) [.markUncertain op]
  | _ => .stay (clearChainLease st quote lease) []

/-- The fold of a signed token event, fenced on the lease. -/
def foldDeposit (proofs : List Proof) (lease : Nat) (signed : TokenEvent) : CashuWalletState :=
  if (st.pendingDeposits.lookup quote).bind (fun p => p.chainStartedAt) ≠ some lease then st
  else
    let mint := canonicalizeMintUrl mint
    let credited := (st.addProofs (some signed.id) mint proofs).applyFact
      (.tokenAdded signed.id mint sat (proofAtoms proofs))
    ((credited.advance op .publishPending).editDeposit quote fun p =>
      { p with signedToken := some signed, chainStartedAt := none }).persistDepositPayload quote

/-- The event is published whether or not the fold was fenced out. -/
def depositSigning (proofs : List Proof) (lease : Nat) : Answer → Outcome
  | .signed eventId =>
    let signed : TokenEvent := ⟨eventId, mint, proofs, []⟩
    ⟨foldDeposit st op quote mint proofs lease signed, [], [signed]⟩
  | _ => .stay st []

def depositResume (now : Nat) : Outcome :=
  match st.pendingDeposits.lookup quote with
  | none => .stay st []
  | some p =>
    match p.signedToken, p.mintedProofs with
    | some signed, _ => ⟨st, [], [signed]⟩
    | none, some proofs =>
      .stay (st.editDeposit quote fun p => { p with chainStartedAt := some now })
        [.depositSigning op quote mint proofs now]
    | none, none => .stay st []

/-- A deposit whose signed event comes back from a relay is settled and retired. -/
def settleDepositOnIngestedToken (eventId : String) : CashuWalletState :=
  let matched := st.pendingDeposits.entries.find? fun row =>
    row.2.signedToken.any fun signed => signed.id = eventId
  match matched with
  | none => st
  | some row => (st.advance row.2.operationId .settled).eraseDeposit row.1

end WalletDeposit
