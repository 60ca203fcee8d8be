import NostrMultiPlatform.WalletState

/-!
# Commands, workers and continuations in flight

A job is a piece of backend code between two critical sections, with what its
closure captured. It is resumed with the answer of the mint, the signer or a
cache, takes the lock once, and leaves the next jobs behind.
-/
namespace WalletJobs

open WalletProof WalletState

inductive MeltQuoteState
  | unpaid
  | pending
  | paid
  deriving DecidableEq, Repr

inductive ProofSpendState
  | unspent
  | spent
  | pending
  deriving DecidableEq, Repr

/-- A decoded kind 17375 event. -/
structure WalletConfig where
  privkeyHex : String
  pubkeyHex : String
  mints : List String
  deriving DecidableEq, Repr

inductive Job
  /-- An error path about to move its operation to `Failed`. -/
  | fail (op : String)
  /-- An ambiguous failure about to move its operation to `Unknown`. -/
  | markUncertain (op : String)
  -- `SendNutzap`
  | sendRun (op : String) (amount : Nat)
  | sendProbe (op : String) (amount : Nat) (ourMints remaining recipientMints : List String)
  | sendFallback (op : String) (amount : Nat) (targets : List String)
  | sendSupersede (op : String) (amount : Nat) (target : String)
  | sendChosen (op : String) (amount : Nat) (mint : String)
  | sendSelected (op : String) (amount : Nat) (mint : String) (selected : List StoredProof)
      (total : Nat)
  | sendKeyset (op : String) (amount : Nat) (mint : String) (selected : List StoredProof)
      (total : Nat)
  | sendSwap (op : String) (amount : Nat) (mint : String) (selected : List StoredProof)
  | sendSigning (op mint : String) (selected : List StoredProof) (swapped : SwappedSend)
  | sendResume (op mint : String) (selected : List StoredProof) (swapped : Option SwappedSend)
  -- `RedeemNutzap`
  | redeemRun (op : String)
  | redeemKeys (op : String) (nutzap : ReceivedNutZap) (locks : List (Option String))
  | redeemReserve (op : String) (nutzap : ReceivedNutZap)
  | redeemSwap (op : String) (nutzap : ReceivedNutZap)
  | redeemFinish (op : String) (nutzap : ReceivedNutZap) (fresh : List Proof)
  | redeemTokenSigning (op : String) (nutzap : ReceivedNutZap) (fresh : List Proof)
  | redeemHistorySigning (op : String) (nutzap : ReceivedNutZap) (fresh : List Proof)
      (tokenEventId : String)
  | redeemResume (op : String) (nutzap : ReceivedNutZap) (fresh : Option (List Proof))
  -- `CrossMintTransfer`
  | crossPrepare (op target : String) (amount : Nat) (retry : Option Nat)
  | crossBegin (op target : String) (candidates : List String) (amount : Nat)
      (retry : Option Nat)
  | crossQuote (op target : String) (candidates : List String) (amount : Nat)
      (retry : Option Nat)
  | crossWalk (op target quote : String) (candidates : List String) (funded : Nat)
      (retry : Option Nat)
  | crossSelected (op target quote source meltQuote : String) (funded feeReserve : Nat)
      (selected : List StoredProof) (retry : Option Nat)
  | crossMelt (op quote source : String) (feeReserve : Nat) (selected : List StoredProof)
      (retry : Option Nat)
  | crossTarget (quote : String) (retry : Option Nat)
  | crossMint (quote : String) (pending : PendingCrossMintTransfer) (retry : Option Nat)
  | crossSigning (op quote target : String) (proofs : List Proof) (source : String)
      (feeSats : Nat) (retry : Option Nat)
  | crossRetry (quote source : String) (amount feeSats : Nat)
  | crossResume (quote : String)
  | crossStatus (quote : String) (pending : PendingCrossMintTransfer)
  -- `DepositQuoteCashu` and `CompleteDepositCashu`
  | depositQuote (op mint : String) (amount : Nat)
  | depositComplete (op quote mint : String) (amount : Nat)
  | depositStillHeld (quote : String) (signed : TokenEvent)
  | depositMint (op quote mint : String) (amount lease : Nat)
  | depositSigning (op quote mint : String) (proofs : List Proof) (lease : Nat)
  | depositResume (op quote mint : String)
  -- ingestion and reconciliation
  | ingestToken (event : TokenEvent)
  | ingestConfig (config : WalletConfig)
  | checkPass (debounced : Bool)
  | checkMints (debounced : Bool) (groups : List (String × List StoredProof))
  | spawnDebounced
  deriving DecidableEq, Repr

/-- Jobs are looked up beside their account. -/
instance : LawfulBEq (String × Job) := inferInstance

/-- What a job is resumed with; anything but the answer it waits for is a failure. -/
inductive Answer
  | none
  | invalid
  | recipient (mints : List String)
  | nutzap (nutzap : ReceivedNutZap) (locks : List (Option String))
  | feePpk (inputFeePpk : Nat)
  | proofs (proofs : List Proof)
  | signed (eventId : String)
  | mintQuote (quote : String) (headroom : Nat)
  | meltQuote (quote : String) (amount feeReserve : Nat)
  | melt (state : MeltQuoteState) (change : List Proof)
  | meltState (state : MeltQuoteState)
  | quoteNotPaid
  | quotePaid (minted : Option (List Proof))
  | spendStates (states : List ProofSpendState)
  deriving DecidableEq, Repr

/-- The state after a critical section, the jobs it leaves, the event it hands to the relays. -/
structure Outcome where
  state : CashuWalletState
  jobs : List Job
  published : List TokenEvent

def Outcome.stay (st : CashuWalletState) (jobs : List Job) : Outcome := ⟨st, jobs, []⟩

end WalletJobs
