import NostrMultiPlatform.Runs
import NostrMultiPlatform.WalletCrossMint
import NostrMultiPlatform.WalletDeposit
import NostrMultiPlatform.WalletIngest
import NostrMultiPlatform.WalletLifecycle
import NostrMultiPlatform.WalletRedeem

/-!
# The backend as a system

The world is the shared state, the jobs in flight with the account each was
started under, and the token events handed to the relays. Every act is one
critical section, so a run is any interleaving of intents, workers, signing
continuations, observed events, account switches and crashes.
-/
namespace WalletSystem

open WalletProof WalletJournal WalletState WalletJobs WalletSend WalletRedeem WalletCrossMint
  WalletDeposit WalletIngest WalletLifecycle

structure World where
  state : CashuWalletState
  jobs : List (String × Job)
  relay : List TokenEvent
  deriving DecidableEq

/-- A backend just built, over its store. -/
def World.new (walStore : Option WalletWalStore) : World := ⟨.new walStore, [], []⟩

inductive Act
  | startSend (account op : String) (amount now : Nat)
  | startRedeem (account eventId : String) (now : Nat)
  | startCrossMint (account op target : String) (amount : Nat)
  | startDeposit (account op mint : String) (amount now : Nat)
  | startComplete (account quote : String)
  | checkState (account : String)
  | resume (account : String) (job : Job) (answer : Answer) (now : Nat)
  | observe (account : String) (event : TokenEvent)
  | observeConfig (account : String) (config : WalletConfig)
  | reset
  | restore (account : String)
  | crash
  deriving DecidableEq, Repr

variable (st : CashuWalletState)

/-- The critical section a job runs when it is resumed. -/
def resumeJob (answer : Answer) (now : Nat) : Job → Outcome
  | .fail op => .stay (st.advance op .failed) []
  | .markUncertain op => .stay (st.advance op .unknown) []
  | .sendRun op amount => sendRun st op amount answer
  | .sendProbe op amount ourMints remaining recipientMints =>
    sendProbe st op amount ourMints remaining recipientMints
  | .sendFallback op amount targets => sendFallback st op amount targets
  | .sendSupersede op amount target => sendSupersede st op amount target now
  | .sendChosen op amount mint => sendChosen st op amount mint
  | .sendSelected op amount mint selected total => sendSelected st op amount mint selected total
  | .sendKeyset op amount mint selected total =>
    sendKeyset st op amount mint selected total answer
  | .sendSwap op amount mint selected => sendSwap st op amount mint selected answer
  | .sendSigning op mint selected swapped => sendSigning st op mint selected swapped answer
  | .sendResume op mint selected swapped => sendResume st op mint selected swapped answer
  | .redeemRun op => redeemRun st op answer
  | .redeemKeys op nutzap locks => redeemKeys st op nutzap locks
  | .redeemReserve op nutzap => redeemReserve st op nutzap
  | .redeemSwap op nutzap => redeemSwap st op nutzap answer
  | .redeemFinish op nutzap fresh => redeemFinish st op nutzap fresh
  | .redeemTokenSigning op nutzap fresh => redeemTokenSigning st op nutzap fresh answer
  | .redeemHistorySigning op nutzap fresh tokenEventId =>
    redeemHistorySigning st op nutzap fresh tokenEventId answer
  | .redeemResume op nutzap fresh => redeemResume st op nutzap fresh answer
  | .crossPrepare op target amount retry => crossPrepare st op target amount retry
  | .crossBegin op target candidates amount retry =>
    crossBegin st op target candidates amount retry now
  | .crossQuote op target candidates amount retry =>
    crossQuote st op target candidates amount retry answer
  | .crossWalk op target quote candidates funded retry =>
    crossWalk st op target quote candidates funded retry answer
  | .crossSelected op target quote source meltQuote funded feeReserve selected retry =>
    crossSelected st op target quote source meltQuote funded feeReserve selected retry now
  | .crossMelt op quote source feeReserve selected retry =>
    crossMelt st op quote source feeReserve selected retry answer
  | .crossTarget quote retry => crossTarget st quote retry
  | .crossMint quote pending retry => crossMint st quote pending retry answer
  | .crossSigning op quote target proofs source feeSats retry =>
    crossSigning st op quote target proofs source feeSats retry answer
  | .crossRetry quote source amount feeSats => crossRetry st quote source amount feeSats now
  | .crossResume quote => crossResume st quote now
  | .crossStatus quote pending => crossStatus st quote pending answer
  | .depositQuote op mint amount => depositQuote st op mint amount answer
  | .depositComplete op quote mint amount => depositComplete st op quote mint amount now
  | .depositStillHeld quote signed => depositStillHeld st quote signed
  | .depositMint op quote mint _ lease => depositMint st op quote mint lease answer
  | .depositSigning op quote mint proofs lease =>
    depositSigning st op quote mint proofs lease answer
  | .depositResume op quote mint => depositResume st op quote mint now
  | .ingestToken event => ingestToken st event
  | .ingestConfig config => .stay (ingestWalletConfig st config) []
  | .checkPass debounced => checkPass st debounced
  | .checkMints debounced groups => checkMints st debounced groups answer
  | .spawnDebounced => spawnDebounced st

/-- The jobs that only look at the state. -/
def looks : Job → Bool
  | .sendProbe .. | .sendFallback .. | .sendChosen .. | .crossPrepare .. | .crossQuote ..
  | .crossWalk .. | .crossTarget .. | .depositStillHeld .. | .checkPass .. => true
  | _ => false

theorem resumeJob_looks (st : CashuWalletState) (answer : Answer) (now : Nat) {job : Job}
    (h : looks job = true) : (resumeJob st answer now job).state = st := by
  cases job with
  | sendProbe =>
    simp only [resumeJob, sendProbe]
    split
    · rfl
    · split <;> rfl
  | sendFallback =>
    simp only [resumeJob, sendFallback]
    split
    · rfl
    · split <;> rfl
  | sendChosen =>
    simp only [resumeJob, sendChosen]
    split <;> rfl
  | crossPrepare =>
    simp only [resumeJob, crossPrepare]
    split <;> rfl
  | crossQuote => cases answer <;> rfl
  | crossWalk =>
    simp only [resumeJob, crossWalk]
    split
    · rfl
    · split
      · split
        · rfl
        · split <;> rfl
      · rfl
  | crossTarget =>
    simp only [resumeJob, crossTarget]
    split
    · rfl
    · split
      · rfl
      · split <;> rfl
  | depositStillHeld =>
    simp only [resumeJob, depositStillHeld]
    split <;> rfl
  | checkPass => rfl
  | _ => cases h

/-- The operation of a job that at most moves it on or writes its payload. -/
def journals : Job → Option String
  | .fail op | .markUncertain op | .sendRun op _ | .sendSupersede op _ _ | .sendSwap op _ _ _
  | .sendResume op _ _ _ | .redeemSwap op _ | .redeemFinish op _ _
  | .redeemTokenSigning op _ _ => some op
  | _ => none

inductive Journaled (st : CashuWalletState) (op : String) : CashuWalletState → Prop
  | same : Journaled st op st
  | advance (next : WalletOperationState) : Journaled st op (st.advance op next)
  | payload (p : CashuWalPayload) : Journaled st op (st.persistPayload op p)

theorem resumeJob_journals (st : CashuWalletState) (answer : Answer) (now : Nat) {job : Job}
    {op : String} (h : journals job = some op) :
    Journaled st op (resumeJob st answer now job).state := by
  cases job with
  | sendRun | redeemTokenSigning => cases h; cases answer <;> constructor
  | sendSwap =>
    cases h
    simp only [resumeJob, sendSwap]
    split <;> constructor
  | sendResume =>
    cases h
    simp only [resumeJob, sendResume]
    split
    · exact .same
    · split
      · exact .same
      · split <;> exact .advance _
    · exact .same
  | redeemSwap =>
    cases h
    simp only [resumeJob, redeemSwap]
    split
    · exact .payload _
    · split <;> exact .advance _
    · exact .advance _
    · exact .advance _
  | fail | markUncertain | sendSupersede | redeemFinish => cases h; exact .advance _
  | _ => cases h

/-- A nutzap send or redeem begins its operation and leaves its command. -/
def startOperation (op : String) (kind : WalletOperationKind) (now : Nat)
    (note : CashuWalletState → CashuWalletState) (job : Job) : Outcome :=
  match st.beginOperationAt op kind now with
  | .error _ => .stay st []
  | .ok st => .stay (note st) [job]

/-- The mint must be accepted and the amount positive; the row is `MintPending` before the
request goes out. -/
def startDeposit (op mint : String) (amount now : Nat) : Outcome :=
  if amount = 0 ∨
      (st.mints.any fun m => canonicalizeMintUrl m = canonicalizeMintUrl mint) = false then
    .stay st []
  else
    match st.beginOperationAt op .depositCashu now with
    | .error _ => .stay st []
    | .ok begun =>
      match begun.transition op .mintPending with
      | .error _ => .stay begun []
      | .ok st => .stay st [.depositQuote op mint amount]

def startComplete (quote : String) : Outcome :=
  match st.pendingDeposits.lookup quote with
  | none => .stay st []
  | some p => .stay st [.depositComplete p.operationId quote p.mint p.amountSats]

/-- The world after a critical section of the account. -/
def World.after (w : World) (account : String) (out : Outcome) : World :=
  ⟨out.state, w.jobs ++ out.jobs.map fun job => (account, job), w.relay ++ out.published⟩

def step (w : World) : Act → World
  | .startSend account op amount now =>
    w.after account (startOperation w.state op .sendNutzap now
      (fun st => st.editJournal fun j => j.recordAmount op amount) (.sendRun op amount))
  | .startRedeem account eventId now =>
    w.after account (startOperation w.state ("redeem-" ++ eventId) .redeemNutzap now id
      (.redeemRun ("redeem-" ++ eventId)))
  | .startCrossMint account op target amount =>
    w.after account (crossPrepare w.state op target amount none)
  | .startDeposit account op mint amount now =>
    w.after account (startDeposit w.state op mint amount now)
  | .startComplete account quote => w.after account (startComplete w.state quote)
  | .checkState account => w.after account (.stay w.state [.checkPass false])
  | .resume account job answer now =>
    if (account, job) ∈ w.jobs then
      { w with jobs := w.jobs.erase (account, job) }.after account
        (resumeJob w.state answer now job)
    else w
  | .observe account event =>
    w.after account
      (.stay (settleDepositOnIngestedToken w.state event.id) [.ingestToken event])
  | .observeConfig account config => w.after account (.stay w.state [.ingestConfig config])
  | .reset => { w with state := reset w.state }
  | .restore account =>
    let restored := restoreFromWal w.state account
    w.after account (.stay restored.1 restored.2)
  | .crash => { w with state := .new w.state.walStore, jobs := [] }

end WalletSystem
