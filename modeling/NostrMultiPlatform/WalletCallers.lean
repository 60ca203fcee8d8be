import NostrMultiPlatform.WalletSystem

/-!
# Who waits for a send

A send's correlation id is handed from job to job: its own command and worker carry
it, a parked attempt keeps it, a transfer that funds it carries it in `on_settled`.
The backend here is the system with these ids, the parked sends and the action results.
-/
namespace WalletCallers

open WalletProof WalletState WalletJobs WalletSend WalletSystem

/-- The send a job is part of. -/
structure SendRetry where
  recipientPubkey : String
  amountSats : Nat
  targetEventId : Option String
  correlationId : Option String
  deriving DecidableEq, Repr

/-- A send parked until its recipient's kind 10019 arrives. -/
structure PendingSendAwait where
  awaitId : Nat
  accountPubkey : String
  send : SendRetry
  parkedAtSecs : Nat
  deriving DecidableEq, Repr

/-- A job in flight. A transfer's job carries a send only where the transfer funds one. -/
structure Waiting where
  account : String
  send : Option SendRetry
  job : Job
  deriving DecidableEq, Repr

def Waiting.caller (w : Waiting) : Option String := w.send.bind SendRetry.correlationId

structure Backend where
  state : CashuWalletState
  pendingSends : List PendingSendAwait
  nextSendAwaitId : Nat
  waiting : List Waiting
  /-- The presigned publishes with an id, until the publish engine reports on them. -/
  publishing : List String
  /-- Every action result, by correlation id: was it a success? -/
  results : List (String × Bool)
  /-- The ids of the sends the backend was asked for. -/
  dispatched : List String
  deriving DecidableEq

def Backend.new (walStore : Option WalletWalStore) : Backend :=
  ⟨.new walStore, [], 0, [], [], [], []⟩

def operationIdFor (correlationId : Option String) (nowSecs : Nat) (label : String) : String :=
  correlationId.getD ("cashu-" ++ label ++ "-" ++ toString nowSecs)

def nutzapInfoAwaitTimeoutSecs : Nat := 20

/-- What a job does with the send it is part of. -/
inductive Handover
  | carries
  | parks
  | publishes
  | fails
  | drops
  deriving DecidableEq, Repr

/-- A transfer's job passes the send it funds on only where the transfer goes on. -/
def goesOn (st : CashuWalletState) (answer : Answer) (now : Nat) : Job → Bool
  | .crossPrepare _ target amount _ =>
    amount ≠ 0 && isWellFormedMintUrl target &&
      !(spendableSourceCandidatesExcluding st.proofs target amount).isEmpty
  | .crossBegin op _ _ _ _ =>
    match st.beginOperationAt op .crossMintTransfer now with
    | .ok _ => true
    | .error _ => false
  | .crossQuote _ _ _ _ _ =>
    match answer with
    | .mintQuote _ _ => true
    | _ => false
  | .crossWalk _ _ _ candidates _ _ => !candidates.isEmpty
  | .crossSelected op _ _ source _ _ _ selected _ => (reserveInputs st op source selected).2
  | .crossMelt _ _ _ _ _ _ =>
    match answer with
    | .melt .paid _ => true
    | _ => false
  | .crossTarget quote _ =>
    (st.pendingCrossMintTransfers.lookup quote).any fun p => p.signedToken.isNone
  | .crossMint _ _ _ =>
    match answer with
    | .quotePaid (some _) => true
    | _ => false
  | .crossSigning _ _ _ _ _ _ retry =>
    match answer with
    | .signed _ => retry.isSome
    | _ => false
  | _ => false

/-- A send's own jobs pass it on, park it, publish it or report its failure. -/
def handover (st : CashuWalletState) (answer : Answer) (now : Nat) : Job → Handover
  | .fail _ => .fails
  | .sendRun _ _ =>
    match answer with
    | .recipient _ => .carries
    | .none => .parks
    | _ => .fails
  | .sendProbe _ _ _ _ _ | .sendFallback _ _ _ | .sendSupersede _ _ _ | .sendChosen _ _ _
  | .sendSelected _ _ _ _ _ => .carries
  | .sendKeyset _ amount _ selected total =>
    match answer with
    | .feePpk inputFeePpk =>
      if total - amount < computeFee selected.length inputFeePpk then .fails else .carries
    | _ => .fails
  | .sendSwap _ _ _ _ =>
    match answer with
    | .proofs _ => .carries
    | _ => .fails
  | .sendSigning _ _ _ _ =>
    match answer with
    | .signed _ => .publishes
    | _ => .fails
  | .crossRetry quote _ _ _ =>
    match st.beginOperationAt ("cross-mint-retry-send-" ++ quote) .sendNutzap now with
    | .ok _ => .carries
    | .error _ => .fails
  | job => if goesOn st answer now job then .carries else .drops

namespace Backend

variable (b : Backend) (account : String)

/-- Records an action result, if anyone waits for it. -/
def report (correlationId : Option String) (ok : Bool) : Backend :=
  { b with results := b.results ++ correlationId.toList.map fun id => (id, ok) }

def parkSendAwait (now : Nat) : Option SendRetry → Backend
  | none => b
  | some send =>
    { b with
      pendingSends := b.pendingSends ++ [⟨b.nextSendAwaitId, account, send, now⟩]
      nextSendAwaitId := b.nextSendAwaitId + 1 }

/-- Begins the operation and leaves the command of the send; a refusal is reported. -/
def beginSend (send : SendRetry) (op : String) (now : Nat) : Backend :=
  match b.state.beginOperationAt op .sendNutzap now with
  | .error _ => b.report send.correlationId false
  | .ok st =>
    { b with
      state := st.editJournal fun j => j.recordAmount op send.amountSats
      waiting := b.waiting ++ [⟨account, some send, .sendRun op send.amountSats⟩] }

def startSendNutzap (send : SendRetry) (now : Nat) : Backend :=
  { b.beginSend account send (operationIdFor send.correlationId now "send-nutzap") now with
    dispatched := b.dispatched ++ send.correlationId.toList }

/-- The job leaves, its successors arrive; the send is where the job handed it. -/
def resume (w : Waiting) (answer : Answer) (now : Nat) : Backend :=
  let out := resumeJob b.state answer now w.job
  let after (send : Option SendRetry) : Backend :=
    { b with
      state := out.state
      waiting := b.waiting.erase w ++ out.jobs.map fun job => ⟨w.account, send, job⟩ }
  match handover b.state answer now w.job with
  | .carries => after w.send
  | .parks => (after none).parkSendAwait w.account now w.send
  | .publishes => { after none with publishing := b.publishing ++ w.caller.toList }
  | .fails => (after none).report w.caller false
  | .drops => after none

/-- `redrive`: a parked send starts over under a fresh operation. -/
def redrive (now : Nat) (b : Backend) (parked : PendingSendAwait) : Backend :=
  b.beginSend parked.accountPubkey parked.send
    ("nutzap-await-redrive-" ++ toString parked.awaitId) now

/-- The recipient's kind 10019 arrives: every send parked on it is redriven. -/
def nutzapInfoArrived (author : String) (now : Nat) : Backend :=
  let taken := b.pendingSends.filter fun p => p.send.recipientPubkey = author
  taken.foldl (redrive now)
    { b with pendingSends := b.pendingSends.filter fun p => ¬ p.send.recipientPubkey = author }

def expired (now : Nat) (p : PendingSendAwait) : Bool :=
  nutzapInfoAwaitTimeoutSecs ≤ now - p.parkedAtSecs

def runTtlSweep (now : Nat) : Backend :=
  (b.pendingSends.filter (expired now)).foldl
    (fun b p => b.report p.send.correlationId false)
    { b with pendingSends := b.pendingSends.filter fun p => ¬ expired now p }

end Backend

inductive Act
  | startSend (account : String) (send : SendRetry) (now : Nat)
  | resume (w : Waiting) (answer : Answer) (now : Nat)
  | nutzapInfo (author : String) (now : Nat)
  | ttlSweep (now : Nat)
  /-- The publish engine's verdict. -/
  | published (id : String) (ok : Bool)
  /-- Everything else the backend does, on behalf of no send with a caller. -/
  | other (act : WalletSystem.Act)
  deriving DecidableEq, Repr

/-- A reset forgets the parked sends; a crash ends everything but the store. Sends start above. -/
def other (b : Backend) (act : WalletSystem.Act) : Backend :=
  let w := WalletSystem.step ⟨b.state, [], []⟩ act
  match act with
  | .reset => { b with state := w.state, pendingSends := [], nextSendAwaitId := 0 }
  | .crash => .new w.state.walStore
  | .startSend _ _ _ _ => b
  | _ =>
    { b with
      state := w.state
      waiting := b.waiting ++ w.jobs.map fun p => ⟨p.1, none, p.2⟩ }

def step (b : Backend) : Act → Backend
  | .startSend account send now => b.startSendNutzap account send now
  | .resume w answer now => if w ∈ b.waiting then b.resume w answer now else b
  | .nutzapInfo author now => b.nutzapInfoArrived author now
  | .ttlSweep now => b.runTtlSweep now
  | .published id ok =>
    if id ∈ b.publishing then
      ({ b with publishing := b.publishing.erase id } : Backend).report (some id) ok
    else b
  | .other act => other b act

end WalletCallers
