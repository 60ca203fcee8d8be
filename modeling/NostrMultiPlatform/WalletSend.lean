import NostrMultiPlatform.WalletJobs

/-!
# Sending a nutzap

The recipient's mints are probed one by one, the first funded one is selected
from, and the selection is reserved under a later lock. The swap's outcome is
folded only once the outgoing event is signed.
-/
namespace WalletSend

open WalletProof WalletState WalletJobs

variable (st : CashuWalletState) (op : String) (amount : Nat) (mint : String)
  (selected : List StoredProof)

/-- The consumed-input rows of a reservation. -/
def recordInputs : CashuWalletState :=
  selected.foldl
    (fun st s => st.recordConsumedInput op ⟨s.tokenEvent.getD "", mint, sat, s.proof.amount⟩) st

/-- Journals the inputs, then takes them out of the inventory if the saga allows it. -/
def reserveInputs : CashuWalletState × Bool :=
  match (recordInputs st op mint selected).transition op .mintPending with
  | .error _ => (recordInputs st op mint selected, false)
  | .ok st => (st.removeProofs selected, true)

/-- The change of a melt or a swap, under a synthetic token event of the operation. -/
def creditChange (change : List Proof) : CashuWalletState :=
  let known := if change = [] then st else
    st.applyFact (.tokenAdded ("pending-change-" ++ op) mint sat (proofAtoms change))
  known.addProofs none mint change

def sendRun : Answer → Outcome
  | .recipient mints => .stay st [.sendProbe op amount st.mints mints mints]
  | _ => .stay (st.advance op .failed) []

def sendProbe (st : CashuWalletState) (op : String) (amount : Nat)
    (ourMints remaining recipientMints : List String) : Outcome :=
  match remaining with
  | [] => .stay st [.sendFallback op amount recipientMints]
  | mint :: rest =>
    if (ourMints.any fun own => canonicalizeMintUrl own = canonicalizeMintUrl mint) ∧
        (st.selectProofs mint amount).isSome then
      .stay st [.sendChosen op amount mint]
    else .stay st [.sendProbe op amount ourMints rest recipientMints]

def sendFallback (st : CashuWalletState) (op : String) (amount : Nat) (targets : List String) :
    Outcome :=
  match targets with
  | [] => .stay st [.fail op]
  | target :: rest =>
    if (largestSpendableMintExcluding st.proofs target amount).isSome then
      .stay st [.sendSupersede op amount target]
    else .stay st [.sendFallback op amount rest]

/-- This attempt is superseded by a cross-mint transfer that retries it once settled. -/
def sendSupersede (target : String) (now : Nat) : Outcome :=
  .stay (st.advance op .failed)
    [.crossPrepare ("cashu-cross-mint-" ++ toString now) target amount (some amount)]

def sendChosen : Outcome :=
  match st.selectProofs mint amount with
  | none => .stay st [.fail op]
  | some (selected, total) => .stay st [.sendSelected op amount mint selected total]

def sendSelected (total : Nat) : Outcome :=
  match reserveInputs st op mint selected with
  | (st, false) => .stay st [.fail op]
  | (st, true) =>
    .stay (st.persistPayload op (.send mint selected none))
      [.sendKeyset op amount mint selected total]

/-- A failure before the swap: the reservation is undone. -/
def restoreAndFail : CashuWalletState :=
  (st.restoreProofs mint selected).advance op .failed

def sendKeyset (total : Nat) : Answer → Outcome
  | .feePpk inputFeePpk =>
    if total - amount < computeFee selected.length inputFeePpk then
      .stay (restoreAndFail st op mint selected) []
    else .stay st [.sendSwap op amount mint selected]
  | _ => .stay (restoreAndFail st op mint selected) []

/-- At or after the swap the inputs may be gone: a failure never restores them. -/
def sendSwap : Answer → Outcome
  | .proofs newProofs =>
    let swapped : SwappedSend := ⟨newProofs, (splitAmount amount).length⟩
    .stay (st.persistPayload op (.send mint selected (some swapped)))
      [.sendSigning op mint selected swapped]
  | _ => .stay (st.advance op .unknown) []

def SwappedSend.change (swapped : SwappedSend) : List Proof :=
  swapped.newProofs.drop swapped.nutzapCount

/-- The fold of a signed nutzap. The inputs left the inventory at reservation and are not
removed again. -/
def foldSend (swapped : SwappedSend) : CashuWalletState :=
  let feeSats := sumAmounts (selected.map StoredProof.proof) - sumAmounts swapped.newProofs
  let credited := creditChange (st.probeSpent selected) op (canonicalizeMintUrl mint)
    (SwappedSend.change swapped)
  ((((credited.editJournal fun j => j.recordFeeSats op feeSats).advance op .mintSettled).advance
    op .publishPending).advance op .settled)

def sendSigning (swapped : SwappedSend) : Answer → Outcome
  | .signed _ => .stay (foldSend st op mint selected swapped) []
  | _ => .stay st []

/-- A restored send: finish the committed swap, or ask the mint about the reserved inputs. -/
def sendResume (swapped : Option SwappedSend) (answer : Answer) : Outcome :=
  match swapped, answer with
  | some swapped, _ => .stay st [.sendSigning op mint selected swapped]
  | none, .spendStates states =>
    if states.length ≠ selected.length then .stay st []
    else if states.all (· = .unspent) then .stay (st.advance op .failed) []
    else .stay (st.advance op .unknown) []
  | none, _ => .stay st []

end WalletSend
