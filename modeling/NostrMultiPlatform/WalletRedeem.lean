import NostrMultiPlatform.WalletJobs

/-!
# Redeeming a nutzap

The received proofs are swapped for fresh ones, which are credited only when
both the token event and the history event are signed.
-/
namespace WalletRedeem

open WalletProof WalletJournal WalletState WalletJobs

variable (st : CashuWalletState) (op : String) (nutzap : ReceivedNutZap) (fresh : List Proof)

/-- The failure path of the command, which leaves a consumed input behind if there is none. -/
def redeemFail (input : WalletConsumedInput) : CashuWalletState :=
  let recorded := match st.journal.get op with
    | some row => if row.consumedInputs = [] then st.recordConsumedInput op input else st
    | none => st.recordConsumedInput op input
  recorded.advance op .failed

def inputOf : WalletConsumedInput :=
  ⟨nutzap.eventId, nutzap.mintUrl, sat, nutzap.amountSats⟩

/-- The event is looked up and decoded; a nutzap already redeemed is refused. -/
def redeemRun : Answer → Outcome
  | .nutzap nutzap locks =>
    let named := st.editJournal fun j => j.recordSender op nutzap.senderPubkey
    if named.ledger.isNutzapRedeemed nutzap.eventId then
      .stay (redeemFail named op (inputOf nutzap)) []
    else .stay named [.redeemKeys op nutzap locks]
  | _ => .stay (redeemFail st op ⟨"", "", sat, 0⟩) []

/-- Accepted mint, a wallet, proofs locked to it, a private key in this session. -/
def redeemKeys (locks : List (Option String)) : Outcome :=
  let accepted := st.mints.any fun m =>
    canonicalizeMintUrl m = canonicalizeMintUrl nutzap.mintUrl
  if accepted ∧ st.cashuPubkeyHex.isSome ∧ locks.all (· = st.cashuPubkeyHex) ∧
      st.cashuPrivkey.isSome then
    .stay st [.redeemReserve op nutzap]
  else .stay (redeemFail st op (inputOf nutzap)) []

def redeemReserve : Outcome :=
  let recorded := st.recordConsumedInput op (inputOf nutzap)
  match recorded.transition op .mintPending with
  | .error _ => .stay recorded [.fail op]
  | .ok st =>
    .stay (st.persistPayload op (.redeem nutzap nutzap.eventId nutzap.mintUrl none))
      [.redeemSwap op nutzap]

def redeemSwap :
    Answer → Outcome
  | .proofs fresh =>
    .stay (st.persistPayload op (.redeem nutzap nutzap.eventId nutzap.mintUrl (some fresh)))
      [.redeemFinish op nutzap fresh]
  | .feePpk inputFeePpk =>
    -- the fee alone consumes the nutzap; otherwise the swap itself went wrong
    if nutzap.amountSats - computeFee nutzap.proofs.length inputFeePpk = 0 then
      .stay (st.advance op .failed) []
    else .stay (st.advance op .unknown) []
  | .invalid => .stay (st.advance op .failed) []
  | _ => .stay (st.advance op .unknown) []

def redeemFinish : Outcome :=
  .stay (st.advance op .mintSettled) [.redeemTokenSigning op nutzap fresh]

def redeemTokenSigning : Answer → Outcome
  | .signed eventId =>
    ⟨st.advance op .publishPending, [.redeemHistorySigning op nutzap fresh eventId],
      [⟨eventId, nutzap.mintUrl, fresh, []⟩]⟩
  | _ => .stay st []

def foldRedeem (tokenEventId : String) : CashuWalletState :=
  let mint := canonicalizeMintUrl nutzap.mintUrl
  let credited := st.applyFact (.tokenAdded tokenEventId mint sat (proofAtoms fresh))
  let redeemed := credited.applyFact
    (.nutzapRedeemed nutzap.eventId (msatOf nutzap.amountSats) nutzap.senderPubkey)
  (redeemed.addProofs (some tokenEventId) mint fresh).advance op .settled

def redeemHistorySigning (tokenEventId : String) : Answer → Outcome
  | .signed _ => .stay (foldRedeem st op nutzap fresh tokenEventId) []
  | _ => .stay st []

/-- A redeem whose inputs the mint reports unspent is dropped from log and journal. -/
def dropRedeem : CashuWalletState :=
  let dropped := st.withWal fun store account =>
    (store.deleteOperation account op).deletePayload account op
  { dropped with journal := dropped.journal.remove op }

def redeemResume (fresh : Option (List Proof)) (answer : Answer) : Outcome :=
  match fresh, answer with
  | some fresh, _ => .stay st [.redeemFinish op nutzap fresh]
  | none, .spendStates states =>
    if states.length ≠ nutzap.proofs.length then .stay st []
    else if states.all (· = .unspent) then .stay (dropRedeem st op) []
    else .stay (st.advance op .unknown) []
  | none, _ => .stay st []

end WalletRedeem
