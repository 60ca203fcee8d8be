import Mathlib.Data.List.Destutter
import NostrMultiPlatform.WalletState

/-!
# The NIP-60 wallet handle

The handle holds token records in memory and queues events in an outbox: a token
event for every batch of new proofs, a deletion for every record that is spent
whole. A token event's content is encrypted for the owner; encryption is a parameter.
-/
namespace Nip60Wallet

open WalletProof
open WalletState (ReceivedNutZap)

/-- The plaintext of a kind 7375 event. -/
structure TokenContent where
  mint : String
  proofs : List Proof
  del : List String
  deriving DecidableEq, Repr

/-- A kind 7375 event. -/
structure TokenEvent (γ : Type) where
  id : String
  content : γ
  deriving DecidableEq, Repr

structure TokenRecord where
  mintUrl : String
  proofs : List Proof
  del : List String
  eventId : Option String
  deriving DecidableEq, Repr

def TokenRecord.new (mintUrl : String) (proofs : List Proof) : TokenRecord :=
  ⟨mintUrl, proofs, [], none⟩

def TokenRecord.balance (record : TokenRecord) : Nat := sumAmounts record.proofs

/-- What the handle publishes: its wallet, tokens, deletions of them, history and nutzaps. -/
inductive Event (γ : Type)
  | wallet (mints : List String)
  | token (event : TokenEvent γ)
  | deletion (target : String)
  | history (redeemed : List String)
  | nutzap (mint : String) (proofs : List Proof)
  deriving DecidableEq, Repr

section
variable {γ : Type} (encrypt : TokenContent → γ) (decrypt : γ → Option TokenContent)

def buildTokenEvent (record : TokenRecord) (id : String) : TokenEvent γ :=
  ⟨id, encrypt ⟨record.mintUrl, record.proofs, record.del⟩⟩

def decodeTokenEvent (event : TokenEvent γ) : Option TokenRecord :=
  (decrypt event.content).map fun content =>
    ⟨content.mint, content.proofs, content.del, some event.id⟩

end

structure Nip60WalletHandle (γ : Type) where
  mints : List String
  tokens : List TokenRecord
  redeemed : List String
  outbox : List (Event γ)
  deriving DecidableEq, Repr

/-- The mint signs exactly the outputs it was asked for, or its answer is refused. -/
def finalizeBlindedOutputs (denominations : List Nat) (answer : Option (List Proof)) :
    Option (List Proof) :=
  answer.filter fun proofs => proofs.map Proof.amount = denominations

/-- A swap of the inputs for outputs of these amounts. -/
def swap (inputs : List Proof) (outputAmounts : List Nat) (answer : Option (List Proof)) :
    Option (List Proof) :=
  if inputs = [] ∨ outputAmounts = [] ∨ 0 ∈ outputAmounts ∨ u64Modulus ≤ outputAmounts.sum then
    none
  else finalizeBlindedOutputs outputAmounts answer

def mintTokens (totalAmount : Nat) (answer : Option (List Proof)) : Option (List Proof) :=
  if totalAmount = 0 then none else finalizeBlindedOutputs (splitAmount totalAmount) answer

/-- The inner loop of `select_proofs`, over one record. -/
def selectFrom (amount total : Nat) : List Proof → List Proof × Nat
  | [] => ([], total)
  | p :: rest =>
    if amount ≤ total then ([], total)
    else
      let more := selectFrom amount (addU64 total p.amount) rest
      (p :: more.1, more.2)

/-- The outer loop, which stops at the record that covers the amount. -/
def selectRecords (amount total : Nat) : List TokenRecord → List Proof × Nat
  | [] => ([], total)
  | record :: rest =>
    let found := selectFrom amount total record.proofs
    if amount ≤ found.2 then found
    else
      let more := selectRecords amount found.2 rest
      (found.1 ++ more.1, more.2)

variable (spent : List Proof) (tokens : List TokenRecord)

def selectProofs (amount : Nat) (mintUrl : String) : Option (List Proof) :=
  let target := canonicalizeMintUrl mintUrl
  let found := selectRecords amount 0
    (tokens.filter fun record => canonicalizeMintUrl record.mintUrl = target)
  if found.2 < amount then none else some found.1

def secretsOf (proofs : List Proof) : List String := proofs.map Proof.secret

/-- What is left of a record once the proofs with these secrets are spent. -/
def remaining (record : TokenRecord) : List Proof :=
  record.proofs.filter fun p => p.secret ∉ secretsOf spent

/-- The events of the records that are spent whole. -/
def destroyedEventIds : List String :=
  tokens.filterMap fun record => if remaining spent record = [] then record.eventId else none

/-- The records of which something is left. -/
def keptTokens : List TokenRecord :=
  tokens.filterMap fun record =>
    if remaining spent record = [] then none
    else some { record with proofs := remaining spent record }

/-- The proofs a completed send selected, those it hands over, and its change. -/
structure Spend where
  selected : List Proof
  nutzapProofs : List Proof
  change : List Proof
  deriving DecidableEq, Repr

/-- `create_p2pk_proofs` up to the swap. -/
def spend (amount : Nat) (mintUrl : String) (inputFeePpk : Option Nat)
    (answer : Option (List Proof)) : Option Spend :=
  (selectProofs tokens amount mintUrl).bind fun selected =>
    inputFeePpk.bind fun inputFeePpk =>
      let fee := computeFee selected.length inputFeePpk
      let grossChange := sumAmounts selected - amount
      if grossChange < fee then none
      else
        let outputAmounts := splitAmount amount
        (swap selected (outputAmounts ++ splitAmount (grossChange - fee)) answer).map fun newProofs =>
          ⟨selected, newProofs.take outputAmounts.length, newProofs.drop outputAmounts.length⟩

namespace Nip60WalletHandle

variable {γ : Type}

def createNew (mintUrl : String) : Nip60WalletHandle γ := ⟨[mintUrl], [], [], [.wallet [mintUrl]]⟩

def fromWalletEvent (mints : List String) : Nip60WalletHandle γ := ⟨mints, [], [], []⟩

def takeOutbox (handle : Nip60WalletHandle γ) : List (Event γ) × Nip60WalletHandle γ :=
  (handle.outbox, { handle with outbox := [] })

def balanceSats (handle : Nip60WalletHandle γ) : Nat :=
  (handle.tokens.map TokenRecord.balance).foldl addU64 0

/-- Sorted and deduplicated by id; an event that does not decode is skipped. -/
def ingestTokenEvents (decrypt : γ → Option TokenContent) (handle : Nip60WalletHandle γ)
    (events : List (TokenEvent γ)) : Nip60WalletHandle γ :=
  let sorted := events.mergeSort fun a b => a.id ≤ b.id
  { handle with
    tokens := (sorted.destutter fun a b => a.id ≠ b.id).filterMap (decodeTokenEvent decrypt) }

section
variable (encrypt : TokenContent → γ)

variable (handle : Nip60WalletHandle γ)

/-- Save new proofs as a token event and record them under its id. -/
def saveProofs (mintUrl : String) (proofs : List Proof) (tokenId : String) (redeemed : List String)
    : Nip60WalletHandle γ :=
  let record := TokenRecord.new mintUrl proofs
  { handle with
    tokens := handle.tokens ++ [{ record with eventId := some tokenId }]
    outbox := handle.outbox ++ [.token (buildTokenEvent encrypt record tokenId), .history redeemed] }

def completeDeposit (mintUrl : String) (amount : Nat) (answer : Option (List Proof))
    (tokenId : String) : Nip60WalletHandle γ :=
  match mintTokens amount answer with
  | none => handle
  | some proofs => handle.saveProofs encrypt mintUrl proofs tokenId []

def redeemNutzap (nutzap : ReceivedNutZap) (inputFeePpk : Option Nat) (answer : Option (List Proof))
    (tokenId : String) : Nip60WalletHandle γ :=
  if nutzap.eventId ∈ handle.redeemed then handle
  else
    match inputFeePpk with
    | none => handle
    | some inputFeePpk =>
      let netTotal := sumAmounts nutzap.proofs - computeFee nutzap.proofs.length inputFeePpk
      match swap nutzap.proofs (splitAmount netTotal) answer with
      | none => handle
      | some freshProofs =>
        { handle.saveProofs encrypt nutzap.mintUrl freshProofs tokenId [nutzap.eventId] with
          redeemed := handle.redeemed ++ [nutzap.eventId] }

/-- The change event is built without the ids that its record names. -/
def updateTokensAfterSpend (spent change : List Proof) (mintUrl changeId : String) :
    Nip60WalletHandle γ :=
  let destroyed := destroyedEventIds spent handle.tokens
  let kept := keptTokens spent handle.tokens
  if change = [] then
    { handle with tokens := kept, outbox := handle.outbox ++ destroyed.map .deletion }
  else
    let changeRecord := TokenRecord.new mintUrl change
    { handle with
      tokens := kept ++ [⟨mintUrl, change, destroyed, some changeId⟩]
      outbox := handle.outbox ++ destroyed.map .deletion ++
        [.token (buildTokenEvent encrypt changeRecord changeId)] }

def sendNutzap (amount : Nat) (recipientMints : List String) (inputFeePpk : Option Nat)
    (answer : Option (List Proof)) (changeId : String) : Nip60WalletHandle γ :=
  match recipientMints with
  | [] => handle
  | mint :: _ =>
    match spend handle.tokens amount mint inputFeePpk answer with
    | none => handle
    | some spent =>
      let updated := handle.updateTokensAfterSpend encrypt spent.selected spent.change mint changeId
      { updated with outbox := updated.outbox ++ [.nutzap mint spent.nutzapProofs] }

end

end Nip60WalletHandle

end Nip60Wallet
