import NostrMultiPlatform.Tables
import NostrMultiPlatform.WalletJournal
import NostrMultiPlatform.WalletProof

/-!
# The wallet ledger

Facts are folded into the derived state: which token events are live or
tombstoned, which proofs the mint reported spent, and the balances read off
both. A tombstone is authoritative before and after its token event, and the
verdict spent is absorbing. The trail of causes is not modelled; nothing reads it
back into the state.
-/
namespace WalletLedger

open Tables WalletProof WalletJournal

inductive ProofVerdict
  | spent
  | unspent
  | unknown
  deriving DecidableEq, Repr

inductive DeleteCause
  | nip09Delete (deleter : String)
  | localRollover (op : String)
  deriving DecidableEq, Repr

structure ProofAtom where
  proof : String
  amountMsat : Nat
  deriving DecidableEq, Repr

inductive WalletFact
  | tokenAdded (tokenEvent mint unit : String) (proofs : List ProofAtom)
  | tokenDeleted (tokenEvent : String) (cause : DeleteCause)
  | mintProbed (proof : String) (verdict : ProofVerdict)
  | nutzapRedeemed (nutzap : String) (amountMsat : Nat) (sender : String)
  | sagaTransition (op : String) (source target : WalletOperationState)
  | stateRebuilt (sources : List String)
  deriving DecidableEq, Repr

structure TokenRecord where
  mint : String
  unit : String
  proofs : List ProofAtom
  deriving DecidableEq, Repr

structure WalletDerivedState where
  liveTokens : Table String TokenRecord
  tombstonedTokens : Table String DeleteCause
  proofVerdicts : Table String ProofVerdict
  redeemedNutzaps : Table String (Nat × String)
  deriving DecidableEq

namespace WalletDerivedState

def empty : WalletDerivedState := ⟨∅, ∅, ∅, ∅⟩

variable (ledger : WalletDerivedState) (proof tokenEvent : String)

def isTokenLive : Bool :=
  (ledger.liveTokens.lookup tokenEvent).isSome

def isTokenTombstoned : Bool :=
  (ledger.tombstonedTokens.lookup tokenEvent).isSome

def isNutzapRedeemed (nutzap : String) : Bool :=
  (ledger.redeemedNutzaps.lookup nutzap).isSome

/-- The mint has reported the proof spent. -/
def isSpent : Bool :=
  ledger.proofVerdicts.lookup proof = some .spent

def isSpendable : Bool := !ledger.isSpent proof

/-- What one live token event contributes to a balance. -/
def TokenRecord.spendableMsat (mint unit : String) (token : TokenRecord) : List Nat :=
  if token.mint = mint ∧ token.unit = unit then
    (token.proofs.filter fun atom => ledger.isSpendable atom.proof).map ProofAtom.amountMsat
  else []

/-- The balance of a mint and unit: the proofs of its live token events that are not spent. -/
def balance (mint unit : String) : Nat :=
  ((values ledger.liveTokens).flatMap (TokenRecord.spendableMsat ledger mint unit)).foldl addU64 0

def applyTokenLive (tokenEvent mint unit : String) (proofs : List ProofAtom) :
    WalletDerivedState × Bool :=
  if ledger.isTokenTombstoned tokenEvent then (ledger, false)
  else
    ({ ledger with liveTokens := ledger.liveTokens.insert tokenEvent ⟨mint, unit, proofs⟩ },
      !proofs.isEmpty)

def applyTokenTombstone (cause : DeleteCause) : WalletDerivedState × Bool :=
  ({ ledger with
      liveTokens := ledger.liveTokens.erase tokenEvent
      tombstonedTokens := ledger.tombstonedTokens.insert tokenEvent cause },
    ledger.isTokenLive tokenEvent)

def applyMintProbe (verdict : ProofVerdict) : WalletDerivedState × Bool :=
  if ledger.isSpent proof then (ledger, false)
  else
    ({ ledger with proofVerdicts := ledger.proofVerdicts.insert proof verdict },
      verdict = .spent)

/-- Folds one fact; the flag says whether balances changed. -/
def fold : WalletFact → WalletDerivedState × Bool
  | .tokenAdded tokenEvent mint unit proofs => ledger.applyTokenLive tokenEvent mint unit proofs
  | .tokenDeleted tokenEvent cause => ledger.applyTokenTombstone tokenEvent cause
  | .mintProbed proof verdict => ledger.applyMintProbe proof verdict
  | .nutzapRedeemed nutzap amountMsat sender =>
    ({ ledger with redeemedNutzaps := ledger.redeemedNutzaps.insert nutzap (amountMsat, sender) },
      false)
  | .sagaTransition _ _ _ => (ledger, false)
  | .stateRebuilt _ => (ledger, false)

def apply (fact : WalletFact) : WalletDerivedState :=
  (ledger.fold fact).1

/-- The mint's spent verdict for each of the proofs. -/
def probeSpent (cs : List String) (ledger : WalletDerivedState) : WalletDerivedState :=
  cs.foldl (fun ledger c => ledger.apply (.mintProbed c .spent)) ledger

@[simp] theorem apply_sagaTransition (ledger : WalletDerivedState) (op : String)
    (source target : WalletOperationState) :
    ledger.apply (.sagaTransition op source target) = ledger := rfl

theorem isSpent_apply (ledger : WalletDerivedState) (fact : WalletFact) (c : String) :
    (ledger.apply fact).isSpent c = (ledger.isSpent c || fact = .mintProbed c .spent) := by
  cases fact with
  | tokenAdded =>
    simp only [apply, fold, applyTokenLive]
    split <;> simp [isSpent]
  | tokenDeleted tokenEvent cause =>
    have hsame : (ledger.apply (.tokenDeleted tokenEvent cause)).isSpent c = ledger.isSpent c := rfl
    simp [hsame]
  | mintProbed proof verdict =>
    simp only [apply, fold, applyMintProbe]
    split
    next h =>
      by_cases hc : proof = c
      · subst hc; simp [h]
      · simp [hc]
    next h =>
      by_cases hc : c = proof
      · subst hc
        simp only [isSpent] at h
        cases verdict <;> simp [isSpent, h]
      · simp [isSpent, hc, Ne.symm hc]
  | nutzapRedeemed nutzap amountMsat sender =>
    have hsame : (ledger.apply (.nutzapRedeemed nutzap amountMsat sender)).isSpent c =
        ledger.isSpent c := rfl
    simp [hsame]
  | sagaTransition | stateRebuilt => simp [apply, fold]

theorem isSpent_probeSpent (cs : List String) (ledger : WalletDerivedState) (c : String) :
    (probeSpent cs ledger).isSpent c = (ledger.isSpent c || decide (c ∈ cs)) := by
  induction cs generalizing ledger with
  | nil => simp [probeSpent]
  | cons d rest ih =>
    have hstep : probeSpent (d :: rest) ledger =
        probeSpent rest (ledger.apply (.mintProbed d .spent)) := rfl
    rw [hstep, ih, isSpent_apply]
    by_cases hd : d = c
    · simp [hd]
    · simp [hd, Ne.symm hd]

end WalletDerivedState

end WalletLedger
