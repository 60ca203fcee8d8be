import NostrMultiPlatform.WalletJobs

/-!
# Ingesting the account's own events, and asking the mint

A decrypted token event tombstones what it replaces, is skipped if it is known
live or tombstoned, and credits the proofs not already held. A check-state pass
drops what a mint reports spent.
-/
namespace WalletIngest

open WalletProof WalletState WalletJobs

def tombstone (by_ : String) (st : CashuWalletState) (old : String) : CashuWalletState :=
  (st.applyFact (.tokenDeleted old (.nip09Delete by_))).removeProofsForTokenEvent old

variable (st : CashuWalletState)

/-- Whether fresh proofs were credited, with the state. -/
def ingestTokenEvent (event : TokenEvent) : CashuWalletState × Bool :=
  let mint := canonicalizeMintUrl event.mint
  let st := event.del.foldl (tombstone event.id) st
  if st.ledger.isTokenLive event.id || st.ledger.isTokenTombstoned event.id then (st, false)
  else
    let fresh := event.proofs.filter fun p => p.c ∉ storedCs st.proofs
    if fresh = [] then (st, false)
    else
      ((st.applyFact (.tokenAdded event.id mint sat (proofAtoms fresh))).addProofs
        (some event.id) mint fresh, true)

def ingestToken (event : TokenEvent) : Outcome :=
  match ingestTokenEvent st event with
  | (st, true) => .stay st [.spawnDebounced]
  | (st, false) => .stay st []

/-- A wallet that is already loaded is never overwritten. -/
def ingestWalletConfig (config : WalletConfig) : CashuWalletState :=
  if st.created then st
  else
    { st with
      mints := config.mints
      cashuPubkeyHex := some config.pubkeyHex
      cashuPrivkey := some config.privkeyHex
      created := true }

/-- At most one debounced pass runs; a trigger meanwhile asks it to run once more. -/
def spawnDebounced : Outcome :=
  if st.checkStateInFlight then .stay { st with checkStateRerunNeeded := true } []
  else .stay { st with checkStateInFlight := true } [.checkPass true]

def checkPass (debounced : Bool) : Outcome :=
  .stay st [.checkMints debounced (groupByMint st.proofs)]

/-- The proofs of a group the mint reports spent. -/
def spentOf (proofs : List StoredProof) (states : List ProofSpendState) : List StoredProof :=
  ((proofs.zip states).filter fun pair => pair.2 = .spent).map Prod.fst

/-- One mint of the snapshot: its spent proofs are recorded and dropped; a missing or misshaped
answer touches nothing. -/
def checkMints (st : CashuWalletState) (debounced : Bool)
    (groups : List (String × List StoredProof)) (answer : Answer) : Outcome :=
  match groups with
  | [] =>
    if debounced = false then .stay st []
    else if st.checkStateRerunNeeded then
      .stay { st with checkStateRerunNeeded := false } [.checkPass true]
    else .stay { st with checkStateInFlight := false } []
  | (_, proofs) :: rest =>
    match answer with
    | .spendStates states =>
      if states.length ≠ proofs.length then .stay st [.checkMints debounced rest]
      else
        let spent := spentOf proofs states
        .stay ((st.probeSpent spent).removeProofs spent) [.checkMints debounced rest]
    | _ => .stay st [.checkMints debounced rest]

end WalletIngest
