import NostrMultiPlatform.WalletJobs

/-!
# Account switch and restart

A reset replaces the state inside the shared lock and keeps the store. A restore
reads the account's rows back into the journal, rebuilds the pending tables and
returns one command for every operation still in flight.
-/
namespace WalletLifecycle

open WalletJournal WalletState WalletJobs

variable (st : CashuWalletState) (account : String)

def reset : CashuWalletState := .new st.walStore

/-- One row of the log: a terminal one is deleted, any other goes back into the journal. -/
def restoreRow (st : CashuWalletState) (op : WalletOperation) : CashuWalletState :=
  if op.state.isTerminal then
    st.withWal fun store _ => (store.deleteOperation account op.id).deletePayload account op.id
  else st.editJournal fun j => j.insert op

def restoreIntoJournal (operations : List WalletOperation) : CashuWalletState :=
  operations.foldl (restoreRow account) st

/-- The operations of a kind still in flight, with their payloads. -/
def inFlight (store : WalletWalStore) (account : String) (kind : WalletOperationKind) :
    List (String × CashuWalPayload) :=
  (store.loadOperations account).filterMap fun op =>
    if op.kind = kind ∧ op.state.isTerminal = false then
      (store.loadPayload account op.id).map fun payload => (op.id, payload)
    else none

/-- The deposit is pending again, with no lease; one past the mint is driven on. -/
def restoreDeposit (acc : CashuWalletState × List Job) (row : String × CashuWalPayload) :
    CashuWalletState × List Job :=
  match row.2 with
  | .deposit quote mint amount minted signed =>
    (acc.1.insertDeposit quote ⟨row.1, mint, amount, minted, none, signed⟩,
      if minted.isSome || signed.isSome then acc.2 ++ [.depositResume row.1 quote mint]
      else acc.2)
  | _ => acc

def restoreSend : String × CashuWalPayload → Option Job
  | (op, .send mint selected swapped) => some (.sendResume op mint selected swapped)
  | _ => none

def restoreRedeem : String × CashuWalPayload → Option Job
  | (op, .redeem nutzap _ _ fresh) => some (.redeemResume op nutzap fresh)
  | _ => none

def restoreCrossMint (acc : CashuWalletState × List Job) (row : String × CashuWalPayload) :
    CashuWalletState × List Job :=
  match row.2 with
  | .crossMintTransfer p =>
    (acc.1.insertCrossMint p.targetQuoteId
        { p with operationId := row.1, chainStartedAt := none },
      acc.2 ++ [.crossResume p.targetQuoteId])
  | _ => acc

/-- `restore_from_wal`: the state of the account, and the commands that drive its operations on. -/
def restoreFromWal : CashuWalletState × List Job :=
  match st.walStore with
  | none => (st, [])
  | some store =>
    let journalled := restoreIntoJournal { st with walAccount := some account } account
      (store.loadOperations account)
    match journalled.walStore with
    | none => (journalled, [])
    | some healed =>
      let deposits := (inFlight healed account .depositCashu).foldl restoreDeposit
        (journalled, [])
      let sends := (inFlight healed account .sendNutzap).filterMap restoreSend
      let redeems := (inFlight healed account .redeemNutzap).filterMap restoreRedeem
      let transfers := (inFlight healed account .crossMintTransfer).foldl restoreCrossMint
        (deposits.1, [])
      (transfers.1, deposits.2 ++ sends ++ redeems ++ transfers.2)

end WalletLifecycle
