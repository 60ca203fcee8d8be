import Mathlib.Data.List.Basic

/-!
# The money-safety saga

Every operation of the wallet has a row in a journal and moves along a fixed
table of states. A mint request that consumes inputs is refused until an input
has been recorded.
-/
namespace WalletJournal

inductive WalletOperationKind
  | selectBackend
  | payBolt11
  | createCashuWallet
  | publishNutzapInfo
  | sendNutzap
  | redeemNutzap
  | depositCashu
  | meltCashu
  | setCashuMints
  | crossMintTransfer
  deriving DecidableEq, Repr

def WalletOperationKind.requiresConsumedInputsBeforeMintRequest : WalletOperationKind → Bool
  | .sendNutzap | .redeemNutzap | .meltCashu | .crossMintTransfer => true
  | _ => false

inductive WalletOperationState
  | draft
  | prepared
  | mintPending
  | mintSettled
  | publishPending
  | settled
  | unknown
  | failed
  deriving DecidableEq, Repr

def WalletOperationState.isTerminal : WalletOperationState → Bool
  | .settled | .failed => true
  | _ => false

def WalletOperationState.canTransitionTo : WalletOperationState → WalletOperationState → Bool
  | .draft, .prepared | .draft, .failed => true
  | .prepared, .mintPending | .prepared, .publishPending | .prepared, .failed => true
  | .mintPending, .mintSettled | .mintPending, .unknown | .mintPending, .failed => true
  | .mintSettled, .publishPending | .mintSettled, .unknown | .mintSettled, .failed => true
  | .publishPending, .settled | .publishPending, .unknown | .publishPending, .failed => true
  | .unknown, .mintSettled | .unknown, .publishPending | .unknown, .settled
  | .unknown, .failed => true
  | _, _ => false

structure WalletConsumedInput where
  eventId : String
  mint : String
  unit : String
  amount : Nat
  deriving DecidableEq, Repr

structure WalletOperation where
  id : String
  kind : WalletOperationKind
  state : WalletOperationState
  correlationId : Option String
  consumedInputs : List WalletConsumedInput
  recordedAmount : Option Nat
  recordedSender : Option String
  recordedAt : Option Nat
  recordedFeeSats : Option Nat
  recordedCrossMintSource : Option String
  recordedCrossMintFeeSats : Option Nat
  deriving DecidableEq, Repr

def WalletOperation.new (id : String) (kind : WalletOperationKind)
    (state : WalletOperationState) : WalletOperation :=
  ⟨id, kind, state, none, [], none, none, none, none, none, none⟩

inductive WalletJournalError
  | duplicateOperation (id : String)
  | missingOperation (id : String)
  | invalidTransition (source target : WalletOperationState)
  | missingConsumedInputs (operationId : String) (kind : WalletOperationKind)
  deriving DecidableEq, Repr

def validateTransition (operation : WalletOperation) (next : WalletOperationState) :
    Except WalletJournalError Unit :=
  if operation.state.canTransitionTo next = false then
    .error (.invalidTransition operation.state next)
  else if next = .mintPending ∧ operation.kind.requiresConsumedInputsBeforeMintRequest = true ∧
      operation.consumedInputs = [] then
    .error (.missingConsumedInputs operation.id operation.kind)
  else .ok ()

/-- The journal: operations in insertion order, looked up by id. -/
abbrev WalletOperationJournal := List WalletOperation

namespace WalletOperationJournal

variable (journal : WalletOperationJournal) (id : String)

def get : Option WalletOperation :=
  journal.find? fun op => op.id = id

def insert (operation : WalletOperation) : Except WalletJournalError WalletOperationJournal :=
  if journal.any fun op => op.id = operation.id then .error (.duplicateOperation operation.id)
  else .ok (journal ++ [operation])

/-- Replaces the first row of that id. -/
def update (id : String) (f : WalletOperation → WalletOperation) :
    WalletOperationJournal → WalletOperationJournal
  | [] => []
  | op :: rest => if op.id = id then f op :: rest else op :: update id f rest

/-- `operation_mut` followed by an edit of the row. -/
def edit (f : WalletOperation → WalletOperation) :
    Except WalletJournalError WalletOperationJournal :=
  match get journal id with
  | none => .error (.missingOperation id)
  | some _ => .ok (update id f journal)

def recordConsumedInput (input : WalletConsumedInput) :
    Except WalletJournalError WalletOperationJournal :=
  edit journal id fun op => { op with consumedInputs := op.consumedInputs ++ [input] }

def recordAmount (amount : Nat) : Except WalletJournalError WalletOperationJournal :=
  edit journal id fun op => { op with recordedAmount := some amount }

def recordSender (sender : String) : Except WalletJournalError WalletOperationJournal :=
  edit journal id fun op => { op with recordedSender := some sender }

def recordFeeSats (feeSats : Nat) : Except WalletJournalError WalletOperationJournal :=
  edit journal id fun op => { op with recordedFeeSats := some feeSats }

def recordCrossMintOrigin (sourceMint : String) (meltFeeSats : Nat) :
    Except WalletJournalError WalletOperationJournal :=
  edit journal id fun op =>
    { op with
      recordedCrossMintSource := some sourceMint
      recordedCrossMintFeeSats := some meltFeeSats }

def transition (next : WalletOperationState) : Except WalletJournalError WalletOperationJournal :=
  match get journal id with
  | none => .error (.missingOperation id)
  | some op =>
    match validateTransition op next with
    | .error e => .error e
    | .ok () => .ok (update id (fun op => { op with state := next }) journal)

def remove : WalletOperationJournal :=
  journal.filter fun op => op.id ≠ id

variable {journal journal' : WalletOperationJournal}

theorem get_update_self {id : String} {op : WalletOperation} {f : WalletOperation → WalletOperation}
    (hf : ∀ op, (f op).id = op.id) (h : get journal id = some op) :
    get (update id f journal) id = some (f op) := by
  induction journal with
  | nil => cases h
  | cons row rest ih =>
    by_cases hid : row.id = id
    · obtain rfl : row = op := by simpa [get, hid] using h
      simp [update, get, hid, hf]
    · have hrest : get rest id = some op := by simpa [get, hid] using h
      simpa [update, get, hid] using ih hrest

theorem get_update_other {id other : String} {f : WalletOperation → WalletOperation}
    (hf : ∀ op, (f op).id = op.id) (hne : other ≠ id) :
    get (update id f journal) other = get journal other := by
  induction journal with
  | nil => rfl
  | cons row _ ih =>
    by_cases hid : row.id = id
    · have : ¬ row.id = other := fun h => hne (h ▸ hid)
      simp [update, get, hid, hf, hne.symm]
    · by_cases hother : row.id = other
      · simp [update, get, hother, hne]
      · simpa [update, get, hid, hother] using ih

theorem get_insert {operation : WalletOperation} (h : insert journal operation = .ok journal')
    (id : String) :
    get journal' id = if id = operation.id then some operation else get journal id := by
  simp only [insert] at h
  split at h
  · cases h
  next hnew =>
    injection h with h
    subst h
    simp only [List.any_eq_true, decide_eq_true_eq, not_exists, not_and] at hnew
    by_cases hid : id = operation.id
    · have hnone : journal.find? (fun op => op.id = operation.id) = none :=
        List.find?_eq_none.mpr fun op hop => by simpa using hnew op hop
      simp [get, List.find?_append, hnone, hid]
    · have : ¬ operation.id = id := fun h => hid h.symm
      simp [get, List.find?_append, hid, this]

theorem insert_new {operation : WalletOperation} (h : insert journal operation = .ok journal') :
    get journal operation.id = none := by
  simp only [insert] at h
  split at h
  · cases h
  next hnew =>
    simp only [List.any_eq_true, decide_eq_true_eq, not_exists, not_and] at hnew
    exact List.find?_eq_none.mpr fun op hop => by simpa using hnew op hop

/-- A transition that succeeds moves exactly the named row, along the table. -/
theorem transition_ok {id : String} {next : WalletOperationState}
    (h : transition journal id next = .ok journal') :
    ∃ op, get journal id = some op ∧ op.state.canTransitionTo next = true ∧
      journal' = update id (fun op => { op with state := next }) journal := by
  simp only [transition] at h
  split at h
  · cases h
  next op hop =>
    split at h
    · cases h
    next hval =>
      injection h with h
      refine ⟨op, hop, ?_, h.symm⟩
      by_contra hno
      simp [validateTransition, Bool.eq_false_iff.mpr hno] at hval

end WalletOperationJournal

end WalletJournal
