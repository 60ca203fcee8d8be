import NostrMultiPlatform.WalletSaga

/-!
# A melt that may still be paid

Beside the transfer runs what its source mint knows: whether the request may
still arrive, and whether the payment is unpaid, pending or paid. The wallet
learns of it from the melt call and from the status queries of its resumes.
-/
namespace WalletMelt

open Runs Tables WalletProof WalletJournal WalletLedger WalletState WalletJobs WalletSend
open WalletWalStore
open WalletOperation
  WalletCrossMint WalletDeposit WalletIngest WalletLifecycle WalletSystem WalletEffect WalletSaga

structure Melting where
  world : World
  melt : MeltQuoteState
  underway : Bool
  refused : Bool
  delivered : Bool

inductive MeltAct
  | wallet (act : Act)
  /-- The source mint takes the request up. -/
  | accept (state : MeltQuoteState)
  /-- The request never reaches the mint. -/
  | lose
  | settle
  | refund
  deriving DecidableEq, Repr

/-- The payment cannot happen any more. -/
def definitelyUnpaid (t : Melting) : Bool := t.melt = .unpaid && !t.underway

/-- What the status query of a resume is answered. -/
def statusAnswer (w : World) : Act → Option MeltQuoteState
  | .resume tag (.crossStatus quote pending) (.meltState state) _ =>
    if (tag, Job.crossStatus quote pending) ∈ w.jobs then some state else none
  | _ => none

/-- The act folds the signed target token. -/
def delivers (w : World) : Act → Bool
  | .resume tag (.crossSigning op quote target proofs source feeSats retry) (.signed _) _ =>
    (tag, Job.crossSigning op quote target proofs source feeSats retry) ∈ w.jobs
  | _ => false

def meltStep (t : Melting) : MeltAct → Melting
  | .wallet act =>
    { t with
      world := step t.world act
      refused := t.refused || (statusAnswer t.world act = some .unpaid && definitelyUnpaid t)
      delivered := t.delivered || delivers t.world act }
  | .accept state => if t.underway then { t with melt := state, underway := false } else t
  | .lose => { t with underway := false }
  | .settle => if t.melt = .pending then { t with melt := .paid } else t
  | .refund => if t.melt = .pending then { t with melt := .unpaid } else t

/-- None of the inputs is spendable. -/
def Reserved (inputs : List StoredProof) (st : CashuWalletState) : Prop :=
  ∀ c ∈ storedCs inputs, c ∉ storedCs st.proofs

/-- None of the proofs is named like an input. -/
def Fresh (inputs : List StoredProof) (proofs : List Proof) : Prop :=
  ∀ c ∈ proofCs proofs, c ∉ storedCs inputs

instance (inputs : List StoredProof) (proofs : List Proof) : Decidable (Fresh inputs proofs) :=
  inferInstanceAs (Decidable (∀ c ∈ proofCs proofs, _))

section
variable (account op quote : String) (inputs : List StoredProof)

/-- The operation is open, with its inputs in the log and in the session of the account. -/
structure Waiting (st : CashuWalletState) : Prop where
  logged : ∃ store row p, st.walStore = some store ∧
    store.operations.lookup (account, op) = some row ∧ row.state.isTerminal = false ∧
    store.loadPayload account op = some (.crossMintTransfer p) ∧ p.sourceSelected = inputs
  session : st.walAccount = some account →
    (∃ row, st.journal.get op = some row ∧ row.state.isTerminal = false) ∧
    ∃ p, st.pendingCrossMintTransfers.lookup quote = some p ∧ p.sourceSelected = inputs

/-- Inputs are released and the operation fails only once the payment is refused for good; until
the target token is folded the operation waits. -/
structure Safe (t : Melting) : Prop where
  reserved : t.refused = false → Reserved inputs t.world.state
  unfailed : t.refused = false → ∀ row, t.world.state.journal.get op = some row →
    row.state ≠ .failed
  waiting : t.refused = false → t.delivered = false → Waiting account op quote inputs t.world.state
  delivered : t.delivered = true → t.melt = .paid
  settles : t.melt ≠ .unpaid → Reserved inputs t.world.state

/-- The jobs of a transfer, and of what comes in beside it. -/
def isTransferJob : Job → Bool
  | .crossMelt _ _ _ _ _ _ | .crossTarget _ _ | .crossMint _ _ _ | .crossSigning _ _ _ _ _ _ _
  | .crossResume _ | .crossStatus _ _ | .ingestToken _ | .checkPass _ | .checkMints _ _
  | .spawnDebounced => true
  | _ => false

/-- The source mint claims no payment that was not made, and the names of the inputs are not
issued again. -/
def truthful (melt : MeltQuoteState) : Job → Answer → Bool
  | .crossMelt _ _ _ _ _ _, .melt .paid change => melt = .paid && decide (Fresh inputs change)
  | .crossStatus _ _, .meltState .paid => melt = .paid
  | .crossMint _ _ _, .quotePaid (some proofs) => Fresh inputs proofs
  | _, _ => true

/-- The acts of the transfer: answers of the mints and the signer, token events that do not carry
the inputs, check-state passes, crashes, resets and restores. -/
def isTransferAct (t : Melting) : MeltAct → Bool
  | .wallet (.resume _ job answer _) => isTransferJob job && truthful inputs t.melt job answer
  | .wallet (.observe _ event) => Fresh inputs event.proofs
  | .wallet (.checkState _) | .wallet .crash | .wallet .reset => true
  | .wallet (.restore account') => account' = account
  | .wallet _ => false
  | _ => true

/-- Until the payment is refused for good, no status query is answered that it is pending, or
unpaid while it may still happen. -/
def DefiniteStatus (t : Melting) : MeltAct → Prop
  | .wallet act => t.refused = false → ∀ state ∈ statusAnswer t.world act,
    state = .paid ∨ state = .unpaid ∧ definitelyUnpaid t = true
  | _ => True

instance (t : Melting) (act : MeltAct) : Decidable (DefiniteStatus t act) :=
  match act with
  | .wallet act => inferInstanceAs (Decidable (t.refused = false →
      ∀ state ∈ statusAnswer t.world act, _))
  | .accept _ | .lose | .settle | .refund => .isTrue trivial

structure TransferOk (melt : MeltQuoteState) (p : PendingCrossMintTransfer) : Prop where
  operation : p.operationId = op
  quoted : p.targetQuoteId = quote
  selected : p.sourceSelected = inputs
  settled : p.meltSettled = true → melt = .paid
  minted : ∀ proofs, p.mintedProofs = some proofs → Fresh inputs proofs

def PayloadOk (melt : MeltQuoteState) (payload : CashuWalPayload) : Prop :=
  ∃ p, payload = .crossMintTransfer p ∧ TransferOk op quote inputs melt p

structure StateOk (melt : MeltQuoteState) (refused delivered : Bool) (st : CashuWalletState) :
    Prop where
  saga : SagaOk account op .crossMintTransfer (PayloadOk op quote inputs melt)
    (refused = false ∧ delivered = false) st
  unfailed : refused = false → ∀ row ∈ st.journal, row.state ≠ .failed
  deposits : st.pendingDeposits = ∅
  pending : ∀ quote' p, st.pendingCrossMintTransfers.lookup quote' = some p →
    quote' = quote ∧ TransferOk op quote inputs melt p
  kept : refused = false ∧ delivered = false → st.walAccount = some account →
    st.pendingCrossMintTransfers.lookup quote ≠ none
  reserved : refused = false → Reserved inputs st

/-- What a job of the transfer was started with. -/
def JobOk (melt : MeltQuoteState) : Job → Prop
  | .crossMelt op' quote' _ _ _ _ => op' = op ∧ quote' = quote
  | .crossTarget quote' _ => quote' = quote ∧ melt = .paid
  | .crossMint quote' p _ => quote' = quote ∧ p.operationId = op ∧ melt = .paid
  | .crossSigning op' quote' _ proofs _ _ _ =>
    op' = op ∧ quote' = quote ∧ melt = .paid ∧ Fresh inputs proofs
  | .crossResume quote' => quote' = quote
  | .crossStatus quote' p => quote' = quote ∧ TransferOk op quote inputs melt p
  | .ingestToken event => Fresh inputs event.proofs
  | .crossRetry _ _ _ _ | .checkPass _ | .checkMints _ _ | .spawnDebounced => True
  | _ => False

end

variable {account op quote : String} {inputs : List StoredProof} {melt melt' : MeltQuoteState}
  {refused refused' delivered delivered' : Bool} {st st' : CashuWalletState}

theorem TransferOk.mono {p : PendingCrossMintTransfer} (h : TransferOk op quote inputs melt p)
    (hmelt : melt = .paid → melt' = .paid) : TransferOk op quote inputs melt' p :=
  ⟨h.operation, h.quoted, h.selected, fun hsettled => hmelt (h.settled hsettled), h.minted⟩

theorem JobOk.mono {job : Job} (h : JobOk op quote inputs melt job)
    (hmelt : melt = .paid → melt' = .paid) : JobOk op quote inputs melt' job := by
  cases job with
  | crossTarget => exact ⟨h.1, hmelt h.2⟩
  | crossMint => exact ⟨h.1, h.2.1, hmelt h.2.2⟩
  | crossSigning =>
    exact ⟨h.1, h.2.1, hmelt h.2.2.1, h.2.2.2⟩
  | crossStatus => exact ⟨h.1, h.2.mono hmelt⟩
  | _ => exact h

/-- What the mint knows moves on, or the transfer is refused or delivered. -/
theorem StateOk.mono (h : StateOk account op quote inputs melt refused delivered st)
    (hmelt : melt = .paid → melt' = .paid) (hrefused : refused' = false → refused = false)
    (hdelivered : delivered' = false → delivered = false) :
    StateOk account op quote inputs melt' refused' delivered' st where
  saga := h.saga.mono
    (fun _ hpayload => hpayload.imp fun _ hp => ⟨hp.1, hp.2.mono hmelt⟩)
    (And.imp hrefused hdelivered)
  unfailed hlive := h.unfailed (hrefused hlive)
  deposits := h.deposits
  pending quote' p hp := ⟨(h.pending quote' p hp).1, (h.pending quote' p hp).2.mono hmelt⟩
  kept hlive := h.kept (hlive.imp hrefused hdelivered)
  reserved hlive := h.reserved (hrefused hlive)

/-- Only log, account, journal, the pending tables and the names in the inventory matter. -/
theorem StateOk.congr (h : StateOk account op quote inputs melt refused delivered st)
    (hlog : st'.walStore = st.walStore) (haccount : st'.walAccount = st.walAccount)
    (hjournal : st'.journal = st.journal) (hdeposits : st'.pendingDeposits = st.pendingDeposits)
    (hpending : st'.pendingCrossMintTransfers = st.pendingCrossMintTransfers)
    (hproofs : Reserved inputs st → Reserved inputs st') :
    StateOk account op quote inputs melt refused delivered st' where
  saga := h.saga.congr hlog haccount hjournal
  unfailed := by rw [hjournal]; exact h.unfailed
  deposits := hdeposits.trans h.deposits
  pending := by rw [hpending]; exact h.pending
  kept := by rw [hpending, haccount]; exact h.kept
  reserved hlive := hproofs (h.reserved hlive)

theorem reserved_congr (h : st'.proofs = st.proofs) (hreserved : Reserved inputs st) :
    Reserved inputs st' := by
  intro c hc
  rw [h]
  exact hreserved c hc

theorem reserved_attach {proofs : List Proof} (hfresh : Fresh inputs proofs)
    {tokenEvent : Option String} {mint : String}
    (h : st'.proofs = st.proofs ++ attach tokenEvent mint proofs) (hreserved : Reserved inputs st) :
    Reserved inputs st' := by
  intro c hc hmem
  rw [h, storedCs_append, storedCs_attach, List.mem_append] at hmem
  rcases hmem with hold | hnew
  · exact hreserved c hc hold
  · exact hfresh c hnew hc

theorem reserved_filter {keeps : StoredProof → Bool} (h : st'.proofs = st.proofs.filter keeps)
    (hreserved : Reserved inputs st) : Reserved inputs st' := by
  intro c hc hmem
  rw [h] at hmem
  exact hreserved c hc ((List.filter_sublist.map _).subset hmem)

section

variable (h : StateOk account op quote inputs melt refused delivered st)
include h

/-- A transition keeps the invariant: to failure once the payment is refused, to another terminal
state once the token is folded. -/
theorem StateOk.advance (id : String) (next : WalletOperationState)
    (hnext : refused = false → next ≠ .failed ∧ (delivered = false → next.isTerminal = false)) :
    StateOk account op quote inputs melt refused delivered (st.advance id next) where
  saga := h.saga.advance id next fun hlive => (hnext hlive.1).2 hlive.2
  unfailed hlive row hrow := by
    rcases st.advance_eq id next with hsame | ⟨journal, hjournal, hwritten⟩
    · rw [hsame] at hrow
      exact h.unfailed hlive row hrow
    · rw [hwritten, (CashuWalletState.walPersist_frame _ _).2.2.1] at hrow
      obtain ⟨-, -, -, hupdate⟩ := WalletOperationJournal.transition_ok hjournal
      rw [hupdate] at hrow
      rcases mem_update hrow with hold | ⟨old, -, rfl⟩
      · exact h.unfailed hlive row hold
      · exact (hnext hlive).1
  deposits := by simpa using h.deposits
  pending := by simpa using h.pending
  kept := by simpa using h.kept
  reserved hlive := reserved_congr (by simp) (h.reserved hlive)

theorem StateOk.recordFeeSats (id : String) (feeSats : Nat) :
    StateOk account op quote inputs melt refused delivered
      (st.editJournal fun j => j.recordFeeSats id feeSats) where
  saga := h.saga.editJournal id fun _ => ⟨rfl, rfl, rfl⟩
  unfailed hlive row hrow := by
    simp only [CashuWalletState.editJournal, WalletOperationJournal.recordFeeSats,
      WalletOperationJournal.edit] at hrow
    cases hget : st.journal.get id with
    | none =>
      simp only [hget] at hrow
      exact h.unfailed hlive row hrow
    | some =>
      simp only [hget] at hrow
      rcases mem_update hrow with hold | ⟨old, hold, rfl⟩
      · exact h.unfailed hlive row hold
      · exact h.unfailed hlive old hold
  deposits := by simpa using h.deposits
  pending := by simpa using h.pending
  kept := by simpa using h.kept
  reserved hlive := reserved_congr (by simp) (h.reserved hlive)

theorem StateOk.editCrossMint (quote' : String)
    {f : PendingCrossMintTransfer → PendingCrossMintTransfer}
    (hf : ∀ p, TransferOk op quote inputs melt p → TransferOk op quote inputs melt (f p)) :
    StateOk account op quote inputs melt refused delivered (st.editCrossMint quote' f) where
  saga := h.saga.congr rfl rfl rfl
  unfailed := h.unfailed
  deposits := h.deposits
  pending key p hp := by
    simp only [CashuWalletState.editCrossMint, lookup_edit] at hp
    split at hp
    · obtain ⟨old, hold, rfl⟩ := Option.map_eq_some_iff.mp hp
      exact ⟨(h.pending key old hold).1, hf old (h.pending key old hold).2⟩
    · exact h.pending key p hp
  kept hlive hsession := by
    simp only [CashuWalletState.editCrossMint, lookup_edit]
    split
    · simpa using h.kept hlive hsession
    · exact h.kept hlive hsession
  reserved := h.reserved

/-- What is pending is written to the log as it is, without its lease. -/
theorem StateOk.persist (quote' : String) :
    StateOk account op quote inputs melt refused delivered
      (st.persistCrossMintPayload quote') where
  saga := h.saga.withWal fun store hlog => by
    cases hlookup : st.pendingCrossMintTransfers.lookup quote' with
    | none => simpa only [hlookup] using hlog
    | some p =>
      obtain ⟨-, hp⟩ := h.pending quote' p hlookup
      simp only [hp.operation]
      exact hlog.upsertPayload ⟨_, rfl, rfl, hp.quoted, hp.selected, hp.settled, hp.minted⟩
  unfailed := by simpa using h.unfailed
  deposits := by simpa using h.deposits
  pending := by simpa using h.pending
  kept := by simpa using h.kept
  reserved hlive := reserved_congr (by simp) (h.reserved hlive)

end

/-- A section that keeps the invariant. -/
structure Keeps (account op quote : String) (inputs : List StoredProof) (melt : MeltQuoteState)
    (refused delivered : Bool) (out : Outcome) : Prop where
  state : StateOk account op quote inputs melt refused delivered out.state
  jobs : ∀ job ∈ out.jobs, JobOk op quote inputs melt job

section

variable (h : StateOk account op quote inputs melt refused delivered st)
include h

theorem keeps_crossMelt (source : String) (feeReserve : Nat) (selected : List StoredProof)
    (retry : Option Nat) {answer : Answer}
    (htruth : truthful inputs melt (.crossMelt op quote source feeReserve selected retry) answer = true)
    :
    Keeps account op quote inputs melt refused delivered
      (crossMelt st op quote source feeReserve selected retry answer) := by
  have hunknown : Keeps account op quote inputs melt refused delivered
      (.stay (st.advance op .unknown) []) :=
    ⟨h.advance op .unknown fun _ => ⟨by decide, fun _ => rfl⟩, fun job hjob => by cases hjob⟩
  cases answer with
  | melt state change =>
    cases state with
    | paid =>
      obtain ⟨hpaid, hfresh⟩ : melt = .paid ∧ Fresh inputs change := by
        simpa [truthful] using htruth
      have hcredited : StateOk account op quote inputs melt refused delivered
          (creditChange (st.probeSpent selected) op source change) := by
        refine h.congr ?_ ?_ ?_ ?_ ?_ (reserved_attach hfresh (creditChange_proofs _ op source change))
        all_goals
          simp only [creditChange]
          split <;> rfl
      have hsettled := hcredited.editCrossMint quote
        (f := fun p => { p with meltSettled := true })
        fun p hp => ⟨hp.operation, hp.quoted, hp.selected, fun _ => hpaid, hp.minted⟩
      have hcharged := hsettled.recordFeeSats op (feeReserve - sumAmounts change)
      have hadvanced := hcharged.advance op .mintSettled fun _ => ⟨by decide, fun _ => rfl⟩
      refine ⟨hadvanced.persist quote, fun job hjob => ?_⟩
      obtain rfl := List.mem_singleton.mp hjob
      exact ⟨rfl, hpaid⟩
    | _ => exact hunknown
  | _ => exact hunknown

theorem keeps_crossTarget (hpaid : melt = .paid) (retry : Option Nat) :
    Keeps account op quote inputs melt refused delivered (crossTarget st quote retry) := by
  simp only [crossTarget]
  split
  · exact ⟨h, fun job hjob => by cases hjob⟩
  next p hp =>
    have hok := (h.pending quote p hp).2
    split
    · exact ⟨h, fun job hjob => by cases hjob⟩
    · split
      next proofs hminted =>
        refine ⟨h, fun job hjob => ?_⟩
        obtain rfl := List.mem_singleton.mp hjob
        exact ⟨hok.operation, rfl, hpaid, hok.minted proofs hminted⟩
      · refine ⟨h, fun job hjob => ?_⟩
        obtain rfl := List.mem_singleton.mp hjob
        exact ⟨rfl, hok.operation, hpaid⟩

theorem keeps_crossMint (hpaid : melt = .paid) {p : PendingCrossMintTransfer}
    (hop : p.operationId = op) (retry : Option Nat) {answer : Answer}
    (htruth : truthful inputs melt (.crossMint quote p retry) answer = true) :
    Keeps account op quote inputs melt refused delivered (crossMint st quote p retry answer) := by
  cases answer with
  | quotePaid minted =>
    cases minted with
    | some proofs =>
      have hfresh : Fresh inputs proofs := by simpa [truthful] using htruth
      have hrecorded := h.editCrossMint quote
        (f := fun p => { p with mintedProofs := p.mintedProofs <|> some proofs })
        fun p hp => ⟨hp.operation, hp.quoted, hp.selected, hp.settled, fun found hfound => by
          cases hminted : p.mintedProofs with
          | none =>
            obtain rfl : proofs = found := by simpa [hminted] using hfound
            exact hfresh
          | some first =>
            obtain rfl : first = found := by simpa [hminted] using hfound
            exact hp.minted first hminted⟩
      refine ⟨hrecorded.persist quote, fun job hjob => ?_⟩
      obtain rfl := List.mem_singleton.mp hjob
      exact ⟨hop, rfl, hpaid, hfresh⟩
    | none => exact ⟨h, fun job hjob => by cases hjob⟩
  | _ => exact ⟨h, fun job hjob => by cases hjob⟩

/-- The fold of the target token delivers the transfer. -/
theorem keeps_crossSigning {proofs : List Proof} (hfresh : Fresh inputs proofs)
    (target source eventId : String) (feeSats : Nat) (retry : Option Nat) :
    Keeps account op quote inputs melt refused true
      (crossSigning st op quote target proofs source feeSats retry (.signed eventId)) := by
  have hdelivered : StateOk account op quote inputs melt refused true st :=
    h.mono id id fun hfalse => by cases hfalse
  have hcredited : StateOk account op quote inputs melt refused true
      (acceptMint ((st.addProofs (some eventId) (canonicalizeMintUrl target) proofs).applyFact
        (.tokenAdded eventId (canonicalizeMintUrl target) sat (proofAtoms proofs)))
        (canonicalizeMintUrl target)) := by
    refine hdelivered.congr ?_ (by simp [CashuWalletState.applyFact, CashuWalletState.addProofs])
      (by simp [CashuWalletState.applyFact, CashuWalletState.addProofs])
      (by simp [CashuWalletState.applyFact, CashuWalletState.addProofs])
      (by simp [CashuWalletState.applyFact, CashuWalletState.addProofs])
      (reserved_attach hfresh (acceptMint_frame _ _).1)
    simp only [acceptMint]
    split <;> rfl
  have hpublished := hcredited.advance op .publishPending fun _ => ⟨by decide, fun _ => rfl⟩
  have hsettled := hpublished.advance op .settled
    fun _ => ⟨by decide, fun hfalse => by cases hfalse⟩
  have hsigned := hsettled.editCrossMint quote
    (f := fun p => { p with signedToken := some ⟨eventId, target, proofs, []⟩ })
    fun p hp => ⟨hp.operation, hp.quoted, hp.selected, hp.settled, hp.minted⟩
  refine ⟨hsigned.persist quote, fun job hjob => ?_⟩
  cases retry with
  | none => cases hjob
  | some =>
    obtain rfl := List.mem_singleton.mp hjob
    trivial

theorem keeps_crossResume (now : Nat) :
    Keeps account op quote inputs melt refused delivered (crossResume st quote now) := by
  simp only [crossResume]
  split
  · exact ⟨h, fun job hjob => by cases hjob⟩
  next p hp =>
    have hok := (h.pending quote p hp).2
    have hstamped := h.editCrossMint quote (f := fun p => { p with chainStartedAt := some now })
      fun p hp => ⟨hp.operation, hp.quoted, hp.selected, hp.settled, hp.minted⟩
    split
    next hsettled =>
      refine ⟨hstamped, fun job hjob => ?_⟩
      obtain rfl := List.mem_singleton.mp hjob
      exact ⟨rfl, hok.settled hsettled⟩
    · refine ⟨hstamped, fun job hjob => ?_⟩
      obtain rfl := List.mem_singleton.mp hjob
      exact ⟨rfl, hok.operation, hok.quoted, hok.selected, hok.settled, hok.minted⟩

theorem keeps_statusPaid (hpaid : melt = .paid) (p : PendingCrossMintTransfer) :
    Keeps account op quote inputs melt refused delivered
      (crossStatus st quote p (.meltState .paid)) := by
  have hsettled := h.editCrossMint quote (f := fun p => { p with meltSettled := true })
    fun p hp => ⟨hp.operation, hp.quoted, hp.selected, fun _ => hpaid, hp.minted⟩
  have hadvanced := hsettled.advance p.operationId .mintSettled fun _ => ⟨by decide, fun _ => rfl⟩
  refine ⟨hadvanced.persist quote, fun job hjob => ?_⟩
  obtain rfl := List.mem_singleton.mp hjob
  exact ⟨rfl, hpaid⟩

/-- The revert of a transfer the mint has refused for good. -/
theorem keeps_revert (p : PendingCrossMintTransfer) :
    Keeps account op quote inputs melt true delivered (.stay (revertTransfer st quote p) []) := by
  have hrefused : StateOk account op quote inputs melt true delivered st :=
    h.mono id (fun hfalse => by cases hfalse) id
  have hrestored : StateOk account op quote inputs melt true delivered
      ((st.restoreProofs p.sourceMint p.sourceSelected).eraseCrossMint quote) := by
    rw [CashuWalletState.restoreProofs_eq]
    refine ⟨hrefused.saga.congr rfl rfl rfl, hrefused.unfailed, hrefused.deposits,
      fun key q hq => ?_, fun hlive => by simp at hlive, fun hfalse => by cases hfalse⟩
    simp only [CashuWalletState.eraseCrossMint, lookup_erase_eq] at hq
    split at hq
    · cases hq
    · exact hrefused.pending key q hq
  exact ⟨hrestored.advance p.operationId .failed (fun hfalse => by cases hfalse),
    fun job hjob => by cases hjob⟩

theorem keeps_ingestToken {event : TokenEvent} (hfresh : Fresh inputs event.proofs) :
    Keeps account op quote inputs melt refused delivered (ingestToken st event) := by
  have hreserved : Reserved inputs st → Reserved inputs (ingestTokenEvent st event).1 := by
    intro hreserved c hc hmem
    rw [(applies_ingest st event).1, storedCs_append, List.mem_append] at hmem
    rcases hmem with hold | hnew
    · exact hreserved c hc ((List.filter_sublist.map _).subset hold)
    · simp only [ingestEffect] at hnew
      split at hnew
      · cases hnew
      · rw [storedCs_attach] at hnew
        exact hfresh c ((List.filter_sublist.map _).subset hnew) hc
  obtain ⟨proofs, ledger, heq⟩ := ingestTokenEvent_eq st event
  have hstate : StateOk account op quote inputs melt refused delivered
      (ingestTokenEvent st event).1 :=
    h.congr (by rw [heq]) (by rw [heq]) (by rw [heq]) (by rw [heq]) (by rw [heq]) hreserved
  refine ⟨ingestToken_state st event ▸ hstate, fun job hjob => ?_⟩
  simp only [ingestToken] at hjob
  split at hjob
  · obtain rfl := List.mem_singleton.mp hjob
    trivial
  · cases hjob

theorem keeps_checkMints (debounced : Bool) (groups : List (String × List StoredProof))
    (answer : Answer) :
    Keeps account op quote inputs melt refused delivered
      (checkMints st debounced groups answer) := by
  have hjob : ∀ next : Job, JobOk op quote inputs melt next →
      ∀ job ∈ [next], JobOk op quote inputs melt job := fun next hnext job hjob =>
    List.mem_singleton.mp hjob ▸ hnext
  cases groups with
  | nil =>
    simp only [checkMints]
    split
    · exact ⟨h, fun job hjob => by cases hjob⟩
    · split
      · exact ⟨h.congr rfl rfl rfl rfl rfl id, hjob _ trivial⟩
      · exact ⟨h.congr rfl rfl rfl rfl rfl id, fun job hjob => by cases hjob⟩
  | cons group =>
    obtain ⟨mint, proofs⟩ := group
    cases answer with
    | spendStates =>
      simp only [checkMints]
      split
      · exact ⟨h, hjob _ trivial⟩
      · exact ⟨h.congr rfl rfl rfl rfl rfl (reserved_filter rfl), hjob _ trivial⟩
    | _ => exact ⟨h, hjob _ trivial⟩

theorem keeps_spawnDebounced :
    Keeps account op quote inputs melt refused delivered (spawnDebounced st) := by
  simp only [spawnDebounced]
  split
  · exact ⟨h.congr rfl rfl rfl rfl rfl id, fun job hjob => by cases hjob⟩
  · refine ⟨h.congr rfl rfl rfl rfl rfl id, fun job hjob => ?_⟩
    obtain rfl := List.mem_singleton.mp hjob
    trivial

/-- Leaving the session keeps the log. -/
theorem StateOk.leave :
    StateOk account op quote inputs melt refused delivered (.new st.walStore) where
  saga := h.saga.crash
  unfailed _ row hrow := by cases hrow
  deposits := rfl
  pending key p hp := by cases hp
  kept _ hsession := by cases hsession
  reserved _ c _ hmem := by cases hmem

/-- A restore brings the transfer back as the log has it, and resumes it. -/
theorem keeps_restore :
    Keeps account op quote inputs melt refused delivered
      (.stay (restoreFromWal st account).1 (restoreFromWal st account).2) := by
  obtain ⟨back, store, rows, hsaga, hsession, -, ⟨hproofs, -, -, hdeposits, hpending⟩, hrows,
    hinFlight, hresult, hjournal⟩ := h.saga.restore
  have hfold : restoreFromWal st account = rows.foldl restoreCrossMint (back, []) := by
    rw [hresult]
    simp [hinFlight]
  have hunfailed : refused = false → ∀ row ∈ back.journal, row.state ≠ .failed := by
    intro hlive row hrow
    rcases hjournal row hrow with hold | hopen
    · exact h.unfailed hlive row hold
    · intro hfailed
      rw [hfailed] at hopen
      cases hopen
  have hreserved : refused = false → Reserved inputs back := fun hlive =>
    reserved_congr hproofs (h.reserved hlive)
  rw [hfold]
  rcases hrows with ⟨rfl, hover⟩ | ⟨payload, rfl, p, rfl, hp⟩
  · -- the operation is over: nothing is read back
    refine ⟨⟨hsaga, hunfailed, hdeposits.trans h.deposits, fun key q hq => ?_,
      fun hlive => absurd hlive hover, hreserved⟩, fun job hjob => by cases hjob⟩
    rw [List.foldl_nil, Outcome.stay, hpending] at hq
    exact h.pending key q hq
  · refine ⟨⟨hsaga.congr rfl rfl rfl, hunfailed, hdeposits.trans h.deposits, fun key q hq => ?_,
      fun _ _ => ?_, hreserved⟩, fun job hjob => ?_⟩
    · simp only [Outcome.stay, List.foldl_cons, List.foldl_nil, restoreCrossMint,
        CashuWalletState.insertCrossMint, lookup_insert_eq, hpending] at hq
      split at hq
      next hkey =>
        obtain rfl := Option.some.inj hq
        exact ⟨hkey.trans hp.quoted, rfl, hp.quoted, hp.selected, hp.settled, hp.minted⟩
      · exact h.pending key q hq
    · simp [Outcome.stay, restoreCrossMint, CashuWalletState.insertCrossMint, hp.quoted]
    · obtain rfl := List.mem_singleton.mp hjob
      exact hp.quoted

end

/-- The invariant of a transfer: its state, its jobs, and how the flags sit with the mint. -/
structure Inv (account op quote : String) (inputs : List StoredProof) (t : Melting) : Prop where
  state : StateOk account op quote inputs t.melt t.refused t.delivered t.world.state
  jobs : ∀ row ∈ t.world.jobs, JobOk op quote inputs t.melt row.2
  underway : t.underway = true → t.melt = .unpaid
  refused : t.refused = true → t.melt = .unpaid ∧ t.underway = false
  delivered : t.delivered = true → t.melt = .paid

variable {t : Melting}

theorem meltStep_plain {act : Act} (hstatus : statusAnswer t.world act = none)
    (hdelivers : delivers t.world act = false) :
    meltStep t (.wallet act) = { t with world := step t.world act } := by
  simp [meltStep, hstatus, hdelivers]

section

variable (h : Inv account op quote inputs t)
include h

/-- A section that keeps the invariant, with what the flags become. -/
theorem Inv.after {jobs : List (String × Job)} (hjobs : ∀ row ∈ jobs, row ∈ t.world.jobs)
    {out : Outcome} {refused delivered : Bool}
    (hkeeps : Keeps account op quote inputs t.melt refused delivered out) (tag : String)
    (hrefused : refused = true → t.melt = .unpaid ∧ t.underway = false)
    (hdelivered : delivered = true → t.melt = .paid) :
    Inv account op quote inputs
      { t with
        world := { t.world with jobs := jobs }.after tag out
        refused := refused
        delivered := delivered } where
  state := hkeeps.state
  jobs row hrow := by
    rcases List.mem_append.mp hrow with hold | hnew
    · exact h.jobs row (hjobs row hold)
    · obtain ⟨job, hjob, rfl⟩ := List.mem_map.mp hnew
      exact hkeeps.jobs job hjob
  underway := h.underway
  refused := hrefused
  delivered := hdelivered

/-- Resuming a job of the transfer; only a status query and the target fold move the flags. -/
theorem Inv.resume {tag : String} {job : Job} {answer : Answer} {now : Nat}
    (hjob : (tag, job) ∈ t.world.jobs) (hkind : isTransferJob job = true)
    (htruth : truthful inputs t.melt job answer = true)
    (hok : DefiniteStatus t (.wallet (.resume tag job answer now))) :
    Inv account op quote inputs (meltStep t (.wallet (.resume tag job answer now))) := by
  have hjobOk := h.jobs _ hjob
  have hstep : step t.world (.resume tag job answer now) =
      { t.world with jobs := t.world.jobs.erase (tag, job) }.after tag
        (resumeJob t.world.state answer now job) := if_pos hjob
  have herase : ∀ row ∈ t.world.jobs.erase (tag, job), row ∈ t.world.jobs :=
    fun row => List.mem_of_mem_erase
  have hplain : statusAnswer t.world (.resume tag job answer now) = none →
      delivers t.world (.resume tag job answer now) = false →
      Keeps account op quote inputs t.melt t.refused t.delivered
        (resumeJob t.world.state answer now job) →
      Inv account op quote inputs (meltStep t (.wallet (.resume tag job answer now))) := by
    intro hstatus hdelivers hkeeps
    rw [meltStep_plain hstatus hdelivers, hstep]
    exact h.after herase hkeeps tag h.refused h.delivered
  cases job with
  | crossMelt _ _ source feeReserve selected retry =>
    obtain ⟨rfl, rfl⟩ := hjobOk
    exact hplain rfl rfl (keeps_crossMelt h.state source feeReserve selected retry htruth)
  | crossTarget _ retry =>
    obtain ⟨rfl, hpaid⟩ := hjobOk
    exact hplain rfl rfl (keeps_crossTarget h.state hpaid retry)
  | crossMint _ _ retry =>
    obtain ⟨rfl, hop, hpaid⟩ := hjobOk
    exact hplain rfl rfl (keeps_crossMint h.state hpaid hop retry htruth)
  | crossSigning op' quote' target proofs source feeSats retry =>
    obtain ⟨rfl, rfl, hpaid, hfresh⟩ := hjobOk
    cases answer with
    | signed eventId =>
      have hmelt : meltStep t (.wallet (.resume tag
          (.crossSigning op' quote' target proofs source feeSats retry) (.signed eventId) now)) =
          { t with
            world := step t.world (.resume tag
              (.crossSigning op' quote' target proofs source feeSats retry) (.signed eventId) now)
            delivered := true } := by
        simp [meltStep, statusAnswer, delivers, hjob]
      rw [hmelt, hstep]
      exact h.after herase (keeps_crossSigning h.state hfresh target source eventId feeSats retry)
        tag h.refused fun _ => hpaid
    | _ => exact hplain rfl rfl ⟨h.state, fun job hjob => by cases hjob⟩
  | crossResume =>
    obtain rfl := hjobOk
    exact hplain rfl rfl (keeps_crossResume h.state now)
  | crossStatus quote' p =>
    obtain ⟨rfl, hp⟩ := hjobOk
    cases answer with
    | meltState state =>
      have hstatus : statusAnswer t.world (.resume tag (.crossStatus quote' p)
          (.meltState state) now) = some state := if_pos hjob
      have hmelt : meltStep t (.wallet (.resume tag (.crossStatus quote' p)
          (.meltState state) now)) =
          { t with
            world := step t.world (.resume tag (.crossStatus quote' p) (.meltState state) now)
            refused := t.refused || (state = .unpaid && definitelyUnpaid t) } := by
        simp [meltStep, hstatus, delivers]
      rw [hmelt, hstep]
      by_cases hpaid : state = .paid
      · subst hpaid
        have hsame : (t.refused || (decide (MeltQuoteState.paid = .unpaid) && definitelyUnpaid t)) =
            t.refused := by simp
        rw [hsame]
        have hmeltPaid : t.melt = .paid := by simpa [truthful] using htruth
        exact h.after herase (keeps_statusPaid h.state hmeltPaid p) tag h.refused h.delivered
      · have hrefusal : (t.refused || (decide (state = .unpaid) && definitelyUnpaid t)) = true := by
          cases hlive : t.refused with
          | true => rfl
          | false =>
            rcases hok hlive state hstatus with heq | ⟨rfl, hdefinite⟩
            · exact absurd heq hpaid
            · simp [hdefinite]
        have hunpaid : t.melt = .unpaid ∧ t.underway = false := by
          rcases Bool.or_eq_true_iff.mp hrefusal with hold | hnew
          · exact h.refused hold
          · simpa [definitelyUnpaid] using (Bool.and_eq_true_iff.mp hnew).2
        rw [hrefusal]
        have hrevert : resumeJob t.world.state (.meltState state) now (.crossStatus quote' p) =
            .stay (revertTransfer t.world.state quote' p) [] := by
          cases state with
          | paid => exact absurd rfl hpaid
          | _ => rfl
        rw [hrevert]
        exact h.after herase (keeps_revert h.state p) tag (fun _ => hunpaid) h.delivered
    | _ => exact hplain rfl rfl ⟨h.state, fun job hjob => by cases hjob⟩
  | ingestToken => exact hplain rfl rfl (keeps_ingestToken h.state hjobOk)
  | checkPass =>
    refine hplain rfl rfl ⟨h.state, fun job hjob => ?_⟩
    obtain rfl := List.mem_singleton.mp hjob
    trivial
  | checkMints debounced groups =>
    exact hplain rfl rfl (keeps_checkMints h.state debounced groups answer)
  | spawnDebounced => exact hplain rfl rfl (keeps_spawnDebounced h.state)
  | _ => cases hkind

theorem Inv.step {act : MeltAct} (hdom : isTransferAct account inputs t act = true)
    (hok : DefiniteStatus t act) : Inv account op quote inputs (meltStep t act) := by
  have hall : ∀ row ∈ t.world.jobs, row ∈ t.world.jobs := fun _ hrow => hrow
  cases act with
  | wallet act =>
    cases act with
    | resume tag job answer now =>
      obtain ⟨hkind, htruth⟩ := Bool.and_eq_true_iff.mp hdom
      by_cases hjob : (tag, job) ∈ t.world.jobs
      · exact h.resume hjob hkind htruth hok
      · have hstatus : statusAnswer t.world (.resume tag job answer now) = none := by
          simp only [statusAnswer]
          split
          next heq =>
            injection heq with htag hsame
            subst htag hsame
            exact if_neg hjob
          · rfl
        have hdelivers : delivers t.world (.resume tag job answer now) = false := by
          simp only [delivers]
          split
          next heq =>
            injection heq with htag hsame
            subst htag hsame
            simpa using hjob
          · rfl
        have hidle : WalletSystem.step t.world (.resume tag job answer now) = t.world := if_neg hjob
        rw [meltStep_plain hstatus hdelivers, hidle]
        exact h
    | observe tag event =>
      have hfresh : Fresh inputs event.proofs := by simpa [isTransferAct] using hdom
      rw [meltStep_plain rfl rfl]
      have hsettle : settleDepositOnIngestedToken t.world.state event.id = t.world.state := by
        simp [settleDepositOnIngestedToken, h.state.deposits]
      have hkeeps : Keeps account op quote inputs t.melt t.refused t.delivered
          (.stay (settleDepositOnIngestedToken t.world.state event.id) [.ingestToken event]) := by
        refine ⟨by rw [Outcome.stay, hsettle]; exact h.state, fun job hjob => ?_⟩
        obtain rfl := List.mem_singleton.mp hjob
        exact hfresh
      exact h.after hall hkeeps tag h.refused h.delivered
    | checkState tag =>
      rw [meltStep_plain rfl rfl]
      have hkeeps : Keeps account op quote inputs t.melt t.refused t.delivered
          (.stay t.world.state [.checkPass false]) := by
        refine ⟨h.state, fun job hjob => ?_⟩
        obtain rfl := List.mem_singleton.mp hjob
        trivial
      exact h.after hall hkeeps tag h.refused h.delivered
    | crash =>
      rw [meltStep_plain rfl rfl]
      exact ⟨h.state.leave, (fun row hrow => by cases hrow), h.underway, h.refused, h.delivered⟩
    | reset =>
      rw [meltStep_plain rfl rfl]
      exact ⟨h.state.leave, h.jobs, h.underway, h.refused, h.delivered⟩
    | restore account' =>
      obtain rfl : account' = account := by simpa [isTransferAct] using hdom
      rw [meltStep_plain rfl rfl]
      exact h.after hall (keeps_restore h.state) account' h.refused h.delivered
    | _ => cases hdom
  | accept state =>
    simp only [meltStep]
    split
    next hunderway =>
      have hunpaid := h.underway hunderway
      have hmelt : t.melt = .paid → state = .paid := fun hpaid => by
        rw [hunpaid] at hpaid
        cases hpaid
      refine ⟨h.state.mono hmelt id id, fun row hrow => (h.jobs row hrow).mono hmelt,
        (fun hfalse => by cases hfalse), fun hrefused => ?_, fun hdelivered => ?_⟩
      · rw [(h.refused hrefused).2] at hunderway
        cases hunderway
      · exact hmelt (h.delivered hdelivered)
    · exact h
  | lose =>
    exact ⟨h.state, h.jobs, (fun hfalse => by cases hfalse),
      fun hrefused => ⟨(h.refused hrefused).1, rfl⟩, h.delivered⟩
  | settle =>
    simp only [meltStep]
    split
    next hpending =>
      refine ⟨h.state.mono (fun _ => rfl) id id, fun row hrow => (h.jobs row hrow).mono fun _ => rfl,
        fun hunderway => ?_, fun hrefused => ?_, fun _ => rfl⟩
      · rw [h.underway hunderway] at hpending
        cases hpending
      · rw [(h.refused hrefused).1] at hpending
        cases hpending
    · exact h
  | refund =>
    simp only [meltStep]
    split
    next hpending =>
      have hmelt : t.melt = .paid → MeltQuoteState.unpaid = .paid := fun hpaid => by
        rw [hpending] at hpaid
        cases hpaid
      refine ⟨h.state.mono hmelt id id, fun row hrow => (h.jobs row hrow).mono hmelt,
        fun _ => rfl, fun hrefused => ⟨rfl, (h.refused hrefused).2⟩, fun hdelivered => ?_⟩
      exact hmelt (h.delivered hdelivered)
    · exact h

theorem Inv.safe : Safe account op quote inputs t where
  reserved := h.state.reserved
  unfailed hlive row hrow := h.state.unfailed hlive row (List.mem_of_find?_eq_some hrow)
  waiting hlive hopen := by
    obtain ⟨store, hstore, hlog⟩ := h.state.saga.log
    obtain ⟨hrow, hpayload⟩ := hlog.kept ⟨hlive, hopen⟩
    obtain ⟨row, hrow⟩ := Option.ne_none_iff_exists'.mp hrow
    obtain ⟨payload, hpayload⟩ := Option.ne_none_iff_exists'.mp hpayload
    obtain ⟨-, p, rfl, hp⟩ := hlog.payloads _ payload hpayload
    refine ⟨⟨store, row, p, hstore, hrow, (hlog.rows _ row hrow).2.2, hpayload, hp.selected⟩,
      fun hsession => ⟨h.state.saga.kept ⟨hlive, hopen⟩ hsession, ?_⟩⟩
    obtain ⟨p, hp⟩ := Option.ne_none_iff_exists'.mp (h.state.kept ⟨hlive, hopen⟩ hsession)
    exact ⟨p, hp, (h.state.pending quote p hp).2.selected⟩
  delivered := h.delivered
  settles hpaid := h.state.reserved (by
    by_contra hrefused
    exact hpaid (h.refused (by simpa using hrefused)).1)

/-- A revert on any other answer releases inputs whose payment may still happen. -/
theorem Inv.revert_needs (hinputs : inputs ≠ []) {act : MeltAct}
    (hgood : Safe account op quote inputs (meltStep t act)) : DefiniteStatus t act := by
  cases act with
  | wallet =>
    intro hlive state hstate
    by_contra hno
    obtain ⟨hpaid, hindefinite⟩ := not_or.mp hno
    simp only [statusAnswer] at hstate
    split at hstate
    next tag quote' p state' now =>
      split at hstate
      next hjob =>
        obtain rfl := Option.some.inj hstate
        obtain ⟨rfl, hp⟩ := h.jobs _ hjob
        obtain ⟨s, hs⟩ := List.exists_mem_of_ne_nil inputs hinputs
        have hc : s.proof.c ∈ storedCs inputs := List.mem_map_of_mem hs
        have hstill : (meltStep t (.wallet (.resume tag (.crossStatus quote' p)
            (.meltState state') now))).refused = false := by
          have hanswer : statusAnswer t.world (.resume tag (.crossStatus quote' p)
              (.meltState state') now) = some state' := if_pos hjob
          simp only [meltStep, hlive, hanswer, Bool.false_or]
          simpa using fun heq => by simpa [heq] using hindefinite
        have hproofs : (meltStep t (.wallet (.resume tag (.crossStatus quote' p)
            (.meltState state') now))).world.state.proofs =
            t.world.state.proofs ++ putBack p.sourceMint inputs := by
          have hsection : (WalletSystem.step t.world (.resume tag (.crossStatus quote' p)
              (.meltState state') now)).state =
              (crossStatus t.world.state quote' p (.meltState state')).state :=
            congrArg World.state (if_pos hjob)
          have heffect := (applies_crossStatus t.world.state quote' p (.meltState state')).1
          rw [← hsection] at heffect
          simp only [meltStep]
          rw [heffect, ← hp.selected]
          cases state' with
          | paid => exact absurd rfl hpaid
          | _ => simp [effect, Effect.added]
        refine hgood.reserved hstill _ hc ?_
        rw [hproofs, storedCs_append, storedCs_putBack]
        exact List.mem_append_right _ hc
      · cases hstate
    · cases hstate
  | _ => trivial

end

/-- A wallet whose only operation is a transfer, with what its row records. -/
def begun (account op : String) (now : Nat) (recorded : List WalletConsumedInput)
    (held : List StoredProof) (ledger : WalletDerivedState) : CashuWalletState :=
  let row : WalletOperation :=
    { new op .crossMintTransfer .prepared with
      recordedAt := some now
      consumedInputs := recorded }
  { CashuWalletState.new (some (empty.upsertOperation account row)) with
    proofs := held
    journal := [row]
    ledger := ledger
    walAccount := some account }

/-- The wallet has run the commit of the transfer; the melt request is about to go out. -/
def committed (account op target quote source meltQuote : String) (funded feeReserve now : Nat)
    (inputs held : List StoredProof) (ledger : WalletDerivedState) (retry : Option Nat) :
    Melting where
  world := World.after ⟨begun account op now [] held ledger, [], []⟩ account
    (crossSelected (begun account op now [] held ledger) op target quote source meltQuote funded
      feeReserve inputs retry now)
  melt := .unpaid
  underway := true
  refused := false
  delivered := false

theorem recordConsumedInput_begun (now : Nat) (recorded : List WalletConsumedInput)
    (held : List StoredProof) (ledger : WalletDerivedState) (input : WalletConsumedInput) :
    (begun account op now recorded held ledger).recordConsumedInput op input =
      begun account op now (recorded ++ [input]) held ledger := by
  have hget : (begun account op now recorded held ledger).journal.recordConsumedInput op input =
      .ok (begun account op now (recorded ++ [input]) held ledger).journal := by
    simp [begun, WalletOperationJournal.recordConsumedInput, WalletOperationJournal.edit,
      WalletOperationJournal.get, WalletOperationJournal.update, new]
  simp only [CashuWalletState.recordConsumedInput, hget]
  simp [begun, CashuWalletState.walPersist, CashuWalletState.withWal, CashuWalletState.new,
    WalletOperationJournal.get, new, WalletOperationState.isTerminal,
    upsertOperation, AList.insert_insert]

theorem recordInputs_begun (mint : String) (now : Nat) (recorded : List WalletConsumedInput)
    (held : List StoredProof) (ledger : WalletDerivedState) (selected : List StoredProof) :
    recordInputs (begun account op now recorded held ledger) op mint selected =
      begun account op now (recorded ++ selected.map fun s =>
        ⟨s.tokenEvent.getD "", mint, sat, s.proof.amount⟩) held ledger := by
  induction selected generalizing recorded with
  | nil => simp [recordInputs]
  | cons s rest ih =>
    have hstep : recordInputs (begun account op now recorded held ledger) op mint (s :: rest) =
        recordInputs ((begun account op now recorded held ledger).recordConsumedInput op
          ⟨s.tokenEvent.getD "", mint, sat, s.proof.amount⟩) op mint rest := rfl
    rw [hstep, recordConsumedInput_begun, ih]
    simp

/-- The row of a committed transfer. -/
def committedRow (op : String) (now : Nat) (consumed : List WalletConsumedInput) :
    WalletOperation :=
  { new op .crossMintTransfer .mintPending with
    recordedAt := some now
    consumedInputs := consumed }

theorem transition_begun (now : Nat) {consumed : List WalletConsumedInput} (h : consumed ≠ [])
    (held : List StoredProof) (ledger : WalletDerivedState) :
    (begun account op now consumed held ledger).transition op .mintPending =
      .ok { begun account op now consumed held ledger with
        journal := [committedRow op now consumed]
        walStore := some
          (empty.upsertOperation account (committedRow op now consumed)) } := by
  simp [begun, committedRow, CashuWalletState.transition, WalletOperationJournal.transition,
    WalletOperationJournal.get, WalletOperationJournal.update, new,
    validateTransition, WalletOperationState.canTransitionTo, h, CashuWalletState.walPersist,
    CashuWalletState.withWal, CashuWalletState.new, WalletOperationState.isTerminal,
    upsertOperation, AList.insert_insert, CashuWalletState.applyFact]

/-- With an input recorded the commit goes through: the operation is `MintPending` in journal and
log, the transfer pending and logged, the inputs out of the inventory. -/
theorem committed_inv (account op target quote source meltQuote : String)
    (funded feeReserve now : Nat) {inputs : List StoredProof} (held : List StoredProof)
    (ledger : WalletDerivedState) (retry : Option Nat) (hinputs : inputs ≠ []) :
    Inv account op quote inputs
      (committed account op target quote source meltQuote funded feeReserve now inputs held ledger
        retry) := by
  let consumed := inputs.map fun s : StoredProof =>
    (⟨s.tokenEvent.getD "", source, sat, s.proof.amount⟩ : WalletConsumedInput)
  let transfer : PendingCrossMintTransfer :=
    ⟨op, target, source, funded, quote, meltQuote, inputs, false, none, none, some now⟩
  let store := (empty.upsertOperation account (committedRow op now consumed)
    ).upsertPayload account op (.crossMintTransfer { transfer with chainStartedAt := none })
  let after : CashuWalletState :=
    { begun account op now consumed held ledger with
      proofs := removeProofs inputs held
      journal := [committedRow op now consumed]
      pendingCrossMintTransfers := (∅ : Table String PendingCrossMintTransfer).insert quote transfer
      walStore := some store }
  have hconsumed : consumed ≠ [] := by simpa [consumed] using hinputs
  have hreserve : reserveInputs (begun account op now [] held ledger) op source inputs =
      ((({ begun account op now consumed held ledger with
        journal := [committedRow op now consumed]
        walStore := some (empty.upsertOperation account
          (committedRow op now consumed)) } : CashuWalletState).removeProofs inputs), true) := by
    simp only [reserveInputs, recordInputs_begun, List.nil_append]
    rw [transition_begun now hconsumed held ledger]
  have hcommit : crossSelected (begun account op now [] held ledger) op target quote source
      meltQuote funded feeReserve inputs retry now =
      .stay after [.crossMelt op quote source feeReserve inputs retry] := by
    simp only [crossSelected, hreserve]
    simp [after, store, transfer, begun, CashuWalletState.new, CashuWalletState.removeProofs,
      -AList.insert_empty, CashuWalletState.insertCrossMint, CashuWalletState.persistCrossMintPayload,
      CashuWalletState.withWal]
  have hreserved : Reserved inputs after := by
    intro c hc hmem
    obtain ⟨s, hs, rfl⟩ := List.mem_map.mp hmem
    have := (List.mem_filter.mp hs).2
    simp [hc] at this
  have htransfer : TransferOk op quote inputs .unpaid transfer :=
    ⟨rfl, rfl, rfl, (fun hfalse => by cases hfalse), fun proofs hproofs => by cases hproofs⟩
  refine ⟨?_, fun row hrow => ?_, fun _ => rfl, fun hfalse => (by cases hfalse),
    fun hfalse => (by cases hfalse)⟩
  · simp only [committed, hcommit]
    have hpayload : PayloadOk op quote inputs .unpaid
        (.crossMintTransfer { transfer with chainStartedAt := none }) :=
      ⟨_, rfl, rfl, rfl, rfl, htransfer.settled, htransfer.minted⟩
    refine ⟨SagaOk.first ⟨rfl, rfl⟩ rfl hpayload rfl rfl rfl, fun _ row hrow => ?_, rfl,
      fun key p hp => ?_, fun _ _ => ?_, fun _ => hreserved⟩
    · obtain rfl := List.mem_singleton.mp hrow
      simp [committedRow, new]
    · simp only [World.after, Outcome.stay, after, lookup_insert_eq] at hp
      split at hp
      next hkey =>
        obtain rfl := Option.some.inj hp
        exact ⟨hkey, htransfer⟩
      · cases hp
    · simp only [World.after, Outcome.stay, after, lookup_insert_eq, if_true]
      exact Option.some_ne_none _
  · simp only [committed, hcommit] at hrow
    obtain rfl := List.mem_singleton.mp hrow
    exact ⟨rfl, rfl⟩

/-- In every run of a committed transfer: inputs are released and the operation fails only once
the mint has refused the payment for good, the operation waits until its token is folded, and no
input whose payment has begun is spendable, exactly when no status query is answered that the
payment is pending, or unpaid while it may still happen. -/
theorem melt_releases_only_refused_iff (account op target quote source meltQuote : String)
    (funded feeReserve now : Nat) (inputs held : List StoredProof) (ledger : WalletDerivedState)
    (retry : Option Nat) (hinputs : inputs ≠ []) (acts : List MeltAct)
    (hdom : Meets meltStep (fun t act => isTransferAct account inputs t act = true)
      (committed account op target quote source meltQuote funded feeReserve now inputs held ledger
        retry) acts) :
    (∀ xs, xs <+: acts → Safe account op quote inputs (run meltStep
      (committed account op target quote source meltQuote funded feeReserve now inputs held ledger
        retry) xs)) ↔
    Meets meltStep DefiniteStatus
      (committed account op target quote source meltQuote funded feeReserve now inputs held ledger
        retry) acts :=
  always_iff_meets (Inv account op quote inputs) (Safe account op quote inputs)
    (fun _ _ h hact hok => h.step hact hok) (fun _ h => h.safe)
    (fun _ _ h _ hgood => h.revert_needs hinputs hgood)
    (committed_inv account op target quote source meltQuote funded feeReserve now held ledger retry
      hinputs) hdom

/-- A small wallet that has committed a transfer of one proof. -/
def oneProofMelt : Melting :=
  committed "a" "t" "https://target" "q" "https://source" "m" 4 0 0
    [⟨some "1", "https://source", ⟨4, "k", "s", "P"⟩⟩]
    [⟨some "1", "https://source", ⟨4, "k", "s", "P"⟩⟩] .empty none

/-- The backend crashes during the melt; its resume finds the payment pending, and the payment
settles afterwards. -/
def pendingAtResume : List MeltAct :=
  let transfer : PendingCrossMintTransfer :=
    ⟨"t", "https://target", "https://source", 4, "q", "m",
      [⟨some "1", "https://source", ⟨4, "k", "s", "P"⟩⟩], false, none, none, some 9⟩
  [.accept .pending, .wallet .crash, .wallet (.restore "a"),
    .wallet (.resume "a" (.crossResume "q") .none 9),
    .wallet (.resume "a" (.crossStatus "q" transfer) (.meltState .pending) 9), .settle]

/-- The same, with a mint that cannot be reached at first and answers once it is paid. -/
def paidAtResume : List MeltAct :=
  let transfer : PendingCrossMintTransfer :=
    ⟨"t", "https://target", "https://source", 4, "q", "m",
      [⟨some "1", "https://source", ⟨4, "k", "s", "P"⟩⟩], false, none, none, some 9⟩
  [.accept .pending, .wallet .crash, .wallet (.restore "a"),
    .wallet (.resume "a" (.crossResume "q") .none 9),
    .wallet (.resume "a" (.crossStatus "q" transfer) .none 9), .settle,
    .wallet .crash, .wallet (.restore "a"), .wallet (.resume "a" (.crossResume "q") .none 9),
    .wallet (.resume "a" (.crossStatus "q" transfer) (.meltState .paid) 9)]

theorem melt_releases_only_refused_paid :
    (∀ xs, xs <+: paidAtResume → Safe "a" "t" "q"
      [⟨some "1", "https://source", ⟨4, "k", "s", "P"⟩⟩] (run meltStep oneProofMelt xs)) ↔
    Meets meltStep DefiniteStatus oneProofMelt paidAtResume :=
  melt_releases_only_refused_iff "a" "t" "https://target" "q" "https://source" "m" 4 0 0
    [⟨some "1", "https://source", ⟨4, "k", "s", "P"⟩⟩]
    [⟨some "1", "https://source", ⟨4, "k", "s", "P"⟩⟩] .empty none (by simp) paidAtResume
    (by decide +kernel)

theorem pending_melt_released :
    ¬ ∀ acts, Meets meltStep (fun t act => isTransferAct "a"
        [⟨some "1", "https://source", ⟨4, "k", "s", "P"⟩⟩] t act = true) oneProofMelt acts →
      ∀ xs, xs <+: acts → Safe "a" "t" "q"
        [⟨some "1", "https://source", ⟨4, "k", "s", "P"⟩⟩] (run meltStep oneProofMelt xs) := by
  intro h
  have hsafe := h pendingAtResume (by decide +kernel) pendingAtResume (List.prefix_refl _)
  have hpaid : (run meltStep oneProofMelt pendingAtResume).melt ≠ .unpaid := by decide +kernel
  exact hsafe.settles hpaid "P" (by decide) (by decide +kernel)

end WalletMelt
