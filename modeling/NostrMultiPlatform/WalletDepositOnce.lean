import Mathlib.Data.List.Flatten
import NostrMultiPlatform.WalletSaga

/-!
# Deposits are credited once

The attempts to complete one quote overlap, lose their lease, crash and are
resumed. Beside the world runs a ghost that remembers what the mint issued,
whether a fold has passed the fence, and whether an ingested event of the deposit
has been credited since the last restart.
-/
namespace WalletDepositOnce

open Runs Tables WalletProof WalletJournal WalletLedger WalletState WalletJobs WalletDeposit
  WalletIngest WalletLifecycle WalletSystem WalletEffect WalletSaga

structure Attempts where
  world : World
  issued : Option (List Proof)
  folded : Bool
  credited : Bool

/-- The proofs a mint answer issues to an attempt. -/
def issuedBy (w : World) : Act → Option (List Proof)
  | .resume tag job answer _ =>
    match job, answer with
    | .depositMint _ _ _ _ _, .quotePaid minted => if (tag, job) ∈ w.jobs then minted else none
    | _, _ => none
  | _ => none

/-- The act is a signed attempt whose lease is still the one recorded. -/
def folds (w : World) : Act → Bool
  | .resume tag job answer _ =>
    match job, answer with
    | .depositSigning _ quote _ _ lease, .signed _ =>
      (tag, job) ∈ w.jobs && holdsLease w.state quote lease
    | _, _ => false
  | _ => false

/-- The act ingests a token event that is not known and brings fresh proofs. -/
def credits (w : World) : Act → Bool
  | .resume tag (.ingestToken event) _ _ =>
    (tag, Job.ingestToken event) ∈ w.jobs && !alreadyKnown w.state event &&
      !(freshProofs w.state event).isEmpty
  | _ => false

def restarts : Act → Bool
  | .crash => true
  | _ => false

def attempt (t : Attempts) (act : Act) : Attempts where
  world := step t.world act
  issued := t.issued <|> issuedBy t.world act
  folded := t.folded || folds t.world act
  credited := !restarts act && (t.credited || credits t.world act)

/-- How often the live token events of the ledger carry a proof. -/
def liveCount (ledger : WalletDerivedState) (c : String) : Nat :=
  ((values ledger.liveTokens).flatMap fun row => row.proofs.map ProofAtom.proof).count c

/-- Each minted proof is at most once in the inventory and at most once in the ledger. -/
def CreditedOnce (t : Attempts) : Prop :=
  ∀ proofs, t.issued = some proofs → ∀ c ∈ proofCs proofs,
    (storedCs t.world.state.proofs).count c ≤ 1 ∧ liveCount t.world.state.ledger c ≤ 1

section
variable (account op quote : String)

/-- Until they are folded the minted proofs are in the log, and pending while the account's
session lives. -/
def Retained (t : Attempts) : Prop :=
  ∀ proofs, t.issued = some proofs → t.folded = false →
    (∃ store mint amount, t.world.state.walStore = some store ∧
      store.loadPayload account op = some (.deposit quote mint amount (some proofs) none)) ∧
    (t.world.state.walAccount = some account →
      ∃ p, t.world.state.pendingDeposits.lookup quote = some p ∧ p.mintedProofs = some proofs)

/-- A mint hands the proofs of the quote out at most once, under names not seen before. -/
def IssuesOnce (t : Attempts) (act : Act) : Prop :=
  ∀ proofs ∈ issuedBy t.world act,
    t.issued = none ∧ (proofCs proofs).Nodup ∧ ∀ c ∈ proofCs proofs,
      c ∉ storedCs t.world.state.proofs ∧ liveCount t.world.state.ledger c = 0

instance (t : Attempts) (act : Act) : Decidable (IssuesOnce t act) :=
  inferInstanceAs (Decidable (∀ proofs ∈ issuedBy t.world act, _))

/-- The jobs of a deposit and of the ingestion of what it published. -/
def isDepositJob : Job → Bool
  | .depositComplete _ _ _ _ | .depositStillHeld _ _ | .depositMint _ _ _ _ _
  | .depositSigning _ _ _ _ _ | .depositResume _ _ _ | .markUncertain _ | .ingestToken _ => true
  | _ => false

/-- The acts of the deposit: attempts and their answers, published events coming back, crashes
and restores. -/
def isDepositAct (w : World) : Act → Bool
  | .startComplete _ quote' => quote' = quote
  | .resume _ job _ _ => isDepositJob job
  | .observe _ event => event ∈ w.relay
  | .crash => true
  | .restore account' => account' = account
  | _ => false

def DepositAct (t : Attempts) (act : Act) : Prop :=
  IssuesOnce t act ∧ isDepositAct account quote t.world act = true

instance (t : Attempts) (act : Act) : Decidable (DepositAct account quote t act) :=
  inferInstanceAs (Decidable (_ ∧ _))

/-- When a fold passes the fence, no event of the deposit has been credited since the restart. -/
def FoldUncredited (t : Attempts) (act : Act) : Prop :=
  folds t.world act = true → t.credited = false

instance (t : Attempts) (act : Act) : Decidable (FoldUncredited t act) :=
  inferInstanceAs (Decidable (_ → _))

/-- An event of the deposit: it carries the issued proofs and replaces nothing. -/
def EventOk (issued : Option (List Proof)) (event : TokenEvent) : Prop :=
  issued = some event.proofs ∧ event.del = []

structure PendingOk (issued : Option (List Proof)) (folded : Bool) (p : PendingDeposit) :
    Prop where
  operation : p.operationId = op
  minted : p.mintedProofs = issued
  signed : ∀ event, p.signedToken = some event → EventOk issued event
  folded : p.signedToken.isSome = folded
  leased : p.chainStartedAt ≠ none → p.signedToken = none

def PayloadOk (issued : Option (List Proof)) (folded : Bool) (payload : CashuWalPayload) : Prop :=
  ∃ mint amount signed, payload = .deposit quote mint amount issued signed ∧
    signed.isSome = folded ∧ ∀ event, signed = some event → EventOk issued event

structure StateOk (issued : Option (List Proof)) (folded : Bool) (st : CashuWalletState) :
    Prop where
  saga : SagaOk account op .depositCashu (PayloadOk quote issued folded) (folded = false) st
  pending : ∀ quote' p, st.pendingDeposits.lookup quote' = some p →
    quote' = quote ∧ st.walAccount = some account ∧ PendingOk op issued folded p
  kept : folded = false → st.walAccount = some account →
    st.pendingDeposits.lookup quote ≠ none

variable {account op quote} {issued issued' : Option (List Proof)} {folded folded' : Bool}
  {st st' : CashuWalletState}

section

variable (h : StateOk account op quote issued folded st)
include h

/-- Only log, account, journal and pending deposits matter. -/
theorem StateOk.congr (hlog : st'.walStore = st.walStore)
    (haccount : st'.walAccount = st.walAccount) (hjournal : st'.journal = st.journal)
    (hpending : st'.pendingDeposits = st.pendingDeposits) :
    StateOk account op quote issued folded st' where
  saga := h.saga.congr hlog haccount hjournal
  pending := by rw [hpending, haccount]; exact h.pending
  kept := by rw [hpending, haccount]; exact h.kept

/-- A transition of the operation keeps the invariant, a terminal one once the deposit is
folded. -/
theorem StateOk.advance (id : String) (next : WalletOperationState)
    (hnext : folded = false → next.isTerminal = false) :
    StateOk account op quote issued folded (st.advance id next) where
  saga := h.saga.advance id next hnext
  pending := by simpa using h.pending
  kept := by simpa using h.kept

theorem StateOk.editDeposit (quote' : String) {f : PendingDeposit → PendingDeposit}
    (hf : ∀ p, PendingOk op issued folded p → PendingOk op issued folded (f p)) :
    StateOk account op quote issued folded (st.editDeposit quote' f) where
  saga := h.saga.congr rfl rfl rfl
  pending key p hp := by
    simp only [CashuWalletState.editDeposit, lookup_edit] at hp
    split at hp
    · obtain ⟨old, hold, rfl⟩ := Option.map_eq_some_iff.mp hp
      obtain ⟨hkey, hsession, hok⟩ := h.pending key old hold
      exact ⟨hkey, hsession, hf old hok⟩
    · exact h.pending key p hp
  kept hunfolded hsession := by
    simp only [CashuWalletState.editDeposit, lookup_edit]
    split
    · simpa using h.kept hunfolded hsession
    · exact h.kept hunfolded hsession

/-- An edit of the pending deposit that is written through moves the log along with it. -/
theorem StateOk.persist (hsession : st.walAccount = some account)
    {f : PendingDeposit → PendingDeposit}
    (hf : ∀ p, PendingOk op issued folded p → PendingOk op issued' folded' (f p))
    (hpresent : st.pendingDeposits.lookup quote ≠ none) (hfolded : folded' = false → folded = false)
    :
    StateOk account op quote issued' folded'
      ((st.editDeposit quote f).persistDepositPayload quote) := by
  obtain ⟨p, hp⟩ := Option.ne_none_iff_exists'.mp hpresent
  have hok := hf p (h.pending quote p hp).2.2
  have hlookup : ∀ key, (st.editDeposit quote f).pendingDeposits.lookup key =
      if key = quote then some (f p) else st.pendingDeposits.lookup key := fun key => by
    simp only [CashuWalletState.editDeposit, lookup_edit]
    split
    next hkey => rw [hkey, hp, Option.map_some]
    · rfl
  have hedited : SagaOk account op .depositCashu (PayloadOk quote issued folded)
      (folded = false) (st.editDeposit quote f) := h.saga.congr rfl rfl rfl
  have hpayload : PayloadOk quote issued' folded'
      (.deposit quote (f p).mint (f p).amountSats (f p).mintedProofs (f p).signedToken) :=
    ⟨_, _, _, by rw [hok.minted], hok.folded, hok.signed⟩
  have hwritten : (st.editDeposit quote f).persistDepositPayload quote =
      (st.editDeposit quote f).withWal fun store account => store.upsertPayload account op
        (.deposit quote (f p).mint (f p).amountSats (f p).mintedProofs (f p).signedToken) := by
    simp only [CashuWalletState.persistDepositPayload, hlookup, if_true, hok.operation]
  rw [hwritten]
  refine ⟨hedited.write hsession hpayload hfolded, fun key q hq => ?_, fun hunfolded _ => ?_⟩
  · rw [(CashuWalletState.withWal_frame _ _).2.2.2.2.1, hlookup] at hq
    split at hq
    next hkey =>
      obtain rfl := Option.some.inj hq
      exact ⟨hkey, by simpa using hsession, hok⟩
    next hkey => exact absurd (h.pending key q hq).1 hkey
  · rw [(CashuWalletState.withWal_frame _ _).2.2.2.2.1, hlookup, if_pos rfl]
    exact Option.some_ne_none _

theorem StateOk.crash :
    StateOk account op quote issued folded (.new st.walStore) where
  saga := h.saga.crash
  pending key p hp := by cases hp
  kept _ hsession := by cases hsession

theorem StateOk.settle (eventId : String) :
    StateOk account op quote issued folded (settleDepositOnIngestedToken st eventId) := by
  simp only [settleDepositOnIngestedToken]
  split
  · exact h
  next row hfound =>
    -- only a deposit with a signed token is settled, so the fold is behind it
    have hfolded : folded = true := by
      have hmatch := List.find?_some hfound
      have hok := (h.pending row.1 row.2
        (AList.mem_lookup_iff.mpr (List.mem_of_find?_eq_some hfound))).2.2
      rw [← hok.folded]
      cases hsigned : row.2.signedToken with
      | none => rw [hsigned] at hmatch; cases hmatch
      | some => rfl
    have hadvanced := h.advance row.2.operationId .settled
      fun hunfolded => by simp [hfolded] at hunfolded
    refine ⟨hadvanced.saga.congr rfl rfl rfl, fun key p hp => ?_,
      fun hunfolded => by simp [hfolded] at hunfolded⟩
    simp only [CashuWalletState.eraseDeposit, lookup_erase_eq] at hp
    split at hp
    · cases hp
    · exact hadvanced.pending key p hp

end

/-- What a job of the deposit was started with. -/
def JobOk (account op quote : String) (issued : Option (List Proof)) (st : CashuWalletState) :
    Job → Prop
  | .depositComplete op' quote' _ _ | .depositMint op' quote' _ _ _ | .depositResume op' quote' _ =>
    op' = op ∧ quote' = quote ∧ st.walAccount = some account
  | .depositStillHeld _ signed => EventOk issued signed
  | .depositSigning op' quote' _ proofs _ =>
    op' = op ∧ quote' = quote ∧ issued = some proofs ∧ st.walAccount = some account
  | .ingestToken event => EventOk issued event
  | .markUncertain _ | .checkPass _ | .checkMints _ _ | .spawnDebounced => True
  | _ => False

theorem jobOk_congr {job : Job} (h : JobOk account op quote issued st job)
    (haccount : st.walAccount = some account → st'.walAccount = some account) :
    JobOk account op quote issued st' job := by
  cases job <;> simp only [JobOk] at h ⊢ <;> first | exact h | skip
  · exact ⟨h.1, h.2.1, haccount h.2.2⟩
  · exact ⟨h.1, h.2.1, haccount h.2.2⟩
  · exact ⟨h.1, h.2.1, h.2.2.1, haccount h.2.2.2⟩
  · exact ⟨h.1, h.2.1, haccount h.2.2⟩

variable {proofs : List Proof} {p : PendingDeposit} {answer : Answer} {event : TokenEvent}
  {jobs : List (String × Job)}

theorem jobOk_issued {job : Job} (h : JobOk account op quote none st job) :
    JobOk account op quote (some proofs) st job := by
  cases job <;> simp only [JobOk, EventOk] at h ⊢ <;> first | exact h | simp at h

/-- A section that keeps the invariant and does not touch money. -/
structure Quiet (account op quote : String) (issued : Option (List Proof)) (folded : Bool)
    (st : CashuWalletState) (out : Outcome) : Prop where
  state : StateOk account op quote issued folded out.state
  proofs : out.state.proofs = st.proofs
  ledger : out.state.ledger = st.ledger
  session : st.walAccount = some account → out.state.walAccount = some account
  jobs : ∀ job ∈ out.jobs, JobOk account op quote issued out.state job
  published : ∀ event ∈ out.published, EventOk issued event

theorem Quiet.stay (h : StateOk account op quote issued folded st') {jobs : List Job}
    (hproofs : st'.proofs = st.proofs) (hledger : st'.ledger = st.ledger)
    (hsession : st.walAccount = some account → st'.walAccount = some account)
    (hjobs : ∀ job ∈ jobs, JobOk account op quote issued st' job) :
    Quiet account op quote issued folded st (.stay st' jobs) :=
  ⟨h, hproofs, hledger, hsession, hjobs, fun event hevent => by cases hevent⟩

theorem Quiet.idle (h : StateOk account op quote issued folded st) {jobs : List Job}
    (hjobs : ∀ job ∈ jobs, JobOk account op quote issued st job) :
    Quiet account op quote issued folded st (.stay st jobs) :=
  .stay h rfl rfl id hjobs

theorem pendingOk_lease (h : PendingOk op issued folded p) (hunsigned : p.signedToken = none)
    (lease : Option Nat) : PendingOk op issued folded { p with chainStartedAt := lease } :=
  ⟨h.operation, h.minted, h.signed, h.folded, fun _ => hunsigned⟩

/-- Every pending deposit is signed or none is. -/
theorem PendingOk.unsigned {p q : PendingDeposit} (hp : PendingOk op issued folded p)
    (hq : PendingOk op issued folded q) (h : p.signedToken = none) : q.signedToken = none := by
  have hfolded : q.signedToken.isSome = p.signedToken.isSome := by rw [hp.folded, hq.folded]
  rw [h] at hfolded
  simpa using hfolded

section

variable (h : StateOk account op quote issued folded st)
include h

theorem StateOk.lease (hp : PendingOk op issued folded p) (hunsigned : p.signedToken = none)
    (now : Nat) :
    StateOk account op quote issued folded
      (st.editDeposit quote fun p => { p with chainStartedAt := some now }) :=
  h.editDeposit quote fun _ hq => pendingOk_lease hq (hp.unsigned hq hunsigned) _

theorem quiet_takeLease (hp : PendingOk op issued folded p) (hunsigned : p.signedToken = none)
    (hsession : st.walAccount = some account) (mint : String) (amount now : Nat) :
    Quiet account op quote issued folded st (takeLease st op quote mint amount now p) := by
  simp only [takeLease]
  split
  next proofs hminted =>
    refine .stay (h.lease hp hunsigned now) (by simp) (by simp) (by simp) ?_
    simpa [JobOk, hsession] using hp.minted.symm.trans hminted
  · exact .stay (h.lease hp hunsigned now) (by simp) (by simp) (by simp) (by simp [JobOk, hsession])

theorem quiet_startComplete : Quiet account op quote issued folded st (startComplete st quote) := by
  simp only [startComplete]
  split
  · exact .idle h (by simp)
  next p hp =>
    obtain ⟨-, hsession, hok⟩ := h.pending quote p hp
    exact .idle h (by simp [JobOk, hsession, hok.operation])

theorem quiet_depositComplete (hsession : st.walAccount = some account) (mint : String)
    (amount now : Nat) :
    Quiet account op quote issued folded st (depositComplete st op quote mint amount now) := by
  simp only [depositComplete]
  split
  · exact .idle h (by simp)
  next p hp =>
    have hok := (h.pending quote p hp).2.2
    split
    next signed hsigned => exact .idle h (by simpa [JobOk] using hok.signed signed hsigned)
    next hunsigned _ =>
      split
      · exact .idle h (by simp)
      · exact quiet_takeLease h hok hunsigned hsession mint amount now
    next hunsigned _ => exact quiet_takeLease h hok hunsigned hsession mint amount now

theorem quiet_depositStillHeld {signed : TokenEvent} (hsigned : EventOk issued signed)
    (quote' : String) :
    Quiet account op quote issued folded st (depositStillHeld st quote' signed) := by
  simp only [depositStillHeld]
  split
  · exact ⟨h, rfl, rfl, id, by simp, by simpa using hsigned⟩
  · exact .idle h (by simp)

end

theorem StateOk.clearChainLease (h : StateOk account op quote issued folded st) (lease : Nat) :
    StateOk account op quote issued folded (clearChainLease st quote lease) :=
  h.editDeposit quote fun p hp => by
    split
    · exact ⟨hp.operation, hp.minted, hp.signed, hp.folded, fun hleased => absurd rfl hleased⟩
    · exact hp

section

variable (h : StateOk account op quote issued folded st)
include h

theorem quiet_depositMint (mint : String) (lease : Nat)
    (hanswer : ∀ proofs, answer ≠ .quotePaid (some proofs)) :
    Quiet account op quote issued folded st (depositMint st op quote mint lease answer) := by
  have hclear : ∀ jobs : List Job,
      (∀ job ∈ jobs, JobOk account op quote issued (clearChainLease st quote lease) job) →
      Quiet account op quote issued folded st (.stay (clearChainLease st quote lease) jobs) :=
    fun jobs hjobs => .stay (h.clearChainLease lease) (by simp [clearChainLease])
      (by simp [clearChainLease]) (by simp [clearChainLease]) hjobs
  cases answer with
  | quotePaid minted =>
    cases minted with
    | none => exact hclear _ (by simp [JobOk])
    | some proofs => exact absurd rfl (hanswer proofs)
  | _ => exact hclear _ (by simp)

theorem quiet_depositResume (hsession : st.walAccount = some account) (mint : String) (now : Nat) :
    Quiet account op quote issued folded st (depositResume st op quote mint now) := by
  simp only [depositResume]
  split
  · exact .idle h (by simp)
  next p hp =>
    have hok := (h.pending quote p hp).2.2
    split
    next signed hsigned =>
      exact ⟨h, rfl, rfl, id, by simp, by simpa using hok.signed signed hsigned⟩
    next proofs hunsigned hminted =>
      refine .stay (h.lease hok hunsigned now) (by simp) (by simp) (by simp) ?_
      simpa [JobOk, hsession] using hok.minted.symm.trans hminted
    · exact .idle h (by simp)

theorem quiet_markUncertain (op' : String) :
    Quiet account op quote issued folded st (.stay (st.advance op' .unknown) []) :=
  .stay (h.advance op' .unknown fun _ => rfl) (by simp) (by simp) (by simp) (by simp)

theorem quiet_observe (hevent : EventOk issued event) :
    Quiet account op quote issued folded st
      (.stay (settleDepositOnIngestedToken st event.id) [.ingestToken event]) := by
  have hmoney : ∀ id, (settleDepositOnIngestedToken st id).proofs = st.proofs ∧
      (settleDepositOnIngestedToken st id).ledger = st.ledger ∧
      (settleDepositOnIngestedToken st id).walAccount = st.walAccount := fun id => by
    simp only [settleDepositOnIngestedToken]
    split <;> simp
  exact .stay (h.settle event.id) (hmoney event.id).1 (hmoney event.id).2.1
    (by simp [(hmoney event.id).2.2]) (by simpa [JobOk] using hevent)

end

/-- An event that is known, or whose proofs are all held, adds nothing. -/
theorem ingestToken_skips (hdel : event.del = [])
    (hskip : alreadyKnown st event = true ∨ freshProofs st event = []) :
    ingestToken st event = .stay st [] := by
  have hstate : ingestTokenEvent st event = (st, false) := by
    simp only [ingestTokenEvent, hdel, List.foldl_nil]
    rcases hskip with hknown | hfresh
    · have hlive : (st.ledger.isTokenLive event.id || st.ledger.isTokenTombstoned event.id) =
          true := by simpa [alreadyKnown, hdel] using hknown
      rw [if_pos hlive]
    · have hnone : (event.proofs.filter fun p => p.c ∉ storedCs st.proofs) = [] := by
        simpa [freshProofs, unreplaced, hdel] using hfresh
      simp only [hnone, if_true]
      split <;> rfl
  simp only [ingestToken, hstate]

theorem quiet_ingestToken (h : StateOk account op quote issued folded st)
    (hevent : EventOk issued event)
    (hskip : alreadyKnown st event = true ∨ freshProofs st event = []) :
    Quiet account op quote issued folded st (ingestToken st event) := by
  rw [ingestToken_skips hevent.2 hskip]
  exact .idle h (by simp)

theorem quiet_depositSigning (h : StateOk account op quote issued folded st)
    (hissued : issued = some proofs) (mint : String) {lease : Nat}
    (hfenced : ∀ eventId, answer = .signed eventId → holdsLease st quote lease = false) :
    Quiet account op quote issued folded st
      (depositSigning st op quote mint proofs lease answer) := by
  cases answer with
  | signed eventId =>
    have hlease : (st.pendingDeposits.lookup quote).bind (fun p => p.chainStartedAt) ≠ some lease := by
      simpa [holdsLease] using hfenced eventId rfl
    have hstate : ∀ signed, foldDeposit st op quote mint proofs lease signed = st := fun signed =>
      if_pos hlease
    simp only [depositSigning, hstate]
    exact ⟨h, rfl, rfl, id, by simp, by simpa [EventOk] using hissued⟩
  | _ => exact .idle h (by simp)

/-- A restore brings the deposit back as the log has it, with no lease, and drives it on. -/
theorem quiet_restore (h : StateOk account op quote issued folded st) :
    Quiet account op quote issued folded st
      (.stay (restoreFromWal st account).1 (restoreFromWal st account).2) ∧
      (restoreFromWal st account).1.walAccount = some account := by
  obtain ⟨back, store, rows, hsaga, hsession, -, ⟨hproofs, hledger, -, hpending, -⟩, hrows,
    hinFlight, hresult, -⟩ := h.saga.restore
  have hfold : restoreFromWal st account = rows.foldl restoreDeposit (back, []) := by
    rw [hresult]
    simp [hinFlight]
  rw [hfold]
  rcases hrows with ⟨rfl, hover⟩ | ⟨payload, rfl, mint, amount, signed, rfl, hsigned, hevent⟩
  · -- the operation is over: nothing is read back
    refine ⟨.stay ⟨hsaga, fun key p hp => ?_, fun hunfolded => absurd hunfolded hover⟩
      hproofs hledger (fun _ => hsession) (by simp), hsession⟩
    rw [hpending] at hp
    exact ⟨(h.pending key p hp).1, hsession, (h.pending key p hp).2.2⟩
  · have hok : PendingOk op issued folded ⟨op, mint, amount, issued, none, signed⟩ :=
      ⟨rfl, rfl, hevent, hsigned, fun hleased => absurd rfl hleased⟩
    simp only [List.foldl_cons, List.foldl_nil, restoreDeposit, List.nil_append]
    have hback : StateOk account op quote issued folded
        (back.insertDeposit quote ⟨op, mint, amount, issued, none, signed⟩) := by
      refine ⟨hsaga.congr rfl rfl rfl, fun key p hp => ?_, fun _ _ => ?_⟩
      · simp only [CashuWalletState.insertDeposit, lookup_insert_eq] at hp
        split at hp
        next hkey =>
          obtain rfl := Option.some.inj hp
          exact ⟨hkey, hsession, hok⟩
        next hkey =>
          rw [hpending] at hp
          exact absurd (h.pending key p hp).1 hkey
      · simp [CashuWalletState.insertDeposit]
    refine ⟨.stay hback (by simpa using hproofs) (by simpa using hledger)
      (by simpa using fun _ => hsession) fun job hjob => ?_, by simpa using hsession⟩
    split at hjob
    · obtain rfl := List.mem_singleton.mp hjob
      exact ⟨rfl, rfl, by simpa using hsession⟩
    · cases hjob

/-- None of the proofs is held or in the ledger. -/
def Absent (st : CashuWalletState) (proofs : List Proof) : Prop :=
  ∀ c ∈ proofCs proofs, (storedCs st.proofs).count c = 0 ∧ liveCount st.ledger c = 0

/-- Each of the proofs is held once. -/
def Present (st : CashuWalletState) (proofs : List Proof) : Prop :=
  ∀ c ∈ proofCs proofs, (storedCs st.proofs).count c = 1 ∧ liveCount st.ledger c ≤ 1

theorem liveCount_tokenAdded (ledger : WalletDerivedState) (id mint unit : String)
    (atoms : List ProofAtom) (c : String) :
    liveCount (ledger.apply (.tokenAdded id mint unit atoms)) c ≤
      (atoms.map ProofAtom.proof).count c + liveCount ledger c := by
  simp only [WalletDerivedState.apply, WalletDerivedState.fold, WalletDerivedState.applyTokenLive]
  split
  · exact Nat.le_add_left _ _
  · have hrest : ((ledger.liveTokens.entries.kerase id).map fun e => e.2).Sublist
        (values ledger.liveTokens) := (List.kerase_sublist id _).map _
    simp only [liveCount, values, AList.entries_insert, List.map_cons, List.flatMap_cons,
      List.count_append]
    exact Nat.add_le_add_left ((hrest.flatMap _).count_le c) _

/-- Crediting the absent proofs makes them present. -/
theorem credit_present (hnodup : (proofCs proofs).Nodup) (habsent : Absent st proofs)
    {tokenEvent : Option String} {mint mint' unit id : String}
    (hproofs : st'.proofs = st.proofs ++ attach tokenEvent mint proofs)
    (hledger : st'.ledger = st.ledger.apply (.tokenAdded id mint' unit (proofAtoms proofs))) :
    Present st' proofs := by
  intro c hc
  have hone : (proofCs proofs).count c = 1 := List.count_eq_one_of_mem hnodup hc
  have hatoms : (proofAtoms proofs).map ProofAtom.proof = proofCs proofs := by
    simp [proofAtoms, proofCs, Function.comp_def]
  constructor
  · rw [hproofs, storedCs_append, storedCs_attach, List.count_append, (habsent c hc).1, hone]
  · have := liveCount_tokenAdded st.ledger id mint' unit (proofAtoms proofs) c
    rw [hatoms, hone, (habsent c hc).2] at this
    rwa [hledger]

/-- An event that adds some of its proofs adds them all, and touches nothing but money. -/
theorem ingestToken_credits (hdel : event.del = []) (hunknown : alreadyKnown st event = false)
    (hfresh : freshProofs st event ≠ []) (hnodup : (proofCs event.proofs).Nodup)
    (hcases : Absent st event.proofs ∨ Present st event.proofs) :
    Absent st event.proofs ∧ event.proofs ≠ [] ∧
      ∃ credited, ingestToken st event = .stay credited [.spawnDebounced] ∧
        Present credited event.proofs ∧ credited.walStore = st.walStore ∧
        credited.walAccount = st.walAccount ∧ credited.journal = st.journal ∧
        credited.pendingDeposits = st.pendingDeposits := by
  have hheld : freshProofs st event = event.proofs.filter fun p => p.c ∉ storedCs st.proofs := by
    simp [freshProofs, unreplaced, hdel]
  have habsent : Absent st event.proofs := by
    rcases hcases with habsent | hpresent
    · exact habsent
    · refine absurd (hheld.trans (List.filter_eq_nil_iff.mpr fun p hp => ?_)) hfresh
      have := (hpresent p.c (List.mem_map_of_mem hp)).1
      simpa using List.count_pos_iff.mp (by omega)
  have hall : (event.proofs.filter fun p => p.c ∉ storedCs st.proofs) = event.proofs :=
    List.filter_eq_self.mpr fun p hp => by
      simpa using List.count_eq_zero.mp (habsent p.c (List.mem_map_of_mem hp)).1
  have hsome : event.proofs ≠ [] := by
    rw [hheld, hall] at hfresh
    exact hfresh
  have hlive : (st.ledger.isTokenLive event.id || st.ledger.isTokenTombstoned event.id) = false := by
    simpa [alreadyKnown, hdel] using hunknown
  let credited := (st.applyFact (.tokenAdded event.id (canonicalizeMintUrl event.mint)
    sat (proofAtoms event.proofs))).addProofs (some event.id) (canonicalizeMintUrl event.mint)
      event.proofs
  have hstate : ingestTokenEvent st event = (credited, true) := by
    simp only [ingestTokenEvent, hdel, List.foldl_nil, hlive, hall, Bool.false_eq_true, if_false,
      if_neg hsome, credited]
  refine ⟨habsent, hsome, credited, ?_, credit_present hnodup habsent rfl rfl, rfl, rfl, rfl, rfl⟩
  simp only [ingestToken, hstate]

/-- The invariant of the attempts: what the saga and the log hold, what the jobs carry, and
whether the issued proofs are credited. -/
structure Inv (account op quote : String) (t : Attempts) : Prop where
  state : StateOk account op quote t.issued t.folded t.world.state
  jobs : ∀ row ∈ t.world.jobs, JobOk account op quote t.issued t.world.state row.2
  relay : ∀ event ∈ t.world.relay, EventOk t.issued event
  unissued : t.issued = none → t.folded = false ∧ t.credited = false
  money : ∀ proofs, t.issued = some proofs → (proofCs proofs).Nodup ∧
    (Absent t.world.state proofs ∨ Present t.world.state proofs) ∧
    (t.credited = true → Present t.world.state proofs ∧ proofs ≠ []) ∧
    (t.credited = false → t.folded = false → Absent t.world.state proofs)

variable {t : Attempts}

theorem absent_congr (hproofs : st'.proofs = st.proofs) (hledger : st'.ledger = st.ledger) :
    Absent st' proofs ↔ Absent st proofs := by
  simp only [Absent, hproofs, hledger]

theorem present_congr (hproofs : st'.proofs = st.proofs) (hledger : st'.ledger = st.ledger) :
    Present st' proofs ↔ Present st proofs := by
  simp only [Present, hproofs, hledger]

/-- A quiet section keeps the invariant, whatever job it came from. -/
theorem Inv.quiet (h : Inv account op quote t) (hjobs : ∀ row ∈ jobs, row ∈ t.world.jobs)
    {out : Outcome} (hquiet : Quiet account op quote t.issued t.folded t.world.state out)
    (tag : String) :
    Inv account op quote { t with world := { t.world with jobs := jobs }.after tag out } where
  state := hquiet.state
  jobs row hrow := by
    rcases List.mem_append.mp hrow with hold | hnew
    · exact jobOk_congr (h.jobs row (hjobs row hold)) hquiet.session
    · obtain ⟨job, hjob, rfl⟩ := List.mem_map.mp hnew
      exact hquiet.jobs job hjob
  relay event hevent := (List.mem_append.mp hevent).elim (h.relay event) (hquiet.published event)
  unissued := h.unissued
  money proofs hissued := by
    have hmoney := h.money proofs hissued
    simp only [World.after, absent_congr hquiet.proofs hquiet.ledger,
      present_congr hquiet.proofs hquiet.ledger]
    exact hmoney

/-- The fold of an attempt whose lease still holds. -/
theorem Inv.fold (h : Inv account op quote t) (hissued : t.issued = some proofs) {lease : Nat}
    (hlease : holdsLease t.world.state quote lease = true) (hcredited : t.credited = false)
    (hsession : t.world.state.walAccount = some account) (hjobs : ∀ row ∈ jobs, row ∈ t.world.jobs)
    (mint eventId tag : String) :
    t.folded = false ∧ Inv account op quote
      { t with
        folded := true
        world := { t.world with jobs := jobs }.after tag
          (depositSigning t.world.state op quote mint proofs lease (.signed eventId)) } := by
  have hlookup : (t.world.state.pendingDeposits.lookup quote).bind (fun p => p.chainStartedAt) =
      some lease := by simpa [holdsLease] using hlease
  obtain ⟨p, hp, hleased⟩ := Option.bind_eq_some_iff.mp hlookup
  have hok := (h.state.pending quote p hp).2.2
  have hunfolded : t.folded = false := by
    rw [← hok.folded, hok.leased (by simp [hleased])]
    rfl
  refine ⟨hunfolded, ?_⟩
  let signed : TokenEvent := ⟨eventId, mint, proofs, []⟩
  let credited := (t.world.state.addProofs (some eventId) (canonicalizeMintUrl mint)
    proofs).applyFact (.tokenAdded eventId (canonicalizeMintUrl mint) sat (proofAtoms proofs))
  have hsigned : EventOk t.issued signed := ⟨hissued, rfl⟩
  have hcreditedOk : StateOk account op quote t.issued t.folded credited :=
    h.state.congr rfl rfl rfl rfl
  have hadvanced := hcreditedOk.advance op .publishPending fun _ => rfl
  have hstate : (depositSigning t.world.state op quote mint proofs lease
      (.signed eventId)).state = (((credited.advance op .publishPending).editDeposit quote fun p =>
        { p with signedToken := some signed, chainStartedAt := none }).persistDepositPayload
          quote) := by
    simp [depositSigning, foldDeposit, hlookup, credited, signed]
  have hpresent : (credited.advance op .publishPending).pendingDeposits.lookup quote ≠ none := by
    have hsame : credited.pendingDeposits = t.world.state.pendingDeposits := rfl
    simp [hsame, hp]
  have haccount : (credited.advance op .publishPending).walAccount = some account := by
    have hsame : credited.walAccount = t.world.state.walAccount := rfl
    simp [hsame, hsession]
  have hmarked : ∀ p, PendingOk op t.issued t.folded p → PendingOk op t.issued true
      { p with signedToken := some signed, chainStartedAt := none } := fun p hp =>
    ⟨hp.operation, hp.minted, fun event hevent => Option.some.inj hevent ▸ hsigned, rfl,
      fun hleased => absurd rfl hleased⟩
  have hnext := hadvanced.persist haccount hmarked hpresent (by simp)
  have hproofs : (depositSigning t.world.state op quote mint proofs lease
      (.signed eventId)).state.proofs = t.world.state.proofs ++
        attach (some eventId) (canonicalizeMintUrl mint) proofs := by
    rw [hstate]
    simp [credited, CashuWalletState.addProofs, CashuWalletState.applyFact]
  have hledger : (depositSigning t.world.state op quote mint proofs lease
      (.signed eventId)).state.ledger = t.world.state.ledger.apply
        (.tokenAdded eventId (canonicalizeMintUrl mint) sat (proofAtoms proofs)) := by
    rw [hstate]
    simp [credited, CashuWalletState.addProofs, CashuWalletState.applyFact]
  obtain ⟨hnodup, -, -, habsent⟩ := h.money proofs hissued
  have hnow := credit_present hnodup (habsent hcredited hunfolded) hproofs hledger
  refine ⟨by rw [World.after, hstate]; exact hnext, fun row hrow => ?_, fun event hevent => ?_,
    fun hnone => by simp [hissued] at hnone, fun other hother => ?_⟩
  · have hempty : (depositSigning t.world.state op quote mint proofs lease
        (.signed eventId)).jobs = [] := rfl
    simp only [World.after, hempty, List.map_nil, List.append_nil] at hrow ⊢
    refine jobOk_congr (h.jobs row (hjobs row hrow)) fun _ => ?_
    rw [hstate]
    simpa using haccount
  · rcases List.mem_append.mp hevent with hold | hnew
    · exact h.relay event hold
    · obtain rfl := List.mem_singleton.mp hnew
      exact hsigned
  · obtain rfl : proofs = other := Option.eq_some_unique hissued hother
    exact ⟨hnodup, .inr hnow, fun htrue => by simp [hcredited] at htrue,
      fun _ hfalse => by simp at hfalse⟩

/-- The mint issues the proofs: they are written where none were. -/
theorem Inv.issue (h : Inv account op quote t) (hunissued : t.issued = none)
    (hnodup : (proofCs proofs).Nodup)
    (hfresh : ∀ c ∈ proofCs proofs, c ∉ storedCs t.world.state.proofs ∧ liveCount t.world.state.ledger c = 0)
    (hsession : t.world.state.walAccount = some account) (hjobs : ∀ row ∈ jobs, row ∈ t.world.jobs)
    (mint : String) (lease : Nat) (tag : String) :
    Inv account op quote
      { t with
        issued := some proofs
        world := { t.world with jobs := jobs }.after tag
          (depositMint t.world.state op quote mint lease (.quotePaid (some proofs))) } := by
  obtain ⟨hunfolded, huncredited⟩ := h.unissued hunissued
  have hold := h.state
  rw [hunissued, hunfolded] at hold
  have hrecorded : ∀ p, PendingOk op none false p → PendingOk op (some proofs) false
      { p with mintedProofs := p.mintedProofs <|> some proofs } := fun p hp =>
    ⟨hp.operation, by simp [hp.minted], fun event hevent => by
      have hsome : p.signedToken = some event := hevent
      have hunsigned := hp.folded
      simp [hsome] at hunsigned, hp.folded, hp.leased⟩
  have hnext := hold.persist hsession hrecorded (hold.kept rfl hsession) id
  have hmoney : (depositMint t.world.state op quote mint lease
      (.quotePaid (some proofs))).state.proofs = t.world.state.proofs ∧
      (depositMint t.world.state op quote mint lease
        (.quotePaid (some proofs))).state.ledger = t.world.state.ledger := by
    simp [depositMint, Outcome.stay]
  have haccount : (depositMint t.world.state op quote mint lease
      (.quotePaid (some proofs))).state.walAccount = some account := by
    simpa [depositMint, Outcome.stay] using hsession
  refine ⟨by rw [hunfolded]; exact hnext, fun row hrow => ?_, fun event hevent => ?_,
    fun hnone => by simp at hnone, fun other hother => ?_⟩
  · rcases List.mem_append.mp hrow with hkept | hnew
    · have hok := h.jobs row (hjobs row hkept)
      rw [hunissued] at hok
      exact jobOk_congr (jobOk_issued hok) fun _ => haccount
    · obtain ⟨job, hjob, rfl⟩ := List.mem_map.mp hnew
      obtain rfl := List.mem_singleton.mp hjob
      exact ⟨rfl, rfl, rfl, haccount⟩
  · have hrelay : event ∈ t.world.relay := by
      simpa [World.after, depositMint, Outcome.stay] using hevent
    have := (h.relay event hrelay).1
    simp [hunissued] at this
  · obtain rfl := Option.some.inj hother
    have habsent : Absent t.world.state proofs := fun c hc =>
      ⟨List.count_eq_zero.mpr (hfresh c hc).1, (hfresh c hc).2⟩
    have hstill := (absent_congr hmoney.1 hmoney.2).mpr habsent
    exact ⟨hnodup, .inl hstill, fun htrue => by simp [huncredited] at htrue, fun _ _ => hstill⟩

/-- An event of the deposit is ingested while its proofs are absent. -/
theorem Inv.credit (h : Inv account op quote t) (hevent : EventOk t.issued event)
    (hunknown : alreadyKnown t.world.state event = false)
    (hfresh : freshProofs t.world.state event ≠ []) (hjobs : ∀ row ∈ jobs, row ∈ t.world.jobs)
    (tag : String) :
    Inv account op quote
      { t with
        credited := true
        world := { t.world with jobs := jobs }.after tag (ingestToken t.world.state event) } := by
  obtain ⟨hissued, hdel⟩ := hevent
  obtain ⟨hnodup, hcases, -, -⟩ := h.money event.proofs hissued
  obtain ⟨-, hsome, credited, hout, hnow, hlog, haccount, hjournal, hpending⟩ :=
    ingestToken_credits hdel hunknown hfresh hnodup hcases
  rw [hout]
  refine ⟨h.state.congr hlog haccount hjournal hpending, fun row hrow => ?_,
    fun other hother => ?_, fun hnone => ?_, fun other hother => ?_⟩
  · rcases List.mem_append.mp hrow with hkept | hnew
    · exact jobOk_congr (h.jobs row (hjobs row hkept)) haccount.trans
    · obtain ⟨job, hjob, rfl⟩ := List.mem_map.mp hnew
      obtain rfl := List.mem_singleton.mp hjob
      trivial
  · exact h.relay other (by simpa [World.after, Outcome.stay] using hother)
  · rw [hissued] at hnone
    cases hnone
  · obtain rfl : event.proofs = other := Option.eq_some_unique hissued hother
    exact ⟨hnodup, .inr hnow, fun _ => ⟨hnow, hsome⟩, fun hfalse => by simp at hfalse⟩

theorem attempt_plain {act : Act} (hissued : issuedBy t.world act = none)
    (hfolds : folds t.world act = false) (hcredits : credits t.world act = false)
    (hrestarts : restarts act = false) :
    attempt t act = { t with world := step t.world act } := by
  simp [attempt, hissued, hfolds, hcredits, hrestarts]

section

variable (h : Inv account op quote t)
include h

/-- Resuming a job of the deposit: quiet, the issue, the fold or the credit of an event. -/
theorem Inv.resume {tag : String} {job : Job} {now : Nat} (hjob : (tag, job) ∈ t.world.jobs)
    (hkind : isDepositJob job = true) (honce : IssuesOnce t (.resume tag job answer now))
    (hok : FoldUncredited t (.resume tag job answer now)) :
    Inv account op quote (attempt t (.resume tag job answer now)) := by
  have hjobOk := h.jobs _ hjob
  have hstep : step t.world (.resume tag job answer now) =
      { t.world with jobs := t.world.jobs.erase (tag, job) }.after tag
        (resumeJob t.world.state answer now job) := if_pos hjob
  have herase : ∀ row ∈ t.world.jobs.erase (tag, job), row ∈ t.world.jobs :=
    fun row => List.mem_of_mem_erase
  have hquiet : Quiet account op quote t.issued t.folded t.world.state
        (resumeJob t.world.state answer now job) →
      issuedBy t.world (.resume tag job answer now) = none →
      folds t.world (.resume tag job answer now) = false →
      credits t.world (.resume tag job answer now) = false →
      Inv account op quote (attempt t (.resume tag job answer now)) := by
    intro hq hissued hfolds hcredits
    rw [attempt_plain hissued hfolds hcredits rfl, hstep]
    exact h.quiet herase hq tag
  cases job with
  | depositComplete _ _ mint amount =>
    obtain ⟨rfl, rfl, hsession⟩ := hjobOk
    exact hquiet (quiet_depositComplete h.state hsession mint amount now) rfl rfl rfl
  | depositStillHeld quote' =>
    exact hquiet (quiet_depositStillHeld h.state hjobOk quote') rfl rfl rfl
  | depositMint op' quote' mint amount lease =>
    obtain ⟨rfl, rfl, hsession⟩ := hjobOk
    by_cases hanswer : ∃ proofs, answer = .quotePaid (some proofs)
    · obtain ⟨proofs, rfl⟩ := hanswer
      have hissues : issuedBy t.world (.resume tag (.depositMint op' quote' mint amount lease)
          (.quotePaid (some proofs)) now) = some proofs := if_pos hjob
      obtain ⟨hunissued, hnodup, hfresh⟩ := honce proofs hissues
      have hattempt : attempt t (.resume tag (.depositMint op' quote' mint amount lease)
          (.quotePaid (some proofs)) now) = { t with
            issued := some proofs
            world := step t.world (.resume tag (.depositMint op' quote' mint amount lease)
              (.quotePaid (some proofs)) now) } := by
        simp [attempt, hissues, hunissued, folds, credits, restarts]
      rw [hattempt, hstep]
      exact h.issue hunissued hnodup hfresh hsession herase mint lease tag
    · have hother : ∀ proofs, answer ≠ .quotePaid (some proofs) := fun proofs heq =>
        hanswer ⟨proofs, heq⟩
      refine hquiet (quiet_depositMint h.state mint lease hother) ?_ rfl rfl
      cases answer with
      | quotePaid minted =>
        cases minted with
        | none => exact ite_self _
        | some proofs => exact absurd rfl (hother proofs)
      | _ => rfl
  | depositSigning op' quote' mint proofs lease =>
    obtain ⟨rfl, rfl, hissued, hsession⟩ := hjobOk
    cases hfolds : folds t.world (.resume tag (.depositSigning op' quote' mint proofs lease)
        answer now) with
    | false =>
      refine hquiet (quiet_depositSigning h.state hissued mint fun eventId heq => ?_) rfl hfolds rfl
      subst heq
      simpa [folds, hjob] using hfolds
    | true =>
      have hcredited := hok hfolds
      cases answer with
      | signed eventId =>
        have hlease : holdsLease t.world.state quote' lease = true := by
          simpa [folds, hjob] using hfolds
        obtain ⟨hunfolded, hnext⟩ := h.fold hissued hlease hcredited hsession herase mint
          eventId tag
        have hattempt : attempt t (.resume tag (.depositSigning op' quote' mint proofs lease)
            (.signed eventId) now) = { t with
              folded := true
              world := step t.world (.resume tag (.depositSigning op' quote' mint proofs lease)
                (.signed eventId) now) } := by
          simp [attempt, hfolds, hcredited, issuedBy, credits, restarts]
        rw [hattempt, hstep]
        exact hnext
      | _ => cases hfolds
  | depositResume _ _ mint =>
    obtain ⟨rfl, rfl, hsession⟩ := hjobOk
    exact hquiet (quiet_depositResume h.state hsession mint now) rfl rfl rfl
  | markUncertain op' => exact hquiet (quiet_markUncertain h.state op') rfl rfl rfl
  | ingestToken event =>
    cases hcredits : credits t.world (.resume tag (.ingestToken event) answer now) with
    | false =>
      refine hquiet (quiet_ingestToken h.state hjobOk ?_) rfl rfl hcredits
      have hskip : alreadyKnown t.world.state event = true ∨
          (freshProofs t.world.state event).isEmpty = true := by
        simpa [credits, hjob, Bool.or_eq_true, ← imp_iff_not_or, imp_iff_or_not, or_comm]
          using hcredits
      exact hskip.imp_right List.isEmpty_iff.mp
    | true =>
      have hboth : alreadyKnown t.world.state event = false ∧
          freshProofs t.world.state event ≠ [] := by
        simpa [credits, hjob] using hcredits
      have hattempt : attempt t (.resume tag (.ingestToken event) answer now) = { t with
          credited := true
          world := step t.world (.resume tag (.ingestToken event) answer now) } := by
        simp [attempt, hcredits, issuedBy, folds, restarts]
      rw [hattempt, hstep]
      exact h.credit hjobOk hboth.1 hboth.2 herase tag
  | _ => cases hkind

theorem Inv.step {act : Act} (hdom : DepositAct account quote t act) (hok : FoldUncredited t act) :
    Inv account op quote (attempt t act) := by
  obtain ⟨honce, hact⟩ := hdom
  cases act with
  | startComplete tag quote' =>
    obtain rfl : quote' = quote := by simpa [isDepositAct] using hact
    rw [attempt_plain rfl rfl rfl rfl]
    exact h.quiet (fun row hrow => hrow) (quiet_startComplete h.state) tag
  | resume tag job answer now =>
    by_cases hjob : (tag, job) ∈ t.world.jobs
    · exact h.resume hjob hact honce hok
    · have hidle : attempt t (.resume tag job answer now) = t := by
        have hworld : WalletSystem.step t.world (.resume tag job answer now) = t.world :=
          if_neg hjob
        have hissued : issuedBy t.world (.resume tag job answer now) = none := by
          simp only [issuedBy]
          split
          · exact if_neg hjob
          · rfl
        have hfolds : folds t.world (.resume tag job answer now) = false := by
          simp only [folds]
          split
          · simp [hjob]
          · rfl
        have hcredits : credits t.world (.resume tag job answer now) = false := by
          cases job <;> simp [credits, hjob]
        rw [attempt_plain hissued hfolds hcredits rfl, hworld]
      rwa [hidle]
  | observe tag event =>
    rw [attempt_plain rfl rfl rfl rfl]
    have hrelay : event ∈ t.world.relay := by simpa [isDepositAct] using hact
    exact h.quiet (fun row hrow => hrow) (quiet_observe h.state (h.relay event hrelay)) tag
  | restore account' =>
    obtain rfl : account' = account := by simpa [isDepositAct] using hact
    rw [attempt_plain rfl rfl rfl rfl]
    exact h.quiet (fun row hrow => hrow) (quiet_restore h.state).1 account'
  | crash =>
    have hattempt : attempt t .crash = { t with
        credited := false
        world := { t.world with state := .new t.world.state.walStore, jobs := [] } } := by
      simp [attempt, issuedBy, folds, restarts, WalletSystem.step]
    rw [hattempt]
    refine ⟨h.state.crash, fun row hrow => (List.not_mem_nil hrow).elim, h.relay,
      fun hnone => ⟨(h.unissued hnone).1, rfl⟩, fun proofs hissued => ?_⟩
    have habsent : Absent (.new t.world.state.walStore) proofs := fun c _ => ⟨rfl, rfl⟩
    exact ⟨(h.money proofs hissued).1, .inl habsent, fun hfalse => by simp at hfalse,
      fun _ _ => habsent⟩
  | _ => cases hact

theorem Inv.creditedOnce : CreditedOnce t := by
  intro proofs hissued c hc
  rcases (h.money proofs hissued).2.1 with habsent | hpresent
  · have := habsent c hc
    omega
  · have := hpresent c hc
    omega

theorem Inv.retained : Retained account op quote t := by
  intro proofs hissued hunfolded
  have hstate := h.state
  rw [hissued, hunfolded] at hstate
  obtain ⟨store, hstore, hlog⟩ := hstate.saga.log
  constructor
  · obtain ⟨payload, hpayload⟩ := Option.ne_none_iff_exists'.mp (hlog.kept rfl).2
    obtain ⟨-, mint, amount, signed, rfl, hunsigned, -⟩ := hlog.payloads _ _ hpayload
    have hnone : signed = none := by simpa using hunsigned
    exact ⟨store, mint, amount, hstore, hnone ▸ hpayload⟩
  · intro hsession
    obtain ⟨p, hp⟩ := Option.ne_none_iff_exists'.mp (hstate.kept rfl hsession)
    exact ⟨p, hp, (hstate.pending quote p hp).2.2.minted⟩

/-- A fold after an event of the deposit was credited holds each proof twice. -/
theorem Inv.fold_needs {act : Act} (hdom : DepositAct account quote t act)
    (hgood : CreditedOnce (attempt t act)) : FoldUncredited t act := by
  intro hfolds
  cases act with
  | resume tag job answer now =>
    cases job with
    | depositSigning op' quote' mint proofs lease =>
      cases answer with
      | signed eventId =>
        obtain ⟨hjob, hlease⟩ : (tag, Job.depositSigning op' quote' mint proofs lease) ∈
            t.world.jobs ∧ holdsLease t.world.state quote' lease = true := by
          simpa [folds] using hfolds
        obtain ⟨rfl, rfl, hissued, -⟩ := h.jobs _ hjob
        by_contra hcredited
        obtain ⟨hpresent, hsome⟩ := (h.money proofs hissued).2.2.1 (by simpa using hcredited)
        obtain ⟨p, hp⟩ := List.exists_mem_of_ne_nil _ hsome
        have hc : p.c ∈ proofCs proofs := List.mem_map_of_mem hp
        have hstep : (attempt t (.resume tag (.depositSigning op' quote' mint proofs lease)
            (.signed eventId) now)).world.state =
            (depositSigning t.world.state op' quote' mint proofs lease (.signed eventId)).state :=
          congrArg World.state (if_pos hjob)
        have hnext : (attempt t (.resume tag (.depositSigning op' quote' mint proofs lease)
            (.signed eventId) now)).issued = some proofs := by
          simp [attempt, hissued]
        have htwice := (hgood proofs hnext p.c hc).1
        have heffect := (applies_depositSigning t.world.state op' quote' mint proofs lease
          (.signed eventId)).1
        rw [hstep, heffect] at htwice
        simp only [effect, hlease, if_true, Effect.added, List.filter_true, storedCs_append,
          storedCs_attach, List.count_append] at htwice
        have hone := (hpresent p.c hc).1
        have hmore := List.count_pos_iff.mpr hc
        omega
      | _ => cases hfolds
    | _ => cases hfolds
  | _ => cases hfolds

end

end

/-- A wallet whose deposit quote has just been answered, with what it held before. -/
def quoted (account op quote mint : String) (amount now : Nat) (held : List StoredProof)
    (ledger : WalletDerivedState) : Attempts :=
  let row : WalletOperation :=
    { WalletOperation.new op .depositCashu .mintSettled with recordedAt := some now }
  let store : WalletWalStore :=
    (WalletWalStore.empty.upsertOperation account row).upsertPayload account op
      (.deposit quote mint amount none none)
  { world :=
      { state :=
          { CashuWalletState.new (some store) with
            proofs := held
            journal := [row]
            ledger := ledger
            pendingDeposits :=
              (∅ : Table String PendingDeposit).insert quote ⟨op, mint, amount, none, none, none⟩
            walAccount := some account }
        jobs := []
        relay := [] }
    issued := none
    folded := false
    credited := false }

theorem quoted_inv (account op quote mint : String) (amount now : Nat) (held : List StoredProof)
    (ledger : WalletDerivedState) :
    Inv account op quote (quoted account op quote mint amount now held ledger) where
  state := by
    refine ⟨?_, fun key p hp => ?_, fun _ _ => ?_⟩
    · exact SagaOk.first ⟨rfl, rfl⟩ rfl ⟨mint, amount, none, rfl, rfl, fun _ h => by cases h⟩
        rfl rfl rfl
    · simp only [quoted, lookup_insert_eq] at hp
      split at hp
      next hkey =>
        obtain rfl := Option.some.inj hp
        exact ⟨hkey, rfl, rfl, rfl, (fun event hevent => by cases hevent), rfl,
          fun hleased => absurd rfl hleased⟩
      · cases hp
    · simp only [quoted, lookup_insert_eq, if_true]
      exact Option.some_ne_none _
  jobs row hrow := by cases hrow
  relay event hevent := by cases hevent
  unissued _ := ⟨rfl, rfl⟩
  money proofs hissued := by cases hissued

/-- Over all interleavings of the attempts: the minted proofs are never lost before they are
folded, and they are credited once throughout exactly when no fold passes the fence after an
event of the deposit has been ingested and credited. -/
theorem deposit_credited_once_iff (account op quote mint : String) (amount now : Nat)
    (held : List StoredProof) (ledger : WalletDerivedState) (acts : List Act)
    (hdom : Meets attempt (DepositAct account quote)
      (quoted account op quote mint amount now held ledger) acts) :
    (∀ xs, xs <+: acts →
      CreditedOnce (run attempt (quoted account op quote mint amount now held ledger) xs) ∧
      Retained account op quote
        (run attempt (quoted account op quote mint amount now held ledger) xs)) ↔
    Meets attempt FoldUncredited (quoted account op quote mint amount now held ledger) acts :=
  always_iff_meets (Inv account op quote)
    (fun t => CreditedOnce t ∧ Retained account op quote t)
    (fun _ _ h hact hok => h.step hact hok) (fun _ h => ⟨h.creditedOnce, h.retained⟩)
    (fun _ _ h hact hgood => h.fold_needs hact hgood.1)
    (quoted_inv account op quote mint amount now held ledger) hdom

/-- The lease of the first attempt expires under a slow signer, the second takes over; the first
attempt's published event comes back before the second signs. -/
def overtaken : List Act :=
  let proofs : List Proof := [⟨4, "k", "s", "P"⟩]
  [.startComplete "a" "q", .resume "a" (.depositComplete "d" "q" "https://m" 4) .none 0,
    .resume "a" (.depositMint "d" "q" "https://m" 4 0) (.quotePaid (some proofs)) 0,
    .startComplete "a" "q", .resume "a" (.depositComplete "d" "q" "https://m" 4) .none 60,
    .resume "a" (.depositSigning "d" "q" "https://m" proofs 0) (.signed "1") 0,
    .observe "a" ⟨"1", "https://m", proofs, []⟩,
    .resume "a" (.ingestToken ⟨"1", "https://m", proofs, []⟩) .none 0,
    .resume "a" (.depositSigning "d" "q" "https://m" proofs 60) (.signed "2") 0]

theorem deposit_credited_once_iff_overtaken :
    (∀ xs, xs <+: overtaken → CreditedOnce (run attempt
        (quoted "a" "d" "q" "https://m" 4 0 [] .empty) xs) ∧
      Retained "a" "d" "q" (run attempt (quoted "a" "d" "q" "https://m" 4 0 [] .empty) xs)) ↔
    Meets attempt FoldUncredited (quoted "a" "d" "q" "https://m" 4 0 [] .empty) overtaken :=
  deposit_credited_once_iff "a" "d" "q" "https://m" 4 0 [] .empty overtaken (by decide +kernel)

theorem deposit_credited_twice :
    ¬ ∀ acts, Meets attempt (DepositAct "a" "q")
        (quoted "a" "d" "q" "https://m" 4 0 [] .empty) acts →
      ∀ xs, xs <+: acts → CreditedOnce (run attempt
        (quoted "a" "d" "q" "https://m" 4 0 [] .empty) xs) := by
  intro h
  have hall := h overtaken (by decide +kernel) overtaken (List.prefix_refl _)
    [⟨4, "k", "s", "P"⟩] (by decide +kernel) "P" (by decide)
  exact absurd hall.1 (by decide +kernel)

end WalletDepositOnce
