import NostrMultiPlatform.WalletSystem

/-!
# What a critical section does to money

The inventory after a section is what it keeps of the old one followed by what
it adds, and the ledger records spent what it probes. The table below says all
three for every job; a section that is not listed does none of them.
-/
namespace WalletEffect

open Runs Tables WalletProof WalletJournal WalletLedger WalletState WalletJobs WalletSend Outcome
open WalletDerivedState
  WalletRedeem WalletCrossMint WalletDeposit WalletIngest WalletLifecycle WalletSystem

structure Effect where
  keeps : StoredProof → Bool
  adds : List StoredProof
  probes : List String

def Effect.none : Effect := ⟨fun _ => true, [], []⟩

def Effect.added (adds : List StoredProof) : Effect := ⟨fun _ => true, adds, []⟩

/-- Reserved proofs as they are put back. -/
def putBack (mint : String) (selected : List StoredProof) : List StoredProof :=
  selected.map fun s => ⟨s.tokenEvent, canonicalizeMintUrl mint, s.proof⟩

variable (st : CashuWalletState) (event : TokenEvent) (op quote mint : String) (change : List Proof)
  (selected : List StoredProof)

@[simp] theorem storedCs_putBack : storedCs (putBack mint selected) = storedCs selected := by
  simp [storedCs, putBack, Function.comp_def]

def reserveEffect (st : CashuWalletState) (op mint : String) (selected : List StoredProof) :
    Effect :=
  if (reserveInputs st op mint selected).2 then
    ⟨fun s => s.proof.c ∉ storedCs selected, [], []⟩
  else .none

/-- The keyset answer leaves enough for the fee, so the swap goes ahead. -/
def coversFee (amount total : Nat) (selected : List StoredProof) : Answer → Bool
  | .feePpk inputFeePpk => computeFee selected.length inputFeePpk ≤ total - amount
  | _ => false

/-- The lease of the attempt is still the one recorded. -/
def holdsLease (st : CashuWalletState) (quote : String) (lease : Nat) : Bool :=
  (st.pendingDeposits.lookup quote).bind (fun p => p.chainStartedAt) = some lease

/-- The inventory once the events a token event replaces are gone. -/
def unreplaced (st : CashuWalletState) (event : TokenEvent) : List StoredProof :=
  st.proofs.filter fun s => s.tokenEvent ∉ event.del.map some

/-- The event is skipped: it is live, was deleted, or replaces itself. -/
def alreadyKnown (st : CashuWalletState) (event : TokenEvent) : Bool :=
  (st.ledger.isTokenLive event.id && event.id ∉ event.del) ||
    st.ledger.isTokenTombstoned event.id || event.id ∈ event.del

def freshProofs (st : CashuWalletState) (event : TokenEvent) : List Proof :=
  event.proofs.filter fun p => p.c ∉ storedCs (unreplaced st event)

def ingestEffect (st : CashuWalletState) (event : TokenEvent) : Effect :=
  ⟨fun s => s.tokenEvent ∉ event.del.map some,
    if alreadyKnown st event then []
    else attach (some event.id) (canonicalizeMintUrl event.mint) (freshProofs st event), []⟩

def effect (st : CashuWalletState) (answer : Answer) : Job → Effect
  | .sendSelected op _ mint selected _ => reserveEffect st op mint selected
  | .sendKeyset _ amount mint selected total =>
    if coversFee amount total selected answer then .none else .added (putBack mint selected)
  | .sendSigning _ mint selected swapped =>
    match answer with
    | .signed _ =>
      ⟨fun _ => true, attach Option.none (canonicalizeMintUrl mint) (SwappedSend.change swapped),
        storedCs selected⟩
    | _ => .none
  | .redeemHistorySigning _ nutzap fresh tokenEventId =>
    match answer with
    | .signed _ => .added (attach (some tokenEventId) (canonicalizeMintUrl nutzap.mintUrl) fresh)
    | _ => .none
  | .crossSelected op _ _ source _ _ _ selected _ => reserveEffect st op source selected
  | .crossMelt _ _ source _ selected _ =>
    match answer with
    | .melt .paid change => ⟨fun _ => true, attach Option.none source change, storedCs selected⟩
    | _ => .none
  | .crossSigning _ _ target proofs _ _ _ =>
    match answer with
    | .signed eventId => .added (attach (some eventId) (canonicalizeMintUrl target) proofs)
    | _ => .none
  | .crossStatus _ pending =>
    match answer with
    | .meltState .paid => .none
    | .meltState _ => .added (putBack pending.sourceMint pending.sourceSelected)
    | _ => .none
  | .depositSigning _ quote mint proofs lease =>
    match answer with
    | .signed eventId =>
      if holdsLease st quote lease then
        .added (attach (some eventId) (canonicalizeMintUrl mint) proofs)
      else .none
    | _ => .none
  | .ingestToken event => ingestEffect st event
  | .checkMints _ ((_, proofs) :: _) =>
    match answer with
    | .spendStates states =>
      if states.length ≠ proofs.length then .none
      else
        ⟨fun s => s.proof.c ∉ storedCs (spentOf proofs states), [],
          storedCs (spentOf proofs states)⟩
    | _ => .none
  | _ => .none

/-- The two states differ by the effect. -/
def Applies (e : Effect) (st st' : CashuWalletState) : Prop :=
  st'.proofs = st.proofs.filter e.keeps ++ e.adds ∧
    ∀ c, st'.ledger.isSpent c = true ↔ st.ledger.isSpent c = true ∨ c ∈ e.probes

theorem Applies.refl_of {st st' : CashuWalletState} (hproofs : st'.proofs = st.proofs)
    (hledger : st'.ledger = st.ledger) : Applies .none st st' :=
  ⟨by simp [hproofs, Effect.none], by simp [hledger, Effect.none]⟩

theorem applies_added {st st' : CashuWalletState} {adds : List StoredProof}
    (hproofs : st'.proofs = st.proofs ++ adds)
    (hspent : ∀ c, st'.ledger.isSpent c = st.ledger.isSpent c) : Applies (.added adds) st st' :=
  ⟨by simp [hproofs, Effect.added], by simp [hspent, Effect.added]⟩

theorem recordInputs_frame :
    (recordInputs st op mint selected).proofs = st.proofs ∧
      (recordInputs st op mint selected).ledger = st.ledger ∧
      (recordInputs st op mint selected).mints = st.mints ∧
      (recordInputs st op mint selected).pendingDeposits = st.pendingDeposits ∧
      (recordInputs st op mint selected).pendingCrossMintTransfers =
        st.pendingCrossMintTransfers ∧
      (recordInputs st op mint selected).walAccount = st.walAccount := by
  induction selected generalizing st with
  | nil => simp [recordInputs]
  | cons s rest ih =>
    have hstep : recordInputs st op mint (s :: rest) = recordInputs
        (st.recordConsumedInput op ⟨s.tokenEvent.getD "", mint, sat, s.proof.amount⟩) op mint rest :=
      rfl
    rw [hstep]
    simpa using ih (st.recordConsumedInput op ⟨s.tokenEvent.getD "", mint, sat, s.proof.amount⟩)

/-- A reservation takes the selected names out, or leaves the inventory as it is. -/
theorem applies_reserve :
    Applies (reserveEffect st op mint selected) st (reserveInputs st op mint selected).1 := by
  have hrecord := recordInputs_frame st op mint selected
  unfold reserveEffect reserveInputs
  split
  · exact .refl_of hrecord.1 hrecord.2.1
  next st' h =>
    have hframe := CashuWalletState.transition_frame h
    refine ⟨?_, fun c => ?_⟩
    · simp [CashuWalletState.removeProofs, WalletProof.removeProofs, hframe.1, hrecord.1]
    · simp [CashuWalletState.removeProofs, hframe.2.1, hrecord.2.1]

theorem creditChange_proofs :
    (creditChange st op mint change).proofs = st.proofs ++ attach none mint change := by
  unfold creditChange
  split <;> simp [CashuWalletState.addProofs, CashuWalletState.applyFact]

theorem creditChange_journal : (creditChange st op mint change).journal = st.journal := by
  unfold creditChange
  split <;> rfl

theorem creditChange_isSpent (c : String) :
    (creditChange st op mint change).ledger.isSpent c = st.ledger.isSpent c := by
  unfold creditChange
  split
  · rfl
  · simp [CashuWalletState.addProofs, CashuWalletState.applyFact, isSpent_apply]

theorem foldl_tombstone (by_ : String) (st : CashuWalletState) (del : List String) :
    (del.foldl (tombstone by_) st).proofs =
        st.proofs.filter (fun s => s.tokenEvent ∉ del.map some) ∧
      (∀ c, (del.foldl (tombstone by_) st).ledger.isSpent c = st.ledger.isSpent c) ∧
      (∀ id, (del.foldl (tombstone by_) st).ledger.isTokenLive id =
        (st.ledger.isTokenLive id && decide (id ∉ del))) ∧
      ∀ id, (del.foldl (tombstone by_) st).ledger.isTokenTombstoned id =
        (st.ledger.isTokenTombstoned id || decide (id ∈ del)) := by
  induction del generalizing st with
  | nil => simp
  | cons old _ ih =>
    obtain ⟨hproofs, hspent, hlive, htomb⟩ := ih (tombstone by_ st old)
    simp only [List.foldl_cons]
    refine ⟨?_, fun c => ?_, fun id => ?_, fun id => ?_⟩
    · rw [hproofs]
      simp only [tombstone, CashuWalletState.removeProofsForTokenEvent,
        WalletProof.removeProofsForTokenEvent, CashuWalletState.applyFact, List.filter_filter]
      refine List.filter_congr fun s _ => ?_
      rw [Bool.eq_iff_iff]
      simp only [Bool.and_eq_true, decide_eq_true_eq, List.map_cons, List.mem_cons, not_or, ne_eq]
      exact and_comm
    · rw [hspent]
      simp [tombstone, CashuWalletState.removeProofsForTokenEvent, CashuWalletState.applyFact,
        isSpent_apply]
    · rw [hlive]
      by_cases hid : id = old <;>
        simp [tombstone, CashuWalletState.removeProofsForTokenEvent, CashuWalletState.applyFact,
          apply, fold,
          applyTokenTombstone, isTokenLive,
          lookup_erase_eq, hid]
    · rw [htomb]
      by_cases hid : id = old <;>
        simp [tombstone, CashuWalletState.removeProofsForTokenEvent, CashuWalletState.applyFact,
          apply, fold,
          applyTokenTombstone, isTokenTombstoned,
          lookup_insert_eq, hid]

/-- Ingestion writes the inventory and the ledger. -/
theorem ingestTokenEvent_eq :
    ∃ proofs ledger, (ingestTokenEvent st event).1 =
      { st with proofs := proofs, ledger := ledger } := by
  have hdel : ∀ (del : List String) (st : CashuWalletState), ∃ proofs ledger,
      del.foldl (tombstone event.id) st = { st with proofs := proofs, ledger := ledger } := by
    intro del
    induction del with
    | nil => exact fun st => ⟨st.proofs, st.ledger, rfl⟩
    | cons old _ ih =>
      intro st
      obtain ⟨proofs, ledger, heq⟩ := ih (tombstone event.id st old)
      exact ⟨proofs, ledger, heq⟩
  obtain ⟨proofs, ledger, heq⟩ := hdel event.del st
  simp only [ingestTokenEvent, heq]
  split
  · exact ⟨proofs, ledger, rfl⟩
  · split
    · exact ⟨proofs, ledger, rfl⟩
    · exact ⟨_, _, rfl⟩

theorem ingestToken_state : (ingestToken st event).state = (ingestTokenEvent st event).1 := by
  unfold ingestToken
  split <;> simp_all [stay]

theorem applies_ingest : Applies (ingestEffect st event) st (ingestTokenEvent st event).1 := by
  obtain ⟨hproofs, hspent, hlive, htomb⟩ := foldl_tombstone event.id st event.del
  have hknown : (((event.del.foldl (tombstone event.id) st).ledger.isTokenLive event.id ||
      (event.del.foldl (tombstone event.id) st).ledger.isTokenTombstoned event.id)) =
      alreadyKnown st event := by
    rw [hlive, htomb, alreadyKnown, Bool.or_assoc]
  have hfresh : (event.proofs.filter fun p =>
      p.c ∉ storedCs (event.del.foldl (tombstone event.id) st).proofs) = freshProofs st event := by
    rw [hproofs, freshProofs, unreplaced]
  simp only [ingestTokenEvent, hknown, hfresh]
  split
  next hk => exact ⟨by simp [ingestEffect, hproofs, hk], by simp [ingestEffect, hspent]⟩
  next hk =>
    split
    next hnone =>
      exact ⟨by simp [ingestEffect, hproofs, hnone, attach], by simp [ingestEffect, hspent]⟩
    next hsome =>
      refine ⟨?_, fun c => ?_⟩
      · simp [ingestEffect, hproofs, hk, CashuWalletState.addProofs, CashuWalletState.applyFact]
      · simp [ingestEffect, CashuWalletState.addProofs, CashuWalletState.applyFact,
          isSpent_apply, hspent]

theorem applies_sendSigning (swapped : SwappedSend) (answer : Answer) :
    Applies (effect st answer (.sendSigning op mint selected swapped)) st
      (sendSigning st op mint selected swapped answer).state := by
  cases answer with
  | signed =>
    refine ⟨?_, fun c => ?_⟩
    · simp [effect, sendSigning, foldSend, stay, creditChange_proofs,
        CashuWalletState.probeSpent]
    · simp [effect, sendSigning, foldSend, stay, creditChange_isSpent,
        CashuWalletState.probeSpent, isSpent_probeSpent]
  | _ => exact .refl_of rfl rfl

theorem applies_sendKeyset (amount : Nat) (mint : String) (selected : List StoredProof)
    (total : Nat) (answer : Answer) :
    Applies (effect st answer (.sendKeyset op amount mint selected total)) st
      (sendKeyset st op amount mint selected total answer).state := by
  have hrestore : Applies (.added (putBack mint selected)) st
      (restoreAndFail st op mint selected) :=
    applies_added (by simp [restoreAndFail, CashuWalletState.restoreProofs_eq, putBack])
      (by simp [restoreAndFail, CashuWalletState.restoreProofs_eq])
  cases answer with
  | feePpk inputFeePpk =>
    by_cases hfee : total - amount < computeFee selected.length inputFeePpk
    · simpa [effect, sendKeyset, coversFee, hfee, Nat.not_le.mpr hfee, stay] using hrestore
    · simpa [effect, sendKeyset, coversFee, hfee, Nat.not_lt.mp hfee, stay] using
        Applies.refl_of (rfl : st.proofs = _) rfl
  | _ => exact hrestore

theorem applies_redeem (nutzap : ReceivedNutZap) (fresh : List Proof) (tokenEventId : String)
    (answer : Answer) :
    Applies (effect st answer (.redeemHistorySigning op nutzap fresh tokenEventId)) st
      (redeemHistorySigning st op nutzap fresh tokenEventId answer).state := by
  cases answer with
  | signed =>
    refine applies_added ?_ fun c => ?_
    · simp [redeemHistorySigning, foldRedeem, stay, CashuWalletState.addProofs,
        CashuWalletState.applyFact]
    · simp [redeemHistorySigning, foldRedeem, stay, CashuWalletState.addProofs,
        CashuWalletState.applyFact, isSpent_apply]
  | _ => exact .refl_of rfl rfl

theorem applies_crossMelt (op quote source : String) (feeReserve : Nat)
    (selected : List StoredProof) (retry : Option Nat) (answer : Answer) :
    Applies (effect st answer (.crossMelt op quote source feeReserve selected retry)) st
      (crossMelt st op quote source feeReserve selected retry answer).state := by
  have hidle : Applies .none st (st.advance op .unknown) := .refl_of (by simp) (by simp)
  cases answer with
  | melt state =>
    cases state with
    | paid =>
      refine ⟨?_, fun c => ?_⟩
      · simp [effect, crossMelt, foldMelt, stay, creditChange_proofs,
          CashuWalletState.probeSpent]
      · simp [effect, crossMelt, foldMelt, stay, creditChange_isSpent,
          CashuWalletState.probeSpent, isSpent_probeSpent]
    | _ => exact hidle
  | _ => exact hidle

theorem applies_crossSigning (op quote target : String) (proofs : List Proof) (source : String)
    (feeSats : Nat) (retry : Option Nat) (answer : Answer) :
    Applies (effect st answer (.crossSigning op quote target proofs source feeSats retry)) st
      (crossSigning st op quote target proofs source feeSats retry answer).state := by
  cases answer with
  | signed =>
    refine applies_added ?_ fun c => ?_
    · simp [crossSigning, foldTarget, CashuWalletState.addProofs, CashuWalletState.applyFact]
    · simp [crossSigning, foldTarget, CashuWalletState.addProofs, CashuWalletState.applyFact,
        isSpent_apply]
  | _ => exact .refl_of rfl rfl

theorem applies_crossStatus (pending : PendingCrossMintTransfer) (answer : Answer) :
    Applies (effect st answer (.crossStatus quote pending)) st
      (crossStatus st quote pending answer).state := by
  have hrevert : Applies (.added (putBack pending.sourceMint pending.sourceSelected)) st
      (revertTransfer st quote pending) :=
    applies_added (by simp [revertTransfer, CashuWalletState.restoreProofs_eq, putBack])
      (by simp [revertTransfer, CashuWalletState.restoreProofs_eq])
  cases answer with
  | meltState state =>
    cases state with
    | paid => exact .refl_of (by simp [crossStatus, stay]) (by simp [crossStatus, stay])
    | _ => exact hrevert
  | _ => exact .refl_of rfl rfl

theorem applies_depositSigning (proofs : List Proof) (lease : Nat) (answer : Answer) :
    Applies (effect st answer (.depositSigning op quote mint proofs lease)) st
      (depositSigning st op quote mint proofs lease answer).state := by
  cases answer with
  | signed eventId =>
    by_cases hlease : holdsLease st quote lease
    · have hlookup : (st.pendingDeposits.lookup quote).bind (fun p => p.chainStartedAt) =
          some lease := by simpa [holdsLease] using hlease
      have heffect : effect st (.signed eventId) (.depositSigning op quote mint proofs lease) =
          .added (attach (some eventId) (canonicalizeMintUrl mint) proofs) := by
        simp [effect, hlease]
      rw [heffect]
      refine applies_added ?_ fun c => ?_
      · simp [depositSigning, foldDeposit, hlookup, CashuWalletState.addProofs,
          CashuWalletState.applyFact]
      · simp [depositSigning, foldDeposit, hlookup, CashuWalletState.addProofs,
          CashuWalletState.applyFact, isSpent_apply]
    · have hlookup : (st.pendingDeposits.lookup quote).bind (fun p => p.chainStartedAt) ≠
          some lease := by simpa [holdsLease] using hlease
      have heffect : effect st (.signed eventId) (.depositSigning op quote mint proofs lease) =
          .none := by simp [effect, hlease]
      rw [heffect]
      exact .refl_of (by simp [depositSigning, foldDeposit, hlookup])
        (by simp [depositSigning, foldDeposit, hlookup])
  | _ => exact .refl_of rfl rfl

theorem applies_checkMints (debounced : Bool) (groups : List (String × List StoredProof))
    (answer : Answer) :
    Applies (effect st answer (.checkMints debounced groups)) st
      (checkMints st debounced groups answer).state := by
  cases groups with
  | nil =>
    by_cases hdebounced : debounced = false
    · exact .refl_of (by simp [checkMints, hdebounced, stay])
        (by simp [checkMints, hdebounced, stay])
    · by_cases hrerun : st.checkStateRerunNeeded <;>
        exact .refl_of (by simp [checkMints, hdebounced, hrerun, stay])
          (by simp [checkMints, hdebounced, hrerun, stay])
  | cons group rest =>
    cases answer with
    | spendStates states =>
      by_cases hlength : states.length = group.2.length
      · refine ⟨?_, fun c => ?_⟩
        · simp [effect, checkMints, hlength, stay, CashuWalletState.removeProofs,
            CashuWalletState.probeSpent, WalletProof.removeProofs]
        · simp [effect, checkMints, hlength, stay, CashuWalletState.removeProofs,
            CashuWalletState.probeSpent, isSpent_probeSpent]
      · have heffect : effect st (.spendStates states) (.checkMints debounced (group :: rest)) =
            .none := by simp [effect, hlength]
        rw [heffect]
        exact .refl_of (by simp [checkMints, hlength, stay])
          (by simp [checkMints, hlength, stay])
    | _ => exact .refl_of rfl rfl

theorem applies_sendSelected (amount : Nat) (mint : String) (selected : List StoredProof)
    (total : Nat) (answer : Answer) :
    Applies (effect st answer (.sendSelected op amount mint selected total)) st
      (sendSelected st op amount mint selected total).state := by
  have hreserve := applies_reserve st op mint selected
  simp only [sendSelected]
  split
  next st' h =>
    rw [h] at hreserve
    exact hreserve
  next st' h =>
    rw [h] at hreserve
    exact ⟨by simpa [stay, effect] using hreserve.1,
      by simpa [stay, effect] using hreserve.2⟩

theorem applies_crossSelected (op target quote source meltQuote : String) (funded feeReserve : Nat)
    (selected : List StoredProof) (retry : Option Nat) (answer : Answer) (now : Nat) :
    Applies (effect st answer
        (.crossSelected op target quote source meltQuote funded feeReserve selected retry)) st
      (crossSelected st op target quote source meltQuote funded feeReserve selected retry
        now).state := by
  have hreserve := applies_reserve st op source selected
  simp only [crossSelected]
  split
  next st' h =>
    rw [h] at hreserve
    exact hreserve
  next st' h =>
    rw [h] at hreserve
    exact ⟨by simpa [stay, effect] using hreserve.1,
      by simpa [stay, effect] using hreserve.2⟩

theorem redeemFail_frame (input : WalletConsumedInput) :
    (redeemFail st op input).proofs = st.proofs ∧ (redeemFail st op input).ledger = st.ledger ∧
      (redeemFail st op input).mints = st.mints ∧
      (redeemFail st op input).pendingDeposits = st.pendingDeposits ∧
      (redeemFail st op input).pendingCrossMintTransfers = st.pendingCrossMintTransfers ∧
      (redeemFail st op input).walAccount = st.walAccount := by
  unfold redeemFail
  cases st.journal.get op with
  | none => simp
  | some row => by_cases hrow : row.consumedInputs = [] <;> simp [hrow]

/-- A section that neither the table nor a fold touches leaves proofs and ledger alone. -/
theorem applies_none_redeem (answer : Answer) :
    Applies .none st (redeemRun st op answer).state := by
  cases answer with
  | nutzap =>
    simp only [redeemRun]
    split
    · exact .refl_of (by simp [stay, redeemFail_frame])
        (by simp [stay, redeemFail_frame])
    · exact .refl_of (by simp [stay]) (by simp [stay])
  | _ => exact .refl_of (redeemFail_frame _ _ _).1 (redeemFail_frame _ _ _).2.1

theorem applies_none_redeemReserve (nutzap : ReceivedNutZap) :
    Applies .none st (redeemReserve st op nutzap).state := by
  simp only [redeemReserve]
  split
  · exact .refl_of (by simp [stay]) (by simp [stay])
  next st' h =>
    have hframe := CashuWalletState.transition_frame h
    exact .refl_of (by simp [stay, hframe.1]) (by simp [stay, hframe.2.1])

theorem applies_none_deposit (amount now : Nat) :
    Applies .none st (depositComplete st op quote mint amount now).state := by
  have hlease : ∀ p, Applies .none st (takeLease st op quote mint amount now p).state := fun p => by
    simp only [takeLease]
    split <;> exact .refl_of (by simp [stay]) (by simp [stay])
  simp only [depositComplete]
  split
  · exact .refl_of rfl rfl
  · split
    · exact .refl_of rfl rfl
    · split
      · exact .refl_of rfl rfl
      · exact hlease _
    · exact hlease _

theorem applies_none_depositMint (lease : Nat) (answer : Answer) :
    Applies .none st (depositMint st op quote mint lease answer).state := by
  cases answer with
  | quotePaid minted =>
    cases minted <;> exact .refl_of (by simp [depositMint, stay, clearChainLease])
      (by simp [depositMint, stay, clearChainLease])
  | _ =>
    exact .refl_of (by simp [depositMint, stay, clearChainLease])
      (by simp [depositMint, stay, clearChainLease])

/-- Every job's critical section does to money what the table says. -/
theorem resumeJob_applies (answer : Answer) (now : Nat) (job : Job) :
    Applies (effect st answer job) st (resumeJob st answer now job).state := by
  by_cases hlooks : looks job = true
  · have hnone : effect st answer job = .none := by cases job <;> first | rfl | cases hlooks
    rw [resumeJob_looks st answer now hlooks, hnone]
    exact .refl_of rfl rfl
  cases hop : journals job with
  | some op =>
    have hnone : effect st answer job = .none := by cases job <;> first | rfl | cases hop
    have hmoved : ∀ st', Journaled st op st' → Applies .none st st' := by
      rintro _ (_ | next | p) <;> exact .refl_of (by simp) (by simp)
    rw [hnone]
    exact hmoved _ (resumeJob_journals st answer now hop)
  | none =>
  cases job with
  | sendSelected op amount mint selected total =>
    exact applies_sendSelected st op amount mint selected total answer
  | sendKeyset op amount mint selected total =>
    exact applies_sendKeyset st op amount mint selected total answer
  | sendSigning op mint selected swapped => exact applies_sendSigning st op mint selected swapped answer
  | redeemRun op => exact applies_none_redeem st op answer
  | redeemKeys =>
    simp only [resumeJob, redeemKeys]
    split
    · exact .refl_of rfl rfl
    · exact .refl_of (redeemFail_frame _ _ _).1 (redeemFail_frame _ _ _).2.1
  | redeemReserve op nutzap => exact applies_none_redeemReserve st op nutzap
  | redeemHistorySigning op nutzap fresh tokenEventId =>
    exact applies_redeem st op nutzap fresh tokenEventId answer
  | redeemResume =>
    simp only [resumeJob, redeemResume]
    split
    · exact .refl_of rfl rfl
    · split
      · exact .refl_of rfl rfl
      · split <;> exact .refl_of (by simp [stay, dropRedeem])
          (by simp [stay, dropRedeem])
    · exact .refl_of rfl rfl
  | crossBegin =>
    simp only [resumeJob, crossBegin]
    split
    · exact .refl_of rfl rfl
    next st' h =>
      have hframe := CashuWalletState.beginOperationAt_frame h
      exact .refl_of hframe.1 hframe.2.1
  | crossSelected op target quote source meltQuote funded feeReserve selected retry =>
    exact applies_crossSelected st op target quote source meltQuote funded feeReserve selected
      retry answer now
  | crossMelt op quote source feeReserve selected retry =>
    exact applies_crossMelt st op quote source feeReserve selected retry answer
  | crossMint =>
    simp only [resumeJob, crossMint]
    split
    · exact .refl_of (by simp [stay]) (by simp [stay])
    · exact .refl_of rfl rfl
  | crossSigning op quote target proofs source feeSats retry =>
    exact applies_crossSigning st op quote target proofs source feeSats retry answer
  | crossRetry =>
    simp only [resumeJob, crossRetry]
    split
    · exact .refl_of rfl rfl
    next st' h =>
      have hframe := CashuWalletState.beginOperationAt_frame h
      exact .refl_of (by simp [stay, hframe.1]) (by simp [stay, hframe.2.1])
  | crossResume =>
    simp only [resumeJob, crossResume]
    split
    · exact .refl_of rfl rfl
    · split <;> exact .refl_of (by simp [stay]) (by simp [stay])
  | crossStatus quote pending => exact applies_crossStatus st quote pending answer
  | depositQuote =>
    cases answer <;> exact .refl_of (by simp [resumeJob, depositQuote, stay])
      (by simp [resumeJob, depositQuote, stay])
  | depositComplete op quote mint amount => exact applies_none_deposit st op quote mint amount now
  | depositMint op quote mint _ lease => exact applies_none_depositMint st op quote mint lease answer
  | depositSigning op quote mint proofs lease =>
    exact applies_depositSigning st op quote mint proofs lease answer
  | depositResume =>
    simp only [resumeJob, depositResume]
    split
    · exact .refl_of rfl rfl
    · split <;> exact .refl_of (by simp [stay]) (by simp [stay])
  | ingestToken event =>
    show Applies (ingestEffect st event) st (ingestToken st event).state
    rw [ingestToken_state]
    exact applies_ingest st event
  | ingestConfig =>
    simp only [resumeJob, ingestWalletConfig]
    split <;> exact .refl_of rfl rfl
  | checkMints debounced groups => exact applies_checkMints st debounced groups answer
  | spawnDebounced =>
    simp only [resumeJob, spawnDebounced]
    split <;> exact .refl_of rfl rfl
  | _ => first | exact absurd rfl hlooks | cases hop

theorem restoreIntoJournal_frame (account : String) (operations : List WalletOperation) :
    (restoreIntoJournal st account operations).proofs = st.proofs ∧
      (restoreIntoJournal st account operations).ledger = st.ledger ∧
      (restoreIntoJournal st account operations).mints = st.mints := by
  induction operations generalizing st with
  | nil => simp [restoreIntoJournal]
  | cons op rest ih =>
    have hstep : restoreIntoJournal st account (op :: rest) =
        restoreIntoJournal (restoreRow account st op) account rest := rfl
    have hrow : (restoreRow account st op).proofs = st.proofs ∧
        (restoreRow account st op).ledger = st.ledger ∧
        (restoreRow account st op).mints = st.mints := by
      unfold restoreRow
      split <;> simp
    simp [hstep, ih, hrow]

theorem foldl_restoreDeposit_frame (rows : List (String × CashuWalPayload))
    (acc : CashuWalletState × List Job) :
    (rows.foldl restoreDeposit acc).1.proofs = acc.1.proofs ∧
      (rows.foldl restoreDeposit acc).1.ledger = acc.1.ledger ∧
      (rows.foldl restoreDeposit acc).1.mints = acc.1.mints := by
  induction rows generalizing acc with
  | nil => simp
  | cons row _ ih =>
    have hrow : (restoreDeposit acc row).1.proofs = acc.1.proofs ∧
        (restoreDeposit acc row).1.ledger = acc.1.ledger ∧
        (restoreDeposit acc row).1.mints = acc.1.mints := by
      unfold restoreDeposit
      split <;> simp
    simp [ih, hrow]

theorem foldl_restoreCrossMint_frame (rows : List (String × CashuWalPayload))
    (acc : CashuWalletState × List Job) :
    (rows.foldl restoreCrossMint acc).1.proofs = acc.1.proofs ∧
      (rows.foldl restoreCrossMint acc).1.ledger = acc.1.ledger ∧
      (rows.foldl restoreCrossMint acc).1.mints = acc.1.mints := by
  induction rows generalizing acc with
  | nil => simp
  | cons row _ ih =>
    have hrow : (restoreCrossMint acc row).1.proofs = acc.1.proofs ∧
        (restoreCrossMint acc row).1.ledger = acc.1.ledger ∧
        (restoreCrossMint acc row).1.mints = acc.1.mints := by
      unfold restoreCrossMint
      split <;> simp
    simp [ih, hrow]

/-- A restore rebuilds the saga, never proofs, ledger or mints. -/
theorem restoreFromWal_frame (account : String) :
    (restoreFromWal st account).1.proofs = st.proofs ∧
      (restoreFromWal st account).1.ledger = st.ledger ∧
      (restoreFromWal st account).1.mints = st.mints := by
  simp only [restoreFromWal]
  split
  · simp
  · split <;> simp [foldl_restoreCrossMint_frame, foldl_restoreDeposit_frame,
      restoreIntoJournal_frame]

theorem startOperation_applies (kind : WalletOperationKind) (now : Nat)
    {note : CashuWalletState → CashuWalletState} (job : Job)
    (hnote : ∀ st, (note st).proofs = st.proofs ∧ (note st).ledger = st.ledger) :
    Applies .none st (startOperation st op kind now note job).state := by
  simp only [startOperation]
  split
  · exact .refl_of rfl rfl
  next st' h =>
    have hframe := CashuWalletState.beginOperationAt_frame h
    exact .refl_of (by simp [stay, hnote, hframe.1])
      (by simp [stay, hnote, hframe.2.1])

theorem startDeposit_applies (amount now : Nat) :
    Applies .none st (startDeposit st op mint amount now).state := by
  simp only [startDeposit]
  split
  · exact .refl_of rfl rfl
  · split
    · exact .refl_of rfl rfl
    next begun h =>
      have hbegun := CashuWalletState.beginOperationAt_frame h
      split
      · exact .refl_of hbegun.1 hbegun.2.1
      next st' h' =>
        have hframe := CashuWalletState.transition_frame h'
        exact .refl_of (hframe.1.trans hbegun.1) (hframe.2.1.trans hbegun.2.1)

theorem settleDeposit_applies (eventId : String) :
    Applies .none st (settleDepositOnIngestedToken st eventId) := by
  simp only [settleDepositOnIngestedToken]
  split
  · exact .refl_of rfl rfl
  · exact .refl_of (by simp) (by simp)

/-- The effect of an act; a job that is not in flight cannot be resumed. -/
def actEffect (w : World) : Act → Effect
  | .resume account job answer _ =>
    if (account, job) ∈ w.jobs then effect w.state answer job else .none
  | _ => .none

/-- The act starts the ledger and the inventory over. -/
def startsOver : Act → Bool
  | .reset | .crash => true
  | _ => false

theorem step_applies (w : World) {act : Act} (h : startsOver act = false) :
    Applies (actEffect w act) w.state (step w act).state := by
  cases act with
  | startSend _ op _ now =>
    exact startOperation_applies w.state op _ now _ fun st => by simp
  | startRedeem _ _ now =>
    exact startOperation_applies w.state _ _ now _ fun st => by simp
  | startCrossMint _ op target amount =>
    exact resumeJob_applies w.state .none 0 (.crossPrepare op target amount none)
  | startDeposit _ op mint amount now => exact startDeposit_applies w.state op mint amount now
  | startComplete =>
    simp only [step, World.after, startComplete]
    split <;> exact .refl_of rfl rfl
  | checkState | observeConfig => exact .refl_of rfl rfl
  | resume account job answer now =>
    by_cases hjob : (account, job) ∈ w.jobs
    · simpa [actEffect, step, World.after, hjob] using resumeJob_applies w.state answer now job
    · simpa [actEffect, step, hjob] using Applies.refl_of (rfl : w.state.proofs = _) rfl
  | observe _ event => exact settleDeposit_applies w.state event.id
  | reset | crash => cases h
  | restore account =>
    have hframe := restoreFromWal_frame w.state account
    exact .refl_of hframe.1 hframe.2.1

theorem step_startsOver (w : World) {act : Act} (h : startsOver act = true) :
    (step w act).state.proofs = [] ∧ (step w act).state.ledger = .empty := by
  cases act with
  | reset | crash => exact ⟨rfl, rfl⟩
  | _ => cases h

end WalletEffect
