import NostrMultiPlatform.Holdings
import NostrMultiPlatform.WalletSpent

/-!
# Custody of proofs

A proof is spendable or reserved by one operation that is not over. A selection
is made in one section and reserved in a later one that looks at nothing but the
saga, and of all sections that credit proofs only ingestion asks whether the
inventory has them already.
-/
namespace WalletCustody

open Runs Holdings WalletProof WalletJournal WalletState WalletJobs WalletSend
open CashuWalletState
  WalletRedeem WalletCrossMint WalletDeposit WalletIngest WalletLifecycle WalletSystem
  WalletEffect WalletSpent

def stateOf (st : CashuWalletState) (op : String) : Option WalletOperationState :=
  (st.journal.get op).map WalletOperation.state

/-- The operation is in the journal and not over. -/
def isLive (st : CashuWalletState) (op : String) : Bool :=
  (stateOf st op).any fun s => s.isTerminal = false

/-- The state after a path of transitions, those ignored that the table forbids. -/
def walk (s : WalletOperationState) (path : List WalletOperationState) : WalletOperationState :=
  path.foldl (fun s next => if s.canTransitionTo next then next else s) s

/-- The path brings the operation to an end. -/
def ends (st : CashuWalletState) (op : String) (path : List WalletOperationState) : Bool :=
  (stateOf st op).all fun s => (walk s path).isTerminal

def advanceAll (st : CashuWalletState) (op : String) (path : List WalletOperationState) :
    CashuWalletState :=
  path.foldl (fun st next => st.advance op next) st

theorem stateOf_congr {st st' : CashuWalletState} (h : st'.journal = st.journal) (op : String) :
    stateOf st' op = stateOf st op := by
  rw [stateOf, stateOf, h]

/-- A transition that goes through moves its operation along the table, and no other. -/
theorem stateOf_transition {st st' : CashuWalletState} {op : String} {next : WalletOperationState}
    (h : st.transition op next = .ok st') :
    (∃ s, stateOf st op = some s ∧ s.canTransitionTo next = true) ∧
      ∀ other, stateOf st' other = if other = op then some next else stateOf st other := by
  obtain ⟨journal, hmove, rfl⟩ := transition_eq h
  obtain ⟨row, hget, hcan, hjournal⟩ := WalletOperationJournal.transition_ok hmove
  refine ⟨⟨row.state, by rw [stateOf, hget, Option.map_some], hcan⟩, fun other => ?_⟩
  have hafter : stateOf (({ st with journal := journal } : CashuWalletState).walPersist op) other =
      (journal.get other).map WalletOperation.state :=
    stateOf_congr (walPersist_frame _ op).2.2.1 other
  rw [hafter, hjournal]
  split
  next heq =>
    subst heq
    rw [WalletOperationJournal.get_update_self (f := fun row => { row with state := next })
      (fun _ => rfl) hget]
    rfl
  next hne =>
    rw [WalletOperationJournal.get_update_other (f := fun row => { row with state := next })
      (fun _ => rfl) hne]
    rfl

theorem stateOf_advance {next : WalletOperationState} (hnext : next ≠ .mintPending)
    (st : CashuWalletState) (op other : String) :
    stateOf (st.advance op next) other =
      if other = op then (stateOf st op).map fun s => if s.canTransitionTo next then next else s
      else stateOf st other := by
  unfold advance
  split
  next st' hmove =>
    obtain ⟨⟨s, hstate, hcan⟩, hafter⟩ := stateOf_transition hmove
    rw [hafter, hstate, Option.map_some, if_pos hcan]
  next error hrefused =>
    split
    next heq =>
      subst heq
      cases hget : st.journal.get other with
      | none => simp [stateOf, hget]
      | some row =>
        cases hcan : row.state.canTransitionTo next with
        | false => simp [stateOf, hget, hcan]
        | true =>
          simp [transition, WalletOperationJournal.transition, validateTransition,
            hget, hcan, hnext] at hrefused
    · rfl

variable {path : List WalletOperationState} {st' : CashuWalletState} {account : String}
  (st : CashuWalletState) (op : String)

theorem stateOf_advanceAll (hpath : .mintPending ∉ path) (st : CashuWalletState) (op other : String)
    :
    stateOf (advanceAll st op path) other =
      if other = op then (stateOf st op).map (walk · path) else stateOf st other := by
  induction path generalizing st with
  | nil =>
    split
    next heq => simp [heq, advanceAll, walk]
    · rfl
  | cons next rest ih =>
    obtain ⟨hnext, hrest⟩ := not_or.mp (mt List.mem_cons.mpr hpath)
    have hstep : advanceAll st op (next :: rest) = advanceAll (st.advance op next) op rest := rfl
    rw [hstep, ih hrest, stateOf_advance (Ne.symm hnext), stateOf_advance (Ne.symm hnext),
      if_pos rfl]
    split
    · rw [Option.map_map]
      rfl
    · rfl

/-- Edits that leave ids and states alone. -/
theorem stateOf_editJournal {f : WalletOperation → WalletOperation}
    (hid : ∀ row, (f row).id = row.id) (hstate : ∀ row, (f row).state = row.state)
    (st : CashuWalletState) (op other : String) :
    stateOf (st.editJournal fun j => WalletOperationJournal.edit j op f) other =
      stateOf st other := by
  unfold editJournal WalletOperationJournal.edit
  cases hget : st.journal.get op with
  | none => simp only [hget]
  | some =>
    simp only [hget]
    by_cases heq : other = op
    · subst heq
      simp [stateOf, WalletOperationJournal.get_update_self hid hget, hget, hstate]
    · simp [stateOf, WalletOperationJournal.get_update_other hid heq]

theorem stateOf_recordFeeSats (feeSats : Nat) (other : String) :
    stateOf (st.editJournal fun j => j.recordFeeSats op feeSats) other = stateOf st other :=
  stateOf_editJournal (f := fun row => { row with recordedFeeSats := some feeSats })
    (fun _ => rfl) (fun _ => rfl) st op other

def withInputs (inputs : List WalletConsumedInput) (row : WalletOperation) : WalletOperation :=
  { row with consumedInputs := row.consumedInputs ++ inputs }

theorem get_recordConsumedInput (input : WalletConsumedInput) (other : String) :
    (st.recordConsumedInput op input).journal.get other =
      if other = op then (st.journal.get op).map (withInputs [input]) else st.journal.get other := by
  cases hget : st.journal.get op with
  | none =>
    have hsame : st.recordConsumedInput op input = st := by
      simp [recordConsumedInput, WalletOperationJournal.recordConsumedInput,
        WalletOperationJournal.edit, hget]
    rw [hsame]
    split
    next heq => rw [heq, hget, Option.map_none]
    · rfl
  | some =>
    have hjournal : (st.recordConsumedInput op input).journal =
        WalletOperationJournal.update op (withInputs [input]) st.journal := by
      simp [recordConsumedInput, WalletOperationJournal.recordConsumedInput,
        WalletOperationJournal.edit, hget]
      rfl
    rw [hjournal]
    split
    next heq =>
      subst heq
      exact WalletOperationJournal.get_update_self (fun _ => rfl) hget
    next hne => exact WalletOperationJournal.get_update_other (fun _ => rfl) hne

theorem get_recordInputs (op mint : String) (selected : List StoredProof) (other : String) :
    (recordInputs st op mint selected).journal.get other =
      if other = op then (st.journal.get op).map (withInputs (selected.map fun s =>
        ⟨s.tokenEvent.getD "", mint, sat, s.proof.amount⟩)) else st.journal.get other := by
  induction selected generalizing st with
  | nil =>
    split
    next heq =>
      rw [heq]
      cases hget : st.journal.get op <;> simp [recordInputs, hget, withInputs]
    · rfl
  | cons s rest ih =>
    have hstep : recordInputs st op mint (s :: rest) = recordInputs
        (st.recordConsumedInput op ⟨s.tokenEvent.getD "", mint, sat, s.proof.amount⟩) op mint rest :=
      rfl
    rw [hstep, ih, get_recordConsumedInput, get_recordConsumedInput, if_pos rfl]
    split
    · rw [Option.map_map]
      refine congrArg (fun f => Option.map f (st.journal.get op)) (funext fun row => ?_)
      simp [withInputs]
    · rfl

theorem stateOf_recordInputs (op mint : String) (selected : List StoredProof) (other : String) :
    stateOf (recordInputs st op mint selected) other = stateOf st other := by
  rw [stateOf, get_recordInputs]
  split
  next heq =>
    rw [Option.map_map, heq]
    rfl
  · rfl

variable {selected : List StoredProof}

/-- A reservation that goes through takes a prepared operation to the mint. -/
theorem stateOf_reserve {st : CashuWalletState} {op mint : String}
    (h : (reserveInputs st op mint selected).2 = true) :
    stateOf st op = some .prepared ∧ ∀ other,
      stateOf (reserveInputs st op mint selected).1 other =
        if other = op then some .mintPending else stateOf st other := by
  unfold reserveInputs at *
  split at h
  · cases h
  next st' hmove =>
    obtain ⟨⟨s, hstate, hcan⟩, hafter⟩ := stateOf_transition hmove
    rw [stateOf_recordInputs] at hstate
    constructor
    · rw [hstate]
      cases s <;> simp_all [WalletOperationState.canTransitionTo]
    · intro other
      change stateOf st' other = _
      rw [hafter, stateOf_recordInputs]

/-- A prepared operation is refused only if nothing was selected. -/
theorem reserves_of_prepared {st : CashuWalletState} {op mint : String}
    (h : stateOf st op = some .prepared) (hne : selected ≠ []) :
    (reserveInputs st op mint selected).2 = true := by
  obtain ⟨row, hget, hstate⟩ := Option.map_eq_some_iff.mp h
  have hrow := get_recordInputs st op mint selected op
  rw [if_pos rfl, hget, Option.map_some] at hrow
  simp [reserveInputs, transition, WalletOperationJournal.transition, hrow,
    validateTransition, withInputs, hstate, WalletOperationState.canTransitionTo, hne]

/-- An operation and the names it has reserved. -/
abbrev Reservation : Type := String × List String

def reservedBy (st : CashuWalletState) : Job → List Reservation
  | .sendSelected op _ mint selected _ =>
    if (reserveInputs st op mint selected).2 then [(op, storedCs selected)] else []
  | .crossSelected op _ _ source _ _ _ selected _ =>
    if (reserveInputs st op source selected).2 then [(op, storedCs selected)] else []
  | _ => []

def loggedSend : String × CashuWalPayload → Option Reservation
  | (op, .send _ selected _) => some (op, storedCs selected)
  | _ => none

def loggedTransfer : String × CashuWalPayload → Option Reservation
  | (op, .crossMintTransfer p) => some (op, storedCs p.sourceSelected)
  | _ => none

/-- The reservations that a restore brings back: those of operations not in the journal yet. -/
def reservedInLog (st : CashuWalletState) (account : String) : List Reservation :=
  match st.walStore with
  | none => []
  | some store =>
    ((inFlight store account .sendNutzap).filterMap loggedSend ++
      (inFlight store account .crossMintTransfer).filterMap loggedTransfer).filter fun row =>
        stateOf st row.1 = none

def reservedIn (w : World) : Act → List Reservation
  | .resume account job _ _ => if (account, job) ∈ w.jobs then reservedBy w.state job else []
  | .restore account => reservedInLog w.state account
  | _ => []

/-- The world beside the reservations of the operations that are not over. -/
def recordReserved (t : World × List Reservation) (act : Act) : World × List Reservation :=
  (step t.1 act, (t.2 ++ reservedIn t.1 act).filter fun row => isLive (step t.1 act).state row.1)

def custody (t : World × List Reservation) : Places String String :=
  ⟨storedCs t.1.state.proofs, t.2⟩

/-- What is still reserved once the operation has gone down the path. -/
def afterPath (t : World × List Reservation) (op : String) (path : List WalletOperationState) :
    List Reservation :=
  t.2.filter fun row => !(row.1 = op && ends t.1.state op path)

/-- The names are distinct, not held, and reserved at most by the operation that comes to an end. -/
def Fresh (t : World × List Reservation) (op : String) (path : List WalletOperationState)
    (names : List String) : Prop :=
  names.Nodup ∧ ∀ c ∈ names,
    c ∉ storedCs t.1.state.proofs ∧ c ∉ heldNames (afterPath t op path)

/-- The names are distinct and nobody has reserved them. -/
def Unreserved (t : World × List Reservation) (names : List String) : Prop :=
  names.Nodup ∧ ∀ c ∈ names, c ∉ heldNames t.2

def JobKeeps (t : World × List Reservation) (answer : Answer) : Job → Prop
  | .sendSelected op _ _ selected _ =>
    stateOf t.1.state op = some .prepared → Unreserved t (storedCs selected)
  | .crossSelected op _ _ _ _ _ _ selected _ =>
    stateOf t.1.state op = some .prepared → Unreserved t (storedCs selected)
  | .sendKeyset op amount _ selected total =>
    coversFee amount total selected answer = false → Fresh t op [.failed] (storedCs selected)
  | .sendSigning op _ _ swapped =>
    isSigned answer → Fresh t op [.mintSettled, .publishPending, .settled]
      (proofCs (SwappedSend.change swapped))
  | .redeemHistorySigning op _ fresh _ => isSigned answer → Fresh t op [.settled] (proofCs fresh)
  | .crossMelt op _ _ _ _ _ =>
    ∀ change, answer = .melt .paid change → Fresh t op [.mintSettled] (proofCs change)
  | .crossSigning op _ _ proofs _ _ _ =>
    isSigned answer → Fresh t op [.publishPending, .settled] (proofCs proofs)
  | .crossStatus _ pending =>
    ∀ state, answer = .meltState state → state ≠ .paid →
      Fresh t pending.operationId [.failed] (storedCs pending.sourceSelected)
  | .depositSigning op quote _ proofs lease =>
    isSigned answer → holdsLease t.1.state quote lease → Fresh t op [.publishPending] (proofCs proofs)
  | .ingestToken event =>
    alreadyKnown t.1.state event = false → Unreserved t (proofCs (freshProofs t.1.state event))
  | _ => True

/-- A reservation takes names nobody has reserved, and a credit brings names that are in no place. -/
def Keeps (t : World × List Reservation) : Act → Prop
  | .resume account job answer _ => (account, job) ∈ t.1.jobs → JobKeeps t answer job
  | .restore account => (heldNames (reservedInLog t.1.state account)).Nodup ∧
      ∀ c ∈ heldNames (reservedInLog t.1.state account),
        c ∉ storedCs t.1.state.proofs ∧ c ∉ heldNames t.2
  | _ => True

variable {t : World × List Reservation}

def AllLive (t : World × List Reservation) : Prop :=
  ∀ row ∈ t.2, isLive t.1.state row.1 = true

/-- The section moves the operation down the path, and no other. -/
def Walks (st st' : CashuWalletState) (op : String) (path : List WalletOperationState) : Prop :=
  ∀ other, stateOf st' other =
    if other = op then (stateOf st op).map (walk · path) else stateOf st other

theorem Walks.live {op : String} (h : Walks t.1.state st' op path) (hlive : AllLive t) :
    t.2.filter (fun row => isLive st' row.1) = afterPath t op path := by
  refine List.filter_congr fun row hrow => ?_
  have hnow := hlive row hrow
  rw [isLive, h]
  by_cases heq : row.1 = op
  · rw [heq, isLive] at hnow
    cases hstate : stateOf t.1.state op with
    | none =>
      rw [hstate] at hnow
      cases hnow
    | some s =>
      simp only [heq, if_true, Option.map_some, Option.any_some, decide_true, Bool.true_and, ends,
        hstate, Option.all_some]
      cases (walk s path).isTerminal <;> rfl
  · simpa [heq, isLive] using hnow

/-- Without a credit and without a reservation nothing can clash. -/
theorem exclusive_of_no_adds (hx : Exclusive (custody t)) {e : Effect} (h : Applies e t.1.state st')
    (hadds : e.adds = []) (p : Reservation → Bool) :
    Exclusive ⟨storedCs st'.proofs, t.2.filter p⟩ := by
  refine hx.sublist ?_ List.filter_sublist
  rw [h.1, hadds, List.append_nil]
  exact List.filter_sublist.map _

/-- A credit is safe exactly when its names are fresh. -/
theorem exclusive_credit_iff (hx : Exclusive (custody t)) (hlive : AllLive t) {e : Effect}
    {op : String} (h : Applies e t.1.state st') (hkeeps : e.keeps = fun _ => true)
    (hwalks : Walks t.1.state st' op path) :
    Exclusive ⟨storedCs st'.proofs, t.2.filter fun row => isLive st' row.1⟩ ↔
      Fresh t op path (storedCs e.adds) := by
  have hrest : Exclusive ⟨storedCs t.1.state.proofs, afterPath t op path⟩ :=
    hx.sublist (List.Sublist.refl _) List.filter_sublist
  have hproofs : st'.proofs = t.1.state.proofs ++ e.adds := by
    rw [h.1, hkeeps, List.filter_true]
  rw [hwalks.live hlive, hproofs, storedCs_append]
  exact exclusive_free_iff hrest

/-- A reservation is safe exactly when nobody has reserved its names. -/
theorem exclusive_reserve_iff (hx : Exclusive (custody t)) (hlive : AllLive t) {op mint : String}
    (hproofs : st'.proofs = (reserveInputs t.1.state op mint selected).1.proofs)
    (hstates : ∀ other, stateOf st' other = stateOf (reserveInputs t.1.state op mint selected).1 other)
    :
    Exclusive ⟨storedCs st'.proofs, (t.2 ++ if (reserveInputs t.1.state op mint selected).2 then
        [(op, storedCs selected)] else []).filter fun row => isLive st' row.1⟩ ↔
      (stateOf t.1.state op = some .prepared → Unreserved t (storedCs selected)) := by
  have happlies := applies_reserve t.1.state op mint selected
  cases hreserve : (reserveInputs t.1.state op mint selected).2 with
  | false =>
    refine iff_of_true ?_ fun hprepared => ?_
    · have hkept := exclusive_of_no_adds hx happlies (by simp [reserveEffect, hreserve, Effect.none])
        fun row => isLive st' row.1
      simpa [hproofs] using hkept
    · obtain rfl : selected = [] := by
        by_contra hne
        rw [reserves_of_prepared hprepared hne] at hreserve
        cases hreserve
      exact ⟨List.nodup_nil, fun c hc => absurd hc List.not_mem_nil⟩
  | true =>
    obtain ⟨hprepared, hafter⟩ := stateOf_reserve hreserve
    have hlive' : ∀ other, isLive t.1.state other = true → isLive st' other = true := by
      intro other hother
      rw [isLive, hstates, hafter]
      split
      · rfl
      · exact hother
    have hheld : (t.2 ++ [(op, storedCs selected)]).filter (fun row => isLive st' row.1) =
        t.2 ++ [(op, storedCs selected)] := by
      refine List.filter_eq_self.mpr fun row hrow => ?_
      rcases List.mem_append.mp hrow with hrow | hrow
      · exact hlive' _ (hlive row hrow)
      · rw [List.mem_singleton.mp hrow]
        exact hlive' op (by rw [isLive, hprepared]; rfl)
    have hkept : st'.proofs = t.1.state.proofs.filter fun s => s.proof.c ∉ storedCs selected := by
      rw [hproofs, happlies.1]
      simp [reserveEffect, hreserve]
    have hrest : Exclusive ⟨storedCs st'.proofs, t.2⟩ := by
      refine hx.sublist ?_ (List.Sublist.refl _)
      rw [hkept]
      exact List.filter_sublist.map _
    have hout : ∀ c ∈ storedCs selected, c ∉ storedCs st'.proofs := by
      intro c hc hmem
      rw [hkept] at hmem
      obtain ⟨s, hs, rfl⟩ := List.mem_map.mp hmem
      exact absurd hc (of_decide_eq_true (List.mem_filter.mp hs).2)
    rw [if_pos rfl, hheld, exclusive_hold_iff hrest, heldNames_singleton, Unreserved]
    simp only [hprepared, forall_const]
    exact and_congr_right fun _ => forall₂_congr fun c hc => and_iff_right (hout c hc)

theorem walks_advanceAll {st mid : CashuWalletState} {op : String}
    (path : List WalletOperationState) (hsame : ∀ other, stateOf mid other = stateOf st other)
    (hpath : .mintPending ∉ path) : Walks st (advanceAll mid op path) op path := by
  intro other
  rw [stateOf_advanceAll hpath, hsame, hsame]

theorem Walks.congr {st st' st'' : CashuWalletState} {op : String} (h : Walks st st' op path)
    (hjournal : st''.journal = st'.journal) : Walks st st'' op path := by
  intro other
  rw [stateOf_congr hjournal, h]

theorem walks_restoreAndFail (op mint : String) (selected : List StoredProof) :
    Walks st (restoreAndFail st op mint selected) op [.failed] :=
  walks_advanceAll [.failed]
    (stateOf_congr (by simp [restoreProofs_eq])) (by decide)

theorem walks_foldSend (op mint : String) (selected : List StoredProof) (swapped : SwappedSend) :
    Walks st (foldSend st op mint selected swapped) op [.mintSettled, .publishPending, .settled] := by
  refine walks_advanceAll [.mintSettled, .publishPending, .settled] (fun other => ?_)
    (by decide)
  rw [stateOf_recordFeeSats]
  exact stateOf_congr (creditChange_journal _ _ _ _) other

theorem walks_foldRedeem (nutzap : ReceivedNutZap) (fresh : List Proof) (tokenEventId : String) :
    Walks st (foldRedeem st op nutzap fresh tokenEventId) op [.settled] :=
  walks_advanceAll [.settled] (fun _ => rfl) (by decide)

theorem walks_foldMelt (op quote source : String) (feeReserve : Nat) (selected : List StoredProof)
    (change : List Proof) :
    Walks st (foldMelt st op quote source feeReserve selected change) op [.mintSettled] := by
  refine Walks.congr (walks_advanceAll [.mintSettled] (fun other => ?_) (by decide))
    (persistCrossMintPayload_frame _ quote).2.2.1
  rw [stateOf_recordFeeSats]
  exact stateOf_congr (creditChange_journal _ _ _ _) other

theorem walks_foldTarget (op quote target : String) (proofs : List Proof) (signed : TokenEvent) :
    Walks st (foldTarget st op quote target proofs signed) op [.publishPending, .settled] := by
  refine Walks.congr (walks_advanceAll [.publishPending, .settled] (fun other => ?_)
    (by decide)) (persistCrossMintPayload_frame _ quote).2.2.1
  exact stateOf_congr (acceptMint_frame _ _).2.2.1 other

theorem walks_revertTransfer (quote : String) (pending : PendingCrossMintTransfer) :
    Walks st (revertTransfer st quote pending) pending.operationId [.failed] :=
  walks_advanceAll [.failed]
    (stateOf_congr (by simp [restoreProofs_eq, eraseCrossMint]))
    (by decide)

theorem walks_foldDeposit {st : CashuWalletState} {quote : String} {lease : Nat}
    (h : holdsLease st quote lease = true) (op mint : String) (proofs : List Proof)
    (signed : TokenEvent) :
    Walks st (foldDeposit st op quote mint proofs lease signed) op [.publishPending] := by
  have hlease : (st.pendingDeposits.lookup quote).bind (fun p => p.chainStartedAt) = some lease := by
    simpa [holdsLease] using h
  rw [foldDeposit, if_neg (not_not.mpr hlease)]
  let credited := (st.addProofs (some signed.id) (canonicalizeMintUrl mint) proofs).applyFact
    (.tokenAdded signed.id (canonicalizeMintUrl mint) sat (proofAtoms proofs))
  have hwalks : Walks st (credited.advance op .publishPending) op [.publishPending] :=
    walks_advanceAll [.publishPending] (fun _ => rfl) (by decide)
  exact hwalks.congr (persistDepositPayload_frame _ quote).2.2.1

def reserves : Job → Bool
  | .sendSelected .. | .crossSelected .. => true
  | _ => false

/-- An ingested event clashes only with reservations: what is held already is not credited. -/
theorem exclusive_ingest_iff (hx : Exclusive (custody t)) (hlive : AllLive t) (event : TokenEvent) :
    Exclusive ⟨storedCs (ingestToken t.1.state event).state.proofs,
      t.2.filter fun row => isLive (ingestToken t.1.state event).state row.1⟩ ↔
        (alreadyKnown t.1.state event = false →
          Unreserved t (proofCs (freshProofs t.1.state event))) := by
  have happlies := applies_ingest t.1.state event
  rw [← ingestToken_state] at happlies
  have hjournal : (ingestToken t.1.state event).state.journal = t.1.state.journal := by
    obtain ⟨proofs, ledger, heq⟩ := ingestTokenEvent_eq t.1.state event
    rw [ingestToken_state, heq]
  have hheld : t.2.filter (fun row => isLive (ingestToken t.1.state event).state row.1) = t.2 := by
    refine List.filter_eq_self.mpr fun row hrow => ?_
    rw [isLive, stateOf_congr hjournal]
    exact hlive row hrow
  have hrest : Exclusive ⟨storedCs (unreplaced t.1.state event), t.2⟩ :=
    hx.sublist (List.filter_sublist.map _) (List.Sublist.refl _)
  have hproofs : (ingestToken t.1.state event).state.proofs = unreplaced t.1.state event ++
      (ingestEffect t.1.state event).adds := happlies.1
  rw [hheld, hproofs, storedCs_append, exclusive_free_iff hrest]
  cases hknown : alreadyKnown t.1.state event with
  | true => simp [ingestEffect, hknown]
  | false =>
    have hout : ∀ c ∈ proofCs (freshProofs t.1.state event),
        c ∉ storedCs (unreplaced t.1.state event) := by
      intro c hc
      obtain ⟨p, hp, rfl⟩ := List.mem_map.mp hc
      exact of_decide_eq_true (List.mem_filter.mp hp).2
    simp only [ingestEffect, hknown, Bool.false_eq_true, if_false, storedCs_attach, forall_const,
      Unreserved]
    exact and_congr_right fun _ => forall₂_congr fun c hc => and_iff_right (hout c hc)

/-- What a section must not do, where it makes no reservation. -/
theorem credits_iff (hx : Exclusive (custody t)) (hlive : AllLive t) (answer : Answer) (now : Nat)
    {job : Job} (hjob : reserves job = false) :
    Exclusive ⟨storedCs (resumeJob t.1.state answer now job).state.proofs,
      t.2.filter fun row => isLive (resumeJob t.1.state answer now job).state row.1⟩ ↔
        JobKeeps t answer job := by
  have happlies := resumeJob_applies t.1.state answer now job
  have hquiet : (effect t.1.state answer job).adds = [] →
      Exclusive ⟨storedCs (resumeJob t.1.state answer now job).state.proofs,
        t.2.filter fun row => isLive (resumeJob t.1.state answer now job).state row.1⟩ :=
    fun hadds => exclusive_of_no_adds hx happlies hadds _
  cases job with
  | sendKeyset op amount mint selected total =>
    cases hfee : coversFee amount total selected answer with
    | true => exact iff_of_true (hquiet (by simp [effect, hfee, Effect.none])) (by simp [JobKeeps, hfee])
    | false =>
      have hstate : (resumeJob t.1.state answer now (.sendKeyset op amount mint selected total)).state =
          restoreAndFail t.1.state op mint selected := by
        cases answer with
        | feePpk inputFeePpk =>
          have hshort : total - amount < computeFee selected.length inputFeePpk := by
            simpa [coversFee] using hfee
          simp [resumeJob, sendKeyset, hshort, Outcome.stay]
        | _ => rfl
      have heffect : effect t.1.state answer (.sendKeyset op amount mint selected total) =
          .added (putBack mint selected) := by simp [effect, hfee]
      rw [heffect] at happlies
      have hwalks := walks_restoreAndFail t.1.state op mint selected
      rw [← hstate] at hwalks
      have hiff := exclusive_credit_iff hx hlive happlies rfl hwalks
      exact hiff.trans (by simp [JobKeeps, hfee, Effect.added])
  | sendSigning op mint selected swapped =>
    cases answer with
    | signed =>
      have hiff := exclusive_credit_iff hx hlive happlies rfl
        (walks_foldSend t.1.state op mint selected swapped)
      exact hiff.trans (by simp [JobKeeps, isSigned, effect])
    | _ => exact iff_of_true (hquiet rfl) (by simp [JobKeeps, isSigned])
  | redeemHistorySigning op nutzap fresh tokenEventId =>
    cases answer with
    | signed =>
      have hiff := exclusive_credit_iff hx hlive happlies rfl
        (walks_foldRedeem t.1.state op nutzap fresh tokenEventId)
      exact hiff.trans (by simp [JobKeeps, isSigned, effect, Effect.added])
    | _ => exact iff_of_true (hquiet rfl) (by simp [JobKeeps, isSigned])
  | crossMelt op quote source feeReserve selected =>
    cases answer with
    | melt state change =>
      cases state with
      | paid =>
        have hiff := exclusive_credit_iff hx hlive happlies rfl
          (walks_foldMelt t.1.state op quote source feeReserve selected change)
        exact hiff.trans (by simp [JobKeeps, effect])
      | _ => exact iff_of_true (hquiet rfl) (by simp [JobKeeps])
    | _ => exact iff_of_true (hquiet rfl) (by simp [JobKeeps])
  | crossSigning op quote target proofs =>
    cases answer with
    | signed eventId =>
      have hiff := exclusive_credit_iff hx hlive happlies rfl
        (walks_foldTarget t.1.state op quote target proofs ⟨eventId, target, proofs, []⟩)
      exact hiff.trans (by simp [JobKeeps, isSigned, effect, Effect.added])
    | _ => exact iff_of_true (hquiet rfl) (by simp [JobKeeps, isSigned])
  | crossStatus quote pending =>
    cases answer with
    | meltState state =>
      have hrevert := walks_revertTransfer t.1.state quote pending
      cases state with
      | paid => exact iff_of_true (hquiet rfl) (by simp [JobKeeps])
      | _ =>
        have hiff := exclusive_credit_iff hx hlive happlies rfl hrevert
        exact hiff.trans (by simp [JobKeeps, effect, Effect.added])
    | _ => exact iff_of_true (hquiet rfl) (by simp [JobKeeps])
  | depositSigning op quote mint proofs lease =>
    cases answer with
    | signed eventId =>
      cases hlease : holdsLease t.1.state quote lease with
      | true =>
        have heffect : effect t.1.state (.signed eventId) (.depositSigning op quote mint proofs lease) =
            .added (attach (some eventId) (canonicalizeMintUrl mint) proofs) := by
          simp [effect, hlease]
        rw [heffect] at happlies
        have hiff := exclusive_credit_iff hx hlive happlies rfl
          (walks_foldDeposit hlease op mint proofs ⟨eventId, mint, proofs, []⟩)
        exact hiff.trans (by simp [JobKeeps, isSigned, hlease, Effect.added])
      | false =>
        exact iff_of_true (hquiet (by simp [effect, hlease, Effect.none]))
          (by simp [JobKeeps, hlease])
    | _ => exact iff_of_true (hquiet rfl) (by simp [JobKeeps, isSigned])
  | ingestToken event => exact exclusive_ingest_iff hx hlive event
  | checkMints _ groups =>
    refine iff_of_true (hquiet ?_) trivial
    cases groups with
    | nil => rfl
    | cons =>
      cases answer with
      | spendStates =>
        simp only [effect]
        split <;> rfl
      | _ => rfl
  | sendSelected | crossSelected => cases hjob
  | _ => exact iff_of_true (hquiet rfl) trivial

theorem sendSelected_frame (amount : Nat) (mint : String) (selected : List StoredProof)
    (total : Nat) :
    (sendSelected st op amount mint selected total).state.proofs =
        (reserveInputs st op mint selected).1.proofs ∧
      (sendSelected st op amount mint selected total).state.journal =
        (reserveInputs st op mint selected).1.journal := by
  unfold sendSelected
  split
  next st' h => simp [h, Outcome.stay]
  next st' h => simp [h, Outcome.stay]

theorem crossSelected_frame (op target quote source meltQuote : String) (funded feeReserve : Nat)
    (selected : List StoredProof) (retry : Option Nat) (now : Nat) :
    (crossSelected st op target quote source meltQuote funded feeReserve selected retry
        now).state.proofs = (reserveInputs st op source selected).1.proofs ∧
      (crossSelected st op target quote source meltQuote funded feeReserve selected retry
        now).state.journal = (reserveInputs st op source selected).1.journal := by
  unfold crossSelected
  split
  next st' h => simp [h, Outcome.stay]
  next st' h => simp [h, Outcome.stay]

/-- A section keeps custody exclusive exactly when it does what it may. -/
theorem job_keeps_iff (hx : Exclusive (custody t)) (hlive : AllLive t) (answer : Answer) (now : Nat)
    (job : Job) :
    Exclusive ⟨storedCs (resumeJob t.1.state answer now job).state.proofs,
      (t.2 ++ reservedBy t.1.state job).filter fun row =>
        isLive (resumeJob t.1.state answer now job).state row.1⟩ ↔ JobKeeps t answer job := by
  cases hjob : reserves job with
  | false =>
    have hnone : reservedBy t.1.state job = [] := by
      cases job with
      | sendSelected | crossSelected => cases hjob
      | _ => rfl
    rw [hnone, List.append_nil]
    exact credits_iff hx hlive answer now hjob
  | true =>
    cases job with
    | sendSelected op amount mint selected total =>
      have hframe := sendSelected_frame t.1.state op amount mint selected total
      exact exclusive_reserve_iff hx hlive hframe.1 (stateOf_congr hframe.2)
    | crossSelected op target quote source meltQuote funded feeReserve selected retry =>
      have hframe := crossSelected_frame t.1.state op target quote source meltQuote funded feeReserve
        selected retry now
      exact exclusive_reserve_iff hx hlive hframe.1 (stateOf_congr hframe.2)
    | _ => cases hjob

theorem stateOf_restoreRow (account : String) (st : CashuWalletState) (row : WalletOperation)
    (op : String) :
    stateOf (restoreRow account st row) op = if row.state.isTerminal then stateOf st op else
      (stateOf st op).or (if row.id = op then some row.state else none) := by
  unfold restoreRow
  split
  · exact stateOf_congr (by simp) op
  · unfold editJournal WalletOperationJournal.insert
    dsimp only
    by_cases hknown : (st.journal.any fun other => other.id = row.id) = true
    · rw [if_pos hknown]
      change stateOf st op = _
      by_cases heq : row.id = op
      · obtain ⟨other, hmem, hid⟩ := List.any_eq_true.mp hknown
        have hsome : (st.journal.get op).isSome := by
          rw [WalletOperationJournal.get, List.find?_isSome]
          exact ⟨other, hmem, by simpa [heq] using hid⟩
        obtain ⟨found, hfound⟩ := Option.isSome_iff_exists.mp hsome
        rw [stateOf, hfound]
        rfl
      · rw [if_neg heq, Option.or_none]
    · rw [if_neg hknown]
      change ((st.journal ++ [row]).find? fun other => other.id = op).map _ = _
      rw [List.find?_append, stateOf, WalletOperationJournal.get]
      cases st.journal.find? fun other => other.id = op with
      | some => rfl
      | none =>
        by_cases heq : row.id = op
        · simp [heq]
        · simp [heq]

theorem stateOf_restoreIntoJournal {st : CashuWalletState} {rows : List WalletOperation}
    {op : String} {s : WalletOperationState} (h : stateOf st op = some s) :
    stateOf (restoreIntoJournal st account rows) op = some s := by
  induction rows generalizing st with
  | nil => exact h
  | cons _ _ ih =>
    refine ih ?_
    rw [stateOf_restoreRow, h]
    exact ite_self _

theorem live_restoreIntoJournal {st : CashuWalletState} {rows : List WalletOperation}
    {row : WalletOperation} (hmem : row ∈ rows) (hrow : row.state.isTerminal = false)
    (hnew : stateOf st row.id = none) :
    isLive (restoreIntoJournal st account rows) row.id = true := by
  induction rows generalizing st with
  | nil => cases hmem
  | cons first rest ih =>
    have hfirst := stateOf_restoreRow account st first row.id
    rw [hnew, Option.none_or] at hfirst
    change isLive (restoreIntoJournal (restoreRow account st first) account rest) row.id = true
    by_cases hlive : first.state.isTerminal = false ∧ first.id = row.id
    · rw [if_neg (by simp [hlive.1]), if_pos hlive.2] at hfirst
      rw [isLive, stateOf_restoreIntoJournal hfirst]
      simp [hlive.1]
    · refine ih ?_ ?_
      · rcases List.mem_cons.mp hmem with rfl | hmem
        · exact absurd ⟨hrow, rfl⟩ hlive
        · exact hmem
      · rw [hfirst]
        split
        · rfl
        next hopen => exact if_neg fun hid => hlive ⟨by simpa using hopen, hid⟩

theorem restoreDeposit_journal (rows : List (String × CashuWalPayload))
    (acc : CashuWalletState × List Job) :
    (rows.foldl restoreDeposit acc).1.journal = acc.1.journal := by
  induction rows generalizing acc with
  | nil => rfl
  | cons _ _ ih =>
    rw [List.foldl_cons, ih]
    unfold restoreDeposit
    split <;> rfl

theorem restoreCrossMint_journal (rows : List (String × CashuWalPayload))
    (acc : CashuWalletState × List Job) :
    (rows.foldl restoreCrossMint acc).1.journal = acc.1.journal := by
  induction rows generalizing acc with
  | nil => rfl
  | cons _ _ ih =>
    rw [List.foldl_cons, ih]
    unfold restoreCrossMint
    split <;> rfl

/-- A restore journals the rows of the log, and that is all it does to the journal. -/
theorem stateOf_restore (account op : String) :
    stateOf (restoreFromWal st account).1 op = match st.walStore with
      | none => stateOf st op
      | some store => stateOf (restoreIntoJournal { st with walAccount := some account } account
          (store.loadOperations account)) op := by
  unfold restoreFromWal
  cases st.walStore with
  | none => rfl
  | some =>
    dsimp only
    split
    · rfl
    · exact stateOf_congr
        ((restoreCrossMint_journal _ (_, [])).trans (restoreDeposit_journal _ (_, []))) op

theorem live_restore {st : CashuWalletState} {op : String} (account : String)
    (h : isLive st op = true) : isLive (restoreFromWal st account).1 op = true := by
  have hsame : ∀ s, stateOf st op = some s → stateOf (restoreFromWal st account).1 op = some s := by
    intro s hstate
    rw [stateOf_restore]
    split
    · exact hstate
    · exact stateOf_restoreIntoJournal hstate
  unfold isLive at *
  cases hstate : stateOf st op with
  | none =>
    rw [hstate] at h
    cases h
  | some s =>
    rw [hsame s hstate, ← hstate]
    exact h

theorem mem_inFlight {store : WalletWalStore} {kind : WalletOperationKind}
    {row : String × CashuWalPayload} (h : row ∈ inFlight store account kind) :
    ∃ op ∈ store.loadOperations account, op.id = row.1 ∧ op.state.isTerminal = false := by
  obtain ⟨op, hop, hrow⟩ := List.mem_filterMap.mp h
  split at hrow
  next hopen =>
    obtain ⟨payload, -, rfl⟩ := Option.map_eq_some_iff.mp hrow
    exact ⟨op, hop, rfl, hopen.2⟩
  next => cases hrow

/-- The operations that a restore brings back are not over. -/
theorem live_reservedInLog {st : CashuWalletState} {row : Reservation}
    (h : row ∈ reservedInLog st account) : isLive (restoreFromWal st account).1 row.1 = true := by
  unfold reservedInLog at h
  rw [isLive, stateOf_restore]
  cases hstore : st.walStore with
  | none =>
    rw [hstore] at h
    cases h
  | some store =>
    rw [hstore] at h
    obtain ⟨hmem, hnew⟩ := List.mem_filter.mp h
    have hlogged : ∃ op ∈ store.loadOperations account, op.id = row.1 ∧
        op.state.isTerminal = false := by
      rcases List.mem_append.mp hmem with hmem | hmem
      · obtain ⟨⟨op, payload⟩, hrow, hlog⟩ := List.mem_filterMap.mp hmem
        cases payload <;> cases hlog
        exact mem_inFlight hrow
      · obtain ⟨⟨op, payload⟩, hrow, hlog⟩ := List.mem_filterMap.mp hmem
        cases payload <;> cases hlog
        exact mem_inFlight hrow
    obtain ⟨op, hop, hid, hopen⟩ := hlogged
    rw [← hid] at hnew ⊢
    exact live_restoreIntoJournal hop hopen (of_decide_eq_true hnew)

/-- An act keeps custody exclusive exactly when it does what it may. -/
theorem act_keeps_iff (hx : Exclusive (custody t)) (hlive : AllLive t) (act : Act) :
    Exclusive (custody (recordReserved t act)) ↔ Keeps t act := by
  change Exclusive ⟨storedCs (step t.1 act).state.proofs,
    (t.2 ++ reservedIn t.1 act).filter fun row => isLive (step t.1 act).state row.1⟩ ↔ Keeps t act
  have hquiet : reservedIn t.1 act = [] → (actEffect t.1 act).adds = [] →
      Exclusive ⟨storedCs (step t.1 act).state.proofs,
        (t.2 ++ reservedIn t.1 act).filter fun row => isLive (step t.1 act).state row.1⟩ := by
    intro hnone hadds
    rw [hnone, List.append_nil]
    cases hover : startsOver act with
    | true =>
      rw [(step_startsOver t.1 hover).1]
      exact hx.sublist (List.nil_sublist _) List.filter_sublist
    | false => exact exclusive_of_no_adds hx (step_applies t.1 hover) hadds _
  cases act with
  | resume account job answer now =>
    by_cases hjob : (account, job) ∈ t.1.jobs
    · have hstate : (step t.1 (.resume account job answer now)).state =
          (resumeJob t.1.state answer now job).state := by
        rw [step, if_pos hjob]
        rfl
      have hreserved : reservedIn t.1 (.resume account job answer now) =
          reservedBy t.1.state job := if_pos hjob
      rw [hstate, hreserved, job_keeps_iff hx hlive]
      exact ⟨fun h _ => h, fun h => h hjob⟩
    · refine iff_of_true (hquiet (if_neg hjob) ?_) fun h => absurd h hjob
      rw [actEffect, if_neg hjob]
      rfl
  | restore account =>
    have hproofs : (step t.1 (.restore account)).state.proofs = t.1.state.proofs :=
      (restoreFromWal_frame t.1.state account).1
    have hheld : (t.2 ++ reservedInLog t.1.state account).filter
        (fun row => isLive (step t.1 (.restore account)).state row.1) =
          t.2 ++ reservedInLog t.1.state account := by
      refine List.filter_eq_self.mpr fun row hrow => ?_
      rcases List.mem_append.mp hrow with hrow | hrow
      · exact live_restore account (hlive row hrow)
      · exact live_reservedInLog hrow
    rw [hproofs]
    change Exclusive ⟨_, (t.2 ++ reservedInLog t.1.state account).filter _⟩ ↔ _
    rw [hheld]
    exact exclusive_hold_iff hx
  | _ => exact iff_of_true (hquiet rfl rfl) trivial

theorem allLive_recordReserved (t : World × List Reservation) (act : Act) :
    AllLive (recordReserved t act) :=
  fun _ hrow => (List.mem_filter.mp hrow).2

/-- In every run of a fresh backend each proof is in one place, spendable or reserved by one
operation that is not over, exactly when every reservation takes what nobody has reserved and every
credit brings what is in no place. -/
theorem custody_exclusive_iff (walStore : Option WalletWalStore) (acts : List Act) :
    (∀ ys, ys <+: acts → Exclusive (custody (run recordReserved (.new walStore, []) ys))) ↔
      Meets recordReserved Keeps (.new walStore, []) acts := by
  have hstart : Exclusive (custody (World.new walStore, [])) ∧ AllLive (World.new walStore, []) :=
    ⟨exclusive_iff_nodup.mpr List.nodup_nil, fun row hrow => absurd hrow List.not_mem_nil⟩
  rw [← invariant_iff_meets (fun t => Exclusive (custody t) ∧ AllLive t)
    (fun t act ht => (and_iff_left (allLive_recordReserved t act)).trans
      (act_keeps_iff ht.1 ht.2 act)) hstart]
  refine forall₂_congr fun ys hys => (and_iff_left ?_).symm
  cases ys using List.reverseRecOn with
  | nil => exact hstart.2
  | append_singleton _ act =>
    rw [run_append]
    exact allLive_recordReserved _ act

def heldProof : Proof := ⟨8, "k", "s", "P"⟩

/-- A transfer up to its selection, made of the proof that is held. -/
def selecting (op target quote : String) : List Act :=
  [.startCrossMint "a" op target 4,
    .resume "a" (.crossBegin op target ["https://m"] 4 none) .none 0,
    .resume "a" (.crossQuote op target ["https://m"] 4 none) (.mintQuote quote 0) 0,
    .resume "a" (.crossWalk op target quote ["https://m"] 4 none) (.meltQuote "melt" 4 1) 0]

def reserving (op target quote : String) : Act :=
  .resume "a" (.crossSelected op target quote "https://m" "melt" 4 1
    [⟨some "1", "https://m", heldProof⟩] none) .none 0

/-- Two transfers select before either reserves. -/
def twoTransfers : List Act :=
  [.observe "a" ⟨"1", "https://m", [heldProof], []⟩,
    .resume "a" (.ingestToken ⟨"1", "https://m", [heldProof], []⟩) .none 0] ++
  selecting "x" "https://t" "q" ++ selecting "y" "https://u" "r" ++
  [reserving "x" "https://t" "q", reserving "y" "https://u" "r"]

theorem transfers_reserve_one_proof :
    (run recordReserved (World.new none, []) twoTransfers).2 = [("x", ["P"]), ("y", ["P"])] ∧
      ¬ Exclusive (custody (run recordReserved (World.new none, []) twoTransfers)) := by
  have hheld : (run recordReserved (World.new none, []) twoTransfers).2 =
      [("x", ["P"]), ("y", ["P"])] := by decide +kernel
  refine ⟨hheld, fun hx => ?_⟩
  have howners := hx.owners
  rw [custody, hheld] at howners
  exact (List.pairwise_cons.mp howners).1 ("y", ["P"]) List.mem_cons_self "P" List.mem_cons_self
    List.mem_cons_self

end WalletCustody
