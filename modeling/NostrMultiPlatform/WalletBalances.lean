import NostrMultiPlatform.Runs
import NostrMultiPlatform.WalletLedger

/-!
# The ledger in any order

What the ledger holds after a list of facts is read off the facts as a
collection: tombstones and spent verdicts absorb wherever they stand, and a token
event is live with the content its facts agree on. The balances follow, and so
does the rebuild from durable seeds.
-/
namespace WalletBalances

open Runs Tables WalletProof WalletLedger WalletDerivedState TokenRecord

/-- What a restart knows of the facts. -/
inductive HistoryFactSeed
  | tokenLive (tokenEvent mint unit : String) (proofs : List ProofAtom)
  | tokenTombstoned (tokenEvent : String) (cause : DeleteCause)
  | nutzapRedeemed (nutzap : String) (amountMsat : Nat) (sender : String)
  deriving DecidableEq, Repr

def applySeed (ledger : WalletDerivedState) : HistoryFactSeed → WalletDerivedState
  | .tokenLive tokenEvent mint unit proofs =>
    (ledger.applyTokenLive tokenEvent mint unit proofs).1
  | .tokenTombstoned tokenEvent cause => (ledger.applyTokenTombstone tokenEvent cause).1
  | .nutzapRedeemed nutzap amountMsat sender =>
    { ledger with redeemedNutzaps := ledger.redeemedNutzaps.insert nutzap (amountMsat, sender) }

/-- The state a rebuild starts from. -/
def rebuildFrom (seeds : List HistoryFactSeed) : WalletDerivedState := run applySeed .empty seeds

/-- The seed of a fact, if it is durable. -/
def seedOf : WalletFact → Option HistoryFactSeed
  | .tokenAdded tokenEvent mint unit proofs => some (.tokenLive tokenEvent mint unit proofs)
  | .tokenDeleted tokenEvent cause => some (.tokenTombstoned tokenEvent cause)
  | .nutzapRedeemed nutzap amountMsat sender => some (.nutzapRedeemed nutzap amountMsat sender)
  | .mintProbed _ _ | .sagaTransition _ _ _ | .stateRebuilt _ => none

/-- A proof atom counted into the totals, if it is spendable. -/
def countAtom (ledger : WalletDerivedState) (key : String × String)
    (totals : Table (String × String) Nat) (atom : ProofAtom) : Table (String × String) Nat :=
  if ledger.isSpendable atom.proof then
    totals.insert key (addU64 ((totals.lookup key).getD 0) atom.amountMsat)
  else totals

/-- The totals of every mint and unit with a spendable proof. -/
def balances (ledger : WalletDerivedState) : Table (String × String) Nat :=
  (values ledger.liveTokens).foldl
    (fun totals record => record.proofs.foldl (countAtom ledger (record.mint, record.unit)) totals) ∅

/-- The ledger after the facts in this order. -/
def foldAll (facts : List WalletFact) : WalletDerivedState :=
  run WalletDerivedState.apply .empty facts

/-- All token facts of one event carry the same content. -/
def Consistent (facts : List WalletFact) : Prop :=
  ∀ id m u ps m' u' ps', .tokenAdded id m u ps ∈ facts → .tokenAdded id m' u' ps' ∈ facts →
    m = m' ∧ u = u' ∧ ps = ps'

theorem foldAll_snoc (facts : List WalletFact) (fact : WalletFact) :
    foldAll (facts ++ [fact]) = (foldAll facts).apply fact := by
  simp [foldAll]

theorem Consistent.of_subset {facts facts' : List WalletFact} (h : Consistent facts')
    (hsub : ∀ f ∈ facts, f ∈ facts') : Consistent facts :=
  fun id m u ps m' u' ps' hf hf' => h id m u ps m' u' ps' (hsub _ hf) (hsub _ hf')

def deletes : WalletFact → Option String
  | .tokenDeleted tokenEvent _ => some tokenEvent
  | _ => none

@[simp] theorem deletes_tokenAdded (id mint unit : String) (proofs : List ProofAtom) :
    deletes (.tokenAdded id mint unit proofs) = none := rfl

variable {facts : List WalletFact} (ledger : WalletDerivedState) (fact : WalletFact) (id : String)

@[simp] theorem deletes_tokenDeleted (cause : DeleteCause) :
    deletes (.tokenDeleted id cause) = some id := rfl

@[simp] theorem deletes_mintProbed (c : String) (verdict : ProofVerdict) :
    deletes (.mintProbed c verdict) = none := rfl

@[simp] theorem deletes_nutzapRedeemed (nutzap : String) (amountMsat : Nat) (sender : String) :
    deletes (.nutzapRedeemed nutzap amountMsat sender) = none := rfl

@[simp] theorem deletes_sagaTransition (op : String) (source target : WalletJournal.WalletOperationState) :
    deletes (.sagaTransition op source target) = none := rfl

@[simp] theorem deletes_stateRebuilt (sources : List String) :
    deletes (.stateRebuilt sources) = none := rfl

def redeems : WalletFact → Option String
  | .nutzapRedeemed nutzap _ _ => some nutzap
  | _ => none

theorem isTokenTombstoned_apply :
    (ledger.apply fact).isTokenTombstoned id =
      (ledger.isTokenTombstoned id || deletes fact = some id) := by
  cases fact with
  | tokenAdded =>
    simp only [apply, fold, applyTokenLive]
    split <;> simp [isTokenTombstoned, deletes]
  | tokenDeleted tokenEvent =>
    simp only [apply, fold, applyTokenTombstone, isTokenTombstoned, lookup_insert_eq, deletes,
      Option.some.injEq]
    by_cases hid : id = tokenEvent
    · simp [hid]
    · simp [hid, Ne.symm hid]
  | mintProbed =>
    simp only [apply, fold, applyMintProbe]
    split <;> simp [isTokenTombstoned, deletes]
  | nutzapRedeemed => simp [apply, fold, isTokenTombstoned, deletes]
  | sagaTransition | stateRebuilt => simp [apply, fold, deletes]

theorem isNutzapRedeemed_apply (nutzap : String) :
    (ledger.apply fact).isNutzapRedeemed nutzap =
      (ledger.isNutzapRedeemed nutzap || redeems fact = some nutzap) := by
  cases fact with
  | tokenAdded =>
    simp only [apply, fold, applyTokenLive]
    split <;> simp [isNutzapRedeemed, redeems]
  | tokenDeleted =>
    simp [apply, fold, applyTokenTombstone, isNutzapRedeemed, redeems]
  | mintProbed =>
    simp only [apply, fold, applyMintProbe]
    split <;> simp [isNutzapRedeemed, redeems]
  | nutzapRedeemed redeemed =>
    simp only [apply, fold, isNutzapRedeemed, lookup_insert_eq, redeems, Option.some.injEq]
    by_cases hid : nutzap = redeemed
    · simp [hid]
    · simp [hid, Ne.symm hid]
  | sagaTransition | stateRebuilt => simp [apply, fold, redeems]

/-- What one fact does to the content of a live token event. -/
def liveAfter (ledger : WalletDerivedState) (id : String) : WalletFact → Option TokenRecord
  | .tokenAdded tokenEvent mint unit proofs =>
    if ledger.isTokenTombstoned tokenEvent then ledger.liveTokens.lookup id
    else if id = tokenEvent then some ⟨mint, unit, proofs⟩ else ledger.liveTokens.lookup id
  | .tokenDeleted tokenEvent _ => if id = tokenEvent then none else ledger.liveTokens.lookup id
  | _ => ledger.liveTokens.lookup id

theorem lookup_apply : (ledger.apply fact).liveTokens.lookup id = liveAfter ledger id fact := by
  cases fact with
  | tokenAdded =>
    simp only [apply, fold, applyTokenLive, liveAfter]
    split
    · rfl
    · exact lookup_insert_eq _ _ _ _
  | tokenDeleted => exact lookup_erase_eq _ _ _
  | mintProbed =>
    simp only [apply, fold, applyMintProbe, liveAfter]
    split <;> rfl
  | nutzapRedeemed | sagaTransition | stateRebuilt => rfl

theorem isTokenTombstoned_foldAll (facts : List WalletFact) (id : String) :
    (foldAll facts).isTokenTombstoned id = true ↔ ∃ f ∈ facts, deletes f = some id := by
  induction facts using List.reverseRecOn with
  | nil => simp [foldAll, isTokenTombstoned, WalletDerivedState.empty]
  | append_singleton _ _ ih =>
    rw [foldAll_snoc, isTokenTombstoned_apply, Bool.or_eq_true, ih, decide_eq_true_eq]
    simp [or_and_right, exists_or]

theorem isNutzapRedeemed_foldAll (facts : List WalletFact) (nutzap : String) :
    (foldAll facts).isNutzapRedeemed nutzap = true ↔ ∃ f ∈ facts, redeems f = some nutzap := by
  induction facts using List.reverseRecOn with
  | nil => simp [foldAll, isNutzapRedeemed, WalletDerivedState.empty]
  | append_singleton _ _ ih =>
    rw [foldAll_snoc, isNutzapRedeemed_apply, Bool.or_eq_true, ih, decide_eq_true_eq]
    simp [or_and_right, exists_or]

theorem isSpent_foldAll (facts : List WalletFact) (c : String) :
    (foldAll facts).isSpent c = true ↔ .mintProbed c .spent ∈ facts := by
  induction facts using List.reverseRecOn with
  | nil => simp [foldAll, isSpent, WalletDerivedState.empty]
  | append_singleton _ _ ih =>
    rw [foldAll_snoc, isSpent_apply, Bool.or_eq_true, ih, decide_eq_true_eq, List.mem_append,
      List.mem_singleton, eq_comm]

/-- A token event is live with the content of its facts unless one fact deletes it. -/
theorem lookup_foldAll (h : Consistent facts) (id : String) (record : TokenRecord) :
    (foldAll facts).liveTokens.lookup id = some record ↔
      .tokenAdded id record.mint record.unit record.proofs ∈ facts ∧
        ∀ f ∈ facts, deletes f ≠ some id := by
  induction facts using List.reverseRecOn with
  | nil => simp [foldAll, WalletDerivedState.empty]
  | append_singleton facts fact ih =>
    have ih := ih (h.of_subset fun f hf => List.mem_append_left _ hf)
    have hall : (∀ f ∈ facts ++ [fact], deletes f ≠ some id) ↔
        (∀ f ∈ facts, deletes f ≠ some id) ∧ deletes fact ≠ some id := by
      rw [List.forall_mem_append, List.forall_mem_singleton]
    rw [foldAll_snoc, lookup_apply, hall, List.mem_append, List.mem_singleton]
    cases fact with
    | tokenAdded tokenEvent =>
      have htomb := isTokenTombstoned_foldAll facts tokenEvent
      simp only [liveAfter, deletes_tokenAdded, ne_eq, reduceCtorEq, not_false_eq_true, and_true,
        WalletFact.tokenAdded.injEq]
      split
      next hdead =>
        rw [ih]
        obtain ⟨f, hf, hdeletes⟩ := htomb.mp hdead
        refine ⟨fun ⟨hmem, hno⟩ => ⟨.inl hmem, hno⟩, fun ⟨hmem, hno⟩ => ⟨hmem.resolve_right ?_, hno⟩⟩
        rintro ⟨rfl, -⟩
        exact hno f hf hdeletes
      next halive =>
        split
        next heq =>
          subst heq
          have hno : ∀ f ∈ facts, deletes f ≠ some id :=
            fun f hf hdeletes => halive (htomb.mpr ⟨f, hf, hdeletes⟩)
          constructor
          · intro hrecord
            obtain rfl := Option.some.inj hrecord
            exact ⟨.inr ⟨rfl, rfl, rfl, rfl⟩, hno⟩
          · rintro ⟨hmem | ⟨-, rfl, rfl, rfl⟩, -⟩
            · obtain ⟨rfl, rfl, rfl⟩ := h id _ _ _ _ _ _ (List.mem_append_left _ hmem)
                (List.mem_append_right _ (List.mem_singleton.mpr rfl))
              rfl
            · rfl
        next hne =>
          rw [ih]
          simp [hne]
    | tokenDeleted =>
      simp only [liveAfter, deletes_tokenDeleted, reduceCtorEq, or_false, ne_eq, Option.some.injEq]
      split
      next heq => simp [heq]
      next hne =>
        rw [ih]
        simp [Ne.symm hne]
    | mintProbed | nutzapRedeemed | sagaTransition | stateRebuilt => simpa [liveAfter] using ih

/-- What a token event adds to a balance. -/
def contribution (ledger : WalletDerivedState) (mint unit id : String) : Nat :=
  (ledger.liveTokens.lookup id).elim 0 fun record =>
    (spendableMsat ledger mint unit record).sum

/-- A balance adds up the contributions of any ids that include the live ones. -/
theorem balance_eq_sum (mint unit : String) {ids : Finset String}
    (h : ledger.liveTokens.keys.toFinset ⊆ ids) :
    ledger.balance mint unit = (∑ id ∈ ids, contribution ledger mint unit id) % u64Modulus := by
  rw [WalletDerivedState.balance, foldl_addU64 _ 0 (by decide), Nat.zero_add, List.flatMap,
    List.sum_flatten, List.map_map]
  refine congrArg (· % u64Modulus) ((sum_values ledger.liveTokens _).trans
    (Finset.sum_subset h fun id _ hid => ?_))
  rw [List.mem_toFinset, ← AList.mem_keys, ← lookup_none_iff] at hid
  rw [hid]
  rfl

theorem balance_congr {a b : WalletDerivedState} {mint unit : String}
    (h : ∀ id, contribution a mint unit id = contribution b mint unit id) :
    a.balance mint unit = b.balance mint unit := by
  rw [balance_eq_sum a mint unit (@Finset.subset_union_left _ _ _ b.liveTokens.keys.toFinset),
    balance_eq_sum b mint unit (@Finset.subset_union_right _ _ a.liveTokens.keys.toFinset _)]
  exact congrArg (· % u64Modulus) (Finset.sum_congr rfl fun id _ => h id)

theorem spendableMsat_congr {a b : WalletDerivedState} (h : ∀ c, a.isSpent c = b.isSpent c)
    (mint unit : String) (record : TokenRecord) :
    spendableMsat a mint unit record = spendableMsat b mint unit record := by
  simp only [spendableMsat, isSpendable, h]

theorem contribution_congr {a b : WalletDerivedState} (h : ∀ c, a.isSpent c = b.isSpent c)
    {id : String} (hlive : a.liveTokens.lookup id = b.liveTokens.lookup id) (mint unit : String) :
    contribution a mint unit id = contribution b mint unit id := by
  simp only [contribution, hlive, spendableMsat_congr h]

theorem lookup_foldl_countAtom (key other : String × String) (atoms : List ProofAtom)
    (totals : Table (String × String) Nat) :
    ((atoms.foldl (countAtom ledger other) totals).lookup key).getD 0 =
      ((if other = key then (atoms.filter fun atom => ledger.isSpendable atom.proof).map
        ProofAtom.amountMsat else []).foldl addU64 ((totals.lookup key).getD 0)) := by
  induction atoms generalizing totals with
  | nil => simp
  | cons atom _ ih =>
    rw [List.foldl_cons, ih]
    by_cases hspend : ledger.isSpendable atom.proof = true
    · by_cases hkey : other = key
      · subst hkey
        rw [List.filter_cons, if_pos hspend]
        simp [countAtom, hspend]
      · simp only [countAtom, if_pos hspend, if_neg hkey, lookup_insert_eq, if_neg (Ne.symm hkey)]
    · rw [List.filter_cons, if_neg hspend]
      simp only [countAtom, if_neg hspend]

theorem balance_eq_balances (mint unit : String) :
    ledger.balance mint unit = ((balances ledger).lookup (mint, unit)).getD 0 := by
  have hrows : ∀ (records : List TokenRecord) (totals : Table (String × String) Nat),
      ((records.foldl (fun totals record =>
        record.proofs.foldl (countAtom ledger (record.mint, record.unit)) totals)
          totals).lookup (mint, unit)).getD 0 =
        (records.flatMap (spendableMsat ledger mint unit)).foldl addU64
          ((totals.lookup (mint, unit)).getD 0) := by
    intro records
    induction records with
    | nil => exact fun _ => rfl
    | cons _ _ ih =>
      intro totals
      rw [List.foldl_cons, ih, lookup_foldl_countAtom, List.flatMap_cons, List.foldl_append]
      simp only [spendableMsat, Prod.mk.injEq]
  exact (hrows _ ∅).symm

/-- A fact that reports no change leaves every balance as it was. -/
theorem balance_unchanged {fact : WalletFact} (h : Consistent (facts ++ [fact]))
    (hflag : ((foldAll facts).fold fact).2 = false) (mint unit : String) :
    ((foldAll facts).apply fact).balance mint unit = (foldAll facts).balance mint unit := by
  have hspent : ∀ c, ((foldAll facts).apply fact).isSpent c = (foldAll facts).isSpent c := by
    intro c
    rw [isSpent_apply]
    by_cases hfact : fact = .mintProbed c .spent
    · subst hfact
      simp only [fold, applyMintProbe] at hflag
      split at hflag
      next hspent => simp [hspent]
      · cases hflag
    · simp [hfact]
  refine balance_congr fun id => ?_
  by_cases hlive : ((foldAll facts).apply fact).liveTokens.lookup id =
      (foldAll facts).liveTokens.lookup id
  · exact contribution_congr hspent hlive mint unit
  · -- only a token without proofs changes its row unreported
    rw [lookup_apply] at hlive
    cases fact with
    | tokenAdded _ m u proofs =>
      simp only [liveAfter] at hlive
      split at hlive
      · exact absurd rfl hlive
      next halive =>
        split at hlive
        next heq =>
          subst heq
          have hempty : proofs = [] := by
            simpa only [fold, applyTokenLive, if_neg halive, Bool.not_eq_false',
              List.isEmpty_iff] using hflag
          subst hempty
          have hafter : ((foldAll facts).apply (.tokenAdded id m u [])).liveTokens.lookup id =
              some ⟨m, u, []⟩ := by
            rw [lookup_apply, liveAfter, if_neg halive, if_pos rfl]
          cases hbefore : (foldAll facts).liveTokens.lookup id with
          | none => simp [contribution, hafter, hbefore, spendableMsat]
          | some record =>
            have hmem := ((lookup_foldAll (h.of_subset fun f hf => List.mem_append_left _ hf) id
              record).mp hbefore).1
            obtain ⟨-, -, hproofs⟩ := h id _ _ _ _ _ _ (List.mem_append_left _ hmem)
              (List.mem_append_right _ (List.mem_singleton.mpr rfl))
            simp [contribution, hafter, hbefore, spendableMsat, hproofs]
        · exact absurd rfl hlive
    | tokenDeleted =>
      simp only [liveAfter] at hlive
      split at hlive
      next heq =>
        subst heq
        have hnone : (foldAll facts).liveTokens.lookup id = none := by
          simpa [fold, applyTokenTombstone, isTokenLive] using hflag
        exact absurd hnone.symm hlive
      · exact absurd rfl hlive
    | mintProbed | nutzapRedeemed | sagaTransition | stateRebuilt => exact absurd rfl hlive

theorem Consistent.perm {facts facts' : List WalletFact} (h : Consistent facts)
    (hperm : facts.Perm facts') : Consistent facts' :=
  h.of_subset fun _ hf => hperm.symm.subset hf

theorem lookup_foldAll_perm {facts facts' : List WalletFact} (h : Consistent facts)
    (hperm : facts.Perm facts') (id : String) :
    (foldAll facts).liveTokens.lookup id = (foldAll facts').liveTokens.lookup id := by
  refine Option.ext fun record => ?_
  rw [lookup_foldAll h, lookup_foldAll (h.perm hperm)]
  simp only [hperm.mem_iff]

/-- The fact a durable seed stands for. -/
def factOf : HistoryFactSeed → WalletFact
  | .tokenLive tokenEvent mint unit proofs => .tokenAdded tokenEvent mint unit proofs
  | .tokenTombstoned tokenEvent cause => .tokenDeleted tokenEvent cause
  | .nutzapRedeemed nutzap amountMsat sender => .nutzapRedeemed nutzap amountMsat sender

/-- A rebuild folds the facts of its seeds. -/
theorem rebuildFrom_eq (seeds : List HistoryFactSeed) :
    rebuildFrom seeds = foldAll (seeds.map factOf) := by
  simp only [rebuildFrom, foldAll, run, List.foldl_map]
  refine congrFun (congrFun (congrArg _ ?_) _) _
  funext ledger seed
  cases seed <;> rfl

theorem factOf_of_seedOf {fact : WalletFact} {seed : HistoryFactSeed} (h : seedOf fact = some seed) :
    factOf seed = fact := by
  cases fact with
  | tokenAdded | tokenDeleted | nutzapRedeemed => obtain rfl := Option.some.inj h; rfl
  | mintProbed | sagaTransition | stateRebuilt => cases h

/-- The facts of the corresponding seeds are the durable facts. -/
theorem mem_map_factOf {seeds : List HistoryFactSeed} (h : seeds.Perm (facts.filterMap seedOf))
    (fact : WalletFact) : fact ∈ seeds.map factOf ↔ fact ∈ facts ∧ (seedOf fact).isSome := by
  simp only [List.mem_map, h.mem_iff, List.mem_filterMap]
  constructor
  · rintro ⟨seed, ⟨fact', hfact, hseed⟩, rfl⟩
    rw [factOf_of_seedOf hseed]
    exact ⟨hfact, by rw [hseed]; rfl⟩
  · rintro ⟨hfact, hsome⟩
    obtain ⟨seed, hseed⟩ := Option.isSome_iff_exists.mp hsome
    exact ⟨seed, ⟨fact, hfact, hseed⟩, factOf_of_seedOf hseed⟩

theorem rebuildFrom_live {seeds : List HistoryFactSeed} (h : Consistent facts)
    (hseeds : seeds.Perm (facts.filterMap seedOf)) (id : String) :
    (rebuildFrom seeds).liveTokens.lookup id = (foldAll facts).liveTokens.lookup id ∧
      (rebuildFrom seeds).isTokenTombstoned id = (foldAll facts).isTokenTombstoned id := by
  have hmem := mem_map_factOf hseeds
  have hcons : Consistent (seeds.map factOf) := h.of_subset fun f hf => ((hmem f).mp hf).1
  have hdeletes : ∀ f, deletes f = some id → (seedOf f).isSome := by
    intro f hf
    cases f <;> simp_all [seedOf]
  rw [rebuildFrom_eq]
  constructor
  · refine Option.ext fun record => ?_
    rw [lookup_foldAll hcons, lookup_foldAll h, hmem]
    refine and_congr (by simp [seedOf]) ?_
    exact ⟨fun hno f hf hd => hno f ((hmem f).mpr ⟨hf, hdeletes f hd⟩) hd,
      fun hno f hf => hno f ((hmem f).mp hf).1⟩
  · rw [Bool.eq_iff_iff, isTokenTombstoned_foldAll, isTokenTombstoned_foldAll]
    exact ⟨fun ⟨f, hf, hd⟩ => ⟨f, ((hmem f).mp hf).1, hd⟩,
      fun ⟨f, hf, hd⟩ => ⟨f, (hmem f).mpr ⟨hf, hdeletes f hd⟩, hd⟩⟩

/-- Two orders of the same consistent facts leave the same live and tombstoned tokens, spent proofs,
redeemed nutzaps and balances. The two balance functions coincide, a fact that reports no change
makes none, and a rebuild from the seeds of the facts has the same tokens. -/
theorem ledger_confluence (facts facts' : List WalletFact) (hcons : Consistent facts)
    (hperm : facts.Perm facts') :
    (∀ id, (foldAll facts).liveTokens.lookup id = (foldAll facts').liveTokens.lookup id ∧
      (foldAll facts).isTokenTombstoned id = (foldAll facts').isTokenTombstoned id) ∧
    (∀ c, (foldAll facts).isSpent c = (foldAll facts').isSpent c) ∧
    (∀ nutzap, (foldAll facts).isNutzapRedeemed nutzap = (foldAll facts').isNutzapRedeemed nutzap) ∧
    (∀ mint unit, (foldAll facts).balance mint unit = (foldAll facts').balance mint unit) ∧
    (∀ mint unit, (foldAll facts).balance mint unit =
      ((balances (foldAll facts)).lookup (mint, unit)).getD 0) ∧
    (∀ before fact after, facts = before ++ fact :: after →
      ((foldAll before).fold fact).2 = false →
        ∀ mint unit, (foldAll (before ++ [fact])).balance mint unit =
          (foldAll before).balance mint unit) ∧
    (∀ seeds, seeds.Perm (facts.filterMap seedOf) →
      ∀ id, (rebuildFrom seeds).liveTokens.lookup id = (foldAll facts).liveTokens.lookup id ∧
        (rebuildFrom seeds).isTokenTombstoned id = (foldAll facts).isTokenTombstoned id) := by
  have htomb : ∀ id, (foldAll facts).isTokenTombstoned id = (foldAll facts').isTokenTombstoned id := by
    intro id
    rw [Bool.eq_iff_iff, isTokenTombstoned_foldAll, isTokenTombstoned_foldAll]
    simp only [hperm.mem_iff]
  have hspent : ∀ c, (foldAll facts).isSpent c = (foldAll facts').isSpent c := by
    intro c
    rw [Bool.eq_iff_iff, isSpent_foldAll, isSpent_foldAll, hperm.mem_iff]
  refine ⟨fun id => ⟨lookup_foldAll_perm hcons hperm id, htomb id⟩, hspent, fun nutzap => ?_,
    fun mint unit => ?_, fun mint unit => balance_eq_balances _ mint unit,
    fun before fact after hsplit hflag mint unit => ?_,
    fun seeds hseeds id => rebuildFrom_live hcons hseeds id⟩
  · rw [Bool.eq_iff_iff, isNutzapRedeemed_foldAll, isNutzapRedeemed_foldAll]
    simp only [hperm.mem_iff]
  · exact balance_congr fun id =>
      contribution_congr hspent (lookup_foldAll_perm hcons hperm id) mint unit
  · rw [foldAll_snoc]
    refine balance_unchanged (hcons.of_subset fun f hf => ?_) hflag mint unit
    rw [hsplit]
    rcases List.mem_append.mp hf with hf | hf
    · exact List.mem_append_left _ hf
    · rw [List.mem_singleton.mp hf]
      exact List.mem_append_right _ List.mem_cons_self

/-- A deletion read before its token event, a spent proof, and the same facts in another order. -/
theorem ledger_confluence_late_add :
    (foldAll [.tokenAdded "t1" "m" "sat" [⟨"c1", 1000⟩, ⟨"c2", 2000⟩],
        .tokenAdded "t2" "m" "sat" [⟨"c3", 4000⟩], .mintProbed "c2" .spent,
        .tokenDeleted "t2" (.nip09Delete "d")]).balance "m" "sat" =
      (foldAll [.tokenDeleted "t2" (.nip09Delete "d"), .tokenAdded "t2" "m" "sat" [⟨"c3", 4000⟩],
        .mintProbed "c2" .spent,
        .tokenAdded "t1" "m" "sat" [⟨"c1", 1000⟩, ⟨"c2", 2000⟩]]).balance "m" "sat" := by
  refine (ledger_confluence _ _ ?_ (by decide)).2.2.2.1 "m" "sat"
  intro id m u ps m' u' ps' h h'
  simp only [List.mem_cons, WalletFact.tokenAdded.injEq, reduceCtorEq, List.not_mem_nil,
    or_false] at h h'
  rcases h with ⟨rfl, rfl, rfl, rfl⟩ | ⟨rfl, rfl, rfl, rfl⟩ <;>
    simp_all

end WalletBalances
