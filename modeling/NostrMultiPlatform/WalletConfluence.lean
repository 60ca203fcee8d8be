import Mathlib.Algebra.BigOperators.ModEq
import NostrMultiPlatform.Supersession
import NostrMultiPlatform.WalletIngest

/-!
# Ingestion in any order

A token event is a source: its items are the proofs it carries, and it strikes
the events its `del` list names. The state after an ingestion run reflects the
book of the sources read in that order, so which proofs are held, and under which
event each is credited, are read off the book.
-/
namespace WalletConfluence

open Runs Tables Supersession WalletProof WalletLedger WalletState WalletIngest Book

/-- The state after ingesting the events in this order, from a fresh wallet. -/
def ingestAll (events : List TokenEvent) : CashuWalletState :=
  run (fun st e => (ingestTokenEvent st e).1) (.new none) events

/-- An order of ingestion, with repetitions. -/
def Orders (events xs : List TokenEvent) : Prop := ∀ e, e ∈ xs ↔ e ∈ events

/-- Ids tell events apart. -/
def Distinct (events : List TokenEvent) : Prop := ∀ e ∈ events, ∀ f ∈ events, e.id = f.id → e = f

/-- No event of the set lists it in `del`. -/
def Stays (events : List TokenEvent) (e : TokenEvent) : Prop :=
  e ∈ events ∧ ∀ f ∈ events, e.id ∉ f.del

def SameProofs (events : List TokenEvent) : Prop :=
  ∀ xs ys, Orders events xs → Orders events ys →
    ∀ c, c ∈ storedCs (ingestAll xs).proofs ↔ c ∈ storedCs (ingestAll ys).proofs

def SameBalances (events : List TokenEvent) : Prop :=
  ∀ xs ys, Orders events xs → Orders events ys →
    ∀ mint unit, (ingestAll xs).ledger.balance mint unit = (ingestAll ys).ledger.balance mint unit

def OrderIndependent (events : List TokenEvent) : Prop :=
  SameProofs events ∧ SameBalances events

/-- Where a replaced event shares a proof with events that stay, one of these replaces it. -/
def ReplacedByCarrier (events : List TokenEvent) : Prop :=
  ∀ x ∈ events, (∃ f ∈ events, x.id ∈ f.del) → x.id ∉ x.del → ∀ c ∈ proofCs x.proofs,
    (∃ e, Stays events e ∧ c ∈ proofCs e.proofs) →
      ∃ f, Stays events f ∧ c ∈ proofCs f.proofs ∧ x.id ∈ f.del

/-- What an event credits for a proof name at a mint. -/
def creditAt (mint : String) (e : TokenEvent) (c : String) : Nat :=
  if canonicalizeMintUrl e.mint = mint then
    ((e.proofs.filter fun p => p.c = c).map fun p => msatOf p.amount).sum
  else 0

/-- Events that stay and share a proof credit it alike at every mint. -/
def CreditAlike (events : List TokenEvent) : Prop :=
  ∀ e f, Stays events e → Stays events f → ∀ c ∈ proofCs e.proofs, c ∈ proofCs f.proofs →
    ∀ mint, creditAt mint e c ≡ creditAt mint f c [MOD u64Modulus]

def source (e : TokenEvent) : Source String String := ⟨e.id, proofCs e.proofs, e.del⟩

/-- The proofs of an event the book credits to it. -/
def creditedProofs (b : Book String String) (e : TokenEvent) : List Proof :=
  e.proofs.filter fun p => b.owner p.c = some e.id

def recordOf (b : Book String String) (e : TokenEvent) : TokenRecord :=
  ⟨canonicalizeMintUrl e.mint, sat, proofAtoms (creditedProofs b e)⟩

/-- The state is the book: what is struck, held, live and credited. -/
structure Reflects (events : List TokenEvent) (st : CashuWalletState) (b : Book String String) :
    Prop where
  struck : ∀ id, st.ledger.isTokenTombstoned id = true ↔ id ∈ b.dead
  held : ∀ s ∈ st.proofs, ∃ id, s.tokenEvent = some id ∧ b.owner s.proof.c = some id
  owned : ∀ c id, b.owner c = some id → ∃ s ∈ st.proofs, s.proof.c = c ∧ s.tokenEvent = some id
  live : ∀ id, st.ledger.isTokenLive id = true ↔ b.Live id
  credited : ∀ e ∈ events, ∀ row, st.ledger.liveTokens.lookup e.id = some row →
    row = recordOf b e
  unprobed : ∀ c, st.ledger.isSpent c = false

theorem reflects_new (events : List TokenEvent) : Reflects events (.new none) .empty where
  struck id := ⟨fun h => (Bool.false_ne_true h).elim, fun h => h.elim⟩
  held s hs := by cases hs
  owned c id h := by cases h
  live id := ⟨fun h => (Bool.false_ne_true h).elim, fun ⟨_, h⟩ => (Option.some_ne_none _ h.symm).elim⟩
  credited e _ row h := by cases h
  unprobed c := rfl

variable {b : Book String String} {events : List TokenEvent} {st : CashuWalletState}
  {e : TokenEvent}

theorem Reflects.mem_storedCs (h : Reflects events st b) (c : String) :
    c ∈ storedCs st.proofs ↔ b.owner c ≠ none := by
  constructor
  · intro hc
    obtain ⟨s, hs, rfl⟩ := List.mem_map.mp hc
    obtain ⟨id, -, hid⟩ := h.held s hs
    simp [hid]
  · intro hc
    obtain ⟨id, hid⟩ := Option.ne_none_iff_exists'.mp hc
    obtain ⟨s, hs, rfl, -⟩ := h.owned c id hid
    exact List.mem_map_of_mem hs

theorem reflects_tombstone (h : Reflects events st b) (by_ old : String) :
    Reflects events (tombstone by_ st old) (b.strike [old]) where
  struck id := by
    have := h.struck id
    simp only [WalletDerivedState.isTokenTombstoned] at this
    by_cases hid : id = old <;>
      simp [tombstone, CashuWalletState.applyFact, CashuWalletState.removeProofsForTokenEvent,
        WalletDerivedState.apply, WalletDerivedState.fold, WalletDerivedState.applyTokenTombstone,
        WalletDerivedState.isTokenTombstoned, lookup_insert_eq, strike_dead, hid, this]
  held s hs := by
    obtain ⟨hs, hne⟩ := List.mem_filter.mp hs
    obtain ⟨id, hid, hown⟩ := h.held s hs
    have hother : id ≠ old := by
      rintro rfl
      simp [hid] at hne
    exact ⟨id, hid, strike_owner.mpr ⟨hown, by simpa using hother⟩⟩
  owned c id hown := by
    obtain ⟨hown, hother⟩ := strike_owner.mp hown
    obtain ⟨s, hs, hc, hid⟩ := h.owned c id hown
    exact ⟨s, List.mem_filter.mpr ⟨hs, by simpa [hid] using hother⟩, hc, hid⟩
  live id := by
    have hlookup : (tombstone by_ st old).ledger.isTokenLive id = true ↔
        id ≠ old ∧ st.ledger.isTokenLive id = true := by
      by_cases hid : id = old <;>
        simp [tombstone, CashuWalletState.applyFact, CashuWalletState.removeProofsForTokenEvent,
          WalletDerivedState.apply, WalletDerivedState.fold,
          WalletDerivedState.applyTokenTombstone, WalletDerivedState.isTokenLive,
          lookup_erase_eq, hid]
    rw [hlookup, h.live id]
    constructor
    · rintro ⟨hother, c, hown⟩
      exact ⟨c, strike_owner.mpr ⟨hown, by simpa using hother⟩⟩
    · rintro ⟨c, hown⟩
      obtain ⟨hown, hother⟩ := strike_owner.mp hown
      exact ⟨by simpa using hother, c, hown⟩
  credited e he row hrow := by
    have herase : (tombstone by_ st old).ledger.liveTokens = st.ledger.liveTokens.erase old := rfl
    rw [herase, lookup_erase_eq] at hrow
    split at hrow
    · cases hrow
    next hother =>
      rw [h.credited e he row hrow]
      have hfilter : creditedProofs (b.strike [old]) e = creditedProofs b e := by
        refine List.filter_congr fun p _ => decide_eq_decide.mpr ?_
        rw [strike_owner]
        simp [hother]
      rw [recordOf, recordOf, hfilter]
  unprobed c := h.unprobed c

theorem reflects_del (h : Reflects events st b) (by_ : String) (del : List String) :
    Reflects events (del.foldl (tombstone by_) st) (b.strike del) := by
  induction del generalizing st b with
  | nil => rwa [strike_nil]
  | cons old _ ih =>
    rw [strike_cons]
    exact ih (reflects_tombstone h by_ old)

theorem reflects_claim {fresh : List Proof} (hids : ∀ f ∈ events, f.id = e.id → f = e)
    (h : Reflects events st b) (hdead : e.id ∉ b.dead) (hlive : ¬ b.Live e.id)
    (hfresh : fresh = e.proofs.filter fun p => p.c ∉ storedCs st.proofs) (hsome : fresh ≠ []) :
    Reflects events
      ((st.applyFact (.tokenAdded e.id (canonicalizeMintUrl e.mint) sat (proofAtoms fresh))).addProofs
        (some e.id) (canonicalizeMintUrl e.mint) fresh) (b.claim (source e)) := by
  have hfree : ∀ p, p ∈ fresh ↔ p ∈ e.proofs ∧ b.owner p.c = none := fun p => by
    rw [hfresh, List.mem_filter]
    simp [h.mem_storedCs]
  have htakes : ∀ p ∈ fresh, (b.claim (source e)).owner p.c = some e.id := fun p hp =>
    claim_takes hdead hlive (List.mem_map_of_mem ((hfree p).mp hp).1) ((hfree p).mp hp).2
  have htomb : st.ledger.isTokenTombstoned e.id = false :=
    Bool.eq_false_iff.mpr fun ht => hdead ((h.struck e.id).mp ht)
  have htokens : (st.ledger.apply (.tokenAdded e.id (canonicalizeMintUrl e.mint) sat
      (proofAtoms fresh))) = { st.ledger with
        liveTokens := st.ledger.liveTokens.insert e.id
          ⟨canonicalizeMintUrl e.mint, sat, proofAtoms fresh⟩ } := by
    simp [WalletDerivedState.apply, WalletDerivedState.fold, WalletDerivedState.applyTokenLive, htomb]
  refine ⟨fun id => ?_, fun s hs => ?_, fun c id hown => ?_, fun id => ?_, fun f hf row hrow => ?_,
    fun c => ?_⟩
  · rw [claim_dead, ← h.struck id]
    simp [CashuWalletState.addProofs, CashuWalletState.applyFact, htokens,
      WalletDerivedState.isTokenTombstoned]
  · rcases List.mem_append.mp hs with hs | hs
    · obtain ⟨id, hid, hown⟩ := h.held s hs
      exact ⟨id, hid, claim_owner_of_owned hown⟩
    · obtain ⟨p, hp, rfl⟩ := List.mem_map.mp hs
      exact ⟨e.id, rfl, htakes p hp⟩
  · rcases claim_owner hown with hold | ⟨rfl, hc, -, hnone⟩
    · obtain ⟨s, hs, hc, hid⟩ := h.owned c id hold
      exact ⟨s, List.mem_append_left _ hs, hc, hid⟩
    · obtain ⟨p, hp, rfl⟩ := List.mem_map.mp hc
      exact ⟨_, List.mem_append_right _ (List.mem_map_of_mem ((hfree p).mpr ⟨hp, hnone⟩)), rfl, rfl⟩
  · have hlookup : (st.ledger.apply (.tokenAdded e.id (canonicalizeMintUrl e.mint) sat
        (proofAtoms fresh))).isTokenLive id = true ↔ id = e.id ∨ st.ledger.isTokenLive id = true := by
      by_cases hid : id = e.id <;>
        simp [htokens, WalletDerivedState.isTokenLive, lookup_insert_eq, hid]
    show (st.ledger.apply _).isTokenLive id = true ↔ _
    rw [hlookup, h.live id]
    constructor
    · rintro (rfl | ⟨c, hc⟩)
      · obtain ⟨p, hp⟩ := List.exists_mem_of_ne_nil _ hsome
        exact ⟨p.c, htakes p hp⟩
      · exact ⟨c, claim_owner_of_owned hc⟩
    · rintro ⟨c, hc⟩
      rcases claim_owner hc with hold | ⟨rfl, -⟩
      · exact .inr ⟨c, hold⟩
      · exact .inl rfl
  · have hsame : ∀ g : TokenEvent, g.id ≠ e.id →
        creditedProofs (b.claim (source e)) g = creditedProofs b g := fun g hne => by
      refine List.filter_congr fun p _ => decide_eq_decide.mpr ⟨fun hown => ?_, claim_owner_of_owned⟩
      rcases claim_owner hown with hold | ⟨hid, -⟩
      · exact hold
      · exact absurd hid hne
    have hrow' : (st.ledger.liveTokens.insert e.id
        ⟨canonicalizeMintUrl e.mint, sat, proofAtoms fresh⟩).lookup f.id = some row := by
      have : (st.ledger.apply (.tokenAdded e.id (canonicalizeMintUrl e.mint) sat
        (proofAtoms fresh))).liveTokens.lookup f.id = some row := hrow
      rwa [htokens] at this
    rw [lookup_insert_eq] at hrow'
    split at hrow'
    next hid =>
      obtain rfl := hids f hf hid
      obtain rfl := Option.some.inj hrow'
      have hfilter : creditedProofs (b.claim (source f)) f = fresh := by
        rw [hfresh]
        refine List.filter_congr fun p hp => decide_eq_decide.mpr ?_
        rw [h.mem_storedCs, not_not]
        constructor
        · intro hown
          rcases claim_owner hown with hold | ⟨-, -, -, hnone⟩
          · exact absurd ⟨p.c, hold⟩ hlive
          · exact hnone
        · exact fun hnone => claim_takes hdead hlive (List.mem_map_of_mem hp) hnone
      rw [recordOf, hfilter]
    next hne =>
      rw [h.credited f hf row hrow', recordOf, recordOf, hsame f hne]
  · show (st.ledger.apply _).isSpent c = false
    rw [WalletDerivedState.isSpent_apply, h.unprobed c]
    simp

theorem reflects_ingest (hids : ∀ f ∈ events, f.id = e.id → f = e) (h : Reflects events st b) :
    Reflects events (ingestTokenEvent st e).1 (b.read (source e)) := by
  have hdel := reflects_del h e.id e.del
  simp only [ingestTokenEvent]
  split
  next hknown =>
    have hclosed : (b.strike e.del).claim (source e) = b.strike e.del := by
      rw [claim, if_pos]
      rcases Bool.or_eq_true _ _ |>.mp hknown with hlive | hdead
      · exact .inr ((hdel.live e.id).mp hlive)
      · exact .inl ((hdel.struck e.id).mp hdead)
    show Reflects events _ ((b.strike e.del).claim (source e))
    rw [hclosed]
    exact hdel
  next hopen =>
    obtain ⟨hlive, hdead⟩ := Bool.or_eq_false_iff.mp (Bool.eq_false_iff.mpr hopen)
    have hlive : ¬ (b.strike e.del).Live e.id := fun hl => by
      rw [(hdel.live e.id).mpr hl] at hlive
      cases hlive
    have hdead : e.id ∉ (b.strike e.del).dead := fun hd => by
      rw [(hdel.struck e.id).mpr hd] at hdead
      cases hdead
    split
    next hnone =>
      have hheld : (b.strike e.del).claim (source e) = b.strike e.del := by
        refine claim_eq_self fun c hc hfree => ?_
        obtain ⟨p, hp, rfl⟩ := List.mem_map.mp hc
        have : p ∈ e.proofs.filter fun p => p.c ∉ storedCs (e.del.foldl (tombstone e.id) st).proofs :=
          List.mem_filter.mpr ⟨hp, by simpa [hdel.mem_storedCs] using hfree⟩
        rw [hnone] at this
        cases this
      show Reflects events _ ((b.strike e.del).claim (source e))
      rw [hheld]
      exact hdel
    next hsome => exact reflects_claim hids hdel hdead hlive rfl hsome

/-- Every ingestion run reflects the book of its sources. -/
theorem reflects_ingestAll {events xs : List TokenEvent}
    (hids : Distinct events) (hsub : ∀ e ∈ xs, e ∈ events) :
    Reflects events (ingestAll xs) (readAll (xs.map source)) := by
  induction xs using List.reverseRecOn with
  | nil => exact reflects_new events
  | append_singleton _ e ih =>
    rw [List.map_append, List.map_singleton, readAll_concat, ingestAll, run_append]
    exact reflects_ingest (fun f hf hid => hids f hf e (hsub e (by simp)) hid)
      (ih fun f hf => hsub f (by simp [hf]))

theorem named_source (hids : Distinct events) : Named (events.map source) := by
  intro s hs t ht hname
  obtain ⟨e, he, rfl⟩ := List.mem_map.mp hs
  obtain ⟨f, hf, rfl⟩ := List.mem_map.mp ht
  exact congrArg source (hids e he f hf hname)

theorem mem_killed_source {id : String} :
    id ∈ killed (events.map source) ↔ ∃ f ∈ events, id ∈ f.del := by
  simp [mem_killed, source]

theorem survives_source {s : Source String String} :
    Survives (events.map source) s ↔ ∃ e, Stays events e ∧ source e = s := by
  constructor
  · rintro ⟨hs, hlive⟩
    obtain ⟨e, he, rfl⟩ := List.mem_map.mp hs
    exact ⟨e, ⟨he, fun f hf hk => hlive (mem_killed_source.mpr ⟨f, hf, hk⟩)⟩, rfl⟩
  · rintro ⟨e, ⟨he, hstays⟩, rfl⟩
    refine ⟨List.mem_map_of_mem he, fun hdead => ?_⟩
    obtain ⟨f, hf, hk⟩ := mem_killed_source.mp hdead
    exact hstays f hf hk

theorem carried_source (c : String) :
    (∃ s, Survives (events.map source) s ∧ c ∈ s.items) ↔
      ∃ e, Stays events e ∧ c ∈ proofCs e.proofs := by
  constructor
  · rintro ⟨s, hs, hc⟩
    obtain ⟨e, he, rfl⟩ := survives_source.mp hs
    exact ⟨e, he, hc⟩
  · rintro ⟨e, he, hc⟩
    exact ⟨source e, survives_source.mpr ⟨e, he, rfl⟩, hc⟩

theorem rescued_source : Rescued (events.map source) ↔ ReplacedByCarrier events := by
  constructor
  · intro h x hx hdoomed hself c hc hcarried
    obtain ⟨s, hs, hitem, hkills⟩ := h (source x) (List.mem_map_of_mem hx)
      (mem_killed_source.mpr hdoomed) hself c hc ((carried_source c).mpr hcarried)
    obtain ⟨f, hf, rfl⟩ := survives_source.mp hs
    exact ⟨f, hf, hitem, hkills⟩
  · intro h s hs hdoomed hself c hc hcarried
    obtain ⟨x, hx, rfl⟩ := List.mem_map.mp hs
    obtain ⟨f, hf, hitem, hkills⟩ := h x hx (mem_killed_source.mp hdoomed) hself c hc
      ((carried_source c).mp hcarried)
    exact ⟨source f, survives_source.mpr ⟨f, hf, rfl⟩, hitem, hkills⟩

theorem Orders.source {events xs : List TokenEvent} (h : Orders events xs) :
    Order (events.map source) (xs.map source) := fun s => by
  simp only [List.mem_map, h _]

/-- Every order of the sources is the reading of an order of the events. -/
theorem exists_orders (hids : Distinct events) {ss : List (Source String String)}
    (h : Order (events.map source) ss) : ∃ xs, Orders events xs ∧ xs.map source = ss := by
  have hpreimage : ∀ ss : List (Source String String), (∀ s ∈ ss, s ∈ events.map source) →
      ∃ xs : List TokenEvent, (∀ e ∈ xs, e ∈ events) ∧ xs.map source = ss := by
    intro ss hss
    induction ss with
    | nil => exact ⟨[], by simp, rfl⟩
    | cons s _ ih =>
      obtain ⟨xs, hxs, rfl⟩ := ih fun t ht => hss t (List.mem_cons_of_mem s ht)
      obtain ⟨e, he, rfl⟩ := List.mem_map.mp (hss s List.mem_cons_self)
      exact ⟨e :: xs, by simpa using ⟨he, hxs⟩, rfl⟩
  obtain ⟨xs, hxs, rfl⟩ := hpreimage ss fun s hs => (h s).mp hs
  refine ⟨xs, fun e => ⟨hxs e, fun he => ?_⟩, rfl⟩
  obtain ⟨f, hf, hsame⟩ := List.mem_map.mp ((h (WalletConfluence.source e)).mpr
    (List.mem_map_of_mem he))
  have hid : f.id = e.id := congrArg Source.name hsame
  exact hids f (hxs f hf) e he hid ▸ hf

theorem held_iff_owned {events xs : List TokenEvent} (hids : Distinct events)
    (h : Orders events xs) (c : String) :
    c ∈ storedCs (ingestAll xs).proofs ↔ (readAll (xs.map source)).owner c ≠ none :=
  (reflects_ingestAll hids fun e he => (h e).mp he).mem_storedCs c

/-- All orders hold the same proofs exactly when replaced events are replaced by a carrier. -/
theorem sameProofs_iff (hids : Distinct events) : SameProofs events ↔ ReplacedByCarrier events := by
  rw [← rescued_source, ← same_owned_iff (named_source hids)]
  constructor
  · intro h ss ts hss hts c
    obtain ⟨xs, hxs, rfl⟩ := exists_orders hids hss
    obtain ⟨ys, hys, rfl⟩ := exists_orders hids hts
    rw [← held_iff_owned hids hxs, ← held_iff_owned hids hys]
    exact h xs ys hxs hys c
  · intro h xs ys hxs hys c
    rw [held_iff_owned hids hxs, held_iff_owned hids hys]
    exact h _ _ hxs.source hys.source c

/-- The proof names the events carry. -/
def carriedNames (events : List TokenEvent) : Finset String :=
  (events.flatMap fun e => proofCs e.proofs).toFinset

/-- What the owner of a proof credits for it. -/
def creditOf (events : List TokenEvent) (mint : String) (owner : Option String) (c : String) : Nat :=
  match owner.bind fun id => events.find? (·.id = id) with
  | none => 0
  | some e => creditAt mint e c

theorem creditOf_event (hids : Distinct events) (he : e ∈ events) (mint c : String) :
    creditOf events mint (some e.id) c = creditAt mint e c := by
  have hfind : events.find? (·.id = e.id) = some e := by
    cases hf : events.find? (·.id = e.id) with
    | none => simpa using List.find?_eq_none.mp hf e he
    | some f =>
      have hid : f.id = e.id := by simpa using List.find?_some hf
      rw [hids f (List.mem_of_find?_eq_some hf) e he hid]
  simp [creditOf, hfind]

/-- A sum over a filtered list, split by the names that pass. -/
theorem sum_filter_names (proofs : List Proof) (K : Finset String) (q : String → Prop)
    [DecidablePred q] (hsub : ∀ p ∈ proofs, p.c ∈ K) :
    ((proofs.filter fun p => q p.c).map fun p => msatOf p.amount).sum =
      ∑ c ∈ K, if q c then ((proofs.filter fun p => p.c = c).map fun p => msatOf p.amount).sum
        else 0 := by
  induction proofs with
  | nil => simp
  | cons p rest ih =>
    have hrest := ih fun r hr => hsub r (List.mem_cons_of_mem p hr)
    have hsplit : ∀ c, (if q c then (((p :: rest).filter fun r => r.c = c).map
          fun r => msatOf r.amount).sum else 0) =
        (if c = p.c then if q p.c then msatOf p.amount else 0 else 0) +
          if q c then ((rest.filter fun r => r.c = c).map fun r => msatOf r.amount).sum else 0 := by
      intro c
      by_cases hc : c = p.c
      · subst hc
        by_cases hq : q p.c <;> simp [hq]
      · simp [hc, Ne.symm hc]
    rw [Finset.sum_congr rfl fun c _ => hsplit c, Finset.sum_add_distrib, ← hrest,
      Finset.sum_ite_eq' K p.c]
    by_cases hq : q p.c <;> simp [hq, hsub p List.mem_cons_self]

/-- What one live row adds to a balance: the credits of the proofs its event owns. -/
theorem Reflects.spendable_row (h : Reflects events st b) (hids : Distinct events) (he : e ∈ events)
    {row : TokenRecord} (hrow : st.ledger.liveTokens.lookup e.id = some row) (mint : String) :
    (WalletDerivedState.TokenRecord.spendableMsat st.ledger mint sat row).sum =
      ∑ c ∈ carriedNames events,
        if b.owner c = some e.id then creditOf events mint (b.owner c) c else 0 := by
  have hnames : ∀ p ∈ e.proofs, p.c ∈ carriedNames events := fun p hp =>
    List.mem_toFinset.mpr (List.mem_flatMap.mpr ⟨e, he, List.mem_map_of_mem hp⟩)
  have hcredit : ∀ c, (if b.owner c = some e.id then creditOf events mint (b.owner c) c else 0) =
      if b.owner c = some e.id then creditAt mint e c else 0 := fun c => by
    split
    next hown => rw [hown, creditOf_event hids he]
    next => rfl
  have hall : ((proofAtoms (creditedProofs b e)).filter fun atom =>
      st.ledger.isSpendable atom.proof) = proofAtoms (creditedProofs b e) :=
    List.filter_eq_self.mpr fun atom _ => by
      simp [WalletDerivedState.isSpendable, h.unprobed]
  rw [h.credited e he row hrow, Finset.sum_congr rfl fun c _ => hcredit c]
  by_cases hmint : canonicalizeMintUrl e.mint = mint
  · have hamounts : (proofAtoms (creditedProofs b e)).map ProofAtom.amountMsat =
        (creditedProofs b e).map fun p => msatOf p.amount := by
      simp [proofAtoms, Function.comp_def]
    rw [WalletDerivedState.TokenRecord.spendableMsat, if_pos ⟨hmint, rfl⟩]
    simp only [recordOf]
    rw [hall, hamounts, creditedProofs,
      sum_filter_names e.proofs (carriedNames events) (fun c => b.owner c = some e.id) hnames]
    simp [creditAt, hmint]
  · rw [WalletDerivedState.TokenRecord.spendableMsat, if_neg fun hboth => hmint hboth.1]
    simp [creditAt, hmint]

/-- A balance adds up what the owners of the held proofs credit for them. -/
theorem Reflects.balance (h : Reflects events st b) (hids : Distinct events)
    (howners : ∀ c id, b.owner c = some id → ∃ e ∈ events, e.id = id) (mint : String) :
    st.ledger.balance mint sat =
      (∑ c ∈ carriedNames events, creditOf events mint (b.owner c) c) % u64Modulus := by
  have hrows : ∀ id ∈ st.ledger.liveTokens.keys.toFinset,
      ((st.ledger.liveTokens.lookup id).elim 0 fun row =>
        (WalletDerivedState.TokenRecord.spendableMsat st.ledger mint sat row).sum) =
      ∑ c ∈ carriedNames events,
        if b.owner c = some id then creditOf events mint (b.owner c) c else 0 := by
    intro id hid
    obtain ⟨row, hrow⟩ := (mem_iff_lookup _ _).mp (List.mem_toFinset.mp hid)
    have hlive : st.ledger.isTokenLive id = true := by
      simp [WalletDerivedState.isTokenLive, hrow]
    obtain ⟨c, hc⟩ := (h.live id).mp hlive
    obtain ⟨e, he, rfl⟩ := howners c id hc
    rw [hrow]
    exact h.spendable_row hids he hrow mint
  have hkey : ∀ c, (∑ id ∈ st.ledger.liveTokens.keys.toFinset,
      if b.owner c = some id then creditOf events mint (b.owner c) c else 0) =
      creditOf events mint (b.owner c) c := by
    intro c
    cases hown : b.owner c with
    | none => simp [creditOf]
    | some id =>
      have hlive := (h.live id).mpr ⟨c, hown⟩
      have hmem : id ∈ st.ledger.liveTokens.keys := by
        rw [← AList.mem_keys, mem_iff_lookup]
        exact Option.isSome_iff_exists.mp hlive
      simp [hmem]
  have hsum : ((values st.ledger.liveTokens).flatMap
      (WalletDerivedState.TokenRecord.spendableMsat st.ledger mint sat)).sum =
      ∑ c ∈ carriedNames events, creditOf events mint (b.owner c) c := by
    rw [List.flatMap, List.sum_flatten, List.map_map]
    refine (sum_values st.ledger.liveTokens _).trans ?_
    exact (Finset.sum_congr rfl hrows).trans
      (Finset.sum_comm.trans (Finset.sum_congr rfl fun c _ => hkey c))
  rw [WalletDerivedState.balance, foldl_addU64 _ 0 (by decide), Nat.zero_add, hsum]

/-- Every row is written in `sat`, so no other unit has a balance. -/
theorem Reflects.balance_other_unit (h : Reflects events st b)
    (howners : ∀ c id, b.owner c = some id → ∃ e ∈ events, e.id = id) (mint : String)
    {unit : String} (hunit : unit ≠ sat) : st.ledger.balance mint unit = 0 := by
  have hnone : (values st.ledger.liveTokens).flatMap
      (WalletDerivedState.TokenRecord.spendableMsat st.ledger mint unit) = [] := by
    refine List.flatMap_eq_nil_iff.mpr fun row hrow => ?_
    obtain ⟨id, hid⟩ := (mem_values _ _).mp hrow
    obtain ⟨c, hc⟩ := (h.live id).mp (by simp [WalletDerivedState.isTokenLive, hid])
    obtain ⟨e, he, rfl⟩ := howners c id hc
    rw [h.credited e he row hid]
    exact if_neg fun hboth => hunit hboth.2.symm
  rw [WalletDerivedState.balance, hnone, List.foldl_nil]

/-- An owner is an event of the set that stays and carries the proof. -/
theorem owner_stays {events xs : List TokenEvent} (horder : Orders events xs) {c id : String}
    (h : (readAll (xs.map source)).owner c = some id) :
    ∃ e, Stays events e ∧ e.id = id ∧ c ∈ proofCs e.proofs := by
  obtain ⟨s, hs, hname, hc⟩ := owner_survives horder.source h
  obtain ⟨e, he, rfl⟩ := survives_source.mp hs
  exact ⟨e, he, hname, hc⟩

theorem sameBalances_of_creditAlike (hids : Distinct events) (hsame : SameProofs events)
    (halike : CreditAlike events) : SameBalances events := by
  intro xs ys hxs hys mint unit
  have hxr := reflects_ingestAll hids fun e he => (hxs e).mp he
  have hyr := reflects_ingestAll hids fun e he => (hys e).mp he
  have howners : ∀ {zs : List TokenEvent}, Orders events zs → ∀ c id,
      (readAll (zs.map source)).owner c = some id → ∃ e ∈ events, e.id = id :=
    fun hzs c id hown => by
      obtain ⟨e, he, hid, -⟩ := owner_stays hzs hown
      exact ⟨e, he.1, hid⟩
  by_cases hunit : unit = sat
  · subst hunit
    rw [hxr.balance hids (howners hxs), hyr.balance hids (howners hys)]
    refine Nat.ModEq.sum fun c _ => ?_
    have hboth : (readAll (xs.map source)).owner c ≠ none ↔
        (readAll (ys.map source)).owner c ≠ none := by
      rw [← held_iff_owned hids hxs, ← held_iff_owned hids hys]
      exact hsame xs ys hxs hys c
    cases hx : (readAll (xs.map source)).owner c with
    | none =>
      rw [hx] at hboth
      have hy : (readAll (ys.map source)).owner c = none := by simpa using hboth
      rw [hy]
    | some =>
      rw [hx] at hboth
      obtain ⟨id', hy⟩ := Option.ne_none_iff_exists'.mp (hboth.mp (by simp))
      obtain ⟨e, he, rfl, hec⟩ := owner_stays hxs hx
      obtain ⟨f, hf, rfl, hfc⟩ := owner_stays hys hy
      rw [hy, creditOf_event hids he.1, creditOf_event hids hf.1]
      exact halike e f he hf c hec hfc mint
  · rw [hxr.balance_other_unit (howners hxs) mint hunit,
      hyr.balance_other_unit (howners hys) mint hunit]

/-- Ingestion in every order leaves the same proofs exactly when a replaced event that shares a
proof with staying events is replaced by one of these, and the same balances when staying events
also credit shared proofs alike. -/
theorem ingestion_order_independent (events : List TokenEvent) (hids : Distinct events) :
    (ReplacedByCarrier events ∧ CreditAlike events → OrderIndependent events) ∧
      (OrderIndependent events → ReplacedByCarrier events) := by
  constructor
  · rintro ⟨hreplaced, halike⟩
    have hsame : SameProofs events := (sameProofs_iff hids).mpr hreplaced
    exact ⟨hsame, sameBalances_of_creditAlike hids hsame halike⟩
  · intro h
    exact (sameProofs_iff hids).mp h.1

/-- Three token events: the second shares a proof with the first, the third replaces the first. -/
def sharedThenReplaced : List TokenEvent :=
  [⟨"1", "https://m", [⟨4, "k", "s", "P"⟩], []⟩,
    ⟨"2", "https://m", [⟨4, "k", "s", "P"⟩, ⟨2, "k", "t", "Q"⟩], []⟩,
    ⟨"3", "https://m", [⟨1, "k", "u", "R"⟩], ["1"]⟩]

theorem ingestion_order_independent_shared :
    (ReplacedByCarrier sharedThenReplaced ∧ CreditAlike sharedThenReplaced →
        OrderIndependent sharedThenReplaced) ∧
      (OrderIndependent sharedThenReplaced → ReplacedByCarrier sharedThenReplaced) :=
  ingestion_order_independent sharedThenReplaced (by unfold Distinct; decide)

theorem ingestion_order_matters :
    ¬ ∀ events : List TokenEvent, Distinct events → OrderIndependent events := by
  intro h
  have hsame := (h sharedThenReplaced (by unfold Distinct; decide)).1
  let late := [sharedThenReplaced[1], sharedThenReplaced[0], sharedThenReplaced[2]]
  have hlate : Orders sharedThenReplaced late := fun e => by
    simp [late, sharedThenReplaced, or_left_comm]
  have hp := (hsame sharedThenReplaced late (fun _ => Iff.rfl) hlate "P").mpr (by decide +kernel)
  exact absurd hp (by decide +kernel)

end WalletConfluence
