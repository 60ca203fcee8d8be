import Mathlib.Data.Set.Basic
import NostrMultiPlatform.WalletEffect

/-!
# Spent proofs

Once the ledger has recorded a proof spent it should never be spendable again.
The verdict is in the ledger and selection reads the inventory, so what has to be
watched is every section that adds to the inventory or records without removing.
-/
namespace WalletSpent

open Runs WalletProof WalletState WalletJobs WalletSend WalletIngest WalletSystem WalletEffect

/-- A proof the ledger has ever recorded spent is out of the inventory and of every selection. -/
def SpentStaysOut (w : World) (acts : List Act) : Prop :=
  ∀ xs ys, xs ++ ys <+: acts → ∀ c, (run step w xs).state.ledger.isSpent c = true →
    c ∉ storedCs (run step w (xs ++ ys)).state.proofs ∧
      ∀ mint amount selected total,
        (run step w (xs ++ ys)).state.selectProofs mint amount = some (selected, total) →
          c ∉ storedCs selected

variable (t : World × Set String)

/-- The world beside the names recorded spent so far, restarts included. -/
def recordSpent (act : Act) : World × Set String :=
  (step t.1 act, {c | c ∈ t.2 ∨ (step t.1 act).state.ledger.isSpent c = true})

def Avoids (spent : Set String) (cs : List String) : Prop := ∀ c ∈ cs, c ∉ spent

/-- A fold that records its inputs spent: none is back in the inventory, and the change is new. -/
def FoldSafe (spent : Set String) (st : CashuWalletState) (inputs : List StoredProof)
    (change : List Proof) : Prop :=
  (∀ c ∈ storedCs inputs, c ∉ storedCs st.proofs) ∧ Avoids spent (proofCs change) ∧
    ∀ c ∈ proofCs change, c ∉ storedCs inputs

def isSigned : Answer → Bool
  | .signed _ => true
  | _ => false

/-- What a section must not do, in terms of the state it meets and its answer. -/
def JobSafe (spent : Set String) (st : CashuWalletState) (answer : Answer) : Job → Prop
  | .ingestToken event => alreadyKnown st event = false → Avoids spent (proofCs event.proofs)
  | .sendKeyset _ amount _ selected total =>
    coversFee amount total selected answer = false → Avoids spent (storedCs selected)
  | .crossStatus _ pending =>
    ∀ state, answer = .meltState state → state ≠ .paid →
      Avoids spent (storedCs pending.sourceSelected)
  | .sendSigning _ _ selected swapped =>
    isSigned answer → FoldSafe spent st selected (SwappedSend.change swapped)
  | .crossMelt _ _ _ _ selected _ =>
    ∀ change, answer = .melt .paid change → FoldSafe spent st selected change
  | .redeemHistorySigning _ _ fresh _ => isSigned answer → Avoids spent (proofCs fresh)
  | .crossSigning _ _ _ proofs _ _ _ => isSigned answer → Avoids spent (proofCs proofs)
  | .depositSigning _ quote _ proofs lease =>
    isSigned answer → holdsLease st quote lease → Avoids spent (proofCs proofs)
  | _ => True

def SpentSafe : Act → Prop
  | .resume account job answer _ =>
    (account, job) ∈ t.1.jobs → JobSafe t.2 t.1.state answer job
  | _ => True

/-- Everything the ledger holds spent is remembered, and nothing remembered is spendable. -/
def Sound : Prop :=
  (∀ c, t.1.state.ledger.isSpent c = true → c ∈ t.2) ∧
    ∀ c ∈ t.2, c ∉ storedCs t.1.state.proofs

/-- What an effect may do without bringing a spent name back. -/
def EffectSafe (spent : Set String) (st : CashuWalletState) (e : Effect) : Prop :=
  (∀ s ∈ st.proofs, e.keeps s = true → s.proof.c ∉ e.probes) ∧
    ∀ s ∈ e.adds, s.proof.c ∉ spent ∧ s.proof.c ∉ e.probes

variable {spent : Set String} {st : CashuWalletState}

theorem effect_safe_iff {e : Effect} {st st' : CashuWalletState} (h : Applies e st st')
    (hrecorded : ∀ c, st.ledger.isSpent c = true → c ∈ spent)
    (hout : ∀ c ∈ spent, c ∉ storedCs st.proofs) :
    (∀ c, c ∈ spent ∨ st'.ledger.isSpent c = true → c ∉ storedCs st'.proofs) ↔
      EffectSafe spent st e := by
  have hmem : ∀ c, c ∈ storedCs st'.proofs ↔
      (∃ s ∈ st.proofs, e.keeps s = true ∧ s.proof.c = c) ∨ ∃ s ∈ e.adds, s.proof.c = c := by
    intro c
    simp [storedCs, h.1, and_assoc]
  have hspent : ∀ c, c ∈ spent ∨ st'.ledger.isSpent c = true ↔ c ∈ spent ∨ c ∈ e.probes := by
    intro c
    rw [h.2 c]
    constructor
    · rintro (hc | hc | hc)
      · exact .inl hc
      · exact .inl (hrecorded c hc)
      · exact .inr hc
    · rintro (hc | hc)
      · exact .inl hc
      · exact .inr (.inr hc)
  simp only [hspent, hmem, not_or]
  constructor
  · intro hall
    constructor
    · intro s hs hkeep hprobe
      exact (hall _ (.inr hprobe)).1 ⟨s, hs, hkeep, rfl⟩
    · intro s hs
      exact ⟨fun hc => (hall _ (.inl hc)).2 ⟨s, hs, rfl⟩,
        fun hc => (hall _ (.inr hc)).2 ⟨s, hs, rfl⟩⟩
  · rintro ⟨hkeep, hadd⟩ c hc
    constructor
    · rintro ⟨s, hs, hkeeps, rfl⟩
      rcases hc with hc | hc
      · exact hout _ hc (List.mem_map_of_mem hs)
      · exact hkeep s hs hkeeps hc
    · rintro ⟨s, hs, rfl⟩
      exact hc.elim (hadd s hs).1 (hadd s hs).2

theorem effectSafe_none (spent : Set String) (st : CashuWalletState) :
    EffectSafe spent st .none := by
  simp [EffectSafe, Effect.none]

theorem effectSafe_added {adds : List StoredProof} :
    EffectSafe spent st (.added adds) ↔ Avoids spent (storedCs adds) := by
  simp [EffectSafe, Effect.added, Avoids, storedCs]

theorem effectSafe_fold {mint : String} {selected : List StoredProof} {change : List Proof} :
    EffectSafe spent st ⟨fun _ => true, attach none mint change, storedCs selected⟩ ↔
      FoldSafe spent st selected change := by
  have hadds : ∀ P : String → Prop, (∀ s ∈ attach none mint change, P s.proof.c) ↔
      ∀ c ∈ proofCs change, P c := fun P => by
    simp [attach, proofCs]
  have hkept : (∀ s ∈ st.proofs, s.proof.c ∉ storedCs selected) ↔
      ∀ c ∈ storedCs selected, c ∉ storedCs st.proofs := by
    constructor
    · intro h c hc hmem
      obtain ⟨s, hs, rfl⟩ := List.mem_map.mp hmem
      exact h s hs hc
    · intro h s hs hc
      exact h _ hc (List.mem_map_of_mem hs)
  simp only [EffectSafe, FoldSafe, Avoids, forall_const]
  rw [hkept, hadds fun c => c ∉ spent ∧ c ∉ storedCs selected]
  simp only [forall_and]

/-- Dropping what is recorded in the same section is always safe. -/
theorem effectSafe_drop (spent : Set String) (st : CashuWalletState) (dropped : List StoredProof)
    (probes : List String) (h : ∀ c ∈ probes, c ∈ storedCs dropped) :
    EffectSafe spent st ⟨fun s => s.proof.c ∉ storedCs dropped, [], probes⟩ := by
  refine ⟨fun s _ hkeep hprobe => ?_, by simp⟩
  simp only [decide_eq_true_eq] at hkeep
  exact hkeep (h _ hprobe)

theorem effectSafe_reserve (spent : Set String) (st : CashuWalletState) (op mint : String)
    (selected : List StoredProof) : EffectSafe spent st (reserveEffect st op mint selected) := by
  unfold reserveEffect
  split
  · exact effectSafe_drop spent st selected [] (by simp)
  · exact effectSafe_none spent st

theorem effectSafe_ingest {event : TokenEvent} (hout : ∀ c ∈ spent, c ∉ storedCs st.proofs) :
    EffectSafe spent st (ingestEffect st event) ↔
      (alreadyKnown st event = false → Avoids spent (proofCs event.proofs)) := by
  cases hknown : alreadyKnown st event with
  | true => simp [EffectSafe, ingestEffect, hknown]
  | false =>
    -- a spent name is not held, so the event would credit it
    have hfresh : Avoids spent (proofCs (freshProofs st event)) ↔
        Avoids spent (proofCs event.proofs) := by
      constructor
      · intro h c hc hspent
        obtain ⟨p, hp, rfl⟩ := List.mem_map.mp hc
        refine h p.c (List.mem_map_of_mem (List.mem_filter.mpr ⟨hp, ?_⟩)) hspent
        simp only [decide_eq_true_eq]
        exact fun hheld => hout _ hspent ((List.filter_sublist.map _).subset hheld)
      · intro h c hc
        exact h c ((List.filter_sublist.map _).subset hc)
    simp only [EffectSafe, ingestEffect, hknown, Bool.false_eq_true, if_false,
      List.not_mem_nil, not_false_eq_true, implies_true, and_true, true_and, forall_const]
    rw [← hfresh]
    simp [Avoids, attach, proofCs]

theorem jobSafe_iff (hout : ∀ c ∈ spent, c ∉ storedCs st.proofs) (answer : Answer) (job : Job) :
    EffectSafe spent st (effect st answer job) ↔ JobSafe spent st answer job := by
  cases job with
  | sendSelected op _ mint selected =>
    exact iff_of_true (effectSafe_reserve spent st op mint selected) trivial
  | crossSelected op _ _ source _ _ _ selected =>
    exact iff_of_true (effectSafe_reserve spent st op source selected) trivial
  | sendKeyset _ amount _ selected total =>
    cases hfee : coversFee amount total selected answer <;>
      simp [effect, JobSafe, hfee, effectSafe_none, effectSafe_added]
  | sendSigning =>
    cases answer with
    | signed =>
      simp only [effect, JobSafe, isSigned, forall_const]
      exact effectSafe_fold
    | _ => exact iff_of_true (effectSafe_none spent st) (by simp [JobSafe, isSigned])
  | redeemHistorySigning | crossSigning =>
    cases answer <;> simp [effect, JobSafe, isSigned, effectSafe_none, effectSafe_added]
  | crossMelt =>
    cases answer with
    | melt state =>
      cases state with
      | paid =>
        simp only [effect, JobSafe, Answer.melt.injEq, true_and, forall_eq']
        exact effectSafe_fold
      | _ => exact iff_of_true (effectSafe_none spent st) (by simp [JobSafe])
    | _ => exact iff_of_true (effectSafe_none spent st) (by simp [JobSafe])
  | crossStatus =>
    cases answer with
    | meltState state =>
      cases state <;> simp [effect, JobSafe, effectSafe_none, effectSafe_added]
    | _ => exact iff_of_true (effectSafe_none spent st) (by simp [JobSafe])
  | depositSigning _ quote _ _ lease =>
    cases answer with
    | signed =>
      cases hlease : holdsLease st quote lease <;>
        simp [effect, JobSafe, isSigned, hlease, effectSafe_none, effectSafe_added]
    | _ => exact iff_of_true (effectSafe_none spent st) (by simp [JobSafe, isSigned])
  | ingestToken => exact effectSafe_ingest hout
  | checkMints _ groups =>
    refine iff_of_true ?_ trivial
    cases groups with
    | nil => exact effectSafe_none spent st
    | cons =>
      cases answer with
      | spendStates =>
        simp only [effect]
        split
        · exact effectSafe_none spent st
        · exact effectSafe_drop spent st _ _ fun c hc => hc
      | _ => exact effectSafe_none spent st
  | _ => exact iff_of_true (effectSafe_none spent st) trivial

/-- A step keeps the run sound exactly when its section is safe. -/
theorem sound_step_iff {t : World × Set String} (h : Sound t) (act : Act) :
    Sound (recordSpent t act) ↔ SpentSafe t act := by
  obtain ⟨hrecorded, hout⟩ := h
  have hsound : Sound (recordSpent t act) ↔
      ∀ c, c ∈ t.2 ∨ (step t.1 act).state.ledger.isSpent c = true →
        c ∉ storedCs (step t.1 act).state.proofs :=
    ⟨fun h => h.2, fun h => ⟨fun c hc => .inr hc, h⟩⟩
  rw [hsound]
  cases hover : startsOver act with
  | true =>
    obtain ⟨hproofs, -⟩ := step_startsOver t.1 hover
    have hsafe : SpentSafe t act := by
      cases act with
      | resume => cases hover
      | _ => trivial
    exact iff_of_true (by simp [hproofs]) hsafe
  | false =>
    rw [effect_safe_iff (step_applies t.1 hover) hrecorded hout]
    cases act with
    | resume account job answer =>
      by_cases hjob : (account, job) ∈ t.1.jobs
      · simpa [actEffect, SpentSafe, hjob] using jobSafe_iff hout answer job
      · simpa [actEffect, SpentSafe, hjob] using effectSafe_none t.2 t.1.state
    | _ => exact iff_of_true (effectSafe_none t.2 t.1.state) trivial

theorem run_recordSpent_world (t : World × Set String) (acts : List Act) :
    (run recordSpent t acts).1 = run step t.1 acts := by
  induction acts generalizing t with
  | nil => rfl
  | cons act _ ih => exact ih (recordSpent t act)

/-- The remembered names are those some state of the run recorded. -/
theorem mem_recorded {w : World} (hnone : ∀ c, w.state.ledger.isSpent c = false)
    (acts : List Act) (c : String) :
    c ∈ (run recordSpent (w, ∅) acts).2 ↔
      ∃ xs ys, xs ++ ys = acts ∧ (run step w xs).state.ledger.isSpent c = true := by
  induction acts using List.reverseRecOn with
  | nil =>
    constructor
    · exact fun hc => hc.elim
    · rintro ⟨xs, ys, hxs, hspent⟩
      obtain ⟨rfl, -⟩ := List.append_eq_nil_iff.mp hxs
      rw [run_nil, hnone c] at hspent
      cases hspent
  | append_singleton acts act ih =>
    have hworld := run_recordSpent_world (w, ∅) acts
    rw [run_append]
    constructor
    · rintro (hc | hc)
      · obtain ⟨xs, ys, rfl, hspent⟩ := ih.mp hc
        exact ⟨xs, ys ++ [act], (List.append_assoc ..).symm, hspent⟩
      · refine ⟨acts ++ [act], [], List.append_nil _, ?_⟩
        rw [hworld] at hc
        simpa using hc
    · rintro ⟨xs, ys, hxs, hspent⟩
      rcases List.eq_nil_or_concat ys with rfl | ⟨zs, z, rfl⟩
      · rw [List.append_nil] at hxs
        subst hxs
        right
        rw [hworld]
        simpa using hspent
      · have hpre : xs ++ zs = acts := by
          rw [List.concat_eq_append, ← List.append_assoc] at hxs
          exact (List.append_inj' hxs rfl).1
        exact .inl (ih.mpr ⟨xs, zs, hpre, hspent⟩)

/-- In a run a spent proof stays out exactly when every section on the way is safe: an ingested
event that is not already known, a failed send's restore, a transfer's revert and a fold bring
back no proof recorded spent, and no input of a fold is back in the inventory. -/
theorem spent_stays_out_iff (walStore : Option WalletWalStore) (acts : List Act) :
    SpentStaysOut (.new walStore) acts ↔ Meets recordSpent SpentSafe (.new walStore, ∅) acts := by
  have hnone : ∀ c, (World.new walStore).state.ledger.isSpent c = false := fun c => rfl
  have hstart : Sound (World.new walStore, ∅) :=
    ⟨fun c hc => absurd hc (by simp [hnone c]), fun c hc => hc.elim⟩
  rw [← invariant_iff_meets Sound (fun t act ht => sound_step_iff ht act) hstart]
  constructor
  · intro h zs hzs
    refine ⟨fun c hc => ?_, fun c hc => ?_⟩
    · rw [mem_recorded hnone]
      rw [run_recordSpent_world] at hc
      exact ⟨zs, [], List.append_nil zs, hc⟩
    · obtain ⟨xs, ys, rfl, hspent⟩ := (mem_recorded hnone zs c).mp hc
      rw [run_recordSpent_world]
      exact (h xs ys hzs c hspent).1
  · intro h xs ys hprefix c hspent
    have hout : c ∉ storedCs (run step (World.new walStore) (xs ++ ys)).state.proofs := by
      have := (h _ hprefix).2 c ((mem_recorded hnone _ c).mpr ⟨xs, ys, rfl, hspent⟩)
      rwa [run_recordSpent_world] at this
    refine ⟨hout, fun mint amount selected total hselect hc => hout ?_⟩
    exact ((selectProofs_sublist hselect).map _).subset hc

/-- A proof is spent at the mint and dropped, then a second token event carries it. -/
def respentRun : List Act :=
  let held : Proof := ⟨4, "k", "s", "P"⟩
  let first : TokenEvent := ⟨"1", "https://m", [held], []⟩
  let second : TokenEvent := ⟨"2", "https://m", [held], []⟩
  [.observe "a" first, .resume "a" (.ingestToken first) .none 0, .checkState "a",
    .resume "a" (.checkPass false) .none 0,
    .resume "a" (.checkMints false [("https://m", [⟨some "1", "https://m", held⟩])])
      (.spendStates [.spent]) 0,
    .observe "a" second, .resume "a" (.ingestToken second) .none 0]

theorem spent_proof_returns :
    ¬ ∀ acts : List Act, SpentStaysOut (.new none) acts := by
  intro h
  have hpast := (h respentRun (respentRun.take 5) (respentRun.drop 5) (by decide +kernel) "P"
    (by decide +kernel)).1
  exact hpast (by decide +kernel)

end WalletSpent
