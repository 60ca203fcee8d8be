import NostrMultiPlatform.WalletCallers

/-!
# Every send answers its caller once

Each id the backend was asked for is carried by one job, parked entry or publish,
or has one result. A step keeps that unless it lets go of a send without a word.
-/
namespace WalletAnswers

open Runs WalletState WalletJobs WalletSend WalletCrossMint WalletCallers Backend
open WalletSystem hiding Act step

/-- Every id still carried, once for each place that carries it. -/
def callers (b : Backend) : List String :=
  b.waiting.filterMap Waiting.caller ++
    b.pendingSends.filterMap (fun p => p.send.correlationId) ++ b.publishing

def answers (b : Backend) : List String := b.results.map Prod.fst

/-- Once nothing is left of a send, its caller has exactly one result. -/
def AnsweredOnce (b : Backend) : Prop :=
  ∀ id ∈ b.dispatched, id ∉ callers b → (answers b).count id = 1

instance (b : Backend) : Decidable (AnsweredOnce b) :=
  inferInstanceAs (Decidable (∀ id ∈ b.dispatched, id ∉ callers b → (answers b).count id = 1))

/-- The registry gives every send an id of its own. -/
def FreshId (b : Backend) : Act → Prop
  | .startSend _ send _ => ∀ id ∈ send.correlationId, id ∉ b.dispatched
  | _ => True

instance (b : Backend) (act : Act) : Decidable (FreshId b act) :=
  match act with
  | .startSend _ send _ => inferInstanceAs (Decidable (∀ id ∈ send.correlationId, id ∉ b.dispatched))
  | .resume _ _ _ | .nutzapInfo _ _ | .ttlSweep _ | .published _ _ | .other _ => .isTrue trivial

/-- No transfer that funds a send with a caller gives up, and no such send is parked at a reset. -/
def GivesUpNone (b : Backend) : Act → Prop
  | .resume w answer now =>
    w ∈ b.waiting → w.caller ≠ none → handover b.state answer now w.job ≠ .drops
  | .other .reset => ∀ p ∈ b.pendingSends, p.send.correlationId = none
  | _ => True

/-- Every id is carried or answered as often as it was dispatched, which is once. -/
structure Inv (b : Backend) : Prop where
  nodup : b.dispatched.Nodup
  total : ∀ id, (callers b).count id + (answers b).count id = b.dispatched.count id

variable {b : Backend}

theorem Inv.answeredOnce (h : Inv b) : AnsweredOnce b := by
  intro id hid hgone
  have hcount := h.total id
  rw [List.count_eq_one_of_mem h.nodup hid, List.count_eq_zero_of_not_mem hgone] at hcount
  omega

/-- How often an optional id counts. -/
def once (id : String) (caller : Option String) : Nat := caller.toList.count id

variable (id : String)

@[simp] theorem once_none : once id none = 0 := rfl

section

variable {α : Type} (f : α → Option String)
include f

theorem count_filterMap_erase [DecidableEq α] (id : String) {x : α} {xs : List α} (h : x ∈ xs) :
    (xs.filterMap f).count id = once id (f x) + ((xs.erase x).filterMap f).count id := by
  rw [((List.perm_cons_erase h).filterMap f).count_eq, List.filterMap_cons]
  cases hfx : f x with
  | none => simp
  | some => simp [once, List.count_cons, Nat.add_comm]

theorem count_filterMap_singleton (id : String) (x : α) :
    ([x].filterMap f).count id = once id (f x) := by
  cases hfx : f x <;> simp [once, hfx]

theorem count_filterMap_cons (id : String) (x : α) (rest : List α) :
    ((x :: rest).filterMap f).count id = once id (f x) + (rest.filterMap f).count id := by
  rw [← List.singleton_append, List.filterMap_append, List.count_append, count_filterMap_singleton]

theorem count_filterMap_filter (p : α → Bool) (id : String) (xs : List α) :
    (xs.filterMap f).count id =
      ((xs.filter p).filterMap f).count id + ((xs.filter fun x => !p x).filterMap f).count id := by
  rw [← ((List.filter_append_perm p xs).filterMap f).count_eq, List.filterMap_append,
    List.count_append]

end

/-- What the ids of a backend add up to. -/
def tally (id : String) (b : Backend) : Nat := (callers b).count id + (answers b).count id

theorem tally_eq (b : Backend) :
    tally id b = (b.waiting.filterMap Waiting.caller).count id +
      (b.pendingSends.filterMap (fun p => p.send.correlationId)).count id +
      b.publishing.count id + (answers b).count id := by
  simp only [tally, callers, List.count_append]

theorem tally_report (b : Backend) (caller : Option String) (ok : Bool) :
    tally id (b.report caller ok) = tally id b + once id caller := by
  have hids : (caller.toList.map fun id => (id, ok)).map Prod.fst = caller.toList := by
    cases caller <;> rfl
  simp only [tally, callers, answers, report, List.map_append, hids, List.count_append,
    once, Nat.add_assoc]

theorem tally_parkSendAwait (b : Backend) (account : String) (now : Nat) (send : Option SendRetry) :
    tally id (b.parkSendAwait account now send) =
      tally id b + once id (send.bind SendRetry.correlationId) := by
  cases send with
  | none => rfl
  | some =>
    simp only [tally_eq, parkSendAwait, List.filterMap_append, List.count_append, answers,
      count_filterMap_singleton, Option.bind_some]
    omega

theorem tally_beginSend (b : Backend) (account : String) (send : SendRetry) (op : String)
    (now : Nat) :
    tally id (b.beginSend account send op now) = tally id b + once id send.correlationId := by
  simp only [beginSend]
  split
  · exact tally_report id b _ _
  · simp only [tally_eq, List.filterMap_append, List.count_append, answers,
      count_filterMap_singleton, Waiting.caller, Option.bind_some]
    omega

/-- Redriving or failing the taken sends hands each of their ids on. -/
theorem tally_foldl (f : Backend → PendingSendAwait → Backend)
    (hf : ∀ b p, tally id (f b p) = tally id b + once id p.send.correlationId)
    (taken : List PendingSendAwait) (b : Backend) :
    tally id (taken.foldl f b) =
      tally id b + (taken.filterMap fun p => p.send.correlationId).count id := by
  induction taken generalizing b with
  | nil => rfl
  | cons _ _ ih =>
    rw [List.foldl_cons, ih, hf, count_filterMap_cons]
    omega

section
variable {st : CashuWalletState} {answer : Answer} {now : Nat} {job : Job}

/-- A transfer that goes on has one next job. -/
theorem jobs_of_goesOn (h : goesOn st answer now job = true) :
    ∃ next, (resumeJob st answer now job).jobs = [next] := by
  cases job with
  | crossPrepare =>
    simp only [goesOn, Bool.and_eq_true, decide_eq_true_eq, Bool.not_eq_true',
      List.isEmpty_eq_false_iff] at h
    obtain ⟨⟨hamount, hmint⟩, hcandidates⟩ := h
    simp only [resumeJob, crossPrepare]
    rw [if_neg (by simp [hamount, hmint, hcandidates])]
    exact ⟨_, rfl⟩
  | crossBegin =>
    simp only [goesOn] at h
    simp only [resumeJob, crossBegin]
    split at h
    next st' hbegun =>
      rw [hbegun]
      exact ⟨_, rfl⟩
    · cases h
  | crossQuote =>
    cases answer with
    | mintQuote => exact ⟨_, rfl⟩
    | _ => cases h
  | crossWalk _ _ _ candidates =>
    cases candidates with
    | nil => cases h
    | cons =>
      simp only [resumeJob, crossWalk]
      split
      · split
        · exact ⟨_, rfl⟩
        · split <;> exact ⟨_, rfl⟩
      · exact ⟨_, rfl⟩
  | crossSelected =>
    simp only [goesOn] at h
    simp only [resumeJob, crossSelected]
    split
    next hreserve =>
      rw [hreserve] at h
      cases h
    · exact ⟨_, rfl⟩
  | crossMelt =>
    cases answer with
    | melt state =>
      cases state with
      | paid => exact ⟨_, rfl⟩
      | _ => cases h
    | _ => cases h
  | crossTarget quote =>
    simp only [goesOn] at h
    simp only [resumeJob, crossTarget]
    cases hpending : st.pendingCrossMintTransfers.lookup quote with
    | none => simp [hpending] at h
    | some =>
      simp only [hpending, Option.any_some, Option.isNone_iff_eq_none] at h
      simp only [h]
      split <;> exact ⟨_, rfl⟩
  | crossMint =>
    cases answer with
    | quotePaid minted =>
      cases minted with
      | none => cases h
      | some => exact ⟨_, rfl⟩
    | _ => cases h
  | crossSigning =>
    cases answer with
    | signed =>
      obtain ⟨amount, rfl⟩ := Option.isSome_iff_exists.mp h
      exact ⟨_, rfl⟩
    | _ => cases h
  | _ => cases h

theorem goesOn_of_carries {going : Bool}
    (h : (if going then Handover.carries else .drops) = .carries) : going = true := by
  cases going with
  | false => cases h
  | true => rfl

/-- A job that carries its send on leaves one successor. -/
theorem jobs_of_carries (h : handover st answer now job = .carries) :
    ∃ next, (resumeJob st answer now job).jobs = [next] := by
  cases job with
  | sendRun =>
    cases answer with
    | recipient => exact ⟨_, rfl⟩
    | _ => cases h
  | sendProbe =>
    simp only [resumeJob, sendProbe]
    split
    · exact ⟨_, rfl⟩
    · split <;> exact ⟨_, rfl⟩
  | sendFallback =>
    simp only [resumeJob, sendFallback]
    split
    · exact ⟨_, rfl⟩
    · split <;> exact ⟨_, rfl⟩
  | sendSupersede => exact ⟨_, rfl⟩
  | sendChosen =>
    simp only [resumeJob, sendChosen]
    split <;> exact ⟨_, rfl⟩
  | sendSelected =>
    simp only [resumeJob, sendSelected]
    split <;> exact ⟨_, rfl⟩
  | sendKeyset =>
    cases answer with
    | feePpk =>
      simp only [handover] at h
      simp only [resumeJob, sendKeyset]
      split at h
      · cases h
      next hfee => exact ⟨_, by rw [if_neg hfee]; rfl⟩
    | _ => cases h
  | sendSwap =>
    cases answer with
    | proofs => exact ⟨_, rfl⟩
    | _ => cases h
  | sendSigning =>
    cases answer with
    | signed => cases h
    | _ => cases h
  | crossRetry =>
    simp only [handover] at h
    simp only [resumeJob, crossRetry]
    split at h
    next st' hbegun =>
      rw [hbegun]
      exact ⟨_, rfl⟩
    · cases h
  | fail => cases h
  | _ => exact jobs_of_goesOn (goesOn_of_carries h)

end

variable {act : Act} (id : String)

/-- A job leaves, its successors arrive with the send or without it. -/
theorem tally_after {w : Waiting} (hw : w ∈ b.waiting) (st : CashuWalletState)
    (send : Option SendRetry) (jobs : List Job) :
    tally id ({ b with
      state := st
      waiting := b.waiting.erase w ++ jobs.map fun job => ⟨w.account, send, job⟩ } : Backend) +
        once id w.caller =
      tally id b + jobs.length * once id (send.bind SendRetry.correlationId) := by
  have hjobs : ((jobs.map fun job => (⟨w.account, send, job⟩ : Waiting)).filterMap
      Waiting.caller).count id = jobs.length * once id (send.bind SendRetry.correlationId) := by
    induction jobs with
    | nil => simp
    | cons _ _ ih =>
      rw [List.map_cons, count_filterMap_cons, ih, List.length_cons, Nat.succ_mul, Nat.add_comm]
      rfl
  have hwaiting := count_filterMap_erase Waiting.caller id hw
  simp only [tally_eq, List.filterMap_append, List.count_append, hjobs, answers]
  omega

/-- A resumed job hands its send on, or drops it. -/
theorem tally_resume {w : Waiting} (hw : w ∈ b.waiting) (answer : Answer) (now : Nat) :
    tally id (b.resume w answer now) +
        (if handover b.state answer now w.job = .drops then once id w.caller else 0) =
      tally id b := by
  have hnone := tally_after id hw (resumeJob b.state answer now w.job).state none
    (resumeJob b.state answer now w.job).jobs
  rw [Option.bind_none, once_none, Nat.mul_zero, Nat.add_zero] at hnone
  simp only [resume]
  cases hout : handover b.state answer now w.job with
  | carries =>
    obtain ⟨next, hnext⟩ := jobs_of_carries hout
    have hcarried := tally_after id hw (resumeJob b.state answer now w.job).state w.send [next]
    simp only [hnext, Waiting.caller] at hcarried ⊢
    simp only [List.length_singleton, Nat.one_mul, reduceCtorEq, if_false] at hcarried ⊢
    omega
  | parks =>
    rw [tally_parkSendAwait]
    simp only [Waiting.caller, reduceCtorEq, if_false] at hnone ⊢
    omega
  | publishes =>
    simp only [tally_eq, answers, List.count_append, reduceCtorEq, if_false] at hnone ⊢
    rw [show w.caller.toList.count id = once id w.caller from rfl]
    omega
  | fails =>
    rw [tally_report]
    simp only [reduceCtorEq, if_false]
    omega
  | drops =>
    simp only [if_true]
    exact hnone

/-- How often the step lets go of the id without a word. -/
def lost (id : String) (b : Backend) : Act → Nat
  | .resume w answer now =>
    if w ∈ b.waiting ∧ handover b.state answer now w.job = .drops then once id w.caller else 0
  | .other .reset => (b.pendingSends.filterMap fun p => p.send.correlationId).count id
  | _ => 0

/-- The ids the act asks for. -/
def asked : Act → List String
  | .startSend _ send _ => send.correlationId.toList
  | _ => []

theorem beginSend_dispatched (b : Backend) (account : String) (send : SendRetry) (op : String)
    (now : Nat) : (b.beginSend account send op now).dispatched = b.dispatched := by
  simp only [beginSend]
  split <;> rfl

theorem foldl_dispatched (f : Backend → PendingSendAwait → Backend)
    (hf : ∀ b p, (f b p).dispatched = b.dispatched) (taken : List PendingSendAwait) (b : Backend) :
    (taken.foldl f b).dispatched = b.dispatched := by
  induction taken generalizing b with
  | nil => rfl
  | cons _ _ ih => rw [List.foldl_cons, ih, hf]

theorem resume_dispatched (b : Backend) (w : Waiting) (answer : Answer) (now : Nat) :
    (b.resume w answer now).dispatched = b.dispatched := by
  simp only [resume]
  split
  · rfl
  · cases w.send <;> rfl
  · rfl
  · rfl
  · rfl

theorem step_dispatched (hact : act ≠ .other .crash) :
    (step b act).dispatched = b.dispatched ++ asked act := by
  cases act with
  | startSend => rfl
  | resume w answer now =>
    simp only [step, asked, List.append_nil]
    split
    · exact resume_dispatched b w answer now
    · rfl
  | nutzapInfo =>
    simp only [asked, List.append_nil]
    exact foldl_dispatched _ (fun b p => beginSend_dispatched b _ _ _ _) _ _
  | ttlSweep =>
    simp only [asked, List.append_nil]
    exact foldl_dispatched (fun b p => b.report p.send.correlationId false) (fun _ _ => rfl) _ _
  | published =>
    simp only [step, asked, List.append_nil]
    split <;> rfl
  | other act =>
    simp only [asked, List.append_nil]
    cases act with
    | crash => exact absurd rfl hact
    | _ => rfl

/-- Taking some parked sends out and handing each on keeps the total. -/
theorem tally_taken (taken : PendingSendAwait → Bool) (f : Backend → PendingSendAwait → Backend)
    (hf : ∀ b p, tally id (f b p) = tally id b + once id p.send.correlationId) (b : Backend) :
    tally id ((b.pendingSends.filter taken).foldl f
      { b with pendingSends := b.pendingSends.filter fun p => !taken p }) = tally id b := by
  rw [tally_foldl id f hf, tally_eq, tally_eq,
    count_filterMap_filter (fun p => p.send.correlationId) taken id b.pendingSends]
  simp only [answers]
  omega

theorem tally_other {act : WalletSystem.Act} (hact : act ≠ .crash) :
    tally id (WalletCallers.other b act) + lost id b (.other act) = tally id b := by
  have hnone : ∀ jobs : List (String × Job),
      (jobs.map fun p => (⟨p.1, none, p.2⟩ : Waiting)).filterMap Waiting.caller = [] := by
    intro jobs
    rw [List.filterMap_map]
    exact List.filterMap_eq_nil_iff.mpr fun p _ => rfl
  cases act with
  | crash => exact absurd rfl hact
  | reset =>
    simp only [WalletCallers.other, lost, tally_eq, answers, List.filterMap_nil, List.count_nil]
    omega
  | startSend => rfl
  | _ =>
    simp only [WalletCallers.other, lost, tally_eq, answers, List.filterMap_append, hnone,
      List.append_nil, Nat.add_zero]

theorem tally_step (hact : act ≠ .other .crash) :
    tally id (step b act) + lost id b act = tally id b + (asked act).count id := by
  cases act with
  | startSend account send now =>
    exact tally_beginSend id b account send _ now
  | resume w answer now =>
    simp only [step, asked, lost, List.count_nil, Nat.add_zero]
    by_cases hw : w ∈ b.waiting
    · simp only [hw, if_true, true_and]
      exact tally_resume id hw answer now
    · simp only [hw, if_false, false_and, Nat.add_zero]
  | nutzapInfo author now =>
    have htaken := tally_taken id (fun p => decide (p.send.recipientPubkey = author))
      (redrive now) (fun b p => tally_beginSend id b _ _ _ _) b
    simpa [step, nutzapInfoArrived, asked, lost] using htaken
  | ttlSweep now =>
    have htaken := tally_taken id (expired now)
      (fun b p => b.report p.send.correlationId false) (fun b p => tally_report id b _ _) b
    simpa [step, runTtlSweep, asked, lost] using htaken
  | published =>
    simp only [step, asked, lost, List.count_nil, Nat.add_zero]
    split
    next hmem =>
      rw [tally_report, tally_eq, tally_eq, (List.perm_cons_erase hmem).count_eq id]
      simp only [answers, List.count_cons, once, Option.toList_some, List.count_nil]
      omega
    · rfl
  | other =>
    simp only [asked, List.count_nil, Nat.add_zero]
    exact tally_other id fun hcrash => hact (hcrash ▸ rfl)

theorem givesUpNone_iff (b : Backend) (act : Act) :
    GivesUpNone b act ↔ ∀ id, lost id b act = 0 := by
  cases act with
  | resume w =>
    simp only [GivesUpNone, lost, once]
    constructor
    · intro h id
      split
      next hdrop =>
        obtain ⟨hw, hdrop⟩ := hdrop
        have hcaller : w.caller = none := by
          by_contra hsome
          exact h hw hsome hdrop
        rw [hcaller]
        rfl
      · rfl
    · intro h hw hcaller hdrop
      obtain ⟨id, hid⟩ := Option.ne_none_iff_exists'.mp hcaller
      have hzero := h id
      rw [if_pos ⟨hw, hdrop⟩, hid] at hzero
      simp at hzero
  | other act =>
    cases act with
    | reset =>
      simp only [GivesUpNone, lost, List.count_eq_zero]
      constructor
      · intro h id hid
        obtain ⟨p, hp, hsome⟩ := List.mem_filterMap.mp hid
        rw [h p hp] at hsome
        cases hsome
      · intro h p hp
        by_contra hsome
        obtain ⟨id, hid⟩ := Option.ne_none_iff_exists'.mp hsome
        exact h id (List.mem_filterMap.mpr ⟨p, hp, hid⟩)
    | _ => exact ⟨fun _ _ => rfl, fun _ => trivial⟩
  | _ => exact ⟨fun _ _ => rfl, fun _ => trivial⟩

theorem inv_new (walStore : Option WalletWalStore) : Inv (.new walStore) where
  nodup := List.nodup_nil
  total := fun _ => rfl

theorem Inv.step (h : Inv b) (hfresh : FreshId b act) (hkeeps : GivesUpNone b act) :
    Inv (WalletCallers.step b act) := by
  by_cases hact : act = .other .crash
  · subst hact
    exact inv_new _
  · have hdispatched := step_dispatched (b := b) hact
    constructor
    · rw [hdispatched]
      cases act with
      | startSend _ send =>
        refine List.nodup_append.mpr ⟨h.nodup, ?_, fun id hid other hother => ?_⟩
        · show send.correlationId.toList.Nodup
          cases send.correlationId with
          | none => exact List.nodup_nil
          | some id => exact List.nodup_singleton id
        · rintro rfl
          exact hfresh id (Option.mem_toList.mp hother) hid
      | _ => simpa [asked] using h.nodup
    · intro id
      have htotal := tally_step (b := b) id hact
      rw [(givesUpNone_iff b act).mp hkeeps id] at htotal
      have hbefore : tally id b = b.dispatched.count id := h.total id
      rw [hdispatched, List.count_append]
      show tally id (WalletCallers.step b act) = _
      omega

/-- A send let go of without a word is never answered. -/
theorem Inv.needs (h : Inv b) (hgood : AnsweredOnce (WalletCallers.step b act)) :
    GivesUpNone b act := by
  by_cases hact : act = .other .crash
  · subst hact
    trivial
  · rw [givesUpNone_iff]
    intro id
    by_contra hlost
    have htotal := tally_step (b := b) id hact
    have hbefore : tally id b = b.dispatched.count id := h.total id
    have honce := List.nodup_iff_count_le_one.mp h.nodup id
    have hasked : (asked act).count id = 0 := by
      cases act with
      | startSend => exact absurd rfl hlost
      | _ => rfl
    have hnow : tally id (WalletCallers.step b act) = 0 := by omega
    have hmem : id ∈ (WalletCallers.step b act).dispatched := by
      rw [step_dispatched hact]
      refine List.mem_append_left _ (List.count_pos_iff.mp ?_)
      omega
    have hgone : id ∉ callers (WalletCallers.step b act) := by
      rw [← List.count_eq_zero]
      exact (Nat.add_eq_zero_iff.mp hnow).1
    have hone := hgood id hmem hgone
    have hzero := (Nat.add_eq_zero_iff.mp hnow).2
    omega

/-- Every send answers its caller exactly once in exactly the runs in which no transfer that
funds one gives up and no account switch forgets a parked one. -/
theorem send_answered_once_iff (walStore : Option WalletWalStore) (acts : List Act)
    (hfresh : Meets WalletCallers.step FreshId (.new walStore) acts) :
    (∀ done, done <+: acts → AnsweredOnce (run WalletCallers.step (.new walStore) done)) ↔
      Meets WalletCallers.step GivesUpNone (.new walStore) acts :=
  always_iff_meets Inv AnsweredOnce (fun _ _ h hfresh hkeeps => h.step hfresh hkeeps)
    (fun _ h => h.answeredOnce) (fun _ _ h _ hgood => h.needs hgood) (inv_new walStore) hfresh

/-- A send of 8 sats with a caller. -/
def zap : SendRetry := ⟨"r", 8, none, some "c"⟩

/-- The recipient's kind 10019 never arrives. -/
def unheard : List Act :=
  [.startSend "a" zap 0, .resume ⟨"a", some zap, .sendRun "c" 8⟩ .none 0, .ttlSweep 20]

theorem send_answered_once_iff_unheard :
    (∀ done, done <+: unheard → AnsweredOnce (run WalletCallers.step (.new none) done)) ↔
      Meets WalletCallers.step GivesUpNone (.new none) unheard :=
  send_answered_once_iff none unheard (by decide +kernel)

/-- The recipient takes another mint, and that mint grants no quote. -/
def unquoted : List Act :=
  let token : TokenEvent := ⟨"1", "https://s", [⟨32, "k", "x", "P"⟩], []⟩
  let target := "https://t"
  let op := "cashu-cross-mint-0"
  [.other (.observe "a" token), .resume ⟨"a", none, .ingestToken token⟩ .none 0,
    .startSend "a" zap 0,
    .resume ⟨"a", some zap, .sendRun "c" 8⟩ (.recipient [target]) 0,
    .resume ⟨"a", some zap, .sendProbe "c" 8 [] [target] [target]⟩ .none 0,
    .resume ⟨"a", some zap, .sendProbe "c" 8 [] [] [target]⟩ .none 0,
    .resume ⟨"a", some zap, .sendFallback "c" 8 [target]⟩ .none 0,
    .resume ⟨"a", some zap, .sendSupersede "c" 8 target⟩ .none 0,
    .resume ⟨"a", some zap, .crossPrepare op target 8 (some 8)⟩ .none 0,
    .resume ⟨"a", some zap, .crossBegin op target ["https://s"] 8 (some 8)⟩ .none 0,
    .resume ⟨"a", some zap, .crossQuote op target ["https://s"] 8 (some 8)⟩ .none 0]

theorem send_never_answered :
    ¬ ∀ acts, Meets WalletCallers.step FreshId (.new none) acts →
      ∀ done, done <+: acts → AnsweredOnce (run WalletCallers.step (.new none) done) := by
  intro h
  have hunquoted := h unquoted (by decide +kernel) unquoted (List.prefix_refl _)
  exact absurd hunquoted (by decide +kernel)

end WalletAnswers
