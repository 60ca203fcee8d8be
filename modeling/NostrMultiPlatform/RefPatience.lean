import NostrMultiPlatform.RefExhaustion

/-!
# Patience of the claim expansion

A claim should be given up only when nothing is left to try and every relay asked
for it has answered. What was asked is kept beside the kernel, from its frames
alone.
-/
namespace RefPatience

open RefClaims RefEvents RefExhaustion RefFetches RefKeys RefState RefSystem Runs Tables

/-- The requests for a claim since it began: those without an answer and those with one. -/
structure Asked where
  waiting : Finset (String × String)
  answered : Finset (String × String)

namespace Asked

def nobody : Asked := ⟨∅, ∅⟩

def ask (asked : Asked) (attempt : String × String) : Asked :=
  ⟨insert attempt asked.waiting, asked.answered.erase attempt⟩

def answer (asked : Asked) (attempt : String × String) : Asked :=
  ⟨asked.waiting.erase attempt, insert attempt asked.answered⟩

end Asked

/-- Of each claim that is there before the step. -/
def observe (h : Host) (s : Kernel) (history : SubKey → Asked) (op : Op) (key : SubKey) : Asked :=
  if key ∈ s.fetches.pendingClaims then
    match op with
    | .req req =>
      if key = req.interestId then (history key).ask (h.canonicalRelay req.relayUrl, req.subId)
      else history key
    | .eose relayUrl subId => (history key).answer (h.canonicalRelay relayUrl, subId)
    | _ => history key
  else .nobody

def watched (h : Host) (s : Kernel × (SubKey → Asked)) (op : Op) : Kernel × (SubKey → Asked) :=
  (step h s.1 op, observe h s.1 s.2 op)

/-- What was asked and is not answered is in flight. -/
def Tracked (h : Host) (s : Kernel × (SubKey → Asked)) : Prop :=
  Sound h s.1 ∧ ∀ key claim, s.1.fetches.pendingClaims.lookup key = some claim →
    (s.2 key).waiting ⊆ claim.inFlightAttempts

theorem tracked_new (h : Host) : Tracked h (Kernel.new, fun _ => .nobody) :=
  ⟨sound_new h, fun _ _ _ => Finset.empty_subset _⟩

variable {claim : PendingClaim} {h : Host} {s : Kernel × (SubKey → Asked)} {weight : Weight}

theorem inFlight_registerPlannerReq {s : Kernel} {req : WireReq}
    (hlookup : (registerPlannerReq h s req).fetches.pendingClaims.lookup req.interestId = some claim)
    : (h.canonicalRelay req.relayUrl, req.subId) ∈ claim.inFlightAttempts := by
  have hfetches : (registerPlannerReq h s req).fetches =
      s.fetches.registerReq (h.canonicalRelay req.relayUrl) req.subId req.interestId := by
    unfold registerPlannerReq
    split <;> rfl
  rw [hfetches, lookup_registerReq, Option.map_eq_some_iff] at hlookup
  obtain ⟨old, -, rfl⟩ := hlookup
  rw [if_pos rfl]
  exact Finset.mem_insert_self _ _

/-- A request that waits after the step waited before, or is the one just sent. -/
theorem waiting_observe {s : Kernel} {history : SubKey → Asked} {op : Op} {key : SubKey}
    {attempt : String × String} (hwaits : attempt ∈ (observe h s history op key).waiting) :
    key ∈ s.fetches.pendingClaims ∧
      ((∃ req, op = .req req ∧ key = req.interestId ∧
          attempt = (h.canonicalRelay req.relayUrl, req.subId)) ∨
        attempt ∈ (history key).waiting ∧ ¬ Answers h op attempt) := by
  unfold observe at hwaits
  split at hwaits
  next hthere =>
    refine ⟨hthere, ?_⟩
    cases op with
    | req req =>
      dsimp only at hwaits
      split at hwaits
      next hkey =>
        rcases Finset.mem_insert.mp hwaits with heq | hold
        · exact .inl ⟨req, rfl, hkey, heq⟩
        · exact .inr ⟨hold, id⟩
      next => exact .inr ⟨hwaits, id⟩
    | eose =>
      obtain ⟨hne, hold⟩ := Finset.mem_erase.mp hwaits
      exact .inr ⟨hold, hne⟩
    | _ => exact .inr ⟨hwaits, id⟩
  next => exact absurd hwaits (Finset.notMem_empty _)

theorem tracked_step (hs : Tracked h s) (op : Op) : Tracked h (watched h s op) := by
  obtain ⟨hsound, hwaiting⟩ := hs
  by_cases hop : IsPoll op
  · cases op with
    | poll now weight =>
      obtain ⟨new, hpolled⟩ := polled hsound weight now
      refine ⟨hpolled.sound, fun key claim' hlookup attempt hwaits => ?_⟩
      obtain ⟨claim, hbefore, hsame⟩ := hpolled.attempts key claim' hlookup
      obtain ⟨-, ⟨req, hreq, -⟩ | ⟨hold, -⟩⟩ := waiting_observe hwaits
      · exact absurd hreq nofun
      · rw [hsame]
        exact hwaiting key claim hbefore hold
    | _ => exact hop.elim
  · have hcarried := carried_step hsound hop
    refine ⟨hcarried.sound, fun key claim' hlookup attempt hwaits => ?_⟩
    obtain ⟨hthere, ⟨req, rfl, rfl, rfl⟩ | ⟨hold, hopen⟩⟩ := waiting_observe hwaits
    · exact inFlight_registerPlannerReq hlookup
    · obtain ⟨claim, hbefore⟩ := (mem_iff_lookup _ _).mp hthere
      exact hcarried.attempts key claim claim' hbefore hlookup attempt
        (hwaiting key claim hbefore hold) hopen

/-- Nothing is left to try: every candidate was tried, or as many as may be. -/
def Tried (claim : PendingClaim) : Prop :=
  (∀ url ∈ claim.candidateQueue, url ∈ claim.attempted) ∨
    maxRelaysTriedPerClaim ≤ claim.attempted.card

/-- Every request was answered, and every relay that counts as tried has answered. -/
def Answered (asked : Asked) (claim : PendingClaim) : Prop :=
  asked.waiting = ∅ ∧ ∀ relay ∈ claim.attempted, ∃ subId, (relay, subId) ∈ asked.answered

/-- Whatever the step logs as exhausted was tried out and answered, with nothing in flight; every
key it tears down is released, or was answered everywhere, or has used up its time. -/
structure Patient (h : Host) (s : Kernel × (SubKey → Asked)) (op : Op) : Prop where
  exhausted : ∃ new, (step h s.1 op).terminated = new ++ s.1.terminated ∧
    ∀ primaryId, (primaryId, .exhausted) ∈ new → ∃ key claim,
      s.1.fetches.pendingClaims.lookup key = some claim ∧ claim.primaryId = primaryId ∧
        Tried claim ∧ claim.inFlightAttempts = ∅ ∧ Answered (s.2 key) claim
  torn : ∀ primaryId, primaryId ∈ s.1.eventRefs.claims →
    primaryId ∉ (step h s.1 op).eventRefs.claims → Frees op primaryId ∨
      ∃ now weight, op = .poll now weight ∧ ∃ key claim,
        s.1.fetches.pendingClaims.lookup key = some claim ∧ claim.primaryId = primaryId ∧
          (Answered (s.2 key) claim ∨ perClaimTotalBudgetMs ≤ claim.elapsedMs now)

/-- The event is not known and there is time left. -/
def Undecided (h : Host) (s : Kernel) (now : Nat) (claim : PendingClaim) : Prop :=
  eventAlreadyKnown h s claim.primaryId = false ∧ claim.elapsedMs now < perClaimTotalBudgetMs

/-- The time of phase 1 is over. -/
def Leaves (now : Nat) (claim : PendingClaim) : Prop :=
  claim.phase = .phase1 ∧ phase1BudgetMs ≤ claim.elapsedMs now

/-- Every relay that counts as tried was asked. -/
def Reached (asked : Asked) (claim : PendingClaim) : Prop :=
  ∀ relay ∈ claim.attempted, ∃ subId, (relay, subId) ∈ asked.waiting ∪ asked.answered

/-- No poll finds a claim at the end of phase 1 with relays still asked and nothing to pick, or an
idle one with nothing to pick that has tried a relay it has not asked. -/
def InTime (h : Host) (s : Kernel × (SubKey → Asked)) : Op → Prop
  | .poll now _ => ∀ key claim, s.1.fetches.pendingClaims.lookup key = some claim →
      Undecided h s.1 now claim →
        (Leaves now claim → claim.inFlightAttempts ≠ ∅ → CanPick claim) ∧
        (claim.inFlightAttempts = ∅ → Leaves now claim ∧ ¬ CanPick claim ∨
          claim.phase = .phase2InFlight ∧ claim.candidateQueue = [] → Reached (s.2 key) claim)
  | _ => True

theorem ends_exhausted_iff {s : Kernel} {now : Nat} :
    Ends h weight s now claim .exhausted ↔ Undecided h s now claim ∧
      (Leaves now claim ∧ ¬ CanPick claim ∨ claim.phase = .phase2InFlight ∧
        claim.candidateQueue = [] ∧ claim.inFlightAttempts = ∅) := by
  have hpick : Exhausts weight claim ↔ ¬ CanPick claim ∧ claim.phase = .phase1 := by
    rw [Exhausts, ← toPick_ne_zero weight, not_not]
  have hdue : terminationDue h s now claim = some .exhausted ↔ Undecided h s now claim ∧
      claim.phase = .phase2InFlight ∧ claim.candidateQueue = [] ∧ claim.inFlightAttempts = ∅ := by
    unfold terminationDue Undecided
    split_ifs <;> simp_all
  have hadvance : claim.phase = .phase1 → (advanceDue h s now claim = true ↔
      Undecided h s now claim ∧ phase1BudgetMs ≤ claim.elapsedMs now) := by
    intro hphase
    unfold advanceDue Undecided
    rw [hphase]
    simp
  unfold Ends
  rw [hdue, hpick]
  constructor
  · rintro (⟨htakes, ⟨hstuck, hphase⟩, -⟩ | ⟨hopen, hidle⟩)
    · obtain ⟨hopen, htime⟩ := (hadvance hphase).mp htakes
      exact ⟨hopen, .inl ⟨⟨hphase, htime⟩, hstuck⟩⟩
    · exact ⟨hopen, .inr hidle⟩
  · rintro ⟨hopen, ⟨⟨hphase, htime⟩, hstuck⟩ | hidle⟩
    · exact .inl ⟨(hadvance hphase).mpr ⟨hopen, htime⟩, ⟨hstuck, hphase⟩, rfl⟩
    · exact .inr ⟨hopen, hidle⟩

theorem elapsed_of_ends_budget {s : Kernel} {now : Nat} (hends : Ends h weight s now claim .budget)
    :
    perClaimTotalBudgetMs ≤ claim.elapsedMs now := by
  obtain ⟨-, -, heq⟩ | hdue := hends
  · exact absurd heq nofun
  · by_contra htime
    unfold terminationDue at hdue
    rw [if_neg htime] at hdue
    split_ifs at hdue <;> cases hdue

theorem tried_of_stuck (hstuck : ¬ CanPick claim) (hidle : claim.inFlightAttempts = ∅) :
    Tried claim := by
  by_contra hnot
  obtain ⟨hsome, hfew⟩ := not_or.mp hnot
  refine hstuck ⟨?_, Nat.not_le.mp hfew, ?_⟩
  · rw [relaysInFlight, hidle]
    decide
  · by_contra hnone
    exact hsome fun url hurl => by_contra fun huntried => hnone ⟨url, hurl, huntried⟩

/-- A claim that a poll in time ends as exhausted was tried out and answered. -/
theorem answered_of_ends (hs : Tracked h s) {now : Nat} (htime : InTime h s (.poll now weight))
    {key : SubKey} (hlookup : s.1.fetches.pendingClaims.lookup key = some claim)
    (hends : Ends h weight s.1 now claim .exhausted) :
    Tried claim ∧ claim.inFlightAttempts = ∅ ∧ Answered (s.2 key) claim := by
  obtain ⟨hopen, hreason⟩ := ends_exhausted_iff.mp hends
  obtain ⟨hpicks, hreached⟩ := htime key claim hlookup hopen
  have hidle : claim.inFlightAttempts = ∅ := by
    rcases hreason with ⟨hleaves, hstuck⟩ | ⟨-, -, hidle⟩
    · by_contra hbusy
      exact hstuck (hpicks hleaves hbusy)
    · exact hidle
  have hwaits : (s.2 key).waiting = ∅ :=
    Finset.subset_empty.mp (hidle ▸ hs.2 key claim hlookup)
  refine ⟨?_, hidle, hwaits, fun relay hrelay => ?_⟩
  · rcases hreason with ⟨-, hstuck⟩ | ⟨-, hempty, -⟩
    · exact tried_of_stuck hstuck hidle
    · exact .inl fun url hurl => absurd (hempty ▸ hurl) List.not_mem_nil
  · have hasked := hreached hidle (hreason.imp_right fun hphase => ⟨hphase.1, hphase.2.1⟩)
    obtain ⟨subId, hmem⟩ := hasked relay hrelay
    rw [hwaits, Finset.empty_union] at hmem
    exact ⟨subId, hmem⟩

theorem patient_of_inTime (hs : Tracked h s) {op : Op} (htime : InTime h s op) :
    Patient h s op := by
  by_cases hop : IsPoll op
  · cases op with
    | poll now weight =>
      obtain ⟨new, hpolled⟩ := polled hs.1 weight now
      refine ⟨⟨new, hpolled.terminated, fun primaryId hlogged => ?_⟩, fun primaryId hbefore hafter => ?_⟩
      · obtain ⟨key, claim, hlookup, hprimary, hends⟩ := (hpolled.logged _ _).mp hlogged
        exact ⟨key, claim, hlookup, hprimary, answered_of_ends hs htime hlookup hends⟩
      · obtain ⟨reason, hlogged, hmiss⟩ := hpolled.torn primaryId hbefore hafter
        obtain ⟨key, claim, hlookup, hprimary, hends⟩ := (hpolled.logged _ _).mp hlogged
        refine .inr ⟨now, weight, rfl, key, claim, hlookup, hprimary, ?_⟩
        cases reason with
        | hit => exact absurd rfl hmiss
        | exhausted => exact .inl (answered_of_ends hs htime hlookup hends).2.2
        | budget => exact .inr (elapsed_of_ends_budget hends)
    | _ => exact hop.elim
  · have hcarried := carried_step hs.1 hop
    obtain ⟨new, hnew, hhits⟩ := hcarried.terminated
    refine ⟨⟨new, hnew, fun primaryId hlogged => ?_⟩, fun primaryId hbefore hafter => .inl ?_⟩
    · exact absurd (hhits _ hlogged) nofun
    · by_contra hkept
      exact hafter (hcarried.consumers primaryId hkept hbefore)

/-- A poll out of time gives a claim up while it waits, or one that it has not asked for. -/
theorem inTime_of_patient (hs : Tracked h s) {op : Op} (hpatient : Patient h s op) :
    InTime h s op := by
  cases op with
  | poll now weight =>
    obtain ⟨logged, hlog, hall⟩ := hpatient.exhausted
    obtain ⟨new, hpolled⟩ := polled hs.1 weight now
    obtain rfl : new = logged :=
      List.append_cancel_right (hpolled.terminated.symm.trans hlog)
    have hgiven : ∀ key claim, s.1.fetches.pendingClaims.lookup key = some claim →
        Ends h weight s.1 now claim .exhausted →
          claim.inFlightAttempts = ∅ ∧ Answered (s.2 key) claim := by
      intro key claim hlookup hends
      have hmem := (hpolled.logged _ _).mpr ⟨key, claim, hlookup, rfl, hends⟩
      obtain ⟨key', claim', hlookup', hprimary, -, hidle⟩ := hall _ hmem
      obtain ⟨rfl, rfl⟩ := hs.1.keyed.eq hlookup' hlookup hprimary
      exact hidle
    intro key claim hlookup hopen
    refine ⟨fun hleaves hbusy => ?_, fun hidle hreason relay hrelay => ?_⟩
    · by_contra hstuck
      exact hbusy (hgiven key claim hlookup (ends_exhausted_iff.mpr ⟨hopen, .inl ⟨hleaves, hstuck⟩⟩)).1
    · have hends : Ends h weight s.1 now claim .exhausted := ends_exhausted_iff.mpr
        ⟨hopen, hreason.imp_right fun hphase => ⟨hphase.1, hphase.2, hidle⟩⟩
      obtain ⟨-, -, hanswered⟩ := hgiven key claim hlookup hends
      obtain ⟨subId, hmem⟩ := hanswered relay hrelay
      exact ⟨subId, Finset.mem_union_right _ hmem⟩
  | _ => trivial

/-- The expansion is patient in a run exactly when its polls come in time. -/
theorem patient_iff_inTime (h : Host) (ops : List Op) :
    Meets (watched h) (Patient h) (Kernel.new, fun _ => .nobody) ops ↔
      Meets (watched h) (InTime h) (Kernel.new, fun _ => .nobody) ops :=
  meets_congr (Tracked h) (fun _ op hs => tracked_step hs op)
    (fun _ _ hs => ⟨inTime_of_patient hs, patient_of_inTime hs⟩) (tracked_new h) ops

def plainHost : Host := ⟨id, none, fun _ => none, fun _ => 0⟩

def noteId : String := "aaaaaaaaaaaaaaaaaaaaaaaaaaaaaaaaaaaaaaaaaaaaaaaaaaaaaaaaaaaaaaaa"

/-- A note is asked for at its one relay, which takes its time. -/
def slowRelay : List Op :=
  [.connected true, .resolveEvent ⟨noteId, "view", .embed, .cacheOk, false, none, []⟩ 0,
    .req ⟨"wss://r.example", "sub", .oneshot (idFilter noteId)⟩]

theorem slowRelay_claim : ∃ claim,
    (run (watched plainHost) (Kernel.new, fun _ => .nobody) slowRelay).1.fetches.pendingClaims.lookup
        (.oneshot (idFilter noteId)) = some claim ∧
      claim.phase = .phase1 ∧ claim.inFlightAttempts = {("wss://r.example", "sub")} ∧
        claim.candidateQueue = [] ∧ claim.elapsedMs 1500000000 = 1500 ∧
          eventAlreadyKnown plainHost
            (run (watched plainHost) (Kernel.new, fun _ => .nobody) slowRelay).1
            claim.primaryId = false := by
  have hclaim : ((run (watched plainHost) (Kernel.new, fun _ => .nobody)
      slowRelay).1.fetches.pendingClaims.lookup (.oneshot (idFilter noteId))).any (fun claim =>
        claim.phase = .phase1 ∧ claim.inFlightAttempts = {("wss://r.example", "sub")} ∧
          claim.candidateQueue = [] ∧ claim.elapsedMs 1500000000 = 1500 ∧
            eventAlreadyKnown plainHost
              (run (watched plainHost) (Kernel.new, fun _ => .nobody) slowRelay).1
              claim.primaryId = false) = true := by decide +kernel
  obtain ⟨claim, hlookup, hfields⟩ := Option.any_eq_true _ _ |>.mp hclaim
  exact ⟨claim, hlookup, of_decide_eq_true hfields⟩

/-- The poll after a second and a half gives the note up while the relay is asked. -/
theorem slow_relay_given_up : ¬ Meets (watched plainHost) (Patient plainHost)
    (Kernel.new, fun _ => .nobody) (slowRelay ++ [.poll 1500000000 fun _ _ => 0]) := by
  intro hmeets
  rw [meets_append] at hmeets
  have hs : Tracked plainHost (run (watched plainHost) (Kernel.new, fun _ => .nobody) slowRelay) :=
    run_invariant (Tracked plainHost) (fun _ op hs _ => tracked_step hs op) (tracked_new plainHost)
      (meets_of_forall _ (fun _ => True) _ _ fun _ _ => trivial)
  obtain ⟨claim, hlookup, hphase, hbusy, hqueue, htime, hunknown⟩ := slowRelay_claim
  have hopen : Undecided plainHost
      (run (watched plainHost) (Kernel.new, fun _ => .nobody) slowRelay).1 1500000000 claim :=
    ⟨hunknown, by rw [htime]; decide⟩
  have hleaves : Leaves 1500000000 claim := ⟨hphase, by rw [htime]; decide⟩
  have hwaits : claim.inFlightAttempts ≠ ∅ := by
    rw [hbusy]
    exact Finset.singleton_ne_empty _
  obtain ⟨-, -, url, hurl, -⟩ :=
    (inTime_of_patient hs hmeets.2.1 _ claim hlookup hopen).1 hleaves hwaits
  rw [hqueue] at hurl
  exact List.not_mem_nil hurl

end RefPatience
