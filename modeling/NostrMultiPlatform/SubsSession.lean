import NostrMultiPlatform.SubsLifecycle

/-!
# Sessions

A session is a lifecycle together with what the relays hold open. Beside them it
keeps two records the code does not have: the probes made so far, and the plan
keys whose request was emitted since they last entered the plan.

The gate buffers requests by relay and never looks at the plan again. A buffered
request may outlive its sub-shape, and a request that was dropped, or is still in
the buffer of a relay that needs no authentication after all, is not made again:
the next difference starts from the plan that was committed.
-/
namespace SubsSession

open Runs PlannerShape PlannerPlan SubsFilter SubsWire SubsAuthGate SubsLifecycle

structure Session where
  lifecycle : SubscriptionLifecycle
  opened : Finset Key
  probes : Finset Key
  issued : Finset Key

def start : Session := ⟨.new, ∅, ∅, ∅⟩

inductive Act
  | recompile (plan : CompiledPlan) (interests : List LogicalInterest) (cached : String → Bool)
      (fingerprint : UInt64)
  | authStateChange (relayUrl : String) (state : RelayAuthState)
  | setIndexerRelays (relays : List String)
  | setAppRelays (relays : List String)
  | clearProbedMailboxes

/-- Every frame is delivered in the order of emission. -/
def step (nostr : NostrCrate) (s : Session) : Act → Session
  | .recompile plan interests cached fingerprint =>
    let next := s.lifecycle.commit nostr plan interests cached fingerprint
    { lifecycle := next.1
      opened := deliverAll s.opened next.2
      probes := s.probes ∪ reqKeys (probeFrames (probeRelays s.lifecycle)
        (toProbe s.lifecycle interests cached))
      issued := (s.issued ∩ s.lifecycle.planKeys) ∪ reqKeys next.2 }
  | .authStateChange relayUrl state =>
    let next := s.lifecycle.handleAuthStateChange relayUrl state
    { s with
      lifecycle := next.1
      opened := deliverAll s.opened next.2
      issued := s.issued ∪ reqKeys next.2 }
  | .setIndexerRelays relays =>
    { s with lifecycle := { s.lifecycle with indexerRelays := relays } }
  | .setAppRelays relays => { s with lifecycle := { s.lifecycle with appRelays := relays } }
  | .clearProbedMailboxes =>
    { s with lifecycle := { s.lifecycle with probedMailboxes := ∅, lastCompileFingerprint := none } }

/-- Only requests are ever buffered. -/
def Buffered (s : Session) : Prop :=
  ∀ relay, ∀ frame ∈ s.lifecycle.authGate.pendingAt relay, frame.isReq = true

variable {nostr : NostrCrate} {s : Session}

theorem isReq_of_waitsAt {g : AuthGate} {relay : String} {frame : WireFrame}
    (h : g.waitsAt relay frame = true) : frame.isReq = true := by
  cases frame with
  | req => rfl
  | close => cases h

theorem isReq_of_probeFrames {relays authors : Sorted.SortedSet String} :
    ∀ frame ∈ probeFrames relays authors, frame.isReq = true := by
  intro frame hframe
  obtain ⟨chunk, -, hmem⟩ := List.mem_flatMap.mp hframe
  obtain ⟨relay, -, rfl⟩ := List.mem_map.mp hmem
  rfl

theorem partition_buffers {g : AuthGate} {frames : List WireFrame}
    (h : ∀ relay, ∀ frame ∈ g.pendingAt relay, frame.isReq = true) :
    ∀ relay, ∀ frame ∈ (g.partition frames).1.pendingAt relay, frame.isReq = true := by
  intro relay frame hframe
  rw [AuthGate.partition_pendingAt, List.mem_append] at hframe
  exact hframe.elim (h relay frame) fun hnew => isReq_of_waitsAt (List.mem_filter.mp hnew).2

theorem Buffered.step (h : Buffered s) (a : Act) : Buffered (step nostr s a) := by
  cases a with
  | recompile => exact partition_buffers (partition_buffers h)
  | authStateChange relayUrl state =>
    intro relay frame hframe
    refine h relay frame ?_
    revert hframe
    have herase : ∀ frame ∈ ((s.lifecycle.authGate.pending.erase relayUrl).lookup relay).getD [],
        frame ∈ s.lifecycle.authGate.pendingAt relay := by
      intro frame hframe
      rw [Tables.lookup_erase_eq] at hframe
      split at hframe
      · cases hframe
      · exact hframe
    cases state with
    | authenticated | failed => exact herase frame
    | _ => exact id
  | _ => exact h

/-- The requests among the frames of a recompile, after its closes. -/
def emitted (nostr : NostrCrate) (s : Session) (plan : CompiledPlan)
    (interests : List LogicalInterest) (cached : String → Bool) : List WireFrame :=
  (requests nostr s.lifecycle.currentPlan (some plan) interests).filter s.lifecycle.authGate.passes ++
    (probeFrames (probeRelays s.lifecycle) (toProbe s.lifecycle interests cached)).filter
      s.lifecycle.authGate.passes

variable {plan : CompiledPlan}

theorem isReq_of_emitted {interests : List LogicalInterest} {cached : String → Bool} :
    ∀ frame ∈ emitted nostr s plan interests cached, frame.isReq = true := by
  intro frame hframe
  rcases List.mem_append.mp hframe with h | h
  · exact isReq_of_requests frame (List.mem_filter.mp h).1
  · exact isReq_of_probeFrames frame (List.mem_filter.mp h).1

/-- Closes always pass the gate. -/
theorem filter_closes (g : AuthGate) (prior next : Option CompiledPlan) :
    (closes prior next).filter g.passes = closes prior next := by
  rw [List.filter_eq_self]
  intro frame hframe
  obtain ⟨row, -, rfl⟩ := List.mem_map.mp hframe
  rfl

theorem frames_recompile (plan : CompiledPlan) (interests : List LogicalInterest)
    (cached : String → Bool) (fingerprint : UInt64) :
    (s.lifecycle.commit nostr plan interests cached fingerprint).2 =
      closes s.lifecycle.currentPlan (some plan) ++ emitted nostr s plan interests cached := by
  rw [commit_frames, planDiff_eq, List.filter_append, filter_closes, List.append_assoc]
  rfl

theorem mem_opened_recompile (plan : CompiledPlan) (interests : List LogicalInterest)
    (cached : String → Bool) (fingerprint : UInt64) (k : Key) :
    k ∈ (step nostr s (.recompile plan interests cached fingerprint)).opened ↔
      (k ∈ s.opened ∧ (k ∈ s.lifecycle.planKeys → k ∈ collectRelaySubKeys (some plan))) ∨
        k ∈ reqKeys (emitted nostr s plan interests cached) := by
  have hframes : (step nostr s (.recompile plan interests cached fingerprint)).opened =
      deliverAll (deliverAll s.opened (closes s.lifecycle.currentPlan (some plan)))
        (emitted nostr s plan interests cached) := by
    simp only [step, frames_recompile]
    exact run_append _ _ _ _
  rw [hframes, mem_deliverAll_reqs isReq_of_emitted, mem_deliverAll_closing]
  rfl

/-- The requests of a recompile are plan keys new to the plan, or probes. -/
theorem mem_reqKeys_emitted {interests : List LogicalInterest} {cached : String → Bool} {k : Key}
    (h : k ∈ reqKeys (emitted nostr s plan interests cached)) :
    k ∈ collectRelaySubKeys (some plan) ∨
      k ∈ reqKeys (probeFrames (probeRelays s.lifecycle) (toProbe s.lifecycle interests cached)) := by
  obtain ⟨frame, hframe, hreq, rfl⟩ := mem_reqKeys.mp h
  rcases List.mem_append.mp hframe with hmem | hmem
  · have hkey := mem_reqKeys.mpr ⟨frame, (List.mem_filter.mp hmem).1, hreq, rfl⟩
    exact .inl ((mem_reqKeys_requests ..).mp hkey).1
  · exact .inr (mem_reqKeys.mpr ⟨frame, (List.mem_filter.mp hmem).1, hreq, rfl⟩)

/-- A plan key that is new, on a relay whose requests flow, is requested at once. -/
theorem emitted_of_new (interests : List LogicalInterest) (cached : String → Bool) {k : Key}
    (hnext : k ∈ collectRelaySubKeys (some plan)) (hprior : k ∉ s.lifecycle.planKeys)
    (hopens : (s.lifecycle.authGate.stateOf k.1).opens = true) :
    k ∈ reqKeys (emitted nostr s plan interests cached) := by
  have hkey := (mem_reqKeys_requests nostr s.lifecycle.currentPlan (some plan) interests k).mpr
    ⟨hnext, hprior⟩
  obtain ⟨frame, hframe, hreq, rfl⟩ := mem_reqKeys.mp hkey
  refine mem_reqKeys.mpr ⟨frame, List.mem_append_left _ (List.mem_filter.mpr ⟨hframe, ?_⟩), hreq, rfl⟩
  cases frame with
  | close => rfl
  | req relayUrl =>
    have hrelay : (s.lifecycle.authGate.stateOf relayUrl).opens = true := hopens
    simp [AuthGate.passes, AuthGate.isPaused_eq, hrelay]

theorem isReq_of_flushed (h : Buffered s) (relayUrl : String) (state : RelayAuthState) :
    ∀ frame ∈ (s.lifecycle.handleAuthStateChange relayUrl state).2, frame.isReq = true := by
  intro frame hframe
  simp only [SubscriptionLifecycle.handleAuthStateChange, AuthGate.recordTransition_out] at hframe
  split at hframe
  · exact h relayUrl frame hframe
  · cases hframe

/-- The keys of the buffer of a relay. -/
def bufferedKeys (s : Session) (relayUrl : String) : Finset Key :=
  reqKeys (s.lifecycle.authGate.pendingAt relayUrl)

theorem reqKeys_flushed (s : Session) (relayUrl : String) (state : RelayAuthState) :
    reqKeys (s.lifecycle.handleAuthStateChange relayUrl state).2 =
      if state = .authenticated then bufferedKeys s relayUrl else ∅ := by
  simp only [SubscriptionLifecycle.handleAuthStateChange, AuthGate.recordTransition_out]
  split <;> rfl

/-- What is open is in the plan, or a probe. -/
def NoneResurrected (s : Session) : Prop := s.opened ⊆ s.lifecycle.planKeys ∪ s.probes

instance (s : Session) : Decidable (NoneResurrected s) :=
  inferInstanceAs (Decidable (s.opened ⊆ _))

/-- When a relay is authenticated, everything in its buffer is still in the plan, or a probe. -/
def FlushesCurrent (s : Session) : Act → Prop
  | .authStateChange relayUrl .authenticated =>
    bufferedKeys s relayUrl ⊆ s.lifecycle.planKeys ∪ s.probes
  | _ => True

theorem NoneResurrected.recompile (h : NoneResurrected s) (plan : CompiledPlan)
    (interests : List LogicalInterest) (cached : String → Bool) (fingerprint : UInt64) :
    NoneResurrected (step nostr s (.recompile plan interests cached fingerprint)) := by
  intro k hk
  simp only [step, commit_planKeys, Finset.mem_union]
  rcases (mem_opened_recompile plan interests cached fingerprint k).mp hk with ⟨hopen, hkept⟩ | hreq
  · rcases Finset.mem_union.mp (h hopen) with hplan | hprobe
    · exact .inl (hkept hplan)
    · exact .inr (.inl hprobe)
  · exact (mem_reqKeys_emitted hreq).elim .inl fun hprobe => .inr (.inr hprobe)

theorem noneResurrected_auth (hbuf : Buffered s) (h : NoneResurrected s) (relayUrl : String)
    (state : RelayAuthState) :
    NoneResurrected (step nostr s (.authStateChange relayUrl state)) ↔
      FlushesCurrent s (.authStateChange relayUrl state) := by
  have hopened : ∀ k, k ∈ (step nostr s (.authStateChange relayUrl state)).opened ↔
      k ∈ s.opened ∨ k ∈ reqKeys (s.lifecycle.handleAuthStateChange relayUrl state).2 :=
    fun k => mem_deliverAll_reqs (isReq_of_flushed hbuf relayUrl state) s.opened k
  have hsame : NoneResurrected (step nostr s (.authStateChange relayUrl state)) ↔
      reqKeys (s.lifecycle.handleAuthStateChange relayUrl state).2 ⊆
        s.lifecycle.planKeys ∪ s.probes := by
    constructor
    · exact fun hall k hk => hall ((hopened k).mpr (.inr hk))
    · exact fun hall k hk => ((hopened k).mp hk).elim (fun hold => h hold) fun hnew => hall hnew
  rw [hsame, reqKeys_flushed]
  cases state <;> simp [FlushesCurrent]

/-- In a session nothing withdrawn is open after any step, exactly when no relay is authenticated
while its buffer holds a request whose sub-shape has left the plan. -/
theorem withdrawn_stays_closed_iff (nostr : NostrCrate) (acts : List Act) :
    (∀ done, done <+: acts → NoneResurrected (run (step nostr) start done)) ↔
      Meets (step nostr) FlushesCurrent start acts := by
  refine always_iff_meets (fun s => Buffered s ∧ NoneResurrected s) NoneResurrected ?_
    (fun s h => h.2) ?_ ?_ (meets_of_forall _ (fun _ => True) _ _ fun _ _ => trivial)
  · intro s a ⟨hbuf, h⟩ _ hok
    refine ⟨hbuf.step a, ?_⟩
    cases a with
    | recompile plan interests cached fingerprint => exact h.recompile plan interests cached fingerprint
    | authStateChange relayUrl state => exact (noneResurrected_auth hbuf h relayUrl state).mpr hok
    | _ => exact h
  · intro s a ⟨hbuf, h⟩ _ hgood
    cases a with
    | authStateChange relayUrl state => exact (noneResurrected_auth hbuf h relayUrl state).mp hgood
    | _ => trivial
  · refine ⟨?_, Finset.empty_subset _⟩
    intro relay frame hframe
    cases hframe

/-- The interests behind the plan that asks for each of the given kinds. -/
def asking (kinds : List Nat) : List LogicalInterest :=
  kinds.map fun kind =>
    ⟨kind, .global, { InterestShape.default with kinds := {kind} }, [], .tailing, false⟩

/-- A plan without relays. -/
def idlePlan : CompiledPlan := ⟨"idle", ∅, ∅⟩

/-- Requested while the relay is challenged, withdrawn, and then flushed. -/
theorem withdrawn_request_flushed : ¬ ∀ (nostr : NostrCrate) (acts : List Act),
    ∀ done, done <+: acts → NoneResurrected (run (step nostr) start done) := by
  intro hclaim
  have hrun := hclaim documentedCrate
    [.authStateChange "wss://relay" .challengeReceived,
      .recompile (planOn "wss://relay" [1]) (asking [1]) (fun _ => true) 1,
      .recompile idlePlan [] (fun _ => true) 2,
      .authStateChange "wss://relay" .authenticating,
      .authStateChange "wss://relay" .authenticated] _ (List.prefix_refl _)
  revert hrun
  decide +kernel

/-- On a relay whose requests flow, every plan key has been requested since it entered the plan. -/
def NoneStarved (s : Session) : Prop :=
  ∀ k ∈ s.lifecycle.planKeys, (s.lifecycle.authGate.stateOf k.1).opens = true → k ∈ s.issued

instance (s : Session) : Decidable (NoneStarved s) := inferInstanceAs (Decidable (∀ k ∈ _, _ → _))

/-- The plan keys of a relay that have not been requested since they entered the plan. -/
def withheld (s : Session) (relayUrl : String) : Finset Key :=
  {k ∈ s.lifecycle.planKeys | k.1 = relayUrl ∧ k ∉ s.issued}

/-- A relay opens by authentication with all that was withheld in its buffer, or with nothing
withheld. -/
def ReopensWhole (s : Session) : Act → Prop
  | .authStateChange relayUrl .authenticated => withheld s relayUrl ⊆ bufferedKeys s relayUrl
  | .authStateChange relayUrl .notRequired => withheld s relayUrl = ∅
  | _ => True

theorem mem_withheld {relayUrl : String} {k : Key} :
    k ∈ withheld s relayUrl ↔ k ∈ s.lifecycle.planKeys ∧ k.1 = relayUrl ∧ k ∉ s.issued :=
  Finset.mem_filter

theorem NoneStarved.recompile (h : NoneStarved s) (plan : CompiledPlan)
    (interests : List LogicalInterest) (cached : String → Bool) (fingerprint : UInt64) :
    NoneStarved (step nostr s (.recompile plan interests cached fingerprint)) := by
  intro k hk hopens
  simp only [step, commit_planKeys] at hk
  simp only [step, AuthGate.stateOf, commit_gateState] at hopens
  simp only [step, Finset.mem_union, Finset.mem_inter, frames_recompile]
  by_cases hprior : k ∈ s.lifecycle.planKeys
  · exact .inl ⟨h k hprior hopens, hprior⟩
  · obtain ⟨frame, hframe, hreq, hkey⟩ :=
      mem_reqKeys.mp (emitted_of_new interests cached hk hprior hopens)
    exact .inr (mem_reqKeys.mpr ⟨frame, List.mem_append_right _ hframe, hreq, hkey⟩)

theorem noneStarved_auth (h : NoneStarved s) (relayUrl : String) (state : RelayAuthState) :
    NoneStarved (step nostr s (.authStateChange relayUrl state)) ↔
      ReopensWhole s (.authStateChange relayUrl state) := by
  have hstate : ∀ relay,
      (step nostr s (.authStateChange relayUrl state)).lifecycle.authGate.stateOf relay =
        if relay = relayUrl then state else s.lifecycle.authGate.stateOf relay :=
    fun relay => AuthGate.stateOf_recordTransition _ relayUrl state relay
  have hissued : (step nostr s (.authStateChange relayUrl state)).issued =
      s.issued ∪ if state = .authenticated then bufferedKeys s relayUrl else ∅ := by
    simp only [step, reqKeys_flushed]
  -- the other relays keep their state and what was issued to them
  have hsame : NoneStarved (step nostr s (.authStateChange relayUrl state)) ↔
      (state.opens = true → ∀ k ∈ withheld s relayUrl,
        k ∈ if state = .authenticated then bufferedKeys s relayUrl else ∅) := by
    constructor
    · intro hall hopens k hk
      obtain ⟨hplan, hrelay, hnot⟩ := mem_withheld.mp hk
      have hin := hall k hplan (by rw [hstate, if_pos hrelay]; exact hopens)
      rw [hissued] at hin
      exact (Finset.mem_union.mp hin).resolve_left hnot
    · intro hall k hplan hopens
      rw [hissued]
      rw [hstate] at hopens
      by_cases hin : k ∈ s.issued
      · exact Finset.mem_union_left _ hin
      · by_cases hrelay : k.1 = relayUrl
        · rw [if_pos hrelay] at hopens
          exact Finset.mem_union_right _ (hall hopens k (mem_withheld.mpr ⟨hplan, hrelay, hin⟩))
        · rw [if_neg hrelay] at hopens
          exact Finset.mem_union_left _ (h k hplan hopens)
  rw [hsame]
  cases state <;> simp [RelayAuthState.opens, ReopensWhole, Finset.subset_iff,
    Finset.eq_empty_iff_forall_notMem]

/-- In a session no plan key of an open relay is left without its request, exactly when each relay
that opens gets every withheld request out of its buffer. -/
theorem none_starved_iff (nostr : NostrCrate) (acts : List Act) :
    (∀ done, done <+: acts → NoneStarved (run (step nostr) start done)) ↔
      Meets (step nostr) ReopensWhole start acts := by
  refine invariant_iff_meets NoneStarved ?_ ?_ acts
  · intro s a h
    cases a with
    | recompile plan interests cached fingerprint =>
      exact iff_of_true (h.recompile plan interests cached fingerprint) trivial
    | authStateChange relayUrl state => exact noneStarved_auth h relayUrl state
    | _ => exact iff_of_true h trivial
  · intro k hk
    cases hk

/-- Withheld during the handshake, dropped when it fails, and not made again after the reconnect. -/
theorem dropped_request_not_reissued : ¬ ∀ (nostr : NostrCrate) (acts : List Act),
    ∀ done, done <+: acts → NoneStarved (run (step nostr) start done) := by
  intro hclaim
  have hrun := hclaim documentedCrate
    [.authStateChange "wss://relay" .challengeReceived,
      .recompile (planOn "wss://relay" [1]) (asking [1]) (fun _ => true) 1,
      .authStateChange "wss://relay" .failed,
      .authStateChange "wss://relay" .notRequired,
      .recompile (planOn "wss://relay" [1]) (asking [1]) (fun _ => true) 1] _ (List.prefix_refl _)
  revert hrun
  decide +kernel

end SubsSession
