import NostrMultiPlatform.RefSystem

/-!
# Claims under the operations

A claim is kept under the one-shot of its key's filter, so that no two claims share
a key. What an operation does to the claims is said once for each of them.
-/
namespace RefClaims

open RefEvents RefFetches RefKeys RefResolve RefState RefSystem Sorted Tables Fetches

section Frames

variable (f : Fetches)

@[simp] theorem pendingClaims_release (token : Nat) :
    (f.release token).pendingClaims = f.pendingClaims := by
  unfold release
  split <;> rfl

@[simp] theorem claimSubIndex_release (token : Nat) :
    (f.release token).claimSubIndex = f.claimSubIndex := by
  unfold release
  split <;> rfl

@[simp] theorem pendingClaims_releaseClaimOneshotOwner (interestId : SubKey) :
    (f.releaseClaimOneshotOwner interestId).pendingClaims = f.pendingClaims := by
  unfold releaseClaimOneshotOwner
  dsimp only
  split
  · rfl
  · rw [pendingClaims_release]

@[simp] theorem pendingClaims_unindex (interestId : SubKey) :
    (f.unindex interestId).pendingClaims = f.pendingClaims := rfl

@[simp] theorem pendingClaims_dropOwners (primaryId : String) (owners : List String) :
    (dropOwners f primaryId owners).pendingClaims = f.pendingClaims := by
  unfold dropOwners
  induction owners generalizing f with
  | nil => rfl
  | cons _ _ ih => exact ih _

end Frames

/-- A claim is kept under the one-shot of its key's filter. -/
def Keyed (h : Host) (f : Fetches) : Prop :=
  ∀ interestId claim, f.pendingClaims.lookup interestId = some claim →
    claim.interestId = interestId ∧ ∃ target,
      parseEventKey h.externalIdValidator claim.primaryId = some target ∧
        interestId = .oneshot target.filter

variable {h : Host} {claim : PendingClaim} {s s' : Kernel} {interestId : SubKey}
  {target : EventTarget} {answered : String × String → Prop} {freed : String → Prop}

theorem Keyed.eq {f : Fetches} (hkeyed : Keyed h f) {a b : SubKey} {claim other : PendingClaim}
    (ha : f.pendingClaims.lookup a = some claim) (hb : f.pendingClaims.lookup b = some other)
    (hprimary : claim.primaryId = other.primaryId) : a = b ∧ claim = other := by
  obtain ⟨-, target, htarget, rfl⟩ := hkeyed a claim ha
  obtain ⟨-, target', htarget', rfl⟩ := hkeyed b other hb
  rw [hprimary, htarget'] at htarget
  obtain rfl := Option.some.inj htarget
  exact ⟨rfl, Option.eq_some_unique ha hb⟩

/-- The claim found for a key is the one of the key. -/
theorem claimFor_eq_some {f : Fetches} (hkeyed : Keyed h f) {primaryId : String} :
    f.claimFor primaryId = some claim ↔
      ∃ interestId, f.pendingClaims.lookup interestId = some claim ∧
        claim.primaryId = primaryId := by
  unfold claimFor
  constructor
  · intro hfound
    obtain ⟨interestId, hlookup⟩ := (mem_values _ _).mp (List.mem_of_find?_eq_some hfound)
    exact ⟨interestId, hlookup, by simpa using List.find?_some hfound⟩
  · rintro ⟨interestId, hlookup, hprimary⟩
    have hmem : claim ∈ values f.pendingClaims := (mem_values _ _).mpr ⟨_, hlookup⟩
    cases hfound : (values f.pendingClaims).find? fun claim => claim.primaryId = primaryId with
    | none =>
      have hnot := List.find?_eq_none.mp hfound claim hmem
      simp [hprimary] at hnot
    | some other =>
      obtain ⟨otherId, hother⟩ := (mem_values _ _).mp (List.mem_of_find?_eq_some hfound)
      have hsame : other.primaryId = primaryId := by simpa using List.find?_some hfound
      rw [(hkeyed.eq hother hlookup (hsame.trans hprimary.symm)).2]

theorem claimFor_eq_none {f : Fetches} (hkeyed : Keyed h f) {primaryId : String} :
    f.claimFor primaryId = none ↔
      ∀ interestId claim, f.pendingClaims.lookup interestId = some claim →
        claim.primaryId ≠ primaryId := by
  rw [Option.eq_none_iff_forall_ne_some]
  constructor
  · intro hnone interestId claim hlookup hprimary
    exact hnone claim ((claimFor_eq_some hkeyed).mpr ⟨interestId, hlookup, hprimary⟩)
  · intro hnone claim hfound
    obtain ⟨interestId, hlookup, hprimary⟩ := (claimFor_eq_some hkeyed).mp hfound
    exact hnone interestId claim hlookup hprimary

/-- Whoever has the claims of `f`, or some of them changed only in what is not its key. -/
theorem Keyed.of_sub {f g : Fetches} (hkeyed : Keyed h f)
    (hsub : ∀ interestId claim, g.pendingClaims.lookup interestId = some claim → ∃ old, f.pendingClaims.lookup interestId = some old ∧ claim.interestId = old.interestId ∧ claim.primaryId = old.primaryId)
    : Keyed h g := by
  intro interestId claim hlookup
  obtain ⟨old, hold, hid, hprimary⟩ := hsub interestId claim hlookup
  rw [hid, hprimary]
  exact hkeyed interestId old hold

/-- Without a claim of the key nothing happens; else it is gone. -/
theorem lookup_releaseClaimExpansion {f : Fetches} (hkeyed : Keyed h f) (primaryId : String)
    (interestId : SubKey) (claim : PendingClaim) :
    (f.releaseClaimExpansion primaryId).pendingClaims.lookup interestId = some claim ↔
      f.pendingClaims.lookup interestId = some claim ∧ claim.primaryId ≠ primaryId := by
  unfold releaseClaimExpansion
  cases hfound : f.claimFor primaryId with
  | none =>
    have hnone := (claimFor_eq_none hkeyed).mp hfound
    exact ⟨fun hlookup => ⟨hlookup, hnone interestId claim hlookup⟩, And.left⟩
  | some found =>
    obtain ⟨foundId, hlookup, hprimary⟩ := (claimFor_eq_some hkeyed).mp hfound
    dsimp only
    rw [pendingClaims_unindex, pendingClaims_releaseClaimOneshotOwner, lookup_erase_eq,
      (hkeyed foundId found hlookup).1]
    split
    next heq =>
      subst heq
      refine iff_of_false nofun fun hboth => hboth.2 ?_
      rw [Option.eq_some_unique hboth.1 hlookup, hprimary]
    next hne =>
      refine ⟨fun hclaim => ⟨hclaim, fun hsame => hne ?_⟩, And.left⟩
      exact (hkeyed.eq hclaim hlookup (hsame.trans hprimary.symm)).1

theorem lookup_teardownEventClaimKey (hkeyed : Keyed h s.fetches) (primaryId : String)
    (interestId : SubKey) (claim : PendingClaim) :
    (teardownEventClaimKey s primaryId).fetches.pendingClaims.lookup interestId = some claim ↔
      s.fetches.pendingClaims.lookup interestId = some claim ∧ claim.primaryId ≠ primaryId := by
  have hdropped : Keyed h (dropOwners s.fetches primaryId
      ((s.eventRefs.live.lookup primaryId).getD ∅).elems) :=
    hkeyed.of_sub fun interestId claim hlookup =>
      ⟨claim, by rwa [pendingClaims_dropOwners] at hlookup, rfl, rfl⟩
  have hreleased := lookup_releaseClaimExpansion hdropped primaryId interestId claim
  rwa [pendingClaims_dropOwners] at hreleased

/-- The claim with its end on it. -/
def ended (reason : ClaimTermination) (claim : PendingClaim) : PendingClaim :=
  { claim with phase := .terminal reason }

/-- The state of a termination before a miss tears the key down. -/
def markEnded (s : Kernel) (interestId : SubKey) (claim : PendingClaim)
    (reason : ClaimTermination) : Kernel :=
  { s with
    fetches := ({ s.fetches with
      pendingClaims := s.fetches.pendingClaims.insert interestId (ended reason claim)
        }.releaseClaimOneshotOwner claim.interestId).unindex interestId
    terminated := (claim.primaryId, reason) :: s.terminated }

theorem terminateClaim_eq (hlookup : s.fetches.pendingClaims.lookup interestId = some claim)
    (reason : ClaimTermination) :
    terminateClaim s interestId reason =
      match reason with
      | .hit => markEnded s interestId claim reason
      | _ =>
        let torn := teardownEventClaimKey (markEnded s interestId claim reason) claim.primaryId
        { torn with eventClaimReleased := pushReleased torn.eventClaimReleased claim.primaryId } := by
  unfold terminateClaim
  rw [hlookup]
  cases reason <;> rfl

theorem lookup_markEnded (s : Kernel) (interestId : SubKey) (claim : PendingClaim)
    (reason : ClaimTermination) (key : SubKey) :
    (markEnded s interestId claim reason).fetches.pendingClaims.lookup key =
      if key = interestId then some (ended reason claim)
      else s.fetches.pendingClaims.lookup key := by
  rw [markEnded, pendingClaims_unindex, pendingClaims_releaseClaimOneshotOwner, lookup_insert_eq]

theorem Keyed.markEnded {h : Host} {s : Kernel} (hkeyed : Keyed h s.fetches) {interestId : SubKey}
    {claim : PendingClaim} (hlookup : s.fetches.pendingClaims.lookup interestId = some claim)
    (reason : ClaimTermination) : Keyed h (markEnded s interestId claim reason).fetches := by
  refine hkeyed.of_sub fun key other hother => ?_
  rw [lookup_markEnded] at hother
  split at hother
  next heq =>
    obtain rfl := Option.some.inj hother
    exact ⟨claim, heq ▸ hlookup, rfl, rfl⟩
  next => exact ⟨other, hother, rfl, rfl⟩

/-- A hit stays with its end on it until it is pruned; a miss is gone. -/
theorem lookup_terminateClaim (hkeyed : Keyed h s.fetches)
    (hlookup : s.fetches.pendingClaims.lookup interestId = some claim) (reason : ClaimTermination)
    (key : SubKey) (other : PendingClaim) :
    (terminateClaim s interestId reason).fetches.pendingClaims.lookup key = some other ↔
      if key = interestId then reason = .hit ∧ other = ended reason claim
      else s.fetches.pendingClaims.lookup key = some other := by
  have hmiss : (teardownEventClaimKey (markEnded s interestId claim reason)
      claim.primaryId).fetches.pendingClaims.lookup key = some other ↔
      key ≠ interestId ∧ s.fetches.pendingClaims.lookup key = some other := by
    rw [lookup_teardownEventClaimKey (hkeyed.markEnded hlookup reason), lookup_markEnded]
    split
    next heq =>
      refine iff_of_false (fun hboth => hboth.2 ?_) fun hboth => hboth.1 heq
      rw [← Option.some.inj hboth.1, ended]
    next hne =>
      refine ⟨fun hboth => ⟨hne, hboth.1⟩, fun hboth => ⟨hboth.2, fun hsame => hne ?_⟩⟩
      exact (hkeyed.eq hboth.2 hlookup hsame).1
  rw [terminateClaim_eq hlookup]
  cases reason with
  | hit =>
    dsimp only
    rw [lookup_markEnded]
    split
    · rw [Option.some.injEq, eq_comm, eq_self, true_and]
    · rfl
  | exhausted | budget =>
    dsimp only
    rw [hmiss]
    split <;> simp [*]

theorem Keyed.terminateClaim {h : Host} {s : Kernel} (hkeyed : Keyed h s.fetches)
    (interestId : SubKey) (reason : ClaimTermination) :
    Keyed h (terminateClaim s interestId reason).fetches := by
  cases hlookup : s.fetches.pendingClaims.lookup interestId with
  | none =>
    unfold RefEvents.terminateClaim
    rw [hlookup]
    exact hkeyed
  | some claim =>
    refine hkeyed.of_sub fun key other hother => ?_
    rw [lookup_terminateClaim hkeyed hlookup] at hother
    split at hother
    next heq => exact ⟨claim, heq ▸ hlookup, by rw [hother.2, ended], by rw [hother.2, ended]⟩
    next => exact ⟨other, hother, rfl, rfl⟩

theorem terminated_terminateClaim (hlookup : s.fetches.pendingClaims.lookup interestId = some claim)
    (reason : ClaimTermination) :
    (terminateClaim s interestId reason).terminated =
      (claim.primaryId, reason) :: s.terminated := by
  rw [terminateClaim_eq hlookup]
  cases reason <;> rfl

theorem events_terminateClaim (s : Kernel) (interestId : SubKey) (reason : ClaimTermination) :
    (terminateClaim s interestId reason).events = s.events := by
  cases hlookup : s.fetches.pendingClaims.lookup interestId with
  | none =>
    unfold terminateClaim
    rw [hlookup]
  | some =>
    rw [terminateClaim_eq hlookup]
    cases reason <;> rfl

theorem claimReplaceable_eq (s : Kernel) (kind : Nat) (pubkey : String) (dTag : Option String)
    (force : Bool) : ∃ due stamps, claimReplaceable s kind pubkey dTag force =
      { s with pendingReverify := due, checkAgainAfter := stamps } := by
  unfold claimReplaceable
  dsimp only
  split
  · exact ⟨_, _, rfl⟩
  · exact ⟨s.pendingReverify, s.checkAgainAfter, rfl⟩

theorem reverifyCoord_eq (h : Host) (s : Kernel) (coord : Option (Nat × String × String))
    (force : Bool) : ∃ due stamps, reverifyCoord h s coord force =
      { s with pendingReverify := due, checkAgainAfter := stamps } := by
  unfold reverifyCoord
  split
  · exact ⟨s.pendingReverify, s.checkAgainAfter, rfl⟩
  · split
    · exact ⟨s.pendingReverify, s.checkAgainAfter, rfl⟩
    · exact claimReplaceable_eq s _ _ _ force

theorem collectUnknownRefs_eq (s : Kernel) (tags : List (List String)) :
    ∃ ids pubkeys, collectUnknownRefs s tags =
      { s with unknownEvents := ids, unknownPubkeys := pubkeys } := by
  unfold collectUnknownRefs
  induction tags generalizing s with
  | nil => exact ⟨s.unknownEvents, s.unknownPubkeys, rfl⟩
  | cons tag _ ih =>
    have hturn : ∃ ids pubkeys, noteTag s tag =
        { s with unknownEvents := ids, unknownPubkeys := pubkeys } := by
      unfold noteTag noteEvent notePubkey
      split
      · split_ifs <;> exact ⟨_, _, rfl⟩
      · exact ⟨s.unknownEvents, s.unknownPubkeys, rfl⟩
    obtain ⟨ids, pubkeys, hturn⟩ := hturn
    rw [List.foldl_cons, hturn]
    exact ih { s with unknownEvents := ids, unknownPubkeys := pubkeys }

/-- Counting a consumer in touches the references and the revisions only. -/
theorem claimEvent_eq {claim : PendingEventClaim} (h : claimEvent s claim target = some s') :
    ∃ inserted refs versions, s.eventRefs.claim target.primaryId claim.consumerId =
        some (inserted, refs) ∧
      s' = { s with
        eventRefs := refs.demand target.primaryId claim.consumerId claim.shape
        versions := versions } := by
  unfold claimEvent at h
  dsimp only at h
  split at h
  next => cases h
  next inserted refs hclaim =>
    obtain rfl := Option.some.inj h
    exact ⟨inserted, refs, _, hclaim, rfl⟩

/-- How the fetch of a key starts. -/
inductive Started (h : Host) (s : Kernel) (claim : PendingEventClaim) (target : EventTarget) :
    Kernel → Prop
  | tail (due : List ReplaceableKey) (stamps : Table ReplaceableKey Nat)
    (hlive : claim.liveness = .live ∧ target.replaceableCoord.isSome = true) :
    Started h s claim target
      { markRequested (registerEventClaimInterest
          { s with fetches := s.fetches.cancelEventOneshot target.primaryId } target.primaryId
          claim.consumerId target.filter claim.relayHints) target.primaryId with
        pendingReverify := due, checkAgainAfter := stamps }
  | known (due : List ReplaceableKey) (stamps : Table ReplaceableKey Nat)
    (hknown : eventAlreadyKnown h s target.primaryId = true) :
    Started h s claim target { s with pendingReverify := due, checkAgainAfter := stamps }
  | requested (hrequested : target.primaryId ∈ s.eventClaimRequested) : Started h s claim target s
  | parked (author : Option String)
    (hcold : ¬ (claim.liveness = .live ∧ target.replaceableCoord.isSome = true))
    (hnew : target.primaryId ∉ s.eventClaimRequested) :
    Started h s claim target { s with
      pendingEventClaims := s.pendingEventClaims ++ [{ claim with eventAuthor := author }] }
  | request (author : Option String) (hints : List String) (startedAt : Nat)
    (hnew : target.primaryId ∉ s.eventClaimRequested) :
    Started h s claim target (requestEvent s target author hints startedAt)

theorem fetchEvent_started (h : Host) (s : Kernel) (claim : PendingEventClaim)
    (target : EventTarget) (canSend : Bool) (startedAt : Nat) :
    Started h s claim target (fetchEvent h s claim target canSend startedAt) := by
  unfold fetchEvent
  dsimp only
  split
  next hlive =>
    split
    · obtain ⟨due, stamps, heq⟩ := reverifyCoord_eq h (markRequested (registerEventClaimInterest
        { s with fetches := s.fetches.cancelEventOneshot target.primaryId } target.primaryId
        claim.consumerId target.filter claim.relayHints) target.primaryId)
        target.replaceableCoord claim.force
      rw [heq]
      exact .tail due stamps hlive
    · exact .tail s.pendingReverify s.checkAgainAfter hlive
  next hcold =>
    split
    next hknown =>
      obtain ⟨due, stamps, heq⟩ := reverifyCoord_eq h s target.replaceableCoord claim.force
      rw [heq]
      exact .known due stamps hknown
    next =>
      split
      next hrequested => exact .requested hrequested
      next hnew =>
        split
        · exact .parked _ hcold hnew
        · exact .request _ _ _ hnew

/-- What is parked is no live coordinate. -/
def Parkable (h : Host) (claim : PendingEventClaim) : Prop :=
  ∀ target, parseEventKey h.externalIdValidator claim.key = some target →
    ¬ (claim.liveness = .live ∧ target.replaceableCoord.isSome = true)

structure Sound (h : Host) (s : Kernel) : Prop where
  keyed : Keyed h s.fetches
  open_ : ∀ key claim, s.fetches.pendingClaims.lookup key = some claim →
    isTerminal claim.phase = false
  parked : ∀ claim ∈ s.pendingEventClaims, Parkable h claim

theorem sound_new (h : Host) : Sound h Kernel.new where
  keyed := fun _ _ hlookup => absurd hlookup (Option.some_ne_none _).symm
  open_ := fun _ _ hlookup => absurd hlookup (Option.some_ne_none _).symm
  parked := fun _ hparked => absurd hparked List.not_mem_nil

/-- What a step other than a poll does: claims that stay keep what is in flight but for what was
answered, only hits are logged, and only `freed` keys lose their consumers. -/
structure Carried (h : Host) (answered : String × String → Prop) (freed : String → Prop)
    (s s' : Kernel) : Prop where
  sound : Sound h s'
  attempts : ∀ key claim claim', s.fetches.pendingClaims.lookup key = some claim →
    s'.fetches.pendingClaims.lookup key = some claim' → ∀ attempt ∈ claim.inFlightAttempts,
      ¬ answered attempt → attempt ∈ claim'.inFlightAttempts
  terminated : ∃ new, s'.terminated = new ++ s.terminated ∧ ∀ e ∈ new, e.2 = .hit
  consumers : ∀ key, ¬ freed key → key ∈ s.eventRefs.claims → key ∈ s'.eventRefs.claims

theorem Carried.of_same (hsound : Sound h s)
    (hclaims : s'.fetches.pendingClaims = s.fetches.pendingClaims)
    (hterminated : s'.terminated = s.terminated) (hrefs : s'.eventRefs = s.eventRefs)
    (hparked : s'.pendingEventClaims = s.pendingEventClaims) : Carried h answered freed s s' where
  sound := by
    refine ⟨?_, ?_, ?_⟩
    · intro key claim hlookup
      exact hsound.keyed key claim (hclaims ▸ hlookup)
    · intro key claim hlookup
      exact hsound.open_ key claim (hclaims ▸ hlookup)
    · rw [hparked]
      exact hsound.parked
  attempts := by
    intro key claim claim' hbefore hafter attempt hattempt _
    rw [hclaims, hbefore] at hafter
    exact Option.some.inj hafter ▸ hattempt
  terminated := ⟨[], hterminated, nofun⟩
  consumers := by
    intro key _ hkey
    rwa [hrefs]

theorem lookup_cancelEventOneshot {f : Fetches} (hkeyed : Keyed h f) (primaryId : String)
    (interestId : SubKey) (claim : PendingClaim) :
    (f.cancelEventOneshot primaryId).pendingClaims.lookup interestId = some claim ↔
      f.pendingClaims.lookup interestId = some claim ∧ claim.primaryId ≠ primaryId := by
  unfold cancelEventOneshot
  cases hfound : f.claimFor primaryId with
  | none =>
    have hnone := (claimFor_eq_none hkeyed).mp hfound
    exact ⟨fun hlookup => ⟨hlookup, hnone interestId claim hlookup⟩, And.left⟩
  | some found =>
    dsimp only
    split
    next => exact lookup_releaseClaimExpansion hkeyed primaryId interestId claim
    next token _ =>
      let waiting : Fetches := { f with
        pendingDiscoveryOneshots := f.pendingDiscoveryOneshots.erase found.interestId }
      have hclaims : (waiting.release token).pendingClaims = f.pendingClaims :=
        pendingClaims_release waiting token
      have hreleased : Keyed h (waiting.release token) := fun key claim hlookup =>
        hkeyed key claim (hclaims ▸ hlookup)
      have hiff := lookup_releaseClaimExpansion hreleased primaryId interestId claim
      rwa [hclaims] at hiff

/-- A claim is registered where none was. -/
theorem lookup_requestEvent (hkeyed : Keyed h s.fetches) {key : String}
    (htarget : parseEventKey h.externalIdValidator key = some target) (author : Option String)
    (hints : List String) (startedAt : Nat) :
    (∀ interestId, (requestEvent s target author hints startedAt).fetches.pendingClaims.lookup
        interestId = s.fetches.pendingClaims.lookup interestId) ∨
      s.fetches.pendingClaims.lookup (.oneshot target.filter) = none ∧
      ∃ claim : PendingClaim, claim.interestId = .oneshot target.filter ∧
        claim.primaryId = target.primaryId ∧ claim.phase = .phase1 ∧
        claim.inFlightAttempts = ∅ ∧ ∀ interestId,
          (requestEvent s target author hints startedAt).fetches.pendingClaims.lookup interestId =
            if interestId = .oneshot target.filter then some claim
            else s.fetches.pendingClaims.lookup interestId := by
  unfold requestEvent registerClaimExpansion
  dsimp only [markRequested]
  split
  next hfound => exact .inl fun interestId => rfl
  next hnone =>
    have hnone' : s.fetches.claimFor target.primaryId = none :=
      Option.not_isSome_iff_eq_none.mp hnone
    refine .inr ⟨?_, ⟨.oneshot target.filter, target.primaryId, author, _, startedAt, .phase1, ∅,
      hints, ∅⟩, rfl, rfl, rfl, rfl, fun interestId => lookup_insert_eq _ _ _ _⟩
    cases hlookup : s.fetches.pendingClaims.lookup (.oneshot target.filter) with
    | none => rfl
    | some claim =>
      obtain ⟨-, other, hother, hfilter⟩ := hkeyed _ claim hlookup
      have hsame := parseEventKey_injective htarget hother (SubKey.oneshot.inj hfilter)
      refine absurd ?_ ((claimFor_eq_none hkeyed).mp hnone' _ claim hlookup)
      rw [primaryId_parseEventKey htarget, hsame]

theorem mem_claims_claim {σ : Type} {t refs : RefTable σ} {key consumerId : String}
    {inserted : Bool} (h : t.claim key consumerId = some (inserted, refs)) {other : String}
    (hother : other ∈ t.claims) : other ∈ refs.claims := by
  unfold RefTable.claim at h
  dsimp only at h
  split at h
  · cases h
  · cases h
    exact AList.mem_insert _ |>.mpr (.inr hother)

/-- What happened to other fields before a step does not matter to it. -/
theorem Carried.after {s t s' : Kernel} (hcarried : Carried h answered freed t s')
    (hclaims : t.fetches.pendingClaims = s.fetches.pendingClaims)
    (hterminated : t.terminated = s.terminated)
    (hconsumers : ∀ key, key ∈ s.eventRefs.claims → key ∈ t.eventRefs.claims) :
    Carried h answered freed s s' where
  sound := hcarried.sound
  attempts := fun key claim claim' hbefore =>
    hcarried.attempts key claim claim' (by rwa [hclaims])
  terminated := by
    rw [← hterminated]
    exact hcarried.terminated
  consumers := fun key hkey hmem => hcarried.consumers key hkey (hconsumers key hmem)

/-- The claims of `s` that are left in `s'` are left as they were. -/
theorem Carried.of_kept (hsound : Sound h s')
    (hkept : ∀ key claim claim', s.fetches.pendingClaims.lookup key = some claim → s'.fetches.pendingClaims.lookup key = some claim' → claim' = claim)
    (hterminated : s'.terminated = s.terminated) (hrefs : s'.eventRefs.claims = s.eventRefs.claims)
    :
    Carried h answered freed s s' where
  sound := hsound
  attempts := by
    intro key claim claim' hbefore hafter attempt hattempt _
    rwa [hkept key claim claim' hbefore hafter]
  terminated := ⟨[], hterminated, nofun⟩
  consumers := by
    intro key _ hkey
    rwa [hrefs]

/-- The start of a fetch keeps every claim as it is, unless a tail takes the key over. -/
theorem carried_fetchEvent (hsound : Sound h s) {claim : PendingEventClaim}
    (htarget : parseEventKey h.externalIdValidator claim.key = some target) (canSend : Bool)
    (startedAt : Nat) (answered : String × String → Prop) (freed : String → Prop) :
    Carried h answered freed s (fetchEvent h s claim target canSend startedAt) ∧
      (Parkable h claim → ∀ key found, s.fetches.pendingClaims.lookup key = some found →
        (fetchEvent h s claim target canSend startedAt).fetches.pendingClaims.lookup key =
          some found) := by
  have hstarted := fetchEvent_started h s claim target canSend startedAt
  generalize fetchEvent h s claim target canSend startedAt = s' at hstarted ⊢
  cases hstarted with
  | tail _ _ hlive =>
    have hlookup := lookup_cancelEventOneshot hsound.keyed target.primaryId
    refine ⟨.of_kept ⟨?_, ?_, hsound.parked⟩ ?_ rfl rfl, fun hpark => ?_⟩
    · exact hsound.keyed.of_sub fun key found hfound =>
        ⟨found, ((hlookup key found).mp hfound).1, rfl, rfl⟩
    · exact fun key found hfound => hsound.open_ key found ((hlookup key found).mp hfound).1
    · intro key found found' hbefore hafter
      exact Option.some.inj (((hlookup key found').mp hafter).1.symm.trans hbefore)
    · exact absurd hlive (hpark target htarget)
  | known | requested => exact ⟨.of_same hsound rfl rfl rfl rfl, fun _ _ _ => id⟩
  | parked _ hcold =>
    refine ⟨.of_kept ⟨hsound.keyed, hsound.open_, ?_⟩ ?_ rfl rfl, fun _ _ _ => id⟩
    · intro parked hparked
      rcases List.mem_append.mp hparked with hold | hnew
      · exact hsound.parked parked hold
      · obtain rfl := List.mem_singleton.mp hnew
        intro target' htarget'
        obtain rfl := Option.eq_some_unique htarget htarget'
        exact hcold
    · exact fun key found found' hbefore hafter => Option.eq_some_unique hafter hbefore
  | request author hints startedAt =>
    obtain hsame | ⟨hnone, new, hid, hprimary, hphase, -, hlookup⟩ :=
      lookup_requestEvent hsound.keyed htarget author hints startedAt
    · refine ⟨.of_kept ⟨?_, ?_, hsound.parked⟩ ?_ rfl rfl, fun _ key found hfound => ?_⟩
      · exact fun key found hfound => hsound.keyed key found (by rwa [hsame] at hfound)
      · exact fun key found hfound => hsound.open_ key found (by rwa [hsame] at hfound)
      · intro key found found' hbefore hafter
        rw [hsame] at hafter
        exact Option.eq_some_unique hafter hbefore
      · rwa [hsame]
    · have hkept : ∀ key found, s.fetches.pendingClaims.lookup key = some found →
          (requestEvent s target author hints startedAt).fetches.pendingClaims.lookup key =
            some found := by
        intro key found hfound
        rw [hlookup, if_neg, hfound]
        rintro rfl
        exact absurd (hfound.symm.trans hnone) nofun
      refine ⟨.of_kept ⟨?_, ?_, hsound.parked⟩ ?_ rfl rfl, fun _ => hkept⟩
      · intro key found hfound
        rw [hlookup] at hfound
        split at hfound
        next heq =>
          obtain rfl := Option.some.inj hfound
          refine ⟨hid.trans heq.symm, target, ?_, heq⟩
          rwa [hprimary, primaryId_parseEventKey htarget]
        next => exact hsound.keyed key found hfound
      · intro key found hfound
        rw [hlookup] at hfound
        split at hfound
        · obtain rfl := Option.some.inj hfound
          rw [hphase]
          rfl
        · exact hsound.open_ key found hfound
      · intro key found found' hbefore hafter
        exact Option.eq_some_unique hafter (hkept key found hbefore)

theorem carried_resolveEventRef (hsound : Sound h s) (claim : PendingEventClaim) (canSend : Bool)
    (startedAt : Nat) (answered : String × String → Prop) (freed : String → Prop) :
    Carried h answered freed s (resolveEventRef h s claim canSend startedAt) ∧
      (Parkable h claim → ∀ key found, s.fetches.pendingClaims.lookup key = some found →
        (resolveEventRef h s claim canSend startedAt).fetches.pendingClaims.lookup key =
          some found) := by
  unfold resolveEventRef
  split
  next => exact ⟨.of_same hsound rfl rfl rfl rfl, fun _ _ _ => id⟩
  next target htarget =>
    split
    next =>
      refine ⟨.of_kept ⟨hsound.keyed, hsound.open_, hsound.parked⟩ ?_ rfl rfl, fun _ _ _ => id⟩
      exact fun key found found' hbefore hafter => Option.eq_some_unique hafter hbefore
    next counted hcounted =>
      obtain ⟨inserted, refs, versions, hclaim, rfl⟩ := claimEvent_eq hcounted
      have hcounts : Sound h { s with
          eventRefs := refs.demand target.primaryId claim.consumerId claim.shape
          versions := versions } := ⟨hsound.keyed, hsound.open_, hsound.parked⟩
      have hcarried := carried_fetchEvent hcounts htarget canSend startedAt answered freed
      exact ⟨hcarried.1.after rfl rfl fun key => mem_claims_claim hclaim, hcarried.2⟩

/-- A step that keeps every claim as it is can go first. -/
theorem Carried.trans_kept {s t u : Kernel} (hfirst : Carried h answered freed s t)
    (hkept : ∀ key found, s.fetches.pendingClaims.lookup key = some found → t.fetches.pendingClaims.lookup key = some found)
    (hsecond : Carried h answered freed t u) : Carried h answered freed s u where
  sound := hsecond.sound
  attempts := fun key claim claim' hbefore =>
    hsecond.attempts key claim claim' (hkept key claim hbefore)
  terminated := by
    obtain ⟨new, hnew, hhits⟩ := hfirst.terminated
    obtain ⟨newer, hnewer, hlater⟩ := hsecond.terminated
    refine ⟨newer ++ new, by rw [hnewer, hnew, List.append_assoc], fun e he => ?_⟩
    exact (List.mem_append.mp he).elim (hlater e) (hhits e)
  consumers := fun key hkey hmem => hsecond.consumers key hkey (hfirst.consumers key hkey hmem)

/-- One turn of the drain of parked claims. -/
def replayParked (h : Host) (now : Nat) (s : Kernel) (claim : PendingEventClaim) : Kernel :=
  match parkedPrimaryId h claim with
  | none => resolveEventRef h s claim true now
  | some primaryId =>
    if claim.consumerId ∈ s.eventRefs.consumers primaryId then resolveEventRef h s claim true now
    else s

theorem drainParked_eq (h : Host) (s : Kernel) (now : Nat) : drainParked h s now =
    s.pendingEventClaims.foldl (replayParked h now) { s with pendingEventClaims := [] } := rfl

theorem replayParked_cases (h : Host) (now : Nat) (s : Kernel) (claim : PendingEventClaim) :
    replayParked h now s claim = s ∨
      replayParked h now s claim = resolveEventRef h s claim true now := by
  unfold replayParked
  split
  · exact .inr rfl
  · split
    · exact .inr rfl
    · exact .inl rfl

theorem carried_drainParked (hsound : Sound h s) (now : Nat) (answered : String × String → Prop)
    (freed : String → Prop) : Carried h answered freed s (drainParked h s now) := by
  have hfold : ∀ (parked : List PendingEventClaim) (t : Kernel), Sound h t →
      (∀ claim ∈ parked, Parkable h claim) →
        Carried h answered freed t (parked.foldl (replayParked h now) t) := by
    intro parked
    induction parked with
    | nil => exact fun t ht _ => .of_same ht rfl rfl rfl rfl
    | cons claim _ ih =>
      intro t ht hpark
      have hrest := fun other hother => hpark other (List.mem_cons_of_mem claim hother)
      rw [List.foldl_cons]
      rcases replayParked_cases h now t claim with hskip | hreplay
      · rw [hskip]
        exact ih t ht hrest
      · rw [hreplay]
        obtain ⟨hturn, hkept⟩ := carried_resolveEventRef ht claim true now answered freed
        exact hturn.trans_kept (hkept (hpark claim List.mem_cons_self)) (ih _ hturn.sound hrest)
  rw [drainParked_eq]
  refine (hfold s.pendingEventClaims _ ?_ hsound.parked).after rfl rfl fun _ => id
  exact ⟨hsound.keyed, hsound.open_, nofun⟩

theorem releaseEventClaimInterest_eq (s : Kernel) (primaryId consumerId : String) :
    ∃ live registry, releaseEventClaimInterest s primaryId consumerId =
      { s with
        eventRefs := { s.eventRefs with live := live }
        fetches := { s.fetches with registry := registry } } := by
  have hleft : ∃ live, (s.eventRefs.leaveLive primaryId consumerId).2.2 =
      { s.eventRefs with live := live } := by
    unfold RefTable.leaveLive
    split
    · exact ⟨_, rfl⟩
    · split_ifs <;> exact ⟨_, rfl⟩
  obtain ⟨live, hleft⟩ := hleft
  unfold releaseEventClaimInterest
  dsimp only
  split
  · exact ⟨live, _, by rw [hleft]; rfl⟩
  · exact ⟨s.eventRefs.live, s.fetches.registry, rfl⟩

theorem mem_claims_unclaim {σ : Type} (t : RefTable σ) (key consumerId other : String)
    (hother : other ∈ t.claims) : other ∈ (t.unclaim key consumerId).2.2.claims := by
  unfold RefTable.unclaim
  split
  · exact hother
  · exact AList.mem_insert _ |>.mpr (.inr hother)

theorem claims_undemand {σ : Type} (t : RefTable σ) (key consumerId : String) :
    (t.undemand key consumerId).claims = t.claims := by
  unfold RefTable.undemand
  split
  · rfl
  · split <;> rfl

/-- A release ends at most the claim of its key. -/
theorem carried_releaseEventRef (hsound : Sound h s) (key consumerId : String)
    (answered : String × String → Prop) :
    Carried h answered (fun freed => freed = key) s (releaseEventRef h s key consumerId) := by
  unfold releaseEventRef
  split
  next => exact .of_same hsound rfl rfl rfl rfl
  next target htarget =>
    dsimp only
    obtain ⟨live, registry, heq⟩ := releaseEventClaimInterest_eq
      { s with eventRefs :=
        ((s.eventRefs.unclaim target.primaryId consumerId).2.2.undemand target.primaryId consumerId) }
      target.primaryId consumerId
    rw [heq]
    have hclaims : ∀ other, other ∈ s.eventRefs.claims →
        other ∈ ((s.eventRefs.unclaim target.primaryId consumerId).2.2.undemand target.primaryId
          consumerId).claims := by
      intro other hother
      rw [claims_undemand]
      exact mem_claims_unclaim _ _ _ _ hother
    have hparked : ∀ claim ∈ s.pendingEventClaims.filter (fun claim =>
        claim.consumerId ≠ consumerId || parkedPrimaryId h claim ≠ some target.primaryId),
        Parkable h claim := fun claim hclaim => hsound.parked claim (List.mem_of_mem_filter hclaim)
    split
    next =>
      let left : Kernel := removeParkedEventClaim h { s with
        eventRefs := { ((s.eventRefs.unclaim target.primaryId consumerId).2.2.undemand
          target.primaryId consumerId) with live := live }
        fetches := { s.fetches with registry := registry } } target.primaryId consumerId
      have hleft : Keyed h left.fetches := hsound.keyed
      have hlookup := lookup_teardownEventClaimKey hleft target.primaryId
      refine ⟨⟨?_, ?_, hparked⟩, ?_, ⟨[], rfl, nofun⟩, ?_⟩
      · exact hsound.keyed.of_sub fun id claim hclaim =>
          ⟨claim, ((hlookup id claim).mp hclaim).1, rfl, rfl⟩
      · exact fun id claim hclaim => hsound.open_ id claim ((hlookup id claim).mp hclaim).1
      · intro id claim claim' hbefore hafter attempt hattempt _
        have hsame := ((hlookup id claim').mp hafter).1
        exact Option.eq_some_unique hbefore hsame ▸ hattempt
      · intro other hother hmem
        refine AList.mem_erase.mpr ⟨fun heq => hother ?_, hclaims other hmem⟩
        rw [heq, primaryId_parseEventKey htarget]
    next =>
      have hkept : ∀ id claim claim', s.fetches.pendingClaims.lookup id = some claim →
          s.fetches.pendingClaims.lookup id = some claim' → ∀ attempt ∈ claim.inFlightAttempts,
            ¬ answered attempt → attempt ∈ claim'.inFlightAttempts := by
        intro id claim claim' hbefore hafter attempt hattempt _
        exact Option.eq_some_unique hbefore hafter ▸ hattempt
      split
      · exact ⟨⟨hsound.keyed, hsound.open_, hparked⟩, hkept, ⟨[], rfl, nofun⟩,
          fun other _ => hclaims other⟩
      · exact ⟨⟨hsound.keyed, hsound.open_, hparked⟩, hkept, ⟨[], rfl, nofun⟩,
          fun other _ => hclaims other⟩

/-- A `REQ` adds its attempt to the claim of its interest. -/
theorem lookup_registerReq (f : Fetches) (relay subId : String) (interestId key : SubKey) :
    (f.registerReq relay subId interestId).pendingClaims.lookup key =
      (f.pendingClaims.lookup key).map fun claim =>
        if key = interestId then { claim with
          inFlightAttempts := insert (relay, subId) claim.inFlightAttempts }
        else claim := by
  have hbridge : (f.bridgeDiscovery subId interestId).pendingClaims = f.pendingClaims := by
    unfold bridgeDiscovery
    split <;> rfl
  unfold registerReq recordAttempt
  rw [hbridge]
  cases hlookup : f.pendingClaims.lookup interestId with
  | none =>
    dsimp only
    rw [hbridge]
    by_cases hkey : key = interestId
    · rw [hkey, hlookup]
      rfl
    · simp [hkey]
  | some =>
    dsimp only
    rw [lookup_insert_eq]
    by_cases hkey : key = interestId
    · rw [if_pos hkey, hkey, hlookup, Option.map_some, if_pos rfl]
    · simp [hkey]

/-- An answer takes its attempt off the claim of its subscription. -/
theorem lookup_onClaimOutcomeEoseNoMatch (f : Fetches) (subId relay : String) (key : SubKey) :
    (f.onClaimOutcomeEoseNoMatch subId relay).pendingClaims.lookup key =
      (f.pendingClaims.lookup key).map fun claim =>
        if f.claimSubIndex.lookup subId = some key then { claim with
          inFlightAttempts := claim.inFlightAttempts.erase (relay, subId)
          attempted := insert relay claim.attempted }
        else claim := by
  unfold onClaimOutcomeEoseNoMatch
  cases hindex : f.claimSubIndex.lookup subId with
  | none => simp
  | some id =>
    dsimp only
    rw [lookup_edit]
    by_cases hkey : key = id
    · simp [hkey]
    · rw [if_neg hkey]
      have hother : ¬ (some id = some key) := fun heq => hkey (Option.some.inj heq).symm
      simp only [hother, if_false, Option.map_id']

theorem pendingClaims_completeUnknownOneshot (f : Fetches) (subId : String) :
    (f.completeUnknownOneshot subId).pendingClaims = f.pendingClaims := by
  unfold completeUnknownOneshot
  split
  · rfl
  · dsimp only
    split
    · rfl
    · rw [pendingClaims_release]

theorem claimSubIndex_completeUnknownOneshot (f : Fetches) (subId : String) :
    (f.completeUnknownOneshot subId).claimSubIndex = f.claimSubIndex := by
  unfold completeUnknownOneshot
  split
  · rfl
  · dsimp only
    split
    · rfl
    · rw [claimSubIndex_release]

/-- Claims edited in place, each into one of the same key and phase. -/
theorem Carried.of_map (hsound : Sound h s) (edit : SubKey → PendingClaim → PendingClaim)
    (hlookup : ∀ key, s'.fetches.pendingClaims.lookup key = (s.fetches.pendingClaims.lookup key).map (edit key))
    (hid : ∀ key claim, (edit key claim).interestId = claim.interestId)
    (hprimary : ∀ key claim, (edit key claim).primaryId = claim.primaryId)
    (hphase : ∀ key claim, (edit key claim).phase = claim.phase)
    (hattempts : ∀ key claim, ∀ attempt ∈ claim.inFlightAttempts, ¬ answered attempt → attempt ∈ (edit key claim).inFlightAttempts)
    (hterminated : s'.terminated = s.terminated) (hrefs : s'.eventRefs = s.eventRefs)
    (hparked : s'.pendingEventClaims = s.pendingEventClaims) : Carried h answered freed s s' where
  sound := by
    refine ⟨?_, ?_, hparked ▸ hsound.parked⟩
    · refine hsound.keyed.of_sub fun key claim hclaim => ?_
      rw [hlookup, Option.map_eq_some_iff] at hclaim
      obtain ⟨old, hold, rfl⟩ := hclaim
      exact ⟨old, hold, hid key old, hprimary key old⟩
    · intro key claim hclaim
      rw [hlookup, Option.map_eq_some_iff] at hclaim
      obtain ⟨old, hold, rfl⟩ := hclaim
      rw [hphase]
      exact hsound.open_ key old hold
  attempts := by
    intro key claim claim' hbefore hafter attempt hattempt hopen
    rw [hlookup, hbefore, Option.map_some] at hafter
    exact Option.some.inj hafter ▸ hattempts key claim attempt hattempt hopen
  terminated := ⟨[], hterminated, nofun⟩
  consumers := by
    intro key _ hkey
    rwa [hrefs]

theorem carried_registerPlannerReq (hsound : Sound h s) (req : WireReq)
    (answered : String × String → Prop) (freed : String → Prop) :
    Carried h answered freed s (registerPlannerReq h s req) := by
  have hfields : (registerPlannerReq h s req).fetches =
      s.fetches.registerReq (h.canonicalRelay req.relayUrl) req.subId req.interestId ∧
      (registerPlannerReq h s req).terminated = s.terminated ∧
      (registerPlannerReq h s req).eventRefs = s.eventRefs ∧
      (registerPlannerReq h s req).pendingEventClaims = s.pendingEventClaims := by
    unfold registerPlannerReq
    split <;> exact ⟨rfl, rfl, rfl, rfl⟩
  obtain ⟨hfetches, hterminated, hrefs, hparked⟩ := hfields
  refine .of_map hsound (fun key claim => if key = req.interestId then { claim with
      inFlightAttempts := insert (h.canonicalRelay req.relayUrl, req.subId) claim.inFlightAttempts }
    else claim) (fun key => ?_) (fun key claim => ?_) (fun key claim => ?_) (fun key claim => ?_)
    (fun key claim attempt hattempt _ => ?_) hterminated hrefs hparked
  · rw [hfetches, lookup_registerReq]
  · split <;> rfl
  · split <;> rfl
  · split <;> rfl
  · split
    · exact Finset.mem_insert_of_mem hattempt
    · exact hattempt

theorem carried_handleEose (hsound : Sound h s) (relayUrl subId : String) (freed : String → Prop) :
    Carried h (fun attempt => attempt = (h.canonicalRelay relayUrl, subId)) freed s
      (handleEose h s relayUrl subId) := by
  have hfields : (handleEose h s relayUrl subId).fetches =
      (s.fetches.completeUnknownOneshot subId).onClaimOutcomeEoseNoMatch subId
        (h.canonicalRelay relayUrl) ∧
      (handleEose h s relayUrl subId).terminated = s.terminated ∧
      (handleEose h s relayUrl subId).eventRefs = s.eventRefs ∧
      (handleEose h s relayUrl subId).pendingEventClaims = s.pendingEventClaims := by
    unfold handleEose confirmReverified
    dsimp only
    split <;> exact ⟨rfl, rfl, rfl, rfl⟩
  obtain ⟨hfetches, hterminated, hrefs, hparked⟩ := hfields
  refine .of_map hsound (fun key claim =>
    if s.fetches.claimSubIndex.lookup subId = some key then { claim with
      inFlightAttempts := claim.inFlightAttempts.erase (h.canonicalRelay relayUrl, subId)
      attempted := insert (h.canonicalRelay relayUrl) claim.attempted }
    else claim) (fun key => ?_) (fun key claim => ?_) (fun key claim => ?_) (fun key claim => ?_)
    (fun key claim attempt hattempt hopen => ?_) hterminated hrefs hparked
  · rw [hfetches, lookup_onClaimOutcomeEoseNoMatch, pendingClaims_completeUnknownOneshot,
      claimSubIndex_completeUnknownOneshot]
  · split <;> rfl
  · split <;> rfl
  · split <;> rfl
  · split
    · exact Finset.mem_erase.mpr ⟨hopen, hattempt⟩
    · exact hattempt

theorem lookup_pruneTerminal (s : Kernel) (key : SubKey) (claim : PendingClaim) :
    (pruneTerminal s).fetches.pendingClaims.lookup key = some claim ↔
      s.fetches.pendingClaims.lookup key = some claim ∧ isTerminal claim.phase = false := by
  unfold pruneTerminal
  dsimp only
  rw [lookup_filterMapValues]
  cases s.fetches.pendingClaims.lookup key with
  | none => simp
  | some found =>
    rw [Option.bind_some]
    cases hphase : isTerminal found.phase with
    | true =>
      simp only [if_true]
      refine iff_of_false nofun fun hboth => ?_
      rw [← Option.some.inj hboth.1, hphase] at hboth
      exact absurd hboth.2 nofun
    | false =>
      simp only [Bool.false_eq_true, if_false]
      exact ⟨fun heq => ⟨heq, Option.some.inj heq ▸ hphase⟩, And.left⟩

theorem carried_onClaimOutcomeHit (hsound : Sound h s) (subId : String)
    (answered : String × String → Prop) (freed : String → Prop) :
    Carried h answered freed s (onClaimOutcomeHit s subId) := by
  unfold onClaimOutcomeHit
  dsimp only
  split
  next => exact .of_same hsound rfl rfl rfl rfl
  next interestId _ =>
    cases hlookup : s.fetches.pendingClaims.lookup interestId with
    | none =>
      have hsame : terminateClaim s interestId .hit = s := by
        unfold terminateClaim
        rw [hlookup]
      rw [hsame]
      refine .of_kept ⟨?_, ?_, hsound.parked⟩ (fun key claim claim' hbefore hafter => ?_) rfl rfl
      · exact hsound.keyed.of_sub fun key claim hclaim =>
          ⟨claim, ((lookup_pruneTerminal _ key claim).mp hclaim).1, rfl, rfl⟩
      · exact fun key claim hclaim => ((lookup_pruneTerminal _ key claim).mp hclaim).2
      · exact Option.some.inj (((lookup_pruneTerminal _ key claim').mp hafter).1.symm.trans hbefore)
    | some ended =>
      have hkeyed := hsound.keyed.terminateClaim interestId .hit
      have hleft : ∀ key claim, (pruneTerminal { terminateClaim s interestId .hit with
          fetches := (terminateClaim s interestId .hit).fetches.unindex interestId
            }).fetches.pendingClaims.lookup key = some claim →
          s.fetches.pendingClaims.lookup key = some claim := by
        intro key claim hclaim
        obtain ⟨hstays, hopen⟩ := (lookup_pruneTerminal _ key claim).mp hclaim
        have hends := (lookup_terminateClaim hsound.keyed hlookup .hit key claim).mp hstays
        split at hends
        · rw [hends.2] at hopen
          exact absurd hopen nofun
        · exact hends
      have hhit := terminateClaim_eq hlookup .hit
      refine ⟨⟨?_, ?_, ?_⟩, ?_, ⟨[(ended.primaryId, .hit)], ?_, ?_⟩, ?_⟩
      · exact hkeyed.of_sub fun key claim hclaim =>
          ⟨claim, ((lookup_pruneTerminal _ key claim).mp hclaim).1, rfl, rfl⟩
      · exact fun key claim hclaim => ((lookup_pruneTerminal _ key claim).mp hclaim).2
      · rw [hhit]
        exact hsound.parked
      · intro key claim claim' hbefore hafter attempt hattempt _
        exact Option.eq_some_unique hbefore (hleft key claim' hafter) ▸ hattempt
      · rw [hhit]
        rfl
      · intro e he
        rw [List.mem_singleton.mp he]
      · intro key _ hkey
        rw [hhit]
        exact hkey

theorem carried_handleEvent (hsound : Sound h s) (subId id : String) (ev : StoredEvent)
    (answered : String × String → Prop) (freed : String → Prop) :
    Carried h answered freed s (handleEvent s subId id ev) := by
  unfold handleEvent
  obtain ⟨ids, pubkeys, heq⟩ := collectUnknownRefs_eq { s with
    events := s.events.insert id ev
    store := s.store.insert id ev } ev.tags
  dsimp only
  rw [heq]
  split
  · refine (carried_onClaimOutcomeHit ?_ subId answered freed).after rfl rfl fun _ hmem => hmem
    exact ⟨hsound.keyed, hsound.open_, hsound.parked⟩
  · exact .of_same hsound rfl rfl rfl rfl

theorem claimProfile_eq {pubkey consumerId : String} {shape : ProfileShape} {liveness : RefLiveness}
    (h : claimProfile s pubkey consumerId shape liveness = some s') :
    ∃ inserted refs versions, s.profileRefs.claim pubkey consumerId = some (inserted, refs) ∧
      s' = { s with
        profileRefs := refs.demand pubkey consumerId shape
        versions := versions } := by
  unfold claimProfile at h
  dsimp only at h
  split at h
  next => cases h
  next inserted refs hclaim =>
    obtain rfl := Option.some.inj h
    exact ⟨inserted, refs, _, hclaim, rfl⟩

theorem reverifyProfile_eq (h : Host) (s : Kernel) (pubkey : String) (force : Bool) :
    ∃ due stamps, reverifyProfile h s pubkey force =
      { s with pendingReverify := due, checkAgainAfter := stamps } := by
  unfold reverifyProfile
  split
  · split
    · exact ⟨s.pendingReverify, s.checkAgainAfter, rfl⟩
    · exact claimReplaceable_eq s _ _ _ force
  · exact ⟨s.pendingReverify, s.checkAgainAfter, rfl⟩

/-- Profile references share the registry and the queue of re-verifications, and nothing else. -/
theorem resolveProfileRef_eq (h : Host) (s : Kernel) (pubkey consumerId : String)
    (shape : ProfileShape) (liveness : RefLiveness) (force : Bool) (hints : List String) :
    ∃ refs registry versions due stamps,
      resolveProfileRef h s pubkey consumerId shape liveness force hints =
        { s with
          profileRefs := refs
          fetches := { s.fetches with registry := registry }
          versions := versions
          pendingReverify := due
          checkAgainAfter := stamps } := by
  unfold resolveProfileRef
  split
  next => exact ⟨_, s.fetches.registry, s.versions, s.pendingReverify, s.checkAgainAfter, rfl⟩
  next counted hcounted =>
    obtain ⟨inserted, refs, versions, -, rfl⟩ := claimProfile_eq hcounted
    obtain ⟨due, stamps, heq⟩ := reverifyProfile_eq h { s with
      profileRefs := refs.demand pubkey consumerId shape
      versions := versions } pubkey force
    rw [heq]
    dsimp only
    split
    · exact ⟨_, _, versions, due, stamps, rfl⟩
    · exact ⟨_, s.fetches.registry, versions, due, stamps, rfl⟩

theorem releaseProfileRef_eq (s : Kernel) (pubkey consumerId : String) :
    ∃ refs registry versions, releaseProfileRef s pubkey consumerId =
      { s with
        profileRefs := refs
        fetches := { s.fetches with registry := registry }
        versions := versions } := by
  unfold releaseProfileRef
  dsimp only
  have hbumped : ∀ t : Kernel, (∃ refs registry, t =
      { s with profileRefs := refs, fetches := { s.fetches with registry := registry } }) →
      ∀ (p q : Prop) [Decidable p] [Decidable q], ∃ refs registry versions,
        (if p then { t with versions := t.versions.clearProfile pubkey }
          else if q then { t with versions := t.versions.bumpProfile pubkey } else t) =
        { s with
          profileRefs := refs
          fetches := { s.fetches with registry := registry }
          versions := versions } := by
    rintro t ⟨refs, registry, rfl⟩ p q _ _
    split_ifs
    · exact ⟨refs, registry, _, rfl⟩
    · exact ⟨refs, registry, _, rfl⟩
    · exact ⟨refs, registry, s.versions, rfl⟩
  refine hbumped _ ?_ _ _
  split
  · split
    · exact ⟨_, _, rfl⟩
    · exact ⟨_, _, rfl⟩
  · exact ⟨_, _, rfl⟩

theorem requestReverify_fold (keys : List ReplaceableKey) (s : Kernel) :
    (keys.foldl requestReverify s).fetches.pendingClaims = s.fetches.pendingClaims ∧
      (keys.foldl requestReverify s).terminated = s.terminated ∧
      (keys.foldl requestReverify s).eventRefs = s.eventRefs ∧
      (keys.foldl requestReverify s).pendingEventClaims = s.pendingEventClaims := by
  induction keys generalizing s with
  | nil => exact ⟨rfl, rfl, rfl, rfl⟩
  | cons key _ ih => exact ih (requestReverify s key)

theorem drainUnknownOneshots_fields (s : Kernel) :
    (drainUnknownOneshots s).fetches.pendingClaims = s.fetches.pendingClaims ∧
      (drainUnknownOneshots s).terminated = s.terminated ∧
      (drainUnknownOneshots s).eventRefs = s.eventRefs ∧
      (drainUnknownOneshots s).pendingEventClaims = s.pendingEventClaims := by
  unfold drainUnknownOneshots
  dsimp only
  split_ifs <;> exact ⟨rfl, rfl, rfl, rfl⟩

/-- The attempt the operation answers. -/
def Answers (h : Host) : Op → String × String → Prop
  | .eose relayUrl subId => fun attempt => attempt = (h.canonicalRelay relayUrl, subId)
  | _ => fun _ => False

/-- The key the operation releases. -/
def Frees : Op → String → Prop
  | .releaseEvent key _ => fun freed => freed = key
  | _ => fun _ => False

def IsPoll : Op → Prop
  | .poll _ _ => True
  | _ => False

theorem carried_step (hsound : Sound h s) {op : Op} (hop : ¬ IsPoll op) :
    Carried h (Answers h op) (Frees op) s (step h s op) := by
  cases op with
  | resolveEvent claim => exact (carried_resolveEventRef hsound claim _ _ _ _).1
  | releaseEvent key consumerId => exact carried_releaseEventRef hsound key consumerId _
  | resolveProfile pubkey consumerId shape liveness force hints =>
    obtain ⟨refs, registry, versions, due, stamps, heq⟩ :=
      resolveProfileRef_eq h s pubkey consumerId shape liveness force hints
    rw [step, heq]
    exact .of_same hsound rfl rfl rfl rfl
  | releaseProfile pubkey consumerId =>
    obtain ⟨refs, registry, versions, heq⟩ := releaseProfileRef_eq s pubkey consumerId
    rw [step, heq]
    exact .of_same hsound rfl rfl rfl rfl
  | drainParked now => exact carried_drainParked hsound now _ _
  | drainReverify =>
    obtain ⟨hclaims, hterminated, hrefs, hparked⟩ :=
      requestReverify_fold s.pendingReverify { s with pendingReverify := [] }
    exact .of_same hsound hclaims hterminated hrefs hparked
  | drainUnknown =>
    obtain ⟨hclaims, hterminated, hrefs, hparked⟩ := drainUnknownOneshots_fields s
    exact .of_same hsound hclaims hterminated hrefs hparked
  | req req => exact carried_registerPlannerReq hsound req _ _
  | eose relayUrl subId => exact carried_handleEose hsound relayUrl subId _
  | event subId id ev => exact carried_handleEvent hsound subId id ev _ _
  | mention =>
    rw [step]
    unfold notePubkey
    split <;> exact .of_same hsound rfl rfl rfl rfl
  | poll => exact absurd trivial hop
  | _ => exact .of_same hsound rfl rfl rfl rfl

end RefClaims
