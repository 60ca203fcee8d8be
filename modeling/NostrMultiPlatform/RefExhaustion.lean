import NostrMultiPlatform.RefClaims

/-!
# Exhausted claims

A claim may end as exhausted in the poll that finds it idle in phase 2, and on its
way out of phase 1 when there is nothing to pick. The second looks at the free
slots, so relays that have not answered yet count as nothing left to try.
-/
namespace RefExhaustion

open RefClaims RefEvents RefFetches RefState Tables

theorem mem_dedup {a : String} {urls : List String} : a ∈ dedup urls ↔ a ∈ urls := by
  fun_induction dedup urls with
  | case1 x rest ih => simp [ih]
  | case2 x y rest hne ih => simp [ih]
  | case3 => rfl

variable {claim : PendingClaim} {weight : Weight} {interestId : SubKey}

theorem mem_candidates {url : String} :
    url ∈ candidates weight claim ↔ url ∈ claim.candidateQueue ∧ url ∉ claim.attempted := by
  rw [candidates, mem_dedup, List.mem_mergeSort, List.mem_filter, decide_eq_true_iff]

/-- A relay is free to be tried: fewer than three are in flight, fewer than twelve were tried, and
one of the queue was not. -/
def CanPick (claim : PendingClaim) : Prop :=
  relaysInFlight claim < maxExpansionConcurrency ∧
    claim.attempted.card < maxRelaysTriedPerClaim ∧
      ∃ url ∈ claim.candidateQueue, url ∉ claim.attempted

theorem toPick_ne_zero (weight : Weight) (claim : PendingClaim) :
    toPick weight claim ≠ 0 ↔ CanPick claim := by
  have hcandidates : (candidates weight claim).length ≠ 0 ↔
      ∃ url ∈ claim.candidateQueue, url ∉ claim.attempted := by
    rw [Ne, List.length_eq_zero_iff, List.eq_nil_iff_forall_not_mem]
    simp only [mem_candidates, not_forall, not_not]
  unfold CanPick
  rw [← hcandidates, toPick, openSlots]
  omega

/-- The way out of phase 1 with nothing to pick. -/
def Exhausts (weight : Weight) (claim : PendingClaim) : Prop :=
  toPick weight claim = 0 ∧ claim.phase = .phase1

instance (weight : Weight) (claim : PendingClaim) : Decidable (Exhausts weight claim) :=
  inferInstanceAs (Decidable (_ ∧ _))

/-- What a step of the poll keeps of a claim. -/
structure SameAttempts (old claim : PendingClaim) : Prop where
  interestId : claim.interestId = old.interestId
  primaryId : claim.primaryId = old.primaryId
  inFlight : claim.inFlightAttempts = old.inFlightAttempts
  live : isTerminal old.phase = false → isTerminal claim.phase = false

theorem SameAttempts.refl (claim : PendingClaim) : SameAttempts claim claim :=
  ⟨rfl, rfl, rfl, id⟩

/-- Taking candidates edits the claim in place and ends nothing. -/
theorem advanceToPhase2_of_not_exhausts {h : Host} {s : Kernel}
    (hlookup : s.fetches.pendingClaims.lookup interestId = some claim)
    (hnot : ¬ Exhausts weight claim) :
    (advanceToPhase2 h weight s interestId).terminated = s.terminated ∧
      (advanceToPhase2 h weight s interestId).events = s.events ∧
      (advanceToPhase2 h weight s interestId).eventRefs = s.eventRefs ∧
      (advanceToPhase2 h weight s interestId).pendingEventClaims = s.pendingEventClaims ∧
      ∃ claim', SameAttempts claim claim' ∧ ∀ key,
        (advanceToPhase2 h weight s interestId).fetches.pendingClaims.lookup key =
          if key = interestId then some claim' else s.fetches.pendingClaims.lookup key := by
  unfold advanceToPhase2
  rw [hlookup]
  dsimp only
  rw [if_neg (show ¬ (toPick weight claim = 0 ∧ claim.phase = .phase1) from hnot)]
  split
  next =>
    refine ⟨rfl, rfl, rfl, rfl, claim, .refl claim, fun key => ?_⟩
    split
    next heq => rw [heq, hlookup]
    next => rfl
  next =>
    exact ⟨rfl, rfl, rfl, rfl, retarget h weight claim, ⟨rfl, rfl, rfl, fun _ => rfl⟩,
      fun key => lookup_insert_eq s.fetches.pendingClaims interestId key (retarget h weight claim)⟩

theorem advanceToPhase2_of_exhausts {h : Host} {s : Kernel}
    (hlookup : s.fetches.pendingClaims.lookup interestId = some claim)
    (hexhausts : Exhausts weight claim) :
    advanceToPhase2 h weight s interestId = terminateClaim s interestId .exhausted := by
  unfold advanceToPhase2
  rw [hlookup]
  exact if_pos hexhausts

/-- What a loop over claims does: it touches only its keys, and logs `new`. -/
structure Swept (h : Host) (keys : List SubKey) (s s' : Kernel)
    (new : List (String × ClaimTermination)) : Prop where
  keyed : Keyed h s'.fetches
  events : s'.events = s.events
  parked : s'.pendingEventClaims = s.pendingEventClaims
  others : ∀ key ∉ keys,
    s'.fetches.pendingClaims.lookup key = s.fetches.pendingClaims.lookup key
  terminated : s'.terminated = new ++ s.terminated
  torn : ∀ key, key ∈ s.eventRefs.claims → key ∉ s'.eventRefs.claims →
    ∃ e ∈ new, e.1 = key ∧ e.2 ≠ .hit

theorem eventRefs_terminateClaim {s : Kernel}
    (hlookup : s.fetches.pendingClaims.lookup interestId = some claim) (reason : ClaimTermination)
    {key : String} (hbefore : key ∈ s.eventRefs.claims)
    (hafter : key ∉ (terminateClaim s interestId reason).eventRefs.claims) :
    claim.primaryId = key ∧ reason ≠ .hit := by
  rw [terminateClaim_eq hlookup] at hafter
  cases reason with
  | hit => exact absurd hbefore hafter
  | exhausted | budget =>
    refine ⟨?_, nofun⟩
    by_contra hne
    exact hafter (AList.mem_erase.mpr ⟨fun heq => hne heq.symm, hbefore⟩)

theorem swept_terminateClaim {h : Host} {s : Kernel} (hkeyed : Keyed h s.fetches)
    (hlookup : s.fetches.pendingClaims.lookup interestId = some claim) (reason : ClaimTermination) :
    Swept h [interestId] s (terminateClaim s interestId reason) [(claim.primaryId, reason)] where
  keyed := hkeyed.terminateClaim interestId reason
  events := events_terminateClaim s interestId reason
  parked := by rw [terminateClaim_eq hlookup]; cases reason <;> rfl
  others := by
    intro key hkey
    apply Option.ext
    intro other
    have hne : key ≠ interestId := fun heq => hkey (List.mem_singleton.mpr heq)
    rw [lookup_terminateClaim hkeyed hlookup, if_neg hne]
  terminated := terminated_terminateClaim hlookup reason
  torn := by
    intro key hbefore hafter
    exact ⟨_, List.mem_singleton_self _, eventRefs_terminateClaim hlookup reason hbefore hafter⟩

theorem Swept.trans {h : Host} {keys rest : List SubKey} {s t u : Kernel}
    {new newer : List (String × ClaimTermination)} (hfirst : Swept h keys s t new)
    (hsecond : Swept h rest t u newer) : Swept h (keys ++ rest) s u (newer ++ new) where
  keyed := hsecond.keyed
  events := hsecond.events.trans hfirst.events
  parked := hsecond.parked.trans hfirst.parked
  others := by
    intro key hkey
    obtain ⟨hkeys, hrest⟩ := not_or.mp (mt List.mem_append.mpr hkey)
    rw [hsecond.others key hrest, hfirst.others key hkeys]
  terminated := by rw [hsecond.terminated, hfirst.terminated, List.append_assoc]
  torn := by
    intro key hbefore hafter
    by_cases hmiddle : key ∈ t.eventRefs.claims
    · obtain ⟨e, he, hkey⟩ := hsecond.torn key hmiddle hafter
      exact ⟨e, List.mem_append_left _ he, hkey⟩
    · obtain ⟨e, he, hkey⟩ := hfirst.torn key hbefore hmiddle
      exact ⟨e, List.mem_append_right _ he, hkey⟩

/-- The first loop ends the claims that have nothing to pick and keeps the attempts of the rest. -/
theorem swept_advances {h : Host} (weight : Weight) (keys : List SubKey) (hnodup : keys.Nodup)
    {s : Kernel} (hkeyed : Keyed h s.fetches)
    (hthere : ∀ key ∈ keys, ∃ claim, s.fetches.pendingClaims.lookup key = some claim) :
    ∃ new, Swept h keys s (keys.foldl (advanceToPhase2 h weight) s) new ∧
      (∀ e, e ∈ new ↔ ∃ key ∈ keys, ∃ claim, s.fetches.pendingClaims.lookup key = some claim ∧
        Exhausts weight claim ∧ e = (claim.primaryId, .exhausted)) ∧
      ∀ key ∈ keys, ∀ claim',
        (keys.foldl (advanceToPhase2 h weight) s).fetches.pendingClaims.lookup key = some claim' →
          ∃ claim, s.fetches.pendingClaims.lookup key = some claim ∧ SameAttempts claim claim' := by
  induction keys generalizing s with
  | nil =>
    exact ⟨[], ⟨hkeyed, rfl, rfl, fun _ _ => rfl, rfl, fun _ hbefore hafter => absurd hbefore hafter⟩,
      by simp, nofun⟩
  | cons key rest ih =>
    obtain ⟨hfresh, hrest⟩ := List.nodup_cons.mp hnodup
    obtain ⟨claim, hlookup⟩ := hthere key List.mem_cons_self
    -- one turn of the loop, and what it logs
    obtain ⟨logged, hturn, hlogged, hkept⟩ : ∃ logged,
        Swept h [key] s (advanceToPhase2 h weight s key) logged ∧
        (∀ e, e ∈ logged ↔ Exhausts weight claim ∧ e = (claim.primaryId, .exhausted)) ∧
        ∀ claim', (advanceToPhase2 h weight s key).fetches.pendingClaims.lookup key = some claim' →
          SameAttempts claim claim' := by
      by_cases hexhausts : Exhausts weight claim
      · rw [advanceToPhase2_of_exhausts hlookup hexhausts]
        refine ⟨_, swept_terminateClaim hkeyed hlookup .exhausted, fun e => ?_, fun claim' hgone => ?_⟩
        · rw [List.mem_singleton, and_iff_right hexhausts]
        · rw [lookup_terminateClaim hkeyed hlookup, if_pos rfl] at hgone
          exact absurd hgone.1 nofun
      · obtain ⟨hlog, hevents, hrefs, hparked, claim', hsame, hclaims⟩ :=
          advanceToPhase2_of_not_exhausts (h := h) hlookup hexhausts
        refine ⟨[], ⟨?_, hevents, hparked, ?_, hlog, ?_⟩, by simp [hexhausts], ?_⟩
        · refine hkeyed.of_sub fun other found hfound => ?_
          rw [hclaims] at hfound
          split at hfound
          next heq =>
            obtain rfl := Option.some.inj hfound
            exact ⟨claim, heq ▸ hlookup, hsame.interestId, hsame.primaryId⟩
          next => exact ⟨found, hfound, rfl, rfl⟩
        · intro other hother
          have hne : other ≠ key := fun heq => hother (List.mem_singleton.mpr heq)
          rw [hclaims, if_neg hne]
        · intro torn hbefore hafter
          rw [hrefs] at hafter
          exact absurd hbefore hafter
        · intro found hfound
          rw [hclaims, if_pos rfl] at hfound
          exact Option.some.inj hfound ▸ hsame
    have hunchanged : ∀ other ∈ rest,
        (advanceToPhase2 h weight s key).fetches.pendingClaims.lookup other =
          s.fetches.pendingClaims.lookup other := fun other hother =>
      hturn.others other fun hmem => hfresh (List.mem_singleton.mp hmem ▸ hother)
    obtain ⟨new, hswept, hnew, hrestKept⟩ := ih hrest hturn.keyed fun other hother => by
      rw [hunchanged other hother]
      exact hthere other (List.mem_cons_of_mem _ hother)
    refine ⟨new ++ logged, hturn.trans hswept, fun e => ?_, fun other hother claim' hfound => ?_⟩
    · rw [List.mem_append, hnew, hlogged]
      constructor
      · rintro (⟨other, hother, found, hfound, hends⟩ | hends)
        · rw [hunchanged other hother] at hfound
          exact ⟨other, List.mem_cons_of_mem _ hother, found, hfound, hends⟩
        · exact ⟨key, List.mem_cons_self, claim, hlookup, hends⟩
      · rintro ⟨other, hother, found, hfound, hends⟩
        rcases List.mem_cons.mp hother with rfl | hlater
        · obtain rfl := Option.eq_some_unique hlookup hfound
          exact .inr hends
        · exact .inl ⟨other, hlater, found, by rwa [hunchanged other hlater], hends⟩
    · rcases List.mem_cons.mp hother with rfl | hlater
      · rw [List.foldl_cons, hswept.others other hfresh] at hfound
        exact ⟨claim, hlookup, hkept claim' hfound⟩
      · obtain ⟨found, hbefore, hsame⟩ := hrestKept other hlater claim' hfound
        exact ⟨found, by rwa [hunchanged other hlater] at hbefore, hsame⟩

/-- The second loop ends the claims that are due; a hit keeps its end until it is pruned. -/
theorem swept_terminations {h : Host} (due : List (SubKey × ClaimTermination))
    (hnodup : (due.map Prod.fst).Nodup) {s : Kernel} (hkeyed : Keyed h s.fetches)
    (hthere : ∀ key ∈ due.map Prod.fst, ∃ claim, s.fetches.pendingClaims.lookup key = some claim) :
    ∃ new, Swept h (due.map Prod.fst) s
        (due.foldl (fun s due => terminateClaim s due.1 due.2) s) new ∧
      (∀ e, e ∈ new ↔ ∃ d ∈ due, ∃ claim, s.fetches.pendingClaims.lookup d.1 = some claim ∧
        e = (claim.primaryId, d.2)) ∧
      ∀ key ∈ due.map Prod.fst, ∀ claim',
        (due.foldl (fun s due => terminateClaim s due.1 due.2) s).fetches.pendingClaims.lookup key =
          some claim' → isTerminal claim'.phase = true := by
  induction due generalizing s with
  | nil =>
    exact ⟨[], ⟨hkeyed, rfl, rfl, fun _ _ => rfl, rfl, fun _ hbefore hafter => absurd hbefore hafter⟩,
      by simp, nofun⟩
  | cons d rest ih =>
    obtain ⟨hfresh, hrest⟩ := List.nodup_cons.mp hnodup
    obtain ⟨claim, hlookup⟩ := hthere d.1 List.mem_cons_self
    have hturn := swept_terminateClaim hkeyed hlookup d.2
    have hunchanged : ∀ key ∈ rest.map Prod.fst,
        (terminateClaim s d.1 d.2).fetches.pendingClaims.lookup key =
          s.fetches.pendingClaims.lookup key := fun key hkey =>
      hturn.others key fun hmem => hfresh (List.mem_singleton.mp hmem ▸ hkey)
    obtain ⟨new, hswept, hnew, hends⟩ := ih hrest hturn.keyed fun key hkey => by
      rw [hunchanged key hkey]
      exact hthere key (List.mem_cons_of_mem _ hkey)
    refine ⟨new ++ [(claim.primaryId, d.2)], hturn.trans hswept, fun e => ?_,
      fun key hkey claim' hfound => ?_⟩
    · rw [List.mem_append, hnew, List.mem_singleton]
      constructor
      · rintro (⟨other, hother, found, hfound, heq⟩ | heq)
        · rw [hunchanged other.1 (List.mem_map_of_mem hother)] at hfound
          exact ⟨other, List.mem_cons_of_mem _ hother, found, hfound, heq⟩
        · exact ⟨d, List.mem_cons_self, claim, hlookup, heq⟩
      · rintro ⟨other, hother, found, hfound, heq⟩
        rcases List.mem_cons.mp hother with rfl | hlater
        · obtain rfl := Option.eq_some_unique hlookup hfound
          exact .inr heq
        · exact .inl ⟨other, hlater, found, by rwa [hunchanged _ (List.mem_map_of_mem hlater)], heq⟩
    · rcases List.mem_cons.mp hkey with rfl | hlater
      · rw [List.foldl_cons, hswept.others _ hfresh, lookup_terminateClaim hkeyed hlookup,
          if_pos rfl] at hfound
        rw [hfound.2]
        rfl
      · exact hends key hlater claim' hfound

/-- A claim whose end is due takes no candidates. -/
theorem terminationDue_of_advanceDue {h : Host} {s : Kernel} {now : Nat}
    (hadvance : advanceDue h s now claim = true) : terminationDue h s now claim = none := by
  unfold advanceDue at hadvance
  rw [Bool.and_eq_true, Bool.and_eq_true, Bool.not_eq_true', decide_eq_true_iff] at hadvance
  obtain ⟨⟨hunknown, htime⟩, hphase⟩ := hadvance
  rw [terminationDue, if_neg (by rw [hunknown]; exact nofun), if_neg (Nat.not_le.mpr htime), if_neg]
  rintro ⟨hsecond, hempty, -⟩
  rw [hsecond] at hphase
  exact (of_decide_eq_true hphase).2.1 hempty

section Lists

variable (h : Host) (s : Kernel) (now : Nat)

def toAdvance : List SubKey :=
  (s.fetches.pendingClaims.entries.filter fun e => advanceDue h s now e.2).map Sigma.fst

def toTerminate : List (SubKey × ClaimTermination) :=
  s.fetches.pendingClaims.entries.filterMap fun e =>
    (terminationDue h s now e.2).map fun r => (e.1, r)

theorem mem_toAdvance {key : SubKey} : key ∈ toAdvance h s now ↔
    ∃ claim, s.fetches.pendingClaims.lookup key = some claim ∧
      advanceDue h s now claim = true := by
  unfold toAdvance
  rw [List.mem_map]
  constructor
  · rintro ⟨⟨key, claim⟩, hmem, rfl⟩
    obtain ⟨hentry, hdue⟩ := List.mem_filter.mp hmem
    exact ⟨claim, AList.mem_lookup_iff.mpr hentry, hdue⟩
  · rintro ⟨claim, hlookup, hdue⟩
    exact ⟨⟨key, claim⟩, List.mem_filter.mpr ⟨AList.mem_lookup_iff.mp hlookup, hdue⟩, rfl⟩

theorem mem_toTerminate {key : SubKey} {reason : ClaimTermination} :
    (key, reason) ∈ toTerminate h s now ↔
      ∃ claim, s.fetches.pendingClaims.lookup key = some claim ∧
        terminationDue h s now claim = some reason := by
  unfold toTerminate
  rw [List.mem_filterMap]
  constructor
  · rintro ⟨⟨key', claim⟩, hentry, hmap⟩
    obtain ⟨r, hdue, heq⟩ := Option.map_eq_some_iff.mp hmap
    cases heq
    exact ⟨claim, AList.mem_lookup_iff.mpr hentry, hdue⟩
  · rintro ⟨claim, hlookup, hdue⟩
    exact ⟨⟨key, claim⟩, AList.mem_lookup_iff.mp hlookup, by rw [hdue]; rfl⟩

theorem toAdvance_nodup : (toAdvance h s now).Nodup :=
  s.fetches.pendingClaims.keys_nodup.sublist (List.filter_sublist.map Sigma.fst)

theorem toTerminate_nodup : ((toTerminate h s now).map Prod.fst).Nodup := by
  unfold toTerminate List.Nodup
  rw [List.pairwise_map]
  refine List.Pairwise.filterMap _ ?_ s.fetches.pendingClaims.nodupKeys.pairwise_ne
  intro e e' hne due hdue due' hdue'
  obtain ⟨r, -, rfl⟩ := Option.map_eq_some_iff.mp hdue
  obtain ⟨r', -, rfl⟩ := Option.map_eq_some_iff.mp hdue'
  exact hne

end Lists

/-- How a poll ends a claim. -/
def Ends (h : Host) (weight : Weight) (s : Kernel) (now : Nat) (claim : PendingClaim)
    (reason : ClaimTermination) : Prop :=
  (advanceDue h s now claim = true ∧ Exhausts weight claim ∧ reason = .exhausted) ∨
    terminationDue h s now claim = some reason

/-- What a poll does: it logs the ends of claims, and the claims left keep their attempts. -/
structure Polled (h : Host) (weight : Weight) (now : Nat) (s s' : Kernel)
    (new : List (String × ClaimTermination)) : Prop where
  sound : Sound h s'
  attempts : ∀ key claim', s'.fetches.pendingClaims.lookup key = some claim' →
    ∃ claim, s.fetches.pendingClaims.lookup key = some claim ∧
      claim'.inFlightAttempts = claim.inFlightAttempts
  terminated : s'.terminated = new ++ s.terminated
  logged : ∀ primaryId reason, (primaryId, reason) ∈ new ↔
    ∃ key claim, s.fetches.pendingClaims.lookup key = some claim ∧
      claim.primaryId = primaryId ∧ Ends h weight s now claim reason
  torn : ∀ key, key ∈ s.eventRefs.claims → key ∉ s'.eventRefs.claims →
    ∃ reason, (key, reason) ∈ new ∧ reason ≠ .hit

theorem polled {h : Host} {s : Kernel} (hsound : Sound h s) (weight : Weight) (now : Nat) :
    ∃ new, Polled h weight now s (pollClaimExpansion h weight s now) new := by
  obtain ⟨exhausted, hadvanced, hexhausted, hkept⟩ :=
    swept_advances weight (toAdvance h s now) (toAdvance_nodup h s now) hsound.keyed
      fun key hkey => by
        obtain ⟨claim, hlookup, -⟩ := (mem_toAdvance h s now).mp hkey
        exact ⟨claim, hlookup⟩
  change ∃ new, Polled h weight now s (pruneTerminal ((toTerminate h s now).foldl
    (fun s due => terminateClaim s due.1 due.2) ((toAdvance h s now).foldl
      (advanceToPhase2 h weight) s))) new
  generalize (toAdvance h s now).foldl (advanceToPhase2 h weight) s = middle at hadvanced hkept ⊢
  -- the first loop leaves the claims of the second one alone
  have hdue : ∀ key reason, (key, reason) ∈ toTerminate h s now →
      middle.fetches.pendingClaims.lookup key = s.fetches.pendingClaims.lookup key := by
    intro key reason hmem
    refine hadvanced.others key fun hadvance => ?_
    obtain ⟨claim, hlookup, hends⟩ := (mem_toTerminate h s now).mp hmem
    obtain ⟨other, hother, htakes⟩ := (mem_toAdvance h s now).mp hadvance
    obtain rfl := Option.eq_some_unique hlookup hother
    rw [terminationDue_of_advanceDue htakes] at hends
    exact absurd hends nofun
  obtain ⟨ended, hterminated, hended, hterminal⟩ := swept_terminations (toTerminate h s now)
    (toTerminate_nodup h s now) hadvanced.keyed fun key hkey => by
      obtain ⟨⟨key, reason⟩, hmem, rfl⟩ := List.mem_map.mp hkey
      obtain ⟨claim, hlookup, -⟩ := (mem_toTerminate h s now).mp hmem
      exact ⟨claim, (hdue key reason hmem).trans hlookup⟩
  generalize (toTerminate h s now).foldl (fun s due => terminateClaim s due.1 due.2) middle = last
    at hterminated hterminal ⊢
  have hswept := hadvanced.trans hterminated
  refine ⟨ended ++ exhausted, ⟨?_, ?_, ?_⟩, ?_, hswept.terminated, ?_, ?_⟩
  · exact hswept.keyed.of_sub fun key claim hclaim =>
      ⟨claim, ((lookup_pruneTerminal _ key claim).mp hclaim).1, rfl, rfl⟩
  · exact fun key claim hclaim => ((lookup_pruneTerminal _ key claim).mp hclaim).2
  · intro claim hclaim
    exact hsound.parked claim (hswept.parked ▸ hclaim)
  · intro key claim' hclaim
    obtain ⟨hlast, hopen⟩ := (lookup_pruneTerminal last key claim').mp hclaim
    have hstays : key ∉ (toTerminate h s now).map Prod.fst := by
      intro hkey
      rw [hterminal key hkey claim' hlast] at hopen
      exact absurd hopen nofun
    rw [hterminated.others key hstays] at hlast
    by_cases hadvance : key ∈ toAdvance h s now
    · obtain ⟨claim, hlookup, hsame⟩ := hkept key hadvance claim' hlast
      exact ⟨claim, hlookup, hsame.inFlight⟩
    · rw [hadvanced.others key hadvance] at hlast
      exact ⟨claim', hlast, rfl⟩
  · intro primaryId reason
    rw [List.mem_append, hended, hexhausted]
    constructor
    · rintro (⟨⟨key, r⟩, hmem, claim, hlookup, heq⟩ | ⟨key, hmem, claim, hlookup, hends, heq⟩)
      · obtain ⟨found, hfound, hends⟩ := (mem_toTerminate h s now).mp hmem
        rw [hdue key r hmem, hfound] at hlookup
        obtain rfl := Option.some.inj hlookup
        cases heq
        exact ⟨key, found, hfound, rfl, .inr hends⟩
      · obtain ⟨found, hfound, htakes⟩ := (mem_toAdvance h s now).mp hmem
        obtain rfl := Option.eq_some_unique hlookup hfound
        cases heq
        exact ⟨key, claim, hlookup, rfl, .inl ⟨htakes, hends, rfl⟩⟩
    · rintro ⟨key, claim, hlookup, rfl, ⟨htakes, hends, rfl⟩ | hends⟩
      · exact .inr ⟨key, (mem_toAdvance h s now).mpr ⟨claim, hlookup, htakes⟩, claim, hlookup,
          hends, rfl⟩
      · have hmem := (mem_toTerminate h s now).mpr ⟨claim, hlookup, hends⟩
        exact .inl ⟨(key, reason), hmem, claim, (hdue key reason hmem).trans hlookup, rfl⟩
  · intro key hbefore hafter
    obtain ⟨⟨primaryId, reason⟩, he, rfl, hmiss⟩ := hswept.torn key hbefore hafter
    exact ⟨reason, he, hmiss⟩

end RefExhaustion
