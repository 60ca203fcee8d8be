import NostrMultiPlatform.PlannerCover
import NostrMultiPlatform.PlannerOrder

/-!
# Where values may end up

Each sub-shape of a plan is the fold of entries that were routed to its relay.
Whatever it carries was put on that relay by one of these entries, so what holds
of every entry of an interest holds of its traces in the plan: a pinned interest
stays on its pin, and a tagged pubkey on the relays that an interest routed it to.
-/
namespace PlannerIsolation

open Sorted PlannerShape PlannerPlan PlannerPartition PlannerMerge PlannerCompile PlannerCover
  PlannerOrder

/-- The sub-shape is asked of the relay. -/
def InPlan (plan : CompiledPlan) (relay : String) (sub : SubShape) : Prop :=
  ∃ relayPlan, plan.perRelay.lookup relay = some relayPlan ∧ sub ∈ relayPlan.subShapes

/-- An entry of an interest on the relay. -/
structure Origin (c : SubscriptionCompiler) (interests : List LogicalInterest) (relay : String) where
  interest : LogicalInterest
  entry : RelayEntry
  known : interest ∈ interests
  routed : (relay, entry) ∈ (partitionInterest c (activePinnedRelays interests) interest).entries

variable {c : SubscriptionCompiler} {interests : List LogicalInterest} {ctx : CompileContext}
  {relay : String} {sub : SubShape}

def Origin.shape (o : Origin c interests relay) : InterestShape := intoShape o.entry

/-- A sub-shape is the fold of its origins, which all are of its class. -/
structure Origins (c : SubscriptionCompiler) (interests : List LogicalInterest) (relay : String)
    (sub : SubShape) (os : List (Origin c interests relay)) : Prop where
  fold : FoldOf sub.shape (os.map Origin.shape)
  sameClass : ∀ o ∈ os, SameClass o.shape sub.shape
  some_origin : os ≠ []
  ids : ∀ id, id ∈ sub.originatingInterests ↔ ∃ o ∈ os, o.interest.id = id

/-- The members of each fold are of the class of the fold, and there is one. -/
theorem packMembers_sameClass {shaped : List Shaped} :
    ∀ group ∈ FirstFit.packMembers start fit shaped,
      (∀ e ∈ group.2, SameClass e.shape group.1.shape) ∧ group.2 ≠ [] := by
  refine FirstFit.packMembers_forall
    (P := fun (g : Group) (ms : List Shaped) =>
      (∀ e ∈ ms, SameClass e.shape g.shape) ∧ ms ≠ []) ?_ ?_
  · intro e _
    exact ⟨fun e' he' => List.mem_singleton.mp he' ▸ SameClass.refl e.shape, List.cons_ne_nil _ _⟩
  · intro e _ g ms g' ⟨hclass, _⟩ htaken
    obtain ⟨hmerges, -, -⟩ := fit_eq_some htaken
    refine ⟨fun e' he' => ?_, by simp⟩
    rcases List.mem_append.mp he' with he' | he'
    · exact (hclass e' he').trans hmerges.sameClass.1
    · exact List.mem_singleton.mp he' ▸ hmerges.sameClass.2

/-- Preimages of a list, one for each element. -/
theorem exists_map_eq {α β : Type} {f : α → β} {ys : List β} (h : ∀ y ∈ ys, ∃ x, f x = y) :
    ∃ xs : List α, xs.map f = ys := by
  induction ys with
  | nil => exact ⟨[], rfl⟩
  | cons _ _ ih =>
    obtain ⟨hy, hrest⟩ := List.forall_mem_cons.mp h
    obtain ⟨x, rfl⟩ := hy
    obtain ⟨xs, rfl⟩ := ih hrest
    exact ⟨x :: xs, rfl⟩

theorem exists_origins (h : InPlan (compileWithContext c interests ctx) relay sub) :
    ∃ os, Origins c interests relay sub os := by
  obtain ⟨plan, hplan, hsub⟩ := h
  rw [lookup_perRelay] at hplan
  split at hplan
  · cases hplan
  obtain rfl := Option.some.inj hplan
  obtain ⟨group, hgroup, rfl⟩ := mem_subShapes.mp hsub
  have hpre : ∀ e ∈ group.2, ∃ o : Origin c interests relay, shapedOf o.entry = e := by
    intro e he
    obtain ⟨entry, hentry, rfl⟩ := List.mem_map.mp ((canonicalSort_perm _).subset
      ((FirstFit.packMembers_perm start fit _).subset (List.mem_flatMap.mpr ⟨group, hgroup, he⟩)))
    obtain ⟨interest, hinterest, hrow⟩ := mem_entriesAt.mp hentry
    exact ⟨⟨interest, entry, hinterest, hrow⟩, rfl⟩
  obtain ⟨os, hos⟩ := exists_map_eq hpre
  obtain ⟨hfold, hids⟩ := packMembers_fold group hgroup
  obtain ⟨hclass, hne⟩ := packMembers_sameClass group hgroup
  rw [← hos] at hfold hids hclass hne
  rw [List.map_map] at hfold
  refine ⟨os, hfold, fun o ho => hclass _ (List.mem_map_of_mem ho), fun hnil => hne (by rw [hnil]; rfl),
    fun id => (hids id).trans ?_⟩
  simp only [List.mem_map, exists_exists_and_eq_and]
  have hid : ∀ o : Origin c interests relay, (shapedOf o.entry).interestId = o.interest.id :=
    fun o => interestId_of_mem o.routed
  simp only [hid]

/-- What an entry keeps of its interest: the routing, the search and the pin, which is then the
relay; and of the tagged pubkeys, some. -/
structure EntryOf (interest : LogicalInterest) (row : String × RelayEntry) : Prop where
  relayPin : row.2.baseShape.relayPin = interest.shape.relayPin
  pinned : ∀ pin, interest.shape.relayPin = some pin → row.1 = pin
  routing : row.2.baseShape.pTagRouting = interest.shape.pTagRouting
  tagged : ∀ pk ∈ (row.2.baseShape.tags.lookup "p").getD ∅, pk ∈ pTagValues interest

variable {interest : LogicalInterest} {row : String × RelayEntry}
  {os : List (Origin c interests relay)} {pk : String}

/-- An entry of an unpinned interest with the interest's own base. -/
theorem entryOf_base (hpin : interest.shape.relayPin = none)
    (hbase : row.2.baseShape = baseShapeOf interest) : EntryOf interest row := by
  refine ⟨by rw [hbase]; rfl, fun pin h => ?_, by rw [hbase]; rfl, fun pk hpk => ?_⟩
  · rw [hpin] at h
    cases h
  · rw [hbase] at hpk
    exact hpk

/-- An inbox entry names one tagged pubkey, on a relay of its inbox. -/
theorem mem_routePTagsToInbox {pTags authors : SortedSet String} {base : InterestShape}
    {lifecycle : InterestLifecycle} {id : Nat}
    (h : row ∈ (routePTagsToInbox c pTags authors base lifecycle id).entries) :
    ∃ pk ∈ pTags, row.2.baseShape = { base with tags := base.tags.insert "p" {pk} } ∧
      ∃ route, inboxRoute c base.pTagRouting pk = some route ∧ row.1 ∈ route.1 := by
  obtain ⟨pk, hpk, hrow⟩ := List.mem_flatMap.mp h
  cases hroute : inboxRoute c base.pTagRouting pk with
  | none => simp [hroute] at hrow
  | some route =>
    rw [hroute] at hrow
    obtain ⟨relay, hrelay, rfl⟩ := List.mem_map.mp hrow
    exact ⟨pk, hpk, rfl, route, hroute, hrelay⟩

theorem entryOf_inbox {authors : SortedSet String} (hpin : interest.shape.relayPin = none)
    (h : row ∈ (routePTagsToInbox c (pTagValues interest) authors (baseShapeOf interest) interest.lifecycle interest.id).entries)
    : EntryOf interest row := by
  obtain ⟨pk, hpk, hbase, -⟩ := mem_routePTagsToInbox h
  refine ⟨by rw [hbase]; rfl, fun pin heq => ?_, by rw [hbase]; rfl, fun pk' hpk' => ?_⟩
  · rw [hpin] at heq
    cases heq
  · rw [hbase, SortedMap.lookup_insert, if_pos rfl] at hpk'
    exact SortedSet.mem_singleton.mp hpk' ▸ hpk

theorem entryOf_plain {perRelay : SortedMap String (SortedSet RoutingSource)}
    (hpin : interest.shape.relayPin = none)
    (h : row ∈ plainEntries interest (baseShapeOf interest) perRelay) : EntryOf interest row := by
  obtain ⟨entry, -, rfl⟩ := List.mem_map.mp h
  exact entryOf_base hpin rfl

/-- One case per routing case. -/
theorem entryOf_partition {pins : SortedSet String}
    (h : row ∈ (partitionInterest c pins interest).entries) : EntryOf interest row := by
  unfold partitionInterest at h
  split at h
  next pin hpin =>
    obtain rfl := List.mem_singleton.mp h
    refine ⟨hpin.symm, fun pin' h' => ?_, rfl, fun pk hpk => hpk⟩
    exact Option.eq_some_unique hpin h'
  next hpin =>
    split at h
    · rcases List.mem_append.mp h with h | h
      · obtain ⟨entry, -, rfl⟩ := List.mem_map.mp h
        exact entryOf_base hpin rfl
      · exact entryOf_inbox hpin h
    · split at h
      · obtain ⟨entry, -, rfl⟩ := List.mem_map.mp h
        exact entryOf_base hpin rfl
      · split at h
        · simp only [routePTags] at h
          split at h
          · exact entryOf_plain hpin h
          · exact entryOf_inbox hpin h
        · rcases List.mem_append.mp h with h | h
          · obtain ⟨entry, -, rfl⟩ := List.mem_map.mp h
            exact entryOf_base hpin rfl
          · exact entryOf_plain hpin h

/-- Pinned interests stay on their pins, alone with interests of the same pin. -/
structure PinIsolated (c : SubscriptionCompiler) (interests : List LogicalInterest)
    (plan : CompiledPlan) : Prop where
  under_pin : ∀ relay sub, InPlan plan relay sub → ∀ pin, sub.shape.relayPin = some pin → relay = pin
  one_pin : ∀ relay sub, InPlan plan relay sub → ∀ id ∈ sub.originatingInterests,
    ∃ i ∈ interests, i.id = id ∧ i.shape.relayPin = sub.shape.relayPin
  unmixed : (interests.map LogicalInterest.id).Nodup → ∀ relay sub, InPlan plan relay sub →
    ∀ i ∈ interests, ∀ j ∈ interests, i.id ∈ sub.originatingInterests →
      j.id ∈ sub.originatingInterests → i.shape.relayPin = j.shape.relayPin
  no_other_entry : ∀ i ∈ interests, ∀ pin, i.shape.relayPin = some pin →
    ∀ row ∈ (partitionInterest c (activePinnedRelays interests) i).entries, row.1 = pin
  no_unroutable : ∀ pubkey ∈ plan.unroutableAuthors, ∃ i ∈ interests, i.shape.relayPin = none ∧
    Strands c (activePinnedRelays interests) i pubkey

theorem Origin.relayPin_eq (h : Origins c interests relay sub os) {o : Origin c interests relay}
    (ho : o ∈ os) : o.interest.shape.relayPin = sub.shape.relayPin :=
  (entryOf_partition o.routed).relayPin.symm.trans (h.sameClass o ho).relayPin.symm

/-- Whatever else is asked for, a pinned interest adds nothing off its pin. -/
theorem relay_pin_isolation (c : SubscriptionCompiler) (interests : List LogicalInterest)
    (ctx : CompileContext) : PinIsolated c interests (compileWithContext c interests ctx) := by
  have hone : ∀ relay sub, InPlan (compileWithContext c interests ctx) relay sub →
      ∀ id ∈ sub.originatingInterests,
        ∃ i ∈ interests, i.id = id ∧ i.shape.relayPin = sub.shape.relayPin := by
    intro relay sub hsub id hid
    obtain ⟨os, hos⟩ := exists_origins hsub
    obtain ⟨o, ho, rfl⟩ := (hos.ids id).mp hid
    exact ⟨o.interest, o.known, rfl, Origin.relayPin_eq hos ho⟩
  refine ⟨?_, hone, ?_, fun i _ pin hpin row hrow => (entryOf_partition hrow).pinned pin hpin, ?_⟩
  · intro relay sub hsub pin hpin
    obtain ⟨os, hos⟩ := exists_origins hsub
    obtain ⟨o, ho⟩ := List.exists_mem_of_ne_nil os hos.some_origin
    exact (entryOf_partition o.routed).pinned pin ((Origin.relayPin_eq hos ho).trans hpin)
  · intro hids relay sub hsub i hi j hj hiSub hjSub
    have hpin : ∀ i ∈ interests, i.id ∈ sub.originatingInterests →
        i.shape.relayPin = sub.shape.relayPin := by
      intro i hi hiSub
      obtain ⟨i', hi', heq, hpin⟩ := hone relay sub hsub i.id hiSub
      exact List.inj_on_of_nodup_map hids hi' hi heq ▸ hpin
    exact (hpin i hi hiSub).trans (hpin j hj hjSub).symm
  · intro pubkey hpubkey
    obtain ⟨i, hi, hstrands⟩ := (mem_unroutableAuthors.mp hpubkey).exists_strands
    exact ⟨i, hi, hstrands.1, hstrands⟩

/-- The pubkeys that a filter lists under `p`. -/
def tagged (shape : InterestShape) : SortedSet String := (shape.tags.lookup "p").getD ∅

/-- The interest reaches relays through the inboxes of the pubkeys it tags only. -/
def InboxOnly (interest : LogicalInterest) : Prop :=
  interest.shape.authors = ∅ ∧ interest.shape.addresses = ∅ ∧ interest.shape.relayPin = none

instance (interest : LogicalInterest) : Decidable (InboxOnly interest) :=
  inferInstanceAs (Decidable (_ ∧ _ ∧ _))

/-- The relay belongs to the inbox of the pubkey, or is a bootstrap relay while the NIP-65 inbox is
unknown. -/
def InboxRelay (c : SubscriptionCompiler) (routing : PTagRouting) (pk relay : String) : Prop :=
  match routing with
  | .nip65ReadRelays =>
    ((c.get pk).any fun snapshot => relay ∈ snapshot.inboxRelays) = true ∨
      (relay ∈ c.bootstrapContentRelays ∧
        ((c.get pk).all fun snapshot => !snapshot.hasInboxRelays) = true)
  | .nip17DmRelays => ((c.dmInboxRelays pk).any fun relays => relay ∈ relays) = true

/-- The interest was routed to the relay with the pubkey in its filter. -/
def Puts (c : SubscriptionCompiler) (interests : List LogicalInterest) (interest : LogicalInterest)
    (relay pk : String) : Prop :=
  ∃ entry, (relay, entry) ∈ (partitionInterest c (activePinnedRelays interests) interest).entries ∧
    pk ∈ tagged entry.baseShape

theorem inboxRelay_of_route {routing : PTagRouting} {route : List String × RoutingSource}
    (h : inboxRoute c routing pk = some route) (hrelay : relay ∈ route.1) :
    InboxRelay c routing pk relay := by
  cases routing with
  | nip65ReadRelays =>
    cases hget : c.get pk with
    | none => simp [inboxRoute, hget] at h
    | some =>
      simp only [inboxRoute, hget] at h
      split at h
      · obtain rfl := Option.some.inj h
        exact .inl (by simpa [hget] using hrelay)
      · cases h
  | nip17DmRelays =>
    cases hget : c.dmInboxRelays pk with
    | none => simp [inboxRoute, hget] at h
    | some =>
      simp only [inboxRoute, hget] at h
      split at h
      · cases h
      · obtain rfl := Option.some.inj h
        simpa [InboxRelay, hget] using hrelay

theorem mem_lane_keys {relays : List String} {source : RoutingSource}
    {row : String × SortedSet RoutingSource} (h : row ∈ (sourcesPerRelay (lane relays source)).rows) :
    row.1 ∈ relays := by
  have hland : ∀ (landings : List (String × RoutingSource)) (m : SortedMap String (SortedSet RoutingSource))
      (key : String), (land Prod.fst ∅ (fun l sources => insert l.2 sources) landings m).lookup key ≠ none →
        m.lookup key ≠ none ∨ ∃ l ∈ landings, l.1 = key := by
    intro landings
    induction landings with
    | nil => exact fun m key hkey => .inl hkey
    | cons l _ ih =>
      intro m key hkey
      rcases ih _ key hkey with hm | ⟨l', hl', rfl⟩
      · rw [SortedMap.lookup_alter] at hm
        by_cases hkl : key = l.1
        · exact .inr ⟨l, List.mem_cons_self, hkl.symm⟩
        · rw [if_neg hkl] at hm
          exact .inl hm
      · exact .inr ⟨l', List.mem_cons_of_mem _ hl', rfl⟩
  have hsome := SortedMap.lookup_eq_some.mpr h
  rcases hland (lane relays source) ∅ row.1 (by rw [← sourcesPerRelay, hsome]; simp) with hm | ⟨l, hl, heq⟩
  · exact absurd rfl hm
  · obtain ⟨relay, hrelay, rfl⟩ := List.mem_map.mp hl
    exact heq ▸ hrelay

/-- An interest of this kind puts a tagged pubkey on the pubkey's inbox relays only. -/
theorem inboxRelay_of_puts (h : InboxOnly interest) (hputs : Puts c interests interest relay pk) :
    InboxRelay c interest.shape.pTagRouting pk relay := by
  obtain ⟨hauthors, haddrs, hpin⟩ := h
  obtain ⟨entry, hrow, hpk⟩ := hputs
  have hnamed := (entryOf_partition hrow).tagged pk hpk
  have htags : pTagValues interest ≠ ∅ := SortedSet.ne_empty_iff.mpr ⟨pk, hnamed⟩
  unfold partitionInterest at hrow
  simp only [hpin, hauthors, haddrs, ne_eq, not_true_eq_false, if_false, if_pos htags, routePTags] at hrow
  split at hrow
  next heligible =>
    simp only [Bool.and_eq_true, decide_eq_true_eq] at heligible
    obtain ⟨⟨⟨-, hrouting⟩, -⟩, hlacks⟩ := heligible
    obtain ⟨lane, hlane, heq⟩ := List.mem_map.mp hrow
    obtain ⟨rfl, -⟩ := Prod.mk.inj heq
    rw [hrouting]
    exact .inr ⟨mem_lane_keys hlane, List.all_eq_true.mp hlacks pk hnamed⟩
  next =>
    obtain ⟨pk', -, hbase, route, hroute, hrelay⟩ := mem_routePTagsToInbox hrow
    rw [tagged, hbase, SortedMap.lookup_insert, if_pos rfl] at hpk
    obtain rfl := SortedSet.mem_singleton.mp hpk
    exact inboxRelay_of_route hroute hrelay

/-- Tagged pubkeys stay on the relays that an interest routed them to. -/
structure TagsIsolated (c : SubscriptionCompiler) (interests : List LogicalInterest)
    (plan : CompiledPlan) : Prop where
  unmoved : ∀ relay sub, InPlan plan relay sub → ∀ pk ∈ tagged sub.shape,
    ∃ i ∈ interests, i.id ∈ sub.originatingInterests ∧ pk ∈ pTagValues i ∧ Puts c interests i relay pk
  private_inbox : ∀ relay sub, InPlan plan relay sub → ∀ pk ∈ tagged sub.shape,
    InboxRelay c sub.shape.pTagRouting pk relay ∨
      ∃ j ∈ interests, ¬ InboxOnly j ∧ j.shape.pTagRouting = sub.shape.pTagRouting ∧
        j.shape.relayPin = sub.shape.relayPin ∧ pk ∈ pTagValues j ∧ Puts c interests j relay pk
  derived : (interests.map LogicalInterest.id).Nodup → ∀ relay sub, InPlan plan relay sub →
    ∀ i ∈ interests, InboxOnly i → i.id ∈ sub.originatingInterests → ∀ pk ∈ tagged sub.shape,
      InboxRelay c i.shape.pTagRouting pk relay ∨
        ∃ j ∈ interests, (j.shape.authors ≠ ∅ ∨ j.shape.addresses ≠ ∅) ∧ j.shape.relayPin = none ∧
          j.shape.pTagRouting = i.shape.pTagRouting ∧ pk ∈ pTagValues j ∧ Puts c interests j relay pk

theorem Origin.routing_eq (h : Origins c interests relay sub os) {o : Origin c interests relay}
    (ho : o ∈ os) : o.interest.shape.pTagRouting = sub.shape.pTagRouting :=
  (entryOf_partition o.routed).routing.symm.trans (h.sameClass o ho).routing.symm

/-- A tagged pubkey of a sub-shape comes from one of its origins. -/
theorem exists_puts (h : Origins c interests relay sub os) (hpk : pk ∈ tagged sub.shape) :
    ∃ o ∈ os, pk ∈ tagged o.entry.baseShape := by
  cases hlookup : sub.shape.tags.lookup "p" with
  | none =>
    rw [tagged, hlookup] at hpk
    exact absurd hpk (SortedSet.not_mem_empty pk)
  | some values =>
    rw [tagged, hlookup, Option.getD_some] at hpk
    obtain ⟨shape, hshape, hmem⟩ := (h.fold.tags "p" values hlookup pk).mp hpk
    obtain ⟨o, ho, rfl⟩ := List.mem_map.mp hshape
    exact ⟨o, ho, hmem⟩

/-- Merging moves no tagged pubkey to another relay, and off the inboxes it is only where an interest
with authors, addresses or a pin was routed with it. -/
theorem inbox_privacy (c : SubscriptionCompiler) (interests : List LogicalInterest)
    (ctx : CompileContext) : TagsIsolated c interests (compileWithContext c interests ctx) := by
  have hprivate : ∀ relay sub, InPlan (compileWithContext c interests ctx) relay sub →
      ∀ pk ∈ tagged sub.shape, InboxRelay c sub.shape.pTagRouting pk relay ∨
        ∃ j ∈ interests, ¬ InboxOnly j ∧ j.shape.pTagRouting = sub.shape.pTagRouting ∧
          j.shape.relayPin = sub.shape.relayPin ∧ pk ∈ pTagValues j ∧ Puts c interests j relay pk := by
    intro relay sub hsub pk hpk
    obtain ⟨os, hos⟩ := exists_origins hsub
    obtain ⟨o, ho, hmem⟩ := exists_puts hos hpk
    have hputs : Puts c interests o.interest relay pk := ⟨o.entry, o.routed, hmem⟩
    by_cases hinbox : InboxOnly o.interest
    · exact .inl (Origin.routing_eq hos ho ▸ inboxRelay_of_puts hinbox hputs)
    · exact .inr ⟨o.interest, o.known, hinbox, Origin.routing_eq hos ho, Origin.relayPin_eq hos ho,
        (entryOf_partition o.routed).tagged pk hmem, hputs⟩
  refine ⟨?_, hprivate, ?_⟩
  · intro relay sub hsub pk hpk
    obtain ⟨os, hos⟩ := exists_origins hsub
    obtain ⟨o, ho, hmem⟩ := exists_puts hos hpk
    exact ⟨o.interest, o.known, (hos.ids _).mpr ⟨o, ho, rfl⟩,
      (entryOf_partition o.routed).tagged pk hmem, o.entry, o.routed, hmem⟩
  · intro hids relay sub hsub i hi hinbox hiSub pk hpk
    obtain ⟨os, hos⟩ := exists_origins hsub
    obtain ⟨o, ho, hoid⟩ := (hos.ids _).mp hiSub
    obtain rfl : o.interest = i := List.inj_on_of_nodup_map hids o.known hi hoid
    rw [Origin.routing_eq hos ho]
    refine (hprivate relay sub hsub pk hpk).imp_right ?_
    intro ⟨j, hj, hnot, hrouting, hpin, hnamed, hputs⟩
    have hunpinned : j.shape.relayPin = none :=
      hpin.trans ((Origin.relayPin_eq hos ho).symm.trans hinbox.2.2)
    refine ⟨j, hj, ?_, hunpinned, hrouting, hnamed, hputs⟩
    by_contra hneither
    obtain ⟨hauthors, haddrs⟩ := not_or.mp hneither
    exact hnot ⟨not_not.mp hauthors, not_not.mp haddrs, hunpinned⟩

/-- Alice and Bob read on relays of their own; Carol writes to Bob's. -/
def threeMailboxes : SubscriptionCompiler where
  get pk :=
    if pk = "alice" then some ⟨[], ["wss://alice"], []⟩
    else if pk = "bob" then some ⟨[], ["wss://bob"], []⟩
    else if pk = "carol" then some ⟨["wss://bob"], [], []⟩
    else none
  dmInboxRelays _ := none
  indexerRelays := []
  activeAccountReadRelays := []
  appRelays := []
  bootstrapContentRelays := []
  bootstrapIndexerRelays := []

/-- Notes of the authors that tag the pubkeys. -/
def mentions (authors pubkeys : SortedSet String) : InterestShape :=
  { InterestShape.default with
    authors := authors
    kinds := {1}
    tags := (∅ : SortedMap String (SortedSet String)).insert "p" pubkeys }

/-- Mentions of Alice and Bob, and Carol's mentions of Alice. -/
def mentioned : List LogicalInterest :=
  [standing 1 (mentions ∅ (SortedSet.ofList ["alice", "bob"])), standing 2 (mentions {"carol"} {"alice"})]

/-- On Bob's relay the two merge, and the first interest has Alice there. -/
theorem tagged_pubkey_off_its_inbox : ¬ ∀ (c : SubscriptionCompiler)
    (interests : List LogicalInterest) (ctx : CompileContext),
    (interests.map LogicalInterest.id).Nodup → ∀ i ∈ interests, InboxOnly i →
      ∀ relay sub, InPlan (compileWithContext c interests ctx) relay sub →
        i.id ∈ sub.originatingInterests → ∀ pk ∈ tagged sub.shape, pk ∈ pTagValues i →
          InboxRelay c i.shape.pTagRouting pk relay := by
  intro hclaim
  have hsubs : ((compileWithContext threeMailboxes mentioned ⟨0, 0⟩).perRelay.lookup "wss://bob").any
      (fun plan => plan.subShapes.any fun sub =>
        decide (1 ∈ sub.originatingInterests) && decide ("alice" ∈ tagged sub.shape)) = true := by
    decide +kernel
  cases hplan : (compileWithContext threeMailboxes mentioned ⟨0, 0⟩).perRelay.lookup "wss://bob" with
  | none =>
    rw [hplan] at hsubs
    cases hsubs
  | some plan =>
    rw [hplan, Option.any_some] at hsubs
    obtain ⟨sub, hsub, hboth⟩ := List.any_eq_true.mp hsubs
    obtain ⟨hid, halice⟩ := (Bool.and_eq_true _ _).mp hboth
    have hrelay := hclaim threeMailboxes mentioned ⟨0, 0⟩ (by decide)
      (standing 1 (mentions ∅ (SortedSet.ofList ["alice", "bob"]))) List.mem_cons_self (by decide +kernel)
      "wss://bob" sub ⟨plan, hplan, hsub⟩ (of_decide_eq_true hid) "alice" (of_decide_eq_true halice)
      (by decide +kernel)
    have hoff : ¬ InboxRelay threeMailboxes .nip65ReadRelays "alice" "wss://bob" := by
      simp [InboxRelay, threeMailboxes, MailboxSnapshot.inboxRelays]
    exact hoff hrelay

end PlannerIsolation
