import NostrMultiPlatform.PlannerSurvival

/-!
# What selection leaves of a plan

Whatever the plan and the scores: selection leaves no more relays than there are
connections, no author on more of them than its cap, and each sub-shape with some of
its authors or, if it had none, as it was. Relays that bypass selection stay.
-/
namespace PlannerSoundness

open Sorted PlannerShape PlannerPlan PlannerSelection PlannerGreedy PlannerSurvival CappedCover
open PlannerIsolation

variable {plan : CompiledPlan} {maxConnections maxPerUser : Nat} {scoreLookup : Option ScoreLookup}
  {relay author : String} {relayPlan : RelayPlan} {sub sub' : SubShape} {allowed : SortedSet String}

/-- The sub-shape carries the hash of its shape. -/
def Fresh (sub : SubShape) : Prop := sub.canonicalFilterHash = canonicalFilterHash sub.shape

/-- The second sub-shape asks for some of the authors of the first, and for the rest as it does. -/
structure Narrowed (sub sub' : SubShape) : Prop where
  authors : ∀ author ∈ sub'.shape.authors, author ∈ sub.shape.authors
  shape : sub'.shape = { sub.shape with authors := sub'.shape.authors }
  interests : sub'.originatingInterests = sub.originatingInterests
  wildcard : sub'.shape.authors = ∅ → sub.shape.authors = ∅

theorem retain_eq_of_card {s : SortedSet String} {p : String → Bool}
    (h : (s.retain p).card = s.card) : s.retain p = s := by
  have hfilter : s.elems.filter p = s.elems := List.filter_sublist.eq_of_length h
  apply SortedSet.ext
  intro a
  rw [← SortedSet.mem_elems, ← SortedSet.mem_elems]
  change a ∈ s.elems.filter p ↔ _
  rw [hfilter]

theorem keptSub_narrowed (h : keptSub allowed sub = some sub') :
    Narrowed sub sub' ∧ (Fresh sub → Fresh sub') := by
  have hauthors := (keptSub_eq_some h).2
  unfold keptSub at h
  split at h
  next hnone =>
    obtain rfl := Option.some.inj h
    exact ⟨⟨fun author hauthor => hauthor, rfl, rfl, id⟩, id⟩
  next hsome =>
    dsimp only at h
    split at h
    · cases h
    next hleft =>
      split at h
      · obtain rfl := Option.some.inj h
        exact ⟨⟨fun author hauthor => ((hauthors author).mp hauthor).1, rfl, rfl,
          fun hempty => absurd hempty hleft⟩, fun _ => rfl⟩
      next hcard =>
        obtain rfl := Option.some.inj h
        have hsame := retain_eq_of_card (not_ne_iff.mp hcard)
        refine ⟨⟨fun author hauthor => ((hauthors author).mp hauthor).1, rfl, rfl,
          fun hempty => absurd hempty hleft⟩, fun hfresh => ?_⟩
        unfold Fresh
        dsimp only
        rw [hsame]
        exact hfresh

/-- The kept sub-shapes, in order, are narrowed from some of the given ones. -/
theorem filterMap_keptSub (allowed : SortedSet String) (subs : List SubShape) :
    ∃ survivors : List SubShape, survivors.Sublist subs ∧
      List.Forall₂ Narrowed survivors (subs.filterMap (keptSub allowed)) := by
  induction subs with
  | nil => exact ⟨[], .slnil, .nil⟩
  | cons first _ ih =>
    obtain ⟨survivors, hsublist, hnarrowed⟩ := ih
    cases hkept : keptSub allowed first with
    | none =>
      rw [List.filterMap_cons_none hkept]
      exact ⟨survivors, hsublist.cons first, hnarrowed⟩
    | some =>
      rw [List.filterMap_cons_some hkept]
      exact ⟨first :: survivors, hsublist.cons_cons first, .cons (keptSub_narrowed hkept).1 hnarrowed⟩

/-- Where a relay of the selected plan comes from. -/
theorem lookup_applied {left : RelayPlan}
    (h : (applySelectionWithLookup plan maxConnections maxPerUser scoreLookup).perRelay.lookup relay =
      some left) :
    ∃ relayPlan, plan.perRelay.lookup relay = some relayPlan ∧
      (left = relayPlan ∧ relayBypassesSelection relayPlan.roleTags = true ∨
        relayBypassesSelection relayPlan.roleTags = false ∧
          ∃ allowed, (selectionsFor plan maxConnections maxPerUser scoreLookup).lookup relay =
            some allowed ∧ projectRelay allowed relayPlan = some left) := by
  rw [lookup_applySelection] at h
  obtain ⟨relayPlan, hplan, hleft⟩ := Option.bind_eq_some_iff.mp h
  refine ⟨relayPlan, hplan, ?_⟩
  cases hbypass : relayBypassesSelection relayPlan.roleTags with
  | true =>
    rw [hbypass, if_pos rfl] at hleft
    exact .inl ⟨(Option.some.inj hleft).symm, rfl⟩
  | false =>
    rw [hbypass] at hleft
    obtain ⟨allowed, hallowed, hprojected⟩ := Option.bind_eq_some_iff.mp hleft
    exact .inr ⟨rfl, allowed, hallowed, hprojected⟩

/-- Without a cap for authors nothing is selected. -/
theorem not_underSelection_of_no_cap :
    ¬ UnderSelection (applySelectionWithLookup plan maxConnections 0 scoreLookup) relay := by
  rintro ⟨left, hleft, hbypass⟩
  obtain ⟨relayPlan, -, ⟨rfl, hbypass'⟩ | ⟨-, allowed, hallowed, -⟩⟩ := lookup_applied hleft
  · rw [hbypass] at hbypass'
    cases hbypass'
  · have hnone : selectionsFor plan maxConnections 0 scoreLookup = ∅ := by
      simp [selectionsFor, greedySelect]
    rw [hnone, SortedMap.lookup_empty] at hallowed
    cases hallowed

theorem connections_le : (underSelection
    (applySelectionWithLookup plan maxConnections maxPerUser scoreLookup)).length ≤
      maxConnections := by
  rcases Nat.eq_zero_or_pos maxPerUser with rfl | hcap
  · rw [List.eq_nil_iff_forall_not_mem.mpr fun relay hrelay =>
      not_underSelection_of_no_cap (mem_underSelection.mp hrelay)]
    exact Nat.zero_le _
  · obtain ⟨winners, hselected⟩ :=
      exists_selected (perRelayAuthors plan scoreLookup) maxConnections hcap
    have hpicked : (picked plan maxConnections maxPerUser scoreLookup).length = winners.length := by
      rw [picked, SortedMap.keys, List.length_map, hselected.length]
    have hspare : ((spare plan maxConnections maxPerUser scoreLookup).filter
        (HasWildcard plan ·)).length ≤ maxConnections - winners.length := by
      rw [← hselected.length]
      exact (List.length_filter_le _ _).trans (List.length_take_le _ _)
    have hle := hselected.length_le
    rw [length_survivors hcap, hpicked]
    omega

theorem redundancy_le : (carriers (rawPerRelayAuthors
    (applySelectionWithLookup plan maxConnections maxPerUser scoreLookup)) author).card ≤
      maxPerUser := by
  rcases Nat.eq_zero_or_pos maxPerUser with rfl | hcap
  · have hnone : carriers (rawPerRelayAuthors
        (applySelectionWithLookup plan maxConnections 0 scoreLookup)) author = ∅ :=
      Finset.eq_empty_iff_forall_notMem.mpr fun relay hrelay =>
        not_underSelection_of_no_cap (underSelection_of_mem_carriers hrelay)
    rw [hnone]
    exact le_refl _
  · obtain ⟨winners, hselected⟩ :=
      exists_selected (perRelayAuthors plan scoreLookup) maxConnections hcap
    have hset : carriers (rawPerRelayAuthors
        (applySelectionWithLookup plan maxConnections maxPerUser scoreLookup)) author =
          (served maxPerUser (carriers (perRelayAuthors plan scoreLookup) author)
            winners).toFinset :=
      Finset.ext fun relay => (carriers_applied hcap hselected).trans List.mem_toFinset.symm
    rw [hset]
    exact (List.toFinset_card_le _).trans (List.length_take_le _ _)

/-- What a selected plan keeps of a plan. -/
structure SelectionSound (plan selected : CompiledPlan) (maxConnections maxPerUser : Nat) : Prop where
  connections : (underSelection selected).length ≤ maxConnections
  redundancy : ∀ author, (carriers (rawPerRelayAuthors selected) author).card ≤ maxPerUser
  relays : ∀ relay left, selected.perRelay.lookup relay = some left →
    ∃ relayPlan, plan.perRelay.lookup relay = some relayPlan ∧ left.roleTags = relayPlan.roleTags ∧
      ∃ survivors : List SubShape, survivors.Sublist relayPlan.subShapes ∧
        List.Forall₂ Narrowed survivors left.subShapes
  bypass : ∀ relay relayPlan, relayBypassesSelection relayPlan.roleTags = true →
    (selected.perRelay.lookup relay = some relayPlan ↔ plan.perRelay.lookup relay = some relayPlan)
  fresh : ∀ relay sub, InPlan selected relay sub → Fresh sub
  someShape : ∀ relay left, selected.perRelay.lookup relay = some left →
    relayBypassesSelection left.roleTags = false → left.subShapes ≠ []

/-- Every plan whose hashes are fresh is selected from soundly. -/
theorem selection_sound (plan : CompiledPlan) (maxConnections maxPerUser : Nat)
    (scoreLookup : Option ScoreLookup) (hfresh : ∀ relay sub, InPlan plan relay sub → Fresh sub) :
    SelectionSound plan (applySelectionWithLookup plan maxConnections maxPerUser scoreLookup)
      maxConnections maxPerUser := by
  constructor
  · exact connections_le
  · exact fun author => redundancy_le
  · intro relay left hleft
    obtain ⟨relayPlan, hplan, ⟨rfl, -⟩ | ⟨-, allowed, -, hprojected⟩⟩ := lookup_applied hleft
    · exact ⟨left, hplan, rfl, left.subShapes, .refl _, List.forall₂_same.mpr fun sub _ =>
        ⟨fun author hauthor => hauthor, rfl, rfl, id⟩⟩
    · obtain ⟨hroles, hsubs⟩ := projectRelay_eq_some hprojected
      refine ⟨relayPlan, hplan, hroles, ?_⟩
      rw [hsubs]
      exact filterMap_keptSub allowed relayPlan.subShapes
  · intro relay relayPlan hbypass
    constructor
    · intro hleft
      obtain ⟨relayPlan', hplan, ⟨rfl, -⟩ | ⟨hnot, allowed, -, hprojected⟩⟩ := lookup_applied hleft
      · exact hplan
      · rw [(projectRelay_eq_some hprojected).1, hnot] at hbypass
        cases hbypass
    · intro hplan
      rw [lookup_applySelection, hplan, Option.bind_some, hbypass, if_pos rfl]
  · rintro relay sub ⟨left, hleft, hsub⟩
    obtain ⟨relayPlan, hplan, ⟨rfl, -⟩ | ⟨-, allowed, -, hprojected⟩⟩ := lookup_applied hleft
    · exact hfresh relay sub ⟨left, hplan, hsub⟩
    · rw [(projectRelay_eq_some hprojected).2] at hsub
      obtain ⟨origin, horigin, hkept⟩ := List.mem_filterMap.mp hsub
      exact (keptSub_narrowed hkept).2 (hfresh relay origin ⟨relayPlan, hplan, horigin⟩)
  · intro relay left hleft hunder
    obtain ⟨relayPlan, -, ⟨rfl, hbypass⟩ | ⟨-, allowed, -, hprojected⟩⟩ := lookup_applied hleft
    · rw [hunder] at hbypass
      cases hbypass
    · unfold projectRelay at hprojected
      dsimp only at hprojected
      split at hprojected
      · cases hprojected
      next hsome =>
        obtain rfl := Option.some.inj hprojected
        exact hsome

/-- A plan of one relay. -/
def planOf (roleTags : SortedSet RoutingSource) (subShapes : List SubShape) : CompiledPlan :=
  ⟨"plan", (∅ : SortedMap String RelayPlan).insert "wss://a"
    ⟨"wss://a", roleTags, subShapes, .default⟩, ∅⟩

theorem fresh_planOf {roleTags : SortedSet RoutingSource} {subShapes : List SubShape}
    (h : ∀ sub ∈ subShapes, Fresh sub) : ∀ relay sub, InPlan (planOf roleTags subShapes) relay sub →
      Fresh sub := by
  rintro relay sub ⟨relayPlan, hplan, hsub⟩
  rw [planOf, SortedMap.lookup_insert] at hplan
  split at hplan
  · obtain rfl := Option.some.inj hplan
    exact h sub hsub
  · cases hplan

/-- The sub-shape of one interest, as it is compiled. -/
def compiled (shape : InterestShape) : SubShape := ⟨shape, [1], canonicalFilterHash shape⟩

theorem fresh_compiled (shape : InterestShape) : Fresh (compiled shape) := rfl

/-- Events of two authors. -/
def twoAuthors : SubShape := compiled { InterestShape.default with authors := {"alice", "bob"} }

theorem selection_sound_two : SelectionSound (planOf {.nip65} [twoAuthors])
    (applySelectionWithLookup (planOf {.nip65} [twoAuthors]) 1 1 none) 1 1 :=
  selection_sound (planOf {.nip65} [twoAuthors]) 1 1 none (fresh_planOf (by
    intro sub hsub
    rw [List.mem_singleton.mp hsub]
    exact fresh_compiled _))

/-- A relay that bypasses selection keeps its list even when it is empty. -/
theorem pinned_relay_stays_empty : ¬ ∀ (plan : CompiledPlan) (maxConnections maxPerUser : Nat)
    (scoreLookup : Option ScoreLookup), (∀ relay sub, InPlan plan relay sub → Fresh sub) →
      ∀ relay left, (applySelectionWithLookup plan maxConnections maxPerUser
        scoreLookup).perRelay.lookup relay = some left → left.subShapes ≠ [] := by
  intro hclaim
  have hleft : (applySelectionWithLookup (planOf {.hint} []) 1 1 none).perRelay.lookup "wss://a" =
      some ⟨"wss://a", {.hint}, [], .default⟩ := by decide +kernel
  exact hclaim (planOf {.hint} []) 1 1 none (fresh_planOf nofun) "wss://a" _ hleft rfl

end PlannerSoundness
