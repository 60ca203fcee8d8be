import NostrMultiPlatform.PlannerGreedy
import NostrMultiPlatform.PlannerIsolation

/-!
# What survives selection

A relay survives if the greedy pass takes it or the backfill reaches it and it has
a sub-shape without authors. An author keeps some of its relays, and on each of
them all sub-shapes that asked for it; an interest keeps the author if it asked
enough of them.
-/
namespace PlannerSurvival

open Sorted PlannerPlan PlannerSelection PlannerGreedy CappedCover SortedMap SortedSet
open PlannerPartition PlannerCompile PlannerCover PlannerIsolation PlannerMerge

variable {plan : CompiledPlan} {maxConnections maxPerUser : Nat} {scoreLookup : Option ScoreLookup}
  {relay author : String} {relayPlan : RelayPlan} {sub sub' : SubShape} {allowed : SortedSet String}

theorem mem_authorsOf : author ∈ authorsOf relayPlan ↔
    ∃ sub ∈ relayPlan.subShapes, author ∈ sub.shape.authors := by
  have hfold : ∀ (subs : List SubShape) (s : SortedSet String),
      author ∈ subs.foldl (fun union sub => union ∪ sub.shape.authors) s ↔
        author ∈ s ∨ ∃ sub ∈ subs, author ∈ sub.shape.authors := by
    intro subs
    induction subs with
    | nil => simp
    | cons _ _ ih =>
      intro s
      rw [List.foldl_cons, ih, mem_union, List.exists_mem_cons_iff, or_assoc]
  rw [authorsOf, hfold]
  simp

theorem keptSub_wildcard (h : sub.shape.authors = ∅) : keptSub allowed sub = some sub := by
  rw [keptSub, if_pos h]

/-- A kept sub-shape has no other authors than the allowed ones, or no authors as before. -/
theorem keptSub_eq_some (h : keptSub allowed sub = some sub') :
    sub'.originatingInterests = sub.originatingInterests ∧
      ∀ author, author ∈ sub'.shape.authors ↔ author ∈ sub.shape.authors ∧ author ∈ allowed := by
  unfold keptSub at h
  split at h
  next hnone =>
    obtain rfl := Option.some.inj h
    refine ⟨rfl, fun author => ?_⟩
    rw [hnone]
    simp
  · dsimp only at h
    split at h
    · cases h
    · split at h
      · obtain rfl := Option.some.inj h
        exact ⟨rfl, fun author => by simp⟩
      · obtain rfl := Option.some.inj h
        exact ⟨rfl, fun author => by simp⟩

theorem keptSub_of_mem (hauthor : author ∈ sub.shape.authors) (hallowed : author ∈ allowed) :
    ∃ sub', keptSub allowed sub = some sub' := by
  have hkept : author ∈ sub.shape.authors.retain (· ∈ allowed) :=
    mem_retain.mpr ⟨hauthor, decide_eq_true hallowed⟩
  have hne : sub.shape.authors ≠ ∅ := ne_empty_iff.mpr ⟨author, hauthor⟩
  have hne' : sub.shape.authors.retain (· ∈ allowed) ≠ ∅ := ne_empty_iff.mpr ⟨author, hkept⟩
  simp only [keptSub, if_neg hne, if_neg hne']
  split
  · exact ⟨_, rfl⟩
  · exact ⟨_, rfl⟩

theorem keptSub_none (h : sub.shape.authors ≠ ∅) : keptSub ∅ sub = none := by
  have hnone : sub.shape.authors.retain (· ∈ (∅ : SortedSet String)) = ∅ :=
    eq_empty_iff.mpr fun author hauthor => by simp at hauthor
  simp only [keptSub, if_neg h, hnone, if_true]

/-- A relay keeps what is kept of its sub-shapes, if that is anything. -/
theorem projectRelay_eq_some {projected : RelayPlan} :
    projectRelay allowed relayPlan = some projected →
      projected.roleTags = relayPlan.roleTags ∧
        projected.subShapes = relayPlan.subShapes.filterMap (keptSub allowed) := by
  intro h
  unfold projectRelay at h
  dsimp only at h
  split at h
  · cases h
  · obtain rfl := Option.some.inj h
    exact ⟨rfl, rfl⟩

theorem projectRelay_isSome (hsub : sub ∈ relayPlan.subShapes) (hkept : keptSub allowed sub = some sub') :
    ∃ projected, projectRelay allowed relayPlan = some projected := by
  have hne : relayPlan.subShapes.filterMap (keptSub allowed) ≠ [] :=
    List.ne_nil_of_mem (List.mem_filterMap.mpr ⟨sub, hsub, hkept⟩)
  simp only [projectRelay, if_neg hne]
  exact ⟨_, rfl⟩

theorem lookup_raw : (rawPerRelayAuthors plan).lookup relay =
    (plan.perRelay.lookup relay).bind fun relayPlan =>
      if relayBypassesSelection relayPlan.roleTags then none else some (authorsOf relayPlan) := by
  rw [rawPerRelayAuthors, lookup_filterMapRows]

theorem lookup_rawPerRelayAuthors {authors : SortedSet String}
    (h : (rawPerRelayAuthors plan).lookup relay = some authors) :
    ∃ relayPlan, plan.perRelay.lookup relay = some relayPlan ∧
      relayBypassesSelection relayPlan.roleTags = false ∧
      ∀ author ∈ authors, author ∈ authorsOf relayPlan := by
  rw [lookup_raw] at h
  obtain ⟨relayPlan, hplan, hraw⟩ := Option.bind_eq_some_iff.mp h
  split at hraw
  · cases hraw
  next hbypass =>
    obtain rfl := Option.some.inj hraw
    exact ⟨relayPlan, hplan, Bool.eq_false_of_not_eq_true hbypass, fun author hauthor => hauthor⟩

/-- The warm filter only leaves out authors. -/
theorem lookup_perRelayAuthors {authors : SortedSet String}
    (h : (perRelayAuthors plan scoreLookup).lookup relay = some authors) :
    ∃ relayPlan, plan.perRelay.lookup relay = some relayPlan ∧
      relayBypassesSelection relayPlan.roleTags = false ∧
      ∀ author ∈ authors, author ∈ authorsOf relayPlan := by
  have hraw : ∃ raw, (rawPerRelayAuthors plan).lookup relay = some raw ∧ ∀ author ∈ authors, author ∈ raw := by
    cases scoreLookup with
    | none => exact ⟨authors, h, fun author hauthor => hauthor⟩
    | some =>
      simp only [perRelayAuthors, lookup_mapRows] at h
      obtain ⟨raw, hlookup, rfl⟩ := Option.map_eq_some_iff.mp h
      refine ⟨raw, hlookup, fun author hauthor => ?_⟩
      split at hauthor
      · exact (mem_retain.mp hauthor).1
      · exact hauthor
  obtain ⟨raw, hlookup, hsub⟩ := hraw
  obtain ⟨relayPlan, hplan, hbypass, hauthors⟩ := lookup_rawPerRelayAuthors hlookup
  exact ⟨relayPlan, hplan, hbypass, fun author hauthor => hauthors author (hsub author hauthor)⟩

/-- The relays without authors that the backfill reaches. -/
def spare (plan : CompiledPlan) (maxConnections maxPerUser : Nat) (scoreLookup : Option ScoreLookup) :
    List String :=
  (((perRelayAuthors plan scoreLookup).rows.filter fun row => row.2 = ∅).map Prod.fst).take
    (maxConnections - (greedySelect (perRelayAuthors plan scoreLookup) maxConnections
      maxPerUser).rows.length)

theorem lookup_backfill {rows : List (String × SortedSet String)} {selections : PerRelayAuthors}
    (hnodup : (rows.map Prod.fst).Nodup)
    (hnew : ∀ row ∈ rows, row.2 = ∅ → selections.lookup row.1 = none)
    (hfree : selections.rows.length < maxConnections) :
    (backfill maxConnections rows selections).lookup relay =
      if relay ∈ ((rows.filter fun row => row.2 = ∅).map Prod.fst).take
        (maxConnections - selections.rows.length) then some ∅ else selections.lookup relay := by
  induction rows generalizing selections with
  | nil => simp [backfill]
  | cons row rest ih =>
    obtain ⟨url, authors⟩ := row
    rw [List.map_cons, List.nodup_cons] at hnodup
    obtain ⟨hfirst, hrest⟩ := List.forall_mem_cons.mp hnew
    by_cases hauthors : authors = ∅
    · subst hauthors
      have hnone : selections.lookup url = none := hfirst rfl
      have hlength := length_insert hnone (∅ : SortedSet String)
      obtain ⟨free, hfree'⟩ : ∃ free, maxConnections - selections.rows.length = free + 1 :=
        ⟨maxConnections - selections.rows.length - 1, by omega⟩
      have htake : ((((url, ∅) :: rest).filter fun row : String × SortedSet String =>
          row.2 = ∅).map Prod.fst).take (maxConnections - selections.rows.length) =
            url :: ((rest.filter fun row => row.2 = ∅).map Prod.fst).take free := by
        rw [hfree', List.filter_cons_of_pos (by simp), List.map_cons, List.take_succ_cons]
      have hstep : backfill maxConnections ((url, ∅) :: rest) selections =
          if maxConnections ≤ (selections.insert url ∅).rows.length then selections.insert url ∅
          else backfill maxConnections rest (selections.insert url ∅) := by
        rw [backfill, if_pos ⟨rfl, hnone⟩]
      rw [htake, hstep]
      split
      next hfull =>
        obtain rfl : free = 0 := by omega
        simp only [lookup_insert, List.take_zero, List.mem_singleton]
      next hleft =>
        have hnew' : ∀ row ∈ rest, row.2 = ∅ → (selections.insert url ∅).lookup row.1 = none := by
          intro row hrow hempty
          have hne : row.1 ≠ url := fun heq => hnodup.1 (List.mem_map.mpr ⟨row, hrow, heq⟩)
          rw [lookup_insert, if_neg hne, hrest row hrow hempty]
        have hleft' : maxConnections - (selections.insert url ∅).rows.length = free := by omega
        rw [ih hnodup.2 hnew' (by omega), hleft', lookup_insert]
        by_cases h : relay = url
        · simp [h]
        · simp [h]
    · simp only [backfill, hauthors, false_and, if_false]
      rw [ih hnodup.2 hrest hfree, List.filter_cons_of_neg (by simpa using hauthors)]

/-- The selected relays: those of the greedy pass, and the spare ones without authors. -/
theorem lookup_selectionsFor (h : 0 < maxPerUser) :
    (selectionsFor plan maxConnections maxPerUser scoreLookup).lookup relay =
      if relay ∈ spare plan maxConnections maxPerUser scoreLookup then some ∅
      else (greedySelect (perRelayAuthors plan scoreLookup) maxConnections maxPerUser).lookup relay := by
  obtain ⟨winners, hselected⟩ :=
    exists_selected (perRelayAuthors plan scoreLookup) maxConnections h
  unfold selectionsFor
  dsimp only
  split
  next hfree =>
    refine lookup_backfill (keys_nodup _) (fun row hrow hempty => ?_) hfree.1
    exact hselected.not_selected (lookup_eq_some.mpr hrow) hempty
  next hfull =>
    have hnone : spare plan maxConnections maxPerUser scoreLookup = [] := by
      rw [spare, Nat.sub_eq_zero_of_le (by omega), List.take_zero]
    rw [hnone, if_neg List.not_mem_nil]

/-- The relay asks for something without authors. -/
def HasWildcard (plan : CompiledPlan) (relay : String) : Prop :=
  ∃ relayPlan, plan.perRelay.lookup relay = some relayPlan ∧
    ∃ sub ∈ relayPlan.subShapes, sub.shape.authors = ∅

instance : DecidablePred (HasWildcard plan) := fun relay =>
  decidable_of_iff
    (∃ sub ∈ ((plan.perRelay.lookup relay).map RelayPlan.subShapes).getD [], sub.shape.authors = ∅) (by
    cases hplan : plan.perRelay.lookup relay <;> simp [HasWildcard, hplan])

/-- The relay is not exempt from selection. -/
def UnderSelection (plan : CompiledPlan) (relay : String) : Prop :=
  ∃ relayPlan, plan.perRelay.lookup relay = some relayPlan ∧
    relayBypassesSelection relayPlan.roleTags = false

theorem lookup_applySelection : (applySelectionWithLookup plan maxConnections maxPerUser
    scoreLookup).perRelay.lookup relay =
      (plan.perRelay.lookup relay).bind fun relayPlan =>
        if relayBypassesSelection relayPlan.roleTags then some relayPlan
        else ((selectionsFor plan maxConnections maxPerUser scoreLookup).lookup relay).bind fun allowed =>
          projectRelay allowed relayPlan := by
  rw [applySelectionWithLookup, lookup_filterMapRows]

/-- The relays that the greedy pass takes. -/
def picked (plan : CompiledPlan) (maxConnections maxPerUser : Nat) (scoreLookup : Option ScoreLookup) :
    List String :=
  (greedySelect (perRelayAuthors plan scoreLookup) maxConnections maxPerUser).keys

theorem picked_nodup : (picked plan maxConnections maxPerUser scoreLookup).Nodup :=
  keys_nodup _

theorem spare_nodup : (spare plan maxConnections maxPerUser scoreLookup).Nodup :=
  ((keys_nodup (perRelayAuthors plan scoreLookup)).sublist
    (List.filter_sublist.map Prod.fst)).sublist (List.take_sublist _ _)

theorem mem_spare (h : relay ∈ spare plan maxConnections maxPerUser scoreLookup) :
    (perRelayAuthors plan scoreLookup).lookup relay = some ∅ := by
  obtain ⟨row, hrow, rfl⟩ := List.mem_map.mp (List.mem_of_mem_take h)
  obtain ⟨hrow, hempty⟩ := List.mem_filter.mp hrow
  rw [← of_decide_eq_true hempty]
  exact lookup_eq_some.mpr hrow

theorem picked_disjoint_spare (h : 0 < maxPerUser) :
    (picked plan maxConnections maxPerUser scoreLookup).Disjoint
      (spare plan maxConnections maxPerUser scoreLookup) := by
  intro relay hpicked hspare
  obtain ⟨winners, hselected⟩ := exists_selected (perRelayAuthors plan scoreLookup) maxConnections h
  obtain ⟨authors, hauthors⟩ := mem_keys.mp hpicked
  rw [hselected.not_selected (mem_spare hspare) rfl] at hauthors
  cases hauthors

/-- Selected relays are under selection. -/
theorem underSelection_of_lookup {authors : SortedSet String}
    (h : (perRelayAuthors plan scoreLookup).lookup relay = some authors) : UnderSelection plan relay := by
  obtain ⟨relayPlan, hplan, hbypass, -⟩ := lookup_perRelayAuthors h
  exact ⟨relayPlan, hplan, hbypass⟩

/-- A relay that the greedy pass takes keeps a sub-shape of each author it serves. -/
theorem exists_kept_of_picked (h : 0 < maxPerUser)
    (hpicked : (greedySelect (perRelayAuthors plan scoreLookup) maxConnections maxPerUser).lookup relay =
      some allowed) :
    ∃ relayPlan, plan.perRelay.lookup relay = some relayPlan ∧
      relayBypassesSelection relayPlan.roleTags = false ∧
      ∃ projected, projectRelay allowed relayPlan = some projected := by
  obtain ⟨winners, hselected⟩ := exists_selected (perRelayAuthors plan scoreLookup) maxConnections h
  obtain ⟨author, hserved⟩ := hselected.winners_serve relay ((hselected.keys relay).mp ⟨_, hpicked⟩)
  have hallowed := (hselected.serves author relay).mpr hserved
  rw [hpicked] at hallowed
  have hcarries := mem_carriers.mp (mem_served_carriers hserved).1
  cases hlookup : (perRelayAuthors plan scoreLookup).lookup relay with
  | none =>
    rw [hlookup] at hcarries
    exact absurd hcarries (not_mem_empty author)
  | some =>
    rw [hlookup] at hcarries
    obtain ⟨relayPlan, hplan, hbypass, hsub⟩ := lookup_perRelayAuthors hlookup
    obtain ⟨sub, hmem, hauthor⟩ := mem_authorsOf.mp (hsub author hcarries)
    obtain ⟨sub', hkept⟩ := keptSub_of_mem hauthor hallowed
    exact ⟨relayPlan, hplan, hbypass, projectRelay_isSome hmem hkept⟩

/-- What is left of a relay under selection. -/
theorem lookup_underSelection (hplan : plan.perRelay.lookup relay = some relayPlan)
    (hbypass : relayBypassesSelection relayPlan.roleTags = false) (h : 0 < maxPerUser) :
    (applySelectionWithLookup plan maxConnections maxPerUser scoreLookup).perRelay.lookup relay =
      if relay ∈ spare plan maxConnections maxPerUser scoreLookup then projectRelay ∅ relayPlan
      else ((greedySelect (perRelayAuthors plan scoreLookup) maxConnections maxPerUser).lookup
        relay).bind fun allowed => projectRelay allowed relayPlan := by
  rw [lookup_applySelection, hplan, Option.bind_some, hbypass, lookup_selectionsFor h]
  simp only [Bool.false_eq_true, if_false]
  split
  · rfl
  · rfl

theorem projectRelay_empty : (∃ projected, projectRelay ∅ relayPlan = some projected) ↔
    ∃ sub ∈ relayPlan.subShapes, sub.shape.authors = ∅ := by
  constructor
  · intro ⟨projected, hprojected⟩
    by_contra hnone
    have hnil : relayPlan.subShapes.filterMap (keptSub ∅) = [] := by
      refine List.filterMap_eq_nil_iff.mpr fun sub hsub => keptSub_none fun hempty => ?_
      exact hnone ⟨sub, hsub, hempty⟩
    simp only [projectRelay, hnil, if_true] at hprojected
    cases hprojected
  · intro ⟨sub, hsub, hempty⟩
    exact projectRelay_isSome hsub (keptSub_wildcard hempty)

theorem underSelection_of_applied (h : UnderSelection
    (applySelectionWithLookup plan maxConnections maxPerUser scoreLookup) relay) :
    UnderSelection plan relay := by
  obtain ⟨left, hleft, hbypass⟩ := h
  rw [lookup_applySelection] at hleft
  obtain ⟨relayPlan, hplan, hleft⟩ := Option.bind_eq_some_iff.mp hleft
  cases hold : relayBypassesSelection relayPlan.roleTags with
  | true =>
    rw [hold, if_pos rfl] at hleft
    rw [← Option.some.inj hleft, hold] at hbypass
    cases hbypass
  | false => exact ⟨relayPlan, hplan, hold⟩

/-- The relays under selection that are left. -/
theorem survives_iff (h : 0 < maxPerUser) :
    UnderSelection (applySelectionWithLookup plan maxConnections maxPerUser scoreLookup) relay ↔
      relay ∈ picked plan maxConnections maxPerUser scoreLookup ∨
        (relay ∈ spare plan maxConnections maxPerUser scoreLookup ∧ HasWildcard plan relay) := by
  constructor
  · intro hunder
    obtain ⟨relayPlan, hplan, hbypass⟩ := underSelection_of_applied hunder
    obtain ⟨left, hleft, -⟩ := hunder
    rw [lookup_underSelection hplan hbypass h] at hleft
    split at hleft
    next hspare => exact .inr ⟨hspare, relayPlan, hplan, projectRelay_empty.mp ⟨left, hleft⟩⟩
    · obtain ⟨allowed, hallowed, -⟩ := Option.bind_eq_some_iff.mp hleft
      exact .inl (mem_keys.mpr ⟨allowed, hallowed⟩)
  · rintro (hpicked | ⟨hspare, relayPlan, hplan, hwildcard⟩)
    · obtain ⟨allowed, hallowed⟩ := mem_keys.mp hpicked
      obtain ⟨relayPlan, hplan, hbypass, projected, hprojected⟩ := exists_kept_of_picked h hallowed
      refine ⟨projected, ?_, (projectRelay_eq_some hprojected).1 ▸ hbypass⟩
      rw [lookup_underSelection hplan hbypass h,
        if_neg fun hspare => picked_disjoint_spare h hpicked hspare, hallowed]
      exact hprojected
    · obtain ⟨relayPlan', hplan', hbypass⟩ := underSelection_of_lookup (mem_spare hspare)
      obtain rfl := Option.eq_some_unique hplan hplan'
      obtain ⟨projected, hprojected⟩ := projectRelay_empty.mpr hwildcard
      refine ⟨projected, ?_, (projectRelay_eq_some hprojected).1 ▸ hbypass⟩
      rw [lookup_underSelection hplan hbypass h, if_pos hspare]
      exact hprojected

/-- A sub-shape without authors is kept where selection does not drop its relay. -/
theorem wildcard_kept_iff (h : 0 < maxPerUser) (hsub : InPlan plan relay sub)
    (hempty : sub.shape.authors = ∅) :
    InPlan (applySelectionWithLookup plan maxConnections maxPerUser scoreLookup) relay sub ↔
      (UnderSelection plan relay → relay ∈ picked plan maxConnections maxPerUser scoreLookup ∨
        relay ∈ spare plan maxConnections maxPerUser scoreLookup) := by
  obtain ⟨relayPlan, hplan, hmem⟩ := hsub
  have hprojects : ∀ {allowed : SortedSet String} {projected : RelayPlan},
      projectRelay allowed relayPlan = some projected → sub ∈ projected.subShapes := by
    intro allowed projected hprojected
    rw [(projectRelay_eq_some hprojected).2]
    exact List.mem_filterMap.mpr ⟨sub, hmem, keptSub_wildcard hempty⟩
  cases hbypass : relayBypassesSelection relayPlan.roleTags with
  | true =>
    have hnot : ¬ UnderSelection plan relay := by
      intro ⟨relayPlan', hplan', hbypass'⟩
      obtain rfl := Option.eq_some_unique hplan hplan'
      rw [hbypass] at hbypass'
      cases hbypass'
    refine iff_of_true ⟨relayPlan, ?_, hmem⟩ fun hunder => absurd hunder hnot
    rw [lookup_applySelection, hplan, Option.bind_some, hbypass, if_pos rfl]
  | false =>
    rw [imp_iff_right ⟨relayPlan, hplan, hbypass⟩]
    constructor
    · intro ⟨left, hleft, _⟩
      have hbypass' : relayBypassesSelection left.roleTags = false := by
        rw [lookup_applySelection, hplan, Option.bind_some, hbypass] at hleft
        obtain ⟨allowed, -, hprojected⟩ := Option.bind_eq_some_iff.mp hleft
        rw [(projectRelay_eq_some hprojected).1, hbypass]
      exact ((survives_iff h).mp ⟨left, hleft, hbypass'⟩).imp id And.left
    · intro hselected
      have hwild : HasWildcard plan relay := ⟨relayPlan, hplan, sub, hmem, hempty⟩
      obtain ⟨left, hleft, -⟩ := (survives_iff h).mpr (hselected.imp id fun hspare => ⟨hspare, hwild⟩)
      refine ⟨left, hleft, ?_⟩
      rw [lookup_applySelection, hplan, Option.bind_some, hbypass] at hleft
      obtain ⟨allowed, -, hprojected⟩ := Option.bind_eq_some_iff.mp hleft
      exact hprojects hprojected

/-- The relays of a plan that are not exempt from selection. -/
def underSelection (plan : CompiledPlan) : List String :=
  (plan.perRelay.rows.filter fun row => !relayBypassesSelection row.2.roleTags).map Prod.fst

theorem mem_underSelection : relay ∈ underSelection plan ↔ UnderSelection plan relay := by
  simp only [underSelection, List.mem_map, List.mem_filter, Bool.not_eq_true']
  constructor
  · rintro ⟨row, ⟨hrow, hbypass⟩, rfl⟩
    exact ⟨row.2, lookup_eq_some.mpr hrow, hbypass⟩
  · intro ⟨relayPlan, hplan, hbypass⟩
    exact ⟨(relay, relayPlan), ⟨lookup_eq_some.mp hplan, hbypass⟩, rfl⟩

theorem underSelection_nodup : (underSelection plan).Nodup :=
  (keys_nodup plan.perRelay).sublist (List.filter_sublist.map Prod.fst)

/-- As many relays are left as the greedy pass takes, and wildcard relays the backfill reaches. -/
theorem length_survivors (h : 0 < maxPerUser) :
    (underSelection (applySelectionWithLookup plan maxConnections maxPerUser scoreLookup)).length =
      (picked plan maxConnections maxPerUser scoreLookup).length +
        ((spare plan maxConnections maxPerUser scoreLookup).filter (HasWildcard plan ·)).length := by
  have hdisjoint : (picked plan maxConnections maxPerUser scoreLookup).Disjoint
      (spare plan maxConnections maxPerUser scoreLookup) := picked_disjoint_spare h
  have hperm : (underSelection
      (applySelectionWithLookup plan maxConnections maxPerUser scoreLookup)).Perm
      (picked plan maxConnections maxPerUser scoreLookup ++
        (spare plan maxConnections maxPerUser scoreLookup).filter (HasWildcard plan ·)) := by
    refine (List.perm_ext_iff_of_nodup underSelection_nodup ?_).mpr fun relay => ?_
    · exact picked_nodup.append (spare_nodup.filter _) fun relay hpicked hspare =>
        hdisjoint hpicked (List.mem_of_mem_filter hspare)
    · rw [mem_underSelection, survives_iff h, List.mem_append, List.mem_filter, decide_eq_true_iff]
  rw [hperm.length_eq, List.length_append]

/-- Alice writes to two relays; Bob reads on one of them. -/
def sharedInbox : SubscriptionCompiler where
  get pk :=
    if pk = "alice" then some ⟨["wss://a", "wss://b"], [], []⟩
    else if pk = "bob" then some ⟨[], ["wss://b"], []⟩
    else none
  dmInboxRelays _ := none
  indexerRelays := []
  activeAccountReadRelays := []
  appRelays := []
  bootstrapContentRelays := []
  bootstrapIndexerRelays := []

/-- Alice's notes, and mentions of Bob. -/
def notesAndMentions : CompiledPlan :=
  compileWithContext sharedInbox
    [standing 1 (notesOf "alice"), standing 2 (mentions ∅ {"bob"})] ⟨0, 0⟩

theorem carriers_applied {winners : List String} (h : 0 < maxPerUser)
    (hselected : Selected (perRelayAuthors plan scoreLookup) maxConnections maxPerUser winners) :
    relay ∈ carriers (rawPerRelayAuthors
        (applySelectionWithLookup plan maxConnections maxPerUser scoreLookup)) author ↔
      relay ∈ served maxPerUser (carriers (perRelayAuthors plan scoreLookup) author) winners := by
  rw [mem_carriers, ← hselected.serves]
  constructor
  · intro hauthor
    cases hraw : (rawPerRelayAuthors
        (applySelectionWithLookup plan maxConnections maxPerUser scoreLookup)).lookup relay with
    | none =>
      rw [hraw] at hauthor
      exact absurd hauthor (not_mem_empty author)
    | some authors =>
      rw [hraw] at hauthor
      obtain ⟨left, hleft, hbypass, hsub⟩ := lookup_rawPerRelayAuthors hraw
      obtain ⟨relayPlan, hplan, hbypass'⟩ := underSelection_of_applied ⟨left, hleft, hbypass⟩
      obtain ⟨sub', hmem, hauthor'⟩ := mem_authorsOf.mp (hsub author hauthor)
      have hkept : ∀ {allowed : SortedSet String}, projectRelay allowed relayPlan = some left →
          author ∈ allowed := by
        intro allowed hprojected
        rw [(projectRelay_eq_some hprojected).2] at hmem
        obtain ⟨sub, -, hkept⟩ := List.mem_filterMap.mp hmem
        exact ((keptSub_eq_some hkept).2 author |>.mp hauthor').2
      rw [lookup_underSelection hplan hbypass' h] at hleft
      split at hleft
      · exact absurd (hkept hleft) (not_mem_empty author)
      · obtain ⟨allowed, hallowed, hprojected⟩ := Option.bind_eq_some_iff.mp hleft
        rw [hallowed]
        exact hkept hprojected
  · intro hauthor
    have hcarries := mem_carriers.mp (mem_served_carriers ((hselected.serves author relay).mp hauthor)).1
    cases hpicked : (greedySelect (perRelayAuthors plan scoreLookup) maxConnections maxPerUser).lookup
        relay with
    | none =>
      rw [hpicked] at hauthor
      exact absurd hauthor (not_mem_empty author)
    | some allowed =>
      rw [hpicked] at hauthor
      cases hlookup : (perRelayAuthors plan scoreLookup).lookup relay with
      | none =>
        rw [hlookup] at hcarries
        exact absurd hcarries (not_mem_empty author)
      | some =>
        rw [hlookup] at hcarries
        obtain ⟨relayPlan, hplan, hbypass, hsub⟩ := lookup_perRelayAuthors hlookup
        obtain ⟨sub, hmem, hauthor'⟩ := mem_authorsOf.mp (hsub author hcarries)
        obtain ⟨sub', hkept⟩ := keptSub_of_mem hauthor' hauthor
        obtain ⟨left, hprojected⟩ := projectRelay_isSome hmem hkept
        obtain ⟨hroles, hsubs⟩ := projectRelay_eq_some hprojected
        have hleft : (applySelectionWithLookup plan maxConnections maxPerUser
            scoreLookup).perRelay.lookup relay = some left := by
          have hspare : relay ∉ spare plan maxConnections maxPerUser scoreLookup := fun hspare =>
            picked_disjoint_spare h (mem_keys.mpr ⟨allowed, hpicked⟩) hspare
          rw [lookup_underSelection hplan hbypass h, if_neg hspare, hpicked]
          exact hprojected
        rw [lookup_raw, hleft, Option.bind_some, hroles, hbypass]
        refine mem_authorsOf.mpr ⟨sub', ?_, ?_⟩
        · rw [hsubs]
          exact List.mem_filterMap.mpr ⟨sub, hmem, hkept⟩
        · exact ((keptSub_eq_some hkept).2 author).mpr ⟨hauthor', hauthor⟩

/-- Some sub-shape of the interest asks the relay for the author. -/
def Carries (plan : CompiledPlan) (id : Nat) (author relay : String) : Prop :=
  ∃ sub, InPlan plan relay sub ∧ id ∈ sub.originatingInterests ∧ author ∈ sub.shape.authors

instance (id : Nat) (author : String) : DecidablePred (Carries plan id author) := fun relay =>
  decidable_of_iff (∃ sub ∈ ((plan.perRelay.lookup relay).map RelayPlan.subShapes).getD [],
      id ∈ sub.originatingInterests ∧ author ∈ sub.shape.authors) (by
    cases hplan : plan.perRelay.lookup relay <;> simp [Carries, InPlan, hplan])

/-- The relays under selection that the interest asks for the author. -/
def askedOf (plan : CompiledPlan) (id : Nat) (author : String) : Finset String :=
  {relay ∈ carriers (rawPerRelayAuthors plan) author | Carries plan id author relay}

/-- The author keeps as many relays as its cap allows, and on each all that asked for it. -/
structure AuthorsKept (plan : CompiledPlan) (maxConnections maxPerUser : Nat) : Prop where
  redundancy : ∀ author,
    (carriers (rawPerRelayAuthors (applySelection plan maxConnections maxPerUser)) author).card =
      min maxPerUser (carriers (rawPerRelayAuthors plan) author).card
  whole : ∀ author,
    ∀ relay ∈ carriers (rawPerRelayAuthors (applySelection plan maxConnections maxPerUser)) author,
      ∀ id, Carries plan id author relay →
        Carries (applySelection plan maxConnections maxPerUser) id author relay
  interest : ∀ id author relay, Carries plan id author relay →
    ¬ UnderSelection plan relay ∨
      (carriers (rawPerRelayAuthors plan) author).card < (askedOf plan id author).card + maxPerUser →
    ∃ relay', Carries (applySelection plan maxConnections maxPerUser) id author relay'

/-- A relay under selection that asks for the author carries it. -/
theorem Carries.mem_carriers {id : Nat} (h : Carries plan id author relay)
    (hunder : UnderSelection plan relay) : relay ∈ carriers (rawPerRelayAuthors plan) author := by
  obtain ⟨sub, ⟨relayPlan, hplan, hsub⟩, -, hauthor⟩ := h
  obtain ⟨relayPlan', hplan', hbypass⟩ := hunder
  obtain rfl := Option.eq_some_unique hplan hplan'
  rw [PlannerGreedy.mem_carriers, lookup_raw, hplan, Option.bind_some, hbypass]
  exact mem_authorsOf.mpr ⟨sub, hsub, hauthor⟩

theorem underSelection_of_mem_carriers (h : relay ∈ carriers (rawPerRelayAuthors plan) author) :
    UnderSelection plan relay := by
  rw [PlannerGreedy.mem_carriers] at h
  cases hraw : (rawPerRelayAuthors plan).lookup relay with
  | none =>
    rw [hraw] at h
    exact absurd h (not_mem_empty author)
  | some =>
    obtain ⟨relayPlan, hplan, hbypass, -⟩ := lookup_rawPerRelayAuthors hraw
    exact ⟨relayPlan, hplan, hbypass⟩

/-- A relay that is exempt keeps everything. -/
theorem inPlan_applied_of_not_underSelection (hsub : InPlan plan relay sub)
    (hnot : ¬ UnderSelection plan relay) :
    InPlan (applySelectionWithLookup plan maxConnections maxPerUser scoreLookup) relay sub := by
  obtain ⟨relayPlan, hplan, hmem⟩ := hsub
  have hbypass : relayBypassesSelection relayPlan.roleTags = true := by
    by_contra hno
    exact hnot ⟨relayPlan, hplan, Bool.eq_false_of_not_eq_true hno⟩
  refine ⟨relayPlan, ?_, hmem⟩
  rw [lookup_applySelection, hplan, Option.bind_some, hbypass, if_pos rfl]

/-- Where the relay keeps the author, so does each sub-shape that asked for it. -/
theorem carries_applied {id : Nat} (h : Carries plan id author relay)
    (hkept : relay ∈ carriers (rawPerRelayAuthors
      (applySelectionWithLookup plan maxConnections maxPerUser scoreLookup)) author) :
    Carries (applySelectionWithLookup plan maxConnections maxPerUser scoreLookup) id author relay := by
  obtain ⟨sub, ⟨relayPlan, hplan, hsub⟩, hid, hauthor⟩ := h
  obtain ⟨left, hleft, hbypass⟩ := underSelection_of_mem_carriers hkept
  obtain ⟨relayPlan', hplan', hbypass'⟩ := underSelection_of_applied ⟨left, hleft, hbypass⟩
  obtain rfl := Option.eq_some_unique hplan hplan'
  rw [mem_carriers, lookup_raw, hleft, Option.bind_some, hbypass] at hkept
  obtain ⟨other, hother, hauthor'⟩ := mem_authorsOf.mp hkept
  have hleft' := hleft
  rw [lookup_applySelection, hplan, Option.bind_some, hbypass'] at hleft'
  obtain ⟨allowed, -, hprojected⟩ := Option.bind_eq_some_iff.mp hleft'
  obtain ⟨-, hsubs⟩ := projectRelay_eq_some hprojected
  rw [hsubs] at hother
  obtain ⟨origin, -, hkeptOther⟩ := List.mem_filterMap.mp hother
  have hallowed := ((keptSub_eq_some hkeptOther).2 author |>.mp hauthor').2
  obtain ⟨sub', hkeptSub⟩ := keptSub_of_mem hauthor hallowed
  obtain ⟨horigin, hauthors⟩ := keptSub_eq_some hkeptSub
  refine ⟨sub', ⟨left, hleft, ?_⟩, horigin ▸ hid, (hauthors author).mpr ⟨hauthor, hallowed⟩⟩
  rw [hsubs]
  exact List.mem_filterMap.mpr ⟨sub, hsub, hkeptSub⟩

/-- If the greedy pass stops early, each author keeps as many of its relays as its cap allows, and an
interest that asks an exempt relay or enough of the others keeps the author. -/
theorem selection_keeps_authors (plan : CompiledPlan) (maxConnections maxPerUser : Nat)
    (h : 0 < maxPerUser) (hstop : (picked plan maxConnections maxPerUser none).length < maxConnections) :
    AuthorsKept plan maxConnections maxPerUser := by
  obtain ⟨winners, hselected⟩ := exists_selected (perRelayAuthors plan none) maxConnections h
  have hlength : (picked plan maxConnections maxPerUser none).length = winners.length := by
    rw [picked, keys, List.length_map, hselected.length]
  have hserved : ∀ author,
      (served maxPerUser (carriers (rawPerRelayAuthors plan) author) winners).length =
        min maxPerUser (carriers (rawPerRelayAuthors plan) author).card :=
    fun author => served_length hselected.nodup (hselected.done (hlength ▸ hstop) author)
  have hwhole : ∀ author,
      ∀ relay ∈ carriers (rawPerRelayAuthors (applySelection plan maxConnections maxPerUser)) author,
        ∀ id, Carries plan id author relay →
          Carries (applySelection plan maxConnections maxPerUser) id author relay :=
    fun author relay hkept id hcarries => carries_applied hcarries hkept
  refine ⟨fun author => ?_, hwhole, fun id author relay hcarries henough => ?_⟩
  · have hset : carriers (rawPerRelayAuthors (applySelection plan maxConnections maxPerUser)) author =
        (served maxPerUser (carriers (rawPerRelayAuthors plan) author) winners).toFinset :=
      Finset.ext fun relay => (carriers_applied h hselected).trans List.mem_toFinset.symm
    rw [hset, List.toFinset_card_of_nodup (served_nodup hselected.nodup), hserved]
  · by_cases hunder : UnderSelection plan relay
    · have hlarge := henough.resolve_left fun hnot => hnot hunder
      have hasked : 0 < (askedOf plan id author).card :=
        Finset.card_pos.mpr ⟨relay, Finset.mem_filter.mpr ⟨hcarries.mem_carriers hunder, hcarries⟩⟩
      have hpart : askedOf plan id author ⊆ carriers (rawPerRelayAuthors plan) author :=
        Finset.filter_subset _ _
      have hmany : (carriers (rawPerRelayAuthors plan) author).card < (askedOf plan id author).card +
          (served maxPerUser (carriers (rawPerRelayAuthors plan) author) winners).length := by
        rw [hserved]
        omega
      obtain ⟨kept, hkept, hserves⟩ := exists_served hpart hselected.nodup hmany
      exact ⟨kept, hwhole author kept ((carriers_applied h hselected).mpr hserves) id
        (Finset.mem_filter.mp hkept).2⟩
    · obtain ⟨sub, hsub, hid, hauthor⟩ := hcarries
      exact ⟨relay, sub, inPlan_applied_of_not_underSelection hsub hunder, hid, hauthor⟩

theorem selection_keeps_authors_two : AuthorsKept notesAndMentions 30 2 :=
  selection_keeps_authors notesAndMentions 30 2 (by decide) (by decide +kernel)

/-- Alice writes to the relay that comes last, and tags Bob, who reads on the first. -/
def lastOutbox : SubscriptionCompiler where
  get pk :=
    if pk = "alice" then some ⟨["wss://z"], [], []⟩
    else if pk = "bob" then some ⟨[], ["wss://a"], []⟩
    else none
  dmInboxRelays _ := none
  indexerRelays := []
  activeAccountReadRelays := []
  appRelays := []
  bootstrapContentRelays := []
  bootstrapIndexerRelays := []

/-- Alice's notes to Bob are enough for Alice; her other notes are not asked for any more. -/
theorem interest_loses_author : ¬ ∀ (c : SubscriptionCompiler) (interests : List LogicalInterest)
    (ctx : CompileContext) (maxConnections maxPerUser : Nat), 0 < maxPerUser →
      (picked (compileWithContext c interests ctx) maxConnections maxPerUser none).length <
        maxConnections →
      ∀ id author relay, Carries (compileWithContext c interests ctx) id author relay →
        ∃ relay', Carries (applySelection (compileWithContext c interests ctx) maxConnections maxPerUser)
          id author relay' := by
  intro hclaim
  obtain ⟨relay, hcarries⟩ := hclaim lastOutbox
    [standing 1 (notesOf "alice"), standing 2 (mentions {"alice"} {"bob"})] ⟨0, 0⟩ 30 1 (by decide)
    (by decide +kernel) 1 "alice" "wss://z" (by decide +kernel)
  obtain ⟨sub, ⟨relayPlan, hplan, hsub⟩, hid, -⟩ := hcarries
  have hnone : ∀ row ∈ (applySelection (compileWithContext lastOutbox
      [standing 1 (notesOf "alice"), standing 2 (mentions {"alice"} {"bob"})] ⟨0, 0⟩)
        30 1).perRelay.rows, ∀ sub ∈ row.2.subShapes, 1 ∉ sub.originatingInterests := by
    decide +kernel
  exact hnone (relay, relayPlan) (lookup_eq_some.mp hplan) sub hsub hid

end PlannerSurvival
