import NostrMultiPlatform.PlannerCover
import NostrMultiPlatform.PlannerOrder

/-!
# Subscription ids

The sub-id of a filter is a digest of its serialised shape, which shows neither
the lifecycle nor the routing of `p` tags. Filters of one lifecycle and routing
that merge with themselves never agree on the wire: the later one would have
joined the earlier.
-/
namespace PlannerSubIds

open Sorted PlannerShape PlannerPlan PlannerPartition PlannerMerge PlannerCompile PlannerOrder

open PlannerCover (standing)

/-- Two parts of a capped shape merge, if their kinds do. -/
theorem exists_merges {x y s : InterestShape} (lifecycle : InterestLifecycle) (hx : Joins x s)
    (hy : Joins y s) (hclassX : SameClass x s) (hclassY : SameClass y s) (hlimitX : x.limit = none)
    (hlimitY : y.limit = none) (hcapped : capped s = true)
    (hkinds : x.kinds = ∅ ∨ y.kinds = ∅ ∨ x.kinds = y.kinds) :
    ∃ t, merge x y lifecycle lifecycle = .merged t := by
  obtain ⟨-, hids, haddrs, htags⟩ := capped_iff.mp hcapped
  obtain ⟨kinds, hkinds⟩ : ∃ kinds, rule1Kinds x y = some kinds := by
    rcases hkinds with h | h | h
    · exact ⟨∅, by simp [rule1Kinds, h]⟩
    · exact ⟨∅, by simp [rule1Kinds, h]⟩
    · by_cases hempty : y.kinds = ∅
      · exact ⟨∅, by simp [rule1Kinds, hempty]⟩
      · exact ⟨y.kinds, by simp [rule1Kinds, h, hempty]⟩
  obtain ⟨tags, htags⟩ : ∃ tags, rule2Tags x y defaultValueLimit = some tags := by
    unfold rule2Tags
    rw [if_neg (not_not.mpr (hx.keys.symm.trans hy.keys))]
    refine SortedMap.traverse_isSome fun key xv hxv => ?_
    obtain ⟨yv, hyv⟩ := lookup_of_keys (hx.keys.symm.trans hy.keys) hxv
    obtain ⟨sv, hsv, hsubX⟩ := hx.tags key xv hxv
    obtain ⟨sv', hsv', hsubY⟩ := hy.tags key yv hyv
    obtain rfl : sv' = sv := Option.eq_some_unique hsv' hsv
    have hle : (xv ∪ yv).card ≤ defaultValueLimit :=
      (SortedSet.card_le_of_subset fun v hv => (SortedSet.mem_union.mp hv).elim (hsubX v)
        (hsubY v)).trans (htags key sv' hsv)
    exact ⟨xv ∪ yv, by rw [hyv, Option.bind_some, if_neg (by omega)]⟩
  obtain ⟨since, hsince⟩ : ∃ since, rule3Since x y = some since := by
    have hiff := hclassX.since.symm.trans hclassY.since
    cases hsx : x.since <;> cases hsy : y.since <;> simp_all [rule3Since]
  obtain ⟨until_, huntil⟩ : ∃ until_, rule4Until x y = some until_ := by
    have hiff := hclassX.until_.symm.trans hclassY.until_
    cases hux : x.until_ <;> cases huy : y.until_ <;> simp_all [rule4Until]
  have hidsLe : (x.eventIds ∪ y.eventIds).card ≤ defaultValueLimit :=
    (SortedSet.card_le_of_subset fun v hv => (SortedSet.mem_union.mp hv).elim (hx.eventIds v)
      (hy.eventIds v)).trans hids
  have haddrsLe : (x.addresses ∪ y.addresses).card ≤ defaultValueLimit :=
    (SortedSet.card_le_of_subset fun v hv => (SortedSet.mem_union.mp hv).elim (hx.addresses v)
      (hy.addresses v)).trans haddrs
  refine ⟨_, (merge_eq_merged (s := ⟨x.authors ∪ y.authors, kinds, tags, since, until_, none,
    x.search, x.eventIds ∪ y.eventIds, x.addresses ∪ y.addresses, x.relayPin, x.pTagRouting⟩)).mpr
    ⟨rfl, ⟨hclassX.relayPin.symm.trans hclassY.relayPin, rfl⟩,
      ⟨hclassX.search.symm.trans hclassY.search, rfl⟩,
      ⟨hclassX.routing.symm.trans hclassY.routing, rfl⟩, rfl, hkinds, htags, hsince, huntil,
      ⟨hlimitX, hlimitY, rfl⟩, ?_, ?_⟩⟩
  · rw [rule7EventIds, if_neg (by omega)]
  · rw [rule8Addresses, if_neg (by omega)]

/-- A part of a group that still decides what the group refuses. -/
structure PartOf (x : InterestShape) (g : Group) : Prop where
  joins : Joins x g.shape
  sameClass : SameClass x g.shape
  limit : g.shape.limit = none → x.limit = none

theorem PartOf.refl (g : Group) : PartOf g.shape g := ⟨Joins.refl _, SameClass.refl _, fun h => h⟩

theorem PartOf.fit {x : InterestShape} {g g' : Group} {e : Shaped} (h : PartOf x g)
    (hfit : fit e g = some g') : PartOf x g' := by
  obtain ⟨hmerges, -, -⟩ := fit_eq_some hfit
  exact ⟨h.joins.trans hmerges.joins.1, h.sameClass.trans hmerges.sameClass.1,
    fun _ => h.limit hmerges.limit.1⟩

/-- The entry that started the later group was refused by a part of the earlier one; and of two
restricted kinds the earlier group keeps its own. -/
def Refused (y : Shaped) (g h : Group) : Prop :=
  h.lifecycle = y.lifecycle ∧ PartOf y.shape h ∧ ∃ x, PartOf x g ∧
    merge x y.shape g.lifecycle y.lifecycle = .refused ∧
    (g.lifecycle = y.lifecycle → x.kinds ≠ ∅ → y.shape.kinds ≠ ∅ → g.shape.kinds = x.kinds)

/-- Within a lifecycle open kinds are sorted first. -/
theorem kinds_ne_empty_of_key_le {y e : Shaped} (hkey : y.key ≤ e.key)
    (hlife : e.lifecycle = y.lifecycle) (hy : y.shape.kinds ≠ ∅) : e.shape.kinds ≠ ∅ := by
  intro he
  have hne : y.shape.kinds.elems ≠ [] := fun h => hy (elems_injective h)
  simp only [Shaped.key, canonicalMergeKey, hlife, he] at hkey
  rcases Prod.Lex.toLex_le_toLex.mp hkey with hlt | ⟨-, hle⟩
  · exact absurd hlt (lt_irrefl _)
  · rcases Prod.Lex.toLex_le_toLex.mp hle with hlt | ⟨heq, -⟩
    · exact List.not_lt_nil _ hlt
    · exact hne heq

theorem groups_refused (shaped : List Shaped) :
    (groups (canonicalSort shaped)).Pairwise fun g h => ∃ y ∈ canonicalSort shaped, Refused y g h := by
  refine FirstFit.pack_pairwise Shaped.key (fun g e hrefused => ?_)
    (fun y e g g' h hkey hR hfit => ?_) (fun y e g h h' _ hR hfit => ?_) (canonicalSort_sorted shaped)
  · refine ⟨rfl, PartOf.refl (start e), g.shape, PartOf.refl g, ?_, fun _ _ _ => rfl⟩
    unfold fit at hrefused
    split at hrefused
    · cases hrefused
    · assumption
  · obtain ⟨hlife, hpart, x, hx, hmerge, hkinds⟩ := hR
    obtain ⟨hmerges, hlifeG, -⟩ := fit_eq_some hfit
    refine ⟨hlife, hpart, x, hx.fit hfit, hlifeG ▸ hmerge, fun hsame hxk hyk => ?_⟩
    rw [hlifeG] at hsame
    have hgk := hkinds hsame hxk hyk
    have hek : e.shape.kinds ≠ ∅ := kinds_ne_empty_of_key_le hkey
      (hmerges.lifecycle.symm.trans hsame) hyk
    have hrule := hmerges.kinds
    have hgk' : g.shape.kinds ≠ ∅ := hgk ▸ hxk
    rw [rule1Kinds, if_neg (not_or.mpr ⟨hgk', hek⟩)] at hrule
    split at hrule
    · exact (Option.some.inj hrule).symm.trans hgk
    · cases hrule
  · obtain ⟨hlife, hpart, hrest⟩ := hR
    exact ⟨(fit_eq_some hfit).2.1.trans hlife, hpart.fit hfit, hrest⟩

/-- Groups of one lifecycle and routing that merge with themselves differ on the wire. -/
theorem Refused.wireShape_ne {y : Shaped} {g h : Group} (hR : Refused y g h)
    (hcapped : capped g.shape = true) (hlife : g.lifecycle = h.lifecycle)
    (hrouting : g.shape.pTagRouting = h.shape.pTagRouting) :
    wireShape g.shape ≠ wireShape h.shape := by
  intro hwire
  obtain ⟨hlifeH, hpartY, x, hpartX, hrefused, hkinds⟩ := hR
  have hshape : g.shape = h.shape := by
    cases hg : g.shape
    cases hh : h.shape
    rw [hg, hh] at hwire hrouting
    simp only [wireShape, InterestShape.mk.injEq, and_true] at hwire
    simp only [InterestShape.mk.injEq]
    exact ⟨hwire.1, hwire.2.1, hwire.2.2.1, hwire.2.2.2.1, hwire.2.2.2.2.1, hwire.2.2.2.2.2.1,
      hwire.2.2.2.2.2.2.1, hwire.2.2.2.2.2.2.2.1, hwire.2.2.2.2.2.2.2.2.1,
      hwire.2.2.2.2.2.2.2.2.2, hrouting⟩
  have hlimit : g.shape.limit = none := (capped_iff.mp hcapped).1
  have hsame : g.lifecycle = y.lifecycle := hlife.trans hlifeH
  have hkindsXY : x.kinds = ∅ ∨ y.shape.kinds = ∅ ∨ x.kinds = y.shape.kinds := by
    by_cases hxk : x.kinds = ∅
    · exact .inl hxk
    · by_cases hyk : y.shape.kinds = ∅
      · exact .inr (.inl hyk)
      · have hgk := hkinds hsame hxk hyk
        refine .inr (.inr ?_)
        rw [← hgk, hshape]
        exact hpartY.joins.kinds.resolve_left (hshape ▸ hgk ▸ hxk)
  obtain ⟨t, ht⟩ := exists_merges y.lifecycle hpartX.joins
    (hshape ▸ hpartY.joins) hpartX.sameClass (hshape ▸ hpartY.sameClass) (hpartX.limit hlimit)
    (hpartY.limit (hshape ▸ hlimit)) hcapped hkindsXY
  rw [hsame, ht] at hrefused
  cases hrefused

/-- Groups whose kind merging respects are the groups of the entries of that kind. -/
theorem filter_groups {P : InterestShape → InterestLifecycle → Bool}
    (hP : ∀ x y s l l', Merges x y l l' s → P x l = P y l' ∧ P s l = P y l') (shaped : List Shaped) :
    (groups shaped).filter (fun g => P g.shape g.lifecycle) =
      groups (shaped.filter fun e => P e.shape e.lifecycle) :=
  FirstFit.filter_pack (p := fun e : Shaped => P e.shape e.lifecycle)
    (q := fun g : Group => P g.shape g.lifecycle) (fun _ => rfl)
    (fun e g g' h => by
      obtain ⟨hmerges, hlife, -⟩ := fit_eq_some h
      obtain ⟨hg, hg'⟩ := hP _ _ _ _ _ hmerges
      exact ⟨hg, by rw [hlife, hg']⟩) shaped

/-- Groups that do not merge with themselves are single entries. -/
theorem unmergeable_groups (shaped : List Shaped) :
    (groups shaped).filter (fun g => !capped g.shape) =
      (shaped.filter fun e => !capped e.shape).map start := by
  rw [filter_groups (P := fun x _ => !capped x) fun x y s l l' h => by
    obtain ⟨hx, hy, hs⟩ := h.capped
    rw [hx, hy, hs]
    exact ⟨rfl, rfl⟩]
  refine FirstFit.pack_of_refused fun e he e' _ => ?_
  by_contra hne
  obtain ⟨w, hw⟩ := Option.ne_none_iff_exists'.mp hne
  have hnot := (List.mem_filter.mp he).2
  simp only [(fit_eq_some hw).1.capped.2.1, Bool.not_true] at hnot
  cases hnot

/-- The entries of one lifecycle and routing that merge with themselves. -/
def inClass (lifecycle : InterestLifecycle) (routing : PTagRouting) (x : InterestShape)
    (l : InterestLifecycle) : Bool :=
  l = lifecycle && x.pTagRouting = routing && capped x

/-- The filters these entries fold to. -/
def filtersOfClass (shaped : List Shaped) (lifecycle : InterestLifecycle) (routing : PTagRouting) :
    List InterestShape :=
  (groups ((canonicalSort shaped).filter fun e =>
    inClass lifecycle routing e.shape e.lifecycle)).map Group.shape

theorem mem_filtersOfClass {shaped : List Shaped} {lifecycle : InterestLifecycle}
    {routing : PTagRouting} {x : InterestShape} : x ∈ filtersOfClass shaped lifecycle routing ↔
      ∃ g ∈ groups (canonicalSort shaped), g.shape = x ∧ g.lifecycle = lifecycle ∧
        x.pTagRouting = routing ∧ capped x = true := by
  rw [filtersOfClass, ← filter_groups (P := inClass lifecycle routing) fun x y s l l' h => by
    obtain ⟨hx, hy, hs⟩ := h.capped
    rw [inClass, inClass, inClass, hx, hy, hs, h.lifecycle, h.routing.2, h.routing.1]
    exact ⟨rfl, rfl⟩]
  simp only [List.mem_map, List.mem_filter, inClass, Bool.and_eq_true, decide_eq_true_eq]
  constructor
  · rintro ⟨g, ⟨hg, ⟨hl, hr⟩, hc⟩, rfl⟩
    exact ⟨g, hg, rfl, hl, hr, hc⟩
  · rintro ⟨g, hg, rfl, hl, hr, hc⟩
    exact ⟨g, ⟨hg, ⟨hl, hr⟩, hc⟩, rfl⟩

theorem pairwise_filter_iff {α : Type} {R : α → α → Prop} {q : α → Bool}
    (hR : ∀ a b, q a ≠ q b → R a b) (l : List α) :
    l.Pairwise R ↔ (l.filter q).Pairwise R ∧ (l.filter fun a => !q a).Pairwise R := by
  induction l with
  | nil => simp
  | cons a rest ih =>
    have hsame : (∀ b ∈ rest, R a b) ↔ ∀ b ∈ rest, q b = q a → R a b :=
      ⟨fun h b hb _ => h b hb, fun h b hb => by
        by_cases hq : q b = q a
        · exact h b hb hq
        · exact hR a b (Ne.symm hq)⟩
    rw [List.pairwise_cons, ih, hsame]
    cases hq : q a with
    | true => simp [hq, and_assoc]
    | false =>
      simp only [hq, Bool.false_eq_true, not_false_eq_true, List.filter_cons_of_neg, Bool.not_false,
        List.filter_cons_of_pos, List.pairwise_cons, List.mem_filter, Bool.not_eq_true']
      constructor
      · rintro ⟨ha, hf, hn⟩
        exact ⟨hf, fun b hb => ha b hb.1 hb.2, hn⟩
      · rintro ⟨hf, ha, hn⟩
        exact ⟨fun b hb hqb => ha b ⟨hb, hqb⟩, hf, hn⟩

/-- No two unmergeable entries of a relay have one filter, and entries of different lifecycle or
`p`-tag routing never fold to one filter. -/
structure WireApart (shaped : List Shaped) : Prop where
  unmergeable : (shaped.filter fun e => !capped e.shape).Pairwise fun a b =>
    wireShape a.shape ≠ wireShape b.shape
  classes : ∀ lifecycle routing lifecycle' routing', (lifecycle, routing) ≠ (lifecycle', routing') →
    ∀ x ∈ filtersOfClass shaped lifecycle routing, ∀ y ∈ filtersOfClass shaped lifecycle' routing',
      wireShape x ≠ wireShape y

/-- The filters of a relay differ on the wire exactly when its entries are apart. -/
theorem wireShapes_pairwise_iff (shaped : List Shaped) :
    ((groups (canonicalSort shaped)).Pairwise fun g h => wireShape g.shape ≠ wireShape h.shape) ↔
      WireApart shaped := by
  have hsymm : Std.Symm fun g h : Group => wireShape g.shape ≠ wireShape h.shape :=
    ⟨fun _ _ h => h.symm⟩
  have hcappedWire : ∀ x : InterestShape, capped (wireShape x) = capped x := fun _ => rfl
  rw [pairwise_filter_iff (R := fun g h : Group => wireShape g.shape ≠ wireShape h.shape)
    (q := fun g : Group => capped g.shape) fun g h hne heq => hne (by
      rw [← hcappedWire g.shape, heq, hcappedWire])]
  have hsingle : (((groups (canonicalSort shaped)).filter fun g => !capped g.shape).Pairwise
      fun g h => wireShape g.shape ≠ wireShape h.shape) ↔
      (shaped.filter fun e => !capped e.shape).Pairwise fun a b =>
        wireShape a.shape ≠ wireShape b.shape := by
    rw [unmergeable_groups, List.pairwise_map]
    exact ((List.perm_insertionSort _ shaped).filter _).pairwise_iff fun h => h.symm
  rw [hsingle]
  constructor
  · rintro ⟨hcapped, hunmergeable⟩
    refine ⟨hunmergeable, fun l r l' r' hne x hx y hy => ?_⟩
    obtain ⟨g, hg, rfl, rfl, rfl, hgc⟩ := mem_filtersOfClass.mp hx
    obtain ⟨h, hh, rfl, rfl, rfl, hhc⟩ := mem_filtersOfClass.mp hy
    refine hcapped.forall (List.mem_filter.mpr ⟨hg, hgc⟩) (List.mem_filter.mpr ⟨hh, hhc⟩) ?_
    rintro rfl
    exact hne rfl
  · intro hapart
    refine ⟨?_, hapart.unmergeable⟩
    refine ((groups_refused shaped).filter _).imp_of_mem fun {g h} hg hh ⟨y, _, hR⟩ => ?_
    obtain ⟨hg, hgc⟩ := List.mem_filter.mp hg
    obtain ⟨hh, hhc⟩ := List.mem_filter.mp hh
    by_cases hclass : (g.lifecycle, g.shape.pTagRouting) = (h.lifecycle, h.shape.pTagRouting)
    · simp only [Prod.mk.injEq] at hclass
      exact hR.wireShape_ne hgc hclass.1 hclass.2
    · exact hapart.classes _ _ _ _ hclass g.shape
        (mem_filtersOfClass.mpr ⟨g, hg, rfl, rfl, rfl, hgc⟩) h.shape
        (mem_filtersOfClass.mpr ⟨h, hh, rfl, rfl, rfl, hhc⟩)

/-- No two filters of a relay have one hash. -/
def HashesUnique (plan : CompiledPlan) : Prop :=
  ∀ relay p, plan.perRelay.lookup relay = some p →
    (p.subShapes.map SubShape.canonicalFilterHash).Nodup

/-- Filters of a relay with one hash are serialised alike. -/
def NoCollision (plan : CompiledPlan) : Prop :=
  ∀ relay p, plan.perRelay.lookup relay = some p → ∀ a ∈ p.subShapes, ∀ b ∈ p.subShapes,
    a.canonicalFilterHash = b.canonicalFilterHash → wireShape a.shape = wireShape b.shape

/-- Hash collisions aside, the sub-ids of a plan are unique on every relay exactly when no
unmergeable filter is asked for twice there and entries of different lifecycle or `p`-tag routing
do not fold to one filter. -/
theorem hashes_unique_iff (c : SubscriptionCompiler) (interests : List LogicalInterest)
    (ctx : CompileContext) (hcollision : NoCollision (compileWithContext c interests ctx)) :
    HashesUnique (compileWithContext c interests ctx) ↔
      ∀ relay, WireApart ((entriesAt c interests relay).map shapedOf) := by
  have hrelay : ∀ relay p, (compileWithContext c interests ctx).perRelay.lookup relay = some p →
      ((p.subShapes.map SubShape.canonicalFilterHash).Nodup ↔
        WireApart ((entriesAt c interests relay).map shapedOf)) := by
    intro relay p hp
    have hcollides := hcollision relay p hp
    rw [lookup_perRelay] at hp
    split at hp
    · cases hp
    obtain rfl := Option.some.inj hp
    rw [← wireShapes_pairwise_iff, List.nodup_iff_pairwise_ne, List.pairwise_map]
    simp only [relayPlan, List.pairwise_map] at hcollides ⊢
    constructor
    · intro h
      refine h.imp fun hne heq => hne ?_
      simp only [subShapeOf]
      rw [← canonicalFilterHash_wireShape, heq, canonicalFilterHash_wireShape]
    · intro h
      refine h.imp_of_mem fun {a b} ha hb hne heq => hne ?_
      exact hcollides _ (List.mem_map_of_mem ha) _ (List.mem_map_of_mem hb) heq
  constructor
  · intro hunique relay
    by_cases hnil : entriesAt c interests relay = []
    · rw [hnil]
      exact (wireShapes_pairwise_iff _).mp .nil
    · have hlookup : (compileWithContext c interests ctx).perRelay.lookup relay =
          some (relayPlan relay (entriesAt c interests relay)) := by
        rw [lookup_perRelay, if_neg hnil]
      exact (hrelay relay _ hlookup).mp (hunique relay _ hlookup)
  · intro hapart relay p hp
    exact (hrelay relay p hp).mpr (hapart relay)

/-- Reactions, from anyone. -/
def allReactions : InterestShape := { InterestShape.default with kinds := {7} }

/-- A plan whose entries all go to one relay is known from that relay. -/
theorem forall_plans {c : SubscriptionCompiler} {interests : List LogicalInterest}
    {ctx : CompileContext} {only : String}
    (honly : ∀ row ∈ interests.flatMap fun interest =>
      (partitionInterest c (activePinnedRelays interests) interest).entries, row.1 = only)
    {P : List SubShape → Prop}
    (hP : P (relayPlan only (entriesAt c interests only)).subShapes) :
    ∀ relay p, (compileWithContext c interests ctx).perRelay.lookup relay = some p →
      P p.subShapes := by
  intro relay p hp
  rw [lookup_perRelay] at hp
  split at hp
  · cases hp
  next hsome =>
    obtain rfl := Option.some.inj hp
    by_cases h : relay = only
    · rw [h]
      exact hP
    · exact absurd (entriesAt_eq_nil fun row hrow heq =>
        h (heq.symm.trans (honly row hrow))) hsome

/-- A client with one read relay. -/
def oneRelay : SubscriptionCompiler :=
  ⟨fun _ => none, fun _ => none, [], ["wss://read"], [], [], []⟩

/-- Notes and reactions have two sub-ids. -/
theorem hashes_unique_two_kinds :
    HashesUnique (compileWithContext oneRelay
        [standing 1 allNotes, standing 2 allReactions] ⟨0, 0⟩) ∧
      ∀ relay, WireApart
        ((entriesAt oneRelay [standing 1 allNotes, standing 2 allReactions] relay).map shapedOf) := by
  have hread : ∀ row ∈ [standing 1 allNotes, standing 2 allReactions].flatMap fun interest =>
      (partitionInterest oneRelay (activePinnedRelays [standing 1 allNotes,
        standing 2 allReactions]) interest).entries, row.1 = "wss://read" := by
    decide +kernel
  have hunique : HashesUnique (compileWithContext oneRelay
      [standing 1 allNotes, standing 2 allReactions] ⟨0, 0⟩) :=
    forall_plans hread (P := fun subs => (subs.map SubShape.canonicalFilterHash).Nodup)
      (by decide +kernel)
  have hcollision : NoCollision (compileWithContext oneRelay
      [standing 1 allNotes, standing 2 allReactions] ⟨0, 0⟩) :=
    forall_plans hread (P := fun subs => ∀ a ∈ subs, ∀ b ∈ subs,
      a.canonicalFilterHash = b.canonicalFilterHash → wireShape a.shape = wireShape b.shape)
      (by decide +kernel)
  exact ⟨hunique, (hashes_unique_iff oneRelay _ ⟨0, 0⟩ hcollision).mp hunique⟩

/-- A standing and a one-shot interest in the same notes get one sub-id for two filters. -/
theorem lifecycles_share_hash : ¬ ∀ (c : SubscriptionCompiler) (interests : List LogicalInterest)
    (ctx : CompileContext), NoCollision (compileWithContext c interests ctx) →
      HashesUnique (compileWithContext c interests ctx) := by
  intro hclaim
  have hread : ∀ row ∈ [standing 1 allNotes,
      { standing 2 allNotes with lifecycle := .oneShot }].flatMap fun interest =>
      (partitionInterest oneRelay (activePinnedRelays [standing 1 allNotes,
        { standing 2 allNotes with lifecycle := .oneShot }]) interest).entries,
      row.1 = "wss://read" := by
    decide +kernel
  have hunique := hclaim oneRelay
    [standing 1 allNotes, { standing 2 allNotes with lifecycle := .oneShot }] ⟨0, 0⟩
    (forall_plans hread (P := fun subs => ∀ a ∈ subs, ∀ b ∈ subs,
      a.canonicalFilterHash = b.canonicalFilterHash → wireShape a.shape = wireShape b.shape)
      (by decide +kernel))
  have hsome : ((compileWithContext oneRelay [standing 1 allNotes,
      { standing 2 allNotes with lifecycle := .oneShot }] ⟨0, 0⟩).perRelay.lookup
        "wss://read").isSome = true := by
    decide +kernel
  obtain ⟨p, hp⟩ := Option.isSome_iff_exists.mp hsome
  have hhashes : ¬ (p.subShapes.map SubShape.canonicalFilterHash).Nodup :=
    forall_plans hread (P := fun subs =>
      ¬ (subs.map SubShape.canonicalFilterHash).Nodup) (by decide +kernel) _ p hp
  exact hhashes (hunique _ p hp)

end PlannerSubIds
