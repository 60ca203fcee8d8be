import NostrMultiPlatform.PlannerCompile

/-!
# Order of the interests

Entries are sorted by all that decides how they merge, save the search, and
different searches never meet. So the filters of a plan, with the sets of
interests behind them, depend only on which interests there are. The stranded
pubkeys do not: a rescue undoes only what came before it.
-/
namespace PlannerOrder

open Sorted PlannerShape PlannerPlan PlannerPartition PlannerMerge PlannerCompile SortedSet FirstFit

theorem elems_injective {α : Type} [LinearOrder α] {s t : SortedSet α} (h : s.elems = t.elems) :
    s = t := by
  cases s
  cases t
  simpa using h

theorem lifecycleOrd_injective : Function.Injective lifecycleOrd := by
  intro a b h
  cases a <;> cases b <;> first | rfl | cases h

theorem planHashTag_injective : Function.Injective PTagRouting.planHashTag := by
  intro a b h
  cases a <;> cases b <;> first | rfl | cases h

theorem tagRows_injective {s t : SortedMap String (SortedSet String)}
    (h : (s.rows.map fun row => toLex (row.1, row.2.elems)) =
      t.rows.map fun row => toLex (row.1, row.2.elems)) : s = t := by
  have hrows : s.rows = t.rows := by
    refine List.map_injective_iff.mpr (fun row row' heq => ?_) h
    simp only [toLex_inj, Prod.mk.injEq] at heq
    exact Prod.ext heq.1 (elems_injective heq.2)
  exact SortedMap.ext fun k => by rw [SortedMap.lookup, SortedMap.lookup, hrows]

/-- The canonical key tells apart all but searches. -/
theorem key_eq_iff {x y : InterestShape} {lx ly : InterestLifecycle} :
    canonicalMergeKey x lx = canonicalMergeKey y ly ↔ lx = ly ∧ x = { y with search := x.search } := by
  constructor
  · intro h
    cases x
    cases y
    obtain ⟨hlife, h⟩ := Prod.mk.inj (toLex_inj.mp h)
    obtain ⟨hkinds, h⟩ := Prod.mk.inj (toLex_inj.mp h)
    obtain ⟨hsince, h⟩ := Prod.mk.inj (toLex_inj.mp h)
    obtain ⟨huntil, h⟩ := Prod.mk.inj (toLex_inj.mp h)
    obtain ⟨hlimit, h⟩ := Prod.mk.inj (toLex_inj.mp h)
    obtain ⟨hauthors, h⟩ := Prod.mk.inj (toLex_inj.mp h)
    obtain ⟨htags, h⟩ := Prod.mk.inj (toLex_inj.mp h)
    obtain ⟨hids, h⟩ := Prod.mk.inj (toLex_inj.mp h)
    obtain ⟨haddrs, h⟩ := Prod.mk.inj (toLex_inj.mp h)
    obtain ⟨hpin, hrouting⟩ := Prod.mk.inj (toLex_inj.mp h)
    simp only [InterestShape.mk.injEq, true_and]
    exact ⟨lifecycleOrd_injective hlife, elems_injective hauthors, elems_injective hkinds,
      tagRows_injective htags, hsince, huntil, hlimit, elems_injective hids, elems_injective haddrs,
      hpin, planHashTag_injective hrouting⟩
  · rintro ⟨rfl, h⟩
    rw [h]
    rfl

theorem key_eq {e f : Shaped} (h : e.key = f.key) (hsearch : e.shape.search = f.shape.search) :
    e.lifecycle = f.lifecycle ∧ e.shape = f.shape := by
  obtain ⟨hlife, hshape⟩ := key_eq_iff.mp h
  rw [hsearch] at hshape
  exact ⟨hlife, hshape⟩

/-- A group as a filter with the set of interests behind it. -/
def view (g : Group) : InterestShape × InterestLifecycle × SortedSet Nat :=
  (g.shape, g.lifecycle, ofList g.ids)

def startView (e : Shaped) : InterestShape × InterestLifecycle × SortedSet Nat :=
  (e.shape, e.lifecycle, {e.interestId})

def fitView (e : Shaped) (v : InterestShape × InterestLifecycle × SortedSet Nat) :
    Option (InterestShape × InterestLifecycle × SortedSet Nat) :=
  match merge v.1 e.shape v.2.1 e.lifecycle with
  | .merged shape => some (shape, v.2.1, insert e.interestId v.2.2)
  | .refused => none

variable {l l' interests : List LogicalInterest} {c : SubscriptionCompiler} {pubkey : String}
  (shaped : List Shaped)

theorem groups_view : (groups shaped).map view = pack startView fitView shaped := by
  refine pack_map _ (fun e => ?_) (fun e g => ?_) shaped
  · simp only [view, start, startView]
    refine congrArg _ (congrArg _ (ext fun a => by simp))
  · simp only [fit, view, fitView]
    cases merge g.shape e.shape g.lifecycle e.lifecycle with
    | refused => rfl
    | merged =>
      simp only [Option.map_some]
      refine congrArg some (congrArg _ (congrArg _ (ext fun a => ?_)))
      by_cases hid : e.interestId ∈ g.ids
      · simp only [if_pos hid, mem_insert, mem_ofList]
        exact ⟨.inr, fun h => h.elim (fun heq => heq ▸ hid) fun ha => ha⟩
      · simp only [if_neg hid, mem_insert, mem_ofList, List.mem_append,
          List.mem_singleton]
        exact or_comm

theorem fitView_eq_some {e : Shaped} {v w : InterestShape × InterestLifecycle × SortedSet Nat} :
    fitView e v = some w ↔ Merges v.1 e.shape v.2.1 e.lifecycle w.1 ∧ w.2.1 = v.2.1 ∧
      w.2.2 = insert e.interestId v.2.2 := by
  rw [← merge_eq_merged]
  unfold fitView
  cases hmerge : merge v.1 e.shape v.2.1 e.lifecycle with
  | refused => simp
  | merged =>
    obtain ⟨s, l, ids⟩ := w
    simp [eq_comm]

theorem insert_comm (a b : Nat) (s : SortedSet Nat) : insert a (insert b s) = insert b (insert a s) :=
  ext fun c => by
    simp only [mem_insert]
    exact or_left_comm

/-- Entries of one filter that merges with itself are alike. -/
theorem alike_of_same {e f : Shaped} (hlife : e.lifecycle = f.lifecycle) (hshape : e.shape = f.shape)
    (hcapped : capped e.shape = true) : FirstFit.Alike startView fitView e f := by
  have hlimit : e.shape.limit = none := (capped_iff.mp hcapped).1
  have habsorb : ∀ {v w : InterestShape × InterestLifecycle × SortedSet Nat} {e' f' : Shaped},
      e'.shape = e.shape → f'.shape = e.shape → e'.lifecycle = f'.lifecycle →
      fitView e' v = some w → fitView f' w = some (w.1, w.2.1, insert f'.interestId w.2.2) := by
    intro v w e' f' he' hf' hlife' h
    obtain ⟨hmerges, hlifeW, -⟩ := fitView_eq_some.mp h
    refine fitView_eq_some.mpr ⟨?_, rfl, rfl⟩
    rw [hf', ← he', hlifeW, hmerges.lifecycle, hlife']
    exact merges_absorb hmerges.joins.2 hmerges.sameClass.2 hmerges.limit.2.1 hmerges.capped.2.2
  have hself : ∀ {e' f' : Shaped}, e'.shape = e.shape → f'.shape = e.shape →
      e'.lifecycle = f'.lifecycle → fitView f' (startView e') =
        some (e.shape, e'.lifecycle, insert f'.interestId {e'.interestId}) := by
    intro e' f' he' hf' hlife'
    refine fitView_eq_some.mpr ⟨?_, rfl, rfl⟩
    simp only [startView, he', hf', hlife']
    exact merges_absorb (Joins.refl _) (SameClass.refl _) hlimit hcapped
  constructor
  · intro v
    unfold fitView
    rw [hlife, hshape]
    cases merge v.1 f.shape v.2.1 f.lifecycle <;> simp
  · intro v ve vf he hf
    refine ⟨_, habsorb rfl hshape.symm hlife he, ?_⟩
    rw [habsorb hshape.symm rfl hlife.symm hf]
    obtain ⟨hmergesE, hlifeE, hidsE⟩ := fitView_eq_some.mp he
    obtain ⟨hmergesF, hlifeF, hidsF⟩ := fitView_eq_some.mp hf
    have hsame : ve.1 = vf.1 := by
      have hE := merge_eq_merged.mpr hmergesE
      have hF := merge_eq_merged.mpr hmergesF
      rw [hshape, hlife, hF] at hE
      exact (MergeOutcome.merged.inj hE).symm
    rw [hsame, hlifeE, hlifeF, hidsE, hidsF, insert_comm]
  · refine ⟨_, hself rfl hshape.symm hlife, ?_⟩
    rw [hself hshape.symm rfl hlife.symm, hlife]
    refine congrArg some (congrArg _ (congrArg _ (ext fun a => ?_)))
    simp [or_comm]

theorem canonicalSort_sorted : (canonicalSort shaped).Pairwise fun a b => a.key ≤ b.key := by
  have : Std.Total fun a b : Shaped => a.key ≤ b.key := ⟨fun a b => le_total a.key b.key⟩
  have : IsTrans Shaped fun a b => a.key ≤ b.key := ⟨fun _ _ _ hab hbc => le_trans hab hbc⟩
  exact List.pairwise_insertionSort _ shaped

/-- The shape merges with itself, and has the search. -/
def mergeable (search : Option String) (x : InterestShape) : Bool :=
  x.search = search && capped x

theorem mergeable_iff {search : Option String} {x : InterestShape} :
    mergeable search x = true ↔ x.search = search ∧ capped x = true := by
  simp [mergeable]

/-- Filters that merge at all are packed apart from other searches. -/
theorem filter_mergeable (search : Option String) (shaped : List Shaped) :
    (pack startView fitView shaped).filter (fun w => mergeable search w.1) =
      pack startView fitView (shaped.filter fun e => mergeable search e.shape) := by
  refine filter_pack (p := fun e : Shaped => mergeable search e.shape)
    (q := fun w : InterestShape × InterestLifecycle × SortedSet Nat => mergeable search w.1)
    (fun _ => rfl) (fun e w w' h => ?_) shaped
  obtain ⟨hmerges, -⟩ := fitView_eq_some.mp h
  obtain ⟨hw, he, hw'⟩ := hmerges.capped
  obtain ⟨hclassW, hclassE⟩ := hmerges.sameClass
  simp only [mergeable, hw, he, hw', hclassE.search, ← hclassW.search, and_self]

/-- Filters that do not merge with themselves are single entries. -/
theorem filter_unmergeable :
    (pack startView fitView shaped).filter (fun w => !capped w.1) =
      (shaped.filter fun e => !capped e.shape).map startView := by
  rw [filter_pack (p := fun e : Shaped => !capped e.shape)
    (q := fun w : InterestShape × InterestLifecycle × SortedSet Nat => !capped w.1)
    (fun _ => rfl) (fun e w w' h => ?_)]
  · refine pack_of_refused fun e he e' _ => ?_
    by_contra hne
    obtain ⟨w, hw⟩ := Option.ne_none_iff_exists'.mp hne
    have hcap := (fitView_eq_some.mp hw).1.capped.2.1
    have hnot := (List.mem_filter.mp he).2
    simp only [hcap, Bool.not_true] at hnot
    cases hnot
  · obtain ⟨hw, he, hw'⟩ := (fitView_eq_some.mp h).1.capped
    simp only [hw, he, hw', and_self]

/-- The filters of a relay depend on its entries only as a collection. -/
theorem mem_views_of_perm {shaped shaped' : List Shaped} (hperm : shaped.Perm shaped')
    {v : InterestShape × InterestLifecycle × SortedSet Nat}
    (hv : v ∈ (groups (canonicalSort shaped)).map view) :
    v ∈ (groups (canonicalSort shaped')).map view := by
  have hsorted : (canonicalSort shaped).Perm (canonicalSort shaped') :=
    ((List.perm_insertionSort _ shaped).trans hperm).trans (List.perm_insertionSort _ shaped').symm
  rw [groups_view] at hv ⊢
  cases hcapped : capped v.1 with
  | true =>
    have hmergeable : mergeable v.1.search v.1 = true := mergeable_iff.mpr ⟨rfl, hcapped⟩
    have hmem := List.mem_filter_of_mem (p := fun w : InterestShape × InterestLifecycle ×
      SortedSet Nat => mergeable v.1.search w.1) hv hmergeable
    have hpack := pack_eq_of_sorted_perm startView fitView Shaped.key
      (hsorted.filter fun e => mergeable v.1.search e.shape)
      ((canonicalSort_sorted shaped).filter _) ((canonicalSort_sorted shaped').filter _)
      fun a ha b hb hkey => by
        obtain ⟨hsearchA, hcappedA⟩ := mergeable_iff.mp (List.mem_filter.mp ha).2
        obtain ⟨hsearchB, -⟩ := mergeable_iff.mp (List.mem_filter.mp hb).2
        obtain ⟨hlife, hshape⟩ := key_eq hkey (hsearchA.trans hsearchB.symm)
        exact alike_of_same hlife hshape hcappedA
    rw [filter_mergeable, hpack, ← filter_mergeable] at hmem
    exact List.mem_of_mem_filter hmem
  | false =>
    have hmem := List.mem_filter_of_mem (p := fun w : InterestShape × InterestLifecycle ×
      SortedSet Nat => !capped w.1) hv (by simp [hcapped])
    rw [filter_unmergeable] at hmem
    have hmem' := ((hsorted.filter fun e => !capped e.shape).map startView).subset hmem
    rw [← filter_unmergeable] at hmem'
    exact List.mem_of_mem_filter hmem'

/-- The filters of a relay with the sets of interests behind them. -/
def filtersOf (plan : RelayPlan) : List (InterestShape × SortedSet Nat) :=
  plan.subShapes.map fun sub => (sub.shape, ofList sub.originatingInterests)

/-- Two plans agree on all but the order of filters, of interest ids and of attributions. -/
structure SamePlan (p q : CompiledPlan) : Prop where
  planId : p.planId = q.planId
  relays : ∀ relay, (p.perRelay.lookup relay).isSome = (q.perRelay.lookup relay).isSome
  roleTags : ∀ relay a b, p.perRelay.lookup relay = some a → q.perRelay.lookup relay = some b →
    a.roleTags = b.roleTags
  filters : ∀ relay a b, p.perRelay.lookup relay = some a → q.perRelay.lookup relay = some b →
    ∀ v, v ∈ filtersOf a ↔ v ∈ filtersOf b
  unroutable : p.unroutableAuthors = q.unroutableAuthors

theorem ofList_congr {α : Type} [LinearOrder α] {xs ys : List α} (h : ∀ a, a ∈ xs ↔ a ∈ ys) :
    ofList xs = ofList ys :=
  ext fun a => by rw [mem_ofList, mem_ofList, h]

theorem activePinnedRelays_perm (h : l.Perm l') : activePinnedRelays l = activePinnedRelays l' :=
  ofList_congr fun _ => (h.filterMap _).mem_iff

theorem entriesAt_perm (c : SubscriptionCompiler) (h : l.Perm l') (relay : String) :
    (entriesAt c l relay).Perm (entriesAt c l' relay) := by
  rw [entriesAt, entriesAt, activePinnedRelays_perm h]
  exact ((h.flatMap_right _).filter _).map _

/-- Interests sorted by distinct ids come in one order. -/
theorem sortById_perm (h : l.Perm l') (hids : (l.map LogicalInterest.id).Nodup) :
    l.insertionSort (fun a b => a.id ≤ b.id) = l'.insertionSort (fun a b => a.id ≤ b.id) := by
  have : Std.Total fun a b : LogicalInterest => a.id ≤ b.id := ⟨fun a b => Nat.le_total a.id b.id⟩
  have : IsTrans LogicalInterest fun a b => a.id ≤ b.id := ⟨fun _ _ _ hab hbc => Nat.le_trans hab hbc⟩
  have hperm : (l.insertionSort fun a b => a.id ≤ b.id).Perm
      (l'.insertionSort fun a b => a.id ≤ b.id) :=
    ((List.perm_insertionSort _ l).trans h).trans (List.perm_insertionSort _ l').symm
  refine hperm.eq_of_pairwise (fun a b ha hb hab hba => ?_) (List.pairwise_insertionSort _ l)
    (List.pairwise_insertionSort _ l')
  exact List.inj_on_of_nodup_map hids ((List.perm_insertionSort _ l).subset ha)
    (h.symm.subset ((List.perm_insertionSort _ l').subset hb)) (Nat.le_antisymm hab hba)

theorem computePlanId_perm (h : l.Perm l') (hids : (l.map LogicalInterest.id).Nodup)
    (c : SubscriptionCompiler) (ctx : CompileContext) (version : Nat) :
    computePlanId l c ctx version = computePlanId l' c ctx version := by
  have hreferenced : referencedPubkeys l = referencedPubkeys l' :=
    ofList_congr fun _ => (h.flatMap_right _).mem_iff
  have hdm : dmRelayReferencedPubkeys l = dmRelayReferencedPubkeys l' :=
    ofList_congr fun _ => ((h.filter _).flatMap_right _).mem_iff
  rw [computePlanId, computePlanId, sortById_perm h hids, hreferenced, hdm]

theorem mem_foldl_sources {shaped : List Shaped} {tags : SortedSet RoutingSource}
    {source : RoutingSource} : source ∈ shaped.foldl (fun tags e => tags ∪ e.sources) tags ↔
      source ∈ tags ∨ ∃ e ∈ shaped, source ∈ e.sources := by
  induction shaped generalizing tags with
  | nil => simp
  | cons _ _ ih =>
    rw [List.foldl_cons, ih, mem_union, or_assoc]
    simp only [List.mem_cons, exists_eq_or_imp]

theorem relayPlan_perm {relay : String} {entries entries' : List RelayEntry}
    (h : entries.Perm entries') :
    (relayPlan relay entries).roleTags = (relayPlan relay entries').roleTags ∧
      ∀ v, v ∈ filtersOf (relayPlan relay entries) → v ∈ filtersOf (relayPlan relay entries') := by
  have hshaped := h.map shapedOf
  constructor
  · refine ext fun source => ?_
    simp only [relayPlan, mem_foldl_sources, canonicalSort,
      (List.perm_insertionSort _ (entries.map shapedOf)).mem_iff,
      (List.perm_insertionSort _ (entries'.map shapedOf)).mem_iff, hshaped.mem_iff]
  · intro v hv
    simp only [filtersOf, relayPlan, List.map_map, List.mem_map, Function.comp] at hv ⊢
    obtain ⟨g, hg, rfl⟩ := hv
    obtain ⟨g', hg', hview⟩ := List.mem_map.mp (mem_views_of_perm hshaped
      (List.mem_map_of_mem (f := view) hg))
    simp only [view, Prod.mk.injEq] at hview
    exact ⟨g', hg', by simp only [subShapeOf, hview.1, hview.2.2]⟩

/-- The interest names the pubkey, finds no landing for it, and has no valid hint. -/
def Strands (c : SubscriptionCompiler) (activePinned : SortedSet String) (interest : LogicalInterest)
    (pubkey : String) : Prop :=
  interest.shape.relayPin = none ∧ validHints interest = [] ∧
    ((pubkey ∈ interest.shape.authors ∧ authorLandings c activePinned interest pubkey = []) ∨
      (pubkey ∈ coordPubkeys interest ∧ outboxLanes c pubkey = []))

/-- The interest names the pubkey and has a valid hint. -/
def Rescues (interest : LogicalInterest) (pubkey : String) : Prop :=
  interest.shape.relayPin = none ∧ validHints interest ≠ [] ∧
    (pubkey ∈ interest.shape.authors ∨ pubkey ∈ coordPubkeys interest)

theorem Strands.not_rescues {activePinned : SortedSet String} {interest : LogicalInterest}
    (h : Strands c activePinned interest pubkey) :
    ¬ Rescues interest pubkey := fun hr => hr.2.1 h.2.1

/-- What partitioning strands and rescues. -/
theorem mem_stranded_rescued (c : SubscriptionCompiler) (activePinned : SortedSet String)
    (interest : LogicalInterest) (pubkey : String) :
    (pubkey ∈ (partitionInterest c activePinned interest).rescued ↔ Rescues interest pubkey) ∧
    ((pubkey ∈ (partitionInterest c activePinned interest).stranded ∧ ¬ Rescues interest pubkey) ↔
      Strands c activePinned interest pubkey) := by
  have hnames : interest.shape.authors = ∅ → interest.shape.addresses = ∅ →
      pubkey ∉ interest.shape.authors ∧ pubkey ∉ coordPubkeys interest := by
    intro hauthors haddrs
    rw [hauthors, coordPubkeys, haddrs]
    exact ⟨not_mem_empty _, List.not_mem_nil⟩
  unfold partitionInterest
  cases hpin : interest.shape.relayPin with
  | some => simp [routeRelayPinned, Rescues, Strands, hpin]
  | none =>
    dsimp only
    split
    next hauthors =>
      simp only [routeAuthors, Rescues, Strands, hpin, true_and, List.mem_append, List.mem_filter,
        List.isEmpty_iff, mem_elems]
      by_cases hhints : validHints interest = []
      · simp [hhints]
      · simp only [hhints, if_false, List.mem_append, mem_elems, ne_eq, not_false_eq_true,
          true_and, false_and, iff_false, not_and, not_not]
        exact fun h => h.imp And.left And.left
    next hauthors =>
      rw [not_not] at hauthors
      split
      next haddrs =>
        simp only [routeAddresses, Rescues, Strands, hpin, true_and, List.mem_filter,
          List.isEmpty_iff, hauthors, not_mem_empty, false_and, false_or]
        by_cases hhints : validHints interest = []
        · simp [hhints]
        · simp only [hhints, if_false, ne_eq, not_false_eq_true, true_and, false_and, iff_false,
            not_and, not_not]
          exact And.left
      next haddrs =>
        rw [not_not] at haddrs
        obtain ⟨hnoAuthor, hnoCoord⟩ := hnames hauthors haddrs
        have hnone : ¬ Rescues interest pubkey ∧ ¬ Strands c activePinned interest pubkey :=
          ⟨fun h => h.2.2.elim hnoAuthor hnoCoord,
            fun h => h.2.2.elim (fun h => hnoAuthor h.1) fun h => hnoCoord h.1⟩
        split
        · simp only [routePTags]
          split <;> simp [routeBootstrapContentInbox, routePTagsToInbox, hnone]
        · simp [routeNoAuthor, hnone]

/-- A step strands and then rescues. -/
theorem mem_unroutable_add {activePinned : SortedSet String} {interest : LogicalInterest}
    {acc : Collected} :
    pubkey ∈ (acc.add (partitionInterest c activePinned interest)).unroutable ↔
      (pubkey ∈ acc.unroutable ∧ ¬ Rescues interest pubkey) ∨
        Strands c activePinned interest pubkey := by
  obtain ⟨hrescued, hstranded⟩ := mem_stranded_rescued c activePinned interest pubkey
  simp only [Collected.add, mem_removeAll, mem_union, mem_ofList,
    hrescued, or_and_right, hstranded]

/-- Some interest strands the pubkey, and none after it rescues the pubkey. -/
def LastStranded (c : SubscriptionCompiler) (activePinned : SortedSet String) (pubkey : String) :
    List LogicalInterest → Prop
  | [] => False
  | i :: rest =>
    (Strands c activePinned i pubkey ∧ ∀ j ∈ rest, ¬ Rescues j pubkey) ∨
      LastStranded c activePinned pubkey rest

theorem LastStranded.exists_strands {activePinned : SortedSet String}
    (h : LastStranded c activePinned pubkey interests) :
    ∃ i ∈ interests, Strands c activePinned i pubkey := by
  induction interests with
  | nil => exact h.elim
  | cons first _ ih =>
    rcases h with ⟨hs, -⟩ | h
    · exact ⟨first, List.mem_cons_self, hs⟩
    · obtain ⟨i, hi, hs⟩ := ih h
      exact ⟨i, List.mem_cons_of_mem _ hi, hs⟩

/-- Where nobody rescues the pubkey, it is enough that somebody strands it. -/
theorem lastStranded_iff {activePinned : SortedSet String}
    (h : ¬ ((∃ i ∈ interests, Strands c activePinned i pubkey) ∧ ∃ j ∈ interests, Rescues j pubkey))
    :
    LastStranded c activePinned pubkey interests ↔
      ∃ i ∈ interests, Strands c activePinned i pubkey := by
  refine ⟨LastStranded.exists_strands, ?_⟩
  rintro ⟨i, hi, hs⟩
  have hno : ∀ j ∈ interests, ¬ Rescues j pubkey := fun j hj hr => h ⟨⟨i, hi, hs⟩, j, hj, hr⟩
  clear h
  induction interests with
  | nil => cases hi
  | cons _ _ ih =>
    obtain ⟨-, hrest⟩ := List.forall_mem_cons.mp hno
    rcases List.mem_cons.mp hi with rfl | hi
    · exact .inl ⟨hs, hrest⟩
    · exact .inr (ih hi hrest)

theorem mem_foldl_unroutable {activePinned : SortedSet String} {acc : Collected} :
    pubkey ∈ (interests.foldl (fun acc i => acc.add (partitionInterest c activePinned i))
        acc).unroutable ↔
      (pubkey ∈ acc.unroutable ∧ ∀ j ∈ interests, ¬ Rescues j pubkey) ∨
        LastStranded c activePinned pubkey interests := by
  induction interests generalizing acc with
  | nil => simp [LastStranded]
  | cons _ _ ih =>
    rw [List.foldl_cons, ih, mem_unroutable_add, List.forall_mem_cons, LastStranded, or_and_right,
      or_assoc, and_assoc]

/-- The unroutable authors of a plan. -/
theorem mem_unroutableAuthors {ctx : CompileContext} :
    pubkey ∈ (compileWithContext c interests ctx).unroutableAuthors ↔
      LastStranded c (activePinnedRelays interests) pubkey interests := by
  simp only [compileWithContext, collect, mem_foldl_unroutable, not_mem_empty, false_and,
    false_or]

/-- An interest in a list can come last. -/
theorem exists_perm_last {i : LogicalInterest} (hi : i ∈ l) : ∃ front, (front ++ [i]).Perm l := by
  obtain ⟨u, v, rfl⟩ := List.append_of_mem hi
  exact ⟨u ++ v, (List.perm_append_singleton i (u ++ v)).trans List.perm_middle.symm⟩

theorem collect_last (c : SubscriptionCompiler) (front : List LogicalInterest) (i : LogicalInterest) :
    collect c (front ++ [i]) =
      ((front.foldl (fun (acc : Collected) j =>
        acc.add (partitionInterest c (activePinnedRelays (front ++ [i])) j)) ⟨∅, ∅, []⟩).add
          (partitionInterest c (activePinnedRelays (front ++ [i])) i)) := by
  rw [collect, List.foldl_append]
  rfl

/-- For interests with distinct ids: every order compiles to the same plan, exactly when no interest
strands a pubkey that another one rescues. -/
theorem compile_order_independent_iff (c : SubscriptionCompiler) (interests : List LogicalInterest)
    (ctx : CompileContext) (hids : (interests.map LogicalInterest.id).Nodup) :
    (∀ interests', interests.Perm interests' →
        SamePlan (compileWithContext c interests ctx) (compileWithContext c interests' ctx)) ↔
      ¬ ∃ pubkey, (∃ i ∈ interests, Strands c (activePinnedRelays interests) i pubkey) ∧
        ∃ j ∈ interests, Rescues j pubkey := by
  constructor
  · rintro hsame ⟨pubkey, ⟨i, hi, hstrands⟩, j, hj, hrescues⟩
    obtain ⟨frontI, hpermI⟩ := exists_perm_last hi
    obtain ⟨frontJ, hpermJ⟩ := exists_perm_last hj
    have hunroutable := (hsame _ hpermI.symm).unroutable.symm.trans (hsame _ hpermJ.symm).unroutable
    have hin : pubkey ∈ (compileWithContext c (frontI ++ [i]) ctx).unroutableAuthors := by
      simp only [compileWithContext, collect_last, mem_unroutable_add]
      rw [activePinnedRelays_perm hpermI]
      exact .inr hstrands
    rw [hunroutable] at hin
    simp only [compileWithContext, collect_last, mem_unroutable_add] at hin
    exact hin.elim (fun h => h.2 hrescues) fun h => h.not_rescues hrescues
  · intro hno interests' hperm
    have hentries := entriesAt_perm c hperm
    have hnil : ∀ relay, entriesAt c interests relay = [] ↔ entriesAt c interests' relay = [] :=
      fun relay => ⟨fun h => List.nil_perm.mp (h ▸ hentries relay),
        fun h => List.perm_nil.mp (h ▸ hentries relay)⟩
    have hplans : ∀ relay a b,
        (compileWithContext c interests ctx).perRelay.lookup relay = some a →
        (compileWithContext c interests' ctx).perRelay.lookup relay = some b →
        a = relayPlan relay (entriesAt c interests relay) ∧
          b = relayPlan relay (entriesAt c interests' relay) := by
      intro relay a b ha hb
      rw [lookup_perRelay] at ha hb
      split at ha
      · cases ha
      · rw [if_neg fun h => ‹¬ _› ((hnil relay).mpr h)] at hb
        exact ⟨(Option.some.inj ha).symm, (Option.some.inj hb).symm⟩
    constructor
    · exact computePlanId_perm hperm hids c ctx _
    · intro relay
      rw [lookup_perRelay, lookup_perRelay]
      by_cases h : entriesAt c interests relay = []
      · rw [if_pos h, if_pos ((hnil relay).mp h)]
      · rw [if_neg h, if_neg fun h' => h ((hnil relay).mpr h')]
        rfl
    · intro relay a b ha hb
      obtain ⟨rfl, rfl⟩ := hplans relay a b ha hb
      exact (relayPlan_perm (hentries relay)).1
    · intro relay a b ha hb v
      obtain ⟨rfl, rfl⟩ := hplans relay a b ha hb
      exact ⟨(relayPlan_perm (hentries relay)).2 v, (relayPlan_perm (hentries relay).symm).2 v⟩
    · refine ext fun pubkey => ?_
      have hno' : ¬ ((∃ i ∈ interests, Strands c (activePinnedRelays interests) i pubkey) ∧
          ∃ j ∈ interests, Rescues j pubkey) := fun h => hno ⟨pubkey, h⟩
      rw [mem_unroutableAuthors, mem_unroutableAuthors, ← activePinnedRelays_perm hperm,
        lastStranded_iff hno', lastStranded_iff]
      · simp only [hperm.mem_iff]
      · simpa only [hperm.mem_iff] using hno'

/-- A client that knows no relay at all. -/
def offline : SubscriptionCompiler := ⟨fun _ => none, fun _ => none, [], [], [], [], []⟩

/-- The notes of an author, with the given relay hints. -/
def hintedNotes (id : Nat) (author : String) (urls : List String) : LogicalInterest :=
  ⟨id, .global, notesOf author, urls.map fun url => ⟨url, .userConfigured⟩, .tailing, false⟩

/-- Two interests without hints compile the same either way. -/
theorem compile_order_independent_two : SamePlan
    (compileWithContext offline [hintedNotes 1 "alice" [], hintedNotes 2 "bob" []] ⟨0, 0⟩)
    (compileWithContext offline [hintedNotes 2 "bob" [], hintedNotes 1 "alice" []] ⟨0, 0⟩) := by
  have hsame := compile_order_independent_iff offline
    [hintedNotes 1 "alice" [], hintedNotes 2 "bob" []] ⟨0, 0⟩ (by decide)
  refine hsame.mpr ?_ _ (List.Perm.swap _ _ [])
  rintro ⟨pubkey, -, j, hj, -, hhints, -⟩
  have hnone : ∀ j ∈ [hintedNotes 1 "alice" [], hintedNotes 2 "bob" []], validHints j = [] := by
    decide +kernel
  exact hhints (hnone j hj)

/-- A hint rescues its author only from the interests before it. -/
theorem unroutable_depends_on_order : ¬ ∀ (c : SubscriptionCompiler)
    (interests interests' : List LogicalInterest) (ctx : CompileContext),
    (interests.map LogicalInterest.id).Nodup → interests.Perm interests' →
      SamePlan (compileWithContext c interests ctx) (compileWithContext c interests' ctx) := by
  intro hclaim
  have hsame := (hclaim offline [hintedNotes 1 "ghost" [], hintedNotes 2 "ghost" ["wss://hint"]]
    [hintedNotes 2 "ghost" ["wss://hint"], hintedNotes 1 "ghost" []] ⟨0, 0⟩ (by decide)
    (List.Perm.swap _ _ [])).unroutable
  have hrescued : (compileWithContext offline
      [hintedNotes 1 "ghost" [], hintedNotes 2 "ghost" ["wss://hint"]] ⟨0, 0⟩).unroutableAuthors = ∅ := by
    decide +kernel
  have hstranded : (compileWithContext offline [hintedNotes 2 "ghost" ["wss://hint"],
      hintedNotes 1 "ghost" []] ⟨0, 0⟩).unroutableAuthors = {"ghost"} := by
    decide +kernel
  rw [hrescued, hstranded] at hsame
  exact absurd hsame (by decide +kernel)

end PlannerOrder
