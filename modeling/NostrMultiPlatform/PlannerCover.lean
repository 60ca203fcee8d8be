import Mathlib.Data.List.Pairwise
import NostrMultiPlatform.PlannerCompile

/-!
# Coverage of a plan

Each filter of a plan is the fold of the entries that were merged into it. An
entry loses events when it leaves open a dimension that another entry of its
fold restricts; a plan without such folds covers every entry.
-/
namespace PlannerCover

open Sorted PlannerShape PlannerPlan PlannerPartition PlannerMerge PlannerCompile FirstFit

/-- A shape is the join of a list of shapes, dimension by dimension. -/
structure FoldOf (s : InterestShape) (ys : List InterestShape) : Prop where
  authors : ∀ p, p ∈ s.authors ↔ ∃ y ∈ ys, p ∈ y.authors
  eventIds : ∀ id, id ∈ s.eventIds ↔ ∃ y ∈ ys, id ∈ y.eventIds
  addresses : ∀ c, c ∈ s.addresses ↔ ∃ y ∈ ys, c ∈ y.addresses
  tags : ∀ key sv, s.tags.lookup key = some sv →
    ∀ v, v ∈ sv ↔ ∃ y ∈ ys, v ∈ (y.tags.lookup key).getD ∅
  joins : ∀ y ∈ ys, Joins y s

theorem FoldOf.single (x : InterestShape) : FoldOf x [x] where
  authors p := by simp
  eventIds id := by simp
  addresses c := by simp
  tags key sv h v := by simp [h]
  joins y hy := by
    obtain rfl := List.mem_singleton.mp hy
    exact Joins.refl y

variable {ys : List InterestShape} {relay : String} {c : SubscriptionCompiler}

/-- Values of a union are those of the fold so far and of the entry that joins it. -/
theorem mem_union_append {α : Type} [LinearOrder α] {f : InterestShape → SortedSet α}
    {s x t : InterestShape} {a : α} (ht : f t = f s ∪ f x) (hs : a ∈ f s ↔ ∃ y ∈ ys, a ∈ f y) :
    a ∈ f t ↔ ∃ y ∈ ys ++ [x], a ∈ f y := by
  rw [ht, SortedSet.mem_union, hs]
  simp [or_and_right, exists_or]

theorem FoldOf.merge {s x t : InterestShape} {la lb : InterestLifecycle} (h : FoldOf s ys)
    (hmerges : Merges s x la lb t) : FoldOf t (ys ++ [x]) where
  authors p := mem_union_append hmerges.authors (h.authors p)
  eventIds id := mem_union_append (rule7_eq hmerges.eventIds) (h.eventIds id)
  addresses c := mem_union_append (rule8_eq hmerges.addresses) (h.addresses c)
  tags key tv htv v := by
    obtain ⟨hkeys, -, hlookup⟩ := rule2_lookup hmerges.tags
    obtain ⟨sv, hsv⟩ := lookup_of_keys hkeys htv
    obtain ⟨xv, hxv⟩ := lookup_of_keys hmerges.keys hsv
    obtain rfl : tv = sv ∪ xv := Option.eq_some_unique htv (hlookup key sv xv hsv hxv)
    rw [SortedSet.mem_union, h.tags key sv hsv v]
    simp [hxv, or_and_right, exists_or]
  joins y hy := by
    rcases List.mem_append.mp hy with hy | hy
    · exact (h.joins y hy).trans hmerges.joins.1
    · obtain rfl := List.mem_singleton.mp hy
      exact hmerges.joins.2

/-- A shape of a fold leaves open a dimension that another one restricts, and has events beyond all
the values that the fold lists there. -/
def NarrowedBy (x : InterestShape) (ys : List InterestShape) : Prop :=
  (x.authors = ∅ ∧ (∃ y ∈ ys, y.authors ≠ ∅) ∧ Reaches x fun c => ∀ y ∈ ys, c.pubkey ∉ y.authors) ∨
  (x.eventIds = ∅ ∧ (∃ y ∈ ys, y.eventIds ≠ ∅) ∧ Reaches x fun _ => True) ∨
  (x.addresses = ∅ ∧ (∃ y ∈ ys, y.addresses ≠ ∅) ∧ Window x) ∨
  ∃ row ∈ x.tags.rows, row.2 = ∅ ∧ row.1.utf8ByteSize = 1 ∧
    (∃ y ∈ ys, (y.tags.lookup row.1).getD ∅ ≠ ∅) ∧
    Reaches x fun c => row.1 = "d" → c.dTag = "" ∨ ∀ y ∈ ys, c.dTag ∉ (y.tags.lookup row.1).getD ∅

instance (x : InterestShape) (ys : List InterestShape) : Decidable (NarrowedBy x ys) :=
  inferInstanceAs (Decidable (_ ∨ _ ∨ _ ∨ _))

theorem ne_empty_iff_of_mem_iff {α : Type} [LinearOrder α] {f : InterestShape → SortedSet α}
    {s : SortedSet α} (h : ∀ a, a ∈ s ↔ ∃ y ∈ ys, a ∈ f y) : s ≠ ∅ ↔ ∃ y ∈ ys, f y ≠ ∅ := by
  simp only [SortedSet.ne_empty_iff, h]
  exact ⟨fun ⟨a, y, hy, ha⟩ => ⟨y, hy, a, ha⟩, fun ⟨y, hy, a, ha⟩ => ⟨a, y, hy, ha⟩⟩

theorem reaches_congr {x : InterestShape} {p q : NaddrCoord → Prop} (h : ∀ c, p c ↔ q c) :
    Reaches x p ↔ Reaches x q := by
  simp only [Reaches, h]

/-- The fold narrows a shape exactly when the fold's shapes do. -/
theorem FoldOf.narrows_iff {s x : InterestShape} (h : FoldOf s ys) (hx : x ∈ ys) :
    Narrows x s ↔ NarrowedBy x ys := by
  refine or_congr (and_congr_right fun _ => and_congr (ne_empty_iff_of_mem_iff h.authors)
    (reaches_congr fun c => by simp [h.authors])) (or_congr
    (and_congr_right fun _ => and_congr_left fun _ => ne_empty_iff_of_mem_iff h.eventIds)
    (or_congr (and_congr_right fun _ => and_congr_left fun _ => ne_empty_iff_of_mem_iff h.addresses)
    ?_))
  have hopen : ∀ key sv, s.tags.lookup key = some sv →
      (sv ≠ ∅ ↔ ∃ y ∈ ys, (y.tags.lookup key).getD ∅ ≠ ∅) := fun key sv hsv =>
    ne_empty_iff_of_mem_iff (f := fun y => (y.tags.lookup key).getD ∅) (h.tags key sv hsv)
  constructor
  · rintro ⟨⟨key, sv⟩, hrow, hquery, hxv, hreach⟩
    have hsv : s.tags.lookup key = some sv := SortedMap.lookup_eq_some.mpr hrow
    simp only [queryable, Bool.and_eq_true, decide_eq_true_eq] at hquery
    refine ⟨(key, ∅), SortedMap.lookup_eq_some.mp hxv, rfl, hquery.2,
      (hopen key sv hsv).mp hquery.1, (reaches_congr fun c => ?_).mp hreach⟩
    simp [h.tags key sv hsv]
  · rintro ⟨⟨key, xv⟩, hrow, rfl, hsize, hwanted, hreach⟩
    have hxv : x.tags.lookup key = some ∅ := SortedMap.lookup_eq_some.mpr hrow
    obtain ⟨sv, hsv⟩ := lookup_of_keys (h.joins x hx).keys.symm hxv
    refine ⟨(key, sv), SortedMap.lookup_eq_some.mp hsv, ?_, hxv, (reaches_congr fun c => ?_).mp hreach⟩
    · simp only [queryable, Bool.and_eq_true, decide_eq_true_eq]
      exact ⟨(hopen key sv hsv).mpr hwanted, hsize⟩
    · simp [h.tags key sv hsv]

/-- What the folds of a list of entries are: joins of the entries they hold, under their ids. -/
theorem packMembers_fold {shaped : List Shaped} :
    ∀ group ∈ packMembers start fit shaped,
      FoldOf group.1.shape (group.2.map Shaped.shape) ∧
      ∀ id, id ∈ group.1.ids ↔ ∃ e ∈ group.2, e.interestId = id := by
  refine packMembers_forall
    (P := fun (g : Group) ms => FoldOf g.shape (ms.map Shaped.shape) ∧
      ∀ id, id ∈ g.ids ↔ ∃ e ∈ ms, e.interestId = id)
    (fun e _ => ⟨FoldOf.single e.shape, fun id => by simp [start, eq_comm]⟩) ?_
  intro e _ g ms g' ⟨hfold, hids⟩ htaken
  obtain ⟨hmerges, -, hids'⟩ := fit_eq_some htaken
  refine ⟨by simpa using hfold.merge hmerges, fun id => ?_⟩
  rw [hids', hids]
  simp [or_and_right, exists_or, eq_comm]

/-- The entries that end in each filter of a relay. -/
def folds (c : SubscriptionCompiler) (interests : List LogicalInterest) (relay : String) :
    List (List Shaped) :=
  (packMembers start fit
    (canonicalSort ((entriesAt c interests relay).map shapedOf))).map Prod.snd

/-- No entry is folded with entries that restrict what it leaves open. -/
def NoNarrowingFold (c : SubscriptionCompiler) (interests : List LogicalInterest) : Prop :=
  ∀ relay, ∀ fold ∈ folds c interests relay, ∀ x ∈ fold,
    ¬ NarrowedBy x.shape (fold.map Shaped.shape)

/-- The plan has a filter on the relay, for the interest, that matches all that the shape does. -/
def Covers (plan : CompiledPlan) (relay : String) (id : Nat) (shape : InterestShape) : Prop :=
  ∃ relayPlan, plan.perRelay.lookup relay = some relayPlan ∧ ∃ sub ∈ relayPlan.subShapes,
    id ∈ sub.originatingInterests ∧
      ∀ e, matchesEventWithId shape e = true → matchesEventWithId sub.shape e = true

/-- Every entry of every interest is covered. -/
def NeverUnderFetches (c : SubscriptionCompiler) (interests : List LogicalInterest)
    (ctx : CompileContext) : Prop :=
  ∀ interest ∈ interests,
    ∀ row ∈ (partitionInterest c (activePinnedRelays interests) interest).entries,
      Covers (compileWithContext c interests ctx) row.1 interest.id (intoShape row.2)

/-- No interest reaches a relay with more than one entry. -/
def OneEntryPerRelay (c : SubscriptionCompiler) (interests : List LogicalInterest) : Prop :=
  ∀ relay, ((entriesAt c interests relay).map RelayEntry.interestId).Nodup

theorem mem_subShapes {entries : List RelayEntry} {sub : SubShape} :
    sub ∈ (relayPlan relay entries).subShapes ↔
      ∃ group ∈ packMembers start fit (canonicalSort (entries.map shapedOf)),
        subShapeOf group.1 = sub := by
  simp only [relayPlan, groups, ← packMembers_fst, List.map_map, List.mem_map,
    Function.comp]

/-- The entries of an interest carry its id. -/
theorem interestId_of_mem {pins : SortedSet String} {interest : LogicalInterest}
    {row : String × RelayEntry} (h : row ∈ (partitionInterest c pins interest).entries) :
    row.2.interestId = interest.id := by
  have hinbox : ∀ pTags authors base,
      row ∈ (routePTagsToInbox c pTags authors base interest.lifecycle interest.id).entries →
        row.2.interestId = interest.id := by
    intro pTags authors base hrow
    obtain ⟨pk, -, hrow⟩ := List.mem_flatMap.mp hrow
    cases hroute : inboxRoute c base.pTagRouting pk with
    | none => simp [hroute] at hrow
    | some =>
      rw [hroute] at hrow
      obtain ⟨relay, -, rfl⟩ := List.mem_map.mp hrow
      rfl
  have hplain : ∀ base perRelay, row ∈ plainEntries interest base perRelay →
      row.2.interestId = interest.id := by
    intro base perRelay hrow
    obtain ⟨entry, -, rfl⟩ := List.mem_map.mp hrow
    rfl
  unfold partitionInterest at h
  split at h
  · obtain rfl := List.mem_singleton.mp h
    rfl
  · split at h
    · rcases List.mem_append.mp h with h | h
      · obtain ⟨entry, -, rfl⟩ := List.mem_map.mp h
        rfl
      · exact hinbox _ _ _ h
    · split at h
      · obtain ⟨entry, -, rfl⟩ := List.mem_map.mp h
        rfl
      · split at h
        · simp only [routePTags] at h
          split at h
          · exact hplain _ _ h
          · exact hinbox _ _ _ h
        · rcases List.mem_append.mp h with h | h
          · obtain ⟨entry, -, rfl⟩ := List.mem_map.mp h
            rfl
          · exact hplain _ _ h

theorem mem_entriesAt {interests : List LogicalInterest} {entry : RelayEntry} :
    entry ∈ entriesAt c interests relay ↔ ∃ interest ∈ interests,
      (relay, entry) ∈ (partitionInterest c (activePinnedRelays interests) interest).entries := by
  simp only [entriesAt, List.mem_map, List.mem_filter, List.mem_flatMap, decide_eq_true_eq]
  constructor
  · rintro ⟨⟨r, e⟩, ⟨⟨i, hi, hmem⟩, rfl⟩, rfl⟩
    exact ⟨i, hi, hmem⟩
  · rintro ⟨i, hi, hmem⟩
    exact ⟨(relay, entry), ⟨⟨i, hi, hmem⟩, rfl⟩, rfl⟩

theorem canonicalSort_perm (shaped : List Shaped) : (canonicalSort shaped).Perm shaped :=
  List.perm_insertionSort _ shaped

/-- The plan of a relay covers an entry through every fold that holds it and does not narrow it. -/
theorem covers_of_fold {interests : List LogicalInterest} {ctx : CompileContext} {id : Nat}
    {shape : InterestShape} {group : Group × List Shaped}
    (hgroup : group ∈ packMembers start fit (canonicalSort ((entriesAt c interests relay).map shapedOf)))
    (hid : id ∈ group.1.ids)
    (hcovers : ∀ e, matchesEventWithId shape e = true → matchesEventWithId group.1.shape e = true) :
    Covers (compileWithContext c interests ctx) relay id shape := by
  have hsome : entriesAt c interests relay ≠ [] := by
    intro hnil
    rw [hnil] at hgroup
    cases hgroup
  refine ⟨_, by rw [lookup_perRelay, if_neg hsome], subShapeOf group.1,
    mem_subShapes.mpr ⟨group, hgroup, rfl⟩, hid, hcovers⟩

/-- Compilation never under-fetches if no entry is folded with entries that restrict what it leaves
open; and where every interest has one entry a relay, only then. -/
theorem never_under_fetches (c : SubscriptionCompiler) (interests : List LogicalInterest)
    (ctx : CompileContext) :
    (NoNarrowingFold c interests → NeverUnderFetches c interests ctx) ∧
      (OneEntryPerRelay c interests →
        (NeverUnderFetches c interests ctx ↔ NoNarrowingFold c interests)) := by
  have hcovered : NoNarrowingFold c interests → NeverUnderFetches c interests ctx := by
    intro hno interest hinterest row hrow
    have hentry : row.2 ∈ entriesAt c interests row.1 := mem_entriesAt.mpr ⟨interest, hinterest, hrow⟩
    obtain ⟨group, hgroup, hmem⟩ := mem_packMembers_of_mem start fit
      ((canonicalSort_perm _).symm.subset (List.mem_map_of_mem (f := shapedOf) hentry))
    obtain ⟨hfold, hids⟩ := packMembers_fold group hgroup
    have hshape : intoShape row.2 ∈ group.2.map Shaped.shape :=
      List.mem_map.mpr ⟨shapedOf row.2, hmem, rfl⟩
    refine covers_of_fold hgroup ((hids _).mpr ⟨shapedOf row.2, hmem, interestId_of_mem hrow⟩) ?_
    rw [covered_iff (hfold.joins _ hshape), hfold.narrows_iff hshape]
    exact hno row.1 group.2 (List.mem_map_of_mem hgroup) (shapedOf row.2) hmem
  refine ⟨hcovered, fun hone => ⟨fun hnever relay fold hfold x hx => ?_, hcovered⟩⟩
  obtain ⟨group, hgroup, rfl⟩ := List.mem_map.mp hfold
  have hperm := packMembers_perm start fit
    (canonicalSort ((entriesAt c interests relay).map shapedOf))
  have hids : ((entriesAt c interests relay).map shapedOf).map Shaped.interestId =
      (entriesAt c interests relay).map RelayEntry.interestId := by
    rw [List.map_map]
    rfl
  have hnodup : (((packMembers start fit (canonicalSort
      ((entriesAt c interests relay).map shapedOf))).flatMap Prod.snd).map
        Shaped.interestId).Nodup := by
    rw [((hperm.trans (canonicalSort_perm _)).map Shaped.interestId).nodup_iff, hids]
    exact hone relay
  obtain ⟨entry, hentry, rfl⟩ := List.mem_map.mp ((canonicalSort_perm _).subset
    (hperm.subset (List.mem_flatMap.mpr ⟨group, hgroup, hx⟩)))
  obtain ⟨interest, hinterest, hrow⟩ := mem_entriesAt.mp hentry
  obtain ⟨plan, hplan, sub, hsub, hid, hcover⟩ := hnever interest hinterest _ hrow
  have hsome : entriesAt c interests relay ≠ [] := List.ne_nil_of_mem hentry
  rw [lookup_perRelay, if_neg hsome] at hplan
  obtain rfl := Option.some.inj hplan
  obtain ⟨other, hother, rfl⟩ := mem_subShapes.mp hsub
  -- the filter that covers the entry holds an entry of the same interest, which is this one
  obtain ⟨y, hy, hyid⟩ := ((packMembers_fold other hother).2 _).mp hid
  have hsame : other = group := by
    rw [List.map_flatMap, List.nodup_flatMap] at hnodup
    by_contra hne
    have : Std.Symm (Function.onFun List.Disjoint fun group : Group × List Shaped =>
        group.2.map Shaped.interestId) := ⟨fun _ _ h => h.symm⟩
    have hdisjoint := hnodup.2.forall hother hgroup hne
    refine hdisjoint (List.mem_map_of_mem hy) ?_
    rw [hyid, ← interestId_of_mem hrow]
    exact List.mem_map_of_mem (f := Shaped.interestId) hx
  subst hsame
  obtain ⟨hfoldOf, -⟩ := packMembers_fold other hother
  have hshape : intoShape entry ∈ other.2.map Shaped.shape :=
    List.mem_map.mpr ⟨shapedOf entry, hx, rfl⟩
  exact (hfoldOf.narrows_iff hshape).not.mp ((covered_iff (hfoldOf.joins _ hshape)).mp hcover)

/-- A client with one app relay and one read relay and no known mailbox. -/
def twoRelays : SubscriptionCompiler :=
  ⟨fun _ => none, fun _ => none, [], ["wss://read"], ["wss://app"], [], []⟩

/-- A standing interest of the shape. -/
def standing (id : Nat) (shape : InterestShape) : LogicalInterest :=
  ⟨id, .global, shape, [], .tailing, false⟩

def oneNote : InterestShape := { InterestShape.default with kinds := {1}, eventIds := {"first"} }

/-- The notes of two authors share a filter that covers both. -/
theorem never_under_fetches_two_authors :
    NeverUnderFetches twoRelays [standing 1 (notesOf "alice"), standing 2 (notesOf "bob")] ⟨0, 0⟩ := by
  refine (never_under_fetches _ _ _).1 fun relay => ?_
  by_cases hrelay : relay = "wss://app"
  · subst hrelay
    decide +kernel
  · have hrows : ∀ row ∈ [standing 1 (notesOf "alice"), standing 2 (notesOf "bob")].flatMap
        (fun interest => (partitionInterest twoRelays (activePinnedRelays
          [standing 1 (notesOf "alice"), standing 2 (notesOf "bob")]) interest).entries),
        row.1 = "wss://app" := by
      decide +kernel
    have hnone : entriesAt twoRelays [standing 1 (notesOf "alice"), standing 2 (notesOf "bob")]
        relay = [] :=
      entriesAt_eq_nil fun row hrow heq => hrelay (heq ▸ hrows row hrow)
    rw [folds, hnone]
    simp [canonicalSort, packMembers]

/-- An open interest in notes, folded with an interest in one note, is narrowed to that note. -/
theorem compile_under_fetches : ¬ ∀ (c : SubscriptionCompiler) (interests : List LogicalInterest)
    (ctx : CompileContext), NeverUnderFetches c interests ctx := by
  intro hclaim
  have hentry : ∃ row ∈ (partitionInterest twoRelays (activePinnedRelays
      [standing 1 allNotes, standing 2 oneNote]) (standing 1 allNotes)).entries,
      row.1 = "wss://read" ∧ intoShape row.2 = allNotes := by
    decide +kernel
  obtain ⟨row, hrow, hrelay, hshape⟩ := hentry
  obtain ⟨plan, hplan, sub, hsub, -, hcovers⟩ :=
    hclaim twoRelays [standing 1 allNotes, standing 2 oneNote] ⟨0, 0⟩ _ List.mem_cons_self row hrow
  have hshapes : ((compileWithContext twoRelays [standing 1 allNotes, standing 2 oneNote]
      ⟨0, 0⟩).perRelay.lookup "wss://read").map (fun p => p.subShapes.map SubShape.shape) =
        some [oneNote] := by
    decide +kernel
  rw [hrelay] at hplan
  rw [hplan] at hshapes
  have hone : sub.shape = oneNote :=
    List.mem_singleton.mp (Option.some.inj hshapes ▸ List.mem_map_of_mem hsub)
  have hmatch : matchesEventWithId allNotes ⟨"second", "bob", 1, 0, []⟩ = true := by decide +kernel
  have hmiss : matchesEventWithId oneNote ⟨"second", "bob", 1, 0, []⟩ = false := by decide +kernel
  have hcovered := hcovers ⟨"second", "bob", 1, 0, []⟩ (hshape ▸ hmatch)
  rw [hone, hmiss] at hcovered
  cases hcovered

end PlannerCover
