import NostrMultiPlatform.PlannerSoundness

/-!
# Attribution after selection

Selection cuts the attribution of a relay down to the authors that the relay was
picked for. The mark of an entry without authors is that its set is empty, and it
is read after the cut: an entry that lost all its authors stays like one that
never had any, also where no sub-shape of its interest is left.
-/
namespace PlannerAttribution

open Sorted PlannerShape PlannerPlan PlannerSelection PlannerGreedy PlannerSurvival PlannerSoundness
open CappedCover

variable {plan : CompiledPlan} {maxConnections maxPerUser : Nat} {scoreLookup : Option ScoreLookup}
  {relay author : String} {relayPlan left : RelayPlan} {sub : SubShape}
  {allowed : SortedSet String} {entry : InterestAttribution}

/-- Some sub-shape asks for the author on behalf of the interest. -/
def AskedFor (subShapes : List SubShape) (interestId : Nat) (author : String) : Prop :=
  ∃ sub ∈ subShapes, interestId ∈ sub.originatingInterests ∧ author ∈ sub.shape.authors

/-- Every interest of a relay's attribution occurs in some sub-shape of the relay. -/
def Attributed (plan : CompiledPlan) : Prop :=
  ∀ relay relayPlan, plan.perRelay.lookup relay = some relayPlan →
    ∀ entry ∈ relayPlan.attribution.interests,
      ∃ sub ∈ relayPlan.subShapes, entry.interestId ∈ sub.originatingInterests

/-- The entry with the authors that the relay was picked for. -/
def cut (allowed : SortedSet String) (entry : InterestAttribution) : InterestAttribution :=
  { entry with authors := entry.authors.retain (· ∈ allowed) }

/-- The sub-shape has authors, and the relay was picked for none of them. -/
def Falls (allowed : SortedSet String) (sub : SubShape) : Prop :=
  sub.shape.authors ≠ ∅ ∧ ∀ author ∈ sub.shape.authors, author ∉ allowed

/-- The entry as cut names an interest of the relay's remaining sub-shapes and claims authors of
these, for its own interest those that were asked for on its behalf. -/
structure Honest (relayPlan left : RelayPlan) (allowed : SortedSet String)
    (entry : InterestAttribution) : Prop where
  named : ∃ sub ∈ left.subShapes, entry.interestId ∈ sub.originatingInterests
  present : ∀ author ∈ (cut allowed entry).authors, ∃ sub ∈ left.subShapes, author ∈ sub.shape.authors
  asked : ∀ author ∈ (cut allowed entry).authors,
    AskedFor relayPlan.subShapes entry.interestId author →
      AskedFor left.subShapes entry.interestId author

/-- The relay is under selection and was picked for these authors. -/
def PickedFor (plan : CompiledPlan) (maxConnections maxPerUser : Nat)
    (scoreLookup : Option ScoreLookup) (relay : String) (relayPlan : RelayPlan)
    (allowed : SortedSet String) : Prop :=
  plan.perRelay.lookup relay = some relayPlan ∧
    relayBypassesSelection relayPlan.roleTags = false ∧
    (selectionsFor plan maxConnections maxPerUser scoreLookup).lookup relay = some allowed

/-- Every entry that had authors and is left on a relay under selection is honest. -/
def AttributionHonest (plan : CompiledPlan) (maxConnections maxPerUser : Nat)
    (scoreLookup : Option ScoreLookup) : Prop :=
  ∀ relay relayPlan allowed left,
    PickedFor plan maxConnections maxPerUser scoreLookup relay relayPlan allowed →
    (applySelectionWithLookup plan maxConnections maxPerUser scoreLookup).perRelay.lookup relay =
      some left →
    ∀ entry ∈ relayPlan.attribution.interests, entry.authors ≠ ∅ →
      cut allowed entry ∈ left.attribution.interests → Honest relayPlan left allowed entry

/-- Where a relay keeps something, an entry that loses its authors keeps a sub-shape that its
interest occurs in. -/
def NoneStranded (plan : CompiledPlan) (maxConnections maxPerUser : Nat)
    (scoreLookup : Option ScoreLookup) : Prop :=
  ∀ relay relayPlan allowed,
    PickedFor plan maxConnections maxPerUser scoreLookup relay relayPlan allowed →
    (∃ sub ∈ relayPlan.subShapes, ¬ Falls allowed sub) →
    ∀ entry ∈ relayPlan.attribution.interests, entry.authors ≠ ∅ →
      (∀ author ∈ entry.authors, author ∉ allowed) →
      ∃ sub ∈ relayPlan.subShapes, entry.interestId ∈ sub.originatingInterests ∧ ¬ Falls allowed sub

theorem keptSub_eq_none : keptSub allowed sub = none ↔ Falls allowed sub := by
  constructor
  · intro h
    constructor
    · intro hempty
      rw [keptSub_wildcard hempty] at h
      cases h
    · intro author hauthor hallowed
      obtain ⟨sub', hkept⟩ := keptSub_of_mem hauthor hallowed
      rw [hkept] at h
      cases h
  · intro ⟨hsome, hnone⟩
    by_contra hkept
    obtain ⟨sub', hsub'⟩ := Option.ne_none_iff_exists'.mp hkept
    have hauthors := (keptSub_eq_some hsub').2
    have hwildcard : sub'.shape.authors = ∅ := SortedSet.eq_empty_iff.mpr fun author hauthor =>
      hnone author ((hauthors author).mp hauthor).1 ((hauthors author).mp hauthor).2
    exact hsome ((keptSub_narrowed hsub').1.wildcard hwildcard)

theorem exists_kept_iff : (∃ sub', keptSub allowed sub = some sub') ↔ ¬ Falls allowed sub := by
  rw [← keptSub_eq_none, ← Option.ne_none_iff_exists']

theorem cut_authors_empty : (cut allowed entry).authors = ∅ ↔
    ∀ author ∈ entry.authors, author ∉ allowed := by
  simp only [cut, SortedSet.eq_empty_iff, SortedSet.mem_retain, decide_eq_true_eq, not_and]

/-- The projected relay: its sub-shapes and its entries. -/
theorem projected_eq (h : projectRelay allowed relayPlan = some left) :
    left.subShapes = relayPlan.subShapes.filterMap (keptSub allowed) ∧
      left.attribution.interests = (relayPlan.attribution.interests.map (cut allowed)).filter
        fun interest => interest.authors = ∅ ||
          interest.interestId ∈ left.subShapes.flatMap SubShape.originatingInterests := by
  unfold projectRelay at h
  dsimp only at h
  split at h
  · cases h
  · obtain rfl := Option.some.inj h
    exact ⟨rfl, rfl⟩

/-- An interest occurs in what is left if it occurs in a sub-shape that does not fall. -/
theorem named_left_iff (h : projectRelay allowed relayPlan = some left) (interestId : Nat) :
    (∃ sub ∈ left.subShapes, interestId ∈ sub.originatingInterests) ↔
      ∃ sub ∈ relayPlan.subShapes, interestId ∈ sub.originatingInterests ∧ ¬ Falls allowed sub := by
  rw [(projected_eq h).1]
  constructor
  · rintro ⟨sub', hsub', hin⟩
    obtain ⟨sub, hsub, hkept⟩ := List.mem_filterMap.mp hsub'
    exact ⟨sub, hsub, (keptSub_eq_some hkept).1 ▸ hin, exists_kept_iff.mp ⟨sub', hkept⟩⟩
  · rintro ⟨sub, hsub, hin, hstands⟩
    obtain ⟨sub', hkept⟩ := exists_kept_iff.mpr hstands
    exact ⟨sub', List.mem_filterMap.mpr ⟨sub, hsub, hkept⟩, (keptSub_eq_some hkept).1.symm ▸ hin⟩

/-- An author that the relay was picked for stays in every sub-shape that asks for it. -/
theorem stays (h : projectRelay allowed relayPlan = some left) (hsub : sub ∈ relayPlan.subShapes)
    (hauthor : author ∈ sub.shape.authors) (hallowed : author ∈ allowed) :
    ∃ sub' ∈ left.subShapes, sub'.originatingInterests = sub.originatingInterests ∧
      author ∈ sub'.shape.authors := by
  obtain ⟨sub', hkept⟩ := keptSub_of_mem hauthor hallowed
  obtain ⟨hinterests, hauthors⟩ := keptSub_eq_some hkept
  refine ⟨sub', ?_, hinterests, (hauthors author).mpr ⟨hauthor, hallowed⟩⟩
  rw [(projected_eq h).1]
  exact List.mem_filterMap.mpr ⟨sub, hsub, hkept⟩

section

variable (h : PickedFor plan maxConnections maxPerUser scoreLookup relay relayPlan allowed)
include h

/-- A relay is picked only for authors that some sub-shape of it asks for. -/
theorem asked_of_allowed (hallowed : author ∈ allowed) :
    ∃ sub ∈ relayPlan.subShapes, author ∈ sub.shape.authors := by
  obtain ⟨hplan, -, hpicked⟩ := h
  rcases Nat.eq_zero_or_pos maxPerUser with rfl | hcap
  · have hnone : selectionsFor plan maxConnections 0 scoreLookup = ∅ := by
      simp [selectionsFor, greedySelect]
    rw [hnone, SortedMap.lookup_empty] at hpicked
    cases hpicked
  · obtain ⟨winners, hselected⟩ :=
      exists_selected (perRelayAuthors plan scoreLookup) maxConnections hcap
    rw [lookup_selectionsFor hcap] at hpicked
    split at hpicked
    · obtain rfl := Option.some.inj hpicked
      exact absurd hallowed (SortedSet.not_mem_empty author)
    · have hserved := (hselected.serves author relay).mp (by rw [hpicked]; exact hallowed)
      have hcarries := mem_carriers.mp (mem_served_carriers hserved).1
      cases hlookup : (perRelayAuthors plan scoreLookup).lookup relay with
      | none =>
        rw [hlookup] at hcarries
        exact absurd hcarries (SortedSet.not_mem_empty author)
      | some =>
        rw [hlookup] at hcarries
        obtain ⟨relayPlan', hplan', -, hauthors⟩ := lookup_perRelayAuthors hlookup
        obtain rfl := Option.eq_some_unique hplan hplan'
        exact mem_authorsOf.mp (hauthors author hcarries)

theorem applied_of_picked :
    (applySelectionWithLookup plan maxConnections maxPerUser scoreLookup).perRelay.lookup relay =
      projectRelay allowed relayPlan := by
  obtain ⟨hplan, hbypass, hpicked⟩ := h
  rw [lookup_applySelection, hplan, Option.bind_some, hbypass, hpicked]
  rfl

/-- An entry left of a relay is honest if its interest still occurs there. -/
theorem honest_of_named (hleft : projectRelay allowed relayPlan = some left)
    (hnamed : ∃ sub ∈ left.subShapes, entry.interestId ∈ sub.originatingInterests) :
    Honest relayPlan left allowed entry := by
  have hallowed : ∀ author ∈ (cut allowed entry).authors, author ∈ allowed := by
    intro author hauthor
    exact of_decide_eq_true (SortedSet.mem_retain.mp hauthor).2
  refine ⟨hnamed, fun author hauthor => ?_, fun author hauthor hasked => ?_⟩
  · obtain ⟨sub, hsub, hin⟩ := asked_of_allowed h (hallowed author hauthor)
    obtain ⟨sub', hsub', -, hin'⟩ := stays hleft hsub hin (hallowed author hauthor)
    exact ⟨sub', hsub', hin'⟩
  · obtain ⟨sub, hsub, hnames, hin⟩ := hasked
    obtain ⟨sub', hsub', hinterests, hin'⟩ := stays hleft hsub hin (hallowed author hauthor)
    exact ⟨sub', hsub', hinterests ▸ hnames, hin'⟩

end

/-- The sub-shape of one interest in the notes of some authors, as it is compiled. -/
def notesOf (id : Nat) (authors : List String) : SubShape :=
  let shape := { InterestShape.default with kinds := {1}, authors := .ofList authors }
  ⟨shape, [id], canonicalFilterHash shape⟩

/-- Each interest claims the authors of its sub-shapes. -/
def attributionOf (subShapes : List SubShape) : RelayAttribution :=
  { RelayAttribution.default with
    interests := subShapes.flatMap fun sub => sub.originatingInterests.map fun id =>
      ⟨id, sub.shape.kinds, sub.shape.authors⟩ }

def relayOf (url : String) (subShapes : List SubShape) : RelayPlan :=
  ⟨url, {.nip65}, subShapes, attributionOf subShapes⟩

/-- Two relays carry Alice; the second has more authors. -/
def sharedRelays : CompiledPlan :=
  ⟨"plan", ((∅ : SortedMap String RelayPlan).insert "wss://a"
      (relayOf "wss://a" [notesOf 1 ["alice"], notesOf 2 ["bob"]])).insert "wss://b"
      (relayOf "wss://b" [notesOf 1 ["alice"], notesOf 3 ["carol", "dave"]]), ∅⟩

theorem attributed_relayOf (url : String) (subShapes : List SubShape) :
    ∀ entry ∈ (relayOf url subShapes).attribution.interests,
      ∃ sub ∈ subShapes, entry.interestId ∈ sub.originatingInterests := by
  intro entry hentry
  obtain ⟨sub, hsub, hentry⟩ := List.mem_flatMap.mp hentry
  obtain ⟨id, hid, rfl⟩ := List.mem_map.mp hentry
  exact ⟨sub, hsub, hid⟩

theorem attributed_sharedRelays : Attributed sharedRelays := by
  intro relay relayPlan hlookup
  rw [sharedRelays, SortedMap.lookup_insert, SortedMap.lookup_insert] at hlookup
  split at hlookup
  · obtain rfl := Option.some.inj hlookup
    exact attributed_relayOf _ _
  · split at hlookup
    · obtain rfl := Option.some.inj hlookup
      exact attributed_relayOf _ _
    · cases hlookup

end PlannerAttribution
