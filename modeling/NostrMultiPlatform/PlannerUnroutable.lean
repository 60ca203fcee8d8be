import NostrMultiPlatform.PlannerOrder

/-!
# Unroutable authors

A pubkey that an interest names is missing from it when none of the interest's
entries carries the pubkey. The compiler tracks stranded pubkeys in one set for
all interests: a hint of one interest takes out what another one put in, and a
pubkey without an outbox counts as stranded even if another lane carries it.
-/
namespace PlannerUnroutable

open Sorted PlannerShape PlannerPlan PlannerPartition PlannerCompile PlannerOrder SortedSet

section Accumulator
variable {α β γ : Type} {relayOf : α → String} {start : β} {Q : β → Prop}

/-- Some relay's entry has the property. -/
def Holds (Q : β → Prop) (m : SortedMap String β) : Prop :=
  ∃ relay entry, m.lookup relay = some entry ∧ Q entry

theorem holds_alter {m : SortedMap String β} {relay : String} {visit : β → β} {p : Prop}
    (hstart : ¬ Q start) (hvisit : ∀ entry, Q (visit entry) ↔ Q entry ∨ p) :
    Holds Q (m.alter relay fun entry => visit (entry.getD start)) ↔ Holds Q m ∨ p := by
  constructor
  · intro ⟨r, entry, hlookup, hq⟩
    rw [SortedMap.lookup_alter] at hlookup
    split at hlookup
    · obtain rfl := Option.some.inj hlookup
      rcases (hvisit _).mp hq with hq | hp
      · cases hold : m.lookup relay with
        | none =>
          rw [hold] at hq
          exact absurd hq hstart
        | some entry =>
          rw [hold] at hq
          exact .inl ⟨relay, entry, hold, hq⟩
      · exact .inr hp
    · exact .inl ⟨r, entry, hlookup, hq⟩
  · rintro (⟨r, entry, hlookup, hq⟩ | hp)
    · by_cases hr : r = relay
      · subst hr
        refine ⟨r, visit entry, by rw [SortedMap.lookup_alter, if_pos rfl, hlookup]; rfl, ?_⟩
        exact (hvisit entry).mpr (.inl hq)
      · exact ⟨r, entry, by rw [SortedMap.lookup_alter, if_neg hr, hlookup], hq⟩
    · exact ⟨relay, _, by rw [SortedMap.lookup_alter, if_pos rfl], (hvisit _).mpr (.inr hp)⟩

theorem holds_land {visit : α → β → β} {p : α → Prop} (hstart : ¬ Q start)
    (hvisit : ∀ l entry, Q (visit l entry) ↔ Q entry ∨ p l) (landings : List α)
    (m : SortedMap String β) :
    Holds Q (land relayOf start visit landings m) ↔ Holds Q m ∨ ∃ l ∈ landings, p l := by
  induction landings generalizing m with
  | nil => simp [land]
  | cons l rest ih =>
    have hstep : land relayOf start visit (l :: rest) m = land relayOf start visit rest
        (m.alter (relayOf l) fun entry => visit l (entry.getD start)) := rfl
    rw [hstep, ih, holds_alter hstart (hvisit l), List.exists_mem_cons_iff, or_assoc]

/-- The landings of several items, one after the other. -/
theorem holds_foldl_land {visit : γ → α → β → β} {p : γ → α → Prop} {landings : γ → List α}
    (hstart : ¬ Q start) (hvisit : ∀ x l entry, Q (visit x l entry) ↔ Q entry ∨ p x l)
    (items : List γ) (m : SortedMap String β) :
    Holds Q (items.foldl (fun m x => land relayOf start (visit x) (landings x) m) m) ↔
      Holds Q m ∨ ∃ x ∈ items, ∃ l ∈ landings x, p x l := by
  induction items generalizing m with
  | nil => simp
  | cons x _ ih =>
    rw [List.foldl_cons, ih, holds_land hstart (hvisit x), List.exists_mem_cons_iff, or_assoc]

theorem not_holds_empty : ¬ Holds Q (∅ : SortedMap String β) := by
  intro ⟨relay, entry, hlookup, _⟩
  cases hlookup

theorem holds_iff_rows {m : SortedMap String β} : Holds Q m ↔ ∃ row ∈ m.rows, Q row.2 := by
  constructor
  · exact fun ⟨relay, entry, hlookup, hq⟩ => ⟨(relay, entry), SortedMap.lookup_eq_some.mp hlookup, hq⟩
  · exact fun ⟨row, hrow, hq⟩ => ⟨row.1, row.2, SortedMap.lookup_eq_some.mpr hrow, hq⟩

end Accumulator

variable {c : SubscriptionCompiler} {pins : SortedSet String} {interest : LogicalInterest}
  {pk : String}

/-- The interest names the pubkey as an author or as the author of a coordinate. -/
def Names (interest : LogicalInterest) (pk : String) : Prop :=
  pk ∈ interest.shape.authors ∨ pk ∈ coordPubkeys interest

/-- The entry asks for something of the pubkey. -/
def CarriesKey (row : String × RelayEntry) (pk : String) : Prop :=
  pk ∈ row.2.authorsForRelay ∨ ∃ coord ∈ row.2.addressesForRelay, coord.pubkey = pk

/-- The interest names the pubkey and has no entry that carries it. -/
def Missing (c : SubscriptionCompiler) (pins : SortedSet String) (interest : LogicalInterest)
    (pk : String) : Prop :=
  Names interest pk ∧ ∀ row ∈ (partitionInterest c pins interest).entries, ¬ CarriesKey row pk

/-- Some pubkey that the interest tags has a known inbox. -/
def ReachesInbox (c : SubscriptionCompiler) (interest : LogicalInterest) : Prop :=
  ∃ tagged ∈ pTagValues interest, inboxRoute c interest.shape.pTagRouting tagged ≠ none

/-- A lane carries the pubkey as an author: one of its own, or the inbox of a tagged pubkey. -/
def CarriedAlong (c : SubscriptionCompiler) (pins : SortedSet String) (interest : LogicalInterest)
    (pk : String) : Prop :=
  pk ∈ interest.shape.authors ∧
    (authorLandings c pins interest pk ≠ [] ∨ ReachesInbox c interest)

/-- Each interest that strands the pubkey is followed by one that names it and has a valid hint. -/
def HintedAfter (c : SubscriptionCompiler) (pins : SortedSet String) (pk : String)
    (interests : List LogicalInterest) : Prop :=
  ∀ front i back, interests = front ++ i :: back → Strands c pins i pk → ∃ j ∈ back, Rescues j pk

theorem hintedAfter_iff {interests : List LogicalInterest} :
    HintedAfter c pins pk interests ↔ ¬ LastStranded c pins pk interests := by
  induction interests with
  | nil =>
    refine iff_of_true (fun front i back heq => ?_) id
    simp at heq
  | cons first rest ih =>
    rw [LastStranded, not_or, ← ih]
    constructor
    · intro h
      constructor
      · rintro ⟨hs, hno⟩
        obtain ⟨j, hj, hr⟩ := h [] first rest rfl hs
        exact hno j hj hr
      · exact fun front i back heq => h (first :: front) i back (by rw [heq]; rfl)
    · rintro ⟨hfirst, hrest⟩ front i back heq hs
      cases front with
      | nil =>
        obtain ⟨rfl, rfl⟩ := List.cons.inj heq
        by_contra hno
        exact hfirst ⟨hs, fun j hj hr => hno ⟨j, hj, hr⟩⟩
      | cons _ front =>
        obtain ⟨-, rfl⟩ := List.cons.inj heq
        exact hrest front i back rfl hs

theorem inboxRoute_nonempty {routing : PTagRouting} {tagged : String}
    {route : List String × RoutingSource} (h : inboxRoute c routing tagged = some route) :
    route.1 ≠ [] := by
  cases routing with
  | nip65ReadRelays =>
    cases hget : c.get tagged with
    | none => simp [inboxRoute, hget] at h
    | some =>
      simp only [inboxRoute, hget] at h
      split at h
      next hinbox =>
        obtain rfl := Option.some.inj h
        simp only [MailboxSnapshot.hasInboxRelays, Bool.or_eq_true, Bool.not_eq_true',
          List.isEmpty_eq_false_iff] at hinbox
        simp only [MailboxSnapshot.inboxRelays, ne_eq, List.append_eq_nil_iff]
        exact fun hnil => hinbox.elim (fun h => h hnil.1) fun h => h hnil.2
      · cases h
  | nip17DmRelays =>
    cases hget : c.dmInboxRelays tagged with
    | none => simp [inboxRoute, hget] at h
    | some =>
      simp only [inboxRoute, hget] at h
      split at h
      · cases h
      next hempty =>
        obtain rfl := Option.some.inj h
        exact fun hnil => hempty (List.isEmpty_iff.mpr hnil)

theorem outboxLanes_of_authorLandings (h : authorLandings c pins interest pk = []) :
    outboxLanes c pk = [] := by
  unfold authorLandings at h
  dsimp only at h
  by_cases hlanes : ((outboxLanes c pk ++ if isProfileResolution interest then
      lane pins.elems (.userConfigured .activePin) else []).isEmpty &&
      interest.isIndexerDiscovery) = true
  · simp only [Bool.and_eq_true, List.isEmpty_iff, List.append_eq_nil_iff] at hlanes
    exact hlanes.1.1
  · rw [if_neg hlanes] at h
    exact (List.append_eq_nil_iff.mp h).1

theorem landAuthor_authors (author : String) (landing : String × RoutingSource) (entry : CaseAEntry) :
    (landAuthor author landing entry).authors = insert author entry.authors ∧
      (landAuthor author landing entry).addresses = entry.addresses := by
  unfold landAuthor
  split <;> exact ⟨rfl, rfl⟩

theorem landCoord_authors (coord : NaddrCoord) (landing : String × RoutingSource)
    (entry : CaseAEntry) :
    (landCoord coord landing entry).authors = entry.authors ∧
      (landCoord coord landing entry).addresses = insert coord entry.addresses := by
  unfold landCoord
  split <;> exact ⟨rfl, rfl⟩

/-- Inbox entries carry the authors of their interest and no coordinates. -/
theorem carriesKey_inbox {authors : SortedSet String} :
    (∃ row ∈ (routePTagsToInbox c (pTagValues interest) authors (baseShapeOf interest)
        interest.lifecycle interest.id).entries, CarriesKey row pk) ↔
      pk ∈ authors ∧ ReachesInbox c interest := by
  constructor
  · intro ⟨row, hrow, hcarries⟩
    obtain ⟨tagged, htagged, hrow⟩ := List.mem_flatMap.mp hrow
    cases hroute : inboxRoute c (baseShapeOf interest).pTagRouting tagged with
    | none => simp [hroute] at hrow
    | some route =>
      rw [hroute] at hrow
      obtain ⟨relay, hrelay, rfl⟩ := List.mem_map.mp hrow
      have hauthor : pk ∈ authors := hcarries.elim id fun ⟨coord, hcoord, _⟩ =>
        absurd hcoord (not_mem_empty coord)
      refine ⟨hauthor, tagged, htagged, fun hnone => ?_⟩
      have hsame : inboxRoute c interest.shape.pTagRouting tagged = some route := hroute
      rw [hnone] at hsame
      cases hsame
  · intro ⟨hauthor, tagged, htagged, hne⟩
    obtain ⟨route, hroute⟩ := Option.ne_none_iff_exists'.mp hne
    obtain ⟨relay, hrelay⟩ := List.exists_mem_of_ne_nil _ (inboxRoute_nonempty hroute)
    have hroute' : inboxRoute c (baseShapeOf interest).pTagRouting tagged = some route := hroute
    let entry : RelayEntry :=
      { baseShape :=
          { baseShapeOf interest with tags := (baseShapeOf interest).tags.insert "p" {tagged} }
        authorsForRelay := authors
        addressesForRelay := ∅
        lifecycle := interest.lifecycle
        sources := {route.2}
        interestId := interest.id
        attribution := .default }
    refine ⟨(relay, entry), List.mem_flatMap.mpr ⟨tagged, htagged, ?_⟩, .inl hauthor⟩
    rw [hroute']
    exact List.mem_map_of_mem hrelay

theorem exists_landing {α β : Type} {items : List α} {landings : α → List β} {p : α → Prop} :
    (∃ x ∈ items, ∃ l ∈ landings x, p x) ↔ ∃ x ∈ items, landings x ≠ [] ∧ p x := by
  refine exists_congr fun x => and_congr_right fun _ => ?_
  constructor
  · intro ⟨l, hl, hp⟩
    exact ⟨List.ne_nil_of_mem hl, hp⟩
  · intro ⟨hne, hp⟩
    obtain ⟨l, hl⟩ := List.exists_mem_of_ne_nil _ hne
    exact ⟨l, hl, hp⟩

/-- Some entry of the interest carries the pubkey. -/
def Carried (routed : Routed) (pk : String) : Prop := ∃ row ∈ routed.entries, CarriesKey row pk

theorem missing_iff_not_carried :
    Missing c pins interest pk ↔
      Names interest pk ∧ ¬ Carried (partitionInterest c pins interest) pk := by
  simp only [Missing, Carried, not_exists, not_and]

theorem exists_named {p : String → Prop} :
    (∃ coord ∈ interest.shape.addresses.elems, p coord.pubkey ∧ coord.pubkey = pk) ↔
      pk ∈ coordPubkeys interest ∧ p pk := by
  constructor
  · rintro ⟨coord, hmem, hp, rfl⟩
    exact ⟨List.mem_map_of_mem hmem, hp⟩
  · intro ⟨hmem, hp⟩
    obtain ⟨coord, hcoord, rfl⟩ := List.mem_map.mp hmem
    exact ⟨coord, hcoord, hp, rfl⟩

theorem exists_hint {p : Prop} : (∃ hint ∈ validHints interest, p) ↔ validHints interest ≠ [] ∧ p := by
  constructor
  · exact fun ⟨hint, hmem, hp⟩ => ⟨List.ne_nil_of_mem hmem, hp⟩
  · intro ⟨hne, hp⟩
    obtain ⟨hint, hmem⟩ := List.exists_mem_of_ne_nil _ hne
    exact ⟨hint, hmem, hp⟩

theorem carried_routeAuthors :
    Carried (routeAuthors c pins interest) pk ↔
      (pk ∈ interest.shape.authors ∧
        (authorLandings c pins interest pk ≠ [] ∨ ReachesInbox c interest)) ∨
      (pk ∈ coordPubkeys interest ∧ outboxLanes c pk ≠ []) ∨
      (validHints interest ≠ [] ∧ Names interest pk) := by
  let Q : CaseAEntry → Prop := fun entry =>
    pk ∈ entry.authors ∨ ∃ coord ∈ entry.addresses, coord.pubkey = pk
  have hstart : ¬ Q .default := by
    rintro (h | ⟨coord, h, -⟩)
    · exact not_mem_empty pk h
    · exact not_mem_empty coord h
  have hauthor : ∀ author landing entry,
      Q (landAuthor author landing entry) ↔ Q entry ∨ author = pk := by
    intro author landing entry
    obtain ⟨hauthors, haddrs⟩ := landAuthor_authors author landing entry
    simp only [Q, hauthors, haddrs, mem_insert, eq_comm (a := pk)]
    rw [or_assoc, or_comm]
  have hcoord : ∀ coord landing entry,
      Q (landCoord coord landing entry) ↔ Q entry ∨ coord.pubkey = pk := by
    intro coord landing entry
    obtain ⟨hauthors, haddrs⟩ := landCoord_authors coord landing entry
    simp only [Q, hauthors, haddrs, mem_insert, exists_eq_or_imp]
    exact (or_congr_right or_comm).trans or_assoc.symm
  have hhint : ∀ hint entry, Q (landHint interest hint entry) ↔ Q entry ∨ Names interest pk := by
    intro hint entry
    simp only [Q, landHint, Names, coordPubkeys, mem_union, List.mem_map,
      mem_elems, or_and_right, exists_or]
    exact or_or_or_comm
  let perRelay := land Prod.fst .default (landHint interest) (validHints interest)
    (interest.shape.addresses.elems.foldl
      (fun m coord => land Prod.fst .default (landCoord coord) (outboxLanes c coord.pubkey) m)
      (interest.shape.authors.elems.foldl
        (fun m author => land Prod.fst .default (landAuthor author)
          (authorLandings c pins interest author) m) ∅))
  have hlanes : Holds Q perRelay ↔
      (pk ∈ interest.shape.authors ∧ authorLandings c pins interest pk ≠ []) ∨
      (pk ∈ coordPubkeys interest ∧ outboxLanes c pk ≠ []) ∨
      (validHints interest ≠ [] ∧ Names interest pk) := by
    simp only [perRelay]
    rw [holds_land hstart hhint, holds_foldl_land hstart hcoord, holds_foldl_land hstart hauthor,
      exists_landing, exists_landing, or_assoc, or_assoc]
    refine (or_iff_right not_holds_empty).trans (or_congr ?_ (or_congr ?_ exists_hint))
    · constructor
      · rintro ⟨author, hmem, hne, rfl⟩
        exact ⟨mem_elems.mp hmem, hne⟩
      · exact fun h => ⟨pk, mem_elems.mpr h.1, h.2, rfl⟩
    · exact exists_named (p := fun pk => outboxLanes c pk ≠ [])
  have hsplit : Carried (routeAuthors c pins interest) pk ↔
      Holds Q perRelay ∨ (pk ∈ interest.shape.authors ∧ ReachesInbox c interest) := by
    rw [holds_iff_rows, ← carriesKey_inbox]
    constructor
    · rintro ⟨row, hrow, hcarries⟩
      rcases List.mem_append.mp hrow with hrow | hrow
      · obtain ⟨entry, hentry, rfl⟩ := List.mem_map.mp hrow
        exact .inl ⟨entry, hentry, hcarries⟩
      · exact .inr ⟨row, hrow, hcarries⟩
    · rintro (⟨entry, hentry, hq⟩ | ⟨row, hrow, hcarries⟩)
      · exact ⟨_, List.mem_append_left _ (List.mem_map_of_mem hentry), hq⟩
      · exact ⟨row, List.mem_append_right _ hrow, hcarries⟩
  rw [hsplit, hlanes, and_or_left]
  exact or_right_comm

theorem carried_routeAddresses :
    Carried (routeAddresses c interest) pk ↔
      (pk ∈ coordPubkeys interest ∧ outboxLanes c pk ≠ []) ∨
      (validHints interest ≠ [] ∧ pk ∈ coordPubkeys interest) := by
  let Q : SortedSet NaddrCoord × SortedSet RoutingSource → Prop :=
    fun entry => ∃ coord ∈ entry.1, coord.pubkey = pk
  have hstart : ¬ Q (∅, ∅) := by
    rintro ⟨coord, h, -⟩
    exact not_mem_empty coord h
  have hcoord : ∀ (coord : NaddrCoord) (landing : String × RoutingSource)
      (entry : SortedSet NaddrCoord × SortedSet RoutingSource),
      Q (insert coord entry.1, insert landing.2 entry.2) ↔ Q entry ∨ coord.pubkey = pk := by
    intro coord landing entry
    simp only [Q, mem_insert, exists_eq_or_imp]
    exact or_comm
  have hhint : ∀ (hint : String × RoutingSource × HintOrigin)
      (entry : SortedSet NaddrCoord × SortedSet RoutingSource),
      Q (entry.1 ∪ interest.shape.addresses, insert hint.2.1 entry.2) ↔
        Q entry ∨ pk ∈ coordPubkeys interest := by
    intro hint entry
    simp only [Q, coordPubkeys, mem_union, List.mem_map, mem_elems,
      or_and_right, exists_or]
  have hrows : Carried (routeAddresses c interest) pk ↔
      Holds Q (land Prod.fst (∅, ∅)
        (fun hint entry => (entry.1 ∪ interest.shape.addresses, insert hint.2.1 entry.2))
        (validHints interest) (interest.shape.addresses.elems.foldl
          (fun m coord => land Prod.fst (∅, ∅)
            (fun landing entry => (insert coord entry.1, insert landing.2 entry.2))
            (outboxLanes c coord.pubkey) m) ∅)) := by
    rw [holds_iff_rows]
    constructor
    · rintro ⟨row, hrow, hcarries⟩
      obtain ⟨entry, hentry, rfl⟩ := List.mem_map.mp hrow
      exact ⟨entry, hentry, hcarries.resolve_left (not_mem_empty pk)⟩
    · rintro ⟨entry, hentry, hq⟩
      exact ⟨_, List.mem_map_of_mem hentry, .inr hq⟩
  rw [hrows, holds_land hstart hhint, holds_foldl_land hstart hcoord, or_iff_right not_holds_empty,
    exists_landing]
  exact or_congr (exists_named (p := fun pk => outboxLanes c pk ≠ [])) exists_hint

/-- An interest misses the pubkeys that it strands without a lane to carry them along. -/
theorem missing_iff : Missing c pins interest pk ↔
    Strands c pins interest pk ∧ ¬ CarriedAlong c pins interest pk := by
  rw [missing_iff_not_carried]
  unfold partitionInterest CarriedAlong Strands
  cases hpin : interest.shape.relayPin with
  | some pin =>
    -- the one entry carries every name
    have hcarried : Names interest pk → Carried (routeRelayPinned interest pin) pk := by
      intro hnames
      refine ⟨_, List.mem_singleton_self _, hnames.imp id fun h => ?_⟩
      obtain ⟨coord, hcoord, rfl⟩ := List.mem_map.mp h
      exact ⟨coord, mem_elems.mp hcoord, rfl⟩
    simpa using hcarried
  | none =>
    dsimp only
    split
    next hauthors =>
      rw [carried_routeAuthors, Names]
      have houtbox : authorLandings c pins interest pk = [] → outboxLanes c pk = [] :=
        outboxLanes_of_authorLandings
      simp only [ne_eq, true_and]
      grind
    next hauthors =>
      rw [not_not] at hauthors
      have hnot : pk ∉ interest.shape.authors := by
        rw [hauthors]
        exact not_mem_empty pk
      split
      next haddrs =>
        rw [carried_routeAddresses, Names]
        simp only [hnot, false_or, false_and, true_and]
        grind
      next haddrs =>
        rw [not_not] at haddrs
        have hnone : pk ∉ coordPubkeys interest := by
          rw [coordPubkeys, haddrs]
          exact List.not_mem_nil
        simp [Names, hnot, hnone]

/-- The unroutable authors are exactly the missing ones, if and only if a stranded pubkey is hinted
after each interest that strands it exactly when all of these carry it along anyway. -/
theorem unroutable_exact_iff (c : SubscriptionCompiler) (interests : List LogicalInterest)
    (ctx : CompileContext) :
    (∀ pk, pk ∈ (compileWithContext c interests ctx).unroutableAuthors ↔
      ∃ i ∈ interests, Missing c (activePinnedRelays interests) i pk) ↔
    ∀ pk, (∃ i ∈ interests, Strands c (activePinnedRelays interests) i pk) →
      (HintedAfter c (activePinnedRelays interests) pk interests ↔
        ∀ i ∈ interests, Strands c (activePinnedRelays interests) i pk →
          CarriedAlong c (activePinnedRelays interests) i pk) := by
  refine forall_congr' fun pk => ?_
  rw [mem_unroutableAuthors, hintedAfter_iff]
  have hmissing : (∃ i ∈ interests, Missing c (activePinnedRelays interests) i pk) ↔
      ¬ ∀ i ∈ interests, Strands c (activePinnedRelays interests) i pk →
        CarriedAlong c (activePinnedRelays interests) i pk := by
    simp only [missing_iff, not_forall, exists_prop]
  rw [hmissing]
  by_cases hstrands : ∃ i ∈ interests, Strands c (activePinnedRelays interests) i pk
  · rw [imp_iff_right hstrands, not_iff_comm]
    exact Iff.comm
  · refine iff_of_true (iff_of_false (fun h => hstrands h.exists_strands) ?_)
      fun h => absurd h hstrands
    exact not_not.mpr fun i hi hs => absurd ⟨i, hi, hs⟩ hstrands

/-- The hint of the second interest takes out an author that the first one misses. -/
theorem hinted_author_not_reported : ¬ ∀ (c : SubscriptionCompiler)
    (interests : List LogicalInterest) (ctx : CompileContext) (pk : String),
    pk ∈ (compileWithContext c interests ctx).unroutableAuthors ↔
      ∃ i ∈ interests, Missing c (activePinnedRelays interests) i pk := by
  intro hclaim
  have hreported := (hclaim offline
    [hintedNotes 1 "ghost" [], hintedNotes 2 "ghost" ["wss://hint"]] ⟨0, 0⟩ "ghost").mpr
    ⟨hintedNotes 1 "ghost" [], List.mem_cons_self, .inl (by decide +kernel), ?_⟩
  · revert hreported
    decide +kernel
  · have hnothing : (partitionInterest offline
        (activePinnedRelays [hintedNotes 1 "ghost" [], hintedNotes 2 "ghost" ["wss://hint"]])
        (hintedNotes 1 "ghost" [])).entries = [] := by
      decide +kernel
    rw [hnothing]
    exact fun row hrow => absurd hrow List.not_mem_nil

end PlannerUnroutable
