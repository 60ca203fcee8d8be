import Mathlib.Data.Fintype.EquivFin
import NostrMultiPlatform.PlannerShape

/-!
# The merge lattice

Eleven rules decide whether two shapes become one filter. A merged shape holds
the union of both sides in every dimension; where one side leaves a dimension
open and the other restricts it, the union restricts both.
-/
namespace PlannerMerge

open Sorted PlannerShape

/-- `DEFAULT_VALUE_LIMIT`. -/
def defaultValueLimit : Nat := 1000

inductive MergeOutcome
  | merged (shape : InterestShape)
  | refused
  deriving DecidableEq

/-- Equal kinds, or a wildcard that absorbs the other side. -/
def rule1Kinds (a b : InterestShape) : Option (SortedSet Nat) :=
  if a.kinds = ∅ ∨ b.kinds = ∅ then some ∅
  else if a.kinds = b.kinds then some a.kinds
  else none

/-- The same tag keys, and per key a union within the limit. -/
def rule2Tags (a b : InterestShape) (limit : Nat) : Option (SortedMap String (SortedSet String)) :=
  if a.tags.keys ≠ b.tags.keys then none
  else
    a.tags.traverse fun key av =>
      (b.tags.lookup key).bind fun bv => if limit < (av ∪ bv).card then none else some (av ∪ bv)

/-- The outer option is the refusal, the inner one the bound. -/
def rule3Since (a b : InterestShape) : Option (Option Nat) :=
  match a.since, b.since with
  | none, none => some none
  | some sa, some sb => some (some (min sa sb))
  | _, _ => none

def rule4Until (a b : InterestShape) : Option (Option Nat) :=
  match a.until_, b.until_ with
  | none, none => some none
  | some ua, some ub => some (some (max ua ub))
  | _, _ => none

def rule5Limit (a b : InterestShape) : Bool := a.limit.isNone && b.limit.isNone

def rule6Lifecycle (a b : InterestLifecycle) : Bool := a = b

def rule7EventIds (a b : InterestShape) (limit : Nat) : Option (SortedSet String) :=
  if limit < (a.eventIds ∪ b.eventIds).card then none else some (a.eventIds ∪ b.eventIds)

def rule8Addresses (a b : InterestShape) (limit : Nat) : Option (SortedSet NaddrCoord) :=
  if limit < (a.addresses ∪ b.addresses).card then none else some (a.addresses ∪ b.addresses)

def rule9RelayPin (a b : InterestShape) : Bool := a.relayPin = b.relayPin

def rule10Search (a b : InterestShape) : Bool := a.search = b.search

def merge (a b : InterestShape) (lifecycleA lifecycleB : InterestLifecycle) : MergeOutcome :=
  if rule6Lifecycle lifecycleA lifecycleB && rule9RelayPin a b && rule10Search a b &&
      a.pTagRouting = b.pTagRouting then
    match rule1Kinds a b, rule2Tags a b defaultValueLimit, rule3Since a b, rule4Until a b,
      rule5Limit a b, rule7EventIds a b defaultValueLimit, rule8Addresses a b defaultValueLimit with
    | some kinds, some tags, some since, some until_, true, some eventIds, some addresses =>
      .merged
        { authors := a.authors ∪ b.authors
          kinds := kinds
          tags := tags
          since := since
          until_ := until_
          limit := none
          search := a.search
          eventIds := eventIds
          addresses := addresses
          relayPin := a.relayPin
          pTagRouting := a.pTagRouting }
    | _, _, _, _, _, _, _ => .refused
  else .refused

/-- All that a merge says, rule by rule. -/
structure Merges (a b : InterestShape) (lifecycleA lifecycleB : InterestLifecycle)
    (s : InterestShape) : Prop where
  lifecycle : lifecycleA = lifecycleB
  relayPin : a.relayPin = b.relayPin ∧ s.relayPin = a.relayPin
  search : a.search = b.search ∧ s.search = a.search
  routing : a.pTagRouting = b.pTagRouting ∧ s.pTagRouting = a.pTagRouting
  authors : s.authors = a.authors ∪ b.authors
  kinds : rule1Kinds a b = some s.kinds
  tags : rule2Tags a b defaultValueLimit = some s.tags
  since : rule3Since a b = some s.since
  until_ : rule4Until a b = some s.until_
  limit : a.limit = none ∧ b.limit = none ∧ s.limit = none
  eventIds : rule7EventIds a b defaultValueLimit = some s.eventIds
  addresses : rule8Addresses a b defaultValueLimit = some s.addresses

variable {a b s x : InterestShape} {la lb : InterestLifecycle} {limit : Nat} {key : String}

theorem merge_eq_merged : merge a b la lb = .merged s ↔ Merges a b la lb s := by
  constructor
  · intro h
    unfold merge at h
    split at h
    next hsame =>
      simp only [rule6Lifecycle, rule9RelayPin, rule10Search, Bool.and_eq_true,
        decide_eq_true_eq] at hsame
      obtain ⟨⟨⟨hlife, hpin⟩, hsearch⟩, hrouting⟩ := hsame
      split at h
      next kinds tags since until_ eventIds addresses hkinds htags hsince huntil hlimit hids haddrs =>
        obtain rfl := MergeOutcome.merged.inj h
        simp only [rule5Limit, Bool.and_eq_true, Option.isNone_iff_eq_none] at hlimit
        exact ⟨hlife, ⟨hpin, rfl⟩, ⟨hsearch, rfl⟩, ⟨hrouting, rfl⟩, rfl, hkinds, htags, hsince,
          huntil, ⟨hlimit.1, hlimit.2, rfl⟩, hids, haddrs⟩
      · cases h
    · cases h
  · intro h
    have hlimit : rule5Limit a b = true := by simp [rule5Limit, h.limit.1, h.limit.2.1]
    have hsame : (rule6Lifecycle la lb && rule9RelayPin a b && rule10Search a b &&
        decide (a.pTagRouting = b.pTagRouting)) = true := by
      simp [rule6Lifecycle, rule9RelayPin, rule10Search, h.lifecycle, h.relayPin.1, h.search.1,
        h.routing.1]
    unfold merge
    rw [if_pos hsame, h.kinds, h.tags, h.since, h.until_, hlimit, h.eventIds, h.addresses]
    simp only [← h.authors, ← h.search.2, ← h.relayPin.2, ← h.routing.2, ← h.limit.2.2]

/-- The second shape is a fold that holds the first: every dimension of the first is part of it. -/
structure Joins (x s : InterestShape) : Prop where
  authors : ∀ p ∈ x.authors, p ∈ s.authors
  kinds : s.kinds = ∅ ∨ s.kinds = x.kinds
  keys : s.tags.keys = x.tags.keys
  tags : ∀ key xv, x.tags.lookup key = some xv →
    ∃ sv, s.tags.lookup key = some sv ∧ ∀ v ∈ xv, v ∈ sv
  since : ∀ t, s.since = some t → ∃ t', x.since = some t' ∧ t ≤ t'
  until_ : ∀ t, s.until_ = some t → ∃ t', x.until_ = some t' ∧ t' ≤ t
  eventIds : ∀ id ∈ x.eventIds, id ∈ s.eventIds
  addresses : ∀ c ∈ x.addresses, c ∈ s.addresses

theorem Joins.refl (x : InterestShape) : Joins x x :=
  ⟨fun _ h => h, .inr rfl, rfl, fun _ xv h => ⟨xv, h, fun _ hv => hv⟩,
    fun t h => ⟨t, h, le_refl t⟩, fun t h => ⟨t, h, le_refl t⟩, fun _ h => h, fun _ h => h⟩

theorem Joins.trans {x s t : InterestShape} (hxs : Joins x s) (hst : Joins s t) : Joins x t where
  authors p hp := hst.authors p (hxs.authors p hp)
  kinds := hst.kinds.elim .inl fun h => hxs.kinds.imp h.trans h.trans
  keys := hst.keys.trans hxs.keys
  tags key xv h := by
    obtain ⟨sv, hsv, hxv⟩ := hxs.tags key xv h
    obtain ⟨tv, htv, hsv'⟩ := hst.tags key sv hsv
    exact ⟨tv, htv, fun v hv => hsv' v (hxv v hv)⟩
  since b h := by
    obtain ⟨b', hb', hle⟩ := hst.since b h
    obtain ⟨b'', hb'', hle'⟩ := hxs.since b' hb'
    exact ⟨b'', hb'', hle.trans hle'⟩
  until_ b h := by
    obtain ⟨b', hb', hle⟩ := hst.until_ b h
    obtain ⟨b'', hb'', hle'⟩ := hxs.until_ b' hb'
    exact ⟨b'', hb'', hle'.trans hle⟩
  eventIds id h := hst.eventIds id (hxs.eventIds id h)
  addresses c h := hst.addresses c (hxs.addresses c h)

theorem rule7_eq {ids : SortedSet String} (h : rule7EventIds a b limit = some ids) :
    ids = a.eventIds ∪ b.eventIds := by
  unfold rule7EventIds at h
  split at h
  · cases h
  · exact (Option.some.inj h).symm

theorem rule8_eq {addresses : SortedSet NaddrCoord} (h : rule8Addresses a b limit = some addresses)
    : addresses = a.addresses ∪ b.addresses := by
  unfold rule8Addresses at h
  split at h
  · cases h
  · exact (Option.some.inj h).symm

/-- Per key the merged values are the union of both sides. -/
theorem rule2_lookup {tags : SortedMap String (SortedSet String)}
    (h : rule2Tags a b limit = some tags) :
    tags.keys = a.tags.keys ∧ tags.keys = b.tags.keys ∧
      ∀ key av bv, a.tags.lookup key = some av → b.tags.lookup key = some bv →
        tags.lookup key = some (av ∪ bv) := by
  unfold rule2Tags at h
  split at h
  · cases h
  next hkeys =>
    obtain ⟨hsame, hlookup⟩ := SortedMap.traverse_eq_some h
    refine ⟨hsame, hsame.trans (not_not.mp hkeys), fun key av bv hav hbv => ?_⟩
    have hmem : key ∈ tags.keys := hsame ▸ SortedMap.mem_keys.mpr ⟨av, hav⟩
    obtain ⟨v, hv⟩ := SortedMap.mem_keys.mp hmem
    have hrow := hlookup key
    rw [hav, Option.bind_some, hbv, Option.bind_some, hv] at hrow
    split at hrow
    · cases hrow
    · rw [hv, hrow]

/-- Both sides have every key of the merged tags. -/
theorem lookup_of_keys {x y : InterestShape} (h : x.tags.keys = y.tags.keys) {xv : SortedSet String}
    (hxv : x.tags.lookup key = some xv) : ∃ yv, y.tags.lookup key = some yv :=
  SortedMap.mem_keys.mp (h ▸ SortedMap.mem_keys.mpr ⟨xv, hxv⟩)

theorem Merges.keys (h : Merges a b la lb s) : a.tags.keys = b.tags.keys := by
  obtain ⟨ha, hb, -⟩ := rule2_lookup h.tags
  exact ha.symm.trans hb

/-- A merged lower bound is no later than either side's. -/
theorem rule3_le {since : Option Nat} (h : rule3Since a b = some since) :
    ∀ t, since = some t →
      (∃ t', a.since = some t' ∧ t ≤ t') ∧ ∃ t', b.since = some t' ∧ t ≤ t' := by
  intro t ht
  simp only [rule3Since] at h
  split at h
  · rw [ht] at h; cases h
  next sa sb hsa hsb =>
    have hmin : min sa sb = t := Option.some.inj ((Option.some.inj h).trans ht)
    exact ⟨⟨sa, hsa, by omega⟩, sb, hsb, by omega⟩
  · cases h

/-- A merged upper bound is no earlier than either side's. -/
theorem rule4_le {until_ : Option Nat} (h : rule4Until a b = some until_) :
    ∀ t, until_ = some t →
      (∃ t', a.until_ = some t' ∧ t' ≤ t) ∧ ∃ t', b.until_ = some t' ∧ t' ≤ t := by
  intro t ht
  simp only [rule4Until] at h
  split at h
  · rw [ht] at h; cases h
  next ua ub hua hub =>
    have hmax : max ua ub = t := Option.some.inj ((Option.some.inj h).trans ht)
    exact ⟨⟨ua, hua, by omega⟩, ub, hub, by omega⟩
  · cases h

theorem rule1_cases {kinds : SortedSet Nat} (h : rule1Kinds a b = some kinds) :
    (kinds = ∅ ∨ kinds = a.kinds) ∧ (kinds = ∅ ∨ kinds = b.kinds) := by
  simp only [rule1Kinds] at h
  split at h
  · exact ⟨.inl (Option.some.inj h).symm, .inl (Option.some.inj h).symm⟩
  · split at h
    next heq => exact ⟨.inr (Option.some.inj h).symm, .inr ((Option.some.inj h).symm.trans heq)⟩
    · cases h

theorem Merges.joins (h : Merges a b la lb s) : Joins a s ∧ Joins b s := by
  obtain ⟨hkeysA, hkeysB, hlookup⟩ := rule2_lookup h.tags
  have hids := rule7_eq h.eventIds
  have haddrs := rule8_eq h.addresses
  have hauthors := h.authors
  constructor
  · refine ⟨fun _ hp => hauthors ▸ SortedSet.mem_union.mpr (.inl hp), (rule1_cases h.kinds).1,
      hkeysA, fun key av hav => ?_, fun t ht => (rule3_le h.since t ht).1,
      fun t ht => (rule4_le h.until_ t ht).1,
      fun _ hid => hids ▸ SortedSet.mem_union.mpr (.inl hid),
      fun _ hc => haddrs ▸ SortedSet.mem_union.mpr (.inl hc)⟩
    obtain ⟨bv, hbv⟩ := lookup_of_keys h.keys hav
    exact ⟨_, hlookup key av bv hav hbv, fun v hv => SortedSet.mem_union.mpr (.inl hv)⟩
  · refine ⟨fun _ hp => hauthors ▸ SortedSet.mem_union.mpr (.inr hp), (rule1_cases h.kinds).2,
      hkeysB, fun key bv hbv => ?_, fun t ht => (rule3_le h.since t ht).2,
      fun t ht => (rule4_le h.until_ t ht).2,
      fun _ hid => hids ▸ SortedSet.mem_union.mpr (.inr hid),
      fun _ hc => haddrs ▸ SortedSet.mem_union.mpr (.inr hc)⟩
    obtain ⟨av, hav⟩ := lookup_of_keys h.keys.symm hbv
    exact ⟨_, hlookup key av bv hav hbv, fun v hv => SortedSet.mem_union.mpr (.inr hv)⟩

/-- No limit is set and every value set is within the bound: the shape merges with itself. -/
def capped (x : InterestShape) : Bool :=
  x.limit.isNone && x.eventIds.card ≤ defaultValueLimit && x.addresses.card ≤ defaultValueLimit &&
    x.tags.rows.all fun row => row.2.card ≤ defaultValueLimit

theorem capped_iff : capped x = true ↔
    x.limit = none ∧ x.eventIds.card ≤ defaultValueLimit ∧ x.addresses.card ≤ defaultValueLimit ∧
      ∀ key xv, x.tags.lookup key = some xv → xv.card ≤ defaultValueLimit := by
  have hrows : (∀ key xv, x.tags.lookup key = some xv → xv.card ≤ defaultValueLimit) ↔
      ∀ row ∈ x.tags.rows, row.2.card ≤ defaultValueLimit :=
    ⟨fun h row hrow => h row.1 row.2 (SortedMap.lookup_eq_some.mpr hrow),
      fun h key xv hrow => h (key, xv) (SortedMap.lookup_eq_some.mp hrow)⟩
  simp only [hrows, capped, Bool.and_eq_true, Option.isNone_iff_eq_none, decide_eq_true_eq,
    List.all_eq_true, and_assoc]

theorem rule7_card {ids : SortedSet String} (h : rule7EventIds a b limit = some ids) :
    ids.card ≤ limit := by
  have hids := rule7_eq h
  unfold rule7EventIds at h
  split at h
  · cases h
  · rw [hids]; omega

theorem rule8_card {addresses : SortedSet NaddrCoord}
    (h : rule8Addresses a b limit = some addresses) : addresses.card ≤ limit := by
  have haddrs := rule8_eq h
  unfold rule8Addresses at h
  split at h
  · cases h
  · rw [haddrs]; omega

theorem rule2_card {tags : SortedMap String (SortedSet String)}
    (h : rule2Tags a b limit = some tags) :
    ∀ key tv, tags.lookup key = some tv → tv.card ≤ limit := by
  intro key tv htv
  unfold rule2Tags at h
  split at h
  · cases h
  · have hrow := (SortedMap.traverse_eq_some h).2 key
    rw [htv] at hrow
    obtain ⟨av, -, hav⟩ := Option.bind_eq_some_iff.mp hrow.symm
    obtain ⟨bv, -, hbv⟩ := Option.bind_eq_some_iff.mp hav
    split at hbv
    · cases hbv
    · obtain rfl := Option.some.inj hbv
      omega

/-- Whatever joins a capped shape is capped, limits aside. -/
theorem Joins.capped {x s : InterestShape} (h : Joins x s) (hlimit : x.limit = none)
    (hs : capped s = true) : capped x = true := by
  obtain ⟨-, hids, haddrs, htags⟩ := capped_iff.mp hs
  refine capped_iff.mpr ⟨hlimit, (SortedSet.card_le_of_subset h.eventIds).trans hids,
    (SortedSet.card_le_of_subset h.addresses).trans haddrs, fun key xv hxv => ?_⟩
  obtain ⟨sv, hsv, hsub⟩ := h.tags key xv hxv
  exact (SortedSet.card_le_of_subset hsub).trans (htags key sv hsv)

theorem Merges.capped {a b s : InterestShape} {la lb : InterestLifecycle}
    (h : Merges a b la lb s) : capped a = true ∧ capped b = true ∧ capped s = true := by
  have hs : PlannerMerge.capped s = true := capped_iff.mpr
    ⟨h.limit.2.2, rule7_card h.eventIds, rule8_card h.addresses, rule2_card h.tags⟩
  exact ⟨h.joins.1.capped h.limit.1 hs, h.joins.2.capped h.limit.2.1 hs, hs⟩

/-- What the wire does not show and what decides which shapes meet at all. -/
structure SameClass (x s : InterestShape) : Prop where
  relayPin : s.relayPin = x.relayPin
  search : s.search = x.search
  routing : s.pTagRouting = x.pTagRouting
  since : s.since = none ↔ x.since = none
  until_ : s.until_ = none ↔ x.until_ = none

theorem SameClass.refl (x : InterestShape) : SameClass x x := ⟨rfl, rfl, rfl, Iff.rfl, Iff.rfl⟩

theorem SameClass.trans {x s t : InterestShape} (hxs : SameClass x s) (hst : SameClass s t) :
    SameClass x t :=
  ⟨hst.relayPin.trans hxs.relayPin, hst.search.trans hxs.search, hst.routing.trans hxs.routing,
    hst.since.trans hxs.since, hst.until_.trans hxs.until_⟩

theorem Merges.sameClass (h : Merges a b la lb s) : SameClass a s ∧ SameClass b s := by
  have hsince := h.since
  have huntil := h.until_
  have hsinceIff : (s.since = none ↔ a.since = none) ∧ (s.since = none ↔ b.since = none) := by
    simp only [rule3Since] at hsince
    split at hsince <;> simp_all [Option.some.injEq, eq_comm]
  have huntilIff : (s.until_ = none ↔ a.until_ = none) ∧ (s.until_ = none ↔ b.until_ = none) := by
    simp only [rule4Until] at huntil
    split at huntil <;> simp_all [Option.some.injEq, eq_comm]
  exact ⟨⟨h.relayPin.2, h.search.2, h.routing.2, hsinceIff.1, huntilIff.1⟩,
    ⟨h.relayPin.2.trans h.relayPin.1, h.search.2.trans h.search.1, h.routing.2.trans h.routing.1,
      hsinceIff.2, huntilIff.2⟩⟩

theorem union_eq_self {α : Type} [LinearOrder α] {s t : SortedSet α} (h : ∀ a ∈ t, a ∈ s) :
    s ∪ t = s :=
  SortedSet.ext fun a => by
    rw [SortedSet.mem_union]
    exact ⟨fun hor => hor.elim (fun ha => ha) (h a), .inl⟩

theorem rule2_absorb (h : Joins x s)
    (hcard : ∀ key sv, s.tags.lookup key = some sv → sv.card ≤ limit) :
    rule2Tags s x limit = some s.tags := by
  have hrow : ∀ key sv, s.tags.lookup key = some sv →
      ((x.tags.lookup key).bind fun xv => if limit < (sv ∪ xv).card then none else some (sv ∪ xv)) =
        some sv := by
    intro key sv hsv
    obtain ⟨xv, hxv⟩ := lookup_of_keys h.keys hsv
    obtain ⟨sv', hsv', hsub⟩ := h.tags key xv hxv
    obtain rfl : sv' = sv := Option.eq_some_unique hsv' hsv
    have hle := hcard key sv' hsv
    rw [hxv, Option.bind_some, union_eq_self hsub, if_neg (by omega)]
  unfold rule2Tags
  rw [if_neg (not_not.mpr h.keys)]
  obtain ⟨tags, htags⟩ := SortedMap.traverse_isSome (m := s.tags)
    (f := fun key sv => (x.tags.lookup key).bind fun xv =>
      if limit < (sv ∪ xv).card then none else some (sv ∪ xv))
    fun key sv hsv => ⟨sv, hrow key sv hsv⟩
  rw [htags]
  refine congrArg some (SortedMap.ext fun key => ?_)
  rw [(SortedMap.traverse_eq_some htags).2 key]
  cases hsv : s.tags.lookup key with
  | none => rfl
  | some sv => rw [Option.bind_some, hrow key sv hsv]

/-- A capped shape absorbs every shape that is part of it. -/
theorem merges_absorb {lifecycle : InterestLifecycle} (hjoins : Joins x s) (hclass : SameClass x s)
    (hlimit : x.limit = none) (hcapped : capped s = true) : Merges s x lifecycle lifecycle s := by
  obtain ⟨hnone, hids, haddrs, htags⟩ := capped_iff.mp hcapped
  have hkinds : rule1Kinds s x = some s.kinds := by
    by_cases hs : s.kinds = ∅
    · simp [rule1Kinds, hs]
    · have hx : s.kinds = x.kinds := hjoins.kinds.resolve_left hs
      simp [rule1Kinds, ← hx, hs]
  have hsince : rule3Since s x = some s.since := by
    cases hs : s.since with
    | none => simp [rule3Since, hs, hclass.since.mp hs]
    | some t =>
      obtain ⟨t', ht', hle⟩ := hjoins.since t hs
      simp [rule3Since, hs, ht', hle]
  have huntil : rule4Until s x = some s.until_ := by
    cases hs : s.until_ with
    | none => simp [rule4Until, hs, hclass.until_.mp hs]
    | some t =>
      obtain ⟨t', ht', hle⟩ := hjoins.until_ t hs
      simp [rule4Until, hs, ht', hle]
  refine ⟨rfl, ⟨hclass.relayPin, rfl⟩, ⟨hclass.search, rfl⟩, ⟨hclass.routing, rfl⟩,
    (union_eq_self hjoins.authors).symm, hkinds, rule2_absorb hjoins htags, hsince, huntil,
    ⟨hnone, hlimit, hnone⟩, ?_, ?_⟩
  · rw [rule7EventIds, union_eq_self hjoins.eventIds, if_neg (by omega)]
  · rw [rule8Addresses, union_eq_self hjoins.addresses, if_neg (by omega)]

/-- The time window of a shape is not empty. -/
def Window (x : InterestShape) : Prop := ∀ s ∈ x.since, ∀ u ∈ x.until_, s ≤ u

/-- An event of the shape can have the coordinate. -/
def Usable (x : InterestShape) (c : NaddrCoord) : Prop :=
  (x.authors = ∅ ∨ c.pubkey ∈ x.authors) ∧ (x.kinds = ∅ ∨ c.kind ∈ x.kinds)

/-- Some event of the shape has a coordinate with the property; without addresses it may have
any. -/
def Reaches (x : InterestShape) (p : NaddrCoord → Prop) : Prop :=
  Window x ∧ (x.addresses = ∅ ∨ ∃ c ∈ x.addresses.elems, Usable x c ∧ p c)

/-- The first shape leaves open a dimension that the second restricts, and has events beyond the
second's values there. -/
def Narrows (x y : InterestShape) : Prop :=
  (x.authors = ∅ ∧ y.authors ≠ ∅ ∧ Reaches x fun c => c.pubkey ∉ y.authors) ∨
  (x.eventIds = ∅ ∧ y.eventIds ≠ ∅ ∧ Reaches x fun _ => True) ∨
  (x.addresses = ∅ ∧ y.addresses ≠ ∅ ∧ Window x) ∨
  ∃ row ∈ y.tags.rows, queryable row.1 row.2 = true ∧ x.tags.lookup row.1 = some ∅ ∧
    Reaches x fun c => row.1 = "d" → c.dTag = "" ∨ c.dTag ∉ row.2

instance (x : InterestShape) : Decidable (Window x) :=
  inferInstanceAs (Decidable (∀ s ∈ x.since, ∀ u ∈ x.until_, s ≤ u))

instance (x : InterestShape) (c : NaddrCoord) : Decidable (Usable x c) :=
  inferInstanceAs (Decidable (_ ∧ _))

instance (x : InterestShape) (p : NaddrCoord → Prop) [DecidablePred p] : Decidable (Reaches x p) :=
  inferInstanceAs (Decidable (_ ∧ _))

instance (x y : InterestShape) : Decidable (Narrows x y) :=
  inferInstanceAs (Decidable (_ ∨ _ ∨ _ ∨ _))

theorem matchesEventWithId_iff {e : Event} :
    matchesEventWithId x e = true ↔
      (x.eventIds = ∅ ∨ e.id ∈ x.eventIds) ∧ (x.authors = ∅ ∨ e.author ∈ x.authors) ∧
      (x.kinds = ∅ ∨ e.kind ∈ x.kinds) ∧ (∀ t ∈ x.since, t ≤ e.createdAt) ∧
      (∀ t ∈ x.until_, e.createdAt ≤ t) ∧
      (x.addresses = ∅ ∨
        ∃ c ∈ x.addresses, addressCoordMatches c e.author e.kind e.tags = true) ∧
      ∀ key wanted, x.tags.lookup key = some wanted → queryable key wanted = true →
        carries e.tags key wanted = true := by
  have hrows : (∀ key wanted, x.tags.lookup key = some wanted → queryable key wanted = true →
      carries e.tags key wanted = true) ↔ ∀ row ∈ x.tags.rows, queryable row.1 row.2 = true →
        carries e.tags row.1 row.2 = true :=
    ⟨fun h row hrow => h row.1 row.2 (SortedMap.lookup_eq_some.mpr hrow),
      fun h key wanted hrow => h (key, wanted) (SortedMap.lookup_eq_some.mp hrow)⟩
  rw [hrows]
  simp only [matchesEventWithId, matchesEvent, Bool.and_eq_true, Bool.or_eq_true,
    decide_eq_true_eq, List.any_eq_true, List.all_eq_true, Bool.not_eq_true', Option.all_eq_true,
    SortedSet.mem_elems, and_assoc, ← imp_iff_not_or, Bool.eq_false_iff, ne_eq]
  rfl

theorem coord_of_match {c : NaddrCoord} {author : String} {kind : Nat} {tags : List (List String)}
    (h : addressCoordMatches c author kind tags = true) :
    kind = c.kind ∧ author = c.pubkey ∧ (c.dTag ≠ "" → dTagValue tags = some c.dTag) := by
  simp only [addressCoordMatches] at h
  split at h
  · cases h
  next hsame =>
    obtain ⟨hkind, hauthor⟩ := not_or.mp hsame
    refine ⟨not_not.mp hkind, not_not.mp hauthor, fun hd => ?_⟩
    rw [if_neg hd] at h
    exact of_decide_eq_true h

/-- A matched event shows that its shape reaches every property its coordinate has. -/
theorem reaches_of_matches {e : Event} (h : matchesEventWithId x e = true) {p : NaddrCoord → Prop}
    (hp : ∀ c, addressCoordMatches c e.author e.kind e.tags = true → p c) : Reaches x p := by
  obtain ⟨-, hauthors, hkinds, hsince, huntil, haddrs, -⟩ := matchesEventWithId_iff.mp h
  refine ⟨fun s hs u hu => (hsince s hs).trans (huntil u hu), haddrs.imp_right ?_⟩
  rintro ⟨c, hc, hmatch⟩
  refine ⟨c, hc, ?_, hp c hmatch⟩
  obtain ⟨hkind, hauthor, -⟩ := coord_of_match hmatch
  rw [hkind] at hkinds
  rw [hauthor] at hauthors
  exact ⟨hauthors, hkinds⟩

/-- A shape that is not narrowed by a fold it is part of is covered by it. -/
theorem covered_of_not_narrows (hjoins : Joins x s) (h : ¬ Narrows x s) {e : Event}
    (he : matchesEventWithId x e = true) : matchesEventWithId s e = true := by
  obtain ⟨hids, hauthors, hkinds, hsince, huntil, haddrs, htags⟩ := matchesEventWithId_iff.mp he
  simp only [Narrows, not_or, not_and, not_exists] at h
  obtain ⟨hnAuthors, hnIds, hnAddrs, hnTags⟩ := h
  refine matchesEventWithId_iff.mpr ⟨?_, ?_, ?_, fun t ht => ?_, fun t ht => ?_, ?_,
    fun key wanted hkey hquery => ?_⟩
  · by_cases hs : s.eventIds = ∅
    · exact .inl hs
    · refine .inr (hids.elim (fun hx => ?_) (hjoins.eventIds e.id))
      exact absurd (reaches_of_matches he fun _ _ => trivial) (hnIds hx hs)
  · by_cases hs : s.authors = ∅
    · exact .inl hs
    · refine .inr (hauthors.elim (fun hx => ?_) (hjoins.authors e.author))
      by_contra hout
      exact hnAuthors hx hs (reaches_of_matches he fun c hc => (coord_of_match hc).2.1 ▸ hout)
  · rcases hjoins.kinds with hs | hs
    · exact .inl hs
    · rwa [hs]
  · obtain ⟨t', ht', hle⟩ := hjoins.since t ht
    exact hle.trans (hsince t' ht')
  · obtain ⟨t', ht', hle⟩ := hjoins.until_ t ht
    exact (huntil t' ht').trans hle
  · by_cases hs : s.addresses = ∅
    · exact .inl hs
    · refine .inr (haddrs.elim (fun hx => ?_) fun ⟨c, hc, hmatch⟩ =>
        ⟨c, hjoins.addresses c hc, hmatch⟩)
      exact absurd (fun s hs u hu => (hsince s hs).trans (huntil u hu)) (hnAddrs hx hs)
  · obtain ⟨xv, hxv⟩ := lookup_of_keys hjoins.keys hkey
    obtain ⟨sv, hsv, hsub⟩ := hjoins.tags key xv hxv
    obtain rfl : sv = wanted := Option.eq_some_unique hsv hkey
    have hone : key.utf8ByteSize = 1 := by
      simp only [queryable, Bool.and_eq_true, decide_eq_true_eq] at hquery
      exact hquery.2
    have hmono : carries e.tags key xv = true → carries e.tags key sv = true := by
      simp only [carries, List.any_eq_true, Bool.and_eq_true, decide_eq_true_eq,
        Option.any_eq_true]
      rintro ⟨row, hrow, hfirst, v, hv, hmem⟩
      exact ⟨row, hrow, hfirst, v, hv, hsub v hmem⟩
    by_cases hx : xv = ∅
    · subst hx
      -- the open dimension is closed by the coordinate: its `d` value is wanted
      have hclosed := hnTags (key, sv) (SortedMap.lookup_eq_some.mp hsv) hquery hxv
      by_contra hno
      refine hclosed (reaches_of_matches he fun c hc hd => ?_)
      by_contra hboth
      obtain ⟨hsome, hin⟩ := not_or.mp hboth
      obtain ⟨row, hrow, hvalue⟩ := Option.bind_eq_some_iff.mp ((coord_of_match hc).2.2 hsome)
      have hfirst := List.find?_some hrow
      have hkey' : row[0]? = some key := by
        have hd' : key = "d" := hd
        rw [hd']
        simpa using hfirst
      refine hno ?_
      simp only [carries, List.any_eq_true, Bool.and_eq_true, decide_eq_true_eq,
        Option.any_eq_true]
      exact ⟨row, List.mem_of_find?_eq_some hrow, hkey', c.dTag, hvalue, not_not.mp hin⟩
    · refine hmono (htags key xv hxv ?_)
      simp [queryable, hx, hone]

/-- One row for every tag dimension the shape restricts. -/
def wantedRows (x : InterestShape) : List (List String) :=
  x.tags.rows.filterMap fun row => row.2.elems.head?.map fun v => [row.1, v]

/-- An event of the shape: the author, kind and id are given, the first tag row too. -/
def sample (x : InterestShape) (id author : String) (kind : Nat) (first : List String) : Event :=
  ⟨id, author, kind, x.since.getD 0, first :: wantedRows x⟩

/-- The sample lies between the bounds. -/
theorem sample_in_window (hwindow : Window x) (id author : String) (kind : Nat)
    (first : List String) :
    (∀ t ∈ x.since, t ≤ (sample x id author kind first).createdAt) ∧
      ∀ t ∈ x.until_, (sample x id author kind first).createdAt ≤ t := by
  cases hsince : x.since with
  | none => simp [sample, hsince]
  | some since =>
    refine ⟨fun t ht => ?_, fun t ht => ?_⟩
    · obtain rfl : since = t := Option.some.inj ht
      simp [sample, hsince]
    · simpa [sample, hsince] using hwindow since hsince t ht

theorem wantedRows_carries {wanted : SortedSet String} (hkey : x.tags.lookup key = some wanted)
    (hne : wanted ≠ ∅) : carries (wantedRows x) key wanted = true := by
  obtain ⟨v, hv⟩ := SortedSet.ne_empty_iff.mp hne
  obtain ⟨w, hw⟩ : ∃ w, wanted.elems.head? = some w :=
    Option.ne_none_iff_exists'.mp fun hnone => by
      rw [List.head?_eq_none_iff] at hnone
      exact List.not_mem_nil (hnone ▸ SortedSet.mem_elems.mpr hv)
  simp only [carries, List.any_eq_true, Bool.and_eq_true, decide_eq_true_eq, Option.any_eq_true]
  refine ⟨[key, w], List.mem_filterMap.mpr
    ⟨(key, wanted), SortedMap.lookup_eq_some.mp hkey, by simp [hw]⟩, rfl, w, rfl, ?_⟩
  exact SortedSet.mem_elems.mp (List.mem_of_mem_head? hw)

theorem sample_matches (hwindow : Window x) {id author : String} {kind : Nat} {first : List String}
    (hid : x.eventIds = ∅ ∨ id ∈ x.eventIds) (hauthor : x.authors = ∅ ∨ author ∈ x.authors)
    (hkind : x.kinds = ∅ ∨ kind ∈ x.kinds)
    (haddrs : x.addresses = ∅ ∨ ∃ c ∈ x.addresses, addressCoordMatches c author kind (first :: wantedRows x) = true)
    :
    matchesEventWithId x (sample x id author kind first) = true := by
  obtain ⟨hsince, huntil⟩ := sample_in_window hwindow id author kind first
  refine matchesEventWithId_iff.mpr ⟨hid, hauthor, hkind, hsince, huntil, haddrs,
    fun key wanted hkey hquery => ?_⟩
  have hne : wanted ≠ ∅ := by
    simp only [queryable, Bool.and_eq_true, decide_eq_true_eq] at hquery
    exact hquery.1
  rw [sample, carries, List.any_cons, ← carries, wantedRows_carries hkey hne, Bool.or_true]

/-- The first tag row of an event at the coordinate. -/
def coordRow (c : NaddrCoord) : List String := if c.dTag = "" then ["d"] else ["d", c.dTag]

theorem coordRow_matches (c : NaddrCoord) (rows : List (List String)) :
    addressCoordMatches c c.pubkey c.kind (coordRow c :: rows) = true := by
  by_cases hd : c.dTag = ""
  · simp [addressCoordMatches, coordRow, dTagValue, hd]
  · simp [addressCoordMatches, coordRow, dTagValue, hd]

/-- An event of the shape at a usable coordinate, under any id the shape allows. -/
theorem sample_at_coord (hwindow : Window x) {c : NaddrCoord} (hc : c ∈ x.addresses)
    (husable : Usable x c) {id : String} (hid : x.eventIds = ∅ ∨ id ∈ x.eventIds) :
    matchesEventWithId x (sample x id c.pubkey c.kind (coordRow c)) = true :=
  sample_matches hwindow hid husable.1 husable.2 (.inr ⟨c, hc, coordRow_matches c _⟩)

/-- An element of the set, or anything if the set is open. -/
theorem exists_allowed {α : Type} [LinearOrder α] (s : SortedSet α) (a : α) :
    ∃ b, s = ∅ ∨ b ∈ s := by
  by_cases h : s = ∅
  · exact ⟨a, .inl h⟩
  · obtain ⟨b, hb⟩ := SortedSet.ne_empty_iff.mp h
    exact ⟨b, .inr hb⟩

/-- A name that is not in the set. -/
theorem exists_fresh (s : SortedSet String) : ∃ a, a ∉ s := by
  obtain ⟨a, ha⟩ := Infinite.exists_notMem_finset s.elems.toFinset
  exact ⟨a, fun h => ha (List.mem_toFinset.mpr (SortedSet.mem_elems.mpr h))⟩

/-- A `d` row that puts an event at none of the coordinates. -/
theorem exists_dTag (addresses : SortedSet NaddrCoord) :
    ∃ d, ∀ c ∈ addresses, ∀ author kind rows,
      addressCoordMatches c author kind (["d", d] :: rows) = false := by
  obtain ⟨d, hd⟩ := exists_fresh (SortedSet.ofList ("" :: addresses.elems.map NaddrCoord.dTag))
  simp only [SortedSet.mem_ofList, List.mem_cons, List.mem_map, SortedSet.mem_elems, not_or,
    not_exists, not_and] at hd
  refine ⟨d, fun c hc author kind rows => Bool.eq_false_iff.mpr fun hcoord => ?_⟩
  have hvalue : dTagValue (["d", d] :: rows) = some d := rfl
  by_cases hempty : c.dTag = ""
  · simp only [addressCoordMatches, hvalue, if_pos hempty, Option.all_some] at hcoord
    split at hcoord
    · cases hcoord
    · exact hd.1 (of_decide_eq_true hcoord)
  · have hsame := (coord_of_match hcoord).2.2 hempty
    exact hd.2 c hc (Option.eq_some_unique hsame hvalue)

/-- Where a shape reaches a property, it has an event whose author is outside the given set, or
whose coordinate has the property. -/
theorem exists_sample {p : NaddrCoord → Prop} (h : Reaches x p) (id : String)
    (hid : x.eventIds = ∅ ∨ id ∈ x.eventIds) {author : String}
    (hauthor : x.authors = ∅ ∨ author ∈ x.authors) :
    ∃ kind, (x.addresses = ∅ ∧ matchesEventWithId x (sample x id author kind ["d"]) = true) ∨
      ∃ c, p c ∧ matchesEventWithId x (sample x id c.pubkey kind (coordRow c)) = true := by
  obtain ⟨hwindow, haddrs⟩ := h
  by_cases hopen : x.addresses = ∅
  · obtain ⟨kind, hkind⟩ := exists_allowed x.kinds 0
    exact ⟨kind, .inl ⟨hopen, sample_matches hwindow hid hauthor hkind (.inl hopen)⟩⟩
  · obtain ⟨c, hc, husable, hp⟩ := haddrs.resolve_left hopen
    exact ⟨c.kind, .inr ⟨c, hp, sample_at_coord hwindow hc husable hid⟩⟩

/-- No sampled row answers a dimension that the shape leaves open. -/
theorem not_carries_sample (hopen : x.tags.lookup key = some ∅) {first : List String}
    {wanted : SortedSet String} (hfirst : first[0]? = some key → ∀ v ∈ first[1]?, v ∉ wanted) :
    carries (first :: wantedRows x) key wanted = false := by
  rw [Bool.eq_false_iff]
  intro h
  simp only [carries, List.any_eq_true, Bool.and_eq_true, decide_eq_true_eq,
    Option.any_eq_true] at h
  obtain ⟨row, hrow, hkey, v, hv, hmem⟩ := h
  rcases List.mem_cons.mp hrow with rfl | hrow
  · exact hfirst hkey v hv hmem
  · obtain ⟨⟨key', values⟩, hvalues, hhead⟩ := List.mem_filterMap.mp hrow
    obtain ⟨w, hw, rfl⟩ := Option.map_eq_some_iff.mp hhead
    obtain rfl : key' = key := Option.some.inj hkey
    have hsame : values = ∅ :=
      Option.some.inj ((SortedMap.lookup_eq_some.mpr hvalues).symm.trans hopen)
    subst hsame
    cases hw

/-- A shape that is narrowed has an event its fold misses. -/
theorem exists_uncovered (h : Narrows x s) :
    ∃ e, matchesEventWithId x e = true ∧ matchesEventWithId s e = false := by
  rcases h with ⟨hx, hs, hreach⟩ | ⟨hx, hs, hreach⟩ | ⟨hx, hs, hwindow⟩ |
    ⟨⟨key, wanted⟩, hrow, hquery, hx, hreach⟩
  · obtain ⟨id, hid⟩ := exists_allowed x.eventIds ""
    obtain ⟨author, hauthor⟩ := exists_fresh s.authors
    have hmiss : ∀ e : Event, e.author ∉ s.authors → matchesEventWithId s e = false := by
      intro e he
      rw [Bool.eq_false_iff]
      exact fun hmatch => (matchesEventWithId_iff.mp hmatch).2.1.elim hs he
    obtain ⟨kind, ⟨-, hmatch⟩ | ⟨c, hc, hmatch⟩⟩ := exists_sample hreach id hid (.inl hx)
    · exact ⟨_, hmatch, hmiss _ hauthor⟩
    · exact ⟨_, hmatch, hmiss _ hc⟩
  · obtain ⟨id, hid⟩ := exists_fresh s.eventIds
    obtain ⟨author, hauthor⟩ := exists_allowed x.authors ""
    have hmiss : ∀ e : Event, e.id ∉ s.eventIds → matchesEventWithId s e = false := by
      intro e he
      rw [Bool.eq_false_iff]
      exact fun hmatch => (matchesEventWithId_iff.mp hmatch).1.elim hs he
    obtain ⟨kind, ⟨-, hmatch⟩ | ⟨c, -, hmatch⟩⟩ := exists_sample hreach id (.inl hx) hauthor
    · exact ⟨_, hmatch, hmiss _ hid⟩
    · exact ⟨_, hmatch, hmiss _ hid⟩
  · obtain ⟨id, hid⟩ := exists_allowed x.eventIds ""
    obtain ⟨author, hauthor⟩ := exists_allowed x.authors ""
    obtain ⟨kind, hkind⟩ := exists_allowed x.kinds 0
    obtain ⟨d, hd⟩ := exists_dTag s.addresses
    refine ⟨sample x id author kind ["d", d], sample_matches hwindow hid hauthor hkind (.inl hx),
      ?_⟩
    rw [Bool.eq_false_iff]
    intro hmatch
    obtain ⟨c, hc, hcoord⟩ := (matchesEventWithId_iff.mp hmatch).2.2.2.2.2.1.resolve_left hs
    exact absurd hcoord (Bool.eq_false_iff.mp (hd c hc author kind _))
  · obtain ⟨id, hid⟩ := exists_allowed x.eventIds ""
    obtain ⟨author, hauthor⟩ := exists_allowed x.authors ""
    have hmiss : ∀ e : Event, carries e.tags key wanted = false →
        matchesEventWithId s e = false := by
      intro e he
      rw [Bool.eq_false_iff]
      intro hmatch
      have := (matchesEventWithId_iff.mp hmatch).2.2.2.2.2.2 key wanted
        (SortedMap.lookup_eq_some.mpr hrow) hquery
      rw [he] at this
      cases this
    obtain ⟨kind, ⟨-, hmatch⟩ | ⟨c, hc, hmatch⟩⟩ := exists_sample hreach id hid hauthor
    · exact ⟨_, hmatch, hmiss _ (not_carries_sample hx fun _ v hv => by cases hv)⟩
    · refine ⟨_, hmatch, hmiss _ (not_carries_sample hx fun hkey v hv => ?_)⟩
      by_cases hd : c.dTag = ""
      · simp [coordRow, hd] at hv
      · simp only [coordRow, if_neg hd] at hkey hv
        obtain rfl : "d" = key := by simpa using hkey
        obtain rfl : c.dTag = v := by simpa using hv
        exact (hc rfl).resolve_left hd

/-- A fold covers a shape that is part of it exactly when it does not narrow it. -/
theorem covered_iff (h : Joins x s) :
    (∀ e, matchesEventWithId x e = true → matchesEventWithId s e = true) ↔ ¬ Narrows x s := by
  constructor
  · intro hall hnarrows
    obtain ⟨e, hx, hs⟩ := exists_uncovered hnarrows
    rw [hall e hx] at hs
    cases hs
  · exact fun hno e he => covered_of_not_narrows h hno he

/-- Narrowing reads the second shape only where the first is open. -/
theorem narrows_congr {x y s : InterestShape} (hauthors : x.authors = ∅ → s.authors = y.authors)
    (hids : x.eventIds = ∅ → s.eventIds = y.eventIds)
    (haddrs : x.addresses = ∅ → s.addresses = y.addresses)
    (htags : ∀ key, x.tags.lookup key = some ∅ → s.tags.lookup key = y.tags.lookup key) :
    Narrows x s ↔ Narrows x y := by
  refine or_congr (and_congr_right fun hx => by rw [hauthors hx]) (or_congr
    (and_congr_right fun hx => by rw [hids hx]) (or_congr
    (and_congr_right fun hx => by rw [haddrs hx]) ?_))
  have hrow : ∀ row : String × SortedSet String, x.tags.lookup row.1 = some ∅ →
      (row ∈ s.tags.rows ↔ row ∈ y.tags.rows) := by
    intro row hopen
    have hs := SortedMap.lookup_eq_some (m := s.tags) (k := row.1) (v := row.2)
    have hy := SortedMap.lookup_eq_some (m := y.tags) (k := row.1) (v := row.2)
    rw [htags row.1 hopen] at hs
    exact hs.symm.trans hy
  constructor
  · rintro ⟨row, hmem, hquery, hopen, hreach⟩
    exact ⟨row, (hrow row hopen).mp hmem, hquery, hopen, hreach⟩
  · rintro ⟨row, hmem, hquery, hopen, hreach⟩
    exact ⟨row, (hrow row hopen).mpr hmem, hquery, hopen, hreach⟩

theorem Merges.narrows_iff (h : Merges a b la lb s) :
    (Narrows a s ↔ Narrows a b) ∧ (Narrows b s ↔ Narrows b a) := by
  have hids := rule7_eq h.eventIds
  have haddrs := rule8_eq h.addresses
  have hlookup := (rule2_lookup h.tags).2.2
  constructor
  · refine narrows_congr (fun hx => ?_) (fun hx => ?_) (fun hx => ?_) fun key hopen => ?_
    · rw [h.authors, hx, SortedSet.empty_union]
    · rw [hids, hx, SortedSet.empty_union]
    · rw [haddrs, hx, SortedSet.empty_union]
    · obtain ⟨bv, hbv⟩ := lookup_of_keys h.keys hopen
      rw [hlookup key ∅ bv hopen hbv, hbv, SortedSet.empty_union]
  · refine narrows_congr (fun hx => ?_) (fun hx => ?_) (fun hx => ?_) fun key hopen => ?_
    · rw [h.authors, hx, SortedSet.union_empty]
    · rw [hids, hx, SortedSet.union_empty]
    · rw [haddrs, hx, SortedSet.union_empty]
    · obtain ⟨av, hav⟩ := lookup_of_keys h.keys.symm hopen
      rw [hlookup key av ∅ hav hopen, hav, SortedSet.union_empty]

/-- A merged shape covers both inputs exactly when neither leaves open, with events beyond the
other's values, a dimension that the other restricts. -/
theorem merge_superset_iff {a b s : InterestShape} {la lb : InterestLifecycle}
    (h : merge a b la lb = .merged s) :
    (∀ e, matchesEventWithId a e = true ∨ matchesEventWithId b e = true →
        matchesEventWithId s e = true) ↔ ¬ Narrows a b ∧ ¬ Narrows b a := by
  have hmerges := merge_eq_merged.mp h
  obtain ⟨hjoinA, hjoinB⟩ := hmerges.joins
  obtain ⟨hnarrowsA, hnarrowsB⟩ := hmerges.narrows_iff
  rw [← hnarrowsA, ← hnarrowsB, ← covered_iff hjoinA, ← covered_iff hjoinB]
  constructor
  · intro hall
    exact ⟨fun e he => hall e (.inl he), fun e he => hall e (.inr he)⟩
  · rintro ⟨ha, hb⟩ e (he | he)
    · exact ha e he
    · exact hb e he

/-- Text notes of one author. -/
def notesOf (author : String) : InterestShape :=
  { InterestShape.default with kinds := {1}, authors := {author} }

/-- Text notes of anyone. -/
def allNotes : InterestShape := { InterestShape.default with kinds := {1} }

theorem merge_superset_two_authors :
    merge (notesOf "alice") (notesOf "bob") .tailing .tailing =
        .merged { InterestShape.default with kinds := {1}, authors := {"alice", "bob"} } ∧
      (¬ Narrows (notesOf "alice") (notesOf "bob") ∧
        ¬ Narrows (notesOf "bob") (notesOf "alice")) ∧
      ∀ e, matchesEventWithId (notesOf "alice") e = true ∨
          matchesEventWithId (notesOf "bob") e = true →
        matchesEventWithId
          { InterestShape.default with kinds := {1}, authors := {"alice", "bob"} } e = true := by
  have hmerge : merge (notesOf "alice") (notesOf "bob") .tailing .tailing =
      .merged { InterestShape.default with kinds := {1}, authors := {"alice", "bob"} } := by
    decide +kernel
  have hno : ¬ Narrows (notesOf "alice") (notesOf "bob") ∧
      ¬ Narrows (notesOf "bob") (notesOf "alice") := by
    decide +kernel
  exact ⟨hmerge, hno, (merge_superset_iff hmerge).mpr hno⟩

/-- Notes of anyone, merged with the notes of one author, lose everyone else's. -/
theorem merge_narrows_open_authors : ¬ ∀ (a b s : InterestShape) (la lb : InterestLifecycle),
    merge a b la lb = .merged s →
      ∀ e, matchesEventWithId a e = true ∨ matchesEventWithId b e = true →
        matchesEventWithId s e = true := by
  intro hclaim
  have hmerge : merge allNotes (notesOf "alice") .tailing .tailing = .merged (notesOf "alice") := by
    decide +kernel
  have hmatch : matchesEventWithId allNotes ⟨"note", "bob", 1, 0, []⟩ = true := by decide +kernel
  have hmiss : matchesEventWithId (notesOf "alice") ⟨"note", "bob", 1, 0, []⟩ = false := by
    decide +kernel
  have hcovered := hclaim _ _ _ _ _ hmerge _ (.inl hmatch)
  rw [hmiss] at hcovered
  cases hcovered

end PlannerMerge
