import Mathlib.Data.List.Lex
import Mathlib.Order.WithBot
import NostrMultiPlatform.FirstFit
import NostrMultiPlatform.PlannerMerge
import NostrMultiPlatform.PlannerPartition

/-!
# Compilation

The entries of all interests are collected per relay, sorted by a canonical key
and folded, first fit, through the merge lattice. The plan is identified by a
digest of the interests in the order of their ids and of the mailboxes they read.
-/
namespace PlannerCompile

open Sorted PlannerShape PlannerPlan PlannerPartition

structure CompileContext where
  indexerSetVersion : Nat
  userConfigVersion : Nat
  deriving DecidableEq, Repr

def mergeLatticeVersion : Nat := 1

abbrev CanonicalMergeKey : Type :=
  Nat ×ₗ List Nat ×ₗ WithBot Nat ×ₗ WithBot Nat ×ₗ WithBot Nat ×ₗ List String ×ₗ
    List (String ×ₗ List String) ×ₗ List String ×ₗ List NaddrCoord ×ₗ WithBot String ×ₗ Nat

def lifecycleOrd : InterestLifecycle → Nat
  | .tailing => 0
  | .oneShot => 1

/-- Every field but the search, in the order of comparison; an absent bound comes first. -/
def canonicalMergeKey (shape : InterestShape) (lifecycle : InterestLifecycle) : CanonicalMergeKey :=
  toLex (lifecycleOrd lifecycle, toLex (shape.kinds.elems, toLex (shape.since, toLex (shape.until_,
    toLex (shape.limit, toLex (shape.authors.elems,
    toLex (shape.tags.rows.map fun row => toLex (row.1, row.2.elems),
    toLex (shape.eventIds.elems, toLex (shape.addresses.elems, toLex (shape.relayPin,
    shape.pTagRouting.planHashTag))))))))))

/-- What the collection of entries has gathered so far. -/
structure Collected where
  relayEntries : SortedMap String (List RelayEntry)
  unroutable : SortedSet String
  probes : List String

def pushEntry (relayEntries : SortedMap String (List RelayEntry)) (row : String × RelayEntry) :
    SortedMap String (List RelayEntry) :=
  relayEntries.alter row.1 fun entries => entries.getD [] ++ [row.2]

def Collected.add (acc : Collected) (routed : Routed) : Collected :=
  { relayEntries := routed.entries.foldl pushEntry acc.relayEntries
    unroutable := (acc.unroutable ∪ SortedSet.ofList routed.stranded).removeAll routed.rescued
    probes := acc.probes ++ routed.probes }

variable (c : SubscriptionCompiler) (interests : List LogicalInterest)

/-- Every relay that some interest pins. -/
def activePinnedRelays : SortedSet String :=
  SortedSet.ofList (interests.filterMap fun interest => interest.shape.relayPin)

def collect : Collected :=
  interests.foldl
    (fun acc interest => acc.add (partitionInterest c (activePinnedRelays interests) interest))
    ⟨∅, ∅, []⟩

structure Shaped where
  shape : InterestShape
  lifecycle : InterestLifecycle
  sources : SortedSet RoutingSource
  interestId : Nat
  attribution : RelayAttribution
  deriving DecidableEq

def shapedOf (entry : RelayEntry) : Shaped :=
  ⟨intoShape entry, entry.lifecycle, entry.sources, entry.interestId, entry.attribution⟩

def Shaped.key (e : Shaped) : CanonicalMergeKey := canonicalMergeKey e.shape e.lifecycle

/-- The canonical order; entries of one key keep the order in which they arrived. -/
def canonicalSort (shaped : List Shaped) : List Shaped :=
  shaped.insertionSort fun a b => a.key ≤ b.key

/-- A filter in the making: the merged shape, its lifecycle and the interests behind it. -/
structure Group where
  shape : InterestShape
  lifecycle : InterestLifecycle
  ids : List Nat
  deriving DecidableEq

def start (e : Shaped) : Group := ⟨e.shape, e.lifecycle, [e.interestId]⟩

def fit (e : Shaped) (g : Group) : Option Group :=
  match PlannerMerge.merge g.shape e.shape g.lifecycle e.lifecycle with
  | .merged shape =>
    some ⟨shape, g.lifecycle, if e.interestId ∈ g.ids then g.ids else g.ids ++ [e.interestId]⟩
  | .refused => none

def groups (shaped : List Shaped) : List Group := FirstFit.pack start fit shaped

def subShapeOf (g : Group) : SubShape := ⟨g.shape, g.ids, canonicalFilterHash g.shape⟩

def relayPlan (relayUrl : String) (entries : List RelayEntry) : RelayPlan :=
  let shaped := canonicalSort (entries.map shapedOf)
  { relayUrl := relayUrl
    roleTags := shaped.foldl (fun tags e => tags ∪ e.sources) ∅
    subShapes := (groups shaped).map subShapeOf
    attribution := shaped.foldl (fun a e => a.extend e.attribution) .default }

/-- `to_le_bytes` of a 64-bit counter. -/
def leBytes (n : Nat) : List UInt8 := (List.range 8).map fun i => UInt8.ofNat (n / 256 ^ i)

def stringBytes (s : String) : List UInt8 := utf8 s.toList

def scopeBytes : InterestScope → List UInt8
  | .activeAccount => [0]
  | .account pubkey => stringBytes pubkey ++ [1]
  | .global => [2]

def interestBytes (interest : LogicalInterest) : List UInt8 :=
  leBytes interest.id ++ utf8 (shapeJson interest.shape) ++
    [UInt8.ofNat interest.shape.pTagRouting.planHashTag] ++ scopeBytes interest.scope ++
    [UInt8.ofNat (lifecycleOrd interest.lifecycle)]

def referencedPubkeys : SortedSet String :=
  SortedSet.ofList (interests.flatMap fun interest =>
    interest.shape.authors.elems ++ coordPubkeys interest ++ (pTagValues interest).elems)

def dmRelayReferencedPubkeys : SortedSet String :=
  SortedSet.ofList ((interests.filter fun interest =>
    interest.shape.pTagRouting = .nip17DmRelays).flatMap fun interest => (pTagValues interest).elems)

def sortedBytes (relays : List String) : List UInt8 :=
  (relays.insertionSort (· ≤ ·)).flatMap stringBytes

def mailboxBytes (dmReferenced : SortedSet String) (pubkey : String) : List UInt8 :=
  ((c.get pubkey).elim [] fun mailbox =>
    stringBytes pubkey ++ sortedBytes mailbox.writeRelays ++ sortedBytes mailbox.readRelays ++
      sortedBytes mailbox.bothRelays) ++
  if pubkey ∈ dmReferenced then
    (c.dmInboxRelays pubkey).elim [] fun relays => stringBytes "dm-relays" ++ sortedBytes relays
  else []

def computePlanId (c : SubscriptionCompiler) (ctx : CompileContext) (latticeVersion : Nat) :
    String :=
  hex16 (fnv (((interests.insertionSort fun a b => a.id ≤ b.id).flatMap interestBytes) ++
    (referencedPubkeys interests).elems.flatMap
      (mailboxBytes c (dmRelayReferencedPubkeys interests)) ++
    leBytes ctx.indexerSetVersion ++ leBytes ctx.userConfigVersion ++
    [UInt8.ofNat latticeVersion]))

def compileWithContext (ctx : CompileContext) : CompiledPlan :=
  let collected := collect c interests
  { planId := computePlanId interests c ctx mergeLatticeVersion
    perRelay := collected.relayEntries.mapRows relayPlan
    unroutableAuthors := collected.unroutable }

/-- The entries that reach a relay, in the order of the interests. -/
def entriesAt (relay : String) : List RelayEntry :=
  ((interests.flatMap fun interest =>
    (partitionInterest c (activePinnedRelays interests) interest).entries).filter
      fun row => row.1 = relay).map Prod.snd

theorem lookup_foldl_pushEntry (rows : List (String × RelayEntry))
    (m : SortedMap String (List RelayEntry)) (relay : String) :
    ((rows.foldl pushEntry m).lookup relay).getD [] =
        (m.lookup relay).getD [] ++ ((rows.filter fun row => row.1 = relay).map Prod.snd) ∧
      ((rows.foldl pushEntry m).lookup relay = none ↔
        m.lookup relay = none ∧ rows.filter (fun row => row.1 = relay) = []) := by
  induction rows generalizing m with
  | nil => simp
  | cons row _ ih =>
    obtain ⟨hentries, hnone⟩ := ih (pushEntry m row)
    rw [List.foldl_cons, hentries, hnone]
    by_cases h : row.1 = relay
    · simp [pushEntry, h]
    · have h' : ¬ relay = row.1 := fun heq => h heq.symm
      simp [pushEntry, h, h']

theorem collect_relayEntries (c : SubscriptionCompiler) (interests : List LogicalInterest) :
    (collect c interests).relayEntries = (interests.flatMap fun interest =>
      (partitionInterest c (activePinnedRelays interests) interest).entries).foldl pushEntry ∅ := by
  have hfold : ∀ (pins : SortedSet String) (rest : List LogicalInterest) (acc : Collected),
      (rest.foldl (fun acc i => acc.add (partitionInterest c pins i)) acc).relayEntries =
        (rest.flatMap fun i => (partitionInterest c pins i).entries).foldl pushEntry
          acc.relayEntries := by
    intro pins rest
    induction rest with
    | nil => exact fun _ => rfl
    | cons _ _ ih =>
      intro acc
      rw [List.foldl_cons, ih, List.flatMap_cons, List.foldl_append]
      rfl
  exact hfold _ interests _

/-- A relay is in the plan if it has entries, and its plan is made from them. -/
theorem lookup_perRelay (c : SubscriptionCompiler) (interests : List LogicalInterest)
    (ctx : CompileContext) (relay : String) :
    (compileWithContext c interests ctx).perRelay.lookup relay =
      if entriesAt c interests relay = [] then none
      else some (relayPlan relay (entriesAt c interests relay)) := by
  simp only [compileWithContext, SortedMap.lookup_mapRows]
  obtain ⟨hentries, hnone⟩ := lookup_foldl_pushEntry
    (interests.flatMap fun interest =>
      (partitionInterest c (activePinnedRelays interests) interest).entries) ∅ relay
  rw [← collect_relayEntries] at hentries hnone
  simp only [SortedMap.lookup_empty, Option.getD_none, List.nil_append] at hentries
  simp only [SortedMap.lookup_empty, true_and] at hnone
  cases hlookup : (collect c interests).relayEntries.lookup relay with
  | none =>
    have hfilter := hnone.mp hlookup
    rw [if_pos (by simp only [entriesAt, hfilter, List.map_nil])]
    rfl
  | some =>
    rw [hlookup, Option.getD_some] at hentries
    have hsome : entriesAt c interests relay ≠ [] := by
      intro hnil
      rw [hnone.mpr (List.map_eq_nil_iff.mp hnil)] at hlookup
      cases hlookup
    rw [if_neg hsome]
    exact congrArg (fun es => some (relayPlan relay es)) hentries

theorem entriesAt_eq_nil {c : SubscriptionCompiler} {interests : List LogicalInterest}
    {relay : String} (h : ∀ row ∈ interests.flatMap fun interest =>
      (partitionInterest c (activePinnedRelays interests) interest).entries, row.1 ≠ relay) :
    entriesAt c interests relay = [] := by
  rw [entriesAt, List.map_eq_nil_iff, List.filter_eq_nil_iff]
  exact fun row hrow heq => h row hrow (of_decide_eq_true heq)

theorem fit_eq_some {e : Shaped} {g g' : Group} (h : fit e g = some g') :
    PlannerMerge.Merges g.shape e.shape g.lifecycle e.lifecycle g'.shape ∧ g'.lifecycle = g.lifecycle ∧
      ∀ id, id ∈ g'.ids ↔ id ∈ g.ids ∨ id = e.interestId := by
  unfold fit at h
  split at h
  next shape hmerge =>
    obtain rfl := Option.some.inj h
    refine ⟨PlannerMerge.merge_eq_merged.mp hmerge, rfl, fun id => ?_⟩
    by_cases hid : e.interestId ∈ g.ids
    · simp only [if_pos hid]
      exact ⟨.inl, fun hor => hor.elim (fun hmem => hmem) fun heq => heq ▸ hid⟩
    · simp only [if_neg hid, List.mem_append, List.mem_singleton]
  · cases h

end PlannerCompile
