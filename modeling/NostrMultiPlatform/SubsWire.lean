import Mathlib.Data.Finset.Basic
import NostrMultiPlatform.PlannerPlan
import NostrMultiPlatform.Runs
import NostrMultiPlatform.SubsFilter

/-!
# Frames

The difference of two plans is a list of frames. A subscription is present on a
relay, so keys pair the relay with the sub-id: what is only in the prior plan is
closed, what is only in the next plan is requested.
-/
namespace SubsWire

open Sorted PlannerShape PlannerPlan SubsFilter

inductive WireFrame
  | req (relayUrl subId : String) (filterJson : FilterObject) (interestId : Nat)
      (lifecycle : InterestLifecycle)
  | close (relayUrl subId : String)
  deriving DecidableEq

/-- A relay and a sub-id on it. -/
abbrev Key : Type := String × String

def WireFrame.key : WireFrame → Key
  | req relayUrl subId .. => (relayUrl, subId)
  | close relayUrl subId => (relayUrl, subId)

def WireFrame.isReq : WireFrame → Bool
  | req .. => true
  | close .. => false

/-- The lifecycle of the first originating interest that is still known. -/
def lifecycleForShape (shape : SubShape) (interests : List LogicalInterest) : InterestLifecycle :=
  ((shape.originatingInterests.filterMap fun origin =>
    interests.find? fun i => i.id = origin).head?.map LogicalInterest.lifecycle).getD .tailing

/-- The sub-shapes of a plan, each with its relay. -/
def shapesOf (plan : CompiledPlan) : List (String × SubShape) :=
  plan.perRelay.rows.flatMap fun row => row.2.subShapes.map fun shape => (row.1, shape)

def keyOf (row : String × SubShape) : Key := (row.1, subIdFor row.2)

variable (plan : Option CompiledPlan)

def rowsOf : List (String × SubShape) := plan.elim [] shapesOf

def collectRelaySubKeys : Finset Key :=
  ((rowsOf plan).map keyOf).toFinset

def emitReq (nostr : NostrCrate) (interests : List LogicalInterest) (row : String × SubShape) :
    WireFrame :=
  .req row.1 (subIdFor row.2) (filterJsonFor nostr row.2.shape)
    (row.2.originatingInterests.head?.getD 0) (lifecycleForShape row.2 interests)

def emitClose (row : String × SubShape) : WireFrame := .close row.1 (subIdFor row.2)

/-- All closes come before all requests. -/
def planDiff (nostr : NostrCrate) (prior next : Option CompiledPlan)
    (interests : List LogicalInterest) : List WireFrame :=
  (((rowsOf prior).filter fun row => keyOf row ∉ collectRelaySubKeys next).map emitClose) ++
    ((rowsOf next).filter fun row => keyOf row ∉ collectRelaySubKeys prior).map
      (emitReq nostr interests)

/-- A request opens its subscription, a close ends it. -/
def deliver (opened : Finset Key) : WireFrame → Finset Key
  | .req relayUrl subId .. => insert (relayUrl, subId) opened
  | .close relayUrl subId => opened.erase (relayUrl, subId)

def deliverAll (opened : Finset Key) (frames : List WireFrame) : Finset Key :=
  Runs.run deliver opened frames

theorem mem_collectRelaySubKeys {plan : Option CompiledPlan} {k : Key} :
    k ∈ collectRelaySubKeys plan ↔ ∃ row ∈ rowsOf plan, keyOf row = k := by
  rw [collectRelaySubKeys, List.mem_toFinset, List.mem_map]

theorem mem_deliverAll_closes (rows : List (String × SubShape)) (opened : Finset Key) (k : Key) :
    k ∈ deliverAll opened (rows.map emitClose) ↔ k ∈ opened ∧ ∀ row ∈ rows, keyOf row ≠ k := by
  induction rows generalizing opened with
  | nil => simp [deliverAll]
  | cons row rest ih =>
    have hstep : deliverAll opened ((row :: rest).map emitClose) =
        deliverAll (opened.erase (keyOf row)) (rest.map emitClose) := rfl
    rw [hstep, ih, Finset.mem_erase, List.forall_mem_cons]
    constructor
    · intro ⟨⟨hne, hmem⟩, hrest⟩
      exact ⟨hmem, fun heq => hne heq.symm, hrest⟩
    · intro ⟨hmem, hne, hrest⟩
      exact ⟨⟨fun heq => hne heq.symm, hmem⟩, hrest⟩

/-- The keys that a batch of frames requests. -/
def reqKeys (frames : List WireFrame) : Finset Key :=
  ((frames.filter WireFrame.isReq).map WireFrame.key).toFinset

theorem mem_reqKeys {frames : List WireFrame} {k : Key} :
    k ∈ reqKeys frames ↔ ∃ frame ∈ frames, frame.isReq = true ∧ frame.key = k := by
  simp only [reqKeys, List.mem_toFinset, List.mem_map, List.mem_filter, and_assoc]

theorem deliver_of_isReq {opened : Finset Key} {frame : WireFrame} (h : frame.isReq = true) :
    deliver opened frame = insert frame.key opened := by
  cases frame with
  | req => rfl
  | close => cases h

theorem mem_deliverAll_reqs {frames : List WireFrame} (h : ∀ frame ∈ frames, frame.isReq = true)
    (opened : Finset Key) (k : Key) :
    k ∈ deliverAll opened frames ↔ k ∈ opened ∨ k ∈ reqKeys frames := by
  rw [mem_reqKeys]
  induction frames generalizing opened with
  | nil => simp [deliverAll]
  | cons frame rest ih =>
    obtain ⟨hframe, hrest⟩ := List.forall_mem_cons.mp h
    have hstep : deliverAll opened (frame :: rest) =
        deliverAll (insert frame.key opened) rest := by
      rw [deliverAll, Runs.run_cons, deliver_of_isReq hframe]
      rfl
    rw [hstep, ih hrest, Finset.mem_insert, List.exists_mem_cons_iff, eq_comm (a := k), or_assoc,
      or_left_comm]
    simp only [hframe, true_and]

variable (nostr : NostrCrate) (prior next : Option CompiledPlan) (interests : List LogicalInterest)

theorem mem_reqKeys_emitReq (rows : List (String × SubShape)) (k : Key) :
    k ∈ reqKeys (rows.map (emitReq nostr interests)) ↔ ∃ row ∈ rows, keyOf row = k := by
  rw [mem_reqKeys]
  constructor
  · intro ⟨frame, hframe, _, hkey⟩
    obtain ⟨row, hrow, rfl⟩ := List.mem_map.mp hframe
    exact ⟨row, hrow, hkey⟩
  · intro ⟨row, hrow, hkey⟩
    exact ⟨_, List.mem_map_of_mem hrow, rfl, hkey⟩

/-- What a difference closes. -/
def closes (prior next : Option CompiledPlan) : List WireFrame :=
  ((rowsOf prior).filter fun row => keyOf row ∉ collectRelaySubKeys next).map emitClose

/-- What a difference requests. -/
def requests (nostr : NostrCrate) (prior next : Option CompiledPlan)
    (interests : List LogicalInterest) : List WireFrame :=
  ((rowsOf next).filter fun row => keyOf row ∉ collectRelaySubKeys prior).map
    (emitReq nostr interests)

theorem isReq_of_requests {nostr : NostrCrate} {prior next : Option CompiledPlan}
    {interests : List LogicalInterest} :
    ∀ frame ∈ requests nostr prior next interests, frame.isReq = true := by
  intro frame hframe
  obtain ⟨row, -, rfl⟩ := List.mem_map.mp hframe
  rfl

theorem planDiff_eq :
    planDiff nostr prior next interests = closes prior next ++ requests nostr prior next interests :=
  rfl

theorem mem_deliverAll_closing (opened : Finset Key) (k : Key) :
    k ∈ deliverAll opened (closes prior next) ↔
      k ∈ opened ∧ (k ∈ collectRelaySubKeys prior → k ∈ collectRelaySubKeys next) := by
  rw [closes, mem_deliverAll_closes]
  refine and_congr_right fun _ => ⟨fun hall hprior => ?_, fun hall row hrow heq => ?_⟩
  · obtain ⟨row, hrow, rfl⟩ := mem_collectRelaySubKeys.mp hprior
    by_contra hnext
    exact hall row (List.mem_filter.mpr ⟨hrow, decide_eq_true hnext⟩) rfl
  · obtain ⟨hmem, hnext⟩ := List.mem_filter.mp hrow
    rw [heq] at hnext
    exact of_decide_eq_true hnext (hall (mem_collectRelaySubKeys.mpr ⟨row, hmem, heq⟩))

theorem mem_reqKeys_requests (k : Key) :
    k ∈ reqKeys (requests nostr prior next interests) ↔
      k ∈ collectRelaySubKeys next ∧ k ∉ collectRelaySubKeys prior := by
  rw [requests, mem_reqKeys_emitReq]
  constructor
  · intro ⟨row, hrow, heq⟩
    obtain ⟨hmem, hprior⟩ := List.mem_filter.mp hrow
    exact ⟨mem_collectRelaySubKeys.mpr ⟨row, hmem, heq⟩, heq ▸ of_decide_eq_true hprior⟩
  · intro ⟨hnext, hprior⟩
    obtain ⟨row, hrow, rfl⟩ := mem_collectRelaySubKeys.mp hnext
    exact ⟨row, List.mem_filter.mpr ⟨hrow, decide_eq_true hprior⟩, rfl⟩

/-- Delivering a difference keeps what was open outside both plans and leaves the next plan's keys. -/
theorem mem_deliverAll_planDiff (opened : Finset Key) (k : Key) :
    k ∈ deliverAll opened (planDiff nostr prior next interests) ↔
      (k ∈ opened ∧ (k ∈ collectRelaySubKeys prior → k ∈ collectRelaySubKeys next)) ∨
        (k ∈ collectRelaySubKeys next ∧ k ∉ collectRelaySubKeys prior) := by
  have hsplit : deliverAll opened (planDiff nostr prior next interests) =
      deliverAll (deliverAll opened (closes prior next)) (requests nostr prior next interests) :=
    Runs.run_append _ _ _ _
  rw [hsplit, mem_deliverAll_reqs isReq_of_requests, mem_deliverAll_closing,
    mem_reqKeys_requests]

/-- The frames of a difference name keys of exactly one of the two plans. -/
theorem keys_planDiff :
    (planDiff nostr prior next interests).map WireFrame.key =
      (((rowsOf prior).map keyOf).filter fun k => k ∉ collectRelaySubKeys next) ++
        ((rowsOf next).map keyOf).filter fun k => k ∉ collectRelaySubKeys prior := by
  rw [planDiff, List.map_append, List.map_map, List.map_map, List.filter_map, List.filter_map]
  rfl

theorem planDiff_self (plan : Option CompiledPlan) (interests : List LogicalInterest) :
    planDiff nostr plan plan interests = [] := by
  have hnone : (rowsOf plan).filter (fun row => keyOf row ∉ collectRelaySubKeys plan) = [] := by
    rw [List.filter_eq_nil_iff]
    intro row hrow
    rw [decide_eq_true_eq, not_not]
    exact mem_collectRelaySubKeys.mpr ⟨row, hrow, rfl⟩
  rw [planDiff, hnone, List.map_nil, List.map_nil, List.append_nil]

/-- No relay of the plan carries two sub-shapes with one sub-id. -/
def DistinctSubIds : Prop :=
  ∀ relayUrl relayPlan, (plan.bind fun p => p.perRelay.lookup relayUrl) = some relayPlan →
    (relayPlan.subShapes.map subIdFor).Nodup

/-- Keys are told apart by the relay first, and rows of one map have different relays. -/
theorem DistinctSubIds.nodup {plan : Option CompiledPlan} (h : DistinctSubIds plan) :
    ((rowsOf plan).map keyOf).Nodup := by
  cases plan with
  | none => exact List.nodup_nil
  | some plan =>
    have hkeys : (rowsOf (some plan)).map keyOf = plan.perRelay.rows.flatMap fun row =>
        (row.2.subShapes.map subIdFor).map fun subId => (row.1, subId) := by
      simp only [rowsOf, Option.elim_some, shapesOf, List.map_flatMap, List.map_map]
      rfl
    rw [hkeys, List.nodup_flatMap]
    constructor
    · intro row hrow
      have hnodup := h row.1 row.2 (SortedMap.lookup_eq_some.mpr hrow)
      exact hnodup.map fun a b hab => (Prod.mk.inj hab).2
    · refine plan.perRelay.sorted.imp fun {a b} hlt => ?_
      intro k hka hkb
      obtain ⟨_, _, rfl⟩ := List.mem_map.mp hka
      obtain ⟨_, _, heq⟩ := List.mem_map.mp hkb
      exact absurd (Prod.mk.inj heq).1.symm (ne_of_lt hlt)

/-- The frames of a sequence of plans, each diffed against the one before. -/
def diffs (nostr : NostrCrate) (prior : Option CompiledPlan) :
    List (Option CompiledPlan × List LogicalInterest) → List WireFrame
  | [] => []
  | (next, interests) :: rest =>
    planDiff nostr prior next interests ++ diffs nostr next rest

/-- The last plan of a sequence. -/
def lastPlan (prior : Option CompiledPlan) :
    List (Option CompiledPlan × List LogicalInterest) → Option CompiledPlan
  | [] => prior
  | (next, _) :: rest => lastPlan next rest

theorem deliverAll_planDiff :
    deliverAll (collectRelaySubKeys prior) (planDiff nostr prior next interests) =
      collectRelaySubKeys next := by
  ext k
  rw [mem_deliverAll_planDiff]
  by_cases hprior : k ∈ collectRelaySubKeys prior <;> simp [hprior]

theorem deliverAll_diffs (plans : List (Option CompiledPlan × List LogicalInterest)) :
    deliverAll (collectRelaySubKeys prior) (diffs nostr prior plans) =
      collectRelaySubKeys (lastPlan prior plans) := by
  induction plans generalizing prior with
  | nil => rfl
  | cons plan rest ih =>
    have hsplit : deliverAll (collectRelaySubKeys prior) (diffs nostr prior (plan :: rest)) =
        deliverAll (deliverAll (collectRelaySubKeys prior) (planDiff nostr prior plan.1 plan.2))
          (diffs nostr plan.1 rest) := Runs.run_append _ _ _ _
    rw [hsplit, deliverAll_planDiff, ih]
    rfl

/-- The difference of two plans leads from the keys of one to those of the other, with at most one
frame for a key and none for a key of both; so a sequence of plans, from nothing, leads to the keys
of its last plan. -/
theorem plan_diff_exact (nostr : NostrCrate) (prior next : Option CompiledPlan)
    (interests : List LogicalInterest) (hprior : DistinctSubIds prior)
    (hnext : DistinctSubIds next) :
    deliverAll (collectRelaySubKeys prior) (planDiff nostr prior next interests) =
        collectRelaySubKeys next ∧
      ((planDiff nostr prior next interests).map WireFrame.key).Nodup ∧
      (∀ k ∈ collectRelaySubKeys prior ∩ collectRelaySubKeys next,
        k ∉ (planDiff nostr prior next interests).map WireFrame.key) ∧
      planDiff nostr prior prior interests = [] ∧
      ∀ plans, deliverAll ∅ (diffs nostr none plans) = collectRelaySubKeys (lastPlan none plans) := by
  refine ⟨deliverAll_planDiff nostr prior next interests, ?_, ?_, planDiff_self nostr prior interests,
    deliverAll_diffs nostr none⟩
  · rw [keys_planDiff]
    refine (hprior.nodup.filter _).append (hnext.nodup.filter _) ?_
    intro k hclosed hopened
    have hin := mem_collectRelaySubKeys.mpr (List.mem_map.mp (List.mem_filter.mp hclosed).1)
    exact of_decide_eq_true (List.mem_filter.mp hopened).2 hin
  · intro k hboth hframe
    obtain ⟨hkp, hkn⟩ := Finset.mem_inter.mp hboth
    rw [keys_planDiff, List.mem_append] at hframe
    rcases hframe with h | h
    · exact of_decide_eq_true (List.mem_filter.mp h).2 hkn
    · exact of_decide_eq_true (List.mem_filter.mp h).2 hkp

/-- A plan that asks one relay for each of the given kinds. -/
def planOn (relayUrl : String) (kinds : List Nat) : CompiledPlan :=
  let shape := fun kind : Nat => { InterestShape.default with kinds := {kind} }
  ⟨"plan", (∅ : SortedMap String RelayPlan).insert relayUrl
    ⟨relayUrl, ∅, kinds.map fun kind => ⟨shape kind, [kind], canonicalFilterHash (shape kind)⟩,
      .default⟩, ∅⟩

/-- One relay moves from two kinds to two others, of which one stays. -/
theorem plan_diff_exact_kinds :
    DistinctSubIds (some (planOn "wss://relay" [0, 1])) ∧
      DistinctSubIds (some (planOn "wss://relay" [1, 3])) ∧
      deliverAll (collectRelaySubKeys (some (planOn "wss://relay" [0, 1])))
          (planDiff documentedCrate (some (planOn "wss://relay" [0, 1]))
            (some (planOn "wss://relay" [1, 3])) []) =
        collectRelaySubKeys (some (planOn "wss://relay" [1, 3])) := by
  have hrows : ∀ kinds ∈ [[0, 1], [1, 3]], ∀ row ∈ (planOn "wss://relay" kinds).perRelay.rows,
      (row.2.subShapes.map subIdFor).Nodup := by
    decide +kernel
  have hdistinct : ∀ kinds ∈ [[0, 1], [1, 3]],
      DistinctSubIds (some (planOn "wss://relay" kinds)) :=
    fun kinds hkinds _ _ hlookup =>
      hrows kinds hkinds _ (SortedMap.lookup_eq_some.mp hlookup)
  have hprior := hdistinct [0, 1] (by decide)
  have hnext := hdistinct [1, 3] (by decide)
  exact ⟨hprior, hnext, (plan_diff_exact documentedCrate _ _ [] hprior hnext).1⟩

end SubsWire
