import Mathlib.Data.List.Induction
import NostrMultiPlatform.PlannerPlan
import NostrMultiPlatform.Runs

/-!
# The registry of active interests

One live interest under each `(scope, key)`, kept while some owner is attached.
A registration attaches its owner; dropping detaches one, and the last one to go
takes the interest along.
-/
namespace SubsRegistry

open Sorted PlannerShape PlannerPlan Runs

inductive SubScope
  | account (pubkey : String)
  | global
  deriving DecidableEq, Repr

def SubScope.rank : SubScope → Bool ×ₗ String
  | .account pubkey => toLex (false, pubkey)
  | .global => toLex (true, "")

theorem SubScope.rank_injective : Function.Injective SubScope.rank := by
  intro a b h
  cases a <;> cases b <;> simp_all [rank]

instance : LinearOrder SubScope := LinearOrder.lift' SubScope.rank SubScope.rank_injective

/-- The pair owners share. -/
abbrev Shared := SubScope ×ₗ Nat

structure SubIdentity where
  owner : Nat
  key : Nat
  scope : SubScope
  deriving DecidableEq, Repr

def SubIdentity.shared (identity : SubIdentity) : Shared := toLex (identity.scope, identity.key)

theorem SubIdentity.eq_of_shared {a b : SubIdentity} (howner : a.owner = b.owner)
    (hshared : a.shared = b.shared) : a = b := by
  cases a
  cases b
  simp only [shared, toLex_inj, Prod.mk.injEq] at hshared
  simp_all

structure Slot where
  interest : LogicalInterest
  owners : SortedSet Nat

structure InterestRegistry where
  slots : SortedMap Shared Slot

def InterestRegistry.new : InterestRegistry := ⟨∅⟩

inductive InterestWrite
  | ensureAbsent
  | replace
  deriving DecidableEq, Repr

structure RegistrationOutcome where
  newlyInstalled : Bool
  changed : Bool
  deriving DecidableEq, Repr

/-- The stored interest differs in a field the planner compiles on. -/
def planRelevantChange (stored incoming : LogicalInterest) : Bool :=
  stored.shape ≠ incoming.shape || stored.lifecycle ≠ incoming.lifecycle ||
    stored.hints ≠ incoming.hints || stored.isIndexerDiscovery ≠ incoming.isIndexerDiscovery

namespace InterestRegistry

variable (r : InterestRegistry)

def apply (policy : InterestWrite) (identity : SubIdentity) (interest : LogicalInterest) :
    RegistrationOutcome × InterestRegistry :=
  match r.slots.lookup identity.shared, policy with
  | some slot, .ensureAbsent =>
    (⟨false, false⟩, ⟨r.slots.insert identity.shared
      { slot with owners := insert identity.owner slot.owners }⟩)
  | some slot, .replace =>
    (⟨false, planRelevantChange slot.interest interest⟩, ⟨r.slots.insert identity.shared
      ⟨interest, insert identity.owner slot.owners⟩⟩)
  | none, _ =>
    (⟨true, true⟩, ⟨r.slots.insert identity.shared ⟨interest, {identity.owner}⟩⟩)

/-- Detach one owner; the answer is whether that removed the slot. -/
def dropOwner (identity : SubIdentity) : Bool × InterestRegistry :=
  match r.slots.lookup identity.shared with
  | none => (false, r)
  | some slot =>
    if slot.owners.erase identity.owner = ∅ then (true, ⟨r.slots.erase identity.shared⟩)
    else (false, ⟨r.slots.insert identity.shared
      { slot with owners := slot.owners.erase identity.owner }⟩)

/-- The live interests in the order of their `(scope, key)`. -/
def iterActive : List LogicalInterest :=
  r.slots.rows.map fun row => row.2.interest

def ownerCount (shared : Shared) : Nat :=
  (r.slots.lookup shared).elim 0 fun slot => slot.owners.card

def Active (shared : Shared) : Prop :=
  ∃ slot, r.slots.lookup shared = some slot

def Holds (identity : SubIdentity) : Prop :=
  ∃ slot, r.slots.lookup identity.shared = some slot ∧ identity.owner ∈ slot.owners

/-- Every slot with what one reads of its interest. -/
def view {β : Type} (g : LogicalInterest → β) (r : InterestRegistry) :
    SortedMap Shared (β × SortedSet Nat) :=
  r.slots.mapRows fun _ slot => (g slot.interest, slot.owners)

end InterestRegistry

inductive Op
  | apply (policy : InterestWrite) (identity : SubIdentity) (interest : LogicalInterest)
  | dropOwner (identity : SubIdentity)
  deriving DecidableEq

def Op.identity : Op → SubIdentity
  | .apply _ identity _ => identity
  | .dropOwner identity => identity

/-- The interest an operation registers. -/
def Op.registers : Op → Option LogicalInterest
  | .apply _ _ interest => some interest
  | .dropOwner _ => none

def step (r : InterestRegistry) : Op → InterestRegistry
  | .apply policy identity interest => (r.apply policy identity interest).2
  | .dropOwner identity => (r.dropOwner identity).2

def stateAfter (ops : List Op) : InterestRegistry := run step .new ops

/-- The last operation of this identity is a registration. -/
def Holding (ops : List Op) (identity : SubIdentity) : Prop :=
  ∃ op, (ops.filter fun op => op.identity = identity).getLast? = some op ∧
    op.registers.isSome = true

/-- Each identity's own operations come in the same order in both. -/
def SameOwnOrder (xs ys : List Op) : Prop :=
  ∀ identity, xs.filter (fun op => op.identity = identity) =
    ys.filter fun op => op.identity = identity

/-- All registrations of one slot agree in what is read of the interest. -/
def Agree {β : Type} (g : LogicalInterest → β) (ops : List Op) : Prop :=
  ∀ a ∈ ops, ∀ b ∈ ops, a.identity.shared = b.identity.shared →
    ∀ i ∈ a.registers, ∀ j ∈ b.registers, g i = g j

/-- The slot of a registration after it. -/
def joined (policy : InterestWrite) (owner : Nat) (interest : LogicalInterest) :
    Option Slot → Slot
  | none => ⟨interest, {owner}⟩
  | some slot => match policy with
    | .ensureAbsent => { slot with owners := insert owner slot.owners }
    | .replace => ⟨interest, insert owner slot.owners⟩

/-- The slot of an owner after it left. -/
def left (owner : Nat) (slot : Slot) : Option Slot :=
  if slot.owners.erase owner = ∅ then none
  else some { slot with owners := slot.owners.erase owner }

variable (ops : List Op) (r : InterestRegistry) (policy : InterestWrite) (identity : SubIdentity)

theorem lookup_apply (interest : LogicalInterest) (shared : Shared) :
    (r.apply policy identity interest).2.slots.lookup shared =
      if shared = identity.shared then
        some (joined policy identity.owner interest (r.slots.lookup identity.shared))
      else r.slots.lookup shared := by
  unfold InterestRegistry.apply
  cases hslot : r.slots.lookup identity.shared with
  | none => simp [joined]
  | some => cases policy <;> simp [joined]

theorem lookup_dropOwner (shared : Shared) :
    (r.dropOwner identity).2.slots.lookup shared =
      if shared = identity.shared then (r.slots.lookup identity.shared).bind (left identity.owner)
      else r.slots.lookup shared := by
  unfold InterestRegistry.dropOwner
  cases hslot : r.slots.lookup identity.shared with
  | none =>
    by_cases h : shared = identity.shared
    · simp [h, hslot]
    · simp [h]
  | some =>
    dsimp only
    split
    next hlast => simp [left, hlast]
    next hmore => simp [left, hmore]

theorem mem_joined (owner other : Nat) (interest : LogicalInterest) (slot : Option Slot) :
    other ∈ (joined policy owner interest slot).owners ↔
      other = owner ∨ ∃ s ∈ slot, other ∈ s.owners := by
  cases slot with
  | none => simp [joined]
  | some => cases policy <;> simp [joined]

theorem left_eq_some {owner : Nat} {slot slot' : Slot} (h : left owner slot = some slot') :
    slot'.interest = slot.interest ∧ slot'.owners = slot.owners.erase owner ∧
      slot'.owners ≠ ∅ := by
  unfold left at h
  split at h
  next => cases h
  next hmore =>
    obtain rfl := Option.some.inj h
    exact ⟨rfl, rfl, hmore⟩

theorem holds_apply (identity other : SubIdentity) (interest : LogicalInterest) :
    (r.apply policy identity interest).2.Holds other ↔ other = identity ∨ r.Holds other := by
  unfold InterestRegistry.Holds
  rw [lookup_apply]
  by_cases hshared : other.shared = identity.shared
  · rw [if_pos hshared, hshared]
    simp only [Option.some.injEq, exists_eq_left', mem_joined, Option.mem_def]
    constructor
    · rintro (howner | hheld)
      · exact .inl (SubIdentity.eq_of_shared howner hshared)
      · exact .inr hheld
    · rintro (rfl | hheld)
      · exact .inl rfl
      · exact .inr hheld
  · rw [if_neg hshared]
    have hne : other ≠ identity := fun h => hshared (h ▸ rfl)
    simp [hne]

theorem holds_dropOwner (identity other : SubIdentity) :
    (r.dropOwner identity).2.Holds other ↔ other ≠ identity ∧ r.Holds other := by
  unfold InterestRegistry.Holds
  rw [lookup_dropOwner]
  by_cases hshared : other.shared = identity.shared
  · rw [if_pos hshared, hshared]
    cases hslot : r.slots.lookup identity.shared with
    | none => simp
    | some slot =>
      simp only [Option.bind_some, Option.some.injEq, exists_eq_left']
      constructor
      · rintro ⟨slot', hleft, hmem⟩
        rw [(left_eq_some hleft).2.1, SortedSet.mem_erase] at hmem
        exact ⟨fun h => hmem.2 (h ▸ rfl), hmem.1⟩
      · rintro ⟨hne, hmem⟩
        have howner : other.owner ≠ identity.owner := fun h =>
          hne (SubIdentity.eq_of_shared h hshared)
        have hkept : other.owner ∈ slot.owners.erase identity.owner :=
          SortedSet.mem_erase.mpr ⟨hmem, howner⟩
        have hmore : slot.owners.erase identity.owner ≠ ∅ :=
          SortedSet.ne_empty_iff.mpr ⟨_, hkept⟩
        exact ⟨_, if_neg hmore, hkept⟩
  · rw [if_neg hshared]
    have hne : other ≠ identity := fun h => hshared (h ▸ rfl)
    simp [hne]

theorem holds_step (op : Op) (identity : SubIdentity) :
    (step r op).Holds identity ↔
      if op.identity = identity then op.registers.isSome = true else r.Holds identity := by
  cases op with
  | apply _ mine =>
    rw [step, holds_apply]
    by_cases h : mine = identity
    · simp [Op.identity, Op.registers, h]
    · simp [Op.identity, h, Ne.symm h]
  | dropOwner mine =>
    rw [step, holds_dropOwner]
    by_cases h : mine = identity
    · simp [Op.identity, Op.registers, h]
    · simp [Op.identity, h, Ne.symm h]

theorem holding_append (op : Op) (identity : SubIdentity) :
    Holding (ops ++ [op]) identity ↔
      if op.identity = identity then op.registers.isSome = true else Holding ops identity := by
  unfold Holding
  rw [List.filter_append]
  by_cases h : op.identity = identity
  · simp [h]
  · simp [h]

/-- An identity holds its slot exactly when its last operation registered it. -/
theorem holds_stateAfter : (stateAfter ops).Holds identity ↔ Holding ops identity := by
  induction ops using List.reverseRecOn with
  | nil => simp [stateAfter, InterestRegistry.Holds, InterestRegistry.new, Holding]
  | append_singleton ops op ih =>
    have hrun : stateAfter (ops ++ [op]) = step (stateAfter ops) op := by simp [stateAfter]
    rw [hrun, holds_step, holding_append, ih]

/-- Each slot has an owner, and its interest was registered for it. -/
def Kept (ops : List Op) (r : InterestRegistry) : Prop :=
  ∀ shared slot, r.slots.lookup shared = some slot → slot.owners ≠ ∅ ∧
    ∃ op ∈ ops, op.identity.shared = shared ∧ slot.interest ∈ op.registers

theorem Kept.grow {ops : List Op} {r : InterestRegistry} (h : Kept ops r) (op : Op) :
    Kept (ops ++ [op]) r := by
  intro shared slot hslot
  obtain ⟨howners, origin, horigin, hrest⟩ := h shared slot hslot
  exact ⟨howners, origin, List.mem_append_left _ horigin, hrest⟩

theorem kept_step {ops : List Op} {r : InterestRegistry} (h : Kept ops r) (op : Op) :
    Kept (ops ++ [op]) (step r op) := by
  intro shared slot hslot
  cases op with
  | apply policy identity interest =>
    rw [step, lookup_apply] at hslot
    by_cases hshared : shared = identity.shared
    · rw [if_pos hshared] at hslot
      obtain rfl := Option.some.inj hslot
      refine ⟨SortedSet.ne_empty_iff.mpr ⟨_, (mem_joined _ _ _ _ _).mpr (.inl rfl)⟩, ?_⟩
      have hnew : ∃ o ∈ ops ++ [Op.apply policy identity interest],
          o.identity.shared = shared ∧ interest ∈ o.registers :=
        ⟨_, List.mem_append_right _ List.mem_cons_self, hshared.symm, rfl⟩
      cases hbefore : r.slots.lookup identity.shared with
      | none => exact hnew
      | some before =>
        cases policy with
        | replace => exact hnew
        | ensureAbsent => exact (h.grow _ shared before (hshared ▸ hbefore)).2
    · rw [if_neg hshared] at hslot
      exact h.grow _ shared slot hslot
  | dropOwner identity =>
    rw [step, lookup_dropOwner] at hslot
    by_cases hshared : shared = identity.shared
    · rw [if_pos hshared] at hslot
      obtain ⟨before, hbefore, hleft⟩ := Option.bind_eq_some_iff.mp hslot
      obtain ⟨hinterest, -, hmore⟩ := left_eq_some hleft
      rw [hinterest]
      exact ⟨hmore, (h.grow _ shared before (hshared ▸ hbefore)).2⟩
    · rw [if_neg hshared] at hslot
      exact h.grow _ shared slot hslot

theorem kept_stateAfter : Kept ops (stateAfter ops) := by
  induction ops using List.reverseRecOn with
  | nil =>
    intro shared slot hslot
    simp [stateAfter, InterestRegistry.new] at hslot
  | append_singleton ops op ih =>
    have hrun : stateAfter (ops ++ [op]) = step (stateAfter ops) op := by simp [stateAfter]
    rw [hrun]
    exact kept_step ih op

theorem active_iff (shared : Shared) :
    (stateAfter ops).Active shared ↔
      ∃ identity, identity.shared = shared ∧ Holding ops identity := by
  constructor
  · rintro ⟨slot, hslot⟩
    obtain ⟨owner, howner⟩ := SortedSet.ne_empty_iff.mp (kept_stateAfter ops shared slot hslot).1
    refine ⟨⟨owner, shared.2, shared.1⟩, rfl, (holds_stateAfter ops _).mp ⟨slot, hslot, howner⟩⟩
  · rintro ⟨identity, rfl, hholding⟩
    obtain ⟨slot, hslot, -⟩ := (holds_stateAfter ops identity).mpr hholding
    exact ⟨slot, hslot⟩

/-- Dropping one owner leaves the slot of another one with its interest. -/
theorem dropOwner_keeps {identity other : SubIdentity} (hne : other ≠ identity)
    (hheld : r.Holds other) {slot : Slot} (hslot : r.slots.lookup other.shared = some slot) :
    ∃ slot', (r.dropOwner identity).2.slots.lookup other.shared = some slot' ∧
      slot'.interest = slot.interest := by
  obtain ⟨slot', hslot', -⟩ := (holds_dropOwner r identity other).mpr ⟨hne, hheld⟩
  refine ⟨slot', hslot', ?_⟩
  rw [lookup_dropOwner] at hslot'
  split at hslot'
  next hshared =>
    rw [← hshared, hslot] at hslot'
    exact (left_eq_some hslot').1
  next =>
    rw [hslot] at hslot'
    exact congrArg Slot.interest (Option.some.inj hslot').symm

theorem SameOwnOrder.mem_iff {xs ys : List Op} (h : SameOwnOrder xs ys) (op : Op) :
    op ∈ xs ↔ op ∈ ys := by
  have hfilter := congrArg (op ∈ ·) (h op.identity)
  simpa using hfilter

theorem SameOwnOrder.holding {xs ys : List Op} (h : SameOwnOrder xs ys) (identity : SubIdentity) :
    Holding xs identity ↔ Holding ys identity := by
  unfold Holding
  rw [h identity]

/-- Neighbours of two identities may change places. -/
theorem sameOwnOrder_swap (xs ys : List Op) {a b : Op} (h : a.identity ≠ b.identity) :
    SameOwnOrder (xs ++ a :: b :: ys) (xs ++ b :: a :: ys) := by
  intro identity
  simp only [List.filter_append, List.append_cancel_left_eq, List.filter_cons]
  by_cases ha : a.identity = identity
  · have hb : b.identity ≠ identity := fun hb => h (ha.trans hb.symm)
    simp [ha, hb]
  · by_cases hb : b.identity = identity
    · simp [ha, hb]
    · simp [ha, hb]

/-- The owners of a slot are the same in both orders. -/
theorem SameOwnOrder.owners {xs ys : List Op} (h : SameOwnOrder xs ys) {shared : Shared}
    {slot slot' : Slot} (hx : (stateAfter xs).slots.lookup shared = some slot)
    (hy : (stateAfter ys).slots.lookup shared = some slot') : slot.owners = slot'.owners := by
  apply SortedSet.ext
  intro owner
  have hold := h.holding ⟨owner, shared.2, shared.1⟩
  rw [← holds_stateAfter, ← holds_stateAfter] at hold
  have hkey : (SubIdentity.mk owner shared.2 shared.1).shared = shared := rfl
  simpa [InterestRegistry.Holds, hkey, hx, hy] using hold

theorem SameOwnOrder.view {β : Type} {g : LogicalInterest → β} {xs ys : List Op}
    (h : SameOwnOrder xs ys) (hagree : Agree g xs) :
    (stateAfter xs).view g = (stateAfter ys).view g := by
  apply SortedMap.ext
  intro shared
  rw [InterestRegistry.view, InterestRegistry.view, SortedMap.lookup_mapRows,
    SortedMap.lookup_mapRows]
  have hactive : (stateAfter xs).Active shared ↔ (stateAfter ys).Active shared := by
    rw [active_iff, active_iff]
    exact exists_congr fun identity => and_congr_right fun _ => h.holding identity
  cases hx : (stateAfter xs).slots.lookup shared with
  | none =>
    cases hy : (stateAfter ys).slots.lookup shared with
    | none => rfl
    | some slot =>
      obtain ⟨slot', hslot'⟩ := hactive.mpr ⟨slot, hy⟩
      rw [hx] at hslot'
      cases hslot'
  | some slot =>
    obtain ⟨slot', hy⟩ := hactive.mp ⟨slot, hx⟩
    rw [hy, Option.map_some, Option.map_some, h.owners hx hy]
    obtain ⟨-, a, ha, hashared, hareg⟩ := kept_stateAfter xs shared slot hx
    obtain ⟨-, b, hb, hbshared, hbreg⟩ := kept_stateAfter ys shared slot' hy
    rw [hagree a ha b ((h.mem_iff b).mpr hb) (hashared.trans hbshared.symm) _ hareg _ hbreg]

/-- An interest is active as long as some owner's last operation registered it, dropping an owner
takes away its own holding of the slot and nothing else, and orders that keep each identity's own
order lead to the same slots, seen through whatever the registrations agree in. -/
theorem registry_ownership (ops : List Op) :
    (∀ shared, (stateAfter ops).Active shared ↔
      ∃ identity, identity.shared = shared ∧ Holding ops identity) ∧
    (∀ identity, (stateAfter ops).Holds identity ↔ Holding ops identity) ∧
    (∀ identity other, ((stateAfter ops).dropOwner identity).2.Holds other ↔
      other ≠ identity ∧ (stateAfter ops).Holds other) ∧
    (∀ identity other, other ≠ identity → (stateAfter ops).Holds other →
      ∀ slot, (stateAfter ops).slots.lookup other.shared = some slot →
        ∃ slot', ((stateAfter ops).dropOwner identity).2.slots.lookup other.shared = some slot' ∧
          slot'.interest = slot.interest) ∧
    ∀ others, SameOwnOrder ops others → ∀ (β : Type) (g : LogicalInterest → β), Agree g ops →
      (stateAfter ops).view g = (stateAfter others).view g :=
  ⟨active_iff ops, holds_stateAfter ops, holds_dropOwner _,
    fun _ _ hne hheld _ hslot => dropOwner_keeps _ hne hheld hslot,
    fun _ horder _ _ hagree => horder.view hagree⟩

def sampleIdentity (owner : Nat) : SubIdentity := ⟨owner, 7, .global⟩

def sampleInterest (lifecycle : InterestLifecycle) : LogicalInterest :=
  ⟨1, .global, .default, [], lifecycle, false⟩

def mounts (first second : InterestLifecycle) : List Op :=
  [.apply .ensureAbsent (sampleIdentity 1) (sampleInterest first),
    .apply .replace (sampleIdentity 2) (sampleInterest second)]

theorem registry_ownership_two_owners :
    (stateAfter (mounts .tailing .tailing)).Active (sampleIdentity 1).shared ∧
      ((stateAfter (mounts .tailing .tailing)).dropOwner (sampleIdentity 1)).2.Holds
        (sampleIdentity 2) ∧
      (stateAfter (mounts .tailing .tailing)).view id =
        (stateAfter (mounts .tailing .tailing).reverse).view id := by
  obtain ⟨hactive, hholds, hdrop, -, horder⟩ := registry_ownership (mounts .tailing .tailing)
  have hfirst : Holding (mounts .tailing .tailing) (sampleIdentity 1) := ⟨_, rfl, rfl⟩
  have hsecond : Holding (mounts .tailing .tailing) (sampleIdentity 2) := ⟨_, rfl, rfl⟩
  refine ⟨(hactive _).mpr ⟨_, rfl, hfirst⟩,
    (hdrop _ _).mpr ⟨by decide, (hholds _).mpr hsecond⟩, horder _ ?_ _ id ?_⟩
  · exact sameOwnOrder_swap [] [] (by decide)
  · unfold Agree
    decide

/-- The same shape alone does not settle what the slot ends up with: the owners carry different
lifecycles and the first one installs its own. -/
theorem same_shape_orders_differ :
    SameOwnOrder [.apply .ensureAbsent (sampleIdentity 1) (sampleInterest .tailing),
        .apply .ensureAbsent (sampleIdentity 2) (sampleInterest .oneShot)]
      [.apply .ensureAbsent (sampleIdentity 2) (sampleInterest .oneShot),
        .apply .ensureAbsent (sampleIdentity 1) (sampleInterest .tailing)] ∧
    (sampleInterest .tailing).shape = (sampleInterest .oneShot).shape ∧
    (stateAfter [.apply .ensureAbsent (sampleIdentity 1) (sampleInterest .tailing),
        .apply .ensureAbsent (sampleIdentity 2) (sampleInterest .oneShot)]).iterActive ≠
      (stateAfter [.apply .ensureAbsent (sampleIdentity 2) (sampleInterest .oneShot),
        .apply .ensureAbsent (sampleIdentity 1) (sampleInterest .tailing)]).iterActive :=
  ⟨sameOwnOrder_swap [] [] (by decide), rfl, by decide +kernel⟩

end SubsRegistry
