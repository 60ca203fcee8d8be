import NostrMultiPlatform.Ancestry
import NostrMultiPlatform.ThreadGrouper

/-!
# Placing one event

An event that is placed waits for its parent, or goes into the blocks together
with ancestors that are in none: at the end of its parent's block or in a block of
its own.
-/
namespace ThreadPlacement

open Ancestry Sorted Tables ThreadGrouper TimelineBlock
open ThreadGrouper.Grouper (extendBlock chainBlock)

variable {R : ParentResolver} {evs : List KernelEvent} {g : Grouper} {e : KernelEvent}

/-- One of the events has the child's id and names the parent. -/
def Parent (R : ParentResolver) (evs : List KernelEvent) (p c : EventId) : Prop :=
  ∃ ev ∈ evs, ev.id = c ∧ R.parentId ev = some p

/-- The ids in the blocks. -/
def placed (g : Grouper) : List EventId := g.blocks.flatMap ids

/-- A module has at least two events and at most as many as allowed. -/
def Sized (maxSize : Nat) (block : TimelineBlock) : Prop :=
  match block with
  | .standalone _ _ => True
  | .module events _ _ => 2 ≤ events.length ∧ events.length ≤ maxSize

/-- The parent of the event is there but in no block, and the walk reaches it. -/
def WalksIn (R : ParentResolver) (g : Grouper) (e : KernelEvent) : Prop :=
  0 < g.policy.maxAncestorHops ∧
    ∃ p, R.parentId e = some p ∧ p ∈ g.byId ∧ p ∉ g.orphaned ∧ p ∉ g.seen

/-- Taking a block out takes out its ids. -/
theorem flatMap_eraseIdx_perm {blocks : List TimelineBlock} {idx : Nat} {b : TimelineBlock}
    (hb : blocks[idx]? = some b) : (blocks.flatMap ids).Perm
      (b.ids ++ (blocks.eraseIdx idx).flatMap ids) := by
  induction blocks generalizing idx with
  | nil => cases hb
  | cons a blocks ih =>
    cases idx with
    | zero =>
      obtain rfl : a = b := by simpa using hb
      exact List.Perm.refl _
    | succ idx =>
      have hrest : (blocks.flatMap ids).Perm
          (b.ids ++ (blocks.eraseIdx idx).flatMap ids) := ih (by simpa using hb)
      rw [List.eraseIdx_cons_succ, List.flatMap_cons, List.flatMap_cons]
      exact (hrest.append_left _).trans (by
        rw [← List.append_assoc, ← List.append_assoc]
        exact List.perm_append_comm.append_right _)

/-- Changing a block changes its ids. -/
theorem flatMap_set_perm {blocks : List TimelineBlock} {idx : Nat} {b : TimelineBlock}
    (b' : TimelineBlock) (hb : blocks[idx]? = some b) :
    ((blocks.set idx b').flatMap ids).Perm
      (b'.ids ++ (blocks.eraseIdx idx).flatMap ids) := by
  obtain ⟨hlt, _⟩ := List.getElem?_eq_some_iff.mp hb
  have hset : (blocks.set idx b')[idx]? = some b' := List.getElem?_set_self hlt
  have hperm := flatMap_eraseIdx_perm hset
  rw [List.eraseIdx_set_eq] at hperm
  exact hperm

theorem forall_mem_set {α : Type} {xs : List α} {idx : Nat} {x : α} {P : α → Prop}
    (h : ∀ y ∈ xs, P y) (hx : P x) : ∀ y ∈ xs.set idx x, P y := by
  intro y hy
  obtain hy | rfl := List.mem_or_eq_of_mem_set hy
  · exact h y hy
  · exact hx

/-- What holds of the chain of a walk that began at the event. -/
structure Walked (R : ParentResolver) (evs : List KernelEvent) (g : Grouper) (e : KernelEvent)
    (chain : List EventId) : Prop where
  path : chain.IsChain (Parent R evs)
  mem : e.id ∈ chain
  others : ∀ id ∈ chain, id = e.id ∨ (id ∈ g.byId ∧ id ∉ g.orphaned ∧ id ∉ g.seen)

/-- The pointer is the parent of the top of the chain. -/
def Top (R : ParentResolver) (evs : List KernelEvent) (cursor : Option ThreadPointer)
    (chain : List EventId) : Prop :=
  ∃ ev ∈ evs, chain.head? = some ev.id ∧ cursor = R.parent ev

theorem Walked.cons {chain : List EventId} {id : EventId} {relay : Option String}
    {kind : Option Nat} {ev : KernelEvent} (h : Walked R evs g e chain)
    (htop : Top R evs (some (.event id relay kind)) chain) (hev : g.byId.lookup id = some ev)
    (hfree : ¬ (id ∈ g.seen ∨ id ∈ g.orphaned)) : Walked R evs g e (id :: chain) where
  path := by
    obtain ⟨top, hmem, hhead, hptr⟩ := htop
    cases chain with
    | nil => cases hhead
    | cons c =>
      obtain rfl : c = top.id := by simpa using hhead
      refine List.isChain_cons_cons.mpr ⟨⟨top, hmem, rfl, ?_⟩, h.path⟩
      rw [ParentResolver.parentId, ← hptr]
      rfl
  mem := List.mem_cons_of_mem id h.mem
  others := by
    intro a ha
    obtain rfl | ha := List.mem_cons.mp ha
    · exact .inr ⟨(mem_iff_lookup _ _).mpr ⟨ev, hev⟩, fun h => hfree (.inr h),
        fun h => hfree (.inl h)⟩
    · exact h.others a ha

theorem walked_walkLoop (hnamed : ∀ id ev, g.byId.lookup id = some ev → ev.id = id ∧ ev ∈ evs)
    (hops : Nat) (cursor : Option ThreadPointer) (w : Walk) (h : Walked R evs g e w.chain)
    (htop : Top R evs cursor w.chain) : Walked R evs g e (g.walkLoop R hops cursor w).chain := by
  induction hops generalizing cursor w with
  | zero =>
    match cursor with
    | none => exact h
    | some (.address _ _ _) => exact h
    | some (.external _) => exact h
    | some (.event id _ _) =>
      simp only [Grouper.walkLoop]
      split <;> exact h
  | succ _ ih =>
    match cursor with
    | none => exact h
    | some (.address _ _ _) => exact h
    | some (.external _) => exact h
    | some (.event id _ _) =>
      simp only [Grouper.walkLoop]
      split
      · exact h
      next hfree =>
        cases hev : g.byId.lookup id with
        | none => exact h
        | some ev =>
          have hcons := h.cons htop hev hfree
          dsimp only
          split
          · exact hcons
          · obtain ⟨hid, hmem⟩ := hnamed id ev hev
            exact ih _ _ hcons ⟨ev, hmem, by rw [hid]; rfl, rfl⟩

/-- The walk stops at the size of a module. -/
theorem length_walkLoop (hops : Nat) (cursor : Option ThreadPointer) (w : Walk)
    (h : w.chain.length < g.policy.maxModuleSize) :
    (g.walkLoop R hops cursor w).chain.length ≤ g.policy.maxModuleSize := by
  induction hops generalizing cursor w with
  | zero =>
    match cursor with
    | none => exact h.le
    | some (.address _ _ _) => exact h.le
    | some (.external _) => exact h.le
    | some (.event id _ _) =>
      simp only [Grouper.walkLoop]
      split <;> exact h.le
  | succ _ ih =>
    match cursor with
    | none => exact h.le
    | some (.address _ _ _) => exact h.le
    | some (.external _) => exact h.le
    | some (.event id _ _) =>
      simp only [Grouper.walkLoop]
      split
      · exact h.le
      · cases g.byId.lookup id with
        | none => exact h.le
        | some =>
          dsimp only
          split
          · rw [List.length_cons]
            omega
          next hroom => exact ih _ _ (not_le.mp hroom)

/-- A walk that finds no parent to take leaves the event alone. -/
theorem walkChain_of_not_walksIn (h : ¬ WalksIn R g e) : (g.walkChain R e).chain = [e.id] := by
  unfold Grouper.walkChain
  dsimp only
  generalize hhops : g.policy.maxAncestorHops = hops
  cases hptr : R.parent e with
  | none => cases hops <;> rfl
  | some ptr =>
    cases ptr with
    | address | external => cases hops <;> rfl
    | event p _ _ =>
      have hp : R.parentId e = some p := by rw [ParentResolver.parentId, hptr]; rfl
      cases hops with
      | zero =>
        simp only [Grouper.walkLoop]
        split <;> rfl
      | succ =>
        simp only [Grouper.walkLoop]
        split
        · rfl
        next hfree =>
          cases hev : g.byId.lookup p with
          | none => rfl
          | some ev =>
            refine absurd ⟨by omega, p, hp, ?_, fun ho => hfree (.inr ho),
              fun hs => hfree (.inl hs)⟩ h
            exact (mem_iff_lookup _ _).mpr ⟨ev, hev⟩

theorem walked_walkChain (hnamed : ∀ id ev, g.byId.lookup id = some ev → ev.id = id ∧ ev ∈ evs)
    (he : e ∈ evs) : Walked R evs g e (g.walkChain R e).chain := by
  refine walked_walkLoop hnamed _ _ _ ⟨List.isChain_singleton _, List.mem_singleton_self _, ?_⟩
    ⟨e, he, rfl, rfl⟩
  intro id hid
  exact .inl (List.mem_singleton.mp hid)

theorem ids_chainBlock (w : Walk) : (chainBlock w).ids = w.chain := by
  unfold chainBlock
  split
  next id hid => rw [hid]; rfl
  next => rfl

theorem sized_chainBlock (hne : (g.walkChain R e).chain ≠ [])
    (hmax : 2 ≤ g.policy.maxModuleSize ∨ ¬ WalksIn R g e) :
    Sized g.policy.maxModuleSize (chainBlock (g.walkChain R e)) := by
  unfold chainBlock
  split
  · trivial
  next hmany =>
    have htwo : 2 ≤ (g.walkChain R e).chain.length := by
      match hc : (g.walkChain R e).chain with
      | [] => exact absurd hc hne
      | [id] => exact absurd hc (hmany id)
      | _ :: _ :: _ => simp
    refine ⟨htwo, ?_⟩
    obtain hmax | hwalk := hmax
    · exact length_walkLoop _ _ _ hmax
    · rw [walkChain_of_not_walksIn hwalk] at htwo
      simp at htwo

/-- The chain can go into the blocks, and the blocks then hold it once. -/
structure Lays (R : ParentResolver) (g : Grouper) (e : KernelEvent) (chain : List EventId)
    (blocks : List TimelineBlock) : Prop where
  mem : e.id ∈ chain
  nodup : chain.Nodup
  others : ∀ id ∈ chain, id = e.id ∨ (id ∈ g.byId ∧ id ∉ g.orphaned ∧ id ∉ g.seen)
  layout : (blocks.flatMap ids).Perm (chain ++ placed g)
  sized : (∀ b ∈ g.blocks, Sized g.policy.maxModuleSize b) →
    (2 ≤ g.policy.maxModuleSize ∨ ¬ WalksIn R g e) → ∀ b ∈ blocks, Sized g.policy.maxModuleSize b

/-- What placing an event does. -/
inductive Placement (R : ParentResolver) (g : Grouper) (e : KernelEvent) : Grouper → Prop
  | kept (hseen : e.id ∈ g.seen) : Placement R g e g
  | buffered (p : EventId) (hseen : e.id ∉ g.seen) (hp : R.parentId e = some p)
    (hwait : p ∉ g.byId ∨ p ∈ g.orphaned) : Placement R g e (g.buffer p e.id)
  | laid (chain : List EventId) (blocks : List TimelineBlock) (pending : Finset EventId)
    (hseen : e.id ∉ g.seen) (hready : ∀ p, R.parentId e = some p → p ∈ g.byId ∧ p ∉ g.orphaned)
    (h : Lays R g e chain blocks) : Placement R g e (g.accept chain blocks pending)

section

variable {b b' : TimelineBlock} {parentKev : Option KernelEvent} {policy : ModulePolicy}
  {rootHint : Option ThreadPointer} (h : extendBlock policy e parentKev rootHint b = some b')
include h

theorem extendBlock_ids : b'.ids = b.ids ++ [e.id] := by
  cases b with
  | standalone | «module» =>
    simp only [extendBlock] at h
    split at h
    · cases h
    · cases h; rfl

theorem extendBlock_sized (hb : Sized policy.maxModuleSize b) : Sized policy.maxModuleSize b' := by
  cases b with
  | standalone =>
    simp only [extendBlock] at h
    split at h
    · cases h
    next hroom =>
      cases h
      exact ⟨le_rfl, not_lt.mp hroom⟩
  | «module» =>
    simp only [extendBlock] at h
    split at h
    · cases h
    next hroom =>
      cases h
      rw [Sized, List.length_append, List.length_singleton]
      exact ⟨Nat.le_succ_of_le hb.1, Nat.succ_le_of_lt (not_le.mp hroom)⟩

end

theorem lays_splice {p : EventId} {out : Grouper × Nat} (h : g.splice R p e = some out) :
    ∃ blocks, out.1 = g.accept [e.id] blocks g.pendingAncestorIds ∧ Lays R g e [e.id] blocks := by
  unfold Grouper.splice at h
  split at h
  · cases h
  next idx _ =>
    split at h
    · cases h
    next block hblock =>
      cases h
      obtain ⟨b, hb, hext⟩ := Option.bind_eq_some_iff.mp hblock
      refine ⟨g.blocks.set idx block, rfl, List.mem_singleton_self _, List.nodup_singleton _,
        fun id hid => .inl (List.mem_singleton.mp hid), ?_, ?_⟩
      · have hset := flatMap_set_perm block hb
        rw [extendBlock_ids hext] at hset
        exact hset.trans (by
          rw [List.append_assoc]
          exact List.perm_append_comm_assoc _ _ _ |>.trans
            ((flatMap_eraseIdx_perm hb).symm.append_left _))
      · intro hsized _
        exact forall_mem_set hsized
          (extendBlock_sized hext (hsized b (List.mem_of_getElem? hb)))

section

variable (hacyclic : Acyclic (Parent R evs))
  (hnamed : ∀ id ev, g.byId.lookup id = some ev → ev.id = id ∧ ev ∈ evs) (he : e ∈ evs)
include hacyclic hnamed he

theorem lays_fresh :
    Lays R g e (g.walkChain R e).chain (chainBlock (g.walkChain R e) :: g.blocks) := by
  have hwalk : Walked R evs g e (g.walkChain R e).chain := walked_walkChain hnamed he
  refine ⟨hwalk.mem, hacyclic.nodup hwalk.path, hwalk.others, ?_, ?_⟩
  · rw [List.flatMap_cons, ids_chainBlock]
    exact List.Perm.refl _
  · intro hsized hmax b hb
    obtain rfl | hb := List.mem_cons.mp hb
    · exact sized_chainBlock (List.ne_nil_of_mem hwalk.mem) hmax
    · exact hsized b hb

theorem placement : Placement R g e (g.placeEvent R e).1 := by
  unfold Grouper.placeEvent
  split
  next hseen => exact .kept hseen
  next hseen =>
    cases hp : R.parentId e with
    | none =>
      exact .laid _ _ _ hseen (fun p hp' => by rw [hp] at hp'; cases hp')
        (lays_fresh hacyclic hnamed he)
    | some p =>
      dsimp only
      split
      next hwait => exact .buffered p hseen hp hwait
      next hready =>
        have hfree : ∀ q, R.parentId e = some q → q ∈ g.byId ∧ q ∉ g.orphaned := by
          intro q hq
          rw [hp] at hq
          cases hq
          exact ⟨by_contra fun hne => hready (.inl hne), fun ho => hready (.inr ho)⟩
        cases hsplice : g.splice R p e with
        | none => exact .laid _ _ _ hseen hfree (lays_fresh hacyclic hnamed he)
        | some =>
          obtain ⟨blocks, hout, hlays⟩ := lays_splice hsplice
          dsimp only
          rw [hout]
          exact .laid _ _ _ hseen hfree hlays

end

/-- The ids in wait for an id. -/
def waiters (g : Grouper) (p : EventId) : SortedSet EventId := (g.orphans.lookup p).getD ∅

/-- The side sets agree with the blocks, and who waits for an id names it as parent. -/
structure Laid (R : ParentResolver) (evs : List KernelEvent) (g : Grouper) : Prop where
  nodup : (placed g).Nodup
  seen_iff : ∀ id, id ∈ g.seen ↔ id ∈ placed g
  known : ∀ id ∈ g.seen, id ∈ g.byId
  orphan_known : ∀ id ∈ g.orphaned, id ∈ g.byId
  apart : ∀ id ∈ g.orphaned, id ∉ g.seen
  named : ∀ id ev, g.byId.lookup id = some ev → ev.id = id ∧ ev ∈ evs
  waiting : ∀ p c, c ∈ waiters g p → ∃ ev, g.byId.lookup c = some ev ∧ R.parentId ev = some p

theorem mem_waiters_buffer {p q c : EventId} {id : EventId} :
    c ∈ waiters (g.buffer p id) q ↔ c ∈ waiters g q ∨ (q = p ∧ c = id) := by
  unfold waiters Grouper.buffer
  rw [SortedMap.lookup_alter]
  by_cases hq : q = p
  · subst hq
    simp [or_comm]
  · simp [hq]

theorem mem_waiters_drain {p q c : EventId} :
    c ∈ waiters (g.drain p).2 q ↔ q ≠ p ∧ c ∈ waiters g q := by
  unfold waiters Grouper.drain
  dsimp only
  rw [SortedMap.lookup_erase]
  by_cases hq : q = p
  · simp [hq]
  · simp [hq]

theorem mem_drain {p c : EventId} : c ∈ (g.drain p).1 ↔ c ∈ waiters g p := Iff.rfl

theorem laid_new (R : ParentResolver) (evs : List KernelEvent) (policy : ModulePolicy) :
    Laid R evs (.new policy) where
  nodup := List.nodup_nil
  seen_iff := fun id => by simp [Grouper.new, placed]
  known := fun id hid => by simp [Grouper.new] at hid
  orphan_known := fun id hid => by simp [Grouper.new] at hid
  apart := fun id hid => by simp [Grouper.new] at hid
  named := fun id ev hev => by simp [Grouper.new] at hev
  waiting := fun p c hc => by simp [Grouper.new, waiters] at hc

/-- Placing an event keeps the bookkeeping. -/
theorem Laid.place (h : Laid R evs g) (he : g.byId.lookup e.id = some e) {g' : Grouper}
    (hg' : Placement R g e g') : Laid R evs g' := by
  cases hg' with
  | kept => exact h
  | buffered _ hseen hp =>
    refine ⟨h.nodup, h.seen_iff, h.known, ?_, ?_, h.named, ?_⟩
    · intro id hid
      obtain rfl | hid := Finset.mem_insert.mp hid
      · exact (mem_iff_lookup _ _).mpr ⟨e, he⟩
      · exact h.orphan_known id hid
    · intro id hid
      obtain rfl | hid := Finset.mem_insert.mp hid
      · exact hseen
      · exact h.apart id hid
    · intro q c hc
      obtain hc | ⟨rfl, rfl⟩ := mem_waiters_buffer.mp hc
      · exact h.waiting q c hc
      · exact ⟨e, he, hp⟩
  | laid chain blocks pending hseen _ hl =>
    have hfresh : ∀ id ∈ chain, id ∉ g.seen := by
      intro id hid
      obtain rfl | ⟨-, -, hnot⟩ := hl.others id hid
      · exact hseen
      · exact hnot
    have hmem (id : EventId) :
        id ∈ (g.accept chain blocks pending).seen ↔ id ∈ g.seen ∨ id ∈ chain := by
      simp [Grouper.accept]
    refine ⟨?_, ?_, ?_, ?_, ?_, h.named, h.waiting⟩
    · refine hl.layout.nodup_iff.mpr (List.nodup_append.mpr ⟨hl.nodup, h.nodup, ?_⟩)
      rintro id hid _ hid' rfl
      exact hfresh id hid ((h.seen_iff id).mpr hid')
    · intro id
      have hlayout : id ∈ placed (g.accept chain blocks pending) ↔ id ∈ chain ++ placed g :=
        hl.layout.mem_iff
      rw [hmem, h.seen_iff, hlayout, List.mem_append, or_comm]
    · intro id hid
      obtain hid | hid := (hmem id).mp hid
      · exact h.known id hid
      · obtain rfl | ⟨hknown, -⟩ := hl.others id hid
        · exact (mem_iff_lookup _ _).mpr ⟨e, he⟩
        · exact hknown
    · intro id hid
      exact h.orphan_known id (Finset.mem_sdiff.mp hid).1
    · intro id hid hin
      obtain ⟨ho, hnot⟩ := Finset.mem_sdiff.mp hid
      obtain hin | hin := (hmem id).mp hin
      · exact h.apart id ho hin
      · exact hnot (List.mem_toFinset.mpr hin)

theorem Laid.drain (h : Laid R evs g) (p : EventId) : Laid R evs (g.drain p).2 where
  nodup := h.nodup
  seen_iff := h.seen_iff
  known := h.known
  orphan_known := h.orphan_known
  apart := h.apart
  named := h.named
  waiting := fun q c hc => h.waiting q c (mem_waiters_drain.mp hc).2

section

variable {g' : Grouper} (h : Placement R g e g')
include h

/-- A placed event is in the blocks or waits. -/
theorem Placement.seen_or_orphaned : e.id ∈ g'.seen ∨ e.id ∈ g'.orphaned := by
  cases h with
  | kept hseen => exact .inl hseen
  | buffered => exact .inr (Finset.mem_insert_self _ _)
  | laid _ _ _ _ _ hl =>
    exact .inl (Finset.mem_union_right _ (List.mem_toFinset.mpr hl.mem))

theorem Placement.byId_eq : g'.byId = g.byId := by
  cases h <;> rfl

theorem Placement.policy_eq : g'.policy = g.policy := by
  cases h <;> rfl

theorem Placement.supersededBy_eq : g'.supersededBy = g.supersededBy := by
  cases h <;> rfl

end

end ThreadPlacement
