import NostrMultiPlatform.ThreadLayout

/-!
# The bookkeeping with parents in cycles

The parents that a resolver reads from tags may form cycles. An event may then be in
a chain twice, but it is still in one block only, and the side sets still agree with
the blocks.
-/
namespace ThreadTracking

open Runs Sorted Tables ThreadGrouper ThreadLayout ThreadPlacement ThreadReplay TimelineBlock
open ThreadGrouper.Grouper (replay restore scrub blockWithout chainBlock extendBlock)

variable {R : ParentResolver} {evs : List KernelEvent} {g g' : Grouper} {e : KernelEvent}

/-- The blocks take in a chain: as a block of its own, or the event alone at the end of a block. -/
inductive Laying (g : Grouper) (e : KernelEvent) : List EventId → List TimelineBlock → Prop
  | fresh (b : TimelineBlock) (hown : ∀ id, b.isStandalone id = true → id = e.id) :
    Laying g e b.ids (b :: g.blocks)
  | spliced (idx : Nat) (b b' : TimelineBlock) (hb : g.blocks[idx]? = some b)
    (hids : b'.ids = b.ids ++ [e.id]) (hmany : ∀ id, b'.isStandalone id = false) :
    Laying g e [e.id] (g.blocks.set idx b')

/-- What placing an event does, whatever the parents are. -/
inductive Placing (R : ParentResolver) (g : Grouper) (e : KernelEvent) : Grouper → Prop
  | kept (hseen : e.id ∈ g.seen) : Placing R g e g
  | buffered (p : EventId) (hseen : e.id ∉ g.seen) (hp : R.parentId e = some p)
    (hwait : p ∉ g.byId ∨ p ∈ g.orphaned) : Placing R g e (g.buffer p e.id)
  | laid (chain : List EventId) (blocks : List TimelineBlock) (pending : Finset EventId)
    (hseen : e.id ∉ g.seen) (hready : ∀ p, R.parentId e = some p → p ∈ g.byId ∧ p ∉ g.orphaned)
    (hmem : e.id ∈ chain)
    (hothers : ∀ id ∈ chain, id = e.id ∨ (id ∈ g.byId ∧ id ∉ g.orphaned ∧ id ∉ g.seen))
    (h : Laying g e chain blocks) : Placing R g e (g.accept chain blocks pending)

variable {b : TimelineBlock} {id : EventId} {blocks : List TimelineBlock} {idx : Nat}

theorem isStandalone_iff : b.isStandalone id = true ↔ ∃ root, b = .standalone id root := by
  cases b with
  | standalone | «module» => simp [isStandalone]

theorem ids_of_isStandalone (h : b.isStandalone id = true) : b.ids = [id] := by
  obtain ⟨root, rfl⟩ := isStandalone_iff.mp h
  rfl

theorem extendBlock_many {policy : ModulePolicy} {parentKev : Option KernelEvent}
    {rootHint : Option ThreadPointer} {b b' : TimelineBlock}
    (h : extendBlock policy e parentKev rootHint b = some b') (id : EventId) :
    b'.isStandalone id = false := by
  cases b with
  | standalone | «module» =>
    simp only [extendBlock] at h
    split at h <;> cases h
    rfl

theorem laying_splice {p : EventId} {out : Grouper × Nat} (h : g.splice R p e = some out) :
    ∃ blocks, out.1 = g.accept [e.id] blocks g.pendingAncestorIds ∧ Laying g e [e.id] blocks := by
  unfold Grouper.splice at h
  split at h
  · cases h
  next idx _ =>
    split at h
    · cases h
    next block hblock =>
      cases h
      obtain ⟨b, hb, hext⟩ := Option.bind_eq_some_iff.mp hblock
      exact ⟨_, rfl, .spliced idx b block hb (extendBlock_ids hext) (extendBlock_many hext)⟩

theorem laying_fresh (hnamed : ∀ id ev, g.byId.lookup id = some ev → ev.id = id ∧ ev ∈ evs)
    (he : e ∈ evs) :
    Laying g e (g.walkChain R e).chain (chainBlock (g.walkChain R e) :: g.blocks) := by
  have hwalk : Walked R evs g e (g.walkChain R e).chain := walked_walkChain hnamed he
  have hfresh : Laying g e (chainBlock (g.walkChain R e)).ids
      (chainBlock (g.walkChain R e) :: g.blocks) := by
    refine .fresh _ fun id hid => ?_
    have hchain := ids_of_isStandalone hid
    rw [ids_chainBlock] at hchain
    have hmem := hwalk.mem
    rw [hchain] at hmem
    exact (List.mem_singleton.mp hmem).symm
  rwa [ids_chainBlock] at hfresh

theorem placing (hnamed : ∀ id ev, g.byId.lookup id = some ev → ev.id = id ∧ ev ∈ evs)
    (he : e ∈ evs) : Placing R g e (g.placeEvent R e).1 := by
  have hwalk : Walked R evs g e (g.walkChain R e).chain := walked_walkChain hnamed he
  have hfresh : e.id ∉ g.seen →
      (∀ p, R.parentId e = some p → p ∈ g.byId ∧ p ∉ g.orphaned) →
      Placing R g e (g.placeFresh R e).1 := fun hseen hready =>
    .laid _ _ _ hseen hready hwalk.mem hwalk.others (laying_fresh hnamed he)
  unfold Grouper.placeEvent
  split
  next hseen => exact .kept hseen
  next hseen =>
    cases hp : R.parentId e with
    | none => exact hfresh hseen fun p hp' => by rw [hp] at hp'; cases hp'
    | some p =>
      dsimp only
      split
      next hwait => exact .buffered p hseen hp hwait
      next hready =>
        have hfree : ∀ q, R.parentId e = some q → q ∈ g.byId ∧ q ∉ g.orphaned := by
          intro q hq
          obtain rfl : p = q := Option.eq_some_unique hp hq
          exact ⟨by_contra fun hne => hready (.inl hne), fun ho => hready (.inr ho)⟩
        cases hsplice : g.splice R p e with
        | none => exact hfresh hseen hfree
        | some =>
          obtain ⟨blocks, hout, hlays⟩ := laying_splice hsplice
          dsimp only
          rw [hout]
          exact .laid _ _ _ hseen hfree (List.mem_singleton_self _)
            (fun id hid => .inl (List.mem_singleton.mp hid)) hlays

theorem Placing.byId_eq (h : Placing R g e g') : g'.byId = g.byId := by
  cases h <;> rfl

theorem Placing.seen_mono (h : Placing R g e g') (hid : id ∈ g.seen) : id ∈ g'.seen := by
  cases h with
  | kept | buffered => exact hid
  | laid => exact Finset.mem_union_left _ hid

theorem Placing.mem_waiters (h : Placing R g e g') {x c : EventId} :
    c ∈ waiters g' x → c ∈ waiters g x ∨
      (c = e.id ∧ R.parentId e = some x ∧ (x ∉ g.byId ∨ x ∈ g.orphaned)) := by
  cases h with
  | kept | laid => exact .inl
  | buffered p _ hp hwait =>
    intro hc
    obtain hc | ⟨rfl, rfl⟩ := mem_waiters_buffer.mp hc
    · exact .inl hc
    · exact .inr ⟨rfl, hp, hwait⟩

/-- No id is in two of the blocks. -/
def Separate (blocks : List TimelineBlock) : Prop :=
  blocks.Pairwise fun a b => ∀ id ∈ a.ids, id ∉ b.ids

/-- The side sets agree with the blocks, and who waits for an id names it as parent. -/
structure Tracked (R : ParentResolver) (evs : List KernelEvent) (g : Grouper) : Prop where
  separate : Separate g.blocks
  seen_iff : ∀ id, id ∈ g.seen ↔ id ∈ placed g
  known : ∀ id ∈ g.seen, id ∈ g.byId
  orphan_known : ∀ id ∈ g.orphaned, id ∈ g.byId
  named : ∀ id ev, g.byId.lookup id = some ev → ev.id = id ∧ ev ∈ evs
  waiting : ∀ p c, c ∈ waiters g p → ∃ ev, g.byId.lookup c = some ev ∧ R.parentId ev = some p

theorem tracked_new (R : ParentResolver) (evs : List KernelEvent) (policy : ModulePolicy) :
    Tracked R evs (.new policy) where
  separate := List.Pairwise.nil
  seen_iff := (laid_new R evs policy).seen_iff
  known := (laid_new R evs policy).known
  orphan_known := (laid_new R evs policy).orphan_known
  named := (laid_new R evs policy).named
  waiting := (laid_new R evs policy).waiting

theorem Tracked.lookup_self (h : Tracked R evs g) {ev : KernelEvent}
    (hev : g.byId.lookup id = some ev) : g.byId.lookup ev.id = some ev := by
  rw [(h.named id ev hev).1, hev]

theorem Tracked.placing (h : Tracked R evs g) {ev : KernelEvent} (hev : g.byId.lookup id = some ev)
    : Placing R g ev (g.placeEvent R ev).1 :=
  ThreadTracking.placing h.named (h.named id ev hev).2

/-- The parent of an event that is there. -/
def parentOf (R : ParentResolver) (g : Grouper) (y : EventId) : Option EventId :=
  (g.byId.lookup y).bind R.parentId

theorem parentOf_eq_some {y x : EventId} : parentOf R g y = some x ↔
    ∃ ev, g.byId.lookup y = some ev ∧ R.parentId ev = some x := Option.bind_eq_some_iff

theorem Tracked.parentOf_waiter (h : Tracked R evs g) {x y : EventId} (hy : y ∈ waiters g x) :
    parentOf R g y = some x := parentOf_eq_some.mpr (h.waiting x y hy)

theorem Tracked.not_waiting (h : Tracked R evs g) (hnew : e.id ∉ g.byId) (x : EventId) :
    e.id ∉ waiters g x := by
  intro hc
  obtain ⟨ev, hev, -⟩ := h.waiting x e.id hc
  exact hnew ((mem_iff_lookup _ _).mpr ⟨ev, hev⟩)

theorem Separate.perm {blocks blocks' : List TimelineBlock} (h : Separate blocks)
    (hperm : blocks'.Perm blocks) : Separate blocks' :=
  (hperm.pairwise_iff fun hab id hb ha => hab id ha hb).mpr h

theorem placed_cons (b : TimelineBlock) (blocks : List TimelineBlock) (id : EventId) :
    id ∈ (b :: blocks).flatMap ids ↔
      id ∈ b.ids ∨ id ∈ blocks.flatMap ids := by
  rw [List.flatMap_cons, List.mem_append]

theorem separate_cons :
    Separate (b :: blocks) ↔
      (∀ id ∈ b.ids, id ∉ blocks.flatMap ids) ∧ Separate blocks := by
  rw [Separate, List.pairwise_cons]
  refine and_congr_left fun _ => ⟨fun h id hid hin => ?_, fun h a ha id hid hin => ?_⟩
  · obtain ⟨a, ha, hin⟩ := List.mem_flatMap.mp hin
    exact h a ha id hid hin
  · exact h id hid (List.mem_flatMap.mpr ⟨a, ha, hin⟩)

/-- One block in front, the others behind it. -/
theorem perm_eraseIdx (hb : blocks[idx]? = some b) : blocks.Perm (b :: blocks.eraseIdx idx) := by
  obtain ⟨hlt, rfl⟩ := List.getElem?_eq_some_iff.mp hb
  exact (List.getElem_cons_eraseIdx_perm hlt).symm

theorem perm_set (b' : TimelineBlock) (hb : blocks[idx]? = some b) :
    (blocks.set idx b').Perm (b' :: blocks.eraseIdx idx) := by
  obtain ⟨hlt, -⟩ := List.getElem?_eq_some_iff.mp hb
  have hset : (blocks.set idx b')[idx]? = some b' := List.getElem?_set_self hlt
  have hperm := perm_eraseIdx hset
  rwa [List.eraseIdx_set_eq] at hperm

theorem mem_placed_perm {blocks blocks' : List TimelineBlock} (hperm : blocks'.Perm blocks)
    (id : EventId) :
    id ∈ blocks'.flatMap ids ↔ id ∈ blocks.flatMap ids :=
  (hperm.flatMap_right _).mem_iff

/-- Taking in a chain that is in no block keeps the blocks apart. -/
theorem Laying.separate {chain : List EventId} (h : Laying g e chain blocks)
    (hsep : Separate g.blocks) (hfresh : ∀ id ∈ chain, id ∉ placed g) :
    Separate blocks ∧
      ∀ id, id ∈ blocks.flatMap ids ↔ id ∈ chain ∨ id ∈ placed g := by
  cases h with
  | fresh b => exact ⟨separate_cons.mpr ⟨hfresh, hsep⟩, placed_cons b g.blocks⟩
  | spliced idx b b' hb hids =>
    have hold := perm_eraseIdx hb
    have hnew := perm_set b' hb
    have hmem : ∀ id, id ∈ placed g ↔
        id ∈ b.ids ∨ id ∈ (g.blocks.eraseIdx idx).flatMap ids := fun id =>
      (mem_placed_perm hold id).trans (placed_cons ..)
    obtain ⟨hapart, hrest⟩ := separate_cons.mp (hsep.perm hold.symm)
    refine ⟨Separate.perm (separate_cons.mpr ⟨fun id hid hin => ?_, hrest⟩) hnew, fun id => ?_⟩
    · rw [hids] at hid
      obtain hid | hid := List.mem_append.mp hid
      · exact hapart id hid hin
      · exact hfresh id hid ((hmem id).mpr (.inr hin))
    · rw [mem_placed_perm hnew, placed_cons, hids, List.mem_append, hmem, or_comm (a := id ∈ b.ids),
        or_assoc]

theorem Tracked.place (h : Tracked R evs g) (he : g.byId.lookup e.id = some e)
    (hg' : Placing R g e g') : Tracked R evs g' := by
  cases hg' with
  | kept => exact h
  | buffered _ _ hp =>
    refine ⟨h.separate, h.seen_iff, h.known, fun id hid => ?_, h.named, fun q c hc => ?_⟩
    · obtain rfl | hid := Finset.mem_insert.mp hid
      · exact (mem_iff_lookup _ _).mpr ⟨e, he⟩
      · exact h.orphan_known id hid
    · obtain hc | ⟨rfl, rfl⟩ := mem_waiters_buffer.mp hc
      · exact h.waiting q c hc
      · exact ⟨e, he, hp⟩
  | laid chain blocks pending hseen _ _ hothers hl =>
    have hfresh : ∀ id ∈ chain, id ∉ placed g := by
      intro id hid hin
      obtain rfl | ⟨-, -, hnot⟩ := hothers id hid
      · exact hseen ((h.seen_iff _).mpr hin)
      · exact hnot ((h.seen_iff id).mpr hin)
    obtain ⟨hsep, hplaced⟩ := hl.separate h.separate hfresh
    have hseen' (id : EventId) :
        id ∈ (g.accept chain blocks pending).seen ↔ id ∈ g.seen ∨ id ∈ chain := by
      simp [Grouper.accept]
    refine ⟨hsep, fun id => ?_, fun id hid => ?_, fun id hid => ?_, h.named, h.waiting⟩
    · rw [hseen', h.seen_iff, or_comm]
      exact (hplaced id).symm
    · obtain hid | hid := (hseen' id).mp hid
      · exact h.known id hid
      · obtain rfl | ⟨hknown, -⟩ := hothers id hid
        · exact (mem_iff_lookup _ _).mpr ⟨e, he⟩
        · exact hknown
    · exact h.orphan_known id (Finset.mem_sdiff.mp hid).1

theorem Tracked.drain (h : Tracked R evs g) (p : EventId) : Tracked R evs (g.drain p).2 where
  separate := h.separate
  seen_iff := h.seen_iff
  known := h.known
  orphan_known := h.orphan_known
  named := h.named
  waiting := fun q c hc => h.waiting q c (mem_waiters_drain.mp hc).2

/-- The blocks change, everything else stays. -/
theorem Tracked.of_blocks (h : Tracked R evs g) (hsep : Separate blocks)
    (hplaced : ∀ id, id ∈ blocks.flatMap ids ↔ id ∈ placed g) :
    Tracked R evs { g with blocks } where
  separate := hsep
  seen_iff := fun id => (h.seen_iff id).trans (hplaced id).symm
  known := h.known
  orphan_known := h.orphan_known
  named := h.named
  waiting := h.waiting

theorem tracked_sort (h : Tracked R evs g) : Tracked R evs g.sortBlocksNewestFirst :=
  h.of_blocks (h.separate.perm (List.perm_insertionSort _ _))
    (mem_placed_perm (List.perm_insertionSort _ _))

theorem separate_collapseFrom {maxSize : Nat} (block : TimelineBlock) (rest : List TimelineBlock)
    (h : Separate (block :: rest)) : Separate (collapseFrom maxSize block rest) := by
  induction rest generalizing block with
  | nil => exact h
  | cons next rest ih =>
    obtain ⟨hblock, htail⟩ := separate_cons.mp h
    obtain ⟨hnext, hrest⟩ := separate_cons.mp htail
    unfold collapseFrom
    split
    next merged hmerge =>
      refine ih merged (separate_cons.mpr ⟨fun id hid => ?_, hrest⟩)
      rw [(mergeBlocks_spec hmerge).1] at hid
      obtain hid | hid := List.mem_append.mp hid
      · exact hnext id hid
      · exact fun hin => hblock id hid ((placed_cons ..).mpr (.inr hin))
    next =>
      refine separate_cons.mpr ⟨fun id hid => ?_, ih next htail⟩
      rw [(collapseFrom_spec next rest).1.mem_iff]
      exact fun hin => hblock id hid (by rwa [List.flatMap_cons])

theorem tracked_collapse (h : Tracked R evs g) : Tracked R evs g.collapseAdjacent := by
  unfold Grouper.collapseAdjacent
  split
  · refine h.of_blocks ?_ fun id => (collapseBlocks_perm _ g.blocks).mem_iff
    have hsep := h.separate
    cases hblocks : g.blocks with
    | nil => exact List.Pairwise.nil
    | cons block rest =>
      rw [hblocks] at hsep
      exact separate_collapseFrom block rest hsep
  · exact h

theorem tracked_remember (h : Tracked R evs g) (he : e ∈ evs) (hnew : e.id ∉ g.byId) :
    Tracked R evs (g.remember e) where
  separate := h.separate
  seen_iff := h.seen_iff
  known := fun id hid => AList.mem_insert _ |>.mpr (.inr (h.known id hid))
  orphan_known := fun id hid => AList.mem_insert _ |>.mpr (.inr (h.orphan_known id hid))
  named := by
    intro id ev hev
    rw [Grouper.remember, lookup_insert_eq] at hev
    split at hev
    next hid =>
      cases hev
      exact ⟨hid.symm, he⟩
    next => exact h.named id ev hev
  waiting := by
    intro p c hc
    obtain ⟨ev, hev, hp⟩ := h.waiting p c hc
    refine ⟨ev, ?_, hp⟩
    rw [Grouper.remember, lookup_insert_eq, if_neg, hev]
    rintro rfl
    exact hnew ((mem_iff_lookup _ _).mpr ⟨ev, hev⟩)

/-- Taking one id out of the blocks and out of the seen set keeps the bookkeeping. -/
theorem Tracked.takeOut (h : Tracked R evs g) (hsep : Separate blocks)
    (hplaced : ∀ a, a ∈ blocks.flatMap ids ↔ a ∈ placed g ∧ a ≠ id) :
    Tracked R evs { g with blocks, seen := g.seen.erase id } where
  separate := hsep
  seen_iff := fun a => by
    rw [Finset.mem_erase, h.seen_iff, and_comm]
    exact (hplaced a).symm
  known := fun a ha => h.known a (Finset.mem_erase.mp ha).2
  orphan_known := h.orphan_known
  named := h.named
  waiting := h.waiting

/-- Without the block of the id, the id is in no block. -/
theorem Separate.erase_own (hsep : Separate g.blocks) (hb : g.blocks[idx]? = some b)
    (hids : ∀ a, a ∈ b.ids ↔ a = id) :
    Separate (g.blocks.eraseIdx idx) ∧
      ∀ a, a ∈ (g.blocks.eraseIdx idx).flatMap ids ↔ a ∈ placed g ∧ a ≠ id := by
  have hperm := perm_eraseIdx hb
  obtain ⟨hapart, hrest⟩ := separate_cons.mp (hsep.perm hperm.symm)
  refine ⟨hrest, fun a => ?_⟩
  rw [placed, mem_placed_perm hperm, placed_cons, hids]
  refine ⟨fun ha => ⟨.inr ha, ?_⟩, fun h => h.1.resolve_left h.2⟩
  rintro rfl
  exact hapart a ((hids a).mpr rfl) ha

/-- With a block in its place that lacks the id, the id is in no block. -/
theorem Separate.set_without {b b' : TimelineBlock} (hsep : Separate g.blocks)
    (hb : g.blocks[idx]? = some b) (hid : id ∈ b.ids) (hids : ∀ a, a ∈ b'.ids ↔ a ∈ b.ids ∧ a ≠ id)
    :
    Separate (g.blocks.set idx b') ∧
      ∀ a, a ∈ (g.blocks.set idx b').flatMap ids ↔ a ∈ placed g ∧ a ≠ id := by
  have hperm := perm_eraseIdx hb
  have hset := perm_set b' hb
  obtain ⟨hapart, hrest⟩ := separate_cons.mp (hsep.perm hperm.symm)
  refine ⟨Separate.perm (separate_cons.mpr ⟨fun a ha => hapart a ((hids a).mp ha).1, hrest⟩) hset,
    fun a => ?_⟩
  rw [mem_placed_perm hset, placed_cons, hids, placed, mem_placed_perm hperm, placed_cons,
    or_and_right]
  refine or_congr_right ⟨fun ha => ⟨ha, ?_⟩, And.left⟩
  rintro rfl
  exact hapart a hid ha

theorem tracked_unplace (h : Tracked R evs g) (id : EventId) :
    Tracked R evs (g.unplaceStandalone id) := by
  obtain ⟨heq, -⟩ | ⟨idx, b, hb, hids, -, heq⟩ := unplaceStandalone_cases g id
  · rw [heq]
    exact h
  · rw [heq]
    obtain ⟨hsep, hplaced⟩ := h.separate.erase_own hb fun a => by rw [hids, List.mem_singleton]
    exact h.takeOut hsep hplaced

theorem tracked_superseded (h : Tracked R evs g)
    (rows : SortedMap EventId (SortedSet EventId)) :
    Tracked R evs { g with supersededBy := rows } :=
  ⟨h.separate, h.seen_iff, h.known, h.orphan_known, h.named, h.waiting⟩

theorem tracked_preempt (h : Tracked R evs g) (e : KernelEvent) : Tracked R evs (g.preempt R e) := by
  unfold Grouper.preempt
  split
  · exact h
  · exact tracked_unplace (tracked_superseded h _) _

theorem tracked_receive (h : Tracked R evs g) (he : e ∈ evs) (hnew : e.id ∉ g.byId) :
    Tracked R evs (g.receive R e).2 :=
  (tracked_preempt (tracked_remember h he hnew) e).drain e.id

theorem receive_self (g : Grouper) (e : KernelEvent) :
    (g.receive R e).2.byId.lookup e.id = some e := by rw [receive_lookup, if_pos rfl]

theorem mem_receive (g : Grouper) (e : KernelEvent) (c : EventId) :
    c ∈ (g.receive R e).1 ↔ c ∈ waiters g e.id := by
  rw [Grouper.receive, mem_drain, waiters, preempt_orphans]
  rfl

theorem waiters_receive (g : Grouper) (e : KernelEvent) (x c : EventId) :
    c ∈ waiters (g.receive R e).2 x ↔ x ≠ e.id ∧ c ∈ waiters g x := by
  rw [Grouper.receive, mem_waiters_drain, waiters, preempt_orphans]
  rfl

theorem parentOf_receive (g : Grouper) {y : EventId} (hy : y ≠ e.id) :
    parentOf R (g.receive R e).2 y = parentOf R g y := by
  rw [parentOf, receive_lookup, if_neg hy, parentOf]

theorem seen_of_receive (hid : id ∈ (g.receive R e).2.seen) : id ∈ g.seen := by
  have hid : id ∈ ((g.remember e).preempt R e).seen := hid
  obtain ⟨-, heq⟩ | ⟨target, -, -, -, -, -, -, heq⟩ := preempt_cases (R := R) (g.remember e) e
  · rw [heq] at hid
    exact hid
  · rw [heq] at hid
    exact (Finset.mem_erase.mp hid).2

theorem Tracked.unseen_receive (h : Tracked R evs g) (hnew : e.id ∉ g.byId) :
    e.id ∉ (g.receive R e).2.seen := fun hin => hnew (h.known _ (seen_of_receive hin))

theorem tracked_replay {rounds : Nat} {stack : List EventId} (h : Tracked R evs g)
    (hend : replay R rounds stack g = some g') : Tracked R evs g' :=
  replay_rule (P := fun _ g => Tracked R evs g) (fun _ _ _ h _ => h)
    (fun x _ _ _ h _ hev => (h.place (h.lookup_self hev) (h.placing hev)).drain x) h hend

/-- What an insertion does: nothing, only remember the event, or place and replay. -/
theorem onInsert_split (g : Grouper) (e : KernelEvent) :
    (e.id ∈ g.byId ∧ (g.onInsert R e).map Prod.fst = some g) ∨
    (e.id ∉ g.byId ∧ g.supersededRow e.id ≠ ∅ ∧
      (g.onInsert R e).map Prod.fst = some (g.remember e)) ∨
    (e.id ∉ g.byId ∧ g.supersededRow e.id = ∅ ∧
      (g.onInsert R e).map Prod.fst = (replay R (g.receive R e).2.byId.keys.length
        (g.receive R e).1.reverse ((g.receive R e).2.placeEvent R e).1).map Grouper.settle) := by
  unfold Grouper.onInsert
  by_cases hknown : e.id ∈ g.byId
  · exact .inl ⟨hknown, by rw [if_pos hknown, Option.map_some]⟩
  by_cases hrow : g.supersededRow e.id ≠ ∅
  · refine .inr (.inl ⟨hknown, hrow, ?_⟩)
    rw [if_neg hknown, if_pos hrow, Option.map_some]
  refine .inr (.inr ⟨hknown, not_not.mp hrow, ?_⟩)
  rw [if_neg hknown, if_neg hrow]
  dsimp only
  cases replay R (g.receive R e).2.byId.keys.length (g.receive R e).1.reverse
    ((g.receive R e).2.placeEvent R e).1 <;> rfl

theorem tracked_onInsert (h : Tracked R evs g) (he : e ∈ evs)
    (hend : (g.onInsert R e).map Prod.fst = some g') : Tracked R evs g' := by
  obtain ⟨-, heq⟩ | ⟨hnew, -, heq⟩ | ⟨hnew, -, heq⟩ := onInsert_split (R := R) g e
  · obtain rfl : g = g' := Option.eq_some_unique heq hend
    exact h
  · obtain rfl : g.remember e = g' := Option.eq_some_unique heq hend
    exact tracked_remember h he hnew
  · obtain ⟨replayed, hreplay, rfl⟩ := Option.map_eq_some_iff.mp (heq.symm.trans hend)
    have hreceived := tracked_receive (R := R) h he hnew
    have hplaced := hreceived.place (receive_self g e) (hreceived.placing (receive_self g e))
    exact tracked_sort (tracked_collapse (tracked_sort (tracked_replay hplaced hreplay)))

/-- A block without one of its ids is nothing, or a block with the others. -/
theorem mem_blockWithout (hid : id ∈ b.ids) (a : EventId) :
    (∃ b', blockWithout id b = some b' ∧ a ∈ b'.ids) ↔ a ∈ b.ids ∧ a ≠ id := by
  cases b with
  | standalone eid =>
    obtain rfl : id = eid := List.mem_singleton.mp hid
    simp [blockWithout, ids]
  | «module» events =>
    have hfilter : a ∈ events.filter (fun e => e ≠ id) ↔ a ∈ events ∧ a ≠ id := by
      rw [List.mem_filter, decide_eq_true_eq]
    rw [ids, ← hfilter, blockWithout]
    generalize events.filter (fun e => e ≠ id) = rest
    rcases rest with _ | ⟨_, _ | _⟩
    · simp
    · simp [ids]
    · simp [ids]

/-- The removed id is in no block and in no set; a block that had it is left without it. -/
structure TakenOut (R : ParentResolver) (evs : List KernelEvent) (g : Grouper) (id : EventId)
    (out : Grouper) : Prop where
  tracked : Tracked R evs out
  byId : out.byId = g.byId.erase id
  orphaned : out.orphaned = g.orphaned.erase id
  superseded : out.supersededBy = scrub id (g.supersededBy.erase id)
  seen : ∀ a, a ∈ out.seen ↔ a ∈ g.seen ∧ a ≠ id
  blocks : ∀ b' ∈ out.blocks, b' ∈ g.blocks ∨ ∃ b ∈ g.blocks, id ∈ b.ids ∧
    blockWithout id b = some b'

theorem tracked_forget (h : Tracked R evs g) (id : EventId) (hsep : Separate blocks)
    (hplaced : ∀ a, a ∈ blocks.flatMap ids ↔ a ∈ placed g ∧ a ≠ id) :
    Tracked R evs { g.forget id with blocks, seen := g.seen.erase id } := by
  have hknown : ∀ a, a ∈ g.byId → a ≠ id → a ∈ g.byId.erase id := fun a ha hne =>
    (AList.mem_erase ..).mpr ⟨hne, ha⟩
  refine ⟨hsep, (h.takeOut hsep hplaced).seen_iff, fun a ha => ?_, fun a ha => ?_,
    fun a ev hev => ?_, fun p c hc => ?_⟩
  · obtain ⟨hne, ha⟩ := Finset.mem_erase.mp ha
    exact hknown a (h.known a ha) hne
  · obtain ⟨hne, ha⟩ := Finset.mem_erase.mp ha
    exact hknown a (h.orphan_known a ha) hne
  · rw [Grouper.forget, lookup_erase_eq] at hev
    split at hev
    · cases hev
    · exact h.named a ev hev
  · obtain ⟨hc, hne⟩ := mem_waiters_scrub.mp hc
    obtain ⟨ev, hev, hp⟩ := h.waiting p c hc
    exact ⟨ev, by rw [Grouper.forget, lookup_erase_eq, if_neg hne, hev], hp⟩

theorem taken_out (h : Tracked R evs g) (id : EventId) :
    TakenOut R evs g id ((g.forget id).removeIdFromBlocks id).1 := by
  have hout {blocks : List TimelineBlock} (hsep : Separate blocks)
      (hplaced : ∀ a, a ∈ blocks.flatMap ids ↔ a ∈ placed g ∧ a ≠ id)
      (hblocks : ∀ b' ∈ blocks, b' ∈ g.blocks ∨ ∃ b ∈ g.blocks, id ∈ b.ids ∧
        blockWithout id b = some b') :
      TakenOut R evs g id { g.forget id with blocks, seen := g.seen.erase id } :=
    ⟨tracked_forget h id hsep hplaced, rfl, rfl, rfl,
      fun a => by rw [Finset.mem_erase, and_comm], hblocks⟩
  unfold Grouper.removeIdFromBlocks
  split
  next hnot =>
    have hnot' : id ∉ g.seen := hnot
    have hkeep := hout h.separate (fun a => ?_) fun b hb => .inl hb
    · rw [Finset.erase_eq_of_notMem hnot'] at hkeep
      exact hkeep
    · refine ⟨fun ha => ⟨ha, ?_⟩, And.left⟩
      rintro rfl
      exact hnot' ((h.seen_iff _).mpr ha)
  next hin =>
    have hin : id ∈ g.seen := not_not.mp hin
    dsimp only
    split
    next hnone =>
      -- a seen id is in a block
      obtain ⟨b, hb, hid⟩ := List.mem_flatMap.mp ((h.seen_iff id).mp hin)
      have hnot := List.findIdx?_eq_none_iff.mp hnone b hb
      rw [List.contains_iff_mem.mpr hid] at hnot
      cases hnot
    next idx hidx =>
      obtain ⟨hlt, hb, -⟩ := List.findIdx?_eq_some_iff_getElem.mp hidx
      have hget : g.blocks[idx]? = some (g.blocks[idx]) := List.getElem?_eq_getElem hlt
      have hgetf : (g.forget id).blocks[idx]? = some (g.blocks[idx]) := hget
      have hmem : g.blocks[idx] ∈ g.blocks := List.getElem_mem hlt
      have hid : id ∈ (g.blocks[idx]).ids := List.contains_iff_mem.mp hb
      generalize g.blocks[idx] = b at hget hgetf hmem hid
      have hwithout := mem_blockWithout hid
      simp only [hgetf, Option.bind_some]
      cases hblock : blockWithout id b with
      | none =>
        have honly : ∀ a, a ∈ b.ids ↔ a = id := by
          intro a
          refine ⟨fun ha => by_contra fun hne => ?_, fun ha => ha ▸ hid⟩
          obtain ⟨b', hb', -⟩ := (hwithout a).mpr ⟨ha, hne⟩
          rw [hblock] at hb'
          cases hb'
        obtain ⟨hsep, hplaced⟩ := h.separate.erase_own hget honly
        exact hout hsep hplaced fun b hb => .inl (List.mem_of_mem_eraseIdx hb)
      | some b' =>
        have hids : ∀ a, a ∈ b'.ids ↔ a ∈ b.ids ∧ a ≠ id := by
          intro a
          rw [← hwithout a, hblock]
          exact ⟨fun ha => ⟨b', rfl, ha⟩, fun ⟨_, hb', ha⟩ => Option.some.inj hb' ▸ ha⟩
        obtain ⟨hsep, hplaced⟩ := h.separate.set_without hget hid hids
        refine hout hsep hplaced fun c hc => ?_
        obtain hc | rfl := List.mem_or_eq_of_mem_set hc
        · exact .inl hc
        · exact .inr ⟨b, hmem, hid, hblock⟩

theorem tracked_restore (h : Tracked R evs g) (targets : List EventId) :
    Tracked R evs (restore R targets g).1 :=
  restore_rule (P := fun _ g => Tracked R evs g) (fun _ _ _ h _ => h)
    (fun _ _ _ _ h _ hev => h.place (h.lookup_self hev) (h.placing hev)) h

theorem tracked_onRemove (h : Tracked R evs g) (id : EventId) :
    Tracked R evs (g.onRemove R id).1 := by
  have hremoved := (taken_out h id).tracked
  obtain heq | ⟨-, -, heq⟩ := onRemove_cases (R := R) g id
  · rw [heq]
    exact tracked_sort (tracked_collapse (tracked_restore hremoved _))
  · rw [heq]
    exact hremoved

/-- Every call that returns keeps the bookkeeping. -/
theorem tracked_step (h : Tracked R evs g) {op : Op} (hop : ∀ ev ∈ Op.events op, ev ∈ evs)
    (hstep : step R g op = some g') : Tracked R evs g' := by
  cases op with
  | onInsert event => exact tracked_onInsert h (hop event (List.mem_singleton_self _)) hstep
  | onRemove id =>
    obtain rfl : (g.onRemove R id).1 = g' := Option.some.inj hstep
    exact tracked_onRemove h id
  | onReplace oldId newEvent =>
    exact tracked_onInsert (tracked_onRemove h oldId)
      (hop newEvent (List.mem_singleton_self _)) hstep

theorem tracked_run (R : ParentResolver) (policy : ModulePolicy) (ops : List Op)
    (hops : ∀ op ∈ ops, ∀ ev ∈ Op.events op, ev ∈ evs)
    (hrun : run (stepAll R) (some (.new policy)) ops = some g) : Tracked R evs g := by
  have hmeets : Meets (stepAll R) (fun _ op => ∀ ev ∈ Op.events op, ev ∈ evs)
      (some (.new policy)) ops := meets_of_forall _ _ _ _ hops
  refine run_invariant (fun s => ∀ g, s = some g → Tracked R evs g) (fun s op hs hop g' hg' => ?_)
    (fun g hg => ?_) hmeets g hrun
  · obtain ⟨g, hg, hstep⟩ := Option.bind_eq_some_iff.mp hg'
    exact tracked_step (hs g hg) hop hstep
  · obtain rfl : Grouper.new policy = g := Option.some.inj hg
    exact tracked_new R evs policy

end ThreadTracking
