import NostrMultiPlatform.Runs
import NostrMultiPlatform.ThreadPlacement

/-!
# The calls of the grouper

A call keeps the bookkeeping of the layout. An insertion replays the children that
waited for the event; the replay ends because no event is its own ancestor.
-/
namespace ThreadReplay

open Ancestry Relation Sorted Tables ThreadGrouper ThreadPlacement TimelineBlock
open ThreadGrouper.Grouper (replay restore scrub blockWithout)

variable {R : ParentResolver} {evs : List KernelEvent} {g g' : Grouper} {e : KernelEvent}

variable {blocks : List TimelineBlock} {maxSize rounds : Nat} {ev : KernelEvent} {id : EventId}

/-- The blocks change, everything else stays. -/
theorem laid_of_blocks (h : Laid R evs g)
    (hperm : (blocks.flatMap ids).Perm (placed g)) :
    Laid R evs { g with blocks } where
  nodup := hperm.nodup_iff.mpr h.nodup
  seen_iff := fun id => (h.seen_iff id).trans hperm.mem_iff.symm
  known := h.known
  orphan_known := h.orphan_known
  apart := h.apart
  named := h.named
  waiting := h.waiting

theorem mergeBlocks_spec {a b m : TimelineBlock} (h : mergeBlocks maxSize a b = some m) :
    m.ids = b.ids ++ a.ids ∧
      (Sized maxSize a → Sized maxSize b → Sized maxSize m) := by
  unfold mergeBlocks at h
  split at h
  next newer _ _ older _ _ =>
    split at h
    next hfit =>
      cases h
      refine ⟨rfl, fun ha hb => ?_⟩
      rw [Sized, List.length_append]
      exact ⟨Nat.le_add_right_of_le hb.1, by omega⟩
    · cases h
  · cases h

theorem collapseFrom_spec (block : TimelineBlock) (rest : List TimelineBlock) :
    ((collapseFrom maxSize block rest).flatMap ids).Perm
        (block.ids ++ rest.flatMap ids) ∧
      ((∀ b ∈ block :: rest, Sized maxSize b) →
        ∀ b ∈ collapseFrom maxSize block rest, Sized maxSize b) := by
  induction rest generalizing block with
  | nil =>
    simp [collapseFrom]
  | cons next _ ih =>
    unfold collapseFrom
    split
    next merged hmerge =>
      obtain ⟨hids, hsized⟩ := mergeBlocks_spec hmerge
      refine ⟨(ih merged).1.trans ?_, fun hall => (ih merged).2 fun b hb => ?_⟩
      · rw [hids, List.flatMap_cons, ← List.append_assoc]
        exact List.perm_append_comm.append_right _
      · obtain rfl | hb := List.mem_cons.mp hb
        · exact hsized (hall block List.mem_cons_self)
            (hall next (List.mem_cons_of_mem _ List.mem_cons_self))
        · exact hall b (List.mem_cons_of_mem _ (List.mem_cons_of_mem _ hb))
    next =>
      refine ⟨?_, fun hall b hb => ?_⟩
      · rw [List.flatMap_cons, List.flatMap_cons]
        exact (ih next).1.append_left _
      · obtain rfl | hb := List.mem_cons.mp hb
        · exact hall b List.mem_cons_self
        · exact (ih next).2 (fun b hb => hall b (List.mem_cons_of_mem _ hb)) b hb

theorem collapseBlocks_perm (maxSize : Nat) (blocks : List TimelineBlock) :
    ((collapseBlocks maxSize blocks).flatMap ids).Perm
      (blocks.flatMap ids) := by
  cases blocks with
  | nil => exact List.Perm.refl _
  | cons block rest => exact (collapseFrom_spec block rest).1

theorem collapseBlocks_sized (h : ∀ b ∈ blocks, Sized maxSize b) :
    ∀ b ∈ collapseBlocks maxSize blocks, Sized maxSize b := by
  cases blocks with
  | nil => exact h
  | cons block rest => exact (collapseFrom_spec block rest).2 h

theorem laid_sort (h : Laid R evs g) : Laid R evs g.sortBlocksNewestFirst :=
  laid_of_blocks h ((List.perm_insertionSort _ g.blocks).flatMap_right _)

theorem laid_collapse (h : Laid R evs g) : Laid R evs g.collapseAdjacent := by
  unfold Grouper.collapseAdjacent
  split
  · exact laid_of_blocks h (collapseBlocks_perm _ g.blocks)
  · exact h

/-- All modules keep to the size of the policy. -/
def AllSized (g : Grouper) : Prop := ∀ b ∈ g.blocks, Sized g.policy.maxModuleSize b

/-- What each round of the replay keeps, the replay keeps. -/
theorem replay_rule {P : List EventId → Grouper → Prop}
    (hskip : ∀ x stack g, P (x :: stack) g → (x ∈ g.seen ∨ x ∉ g.byId) → P stack g)
    (hplace : ∀ x stack g ev, P (x :: stack) g → x ∉ g.seen → g.byId.lookup x = some ev → P (((g.placeEvent R ev).1.drain x).1.reverse ++ stack) ((g.placeEvent R ev).1.drain x).2)
    {stack : List EventId} (h : P stack g) (hend : replay R rounds stack g = some g') :
    P [] g' := by
  induction rounds generalizing stack g with
  | zero =>
    cases stack with
    | nil => cases hend; exact h
    | cons => cases hend
  | succ _ ih =>
    cases stack with
    | nil => cases hend; exact h
    | cons x stack =>
      unfold replay at hend
      split at hend
      next hseen => exact ih (hskip x stack g h (.inl hseen)) hend
      next hseen =>
        split at hend
        next hnone =>
          exact ih (hskip x stack g h (.inr ((lookup_none_iff _ _).mp hnone))) hend
        next ev hev => exact ih (hplace x stack g ev h hseen hev) hend

/-- The ids that were replayed or wait to be, all below the inserted one. -/
structure Replaying (R : ParentResolver) (evs : List KernelEvent) (root : EventId)
    (done stack : List EventId) (g : Grouper) : Prop where
  laid : Laid R evs g
  nodup : (stack ++ done).Nodup
  below : ∀ id ∈ stack ++ done, TransGen (Parent R evs) root id
  parent : ∀ id ∈ stack ++ done, ∃ ev, g.byId.lookup id = some ev ∧
    ∃ p, R.parentId ev = some p ∧ (p = root ∨ p ∈ done)
  settled : ∀ id, id = root ∨ id ∈ done → id ∈ g.seen ∨ id ∈ g.orphaned

theorem lookup_self (h : Laid R evs g) (hev : g.byId.lookup id = some ev) :
    g.byId.lookup ev.id = some ev := by
  rw [(h.named id ev hev).1, hev]

theorem placement_of_lookup (hacyclic : Acyclic (Parent R evs)) (h : Laid R evs g)
    (hev : g.byId.lookup id = some ev) : Placement R g ev (g.placeEvent R ev).1 :=
  placement hacyclic h.named (h.named id ev hev).2

/-- What is settled stays settled when an event is placed. -/
theorem settled_mono (h : Placement R g e g') (hid : id ∈ g.seen ∨ id ∈ g.orphaned) :
    id ∈ g'.seen ∨ id ∈ g'.orphaned := by
  cases h with
  | kept => exact hid
  | buffered => exact hid.imp_right Finset.mem_insert_of_mem
  | laid chain =>
    by_cases hin : id ∈ chain
    · exact .inl (Finset.mem_union_right _ (List.mem_toFinset.mpr hin))
    · obtain hid | hid := hid
      · exact .inl (Finset.mem_union_left _ hid)
      · exact .inr (Finset.mem_sdiff.mpr ⟨hid, fun h => hin (List.mem_toFinset.mp h)⟩)

theorem Replaying.skip {root x : EventId} {done stack : List EventId}
    (h : Replaying R evs root done (x :: stack) g) (hx : x ∈ g.seen ∨ x ∉ g.byId) :
    Replaying R evs root (x :: done) stack g := by
  have hperm : (stack ++ x :: done).Perm (x :: stack ++ done) := List.perm_middle
  refine ⟨h.laid, hperm.nodup_iff.mpr h.nodup, fun id hid => h.below id (hperm.mem_iff.mp hid),
    fun id hid => ?_, fun id hid => ?_⟩
  · obtain ⟨ev, hev, p, hp, hroot⟩ := h.parent id (hperm.mem_iff.mp hid)
    exact ⟨ev, hev, p, hp, hroot.imp_right (List.mem_cons_of_mem x)⟩
  · obtain hid | hid := hid
    · exact h.settled id (.inl hid)
    · obtain rfl | hid := List.mem_cons.mp hid
      · obtain ⟨ev, hev, _⟩ := h.parent id (List.mem_cons_self)
        exact .inl (hx.resolve_right fun hnot => hnot ((mem_iff_lookup _ _).mpr ⟨ev, hev⟩))
      · exact h.settled id (.inr hid)

theorem Replaying.place (hacyclic : Acyclic (Parent R evs)) {root x : EventId}
    {done stack : List EventId} (h : Replaying R evs root done (x :: stack) g)
    (hev : g.byId.lookup x = some ev) (hg' : Placement R g ev g') :
    Replaying R evs root (x :: done) ((g'.drain x).1.reverse ++ stack) (g'.drain x).2 := by
  obtain ⟨hid, hmem⟩ := h.laid.named x ev hev
  have hlaid : Laid R evs g' := h.laid.place (lookup_self h.laid hev) hg'
  have hbyId : (g'.drain x).2.byId = g.byId := hg'.byId_eq
  have hwait (c : EventId) (hc : c ∈ (g'.drain x).1) :
      ∃ ev, g.byId.lookup c = some ev ∧ R.parentId ev = some x := by
    obtain ⟨cev, hcev, hp⟩ := hlaid.waiting x c (mem_drain.mp hc)
    exact ⟨cev, by rw [← hg'.byId_eq, hcev], hp⟩
  -- a waiter of `x` was not in the replay, as `x` was not done and is not above itself
  have hnew (c : EventId) (hc : c ∈ (g'.drain x).1) : c ∉ x :: stack ++ done := by
    intro hin
    obtain ⟨cev, hcev, hp⟩ := hwait c hc
    obtain ⟨cev', hcev', p, hp', hroot⟩ := h.parent c hin
    rw [hcev] at hcev'
    cases hcev'
    rw [hp] at hp'
    cases hp'
    obtain rfl | hdone := hroot
    · exact hacyclic x (h.below x List.mem_cons_self)
    · exact (List.nodup_cons.mp h.nodup).1 (List.mem_append_right _ hdone)
  have hperm : ((g'.drain x).1.reverse ++ stack ++ x :: done).Perm
      ((g'.drain x).1.reverse ++ (x :: stack ++ done)) := by
    rw [List.append_assoc]
    exact List.perm_middle.append_left _
  have hcases {id : EventId} (hin : id ∈ (g'.drain x).1.reverse ++ stack ++ x :: done) :
      id ∈ (g'.drain x).1 ∨ id ∈ x :: stack ++ done :=
    (List.mem_append.mp (hperm.mem_iff.mp hin)).imp_left List.mem_reverse.mp
  refine ⟨hlaid.drain x, hperm.nodup_iff.mpr (List.nodup_append.mpr ⟨?_, h.nodup, ?_⟩),
    fun id hin => ?_, fun id hin => ?_, fun id hin => ?_⟩
  · exact List.nodup_reverse.mpr ((SortedSet.sorted _).imp fun hlt => hlt.ne)
  · rintro c hc _ hc' rfl
    exact hnew c (List.mem_reverse.mp hc) hc'
  · obtain hin | hin := hcases hin
    · obtain ⟨cev, hcev, hp⟩ := hwait id hin
      obtain ⟨hcid, hcmem⟩ := h.laid.named id cev hcev
      exact (h.below x List.mem_cons_self).tail ⟨cev, hcmem, hcid, hp⟩
    · exact h.below id hin
  · obtain hin | hin := hcases hin
    · obtain ⟨cev, hcev, hp⟩ := hwait id hin
      exact ⟨cev, by rw [hbyId, hcev], x, hp, .inr List.mem_cons_self⟩
    · obtain ⟨cev, hcev, p, hp, hroot⟩ := h.parent id hin
      exact ⟨cev, by rw [hbyId, hcev], p, hp, hroot.imp_right (List.mem_cons_of_mem x)⟩
  · have hset : id ∈ g'.seen ∨ id ∈ g'.orphaned := by
      obtain hin | hin := hin
      · exact settled_mono hg' (h.settled id (.inl hin))
      · obtain rfl | hin := List.mem_cons.mp hin
        · rw [← hid]
          exact hg'.seen_or_orphaned
        · exact settled_mono hg' (h.settled id (.inr hin))
    exact hset

/-- As many rounds as there are events suffice. -/
theorem replay_ends (hacyclic : Acyclic (Parent R evs)) {root : EventId} {done stack : List EventId}
    (h : Replaying R evs root done stack g) (hrounds : g.byId.keys.length ≤ rounds + done.length) :
    ∃ g', replay R rounds stack g = some g' := by
  induction rounds generalizing g done stack with
  | zero =>
    cases stack with
    | nil => exact ⟨g, rfl⟩
    | cons x stack =>
      have hsub : x :: done ⊆ g.byId.keys := by
        intro id hid
        obtain ⟨ev, hev, _⟩ := h.parent id (by
          obtain rfl | hid := List.mem_cons.mp hid
          · exact List.mem_cons_self
          · exact List.mem_append_right _ hid)
        exact AList.mem_keys.mp ((mem_iff_lookup _ _).mpr ⟨ev, hev⟩)
      have hnodup : (x :: done).Nodup :=
        h.nodup.sublist ((List.sublist_append_right stack done).cons_cons x)
      have hlen := (hnodup.subperm hsub).length_le
      rw [List.length_cons] at hlen
      omega
  | succ _ ih =>
    cases stack with
    | nil => exact ⟨g, rfl⟩
    | cons x =>
      unfold replay
      split
      next hseen =>
        exact ih (h.skip (.inl hseen)) (by rw [List.length_cons]; omega)
      next hseen =>
        split
        next hnone =>
          exact ih (h.skip (.inr ((lookup_none_iff _ _).mp hnone)))
            (by rw [List.length_cons]; omega)
        next ev hev =>
          have hg' := placement_of_lookup hacyclic h.laid hev
          have hbyId : ((g.placeEvent R ev).1.drain x).2.byId = g.byId := hg'.byId_eq
          exact ih (h.place hacyclic hev hg') (by rw [hbyId, List.length_cons]; omega)

theorem laid_remember (h : Laid R evs g) (he : e ∈ evs) (hnew : e.id ∉ g.byId) :
    Laid R evs (g.remember e) where
  nodup := h.nodup
  seen_iff := h.seen_iff
  known := fun id hid => AList.mem_insert _ |>.mpr (.inr (h.known id hid))
  orphan_known := fun id hid => AList.mem_insert _ |>.mpr (.inr (h.orphan_known id hid))
  apart := h.apart
  named := by
    intro id ev hev
    rw [Grouper.remember, lookup_insert_eq] at hev
    split at hev
    next hid =>
      cases hev
      exact ⟨hid.symm, he⟩
    next => exact h.named id ev hev
  waiting := by
    intro p c hc
    obtain ⟨ev, hev, hp⟩ := h.waiting p c hc
    refine ⟨ev, ?_, hp⟩
    rw [Grouper.remember, lookup_insert_eq, if_neg, hev]
    rintro rfl
    exact hnew ((mem_iff_lookup _ _).mpr ⟨ev, hev⟩)

/-- A block of its own leaves the layout with its id. -/
theorem unplaceStandalone_cases (g : Grouper) (id : EventId) :
    g.unplaceStandalone id = g ∧ (∀ b ∈ g.blocks, b.isStandalone id = false) ∨
      ∃ idx b, g.blocks[idx]? = some b ∧ b.ids = [id] ∧ b.isStandalone id = true ∧
        g.unplaceStandalone id =
          { g with blocks := g.blocks.eraseIdx idx, seen := g.seen.erase id } := by
  unfold Grouper.unplaceStandalone
  split
  next hnone => exact .inl ⟨rfl, by simpa using List.findIdx?_eq_none_iff.mp hnone⟩
  next idx hidx =>
    obtain ⟨hlt, hb, _⟩ := List.findIdx?_eq_some_iff_getElem.mp hidx
    refine .inr ⟨idx, _, List.getElem?_eq_getElem hlt, ?_, hb, rfl⟩
    cases hblock : g.blocks[idx] with
    | standalone =>
      rw [hblock] at hb
      rw [ids, eq_of_beq hb]
    | «module» => rw [hblock] at hb; cases hb

/-- Taking one id out of the layout and out of the seen set keeps the bookkeeping. -/
theorem laid_takeOut (h : Laid R evs g)
    (hperm : (placed g).Perm (id :: blocks.flatMap ids)) :
    Laid R evs { g with blocks, seen := g.seen.erase id } := by
  have hnodup := hperm.nodup_iff.mp h.nodup
  refine ⟨(List.nodup_cons.mp hnodup).2, fun a => ?_, ?_, h.orphan_known, ?_, h.named, h.waiting⟩
  · rw [Finset.mem_erase, h.seen_iff, hperm.mem_iff, List.mem_cons]
    constructor
    · rintro ⟨hne, rfl | ha⟩
      · exact absurd rfl hne
      · exact ha
    · intro ha
      refine ⟨?_, .inr ha⟩
      rintro rfl
      exact (List.nodup_cons.mp hnodup).1 ha
  · exact fun a ha => h.known a (Finset.mem_erase.mp ha).2
  · exact fun a ha hin => h.apart a ha (Finset.mem_erase.mp hin).2

theorem laid_unplace (h : Laid R evs g) (id : EventId) : Laid R evs (g.unplaceStandalone id) := by
  obtain ⟨heq, _⟩ | ⟨idx, b, hb, hids, _, heq⟩ := unplaceStandalone_cases g id
  · rw [heq]; exact h
  · rw [heq]
    refine laid_takeOut h ?_
    have hperm := flatMap_eraseIdx_perm hb
    rw [hids] at hperm
    exact hperm

theorem laid_superseded (h : Laid R evs g) (rows : SortedMap EventId (SortedSet EventId)) :
    Laid R evs { g with supersededBy := rows } :=
  ⟨h.nodup, h.seen_iff, h.known, h.orphan_known, h.apart, h.named, h.waiting⟩

theorem laid_preempt (h : Laid R evs g) (e : KernelEvent) : Laid R evs (g.preempt R e) := by
  unfold Grouper.preempt
  split
  · exact h
  · exact laid_unplace (laid_superseded h _) _

theorem unplace_byId (g : Grouper) (id : EventId) : (g.unplaceStandalone id).byId = g.byId := by
  unfold Grouper.unplaceStandalone
  split <;> rfl

theorem unplace_orphans (g : Grouper) (id : EventId) :
    (g.unplaceStandalone id).orphans = g.orphans := by
  unfold Grouper.unplaceStandalone
  split <;> rfl

theorem unplace_orphaned (g : Grouper) (id : EventId) :
    (g.unplaceStandalone id).orphaned = g.orphaned := by
  unfold Grouper.unplaceStandalone
  split <;> rfl

theorem unplace_policy (g : Grouper) (id : EventId) :
    (g.unplaceStandalone id).policy = g.policy := by
  unfold Grouper.unplaceStandalone
  split <;> rfl

theorem preempt_byId (g : Grouper) (e : KernelEvent) : (g.preempt R e).byId = g.byId := by
  unfold Grouper.preempt
  split
  · rfl
  · exact unplace_byId _ _

theorem preempt_orphans (g : Grouper) (e : KernelEvent) : (g.preempt R e).orphans = g.orphans := by
  unfold Grouper.preempt
  split
  · rfl
  · exact unplace_orphans _ _

theorem preempt_orphaned (g : Grouper) (e : KernelEvent) :
    (g.preempt R e).orphaned = g.orphaned := by
  unfold Grouper.preempt
  split
  · rfl
  · exact unplace_orphaned _ _

theorem preempt_policy (g : Grouper) (e : KernelEvent) : (g.preempt R e).policy = g.policy := by
  unfold Grouper.preempt
  split
  · rfl
  · exact unplace_policy _ _

theorem receive_lookup (g : Grouper) (e : KernelEvent) (id : EventId) :
    (g.receive R e).2.byId.lookup id = if id = e.id then some e else g.byId.lookup id := by
  rw [Grouper.receive, Grouper.drain, preempt_byId, Grouper.remember, lookup_insert_eq]

theorem laid_receive (h : Laid R evs g) (he : e ∈ evs) (hnew : e.id ∉ g.byId) :
    Laid R evs (g.receive R e).2 :=
  (laid_preempt (laid_remember h he hnew) e).drain e.id

/-- The children that waited for the event, once it is placed. -/
theorem replaying_start (hacyclic : Acyclic (Parent R evs)) (h : Laid R evs g) (he : e ∈ evs)
    (hnew : e.id ∉ g.byId) : Replaying R evs e.id [] (g.receive R e).1.reverse
      ((g.receive R e).2.placeEvent R e).1 := by
  have hreceived := laid_receive (R := R) h he hnew
  have hself : (g.receive R e).2.byId.lookup e.id = some e := by rw [receive_lookup, if_pos rfl]
  have hplace := placement_of_lookup hacyclic hreceived hself
  have hwait (c : EventId) (hc : c ∈ (g.receive R e).1) :
      ∃ ev, (g.receive R e).2.byId.lookup c = some ev ∧ R.parentId ev = some e.id := by
    have hbefore := laid_preempt (R := R) (laid_remember h he hnew) e
    exact hbefore.waiting e.id c (mem_drain.mp hc)
  refine ⟨hreceived.place hself hplace, ?_, fun c hc => ?_, fun c hc => ?_, fun id hid => ?_⟩
  · rw [List.append_nil]
    exact List.nodup_reverse.mpr ((SortedSet.sorted _).imp fun hlt => hlt.ne)
  · rw [List.append_nil, List.mem_reverse] at hc
    obtain ⟨ev, hev, hp⟩ := hwait c hc
    obtain ⟨hid, hmem⟩ := hreceived.named c ev hev
    exact .single ⟨ev, hmem, hid, hp⟩
  · rw [List.append_nil, List.mem_reverse] at hc
    obtain ⟨ev, hev, hp⟩ := hwait c hc
    exact ⟨ev, by rw [hplace.byId_eq, hev], e.id, hp, .inl rfl⟩
  · obtain rfl | hid := hid
    · exact hplace.seen_or_orphaned
    · exact absurd hid List.not_mem_nil

/-- What an insertion does: nothing, only remember the event, or place and replay. -/
theorem onInsert_cases (hacyclic : Acyclic (Parent R evs)) (h : Laid R evs g) (he : e ∈ evs) :
    (e.id ∈ g.byId ∧ (g.onInsert R e).map Prod.fst = some g) ∨
    (e.id ∉ g.byId ∧ g.supersededRow e.id ≠ ∅ ∧
      (g.onInsert R e).map Prod.fst = some (g.remember e)) ∨
    (e.id ∉ g.byId ∧ g.supersededRow e.id = ∅ ∧ ∃ rounds replayed,
      replay R rounds (g.receive R e).1.reverse ((g.receive R e).2.placeEvent R e).1 =
        some replayed ∧
      (g.onInsert R e).map Prod.fst = some replayed.settle) := by
  unfold Grouper.onInsert
  by_cases hknown : e.id ∈ g.byId
  · exact .inl ⟨hknown, by rw [if_pos hknown, Option.map_some]⟩
  by_cases hrow : g.supersededRow e.id ≠ ∅
  · refine .inr (.inl ⟨hknown, hrow, ?_⟩)
    rw [if_neg hknown, if_pos hrow, Option.map_some]
  have hself : (g.receive R e).2.byId.lookup e.id = some e := by rw [receive_lookup, if_pos rfl]
  have hbyId := (placement_of_lookup hacyclic (laid_receive (R := R) h he hknown) hself).byId_eq
  obtain ⟨replayed, hreplay⟩ : ∃ replayed, replay R (g.receive R e).2.byId.keys.length
      (g.receive R e).1.reverse ((g.receive R e).2.placeEvent R e).1 = some replayed :=
    replay_ends hacyclic (replaying_start hacyclic h he hknown)
      (by rw [hbyId, List.length_nil, Nat.add_zero])
  refine .inr (.inr ⟨hknown, not_not.mp hrow, _, replayed, hreplay, ?_⟩)
  rw [if_neg hknown, if_neg hrow]
  dsimp only
  rw [hreplay, Option.map_some]

theorem mem_waiters_scrub {id p c : EventId} :
    c ∈ ((scrub id g.orphans).lookup p).getD ∅ ↔ c ∈ waiters g p ∧ c ≠ id := by
  rw [scrub, SortedMap.lookup_filterMapRows, waiters]
  cases g.orphans.lookup p with
  | none => simp
  | some row =>
    rw [Option.bind_some, Option.getD_some]
    by_cases hempty : row.erase id = ∅
    · rw [if_pos hempty, Option.getD_none]
      have hnone := SortedSet.eq_empty_iff.mp hempty c
      rw [SortedSet.mem_erase] at hnone
      simpa using hnone
    · rw [if_neg hempty, Option.getD_some, SortedSet.mem_erase]

/-- The event is out of every side set but `seen`. -/
theorem forget_waiting (h : Laid R evs g) (id p c : EventId)
    (hc : c ∈ waiters (g.forget id) p) :
    ∃ ev, (g.forget id).byId.lookup c = some ev ∧ R.parentId ev = some p := by
  obtain ⟨hc, hne⟩ := mem_waiters_scrub.mp hc
  obtain ⟨ev, hev, hp⟩ := h.waiting p c hc
  exact ⟨ev, by rw [Grouper.forget, lookup_erase_eq, if_neg hne, hev], hp⟩

/-- A block without one of its ids is nothing, or a block with the other ids. -/
theorem blockWithout_spec {b : TimelineBlock} (hnodup : b.ids.Nodup) (hid : id ∈ b.ids) :
    (blockWithout id b = none ∧ b.ids = [id]) ∨
      ∃ b', blockWithout id b = some b' ∧ b.ids.Perm (id :: b'.ids) ∧
        ∀ maxSize, Sized maxSize b → Sized maxSize b' := by
  cases b with
  | standalone eid =>
    obtain rfl : id = eid := List.mem_singleton.mp hid
    exact .inl ⟨rfl, rfl⟩
  | «module» events _ root =>
    have hperm : events.Perm (id :: events.filter fun e => e ≠ id) := by
      have herase : events.erase id = events.filter fun e => e ≠ id := by
        rw [List.Nodup.erase_eq_filter (show events.Nodup from hnodup)]
        refine List.filter_congr fun e _ => ?_
        by_cases heq : e = id <;> simp [heq]
      rw [← herase]
      exact List.perm_cons_erase hid
    cases hrest : events.filter fun e => e ≠ id with
    | nil =>
      rw [hrest] at hperm
      exact .inl ⟨by rw [blockWithout, hrest], List.perm_singleton.mp hperm⟩
    | cons a rest =>
      rw [hrest] at hperm
      cases rest with
      | nil =>
        refine .inr ⟨.standalone a root, by rw [blockWithout, hrest], hperm, fun _ _ => trivial⟩
      | cons a' rest =>
        refine .inr ⟨.module (a :: a' :: rest) true root, by rw [blockWithout, hrest], hperm, ?_⟩
        intro maxSize hsized
        have hlen := hperm.length_eq
        rw [List.length_cons] at hlen
        exact ⟨by simp, by have := hsized.2; omega⟩

/-- The removed id is in no block and in no set; the other blocks and ids stay. -/
structure Removed (R : ParentResolver) (evs : List KernelEvent) (g : Grouper) (id : EventId)
    (out : Grouper × Option GroupDelta) : Prop where
  laid : Laid R evs out.1
  policy : out.1.policy = g.policy
  byId : out.1.byId = g.byId.erase id
  orphans : out.1.orphans = scrub id g.orphans
  orphaned : out.1.orphaned = g.orphaned.erase id
  superseded : out.1.supersededBy = scrub id (g.supersededBy.erase id)
  seen : ∀ a, a ∈ out.1.seen ↔ a ∈ g.seen ∧ a ≠ id
  sized : AllSized g → AllSized out.1
  same : out.2 = none → out.1.blocks = g.blocks ∧ id ∉ g.seen

theorem removed (h : Laid R evs g) (id : EventId) :
    Removed R evs g id ((g.forget id).removeIdFromBlocks id) := by
  have hknown (a : EventId) (ha : a ∈ g.seen ∨ a ∈ g.orphaned) (hne : a ≠ id) :
      a ∈ g.byId.erase id := by
    rw [AList.mem_erase]
    exact ⟨hne, ha.elim (h.known a) (h.orphan_known a)⟩
  have hnamed (a : EventId) (ev : KernelEvent) (hev : (g.byId.erase id).lookup a = some ev) :
      ev.id = a ∧ ev ∈ evs := by
    rw [lookup_erase_eq] at hev
    split at hev
    · cases hev
    · exact h.named a ev hev
  have hlaid (blocks : List TimelineBlock) (seen : Finset EventId)
      (hseen : ∀ a, a ∈ seen ↔ a ∈ g.seen ∧ a ≠ id)
      (hblocks : ∀ a, a ∈ blocks.flatMap ids ↔ a ∈ placed g ∧ a ≠ id)
      (hnodup : (blocks.flatMap ids).Nodup) :
      Laid R evs { g.forget id with blocks, seen } := by
    refine ⟨hnodup, fun a => ?_, fun a ha => ?_, fun a ha => ?_, fun a ha hin => ?_, hnamed,
      forget_waiting h id⟩
    · rw [hseen, h.seen_iff]
      exact (hblocks a).symm
    · obtain ⟨ha, hne⟩ := (hseen a).mp ha
      exact hknown a (.inl ha) hne
    · obtain ⟨hne, ha⟩ := Finset.mem_erase.mp ha
      exact hknown a (.inr ha) hne
    · exact h.apart a (Finset.mem_erase.mp ha).2 ((hseen a).mp hin).1
  have hout {blocks : List TimelineBlock} (hin : id ∈ g.seen)
      (hperm : (placed g).Perm (id :: blocks.flatMap ids))
      (hsized : AllSized g → ∀ b ∈ blocks, Sized g.policy.maxModuleSize b) (delta : GroupDelta) :
      Removed R evs g id
        ({ g.forget id with blocks, seen := g.seen.erase id }, some delta) := by
    have hnodup := hperm.nodup_iff.mp h.nodup
    have hseen (a : EventId) : a ∈ g.seen.erase id ↔ a ∈ g.seen ∧ a ≠ id := by
      rw [Finset.mem_erase, and_comm]
    refine ⟨hlaid _ _ hseen (fun a => ?_) (List.nodup_cons.mp hnodup).2, rfl, rfl, rfl, rfl, rfl,
      hseen, hsized, nofun⟩
    rw [hperm.mem_iff, List.mem_cons]
    constructor
    · intro ha
      refine ⟨.inr ha, ?_⟩
      rintro rfl
      exact (List.nodup_cons.mp hnodup).1 ha
    · rintro ⟨rfl | ha, hne⟩
      · exact absurd rfl hne
      · exact ha
  unfold Grouper.removeIdFromBlocks
  split
  next hnot =>
    have hnot' : id ∉ g.seen := hnot
    have hseen (a : EventId) : a ∈ g.seen ↔ a ∈ g.seen ∧ a ≠ id :=
      ⟨fun ha => ⟨ha, fun heq => hnot' (heq ▸ ha)⟩, And.left⟩
    refine ⟨hlaid g.blocks g.seen hseen (fun a => ?_) h.nodup, rfl, rfl, rfl, rfl, rfl, hseen,
      fun hs => hs, fun _ => ⟨rfl, hnot'⟩⟩
    rw [← placed, ← h.seen_iff]
    exact hseen a
  next hin =>
    have hin : id ∈ g.seen := not_not.mp hin
    dsimp only
    split
    next hnone =>
      -- a seen id is in a block
      obtain ⟨b, hb, hid⟩ := List.mem_flatMap.mp ((h.seen_iff id).mp hin)
      have hnot := List.findIdx?_eq_none_iff.mp hnone b hb
      rw [List.contains_iff_mem.mpr hid] at hnot
      cases hnot
    next idx hidx =>
      obtain ⟨hlt, hb, _⟩ := List.findIdx?_eq_some_iff_getElem.mp hidx
      have hget : g.blocks[idx]? = some (g.blocks[idx]) := List.getElem?_eq_getElem hlt
      have hmem : g.blocks[idx] ∈ g.blocks := List.getElem_mem hlt
      have hnodup : (g.blocks[idx]).ids.Nodup :=
        (List.nodup_flatMap.mp h.nodup).1 _ hmem
      have hperm := flatMap_eraseIdx_perm hget
      have hgetf : (g.forget id).blocks[idx]? = some (g.blocks[idx]) := hget
      obtain ⟨hnone, hids⟩ | ⟨b', hsome, hids, hsized⟩ :=
        blockWithout_spec hnodup (List.contains_iff_mem.mp hb)
      · simp only [hgetf, Option.bind_some, hnone]
        refine hout hin ?_ (fun hs b hb => hs b (List.mem_of_mem_eraseIdx hb)) _
        rw [hids] at hperm
        exact hperm
      · simp only [hgetf, Option.bind_some, hsome]
        refine hout hin ?_ (fun hs => forall_mem_set hs (hsized _ (hs _ hmem))) _
        exact hperm.trans ((hids.append_right _).trans
          ((flatMap_set_perm b' hget).symm.cons id))

/-- What each restored target keeps, the restoration keeps. -/
theorem restore_rule {P : List EventId → Grouper → Prop}
    (hskip : ∀ x rest g, P (x :: rest) g → (x ∈ g.seen ∨ x ∉ g.byId) → P rest g)
    (hplace : ∀ x rest g ev, P (x :: rest) g → x ∉ g.seen → g.byId.lookup x = some ev →
      P rest (g.placeEvent R ev).1) {targets : List EventId} (h : P targets g) :
    P [] (restore R targets g).1 := by
  induction targets generalizing g with
  | nil => exact h
  | cons x rest ih =>
    unfold restore
    split
    next hseen => exact ih (hskip x rest g h (.inl hseen))
    next hseen =>
      split
      next hnone => exact ih (hskip x rest g h (.inr ((lookup_none_iff _ _).mp hnone)))
      next ev hev => exact ih (hplace x rest g ev h hseen hev)

theorem restore_false {targets : List EventId} (h : (restore R targets g).2 = false) :
    (restore R targets g).1 = g := by
  induction targets generalizing g with
  | nil => rfl
  | cons _ _ ih =>
    unfold restore at h ⊢
    split
    next hseen =>
      rw [if_pos hseen] at h
      exact ih h
    next hseen =>
      rw [if_neg hseen] at h
      split
      next hnone =>
        rw [hnone] at h
        exact ih h
      next ev hev =>
        rw [hev] at h
        cases h

/-- A removal takes the id out, restores, and orders the blocks if any of them changed. -/
theorem onRemove_cases (g : Grouper) (id : EventId) :
    let removed := (g.forget id).removeIdFromBlocks id
    let restored := restore R (g.restoreCandidates id) removed.1
    (g.onRemove R id).1 = restored.1.collapseAdjacent.sortBlocksNewestFirst ∨
      (removed.2 = none ∧ restored.1 = removed.1 ∧ (g.onRemove R id).1 = removed.1) := by
  unfold Grouper.onRemove
  dsimp only
  split
  · exact .inl rfl
  next hquiet =>
    rw [Bool.or_eq_true, not_or] at hquiet
    have hsame := restore_false (Bool.not_eq_true _ ▸ hquiet.2)
    refine .inr ⟨?_, hsame, hsame⟩
    cases hdelta : ((g.forget id).removeIdFromBlocks id).2 with
    | none => rfl
    | some => rw [hdelta] at hquiet; exact absurd rfl hquiet.1

theorem mem_restoreCandidates {id t : EventId} : t ∈ g.restoreCandidates id ↔
    t ≠ id ∧ ∃ row, g.supersededBy.lookup t = some row ∧ row.erase id = ∅ := by
  unfold Grouper.restoreCandidates
  simp only [List.mem_map, List.mem_filter, decide_eq_true_eq, Prod.exists]
  constructor
  · rintro ⟨t, row, ⟨hmem, hempty⟩, rfl⟩
    have hlook := SortedMap.lookup_eq_some.mpr hmem
    rw [SortedMap.lookup_erase] at hlook
    split at hlook
    · cases hlook
    next hne => exact ⟨hne, row, hlook, hempty⟩
  · rintro ⟨hne, row, hlook, hempty⟩
    refine ⟨t, row, ⟨SortedMap.lookup_eq_some.mp ?_, hempty⟩, rfl⟩
    rw [SortedMap.lookup_erase, if_neg hne, hlook]

theorem restoreCandidates_sorted (g : Grouper) (id : EventId) :
    (g.restoreCandidates id).Pairwise (· < ·) :=
  List.pairwise_map.mpr ((g.supersededBy.erase id).sorted.filter _)

theorem laid_replay (hacyclic : Acyclic (Parent R evs)) {stack : List EventId} (h : Laid R evs g)
    (hend : replay R rounds stack g = some g') : Laid R evs g' :=
  replay_rule (P := fun _ g => Laid R evs g) (fun _ _ _ h _ => h)
    (fun x _ _ _ h _ hev =>
      (h.place (lookup_self h hev) (placement_of_lookup hacyclic h hev)).drain x) h hend

theorem laid_restore (hacyclic : Acyclic (Parent R evs)) (h : Laid R evs g)
    (targets : List EventId) : Laid R evs (restore R targets g).1 :=
  restore_rule (P := fun _ g => Laid R evs g) (fun _ _ _ h _ => h)
    (fun _ _ _ _ h _ hev => h.place (lookup_self h hev) (placement_of_lookup hacyclic h hev)) h

/-- A call in the middle of a run; a run has no state where a call did not return. -/
def stepAll (R : ParentResolver) (s : Option Grouper) (op : Op) : Option Grouper :=
  s.bind fun g => step R g op

end ThreadReplay
