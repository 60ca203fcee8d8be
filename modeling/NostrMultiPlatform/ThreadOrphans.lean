import NostrMultiPlatform.ThreadLayout

/-!
# No event is lost

An event that is there is in a block, superseded by one that is there, or waits
below an ancestor that is not. This holds as long as no event is suppressed on
arrival while children wait for it: those are not released.
-/
namespace ThreadOrphans

open Ancestry Relation Runs Sorted Tables ThreadGrouper ThreadPlacement ThreadReplay SortedSet
open ThreadGrouper.Grouper (replay restore scrub)

variable {R : ParentResolver} {evs : List KernelEvent} {g g' : Grouper} {e : KernelEvent}

/-- The child is there and names the parent. -/
def ParentIn (R : ParentResolver) (g : Grouper) (p c : EventId) : Prop :=
  ∃ ev, g.byId.lookup c = some ev ∧ R.parentId ev = some p

/-- The id waits for its parent, which is not there or waits itself. -/
def Buffered (R : ParentResolver) (g : Grouper) (y : EventId) : Prop :=
  ∃ p, ParentIn R g p y ∧ y ∈ waiters g p ∧ (p ∉ g.byId ∨ p ∈ g.orphaned)

/-- The event may be placed now. -/
def Ready (R : ParentResolver) (g : Grouper) (e : KernelEvent) : Prop :=
  ∀ p, R.parentId e = some p → p ∈ g.byId ∧ p ∉ g.orphaned

theorem Buffered.not_ready (h : Buffered R g e.id) (he : g.byId.lookup e.id = some e) :
    ¬ Ready R g e := by
  obtain ⟨p, ⟨ev, hev, hp⟩, _, hwait⟩ := h
  rw [he] at hev
  cases hev
  intro hready
  obtain ⟨hknown, hnot⟩ := hready p hp
  exact hwait.elim (fun h => h hknown) hnot

/-- Placing an event keeps the others in wait, but for those that wait for it when it is ready. -/
theorem Buffered.place (hlaid : Laid R evs g) (he : g.byId.lookup e.id = some e)
    (hg' : Placement R g e g') {y : EventId} (hy : y ∈ g'.orphaned)
    (hold : y ≠ e.id → Buffered R g y) (hfree : Ready R g e → y ∉ waiters g e.id) :
    Buffered R g' y := by
  cases hg' with
  | kept hseen =>
    refine hold ?_
    rintro rfl
    exact hlaid.apart _ hy hseen
  | buffered p _ hp hwait =>
    by_cases hye : y = e.id
    · subst hye
      refine ⟨p, ⟨e, he, hp⟩, mem_waiters_buffer.mpr (.inr ⟨rfl, rfl⟩), ?_⟩
      exact hwait.imp_right Finset.mem_insert_of_mem
    · obtain ⟨q, hq, hmem, hout⟩ := hold hye
      exact ⟨q, hq, mem_waiters_buffer.mpr (.inl hmem), hout.imp_right Finset.mem_insert_of_mem⟩
  | laid _ _ _ _ hready hl =>
    obtain ⟨horphan, hnot⟩ := Finset.mem_sdiff.mp hy
    have hye : y ≠ e.id := by
      rintro rfl
      exact hnot (List.mem_toFinset.mpr hl.mem)
    obtain ⟨q, hq, hmem, hout⟩ := hold hye
    refine ⟨q, hq, hmem, hout.imp_right fun hqo => Finset.mem_sdiff.mpr ⟨hqo, fun hin => ?_⟩⟩
    obtain rfl | ⟨_, hfreeq, _⟩ := hl.others q (List.mem_toFinset.mp hin)
    · exact hfree hready hmem
    · exact hfreeq hqo

theorem waiters_mono (hg' : Placement R g e g') {p y : EventId} (hy : y ∈ waiters g p) :
    y ∈ waiters g' p := by
  cases hg' with
  | kept | laid => exact hy
  | buffered => exact mem_waiters_buffer.mpr (.inl hy)

theorem mem_orphaned_of_place (hg' : Placement R g e g') {y : EventId} (hy : y ∈ g'.orphaned)
    (hne : y ≠ e.id) : y ∈ g.orphaned := by
  cases hg' with
  | kept => exact hy
  | buffered => exact (Finset.mem_insert.mp hy).resolve_left hne
  | laid => exact (Finset.mem_sdiff.mp hy).1

theorem Buffered.drain {x y : EventId} (h : Buffered R g y) (hy : y ∉ waiters g x) :
    Buffered R (g.drain x).2 y := by
  obtain ⟨p, hp, hmem, hout⟩ := h
  refine ⟨p, hp, mem_waiters_drain.mpr ⟨?_, hmem⟩, hout⟩
  rintro rfl
  exact hy hmem

/-- The superseders of a target are there and name it. -/
def Owned (R : ParentResolver) (g : Grouper) : Prop :=
  ∀ t r, r ∈ g.supersededRow t → ∃ ev, g.byId.lookup r = some ev ∧ R.supersedes ev = some t

/-- Everything that is there is settled or superseded, up to the exempted ids, and who waits does
so for a reason, up to the ids on the stack. -/
structure Accounted (R : ParentResolver) (evs : List KernelEvent) (stack exempt : List EventId)
    (g : Grouper) : Prop where
  laid : Laid R evs g
  buffered : ∀ y ∈ g.orphaned, y ∉ stack → Buffered R g y
  shaded : ∀ x ∈ g.byId, x ∉ exempt → x ∈ g.seen ∨ x ∈ g.orphaned ∨ g.supersededRow x ≠ ∅
  owned : Owned R g

/-- Only the blocks change. -/
theorem Accounted.of_blocks {stack exempt : List EventId} (h : Accounted R evs stack exempt g)
    {blocks : List TimelineBlock}
    (hperm : (blocks.flatMap TimelineBlock.ids).Perm (placed g)) :
    Accounted R evs stack exempt { g with blocks } :=
  ⟨laid_of_blocks h.laid hperm, h.buffered, h.shaded, h.owned⟩

theorem accounted_sort (h : Accounted R evs [] [] g) :
    Accounted R evs [] [] g.sortBlocksNewestFirst :=
  h.of_blocks ((List.perm_insertionSort _ g.blocks).flatMap_right _)

theorem accounted_collapse (h : Accounted R evs [] [] g) :
    Accounted R evs [] [] g.collapseAdjacent := by
  unfold Grouper.collapseAdjacent
  split
  · exact h.of_blocks (collapseBlocks_perm _ g.blocks)
  · exact h

theorem supersededRow_eq (h : Placement R g e g') (id : EventId) :
    g'.supersededRow id = g.supersededRow id := by
  unfold Grouper.supersededRow
  rw [h.supersededBy_eq]

theorem Owned.place (h : Owned R g) (hg' : Placement R g e g') : Owned R g' := by
  intro t r hr
  rw [supersededRow_eq hg'] at hr
  obtain ⟨ev, hev, hsup⟩ := h t r hr
  exact ⟨ev, by rw [hg'.byId_eq, hev], hsup⟩

theorem shaded_place {exempt exempt' : List EventId} (hg' : Placement R g e g')
    (h : ∀ x ∈ g.byId, x ∉ exempt → x ∈ g.seen ∨ x ∈ g.orphaned ∨ g.supersededRow x ≠ ∅)
    (hexempt : ∀ x, x ∉ exempt' → x ≠ e.id → x ∉ exempt) :
    ∀ x ∈ g'.byId, x ∉ exempt' → x ∈ g'.seen ∨ x ∈ g'.orphaned ∨ g'.supersededRow x ≠ ∅ := by
  intro x hx hnot
  by_cases hxe : x = e.id
  · rw [hxe, ← or_assoc]
    exact .inl hg'.seen_or_orphaned
  · rw [hg'.byId_eq] at hx
    rw [supersededRow_eq hg', ← or_assoc]
    obtain hs | hs | hs := h x hx (hexempt x hnot hxe)
    · exact .inl (settled_mono hg' (.inl hs))
    · exact .inl (settled_mono hg' (.inr hs))
    · exact .inr hs

theorem accounted_replay (hacyclic : Acyclic (Parent R evs)) {rounds : Nat}
    {stack : List EventId} (h : Accounted R evs stack [] g)
    (hend : replay R rounds stack g = some g') : Accounted R evs [] [] g' := by
  refine replay_rule (P := fun stack g => Accounted R evs stack [] g) ?_ ?_ h hend
  · intro x stack g h hx
    refine ⟨h.laid, fun y hy hnot => h.buffered y hy fun hin => ?_, h.shaded, h.owned⟩
    obtain rfl | hin := List.mem_cons.mp hin
    · obtain hx | hx := hx
      · exact h.laid.apart y hy hx
      · exact hx (h.laid.orphan_known y hy)
    · exact hnot hin
  · intro x stack g ev h hseen hev
    have hplace := placement_of_lookup hacyclic h.laid hev
    have hself := lookup_self h.laid hev
    obtain ⟨hid, _⟩ := h.laid.named x ev hev
    have howned : Owned R (g.placeEvent R ev).1 := h.owned.place hplace
    have hshaded : ∀ y ∈ (g.placeEvent R ev).1.byId, y ∉ [] → y ∈ (g.placeEvent R ev).1.seen ∨
        y ∈ (g.placeEvent R ev).1.orphaned ∨ (g.placeEvent R ev).1.supersededRow y ≠ ∅ :=
      shaded_place hplace h.shaded fun _ _ _ => List.not_mem_nil
    refine ⟨(h.laid.place hself hplace).drain x, fun y hy hnot => ?_, hshaded, howned⟩
    rw [List.mem_append, List.mem_reverse, not_or] at hnot
    obtain ⟨hdrain, hstack⟩ := hnot
    refine Buffered.drain (Buffered.place h.laid hself hplace hy ?_ fun _ hin => ?_) hdrain
    · intro hne
      refine h.buffered y (mem_orphaned_of_place hplace hy hne) fun hin => ?_
      obtain rfl | hin := List.mem_cons.mp hin
      · exact hne hid.symm
      · exact hstack hin
    · rw [hid] at hin
      exact hdrain (waiters_mono hplace hin)

/-- The superseders after an event has preempted its target. -/
theorem mem_supersededRow_preempt (g : Grouper) (e : KernelEvent) (t r : EventId) :
    r ∈ (g.preempt R e).supersededRow t ↔
      r ∈ g.supersededRow t ∨ (R.supersedes e = some t ∧ r = e.id) := by
  unfold Grouper.preempt
  split
  next hnone => simp [hnone]
  next target htarget =>
    have hrows (g : Grouper) : (g.unplaceStandalone target).supersededBy = g.supersededBy := by
      unfold Grouper.unplaceStandalone
      split <;> rfl
    rw [Grouper.supersededRow, hrows, SortedMap.lookup_alter, Grouper.supersededRow]
    by_cases ht : t = target
    · subst ht
      simp [htarget, or_comm]
    · have hne : R.supersedes e ≠ some t := by
        rw [htarget]
        exact fun heq => ht (Option.some.inj heq).symm
      simp [ht, hne]

theorem waiters_receive (g : Grouper) (e : KernelEvent) (p c : EventId) :
    c ∈ waiters (g.receive R e).2 p ↔ p ≠ e.id ∧ c ∈ waiters g p := by
  have horphans : ((g.remember e).preempt R e).orphans = g.orphans :=
    preempt_orphans (g.remember e) e
  rw [Grouper.receive, mem_waiters_drain, waiters, horphans, waiters]

theorem mem_receive (g : Grouper) (e : KernelEvent) (c : EventId) :
    c ∈ (g.receive R e).1 ↔ c ∈ waiters g e.id := by
  have horphans : ((g.remember e).preempt R e).orphans = g.orphans :=
    preempt_orphans (g.remember e) e
  rw [Grouper.receive, mem_drain, waiters, horphans, waiters]

theorem mem_byId_remember (g : Grouper) (e : KernelEvent) (x : EventId) :
    x ∈ (g.remember e).byId ↔ x = e.id ∨ x ∈ g.byId := AList.mem_insert _

theorem owned_remember (h : Owned R g) (hnew : e.id ∉ g.byId) : Owned R (g.remember e) := by
  intro t r hr
  obtain ⟨ev, hev, hsup⟩ := h t r hr
  refine ⟨ev, ?_, hsup⟩
  rw [Grouper.remember, lookup_insert_eq, if_neg, hev]
  rintro rfl
  exact hnew ((mem_iff_lookup _ _).mpr ⟨ev, hev⟩)

/-- A new event does not give those in wait a parent, but for its own children. -/
theorem buffered_remember (hnew : e.id ∉ g.byId) {y : EventId} (h : Buffered R g y)
    (hy : y ∉ waiters g e.id) : Buffered R (g.remember e) y := by
  obtain ⟨p, ⟨ev, hev, hp⟩, hmem, hout⟩ := h
  refine ⟨p, ⟨ev, ?_, hp⟩, hmem, hout.imp_left fun hnot hin => ?_⟩
  · rw [Grouper.remember, lookup_insert_eq, if_neg, hev]
    rintro rfl
    exact hnew ((mem_iff_lookup _ _).mpr ⟨ev, hev⟩)
  · obtain rfl | hin := (mem_byId_remember g e p).mp hin
    · exact hy hmem
    · exact hnot hin

/-- A suppressed event on which nothing waits. -/
theorem accounted_remember (h : Accounted R evs [] [] g) (he : e ∈ evs) (hnew : e.id ∉ g.byId)
    (hrow : g.supersededRow e.id ≠ ∅) (hnone : waiters g e.id = ∅) :
    Accounted R evs [] [] (g.remember e) where
  laid := laid_remember h.laid he hnew
  buffered := fun y hy hnot => buffered_remember hnew (h.buffered y hy hnot) (by
    rw [hnone]; exact not_mem_empty y)
  shaded := by
    intro x hx hnot
    obtain rfl | hx := (mem_byId_remember g e x).mp hx
    · exact .inr (.inr hrow)
    · exact h.shaded x hx hnot
  owned := owned_remember h.owned hnew

/-- The grouper when the event is placed and its children are on the stack. -/
theorem accounted_start (hacyclic : Acyclic (Parent R evs)) (h : Accounted R evs [] [] g)
    (he : e ∈ evs) (hnew : e.id ∉ g.byId) :
    Accounted R evs (g.receive R e).1.reverse [] ((g.receive R e).2.placeEvent R e).1 := by
  have hreceived := laid_receive (R := R) h.laid he hnew
  have hself : (g.receive R e).2.byId.lookup e.id = some e := by rw [receive_lookup, if_pos rfl]
  have hplace := placement_of_lookup hacyclic hreceived hself
  have howned : Owned R (g.receive R e).2 := by
    intro t r hr
    have hr : r ∈ ((g.remember e).preempt R e).supersededRow t := hr
    obtain hr | ⟨hsup, rfl⟩ := (mem_supersededRow_preempt (g.remember e) e t r).mp hr
    · obtain ⟨ev, hev, hsup⟩ := owned_remember h.owned hnew t r hr
      refine ⟨ev, ?_, hsup⟩
      rw [← hev, Grouper.remember, lookup_insert_eq, receive_lookup]
    · exact ⟨e, hself, hsup⟩
  have hshaded : ∀ x ∈ (g.receive R e).2.byId, x ∉ [e.id] → x ∈ (g.receive R e).2.seen ∨
      x ∈ (g.receive R e).2.orphaned ∨ (g.receive R e).2.supersededRow x ≠ ∅ := by
    intro x hx hne
    have hx := ((ThreadLayout.mem_receive_byId g e x).mp hx).resolve_left
      fun h => hne (List.mem_singleton.mpr h)
    by_cases hseen : x ∈ (g.receive R e).2.seen
    · exact .inl hseen
    refine .inr ?_
    have hrow : (∃ r, r ∈ g.supersededRow x ∨ (R.supersedes e = some x ∧ r = e.id)) →
        (g.receive R e).2.supersededRow x ≠ ∅ := by
      rintro ⟨r, hr⟩
      exact ne_empty_iff.mpr
        ⟨r, (mem_supersededRow_preempt (g.remember e) e x r).mpr hr⟩
    obtain hnot | ⟨hsup, _⟩ := ThreadLayout.not_seen_receive g e hseen
    · obtain hs | hs | hs := h.shaded x hx List.not_mem_nil
      · exact absurd hs hnot
      · exact .inl (by rw [ThreadLayout.receive_orphaned]; exact hs)
      · obtain ⟨r, hr⟩ := ne_empty_iff.mp hs
        exact .inr (hrow ⟨r, .inl hr⟩)
    · exact .inr (hrow ⟨e.id, .inr ⟨hsup, rfl⟩⟩)
  refine ⟨hreceived.place hself hplace, fun y hy hnot => ?_, shaded_place hplace hshaded ?_,
    howned.place hplace⟩
  · rw [List.mem_reverse, mem_receive] at hnot
    refine Buffered.place hreceived hself hplace hy (fun hne => ?_) fun _ hin =>
      ((waiters_receive g e e.id y).mp hin).1 rfl
    have hy' := mem_orphaned_of_place hplace hy hne
    rw [ThreadLayout.receive_orphaned] at hy'
    obtain ⟨p, ⟨ev, hev, hp⟩, hmem, hout⟩ :=
      buffered_remember hnew (h.buffered y hy' List.not_mem_nil) hnot
    refine ⟨p, ⟨ev, ?_, hp⟩, (waiters_receive g e p y).mpr ⟨?_, hmem⟩, ?_⟩
    · rw [← hev, Grouper.remember, lookup_insert_eq, receive_lookup]
    · rintro rfl
      exact hnot hmem
    · rw [ThreadLayout.mem_receive_byId, ThreadLayout.receive_orphaned, ← mem_byId_remember]
      exact hout
  · intro x _ hne hin
    exact hne (List.mem_singleton.mp hin)

theorem supersededRow_removed {id : EventId} {out : Grouper × Option GroupDelta}
    (hr : Removed R evs g id out) {t : EventId} (ht : t ≠ id) :
    out.1.supersededRow t = (g.supersededRow t).erase id := by
  rw [Grouper.supersededRow, hr.superseded, scrub, SortedMap.lookup_filterMapRows,
    SortedMap.lookup_erase, if_neg ht, Grouper.supersededRow]
  cases g.supersededBy.lookup t with
  | none => exact (ext fun a => by simp)
  | some row =>
    rw [Option.bind_some, Option.getD_some]
    by_cases hempty : row.erase id = ∅
    · rw [if_pos hempty, hempty, Option.getD_none]
    · rw [if_neg hempty, Option.getD_some]

/-- Taking an id out leaves the targets to be restored, and otherwise every account. -/
theorem accounted_removed (h : Accounted R evs [] [] g) {id : EventId}
    {out : Grouper × Option GroupDelta} (hr : Removed R evs g id out) :
    Accounted R evs [] (g.restoreCandidates id) out.1 where
  laid := hr.laid
  buffered := by
    intro y hy _
    rw [hr.orphaned, Finset.mem_erase] at hy
    obtain ⟨p, ⟨ev, hev, hp⟩, hmem, hout⟩ := h.buffered y hy.2 List.not_mem_nil
    refine ⟨p, ⟨ev, ?_, hp⟩, ?_, ?_⟩
    · rw [hr.byId, lookup_erase_eq, if_neg hy.1, hev]
    · rw [waiters, hr.orphans]
      exact mem_waiters_scrub.mpr ⟨hmem, hy.1⟩
    · rw [hr.byId, hr.orphaned, AList.mem_erase, Finset.mem_erase]
      by_cases hpid : p = id
      · exact .inl fun hin => hin.1 hpid
      · exact hout.imp (fun hnot hin => hnot hin.2) fun hin => ⟨hpid, hin⟩
  shaded := by
    intro x hx hnot
    rw [hr.byId, AList.mem_erase] at hx
    obtain hs | hs | hs := h.shaded x hx.2 List.not_mem_nil
    · exact .inl ((hr.seen x).mpr ⟨hs, hx.1⟩)
    · exact .inr (.inl (by rw [hr.orphaned, Finset.mem_erase]; exact ⟨hx.1, hs⟩))
    · refine .inr (.inr fun hempty => hnot (mem_restoreCandidates.mpr ⟨hx.1, ?_⟩))
      rw [supersededRow_removed hr hx.1] at hempty
      cases hrow : g.supersededBy.lookup x with
      | none =>
        rw [Grouper.supersededRow, hrow] at hs
        exact absurd rfl hs
      | some row =>
        rw [Grouper.supersededRow, hrow] at hempty
        exact ⟨row, rfl, hempty⟩
  owned := by
    intro t r hmem
    by_cases ht : t = id
    · subst ht
      rw [Grouper.supersededRow, hr.superseded, scrub, SortedMap.lookup_filterMapRows,
        SortedMap.lookup_erase, if_pos rfl] at hmem
      exact absurd hmem (not_mem_empty r)
    · rw [supersededRow_removed hr ht, mem_erase] at hmem
      obtain ⟨ev, hev, hsup⟩ := h.owned t r hmem.1
      exact ⟨ev, by rw [hr.byId, lookup_erase_eq, if_neg hmem.2, hev], hsup⟩

theorem accounted_restore (hacyclic : Acyclic (Parent R evs)) {targets : List EventId}
    (h : Accounted R evs [] targets g) : Accounted R evs [] [] (restore R targets g).1 := by
  refine restore_rule (P := fun rest g => Accounted R evs [] rest g) ?_ ?_ h
  · intro x rest g h hx
    refine ⟨h.laid, h.buffered, fun y hy hnot => ?_, h.owned⟩
    by_cases hyx : y = x
    · subst hyx
      exact .inl (hx.resolve_right (not_not.mpr hy))
    · exact h.shaded y hy fun hin => (List.mem_cons.mp hin).elim hyx hnot
  · intro x rest g ev h hseen hev
    have hplace := placement_of_lookup hacyclic h.laid hev
    have hself := lookup_self h.laid hev
    obtain ⟨hid, _⟩ := h.laid.named x ev hev
    refine ⟨h.laid.place hself hplace, fun y hy _ => ?_, shaded_place hplace h.shaded ?_,
      h.owned.place hplace⟩
    · refine Buffered.place h.laid hself hplace hy (fun hne => h.buffered y
        (mem_orphaned_of_place hplace hy hne) List.not_mem_nil) fun hready hin => ?_
      -- who waits for the target waits because the target waits, and then it is not ready
      by_cases hye : y = ev.id
      · obtain ⟨cev, hcev, hp⟩ := h.laid.waiting _ _ hin
        obtain ⟨hcid, hcmem⟩ := h.laid.named _ _ hcev
        exact hacyclic.irrefl (a := ev.id) ⟨cev, hcmem, by rw [hcid, hye], hp⟩
      · obtain ⟨p, ⟨cev, hcev, hp⟩, _, hout⟩ :=
          h.buffered y (mem_orphaned_of_place hplace hy hye) List.not_mem_nil
        obtain ⟨cev', hcev', hp'⟩ := h.laid.waiting _ _ hin
        rw [hcev] at hcev'
        cases hcev'
        rw [hp] at hp'
        cases hp'
        obtain hnot | horphan := hout
        · exact hnot ((mem_iff_lookup _ _).mpr ⟨ev, hself⟩)
        · exact (h.buffered _ horphan List.not_mem_nil).not_ready hself hready
    · intro y hnot hne hin
      obtain rfl | hin := List.mem_cons.mp hin
      · exact hne hid.symm
      · exact hnot hin

/-- The event is not suppressed on arrival while children wait for it. -/
def Releases (R : ParentResolver) (g : Grouper) : Op → Prop
  | .onInsert event =>
    event.id ∈ g.byId ∨ g.supersededRow event.id = ∅ ∨ waiters g event.id = ∅
  | .onRemove _ => True
  | .onReplace oldId newEvent =>
    newEvent.id ∈ (g.onRemove R oldId).1.byId ∨
      (g.onRemove R oldId).1.supersededRow newEvent.id = ∅ ∨
      waiters (g.onRemove R oldId).1 newEvent.id = ∅

instance (g : Grouper) (op : Op) : Decidable (Releases R g op) :=
  match op with
  | .onInsert event => inferInstanceAs (Decidable (event.id ∈ g.byId ∨
      g.supersededRow event.id = ∅ ∨ waiters g event.id = ∅))
  | .onRemove _ => .isTrue trivial
  | .onReplace oldId newEvent => inferInstanceAs (Decidable
      (newEvent.id ∈ (g.onRemove R oldId).1.byId ∨
        (g.onRemove R oldId).1.supersededRow newEvent.id = ∅ ∨
        waiters (g.onRemove R oldId).1 newEvent.id = ∅))

section

variable (hacyclic : Acyclic (Parent R evs)) (h : Accounted R evs [] [] g)
include hacyclic h

theorem accounted_onInsert (he : e ∈ evs)
    (hrel : e.id ∈ g.byId ∨ g.supersededRow e.id = ∅ ∨ waiters g e.id = ∅) :
    ∃ g', (g.onInsert R e).map Prod.fst = some g' ∧ Accounted R evs [] [] g' := by
  obtain ⟨_, heq⟩ | ⟨hnew, hrow, heq⟩ | ⟨hnew, _, rounds, replayed, hreplay, heq⟩ :=
    onInsert_cases hacyclic h.laid he
  · exact ⟨g, heq, h⟩
  · have hnone : waiters g e.id = ∅ :=
      (hrel.resolve_left hnew).resolve_left hrow
    exact ⟨_, heq, accounted_remember h he hnew hrow hnone⟩
  · have hreplayed := accounted_replay hacyclic (accounted_start hacyclic h he hnew) hreplay
    exact ⟨_, heq, accounted_sort (accounted_collapse (accounted_sort hreplayed))⟩

theorem accounted_onRemove (id : EventId) : Accounted R evs [] [] (g.onRemove R id).1 := by
  have hrestored := accounted_restore hacyclic (accounted_removed h (removed h.laid id))
  obtain heq | ⟨_, hsame, heq⟩ := onRemove_cases (R := R) g id
  · rw [heq]
    exact accounted_sort (accounted_collapse hrestored)
  · rw [heq, ← hsame]
    exact hrestored

theorem accounted_step {op : Op} (hop : ∀ ev ∈ op.events, ev ∈ evs) (hrel : Releases R g op) :
    ∃ g', step R g op = some g' ∧ Accounted R evs [] [] g' := by
  cases op with
  | onInsert event =>
    exact accounted_onInsert hacyclic h (hop event (List.mem_singleton_self _)) hrel
  | onRemove id => exact ⟨_, rfl, accounted_onRemove hacyclic h id⟩
  | onReplace oldId newEvent =>
    exact accounted_onInsert hacyclic (accounted_onRemove hacyclic h oldId)
      (hop newEvent (List.mem_singleton_self _)) hrel

end

theorem accounted_new (R : ParentResolver) (evs : List KernelEvent) (policy : ModulePolicy) :
    Accounted R evs [] [] (.new policy) where
  laid := laid_new R evs policy
  buffered := fun y hy _ => absurd hy (Finset.notMem_empty y)
  shaded := fun x hx _ => absurd hx (AList.notMem_empty x)
  owned := fun _ r hr => absurd hr (not_mem_empty r)

/-- An event that is there names the id as its target. -/
def Superseded (R : ParentResolver) (g : Grouper) (x : EventId) : Prop :=
  ∃ r ev, g.byId.lookup r = some ev ∧ R.supersedes ev = some x

/-- Everything that is there is in a block, superseded, or in wait below an ancestor that is not
there; with all its ancestors there it is in a block or superseded. -/
structure NoneLost (R : ParentResolver) (g : Grouper) : Prop where
  accounted : ∀ x ∈ g.byId, x ∈ placed g ∨ Superseded R g x ∨
    (x ∈ g.orphaned ∧ ∃ a, TransGen (ParentIn R g) a x ∧ a ∉ g.byId)
  laid_out : ∀ x ∈ g.byId, (∀ a, TransGen (ParentIn R g) a x → a ∈ g.byId) →
    x ∈ placed g ∨ Superseded R g x

theorem Accounted.noneLost (hacyclic : Acyclic (Parent R evs)) (h : Accounted R evs [] [] g) :
    NoneLost R g := by
  have hin : Acyclic (ParentIn R g) := by
    refine hacyclic.mono ?_
    rintro p c ⟨ev, hev, hp⟩
    obtain ⟨hid, hmem⟩ := h.laid.named c ev hev
    exact ⟨ev, hmem, hid, hp⟩
  have hacc : ∀ x ∈ g.byId, x ∈ placed g ∨ Superseded R g x ∨
      (x ∈ g.orphaned ∧ ∃ a, TransGen (ParentIn R g) a x ∧ a ∉ g.byId) := by
    intro x hx
    obtain hseen | horphan | hrow := h.shaded x hx List.not_mem_nil
    · exact .inl ((h.laid.seen_iff x).mp hseen)
    · refine .inr (.inr ⟨horphan, hin.exists_out g.orphaned (fun y hy => ?_) horphan⟩)
      obtain ⟨p, hp, _, hout⟩ := h.buffered y hy List.not_mem_nil
      exact ⟨p, hp, hout⟩
    · obtain ⟨r, hr⟩ := ne_empty_iff.mp hrow
      obtain ⟨ev, hev, hsup⟩ := h.owned x r hr
      exact .inr (.inl ⟨r, ev, hev, hsup⟩)
  refine ⟨hacc, fun x hx hall => ?_⟩
  obtain hplaced | hsup | ⟨_, a, ha, hnot⟩ := hacc x hx
  · exact .inl hplaced
  · exact .inr hsup
  · exact absurd (hall a ha) hnot

/-- A run that suppresses no event on which children wait returns, and loses no event. -/
theorem none_lost (R : ParentResolver) (policy : ModulePolicy) (ops : List Op)
    (hacyclic : Acyclic (Parent R (ops.flatMap Op.events)))
    (hrel : Meets (stepAll R) (fun s op => ∀ g ∈ s, Releases R g op)
      (some (.new policy)) ops) :
    ∃ g, run (stepAll R) (some (.new policy)) ops = some g ∧ NoneLost R g := by
  have hops : Meets (stepAll R) (fun _ op => ∀ ev ∈ op.events, ev ∈ ops.flatMap Op.events)
      (some (.new policy)) ops :=
    meets_of_forall _ (fun op => ∀ ev ∈ op.events, ev ∈ ops.flatMap Op.events) _ ops
      fun op hop ev hev => List.mem_flatMap.mpr ⟨op, hop, hev⟩
  obtain ⟨g, hrun, hacc⟩ := run_invariant
    (fun s => ∃ g, s = some g ∧ Accounted R (ops.flatMap Op.events) [] [] g)
    (fun s op hs hok => by
      obtain ⟨g, rfl, hacc⟩ := hs
      exact accounted_step hacyclic hacc hok.2 (hok.1 g rfl))
    ⟨_, rfl, accounted_new R _ policy⟩ (hrel.and hops)
  exact ⟨g, hrun, hacc.noneLost hacyclic⟩

open ThreadLayout (tagResolver note reply repost acyclic_notes)

/-- A reply before its note, then a repost of the note, which goes again. -/
theorem none_lost_notes : ([Op.onInsert reply, .onInsert note, .onInsert repost,
    .onRemove "s"].length = 4) ∧ ∃ g, run (stepAll tagResolver) (some (.new .default))
      [.onInsert reply, .onInsert note, .onInsert repost, .onRemove "s"] = some g ∧
        NoneLost tagResolver g :=
  ⟨rfl, none_lost tagResolver .default _ (acyclic_notes _ (by decide)) (by decide +kernel)⟩

/-- A reply waits for its note; the note, reposted before it arrives, does not release it. -/
theorem reply_lost : ¬ ∀ (R : ParentResolver) (policy : ModulePolicy) (ops : List Op),
    Acyclic (Parent R (ops.flatMap Op.events)) →
      ∃ g, run (stepAll R) (some (.new policy)) ops = some g ∧ NoneLost R g := by
  intro h
  obtain ⟨g, hrun, hnone⟩ := h tagResolver .default
    [.onInsert reply, .onInsert repost, .onInsert note] (acyclic_notes _ (by decide))
  have hg : (run (stepAll tagResolver) (some (.new .default))
      [.onInsert reply, .onInsert repost, .onInsert note]).map
        (fun g => (placed g, g.byId.entries)) =
          some (["s"], [⟨"p", note⟩, ⟨"s", repost⟩, ⟨"c", reply⟩]) := by
    decide +kernel
  rw [hrun, Option.map_some, Option.some.injEq, Prod.mk.injEq] at hg
  obtain ⟨hplaced, hentries⟩ := hg
  have hbyId : g.byId = (((∅ : Table EventId KernelEvent).insert "c" reply).insert "s"
      repost).insert "p" note := AList.ext hentries
  have hevents {id : EventId} {ev : KernelEvent} (hev : g.byId.lookup id = some ev) :
      (id = "p" ∧ ev = note) ∨ (id = "s" ∧ ev = repost) ∨ (id = "c" ∧ ev = reply) := by
    rw [hbyId] at hev
    simp only [lookup_insert_eq] at hev
    split at hev
    next hid => exact .inl ⟨hid, (Option.some.inj hev).symm⟩
    · split at hev
      next hid => exact .inr (.inl ⟨hid, (Option.some.inj hev).symm⟩)
      · split at hev
        next hid => exact .inr (.inr ⟨hid, (Option.some.inj hev).symm⟩)
        · cases hev
  have hreply : "c" ∈ g.byId := by rw [hbyId]; decide
  have hparent : ∀ a, TransGen (ParentIn tagResolver g) a "c" → a = "p" := by
    intro a ha
    induction ha using TransGen.head_induction_on with
    | single hstep =>
      obtain ⟨ev, hev, hp⟩ := hstep
      obtain ⟨hid, _⟩ | ⟨hid, _⟩ | ⟨_, rfl⟩ := hevents hev
      · exact absurd hid (by decide)
      · exact absurd hid (by decide)
      · exact (Option.some.inj hp).symm
    | head hstep _ ih =>
      subst ih
      obtain ⟨ev, hev, hp⟩ := hstep
      obtain ⟨_, rfl⟩ | ⟨hid, _⟩ | ⟨hid, _⟩ := hevents hev
      · cases (show (none : Option EventId) = some _ from hp)
      · exact absurd hid (by decide)
      · exact absurd hid (by decide)
  obtain hin | ⟨r, ev, hev, hsup⟩ := hnone.laid_out "c" hreply fun a ha => by
    rw [hparent a ha, hbyId]
    decide
  · rw [hplaced] at hin
    exact absurd hin (by decide)
  · obtain ⟨_, rfl⟩ | ⟨_, rfl⟩ | ⟨_, rfl⟩ := hevents hev
    · exact absurd hsup (by decide)
    · exact absurd hsup (by decide)
    · exact absurd hsup (by decide)

end ThreadOrphans
