import NostrMultiPlatform.ThreadReplay

/-!
# The layout is well formed

Every id is in one block, the seen set is the layout, and the blocks run from the
newest on. Modules keep to their size, except where a module may have one event
and a reply meets a parent that is there but in no block.
-/
namespace ThreadLayout

open Ancestry Relation Runs Tables ThreadGrouper ThreadPlacement ThreadReplay
open ThreadGrouper.Grouper (replay restore)

variable {R : ParentResolver} {evs : List KernelEvent} {g g' : Grouper} {e : KernelEvent}

theorem allSized_sort (h : AllSized g) : AllSized g.sortBlocksNewestFirst :=
  fun b hb => h b ((List.perm_insertionSort _ g.blocks).mem_iff.mp hb)

theorem allSized_collapse (h : AllSized g) : AllSized g.collapseAdjacent := by
  unfold Grouper.collapseAdjacent
  split
  · exact collapseBlocks_sized h
  · exact h

/-- The first block has an event that is at least as new as any of the second. -/
def NotOlder (g : Grouper) (a b : TimelineBlock) : Prop :=
  ∀ y ∈ b.ids, ∀ ey, g.byId.lookup y = some ey →
    ∃ x ∈ a.ids, ∃ ex, g.byId.lookup x = some ex ∧ ey.createdAt ≤ ex.createdAt

/-- The blocks run from the newest on. -/
def NewestFirst (g : Grouper) : Prop := g.blocks.Pairwise (NotOlder g)

/-- The block's key is that of one of its events, and no event has a later one. -/
theorem blockSortKey_spec {b : TimelineBlock} (hne : b.ids ≠ [])
    (hknown : ∀ id ∈ b.ids, id ∈ g.byId) :
    (∃ x ∈ b.ids, g.eventKey x = some (g.blockSortKey b)) ∧
      ∀ y ∈ b.ids, ∀ k, g.eventKey y = some k → k ≤ g.blockSortKey b := by
  have hkey (id : EventId) (hid : id ∈ b.ids) : ∃ k, g.eventKey id = some k := by
    obtain ⟨ev, hev⟩ := (mem_iff_lookup _ _).mp (hknown id hid)
    exact ⟨_, by rw [Grouper.eventKey, hev, Option.map_some]⟩
  cases b with
  | standalone id root =>
    obtain ⟨k, hk⟩ := hkey id (List.mem_singleton_self id)
    have heq : g.blockSortKey (.standalone id root) = k := by
      rw [Grouper.blockSortKey, hk, Option.getD_some]
    rw [heq]
    refine ⟨⟨id, List.mem_singleton_self id, hk⟩, fun y hy k' hk' => ?_⟩
    rw [List.mem_singleton.mp hy, hk] at hk'
    exact (Option.some.inj hk').ge
  | «module» events hasGap root =>
    cases hmax : (events.filterMap g.eventKey).max? with
    | none =>
      rw [List.max?_eq_none_iff, List.filterMap_eq_nil_iff] at hmax
      obtain ⟨id, hid⟩ := List.exists_mem_of_ne_nil _ hne
      obtain ⟨k, hk⟩ := hkey id hid
      rw [hmax id hid] at hk
      cases hk
    | some k =>
      have heq : g.blockSortKey (.module events hasGap root) = k := by
        rw [Grouper.blockSortKey, hmax, Option.getD_some]
      obtain ⟨hmem, hle⟩ := List.max?_eq_some_iff.mp hmax
      obtain ⟨x, hx, hk⟩ := List.mem_filterMap.mp hmem
      rw [heq]
      refine ⟨⟨x, hx, hk⟩, fun y hy k' hk' => ?_⟩
      exact hle k' (List.mem_filterMap.mpr ⟨y, hy, hk'⟩)

theorem allSized_ne_nil (h : AllSized g) : ∀ b ∈ g.blocks, b.ids ≠ [] := by
  intro b hb
  cases b with
  | standalone => exact List.cons_ne_nil _ _
  | «module» events =>
    intro hnil
    have hlen := (h _ hb).1
    rw [show events = [] from hnil] at hlen
    exact absurd hlen (by simp)

theorem notOlder_of_key {a b : TimelineBlock} (ha : a.ids ≠ [])
    (hknown : ∀ id ∈ a.ids ++ b.ids, id ∈ g.byId)
    (hkey : g.blockSortKey b ≤ g.blockSortKey a) : NotOlder g a b := by
  intro y hy ey hey
  have hknown_a : ∀ id ∈ a.ids, id ∈ g.byId := fun id hid =>
    hknown id (List.mem_append_left _ hid)
  have hknown_b : ∀ id ∈ b.ids, id ∈ g.byId := fun id hid =>
    hknown id (List.mem_append_right _ hid)
  obtain ⟨x, hx, hxkey⟩ := (blockSortKey_spec ha hknown_a).1
  obtain ⟨ex, hex⟩ := (mem_iff_lookup _ _).mp (hknown_a x hx)
  have hykey : g.eventKey y = some (toLex (ey.createdAt, ey.id)) := by
    rw [Grouper.eventKey, hey, Option.map_some]
  have hle := ((blockSortKey_spec (List.ne_nil_of_mem hy) hknown_b).2 y hy _ hykey).trans hkey
  rw [Grouper.eventKey, hex, Option.map_some, Option.some.injEq] at hxkey
  rw [← hxkey] at hle
  exact ⟨x, hx, ex, hex, Prod.Lex.monotone_fst _ _ hle⟩

theorem newestFirst_sort (h : Laid R evs g) (hsized : AllSized g) :
    NewestFirst g.sortBlocksNewestFirst := by
  have htotal : Std.Total fun a b : TimelineBlock => g.blockSortKey b ≤ g.blockSortKey a :=
    ⟨fun a b => le_total _ _⟩
  have htrans : IsTrans TimelineBlock fun a b => g.blockSortKey b ≤ g.blockSortKey a :=
    ⟨fun _ _ _ hab hbc => hbc.trans hab⟩
  have hperm := List.perm_insertionSort
    (fun a b => g.blockSortKey b ≤ g.blockSortKey a) g.blocks
  have hknown (b : TimelineBlock) (hb : b ∈ g.blocks) (id : EventId) (hid : id ∈ b.ids) :
      id ∈ g.byId :=
    h.known id ((h.seen_iff id).mpr (List.mem_flatMap.mpr ⟨b, hb, hid⟩))
  refine (List.pairwise_insertionSort _ g.blocks).imp_of_mem fun ha hb hkey => ?_
  have ha := hperm.mem_iff.mp ha
  have hb := hperm.mem_iff.mp hb
  refine notOlder_of_key (allSized_ne_nil hsized _ ha) (fun id hid => ?_) hkey
  obtain hid | hid := List.mem_append.mp hid
  · exact hknown _ ha id hid
  · exact hknown _ hb id hid

/-- The order speaks only of the events in the blocks. -/
theorem NewestFirst.congr (h : NewestFirst g) (hblocks : g'.blocks = g.blocks)
    (hsame : ∀ id ∈ placed g, g'.byId.lookup id = g.byId.lookup id) : NewestFirst g' := by
  rw [NewestFirst, hblocks]
  refine h.imp_of_mem fun {a b} ha hb hab y hy ey hey => ?_
  rw [hsame y (List.mem_flatMap.mpr ⟨b, hb, hy⟩)] at hey
  obtain ⟨x, hx, ex, hex, hle⟩ := hab y hy ey hey
  exact ⟨x, hx, ex, by rw [hsame x (List.mem_flatMap.mpr ⟨a, ha, hx⟩), hex], hle⟩

/-- The event is there, in no block and not in wait. -/
def Stranded (g : Grouper) (p : EventId) : Prop := p ∈ g.byId ∧ p ∉ g.orphaned ∧ p ∉ g.seen

/-- The parent of the new event is not stranded, nor is it by the event itself. -/
def InsertFits (R : ParentResolver) (g : Grouper) (e : KernelEvent) : Prop :=
  e.id ∈ g.byId ∨ g.supersededRow e.id ≠ ∅ ∨ ∀ p, R.parentId e = some p →
    ¬ Stranded g p ∧ ¬ (R.supersedes e = some p ∧ ∃ b ∈ g.blocks, b.isStandalone p = true)

/-- A restored target whose parent is stranded comes after its parent. -/
def RemoveFits (R : ParentResolver) (g : Grouper) (id : EventId) : Prop :=
  ∀ t ∈ g.restoreCandidates id, t ∉ g.seen → ∀ ev, g.byId.lookup t = some ev →
    ∀ p, R.parentId ev = some p → p ≠ id → Stranded g p → p ∈ g.restoreCandidates id ∧ p < t

/-- Modules may have two events, or no walk of the call takes up a parent. -/
def Fits (R : ParentResolver) (g : Grouper) (op : Op) : Prop :=
  2 ≤ g.policy.maxModuleSize ∨ g.policy.maxAncestorHops = 0 ∨
    match op with
    | .onInsert event => InsertFits R g event
    | .onRemove id => RemoveFits R g id
    | .onReplace oldId newEvent =>
      RemoveFits R g oldId ∧ InsertFits R (g.onRemove R oldId).1 newEvent

/-- There is room for two, or the walk takes no parent. -/
def Roomy (R : ParentResolver) (g : Grouper) (e : KernelEvent) : Prop :=
  2 ≤ g.policy.maxModuleSize ∨ ¬ WalksIn R g e

theorem allSized_place (h : AllSized g) (hroom : Roomy R g e) (hg' : Placement R g e g') :
    AllSized g' := by
  cases hg' with
  | kept | buffered => exact h
  | laid _ _ _ _ _ hl => exact hl.sized h hroom

/-- Preempting takes no block out, or the standalone block of the target. -/
theorem preempt_cases (g : Grouper) (e : KernelEvent) :
    ((g.preempt R e).blocks = g.blocks ∧ (g.preempt R e).seen = g.seen) ∨
      ∃ target idx b, R.supersedes e = some target ∧ g.blocks[idx]? = some b ∧
        b.isStandalone target = true ∧ (g.preempt R e).blocks = g.blocks.eraseIdx idx ∧
        (g.preempt R e).seen = g.seen.erase target := by
  unfold Grouper.preempt
  split
  · exact .inl ⟨rfl, rfl⟩
  next target htarget =>
    generalize (g.supersededBy.alter target fun row => insert e.id (row.getD ∅)) = rows
    obtain ⟨heq, _⟩ | ⟨idx, b, hb, _, hstand, heq⟩ :=
      unplaceStandalone_cases { g with supersededBy := rows } target
    · rw [heq]
      exact .inl ⟨rfl, rfl⟩
    · rw [heq]
      exact .inr ⟨target, idx, b, htarget, hb, hstand, rfl, rfl⟩

theorem allSized_receive (h : AllSized g) (e : KernelEvent) : AllSized (g.receive R e).2 := by
  have hblocks : ∀ b ∈ ((g.remember e).preempt R e).blocks, b ∈ g.blocks := by
    intro b hb
    obtain ⟨heq, _⟩ | ⟨_, idx, _, _, _, _, heq, _⟩ := preempt_cases (R := R) (g.remember e) e
    · rw [heq] at hb
      exact hb
    · rw [heq] at hb
      exact List.mem_of_mem_eraseIdx hb
  intro b hb
  have hpolicy : (g.receive R e).2.policy = g.policy := preempt_policy (g.remember e) e
  rw [hpolicy]
  exact h b (hblocks b hb)

theorem mem_receive_byId (g : Grouper) (e : KernelEvent) (p : EventId) :
    p ∈ (g.receive R e).2.byId ↔ p = e.id ∨ p ∈ g.byId := by
  rw [mem_iff_lookup, mem_iff_lookup, receive_lookup]
  by_cases hp : p = e.id
  · simp [hp]
  · simp [hp]

/-- What the admission takes out of the seen set was a standalone target. -/
theorem not_seen_receive (g : Grouper) (e : KernelEvent) {p : EventId}
    (hp : p ∉ (g.receive R e).2.seen) : p ∉ g.seen ∨
      (R.supersedes e = some p ∧ ∃ b ∈ g.blocks, b.isStandalone p = true) := by
  have hnot : p ∉ ((g.remember e).preempt R e).seen := hp
  obtain ⟨_, heq⟩ | ⟨target, _, b, htarget, hb, hstand, _, heq⟩ :=
    preempt_cases (R := R) (g.remember e) e
  · rw [heq] at hnot
    exact .inl hnot
  · rw [heq] at hnot
    by_cases hpt : p = target
    · subst hpt
      exact .inr ⟨htarget, b, List.mem_of_getElem? hb, hstand⟩
    · exact .inl fun hin => hnot (Finset.mem_erase.mpr ⟨hpt, hin⟩)

theorem receive_policy (g : Grouper) (e : KernelEvent) : (g.receive R e).2.policy = g.policy :=
  preempt_policy (g.remember e) e

theorem receive_orphaned (g : Grouper) (e : KernelEvent) : (g.receive R e).2.orphaned = g.orphaned :=
  preempt_orphaned (g.remember e) e

theorem roomy_receive (hacyclic : Acyclic (Parent R evs)) (he : e ∈ evs)
    (hfits : 2 ≤ g.policy.maxModuleSize ∨ g.policy.maxAncestorHops = 0 ∨ InsertFits R g e)
    (hnew : e.id ∉ g.byId) (hrow : g.supersededRow e.id = ∅) :
    Roomy R (g.receive R e).2 e := by
  obtain htwo | hops | hfits := hfits
  · exact .inl (by rw [receive_policy]; exact htwo)
  · refine .inr fun hwalk => ?_
    have hpos := hwalk.1
    rw [receive_policy] at hpos
    omega
  · refine .inr ?_
    rintro ⟨_, p, hp, hknown, horphan, hseen⟩
    obtain hbad | hbad | hfree := hfits
    · exact hnew hbad
    · exact hbad hrow
    have hne : p ≠ e.id := by
      rintro rfl
      exact hacyclic.irrefl ⟨e, he, rfl, hp⟩
    rw [receive_orphaned] at horphan
    obtain hseen | hpreempt := not_seen_receive g e hseen
    · refine (hfree p hp).1 ⟨?_, horphan, hseen⟩
      exact ((mem_receive_byId g e p).mp hknown).resolve_left hne
    · exact (hfree p hp).2 hpreempt

/-- A replayed child finds its parent settled. -/
theorem sized_replay (hacyclic : Acyclic (Parent R evs)) {root : EventId} {rounds : Nat}
    {stack : List EventId} (h : Replaying R evs root [] stack g) (hsized : AllSized g)
    (hend : replay R rounds stack g = some g') : AllSized g' := by
  have hall : (∃ done, Replaying R evs root done [] g') ∧ AllSized g' := by
    refine replay_rule (P := fun stack g => (∃ done, Replaying R evs root done stack g) ∧
      AllSized g) ?_ ?_ ⟨⟨[], h⟩, hsized⟩ hend
    · rintro x stack g ⟨⟨done, hrep⟩, hsized⟩ hx
      exact ⟨⟨x :: done, hrep.skip hx⟩, hsized⟩
    · rintro x stack g ev ⟨⟨done, hrep⟩, hsized⟩ hseen hev
      have hplace := placement_of_lookup hacyclic hrep.laid hev
      refine ⟨⟨x :: done, hrep.place hacyclic hev hplace⟩, ?_⟩
      have hroom : Roomy R g ev := by
        refine .inr ?_
        rintro ⟨_, p, hp, _, horphan, hnot⟩
        obtain ⟨ev', hev', p', hp', hroot⟩ := hrep.parent x List.mem_cons_self
        rw [hev] at hev'
        cases hev'
        rw [hp] at hp'
        cases hp'
        exact (hrep.settled p hroot).elim hnot horphan
      have hnext : AllSized (g.placeEvent R ev).1 := allSized_place hsized hroom hplace
      exact hnext
  exact hall.2

/-- What holds while the targets are restored; `start` is the grouper before the first. -/
structure Restoring (R : ParentResolver) (evs : List KernelEvent) (start : Grouper)
    (all rest : List EventId) (g : Grouper) : Prop where
  laid : Laid R evs g
  sized : AllSized g
  policy : g.policy = start.policy
  byId : g.byId = start.byId
  sorted : rest.Pairwise (· < ·)
  within : rest ⊆ all
  seen : ∀ a ∈ start.seen, a ∈ g.seen
  kept : ∀ a, a ∈ start.seen ∨ a ∈ start.orphaned → a ∈ g.seen ∨ a ∈ g.orphaned
  done : ∀ a ∈ all, a ∉ rest → a ∈ g.byId → a ∈ g.seen ∨ a ∈ g.orphaned

theorem seen_mono {a : EventId} (hg' : Placement R g e g') (ha : a ∈ g.seen) : a ∈ g'.seen := by
  cases hg' with
  | kept | buffered => exact ha
  | laid => exact Finset.mem_union_left _ ha

theorem Restoring.skip {start : Grouper} {all rest : List EventId} {x : EventId}
    (h : Restoring R evs start all (x :: rest) g) (hx : x ∈ g.seen ∨ x ∉ g.byId) :
    Restoring R evs start all rest g where
  laid := h.laid
  sized := h.sized
  policy := h.policy
  byId := h.byId
  sorted := (List.pairwise_cons.mp h.sorted).2
  within := List.subset_of_cons_subset h.within
  seen := h.seen
  kept := h.kept
  done := by
    intro a ha hnot hknown
    by_cases hax : a = x
    · subst hax
      exact .inl (hx.resolve_right (not_not.mpr hknown))
    · exact h.done a ha (fun hin => (List.mem_cons.mp hin).elim hax hnot) hknown

theorem Restoring.place (hacyclic : Acyclic (Parent R evs)) {start : Grouper}
    {all rest : List EventId} {x : EventId} {ev : KernelEvent}
    (h : Restoring R evs start all (x :: rest) g) (hev : g.byId.lookup x = some ev)
    (hroom : Roomy R g ev) : Restoring R evs start all rest (g.placeEvent R ev).1 := by
  have hplace := placement_of_lookup hacyclic h.laid hev
  have hid := (h.laid.named x ev hev).1
  refine ⟨h.laid.place (lookup_self h.laid hev) hplace, allSized_place h.sized hroom hplace,
    hplace.policy_eq.trans h.policy, hplace.byId_eq.trans h.byId,
    (List.pairwise_cons.mp h.sorted).2, List.subset_of_cons_subset h.within,
    fun a ha => seen_mono hplace (h.seen a ha), fun a ha => settled_mono hplace (h.kept a ha), ?_⟩
  intro a ha hnot hknown
  by_cases hax : a = x
  · rw [hax, ← hid]
    exact hplace.seen_or_orphaned
  · rw [hplace.byId_eq] at hknown
    exact settled_mono hplace
      (h.done a ha (fun hin => (List.mem_cons.mp hin).elim hax hnot) hknown)

theorem sized_restore (hacyclic : Acyclic (Parent R evs)) (h : Laid R evs g) (hsized : AllSized g)
    {id : EventId} (hfits : 2 ≤ g.policy.maxModuleSize ∨ g.policy.maxAncestorHops = 0 ∨
      RemoveFits R g id) :
    AllSized (restore R (g.restoreCandidates id)
      ((g.forget id).removeIdFromBlocks id).1).1 := by
  have hr := removed h id
  have hstart : Restoring R evs ((g.forget id).removeIdFromBlocks id).1 (g.restoreCandidates id)
      (g.restoreCandidates id) ((g.forget id).removeIdFromBlocks id).1 :=
    ⟨hr.laid, hr.sized hsized, rfl, rfl, restoreCandidates_sorted g id, fun _ ha => ha,
      fun _ ha => ha, fun _ ha => ha, fun a ha hnot => absurd ha hnot⟩
  refine (restore_rule (P := fun rest g' => Restoring R evs
    ((g.forget id).removeIdFromBlocks id).1 (g.restoreCandidates id) rest g')
    (fun x rest g' h' hx => h'.skip hx) (fun x rest g' ev h' hseen hev => ?_) hstart).sized
  refine h'.place hacyclic hev ?_
  rw [Roomy, h'.policy, hr.policy]
  obtain htwo | hops | hfits := hfits
  · exact .inl htwo
  · refine .inr fun hwalk => ?_
    have hpos := hwalk.1
    rw [h'.policy, hr.policy] at hpos
    omega
  · refine .inr ?_
    rintro ⟨_, p, hp, hknown, horphan, hnot⟩
    have hbyId : g'.byId = g.byId.erase id := h'.byId.trans hr.byId
    have hxid : x ≠ id := (mem_restoreCandidates.mp (h'.within List.mem_cons_self)).1
    rw [hbyId, lookup_erase_eq, if_neg hxid] at hev
    have hknown' := hknown
    rw [hbyId, AList.mem_erase] at hknown'
    have hunsettled (hin : p ∈ g.seen ∨ p ∈ g.orphaned) : False := by
      refine (h'.kept p ?_).elim hnot horphan
      rw [hr.seen, hr.orphaned, Finset.mem_erase]
      exact hin.imp (fun hin => ⟨hin, hknown'.1⟩) fun hin => ⟨hknown'.1, hin⟩
    have hxseen : x ∉ g.seen := fun hin => hseen (h'.seen x ((hr.seen x).mpr ⟨hin, hxid⟩))
    obtain ⟨hcand, hlt⟩ := hfits x (h'.within List.mem_cons_self) hxseen ev hev p hp hknown'.1
      ⟨hknown'.2, fun hin => hunsettled (.inr hin), fun hin => hunsettled (.inl hin)⟩
    refine (h'.done p hcand (fun hin => ?_) hknown).elim hnot horphan
    obtain rfl | hin := List.mem_cons.mp hin
    · exact lt_irrefl p hlt
    · exact lt_asymm hlt ((List.pairwise_cons.mp h'.sorted).1 p hin)

/-- Every id is in one place of the layout, which is the seen set and apart from the waiting ids;
modules keep to their size and the blocks run from the newest on. -/
structure Formed (maxSize : Nat) (g : Grouper) : Prop where
  once : (placed g).Nodup
  exact : ∀ id, id ∈ g.seen ↔ id ∈ placed g
  apart : ∀ id ∈ g.seen, id ∉ g.orphaned
  sized : ∀ b ∈ g.blocks, Sized maxSize b
  newest : NewestFirst g

/-- What each call keeps. -/
structure Kept (R : ParentResolver) (evs : List KernelEvent) (policy : ModulePolicy)
    (g : Grouper) : Prop where
  laid : Laid R evs g
  policy : g.policy = policy
  sized : AllSized g
  newest : NewestFirst g

theorem Kept.formed {policy : ModulePolicy} (h : Kept R evs policy g) :
    Formed policy.maxModuleSize g where
  once := h.laid.nodup
  exact := h.laid.seen_iff
  apart := fun id hseen horphan => h.laid.apart id horphan hseen
  sized := by
    rw [← h.policy]
    exact h.sized
  newest := h.newest

theorem kept_new (R : ParentResolver) (evs : List KernelEvent) (policy : ModulePolicy) :
    Kept R evs policy (.new policy) where
  laid := laid_new R evs policy
  policy := rfl
  sized := fun _ hb => absurd hb List.not_mem_nil
  newest := List.Pairwise.nil

/-- Collapsing and sorting ends every call that changed the blocks. -/
theorem kept_settled {policy : ModulePolicy} (h : Laid R evs g) (hpolicy : g.policy = policy)
    (hsized : AllSized g) : Kept R evs policy g.collapseAdjacent.sortBlocksNewestFirst where
  laid := laid_sort (laid_collapse h)
  policy := by
    unfold Grouper.collapseAdjacent
    split <;> exact hpolicy
  sized := allSized_sort (allSized_collapse hsized)
  newest := newestFirst_sort (laid_collapse h) (allSized_collapse hsized)

section

variable (hacyclic : Acyclic (Parent R evs))
include hacyclic

theorem replay_policy {rounds : Nat} {stack : List EventId} (h : Laid R evs g)
    (hend : replay R rounds stack g = some g') : g'.policy = g.policy := by
  refine (replay_rule (P := fun _ g' => Laid R evs g' ∧ g'.policy = g.policy)
    (fun _ _ _ h _ => h) (fun x _ _ _ h _ hev => ?_) ⟨h, rfl⟩ hend).2
  have hplace := placement_of_lookup hacyclic h.1 hev
  exact ⟨(h.1.place (lookup_self h.1 hev) hplace).drain x, hplace.policy_eq.trans h.2⟩

variable {policy : ModulePolicy}

theorem kept_onInsert (h : Kept R evs policy g) (he : e ∈ evs)
    (hfits : 2 ≤ g.policy.maxModuleSize ∨ g.policy.maxAncestorHops = 0 ∨ InsertFits R g e) :
    ∃ g', (g.onInsert R e).map Prod.fst = some g' ∧ Kept R evs policy g' := by
  obtain ⟨_, heq⟩ | ⟨hnew, _, heq⟩ | ⟨hnew, hrow, rounds, replayed, hreplay, heq⟩ :=
    onInsert_cases hacyclic h.laid he
  · exact ⟨g, heq, h⟩
  · refine ⟨_, heq, laid_remember h.laid he hnew, h.policy, h.sized, ?_⟩
    refine h.newest.congr rfl fun id hid => ?_
    rw [Grouper.remember, lookup_insert_eq, if_neg]
    rintro rfl
    exact hnew (h.laid.known _ ((h.laid.seen_iff _).mpr hid))
  · have hstart := replaying_start hacyclic h.laid he hnew
    have hreceived := laid_receive (R := R) h.laid he hnew
    have hself : (g.receive R e).2.byId.lookup e.id = some e := by rw [receive_lookup, if_pos rfl]
    have hplace := placement_of_lookup hacyclic hreceived hself
    have hplaced : AllSized ((g.receive R e).2.placeEvent R e).1 :=
      allSized_place (allSized_receive h.sized e) (roomy_receive hacyclic he hfits hnew hrow) hplace
    have hpolicy : replayed.policy = policy := by
      rw [replay_policy hacyclic hstart.laid hreplay, hplace.policy_eq, receive_policy, h.policy]
    have hlaid := laid_replay hacyclic hstart.laid hreplay
    have hsized := sized_replay hacyclic hstart hplaced hreplay
    exact ⟨_, heq, kept_settled (laid_sort hlaid) hpolicy (allSized_sort hsized)⟩

theorem kept_onRemove (h : Kept R evs policy g) {id : EventId}
    (hfits : 2 ≤ g.policy.maxModuleSize ∨ g.policy.maxAncestorHops = 0 ∨ RemoveFits R g id) :
    Kept R evs policy (g.onRemove R id).1 := by
  have hr := removed h.laid id
  obtain heq | ⟨hnone, _, heq⟩ := onRemove_cases (R := R) g id
  · rw [heq]
    have hlaid := laid_restore hacyclic hr.laid (g.restoreCandidates id)
    refine kept_settled hlaid ?_ (sized_restore hacyclic h.laid h.sized hfits)
    refine (restore_rule (P := fun _ g' => Laid R evs g' ∧ g'.policy = policy)
      (fun _ _ _ h _ => h) (fun _ _ _ _ h _ hev => ?_) ⟨hr.laid, hr.policy.trans h.policy⟩).2
    have hplace := placement_of_lookup hacyclic h.1 hev
    exact ⟨h.1.place (lookup_self h.1 hev) hplace, hplace.policy_eq.trans h.2⟩
  · rw [heq]
    obtain ⟨hblocks, hunseen⟩ := hr.same hnone
    refine ⟨hr.laid, hr.policy.trans h.policy, hr.sized h.sized, ?_⟩
    refine h.newest.congr hblocks fun a ha => ?_
    rw [hr.byId, lookup_erase_eq, if_neg]
    rintro rfl
    exact hunseen ((h.laid.seen_iff _).mpr ha)

theorem onRemove_policy (h : Laid R evs g) (id : EventId) :
    (g.onRemove R id).1.policy = g.policy := by
  have hr := removed h id
  obtain heq | ⟨_, _, heq⟩ := onRemove_cases (R := R) g id
  · rw [heq]
    have hrestored : (restore R (g.restoreCandidates id)
        ((g.forget id).removeIdFromBlocks id).1).1.policy = g.policy := by
      refine (restore_rule (P := fun _ g' => Laid R evs g' ∧ g'.policy = g.policy)
        (fun _ _ _ h _ => h) (fun _ _ _ _ h _ hev => ?_) ⟨hr.laid, hr.policy⟩).2
      have hplace := placement_of_lookup hacyclic h.1 hev
      exact ⟨h.1.place (lookup_self h.1 hev) hplace, hplace.policy_eq.trans h.2⟩
    unfold Grouper.collapseAdjacent
    split <;> exact hrestored
  · rw [heq]
    exact hr.policy

theorem kept_step (h : Kept R evs policy g) {op : Op} (hop : ∀ ev ∈ Op.events op, ev ∈ evs)
    (hfits : Fits R g op) : ∃ g', step R g op = some g' ∧ Kept R evs policy g' := by
  cases op with
  | onInsert event =>
    exact kept_onInsert hacyclic h (hop event (List.mem_singleton_self _)) hfits
  | onRemove => exact ⟨_, rfl, kept_onRemove hacyclic h hfits⟩
  | onReplace oldId newEvent =>
    have hpolicy := onRemove_policy hacyclic h.laid oldId
    have hremove : Kept R evs policy (g.onRemove R oldId).1 :=
      kept_onRemove hacyclic h (hfits.imp_right (Or.imp_right And.left))
    refine kept_onInsert hacyclic hremove (hop newEvent (List.mem_singleton_self _)) ?_
    rw [hpolicy]
    exact hfits.imp_right (Or.imp_right And.right)

end

/-- A run whose calls fit returns, and its layout is well formed after each of them. -/
theorem layout_formed (R : ParentResolver) (policy : ModulePolicy) (ops : List Op)
    (hacyclic : Acyclic (Parent R (ops.flatMap Op.events)))
    (hfits : Meets (stepAll R) (fun s op => ∀ g, s = some g → Fits R g op)
      (some (.new policy)) ops) :
    ∃ g, run (stepAll R) (some (.new policy)) ops = some g ∧ Formed policy.maxModuleSize g := by
  have hops : Meets (stepAll R) (fun _ op => ∀ ev ∈ Op.events op, ev ∈ ops.flatMap Op.events)
      (some (.new policy)) ops :=
    meets_of_forall _ (fun op => ∀ ev ∈ Op.events op, ev ∈ ops.flatMap Op.events) _ ops
      fun op hop ev hev => List.mem_flatMap.mpr ⟨op, hop, hev⟩
  obtain ⟨g, hrun, hkept⟩ := run_invariant
    (fun s => ∃ g, s = some g ∧ Kept R (ops.flatMap Op.events) policy g)
    (fun s op hs hok => by
      obtain ⟨g, rfl, hkept⟩ := hs
      exact kept_step hacyclic hkept hok.2 (hok.1 g rfl))
    ⟨_, rfl, kept_new R _ policy⟩ (hfits.and hops)
  exact ⟨g, hrun, hkept.formed⟩

/-- With room for two events in a module every call fits. -/
theorem fits_of_two_le (hacyclic : Acyclic (Parent R evs)) {policy : ModulePolicy}
    (htwo : 2 ≤ policy.maxModuleSize) {s : Option Grouper}
    (hs : ∃ g, s = some g ∧ Kept R evs policy g) {ops : List Op}
    (hops : ∀ op ∈ ops, ∀ ev ∈ Op.events op, ev ∈ evs) :
    Meets (stepAll R) (fun s op => ∀ g, s = some g → Fits R g op) s ops := by
  induction ops generalizing s with
  | nil => trivial
  | cons op _ ih =>
    obtain ⟨g, rfl, hkept⟩ := hs
    have hfits : Fits R g op := .inl (by rw [hkept.policy]; exact htwo)
    refine ⟨fun g' hg' => by cases hg'; exact hfits, ih ?_ fun op' hop' =>
      hops op' (List.mem_cons_of_mem op hop')⟩
    exact kept_step hacyclic hkept (hops op List.mem_cons_self) hfits

/-- The value of the first tag of the name. -/
def tagValue (name : String) (event : KernelEvent) : Option String :=
  event.tags.findSome? fun tag =>
    match tag with
    | key :: value :: _ => if key = name then some value else none
    | _ => none

/-- Parent, root and target are read from tags. -/
def tagResolver : ParentResolver where
  parent := fun event => (tagValue "e_parent" event).map fun id => .event id none none
  root := fun event => (tagValue "e_root" event).map fun id => .event id none none
  supersedes := tagValue "e_supersedes"

def tagged (id : EventId) (createdAt : Nat) (tags : List (List String)) : KernelEvent :=
  ⟨id, "author", 1, createdAt, tags, "", []⟩

def note : KernelEvent := tagged "p" 1 []

def reply : KernelEvent := tagged "c" 2 [["e_parent", "p"]]

def repost : KernelEvent := tagged "s" 3 [["e_supersedes", "p"]]

theorem acyclic_notes (evs : List KernelEvent) (h : ∀ ev ∈ evs, ev = note ∨ ev = reply ∨ ev = repost) :
    Acyclic (Parent tagResolver evs) := by
  refine acyclic_of_rank (fun id => if id = "c" then 1 else 0) ?_
  rintro p c ⟨ev, hev, rfl, hp⟩
  obtain rfl | rfl | rfl := h ev hev
  · cases (show (none : Option EventId) = some p from hp)
  · obtain rfl : "p" = p := Option.some.inj hp
    decide
  · cases (show (none : Option EventId) = some p from hp)

/-- A note, its reply and a repost of the note, then the repost goes. -/
theorem layout_formed_notes :
    (2 ≤ ModulePolicy.default.maxModuleSize) ∧ ∃ g, run (stepAll tagResolver)
      (some (.new .default)) [.onInsert note, .onInsert reply, .onInsert repost, .onRemove "s"] =
        some g ∧ Formed 3 g := by
  have hacyclic : Acyclic (Parent tagResolver
      ([Op.onInsert note, .onInsert reply, .onInsert repost, .onRemove "s"].flatMap Op.events)) :=
    acyclic_notes _ (by decide)
  refine ⟨by decide, layout_formed tagResolver .default _ hacyclic ?_⟩
  exact fits_of_two_le hacyclic (by decide) ⟨_, rfl, kept_new _ _ _⟩ fun op hop ev hev =>
    List.mem_flatMap.mpr ⟨op, hop, hev⟩

/-- With modules of one event, a reply to a note that lost its block to a repost makes a module of
two. -/
theorem module_of_two : ¬ ∀ (R : ParentResolver) (policy : ModulePolicy) (ops : List Op),
    1 ≤ policy.maxModuleSize → Acyclic (Parent R (ops.flatMap Op.events)) →
      ∃ g, run (stepAll R) (some (.new policy)) ops = some g ∧
        Formed policy.maxModuleSize g := by
  intro h
  obtain ⟨g, hrun, hformed⟩ := h tagResolver ⟨1, 259200, 2, true⟩
    [.onInsert repost, .onInsert note, .onInsert reply] le_rfl (acyclic_notes _ (by decide))
  have hblocks : (run (stepAll tagResolver) (some (.new ⟨1, 259200, 2, true⟩))
      [.onInsert repost, .onInsert note, .onInsert reply]).map Grouper.blocks =
        some [.standalone "s" none, .module ["p", "c"] false none] := by
    decide +kernel
  rw [hrun, Option.map_some, Option.some.injEq] at hblocks
  have hsized := hformed.sized (.module ["p", "c"] false none) (by rw [hblocks]; decide)
  exact absurd hsized.2 (by decide)

end ThreadLayout
