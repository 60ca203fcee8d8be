import NostrMultiPlatform.ThreadCycles
import NostrMultiPlatform.ThreadOrphans

/-!
# Reposted events have no block of their own

As long as the rows of the superseders name all that are there, and no call puts a
superseded event alone into a block, a superseded event has no block of its own.
When its last superseder is removed it is placed again.
-/
namespace ThreadReposts

open Relation Runs Sorted Tables ThreadCycles ThreadGrouper ThreadLayout ThreadOrphans SortedSet
open ThreadPlacement ThreadReplay ThreadTracking
open ThreadGrouper.Grouper (replay restore scrub blockWithout)

variable {R : ParentResolver} {evs : List KernelEvent} {g g' : Grouper} {e : KernelEvent}

/-- An event that is there supersedes the target. -/
def Supersedes (R : ParentResolver) (g : Grouper) (s t : EventId) : Prop :=
  ∃ ev, g.byId.lookup s = some ev ∧ R.supersedes ev = some t

/-- No superseded event has a block of its own. -/
def Suppressed (R : ParentResolver) (g : Grouper) : Prop :=
  ∀ s t, Supersedes R g s t → ∀ b ∈ g.blocks, b.isStandalone t = false

/-- The id is the only superseder of the target that is there. -/
def LastSuperseder (R : ParentResolver) (g : Grouper) (id t : EventId) : Prop :=
  Supersedes R g id t ∧ ∀ s, Supersedes R g s t → s = id

/-- The removal of the last superseder puts a target that is there into the blocks. -/
def Restores (R : ParentResolver) (g : Grouper) (id : EventId) : Prop :=
  ∀ t ∈ g.byId, t ≠ id → LastSuperseder R g id t → t ∈ placed (g.onRemove R id).1

/-- The event has to wait for its parent. -/
def MustWait (R : ParentResolver) (g : Grouper) (e : KernelEvent) : Prop :=
  ∃ p, R.parentId e = some p ∧ ((p ≠ e.id ∧ p ∉ g.byId) ∨ p ∈ g.orphaned)

/-- A new event that is superseded itself supersedes none. Else it has to wait, or neither itself
nor an event that it releases is superseded. -/
def InsertKeeps (R : ParentResolver) (g : Grouper) (e : KernelEvent) : Prop :=
  e.id ∈ g.byId ∨ (g.supersededRow e.id ≠ ∅ ∧ R.supersedes e = none) ∨
    (g.supersededRow e.id = ∅ ∧ (MustWait R g e ∨
      ∀ t, ReflTransGen (Held R g e) e.id t →
        R.supersedes e ≠ some t ∧ ∀ s, ¬ Supersedes R g s t))

/-- No other event supersedes the one that goes, nor one that is left alone in its block; a target
that is to be restored need not wait for its parent. -/
structure RemoveKeeps (R : ParentResolver) (g : Grouper) (id : EventId) : Prop where
  target : ∀ s, Supersedes R g s id → s = id
  left : ∀ b ∈ g.blocks, id ∈ b.ids → ∀ t root, blockWithout id b = some (.standalone t root) →
    ∀ s, Supersedes R g s t → s = id
  ready : ∀ t ev, g.byId.lookup t = some ev → t ≠ id → t ∉ placed g → LastSuperseder R g id t →
    ∀ p, R.parentId ev = some p → p ∈ g.byId ∧ p ≠ id ∧ p ∉ g.orphaned

def Keeps (R : ParentResolver) (g : Grouper) : Op → Prop
  | .onInsert event => InsertKeeps R g event
  | .onRemove id => RemoveKeeps R g id
  | .onReplace oldId newEvent =>
    RemoveKeeps R g oldId ∧ InsertKeeps R (g.onRemove R oldId).1 newEvent

/-- None of the targets has a block of its own. -/
def NoneOwn (targets : EventId → Prop) (blocks : List TimelineBlock) : Prop :=
  ∀ t, targets t → ∀ b ∈ blocks, b.isStandalone t = false

section Blocks

variable {targets : EventId → Prop} {blocks : List TimelineBlock}

theorem NoneOwn.subset (h : NoneOwn targets blocks) {blocks' : List TimelineBlock}
    (hsub : ∀ b ∈ blocks', b ∈ blocks) : NoneOwn targets blocks' :=
  fun t ht b hb => h t ht b (hsub b hb)

theorem noneOwn_collapseFrom {maxSize : Nat} (block : TimelineBlock) (rest : List TimelineBlock)
    (h : NoneOwn targets (block :: rest)) : NoneOwn targets (collapseFrom maxSize block rest) := by
  induction rest generalizing block with
  | nil => exact h
  | cons next _ ih =>
    unfold collapseFrom
    split
    next merged hmerge =>
      refine ih merged fun t ht b hb => ?_
      obtain rfl | hb := List.mem_cons.mp hb
      · unfold mergeBlocks at hmerge
        split at hmerge
        · split at hmerge <;> cases hmerge
          rfl
        · cases hmerge
      · exact h t ht b (List.mem_cons_of_mem _ (List.mem_cons_of_mem _ hb))
    next =>
      have hrest := ih next (h.subset fun b hb => List.mem_cons_of_mem _ hb)
      intro t ht b hb
      obtain rfl | hb := List.mem_cons.mp hb
      · exact h t ht b List.mem_cons_self
      · exact hrest t ht b hb

theorem noneOwn_collapse (h : NoneOwn targets g.blocks) :
    NoneOwn targets g.collapseAdjacent.blocks := by
  unfold Grouper.collapseAdjacent
  split
  · cases hblocks : g.blocks with
    | nil => exact fun _ _ _ hb => absurd hb List.not_mem_nil
    | cons block rest =>
      rw [hblocks] at h
      exact noneOwn_collapseFrom block rest h
  · exact h

theorem noneOwn_sort (h : NoneOwn targets g.blocks) :
    NoneOwn targets g.sortBlocksNewestFirst.blocks :=
  h.subset fun _ hb => (List.perm_insertionSort _ g.blocks).mem_iff.mp hb

/-- Only the placed event can come to stand alone. -/
theorem noneOwn_place (h : NoneOwn targets g.blocks) (he : ¬ targets e.id)
    (hg' : Placing R g e g') : NoneOwn targets g'.blocks := by
  cases hg' with
  | kept | buffered => exact h
  | laid _ blocks _ _ _ _ _ hl =>
    intro t ht b hb
    have hb : b ∈ blocks := hb
    cases hl with
    | fresh _ hown =>
      obtain rfl | hb := List.mem_cons.mp hb
      · refine Bool.eq_false_iff.mpr fun hin => he ?_
        exact hown t hin ▸ ht
      · exact h t ht b hb
    | spliced _ _ _ _ _ hmany =>
      obtain hb | rfl := List.mem_or_eq_of_mem_set hb
      · exact h t ht b hb
      · exact hmany t

end Blocks

/-- The rows name exactly the superseders that are there. -/
structure Exact (R : ParentResolver) (g : Grouper) : Prop where
  row : ∀ s t, s ∈ g.supersededRow t ↔ Supersedes R g s t
  filled : ∀ t row, g.supersededBy.lookup t = some row → row ≠ ∅

theorem Placing.supersededBy_eq (h : Placing R g e g') : g'.supersededBy = g.supersededBy := by
  cases h <;> rfl

theorem supersedes_congr (hbyId : g'.byId = g.byId) (s t : EventId) :
    Supersedes R g' s t ↔ Supersedes R g s t := by rw [Supersedes, hbyId, Supersedes]

theorem Exact.congr (h : Exact R g) (hbyId : g'.byId = g.byId)
    (hrows : g'.supersededBy = g.supersededBy) : Exact R g' where
  row := fun s t => by
    rw [Grouper.supersededRow, hrows, supersedes_congr hbyId]
    exact h.row s t
  filled := fun t row hlook => h.filled t row (hrows ▸ hlook)

theorem supersedes_insert (hbyId : ∀ id, g'.byId.lookup id = if id = e.id then some e else
    g.byId.lookup id) (hnew : e.id ∉ g.byId) (s t : EventId) :
    Supersedes R g' s t ↔ Supersedes R g s t ∨ (R.supersedes e = some t ∧ s = e.id) := by
  rw [Supersedes, hbyId]
  by_cases hs : s = e.id
  · have hnone : ¬ Supersedes R g e.id t := by
      rintro ⟨ev, hev, -⟩
      exact hnew ((mem_iff_lookup _ _).mpr ⟨ev, hev⟩)
    simp [hs, hnone]
  · simp [hs, Supersedes]

theorem preempt_rows (g : Grouper) (e : KernelEvent) (t : EventId) :
    (g.preempt R e).supersededBy.lookup t = if R.supersedes e = some t then
      some (insert e.id (g.supersededRow t)) else g.supersededBy.lookup t := by
  have hrows (g : Grouper) (id : EventId) :
      (g.unplaceStandalone id).supersededBy = g.supersededBy := by
    unfold Grouper.unplaceStandalone
    split <;> rfl
  unfold Grouper.preempt
  split
  next hnone => rw [hnone, if_neg nofun]
  next target htarget =>
    rw [hrows, SortedMap.lookup_alter, htarget]
    by_cases ht : t = target
    · rw [if_pos ht, if_pos (congrArg some ht.symm), Grouper.supersededRow, ht]
    · rw [if_neg ht, if_neg fun heq => ht (Option.some.inj heq).symm]

theorem exact_receive (h : Exact R g) (hnew : e.id ∉ g.byId) : Exact R (g.receive R e).2 where
  row := fun s t => by
    rw [supersedes_insert (receive_lookup g e) hnew, ← h.row]
    exact mem_supersededRow_preempt (g.remember e) e t s
  filled := fun t row hlook => by
    have hlook : ((g.remember e).preempt R e).supersededBy.lookup t = some row := hlook
    rw [preempt_rows] at hlook
    split at hlook
    · cases hlook
      exact insert_ne_empty _ _
    · exact h.filled t row hlook

variable {id : EventId}

theorem supersedes_erase (hbyId : g'.byId = g.byId.erase id) (s t : EventId) :
    Supersedes R g' s t ↔ Supersedes R g s t ∧ s ≠ id := by
  rw [Supersedes, hbyId, lookup_erase_eq]
  by_cases hs : s = id
  · simp [hs]
  · simp [hs, Supersedes]

theorem scrub_filled {id t : EventId} {sets : SortedMap EventId (SortedSet EventId)}
    {row : SortedSet EventId} (hrow : (scrub id sets).lookup t = some row) : row ≠ ∅ := by
  rw [scrub, SortedMap.lookup_filterMapRows] at hrow
  obtain ⟨old, -, hrow⟩ := Option.bind_eq_some_iff.mp hrow
  split at hrow
  · cases hrow
  next hne =>
    cases hrow
    exact hne

theorem exact_takenOut (h : Exact R g) (hout : TakenOut R evs g id g')
    (htarget : ∀ s, Supersedes R g s id → s = id) : Exact R g' where
  row := fun s t => by
    rw [supersedes_erase hout.byId, Grouper.supersededRow, hout.superseded,
      @mem_waiters_scrub { g with orphans := g.supersededBy.erase id } id t s, waiters,
      SortedMap.lookup_erase]
    refine and_congr_left fun hne => ?_
    by_cases ht : t = id
    · refine ⟨fun hs => ?_, fun hs => absurd (htarget s (ht ▸ hs)) hne⟩
      rw [if_pos ht, Option.getD_none] at hs
      exact absurd hs (not_mem_empty s)
    · rw [if_neg ht]
      exact h.row s t
  filled := fun t row hrow => by
    rw [hout.superseded] at hrow
    exact scrub_filled hrow

/-- The candidates are the targets of which the id is the last superseder. -/
theorem Exact.mem_restoreCandidates (h : Exact R g) {id t : EventId} :
    t ∈ g.restoreCandidates id ↔ t ≠ id ∧ LastSuperseder R g id t := by
  rw [ThreadReplay.mem_restoreCandidates]
  refine and_congr_right fun _ => ⟨fun ⟨row, hrow, hempty⟩ => ?_, fun ⟨hid, hlast⟩ => ?_⟩
  · have hmem : ∀ s, s ∈ row ↔ Supersedes R g s t := by
      intro s
      rw [← h.row, Grouper.supersededRow, hrow, Option.getD_some]
    have honly : ∀ s ∈ row, s = id := by
      intro s hs
      by_contra hne
      exact eq_empty_iff.mp hempty s (mem_erase.mpr ⟨hs, hne⟩)
    refine ⟨?_, fun s hs => honly s ((hmem s).mpr hs)⟩
    by_contra hnot
    refine h.filled t row hrow (eq_empty_iff.mpr fun s hs => hnot ?_)
    exact honly s hs ▸ (hmem s).mp hs
  · have hin := (h.row id t).mpr hid
    rw [Grouper.supersededRow] at hin
    cases hrow : g.supersededBy.lookup t with
    | none =>
      rw [hrow, Option.getD_none] at hin
      exact absurd hin (not_mem_empty id)
    | some row =>
      refine ⟨row, rfl, eq_empty_iff.mpr fun s hs => ?_⟩
      obtain ⟨hs, hne⟩ := mem_erase.mp hs
      refine hne (hlast s ((h.row s t).mp ?_))
      rw [Grouper.supersededRow, hrow]
      exact hs

def Superseded (R : ParentResolver) (g : Grouper) (t : EventId) : Prop := ∃ s, Supersedes R g s t

/-- What the calls keep. -/
structure Clean (R : ParentResolver) (evs : List KernelEvent) (g : Grouper) : Prop where
  tracked : Tracked R evs g
  exact : Exact R g
  suppressed : NoneOwn (Superseded R g) g.blocks

theorem NoneOwn.congr {targets targets' : EventId → Prop} {blocks : List TimelineBlock}
    (h : NoneOwn targets blocks) (hsub : ∀ t, targets' t → targets t) : NoneOwn targets' blocks :=
  fun t ht => h t (hsub t ht)

/-- Ordering and collapsing the blocks keeps it. -/
theorem clean_sort (h : Clean R evs g) : Clean R evs g.sortBlocksNewestFirst :=
  ⟨tracked_sort h.tracked, h.exact.congr rfl rfl, noneOwn_sort h.suppressed⟩

theorem clean_collapse (h : Clean R evs g) : Clean R evs g.collapseAdjacent := by
  have hbyId : g.collapseAdjacent.byId = g.byId := by
    unfold Grouper.collapseAdjacent
    split <;> rfl
  have hrows : g.collapseAdjacent.supersededBy = g.supersededBy := by
    unfold Grouper.collapseAdjacent
    split <;> rfl
  exact ⟨tracked_collapse h.tracked, h.exact.congr hbyId hrows,
    (noneOwn_collapse h.suppressed).congr fun t ⟨s, hs⟩ => ⟨s, (supersedes_congr hbyId s t).mp hs⟩⟩

theorem clean_remember (h : Clean R evs g) (he : e ∈ evs) (hnew : e.id ∉ g.byId)
    (hnone : R.supersedes e = none) : Clean R evs (g.remember e) := by
  have hsame : ∀ s t, Supersedes R (g.remember e) s t ↔ Supersedes R g s t := by
    intro s t
    rw [supersedes_insert (fun id => lookup_insert_eq ..) hnew, hnone]
    simp
  refine ⟨tracked_remember h.tracked he hnew, ⟨fun s t => ?_, h.exact.filled⟩,
    h.suppressed.congr fun t ⟨s, hs⟩ => ⟨s, (hsame s t).mp hs⟩⟩
  rw [hsame, ← h.exact.row]
  rfl

theorem superseded_receive (hnew : e.id ∉ g.byId) {t : EventId}
    (ht : Superseded R (g.receive R e).2 t) : Superseded R g t ∨ R.supersedes e = some t := by
  obtain ⟨s, hs⟩ := ht
  obtain hs | ⟨ht, -⟩ := (supersedes_insert (receive_lookup g e) hnew s t).mp hs
  · exact .inl ⟨s, hs⟩
  · exact .inr ht

/-- The target has no block of its own when the event is placed. -/
theorem clean_receive (h : Clean R evs g) (he : e ∈ evs) (hnew : e.id ∉ g.byId) :
    Clean R evs (g.receive R e).2 := by
  refine ⟨tracked_receive h.tracked he hnew, exact_receive h.exact hnew, fun t ht b hb => ?_⟩
  have hb : b ∈ ((g.remember e).preempt R e).blocks := hb
  unfold Grouper.preempt at hb
  split at hb
  next hnone =>
    refine h.suppressed t ?_ b hb
    obtain ht | ht := superseded_receive hnew ht
    · exact ht
    · rw [hnone] at ht
      cases ht
  next target htarget =>
    have hcases : Superseded R g t ∨ t = target := by
      obtain ht | ht := superseded_receive hnew ht
      · exact .inl ht
      · exact .inr (Option.eq_some_unique ht htarget)
    obtain ⟨heq, hnone⟩ | ⟨idx, old, hold, hids, -, heq⟩ := unplaceStandalone_cases
      { g.remember e with supersededBy :=
          (g.remember e).supersededBy.alter target fun row => insert e.id (row.getD ∅) } target
    · rw [heq] at hb
      obtain ht | rfl := hcases
      · exact h.suppressed t ht b hb
      · exact hnone b hb
    · rw [heq] at hb
      obtain ht | rfl := hcases
      · exact h.suppressed t ht b (List.mem_of_mem_eraseIdx hb)
      · refine Bool.eq_false_iff.mpr fun hown => ?_
        have honly : ∀ a, a ∈ old.ids ↔ a = t := fun a => by rw [hids, List.mem_singleton]
        have hplaced := (h.tracked.separate.erase_own hold honly).2 t
        refine (hplaced.mp (List.mem_flatMap.mpr ⟨b, hb, ?_⟩)).2 rfl
        rw [ids_of_isStandalone hown]
        exact List.mem_singleton_self t

theorem Clean.place (h : Clean R evs g) (he : g.byId.lookup e.id = some e)
    (hfree : ¬ Superseded R g e.id) (hg' : Placing R g e g') : Clean R evs g' :=
  ⟨h.tracked.place he hg', h.exact.congr hg'.byId_eq (Placing.supersededBy_eq hg'),
    (noneOwn_place h.suppressed hfree hg').congr fun t ⟨s, hs⟩ =>
      ⟨s, (supersedes_congr hg'.byId_eq s t).mp hs⟩⟩

theorem Clean.drain (h : Clean R evs g) (p : EventId) : Clean R evs (g.drain p).2 :=
  ⟨h.tracked.drain p, h.exact.congr rfl rfl, h.suppressed⟩

/-- A replay of events that wait for their parents changes no block. -/
theorem clean_replay_waiting {rounds : Nat} {stack : List EventId} (h : Clean R evs g)
    (hall : AllWait R g stack) (hend : replay R rounds stack g = some g') : Clean R evs g' := by
  refine (replay_rule (P := fun stack g => Clean R evs g ∧ AllWait R g stack)
    (fun x stack g h _ => ⟨h.1, fun y hy => h.2 y (List.mem_cons_of_mem x hy)⟩)
    (fun x stack g ev h hseen hev => ?_) ⟨h, hall⟩ hend).1
  obtain ⟨q, -, hbuffer, hall⟩ := h.2.place h.1.tracked hseen hev
  have htracked := h.1.tracked.place (h.1.tracked.lookup_self hev) (h.1.tracked.placing hev)
  rw [hbuffer] at htracked ⊢
  exact ⟨Clean.drain ⟨htracked, h.1.exact.congr rfl rfl, h.1.suppressed⟩ x, hall⟩

/-- A replay below an event that does not wait lays out what it releases. -/
theorem clean_replay_released (hg : Tracked R evs g) (hcirc : ¬ Circular R g e)
    (hnew : e.id ∉ g.byId) (hrow : g.supersededRow e.id = ∅)
    (hfree : ∀ t, ReflTransGen (Held R g e) e.id t → ¬ Superseded R (g.receive R e).2 t)
    {rounds : Nat} {stack : List EventId} {g₁ : Grouper} (hsweep : Sweep R evs g e [] stack g₁)
    (h : Clean R evs g₁) (hend : replay R rounds stack g₁ = some g') : Clean R evs g' := by
  refine (replay_rule (P := fun stack g' => (∃ done, Sweep R evs g e done stack g') ∧ Clean R evs g')
    (fun x stack g' ⟨⟨done, hsweep⟩, h⟩ _ => ⟨⟨x :: done, hsweep.skip⟩, h⟩)
    (fun x stack g' ev ⟨⟨done, hsweep⟩, h⟩ hseen hev => ?_) ⟨⟨[], hsweep⟩, h⟩ hend).2
  refine ⟨⟨x :: done, hsweep.place hg hcirc hnew hrow hseen hev⟩, ?_⟩
  have hid : ev.id = x := (h.tracked.named x ev hev).1
  have hreach := hsweep.reach (List.mem_append_left _ List.mem_cons_self) hseen
  refine (h.place (h.tracked.lookup_self hev) (fun ht => ?_) (h.tracked.placing hev)).drain x
  obtain ⟨s, hs⟩ := ht
  exact hfree x hreach.to_reflTransGen ⟨s, hid ▸ (supersedes_congr hsweep.byId s _).mp hs⟩

theorem clean_onInsert (h : Clean R evs g) (he : e ∈ evs) (hkeeps : InsertKeeps R g e)
    (hend : (g.onInsert R e).map Prod.fst = some g') : Clean R evs g' := by
  obtain ⟨-, heq⟩ | ⟨hnew, hrow, heq⟩ | ⟨hnew, hrow, heq⟩ := onInsert_split (R := R) g e
  · obtain rfl : g = g' := Option.eq_some_unique heq hend
    exact h
  · obtain rfl : g.remember e = g' := Option.eq_some_unique heq hend
    obtain hold | ⟨-, hnone⟩ | ⟨hempty, -⟩ := hkeeps
    · exact absurd hold hnew
    · exact clean_remember h he hnew hnone
    · exact absurd hempty hrow
  · obtain ⟨replayed, hreplay, rfl⟩ := Option.map_eq_some_iff.mp (heq.symm.trans hend)
    suffices hclean : Clean R evs replayed from clean_sort (clean_collapse (clean_sort hclean))
    obtain ⟨-, hkeeps⟩ := (hkeeps.resolve_left hnew).resolve_left fun hrow' => hrow'.1 hrow
    have hreceived := clean_receive h he hnew
    have hself := receive_self (R := R) g e
    by_cases hwait : MustWait R g e
    · obtain ⟨p, hp, hwait⟩ := hwait
      have hout : p ∉ (g.receive R e).2.byId ∨ p ∈ g.orphaned := by
        refine hwait.imp_left fun ⟨hne, hnot⟩ hin => ?_
        exact ((mem_receive_byId g e p).mp hin).elim hne hnot
      obtain ⟨hbuffer, hall⟩ := allWait_start h.tracked hnew hp hout
      have htracked := hreceived.tracked.place hself (hreceived.tracked.placing hself)
      rw [hbuffer] at hreplay htracked
      exact clean_replay_waiting ⟨htracked, hreceived.exact.congr rfl rfl, hreceived.suppressed⟩
        hall hreplay
    · have hfree : ∀ t, ReflTransGen (Held R g e) e.id t →
          ¬ Superseded R (g.receive R e).2 t := by
        intro t ht hsup
        obtain ⟨hne, hnone⟩ := hkeeps.resolve_left hwait t ht
        obtain ⟨s, hs⟩ | hs := superseded_receive hnew hsup
        · exact hnone s hs
        · exact hne hs
      have hcirc : ¬ Circular R g e := fun ⟨_, _, p, hp, horphan, _⟩ =>
        hwait ⟨p, hp, .inr horphan⟩
      exact clean_replay_released h.tracked hcirc hnew hrow hfree
        (sweep_start h.tracked he hnew)
        (hreceived.place hself (hfree e.id .refl) (hreceived.tracked.placing hself)) hreplay

/-- Without the id no superseded event has a block of its own. -/
theorem clean_takenOut (h : Clean R evs g) (hkeeps : RemoveKeeps R g id)
    (hout : TakenOut R evs g id g') : Clean R evs g' := by
  refine ⟨hout.tracked, exact_takenOut h.exact hout hkeeps.target, fun t ⟨s, hs⟩ b hb => ?_⟩
  obtain ⟨hs, hne⟩ := (supersedes_erase hout.byId s t).mp hs
  obtain hb | ⟨old, hold, hid, hblock⟩ := hout.blocks b hb
  · exact h.suppressed t ⟨s, hs⟩ b hb
  · refine Bool.eq_false_iff.mpr fun hown => ?_
    obtain ⟨root, rfl⟩ := isStandalone_iff.mp hown
    exact hne (hkeeps.left old hold hid t root hblock s hs)

/-- The targets that are still to be restored are ready, the others are back. -/
structure PutBack (R : ParentResolver) (evs : List KernelEvent) (out : Grouper)
    (all rest : List EventId) (g : Grouper) : Prop where
  clean : Clean R evs g
  byId : g.byId = out.byId
  free : ∀ t ∈ rest, ¬ Superseded R out t
  ready : ∀ t ∈ rest, t ∉ g.seen → ∀ ev, g.byId.lookup t = some ev → ∀ p, R.parentId ev = some p →
    p ∈ g.byId ∧ p ∉ g.orphaned
  back : ∀ t ∈ all, t ∈ rest ∨ t ∉ g.byId ∨ t ∈ g.seen

theorem PutBack.skip {out : Grouper} {all rest : List EventId} {x : EventId}
    (h : PutBack R evs out all (x :: rest) g) (hx : x ∈ g.seen ∨ x ∉ g.byId) :
    PutBack R evs out all rest g where
  clean := h.clean
  byId := h.byId
  free := fun t ht => h.free t (List.mem_cons_of_mem x ht)
  ready := fun t ht => h.ready t (List.mem_cons_of_mem x ht)
  back := fun t ht => by
    obtain hin | hin := h.back t ht
    · obtain rfl | hin := List.mem_cons.mp hin
      · exact .inr hx.symm
      · exact .inl hin
    · exact .inr hin

theorem PutBack.place {out : Grouper} {all rest : List EventId} {x : EventId} {ev : KernelEvent}
    (h : PutBack R evs out all (x :: rest) g) (hseen : x ∉ g.seen)
    (hev : g.byId.lookup x = some ev) : PutBack R evs out all rest (g.placeEvent R ev).1 := by
  obtain rfl : ev.id = x := (h.clean.tracked.named x ev hev).1
  have hplace := h.clean.tracked.placing hev
  have hclean := h.clean.place hev (fun ⟨s, hs⟩ => h.free ev.id List.mem_cons_self
    ⟨s, (supersedes_congr h.byId s _).mp hs⟩) hplace
  have hready := h.ready ev.id List.mem_cons_self hseen ev hev
  generalize (g.placeEvent R ev).1 = g' at hplace hclean ⊢
  cases hplace with
  | kept hkept => exact absurd hkept hseen
  | buffered p _ hp hwait =>
    obtain ⟨hknown, hfree⟩ := hready p hp
    exact hwait.elim (absurd hknown) fun hin => absurd hin hfree
  | laid _ _ _ _ _ hmem _ _ =>
    refine ⟨hclean, h.byId, fun t ht => h.free t (List.mem_cons_of_mem _ ht),
      fun t ht hnot ev' hev' p hp => ?_, fun t ht => ?_⟩
    · have hold : t ∉ g.seen := fun hin => hnot (Finset.mem_union_left _ hin)
      obtain ⟨hknown, hfree⟩ := h.ready t (List.mem_cons_of_mem _ ht) hold ev' hev' p hp
      exact ⟨hknown, fun hin => hfree (Finset.mem_sdiff.mp hin).1⟩
    · obtain hin | hin | hin := h.back t ht
      · obtain rfl | hin := List.mem_cons.mp hin
        · exact .inr (.inr (Finset.mem_union_right _ (List.mem_toFinset.mpr hmem)))
        · exact .inl hin
      · exact .inr (.inl hin)
      · exact .inr (.inr (Finset.mem_union_left _ hin))

theorem putBack_start (h : Clean R evs g) (hkeeps : RemoveKeeps R g id)
    (hout : TakenOut R evs g id g') :
    PutBack R evs g' (g.restoreCandidates id) (g.restoreCandidates id) g' where
  clean := clean_takenOut h hkeeps hout
  byId := rfl
  free := fun t ht ⟨s, hs⟩ => by
    obtain ⟨-, -, hlast⟩ := h.exact.mem_restoreCandidates.mp ht
    obtain ⟨hs, hne⟩ := (supersedes_erase hout.byId s t).mp hs
    exact hne (hlast s hs)
  ready := fun t ht hnot ev hev p hp => by
    obtain ⟨hne, hlast⟩ := h.exact.mem_restoreCandidates.mp ht
    rw [hout.byId, lookup_erase_eq, if_neg hne] at hev
    have hplaced : t ∉ placed g := fun hin =>
      hnot ((hout.seen t).mpr ⟨(h.tracked.seen_iff t).mpr hin, hne⟩)
    obtain ⟨hknown, hpid, hfree⟩ := hkeeps.ready t ev hev hne hplaced hlast p hp
    rw [hout.byId, hout.orphaned, AList.mem_erase]
    exact ⟨⟨hpid, hknown⟩, fun hin => hfree (Finset.mem_erase.mp hin).2⟩
  back := fun t ht => .inl ht

theorem clean_onRemove (h : Clean R evs g) (hkeeps : RemoveKeeps R g id) :
    Clean R evs (g.onRemove R id).1 ∧ Restores R g id := by
  have hout := taken_out h.tracked id
  have hback : PutBack R evs _ (g.restoreCandidates id) []
      (restore R (g.restoreCandidates id) ((g.forget id).removeIdFromBlocks id).1).1 :=
    restore_rule (P := fun rest g' => PutBack R evs ((g.forget id).removeIdFromBlocks id).1
        (g.restoreCandidates id) rest g')
      (fun _ _ _ h hx => h.skip hx) (fun _ _ _ _ h hseen hev => h.place hseen hev)
      (putBack_start h hkeeps hout)
  have hend : Clean R evs (g.onRemove R id).1 ∧ (g.onRemove R id).1.seen =
      (restore R (g.restoreCandidates id) ((g.forget id).removeIdFromBlocks id).1).1.seen := by
    obtain heq | ⟨-, hsame, heq⟩ := onRemove_cases (R := R) g id
    · rw [heq]
      refine ⟨clean_sort (clean_collapse hback.clean), ?_⟩
      rw [Grouper.sortBlocksNewestFirst, Grouper.collapseAdjacent]
      split <;> rfl
    · have hclean := hback.clean
      rw [hsame] at hclean ⊢
      rw [heq]
      exact ⟨hclean, rfl⟩
  refine ⟨hend.1, fun t ht hne hlast => (hend.1.tracked.seen_iff t).mp ?_⟩
  rw [hend.2]
  have hin := (hback.back t (h.exact.mem_restoreCandidates.mpr ⟨hne, hlast⟩)).resolve_left
    List.not_mem_nil
  refine hin.resolve_left fun hnot => hnot ?_
  rw [hback.byId, hout.byId, AList.mem_erase]
  exact ⟨hne, ht⟩

theorem clean_step (h : Clean R evs g) {op : Op} (hop : ∀ ev ∈ Op.events op, ev ∈ evs)
    (hkeeps : Keeps R g op) (hstep : step R g op = some g') : Clean R evs g' := by
  cases op with
  | onInsert event => exact clean_onInsert h (hop event (List.mem_singleton_self _)) hkeeps hstep
  | onRemove id =>
    obtain rfl : (g.onRemove R id).1 = g' := Option.some.inj hstep
    exact (clean_onRemove h hkeeps).1
  | onReplace _ newEvent =>
    exact clean_onInsert (clean_onRemove h hkeeps.1).1 (hop newEvent (List.mem_singleton_self _))
      hkeeps.2 hstep

theorem clean_new (R : ParentResolver) (evs : List KernelEvent) (policy : ModulePolicy) :
    Clean R evs (.new policy) := by
  refine ⟨tracked_new R evs policy, ⟨fun s t => ?_, fun t row hrow => ?_⟩,
    fun _ _ _ hb => absurd hb List.not_mem_nil⟩
  · simp [Grouper.supersededRow, Grouper.new, Supersedes]
  · simp [Grouper.new] at hrow

/-- In every state of a run whose calls keep superseded events out of the blocks they have none of
their own, and a removal of the kind puts a target back that has lost its last superseder. -/
theorem reposts_suppressed (R : ParentResolver) (policy : ModulePolicy) (ops : List Op)
    (hkeeps : Meets (stepAll R) (fun s op => ∀ g, s = some g → Keeps R g op)
      (some (.new policy)) ops) (g : Grouper)
    (hrun : run (stepAll R) (some (.new policy)) ops = some g) :
    Suppressed R g ∧ ∀ id, RemoveKeeps R g id → Restores R g id := by
  have hops : Meets (stepAll R) (fun _ op => ∀ ev ∈ Op.events op, ev ∈ ops.flatMap Op.events)
      (some (.new policy)) ops :=
    meets_of_forall _ _ _ _ fun op hop ev hev => List.mem_flatMap.mpr ⟨op, hop, hev⟩
  have hclean : Clean R (ops.flatMap Op.events) g := by
    refine run_invariant (fun s => ∀ g, s = some g → Clean R (ops.flatMap Op.events) g)
      (fun s op hs hok g' hg' => ?_) (fun g hg => ?_) (hkeeps.and hops) g hrun
    · obtain ⟨g, hg, hstep⟩ := Option.bind_eq_some_iff.mp hg'
      exact clean_step (hs g hg) hok.2 (hok.1 g hg) hstep
    · obtain rfl : Grouper.new policy = g := Option.some.inj hg
      exact clean_new R _ policy
  exact ⟨fun s t hs => hclean.suppressed t ⟨s, hs⟩, fun id h => (clean_onRemove hclean h).2⟩

/-- The only superseder among the three is the repost. -/
theorem supersedes_notes {ops : List Op} (hops : ∀ op ∈ ops, ∀ ev ∈ Op.events op,
    ev ∈ [note, reply, repost]) (hrun : run (stepAll tagResolver) (some (.new .default)) ops = some g)
    {s t : EventId} (hs : Supersedes tagResolver g s t) : s = "s" ∧ t = "p" := by
  obtain ⟨ev, hev, ht⟩ := hs
  obtain ⟨hid, hmem⟩ := (tracked_run tagResolver .default ops hops hrun).named s ev hev
  obtain rfl | rfl | rfl : ev = note ∨ ev = reply ∨ ev = repost := by simpa using hmem
  · cases (show (none : Option EventId) = some t from ht)
  · cases (show (none : Option EventId) = some t from ht)
  · exact ⟨hid.symm, (Option.some.inj (show some "p" = some t from ht)).symm⟩

/-- A note that comes after its repost is placed when the repost goes. -/
theorem note_restored : ∃ g, run (stepAll tagResolver) (some (.new .default))
    [.onInsert repost, .onInsert note] = some g ∧ Suppressed tagResolver g ∧
      Restores tagResolver g "s" := by
  have hstate : (run (stepAll tagResolver) (some (.new .default))
      [.onInsert repost, .onInsert note]).map Grouper.blocks = some [.standalone "s" none] := by
    decide +kernel
  obtain ⟨g, hrun, hblocks⟩ := Option.map_eq_some_iff.mp hstate
  have hsup {s t : EventId} (hs : Supersedes tagResolver g s t) : s = "s" ∧ t = "p" :=
    supersedes_notes (by decide) hrun hs
  have hmeets : Meets (stepAll tagResolver) (fun s op => ∀ g, s = some g → Keeps tagResolver g op)
      (some (.new .default)) [.onInsert repost, .onInsert note] := by
    refine ⟨fun g hg => ?_, fun g hg => .inr (.inl ⟨?_, rfl⟩), trivial⟩
    · obtain rfl := Option.some.inj hg
      refine .inr (.inr ⟨rfl, .inr fun t ht => ?_⟩)
      have hempty : ∀ s t, ¬ Supersedes tagResolver (.new .default) s t := fun s t ⟨ev, hev, _⟩ => by
        simp [Grouper.new] at hev
      obtain rfl | ⟨y, hstep, -⟩ := ReflTransGen.cases_head ht
      · exact ⟨by decide, fun s => hempty s _⟩
      · have hnone := hstep.1
        simp [waiters, Grouper.new] at hnone
    · have hrow : (run (stepAll tagResolver) (some (.new .default)) [.onInsert repost]).map
          (fun g => decide (g.supersededRow "p" = ∅)) = some false := by
        decide +kernel
      rw [show run (stepAll tagResolver) (some (.new .default)) [.onInsert repost] = some g from hg,
        Option.map_some, Option.some.injEq, decide_eq_false_iff_not] at hrow
      exact hrow
  obtain ⟨hsuppressed, hrestores⟩ := reposts_suppressed tagResolver .default _ hmeets g hrun
  refine ⟨g, hrun, hsuppressed, hrestores "s" ⟨fun s hs => (hsup hs).1, fun b hb _ t root hblock =>
    ?_, fun t ev hev hne _ hlast p hp => ?_⟩⟩
  · rw [hblocks, List.mem_singleton] at hb
    rw [hb] at hblock
    cases hblock
  · obtain ⟨-, rfl⟩ := hsup hlast.1
    have htracked : Tracked tagResolver [repost, note] g :=
      tracked_run tagResolver .default [.onInsert repost, .onInsert note] (by decide) hrun
    obtain ⟨-, hmem⟩ := htracked.named "p" ev hev
    obtain rfl | rfl : ev = repost ∨ ev = note := by simpa using hmem
    · cases (show (none : Option EventId) = some p from hp)
    · cases (show (none : Option EventId) = some p from hp)

/-- The reply of a reposted note goes: the note is left with a block of its own. -/
theorem note_left_alone : ¬ ∀ (R : ParentResolver) (policy : ModulePolicy) (ops : List Op)
    (g : Grouper), run (stepAll R) (some (.new policy)) ops = some g → Suppressed R g := by
  intro h
  have hstate : (run (stepAll tagResolver) (some (.new .default))
      [.onInsert note, .onInsert reply, .onInsert repost, .onRemove "c"]).map
        (fun g => (g.blocks, g.byId.lookup "s")) =
          some ([.standalone "s" none, .standalone "p" none], some repost) := by
    decide +kernel
  obtain ⟨g, hrun, hg⟩ := Option.map_eq_some_iff.mp hstate
  obtain ⟨hblocks, hrepost⟩ := Prod.mk.injEq .. ▸ hg
  have hown := h tagResolver .default _ g hrun "s" "p" ⟨repost, hrepost, rfl⟩
    (.standalone "p" none) (by rw [hblocks]; decide)
  cases hown

end ThreadReposts
