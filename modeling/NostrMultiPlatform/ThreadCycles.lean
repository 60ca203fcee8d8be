import NostrMultiPlatform.ThreadTracking

/-!
# Parents in cycles

An insertion replays the events that waited for it. The replay ends, unless the new
event waits for a parent that waits for it: then both are buffered for ever.
-/
namespace ThreadCycles

open Relation Runs Sorted Tables ThreadGrouper ThreadLayout ThreadPlacement ThreadReplay
open ThreadTracking
open ThreadGrouper.Grouper (replay)

variable {R : ParentResolver} {evs : List KernelEvent} {g g' : Grouper} {e : KernelEvent}

/-- The child waits for the parent and is in no block, once the event has its target's place. -/
def Held (R : ParentResolver) (g : Grouper) (e : KernelEvent) (x y : EventId) : Prop :=
  y ∈ waiters g x ∧
    (y ∉ g.seen ∨ (R.supersedes e = some y ∧ ∃ b ∈ g.blocks, b.isStandalone y = true))

/-- The event is new, its parent waits, and waits for the event itself. -/
def Circular (R : ParentResolver) (g : Grouper) (e : KernelEvent) : Prop :=
  e.id ∉ g.byId ∧ g.supersededRow e.id = ∅ ∧
    ∃ p, R.parentId e = some p ∧ p ∈ g.orphaned ∧ TransGen (Held R g e) e.id p

theorem held_iff (x y : EventId) :
    Held R g e x y ↔ y ∈ waiters g x ∧ y ∉ (g.receive R e).2.seen := by
  refine and_congr_right fun _ => ⟨fun hy hin => ?_, not_seen_receive g e⟩
  have hin : y ∈ ((g.remember e).preempt R e).seen := hin
  unfold Grouper.preempt at hin
  split at hin
  next hnone =>
    obtain hnot | ⟨hy, -⟩ := hy
    · exact hnot hin
    · rw [hnone] at hy
      cases hy
  next target htarget =>
    obtain ⟨heq, hnone⟩ | ⟨idx, b, -, -, -, heq⟩ := unplaceStandalone_cases
      { g.remember e with supersededBy :=
          (g.remember e).supersededBy.alter target fun row => insert e.id (row.getD ∅) } target
    · rw [heq] at hin
      obtain hnot | ⟨hy, b, hb, hown⟩ := hy
      · exact hnot hin
      · obtain rfl : target = y := Option.eq_some_unique htarget hy
        rw [hnone b hb] at hown
        cases hown
    · rw [heq] at hin
      obtain ⟨hne, hin⟩ := Finset.mem_erase.mp hin
      obtain hnot | ⟨hy, -⟩ := hy
      · exact hnot hin
      · exact hne (Option.eq_some_unique hy htarget)

/-- The ids that were replayed or wait to be: each once, and the new event is none of them. -/
structure Sweep (R : ParentResolver) (evs : List KernelEvent) (g : Grouper) (e : KernelEvent)
    (done stack : List EventId) (g' : Grouper) : Prop where
  tracked : Tracked R evs g'
  byId : g'.byId = (g.receive R e).2.byId
  nodup : (stack ++ done).Nodup
  fresh : e.id ∉ stack ++ done
  below : ∀ id ∈ stack ++ done, ∃ x, ReflTransGen (Held R g e) e.id x ∧ id ∈ waiters g x
  parent : ∀ id ∈ stack ++ done, ∃ p, parentOf R g' id = some p ∧ (p = e.id ∨ p ∈ done)
  rows : ∀ x, ∀ c ∈ waiters g' x, c ∈ waiters g x ∨ c ∈ done ∨
    (c = e.id ∧ R.parentId e = some x ∧ (x ∉ g.byId ∨ x ∈ g.orphaned))
  held : ∀ x y, y ∈ waiters g x → y ∉ g'.seen → Held R g e x y

variable {done stack : List EventId} {x : EventId}

theorem Sweep.skip (h : Sweep R evs g e done (x :: stack) g') :
    Sweep R evs g e (x :: done) stack g' := by
  have hperm : (stack ++ x :: done).Perm (x :: stack ++ done) := List.perm_middle
  refine ⟨h.tracked, h.byId, hperm.nodup_iff.mpr h.nodup, fun hid => h.fresh (hperm.mem_iff.mp hid),
    fun id hid => h.below id (hperm.mem_iff.mp hid), fun id hid => ?_, fun y c hc => ?_, h.held⟩
  · obtain ⟨p, hp, hroot⟩ := h.parent id (hperm.mem_iff.mp hid)
    exact ⟨p, hp, hroot.imp_right (List.mem_cons_of_mem x)⟩
  · exact (h.rows y c hc).imp_right (Or.imp_left (List.mem_cons_of_mem x))

/-- An unseen id of the replay hangs below the new event. -/
theorem Sweep.reach (h : Sweep R evs g e done stack g') (hx : x ∈ stack ++ done)
    (hseen : x ∉ g'.seen) : TransGen (Held R g e) e.id x := by
  obtain ⟨w, hw, hwait⟩ := h.below x hx
  exact TransGen.tail' hw (h.held w x hwait hseen)

theorem Sweep.place (hg : Tracked R evs g) (hfree : ¬ Circular R g e) (hnew : e.id ∉ g.byId)
    (hrow : g.supersededRow e.id = ∅) (h : Sweep R evs g e done (x :: stack) g')
    (hseen : x ∉ g'.seen) {ev : KernelEvent} (hev : g'.byId.lookup x = some ev) :
    Sweep R evs g e (x :: done) (((g'.placeEvent R ev).1.drain x).1.reverse ++ stack)
      ((g'.placeEvent R ev).1.drain x).2 := by
  have hplace := h.tracked.placing hev
  have hid : ev.id = x := (h.tracked.named x ev hev).1
  have htracked := h.tracked.place (h.tracked.lookup_self hev) hplace
  generalize (g'.placeEvent R ev).1 = g'' at hplace htracked ⊢
  have hx : x ∈ x :: stack ++ done := List.mem_cons_self
  have hxe : x ≠ e.id := fun heq => h.fresh (heq ▸ hx)
  have hdone : x ∉ done := fun hin =>
    (List.nodup_cons.mp h.nodup).1 (List.mem_append_right _ hin)
  have hreach := h.reach hx hseen
  have hbyId : (g''.drain x).2.byId = g'.byId := hplace.byId_eq
  have hparent : ∀ y, parentOf R (g''.drain x).2 y = parentOf R g' y := fun y => by
    rw [parentOf, hbyId, parentOf]
  have hwait : ∀ c ∈ (g''.drain x).1, parentOf R g' c = some x := fun c hc => by
    rw [← hparent]
    exact htracked.parentOf_waiter (mem_drain.mp hc)
  -- who waits for `x` was not in the replay, as `x` was not done
  have hout : ∀ c ∈ (g''.drain x).1, c ∉ x :: stack ++ done := by
    intro c hc hin
    obtain ⟨p, hp, hroot⟩ := h.parent c hin
    obtain rfl : x = p := Option.some.inj ((hwait c hc).symm.trans hp)
    exact hroot.elim hxe hdone
  have hold : ∀ c ∈ (g''.drain x).1, c ∈ waiters g x := by
    intro c hc
    obtain hin | ⟨heq, -⟩ := hplace.mem_waiters (mem_drain.mp hc)
    · obtain hin | hin | ⟨-, hp, hrest⟩ := h.rows x c hin
      · exact hin
      · exact absurd (List.mem_append_right _ hin) (hout c hc)
      · refine absurd ⟨hnew, hrow, x, hp, hrest.resolve_left fun hnot => hnot ?_, hreach⟩ hfree
        rw [mem_iff_lookup]
        rw [h.byId, receive_lookup, if_neg hxe] at hev
        exact ⟨ev, hev⟩
    · exact absurd (heq.trans hid ▸ hx) (hout c hc)
  have hcases {id : EventId} (hin : id ∈ (g''.drain x).1.reverse ++ stack ++ x :: done) :
      id ∈ (g''.drain x).1 ∨ id ∈ x :: stack ++ done := by
    rw [List.append_assoc, List.mem_append, List.mem_reverse] at hin
    exact hin.imp_right List.perm_middle.mem_iff.mp
  refine ⟨htracked.drain x, hbyId.trans h.byId, ?_, fun hin => ?_, fun id hin => ?_,
    fun id hin => ?_, fun y c hc => ?_, fun y c hc hnot => ?_⟩
  · have hperm : ((g''.drain x).1.reverse ++ stack ++ x :: done).Perm
        ((g''.drain x).1.reverse ++ (x :: stack ++ done)) := by
      rw [List.append_assoc]
      exact List.perm_middle.append_left _
    refine hperm.nodup_iff.mpr (List.nodup_append.mpr ⟨?_, h.nodup, ?_⟩)
    · exact List.nodup_reverse.mpr ((SortedSet.sorted _).imp fun hlt => hlt.ne)
    · rintro c hc _ hc' rfl
      exact hout c (List.mem_reverse.mp hc) hc'
  · obtain hin | hin := hcases hin
    · exact hg.not_waiting hnew x (hold _ hin)
    · exact h.fresh hin
  · obtain hin | hin := hcases hin
    · exact ⟨x, hreach.to_reflTransGen, hold id hin⟩
    · exact h.below id hin
  · rw [hparent]
    obtain hin | hin := hcases hin
    · exact ⟨x, hwait id hin, .inr List.mem_cons_self⟩
    · obtain ⟨p, hp, hroot⟩ := h.parent id hin
      exact ⟨p, hp, hroot.imp_right (List.mem_cons_of_mem x)⟩
  · obtain hin | ⟨rfl, -⟩ := hplace.mem_waiters (mem_waiters_drain.mp hc).2
    · exact (h.rows y c hin).imp_right (Or.imp_left (List.mem_cons_of_mem x))
    · exact .inr (.inl (hid ▸ List.mem_cons_self))
  · exact h.held y c hc fun hin => hnot (hplace.seen_mono hin)

/-- As many rounds as there are events suffice. -/
theorem Sweep.ends (hg : Tracked R evs g) (hfree : ¬ Circular R g e) (hnew : e.id ∉ g.byId)
    (hrow : g.supersededRow e.id = ∅) {rounds : Nat} (h : Sweep R evs g e done stack g')
    (hrounds : g'.byId.keys.length ≤ rounds + done.length) :
    ∃ replayed, replay R rounds stack g' = some replayed := by
  induction rounds generalizing g' done stack with
  | zero =>
    cases stack with
    | nil => exact ⟨g', rfl⟩
    | cons x stack =>
      have hsub : x :: done ⊆ g'.byId.keys := by
        intro id hid
        obtain ⟨p, hp, -⟩ := h.parent id (by
          obtain rfl | hid := List.mem_cons.mp hid
          · exact List.mem_cons_self
          · exact List.mem_append_right _ hid)
        obtain ⟨ev, hev, -⟩ := parentOf_eq_some.mp hp
        exact AList.mem_keys.mp ((mem_iff_lookup _ _).mpr ⟨ev, hev⟩)
      have hnodup : (x :: done).Nodup :=
        h.nodup.sublist ((List.sublist_append_right stack done).cons_cons x)
      have hlen := (hnodup.subperm hsub).length_le
      rw [List.length_cons] at hlen
      omega
  | succ _ ih =>
    cases stack with
    | nil => exact ⟨g', rfl⟩
    | cons x =>
      unfold replay
      split
      next => exact ih h.skip (by rw [List.length_cons]; omega)
      next hseen =>
        split
        next => exact ih h.skip (by rw [List.length_cons]; omega)
        next ev hev =>
          have hbyId : ((g'.placeEvent R ev).1.drain x).2.byId = g'.byId :=
            (h.tracked.placing hev).byId_eq
          exact ih (h.place hg hfree hnew hrow hseen hev) (by rw [hbyId, List.length_cons]; omega)

/-- The children that waited for the event, once it is placed. -/
theorem sweep_start (hg : Tracked R evs g) (he : e ∈ evs) (hnew : e.id ∉ g.byId) :
    Sweep R evs g e [] (g.receive R e).1.reverse ((g.receive R e).2.placeEvent R e).1 := by
  have hreceived := tracked_receive (R := R) hg he hnew
  have hplace := hreceived.placing (receive_self g e)
  have hself : ∀ c ∈ (g.receive R e).1, c ≠ e.id := by
    rintro c hc rfl
    exact hg.not_waiting hnew _ ((mem_receive g e _).mp hc)
  refine ⟨hreceived.place (receive_self g e) hplace, hplace.byId_eq, ?_, fun hin => ?_,
    fun id hin => ?_, fun id hin => ?_, fun x c hc => ?_, fun x c hc hnot => ?_⟩
  · rw [List.append_nil]
    exact List.nodup_reverse.mpr ((SortedSet.sorted _).imp fun hlt => hlt.ne)
  · rw [List.append_nil, List.mem_reverse] at hin
    exact hself _ hin rfl
  · rw [List.append_nil, List.mem_reverse, mem_receive] at hin
    exact ⟨e.id, .refl, hin⟩
  · rw [List.append_nil, List.mem_reverse] at hin
    refine ⟨e.id, ?_, .inl rfl⟩
    rw [parentOf, hplace.byId_eq, ← parentOf, parentOf_receive g (hself id hin)]
    exact hg.parentOf_waiter ((mem_receive g e id).mp hin)
  · obtain hin | ⟨rfl, hp, hwait⟩ := hplace.mem_waiters hc
    · exact .inl ((waiters_receive g e x c).mp hin).2
    · rw [mem_receive_byId, receive_orphaned] at hwait
      exact .inr (.inr ⟨rfl, hp, hwait.imp_left fun hnot hin => hnot (.inr hin)⟩)
  · exact held_iff x c |>.mpr ⟨hc, fun hin => hnot (hplace.seen_mono hin)⟩

/-- All on the stack are there and wait, as their parents do. -/
def AllWait (R : ParentResolver) (g : Grouper) (stack : List EventId) : Prop :=
  ∀ y ∈ stack, ∃ q, parentOf R g y = some q ∧ q ∈ g.orphaned

theorem placeEvent_waiting {q : EventId} (hseen : e.id ∉ g.seen) (hq : R.parentId e = some q)
    (hwait : q ∈ g.orphaned) : g.placeEvent R e = (g.buffer q e.id, none) := by
  rw [Grouper.placeEvent, if_neg hseen, hq]
  exact if_pos (.inr hwait)

/-- A round of the replay buffers its event again and takes up who waits for it. -/
theorem AllWait.place (h : Tracked R evs g) (hall : AllWait R g (x :: stack)) (hseen : x ∉ g.seen)
    {ev : KernelEvent} (hev : g.byId.lookup x = some ev) : ∃ q, parentOf R g x = some q ∧
      (g.placeEvent R ev).1 = g.buffer q x ∧
      AllWait R (g.buffer q x) (((g.buffer q x).drain x).1.reverse ++ stack) := by
  obtain ⟨q, hq, hwait⟩ := hall x List.mem_cons_self
  obtain ⟨ev', hev', hp⟩ := parentOf_eq_some.mp hq
  obtain rfl : ev = ev' := Option.eq_some_unique hev hev'
  obtain rfl : ev.id = x := (h.named x ev hev).1
  have hplace : g.placeEvent R ev = (g.buffer q ev.id, none) := placeEvent_waiting hseen hp hwait
  refine ⟨q, hq, by rw [hplace], fun y hy => ?_⟩
  have hbuffered := h.place hev (h.placing hev)
  rw [hplace] at hbuffered
  obtain hy | hy := List.mem_append.mp hy
  · refine ⟨ev.id, ?_, Finset.mem_insert_self _ _⟩
    exact hbuffered.parentOf_waiter (mem_drain.mp (List.mem_reverse.mp hy))
  · obtain ⟨p, hp, hin⟩ := hall y (List.mem_cons_of_mem _ hy)
    exact ⟨p, hp, Finset.mem_insert_of_mem hin⟩

/-- The ids are unseen, the parent of each is one of them and each is the parent of one. -/
structure Ring (R : ParentResolver) (g : Grouper) (S : EventId → Prop) : Prop where
  unseen : ∀ y, S y → y ∉ g.seen
  parent : ∀ y, S y → ∃ x, S x ∧ parentOf R g y = some x
  child : ∀ x, S x → ∃ y, S y ∧ parentOf R g y = some x

/-- While each of a ring is on the stack or waits for its parent, the stack never runs out. -/
theorem replay_none {S : EventId → Prop} {rounds : Nat} (h : Tracked R evs g)
    (hall : AllWait R g stack) (hring : Ring R g S) (hsome : ∃ x ∈ stack, S x)
    (hwait : ∀ y x, S y → parentOf R g y = some x → y ∈ stack ∨ y ∈ waiters g x) :
    replay R rounds stack g = none := by
  induction rounds generalizing g stack with
  | zero =>
    obtain ⟨x, hx, -⟩ := hsome
    cases stack with
    | nil => cases hx
    | cons => rfl
  | succ _ ih =>
    obtain ⟨z, hz, hSz⟩ := hsome
    cases stack with
    | nil => cases hz
    | cons x stack =>
      unfold replay
      split
      next hseen =>
        have hne : ∀ y, S y → y ∈ x :: stack → y ∈ stack := by
          intro y hSy hy
          obtain rfl | hy := List.mem_cons.mp hy
          · exact absurd hseen (hring.unseen y hSy)
          · exact hy
        exact ih h (fun y hy => hall y (List.mem_cons_of_mem x hy)) hring ⟨z, hne z hSz hz, hSz⟩
          fun y p hSy hp => (hwait y p hSy hp).imp_left (hne y hSy)
      next hseen =>
        split
        next hnone =>
          obtain ⟨q, hq, -⟩ := hall x List.mem_cons_self
          rw [parentOf, hnone] at hq
          cases hq
        next ev hev =>
          obtain ⟨q, hq, hbuffer, hall'⟩ := hall.place h hseen hev
          have hnext := (h.place (h.lookup_self hev) (h.placing hev)).drain x
          rw [hbuffer] at hnext ⊢
          have hpushed : ∀ y, y ∈ waiters (g.buffer q x) x →
              y ∈ ((g.buffer q x).drain x).1.reverse ++ stack := fun y hy =>
            List.mem_append_left _ (List.mem_reverse.mpr (mem_drain.mpr hy))
          have hwait' : ∀ y p, S y → parentOf R g y = some p →
              y ∈ ((g.buffer q x).drain x).1.reverse ++ stack ∨
                y ∈ waiters ((g.buffer q x).drain x).2 p := by
            intro y p hSy hp
            have hin : y ∈ stack ∨ y ∈ waiters (g.buffer q x) p := by
              obtain hy | hy := hwait y p hSy hp
              · obtain rfl | hy := List.mem_cons.mp hy
                · obtain rfl : q = p := Option.eq_some_unique hq hp
                  exact .inr (mem_waiters_buffer.mpr (.inr ⟨rfl, rfl⟩))
                · exact .inl hy
              · exact .inr (mem_waiters_buffer.mpr (.inl hy))
            obtain hin | hin := hin
            · exact .inl (List.mem_append_right _ hin)
            · by_cases hpx : p = x
              · exact .inl (hpushed y (hpx ▸ hin))
              · exact .inr (mem_waiters_drain.mpr ⟨hpx, hin⟩)
          refine ih hnext hall' ⟨hring.unseen, hring.parent, hring.child⟩ ?_ hwait'
          by_cases hSx : S x
          · obtain ⟨y, hSy, hy⟩ := hring.child x hSx
            refine ⟨y, (hwait' y x hSy hy).resolve_right fun hin => ?_, hSy⟩
            exact (mem_waiters_drain.mp hin).1 rfl
          · refine ⟨z, List.mem_append_right _ ?_, hSz⟩
            obtain rfl | hz := List.mem_cons.mp hz
            · exact absurd hSz hSx
            · exact hz

/-- The ids between the new event and its parent. -/
def Between (R : ParentResolver) (g : Grouper) (e : KernelEvent) (p y : EventId) : Prop :=
  ReflTransGen (Held R g e) e.id y ∧ ReflTransGen (Held R g e) y p

/-- They and the new event wait for one another. -/
theorem ring_between (hg : Tracked R evs g) (hnew : e.id ∉ g.byId) {p : EventId}
    (hp : R.parentId e = some p) (hpath : TransGen (Held R g e) e.id p) :
    Ring R (g.receive R e).2 (Between R g e p) := by
  have hself : parentOf R (g.receive R e).2 e.id = some p := by
    rw [parentOf, receive_self, Option.bind_some, hp]
  have hparent : ∀ {x y}, Held R g e x y → parentOf R (g.receive R e).2 y = some x := by
    intro x y hxy
    have hne : y ≠ e.id := fun heq => hg.not_waiting hnew x (heq ▸ hxy.1)
    rw [parentOf_receive g hne]
    exact hg.parentOf_waiter hxy.1
  refine ⟨?_, ?_, ?_⟩
  · rintro y ⟨hdown, -⟩
    obtain rfl | ⟨w, -, hstep⟩ := ReflTransGen.cases_tail hdown
    · exact hg.unseen_receive hnew
    · exact ((held_iff w y).mp hstep).2
  · rintro y ⟨hdown, hup⟩
    obtain rfl | ⟨w, hw, hstep⟩ := ReflTransGen.cases_tail hdown
    · exact ⟨p, ⟨hpath.to_reflTransGen, .refl⟩, hself⟩
    · exact ⟨w, ⟨hw, .head hstep hup⟩, hparent hstep⟩
  · rintro x ⟨hdown, hup⟩
    obtain rfl | ⟨y, hstep, hy⟩ := ReflTransGen.cases_head hup
    · exact ⟨e.id, ⟨.refl, hpath.to_reflTransGen⟩, hself⟩
    · exact ⟨y, ⟨hdown.tail hstep, hy⟩, hparent hstep⟩

/-- A new event whose parent waits is buffered, as are those that waited for it. -/
theorem allWait_start (hg : Tracked R evs g) (hnew : e.id ∉ g.byId) {p : EventId}
    (hp : R.parentId e = some p) (hwait : p ∉ (g.receive R e).2.byId ∨ p ∈ g.orphaned) :
    ((g.receive R e).2.placeEvent R e).1 = (g.receive R e).2.buffer p e.id ∧
      AllWait R ((g.receive R e).2.buffer p e.id) (g.receive R e).1.reverse := by
  rw [← receive_orphaned (R := R) g e] at hwait
  refine ⟨?_, fun y hy => ⟨e.id, ?_, Finset.mem_insert_self _ _⟩⟩
  · rw [Grouper.placeEvent, if_neg (hg.unseen_receive hnew), hp]
    exact congrArg Prod.fst (if_pos hwait)
  · rw [List.mem_reverse, mem_receive] at hy
    have hne : y ≠ e.id := fun heq => hg.not_waiting hnew _ (heq ▸ hy)
    exact (parentOf_receive g hne).trans (hg.parentOf_waiter hy)

/-- The new event is buffered, and its parent with everything in between waits for it. -/
theorem replay_of_circular (hg : Tracked R evs g) (he : e ∈ evs) (hcirc : Circular R g e)
    (rounds : Nat) : replay R rounds (g.receive R e).1.reverse
      ((g.receive R e).2.placeEvent R e).1 = none := by
  obtain ⟨hnew, -, p, hp, horphan, hpath⟩ := hcirc
  have hself := receive_self (R := R) g e
  obtain ⟨hbuffer, hall⟩ := allWait_start hg hnew hp (.inr horphan)
  have hnext := (tracked_receive (R := R) hg he hnew).place hself
    ((tracked_receive (R := R) hg he hnew).placing hself)
  obtain ⟨hunseen, hparent, hchild⟩ := ring_between hg hnew hp hpath
  rw [hbuffer] at hnext ⊢
  refine replay_none hnext hall ⟨hunseen, hparent, hchild⟩ ?_ fun y x ⟨hdown, _⟩ hyx => ?_
  · obtain ⟨y, hstep, hy⟩ := TransGen.head'_iff.mp hpath
    refine ⟨y, ?_, .single hstep, hy⟩
    rw [List.mem_reverse, mem_receive]
    exact hstep.1
  · obtain rfl | ⟨w, -, hstep⟩ := ReflTransGen.cases_tail hdown
    · have hx : parentOf R (g.receive R e).2 e.id = some x := hyx
      rw [parentOf, hself, Option.bind_some, hp] at hx
      exact .inr (mem_waiters_buffer.mpr (.inr ⟨(Option.some.inj hx).symm, rfl⟩))
    · have hne : y ≠ e.id := fun heq => hg.not_waiting hnew w (heq ▸ hstep.1)
      have hx : parentOf R (g.receive R e).2 y = some x := hyx
      rw [parentOf_receive g hne, hg.parentOf_waiter hstep.1] at hx
      obtain rfl : w = x := Option.some.inj hx
      by_cases hroot : w = e.id
      · refine .inl (List.mem_reverse.mpr ((mem_receive g e y).mpr ?_))
        exact hroot ▸ hstep.1
      · exact .inr (mem_waiters_buffer.mpr (.inl ((waiters_receive g e w y).mpr ⟨hroot, hstep.1⟩)))

/-- A walk takes one step for each hop it may use. -/
theorem length_walkLoop_hops (hops : Nat) (cursor : Option ThreadPointer) (w : Walk) :
    (g.walkLoop R hops cursor w).chain.length ≤ w.chain.length + hops := by
  induction hops generalizing cursor w with
  | zero =>
    match cursor with
    | none => exact Nat.le_refl _
    | some (.address _ _ _) => exact Nat.le_refl _
    | some (.external _) => exact Nat.le_refl _
    | some (.event id _ _) =>
      simp only [Grouper.walkLoop]
      split <;> exact Nat.le_refl _
  | succ _ ih =>
    match cursor with
    | none => exact Nat.le_add_right _ _
    | some (.address _ _ _) => exact Nat.le_add_right _ _
    | some (.external _) => exact Nat.le_add_right _ _
    | some (.event id _ _) =>
      simp only [Grouper.walkLoop]
      split
      · exact Nat.le_add_right _ _
      · cases g.byId.lookup id with
        | none => exact Nat.le_add_right _ _
        | some =>
          dsimp only
          split
          · rw [List.length_cons]
            omega
          next =>
            refine (ih _ _).trans ?_
            rw [List.length_cons]
            omega

/-- The loop of an insertion ends after finitely many rounds, if there is one. -/
def Ends (R : ParentResolver) (g : Grouper) (e : KernelEvent) : Prop :=
  e.id ∈ g.byId ∨ g.supersededRow e.id ≠ ∅ ∨ ∃ rounds replayed,
    replay R rounds (g.receive R e).1.reverse ((g.receive R e).2.placeEvent R e).1 = some replayed

/-- In every state that the calls reach, an insertion ends unless the event's parent waits for the
event. Then as many rounds suffice as there are events; a walk takes at most its hops. -/
theorem insert_ends_iff (R : ParentResolver) (policy : ModulePolicy) (ops : List Op) (g : Grouper)
    (hrun : run (stepAll R) (some (.new policy)) ops = some g) (e : KernelEvent) :
    (Ends R g e ↔ ¬ Circular R g e) ∧ ((g.onInsert R e).isSome = true ↔ Ends R g e) ∧
      ∀ (g' : Grouper) (ev : KernelEvent),
        (g'.walkChain R ev).chain.length ≤ g'.policy.maxAncestorHops + 1 := by
  have hg : Tracked R (e :: ops.flatMap Op.events) g := tracked_run R policy ops
    (fun op hop ev hev => List.mem_cons_of_mem _ (List.mem_flatMap.mpr ⟨op, hop, hev⟩)) hrun
  have he : e ∈ e :: ops.flatMap Op.events := List.mem_cons_self
  have hfree : Ends R g e → ¬ Circular R g e := by
    rintro (hold | hrow | ⟨rounds, replayed, hreplay⟩) hcirc
    · exact hcirc.1 hold
    · exact hrow hcirc.2.1
    · rw [replay_of_circular hg he hcirc] at hreplay
      cases hreplay
  have hsome : ¬ Circular R g e → (g.onInsert R e).isSome = true := by
    intro hnot
    rw [← Option.isSome_map (f := Prod.fst)]
    obtain ⟨-, heq⟩ | ⟨-, -, heq⟩ | ⟨hnew, hrow, heq⟩ := onInsert_split (R := R) g e
    · rw [heq, Option.isSome_some]
    · rw [heq, Option.isSome_some]
    · have hstart := sweep_start (R := R) hg he hnew
      obtain ⟨replayed, hreplay⟩ := hstart.ends hg hnot hnew hrow
        (by rw [hstart.byId, List.length_nil, Nat.add_zero])
      rw [heq, hreplay]
      rfl
  have hends : (g.onInsert R e).isSome = true → Ends R g e := by
    intro hin
    rw [← Option.isSome_map (f := Prod.fst)] at hin
    obtain ⟨hold, -⟩ | ⟨-, hrow, -⟩ | ⟨-, -, heq⟩ := onInsert_split (R := R) g e
    · exact .inl hold
    · exact .inr (.inl hrow)
    · rw [heq, Option.isSome_map] at hin
      obtain ⟨replayed, hreplay⟩ := Option.isSome_iff_exists.mp hin
      exact .inr (.inr ⟨_, replayed, hreplay⟩)
  refine ⟨⟨hfree, fun hnot => hends (hsome hnot)⟩, ⟨hends, fun h => hsome (hfree h)⟩,
    fun g' ev => ?_⟩
  rw [Grouper.walkChain]
  exact (length_walkLoop_hops _ _ _).trans (Nat.add_comm _ _).le

/-- A repost arrives after a note and its reply. -/
theorem repost_ends : ∃ g, run (stepAll tagResolver) (some (.new .default))
    [.onInsert reply, .onInsert note] = some g ∧ Ends tagResolver g repost := by
  obtain ⟨g, hrun⟩ := Option.isSome_iff_exists.mp (show (run (stepAll tagResolver)
    (some (.new .default)) [.onInsert reply, .onInsert note]).isSome = true by decide +kernel)
  refine ⟨g, hrun, (insert_ends_iff tagResolver .default _ g hrun repost).1.mpr ?_⟩
  rintro ⟨-, -, p, hp, -⟩
  cases (show (none : Option EventId) = some p from hp)

def chicken : KernelEvent := tagged "a" 1 [["e_parent", "b"]]

def egg : KernelEvent := tagged "b" 2 [["e_parent", "a"]]

/-- Of two events that reply to one another the second is replayed for ever. -/
theorem mutual_replies_loop : ¬ ∀ (R : ParentResolver) (policy : ModulePolicy) (ops : List Op)
    (g : Grouper), run (stepAll R) (some (.new policy)) ops = some g → ∀ e, Ends R g e := by
  intro h
  have hstate : (run (stepAll tagResolver) (some (.new .default)) [.onInsert chicken]).map
      (fun g => (decide ("a" ∈ g.orphaned), decide ("a" ∈ waiters g "b"), decide ("a" ∈ g.seen),
        decide ("b" ∈ g.byId), decide (g.supersededRow "b" = ∅))) =
          some (true, true, false, false, true) := by
    decide +kernel
  obtain ⟨g, hrun, hg⟩ := Option.map_eq_some_iff.mp hstate
  simp only [Prod.mk.injEq, decide_eq_true_eq, decide_eq_false_iff_not] at hg
  obtain ⟨horphan, hwait, hseen, hnew, hrow⟩ := hg
  have htracked : Tracked tagResolver [chicken, egg] g := tracked_run tagResolver .default
    [.onInsert chicken] (by decide) hrun
  have hcirc : Circular tagResolver g egg :=
    ⟨hnew, hrow, "a", rfl, horphan, .single ⟨hwait, .inl hseen⟩⟩
  obtain hold | hrow' | ⟨rounds, replayed, hreplay⟩ := h tagResolver .default _ g hrun egg
  · exact hnew hold
  · exact hrow' hrow
  · rw [replay_of_circular htracked (by decide) hcirc] at hreplay
    cases hreplay

/-- Whatever the parents are, calls that return keep each event to one block. -/
theorem returned_tracked (R : ParentResolver) (policy : ModulePolicy) (ops : List Op) (g : Grouper)
    (hrun : run (stepAll R) (some (.new policy)) ops = some g) :
    Tracked R (ops.flatMap Op.events) g :=
  tracked_run R policy ops (fun op hop _ hev => List.mem_flatMap.mpr ⟨op, hop, hev⟩) hrun

/-- The first of two events that reply to one another. -/
theorem returned_tracked_chicken : ∃ g, "a" ∈ g.orphaned ∧ Tracked tagResolver [chicken] g := by
  have hstate : (run (stepAll tagResolver) (some (.new .default)) [.onInsert chicken]).map
      (fun g => decide ("a" ∈ g.orphaned)) = some true := by
    decide +kernel
  obtain ⟨g, hrun, hg⟩ := Option.map_eq_some_iff.mp hstate
  exact ⟨g, of_decide_eq_true hg, returned_tracked tagResolver .default _ g hrun⟩

end ThreadCycles
