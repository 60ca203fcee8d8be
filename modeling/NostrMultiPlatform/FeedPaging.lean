import NostrMultiPlatform.CursorPages
import NostrMultiPlatform.FeedRows
import NostrMultiPlatform.ThreadGrouper

/-!
# Window paging

A block of the feed is placed by the newest of its events, and an event without a card
counts as the oldest. The blocks are sorted newest first, and a request gets those
that are older than its cursor.
-/
namespace FeedPaging

open CursorPages FeedRows ThreadGrouper

structure FeedCursor where
  createdAt : Nat
  id : String
  deriving DecidableEq

namespace FeedCursor

def isNewerThan (cursor other : FeedCursor) : Bool :=
  cursor.createdAt > other.createdAt ||
    (cursor.createdAt == other.createdAt && decide (cursor.id > other.id))

def isOlderThan (cursor other : FeedCursor) : Bool :=
  cursor.createdAt < other.createdAt ||
    (cursor.createdAt == other.createdAt && decide (cursor.id < other.id))

/-- By the time, then by the id. -/
def key (cursor : FeedCursor) : Nat ×ₗ String := toLex (cursor.createdAt, cursor.id)

theorem key_injective : Function.Injective key := by
  rintro ⟨at₁, id₁⟩ ⟨at₂, id₂⟩ h
  cases toLex.injective h
  rfl

instance : LinearOrder FeedCursor := LinearOrder.lift' key key_injective

theorem lt_iff {c d : FeedCursor} :
    c < d ↔ c.createdAt < d.createdAt ∨ c.createdAt = d.createdAt ∧ c.id < d.id :=
  Prod.Lex.toLex_lt_toLex

theorem isOlderThan_eq (c d : FeedCursor) : c.isOlderThan d = decide (c < d) := by
  simp [isOlderThan, lt_iff, Bool.decide_or, Bool.decide_and, beq_eq_decide]

theorem isNewerThan_eq (c d : FeedCursor) : c.isNewerThan d = decide (d < c) := by
  rw [← isOlderThan_eq, isNewerThan, isOlderThan, Bool.beq_comm]

end FeedCursor

class FeedBlock (B : Type) where
  feedEventIds : B → List String

instance : FeedBlock TimelineBlock := ⟨TimelineBlock.ids⟩

class FeedCard (C : Type) where
  feedCreatedAt : C → Nat

structure FeedRequest where
  limit : Nat
  cursor : Option FeedCursor

def FeedRequest.boundedLimit (request : FeedRequest) : Nat :=
  if request.limit = 0 then defaultFeedWindowLimit else min request.limit maxFeedWindowLimit

structure FeedPage where
  limit : Nat
  nextCursor : Option FeedCursor
  hasMore : Bool
  totalBlocks : Nat
  deriving DecidableEq

section Window

variable {B C : Type} [FeedBlock B] [FeedCard C]

variable (blocks : List B) (cards : String → Option C)

/-- The newer of the best cursor so far and that of an event; without a card its time is zero. -/
def newerOf (best : Option FeedCursor) (id : String) : Option FeedCursor :=
  let cursor : FeedCursor := ⟨(cards id).elim 0 FeedCard.feedCreatedAt, id⟩
  if best.all (cursor.isNewerThan ·) then some cursor else best

def blockCursor (block : B) (cards : String → Option C) : FeedCursor :=
  ((FeedBlock.feedEventIds block).foldl (newerOf cards) none).getD ⟨0, ""⟩

def pageStartAfterCursor (cursor : FeedCursor) : Nat :=
  blocks.findIdx fun block => (blockCursor block cards).isOlderThan cursor

def newestFirst (left right : FeedCursor) : Ordering :=
  (compare right.createdAt left.createdAt).then (compare right.id left.id)

def pageForRequest (request : FeedRequest) : List B × FeedPage :=
  let totalBlocks := blocks.length
  let limit := request.boundedLimit
  let start := request.cursor.elim 0 (pageStartAfterCursor blocks cards)
  let last := min (start + limit) totalBlocks
  let pageBlocks := (blocks.drop start).take (last - start)
  let hasMore := decide (last < totalBlocks)
  let nextCursor := if hasMore then pageBlocks.getLast?.map (blockCursor · cards) else none
  (pageBlocks, ⟨limit, nextCursor, hasMore, totalBlocks⟩)

def sortedBlocks : List B :=
  let keyed := blocks.map fun block => (blockCursor block cards, block)
  (keyed.mergeSort fun left right => newestFirst left.1 right.1 != .gt).map Prod.snd

theorem boundedLimit_pos (request : FeedRequest) : 0 < request.boundedLimit := by
  rw [FeedRequest.boundedLimit, defaultFeedWindowLimit, maxFeedWindowLimit]
  split <;> omega

theorem newerOf_isSome (cards : String → Option C) (best : Option FeedCursor) (id : String) :
    (newerOf cards best id).isSome := by
  rw [newerOf]
  cases best with
  | none => rfl
  | some => split <;> rfl

theorem newerOf_id {cards : String → Option C} {best : Option FeedCursor} {id : String}
    {cursor : FeedCursor} (h : newerOf cards best id = some cursor) :
    best = some cursor ∨ cursor.id = id := by
  rw [newerOf] at h
  split at h
  · exact .inr (Option.some.inj h ▸ rfl)
  · exact .inl h

theorem foldl_newerOf (cards : String → Option C) (ids : List String) (best : Option FeedCursor)
    (h : best.isSome ∨ ids ≠ []) :
    ∃ cursor, ids.foldl (newerOf cards) best = some cursor ∧
      (best = some cursor ∨ cursor.id ∈ ids) := by
  induction ids generalizing best with
  | nil =>
    obtain ⟨cursor, hbest⟩ := Option.isSome_iff_exists.mp (h.resolve_right fun hne => hne rfl)
    exact ⟨cursor, hbest, .inl hbest⟩
  | cons id _ ih =>
    obtain ⟨cursor, hfold, hfrom⟩ := ih (newerOf cards best id) (.inl (newerOf_isSome ..))
    refine ⟨cursor, hfold, ?_⟩
    rcases hfrom with hstep | hrest
    · rcases newerOf_id hstep with hbest | hid
      · exact .inl hbest
      · exact .inr (hid ▸ List.mem_cons_self)
    · exact .inr (List.mem_cons_of_mem _ hrest)

/-- The cursor of a block that has events is that of one of them. -/
theorem blockCursor_id_mem (block : B) (cards : String → Option C)
    (h : FeedBlock.feedEventIds block ≠ []) :
    (blockCursor block cards).id ∈ FeedBlock.feedEventIds block := by
  obtain ⟨cursor, hfold, hfrom⟩ := foldl_newerOf cards _ none (.inr h)
  rw [blockCursor, hfold]
  exact hfrom.resolve_left nofun

/-- Blocks that have events, no event in two of them. -/
def EventsDisjoint : Prop :=
  (∀ block ∈ blocks, FeedBlock.feedEventIds block ≠ []) ∧
    blocks.Pairwise fun left right =>
      (FeedBlock.feedEventIds left).Disjoint (FeedBlock.feedEventIds right)

theorem newestFirst_ne_gt (left right : FeedCursor) :
    (newestFirst left right != .gt) = decide (right ≤ left) := by
  have hgt : newestFirst left right = .gt ↔ left < right := by
    rw [newestFirst, Ordering.then_eq_gt, compare_gt_iff_gt, compare_gt_iff_gt, compare_eq_iff_eq,
      FeedCursor.lt_iff, eq_comm (a := right.createdAt)]
  rw [Bool.eq_iff_iff, bne_iff_ne, decide_eq_true_eq, ← not_lt]
  exact not_congr hgt

theorem cursors_nodup {blocks : List B} (h : EventsDisjoint blocks) (cards : String → Option C) :
    (blocks.map (blockCursor · cards)).Nodup := by
  rw [List.Nodup, List.pairwise_map]
  refine h.2.imp_of_mem fun {left right} hleft hright hdisjoint heq => ?_
  exact hdisjoint (blockCursor_id_mem left cards (h.1 left hleft))
    (heq ▸ blockCursor_id_mem right cards (h.1 right hright))

theorem sortedBlocks_perm (blocks : List B) (cards : String → Option C) :
    (sortedBlocks blocks cards).Perm blocks := by
  refine ((List.mergeSort_perm _ _).map Prod.snd).trans ?_
  rw [List.map_map]
  exact .of_eq (List.map_id blocks)

theorem sortedBlocks_descending {blocks : List B} (h : EventsDisjoint blocks)
    (cards : String → Option C) :
    Descending (blockCursor · cards) (sortedBlocks blocks cards) := by
  have hsorted := @List.pairwise_mergeSort _
    (fun left right : FeedCursor × B => newestFirst left.1 right.1 != .gt)
    (fun a b c hab hbc => by
      simp only [newestFirst_ne_gt, decide_eq_true_eq] at hab hbc ⊢
      exact hbc.trans hab)
    (fun a b => by
      simp only [newestFirst_ne_gt, Bool.or_eq_true, decide_eq_true_eq]
      exact le_total _ _)
    (blocks.map fun block => (blockCursor block cards, block))
  have hcursors : ∀ entry ∈ (blocks.map fun block => (blockCursor block cards, block)).mergeSort
      (fun left right => newestFirst left.1 right.1 != .gt),
      entry.1 = blockCursor entry.2 cards := by
    intro entry hentry
    obtain ⟨block, -, rfl⟩ := List.mem_map.mp (List.mem_mergeSort.mp hentry)
    rfl
  have hnodup : ((sortedBlocks blocks cards).map (blockCursor · cards)).Nodup :=
    ((sortedBlocks_perm blocks cards).map _).nodup_iff.mpr (cursors_nodup h cards)
  rw [List.Nodup, List.pairwise_map] at hnodup
  refine hnodup.imp₂ (fun left right hne hle => lt_of_le_of_ne hle (Ne.symm hne)) ?_
  refine List.pairwise_map.mpr (hsorted.imp_of_mem fun {left right} hleft hright hle => ?_)
  rw [newestFirst_ne_gt, decide_eq_true_eq] at hle
  change blockCursor right.2 cards ≤ blockCursor left.2 cards
  rwa [← hcursors left hleft, ← hcursors right hright]

section Paging

variable (cards : String → Option C) (blocks : Nat → List B) (limit : Nat → Nat)

/-- The requests of a client that goes on from the cursor it was given. -/
def requestAt : Nat → FeedRequest
  | 0 => ⟨limit 0, none⟩
  | k + 1 => ⟨limit (k + 1),
      (pageForRequest (sortedBlocks (blocks k) cards) cards (requestAt k)).2.nextCursor⟩

def responseAt (k : Nat) : List B × FeedPage :=
  pageForRequest (sortedBlocks (blocks k) cards) cards (requestAt cards blocks limit k)

/-- What the client has got with the calls before the `n`-th. -/
def received (n : Nat) : List B := (List.range n).flatMap fun k => (responseAt cards blocks limit k).1

/-- The calls go on until one says that there is no more. -/
def LastCall (n : Nat) : Prop :=
  (∀ k < n, (responseAt cards blocks limit k).2.hasMore = true) ∧
    (responseAt cards blocks limit n).2.hasMore = false

/-- As long as there is more, the blocks that come between two calls are newer than the
cursor the first has returned. -/
def AddedAbove : Prop :=
  ∀ k cursor, (∀ j ≤ k, (responseAt cards blocks limit j).2.hasMore = true) →
    (responseAt cards blocks limit k).2.nextCursor = some cursor →
      ∀ block ∈ blocks (k + 1), block ∉ blocks k →
        (blockCursor block cards).isNewerThan cursor = true

end Paging

/-- A response over sorted blocks is a page after the cursor. -/
theorem pageForRequest_eq {blocks : List B} {cards : String → Option C}
    (h : Descending (blockCursor · cards) blocks) (request : FeedRequest) :
    let rest := blocks.filter (isBelow (blockCursor · cards) request.cursor)
    (pageForRequest blocks cards request).1 = rest.take request.boundedLimit ∧
      (pageForRequest blocks cards request).2.hasMore =
        decide (request.boundedLimit < rest.length) ∧
      (pageForRequest blocks cards request).2.nextCursor =
        if request.boundedLimit < rest.length then
          (rest.take request.boundedLimit).getLast?.map (blockCursor · cards)
        else none := by
  intro rest
  have hrest : blocks.drop (request.cursor.elim 0 (pageStartAfterCursor blocks cards)) = rest := by
    cases hcursor : request.cursor with
    | none => simp [rest, hcursor]
    | some cursor =>
      simp only [rest, hcursor, Option.elim_some, isBelow_some, pageStartAfterCursor,
        FeedCursor.isOlderThan_eq]
      exact h.drop_findIdx cursor
  have hlength : rest.length =
      blocks.length - request.cursor.elim 0 (pageStartAfterCursor blocks cards) := by
    rw [← hrest, List.length_drop]
  have hstart : request.cursor.elim 0 (pageStartAfterCursor blocks cards) ≤ blocks.length := by
    cases request.cursor with
    | none => exact Nat.zero_le _
    | some => exact List.findIdx_le_length
  have hpage : (pageForRequest blocks cards request).1 = rest.take request.boundedLimit := by
    rw [pageForRequest]
    dsimp only
    rw [hrest, List.take_eq_take_iff]
    omega
  have hmore : (pageForRequest blocks cards request).2.hasMore =
      decide (request.boundedLimit < rest.length) := by
    rw [pageForRequest]
    refine decide_eq_decide.mpr ?_
    omega
  refine ⟨hpage, hmore, ?_⟩
  have hnext : (pageForRequest blocks cards request).2.nextCursor =
      if (pageForRequest blocks cards request).2.hasMore then
        (pageForRequest blocks cards request).1.getLast?.map (blockCursor · cards) else none := rfl
  rw [hnext, hmore, hpage]
  simp only [decide_eq_true_eq]

section Calls

variable {cards : String → Option C} {blocks : Nat → List B} {limit : Nat → Nat}
  (hblocks : ∀ k, EventsDisjoint (blocks k))

variable (cards blocks) in
/-- What the `k`-th call looks at. -/
def view (k : Nat) : List B := sortedBlocks (blocks k) cards

variable (cards blocks limit) in
def bound (k : Nat) : Nat := (requestAt cards blocks limit k).boundedLimit

include hblocks in
theorem view_descending (k : Nat) : Descending (blockCursor · cards) (view cards blocks k) :=
  sortedBlocks_descending (hblocks k) cards

theorem mem_view {k : Nat} {block : B} : block ∈ view cards blocks k ↔ block ∈ blocks k :=
  (sortedBlocks_perm (blocks k) cards).mem_iff

include hblocks in
theorem requestAt_cursor (k : Nat) : (requestAt cards blocks limit k).cursor =
    cursorAt (blockCursor · cards) (view cards blocks) (bound cards blocks limit) k := by
  induction k with
  | zero => rfl
  | succ k ih =>
    rw [requestAt, (pageForRequest_eq (sortedBlocks_descending (hblocks k) cards) _).2.2, ih]
    rfl

include hblocks in
/-- A call is one step of reading on. -/
theorem responseAt_eq (k : Nat) :
    (responseAt cards blocks limit k).1 =
        pageAt (blockCursor · cards) (view cards blocks) (bound cards blocks limit) k ∧
      ((responseAt cards blocks limit k).2.hasMore = true ↔
        HasMore (blockCursor · cards) (view cards blocks) (bound cards blocks limit) k) ∧
      (responseAt cards blocks limit k).2.nextCursor =
        cursorAt (blockCursor · cards) (view cards blocks) (bound cards blocks limit) (k + 1) := by
  obtain ⟨hpage, hmore, -⟩ := pageForRequest_eq (sortedBlocks_descending (hblocks k) cards)
    (requestAt cards blocks limit k)
  rw [requestAt_cursor hblocks] at hpage hmore
  refine ⟨hpage, ?_, (requestAt_cursor hblocks (k + 1))⟩
  rw [responseAt, hmore, decide_eq_true_eq]
  exact Iff.rfl

include hblocks in
theorem received_eq (n : Nat) : received cards blocks limit n =
    pages (blockCursor · cards) (view cards blocks) (bound cards blocks limit) n :=
  List.flatMap_congr fun k _ => (responseAt_eq hblocks k).1

include hblocks in
theorem lastCall_iff (n : Nat) : LastCall cards blocks limit n ↔
    (∀ k < n, HasMore (blockCursor · cards) (view cards blocks) (bound cards blocks limit) k) ∧
      ¬ HasMore (blockCursor · cards) (view cards blocks) (bound cards blocks limit) n := by
  simp only [LastCall, (responseAt_eq hblocks _).2.1, ← Bool.not_eq_true]

include hblocks in
theorem growsAbove (hadded : AddedAbove cards blocks limit) :
    GrowsAbove (blockCursor · cards) (view cards blocks) (bound cards blocks limit) := by
  intro k c hmore hc block hin hout
  rw [← (responseAt_eq hblocks k).2.2] at hc
  have hsaid : ∀ j ≤ k, (responseAt cards blocks limit j).2.hasMore = true := fun j hj =>
    (responseAt_eq hblocks j).2.1.mpr (hmore j hj)
  have hnewer := hadded k c hsaid hc block (mem_view.mp hin) fun hold => hout (mem_view.mpr hold)
  rwa [FeedCursor.isNewerThan_eq, decide_eq_true_eq] at hnewer

end Calls

/-- The calls come to an end; what they bring is newest first and has no block twice, and it
has every block that was there throughout. If nothing changes, it is all blocks in order. -/
theorem paging_complete (cards : String → Option C) (blocks : Nat → List B) (limit : Nat → Nat)
    (hblocks : ∀ k, EventsDisjoint (blocks k)) (hadded : AddedAbove cards blocks limit) :
    ∃ n, LastCall cards blocks limit n ∧
      (received cards blocks limit (n + 1)).Pairwise (fun left right =>
        (blockCursor left cards).isNewerThan (blockCursor right cards) = true) ∧
      (received cards blocks limit (n + 1)).Nodup ∧
      (∀ block, (∀ k ≤ n, block ∈ blocks k) → block ∈ received cards blocks limit (n + 1)) ∧
      ((∀ k, blocks k = blocks 0) →
        received cards blocks limit (n + 1) = sortedBlocks (blocks 0) cards ∧
          (received cards blocks limit (n + 1)).Perm (blocks 0)) := by
  have hview : ∀ k, Descending (blockCursor · cards) (view cards blocks k) :=
    view_descending hblocks
  have hbound : ∀ k, 0 < bound cards blocks limit k := fun k =>
    boundedLimit_pos (requestAt cards blocks limit k)
  obtain ⟨n, hmore, hlast⟩ := reading_ends hview hbound (growsAbove hblocks hadded)
  have hdesc := pages_descending hview hbound hmore
  have hkept : ∀ block, (∀ k ≤ n, block ∈ blocks k) → block ∈ received cards blocks limit (n + 1) := by
    intro block hin
    rw [received_eq hblocks]
    exact none_skipped hview hbound hmore hlast fun k hk => mem_view.mpr (hin k hk)
  rw [← received_eq hblocks] at hdesc
  have hall : (∀ k, blocks k = blocks 0) →
      received cards blocks limit (n + 1) = sortedBlocks (blocks 0) cards := by
    intro hsame
    refine hdesc.eq_of_mem (hview 0) fun block => ⟨fun hin => ?_, fun hin => ?_⟩
    · rw [received_eq hblocks, pages, List.mem_flatMap] at hin
      obtain ⟨k, -, hpage⟩ := hin
      have hthere := (mem_restAt.mp (List.mem_of_mem_take hpage)).1
      exact mem_view.mpr (hsame k ▸ mem_view.mp hthere)
    · refine hkept block fun k _ => ?_
      rw [hsame k]
      exact mem_view.mp hin
  refine ⟨n, (lastCall_iff hblocks n).mpr ⟨hmore, hlast⟩, ?_, hdesc.nodup, hkept, fun hsame => ?_⟩
  · exact hdesc.imp fun hlt => by rwa [FeedCursor.isNewerThan_eq, decide_eq_true_eq]
  · exact ⟨hall hsame, hall hsame ▸ sortedBlocks_perm (blocks 0) cards⟩

end Window

/-- A card that shows nothing but its time. -/
instance : FeedCard Nat := ⟨id⟩

def threeCards (id : String) : Option Nat := [("note", 5), ("reply", 5), ("new", 9)].lookup id

/-- Three blocks, one of them without a card; a newer block comes after the first call. -/
def threeBlocks (k : Nat) : List TimelineBlock :=
  let old := [.standalone "gone" none, .module ["root", "reply"] false none, .standalone "note" none]
  if k = 0 then old else .standalone "new" none :: old

theorem three_blocks_paged : ∃ n, LastCall threeCards threeBlocks (fun _ => 2) n ∧
    .standalone "gone" none ∈ received threeCards threeBlocks (fun _ => 2) (n + 1) := by
  have hblocks : ∀ k, EventsDisjoint (threeBlocks k) := by
    intro k
    rw [threeBlocks]
    split <;> constructor <;> simp [FeedBlock.feedEventIds, TimelineBlock.ids]
  have hsorted : sortedBlocks (threeBlocks 0) threeCards =
      [.module ["root", "reply"] false none, .standalone "note" none, .standalone "gone" none] := by
    refine (sortedBlocks_descending (hblocks 0) threeCards).eq_of_mem ?_ fun block => ?_
    · unfold Descending
      decide +kernel
    · rw [(sortedBlocks_perm _ _).mem_iff]
      simp only [threeBlocks, if_pos, List.mem_cons, List.not_mem_nil, or_false]
      tauto
  have hcursor : (responseAt threeCards threeBlocks (fun _ => 2) 0).2.nextCursor =
      some ⟨5, "note"⟩ := by
    rw [responseAt, hsorted]
    decide +kernel
  have hadded : AddedAbove threeCards threeBlocks fun _ => 2 := by
    intro k cursor _ hc block hin hout
    cases k with
    | zero =>
      rw [hcursor] at hc
      obtain rfl := Option.some.inj hc
      rcases List.mem_cons.mp hin with rfl | hold
      · decide +kernel
      · exact absurd hold hout
    | succ => exact absurd hin hout
  obtain ⟨n, hlast, -, -, hall, -⟩ := paging_complete threeCards threeBlocks (fun _ => 2) hblocks hadded
  refine ⟨n, hlast, hall _ fun k _ => ?_⟩
  rw [threeBlocks]
  split <;> simp

end FeedPaging
