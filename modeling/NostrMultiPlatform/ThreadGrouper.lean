import NostrMultiPlatform.Sorted
import NostrMultiPlatform.Tables
import Mathlib.Data.Prod.Lex
import Mathlib.Data.String.Basic

/-!
# The timeline grouper

Events are laid out in blocks, a reply in one block with its parents where they
fit. A reply whose parent is not there waits for it; an event that another one
supersedes gets no block of its own.
-/
namespace ThreadGrouper

open Sorted Tables

abbrev EventId := String

structure KernelEvent where
  id : EventId
  author : String
  kind : Nat
  createdAt : Nat
  tags : List (List String)
  content : String
  relayProvenance : List String
  deriving DecidableEq, Repr

/-- Anchor of a reply. -/
inductive ThreadPointer where
  | event (id : EventId) (relay : Option String) (kind : Option Nat)
  | address (coord : String) (relay : Option String) (kind : Option Nat)
  | external (uri : String)
  deriving DecidableEq, Repr

def ThreadPointer.eventId : ThreadPointer → Option EventId
  | .event id _ _ => some id
  | .address _ _ _ => none
  | .external _ => none

/-- What the grouper asks about an event. -/
structure ParentResolver where
  parent : KernelEvent → Option ThreadPointer
  root : KernelEvent → Option ThreadPointer
  supersedes : KernelEvent → Option EventId

/-- The id of the parent event, if the event has one. -/
def ParentResolver.parentId (R : ParentResolver) (event : KernelEvent) : Option EventId :=
  (R.parent event).bind ThreadPointer.eventId

structure ModulePolicy where
  maxModuleSize : Nat
  maxLookbackGapSecs : Nat
  maxAncestorHops : Nat
  collapseAdjacentSameRoot : Bool
  deriving DecidableEq, Repr

/-- `ModulePolicy::default()`. -/
def ModulePolicy.default : ModulePolicy := ⟨3, 72 * 3600, 2, true⟩

inductive TimelineBlock where
  | standalone (id : EventId) (root : Option ThreadPointer)
  | «module» (events : List EventId) (hasGap : Bool) (root : Option ThreadPointer)
  deriving DecidableEq, Repr

namespace TimelineBlock

/-- The events of the block, the oldest first. -/
def ids : TimelineBlock → List EventId
  | standalone id _ => [id]
  | «module» events _ _ => events

def isStandalone (id : EventId) : TimelineBlock → Bool
  | standalone eid _ => eid == id
  | «module» _ _ _ => false

/-- The last event of the block is the given one. -/
def hasLeaf (id : EventId) (block : TimelineBlock) : Bool := block.ids.getLast? == some id

end TimelineBlock

inductive GroupDelta where
  | blockInserted (idx : Nat)
  | blockReplaced (idx : Nat)
  | blockRemoved (idx : Nat)
  deriving DecidableEq, Repr

structure Grouper where
  policy : ModulePolicy
  blocks : List TimelineBlock
  seen : Finset EventId
  byId : Table EventId KernelEvent
  orphans : SortedMap EventId (SortedSet EventId)
  orphaned : Finset EventId
  pendingAncestorIds : Finset EventId
  supersededBy : SortedMap EventId (SortedSet EventId)

def Grouper.new (policy : ModulePolicy) : Grouper := ⟨policy, [], ∅, ∅, ∅, ∅, ∅, ∅⟩

/-- Both events are there and the child is later by more than the threshold. -/
def gapBetween (parent child : Option KernelEvent) (thresholdSecs : Nat) : Bool :=
  match parent, child with
  | some p, some c => decide (thresholdSecs < c.createdAt - p.createdAt)
  | _, _ => false

/-- The root names an event that is not the top of the chain. -/
def rootIdMismatched (root : Option ThreadPointer) (chainTop : EventId) : Bool :=
  match root with
  | some (.event id _ _) => id != chainTop
  | _ => false

/-- The two blocks as one, the newer one first: they are modules with one root and fit. -/
def mergeBlocks (maxSize : Nat) : TimelineBlock → TimelineBlock → Option TimelineBlock
  | .module newer newerGap (some rootA), .module older olderGap (some rootB) =>
    if rootA = rootB ∧ newer.length + older.length ≤ maxSize then
      some (.module (older ++ newer) (newerGap || olderGap) (some rootA))
    else none
  | _, _ => none

/-- Merge from the block on; a merged block may merge further. -/
def collapseFrom (maxSize : Nat) (block : TimelineBlock) : List TimelineBlock → List TimelineBlock
  | [] => [block]
  | next :: rest =>
    match mergeBlocks maxSize block next with
    | some merged => collapseFrom maxSize merged rest
    | none => block :: collapseFrom maxSize next rest

def collapseBlocks (maxSize : Nat) : List TimelineBlock → List TimelineBlock
  | [] => []
  | block :: rest => collapseFrom maxSize block rest

/-- The progress of an ancestor walk. -/
structure Walk where
  chain : List EventId
  hasGap : Bool
  terminalRoot : Option ThreadPointer
  pending : Finset EventId

namespace Grouper

variable (g : Grouper)

def collapseAdjacent : Grouper :=
  if g.policy.collapseAdjacentSameRoot then
    { g with blocks := collapseBlocks g.policy.maxModuleSize g.blocks }
  else g

/-- When an event of the block was created, with its id. -/
abbrev SortKey := Nat ×ₗ EventId

variable (R : ParentResolver) (id : EventId) (event : KernelEvent)

def eventKey : Option SortKey :=
  (g.byId.lookup id).map fun event => toLex (event.createdAt, event.id)

/-- The key of the newest event of the block. -/
def blockSortKey : TimelineBlock → SortKey
  | .standalone id _ => (g.eventKey id).getD (toLex (0, id))
  | .module events _ _ =>
    (events.filterMap g.eventKey).max?.getD (toLex (0, events.head?.getD ""))

def sortBlocksNewestFirst : Grouper :=
  { g with blocks := g.blocks.insertionSort fun a b => g.blockSortKey b ≤ g.blockSortKey a }

def findBlockContaining (eventId : EventId) : Option Nat :=
  g.blocks.findIdx? fun block => block.ids.contains eventId

def reindexDelta (delta : GroupDelta) (eventId : EventId) : Option GroupDelta :=
  (g.findBlockContaining eventId).map fun idx =>
    match delta with
    | .blockInserted _ => .blockInserted idx
    | .blockReplaced _ => .blockReplaced idx
    | .blockRemoved old => .blockRemoved old

def findBlockWithLeaf (parentId : EventId) : Option Nat :=
  g.blocks.findIdx? fun block => block.hasLeaf parentId

/-- The block with the event at its end, if there is room. -/
def extendBlock (policy : ModulePolicy) (event : KernelEvent) (parentKev : Option KernelEvent)
    (rootHint : Option ThreadPointer) : TimelineBlock → Option TimelineBlock
  | .standalone parentId _ =>
    if policy.maxModuleSize < 2 then none
    else some (.module [parentId, event.id]
      (gapBetween parentKev (some event) policy.maxLookbackGapSecs ||
        rootIdMismatched rootHint parentId) rootHint)
  | .module events hasGap root =>
    if policy.maxModuleSize ≤ events.length then none
    else
      let root := root.or rootHint
      let hasGap := hasGap || gapBetween parentKev (some event) policy.maxLookbackGapSecs
      some (.module (events ++ [event.id])
        (hasGap || rootIdMismatched root ((events ++ [event.id]).head?.getD "")) root)

/-- Walk from a pointer over the given number of hops. -/
def walkLoop (R : ParentResolver) : Nat → Option ThreadPointer → Walk → Walk
  | _, none, w => w
  | 0, some (.event id _ _), w =>
    if id ∈ g.byId then w
    else { w with hasGap := true, pending := insert id w.pending }
  | _, some (.address coord relay kind), w =>
    { w with terminalRoot := some (.address coord relay kind) }
  | _, some (.external uri), w => { w with terminalRoot := some (.external uri) }
  | hops + 1, some (.event id _ _), w =>
    if id ∈ g.seen ∨ id ∈ g.orphaned then { w with hasGap := true }
    else
      match g.byId.lookup id with
      | none => { w with hasGap := true, pending := insert id w.pending }
      | some parentEvent =>
        let gap := gapBetween (some parentEvent) (w.chain.head?.bind g.byId.lookup)
          g.policy.maxLookbackGapSecs
        let w := { w with hasGap := w.hasGap || gap, chain := id :: w.chain }
        if g.policy.maxModuleSize ≤ w.chain.length then w
        else walkLoop R hops (R.parent parentEvent) w

/-- The chain of ancestors that can be placed with the event, the oldest first. -/
def walkChain : Walk :=
  let w := g.walkLoop R g.policy.maxAncestorHops (R.parent event)
    ⟨[event.id], false, none, g.pendingAncestorIds⟩
  let mismatched := rootIdMismatched (w.terminalRoot.or (R.root event)) (w.chain.head?.getD "")
  { w with
    hasGap := w.hasGap || mismatched
    terminalRoot := w.terminalRoot.or (R.root event) }

/-- Wait for the parent. -/
def buffer (parentId id : EventId) : Grouper :=
  { g with
    orphans := g.orphans.alter parentId fun row => insert id (row.getD ∅)
    orphaned := insert id g.orphaned
    pendingAncestorIds := insert parentId g.pendingAncestorIds }

/-- The ids are placed in the blocks. -/
def accept (ids : List EventId) (blocks : List TimelineBlock) (pending : Finset EventId) :
    Grouper :=
  { g with
    blocks
    seen := g.seen ∪ ids.toFinset
    orphaned := g.orphaned \ ids.toFinset
    pendingAncestorIds := pending \ ids.toFinset }

def chainBlock (w : Walk) : TimelineBlock :=
  match w.chain with
  | [id] => .standalone id w.terminalRoot
  | chain => .module chain w.hasGap w.terminalRoot

/-- A block of its own for the event and the ancestors that can be placed with it. -/
def placeFresh : Grouper × Option GroupDelta :=
  let w := g.walkChain R event
  (g.accept w.chain (chainBlock w :: g.blocks) w.pending, some (.blockInserted 0))

/-- The event at the end of the block whose leaf is its parent. -/
def splice (parentId : EventId) (event : KernelEvent) : Option (Grouper × Nat) :=
  match g.findBlockWithLeaf parentId with
  | none => none
  | some idx =>
    match g.blocks[idx]?.bind
        (extendBlock g.policy event (g.byId.lookup parentId) (R.root event)) with
    | none => none
    | some block => some (g.accept [event.id] (g.blocks.set idx block) g.pendingAncestorIds, idx)

def placeEvent : Grouper × Option GroupDelta :=
  if event.id ∈ g.seen then (g, none)
  else
    match R.parentId event with
    | none => g.placeFresh R event
    | some parentId =>
      if parentId ∉ g.byId ∨ parentId ∈ g.orphaned then (g.buffer parentId event.id, none)
      else
        match g.splice R parentId event with
        | some (placed, idx) => (placed, some (.blockReplaced idx))
        | none => g.placeFresh R event

def unplaceStandalone : Grouper :=
  match g.blocks.findIdx? (TimelineBlock.isStandalone id) with
  | none => g
  | some idx => { g with blocks := g.blocks.eraseIdx idx, seen := g.seen.erase id }

/-- The children that wait for the id, and the grouper without them on its list. -/
def drain : List EventId × Grouper :=
  (((g.orphans.lookup id).getD ∅).elems, { g with orphans := g.orphans.erase id })

/-- Place the waiting children, the last of the list first. No result means that the rounds did
not suffice. -/
def replay (R : ParentResolver) : Nat → List EventId → Grouper → Option Grouper
  | _, [], g => some g
  | 0, _ :: _, _ => none
  | rounds + 1, childId :: stack, g =>
    if childId ∈ g.seen then replay R rounds stack g
    else
      match g.byId.lookup childId with
      | none => replay R rounds stack g
      | some child =>
        let out := (g.placeEvent R child).1.drain childId
        replay R rounds (out.1.reverse ++ stack) out.2

def supersededRow : SortedSet EventId := (g.supersededBy.lookup id).getD ∅

def remember : Grouper :=
  { g with byId := g.byId.insert event.id event }

/-- The target loses its standalone block to the event. -/
def preempt : Grouper :=
  match R.supersedes event with
  | none => g
  | some target =>
    { g with
      supersededBy := g.supersededBy.alter target fun row => insert event.id (row.getD ∅)
      }.unplaceStandalone target

/-- Order and collapse the blocks after an insertion. -/
def settle : Grouper := g.sortBlocksNewestFirst.collapseAdjacent.sortBlocksNewestFirst

/-- The grouper before the event itself is placed, and the children that wait for it. -/
def receive : List EventId × Grouper :=
  ((g.remember event).preempt R event).drain event.id

/-- No result means that the replay of the waiting children did not end. -/
def onInsert : Option (Grouper × Option GroupDelta) :=
  if event.id ∈ g.byId then some (g, none)
  else if g.supersededRow event.id ≠ ∅ then some (g.remember event, none)
  else
    let out := g.receive R event
    let placed := out.2.placeEvent R event
    match replay R out.2.byId.keys.length out.1.reverse placed.1 with
    | none => none
    | some replayed =>
      some (replayed.settle, placed.2.bind fun delta =>
        match delta with
        | .blockRemoved idx => some (.blockRemoved idx)
        | delta => replayed.settle.reindexDelta delta event.id)

/-- The block without the event: nothing, or the block that is left. -/
def blockWithout : TimelineBlock → Option TimelineBlock
  | .standalone _ _ => none
  | .module events _ root =>
    match events.filter fun e => e ≠ id with
    | [] => none
    | [only] => some (.standalone only root)
    | rest => some (.module rest true root)

def removeIdFromBlocks : Grouper × Option GroupDelta :=
  if id ∉ g.seen then (g, none)
  else
    let g := { g with seen := g.seen.erase id }
    match g.findBlockContaining id with
    | none => (g, none)
    | some idx =>
      match g.blocks[idx]?.bind (blockWithout id) with
      | none => ({ g with blocks := g.blocks.eraseIdx idx }, some (.blockRemoved idx))
      | some block => ({ g with blocks := g.blocks.set idx block }, some (.blockReplaced idx))

/-- The sets without the id, and without those that are then empty. -/
def scrub (sets : SortedMap EventId (SortedSet EventId)) : SortedMap EventId (SortedSet EventId) :=
  sets.filterMapRows fun _ row => if row.erase id = ∅ then none else some (row.erase id)

/-- The targets whose last superseder is the id. -/
def restoreCandidates : List EventId :=
  ((g.supersededBy.erase id).rows.filter fun row => row.2.erase id = ∅).map Prod.fst

/-- The grouper without the id outside the blocks. -/
def forget : Grouper :=
  { g with
    byId := g.byId.erase id
    pendingAncestorIds := g.pendingAncestorIds.erase id
    orphaned := g.orphaned.erase id
    orphans := scrub id g.orphans
    supersededBy := scrub id (g.supersededBy.erase id) }

/-- Place the targets that are not superseded any more; also whether there was one. -/
def restore (R : ParentResolver) : List EventId → Grouper → Grouper × Bool
  | [], g => (g, false)
  | target :: rest, g =>
    if target ∈ g.seen then restore R rest g
    else
      match g.byId.lookup target with
      | none => restore R rest g
      | some event => ((restore R rest (g.placeEvent R event).1).1, true)

def onRemove : Grouper × Option GroupDelta :=
  let removed := (g.forget id).removeIdFromBlocks id
  let restored := restore R (g.restoreCandidates id) removed.1
  if removed.2.isSome || restored.2 then
    (restored.1.collapseAdjacent.sortBlocksNewestFirst, removed.2)
  else (restored.1, removed.2)

/-- Remove the old event, then insert the new one. -/
def onReplace (oldId : EventId) (newEvent : KernelEvent) : Option (Grouper × Option GroupDelta) :=
  (g.onRemove R oldId).1.onInsert R newEvent

end Grouper

inductive Op where
  | onInsert (event : KernelEvent)
  | onRemove (id : EventId)
  | onReplace (oldId : EventId) (newEvent : KernelEvent)
  deriving DecidableEq

/-- The events that a call brings. -/
def Op.events : Op → List KernelEvent
  | .onInsert event => [event]
  | .onRemove _ => []
  | .onReplace _ newEvent => [newEvent]

def step (R : ParentResolver) (g : Grouper) : Op → Option Grouper
  | .onInsert event => (g.onInsert R event).map Prod.fst
  | .onRemove id => some (g.onRemove R id).1
  | .onReplace oldId newEvent => (g.onReplace R oldId newEvent).map Prod.fst

end ThreadGrouper
