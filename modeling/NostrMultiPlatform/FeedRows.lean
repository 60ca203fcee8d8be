import Mathlib.Data.String.Basic
import NostrMultiPlatform.Runs
import NostrMultiPlatform.Sorted

/-!
# Flat feeds

A feed groups items by row id, each under the event that contributed it, and keeps
the merged item of every row. Five mutators edit the two-level map by hand; a hook
is told of the sources that leave.
-/
namespace FeedRows

open Sorted

structure FlatFeedItem (C : Type) where
  id : String
  sourceId : String
  sortCreatedAt : Nat
  card : C
  deriving DecidableEq

structure FlatRow (C : Type) where
  sources : SortedMap String (FlatFeedItem C)
  best : FlatFeedItem C

inductive FeedWindowResetPolicy where
  | resetToInitial | preserveVisibleLimit
  deriving DecidableEq

structure FeedWindowPolicy where
  initialLimit : Nat
  maxVisible : Nat
  reset : FeedWindowResetPolicy

/-- The functions a feed is made with, and whether it has a hook. -/
structure FlatFeed (E C : Type) where
  predicate : E → Bool
  itemBuilder : E → List (FlatFeedItem C)
  merge : Option (FlatFeedItem C) → FlatFeedItem C → FlatFeedItem C
  windowPolicy : FeedWindowPolicy
  sourceRemoved : Bool

/-- The last field is history: what the hook was called with. -/
structure FlatFeedState (C : Type) where
  rows : SortedMap String (FlatRow C)
  visibleLimit : Nat
  hookCalls : List String

variable {E C : Type}

def defaultFeedWindowLimit : Nat := 80
def maxFeedWindowLimit : Nat := 500

def clampWindowLimit (value fallback : Nat) : Nat :=
  if value = 0 then fallback else min value maxFeedWindowLimit

namespace FeedWindowPolicy

variable (policy : FeedWindowPolicy)

def maxVisibleLimit : Nat :=
  clampWindowLimit policy.maxVisible maxFeedWindowLimit

def initialVisibleLimit : Nat :=
  min (clampWindowLimit policy.initialLimit defaultFeedWindowLimit) policy.maxVisibleLimit

def resetVisibleLimit (current : Nat) : Nat :=
  match policy.reset with
  | .resetToInitial => policy.initialVisibleLimit
  | .preserveVisibleLimit => min (max current 1) policy.maxVisibleLimit

end FeedWindowPolicy

/-- Newest first, and the larger source id first among the equally new. -/
def sortsBefore (left right : FlatFeedItem C) : Bool :=
  decide (right.sortCreatedAt < left.sortCreatedAt) ||
    decide (right.sortCreatedAt = left.sortCreatedAt) && decide (right.sourceId ≤ left.sourceId)

variable (feed : FlatFeed E C) (merge : Option (FlatFeedItem C) → FlatFeedItem C → FlatFeedItem C)
  (live : List (FlatFeedItem C)) (st : FlatFeedState C) (id : String)

def mergeItems (items : List (FlatFeedItem C)) : Option (FlatFeedItem C) :=
  match items.mergeSort sortsBefore with
  | [] => none
  | first :: rest => some (rest.foldl (fun merged item => merge (some merged) item) first)

def valuesOf (sources : SortedMap String (FlatFeedItem C)) : List (FlatFeedItem C) :=
  sources.rows.map Prod.snd

def mergeSources (sources : SortedMap String (FlatFeedItem C)) : Option (FlatFeedItem C) :=
  mergeItems merge (valuesOf sources)

abbrev Rows (C : Type) : Type := SortedMap String (FlatRow C)

def ingestItem (rows : Rows C) (incoming : FlatFeedItem C) : Rows C :=
  match rows.lookup incoming.id with
  | some row =>
    let sources := row.sources.insert incoming.sourceId incoming
    rows.insert incoming.id ⟨sources, (mergeSources merge sources).getD row.best⟩
  | none =>
    rows.insert incoming.id
      ⟨(∅ : SortedMap String (FlatFeedItem C)).insert incoming.sourceId incoming, incoming⟩

def ingest (event : E) : FlatFeedState C :=
  if feed.predicate event then
    { st with rows := (feed.itemBuilder event).foldl (ingestItem feed.merge) st.rows }
  else st

/-- The hook is called once for each source, if there is one. -/
def notifySourceRemoved (sourceIds : List String) : FlatFeedState C :=
  if feed.sourceRemoved then { st with hookCalls := st.hookCalls ++ sourceIds } else st

/-- Takes a row out and tells the hook of its sources. -/
def dropRow : FlatFeedState C × Bool :=
  match st.rows.lookup id with
  | none => (st, false)
  | some row =>
    (notifySourceRemoved feed { st with rows := st.rows.erase id } row.sources.keys, true)

def removeItem : FlatFeedState C × Bool := dropRow feed st id

def removeItemIf (predicate : C → Bool) : FlatFeedState C × Bool :=
  if (st.rows.lookup id).any fun row => predicate row.best.card then dropRow feed st id
  else (st, false)

/-- A row after some of its sources left: merged again, or gone. -/
def remergeRow (sources : SortedMap String (FlatFeedItem C)) : Option (FlatRow C) :=
  (mergeSources merge sources).map fun best => ⟨sources, best⟩

def removeSource (id sourceId : String) : FlatFeedState C × Bool :=
  match st.rows.lookup id with
  | none => (st, false)
  | some row =>
    match row.sources.lookup sourceId with
    | none => (st, false)
    | some _ =>
      match remergeRow feed.merge (row.sources.erase sourceId) with
      | some row =>
        (notifySourceRemoved feed { st with rows := st.rows.insert id row } [sourceId], true)
      | none => (notifySourceRemoved feed { st with rows := st.rows.erase id } [sourceId], true)

variable (predicate : FlatFeedItem C → Bool)

/-- The sources of a row that the predicate matches, in their order. -/
def matchedSources (row : FlatRow C) : List String :=
  (row.sources.rows.filter fun source => predicate source.2).map Prod.fst

/-- The sources of a row that stay. -/
def keptSources (row : FlatRow C) : SortedMap String (FlatFeedItem C) :=
  row.sources.filterMapRows fun _ item => if predicate item then none else some item

def removeSourcesIf : FlatFeedState C × Nat :=
  let removedSourceIds := st.rows.rows.flatMap fun row => matchedSources predicate row.2
  let rows := st.rows.filterMapRows fun _ row =>
    remergeRow feed.merge (keptSources predicate row)
  (notifySourceRemoved feed { st with rows := rows } removedSourceIds, removedSourceIds.length)

/-- The rows go without a word to the hook. -/
def resetForPerspectiveChange : FlatFeedState C × Bool :=
  ({ st with
      rows := ∅
      visibleLimit := feed.windowPolicy.resetVisibleLimit st.visibleLimit },
    decide (st.rows.rows ≠ []))

inductive Op (E C : Type) where
  | ingest (event : E)
  | removeItem (id : String)
  | removeItemIf (id : String) (predicate : C → Bool)
  | removeSource (id sourceId : String)
  | removeSourcesIf (predicate : FlatFeedItem C → Bool)
  | reset

def step : Op E C → FlatFeedState C
  | .ingest event => ingest feed st event
  | .removeItem id => (removeItem feed st id).1
  | .removeItemIf id predicate => (removeItemIf feed st id predicate).1
  | .removeSource id sourceId => (removeSource feed st id sourceId).1
  | .removeSourcesIf predicate => (removeSourcesIf feed st predicate).1
  | .reset => (resetForPerspectiveChange feed st).1

def FlatFeed.new : FlatFeedState C :=
  ⟨∅, feed.windowPolicy.initialVisibleLimit, []⟩

/-- The row and the source that a contribution belongs to. -/
def FlatFeedItem.key (item : FlatFeedItem C) : String × String := (item.id, item.sourceId)

/-- A contribution takes the place of an earlier one of its source to its row. -/
def contribute (item : FlatFeedItem C) : List (FlatFeedItem C) :=
  live.filter (fun other => other.key ≠ item.key) ++ [item]

/-- The contributions of a row. -/
def groupOf : List (FlatFeedItem C) :=
  live.filter fun item => item.id = id

/-- What an operation means for the contributions, whatever stores them. -/
def liveAfter : Op E C → List (FlatFeedItem C)
  | .ingest event =>
    if feed.predicate event then (feed.itemBuilder event).foldl contribute live else live
  | .removeItem id => live.filter fun item => item.id ≠ id
  | .removeItemIf id predicate =>
    if (mergeItems feed.merge (groupOf live id)).any fun best => predicate best.card then
      live.filter fun item => item.id ≠ id
    else live
  | .removeSource id sourceId => live.filter fun item => item.key ≠ (id, sourceId)
  | .removeSourcesIf predicate => live.filter fun item => !predicate item
  | .reset => []

/-- The contributions that were there before and whose place is empty after. -/
def departed (before after : List (FlatFeedItem C)) : List (FlatFeedItem C) :=
  before.filter fun item => item.key ∉ after.map FlatFeedItem.key

/-- A feed beside the contributions it should show and the sources that left it. -/
structure Watched (C : Type) where
  st : FlatFeedState C
  live : List (FlatFeedItem C)
  left : List String

def watch (w : Watched C) (op : Op E C) : Watched C where
  st := step feed w.st op
  live := liveAfter feed w.live op
  left := w.left ++ (departed w.live (liveAfter feed w.live op)).map FlatFeedItem.sourceId

def FlatFeed.start : Watched C := ⟨feed.new, [], []⟩

end FeedRows
