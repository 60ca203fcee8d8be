import NostrMultiPlatform.FeedRows
import NostrMultiPlatform.StorePull
import NostrMultiPlatform.ThreadGrouper

/-!
# Loading older rows of a feed

The pager drains the ingest log from its cursor until it has a page of events,
has read what it may, or has come to the end. A load of older rows drains
through the hooks of a feed: what a drain superseded goes first, then what it
brought is applied.
-/
namespace FeedPull

open PlannerShape (InterestShape)
open ThreadGrouper (KernelEvent)
open StoreEvent StoreState StoreLog StorePull

/-- A positive row as an event, seen on the relay the row came from. -/
def rawToKernelEvent (entry : StoreLogEntry) : Option KernelEvent :=
  match entry.op with
  | .deleted _ _ => none
  | .inserted | .replaced _ =>
    entry.rawEvent.map fun raw =>
      ⟨raw.id, raw.pubkey, raw.kind, raw.createdAt, raw.tags, raw.content,
        entry.sourceRelay.toList⟩

/-- The event that a replacement row supersedes. -/
def replacedIdOf (entry : StoreLogEntry) : Option String :=
  match entry.op with
  | .replaced replacedId => some (bytesToHex replacedId)
  | .inserted | .deleted _ _ => none

inductive DrainStop where
  | pageFilled
  | exhausted
  | gap (rebasedTo : Nat)
  | scanBudget
  deriving DecidableEq, Repr

structure DrainOutcome where
  events : List KernelEvent
  replacedIds : List String
  stop : DrainStop
  visited : Nat

/-- Both budgets are positive. -/
structure FeedPullPager where
  afterSeq : Nat
  pageSize : Nat
  scanBudget : Nat
  page_pos : 0 < pageSize
  budget_pos : 0 < scanBudget

def maxPullScanBudget : Nat := FeedRows.maxFeedWindowLimit * 8

namespace FeedPullPager

def atStart : FeedPullPager :=
  ⟨0, FeedRows.defaultFeedWindowLimit, maxPullScanBudget, by decide, by decide⟩

def withBudgets (pager : FeedPullPager) (pageSize scanBudget : Nat) : FeedPullPager :=
  ⟨pager.afterSeq, max pageSize 1, max 1 (min scanBudget maxPullScanBudget), by omega, by omega⟩

end FeedPullPager

/-- A drain under way. -/
structure Draining where
  afterSeq : Nat
  events : List KernelEvent
  replacedIds : List String
  scanned : Nat

namespace Draining

/-- What the next page may hold. -/
def limits (pager : FeedPullPager) (d : Draining) : PullLimits :=
  ⟨max (pager.pageSize - d.events.length) 1, max (pager.scanBudget - d.scanned) 1,
    by omega, by omega⟩

/-- The rows of a page are taken over, and the cursor never moves back. -/
def take (d : Draining) (page : PullPage) : Draining where
  afterSeq := max page.nextAfterSeq d.afterSeq
  events := d.events ++ page.entries.filterMap rawToKernelEvent
  replacedIds := d.replacedIds ++ page.entries.filterMap replacedIdOf
  scanned := d.scanned + (max page.nextAfterSeq d.afterSeq - d.afterSeq)

/-- Whether a drain that took the page stops there. -/
def stopAfter (pager : FeedPullPager) (d : Draining) (page : PullPage) : Option DrainStop :=
  if page.hasMore = false then some .exhausted
  else if pager.pageSize ≤ (d.take page).events.length then some .pageFilled
  -- a page that says there is more but brings nothing
  else if page.nextAfterSeq ≤ d.afterSeq ∧ page.entries = [] then some .scanBudget
  else if pager.scanBudget ≤ (d.take page).scanned then some .scanBudget
  else none

end Draining

/-- The loop of a drain; nothing where the fuel runs out. -/
def drainLoop (pager : FeedPullPager) (pull : Nat → PullLimits → ScanLogResult) :
    Nat → Draining → Option (Draining × DrainStop)
  | 0, _ => none
  | fuel + 1, d =>
    match pull d.afterSeq (d.limits pager) with
    | .gap gap => some ({ d with afterSeq := gap.firstAvailableSeq }, .gap gap.firstAvailableSeq)
    | .page page =>
      match d.stopAfter pager page with
      | some stop => some (d.take page, stop)
      | none => drainLoop pager pull fuel (d.take page)

def FeedPullPager.drain (pager : FeedPullPager) (pull : Nat → PullLimits → ScanLogResult)
    (fuel : Nat) : Option (DrainOutcome × FeedPullPager) :=
  (drainLoop pager pull fuel ⟨pager.afterSeq, [], [], 0⟩).map fun out =>
    (⟨out.1.events, out.1.replacedIds, out.2, out.1.scanned⟩,
      { pager with afterSeq := out.1.afterSeq })

/-- What a feed asks for: at most one shape, or several that do not merge. -/
inductive PullProvider where
  | one (shape : Option InterestShape)
  | many (shapes : List InterestShape)

/-- Each shape once, where it comes first. -/
def distinctShapes (shapes : List InterestShape) : List InterestShape :=
  shapes.foldl (fun kept shape => if shape ∈ kept then kept else kept ++ [shape]) []

def PullProvider.pullScope : PullProvider → Option PullScope
  | .one shape => shape.map .interestShape
  | .many shapes =>
    match distinctShapes shapes with
    | [] => none
    | [shape] => some (.interestShape shape)
    | shapes => some (.interestShapes shapes)

abbrev PullFn : Type := PullScope → Nat → PullLimits → ScanLogResult

/-- Pages of the store; an empty last page where it cannot serve the scope. -/
def feedPullFn (st : MemState) : PullFn := fun scope afterSeq limits =>
  match pullPageOver st scope afterSeq limits with
  | .ok result => result
  | .error _ => .page ⟨[], afterSeq, afterSeq, false⟩

/-- What a feed lets a controller do to it. `apply` also tells whether the visible rows advanced. -/
structure Hooks (F : Type) where
  apply : KernelEvent → F → F × Bool
  replace : Option (String → F → F)
  advance : F → F

inductive HookCall where
  | apply (event : KernelEvent)
  | replace (id : String)
  | advance
  deriving DecidableEq

/-- The pager and the feed of a controller. The last field is history: the hooks it called. -/
structure Session (F : Type) where
  pager : FeedPullPager
  feed : F
  calls : List HookCall

inductive FeedLoadStopReason where
  | windowFilled
  | sourceExhausted
  | sourceGap
  | sourceScanBudgetReached
  | sourceUnavailable
  deriving DecidableEq, Repr

structure FeedLoadStatus where
  changed : Bool
  reason : FeedLoadStopReason
  deriving DecidableEq, Repr

def reasonOf : DrainStop → FeedLoadStopReason
  | .pageFilled => .windowFilled
  | .exhausted => .sourceExhausted
  | .gap _ => .sourceGap
  | .scanBudget => .sourceScanBudgetReached

variable {F : Type}

namespace Session

variable (hooks : Hooks F) (s : Session F)

def runReplace (id : String) : Session F :=
  match hooks.replace with
  | some replace => { s with feed := replace id s.feed, calls := s.calls ++ [.replace id] }
  | none => s

def runApply (event : KernelEvent) : Session F :=
  { s with feed := (hooks.apply event s.feed).1, calls := s.calls ++ [.apply event] }

def runAdvance : Session F :=
  { s with feed := hooks.advance s.feed, calls := s.calls ++ [.advance] }

end Session

/-- A load under way. -/
structure Loading (F : Type) where
  session : Session F
  accepted : Nat
  visited : Nat
  replaced : Bool

namespace Loading

def ingest (hooks : Hooks F) (l : Loading F) (event : KernelEvent) : Loading F :=
  { l with
    session := l.session.runApply hooks event
    accepted := if (hooks.apply event l.session.feed).2 then l.accepted + 1 else l.accepted }

/-- The superseded sources of a drain are evicted before its events are applied. -/
def perform (hooks : Hooks F) (l : Loading F) (outcome : DrainOutcome) (pager : FeedPullPager) :
    Loading F :=
  outcome.events.foldl (ingest hooks)
    { session := outcome.replacedIds.foldl (Session.runReplace hooks) { l.session with pager := pager }
      accepted := l.accepted
      visited := l.visited + outcome.visited
      replaced := l.replaced || !outcome.replacedIds.isEmpty }

end Loading

/-- The loop of a load: it drains again where a page was filled but too few of its rows count. -/
def loadLoop (hooks : Hooks F) (pull : Nat → PullLimits → ScanLogResult) (drainFuel : Nat) :
    Nat → Loading F → Option (Loading F × DrainStop)
  | 0, _ => none
  | fuel + 1, l =>
    match l.session.pager.drain pull drainFuel with
    | none => none
    | some (outcome, pager) =>
      if outcome.stop = .pageFilled ∧ (l.perform hooks outcome pager).accepted < pager.pageSize ∧
          (l.perform hooks outcome pager).visited < pager.scanBudget then
        loadLoop hooks pull drainFuel fuel (l.perform hooks outcome pager)
      else some (l.perform hooks outcome pager, outcome.stop)

def loadOlderStatus (hooks : Hooks F) (pull : PullFn) (provider : PullProvider) (fuel : Nat)
    (s : Session F) : Option (Session F × FeedLoadStatus) :=
  match provider.pullScope with
  | none => some (s, ⟨false, .sourceUnavailable⟩)
  | some scope =>
    match loadLoop hooks (pull scope) fuel fuel ⟨s, 0, 0, false⟩ with
    | none => none
    | some (l, stop) =>
      if 0 < l.accepted ∨ l.replaced = true then
        some (l.session.runAdvance hooks, ⟨true, reasonOf stop⟩)
      else some (l.session, ⟨false, reasonOf stop⟩)

/-- Calls one after the other, with the status of each. -/
def loads (hooks : Hooks F) (pull : PullFn) (provider : PullProvider) (fuel : Nat) :
    Nat → Session F → Option (Session F × List FeedLoadStatus)
  | 0, s => some (s, [])
  | n + 1, s =>
    match loads hooks pull provider fuel n s with
    | none => none
    | some (s', statuses) =>
      (loadOlderStatus hooks pull provider fuel s').map fun out => (out.1, statuses ++ [out.2])

end FeedPull
