import NostrMultiPlatform.PlannerPlan
import NostrMultiPlatform.CappedCover

/-!
# Relay selection

A plan is cut down to a bounded number of relays. The greedy pass takes the relay
that carries the most authors still in the pool; an author leaves the pool when
enough taken relays serve it. Free connections are then filled with relays that
ask for no author. The plan keeps what was selected, and every relay that
bypasses selection.
-/
namespace PlannerSelection

open Sorted PlannerPlan

/-- Operator directives, explicit landing pads and protocol inboxes. -/
def relayBypassesSelection (roleTags : SortedSet RoutingSource) : Bool :=
  .hint ∈ roleTags || .provenance ∈ roleTags || .nip17DmRelay ∈ roleTags ||
    .userConfigured .appRelay ∈ roleTags || .userConfigured .debug ∈ roleTags

/-- Whether a relay is warm for an author. -/
abbrev ScoreLookup := String → String → Bool

abbrev PerRelayAuthors := SortedMap String (SortedSet String)

/-- The authors that some sub-shape of the relay asks for. -/
def authorsOf (relayPlan : RelayPlan) : SortedSet String :=
  relayPlan.subShapes.foldl (fun union sub => union ∪ sub.shape.authors) ∅

variable (plan : CompiledPlan)

/-- The relays under selection, with their authors. -/
def rawPerRelayAuthors : PerRelayAuthors :=
  plan.perRelay.filterMapRows fun _ relayPlan =>
    if relayBypassesSelection relayPlan.roleTags then none else some (authorsOf relayPlan)

/-- The relays under selection that carry the NIP-65 lane alone. -/
def nip65Only : List String :=
  (plan.perRelay.filterMapRows fun _ relayPlan =>
    if !relayBypassesSelection relayPlan.roleTags && relayPlan.roleTags = {.nip65} then some ()
    else none).keys

/-- Authors with a warm relay among those that carry the NIP-65 lane alone. -/
def authorHasWarm (isWarm : ScoreLookup) : SortedSet String :=
  .ofList ((rawPerRelayAuthors plan).rows.flatMap fun row =>
    if row.1 ∈ nip65Only plan then row.2.elems.filter fun author => isWarm author row.1 else [])

/-- Cold pairs are left out for authors that have a warm relay. -/
def perRelayAuthors (scoreLookup : Option ScoreLookup) : PerRelayAuthors :=
  match scoreLookup with
  | none => rawPerRelayAuthors plan
  | some isWarm => (rawPerRelayAuthors plan).mapRows fun relay authors =>
    if relay ∈ nip65Only plan then
      authors.retain fun author => isWarm author relay || author ∉ authorHasWarm plan isWarm
    else authors

/-- The pool maps each author to its relays, the selections each taken relay to its authors. -/
structure Greedy where
  pool : SortedMap String (SortedSet String)
  hits : SortedMap String Nat
  selected : SortedSet String
  selections : PerRelayAuthors
  deriving DecidableEq

def invert (perRelay : PerRelayAuthors) : SortedMap String (SortedSet String) :=
  perRelay.rows.foldl
    (fun pool row => row.2.elems.foldl
      (fun pool author => pool.alter author fun relays => insert row.1 (relays.getD ∅)) pool) ∅

/-- How many pooled authors each relay would serve that is not taken yet. -/
def coverage (g : Greedy) : SortedMap String Nat :=
  (g.pool.rows.flatMap fun row => row.2.elems.filter (· ∉ g.selected)).foldl
    (fun coverage relay => coverage.alter relay fun count => count.getD 0 + 1) ∅

/-- The higher count, or on a tie the lower URL. -/
def better (a b : String × Nat) : String × Nat :=
  if b.2 < a.2 ∨ (a.2 = b.2 ∧ a.1 < b.1) then a else b

def winnerUrl (coverage : SortedMap String Nat) : Option String :=
  match coverage.rows with
  | [] => none
  | first :: rest => some (rest.foldl better first).1

/-- The winner serves an author that still waits for it; the author leaves the pool when it is
served often enough, or has no other relay. -/
def serve (maxPerUser : Nat) (winner : String) (g : Greedy) (author : String) : Greedy :=
  match g.pool.lookup author with
  | none => g
  | some relays =>
    if winner ∈ relays then
      let count := (g.hits.lookup author).getD 0 + 1
      { g with
        selections := g.selections.alter winner fun authors => insert author (authors.getD ∅)
        hits := g.hits.insert author count
        pool :=
          if maxPerUser ≤ count then g.pool.erase author
          else if relays.erase winner = ∅ then g.pool.erase author
          else g.pool.insert author (relays.erase winner) }
    else g

def takeWinner (maxPerUser : Nat) (g : Greedy) (winner : String) : Greedy :=
  g.pool.keys.foldl (serve maxPerUser winner) { g with selected := insert winner g.selected }

/-- Each round uses up one free connection. -/
def greedyRounds (maxPerUser : Nat) : Nat → Greedy → Greedy
  | 0, g => g
  | free + 1, g =>
    if g.pool = ∅ then g
    else
      match winnerUrl (coverage g) with
      | none => g
      | some winner => greedyRounds maxPerUser free (takeWinner maxPerUser g winner)

/-- The taken relays, each with the authors that it serves. -/
def greedySelect (perRelay : PerRelayAuthors) (maxConnections maxPerUser : Nat) : PerRelayAuthors :=
  if maxConnections = 0 ∨ maxPerUser = 0 then ∅
  else (greedyRounds maxPerUser maxConnections ⟨invert perRelay, ∅, ∅, ∅⟩).selections

/-- Relays without authors get the connections that are left. -/
def backfill (maxConnections : Nat) :
    List (String × SortedSet String) → PerRelayAuthors → PerRelayAuthors
  | [], selections => selections
  | (relay, authors) :: rest, selections =>
    if authors = ∅ ∧ selections.lookup relay = none then
      let selections := selections.insert relay ∅
      if maxConnections ≤ selections.rows.length then selections
      else backfill maxConnections rest selections
    else backfill maxConnections rest selections

def selectionsFor (maxConnections maxPerUser : Nat) (scoreLookup : Option ScoreLookup) :
    PerRelayAuthors :=
  let perRelay := perRelayAuthors plan scoreLookup
  let selections := greedySelect perRelay maxConnections maxPerUser
  if selections.rows.length < maxConnections ∧ 0 < maxPerUser then
    backfill maxConnections perRelay.rows selections
  else selections

/-- A sub-shape without authors is kept; the others keep the allowed authors. -/
def keptSub (allowed : SortedSet String) (sub : SubShape) : Option SubShape :=
  if sub.shape.authors = ∅ then some sub
  else
    let authors := sub.shape.authors.retain (· ∈ allowed)
    let shape := { sub.shape with authors := authors }
    if authors = ∅ then none
    else if authors.card ≠ sub.shape.authors.card then
      some { sub with shape := shape, canonicalFilterHash := canonicalFilterHash shape }
    else some { sub with shape := shape }

/-- The attribution of the kept sub-shapes. -/
def keptAttribution (allowed : SortedSet String) (subShapes : List SubShape)
    (attribution : RelayAttribution) : RelayAttribution :=
  { attribution with
    outboxAuthors := attribution.outboxAuthors.retain (· ∈ allowed)
    interests :=
      (attribution.interests.map fun interest =>
        { interest with authors := interest.authors.retain (· ∈ allowed) }).filter fun interest =>
          interest.authors = ∅ ||
            interest.interestId ∈ subShapes.flatMap SubShape.originatingInterests }

def projectRelay (allowed : SortedSet String) (relayPlan : RelayPlan) : Option RelayPlan :=
  let subShapes := relayPlan.subShapes.filterMap (keptSub allowed)
  if subShapes = [] then none
  else
    some { relayPlan with
      subShapes := subShapes
      attribution := keptAttribution allowed subShapes relayPlan.attribution }

def applySelectionWithLookup (maxConnections maxPerUser : Nat) (scoreLookup : Option ScoreLookup) :
    CompiledPlan :=
  let selections := selectionsFor plan maxConnections maxPerUser scoreLookup
  { plan with
    perRelay := plan.perRelay.filterMapRows fun relay relayPlan =>
      if relayBypassesSelection relayPlan.roleTags then some relayPlan
      else (selections.lookup relay).bind fun allowed => projectRelay allowed relayPlan }

def applySelection (maxConnections maxPerUser : Nat) : CompiledPlan :=
  applySelectionWithLookup plan maxConnections maxPerUser none

end PlannerSelection
