import NostrMultiPlatform.PlannerGreedy
import NostrMultiPlatform.HashWalks

/-!
# The greedy pass over hash tables

The pool, its relay sets, the coverage counts and the snapshot of the authors are
hash tables, walked in an order of their own in every round. The selections do
not depend on these orders, and with connections to spare every author has as
many selected relays as its cap and its relays allow.
-/
namespace PlannerHashing

open Sorted PlannerSelection PlannerGreedy CappedCover HashWalks SortedMap

variable {perRelay : PerRelayAuthors} {maxConnections maxPerUser : Nat} {author winner : String}
  {g : Greedy}

/-- The orders in which the hash tables of one round are walked. -/
structure RoundOrders where
  pool : WalkOrder (String × SortedSet String)
  relays : String → WalkOrder String
  coverage : WalkOrder (String × Nat)
  authors : WalkOrder String

variable (o : RoundOrders)

/-- The candidates that one author of the pool counts for. -/
def candidates (g : Greedy) (row : String × SortedSet String) : List String :=
  ((o.relays row.1).order row.2.elems).filter (· ∉ g.selected)

def coverageIn (g : Greedy) : SortedMap String Nat :=
  ((o.pool.order g.pool.rows).flatMap (candidates o g)).foldl
    (fun coverage relay => coverage.alter relay fun count => count.getD 0 + 1) ∅

def winnerUrlIn (coverage : SortedMap String Nat) : Option String :=
  (greatest better (o.coverage.order coverage.rows)).map Prod.fst

def takeWinnerIn (maxPerUser : Nat) (g : Greedy) (winner : String) : Greedy :=
  (o.authors.order g.pool.keys).foldl (serve maxPerUser winner)
    { g with selected := insert winner g.selected }

/-- The rounds, each with the orders for that many free connections. -/
def greedyRoundsIn (orders : Nat → RoundOrders) (maxPerUser : Nat) : Nat → Greedy → Greedy
  | 0, g => g
  | free + 1, g =>
    if g.pool = ∅ then g
    else
      match winnerUrlIn (orders free) (coverageIn (orders free) g) with
      | none => g
      | some winner =>
        greedyRoundsIn orders maxPerUser free (takeWinnerIn (orders free) maxPerUser g winner)

def greedySelectIn (orders : Nat → RoundOrders) (perRelay : PerRelayAuthors)
    (maxConnections maxPerUser : Nat) : PerRelayAuthors :=
  if maxConnections = 0 ∨ maxPerUser = 0 then ∅
  else (greedyRoundsIn orders maxPerUser maxConnections ⟨invert perRelay, ∅, ∅, ∅⟩).selections

theorem alter_count_comm (counts : SortedMap String Nat) (x y : String) :
    ((counts.alter x fun count => count.getD 0 + 1).alter y fun count => count.getD 0 + 1) =
      (counts.alter y fun count => count.getD 0 + 1).alter x fun count => count.getD 0 + 1 := by
  apply ext
  intro k
  simp only [lookup_alter]
  grind

theorem coverageIn_eq (o : RoundOrders) (g : Greedy) : coverageIn o g = coverage g := by
  have hrow : ∀ row, (candidates o g row).Perm (row.2.elems.filter (· ∉ g.selected)) :=
    fun row => ((o.relays row.1).perm row.2.elems).filter _
  have hperm : ((o.pool.order g.pool.rows).flatMap (candidates o g)).Perm
      (g.pool.rows.flatMap fun row => row.2.elems.filter (· ∉ g.selected)) :=
    ((o.pool.perm g.pool.rows).flatMap_right _).trans
      (List.Perm.flatMap_left _ fun row _ => hrow row)
  rw [coverageIn, coverage]
  exact hperm.foldl_eq' (fun x _ y _ counts => alter_count_comm counts x y) ∅

/-- Candidates by their counts, and among equal counts from the highest URL down. -/
def Below (a b : String × Nat) : Prop := a.2 < b.2 ∨ (a.2 = b.2 ∧ b.1 ≤ a.1)

theorem better_keeps : Keeps Below better where
  one := better_eq
  left a b := by
    unfold better Below
    split
    · exact .inr ⟨rfl, le_refl _⟩
    next h =>
      simp only [not_or, not_lt, not_and] at h
      rcases Nat.lt_or_eq_of_le h.1 with hlt | heq
      · exact .inl hlt
      · exact .inr ⟨heq, not_lt.mp (h.2 heq)⟩
  right a b := by
    unfold better Below
    split
    next h => exact h.imp id fun h => ⟨h.1.symm, h.2.le⟩
    · exact .inr ⟨rfl, le_refl _⟩
  trans := by
    rintro a b c (hab | ⟨hab, hurl⟩) (hbc | ⟨hbc, hurl'⟩)
    · exact .inl (hab.trans hbc)
    · exact .inl (hbc ▸ hab)
    · exact .inl (hab ▸ hbc)
    · exact .inr ⟨hab.trans hbc, hurl'.trans hurl⟩
  antisymm := by
    rintro a b (hab | ⟨hab, hurl⟩) (hba | ⟨hba, hurl'⟩)
    · exact absurd hab hba.asymm
    · exact absurd hab (hba ▸ lt_irrefl _)
    · exact absurd hba (hab ▸ lt_irrefl _)
    · exact Prod.ext (le_antisymm hurl' hurl) hab

theorem winnerUrlIn_eq (o : RoundOrders) (counts : SortedMap String Nat) :
    winnerUrlIn o counts = winnerUrl counts := by
  rw [winnerUrlIn, better_keeps.greatest_order, winnerUrl]
  cases counts.rows with
  | nil | cons => rfl

theorem serve_of_not_waiting (author : String) (h : ∀ relays, g.pool.lookup author = some relays → winner ∉ relays) :
    serve maxPerUser winner g author = g := by
  unfold serve
  split
  · rfl
  next relays hpool => rw [if_neg (h relays hpool)]

theorem serve_of_waiting {relays : SortedSet String} (hpool : g.pool.lookup author = some relays)
    (hin : winner ∈ relays) : serve maxPerUser winner g author =
      { g with
        selections := g.selections.alter winner fun authors => insert author (authors.getD ∅)
        hits := g.hits.insert author ((g.hits.lookup author).getD 0 + 1)
        pool :=
          if maxPerUser ≤ (g.hits.lookup author).getD 0 + 1 then g.pool.erase author
          else if relays.erase winner = ∅ then g.pool.erase author
          else g.pool.insert author (relays.erase winner) } := by
  rw [serve, hpool]
  exact if_pos hin

/-- Serving an author touches the pool and the count of no other. -/
theorem lookup_serve (maxPerUser : Nat) (winner : String) (g : Greedy) {author other : String} (hne : other ≠ author) :
    (serve maxPerUser winner g author).pool.lookup other = g.pool.lookup other ∧
      (serve maxPerUser winner g author).hits.lookup other = g.hits.lookup other := by
  unfold serve
  split
  · exact ⟨rfl, rfl⟩
  next relays hpool =>
    split
    next hin =>
      refine ⟨?_, by simp [hne]⟩
      dsimp only
      split
      · simp [hne]
      · split <;> simp [hne]
    · exact ⟨rfl, rfl⟩

/-- Serving two authors in either order comes to the same. -/
theorem serve_comm (g : Greedy) (a b : String) :
    serve maxPerUser winner (serve maxPerUser winner g a) b =
      serve maxPerUser winner (serve maxPerUser winner g b) a := by
  by_cases hab : a = b
  · rw [hab]
  · obtain ⟨hpoolB, hhitsB⟩ := lookup_serve maxPerUser winner g (Ne.symm hab)
    obtain ⟨hpoolA, hhitsA⟩ := lookup_serve maxPerUser winner g hab
    by_cases hwaitsA : ∃ relays, g.pool.lookup a = some relays ∧ winner ∈ relays
    · by_cases hwaitsB : ∃ relays, g.pool.lookup b = some relays ∧ winner ∈ relays
      · obtain ⟨relaysA, hlookA, hinA⟩ := hwaitsA
        obtain ⟨relaysB, hlookB, hinB⟩ := hwaitsB
        rw [serve_of_waiting (hpoolB.trans hlookB) hinB, serve_of_waiting (hpoolA.trans hlookA) hinA,
          hhitsA, hhitsB, serve_of_waiting hlookA hinA, serve_of_waiting hlookB hinB]
        simp only [Greedy.mk.injEq, true_and]
        refine ⟨ext fun k => ?_, ext fun k => ?_, ext fun k => ?_⟩
        · grind [lookup_erase, lookup_insert]
        · grind [lookup_insert]
        · by_cases hk : k = winner
          · simp only [lookup_alter, hk, if_true, Option.getD_some, Option.some.injEq]
            exact SortedSet.ext fun x => by simp only [SortedSet.mem_insert]; tauto
          · simp [hk]
      · have hnot : ∀ relays, g.pool.lookup b = some relays → winner ∉ relays :=
          fun relays hlook hin => hwaitsB ⟨relays, hlook, hin⟩
        rw [serve_of_not_waiting b hnot,
          serve_of_not_waiting b fun relays hlook => hnot relays (hpoolB ▸ hlook)]
    · have hnot : ∀ relays, g.pool.lookup a = some relays → winner ∉ relays :=
        fun relays hlook hin => hwaitsA ⟨relays, hlook, hin⟩
      rw [serve_of_not_waiting a hnot,
        serve_of_not_waiting a fun relays hlook => hnot relays (hpoolA ▸ hlook)]

theorem takeWinnerIn_eq (o : RoundOrders) (g : Greedy) (winner : String) :
    takeWinnerIn o maxPerUser g winner = takeWinner maxPerUser g winner :=
  foldl_order o.authors (fun g a _ b _ => serve_comm g a b) _

theorem greedyRoundsIn_eq (orders : Nat → RoundOrders) (free : Nat) (g : Greedy) :
    greedyRoundsIn orders maxPerUser free g = greedyRounds maxPerUser free g := by
  induction free generalizing g with
  | zero => rfl
  | succ _ ih =>
    rw [greedyRoundsIn, greedyRounds, coverageIn_eq, winnerUrlIn_eq]
    split
    · rfl
    · cases winnerUrl (coverage g) with
      | none => rfl
      | some =>
        dsimp only
        rw [takeWinnerIn_eq, ih]

theorem greedySelectIn_eq (orders : Nat → RoundOrders) (perRelay : PerRelayAuthors)
    (maxConnections maxPerUser : Nat) :
    greedySelectIn orders perRelay maxConnections maxPerUser =
      greedySelect perRelay maxConnections maxPerUser := by
  rw [greedySelectIn, greedySelect, greedyRoundsIn_eq]

/-- The selected relays that serve an author are the ones the cover gives it. -/
theorem carriers_selected {winners : List String}
    (h : Selected perRelay maxConnections maxPerUser winners) (author : String) :
    carriers (greedySelect perRelay maxConnections maxPerUser) author =
      (served maxPerUser (carriers perRelay author) winners).toFinset := by
  ext relay
  rw [mem_carriers, h.serves, List.mem_toFinset]

/-- With connections to spare every author is served as often as its cap and its relays allow. -/
theorem greedySelect_complete (h : (greedySelect perRelay maxConnections maxPerUser).rows.length <
      maxConnections) (author : String) :
    (carriers (greedySelect perRelay maxConnections maxPerUser) author).card =
      min maxPerUser (carriers perRelay author).card := by
  rcases Nat.eq_zero_or_pos maxPerUser with rfl | hcap
  · have hnone : greedySelect perRelay maxConnections 0 = ∅ := by simp [greedySelect]
    rw [hnone, Nat.zero_min]
    rfl
  · obtain ⟨winners, hselected⟩ := exists_selected perRelay maxConnections hcap
    rw [hselected.length] at h
    rw [carriers_selected hselected, List.toFinset_card_of_nodup (served_nodup hselected.nodup)]
    exact served_length hselected.nodup (hselected.done h author)

/-- Whatever the orders of the walks, the selections are the same; and if there are fewer of them
than connections, every author is served by as many as its cap and its relays allow. -/
theorem greedy_complete (perRelay : PerRelayAuthors) (maxConnections maxPerUser : Nat)
    (orders : Nat → RoundOrders) :
    (∀ orders', greedySelectIn orders perRelay maxConnections maxPerUser =
      greedySelectIn orders' perRelay maxConnections maxPerUser) ∧
    ((greedySelectIn orders perRelay maxConnections maxPerUser).rows.length < maxConnections →
      ∀ author, (carriers (greedySelectIn orders perRelay maxConnections maxPerUser) author).card =
        min maxPerUser (carriers perRelay author).card) := by
  constructor
  · intro orders'
    rw [greedySelectIn_eq, greedySelectIn_eq]
  · rw [greedySelectIn_eq]
    exact greedySelect_complete

end PlannerHashing
