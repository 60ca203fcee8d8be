import NostrMultiPlatform.PlannerSelection

/-!
# What the greedy pass selects

Each author sees of a round only whether the winner is among the relays it still
waits for. The rounds are a capped cover of the authors' relays: every author is
served by its first winners, up to the cap, and if the pass stops with free
connections no author waits for another one.
-/
namespace PlannerGreedy

open Sorted PlannerSelection CappedCover SortedSet

variable {perRelay : PerRelayAuthors} {maxConnections maxPerUser : Nat} {author relay winner : String}
  {g : Greedy} {winners : List String}

/-- The relays that carry the author. -/
def carriers (perRelay : PerRelayAuthors) (author : String) : Finset String :=
  ((perRelay.rows.filter fun row => author ∈ row.2).map Prod.fst).toFinset

theorem mem_carriers : relay ∈ carriers perRelay author ↔
    author ∈ (perRelay.lookup relay).getD ∅ := by
  simp only [carriers, List.mem_toFinset, List.mem_map, List.mem_filter, decide_eq_true_iff]
  constructor
  · rintro ⟨⟨relay, authors⟩, ⟨hrow, hauthor⟩, rfl⟩
    rw [SortedMap.lookup_eq_some.mpr hrow]
    exact hauthor
  · intro h
    cases hlookup : perRelay.lookup relay with
    | none =>
      rw [hlookup] at h
      exact absurd h (not_mem_empty author)
    | some authors =>
      rw [hlookup] at h
      exact ⟨(relay, authors), ⟨SortedMap.lookup_eq_some.mp hlookup, h⟩, rfl⟩

/-- The relays the author waits for, how often it was served, and by whom. -/
structure View where
  relays : Option (SortedSet String)
  count : Nat
  servedBy : String → Prop

def view (g : Greedy) (author : String) : View :=
  ⟨g.pool.lookup author, (g.hits.lookup author).getD 0,
    fun relay => author ∈ (g.selections.lookup relay).getD ∅⟩

/-- What serving does to the view of the author that is served. -/
def serveView (maxPerUser : Nat) (winner : String) (v : View) : View :=
  match v.relays with
  | none => v
  | some relays =>
    if winner ∈ relays then
      ⟨if maxPerUser ≤ v.count + 1 then none
        else if relays.erase winner = ∅ then none
        else some (relays.erase winner),
        v.count + 1, fun relay => relay = winner ∨ v.servedBy relay⟩
    else v

theorem view_serve_self :
    view (serve maxPerUser winner g author) author = serveView maxPerUser winner (view g author) := by
  unfold serve serveView
  cases hpool : g.pool.lookup author with
  | none => simp only [view, hpool]
  | some relays =>
    simp only [view, hpool]
    by_cases hin : winner ∈ relays
    · simp only [if_pos hin, SortedMap.lookup_insert, if_true, Option.getD_some, View.mk.injEq, true_and]
      constructor
      · split
        · simp
        · split <;> simp
      · funext relay
        rw [SortedMap.lookup_alter]
        by_cases hr : relay = winner
        · simp [hr]
        · simp [hr]
    · simp only [if_neg hin, hpool]

theorem view_serve_other {other : String} (hne : author ≠ other) :
    view (serve maxPerUser winner g other) author = view g author := by
  unfold serve
  cases hpool : g.pool.lookup other with
  | none => rfl
  | some relays =>
    by_cases hin : winner ∈ relays
    · simp only [view, if_pos hin, SortedMap.lookup_insert, if_neg hne, View.mk.injEq, true_and]
      constructor
      · split
        · simp [hne]
        · split <;> simp [hne]
      · funext relay
        rw [SortedMap.lookup_alter]
        by_cases hr : relay = winner
        · simp [hr, hne]
        · simp [hr]
    · simp only [if_neg hin]

theorem view_foldl_serve {authors : List String} (hnodup : authors.Nodup) (g : Greedy) :
    view (authors.foldl (serve maxPerUser winner) g) author =
      if author ∈ authors then serveView maxPerUser winner (view g author) else view g author := by
  induction authors generalizing g with
  | nil => simp
  | cons first _ ih =>
    obtain ⟨hfirst, hrest⟩ := List.nodup_cons.mp hnodup
    rw [List.foldl_cons, ih hrest]
    by_cases h : author = first
    · subst h
      simp [hfirst, view_serve_self]
    · simp [h, view_serve_other h]

/-- A round serves every author in the same way. -/
theorem view_takeWinner :
    view (takeWinner maxPerUser g winner) author = serveView maxPerUser winner (view g author) := by
  rw [takeWinner, view_foldl_serve (SortedMap.keys_nodup _)]
  split
  · rfl
  next hnot =>
    have hnone : g.pool.lookup author = none := by
      by_contra hsome
      obtain ⟨relays, hrelays⟩ := Option.ne_none_iff_exists'.mp hsome
      exact hnot (SortedMap.mem_keys.mpr ⟨relays, hrelays⟩)
    simp only [serveView, view, hnone]

/-- The view of an author whose relays are covered by the winners so far. -/
structure Covers (maxPerUser : Nat) (relays : Finset String) (winners : List String) (v : View) :
    Prop where
  waits : ∀ relay, relay ∈ v.relays.getD ∅ ↔ Waits maxPerUser relays winners relay
  some_wait : v.relays ≠ some ∅
  count : v.count = (served maxPerUser relays winners).length
  servedBy : ∀ relay, v.servedBy relay ↔ relay ∈ served maxPerUser relays winners

theorem Covers.serveView {relays : Finset String} {v : View}
    (h : Covers maxPerUser relays winners v) (hnew : winner ∉ winners) :
    Covers maxPerUser relays (winners ++ [winner]) (serveView maxPerUser winner v) := by
  by_cases hwaits : Waits maxPerUser relays winners winner
  · -- the author is served
    have hin := (h.waits winner).mpr hwaits
    cases hrelays : v.relays with
    | none =>
      rw [hrelays] at hin
      exact absurd hin (not_mem_empty winner)
    | some waiting =>
      rw [hrelays] at hin
      have hin : winner ∈ waiting := hin
      have hwaiting : ∀ relay, relay ∈ waiting ↔ Waits maxPerUser relays winners relay := by
        intro relay
        rw [← h.waits, hrelays]
        rfl
      simp only [PlannerGreedy.serveView, hrelays, if_pos hin]
      constructor
      · intro relay
        rw [waits_snoc hnew, imp_iff_right hwaits, ← h.count, ← hwaiting]
        by_cases hfull : maxPerUser ≤ v.count + 1
        · simp [hfull]
        · by_cases hlast : waiting.erase winner = ∅
          · have hnone := eq_empty_iff.mp hlast relay
            simp only [mem_erase, not_and] at hnone
            simp only [hfull, if_false, hlast, if_true, Option.getD_none, not_mem_empty,
              false_iff, not_and]
            exact fun hr hne => absurd hne (hnone hr)
          · simp only [hfull, if_false, hlast, Option.getD_some, mem_erase]
            have hlt : v.count + 1 < maxPerUser := not_le.mp hfull
            simp [hlt]
      · dsimp only
        split
        · simp
        · split
          · simp
          next hlast => exact fun heq => hlast (Option.some.inj heq)
      · rw [served_snoc_of_waits hwaits, List.length_append, List.length_singleton, h.count]
      · intro relay
        rw [served_snoc_of_waits hwaits, List.mem_append, List.mem_singleton, ← h.servedBy]
        exact or_comm
  · -- the author does not see the round
    have hsame : PlannerGreedy.serveView maxPerUser winner v = v := by
      unfold PlannerGreedy.serveView
      cases hrelays : v.relays with
      | none => rfl
      | some waiting =>
        have hnot : winner ∉ waiting := by
          have hwaiting := (h.waits winner).not.mpr hwaits
          rwa [hrelays] at hwaiting
        simp only [if_neg hnot]
    rw [hsame]
    have hserved := served_snoc_of_not_waits hnew hwaits
    constructor
    · intro r
      rw [h.waits, waits_snoc hnew]
      constructor
      · exact fun hr => ⟨hr, fun heq => hwaits (heq ▸ hr), fun hw => absurd hw hwaits⟩
      · exact And.left
    · exact h.some_wait
    · rw [hserved, h.count]
    · intro r
      rw [hserved, h.servedBy]

/-- The pool entries that one relay adds to. -/
def addTo (row : String × SortedSet String) (pool : SortedMap String (SortedSet String)) :
    SortedMap String (SortedSet String) :=
  row.2.elems.foldl (fun pool author => pool.alter author fun relays => insert row.1 (relays.getD ∅)) pool

theorem mem_foldl_alter {url : String} (authors : List String)
    (pool : SortedMap String (SortedSet String)) :
    relay ∈ ((authors.foldl (fun pool author => pool.alter author fun relays =>
        insert url (relays.getD ∅)) pool).lookup author).getD ∅ ↔
      relay ∈ (pool.lookup author).getD ∅ ∨ (relay = url ∧ author ∈ authors) := by
  induction authors generalizing pool with
  | nil => simp
  | cons first _ ih =>
    rw [List.foldl_cons, ih, SortedMap.lookup_alter]
    by_cases h : author = first
    · subst h
      simp only [if_true, Option.getD_some, mem_insert, List.mem_cons, true_or, and_true]
      tauto
    · simp [h]

theorem mem_foldl_addTo (rows : List (String × SortedSet String))
    (pool : SortedMap String (SortedSet String)) :
    relay ∈ ((rows.foldl (fun pool row => addTo row pool) pool).lookup author).getD ∅ ↔
      relay ∈ (pool.lookup author).getD ∅ ∨ ∃ row ∈ rows, row.1 = relay ∧ author ∈ row.2 := by
  induction rows generalizing pool with
  | nil => simp
  | cons _ _ ih =>
    rw [List.foldl_cons, ih, addTo, mem_foldl_alter, List.exists_mem_cons_iff, or_assoc,
      mem_elems, eq_comm (a := relay)]

theorem mem_invert : relay ∈ ((invert perRelay).lookup author).getD ∅ ↔
    relay ∈ carriers perRelay author := by
  refine (mem_foldl_addTo perRelay.rows ∅).trans ?_
  simp only [carriers, List.mem_toFinset, List.mem_map, List.mem_filter, decide_eq_true_iff,
    SortedMap.lookup_empty, Option.getD_none, not_mem_empty, false_or]
  exact exists_congr fun row => by rw [and_assoc, and_comm (a := row.1 = relay)]

/-- No entry of the pool is empty. -/
theorem invert_ne_empty : ∀ author, (invert perRelay).lookup author ≠ some ∅ := by
  have halter : ∀ (url : String) (authors : List String) (pool : SortedMap String (SortedSet String)),
      (∀ author, pool.lookup author ≠ some ∅) → ∀ author,
        (authors.foldl (fun pool author => pool.alter author fun relays =>
          insert url (relays.getD ∅)) pool).lookup author ≠ some ∅ := by
    intro url authors
    induction authors with
    | nil => exact fun pool h => h
    | cons _ _ ih =>
      intro pool h
      refine ih _ fun author => ?_
      rw [SortedMap.lookup_alter]
      split
      · exact fun heq => insert_ne_empty url _ (Option.some.inj heq)
      · exact h author
  have hrows : ∀ (rows : List (String × SortedSet String)) (pool : SortedMap String (SortedSet String)),
      (∀ author, pool.lookup author ≠ some ∅) → ∀ author,
        (rows.foldl (fun pool row => addTo row pool) pool).lookup author ≠ some ∅ := by
    intro rows
    induction rows with
    | nil => exact fun pool h => h
    | cons first _ ih => exact fun pool h => ih _ (halter first.1 first.2.elems pool h)
  exact hrows perRelay.rows ∅ fun author h => nomatch h

theorem mem_keys_count (relays : List String) (counts : SortedMap String Nat) :
    relay ∈ (relays.foldl (fun counts relay => counts.alter relay fun count =>
        count.getD 0 + 1) counts).keys ↔ relay ∈ relays ∨ relay ∈ counts.keys := by
  induction relays generalizing counts with
  | nil => simp
  | cons first _ ih =>
    rw [List.foldl_cons, ih, SortedMap.mem_keys, SortedMap.mem_keys, List.mem_cons]
    simp only [SortedMap.lookup_alter]
    by_cases h : relay = first
    · simp [h]
    · simp [h]

/-- The candidates of a round. -/
theorem mem_coverage : relay ∈ (coverage g).keys ↔
    (∃ author, relay ∈ (g.pool.lookup author).getD ∅) ∧ relay ∉ g.selected := by
  rw [coverage, mem_keys_count]
  simp only [List.mem_flatMap, List.mem_filter, decide_eq_true_iff, mem_elems]
  constructor
  · rintro (⟨⟨author, relays⟩, hrow, hrelay, hnew⟩ | hnone)
    · refine ⟨⟨author, ?_⟩, hnew⟩
      rw [SortedMap.lookup_eq_some.mpr hrow]
      exact hrelay
    · cases hnone
  · rintro ⟨⟨author, hrelay⟩, hnew⟩
    cases hlookup : g.pool.lookup author with
    | none =>
      rw [hlookup] at hrelay
      exact absurd hrelay (not_mem_empty relay)
    | some relays =>
      rw [hlookup] at hrelay
      exact .inl ⟨(author, relays), SortedMap.lookup_eq_some.mp hlookup, hrelay, hnew⟩

theorem better_eq (a b : String × Nat) : better a b = a ∨ better a b = b := by
  unfold better
  split
  · exact .inl rfl
  · exact .inr rfl

theorem foldl_better_mem (rows : List (String × Nat)) (first : String × Nat) :
    rows.foldl better first ∈ first :: rows := by
  induction rows generalizing first with
  | nil => exact List.mem_singleton_self first
  | cons row _ ih =>
    rw [List.foldl_cons]
    rcases List.mem_cons.mp (ih (better first row)) with heq | hmem
    · rw [heq]
      rcases better_eq first row with h | h
      · rw [h]
        exact List.mem_cons_self
      · rw [h]
        exact List.mem_cons_of_mem _ List.mem_cons_self
    · exact List.mem_cons_of_mem _ (List.mem_cons_of_mem _ hmem)

theorem winnerUrl_mem {counts : SortedMap String Nat} (h : winnerUrl counts = some winner) :
    winner ∈ counts.keys := by
  unfold winnerUrl at h
  split at h
  · cases h
  next first rest hrows =>
    obtain rfl := Option.some.inj h
    exact List.mem_map_of_mem (hrows ▸ foldl_better_mem rest first)

theorem winnerUrl_eq_none {counts : SortedMap String Nat} (h : winnerUrl counts = none) :
    counts.keys = [] := by
  unfold winnerUrl at h
  split at h
  next hrows => rw [SortedMap.keys, hrows, List.map_nil]
  · cases h

/-- The state after some winners. -/
structure After (perRelay : PerRelayAuthors) (maxPerUser : Nat) (winners : List String)
    (g : Greedy) : Prop where
  nodup : winners.Nodup
  selected : ∀ relay, relay ∈ g.selected ↔ relay ∈ winners
  covers : ∀ author, Covers maxPerUser (carriers perRelay author) winners (view g author)
  serves : ∀ relay ∈ winners, ∃ author, relay ∈ served maxPerUser (carriers perRelay author) winners
  some_served : ∀ relay, g.selections.lookup relay ≠ some ∅

theorem After.start (h : 0 < maxPerUser) :
    After perRelay maxPerUser [] ⟨invert perRelay, ∅, ∅, ∅⟩ := by
  refine ⟨.nil, fun relay => Iff.rfl, fun author => ⟨fun relay => ?_, ?_, ?_, ?_⟩, ?_, ?_⟩
  · rw [view, mem_invert]
    exact ⟨fun hr => ⟨hr, List.not_mem_nil, h⟩, And.left⟩
  · exact invert_ne_empty author
  · rw [served_nil]
    rfl
  · intro relay
    rw [served_nil]
    exact iff_of_false (not_mem_empty author) List.not_mem_nil
  · exact fun relay hr => absurd hr List.not_mem_nil
  · exact fun relay hr => nomatch hr

theorem some_served_serve (h : ∀ relay, g.selections.lookup relay ≠ some ∅) :
    ∀ relay, (serve maxPerUser winner g author).selections.lookup relay ≠ some ∅ := by
  intro relay
  unfold serve
  cases hpool : g.pool.lookup author with
  | none => exact h relay
  | some relays =>
    by_cases hin : winner ∈ relays
    · simp only [if_pos hin, SortedMap.lookup_alter]
      split
      · exact fun heq => insert_ne_empty author _ (Option.some.inj heq)
      · exact h relay
    · simp only [if_neg hin]
      exact h relay

theorem some_served_foldl {authors : List String} (h : ∀ relay, g.selections.lookup relay ≠ some ∅) :
    ∀ relay, (authors.foldl (serve maxPerUser winner) g).selections.lookup relay ≠ some ∅ := by
  induction authors generalizing g with
  | nil => exact h
  | cons _ _ ih => exact ih (some_served_serve h)

theorem takeWinner_selected :
    (takeWinner maxPerUser g winner).selected = insert winner g.selected := by
  have hfold : ∀ (authors : List String) (g : Greedy),
      (authors.foldl (serve maxPerUser winner) g).selected = g.selected := by
    intro authors
    induction authors with
    | nil => exact fun g => rfl
    | cons first _ ih =>
      intro g
      rw [List.foldl_cons, ih]
      unfold serve
      cases g.pool.lookup first with
      | none => rfl
      | some =>
        dsimp only
        split <;> rfl
  exact hfold _ _

/-- A round adds its winner, which serves somebody. -/
theorem After.takeWinner (h : After perRelay maxPerUser winners g)
    (hwinner : winnerUrl (coverage g) = some winner) :
    After perRelay maxPerUser (winners ++ [winner]) (takeWinner maxPerUser g winner) := by
  obtain ⟨⟨author, hauthor⟩, hselected⟩ := mem_coverage.mp (winnerUrl_mem hwinner)
  have hnew : winner ∉ winners := fun hmem => hselected ((h.selected winner).mpr hmem)
  constructor
  · rw [← List.concat_eq_append]
    exact h.nodup.concat hnew
  · intro relay
    rw [takeWinner_selected, mem_insert, h.selected, List.mem_append, List.mem_singleton]
    exact or_comm
  · intro author
    rw [view_takeWinner]
    exact (h.covers author).serveView hnew
  · intro relay hrelay
    rcases List.mem_append.mp hrelay with hold | hlast
    · obtain ⟨author, hserved⟩ := h.serves relay hold
      exact ⟨author, served_mono hserved⟩
    · obtain rfl := List.mem_singleton.mp hlast
      have hwaits := ((h.covers author).waits relay).mp hauthor
      refine ⟨author, ?_⟩
      rw [served_snoc_of_waits hwaits]
      exact List.mem_append_right _ (List.mem_singleton_self relay)
  · exact some_served_foldl h.some_served

/-- The rounds end when the connections are used up, or nobody waits any more. -/
theorem After.rounds (h : After perRelay maxPerUser winners g) (free : Nat) :
    ∃ winners', After perRelay maxPerUser winners' (greedyRounds maxPerUser free g) ∧
      winners'.length ≤ winners.length + free ∧
      (winners'.length < winners.length + free → ∀ author relay,
        ¬ Waits maxPerUser (carriers perRelay author) winners' relay) := by
  induction free generalizing winners g with
  | zero => exact ⟨winners, h, by omega, fun hlt => absurd hlt (by omega)⟩
  | succ _ ih =>
    rw [greedyRounds]
    split
    next hempty =>
      refine ⟨winners, h, by omega, fun _ author relay hwaits => ?_⟩
      have hin := ((h.covers author).waits relay).mpr hwaits
      rw [view, hempty] at hin
      exact not_mem_empty relay hin
    next hpool =>
      cases hwinner : winnerUrl (coverage g) with
      | none =>
        refine ⟨winners, h, by omega, fun _ author relay hwaits => ?_⟩
        have hin := ((h.covers author).waits relay).mpr hwaits
        have hcandidate : relay ∈ (coverage g).keys := mem_coverage.mpr
          ⟨⟨author, hin⟩, fun hselected => hwaits.2.1 ((h.selected relay).mp hselected)⟩
        rw [winnerUrl_eq_none hwinner] at hcandidate
        cases hcandidate
      | some =>
        obtain ⟨winners', hafter, hle, hdone⟩ := ih (h.takeWinner hwinner)
        rw [List.length_append, List.length_singleton] at hle hdone
        exact ⟨winners', hafter, by omega, fun hlt => hdone (by omega)⟩

/-- The winners of the pass, and what they serve. -/
structure Selected (perRelay : PerRelayAuthors) (maxConnections maxPerUser : Nat)
    (winners : List String) : Prop where
  nodup : winners.Nodup
  length_le : winners.length ≤ maxConnections
  keys : ∀ relay, (∃ authors,
    (greedySelect perRelay maxConnections maxPerUser).lookup relay = some authors) ↔ relay ∈ winners
  serves : ∀ author relay,
    author ∈ ((greedySelect perRelay maxConnections maxPerUser).lookup relay).getD ∅ ↔
      relay ∈ served maxPerUser (carriers perRelay author) winners
  winners_serve : ∀ relay ∈ winners, ∃ author,
    relay ∈ served maxPerUser (carriers perRelay author) winners
  done : winners.length < maxConnections → ∀ author relay,
    ¬ Waits maxPerUser (carriers perRelay author) winners relay

theorem exists_selected (perRelay : PerRelayAuthors) (maxConnections : Nat) (h : 0 < maxPerUser) :
    ∃ winners, Selected perRelay maxConnections maxPerUser winners := by
  by_cases hmax : maxConnections = 0
  · subst hmax
    refine ⟨[], .nil, le_refl _, fun relay => ?_, fun author relay => ?_, nofun, nofun⟩
    · simp [greedySelect]
    · simp [greedySelect]
  · have hstart : After perRelay maxPerUser [] ⟨invert perRelay, ∅, ∅, ∅⟩ := After.start h
    obtain ⟨winners, hafter, hle, hdone⟩ := hstart.rounds maxConnections
    rw [List.length_nil, Nat.zero_add] at hle hdone
    have hselect : greedySelect perRelay maxConnections maxPerUser =
        (greedyRounds maxPerUser maxConnections ⟨invert perRelay, ∅, ∅, ∅⟩).selections := by
      rw [greedySelect, if_neg (by omega)]
    have hserves : ∀ author relay,
        author ∈ ((greedySelect perRelay maxConnections maxPerUser).lookup relay).getD ∅ ↔
          relay ∈ served maxPerUser (carriers perRelay author) winners := by
      intro author relay
      rw [hselect]
      exact (hafter.covers author).servedBy relay
    refine ⟨winners, hafter.nodup, hle, fun relay => ?_, hserves, hafter.serves, hdone⟩
    constructor
    · intro ⟨authors, hlookup⟩
      have hne : authors ≠ ∅ := by
        intro heq
        subst heq
        exact hafter.some_served relay (hselect ▸ hlookup)
      obtain ⟨author, hauthor⟩ := ne_empty_iff.mp hne
      have hserved := (hserves author relay).mp (by rw [hlookup]; exact hauthor)
      exact (mem_served_carriers hserved).2
    · intro hrelay
      obtain ⟨author, hserved⟩ := hafter.serves relay hrelay
      have hauthor := (hserves author relay).mpr hserved
      cases hlookup : (greedySelect perRelay maxConnections maxPerUser).lookup relay with
      | none =>
        rw [hlookup] at hauthor
        exact absurd hauthor (not_mem_empty author)
      | some authors => exact ⟨authors, rfl⟩

/-- As many relays are selected as there are winners. -/
theorem Selected.length (h : Selected perRelay maxConnections maxPerUser winners) :
    (greedySelect perRelay maxConnections maxPerUser).rows.length = winners.length := by
  have hperm : (greedySelect perRelay maxConnections maxPerUser).keys.Perm winners := by
    refine (List.perm_ext_iff_of_nodup (SortedMap.keys_nodup _) h.nodup).mpr fun relay => ?_
    rw [SortedMap.mem_keys, h.keys]
  rw [← hperm.length_eq, SortedMap.keys, List.length_map]

/-- A relay without authors is not selected. -/
theorem Selected.not_selected {authors : SortedSet String}
    (h : Selected perRelay maxConnections maxPerUser winners)
    (hlookup : perRelay.lookup relay = some authors) (hempty : authors = ∅) :
    (greedySelect perRelay maxConnections maxPerUser).lookup relay = none := by
  by_contra hsome
  have hrelay := (h.keys relay).mp (Option.ne_none_iff_exists'.mp hsome)
  obtain ⟨author, hserved⟩ := h.winners_serve relay hrelay
  have hcarries := mem_carriers.mp (mem_served_carriers hserved).1
  rw [hlookup, hempty] at hcarries
  exact not_mem_empty author hcarries

end PlannerGreedy
