import NostrMultiPlatform.FeedRows

/-!
# A feed shows its contributions

The rows are the live contributions grouped by row, each row with its merged item,
whatever the order of the mutators. The hook hears of every source that leaves
except on a reset.
-/
namespace FeedLedger

open FeedRows Runs Sorted SortedMap

variable {E C : Type} {merge : Option (FlatFeedItem C) → FlatFeedItem C → FlatFeedItem C}

theorem mergeItems_eq_none {items : List (FlatFeedItem C)} :
    mergeItems merge items = none ↔ items = [] := by
  unfold mergeItems
  have hlength : (items.mergeSort sortsBefore).length = items.length := List.length_mergeSort items
  cases hsort : items.mergeSort sortsBefore with
  | nil =>
    rw [hsort, List.length_nil] at hlength
    exact iff_of_true rfl (List.eq_nil_of_length_eq_zero hlength.symm)
  | cons =>
    refine iff_of_false nofun fun hnil => ?_
    rw [hsort, hnil] at hlength
    cases hlength

theorem sortsBefore_trans (a b c : FlatFeedItem C) (hab : sortsBefore a b = true)
    (hbc : sortsBefore b c = true) : sortsBefore a c = true := by
  simp only [sortsBefore, Bool.or_eq_true, Bool.and_eq_true, decide_eq_true_eq] at *
  obtain hab | ⟨hab, hab'⟩ := hab <;> obtain hbc | ⟨hbc, hbc'⟩ := hbc
  · exact .inl (hbc.trans hab)
  · exact .inl (hbc ▸ hab)
  · exact .inl (hab ▸ hbc)
  · exact .inr ⟨hbc.trans hab, hbc'.trans hab'⟩

theorem sortsBefore_total (a b : FlatFeedItem C) : (sortsBefore a b || sortsBefore b a) = true := by
  simp only [sortsBefore, Bool.or_eq_true, Bool.and_eq_true, decide_eq_true_eq]
  rcases lt_trichotomy a.sortCreatedAt b.sortCreatedAt with h | h | h
  · exact .inr (.inl h)
  · obtain hle | hle := le_total b.sourceId a.sourceId
    · exact .inl (.inr ⟨h.symm, hle⟩)
    · exact .inr (.inr ⟨h, hle⟩)
  · exact .inl (.inl h)

theorem sourceId_of_sortsBefore {a b : FlatFeedItem C} (hab : sortsBefore a b = true)
    (hba : sortsBefore b a = true) : a.sourceId = b.sourceId := by
  simp only [sortsBefore, Bool.or_eq_true, Bool.and_eq_true, decide_eq_true_eq] at *
  obtain hab | ⟨hab, hab'⟩ := hab <;> obtain hba | ⟨hba, hba'⟩ := hba
  · exact absurd hab hba.not_gt
  · exact absurd hba hab.ne'
  · exact absurd hab hba.ne'
  · exact hba'.antisymm hab'

/-- The merged item does not depend on the order in which the items are given. -/
theorem mergeItems_perm {items items' : List (FlatFeedItem C)} (h : items.Perm items')
    (hnodup : (items.map FlatFeedItem.sourceId).Nodup) :
    mergeItems merge items = mergeItems merge items' := by
  unfold mergeItems
  have hsorted : items.mergeSort sortsBefore = items'.mergeSort sortsBefore := by
    have hperm : (items.mergeSort sortsBefore).Perm (items'.mergeSort sortsBefore) :=
      (List.mergeSort_perm items _).trans (h.trans (List.mergeSort_perm items' _).symm)
    refine hperm.eq_of_pairwise (fun a b ha hb hab hba => ?_)
      (List.pairwise_mergeSort sortsBefore_trans sortsBefore_total items)
      (List.pairwise_mergeSort sortsBefore_trans sortsBefore_total items')
    have ha' := (List.mergeSort_perm items _).mem_iff.mp ha
    have hb' := h.mem_iff.mpr ((List.mergeSort_perm items' _).mem_iff.mp hb)
    exact List.inj_on_of_nodup_map hnodup ha' hb' (sourceId_of_sortsBefore hab hba)
  rw [hsorted]

/-- The contribution stored for a row and a source. -/
def view (rows : Rows C) (key : String × String) : Option (FlatFeedItem C) :=
  (rows.lookup key.1).bind fun row => row.sources.lookup key.2

def sourcesOf (rows : Rows C) (id : String) : SortedMap String (FlatFeedItem C) :=
  ((rows.lookup id).map FlatRow.sources).getD ∅

theorem view_eq_sourcesOf (rows : Rows C) (key : String × String) :
    view rows key = (sourcesOf rows key.1).lookup key.2 := by
  unfold view sourcesOf
  cases rows.lookup key.1 <;> rfl

theorem mergeSources_eq_none {sources : SortedMap String (FlatFeedItem C)} :
    mergeSources merge sources = none ↔ sources.rows = [] := by
  rw [mergeSources, mergeItems_eq_none, valuesOf, List.map_eq_nil_iff]

variable (merge) in
theorem mergeSources_insert (sources : SortedMap String (FlatFeedItem C)) (id : String)
    (item : FlatFeedItem C) : ∃ best, mergeSources merge (sources.insert id item) = some best := by
  refine Option.ne_none_iff_exists'.mp fun hnone => ?_
  have hempty := mergeSources_eq_none.mp hnone
  have hlookup : (sources.insert id item).lookup id = some item := by simp
  rw [lookup_eq_some, hempty] at hlookup
  cases hlookup

theorem mergeSources_singleton (item : FlatFeedItem C) (id : String) :
    mergeSources merge ((∅ : SortedMap String (FlatFeedItem C)).insert id item) = some item := by
  have hvalues : valuesOf ((∅ : SortedMap String (FlatFeedItem C)).insert id item) = [item] := rfl
  rw [mergeSources, hvalues, mergeItems, List.mergeSort_singleton]
  rfl

variable (merge) in
/-- An ingested item joins the sources of its row, and the row is merged from them. -/
theorem ingestItem_eq (rows : Rows C) (item : FlatFeedItem C) :
    ∃ best,
      mergeSources merge ((sourcesOf rows item.id).insert item.sourceId item) = some best ∧
      ingestItem merge rows item =
        rows.insert item.id ⟨(sourcesOf rows item.id).insert item.sourceId item, best⟩ := by
  unfold ingestItem sourcesOf
  cases hrow : rows.lookup item.id with
  | none => exact ⟨item, mergeSources_singleton item item.sourceId, rfl⟩
  | some row =>
    obtain ⟨best, hbest⟩ := mergeSources_insert merge row.sources item.sourceId item
    refine ⟨best, hbest, ?_⟩
    dsimp only [Option.map_some, Option.getD_some]
    rw [hbest]
    rfl

theorem view_ingestItem (rows : Rows C) (item : FlatFeedItem C) (key : String × String) :
    view (ingestItem merge rows item) key = if key = item.key then some item else view rows key := by
  obtain ⟨best, _, heq⟩ := ingestItem_eq merge rows item
  obtain ⟨id, source⟩ := key
  rw [heq, view_eq_sourcesOf rows, view, lookup_insert]
  by_cases hid : id = item.id
  · subst hid
    simp [FlatFeedItem.key]
  · simp [FlatFeedItem.key, hid, sourcesOf]
    cases rows.lookup id <;> rfl

/-- The rows hold exactly these contributions, and every row has its merged item. -/
structure Shows (merge : Option (FlatFeedItem C) → FlatFeedItem C → FlatFeedItem C) (rows : Rows C)
    (live : List (FlatFeedItem C)) : Prop where
  nodup : (live.map FlatFeedItem.key).Nodup
  mem : ∀ key item, view rows key = some item ↔ item ∈ live ∧ item.key = key
  best : ∀ id row, rows.lookup id = some row → mergeSources merge row.sources = some row.best

variable {rows rows' : Rows C} {live : List (FlatFeedItem C)}

theorem shows_empty : Shows merge (∅ : Rows C) [] :=
  ⟨List.nodup_nil, fun _ _ => iff_of_false nofun nofun, fun _ _ h => nomatch h⟩

theorem Shows.eq_of_key (h : Shows merge rows live) {a b : FlatFeedItem C} (ha : a ∈ live)
    (hb : b ∈ live) (hkey : a.key = b.key) : a = b :=
  List.inj_on_of_nodup_map h.nodup ha hb hkey

variable {item : FlatFeedItem C} {row : FlatRow C} {id : String} {key : String × String}

theorem Shows.keyed (h : Shows merge rows live) {id source : String}
    (hrow : rows.lookup id = some row) (hitem : row.sources.lookup source = some item) :
    item ∈ live ∧ item.key = (id, source) := by
  apply (h.mem (id, source) item).mp
  rw [view, hrow]
  exact hitem

/-- Contributions taken out on both sides. -/
theorem Shows.filter (h : Shows merge rows live) (p : FlatFeedItem C → Bool)
    (hview : ∀ key, view rows' key = (view rows key).filter p)
    (hbest : ∀ id row, rows'.lookup id = some row → mergeSources merge row.sources = some row.best) :
    Shows merge rows' (live.filter p) := by
  refine ⟨h.nodup.sublist (List.filter_sublist.map _), fun key item => ?_, hbest⟩
  rw [hview, Option.filter_eq_some_iff, h.mem, List.mem_filter]
  exact and_right_comm

theorem Shows.ingestItem (h : Shows merge rows live) (item : FlatFeedItem C) :
    Shows merge (FeedRows.ingestItem merge rows item) (contribute live item) := by
  refine ⟨?_, fun key other => ?_, fun id row hrow => ?_⟩
  · rw [contribute, List.map_append, List.nodup_append']
    refine ⟨h.nodup.sublist (List.filter_sublist.map _), List.nodup_singleton _, ?_⟩
    intro key hold hnew
    obtain ⟨other, hother, rfl⟩ := List.mem_map.mp hold
    have hne := (List.mem_filter.mp hother).2
    simp at hne hnew
    exact hne hnew
  · rw [view_ingestItem, contribute, List.mem_append, List.mem_filter, List.mem_singleton]
    by_cases hkey : key = item.key
    · rw [if_pos hkey, hkey]
      constructor
      · rintro ⟨⟩
        exact ⟨.inr rfl, rfl⟩
      · rintro ⟨⟨_, hne⟩ | rfl, hother⟩
        · simp [hother] at hne
        · rfl
    · rw [if_neg hkey, h.mem]
      constructor
      · rintro ⟨hother, rfl⟩
        exact ⟨.inl ⟨hother, by simpa using hkey⟩, rfl⟩
      · rintro ⟨⟨hother, _⟩ | rfl, rfl⟩
        · exact ⟨hother, rfl⟩
        · exact absurd rfl hkey
  · obtain ⟨best, hbest, heq⟩ := ingestItem_eq merge rows item
    rw [heq, lookup_insert] at hrow
    split at hrow
    · cases hrow
      exact hbest
    · exact h.best id row hrow

theorem Shows.ingest {feed : FlatFeed E C} {st : FlatFeedState C}
    (h : Shows feed.merge st.rows live) (event : E) :
    Shows feed.merge (FeedRows.ingest feed st event).rows (liveAfter feed live (.ingest event)) := by
  have hfold : ∀ (items : List (FlatFeedItem C)) {rows : Rows C} {live : List (FlatFeedItem C)},
      Shows feed.merge rows live →
        Shows feed.merge (items.foldl (FeedRows.ingestItem feed.merge) rows)
          (items.foldl contribute live) := by
    intro items
    induction items with
    | nil => exact fun h => h
    | cons item _ ih => exact fun h => ih (h.ingestItem item)
  unfold FeedRows.ingest
  simp only [liveAfter]
  by_cases hadmitted : feed.predicate event = true
  · rw [if_pos hadmitted, if_pos hadmitted]
    exact hfold _ h
  · rw [if_neg hadmitted, if_neg hadmitted]
    exact h

section

variable (h : Shows merge rows live)
include h

theorem Shows.nodup_live : live.Nodup := h.nodup.of_map _

theorem Shows.mem_group (hrow : rows.lookup id = some row) (item : FlatFeedItem C) :
    item ∈ valuesOf row.sources ↔ item ∈ groupOf live id := by
  rw [valuesOf, List.mem_map, groupOf, List.mem_filter]
  constructor
  · rintro ⟨⟨source, value⟩, hmem, rfl⟩
    obtain ⟨hlive, hkey⟩ := h.keyed hrow (lookup_eq_some.mpr hmem)
    refine ⟨hlive, ?_⟩
    rw [FlatFeedItem.key] at hkey
    simpa using congrArg Prod.fst hkey
  · rintro ⟨hlive, hid⟩
    have hview := (h.mem item.key item).mpr ⟨hlive, rfl⟩
    have hid' : item.key.1 = id := of_decide_eq_true hid
    rw [view, hid', hrow] at hview
    exact ⟨(item.sourceId, item), lookup_eq_some.mp hview, rfl⟩

theorem Shows.sourceIds (hrow : rows.lookup id = some row) :
    (valuesOf row.sources).map FlatFeedItem.sourceId = row.sources.keys := by
  rw [valuesOf, List.map_map, keys]
  apply List.map_congr_left
  rintro ⟨source, item⟩ hmem
  obtain ⟨_, hkey⟩ := h.keyed hrow (lookup_eq_some.mpr hmem)
  exact congrArg Prod.snd hkey

/-- A row's sources are the contributions to it. -/
theorem Shows.group_perm (hrow : rows.lookup id = some row) :
    (valuesOf row.sources).Perm (groupOf live id) := by
  have hvalues : (valuesOf row.sources).Nodup := by
    apply List.Nodup.of_map FlatFeedItem.sourceId
    rw [h.sourceIds hrow]
    exact row.sources.keys_nodup
  exact (List.perm_ext_iff_of_nodup hvalues (h.nodup_live.filter _)).mpr (h.mem_group hrow)

theorem Shows.group_of_none (hrow : rows.lookup id = none) : groupOf live id = [] := by
  rw [groupOf, List.filter_eq_nil_iff]
  intro item hitem hid
  have hview := (h.mem item.key item).mpr ⟨hitem, rfl⟩
  have hid' : item.key.1 = id := of_decide_eq_true hid
  rw [view, hid', hrow] at hview
  cases hview

theorem Shows.merged (id : String) :
    mergeItems merge (groupOf live id) = (rows.lookup id).map FlatRow.best := by
  cases hrow : rows.lookup id with
  | none =>
    rw [h.group_of_none hrow]
    exact mergeItems_eq_none.mpr rfl
  | some row =>
    have hnodup : ((valuesOf row.sources).map FlatFeedItem.sourceId).Nodup := by
      rw [h.sourceIds hrow]
      exact row.sources.keys_nodup
    rw [← mergeItems_perm (h.group_perm hrow) hnodup]
    exact h.best id row hrow

end

/-- What the hook is called with. -/
@[simp] theorem rows_notifySourceRemoved (feed : FlatFeed E C) (st : FlatFeedState C)
    (sourceIds : List String) : (notifySourceRemoved feed st sourceIds).rows = st.rows := by
  unfold notifySourceRemoved
  split <;> rfl

theorem hookCalls_notifySourceRemoved {feed : FlatFeed E C} (hhook : feed.sourceRemoved = true)
    (st : FlatFeedState C) (sourceIds : List String) :
    (notifySourceRemoved feed st sourceIds).hookCalls = st.hookCalls ++ sourceIds := by
  rw [notifySourceRemoved, if_pos hhook]

theorem departed_filter (hnodup : (live.map FlatFeedItem.key).Nodup) (p : FlatFeedItem C → Bool) :
    departed live (live.filter p) = live.filter fun item => !p item := by
  apply List.filter_congr
  intro item hitem
  have hkey : item.key ∈ (live.filter p).map FlatFeedItem.key ↔ p item = true := by
    rw [List.mem_map]
    constructor
    · rintro ⟨other, hother, heq⟩
      obtain ⟨hlive, hp⟩ := List.mem_filter.mp hother
      rw [← List.inj_on_of_nodup_map hnodup hlive hitem heq]
      exact hp
    · exact fun hp => ⟨item, List.mem_filter.mpr ⟨hitem, hp⟩, rfl⟩
  simp [hkey]

theorem departed_of_keys {live' : List (FlatFeedItem C)}
    (h : ∀ item ∈ live, item.key ∈ live'.map FlatFeedItem.key) : departed live live' = [] := by
  rw [departed, List.filter_eq_nil_iff]
  intro item hitem
  simpa using h item hitem

/-- Contributing never empties a place. -/
theorem key_mem_foldl_contribute (items : List (FlatFeedItem C)) {live : List (FlatFeedItem C)}
    (h : key ∈ live.map FlatFeedItem.key) :
    key ∈ (items.foldl contribute live).map FlatFeedItem.key := by
  induction items generalizing live with
  | nil => exact h
  | cons item _ ih =>
    apply ih
    rw [contribute, List.map_append, List.mem_append]
    by_cases hkey : key = item.key
    · exact .inr (by simp [hkey])
    · obtain ⟨other, hother, rfl⟩ := List.mem_map.mp h
      exact .inl (List.mem_map.mpr ⟨other, List.mem_filter.mpr ⟨hother, by simpa using hkey⟩, rfl⟩)

theorem shows_erase (h : Shows merge rows live) (id : String) :
    Shows merge (rows.erase id) (live.filter fun item => item.id ≠ id) := by
  refine h.filter _ (fun key => ?_) fun other row hrow => ?_
  · rw [view, lookup_erase]
    by_cases hid : key.1 = id
    · rw [if_pos hid]
      symm
      rw [Option.bind_none, Option.filter_eq_none_iff]
      intro item hitem
      obtain ⟨_, hkey⟩ := (h.mem key item).mp hitem
      have hitem' : item.id = key.1 := congrArg Prod.fst hkey
      simp [hitem', hid]
    · rw [if_neg hid, ← view]
      cases hview : view rows key with
      | none => rfl
      | some item =>
        obtain ⟨_, hkey⟩ := (h.mem key item).mp hview
        have hitem : item.id = key.1 := congrArg Prod.fst hkey
        simp [Option.filter, hitem, hid]
  · rw [lookup_erase] at hrow
    split at hrow
    · cases hrow
    · exact h.best other row hrow

theorem filter_ne_of_group_nil (h : groupOf live id = []) :
    (live.filter fun item => item.id ≠ id) = live := by
  rw [List.filter_eq_self]
  intro item hitem
  have := List.filter_eq_nil_iff.mp h item hitem
  simpa using this

/-- One operation, with the sources that left and those the hook heard of. -/
structure Kept (feed : FlatFeed E C) (st st' : FlatFeedState C) (live live' : List (FlatFeedItem C)) :
    Prop where
  shows' : Shows feed.merge st'.rows live'
  calls : ∃ heard, st'.hookCalls = st.hookCalls ++ heard ∧
    heard.Perm ((departed live live').map FlatFeedItem.sourceId)

variable {feed : FlatFeed E C} {st : FlatFeedState C}

theorem kept_dropRow (hhook : feed.sourceRemoved = true) (h : Shows feed.merge st.rows live)
    (id : String) :
    Kept feed st (dropRow feed st id).1 live (live.filter fun item => item.id ≠ id) := by
  have hdeparted := departed_filter h.nodup fun item => decide (item.id ≠ id)
  have hgroup : (live.filter fun item => !decide (item.id ≠ id)) = groupOf live id :=
    List.filter_congr fun item _ => by simp
  rw [hgroup] at hdeparted
  unfold dropRow
  cases hrow : st.rows.lookup id with
  | none =>
    have hnil := h.group_of_none hrow
    refine ⟨?_, [], (List.append_nil _).symm, ?_⟩
    · rw [filter_ne_of_group_nil hnil]
      exact h
    · rw [hdeparted, hnil]
      exact .nil
  | some row =>
    refine ⟨?_, row.sources.keys, hookCalls_notifySourceRemoved hhook _ _, ?_⟩
    · rw [rows_notifySourceRemoved]
      exact shows_erase h id
    · rw [hdeparted, ← h.sourceIds hrow]
      exact (h.group_perm hrow).map _

theorem kept_self (h : Shows feed.merge st.rows live) : Kept feed st st live live := by
  refine ⟨h, [], (List.append_nil _).symm, ?_⟩
  rw [departed_of_keys fun item hitem => List.mem_map_of_mem hitem]
  exact .nil

theorem kept_removeItemIf (hhook : feed.sourceRemoved = true) (h : Shows feed.merge st.rows live)
    (id : String) (predicate : C → Bool) :
    Kept feed st (removeItemIf feed st id predicate).1 live
      (liveAfter feed live (.removeItemIf id predicate)) := by
  unfold removeItemIf
  simp only [liveAfter, h.merged id, Option.any_map]
  by_cases hany : ((st.rows.lookup id).any fun row => predicate row.best.card) = true
  · rw [if_pos hany, if_pos (by simpa [Function.comp_def] using hany)]
    exact kept_dropRow hhook h id
  · rw [if_neg hany, if_neg (by simpa [Function.comp_def] using hany)]
    exact kept_self h

theorem kept_ingest (h : Shows feed.merge st.rows live) (event : E) :
    Kept feed st (ingest feed st event) live (liveAfter feed live (.ingest event)) := by
  refine ⟨h.ingest event, [], ?_, ?_⟩
  · unfold ingest
    split <;> simp
  · rw [departed_of_keys fun item hitem => ?_]
    · exact .nil
    · simp only [liveAfter]
      split
      · exact key_mem_foldl_contribute _ (List.mem_map_of_mem hitem)
      · exact List.mem_map_of_mem hitem

/-- A row merged again shows the sources it was merged from, also where none are left. -/
theorem remergeRow_view (sources : SortedMap String (FlatFeedItem C)) (source : String) :
    ((remergeRow merge sources).bind fun row => row.sources.lookup source) = sources.lookup source := by
  unfold remergeRow
  cases hbest : mergeSources merge sources with
  | some => rfl
  | none =>
    have hempty := mergeSources_eq_none.mp hbest
    have hsources : sources = ∅ := by
      cases sources
      cases hempty
      rfl
    rw [hsources]
    rfl

theorem remergeRow_best {sources : SortedMap String (FlatFeedItem C)}
    (h : remergeRow merge sources = some row) : mergeSources merge row.sources = some row.best := by
  obtain ⟨best, hbest, rfl⟩ := Option.map_eq_some_iff.mp h
  exact hbest

/-- The rows with one of them merged again from the given sources. -/
def remerged (merge : Option (FlatFeedItem C) → FlatFeedItem C → FlatFeedItem C) (rows : Rows C)
    (id : String) (sources : SortedMap String (FlatFeedItem C)) : Rows C :=
  match remergeRow merge sources with
  | some row => rows.insert id row
  | none => rows.erase id

theorem lookup_remerged (rows : Rows C) (id other : String)
    (sources : SortedMap String (FlatFeedItem C)) :
    (remerged merge rows id sources).lookup other =
      if other = id then remergeRow merge sources else rows.lookup other := by
  unfold remerged
  cases remergeRow merge sources <;> simp

theorem shows_remerged (h : Shows merge rows live) {id source : String}
    (hrow : rows.lookup id = some row) :
    Shows merge (remerged merge rows id (row.sources.erase source))
      (live.filter fun item => item.key ≠ (id, source)) := by
  refine h.filter _ (fun key => ?_) fun other row' hrow' => ?_
  · obtain ⟨rowId, sourceId⟩ := key
    have hview : view (remerged merge rows id (row.sources.erase source)) (rowId, sourceId) =
        if (rowId, sourceId) = (id, source) then none else view rows (rowId, sourceId) := by
      rw [view, lookup_remerged]
      by_cases hid : rowId = id
      · subst hid
        rw [if_pos rfl, remergeRow_view, lookup_erase, view, hrow]
        simp
      · simp [hid, view]
    rw [hview]
    by_cases hkey : (rowId, sourceId) = (id, source)
    · rw [if_pos hkey]
      symm
      rw [Option.filter_eq_none_iff]
      intro item hitem
      obtain ⟨_, hitem⟩ := (h.mem _ item).mp hitem
      simp [hitem, hkey]
    · rw [if_neg hkey]
      cases hitem : view rows (rowId, sourceId) with
      | none => rfl
      | some item =>
        obtain ⟨_, heq⟩ := (h.mem _ item).mp hitem
        rw [Option.filter_some, if_pos (by rw [heq]; exact decide_eq_true hkey)]
  · rw [lookup_remerged] at hrow'
    split at hrow'
    · exact remergeRow_best hrow'
    · exact h.best other row' hrow'

theorem filter_key_ne_of_view_none (h : Shows merge rows live) (hview : view rows key = none) :
    (live.filter fun item => item.key ≠ key) = live := by
  rw [List.filter_eq_self]
  intro item hitem
  have hne : item.key ≠ key := by
    rintro rfl
    rw [(h.mem item.key item).mpr ⟨hitem, rfl⟩] at hview
    cases hview
  simpa using hne

theorem filter_key_eq (h : Shows merge rows live) (hview : view rows key = some item) :
    (live.filter fun other => other.key = key) = [item] := by
  obtain ⟨hitem, hkey⟩ := (h.mem key item).mp hview
  apply List.perm_singleton.mp
  refine (List.perm_ext_iff_of_nodup (h.nodup_live.filter _) (List.nodup_singleton _)).mpr ?_
  intro other
  rw [List.mem_filter, List.mem_singleton]
  constructor
  · rintro ⟨hother, heq⟩
    exact h.eq_of_key hother hitem ((of_decide_eq_true heq).trans hkey.symm)
  · rintro rfl
    exact ⟨hitem, decide_eq_true hkey⟩

theorem removeSource_of_view_none {id sourceId : String}
    (h : view st.rows (id, sourceId) = none) : removeSource feed st id sourceId = (st, false) := by
  unfold removeSource
  cases hrow : st.rows.lookup id with
  | none => rfl
  | some row =>
    have hitem : row.sources.lookup sourceId = none := by
      rw [view, hrow] at h
      exact h
    simp only [hitem]

theorem removeSource_of_row {id sourceId : String} (hrow : st.rows.lookup id = some row)
    (hitem : row.sources.lookup sourceId = some item) :
    (removeSource feed st id sourceId).1 =
      notifySourceRemoved feed
        { st with rows := remerged feed.merge st.rows id (row.sources.erase sourceId) }
        [sourceId] := by
  unfold removeSource remerged
  simp only [hrow, hitem]
  cases remergeRow feed.merge (row.sources.erase sourceId) <;> rfl

theorem kept_removeSource (hhook : feed.sourceRemoved = true) (h : Shows feed.merge st.rows live)
    (id sourceId : String) :
    Kept feed st (removeSource feed st id sourceId).1 live
      (live.filter fun item => item.key ≠ (id, sourceId)) := by
  cases hview : view st.rows (id, sourceId) with
  | none =>
    rw [removeSource_of_view_none hview, filter_key_ne_of_view_none h hview]
    exact kept_self h
  | some item =>
    obtain ⟨row, hrow, hitem⟩ := Option.bind_eq_some_iff.mp hview
    rw [removeSource_of_row hrow hitem]
    refine ⟨?_, _, hookCalls_notifySourceRemoved hhook _ _, ?_⟩
    · rw [rows_notifySourceRemoved]
      exact shows_remerged h hrow
    · have hdeparted := departed_filter h.nodup fun item => decide (item.key ≠ (id, sourceId))
      have hone : (live.filter fun item => !decide (item.key ≠ (id, sourceId))) = [item] := by
        rw [← filter_key_eq h hview]
        exact List.filter_congr fun item _ => by simp
      have hsource : item.sourceId = sourceId := congrArg Prod.snd ((h.mem _ item).mp hview).2
      rw [hdeparted, hone, List.map_singleton, hsource]

/-- Every stored item, row by row. -/
def allItems (rows : Rows C) : List (FlatFeedItem C) :=
  rows.rows.flatMap fun row => valuesOf row.2.sources

section

variable (h : Shows merge rows live)
include h

theorem mem_allItems : item ∈ allItems rows ↔ item ∈ live := by
  rw [allItems, List.mem_flatMap]
  constructor
  · rintro ⟨⟨id, row⟩, hrow, hitem⟩
    exact (List.mem_filter.mp ((h.mem_group (lookup_eq_some.mpr hrow) item).mp hitem)).1
  · intro hitem
    obtain ⟨row, hrow, hsource⟩ := Option.bind_eq_some_iff.mp ((h.mem item.key item).mpr ⟨hitem, rfl⟩)
    refine ⟨_, lookup_eq_some.mp hrow, ?_⟩
    exact List.mem_map.mpr ⟨_, lookup_eq_some.mp hsource, rfl⟩

theorem nodup_allItems : (allItems rows).Nodup := by
  refine List.nodup_flatMap.mpr ⟨?_, ?_⟩
  · rintro ⟨id, row⟩ hrow
    exact (h.group_perm (lookup_eq_some.mpr hrow)).nodup_iff.mpr (h.nodup_live.filter _)
  · refine rows.sorted.imp_of_mem fun {a b} ha hb hlt item hitem hitem' => ?_
    have hgroup := (h.mem_group (lookup_eq_some.mpr ha) item).mp hitem
    have hgroup' := (h.mem_group (lookup_eq_some.mpr hb) item).mp hitem'
    have hid : item.id = a.1 := of_decide_eq_true (List.mem_filter.mp hgroup).2
    have hid' : item.id = b.1 := of_decide_eq_true (List.mem_filter.mp hgroup').2
    exact hlt.ne (hid.symm.trans hid')

theorem allItems_perm : (allItems rows).Perm live :=
  (List.perm_ext_iff_of_nodup (nodup_allItems h) h.nodup_live).mpr fun _ => mem_allItems h

/-- The sources matched in the rows are those of the matched items. -/
theorem matchedSources_eq (predicate : FlatFeedItem C → Bool) :
    (rows.rows.flatMap fun row => matchedSources predicate row.2) =
      ((allItems rows).filter predicate).map FlatFeedItem.sourceId := by
  rw [allItems, List.filter_flatMap, List.map_flatMap]
  apply List.flatMap_congr
  rintro ⟨id, row⟩ hrow
  rw [matchedSources, valuesOf, List.filter_map, List.map_map]
  apply List.map_congr_left
  rintro ⟨source, item⟩ hmem
  obtain ⟨_, hkey⟩ := h.keyed (lookup_eq_some.mpr hrow)
    (lookup_eq_some.mpr (List.mem_filter.mp hmem).1)
  exact (congrArg Prod.snd hkey).symm

theorem shows_removeSourcesIf (predicate : FlatFeedItem C → Bool) :
    Shows merge (rows.filterMapRows fun _ row => remergeRow merge (keptSources predicate row))
      (live.filter fun item => !predicate item) := by
  refine h.filter _ (fun key => ?_) fun id row hrow => ?_
  · rw [view, lookup_filterMapRows, view, Option.bind_assoc]
    cases hrow : rows.lookup key.1 with
    | none => rfl
    | some row =>
      rw [Option.bind_some, remergeRow_view, keptSources, lookup_filterMapRows,
        Option.bind_some]
      cases row.sources.lookup key.2 with
      | none => rfl
      | some item =>
        rw [Option.bind_some, Option.filter_some]
        cases predicate item <;> rfl
  · rw [lookup_filterMapRows] at hrow
    obtain ⟨old, _, hnew⟩ := Option.bind_eq_some_iff.mp hrow
    exact remergeRow_best hnew

end

theorem kept_removeSourcesIf (hhook : feed.sourceRemoved = true)
    (h : Shows feed.merge st.rows live) (predicate : FlatFeedItem C → Bool) :
    Kept feed st (removeSourcesIf feed st predicate).1 live
      (live.filter fun item => !predicate item) := by
  unfold removeSourcesIf
  refine ⟨?_, _, hookCalls_notifySourceRemoved hhook _ _, ?_⟩
  · rw [rows_notifySourceRemoved]
    exact shows_removeSourcesIf h predicate
  · rw [matchedSources_eq h, departed_filter h.nodup]
    simp only [Bool.not_not]
    exact ((allItems_perm h).filter _).map _

/-- The rows are the contributions grouped by row id: no row is empty, each holds the contributions
to it under their sources, and its best item is merged from them. -/
def Grouped (merge : Option (FlatFeedItem C) → FlatFeedItem C → FlatFeedItem C) (rows : Rows C)
    (live : List (FlatFeedItem C)) : Prop :=
  (∀ id, rows.lookup id = none → groupOf live id = []) ∧
    ∀ id row, rows.lookup id = some row → row.sources.rows ≠ [] ∧
      (valuesOf row.sources).Perm (groupOf live id) ∧
      row.sources.keys = (valuesOf row.sources).map FlatFeedItem.sourceId ∧
      mergeItems merge (groupOf live id) = some row.best

/-- The hook was called once for each contribution that left. -/
def Heard (w : Watched C) : Prop := w.st.hookCalls.Perm w.left

theorem Shows.grouped (h : Shows merge rows live) : Grouped merge rows live := by
  refine ⟨fun id hrow => h.group_of_none hrow, fun id row hrow => ?_⟩
  refine ⟨fun hempty => ?_, h.group_perm hrow, (h.sourceIds hrow).symm, ?_⟩
  · have hbest := h.best id row hrow
    rw [mergeSources_eq_none.mpr hempty] at hbest
    cases hbest
  · rw [h.merged id, hrow]
    rfl

/-- A reset finds nothing to drop. -/
def ResetsEmpty (w : Watched C) : Op E C → Prop
  | .reset => w.st.rows.rows = []
  | _ => True

theorem kept_step (hhook : feed.sourceRemoved = true) (h : Shows feed.merge st.rows live)
    {op : Op E C} (hop : op ≠ .reset) :
    Kept feed st (step feed st op) live (liveAfter feed live op) := by
  cases op with
  | ingest event => exact kept_ingest h event
  | removeItem id => exact kept_dropRow hhook h id
  | removeItemIf id predicate => exact kept_removeItemIf hhook h id predicate
  | removeSource id sourceId => exact kept_removeSource hhook h id sourceId
  | removeSourcesIf predicate => exact kept_removeSourcesIf hhook h predicate
  | reset => exact absurd rfl hop

theorem live_eq_nil_iff (h : Shows merge rows live) : live = [] ↔ rows.rows = [] := by
  constructor
  · rintro rfl
    refine List.eq_nil_iff_forall_not_mem.mpr ?_
    rintro ⟨id, row⟩ hrow
    have hbest := h.best id row (lookup_eq_some.mpr hrow)
    have hperm := h.group_perm (lookup_eq_some.mpr hrow)
    rw [mergeSources, mergeItems_eq_none.mpr hperm.eq_nil] at hbest
    cases hbest
  · intro hempty
    have hperm := allItems_perm h
    rw [allItems, hempty] at hperm
    exact hperm.nil_eq.symm

theorem departed_nil (live : List (FlatFeedItem C)) : departed live [] = live := by
  simp [departed]

/-- One operation shows its contributions; the hook hears of what leaves unless it is a reset that
drops rows. -/
theorem watch_iff (hhook : feed.sourceRemoved = true) {w : Watched C}
    (h : Shows feed.merge w.st.rows w.live) (hheard : Heard w) (op : Op E C) :
    Shows feed.merge (watch feed w op).st.rows (watch feed w op).live ∧
      (Heard (watch feed w op) ↔ ResetsEmpty w op) := by
  by_cases hop : op = .reset
  · subst hop
    refine ⟨shows_empty, ?_⟩
    have hleft : (watch feed w .reset).left = w.left ++ w.live.map FlatFeedItem.sourceId := by
      rw [watch, liveAfter, departed_nil]
    have hcalls : (watch feed w .reset).st.hookCalls = w.st.hookCalls := rfl
    rw [Heard, hleft, hcalls, ResetsEmpty, ← live_eq_nil_iff h]
    constructor
    · intro hperm
      have hlength := hperm.length_eq
      rw [List.length_append, List.length_map, hheard.length_eq] at hlength
      exact List.eq_nil_of_length_eq_zero (by omega)
    · intro hempty
      rw [hempty, List.map_nil, List.append_nil]
      exact hheard
  · obtain ⟨hshows, heard, hcalls, hperm⟩ := kept_step hhook h hop
    refine ⟨hshows, iff_of_true ?_ ?_⟩
    · rw [Heard, watch]
      dsimp only
      rw [hcalls]
      exact hheard.append hperm
    · cases op with
      | reset => exact absurd rfl hop
      | _ => trivial

theorem ingestItem_comm (rows : Rows C) {a b : FlatFeedItem C} (hne : a.sourceId ≠ b.sourceId) :
    ingestItem merge (ingestItem merge rows a) b = ingestItem merge (ingestItem merge rows b) a := by
  have hlookup (rows : Rows C) (item : FlatFeedItem C) : ∃ best,
      mergeSources merge ((sourcesOf rows item.id).insert item.sourceId item) = some best ∧
      ∀ id, (ingestItem merge rows item).lookup id =
        if id = item.id then
          some ⟨(sourcesOf rows item.id).insert item.sourceId item, best⟩
        else rows.lookup id := by
    obtain ⟨best, hbest, heq⟩ := ingestItem_eq merge rows item
    exact ⟨best, hbest, fun id => by rw [heq, lookup_insert]⟩
  obtain ⟨bestA, hbestA, hA⟩ := hlookup rows a
  obtain ⟨bestB, hbestB, hB⟩ := hlookup rows b
  obtain ⟨bestAB, hbestAB, hAB⟩ := hlookup (ingestItem merge rows a) b
  obtain ⟨bestBA, hbestBA, hBA⟩ := hlookup (ingestItem merge rows b) a
  apply ext
  intro id
  rw [hAB, hBA]
  by_cases hid : a.id = b.id
  · -- Both items join one row, whose sources are the same in either order.
    have hsources : (sourcesOf (ingestItem merge rows a) b.id).insert b.sourceId b =
        (sourcesOf (ingestItem merge rows b) a.id).insert a.sourceId a := by
      apply ext
      intro source
      rw [lookup_insert, lookup_insert, sourcesOf, sourcesOf, hA, hB,
        if_pos hid.symm, if_pos hid]
      simp only [Option.map_some, Option.getD_some, lookup_insert, hid]
      by_cases hb : source = b.sourceId
      · rw [if_pos hb, if_neg (by rw [hb]; exact hne.symm), if_pos hb]
      · rw [if_neg hb, if_neg hb]
    have hbest : bestAB = bestBA := by
      rw [hsources, hbestBA] at hbestAB
      exact (Option.some.inj hbestAB).symm
    by_cases h : id = b.id
    · rw [if_pos h, if_pos (h.trans hid.symm), hsources, hbest]
    · have h' : id ≠ a.id := fun heq => h (heq.trans hid)
      rw [if_neg h, if_neg h', hA, hB, if_neg h, if_neg h']
  · have hsourcesA : sourcesOf (ingestItem merge rows b) a.id = sourcesOf rows a.id := by
      rw [sourcesOf, hB, if_neg hid, sourcesOf]
    have hsourcesB : sourcesOf (ingestItem merge rows a) b.id = sourcesOf rows b.id := by
      rw [sourcesOf, hA, if_neg fun heq => hid heq.symm, sourcesOf]
    rw [hsourcesA, hbestA] at hbestBA
    rw [hsourcesB, hbestB] at hbestAB
    cases hbestBA
    cases hbestAB
    rw [hsourcesA, hsourcesB, hA, hB]
    by_cases ha : id = a.id
    · rw [if_neg fun hb => hid (ha.symm.trans hb), if_pos ha, if_pos ha]
    · rw [if_neg ha, if_neg ha]

theorem foldl_comm_of_forall {σ ι : Type} {f : σ → ι → σ} {b : ι} {xs : List ι}
    (h : ∀ x ∈ xs, ∀ s, f (f s b) x = f (f s x) b) (s : σ) :
    xs.foldl f (f s b) = f (xs.foldl f s) b := by
  induction xs generalizing s with
  | nil => rfl
  | cons x _ ih =>
    rw [List.foldl_cons, List.foldl_cons, h x List.mem_cons_self s]
    exact ih (fun y hy => h y (List.mem_cons_of_mem x hy)) _

theorem foldl_foldl_comm {σ ι : Type} {f : σ → ι → σ} {xs ys : List ι}
    (h : ∀ x ∈ xs, ∀ y ∈ ys, ∀ s, f (f s x) y = f (f s y) x) (s : σ) :
    ys.foldl f (xs.foldl f s) = xs.foldl f (ys.foldl f s) := by
  induction xs generalizing s with
  | nil => rfl
  | cons x _ ih =>
    rw [List.foldl_cons, List.foldl_cons, ih (fun z hz => h z (List.mem_cons_of_mem x hz))]
    rw [foldl_comm_of_forall fun y hy s => h x List.mem_cons_self y hy s]

/-- Different events contribute under different sources. -/
def OwnSources (feed : FlatFeed E C) (events : List E) : Prop :=
  ∀ e ∈ events, ∀ e' ∈ events, e ≠ e' →
    ∀ item ∈ feed.itemBuilder e, ∀ item' ∈ feed.itemBuilder e', item.sourceId ≠ item'.sourceId

theorem ingest_comm {events : List E} (hown : OwnSources feed events) {e e' : E} (he : e ∈ events)
    (he' : e' ∈ events) (st : FlatFeedState C) :
    ingest feed (ingest feed st e) e' = ingest feed (ingest feed st e') e := by
  by_cases heq : e = e'
  · rw [heq]
  · unfold ingest
    have hcomm := foldl_foldl_comm (f := ingestItem feed.merge) (fun item hitem item' hitem' rows =>
      ingestItem_comm rows (hown e he e' he' heq item hitem item' hitem')) st.rows
    by_cases ha : feed.predicate e = true <;> by_cases hb : feed.predicate e' = true <;>
      simp [ha, hb, hcomm]

/-- Two orders of the same ingests give the same feed. -/
theorem ingest_perm {events events' : List E} (h : events.Perm events')
    (hown : OwnSources feed events) (st : FlatFeedState C) :
    events.foldl (ingest feed) st = events'.foldl (ingest feed) st :=
  h.foldl_eq' (fun _ he _ he' st => ingest_comm hown he he' st) st

theorem start_sound (feed : FlatFeed E C) :
    Shows feed.merge feed.start.st.rows feed.start.live ∧ Heard feed.start :=
  ⟨shows_empty, List.Perm.nil⟩

/-- The feed shows its contributions in every run, and two orders of the same ingests agree; the
hook hears of every departure exactly where each reset finds the feed empty. -/
theorem flatFeed_iff_resetsEmpty (feed : FlatFeed E C) (hhook : feed.sourceRemoved = true) :
    (∀ ops : List (Op E C),
      (∀ ops', ops' <+: ops →
        Grouped feed.merge (run (watch feed) feed.start ops').st.rows
            (run (watch feed) feed.start ops').live ∧
          Heard (run (watch feed) feed.start ops')) ↔
        Meets (watch feed) ResetsEmpty feed.start ops) ∧
      ∀ (st : FlatFeedState C) (events events' : List E), events.Perm events' →
        OwnSources feed events →
          events.foldl (ingest feed) st = events'.foldl (ingest feed) st := by
  refine ⟨fun ops => ?_, fun st events events' hperm hown => ingest_perm hperm hown st⟩
  refine always_iff_meets (fun w => Shows feed.merge w.st.rows w.live ∧ Heard w)
    (fun w => Grouped feed.merge w.st.rows w.live ∧ Heard w) (fun w op hw _ hok => ?_)
    (fun w hw => ⟨hw.1.grouped, hw.2⟩) (fun w op hw _ hgood => ?_)
    (start_sound feed) (meets_of_forall (watch feed) (fun _ => True) _ ops fun _ _ => trivial)
  · obtain ⟨hshows, hiff⟩ := watch_iff hhook hw.1 hw.2 op
    exact ⟨hshows, hiff.mpr hok⟩
  · exact (watch_iff hhook hw.1 hw.2 op).2.mp hgood.2

/-- An event is its id and the id of the row it reposts; the newest source is shown. -/
def repostFeed : FlatFeed (String × String) String where
  predicate _ := true
  itemBuilder event := [⟨event.2, event.1, 1, "card of " ++ event.2⟩]
  merge shown item := shown.getD item
  windowPolicy := ⟨80, 500, .resetToInitial⟩
  sourceRemoved := true

theorem repost_removed :
    (run (watch repostFeed) repostFeed.start
        [.ingest ("repost", "note"), .ingest ("quote", "note"), .removeSource "note" "quote"]).left =
        ["quote"] ∧
      ∀ ops', ops' <+:
          [.ingest ("repost", "note"), .ingest ("quote", "note"), .removeSource "note" "quote"] →
        Grouped repostFeed.merge (run (watch repostFeed) repostFeed.start ops').st.rows
            (run (watch repostFeed) repostFeed.start ops').live ∧
          Heard (run (watch repostFeed) repostFeed.start ops') := by
  refine ⟨by decide +kernel, ?_⟩
  exact ((flatFeed_iff_resetsEmpty repostFeed rfl).1 _).mpr ⟨trivial, trivial, trivial, trivial⟩

/-- A reset drops a repost, and the hook does not hear of it. -/
theorem repost_reset : ¬ Heard (run (watch repostFeed) repostFeed.start
    [.ingest ("repost", "note"), .reset]) := by
  unfold Heard
  decide +kernel

end FeedLedger
