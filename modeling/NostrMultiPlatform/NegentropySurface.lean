import NostrMultiPlatform.NegentropyLocal

/-!
# The bound of a filter

A filter of ids, of replaceable coordinates or of addressable ones selects at most as
many events as it names, while a store holds one event for each coordinate and no
addressable event carries a second `d` value. A limit bounds what is read, not what
is selected.
-/
namespace NegentropySurface

open HashWalks KeyedFirsts NegentropyFilter NegentropyLocal QueryPaths StoreActions StoreEdits StoreEvent
open EligibleFilter
open StoreState StoreStep SubsAgreement SubsFilter

variable {f : EligibleFilter} {nostr : NostrCrate} {o : WalkOrder StoredEvent} {st : MemState}

/-- A store that holds one event for each replaceable and each addressable coordinate. -/
def OnePerCoordinate (evs : List RawEvent) : Prop :=
  ∀ a ∈ evs, ∀ b ∈ evs, a.kind = b.kind → a.pubkey = b.pubkey →
    isReplaceableKind a.kind = true ∨ (isAddressableKind a.kind = true ∧ a.dTag = b.dTag) → a = b

instance (evs : List RawEvent) : Decidable (OnePerCoordinate evs) := by
  unfold OnePerCoordinate
  infer_instance

/-- An addressable event carries no `d` value but that of its coordinate. -/
def OneD (evs : List RawEvent) : Prop :=
  ∀ ev ∈ evs, isAddressableKind ev.kind = true → ∀ row ∈ ev.tags, row[0]? = some "d" →
    ∀ value, row[1]? = some value → ev.dTag = some value

def selected (f : EligibleFilter) (evs : List RawEvent) : List RawEvent :=
  evs.filter fun ev => decide (Selects f ev)

theorem mem_selected {evs : List RawEvent} {ev : RawEvent} :
    ev ∈ selected f evs ↔ ev ∈ evs ∧ Selects f ev := by
  rw [selected, List.mem_filter, decide_eq_true_eq]

theorem nodup_stored (h : Rooted st) : (stored o st).Nodup :=
  (nodup_storedEvents h).map_on fun a ha b hb heq =>
    untied_storedEvents h a ha b hb (congrArg (·.id) heq)

section Bounds

variable {evs : List RawEvent}

theorem selected_ids (hids : ∀ a ∈ evs, ∀ b ∈ evs, a.id = b.id → a = b) (hnodup : evs.Nodup)
    (hne : f.ids ≠ []) : (selected f evs).length ≤ f.ids.length := by
  refine length_le_of_keys (·.id) (hnodup.filter _) (fun a ha b hb => ?_) fun a ha => ?_
  · exact hids a (mem_selected.mp ha).1 b (mem_selected.mp hb).1
  · exact (mem_selected.mp ha).2.ids hne

theorem selected_replaceable (hone : OnePerCoordinate evs) (hnodup : evs.Nodup)
    (hkey : f.isReplaceableAuthorKey = true) :
    (selected f evs).length ≤ f.authors.length * f.kinds.length := by
  simp only [isReplaceableAuthorKey, Bool.and_eq_true, Bool.not_eq_true',
    List.isEmpty_eq_false_iff, List.all_eq_true] at hkey
  obtain ⟨⟨hauthors, hkinds⟩, hclass⟩ := hkey
  have hreplaceable : ∀ ev ∈ selected f evs, isReplaceableKind ev.kind = true := by
    intro ev hev
    have hkind := hclass _ ((mem_selected.mp hev).2.kinds hkinds)
    simp only [Bool.or_eq_true, Bool.and_eq_true, beq_iff_eq, decide_eq_true_eq] at hkind
    simp only [isReplaceableKind, Bool.or_eq_true, Bool.and_eq_true, beq_iff_eq, decide_eq_true_eq]
    omega
  rw [← List.length_product]
  refine length_le_of_keys (fun ev => (ev.pubkey, ev.kind)) (hnodup.filter _)
    (fun a ha b hb heq => ?_) fun a ha => ?_
  · exact hone a (mem_selected.mp ha).1 b (mem_selected.mp hb).1 (congrArg Prod.snd heq)
      (congrArg Prod.fst heq) (.inl (hreplaceable a ha))
  · have hsel := (mem_selected.mp ha).2
    exact List.mem_product.mpr ⟨hsel.authors hauthors, hsel.kinds hkinds⟩

theorem selected_addressable (hone : OnePerCoordinate evs) (honeD : OneD evs) (hnodup : evs.Nodup)
    {dValues : List String} (hd : f.tags.lookup "d" = some dValues)
    (hkey : f.isAddressableAuthorDKey = true) :
    (selected f evs).length ≤ f.authors.length * f.kinds.length * dValues.length := by
  simp only [isAddressableAuthorDKey, hd, Option.any_some, Bool.and_eq_true,
    Bool.not_eq_true', List.isEmpty_eq_false_iff, List.all_eq_true] at hkey
  obtain ⟨⟨⟨hauthors, hkinds⟩, hvalues⟩, hclass⟩ := hkey
  have haddressable : ∀ ev ∈ selected f evs, isAddressableKind ev.kind = true := by
    intro ev hev
    have hkind := hclass _ ((mem_selected.mp hev).2.kinds hkinds)
    simp only [decide_eq_true_eq] at hkind
    simp only [isAddressableKind, Bool.and_eq_true, decide_eq_true_eq]
    omega
  have hcoordinate : ∀ ev ∈ selected f evs, ev.dTag ∈ dValues.map some := by
    intro ev hev
    obtain ⟨hmem, hsel⟩ := mem_selected.mp hev
    obtain ⟨before, after, hsplit, -⟩ := List.lookup_eq_some_iff.mp hd
    have htag : ("d", dValues) ∈ f.tags := by
      rw [hsplit]
      exact List.mem_append_right _ List.mem_cons_self
    obtain ⟨row, hrow, hname, value, hvalue, hcarried⟩ := hsel.tags _ htag hvalues
    rw [honeD ev hmem (haddressable ev hev) row hrow hname value hcarried]
    exact List.mem_map_of_mem hvalue
  have hlength : (dValues.map some).length = dValues.length := List.length_map _
  rw [← hlength, ← List.length_product, ← List.length_product]
  refine length_le_of_keys (fun ev => ((ev.pubkey, ev.kind), ev.dTag)) (hnodup.filter _)
    (fun a ha b hb heq => ?_) fun a ha => ?_
  · simp only [Prod.mk.injEq] at heq
    exact hone a (mem_selected.mp ha).1 b (mem_selected.mp hb).1 heq.1.2 heq.1.1
      (.inr ⟨haddressable a ha, heq.2⟩)
  · have hsel := (mem_selected.mp ha).2
    exact List.mem_product.mpr ⟨List.mem_product.mpr ⟨hsel.authors hauthors, hsel.kinds hkinds⟩,
      hcoordinate a ha⟩

end Bounds

/-- The bound known so far, if any, holds of the number. -/
def Within (len : Nat) (known : Option Nat) : Prop := ∀ max, known = some max → len ≤ max

theorem Within.minKnown {len candidate : Nat} {known : Option Nat} (h : Within len known)
    (hcandidate : len ≤ candidate) : Within len (minKnown known candidate) := by
  intro max hmax
  cases known with
  | none =>
    cases hmax
    exact hcandidate
  | some current =>
    cases hmax
    exact le_min (h current rfl) hcandidate

theorem Within.ite {len candidate : Nat} {known : Option Nat} {c : Bool} (h : Within len known)
    (hcandidate : c = true → len ≤ candidate) :
    Within len (if c then NegentropyFilter.minKnown known candidate else known) := by
  split
  next hc => exact h.minKnown (hcandidate hc)
  next => exact h

theorem le_saturatingMul {len a b : Nat} (hfits : len < 2 ^ 64) (h : len ≤ a * b) :
    len ≤ saturatingMul a b := le_min h (by omega)

theorem le_saturatingMul_twice {len a b d : Nat} (hfits : len < 2 ^ 64) (h : len ≤ a * b * d) :
    len ≤ saturatingMul (saturatingMul a b) d := by
  refine le_saturatingMul hfits ?_
  unfold saturatingMul
  rcases le_total (a * b) (2 ^ 64 - 1) with hab | hab
  · rwa [min_eq_left hab]
  · rw [min_eq_right hab]
    -- a factor is saturated, and the other is not zero unless the bound is
    rcases Nat.eq_zero_or_pos d with rfl | hd
    · exact h
    · exact (Nat.le_sub_one_of_lt hfits).trans (Nat.le_mul_of_pos_right _ hd)

/-- A number within every bound that applies is within the surface. -/
theorem le_surface {len n : Nat} (hsurface : f.resultSurface = .knownMax n)
    (hids : f.ids ≠ [] → len ≤ f.ids.length)
    (hreplaceable : f.isReplaceableAuthorKey = true →
      len ≤ saturatingMul f.authors.length f.kinds.length)
    (haddressable : ∀ dValues, f.tags.lookup "d" = some dValues →
      f.isAddressableAuthorDKey = true →
        len ≤ saturatingMul (saturatingMul f.authors.length f.kinds.length) dValues.length)
    (hlimit : ∀ limit, f.limit = some limit → len ≤ limit) : len ≤ n := by
  unfold EligibleFilter.resultSurface at hsurface
  dsimp only at hsurface
  split at hsurface
  next => cases hsurface
  next hmax =>
    rw [ResultSurface.knownMax.inj hsurface] at hmax
    obtain ⟨known, hwithin, heq⟩ : ∃ known, Within len known ∧
        f.limit.elim known (minKnown known) = some n := by
      rw [← hmax]
      have hnamed : Within len (if f.ids.isEmpty then none else some f.ids.length) := by
        intro max hmax
        split at hmax
        next => cases hmax
        next hne =>
          cases hmax
          exact hids (by simpa using hne)
      cases hd : f.tags.lookup "d" with
      | none => exact ⟨_, hnamed.ite hreplaceable, by cases f.limit <;> rfl⟩
      | some dValues =>
        exact ⟨_, (hnamed.ite hreplaceable).ite (haddressable dValues hd), by cases f.limit <;> rfl⟩
    cases hlim : f.limit with
    | none =>
      rw [hlim] at heq
      exact hwithin _ heq
    | some limit =>
      rw [hlim] at heq
      exact hwithin.minKnown (hlimit limit hlim) _ heq

/-- What is selected is within the surface where it is within the limit. -/
theorem le_surface_of_selected (c : Content) {n : Nat} (hsurface : f.resultSurface = .knownMax n)
    (hone : OnePerCoordinate (stored o c.st)) (honeD : OneD (stored o c.st)) {len : Nat}
    (hlen : len ≤ (selected f (stored o c.st)).length)
    (hlimit : ∀ limit, f.limit = some limit → len ≤ limit) : len ≤ n := by
  have hroot := c.reachable.rooted
  have hnodup := nodup_stored (o := o) hroot
  have hids : ∀ a ∈ stored o c.st, ∀ b ∈ stored o c.st, a.id = b.id → a = b := by
    intro a ha b hb heq
    obtain ⟨row, hrow, rfl⟩ := mem_stored.mp ha
    obtain ⟨row', hrow', rfl⟩ := mem_stored.mp hb
    rw [untied_storedEvents hroot row hrow row' hrow' heq]
  have hfits : len < 2 ^ 64 := by
    have hlength : (stored o c.st).length = c.st.events.entries.length := by
      rw [stored, List.length_map, storedEvents, (o.perm _).length_eq, Tables.values,
        List.length_map]
    exact (hlen.trans (List.length_filter_le _ _)).trans_lt (hlength ▸ c.fits)
  refine le_surface hsurface (fun hne => hlen.trans (selected_ids hids hnodup hne))
    (fun hkey => le_saturatingMul hfits (hlen.trans (selected_replaceable hone hnodup hkey)))
    (fun dValues hd hkey => le_saturatingMul_twice hfits
      (hlen.trans (selected_addressable hone honeD hnodup hd hkey))) hlimit

/-- The items of exact ones are no more than the selected events. -/
theorem length_exact {evs : List RawEvent} {items : List SyncedItem} (h : Exact f evs items) :
    items.length ≤ (selected f evs).length := by
  have hlength : ((selected f evs).map (·.idBytes)).length = (selected f evs).length :=
    List.length_map _
  rw [← hlength]
  refine length_le_of_keys (fun item => some item.id) h.distinct.of_map (fun a ha b hb heq => ?_)
    fun item hitem => ?_
  · exact List.inj_on_of_nodup_map h.distinct ha hb (Option.some.inj heq)
  · obtain ⟨⟨ev, hev, hselects, hbytes, -⟩, -⟩ := (h.mem item).mp hitem
    exact List.mem_map.mpr ⟨ev, mem_selected.mpr ⟨hev, hselects⟩, hbytes⟩

theorem length_truncated (limit : Option Nat) (items : List SyncedItem) :
    (truncated limit items).length ≤ items.length ∧
      ∀ l, limit = some l → (truncated limit items).length ≤ l := by
  cases limit with
  | none => exact ⟨le_rfl, nofun⟩
  | some =>
    refine ⟨List.length_take_le' _ _, fun l' hl => ?_⟩
    obtain rfl := Option.some.inj hl
    exact List.length_take_le _ _

/-- The filter without its limit. -/
def unlimited (f : EligibleFilter) : EligibleFilter := { f with limit := none }

theorem selected_unlimited (evs : List RawEvent) : selected (unlimited f) evs = selected f evs := by
  refine List.filter_congr fun ev _ => ?_
  rw [decide_eq_decide, ← matches_iff, ← matches_iff]
  rfl

/-- For every accepted filter with ids and authors in lower case, over every content of the store
and every order of its table: the items are those of the selected events, each id once, in order
and up to the limit, whichever query was picked. A store with one event for each coordinate and no
second `d` value on an addressable event gives no more items than the surface, and selects no more
events than the surface of the filter without its limit. -/
theorem local_side_exact (hdoc : Documented nostr) (o : WalkOrder StoredEvent) (c : Content)
    {value : Option Json} (hparse : parse value = .ok f) (hlower : LowerCase f) :
    ∃ items, Exact f (stored o c.st) items ∧
      f.localItems (memoryStore nostr o c.st) = .ok (truncated f.limit items) ∧
      (OnePerCoordinate (stored o c.st) → OneD (stored o c.st) →
        (∀ n, f.resultSurface = .knownMax n → (truncated f.limit items).length ≤ n) ∧
        ∀ n, (unlimited f).resultSurface = .knownMax n →
          (selected f (stored o c.st)).length ≤ n) := by
  obtain ⟨items, hexact, hitems⟩ := localItems_exact hdoc o c hparse hlower
  refine ⟨items, hexact, hitems, fun hone honeD => ⟨fun n hsurface => ?_, fun n hsurface => ?_⟩⟩
  · obtain ⟨hle, hcapped⟩ := length_truncated f.limit items
    exact le_surface_of_selected c hsurface hone honeD (hle.trans (length_exact hexact)) hcapped
  · exact le_surface_of_selected c hsurface hone honeD
      (congrArg List.length (selected_unlimited _)).ge nofun

def firstArticle : Arrival :=
  arrivalOf '1' 'a' 10 30023 [["d", "x"], ["d", "z"]]

def secondArticle : Arrival :=
  arrivalOf '2' 'a' 20 30023 [["d", "y"], ["d", "z"]]

theorem run_articles : Runs.run act .new [.insert firstArticle, .insert secondArticle] =
    accept (accept .new firstArticle) secondArticle := by
  have hfirst : Admitted firstArticle :=
    admitted_arrivalOf (by decide) (by decide) (by decide +kernel)
  have hsecond : Admitted secondArticle :=
    admitted_arrivalOf (by decide) (by decide) (by decide +kernel)
  rw [Runs.run_cons, Runs.run_cons, Runs.run_nil, act_admitted hfirst, act_admitted hsecond]

/-- Each has a `d` value of its own, and both carry the same second one. -/
def articles : Content where
  st := Runs.run act .new [.insert firstArticle, .insert secondArticle]
  reachable := ⟨_, rfl⟩
  fits := by
    rw [run_articles]
    decide +kernel

theorem stored_articles :
    stored .sorted articles.st = [secondArticle.event, firstArticle.event] := by
  simp only [articles, run_articles]
  decide +kernel

def newestArticle : List (String × Json) :=
  [("kinds", .array [.uint 30023]), ("limit", .uint 1)]

def newestFilter : EligibleFilter := ⟨newestArticle, [], [], [30023], [], none, none, some 1⟩

theorem parse_newestArticle : parse (some (.object newestArticle)) =
    .ok newestFilter := rfl

/-- The articles of the author under the value that both carry. -/
def sharedArticle : List (String × Json) :=
  [("authors", .array [.string (digitKey 'a')]), ("kinds", .array [.uint 30023]),
    ("#d", .array [.string "z"])]

def sharedFilter : EligibleFilter :=
  ⟨sharedArticle, [], [digitKey 'a'], [30023], [("d", ["z"])], none, none, none⟩

theorem parse_sharedArticle : parse (some (.object sharedArticle)) =
    .ok sharedFilter := rfl

theorem newest_article_exact : ∃ items, Exact newestFilter (stored .sorted articles.st) items ∧
    newestFilter.localItems (memoryStore documentedCrate .sorted articles.st) =
      .ok (truncated (some 1) items) ∧
    (OnePerCoordinate (stored .sorted articles.st) → OneD (stored .sorted articles.st) →
      (∀ n, newestFilter.resultSurface = .knownMax n → (truncated (some 1) items).length ≤ n) ∧
      ∀ n, (unlimited newestFilter).resultSurface = .knownMax n →
        (selected newestFilter (stored .sorted articles.st)).length ≤ n) :=
  local_side_exact documentedCrate_documented .sorted articles parse_newestArticle (by decide)

/-- The store has one event for each coordinate, and both filters have a surface of one; each
selects both articles. -/
theorem surface_exceeded : OnePerCoordinate (stored .sorted articles.st) ∧
    (parse (some (.object newestArticle)) = .ok newestFilter ∧
      LowerCase newestFilter ∧ newestFilter.resultSurface = .knownMax 1 ∧
      (selected newestFilter (stored .sorted articles.st)).length = 2) ∧
    parse (some (.object sharedArticle)) = .ok sharedFilter ∧
      LowerCase sharedFilter ∧ sharedFilter.resultSurface = .knownMax 1 ∧
      (selected sharedFilter (stored .sorted articles.st)).length = 2 := by
  rw [stored_articles]
  exact ⟨by decide +kernel,
    ⟨parse_newestArticle, by decide +kernel, by decide +kernel, by decide +kernel⟩,
    parse_sharedArticle, by decide +kernel, by decide +kernel, by decide +kernel⟩

end NegentropySurface
