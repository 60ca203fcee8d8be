import NostrMultiPlatform.SubsAgreement

/-!
# Filters that are wider than their shape

Keys that are no hex leave the filter object one by one, and a field that loses
all its keys leaves it as well, which relays read as open. Kinds keep their low
sixteen bits.
-/
namespace SubsWidening

open Sorted PlannerShape PlannerMerge SubsFilter SubsAgreement

/-- The event has an author, an id and a kind of the shape. -/
structure Named (shape : InterestShape) (e : Event) : Prop where
  author : shape.authors = ∅ ∨ e.author ∈ shape.authors
  id : shape.eventIds = ∅ ∨ e.id ∈ shape.eventIds
  kind : shape.kinds = ∅ ∨ e.kind ∈ shape.kinds

/-- Some key is hex, and each that is stays in the set in lower case. -/
def KeepsKeys (keys : SortedSet String) : Prop :=
  keys = ∅ ∨ (∃ s ∈ keys, hex64 s = true) ∧ ∀ s ∈ keys, hex64 s = true → lower s ∈ keys

/-- A tag row of a single letter has no values, and no coordinate adds one. -/
def Unanswered (shape : InterestShape) : Prop :=
  ∃ c, isLetter c = true ∧ shape.tags.lookup (String.ofList [c]) = some ∅ ∧
    (c = 'a' → ∀ coord ∈ shape.addresses, hex64 coord.pubkey = false)

variable {nostr : NostrCrate} {shape : InterestShape} {e : Event} {x : String}
  {keys : SortedSet String} {kinds : SortedSet Nat} {k : Nat}

/-- The field lets the key through. -/
def Passes (keys : SortedSet String) (x : String) : Prop :=
  ∀ xs, parsed fromHex keys.elems = some xs → x ∈ xs

theorem passes_iff :
    Passes keys x ↔ (∀ s ∈ keys, hex64 s = false) ∨ ∃ s ∈ keys, hex64 s = true ∧ lower s = x := by
  have hmem : x ∈ keys.elems.filterMap fromHex ↔ ∃ s ∈ keys, hex64 s = true ∧ lower s = x := by
    simp [fromHex]
  have hnone : parsed fromHex keys.elems = none ↔ ∀ s ∈ keys, hex64 s = false := by
    rw [parsed_eq_none]
    simp [fromHex]
  rw [← hmem, ← hnone, Passes]
  cases h : parsed fromHex keys.elems with
  | none => simp
  | some xs => simp [← (parsed_eq_some.mp h).1]

/-- A field without hex lets through all keys, else it lets through its own. -/
theorem keepsKeys_iff : (∀ x, Passes keys x → keys = ∅ ∨ x ∈ keys) ↔ KeepsKeys keys := by
  simp only [passes_iff]
  by_cases hempty : keys = ∅
  · simp [KeepsKeys, hempty]
  constructor
  · intro h
    have hin : ∀ s ∈ keys, hex64 s = true → lower s ∈ keys := fun s hs hhex =>
      (h _ (.inr ⟨s, hs, hhex, rfl⟩)).resolve_left hempty
    refine .inr ⟨?_, hin⟩
    by_contra hnone
    push Not at hnone
    have halice : alice ∈ keys :=
      (h alice (.inl fun s hs => Bool.eq_false_iff.mpr (hnone s hs))).resolve_left hempty
    exact hnone alice halice (by decide +kernel)
  · rintro (h | ⟨⟨s, hs, hhex⟩, hin⟩) x (hnone | ⟨s', hs', hhex', rfl⟩)
    · exact .inl h
    · exact .inl h
    · cases hhex.symm.trans (hnone s hs)
    · exact .inr (hin s' hs' hhex')

theorem exists_passes (keys : SortedSet String) : ∃ x, Passes keys x := by
  by_cases h : ∃ s ∈ keys, hex64 s = true
  · obtain ⟨s, hs, hhex⟩ := h
    exact ⟨lower s, passes_iff.mpr (.inr ⟨s, hs, hhex, rfl⟩)⟩
  · push Not at h
    exact ⟨"", passes_iff.mpr (.inl fun s hs => Bool.eq_false_iff.mpr (h s hs))⟩

/-- The kinds let the kind through. -/
def PassesKind (kinds : SortedSet Nat) (k : Nat) : Prop :=
  kinds = ∅ ∨ ∃ kind ∈ kinds, kindOf kind = k

theorem exists_passesKind (kinds : SortedSet Nat) : ∃ k, PassesKind kinds k := by
  obtain ⟨k, h | h⟩ := exists_allowed kinds 0
  · exact ⟨k, .inl h⟩
  · exact ⟨kindOf k, .inr ⟨k, h, rfl⟩⟩

theorem keepsKinds_iff :
    (∀ k, PassesKind kinds k → kinds = ∅ ∨ k ∈ kinds) ↔ ∀ kind ∈ kinds, kind % 65536 ∈ kinds := by
  constructor
  · intro h kind hkind
    exact (h _ (.inr ⟨kind, hkind, rfl⟩)).resolve_left (SortedSet.ne_empty_iff.mpr ⟨kind, hkind⟩)
  · rintro h k (hempty | ⟨kind, hkind, rfl⟩)
    · exact .inl hempty
    · exact .inr (h kind hkind)

/-- Some letter is asked for without values exactly where a tag row has none. -/
theorem lookup_empty_iff (hdoc : Documented nostr) :
    (∃ c, (genericTags (filterFor nostr shape)).lookup c = some ∅) ↔ Unanswered shape := by
  have hcoords : (filterFor nostr shape).coordinates = none ↔
      ∀ coord ∈ shape.addresses, hex64 coord.pubkey = false := by
    refine parsed_eq_none.trans (forall₂_congr fun coord _ => ?_)
    simp [coordinate, hdoc.publicKeyFromHex, fromHex]
  have hcalls : ∀ call, call ∈ tagCalls (filterFor nostr shape) ↔ _ := fun call =>
    List.mem_append.trans (or_congr (mem_customTags hdoc) Option.mem_toList)
  constructor
  · rintro ⟨c, hlookup⟩
    have hnone : ∀ call ∈ tagCalls (filterFor nostr shape), call.1 = c → call.2 = [] :=
      fun call hcall hc => List.eq_nil_iff_forall_not_mem.mpr fun v hv => by
        have := mem_genericTags.mpr ⟨call, hcall, hc, hv⟩
        rw [hlookup] at this
        exact SortedSet.not_mem_empty v this
    have hopen : ∀ cs, (filterFor nostr shape).coordinates = some cs → c ≠ 'a' := by
      intro cs hcs hc
      have hcall := hnone ('a', cs.map Coordinate.display) ((hcalls _).mpr (.inr (by simp [hcs]))) hc.symm
      exact (parsed_eq_some.mp hcs).2 (List.map_eq_nil_iff.mp hcall)
    obtain ⟨call, hcall, rfl⟩ := genericTags_isSome.mp ⟨_, hlookup⟩
    have hempty := hnone call hcall rfl
    obtain ⟨hletter, values, hvalues, heq⟩ | hcoord := (hcalls call).mp hcall
    · rw [hempty] at heq
      obtain rfl := SortedSet.elems_eq_nil.mp heq.symm
      refine ⟨call.1, hletter, hvalues, fun hc => hcoords.mp ?_⟩
      exact Option.eq_none_iff_forall_ne_some.mpr fun cs hcs => hopen cs hcs hc
    · obtain ⟨cs, hcs, rfl⟩ := Option.map_eq_some_iff.mp hcoord
      exact absurd rfl (hopen cs hcs)
  · rintro ⟨c, hletter, hvalues, hcoord⟩
    obtain ⟨values, hlookup⟩ := genericTags_isSome.mpr
      ⟨(c, []), (hcalls _).mpr (.inl ⟨hletter, ∅, hvalues, rfl⟩), rfl⟩
    refine ⟨c, hlookup.trans (congrArg some (SortedSet.eq_empty_iff.mpr fun v hv => ?_))⟩
    obtain ⟨call, hcall, hc, hmem⟩ := mem_genericTags.mp (by rwa [hlookup] : v ∈ (_ : Option _).getD ∅)
    obtain ⟨-, values', hvalues', heq⟩ | hcall := (hcalls call).mp hcall
    · rw [hc, hvalues] at hvalues'
      cases hvalues'
      rw [heq] at hmem
      cases hmem
    · obtain ⟨cs, hcs, rfl⟩ := Option.map_eq_some_iff.mp hcall
      rw [hcoords.mpr (hcoord hc.symm)] at hcs
      cases hcs

/-- The object accepts an event field by field. -/
theorem accepts_iff_passes (hdoc : Documented nostr) :
    accepts (filterJsonFor nostr shape) e = true ↔
      Passes shape.eventIds e.id ∧ Passes shape.authors e.author ∧ PassesKind shape.kinds e.kind ∧
      (∀ t ∈ shape.since, t ≤ e.createdAt) ∧ (∀ t ∈ shape.until_, e.createdAt ≤ t) ∧
      ∀ c, (∃ values, (genericTags (filterFor nostr shape)).lookup c = some values) →
        Carries e.tags (String.ofList [c])
          (· ∈ ((genericTags (filterFor nostr shape)).lookup c).getD ∅) := by
  have hkinds : (∀ ks, (if shape.kinds = ∅ then none else some (shape.kinds.elems.map kindOf)) =
      some ks → e.kind ∈ ks) ↔ PassesKind shape.kinds e.kind := by
    rw [PassesKind]
    by_cases h : shape.kinds = ∅
    · simp [h]
    · simp [h]
  rw [accepts_filterJsonFor hdoc, hkinds]
  rfl

/-- A relay can answer: some time lies between the bounds, and each letter has a value. -/
theorem exists_answer (hdoc : Documented nostr) (hwindow : Window shape)
    (hanswered : ¬ Unanswered shape) {id author : String} (hid : Passes shape.eventIds id)
    (hauthor : Passes shape.authors author) (hk : PassesKind shape.kinds k) :
    ∃ e, accepts (filterJsonFor nostr shape) e = true ∧ e.id = id ∧ e.author = author ∧
      e.kind = k := by
  obtain ⟨hsince, huntil⟩ := sample_in_window hwindow id author k []
  let rows := (genericTags (filterFor nostr shape)).rows.flatMap fun row =>
    row.2.elems.map fun v => [String.ofList [row.1], v]
  refine ⟨⟨id, author, k, shape.since.getD 0, rows⟩, (accepts_iff_passes hdoc).mpr
    ⟨hid, hauthor, hk, hsince, huntil, fun c ⟨values, hlookup⟩ => ?_⟩, rfl, rfl, rfl⟩
  have hne : values ≠ ∅ := fun heq => hanswered ((lookup_empty_iff hdoc).mp ⟨c, heq ▸ hlookup⟩)
  obtain ⟨v, hv⟩ := SortedSet.ne_empty_iff.mp hne
  exact ⟨_, List.mem_flatMap.mpr ⟨_, SortedMap.lookup_eq_some.mp hlookup, List.mem_map.mpr
    ⟨v, hv, rfl⟩⟩, rfl, v, rfl, by rwa [hlookup]⟩

theorem not_accepts (hdoc : Documented nostr) (h : ¬ Window shape ∨ Unanswered shape) :
    ¬ accepts (filterJsonFor nostr shape) e = true := by
  rw [accepts_iff_passes hdoc]
  rintro ⟨-, -, -, hsince, huntil, htags⟩
  rcases h with hwindow | hempty
  · exact hwindow fun since hs until_ hu => (hsince since hs).trans (huntil until_ hu)
  · obtain ⟨c, hlookup⟩ := (lookup_empty_iff hdoc).mpr hempty
    obtain ⟨_, _, _, v, _, hv⟩ := htags c ⟨_, hlookup⟩
    rw [hlookup] at hv
    exact SortedSet.not_mem_empty v hv

/-- Relays answer within the shape exactly where its keys and kinds are kept, or where they cannot
answer. -/
theorem answers_named_iff (nostr : NostrCrate) (hdoc : Documented nostr) (shape : InterestShape) :
    (∀ e, accepts (filterJsonFor nostr shape) e = true → Named shape e) ↔
      (¬ Window shape ∨ Unanswered shape) ∨
        (KeepsKeys shape.authors ∧ KeepsKeys shape.eventIds ∧
          ∀ kind ∈ shape.kinds, kind % 65536 ∈ shape.kinds) := by
  rw [← keepsKeys_iff, ← keepsKeys_iff, ← keepsKinds_iff]
  constructor
  · refine fun h => or_iff_not_imp_left.mpr fun hsilent => ?_
    obtain ⟨hwindow, hanswered⟩ := not_or.mp hsilent
    rw [not_not] at hwindow
    obtain ⟨author, hauthor⟩ := exists_passes shape.authors
    obtain ⟨id, hid⟩ := exists_passes shape.eventIds
    obtain ⟨kind, hkind⟩ := exists_passesKind shape.kinds
    refine ⟨fun x hx => ?_, fun x hx => ?_, fun k hk => ?_⟩
    · obtain ⟨e, he, -, rfl, -⟩ := exists_answer hdoc hwindow hanswered hid hx hkind
      exact (h e he).author
    · obtain ⟨e, he, rfl, -, -⟩ := exists_answer hdoc hwindow hanswered hx hauthor hkind
      exact (h e he).id
    · obtain ⟨e, he, -, -, rfl⟩ := exists_answer hdoc hwindow hanswered hid hauthor hk
      exact (h e he).kind
  · rintro (hsilent | ⟨hauthors, hids, hkinds⟩) e he
    · exact absurd he (not_accepts hdoc hsilent)
    · obtain ⟨hid, hauthor, hk, -⟩ := (accepts_iff_passes hdoc).mp he
      exact ⟨hauthors _ hauthor, hids _ hid, hkinds _ hk⟩

/-- Some notes answer, and only tagged notes of alice. -/
theorem answers_named_iff_tagged :
    accepts (filterJsonFor documentedCrate tagged) ⟨"", alice, 1, 0, [["t", "nostr"]]⟩ = true ∧
      ∀ e, accepts (filterJsonFor documentedCrate tagged) e = true → Named tagged e := by
  refine ⟨by decide +kernel,
    (answers_named_iff documentedCrate documentedCrate_documented tagged).mpr (.inr ?_)⟩
  refine ⟨.inr ⟨⟨alice, by decide +kernel, by decide +kernel⟩, fun s hs _ => ?_⟩, .inl rfl, ?_⟩
  · rw [SortedSet.mem_singleton.mp hs]
    decide +kernel
  · intro kind hkind
    rw [SortedSet.mem_singleton.mp hkind]
    decide

/-- One author, whose key is cut short. -/
def cutShort : InterestShape := { InterestShape.default with authors := {"abc"} }

/-- The notes of any other author answer the shape. -/
theorem cutShort_answered_by_others :
    accepts (filterJsonFor documentedCrate cutShort) ⟨alice, alice, 1, 0, []⟩ = true ∧
      ¬ Named cutShort ⟨alice, alice, 1, 0, []⟩ :=
  ⟨by decide +kernel, fun h => absurd h.author (by decide +kernel)⟩

end SubsWidening
