import NostrMultiPlatform.StoreIndexes
import NostrMultiPlatform.StoreReplica

/-!
# The full-text index

What each scope files of the stored rows. In every reachable state a document is
filed for a row that is stored; every row is filed as long as no kind 5 event has
words for a scope, scopes are installed before the rows they index, and no event
is stored under a second spelling of its id.
-/
namespace StoreSearch

open PostingIndex StoreEvent StoreText StoreState StoreInsert StoreGc StoreStep StoreEdits FtsState
open StoreActions StoreIndexes StoreReplica Tables Runs

abbrev Content := SearchDocumentKey → Option (Record String (Nat × Nat))

/-- What a scope files of a row. -/
def filing (fts : FtsState) (scopeId : Nat) (row : StoredEvent) :
    Option (Record String (Nat × Nat)) :=
  match fts.specs.lookup scopeId with
  | none => none
  | some spec =>
    if row.raw.kind ∈ spec.kinds ∧ docTokens fts.text spec row ≠ [] then
      some ⟨revCreatedAt row.raw.createdAt, (row.raw.kind, row.raw.createdAt),
        docTokens fts.text spec row⟩
    else none

theorem filing_eq_some {fts : FtsState} {scopeId : Nat} {row : StoredEvent}
    {record : Record String (Nat × Nat)} : filing fts scopeId row = some record ↔
      ∃ spec, fts.specs.lookup scopeId = some spec ∧ row.raw.kind ∈ spec.kinds ∧
        docTokens fts.text spec row ≠ [] ∧ record = ⟨revCreatedAt row.raw.createdAt,
          (row.raw.kind, row.raw.createdAt), docTokens fts.text spec row⟩ := by
  unfold filing
  cases hspec : fts.specs.lookup scopeId with
  | none => simp
  | some =>
    simp only [Option.some.injEq, exists_eq_left']
    split
    next h => simp [h, eq_comm]
    next h =>
      constructor
      · intro hnone
        cases hnone
      · rintro ⟨hkind, htokens, -⟩
        exact absurd ⟨hkind, htokens⟩ h

theorem filing_congr {fts fts' : FtsState} (htext : fts'.text = fts.text)
    (hspecs : fts'.specs = fts.specs) (scopeId : Nat) (row : StoredEvent) :
    filing fts' scopeId row = filing fts scopeId row := by
  unfold filing
  rw [htext, hspecs]

def scopeIndex (fts : FtsState) (scopeId : Nat) : ScopeIndex :=
  (fts.indices.lookup scopeId).getD Index.empty

/-- The content with a document filed anew where there is something to file. -/
def refiled (content : Content) (doc : SearchDocumentKey)
    (record : Option (Record String (Nat × Nat))) : Content :=
  fun d => if d = doc then record.or (content d) else content d

theorem refiled_none (content : Content) (doc : SearchDocumentKey) :
    refiled content doc none = content := by
  funext d
  simp [refiled]

theorem refiled_twice (content : Content) (doc : SearchDocumentKey)
    (record : Option (Record String (Nat × Nat))) :
    refiled (refiled content doc record) doc record = refiled content doc record := by
  funext d
  unfold refiled
  split
  · cases record <;> rfl
  · rfl

section Add

variable (stored : StoredEvent) (doc : SearchDocumentKey)

theorem addToScope_specs (fts : FtsState) (scopeId : Nat) :
    (addToScope stored doc fts scopeId).specs = fts.specs := by
  unfold addToScope
  split
  · rfl
  · split <;> rfl

theorem addToScope_text (fts : FtsState) (scopeId : Nat) :
    (addToScope stored doc fts scopeId).text = fts.text := by
  unfold addToScope
  split
  · rfl
  · split <;> rfl

/-- Filing under one scope leaves the others alone. -/
theorem represents_addToScope {fts : FtsState} {scopeId s : Nat} {content : Content}
    (hkind : ∀ spec, fts.specs.lookup scopeId = some spec → stored.raw.kind ∈ spec.kinds)
    (h : Represents (scopeIndex fts s) content) :
    Represents (scopeIndex (addToScope stored doc fts scopeId) s)
      (if s = scopeId then refiled content doc (filing fts s stored) else content) := by
  unfold addToScope
  cases hspec : fts.specs.lookup scopeId with
  | none =>
    dsimp only
    by_cases hs : s = scopeId
    · have hnone : filing fts s stored = none := by rw [filing, hs, hspec]
      rwa [if_pos hs, hnone, refiled_none]
    · rwa [if_neg hs]
  | some spec =>
    dsimp only
    by_cases htokens : docTokens fts.text spec stored = []
    · rw [if_pos htokens]
      by_cases hs : s = scopeId
      · have hnone : filing fts s stored = none := by
          rw [filing, hs, hspec]
          exact if_neg fun hfiles => hfiles.2 htokens
        rwa [if_pos hs, hnone, refiled_none]
      · rwa [if_neg hs]
    · rw [if_neg htokens]
      by_cases hs : s = scopeId
      · subst hs
        have hsome : filing fts s stored = some ⟨revCreatedAt stored.raw.createdAt,
            (stored.raw.kind, stored.raw.createdAt), docTokens fts.text spec stored⟩ := by
          rw [filing, hspec]
          exact if_pos ⟨hkind spec hspec, htokens⟩
        rw [if_pos rfl, hsome, scopeIndex, lookup_insert_eq, if_pos rfl, Option.getD_some]
        refine (h.addDoc doc _ _ _).congr fun d => ?_
        unfold refiled
        split <;> rfl
      · rwa [if_neg hs, scopeIndex, lookup_insert_eq, if_neg hs]

theorem represents_foldl_addToScope {ids : List Nat} {fts : FtsState} {s : Nat} {content : Content}
    (hkind : ∀ scopeId ∈ ids, ∀ spec, fts.specs.lookup scopeId = some spec →
      stored.raw.kind ∈ spec.kinds)
    (h : Represents (scopeIndex fts s) content) :
    Represents (scopeIndex (ids.foldl (addToScope stored doc) fts) s)
      (if s ∈ ids then refiled content doc (filing fts s stored) else content) := by
  induction ids generalizing fts content with
  | nil => simpa using h
  | cons scopeId _ ih =>
    have hfirst := represents_addToScope stored doc (hkind scopeId List.mem_cons_self) h
    have hspecs := addToScope_specs stored doc fts scopeId
    have hrest := ih (by
      rw [hspecs]
      exact fun other hother => hkind other (List.mem_cons_of_mem _ hother)) hfirst
    rw [filing_congr (addToScope_text stored doc fts scopeId) hspecs] at hrest
    rw [List.foldl_cons]
    refine hrest.congr fun d => ?_
    by_cases hs : s = scopeId
    · rw [if_pos (hs ▸ List.mem_cons_self), if_pos hs]
      split
      · rw [refiled_twice]
      · rfl
    · simp only [List.mem_cons, hs, false_or, if_false]

end Add

/-- Scopes are installed under their own ids. -/
def Keyed (fts : FtsState) : Prop := ∀ s spec, fts.specs.lookup s = some spec → spec.scopeId = s

/-- A row is filed under every scope that has something to file of it. -/
theorem represents_indexAdd {fts : FtsState} (hkeyed : Keyed fts) {stored : StoredEvent}
    {bytes : EventId} (hbytes : stored.raw.idBytes = some bytes) {s : Nat} {content : Content}
    (h : Represents (scopeIndex fts s) content) :
    Represents (scopeIndex (fts.indexAdd stored) s)
      (refiled content ⟨bytes⟩ (filing fts s stored)) := by
  have hmem : ∀ scopeId, scopeId ∈ (((values fts.specs).filter fun spec =>
      stored.raw.kind ∈ spec.kinds).map (·.scopeId)) ↔
        ∃ spec, fts.specs.lookup scopeId = some spec ∧ stored.raw.kind ∈ spec.kinds := by
    intro scopeId
    simp only [List.mem_map, List.mem_filter, mem_values, decide_eq_true_eq]
    constructor
    · rintro ⟨spec, ⟨⟨key, hkey⟩, hkind⟩, rfl⟩
      rw [hkeyed key spec hkey]
      exact ⟨spec, hkey, hkind⟩
    · rintro ⟨spec, hspec, hkind⟩
      exact ⟨spec, ⟨⟨scopeId, hspec⟩, hkind⟩, hkeyed scopeId spec hspec⟩
  unfold indexAdd
  rw [hbytes]
  refine (represents_foldl_addToScope stored ⟨bytes⟩ (fun scopeId hid spec hspec => ?_) h).congr
    fun d => ?_
  · obtain ⟨spec', hspec', hkind⟩ := (hmem scopeId).mp hid
    rw [hspec] at hspec'
    cases hspec'
    exact hkind
  · split
    · rfl
    next hnot =>
      have hnone : filing fts s stored = none := by
        rw [Option.eq_none_iff_forall_not_mem]
        intro record hrecord
        obtain ⟨spec, hspec, hkind, -⟩ := filing_eq_some.mp hrecord
        exact hnot ((hmem s).mpr ⟨spec, hspec, hkind⟩)
      rw [hnone, refiled_none]

theorem indexAdd_specs (fts : FtsState) (stored : StoredEvent) :
    (fts.indexAdd stored).specs = fts.specs := by
  unfold indexAdd
  split
  · rfl
  · refine List.foldlRecOn (motive := fun fts' : FtsState => fts'.specs = fts.specs) _ _ rfl ?_
    exact fun fts' h scopeId _ => (addToScope_specs stored _ fts' scopeId).trans h

theorem indexAdd_text (fts : FtsState) (stored : StoredEvent) :
    (fts.indexAdd stored).text = fts.text := by
  unfold indexAdd
  split
  · rfl
  · refine List.foldlRecOn (motive := fun fts' : FtsState => fts'.text = fts.text) _ _ rfl ?_
    exact fun fts' h scopeId _ => (addToScope_text stored _ fts' scopeId).trans h

theorem represents_indexRemove {fts : FtsState} {id : String} {bytes : EventId}
    (hbytes : hexToBytes32 id = some bytes) {s : Nat} {content : Content}
    (h : Represents (scopeIndex fts s) content) :
    Represents (scopeIndex (fts.indexRemove id) s)
      fun d => if d = ⟨bytes⟩ then none else content d := by
  have hindex : scopeIndex (fts.indexRemove id) s = (scopeIndex fts s).removeDoc ⟨bytes⟩ := by
    unfold indexRemove
    rw [hbytes, scopeIndex, scopeIndex]
    dsimp only
    rw [lookup_filterMapValues]
    cases fts.indices.lookup s with
    | none | some => rfl
  rw [hindex]
  exact h.removeDoc ⟨bytes⟩

theorem install_spec (text : TextRules) (specs : List CompiledIndexSpec) :
    (install text specs).text = text ∧ Keyed (install text specs) ∧
      ∀ s, scopeIndex (install text specs) s = Index.empty := by
  unfold install
  refine List.foldlRecOn (motive := fun fts => fts.text = text ∧ Keyed fts ∧
    ∀ s, scopeIndex fts s = Index.empty) _ _ ?_ ?_
  · refine ⟨rfl, fun s spec h => ?_, fun s => rfl⟩
    cases h
  · rintro fts ⟨htext, hkeyed, hempty⟩ spec -
    refine ⟨htext, fun s spec' h => ?_, fun s => ?_⟩
    · dsimp only at h
      rw [lookup_insert_eq] at h
      split at h
      next hs => cases h; exact hs.symm
      next => exact hkeyed s spec' h
    · rw [scopeIndex]
      dsimp only
      rw [lookup_insert_eq]
      split
      next hs => exact hs ▸ hempty spec.scopeId
      next => exact hempty s

/-- What is filed of a document is what the scope files of a stored row of its id. -/
structure Filed (st : MemState) (content : Nat → Content) : Prop where
  keyed : Keyed st.fts
  represents : ∀ s, Represents (scopeIndex st.fts s) (content s)
  backed : ∀ s doc record, content s doc = some record → ∃ key row,
    st.events.lookup key = some row ∧ hexToBytes32 key = some doc.bytes ∧
      filing st.fts s row = some record

/-- What a scope files of a stored row is filed. -/
def Complete (st : MemState) (content : Nat → Content) : Prop :=
  ∀ s key row doc record, st.events.lookup key = some row → hexToBytes32 key = some doc.bytes →
    filing st.fts s row = some record → content s doc = some record

/-- The content without the document of a key. -/
def unfiled (content : Content) (key : String) : Content :=
  fun d => if hexToBytes32 key = some d.bytes then none else content d

theorem filed_new : Filed .new fun _ _ => none where
  keyed _ _ h := nomatch h
  represents _ := represents_empty
  backed _ _ _ h := nomatch h

section Edits

variable {st st' : MemState} {content : Nat → Content} {key : String} {row : StoredEvent}

theorem Filed.congr (h : Filed st content) (hevents : st'.events = st.events)
    (hfts : st'.fts = st.fts) : Filed st' content := by
  obtain ⟨hkeyed, hrep, hbacked⟩ := h
  exact ⟨by rwa [hfts], by rwa [hfts], by rwa [hevents, hfts]⟩

theorem Complete.congr (h : Complete st content) (hevents : st'.events = st.events)
    (hfts : st'.fts = st.fts) : Complete st' content := by
  unfold Complete
  rwa [hevents, hfts]

theorem Filed.remove (h : Filed st content) (hevents : st'.events = st.events.erase key)
    (hfts : st'.fts = st.fts.indexRemove key) :
    Filed st' fun s => unfiled (content s) key where
  keyed := by
    rw [hfts, Keyed, indexRemove_specs]
    exact h.keyed
  represents s := by
    rw [hfts]
    cases hbytes : hexToBytes32 key with
    | none =>
      have hsame : st.fts.indexRemove key = st.fts := by rw [indexRemove, hbytes]
      rw [hsame]
      refine (h.represents s).congr fun d => ?_
      rw [unfiled, hbytes]
      exact if_neg nofun
    | some bytes =>
      refine (represents_indexRemove hbytes (h.represents s)).congr fun d => ?_
      have hdoc : some bytes = some d.bytes ↔ d = ⟨bytes⟩ := by
        cases d
        simp [eq_comm]
      simp only [unfiled, hbytes, hdoc]
  backed s doc record hrecord := by
    unfold unfiled at hrecord
    split at hrecord
    · cases hrecord
    next hother =>
      obtain ⟨key', row', hrow', hbytes', hfiling⟩ := h.backed s doc record hrecord
      refine ⟨key', row', ?_, hbytes', ?_⟩
      · rw [hevents, lookup_erase_eq, if_neg, hrow']
        rintro rfl
        exact hother hbytes'
      · rw [hfts, filing_congr (indexRemove_text _ _) (indexRemove_specs _ _),
          hfiling]

theorem Complete.remove (h : Complete st content) (hevents : st'.events = st.events.erase key)
    (hfts : st'.fts = st.fts.indexRemove key)
    (hone : ∀ key', key' ∈ st.events → hexToBytes32 key' = hexToBytes32 key → key' = key) :
    Complete st' fun s => unfiled (content s) key := by
  intro s key' row' doc record hrow hbytes hfiling
  rw [hevents, lookup_erase_eq] at hrow
  split at hrow
  · cases hrow
  next hne =>
    rw [hfts, filing_congr (indexRemove_text _ _) (indexRemove_specs _ _)] at hfiling
    refine (if_neg fun hsame => ?_).trans (h s key' row' doc record hrow hbytes hfiling)
    exact hne (hone key' ((mem_iff_lookup _ _).mpr ⟨row', hrow⟩) (hbytes.trans hsame.symm))

theorem lookup_of_fresh (hnew : key ∉ st.events) (hevents : st'.events = st.events.insert key row)
    {key' : String} {row' : StoredEvent} (hrow : st.events.lookup key' = some row') :
    st'.events.lookup key' = some row' := by
  rw [hevents, lookup_insert_eq, if_neg, hrow]
  rintro rfl
  exact hnew ((mem_iff_lookup _ _).mpr ⟨row', hrow⟩)

/-- A row is stored that no scope files. -/
theorem Filed.store (h : Filed st content) (hnew : key ∉ st.events)
    (hevents : st'.events = st.events.insert key row) (hfts : st'.fts = st.fts) :
    Filed st' content := by
  refine ⟨hfts ▸ h.keyed, hfts ▸ h.represents, fun s doc record hrecord => ?_⟩
  obtain ⟨key', row', hrow', hbytes', hfiling⟩ := h.backed s doc record hrecord
  exact ⟨key', row', lookup_of_fresh hnew hevents hrow', hbytes', hfts ▸ hfiling⟩

theorem Complete.store (h : Complete st content) (hevents : st'.events = st.events.insert key row)
    (hfts : st'.fts = st.fts) (hnothing : ∀ s, filing st.fts s row = none) :
    Complete st' content := by
  intro s key' row' doc record hrow hbytes hfiling
  rw [hfts] at hfiling
  rw [hevents, lookup_insert_eq] at hrow
  split at hrow
  · cases hrow
    rw [hnothing s] at hfiling
    cases hfiling
  · exact h s key' row' doc record hrow hbytes hfiling

/-- A row is stored and filed. -/
theorem Filed.storeSearchable (h : Filed st content) {bytes : EventId} (hnew : key ∉ st.events)
    (hkey : hexToBytes32 key = some bytes) (hbytes : row.raw.idBytes = some bytes)
    (hevents : st'.events = st.events.insert key row) (hfts : st'.fts = st.fts.indexAdd row) :
    Filed st' fun s => refiled (content s) ⟨bytes⟩ (filing st.fts s row) where
  keyed := by
    rw [hfts, Keyed, indexAdd_specs]
    exact h.keyed
  represents s := by
    rw [hfts]
    exact represents_indexAdd h.keyed hbytes (h.represents s)
  backed s doc record hrecord := by
    have hold : content s doc = some record → ∃ key row, st'.events.lookup key = some row ∧
        hexToBytes32 key = some doc.bytes ∧ filing st'.fts s row = some record := by
      intro hcontent
      obtain ⟨key', row', hrow', hbytes', hfiling⟩ := h.backed s doc record hcontent
      refine ⟨key', row', lookup_of_fresh hnew hevents hrow', hbytes', ?_⟩
      rw [hfts, filing_congr (indexAdd_text _ _) (indexAdd_specs _ _), hfiling]
    unfold refiled at hrecord
    split at hrecord
    next hdoc =>
      rcases Option.or_eq_some_iff.mp hrecord with hfiling | ⟨-, hcontent⟩
      · refine ⟨key, row, by rw [hevents, lookup_insert_eq, if_pos rfl], hdoc ▸ hkey, ?_⟩
        rw [hfts, filing_congr (indexAdd_text _ _) (indexAdd_specs _ _), hfiling]
      · exact hold hcontent
    next => exact hold hrecord

theorem Complete.storeSearchable (h : Complete st content) {bytes : EventId}
    (hkey : hexToBytes32 key = some bytes) (hevents : st'.events = st.events.insert key row)
    (hfts : st'.fts = st.fts.indexAdd row)
    (hone : ∀ key', key' ∈ st.events → hexToBytes32 key' ≠ some bytes) :
    Complete st' fun s => refiled (content s) ⟨bytes⟩ (filing st.fts s row) := by
  intro s key' row' doc record hrow hbytes' hfiling
  rw [hfts, filing_congr (indexAdd_text _ _) (indexAdd_specs _ _)] at hfiling
  rw [hevents, lookup_insert_eq] at hrow
  split at hrow
  next hsame =>
    cases hrow
    subst hsame
    have hdoc : doc = ⟨bytes⟩ := by
      cases doc
      rw [hkey] at hbytes'
      cases hbytes'
      rfl
    refine (if_pos hdoc).trans ?_
    rw [hfiling]
    rfl
  next =>
    have hdoc : doc ≠ ⟨bytes⟩ := by
      rintro rfl
      exact hone key' ((mem_iff_lookup _ _).mpr ⟨row', hrow⟩) hbytes'
    exact (if_neg hdoc).trans (h s key' row' doc record hrow hbytes' hfiling)

end Edits

theorem recordSighting_fts (st : MemState) (source : RelayUrl) (kind : Nat) (id : String) (t : Nat) :
    (recordSighting st source kind id t).fts = st.fts := by
  unfold recordSighting relayKindAdd
  split <;> rfl

theorem storeSearchableRow_fts (st : MemState) (event : RawEvent) (source : RelayUrl) (t : Nat) :
    (storeSearchableRow st event source t).fts = st.fts.indexAdd ⟨event, t⟩ := by
  rw [storeSearchableRow, recordSighting_fts, ftsAddById]
  have hrow : (accessStamp { st with events := st.events.insert event.id ⟨event, t⟩ }
      event.id).events.lookup event.id = some ⟨event, t⟩ := AList.lookup_insert _
  rw [hrow]
  rfl

theorem storeRow_fts (st : MemState) (event : RawEvent) (source : RelayUrl) (t : Nat) :
    (storeRow st event source t).fts = st.fts := recordSighting_fts _ _ _ _ _

def contentAfter (st : MemState) (content : Nat → Content) : Edit → Nat → Content
  | .delete idHex _ _ _ _ => fun s => unfiled (content s) idHex
  | .evict idHex => fun s => unfiled (content s) idHex
  | .insert a true => fun s =>
    refiled (content s) ⟨a.event.id32⟩ (filing st.fts s ⟨a.event, a.receivedAtMs⟩)
  | .replace old _ a => fun s =>
    refiled (unfiled (content s) old) ⟨a.event.id32⟩ (filing st.fts s ⟨a.event, a.receivedAtMs⟩)
  | .install _ _ => fun _ _ => none
  | _ => content

/-- The edit leaves no row of the store unfiled. -/
def Files (st : MemState) : Edit → Prop
  | .delete idHex _ _ _ _ =>
    ∀ key, key ∈ st.events → hexToBytes32 key = hexToBytes32 idHex → key = idHex
  | .evict idHex => ∀ key, key ∈ st.events → hexToBytes32 key = hexToBytes32 idHex → key = idHex
  | .insert a searchable =>
    (∀ key, key ∈ st.events → hexToBytes32 key ≠ hexToBytes32 a.event.id) ∧
      (searchable = false → ∀ s, filing st.fts s ⟨a.event, a.receivedAtMs⟩ = none)
  | .replace old _ a =>
    (∀ key, key ∈ st.events → hexToBytes32 key = hexToBytes32 old → key = old) ∧
      ∀ key, key ∈ st.events → hexToBytes32 key ≠ hexToBytes32 a.event.id
  | .install text specs => ∀ key row s, st.events.lookup key = some row →
    filing (install text specs) s row = none
  | _ => True

variable {a : Arrival} {edit : Edit}

theorem idBytes_admitted (h : Admitted a) : a.event.idBytes = some a.event.id32 :=
  decodes_admitted h

/-- The row that takes the place of an older version, as two edits. -/
theorem replaced_fields (st : MemState) (old : String) (oldId : EventId) (a : Arrival) :
    (perform st (.replace old oldId a)).events =
        (removeRow st old).events.insert a.event.id ⟨a.event, a.receivedAtMs⟩ ∧
      (perform st (.replace old oldId a)).fts =
        (removeRow st old).fts.indexAdd ⟨a.event, a.receivedAtMs⟩ := by
  refine ⟨perform_replace_events st old oldId a, ?_⟩
  rw [perform, emitReplaced, logAppend_fts, storeSearchableRow_fts]

theorem insert_fields (st : MemState) (a : Arrival) :
    (perform st (.insert a true)).fts = st.fts.indexAdd ⟨a.event, a.receivedAtMs⟩ ∧
      (perform st (.insert a false)).fts = st.fts := by
  constructor
  · rw [perform, insertSearchable, emitInserted, logAppend_fts, storeSearchableRow_fts]
  · rw [perform, insertFresh, emitInserted, logAppend_fts, storeRow_fts]

theorem delete_fields (st : MemState) (idHex : String) (carrier target : EventId)
    (reason : DeleteReason) (time : Nat) :
    (perform st (.delete idHex carrier target reason time)).events = st.events.erase idHex ∧
      (perform st (.delete idHex carrier target reason time)).fts = st.fts.indexRemove idHex :=
  ⟨logAppend_events _ _ _ _ _ _, logAppend_fts _ _ _ _ _ _⟩

theorem filing_removeRow (st : MemState) (id : String) (s : Nat) (row : StoredEvent) :
    filing (removeRow st id).fts s row = filing st.fts s row :=
  filing_congr (indexRemove_text _ _) (indexRemove_specs _ _) s row

theorem filed_perform {st : MemState} {content : Nat → Content} (h : Filed st content)
    (hsound : Sound st edit) : Filed (perform st edit) (contentAfter st content edit) := by
  cases edit with
  | delete idHex carrier target reason time =>
    obtain ⟨hevents, hfts⟩ := delete_fields st idHex carrier target reason time
    exact h.remove hevents hfts
  | evict => exact h.remove rfl rfl
  | insert a searchable =>
    cases searchable with
    | true =>
      exact h.storeSearchable hsound.2.1 (decodes_admitted hsound.1) (idBytes_admitted hsound.1)
        (perform_insert_events st a true) (insert_fields st a).1
    | false => exact h.store hsound.2.1 (perform_insert_events st a false) (insert_fields st a).2
  | replace old oldId a =>
    obtain ⟨hadm, hnew, hold, hbytes, hkind⟩ := hsound
    obtain ⟨hevents, hfts⟩ := replaced_fields st old oldId a
    have hremoved : Filed (removeRow st old) fun s => unfiled (content s) old :=
      h.remove rfl rfl
    have hstored := hremoved.storeSearchable (fun hmem => hnew (AList.mem_erase.mp hmem).2)
      (decodes_admitted hadm) (idBytes_admitted hadm) hevents hfts
    simp only [filing_removeRow] at hstored
    exact hstored
  | sight =>
    exact h.congr (recordSighting_rows _ _ _ _ _).1 (recordSighting_fts _ _ _ _ _)
  | install text specs =>
    obtain ⟨-, hkeyed, hempty⟩ := install_spec text specs
    refine ⟨hkeyed, fun s => ?_, fun _ _ _ hnone => nomatch hnone⟩
    have hindex : scopeIndex (perform st (.install text specs)).fts s = Index.empty := hempty s
    rw [hindex]
    exact represents_empty
  | bury | touch | cover | retain => exact h.congr rfl rfl

theorem complete_perform {st : MemState} {content : Nat → Content} (h : Complete st content)
    (hsound : Sound st edit) (hfiles : Files st edit) :
    Complete (perform st edit) (contentAfter st content edit) := by
  cases edit with
  | delete idHex carrier target reason time =>
    obtain ⟨hevents, hfts⟩ := delete_fields st idHex carrier target reason time
    exact h.remove hevents hfts hfiles
  | evict => exact h.remove rfl rfl hfiles
  | insert a searchable =>
    cases searchable with
    | true =>
      have hkey := decodes_admitted hsound.1
      exact h.storeSearchable hkey (perform_insert_events st a true) (insert_fields st a).1
        fun key hmem heq => hfiles.1 key hmem (heq.trans hkey.symm)
    | false =>
      exact h.store (perform_insert_events st a false) (insert_fields st a).2 (hfiles.2 rfl)
  | replace old oldId a =>
    obtain ⟨hevents, hfts⟩ := replaced_fields st old oldId a
    have hkey := decodes_admitted hsound.1
    have hremoved : Complete (removeRow st old) fun s => unfiled (content s) old :=
      h.remove rfl rfl hfiles.1
    have hstored := hremoved.storeSearchable hkey hevents hfts fun key hmem heq =>
      hfiles.2 key (AList.mem_erase.mp hmem).2 (heq.trans hkey.symm)
    simp only [filing_removeRow] at hstored
    exact hstored
  | sight =>
    exact h.congr (recordSighting_rows _ _ _ _ _).1 (recordSighting_fts _ _ _ _ _)
  | install text specs =>
    intro s key row doc record hrow hbytes hfiling
    have hnone : filing (perform st (.install text specs)).fts s row = none := hfiles key row s hrow
    rw [hnone] at hfiling
    cases hfiling
  | bury | touch | cover | retain => exact h.congr rfl rfl

/-- Every row was created within the range of the clock. -/
def Timed (st : MemState) : Prop :=
  ∀ key row, st.events.lookup key = some row → row.raw.createdAt ≤ u64Max

theorem timed_perform {st : MemState} (h : Timed st)
    (hedit : ∀ a, edit.stores = some a → a.event.createdAt ≤ u64Max) : Timed (perform st edit) := by
  intro key row hrow
  rw [lookup_perform] at hrow
  cases hstores : edit.stores.filter fun a => a.event.id = key with
  | none =>
    rw [hstores] at hrow
    dsimp only at hrow
    split at hrow
    · cases hrow
    · exact h key row hrow
  | some a =>
    rw [hstores] at hrow
    cases hrow
    exact hedit a (Option.filter_eq_some_iff.mp hstores).1

/-- In every reachable state what is filed is filed for a stored row. -/
theorem filed_reachable {st : MemState} (h : Reachable st) : ∃ content, Filed st content :=
  (h.invariant (fun s => ∃ content, Filed s content) ⟨_, filed_new⟩
    fun s e _ ⟨content, hcontent⟩ hsound => ⟨contentAfter s content e, filed_perform hcontent hsound⟩).2

theorem Filed.rank {st : MemState} {content : Nat → Content} (h : Filed st content) (s : Nat)
    (doc : SearchDocumentKey) (record : Record String (Nat × Nat))
    (hrecord : content s doc = some record) : record.rank = revCreatedAt record.info.2 := by
  obtain ⟨key, row, -, -, hfiling⟩ := h.backed s doc record hrecord
  obtain ⟨spec, -, -, -, rfl⟩ := filing_eq_some.mp hfiling
  rfl

/-- A posting refers to a stored event, at its rank. -/
theorem Filed.posted {st : MemState} {content : Nat → Content} (h : Filed st content)
    {s rank : Nat} {term : String} {doc : SearchDocumentKey}
    (hposted : Posted (scopeIndex st.fts s).postings term rank doc) :
    ∃ key row, st.events.lookup key = some row ∧ hexToBytes32 key = some doc.bytes ∧
      rank = revCreatedAt row.raw.createdAt := by
  obtain ⟨record, hrecord, -, hrank⟩ := ((h.represents s).posted term rank doc).mp hposted
  obtain ⟨key, row, hrow, hbytes, hfiling⟩ := h.backed s doc record hrecord
  obtain ⟨spec, -, -, -, rfl⟩ := filing_eq_some.mp hfiling
  exact ⟨key, row, hrow, hbytes, hrank⟩

theorem Files.stores {st : MemState} (h : Files st edit) (ha : edit.stores = some a) (key : String)
    (hkey : key ∈ st.events) : hexToBytes32 key ≠ hexToBytes32 a.event.id := by
  cases edit with
  | insert => cases ha; exact h.1 key hkey
  | replace => cases ha; exact h.2 key hkey
  | _ => cases ha

/-- A store whose full-text index is that of its rows. -/
structure Searchable (st : MemState) : Prop where
  rooted : Rooted st
  timed : Timed st
  spelling : OneSpelling st
  filed : ∃ content, Filed st content ∧ Complete st content

theorem searchable_new : Searchable .new where
  rooted := rooted_new
  timed _ _ h := nomatch h
  spelling _ h := absurd h (AList.notMem_empty _)
  filed := ⟨_, filed_new, fun _ _ _ _ _ h => nomatch h⟩

theorem searchable_perform {st : MemState} (h : Searchable st) (hsound : Sound st edit)
    (hfiles : Files st edit) (htimed : ∀ a, edit.stores = some a → a.event.createdAt ≤ u64Max) :
    Searchable (perform st edit) := by
  obtain ⟨content, hfiled, hcomplete⟩ := h.filed
  exact ⟨rooted_perform h.rooted hsound, timed_perform h.timed htimed,
    oneSpelling_perform h.spelling fun a ha => hfiles.stores ha, _,
    filed_perform hfiled hsound, complete_perform hcomplete hsound hfiles⟩

/-- No kind 5 event with words for a scope is stored, no second spelling of an id, and scopes
are installed before the rows that have words for them. -/
def Indexable (st : MemState) : Action → Prop
  | .insert a => Wins st a → (∀ key, key ∈ st.events → hexToBytes32 key ≠ hexToBytes32 a.event.id) ∧
      (a.event.kind = 5 → ∀ s, filing st.fts s ⟨a.event, a.receivedAtMs⟩ = none)
  | .installSearchIndexSpecs text specs => ∀ key row s, st.events.lookup key = some row →
      filing (install text specs) s row = none
  | _ => True

theorem files_of_insert {st s : MemState} (hok : Indexable st (.insert a)) (hs : Searchable s)
    (hsound : Sound s edit) (hedit : InsertEdit st a s edit) : Files s edit := by
  obtain ⟨hshrunk, hedit⟩ := hedit
  cases edit with
  | delete key => exact fun key' hmem heq => hs.spelling key' hmem key hedit heq
  | insert =>
    obtain ⟨rfl, hwins⟩ := hedit
    obtain ⟨hspelled, hkind⟩ := hok hwins
    refine ⟨fun key hmem => hspelled key (hshrunk.mem hmem), fun hsearch scope => ?_⟩
    rw [filing_congr hshrunk.text hshrunk.specs]
    refine hkind ?_ scope
    by_contra hne
    have hsearchable := hsound.2.2.mpr hne
    rw [hsearch] at hsearchable
    cases hsearchable
  | replace old =>
    obtain ⟨rfl, hwins⟩ := hedit
    exact ⟨fun key hmem heq => hs.spelling key hmem old hsound.2.2.1 heq,
      fun key hmem => (hok hwins).1 key (hshrunk.mem hmem)⟩
  | sight | bury => trivial
  | _ => exact hedit.elim

theorem searchable_deleteByFilter {st : MemState} (h : Searchable st) (order : HashOrder)
    (filter : DeleteFilter) : Searchable (act st (.deleteByFilter order filter)) := by
  have hkeep := (editsTo_deleteByFilter h.rooted order filter).invariant
    (fun s => Searchable s ∧ Within st s) ⟨h, fun _ hkey => hkey⟩ fun s edit hs hsound hedit => by
      have hfiles : ∀ idHex, idHex ∈ st.events → ∀ key, key ∈ s.events →
          hexToBytes32 key = hexToBytes32 idHex → key = idHex :=
        fun idHex hmem key hkey heq => h.spelling key (hs.2 key hkey) idHex hmem heq
      cases edit with
      | delete idHex =>
        exact ⟨searchable_perform hs.1 hsound (hfiles idHex hedit.1) fun _ ha => (by cases ha),
          within_perform hs.2 rfl⟩
      | evict idHex =>
        exact ⟨searchable_perform hs.1 hsound (hfiles idHex hedit.1) fun _ ha => (by cases ha),
          within_perform hs.2 rfl⟩
      | _ => exact hedit.elim
  exact hkeep.1

theorem files_of_action {st s : MemState} {action : Action} (hok : Indexable st action)
    (hs : Searchable s) (hsound : Sound s edit) (hedit : ActionEdit st action s edit)
    (hnot : ∀ order filter, action ≠ .deleteByFilter order filter) : Files s edit := by
  cases action with
  | insert => exact files_of_insert hok hs hsound hedit
  | deleteByFilter order filter => exact absurd rfl (hnot order filter)
  | gcStep =>
    cases edit with
    | delete idHex =>
      exact fun key hmem heq => hs.spelling key hmem idHex hedit.1 heq
    | evict idHex => exact fun key hmem heq => hs.spelling key hmem idHex hedit heq
    | bury | cover => trivial
    | _ => exact hedit.elim
  | getById =>
    obtain ⟨rfl, -⟩ := hedit
    trivial
  | recordCoverage =>
    obtain ⟨_, rfl⟩ := hedit
    trivial
  | replaceLogRetentionClaims =>
    cases hedit
    trivial
  | installSearchIndexSpecs =>
    obtain ⟨rfl, rfl⟩ := hedit
    exact hok

/-- What an action keeps that leaves no row unfiled. -/
theorem searchable_act {st : MemState} (h : Searchable st) {action : Action}
    (hok : Indexable st action)
    (htimed : ∀ a, action = .insert a → a.event.createdAt ≤ u64Max) :
    Searchable (act st action) := by
  by_cases hdelete : ∃ order filter, action = .deleteByFilter order filter
  · obtain ⟨order, filter, rfl⟩ := hdelete
    exact searchable_deleteByFilter h order filter
  · refine (editsTo_act h.rooted action).invariant Searchable h fun s edit hs hsound hedit => ?_
    refine searchable_perform hs hsound (files_of_action hok hs hsound hedit fun order filter heq =>
      hdelete ⟨order, filter, heq⟩) fun a ha => ?_
    exact htimed a (insert_of_arrival (arrivalOfEdit_of_stores ha) hedit).1

theorem timed_run {actions : List Action}
    (htimed : ∀ a ∈ arrivalsOf actions, a.event.createdAt ≤ u64Max) :
    Timed (run act .new actions) := by
  have hinserts : ∀ action ∈ actions, ∀ a, action = .insert a → a.event.createdAt ≤ u64Max := by
    rintro action haction a rfl
    exact htimed a (List.mem_filterMap.mpr ⟨.insert a, haction, rfl⟩)
  have hkeep := run_invariant (fun st => Rooted st ∧ Timed st) (fun st action hs haction =>
    (editsTo_act hs.1 action).invariant (fun s => Rooted s ∧ Timed s) hs
      fun s edit hs hsound hedit => ⟨rooted_perform hs.1 hsound, timed_perform hs.2 fun a ha =>
        haction a (insert_of_arrival (arrivalOfEdit_of_stores ha) hedit).1⟩)
    ⟨rooted_new, searchable_new.timed⟩ (meets_of_forall act _ .new actions hinserts)
  exact hkeep.2

theorem searchable_run {actions : List Action}
    (htimed : ∀ a ∈ arrivalsOf actions, a.event.createdAt ≤ u64Max)
    (hok : Meets act Indexable .new actions) : Searchable (run act .new actions) := by
  have hinserts : ∀ action ∈ actions, ∀ a, action = .insert a → a.event.createdAt ≤ u64Max := by
    rintro action haction a rfl
    exact htimed a (List.mem_filterMap.mpr ⟨.insert a, haction, rfl⟩)
  exact run_invariant Searchable (fun _ _ hs hstep => searchable_act hs hstep.1 hstep.2)
    searchable_new (hok.and (meets_of_forall act _ .new actions hinserts))

end StoreSearch
