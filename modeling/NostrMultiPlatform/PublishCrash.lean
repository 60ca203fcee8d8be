import NostrMultiPlatform.PublishSettlement
import NostrMultiPlatform.PublishSilence

/-!
# Publishes across a crash

The record of a row lags behind it: it keeps every acceptance and every answer,
while a verdict of a sweep or of the emission gate may be missing. What a restart
loads is therefore known, and whatever is barred in row and record stays barred
until the row leaves.
-/
namespace PublishCrash

open JobLog PublishEngine PublishMoves PublishSettlement PublishState Runs Sorted
open SortedMap
open Tables Relation

/-- Canonicalizing a resolved relay twice is canonicalizing it once. -/
def StableTargets (w : World) : Prop :=
  ∀ event target, ∀ r ∈ resolveFor w event target,
    canonicalRelayIdentity (canonicalRelayIdentity r.url) = canonicalRelayIdentity r.url

def Canonical {ν : Type} (m : SortedMap RelayUrl ν) : Prop :=
  ∀ url ∈ m.keys, canonicalRelayIdentity url = url

/-- How the saved states lag behind the present ones. -/
structure Lags (answers : List (RelayUrl × PerRelayState))
    (now saved : SortedMap RelayUrl PerRelayState) : Prop where
  keys : ∀ url, (saved.lookup url).isSome = (now.lookup url).isSome
  accepted : ∀ url state, now.lookup url = some state → state.isOk = true →
    saved.lookup url = some state
  settled : ∀ url state, saved.lookup url = some state → state.isTerminal = true →
    now.lookup url = some state
  answered : ∀ url state, (url, state) ∈ answers → state.isTerminal = true →
    saved.lookup url = some state

/-- A record that loads as it was written. -/
structure Loads (record : PublishRecord) (saved : SortedMap RelayUrl PerRelayState)
    (reasons : SortedMap RelayUrl (List RelaySelectionReason)) : Prop where
  perRelay : record.perRelay = saved.rows
  relayReasons : record.relayReasons = reasons.rows
  canonical : Canonical saved
  canonicalReasons : Canonical reasons

def BackedAt (s : PublishEngine) (handle : PublishHandle) : Prop :=
  ∀ row, s.inFlight.lookup handle = some row → ∃ record life saved,
    s.store.rows.lookup handle = some record ∧ lifeOf handle s.log = some life ∧
      record.event = row.event ∧ Loads record saved row.relayReasons ∧
        Lags life.answers row.perRelay saved

theorem find_canonicalRows {ν : Type} {rows : List (RelayUrl × ν)}
    (hsorted : rows.Pairwise fun a b => a.1 < b.1)
    (hcanonical : ∀ r ∈ rows, canonicalRelayIdentity r.1 = r.1) (m : SortedMap RelayUrl ν)
    (url : RelayUrl) :
    (rows.foldl (fun m r => m.insert (canonicalRelayIdentity r.1) r.2) m).lookup url =
      (find url rows).or (m.lookup url) := by
  induction rows generalizing m with
  | nil => rfl
  | cons r rest ih =>
    obtain ⟨hlt, hrest⟩ := List.pairwise_cons.mp hsorted
    rw [List.foldl_cons, ih hrest fun r' hr' => hcanonical r' (List.mem_cons_of_mem r hr'),
      hcanonical r List.mem_cons_self, lookup_insert, find]
    by_cases h : url = r.1
    · have hnone : find url rest = none := find_eq_none fun r' hr' => h ▸ (hlt r' hr').ne'
      rw [hnone, if_pos h, if_pos h.symm, Option.none_or, Option.some_or]
    · rw [if_neg h, if_neg (Ne.symm h)]

theorem canonicalRows_rows {ν : Type} {m : SortedMap RelayUrl ν} (h : Canonical m) :
    canonicalRows m.rows = m := by
  apply ext
  intro url
  rw [canonicalRows, find_canonicalRows m.sorted fun r hr => h r.1 (List.mem_map_of_mem hr),
    lookup_empty, Option.or_none]
  rfl

section

variable {reasons : SortedMap RelayUrl (List RelaySelectionReason)} {record : PublishRecord}
  {saved : SortedMap RelayUrl PerRelayState} (h : Loads record saved reasons)
include h

theorem Loads.perRelay_eq : (rowOfRecord record).perRelay = saved := by
  change canonicalRows record.perRelay = saved
  rw [h.perRelay, canonicalRows_rows h.canonical]

theorem Loads.relayReasons_eq : (rowOfRecord record).relayReasons = reasons := by
  change canonicalRows record.relayReasons = reasons
  rw [h.relayReasons, canonicalRows_rows h.canonicalReasons]

end

section Lagging
variable {answers : List (RelayUrl × PerRelayState)}
  {now now' saved : SortedMap RelayUrl PerRelayState}

/-- States may move on, short of acceptance, while they are not settled. -/
theorem Lags.volatile (h : Lags answers now saved)
    (hkeys : ∀ url, (now'.lookup url).isSome = (now.lookup url).isSome)
    (hmoves : ∀ url state, now'.lookup url = some state → now.lookup url = some state ∨
      state.isOk = false ∧ ∃ before, now.lookup url = some before ∧ before.isTerminal = false) :
    Lags answers now' saved where
  keys url := (h.keys url).trans (hkeys url).symm
  accepted := by
    intro url state hstate hok
    rcases hmoves url state hstate with hsame | ⟨hnot, -⟩
    · exact h.accepted url state hsame hok
    · rw [hok] at hnot
      cases hnot
  settled := by
    intro url state hsaved hterminal
    have hbefore := h.settled url state hsaved hterminal
    have hsome : (now'.lookup url).isSome = true := by rw [hkeys, hbefore, Option.isSome_some]
    obtain ⟨after, hafter⟩ := Option.isSome_iff_exists.mp hsome
    rcases hmoves url after hafter with hsame | ⟨-, before, hopen, hnot⟩
    · rw [hafter, ← hsame, hbefore]
    · obtain rfl := Option.eq_some_unique hbefore hopen
      rw [hterminal] at hnot
      cases hnot
  answered := h.answered

/-- Saving catches up. -/
theorem Lags.save (h : Lags answers now saved)
    (hkept : ∀ url state, now.lookup url = some state → state.isTerminal = true →
      now'.lookup url = some state) : Lags answers now' now' where
  keys _ := rfl
  accepted _ _ hstate _ := hstate
  settled _ _ hstate _ := hstate
  answered url state hmem hterminal :=
    hkept url state (h.settled url state (h.answered url state hmem hterminal) hterminal) hterminal

theorem Lags.answer (h : Lags answers now now) {url : RelayUrl} {state : PerRelayState}
    (hstate : now.lookup url = some state) : Lags (answers ++ [(url, state)]) now now where
  keys := h.keys
  accepted := h.accepted
  settled := h.settled
  answered := by
    intro other found hmem hterminal
    rcases List.mem_append.mp hmem with hold | hnew
    · exact h.answered other found hold hterminal
    · cases List.mem_singleton.mp hnew
      exact hstate

end Lagging

variable {row : InFlight} {url : RelayUrl} {state : PerRelayState} {handle : PublishHandle}
  {record : PublishRecord}

theorem change_volatile {state next : PerRelayState} (retries : SortedMap RelayUrl Nat)
    (hstate : row.perRelay.lookup url = some state) (hopen : state.isTerminal = false)
    (hnext : next.isOk = false) (other : RelayUrl) (found : PerRelayState)
    (hfound : (change row url next retries).perRelay.lookup other = some found) :
    row.perRelay.lookup other = some found ∨
      found.isOk = false ∧ ∃ before, row.perRelay.lookup other = some before ∧
        before.isTerminal = false := by
  rw [lookup_change] at hfound
  split at hfound
  next heq =>
    obtain rfl := Option.some.inj hfound
    exact .inr ⟨hnext, state, heq ▸ hstate, hopen⟩
  next => exact .inl hfound

theorem isSome_change (hstate : row.perRelay.lookup url = some state) (next : PerRelayState)
    (retries : SortedMap RelayUrl Nat) (other : RelayUrl) :
    ((change row url next retries).perRelay.lookup other).isSome =
      (row.perRelay.lookup other).isSome := by
  rw [lookup_change]
  split
  next heq => rw [heq, hstate, Option.isSome_some, Option.isSome_some]
  next => rfl

theorem isTerminal_of_isInFlight (h : state.isInFlight = true) : state.isTerminal = false := by
  cases state with
  | inFlight => rfl
  | _ => cases h

/-- What a traceless move of a row does to its states. -/
theorem rowMove_volatile {sweeping work : Prop} {row row' : InFlight}
    (h : RowMove sweeping work row row') :
    row'.event = row.event ∧ row'.relayReasons = row.relayReasons ∧
      (∀ url, (row'.perRelay.lookup url).isSome = (row.perRelay.lookup url).isSome) ∧
      ∀ url state, row'.perRelay.lookup url = some state → row.perRelay.lookup url = some state ∨
        state.isOk = false ∧ ∃ before, row.perRelay.lookup url = some before ∧
          before.isTerminal = false := by
  cases h with
  | reschedule => exact ⟨rfl, rfl, fun _ => rfl, fun _ _ h => .inl h⟩
  | demote _ _ retries hstate hflight =>
    exact ⟨rfl, rfl, isSome_change hstate _ _,
      change_volatile retries hstate (isTerminal_of_isInFlight hflight) rfl⟩
  | refuse _ _ retries _ _ _ hstate hopen =>
    exact ⟨rfl, rfl, isSome_change hstate _ _, change_volatile retries hstate hopen rfl⟩
  | sweep _ _ _ hf =>
    refine ⟨rfl, rfl, fun url => ?_, fun url state hstate => ?_⟩
    · rw [lookup_mapRows, Option.isSome_map]
    · rw [lookup_mapRows, Option.map_eq_some_iff] at hstate
      obtain ⟨before, hbefore, rfl⟩ := hstate
      rcases hf url before with heq | ⟨hopen, hok⟩
      · rw [heq]
        exact .inl hbefore
      · exact .inr ⟨hok, before, hbefore, hopen⟩

theorem lookup_widenRow_of_some {fresh : SortedMap RelayUrl (List RelaySelectionReason)}
    (hfresh : ∀ url ∈ fresh.keys, row.perRelay.lookup url = none)
    (h : row.perRelay.lookup url = some state) :
    url ∉ fresh.keys ∧ (widenRow row fresh).perRelay.lookup url = some state := by
  have hnot : url ∉ fresh.keys := by
    intro hmem
    rw [hfresh url hmem] at h
    cases h
  exact ⟨hnot, by rw [lookup_widenRow, if_neg hnot, h]⟩

theorem lookup_foldl_insert {ν : Type} (rows : List (RelayUrl × ν)) (m : SortedMap RelayUrl ν)
    (h : url ∉ rows.map Prod.fst) :
    (rows.foldl (fun m r => m.insert r.1 r.2) m).lookup url = m.lookup url := by
  induction rows generalizing m with
  | nil => rfl
  | cons _ _ ih =>
    obtain ⟨hne, hrest⟩ := not_or.mp (mt List.mem_cons.mpr h)
    rw [List.foldl_cons, ih _ hrest, lookup_insert, if_neg hne]

theorem canonical_widenRow {w : World} (hw : StableTargets w) {resolved : List ResolvedRelay}
    (hresolved : ∀ r ∈ resolved, r ∈ resolveFor w row.event row.target)
    (hkeys : Canonical row.perRelay) (hreasons : Canonical row.relayReasons) :
    Canonical (widenRow row (relayMap resolved)).perRelay ∧
      Canonical (widenRow row (relayMap resolved)).relayReasons := by
  have hfresh : ∀ url ∈ (relayMap resolved).keys, canonicalRelayIdentity url = url := by
    intro url hurl
    obtain ⟨r, hr, rfl⟩ := mem_keys_relayMap.mp hurl
    exact hw row.event row.target r (hresolved r hr)
  refine ⟨fun url hurl => ?_, fun url hurl => ?_⟩
  · by_cases hmem : url ∈ (relayMap resolved).keys
    · exact hfresh url hmem
    · rw [mem_keys, lookup_widenRow, if_neg hmem, ← mem_keys] at hurl
      exact hkeys url hurl
  · by_cases hmem : url ∈ (relayMap resolved).keys
    · exact hfresh url hmem
    · refine hreasons url (mem_keys.mpr ?_)
      obtain ⟨reasons, hfound⟩ := mem_keys.mp hurl
      exact ⟨reasons, (lookup_foldl_insert _ _ hmem).symm.trans hfound⟩

variable {w : World} {sweeping : Prop} {work rest : List PublishHandle} {s s' : PublishEngine}

theorem lifeOf_off {key handle : PublishHandle} (h : Off key s s') (hne : handle ≠ key) :
    lifeOf handle s'.log = lifeOf handle s.log := by
  obtain ⟨more, hlog, habout⟩ := h.log
  rw [hlog, lifeOf_append]
  have hother : run (follow handle) (lifeOf handle s.log) more = lifeOf handle s.log ∧
      Meets (follow handle) (Proper rules handle) (lifeOf handle s.log) more :=
    run_other habout hne.symm _
  exact hother.1

theorem BackedAt.off {key handle : PublishHandle} (h : BackedAt s handle) (hoff : Off key s s')
    (hne : handle ≠ key) : BackedAt s' handle := by
  intro row hrow
  rw [hoff.rows handle hne] at hrow
  rw [hoff.store handle hne, lifeOf_off hoff hne]
  exact h row hrow

theorem lookup_upserted (hw : w.Reliable) {store store' : PublishStore}
    (h : Upserted w (recordOf handle row) store store') :
    store'.rows.lookup handle = some (recordOf handle row) := Upserted.reliable hw h

/-- A record that was just written loads as it was written. -/
theorem loads_recordOf (handle : PublishHandle) (h : Canonical row.perRelay)
    (hreasons : Canonical row.relayReasons) :
    Loads (recordOf handle row) row.perRelay row.relayReasons := ⟨rfl, rfl, h, hreasons⟩

theorem Canonical.of_isSome {ν μ : Type} {m : SortedMap RelayUrl ν} {m' : SortedMap RelayUrl μ}
    (h : Canonical m) (hkeys : ∀ url, (m.lookup url).isSome = (m'.lookup url).isSome) : Canonical m' := by
  intro url hurl
  apply h
  rw [mem_keys, ← Option.isSome_iff_exists] at hurl ⊢
  rw [hkeys, hurl]

theorem change_kept (hstate : row.perRelay.lookup url = some state)
    (hopen : state.isTerminal = false) (next : PerRelayState) (retries : SortedMap RelayUrl Nat)
    (other : RelayUrl) (found : PerRelayState) (hfound : row.perRelay.lookup other = some found)
    (hterminal : found.isTerminal = true) :
    (change row url next retries).perRelay.lookup other = some found := by
  rw [lookup_change, if_neg, hfound]
  rintro rfl
  obtain rfl := Option.eq_some_unique hfound hstate
  rw [hopen] at hterminal
  cases hterminal

theorem backedAt_act (hw : w.Reliable) (hstable : StableTargets w) (h : BackedAt s handle)
    (hact : Act w sweeping work handle s s') : BackedAt s' handle := by
  obtain ⟨row, hfound⟩ := hact.row
  obtain ⟨record, life, saved, hrecord, hlife, hevent, hloads, hlags⟩ := h row hfound
  have hcanonical : Canonical row.perRelay := hloads.canonical.of_isSome hlags.keys
  intro row' hrow'
  cases hact with
  | edit _ _ hrow hmove =>
    obtain rfl := Option.eq_some_unique hfound hrow
    obtain rfl := Option.some.inj ((lookup_setRow_self ..).symm.trans hrow')
    obtain ⟨hevent', hreasons, hkeys, hmoves⟩ := rowMove_volatile hmove
    exact ⟨record, life, saved, hrecord, hlife, hevent.trans hevent'.symm, hreasons ▸ hloads,
      hlags.volatile hkeys hmoves⟩
  | send _ _ _ retries _ _ hrow hstate hopen =>
    obtain rfl := Option.eq_some_unique hfound hrow
    obtain rfl := Option.some.inj ((lookup_setRow_self ..).symm.trans hrow')
    exact ⟨record, life, saved, hrecord, (lifeOf_snoc handle s.log _).trans hlife, hevent, hloads,
      hlags.volatile (isSome_change hstate _ _) (change_volatile retries hstate hopen rfl)⟩
  | answer _ url _ next retries _ hrow hstate hflight _ hstore =>
    obtain rfl := Option.eq_some_unique hfound hrow
    obtain rfl := Option.some.inj ((lookup_setRow_self ..).symm.trans hrow')
    have hopen := isTerminal_of_isInFlight hflight
    have hkeys := isSome_change hstate next retries
    have hsaved := hlags.save (change_kept hstate hopen next retries)
    refine ⟨_, ⟨life.targets, life.answers ++ [(url, next)]⟩, _, lookup_upserted hw hstore, ?_, rfl,
      loads_recordOf handle (hcanonical.of_isSome fun other => (hkeys other).symm)
        hloads.canonicalReasons, hsaved.answer ?_⟩
    · refine (lifeOf_snoc handle s.log _).trans ?_
      rw [follow, if_pos rfl, hlife, Option.map_some]
    · rw [lookup_change, if_pos rfl]
  | save _ _ hrow hstore =>
    obtain rfl := Option.eq_some_unique hfound hrow
    obtain rfl := Option.eq_some_unique hfound hrow'
    exact ⟨_, life, _, lookup_upserted hw hstore, hlife, rfl,
      loads_recordOf handle hcanonical hloads.canonicalReasons, hlags.save fun _ _ hstate _ => hstate⟩
  | widen _ _ _ hrow hfresh _ hresolved hstore =>
    obtain rfl := Option.eq_some_unique hfound hrow
    obtain rfl := Option.some.inj ((lookup_setRow_self ..).symm.trans hrow')
    obtain ⟨resolved, hmem, rfl⟩ := hresolved
    obtain ⟨hwide, hreasons⟩ := canonical_widenRow hstable hmem hcanonical hloads.canonicalReasons
    refine ⟨_, ⟨life.targets ++ (relayMap resolved).keys, life.answers⟩, _,
      lookup_upserted hw hstore, ?_, rfl, loads_recordOf handle hwide hreasons,
      hlags.save fun url state hstate _ => (lookup_widenRow_of_some hfresh hstate).2⟩
    refine (lifeOf_snoc handle s.log _).trans ?_
    rw [follow, if_pos rfl, hlife, Option.map_some]
  | close | settle => cases (AList.lookup_erase _ _).symm.trans hrow'

theorem backed_moves (sweeping : Prop) (work : List PublishHandle) (hw : w.Reliable)
    (hstable : StableTargets w) (h : ∀ handle, BackedAt s handle)
    (hmoves : Moves w sweeping work s s') : ∀ handle, BackedAt s' handle := by
  induction hmoves with
  | refl => exact h
  | tail _ hmove ih =>
    cases hmove with
    | gate => exact ih
    | act key hact =>
      intro handle
      by_cases hkey : handle = key
      · rw [hkey]
        exact backedAt_act hw hstable (ih key) hact
      · exact (ih handle).off hact.off hkey

/-- A row enters as the record under its handle has it. -/
theorem backed_open {store : PublishStore} (h : ∀ other, BackedAt s other)
    (hrecord : store.rows.lookup handle = some record) (hevent : record.event = row.event)
    (hloads : Loads record row.perRelay row.relayReasons)
    (hothers : ∀ other, other ≠ handle → store.rows.lookup other = s.store.rows.lookup other) :
    ∀ other, BackedAt { insertRow handle row s with store := store } other := by
  have hoff : Off handle s { insertRow handle row s with store := store } :=
    ((off_setRow s handle row).logged rfl).withStore hothers
  intro other
  by_cases hkey : other = handle
  · subst hkey
    intro row' hrow'
    obtain rfl := Option.some.inj ((lookup_setRow_self ..).symm.trans hrow')
    refine ⟨record, ⟨row.perRelay.keys, []⟩, _, hrecord, ?_, hevent, hloads, ?_⟩
    · refine (lifeOf_snoc other s.log _).trans ?_
      rw [follow, if_pos rfl]
    · exact ⟨fun _ => rfl, fun _ _ hstate _ => hstate, fun _ _ hstate _ => hstate,
        fun _ _ hmem => absurd hmem List.not_mem_nil⟩
  · exact (h other).off hoff hkey

theorem backed_finish (hw : w.Reliable) (hstable : StableTargets w)
    (h : ∀ handle, BackedAt s handle) (key : PublishHandle) (nowMs : Nat) :
    ∀ handle, BackedAt (finalizeCompletedRows w [key] (dispatchPending w key nowMs s)) handle :=
  backed_moves False [key] hw hstable h ((dispatchPending_moves List.mem_cons_self nowMs s).trans
    (finalizeCompletedRows_moves [key] _))

theorem canonical_newRow (hstable : StableTargets w) (event : SignedEvent) (target : PublishTarget)
    (override : Option String) :
    let row := newRow event target (relayMap (resolveFor w event target)) override
    Canonical row.perRelay ∧ Canonical row.relayReasons := by
  intro row
  have hreasons : Canonical row.relayReasons := by
    intro url hurl
    obtain ⟨r, hr, rfl⟩ := mem_keys_relayMap.mp hurl
    exact hstable event target r hr
  have hkeys : ∀ url, (row.relayReasons.lookup url).isSome = (row.perRelay.lookup url).isSome := by
    intro url
    refine Eq.symm ((congrArg Option.isSome (lookup_mapRows _ _ url)).trans ?_)
    rw [Option.isSome_map]
    rfl
  exact ⟨hreasons.of_isSome hkeys, hreasons⟩

theorem backed_startPublish (hw : w.Reliable) (hstable : StableTargets w)
    (h : ∀ handle, BackedAt s handle) (action : PublishAction) (nowMs : Nat)
    (override : Option String) :
    ∀ handle, BackedAt (startPublish w action nowMs override s).1 handle := by
  cases action with
  | publish key event target =>
    rw [startPublish, startPublishInner]
    split
    next => exact h
    next hnot =>
      have hnew : s.inFlight.lookup key = none := AList.lookup_eq_none.mpr hnot
      dsimp only
      split
      next =>
        intro handle row hrow
        have hne : handle ≠ key := by
          rintro rfl
          cases hnew.symm.trans hrow
        have hoff : ∀ terminal, Off key s (recordTerminal key terminal s) := fun terminal =>
          ⟨fun _ _ => rfl, fun _ _ => rfl, [.ended key terminal], rfl, by simp [Entry.about]⟩
        exact (h handle).off (hoff _) hne row hrow
      next =>
        let row := newRow event target (relayMap (resolveFor w event target)) override
        obtain ⟨hcanonical, hreasons⟩ := canonical_newRow hstable event target override
        have hopened : ∀ handle, BackedAt { insertRow key row s with
            store := s.store.upsert (recordOf key row) } handle :=
          backed_open h (AList.lookup_insert _) rfl (loads_recordOf key hcanonical hreasons)
            fun other hne => AList.lookup_insert_ne hne
        have hfound : (insertRow key row s).inFlight.lookup key = some row :=
          lookup_setRow_self s key row
        rw [persist_eq w hfound, upsert_reliable hw]
        exact backed_finish hw hstable hopened key nowMs
  | _ => exact h

theorem backed_cancel (h : ∀ handle, BackedAt s handle) (key : PublishHandle)
    (correlationId : String) : ∀ handle, BackedAt (cancelByHandle w key correlationId s) handle := by
  intro handle row hrow
  obtain ⟨store, hdelete, hstore⟩ := delete_spec w key (recordTerminal key
    ⟨correlationId, "cancelled", none, some key, .cancelled key⟩
    { s with inFlight := s.inFlight.erase key })
  have hcall : cancelByHandle w key correlationId s = _ := hdelete
  rw [hcall] at hrow ⊢
  have hne : handle ≠ key := by
    rintro rfl
    exact absurd ((AList.lookup_erase _ _).symm.trans hrow) nofun
  exact (h handle).off ⟨fun other hne => AList.lookup_erase_ne hne,
    fun other hne => Deleted.off hstore hne, [.ended key _], rfl, by simp [Entry.about]⟩ hne row hrow

/-- A record that was written from a row with canonical relays. -/
def Loadable (record : PublishRecord) : Prop :=
  Loads record (rowOfRecord record).perRelay (rowOfRecord record).relayReasons

theorem Loads.loadable {saved : SortedMap RelayUrl PerRelayState}
    {reasons : SortedMap RelayUrl (List RelaySelectionReason)} (h : Loads record saved reasons) :
    Loadable record := by
  rw [Loadable, h.perRelay_eq, h.relayReasons_eq]
  exact h

theorem backed_insertRow (h : ∀ handle, BackedAt s handle)
    (hstored : s.store.rows.lookup record.handle = some record) (hloads : Loadable record) :
    ∀ handle, BackedAt (insertRow record.handle (rowOfRecord record) s) handle := by
  have hopen : ∀ other, BackedAt
      { insertRow record.handle (rowOfRecord record) s with store := s.store } other :=
    backed_open h hstored rfl hloads fun _ _ => rfl
  exact hopen

theorem backed_resumeAll (hw : w.Reliable) (hstable : StableTargets w) (nowMs : Nat)
    {records : List PublishRecord} (h : ∀ handle, BackedAt s handle) (hwaiting : Waiting records s)
    (hloads : ∀ record ∈ records, Loadable record) :
    ∀ handle, BackedAt (records.foldl (resumeRecord w nowMs) s) handle := by
  induction records generalizing s with
  | nil => exact h
  | cons record _ ih =>
    have hopened := backed_insertRow h (hwaiting.stored record List.mem_cons_self)
      (hloads record List.mem_cons_self)
    exact ih (backed_finish hw hstable hopened record.handle nowMs) (hwaiting.tail nowMs)
      fun other hother => hloads other (List.mem_cons_of_mem _ hother)

theorem resumeFromStore_eq (hw : w.Reliable) (s : PublishEngine) (policy : RetryPolicy)
    (nowMs : Nat) : (resumeFromStore w nowMs (stop s policy)).1 =
      (pendingRecords w s.store).foldl (resumeRecord w nowMs) (stop s policy) := by
  rw [resumeFromStore, hw]
  rfl

theorem waiting_stop (w : World) (s : PublishEngine) (policy : RetryPolicy) :
    Waiting (pendingRecords w s.store) (stop s policy) :=
  ⟨pendingRecords_nodup w s.store, fun _ hrecord => (mem_pendingRecords.mp hrecord).1,
    fun _ hrecord => (mem_pendingRecords.mp hrecord).2, fun _ _ => rfl⟩

/-- Between calls every record comes from a row in flight. -/
theorem loadable_stored (h : Settling [] [] s) (hbacked : ∀ handle, BackedAt s handle)
    (hrecord : record ∈ pendingRecords w s.store) : Loadable record := by
  obtain ⟨hstored, -⟩ := mem_pendingRecords.mp hrecord
  obtain ⟨row, hrow⟩ := ((h.each record.handle).owned record hstored).resolve_right
    List.not_mem_nil
  obtain ⟨found, life, saved, hfound, -, -, hloads, -⟩ := hbacked record.handle row hrow
  obtain rfl := Option.eq_some_unique hfound hstored
  exact hloads.loadable

theorem backed_perform (hsettling : Settling [] [] s) (h : ∀ handle, BackedAt s handle)
    {step : World × Call} (hw : step.1.Reliable) (hstable : StableTargets step.1) :
    ∀ handle, BackedAt (perform s step) handle := by
  obtain ⟨w, call⟩ := step
  cases call with
  | startPublish action nowMs override => exact backed_startPublish hw hstable h action nowMs override
  | onAck key ack nowMs => exact backed_moves False [] hw hstable h (onAck_moves key ack nowMs s)
  | tick nowMs => exact backed_moves True _ hw hstable h (tick_moves nowMs s)
  | markRelayUnavailable relayUrl nowMs =>
    exact backed_moves False [] hw hstable h (markRelayUnavailable_moves relayUrl nowMs s)
  | markRelayAvailable relayUrl nowMs =>
    exact backed_moves False _ hw hstable h (markRelayAvailable_moves relayUrl nowMs s)
  | retryNow key nowMs => exact backed_moves False _ hw hstable h (retryNow_moves key nowMs s)
  | cancelByHandle key correlationId => exact backed_cancel h key correlationId
  | restart policy nowMs =>
    have hresume : perform s (w, .restart policy nowMs) = _ := resumeFromStore_eq hw s policy nowMs
    rw [hresume]
    refine backed_resumeAll hw hstable nowMs (fun handle row hrow => ?_) (waiting_stop w s policy)
      fun record hrecord => loadable_stored hsettling h hrecord
    exact absurd hrow nofun

/-- The invariant of a run: rows settle, and every record backs its row. -/
structure Durable (s : PublishEngine) : Prop where
  settling : Settling [] [] s
  backed : ∀ handle, BackedAt s handle

def Sound (step : World × Call) : Prop := step.1.Reliable ∧ StableTargets step.1

theorem durable_run (policy : RetryPolicy) {steps : List (World × Call)}
    (hsteps : ∀ step ∈ steps, Sound step) : Durable (run perform (.new policy .empty) steps) :=
  run_invariant Durable
    (fun _ step hs hok => ⟨settling_perform hs.settling step hok.1,
      backed_perform hs.settling hs.backed hok.1 hok.2⟩)
    ⟨settling_new policy, fun _ _ hrow => absurd hrow nofun⟩
    (meets_of_forall perform Sound _ steps hsteps)

end PublishCrash
