import NostrMultiPlatform.PublishMoves

/-!
# Settlement of publishes

Between calls a row waits for some relay, the store holds the rows in flight, and
the log is lawful: a row leaves with one terminal, which accounts for each of its
relays, and frames go out only for rows in flight. The invariant is kept by every
move; a call ends by settling the rows its moves completed.
-/
namespace PublishSettlement

open JobLog PublishEngine PublishMoves PublishState Runs Sorted Tables Relation SortedMap

/-- A settled terminal lists each target once, as accepted or as failed. -/
def covers (targets : List RelayUrl) (terminal : LastTerminal) : Prop :=
  match terminal.publishQueue with
  | .settled outcome =>
    targets.Nodup ∧ (outcome.accepted ++ outcome.failed.map Prod.fst).Perm targets
  | .cancelled _ => True
  | .none => False

/-- Without a row, a terminal answers a cancel, or a publish that resolved to no relay. -/
def standsAlone (terminal : LastTerminal) : Prop :=
  match terminal.publishQueue with
  | .settled _ => False
  | _ => True

def rules : Rules RelayUrl LastTerminal := ⟨covers, standsAlone⟩

variable {row row' : InFlight} {handle : PublishHandle} {record : PublishRecord}
  {store : PublishStore} {records : List PublishRecord} (log : List LogEntry)

theorem isComplete_iff :
    isComplete row = true ↔
      ∀ url state, row.perRelay.lookup url = some state → state.isTerminal = true := by
  rw [isComplete, List.all_eq_true]
  constructor
  · intro h url state hstate
    exact h (url, state) (lookup_eq_some.mp hstate)
  · intro h r hr
    exact h r.1 r.2 (lookup_eq_some.mpr hr)

theorem isComplete_eq_false :
    isComplete row = false ↔
      ∃ url state, row.perRelay.lookup url = some state ∧ state.isTerminal = false := by
  rw [← Bool.not_eq_true, isComplete_iff]
  push Not
  simp only [Bool.not_eq_true]

theorem isPending_recordOf (handle : PublishHandle) (row : InFlight) :
    isPending (recordOf handle row) = !isComplete row := by
  rw [isPending, isComplete, recordOf, List.not_all_eq_any_not]

theorem keys_perm_of_lookup {m m' : SortedMap RelayUrl PerRelayState}
    (h : ∀ url, (m'.lookup url).isSome = (m.lookup url).isSome) : m'.keys.Perm m.keys := by
  refine (List.perm_ext_iff_of_nodup m'.keys_nodup m.keys_nodup).mpr fun url => ?_
  have hurl := h url
  simp only [mem_keys, ← Option.isSome_iff_exists, hurl]

theorem keys_change {url : RelayUrl} {state : PerRelayState}
    (h : row.perRelay.lookup url = some state) (next : PerRelayState)
    (retries : SortedMap RelayUrl Nat) :
    (change row url next retries).perRelay.keys.Perm row.perRelay.keys := by
  apply keys_perm_of_lookup
  intro other
  rw [lookup_change]
  split
  next heq => rw [heq, h, Option.isSome_some, Option.isSome_some]
  next => rfl

theorem keys_rowMove {sweeping work : Prop} (h : RowMove sweeping work row row') :
    row'.perRelay.keys.Perm row.perRelay.keys := by
  cases h with
  | reschedule => exact .refl _
  | demote _ _ _ hstate => exact keys_change hstate _ _
  | refuse _ _ _ _ _ _ hstate => exact keys_change hstate _ _
  | sweep =>
    apply keys_perm_of_lookup
    intro url
    rw [lookup_mapRows, Option.isSome_map]

theorem lookup_widenRow (row : InFlight) (fresh : SortedMap RelayUrl (List RelaySelectionReason))
    (url : RelayUrl) : (widenRow row fresh).perRelay.lookup url =
      if url ∈ fresh.keys then some .pending else row.perRelay.lookup url := by
  have hfold : ∀ (rows : List (RelayUrl × List RelaySelectionReason))
      (m : SortedMap RelayUrl PerRelayState),
      (rows.foldl (fun m r => m.insert r.1 .pending) m).lookup url =
        if url ∈ rows.map Prod.fst then some .pending else m.lookup url := by
    intro rows
    induction rows with
    | nil => intro m; rfl
    | cons r _ ih =>
      intro m
      rw [List.foldl_cons, ih, lookup_insert, List.map_cons]
      by_cases h : url = r.1
      · simp only [h, List.mem_cons_self, if_true, ite_self]
      · simp only [h, List.mem_cons, false_or, if_false]
  exact hfold fresh.rows row.perRelay

theorem keys_widenRow {fresh : SortedMap RelayUrl (List RelaySelectionReason)}
    (h : ∀ url ∈ fresh.keys, row.perRelay.lookup url = none) :
    (widenRow row fresh).perRelay.keys.Perm (row.perRelay.keys ++ fresh.keys) := by
  have hdisjoint : (row.perRelay.keys ++ fresh.keys).Nodup := by
    refine List.nodup_append.mpr ⟨row.perRelay.keys_nodup, fresh.keys_nodup, ?_⟩
    rintro url hurl _ hfresh rfl
    obtain ⟨state, hstate⟩ := mem_keys.mp hurl
    rw [h url hfresh] at hstate
    cases hstate
  refine (List.perm_ext_iff_of_nodup (keys_nodup _) hdisjoint).mpr fun url => ?_
  rw [mem_keys, lookup_widenRow, List.mem_append]
  by_cases hurl : url ∈ fresh.keys
  · simp [hurl]
  · rw [if_neg hurl, ← mem_keys]
    exact (or_iff_left hurl).symm

theorem isComplete_widenRow {fresh : SortedMap RelayUrl (List RelaySelectionReason)}
    (h : fresh.rows ≠ []) : isComplete (widenRow row fresh) = false := by
  obtain ⟨r, hr⟩ := List.exists_mem_of_ne_nil _ h
  have hkey : r.1 ∈ fresh.keys := List.mem_map_of_mem hr
  exact isComplete_eq_false.mpr ⟨r.1, .pending, by rw [lookup_widenRow, if_pos hkey], rfl⟩

/-- Over settled states the accepted and the failed relays are all relays. -/
theorem outcome_perm {rows : List (RelayUrl × PerRelayState)}
    (h : ∀ r ∈ rows, r.2.isTerminal = true) :
    (rows.filterMap (fun r => match r.2 with
      | .ok _ => some r.1
      | _ => none) ++
    (rows.filterMap fun r => match r.2 with
      | .failedAfterRetries reason _ => some (r.1, reason)
      | _ => none).map Prod.fst).Perm (rows.map Prod.fst) := by
  induction rows with
  | nil => exact .refl _
  | cons r _ ih =>
    have hrest := ih fun r' hr' => h r' (List.mem_cons_of_mem r hr')
    have hr := h r List.mem_cons_self
    obtain ⟨url, state⟩ := r
    cases state with
    | ok => exact hrest.cons url
    | failedAfterRetries => exact (List.perm_middle).trans (hrest.cons url)
    | _ => cases hr

theorem covers_fromOutcome (handle : PublishHandle) (h : isComplete row = true)
    {targets : List RelayUrl} (htargets : targets.Perm row.perRelay.keys) :
    covers targets (LastTerminal.fromOutcome handle row.correlationIdOverride
      (terminalOutcomeOf row)) := by
  refine ⟨htargets.nodup_iff.mpr row.perRelay.keys_nodup, ?_⟩
  have hall : ∀ r ∈ row.perRelay.rows, r.2.isTerminal = true :=
    fun r hr => isComplete_iff.mp h r.1 r.2 (lookup_eq_some.mpr hr)
  exact (outcome_perm hall).trans htargets.symm

def Tracks (row : InFlight) (life : Life RelayUrl PerRelayState) : Prop :=
  life.targets.Perm row.perRelay.keys

/-- The terminals recorded since the process started. -/
def terminalsOf (log : List LogEntry) : List LastTerminal :=
  log.foldl (fun terminals e =>
    match e with
    | .ended _ terminal => terminals ++ [terminal]
    | .stopped => []
    | _ => terminals) []

/-- What holds of one handle; a row under work may be complete, a record may wait to be loaded. -/
structure SettlingAt (work rest : List PublishHandle) (s : PublishEngine)
    (handle : PublishHandle) : Prop where
  lawful : Lawful rules handle s.log
  tracks : Option.Rel Tracks (s.inFlight.lookup handle) (lifeOf handle s.log)
  stored : ∀ row, s.inFlight.lookup handle = some row →
    ∃ record, s.store.rows.lookup handle = some record ∧
      (isComplete row = false → isPending record = true)
  owned : ∀ record, s.store.rows.lookup handle = some record →
    (∃ row, s.inFlight.lookup handle = some row) ∨ handle ∈ rest
  waits : ∀ row, s.inFlight.lookup handle = some row → handle ∉ work → isComplete row = false

structure Settling (work rest : List PublishHandle) (s : PublishEngine) : Prop where
  each : ∀ handle, SettlingAt work rest s handle
  recorded : s.pendingTerminals = terminalsOf s.log

variable {w : World} {sweeping : Prop} {work rest : List PublishHandle} {s s' : PublishEngine}

theorem SettlingAt.off {key handle : PublishHandle} (h : SettlingAt work rest s handle)
    (hoff : Off key s s') (hne : handle ≠ key) : SettlingAt work rest s' handle := by
  obtain ⟨more, hlog, habout⟩ := hoff.log
  have hrun : run (follow handle) (lifeOf handle s.log) more = lifeOf handle s.log ∧
      Meets (follow handle) (Proper rules handle) (lifeOf handle s.log) more :=
    run_other habout hne.symm _
  have hlife : lifeOf handle s'.log = lifeOf handle s.log := by
    rw [hlog, lifeOf_append, hrun.1]
  refine ⟨?_, ?_, ?_, ?_, ?_⟩
  · rw [hlog]
    exact lawful_append.mpr ⟨h.lawful, hrun.2⟩
  · rw [hoff.rows handle hne, hlife]
    exact h.tracks
  · rw [hoff.rows handle hne, hoff.store handle hne]
    exact h.stored
  · rw [hoff.rows handle hne, hoff.store handle hne]
    exact h.owned
  · rw [hoff.rows handle hne]
    exact h.waits

theorem terminalsOf_ended (handle : PublishHandle) (terminal : LastTerminal) :
    terminalsOf (log ++ [.ended handle terminal]) = terminalsOf log ++ [terminal] :=
  List.foldl_concat ..

theorem terminalsOf_stopped : terminalsOf (log ++ [.stopped]) = [] :=
  List.foldl_concat ..

theorem terminalsOf_note {e : LogEntry} (hended : ∀ h t, e ≠ .ended h t) (hstopped : e ≠ .stopped) :
    terminalsOf (log ++ [e]) = terminalsOf log := by
  refine (List.foldl_concat ..).trans ?_
  cases e with
  | ended handle terminal => exact absurd rfl (hended handle terminal)
  | stopped => exact absurd rfl hstopped
  | _ => rfl

theorem Settling.life (h : Settling work rest s) {handle : PublishHandle} {row : InFlight}
    (hrow : s.inFlight.lookup handle = some row) :
    ∃ life, lifeOf handle s.log = some life ∧ life.targets.Perm row.perRelay.keys := by
  have htracks := (h.each handle).tracks
  rw [hrow] at htracks
  cases hlife : lifeOf handle s.log with
  | none => rw [hlife] at htracks; cases htracks
  | some life =>
    rw [hlife] at htracks
    cases htracks with
    | some hperm => exact ⟨life, rfl, hperm⟩

theorem Settling.lifeless (h : Settling work rest s) (hrow : s.inFlight.lookup handle = none) :
    lifeOf handle s.log = none := by
  have htracks := (h.each handle).tracks
  rw [hrow] at htracks
  cases hlife : lifeOf handle s.log with
  | none => rfl
  | some => rw [hlife] at htracks; cases htracks

/-- A move that keeps the handle's row in flight. -/
theorem settlingAt_of_row (life : Life RelayUrl PerRelayState)
    (hlawful : Lawful rules handle s'.log) (hlife : lifeOf handle s'.log = some life)
    (hperm : life.targets.Perm row.perRelay.keys) (hrow : s'.inFlight.lookup handle = some row)
    (hrecord : s'.store.rows.lookup handle = some record)
    (hpending : isComplete row = false → isPending record = true)
    (hwaits : handle ∉ work → isComplete row = false) : SettlingAt work rest s' handle where
  lawful := hlawful
  tracks := by
    rw [hrow, hlife]
    exact .some hperm
  stored := by
    intro row' hrow'
    rw [hrow] at hrow'
    exact ⟨record, hrecord, Option.some.inj hrow' ▸ hpending⟩
  owned _ _ := .inl ⟨row, hrow⟩
  waits := by
    intro row' hrow'
    rw [hrow] at hrow'
    exact Option.some.inj hrow' ▸ hwaits

/-- A move that ends the handle's row and deletes its record. -/
theorem settlingAt_of_none (hlawful : Lawful rules handle s'.log)
    (hlife : lifeOf handle s'.log = none) (hrow : s'.inFlight.lookup handle = none)
    (hrecord : s'.store.rows.lookup handle = none) : SettlingAt work rest s' handle where
  lawful := hlawful
  tracks := by
    rw [hrow, hlife]
    exact .none
  stored _ h := by
    rw [hrow] at h
    cases h
  owned _ h := by
    rw [hrecord] at h
    cases h
  waits _ h := by
    rw [hrow] at h
    cases h

theorem Upserted.reliable (hw : w.Reliable) {store store' : PublishStore}
    (h : Upserted w record store store') : store'.rows.lookup record.handle = some record := by
  rcases h with rfl | ⟨hnot, -⟩
  · exact AList.lookup_insert _
  · exact absurd hw hnot

theorem Deleted.reliable (hw : w.Reliable) {store store' : PublishStore}
    (h : Deleted w handle store store') : store'.rows.lookup handle = none := by
  rcases h with rfl | ⟨hnot, -⟩
  · exact AList.lookup_erase _ _
  · exact absurd hw hnot

theorem isComplete_rowMove {work : Prop} (h : RowMove sweeping work row row')
    (hcomplete : isComplete row = true) : isComplete row' = true := by
  have hall := isComplete_iff.mp hcomplete
  cases h with
  | reschedule => exact hcomplete
  | demote url state _ hstate hflight =>
    have hterminal := hall url state hstate
    cases state with
    | inFlight => cases hterminal
    | _ => cases hflight
  | refuse url state _ _ _ _ hstate hopen =>
    rw [hall url state hstate] at hopen
    cases hopen
  | sweep _ _ _ hf =>
    refine isComplete_iff.mpr fun url state hstate => ?_
    rw [lookup_mapRows, Option.map_eq_some_iff] at hstate
    obtain ⟨before, hbefore, rfl⟩ := hstate
    rcases hf url before with heq | ⟨hopen, -⟩
    · rw [heq]
      exact hall url before hbefore
    · rw [hall url before hbefore] at hopen
      cases hopen

theorem waits_rowMove {work : Prop} (h : RowMove sweeping work row row') (hwork : ¬ work)
    (hwaits : isComplete row = false) : isComplete row' = false := by
  cases h with
  | reschedule => exact hwaits
  | demote url =>
    exact isComplete_eq_false.mpr ⟨url, .pending, by rw [lookup_change, if_pos rfl], rfl⟩
  | refuse _ _ _ _ _ hw => exact absurd hw hwork
  | sweep f hw => exact absurd hw hwork

theorem isPending_of_rowMove {work : Prop} (h : RowMove sweeping work row row')
    (hpending : isComplete row = false → isPending record = true) (hleft : isComplete row' = false)
    : isPending record = true := by
  apply hpending
  by_contra hcomplete
  rw [isComplete_rowMove h (Bool.not_eq_false _ ▸ hcomplete)] at hleft
  cases hleft

theorem settlingAt_evict (life : Life RelayUrl PerRelayState) (hlawful : Lawful rules handle s.log)
    (hlife : lifeOf handle s.log = some life) (hperm : life.targets.Perm row.perRelay.keys)
    (hdone : isComplete row = true) (hstore : store.rows.lookup handle = none) :
    SettlingAt work rest (evict s handle row store) handle := by
  have hcovers := covers_fromOutcome handle hdone hperm
  refine settlingAt_of_none ?_ ?_ (AList.lookup_erase _ _) hstore
  · exact lawful_snoc.mpr ⟨hlawful, fun _ => .inl ⟨life, hlife, hcovers⟩⟩
  · change lifeOf handle (s.log ++ [.ended handle _]) = none
    rw [lifeOf_snoc, follow, if_pos rfl]

theorem mem_keys_of_lookup {url : RelayUrl} {state : PerRelayState}
    (h : row.perRelay.lookup url = some state) : url ∈ row.perRelay.keys :=
  mem_keys.mpr ⟨state, h⟩

/-- The handle a move acts on. -/
theorem settlingAt_act (hw : w.Reliable) (h : Settling work rest s)
    (hact : Act w sweeping work handle s s') : SettlingAt work rest s' handle := by
  obtain ⟨row, hfound⟩ := hact.row
  obtain ⟨life, hlife, hperm⟩ := h.life hfound
  obtain ⟨record, hrecord, hpending⟩ := (h.each handle).stored row hfound
  have hlawful := (h.each handle).lawful
  have hwaits := (h.each handle).waits row hfound
  have htarget : ∀ {url state}, row.perRelay.lookup url = some state → url ∈ life.targets :=
    fun hstate => hperm.symm.subset (mem_keys_of_lookup hstate)
  cases hact with
  | edit _ _ hrow hmove =>
    obtain rfl := Option.eq_some_unique hfound hrow
    refine settlingAt_of_row life hlawful hlife (hperm.trans (keys_rowMove hmove).symm)
      (lookup_setRow_self ..) hrecord (isPending_of_rowMove hmove hpending) ?_
    exact fun hnot => waits_rowMove hmove hnot (hwaits hnot)
  | send _ url state retries sentAtMs attempt hrow hstate hopen =>
    obtain rfl := Option.eq_some_unique hfound hrow
    have hopen' : isComplete (change row url (.inFlight sentAtMs attempt) retries) = false :=
      isComplete_eq_false.mpr ⟨url, _, by rw [lookup_change, if_pos rfl], rfl⟩
    have hleft : isComplete row = false := isComplete_eq_false.mpr ⟨url, state, hstate, hopen⟩
    refine settlingAt_of_row life ?_ ?_
      (hperm.trans (keys_change hstate (.inFlight sentAtMs attempt) retries).symm)
      (lookup_setRow_self ..) hrecord (fun _ => hpending hleft) (fun _ => hopen')
    · exact lawful_snoc.mpr ⟨hlawful, fun _ => ⟨life, hlife, htarget hstate⟩⟩
    · exact (lifeOf_snoc handle s.log _).trans hlife
  | answer _ url _ next retries _ hrow hstate _ hleft hstore =>
    obtain rfl := Option.eq_some_unique hfound hrow
    refine settlingAt_of_row ⟨life.targets, life.answers ++ [(url, next)]⟩ ?_ ?_
      (hperm.trans (keys_change hstate next retries).symm) (lookup_setRow_self ..)
      (Upserted.reliable hw hstore) (fun _ => ?_) (fun _ => hleft)
    · exact lawful_snoc.mpr ⟨hlawful, fun _ => ⟨life, hlife, htarget hstate⟩⟩
    · refine (lifeOf_snoc handle s.log _).trans ?_
      rw [follow, if_pos rfl, hlife, Option.map_some]
    · rw [isPending_recordOf, hleft, Bool.not_false]
  | close _ url _ next retries _ hrow hstate _ hdone hstore =>
    obtain rfl := Option.eq_some_unique hfound hrow
    refine settlingAt_evict ⟨life.targets, life.answers ++ [(url, next)]⟩ ?_ ?_
      (hperm.trans (keys_change hstate next retries).symm) hdone (Deleted.reliable hw hstore)
    · exact lawful_snoc.mpr ⟨hlawful, fun _ => ⟨life, hlife, htarget hstate⟩⟩
    · refine (lifeOf_snoc handle s.log _).trans ?_
      rw [follow, if_pos rfl, hlife, Option.map_some]
  | save _ _ hrow hstore =>
    obtain rfl := Option.eq_some_unique hfound hrow
    refine settlingAt_of_row life hlawful hlife hperm hfound (Upserted.reliable hw hstore)
      (fun hleft => ?_) hwaits
    rw [isPending_recordOf, hleft, Bool.not_false]
  | widen _ fresh _ hrow hfresh hsome _ hstore =>
    obtain rfl := Option.eq_some_unique hfound hrow
    have hleft : isComplete (widenRow row fresh) = false := isComplete_widenRow hsome
    refine settlingAt_of_row ⟨life.targets ++ fresh.keys, life.answers⟩ ?_ ?_
      ((hperm.append_right _).trans (keys_widenRow hfresh).symm) (lookup_setRow_self ..)
      (Upserted.reliable hw hstore) (fun _ => ?_) (fun _ => hleft)
    · exact lawful_snoc.mpr ⟨hlawful, fun _ => Option.isSome_iff_exists.mpr ⟨life, hlife⟩⟩
    · refine (lifeOf_snoc handle s.log _).trans ?_
      rw [follow, if_pos rfl, hlife, Option.map_some]
    · rw [isPending_recordOf, hleft, Bool.not_false]
  | settle _ _ hrow hdone hstore =>
    obtain rfl := Option.eq_some_unique hfound hrow
    exact settlingAt_evict life hlawful hlife hperm hdone (Deleted.reliable hw hstore)

theorem recorded_act (h : s.pendingTerminals = terminalsOf s.log)
    (hact : Act w sweeping work handle s s') : s'.pendingTerminals = terminalsOf s'.log := by
  cases hact with
  | edit | save => exact h
  | send _ url => exact h.trans (terminalsOf_note s.log (e := .sent handle url) nofun nofun).symm
  | answer _ url _ next =>
    exact h.trans (terminalsOf_note s.log (e := .answered handle url next) nofun nofun).symm
  | widen _ fresh =>
    exact h.trans (terminalsOf_note s.log (e := .widened handle fresh.keys) nofun nofun).symm
  | settle =>
    refine Eq.trans ?_ (terminalsOf_ended s.log handle _).symm
    exact congrArg (· ++ _) h
  | close _ url _ next =>
    refine Eq.trans ?_ (terminalsOf_ended (s.log ++ [.answered handle url next]) handle _).symm
    exact congrArg (· ++ _)
      (h.trans (terminalsOf_note s.log (e := .answered handle url next) nofun nofun).symm)

theorem settling_move (sweeping : Prop) (hw : w.Reliable) (h : Settling work rest s)
    (hmove : Move w sweeping work s s') : Settling work rest s' := by
  cases hmove with
  | gate =>
    refine ⟨fun handle => ?_, h.recorded⟩
    obtain ⟨hlawful, htracks, hstored, howned, hwaits⟩ := h.each handle
    exact ⟨hlawful, htracks, hstored, howned, hwaits⟩
  | act key hact =>
    refine ⟨fun handle => ?_, recorded_act h.recorded hact⟩
    by_cases hkey : handle = key
    · rw [hkey]
      exact settlingAt_act hw h hact
    · exact (h.each handle).off hact.off hkey

theorem settling_moves (sweeping : Prop) (hw : w.Reliable) (h : Settling work rest s)
    (hmoves : Moves w sweeping work s s') : Settling work rest s' := by
  induction hmoves with
  | refl => exact h
  | tail _ hmove ih => exact settling_move sweeping hw ih hmove

theorem Settling.mono (h : Settling work rest s) {work' : List PublishHandle}
    (hwork : ∀ handle ∈ work, handle ∈ work') : Settling work' rest s := by
  refine ⟨fun handle => ?_, h.recorded⟩
  obtain ⟨hlawful, htracks, hstored, howned, hwaits⟩ := h.each handle
  exact ⟨hlawful, htracks, hstored, howned, fun row hrow hnot =>
    hwaits row hrow fun hmem => hnot (hwork handle hmem)⟩

theorem finalizeRow_off (s : PublishEngine) {key handle : PublishHandle} (hne : handle ≠ key) :
    (finalizeRow w s key).inFlight.lookup handle = s.inFlight.lookup handle := by
  unfold finalizeRow
  split
  next => rfl
  next row hrow =>
    split
    next =>
      obtain ⟨store, hsettle, -⟩ := settleRow_eq w key row s
      rw [hsettle]
      exact AList.lookup_erase_ne hne
    next => rfl

theorem finalizeRow_waits (s : PublishEngine) (handle : PublishHandle)
    (h : (finalizeRow w s handle).inFlight.lookup handle = some row) : isComplete row = false := by
  unfold finalizeRow at h
  split at h
  next hnone =>
    rw [hnone] at h
    cases h
  next found hrow =>
    split at h
    next =>
      obtain ⟨store, hsettle, -⟩ := settleRow_eq w handle found s
      rw [hsettle] at h
      rw [show (evict s handle found store).inFlight.lookup handle = none from
        AList.lookup_erase _ _] at h
      cases h
    next hleft =>
      rw [hrow] at h
      exact Option.some.inj h ▸ Bool.not_eq_true _ ▸ hleft

/-- Finalization leaves no complete row among the handles. -/
theorem finalizeCompletedRows_waits {handles : List PublishHandle} (s : PublishEngine)
    (hmem : handle ∈ handles)
    (h : (finalizeCompletedRows w handles s).inFlight.lookup handle = some row) :
    isComplete row = false := by
  induction handles generalizing s with
  | nil => cases hmem
  | cons key others ih =>
    by_cases hlater : handle ∈ others
    · exact ih (finalizeRow w s key) hlater h
    · have hkey : handle = key := (List.mem_cons.mp hmem).resolve_right hlater
      have hkept : ∀ (others : List PublishHandle) t, handle ∉ others →
          (others.foldl (finalizeRow w) t).inFlight.lookup handle = t.inFlight.lookup handle := by
        intro others
        induction others with
        | nil => intro t _; rfl
        | cons _ _ ih' =>
          intro t hnot
          obtain ⟨hk, hmore⟩ := not_or.mp (mt List.mem_cons.mpr hnot)
          exact (ih' _ hmore).trans (finalizeRow_off t hk)
      rw [finalizeCompletedRows, List.foldl_cons, hkept others _ hlater] at h
      subst hkey
      exact finalizeRow_waits s handle h

theorem settling_finalize (hw : w.Reliable) (h : Settling work rest s) :
    Settling [] rest (finalizeCompletedRows w work s) := by
  have hkept : Settling work rest (finalizeCompletedRows w work s) :=
    settling_moves False hw h (finalizeCompletedRows_moves work s)
  refine ⟨fun handle => ?_, hkept.recorded⟩
  obtain ⟨hlawful, htracks, hstored, howned, hwaits⟩ := hkept.each handle
  refine ⟨hlawful, htracks, hstored, howned, fun row hrow _ => ?_⟩
  by_cases hmem : handle ∈ work
  · exact finalizeCompletedRows_waits s hmem hrow
  · exact hwaits row hrow hmem

/-- A row enters under a handle that has a record. -/
theorem settling_open (h : Settling work rest s) (hnew : s.inFlight.lookup handle = none)
    (hwork : handle ∈ work) (hrecord : store.rows.lookup handle = some record)
    (hpending : isPending record = true)
    (hothers : ∀ other, other ≠ handle → store.rows.lookup other = s.store.rows.lookup other)
    {rest' : List PublishHandle} (hrest : ∀ other ∈ rest, other ≠ handle → other ∈ rest') :
    Settling work rest' { insertRow handle row s with store := store } := by
  have hoff : Off handle s { insertRow handle row s with store := store } :=
    ((off_setRow s handle row).logged rfl).withStore hothers
  refine ⟨fun other => ?_, h.recorded.trans (terminalsOf_note s.log
    (e := .opened handle row.perRelay.keys) nofun nofun).symm⟩
  by_cases hkey : other = handle
  · subst hkey
    refine settlingAt_of_row ⟨row.perRelay.keys, []⟩ ?_ ?_ (.refl _)
      (lookup_setRow_self ..) hrecord (fun _ => hpending) (fun hnot => absurd hwork hnot)
    · exact lawful_snoc.mpr ⟨(h.each other).lawful, fun _ => h.lifeless hnew⟩
    · refine (lifeOf_snoc other s.log _).trans ?_
      rw [follow, if_pos rfl]
  · obtain ⟨hlawful, htracks, hstored, howned, hwaits⟩ := (h.each other).off hoff hkey
    refine ⟨hlawful, htracks, hstored, fun record hrecord => ?_, hwaits⟩
    exact (howned record hrecord).imp_right fun hmem => hrest other hmem hkey

/-- A terminal recorded for a handle without a row. -/
theorem settling_recordTerminal (h : Settling work rest s) {terminal : LastTerminal}
    (hnone : s.inFlight.lookup handle = none) (halone : standsAlone terminal) :
    Settling work rest (recordTerminal handle terminal s) := by
  refine ⟨fun other => ?_, (congrArg (· ++ _) h.recorded).trans
    (terminalsOf_ended s.log handle terminal).symm⟩
  have hoff : Off handle s (recordTerminal handle terminal s) :=
    ⟨fun _ _ => rfl, fun _ _ => rfl, [.ended handle terminal], rfl, by simp [Entry.about]⟩
  by_cases hkey : other = handle
  · subst hkey
    obtain ⟨hlawful, htracks, hstored, howned, hwaits⟩ := h.each other
    refine ⟨lawful_snoc.mpr ⟨hlawful, fun _ => .inr ⟨h.lifeless hnone, halone⟩⟩, ?_, hstored,
      howned, hwaits⟩
    change Option.Rel Tracks (s.inFlight.lookup other) (lifeOf other (s.log ++ [.ended other terminal]))
    rw [lifeOf_snoc, follow, if_pos rfl, hnone]
    exact .none
  · exact (h.each other).off hoff hkey

theorem settling_cancel (hw : w.Reliable) (h : Settling work rest s) (handle : PublishHandle)
    (correlationId : String) : Settling work rest (cancelByHandle w handle correlationId s) := by
  let gone : PublishEngine := { s with inFlight := s.inFlight.erase handle }
  let terminal : LastTerminal :=
    ⟨correlationId, "cancelled", none, some handle, .cancelled handle⟩
  obtain ⟨store, hdelete, hstore⟩ := delete_spec w handle (recordTerminal handle terminal gone)
  have hcall : cancelByHandle w handle correlationId s =
      { recordTerminal handle terminal gone with store := store } := hdelete
  have hoff : Off handle s { recordTerminal handle terminal gone with store := store } :=
    ⟨fun other hne => AList.lookup_erase_ne hne, fun other hne => Deleted.off hstore hne,
      [.ended handle terminal], rfl, by simp [Entry.about]⟩
  rw [hcall]
  refine ⟨fun other => ?_, (congrArg (· ++ _) h.recorded).trans
    (terminalsOf_ended s.log handle terminal).symm⟩
  by_cases hkey : other = handle
  · subst hkey
    refine settlingAt_of_none ?_ ?_ (AList.lookup_erase _ _) (Deleted.reliable hw hstore)
    · refine lawful_snoc.mpr ⟨(h.each other).lawful, fun _ => ?_⟩
      cases hlife : lifeOf other s.log with
      | none => exact .inr ⟨rfl, trivial⟩
      | some life => exact .inl ⟨life, rfl, trivial⟩
    · refine (lifeOf_snoc other s.log _).trans ?_
      rw [follow, if_pos rfl]
  · exact (h.each other).off hoff hkey

theorem upsert_reliable (hw : w.Reliable) (record : PublishRecord) (s : PublishEngine) :
    upsert w record s = ({ s with store := s.store.upsert record }, none) := by
  rw [upsert, hw]

theorem settling_startPublish (hw : w.Reliable) (h : Settling [] [] s) (action : PublishAction)
    (nowMs : Nat) (override : Option String) :
    Settling [] [] (startPublish w action nowMs override s).1 := by
  cases action with
  | publish handle event target =>
    rw [startPublish, startPublishInner]
    split
    next => exact h
    next hnot =>
      have hnew : s.inFlight.lookup handle = none := AList.lookup_eq_none.mpr hnot
      dsimp only
      split
      next => exact settling_recordTerminal h hnew trivial
      next hsome =>
        let row := newRow event target (relayMap (resolveFor w event target)) override
        have hleft : isComplete row = false := by
          obtain ⟨r, hr⟩ := List.exists_mem_of_ne_nil _ hsome
          refine isComplete_eq_false.mpr ⟨r.1, .pending, ?_, rfl⟩
          refine (lookup_mapRows _ _ r.1).trans ?_
          rw [lookup_eq_some.mpr hr, Option.map_some]
        have hopened : Settling [handle] [] { insertRow handle row s with
            store := s.store.upsert (recordOf handle row) } := by
          refine settling_open (h.mono (by simp)) hnew List.mem_cons_self
            (AList.lookup_insert _) ?_ (fun other hne => AList.lookup_insert_ne hne) (by simp)
          rw [isPending_recordOf, hleft, Bool.not_false]
        have hfound : (insertRow handle row s).inFlight.lookup handle = some row :=
          lookup_setRow_self s handle row
        rw [persist_eq w hfound, upsert_reliable hw]
        exact settling_finalize hw (settling_moves False hw hopened
          (dispatchPending_moves List.mem_cons_self nowMs _))
  | _ => exact h

theorem settling_retryNow (hw : w.Reliable) (h : Settling [] [] s) (handle : PublishHandle)
    (nowMs : Nat) : Settling [] [] (retryNow w handle nowMs s).1 := by
  unfold retryNow
  split
  next => exact h
  next row hrow =>
    have hdrop : Move w False [handle] s (setRow s handle (dropRetries row)) :=
      .act handle (.edit row _ hrow (.reschedule row _))
    have hfound : (setRow s handle (dropRetries row)).inFlight.lookup handle =
        some (dropRetries row) := lookup_setRow_self ..
    have hsave : Moves w False [handle] (setRow s handle (dropRetries row))
        (persist w handle (setRow s handle (dropRetries row))).1 := persist_moves _ handle
    rw [persist_eq w hfound, upsert_reliable hw] at hsave ⊢
    refine settling_finalize hw (settling_moves False hw (h.mono (by simp)) ?_)
    exact .head hdrop (hsave.trans (dispatchPending_moves List.mem_cons_self nowMs _))

/-- Handles without a row are left alone by every move. -/
theorem moves_off {hs : List PublishHandle} (h : Moves w sweeping hs s s')
    (hnone : s.inFlight.lookup handle = none) :
    s'.inFlight.lookup handle = none ∧
      s'.store.rows.lookup handle = s.store.rows.lookup handle := by
  induction h with
  | refl => exact ⟨hnone, rfl⟩
  | tail _ hmove ih =>
    obtain ⟨hrow, hstore⟩ := ih
    cases hmove with
    | gate => exact ⟨hrow, hstore⟩
    | act key hact =>
      have hne : handle ≠ key := by
        rintro rfl
        obtain ⟨row, hfound⟩ := hact.row
        rw [hrow] at hfound
        cases hfound
      exact ⟨(hact.off.rows handle hne).trans hrow, (hact.off.store handle hne).trans hstore⟩

/-- The records still to be loaded: in the store, pending, and without a row. -/
structure Waiting (records : List PublishRecord) (s : PublishEngine) : Prop where
  nodup : (records.map (·.handle)).Nodup
  stored : ∀ record ∈ records, s.store.rows.lookup record.handle = some record
  pending : ∀ record ∈ records, isPending record = true
  rowless : ∀ record ∈ records, s.inFlight.lookup record.handle = none

theorem resumeRecord_moves (nowMs : Nat) (s : PublishEngine) (record : PublishRecord) :
    Moves w False [record.handle] (insertRow record.handle (rowOfRecord record) s)
      (resumeRecord w nowMs s record) :=
  (dispatchPending_moves List.mem_cons_self nowMs _).trans (finalizeCompletedRows_moves _ _)

theorem Waiting.tail (h : Waiting (record :: records) s) (nowMs : Nat) :
    Waiting records (resumeRecord w nowMs s record) := by
  obtain ⟨hhead, htail⟩ := List.nodup_cons.mp h.nodup
  have hkept : ∀ other ∈ records,
      (resumeRecord w nowMs s record).inFlight.lookup other.handle = none ∧
        (resumeRecord w nowMs s record).store.rows.lookup other.handle = some other := by
    intro other hother
    have hne : other.handle ≠ record.handle := fun heq =>
      hhead (List.mem_map.mpr ⟨other, hother, heq⟩)
    have hnone : (insertRow record.handle (rowOfRecord record) s).inFlight.lookup other.handle =
        none := (AList.lookup_insert_ne hne).trans (h.rowless other (List.mem_cons_of_mem _ hother))
    obtain ⟨hrow, hstore⟩ := moves_off (resumeRecord_moves (w := w) nowMs s record) hnone
    exact ⟨hrow, hstore.trans (h.stored other (List.mem_cons_of_mem _ hother))⟩
  exact ⟨htail, fun other hother => (hkept other hother).2,
    fun other hother => h.pending other (List.mem_cons_of_mem _ hother),
    fun other hother => (hkept other hother).1⟩

theorem settling_resumeRecord (hw : w.Reliable) (nowMs : Nat)
    (h : Settling [] ((record :: records).map (·.handle)) s)
    (hwaiting : Waiting (record :: records) s) :
    Settling [] (records.map (·.handle)) (resumeRecord w nowMs s record) := by
  have hhead : record ∈ record :: records := List.mem_cons_self
  have hopened : Settling [record.handle] (records.map (·.handle))
      { insertRow record.handle (rowOfRecord record) s with store := s.store } :=
    settling_open (h.mono (by simp)) (hwaiting.rowless record hhead) List.mem_cons_self
      (hwaiting.stored record hhead) (hwaiting.pending record hhead) (fun _ _ => rfl)
      fun other hmem hne => (List.mem_cons.mp hmem).resolve_left hne
  exact settling_finalize hw (settling_moves False hw hopened
    (dispatchPending_moves List.mem_cons_self nowMs _))

theorem settling_resumeAll (hw : w.Reliable) (nowMs : Nat)
    (h : Settling [] (records.map (·.handle)) s) (hwaiting : Waiting records s) :
    Settling [] [] (records.foldl (resumeRecord w nowMs) s) := by
  induction records generalizing s with
  | nil => exact h
  | cons _ _ ih =>
    exact ih (settling_resumeRecord hw nowMs h hwaiting) (hwaiting.tail nowMs)

theorem mem_pendingRecords :
    record ∈ pendingRecords w store ↔
      store.rows.lookup record.handle = some record ∧ isPending record = true := by
  rw [pendingRecords, List.mem_filter, List.mem_filterMap]
  constructor
  · rintro ⟨⟨handle, -, hrow⟩, hpending⟩
    rw [store.keyed handle record hrow]
    exact ⟨hrow, hpending⟩
  · rintro ⟨hrow, hpending⟩
    refine ⟨⟨record.handle, ?_, hrow⟩, hpending⟩
    exact (w.loadOrder_perm store.rows).symm.subset
      (AList.mem_keys.mp ((mem_iff_lookup _ _).mpr ⟨record, hrow⟩))

theorem pendingRecords_nodup (w : World) (store : PublishStore) :
    ((pendingRecords w store).map (·.handle)).Nodup := by
  have hall : (((w.loadOrder store.rows).filterMap store.rows.lookup).map (·.handle)).Sublist
      (w.loadOrder store.rows) := by
    induction w.loadOrder store.rows with
    | nil => exact .refl _
    | cons handle _ ih =>
      rw [List.filterMap_cons]
      split
      next => exact ih.cons handle
      next record hrow =>
        rw [List.map_cons, store.keyed handle record hrow]
        exact ih.cons_cons handle
  have hsub : ((pendingRecords w store).map (·.handle)).Sublist (w.loadOrder store.rows) :=
    (List.filter_sublist.map _).trans hall
  exact hsub.nodup ((w.loadOrder_perm store.rows).nodup_iff.mpr store.rows.keys_nodup)

theorem settling_restart (hw : w.Reliable) (h : Settling [] [] s) (policy : RetryPolicy)
    (nowMs : Nat) : Settling [] [] (resumeFromStore w nowMs (stop s policy)).1 := by
  have hload : resumeFromStore w nowMs (stop s policy) =
      ((pendingRecords w s.store).foldl (resumeRecord w nowMs) (stop s policy), none) := by
    rw [resumeFromStore, hw]
    rfl
  have hrows : ∀ handle, (stop s policy).inFlight.lookup handle = none := fun _ => rfl
  rw [hload]
  refine settling_resumeAll hw nowMs ⟨fun handle => ⟨?_, ?_, ?_, ?_, ?_⟩, ?_⟩
    ⟨pendingRecords_nodup w s.store, ?_, ?_, fun record _ => hrows record.handle⟩
  · exact lawful_snoc.mpr ⟨(h.each handle).lawful, trivial⟩
  · rw [hrows, show lifeOf handle (stop s policy).log = none from lifeOf_snoc ..]
    exact .none
  · exact fun row hrow => absurd ((hrows handle).symm.trans hrow) nofun
  · intro record hrecord
    refine .inr (List.mem_map.mpr ⟨record, ?_, s.store.keyed handle record hrecord⟩)
    refine mem_pendingRecords.mpr ⟨(s.store.keyed handle record hrecord).symm ▸ hrecord, ?_⟩
    obtain ⟨row, hrow⟩ := ((h.each handle).owned record hrecord).resolve_right List.not_mem_nil
    obtain ⟨found, hfound, hpending⟩ := (h.each handle).stored row hrow
    obtain rfl := Option.eq_some_unique hfound hrecord
    exact hpending ((h.each handle).waits row hrow List.not_mem_nil)
  · exact fun row hrow => absurd ((hrows handle).symm.trans hrow) nofun
  · exact (terminalsOf_stopped s.log).symm
  · exact fun record hrecord => (mem_pendingRecords.mp hrecord).1
  · exact fun record hrecord => (mem_pendingRecords.mp hrecord).2

theorem settling_tick (hw : w.Reliable) (h : Settling [] [] s) (nowMs : Nat) :
    Settling [] [] (tick w nowMs s) := by
  have hstart : Settling (w.rowOrder s.inFlight) [] s := h.mono (by simp)
  have hsweep := settling_moves True hw hstart
    (foldl_moves (fun s' handle hwork => sweepRow_moves hwork trivial nowMs s') s)
  have hdispatch := settling_moves True hw hsweep
    (foldl_moves (fun s' handle hwork => dispatchPending_moves hwork nowMs s') _)
  exact settling_finalize hw hdispatch

theorem settling_markRelayAvailable (hw : w.Reliable) (h : Settling [] [] s) (relayUrl : String)
    (nowMs : Nat) : Settling [] [] (markRelayAvailable w relayUrl nowMs s) := by
  have hopen : Settling (w.rowOrder s.inFlight) [] _ :=
    settling_move False hw (h.mono (by simp))
      (.gate (s.unavailableRelays.erase (canonicalRelayIdentity relayUrl)))
  have hrows := settling_moves False hw hopen
    (foldl_moves (fun s' handle hwork => (retargetRow_moves handle s').trans
      (dispatchPendingMatching_moves hwork (some (canonicalRelayIdentity relayUrl)) nowMs _)) _)
  exact settling_finalize hw hrows

theorem settling_perform (h : Settling [] [] s) (step : World × Call) (hw : step.1.Reliable) :
    Settling [] [] (perform s step) := by
  obtain ⟨w, call⟩ := step
  cases call with
  | startPublish action nowMs override => exact settling_startPublish hw h action nowMs override
  | onAck handle ack nowMs =>
    exact settling_moves False hw h (onAck_moves handle ack nowMs s)
  | tick nowMs => exact settling_tick hw h nowMs
  | markRelayUnavailable relayUrl nowMs =>
    exact settling_moves False hw h (markRelayUnavailable_moves relayUrl nowMs s)
  | markRelayAvailable relayUrl nowMs => exact settling_markRelayAvailable hw h relayUrl nowMs
  | retryNow handle nowMs => exact settling_retryNow hw h handle nowMs
  | cancelByHandle handle correlationId => exact settling_cancel hw h handle correlationId
  | restart policy nowMs => exact settling_restart hw h policy nowMs

theorem settling_new (policy : RetryPolicy) : Settling [] [] (.new policy .empty) := by
  refine ⟨fun handle => ⟨lawful_nil, .none, ?_, ?_, ?_⟩, rfl⟩
  · exact fun row h => absurd h nofun
  · exact fun record h => absurd h nofun
  · exact fun row h => absurd h nofun

theorem settling_run (policy : RetryPolicy) {steps : List (World × Call)}
    (hw : ∀ step ∈ steps, step.1.Reliable) :
    Settling [] [] (run perform (.new policy .empty) steps) :=
  run_invariant (Settling [] []) (fun _ step hs hok => settling_perform hs step hok)
    (settling_new policy) (meets_of_forall perform (fun step => step.1.Reliable) _ steps hw)

/-- In every run with a store that does not fail: each row waits for some relay; the store holds
the rows in flight; the recorded terminals are those of the log since the process started; a life of
the log is open exactly for the handles in flight; the log is lawful; over any part of it within one
process every life that is no longer open was closed by exactly one terminal; and after a terminal no
frame goes out for the handle before it enters again. -/
theorem publishes_settle (policy : RetryPolicy) (steps : List (World × Call))
    (hw : ∀ step ∈ steps, step.1.Reliable) :
    let s := run perform (.new policy .empty) steps
    (∀ handle row, s.inFlight.lookup handle = some row →
      ∃ url state, row.perRelay.lookup url = some state ∧ state.isTerminal = false) ∧
    (∀ handle, handle ∈ s.store.rows ↔ handle ∈ s.inFlight) ∧
    s.pendingTerminals = terminalsOf s.log ∧
    ∀ handle, Lawful rules handle s.log ∧
      Option.Rel Tracks (s.inFlight.lookup handle) (lifeOf handle s.log) ∧
      (∀ pre post, s.log = pre ++ post → .stopped ∉ post →
        alive (lifeOf handle pre) + openings handle post =
          endings handle (lifeOf handle pre) post + alive (lifeOf handle s.log)) ∧
      ∀ pre mid post terminal url,
        s.log = pre ++ .ended handle terminal :: mid ++ .sent handle url :: post →
          ∃ targets, .opened handle targets ∈ mid := by
  intro s
  have h : Settling [] [] s := settling_run policy hw
  refine ⟨fun handle row hrow => ?_, fun handle => ?_, h.recorded, fun handle => ⟨?_, ?_, ?_, ?_⟩⟩
  · exact isComplete_eq_false.mp ((h.each handle).waits row hrow List.not_mem_nil)
  · rw [mem_iff_lookup, mem_iff_lookup]
    constructor
    · rintro ⟨record, hrecord⟩
      exact ((h.each handle).owned record hrecord).resolve_right List.not_mem_nil
    · rintro ⟨row, hrow⟩
      obtain ⟨record, hrecord, -⟩ := (h.each handle).stored row hrow
      exact ⟨record, hrecord⟩
  · exact (h.each handle).lawful
  · exact (h.each handle).tracks
  · intro pre post hlog hstop
    have hlawful := (h.each handle).lawful
    rw [hlog] at hlawful ⊢
    rw [lifeOf_append]
    exact balance (lawful_append.mp hlawful).2 hstop
  · intro pre mid post terminal url hlog
    have hlawful := (h.each handle).lawful
    rw [hlog] at hlawful
    exact hlawful.opened_between

/-- A note to one relay, sent and accepted. -/
def acceptedNote : List (World × Call) :=
  let w := queueWorld [⟨"wss://r", .authorWriteRelay⟩]
  [(w, .startPublish (.publish "id" ⟨"id", "sig", "alice", 1, [], "note", 0⟩ .auto) 10 none),
    (w, .onAck "id" ⟨"wss://r", true, "", ""⟩ 20)]

theorem acceptedNote_settles :
    (run perform (.new .default .empty) acceptedNote).log =
      [.opened "id" ["wss://r"], .sent "id" "wss://r", .answered "id" "wss://r" (.ok 20),
        .ended "id" ⟨"id", "ok", none, some "id", .settled ⟨"id", ["wss://r"], [],
          insert ∅ "wss://r" [.authorWriteRelay]⟩⟩] ∧
      ("id" ∈ (run perform (.new .default .empty) acceptedNote).store.rows ↔
        "id" ∈ (run perform (.new .default .empty) acceptedNote).inFlight) := by
  refine ⟨by decide +kernel, (publishes_settle .default acceptedNote fun step hstep => ?_).2.1 "id"⟩
  rcases List.mem_pair.mp hstep with rfl | rfl
  · exact queueWorld_reliable _
  · exact queueWorld_reliable _

end PublishSettlement
