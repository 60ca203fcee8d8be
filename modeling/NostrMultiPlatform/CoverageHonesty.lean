import NostrMultiPlatform.CoverageLedger

/-!
# Honest coverage

A ledger row promises that what its relay held of the subscription is stored. A
reconciliation keeps the promise where its filter has no upper bound or limit and
nothing that it needs is outstanding; an EOSE, where the open REQ has none of the
bounds either.
-/
namespace CoverageHonesty

open NegentropyFilter NegentropySync NegentropyExits CoverageLedger StoreEvent Tables Runs World
open Runtime
open EligibleFilter

variable {ρ : Type} {c : Crates ρ} {selects : String → RawEvent → Prop} {w : World ρ}

/-- The filter has neither a limit nor an upper time bound. -/
def Unbounded (c : Crates ρ) (text : String) : Prop :=
  ∃ rows, c.parse text = some (.object rows) ∧ rows.lookup "limit" = none ∧
    rows.lookup "until" = none

def Stored (stored : List Id) (e : RawEvent) : Prop :=
  ∀ id, hexToBytes32 e.id = some id → id ∈ stored

/-- Of what the relay held, all that the filter selects up to the bound is stored, and the filter
is one that tells of all; nothing needed is outstanding. -/
structure Honest (c : Crates ρ) (selects : String → RawEvent → Prop) (stored : List Id)
    (r : Recording) : Prop where
  filter : ∃ text, r.filter = some text ∧ Unbounded c text ∧
    ∀ e ∈ r.held, selects text e → e.createdAt ≤ r.through → Stored stored e
  need : ∀ id ∈ r.need, id ∈ stored

/-- Every row of the ledger was recorded, and every recording is honest. -/
structure Covered (c : Crates ρ) (selects : String → RawEvent → Prop) (w : World ρ) : Prop where
  rows : ∀ hash relay through, coverageFloor w.coverage hash relay = some through →
    ∃ r ∈ w.recordings, r.hash = hash ∧ r.relay = relay ∧ r.through = through
  honest : ∀ r ∈ w.recordings, Honest c selects w.stored r

/-- The text of an object without its floor reads as that object, and selects what the filter does
but for the time bounds and the limit. -/
structure Reads (c : Crates ρ) (selects : String → RawEvent → Prop) : Prop where
  parse_render : ∀ text f, parse (c.parse text) = .ok f →
    c.parse (c.render (.object f.unfloored.rows)) = some (.object f.unfloored.rows)
  selects_unfloored : ∀ text f, parse (c.parse text) = .ok f → ∀ e,
    selects (c.render (.object f.unfloored.rows)) e ↔ selects text e

/-- The store reads what is stored. -/
structure Holds (store : EventStore) (stored : List Id) : Prop where
  byId : ∀ id ev, store.getById id = .ok (some ev) → Stored stored ev
  byQuery : ∀ query rows, store.queryVisit query = .ok rows → ∀ ev ∈ rows, Stored stored ev

/-- The other side keeps to the protocol: a reconciliation over an unbounded filter ends with every
id that the relay holds and the client did not, and at an EOSE the relay has sent what it holds
above the floor of an unbounded REQ. -/
def Fair (c : Crates ρ) (selects : String → RawEvent → Prop) (w : World ρ) : Input → Prop
  | .req _ store _ => Holds store w.stored
  | .text relayUrl text _ => ∀ s need, completed c w.runtime relayUrl text = some (s, need) →
      ∀ neg items, w.opened.lookup (relayUrl, s.subId) = some (neg, items) → Unbounded c neg →
        ∀ e ∈ w.held relayUrl, selects neg e → ∀ id, hexToBytes32 e.id = some id →
          id ∈ need ∨ ∃ item ∈ items, item.id = id
  | .eose relayUrl subId _ => ∀ text, w.openFilter (relayUrl, subId) = some text →
      Unbounded c text → ∀ e ∈ w.held relayUrl, selects text e →
        (sinceOf c text).getD 0 ≤ e.createdAt → Stored w.stored e
  | .close _ _ | .tick _ | .publish _ _ | .arrive _ => True

/-- A completion that advances the ledger leaves nothing out: a reconciliation is over an unbounded
filter and what it needs is stored already; an EOSE answers an unbounded REQ, and what that REQ's
floor leaves out is stored already. -/
def Complete (c : Crates ρ) (selects : String → RawEvent → Prop) (w : World ρ) : Input → Prop
  | .text relayUrl text now => ∀ s need, completed c w.runtime relayUrl text = some (s, need) →
      0 < now → filterHash s.subId ≠ none →
        Unbounded c s.filterJson ∧ ∀ id ∈ need, id ∈ w.stored
  | .eose relayUrl subId now => ∀ floor, w.wire.subs.lookup (relayUrl, subId) = some floor →
      0 < eoseCovers floor now → filterHash subId ≠ none →
        ∃ text, w.openFilter (relayUrl, subId) = some text ∧ Unbounded c text ∧
          ∀ e ∈ w.held relayUrl, selects text e → e.createdAt < (sinceOf c text).getD 0 →
            e.createdAt ≤ eoseCovers floor now → Stored w.stored e
  | .req _ _ _ | .close _ _ | .tick _ | .publish _ _ | .arrive _ => True

variable {f : EligibleFilter} {out items : List SyncedItem} {stored need : List Id}
  {store : EventStore} {text relayUrl subId : String} {r : Recording} {now : Nat} {s : Session ρ}

theorem stored_pushIfMatch {ev : RawEvent} (hev : Stored stored ev)
    (hout : ∀ item ∈ out, item.id ∈ stored) : ∀ item ∈ f.pushIfMatch out ev, item.id ∈ stored := by
  unfold pushIfMatch
  split
  · cases hid : hexToBytes32 ev.id with
    | none => exact hout
    | some id =>
      dsimp only
      split
      · exact hout
      · intro item hitem
        obtain hold | hnew := List.mem_append.mp hitem
        · exact hout item hold
        · rw [List.mem_singleton.mp hnew]
          exact hev id hid
  · exact hout

theorem stored_foldl {rows : List RawEvent} (hrows : ∀ ev ∈ rows, Stored stored ev)
    (hout : ∀ item ∈ out, item.id ∈ stored) :
    ∀ item ∈ rows.foldl f.pushIfMatch out, item.id ∈ stored := by
  induction rows generalizing out with
  | nil => exact hout
  | cons _ _ ih =>
    obtain ⟨hev, hrows⟩ := List.forall_mem_cons.mp hrows
    exact ih hrows (stored_pushIfMatch hev hout)

theorem stored_visitIds (h : Holds store stored) {ids : List String}
    (hitems : f.visitIds store ids out = .ok items) (hout : ∀ item ∈ out, item.id ∈ stored) :
    ∀ item ∈ items, item.id ∈ stored := by
  induction ids generalizing out with
  | nil =>
    cases hitems
    exact hout
  | cons idHex _ ih =>
    rw [visitIds] at hitems
    cases hid : hexToBytes32 idHex with
    | none =>
      rw [hid] at hitems
      exact ih hitems hout
    | some id =>
      rw [hid] at hitems
      dsimp only at hitems
      cases hget : store.getById id with
      | error =>
        rw [hget] at hitems
        cases hitems
      | ok found =>
        rw [hget] at hitems
        cases found with
        | none => exact ih hitems hout
        | some ev => exact ih hitems (stored_pushIfMatch (h.byId id ev hget) hout)

theorem stored_visitQueries (h : Holds store stored) {queries : List StoreQuery}
    (hitems : f.visitQueries store queries out = .ok items) (hout : ∀ item ∈ out, item.id ∈ stored)
    : ∀ item ∈ items, item.id ∈ stored := by
  induction queries generalizing out with
  | nil =>
    cases hitems
    exact hout
  | cons query _ ih =>
    rw [visitQueries] at hitems
    cases hvisit : store.queryVisit query with
    | error =>
      rw [hvisit] at hitems
      cases hitems
    | ok rows =>
      rw [hvisit] at hitems
      exact ih hitems (stored_foldl (h.byQuery query rows hvisit) hout)

theorem mem_of_mem_applyLimit {item : SyncedItem} (h : item ∈ f.applyLimit items) :
    item ∈ items := by
  have hsorted : item ∈ items.mergeSort SyncedItem.before := by
    unfold applyLimit at h
    cases hlimit : f.limit with
    | none =>
      rw [hlimit] at h
      exact h
    | some =>
      rw [hlimit] at h
      exact List.mem_of_mem_take h
  exact (List.mergeSort_perm items _).mem_iff.mp hsorted

/-- The items that a reconciliation opens with are stored. -/
theorem stored_localItems (h : Holds store stored) (hitems : f.localItems store = .ok items) :
    ∀ item ∈ items, item.id ∈ stored := by
  have hlimit : ∀ {result : Except FilterEligibilityError (List SyncedItem)},
      result.map f.applyLimit = .ok items → ∃ found, result = .ok found ∧ items = f.applyLimit found := by
    intro result hmap
    cases result with
    | error => cases hmap
    | ok found =>
      cases hmap
      exact ⟨found, rfl, rfl⟩
  unfold localItems at hitems
  split at hitems
  · cases hitems
    exact fun item hitem => nomatch hitem
  · split at hitems
    · obtain ⟨found, hfound, rfl⟩ := hlimit hitems
      intro item hitem
      exact stored_visitIds h hfound (fun item hitem => nomatch hitem) item
        (mem_of_mem_applyLimit hitem)
    · split at hitems
      · cases hitems
      · obtain ⟨found, hfound, rfl⟩ := hlimit hitems
        intro item hitem
        exact stored_visitQueries h hfound (fun item hitem => nomatch hitem) item
          (mem_of_mem_applyLimit hitem)

theorem rows_of_parse {value : Option Json} (h : parse value = .ok f) :
    value = some (.object f.rows) := by
  cases value with
  | none => cases h
  | some json =>
    cases json with
    | object =>
      simp only [parse, bind, Except.bind, pure, Except.pure] at h
      split at h
      · cases h
      split at h
      · cases h
      split at h
      · cases h
      split at h
      · cases h
      split at h
      · cases h
      split at h
      · cases h
      split at h
      · cases h
      cases h
      rfl
    | _ => cases h

theorem lookup_filter_key {β : Type} {rows : List (String × β)} {dropped key : String}
    (h : key ≠ dropped) :
    (rows.filter fun row => row.1 ≠ dropped).lookup key = rows.lookup key := by
  induction rows with
  | nil => rfl
  | cons row _ ih =>
    by_cases hrow : row.1 = dropped
    · rw [List.filter_cons_of_neg (by simpa using hrow), ih, List.lookup_cons, hrow,
        beq_false_of_ne h]
    · rw [List.filter_cons_of_pos (by simpa using hrow), List.lookup_cons, List.lookup_cons, ih]

/-- Without its floor an unbounded filter is still unbounded. -/
theorem unbounded_unfloored (hreads : Reads c selects)
    (hf : parse (c.parse text) = .ok f) (h : Unbounded c text) :
    Unbounded c (c.render (.object f.unfloored.rows)) := by
  obtain ⟨rows, hrows, hlimit, huntil⟩ := h
  rw [rows_of_parse hf] at hrows
  cases hrows
  refine ⟨_, hreads.parse_render text f hf, ?_, ?_⟩
  · exact (lookup_filter_key (by decide)).trans hlimit
  · exact (lookup_filter_key (by decide)).trans huntil

/-- The coverage that an effect records. -/
def recordsOf : Effect → Option (String × String × Nat)
  | .call (.recordNegDoneCoverage subId relayUrl now) => some (subId, relayUrl, now)
  | _ => none

/-- What effects leave alone. -/
structure SameHistory (a b : World ρ) : Prop where
  runtime : a.runtime = b.runtime
  held : a.held = b.held
  stored : a.stored = b.stored
  opened : a.opened = b.opened
  recordings : a.recordings = b.recordings

theorem SameHistory.trans {a b d : World ρ} (hab : SameHistory a b) (hbd : SameHistory b d) :
    SameHistory a d :=
  ⟨hab.runtime.trans hbd.runtime, hab.held.trans hbd.held, hab.stored.trans hbd.stored,
    hab.opened.trans hbd.opened, hab.recordings.trans hbd.recordings⟩

theorem sameHistory_perform (w : World ρ) (e : Effect) : SameHistory (w.perform e) w := by
  cases e with
  | call call => cases call <;> exact ⟨rfl, rfl, rfl, rfl, rfl⟩
  | send message =>
    obtain ⟨role, relayUrl, frame⟩ := message
    cases frame <;> exact ⟨rfl, rfl, rfl, rfl, rfl⟩

theorem sameHistory_performAll (w : World ρ) (effects : List Effect) :
    SameHistory (w.performAll effects) w := by
  induction effects generalizing w with
  | nil => exact ⟨rfl, rfl, rfl, rfl, rfl⟩
  | cons e _ ih => exact (ih (w.perform e)).trans (sameHistory_perform w e)

def recordOne (coverage : Ledger) (r : String × String × Nat) : Ledger :=
  recordCoverageComplete coverage r.1 r.2.1 r.2.2

theorem coverage_perform (w : World ρ) (e : Effect) :
    (w.perform e).coverage = (recordsOf e).elim w.coverage (recordOne w.coverage) := by
  cases e with
  | call call => cases call <;> rfl
  | send message =>
    obtain ⟨role, relayUrl, frame⟩ := message
    cases frame <;> rfl

theorem coverage_performAll (w : World ρ) (effects : List Effect) :
    (w.performAll effects).coverage = (effects.filterMap recordsOf).foldl recordOne w.coverage := by
  induction effects generalizing w with
  | nil => rfl
  | cons e _ ih =>
    have hstep := coverage_perform w e
    rw [performAll, List.foldl_cons, ← performAll, ih, hstep, List.filterMap_cons]
    cases recordsOf e <;> rfl

theorem records_fallbackEffects (gone : List (Session ρ)) :
    (fallbackEffects gone).filterMap recordsOf = [] := by
  rw [fallbackEffects, List.filterMap_append, List.append_eq_nil_iff,
    List.filterMap_eq_nil_iff, List.filterMap_eq_nil_iff]
  constructor <;>
  · intro e he
    obtain ⟨s, -, rfl⟩ := List.mem_map.mp he
    rfl

/-- A text records coverage where it completes a session, and only there. -/
theorem records_onRelayText (rt : Runtime ρ) (relayUrl text : String) (now : Nat) :
    (rt.onRelayText c relayUrl text now).2.filterMap recordsOf =
      (completed c rt relayUrl text).elim [] fun done => [(done.1.subId, relayUrl, now)] := by
  unfold onRelayText completed
  cases c.relayMessage text with
  | none => rfl
  | some message =>
    cases message with
    | other => rfl
    | notice =>
      dsimp only
      split
      · exact records_fallbackEffects _
      · rfl
    | negErr subId =>
      dsimp only
      unfold onNegErr
      cases rt.sessions.lookup (relayUrl, subId) with
      | none => rfl
      | some s => exact records_fallbackEffects [s]
    | negMsg subId message =>
      dsimp only
      unfold onNegMsg
      cases rt.sessions.lookup (relayUrl, subId) with
      | none => rfl
      | some s =>
        dsimp only
        cases hexDecodeSizeLimited message with
        | error => exact records_fallbackEffects [s]
        | ok msg =>
          have hkeep : (s.advanced now).reconciler = s.reconciler := rfl
          dsimp only
          rw [hkeep]
          cases s.reconciler.reconcile c msg with
          | mk outcome =>
            cases outcome with
            | none => rfl
            | some outcome =>
              cases outcome with
              | send => rfl
              | done _ need =>
                cases need with
                | nil =>
                  have hmode : (s.advanced now).mode = s.mode := rfl
                  dsimp only [doneEffects]
                  rw [hmode]
                  cases s.mode <;> rfl
                | cons => rfl

theorem lookup_recordCoverageComplete {coverage : Ledger} {subId relayUrl hash relay : String}
    {through bound : Nat}
    (h : coverageFloor (recordCoverageComplete coverage subId relayUrl through) hash relay =
      some bound) :
    coverageFloor coverage hash relay = some bound ∨
      (filterHash subId = some hash ∧ relay = relayUrl ∧ bound = through ∧ 0 < through) := by
  unfold coverageFloor recordCoverageComplete at *
  cases hhash : filterHash subId with
  | none =>
    rw [hhash] at h
    exact .inl h
  | some =>
    rw [hhash] at h
    dsimp only at h
    unfold recordCoverage at h
    split at h
    next hlt =>
      rw [lookup_insert_eq] at h
      split at h
      next hkey =>
        cases hkey
        cases h
        exact .inr ⟨rfl, rfl, rfl, Nat.zero_lt_of_lt hlt⟩
      · exact .inl h
    · exact .inl h

theorem mem_recording {through : Nat} {filter : Option String} :
    r ∈ w.recording subId relayUrl through filter need ↔ 0 < through ∧
      ∃ hash, filterHash subId = some hash ∧
        ⟨hash, relayUrl, through, filter, need, w.held relayUrl⟩ = r := by
  unfold recording
  split
  next hpos => simp [hpos]
  next hzero => simp [hzero]

/-- A completion: the ledger and the recordings grow together. -/
theorem covered_record {w' : World ρ} (h : Covered c selects w) {through : Nat}
    {filter : Option String}
    (hcoverage : w'.coverage = recordCoverageComplete w.coverage subId relayUrl through)
    (hrecordings : w'.recordings = w.recordings ++ w.recording subId relayUrl through filter need)
    (hstored : w'.stored = w.stored)
    (hhonest : ∀ r ∈ w.recording subId relayUrl through filter need, Honest c selects w.stored r) :
    Covered c selects w' := by
  refine ⟨fun hash relay bound hbound => ?_, fun r hr => ?_⟩
  · rw [hcoverage] at hbound
    rw [hrecordings]
    obtain hold | ⟨hhash, rfl, rfl, hpos⟩ := lookup_recordCoverageComplete hbound
    · obtain ⟨r, hr, hmatch⟩ := h.rows hash relay bound hold
      exact ⟨r, List.mem_append_left _ hr, hmatch⟩
    · exact ⟨_, List.mem_append_right _ (mem_recording.mpr ⟨hpos, hash, hhash, rfl⟩), rfl, rfl, rfl⟩
  · rw [hstored]
    rw [hrecordings] at hr
    obtain hold | hnew := List.mem_append.mp hr
    · exact h.honest r hold
    · exact hhonest r hnew

/-- More that is stored keeps every promise. -/
theorem Honest.mono {stored stored' : List Id} (h : Honest c selects stored r)
    (hsub : ∀ id ∈ stored, id ∈ stored') : Honest c selects stored' r := by
  obtain ⟨⟨text, hfilter, hunbounded, hall⟩, hneed⟩ := h
  refine ⟨⟨text, hfilter, hunbounded, fun e he hselects hle id hid => ?_⟩, fun id hid => ?_⟩
  · exact hsub id (hall e he hselects hle id hid)
  · exact hsub id (hneed id hid)

/-- Each session was opened over its own filter without the floor, with items that are stored. -/
structure Kept (c : Crates ρ) (selects : String → RawEvent → Prop) (w : World ρ) : Prop where
  named : Named w.runtime
  opened : ∀ key s, w.runtime.sessions.lookup key = some s → ∃ f items,
    parse (c.parse s.filterJson) = .ok f ∧
    w.opened.lookup key = some (c.render (.object f.unfloored.rows), items) ∧
    ∀ item ∈ items, item.id ∈ w.stored
  covered : Covered c selects w

theorem kept_new (threshold : Nat) : Kept c selects (new threshold : World ρ) where
  named := named_new threshold
  opened := fun _ _ hs => nomatch hs
  covered := ⟨fun _ _ _ hrow => (by cases hrow), fun _ hr => nomatch hr⟩

theorem Covered.of_same {w' : World ρ} (h : Covered c selects w)
    (hcoverage : w'.coverage = w.coverage) (hrecordings : w'.recordings = w.recordings)
    (hstored : w'.stored = w.stored) : Covered c selects w' := by
  refine ⟨fun hash relay through hrow => ?_, fun r hr => ?_⟩
  · rw [hcoverage] at hrow
    rw [hrecordings]
    exact h.rows hash relay through hrow
  · rw [hrecordings] at hr
    rw [hstored]
    exact h.honest r hr

/-- What an accepted REQ opens. -/
theorem interceptReq_opens {rt : Runtime ρ} {ctx : ReqFrameContext} {out : Runtime ρ × List Effect}
    (h : rt.interceptReq c ctx store now = some out) :
    ∃ f items s, parse (c.parse ctx.filterJson) = .ok f ∧
      f.unfloored.localItems store = .ok items ∧
      opening c rt ctx store = some (c.render (.object f.unfloored.rows), items) ∧
      out.1.sessions = rt.sessions.insert (ctx.relayUrl, ctx.subId) s ∧
      (s.relayUrl = ctx.relayUrl ∧ s.subId = ctx.subId ∧ s.filterJson = ctx.filterJson) ∧
      out.2.filterMap recordsOf = [] := by
  unfold interceptReq at h
  cases hcandidate : rt.candidate c ctx with
  | none =>
    rw [hcandidate] at h
    cases h
  | some f =>
    rw [hcandidate] at h
    dsimp only at h
    have hparse : parse (c.parse ctx.filterJson) = .ok f := by
      unfold candidate at hcandidate
      split at hcandidate
      · cases hcandidate
      · cases hparse : parse (c.parse ctx.filterJson) with
        | error =>
          rw [hparse] at hcandidate
          cases hcandidate
        | ok =>
          rw [hparse] at hcandidate
          dsimp only at hcandidate
          split at hcandidate
          · cases hcandidate
            rfl
          · cases hcandidate
    cases hopen : openSession c ctx f store now with
    | none =>
      rw [hopen] at h
      cases h
    | some =>
      rw [hopen] at h
      cases h
      simp only [openSession, Option.bind_eq_bind, Option.bind_eq_some_iff,
        Option.pure_def, Option.some.injEq] at hopen
      obtain ⟨items, hitems, -, -, client, -, initiated, -, rfl⟩ := hopen
      have hlocal : f.unfloored.localItems store = .ok items := by
        cases hlocal : f.unfloored.localItems store with
        | error =>
          rw [hlocal] at hitems
          cases hitems
        | ok =>
          rw [hlocal] at hitems
          cases hitems
          rfl
      refine ⟨f, items, _, hparse, hlocal, ?_, rfl, ⟨rfl, rfl, rfl⟩, ?_⟩
      · rw [opening, hcandidate, Option.bind_some, hlocal]
        rfl
      · unfold openFrames
        cases ctx.lifecycle <;> rfl

theorem kept_req (h : Kept c selects w) (ctx : ReqFrameContext) (hstore : Holds store w.stored)
    (now : Nat) : Kept c selects (w.onReq c ctx store now) := by
  cases hout : w.runtime.interceptReq c ctx store now with
  | none =>
    rw [onReq, hout]
    exact ⟨h.named, h.opened, h.covered.of_same rfl rfl rfl⟩
  | some out =>
    obtain ⟨f, items, s, hf, hitems, hopening, hsessions, ⟨hurl, hsub, hfilter⟩, hrecords⟩ :=
      interceptReq_opens hout
    let before : World ρ :=
      { w with
        wire := w.wire.registerReq c ctx
        runtime := out.1
        opened := w.opened.insert (ctx.relayUrl, ctx.subId)
          (c.render (.object f.unfloored.rows), items) }
    have heq : w.onReq c ctx store now = before.performAll out.2 := by
      rw [onReq, hout]
      dsimp only
      rw [hopening]
      rfl
    have hsame := sameHistory_performAll before out.2
    have hcoverage := coverage_performAll before out.2
    rw [hrecords] at hcoverage
    rw [heq]
    refine ⟨fun key old hold => ?_, fun key old hold => ?_,
      h.covered.of_same hcoverage hsame.recordings hsame.stored⟩
    · rw [hsame.runtime] at hold
      change AList.lookup key out.1.sessions = some old at hold
      rw [hsessions, lookup_insert_eq] at hold
      split at hold
      next hkey =>
        cases hold
        rw [hkey, hurl, hsub]
      · exact h.named key old hold
    · rw [hsame.runtime] at hold
      rw [hsame.opened, hsame.stored]
      change AList.lookup key out.1.sessions = some old at hold
      rw [hsessions, lookup_insert_eq] at hold
      split at hold
      next hkey =>
        cases hold
        refine ⟨f, items, by rw [hfilter]; exact hf, ?_, stored_localItems hstore hitems⟩
        rw [lookup_insert_eq, if_pos hkey]
      next hkey =>
        obtain ⟨f', items', hf', hopened', hstored'⟩ := h.opened key old hold
        refine ⟨f', items', hf', ?_, hstored'⟩
        rw [lookup_insert_eq, if_neg hkey]
        exact hopened'

/-- Sessions that a step of the runtime keeps stay opened as they were. -/
theorem opened_of_step (h : Kept c selects w) (op : Op)
    (hop : ∀ ctx store now, op ≠ .interceptReq ctx store now) {key : Key}
    (hs : (NegentropySync.step c w.runtime op).1.sessions.lookup key = some s) : ∃ f items,
      parse (c.parse s.filterJson) = .ok f ∧
      w.opened.lookup key = some (c.render (.object f.unfloored.rows), items) ∧
      ∀ item ∈ items, item.id ∈ w.stored := by
  obtain ⟨ctx, store, now, heq, -⟩ | ⟨old, _, now, _, _, hold, -, -, -, rfl⟩ | ⟨hold, -⟩ :=
    lookup_of_stepped h.named (stepped c w.runtime op) hs
  · exact absurd heq (hop ctx store now)
  · exact h.opened key old hold
  · exact h.opened key s hold

theorem lookup_of_completed (hrt : Named w.runtime)
    (h : completed c w.runtime relayUrl text = some (s, need)) :
    w.runtime.sessions.lookup (relayUrl, s.subId) = some s := by
  unfold completed at h
  split at h
  next subId message htext =>
    split at h
    next old msg hold hmsg =>
      split at h
      next have_ need' hdone =>
        cases h
        have hkey := hrt _ _ hold
        rw [← (Prod.mk.inj hkey).2]
        exact hold
      · cases h
    · cases h
  · cases h

/-- What a text records is honest where the completion leaves nothing out. -/
theorem honest_text (hreads : Reads c selects) (h : Kept c selects w)
    (hfair : Fair c selects w (.text relayUrl text now))
    (hcomplete : Complete c selects w (.text relayUrl text now))
    (hdone : completed c w.runtime relayUrl text = some (s, need))
    (hr : r ∈ w.recording s.subId relayUrl now (some s.filterJson) need) :
    Honest c selects w.stored r := by
  obtain ⟨hpos, hash, hhash, rfl⟩ := mem_recording.mp hr
  obtain ⟨hunbounded, hneed⟩ := hcomplete s need hdone hpos (by rw [hhash]; exact Option.some_ne_none _)
  refine ⟨⟨s.filterJson, rfl, hunbounded, fun e he hselects _ id hid => ?_⟩, hneed⟩
  obtain ⟨f, items, hf, hopened, hitems⟩ := h.opened _ s (lookup_of_completed h.named hdone)
  have hselects' := (hreads.selects_unfloored s.filterJson f hf e).mpr hselects
  obtain hin | ⟨item, hitem, rfl⟩ := hfair s need hdone _ items hopened
    (unbounded_unfloored hreads hf hunbounded) e he hselects' id hid
  · exact hneed id hin
  · exact hitems item hitem

/-- The state of a text before its effects. -/
def afterText (c : Crates ρ) (w : World ρ) (relayUrl text : String) (now : Nat) : World ρ :=
  { w with
    runtime := (w.runtime.onRelayText c relayUrl text now).1
    recordings := w.recordings ++ (completed c w.runtime relayUrl text).elim [] fun done =>
      w.recording done.1.subId relayUrl now (some done.1.filterJson) done.2 }

theorem sameHistory_onText (w : World ρ) (relayUrl text : String) (now : Nat) :
    SameHistory (w.onText c relayUrl text now) (afterText c w relayUrl text now) :=
  sameHistory_performAll (afterText c w relayUrl text now) _

/-- A text that completes nothing changes neither the ledger nor its recordings. -/
theorem covered_onText (h : Covered c selects w)
    (hhonest : ∀ s need, completed c w.runtime relayUrl text = some (s, need) → ∀ r ∈ w.recording s.subId relayUrl now (some s.filterJson) need, Honest c selects w.stored r)
    :
    Covered c selects (w.onText c relayUrl text now) := by
  have hsame := sameHistory_onText (c := c) w relayUrl text now
  have hcoverage : (w.onText c relayUrl text now).coverage = _ :=
    coverage_performAll (afterText c w relayUrl text now) _
  rw [records_onRelayText] at hcoverage
  have hrecordings := hsame.recordings
  unfold afterText at hcoverage hrecordings
  cases hdone : completed c w.runtime relayUrl text with
  | none =>
    rw [hdone] at hcoverage hrecordings
    refine h.of_same hcoverage ?_ hsame.stored
    rw [hrecordings]
    exact List.append_nil _
  | some done =>
    rw [hdone] at hcoverage hrecordings
    exact covered_record h hcoverage hrecordings hsame.stored (hhonest done.1 done.2 hdone)

theorem kept_text (hreads : Reads c selects) (h : Kept c selects w)
    (hfair : Fair c selects w (.text relayUrl text now))
    (hcomplete : Complete c selects w (.text relayUrl text now)) :
    Kept c selects (w.onText c relayUrl text now) := by
  have hsame := sameHistory_onText (c := c) w relayUrl text now
  refine ⟨?_, fun key s hs => ?_, covered_onText h.covered fun s need hdone r hr =>
    honest_text hreads h hfair hcomplete hdone hr⟩
  · rw [hsame.runtime]
    exact named_step h.named (.onRelayText relayUrl text now)
  · rw [hsame.runtime] at hs
    rw [hsame.opened, hsame.stored]
    exact opened_of_step h (.onRelayText relayUrl text now) (fun _ _ _ => nofun) hs

theorem kept_tick (h : Kept c selects w) (now : Nat) :
    Kept c selects (w.step c (.tick now)) := by
  let before : World ρ := { w with runtime := (w.runtime.onIdleTick now).1 }
  have hsame := sameHistory_performAll before (w.runtime.onIdleTick now).2
  have hcoverage := coverage_performAll before (w.runtime.onIdleTick now).2
  have hnone : (w.runtime.onIdleTick now).2.filterMap recordsOf = [] := records_fallbackEffects _
  have heq : w.step c (.tick now) = before.performAll (w.runtime.onIdleTick now).2 := rfl
  rw [hnone] at hcoverage
  rw [heq]
  refine ⟨?_, fun key s hs => ?_, h.covered.of_same hcoverage hsame.recordings hsame.stored⟩
  · rw [hsame.runtime]
    exact named_step (c := c) h.named (.onIdleTick now)
  · rw [hsame.runtime] at hs
    rw [hsame.opened, hsame.stored]
    exact opened_of_step h (.onIdleTick now) (fun _ _ _ => nofun) hs

/-- What an EOSE records is honest where it leaves nothing out. -/
theorem honest_eose {floor : Option Nat} (hfair : Fair c selects w (.eose relayUrl subId now))
    (hcomplete : Complete c selects w (.eose relayUrl subId now))
    (hsub : w.wire.subs.lookup (relayUrl, subId) = some floor)
    (hr : r ∈ w.recording subId relayUrl (eoseCovers floor now) (w.openFilter (relayUrl, subId)) [])
    : Honest c selects w.stored r := by
  obtain ⟨hpos, hash, hhash, rfl⟩ := mem_recording.mp hr
  obtain ⟨text, htext, hunbounded, hbelow⟩ :=
    hcomplete floor hsub hpos (by rw [hhash]; exact Option.some_ne_none _)
  refine ⟨⟨text, htext, hunbounded, fun e he hselects hle => ?_⟩, fun id hid => nomatch hid⟩
  by_cases hfloor : (sinceOf c text).getD 0 ≤ e.createdAt
  · exact hfair text htext hunbounded e he hselects hfloor
  · exact hbelow e he hselects (Nat.lt_of_not_le hfloor) hle

theorem kept_eose (h : Kept c selects w) (hfair : Fair c selects w (.eose relayUrl subId now))
    (hcomplete : Complete c selects w (.eose relayUrl subId now)) :
    Kept c selects (w.handleEose relayUrl subId now) := by
  unfold handleEose
  cases hsub : w.wire.subs.lookup (relayUrl, subId) with
  | none => exact h
  | some =>
    exact ⟨h.named, h.opened, covered_record h.covered rfl rfl rfl fun r hr =>
      honest_eose hfair hcomplete hsub hr⟩

theorem kept_step (hreads : Reads c selects) (h : Kept c selects w) {input : Input}
    (hfair : Fair c selects w input) (hcomplete : Complete c selects w input) :
    Kept c selects (w.step c input) := by
  cases input with
  | req ctx _ now => exact kept_req h ctx hfair now
  | close | publish => exact ⟨h.named, h.opened, h.covered.of_same rfl rfl rfl⟩
  | text => exact kept_text hreads h hfair hcomplete
  | tick now => exact kept_tick h now
  | eose => exact kept_eose h hfair hcomplete
  | arrive event =>
    have hsub : ∀ id ∈ w.stored, id ∈ (hexToBytes32 event.id).toList ++ w.stored := fun id hid =>
      List.mem_append_right _ hid
    refine ⟨h.named, fun key s hs => ?_, h.covered.rows, fun r hr => (h.covered.honest r hr).mono hsub⟩
    obtain ⟨f, items, hf, hopened, hitems⟩ := h.opened key s hs
    exact ⟨f, items, hf, hopened, fun item hitem => hsub _ (hitems item hitem)⟩

/-- A step that keeps every promise left nothing out. -/
theorem complete_of_covered {input : Input} (h : Covered c selects (w.step c input)) :
    Complete c selects w input := by
  cases input with
  | text relayUrl text now =>
    intro s need hdone hpos hhash
    obtain ⟨hash, hhash⟩ := Option.ne_none_iff_exists'.mp hhash
    have hsame := sameHistory_onText (c := c) w relayUrl text now
    have hmem : (⟨hash, relayUrl, now, some s.filterJson, need, w.held relayUrl⟩ : Recording) ∈
        (w.onText c relayUrl text now).recordings := by
      rw [hsame.recordings, afterText, hdone]
      exact List.mem_append_right _ (mem_recording.mpr ⟨hpos, hash, hhash, rfl⟩)
    obtain ⟨⟨filter, hfilter, hunbounded, -⟩, hneed⟩ := h.honest _ hmem
    cases hfilter
    refine ⟨hunbounded, fun id hid => ?_⟩
    have hin := hneed id hid
    rwa [show (w.step c (.text relayUrl text now)).stored = w.stored from hsame.stored] at hin
  | eose relayUrl subId now =>
    intro floor hsub hpos hhash
    obtain ⟨hash, hhash⟩ := Option.ne_none_iff_exists'.mp hhash
    have heq : w.step c (.eose relayUrl subId now) = w.handleEose relayUrl subId now := rfl
    rw [handleEose, hsub] at heq
    rw [heq] at h
    obtain ⟨⟨text, htext, hunbounded, hall⟩, -⟩ := h.honest _
      (List.mem_append_right _ (mem_recording.mpr ⟨hpos, hash, hhash, rfl⟩))
    exact ⟨text, htext, hunbounded, fun e he hselects _ hle => hall e he hselects hle⟩
  | req _ _ _ | close _ _ | tick _ | publish _ _ | arrive _ => exact trivial

/-- Over runs in which relays and stores keep to their protocols: every row of the ledger was
recorded and every recording is honest, in each state reached, if and only if no completion that
advances the ledger leaves something out. -/
theorem coverage_honest (hreads : Reads c selects) (threshold : Nat) (inputs : List Input)
    (hfair : Meets (step c) (Fair c selects) (new threshold : World ρ) inputs) :
    (∀ reached, reached <+: inputs →
      Covered c selects (run (step c) (new threshold) reached)) ↔
    Meets (step c) (Complete c selects) (new threshold : World ρ) inputs :=
  always_iff_meets (Kept c selects) (Covered c selects)
    (fun _ _ h hfair hcomplete => kept_step hreads h hfair hcomplete) (fun _ h => h.covered)
    (fun _ _ _ _ h => complete_of_covered h) (kept_new threshold) hfair

/-- An engine that finds one id missing in its first message. -/
def oneMissing : Crates Unit where
  parse := fun _ => some (.object [])
  render := fun _ => "\x7b\x7d"
  acceptsFilter := fun _ => true
  relayMessage := fun _ => some (.negMsg "sub-1" "61")
  storage := fun _ => some ()
  initiate := fun _ => some ([97], ())
  engine := fun _ _ => (some (none, [], [List.replicate 32 17]), ())

def everything : String → RawEvent → Prop := fun _ _ => True

theorem reads_oneMissing : Reads oneMissing everything where
  parse_render text f hf := by
    have hrows : f.rows = [] := (Json.object.inj (Option.some.inj (rows_of_parse hf))).symm
    show some (Json.object []) = _
    rw [show f.unfloored.rows = [] by rw [unfloored, hrows]; rfl]
  selects_unfloored _ _ _ _ := Iff.rfl

def missingNote : RawEvent :=
  ⟨String.ofList (List.replicate 64 '1'), String.ofList (List.replicate 64 'a'), 3, 1, [], "", ""⟩

def oneShotReq : Input :=
  .req ⟨"content", "wss://r", "sub-1", "\x7b\x7d", .oneShot⟩ emptyStore 5

def lastReply : Input := .text "wss://r" "neg-msg" 6

/-- The relay holds a note that the client gets before the reconciliation ends. -/
def fetched : List Input := [.publish "wss://r" missingNote, oneShotReq, .arrive missingNote, lastReply]

/-- The same without the note's delivery. -/
def unfetched : List Input := [.publish "wss://r" missingNote, oneShotReq, lastReply]

theorem holds_emptyStore (stored : List Id) : Holds emptyStore stored where
  byId _ _ h := by cases h
  byQuery _ _ h := by
    cases h
    exact fun _ hev => nomatch hev

theorem fair_lastReply {w : World Unit}
    (hdone : (completed oneMissing w.runtime "wss://r" "neg-msg").map Prod.snd =
      some [List.replicate 32 17]) (hheld : w.held "wss://r" = [missingNote]) :
    Fair oneMissing everything w lastReply := by
  intro s need h neg items _ _ e he _ id hid
  rw [h] at hdone
  cases hdone
  rw [hheld, List.mem_singleton] at he
  subst he
  have hbytes : hexToBytes32 missingNote.id = some (List.replicate 32 17) := by decide +kernel
  rw [hbytes] at hid
  cases hid
  exact .inl (List.mem_singleton_self _)

theorem coverage_honest_fetched :
    coverageFloor (run (step oneMissing) (.new 0) fetched).coverage "1" "wss://r" = some 6 ∧
    ((∀ reached, reached <+: fetched →
      Covered oneMissing everything (run (step oneMissing) (.new 0) reached)) ↔
    Meets (step oneMissing) (Complete oneMissing everything) (.new 0) fetched) := by
  refine ⟨by decide +kernel, coverage_honest reads_oneMissing 0 fetched ?_⟩
  refine ⟨trivial, holds_emptyStore _, trivial, fair_lastReply ?_ rfl, trivial⟩
  decide +kernel

/-- The ledger has a row up to the completion while the id that it needs is outstanding. -/
theorem needed_outstanding :
    Meets (step oneMissing) (Fair oneMissing everything) (.new 0) unfetched ∧
    coverageFloor (run (step oneMissing) (.new 0) unfetched).coverage "1" "wss://r" =
      some 6 ∧
    ¬ Covered oneMissing everything (run (step oneMissing) (.new 0) unfetched) := by
  have hdone : (completed oneMissing
      (run (step oneMissing) (.new 0) [.publish "wss://r" missingNote, oneShotReq]).runtime
      "wss://r" "neg-msg").map Prod.snd = some [List.replicate 32 17] := by decide +kernel
  refine ⟨⟨trivial, holds_emptyStore _, fair_lastReply hdone rfl, trivial⟩, by decide +kernel,
    fun h => ?_⟩
  have hneed : (run (step oneMissing) (.new 0) unfetched).recordings.map Recording.need =
      [[List.replicate 32 17]] := by decide +kernel
  have hstored : (run (step oneMissing) (.new 0) unfetched).stored = [] := by decide +kernel
  obtain ⟨r, hr, heq⟩ := List.mem_map.mp (hneed ▸ List.mem_singleton_self [List.replicate 32 (17 : UInt8)])
  have hin := (h.honest r hr).need (List.replicate 32 17) (by rw [heq]; exact List.mem_singleton_self _)
  rw [hstored] at hin
  exact nomatch hin

end CoverageHonesty
