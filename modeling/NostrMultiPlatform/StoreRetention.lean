import NostrMultiPlatform.StoreLog

/-!
# Retention claims

A claim holds the floor of the ingest log back while its lag is within its
bound; the slowest eligible claim decides. The claims come from the registry of
pull cursors, which publishes its protected rows after every change.
-/
namespace StoreRetention

open Sorted StoreState StoreGc StoreEdits StoreActions StoreLog Tables Runs StoreStep

variable {c : LogRetentionClaim} {claims : List LogRetentionClaim} {edit : Edit} {st : MemState}
  {action : Action}

/-- An eligible claim holds the target floor back. -/
theorem targetFloor_le_claim {latest : Nat} (hc : c ∈ claims)
    (heligible : latest - c.afterSeq ≤ c.maxLagEntries) :
    targetFloor latest claims ≤ c.afterSeq := by
  have hmem : c.afterSeq ∈ (claims.filter fun c =>
      latest - c.afterSeq ≤ c.maxLagEntries).map (·.afterSeq) :=
    List.mem_map_of_mem (List.mem_filter.mpr ⟨hc, decide_eq_true heligible⟩)
  unfold targetFloor protectedFloor
  cases hmin : ((claims.filter fun c =>
      latest - c.afterSeq ≤ c.maxLagEntries).map (·.afterSeq)).min? with
  | none =>
    rw [List.min?_eq_none_iff] at hmin
    rw [hmin] at hmem
    cases hmem
  | some p =>
    have hle := (List.min?_eq_some_iff.mp hmin).2 _ hmem
    dsimp only
    omega

/-- No claim holds the target floor back further than its own bound. -/
theorem lag_targetFloor_le (latest : Nat) {m : Nat} (hm : ∀ c ∈ claims, c.maxLagEntries ≤ m) :
    latest - targetFloor latest claims ≤ max defaultLogMaxEntries m := by
  unfold targetFloor protectedFloor
  cases hmin : ((claims.filter fun c =>
      latest - c.afterSeq ≤ c.maxLagEntries).map (·.afterSeq)).min? with
  | none =>
    dsimp only
    omega
  | some p =>
    obtain ⟨c, hc, rfl⟩ := List.mem_map.mp (List.min?_eq_some_iff.mp hmin).1
    obtain ⟨hmem, heligible⟩ := List.mem_filter.mp hc
    have hlag := of_decide_eq_true heligible
    have hbound := hm c hmem
    dsimp only
    omega

/-- The claim is published, and while it is eligible the floor is at or below its cursor. -/
structure Protects (c : LogRetentionClaim) (st : MemState) : Prop where
  published : c ∈ st.retentionClaims
  held : st.ingestSeq - c.afterSeq ≤ c.maxLagEntries → st.logGcFloor ≤ c.afterSeq

/-- The edit does not withdraw the claim. -/
def KeepsClaim (c : LogRetentionClaim) : Edit → Prop
  | .retain claims => c ∈ claims
  | _ => True

theorem protects_perform (h : Protects c st) (hkeep : KeepsClaim c edit) :
    Protects c (perform st edit) := by
  rcases perform_log st edit with ⟨hlog, hclaims⟩ | ⟨e, happend⟩
  · refine ⟨?_, by rw [hlog.seq, hlog.floor]; exact h.held⟩
    rcases hclaims with hsame | hretain
    · rw [hsame]
      exact h.published
    · rw [hretain] at hkeep
      exact hkeep
  · refine ⟨by rw [happend.claims]; exact h.published, fun hlag => ?_⟩
    rw [happend.seq] at hlag
    have hbefore := h.held (by omega)
    have htarget := targetFloor_le_claim h.published hlag
    rw [happend.floor, nextFloor]
    omega

/-- The action leaves the claim published. -/
def KeepsPublished (c : LogRetentionClaim) : Action → Prop
  | .replaceLogRetentionClaims claims => c ∈ claims
  | _ => True

/-- Claims are only replaced by the action that says so. -/
theorem action_of_retain {st s : MemState} (hedit : ActionEdit st action s (.retain claims)) :
    action = .replaceLogRetentionClaims claims := by
  cases action with
  | replaceLogRetentionClaims =>
    cases hedit
    rfl
  | insert => exact hedit.2.elim
  | deleteByFilter | gcStep => exact hedit.elim
  | getById | installSearchIndexSpecs => cases hedit.1
  | recordCoverage =>
    obtain ⟨_, heq⟩ := hedit
    cases heq

theorem keepsClaim_of_action {st s : MemState} (hkeep : KeepsPublished c action)
    (hedit : ActionEdit st action s edit) : KeepsClaim c edit := by
  cases edit with
  | retain =>
    rw [action_of_retain hedit] at hkeep
    exact hkeep
  | _ => trivial

theorem protects_act (hroot : Rooted st) (h : Protects c st) (hkeep : KeepsPublished c action) :
    Protects c (act st action) :=
  (editsTo_act hroot action).invariant (Protects c) h fun _ _ hs _ hedit =>
    protects_perform hs (keepsClaim_of_action hkeep hedit)

theorem protects_run (hroot : Rooted st) (h : Protects c st) {actions : List Action}
    (hkeep : ∀ a ∈ actions, KeepsPublished c a) :
    Rooted (run act st actions) ∧ Protects c (run act st actions) :=
  run_invariant (fun s => Rooted s ∧ Protects c s)
    (fun _ _ hs hok => ⟨rooted_act hs.1 _, protects_act hs.1 hs.2 hok⟩) ⟨hroot, h⟩
    (meets_of_forall act (KeepsPublished c) st actions hkeep)

theorem protects_published (hc : c ∈ claims) (hfloor : st.logGcFloor ≤ c.afterSeq) :
    Protects c (replaceLogRetentionClaims st claims) := ⟨hc, fun _ => hfloor⟩

/-- While a protected claim is eligible, every entry above its cursor is in the log. -/
theorem Protects.retained (h : Protects c st) (hreach : Reachable st)
    (hlag : st.ingestSeq - c.afterSeq ≤ c.maxLagEntries) {n : Nat} (hlo : c.afterSeq < n)
    (hhi : n ≤ st.ingestSeq) : ∃ e ∈ st.ingestLog, e.seq = n := by
  obtain ⟨history, hhistory⟩ := exists_history hreach
  have hfloor := h.held hlag
  exact hhistory.window.mem_iff.mpr ⟨by omega, hhi⟩

/-- The claims an action publishes. -/
def claimsOf : Action → List LogRetentionClaim
  | .replaceLogRetentionClaims claims => claims
  | _ => []

/-- The largest lag bound ever published. -/
def maxLagPublished (actions : List Action) : Nat :=
  ((actions.flatMap claimsOf).map (·.maxLagEntries)).foldr max 0

theorem le_foldr_max {xs : List Nat} {x : Nat} (h : x ∈ xs) : x ≤ xs.foldr max 0 := by
  induction xs with
  | nil => cases h
  | cons _ _ ih =>
    rw [List.foldr_cons]
    rcases List.mem_cons.mp h with rfl | hrest
    · exact Nat.le_max_left _ _
    · exact Nat.le_trans (ih hrest) (Nat.le_max_right _ _)

theorem le_maxLagPublished {actions : List Action} (haction : action ∈ actions)
    (hc : c ∈ claimsOf action) : c.maxLagEntries ≤ maxLagPublished actions :=
  le_foldr_max (List.mem_map_of_mem (List.mem_flatMap.mpr ⟨action, haction, hc⟩))

/-- The published bounds are at most `m`, and so is what the log keeps beyond its default. -/
structure Bounded (m : Nat) (st : MemState) : Prop where
  claims : ∀ c ∈ st.retentionClaims, c.maxLagEntries ≤ m
  kept : st.ingestSeq - st.logGcFloor ≤ max defaultLogMaxEntries m

theorem bounded_new (m : Nat) : Bounded m .new := ⟨fun _ h => (List.not_mem_nil h).elim, Nat.zero_le _⟩

theorem bounded_perform {m : Nat} (h : Bounded m st)
    (hedit : ∀ claims, edit = .retain claims → ∀ c ∈ claims, c.maxLagEntries ≤ m) :
    Bounded m (perform st edit) := by
  rcases perform_log st edit with ⟨hlog, hclaims⟩ | ⟨e, happend⟩
  · refine ⟨?_, by rw [hlog.seq, hlog.floor]; exact h.kept⟩
    rcases hclaims with hsame | hretain
    · rw [hsame]
      exact h.claims
    · exact hedit _ hretain
  · refine ⟨by rw [happend.claims]; exact h.claims, ?_⟩
    have htarget := lag_targetFloor_le (st.ingestSeq + 1) h.claims
    rw [happend.seq, happend.floor, nextFloor]
    omega

theorem bounded_act {m : Nat} (hroot : Rooted st) (h : Bounded m st)
    (haction : ∀ c ∈ claimsOf action, c.maxLagEntries ≤ m) : Bounded m (act st action) :=
  (editsTo_act hroot action).invariant (Bounded m) h fun s e hs _ hedit =>
    bounded_perform hs fun claims heq c hc => by
      subst heq
      rw [action_of_retain hedit] at haction
      exact haction c hc

theorem bounded_run (actions : List Action) :
    Bounded (maxLagPublished actions) (run act .new actions) :=
  (run_invariant (fun s => Rooted s ∧ Bounded (maxLagPublished actions) s)
    (fun _ _ hs hok => ⟨rooted_act hs.1 _, bounded_act hs.1 hs.2 hok⟩)
    ⟨rooted_new, bounded_new _⟩
    (meets_of_forall act (fun action => ∀ c ∈ claimsOf action,
      c.maxLagEntries ≤ maxLagPublished actions) .new actions
      fun _ haction _ hc => le_maxLagPublished haction hc)).2

/-- The log never holds more than its default or the largest bound ever published. -/
theorem log_length_le (actions : List Action) :
    (run act .new actions).ingestLog.length ≤
      max defaultLogMaxEntries (maxLagPublished actions) := by
  obtain ⟨history, hhistory⟩ := exists_history ⟨actions, rfl⟩
  rw [hhistory.window.length]
  exact (bounded_run actions).kept

/-- A claim published at or above the floor keeps every entry above its cursor in the log, in
every later state in which it is still published and its lag is within its bound; and the log
never outgrows the larger of its default and the largest bound ever published. -/
theorem protected_cursor_retained (before later : List Action) (claims : List LogRetentionClaim)
    (c : LogRetentionClaim) (hc : c ∈ claims)
    (hfloor : (run act .new before).logGcFloor ≤ c.afterSeq)
    (hstays : ∀ action ∈ later, KeepsPublished c action) :
    ((run act .new (before ++ .replaceLogRetentionClaims claims :: later)).ingestSeq -
        c.afterSeq ≤ c.maxLagEntries →
      ∀ n, c.afterSeq < n →
        n ≤ (run act .new (before ++ .replaceLogRetentionClaims claims :: later)).ingestSeq →
        ∃ e ∈ (run act .new (before ++ .replaceLogRetentionClaims claims :: later)).ingestLog,
          e.seq = n) ∧
      (run act .new (before ++ .replaceLogRetentionClaims claims :: later)).ingestLog.length ≤
        max defaultLogMaxEntries
          (maxLagPublished (before ++ .replaceLogRetentionClaims claims :: later)) := by
  have hreach : Reachable (run act .new before) := ⟨before, rfl⟩
  have hpublished : Protects c (act (run act .new before) (.replaceLogRetentionClaims claims)) :=
    protects_published hc hfloor
  have hprotects := (protects_run (rooted_act hreach.rooted _) hpublished hstays).2
  refine ⟨fun hlag n hlo hhi => ?_, log_length_le _⟩
  rw [run_append, run_cons] at *
  refine hprotects.retained ⟨before ++ .replaceLogRetentionClaims claims :: later, ?_⟩ hlag hlo hhi
  rw [run_append, run_cons]

/-- Two entries above a cursor at the beginning of the log, which lags by two of five. -/
theorem protected_cursor_retained_two :
    (⟨0, 5⟩ : LogRetentionClaim) ∈ [(⟨0, 5⟩ : LogRetentionClaim)] ∧
      ∃ e ∈ (run act .new ([] ++ .replaceLogRetentionClaims [⟨0, 5⟩] ::
        [.insert (arrivalOf '1' 'a' 10 1 []),
          .insert (arrivalOf '2' 'a' 11 1 [])])).ingestLog, e.seq = 1 := by
  have hseq : (run act .new ([] ++ .replaceLogRetentionClaims [⟨0, 5⟩] ::
      [.insert (arrivalOf '1' 'a' 10 1 []),
        .insert (arrivalOf '2' 'a' 11 1 [])])).ingestSeq = 2 := by
    rw [List.nil_append, run_cons, run_cons, run_cons, run_nil,
      act_admitted (admitted_arrivalOf (by decide) (by decide) (by decide)),
      act_admitted (admitted_arrivalOf (by decide) (by decide) (by decide))]
    decide +kernel
  refine ⟨by simp, (protected_cursor_retained [] [.insert (arrivalOf '1' 'a' 10 1 []),
    .insert (arrivalOf '2' 'a' 11 1 [])] [⟨0, 5⟩] ⟨0, 5⟩ (by simp) (by decide)
    (by simp [KeepsPublished])).1 ?_ 1 (by decide) ?_⟩
  · rw [hseq]
    decide
  · rw [hseq]
    decide

inductive PullCursorMode where
  | gapAllowed
  | protectedFor (maxLagEntries : Nat)
  deriving DecidableEq, Repr

structure PullCursorRegistration where
  mode : PullCursorMode
  afterSeq : Nat
  deriving DecidableEq, Repr

abbrev PullCursorRegistry := SortedMap Nat PullCursorRegistration

def maxPullCursors : Nat := 128

def PullCursorRegistration.claim (row : PullCursorRegistration) : Option LogRetentionClaim :=
  match row.mode with
  | .gapAllowed => none
  | .protectedFor maxLagEntries => some ⟨row.afterSeq, maxLagEntries⟩

/-- Each protected row publishes where it stands and how far it may lag. -/
def retentionClaims (registry : PullCursorRegistry) : List LogRetentionClaim :=
  registry.rows.filterMap fun row => row.2.claim

/-- The store, and the registry it has its claims from. -/
structure Kernel where
  store : MemState
  registry : PullCursorRegistry

variable (k : Kernel)

def publishRetentionClaims (registry : PullCursorRegistry) : Kernel :=
  ⟨replaceLogRetentionClaims k.store (retentionClaims registry), registry⟩

/-- Open or replace a cursor; id zero and a new row beyond the limit are refused. -/
def openPullCursor (cursorId : Nat) (row : PullCursorRegistration) : Kernel :=
  if cursorId = 0 then k
  else if k.registry.lookup cursorId = none ∧ maxPullCursors ≤ k.registry.rows.length then k
  else publishRetentionClaims k (k.registry.insert cursorId row)

/-- A cursor only moves forward. -/
def advancePullCursor (cursorId afterSeq : Nat) : Kernel :=
  match k.registry.lookup cursorId with
  | none => k
  | some row =>
    publishRetentionClaims k
      (k.registry.insert cursorId { row with afterSeq := max row.afterSeq afterSeq })

def unregisterPullCursor (cursorId : Nat) : Kernel :=
  publishRetentionClaims k (k.registry.erase cursorId)

theorem mem_retentionClaims {registry : PullCursorRegistry} {cursorId : Nat}
    {row : PullCursorRegistration} (h : registry.lookup cursorId = some row)
    (hclaim : row.claim = some c) : c ∈ retentionClaims registry :=
  List.mem_filterMap.mpr ⟨_, SortedMap.lookup_eq_some.mp h, hclaim⟩

inductive KernelCall where
  | mutate (action : Action)
  | openCursor (cursorId : Nat) (row : PullCursorRegistration)
  | advance (cursorId afterSeq : Nat)
  | unregister (cursorId : Nat)

def kernelStep : KernelCall → Kernel
  | .mutate action => { k with store := act k.store action }
  | .openCursor cursorId row => openPullCursor k cursorId row
  | .advance cursorId afterSeq => advancePullCursor k cursorId afterSeq
  | .unregister cursorId => unregisterPullCursor k cursorId

/-- Only the kernel writes the claims. -/
def LeavesClaims : KernelCall → Prop
  | .mutate action => ∀ claims, action ≠ .replaceLogRetentionClaims claims
  | _ => True

/-- A call acts on the store, changes nothing or publishes what the registry then holds. -/
theorem kernelStep_cases (k : Kernel) (c : KernelCall) :
    (∃ action, c = .mutate action ∧ kernelStep k c = { k with store := act k.store action }) ∨
      kernelStep k c = k ∨
      kernelStep k c = publishRetentionClaims k (kernelStep k c).registry := by
  cases c with
  | mutate action => exact .inl ⟨action, rfl, rfl⟩
  | openCursor =>
    simp only [kernelStep, openPullCursor]
    split
    · exact .inr (.inl rfl)
    · split
      · exact .inr (.inl rfl)
      · exact .inr (.inr rfl)
  | advance =>
    simp only [kernelStep, advancePullCursor]
    split
    · exact .inr (.inl rfl)
    · exact .inr (.inr rfl)
  | unregister => exact .inr (.inr rfl)

theorem reachable_act (h : Reachable st) (action : Action) : Reachable (act st action) := by
  obtain ⟨actions, rfl⟩ := h
  exact ⟨actions ++ [action], by simp⟩

/-- The call leaves the cursor's row as it is. -/
def Stays (cursorId : Nat) (row : PullCursorRegistration) (k : Kernel) (call : KernelCall) : Prop :=
  LeavesClaims call ∧ (kernelStep k call).registry.lookup cursorId = some row

/-- While a protected cursor stays where it is, its claim protects the log. -/
theorem protects_kernelStep {k : Kernel} {cursorId : Nat} {row : PullCursorRegistration}
    (hreach : Reachable k.store) (h : Protects c k.store) (hclaim : row.claim = some c)
    {call : KernelCall} (hstays : Stays cursorId row k call) :
    Reachable (kernelStep k call).store ∧ Protects c (kernelStep k call).store := by
  rcases kernelStep_cases k call with ⟨action, rfl, heq⟩ | heq | heq
  · rw [heq]
    refine ⟨reachable_act hreach action, protects_act hreach.rooted h ?_⟩
    cases action with
    | replaceLogRetentionClaims claims => exact absurd rfl (hstays.1 claims)
    | _ => trivial
  · rw [heq]
    exact ⟨hreach, h⟩
  · rw [heq]
    exact ⟨reachable_act hreach (.replaceLogRetentionClaims _),
      mem_retentionClaims hstays.2 hclaim, h.held⟩

/-- A protected cursor that is opened at or above the floor keeps every entry above it in the log,
whatever else the kernel does, while it stays there and lags within its bound. -/
theorem opened_cursor_retained (k : Kernel) (cursorId : Nat) (row : PullCursorRegistration)
    (c : LogRetentionClaim) (later : List KernelCall) (hreach : Reachable k.store)
    (hid : cursorId ≠ 0) (hclaim : row.claim = some c) (hfloor : k.store.logGcFloor ≤ c.afterSeq)
    (hstays : Meets kernelStep (Stays cursorId row) k (.openCursor cursorId row :: later)) :
    let s := (run kernelStep k (.openCursor cursorId row :: later)).store
    s.ingestSeq - c.afterSeq ≤ c.maxLagEntries →
      ∀ n, c.afterSeq < n → n ≤ s.ingestSeq → ∃ e ∈ s.ingestLog, e.seq = n := by
  obtain ⟨⟨-, hrow⟩, hlater⟩ := (meets_cons ..).mp hstays
  have hopened : kernelStep k (.openCursor cursorId row) =
      publishRetentionClaims k (k.registry.insert cursorId row) := by
    rw [kernelStep, openPullCursor, if_neg hid] at hrow ⊢
    refine if_neg fun hfull => ?_
    rw [if_pos hfull, hfull.1] at hrow
    cases hrow
  rw [run_cons]
  rw [hopened] at hrow hlater ⊢
  obtain ⟨hend, hheld⟩ := run_invariant (fun k => Reachable k.store ∧ Protects c k.store)
    (fun _ _ hs => protects_kernelStep hs.1 hs.2 hclaim)
    ⟨reachable_act hreach (.replaceLogRetentionClaims _), mem_retentionClaims hrow hclaim,
      fun _ => hfloor⟩ hlater
  exact fun hlag n => hheld.retained hend hlag

/-- A cursor that is opened before the first event keeps it. -/
theorem opened_cursor_retained_one :
    ∃ e ∈ (run kernelStep ⟨.new, ∅⟩ [.openCursor 1 ⟨.protectedFor 5, 0⟩,
      .mutate (.insert (arrivalOf '1' 'a' 10 1 []))]).store.ingestLog, e.seq = 1 := by
  have hseq : (run kernelStep ⟨.new, ∅⟩ [.openCursor 1 ⟨.protectedFor 5, 0⟩,
      .mutate (.insert (arrivalOf '1' 'a' 10 1 []))]).store.ingestSeq = 1 := by
    rw [run_cons, run_cons, run_nil, kernelStep,
      act_admitted (admitted_arrivalOf (by decide) (by decide) (by decide))]
    decide +kernel
  have hrow : (kernelStep ⟨.new, ∅⟩ (.openCursor 1 ⟨.protectedFor 5, 0⟩)).registry.lookup 1 =
      some ⟨.protectedFor 5, 0⟩ := by
    decide +kernel
  refine opened_cursor_retained _ 1 _ ⟨0, 5⟩ [.mutate (.insert (arrivalOf '1' 'a' 10 1 []))]
    ⟨[], rfl⟩ (by decide) rfl (by decide) ⟨⟨trivial, hrow⟩, ⟨nofun, hrow⟩, trivial⟩ ?_ 1 (by decide) ?_
  · rw [hseq]
    decide
  · rw [hseq]

end StoreRetention
