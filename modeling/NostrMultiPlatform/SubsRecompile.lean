import NostrMultiPlatform.PlannerCover
import NostrMultiPlatform.PlannerSelection
import NostrMultiPlatform.SubsFingerprint

/-!
# Recompiling

A recompile compiles the active interests, leaves out dead relays, selects,
rewrites and leaves out blocked relays; the plan is then committed. It is skipped
when the fingerprint is the stored one. Mailbox changes reach the lifecycle as
triggers, which clear the stored fingerprint; the warmth of relays does not.
-/
namespace SubsRecompile

open Sorted PlannerShape PlannerPlan PlannerPartition PlannerMerge PlannerCompile PlannerCover Runs
  PlannerSelection SubsFilter
  SubsWire SubsAuthGate SubsLifecycle SubsFingerprint

/-- What the compiler asks the mailbox cache for. -/
structure Mailboxes where
  get : String → Option MailboxSnapshot
  dmInboxRelays : String → Option (List String)

def compilerFor (lc : SubscriptionLifecycle) (mailboxes : Mailboxes) : SubscriptionCompiler where
  get := mailboxes.get
  dmInboxRelays := mailboxes.dmInboxRelays
  indexerRelays := lc.indexerRelays
  activeAccountReadRelays := lc.activeAccountReadRelays
  appRelays := lc.appRelays
  bootstrapContentRelays := lc.bootstrapContentRelays
  bootstrapIndexerRelays := lc.bootstrapIndexerRelays

/-- `compile` without versions of the policy. -/
def compile (c : SubscriptionCompiler) (interests : List LogicalInterest) : CompiledPlan :=
  compileWithContext c interests ⟨0, 0⟩

/-- The plan without some relays. -/
def withoutRelays (plan : CompiledPlan) (relays : SortedSet String) : CompiledPlan :=
  { plan with
    perRelay := plan.perRelay.filterMapRows fun url relayPlan =>
      if url ∈ relays then none else some relayPlan }

def selectedPlan (lc : SubscriptionLifecycle) (mailboxes : Mailboxes)
    (scoreLookup : Option ScoreLookup) : CompiledPlan :=
  applySelectionWithLookup (withoutRelays (compile (compilerFor lc mailboxes) lc.active) lc.deadRelays)
    lc.selectMaxConnections lc.selectMaxPerUser scoreLookup

def isEphemeral (kind : Nat) : Bool := 20000 ≤ kind && kind < 30000

def shapeIsEphemeralOnly (shape : InterestShape) : Bool :=
  shape.kinds ≠ ∅ && shape.kinds.elems.all isEphemeral

/-- Saturating, as on 64 bits. -/
def saturatingSucc (n : Nat) : Nat := min (n + 1) (2 ^ 64 - 1)

/-- The floor of a sub-shape rises to what is stored already; full history is left alone. -/
def rewriteSince (watermark : InterestShape → String → Option Nat) (interests : List LogicalInterest)
    (relayUrl : String) (sub : SubShape) : SubShape :=
  if shapeIsEphemeralOnly sub.shape then sub
  else
    match sub.shape.since with
    | none =>
      if lifecycleForShape sub interests ≠ .tailing then sub
      else
        match watermark sub.shape relayUrl with
        | none => sub
        | some mark => { sub with shape := { sub.shape with since := some (saturatingSucc mark) } }
    | some existing =>
      match watermark sub.shape relayUrl with
      | none => sub
      | some mark =>
        if existing < saturatingSucc mark then
          { sub with shape := { sub.shape with since := some (saturatingSucc mark) } }
        else sub

def applyWatermarkRewrite (plan : CompiledPlan) (watermark : InterestShape → String → Option Nat)
    (interests : List LogicalInterest) : CompiledPlan :=
  { plan with
    perRelay := plan.perRelay.mapRows fun _ relayPlan =>
      { relayPlan with
        subShapes := relayPlan.subShapes.map (rewriteSince watermark interests relayPlan.relayUrl) } }

/-- The plan before blocked relays are left out. -/
def rewrittenPlan (lc : SubscriptionLifecycle) (mailboxes : Mailboxes)
    (scoreLookup : Option ScoreLookup) : CompiledPlan :=
  let plan := selectedPlan lc mailboxes scoreLookup
  let plan := lc.coverageHook.elim plan fun hook => hook plan
  lc.watermarkFn.elim plan fun watermark => applyWatermarkRewrite plan watermark lc.active

/-- All passes. -/
def recompiledPlan (lc : SubscriptionLifecycle) (mailboxes : Mailboxes)
    (scoreLookup : Option ScoreLookup) (blocked : Option (SortedSet String)) : CompiledPlan :=
  withoutRelays (rewrittenPlan lc mailboxes scoreLookup) (blocked.getD ∅)

/-- The memo is off while a coverage hook is installed. -/
def skips (lc : SubscriptionLifecycle) (blocked : Option (SortedSet String)) : Bool :=
  lc.coverageHook.isNone && lc.lastCompileFingerprint = some (fingerprint lc blocked)

def recompileInner (nostr : NostrCrate) (lc : SubscriptionLifecycle) (mailboxes : Mailboxes)
    (scoreLookup : Option ScoreLookup) (blocked : Option (SortedSet String)) :
    SubscriptionLifecycle × List WireFrame :=
  if skips lc blocked then (lc, [])
  else
    let attribution := (rewrittenPlan lc mailboxes scoreLookup).perRelay.mapRows fun _ relayPlan =>
      relayPlan.attribution
    { lc with
      compileCount := saturatingSucc lc.compileCount
      currentPlanAttribution := attribution }.commit nostr
      (recompiledPlan lc mailboxes scoreLookup blocked) lc.active
      (fun author => (mailboxes.get author).isSome) (fingerprint lc blocked)

/-- A mailbox trigger. -/
def bumpMailboxGeneration (lc : SubscriptionLifecycle) : SubscriptionLifecycle :=
  { lc with
    mailboxGeneration := saturatingSucc lc.mailboxGeneration
    lastCompileFingerprint := none }

def bumpWatermarkGeneration (lc : SubscriptionLifecycle) : SubscriptionLifecycle :=
  { lc with
    watermarkGeneration := saturatingSucc lc.watermarkGeneration
    lastCompileFingerprint := none }

def clearProbedMailboxes (lc : SubscriptionLifecycle) : SubscriptionLifecycle :=
  { lc with
    probedMailboxes := ∅
    lastCompileFingerprint := none }

/-- What the last full compile read. -/
structure Compiled where
  lifecycle : SubscriptionLifecycle
  mailboxes : Mailboxes
  scoreLookup : Option ScoreLookup
  blocked : Option (SortedSet String)

/-- The lifecycle, the mailbox cache beside it, and a record of the last full compile. -/
structure Kernel where
  lifecycle : SubscriptionLifecycle
  mailboxes : Mailboxes
  compiled : Option Compiled

def start : Kernel := ⟨.new, ⟨fun _ => none, fun _ => none⟩, none⟩

/-- The mailbox cache changes with its trigger only. -/
inductive Act
  | setActive (interests : List LogicalInterest)
  | setIndexerRelays (relays : List String)
  | setActiveAccountReadRelays (relays : List String)
  | setAppRelays (relays : List String)
  | setBootstrapContentRelays (relays : List String)
  | setBootstrapIndexerRelays (relays : List String)
  | setSelectionBudget (maxConnections maxPerUser : Nat)
  | setCoverageHook (hook : CompiledPlan → CompiledPlan)
  | setWatermarkFn (watermark : InterestShape → String → Option Nat)
  | markRelayDead (url : String)
  | markRelayAlive (url : String)
  | mailboxChanged (mailboxes : Mailboxes)
  | bumpWatermarkGeneration
  | clearProbedMailboxes
  | authStateChange (relayUrl : String) (state : RelayAuthState)
  | recompile (scoreLookup : Option ScoreLookup) (blocked : Option (SortedSet String))

/-- What an action other than a recompile makes of the lifecycle. -/
def configure (lc : SubscriptionLifecycle) : Act → SubscriptionLifecycle
  | .setActive interests => { lc with active := interests }
  | .setIndexerRelays relays => { lc with indexerRelays := relays }
  | .setActiveAccountReadRelays relays => { lc with activeAccountReadRelays := relays }
  | .setAppRelays relays => { lc with appRelays := relays }
  | .setBootstrapContentRelays relays => { lc with bootstrapContentRelays := relays }
  | .setBootstrapIndexerRelays relays => { lc with bootstrapIndexerRelays := relays }
  | .setSelectionBudget maxConnections maxPerUser =>
    { lc with selectMaxConnections := maxConnections, selectMaxPerUser := maxPerUser }
  | .setCoverageHook hook => { lc with coverageHook := some hook }
  | .setWatermarkFn watermark => { lc with watermarkFn := some watermark }
  | .markRelayDead url => { lc with deadRelays := insert url lc.deadRelays }
  | .markRelayAlive url => { lc with deadRelays := lc.deadRelays.erase url }
  | .mailboxChanged _ => SubsRecompile.bumpMailboxGeneration lc
  | .bumpWatermarkGeneration => SubsRecompile.bumpWatermarkGeneration lc
  | .clearProbedMailboxes => SubsRecompile.clearProbedMailboxes lc
  | .authStateChange relayUrl state => (lc.handleAuthStateChange relayUrl state).1
  | .recompile .. => lc

def step (nostr : NostrCrate) (k : Kernel) : Act → Kernel
  | .recompile scoreLookup blocked =>
    { k with
      lifecycle := (recompileInner nostr k.lifecycle k.mailboxes scoreLookup blocked).1
      compiled :=
        if skips k.lifecycle blocked then k.compiled
        else some ⟨k.lifecycle, k.mailboxes, scoreLookup, blocked⟩ }
  | .mailboxChanged mailboxes =>
    { k with
      lifecycle := bumpMailboxGeneration k.lifecycle
      mailboxes := mailboxes }
  | act => { k with lifecycle := configure k.lifecycle act }

theorem mem_keys_of_plan {plan : CompiledPlan} {k : Key} :
    k ∈ collectRelaySubKeys (some plan) ↔
      ∃ relay relayPlan, plan.perRelay.lookup relay = some relayPlan ∧
        ∃ sub ∈ relayPlan.subShapes, (relay, subIdFor sub) = k := by
  rw [mem_collectRelaySubKeys]
  constructor
  · rintro ⟨row, hrow, rfl⟩
    obtain ⟨entry, hentry, hmem⟩ := List.mem_flatMap.mp hrow
    obtain ⟨sub, hsub, rfl⟩ := List.mem_map.mp hmem
    exact ⟨entry.1, entry.2, SortedMap.lookup_eq_some.mpr hentry, sub, hsub, rfl⟩
  · rintro ⟨relay, relayPlan, hlookup, sub, hsub, rfl⟩
    refine ⟨(relay, sub), List.mem_flatMap.mpr ⟨(relay, relayPlan), ?_, ?_⟩, rfl⟩
    · exact SortedMap.lookup_eq_some.mp hlookup
    · exact List.mem_map_of_mem hsub

/-- A rewritten sub-shape keeps its sub-id. -/
theorem subIdFor_rewriteSince (watermark : InterestShape → String → Option Nat)
    (interests : List LogicalInterest) (relayUrl : String) (sub : SubShape) :
    subIdFor (rewriteSince watermark interests relayUrl sub) = subIdFor sub := by
  unfold rewriteSince
  split
  · rfl
  · split
    · split
      · rfl
      · split <;> rfl
    · split
      · rfl
      · split <;> rfl

theorem keys_withoutRelays_rewrite (plan : CompiledPlan)
    (watermark : InterestShape → String → Option Nat) (interests : List LogicalInterest)
    (relays : SortedSet String) :
    collectRelaySubKeys (some (withoutRelays (applyWatermarkRewrite plan watermark interests) relays)) =
      collectRelaySubKeys (some (withoutRelays plan relays)) := by
  ext k
  simp only [mem_keys_of_plan, withoutRelays, applyWatermarkRewrite, SortedMap.lookup_filterMapRows,
    SortedMap.lookup_mapRows]
  refine exists_congr fun relay => ?_
  cases hplan : plan.perRelay.lookup relay with
  | none => simp
  | some =>
    simp only [Option.map_some, Option.bind_some]
    by_cases hblocked : relay ∈ relays
    · simp [hblocked]
    · simp [hblocked, subIdFor_rewriteSince]

variable {lc : SubscriptionLifecycle}

/-- Without a hook the keys do not depend on the watermarks. -/
theorem keys_recompiledPlan (hhook : lc.coverageHook = none) (mailboxes : Mailboxes)
    (scoreLookup : Option ScoreLookup) (blocked : Option (SortedSet String)) :
    collectRelaySubKeys (some (recompiledPlan lc mailboxes scoreLookup blocked)) =
      collectRelaySubKeys (some (withoutRelays (selectedPlan lc mailboxes scoreLookup)
        (blocked.getD ∅))) := by
  unfold recompiledPlan rewrittenPlan
  rw [hhook]
  cases lc.watermarkFn with
  | none => rfl
  | some => exact keys_withoutRelays_rewrite _ _ _ _

/-- The same inputs select the same plan. -/
theorem selectedPlan_congr {lc lc' : SubscriptionLifecycle} {blocked blocked' : Option (SortedSet String)}
    (h : SameInputs lc lc' blocked blocked') (mailboxes : Mailboxes) (scoreLookup : Option ScoreLookup) :
    selectedPlan lc mailboxes scoreLookup = selectedPlan lc' mailboxes scoreLookup := by
  unfold selectedPlan compilerFor
  rw [h.active, h.deadRelays, h.indexerRelays, h.activeAccountReadRelays, h.appRelays,
    h.bootstrapContentRelays, h.bootstrapIndexerRelays, h.selectMaxConnections, h.selectMaxPerUser]

theorem planDiff_of_same_keys (nostr : NostrCrate) {prior next : Option CompiledPlan}
    (h : collectRelaySubKeys prior = collectRelaySubKeys next) (interests : List LogicalInterest) :
    planDiff nostr prior next interests = [] := by
  have hnone : ∀ plan : Option CompiledPlan, collectRelaySubKeys plan = collectRelaySubKeys next →
      (rowsOf plan).filter (fun row => keyOf row ∉ collectRelaySubKeys next) = [] := by
    intro plan hplan
    refine List.filter_eq_nil_iff.mpr fun row hrow => ?_
    rw [decide_eq_true_eq, not_not, ← hplan]
    exact mem_collectRelaySubKeys.mpr ⟨row, hrow, rfl⟩
  rw [planDiff, h, hnone prior h, hnone next rfl, List.map_nil, List.map_nil, List.append_nil]

variable {nostr : NostrCrate} {k : Kernel}

/-- Without a hook a stored fingerprint is that of the last full compile, whose mailboxes are still
those of the cache and whose plan is the current one. -/
def Stored (k : Kernel) : Prop :=
  k.lifecycle.coverageHook = none → ∀ stored, k.lifecycle.lastCompileFingerprint = some stored →
    ∃ last, k.compiled = some last ∧ last.lifecycle.coverageHook = none ∧
      stored = fingerprint last.lifecycle last.blocked ∧ last.mailboxes = k.mailboxes ∧
      k.lifecycle.currentPlan =
        some (recompiledPlan last.lifecycle last.mailboxes last.scoreLookup last.blocked)

theorem configure_keeps {act : Act} {stored : UInt64}
    (hhook : (configure lc act).coverageHook = none)
    (hstored : (configure lc act).lastCompileFingerprint = some stored) :
    lc.coverageHook = none ∧ lc.lastCompileFingerprint = some stored ∧
      (configure lc act).currentPlan = lc.currentPlan := by
  cases act with
  | setCoverageHook => cases hhook
  | mailboxChanged | bumpWatermarkGeneration | clearProbedMailboxes => cases hstored
  | _ => exact ⟨hhook, hstored, rfl⟩

theorem Stored.configure (h : Stored k) (act : Act) :
    Stored { k with lifecycle := configure k.lifecycle act } := by
  intro hhook stored hstored
  obtain ⟨hhook', hstored', hplan⟩ := configure_keeps hhook hstored
  obtain ⟨last, hlast, hlastHook, heq, hmailboxes, hcurrent⟩ := h hhook' stored hstored'
  exact ⟨last, hlast, hlastHook, heq, hmailboxes, hplan.trans hcurrent⟩

theorem recompileInner_of_skips {blocked : Option (SortedSet String)} (h : skips lc blocked = true)
    (nostr : NostrCrate) (mailboxes : Mailboxes) (scoreLookup : Option ScoreLookup) :
    recompileInner nostr lc mailboxes scoreLookup blocked = (lc, []) := by
  rw [recompileInner, if_pos h]

/-- A recompile that is not skipped commits the plan of all passes. -/
theorem recompileInner_of_not_skips {blocked : Option (SortedSet String)}
    (h : skips lc blocked = false) (nostr : NostrCrate) (mailboxes : Mailboxes)
    (scoreLookup : Option ScoreLookup) :
    (recompileInner nostr lc mailboxes scoreLookup blocked).1.coverageHook = lc.coverageHook ∧
      (recompileInner nostr lc mailboxes scoreLookup blocked).1.lastCompileFingerprint =
        some (fingerprint lc blocked) ∧
      (recompileInner nostr lc mailboxes scoreLookup blocked).1.currentPlan =
        some (recompiledPlan lc mailboxes scoreLookup blocked) := by
  rw [recompileInner, if_neg (by rw [h]; exact Bool.false_ne_true)]
  exact ⟨rfl, rfl, rfl⟩

theorem Stored.recompile (h : Stored k) (scoreLookup : Option ScoreLookup)
    (blocked : Option (SortedSet String)) : Stored (step nostr k (.recompile scoreLookup blocked)) := by
  cases hskip : skips k.lifecycle blocked with
  | true =>
    have hsame : step nostr k (.recompile scoreLookup blocked) = k := by
      simp only [step, hskip, if_true, recompileInner_of_skips hskip]
    rw [hsame]
    exact h
  | false =>
    obtain ⟨hhook, hprint, hplan⟩ :=
      recompileInner_of_not_skips hskip nostr k.mailboxes scoreLookup
    intro hhook' stored hstored
    have hcompiled : (step nostr k (.recompile scoreLookup blocked)).compiled =
        some ⟨k.lifecycle, k.mailboxes, scoreLookup, blocked⟩ := by
      simp only [step, hskip, Bool.false_eq_true, if_false]
    exact ⟨_, hcompiled, hhook.symm.trans hhook', Option.eq_some_unique hstored hprint, rfl, hplan⟩

theorem stored_run (nostr : NostrCrate) (acts : List Act) : Stored (run (step nostr) start acts) := by
  refine run_invariant Stored ?_ ?_
    (meets_of_forall (step nostr) (fun _ => True) start acts fun _ _ => trivial)
  · intro k act h _
    cases act with
    | recompile scoreLookup blocked => exact h.recompile scoreLookup blocked
    | mailboxChanged =>
      intro _ stored hstored
      cases hstored
    | _ => exact h.configure _
  · intro _ stored hstored
    cases hstored

/-- The digests of what was written at the last full compile and of what would be written now do not
collide. -/
def NoCollision (k : Kernel) (blocked : Option (SortedSet String)) : Prop :=
  ∀ last ∈ k.compiled,
    finish64 (fingerprintWrites last.lifecycle last.blocked) =
        finish64 (fingerprintWrites k.lifecycle blocked) →
      fingerprintWrites last.lifecycle last.blocked = fingerprintWrites k.lifecycle blocked

/-- A skipped recompile has the inputs of the last full compile, and if the score lookup is that one
too, then all passes would give a plan without difference to the current one. -/
theorem skipped_recompile_exact (nostr : NostrCrate) (acts : List Act)
    (scoreLookup : Option ScoreLookup) (blocked : Option (SortedSet String))
    (hskip : skips (run (step nostr) start acts).lifecycle blocked = true)
    (hhash : NoCollision (run (step nostr) start acts) blocked) :
    ∃ last, (run (step nostr) start acts).compiled = some last ∧
      SameInputs last.lifecycle (run (step nostr) start acts).lifecycle last.blocked blocked ∧
      last.mailboxes = (run (step nostr) start acts).mailboxes ∧
      (last.scoreLookup = scoreLookup →
        planDiff nostr (run (step nostr) start acts).lifecycle.currentPlan
          (some (recompiledPlan (run (step nostr) start acts).lifecycle
            (run (step nostr) start acts).mailboxes scoreLookup blocked))
          (run (step nostr) start acts).lifecycle.active = []) := by
  have hstored := stored_run nostr acts
  generalize run (step nostr) start acts = k at *
  simp only [skips, Bool.and_eq_true, Option.isNone_iff_eq_none, decide_eq_true_eq] at hskip
  obtain ⟨hhook, hprint⟩ := hskip
  obtain ⟨last, hlast, hlastHook, heq, hmailboxes, hcurrent⟩ := hstored hhook _ hprint
  rw [fingerprint, fingerprint, hhook, hlastHook] at heq
  have hwrites := hhash last hlast heq.symm
  have hinputs := sameInputs_of_writes hwrites
  refine ⟨last, hlast, hinputs, hmailboxes, ?_⟩
  rintro rfl
  refine planDiff_of_same_keys nostr ?_ _
  rw [hcurrent, keys_recompiledPlan hlastHook, keys_recompiledPlan hhook, selectedPlan_congr hinputs,
    hinputs.blocked, hmailboxes]

/-- Alice's two outboxes. -/
def twoOutboxes : Mailboxes where
  get pk := if pk = "alice" then some ⟨["wss://a", "wss://b"], [], []⟩ else none
  dmInboxRelays _ := none

/-- Alice's notes are compiled, without scores. -/
def aliceCompiled : List Act :=
  [.setActive [standing 1 (notesOf "alice")], .mailboxChanged twoOutboxes, .recompile none none]

theorem skipped_recompile_exact_alice :
    ∃ last, (run (step documentedCrate) start aliceCompiled).compiled = some last ∧
      SameInputs last.lifecycle (run (step documentedCrate) start aliceCompiled).lifecycle
        last.blocked none ∧
      last.mailboxes = (run (step documentedCrate) start aliceCompiled).mailboxes ∧
      (last.scoreLookup = none →
        planDiff documentedCrate (run (step documentedCrate) start aliceCompiled).lifecycle.currentPlan
          (some (recompiledPlan (run (step documentedCrate) start aliceCompiled).lifecycle
            (run (step documentedCrate) start aliceCompiled).mailboxes none none))
          (run (step documentedCrate) start aliceCompiled).lifecycle.active = []) :=
  skipped_recompile_exact documentedCrate aliceCompiled none none (by decide +kernel)
    (by unfold NoCollision; decide +kernel)

/-- One of the relays becomes warm for Alice: the other one would go, but the recompile is skipped. -/
theorem warm_relay_not_recompiled : ¬ ∀ (nostr : NostrCrate) (acts : List Act)
    (scoreLookup : Option ScoreLookup) (blocked : Option (SortedSet String)),
    skips (run (step nostr) start acts).lifecycle blocked = true →
      NoCollision (run (step nostr) start acts) blocked →
      planDiff nostr (run (step nostr) start acts).lifecycle.currentPlan
        (some (recompiledPlan (run (step nostr) start acts).lifecycle
          (run (step nostr) start acts).mailboxes scoreLookup blocked))
        (run (step nostr) start acts).lifecycle.active = [] := by
  intro hclaim
  have hempty := hclaim documentedCrate aliceCompiled (some fun _ relay => relay = "wss://b") none
    (by decide +kernel) (by unfold NoCollision; decide +kernel)
  revert hempty
  decide +kernel

end SubsRecompile
