import NostrMultiPlatform.SubsRecompile

/-!
# Watermarks in the plan and on replay

A recompile raises the floor of each sub-shape to what the store holds already; a
reconnect replays the plan in effect and raises the floors of a copy. Both leave
ephemeral shapes and full-history shapes alone, and both put the same floor on
the wire, also where the replay starts from a floor raised before.
-/
namespace SubsReconnect

open Sorted PlannerShape PlannerPlan SubsFilter SubsWire SubsLifecycle SubsRecompile

variable {watermark : InterestShape → String → Option Nat} {interests : List LogicalInterest}
  {relayUrl : String} {sub : SubShape} {lc : SubscriptionLifecycle} {plan : CompiledPlan}
  {relayPlan : RelayPlan}

/-- The copy of a shape that goes on the wire when its relay is back. -/
def wireShape (watermark : InterestShape → String → Option Nat) (interests : List LogicalInterest)
    (relayUrl : String) (sub : SubShape) : InterestShape :=
  match sub.shape.since with
  | none =>
    if lifecycleForShape sub interests = .tailing then
      match watermark sub.shape relayUrl with
      | some mark => { sub.shape with since := some (saturatingSucc mark) }
      | none => sub.shape
    else sub.shape
  | some existing =>
    match watermark sub.shape relayUrl with
    | some mark =>
      if existing < saturatingSucc mark then
        { sub.shape with since := some (saturatingSucc mark) }
      else sub.shape
    | none => sub.shape

/-- Ephemeral shapes, and all shapes without a watermark function, are replayed as they are. -/
def replayedShape (lc : SubscriptionLifecycle) (relayUrl : String) (sub : SubShape) :
    InterestShape :=
  match lc.watermarkFn with
  | some watermark =>
    if !shapeIsEphemeralOnly sub.shape then wireShape watermark lc.active relayUrl sub
    else sub.shape
  | none => sub.shape

/-- The frames alone; the plan in effect is not touched. -/
def handleReconnect (nostr : NostrCrate) (lc : SubscriptionLifecycle) (relayUrl : String) :
    List WireFrame :=
  match lc.currentPlan with
  | none => []
  | some plan =>
    match plan.perRelay.lookup relayUrl with
    | none => []
    | some relayPlan =>
      relayPlan.subShapes.map fun sub =>
        .req relayUrl (subIdFor sub) (filterJsonFor nostr (replayedShape lc relayUrl sub))
          (sub.originatingInterests.head?.getD 0) (lifecycleForShape sub lc.active)

/-- The floor of a shape, given what is stored already. -/
def floor (tailing ephemeral : Bool) (since mark : Option Nat) : Option Nat :=
  if ephemeral then since
  else
    match since, mark with
    | some existing, some mark => some (max existing (saturatingSucc mark))
    | none, some mark => if tailing then some (saturatingSucc mark) else none
    | _, none => since

theorem floor_ephemeral (tailing : Bool) (since mark : Option Nat) :
    floor tailing true since mark = since := rfl

theorem floor_history (ephemeral : Bool) (mark : Option Nat) :
    floor false ephemeral none mark = none := by
  cases ephemeral <;> cases mark <;> rfl

/-- The same watermark raises a raised floor no further. -/
theorem floor_floor (tailing ephemeral : Bool) (since mark : Option Nat) :
    floor tailing ephemeral (floor tailing ephemeral since mark) mark =
      floor tailing ephemeral since mark := by
  cases ephemeral
  · cases mark with
    | none => cases since <;> rfl
    | some =>
      cases since with
      | none => cases tailing <;> simp [floor]
      | some => simp [floor]
  · rfl

/-- The floor of a sub-shape at a relay. -/
def floorFor (watermark : InterestShape → String → Option Nat) (interests : List LogicalInterest)
    (relayUrl : String) (sub : SubShape) : Option Nat :=
  floor (lifecycleForShape sub interests = .tailing) (shapeIsEphemeralOnly sub.shape)
    sub.shape.since (watermark sub.shape relayUrl)

/-- The sub-shape with another floor. -/
def withSince (sub : SubShape) (since : Option Nat) : SubShape :=
  { sub with shape := { sub.shape with since := since } }

theorem withSince_self (sub : SubShape) : withSince sub sub.shape.since = sub := rfl

/-- The rewrite sets the floor and nothing else. -/
theorem rewriteSince_eq : rewriteSince watermark interests relayUrl sub =
    withSince sub (floorFor watermark interests relayUrl sub) := by
  unfold rewriteSince floorFor floor
  cases hephemeral : shapeIsEphemeralOnly sub.shape with
  | true => rfl
  | false =>
    rw [if_neg Bool.false_ne_true, if_neg Bool.false_ne_true]
    cases hmark : watermark sub.shape relayUrl with
    | none => cases hsince : sub.shape.since <;> simp [← hsince, withSince_self]
    | some =>
      cases hsince : sub.shape.since with
      | none =>
        by_cases htailing : lifecycleForShape sub interests = .tailing
        · simp [htailing, withSince]
        · simp [htailing, ← hsince, withSince_self]
      | some =>
        dsimp only
        split
        next hlt => rw [max_eq_right hlt.le, withSince]
        next hle => rw [max_eq_left (not_lt.mp hle), ← hsince, withSince_self]

/-- A replay puts on the wire what the rewrite would. -/
theorem replayedShape_eq (h : lc.watermarkFn = some watermark) :
    replayedShape lc relayUrl sub = (rewriteSince watermark lc.active relayUrl sub).shape := by
  unfold replayedShape rewriteSince wireShape
  rw [h]
  dsimp only
  cases shapeIsEphemeralOnly sub.shape with
  | true => rfl
  | false =>
    rw [Bool.not_false, if_pos rfl, if_neg Bool.false_ne_true]
    cases hsince : sub.shape.since with
    | none =>
      dsimp only
      by_cases htailing : lifecycleForShape sub lc.active = .tailing
      · rw [if_pos htailing, if_neg (not_not_intro htailing)]
        cases watermark sub.shape relayUrl <;> rfl
      · rw [if_neg htailing, if_pos htailing]
    | some =>
      dsimp only
      cases watermark sub.shape relayUrl with
      | none => rfl
      | some =>
        dsimp only
        split <;> rfl

theorem lifecycleForShape_withSince (since : Option Nat) :
    lifecycleForShape (withSince sub since) interests = lifecycleForShape sub interests := rfl

/-- The frames of a relay's sub-shapes, as a plan difference requests them. -/
def requestsOf (nostr : NostrCrate) (interests : List LogicalInterest) (relayUrl : String)
    (subShapes : List SubShape) : List WireFrame :=
  subShapes.map fun sub => emitReq nostr interests (relayUrl, sub)

theorem handleReconnect_eq (nostr : NostrCrate) (h : lc.watermarkFn = some watermark)
    (hplan : lc.currentPlan = some plan) (hrelay : plan.perRelay.lookup relayUrl = some relayPlan) :
    handleReconnect nostr lc relayUrl = requestsOf nostr lc.active relayUrl
      (relayPlan.subShapes.map (rewriteSince watermark lc.active relayUrl)) := by
  simp only [handleReconnect, hplan, hrelay, requestsOf, List.map_map]
  refine List.map_congr_left fun sub _ => ?_
  rw [Function.comp_apply, emitReq, replayedShape_eq h, subIdFor_rewriteSince, rewriteSince_eq,
    lifecycleForShape_withSince]
  rfl

/-- Rewriting a rewritten sub-shape under the same watermark leaves it. -/
theorem rewriteSince_rewritten {origin : SubShape}
    (hmark : watermark (rewriteSince watermark interests relayUrl origin).shape relayUrl =
      watermark origin.shape relayUrl) :
    rewriteSince watermark interests relayUrl (rewriteSince watermark interests relayUrl origin) =
      rewriteSince watermark interests relayUrl origin := by
  have hsame : floorFor watermark interests relayUrl (rewriteSince watermark interests relayUrl origin) =
      floorFor watermark interests relayUrl origin := by
    rw [floorFor, hmark, rewriteSince_eq, lifecycleForShape_withSince]
    exact floor_floor _ _ _ _
  rw [rewriteSince_eq, hsame, rewriteSince_eq]
  rfl

/-- What a rewrite does to a plan, and how a replay compares with it. -/
structure NarrowingSound (plan : CompiledPlan) (watermark : InterestShape → String → Option Nat)
    (interests : List LogicalInterest) : Prop where
  /-- Only floors change. -/
  rewritten : applyWatermarkRewrite plan watermark interests =
    { plan with
      perRelay := plan.perRelay.mapRows fun _ relayPlan =>
        { relayPlan with
          subShapes := relayPlan.subShapes.map fun sub =>
            withSince sub (floorFor watermark interests relayPlan.relayUrl sub) } }
  hash : ∀ sub since, (withSince sub since).canonicalFilterHash = sub.canonicalFilterHash
  /-- A floor rises to the watermark, saturating, and never falls. -/
  raised : ∀ relayUrl sub existing mark, shapeIsEphemeralOnly sub.shape = false →
    sub.shape.since = some existing → watermark sub.shape relayUrl = some mark →
    floorFor watermark interests relayUrl sub = some (max existing (saturatingSucc mark))
  /-- A live feed without a floor gets one. -/
  narrowed : ∀ relayUrl sub mark, shapeIsEphemeralOnly sub.shape = false →
    sub.shape.since = none → lifecycleForShape sub interests = .tailing →
    watermark sub.shape relayUrl = some mark →
    floorFor watermark interests relayUrl sub = some (saturatingSucc mark)
  /-- Full history, ephemeral shapes, and shapes without a watermark are left alone. -/
  untouched : ∀ relayUrl sub, (shapeIsEphemeralOnly sub.shape = true ∨
      (sub.shape.since = none ∧ lifecycleForShape sub interests ≠ .tailing) ∨
      watermark sub.shape relayUrl = none) →
    floorFor watermark interests relayUrl sub = sub.shape.since
  /-- A replay of the plan as it was compiled sends the floors of the rewritten plan. -/
  replayed : ∀ nostr lc relayUrl relayPlan, lc.watermarkFn = some watermark → lc.active = interests →
    lc.currentPlan = some plan → plan.perRelay.lookup relayUrl = some relayPlan →
    relayPlan.relayUrl = relayUrl →
    ∃ rewritten,
      (applyWatermarkRewrite plan watermark interests).perRelay.lookup relayUrl = some rewritten ∧
      handleReconnect nostr lc relayUrl = requestsOf nostr interests relayUrl rewritten.subShapes
  /-- A replay of the rewritten plan sends its floors again, if the watermarks are the same. -/
  replayedAgain : ∀ nostr lc current relayUrl relayPlan rewritten, lc.watermarkFn = some watermark →
    lc.active = interests → lc.currentPlan = some current →
    plan.perRelay.lookup relayUrl = some relayPlan → relayPlan.relayUrl = relayUrl →
    (applyWatermarkRewrite plan watermark interests).perRelay.lookup relayUrl = some rewritten →
    current.perRelay.lookup relayUrl = some rewritten →
    (∀ sub ∈ relayPlan.subShapes,
      watermark (rewriteSince watermark interests relayUrl sub).shape relayUrl =
        watermark sub.shape relayUrl) →
    handleReconnect nostr lc relayUrl = requestsOf nostr interests relayUrl rewritten.subShapes

theorem lookup_applyWatermarkRewrite : (applyWatermarkRewrite plan watermark interests).perRelay.lookup
    relayUrl = (plan.perRelay.lookup relayUrl).map fun relayPlan =>
      { relayPlan with
        subShapes := relayPlan.subShapes.map
          (rewriteSince watermark interests relayPlan.relayUrl) } := by
  rw [applyWatermarkRewrite, SortedMap.lookup_mapRows]

/-- Every plan is narrowed soundly, whatever the watermarks. -/
theorem narrowing_sound (plan : CompiledPlan) (watermark : InterestShape → String → Option Nat)
    (interests : List LogicalInterest) : NarrowingSound plan watermark interests := by
  constructor
  · have hrewrite : ∀ relayUrl, rewriteSince watermark interests relayUrl =
        fun sub => withSince sub (floorFor watermark interests relayUrl sub) :=
      fun _ => funext fun _ => rewriteSince_eq
    simp only [applyWatermarkRewrite, hrewrite]
  · exact fun _ _ => rfl
  · intro relayUrl sub existing mark hephemeral hsince hmark
    rw [floorFor, hephemeral, hsince, hmark]
    rfl
  · intro relayUrl sub mark hephemeral hsince htailing hmark
    rw [floorFor, hephemeral, hsince, hmark, htailing]
    rfl
  · rintro relayUrl sub (hephemeral | ⟨hsince, hhistory⟩ | hmark)
    · rw [floorFor, hephemeral, floor_ephemeral]
    · rw [floorFor, hsince, decide_eq_false hhistory, floor_history]
    · rw [floorFor, hmark]
      cases shapeIsEphemeralOnly sub.shape <;> cases sub.shape.since <;> rfl
  · rintro nostr lc _ relayPlan hwatermark rfl hplan hrelay rfl
    have hlookup : (applyWatermarkRewrite plan watermark lc.active).perRelay.lookup
        relayPlan.relayUrl = _ := lookup_applyWatermarkRewrite
    rw [hrelay, Option.map_some] at hlookup
    exact ⟨_, hlookup, handleReconnect_eq nostr hwatermark hplan hrelay⟩
  · rintro nostr lc current _ relayPlan rewritten hwatermark rfl hcurrent hrelay rfl hrewritten hlookup
      hmark
    rw [handleReconnect_eq nostr hwatermark hcurrent hlookup]
    rw [lookup_applyWatermarkRewrite, hrelay, Option.map_some] at hrewritten
    obtain rfl := Option.some.inj hrewritten
    rw [List.map_map]
    exact congrArg _ (List.map_congr_left fun sub hsub => rewriteSince_rewritten (hmark sub hsub))

end SubsReconnect
