import NostrMultiPlatform.NegentropySync

/-!
# Where a reconciliation ends

A session leaves the map in six places. In each of them its interest is handed on
once: by its own REQ, by a request for the missing ids, or as complete.
-/
namespace NegentropyExits

open NegentropyFilter NegentropySync Tables Runs Transducers Runtime Session

variable {ρ : Type} {c : Crates ρ} {rt : Runtime ρ} {op : Op}

/-- The relay sends the session of the key a message that can be decoded. -/
def Delivers (c : Crates ρ) (op : Op) (key : Key) (msg : Bytes) (now : Nat) : Prop :=
  ∃ text message, op = .onRelayText key.1 text now ∧
    c.relayMessage text = some (.negMsg key.2 message) ∧ hexDecodeSizeLimited message = .ok msg

/-- The relay ends the session of the key, or sends it what cannot be decoded. -/
def Refuses (c : Crates ρ) (op : Op) (key : Key) : Prop :=
  ∃ text now, op = .onRelayText key.1 text now ∧
    ((∃ message, c.relayMessage text = some (.negErr key.2 message)) ∨
      ∃ message e, c.relayMessage text = some (.negMsg key.2 message) ∧
        hexDecodeSizeLimited message = .error e)

/-- A notice about negentropy takes all sessions of its relay. -/
def Notices (c : Crates ρ) (op : Op) (key : Key) : Prop :=
  ∃ text now message, op = .onRelayText key.1 text now ∧
    c.relayMessage text = some (.notice message) ∧ noticeMentionsNegentropy message

/-- The input is about the session of the key. -/
def Touches (c : Crates ρ) (rt : Runtime ρ) (op : Op) (key : Key) : Prop :=
  (∃ ctx store now, op = .interceptReq ctx store now ∧ key = (ctx.relayUrl, ctx.subId)) ∨
  (∃ msg now, Delivers c op key msg now) ∨ Refuses c op key ∨ Notices c op key ∨
  ∃ now s, op = .onIdleTick now ∧ rt.sessions.lookup key = some s ∧ timedOut now s

/-- The session that the input advances, and when. -/
def progressed (c : Crates ρ) (rt : Runtime ρ) : Op → Option (Key × Nat)
  | .interceptReq ctx store now =>
    (rt.interceptReq c ctx store now).map fun _ => ((ctx.relayUrl, ctx.subId), now)
  | .onRelayText relayUrl text now =>
    match c.relayMessage text with
    | some (.negMsg subId message) =>
      match rt.sessions.lookup (relayUrl, subId), hexDecodeSizeLimited message with
      | some _, .ok _ => some ((relayUrl, subId), now)
      | _, _ => none
    | _ => none
  | .onIdleTick _ => none

/-- What one input does. -/
inductive Stepped (c : Crates ρ) (rt : Runtime ρ) (op : Op) : Runtime ρ × List Effect → Prop
  | idle (hop : ∀ now, op ≠ .onIdleTick now) (hprog : progressed c rt op = none) :
    Stepped c rt op (rt, [])
  | opened (ctx : ReqFrameContext) (store : EventStore) (now : Nat) (session : Session ρ)
    (out : List Effect) (hop : op = .interceptReq ctx store now)
    (hname : session.relayUrl = ctx.relayUrl ∧ session.subId = ctx.subId)
    (hnow : session.openedAtSecs = now)
    (hprog : progressed c rt op = some ((ctx.relayUrl, ctx.subId), now)) :
    Stepped c rt op ((rt.markRelay ctx.relayUrl .probing).putSession (ctx.relayUrl, ctx.subId)
      session, out)
  | swept (url : Session ρ → String) (keys : List Key) (hnodup : keys.Nodup)
    (htouch : ∀ key ∈ keys, Touches c rt op key) (hprog : progressed c rt op = none)
    (hkept : ∀ now, op = .onIdleTick now → ∀ key s, rt.sessions.lookup key = some s →
      key ∉ keys → now < s.openedAtSecs + negOpenLivenessDeadlineSecs) :
    Stepped c rt op ((fallBackAll url keys rt).1,
      fallbackEffects (fallBackAll url keys rt).2)
  | refused (key : Key) (s : Session ρ) (hs : rt.sessions.lookup key = some s)
    (href : Refuses c op key) (hprog : progressed c rt op = none) :
    Stepped c rt op (rt.retire key key.1, fallbackEffects [s])
  | advanced (key : Key) (s : Session ρ) (msg : Bytes) (now : Nat) (next : Bytes)
    (reconciler : Reconciler ρ) (hs : rt.sessions.lookup key = some s)
    (hmsg : Delivers c op key msg now) (hprog : progressed c rt op = some (key, now))
    (hsend : s.reconciler.reconcile c msg = (some (.send next), reconciler)) :
    Stepped c rt op (((rt.dropSession key).markRelay key.1 .supported).putSession
      (key.1, s.subId) { s.advanced now with reconciler },
      [.call (probe s.role .supported), .send ⟨s.role, s.relayUrl, .negMsg s.subId next⟩])
  | completed (key : Key) (s : Session ρ) (msg : Bytes) (now : Nat) (have_ need : List Id)
    (hs : rt.sessions.lookup key = some s) (hmsg : Delivers c op key msg now)
    (hprog : progressed c rt op = some (key, now))
    (hdone : (s.reconciler.reconcile c msg).1 = some (.done have_ need)) :
    Stepped c rt op ((rt.dropSession key).markRelay key.1 .supported,
      .call (probe s.role .supported) ::
        doneEffects (s.advanced now) key.1 have_ need now)
  | failed (key : Key) (s : Session ρ) (msg : Bytes) (now : Nat)
    (hs : rt.sessions.lookup key = some s) (hmsg : Delivers c op key msg now)
    (hprog : progressed c rt op = some (key, now))
    (herr : (s.reconciler.reconcile c msg).1 = none) :
    Stepped c rt op ((rt.dropSession key).markRelay key.1 .supported,
      [.call (probe s.role .supported), .send s.fallbackReq])

variable {now : Nat} {key : Key} {out : Runtime ρ × List Effect} {s : Session ρ}

theorem openSession_named {ctx : ReqFrameContext} {filter : EligibleFilter} {store : EventStore}
    {msg : Bytes} {session : Session ρ}
    (h : openSession c ctx filter store now = some (msg, session)) :
    (session.relayUrl = ctx.relayUrl ∧ session.subId = ctx.subId) ∧
      session.openedAtSecs = now := by
  simp only [openSession, Option.bind_eq_bind, Option.bind_eq_some_iff,
    Option.pure_def, Option.some.injEq, Prod.mk.injEq] at h
  obtain ⟨_, _, _, _, _, _, _, _, _, rfl⟩ := h
  exact ⟨⟨rfl, rfl⟩, rfl⟩

theorem interceptReq_cases (rt : Runtime ρ) (ctx : ReqFrameContext) (store : EventStore)
    (now : Nat) :
    rt.interceptReq c ctx store now = none ∨ ∃ session out,
      rt.interceptReq c ctx store now =
        some ((rt.markRelay ctx.relayUrl .probing).putSession (ctx.relayUrl, ctx.subId) session,
          out) ∧
      (session.relayUrl = ctx.relayUrl ∧ session.subId = ctx.subId) ∧
      session.openedAtSecs = now := by
  unfold interceptReq
  cases rt.candidate c ctx with
  | none => exact .inl rfl
  | some filter =>
    dsimp only
    cases hopen : openSession c ctx filter store now with
    | none => exact .inl rfl
    | some out => exact .inr ⟨out.2, _, rfl, openSession_named hopen⟩

theorem stepped_interceptReq (rt : Runtime ρ) (ctx : ReqFrameContext) (store : EventStore)
    (now : Nat) : Stepped c rt (.interceptReq ctx store now)
      (step c rt (.interceptReq ctx store now)) := by
  obtain hnone | ⟨session, out, heq, hname, hnow⟩ := interceptReq_cases (c := c) rt ctx store now
  · have hstep : step c rt (.interceptReq ctx store now) = (rt, []) := by
      rw [step, hnone, Option.getD_none]
    rw [hstep]
    exact .idle (fun _ => nofun) (by rw [progressed, hnone, Option.map_none])
  · rw [step, heq, Option.getD_some]
    exact .opened ctx store now session out rfl hname hnow
      (by rw [progressed, heq, Option.map_some])

theorem stepped_negErr {relayUrl text subId message : String}
    (htext : c.relayMessage text = some (.negErr subId message)) :
    Stepped c rt (.onRelayText relayUrl text now) (rt.onNegErr relayUrl subId) := by
  have hprog : progressed c rt (.onRelayText relayUrl text now) = none := by
    rw [progressed, htext]
  unfold onNegErr
  cases hs : rt.sessions.lookup (relayUrl, subId) with
  | none => exact .idle (fun _ => nofun) hprog
  | some s =>
    exact .refused (relayUrl, subId) s hs ⟨text, now, rfl, .inl ⟨message, htext⟩⟩ hprog

theorem stepped_negMsg {relayUrl text subId message : String}
    (htext : c.relayMessage text = some (.negMsg subId message)) :
    Stepped c rt (.onRelayText relayUrl text now)
      (rt.onNegMsg c relayUrl subId message now) := by
  unfold onNegMsg
  cases hs : rt.sessions.lookup (relayUrl, subId) with
  | none => exact .idle (fun _ => nofun) (by simp only [progressed, htext, hs])
  | some s =>
    dsimp only
    cases hhex : hexDecodeSizeLimited message with
    | error e =>
      exact .refused (relayUrl, subId) s hs ⟨text, now, rfl, .inr ⟨message, e, htext, hhex⟩⟩
        (by simp only [progressed, htext, hs, hhex])
    | ok msg =>
      have hmsg : Delivers c (.onRelayText relayUrl text now) (relayUrl, subId) msg now :=
        ⟨text, message, rfl, htext, hhex⟩
      have hprog : progressed c rt (.onRelayText relayUrl text now) =
          some ((relayUrl, subId), now) := by
        simp only [progressed, htext, hs, hhex]
      have hkeep : (s.advanced now).reconciler = s.reconciler := rfl
      dsimp only
      rw [hkeep]
      cases hrec : s.reconciler.reconcile c msg with
      | mk outcome reconciler =>
        cases outcome with
        | none => exact .failed (relayUrl, subId) s msg now hs hmsg hprog (by rw [hrec])
        | some outcome =>
          cases outcome with
          | send next =>
            exact .advanced (relayUrl, subId) s msg now next reconciler hs hmsg hprog hrec
          | done have_ need =>
            exact .completed (relayUrl, subId) s msg now have_ need hs hmsg hprog (by rw [hrec])

theorem stepped_notice {relayUrl text message : String}
    (htext : c.relayMessage text = some (.notice message)) (hneg : noticeMentionsNegentropy message)
    :
    Stepped c rt (.onRelayText relayUrl text now) (rt.fallbackAllForRelay relayUrl) := by
  refine .swept (fun _ => relayUrl) _ (rt.sessions.keys_nodup.filter _) ?_
    (by rw [progressed, htext]) (fun _ hop => nomatch hop)
  intro key hkey
  have hurl : key.1 = relayUrl := of_decide_eq_true (List.mem_filter.mp hkey).2
  subst hurl
  exact .inr (.inr (.inr (.inl ⟨text, now, message, rfl, htext, hneg⟩)))

theorem stepped_onIdleTick (rt : Runtime ρ) (now : Nat) :
    Stepped c rt (.onIdleTick now) (rt.onIdleTick now) := by
  have hnodup : ((rt.sessions.entries.filter fun e => timedOut now e.2).map
      fun e => e.1).Nodup :=
    rt.sessions.keys_nodup.sublist (List.filter_sublist.map _)
  have hmem (key : Key) : key ∈ ((rt.sessions.entries.filter fun e =>
      timedOut now e.2).map fun e => e.1) ↔
      ∃ s, rt.sessions.lookup key = some s ∧ timedOut now s := by
    simp only [List.mem_map, List.mem_filter]
    constructor
    · rintro ⟨⟨key, s⟩, ⟨he, hlate⟩, rfl⟩
      exact ⟨s, AList.mem_lookup_iff.mpr he, hlate⟩
    · rintro ⟨s, hs, hlate⟩
      exact ⟨⟨key, s⟩, ⟨AList.mem_lookup_iff.mp hs, hlate⟩, rfl⟩
  refine .swept _ _ hnodup ?_ rfl ?_
  · intro key hkey
    obtain ⟨s, hs, hlate⟩ := (hmem key).mp hkey
    exact .inr (.inr (.inr (.inr ⟨now, s, rfl, hs, hlate⟩)))
  · intro now' hop key s hs hnot
    cases hop
    by_contra hlate
    refine hnot ((hmem key).mpr ⟨s, hs, ?_⟩)
    rw [timedOut, decide_eq_true_iff]
    unfold negOpenLivenessDeadlineSecs at *
    omega

theorem stepped (c : Crates ρ) (rt : Runtime ρ) (op : Op) : Stepped c rt op (step c rt op) := by
  cases op with
  | interceptReq ctx store now => exact stepped_interceptReq rt ctx store now
  | onIdleTick now => exact stepped_onIdleTick rt now
  | onRelayText relayUrl text now =>
    have hidle (hprog : progressed c rt (.onRelayText relayUrl text now) = none) :
        Stepped c rt (.onRelayText relayUrl text now) (rt, []) := .idle (fun _ => nofun) hprog
    change Stepped c rt _ (rt.onRelayText c relayUrl text now)
    unfold onRelayText
    cases htext : c.relayMessage text with
    | none => exact hidle (by rw [progressed, htext])
    | some m =>
      cases m with
      | other => exact hidle (by rw [progressed, htext])
      | negErr => exact stepped_negErr htext
      | negMsg => exact stepped_negMsg htext
      | notice =>
        dsimp only
        split
        next hneg => exact stepped_notice htext hneg
        next => exact hidle (by rw [progressed, htext])

theorem fallBackAll_sessions (url : Session ρ → String) (keys : List Key) (rt : Runtime ρ)
    (key : Key) : (fallBackAll url keys rt).1.sessions.lookup key =
      if key ∈ keys then none else rt.sessions.lookup key := by
  induction keys generalizing rt with
  | nil => simp [fallBackAll]
  | cons k _ ih =>
    unfold fallBackAll
    split
    next hnone =>
      rw [ih]
      by_cases hk : key = k
      · subst hk; simp [hnone]
      · simp [hk]
    next s hs =>
      dsimp only
      rw [ih, retire_sessions, lookup_erase_eq]
      by_cases hk : key = k
      · simp [hk]
      · simp [hk]

/-- The sessions taken out are those the keys had. -/
theorem fallBackAll_gone (url : Session ρ → String) {keys : List Key} (hnodup : keys.Nodup)
    (rt : Runtime ρ) :
    (fallBackAll url keys rt).2 = keys.filterMap rt.sessions.lookup := by
  induction keys generalizing rt with
  | nil => rfl
  | cons _ _ ih =>
    obtain ⟨hk, hkeys⟩ := List.nodup_cons.mp hnodup
    unfold fallBackAll
    split
    next hnone => simp only [List.filterMap_cons, hnone, ih hkeys]
    next s hs =>
      simp only [List.filterMap_cons, hs, ih hkeys]
      refine congrArg (s :: ·) (List.filterMap_congr fun key hkey => ?_)
      rw [retire_sessions, lookup_erase_eq, if_neg]
      rintro rfl
      exact hk hkey

/-- Every session is kept under its own relay and subscription id. -/
def Named (rt : Runtime ρ) : Prop :=
  ∀ key s, rt.sessions.lookup key = some s → key = (s.relayUrl, s.subId)

theorem named_new (threshold : Nat) : Named (new threshold : Runtime ρ) := by
  intro key s hs
  cases hs

/-- What was under a key before the step, if the key still has a session. -/
theorem lookup_of_stepped (hrt : Named rt) (h : Stepped c rt op out)
    (hs : out.1.sessions.lookup key = some s) :
    (∃ ctx store now, op = .interceptReq ctx store now ∧ key = (ctx.relayUrl, ctx.subId) ∧
      s.relayUrl = ctx.relayUrl ∧ s.subId = ctx.subId ∧ s.openedAtSecs = now ∧
      progressed c rt op = some (key, now)) ∨
    (∃ old msg now next reconciler, rt.sessions.lookup key = some old ∧
      Delivers c op key msg now ∧ progressed c rt op = some (key, now) ∧
      old.reconciler.reconcile c msg = (some (.send next), reconciler) ∧
      s = { old.advanced now with reconciler }) ∨
    (rt.sessions.lookup key = some s ∧ ∀ now, progressed c rt op ≠ some (key, now)) := by
  cases h with
  | idle _ hprog => exact .inr (.inr ⟨hs, fun now => by rw [hprog]; nofun⟩)
  | opened ctx store now _ _ hop hname hnow hprog =>
    rw [putSession_sessions, lookup_insert_eq] at hs
    by_cases hkey : key = (ctx.relayUrl, ctx.subId)
    · rw [if_pos hkey] at hs
      cases hs
      exact .inl ⟨ctx, store, now, hop, hkey, hname.1, hname.2, hnow, by rw [hprog, hkey]⟩
    · rw [if_neg hkey] at hs
      refine .inr (.inr ⟨hs, fun now => ?_⟩)
      rw [hprog]
      intro heq
      exact hkey (Prod.mk.inj (Option.some.inj heq)).1.symm
  | swept _ _ _ _ hprog =>
    rw [fallBackAll_sessions] at hs
    split at hs
    · cases hs
    · exact .inr (.inr ⟨hs, fun now => by rw [hprog]; nofun⟩)
  | refused _ _ _ _ hprog =>
    rw [retire_sessions, lookup_erase_eq] at hs
    split at hs
    · cases hs
    · exact .inr (.inr ⟨hs, fun now => by rw [hprog]; nofun⟩)
  | advanced k old msg now next reconciler hold hmsg hprog hsend =>
    have hk : (k.1, old.subId) = k := by rw [hrt k old hold]
    rw [putSession_sessions, hk, lookup_insert_eq] at hs
    by_cases hkey : key = k
    · rw [if_pos hkey] at hs
      cases hs
      subst hkey
      exact .inr (.inl ⟨old, msg, now, next, reconciler, hold, hmsg, hprog, hsend, rfl⟩)
    · rw [if_neg hkey, markRelay_sessions, dropSession_sessions,
        lookup_erase_eq, if_neg hkey] at hs
      refine .inr (.inr ⟨hs, fun now => ?_⟩)
      rw [hprog]
      intro heq
      exact hkey (Prod.mk.inj (Option.some.inj heq)).1.symm
  | completed _ _ _ now _ _ _ _ hprog _ =>
    rw [markRelay_sessions, dropSession_sessions, lookup_erase_eq] at hs
    split at hs
    · cases hs
    next hkey =>
      refine .inr (.inr ⟨hs, fun now => ?_⟩)
      rw [hprog]
      intro heq
      exact hkey (Prod.mk.inj (Option.some.inj heq)).1.symm
  | failed _ _ _ now _ _ hprog _ =>
    rw [markRelay_sessions, dropSession_sessions, lookup_erase_eq] at hs
    split at hs
    · cases hs
    next hkey =>
      refine .inr (.inr ⟨hs, fun now => ?_⟩)
      rw [hprog]
      intro heq
      exact hkey (Prod.mk.inj (Option.some.inj heq)).1.symm

theorem named_step (hrt : Named rt) (op : Op) : Named (step c rt op).1 := by
  intro key s hs
  obtain ⟨ctx, _, _, _, hkey, hurl, hsub, _⟩ | ⟨old, _, _, _, _, hold, _, _, _, rfl⟩ | ⟨hold, _⟩ :=
    lookup_of_stepped hrt (stepped c rt op) hs
  · rw [hkey, hurl, hsub]
  · exact hrt key old hold
  · exact hrt key s hold

theorem named_after (c : Crates ρ) (threshold : Nat) (ops : List Op) :
    Named (after (step c) (.new threshold) ops) :=
  run_invariant Named (fun _ op h _ => named_step h op) (named_new threshold)
    (meets_of_forall _ (fun _ => True) _ ops fun _ _ => trivial)

/-- Only the sessions that the input is about change. -/
theorem lookup_eq_or_touches (hrt : Named rt) (h : Stepped c rt op out) (key : Key) :
    out.1.sessions.lookup key = rt.sessions.lookup key ∨ Touches c rt op key := by
  cases h with
  | idle => exact .inl rfl
  | opened ctx store now _ _ hop =>
    by_cases hkey : key = (ctx.relayUrl, ctx.subId)
    · exact .inr (.inl ⟨ctx, store, now, hop, hkey⟩)
    · exact .inl (by rw [putSession_sessions, lookup_insert_eq, if_neg hkey]; rfl)
  | swept _ keys _ htouch =>
    by_cases hkey : key ∈ keys
    · exact .inr (htouch key hkey)
    · exact .inl (by rw [fallBackAll_sessions, if_neg hkey])
  | refused k _ _ href =>
    by_cases hkey : key = k
    · exact .inr (.inr (.inr (.inl (hkey ▸ href))))
    · exact .inl (by rw [retire_sessions, lookup_erase_eq, if_neg hkey])
  | advanced k old msg now _ _ hold hmsg =>
    by_cases hkey : key = k
    · exact .inr (.inr (.inl ⟨msg, now, hkey ▸ hmsg⟩))
    · have hk : (k.1, old.subId) = k := by rw [hrt k old hold]
      refine .inl ?_
      rw [putSession_sessions, hk, lookup_insert_eq, if_neg hkey,
        markRelay_sessions, dropSession_sessions, lookup_erase_eq, if_neg hkey]
  | completed k _ msg now _ _ _ hmsg =>
    by_cases hkey : key = k
    · exact .inr (.inr (.inl ⟨msg, now, hkey ▸ hmsg⟩))
    · refine .inl ?_
      rw [markRelay_sessions, dropSession_sessions, lookup_erase_eq, if_neg hkey]
  | failed k _ msg now _ hmsg =>
    by_cases hkey : key = k
    · exact .inr (.inr (.inl ⟨msg, now, hkey ▸ hmsg⟩))
    · refine .inl ?_
      rw [markRelay_sessions, dropSession_sessions, lookup_erase_eq, if_neg hkey]

/-- The effect hands the interest of the session on. -/
def concerns (s : Session ρ) : Effect → Bool
  | .send ⟨_, url, .req sub _⟩ => url == s.relayUrl && sub == s.subId
  | .send ⟨_, url, .negClose sub⟩ => url == s.relayUrl && sub == s.subId
  | .send ⟨_, url, .idsReq sub _⟩ => url == s.relayUrl && sub == s.idsSub
  | .send ⟨_, _, .negOpen _ _ _⟩ => false
  | .send ⟨_, _, .negMsg _ _⟩ => false
  | .call (.completeRewrittenWireSub url sub) => url == s.relayUrl && sub == s.subId
  | .call (.setNegentropyProbeState _ _) => false
  | .call (.setNegentropySyncStats _ _ _ _) => false
  | .call (.recordNegDoneCoverage _ _ _) => false

/-- The relay's message completes the reconciliation of the session. -/
def Completes (c : Crates ρ) (op : Op) (s : Session ρ) (need : List Id) : Prop :=
  ∃ msg now have_, Delivers c op (s.relayUrl, s.subId) msg now ∧
    (s.reconciler.reconcile c msg).1 = some (.done have_ need)

/-- All that a step does for the interest of the session, in one of three ways. -/
inductive HandedOn (c : Crates ρ) (op : Op) (s : Session ρ) (out : List Effect) : Prop
  | fallback (h : out.filter (concerns s) = [.send s.fallbackReq])
  | ids (need : List Id) (hdone : Completes c op s need) (hneed : need ≠ [])
    (h : out.filter (concerns s) = [.send s.closeMsg, .send (s.idsReq need)])
  | complete (hdone : Completes c op s []) (h : out.filter (concerns s) =
      [.call (.completeRewrittenWireSub s.relayUrl s.subId), .send s.closeMsg])

/-- Nothing was missing and the live subscription of a tailing interest goes on. -/
def StaysLive (c : Crates ρ) (op : Op) (s : Session ρ) (out : List Effect) : Prop :=
  s.mode ≠ .replaceOneShot ∧ Completes c op s [] ∧
    out.filter (concerns s) = [.send s.closeMsg]

theorem filter_filterMap_singleton {α β : Type} [DecidableEq α] {keys : List α}
    (hnodup : keys.Nodup) {f : α → Option β} {p : β → Bool} {k : α} {b : β} (hk : k ∈ keys)
    (hb : f k = some b) (hp : p b = true)
    (honly : ∀ k' b', f k' = some b' → p b' = true → k' = k) :
    (keys.filterMap f).filter p = [b] := by
  induction keys with
  | nil => exact absurd hk List.not_mem_nil
  | cons a _ ih =>
    obtain ⟨ha, hkeys⟩ := List.nodup_cons.mp hnodup
    by_cases hak : a = k
    · subst hak
      rw [List.filterMap_cons_some hb, List.filter_cons_of_pos hp]
      refine congrArg (b :: ·) (List.filter_eq_nil_iff.mpr fun b' hb' hp' => ?_)
      obtain ⟨k', hk', hf'⟩ := List.mem_filterMap.mp hb'
      exact ha (honly k' b' hf' hp' ▸ hk')
    · have hrest := ih hkeys ((List.mem_cons.mp hk).resolve_left fun h => hak h.symm)
      cases hfa : f a with
      | none => rw [List.filterMap_cons_none hfa, hrest]
      | some a' =>
        rw [List.filterMap_cons_some hfa, List.filter_cons_of_neg, hrest]
        exact fun hpa => hak (honly a a' hfa hpa)

theorem concerns_fallbackReq (s other : Session ρ) :
    concerns s (.send other.fallbackReq) = true ↔
      other.relayUrl = s.relayUrl ∧ other.subId = s.subId := by
  simp [concerns, fallbackReq]

/-- Of the sessions that fall back, one sends for a given one. -/
theorem filter_fallbackEffects (hrt : Named rt) {keys : List Key} (hnodup : keys.Nodup)
    (hkey : key ∈ keys) (hs : rt.sessions.lookup key = some s) :
    (fallbackEffects (keys.filterMap rt.sessions.lookup)).filter (concerns s) =
      [.send s.fallbackReq] := by
  have hcalls (gone : List (Session ρ)) :
      (gone.map fun s => Effect.call (probe s.role .unsupported)).filter (concerns s) =
        [] := by
    rw [List.filter_eq_nil_iff]
    simp [concerns, probe]
  rw [fallbackEffects, List.filter_append, hcalls, List.nil_append, List.filter_map]
  have hone : (keys.filterMap rt.sessions.lookup).filter
      (concerns s ∘ fun s => Effect.send s.fallbackReq) = [s] := by
    refine filter_filterMap_singleton hnodup hkey hs ?_ ?_
    · exact (concerns_fallbackReq s s).mpr ⟨rfl, rfl⟩
    · intro key' s' hs' hp
      obtain ⟨hurl, hsub⟩ := (concerns_fallbackReq s s').mp hp
      rw [hrt key' s' hs', hrt key s hs, hurl, hsub]
  rw [hone, List.map_singleton]

theorem completes_of_delivers {msg : Bytes} {have_ need : List Id}
    (hkey : key = (s.relayUrl, s.subId)) (hmsg : Delivers c op key msg now)
    (hdone : (s.reconciler.reconcile c msg).1 = some (.done have_ need)) : Completes c op s need :=
  ⟨msg, now, have_, hkey ▸ hmsg, hdone⟩

/-- What completion hands on, by what was missing and by the mode. -/
theorem handedOn_doneEffects {now : Nat} {have_ need : List Id} (hdone : Completes c op s need) :
    let out := Effect.call (probe s.role .supported) ::
      doneEffects (s.advanced now) s.relayUrl have_ need now
    HandedOn c op s out ∨ StaysLive c op s out := by
  cases need with
  | cons id ids =>
    refine .inl (.ids (id :: ids) hdone (List.cons_ne_nil id ids) ?_)
    simp [doneEffects, concerns, probe, closeMsg, idsReq,
      advanced, idsSub]
  | nil =>
    cases hm : s.mode with
    | replaceOneShot =>
      refine .inl (.complete hdone ?_)
      simp [doneEffects, concerns, probe, closeMsg, advanced, hm]
    | backfillTailing =>
      refine .inr ⟨by rw [hm]; nofun, hdone, ?_⟩
      simp [doneEffects, concerns, probe, closeMsg, advanced, hm]

/-- A session that leaves the map is handed on by the step that takes it out. -/
theorem handedOn_of_stepped (hrt : Named rt) (h : Stepped c rt op out)
    (hs : rt.sessions.lookup key = some s) (hgone : out.1.sessions.lookup key = none) :
    HandedOn c op s out.2 ∨ StaysLive c op s out.2 := by
  have hname : key = (s.relayUrl, s.subId) := hrt key s hs
  cases h with
  | idle => rw [hs] at hgone; cases hgone
  | opened =>
    rw [putSession_sessions, lookup_insert_eq] at hgone
    split at hgone
    · cases hgone
    · rw [markRelay_sessions, hs] at hgone
      cases hgone
  | swept url _ hnodup =>
    rw [fallBackAll_sessions] at hgone
    split at hgone
    next hkey =>
      refine .inl (.fallback ?_)
      rw [fallBackAll_gone url hnodup]
      exact filter_fallbackEffects hrt hnodup hkey hs
    next => rw [hs] at hgone; cases hgone
  | refused _ _ hold =>
    rw [retire_sessions, lookup_erase_eq] at hgone
    split at hgone
    next hkey =>
      subst hkey
      rw [hs] at hold
      cases hold
      refine .inl (.fallback ?_)
      have hgone : [key].filterMap rt.sessions.lookup = [s] := by
        simp only [List.filterMap_cons, hs, List.filterMap_nil]
      rw [← hgone]
      exact filter_fallbackEffects hrt (List.nodup_singleton key) (List.mem_singleton_self key) hs
    next => rw [hs] at hgone; cases hgone
  | advanced k old _ _ next _ hold =>
    have hk : (k.1, old.subId) = k := by rw [hrt k old hold]
    rw [putSession_sessions, hk, lookup_insert_eq] at hgone
    split at hgone
    · cases hgone
    next hkey =>
      rw [markRelay_sessions, dropSession_sessions, lookup_erase_eq,
        if_neg hkey, hs] at hgone
      cases hgone
  | completed _ _ _ _ _ _ hold hmsg _ hdone =>
    rw [markRelay_sessions, dropSession_sessions, lookup_erase_eq] at hgone
    split at hgone
    next hkey =>
      subst hkey
      rw [hs] at hold
      cases hold
      have hurl : key.1 = s.relayUrl := by rw [hname]
      rw [hurl]
      exact handedOn_doneEffects (completes_of_delivers hname hmsg hdone)
    next => rw [hs] at hgone; cases hgone
  | failed _ _ _ _ hold =>
    rw [markRelay_sessions, dropSession_sessions, lookup_erase_eq] at hgone
    split at hgone
    next hkey =>
      subst hkey
      rw [hs] at hold
      cases hold
      refine .inl (.fallback ?_)
      simp [concerns, probe, fallbackReq]
    next => rw [hs] at hgone; cases hgone

/-- A runtime and when each key last made progress. -/
structure Tracked (ρ : Type) where
  runtime : Runtime ρ
  progress : Key → Option Nat

def Tracked.step (c : Crates ρ) (t : Tracked ρ) (op : Op) : Tracked ρ where
  runtime := (NegentropySync.step c t.runtime op).1
  progress := fun key =>
    match progressed c t.runtime op with
    | some (k, now) => if key = k then some now else t.progress key
    | none => t.progress key

def Tracked.new (threshold : Nat) : Tracked ρ := ⟨.new threshold, fun _ => none⟩

theorem run_tracked (c : Crates ρ) (t : Tracked ρ) (ops : List Op) :
    (run (Tracked.step c) t ops).runtime = after (step c) t.runtime ops := by
  induction ops generalizing t with
  | nil => rfl
  | cons _ _ ih => rw [run_cons, ih, after_cons, Tracked.step]

/-- A session's clock shows when its key last made progress. -/
def Anchored (t : Tracked ρ) : Prop :=
  Named t.runtime ∧
    ∀ key s, t.runtime.sessions.lookup key = some s → t.progress key = some s.openedAtSecs

theorem anchored_step {t : Tracked ρ} (ht : Anchored t) (op : Op) : Anchored (t.step c op) := by
  refine ⟨named_step ht.1 op, fun key s hs => ?_⟩
  obtain ⟨_, _, now, _, _, _, _, hnow, hprog⟩ | ⟨old, _, now, _, _, _, _, hprog, _, rfl⟩ |
    ⟨hold, hother⟩ := lookup_of_stepped ht.1 (stepped c t.runtime op) hs
  · simp only [Tracked.step, hprog, if_pos, hnow]
  · simp only [Tracked.step, hprog, if_pos, advanced]
  · have hkeep := ht.2 key s hold
    unfold Tracked.step
    dsimp only
    split
    next k now hprog =>
      rw [if_neg, hkeep]
      rintro rfl
      exact hother now hprog
    next => exact hkeep

theorem anchored_run (c : Crates ρ) (threshold : Nat) (ops : List Op) :
    Anchored (run (Tracked.step c) (.new threshold) ops) :=
  run_invariant Anchored (fun _ op h _ => anchored_step h op)
    ⟨named_new threshold, fun _ _ hs => nomatch hs⟩
    (meets_of_forall _ (fun _ => True) _ ops fun _ _ => trivial)

/-- The second that the key last made progress in the inputs. -/
def lastProgress (c : Crates ρ) (threshold : Nat) (ops : List Op) (key : Key) : Option Nat :=
  (run (Tracked.step c) (.new threshold) ops).progress key

theorem recent_of_tick (c : Crates ρ) {t : Tracked ρ} (ht : Anchored t)
    (hs : (t.step c (.onIdleTick now)).runtime.sessions.lookup key = some s) :
    (t.step c (.onIdleTick now)).progress key = some s.openedAtSecs ∧
      now < s.openedAtSecs + negOpenLivenessDeadlineSecs := by
  refine ⟨(anchored_step ht (.onIdleTick now)).2 key s hs, ?_⟩
  have hstepped := stepped c t.runtime (.onIdleTick now)
  change (NegentropySync.step c t.runtime (.onIdleTick now)).1.sessions.lookup key = some s at hs
  generalize NegentropySync.step c t.runtime (.onIdleTick now) = out at hstepped hs
  cases hstepped with
  | idle hop => exact absurd rfl (hop now)
  | opened _ _ _ _ _ hop => cases hop
  | swept _ _ _ _ _ hkept =>
    rw [fallBackAll_sessions] at hs
    split at hs
    · cases hs
    next hkey => exact hkept now rfl key s hs hkey
  | refused _ _ _ href => obtain ⟨_, _, hop, _⟩ := href; cases hop
  | advanced _ _ _ _ _ _ _ hmsg => obtain ⟨_, _, hop, _⟩ := hmsg; cases hop
  | completed _ _ _ _ _ _ _ hmsg => obtain ⟨_, _, hop, _⟩ := hmsg; cases hop
  | failed _ _ _ _ _ hmsg => obtain ⟨_, _, hop, _⟩ := hmsg; cases hop

/-- In every reachable state, a session that an input takes out is handed on by that input, in one
of three ways, or leaves its live subscription running; an input changes only the sessions it is
about; and after an idle tick every session made progress in the last thirty seconds. -/
theorem session_handed_on (c : Crates ρ) (threshold : Nat) (ops : List Op) (op : Op) :
    let rt := after (step c) (.new threshold) ops
    let out := step c rt op
    (∀ key s, rt.sessions.lookup key = some s → out.1.sessions.lookup key = none →
      HandedOn c op s out.2 ∨ StaysLive c op s out.2) ∧
    (∀ key, out.1.sessions.lookup key ≠ rt.sessions.lookup key → Touches c rt op key) ∧
    ∀ now, op = .onIdleTick now → ∀ key s, out.1.sessions.lookup key = some s →
      ∃ last, lastProgress c threshold (ops ++ [op]) key = some last ∧
        now < last + negOpenLivenessDeadlineSecs := by
  have hnamed := named_after c threshold ops
  refine ⟨fun key s hs hgone => handedOn_of_stepped hnamed (stepped c _ op) hs hgone,
    fun key hne => (lookup_eq_or_touches hnamed (stepped c _ op) key).resolve_left hne, ?_⟩
  rintro now rfl key s hs
  have hrun : (run (Tracked.step c) (.new threshold) ops).runtime =
      after (step c) (.new threshold) ops := run_tracked c (.new threshold) ops
  rw [← hrun] at hs
  have hlast := recent_of_tick c (anchored_run c threshold ops) hs
  refine ⟨s.openedAtSecs, ?_, hlast.2⟩
  rw [lastProgress, run_append]
  exact hlast.1

/-- A relay whose set is the local one: its first message completes the reconciliation. -/
def sameSet : Crates Unit where
  parse := fun _ => some (.object [])
  render := fun _ => ""
  acceptsFilter := fun _ => true
  relayMessage := fun _ => some (.negMsg "sub-1" "")
  storage := fun _ => some ()
  initiate := fun _ => some ([], ())
  engine := fun _ _ => (some (none, [], []), ())

def emptyStore : EventStore := ⟨fun _ => .ok none, fun _ => .ok []⟩

def tailingReq : Op := .interceptReq ⟨"content", "wss://r", "sub-1", "\x7b\x7d", .tailing⟩ emptyStore 5

def firstReply : Op := .onRelayText "wss://r" "neg-msg" 6

def tailingSession : Session Unit where
  subId := "sub-1"
  role := "content"
  relayUrl := "wss://r"
  filterJson := "\x7b\x7d"
  reconciler := ⟨(), true, [], []⟩
  mode := .backfillTailing "sub-1-neg-ids"
  rounds := 0
  localItemCount := 0
  openedAtSecs := 5

/-- A tailing session that needs nothing leaves with a close and no completion. -/
theorem tailing_not_completed : ¬ ∀ (c : Crates Unit) (threshold : Nat) (ops : List Op) (op : Op)
    (key : Key) (s : Session Unit),
    (after (step c) (.new threshold) ops).sessions.lookup key = some s →
    (step c (after (step c) (.new threshold) ops) op).1.sessions.lookup key = none →
    HandedOn c op s (step c (after (step c) (.new threshold) ops) op).2 := by
  intro h
  have hclose : (step sameSet (after (step sameSet) (.new 0) [tailingReq]) firstReply).2.filter
      (concerns tailingSession) = [.send tailingSession.closeMsg] := by rfl
  have hout := h sameSet 0 [tailingReq] firstReply ("wss://r", "sub-1") tailingSession
    (by with_unfolding_all rfl) (by rfl)
  cases hout with
  | fallback hreq =>
    rw [hclose] at hreq
    exact absurd hreq (by decide)
  | ids _ _ _ hids =>
    rw [hclose] at hids
    exact absurd (congrArg List.length hids) (by simp)
  | complete _ hcomplete =>
    rw [hclose] at hcomplete
    exact absurd (congrArg List.length hcomplete) (by decide)

end NegentropyExits
