import NostrMultiPlatform.Nip46Handshake

/-!
# How a session ends, and what it ignores

An error leaves the phase as it was, so only a session that is done is over: after
an error the timer and a matching event still act. Stray inputs change nothing.
-/
namespace Nip46Finality

open Nip46Reducer Nip46Handshake Runs Transducers
open SubsFilter (lower)

variable {Keys PublicKey Event : Type} {c : Crates Keys PublicKey Event}
  {s : Session Keys PublicKey}

def IsError (e : Effect) : Prop := ∃ error, e = .error error

instance : DecidablePred IsError := fun e =>
  match e with
  | .error error => .isTrue ⟨error, rfl⟩
  | .subscribe _ _ | .sendFrame _ _ | .progress _ _ _ | .deliverResponse _ _ | .signerReady _ =>
    .isFalse nofun

/-- An effect that ends the session. -/
def Terminal (e : Effect) : Prop := IsError e ∨ IsReady e

/-- An effect that an ended session must not have. -/
def Acting (e : Effect) : Prop := Terminal e ∨ ∃ url text, e = .sendFrame url text

instance : DecidablePred Terminal := fun e => inferInstanceAs (Decidable (IsError e ∨ IsReady e))

instance : DecidablePred Acting := fun e =>
  match e with
  | .error error => .isTrue (.inl (.inl ⟨error, rfl⟩))
  | .signerReady ready => .isTrue (.inl (.inr ⟨ready, rfl⟩))
  | .sendFrame url text => .isTrue (.inr ⟨url, text, rfl⟩)
  | .subscribe _ _ | .progress _ _ _ | .deliverResponse _ _ =>
    .isFalse (by simp [Acting, Terminal, IsError, IsReady])

/-- The session is over where its log says so. -/
def Over (log : List Effect) : Prop := EndsOnce Terminal Acting log

instance (log : List Effect) : Decidable (Over log) :=
  inferInstanceAs (Decidable (log.Pairwise fun e later => Terminal e → ¬ Acting later))

/-- The input is one the session acts on: the timer of a waiting session at its deadline, or the
event its phase waits for. -/
def Acts (c : Crates Keys PublicKey Event) (s : Session Keys PublicKey) (i : Input) : Prop :=
  (∃ now, i = .tick now ∧ Session.Expired s now) ∨
    ∃ event now, i.carried c s.subId = some (event, now) ∧ Session.Awaits c s event

variable {event : Value} {id : String} {remote : PublicKey}

theorem awaits_of_phase {result : String}
    (hphase : s.phase = .bunkerWaitConnectAck id remote ∨ s.phase = .waitGpk id remote)
    (h : Grants c s.localKeys remote id event result) : Session.Awaits c s event := by
  obtain ⟨rpc, hresp, _, _⟩ := h
  unfold Session.Awaits
  obtain hphase | hphase := hphase
  · rw [hphase]
    exact Option.isSome_of_eq_some hresp
  · rw [hphase]
    exact Option.isSome_of_eq_some hresp

theorem awaits_of_ncRequest {secret : String} {request : PublicKey × String × List Value}
    (hphase : s.phase = .nostrConnectWaitConnect secret)
    (h : ncRequest c s.localKeys event = some request) : Session.Awaits c s event := by
  unfold Session.Awaits
  rw [hphase]
  exact Option.isSome_of_eq_some h

/-- A step has an acting effect exactly on the inputs that the session acts on. -/
theorem acts_iff {i : Input} {out : Outcome Keys PublicKey} (h : Stepped c s i out) :
    (∃ e ∈ out.2, Acting e) ↔ Acts c s i := by
  have hmatch {event : Value} {now : Nat} (hcarried : i.carried c s.subId = some (event, now)) :
      Acts c s i ↔ Session.Awaits c s event := by
    constructor
    · rintro (⟨now', rfl, _⟩ | ⟨event', now', hcarried', hawaits⟩)
      · cases hcarried
      · rw [hcarried] at hcarried'
        cases hcarried'
        exact hawaits
    · exact fun hawaits => .inr ⟨event, now, hcarried, hawaits⟩
  have hother (hcarried : i.carried c s.subId = none)
      (htick : ∀ now, i = .tick now → ¬ Session.Expired s now) : ¬ Acts c s i := by
    rintro (⟨now, hi, hexpired⟩ | ⟨event, now, hcarried', _⟩)
    · exact htick now hi hexpired
    · rw [hcarried] at hcarried'
      cases hcarried'
  cases h with
  | event hcarried hh =>
    rw [hmatch hcarried]
    cases hh with
    | stray hstray => simp [hstray]
    | refused _ hawaits => simp [hawaits, Acting, Terminal, IsError]
    | acked _ _ hphase hgrants =>
      simp [awaits_of_phase (.inl hphase) hgrants, Acting, Terminal, IsError, IsReady]
    | connected _ _ hphase hrequest =>
      simp [awaits_of_ncRequest hphase hrequest, Acting, Terminal, IsError, IsReady]
    | ready hphase hgrants =>
      simp [awaits_of_phase (.inr hphase) hgrants, Acting, Terminal, IsReady]
  | expired _ hinput hexpired =>
    have hacts : Acts c s i := .inl ⟨_, hinput, hexpired⟩
    simp [hacts, Acting, Terminal, IsError]
  | armed now hcarried hinput => simp [hother hcarried fun now hi => absurd hi (hinput now)]
  | quiet hcarried hinput => simp [hother hcarried hinput]
  | subscribed _ _ hcarried hinput =>
    simp [hother hcarried fun now hi => absurd hi (hinput now), Acting, Terminal, IsError, IsReady]

/-- What one step emits is over where it ends. -/
theorem over_of_stepped {i : Input} {out : Outcome Keys PublicKey} (h : Stepped c s i out) :
    Over out.2 := by
  cases h with
  | event _ hh => cases hh <;> simp [Over, EndsOnce, Terminal, IsError, IsReady]
  | _ => simp [Over, EndsOnce]

/-- A session as it is made, with its first effects. -/
inductive Opens (c : Crates Keys PublicKey Event) : Outcome Keys PublicKey → Prop
  | handshake (setup : Setup Keys PublicKey) : Opens c (setup.start c)
  | restored (subId : String) (localKeys : Keys) (relayUrls : List String) (now : Nat) :
    Opens c (startRestore c subId localKeys relayUrls now)

/-- A log that is over, of a session that is done if it reported a signer. -/
def Closed (w : Emitting (Session Keys PublicKey) Effect) : Prop :=
  Over w.2 ∧ ((∃ e ∈ w.2, IsReady e) → w.1.phase = .done)

theorem closed_of_opens {w : Emitting (Session Keys PublicKey) Effect} (h : Opens c w) :
    Closed w := by
  cases h with
  | handshake setup =>
    unfold Setup.start
    cases setup.flow with
    | bunker =>
      dsimp only [startBunker]
      constructor
      · dsimp only
        split <;> simp [Over, EndsOnce, Terminal, IsError, IsReady]
      · dsimp only
        split <;> simp [IsReady]
    | nostrconnect =>
      simp [startNostrconnect, Closed, Over, EndsOnce, Terminal, IsError, IsReady]
  | restored =>
    refine ⟨List.pairwise_map.mpr (List.pairwise_of_forall ?_), fun _ => rfl⟩
    intro _ _ hends
    simp [Terminal, IsError, IsReady] at hends

/-- After an error nothing comes that the session acts on. -/
def QuietAfterError (c : Crates Keys PublicKey Event) (w : Emitting (Session Keys PublicKey) Effect)
    (i : Input) : Prop :=
  (∃ e ∈ w.2, IsError e) → ¬ Acts c w.1 i

/-- One input keeps the log over exactly where it is quiet after an error. -/
theorem closed_watch_iff {w : Emitting (Session Keys PublicKey) Effect} (h : Closed w) (i : Input) :
    (Over (watch (step c) w i).2 ↔ QuietAfterError c w i) ∧
      (QuietAfterError c w i → Closed (watch (step c) w i)) := by
  have hstep : Stepped c w.1 i (step c w.1 i) := stepped i
  have hacts := acts_iff hstep
  have hdone (hready : ∃ e ∈ w.2, IsReady e) := stepped_done hstep (h.2 hready)
  have hover : Over (watch (step c) w i).2 ↔ QuietAfterError c w i := by
    rw [watch, Over, endsOnce_append]
    constructor
    · rintro ⟨_, _, hacross⟩ ⟨e, he, herror⟩ hnow
      obtain ⟨later, hlater, hacting⟩ := hacts.mpr hnow
      exact hacross ⟨e, he, .inl herror⟩ later hlater hacting
    · intro hquiet
      refine ⟨h.1, over_of_stepped hstep, ?_⟩
      rintro ⟨e, he, herror | hready⟩ later hlater hacting
      · exact hquiet ⟨e, he, herror⟩ (hacts.mp ⟨later, hlater, hacting⟩)
      · obtain ⟨url, frame, rfl⟩ := (hdone ⟨e, he, hready⟩).2 later hlater
        simp [Acting, Terminal, IsError, IsReady] at hacting
  refine ⟨hover, fun hquiet => ⟨hover.mpr hquiet, ?_⟩⟩
  rintro ⟨e, he, hready⟩
  obtain hold | hnew := List.mem_append.mp he
  · exact (hdone ⟨e, hold, hready⟩).1
  · exact (ready_of_stepped hstep).2 ⟨e, hnew, hready⟩

/-- A session ends once exactly in the runs that are quiet after an error. -/
theorem endsOnce_iff_quietAfterError (c : Crates Keys PublicKey Event)
    (w : Emitting (Session Keys PublicKey) Effect) (h : Opens c w) (is : List Input) :
    (∀ js, js <+: is → EndsOnce Terminal Acting (run (watch (step c)) w js).2) ↔
      Meets (watch (step c)) (QuietAfterError c) w is :=
  always_iff_meets Closed (fun w => Over w.2)
    (fun _ i hw _ hquiet => (closed_watch_iff hw i).2 hquiet) (fun _ hw => hw.1)
    (fun _ i hw _ hover => (closed_watch_iff hw i).1.mp hover) (closed_of_opens h)
    (meets_of_forall (watch (step c)) (fun _ => True) w is fun _ _ => trivial)

/-- A handshake without an error. -/
theorem bunker_endsOnce :
    (∃ e ∈ (run (watch (step bodyCrates)) (bunkerSetup.start bodyCrates)
        [.relayEvent (bodyEvent bunkerKey 0) 5, .relayEvent (bodyEvent bunkerKey 1) 9]).2,
      IsReady e) ∧
      ∀ js, js <+: [.relayEvent (bodyEvent bunkerKey 0) 5, .relayEvent (bodyEvent bunkerKey 1) 9] →
        EndsOnce Terminal Acting
          (run (watch (step bodyCrates)) (bunkerSetup.start bodyCrates) js).2 := by
  have hrun := run_watch (step bodyCrates) (bunkerSetup.start bodyCrates).1
    (bunkerSetup.start bodyCrates).2
    [.relayEvent (bodyEvent bunkerKey 0) 5, .relayEvent (bodyEvent bunkerKey 1) 9]
  rw [Prod.mk.eta] at hrun
  refine ⟨⟨.signerReady ⟨userKey, bunkerKey, none⟩, ?_, ⟨_, rfl⟩⟩, ?_⟩
  · rw [hrun, emitted_cons, emitted_cons]
    exact List.mem_append_right _ (List.mem_append_right _ (List.mem_append_left _ bunker_ready))
  apply (endsOnce_iff_quietAfterError bodyCrates _ (.handshake bunkerSetup) _).mpr
  refine ⟨fun herror => absurd herror ?_, fun herror => absurd herror ?_, trivial⟩
  all_goals decide +kernel

/-- A session that timed out and then reports a signer. -/
theorem bunker_timeout_completes :
    ¬ EndsOnce Terminal Acting (run (watch (step bodyCrates)) (bunkerSetup.start bodyCrates)
      [.tick 60, .relayEvent (bodyEvent bunkerKey 0) 61,
        .relayEvent (bodyEvent bunkerKey 1) 62]).2 := by
  change ¬ Over _
  decide +kernel

/-- The id and the key that a response must have. -/
def Session.expects (s : Session Keys PublicKey) : Option (String × PublicKey) :=
  match s.phase with
  | .bunkerWaitConnectAck id remote | .waitGpk id remote => some (id, remote)
  | _ => none

/-- The session waits for a signer that it does not know yet. -/
def Session.listens (s : Session Keys PublicKey) : Prop :=
  ∃ secret, s.phase = .nostrConnectWaitConnect secret

/-- The key whose content the session tries to open. -/
def Session.Hears (c : Crates Keys PublicKey Event) (s : Session Keys PublicKey) (event : Value)
    (remote : PublicKey) : Prop :=
  (∃ id, Session.expects s = some (id, remote)) ∨ Session.listens s ∧ author c event = some remote

/-- The plaintext of an event under a key. -/
def Decrypts (c : Crates Keys PublicKey Event) (s : Session Keys PublicKey) (event : Value)
    (remote : PublicKey) (text : String) : Prop :=
  ∃ ciphertext, event.str "content" = some ciphertext ∧
    c.decrypt s.localKeys remote ciphertext = .ok text

/-- The events that do not belong to the phase of the session. -/
inductive StrayEvent (c : Crates Keys PublicKey Event) (s : Session Keys PublicKey)
    (event : Value) : Prop
  | wrongPubkey {id : String} {remote : PublicKey} (hexpects : Session.expects s = some (id, remote))
    (h : lower ((event.str "pubkey").getD "") ≠ c.toHex remote)
  | noPubkey (hlistens : Session.listens s) (h : author c event = none)
  | undecryptable {remote : PublicKey} (hhears : Session.Hears c s event remote)
    (h : ∀ text, ¬ Decrypts c s event remote text)
  | notJson {remote : PublicKey} {text : String} (hhears : Session.Hears c s event remote)
    (htext : Decrypts c s event remote text) (h : c.parse text = none)
  | wrongId {id text : String} {remote : PublicKey} {rpc : Value}
    (hexpects : Session.expects s = some (id, remote)) (htext : Decrypts c s event remote text)
    (hrpc : c.parse text = some rpc) (h : rpc.str "id" ≠ some id)
  | missingId {remote : PublicKey} {text : String} {rpc : Value} (hlistens : Session.listens s)
    (hhears : Session.Hears c s event remote) (htext : Decrypts c s event remote text)
    (hrpc : c.parse text = some rpc) (h : rpc.str "id" = none)
  | otherMethod {remote : PublicKey} {text : String} {rpc : Value} (hlistens : Session.listens s)
    (hhears : Session.Hears c s event remote) (htext : Decrypts c s event remote text)
    (hrpc : c.parse text = some rpc) (h : rpc.str "method" ≠ some "connect")
  | late (h : s.phase = .done)

/-- The inputs that carry nothing for the session: a stray event, given as a value or in a frame,
and texts that are no frame for it. -/
inductive StrayInput (c : Crates Keys PublicKey Event) (s : Session Keys PublicKey) : Input → Prop
  | event {event : Value} (now : Nat) (h : StrayEvent c s event) :
    StrayInput c s (.relayEvent event now)
  | frame {text : String} {event sub : Value} {rest : List Value} (now : Nat)
    (htext : c.parse text = some (.array (.string "EVENT" :: sub :: event :: rest)))
    (h : StrayEvent c s event) : StrayInput c s (.relayText text now)
  | notJson {text : String} (now : Nat) (h : c.parse text = none) :
    StrayInput c s (.relayText text now)
  | notArray {text : String} {value : Value} (now : Nat) (htext : c.parse text = some value)
    (h : value.asArray = none ∨ value.asArray = some []) : StrayInput c s (.relayText text now)
  | wrongSubscription {text : String} {head sub : Value} {rest : List Value} (now : Nat)
    (htext : c.parse text = some (.array (head :: sub :: rest))) (h : sub.asStr ≠ some s.subId) :
    StrayInput c s (.relayText text now)
  | unknownType {text : String} {head : Value} {rest : List Value} (now : Nat)
    (htext : c.parse text = some (.array (head :: rest))) (heose : head.asStr ≠ some "EOSE")
    (hevent : head.asStr ≠ some "EVENT") : StrayInput c s (.relayText text now)

/-- Encryption as the crate undoes it. -/
def Opening (c : Crates Keys PublicKey Event) : Sealing Keys PublicKey :=
  fun localKeys remote ciphertext text => c.decrypt localKeys remote ciphertext = .ok text

theorem Decrypts.unique {text text' : String} (h : Decrypts c s event remote text)
    (h' : Decrypts c s event remote text') : text = text' := by
  obtain ⟨ciphertext, hcontent, hdec⟩ := h
  obtain ⟨ciphertext', hcontent', hdec'⟩ := h'
  rw [hcontent] at hcontent'
  cases hcontent'
  exact Except.ok.inj (hdec.symm.trans hdec')

/-- What an event shows that a session acts on: its key, its body, and the id or the method. -/
inductive Shown (c : Crates Keys PublicKey Event) (s : Session Keys PublicKey) (event : Value) : Prop
  | response {id text : String} {remote : PublicKey} {rpc : Value}
    (hexpects : Session.expects s = some (id, remote))
    (hauthor : lower ((event.str "pubkey").getD "") = c.toHex remote)
    (htext : Decrypts c s event remote text) (hrpc : c.parse text = some rpc)
    (hid : rpc.str "id" = some id)
  | request {secret id text : String} {remote : PublicKey} {rpc : Value}
    (hphase : s.phase = .nostrConnectWaitConnect secret) (hauthor : author c event = some remote)
    (htext : Decrypts c s event remote text) (hrpc : c.parse text = some rpc)
    (hmethod : rpc.str "method" = some "connect") (hid : rpc.str "id" = some id)

theorem shown_of_response (hexpects : Session.expects s = some (id, remote))
    (h : (response c s.localKeys remote id event).isSome = true) : Shown c s event := by
  obtain ⟨rpc, hresp⟩ := Option.isSome_iff_exists.mp h
  obtain ⟨hauthor, hopen, hid⟩ := response_eq_some hresp
  have htells : Tells c (Opening c) s.localKeys remote event rpc :=
    tells_of_openContent (fun _ _ _ _ h => h) hopen
  obtain ⟨ciphertext, text, hcontent, hdec, hparse⟩ := htells
  exact .response hexpects hauthor ⟨ciphertext, hcontent, hdec⟩ hparse hid

theorem shown_of_awaits (h : Session.Awaits c s event) : Shown c s event := by
  unfold Session.Awaits at h
  cases hphase : s.phase with
  | bunkerWaitConnectAck | waitGpk =>
    rw [hphase] at h
    exact shown_of_response (by rw [Session.expects, hphase]) h
  | nostrConnectWaitConnect =>
    rw [hphase] at h
    obtain ⟨⟨signer, connectId, params⟩, hreq⟩ := Option.isSome_iff_exists.mp h
    have hrequests : Requests c (Opening c) s.localKeys signer (receivedSecret params) event :=
      requests_of_ncRequest (fun _ _ _ _ h => h) hreq
    obtain ⟨hauthor, rpc, id, _, ⟨ciphertext, text, hcontent, hdec, hparse⟩, hmethod, hid, _⟩ :=
      hrequests
    exact .request hphase hauthor ⟨ciphertext, hcontent, hdec⟩ hparse hmethod hid
  | done =>
    rw [hphase] at h
    exact absurd h id

theorem Session.listens.expects (h : Session.listens s) : Session.expects s = none := by
  obtain ⟨secret, hphase⟩ := h
  rw [Session.expects, hphase]

/-- The key that is heard is the one the response is expected from. -/
theorem Session.Hears.eq_expected {remote key : PublicKey} (h : Session.Hears c s event remote)
    (hexpects : Session.expects s = some (id, key)) : remote = key := by
  obtain ⟨id', h⟩ | ⟨hlistens, _⟩ := h
  · rw [hexpects] at h
    cases h
    rfl
  · rw [hlistens.expects] at hexpects
    cases hexpects

theorem Session.Hears.eq_author {remote key : PublicKey} (h : Session.Hears c s event remote)
    (hlistens : Session.listens s) (hauthor : author c event = some key) : remote = key := by
  obtain ⟨id, hexpects⟩ | ⟨_, h⟩ := h
  · rw [hlistens.expects] at hexpects
    cases hexpects
  · rw [hauthor] at h
    cases h
    rfl

theorem not_shown_of_strayEvent (h : StrayEvent c s event) : ¬ Shown c s event := by
  rintro (⟨hexpects, hauthor, htext, hrpc, hid⟩ | ⟨hphase, hauthor, htext, hrpc, hmethod, hid⟩)
  · have hheard {remote : PublicKey} (hhears : Session.Hears c s event remote) :=
      hhears.eq_expected hexpects
    have hnone (hlistens : Session.listens s) : False := by
      rw [hlistens.expects] at hexpects
      cases hexpects
    cases h with
    | wrongPubkey hexpects' h =>
      rw [hexpects] at hexpects'
      cases hexpects'
      exact h hauthor
    | noPubkey hlistens => exact hnone hlistens
    | undecryptable hhears h =>
      cases hheard hhears
      exact h _ htext
    | notJson hhears htext' h =>
      cases hheard hhears
      rw [htext'.unique htext, hrpc] at h
      cases h
    | wrongId hexpects' htext' hrpc' h =>
      rw [hexpects] at hexpects'
      cases hexpects'
      rw [htext'.unique htext, hrpc] at hrpc'
      cases hrpc'
      exact h hid
    | missingId hlistens => exact hnone hlistens
    | otherMethod hlistens => exact hnone hlistens
    | late h => rw [Session.expects, h] at hexpects; cases hexpects
  · have hlistens : Session.listens s := ⟨_, hphase⟩
    have hheard {remote : PublicKey} (hhears : Session.Hears c s event remote) :=
      hhears.eq_author hlistens hauthor
    cases h with
    | wrongPubkey hexpects => rw [hlistens.expects] at hexpects; cases hexpects
    | noPubkey _ h => rw [hauthor] at h; cases h
    | undecryptable hhears h =>
      cases hheard hhears
      exact h _ htext
    | notJson hhears htext' h =>
      cases hheard hhears
      rw [htext'.unique htext, hrpc] at h
      cases h
    | wrongId hexpects => rw [hlistens.expects] at hexpects; cases hexpects
    | missingId _ hhears htext' hrpc' h =>
      cases hheard hhears
      rw [htext'.unique htext, hrpc] at hrpc'
      cases hrpc'
      rw [hid] at h
      cases h
    | otherMethod _ hhears htext' hrpc' h =>
      cases hheard hhears
      rw [htext'.unique htext, hrpc] at hrpc'
      cases hrpc'
      exact h hmethod
    | late h => rw [hphase] at h; cases h

theorem onRelayEvent_of_not_awaits (h : ¬ Session.Awaits c s event) (now : Nat) :
    s.onRelayEvent c event now = (s, []) := by
  have hh := handled (c := c) (s := s) event now
  generalize s.onRelayEvent c event now = out at hh ⊢
  cases hh with
  | stray => rfl
  | refused _ hawaits => exact absurd hawaits h
  | acked _ _ hphase hgrants => exact absurd (awaits_of_phase (.inl hphase) hgrants) h
  | connected _ _ hphase hreq => exact absurd (awaits_of_ncRequest hphase hreq) h
  | ready hphase hgrants => exact absurd (awaits_of_phase (.inr hphase) hgrants) h

theorem onRelayEvent_of_strayEvent (h : StrayEvent c s event) (now : Nat) :
    s.onRelayEvent c event now = (s, []) :=
  onRelayEvent_of_not_awaits (fun hawaits =>
    not_shown_of_strayEvent h (shown_of_awaits hawaits)) now

/-- A stray text is no frame for the session, or the frame of a stray event. -/
theorem frameOf_of_strayInput {text : String} {now : Nat} (h : StrayInput c s (.relayText text now)) :
    frameOf c s.subId text = none ∨
      ∃ event, frameOf c s.subId text = some (.event event) ∧ StrayEvent c s event := by
  cases h with
  | @frame _ event sub rest _ htext h =>
    by_cases hsub : sub.asStr = some s.subId
    · exact .inr ⟨event, by simp [frameOf, htext, hsub], h⟩
    · exact .inl (by simp [frameOf, htext, hsub])
  | notJson _ h => exact .inl (by simp [frameOf, h])
  | notArray _ htext h =>
    obtain h | h := h
    · exact .inl (by simp [frameOf, htext, h])
    · exact .inl (by simp [frameOf, htext, h])
  | @wrongSubscription _ head sub rest _ htext h =>
    left
    cases rest with
    | nil | cons => simp [frameOf, htext, h]
  | @unknownType _ head rest _ htext heose hevent =>
    left
    cases hhead : head.asStr with
    | none => simp [frameOf, htext, hhead]
    | some type =>
      rw [hhead] at heose hevent
      have heose' : type ≠ "EOSE" := fun h => heose (by rw [h])
      have hevent' : type ≠ "EVENT" := fun h => hevent (by rw [h])
      simp [frameOf, htext, hhead, heose', hevent']

theorem step_of_strayInput (s : Session Keys PublicKey) (i : Input) (h : StrayInput c s i) :
    step c s i = (s, []) := by
  cases hi : i with
  | relayEvent event now =>
    rw [hi] at h
    cases h with
    | event _ h => exact onRelayEvent_of_strayEvent h now
  | relayText text now =>
    rw [hi] at h
    change s.onRelayText c text now = (s, [])
    unfold SessionState.onRelayText
    obtain hnone | ⟨event, hframe, hstray⟩ := frameOf_of_strayInput h
    · rw [hnone]
    · rw [hframe]
      exact onRelayEvent_of_strayEvent hstray now
  | tick | armDeadline | relayConnected => rw [hi] at h; cases h

/-- Stray inputs put in anywhere change neither the session nor its effects. -/
theorem run_with_strays (c : Crates Keys PublicKey Event) (s : Session Keys PublicKey)
    (is js : List Input) (h : Padded (step c) (StrayInput c) s is js) :
    after (step c) s js = after (step c) s is ∧ emitted (step c) s js = emitted (step c) s is :=
  run_padded step_of_strayInput h

/-- A stranger's answer and a text of another subscription, put into a handshake. -/
theorem bunker_with_strays :
    after (step bodyCrates) (bunkerSetup.start bodyCrates).1
        [.relayEvent (bodyEvent userKey 0) 1, .relayEvent (bodyEvent bunkerKey 0) 5,
          .relayText "no frame" 6, .relayEvent (bodyEvent bunkerKey 1) 9] =
      after (step bodyCrates) (bunkerSetup.start bodyCrates).1
        [.relayEvent (bodyEvent bunkerKey 0) 5, .relayEvent (bodyEvent bunkerKey 1) 9] ∧
    emitted (step bodyCrates) (bunkerSetup.start bodyCrates).1
        [.relayEvent (bodyEvent userKey 0) 1, .relayEvent (bodyEvent bunkerKey 0) 5,
          .relayText "no frame" 6, .relayEvent (bodyEvent bunkerKey 1) 9] =
      emitted (step bodyCrates) (bunkerSetup.start bodyCrates).1
        [.relayEvent (bodyEvent bunkerKey 0) 5, .relayEvent (bodyEvent bunkerKey 1) 9] := by
  apply run_with_strays
  refine .put (.event 1 (.wrongPubkey rfl ?_)) (.keep _ (.put (.notJson 6 ?_) (.keep _ (.nil _))))
  · decide +kernel
  · rfl

end Nip46Finality
