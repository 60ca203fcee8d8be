import Mathlib.Data.List.Induction
import NostrMultiPlatform.Nip46Reducer

/-!
# A signer is ready only after its handshake

Whatever the relays send, a session reports a signer at most once, and before it
stand an authenticated connect step and the answer to a request with a fresh id.
-/
namespace Nip46Handshake

open Nip46Reducer Texts Transducers
open SubsFilter (lower)

def hexValue (c : Char) : Nat :=
  if c.toNat < 58 then c.toNat - 48 else c.toNat - 87

/-- The number that a list of hexadecimal digits writes. -/
def hexNumber (cs : List Char) : Nat := cs.foldl (fun n c => 16 * n + hexValue c) 0

theorem hexValue_digitChar {d : Nat} (h : d < 16) : hexValue (Nat.digitChar d) = d := by
  have hall : ∀ d : Fin 16, hexValue (Nat.digitChar d.val) = d.val := by decide
  exact hall ⟨d, h⟩

theorem hexNumber_concat (cs : List Char) (c : Char) :
    hexNumber (cs ++ [c]) = 16 * hexNumber cs + hexValue c := by
  rw [hexNumber, List.foldl_append]
  rfl

theorem hexNumber_hexDigits (n : Nat) : hexNumber (hexDigits n) = n := by
  induction n using Nat.strongRecOn with
  | ind n ih =>
    rw [hexDigits, Nat.toDigits_eq_if (by omega)]
    split
    · rename_i hlt
      simpa [hexNumber] using hexValue_digitChar hlt
    · rename_i hge
      rw [hexNumber_concat, ← hexDigits, ih (n / 16) (by omega),
        hexValue_digitChar (Nat.mod_lt n (by omega))]
      omega

/-- Leading zeros do not change the number. -/
theorem hexNumber_replicate (k : Nat) (cs : List Char) :
    hexNumber (List.replicate k '0' ++ cs) = hexNumber cs := by
  induction k with
  | zero => rfl
  | succ k ih =>
    rw [← ih]
    rfl

theorem requestId_injective : Function.Injective requestId := by
  intro m n h
  have hlist := congrArg (fun s : String => hexNumber s.toList) h
  simpa only [requestId, String.toList_ofList, hexNumber_replicate, hexNumber_hexDigits] using hlist

/-- The ids drawn so far are those of the numbers below the counter. -/
def Numbered {Keys PublicKey : Type} (s : Session Keys PublicKey) : Prop :=
  s.requestIds = ((List.range s.reqCounter).map requestId).reverse

variable {Keys PublicKey Event : Type}

theorem Numbered.nodup {s : Session Keys PublicKey} (h : Numbered s) : s.requestIds.Nodup := by
  rw [h, List.nodup_reverse]
  exact List.nodup_range.map requestId_injective

/-- The next id was not drawn before. -/
theorem Numbered.fresh {s : Session Keys PublicKey} (h : Numbered s) :
    requestId s.reqCounter ∉ s.requestIds := by
  rw [h, List.mem_reverse, List.mem_map]
  rintro ⟨n, hn, heq⟩
  exact absurd (requestId_injective heq) (Nat.ne_of_lt (List.mem_range.mp hn))

theorem Numbered.nextReqId {s : Session Keys PublicKey} (h : Numbered s) :
    Numbered s.nextReqId := by
  rw [Numbered, SessionState.nextReqId, List.range_succ, List.map_append, List.reverse_append, ← h]
  rfl

/-- The fields that a session is made with. -/
structure Same (s s' : Session Keys PublicKey) : Prop where
  localKeys : s'.localKeys = s.localKeys
  relayUrl : s'.relayUrl = s.relayUrl
  subId : s'.subId = s.subId
  perms : s'.perms = s.perms

variable {c : Crates Keys PublicKey Event} {s s' : Session Keys PublicKey}

theorem same_of_tried (h : Session.Tried s s') : Same s s' := by
  obtain rfl | rfl | rfl | rfl := h
  all_goals exact ⟨rfl, rfl, rfl, rfl⟩

theorem phase_of_tried (h : Session.Tried s s') : s'.phase = s.phase := by
  obtain rfl | rfl | rfl | rfl := h
  all_goals rfl

theorem numbered_of_tried (h : Session.Tried s s') (hs : Numbered s) : Numbered s' := by
  obtain rfl | rfl | rfl | rfl := h
  · exact hs
  · exact hs
  · exact hs.nextReqId
  · exact hs.nextReqId

theorem armDeadline_eq (s : Session Keys PublicKey) (now : Nat) :
    s.armDeadline now = { s with deadlineAt := (s.armDeadline now).deadlineAt } := by
  unfold SessionState.armDeadline
  split <;> rfl

variable {i : Input} {out : Outcome Keys PublicKey} {localKeys : Keys} {remote : PublicKey}
  {is : List Input}

theorem same_of_stepped (h : Stepped c s i out) : Same s out.1 := by
  cases h with
  | event _ hh =>
    cases hh with
    | refused _ _ htried => exact same_of_tried htried
    | _ => exact ⟨rfl, rfl, rfl, rfl⟩
  | armed =>
    rw [armDeadline_eq]
    exact ⟨rfl, rfl, rfl, rfl⟩
  | _ => exact ⟨rfl, rfl, rfl, rfl⟩

theorem numbered_of_stepped (h : Stepped c s i out) (hs : Numbered s) : Numbered out.1 := by
  cases h with
  | event _ hh =>
    cases hh with
    | refused _ _ htried => exact numbered_of_tried htried hs
    | acked | connected => exact hs.nextReqId
    | _ => exact hs
  | armed =>
    rw [armDeadline_eq]
    exact hs
  | _ => exact hs

/-- Encryption as the two parties see it: this content holds this text between the two keys. -/
abbrev Sealing (Keys PublicKey : Type) : Type := Keys → PublicKey → String → String → Prop

/-- The event's content was encrypted between the two keys and holds this body. -/
def Tells (c : Crates Keys PublicKey Event) (isSealed : Sealing Keys PublicKey) (localKeys : Keys)
    (remote : PublicKey) (event rpc : Value) : Prop :=
  ∃ ciphertext text, event.str "content" = some ciphertext ∧
    isSealed localKeys remote ciphertext text ∧ c.parse text = some rpc

/-- A response of the remote key under this id, with a text as its result and no error. -/
def RespondsTo (c : Crates Keys PublicKey Event) (isSealed : Sealing Keys PublicKey)
    (localKeys : Keys) (remote : PublicKey) (id : String) (event : Value) (result : String) :
    Prop :=
  lower ((event.str "pubkey").getD "") = c.toHex remote ∧
    ∃ rpc, Tells c isSealed localKeys remote event rpc ∧ rpc.str "id" = some id ∧
      bunkerError c rpc = none ∧ rpc.str "result" = some result

/-- A `connect` request of the remote key that carries the secret. -/
def Requests (c : Crates Keys PublicKey Event) (isSealed : Sealing Keys PublicKey)
    (localKeys : Keys) (remote : PublicKey) (secret : String) (event : Value) : Prop :=
  author c event = some remote ∧
    ∃ rpc id params, Tells c isSealed localKeys remote event rpc ∧
      rpc.str "method" = some "connect" ∧ rpc.str "id" = some id ∧
      rpc.get "params" = some (.array params) ∧ receivedSecret params = secret

variable {isSealed : Sealing Keys PublicKey}

theorem tells_of_openContent
    (hsealed : ∀ localKeys remote ciphertext text, c.decrypt localKeys remote ciphertext = .ok text → isSealed localKeys remote ciphertext text)
    {event rpc : Value} (h : openContent c localKeys remote event = some rpc) :
    Tells c isSealed localKeys remote event rpc := by
  unfold openContent at h
  obtain ⟨ciphertext, hcontent, hopen⟩ := Option.bind_eq_some_iff.mp h
  cases hdec : c.decrypt localKeys remote ciphertext with
  | error => simp [hdec, Except.toOption] at hopen
  | ok text =>
    rw [hdec] at hopen
    exact ⟨ciphertext, text, hcontent, hsealed _ _ _ _ hdec, hopen⟩

theorem response_eq_some {id : String} {event rpc : Value}
    (h : response c localKeys remote id event = some rpc) :
    lower ((event.str "pubkey").getD "") = c.toHex remote ∧
      openContent c localKeys remote event = some rpc ∧ rpc.str "id" = some id := by
  unfold response at h
  split at h
  · cases h
  · rename_i hauthor
    obtain ⟨hopen, hid⟩ := Option.filter_eq_some_iff.mp h
    exact ⟨not_not.mp hauthor, hopen, by simpa using hid⟩

section

variable
  (hsealed : ∀ localKeys remote ciphertext text, c.decrypt localKeys remote ciphertext = .ok text → isSealed localKeys remote ciphertext text)
include hsealed

theorem respondsTo_of_grants {id result : String} {event : Value}
    (h : Grants c localKeys remote id event result) :
    RespondsTo c isSealed localKeys remote id event result := by
  obtain ⟨rpc, hresp, herr, hresult⟩ := h
  obtain ⟨hauthor, hopen, hid⟩ := response_eq_some hresp
  exact ⟨hauthor, rpc, tells_of_openContent hsealed hopen, hid, herr, hresult⟩

theorem requests_of_ncRequest {signer : PublicKey} {id : String} {params : List Value}
    {event : Value} (h : ncRequest c localKeys event = some (signer, id, params)) :
    Requests c isSealed localKeys signer (receivedSecret params) event := by
  unfold ncRequest at h
  obtain ⟨signer', hauthor, h⟩ := Option.bind_eq_some_iff.mp h
  obtain ⟨rpc, hopen, h⟩ := Option.bind_eq_some_iff.mp h
  obtain ⟨request, hconnect, heq⟩ := Option.map_eq_some_iff.mp h
  cases heq
  unfold connectRequest at hconnect
  split at hconnect
  · cases hconnect
  · rename_i hmethod
    obtain ⟨id', hid, hconnect⟩ := Option.bind_eq_some_iff.mp hconnect
    obtain ⟨params', hparams, heq⟩ := Option.map_eq_some_iff.mp hconnect
    cases heq
    obtain ⟨value, hget, harray⟩ := Option.bind_eq_some_iff.mp hparams
    cases value with
    | array =>
      cases harray
      exact ⟨hauthor, rpc, _, _, tells_of_openContent hsealed hopen, not_not.mp hmethod, hid, hget,
        rfl⟩
    | _ => cases harray

end

inductive Flow (PublicKey : Type) where
  | bunker (remotePubkey : PublicKey) (secret : Option String)
  | nostrconnect (expectedSecret name : String)

/-- What a session is started with. -/
structure Setup (Keys PublicKey : Type) where
  flow : Flow PublicKey
  subId : String
  localKeys : Keys
  relayUrl : String
  perms : Option String
  now : Nat

def Setup.start (c : Crates Keys PublicKey Event) (setup : Setup Keys PublicKey) :
    Outcome Keys PublicKey :=
  match setup.flow with
  | .bunker remotePubkey secret =>
    startBunker c setup.subId setup.localKeys remotePubkey setup.relayUrl secret setup.perms
      setup.now
  | .nostrconnect expectedSecret name =>
    (startNostrconnect c setup.subId setup.localKeys setup.relayUrl expectedSecret setup.perms name
      setup.now).2

/-- The authenticated connect step of the flow. -/
def Flow.Connects (c : Crates Keys PublicKey Event) (isSealed : Sealing Keys PublicKey)
    (localKeys : Keys) (event : Value) (remote : PublicKey) : Flow PublicKey → Prop
  | .bunker remotePubkey _ =>
    remote = remotePubkey ∧
      ∃ result, RespondsTo c isSealed localKeys remote (requestId 0) event result
  | .nostrconnect expectedSecret _ => Requests c isSealed localKeys remote expectedSecret event

/-- The session after the inputs. -/
def Setup.reach (c : Crates Keys PublicKey Event) (setup : Setup Keys PublicKey)
    (is : List Input) : Session Keys PublicKey :=
  after (step c) (setup.start c).1 is

/-- All effects, the first ones included. -/
def Setup.effects (c : Crates Keys PublicKey Event) (setup : Setup Keys PublicKey)
    (is : List Input) : List Effect :=
  (setup.start c).2 ++ emitted (step c) (setup.start c).1 is

/-- The input after `is` is an authenticated connect step, and the session answers it with a
`get_public_key` request to this key under an id drawn for it. -/
def Asks (c : Crates Keys PublicKey Event) (isSealed : Sealing Keys PublicKey)
    (setup : Setup Keys PublicKey) (is : List Input) (i : Input) (remote : PublicKey)
    (gpkId : String) : Prop :=
  ∃ event now draw frame,
    i.carried c setup.subId = some (event, now) ∧
    setup.flow.Connects c isSealed setup.localKeys event remote ∧
    gpkId ∉ (setup.reach c is).requestIds ∧
    buildEventFrameAt c draw setup.localKeys remote (gpkEnvelope c gpkId) now = .ok frame ∧
    .sendFrame setup.relayUrl frame ∈ (step c (setup.reach c is) i).2

/-- The input is the answer to the request, and the signer is the one it names. -/
def Answers (c : Crates Keys PublicKey Event) (isSealed : Sealing Keys PublicKey)
    (setup : Setup Keys PublicKey) (i : Input) (remote : PublicKey) (gpkId : String)
    (ready : SignerReady) : Prop :=
  ∃ event now result,
    i.carried c setup.subId = some (event, now) ∧
    RespondsTo c isSealed setup.localKeys remote gpkId event result ∧
    isHexKey (lower (trim result)) = true ∧
    ready = ⟨lower (trim result), c.toHex remote, setup.perms⟩

/-- One of the inputs was the connect step, and it asked for this id. -/
def Asked (c : Crates Keys PublicKey Event) (isSealed : Sealing Keys PublicKey)
    (setup : Setup Keys PublicKey) (is : List Input) (remote : PublicKey) (gpkId : String) : Prop :=
  ∃ p j q, is = p ++ j :: q ∧ Asks c isSealed setup p j remote gpkId

variable {setup : Setup Keys PublicKey}

theorem Asked.concat {gpkId : String} (h : Asked c isSealed setup is remote gpkId) (i : Input) :
    Asked c isSealed setup (is ++ [i]) remote gpkId := by
  obtain ⟨p, j, q, rfl, hasks⟩ := h
  exact ⟨p, j, q ++ [i], by rw [List.append_assoc, List.cons_append], hasks⟩

theorem reach_concat (is : List Input) (i : Input) :
    setup.reach c (is ++ [i]) = (step c (setup.reach c is) i).1 := by
  rw [Setup.reach, after_append]
  rfl

/-- A session keeps what it was made with. -/
structure MadeWith (setup : Setup Keys PublicKey) (s : Session Keys PublicKey) : Prop where
  localKeys : s.localKeys = setup.localKeys
  relayUrl : s.relayUrl = setup.relayUrl
  subId : s.subId = setup.subId
  perms : s.perms = setup.perms
  numbered : Numbered s

theorem madeWith_start : MadeWith setup (setup.start c).1 := by
  unfold Setup.start
  cases setup.flow with
  | bunker | nostrconnect => exact ⟨rfl, rfl, rfl, rfl, rfl⟩

theorem MadeWith.step (h : MadeWith setup s) (i : Input) : MadeWith setup (step c s i).1 := by
  have hstep := stepped (c := c) (s := s) i
  have hsame := same_of_stepped hstep
  exact ⟨hsame.localKeys.trans h.localKeys, hsame.relayUrl.trans h.relayUrl,
    hsame.subId.trans h.subId, hsame.perms.trans h.perms, numbered_of_stepped hstep h.numbered⟩

theorem madeWith_reach (is : List Input) : MadeWith setup (setup.reach c is) := by
  induction is using List.reverseRecOn with
  | nil => exact madeWith_start
  | append_singleton _ i ih =>
    rw [reach_concat]
    exact ih.step i

theorem flow_of_bunker {connectId : String}
    (h : (setup.start c).1.phase = .bunkerWaitConnectAck connectId remote) :
    ∃ secret, setup.flow = .bunker remote secret ∧ connectId = requestId 0 := by
  unfold Setup.start at h
  cases hflow : setup.flow with
  | bunker _ secret =>
    rw [hflow] at h
    cases h
    exact ⟨secret, rfl, rfl⟩
  | nostrconnect =>
    rw [hflow] at h
    cases h

theorem flow_of_nostrconnect {secret : String}
    (h : (setup.start c).1.phase = .nostrConnectWaitConnect secret) :
    ∃ name, setup.flow = .nostrconnect secret name := by
  unfold Setup.start at h
  cases hflow : setup.flow with
  | bunker =>
    rw [hflow] at h
    cases h
  | nostrconnect _ name =>
    rw [hflow] at h
    cases h
    exact ⟨name, rfl⟩

theorem start_not_waitGpk {gpkId : String} : (setup.start c).1.phase ≠ .waitGpk gpkId remote := by
  unfold Setup.start
  cases setup.flow with
  | bunker | nostrconnect => exact nofun

/-- How far a session is: in its first phase, waiting for the answer it asked for, or done. -/
inductive Progress (c : Crates Keys PublicKey Event) (isSealed : Sealing Keys PublicKey)
    (setup : Setup Keys PublicKey) (is : List Input) (phase : Phase PublicKey) : Prop
  | first (h : phase = (setup.start c).1.phase)
  | waiting {gpkId : String} {remote : PublicKey} (h : phase = .waitGpk gpkId remote)
    (hasked : Asked c isSealed setup is remote gpkId)
  | ended (h : phase = .done)

theorem Progress.concat {phase : Phase PublicKey} (h : Progress c isSealed setup is phase)
    (i : Input) : Progress c isSealed setup (is ++ [i]) phase := by
  cases h with
  | first h => exact .first h
  | waiting h hasked => exact .waiting h (hasked.concat i)
  | ended h => exact .ended h

section

variable
  (hsealed : ∀ localKeys remote ciphertext text, c.decrypt localKeys remote ciphertext = .ok text → isSealed localKeys remote ciphertext text)
include hsealed

theorem progress_step (h : Progress c isSealed setup is (setup.reach c is).phase) (i : Input) :
    Progress c isSealed setup (is ++ [i]) (setup.reach c (is ++ [i])).phase := by
  have hmade : MadeWith setup (setup.reach c is) := madeWith_reach is
  have hstep : Stepped c (setup.reach c is) i (step c (setup.reach c is) i) := stepped i
  rw [reach_concat]
  have hasks {remote : PublicKey}
      (hnow : Asks c isSealed setup is i remote (requestId (setup.reach c is).reqCounter)) :
      Asked c isSealed setup (is ++ [i]) remote (requestId (setup.reach c is).reqCounter) :=
    ⟨is, i, [], rfl, hnow⟩
  unfold Asks at hasks
  generalize hout : step c (setup.reach c is) i = out at hstep hasks ⊢
  cases hstep with
  | event hcarried hh =>
    rw [hmade.subId] at hcarried
    cases hh with
    | stray => exact h.concat i
    | refused _ _ htried =>
      rw [phase_of_tried htried]
      exact h.concat i
    | acked _ _ hphase hgrants hframe =>
      have hresponds := respondsTo_of_grants hsealed hgrants
      rw [SessionState.gpkFrame, hmade.localKeys] at hframe
      rw [hmade.localKeys] at hresponds
      cases h with
      | first hfirst =>
        obtain ⟨secret, hflow, hid⟩ := flow_of_bunker (hfirst.symm.trans hphase)
        refine .waiting rfl (hasks ⟨_, _, _, _, hcarried, ?_, hmade.numbered.fresh, hframe, ?_⟩)
        · rw [hflow]
          exact ⟨rfl, _, hid ▸ hresponds⟩
        · rw [hmade.relayUrl]
          simp
      | waiting hwaiting => rw [hwaiting] at hphase; cases hphase
      | ended hended => rw [hended] at hphase; cases hphase
    | connected _ _ hphase hrequest hsecret hframe =>
      have hrequests := requests_of_ncRequest hsealed hrequest
      rw [hmade.localKeys, hsecret] at hrequests
      rw [SessionState.gpkFrame] at hframe
      cases h with
      | first hfirst =>
        obtain ⟨name, hflow⟩ := flow_of_nostrconnect (hfirst.symm.trans hphase)
        refine .waiting rfl (hasks ⟨_, _, _, _, hcarried, ?_, hmade.numbered.fresh,
          hmade.localKeys ▸ hframe, ?_⟩)
        · rw [hflow]
          exact hrequests
        · rw [hmade.relayUrl]
          simp
      | waiting hwaiting => rw [hwaiting] at hphase; cases hphase
      | ended hended => rw [hended] at hphase; cases hphase
    | ready => exact .ended rfl
  | armed =>
    rw [armDeadline_eq]
    exact h.concat i
  | expired | quiet | subscribed => exact h.concat i

theorem progress_reach (is : List Input) :
    Progress c isSealed setup is (setup.reach c is).phase := by
  induction is using List.reverseRecOn with
  | nil => exact .first rfl
  | append_singleton _ i ih => exact progress_step hsealed ih i

/-- A signer is reported only by the answer to the request that the connect step led to. -/
theorem ready_after_asked {ready : SignerReady}
    (h : .signerReady ready ∈ (step c (setup.reach c is) i).2) :
    ∃ remote gpkId, Asked c isSealed setup is remote gpkId ∧
      Answers c isSealed setup i remote gpkId ready := by
  have hmade : MadeWith setup (setup.reach c is) := madeWith_reach is
  have hprogress : Progress c isSealed setup is (setup.reach c is).phase :=
    progress_reach hsealed is
  have hstep : Stepped c (setup.reach c is) i (step c (setup.reach c is) i) := stepped i
  generalize step c (setup.reach c is) i = out at hstep h
  cases hstep with
  | event hcarried hh =>
    rw [hmade.subId] at hcarried
    cases hh with
    | @ready gpkId result remote hphase hgrants hkey =>
      have hresponds := respondsTo_of_grants hsealed hgrants
      rw [hmade.localKeys] at hresponds
      have hready := Effect.signerReady.inj (List.mem_singleton.mp h)
      rw [hphase] at hprogress
      cases hprogress with
      | first hfirst => exact absurd hfirst.symm start_not_waitGpk
      | waiting hwaiting hasked =>
        obtain ⟨rfl, rfl⟩ := Phase.waitGpk.inj hwaiting
        rw [hmade.perms] at hready
        exact ⟨_, _, hasked, _, _, _, hcarried, hresponds, hkey, hready⟩
      | ended hended => cases hended
    | _ => simp at h
  | _ => simp at h

end

def IsReady (e : Effect) : Prop := ∃ ready, e = .signerReady ready

instance : DecidablePred IsReady := fun e =>
  match e with
  | .signerReady ready => .isTrue ⟨ready, rfl⟩
  | .subscribe _ _ | .sendFrame _ _ | .progress _ _ _ | .deliverResponse _ _ | .error _ =>
    .isFalse nofun

theorem effects_concat (is : List Input) (i : Input) :
    setup.effects c (is ++ [i]) = setup.effects c is ++ (step c (setup.reach c is) i).2 := by
  rw [Setup.effects, emitted_append, ← List.append_assoc, emitted_cons, emitted_nil,
    List.append_nil]
  rfl

/-- A session that is done stays done, and reports nothing. -/
theorem stepped_done (h : Stepped c s i out) (hs : s.phase = .done) :
    out.1.phase = .done ∧ ∀ e ∈ out.2, ∃ url frame, e = .subscribe url frame := by
  cases h with
  | event _ hh =>
    cases hh with
    | stray => exact ⟨hs, by simp⟩
    | refused _ hawaits => exact absurd hawaits (by rw [Session.Awaits, hs]; exact id)
    | acked _ _ hphase => rw [hs] at hphase; cases hphase
    | connected _ _ hphase => rw [hs] at hphase; cases hphase
    | ready hphase => rw [hs] at hphase; cases hphase
  | expired _ _ hexpired => exact absurd hs hexpired.1
  | armed =>
    rw [armDeadline_eq]
    exact ⟨hs, by simp⟩
  | quiet => exact ⟨hs, by simp⟩
  | subscribed url frame =>
    refine ⟨hs, fun e he => ⟨url, frame, List.mem_singleton.mp he⟩⟩

theorem ready_of_stepped (h : Stepped c s i out) :
    EndsOnce IsReady IsReady out.2 ∧ ((∃ e ∈ out.2, IsReady e) → out.1.phase = .done) := by
  cases h with
  | event _ hh =>
    cases hh with
    | ready => exact ⟨List.pairwise_singleton _ _, fun _ => rfl⟩
    | _ => simp [EndsOnce, IsReady]
  | _ => simp [EndsOnce, IsReady]

theorem ready_once (is : List Input) :
    EndsOnce IsReady IsReady (setup.effects c is) ∧
      ((∃ e ∈ setup.effects c is, IsReady e) → (setup.reach c is).phase = .done) := by
  induction is using List.reverseRecOn with
  | nil =>
    rw [Setup.effects, emitted_nil, List.append_nil, Setup.reach, after_nil, Setup.start]
    cases setup.flow with
    | bunker =>
      dsimp only [startBunker]
      split <;> simp [EndsOnce, IsReady]
    | nostrconnect => simp [startNostrconnect, EndsOnce, IsReady]
  | append_singleton is i ih =>
    have hstep : Stepped c (setup.reach c is) i (step c (setup.reach c is) i) := stepped i
    rw [effects_concat, reach_concat, endsOnce_append]
    have hnow := ready_of_stepped hstep
    refine ⟨⟨ih.1, hnow.1, fun hlog e he hready => ?_⟩, fun hsome => ?_⟩
    · obtain ⟨url, frame, rfl⟩ := (stepped_done hstep (ih.2 hlog)).2 e he
      obtain ⟨ready, heq⟩ := hready
      cases heq
    · obtain ⟨e, he, hready⟩ := hsome
      obtain hold | hnew := List.mem_append.mp he
      · exact (stepped_done hstep (ih.2 ⟨e, hold, hready⟩)).1
      · exact hnow.2 ⟨e, hnew, hready⟩

/-- Whatever is received, a signer is reported at most once, the ids drawn are pairwise different,
and before the signer stand the authenticated connect step and the answer to its request. -/
theorem signerReady_authenticated (c : Crates Keys PublicKey Event)
    (isSealed : Sealing Keys PublicKey)
    (hsealed : ∀ localKeys remote ciphertext text,
      c.decrypt localKeys remote ciphertext = .ok text →
        isSealed localKeys remote ciphertext text)
    (setup : Setup Keys PublicKey) (is : List Input) :
    (setup.effects c is).countP (fun e => IsReady e) ≤ 1 ∧
      (setup.reach c is).requestIds.Nodup ∧
      ∀ a i b ready, is = a ++ i :: b → .signerReady ready ∈ (step c (setup.reach c a) i).2 →
        ∃ p j q remote gpkId, a = p ++ j :: q ∧ Asks c isSealed setup p j remote gpkId ∧
          Answers c isSealed setup i remote gpkId ready := by
  refine ⟨(ready_once is).1.count_le_one fun _ h => h, (madeWith_reach is).numbered.nodup, ?_⟩
  intro a i b ready _ hready
  obtain ⟨remote, gpkId, ⟨p, j, q, hsplit, hasks⟩, hanswers⟩ := ready_after_asked hsealed hready
  exact ⟨p, j, q, remote, gpkId, hsplit, hasks, hanswers⟩

def localKey : String := "client"
def bunkerKey : String := String.ofList (List.replicate 64 'b')
def userKey : String := String.ofList (List.replicate 64 'a')

/-- A body as a text, with the value it is parsed to. -/
def bodies : List (String × Value) :=
  [("\x7b\"id\":\"00000000000\",\"result\":\"ack\"\x7d",
      .object [("id", .string "00000000000"), ("result", .string "ack")]),
    ("\x7b\"id\":\"00000000001\",\"result\":\"" ++ userKey ++ "\"\x7d",
      .object [("id", .string "00000000001"), ("result", .string userKey)]),
    ("\x7b\"id\":\"0000000000f\",\"result\":\"ack\"\x7d",
      .object [("id", .string "0000000000f"), ("result", .string "ack")])]

/-- A content names both its keys in front of its text. -/
def sealText (localKey remote text : String) : String := localKey ++ "/" ++ remote ++ "/" ++ text

/-- Decryption and parsing know the bodies above; everything else fails. -/
def bodyCrates : Crates String String String where
  publicKey := id
  toHex := id
  fromHex := some
  encrypt _ localKey remote text := .ok (sealText localKey remote text)
  decrypt localKey remote ciphertext :=
    match bodies.find? fun body => ciphertext = sealText localKey remote body.1 with
    | some body => .ok body.1
    | none => .error "invalid payload"
  parseTag tag := .ok tag
  sign _ _ _ content _ _ := .ok content
  serialize event := .ok event
  parse text := bodies.lookup text
  render _ := "[]"
  printable _ := true

theorem sealText_of_decrypt (localKey remote ciphertext text : String)
    (h : bodyCrates.decrypt localKey remote ciphertext = .ok text) :
    ciphertext = sealText localKey remote text := by
  unfold bodyCrates at h
  dsimp only at h
  split at h
  · rename_i body hfind
    cases h
    simpa using List.find?_some hfind
  · cases h

/-- An event of this author whose content holds the numbered body. -/
def bodyEvent (author : String) (n : Nat) : Value :=
  .object [("pubkey", .string author),
    ("content", .string (sealText localKey author ((bodies.map Prod.fst)[n]?.getD "")))]

def bunkerSetup : Setup String String :=
  ⟨.bunker bunkerKey none, "nmp-bunker", localKey, "wss://relay.example.com", none, 0⟩

theorem bunker_ready : .signerReady ⟨userKey, bunkerKey, none⟩ ∈
    (step bodyCrates (bunkerSetup.reach bodyCrates [.relayEvent (bodyEvent bunkerKey 0) 5])
      (.relayEvent (bodyEvent bunkerKey 1) 9)).2 := by
  decide +kernel

theorem bunker_authenticated :
    .signerReady ⟨userKey, bunkerKey, none⟩ ∈
        (step bodyCrates (bunkerSetup.reach bodyCrates [.relayEvent (bodyEvent bunkerKey 0) 5])
          (.relayEvent (bodyEvent bunkerKey 1) 9)).2 ∧
      ∃ p j q remote gpkId, [.relayEvent (bodyEvent bunkerKey 0) 5] = p ++ j :: q ∧
        Asks bodyCrates (fun localKey remote ciphertext text =>
          ciphertext = sealText localKey remote text) bunkerSetup p j remote gpkId ∧
        Answers bodyCrates (fun localKey remote ciphertext text =>
          ciphertext = sealText localKey remote text) bunkerSetup
          (.relayEvent (bodyEvent bunkerKey 1) 9) remote gpkId ⟨userKey, bunkerKey, none⟩ := by
  exact ⟨bunker_ready, (signerReady_authenticated bodyCrates _ sealText_of_decrypt bunkerSetup
    [.relayEvent (bodyEvent bunkerKey 0) 5, .relayEvent (bodyEvent bunkerKey 1) 9]).2.2 _ _ [] _
    rfl bunker_ready⟩

end Nip46Handshake
