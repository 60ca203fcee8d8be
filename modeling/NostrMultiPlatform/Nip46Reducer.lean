import NostrMultiPlatform.SubsFilter
import NostrMultiPlatform.Texts
import NostrMultiPlatform.Transducers
import NostrMultiPlatform.WalletProof

/-!
# The handshake of a remote signer

A session walks from its first phase over `WaitGpk` to `Done`. Every entry point
takes the state and an input and returns the next state with a list of effects;
clock, cryptography and JSON text come from outside.
-/
namespace Nip46Reducer

open SubsFilter (lower isHexDigit)
open Texts

/-- A parsed value; a number keeps its text. -/
inductive Value where
  | null
  | bool (b : Bool)
  | number (text : String)
  | string (s : String)
  | array (items : List Value)
  | object (rows : List (String × Value))

def Value.get (key : String) : Value → Option Value
  | .object rows => rows.lookup key
  | _ => none

def Value.asStr : Value → Option String
  | .string s => some s
  | _ => none

def Value.asArray : Value → Option (List Value)
  | .array items => some items
  | _ => none

@[simp] theorem Value.asStr_string (s : String) : (Value.string s).asStr = some s := rfl

@[simp] theorem Value.asArray_array (items : List Value) :
    (Value.array items).asArray = some items := rfl

def Value.isNull : Value → Bool
  | .null => true
  | _ => false

def Value.str (v : Value) (key : String) : Option String := (v.get key).bind Value.asStr

/-- What is used of the nostr and serde_json crates and of the Unicode tables. The random bytes of
an encryption and of a signature are those of the frame's number. -/
structure Crates (Keys PublicKey Event : Type) where
  publicKey : Keys → PublicKey
  toHex : PublicKey → String
  fromHex : String → Option PublicKey
  encrypt : Nat → Keys → PublicKey → String → Except String String
  decrypt : Keys → PublicKey → String → Except String String
  parseTag : List String → Except String (List String)
  sign : Nat → Keys → Nat → String → List (List String) → Nat → Except String Event
  serialize : Event → Except String String
  parse : String → Option Value
  render : Value → String
  printable : Char → Bool

variable {Keys PublicKey Event : Type}

/-- `{:011x}`. -/
def requestId (n : Nat) : String :=
  String.ofList (List.replicate (11 - (hexDigits n).length) '0' ++ hexDigits n)

def trim (s : String) : String := String.ofList (WalletProof.trimChars s.toList)

/-- Sixty-four bytes, all of them hexadecimal digits. -/
def isHexKey (s : String) : Bool := s.utf8ByteSize = 64 && s.toList.all isHexDigit

def unreserved (b : UInt8) : Bool :=
  let c := Char.ofNat b.toNat
  c.isAlphanum || c == '-' || c == '_' || c == '.' || c == '~'

def upperHex (n : Nat) : Char := (Nat.digitChar n).toUpper

def percentEncodeQueryValue (value : String) : String :=
  String.ofList (value.toUTF8.toList.flatMap fun b =>
    if unreserved b then [Char.ofNat b.toNat]
    else ['%', upperHex (b.toNat / 16), upperHex (b.toNat % 16)])

inductive RpcBuildError where
  | encrypt (s : String) | tagParse (s : String) | sign (s : String) | serialize (s : String)
  deriving DecidableEq, Repr

def RpcBuildError.display : RpcBuildError → String
  | .encrypt s => "nip44 encrypt: " ++ s
  | .tagParse s => "tag parse: " ++ s
  | .sign s => "sign event: " ++ s
  | .serialize s => "serialize event: " ++ s

def mapAckBuildError : RpcBuildError → String
  | .encrypt s => "nip44 encrypt ack: " ++ s
  | .tagParse s => "tag parse: " ++ s
  | .sign s => "sign ack event: " ++ s
  | .serialize s => "serialize ack: " ++ s

inductive HandshakeError where
  | cancelled
  | timeout (s : String)
  | bunkerError (s : String)
  | protocol (s : String)
  | transport (s : String)
  deriving DecidableEq, Repr

structure SignerReady where
  userPubkeyHex : String
  remoteSignerPubkeyHex : String
  grantedPerms : Option String
  deriving DecidableEq, Repr

inductive Effect where
  | subscribe (relayUrl frame : String)
  | sendFrame (relayUrl text : String)
  | progress (stage : String) (code detail : Option String)
  | signerReady (ready : SignerReady)
  | deliverResponse (correlationId result : String)
  | error (error : HandshakeError)
  deriving DecidableEq, Repr

def sendingConnectToBunker : String := "signer_progress_sending_connect_to_bunker"
def awaitingBunkerApproval : String := "signer_progress_awaiting_bunker_approval"
def nostrconnectScanQr : String := "signer_progress_nostrconnect_scan_qr"
def nostrconnectAwaitingConfirmation : String :=
  "signer_progress_nostrconnect_awaiting_confirmation"

/-- An error of one stage under the name of that stage. -/
def stage {α : Type} (wrap : String → RpcBuildError) : Except String α → Except RpcBuildError α
  | .ok a => .ok a
  | .error s => .error (wrap s)

def buildEventFrameAt (c : Crates Keys PublicKey Event) (draw : Nat) (localKeys : Keys)
    (remote : PublicKey) (plaintext : String) (createdAt : Nat) : Except RpcBuildError String := do
  let ciphertext ← stage .encrypt (c.encrypt draw localKeys remote plaintext)
  let tag ← stage .tagParse (c.parseTag ["p", c.toHex remote])
  let event ← stage .sign (c.sign draw localKeys 24133 ciphertext [tag] createdAt)
  let serialized ← stage .serialize (c.serialize event)
  return "[\"EVENT\"," ++ serialized ++ "]"

/-- The rows stand in the order of their keys. -/
def buildReqFrame (c : Crates Keys PublicKey Event) (subId localPubkeyHex : String) (now : Nat) :
    String :=
  c.render (.array [.string "REQ", .string subId,
    .object [("#p", .array [.string localPubkeyHex]), ("kinds", .array [.number "24133"]),
      ("since", .number (toString (now - 30)))]])

def buildConnectParams (c : Crates Keys PublicKey Event) (remote : PublicKey)
    (secret perms : Option String) : Value :=
  .array [.string (c.toHex remote), .string (secret.getD ""), .string (perms.getD "")]

def envelope (c : Crates Keys PublicKey Event) (id method : String) (params : Value) : String :=
  c.render (.object [("id", .string id), ("method", .string method), ("params", params)])

def gpkEnvelope (c : Crates Keys PublicKey Event) (id : String) : String :=
  envelope c id "get_public_key" (.array [])

def ackBody (c : Crates Keys PublicKey Event) (id : String) : String :=
  c.render (.object [("id", .string id), ("result", .string "ack")])

inductive Phase (PublicKey : Type) where
  | bunkerWaitConnectAck (connectId : String) (remotePubkey : PublicKey)
  | waitGpk (gpkId : String) (remotePubkey : PublicKey)
  | nostrConnectWaitConnect (expectedSecret : String)
  | done
  deriving DecidableEq

/-- The last two fields are history: how many frames were built, and every request id drawn, the
newest first. -/
structure SessionState (Keys PublicKey : Type) where
  phase : Phase PublicKey
  localKeys : Keys
  relayUrl : String
  subId : String
  perms : Option String
  reqCounter : Nat
  deadlineAt : Nat
  framesBuilt : Nat
  requestIds : List String

def stepTimeoutSecs : Nat := 60

abbrev Session (Keys PublicKey : Type) : Type := SessionState Keys PublicKey

def SessionState.armDeadline (s : Session Keys PublicKey) (now : Nat) : Session Keys PublicKey :=
  match s.phase with
  | .done => s
  | _ => { s with deadlineAt := now + stepTimeoutSecs }

/-- The state after `next_req_id`, which returns the id of the old counter. -/
def SessionState.nextReqId (s : Session Keys PublicKey) : Session Keys PublicKey :=
  { s with
    reqCounter := s.reqCounter + 1
    requestIds := requestId s.reqCounter :: s.requestIds }

/-- A frame was built, or its building was tried. -/
def SessionState.built (s : Session Keys PublicKey) : Session Keys PublicKey :=
  { s with framesBuilt := s.framesBuilt + 1 }

def SessionState.phaseLabel (s : Session Keys PublicKey) : String :=
  match s.phase with
  | .bunkerWaitConnectAck _ _ => "connect"
  | .waitGpk _ _ => "get_public_key"
  | .nostrConnectWaitConnect _ => "connect frame from signer"
  | .done => "done"

abbrev Outcome (Keys PublicKey : Type) : Type := Session Keys PublicKey × List Effect

def SessionState.tick (s : Session Keys PublicKey) (now : Nat) : Outcome Keys PublicKey :=
  if now < s.deadlineAt then (s, [])
  else
    match s.phase with
    | .done => (s, [])
    | _ => (s, [.error (.timeout ("no response to " ++ s.phaseLabel ++ " within 60s"))])

/-- The decrypted and parsed body, where the content opens for this key. -/
def openContent (c : Crates Keys PublicKey Event) (localKeys : Keys) (remote : PublicKey)
    (event : Value) : Option Value :=
  (event.str "content").bind fun ciphertext =>
    (c.decrypt localKeys remote ciphertext).toOption.bind c.parse

/-- The body of a response with this id from this key; anything else is stray. -/
def response (c : Crates Keys PublicKey Event) (localKeys : Keys) (remote : PublicKey)
    (id : String) (event : Value) : Option Value :=
  if lower ((event.str "pubkey").getD "") ≠ c.toHex remote then none
  else
    (openContent c localKeys remote event).filter fun rpc => rpc.str "id" = some id

def bunkerError (c : Crates Keys PublicKey Event) (rpc : Value) : Option HandshakeError :=
  (rpc.get "error").bind fun err =>
    if err.isNull then none else some (.bunkerError (err.asStr.getD (c.render err)))

/-- Both flows leave for `WaitGpk` under the id drawn last. -/
def SessionState.awaitGpk (s : Session Keys PublicKey) (gpkId : String) (remote : PublicKey)
    (now : Nat) : Session Keys PublicKey :=
  { s with
    deadlineAt := now + stepTimeoutSecs
    phase := .waitGpk gpkId remote }

/-- Building the `get_public_key` frame of the next id. -/
def SessionState.gpkFrame (c : Crates Keys PublicKey Event) (s : Session Keys PublicKey)
    (remote : PublicKey) (now : Nat) : Except RpcBuildError String :=
  buildEventFrameAt c s.framesBuilt s.localKeys remote (gpkEnvelope c (requestId s.reqCounter)) now

def SessionState.handleBunkerConnectAck (c : Crates Keys PublicKey Event)
    (s : Session Keys PublicKey) (connectId : String) (remote : PublicKey) (event : Value)
    (now : Nat) : Outcome Keys PublicKey :=
  match response c s.localKeys remote connectId event with
  | none => (s, [])
  | some rpc =>
    match bunkerError c rpc with
    | some error => (s, [.error error])
    | none =>
      match rpc.str "result" with
      | none => (s, [.error (.protocol "connect response missing string result")])
      | some _ =>
        match s.gpkFrame c remote now with
        | .ok frame =>
          (s.nextReqId.built.awaitGpk (requestId s.reqCounter) remote now,
            [.progress "awaiting_pubkey" (some awaitingBunkerApproval)
                (some "Awaiting bunker approval"),
              .sendFrame s.relayUrl frame])
        | .error e => (s.nextReqId.built, [.error (.protocol e.display)])

def SessionState.handleGpkResponse (c : Crates Keys PublicKey Event) (s : Session Keys PublicKey)
    (gpkId : String) (remote : PublicKey) (event : Value) : Outcome Keys PublicKey :=
  match response c s.localKeys remote gpkId event with
  | none => (s, [])
  | some rpc =>
    match bunkerError c rpc with
    | some error => (s, [.error error])
    | none =>
      match rpc.str "result" with
      | none => (s, [.error (.protocol "get_public_key response missing string result")])
      | some result =>
        if isHexKey (lower (trim result)) then
          ({ s with phase := .done },
            [.signerReady ⟨lower (trim result), c.toHex remote, s.perms⟩])
        else
          (s, [.error (.protocol
            ("get_public_key returned non-hex: " ++ debugStr c.printable (trim result)))])

/-- The key that an event names as its author. -/
def author (c : Crates Keys PublicKey Event) (event : Value) : Option PublicKey :=
  (event.str "pubkey").bind fun pk =>
    if isHexKey (lower pk) then c.fromHex (lower pk) else none

/-- The id and the parameters of a `connect` request; anything else is stray. -/
def connectRequest (rpc : Value) : Option (String × List Value) :=
  if rpc.str "method" ≠ some "connect" then none
  else
    (rpc.str "id").bind fun id =>
      ((rpc.get "params").bind Value.asArray).map fun params => (id, params)

/-- The signer with the id and the parameters of its `connect` request. -/
def ncRequest (c : Crates Keys PublicKey Event) (localKeys : Keys) (event : Value) :
    Option (PublicKey × String × List Value) :=
  (author c event).bind fun signer =>
    (openContent c localKeys signer event).bind fun rpc =>
      (connectRequest rpc).map fun request => (signer, request)

/-- A secret that is absent or no string is read as the empty one. -/
def receivedSecret (params : List Value) : String := ((params[1]?).bind Value.asStr).getD ""

def secretMismatch (c : Crates Keys PublicKey Event) (expected received : String) : String :=
  "secret mismatch: expected " ++ debugStr c.printable expected ++ ", got " ++
    debugStr c.printable received

def SessionState.handleNcConnect (c : Crates Keys PublicKey Event) (s : Session Keys PublicKey)
    (expectedSecret : String) (event : Value) (now : Nat) : Outcome Keys PublicKey :=
  match ncRequest c s.localKeys event with
  | none => (s, [])
  | some (signer, connectId, params) =>
    if receivedSecret params ≠ expectedSecret then
      (s, [.error (.bunkerError (secretMismatch c expectedSecret (receivedSecret params)))])
    else
      match buildEventFrameAt c s.framesBuilt s.localKeys signer (ackBody c connectId) now with
      | .error e => (s.built, [.error (.protocol (mapAckBuildError e))])
      | .ok ackFrame =>
        match s.built.gpkFrame c signer now with
        | .error e => (s.built.nextReqId.built, [.error (.protocol e.display)])
        | .ok gpkFrame =>
          (s.built.nextReqId.built.awaitGpk (requestId s.reqCounter) signer now,
            [.sendFrame s.relayUrl ackFrame,
              .progress "awaiting_pubkey" (some nostrconnectAwaitingConfirmation)
                (some "Awaiting user confirmation in signer app"),
              .sendFrame s.relayUrl gpkFrame])

def SessionState.onRelayEvent (c : Crates Keys PublicKey Event) (s : Session Keys PublicKey)
    (event : Value) (now : Nat) : Outcome Keys PublicKey :=
  match s.phase with
  | .bunkerWaitConnectAck connectId remote => s.handleBunkerConnectAck c connectId remote event now
  | .waitGpk gpkId remote => s.handleGpkResponse c gpkId remote event
  | .nostrConnectWaitConnect secret => s.handleNcConnect c secret event now
  | .done => (s, [])

/-- A frame for a session: the end of its stored events, or an event. -/
inductive Frame where
  | eose
  | event (event : Value)

/-- What a text says to the subscription; every other text is ignored. -/
def frameOf (c : Crates Keys PublicKey Event) (subId text : String) : Option Frame :=
  match (c.parse text).bind Value.asArray with
  | none | some [] => none
  | some (head :: rest) =>
    let msgType := head.asStr.getD ""
    if msgType = "EOSE" then
      if (rest[0]?).bind Value.asStr = some subId then some .eose else none
    else if msgType ≠ "EVENT" then none
    else
      match rest with
      | sub :: event :: _ => if sub.asStr = some subId then some (.event event) else none
      | _ => none

def SessionState.onRelayText (c : Crates Keys PublicKey Event) (s : Session Keys PublicKey)
    (text : String) (now : Nat) : Outcome Keys PublicKey :=
  match frameOf c s.subId text with
  | none => (s, [])
  | some .eose => (s.armDeadline now, [])
  | some (.event event) => s.onRelayEvent c event now

def SessionState.onRelayConnected (c : Crates Keys PublicKey Event) (s : Session Keys PublicKey)
    (_isReconnect : Bool) (_now : Nat) : Outcome Keys PublicKey :=
  (s, [.subscribe s.relayUrl
    (buildReqFrame c s.subId (c.toHex (c.publicKey s.localKeys)) 0)])

inductive Input where
  | relayEvent (event : Value) (now : Nat)
  | relayText (text : String) (now : Nat)
  | tick (now : Nat)
  | armDeadline (now : Nat)
  | relayConnected (isReconnect : Bool) (now : Nat)

def step (c : Crates Keys PublicKey Event) (s : Session Keys PublicKey) :
    Input → Outcome Keys PublicKey
  | .relayEvent event now => s.onRelayEvent c event now
  | .relayText text now => s.onRelayText c text now
  | .tick now => s.tick now
  | .armDeadline now => (s.armDeadline now, [])
  | .relayConnected isReconnect now => s.onRelayConnected c isReconnect now

def startBunker (c : Crates Keys PublicKey Event) (subId : String) (localKeys : Keys)
    (remotePubkey : PublicKey) (relayUrl : String) (secret perms : Option String) (now : Nat) :
    Outcome Keys PublicKey :=
  let reqFrame := buildReqFrame c subId (c.toHex (c.publicKey localKeys)) now
  let connectId := requestId 0
  let connect := envelope c connectId "connect" (buildConnectParams c remotePubkey secret perms)
  ({ phase := .bunkerWaitConnectAck connectId remotePubkey
     localKeys := localKeys
     relayUrl := relayUrl
     subId := subId
     perms := perms
     reqCounter := 1
     deadlineAt := now + stepTimeoutSecs
     framesBuilt := 1
     requestIds := [connectId] },
    match buildEventFrameAt c 0 localKeys remotePubkey connect now with
    | .ok frame =>
      [.subscribe relayUrl reqFrame,
        .progress "connecting" (some sendingConnectToBunker) (some "Sending connect to bunker"),
        .sendFrame relayUrl frame]
    | .error e => [.subscribe relayUrl reqFrame, .error (.protocol e.display)])

def nostrconnectUri (c : Crates Keys PublicKey Event) (localKeys : Keys)
    (relayUrl expectedSecret : String) (perms : Option String) (name : String) : String :=
  "nostrconnect://" ++ c.toHex (c.publicKey localKeys) ++ "?relay=" ++
    percentEncodeQueryValue relayUrl ++ "&secret=" ++ expectedSecret ++ "&name=" ++ name ++
    (perms.map fun p => "&perms=" ++ percentEncodeQueryValue p).getD ""

def startNostrconnect (c : Crates Keys PublicKey Event) (subId : String) (localKeys : Keys)
    (relayUrl expectedSecret : String) (perms : Option String) (name : String) (now : Nat) :
    String × Outcome Keys PublicKey :=
  (nostrconnectUri c localKeys relayUrl expectedSecret perms name,
    { phase := .nostrConnectWaitConnect expectedSecret
      localKeys := localKeys
      relayUrl := relayUrl
      subId := subId
      perms := perms
      reqCounter := 0
      deadlineAt := now + stepTimeoutSecs
      framesBuilt := 0
      requestIds := [] },
    [.subscribe relayUrl (buildReqFrame c subId (c.toHex (c.publicKey localKeys)) now),
      .progress "connecting" (some nostrconnectScanQr)
        (some "Waiting for signer to scan QR code")])

/-- A session restored from its saved payload has nothing left to do. -/
def startRestore (c : Crates Keys PublicKey Event) (subId : String) (localKeys : Keys)
    (relayUrls : List String) (now : Nat) : Outcome Keys PublicKey :=
  ({ phase := .done
     localKeys := localKeys
     relayUrl := relayUrls.head?.getD ""
     subId := subId
     perms := none
     reqCounter := 0
     deadlineAt := 0
     framesBuilt := 0
     requestIds := [] },
    relayUrls.map fun relayUrl =>
      .subscribe relayUrl (buildReqFrame c subId (c.toHex (c.publicKey localKeys)) now))

def Frame.carried (now : Nat) : Frame → Option (Value × Nat)
  | .event value => some (value, now)
  | .eose => none

/-- The event that an input hands to the session, with the time. -/
def Input.carried (c : Crates Keys PublicKey Event) (subId : String) :
    Input → Option (Value × Nat)
  | .relayEvent event now => some (event, now)
  | .relayText text now => (frameOf c subId text).bind (Frame.carried now)
  | _ => none

/-- The session is waiting and its time is up. -/
def Session.Expired (s : Session Keys PublicKey) (now : Nat) : Prop :=
  s.phase ≠ .done ∧ s.deadlineAt ≤ now

/-- The event is one that the phase acts on. -/
def Session.Awaits (c : Crates Keys PublicKey Event) (s : Session Keys PublicKey)
    (event : Value) : Prop :=
  match s.phase with
  | .bunkerWaitConnectAck id remote | .waitGpk id remote =>
    (response c s.localKeys remote id event).isSome
  | .nostrConnectWaitConnect _ => (ncRequest c s.localKeys event).isSome
  | .done => False

/-- The frames of a refused step were tried, perhaps under a new id. -/
def Session.Tried (s s' : Session Keys PublicKey) : Prop :=
  s' = s ∨ s' = s.built ∨ s' = s.nextReqId.built ∨ s' = s.built.nextReqId.built

/-- The response a phase waits for, without an error and with a text as its result. -/
def Grants (c : Crates Keys PublicKey Event) (localKeys : Keys) (remote : PublicKey)
    (id : String) (event : Value) (result : String) : Prop :=
  ∃ rpc, response c localKeys remote id event = some rpc ∧ bunkerError c rpc = none ∧
    rpc.str "result" = some result

/-- What an event can do to a session. -/
inductive Handled (c : Crates Keys PublicKey Event) (s : Session Keys PublicKey) (event : Value)
    (now : Nat) : Outcome Keys PublicKey → Prop
  | stray (h : ¬ Session.Awaits c s event) : Handled c s event now (s, [])
  | refused {s' : Session Keys PublicKey} (error : HandshakeError) (h : Session.Awaits c s event)
    (htried : Session.Tried s s') : Handled c s event now (s', [.error error])
  | acked {connectId result frame : String} {remote : PublicKey} (code detail : Option String)
    (hphase : s.phase = .bunkerWaitConnectAck connectId remote)
    (h : Grants c s.localKeys remote connectId event result)
    (hframe : s.gpkFrame c remote now = .ok frame) :
    Handled c s event now (s.nextReqId.built.awaitGpk (requestId s.reqCounter) remote now,
      [.progress "awaiting_pubkey" code detail, .sendFrame s.relayUrl frame])
  | connected {connectId secret ackFrame frame : String} {signer : PublicKey}
    {params : List Value} (code detail : Option String)
    (hphase : s.phase = .nostrConnectWaitConnect secret)
    (h : ncRequest c s.localKeys event = some (signer, connectId, params))
    (hsecret : receivedSecret params = secret) (hframe : s.built.gpkFrame c signer now = .ok frame) :
    Handled c s event now (s.built.nextReqId.built.awaitGpk (requestId s.reqCounter) signer now,
      [.sendFrame s.relayUrl ackFrame, .progress "awaiting_pubkey" code detail,
        .sendFrame s.relayUrl frame])
  | ready {gpkId result : String} {remote : PublicKey} (hphase : s.phase = .waitGpk gpkId remote)
    (h : Grants c s.localKeys remote gpkId event result)
    (hkey : isHexKey (lower (trim result)) = true) :
    Handled c s event now ({ s with phase := .done },
      [.signerReady ⟨lower (trim result), c.toHex remote, s.perms⟩])

variable {c : Crates Keys PublicKey Event} {s : Session Keys PublicKey}

variable (event : Value) (now : Nat)

theorem handled_bunkerConnectAck {connectId : String} {remote : PublicKey}
    (hphase : s.phase = .bunkerWaitConnectAck connectId remote) :
    Handled c s event now (s.handleBunkerConnectAck c connectId remote event now) := by
  have hawaits : Session.Awaits c s event ↔
      (response c s.localKeys remote connectId event).isSome := by
    rw [Session.Awaits, hphase]
  unfold SessionState.handleBunkerConnectAck
  cases hresp : response c s.localKeys remote connectId event with
  | none => exact .stray (by rw [hawaits, hresp]; simp)
  | some rpc =>
    have hnow : Session.Awaits c s event := by rw [hawaits, hresp]; rfl
    dsimp only
    cases herr : bunkerError c rpc with
    | some error => exact .refused error hnow (.inl rfl)
    | none =>
      cases hresult : rpc.str "result" with
      | none => exact .refused _ hnow (.inl rfl)
      | some =>
        dsimp only
        cases hframe : s.gpkFrame c remote now with
        | ok => exact .acked _ _ hphase ⟨rpc, hresp, herr, hresult⟩ hframe
        | error => exact .refused _ hnow (.inr (.inr (.inl rfl)))

theorem handled_gpkResponse {gpkId : String} {remote : PublicKey}
    (hphase : s.phase = .waitGpk gpkId remote) :
    Handled c s event now (s.handleGpkResponse c gpkId remote event) := by
  have hawaits : Session.Awaits c s event ↔
      (response c s.localKeys remote gpkId event).isSome := by
    rw [Session.Awaits, hphase]
  unfold SessionState.handleGpkResponse
  cases hresp : response c s.localKeys remote gpkId event with
  | none => exact .stray (by rw [hawaits, hresp]; simp)
  | some rpc =>
    have hnow : Session.Awaits c s event := by rw [hawaits, hresp]; rfl
    dsimp only
    cases herr : bunkerError c rpc with
    | some error => exact .refused error hnow (.inl rfl)
    | none =>
      cases hresult : rpc.str "result" with
      | none => exact .refused _ hnow (.inl rfl)
      | some result =>
        dsimp only
        by_cases hkey : isHexKey (lower (trim result)) = true
        · rw [if_pos hkey]
          exact .ready hphase ⟨rpc, hresp, herr, hresult⟩ hkey
        · rw [if_neg hkey]
          exact .refused _ hnow (.inl rfl)

theorem handled_ncConnect {secret : String} (hphase : s.phase = .nostrConnectWaitConnect secret) :
    Handled c s event now (s.handleNcConnect c secret event now) := by
  have hawaits : Session.Awaits c s event ↔ (ncRequest c s.localKeys event).isSome := by
    rw [Session.Awaits, hphase]
  unfold SessionState.handleNcConnect
  cases hreq : ncRequest c s.localKeys event with
  | none => exact .stray (by rw [hawaits, hreq]; simp)
  | some request =>
    have hnow : Session.Awaits c s event := by rw [hawaits, hreq]; rfl
    obtain ⟨signer, connectId, params⟩ := request
    dsimp only
    by_cases hsecret : receivedSecret params = secret
    · rw [if_neg (by simpa using hsecret)]
      cases buildEventFrameAt c s.framesBuilt s.localKeys signer (ackBody c connectId) now with
      | error => exact .refused _ hnow (.inr (.inl rfl))
      | ok =>
        dsimp only
        cases hframe : s.built.gpkFrame c signer now with
        | error => exact .refused _ hnow (.inr (.inr (.inr rfl)))
        | ok => exact .connected _ _ hphase hreq hsecret hframe
    · rw [if_pos hsecret]
      exact .refused _ hnow (.inl rfl)

theorem handled : Handled c s event now (s.onRelayEvent c event now) := by
  unfold SessionState.onRelayEvent
  cases hphase : s.phase with
  | bunkerWaitConnectAck => exact handled_bunkerConnectAck event now hphase
  | waitGpk => exact handled_gpkResponse event now hphase
  | nostrConnectWaitConnect => exact handled_ncConnect event now hphase
  | done => exact .stray (by rw [Session.Awaits, hphase]; exact id)

/-- What an input can do: an event is handled, the deadline passes, a new one is set, or the
subscription is sent again. -/
inductive Stepped (c : Crates Keys PublicKey Event) (s : Session Keys PublicKey) (i : Input) :
    Outcome Keys PublicKey → Prop
  | event {event : Value} {now : Nat} {out : Outcome Keys PublicKey}
    (hcarried : i.carried c s.subId = some (event, now)) (h : Handled c s event now out) :
    Stepped c s i out
  | expired {now : Nat} (error : HandshakeError) (hinput : i = .tick now)
    (h : Session.Expired s now) : Stepped c s i (s, [.error error])
  | armed (now : Nat) (hcarried : i.carried c s.subId = none) (hinput : ∀ now, i ≠ .tick now) :
    Stepped c s i (s.armDeadline now, [])
  | quiet (hcarried : i.carried c s.subId = none)
    (hinput : ∀ now, i = .tick now → ¬ Session.Expired s now) : Stepped c s i (s, [])
  | subscribed (url frame : String) (hcarried : i.carried c s.subId = none)
    (hinput : ∀ now, i ≠ .tick now) : Stepped c s i (s, [.subscribe url frame])

theorem stepped_tick : Stepped c s (.tick now) (s.tick now) := by
  unfold SessionState.tick
  by_cases hnow : now < s.deadlineAt
  · rw [if_pos hnow]
    exact .quiet rfl fun _ hi hexpired => by
      cases hi
      exact absurd hnow (Nat.not_lt.mpr hexpired.2)
  · rw [if_neg hnow]
    have hexpired (h : s.phase ≠ .done) : Session.Expired s now := ⟨h, Nat.not_lt.mp hnow⟩
    cases hphase : s.phase with
    | done => exact .quiet rfl fun _ _ h => h.1 hphase
    | bunkerWaitConnectAck _ _ => exact .expired _ rfl (hexpired (by rw [hphase]; nofun))
    | waitGpk _ _ => exact .expired _ rfl (hexpired (by rw [hphase]; nofun))
    | nostrConnectWaitConnect _ => exact .expired _ rfl (hexpired (by rw [hphase]; nofun))

theorem stepped_text (text : String) (now : Nat) :
    Stepped c s (.relayText text now) (s.onRelayText c text now) := by
  have hcarried (frame : Option Frame) (h : frameOf c s.subId text = frame) :
      (Input.relayText text now).carried c s.subId = frame.bind (Frame.carried now) := by
    rw [← h]
    rfl
  unfold SessionState.onRelayText
  cases hframe : frameOf c s.subId text with
  | none => exact .quiet (hcarried _ hframe) fun _ h => nomatch h
  | some frame =>
    cases frame with
    | eose => exact .armed now (hcarried _ hframe) fun _ h => nomatch h
    | event event => exact .event (hcarried _ hframe) (handled event now)

theorem stepped (i : Input) : Stepped c s i (step c s i) := by
  cases i with
  | relayEvent event now => exact .event rfl (handled event now)
  | relayText text now => exact stepped_text text now
  | tick now => exact stepped_tick now
  | armDeadline now => exact .armed now rfl fun _ h => nomatch h
  | relayConnected => exact .subscribed _ _ rfl fun _ h => nomatch h

end Nip46Reducer
