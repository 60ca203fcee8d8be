import NostrMultiPlatform.RelayProtocol
import NostrMultiPlatform.Tables

/-!
# From worker events to pool events

An event is prepared outside the lock: an error is classified, a message becomes a
frame. Under the lock it finds its slot by url and generation, moves the slot's health
and becomes an event of the pool. The parse of a text frame as a challenge is a
parameter.
-/
namespace PoolTranslate

open Tables RelayProtocol

inductive RelayRole
  | content
  | indexer
  | wallet
  | signer
  deriving DecidableEq, Repr

structure RelayHandle where
  slot : Nat
  generation : Nat
  deriving DecidableEq, Repr

inductive RelayFrame
  | text (text : String)
  | auth (challenge : String)
  | binary (bytes : List UInt8)
  | ping
  | pong
  | close (reason : Option String)
  deriving DecidableEq, Repr

inductive ClosedReason
  | requested
  | shutdown
  | permanent
  deriving DecidableEq, Repr

structure TransportError where
  message : String
  permanent : Bool
  deriving DecidableEq, Repr

inductive PoolEvent
  | opened (h : RelayHandle) (url : String) (generation : Nat)
  | frame (h : RelayHandle) (generation : Nat) (frame : RelayFrame)
  | closed (h : RelayHandle) (generation : Nat) (reason : ClosedReason)
  | failed (h : RelayHandle) (generation : Nat) (error : TransportError)
  deriving DecidableEq, Repr

def PoolEvent.handle : PoolEvent → RelayHandle
  | .opened h _ _ | .frame h _ _ | .closed h _ _ | .failed h _ _ => h

/-- The event speaks of an open socket. -/
def PoolEvent.up : PoolEvent → Bool
  | .opened _ _ _ | .frame _ _ _ => true
  | _ => false

inductive HealthState
  | idle
  | connecting
  | connected
  | reconnecting
  | closed
  deriving DecidableEq, Repr

structure RelayHealth where
  state : HealthState
  connectCount : Nat
  failureCount : Nat
  lastError : Option String
  deriving DecidableEq, Repr

/-- The health of a slot whose worker has just been spawned. -/
def RelayHealth.dialing : RelayHealth := ⟨.connecting, 0, 0, none⟩

/-- The sender of commands is the number of the worker it reaches. -/
structure SlotState where
  url : String
  role : RelayRole
  generation : Nat
  commandTx : Option Nat
  health : RelayHealth
  deriving DecidableEq, Repr

/-- The slots by id; no operation takes one away. -/
structure PoolInner where
  slots : List SlotState
  urlToSlot : Table String Nat
  shutdown : Bool

inductive PreparedEvent
  | connected (relayUrl : String) (generation : Nat)
  | failed (relayUrl : String) (generation : Nat) (error : String) (permanent : Bool)
  | closed (relayUrl : String) (generation : Nat)
  | frame (relayUrl : String) (generation : Nat) (frame : RelayFrame)
  deriving DecidableEq, Repr

def PreparedEvent.relayUrl : PreparedEvent → String
  | .connected url _ | .failed url _ _ _ | .closed url _ | .frame url _ _ => url

def PreparedEvent.generation : PreparedEvent → Nat
  | .connected _ generation | .failed _ generation _ _ | .closed _ generation
  | .frame _ generation _ => generation

def PreparedEvent.up : PreparedEvent → Bool
  | .connected _ _ | .frame _ _ _ => true
  | _ => false

section

variable (authChallenge : String → Option String)

/-- A challenge is looked for only in a text that names it. -/
def classifyTextFrame (text : String) : RelayFrame :=
  if contains text "\"AUTH\"" then
    match authChallenge text with
    | some challenge => .auth challenge
    | none => .text text
  else .text text

def tungsteniteToRelayFrame : Message → Option RelayFrame
  | .text text => some (classifyTextFrame authChallenge text)
  | .binary bytes => some (.binary bytes)
  | .ping _ => some .ping
  | .pong _ => some .pong
  | .close reason => some (.close reason)
  | .frame _ => none

def prepareEvent : RelayEvent → Option PreparedEvent
  | .connected url generation => some (.connected url generation)
  | .failed url generation error =>
    some (.failed url generation error (isPermanentError error))
  | .closed url generation => some (.closed url generation)
  | .message url generation message =>
    (tungsteniteToRelayFrame authChallenge message).map fun frame => .frame url generation frame

/-- A prepared event keeps the signature of its worker. -/
theorem prepareEvent_signature {event : RelayEvent} {prepared : PreparedEvent}
    (h : prepareEvent authChallenge event = some prepared) :
    prepared.relayUrl = event.relayUrl ∧ prepared.generation = event.generation := by
  cases event with
  | connected | failed | closed => cases h; exact ⟨rfl, rfl⟩
  | message =>
    obtain ⟨_, -, rfl⟩ := Option.map_eq_some_iff.mp h
    exact ⟨rfl, rfl⟩

end

/-- What an event does to the health of its slot. -/
def applyHealth (health : RelayHealth) : PreparedEvent → RelayHealth
  | .connected _ _ =>
    { health with
      state := .connected
      connectCount := min (health.connectCount + 1) (2 ^ 64 - 1)
      lastError := none }
  | .failed _ _ error permanent =>
    { health with
      failureCount := min (health.failureCount + 1) (2 ^ 64 - 1)
      lastError := some error
      state :=
        if permanent then .closed
        else if health.state = .connected then .reconnecting
        else health.state }
  | .closed _ _ => { health with state := .closed }
  | .frame _ _ _ => health

/-- The event of the pool, for the handle of the slot. -/
def poolEvent (h : RelayHandle) : PreparedEvent → PoolEvent
  | .connected url generation => .opened h url generation
  | .failed _ generation error permanent => .failed h generation ⟨error, permanent⟩
  | .closed _ generation => .closed h generation .requested
  | .frame _ generation frame => .frame h generation frame

@[simp] theorem poolEvent_handle (h : RelayHandle) (event : PreparedEvent) :
    (poolEvent h event).handle = h := by cases event <;> rfl

@[simp] theorem poolEvent_up (h : RelayHandle) (event : PreparedEvent) :
    (poolEvent h event).up = event.up := by cases event <;> rfl

/-- A closed slot stays closed under an event that does not speak of an open socket. -/
theorem applyHealth_closed {health : RelayHealth} (hstate : health.state = .closed)
    {event : PreparedEvent} (hup : event.up = false) :
    (applyHealth health event).state = .closed := by
  cases event with
  | connected | frame => cases hup
  | closed => rfl
  | failed => simp [applyHealth, hstate]

/-- The slot of a url, as long as it is of that generation. -/
def locateSlot (inner : PoolInner) (url : String) (generation : Nat) : Option (Nat × SlotState) :=
  match inner.urlToSlot.lookup url with
  | none => none
  | some slotId =>
    match inner.slots[slotId]? with
    | none => none
    | some state => if state.generation = generation then some (slotId, state) else none

theorem locateSlot_eq_some {inner : PoolInner} {url : String} {generation slotId : Nat}
    {state : SlotState} (h : locateSlot inner url generation = some (slotId, state)) :
    inner.urlToSlot.lookup url = some slotId ∧ inner.slots[slotId]? = some state ∧
      state.generation = generation := by
  unfold locateSlot at h
  split at h
  · cases h
  next found hlookup =>
    split at h
    · cases h
    next slot hslot =>
      split at h
      next hgeneration =>
        obtain ⟨rfl, rfl⟩ := Prod.mk.inj (Option.some.inj h)
        exact ⟨hlookup, hslot, hgeneration⟩
      · cases h

def applyPrepared (inner : PoolInner) (event : PreparedEvent) : PoolInner × Option PoolEvent :=
  match locateSlot inner event.relayUrl event.generation with
  | none => (inner, none)
  | some (slotId, state) =>
    ({ inner with
        slots := inner.slots.set slotId { state with health := applyHealth state.health event } },
      some (poolEvent ⟨slotId, state.generation⟩ event))

end PoolTranslate
