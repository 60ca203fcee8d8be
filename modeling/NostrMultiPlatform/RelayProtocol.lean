import Mathlib.Data.List.Infix
import NostrMultiPlatform.PlannerPartition

/-!
# What a relay worker says and obeys

The events a worker reports, the commands it takes, the schedule of its reconnects
and the detector of an idle socket. Times are in milliseconds.
-/
namespace RelayProtocol

/-- A WebSocket message. -/
inductive Message
  | text (text : String)
  | binary (bytes : List UInt8)
  | ping (bytes : List UInt8)
  | pong (bytes : List UInt8)
  | close (reason : Option String)
  | frame (bytes : List UInt8)
  deriving DecidableEq, Repr

def Message.isPong : Message → Bool
  | .pong _ => true
  | _ => false

inductive RelayEvent
  | connected (relayUrl : String) (generation : Nat)
  | failed (relayUrl : String) (generation : Nat) (error : String)
  | closed (relayUrl : String) (generation : Nat)
  | message (relayUrl : String) (generation : Nat) (message : Message)
  deriving DecidableEq, Repr

def RelayEvent.relayUrl : RelayEvent → String
  | .connected url _ | .failed url _ _ | .closed url _ | .message url _ _ => url

def RelayEvent.generation : RelayEvent → Nat
  | .connected _ generation | .failed _ generation _ | .closed _ generation
  | .message _ generation _ => generation

inductive BackoffClass
  | transient
  | rateLimited
  deriving DecidableEq, Repr

inductive RelayCommand
  | send (text : String)
  | shutdown
  | setBackoffHint (hint : BackoffClass)
  | setReconnectPreamble (frames : List String)
  deriving DecidableEq, Repr

def relayReconnectDelayInitial : Nat := 3000

def relayReconnectDelayMax : Nat := 300000

def relayReconnectDelayRateLimited : Nat := 60000

def relayBackoffResetAfter : Nat := 300000

def jitteredBackoff (base : Nat) (url : String) : Nat :=
  let hash := url.toUTF8.data.toList.foldl (fun acc b => (acc * 31 + b.toNat) % 2 ^ 64) 0
  base + hash % 5000

def contains (text part : String) : Bool := decide (part.toList <:+: text.toList)

/-- The relay turns this client away for good. -/
def isPermanentError (error : String) : Bool :=
  contains error "403" || contains error "401" || contains error "Forbidden"

/-- The next backoff, which is also the base of the delay. -/
def applyReconnectBackoff (hint : Option BackoffClass) (currentBackoff connectedElapsed : Nat) :
    Nat :=
  match hint with
  | some .rateLimited => relayReconnectDelayRateLimited
  | _ =>
    if relayBackoffResetAfter ≤ connectedElapsed then relayReconnectDelayInitial
    else min (currentBackoff * 2) relayReconnectDelayMax

inductive KeepaliveAction
  | idle
  | emitPing
  | dead
  deriving DecidableEq, Repr

structure KeepaliveState where
  idleThreshold : Nat
  pongTimeout : Nat
  lastInboundAt : Nat
  pingSentAt : Option Nat
  deriving DecidableEq, Repr

namespace KeepaliveState

def new (now idleThreshold pongTimeout : Nat) : KeepaliveState :=
  ⟨idleThreshold, pongTimeout, now, none⟩

def onInbound (k : KeepaliveState) (now : Nat) : KeepaliveState :=
  { k with lastInboundAt := now, pingSentAt := none }

def step (k : KeepaliveState) (now : Nat) : KeepaliveAction :=
  match k.pingSentAt with
  | some sentAt => if k.pongTimeout ≤ now - sentAt then .dead else .idle
  | none => if k.idleThreshold ≤ now - k.lastInboundAt then .emitPing else .idle

/-- The clock of the pong starts when the ping has reached the wire. -/
def onPingFlushed (k : KeepaliveState) (now : Nat) : KeepaliveState :=
  { k with pingSentAt := k.pingSentAt.orElse fun _ => some now }

end KeepaliveState

end RelayProtocol
