import NostrMultiPlatform.PoolTranslate
import NostrMultiPlatform.Transducers

/-!
# The relay pool

The pool keeps one slot for each canonical url and spawns a worker for it under a new
generation. Handles name a slot and a generation. Each act below is one critical
section, or one step of a thread outside the lock: a send looks up its channel first
and posts afterwards, the translator moves a slot first and delivers afterwards.
-/
namespace PoolHandles

open RelayProtocol PoolTranslate

/-- A spawned worker and everything that has been put in its command channel. -/
structure WorkerRow where
  relayUrl : String
  generation : Nat
  inbox : List RelayCommand
  deriving DecidableEq, Repr

/-- A send that holds the sender of a worker and has not posted yet. -/
structure Sending where
  h : RelayHandle
  worker : Nat
  command : RelayCommand
  deriving DecidableEq, Repr

structure Pool where
  inner : PoolInner
  workers : List WorkerRow
  channel : List RelayEvent
  inHand : Option PoolEvent
  sending : List Sending

inductive WireFrame
  | text (text : String)
  | binary (bytes : List UInt8)
  deriving DecidableEq, Repr

def wireFrameToCommand : WireFrame → Option RelayCommand
  | .text text => some (.send text)
  | .binary _ => none

/-- What is seen from outside. -/
inductive Out
  | handle (h : RelayHandle)
  | closed (h : RelayHandle) (done : Bool)
  | commanded (h : RelayHandle) (worker : Nat) (command : RelayCommand)
  | delivered (event : PoolEvent)
  deriving DecidableEq, Repr

def start : Pool := ⟨⟨[], ∅, false⟩, [], [], none, []⟩

def u64Max : Nat := 2 ^ 64 - 1

/-- The handle that reaches nothing. -/
def deadHandle : RelayHandle := ⟨2 ^ 32 - 1, 0⟩

def openSlot (url : String) (role : RelayRole) (generation worker : Nat) : SlotState :=
  ⟨url, role, generation, some worker, .dialing⟩

def openNewSlot (p : Pool) (canonical : String) (role : RelayRole) : Pool × RelayHandle :=
  let slotId := p.inner.slots.length
  ({ p with
      inner := { p.inner with
        slots := p.inner.slots ++ [openSlot canonical role 1 p.workers.length]
        urlToSlot := p.inner.urlToSlot.insert canonical slotId }
      workers := p.workers ++ [⟨canonical, 1, []⟩] }, ⟨slotId, 1⟩)

/-- The generation of a reopened slot. -/
def nextGeneration (p : Pool) (slotId : Nat) : Nat :=
  min (((p.inner.slots[slotId]?).map SlotState.generation).getD 0 + 1) u64Max

def reopenSlot (p : Pool) (slotId : Nat) (canonical : String) (role : RelayRole) :
    Pool × RelayHandle :=
  let generation := nextGeneration p slotId
  ({ p with
      inner := { p.inner with
        slots := p.inner.slots.set slotId (openSlot canonical role generation p.workers.length) }
      workers := p.workers ++ [⟨canonical, generation, []⟩] }, ⟨slotId, generation⟩)

/-- The slot has a worker that is not known to have stopped. -/
def live (state : SlotState) : Bool :=
  state.commandTx.isSome && state.health.state ≠ .closed

def ensureOpen (p : Pool) (url : String) (role : RelayRole) : Pool × RelayHandle :=
  if p.inner.shutdown then (p, deadHandle)
  else
    match PlannerPartition.canonicalize url with
    | none => (p, deadHandle)
    | some canonical =>
      match p.inner.urlToSlot.lookup canonical with
      | none => openNewSlot p canonical role
      | some slotId =>
        match p.inner.slots[slotId]? with
        | none => reopenSlot p slotId canonical role
        | some state =>
          if live state then (p, ⟨slotId, state.generation⟩)
          else reopenSlot p slotId canonical role

/-- The worker that a handle reaches. -/
def commandTxFor (p : Pool) (h : RelayHandle) : Option Nat :=
  match p.inner.slots[h.slot]? with
  | none => none
  | some state => if state.generation ≠ h.generation then none else state.commandTx

/-- A command is put in a worker's channel. -/
def command (p : Pool) (worker : Nat) (c : RelayCommand) : Pool :=
  { p with
    workers := p.workers.modify worker fun row => { row with inbox := row.inbox ++ [c] } }

/-- The worker is told to stop and its sender is let go. -/
def stopSlot (p : Pool) (slotId : Nat) (state : SlotState) : Pool :=
  let p := match state.commandTx with
    | none => p
    | some worker => command p worker .shutdown
  { p with
    inner := { p.inner with
      slots := p.inner.slots.set slotId
        { state with commandTx := none, health := { state.health with state := .closed } } } }

def close (p : Pool) (h : RelayHandle) : Pool × Bool :=
  match p.inner.slots[h.slot]? with
  | none => (p, false)
  | some state =>
    if state.generation ≠ h.generation then (p, false) else (stopSlot p h.slot state, true)

def stopAt (p : Pool) (slotId : Nat) : Pool :=
  match p.inner.slots[slotId]? with
  | none => p
  | some state => stopSlot p slotId state

def shutdown (p : Pool) : Pool :=
  (List.range p.inner.slots.length).foldl stopAt
    { p with inner := { p.inner with shutdown := true } }

/-- What a worker says; it signs with its url and generation. -/
inductive Said
  | connected
  | failed (error : String)
  | closed
  | message (message : Message)
  deriving DecidableEq, Repr

def Said.event (url : String) (generation : Nat) : Said → RelayEvent
  | .connected => .connected url generation
  | .failed error => .failed url generation error
  | .closed => .closed url generation
  | .message m => .message url generation m

inductive Act
  | ensureOpen (url : String) (role : RelayRole)
  | close (h : RelayHandle)
  | send (h : RelayHandle) (frame : WireFrame)
  | post (index : Nat)
  | setBackoffHint (h : RelayHandle) (hint : BackoffClass)
  | setReconnectPreamble (h : RelayHandle) (frames : List String)
  | shutdown
  | emit (worker : Nat) (said : Said)
  | translate
  | deliver
  deriving DecidableEq, Repr

variable (authChallenge : String → Option String)

/-- The translator takes the next event; after a shutdown it only drains. -/
def translate (p : Pool) : Pool :=
  match p.inHand, p.channel with
  | none, event :: rest =>
    let p := { p with channel := rest }
    match prepareEvent authChallenge event with
    | none => p
    | some prepared =>
      if p.inner.shutdown then p
      else
        { p with
          inner := (applyPrepared p.inner prepared).1
          inHand := (applyPrepared p.inner prepared).2 }
  | _, _ => p

/-- A command that is looked up and put in the channel in one section. -/
def commandNow (p : Pool) (h : RelayHandle) (c : RelayCommand) : Pool × List Out :=
  match commandTxFor p h with
  | none => (p, [])
  | some worker => (command p worker c, [.commanded h worker c])

def step (p : Pool) : Act → Pool × List Out
  | .ensureOpen url role => ((ensureOpen p url role).1, [.handle (ensureOpen p url role).2])
  | .close h => ((close p h).1, [.closed h (close p h).2])
  | .send h frame =>
    match wireFrameToCommand frame, commandTxFor p h with
    | some c, some worker => ({ p with sending := p.sending ++ [⟨h, worker, c⟩] }, [])
    | _, _ => (p, [])
  | .post index =>
    match p.sending[index]? with
    | none => (p, [])
    | some s =>
      (command { p with sending := p.sending.eraseIdx index } s.worker s.command,
        [.commanded s.h s.worker s.command])
  | .setBackoffHint h hint => commandNow p h (.setBackoffHint hint)
  | .setReconnectPreamble h frames => commandNow p h (.setReconnectPreamble frames)
  | .shutdown => (shutdown p, [])
  | .emit worker said =>
    match p.workers[worker]? with
    | none => (p, [])
    | some row =>
      ({ p with channel := p.channel ++ [said.event row.relayUrl row.generation] }, [])
  | .translate => (translate authChallenge p, [])
  | .deliver =>
    match p.inHand with
    | none => (p, [])
    | some event => ({ p with inHand := none }, [.delivered event])

end PoolHandles
