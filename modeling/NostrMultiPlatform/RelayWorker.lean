import NostrMultiPlatform.RelayProtocol
import NostrMultiPlatform.Transducers

/-!
# The relay worker

One thread owns the socket of one relay: it dials, runs the session until something
ends it, waits and dials again. Each step below does one operation on the socket, the
poller, the clock or the control inbox; what the operation answers is the input. The
commands of the pool pass through a forwarder before the worker sees them.
-/
namespace RelayWorker

open RelayProtocol

/-- What a worker is spawned with. -/
structure Config where
  relayUrl : String
  generation : Nat
  keepaliveIdle : Nat
  keepalivePongTimeout : Nat
  deriving DecidableEq, Repr

/-- A write or a flush on the nonblocking socket. -/
inductive Written
  | ok
  | blocked
  | failed (error : String)
  deriving DecidableEq, Repr

inductive Read
  | message (message : Message)
  | blocked
  | failed (error : String)
  deriving DecidableEq, Repr

structure Ready where
  readable : Bool
  deriving DecidableEq, Repr

/-- What the outside answers at a step; a step looks at the answer to its own operation. -/
structure Io where
  now : Nat
  dial : Except String Unit
  setup : Except String Unit
  write : Written
  flush : Written
  interest : Except String Unit
  wait : Except String Ready
  read : Read
  deriving DecidableEq, Repr

/-- Where the worker stands: the operation that comes next. The flag is the write interest. -/
inductive Phase
  | dialing
  | refused
  | setup
  | draining
  | writing
  | flushing
  | updating (wantsWrite : Bool)
  | keepalive (wantsWrite : Bool)
  | pinging (wantsWrite : Bool)
  | pingFlushing (wantsWrite : Bool)
  | updatingAgain (wantsWrite : Bool)
  | polling
  | reading
  | leaving
  | waiting (deadline : Nat)
  | ended
  deriving DecidableEq, Repr

/-- The commands on their way: those the forwarder has not moved yet, and the worker's inbox. -/
structure Control where
  senderAlive : Bool
  outer : List RelayCommand
  inbox : List RelayCommand
  forwarderGone : Bool
  deriving DecidableEq, Repr

structure Worker where
  phase : Phase
  pending : List String
  preamble : List String
  backoff : Nat
  backoffHint : Option BackoffClass
  connectedAt : Nat
  keepalive : KeepaliveState
  pollerWantsWrite : Bool
  control : Control
  deriving DecidableEq, Repr

/-- What is seen from outside: a command sent to the worker, an event, a text handed to the
socket. -/
inductive Mark
  | posted (command : RelayCommand)
  | event (event : RelayEvent)
  | handed (text : String)
  deriving DecidableEq, Repr

/-- A worker that has just been spawned. -/
def spawn : Worker where
  phase := .dialing
  pending := []
  preamble := []
  backoff := relayReconnectDelayInitial
  backoffHint := none
  connectedAt := 0
  keepalive := .new 0 0 0
  pollerWantsWrite := false
  control := ⟨true, [], [], false⟩

variable (cfg : Config)

def failure (error : String) : Mark := .event (.failed cfg.relayUrl cfg.generation error)

/-- The preamble goes in front of the queue as soon as the socket is open. -/
def dial (w : Worker) (io : Io) : Worker × List Mark :=
  match io.dial with
  | .ok () =>
    ({ w with
        phase := .setup
        connectedAt := io.now
        pending := w.preamble ++ w.pending
        keepalive := .new io.now cfg.keepaliveIdle cfg.keepalivePongTimeout },
      [.event (.connected cfg.relayUrl cfg.generation)])
  | .error error =>
    ({ w with phase := if isPermanentError error then .ended else .refused }, [failure cfg error])

variable (wantsWrite : Bool) (w : Worker) (io : Io)

/-- The delay after a refused dial. -/
def backOff : Worker :=
  { w with
    phase := .waiting (io.now + jitteredBackoff w.backoff cfg.relayUrl)
    backoff := min (w.backoff * 2) relayReconnectDelayMax }

/-- The delay after a session; a hint counts once. -/
def leave : Worker :=
  let base := applyReconnectBackoff w.backoffHint w.backoff (io.now - w.connectedAt)
  { w with
    phase := .waiting (io.now + jitteredBackoff base cfg.relayUrl)
    backoff := base
    backoffHint := none }

def waitBeforeReconnect (deadline : Nat) (w : Worker) (io : Io) : Worker :=
  if deadline ≤ io.now then { w with phase := .dialing }
  else
    match w.control.inbox with
    | [] => if w.control.forwarderGone then { w with phase := .ended } else w
    | command :: rest =>
      let w := { w with control := { w.control with inbox := rest } }
      match command with
      | .send text => { w with pending := w.pending ++ [text] }
      | .setBackoffHint _ => w
      | .setReconnectPreamble frames => { w with preamble := frames }
      | .shutdown => { w with phase := .ended }

/-- A session that ends reports why. -/
def drop (error : String) : Worker × List Mark :=
  ({ w with phase := .leaving }, [failure cfg error])

def setUp : Worker × List Mark :=
  match io.setup with
  | .ok () => ({ w with phase := .draining, pollerWantsWrite := false }, [])
  | .error error => drop cfg w ("relay readiness setup failed: " ++ error)

def drainPending : Worker × List Mark :=
  match w.control.inbox with
  | [] =>
    if w.control.forwarderGone then
      ({ w with phase := .ended }, [.event (.closed cfg.relayUrl cfg.generation)])
    else ({ w with phase := .writing }, [])
  | command :: rest =>
    let w := { w with control := { w.control with inbox := rest } }
    match command with
    | .send text => ({ w with pending := w.pending ++ [text] }, [])
    | .shutdown => ({ w with phase := .ended }, [.event (.closed cfg.relayUrl cfg.generation)])
    | .setBackoffHint hint => ({ w with backoffHint := some hint }, [])
    | .setReconnectPreamble frames => ({ w with preamble := frames }, [])

/-- One text of the queue is handed to the socket; one that fails stays in front. -/
def writeNext : Worker × List Mark :=
  match w.pending with
  | [] => ({ w with phase := .flushing }, [])
  | text :: rest =>
    match io.write with
    | .ok => ({ w with pending := rest }, [.handed text])
    | .blocked => ({ w with pending := rest, phase := .updating true }, [.handed text])
    | .failed error => drop cfg w error

/-- The session is left without a word when the flush fails. -/
def flushSocket : Worker × List Mark :=
  match io.flush with
  | .ok => ({ w with phase := .updating false }, [])
  | .blocked => ({ w with phase := .updating true }, [])
  | .failed _ => ({ w with phase := .leaving }, [])

def setWantsWrite (next : Phase) (w : Worker) (io : Io) : Worker × List Mark :=
  if w.pollerWantsWrite = wantsWrite then ({ w with phase := next }, [])
  else
    match io.interest with
    | .ok () => ({ w with phase := next, pollerWantsWrite := wantsWrite }, [])
    | .error error => drop cfg w ("relay readiness update failed: " ++ error)

def stepKeepalive : Worker × List Mark :=
  match w.keepalive.step io.now with
  | .idle => ({ w with phase := .updatingAgain wantsWrite }, [])
  | .emitPing => ({ w with phase := .pinging wantsWrite }, [])
  | .dead => drop cfg w "keepalive timeout (no pong within 30s)"

def writePing : Worker × List Mark :=
  match io.write with
  | .ok => ({ w with phase := .pingFlushing wantsWrite }, [])
  | .blocked => ({ w with phase := .updatingAgain true }, [])
  | .failed _ => drop cfg w "ping write failed"

def flushPing : Worker × List Mark :=
  match io.flush with
  | .ok =>
    ({ w with phase := .updatingAgain wantsWrite, keepalive := w.keepalive.onPingFlushed io.now },
      [])
  | .blocked => ({ w with phase := .updatingAgain true }, [])
  | .failed _ => drop cfg w "ping write failed"

def poll : Worker × List Mark :=
  match io.wait with
  | .error error => drop cfg w ("relay readiness wait failed: " ++ error)
  | .ok ready => ({ w with phase := if ready.readable then .reading else .draining }, [])

def drainReads : Worker × List Mark :=
  match io.read with
  | .message message =>
    ({ w with keepalive := w.keepalive.onInbound io.now },
      if message.isPong then [] else [.event (.message cfg.relayUrl cfg.generation message)])
  | .blocked => ({ w with phase := .draining }, [])
  | .failed error =>
    ({ w with phase := if isPermanentError error then .ended else .leaving }, [failure cfg error])

/-- The worker's next operation. -/
def work : Worker × List Mark :=
  match w.phase with
  | .dialing => dial cfg w io
  | .refused => (backOff cfg w io, [])
  | .setup => setUp cfg w io
  | .draining => drainPending cfg w
  | .writing => writeNext cfg w io
  | .flushing => flushSocket w io
  | .updating wantsWrite => setWantsWrite cfg wantsWrite (.keepalive wantsWrite) w io
  | .keepalive wantsWrite => stepKeepalive cfg wantsWrite w io
  | .pinging wantsWrite => writePing cfg wantsWrite w io
  | .pingFlushing wantsWrite => flushPing cfg wantsWrite w io
  | .updatingAgain wantsWrite => setWantsWrite cfg wantsWrite .polling w io
  | .polling => poll cfg w io
  | .reading => drainReads cfg w io
  | .leaving => (leave cfg w io, [])
  | .waiting deadline => (waitBeforeReconnect deadline w io, [])
  | .ended => (w, [])

/-- A command is sent, the sender is dropped, the forwarder moves, the worker moves. -/
inductive Input
  | post (command : RelayCommand)
  | dropSender
  | forward
  | work (io : Io)
  deriving DecidableEq, Repr

def Control.forward (c : Control) : Control :=
  match c.outer with
  | command :: rest => { c with outer := rest, inbox := c.inbox ++ [command] }
  | [] => if c.senderAlive then c else { c with forwarderGone := true }

def step : Input → Worker × List Mark
  | .post command =>
    if w.control.senderAlive then
      ({ w with control := { w.control with outer := w.control.outer ++ [command] } },
        [.posted command])
    else (w, [])
  | .dropSender => ({ w with control := { w.control with senderAlive := false } }, [])
  | .forward => ({ w with control := w.control.forward }, [])
  | .work io => work cfg w io

/-- A relay whose answers are all as wished. -/
def answering : Io where
  now := 0
  dial := .ok ()
  setup := .ok ()
  write := .ok
  flush := .ok
  interest := .ok ()
  wait := .ok ⟨true⟩
  read := .blocked

/-- The first worker of a url, under the intervals the pool uses. -/
def steady (relayUrl : String) : Config := ⟨relayUrl, 1, 30000, 30000⟩

end RelayWorker
