import NostrMultiPlatform.RelayWorker

/-!
# The reconnect preamble

A session should hand the socket the preamble first, each frame once, and the sends
after it in the order they were submitted. The texts of a run are attributed to the
preamble or to a send; the worker itself keeps one queue for both.
-/
namespace RelayPreamble

open Runs Transducers RelayProtocol RelayWorker

/-- The preamble that was registered last when the socket opened, and what the socket was handed. -/
structure Session where
  preamble : List String
  handed : List String
  deriving DecidableEq, Repr

/-- A history, read as sessions; the current one is empty before the first. -/
structure Tally where
  sent : List String
  preamble : List String
  past : List Session
  current : Session
  deriving DecidableEq, Repr

def Tally.add (t : Tally) : Mark → Tally
  | .posted (.send text) => { t with sent := t.sent ++ [text] }
  | .posted (.setReconnectPreamble frames) => { t with preamble := frames }
  | .event (.connected _ _) =>
    { t with past := t.past ++ [t.current], current := ⟨t.preamble, []⟩ }
  | .handed text => { t with current := { t.current with handed := t.current.handed ++ [text] } }
  | _ => t

def Tally.read (t : Tally) (marks : List Mark) : Tally := marks.foldl Tally.add t

def tally (marks : List Mark) : Tally := Tally.read ⟨[], [], [], ⟨[], []⟩⟩ marks

/-- The session handed over these sends, after the whole preamble if there are any. -/
def Session.InOrder (s : Session) (sends : List String) : Prop :=
  ∃ injected, s.handed = injected ++ sends ∧ injected <+: s.preamble ∧
    (sends ≠ [] → injected = s.preamble)

/-- The commands that the worker has not taken yet. -/
def queue (w : Worker) : List RelayCommand := w.control.inbox ++ w.control.outer

/-- The texts among the commands. -/
def sendsOf (commands : List RelayCommand) : List String :=
  commands.filterMap fun
    | .send text => some text
    | _ => none

/-- The preamble once the commands have been taken. -/
def registered (preamble : List String) (commands : List RelayCommand) : List String :=
  commands.foldl (fun preamble command =>
    match command with
    | .setReconnectPreamble frames => frames
    | _ => preamble) preamble

/-- Every session hands over the preamble first and once; each send goes out in one session at
most, in the order of submission, or is still queued; and the queue holds what is left of at most
one copy of the preamble, in front. -/
def PreambleFirst (w : Worker) (marks : List Mark) : Prop :=
  ∃ pastSends currentSends owed queued,
    List.Forall₂ Session.InOrder (tally marks).past pastSends ∧
    (tally marks).current.InOrder currentSends ∧
    w.pending = owed ++ queued ∧ owed <:+ (tally marks).current.preamble ∧
    (tally marks).sent = pastSends.flatten ++ currentSends ++ queued ++ sendsOf (queue w)

/-- A mark that concerns neither the preamble nor a text. -/
def Silent (mark : Mark) : Prop :=
  ∃ event, mark = .event event ∧ ∀ u g, event ≠ .connected u g

/-- What taking a command does to the queue and the preamble. -/
def absorb (pending preamble : List String) : RelayCommand → List String × List String
  | .send text => (pending ++ [text], preamble)
  | .setReconnectPreamble frames => (pending, frames)
  | _ => (pending, preamble)

variable (cfg : Config)

inductive Moves (w : Worker) (input : Input) : Worker → List Mark → Prop
  | post (w' : Worker) (command : RelayCommand) (hpending : w'.pending = w.pending)
      (hpreamble : w'.preamble = w.preamble) (hqueue : queue w' = queue w ++ [command]) :
      Moves w input w' [.posted command]
  | take (w' : Worker) (marks : List Mark) (command : RelayCommand)
      (hqueue : queue w = command :: queue w')
      (habsorb : (w'.pending, w'.preamble) = absorb w.pending w.preamble command)
      (hsilent : ∀ mark ∈ marks, Silent mark) : Moves w input w' marks
  | opens (w' : Worker) (io : Io) (hinput : input = .work io) (hphase : w.phase = .dialing)
      (hdial : io.dial = .ok ()) (hpending : w'.pending = w.preamble ++ w.pending)
      (hpreamble : w'.preamble = w.preamble) (hqueue : queue w' = queue w) :
      Moves w input w' [.event (.connected cfg.relayUrl cfg.generation)]
  | hands (w' : Worker) (text : String) (hpending : w.pending = text :: w'.pending)
      (hpreamble : w'.preamble = w.preamble) (hqueue : queue w' = queue w) :
      Moves w input w' [.handed text]
  | quiet (w' : Worker) (marks : List Mark) (hpending : w'.pending = w.pending)
      (hpreamble : w'.preamble = w.preamble) (hqueue : queue w' = queue w)
      (hsilent : ∀ mark ∈ marks, Silent mark) : Moves w input w' marks

theorem silent_nil : ∀ mark ∈ ([] : List Mark), Silent mark := fun _ h => absurd h List.not_mem_nil

theorem silent_failure (error : String) : ∀ mark ∈ [failure cfg error], Silent mark := by
  intro mark hmem
  rw [List.mem_singleton.mp hmem]
  exact ⟨_, rfl, nofun⟩

theorem silent_closed :
    ∀ mark ∈ [Mark.event (.closed cfg.relayUrl cfg.generation)], Silent mark := by
  intro mark hmem
  rw [List.mem_singleton.mp hmem]
  exact ⟨_, rfl, nofun⟩

variable {count : Nat} {t : Tally} (w : Worker) (input : Input)

theorem moves_drop (error : String) : Moves cfg w input (drop cfg w error).1 (drop cfg w error).2 :=
  .quiet _ _ rfl rfl rfl (silent_failure cfg error)

theorem moves_dial {w : Worker} {io : Io} (hphase : w.phase = .dialing) :
    Moves cfg w (.work io) (dial cfg w io).1 (dial cfg w io).2 := by
  unfold dial
  split
  next hdial => exact .opens _ io rfl hphase hdial rfl rfl rfl
  next error _ => exact .quiet _ _ rfl rfl rfl (silent_failure cfg error)

theorem moves_wait (deadline : Nat) (w : Worker) (io : Io) (input : Input) :
    Moves cfg w input (waitBeforeReconnect deadline w io) [] := by
  unfold waitBeforeReconnect
  split
  · exact .quiet _ _ rfl rfl rfl silent_nil
  · split
    · split
      · exact .quiet _ _ rfl rfl rfl silent_nil
      · exact .quiet _ _ rfl rfl rfl silent_nil
    next command rest hinbox =>
      have hqueue : queue w = command :: (rest ++ w.control.outer) := by
        rw [queue, hinbox, List.cons_append]
      cases command <;> exact .take _ _ _ hqueue rfl silent_nil

theorem moves_drain : Moves cfg w input (drainPending cfg w).1 (drainPending cfg w).2 := by
  unfold drainPending
  split
  · split
    · exact .quiet _ _ rfl rfl rfl (silent_closed cfg)
    · exact .quiet _ _ rfl rfl rfl silent_nil
  next command rest hinbox =>
    have hqueue : queue w = command :: (rest ++ w.control.outer) := by
      rw [queue, hinbox, List.cons_append]
    cases command with
    | send | setBackoffHint | setReconnectPreamble => exact .take _ _ _ hqueue rfl silent_nil
    | shutdown => exact .take _ _ _ hqueue rfl (silent_closed cfg)

theorem moves_write (io : Io) (input : Input) :
    Moves cfg w input (writeNext cfg w io).1 (writeNext cfg w io).2 := by
  unfold writeNext
  split
  · exact .quiet _ _ rfl rfl rfl silent_nil
  next text rest hpending =>
    split
    · exact .hands _ text hpending rfl rfl
    · exact .hands _ text hpending rfl rfl
    · exact moves_drop cfg w input _

theorem moves_setWantsWrite (wantsWrite : Bool) (next : Phase) (w : Worker) (io : Io)
    (input : Input) :
    Moves cfg w input (setWantsWrite cfg wantsWrite next w io).1
      (setWantsWrite cfg wantsWrite next w io).2 := by
  unfold setWantsWrite
  split
  · exact .quiet _ _ rfl rfl rfl silent_nil
  · split
    · exact .quiet _ _ rfl rfl rfl silent_nil
    · exact moves_drop cfg w input _

theorem moves_read (io : Io) (input : Input) :
    Moves cfg w input (drainReads cfg w io).1 (drainReads cfg w io).2 := by
  unfold drainReads
  split
  next message _ =>
    refine .quiet _ _ rfl rfl rfl fun mark hmem => ?_
    dsimp only at hmem
    split at hmem
    · exact absurd hmem List.not_mem_nil
    · rw [List.mem_singleton.mp hmem]
      exact ⟨_, rfl, nofun⟩
  · exact .quiet _ _ rfl rfl rfl silent_nil
  next error _ => exact .quiet _ _ rfl rfl rfl (silent_failure cfg error)

theorem moves_step : Moves cfg w input (step cfg w input).1 (step cfg w input).2 := by
  cases input with
  | post command =>
    simp only [step]
    split
    · exact .post _ command rfl rfl (List.append_assoc _ _ _).symm
    · exact .quiet _ _ rfl rfl rfl silent_nil
  | dropSender => exact .quiet _ _ rfl rfl rfl silent_nil
  | forward =>
    refine .quiet _ _ rfl rfl ?_ silent_nil
    simp only [step, queue, Control.forward]
    split
    next command rest houter => simp [houter]
    · split <;> rfl
  | work io =>
    simp only [step, work]
    cases hphase : w.phase with
    | dialing => exact moves_dial cfg hphase
    | refused | leaving | ended => exact .quiet _ _ rfl rfl rfl silent_nil
    | setup =>
      dsimp only
      unfold setUp
      split
      · exact .quiet _ _ rfl rfl rfl silent_nil
      · exact moves_drop cfg w _ _
    | draining => exact moves_drain cfg w _
    | writing => exact moves_write cfg w io _
    | flushing =>
      dsimp only
      unfold flushSocket
      split <;> exact .quiet _ _ rfl rfl rfl silent_nil
    | updating | updatingAgain => exact moves_setWantsWrite cfg _ _ w io _
    | keepalive =>
      dsimp only
      unfold stepKeepalive
      split
      · exact .quiet _ _ rfl rfl rfl silent_nil
      · exact .quiet _ _ rfl rfl rfl silent_nil
      · exact moves_drop cfg w _ _
    | pinging =>
      dsimp only
      unfold writePing
      split
      · exact .quiet _ _ rfl rfl rfl silent_nil
      · exact .quiet _ _ rfl rfl rfl silent_nil
      · exact moves_drop cfg w _ _
    | pingFlushing =>
      dsimp only
      unfold flushPing
      split
      · exact .quiet _ _ rfl rfl rfl silent_nil
      · exact .quiet _ _ rfl rfl rfl silent_nil
      · exact moves_drop cfg w _ _
    | polling =>
      dsimp only
      unfold poll
      split
      · exact moves_drop cfg w _ _
      · exact .quiet _ _ rfl rfl rfl silent_nil
    | reading => exact moves_read cfg w io _
    | waiting deadline => exact moves_wait cfg deadline w io _

/-- How many frames in front of the queue are what is left of preambles. -/
def owed (w : Worker) (count : Nat) : List Mark → Nat
  | [.event (.connected _ _)] => w.preamble.length + count
  | [.handed _] => count - 1
  | _ => count

def registers : RelayCommand → Bool
  | .setReconnectPreamble _ => true
  | _ => false

/-- A socket opens only when the last preamble has been handed over whole and no registration is
on its way. -/
def Settled (s : Worker × Nat) : Input → Prop
  | .work io => s.1.phase = .dialing → io.dial = .ok () →
      s.2 = 0 ∧ ∀ command ∈ queue s.1, registers command = false
  | _ => True

instance (s : Worker × Nat) (input : Input) : Decidable (Settled s input) :=
  match input with
  | .work _ => inferInstanceAs (Decidable (_ → _ → _ ∧ _))
  | .post _ | .dropSender | .forward => .isTrue trivial

structure Attribution (w : Worker) (count : Nat) (t : Tally) (pastSends : List (List String))
    (currentSends injected left queued : List String) : Prop where
  past : List.Forall₂ Session.InOrder t.past pastSends
  handed : t.current.handed = injected ++ currentSends
  split : injected ++ left = t.current.preamble
  first : currentSends ≠ [] → left = []
  pending : w.pending = left ++ queued
  count : left.length = count
  sent : t.sent = pastSends.flatten ++ currentSends ++ queued ++ sendsOf (queue w)
  preamble : t.preamble = registered w.preamble (queue w)

def Attributed (w : Worker) (count : Nat) (t : Tally) : Prop :=
  ∃ pastSends currentSends injected left queued,
    Attribution w count t pastSends currentSends injected left queued

theorem Attribution.current {w : Worker} {pastSends : List (List String)}
    {currentSends injected left queued : List String}
    (h : Attribution w count t pastSends currentSends injected left queued) :
    t.current.InOrder currentSends := by
  refine ⟨injected, h.handed, ⟨left, h.split⟩, fun hne => ?_⟩
  rw [← h.split, h.first hne, List.append_nil]

theorem read_silent (t : Tally) {marks : List Mark} (h : ∀ mark ∈ marks, Silent mark) :
    t.read marks = t := by
  induction marks with
  | nil => rfl
  | cons mark _ ih =>
    obtain ⟨hmark, hmarks⟩ := List.forall_mem_cons.mp h
    have hadd : t.add mark = t := by
      obtain ⟨event, rfl, hevent⟩ := hmark
      cases event with
      | connected u g => exact absurd rfl (hevent u g)
      | failed | closed | message => rfl
    rw [Tally.read, List.foldl_cons, hadd]
    exact ih hmarks

theorem owed_silent (count : Nat) {marks : List Mark} (h : ∀ mark ∈ marks, Silent mark) :
    owed w count marks = count := by
  unfold owed
  split
  · obtain ⟨event, heq, hevent⟩ := h _ List.mem_cons_self
    injection heq with heq
    exact absurd heq.symm (hevent _ _)
  · obtain ⟨event, heq, -⟩ := h _ List.mem_cons_self
    cases heq
  · rfl

theorem sendsOf_append (xs ys : List RelayCommand) :
    sendsOf (xs ++ ys) = sendsOf xs ++ sendsOf ys := List.filterMap_append

theorem registered_append (preamble : List String) (xs ys : List RelayCommand) :
    registered preamble (xs ++ ys) = registered (registered preamble xs) ys :=
  List.foldl_append

/-- Without a registration on its way the preamble is the worker's. -/
theorem registered_none {preamble : List String} {commands : List RelayCommand}
    (h : ∀ command ∈ commands, registers command = false) :
    registered preamble commands = preamble := by
  induction commands generalizing preamble with
  | nil => rfl
  | cons command commands ih =>
    obtain ⟨hhead, htail⟩ := List.forall_mem_cons.mp h
    have hrest : registered preamble commands = preamble := ih htail
    cases command with
    | setReconnectPreamble => cases hhead
    | send | shutdown | setBackoffHint => exact hrest

theorem attributed_post {w w' : Worker} {command : RelayCommand} (h : Attributed w count t)
    (hpending : w'.pending = w.pending) (hpreamble : w'.preamble = w.preamble)
    (hqueue : queue w' = queue w ++ [command]) : Attributed w' count (t.add (.posted command)) := by
  obtain ⟨pastSends, currentSends, injected, left, queued, h⟩ := h
  have hsent := h.sent
  have hregistered := h.preamble
  refine ⟨pastSends, currentSends, injected, left, queued, ?_⟩
  cases command with
  | send =>
    refine ⟨h.past, h.handed, h.split, h.first, hpending.trans h.pending, h.count, ?_, ?_⟩
    · rw [hqueue, sendsOf_append, ← List.append_assoc, ← hsent]
      rfl
    · rw [hqueue, registered_append, hpreamble, ← hregistered]
      rfl
  | setReconnectPreamble =>
    refine ⟨h.past, h.handed, h.split, h.first, hpending.trans h.pending, h.count, ?_, ?_⟩
    · rw [hqueue, sendsOf_append, ← List.append_assoc, ← hsent]
      exact (List.append_nil _).symm
    · rw [hqueue, registered_append]
      rfl
  | shutdown | setBackoffHint =>
    refine ⟨h.past, h.handed, h.split, h.first, hpending.trans h.pending, h.count, ?_, ?_⟩
    · rw [hqueue, sendsOf_append, ← List.append_assoc, ← hsent]
      exact (List.append_nil _).symm
    · rw [hqueue, registered_append, hpreamble, ← hregistered]
      rfl

theorem attributed_take {w w' : Worker} {command : RelayCommand} (h : Attributed w count t)
    (hqueue : queue w = command :: queue w')
    (habsorb : (w'.pending, w'.preamble) = absorb w.pending w.preamble command) :
    Attributed w' count t := by
  obtain ⟨pastSends, currentSends, injected, left, queued, h⟩ := h
  obtain ⟨hpending, hpreamble⟩ := Prod.mk.inj habsorb
  have hsent := h.sent
  have hregistered := h.preamble
  rw [hqueue] at hsent hregistered
  cases command with
  | send text =>
    refine ⟨pastSends, currentSends, injected, left, queued ++ [text], h.past, h.handed, h.split,
      h.first, ?_, h.count, ?_, ?_⟩
    · rw [hpending, h.pending]
      exact List.append_assoc _ _ _
    · rw [hsent, ← List.append_assoc _ queued, List.append_assoc (_ ++ queued)]
      rfl
    · rw [hregistered, hpreamble]
      rfl
  | setReconnectPreamble | shutdown | setBackoffHint =>
    exact ⟨pastSends, currentSends, injected, left, queued, h.past, h.handed, h.split, h.first,
      hpending.trans h.pending, h.count, hsent, hregistered.trans (hpreamble ▸ rfl)⟩

/-- With nothing left of the last preamble a new session starts with its own. -/
theorem attributed_open {w w' : Worker} (u : String) (g : Nat) (h : Attributed w 0 t)
    (hnone : ∀ command ∈ queue w, registers command = false)
    (hpending : w'.pending = w.preamble ++ w.pending) (hpreamble : w'.preamble = w.preamble)
    (hqueue : queue w' = queue w) :
    Attributed w' w.preamble.length (t.add (.event (.connected u g))) := by
  obtain ⟨pastSends, currentSends, injected, left, queued, h⟩ := h
  have hleft : left = [] := List.length_eq_zero_iff.mp h.count
  have hregistered : t.preamble = w.preamble := h.preamble.trans (registered_none hnone)
  refine ⟨pastSends ++ [currentSends], [], [], w.preamble, queued, ?_⟩
  refine ⟨List.rel_append h.past (.cons h.current .nil), rfl, hregistered.symm,
    fun hne => absurd rfl hne, ?_, rfl, ?_, ?_⟩
  · rw [hpending, h.pending, hleft]
    rfl
  · rw [hqueue, List.flatten_append, List.append_nil]
    change t.sent = _
    rw [h.sent]
    simp
  · rw [hqueue, hpreamble]
    exact h.preamble

theorem attributed_hand {w w' : Worker} {text : String} (h : Attributed w count t)
    (hpending : w.pending = text :: w'.pending) (hpreamble : w'.preamble = w.preamble)
    (hqueue : queue w' = queue w) : Attributed w' (count - 1) (t.add (.handed text)) := by
  obtain ⟨pastSends, currentSends, injected, left, queued, h⟩ := h
  have hboth := h.pending.symm.trans hpending
  have hlast : t.preamble = registered w'.preamble (queue w') := by
    rw [hqueue, hpreamble]
    exact h.preamble
  cases left with
  | nil =>
    obtain rfl : queued = text :: w'.pending := hboth
    refine ⟨pastSends, currentSends ++ [text], injected, [], w'.pending, h.past, ?_, h.split,
      fun _ => rfl, rfl, ?_, ?_, hlast⟩
    · change t.current.handed ++ [text] = _
      rw [h.handed, List.append_assoc]
    · rw [← h.count]
      rfl
    · change t.sent = _
      rw [h.sent, hqueue]
      simp
  | cons frame left =>
    obtain ⟨rfl, hrest⟩ := List.cons.inj hboth
    have hnone : currentSends = [] := by
      by_contra hne
      cases h.first hne
    subst hnone
    refine ⟨pastSends, [], injected ++ [frame], left, queued, h.past, ?_, ?_,
      fun hne => absurd rfl hne, hrest.symm, ?_, ?_, hlast⟩
    · change t.current.handed ++ [frame] = _
      rw [h.handed, List.append_nil, List.append_nil]
    · rw [List.append_assoc]
      exact h.split
    · rw [← h.count]
      rfl
    · change t.sent = _
      rw [h.sent, hqueue]

theorem attributed_step {w : Worker} {input : Input} (h : Attributed w count t)
    (hok : Settled (w, count) input) :
    Attributed (step cfg w input).1 (owed w count (step cfg w input).2)
      (t.read (step cfg w input).2) := by
  generalize hw' : (step cfg w input).1 = w'
  generalize hmarks : (step cfg w input).2 = marks
  have hmoves := moves_step cfg w input
  rw [hw', hmarks] at hmoves
  cases hmoves with
  | post _ hpending hpreamble hqueue => exact attributed_post h hpending hpreamble hqueue
  | take _ _ hqueue habsorb hsilent =>
    rw [owed_silent w count hsilent, read_silent t hsilent]
    exact attributed_take h hqueue habsorb
  | opens _ hinput hphase hdial hpending hpreamble hqueue =>
    subst hinput
    obtain ⟨hzero, hnone⟩ := hok hphase hdial
    obtain rfl : count = 0 := hzero
    exact attributed_open cfg.relayUrl cfg.generation h hnone hpending hpreamble hqueue
  | hands _ hpending hpreamble hqueue => exact attributed_hand h hpending hpreamble hqueue
  | quiet _ hpending hpreamble hqueue hsilent =>
    rw [owed_silent w count hsilent, read_silent t hsilent]
    obtain ⟨pastSends, currentSends, injected, left, queued, h⟩ := h
    refine ⟨pastSends, currentSends, injected, left, queued, h.past, h.handed, h.split, h.first,
      hpending.trans h.pending, h.count, ?_, ?_⟩
    · rw [hqueue]
      exact h.sent
    · rw [hqueue, hpreamble]
      exact h.preamble

/-- In every run whose sockets all open settled, the preamble comes first and once. -/
theorem preamble_first (inputs : List Input)
    (hmeets : Meets (fun s input => (shadowed (step cfg) owed s input).1) Settled (spawn, 0) inputs) :
    PreambleFirst (after (step cfg) spawn inputs) (emitted (step cfg) spawn inputs) := by
  have hwatch := (meets_watch _ Settled (spawn, 0) [] inputs).mpr hmeets
  have hrun := run_invariant (fun s => Attributed s.1.1 s.1.2 (tally s.2))
    (fun s input hs hok => ?_) ?_ hwatch
  · rw [run_watch, List.nil_append, (run_shadowed _ owed spawn 0 inputs).1,
      (run_shadowed _ owed spawn 0 inputs).2] at hrun
    obtain ⟨pastSends, currentSends, injected, left, queued, h⟩ := hrun
    exact ⟨pastSends, currentSends, left, queued, h.past, h.current, h.pending,
      ⟨injected, h.split⟩, h.sent⟩
  · have hread : tally (watch (shadowed (step cfg) owed) s input).2 =
        (tally s.2).read (step cfg s.1.1 input).2 := List.foldl_append
    rw [hread]
    exact attributed_step cfg hs hok
  · exact ⟨[], [], [], [], [], .nil, rfl, rfl, fun _ => rfl, rfl, rfl, rfl, rfl⟩

/-- A socket that opens, in a session that cannot be set up, and the wait after it. -/
def flap : List Input :=
  [.work answering, .work { answering with setup := .error "too many open files" },
    .work answering]

/-- The preamble is registered while the worker waits. -/
def register : List Input :=
  [.post (.setReconnectPreamble ["REQ"]), .forward, .work answering,
    .work { answering with now := 20000 }]

theorem preamble_first_registered :
    PreambleFirst
      (after (step (steady "wss://r.example")) spawn
        (flap ++ register ++ [.work answering, .work answering, .work answering, .work answering]))
      (emitted (step (steady "wss://r.example")) spawn
        (flap ++ register ++ [.work answering, .work answering, .work answering, .work answering])) :=
  preamble_first (steady "wss://r.example") _ (by decide +kernel)

/-- A session that drops before the preamble is out leaves its copy in the queue of the next. -/
theorem flapping_doubles :
    ¬ PreambleFirst
      (after (step (steady "wss://r.example")) spawn
        (flap ++ register ++ flap ++ [.work { answering with now := 20000 }, .work answering]))
      (emitted (step (steady "wss://r.example")) spawn
        (flap ++ register ++ flap ++ [.work { answering with now := 20000 }, .work answering])) := by
  rintro ⟨pastSends, currentSends, left, queued, -, -, hpending, hleft, hsent⟩
  generalize hw : after (step (steady "wss://r.example")) spawn
    (flap ++ register ++ flap ++ [.work { answering with now := 20000 }, .work answering]) = w at *
  have htwo : w.pending = ["REQ", "REQ"] := by
    subst hw
    decide +kernel
  have hone : (tally (emitted (step (steady "wss://r.example")) spawn
      (flap ++ register ++ flap ++
        [.work { answering with now := 20000 }, .work answering]))).current.preamble = ["REQ"] := by
    decide +kernel
  have hnone : (tally (emitted (step (steady "wss://r.example")) spawn
      (flap ++ register ++ flap ++
        [.work { answering with now := 20000 }, .work answering]))).sent = [] := by
    decide +kernel
  rw [hnone] at hsent
  have hqueued : queued = [] := by
    have hlength := congrArg List.length hsent
    simp only [List.length_nil, List.length_append] at hlength
    exact List.length_eq_zero_iff.mp (by omega)
  have hlength := congrArg List.length hpending
  rw [htwo, hqueued, List.append_nil] at hlength
  have hle := hleft.length_le
  rw [hone] at hle
  simp at hlength hle
  omega

/-- A registration that waits in the inbox while the worker dials, and a send behind it. -/
def early : List Input :=
  [.post (.setReconnectPreamble ["REQ"]), .post (.send "EVENT"), .forward, .forward,
    .work answering, .work answering, .work answering, .work answering, .work answering,
    .work answering]

/-- The first session hands over the send without the preamble registered before it. -/
theorem early_registration_missed :
    ¬ PreambleFirst (after (step (steady "wss://r.example")) spawn early)
      (emitted (step (steady "wss://r.example")) spawn early) := by
  rintro ⟨-, currentSends, -, -, -, ⟨injected, hhanded, hinjected, hfirst⟩, -⟩
  have hcurrent : (tally (emitted (step (steady "wss://r.example")) spawn early)).current =
      ⟨["REQ"], ["EVENT"]⟩ := by decide +kernel
  rw [hcurrent] at hhanded hinjected hfirst
  dsimp only at hhanded hinjected hfirst
  by_cases hnone : currentSends = []
  · rw [hnone, List.append_nil] at hhanded
    rw [← hhanded] at hinjected
    exact absurd hinjected (by decide)
  · rw [hfirst hnone] at hhanded
    exact absurd (List.cons.inj hhanded).1 (by decide)

theorem preamble_missed_or_doubled :
    ¬ PreambleFirst (after (step (steady "wss://r.example")) spawn early)
      (emitted (step (steady "wss://r.example")) spawn early) ∧
    ¬ PreambleFirst
      (after (step (steady "wss://r.example")) spawn
        (flap ++ register ++ flap ++ [.work { answering with now := 20000 }, .work answering]))
      (emitted (step (steady "wss://r.example")) spawn
        (flap ++ register ++ flap ++ [.work { answering with now := 20000 }, .work answering])) :=
  ⟨early_registration_missed, flapping_doubles⟩

end RelayPreamble
