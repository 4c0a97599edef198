import ShortReel.TransitionSystem
import Mathlib.Data.Nat.Notation

/-!
# Session actors

`SessionActor` of `session_actor.py`: one task that owns a client, takes commands from a queue and reads the
frames of the client between them. A step is what runs between two awaits: of the actor's task, of the task
that gets the next command, or of a caller. What the client, its exit and the callbacks do is any.
-/

namespace ShortReel.SessionActors

/-- What is raised: errors of the actor itself, and those of the client and of the callbacks. -/
inductive Raised (E : Type) where
  | actorClosed
  | assertion
  | exception (error : E)
  -- no `Exception`, such as a cancellation
  | control (error : E)
  deriving DecidableEq, Repr

def Raised.isException {E : Type} : Raised E → Bool
  | .control _ => false
  | _ => true

/-- `type`, with what the commands of a type come with. -/
inductive CommandType (M : Type) where
  | query (message : Option M) (sessionId : String)
  | interrupt
  | cancel (messageUuid : Option String)
  | disconnect (interruptFirst : Bool)
  deriving DecidableEq, Repr

/-- `SessionCommand`; the number tells which call of `enqueue` has passed it. -/
structure SessionCommand (M : Type) where
  number : ℕ
  type : CommandType M
  deriving DecidableEq, Repr

inductive Item where
  | message
  | commandLifecycle
  deriving DecidableEq, Repr

/-- The task of `self._cmd_queue.get()`. -/
inductive GetTask (M : Type) where
  -- new or woken up: it looks into the queue when it runs
  | ready
  -- it found the queue empty and waits for a put
  | blocked
  | took (command : SessionCommand M)
  -- cancelled, which it notices when it runs, without a look into the queue
  | cancelling
  | cancelled
  deriving DecidableEq, Repr

inductive ReadTask (E : Type) where
  | reading
  | read (result : Except (Raised E) Item)

inductive Phase (M E : Type) where
  | idle
  -- `start` has created the task, which has not run yet
  | created
  | entering
  -- at `asyncio.wait`
  | waiting
  -- the client has been called for a command
  | awaiting (command : SessionCommand M)
  | exiting (raised : Option (Raised E))
  | finished

structure State (M E : Type) where
  phase : Phase M E := .idle
  cmdQueue : List (SessionCommand M) := []
  cmdTask : Option (GetTask M) := none
  msgTask : Option (ReadTask E) := none
  fatal : Option (Raised E) := none
  /-- The commands ever passed to `enqueue`. -/
  enqueued : List (SessionCommand M) := []
  /-- The commands `client.query` has been called for. -/
  sent : List (SessionCommand M) := []
  /-- The calls of `complete`, with the errors they set. -/
  completed : List (ℕ × Option (Raised E)) := []
  /-- The answers to cancel commands. -/
  cancelled : List (ℕ × Bool) := []

variable {M E : Type}

namespace State

def complete (s : State M E) (command : SessionCommand M) (error : Option (Raised E)) : State M E :=
  { s with completed := s.completed ++ [(command.number, error)] }

/-- `done.is_set()`. -/
def isDone (s : State M E) (command : SessionCommand M) : Bool :=
  command.number ∈ s.completed.map Prod.fst

def wakeUp : GetTask M → GetTask M
  | .blocked => .ready
  | task => task

/-- The command that a call of `enqueue` passes. -/
def passed (s : State M E) (type : CommandType M) : SessionCommand M where
  number := s.enqueued.length
  type

/-- `enqueue`. The queue has no bound, so that a put does not wait. -/
def enqueue (s : State M E) (type : CommandType M) : State M E :=
  let command := s.passed type
  let s := { s with enqueued := s.enqueued ++ [command] }
  match s.phase with
  | .finished => s.complete command (some (s.fatal.getD .actorClosed))
  | _ => { s with cmdQueue := s.cmdQueue ++ [command], cmdTask := s.cmdTask.map wakeUp }

def get (s : State M E) : Option (State M E) :=
  match s.cmdTask with
  | some .ready =>
      match s.cmdQueue with
      | [] => some { s with cmdTask := some .blocked }
      | command :: rest => some { s with cmdTask := some (.took command), cmdQueue := rest }
  | some .cancelling => some { s with cmdTask := some .cancelled }
  | _ => none

def release (error : Raised E) (s : State M E) (command : SessionCommand M) : State M E :=
  if s.isDone command then s else s.complete command (some error)

def drainPendingCommands (s : State M E) (error : Raised E) : State M E :=
  s.cmdQueue.foldl (release error) { s with cmdQueue := [] }

def arm (s : State M E) : State M E :=
  { s with
    cmdTask := some (s.cmdTask.getD .ready)
    msgTask := some (s.msgTask.getD .reading)
    phase := .waiting }

def leaveLoop (s : State M E) (raised : Option (Raised E)) : State M E :=
  let s := { s with msgTask := none, phase := .exiting raised }
  match s.cmdTask with
  | some .ready | some .blocked => { s with cmdTask := some .cancelling }
  | some (.took command) => { s.complete command (some .actorClosed) with cmdTask := none }
  | _ => s

/-- What ends the loop when the actor takes a message: the reading or the callback has raised. -/
def failure (listens : Bool) (s : State M E) (callback : Option (Raised E)) : Option (Raised E) :=
  match s.msgTask with
  | some (.read (.error error)) => some error
  | some (.read (.ok .message)) => callback
  | some (.read (.ok .commandLifecycle)) => if listens then callback else none
  | _ => none

def take (s : State M E) : State M E :=
  match s.msgTask with
  | some (.read _) => { s with msgTask := none }
  | _ => s

def dispatch (s : State M E) (command : SessionCommand M) : State M E :=
  match command.type with
  | .disconnect true => { s with phase := .awaiting command }
  | .disconnect false => (s.complete command none).leaveLoop none
  | .interrupt => { s with phase := .awaiting command }
  | .query (some _) _ => { s with sent := s.sent ++ [command], phase := .awaiting command }
  | .cancel (some _) => { s with phase := .awaiting command }
  -- the assertions of `_send_query` and `_cancel_message`
  | .query none _ => s.leaveLoop (some .assertion)
  | .cancel none => s.leaveLoop (some .assertion)

/-- The actor goes on behind `asyncio.wait`, when one of the two tasks is done. -/
def wake (listens : Bool) (s : State M E) (callback : Option (Raised E)) : State M E :=
  match s.failure listens callback with
  | some error => s.leaveLoop (some error)
  | none =>
      match s.cmdTask with
      | some (.took command) => { s.take with cmdTask := none }.dispatch command
      | _ => s.take.arm

/-- `client.interrupt()` of an interrupt has come back. -/
def interrupted (s : State M E) (command : SessionCommand M) : Except (Raised E) Bool → State M E
  | .ok _ => (s.complete command none).arm
  | .error error =>
      (s.complete command (if error.isException then some error else none)).leaveLoop (some error)

/-- `client.interrupt()` of a disconnect has come back. -/
def disconnected (s : State M E) (command : SessionCommand M) : Except (Raised E) Bool → State M E
  | .ok _ => (s.complete command none).leaveLoop none
  | .error error => (s.complete command none).leaveLoop (some error)

/-- The rest of `_send_query`. -/
def querySent (s : State M E) (command : SessionCommand M) : Except (Raised E) Bool → State M E
  | .ok _ => (s.complete command none).arm
  | .error error => (s.complete command (some error)).leaveLoop (some error)

/-- The rest of `_cancel_message`. -/
def messageCancelled (s : State M E) (command : SessionCommand M) : Except (Raised E) Bool → State M E
  | .ok answer =>
      ({ s with cancelled := s.cancelled ++ [(command.number, answer)] }.complete command none).arm
  | .error error =>
      if error.isException then (s.complete command (some error)).arm
      else (s.complete command (some .actorClosed)).leaveLoop (some error)

def answered (s : State M E) (command : SessionCommand M) (answer : Except (Raised E) Bool) : State M E :=
  match command.type with
  | .query _ _ => s.querySent command answer
  | .interrupt => s.interrupted command answer
  | .cancel _ => s.messageCancelled command answer
  | .disconnect _ => s.disconnected command answer

/-- The end of `_run`. -/
def finish (s : State M E) (fatal : Option (Raised E)) : State M E :=
  { { s with fatal }.drainPendingCommands (fatal.getD .actorClosed) with phase := .finished }

end State

inductive Exit (E : Type) where
  | returned (suppresses : Bool)
  | raised (error : Raised E)

def Exit.fatal : Exit E → Option (Raised E) → Option (Raised E)
  | .returned true, _ => none
  | .returned false, left => left
  | .raised error, _ => some error

inductive Step (M E : Type) where
  | start
  | enqueue (type : CommandType M)
  /-- The task is cancelled before it runs for the first time, so that nothing of `_run` runs. -/
  | cancelUnstarted
  | begin
  | entered (result : Except (Raised E) Unit)
  | get
  | read (result : Except (Raised E) Item)
  | wake (callback : Option (Raised E))
  /-- An error raised at `asyncio.wait`: the actor's task has been cancelled there. -/
  | cancelWait (error : Raised E)
  | answered (answer : Except (Raised E) Bool)
  | exited (exit : Exit E)

/-- Whether `asyncio.wait` has something to return. -/
def State.isWoken (s : State M E) : Bool :=
  match s.cmdTask, s.msgTask with
  | some (.took _), _ => true
  | _, some (.read _) => true
  | _, _ => false

def next (listens : Bool) (s : State M E) : Step M E → Option (State M E)
  | .start => match s.phase with
      | .idle => some { s with phase := .created }
      | _ => none
  | .enqueue type => some (s.enqueue type)
  | .cancelUnstarted => match s.phase with
      | .created => some { s with phase := .finished }
      | _ => none
  | .begin => match s.phase with
      | .created => some { s with phase := .entering }
      | _ => none
  | .entered result => match s.phase, result with
      | .entering, .ok () => some s.arm
      | .entering, .error error => some (s.finish (some error))
      | _, _ => none
  | .get => s.get
  | .read result => match s.msgTask with
      | some .reading => some { s with msgTask := some (.read result) }
      | _ => none
  | .wake callback => match s.phase with
      | .waiting => if s.isWoken then some (s.wake listens callback) else none
      | _ => none
  | .cancelWait error => match s.phase with
      | .waiting => some (s.leaveLoop (some error))
      | _ => none
  | .answered answer => match s.phase with
      | .awaiting command => some (s.answered command answer)
      | _ => none
  | .exited exit => match s.phase with
      | .exiting raised => some (s.finish (exit.fatal raised))
      | _ => none

def actor (listens : Bool) : TransitionSystem (State M E) (Step M E) where
  initial s := s = {}
  step s step later := next listens s step = some later

end ShortReel.SessionActors
