import Mathlib.Data.List.Basic
import ShortReel.TransitionSystem

/-!
# The event log of the sessions

`append` and `append_user_entry`, transaction by transaction: a call reads the largest number of its
session, commits its rows under the two unique constraints of the table, and tries again or looks
its client key up when one of them is violated.
-/

namespace ShortReel.EventLog

def MAX_APPEND_RETRY : ℕ := 16

/-- A row of `agent_session_event_log`. `writer` names the call that stored it; no code reads it. -/
structure Row (Payload : Type) where
  session : String
  seq : ℕ
  payload : Payload
  clientKey : Option String
  writer : ℕ
  deriving DecidableEq

structure Authoritative (Payload : Type) where
  seq : ℕ
  payload : Payload
  deriving DecidableEq

inductive Call (Payload : Type) where
  | append (session : String) (entries : List Payload) (clientKey : Option String)
  | appendUserEntry (session : String) (entry : Payload) (clientKey : Option String)
  deriving DecidableEq

inductive Point (Payload : Type) where
  | lookingUp
  | reading (attempt : ℕ)
  | committing (attempt seqStart : ℕ)
  | resolving
  | returned (entries : List (Authoritative Payload))
  | raised
  deriving DecidableEq

structure World (Payload : Type) where
  rows : List (Row Payload)
  calls : ℕ → Option (Call Payload × Point Payload)

inductive Constraint where
  | primaryKey
  | clientKeyIndex
  deriving DecidableEq

/-- What the database answers to a commit; the answer to one that it has made may be lost. -/
inductive Answer where
  | stored
  | storedUnheard
  | violates (violated : Constraint)
  deriving DecidableEq

inductive Step (Payload : Type) where
  | begin (id : ℕ) (call : Call Payload)
  | lookUp (id : ℕ)
  | read (id : ℕ)
  | commit (id : ℕ) (answer : Answer)
  | resolve (id : ℕ)
  | fail (id : ℕ)

variable {Payload : Type}

def Row.authoritative (row : Row Payload) : Authoritative Payload :=
  ⟨row.seq, row.payload⟩

namespace Call

def session : Call Payload → String
  | append session _ _ => session
  | appendUserEntry session _ _ => session

def entries : Call Payload → List Payload
  | append _ entries _ => entries
  | appendUserEntry _ entry _ => [entry]

def clientKey : Call Payload → Option String
  | append _ _ clientKey => clientKey
  | appendUserEntry _ _ clientKey => clientKey

def storedKey (call : Call Payload) : Option String :=
  if call.entries.length = 1 then call.clientKey else none

def rowsOf (call : Call Payload) (writer seqStart : ℕ) : List Payload → List (Row Payload)
  | [] => []
  | payload :: rest =>
      ⟨call.session, seqStart, payload, call.storedKey, writer⟩ ::
        call.rowsOf writer (seqStart + 1) rest

/-- The rows that a call adds when it numbers its entries from `seqStart` on. -/
def batch (call : Call Payload) (writer seqStart : ℕ) : List (Row Payload) :=
  call.rowsOf writer seqStart call.entries

/-- An append of nothing returns at once, and a user entry with a key is looked up first. -/
def start : Call Payload → Point Payload
  | append _ entries _ => if entries.length = 0 then .returned [] else .reading 0
  | appendUserEntry _ _ none => .reading 0
  | appendUserEntry _ _ (some clientKey) => if clientKey = "" then .reading 0 else .lookingUp

end Call

/-- Whether a user entry counts as newly written: the entry returned has the uuid of the one given. -/
def created {Uuid : Type} [DecidableEq Uuid] (uuid : Payload → Uuid) (entry : Payload)
    (authoritative : Authoritative Payload) : Bool :=
  uuid authoritative.payload = uuid entry

def Constraint.refuses (old new : Row Payload) : Constraint → Prop
  | primaryKey => old.session = new.session ∧ old.seq = new.seq
  | clientKeyIndex =>
      old.session = new.session ∧ new.clientKey ≠ none ∧ old.clientKey = new.clientKey

instance (old new : Row Payload) (violated : Constraint) :
    Decidable (violated.refuses old new) := by
  cases violated
  · exact inferInstanceAs (Decidable (_ ∧ _))
  · exact inferInstanceAs (Decidable (_ ∧ _ ∧ _))

def Constraint.Violated (violated : Constraint) (rows batch : List (Row Payload)) : Prop :=
  ∃ old ∈ rows, ∃ new ∈ batch, violated.refuses old new

instance (violated : Constraint) (rows batch : List (Row Payload)) :
    Decidable (violated.Violated rows batch) :=
  inferInstanceAs (Decidable (∃ old ∈ rows, ∃ new ∈ batch, violated.refuses old new))

def Accepted (rows batch : List (Row Payload)) : Prop :=
  ¬ Constraint.primaryKey.Violated rows batch ∧ ¬ Constraint.clientKeyIndex.Violated rows batch

instance (rows batch : List (Row Payload)) : Decidable (Accepted rows batch) :=
  inferInstanceAs (Decidable (_ ∧ _))

namespace World

variable (world : World Payload)

def ofSession (session : String) : List (Row Payload) :=
  world.rows.filter (·.session = session)

def writtenBy (id : ℕ) : List (Row Payload) :=
  world.rows.filter (·.writer = id)

/-- `coalesce(max(seq), -1) + 1` over the rows of a session. -/
def nextSeq (session : String) : ℕ :=
  (world.ofSession session).foldl (fun next row => max next (row.seq + 1)) 0

def findByClientKey (session clientKey : String) : Option (Row Payload) :=
  world.rows.find? fun row => row.session = session ∧ row.clientKey = some clientKey

def goTo (id : ℕ) (call : Call Payload) (point : Point Payload) : World Payload :=
  { world with calls := Function.update world.calls id (some (call, point)) }

def store (id : ℕ) (call : Call Payload) (seqStart : ℕ) (point : Point Payload) : World Payload where
  rows := world.rows ++ call.batch id seqStart
  calls := Function.update world.calls id (some (call, point))

end World

def afterViolation (call : Call Payload) (attempt : ℕ) (violated : Constraint) : Point Payload :=
  if violated = .clientKeyIndex ∧ call.clientKey ≠ none then .resolving
  else if attempt = MAX_APPEND_RETRY - 1 then .raised
  else .reading (attempt + 1)

section Steps

variable (world : World Payload) (id : ℕ) (call : Call Payload)

/-- `find_by_client_key`, and where the call goes without a row of its key. -/
def lookUp (missing : Point Payload) : World Payload :=
  match call.clientKey.bind (world.findByClientKey call.session) with
  | some row => world.goTo id call (.returned [row.authoritative])
  | none => world.goTo id call missing

/-- The transaction of an attempt ends as the database answers; it can only answer what is so. -/
def commit (attempt seqStart : ℕ) : Answer → Option (World Payload)
  | .stored =>
      if Accepted world.rows (call.batch id seqStart) then
        some (world.store id call seqStart
          (.returned ((call.batch id seqStart).map Row.authoritative)))
      else none
  | .storedUnheard =>
      if Accepted world.rows (call.batch id seqStart) then
        some (world.store id call seqStart .raised)
      else none
  | .violates violated =>
      if violated.Violated world.rows (call.batch id seqStart) then
        some (world.goTo id call (afterViolation call attempt violated))
      else none

/-- One transaction of one call, or its failure; `none` where the call is not at that point. -/
def run : Step Payload → Option (World Payload)
  | .begin id call =>
      match world.calls id with
      | none => some (world.goTo id call call.start)
      | some _ => none
  | .lookUp id =>
      match world.calls id with
      | some (call, .lookingUp) => some (lookUp world id call (.reading 0))
      | _ => none
  | .read id =>
      match world.calls id with
      | some (call, .reading attempt) =>
          some (world.goTo id call (.committing attempt (world.nextSeq call.session)))
      | _ => none
  | .commit id answer =>
      match world.calls id with
      | some (call, .committing attempt seqStart) => commit world id call attempt seqStart answer
      | _ => none
  | .resolve id =>
      match world.calls id with
      | some (call, .resolving) => some (lookUp world id call .raised)
      | _ => none
  | .fail id =>
      match world.calls id with
      | none | some (_, .returned _) | some (_, .raised) => none
      | some (call, _) => some (world.goTo id call .raised)

end Steps

def appending (Payload : Type) : TransitionSystem (World Payload) (Step Payload) where
  initial world := world.rows = [] ∧ world.calls = fun _ => none
  step world step later := run world step = some later

end ShortReel.EventLog
