import ShortReel.PrefixFork
import ShortReel.TransitionSystem
import Mathlib.Data.List.Sort

/-!
# Appends to session logs

`DbSessionStore.append` of `store.py`: a call reads the next number of a log, inserts its rows one
after another under two unique constraints, folds its entries into the summary of the session and
commits. Calls run at the same time, each step in a transaction that the others do not see.
-/

namespace ShortReel.SessionAppends

open InsertionDict PrefixFork

def maxAppendRetry : ℕ := 16

structure SessionKey where
  projectKey : String
  sessionId : SessionId
  subpath : Option String
  deriving DecidableEq, Repr

structure LogKey where
  projectKey : String
  sessionId : SessionId
  subpath : String
  deriving DecidableEq, Repr

def normalizeKey (key : SessionKey) : LogKey where
  projectKey := key.projectKey
  sessionId := key.sessionId
  subpath := key.subpath.getD ""

def LogKey.session (key : LogKey) : String × SessionId :=
  (key.projectKey, key.sessionId)

/-- `AgentSessionEntry`, and which call has inserted the row. -/
structure Row where
  owner : ℕ
  key : LogKey
  seq : ℕ
  uuid : Option String
  entryType : String
  payload : Entry
  mtimeMs : ℤ
  uuid_eq : uuid = payload.entryUuid

/-- `AgentSessionSummary`. -/
structure Summary (D : Type) where
  mtimeMs : ℤ
  data : D

/-- What is used of the agent SDK: `fold_session_summary`, which takes a log in parts as well. -/
structure SessionSdk (D : Type) where
  fold : LogKey → Option D → List Entry → D
  fold_append : ∀ key prev first second,
    fold key prev (first ++ second) = fold key (some (fold key prev first)) second

variable {D : Type}

inductive Stage (D : Type) where
  | reading
  -- the number of the first entry, and how many entries have been inserted or skipped
  | inserting (start index : ℕ)
  -- what the summary was, which is locked if there was one, and what it will be
  | folded (start : ℕ) (prev : Option (Summary D)) (data : D)
  -- a commit may be lost to its caller
  | committed (reported : Bool)
  | raised

structure Call (D : Type) where
  key : LogKey
  entries : List Entry
  nowMs : ℤ
  attempt : ℕ
  stage : Stage D

structure State (D : Type) where
  rows : List Row := []
  summaries : Dict (String × SessionId) (Summary D) := []
  calls : List (Call D) := []

def Stage.isCommitted : Stage D → Bool
  | .committed _ => true
  | _ => false

namespace State

variable (s : State D)

def isCommitted (row : Row) : Bool :=
  (s.calls[row.owner]?).any fun call => call.stage.isCommitted

def isVisible (id : ℕ) (row : Row) : Bool :=
  row.owner = id || s.isCommitted row

def setStage (id : ℕ) (call : Call D) (stage : Stage D) : State D :=
  { s with calls := s.calls.set id { call with stage } }

/-- `coalesce(max(seq), -1) + 1` of a log. -/
def nextSeq (key : LogKey) : ℕ :=
  ((s.rows.filter fun row => row.key = key && s.isCommitted row).map fun row => row.seq + 1).foldl max 0

def rollback (id : ℕ) : State D :=
  { s with rows := s.rows.filter fun row => row.owner ≠ id }

def retry (id : ℕ) (call : Call D) : State D :=
  let attempt := call.attempt + 1
  (s.rollback id).setStage id { call with attempt } (if attempt < maxAppendRetry then .reading else .raised)

def rowOf (id : ℕ) (call : Call D) (entry : Entry) (seq : ℕ) : Row where
  owner := id
  key := call.key
  seq
  uuid := entry.entryUuid
  entryType := entry.entryType
  payload := entry
  mtimeMs := call.nowMs
  uuid_eq := rfl

def sameUuid (key : LogKey) (uuid : Option String) (row : Row) : Bool :=
  row.key = key && uuid.isSome && row.uuid = uuid

def sameSeq (key : LogKey) (seq : ℕ) (row : Row) : Bool :=
  row.key = key && row.seq = seq

/-- One row of `_insert_entries`: `ON CONFLICT (uuid) DO NOTHING`,
which comes before the check of the number. -/
def insertEntry (id : ℕ) (call : Call D) (start index : ℕ) (entry : Entry) : Option (State D) :=
  match s.rows.find? (sameUuid call.key entry.entryUuid) with
  | some row =>
      if s.isVisible id row then some (s.setStage id call (.inserting start (index + 1))) else none
  | none =>
      match s.rows.find? (sameSeq call.key (start + index)) with
      | some row => if s.isVisible id row then some (s.retry id call) else none
      | none => some ({ s with rows := s.rows ++ [rowOf id call entry (start + index)] }.setStage id call
          (.inserting start (index + 1)))

def locks (session : String × SessionId) (call : Call D) : Bool :=
  call.key.session = session &&
    match call.stage with
    | .folded _ (some _) _ => true
    | _ => false

def foldedStage (sdk : SessionSdk D) (call : Call D) (start : ℕ) : Stage D :=
  let prev := get s.summaries call.key.session
  .folded start prev (sdk.fold call.key (prev.map Summary.data) call.entries)

/-- `_fold_summary_locked`. -/
def foldSummary (sdk : SessionSdk D) (id : ℕ) (call : Call D) (start : ℕ) : Option (State D) :=
  if (get s.summaries call.key.session).isSome ∧ s.calls.any (locks call.key.session) then none
  else some (s.setStage id call (s.foldedStage sdk call start))

/-- The commit of a call that has made a summary. Two first summaries of a session are a violation. -/
def commitSummary (id : ℕ) (call : Call D) (prev : Option (Summary D))
    (data : D) (reported : Bool) : State D :=
  if prev.isNone ∧ (get s.summaries call.key.session).isSome then (s.rollback id).setStage id call .raised
  else { s with
    summaries := put s.summaries call.key.session { mtimeMs := call.nowMs, data } }.setStage id call
    (.committed reported)

end State

inductive Step where
  | append (key : SessionKey) (entries : List Entry) (nowMs : ℤ)
  | read (id : ℕ)
  | insert (id : ℕ)
  | fold (id : ℕ)
  | commit (id : ℕ) (reported : Bool)
  /-- Any other error, and a call that is cancelled. -/
  | fail (id : ℕ)

def advance (sdk : SessionSdk D) (s : State D) (id : ℕ) (call : Call D) : Step → Option (State D)
  | .append _ _ _ => none
  | .read _ => match call.stage with
      | .reading => some (s.setStage id call (.inserting (s.nextSeq call.key) 0))
      | _ => none
  | .insert _ => match call.stage with
      | .inserting start index => (call.entries[index]?).bind (s.insertEntry id call start index)
      | _ => none
  | .fold _ => match call.stage with
      | .inserting start index =>
          if index = call.entries.length ∧ call.key.subpath = "" then
            s.foldSummary sdk id call start else none
      | _ => none
  | .commit _ reported => match call.stage with
      | .folded _ prev data => some (s.commitSummary id call prev data reported)
      | .inserting _ index =>
          if index = call.entries.length ∧ call.key.subpath ≠ "" then
            some (s.setStage id call (.committed reported))
          else none
      | _ => none
  | .fail _ => match call.stage with
      | .committed _ | .raised => none
      | _ => some ((s.rollback id).setStage id call .raised)

def Step.caller : Step → Option ℕ
  | .append _ _ _ => none
  | .read id | .insert id | .fold id | .commit id _ | .fail id => some id

def next (sdk : SessionSdk D) (s : State D) (step : Step) : Option (State D) :=
  match step with
  | .append key entries nowMs =>
      let stage : Stage D := if entries = [] then .committed true else .reading
      some { s with calls := s.calls ++ [{ key := normalizeKey key, entries, nowMs, attempt := 0, stage }] }
  | step => step.caller.bind fun id => (s.calls[id]?).bind fun call => advance sdk s id call step

/-- Calls of `append` on an empty database. -/
def appends (sdk : SessionSdk D) : TransitionSystem (State D) Step where
  initial s := s = {}
  step s step later := next sdk s step = some later

end ShortReel.SessionAppends
