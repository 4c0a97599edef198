import ShortReel.PrefixFork
import ShortReel.TransitionSystem

/-!
# Branches of a session

`session_branch.py`: a new session is built from the prefix of another, in the transcript store and in
the metadata, and the other one is made to point to it. Each access to the database is a step of its
own, and other calls may come in between.
-/

namespace ShortReel.SessionBranch

open InsertionDict PrefixFork

structure AgentSession where
  projectName : String
  supersededBy : Option SessionId
  forkParentSessionId : Option SessionId
  forkAnchorUuid : Option String
  deriving DecidableEq, Repr

structure Stores where
  transcripts : TranscriptStore
  sessions : Dict SessionId AgentSession
  deriving DecidableEq, Repr

namespace Stores

variable (stores : Stores)

def pointer (sessionId : SessionId) : Option SessionId :=
  (get stores.sessions sessionId).bind (·.supersededBy)

def create (projectName : String) (sessionId forkParentSessionId : SessionId)
    (forkAnchorUuid : String) : Stores :=
  { stores with
    sessions := put stores.sessions sessionId
      { projectName, supersededBy := none, forkParentSessionId := some forkParentSessionId
        forkAnchorUuid := some forkAnchorUuid } }

def repoint (guard : SessionId → AgentSession → Bool) (supersededBy : Option SessionId) : Stores :=
  { stores with
    sessions := stores.sessions.map fun item =>
      (item.1, if guard item.1 item.2 then { item.2 with supersededBy } else item.2) }

/-- `mark_superseded`, with whether its update meets the row. -/
def markSuperseded (sessionId supersededBy : SessionId) : Stores × Bool :=
  (stores.repoint (fun id row => decide (id = sessionId ∧ row.supersededBy = none))
      (some supersededBy),
    (get stores.sessions sessionId).any fun row => row.supersededBy = none)

def clearSuperseded (sessionId supersededBy : SessionId) : Stores :=
  stores.repoint (fun id row => decide (id = sessionId ∧ row.supersededBy = some supersededBy)) none

/-- `delete` of the metadata: what pointed to the session points to its successor. -/
def deleteSession (sessionId : SessionId) : Stores :=
  let repointed := stores.repoint (fun _ row => decide (row.supersededBy = some sessionId))
    (stores.pointer sessionId)
  { repointed with sessions := remove repointed.sessions sessionId }

end Stores

/-- What a call of `branch` gets from outside: the directory of the project and the anchor that the
event log makes of its argument, if there is one, the id of the new session and the time. -/
structure Call where
  projectCwd : Option String
  anchorUuid : Option String
  newSessionId : SessionId
  now : String
  deriving DecidableEq, Repr

structure Plan where
  projectName : String
  anchorUuid : String
  deriving DecidableEq, Repr

inductive Phase where
  | checking
  | loading (plan : Plan)
  | appending (plan : Plan) (front : List Entry)
  | listing (plan : Plan) (front : List Entry)
  | carrying (plan : Plan) (front : List Entry) (copied : ℕ) (subpaths : List Subpath)
  | carried (plan : Plan) (front : List Entry) (copied : ℕ) (subpath : Subpath)
      (entries : List Entry) (subpaths : List Subpath)
  | creating (plan : Plan) (copied : ℕ)
  | marking (copied : ℕ)
  | clearing
  | deleting
  | purging
  | succeeded (copied : ℕ)
  | refused
  | failed
  deriving DecidableEq, Repr

/-- An access returns, or it raises or is cancelled, with its write in the database or without. -/
inductive Outcome where
  | ok
  | raised (applied : Bool)
  deriving DecidableEq, Repr

def Outcome.written (outcome : Outcome) (before after : Stores) : Stores :=
  match outcome with
  | .ok | .raised true => after
  | .raised false => before

/-- The phase behind an access inside the `try`. -/
def Outcome.next (outcome : Outcome) (phase : Phase) : Phase :=
  match outcome with
  | .ok => phase
  | .raised _ => .clearing

section Branch

variable (session : SessionId) (call : Call) (stores : Stores)

def Call.origin (plan : Plan) : Origin :=
  { sessionId := session, messageUuid := plan.anchorUuid }

/-- The next access of a call of `branch`. -/
def branchStep (outcome : Outcome) : Phase → Stores × Phase
  | .checking =>
      match outcome, get stores.sessions session, call.projectCwd, call.anchorUuid with
      | .ok, some row, some _, some anchorUuid => (stores, .loading ⟨row.projectName, anchorUuid⟩)
      | _, _, _, _ => (stores, .refused)
  | .loading plan =>
      match outcome with
      | .raised _ => (stores, .clearing)
      | .ok =>
          match prefixBeforeAnchor plan.anchorUuid ((stores.transcripts.load session []).getD []) with
          | .error _ => (stores, .refused)
          | .ok front =>
              if hasConversation front then (stores, .appending plan front)
              else (stores, .creating plan 0)
  | .appending plan front =>
      let entries := rebound call.newSessionId (Call.origin session plan) call.now front
      (outcome.written stores
          { stores with transcripts := stores.transcripts.append call.newSessionId [] entries },
        outcome.next (if wantedLeaves front = [] then .creating plan entries.length
          else .listing plan front))
  | .listing plan front =>
      (stores, outcome.next (.carrying plan front front.length
        ((stores.transcripts.listSubkeys session).filter (matchesSubagent · (wantedLeaves front)))))
  | .carrying plan _ copied [] => (stores, outcome.next (.creating plan copied))
  | .carrying plan front copied (subpath :: subpaths) =>
      match stores.transcripts.load session subpath with
      | none => (stores, outcome.next (.carrying plan front copied subpaths))
      | some entries =>
          (stores, outcome.next
            (if entries = [] then .carrying plan front copied subpaths
            else .carried plan front copied subpath entries subpaths))
  | .carried plan front copied subpath entries subpaths =>
      (outcome.written stores
          { stores with
            transcripts := stores.transcripts.append call.newSessionId subpath
              (entries.map (Entry.rebind call.newSessionId (Call.origin session plan))) },
        outcome.next (.carrying plan front (copied + entries.length) subpaths))
  | .creating plan copied =>
      (outcome.written stores (stores.create plan.projectName call.newSessionId session plan.anchorUuid),
        outcome.next (.marking copied))
  | .marking copied =>
      let (marked, won) := stores.markSuperseded session call.newSessionId
      (outcome.written stores marked, outcome.next (if won then .succeeded copied else .clearing))
  | .clearing =>
      (outcome.written stores (stores.clearSuperseded session call.newSessionId), .deleting)
  | .deleting =>
      (outcome.written stores
        { stores with transcripts := stores.transcripts.delete call.newSessionId }, .purging)
  | .purging => (outcome.written stores (stores.deleteSession call.newSessionId), .failed)
  | .succeeded copied => (stores, .succeeded copied)
  | .refused => (stores, .refused)
  | .failed => (stores, .failed)

end Branch

/-- A phase of `_discard`. -/
def Phase.cleansUp : Phase → Bool
  | .clearing | .deleting | .purging => true
  | _ => false

structure State (ι : Type) where
  stores : Stores
  phase : ι → Phase

section Calls

variable {ι : Type} [DecidableEq ι] (session : SessionId) (calls : ι → Call)

def run (state : State ι) (step : ι × Outcome) : State ι :=
  let result := branchStep session (calls step.1) state.stores step.2 (state.phase step.1)
  { stores := result.1, phase := Function.update state.phase step.1 result.2 }

def CleansUp (state : State ι) (step : ι × Outcome) : Prop :=
  (state.phase step.1).cleansUp → step.2 = .ok

def branches (start : Stores) : TransitionSystem (State ι) (ι × Outcome) :=
  .ofRun (· = { stores := start, phase := fun _ => .checking }) (run session calls)

end Calls

end ShortReel.SessionBranch
