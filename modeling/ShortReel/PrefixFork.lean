import ShortReel.InsertionDict

/-!
# Prefix forks

`prefix_fork.py` and `store.py`: the transcripts of sessions, and what of one is copied when it is
forked in front of a message of the user.
-/

namespace ShortReel.PrefixFork

open InsertionDict

abbrev SessionId := String

abbrev Subpath := List Char

/-- What `forkedFrom` says. -/
structure Origin where
  sessionId : SessionId
  messageUuid : String
  deriving DecidableEq, Repr

/-- An entry of a transcript. `blocks` are the types of the blocks of `message.content`, where it is a
list, `agentId` is that of `toolUseResult`, and `rest` is what no function here reads. -/
structure Entry where
  uuid : Option String
  type : Option String
  sessionId : Option SessionId
  forkedFrom : Option Origin
  timestamp : Option String
  blocks : Option (List (Option String))
  agentId : Option String
  rest : String
  deriving DecidableEq, Repr

namespace Entry

def entryType (entry : Entry) : String :=
  entry.type.getD ""

def entryUuid (entry : Entry) : Option String :=
  entry.uuid.filter (· ≠ "")

def carriesToolResult (entry : Entry) : Bool :=
  match entry.blocks with
  | some blocks => blocks.any (· = some "tool_result")
  | none => false

def rebind (newSessionId : SessionId) (origin : Origin) (entry : Entry) : Entry :=
  { entry with
    sessionId := entry.sessionId.map fun _ => newSessionId
    forkedFrom := if entry.entryUuid.isSome then some origin else entry.forkedFrom }

end Entry

/-- The errors of `_prefix_before_anchor`. -/
inductive InvalidAnchor where
  | notUserMessage (entryType : String)
  | carriesToolResults
  | notOnMainTimeline
  deriving DecidableEq, Repr

def prefixBeforeAnchor (anchorUuid : String) : List Entry → Except InvalidAnchor (List Entry)
  | [] => .error .notOnMainTimeline
  | entry :: entries =>
      if entry.uuid = some anchorUuid then
        if entry.entryType ≠ "user" then .error (.notUserMessage entry.entryType)
        else if entry.carriesToolResult then .error .carriesToolResults
        else .ok []
      else (prefixBeforeAnchor anchorUuid entries).map (entry :: ·)

/-- Whether a prefix has an entry of a type of `_CONVERSATION_ENTRY_TYPES`. -/
def hasConversation (front : List Entry) : Bool :=
  front.any fun entry => entry.entryType = "user" || entry.entryType = "assistant"

def stampLast (now : String) : List Entry → List Entry
  | [] => []
  | [entry] => [{ entry with timestamp := some now }]
  | entry :: next :: entries => entry :: stampLast now (next :: entries)

def rebound (newSessionId : SessionId) (origin : Origin) (now : String) (front : List Entry) :
    List Entry :=
  stampLast now (front.map (Entry.rebind newSessionId origin))

/-- `_prefix_agent_ids`, as the leaves that are wanted. -/
def wantedLeaves (front : List Entry) : List Subpath :=
  front.filterMap fun entry =>
    (entry.agentId.filter (· ≠ "")).map fun agentId => ['a', 'g', 'e', 'n', 't', '-'] ++ agentId.toList

def subagentSubpathRoot : Subpath :=
  ['s', 'u', 'b', 'a', 'g', 'e', 'n', 't', 's', '/']

/-- `subpath.rsplit("/", 1)[-1]`. -/
def leaf (subpath : Subpath) : Subpath :=
  (subpath.reverse.takeWhile (· ≠ '/')).reverse

def matchesSubagent (subpath : Subpath) (wanted : List Subpath) : Bool :=
  subagentSubpathRoot.isPrefixOf subpath && wanted.any (· = leaf subpath)

/-- The rows of the transcripts by session and subpath, and the sessions that have a summary. -/
structure TranscriptStore where
  rows : Dict (SessionId × Subpath) (List Entry)
  summaries : List SessionId
  deriving DecidableEq, Repr

def appendRows (rows entries : List Entry) : List Entry :=
  entries.foldl (fun rows entry =>
    if entry.entryUuid.isSome ∧ ∃ row ∈ rows, row.entryUuid = entry.entryUuid then rows
    else rows ++ [entry]) rows

namespace TranscriptStore

variable (store : TranscriptStore)

def load (sessionId : SessionId) (subpath : Subpath) : Option (List Entry) :=
  get store.rows (sessionId, subpath)

def append (sessionId : SessionId) (subpath : Subpath) (entries : List Entry) : TranscriptStore :=
  if entries = [] then store
  else
    { rows := put store.rows (sessionId, subpath)
        (appendRows ((store.load sessionId subpath).getD []) entries)
      summaries :=
        if subpath = [] ∧ sessionId ∉ store.summaries then store.summaries ++ [sessionId]
        else store.summaries }

def listSubkeys (sessionId : SessionId) : List Subpath :=
  ((keys store.rows).filter fun key => key.1 = sessionId ∧ key.2 ≠ []).map Prod.snd

/-- `delete`, of all of a session. -/
def delete (sessionId : SessionId) : TranscriptStore :=
  { rows := store.rows.filter fun item => item.1.1 ≠ sessionId
    summaries := store.summaries.filter (· ≠ sessionId) }

end TranscriptStore

end ShortReel.PrefixFork
