import Mathlib.Data.Rat.Defs
import ShortReel.TableUpdates

/-!
# The generation tables

The rows of `tasks`, `api_calls`, `batches` and `batch_tasks` with the columns the repositories of
the queue and of the ledger read or write. JSON columns hold their text.
-/

namespace ShortReel.GenerationTables

abbrev Time := ℕ

inductive TaskStatus where
  | queued | running | succeeded | failed | cancelled
  deriving DecidableEq, Repr

/-- `TERMINAL_TASK_STATUSES`. -/
def TaskStatus.isTerminal : TaskStatus → Bool
  | .succeeded | .failed | .cancelled => true
  | .queued | .running => false

/-- `ACTIVE_TASK_STATUSES`. -/
def TaskStatus.isActive : TaskStatus → Bool
  | .queued | .running => true
  | .succeeded | .failed | .cancelled => false

def TaskStatus.isDead : TaskStatus → Bool
  | .failed | .cancelled => true
  | .queued | .running | .succeeded => false

inductive CancelledBy where
  | user | cascade | interrupted
  deriving DecidableEq, Repr

structure Task where
  taskId : String
  batchId : Option String := none
  projectName : String
  taskType : String
  mediaType : String
  resourceId : String
  resourceType : Option String := none
  scriptFile : Option String := none
  payloadJson : String := "\x7b\x7d"
  status : TaskStatus
  resultJson : Option String := none
  errorMessage : Option String := none
  source : String := "webui"
  dependencyTaskId : Option String := none
  dependencyGroup : Option String := none
  dependencyIndex : Option ℤ := none
  cancelledBy : Option CancelledBy := none
  providerId : Option String := none
  providerJobId : Option String := none
  providerEndpoint : Option String := none
  submittedBaseUrl : Option String := none
  executionCheckpointJson : Option String := none
  queuedAt : Time
  startedAt : Option Time := none
  finishedAt : Option Time := none
  updatedAt : Time
  userId : String := "default"
  deriving DecidableEq, Repr

/-- The columns of the unique index `idx_tasks_dedupe_active`. -/
structure DedupeKey where
  projectName : String
  userId : String
  taskType : String
  resourceId : String
  scriptFile : String
  resourceType : String
  deriving DecidableEq, Repr

def Task.dedupeKey (task : Task) : DedupeKey where
  projectName := task.projectName
  userId := task.userId
  taskType := task.taskType
  resourceId := task.resourceId
  scriptFile := task.scriptFile.getD ""
  resourceType := task.resourceType.getD ""

inductive CallStatus where
  | pending | success | failed | cancelled
  deriving DecidableEq, Repr

inductive CallType where
  | image | video | text | audio
  deriving DecidableEq, Repr

inductive CallPurpose where
  | scriptGeneration | episodePlanning | projectOverview | styleAnalysis | assistantSession
  | endpointTrial | generationTask
  deriving DecidableEq, Repr

inductive CallErrorCode where
  | rateLimited | contentPolicy | timeout | downloadFailed | interrupted
  deriving DecidableEq, Repr

structure ApiCall where
  id : ℕ
  projectName : String
  callType : CallType
  model : String
  prompt : Option String := none
  resolution : Option String := none
  durationSeconds : Option ℤ := none
  aspectRatio : Option String := none
  generateAudio : Option Bool := none
  status : CallStatus
  errorMessage : Option String := none
  errorCode : Option CallErrorCode := none
  errorParams : Option String := none
  outputPath : Option String := none
  segmentId : Option String := none
  taskId : Option String := none
  purpose : Option CallPurpose := none
  sessionId : Option String := none
  inputs : Option String := none
  startedAt : Time
  finishedAt : Option Time := none
  durationMs : Option ℤ := none
  costAmount : ℚ := 0
  currency : String := "USD"
  provider : String := "gemini"
  usageTokens : Option ℤ := none
  inputTokens : Option ℤ := none
  outputTokens : Option ℤ := none
  imageInputTokens : Option ℤ := none
  imageOutputTokens : Option ℤ := none
  textInputTokens : Option ℤ := none
  textOutputTokens : Option ℤ := none
  userId : String := "default"
  deriving DecidableEq, Repr

structure GenerationBatch where
  batchId : String
  projectName : String
  userId : String
  requested : List String
  blocked : List String
  deriving DecidableEq, Repr

structure BatchTask where
  batchId : String
  taskId : String
  unitId : String
  deduped : Bool
  deriving DecidableEq, Repr

/-- A record of `terminal_events`, published as a project event once the transaction commits. -/
structure TerminalEvent where
  taskId : String
  projectName : String
  status : TaskStatus
  taskType : String
  deriving DecidableEq, Repr

structure Store where
  tasks : List Task := []
  apiCalls : List ApiCall := []
  batches : List GenerationBatch := []
  batchTasks : List BatchTask := []
  terminalEvents : List TerminalEvent := []
  deriving DecidableEq, Repr

def Store.task? (store : Store) (taskId : String) : Option Task :=
  store.tasks.find? (·.taskId = taskId)

end ShortReel.GenerationTables
