import ShortReel.GenerationResults

/-!
# The read model of a generation batch

`build_generation_batch_read_model`: a stored batch and the rows of its tasks, read as members with
their counts and, once nothing is left to do, as the shared result.
-/

namespace ShortReel.GenerationBatches

open LedgerFile
open GenerationTables (Task TaskStatus)
open GenerationResults

inductive GenerationBatchMemberStatus where
  | queued | running | succeeded | failed | cancelled | blocked
  deriving DecidableEq, Repr

def GenerationBatchMemberStatus.all : List GenerationBatchMemberStatus :=
  [.queued, .running, .succeeded, .failed, .cancelled, .blocked]

def memberStatus : TaskStatus → GenerationBatchMemberStatus
  | .queued => .queued
  | .running => .running
  | .succeeded => .succeeded
  | .failed => .failed
  | .cancelled => .cancelled

/-- In `TERMINAL_TASK_STATUSES`, or blocked. -/
def GenerationBatchMemberStatus.isDone : GenerationBatchMemberStatus → Bool
  | .succeeded | .failed | .cancelled | .blocked => true
  | .queued | .running => false

structure GenerationBatchRequestedItem where
  unitId : String
  artifactKey : Option String := none
  artifactPath : Option String := none
  artifactStatus : Option ArtifactStatus := none
  priorArtifactKey : Option String := none
  priorArtifactPath : Option String := none
  priorArtifactStatus : Option ArtifactStatus := none
  admission : Fields := []
  dependsOn : Option String := none
  unitId_ne : unitId ≠ ""

structure GenerationBatchBlockedItem where
  item : GenerationItemResult
  admission : Fields
  itemIsBlocked : item.state = .blocked

structure GenerationBatchRequestSnapshot where
  selection : GenerationSelectionMode
  requested : List GenerationBatchRequestedItem := []
  skipped : List GenerationSkippedItem := []
  requestedUnique : (requested.map (·.unitId)).Nodup
  skippedUnique : (skipped.map (·.unitId)).Nodup
  skippedApart : ∀ entry ∈ skipped, entry.unitId ∉ requested.map (·.unitId)
  dependsInside : ∀ item ∈ requested, ∀ dependency, item.dependsOn = some dependency →
    dependency ∈ requested.map (·.unitId) ∧ dependency ≠ item.unitId

def GenerationBatchRequestSnapshot.ids (snapshot : GenerationBatchRequestSnapshot) : List String :=
  snapshot.requested.map (·.unitId)

structure StoredBatch where
  batchId : String
  projectName : String
  operation : String
  createdAt : String
  requested : GenerationBatchRequestSnapshot
  blocked : List GenerationBatchBlockedItem

/-- A row of `batch_tasks` joined with its task, whose result is decoded. -/
structure Membership where
  task : Task
  result : Json
  unitId : String
  deduped : Bool

structure GenerationBatchMember where
  unitId : String
  taskId : Option String := none
  taskType : Option String := none
  status : GenerationBatchMemberStatus
  deduped : Bool := false
  problem : Option GenerationProblem := none
  admission : Fields := []

structure GenerationBatchCounts where
  queued : ℕ
  running : ℕ
  succeeded : ℕ
  failed : ℕ
  cancelled : ℕ
  blocked : ℕ
  total : ℕ
  deriving DecidableEq, Repr

structure GenerationBatchReadModel where
  batchId : String
  project : String
  operation : String
  createdAt : String
  members : List GenerationBatchMember
  skipped : List GenerationSkippedItem
  counts : GenerationBatchCounts
  done : Bool
  pollAfterSeconds : Option ℕ
  generationResult : Option GenerationBatchResult

def validateBlockedItems (snapshot : GenerationBatchRequestSnapshot)
    (blocked : List GenerationBatchBlockedItem) : Except ResultError Unit :=
  let blockedIds := blocked.map (·.item.unitId)
  if ¬ blockedIds.Nodup ∨ ¬ ∀ unitId ∈ blockedIds, unitId ∈ snapshot.ids then
    .error .blockedNotUnique
  else .ok ()

def taskOf (memberships : List Membership) (unitId : String) : Option Membership :=
  memberships.findRev? (·.unitId = unitId)

def blockedOf (blocked : List GenerationBatchBlockedItem) (unitId : String) :
    Option GenerationBatchBlockedItem :=
  blocked.findRev? (·.item.unitId = unitId)

section Items

variable (failures : StoredFailures) (resolver : Option ArtifactCurrencyResolver)
  (memberships : List Membership) (blocked : List GenerationBatchBlockedItem)
  (requested : GenerationBatchRequestedItem)

/-- The problem of a unit that was never queued. A unit that depends on nothing looks up `None`. -/
def notQueuedProblem : GenerationProblem :=
  dependencyFailureProblem (enqueueProblem none) requested.dependsOn
    ((requested.dependsOn.bind (taskOf memberships)).isNone)

def memberOf : GenerationBatchMember :=
  match blockedOf blocked requested.unitId with
  | some entry =>
      { unitId := requested.unitId, status := .blocked, problem := entry.item.problem,
        admission := entry.admission }
  | none =>
      match taskOf memberships requested.unitId with
      | none =>
          { unitId := requested.unitId, status := .failed,
            problem := some (notQueuedProblem memberships requested),
            admission := requested.admission }
      | some row =>
          { unitId := requested.unitId, taskId := some row.task.taskId,
            taskType := some row.task.taskType, status := memberStatus row.task.status,
            deduped := row.deduped, admission := requested.admission }

def observeOr (key : Option String) (path : Json) (default : Option ArtifactStatus) :
    Except ResultError (Option ArtifactStatus) :=
  match resolver, key with
  | some resolver, some key => observeArtifactStatus resolver key path
  | _, _ => .ok default

/-- `_failure_artifact_report`, its path before it is validated. -/
def failureArtifactReport (fallbackPath : Json) :
    Except ResultError (Option String × Json × Option ArtifactStatus) :=
  if requested.priorArtifactKey.isNone ∧ requested.priorArtifactPath.isNone ∧
      requested.priorArtifactStatus.isNone then
    .ok (requested.artifactKey, fallbackPath, requested.artifactStatus)
  else do
    let path := jsonPath requested.priorArtifactPath
    let status ← observeOr resolver requested.priorArtifactKey path requested.priorArtifactStatus
    .ok (requested.priorArtifactKey, path, status)

def notQueuedItem : Except ResultError GenerationItemResult := do
  let (artifactKey, artifactPath, artifactStatus) ←
    failureArtifactReport resolver requested (jsonPath requested.artifactPath)
  let artifactPath ← validatePath artifactPath
  .ok
    { unitId := requested.unitId, artifactKey, artifactPath, artifactStatus, state := .failed
      taskState := .notQueued, problem := some (notQueuedProblem memberships requested)
      problemMatchesState := by simp }

def unitResultOf (row : Membership) (unitId : String) : Except ResultError (Fields × Fields) := do
  let taskResult ← orEmpty row.result
  let unitResults ← orEmpty (getField taskResult "unit_results")
  let unitResult ← orEmpty (getField unitResults unitId)
  .ok (taskResult, unitResult)

def taskArtifactPath (taskResult unitResult : Fields) : Json :=
  if truthy (getField unitResult "file_path") then getField unitResult "file_path"
  else if truthy (getField taskResult "file_path") then getField taskResult "file_path"
  else jsonPath requested.artifactPath

def succeededItem (row : Membership) (taskResult unitResult : Fields) :
    Except ResultError GenerationItemResult := do
  let path := taskArtifactPath requested taskResult unitResult
  let artifactStatus ← observeOr resolver requested.artifactKey path none
  let artifactPath ← validatePath path
  .ok
    { unitId := requested.unitId, artifactKey := requested.artifactKey, artifactPath
      taskId := some row.task.taskId
      providerCheckpoint := providerCheckpointFromTask row.task, state := .succeeded
      taskState := .succeeded, artifactStatus
      warnings := generationWarningsFromResult taskResult, problemMatchesState := by simp }

/-- The problem of a unit whose task did not succeed, or succeeded with a problem of the unit. -/
def failedProblem (row : Membership) (unitResult : Fields) :
    Except ResultError GenerationProblem :=
  if truthy (getField unitResult "problem") then validateProblem (getField unitResult "problem")
  else
    .ok (dependencyFailureProblem
      (problemFromTaskFailure failures row.task.errorMessage
        (decide (row.task.status = .cancelled)))
      requested.dependsOn false)

def failedItem (row : Membership) (taskResult unitResult : Fields) :
    Except ResultError GenerationItemResult := do
  let (artifactKey, path, artifactStatus) ←
    failureArtifactReport resolver requested (taskArtifactPath requested taskResult unitResult)
  let problem ← failedProblem failures requested row unitResult
  let artifactPath ← validatePath path
  .ok
    { unitId := requested.unitId, artifactKey, artifactPath, taskId := some row.task.taskId
      providerCheckpoint := providerCheckpointFromTask row.task, state := .failed
      taskState :=
        if row.task.status = .succeeded then .succeeded
        else if row.task.status = .cancelled then .cancelled
        else .failed
      artifactStatus, problem := some problem
      warnings := generationWarningsFromResult taskResult, problemMatchesState := by simp }

/-- One turn of the loop of `_terminal_result`. -/
def terminalItem : Except ResultError GenerationItemResult :=
  match blockedOf blocked requested.unitId with
  | some entry => .ok entry.item
  | none =>
      match taskOf memberships requested.unitId with
      | none => notQueuedItem resolver memberships requested
      | some row => do
          let (taskResult, unitResult) ← unitResultOf row requested.unitId
          if row.task.status = .succeeded ∧ !truthy (getField unitResult "problem") then
            succeededItem resolver requested row taskResult unitResult
          else failedItem failures resolver requested row taskResult unitResult

end Items

section Reading

variable (failures : StoredFailures) (resolver : Option ArtifactCurrencyResolver)

def terminalResult (operation : String) (snapshot : GenerationBatchRequestSnapshot)
    (memberships : List Membership) (blocked : List GenerationBatchBlockedItem) :
    Except ResultError GenerationBatchResult := do
  let items ← snapshot.requested.mapM (terminalItem failures resolver memberships blocked)
  checkSets (setsOfItems operation snapshot.selection snapshot.skipped items)

def pollBase (taskType : String) : ℕ :=
  ([("video", 10), ("reference_video", 10), ("grid", 8), ("tts", 4)].lookup taskType).getD 3

/-- `max`, with a default for no value. -/
def maxOr (default : ℕ) : List ℕ → ℕ
  | [] => default
  | value :: values => values.foldl max value

def pollAfterSeconds (memberships : List Membership) (queueDepth : List (String × ℕ)) : ℕ :=
  let types := (memberships.filter (!·.task.status.isTerminal)).map (·.task.taskType)
  let base := maxOr 3 (types.map pollBase)
  let depth := maxOr 0 (types.map fun taskType => (queueDepth.lookup taskType).getD 0)
  min 30 (base + depth / 5)

def countMembers (members : List GenerationBatchMember) : GenerationBatchCounts :=
  let counted (status : GenerationBatchMemberStatus) := (members.map (·.status)).count status
  { queued := counted .queued, running := counted .running, succeeded := counted .succeeded
    failed := counted .failed, cancelled := counted .cancelled, blocked := counted .blocked
    total := members.length }

def buildGenerationBatchReadModel (batch : StoredBatch) (memberships : List Membership)
    (queueDepth : List (String × ℕ)) : Except ResultError GenerationBatchReadModel := do
  let snapshot := batch.requested
  validateBlockedItems snapshot batch.blocked
  let members := snapshot.requested.map (memberOf memberships batch.blocked)
  let done := members.all (·.status.isDone)
  let terminal ←
    (if done then
      some <$> terminalResult failures resolver batch.operation snapshot memberships batch.blocked
    else .ok none)
  .ok
    { batchId := batch.batchId, project := batch.projectName, operation := batch.operation
      createdAt := batch.createdAt, members, skipped := snapshot.skipped
      counts := countMembers members, done
      pollAfterSeconds := if done then none else some (pollAfterSeconds memberships queueDepth)
      generationResult := terminal }

end Reading

end ShortReel.GenerationBatches
