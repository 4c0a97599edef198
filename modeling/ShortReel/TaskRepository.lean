import ShortReel.DependencySweep
import ShortReel.GenerationTables

/-!
# The task repository

The transactions of `task_repo.py` that move tasks between their states, each one step on the
committed tables. Rows equal under an `ORDER BY` keep the order of their insertion.
-/

namespace ShortReel.TaskRepository

open TableUpdates DependencySweep GenerationTables

/-- The texts of `task_failure.py` the queue stores and reads: `encode_failure`, `bound_reason`,
`_encode_bounded_cascade_failure`, and the code `parse_failure` finds in a stored message. -/
structure FailureTexts where
  encodeFailure : (code : String) → (params : List (String × String)) → String
  boundReason : String → ℕ → String
  encodeBoundedCascadeFailure : (dependencyTaskId reason : String) → String
  parseFailureCode : String → Option String

def maxErrorMessageLen : ℕ := 2000

inductive TaskError where
  | notFound (taskId : String)
  | notCancellable (taskId : String)
  | integrityError
  | dedupeRejected (reason : String)
  | batchUnitsMissing
  | unitNotOwned (batchId unitId projectName : String)
  | retryNotEligible (taskId : String)
  | noSettleableCall (taskId : String)
  | checkpointRejected (taskId : String)
  deriving DecidableEq, Repr

def TaskError.message : TaskError → String
  | notFound taskId => "任务 '" ++ taskId ++ "' 不存在"
  | notCancellable taskId => "任务 '" ++ taskId ++ "' 正在执行，不可取消"
  | integrityError => "UNIQUE constraint failed"
  | dedupeRejected reason => reason
  | batchUnitsMissing => "batch_id and at least one batch unit id must be provided together"
  | unitNotOwned batchId unitId projectName =>
      "batch '" ++ batchId ++ "' does not own unit '" ++ unitId ++ "' in project '" ++
        projectName ++ "'"
  | retryNotEligible taskId => "task is not eligible for artifact download retry: " ++ taskId
  | noSettleableCall taskId =>
      "task has no settleable api call for artifact download retry: " ++ taskId
  | checkpointRejected taskId =>
      "execution checkpoint persistence guard rejected task: " ++ taskId

section Rows

variable (store : Store)

/-- `ORDER BY queued_at ASC`. -/
def byQueuedAt (tasks : List Task) : List Task :=
  tasks.insertionSort fun first second => first.queuedAt ≤ second.queuedAt

/-- `ORDER BY updated_at ASC`. -/
def byUpdatedAt (tasks : List Task) : List Task :=
  tasks.insertionSort fun first second => first.updatedAt ≤ second.updatedAt

/-- `_record_terminal_event`, of the row as it is now. -/
def recordTerminalEvent (taskId : String) (status : TaskStatus) : Store :=
  match store.task? taskId with
  | some task =>
      if status.isTerminal then
        { store with
          terminalEvents := store.terminalEvents ++
            [⟨taskId, task.projectName, status, task.taskType⟩] }
      else store
  | none => store

def activeKeyTaken (taskId : String) (key : DedupeKey) : Prop :=
  ∃ task ∈ store.tasks, task.taskId ≠ taskId ∧ task.status.isActive ∧ task.dedupeKey = key

instance (taskId : String) (key : DedupeKey) : Decidable (activeKeyTaken store taskId key) :=
  inferInstanceAs (Decidable (∃ task ∈ store.tasks, _))

def queuedDependents (taskId : String) : List String :=
  (byQueuedAt (store.tasks.filter fun task =>
    task.dependencyTaskId = some taskId ∧ task.status = .queued)).map (·.taskId)

/-- Moves a task out of one of the given states into a terminal one and records the event; nothing
when the task is in none of them. -/
def moveTask (taskId : String) (fromStatuses : List TaskStatus) (status : TaskStatus)
    (values : Task → Task) : Option Store :=
  if rowcount (fun task => task.taskId = taskId ∧ task.status ∈ fromStatuses) store.tasks = 0 then
    none
  else
    some (recordTerminalEvent
      { store with
        tasks := updateWhere (fun task => task.taskId = taskId ∧ task.status ∈ fromStatuses)
          (fun task => { values task with status }) store.tasks }
      taskId status)

/-- Fuel for a walk over queued tasks: each step of it takes one out of the queue. -/
def sweepFuel : ℕ :=
  store.tasks.length + 1

end Rows

structure EnqueueRequest where
  projectName : String
  taskType : String
  mediaType : String
  resourceId : String
  payload : String := "\x7b\x7d"
  scriptFile : Option String := none
  resourceType : Option String := none
  source : String := "webui"
  dependencyTaskId : Option String := none
  dependencyGroup : Option String := none
  dependencyIndex : Option ℤ := none
  userId : String := "default"
  providerId : Option String := none
  batchId : Option String := none
  batchUnitId : Option String := none
  batchUnitIds : List String := []

structure EnqueueResult where
  taskId : String
  status : TaskStatus
  deduped : Bool
  existingTaskId : Option String := none
  existingPayload : Option String := none
  deriving DecidableEq, Repr

def EnqueueRequest.unitIds (request : EnqueueRequest) : List String :=
  (request.batchUnitIds ++ (request.batchUnitId.filter (· ≠ "")).toList).eraseDups

def EnqueueRequest.task (request : EnqueueRequest) (taskId : String) (now : Time) : Task where
  taskId
  batchId := request.batchId
  projectName := request.projectName
  taskType := request.taskType
  mediaType := request.mediaType
  resourceId := request.resourceId
  resourceType := request.resourceType
  scriptFile := request.scriptFile
  payloadJson := request.payload
  status := .queued
  source := request.source
  dependencyTaskId := request.dependencyTaskId
  dependencyGroup := request.dependencyGroup
  dependencyIndex := request.dependencyIndex
  providerId := request.providerId
  queuedAt := now
  updatedAt := now
  userId := request.userId

section Enqueue

variable (store : Store)

def requireBatchUnits (projectName batchId : String) (unitIds : List String) (userId : String) :
    Except TaskError Unit :=
  let batch := store.batches.find? fun batch =>
    batch.batchId = batchId ∧ batch.projectName = projectName ∧ batch.userId = userId
  let requested := (batch.map (·.requested)).getD []
  let blocked := (batch.map (·.blocked)).getD []
  let invalid := unitIds.find? fun unit => unit ∉ requested ∨ unit ∈ blocked
  if batch.isNone ∨ invalid.isSome then
    .error (.unitNotOwned batchId ((invalid.filter (· ≠ "")).getD (unitIds.headD "")) projectName)
  else .ok ()

def checkBatch (request : EnqueueRequest) : Except TaskError Unit :=
  match request.batchId with
  | none => if request.unitIds = [] then .ok () else .error .batchUnitsMissing
  | some batchId =>
      if request.unitIds = [] then .error .batchUnitsMissing
      else requireBatchUnits store request.projectName batchId request.unitIds request.userId

def addBatchTasks (request : EnqueueRequest) (taskId : String) (deduped : Bool) :
    Except TaskError Store :=
  match request.batchId with
  | none => .ok store
  | some batchId =>
      if ∃ row ∈ store.batchTasks, row.batchId = batchId ∧ row.unitId ∈ request.unitIds then
        .error .integrityError
      else
        .ok { store with
          batchTasks := store.batchTasks ++
            request.unitIds.map fun unitId => ⟨batchId, taskId, unitId, deduped⟩ }

def existingActive (key : DedupeKey) : Option Task :=
  (byQueuedAt (store.tasks.filter fun task => task.status.isActive ∧ task.dedupeKey = key)).getLast?

/-- `enqueue` under a fresh id. When the unique index rejects the row, the active task that holds
the key is reused, unless the guard of the caller objects. -/
def enqueue (request : EnqueueRequest) (taskId : String) (now : Time)
    (dedupeGuard : String → String → Except TaskError Unit := fun _ _ => .ok ()) :
    Except TaskError (EnqueueResult × Store) := do
  checkBatch store request
  let task := request.task taskId now
  if store.task? taskId = none ∧ ¬ activeKeyTaken store taskId task.dedupeKey then
    let inserted ← addBatchTasks { store with tasks := store.tasks ++ [task] } request taskId false
    return ({ taskId, status := .queued, deduped := false }, inserted)
  else
    match existingActive store task.dedupeKey with
    | none => .error .integrityError
    | some existing =>
        dedupeGuard existing.payloadJson existing.taskId
        let updated ← addBatchTasks store request existing.taskId true
        return ({ taskId := existing.taskId, status := existing.status, deduped := true,
                  existingTaskId := some existing.taskId,
                  existingPayload := some existing.payloadJson }, updated)

def createBatch (batch : GenerationBatch) : Except TaskError Store :=
  if ∃ other ∈ store.batches, other.batchId = batch.batchId then .error .integrityError
  else .ok { store with batches := store.batches ++ [batch] }

end Enqueue

section Claim

variable (store : Store)

def dependencyDone (task : Task) : Prop :=
  match task.dependencyTaskId with
  | none => True
  | some dependency => ∃ row ∈ store.tasks, row.taskId = dependency ∧ row.status = .succeeded

instance (task : Task) : Decidable (dependencyDone store task) := by
  unfold dependencyDone
  split <;> infer_instance

/-- A claim may take this task. A full provider pool holds back tasks routed to it, but not those
without a provider and not reference videos, which are routed anew once claimed. -/
def claimable (mediaType : String) (poolFullProviders excludeTaskIds : List String)
    (task : Task) : Prop :=
  task.status = .queued ∧ task.mediaType = mediaType ∧
    (task.taskType = "reference_video" ∨ ∀ provider ∈ task.providerId,
      provider ∉ poolFullProviders) ∧
    task.taskId ∉ excludeTaskIds ∧ dependencyDone store task

instance (mediaType : String) (poolFullProviders excludeTaskIds : List String) (task : Task) :
    Decidable (claimable store mediaType poolFullProviders excludeTaskIds task) :=
  inferInstanceAs (Decidable (_ ∧ _ ∧ _ ∧ _ ∧ _))

/-- `claim_next`: the oldest claimable task starts running. -/
def claimNext (mediaType : String) (poolFullProviders excludeTaskIds : List String) (now : Time) :
    Option Task × Store :=
  match (byQueuedAt (store.tasks.filter fun task =>
    claimable store mediaType poolFullProviders excludeTaskIds task)).head? with
  | none => (none, store)
  | some task =>
      let claimed : Store := { store with
        tasks := updateWhere (fun row => row.taskId = task.taskId ∧ row.status = .queued)
          (fun row => { row with status := .running, startedAt := some now, updatedAt := now })
          store.tasks }
      (claimed.task? task.taskId, claimed)

end Claim

section Ending

variable (store : Store)

def markSucceeded (taskId result : String) (now : Time) : ℕ × Store :=
  match moveTask store taskId [.running] .succeeded fun task =>
    { task with resultJson := some result, errorMessage := none, finishedAt := some now,
                updatedAt := now } with
  | some done => (1, done)
  | none => (0, store)

variable (texts : FailureTexts)

/-- `_mark_failed_running` and `_mark_failed_queued_dep`. -/
def markFailedFrom (fromStatus : TaskStatus) (taskId errorMessage : String) (now : Time) :
    Option Store :=
  moveTask store taskId [fromStatus] .failed fun task =>
    { task with errorMessage := some (texts.boundReason errorMessage maxErrorMessageLen),
                finishedAt := some now, updatedAt := now }

/-- `_cascade_failed_queued`: the message goes down the chain as it is, each dependent records who
blocks it directly. -/
def cascadeFailedQueued (taskId errorMessage : String) (now : Time) : Store :=
  sweep queuedDependents
    (fun store blocker dependent =>
      markFailedFrom store texts .queued dependent
        (texts.encodeBoundedCascadeFailure blocker errorMessage) now)
    (sweepFuel store) store taskId

def markFailed (taskId errorMessage : String) (now : Time) : ℕ × Store :=
  match markFailedFrom store texts .running taskId errorMessage now with
  | some failed => (1, cascadeFailedQueued failed texts taskId errorMessage now)
  | none => (0, store)

/-- The update of `_mark_cancelled` on one task. -/
def cancelRow (fromStatuses : List TaskStatus) (cancelledBy : CancelledBy) (now : Time)
    (taskId : String) : Option Store :=
  moveTask store taskId fromStatuses .cancelled fun task =>
    { task with cancelledBy := some cancelledBy, finishedAt := some now, updatedAt := now }

/-- `_mark_cancelled`: the task itself, then everything queued behind it. -/
def markCancelled (taskId : String) (cancelledBy : CancelledBy) (fromStatuses : List TaskStatus)
    (now : Time) : Option Store :=
  (cancelRow store fromStatuses cancelledBy now taskId).map fun cancelled =>
    sweep queuedDependents (fun store _ dependent => cancelRow store [.queued] .cascade now dependent)
      (sweepFuel cancelled) cancelled taskId

inductive CancelResult where
  | cancelled (taskIds : List String)
  | skippedTerminal (task : Task)
  deriving DecidableEq, Repr

/-- `cancel_task`: only queued tasks can be cancelled. -/
def cancelTask (taskId : String) (now : Time) : Except TaskError (CancelResult × Store) :=
  match store.task? taskId with
  | none => .error (.notFound taskId)
  | some task =>
      if task.status.isTerminal then .ok (.skippedTerminal task, store)
      else
        match markCancelled store taskId .user [.queued] now with
        | none => .error (.notCancellable taskId)
        | some cancelled =>
            .ok (.cancelled ((cancelled.terminalEvents.drop store.terminalEvents.length).map
              (·.taskId)), cancelled)

structure TaskSummary where
  taskId : String
  taskType : String
  resourceId : String
  projectName : String
  deriving DecidableEq, Repr

def summary (task : Task) : TaskSummary where
  taskId := task.taskId
  taskType := task.taskType
  resourceId := task.resourceId
  projectName := task.projectName

/-- `_collect_queued_dependents`; nothing when the recursion goes deeper than the fuel. -/
def collectQueuedDependents : ℕ → String → Option (List TaskSummary)
  | 0, _ => none
  | fuel + 1, taskId =>
      ((byQueuedAt (store.tasks.filter fun task =>
        task.dependencyTaskId = some taskId ∧ task.status = .queued)).mapM fun task =>
          (collectQueuedDependents fuel task.taskId).map (summary task :: ·)).map List.flatten

structure CancelPreview where
  task : TaskSummary
  status : TaskStatus
  cascaded : List TaskSummary
  deriving DecidableEq, Repr

/-- `get_cancel_preview`; without a result when its recursion does not end. -/
def getCancelPreview (taskId : String) : Except TaskError (Option CancelPreview) :=
  match store.task? taskId with
  | none => .error (.notFound taskId)
  | some task =>
      if task.status = .running then .error (.notCancellable taskId)
      else
        .ok ((collectQueuedDependents store (sweepFuel store) taskId).map fun cascaded =>
          { task := summary task, status := task.status, cascaded })

def finalizeInterrupted (taskId : String) (now : Time) : ℕ × Store :=
  match markCancelled store taskId .interrupted [.queued, .running] now with
  | some cancelled => (1, cancelled)
  | none => (0, store)

def sweptByCancelAll (projectName : String) (excludeMediaTypes : List String) (task : Task) :
    Prop :=
  task.projectName = projectName ∧ task.status = .queued ∧ task.mediaType ∉ excludeMediaTypes

instance (projectName : String) (excludeMediaTypes : List String) (task : Task) :
    Decidable (sweptByCancelAll projectName excludeMediaTypes task) :=
  inferInstanceAs (Decidable (_ ∧ _ ∧ _))

/-- `cancel_all_queued`: the count of tasks it cancelled. It does not look at dependents. -/
def cancelAllQueued (projectName : String) (excludeMediaTypes : List String) (now : Time) :
    ℕ × Store :=
  let ids := (store.tasks.filter fun task =>
    sweptByCancelAll projectName excludeMediaTypes task).map (·.taskId)
  let cancelled := updateWhere (fun task => task.taskId ∈ ids ∧ task.status = .queued)
    (fun task => { task with status := .cancelled, cancelledBy := some .user,
                             finishedAt := some now, updatedAt := now }) store.tasks
  (rowcount (fun task => task.taskId ∈ ids ∧ task.status = .queued) store.tasks,
    { store with
      tasks := cancelled
      terminalEvents := store.terminalEvents ++
        (cancelled.filter fun task => task.taskId ∈ ids ∧ task.status = .cancelled).map fun task =>
          ⟨task.taskId, projectName, .cancelled, task.taskType⟩ })

end Ending

section Requeue

variable (store : Store)

/-- `requeue_running`, for at most `limit` tasks between 1 and 5000. -/
def requeueRunning (limit : ℤ) (now : Time) : ℕ × Store :=
  let ids := ((byUpdatedAt (store.tasks.filter (·.status = .running))).take
    (max 1 (min 5000 limit)).toNat).map (·.taskId)
  let requeued := updateWhere (fun task => task.taskId ∈ ids ∧ task.status = .running)
    (fun task => { task with status := .queued, startedAt := none, finishedAt := none,
                             updatedAt := now, resultJson := none, errorMessage := none })
    store.tasks
  (requeued.countP fun task => task.taskId ∈ ids ∧ task.status = .queued,
    { store with tasks := requeued })

def requeueSingleTask (taskId : String) (now : Time) : Bool × Store :=
  (rowcount (fun task => task.taskId = taskId ∧ task.status = .running) store.tasks ≠ 0,
    { store with
      tasks := updateWhere (fun task => task.taskId = taskId ∧ task.status = .running)
        (fun task => { task with status := .queued, startedAt := none, updatedAt := now })
        store.tasks })

def listOrphanTasksOnStart : List Task :=
  byUpdatedAt (store.tasks.filter (·.status = .running))

end Requeue

section Jobs

variable (store : Store)

def artifactDownloadFailed : String := "artifact_download_failed"

def settleable (taskId : String) (call : ApiCall) : Prop :=
  call.taskId = some taskId ∧ (call.status = .failed ∨ call.status = .pending)

instance (taskId : String) (call : ApiCall) : Decidable (settleable taskId call) :=
  inferInstanceAs (Decidable (_ ∧ _))

def newestSettleableCall (taskId : String) : Option ApiCall :=
  ((store.apiCalls.filter fun call => settleable taskId call).insertionSort
    fun first second => first.id ≤ second.id).getLast?

/-- A failed task whose job is known and whose artifact only could not be fetched. -/
def retryEligible (texts : FailureTexts) (task : Task) : Prop :=
  task.status = .failed ∧
    texts.parseFailureCode (task.errorMessage.getD "") = some artifactDownloadFailed ∧
    task.providerJobId.getD "" ≠ "" ∧ task.providerId.getD "" ≠ ""

instance (texts : FailureTexts) (task : Task) : Decidable (retryEligible texts task) :=
  inferInstanceAs (Decidable (_ ∧ _ ∧ _ ∧ _))

/-- `retry_artifact_download`: the task runs again and its call is pending again, or nothing
happens. The unique index rejects the update while another task holds the key. -/
def retryArtifactDownload (texts : FailureTexts) (taskId : String) (now : Time) :
    Except TaskError (Task × Store) :=
  match store.task? taskId with
  | none => .error (.retryNotEligible taskId)
  | some task =>
      if ¬ retryEligible texts task then .error (.retryNotEligible taskId)
      else
        match newestSettleableCall store taskId with
        | none => .error (.noSettleableCall taskId)
        | some call =>
            if activeKeyTaken store taskId task.dedupeKey then .error .integrityError
            else
              let reopened : Store := { store with
                apiCalls := updateWhere
                  (fun row => row.id = call.id ∧ (row.status = .failed ∨ row.status = .pending))
                  (fun row => { row with status := .pending, finishedAt := none,
                                         errorMessage := none, errorCode := none,
                                         errorParams := none })
                  store.apiCalls
                tasks := updateWhere (fun row => row.taskId = taskId ∧ row.status = .failed)
                  (fun row => { row with status := .running, errorMessage := none,
                                         finishedAt := none, startedAt := some now,
                                         updatedAt := now })
                  store.tasks }
              match reopened.task? taskId with
              | some refreshed => .ok (refreshed, reopened)
              | none => .error (.retryNotEligible taskId)

/-- `persist_provider_job_id`: no guard on the status, the worker that submitted calls it. -/
def persistProviderJobId (taskId jobId : String) (endpoint baseUrl : Option String) (now : Time) :
    Store :=
  { store with
    tasks := updateWhere (·.taskId = taskId)
      (fun task => { task with
        providerJobId := some jobId
        providerEndpoint := endpoint.or task.providerEndpoint
        submittedBaseUrl := baseUrl.or task.submittedBaseUrl
        updatedAt := now })
      store.tasks }

/-- The rows `persist_execution_checkpoint` may write: a running video task that has crossed the
submit boundary in no way yet. -/
def checkpointable (taskId : String) (task : Task) : Prop :=
  task.taskId = taskId ∧ task.taskType ∈ ["video", "reference_video"] ∧ task.status = .running ∧
    task.executionCheckpointJson = none ∧ task.providerJobId = none

instance (taskId : String) (task : Task) : Decidable (checkpointable taskId task) :=
  inferInstanceAs (Decidable (_ ∧ _ ∧ _ ∧ _ ∧ _))

def persistExecutionCheckpoint (taskId checkpointJson providerId : String) (now : Time) :
    Except TaskError Store :=
  if rowcount (checkpointable taskId) store.tasks ≠ 1 then .error (.checkpointRejected taskId)
  else
    .ok { store with
      tasks := updateWhere (checkpointable taskId)
        (fun task => { task with executionCheckpointJson := some checkpointJson,
                                 providerId := some providerId, updatedAt := now })
        store.tasks }

def persistExecutionProviderId (taskId providerId : String) (now : Time) : Store :=
  { store with
    tasks := updateWhere (·.taskId = taskId)
      (fun task => { task with providerId := some providerId, updatedAt := now }) store.tasks }

end Jobs

end ShortReel.TaskRepository
