import ShortReel.TaskRepository

/-!
# Recovery after a restart

What `restart_recovery.py` and `video_resume.py` decide about a task that was running when the
process died, and about one whose download is retried: it fails, or its job is polled. Neither
submits anything.
-/

namespace ShortReel.RestartRecovery

open GenerationTables

inductive VideoResumeState where
  | noCheckpointNoJob | checkpointWithoutJob | ready | identityUnrecoverable
  deriving DecidableEq, Repr

/-- What recovery asks of the rest of the program: the provider in the checkpoint of a row, when
`load_task_video_checkpoint` accepts it, the provider the project would route a task to now, and
whether a project is gone. -/
structure Identities where
  loadTaskVideoCheckpoint : Task → Option String
  providerProjection : Task → String
  isDeletedProjectName : String → Bool

variable (identities : Identities)

/-- `classify_video_resume_state`, with the provider of an accepted checkpoint. -/
def classifyVideoResumeState (task : Task) : VideoResumeState × Option String :=
  let hasCheckpointAttempt := task.executionCheckpointJson.getD "" ≠ ""
  if task.providerJobId.getD "" = "" then
    (if hasCheckpointAttempt then .checkpointWithoutJob else .noCheckpointNoJob, none)
  else if ¬ hasCheckpointAttempt then (.identityUnrecoverable, none)
  else
    match identities.loadTaskVideoCheckpoint task with
    | some providerId => (.ready, some providerId)
    | none => (.identityUnrecoverable, none)

def nonResumableVideoProviders : List String := ["grok", "vidu"]

def videoTaskTypes : List String := ["video", "reference_video"]

def orphanMediaType (task : Task) : String :=
  if task.mediaType ≠ "" then task.mediaType
  else if task.taskType ∈ videoTaskTypes then "video"
  else if task.taskType = "tts" then "audio"
  else "image"

abbrev Failure := String × List (String × String)

inductive Recovery where
  | fail (failure : Failure)
  | resume (providerId : String)
  deriving DecidableEq, Repr

def unrecoverable : Failure :=
  ("execution_identity_unrecoverable",
    [("detail", "missing, malformed, or mismatched video submission checkpoint")])

def lostVideo : VideoResumeState → Failure
  | .noCheckpointNoJob => ("restart_lost_no_job_id", [])
  | .checkpointWithoutJob => ("restart_lost_checkpoint_no_job_id", [])
  | .identityUnrecoverable | .ready => unrecoverable

def videoProvider (task : Task) (checkpoint : Option String) : String :=
  checkpoint.getD
    (if task.providerId.getD "" ≠ "" then task.providerId.getD ""
      else identities.providerProjection task)

def recoverVideo (task : Task) (checkpoint : Option String) : Recovery :=
  if videoProvider identities task checkpoint ∈ nonResumableVideoProviders then
    .fail ("resume_unsupported_provider",
      [("provider_id", videoProvider identities task checkpoint)])
  else if task.providerJobId.getD "" = "" then .fail ("restart_lost_no_job_id", [])
  else .resume (videoProvider identities task checkpoint)

/-- What `handle_orphans` does with one orphan. -/
def handleOrphan (task : Task) : Recovery :=
  match orphanMediaType task with
  | "image" => .fail ("restart_lost_image", [])
  | "audio" => .fail ("restart_lost_audio", [])
  | "text" => .fail ("restart_lost_text", [])
  | "render" => .fail ("restart_lost_render", [])
  | _ =>
      if task.taskType ∈ videoTaskTypes then
        match classifyVideoResumeState identities task with
        | (.ready, checkpoint) => recoverVideo identities task checkpoint
        | (state, _) => .fail (lostVideo state)
      else recoverVideo identities task none

/-- What `VideoResumeRunner` does with a dispatched task before it polls: it looks once more. -/
def runResume (task : Task) : Option Failure :=
  let (state, _) := classifyVideoResumeState identities task
  if identities.isDeletedProjectName task.projectName then some ("project_deleted_during_task", [])
  else if task.taskType ∈ videoTaskTypes ∧ state ≠ .ready then some (lostVideo state)
  else if task.providerJobId.getD "" = "" then some ("restart_lost_resume_no_job_id", [])
  else none

variable {identities}

theorem recoverVideo_resume {task : Task} {checkpoint : Option String} :
    (∃ providerId, recoverVideo identities task checkpoint = .resume providerId) ↔
      videoProvider identities task checkpoint ∉ nonResumableVideoProviders ∧
        task.providerJobId.getD "" ≠ "" := by
  unfold recoverVideo
  split_ifs with hprovider hjob
  · simp [hprovider]
  · simp [hjob]
  · simp [hprovider, hjob]

/-- Recovery leaves a task to be polled exactly when the runner polls it, but for the media and the
providers whose jobs are not resumed. -/
theorem resumed_iff_polled {task : Task} (hkept : identities.isDeletedProjectName task.projectName = false) :
    (∃ providerId, handleOrphan identities task = .resume providerId) ↔
      orphanMediaType task ∉ ["image", "audio", "text", "render"] ∧
        videoProvider identities task
          (if task.taskType ∈ videoTaskTypes then (classifyVideoResumeState identities task).2
            else none) ∉ nonResumableVideoProviders ∧
        runResume identities task = none := by
  have hpolled : runResume identities task = none ↔
      (task.taskType ∈ videoTaskTypes → (classifyVideoResumeState identities task).1 = .ready) ∧
        task.providerJobId.getD "" ≠ "" := by
    unfold runResume
    dsimp only
    rw [hkept, if_neg Bool.false_ne_true]
    split_ifs with hvideo hjob <;> simp_all
  rw [hpolled]
  unfold handleOrphan
  split
  case h_5 =>
    split
    · rename_i hvideo
      split
      · rename_i checkpoint hready
        rw [recoverVideo_resume]
        simp_all
      · rename_i hready hstate
        refine iff_of_false (by rintro ⟨_, h⟩; cases h) fun h => hready ?_
        exact (congrArg Prod.fst hstate).symm.trans (h.2.2.1 hvideo)
    · rename_i hother
      rw [recoverVideo_resume]
      simp_all
  all_goals simp_all

def polledTask : Task where
  taskId := "a"
  projectName := "demo"
  taskType := "video"
  mediaType := "video"
  resourceId := "E1S01"
  status := .running
  providerJobId := some "job"
  executionCheckpointJson := some "checkpoint"
  queuedAt := 1
  updatedAt := 2

theorem resumed_iff_polled_task :
    runResume ⟨fun _ => some "ark", fun _ => "ark", fun _ => false⟩ polledTask = none :=
  ((resumed_iff_polled rfl).mp ⟨"ark", rfl⟩).2.2

end ShortReel.RestartRecovery
