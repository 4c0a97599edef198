import ShortReel.RestartRecovery
import ShortReel.TaskQueue

/-!
# At most one provider job for a video task

The executions of video tasks beside the queue: a worker claims a task and submits it, the process
restarts, orphans are recovered, tasks are put back into the queue by hand, downloads are retried.
-/

namespace ShortReel.VideoSubmissions

open TableUpdates GenerationTables TaskRepository TaskTransactions TaskQueue RestartRecovery

/-- Where an execution stands: before the submit boundary, calling the provider, with a job the
provider has accepted, or continuing a job of before. -/
inductive Phase where
  | preparing | calling | submitted | resuming
  deriving DecidableEq, Repr

structure Execution where
  task : Task
  phase : Phase
  step : ℕ := 0

def ladderSteps : ℕ := 4

/-- The queue, the executions of this process, and what has happened so far: for every persisted
checkpoint and for every provider job, the id of the task. -/
structure SubmissionState where
  queue : QueueState := {}
  executions : List Execution := []
  persisted : List String := []
  submitted : List String := []

def ofWorker : QueueCommand → Bool
  | .claimNext .. | .persistProviderJobId .. | .persistExecutionCheckpoint .. => true
  | _ => false

inductive Event where
  /-- A transaction of anyone else. -/
  | command (command : QueueCommand)
  | claim (mediaType : String) (poolFullProviders excludeTaskIds : List String) (now : Time)
  | callOnce (position : ℕ) (checkpointJson providerId : String) (now : Time)
  | accepted (position : ℕ)
  | rejected (position landed : ℕ)
  | jobKnown (position : ℕ) (jobId : String) (endpoint baseUrl : Option String) (now : Time)
  /-- The execution ends, for any reason and with whatever transactions of others follow. -/
  | leave (position : ℕ)
  | restart
  | recoverOrphan (task : Task) (now : Time)
  | resume (position : ℕ) (now : Time)
  | retryDownload (taskId : String) (now : Time)

variable (texts : FailureTexts) (identities : Identities)

namespace SubmissionState

variable (state : SubmissionState)

def withExecution (position : ℕ) (phase : Phase) (next : Execution → SubmissionState) :
    SubmissionState :=
  match state.executions[position]? with
  | some execution => if execution.phase = phase then next execution else state
  | none => state

def set (position : ℕ) (execution : Execution) : SubmissionState :=
  { state with executions := state.executions.set position execution }

def leave (position : ℕ) : SubmissionState :=
  { state with executions := state.executions.eraseIdx position }

def start (task : Task) (phase : Phase) : SubmissionState :=
  { state with executions := state.executions ++ [{ task, phase }] }

def fail (taskId : String) (failure : Failure) (now : Time) : SubmissionState :=
  { state with
    queue := run texts state.queue
      (.markFailed taskId (texts.encodeFailure failure.1 failure.2) now) }

def claim (mediaType : String) (poolFullProviders excludeTaskIds : List String) (now : Time) :
    SubmissionState :=
  let claimed : SubmissionState := { state with
    queue := run texts state.queue (.claimNext mediaType poolFullProviders excludeTaskIds now) }
  match (claimNext state.queue.store mediaType poolFullProviders excludeTaskIds now).1 with
  | some task => if task.taskType ∈ videoTaskTypes then claimed.start task .preparing else claimed
  | none => claimed

/-- `_call_once` of an execution that has not crossed the submit boundary: its checkpoint is
persisted, or it gives up. -/
def callOnce (position : ℕ) (checkpointJson providerId : String) (now : Time) : SubmissionState :=
  state.withExecution position .preparing fun execution =>
    match persistExecutionCheckpoint state.queue.store execution.task.taskId checkpointJson
      providerId now with
    | .ok store =>
        { state.set position { execution with phase := .calling } with
          queue := { state.queue with store }
          persisted := execution.task.taskId :: state.persisted }
    | .error _ => state.leave position

/-- `handle_orphans`, for one task it found running. -/
def recoverOrphan (task : Task) (now : Time) : SubmissionState :=
  if task.taskId ∈ state.executions.map (·.task.taskId) then state
  else
    match handleOrphan identities task with
    | .fail failure => state.fail texts task.taskId failure now
    | .resume _ => state.start task .resuming

def advance : Event → SubmissionState
  | .command command =>
      if ofWorker command then state else { state with queue := run texts state.queue command }
  | .claim mediaType poolFullProviders excludeTaskIds now =>
      state.claim texts mediaType poolFullProviders excludeTaskIds now
  | .callOnce position checkpointJson providerId now =>
      state.callOnce position checkpointJson providerId now
  | .accepted position =>
      state.withExecution position .calling fun execution =>
        { state.set position { execution with phase := .submitted } with
          submitted := execution.task.taskId :: state.submitted }
  | .rejected position landed =>
      state.withExecution position .calling fun execution =>
        if landed < ladderSteps then state.set position { execution with step := landed + 1 }
        else state.leave position
  | .jobKnown position jobId endpoint baseUrl now =>
      state.withExecution position .submitted fun execution =>
        { state with
          queue := run texts state.queue
            (.persistProviderJobId execution.task.taskId jobId endpoint baseUrl now) }
  | .leave position => state.leave position
  | .restart => { state with executions := [] }
  | .recoverOrphan task now => state.recoverOrphan texts identities task now
  | .resume position now =>
      state.withExecution position .resuming fun execution =>
        match runResume identities execution.task with
        | some failure => (state.leave position).fail texts execution.task.taskId failure now
        | none => state
  | .retryDownload taskId now =>
      match retryArtifactDownload state.queue.store texts taskId now with
      | .ok (task, store) =>
          { state.start task .resuming with queue := { state.queue with store } }
      | .error _ => state

end SubmissionState

def submissions : TransitionSystem SubmissionState Event :=
  .ofRun (· = {}) (SubmissionState.advance texts identities)

def calling (taskId : String) (executions : List Execution) : ℕ :=
  executions.countP fun execution => execution.task.taskId = taskId ∧ execution.phase = .calling

/-- The jobs of a task, and those it may still get without another checkpoint. -/
def budget (taskId : String) (state : SubmissionState) : ℕ :=
  state.submitted.count taskId + calling taskId state.executions

variable {texts identities} {state later : SubmissionState}

theorem calling_start (taskId : String) (task : Task) {phase : Phase} (hphase : phase ≠ .calling) :
    calling taskId (state.start task phase).executions = calling taskId state.executions := by
  simp [calling, SubmissionState.start, List.countP_append, hphase]

theorem calling_leave_le (taskId : String) (position : ℕ) :
    calling taskId (state.leave position).executions ≤ calling taskId state.executions :=
  (List.eraseIdx_sublist _ _).countP_le

theorem calling_set {position : ℕ} {old : Execution}
    (hold : state.executions[position]? = some old) (new : Execution) (taskId : String) :
    calling taskId (state.set position new).executions +
        (if old.task.taskId = taskId ∧ old.phase = .calling then 1 else 0) =
      calling taskId state.executions +
        if new.task.taskId = taskId ∧ new.phase = .calling then 1 else 0 := by
  obtain ⟨hlt, heq⟩ := List.getElem?_eq_some_iff.mp hold
  have hmem : old ∈ state.executions := heq ▸ List.getElem_mem hlt
  unfold calling SubmissionState.set
  rw [List.countP_set hlt, heq]
  have hpos : old.task.taskId = taskId ∧ old.phase = .calling →
      0 < state.executions.countP fun execution =>
        execution.task.taskId = taskId ∧ execution.phase = .calling :=
    fun h => List.countP_pos_iff.mpr ⟨old, hmem, by simpa using h⟩
  simp only [decide_eq_true_eq]
  split <;> rename_i h
  · have := hpos h
    omega
  · omega

def Persists (state later : SubmissionState) (taskId : String) : Prop :=
  later.persisted = taskId :: state.persisted ∧
    (∀ task ∈ state.queue.store.tasks, task.taskId = taskId → task.executionCheckpointJson = none) ∧
    ∃ task ∈ later.queue.store.tasks, task.taskId = taskId ∧ task.executionCheckpointJson ≠ none

/-- The queue moves by its own transactions, a job needs a call that was paid for by a persisted
checkpoint, and a checkpoint is persisted at most where there was none. -/
structure Advance (texts : FailureTexts) (state later : SubmissionState) : Prop where
  queue : later.queue = state.queue ∨
    ∃ command, later.queue = run texts state.queue command
  budget : ∀ taskId, budget taskId later + state.persisted.count taskId ≤
    budget taskId state + later.persisted.count taskId
  persisted : later.persisted = state.persisted ∨ ∃ taskId, Persists state later taskId

theorem advance_of_budget (hqueue : later.queue = state.queue ∨
      ∃ command, later.queue = run texts state.queue command)
    (hpersisted : later.persisted = state.persisted) (hsubmitted : later.submitted = state.submitted)
    (hcalling : ∀ taskId, calling taskId later.executions ≤ calling taskId state.executions) :
    Advance texts state later := by
  refine ⟨hqueue, fun taskId => ?_, Or.inl hpersisted⟩
  have hle := hcalling taskId
  unfold budget
  rw [hpersisted, hsubmitted]
  omega

theorem advance_refl (state : SubmissionState) : Advance texts state state :=
  advance_of_budget (Or.inl rfl) rfl rfl fun _ => le_rfl

theorem fail_queue (state : SubmissionState) (taskId : String) (failure : Failure) (now : Time) :
    ∃ command, (state.fail texts taskId failure now).queue = run texts state.queue command :=
  ⟨.markFailed taskId (texts.encodeFailure failure.1 failure.2) now, rfl⟩

theorem advance_withExecution {position : ℕ} {phase : Phase} {next : Execution → SubmissionState}
    (h : ∀ execution, state.executions[position]? = some execution → execution.phase = phase →
      Advance texts state (next execution)) :
    Advance texts state (state.withExecution position phase next) := by
  unfold SubmissionState.withExecution
  split
  · rename_i execution hexecution
    split
    · exact h execution hexecution ‹_›
    · exact advance_refl state
  · exact advance_refl state

theorem advance_claim {mediaType : String} {poolFullProviders excludeTaskIds : List String}
    {now : Time} :
    Advance texts state (state.claim texts mediaType poolFullProviders excludeTaskIds now) := by
  have hqueue : ∃ command, run texts state.queue
      (.claimNext mediaType poolFullProviders excludeTaskIds now) = run texts state.queue command :=
    ⟨_, rfl⟩
  unfold SubmissionState.claim
  dsimp only
  split
  · split
    · refine advance_of_budget (Or.inr hqueue) rfl rfl fun taskId => ?_
      exact (calling_start taskId _ (by decide)).le
    · exact advance_of_budget (Or.inr hqueue) rfl rfl fun _ => le_rfl
  · exact advance_of_budget (Or.inr hqueue) rfl rfl fun _ => le_rfl

theorem advance_leave (position : ℕ) : Advance texts state (state.leave position) :=
  advance_of_budget (Or.inl rfl) rfl rfl fun taskId => calling_leave_le taskId position

theorem advance_callOnce (hbase : Base state.queue.store state.queue.claimed) {position : ℕ}
    {checkpointJson providerId : String} {now : Time} :
    Advance texts state (state.callOnce position checkpointJson providerId now) := by
  refine advance_withExecution fun execution hexecution hphase => ?_
  split
  · rename_i store hpersisted
    have hrun : run texts state.queue (.persistExecutionCheckpoint execution.task.taskId
        checkpointJson providerId now) = { state.queue with store } := by
      simp only [run, hpersisted]
    refine ⟨Or.inr ⟨_, hrun.symm⟩, fun taskId => ?_, Or.inr ⟨execution.task.taskId, rfl, ?_⟩⟩
    · have hset := calling_set hexecution { execution with phase := .calling } taskId
      simp only [hphase, and_true, reduceCtorEq, and_false, if_false, Nat.add_zero] at hset
      show state.submitted.count taskId +
          calling taskId (state.set position { execution with phase := .calling }).executions +
          state.persisted.count taskId ≤
        budget taskId state + (execution.task.taskId :: state.persisted).count taskId
      simp only [budget, List.count_cons, beq_iff_eq]
      omega
    · obtain ⟨⟨row, hrow, hguard⟩, rfl⟩ := persistExecutionCheckpoint_ok hpersisted
      refine ⟨fun task htask hid => ?_, _, mem_updateWhere.mpr (Or.inr ⟨row, hrow, hguard, rfl⟩),
        hguard.1, Option.some_ne_none _⟩
      rw [List.inj_on_of_nodup_map hbase.unique htask hrow (hid.trans hguard.1.symm)]
      exact hguard.2.2.2.1
  · exact advance_leave position

theorem advance_recoverOrphan {task : Task} {now : Time} :
    Advance texts state (state.recoverOrphan texts identities task now) := by
  unfold SubmissionState.recoverOrphan
  split
  · exact advance_refl state
  · split
    · rename_i failure _
      exact advance_of_budget (Or.inr (fail_queue state task.taskId failure now)) rfl rfl
        fun _ => le_rfl
    · exact advance_of_budget (Or.inl rfl) rfl rfl fun taskId =>
        (calling_start taskId _ (by decide)).le

theorem advance_accepted {position : ℕ} :
    Advance texts state (state.advance texts identities (.accepted position)) := by
  refine advance_withExecution fun execution hexecution hphase => ?_
  refine ⟨Or.inl rfl, fun taskId => ?_, Or.inl rfl⟩
  have hset := calling_set hexecution { execution with phase := .submitted } taskId
  simp only [hphase, and_true, reduceCtorEq, and_false, if_false, Nat.add_zero] at hset
  show (execution.task.taskId :: state.submitted).count taskId +
      calling taskId (state.set position { execution with phase := .submitted }).executions +
      state.persisted.count taskId ≤ budget taskId state + state.persisted.count taskId
  simp only [budget, List.count_cons, beq_iff_eq]
  omega

theorem advance_step (hbase : Base state.queue.store state.queue.claimed) (event : Event) :
    Advance texts state (state.advance texts identities event) := by
  cases event with
  | command command =>
      simp only [SubmissionState.advance]
      split
      · exact advance_refl state
      · exact advance_of_budget (Or.inr ⟨command, rfl⟩) rfl rfl fun _ => le_rfl
  | claim mediaType poolFullProviders excludeTaskIds now => exact advance_claim
  | callOnce position checkpointJson providerId now => exact advance_callOnce hbase
  | accepted position => exact advance_accepted
  | rejected position landed =>
      refine advance_withExecution fun execution hexecution hphase => ?_
      split
      · refine advance_of_budget (Or.inl rfl) rfl rfl fun taskId => ?_
        have hset := calling_set hexecution { execution with step := landed + 1 } taskId
        exact (Nat.add_right_cancel hset).le
      · exact advance_leave position
  | jobKnown position jobId endpoint baseUrl now =>
      exact advance_withExecution fun execution _ _ => advance_of_budget
        (Or.inr ⟨.persistProviderJobId execution.task.taskId jobId endpoint baseUrl now, rfl⟩)
        rfl rfl fun _ => le_rfl
  | leave position => exact advance_leave position
  | restart => exact advance_of_budget (Or.inl rfl) rfl rfl fun _ => Nat.zero_le _
  | recoverOrphan task now => exact advance_recoverOrphan
  | resume position now =>
      refine advance_withExecution fun execution _ _ => ?_
      split
      · rename_i failure _
        exact advance_of_budget (Or.inr (fail_queue (state.leave position) _ failure now)) rfl rfl
          fun taskId => calling_leave_le taskId position
      · exact advance_refl state
  | retryDownload taskId now =>
      simp only [SubmissionState.advance]
      split
      · rename_i task store hretried
        have hrun : run texts state.queue (.retryArtifactDownload taskId now) =
            { state.queue with store } := by
          simp only [run, hretried]
        exact advance_of_budget (Or.inr ⟨_, hrun.symm⟩) rfl rfl fun taskId =>
          (calling_start taskId _ (by decide)).le
      · exact advance_refl state

theorem base_of_advance (hbase : Base state.queue.store state.queue.claimed)
    (hadvance : Advance texts state later) : Base later.queue.store later.queue.claimed := by
  rcases hadvance.queue with hqueue | ⟨command, hqueue⟩
  · rw [hqueue]
    exact hbase
  · rw [hqueue]
    exact base_run hbase command

def HasCheckpoint (state : SubmissionState) (taskId checkpoint : String) : Prop :=
  ∃ task, state.queue.store.task? taskId = some task ∧
    task.executionCheckpointJson = some checkpoint

theorem hasCheckpoint_of_mem (hbase : Base state.queue.store state.queue.claimed) {task : Task}
    {taskId checkpoint : String} (htask : task ∈ state.queue.store.tasks) (hid : task.taskId = taskId)
    (hcheckpoint : task.executionCheckpointJson = some checkpoint) :
    HasCheckpoint state taskId checkpoint := by
  obtain ⟨row, hrow⟩ := task?_isSome htask hid
  obtain ⟨hmem, hrowid⟩ := mem_of_task? hrow
  rw [← List.inj_on_of_nodup_map hbase.unique hmem htask (hrowid.trans hid.symm)] at hcheckpoint
  exact ⟨row, hrow, hcheckpoint⟩

theorem HasCheckpoint.advance {taskId checkpoint : String}
    (hbase : Base state.queue.store state.queue.claimed) (hadvance : Advance texts state later)
    (h : HasCheckpoint state taskId checkpoint) : HasCheckpoint later taskId checkpoint := by
  obtain ⟨task, htask, hcheckpoint⟩ := h
  obtain ⟨hmem, hid⟩ := mem_of_task? htask
  rcases hadvance.queue with hqueue | ⟨command, hqueue⟩
  · exact ⟨task, hqueue ▸ htask, hcheckpoint⟩
  · obtain ⟨new, hnew, hkept⟩ := exists_kept hbase command hmem
    rw [← hqueue] at hnew
    exact hasCheckpoint_of_mem (base_of_advance hbase hadvance) hnew (hkept.taskId.trans hid)
      (hkept.checkpoint checkpoint hcheckpoint)

/-- Every job and every call that may still bring one was paid for by a checkpoint persisted, for a
task that now has it, and none was persisted twice. -/
structure Once (state : SubmissionState) : Prop where
  base : Base state.queue.store state.queue.claimed
  paid : ∀ taskId, budget taskId state ≤ state.persisted.count taskId
  once : ∀ taskId, state.persisted.count taskId ≤ 1
  checkpoint : ∀ taskId ∈ state.persisted, ∃ checkpoint, HasCheckpoint state taskId checkpoint

theorem Persists.notMem {taskId : String} (honce : Once state) (h : Persists state later taskId) :
    taskId ∉ state.persisted := by
  intro hmem
  obtain ⟨checkpoint, task, htask, hcheckpoint⟩ := honce.checkpoint taskId hmem
  obtain ⟨hmem, hid⟩ := mem_of_task? htask
  rw [h.2.1 task hmem hid] at hcheckpoint
  cases hcheckpoint

theorem Once.advance (honce : Once state) (hadvance : Advance texts state later) : Once later := by
  have hbase := base_of_advance honce.base hadvance
  refine ⟨hbase, fun taskId => ?_, ?_, ?_⟩
  · have hpaid := honce.paid taskId
    have hbudget := hadvance.budget taskId
    omega
  · rcases hadvance.persisted with heq | ⟨paid, hpersists⟩
    · rw [heq]
      exact honce.once
    · intro taskId
      rw [hpersists.1, List.count_cons]
      split
      · rename_i hsame
        rw [← beq_iff_eq.mp hsame, List.count_eq_zero_of_not_mem (hpersists.notMem honce)]
      · exact honce.once taskId
  · have hkept : ∀ taskId ∈ state.persisted, ∃ checkpoint, HasCheckpoint later taskId checkpoint := by
      intro taskId hmem
      obtain ⟨checkpoint, hcheckpoint⟩ := honce.checkpoint taskId hmem
      exact ⟨checkpoint, hcheckpoint.advance honce.base hadvance⟩
    rcases hadvance.persisted with heq | ⟨paid, hpersists⟩
    · rw [heq]
      exact hkept
    · rw [hpersists.1]
      intro taskId hmem
      rcases List.mem_cons.mp hmem with rfl | hmem
      · obtain ⟨task, htask, hid, hsome⟩ := hpersists.2.2
        obtain ⟨checkpoint, hcheckpoint⟩ := Option.ne_none_iff_exists'.mp hsome
        exact ⟨checkpoint, hasCheckpoint_of_mem hbase htask hid hcheckpoint⟩
      · exact hkept taskId hmem

theorem once_of_reachable (hreach : (submissions texts identities).Reachable state) :
    Once state := by
  refine hreach.invariant Once ?_ ?_
  · rintro _ rfl
    exact ⟨base_empty, fun _ => le_rfl, fun _ => Nat.zero_le _, fun _ h => absurd h List.not_mem_nil⟩
  · rintro state event _ - honce - rfl
    exact honce.advance (advance_step honce.base event)

/-- For a task with a checkpoint: it keeps it, gets no other, and gets no job but from calls that
were already made under it. -/
def Settled (taskId : String) (state later : SubmissionState) : Prop :=
  ∀ checkpoint, HasCheckpoint state taskId checkpoint →
    HasCheckpoint later taskId checkpoint ∧
      later.persisted.count taskId = state.persisted.count taskId ∧
      budget taskId later ≤ budget taskId state

theorem settled_of_advance (taskId : String) (honce : Once state)
    (hadvance : Advance texts state later) : Settled taskId state later := by
  intro checkpoint hcheckpoint
  have hcount : later.persisted.count taskId = state.persisted.count taskId := by
    rcases hadvance.persisted with heq | ⟨paid, hpersists⟩
    · rw [heq]
    · have hne : paid ≠ taskId := by
        rintro rfl
        obtain ⟨task, htask, hsome⟩ := hcheckpoint
        obtain ⟨hmem, hid⟩ := mem_of_task? htask
        rw [hpersists.2.1 task hmem hid] at hsome
        cases hsome
      rw [hpersists.1, List.count_cons_of_ne hne]
  have hbudget := hadvance.budget taskId
  exact ⟨hcheckpoint.advance honce.base hadvance, hcount, by omega⟩

def sampleIdentities : Identities where
  loadTaskVideoCheckpoint _ := some "ark"
  providerProjection _ := "ark"
  isDeletedProjectName _ := false

def sampleEvents : List Event :=
  [.command (.enqueue (sampleRequest "E1S01" none) "a" 1 fun _ _ => .ok ()),
    .claim "video" [] [] 2, .callOnce 0 "checkpoint" "ark" 3, .accepted 0, .restart,
    .command (.requeueRunning 1000 4), .claim "video" [] [] 5, .callOnce 0 "other" "ark" 6]

def sampleState : SubmissionState :=
  sampleEvents.foldl (SubmissionState.advance sampleTexts sampleIdentities) {}

example : sampleState.persisted = ["a"] ∧ sampleState.submitted = ["a"] ∧
    sampleState.executions.length = 0 := by decide

end ShortReel.VideoSubmissions
