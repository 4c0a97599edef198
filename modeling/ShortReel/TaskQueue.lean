import ShortReel.TransitionSystem
import ShortReel.TaskTransactions

/-!
# Runs of the task queue

The queue as a system: its tables, and the transactions of the repository in any order, from any
callers. A transaction that raises leaves the tables as they were. Beside the tables a state
remembers which tasks have ever been claimed.
-/

namespace ShortReel.TaskQueue

open TableUpdates GenerationTables TaskRepository TaskTransactions

structure QueueState where
  store : Store := {}
  claimed : List String := []

inductive QueueCommand where
  | enqueue (request : EnqueueRequest) (taskId : String) (now : Time)
      (dedupeGuard : String → String → Except TaskError Unit)
  | createBatch (batch : GenerationBatch)
  | claimNext (mediaType : String) (poolFullProviders excludeTaskIds : List String) (now : Time)
  | markSucceeded (taskId result : String) (now : Time)
  | markFailed (taskId errorMessage : String) (now : Time)
  | cancelTask (taskId : String) (now : Time)
  | cancelAllQueued (projectName : String) (excludeMediaTypes : List String) (now : Time)
  | finalizeInterrupted (taskId : String) (now : Time)
  | requeueRunning (limit : ℤ) (now : Time)
  | requeueSingleTask (taskId : String) (now : Time)
  | retryArtifactDownload (taskId : String) (now : Time)
  /-- Only a worker that runs a task has a job of it to record. -/
  | persistProviderJobId (taskId jobId : String) (endpoint baseUrl : Option String) (now : Time)
  | persistExecutionCheckpoint (taskId checkpointJson providerId : String) (now : Time)
  | persistExecutionProviderId (taskId providerId : String) (now : Time)
  /-- Whatever the ledger writes into its own table. -/
  | writeCalls (calls : List ApiCall)

variable (texts : FailureTexts)

def run (state : QueueState) : QueueCommand → QueueState
  | .enqueue request taskId now dedupeGuard =>
      match enqueue state.store request taskId now dedupeGuard with
      | .ok (_, store) => { state with store }
      | .error _ => state
  | .createBatch batch =>
      match createBatch state.store batch with
      | .ok store => { state with store }
      | .error _ => state
  | .claimNext mediaType poolFullProviders excludeTaskIds now =>
      let (claimed, store) := claimNext state.store mediaType poolFullProviders excludeTaskIds now
      { store, claimed := (claimed.map (·.taskId)).toList ++ state.claimed }
  | .markSucceeded taskId result now =>
      { state with store := (markSucceeded state.store taskId result now).2 }
  | .markFailed taskId errorMessage now =>
      { state with store := (markFailed state.store texts taskId errorMessage now).2 }
  | .cancelTask taskId now =>
      match cancelTask state.store taskId now with
      | .ok (_, store) => { state with store }
      | .error _ => state
  | .cancelAllQueued projectName excludeMediaTypes now =>
      { state with store := (cancelAllQueued state.store projectName excludeMediaTypes now).2 }
  | .finalizeInterrupted taskId now =>
      { state with store := (finalizeInterrupted state.store taskId now).2 }
  | .requeueRunning limit now =>
      { state with store := (requeueRunning state.store limit now).2 }
  | .requeueSingleTask taskId now =>
      { state with store := (requeueSingleTask state.store taskId now).2 }
  | .retryArtifactDownload taskId now =>
      match retryArtifactDownload state.store texts taskId now with
      | .ok (_, store) => { state with store }
      | .error _ => state
  | .persistProviderJobId taskId jobId endpoint baseUrl now =>
      if taskId ∈ state.claimed then
        { state with store := persistProviderJobId state.store taskId jobId endpoint baseUrl now }
      else state
  | .persistExecutionCheckpoint taskId checkpointJson providerId now =>
      match persistExecutionCheckpoint state.store taskId checkpointJson providerId now with
      | .ok store => { state with store }
      | .error _ => state
  | .persistExecutionProviderId taskId providerId now =>
      { state with store := persistExecutionProviderId state.store taskId providerId now }
  | .writeCalls calls => { state with store := { state.store with apiCalls := calls } }

def queue : TransitionSystem QueueState QueueCommand :=
  .ofRun (· = {}) (run texts)

/-- Ids are unique, and what runs, has a job or ever ran was claimed, after its dependency had
succeeded. -/
structure Base (store : Store) (claimed : List String) : Prop where
  unique : UniqueIds store
  known : ∀ id ∈ claimed, ∃ task ∈ store.tasks, task.taskId = id
  done : ∀ task ∈ store.tasks, task.taskId ∈ claimed → dependencyDone store task
  running : ∀ task ∈ store.tasks, task.status = .running → task.taskId ∈ claimed
  job : ∀ task ∈ store.tasks, task.providerJobId ≠ none → task.taskId ∈ claimed

structure Kept (claimed : List String) (old new : Task) : Prop where
  taskId : new.taskId = old.taskId
  dependency : new.dependencyTaskId = old.dependencyTaskId
  checkpoint : ∀ json, old.executionCheckpointJson = some json →
    new.executionCheckpointJson = some json
  succeeded : old.status = .succeeded → new.status = .succeeded
  running : new.status = .running → old.taskId ∈ claimed
  job : new.providerJobId ≠ none → old.taskId ∈ claimed

/-- What a transaction that ends no task keeps of a row besides: nothing unclaimed comes back into
the queue. -/
structure Calm (claimed : List String) (old new : Task) : Prop extends Kept claimed old new where
  dead : new.status.isDead → old.status.isDead
  queued : new.status = .queued → old.status = .queued ∨ old.taskId ∈ claimed

section Base

variable {store after : Store} {claimed : List String}

theorem calm_refl (hbase : Base store claimed) {task : Task} (htask : task ∈ store.tasks) :
    Calm claimed task task where
  taskId := rfl
  dependency := rfl
  checkpoint := fun _ => id
  succeeded := id
  running := hbase.running task htask
  job := hbase.job task htask
  dead := id
  queued := Or.inl

theorem calm_of_status_eq (hbase : Base store claimed) {old new : Task} (hold : old ∈ store.tasks)
    (hid : new.taskId = old.taskId) (hdependency : new.dependencyTaskId = old.dependencyTaskId)
    (hcheckpoint : ∀ json, old.executionCheckpointJson = some json →
      new.executionCheckpointJson = some json)
    (hstatus : new.status = old.status)
    (hjob : new.providerJobId = old.providerJobId ∨ old.taskId ∈ claimed) :
    Calm claimed old new where
  taskId := hid
  dependency := hdependency
  checkpoint := hcheckpoint
  succeeded := hstatus.trans
  running := fun h => hbase.running old hold (hstatus.symm.trans h)
  job := fun h => hjob.elim (fun heq => hbase.job old hold (heq ▸ h)) id
  dead := fun h => hstatus ▸ h
  queued := fun h => Or.inl (hstatus.symm.trans h)

theorem dependencyDone_of_kept {old new : Task}
    (hrows : List.Forall₂ (Kept claimed) store.tasks after.tasks) (hnew : Kept claimed old new)
    (hdone : dependencyDone store old) : dependencyDone after new := by
  unfold dependencyDone at *
  rw [hnew.dependency]
  cases hdependency : old.dependencyTaskId with
  | none => trivial
  | some dependency =>
      rw [hdependency] at hdone
      obtain ⟨row, hrow, hid, hsucceeded⟩ := hdone
      obtain ⟨later, hlater, hkept⟩ := exists_after hrows hrow
      exact ⟨later, hlater, hkept.taskId.trans hid, hkept.succeeded hsucceeded⟩

/-- A transaction that keeps the rows keeps the invariant. -/
theorem base_of_kept (hbase : Base store claimed)
    (hrows : List.Forall₂ (Kept claimed) store.tasks after.tasks) : Base after claimed where
  unique := by
    unfold UniqueIds
    rw [← forall₂_map_eq (fun _ _ hkept => hkept.taskId.symm) hrows]
    exact hbase.unique
  known := by
    intro id hid
    obtain ⟨task, htask, heq⟩ := hbase.known id hid
    obtain ⟨later, hlater, hkept⟩ := exists_after hrows htask
    exact ⟨later, hlater, hkept.taskId.trans heq⟩
  done := by
    intro task htask hid
    obtain ⟨old, hold, hkept⟩ := exists_before hrows htask
    exact dependencyDone_of_kept hrows hkept (hbase.done old hold (hkept.taskId ▸ hid))
  running := by
    intro task htask hstatus
    obtain ⟨old, hold, hkept⟩ := exists_before hrows htask
    exact hkept.taskId ▸ hkept.running hstatus
  job := by
    intro task htask hjob
    obtain ⟨old, hold, hkept⟩ := exists_before hrows htask
    exact hkept.taskId ▸ hkept.job hjob

theorem calm_updateWhere (hbase : Base store claimed) {guard : Task → Prop} [DecidablePred guard]
    {values : Task → Task}
    (hset : ∀ task ∈ store.tasks, guard task → Calm claimed task (values task)) :
    List.Forall₂ (Calm claimed) store.tasks (updateWhere guard values store.tasks) :=
  forall₂_updateWhere (fun _ htask _ => calm_refl hbase htask) hset

theorem kept_of_moved (hbase : Base store claimed) {fromStatuses toStatuses : List TaskStatus}
    (hfrom : .succeeded ∉ fromStatuses) (hto : .running ∉ toStatuses) {old new : Task}
    (hold : old ∈ store.tasks) (hmoved : Moved fromStatuses toStatuses old new) :
    Kept claimed old new := by
  rcases hmoved with rfl | ⟨hrestated, hfromold, htonew⟩
  · exact (calm_refl hbase hold).toKept
  · refine ⟨hrestated.taskId_eq, hrestated.dependency_eq,
      fun _ h => hrestated.checkpoint_eq.trans h, fun h => ?_, fun h => ?_, fun h => ?_⟩
    · exact absurd (h ▸ hfromold) hfrom
    · exact absurd (h ▸ htonew) hto
    · exact hbase.job old hold (hrestated.providerJobId_eq ▸ h)

theorem kept_of_rowsMoved (hbase : Base store claimed) {fromStatuses toStatuses : List TaskStatus}
    (hfrom : .succeeded ∉ fromStatuses) (hto : .running ∉ toStatuses)
    (hmoved : RowsMoved fromStatuses toStatuses store.tasks after.tasks) :
    List.Forall₂ (Kept claimed) store.tasks after.tasks :=
  forall₂_imp_of_mem hmoved fun _ hold _ hmoved => kept_of_moved hbase hfrom hto hold hmoved

theorem calm_of_rowsMoved (hbase : Base store claimed) {status : TaskStatus}
    (hstatus : status = .succeeded ∨ status = .queued)
    (hmoved : RowsMoved [.running] [status] store.tasks after.tasks) :
    List.Forall₂ (Calm claimed) store.tasks after.tasks := by
  refine forall₂_imp_of_mem hmoved fun old hold new hmoved => ?_
  have hrunning : .running ∉ [status] := by rcases hstatus with rfl | rfl <;> decide
  refine ⟨kept_of_moved hbase (by decide) hrunning hold hmoved, fun hdead => ?_, fun hqueued => ?_⟩
  · rcases hmoved with rfl | ⟨-, -, hnew⟩
    · exact hdead
    · rw [List.mem_singleton] at hnew
      rw [hnew] at hdead
      rcases hstatus with rfl | rfl <;> simp [TaskStatus.isDead] at hdead
  · rcases hmoved with rfl | ⟨-, hran, -⟩
    · exact Or.inl hqueued
    · exact Or.inr (hbase.running old hold (List.mem_singleton.mp hran))

end Base

/-- The request gets a row of its own: its batch owns its units and none of them has a task yet,
the id is fresh and no active task holds its key. -/
structure Inserts (store : Store) (request : EnqueueRequest) (taskId : String) (now : Time) :
    Prop where
  batch : checkBatch store request = .ok ()
  units : ∀ row ∈ store.batchTasks, request.batchId = some row.batchId →
    row.unitId ∉ request.unitIds
  fresh : store.task? taskId = none
  free : ¬ activeKeyTaken store taskId (request.task taskId now).dedupeKey

section Enqueue

variable {store after : Store} {request : EnqueueRequest} {taskId : String} {now : Time}
variable {dedupeGuard : String → String → Except TaskError Unit}

theorem addBatchTasks_tasks {deduped : Bool}
    (h : addBatchTasks store request taskId deduped = .ok after) : after.tasks = store.tasks := by
  unfold addBatchTasks at h
  split at h
  · cases h
    rfl
  · split at h
    · cases h
    · cases h
      rfl

theorem addBatchTasks_eq_ok {deduped : Bool} :
    (∃ after, addBatchTasks store request taskId deduped = .ok after) ↔
      ∀ row ∈ store.batchTasks, request.batchId = some row.batchId →
        row.unitId ∉ request.unitIds := by
  unfold addBatchTasks
  split
  · rename_i hbatch
    refine iff_of_true ⟨_, rfl⟩ fun row _ h => ?_
    rw [hbatch] at h
    cases h
  · rename_i batchId hbatch
    split
    · rename_i htaken
      obtain ⟨row, hrow, rfl, hunit⟩ := htaken
      refine iff_of_false ?_ fun h => h row hrow hbatch hunit
      rintro ⟨after, hok⟩
      cases hok
    · rename_i hfree
      refine iff_of_true ⟨_, rfl⟩ fun row hrow hrowbatch hunit => hfree ⟨row, hrow, ?_, hunit⟩
      exact Option.some_inj.mp (hrowbatch.symm.trans hbatch)

theorem enqueue_inserts (dedupeGuard : String → String → Except TaskError Unit)
    (h : Inserts store request taskId now) :
    ∃ result after, enqueue store request taskId now dedupeGuard = .ok (result, after) ∧
      after.tasks = store.tasks ++ [request.task taskId now] := by
  obtain ⟨after, hafter⟩ : ∃ after, addBatchTasks
      { store with tasks := store.tasks ++ [request.task taskId now] } request taskId false =
        .ok after :=
    addBatchTasks_eq_ok.mpr h.units
  refine ⟨{ taskId, status := .queued, deduped := false }, after, ?_, addBatchTasks_tasks hafter⟩
  unfold enqueue
  simp only [h.batch, bind, Except.bind]
  rw [if_pos ⟨h.fresh, h.free⟩, hafter]
  rfl

theorem enqueue_joins (h : ¬ Inserts store request taskId now) {result : EnqueueResult}
    (hok : enqueue store request taskId now dedupeGuard = .ok (result, after)) :
    after.tasks = store.tasks := by
  unfold enqueue at hok
  simp only [bind_eq_ok] at hok
  obtain ⟨⟨⟩, hbatch, hok⟩ := hok
  split at hok
  · rename_i hnew
    obtain ⟨inserted, hinserted, -⟩ := bind_eq_ok.mp hok
    have hunits := addBatchTasks_eq_ok.mp ⟨_, hinserted⟩
    exact absurd ⟨hbatch, hunits, hnew.1, hnew.2⟩ h
  · split at hok
    · cases hok
    · obtain ⟨-, -, hok⟩ := bind_eq_ok.mp hok
      obtain ⟨updated, hupdated, hok⟩ := bind_eq_ok.mp hok
      cases hok
      exact addBatchTasks_tasks hupdated

end Enqueue

def QueueCommand.isPlain : QueueCommand → Bool
  | .enqueue .. | .cancelAllQueued .. => false
  | _ => true

/-- A plain command is calm, or ends tasks together with those queued behind them. -/
inductive Effect (state later : QueueState) : Prop where
  | calm (hbase : Base state.store later.claimed)
      (hrows : List.Forall₂ (Calm later.claimed) state.store.tasks later.store.tasks)
  | ended (hclaimed : later.claimed = state.claimed) (hended : Ended state.store later.store)

section Effect

variable {texts} {state : QueueState} {taskId : String} {now : Time}

theorem effect_of_tasks_eq (hbase : Base state.store state.claimed) {store : Store}
    (htasks : store.tasks = state.store.tasks) : Effect state { state with store } := by
  refine .calm hbase ?_
  rw [htasks]
  exact forall₂_imp_of_mem (List.forall₂_same.mpr fun _ _ => rfl) fun _ hold _ heq =>
    heq ▸ calm_refl hbase hold

theorem effect_of_updateWhere (hbase : Base state.store state.claimed) {store : Store}
    {guard : Task → Prop} [DecidablePred guard] {values : Task → Task}
    (htasks : store.tasks = updateWhere guard values state.store.tasks)
    (hset : ∀ task ∈ state.store.tasks, guard task → Calm state.claimed task (values task)) :
    Effect state { state with store } :=
  .calm hbase (htasks ▸ calm_updateWhere hbase hset)

theorem base_claim (hbase : Base state.store state.claimed) {task : Task}
    (htask : task ∈ state.store.tasks) (hdone : dependencyDone state.store task) :
    Base state.store (task.taskId :: state.claimed) where
  unique := hbase.unique
  known := by
    intro id hid
    rcases List.mem_cons.mp hid with rfl | hid
    · exact ⟨task, htask, rfl⟩
    · exact hbase.known id hid
  done := by
    intro other hother hid
    rcases List.mem_cons.mp hid with hid | hid
    · exact List.inj_on_of_nodup_map hbase.unique hother htask hid ▸ hdone
    · exact hbase.done other hother hid
  running := fun other hother hstatus => List.mem_cons_of_mem _ (hbase.running other hother hstatus)
  job := fun other hother hjob => List.mem_cons_of_mem _ (hbase.job other hother hjob)

theorem effect_claimNext (hbase : Base state.store state.claimed) {mediaType : String}
    {poolFullProviders excludeTaskIds : List String} :
    Effect state (run texts state (.claimNext mediaType poolFullProviders excludeTaskIds now)) := by
  simp only [run]
  rcases claimNext_ok state.store mediaType poolFullProviders excludeTaskIds now with
    hnone | ⟨task, htask, hclaimable, hid, htasks⟩
  · rw [hnone]
    exact effect_of_tasks_eq hbase rfl
  · rw [hid]
    have hclaim := base_claim hbase htask hclaimable.2.2.2.2
    refine .calm hclaim ?_
    rw [htasks]
    refine calm_updateWhere hclaim fun row hrow hguard => ?_
    have hclaimed : row.taskId ∈ task.taskId :: state.claimed :=
      hguard.1 ▸ List.mem_cons_self
    exact ⟨⟨rfl, rfl, fun _ => id, fun h => absurd (h.symm.trans hguard.2) nofun,
      fun _ => hclaimed, fun _ => hclaimed⟩, nofun, nofun⟩

theorem effect_retryArtifactDownload (hbase : Base state.store state.claimed) :
    Effect state (run texts state (.retryArtifactDownload taskId now)) := by
  simp only [run]
  split
  · rename_i hretried
    obtain ⟨task, htask, hid, heligible, htasks⟩ := retryArtifactDownload_ok hretried
    refine effect_of_updateWhere hbase htasks fun row hrow hguard => ?_
    have hsame : row = task := List.inj_on_of_nodup_map hbase.unique hrow htask (hguard.1.trans hid.symm)
    have hclaimed : row.taskId ∈ state.claimed := by
      refine hbase.job row hrow fun hnone => heligible.2.2.1 ?_
      rw [← hsame, hnone]
      rfl
    exact ⟨⟨rfl, rfl, fun _ => id, fun h => absurd (h.symm.trans hguard.2) nofun,
      fun _ => hclaimed, fun _ => hclaimed⟩, nofun, nofun⟩
  · exact effect_of_tasks_eq hbase rfl

theorem run_effect (hbase : Base state.store state.claimed) {command : QueueCommand}
    (hplain : command.isPlain) : Effect state (run texts state command) := by
  cases command with
  | enqueue => cases hplain
  | cancelAllQueued => cases hplain
  | createBatch batch =>
      simp only [run]
      split
      · rename_i hcreated
        refine effect_of_tasks_eq hbase ?_
        unfold createBatch at hcreated
        split at hcreated
        · cases hcreated
        · cases hcreated
          rfl
      · exact effect_of_tasks_eq hbase rfl
  | claimNext => exact effect_claimNext hbase
  | markSucceeded taskId result now =>
      exact .calm hbase (calm_of_rowsMoved hbase (Or.inl rfl) (markSucceeded_moved _ _ _ _))
  | markFailed taskId errorMessage now => exact .ended rfl (markFailed_ended _ _ _ _ _)
  | cancelTask taskId now =>
      simp only [run]
      split
      · rename_i hcancelled
        exact .ended rfl (cancelTask_ended hcancelled)
      · exact .ended rfl (ended_refl _)
  | finalizeInterrupted taskId now => exact .ended rfl (finalizeInterrupted_ended _ _ _)
  | requeueRunning limit now =>
      exact .calm hbase (calm_of_rowsMoved hbase (Or.inr rfl) (requeueRunning_moved _ _ _))
  | requeueSingleTask taskId now =>
      exact .calm hbase (calm_of_rowsMoved hbase (Or.inr rfl) (requeueSingleTask_moved _ _ _))
  | retryArtifactDownload => exact effect_retryArtifactDownload hbase
  | persistProviderJobId taskId jobId endpoint baseUrl now =>
      simp only [run]
      split
      · rename_i hclaimed
        exact effect_of_updateWhere hbase rfl fun row hrow hguard =>
          calm_of_status_eq hbase hrow rfl rfl (fun _ => id) rfl (Or.inr (hguard ▸ hclaimed))
      · exact effect_of_tasks_eq hbase rfl
  | persistExecutionCheckpoint taskId checkpointJson providerId now =>
      simp only [run]
      split
      · rename_i hpersisted
        obtain ⟨-, rfl⟩ := persistExecutionCheckpoint_ok hpersisted
        refine effect_of_updateWhere hbase rfl fun row hrow hguard =>
          calm_of_status_eq hbase hrow rfl rfl (fun json hjson => ?_) rfl (Or.inl rfl)
        exact absurd (hjson.symm.trans hguard.2.2.2.1) nofun
      · exact effect_of_tasks_eq hbase rfl
  | persistExecutionProviderId taskId providerId now =>
      exact effect_of_updateWhere hbase rfl fun row hrow _ =>
        calm_of_status_eq hbase hrow rfl rfl (fun _ => id) rfl (Or.inl rfl)
  | writeCalls calls => exact effect_of_tasks_eq hbase rfl

theorem kept_of_effect {later : QueueState} (hbase : Base state.store state.claimed)
    (heffect : Effect state later) :
    Base state.store later.claimed ∧
      List.Forall₂ (Kept later.claimed) state.store.tasks later.store.tasks := by
  cases heffect with
  | calm hlater hrows => exact ⟨hlater, hrows.imp fun _ _ hcalm => hcalm.toKept⟩
  | ended hclaimed hended =>
      rw [hclaimed]
      exact ⟨hbase, kept_of_rowsMoved hbase (by decide) (by decide) hended.moved⟩

theorem base_of_effect {later : QueueState} (hbase : Base state.store state.claimed)
    (heffect : Effect state later) : Base later.store later.claimed :=
  base_of_kept (kept_of_effect hbase heffect).1 (kept_of_effect hbase heffect).2

end Effect

section Runs

variable {texts} {state : QueueState}

theorem base_insert {store after : Store} {claimed : List String} (hbase : Base store claimed)
    {request : EnqueueRequest} {taskId : String} {now : Time}
    (hinserts : Inserts store request taskId now)
    (htasks : after.tasks = store.tasks ++ [request.task taskId now]) : Base after claimed := by
  have hfresh : ∀ task ∈ store.tasks, task.taskId ≠ taskId := by
    intro task htask hid
    obtain ⟨row, hrow⟩ := task?_isSome htask hid
    rw [hinserts.fresh] at hrow
    cases hrow
  have hunclaimed : taskId ∉ claimed := by
    intro hid
    obtain ⟨task, htask, heq⟩ := hbase.known _ hid
    exact hfresh task htask heq
  have hmem : ∀ {task}, task ∈ after.tasks → task ∈ store.tasks ∨ task = request.task taskId now := by
    intro task htask
    rw [htasks, List.mem_append, List.mem_singleton] at htask
    exact htask
  have hold : ∀ {task}, task ∈ store.tasks → task ∈ after.tasks := by
    intro task htask
    rw [htasks]
    exact List.mem_append_left _ htask
  refine ⟨?_, fun id hid => ?_, fun task htask hid => ?_, fun task htask hstatus => ?_,
    fun task htask hjob => ?_⟩
  · unfold UniqueIds
    rw [htasks, List.map_append, List.nodup_append]
    refine ⟨hbase.unique, List.nodup_singleton _, ?_⟩
    intro id hid other hother heq
    obtain ⟨task, htask, rfl⟩ := List.mem_map.mp hid
    rw [List.map_singleton, List.mem_singleton] at hother
    exact hfresh task htask (heq.trans hother)
  · obtain ⟨task, htask, heq⟩ := hbase.known id hid
    exact ⟨task, hold htask, heq⟩
  · rcases hmem htask with htask | rfl
    · have hdone := hbase.done task htask hid
      unfold dependencyDone at *
      split
      · trivial
      · rename_i dependency hdependency
        rw [hdependency] at hdone
        obtain ⟨row, hrow, hrest⟩ := hdone
        exact ⟨row, hold hrow, hrest⟩
    · exact absurd hid hunclaimed
  · rcases hmem htask with htask | rfl
    · exact hbase.running task htask hstatus
    · cases hstatus
  · rcases hmem htask with htask | rfl
    · exact hbase.job task htask hjob
    · exact absurd rfl hjob

theorem base_empty : Base {} [] where
  unique := List.nodup_nil
  known := fun _ hid => absurd hid List.not_mem_nil
  done := fun _ htask => absurd htask List.not_mem_nil
  running := fun _ htask => absurd htask List.not_mem_nil
  job := fun _ htask => absurd htask List.not_mem_nil

theorem run_enqueue {request : EnqueueRequest} {taskId : String} {now : Time}
    {dedupeGuard : String → String → Except TaskError Unit} {later : QueueState}
    (hlater : later = run texts state (.enqueue request taskId now dedupeGuard)) :
    later.claimed = state.claimed ∧
      (Inserts state.store request taskId now ∧
          later.store.tasks = state.store.tasks ++ [request.task taskId now] ∨
        ¬ Inserts state.store request taskId now ∧ later.store.tasks = state.store.tasks) := by
  subst hlater
  simp only [run]
  by_cases hinserts : Inserts state.store request taskId now
  · obtain ⟨result, after, hok, htasks⟩ := enqueue_inserts dedupeGuard hinserts
    rw [hok]
    exact ⟨rfl, Or.inl ⟨hinserts, htasks⟩⟩
  · split
    · rename_i hok
      exact ⟨rfl, Or.inr ⟨hinserts, enqueue_joins hinserts hok⟩⟩
    · exact ⟨rfl, Or.inr ⟨hinserts, rfl⟩⟩

theorem base_run (hbase : Base state.store state.claimed) (command : QueueCommand) :
    Base (run texts state command).store (run texts state command).claimed := by
  cases command with
  | enqueue request taskId now dedupeGuard =>
      generalize hlater : run texts state (.enqueue request taskId now dedupeGuard) = later
      obtain ⟨hclaimed, ⟨hinserts, htasks⟩ | ⟨-, htasks⟩⟩ := run_enqueue hlater.symm
      · rw [hclaimed]
        exact base_insert hbase hinserts htasks
      · have hlater := effect_of_tasks_eq hbase htasks
        rw [hclaimed]
        exact base_of_effect hbase hlater
  | cancelAllQueued projectName excludeMediaTypes now =>
      exact base_of_kept hbase (kept_of_rowsMoved hbase (by decide) (by decide)
        (cancelAllQueued_moved hbase.unique))
  | _ => exact base_of_effect hbase (run_effect hbase rfl)

theorem exists_kept (hbase : Base state.store state.claimed) (command : QueueCommand) {old : Task}
    (hold : old ∈ state.store.tasks) :
    ∃ new ∈ (run texts state command).store.tasks, Kept (run texts state command).claimed old new := by
  cases command with
  | enqueue request taskId now dedupeGuard =>
      generalize hlater : run texts state (.enqueue request taskId now dedupeGuard) = later
      obtain ⟨hclaimed, ⟨-, htasks⟩ | ⟨-, htasks⟩⟩ := run_enqueue hlater.symm
      · rw [hclaimed, htasks]
        exact ⟨old, List.mem_append_left _ hold, (calm_refl hbase hold).toKept⟩
      · rw [hclaimed, htasks]
        exact ⟨old, hold, (calm_refl hbase hold).toKept⟩
  | cancelAllQueued projectName excludeMediaTypes now =>
      exact exists_after (kept_of_rowsMoved hbase (by decide) (by decide)
        (cancelAllQueued_moved hbase.unique)) hold
  | _ => exact exists_after (kept_of_effect hbase (run_effect hbase rfl)).2 hold

theorem base_of_reachable {guard : QueueState → QueueCommand → Prop}
    (hreach : (queue texts).ReachableWhen guard state) : Base state.store state.claimed := by
  refine hreach.invariant (fun state => Base state.store state.claimed) ?_ ?_
  · rintro _ rfl
    exact base_empty
  · rintro state command _ - hbase - rfl
    exact base_run hbase command

end Runs

def endsOf (store : Store) (taskId : String) : List TaskStatus :=
  (store.terminalEvents.filter (·.taskId = taskId)).map (·.status)

/-- Whatever failed may have been tried again. What has ended otherwise never starts again, and the
last end of a task that is over is its status. -/
def Ends (status : TaskStatus) (ends : List TaskStatus) : Prop :=
  ∃ failures, ends = List.replicate failures .failed ++ if status.isTerminal then [status] else []

def Tells (event : TerminalEvent) (task : Task) : Prop :=
  event.taskId = task.taskId ∧ event.projectName = task.projectName ∧ event.taskType = task.taskType

def KeysApart (tasks : List Task) : Prop :=
  tasks.Pairwise fun first second =>
    first.status.isActive → second.status.isActive → first.dedupeKey ≠ second.dedupeKey

structure Logged (store : Store) : Prop where
  unique : UniqueIds store
  apart : KeysApart store.tasks
  ends : ∀ task ∈ store.tasks, Ends task.status (endsOf store task.taskId)
  told : ∀ event ∈ store.terminalEvents, ∃ task ∈ store.tasks, Tells event task

section Logged

variable {store after : Store} {status : TaskStatus} {ends : List TaskStatus}

theorem Ends.reopen (h : Ends status ends) (hopen : status.isActive ∨ status = .failed) :
    ∃ failures, ends = List.replicate failures .failed := by
  obtain ⟨failures, rfl⟩ := h
  rcases hopen with hactive | rfl
  · refine ⟨failures, ?_⟩
    cases status <;> simp_all [TaskStatus.isActive, TaskStatus.isTerminal]
  · exact ⟨failures + 1, List.replicate_succ'.symm⟩

theorem ends_active {failures : ℕ} (hactive : status.isActive) :
    Ends status (List.replicate failures .failed) := by
  refine ⟨failures, ?_⟩
  cases status <;> simp_all [TaskStatus.isActive, TaskStatus.isTerminal]

theorem Ends.end {last : TaskStatus} (h : Ends status ends) (hactive : status.isActive)
    (hlast : last.isTerminal) : Ends last (ends ++ [last]) := by
  obtain ⟨failures, rfl⟩ := h.reopen (.inl hactive)
  exact ⟨failures, by rw [if_pos hlast]⟩

/-- The row is the same task, and the log has come along with its status. -/
structure Follows (store after : Store) (old new : Task) : Prop where
  taskId : new.taskId = old.taskId
  dedupeKey : new.dedupeKey = old.dedupeKey
  ends : Ends old.status (endsOf store old.taskId) → Ends new.status (endsOf after old.taskId)

theorem Follows.tells {old new : Task} (h : Follows store after old new) {event : TerminalEvent}
    (htells : Tells event old) : Tells event new := by
  obtain ⟨hid, hproject, htype⟩ := htells
  exact ⟨hid.trans h.taskId.symm, hproject.trans (congrArg DedupeKey.projectName h.dedupeKey).symm,
    htype.trans (congrArg DedupeKey.taskType h.dedupeKey).symm⟩

theorem Logged.follow (h : Logged store)
    (hrows : List.Forall₂ (Follows store after) store.tasks after.tasks)
    (happart : KeysApart after.tasks)
    (hevents : ∀ event ∈ after.terminalEvents,
      event ∈ store.terminalEvents ∨ ∃ task ∈ store.tasks, Tells event task) : Logged after where
  unique := by
    unfold UniqueIds
    rw [← forall₂_map_eq (fun _ _ hfollows => hfollows.taskId.symm) hrows]
    exact h.unique
  apart := happart
  ends := by
    intro task htask
    obtain ⟨old, hold, hfollows⟩ := exists_before hrows htask
    rw [hfollows.taskId]
    exact hfollows.ends (h.ends old hold)
  told := by
    intro event hevent
    have htold : ∃ task ∈ store.tasks, Tells event task := (hevents event hevent).elim (h.told event) id
    obtain ⟨old, hold, htells⟩ := htold
    obtain ⟨task, htask, hfollows⟩ := exists_after hrows hold
    exact ⟨task, htask, hfollows.tells htells⟩

theorem keysApart_of_rows {rows later : List Task} (h : KeysApart rows)
    (hrows : List.Forall₂ (fun old new => new.dedupeKey = old.dedupeKey ∧
      (new.status.isActive → old.status.isActive)) rows later) : KeysApart later := by
  induction hrows with
  | nil => exact .nil
  | @cons old new rows later hrow hrows ih =>
      obtain ⟨hfirst, hrest⟩ := List.pairwise_cons.mp h
      refine List.pairwise_cons.mpr ⟨fun task htask hnew hactive => ?_, ih hrest⟩
      obtain ⟨row, hmem, hkey, hrow'⟩ := exists_before hrows htask
      rw [hrow.1, hkey]
      exact hfirst row hmem (hrow.2 hnew) (hrow' hactive)

/-! Transactions that end nothing. -/

/-- A row keeps its status, or is taken up, put back or tried again. -/
structure Resumed (old new : Task) : Prop where
  taskId : new.taskId = old.taskId
  dedupeKey : new.dedupeKey = old.dedupeKey
  status : new.status = old.status ∨
    new.status.isActive ∧ (old.status.isActive ∨ old.status = .failed)

theorem resumed_refl (task : Task) : Resumed task task := ⟨rfl, rfl, .inl rfl⟩

theorem Logged.resume (h : Logged store) (hevents : after.terminalEvents = store.terminalEvents)
    (hrows : List.Forall₂ Resumed store.tasks after.tasks) (happart : KeysApart after.tasks) :
    Logged after := by
  refine h.follow (hrows.imp fun old new hrow => ⟨hrow.taskId, hrow.dedupeKey, fun hends => ?_⟩)
    happart fun event hevent => .inl (hevents ▸ hevent)
  have hsame : endsOf after old.taskId = endsOf store old.taskId := by
    rw [endsOf, endsOf, hevents]
  rw [hsame]
  rcases hrow.status with hstatus | ⟨hactive, hopen⟩
  · rw [hstatus]
    exact hends
  · obtain ⟨failures, heq⟩ := hends.reopen hopen
    rw [heq]
    exact ends_active hactive

theorem Logged.of_same (h : Logged store) (htasks : after.tasks = store.tasks)
    (hevents : after.terminalEvents = store.terminalEvents) : Logged after := by
  refine h.resume hevents ?_ ?_
  · rw [htasks]
    exact List.forall₂_same.mpr fun task _ => resumed_refl task
  · rw [htasks]
    exact h.apart

/-! Transactions that end tasks. -/

theorem dedupeKey_of_restated {old new : Task} (h : Restated old new) :
    new.dedupeKey = old.dedupeKey := by rw [h]; rfl

section Ending

variable {guard : Task → Prop} [DecidablePred guard] {values : Task → Task}

theorem Logged.finish (h : Logged store) {events : List TerminalEvent} (hterminal : status.isTerminal)
    (hvalues : ∀ task, Restated task (values task)) (hstatus : ∀ task, (values task).status = status)
    (htasks : after.tasks = updateWhere guard values store.tasks)
    (hevents : after.terminalEvents = store.terminalEvents ++ events)
    (hactive : ∀ task ∈ store.tasks, guard task → task.status.isActive)
    (hends : ∀ task ∈ store.tasks, (events.filter (·.taskId = task.taskId)).map (·.status) =
      if guard task then [status] else [])
    (htold : ∀ event ∈ events, ∃ task ∈ store.tasks, Tells event task) : Logged after := by
  have hlog : ∀ task ∈ store.tasks, endsOf after task.taskId =
      endsOf store task.taskId ++ if guard task then [status] else [] := by
    intro task htask
    rw [endsOf, hevents, List.filter_append, List.map_append, hends task htask]
    rfl
  refine h.follow ?_ (keysApart_of_rows h.apart ?_) fun event hevent => ?_
  · rw [htasks]
    refine forall₂_updateWhere (fun old hold hkept => ⟨rfl, rfl, fun hends => ?_⟩) fun old hold hguard =>
      ⟨(hvalues old).taskId_eq, dedupeKey_of_restated (hvalues old), fun hends => ?_⟩
    · rw [hlog old hold, if_neg hkept, List.append_nil]
      exact hends
    · rw [hlog old hold, if_pos hguard, hstatus]
      exact hends.end (hactive old hold hguard) hterminal
  · rw [htasks]
    exact forall₂_updateWhere (fun old _ _ => ⟨rfl, id⟩) fun old hold hguard =>
      ⟨dedupeKey_of_restated (hvalues old), fun _ => hactive old hold hguard⟩
  · rw [hevents, List.mem_append] at hevent
    exact hevent.imp_right (htold event)

end Ending

theorem logged_moveTask {taskId : String} {fromStatuses : List TaskStatus} {values : Task → Task}
    (h : Logged store) (hfrom : ∀ old ∈ fromStatuses, old.isActive) (hterminal : status.isTerminal)
    (hvalues : ∀ task, Restated task { values task with status })
    (hmoved : moveTask store taskId fromStatuses status values = some after) : Logged after := by
  obtain ⟨⟨row, hrow, rfl, hstatus⟩, htasks⟩ := moveTask_eq_some hmoved
  have honly : ∀ task ∈ store.tasks, task.taskId = row.taskId → task = row := fun task htask hid =>
    List.inj_on_of_nodup_map h.unique htask hrow hid
  obtain ⟨event, htells, hended, hevents⟩ : ∃ event : TerminalEvent, Tells event row ∧
      event.status = status ∧ after.terminalEvents = store.terminalEvents ++ [event] := by
    have hnew : { values row with status } ∈ after.tasks := by
      rw [htasks]
      exact mem_updateWhere.mpr (.inr ⟨row, hrow, ⟨rfl, hstatus⟩, rfl⟩)
    unfold moveTask at hmoved
    split at hmoved
    · cases hmoved
    · cases hmoved
      rw [recordTerminalEvent_tasks] at hnew
      obtain ⟨found, hfound⟩ := task?_isSome hnew (hvalues row).taskId_eq
      obtain ⟨hmem, hfoundId⟩ := mem_of_task? hfound
      have hrestated : Restated row found := by
        rcases mem_updateWhere.mp hmem with ⟨hold, hguard⟩ | ⟨old, hold, hguard, rfl⟩
        · exact absurd ⟨hfoundId, honly found hold hfoundId ▸ hstatus⟩ hguard
        · exact honly old hold hguard.1 ▸ hvalues old
      refine ⟨⟨row.taskId, found.projectName, status, found.taskType⟩,
        ⟨rfl, hrestated.projectName_eq, hrestated.taskType_eq⟩, rfl, ?_⟩
      unfold recordTerminalEvent
      rw [hfound]
      dsimp only
      rw [if_pos hterminal]
  refine h.finish hterminal hvalues (fun _ => rfl) htasks hevents (fun task _ hguard => hfrom _ hguard.2)
    (fun task htask => ?_) fun other hother => ⟨row, hrow, List.mem_singleton.mp hother ▸ htells⟩
  rw [List.filter_singleton, htells.1, Bool.cond_eq_ite]
  by_cases hid : task.taskId = row.taskId
  · rw [if_pos (decide_eq_true hid.symm), if_pos ⟨hid, honly task htask hid ▸ hstatus⟩]
    exact congrArg (fun status => [status]) hended
  · rw [if_neg fun heq => hid (of_decide_eq_true heq).symm, if_neg fun hguard => hid hguard.1]
    rfl

theorem logged_sweep {values : String → Task → Task} (h : Logged store) (hterminal : status.isTerminal)
    (hvalues : ∀ blocker task, Restated task { values blocker task with status }) (fuel : ℕ)
    (taskId : String) :
    Logged (DependencySweep.sweep queuedDependents
      (fun store blocker dependent => moveTask store dependent [.queued] status
        (values blocker)) fuel store taskId) := by
  refine DependencySweep.sweep_respects (r := fun before after => Logged before → Logged after)
    (fun _ => id) (fun _ _ _ hfirst hsecond => hsecond ∘ hfirst) ?_ fuel store taskId h
  intro store blocker dependent marked hmarked hlogged
  refine logged_moveTask hlogged (fun old hold => ?_) hterminal (hvalues blocker) hmarked
  rw [List.mem_singleton.mp hold]
  rfl

theorem logged_markCancelled {taskId : String} {cancelledBy : CancelledBy} {now : Time}
    {fromStatuses : List TaskStatus} (h : Logged store) (hfrom : ∀ old ∈ fromStatuses, old.isActive)
    (hmarked : markCancelled store taskId cancelledBy fromStatuses now = some after) :
    Logged after := by
  obtain ⟨cancelled, hcancelled, rfl⟩ := Option.map_eq_some_iff.mp hmarked
  unfold cancelRow at hcancelled
  have hlogged : Logged cancelled := by
    refine logged_moveTask h hfrom rfl ?_ hcancelled
    exact fun _ => rfl
  refine logged_sweep hlogged rfl ?_ _ _
  exact fun _ _ => rfl

theorem logged_markFailed (h : Logged store) (texts : FailureTexts) (taskId errorMessage : String)
    (now : Time) : Logged (markFailed store texts taskId errorMessage now).2 := by
  unfold markFailed
  split
  · rename_i failed hfailed
    unfold markFailedFrom at hfailed
    have hlogged : Logged failed := by
      refine logged_moveTask h (by decide) rfl ?_ hfailed
      exact fun _ => rfl
    unfold cascadeFailedQueued markFailedFrom
    refine logged_sweep hlogged rfl ?_ _ _
    exact fun _ _ => rfl
  · exact h

theorem filter_taskId {tasks : List Task} (hunique : (tasks.map (·.taskId)).Nodup) {task : Task}
    (htask : task ∈ tasks) : tasks.filter (·.taskId = task.taskId) = [task] := by
  induction tasks with
  | nil => cases htask
  | cons first tasks ih =>
      obtain ⟨hfresh, hunique⟩ := List.nodup_cons.mp hunique
      rcases List.mem_cons.mp htask with rfl | htask
      · rw [List.filter_cons_of_pos (by simp), List.filter_eq_nil_iff.mpr]
        intro other hother hid
        exact hfresh (List.mem_map.mpr ⟨other, hother, of_decide_eq_true hid⟩)
      · have hne : first.taskId ≠ task.taskId := fun heq =>
          hfresh (List.mem_map.mpr ⟨task, htask, heq.symm⟩)
        rw [List.filter_cons_of_neg (by simpa using hne), ih hunique htask]

theorem logged_cancelAllQueued (h : Logged store) (projectName : String)
    (excludeMediaTypes : List String) (now : Time) :
    Logged (cancelAllQueued store projectName excludeMediaTypes now).2 := by
  have htasks := @cancelAllQueued_tasks store now projectName excludeMediaTypes h.unique
  set after := (cancelAllQueued store projectName excludeMediaTypes now).2
  set swept := sweptByCancelAll projectName excludeMediaTypes
  set ids := (store.tasks.filter fun task => swept task).map (·.taskId)
  have hevents : after.terminalEvents = store.terminalEvents ++
      (after.tasks.filter fun task => task.taskId ∈ ids ∧ task.status = .cancelled).map
        fun task => ⟨task.taskId, projectName, .cancelled, task.taskType⟩ := rfl
  have hids : ∀ old ∈ store.tasks, old.taskId ∈ ids → swept old := by
    intro old hold hid
    obtain ⟨other, hother, heq⟩ := List.mem_map.mp hid
    obtain ⟨hother, hswept⟩ := List.mem_filter.mp hother
    rw [← List.inj_on_of_nodup_map h.unique hother hold heq]
    exact of_decide_eq_true hswept
  have hmoved : RowsMoved [.queued] [.cancelled] store.tasks after.tasks :=
    cancelAllQueued_moved h.unique
  have hunique : (after.tasks.map (·.taskId)).Nodup := by
    rw [ids_of_rowsMoved hmoved]
    exact h.unique
  have hterminal : TaskStatus.cancelled.isTerminal := rfl
  refine h.finish hterminal ?_ ?_ htasks hevents (fun old _ hswept => ?_)
    (fun old hold => ?_) fun event hevent => ?_
  · exact fun _ => rfl
  · exact fun _ => rfl
  · rw [hswept.2.1]
    rfl
  · -- Of the rows that are told only the one of this task is left.
    obtain ⟨new, hnew, hid, hiff⟩ : ∃ new ∈ after.tasks, new.taskId = old.taskId ∧
        ((new.taskId ∈ ids ∧ new.status = .cancelled) ↔ swept old) := by
      rw [htasks]
      by_cases hswept : swept old
      · have hin : old.taskId ∈ ids :=
          List.mem_map.mpr ⟨old, List.mem_filter.mpr ⟨hold, decide_eq_true hswept⟩, rfl⟩
        exact ⟨_, mem_updateWhere.mpr (.inr ⟨old, hold, hswept, rfl⟩), rfl,
          iff_of_true ⟨hin, rfl⟩ hswept⟩
      · exact ⟨old, mem_updateWhere.mpr (.inl ⟨hold, hswept⟩), rfl,
          iff_of_false (fun hin => hswept (hids old hold hin.1)) hswept⟩
    rw [List.filter_map]
    change (((after.tasks.filter _).filter fun task => task.taskId = old.taskId).map _).map _ = _
    rw [List.filter_comm, ← hid, filter_taskId hunique hnew, List.filter_singleton,
      decide_eq_decide.mpr hiff, Bool.cond_decide]
    split_ifs <;> rfl
  · obtain ⟨task, htask, rfl⟩ := List.mem_map.mp hevent
    obtain ⟨htask, hcancelled⟩ := List.mem_filter.mp htask
    obtain ⟨old, hold, hrow⟩ := exists_before hmoved htask
    have hid := hrow.restated.taskId_eq
    have hswept := hids old hold (hid ▸ (of_decide_eq_true hcancelled).1)
    exact ⟨old, hold, hid, hswept.1.symm, hrow.restated.taskType_eq⟩

theorem endsOf_eq_nil (h : Logged store) {taskId : String} (hfresh : store.task? taskId = none) :
    endsOf store taskId = [] := by
  rw [endsOf, List.map_eq_nil_iff, List.filter_eq_nil_iff]
  intro event hevent hid
  obtain ⟨task, htask, htells, -⟩ := h.told event hevent
  obtain ⟨row, hrow⟩ := task?_isSome htask (htells.symm.trans (of_decide_eq_true hid))
  rw [hfresh] at hrow
  cases hrow

theorem logged_insert (h : Logged store) {request : EnqueueRequest} {taskId : String} {now : Time}
    (hinserts : Inserts store request taskId now) (hunique : UniqueIds after)
    (htasks : after.tasks = store.tasks ++ [request.task taskId now])
    (hevents : after.terminalEvents = store.terminalEvents) : Logged after := by
  have hends : ∀ taskId, endsOf after taskId = endsOf store taskId := fun taskId => by
    rw [endsOf, endsOf, hevents]
  have hmem : ∀ task, task ∈ after.tasks ↔ task ∈ store.tasks ∨ task = request.task taskId now := by
    intro task
    rw [htasks, List.mem_append, List.mem_singleton]
  refine ⟨hunique, ?_, fun task htask => ?_, fun event hevent => ?_⟩
  · rw [htasks]
    refine List.pairwise_append.mpr ⟨h.apart, List.pairwise_singleton _ _, ?_⟩
    intro task htask new hnew hactive _ hkey
    rw [List.mem_singleton.mp hnew] at hkey
    refine hinserts.free ⟨task, htask, fun hid => ?_, hactive, hkey⟩
    obtain ⟨row, hrow⟩ := task?_isSome htask hid
    rw [hinserts.fresh] at hrow
    cases hrow
  · rw [hends]
    rcases (hmem task).mp htask with htask | rfl
    · exact h.ends task htask
    · exact ⟨0, endsOf_eq_nil h hinserts.fresh⟩
  · obtain ⟨task, htask, htells⟩ := h.told event (hevents ▸ hevent)
    exact ⟨task, (hmem task).mpr (.inl htask), htells⟩

theorem keysApart_retried (h : Logged store) {task : Task} {values : Task → Task}
    (htask : task ∈ store.tasks) (hfree : ¬ activeKeyTaken store task.taskId task.dedupeKey)
    (hkey : ∀ row, (values row).dedupeKey = row.dedupeKey) :
    KeysApart (updateWhere (fun row => row.taskId = task.taskId ∧ row.status = .failed) values
      store.tasks) := by
  have hids : store.tasks.Pairwise fun first second => first.taskId ≠ second.taskId :=
    List.pairwise_map.mp h.unique
  refine List.pairwise_map.mpr ((h.apart.and hids).imp_of_mem ?_)
  intro first second hfirst hsecond ⟨happart, hne⟩
  have honly : ∀ row ∈ store.tasks, row.taskId = task.taskId → row = task := fun row hrow hid =>
    List.inj_on_of_nodup_map h.unique hrow htask hid
  by_cases hretried : first.taskId = task.taskId ∧ first.status = .failed
  · rw [if_pos hretried, if_neg fun hguard => hne (hretried.1.trans hguard.1.symm), hkey]
    intro _ hactive heq
    refine hfree ⟨second, hsecond, fun hid => hne (hretried.1.trans hid.symm), hactive, ?_⟩
    rw [← heq, honly first hfirst hretried.1]
  · rw [if_neg hretried]
    split_ifs with hguard
    · rw [hkey]
      intro hactive _ heq
      refine hfree ⟨first, hfirst, fun hid => hne (hid.trans hguard.1.symm), hactive, ?_⟩
      rw [heq, honly second hsecond hguard.1]
    · exact happart

theorem logged_retryArtifactDownload (h : Logged store) {texts : FailureTexts} {taskId : String}
    {now : Time} {refreshed : Task}
    (hok : retryArtifactDownload store texts taskId now = .ok (refreshed, after)) :
    Logged after := by
  unfold retryArtifactDownload at hok
  split at hok
  · cases hok
  rename_i task htask
  obtain ⟨hmem, rfl⟩ := mem_of_task? htask
  split at hok
  · cases hok
  split at hok
  · cases hok
  split at hok
  · cases hok
  rename_i hfree
  dsimp only at hok
  split at hok
  · cases hok
    refine h.resume rfl (forall₂_updateWhere (fun row _ _ => resumed_refl row)
      fun row _ hguard => ⟨rfl, rfl, .inr ⟨rfl, .inr hguard.2⟩⟩)
      (keysApart_retried h hmem hfree fun _ => rfl)
  · cases hok

end Logged

section LoggedRuns

variable {texts} {state : QueueState}

theorem addBatchTasks_terminalEvents {store after : Store} {request : EnqueueRequest}
    {taskId : String} {deduped : Bool}
    (h : addBatchTasks store request taskId deduped = .ok after) :
    after.terminalEvents = store.terminalEvents := by
  unfold addBatchTasks at h
  split at h
  · cases h
    rfl
  · split at h
    · cases h
    · cases h
      rfl

theorem run_enqueue_terminalEvents {request : EnqueueRequest} {taskId : String} {now : Time}
    {dedupeGuard : String → String → Except TaskError Unit} :
    (run texts state (.enqueue request taskId now dedupeGuard)).store.terminalEvents =
      state.store.terminalEvents := by
  simp only [run]
  split
  · rename_i hok
    unfold enqueue at hok
    simp only [bind_eq_ok] at hok
    obtain ⟨⟨⟩, -, hok⟩ := hok
    split at hok
    · obtain ⟨inserted, hinserted, hok⟩ := bind_eq_ok.mp hok
      cases hok
      have hsame := addBatchTasks_terminalEvents hinserted
      exact hsame
    · split at hok
      · cases hok
      · obtain ⟨-, -, hok⟩ := bind_eq_ok.mp hok
        obtain ⟨updated, hupdated, hok⟩ := bind_eq_ok.mp hok
        cases hok
        exact addBatchTasks_terminalEvents hupdated
  · rfl

theorem logged_of_updateWhere {store : Store} (h : Logged store) {guard : Task → Prop}
    [DecidablePred guard] {values : Task → Task} {after : Store}
    (hafter : after = { store with tasks := updateWhere guard values store.tasks })
    (hid : ∀ row, (values row).taskId = row.taskId)
    (hkey : ∀ row, (values row).dedupeKey = row.dedupeKey)
    (hstatus : ∀ row, guard row → (values row).status = row.status ∨
      (values row).status.isActive ∧ row.status.isActive) : Logged after := by
  subst hafter
  refine h.resume rfl (forall₂_updateWhere (fun row _ _ => resumed_refl row)
    fun row _ hguard => ⟨hid row, hkey row, (hstatus row hguard).imp_right fun h => ⟨h.1, .inl h.2⟩⟩)
    (keysApart_of_rows h.apart (forall₂_updateWhere (fun row _ _ => ⟨rfl, id⟩)
      fun row _ hguard => ⟨hkey row, fun hactive => ?_⟩))
  rcases hstatus row hguard with heq | hactives
  · exact heq ▸ hactive
  · exact hactives.2

theorem logged_run (hbase : Base state.store state.claimed) (h : Logged state.store)
    (command : QueueCommand) : Logged (run texts state command).store := by
  cases command with
  | enqueue request taskId now dedupeGuard =>
      have hevents := @run_enqueue_terminalEvents texts state request taskId now dedupeGuard
      have hafter := @base_run texts state hbase (.enqueue request taskId now dedupeGuard)
      generalize hlater : run texts state (.enqueue request taskId now dedupeGuard) = later at *
      obtain ⟨-, ⟨hinserts, htasks⟩ | ⟨-, htasks⟩⟩ := run_enqueue hlater.symm
      · exact logged_insert h hinserts hafter.unique htasks hevents
      · exact h.of_same htasks hevents
  | createBatch batch =>
      simp only [run]
      split
      · rename_i hcreated
        unfold createBatch at hcreated
        split at hcreated
        · cases hcreated
        · cases hcreated
          exact h.of_same rfl rfl
      · exact h
  | claimNext mediaType poolFullProviders excludeTaskIds now =>
      simp only [run, claimNext]
      split
      · exact h
      · refine logged_of_updateWhere h rfl (fun _ => rfl) (fun _ => rfl) fun row hguard => .inr ?_
        rw [hguard.2]
        exact ⟨rfl, rfl⟩
  | markSucceeded taskId result now =>
      simp only [run, markSucceeded]
      split
      · rename_i hdone
        refine logged_moveTask h (fun old hold => ?_) rfl ?_ hdone
        · rw [List.mem_singleton.mp hold]
          rfl
        · exact fun _ => rfl
      · exact h
  | markFailed taskId errorMessage now => exact logged_markFailed h texts taskId errorMessage now
  | cancelTask taskId now =>
      simp only [run]
      split
      · rename_i hok
        unfold cancelTask at hok
        split at hok
        · cases hok
        split at hok
        · cases hok
          exact h
        split at hok
        · cases hok
        · rename_i hcancelled
          cases hok
          exact logged_markCancelled h (by decide) hcancelled
      · exact h
  | cancelAllQueued projectName excludeMediaTypes now =>
      exact logged_cancelAllQueued h projectName excludeMediaTypes now
  | finalizeInterrupted taskId now =>
      simp only [run, finalizeInterrupted]
      split
      · rename_i hcancelled
        exact logged_markCancelled h (by decide) hcancelled
      · exact h
  | requeueRunning limit now =>
      refine logged_of_updateWhere h rfl (fun _ => rfl) (fun _ => rfl) fun row hguard => .inr ?_
      rw [hguard.2]
      exact ⟨rfl, rfl⟩
  | requeueSingleTask taskId now =>
      refine logged_of_updateWhere h rfl (fun _ => rfl) (fun _ => rfl) fun row hguard => .inr ?_
      rw [hguard.2]
      exact ⟨rfl, rfl⟩
  | retryArtifactDownload taskId now =>
      simp only [run]
      split
      · rename_i hretried
        exact logged_retryArtifactDownload h hretried
      · exact h
  | persistProviderJobId taskId jobId endpoint baseUrl now =>
      simp only [run]
      split
      · exact logged_of_updateWhere h rfl (fun _ => rfl) (fun _ => rfl) fun _ _ => .inl rfl
      · exact h
  | persistExecutionCheckpoint taskId checkpointJson providerId now =>
      simp only [run]
      split
      · rename_i hpersisted
        obtain ⟨-, rfl⟩ := persistExecutionCheckpoint_ok hpersisted
        exact logged_of_updateWhere h rfl (fun _ => rfl) (fun _ => rfl) fun _ _ => .inl rfl
      · exact h
  | persistExecutionProviderId taskId providerId now =>
      exact logged_of_updateWhere h rfl (fun _ => rfl) (fun _ => rfl) fun _ _ => .inl rfl
  | writeCalls calls => exact h.of_same rfl rfl

theorem logged_of_reachable {guard : QueueState → QueueCommand → Prop}
    (hreach : (queue texts).ReachableWhen guard state) : Logged state.store := by
  refine hreach.invariant (fun state => Logged state.store) ?_ ?_
  · rintro _ rfl
    exact ⟨List.nodup_nil, .nil, fun _ htask => absurd htask List.not_mem_nil,
      fun _ hevent => absurd hevent List.not_mem_nil⟩
  · rintro state command _ hreach hlogged - rfl
    exact logged_run (base_of_reachable hreach) hlogged command

end LoggedRuns

def sampleRequest (resourceId : String) (dependencyTaskId : Option String) : EnqueueRequest where
  projectName := "demo"
  taskType := "video"
  mediaType := "video"
  resourceId
  dependencyTaskId

def sampleTexts : FailureTexts where
  encodeFailure code _ := code
  boundReason text _ := text
  encodeBoundedCascadeFailure dependencyTaskId _ := dependencyTaskId
  parseFailureCode _ := none

/-- A task is claimed, fails and is enqueued again under a new id. -/
def failedOnce : List QueueCommand :=
  [.enqueue (sampleRequest "E1S01" none) "a" 1 fun _ _ => .ok (), .claimNext "video" [] [] 2,
    .markFailed "a" "boom" 3, .enqueue (sampleRequest "E1S01" none) "b" 4 fun _ _ => .ok ()]

section Reached

variable {texts} {state : QueueState}

/-- No two active tasks do the same work, and none runs before its dependency has succeeded. -/
theorem active_tasks_apart (hreach : (queue texts).Reachable state) :
    KeysApart state.store.tasks ∧ UniqueIds state.store ∧
      ∀ task ∈ state.store.tasks, task.status = .running → dependencyDone state.store task := by
  have hbase := base_of_reachable hreach
  exact ⟨(logged_of_reachable hreach).apart, hbase.unique, fun task htask hrunning =>
    hbase.done task htask (hbase.running task htask hrunning)⟩

theorem active_tasks_apart_failedOnce :
    KeysApart (failedOnce.foldl (run sampleTexts) {}).store.tasks :=
  (active_tasks_apart (TransitionSystem.reachable_foldl (.start rfl)
    (TransitionSystem.along_true _ _))).1

end Reached

end ShortReel.TaskQueue
