import ShortReel.TaskRepository

/-!
# What a transaction does to the tasks

Every transaction of the repository restates rows: it moves them between states and leaves their
identity, their dependency and their job alone. Those that end a task also end whatever was queued
behind it.
-/

namespace ShortReel.TaskTransactions

open TableUpdates DependencySweep GenerationTables TaskRepository

variable {store after : Store} {taskId : String} {now : Time}

/-- The same row with new columns of its state: every other column is kept. -/
def Restated (old new : Task) : Prop :=
  new = { old with
    status := new.status
    resultJson := new.resultJson
    errorMessage := new.errorMessage
    cancelledBy := new.cancelledBy
    startedAt := new.startedAt
    finishedAt := new.finishedAt
    updatedAt := new.updatedAt }

/-- A row a transaction left as it is, or moved from one of some states to one of others. -/
def Moved (fromStatuses toStatuses : List TaskStatus) (old new : Task) : Prop :=
  new = old ∨ (Restated old new ∧ old.status ∈ fromStatuses ∧ new.status ∈ toStatuses)

section Moved

variable {fromStatuses toStatuses : List TaskStatus} {old mid new : Task}

theorem Moved.restated (h : Moved fromStatuses toStatuses old new) : Restated old new := by
  rcases h with rfl | h
  · rfl
  · exact h.1

theorem Restated.taskId_eq (h : Restated old new) : new.taskId = old.taskId := by rw [h]

theorem Restated.dependency_eq (h : Restated old new) :
    new.dependencyTaskId = old.dependencyTaskId := by rw [h]

theorem Restated.projectName_eq (h : Restated old new) : new.projectName = old.projectName := by
  rw [h]

theorem Restated.taskType_eq (h : Restated old new) : new.taskType = old.taskType := by rw [h]

theorem Restated.providerJobId_eq (h : Restated old new) :
    new.providerJobId = old.providerJobId := by rw [h]

theorem Restated.checkpoint_eq (h : Restated old new) :
    new.executionCheckpointJson = old.executionCheckpointJson := by rw [h]

theorem Moved.mono {more moreTo : List TaskStatus} (h : Moved fromStatuses toStatuses old new)
    (hfrom : fromStatuses ⊆ more) (hto : toStatuses ⊆ moreTo) : Moved more moreTo old new :=
  h.imp_right fun ⟨hrestated, hold, hnew⟩ => ⟨hrestated, hfrom hold, hto hnew⟩

theorem Moved.trans (hdisjoint : ∀ status ∈ toStatuses, status ∉ fromStatuses)
    (h₁ : Moved fromStatuses toStatuses old mid) (h₂ : Moved fromStatuses toStatuses mid new) :
    Moved fromStatuses toStatuses old new := by
  rcases h₁ with rfl | ⟨hrestated, hold, hmid⟩
  · exact h₂
  · rcases h₂ with rfl | ⟨-, hmid', -⟩
    · exact Or.inr ⟨hrestated, hold, hmid⟩
    · exact absurd hmid' (hdisjoint _ hmid)

end Moved

abbrev RowsMoved (fromStatuses toStatuses : List TaskStatus) (before after : List Task) : Prop :=
  List.Forall₂ (Moved fromStatuses toStatuses) before after

theorem rowsMoved_refl (fromStatuses toStatuses : List TaskStatus) (tasks : List Task) :
    RowsMoved fromStatuses toStatuses tasks tasks :=
  List.forall₂_same.mpr fun _ _ => Or.inl rfl

theorem rowsMoved_trans {fromStatuses toStatuses : List TaskStatus} {first second third : List Task}
    (hdisjoint : ∀ status ∈ toStatuses, status ∉ fromStatuses)
    (h₁ : RowsMoved fromStatuses toStatuses first second)
    (h₂ : RowsMoved fromStatuses toStatuses second third) :
    RowsMoved fromStatuses toStatuses first third :=
  forall₂_trans (s := Moved fromStatuses toStatuses)
    (fun _ _ _ hfirst hsecond => Moved.trans hdisjoint hfirst hsecond) h₁ h₂

theorem rowsMoved_updateWhere {guard : Task → Prop} [DecidablePred guard] {values : Task → Task}
    {fromStatuses toStatuses : List TaskStatus} {tasks : List Task}
    (h : ∀ task ∈ tasks, guard task → Restated task (values task) ∧ task.status ∈ fromStatuses ∧
      (values task).status ∈ toStatuses) :
    RowsMoved fromStatuses toStatuses tasks (updateWhere guard values tasks) :=
  forall₂_updateWhere (fun _ _ _ => Or.inl rfl) fun task htask hguard => Or.inr (h task htask hguard)

theorem ids_of_rowsMoved {fromStatuses toStatuses : List TaskStatus} {before after : List Task}
    (h : RowsMoved fromStatuses toStatuses before after) :
    after.map (·.taskId) = before.map (·.taskId) :=
  (forall₂_map_eq (fun _ _ hmoved => hmoved.restated.taskId_eq.symm) h).symm

theorem mem_of_task? {task : Task} (h : store.task? taskId = some task) :
    task ∈ store.tasks ∧ task.taskId = taskId :=
  ⟨List.mem_of_find?_eq_some h, by simpa using List.find?_some h⟩

theorem task?_isSome {task : Task} (htask : task ∈ store.tasks) (hid : task.taskId = taskId) :
    ∃ row, store.task? taskId = some row := by
  rw [← Option.isSome_iff_exists, Store.task?, List.find?_isSome]
  exact ⟨task, htask, by simpa using hid⟩

@[simp]
theorem recordTerminalEvent_tasks (store : Store) (taskId : String) (status : TaskStatus) :
    (recordTerminalEvent store taskId status).tasks = store.tasks := by
  unfold recordTerminalEvent
  split
  · split <;> rfl
  · rfl

section MoveTask

variable {fromStatuses : List TaskStatus} {status : TaskStatus} {values : Task → Task}

theorem moveTask_eq_some (h : moveTask store taskId fromStatuses status values = some after) :
    (∃ task ∈ store.tasks, task.taskId = taskId ∧ task.status ∈ fromStatuses) ∧
      after.tasks = updateWhere (fun task => task.taskId = taskId ∧ task.status ∈ fromStatuses)
        (fun task => { values task with status }) store.tasks := by
  unfold moveTask at h
  split at h
  · cases h
  · rename_i hcount
    cases h
    exact ⟨exists_of_rowcount_ne_zero hcount, recordTerminalEvent_tasks _ _ _⟩

theorem moveTask_eq_none (h : moveTask store taskId fromStatuses status values = none) :
    ∀ task ∈ store.tasks, task.taskId = taskId → task.status ∉ fromStatuses := by
  unfold moveTask at h
  split at h
  · rename_i hcount
    exact fun task htask hid hstatus => rowcount_eq_zero.mp hcount task htask ⟨hid, hstatus⟩
  · cases h

theorem rowsMoved_moveTask (h : moveTask store taskId fromStatuses status values = some after)
    (hvalues : ∀ task, Restated task { values task with status }) :
    RowsMoved fromStatuses [status] store.tasks after.tasks := by
  rw [(moveTask_eq_some h).2]
  exact rowsMoved_updateWhere fun task _ hguard =>
    ⟨hvalues task, hguard.2, List.mem_singleton.mpr rfl⟩

end MoveTask

def queuedIds (store : Store) : Finset String :=
  ((store.tasks.filter (·.status = .queued)).map (·.taskId)).toFinset

def dependsOn (store : Store) (blocker dependent : String) : Prop :=
  ∃ task ∈ store.tasks, task.taskId = dependent ∧ task.dependencyTaskId = some blocker

def UniqueIds (store : Store) : Prop :=
  (store.tasks.map (·.taskId)).Nodup

theorem mem_queuedIds {id : String} :
    id ∈ queuedIds store ↔ ∃ task ∈ store.tasks, task.status = .queued ∧ task.taskId = id := by
  simp [queuedIds, and_assoc]

theorem card_queuedIds_lt (store : Store) : (queuedIds store).card < sweepFuel store := by
  refine Nat.lt_succ_of_le ((List.toFinset_card_le _).trans ?_)
  rw [List.length_map]
  exact List.length_filter_le _ _

theorem mem_queuedDependents {blocker dependent : String} :
    dependent ∈ queuedDependents store blocker ↔
      ∃ task ∈ store.tasks, task.dependencyTaskId = some blocker ∧ task.status = .queued ∧
        task.taskId = dependent := by
  simp [queuedDependents, byQueuedAt, and_assoc]

theorem dependsOn_of_rowsMoved {fromStatuses toStatuses : List TaskStatus}
    (h : RowsMoved fromStatuses toStatuses store.tasks after.tasks) :
    dependsOn after = dependsOn store := by
  funext blocker dependent
  refine propext ⟨?_, ?_⟩
  · rintro ⟨task, htask, hid, hdependency⟩
    obtain ⟨old, hold, hmoved⟩ := exists_before h htask
    exact ⟨old, hold, hmoved.restated.taskId_eq ▸ hid, hmoved.restated.dependency_eq ▸ hdependency⟩
  · rintro ⟨task, htask, hid, hdependency⟩
    obtain ⟨new, hnew, hmoved⟩ := exists_after h htask
    exact ⟨new, hnew, hmoved.restated.taskId_eq.trans hid, hmoved.restated.dependency_eq.trans hdependency⟩

theorem queuedIds_moveTask {status : TaskStatus} {values : Task → Task} (hstatus : status ≠ .queued)
    (h : moveTask store taskId [.queued] status values = some after) :
    queuedIds after = (queuedIds store).erase taskId := by
  ext id
  rw [Finset.mem_erase, mem_queuedIds, mem_queuedIds, (moveTask_eq_some h).2]
  constructor
  · rintro ⟨task, htask, hqueued, rfl⟩
    rcases mem_updateWhere.mp htask with ⟨hold, hguard⟩ | ⟨old, -, -, rfl⟩
    · refine ⟨fun hid => hguard ⟨hid, by simp [hqueued]⟩, task, hold, hqueued, rfl⟩
    · exact absurd hqueued hstatus
  · rintro ⟨hne, task, htask, hqueued, rfl⟩
    exact ⟨task, mem_updateWhere.mpr (Or.inl ⟨htask, fun hguard => hne hguard.1⟩), hqueued, rfl⟩

theorem marks_moveTask {status : TaskStatus} {values : String → Task → Task}
    (hstatus : status ≠ .queued)
    (hvalues : ∀ blocker task, Restated task { values blocker task with status }) :
    Marks UniqueIds queuedIds dependsOn queuedDependents fun store blocker dependent =>
      moveTask store dependent [.queued] status (values blocker) where
  mem_dependents := by
    intro store blocker dependent hunique hqueued ⟨task, htask, hid, hdependency⟩
    obtain ⟨other, hother, hstatus, hotherid⟩ := mem_queuedIds.mp hqueued
    have hsame : other = task := List.inj_on_of_nodup_map hunique hother htask (hotherid.trans hid.symm)
    exact mem_queuedDependents.mpr ⟨task, htask, hdependency, hsame ▸ hstatus, hid⟩
  mark_none := by
    intro store blocker dependent _ hnone hqueued
    obtain ⟨task, htask, hstatus, hid⟩ := mem_queuedIds.mp hqueued
    exact moveTask_eq_none hnone task htask hid (by simp [hstatus])
  mark_mem := by
    intro store blocker dependent marked _ hmarked
    obtain ⟨⟨task, htask, hid, hstatus⟩, -⟩ := moveTask_eq_some hmarked
    exact mem_queuedIds.mpr ⟨task, htask, List.mem_singleton.mp hstatus, hid⟩
  mark_pending := fun _ _ _ _ _ hmarked => queuedIds_moveTask hstatus hmarked
  mark_blocks := fun _ blocker _ _ _ hmarked =>
    dependsOn_of_rowsMoved (rowsMoved_moveTask hmarked (hvalues blocker))
  mark_valid := by
    intro store blocker dependent marked hunique hmarked
    unfold UniqueIds
    rw [ids_of_rowsMoved (rowsMoved_moveTask hmarked (hvalues blocker))]
    exact hunique

def EndsCleanly (before after : Store) : Prop :=
  ∀ waiting ∈ after.tasks, waiting.status = .queued → ∀ blocker ∈ after.tasks,
    waiting.dependencyTaskId = some blocker.taskId → blocker.status.isDead →
    ∃ old ∈ before.tasks, old.taskId = blocker.taskId ∧ old.status.isDead

/-- A transaction that ends tasks: those in `fromStatuses` and, with them, queued ones. -/
structure Ended (before after : Store) : Prop where
  moved : RowsMoved [.queued, .running] [.failed, .cancelled] before.tasks after.tasks
  clean : UniqueIds before → EndsCleanly before after

theorem ended_of_sweep {middle : Store} {fromStatuses : List TaskStatus} {status : TaskStatus}
    {first : Task → Task} {values : String → Task → Task}
    (hmoved : moveTask store taskId fromStatuses status first = some middle)
    (hfrom : fromStatuses ⊆ [.queued, .running]) (hdead : status.isDead)
    (hfirst : ∀ task, Restated task { first task with status })
    (hvalues : ∀ blocker task, Restated task { values blocker task with status }) :
    Ended store (sweep queuedDependents
      (fun store blocker dependent => moveTask store dependent [.queued] status (values blocker))
      (sweepFuel middle) middle taskId) := by
  have hto : [status] ⊆ [.failed, .cancelled] := by
    cases status <;> simp_all [TaskStatus.isDead]
  have hqueued : status ≠ .queued := by
    rintro rfl
    simp [TaskStatus.isDead] at hdead
  have hmiddle : RowsMoved [.queued, .running] [.failed, .cancelled] store.tasks middle.tasks :=
    (rowsMoved_moveTask hmoved hfirst).imp fun _ _ h => h.mono hfrom hto
  set swept := sweep queuedDependents
    (fun store blocker dependent => moveTask store dependent [.queued] status (values blocker))
    (sweepFuel middle) middle taskId with hswept
  have hsweep : RowsMoved [.queued] [.failed, .cancelled] middle.tasks swept.tasks := by
    refine sweep_respects (r := fun before after : Store =>
      RowsMoved [.queued] [.failed, .cancelled] before.tasks after.tasks) ?_ ?_ ?_ _ _ _
    · exact fun store => rowsMoved_refl _ _ _
    · exact fun _ _ _ h₁ h₂ => rowsMoved_trans (by decide) h₁ h₂
    · intro store blocker dependent marked hmarked
      exact (rowsMoved_moveTask hmarked (hvalues blocker)).imp fun _ _ h => h.mono (by simp) hto
  refine ⟨?_, fun hunique => ?_⟩
  · exact rowsMoved_trans (by decide) hmiddle
      (hsweep.imp fun _ _ h => h.mono (by simp) (List.Subset.refl _))
  · have hids : UniqueIds middle := by
      unfold UniqueIds
      rw [ids_of_rowsMoved hmiddle]
      exact hunique
    obtain ⟨hclosed, hfree⟩ :=
      sweep_closed (marks_moveTask hqueued hvalues) taskId hids (card_queuedIds_lt middle)
    intro waiting hwaiting hstatus blocker hblocker hdependency hblockerdead
    have hpending : waiting.taskId ∈ queuedIds swept :=
      mem_queuedIds.mpr ⟨waiting, hwaiting, hstatus, rfl⟩
    have hblocks : dependsOn middle blocker.taskId waiting.taskId := by
      rw [← dependsOn_of_rowsMoved hsweep]
      exact ⟨waiting, hwaiting, rfl, hdependency⟩
    obtain ⟨mid, hmid, hmidmoved⟩ := exists_before hsweep hblocker
    obtain ⟨old, hold, holdmoved⟩ := exists_before hmiddle hmid
    have hmidid := hmidmoved.restated.taskId_eq
    have holdid := holdmoved.restated.taskId_eq
    refine ⟨old, hold, (hmidid.trans holdid).symm, ?_⟩
    rcases hmidmoved with heq | ⟨-, hmidqueued, -⟩
    · -- The blocker was already dead after the first task had been ended.
      subst heq
      rw [(moveTask_eq_some hmoved).2] at hmid
      rcases mem_updateWhere.mp hmid with ⟨hmid, -⟩ | ⟨first, -, hguard, hfirsteq⟩
      · rw [List.inj_on_of_nodup_map hunique hold hmid holdid.symm]
        exact hblockerdead
      · refine absurd hblocks ?_
        have hblockerid : blocker.taskId = taskId := by
          rw [← hfirsteq, (hfirst first).taskId_eq, hguard.1]
        rw [hblockerid]
        exact hfree _ hpending
    · -- The sweep took the blocker out of the queue.
      refine absurd hblocks (hclosed.left _ hpending _ ?_ ?_)
      · exact mem_queuedIds.mpr ⟨mid, hmid, List.mem_singleton.mp hmidqueued, hmidid.symm⟩
      · intro hin
        obtain ⟨other, hother, hotherqueued, hotherid⟩ := mem_queuedIds.mp hin
        have hsame : other = blocker := List.inj_on_of_nodup_map hclosed.valid_after hother hblocker hotherid
        rw [hsame] at hotherqueued
        rw [hotherqueued] at hblockerdead
        simp [TaskStatus.isDead] at hblockerdead

theorem ended_refl (store : Store) : Ended store store :=
  ⟨rowsMoved_refl _ _ _, fun _ _ _ _ blocker hblocker _ hdead => ⟨blocker, hblocker, rfl, hdead⟩⟩

theorem markFailed_ended (store : Store) (texts : FailureTexts) (taskId errorMessage : String)
    (now : Time) : Ended store (markFailed store texts taskId errorMessage now).2 := by
  unfold markFailed
  split
  · rename_i failed hfailed
    simp only [cascadeFailedQueued, markFailedFrom]
    refine ended_of_sweep hfailed ?_ rfl ?_ ?_
    · decide
    · exact fun _ => rfl
    · exact fun _ _ => rfl
  · exact ended_refl store

theorem markCancelled_ended {cancelledBy : CancelledBy} {fromStatuses : List TaskStatus}
    (hfrom : fromStatuses ⊆ [.queued, .running])
    (h : markCancelled store taskId cancelledBy fromStatuses now = some after) :
    Ended store after := by
  obtain ⟨cancelled, hcancelled, rfl⟩ := Option.map_eq_some_iff.mp h
  refine ended_of_sweep hcancelled hfrom rfl ?_ ?_
  · exact fun _ => rfl
  · exact fun _ _ => rfl

theorem cancelTask_ended {result : CancelResult}
    (h : cancelTask store taskId now = .ok (result, after)) : Ended store after := by
  unfold cancelTask at h
  split at h
  · cases h
  · split at h
    · cases h
      exact ended_refl store
    · split at h
      · cases h
      · rename_i cancelled hcancelled
        cases h
        exact markCancelled_ended (by decide) hcancelled

theorem finalizeInterrupted_ended (store : Store) (taskId : String) (now : Time) :
    Ended store (finalizeInterrupted store taskId now).2 := by
  unfold finalizeInterrupted
  split
  · rename_i cancelled hcancelled
    exact markCancelled_ended (by decide) hcancelled
  · exact ended_refl store

theorem markSucceeded_moved (store : Store) (taskId result : String) (now : Time) :
    RowsMoved [.running] [.succeeded] store.tasks
      (markSucceeded store taskId result now).2.tasks := by
  unfold markSucceeded
  split
  · rename_i done hdone
    exact rowsMoved_moveTask hdone fun _ => rfl
  · exact rowsMoved_refl _ _ _

theorem cancelAllQueued_tasks (projectName : String) (excludeMediaTypes : List String)
    (hunique : UniqueIds store) :
    (cancelAllQueued store projectName excludeMediaTypes now).2.tasks =
      updateWhere (sweptByCancelAll projectName excludeMediaTypes)
        (fun task => { task with status := .cancelled, cancelledBy := some .user,
                                 finishedAt := some now, updatedAt := now }) store.tasks := by
  refine List.map_congr_left fun task htask => ?_
  have hguard : (task.taskId ∈ (store.tasks.filter fun task =>
      sweptByCancelAll projectName excludeMediaTypes task).map (·.taskId) ∧ task.status = .queued) ↔
      sweptByCancelAll projectName excludeMediaTypes task := by
    constructor
    · rintro ⟨hid, -⟩
      obtain ⟨other, hother, heq⟩ := List.mem_map.mp hid
      obtain ⟨hother, hswept⟩ := List.mem_filter.mp hother
      rw [← List.inj_on_of_nodup_map hunique hother htask heq]
      simpa using hswept
    · intro hswept
      exact ⟨List.mem_map.mpr ⟨task, List.mem_filter.mpr ⟨htask, by simpa using hswept⟩, rfl⟩,
        hswept.2.1⟩
  simp only [hguard]

theorem cancelAllQueued_moved {projectName : String} {excludeMediaTypes : List String}
    (hunique : UniqueIds store) :
    RowsMoved [.queued] [.cancelled] store.tasks
      (cancelAllQueued store projectName excludeMediaTypes now).2.tasks := by
  rw [cancelAllQueued_tasks _ _ hunique]
  exact rowsMoved_updateWhere fun _ _ hguard => ⟨rfl, by simp [hguard.2.1], by simp⟩

theorem requeueRunning_moved (store : Store) (limit : ℤ) (now : Time) :
    RowsMoved [.running] [.queued] store.tasks (requeueRunning store limit now).2.tasks :=
  rowsMoved_updateWhere fun _ _ hguard => ⟨rfl, by simp [hguard.2], by simp⟩

theorem requeueSingleTask_moved (store : Store) (taskId : String) (now : Time) :
    RowsMoved [.running] [.queued] store.tasks (requeueSingleTask store taskId now).2.tasks :=
  rowsMoved_updateWhere fun _ _ hguard => ⟨rfl, by simp [hguard.2], by simp⟩

theorem claimNext_ok (store : Store) (mediaType : String)
    (poolFullProviders excludeTaskIds : List String) (now : Time) :
    claimNext store mediaType poolFullProviders excludeTaskIds now = (none, store) ∨
      ∃ task ∈ store.tasks, claimable store mediaType poolFullProviders excludeTaskIds task ∧
        ((claimNext store mediaType poolFullProviders excludeTaskIds now).1).map (·.taskId) =
          some task.taskId ∧
        (claimNext store mediaType poolFullProviders excludeTaskIds now).2.tasks =
          updateWhere (fun row => row.taskId = task.taskId ∧ row.status = .queued)
            (fun row => { row with status := .running, startedAt := some now, updatedAt := now })
            store.tasks := by
  unfold claimNext
  split
  · exact Or.inl rfl
  · rename_i task hhead
    have hmem := List.mem_of_mem_head? hhead
    rw [byQueuedAt, List.mem_insertionSort, List.mem_filter] at hmem
    have hclaimable : claimable store mediaType poolFullProviders excludeTaskIds task := by
      simpa using hmem.2
    refine Or.inr ⟨task, hmem.1, hclaimable, ?_, rfl⟩
    set claimed : Store := { store with
      tasks := updateWhere (fun row => row.taskId = task.taskId ∧ row.status = .queued)
        (fun row => { row with status := .running, startedAt := some now, updatedAt := now })
        store.tasks } with hclaimed
    have hstarted : { task with status := .running, startedAt := some now, updatedAt := now } ∈
        claimed.tasks :=
      mem_updateWhere.mpr (Or.inr ⟨task, hmem.1, ⟨rfl, hclaimable.1⟩, rfl⟩)
    obtain ⟨row, hrow⟩ := task?_isSome hstarted rfl
    dsimp only at hrow ⊢
    rw [hrow, Option.map_some, (mem_of_task? hrow).2]

theorem retryArtifactDownload_ok {texts : FailureTexts} {refreshed : Task}
    (h : retryArtifactDownload store texts taskId now = .ok (refreshed, after)) :
    ∃ task ∈ store.tasks, task.taskId = taskId ∧ retryEligible texts task ∧
      after.tasks = updateWhere (fun row => row.taskId = taskId ∧ row.status = .failed)
        (fun row => { row with status := .running, errorMessage := none, finishedAt := none,
                               startedAt := some now, updatedAt := now }) store.tasks := by
  unfold retryArtifactDownload at h
  split at h
  · cases h
  · rename_i task htask
    split at h
    · cases h
    · rename_i heligible
      split at h
      · cases h
      · split at h
        · cases h
        · dsimp only at h
          split at h
          · cases h
            obtain ⟨hmem, hid⟩ := mem_of_task? htask
            exact ⟨task, hmem, hid, not_not.mp heligible, rfl⟩
          · cases h

theorem persistExecutionCheckpoint_ok {checkpointJson providerId : String}
    (h : persistExecutionCheckpoint store taskId checkpointJson providerId now = .ok after) :
    (∃ task ∈ store.tasks, checkpointable taskId task) ∧
      after = { store with
        tasks := updateWhere (checkpointable taskId)
          (fun task => { task with executionCheckpointJson := some checkpointJson,
                                   providerId := some providerId, updatedAt := now })
          store.tasks } := by
  unfold persistExecutionCheckpoint at h
  split at h
  · cases h
  · rename_i hcount
    cases h
    exact ⟨exists_of_rowcount_ne_zero (by omega), rfl⟩

end ShortReel.TaskTransactions
