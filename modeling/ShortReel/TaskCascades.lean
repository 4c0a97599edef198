import ShortReel.TaskQueue

/-!
# What a failure or a cancellation takes along

The tasks that are reached from one through queued ones, each ended once, in the order in which the
preview of a cancellation lists them.
-/

namespace ShortReel.TaskCascades

open TableUpdates DependencySweep ParentForests GenerationTables TaskRepository TaskTransactions
open TaskQueue

section TakenOut

variable (status : TaskStatus) (values : String → Task → Task)

def takenOut (task : Task) : Task :=
  { values (task.dependencyTaskId.getD "") task with status }

def endedEvent (task : Task) : TerminalEvent :=
  ⟨task.taskId, task.projectName, status, task.taskType⟩

/-- Queued tasks are ended, each with one event, and nothing else happens. -/
structure TakenOut (before : Store) (rows : List Task) (after : Store) : Prop where
  mem : ∀ row ∈ rows, row ∈ before.tasks
  queued : ∀ row ∈ rows, row.status = .queued
  nodup : (rows.map (·.taskId)).Nodup
  store : after = { before with
    tasks := updateWhere (·.taskId ∈ rows.map (·.taskId)) (takenOut status values) before.tasks
    terminalEvents := before.terminalEvents ++ rows.map (endedEvent status) }

variable {status values} {before middle after : Store}

theorem updateWhere_false {guard : Task → Prop} [DecidablePred guard] {f : Task → Task}
    {tasks : List Task} (h : ∀ task ∈ tasks, ¬ guard task) : updateWhere guard f tasks = tasks :=
  (List.map_congr_left fun task htask => if_neg (h task htask)).trans (List.map_id _)

theorem TakenOut.nil : TakenOut status values before [] before where
  mem _ h := absurd h List.not_mem_nil
  queued _ h := absurd h List.not_mem_nil
  nodup := List.nodup_nil
  store := by
    have htasks : updateWhere (·.taskId ∈ ([] : List Task).map (·.taskId)) (takenOut status values)
        before.tasks = before.tasks := updateWhere_false fun _ _ => List.not_mem_nil
    rw [htasks, List.map_nil, List.append_nil]

variable (hstatus : status ≠ .queued)
  (hvalues : ∀ blocker task, Restated task { values blocker task with status })
include hstatus hvalues

theorem TakenOut.cons {row : Task} {rows : List Task}
    (hfirst : TakenOut status values before [row] middle)
    (hrest : TakenOut status values middle rows after) :
    TakenOut status values before (row :: rows) after := by
  have hid : ∀ task, (takenOut status values task).taskId = task.taskId := fun task =>
    (hvalues _ task).taskId_eq
  have hmiddle := hfirst.store
  have hkept : ∀ task ∈ middle.tasks, task.status = .queued →
      task ∈ before.tasks ∧ task.taskId ≠ row.taskId := by
    intro task htask hqueued
    rw [hmiddle] at htask
    rcases mem_updateWhere.mp htask with ⟨hold, hguard⟩ | ⟨old, -, -, rfl⟩
    · exact ⟨hold, fun hsame => hguard (List.mem_singleton.mpr hsame)⟩
    · exact absurd hqueued hstatus
  have hfresh : row.taskId ∉ rows.map (·.taskId) := by
    intro hmem
    obtain ⟨other, hother, hsame⟩ := List.mem_map.mp hmem
    exact (hkept other (hrest.mem other hother) (hrest.queued other hother)).2 hsame
  refine ⟨?_, ?_, ?_, ?_⟩
  · refine List.forall_mem_cons.mpr ⟨hfirst.mem row List.mem_cons_self, fun other hother => ?_⟩
    exact (hkept other (hrest.mem other hother) (hrest.queued other hother)).1
  · exact List.forall_mem_cons.mpr ⟨hfirst.queued row List.mem_cons_self, hrest.queued⟩
  · exact List.nodup_cons.mpr ⟨hfresh, hrest.nodup⟩
  · have htasks : updateWhere (·.taskId ∈ rows.map (·.taskId)) (takenOut status values)
        (updateWhere (·.taskId ∈ [row].map (·.taskId)) (takenOut status values) before.tasks) =
        updateWhere (·.taskId ∈ (row :: rows).map (·.taskId)) (takenOut status values) before.tasks := by
      unfold updateWhere
      rw [List.map_map]
      refine List.map_congr_left fun task _ => ?_
      rw [Function.comp_apply]
      by_cases hrow : task.taskId = row.taskId
      · have hhere : task.taskId ∈ [row].map (·.taskId) := List.mem_singleton.mpr hrow
        have hall : task.taskId ∈ (row :: rows).map (·.taskId) := hrow ▸ List.mem_cons_self
        have hafter : (takenOut status values task).taskId ∉ rows.map (·.taskId) := by
          rw [hid, hrow]
          exact hfresh
        rw [if_pos hhere, if_pos hall]
        exact if_neg hafter
      · have hhere : task.taskId ∉ [row].map (·.taskId) := fun hmem => hrow (List.mem_singleton.mp hmem)
        rw [if_neg hhere]
        refine if_congr ⟨fun hmem => ?_, fun hmem => ?_⟩ rfl rfl
        · exact List.mem_cons_of_mem _ hmem
        · exact (List.mem_cons.mp hmem).resolve_left hrow
    rw [hrest.store, hmiddle]
    dsimp only
    rw [htasks, List.append_assoc]
    rfl

end TakenOut

section MoveTask

variable {before after : Store} {row : Task} {fromStatuses : List TaskStatus} {status : TaskStatus}

theorem moveTask_store {values : Task → Task} (hterminal : status.isTerminal)
    (hvalues : ∀ task, Restated task { values task with status }) (hunique : UniqueIds before)
    (hrow : row ∈ before.tasks)
    (h : moveTask before row.taskId fromStatuses status values = some after) :
    row.status ∈ fromStatuses ∧ after = { before with
      tasks := updateWhere (·.taskId = row.taskId) (fun task => { values task with status }) before.tasks
      terminalEvents := before.terminalEvents ++ [endedEvent status row] } := by
  have honly : ∀ task ∈ before.tasks, task.taskId = row.taskId → task = row := fun task htask hid =>
    List.inj_on_of_nodup_map hunique htask hrow hid
  have hfrom : row.status ∈ fromStatuses := by
    obtain ⟨⟨task, htask, hid, hstatus⟩, -⟩ := moveTask_eq_some h
    exact honly task htask hid ▸ hstatus
  have htasks : updateWhere (fun task => task.taskId = row.taskId ∧ task.status ∈ fromStatuses)
      (fun task => { values task with status }) before.tasks =
        updateWhere (·.taskId = row.taskId) (fun task => { values task with status }) before.tasks := by
    refine List.map_congr_left fun task htask => if_congr ⟨And.left, fun hid => ⟨hid, ?_⟩⟩ rfl rfl
    exact honly task htask hid ▸ hfrom
  have hfound : before.task? row.taskId = some row := by
    obtain ⟨task, htask⟩ := task?_isSome hrow rfl
    obtain ⟨hmem, hid⟩ := mem_of_task? htask
    rw [htask, honly task hmem hid]
  have hrecorded : ({ before with
      tasks := updateWhere (·.taskId = row.taskId) (fun task => { values task with status })
        before.tasks } : Store).task? row.taskId = some { values row with status } := by
    have htaskId : ∀ task : Task, ({ values task with status } : Task).taskId = task.taskId :=
      fun task => (hvalues task).taskId_eq
    have hkey := find?_updateWhere_key (·.taskId) htaskId row.taskId before.tasks
    refine hkey.trans ?_
    change (before.task? row.taskId).map _ = _
    rw [hfound, Option.map_some]
  have hevent : (⟨row.taskId, (values row).projectName, status, (values row).taskType⟩ : TerminalEvent) =
      endedEvent status row := by
    have hproject : (values row).projectName = row.projectName := (hvalues row).projectName_eq
    have htype : (values row).taskType = row.taskType := (hvalues row).taskType_eq
    rw [hproject, htype]
    rfl
  refine ⟨hfrom, ?_⟩
  unfold moveTask at h
  split_ifs at h
  have hafter := Option.some.inj h
  rw [htasks] at hafter
  unfold recordTerminalEvent at hafter
  rw [hrecorded] at hafter
  dsimp only at hafter
  rw [if_pos hterminal, hevent] at hafter
  exact hafter.symm

theorem takenOut_moveTask {values : String → Task → Task} {blocker : String}
    (hterminal : status.isTerminal)
    (hvalues : ∀ blocker task, Restated task { values blocker task with status })
    (hunique : UniqueIds before) (hrow : row ∈ before.tasks)
    (hblocker : row.dependencyTaskId = some blocker)
    (h : moveTask before row.taskId [.queued] status (values blocker) = some after) :
    TakenOut status values before [row] after := by
  obtain ⟨hqueued, hafter⟩ := moveTask_store hterminal (hvalues blocker) hunique hrow h
  refine ⟨?_, ?_, List.nodup_singleton _, ?_⟩
  · exact fun other hother => List.mem_singleton.mp hother ▸ hrow
  · exact fun other hother => List.mem_singleton.mp hother ▸ List.mem_singleton.mp hqueued
  · have htasks : updateWhere (·.taskId = row.taskId) (fun task => { values blocker task with status })
        before.tasks = updateWhere (·.taskId ∈ [row].map (·.taskId)) (takenOut status values)
          before.tasks := by
      refine List.map_congr_left fun task htask => ?_
      by_cases hid : task.taskId = row.taskId
      · have hsame := List.inj_on_of_nodup_map hunique htask hrow hid
        subst hsame
        have htaken : takenOut status values task = { values blocker task with status } := by
          unfold takenOut
          rw [hblocker, Option.getD_some]
        have hhere : task.taskId ∈ [task].map (·.taskId) := List.mem_cons_self
        rw [if_pos rfl, if_pos hhere, htaken]
      · have hnot : task.taskId ∉ [row].map (·.taskId) := fun hmem => hid (List.mem_singleton.mp hmem)
        rw [if_neg hid]
        exact (if_neg hnot).symm
    rw [hafter, htasks]
    rfl

end MoveTask

inductive Reached (store : Store) (taskId : String) : String → Prop
  | direct {task : Task} (htask : task ∈ store.tasks) (hqueued : task.status = .queued)
      (hblocker : task.dependencyTaskId = some taskId) : Reached store taskId task.taskId
  | next {blocker : String} {task : Task} (hreached : Reached store taskId blocker)
      (htask : task ∈ store.tasks) (hqueued : task.status = .queued)
      (hblocker : task.dependencyTaskId = some blocker) : Reached store taskId task.taskId

theorem Reached.exists_queued {store : Store} {taskId id : String} (h : Reached store taskId id) :
    ∃ task ∈ store.tasks, task.taskId = id ∧ task.status = .queued := by
  cases h with
  | direct htask hqueued _ => exact ⟨_, htask, rfl, hqueued⟩
  | next _ htask hqueued _ => exact ⟨_, htask, rfl, hqueued⟩

theorem Reached.queued {store : Store} {taskId : String} {row : Task} (hunique : UniqueIds store)
    (hrow : row ∈ store.tasks) (h : Reached store taskId row.taskId) : row.status = .queued := by
  obtain ⟨task, htask, hid, hqueued⟩ := h.exists_queued
  exact List.inj_on_of_nodup_map hunique htask hrow hid ▸ hqueued

theorem Reached.mono {store store' : Store} {taskId id : String}
    (hqueued : ∀ task ∈ store.tasks, task.status = .queued → task ∈ store'.tasks)
    (h : Reached store taskId id) : Reached store' taskId id := by
  induction h with
  | direct htask hstatus hblocker => exact .direct (hqueued _ htask hstatus) hstatus hblocker
  | next _ htask hstatus hblocker ih => exact .next ih (hqueued _ htask hstatus) hstatus hblocker

def Waits (store : Store) (blocker dependent : String) : Prop :=
  ∃ task ∈ store.tasks, task.taskId = dependent ∧ task.status = .queued ∧
    task.dependencyTaskId = some blocker

theorem Reached.of_waits {store : Store} {taskId blocker dependent : String}
    (hblocker : blocker = taskId ∨ Reached store taskId blocker)
    (hwaits : Waits store blocker dependent) : Reached store taskId dependent := by
  obtain ⟨task, htask, rfl, hqueued, hdependency⟩ := hwaits
  rcases hblocker with rfl | hreached
  · exact .direct htask hqueued hdependency
  · exact .next hreached htask hqueued hdependency

section Sweeps

variable {status : TaskStatus} {values : String → Task → Task} {start before after : Store}

abbrev markTask (status : TaskStatus) (values : String → Task → Task) (store : Store)
    (blocker dependent : String) : Option Store :=
  moveTask store dependent [.queued] status (values blocker)

variable (hterminal : status.isTerminal)
  (hvalues : ∀ blocker task, Restated task { values blocker task with status })
include hterminal hvalues

theorem takenOut_marked {pairs : List (String × String)} (hunique : UniqueIds before)
    (hmarked : Marked (markTask status values) before pairs after)
    (hwaits : ∀ pair ∈ pairs, dependsOn before pair.1 pair.2) :
    ∃ rows, rows.map (·.taskId) = pairs.map Prod.snd ∧ TakenOut status values before rows after := by
  have hstatus : status ≠ .queued := by
    rintro rfl
    cases hterminal
  induction hmarked with
  | nil state => exact ⟨[], rfl, TakenOut.nil⟩
  | @cons before middle after pair pairs hmark hrest ih =>
      obtain ⟨⟨row, hrow, hid, hblocker⟩, hwaits⟩ := List.forall_mem_cons.mp hwaits
      unfold markTask at hmark
      rw [← hid] at hmark
      have hmoved := rowsMoved_moveTask hmark (hvalues pair.1)
      have hfirst := takenOut_moveTask hterminal hvalues hunique hrow hblocker hmark
      have hmiddle : UniqueIds middle := by
        unfold UniqueIds
        rw [ids_of_rowsMoved hmoved]
        exact hunique
      obtain ⟨rows, hids, hrows⟩ := ih hmiddle (by rwa [dependsOn_of_rowsMoved hmoved])
      refine ⟨row :: rows, ?_, hfirst.cons hstatus hvalues hrows⟩
      rw [List.map_cons, List.map_cons, hids, hid]

theorem takenOut_sweep (hunique : UniqueIds before) (taskId : String) :
    ∃ rows, TakenOut status values before rows
        (sweep queuedDependents (markTask status values) (sweepFuel before) before taskId) ∧
      ∀ row ∈ rows, Reached before taskId row.taskId := by
  have hstatus : status ≠ .queued := by
    rintro rfl
    cases hterminal
  have hmarks := marks_moveTask hstatus hvalues
  obtain ⟨-, pairs, hpairs, hlinks⟩ := @sweep_marked _ _ queuedDependents
    (markTask status values) _
    (fun store => UniqueIds store ∧ dependsOn store = dependsOn before ∧
      queuedIds store ⊆ queuedIds before)
    (fun id => id = taskId ∨ Reached before taskId id) (Waits before)
    (fun blocker dependent hreached hwaits => Or.inr (Reached.of_waits hreached hwaits)) (by
      rintro store blocker dependent ⟨-, hdepends, hqueued⟩ hmem
      obtain ⟨task, htask, hblocker, hstatus, hid⟩ := mem_queuedDependents.mp hmem
      have hdependent : dependsOn before blocker dependent := hdepends ▸ ⟨task, htask, hid, hblocker⟩
      obtain ⟨row, hrow, hrowid, hrowblocker⟩ := hdependent
      obtain ⟨other, hother, hotherqueued, hotherid⟩ :=
        mem_queuedIds.mp (hqueued (mem_queuedIds.mpr ⟨task, htask, hstatus, hid⟩))
      have hsame := List.inj_on_of_nodup_map hunique hother hrow (hotherid.trans hrowid.symm)
      exact ⟨row, hrow, hrowid, hsame ▸ hotherqueued, hrowblocker⟩) (by
      rintro store blocker dependent marked ⟨hvalid, hdepends, hqueued⟩ hmark
      refine ⟨hmarks.mark_valid _ _ _ _ hvalid hmark, ?_, ?_⟩
      · rw [hmarks.mark_blocks _ _ _ _ hvalid hmark, hdepends]
      · rw [hmarks.mark_pending _ _ _ _ hvalid hmark]
        exact (Finset.erase_subset _ _).trans hqueued)
    (sweepFuel before) taskId ⟨hunique, rfl, Finset.Subset.refl _⟩ (Or.inl rfl)
  obtain ⟨rows, hids, hrows⟩ := takenOut_marked hterminal hvalues hunique hpairs fun pair hpair => by
    obtain ⟨task, htask, hid, -, hblocker⟩ := (hlinks pair hpair).2
    exact ⟨task, htask, hid, hblocker⟩
  refine ⟨rows, hrows, fun row hrow => ?_⟩
  have hmem : row.taskId ∈ pairs.map Prod.snd := hids ▸ List.mem_map_of_mem hrow
  obtain ⟨pair, hpair, hsame⟩ := List.mem_map.mp hmem
  obtain ⟨hreached, hwaits⟩ := hlinks pair hpair
  exact hsame ▸ Reached.of_waits hreached hwaits

theorem not_queued_of_reached (hunique : UniqueIds before) {taskId id : String}
    (hreached : Reached before taskId id) :
    id ∉ queuedIds (sweep queuedDependents (markTask status values) (sweepFuel before) before taskId) := by
  have hstatus : status ≠ .queued := by
    rintro rfl
    cases hterminal
  obtain ⟨hclosed, hfree⟩ := sweep_closed (marks_moveTask hstatus hvalues) taskId hunique
    (card_queuedIds_lt before)
  induction hreached with
  | direct htask hqueued hblocker => exact fun hmem => hfree _ hmem ⟨_, htask, rfl, hblocker⟩
  | @next blocker task hreached htask hqueued hblocker ih =>
      obtain ⟨row, hrow, hid, hstatus⟩ := hreached.exists_queued
      have hpending : blocker ∈ queuedIds before := mem_queuedIds.mpr ⟨row, hrow, hstatus, hid⟩
      exact fun hmem => hclosed.left _ hmem _ hpending ih ⟨_, htask, rfl, hblocker⟩

theorem sweep_takesOut (hunique : UniqueIds before) (taskId : String) :
    ∃ rows, TakenOut status values before rows
        (sweep queuedDependents (markTask status values) (sweepFuel before) before taskId) ∧
      ∀ row, row ∈ rows ↔ row ∈ before.tasks ∧ Reached before taskId row.taskId := by
  obtain ⟨rows, hrows, hreached⟩ := takenOut_sweep hterminal hvalues hunique taskId
  refine ⟨rows, hrows, fun row => ⟨fun hrow => ⟨hrows.mem row hrow, hreached row hrow⟩, ?_⟩⟩
  rintro ⟨hrow, hreach⟩
  have hqueued := hreach.queued hunique hrow
  by_contra hnot
  have hkept : row.taskId ∉ rows.map (·.taskId) := by
    intro hmem
    obtain ⟨other, hother, hid⟩ := List.mem_map.mp hmem
    exact hnot (List.inj_on_of_nodup_map hunique (hrows.mem other hother) hrow hid ▸ hother)
  refine not_queued_of_reached hterminal hvalues hunique hreach (mem_queuedIds.mpr ⟨row, ?_, hqueued, rfl⟩)
  rw [hrows.store]
  exact mem_updateWhere.mpr (Or.inl ⟨hrow, hkept⟩)

end Sweeps

theorem TakenOut.tasks_eq {status : TaskStatus} {values : String → Task → Task}
    {before middle after : Store} {rows : List Task} {taskId : String} {root : Task → Task}
    (hmiddle : middle.tasks = updateWhere (·.taskId = taskId) root before.tasks)
    (hroot : ∀ task, (root task).taskId = task.taskId) (hstatus : ∀ task, (root task).status ≠ .queued)
    (hrows : TakenOut status values middle rows after) :
    taskId ∉ rows.map (·.taskId) ∧ after.tasks = before.tasks.map fun task =>
      if task.taskId = taskId then root task
      else if task.taskId ∈ rows.map (·.taskId) then takenOut status values task else task := by
  have hnot : taskId ∉ rows.map (·.taskId) := by
    intro hmem
    obtain ⟨row, hrow, hid⟩ := List.mem_map.mp hmem
    have hthere := hrows.mem row hrow
    rw [hmiddle] at hthere
    rcases mem_updateWhere.mp hthere with ⟨-, hguard⟩ | ⟨old, -, -, rfl⟩
    · exact hguard hid
    · exact hstatus old (hrows.queued _ hrow)
  refine ⟨hnot, ?_⟩
  rw [hrows.store]
  dsimp only
  rw [hmiddle]
  unfold updateWhere
  rw [List.map_map]
  refine List.map_congr_left fun task _ => ?_
  rw [Function.comp_apply]
  by_cases hid : task.taskId = taskId
  · have hafter : (root task).taskId ∉ rows.map (·.taskId) := by
      rw [hroot, hid]
      exact hnot
    rw [if_pos hid, if_pos hid]
    exact if_neg hafter
  · rw [if_neg hid, if_neg hid]

section Failures

variable (texts : FailureTexts) (errorMessage : String) (now : Time)

def failedBy (message : String) (task : Task) : Task :=
  { task with errorMessage := some (texts.boundReason message maxErrorMessageLen),
              finishedAt := some now, updatedAt := now }

def failedBehind (blocker : String) : Task → Task :=
  failedBy texts now (texts.encodeBoundedCascadeFailure blocker errorMessage)

/-- A running task that fails takes along exactly what is reached from it through queued tasks: each
of them fails with one event, the recursion ends, and nothing else changes. A task that is not running
does not fail. -/
theorem markFailed_exactly {store : Store} (hunique : UniqueIds store) (taskId : String) :
    (∀ running ∈ store.tasks, running.taskId = taskId → running.status = .running →
      ∃ rows, (rows.map (·.taskId)).Nodup ∧
        (∀ row, row ∈ rows ↔ row ∈ store.tasks ∧ Reached store taskId row.taskId) ∧
        running ∉ rows ∧
        markFailed store texts taskId errorMessage now = (1, { store with
          tasks := store.tasks.map fun task =>
            if task.taskId = taskId then { failedBy texts now errorMessage task with status := .failed }
            else if task.taskId ∈ rows.map (·.taskId) then
              takenOut .failed (failedBehind texts errorMessage now) task
            else task
          terminalEvents := store.terminalEvents ++ (running :: rows).map (endedEvent .failed) }) ∧
        ∃ failed, markFailedFrom store texts .running taskId errorMessage now = some failed ∧
          SweepsTo queuedDependents (markTask .failed (failedBehind texts errorMessage now)) taskId
            (queuedDependents failed taskId) failed
            (markFailed store texts taskId errorMessage now).2) ∧
      ((∀ task ∈ store.tasks, task.taskId = taskId → task.status ≠ .running) →
        markFailed store texts taskId errorMessage now = (0, store)) := by
  refine ⟨?_, fun hnone => ?_⟩
  · rintro running hrunning rfl hstatus
    cases hfailed : markFailedFrom store texts .running running.taskId errorMessage now with
    | none =>
        exact absurd (List.mem_singleton.mpr hstatus) (moveTask_eq_none hfailed running hrunning rfl)
    | some failed =>
        have hvalues : ∀ blocker task, Restated task
            { failedBehind texts errorMessage now blocker task with status := .failed } := fun _ _ => rfl
        have hids := ids_of_rowsMoved (rowsMoved_moveTask hfailed fun _ => rfl)
        have hmiddle : UniqueIds failed := by
          unfold UniqueIds
          rw [hids]
          exact hunique
        obtain ⟨-, hstore⟩ := @moveTask_store _ _ _ _ .failed
          (failedBy texts now errorMessage) rfl (fun _ => rfl) hunique hrunning hfailed
        have hqueued : ∀ task, task.status = .queued → (task ∈ failed.tasks ↔ task ∈ store.tasks) := by
          intro task hstatus'
          rw [hstore]
          refine mem_updateWhere.trans ⟨?_, fun htask => Or.inl ⟨htask, fun hid => ?_⟩⟩
          · rintro (⟨htask, -⟩ | ⟨old, -, -, rfl⟩)
            · exact htask
            · cases hstatus'
          · rw [List.inj_on_of_nodup_map hunique htask hrunning hid, hstatus] at hstatus'
            cases hstatus'
        obtain ⟨rows, hrows, hreached⟩ := sweep_takesOut rfl hvalues hmiddle running.taskId
        have hmiddleTasks := congrArg Store.tasks hstore
        obtain ⟨hnot, htasks⟩ := hrows.tasks_eq hmiddleTasks (fun _ => rfl) fun _ hsame => by cases hsame
        refine ⟨rows, hrows.nodup, fun row => ⟨fun hrow => ?_, fun hrow => ?_⟩,
          fun hmem => hnot (List.mem_map_of_mem hmem), ?_, failed, rfl, ?_⟩
        · refine ⟨(hqueued row (hrows.queued row hrow)).mp (hrows.mem row hrow), ?_⟩
          exact ((hreached row).mp hrow).2.mono fun task htask hstatus => (hqueued task hstatus).mp htask
        · have hrowQueued := hrow.2.queued hunique hrow.1
          refine (hreached row).mpr ⟨(hqueued row hrowQueued).mpr hrow.1, ?_⟩
          exact hrow.2.mono fun task htask hstatus => (hqueued task hstatus).mpr htask
        · unfold markFailed
          rw [hfailed]
          refine congrArg (Prod.mk 1) (hrows.store.trans ?_)
          rw [hrows.store] at htasks
          dsimp only at htasks
          rw [htasks, hstore, List.map_cons, List.append_assoc]
          rfl
        · unfold markFailed
          rw [hfailed]
          exact sweepsTo_sweep (marks_moveTask (by decide) hvalues) running.taskId hmiddle
            (card_queuedIds_lt failed)
  · unfold markFailed
    cases hfailed : markFailedFrom store texts .running taskId errorMessage now with
    | none => rfl
    | some failed =>
        obtain ⟨⟨task, htask, hid, hstatus⟩, -⟩ := moveTask_eq_some hfailed
        exact absurd (List.mem_singleton.mp hstatus) (hnone task htask hid)

def sampleChain : Store where
  tasks :=
    [{ (sampleRequest "E1S01" none).task "a" 1 with status := .running },
      (sampleRequest "E1S02" (some "a")).task "b" 2, (sampleRequest "E1S03" (some "b")).task "c" 3]

theorem markFailed_exactly_chain :
    ∃ rows : List Task, (∀ row, row ∈ rows ↔ row ∈ sampleChain.tasks ∧ Reached sampleChain "a" row.taskId) ∧
      (markFailed sampleChain sampleTexts "a" "boom" 4).2.terminalEvents =
        ⟨"a", "demo", .failed, "video"⟩ :: rows.map (endedEvent .failed) := by
  have hunique : (sampleChain.tasks.map (·.taskId)).Nodup := by decide
  obtain ⟨rows, -, hrows, -, hfailed, -⟩ :=
    (@markFailed_exactly sampleTexts "boom" 4 sampleChain hunique "a").1
      { (sampleRequest "E1S01" none).task "a" 1 with status := .running } (by decide) rfl rfl
  refine ⟨rows, hrows, ?_⟩
  rw [hfailed]
  rfl

end Failures

def parentOf (store : Store) (taskId : String) : Option String :=
  (store.task? taskId).bind (·.dependencyTaskId)

section Forests

variable {store after : Store}

theorem parentOf_eq_some (hunique : UniqueIds store) {taskId blocker : String} :
    parentOf store taskId = some blocker ↔ dependsOn store blocker taskId := by
  constructor
  · intro h
    obtain ⟨task, htask, hblocker⟩ := Option.bind_eq_some_iff.mp h
    obtain ⟨hmem, hid⟩ := mem_of_task? htask
    exact ⟨task, hmem, hid, hblocker⟩
  · rintro ⟨task, htask, hid, hblocker⟩
    obtain ⟨row, hrow⟩ := task?_isSome htask hid
    obtain ⟨hmem, hrowid⟩ := mem_of_task? hrow
    have hsame := List.inj_on_of_nodup_map hunique hmem htask (hrowid.trans hid.symm)
    unfold parentOf
    rw [hrow, Option.bind_some, hsame, hblocker]

theorem parentOf_congr (hunique : UniqueIds store) (hafter : UniqueIds after)
    (h : dependsOn after = dependsOn store) : parentOf after = parentOf store := by
  funext taskId
  refine Option.ext fun blocker => ?_
  rw [parentOf_eq_some hafter, parentOf_eq_some hunique, h]

theorem filter_updateWhere {guard : Task → Prop} [DecidablePred guard] {values : Task → Task}
    {p : Task → Bool} {tasks : List Task} (h : ∀ task ∈ tasks, guard task → ¬ p task ∧ ¬ p (values task)) :
    (updateWhere guard values tasks).filter p = tasks.filter p := by
  induction tasks with
  | nil => rfl
  | cons task tasks ih =>
      obtain ⟨hhere, hrest⟩ := List.forall_mem_cons.mp h
      unfold updateWhere at ih ⊢
      rw [List.map_cons]
      by_cases hguard : guard task
      · rw [if_pos hguard, List.filter_cons_of_neg (hhere hguard).2,
          List.filter_cons_of_neg (hhere hguard).1, ih hrest]
      · rw [if_neg hguard]
        by_cases hp : p task
        · rw [List.filter_cons_of_pos hp, List.filter_cons_of_pos hp, ih hrest]
        · rw [List.filter_cons_of_neg hp, List.filter_cons_of_neg hp, ih hrest]

theorem queuedDependents_moveTask {fromStatuses : List TaskStatus} {status : TaskStatus}
    {values : Task → Task} {dependent other : String} (hunique : UniqueIds store)
    (hvalues : ∀ task, Restated task { values task with status })
    (h : moveTask store dependent fromStatuses status values = some after)
    (hother : parentOf store dependent ≠ some other) :
    queuedDependents after other = queuedDependents store other := by
  have hfilter : (updateWhere (fun task => task.taskId = dependent ∧ task.status ∈ fromStatuses)
      (fun task => { values task with status }) store.tasks).filter
        (fun task => task.dependencyTaskId = some other ∧ task.status = .queued) =
      store.tasks.filter fun task => task.dependencyTaskId = some other ∧ task.status = .queued := by
    refine filter_updateWhere ?_
    rintro task htask ⟨rfl, -⟩
    have hparent : task.dependencyTaskId ≠ some other := fun hblocker =>
      hother ((parentOf_eq_some hunique).mpr ⟨task, htask, rfl, hblocker⟩)
    refine ⟨fun hp => hparent (of_decide_eq_true hp).1, fun hp => hparent ?_⟩
    exact (hvalues task).dependency_eq.symm.trans (of_decide_eq_true hp).1
  unfold queuedDependents
  rw [(moveTask_eq_some h).2, hfilter]

theorem queuedDependents_nodup (hunique : UniqueIds store) (blocker : String) :
    (queuedDependents store blocker).Nodup := by
  have hperm : (queuedDependents store blocker).Perm ((store.tasks.filter fun task =>
      task.dependencyTaskId = some blocker ∧ task.status = .queued).map (·.taskId)) :=
    (List.perm_insertionSort _ _).map _
  refine hperm.nodup_iff.mpr (hunique.sublist ?_)
  exact List.filter_sublist.map _

theorem forest_moveTask {status : TaskStatus} {values : String → Task → Task}
    (hstatus : status ≠ .queued)
    (hvalues : ∀ blocker task, Restated task { values blocker task with status })
    (hunique : UniqueIds store) :
    Forest (fun later => UniqueIds later ∧ dependsOn later = dependsOn store) (parentOf store)
      (fun later id => id ∈ queuedIds later) queuedDependents (markTask status values) where
  parent_eq := by
    rintro later blocker dependent ⟨-, hdepends⟩ hmem
    obtain ⟨task, htask, hblocker, -, hid⟩ := mem_queuedDependents.mp hmem
    rw [parentOf_eq_some hunique, ← hdepends]
    exact ⟨task, htask, hid, hblocker⟩
  waits_of_mem := by
    rintro later blocker dependent - hmem
    obtain ⟨task, htask, -, hqueued, hid⟩ := mem_queuedDependents.mp hmem
    exact mem_queuedIds.mpr ⟨task, htask, hqueued, hid⟩
  nodup later blocker hlater := queuedDependents_nodup hlater.1 blocker
  mark_some := by
    rintro later blocker dependent ⟨hvalid, -⟩ hqueued
    cases hmark : markTask status values later blocker dependent with
    | none => exact absurd hqueued ((marks_moveTask hstatus hvalues).mark_none _ _ _ hvalid hmark)
    | some marked => exact ⟨marked, rfl⟩
  mark_inv := by
    rintro later blocker dependent marked ⟨hvalid, hdepends⟩ hmark
    have hmarks := marks_moveTask hstatus hvalues
    exact ⟨hmarks.mark_valid _ _ _ _ hvalid hmark,
      (hmarks.mark_blocks _ _ _ _ hvalid hmark).trans hdepends⟩
  mark_waits := by
    rintro later blocker dependent marked ⟨hvalid, -⟩ hmark other hne hqueued
    rw [(marks_moveTask hstatus hvalues).mark_pending _ _ _ _ hvalid hmark]
    exact Finset.mem_erase.mpr ⟨hne, hqueued⟩
  mark_dependents := by
    rintro later blocker dependent marked ⟨hvalid, hdepends⟩ hmark other hother
    rw [← parentOf_congr hunique hvalid hdepends] at hother
    exact queuedDependents_moveTask hvalid (hvalues blocker) hmark hother

end Forests

theorem collectQueuedDependents_eq (store : Store) (fuel : ℕ) (taskId : String) :
    (collectQueuedDependents store fuel taskId).map (List.map (·.taskId)) =
      (below (queuedDependents store) fuel taskId).map (List.map Prod.snd) := by
  induction fuel generalizing taskId with
  | zero => rfl
  | succ fuel ih =>
      have hrows : queuedDependents store taskId = (byQueuedAt (store.tasks.filter fun task =>
        task.dependencyTaskId = some taskId ∧ task.status = .queued)).map (·.taskId) := rfl
      rw [collectQueuedDependents, below, hrows, Option.map_map, Option.map_map]
      clear hrows
      generalize byQueuedAt (store.tasks.filter fun task =>
        task.dependencyTaskId = some taskId ∧ task.status = .queued) = rows
      induction rows with
      | nil => rfl
      | cons row rows ihrows =>
          have hrow := ih row.taskId
          rw [List.map_cons, List.mapM_cons, List.mapM_cons]
          cases hcollect : collectQueuedDependents store fuel row.taskId with
          | none =>
              rw [hcollect] at hrow
              rw [Option.map_eq_none_iff.mp hrow.symm]
              rfl
          | some summaries =>
              rw [hcollect] at hrow
              obtain ⟨pairs, hpairs, hids⟩ := Option.map_eq_some_iff.mp hrow.symm
              rw [hpairs]
              -- The rows behind: both walks end, or neither does.
              cases hmore : rows.mapM fun task =>
                  (collectQueuedDependents store fuel task.taskId).map (summary task :: ·) with
              | none =>
                  rw [hmore] at ihrows
                  rw [Option.map_eq_none_iff.mp ihrows.symm]
                  rfl
              | some lists =>
                  rw [hmore] at ihrows
                  obtain ⟨others, hothers, hlists⟩ := Option.map_eq_some_iff.mp ihrows.symm
                  rw [hothers]
                  change some (((summary row :: summaries) :: lists).flatten.map (·.taskId)) =
                    some ((((taskId, row.taskId) :: pairs) :: others).flatten.map Prod.snd)
                  rw [List.flatten_cons, List.flatten_cons, List.map_append, List.map_append,
                    List.map_cons, List.map_cons, hids]
                  rw [Function.comp_apply, Function.comp_apply] at hlists
                  rw [hlists]
                  rfl

def FreshIds (state : QueueState) : QueueCommand → Prop
  | .enqueue request taskId _ _ =>
      request.dependencyTaskId ≠ some taskId ∧
        ∀ task ∈ state.store.tasks, task.taskId ≠ taskId ∧ task.dependencyTaskId ≠ some taskId
  | _ => True

section Runs

variable {texts : FailureTexts} {state : QueueState}

theorem dependsOn_of_kept {store after : Store} {claimed : List String}
    (h : List.Forall₂ (Kept claimed) store.tasks after.tasks) : dependsOn after = dependsOn store := by
  funext blocker dependent
  refine propext ⟨?_, ?_⟩
  · rintro ⟨task, htask, hid, hblocker⟩
    obtain ⟨old, hold, hkept⟩ := exists_before h htask
    exact ⟨old, hold, hkept.taskId.symm.trans hid, hkept.dependency.symm.trans hblocker⟩
  · rintro ⟨task, htask, hid, hblocker⟩
    obtain ⟨new, hnew, hkept⟩ := exists_after h htask
    exact ⟨new, hnew, hkept.taskId.trans hid, hkept.dependency.trans hblocker⟩

theorem grounded_insert {store after : Store} {request : EnqueueRequest} {taskId : String} {now : Time}
    (hunique : UniqueIds store) (hafter : UniqueIds after)
    (htasks : after.tasks = store.tasks ++ [request.task taskId now])
    (hself : request.dependencyTaskId ≠ some taskId)
    (hfresh : ∀ task ∈ store.tasks, task.taskId ≠ taskId ∧ task.dependencyTaskId ≠ some taskId)
    (h : Grounded (parentOf store)) : Grounded (parentOf after) := by
  have hdepends : ∀ blocker dependent, dependsOn after blocker dependent ↔
      dependsOn store blocker dependent ∨
        dependent = taskId ∧ request.dependencyTaskId = some blocker := by
    intro blocker dependent
    unfold dependsOn
    rw [htasks]
    constructor
    · rintro ⟨task, htask, hid, hblocker⟩
      rcases List.mem_append.mp htask with hold | hnew
      · exact Or.inl ⟨task, hold, hid, hblocker⟩
      · rw [List.mem_singleton.mp hnew] at hid hblocker
        exact Or.inr ⟨hid.symm, hblocker⟩
    · rintro (⟨task, htask, hid, hblocker⟩ | ⟨rfl, hblocker⟩)
      · exact ⟨task, List.mem_append_left _ htask, hid, hblocker⟩
      · exact ⟨_, List.mem_append_right _ List.mem_cons_self, rfl, hblocker⟩
  refine @Grounded.leaf _ _ taskId _ h (fun id hid => Option.ext fun blocker => ?_) fun id hparent => ?_
  · rw [parentOf_eq_some hafter, parentOf_eq_some hunique, hdepends]
    exact ⟨fun hor => hor.resolve_right fun hnew => hid hnew.1, Or.inl⟩
  · rcases (hdepends taskId id).mp ((parentOf_eq_some hafter).mp hparent) with hold | ⟨-, hnew⟩
    · obtain ⟨task, htask, -, hblocker⟩ := hold
      exact (hfresh task htask).2 hblocker
    · exact hself hnew

theorem grounded_run (hbase : Base state.store state.claimed) (h : Grounded (parentOf state.store))
    {command : QueueCommand} (hfresh : FreshIds state command) :
    Grounded (parentOf (run texts state command).store) := by
  have hafter := (@base_run texts state hbase command).unique
  have hsame : dependsOn (run texts state command).store = dependsOn state.store →
      Grounded (parentOf (run texts state command).store) := by
    intro hdepends
    rw [parentOf_congr hbase.unique hafter hdepends]
    exact h
  cases command with
  | enqueue request taskId now dedupeGuard =>
      generalize hlater : run texts state (.enqueue request taskId now dedupeGuard) = later at hafter hsame ⊢
      obtain ⟨-, ⟨-, htasks⟩ | ⟨-, htasks⟩⟩ := run_enqueue hlater.symm
      · exact grounded_insert hbase.unique hafter htasks hfresh.1 hfresh.2 h
      · exact hsame (by unfold dependsOn; rw [htasks])
  | cancelAllQueued projectName excludeMediaTypes now =>
      exact hsame (dependsOn_of_kept (kept_of_rowsMoved hbase (by decide) (by decide)
        (cancelAllQueued_moved hbase.unique)))
  | _ => exact hsame (dependsOn_of_kept (kept_of_effect hbase (run_effect hbase rfl)).2)

theorem grounded_of_reachable (hreach : (queue texts).ReachableWhen FreshIds state) :
    Grounded (parentOf state.store) := by
  refine hreach.invariant (fun state => Grounded (parentOf state.store)) ?_ ?_
  · rintro _ rfl
    exact ⟨fun id => Acc.intro id fun child hchild => by cases hchild⟩
  · rintro state command _ hreach hgrounded hfresh rfl
    exact grounded_run (base_of_reachable hreach) hgrounded hfresh

def cancelledBy (by_ : CancelledBy) (now : Time) (task : Task) : Task :=
  { task with status := .cancelled, cancelledBy := some by_, finishedAt := some now, updatedAt := now }

/-- The preview of the cancellation of a queued task ends, and names what the cancellation cancels
besides the task, in its order. -/
theorem preview_names_cancelled (hreach : (queue texts).ReachableWhen FreshIds state) {task : Task}
    (htask : task ∈ state.store.tasks) (hqueued : task.status = .queued) (now : Time) :
    ∃ preview after, getCancelPreview state.store task.taskId = .ok (some preview) ∧
      cancelTask state.store task.taskId now =
        .ok (.cancelled (task.taskId :: preview.cascaded.map (·.taskId)), after) ∧
      after.tasks = state.store.tasks.map fun row =>
        if row.taskId = task.taskId then cancelledBy .user now row
        else if row.taskId ∈ preview.cascaded.map (·.taskId) then cancelledBy .cascade now row
        else row := by
  have hunique := (base_of_reachable hreach).unique
  have hgrounded := grounded_of_reachable hreach
  generalize state.store = store at htask hunique hgrounded
  have hfound : store.task? task.taskId = some task := by
    obtain ⟨row, hrow⟩ := task?_isSome htask rfl
    obtain ⟨hmem, hid⟩ := mem_of_task? hrow
    rw [hrow, List.inj_on_of_nodup_map hunique hmem htask hid]
  have hdependents : ∀ blocker, ∀ dependent ∈ queuedDependents store blocker,
      parentOf store dependent = some blocker ∧ dependent ∈ store.tasks.map (·.taskId) := by
    intro blocker dependent hmem
    obtain ⟨row, hrow, hblocker, -, hid⟩ := mem_queuedDependents.mp hmem
    exact ⟨(parentOf_eq_some hunique).mpr ⟨row, hrow, hid, hblocker⟩,
      List.mem_map.mpr ⟨row, hrow, hid⟩⟩
  obtain ⟨pairs, hpairs⟩ := @below_isSome _ _ _ _ _ _ (sweepFuel store) hgrounded hdependents
    (Descent.start (List.mem_map_of_mem htask)) (by
      unfold sweepFuel
      rw [List.length_map, List.length_singleton]
      omega)
  have hcollected := collectQueuedDependents_eq store (sweepFuel store) task.taskId
  rw [hpairs, Option.map_some] at hcollected
  obtain ⟨summaries, hsummaries, hids⟩ := Option.map_eq_some_iff.mp hcollected
  cases hcancelled : cancelRow store [.queued] .user now task.taskId with
  | none => exact absurd (List.mem_singleton.mpr hqueued) (moveTask_eq_none hcancelled task htask rfl)
  | some cancelled =>
      have hvalues : ∀ (blocker : String) (row : Task), Restated row
          { cancelledBy .cascade now row with status := .cancelled } := fun _ _ => rfl
      have hmoved := rowsMoved_moveTask hcancelled fun _ => rfl
      have hmiddle : UniqueIds cancelled := by
        unfold UniqueIds
        rw [ids_of_rowsMoved hmoved]
        exact hunique
      have hlength : sweepFuel cancelled = sweepFuel store := by
        unfold sweepFuel
        rw [hmoved.length_eq]
      obtain ⟨-, hstore⟩ := @moveTask_store _ _ _ _ .cancelled (cancelledBy .user now) rfl
        (fun _ => rfl) hunique htask hcancelled
      have hintact : ∀ other, Under (parentOf store) other task.taskId →
          queuedDependents cancelled other = queuedDependents store other := by
        intro other hunder
        refine @queuedDependents_moveTask _ _ _ .cancelled (cancelledBy .user now) _ _ hunique
          (fun _ => rfl) hcancelled fun hparent => ?_
        exact Under.not_under_parent hgrounded hparent hunder
      have horder := sweep_inOrder (forest_moveTask (by decide) hvalues hunique) hgrounded
        ⟨hunique, rfl⟩ ⟨hmiddle, dependsOn_of_rowsMoved hmoved⟩ hintact hpairs
      obtain ⟨rows, hrowIds, hrows⟩ := takenOut_marked rfl hvalues hmiddle horder.marked (by
        intro pair hpair
        rw [dependsOn_of_rowsMoved hmoved, ← parentOf_eq_some hunique]
        exact (hdependents _ _ (mem_below hpairs pair hpair)).1)
      obtain ⟨-, htasks⟩ := hrows.tasks_eq (congrArg Store.tasks hstore) (fun _ => rfl) fun _ hsame => by
        cases hsame
      rw [hrowIds, ← hids] at htasks
      refine ⟨⟨summary task, task.status, summaries⟩, _, ?_, ?_, htasks⟩
      · unfold getCancelPreview
        rw [hfound]
        dsimp only
        rw [if_neg (by rw [hqueued]; decide), hsummaries]
        rfl
      · have hevents := congrArg Store.terminalEvents hrows.store
        have hbefore : cancelled.terminalEvents =
            store.terminalEvents ++ [endedEvent .cancelled task] := congrArg Store.terminalEvents hstore
        dsimp only at hevents
        rw [hbefore, List.append_assoc] at hevents
        have hnames : ((sweep queuedDependents (markTask .cancelled fun _ => cancelledBy .cascade now)
            (sweepFuel store) cancelled task.taskId).terminalEvents.drop
              store.terminalEvents.length).map (·.taskId) = task.taskId :: summaries.map (·.taskId) := by
          rw [hevents, List.drop_left, hids, ← hrowIds, List.map_append, List.map_map]
          rfl
        unfold cancelTask
        rw [hfound]
        dsimp only
        rw [if_neg (by rw [hqueued]; decide)]
        unfold markCancelled
        rw [hcancelled, Option.map_some, hlength]
        exact congrArg (fun ids => Except.ok (CancelResult.cancelled ids, _)) hnames

def chainCommands : List QueueCommand :=
  [.enqueue (sampleRequest "E1S01" none) "a" 1 fun _ _ => .ok (),
    .enqueue (sampleRequest "E1S02" (some "a")) "b" 2 fun _ _ => .ok (),
    .enqueue (sampleRequest "E1S03" (some "b")) "c" 3 fun _ _ => .ok ()]

theorem preview_names_cancelled_chain :
    ∃ preview after,
      getCancelPreview (chainCommands.foldl (run sampleTexts) {}).store "a" = .ok (some preview) ∧
      cancelTask (chainCommands.foldl (run sampleTexts) {}).store "a" 4 =
        .ok (.cancelled ("a" :: preview.cascaded.map (·.taskId)), after) := by
  have hreach : (queue sampleTexts).ReachableWhen FreshIds (chainCommands.foldl (run sampleTexts) {}) :=
    TransitionSystem.reachable_foldl (.start rfl)
      ⟨⟨by decide, by decide⟩, ⟨by decide, by decide⟩, ⟨by decide, by decide⟩, trivial⟩
  obtain ⟨preview, after, hpreview, hcancel, -⟩ := @preview_names_cancelled _ _ hreach
    ((sampleRequest "E1S01" none).task "a" 1) (by decide) rfl 4
  exact ⟨preview, after, hpreview, hcancel⟩

end Runs

end ShortReel.TaskCascades
