import ShortReel.TaskQueue

/-!
# Waiting for a task that cannot succeed

Whether a queued task may wait for one that failed or was cancelled. Failing, cancelling and
interrupting a task sweep everything queued behind it. Enqueueing and the bulk cancellation do not
look at dependencies, and a run keeps the law exactly as long as neither meets one.
-/

namespace ShortReel.TaskDependencies

open TableUpdates GenerationTables TaskRepository TaskTransactions TaskQueue

def NoneWaits (store : Store) : Prop :=
  ∀ waiting ∈ store.tasks, waiting.status = .queued → ∀ blocker ∈ store.tasks,
    waiting.dependencyTaskId = some blocker.taskId → ¬ blocker.status.isDead

instance (store : Store) : Decidable (NoneWaits store) :=
  inferInstanceAs (Decidable (∀ waiting ∈ store.tasks, _ → ∀ blocker ∈ store.tasks, _))

/-- A request that adds a row finds its dependency alive, and a bulk cancellation leaves nothing in
the queue behind what it cancels. -/
def RespectsDependencies (state : QueueState) : QueueCommand → Prop
  | .enqueue request taskId now _ =>
      Inserts state.store request taskId now → ∀ blocker ∈ state.store.tasks,
        request.dependencyTaskId = some blocker.taskId → ¬ blocker.status.isDead
  | .cancelAllQueued projectName excludeMediaTypes _ =>
      ∀ waiting ∈ state.store.tasks, waiting.status = .queued →
        ¬ sweptByCancelAll projectName excludeMediaTypes waiting →
        ∀ blocker ∈ state.store.tasks, waiting.dependencyTaskId = some blocker.taskId →
          ¬ sweptByCancelAll projectName excludeMediaTypes blocker
  | _ => True

variable {texts : FailureTexts} {state later : QueueState}

theorem noneWaits_of_effect (hbase : Base state.store state.claimed)
    (hwaits : NoneWaits state.store) (heffect : Effect state later) : NoneWaits later.store := by
  intro waiting hwaiting hqueued blocker hblocker hdependency hdead
  cases heffect with
  | calm hclaimed hrows =>
      obtain ⟨oldWaiting, holdWaiting, hcalm⟩ := exists_before hrows hwaiting
      obtain ⟨old, hold, hblocked⟩ := exists_before hrows hblocker
      rw [hcalm.dependency, hblocked.taskId] at hdependency
      rcases hcalm.queued hqueued with hwas | hwas
      · exact hwaits _ holdWaiting hwas _ hold hdependency (hblocked.dead hdead)
      · -- A task that comes back into the queue was claimed, so what it waits for has succeeded.
        have hdone := hclaimed.done _ holdWaiting hwas
        rw [dependencyDone, hdependency] at hdone
        obtain ⟨row, hrow, hid, hsucceeded⟩ := hdone
        rw [List.inj_on_of_nodup_map hbase.unique hrow hold hid] at hsucceeded
        have holddead := hblocked.dead hdead
        rw [hsucceeded] at holddead
        cases holddead
  | ended hclaimed hended =>
      obtain ⟨old, hold, hid, holddead⟩ :=
        hended.clean hbase.unique waiting hwaiting hqueued blocker hblocker hdependency hdead
      obtain ⟨oldWaiting, holdWaiting, hmoved⟩ := exists_before hended.moved hwaiting
      rcases hmoved with rfl | ⟨-, -, hstatus⟩
      · exact hwaits _ holdWaiting hqueued _ hold (hid ▸ hdependency) holddead
      · rw [hqueued] at hstatus
        exact absurd hstatus (by decide)

theorem noneWaits_insert {after : Store} {request : EnqueueRequest} {taskId : String} {now : Time}
    (hwaits : NoneWaits state.store)
    (htasks : after.tasks = state.store.tasks ++ [request.task taskId now]) :
    NoneWaits after ↔ ∀ blocker ∈ state.store.tasks,
      request.dependencyTaskId = some blocker.taskId → ¬ blocker.status.isDead := by
  have hmem : ∀ {task}, task ∈ after.tasks ↔
      task ∈ state.store.tasks ∨ task = request.task taskId now := by
    intro task
    rw [htasks, List.mem_append, List.mem_singleton]
  constructor
  · intro hafter blocker hblocker hdependency
    exact hafter _ (hmem.mpr (Or.inr rfl)) rfl _ (hmem.mpr (Or.inl hblocker)) hdependency
  · intro halive waiting hwaiting hqueued blocker hblocker hdependency
    rcases hmem.mp hblocker with hblocker | rfl
    · rcases hmem.mp hwaiting with hwaiting | rfl
      · exact hwaits _ hwaiting hqueued _ hblocker hdependency
      · exact halive _ hblocker hdependency
    · exact nofun

theorem noneWaits_cancelAllQueued {projectName : String} {excludeMediaTypes : List String}
    {now : Time} (hbase : Base state.store state.claimed) (hwaits : NoneWaits state.store) :
    NoneWaits (cancelAllQueued state.store projectName excludeMediaTypes now).2 ↔
      RespectsDependencies state (.cancelAllQueued projectName excludeMediaTypes now) := by
  unfold NoneWaits
  rw [cancelAllQueued_tasks _ _ hbase.unique]
  constructor
  · intro hafter waiting hwaiting hqueued hkept blocker hblocker hdependency hswept
    exact hafter waiting (mem_updateWhere.mpr (Or.inl ⟨hwaiting, hkept⟩)) hqueued _
      (mem_updateWhere.mpr (Or.inr ⟨blocker, hblocker, hswept, rfl⟩)) hdependency rfl
  · intro hrespects waiting hwaiting hqueued blocker hblocker hdependency
    rcases mem_updateWhere.mp hwaiting with ⟨hwaiting, hkept⟩ | ⟨old, -, -, rfl⟩
    · rcases mem_updateWhere.mp hblocker with ⟨hblocker, -⟩ | ⟨old, hold, hswept, rfl⟩
      · exact hwaits waiting hwaiting hqueued blocker hblocker hdependency
      · exact absurd hswept (hrespects waiting hwaiting hqueued hkept old hold hdependency)
    · cases hqueued

theorem noneWaits_run (hbase : Base state.store state.claimed) (hwaits : NoneWaits state.store)
    (command : QueueCommand) :
    NoneWaits (run texts state command).store ↔ RespectsDependencies state command := by
  cases command with
  | enqueue request taskId now dedupeGuard =>
      generalize hlater : run texts state (.enqueue request taskId now dedupeGuard) = later
      obtain ⟨-, ⟨hinserts, htasks⟩ | ⟨hjoins, htasks⟩⟩ := run_enqueue hlater.symm
      · rw [noneWaits_insert hwaits htasks]
        exact ⟨fun halive _ => halive, fun halive => halive hinserts⟩
      · refine iff_of_true ?_ fun hinserts => absurd hinserts hjoins
        unfold NoneWaits
        rw [htasks]
        exact hwaits
  | cancelAllQueued projectName excludeMediaTypes now => exact noneWaits_cancelAllQueued hbase hwaits
  | _ => exact iff_of_true (noneWaits_of_effect hbase hwaits (run_effect hbase rfl)) trivial

/-- In a run whose commands respect dependencies no queued task ever waits for one that can no
longer succeed, and the first command that does not respect them ends that. -/
theorem noneWaits_iff_respectsDependencies
    (hreach : (queue texts).ReachableWhen RespectsDependencies state) :
    NoneWaits state.store ∧ ∀ command,
      (NoneWaits (run texts state command).store ↔ RespectsDependencies state command) := by
  have hwaits : NoneWaits state.store := by
    refine hreach.invariant (fun state => NoneWaits state.store) ?_ ?_
    · rintro _ rfl
      exact fun _ hwaiting => absurd hwaiting List.not_mem_nil
    · rintro state command _ hreach hwaits hguard rfl
      exact (noneWaits_run (base_of_reachable hreach) hwaits command).mpr hguard
  exact ⟨hwaits, noneWaits_run (base_of_reachable hreach) hwaits⟩

def sampleCommands : List QueueCommand :=
  [.enqueue (sampleRequest "E1S01" none) "a" 1 fun _ _ => .ok (),
    .enqueue (sampleRequest "E1S02" (some "a")) "b" 2 fun _ _ => .ok (),
    .claimNext "video" [] [] 3]

theorem noneWaits_iff_respectsDependencies_sample :
    NoneWaits (sampleCommands.foldl (run sampleTexts) {}).store ∧ ∀ command,
      (NoneWaits (run sampleTexts (sampleCommands.foldl (run sampleTexts) {}) command).store ↔
        RespectsDependencies (sampleCommands.foldl (run sampleTexts) {}) command) :=
  noneWaits_iff_respectsDependencies (TransitionSystem.reachable_foldl (.start rfl)
    ⟨fun _ => by decide, fun _ => by decide, trivial, trivial⟩)

def failedBetween : List QueueCommand :=
  [.enqueue (sampleRequest "E1S01" none) "a" 1 fun _ _ => .ok (), .claimNext "video" [] [] 2,
    .markFailed "a" "boom" 3,
    .enqueue (sampleRequest "E1S02" (some "a")) "b" 4 fun _ _ => .ok ()]

theorem waits_behind_failed :
    ∃ state, (queue sampleTexts).Reachable state ∧ ¬ NoneWaits state.store :=
  ⟨failedBetween.foldl (run sampleTexts) {},
    TransitionSystem.reachable_foldl (.start rfl) (TransitionSystem.along_true _ _), by decide⟩

end ShortReel.TaskDependencies
