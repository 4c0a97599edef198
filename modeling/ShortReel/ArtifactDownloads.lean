import ShortReel.TaskTransactions

/-!
# Retrying the download of an artifact

`retry_artifact_download`, statement by statement in one session, with what other sessions commit in
between. Two tables change, or none does.
-/

namespace ShortReel.ArtifactDownloads

open TableUpdates GenerationTables TaskRepository

inductive RetryError where
  | taskNotEligible (taskId : String)
  | noSettleableCall (taskId : String)
  | callNotEligible (callId : ℕ)
  | integrityError
  deriving DecidableEq, Repr

def RetryError.message : RetryError → String
  | taskNotEligible taskId => "task is not eligible for artifact download retry: " ++ taskId
  | noSettleableCall taskId =>
      "task has no settleable api call for artifact download retry: " ++ taskId
  | callNotEligible callId =>
      "api call is not eligible for artifact download retry: " ++ toString callId
  | integrityError => "UNIQUE constraint failed"

structure Session where
  database : Store
  view : Store

def Session.begin (database : Store) : Session :=
  ⟨database, database⟩

def Session.execute (statement : Store → Store) (session : Session) : Session :=
  { session with view := statement session.view }

def Session.commit (session : Session) : Session :=
  ⟨session.view, session.view⟩

def Session.rollback (session : Session) : Session :=
  ⟨session.database, session.database⟩

def Session.meanwhile (other : Store → Store) (session : Session) : Session :=
  ⟨other session.database, other session.view⟩

/-- What other sessions commit between the statements. The update of the call locks its table's row,
so that only tasks change before the update of the task. -/
structure Others where
  beforeCall : Store → Store := id
  beforeReopen : Store → Store := id
  beforeRestart : List Task → List Task := id

def Others.restartStore (others : Others) (store : Store) : Store :=
  { store with tasks := others.beforeRestart store.tasks }

def Others.stages (others : Others) (database : Store) : List Store :=
  [database, others.beforeCall database, others.beforeReopen (others.beforeCall database),
    others.restartStore (others.beforeReopen (others.beforeCall database))]

def reopenable (callId : ℕ) (call : ApiCall) : Prop :=
  call.id = callId ∧ (call.status = .failed ∨ call.status = .pending)

instance (callId : ℕ) (call : ApiCall) : Decidable (reopenable callId call) :=
  inferInstanceAs (Decidable (_ ∧ _))

def reopened (call : ApiCall) : ApiCall :=
  { call with
    status := .pending
    finishedAt := none
    errorMessage := none
    errorCode := none
    errorParams := none }

def restartable (taskId : String) (task : Task) : Prop :=
  task.taskId = taskId ∧ task.status = .failed

instance (taskId : String) (task : Task) : Decidable (restartable taskId task) :=
  inferInstanceAs (Decidable (_ ∧ _))

def restarted (now : Time) (task : Task) : Task :=
  { task with
    status := .running
    errorMessage := none
    finishedAt := none
    startedAt := some now
    updatedAt := now }

def indexRejects (store : Store) (taskId : String) : Prop :=
  ∃ task ∈ store.tasks, restartable taskId task ∧ activeKeyTaken store taskId task.dedupeKey

instance (store : Store) (taskId : String) : Decidable (indexRejects store taskId) :=
  inferInstanceAs (Decidable (∃ task ∈ store.tasks, _ ∧ _))

def reopenCall (callId : ℕ) (store : Store) : Store :=
  { store with apiCalls := updateWhere (reopenable callId) reopened store.apiCalls }

def restartTask (taskId : String) (now : Time) (store : Store) : Store :=
  { store with tasks := updateWhere (restartable taskId) (restarted now) store.tasks }

section Retry

variable (texts : FailureTexts) (others : Others) (taskId : String) (now : Time)

def reopenAndRestart (callId : ℕ) (session : Session) : Except RetryError Task × Session :=
  let calls := rowcount (reopenable callId) session.view.apiCalls
  let session := session.execute (reopenCall callId)
  if calls ≠ 1 then (.error (.callNotEligible callId), session.rollback)
  else
    let session := session.meanwhile others.restartStore
    let tasks := rowcount (restartable taskId) session.view.tasks
    if indexRejects session.view taskId then (.error .integrityError, session)
    else
      let session := session.execute (restartTask taskId now)
      if tasks ≠ 1 then (.error (.taskNotEligible taskId), session.rollback)
      else
        let session := session.commit
        match session.view.task? taskId with
        | some refreshed => (.ok refreshed, session)
        | none => (.error (.taskNotEligible taskId), session)

def retryInSession (session : Session) : Except RetryError Task × Session :=
  match session.view.task? taskId with
  | none => (.error (.taskNotEligible taskId), session)
  | some task =>
      if ¬ retryEligible texts task then (.error (.taskNotEligible taskId), session)
      else
        let session := session.meanwhile others.beforeCall
        match newestSettleableCall session.view taskId with
        | none => (.error (.noSettleableCall taskId), session)
        | some call =>
            reopenAndRestart others taskId now call.id (session.meanwhile others.beforeReopen)

/-- `retry_artifact_download`. The session is closed at the end: what it has not committed is
gone. -/
def retryArtifactDownload (database : Store) : Except RetryError Task × Store :=
  let (result, session) := retryInSession texts others taskId now (.begin database)
  (result, session.database)

end Retry

def Retried (taskId : String) (now : Time) (call : ApiCall) (before after : Store) : Prop :=
  ∃ calls laterCalls tasks task laterTasks,
    before.apiCalls = calls ++ call :: laterCalls ∧ reopenable call.id call ∧
    before.tasks = tasks ++ task :: laterTasks ∧ restartable taskId task ∧
    ¬ activeKeyTaken before taskId task.dedupeKey ∧
    after = { before with
      apiCalls := calls ++ reopened call :: laterCalls
      tasks := tasks ++ restarted now task :: laterTasks }

def IsNewest (taskId : String) (calls : List ApiCall) (call : ApiCall) : Prop :=
  call ∈ calls ∧ settleable taskId call ∧ ∀ other ∈ calls, settleable taskId other → other.id ≤ call.id

theorem isNewest_of_newestSettleableCall {store : Store} {taskId : String} {call : ApiCall}
    (h : newestSettleableCall store taskId = some call) : IsNewest taskId store.apiCalls call := by
  unfold newestSettleableCall at h
  set settleables := store.apiCalls.filter fun call => settleable taskId call with hsettleables
  have hmem : ∀ other, other ∈ settleables ↔ other ∈ store.apiCalls ∧ settleable taskId other := by
    intro other
    simp [hsettleables, List.mem_filter]
  set sorted := settleables.insertionSort fun first second => first.id ≤ second.id with hsorted
  have hperm : sorted.Perm settleables := List.perm_insertionSort _ _
  have hpairwise : sorted.Pairwise fun first second => first.id ≤ second.id :=
    List.pairwise_insertionSort _ _
  obtain ⟨older, hsplit⟩ := List.getLast?_eq_some_iff.mp h
  have hcall : call ∈ settleables := hperm.mem_iff.mp (by simp [hsplit])
  refine ⟨((hmem call).mp hcall).1, ((hmem call).mp hcall).2, fun other hother hsettleable => ?_⟩
  have hin : other ∈ sorted := hperm.mem_iff.mpr ((hmem other).mpr ⟨hother, hsettleable⟩)
  rw [hsplit] at hin hpairwise
  rcases List.mem_append.mp hin with hin | hin
  · exact (List.pairwise_append.mp hpairwise).2.2 other hin call (List.mem_singleton_self call)
  · rw [List.mem_singleton.mp hin]

section Outcome

variable {texts : FailureTexts} {others : Others} {taskId : String} {now : Time}

theorem exists_task?_restartTask (now : Time) {store : Store}
    (h : rowcount (restartable taskId) store.tasks = 1) :
    ∃ refreshed, (restartTask taskId now store).task? taskId = some refreshed := by
  obtain ⟨tasks, task, laterTasks, -, hrestartable, hupdate⟩ :=
    updateWhere_of_rowcount_one (restarted now) h
  unfold Store.task? restartTask
  rw [hupdate, ← Option.isSome_iff_exists, List.find?_isSome]
  exact ⟨restarted now task, by simp, decide_eq_true hrestartable.1⟩

section Committed

variable {callId : ℕ} {store : Store} {refreshed : Task} {error : RetryError} {session : Session}

theorem reopenAndRestart_error
    (h : reopenAndRestart others taskId now callId (.begin store) = (.error error, session)) :
    session.database = store ∨ session.database = others.restartStore store := by
  unfold reopenAndRestart at h
  dsimp only at h
  split_ifs at h with hcalls hrejects htasks
  · cases h
    exact Or.inl rfl
  · cases h
    exact Or.inr rfl
  · cases h
    exact Or.inr rfl
  · -- the row just updated is found again
    push Not at htasks
    obtain ⟨found, hfound⟩ := exists_task?_restartTask now htasks
    split at h
    · cases h
    · rename_i hnone
      cases hnone.symm.trans hfound

theorem reopenAndRestart_ok
    (h : reopenAndRestart others taskId now callId (.begin store) = (.ok refreshed, session)) :
    ∃ call, call.id = callId ∧ (∀ other ∈ store.apiCalls, reopenable callId other → other = call) ∧
      Retried taskId now call (others.restartStore store) session.database := by
  unfold reopenAndRestart at h
  dsimp only at h
  split_ifs at h with hcalls hrejects htasks
  · cases h
  · cases h
  · cases h
  · push Not at hcalls htasks
    obtain ⟨calls, call, laterCalls, hcallsSplit, hreopenable, hreopened⟩ :=
      updateWhere_of_rowcount_one reopened hcalls
    obtain ⟨tasks, task, laterTasks, htasksSplit, hrestartable, hrestarted⟩ :=
      updateWhere_of_rowcount_one (restarted now) htasks
    have hdatabase : session.database =
        restartTask taskId now (others.restartStore (reopenCall callId store)) := by
      split at h <;> cases h
      rfl
    have hcall : call ∈ store.apiCalls := by
      rw [show store.apiCalls = _ from hcallsSplit]
      exact List.mem_append_right _ List.mem_cons_self
    refine ⟨call, hreopenable.1, fun other hother hother' =>
      eq_of_rowcount_one hcalls hother hcall hother' hreopenable, ?_⟩
    refine ⟨calls, laterCalls, tasks, task, laterTasks, hcallsSplit, ⟨rfl, hreopenable.2⟩,
      htasksSplit, hrestartable, fun htaken => hrejects ⟨task, ?_, hrestartable, htaken⟩, ?_⟩
    · rw [htasksSplit]
      exact List.mem_append_right _ List.mem_cons_self
    · rw [hdatabase, ← hreopened, ← hrestarted]
      rfl

end Committed

variable (texts others taskId now) in
theorem retryInSession_cases (database : Store) :
    (∃ error, retryInSession texts others taskId now (.begin database) =
      (.error error, .begin database)) ∨
    (∃ error, retryInSession texts others taskId now (.begin database) =
      (.error error, .begin (others.beforeCall database))) ∨
    ∃ newest, IsNewest taskId (others.beforeCall database).apiCalls newest ∧
      retryInSession texts others taskId now (.begin database) =
        reopenAndRestart others taskId now newest.id
          (.begin (others.beforeReopen (others.beforeCall database))) := by
  unfold retryInSession
  split
  · exact Or.inl ⟨_, rfl⟩
  · split_ifs with heligible
    · dsimp only
      split
      · exact Or.inr (Or.inl ⟨_, rfl⟩)
      · rename_i call hcall
        exact Or.inr (Or.inr ⟨call, isNewest_of_newestSettleableCall hcall, rfl⟩)
    · exact Or.inl ⟨_, rfl⟩

theorem retryArtifactDownload_error {database after : Store} {error : RetryError}
    (h : retryArtifactDownload texts others taskId now database = (.error error, after)) :
    after ∈ others.stages database := by
  unfold retryArtifactDownload at h
  rcases retryInSession_cases texts others taskId now database with
    ⟨_, hretry⟩ | ⟨_, hretry⟩ | ⟨newest, -, hretry⟩
  · rw [hretry] at h
    cases h
    exact List.mem_cons_self
  · rw [hretry] at h
    cases h
    exact List.mem_cons_of_mem _ List.mem_cons_self
  · rw [hretry] at h
    rcases hsession : reopenAndRestart others taskId now newest.id
      (.begin (others.beforeReopen (others.beforeCall database))) with ⟨result, session⟩
    rw [hsession] at h
    cases h
    rcases reopenAndRestart_error hsession with hafter | hafter <;>
      simp [Others.stages, hafter]

theorem retryArtifactDownload_ok {database after : Store} {refreshed : Task}
    (h : retryArtifactDownload texts others taskId now database = (.ok refreshed, after)) :
    ∃ newest call, IsNewest taskId (others.beforeCall database).apiCalls newest ∧
      call.id = newest.id ∧
      (newest ∈ (others.beforeReopen (others.beforeCall database)).apiCalls → newest = call) ∧
      Retried taskId now call
        (others.restartStore (others.beforeReopen (others.beforeCall database))) after := by
  unfold retryArtifactDownload at h
  rcases retryInSession_cases texts others taskId now database with
    ⟨_, hretry⟩ | ⟨_, hretry⟩ | ⟨newest, hnewest, hretry⟩
  · rw [hretry] at h
    cases h
  · rw [hretry] at h
    cases h
  · rw [hretry] at h
    rcases hsession : reopenAndRestart others taskId now newest.id
      (.begin (others.beforeReopen (others.beforeCall database))) with ⟨result, session⟩
    rw [hsession] at h
    cases h
    obtain ⟨call, hid, honly, hretried⟩ := reopenAndRestart_ok hsession
    exact ⟨newest, call, hnewest, hid,
      fun hmem => honly newest hmem ⟨rfl, hnewest.2.1.2⟩, hretried⟩

end Outcome

/-- A retry reopens the newest call that can be settled and restarts its task, or it leaves both
tables as the other sessions have made them. -/
theorem retry_all_or_nothing (texts : FailureTexts) (others : Others) (taskId : String) (now : Time)
    (database : Store) :
    (match retryArtifactDownload texts others taskId now database with
    | (.ok _, after) =>
        ∃ newest call, IsNewest taskId (others.beforeCall database).apiCalls newest ∧
          call.id = newest.id ∧
          Retried taskId now call
            (others.restartStore (others.beforeReopen (others.beforeCall database))) after
    | (.error _, after) => after ∈ others.stages database) ∧
    match retryArtifactDownload texts {} taskId now database with
    | (.ok _, after) =>
        ∃ newest, IsNewest taskId database.apiCalls newest ∧
          Retried taskId now newest database after
    | (.error _, after) => after = database := by
  constructor
  · rcases hretry : retryArtifactDownload texts others taskId now database with ⟨_ | _, after⟩
    · exact retryArtifactDownload_error hretry
    · obtain ⟨newest, call, hnewest, hid, -, hretried⟩ := retryArtifactDownload_ok hretry
      exact ⟨newest, call, hnewest, hid, hretried⟩
  · rcases hretry : retryArtifactDownload texts {} taskId now database with ⟨_ | _, after⟩
    · simpa [Others.stages, Others.restartStore] using retryArtifactDownload_error hretry
    · obtain ⟨newest, call, hnewest, -, heq, hretried⟩ := retryArtifactDownload_ok hretry
      obtain rfl := heq hnewest.1
      exact ⟨newest, hnewest, hretried⟩

end ShortReel.ArtifactDownloads
