import ShortReel.TransitionSystem
import ShortReel.SlotTable

/-!
# The capacity of a bucket

The worker of `generation_worker.py` and the dispatcher of `restart_recovery.py` over one slot
table. A claimed task takes a slot when its bucket has room. A dispatch puts all its tasks into the
bucket as pending and lets as many of them run as its own semaphore allows.
-/

namespace ShortReel.SlotCapacity

def videoMedia : String := "video"

/-- `_run_one` of one task. -/
structure SubTask where
  taskId : String
  future : ℕ
  deriving DecidableEq, Repr

/-- A `dispatch_provider_bucket` under way: the value of its semaphore, the sub-tasks that wait for
it and those that have acquired it. -/
structure Dispatch where
  provider : String
  permits : ℕ
  waiting : List SubTask
  running : List SubTask := []
  deriving DecidableEq, Repr

structure Worker where
  slots : SlotTable := {}
  /-- The next future `create_task` makes. -/
  nextFuture : ℕ := 0
  /-- The futures of the claimed tasks that still execute. -/
  underWay : List ℕ := []
  done : List ℕ := []
  /-- The buckets for which `dispatch_resumable` has made a task that has not begun. -/
  spawned : List (String × List String) := []
  dispatches : List Dispatch := []
  stopped : Bool := false

inductive ClaimOutcome where
  | failed (code : String) (params : List (String × String))
  | requeued
  | dispatched (future : ℕ)
  deriving DecidableEq, Repr

inductive DispatchOutcome where
  | failed (code : String) (params : List (String × String)) (callFailure : String)
  | dispatched
  deriving DecidableEq, Repr

inductive WorkerCommand where
  | claim (taskId provider media : String)
  | complete (future : ℕ)
  | drainFinished
  | dispatchResumable (resumableByProvider : List (String × List String))
  | dispatchProviderBucket (provider : String) (tasks : List String)
  | acquire (dispatch : ℕ) (subTask : SubTask)
  | finish (dispatch : ℕ) (subTask : SubTask)
  | interrupt (dispatch : ℕ) (subTask : SubTask)
  | stop
  | waitInflightCompletion

variable (capacity : CapacityTable)

section Worker

variable (worker : Worker)

/-- What `_claim_tasks` does with one task of the queue, whose provider the projection gives. -/
def claimTask (taskId provider media : String) : ClaimOutcome × Worker :=
  let cap := capacity.get provider media
  if cap = 0 then
    (.failed "provider_unsupported_media" [("provider_id", provider), ("media_type", media)],
      worker)
  else if ¬ worker.slots.hasRoom provider media cap then (.requeued, worker)
  else
    (.dispatched worker.nextFuture,
      { worker with
        slots := worker.slots.register provider media taskId worker.nextFuture false
        nextFuture := worker.nextFuture + 1
        underWay := worker.nextFuture :: worker.underWay })

/-- A claimed task is done; its slot stays until it is drained. -/
def complete (future : ℕ) : Worker :=
  if future ∈ worker.underWay then
    { worker with underWay := worker.underWay.erase future, done := future :: worker.done }
  else worker

/-- `dispatch_resumable`: a task for each provider. -/
def dispatchResumable (resumableByProvider : List (String × List String)) : Worker :=
  if worker.stopped then worker
  else { worker with spawned := worker.spawned ++ resumableByProvider }

/-- `create_task` and `register`, for one task of a dispatch. -/
def registerPending (provider : String) (sub : List SubTask × Worker) (taskId : String) :
    List SubTask × Worker :=
  let (subTasks, worker) := sub
  (subTasks ++ [⟨taskId, worker.nextFuture⟩],
    { worker with
      slots := worker.slots.register provider videoMedia taskId worker.nextFuture true
      nextFuture := worker.nextFuture + 1 })

/-- `dispatch_provider_bucket`, up to where it waits for its sub-tasks. Without capacity all its
tasks fail, and nothing is dispatched once the worker stops. -/
def dispatchProviderBucket (provider : String) (tasks : List String) : DispatchOutcome × Worker :=
  let cap := capacity.get provider videoMedia
  if cap = 0 then
    (.failed "resume_unsupported_capacity_zero" [("provider_id", provider)]
      ("resume unsupported: provider " ++ provider ++ " has no video capacity"), worker)
  else if worker.stopped then (.dispatched, worker)
  else
    let (waiting, worker) := tasks.foldl (registerPending provider) ([], worker)
    (.dispatched,
      { worker with dispatches := worker.dispatches ++ [{ provider, permits := cap, waiting }] })

def endSubTask (index : ℕ) (dispatch : Dispatch) (subTask : SubTask) : Worker :=
  { worker with
    slots := worker.slots.release dispatch.provider videoMedia subTask.taskId
    dispatches := worker.dispatches.set index dispatch
    done := subTask.future :: worker.done }

/-- A waiting sub-task gets the semaphore. It gives it back at once if the worker stops. -/
def acquire (index : ℕ) (subTask : SubTask) : Worker :=
  match worker.dispatches[index]? with
  | none => worker
  | some dispatch =>
      let waiting := dispatch.waiting.erase subTask
      if subTask ∉ dispatch.waiting ∨ dispatch.permits = 0 then worker
      else if worker.stopped then endSubTask worker index { dispatch with waiting } subTask
      else
        { worker with
          slots := worker.slots.promote dispatch.provider videoMedia subTask.taskId
          dispatches := worker.dispatches.set index
            { dispatch with
              permits := dispatch.permits - 1
              waiting
              running := dispatch.running ++ [subTask] } }

def finish (index : ℕ) (subTask : SubTask) : Worker :=
  match worker.dispatches[index]? with
  | none => worker
  | some dispatch =>
      if subTask ∉ dispatch.running then worker
      else
        endSubTask worker index
          { dispatch with
            permits := dispatch.permits + 1
            running := dispatch.running.erase subTask } subTask

def interrupt (index : ℕ) (subTask : SubTask) : Worker :=
  match worker.dispatches[index]? with
  | none => worker
  | some dispatch =>
      if subTask ∉ dispatch.waiting then worker
      else
        endSubTask worker index { dispatch with waiting := dispatch.waiting.erase subTask } subTask

/-- The end of `_wait_inflight_completion`, when all futures in the table are done. -/
def waitInflightCompletion : Worker :=
  if worker.stopped ∧ ∀ future ∈ worker.slots.allActiveTasks, future ∈ worker.done then
    { worker with slots := {} }
  else worker

end Worker

def run (worker : Worker) : WorkerCommand → Worker
  | .claim taskId provider media => (claimTask capacity worker taskId provider media).2
  | .complete future => complete worker future
  | .drainFinished => { worker with slots := (worker.slots.drainFinished (· ∈ worker.done)).2 }
  | .dispatchResumable resumableByProvider => dispatchResumable worker resumableByProvider
  | .dispatchProviderBucket provider tasks =>
      if (provider, tasks) ∈ worker.spawned then
        (dispatchProviderBucket capacity
          { worker with spawned := worker.spawned.erase (provider, tasks) } provider tasks).2
      else worker
  | .acquire index subTask => acquire worker index subTask
  | .finish index subTask => finish worker index subTask
  | .interrupt index subTask => interrupt worker index subTask
  | .stop => { worker with stopped := true }
  | .waitInflightCompletion => waitInflightCompletion worker

def pool : TransitionSystem Worker WorkerCommand :=
  .ofRun (· = {}) (run capacity)

/-- `retry_artifact_download`: a dispatch of one task. -/
def retryArtifactDownload (taskId provider : String) : WorkerCommand :=
  .dispatchResumable [(provider, [taskId])]

/-- A dispatch that puts tasks into the bucket finds room for all of them, or the bucket empty and
none of them waiting in another dispatch. -/
def FindsRoom (worker : Worker) : WorkerCommand → Prop
  | .dispatchProviderBucket provider tasks =>
      capacity.get provider videoMedia = 0 ∨ worker.stopped ∨ tasks = [] ∨
        worker.slots.occupied provider videoMedia + tasks.length ≤
          capacity.get provider videoMedia ∨
        worker.slots.occupied provider videoMedia = 0 ∧
          ∀ dispatch ∈ worker.dispatches, dispatch.provider = provider →
            ∀ subTask ∈ dispatch.waiting, subTask.taskId ∉ tasks
  | _ => True

/-- A dispatch has a bucket for itself: only its running sub-tasks execute there, and no sub-task
that waits in another dispatch could. -/
structure Alone (worker : Worker) (provider : String) (index : ℕ) (dispatch : Dispatch) :
    Prop where
  found : worker.dispatches[index]? = some dispatch
  serves : dispatch.provider = provider
  runs : ∀ id ∈ (worker.slots.bucket provider videoMedia).executing,
    ∃ subTask ∈ dispatch.running, subTask.taskId = id
  others : ∀ other found, worker.dispatches[other]? = some found → other ≠ index →
    found.provider = provider →
      ∀ subTask ∈ found.waiting, subTask.taskId ∉ (worker.slots.bucket provider videoMedia).keys

/-- A bucket that holds more than its capacity belongs to one dispatch. -/
def Bounded (worker : Worker) : Prop :=
  ∀ provider media, capacity.get provider media < worker.slots.occupied provider media →
    media = videoMedia ∧ ∃ index dispatch, Alone worker provider index dispatch

def Semaphores (worker : Worker) : Prop :=
  ∀ dispatch ∈ worker.dispatches,
    dispatch.permits + dispatch.running.length = capacity.get dispatch.provider videoMedia

variable {capacity} {worker later : Worker}

theorem executing_le (hbounded : Bounded capacity worker) (hsemaphores : Semaphores capacity worker)
    (provider media : String) :
    (worker.slots.bucket provider media).executing.length ≤ capacity.get provider media := by
  by_cases hover : capacity.get provider media < worker.slots.occupied provider media
  · obtain ⟨rfl, index, dispatch, halone⟩ := hbounded provider media hover
    have hsubset : (worker.slots.bucket provider videoMedia).executing ⊆
        dispatch.running.map (·.taskId) := by
      intro id hid
      exact List.mem_map.mpr (halone.runs id hid)
    have hlength := (List.subperm_of_subset (Bucket.executing_nodup _) hsubset).length_le
    have hcount := hsemaphores dispatch (List.mem_of_getElem? halone.found)
    rw [halone.serves] at hcount
    rw [List.length_map] at hlength
    omega
  · have hlength := (worker.slots.bucket provider media).executing_length_le
    unfold SlotTable.occupied at hover
    omega

theorem Alone.leftOf {provider : String} {index : ℕ} {dispatch : Dispatch}
    (halone : Alone worker provider index dispatch)
    (hdispatches : later.dispatches = worker.dispatches)
    (hleft : (later.slots.bucket provider videoMedia).LeftOf
      (worker.slots.bucket provider videoMedia)) : Alone later provider index dispatch where
  found := hdispatches ▸ halone.found
  serves := halone.serves
  runs id hid := halone.runs id (hleft.executing hid)
  others other found hfound hother hprovider subTask hsub hkey :=
    halone.others other found (hdispatches ▸ hfound) hother hprovider subTask hsub (hleft.keys hkey)

theorem Alone.set {provider : String} {index moved : ℕ} {dispatch old new : Dispatch}
    (halone : Alone worker provider index dispatch) (hold : worker.dispatches[moved]? = some old)
    (hdispatches : later.dispatches = worker.dispatches.set moved new)
    (hprovider : new.provider = old.provider) (hwaiting : new.waiting ⊆ old.waiting)
    (hkeys : (later.slots.bucket provider videoMedia).keys ⊆
      (worker.slots.bucket provider videoMedia).keys)
    (hself : moved = index → old = dispatch →
      ∀ id ∈ (later.slots.bucket provider videoMedia).executing,
        ∃ subTask ∈ new.running, subTask.taskId = id)
    (hother : moved ≠ index → (later.slots.bucket provider videoMedia).executing ⊆
      (worker.slots.bucket provider videoMedia).executing) :
    ∃ dispatch, Alone later provider index dispatch := by
  have hlookup : ∀ other, later.dispatches[other]? =
      if moved = other then some new else worker.dispatches[other]? := by
    intro other
    have hlength : moved < worker.dispatches.length := (List.getElem?_eq_some_iff.mp hold).1
    rw [hdispatches, List.getElem?_set, if_pos hlength]
  have hothers : ∀ other found, later.dispatches[other]? = some found → other ≠ index →
      found.provider = provider → ∀ subTask ∈ found.waiting,
        subTask.taskId ∉ (later.slots.bucket provider videoMedia).keys := by
    intro other found hfound hne hfrom subTask hsub hkey
    rw [hlookup] at hfound
    split_ifs at hfound with heq
    · obtain rfl := Option.some_inj.mp hfound
      subst heq
      exact halone.others moved old hold hne (hprovider ▸ hfrom) subTask (hwaiting hsub) (hkeys hkey)
    · exact halone.others other found hfound hne hfrom subTask hsub (hkeys hkey)
  by_cases heq : moved = index
  · have hsame : old = dispatch := by
      rw [heq, halone.found] at hold
      exact (Option.some_inj.mp hold).symm
    refine ⟨new, ?_, ?_, hself heq hsame, hothers⟩
    · rw [hlookup, if_pos heq]
    · rw [hprovider, hsame, halone.serves]
  · refine ⟨dispatch, ?_, halone.serves, ?_, hothers⟩
    · rw [hlookup, if_neg heq, halone.found]
    · exact fun id hid => halone.runs id (hother heq hid)

theorem found_append {dispatches : List Dispatch} {new found : Dispatch} {other : ℕ}
    (h : (dispatches ++ [new])[other]? = some found) :
    dispatches[other]? = some found ∨ other = dispatches.length ∧ found = new := by
  rcases lt_or_ge other dispatches.length with hlt | hge
  · exact Or.inl (List.getElem?_append_left hlt ▸ h)
  · rw [List.getElem?_append_right hge] at h
    obtain ⟨hzero, hnew⟩ := List.getElem?_eq_some_iff.mp h
    rw [List.length_singleton] at hzero
    refine Or.inr ⟨by omega, ?_⟩
    rw [← hnew, List.getElem_singleton]

theorem Alone.append {provider : String} {index : ℕ} {dispatch new : Dispatch}
    (halone : Alone worker provider index dispatch)
    (hdispatches : later.dispatches = worker.dispatches ++ [new])
    (hleft : (later.slots.bucket provider videoMedia).LeftOf
      (worker.slots.bucket provider videoMedia))
    (hnew : new.provider = provider → new.waiting = []) :
    Alone later provider index dispatch where
  found := by
    have hlength := (List.getElem?_eq_some_iff.mp halone.found).1
    rw [hdispatches, List.getElem?_append_left hlength, halone.found]
  serves := halone.serves
  runs id hid := halone.runs id (hleft.executing hid)
  others other found hfound hother hprovider subTask hsub hkey := by
    rw [hdispatches] at hfound
    rcases found_append hfound with hfound | ⟨-, rfl⟩
    · exact halone.others other found hfound hother hprovider subTask hsub (hleft.keys hkey)
    · rw [hnew hprovider] at hsub
      cases hsub

theorem Bounded.keep (hbounded : Bounded capacity worker)
    (hkept : ∀ provider media, capacity.get provider media < later.slots.occupied provider media →
      capacity.get provider media < worker.slots.occupied provider media ∧
        (media = videoMedia → ∀ index dispatch, Alone worker provider index dispatch →
          ∃ index dispatch, Alone later provider index dispatch)) :
    Bounded capacity later := by
  intro provider media hover
  obtain ⟨hbefore, halone⟩ := hkept provider media hover
  obtain ⟨hmedia, index, dispatch, h⟩ := hbounded provider media hbefore
  exact ⟨hmedia, halone hmedia index dispatch h⟩

theorem Bounded.leftOf (hbounded : Bounded capacity worker)
    (hdispatches : later.dispatches = worker.dispatches)
    (hleft : ∀ provider media, (later.slots.bucket provider media).LeftOf
      (worker.slots.bucket provider media)) : Bounded capacity later := by
  refine hbounded.keep fun provider media hover => ⟨?_, ?_⟩
  · exact lt_of_lt_of_le hover (hleft provider media).length_le
  · exact fun _ index dispatch halone =>
      ⟨index, dispatch, halone.leftOf hdispatches (hleft provider videoMedia)⟩

theorem Bounded.keep_bucket (hbounded : Bounded capacity worker) (provider media : String)
    (hfits : later.slots.occupied provider media ≤ capacity.get provider media)
    (hdispatches : later.dispatches = worker.dispatches)
    (hsame : ∀ provider' media', ¬ (provider' = provider ∧ media' = media) →
      later.slots.bucket provider' media' = worker.slots.bucket provider' media') :
    Bounded capacity later := by
  refine hbounded.keep fun provider' media' hover => ?_
  have hne : ¬ (provider' = provider ∧ media' = media) := by
    rintro ⟨rfl, rfl⟩
    omega
  unfold SlotTable.occupied at hover ⊢
  rw [hsame provider' media' hne] at hover
  refine ⟨hover, ?_⟩
  rintro rfl index dispatch halone
  refine ⟨index, dispatch, halone.leftOf hdispatches ?_⟩
  rw [hsame provider' videoMedia hne]
  exact .refl _

theorem bounded_claimTask (hbounded : Bounded capacity worker) (taskId provider media : String) :
    Bounded capacity (claimTask capacity worker taskId provider media).2 := by
  unfold claimTask
  dsimp only
  split
  · exact hbounded
  · split
    · exact hbounded
    · rename_i hfull
      have hhas := of_not_not hfull
      unfold SlotTable.hasRoom at hhas
      have hroom := (of_decide_eq_true hhas).2
      refine hbounded.keep_bucket provider media ?_ rfl ?_
      · exact le_trans SlotTable.occupied_register_le hroom
      · exact fun _ _ hne => SlotTable.bucket_register_of_ne hne

structure Registered (provider : String) (tasks : List String) (worker later : Worker) : Prop where
  dispatches : later.dispatches = worker.dispatches
  other : ∀ provider' media', ¬ (provider' = provider ∧ media' = videoMedia) →
    later.slots.bucket provider' media' = worker.slots.bucket provider' media'
  keys : (later.slots.bucket provider videoMedia).keys ⊆
    tasks ++ (worker.slots.bucket provider videoMedia).keys
  executing : (later.slots.bucket provider videoMedia).executing ⊆
    (worker.slots.bucket provider videoMedia).executing
  occupied : later.slots.occupied provider videoMedia ≤
    worker.slots.occupied provider videoMedia + tasks.length

theorem registered_foldl (provider : String) (tasks : List String) (sub : List SubTask × Worker) :
    Registered provider tasks sub.2 (tasks.foldl (registerPending provider) sub).2 := by
  induction tasks generalizing sub with
  | nil => exact ⟨rfl, fun _ _ _ => rfl, List.Subset.refl _, List.Subset.refl _, le_rfl⟩
  | cons taskId rest ih =>
      obtain ⟨subTasks, worker⟩ := sub
      have hrest := ih (registerPending provider (subTasks, worker) taskId)
      refine ⟨hrest.dispatches, ?_, ?_, ?_, ?_⟩
      · exact fun provider' media' hne =>
          (hrest.other provider' media' hne).trans (SlotTable.bucket_register_of_ne hne)
      · intro id hid
        rcases List.mem_append.mp (hrest.keys hid) with hrest | hid
        · exact List.mem_append_left _ (List.mem_cons_of_mem _ hrest)
        · rcases List.mem_cons.mp (SlotTable.keys_register hid) with rfl | hid
          · exact List.mem_append_left _ List.mem_cons_self
          · exact List.mem_append_right _ hid
      · exact fun id hid => SlotTable.executing_register_pending (hrest.executing hid)
      · have hadded : (worker.slots.register provider videoMedia taskId worker.nextFuture
            true).occupied provider videoMedia ≤ worker.slots.occupied provider videoMedia + 1 :=
          SlotTable.occupied_register_le
        have hlength := hrest.occupied
        simp only [registerPending, List.foldl_cons, List.length_cons] at hlength ⊢
        omega

theorem Registered.alone {provider : String} {tasks : List String} {waiting : List SubTask}
    (hregistered : Registered provider tasks worker later)
    (hempty : worker.slots.occupied provider videoMedia = 0)
    (hwaits : ∀ dispatch ∈ worker.dispatches, dispatch.provider = provider →
      ∀ subTask ∈ dispatch.waiting, subTask.taskId ∉ tasks) (permits : ℕ) :
    Alone { later with dispatches := later.dispatches ++ [{ provider, permits, waiting }] } provider
      later.dispatches.length { provider, permits, waiting } where
  found := List.getElem?_concat_length
  serves := rfl
  runs id hid := by
    have hlength := (worker.slots.bucket provider videoMedia).executing_length_le
    unfold SlotTable.occupied at hempty
    have hnil := List.eq_nil_of_length_eq_zero (Nat.le_zero.mp (hempty ▸ hlength))
    have hbefore := hregistered.executing hid
    rw [hnil] at hbefore
    cases hbefore
  others other found hfound hother hprovider subTask hsub hkey := by
    rcases found_append hfound with hfound | ⟨hindex, -⟩
    · rw [hregistered.dispatches] at hfound
      rcases List.mem_append.mp (hregistered.keys hkey) with htask | hold
      · exact hwaits found (List.mem_of_getElem? hfound) hprovider subTask hsub htask
      · rw [List.eq_nil_of_length_eq_zero hempty] at hold
        cases hold
    · exact hother hindex

theorem bounded_dispatchProviderBucket (hbounded : Bounded capacity worker) {provider : String}
    {tasks : List String}
    (hroom : FindsRoom capacity worker (.dispatchProviderBucket provider tasks)) :
    Bounded capacity (dispatchProviderBucket capacity worker provider tasks).2 := by
  unfold dispatchProviderBucket
  dsimp only
  split
  · exact hbounded
  rename_i hcap
  split
  · exact hbounded
  rename_i hstopped
  have hregistered := registered_foldl provider tasks ([], worker)
  have hnone : tasks = [] → (tasks.foldl (registerPending provider) ([], worker)).1 = [] := by
    rintro rfl
    rfl
  generalize tasks.foldl (registerPending provider) ([], worker) = sub at hregistered hnone
  obtain ⟨waiting, later⟩ := sub
  dsimp only at hregistered hnone ⊢
  intro provider' media hover
  by_cases hkey : provider' = provider ∧ media = videoMedia
  · obtain ⟨rfl, rfl⟩ := hkey
    refine ⟨rfl, ?_⟩
    rcases hroom with hzero | hstop | hnil | hfits | ⟨hempty, hwaits⟩
    · exact absurd hzero hcap
    · exact absurd hstop hstopped
    · have hoccupied := hregistered.occupied
      subst hnil
      obtain ⟨-, index, dispatch, halone⟩ := hbounded provider' videoMedia (by
        exact lt_of_lt_of_le hover hoccupied)
      exact ⟨index, dispatch, halone.append (by rw [hregistered.dispatches])
        ⟨hregistered.keys, hregistered.executing⟩ fun _ => hnone rfl⟩
    · exact absurd (lt_of_lt_of_le hover (le_trans hregistered.occupied hfits)) (lt_irrefl _)
    · exact ⟨_, _, hregistered.alone hempty hwaits _⟩
  · have hsame := hregistered.other provider' media hkey
    unfold SlotTable.occupied at hover
    dsimp only at hover
    rw [hsame] at hover
    obtain ⟨rfl, index, dispatch, halone⟩ := hbounded provider' media hover
    refine ⟨rfl, index, dispatch, halone.append (by rw [hregistered.dispatches]) ?_ ?_⟩
    · dsimp only
      rw [hsame]
      exact .refl _
    · exact fun heq => absurd ⟨heq.symm, rfl⟩ hkey

theorem bounded_endSubTask (hbounded : Bounded capacity worker) {index : ℕ} {old new : Dispatch}
    {subTask : SubTask} (hold : worker.dispatches[index]? = some old)
    (hprovider : new.provider = old.provider) (hwaiting : new.waiting ⊆ old.waiting)
    (hrunning : ∀ other ∈ old.running, other.taskId ≠ subTask.taskId → other ∈ new.running) :
    Bounded capacity (endSubTask worker index new subTask) := by
  have hleft : ∀ provider media,
      ((endSubTask worker index new subTask).slots.bucket provider media).LeftOf
        (worker.slots.bucket provider media) := fun _ _ => SlotTable.leftOf_release
  refine hbounded.keep fun provider media hover => ?_
  refine ⟨lt_of_lt_of_le hover (hleft provider media).length_le, ?_⟩
  rintro rfl at_ dispatch halone
  refine ⟨at_, halone.set hold rfl hprovider hwaiting (hleft provider videoMedia).keys ?_
    fun _ => (hleft provider videoMedia).executing⟩
  rintro - rfl id hid
  obtain ⟨other, hother, rfl⟩ := halone.runs id ((hleft provider videoMedia).executing hid)
  refine ⟨other, hrunning other hother ?_, rfl⟩
  intro heq
  obtain ⟨occupant, hlookup, -⟩ := Bucket.mem_executing.mp hid
  unfold endSubTask at hlookup
  rw [SlotTable.bucket_release, if_pos ⟨by rw [hprovider, halone.serves], rfl⟩, heq,
    AList.lookup_erase] at hlookup
  cases hlookup

theorem bounded_finish (hbounded : Bounded capacity worker) (index : ℕ) (subTask : SubTask) :
    Bounded capacity (finish worker index subTask) := by
  unfold finish
  split
  · exact hbounded
  · rename_i dispatch hfound
    split
    · exact hbounded
    · refine bounded_endSubTask hbounded hfound rfl (List.Subset.refl _) ?_
      intro other hother hne
      exact (List.mem_erase_of_ne fun heq => hne (congrArg SubTask.taskId heq)).mpr hother

theorem bounded_interrupt (hbounded : Bounded capacity worker) (index : ℕ) (subTask : SubTask) :
    Bounded capacity (interrupt worker index subTask) := by
  unfold interrupt
  split
  · exact hbounded
  · rename_i dispatch hfound
    split
    · exact hbounded
    · exact bounded_endSubTask hbounded hfound rfl List.erase_subset fun _ hother _ => hother

theorem bounded_acquire (hbounded : Bounded capacity worker) (index : ℕ) (subTask : SubTask) :
    Bounded capacity (acquire worker index subTask) := by
  unfold acquire
  split
  · exact hbounded
  rename_i dispatch hfound
  dsimp only
  split
  · exact hbounded
  rename_i hready
  have hwaits : subTask ∈ dispatch.waiting := by
    by_contra hnot
    exact hready (Or.inl hnot)
  split
  · exact bounded_endSubTask hbounded hfound rfl List.erase_subset fun _ hother _ => hother
  refine hbounded.keep fun provider media hover => ?_
  refine ⟨lt_of_lt_of_le hover
    (List.subperm_of_subset (AList.keys_nodup _) SlotTable.keys_promote).length_le, ?_⟩
  rintro rfl at_ found halone
  refine ⟨at_, halone.set hfound rfl rfl List.erase_subset SlotTable.keys_promote ?_ ?_⟩
  · rintro - rfl id hid
    obtain rfl := halone.serves
    rcases List.mem_cons.mp (SlotTable.executing_promote hid) with rfl | hbefore
    · exact ⟨subTask, List.mem_append_right _ List.mem_cons_self, rfl⟩
    · obtain ⟨other, hmem, hid⟩ := halone.runs id hbefore
      exact ⟨other, List.mem_append_left _ hmem, hid⟩
  · -- promoting a task that is not there does nothing, and it is not: the bucket is another's
    intro hne
    dsimp only
    by_cases hsame : provider = dispatch.provider
    · have hgone := halone.others index dispatch hfound hne hsame.symm subTask hwaits
      rw [hsame] at hgone ⊢
      rw [SlotTable.promote_of_notMem fun hmem => hgone (AList.mem_keys.mp hmem)]
      exact List.Subset.refl _
    · rw [SlotTable.bucket_promote_of_ne fun h => hsame h.1]
      exact List.Subset.refl _

theorem bounded_run (hbounded : Bounded capacity worker) {command : WorkerCommand}
    (hroom : FindsRoom capacity worker command) : Bounded capacity (run capacity worker command) := by
  cases command with
  | claim taskId provider media => exact bounded_claimTask hbounded taskId provider media
  | complete future =>
      simp only [run, complete]
      split
      · exact hbounded.leftOf rfl fun _ _ => .refl _
      · exact hbounded
  | drainFinished => exact hbounded.leftOf rfl fun _ _ => SlotTable.leftOf_drainFinished _
  | dispatchResumable resumableByProvider =>
      simp only [run, dispatchResumable]
      split
      · exact hbounded
      · exact hbounded.leftOf rfl fun _ _ => .refl _
  | dispatchProviderBucket provider tasks =>
      simp only [run]
      split
      · refine bounded_dispatchProviderBucket ?_ hroom
        exact hbounded.leftOf rfl fun _ _ => .refl _
      · exact hbounded
  | acquire index subTask => exact bounded_acquire hbounded index subTask
  | finish index subTask => exact bounded_finish hbounded index subTask
  | interrupt index subTask => exact bounded_interrupt hbounded index subTask
  | stop => exact hbounded.leftOf rfl fun _ _ => .refl _
  | waitInflightCompletion =>
      simp only [run, waitInflightCompletion]
      split
      · exact hbounded.leftOf rfl fun _ _ => Bucket.leftOf_empty _
      · exact hbounded

theorem Semaphores.set (hsemaphores : Semaphores capacity worker) {index : ℕ} {old new : Dispatch}
    (hold : worker.dispatches[index]? = some old)
    (hdispatches : later.dispatches = worker.dispatches.set index new)
    (hprovider : new.provider = old.provider)
    (hcount : new.permits + new.running.length = old.permits + old.running.length) :
    Semaphores capacity later := by
  intro dispatch hdispatch
  rw [hdispatches] at hdispatch
  rcases List.mem_or_eq_of_mem_set hdispatch with hmem | rfl
  · exact hsemaphores dispatch hmem
  · rw [hcount, hprovider]
    exact hsemaphores old (List.mem_of_getElem? hold)

theorem semaphores_run (hsemaphores : Semaphores capacity worker) (command : WorkerCommand) :
    Semaphores capacity (run capacity worker command) := by
  cases command with
  | claim taskId provider media =>
      simp only [run, claimTask]
      split
      · exact hsemaphores
      · split <;> exact hsemaphores
  | complete future =>
      simp only [run, complete]
      split <;> exact hsemaphores
  | drainFinished => exact hsemaphores
  | dispatchResumable resumableByProvider =>
      simp only [run, dispatchResumable]
      split <;> exact hsemaphores
  | dispatchProviderBucket provider tasks =>
      simp only [run]
      split
      · unfold dispatchProviderBucket
        dsimp only
        split
        · exact hsemaphores
        · split
          · exact hsemaphores
          · intro dispatch hdispatch
            dsimp only at hdispatch
            rw [(registered_foldl provider tasks _).dispatches] at hdispatch
            rcases List.mem_append.mp hdispatch with hmem | hlast
            · exact hsemaphores dispatch hmem
            · rw [List.mem_singleton.mp hlast]
              rfl
      · exact hsemaphores
  | acquire index subTask =>
      simp only [run, acquire]
      split
      · exact hsemaphores
      · rename_i dispatch hfound
        split
        · exact hsemaphores
        · rename_i hready
          split
          · exact hsemaphores.set hfound rfl rfl rfl
          · refine hsemaphores.set hfound rfl rfl ?_
            rw [List.length_append, List.length_singleton]
            dsimp only
            omega
  | finish index subTask =>
      simp only [run, finish]
      split
      · exact hsemaphores
      · rename_i dispatch hfound
        split
        · exact hsemaphores
        · rename_i hrunning
          refine hsemaphores.set hfound rfl rfl ?_
          have hmem := of_not_not hrunning
          have hlength := List.length_erase_of_mem hmem
          have hpos := List.length_pos_of_mem hmem
          dsimp only
          omega
  | interrupt index subTask =>
      simp only [run, interrupt]
      split
      · exact hsemaphores
      · rename_i dispatch hfound
        split
        · exact hsemaphores
        · exact hsemaphores.set hfound rfl rfl rfl
  | stop => exact hsemaphores
  | waitInflightCompletion =>
      simp only [run, waitInflightCompletion]
      split <;> exact hsemaphores

theorem executing_le_capacity (hreach : (pool capacity).ReachableWhen (FindsRoom capacity) worker)
    (provider media : String) :
    (worker.slots.bucket provider media).executing.length ≤ capacity.get provider media := by
  have hinv : Bounded capacity worker ∧ Semaphores capacity worker := by
    refine hreach.invariant (fun worker => Bounded capacity worker ∧ Semaphores capacity worker) ?_ ?_
    · rintro worker rfl
      exact ⟨fun provider media hover => absurd hover (Nat.not_lt_zero _), nofun⟩
    · rintro worker command _ - ⟨hbounded, hsemaphores⟩ hroom rfl
      exact ⟨bounded_run hbounded hroom, semaphores_run hsemaphores command⟩
  exact executing_le hinv.1 hinv.2 provider media

def sampleCapacity : CapacityTable where
  limits := AList.singleton "ark" (AList.singleton videoMedia 1)
  defaults := ∅

def sampleCommands : List WorkerCommand :=
  [.dispatchResumable [("ark", ["shot-1", "shot-2", "shot-3"])],
    .dispatchProviderBucket "ark" ["shot-1", "shot-2", "shot-3"], .acquire 0 ⟨"shot-1", 0⟩,
    .claim "shot-4" "ark" videoMedia, .acquire 0 ⟨"shot-2", 1⟩]

theorem reachable_sampleCommands :
    (pool sampleCapacity).ReachableWhen (FindsRoom sampleCapacity)
      (sampleCommands.foldl (run sampleCapacity) {}) :=
  TransitionSystem.reachable_foldl (.start rfl)
    ⟨trivial, Or.inr (Or.inr (Or.inr (Or.inr ⟨rfl, nofun⟩))), trivial, trivial, trivial, trivial⟩

theorem executing_le_capacity_sample :
    ((sampleCommands.foldl (run sampleCapacity) {}).slots.bucket "ark" videoMedia).executing.length ≤
      sampleCapacity.get "ark" videoMedia :=
  executing_le_capacity reachable_sampleCommands "ark" videoMedia

/-- A claimed task runs, and a download is retried: two videos run where one may. -/
theorem retry_exceeds_capacity :
    ∃ worker, (pool sampleCapacity).Reachable worker ∧
      sampleCapacity.get "ark" videoMedia = 1 ∧
      (worker.slots.bucket "ark" videoMedia).executing = ["shot-2", "shot-1"] :=
  ⟨[.claim "shot-1" "ark" videoMedia, retryArtifactDownload "shot-2" "ark",
      .dispatchProviderBucket "ark" ["shot-2"], .acquire 0 ⟨"shot-2", 1⟩].foldl
        (run sampleCapacity) {},
    TransitionSystem.reachable_foldl (.start rfl) (TransitionSystem.along_true _ _), rfl, rfl⟩

end ShortReel.SlotCapacity
