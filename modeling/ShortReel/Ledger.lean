import ShortReel.UsageRepository

/-!
# The bracket around a call

`Ledger.record`: a call is opened as a pending row, the body runs, and every way out of it settles
the row. Each write of the bracket runs in a task of its own behind a shield: one cancellation that
arrives meanwhile waits for it, a second one leaves it behind.
-/

namespace ShortReel.Ledger

open TableUpdates GenerationTables UsageRepository

/-- The cancellations that arrive while a write is awaited, and whether the write is done when the
first of them does. -/
structure Cancellations where
  count : ℕ := 0
  writeDone : Bool := false

inductive WriteEnd where
  | completed | raised
  | cancelled (landed : Bool)
  deriving DecidableEq, Repr

def WriteEnd.landed : WriteEnd → Bool
  | .completed => true
  | .raised => false
  | .cancelled landed => landed

/-- `_settle`. -/
def awaitWrite (cancellations : Cancellations) (fails : Bool) : WriteEnd :=
  if cancellations.count = 0 then if fails then .raised else .completed
  else if cancellations.writeDone then .cancelled !fails
  else if cancellations.count = 1 then if fails then .raised else .cancelled true
  else .cancelled false

inductive OpenEnd where
  | opened | raised | cancelled | abandoned
  deriving DecidableEq, Repr

/-- `_open_call`, up to the settlement of a cancelled opening. -/
def awaitOpen (cancellations : Cancellations) (fails : Bool) : OpenEnd :=
  if 2 ≤ cancellations.count ∧ ¬ cancellations.writeDone then .abandoned
  else if fails then .raised
  else if cancellations.count = 0 then .opened
  else .cancelled

inductive BackendResult where
  | image (usageTokens : Option ℤ) (quality : Option String)
      (imageInputTokens imageOutputTokens textInputTokens textOutputTokens : Option ℤ)
  | audio (characters : ℤ)
  | video (usageTokens : Option ℤ) (generateAudio : Option Bool) (durationSeconds : ℤ)
  | text (inputTokens outputTokens : Option ℤ)

def settlementFromResult (serviceTier : String) : BackendResult → SettlementInput
  | .image usageTokens quality imageInputTokens imageOutputTokens textInputTokens
      textOutputTokens =>
      { usageTokens, quality, imageInputTokens, imageOutputTokens, textInputTokens,
        textOutputTokens }
  | .audio characters => { usageTokens := some characters }
  | .video usageTokens generateAudio durationSeconds =>
      { usageTokens, generateAudio, billedDurationSeconds := some durationSeconds, serviceTier }
  | .text inputTokens outputTokens => { inputTokens, outputTokens }

/-- How a body leaves: it returns, it raises an `Exception`, it is cancelled, or it raises another
`BaseException`. -/
inductive BodyExit (ε : Type) where
  | returned
  | raised (exc : ε)
  | cancelled
  | interrupted (exc : ε)

/-- What reached the tables while a body ran, from anywhere, and the result it has last declared a
success with. -/
structure BodyEnd (ε : Type) where
  writes : List UsageCommand := []
  declared : Option BackendResult
  exit : BodyExit ε

inductive Outcome (ε : Type) where
  | completed | undeclared | cancelled
  | raised (exc : ε)
  deriving DecidableEq

/-- What happens around the bracket. `classify` gives nothing where reading the exception raises. -/
structure Environment (ε : Type) where
  pricing : Pricing
  classify : ε → Option CallFailure
  databaseError : ε
  openFails : Bool := false
  writeFails : CallStatus → Bool := fun _ => false
  opening : Cancellations := {}
  writing : CallStatus → Cancellations := fun _ => {}
  startedAt : Time
  finishedAt : Time

structure Progress where
  store : Store
  settled : List CallStatus := []
  events : List (ℕ × CallStatus) := []

/-- How `_finish_failed` and `_finish_cancelled` end: they say whether they wrote, or are
cancelled. -/
inductive Finish where
  | returned (written : Bool)
  | cancelled
  deriving DecidableEq, Repr

section Record

variable {ε : Type} (environment : Environment ε) (request : StartCallRequest)

/-- `_emit_recorded`; a call without a project sends nothing. -/
def emitRecorded (callId : ℕ) (status : CallStatus) (progress : Progress) : Progress :=
  if request.projectName = "" then progress
  else { progress with events := progress.events ++ [(callId, status)] }

variable (callId : ℕ)

def write (status : CallStatus) (settlement : SettlementInput) (outputPath : Option String)
    (failure : CallFailure) (progress : Progress) : WriteEnd × Progress :=
  let ended := awaitWrite (environment.writing status) (environment.writeFails status)
  if ended.landed then
    (ended, { progress with
      store := finishCall progress.store environment.pricing callId status settlement outputPath
        failure environment.finishedAt
      settled := progress.settled ++ [status] })
  else (ended, progress)

def finishOf : WriteEnd → Finish
  | .completed => .returned true
  | .raised => .returned false
  | .cancelled _ => .cancelled

def finishFailed (exc : ε) (progress : Progress) : Finish × Progress :=
  match environment.classify exc with
  | none => (.returned false, progress)
  | some failure =>
      (write environment callId .failed {} none failure progress).map finishOf id

def finishCancelled (progress : Progress) : Finish × Progress :=
  (write environment callId .cancelled { costAmount := some 0 } none {} progress).map finishOf id

/-- The way out with an `Exception`. -/
def leaveFailed (exc : ε) (progress : Progress) : Outcome ε × Progress :=
  match finishFailed environment callId exc progress with
  | (.returned true, progress) => (.raised exc, emitRecorded request callId .failed progress)
  | (.returned false, progress) => (.raised exc, progress)
  | (.cancelled, progress) => (.cancelled, progress)

def leaveCancelled (progress : Progress) : Outcome ε × Progress :=
  match finishCancelled environment callId progress with
  | (.returned true, progress) => (.cancelled, emitRecorded request callId .cancelled progress)
  | (_, progress) => (.cancelled, progress)

def leaveSucceeded (settlement : SettlementInput) (outputPath : Option String)
    (progress : Progress) : Outcome ε × Progress :=
  match write environment callId .success settlement outputPath {} progress with
  | (.completed, progress) => (.completed, emitRecorded request callId .success progress)
  | (.cancelled _, progress) => (.cancelled, emitRecorded request callId .success progress)
  | (.raised, progress) => leaveFailed environment request callId environment.databaseError progress

def leave (serviceTier : String) (outputPath : Option String) (ended : BodyEnd ε)
    (progress : Progress) : Outcome ε × Progress :=
  match ended.exit with
  | .cancelled => leaveCancelled environment request callId progress
  | .raised exc => leaveFailed environment request callId exc progress
  | .interrupted exc => (.raised exc, progress)
  | .returned =>
      match ended.declared with
      | none => (.undeclared, progress)
      | some result =>
          leaveSucceeded environment request callId (settlementFromResult serviceTier result)
            outputPath progress

def storeAfter (ended : BodyEnd ε) (store : Store) : Store :=
  ended.writes.foldl (run environment.pricing) store

/-- `Ledger.record` around a body. -/
def record (serviceTier : String) (outputPath : Option String) (body : ℕ → Store → BodyEnd ε)
    (store : Store) : Outcome ε × Progress :=
  let (callId, opened) := startCall store request environment.startedAt
  match awaitOpen environment.opening environment.openFails with
  | .raised => (.raised environment.databaseError, { store })
  | .abandoned => (.cancelled, { store := if environment.openFails then store else opened })
  | .cancelled => leaveCancelled environment request callId { store := opened }
  | .opened =>
      let ended := body callId opened
      leave environment request callId serviceTier outputPath ended
        { store := storeAfter environment ended opened }

end Record

section Rows

variable {store : Store} {callId : ℕ}

def statusOf (store : Store) (callId : ℕ) : Option CallStatus :=
  (call? store callId).map (·.status)

theorem statusOf_isSome :
    (statusOf store callId).isSome ↔ ∃ call ∈ store.apiCalls, call.id = callId := by
  rw [statusOf, Option.isSome_map, call?, List.find?_isSome]
  simp

theorem statusOf_startCall (request : StartCallRequest) (now : Time) :
    statusOf (startCall store request now).2 (nextCallId store) = some .pending := by
  have hnone : call? store (nextCallId store) = none := by
    rw [call?, List.find?_eq_none]
    intro call hcall
    have hlt := lt_nextCallId hcall
    simp only [decide_eq_true_eq]
    omega
  rw [call?] at hnone
  simp [statusOf, call?, startCall, hnone]

theorem exists_of_update {later : Store} {guard : ApiCall → Prop} [DecidablePred guard]
    {values : ApiCall → ApiCall} (hcalls : later.apiCalls = updateWhere guard values store.apiCalls)
    (hvalues : ∀ call, (values call).id = call.id)
    (h : ∃ call ∈ store.apiCalls, call.id = callId) : ∃ call ∈ later.apiCalls, call.id = callId := by
  obtain ⟨call, hcall, rfl⟩ := h
  have hsame : List.Forall₂ (fun old new : ApiCall => old.id = new.id) store.apiCalls
      (updateWhere guard values store.apiCalls) :=
    forall₂_updateWhere (fun _ _ _ => rfl) fun call _ _ => (hvalues call).symm
  obtain ⟨new, hnew, hid⟩ := exists_after hsame hcall
  exact ⟨new, hcalls ▸ hnew, hid.symm⟩

theorem statusOf_run_isSome {pricing : Pricing} {command : UsageCommand}
    (h : (statusOf store callId).isSome) : (statusOf (run pricing store command) callId).isSome := by
  rw [statusOf_isSome] at h ⊢
  cases command with
  | startCall request now =>
      obtain ⟨call, hcall, hid⟩ := h
      exact ⟨call, List.mem_append_left _ hcall, hid⟩
  | finishCall callId status settlement outputPath failure now =>
      simp only [run, finishCall]
      split
      · exact h
      · exact exists_of_update rfl (fun _ => rfl) h
  | finalizePendingByCallId callId settlement status failure now =>
      simp only [run, finalizePendingByCallId]
      split
      · exact h
      · exact exists_of_update rfl (fun _ => rfl) h
  | settleInterruptedPendingCalls tasklessStartedBefore now =>
      refine settleInterruptedPendingCalls_induction
        (motive := fun store => ∃ call ∈ store.apiCalls, call.id = callId) h ?_
      exact fun _ _ _ _ hcurrent => exists_of_update rfl (fun _ => rfl) hcurrent
  | writeTasks tasks => exact h

theorem statusOf_storeAfter_isSome {ε : Type} {environment : Environment ε} {ended : BodyEnd ε}
    (h : (statusOf store callId).isSome) :
    (statusOf (storeAfter environment ended store) callId).isSome := by
  unfold storeAfter
  induction ended.writes generalizing store with
  | nil => exact h
  | cons command writes ih => exact ih (statusOf_run_isSome h)

theorem statusOf_finishCall {pricing : Pricing} {status : CallStatus}
    {settlement : SettlementInput} {outputPath : Option String} {failure : CallFailure} {now : Time}
    (h : (statusOf store callId).isSome) :
    statusOf (finishCall store pricing callId status settlement outputPath failure now) callId =
      some status := by
  unfold statusOf call? finishCall at *
  rw [Option.isSome_map] at h
  obtain ⟨row, hrow⟩ := Option.isSome_iff_exists.mp h
  rw [call?, hrow]
  dsimp only
  rw [find?_updateWhere_key (·.id) (by exact fun _ => rfl) callId store.apiCalls, hrow]
  rfl

end Rows

section Healthy

variable {ε : Type} {environment : Environment ε} {request : StartCallRequest} {callId : ℕ}
variable {progress : Progress}

/-- The writes of the ledger succeed, the classification of a failure included, and at most one
cancellation arrives during each of them. -/
structure Environment.Healthy (environment : Environment ε) : Prop where
  opens : environment.openFails = false
  writes : ∀ status, environment.writeFails status = false
  classifies : ∀ exc, (environment.classify exc).isSome
  opening : environment.opening.count ≤ 1
  writing : ∀ status, (environment.writing status).count ≤ 1

def SettledOnce (progress : Progress) (callId : ℕ) (status : CallStatus) : Prop :=
  statusOf progress.store callId = some status ∧ progress.settled = [status]

def Open (progress : Progress) (callId : ℕ) : Prop :=
  (statusOf progress.store callId).isSome ∧ progress.settled = []

theorem awaitWrite_landed {cancellations : Cancellations} (h : cancellations.count ≤ 1) :
    (awaitWrite cancellations false).landed = true ∧ awaitWrite cancellations false ≠ .raised := by
  unfold awaitWrite
  split
  · exact ⟨rfl, nofun⟩
  · split
    · exact ⟨rfl, nofun⟩
    · rw [if_pos (by omega)]
      exact ⟨rfl, nofun⟩

theorem write_settles (henvironment : environment.Healthy) (hopen : Open progress callId)
    (status : CallStatus) (settlement : SettlementInput) (outputPath : Option String)
    (failure : CallFailure) :
    SettledOnce (write environment callId status settlement outputPath failure progress).2 callId
        status ∧
      (write environment callId status settlement outputPath failure progress).1 ≠ .raised := by
  obtain ⟨hlanded, hraised⟩ := awaitWrite_landed (henvironment.writing status)
  unfold write
  rw [henvironment.writes status]
  dsimp only
  rw [if_pos hlanded]
  refine ⟨⟨statusOf_finishCall hopen.1, ?_⟩, hraised⟩
  show progress.settled ++ [status] = [status]
  rw [hopen.2, List.nil_append]

@[simp]
theorem settledOnce_emitRecorded {status sent : CallStatus} :
    SettledOnce (emitRecorded request callId sent progress) callId status ↔
      SettledOnce progress callId status := by
  unfold emitRecorded SettledOnce
  split <;> rfl

theorem leaveFailed_settles (henvironment : environment.Healthy) (hopen : Open progress callId)
    (exc : ε) :
    SettledOnce (leaveFailed environment request callId exc progress).2 callId .failed := by
  obtain ⟨failure, hfailure⟩ := Option.isSome_iff_exists.mp (henvironment.classifies exc)
  obtain ⟨hwrite, hraised⟩ := write_settles henvironment hopen .failed {} none failure
  simp only [leaveFailed, finishFailed, hfailure]
  generalize write environment callId .failed {} none failure progress = ended at *
  obtain ⟨_ | _ | _, progress⟩ := ended
  · exact settledOnce_emitRecorded.mpr hwrite
  · exact absurd rfl hraised
  · exact hwrite

theorem leaveCancelled_settles (henvironment : environment.Healthy) (hopen : Open progress callId) :
    SettledOnce (leaveCancelled environment request callId progress).2 callId .cancelled := by
  obtain ⟨hwrite, hraised⟩ :=
    write_settles henvironment hopen .cancelled { costAmount := some 0 } none {}
  unfold leaveCancelled finishCancelled
  generalize write environment callId .cancelled { costAmount := some 0 } none {} progress = ended
    at *
  obtain ⟨_ | _ | _, progress⟩ := ended
  · exact settledOnce_emitRecorded.mpr hwrite
  · exact absurd rfl hraised
  · exact hwrite

theorem leaveSucceeded_settles (henvironment : environment.Healthy) (hopen : Open progress callId)
    (settlement : SettlementInput) (outputPath : Option String) :
    SettledOnce (leaveSucceeded environment request callId settlement outputPath progress).2 callId
      .success := by
  obtain ⟨hwrite, hraised⟩ := write_settles henvironment hopen .success settlement outputPath {}
  unfold leaveSucceeded
  generalize write environment callId .success settlement outputPath {} progress = ended at *
  obtain ⟨_ | _ | _, progress⟩ := ended
  · exact settledOnce_emitRecorded.mpr hwrite
  · exact absurd rfl hraised
  · exact settledOnce_emitRecorded.mpr hwrite

end Healthy

section Exits

variable {ε : Type}

def BodyEnd.Undeclared (ended : BodyEnd ε) : Prop :=
  ended.exit = .returned ∧ ended.declared = none

def BodyEnd.Succeeded (ended : BodyEnd ε) : Prop :=
  ended.exit = .returned ∧ ended.declared.isSome

/-- The body was left by a `BaseException` that is no `Exception` and no cancellation. -/
def BodyEnd.Interrupted (ended : BodyEnd ε) : Prop :=
  ∃ exc, ended.exit = .interrupted exc

variable {environment : Environment ε} {request : StartCallRequest} {callId : ℕ}
variable {progress : Progress} {serviceTier : String} {outputPath : Option String}

def Settles (progress : Progress) (callId : ℕ) (succeeded : Prop) : Prop :=
  ∃ status, SettledOnce progress callId status ∧ status ≠ .pending ∧ (status = .success ↔ succeeded)

theorem leave_settles (henvironment : environment.Healthy) (hopen : Open progress callId)
    {ended : BodyEnd ε} (hdeclared : ¬ ended.Undeclared) (hinterrupted : ¬ ended.Interrupted) :
    Settles (leave environment request callId serviceTier outputPath ended progress).2 callId
      ended.Succeeded := by
  obtain ⟨writes, declared, exit⟩ := ended
  cases exit with
  | cancelled =>
      refine ⟨.cancelled, leaveCancelled_settles henvironment hopen, nofun, nofun, ?_⟩
      exact fun hsucceeded => nomatch hsucceeded.1
  | raised exc =>
      refine ⟨.failed, leaveFailed_settles henvironment hopen exc, nofun, nofun, ?_⟩
      exact fun hsucceeded => nomatch hsucceeded.1
  | interrupted exc => exact absurd ⟨exc, rfl⟩ hinterrupted
  | returned =>
      cases declared with
      | none => exact absurd ⟨rfl, rfl⟩ hdeclared
      | some result =>
          exact ⟨.success, leaveSucceeded_settles henvironment hopen _ outputPath, nofun,
            fun _ => ⟨rfl, rfl⟩, fun _ => rfl⟩

theorem awaitOpen_healthy (henvironment : environment.Healthy) :
    awaitOpen environment.opening environment.openFails =
      if environment.opening.count = 0 then .opened else .cancelled := by
  have hcount := henvironment.opening
  unfold awaitOpen
  rw [if_neg fun h => by omega, henvironment.opens, if_neg Bool.false_ne_true]

/-- In a healthy run, a body that returns with nothing declared leaves the row to whoever finds it,
with a `RuntimeError`; every other way out settles it once, as a success exactly when the body
declared one and returned. -/
theorem record_settles (henvironment : environment.Healthy) (body : ℕ → Store → BodyEnd ε)
    (store : Store) {ended : BodyEnd ε}
    (hended : ended = body (nextCallId store) (startCall store request environment.startedAt).2)
    {left : Outcome ε × Progress}
    (hleft : left = record environment request serviceTier outputPath body store) :
    (environment.opening.count ≠ 0 → Settles left.2 (nextCallId store) False) ∧
    (environment.opening.count = 0 → ¬ ended.Interrupted → ¬ ended.Undeclared →
      Settles left.2 (nextCallId store) ended.Succeeded) ∧
    (environment.opening.count = 0 → ended.Undeclared →
      left.1 = .undeclared ∧ left.2.settled = [] ∧
        left.2.store = storeAfter environment ended
          (startCall store request environment.startedAt).2) := by
  have hopened : (statusOf (startCall store request environment.startedAt).2
      (nextCallId store)).isSome := by
    rw [statusOf_startCall]
    rfl
  have hid : (startCall store request environment.startedAt).1 = nextCallId store := rfl
  unfold record at hleft
  rw [awaitOpen_healthy henvironment] at hleft
  dsimp only at hleft
  rw [hid, ← hended] at hleft
  refine ⟨fun hcount => ?_, fun hcount hinterrupted hdeclared => ?_, fun hcount hundeclared => ?_⟩
  · rw [if_neg hcount] at hleft
    rw [hleft]
    exact ⟨.cancelled, leaveCancelled_settles henvironment ⟨hopened, rfl⟩, nofun, nofun, nofun⟩
  · rw [if_pos hcount] at hleft
    rw [hleft]
    exact leave_settles henvironment ⟨statusOf_storeAfter_isSome hopened, rfl⟩ hdeclared hinterrupted
  · rw [if_pos hcount] at hleft
    obtain ⟨writes, declared, exit⟩ := ended
    obtain ⟨rfl, rfl⟩ := hundeclared
    rw [hleft]
    exact ⟨rfl, rfl, rfl⟩

def sampleEnvironment : Environment String where
  pricing :=
    { durationMs := fun startedAt finishedAt => ((finishedAt : ℤ) - startedAt) / 1000
      resolvePrice := fun _ _ => ⟨none, none, none⟩
      calculateCost := fun _ _ _ => (3, "USD") }
  classify exc := some { errorMessage := some exc }
  databaseError := "database is locked"
  writing _ := { count := 1 }
  startedAt := 0
  finishedAt := 5000

theorem sampleEnvironment_healthy : sampleEnvironment.Healthy where
  opens := rfl
  writes _ := rfl
  classifies _ := rfl
  opening := Nat.zero_le _
  writing _ := le_rfl

def sampleRequest : StartCallRequest where
  projectName := "demo"
  callType := .image
  model := "imagen"

def declaredImage : BodyEnd String where
  declared := some (.image none (some "high") none none none none)
  exit := .returned

/-- The image's call is settled as a success though the cancellation arrives while it is written. -/
theorem record_settles_sample :
    Settles (record sampleEnvironment sampleRequest "default" (some "scene.png")
      (fun _ _ => declaredImage) {}).2 (nextCallId {}) declaredImage.Succeeded :=
  (record_settles sampleEnvironment_healthy (fun _ _ => declaredImage) {} rfl rfl).2.1 rfl
    (fun h => nomatch h) (fun h => nomatch h.2)

/-- A body that returns without declaring anything: all writes succeed, and the row is pending. -/
theorem undeclared_stays_pending :
    sampleEnvironment.Healthy ∧
      statusOf (record sampleEnvironment sampleRequest "default" (some "scene.png")
        (fun _ _ => { declared := none, exit := .returned }) {}).2.store (nextCallId {}) =
          some .pending :=
  ⟨sampleEnvironment_healthy, rfl⟩

end Exits

end ShortReel.Ledger
