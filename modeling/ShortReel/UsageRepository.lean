import ShortReel.GenerationTables

/-!
# The usage repository

The writes of `usage_repo.py`: a call is opened as a pending row and settled by the process that
made it, by a resumed task, or at startup when nothing is left that could settle it.
-/

namespace ShortReel.UsageRepository

open TableUpdates GenerationTables

def maxBilledDurationSeconds : ℤ := 86400

def providerGemini : String := "gemini"

structure SettlementInput where
  costAmount : Option ℚ := none
  currency : Option String := none
  serviceTier : String := "default"
  generateAudio : Option Bool := none
  billedDurationSeconds : Option ℤ := none
  usageTokens : Option ℤ := none
  inputTokens : Option ℤ := none
  outputTokens : Option ℤ := none
  quality : Option String := none
  imageInputTokens : Option ℤ := none
  imageOutputTokens : Option ℤ := none
  textInputTokens : Option ℤ := none
  textOutputTokens : Option ℤ := none
  deriving DecidableEq, Repr

structure PricingParams where
  callType : CallType
  model : String
  resolution : Option String
  aspectRatio : Option String
  durationSeconds : Option ℤ
  generateAudio : Bool
  usageTokens : Option ℤ
  serviceTier : String
  inputTokens : Option ℤ
  outputTokens : Option ℤ
  quality : Option String
  imageInputTokens : Option ℤ
  imageOutputTokens : Option ℤ
  textInputTokens : Option ℤ
  textOutputTokens : Option ℤ

structure CustomPrice where
  priceInput : Option ℚ
  priceOutput : Option ℚ
  currency : Option String

/-- What settling asks of the rest of the program: the milliseconds between two instants, the price
of a custom provider, and the cost calculator. -/
structure Pricing where
  durationMs : (startedAt finishedAt : Time) → ℤ
  resolvePrice : (provider model : String) → CustomPrice
  calculateCost : (provider : String) → PricingParams → CustomPrice → ℚ × String

structure SettledCall where
  durationMs : ℤ
  effectiveDurationSeconds : Option ℤ
  effectiveGenerateAudio : Option Bool
  inputTokens : Option ℤ
  outputTokens : Option ℤ
  costAmount : ℚ
  currency : String
  deriving DecidableEq, Repr

/-- Python's `value or default` on a text. -/
def textOr (value default : String) : String :=
  if value = "" then default else value

section Settle

variable (row : ApiCall) (settlement : SettlementInput)

def effectiveDuration : Option ℤ :=
  match settlement.billedDurationSeconds with
  | some billed => if 0 < billed ∧ billed ≤ maxBilledDurationSeconds then some billed
      else row.durationSeconds
  | none => row.durationSeconds

/-- Input and output tokens; those of an image are the sums of its image and text tokens. -/
def effectiveTokens : Option ℤ × Option ℤ :=
  if settlement.imageInputTokens.isSome ∨ settlement.imageOutputTokens.isSome ∨
      settlement.textInputTokens.isSome ∨ settlement.textOutputTokens.isSome then
    (some (settlement.imageInputTokens.getD 0 + settlement.textInputTokens.getD 0),
      some (settlement.imageOutputTokens.getD 0 + settlement.textOutputTokens.getD 0))
  else (settlement.inputTokens, settlement.outputTokens)

def pricingParams : PricingParams where
  callType := row.callType
  model := row.model
  resolution := row.resolution
  aspectRatio := row.aspectRatio
  durationSeconds := effectiveDuration row settlement
  generateAudio := (settlement.generateAudio.or row.generateAudio).getD false
  usageTokens := settlement.usageTokens
  serviceTier := settlement.serviceTier
  inputTokens := (effectiveTokens settlement).1
  outputTokens := (effectiveTokens settlement).2
  quality := settlement.quality
  imageInputTokens := settlement.imageInputTokens
  imageOutputTokens := settlement.imageOutputTokens
  textInputTokens := settlement.textInputTokens
  textOutputTokens := settlement.textOutputTokens

variable (pricing : Pricing) (finishedAt : Time) (autoCalc : Bool) (baseCurrency : String)

def settledCost : ℚ × String :=
  match settlement.costAmount with
  | some costAmount => (costAmount, textOr (settlement.currency.getD "") baseCurrency)
  | none =>
      if autoCalc then
        let provider := textOr row.provider providerGemini
        pricing.calculateCost provider (pricingParams row settlement)
          (pricing.resolvePrice provider row.model)
      else (0, baseCurrency)

def settle : SettledCall where
  durationMs := pricing.durationMs row.startedAt finishedAt
  effectiveDurationSeconds := effectiveDuration row settlement
  effectiveGenerateAudio := settlement.generateAudio.or row.generateAudio
  inputTokens := (effectiveTokens settlement).1
  outputTokens := (effectiveTokens settlement).2
  costAmount := (settledCost row settlement pricing autoCalc baseCurrency).1
  currency := (settledCost row settlement pricing autoCalc baseCurrency).2

end Settle

structure StartCallRequest where
  projectName : String
  callType : CallType
  model : String
  prompt : Option String := none
  resolution : Option String := none
  durationSeconds : Option ℤ := none
  aspectRatio : Option String := none
  generateAudio : Option Bool := none
  provider : String := providerGemini
  userId : String := "default"
  segmentId : Option String := none
  taskId : Option String := none
  purpose : Option CallPurpose := none
  sessionId : Option String := none
  inputs : Option String := none

structure CallFailure where
  errorMessage : Option String := none
  errorCode : Option CallErrorCode := none
  errorParams : Option String := none
  deriving DecidableEq, Repr

def CallFailure.truncated (failure : CallFailure) : Option String :=
  (failure.errorMessage.filter (· ≠ "")).map fun message => String.ofList (message.toList.take 500)

section Writes

variable (store : Store)

def nextCallId : ℕ :=
  (store.apiCalls.map (·.id)).foldr max 0 + 1

def call? (callId : ℕ) : Option ApiCall :=
  store.apiCalls.find? (·.id = callId)

theorem lt_nextCallId {store : Store} {call : ApiCall} (hcall : call ∈ store.apiCalls) :
    call.id < nextCallId store := by
  unfold nextCallId
  generalize store.apiCalls = calls at hcall
  induction calls with
  | nil => cases hcall
  | cons first rest ih =>
      rw [List.map_cons, List.foldr_cons]
      rcases List.mem_cons.mp hcall with rfl | hrest
      · omega
      · have := ih hrest
        omega

def startCall (request : StartCallRequest) (now : Time) : ℕ × Store :=
  let row : ApiCall :=
    { id := nextCallId store
      projectName := request.projectName
      callType := request.callType
      model := request.model
      prompt := request.prompt
      resolution := request.resolution
      durationSeconds := request.durationSeconds
      aspectRatio := request.aspectRatio
      generateAudio := request.generateAudio
      status := .pending
      startedAt := now
      provider := request.provider
      userId := request.userId
      segmentId := request.segmentId
      taskId := request.taskId
      purpose := request.purpose
      sessionId := request.sessionId
      inputs := request.inputs }
  (row.id, { store with apiCalls := store.apiCalls ++ [row] })

def findPendingCallIdByTaskId (taskId : String) : Option ℕ :=
  (store.apiCalls.filter fun row => row.taskId = some taskId ∧ row.status = .pending).map (·.id)
    |>.max?

variable (pricing : Pricing)

/-- `finish_call`: whatever the status of the row is. -/
def finishCall (callId : ℕ) (status : CallStatus) (settlement : SettlementInput)
    (outputPath : Option String) (failure : CallFailure) (now : Time) : Store :=
  match call? store callId with
  | none => store
  | some row =>
      let settled := settle row settlement pricing now (status = .success)
        (textOr row.currency "USD")
      { store with
        apiCalls := updateWhere (·.id = callId)
          (fun call => { call with
            status
            finishedAt := some now
            durationMs := some settled.durationMs
            durationSeconds := settled.effectiveDurationSeconds
            generateAudio := settled.effectiveGenerateAudio
            costAmount := settled.costAmount
            currency := settled.currency
            usageTokens := settlement.usageTokens
            inputTokens := settled.inputTokens
            outputTokens := settled.outputTokens
            imageInputTokens := settlement.imageInputTokens
            imageOutputTokens := settlement.imageOutputTokens
            textInputTokens := settlement.textInputTokens
            textOutputTokens := settlement.textOutputTokens
            outputPath
            errorMessage := failure.truncated
            errorCode := failure.errorCode
            errorParams := failure.errorParams })
          store.apiCalls }

/-- `finalize_pending_by_call_id`: only a pending row, and its error columns only with a failure. -/
def finalizePendingByCallId (callId : ℕ) (settlement : SettlementInput) (status : CallStatus)
    (failure : CallFailure) (now : Time) : ℕ × Store :=
  match call? store callId with
  | none => (0, store)
  | some row =>
      let settled := settle row settlement pricing now
        (status = .success ∧ row.status = .pending)
        (textOr (settlement.currency.getD "") "USD")
      let fails := failure.errorMessage.isSome ∨ failure.errorCode.isSome
      (rowcount (fun call : ApiCall => call.id = callId ∧ call.status = .pending) store.apiCalls,
        { store with
          apiCalls := updateWhere (fun call => call.id = callId ∧ call.status = .pending)
            (fun call => { call with
              status
              finishedAt := some now
              durationMs := some settled.durationMs
              durationSeconds := settled.effectiveDurationSeconds
              costAmount := settled.costAmount
              currency := settled.currency
              usageTokens := settlement.usageTokens
              generateAudio := settled.effectiveGenerateAudio
              errorMessage := if fails then failure.truncated else call.errorMessage
              errorCode := if fails then failure.errorCode else call.errorCode
              errorParams := if fails then failure.errorParams else call.errorParams })
            store.apiCalls })

/-- `_interrupted_target`: what an abandoned call becomes; nothing while its task lives. -/
def interruptedTarget (taskId : Option String) : Option (CallStatus × Option CallErrorCode) :=
  match taskId.filter (· ≠ "") with
  | none => some (.failed, some .interrupted)
  | some taskId =>
      match store.task? taskId with
      | none => some (.failed, some .interrupted)
      | some task =>
          if ¬ task.status.isTerminal then none
          else if task.status = .cancelled then some (.cancelled, none)
          else some (.failed, none)

def mayBeOurs (tasklessStartedBefore : Option Time) (row : ApiCall) : Prop :=
  row.taskId.getD "" = "" ∧ ∀ before ∈ tasklessStartedBefore, before ≤ row.startedAt

instance (tasklessStartedBefore : Option Time) (row : ApiCall) :
    Decidable (mayBeOurs tasklessStartedBefore row) :=
  inferInstanceAs (Decidable (_ ∧ _))

/-- The update `settle_interrupted_pending_calls` makes for one row. -/
def settleInterrupted (row : ApiCall) (status : CallStatus) (errorCode : Option CallErrorCode)
    (now : Time) : Store :=
  let settled := settle row { costAmount := some 0 } pricing now false (textOr row.currency "USD")
  { store with
    apiCalls := updateWhere (fun call => call.id = row.id ∧ call.status = .pending)
      (fun call => { call with
        status
        finishedAt := some now
        durationMs := some settled.durationMs
        costAmount := settled.costAmount
        currency := settled.currency
        errorCode := errorCode.or call.errorCode
        errorParams := if errorCode.isSome then some "\x7b\x7d" else call.errorParams })
      store.apiCalls }

/-- One pending row at startup, by the tasks of `store`; `current` is what was settled so far. -/
def settleAbandoned (tasklessStartedBefore : Option Time) (now : Time)
    (current : List (ℕ × CallStatus) × Store) (row : ApiCall) : List (ℕ × CallStatus) × Store :=
  if mayBeOurs tasklessStartedBefore row then current
  else
    match interruptedTarget store row.taskId with
    | none => current
    | some (status, errorCode) =>
        let affected := rowcount (fun call : ApiCall => call.id = row.id ∧ call.status = .pending)
          current.2.apiCalls
        (if affected > 0 then current.1 ++ [(row.id, status)] else current.1,
          settleInterrupted current.2 pricing row status errorCode now)

def settleInterruptedPendingCalls (tasklessStartedBefore : Option Time) (now : Time) :
    List (ℕ × CallStatus) × Store :=
  (store.apiCalls.filter (·.status = .pending)).foldl
    (settleAbandoned store pricing tasklessStartedBefore now) ([], store)

end Writes

theorem settleInterruptedPendingCalls_induction {store : Store} {pricing : Pricing}
    {motive : Store → Prop} {tasklessStartedBefore : Option Time} {now : Time} (hstart : motive store)
    (hstep : ∀ current row status errorCode, motive current →
      motive (settleInterrupted current pricing row status errorCode now)) :
    motive (settleInterruptedPendingCalls store pricing tasklessStartedBefore now).2 := by
  refine List.foldlRecOn (motive := fun current : List (ℕ × CallStatus) × Store => motive current.2)
    _ _ hstart ?_
  intro current hcurrent row _
  unfold settleAbandoned
  split
  · exact hcurrent
  · split
    · exact hcurrent
    · exact hstep _ _ _ _ hcurrent

inductive UsageCommand where
  | startCall (request : StartCallRequest) (now : Time)
  | finishCall (callId : ℕ) (status : CallStatus) (settlement : SettlementInput)
      (outputPath : Option String) (failure : CallFailure) (now : Time)
  | finalizePendingByCallId (callId : ℕ) (settlement : SettlementInput) (status : CallStatus)
      (failure : CallFailure) (now : Time)
  | settleInterruptedPendingCalls (tasklessStartedBefore : Option Time) (now : Time)
  | writeTasks (tasks : List Task)

def run (pricing : Pricing) (store : Store) : UsageCommand → Store
  | .startCall request now => (startCall store request now).2
  | .finishCall callId status settlement outputPath failure now =>
      finishCall store pricing callId status settlement outputPath failure now
  | .finalizePendingByCallId callId settlement status failure now =>
      (finalizePendingByCallId store pricing callId settlement status failure now).2
  | .settleInterruptedPendingCalls tasklessStartedBefore now =>
      (settleInterruptedPendingCalls store pricing tasklessStartedBefore now).2
  | .writeTasks tasks => { store with tasks }

end ShortReel.UsageRepository
