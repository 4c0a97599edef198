import ShortReel.TransitionSystem
import ShortReel.UsageRepository

/-!
# Settled calls stay as they are

The three ways a call is settled, in any order and from any process. Two of them write only a
pending row. `finish_call` writes whatever it finds: a settled row keeps its columns in every run in
which no `finish_call` addresses one.
-/

namespace ShortReel.CallSettlements

open TableUpdates GenerationTables UsageRepository

variable (pricing : Pricing)

def ledger : TransitionSystem Store UsageCommand :=
  .ofRun (·.apiCalls = []) (run pricing)

def isSettled (status : CallStatus) : Prop :=
  status = .success ∨ status = .failed

/-- `finish_call` is not used on a row that is settled already. -/
def FinishesOpen (store : Store) : UsageCommand → Prop
  | .finishCall callId .. => ∀ call ∈ store.apiCalls, call.id = callId → ¬ isSettled call.status
  | _ => True

variable {pricing} {store later : Store}

theorem not_pending_of_isSettled {status : CallStatus} (h : isSettled status) :
    status ≠ .pending := by
  rintro rfl
  simp [isSettled] at h

theorem mem_of_pending_update {call : ApiCall} {callId : ℕ} {values : ApiCall → ApiCall}
    (hcall : call ∈ store.apiCalls) (hsettled : isSettled call.status) :
    call ∈ updateWhere (fun call : ApiCall => call.id = callId ∧ call.status = .pending) values
      store.apiCalls :=
  mem_updateWhere.mpr (Or.inl ⟨hcall, fun h => not_pending_of_isSettled hsettled h.2⟩)

theorem mem_run {call : ApiCall} {command : UsageCommand} (hguard : FinishesOpen store command)
    (hcall : call ∈ store.apiCalls) (hsettled : isSettled call.status) :
    call ∈ (run pricing store command).apiCalls := by
  cases command with
  | startCall request now => exact List.mem_append_left _ hcall
  | finishCall callId status settlement outputPath failure now =>
      simp only [run, finishCall]
      split
      · exact hcall
      · exact mem_updateWhere.mpr (Or.inl ⟨hcall, fun hid => hguard call hcall hid hsettled⟩)
  | finalizePendingByCallId callId settlement status failure now =>
      simp only [run, finalizePendingByCallId]
      split
      · exact hcall
      · exact mem_of_pending_update hcall hsettled
  | settleInterruptedPendingCalls tasklessStartedBefore now =>
      exact settleInterruptedPendingCalls_induction (motive := fun store => call ∈ store.apiCalls)
        hcall fun _ _ _ _ hcurrent => mem_of_pending_update hcurrent hsettled
  | writeTasks tasks => exact hcall

def UniqueCallIds (store : Store) : Prop :=
  (store.apiCalls.map (·.id)).Nodup

theorem unique_of_update {guard : ApiCall → Prop} [DecidablePred guard]
    {values : ApiCall → ApiCall} (hcalls : later.apiCalls = updateWhere guard values store.apiCalls)
    (hvalues : ∀ call, (values call).id = call.id) (hunique : UniqueCallIds store) :
    UniqueCallIds later := by
  have hsame : List.Forall₂ (fun old new : ApiCall => old.id = new.id) store.apiCalls
      (updateWhere guard values store.apiCalls) :=
    forall₂_updateWhere (fun _ _ _ => rfl) fun call _ _ => (hvalues call).symm
  unfold UniqueCallIds
  rw [hcalls, ← forall₂_map_eq (fun _ _ h => h) hsame]
  exact hunique

theorem uniqueCallIds_run (hunique : UniqueCallIds store) (command : UsageCommand) :
    UniqueCallIds (run pricing store command) := by
  cases command with
  | startCall request now =>
      unfold UniqueCallIds
      simp only [run, startCall, List.map_append, List.map_cons, List.map_nil]
      rw [List.nodup_append]
      refine ⟨hunique, List.nodup_singleton _, ?_⟩
      rintro _ hid _ hnew rfl
      obtain ⟨call, hcall, heq⟩ := List.mem_map.mp hid
      have hlt := lt_nextCallId hcall
      rw [List.mem_singleton] at hnew
      omega
  | finishCall callId status settlement outputPath failure now =>
      simp only [run, finishCall]
      split
      · exact hunique
      · exact unique_of_update rfl (fun _ => rfl) hunique
  | finalizePendingByCallId callId settlement status failure now =>
      simp only [run, finalizePendingByCallId]
      split
      · exact hunique
      · exact unique_of_update rfl (fun _ => rfl) hunique
  | settleInterruptedPendingCalls tasklessStartedBefore now =>
      refine settleInterruptedPendingCalls_induction (motive := UniqueCallIds) hunique ?_
      exact fun _ _ _ _ hcurrent => unique_of_update rfl (fun _ => rfl) hcurrent
  | writeTasks tasks => exact hunique

theorem call?_of_mem (hunique : UniqueCallIds store) {call : ApiCall}
    (hcall : call ∈ store.apiCalls) : call? store call.id = some call := by
  have hsome : (call? store call.id).isSome := by
    rw [call?, List.find?_isSome]
    exact ⟨call, hcall, by simp⟩
  obtain ⟨row, hrow⟩ := Option.isSome_iff_exists.mp hsome
  have hid : row.id = call.id := by simpa using List.find?_some hrow
  rw [hrow, List.inj_on_of_nodup_map hunique (List.mem_of_find?_eq_some hrow) hcall hid]

theorem uniqueCallIds_of_reachable {guard : Store → UsageCommand → Prop}
    (hreach : (ledger pricing).ReachableWhen guard store) : UniqueCallIds store := by
  refine hreach.invariant UniqueCallIds ?_ ?_
  · intro store hempty
    unfold UniqueCallIds
    rw [hempty]
    exact List.nodup_nil
  · rintro store command _ - hunique - rfl
    exact uniqueCallIds_run hunique command

/-- In a run in which no `finish_call` addresses a settled row, a row that is settled stays the row
it is, in all its columns. -/
theorem settled_stays (hreach : (ledger pricing).ReachableWhen FinishesOpen store)
    {call : ApiCall} (hcall : call ∈ store.apiCalls) (hsettled : isSettled call.status)
    (hleads : (ledger pricing).LeadsWhen FinishesOpen store later) :
    call? later call.id = some call := by
  have hkept : ∀ call ∈ store.apiCalls, isSettled call.status → call ∈ later.apiCalls := by
    refine hleads.respects (fun store later =>
      ∀ call ∈ store.apiCalls, isSettled call.status → call ∈ later.apiCalls) ?_ ?_ ?_ hreach
    · exact fun _ _ hcall _ => hcall
    · exact fun _ _ _ hfirst hsecond call hcall h => hsecond call (hfirst call hcall h) h
    · rintro store command _ - hguard rfl call hcall h
      exact mem_run hguard hcall h
  exact call?_of_mem (uniqueCallIds_of_reachable (hreach.leads hleads)) (hkept call hcall hsettled)

def samplePricing : Pricing where
  durationMs startedAt finishedAt := ((finishedAt : ℤ) - startedAt) / 1000
  resolvePrice _ _ := ⟨none, none, none⟩
  calculateCost _ _ _ := (3, "USD")

def sampleCall : StartCallRequest where
  projectName := "demo"
  callType := .video
  model := "veo"

def sampleStore : Store :=
  [.startCall sampleCall 0, .finalizePendingByCallId 1 {} .success {} 5000].foldl
    (run samplePricing) {}

theorem reachable_sampleStore :
    (ledger samplePricing).ReachableWhen FinishesOpen sampleStore :=
  TransitionSystem.reachable_foldl (.start rfl) ⟨trivial, trivial, trivial⟩

def settledCall : ApiCall :=
  sampleStore.apiCalls.head (by decide)

/-- The process that opened the call gives up on it, as a resumed task would. -/
theorem settled_stays_sample :
    isSettled settledCall.status ∧
      call? (run samplePricing sampleStore (.finalizePendingByCallId 1 {} .failed {} 9000))
        settledCall.id = some settledCall :=
  ⟨Or.inl rfl, settled_stays reachable_sampleStore (List.head_mem _) (Or.inl rfl)
    (.single ⟨.finalizePendingByCallId 1 {} .failed {} 9000, trivial, rfl⟩)⟩

/-- The process that opened the call fails, and finishes it: its three dollars are gone. -/
theorem finish_rewrites_settled :
    ∃ store later call, (ledger samplePricing).Reachable store ∧ call ∈ store.apiCalls ∧
      isSettled call.status ∧ call.costAmount = 3 ∧
      later = run samplePricing store
        (.finishCall call.id .failed {} none { errorMessage := some "timed out" } 9000) ∧
      (call? later call.id).map (fun row => (row.status, row.costAmount)) = some (.failed, 0) :=
  ⟨sampleStore, _, settledCall, reachable_sampleStore.reachable, List.head_mem _, Or.inl rfl, rfl,
    rfl, rfl⟩

end ShortReel.CallSettlements
