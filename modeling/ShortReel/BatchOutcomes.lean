import ShortReel.GenerationBatches
import ShortReel.TransitionSystem

/-!
# What a finished batch reports

The status a unit is counted under and the outcome it is reported with, both read off the stored
rows, and how the counts and the lists of the result relate: they agree but for the cancelled units
and for those whose task succeeded with a problem of theirs, which the result reports as failed.
-/

namespace ShortReel.BatchOutcomes

open LedgerFile Classifications GenerationResults GenerationBatches

section Outcomes

variable (memberships : List Membership) (blocked : List GenerationBatchBlockedItem)

def statusOf (unitId : String) : GenerationBatchMemberStatus :=
  if (blockedOf blocked unitId).isSome then .blocked
  else ((taskOf memberships unitId).map fun row => memberStatus row.task.status).getD .failed

def hasProblem (row : Membership) (unitId : String) : Bool :=
  match unitResultOf row unitId with
  | .ok (_, unitResult) => truthy (getField unitResult "problem")
  | .error _ => false

def spoiled (unitId : String) : Bool :=
  statusOf memberships blocked unitId = .succeeded &&
    (taskOf memberships unitId).any (hasProblem · unitId)

def outcome (unitId : String) : GenerationItemState :=
  match statusOf memberships blocked unitId with
  | .blocked => .blocked
  | .succeeded => if spoiled memberships blocked unitId then .failed else .succeeded
  | .queued | .running | .failed | .cancelled => .failed

end Outcomes

variable {failures : StoredFailures} {resolver : Option ArtifactCurrencyResolver}
  {memberships : List Membership} {blocked : List GenerationBatchBlockedItem}
  {requested : GenerationBatchRequestedItem} {item : GenerationItemResult}
  {row : Membership} {taskResult unitResult : Fields} {unitId : String}

theorem blockedOf_unitId {entry : GenerationBatchBlockedItem}
    (h : blockedOf blocked unitId = some entry) : entry.item.unitId = unitId := by
  rw [blockedOf, List.findRev?_eq_find?_reverse] at h
  simpa using (List.find?_eq_some_iff_append.mp h).1

theorem notQueuedItem_eq (h : notQueuedItem resolver memberships requested = .ok item) :
    item.unitId = requested.unitId ∧ item.state = .failed := by
  obtain ⟨report, -, h⟩ := bind_eq_ok.mp h
  obtain ⟨path, -, h⟩ := bind_eq_ok.mp h
  rw [← Except.ok.inj h]
  exact ⟨rfl, rfl⟩

theorem succeededItem_eq
    (h : succeededItem resolver requested row taskResult unitResult = .ok item) :
    item.unitId = requested.unitId ∧ item.state = .succeeded := by
  obtain ⟨status, -, h⟩ := bind_eq_ok.mp h
  obtain ⟨path, -, h⟩ := bind_eq_ok.mp h
  rw [← Except.ok.inj h]
  exact ⟨rfl, rfl⟩

theorem failedItem_eq
    (h : failedItem failures resolver requested row taskResult unitResult = .ok item) :
    item.unitId = requested.unitId ∧ item.state = .failed := by
  obtain ⟨report, -, h⟩ := bind_eq_ok.mp h
  obtain ⟨problem, -, h⟩ := bind_eq_ok.mp h
  obtain ⟨path, -, h⟩ := bind_eq_ok.mp h
  rw [← Except.ok.inj h]
  exact ⟨rfl, rfl⟩

theorem terminalItem_eq
    (h : terminalItem failures resolver memberships blocked requested = .ok item) :
    item.unitId = requested.unitId ∧
      item.state = outcome memberships blocked requested.unitId := by
  unfold terminalItem at h
  cases hblocked : blockedOf blocked requested.unitId with
  | some entry =>
      rw [hblocked] at h
      rw [← Except.ok.inj h]
      refine ⟨blockedOf_unitId hblocked, ?_⟩
      simp [outcome, statusOf, hblocked, entry.itemIsBlocked]
  | none =>
      rw [hblocked] at h
      cases htask : taskOf memberships requested.unitId with
      | none =>
          rw [htask] at h
          refine ⟨(notQueuedItem_eq h).1, ?_⟩
          rw [(notQueuedItem_eq h).2]
          simp [outcome, statusOf, hblocked, htask]
      | some row =>
          rw [htask] at h
          obtain ⟨⟨taskResult, unitResult⟩, hresult, h⟩ := bind_eq_ok.mp h
          have hproblem : hasProblem row requested.unitId =
              truthy (getField unitResult "problem") := by
            rw [hasProblem, hresult]
          dsimp only at h
          split at h
          · rename_i hsucceeded
            refine ⟨(succeededItem_eq h).1, ?_⟩
            rw [(succeededItem_eq h).2]
            simp_all [outcome, statusOf, spoiled, memberStatus]
          · rename_i hfailed
            refine ⟨(failedItem_eq h).1, ?_⟩
            rw [(failedItem_eq h).2]
            cases hstatus : row.task.status <;>
              simp_all [outcome, statusOf, spoiled, memberStatus]

theorem memberOf_status :
    (memberOf memberships blocked requested).status =
      statusOf memberships blocked requested.unitId := by
  unfold memberOf statusOf
  cases blockedOf blocked requested.unitId with
  | some entry => rfl
  | none =>
      cases taskOf memberships requested.unitId with
      | none => rfl
      | some row => rfl

variable {ids : List String} {batch : StoredBatch} {queueDepth : List (String × ℕ)}
  {model : GenerationBatchReadModel} {operation : String}
  {snapshot : GenerationBatchRequestSnapshot} {result : GenerationBatchResult}

def spoiledUnits (memberships : List Membership) (blocked : List GenerationBatchBlockedItem)
    (ids : List String) : List String :=
  ids.filter (spoiled memberships blocked)

def GenerationBatchCounts.sum (counts : GenerationBatchCounts) : ℕ :=
  counts.queued + counts.running + counts.succeeded + counts.failed + counts.cancelled +
    counts.blocked

theorem memberStatus_mem_all (status : GenerationBatchMemberStatus) :
    status ∈ GenerationBatchMemberStatus.all := by
  cases status <;> simp [GenerationBatchMemberStatus.all]

theorem nodup_statuses : GenerationBatchMemberStatus.all.Nodup := by
  decide

theorem sum_countMembers (members : List GenerationBatchMember) :
    GenerationBatchCounts.sum (countMembers members) = (countMembers members).total := by
  have hparts := sum_length_parts (·.status) members nodup_statuses
    fun member _ => memberStatus_mem_all member.status
  simp only [GenerationBatchMemberStatus.all, List.map_cons, List.map_nil, List.sum_cons,
    List.sum_nil] at hparts
  simp only [GenerationBatchCounts.sum, countMembers, count_map]
  omega

theorem count_members (status : GenerationBatchMemberStatus) :
    ((snapshot.requested.map (memberOf memberships blocked)).map (·.status)).count status =
      (part (statusOf memberships blocked) snapshot.ids status).length := by
  rw [← count_map]
  congr 1
  rw [GenerationBatchRequestSnapshot.ids, List.map_map, List.map_map]
  exact List.map_congr_left fun requested _ => memberOf_status

theorem map_mapM_ok {ε α β γ : Type} {f : α → Except ε β} {values : List α} {results : List β}
    {g : β → γ} {k : α → γ} (h : values.mapM f = .ok results)
    (heq : ∀ value result, f value = .ok result → g result = k value) :
    results.map g = values.map k := by
  induction values generalizing results with
  | nil =>
      rw [← Except.ok.inj h]
      rfl
  | cons value values ih =>
      rw [List.mapM_cons] at h
      obtain ⟨result, hresult, h⟩ := bind_eq_ok.mp h
      obtain ⟨rest, hrest, h⟩ := bind_eq_ok.mp h
      rw [← Except.ok.inj h, List.map_cons, List.map_cons, heq value result hresult, ih hrest]

theorem map_terminalItems {items : List GenerationItemResult}
    (h : snapshot.requested.mapM (terminalItem failures resolver memberships blocked) = .ok items) :
    items.map (fun item => (item.unitId, item.state)) =
      snapshot.ids.map fun unitId => (unitId, outcome memberships blocked unitId) := by
  rw [GenerationBatchRequestSnapshot.ids, List.map_map]
  apply map_mapM_ok h
  intro requested item hitem
  obtain ⟨hunit, hstate⟩ := terminalItem_eq hitem
  rw [hunit, hstate]
  rfl

theorem unitIds_terminalItems {items : List GenerationItemResult}
    (h : snapshot.requested.mapM (terminalItem failures resolver memberships blocked) = .ok items) :
    items.map (·.unitId) = snapshot.ids := by
  have hfst := congrArg (List.map Prod.fst) (map_terminalItems h)
  simpa [List.map_map, Function.comp_def] using hfst

theorem part_terminalItems {items : List GenerationItemResult}
    (h : snapshot.requested.mapM (terminalItem failures resolver memberships blocked) = .ok items)
    (state : GenerationItemState) :
    (part (·.state) items state).map (·.unitId) =
      part (outcome memberships blocked) snapshot.ids state := by
  have hparts := congrArg (fun pairs => (part Prod.snd pairs state).map Prod.fst)
    (map_terminalItems h)
  simpa [part_map, List.map_map, Function.comp_def] using hparts

theorem terminalResult_eq
    (h : terminalResult failures resolver operation snapshot memberships blocked = .ok result) :
    result.requested = snapshot.ids ∧
      ∀ state, result.bucket state = part (outcome memberships blocked) snapshot.ids state := by
  obtain ⟨items, hitems, h⟩ := bind_eq_ok.mp h
  rw [checkSets_eq_ok h]
  refine ⟨unitIds_terminalItems hitems, ?_⟩
  intro state
  rw [bucket_setsOfItems]
  exact part_terminalItems hitems state

theorem terminalResult_checked {items : List GenerationItemResult}
    (h : snapshot.requested.mapM (terminalItem failures resolver memberships blocked) = .ok items) :
    ∃ result, terminalResult failures resolver operation snapshot memberships blocked =
      .ok result := by
  have hpartitioned : (setsOfItems operation snapshot.selection snapshot.skipped items).Partitioned := by
    apply partitioned_setsOfItems
    · rw [unitIds_terminalItems h]
      exact snapshot.requestedUnique
    · exact snapshot.skippedUnique
    · rw [unitIds_terminalItems h]
      exact snapshot.skippedApart
  obtain ⟨result, hresult⟩ := checkSets_of_partitioned hpartitioned
  refine ⟨result, ?_⟩
  rw [terminalResult, h]
  exact hresult

/-- The checks of the shared result never refuse what the read model builds: only an item can fail. -/
theorem terminalResult_isOk_iff :
    (∃ result, terminalResult failures resolver operation snapshot memberships blocked =
        .ok result) ↔
      ∃ items, snapshot.requested.mapM (terminalItem failures resolver memberships blocked) =
        .ok items := by
  refine ⟨fun ⟨result, h⟩ => ?_, fun ⟨items, h⟩ => terminalResult_checked h⟩
  obtain ⟨items, hitems, -⟩ := bind_eq_ok.mp h
  exact ⟨items, hitems⟩

theorem part_active_eq_nil
    (hdone : ∀ unitId ∈ ids, (statusOf memberships blocked unitId).isDone = true)
    (status : GenerationBatchMemberStatus) (hactive : status.isDone = false) :
    part (statusOf memberships blocked) ids status = [] := by
  apply List.filter_eq_nil_iff.mpr
  intro unitId hunit hstatus
  have h := hdone unitId hunit
  rw [of_decide_eq_true hstatus, hactive] at h
  cases h

theorem outcome_eq_blocked_iff :
    outcome memberships blocked unitId = .blocked ↔
      statusOf memberships blocked unitId = .blocked := by
  unfold outcome
  split <;> simp_all
  split <;> simp

theorem outcome_eq_succeeded_iff :
    outcome memberships blocked unitId = .succeeded ↔
      statusOf memberships blocked unitId = .succeeded ∧
        spoiled memberships blocked unitId = false := by
  unfold outcome
  split <;> simp_all

theorem part_blocked :
    part (outcome memberships blocked) ids .blocked =
      part (statusOf memberships blocked) ids .blocked := by
  apply part_congr
  intro unitId _
  exact outcome_eq_blocked_iff

theorem length_part_succeeded (memberships : List Membership)
    (blocked : List GenerationBatchBlockedItem) (ids : List String) :
    (part (statusOf memberships blocked) ids .succeeded).length =
      (part (outcome memberships blocked) ids .succeeded).length +
        (spoiledUnits memberships blocked ids).length := by
  have hgood : (part (statusOf memberships blocked) ids .succeeded).filter
      (fun unitId => !spoiled memberships blocked unitId) =
        part (outcome memberships blocked) ids .succeeded := by
    rw [part, part, List.filter_filter]
    apply List.filter_congr
    intro unitId _
    rw [Bool.eq_iff_iff]
    simp [outcome_eq_succeeded_iff, and_comm]
  have hspoiled : (part (statusOf memberships blocked) ids .succeeded).filter
      (spoiled memberships blocked) = spoiledUnits memberships blocked ids := by
    rw [part, spoiledUnits, List.filter_filter]
    apply List.filter_congr
    intro unitId _
    unfold spoiled
    cases decide (statusOf memberships blocked unitId = .succeeded) <;> simp
  rw [List.length_eq_length_filter_add (spoiled memberships blocked), hspoiled, hgood, Nat.add_comm]

theorem length_part_failed
    (hdone : ∀ unitId ∈ ids, (statusOf memberships blocked unitId).isDone = true) :
    (part (outcome memberships blocked) ids .failed).length =
      (part (statusOf memberships blocked) ids .failed).length +
        (part (statusOf memberships blocked) ids .cancelled).length +
        (spoiledUnits memberships blocked ids).length := by
  have houtcomes := sum_length_parts (outcome memberships blocked) ids nodup_all
    fun unitId _ => mem_all (outcome memberships blocked unitId)
  have hstatuses := sum_length_parts (statusOf memberships blocked) ids nodup_statuses
    fun unitId _ => memberStatus_mem_all (statusOf memberships blocked unitId)
  have hsucceeded := length_part_succeeded memberships blocked ids
  have hqueued := part_active_eq_nil hdone .queued rfl
  have hrunning := part_active_eq_nil hdone .running rfl
  simp only [GenerationItemState.all, GenerationBatchMemberStatus.all, List.map_cons, List.map_nil,
    List.sum_cons, List.sum_nil, hqueued, hrunning, List.length_nil, part_blocked] at houtcomes hstatuses
  omega

theorem statusOf_isDone
    (h : (snapshot.requested.map (memberOf memberships blocked)).all (·.status.isDone) = true) :
    ∀ unitId ∈ snapshot.ids, (statusOf memberships blocked unitId).isDone = true := by
  intro unitId hunit
  obtain ⟨requested, hrequested, rfl⟩ := List.mem_map.mp hunit
  rw [← memberOf_status]
  exact List.all_eq_true.mp h _ (List.mem_map_of_mem hrequested)

theorem buildGenerationBatchReadModel_eq
    (h : buildGenerationBatchReadModel failures resolver batch memberships queueDepth = .ok model) :
    model.members = batch.requested.requested.map (memberOf memberships batch.blocked) ∧
      model.counts = countMembers model.members ∧
      model.done = model.members.all (·.status.isDone) ∧
      (model.done = true → ∃ result, model.generationResult = some result ∧
        terminalResult failures resolver batch.operation batch.requested memberships batch.blocked =
          .ok result) := by
  obtain ⟨_, -, h⟩ := bind_eq_ok.mp h
  obtain ⟨terminal, hterminal, h⟩ := bind_eq_ok.mp h
  rw [← Except.ok.inj h]
  refine ⟨rfl, rfl, rfl, ?_⟩
  intro hdone
  dsimp only at hdone
  rw [if_pos hdone] at hterminal
  cases hresult : terminalResult failures resolver batch.operation batch.requested memberships
      batch.blocked with
  | error error =>
      rw [hresult] at hterminal
      cases hterminal
  | ok result =>
      rw [hresult] at hterminal
      exact ⟨result, (Except.ok.inj hterminal).symm, rfl⟩

/-- The counts always add up, and a finished batch sorts its units into three lists that follow the
requested order. The counts of a list and of its statuses differ by the cancelled units and by the
spoiled ones. -/
theorem buildGenerationBatchReadModel_partitions
    (h : buildGenerationBatchReadModel failures resolver batch memberships queueDepth = .ok model) :
    GenerationBatchCounts.sum model.counts = model.counts.total ∧
      model.counts.total = batch.requested.ids.length ∧
      (model.done = true → ∃ result, model.generationResult = some result ∧
        result.requested = batch.requested.ids ∧
        result.union.Perm batch.requested.ids ∧
        (∀ state, result.bucket state =
          batch.requested.ids.filter fun unitId =>
            outcome memberships batch.blocked unitId = state) ∧
        result.blocked.length = model.counts.blocked ∧
        result.failed.length = model.counts.failed + model.counts.cancelled +
          (spoiledUnits memberships batch.blocked batch.requested.ids).length ∧
        result.succeeded.length +
          (spoiledUnits memberships batch.blocked batch.requested.ids).length =
            model.counts.succeeded) := by
  obtain ⟨hmembers, hcounts, hdone, hterminal⟩ := buildGenerationBatchReadModel_eq h
  have hcount : ∀ status, (model.members.map (·.status)).count status =
      (part (statusOf memberships batch.blocked) batch.requested.ids status).length := by
    intro status
    rw [hmembers]
    exact count_members status
  refine ⟨?_, ?_, ?_⟩
  · rw [hcounts]
    exact sum_countMembers _
  · rw [hcounts, hmembers]
    simp [countMembers, GenerationBatchRequestSnapshot.ids]
  · intro hfinished
    obtain ⟨result, hresult, hbuilt⟩ := hterminal hfinished
    obtain ⟨hrequested, hbuckets⟩ := terminalResult_eq hbuilt
    rw [hdone, hmembers] at hfinished
    have hstatuses := statusOf_isDone hfinished
    have hblocked : result.blocked = _ := hbuckets .blocked
    have hfailed : result.failed = _ := hbuckets .failed
    have hsucceeded : result.succeeded = _ := hbuckets .succeeded
    refine ⟨result, hresult, hrequested, ?_, hbuckets, ?_, ?_, ?_⟩
    · rw [← hrequested]
      exact result.partitioned.requested
    · rw [hblocked, part_blocked, hcounts]
      exact (hcount .blocked).symm
    · rw [hfailed, length_part_failed hstatuses, ← hcount, ← hcount, hcounts]
      rfl
    · rw [hsucceeded, ← length_part_succeeded, ← hcount, hcounts]
      rfl

def plainFailures : StoredFailures where
  decodeGenerationProblem _ := none
  parseFailure _ := none

def twoUnits : StoredBatch where
  batchId := "batch"
  projectName := "project"
  operation := "generate_grid"
  createdAt := "2026-01-01T00:00:00Z"
  requested :=
    { selection := .explicit
      requested := [{ unitId := "E1S01", unitId_ne := by decide },
        { unitId := "E1S02", unitId_ne := by decide }]
      requestedUnique := by decide
      skippedUnique := by decide
      skippedApart := by simp
      dependsInside := by simp }
  blocked := []

def twoTasks : List Membership :=
  [{ task := { taskId := "task-1", projectName := "project", taskType := "grid", mediaType := "image"
               resourceId := "E1S01", status := .cancelled, queuedAt := 0, updatedAt := 0 }
     result := .object [], unitId := "E1S01", deduped := false },
    { task := { taskId := "task-2", projectName := "project", taskType := "grid", mediaType := "image"
                resourceId := "E1S02", status := .succeeded, queuedAt := 0, updatedAt := 0 }
      result := .object [("unit_results", .object [("E1S02", .object [("problem", .object
        [("code", .string "generation_post_processing_failed"), ("detail", .string "not cut"),
          ("action", .string "none")])])])]
      unitId := "E1S02", deduped := false }]

/-- The counts report one cancelled and one succeeded unit, the result two failed ones. -/
theorem twoUnits_counts_differ :
    ∃ model, buildGenerationBatchReadModel plainFailures none twoUnits twoTasks [] = .ok model ∧
      model.done = true ∧ ∃ result, model.generationResult = some result ∧
        model.counts.succeeded = 1 ∧ result.succeeded.length = 0 ∧
        model.counts.failed = 0 ∧ result.failed.length = 2 := by
  refine ⟨_, rfl, by decide, _, rfl, by decide, by decide, by decide, by decide⟩

theorem buildGenerationBatchReadModel_partitions_two :
    ∃ model, buildGenerationBatchReadModel plainFailures none twoUnits twoTasks [] = .ok model ∧
      GenerationBatchCounts.sum model.counts = 2 ∧ ∃ result, model.generationResult = some result ∧
        result.failed.length = model.counts.failed + model.counts.cancelled +
          (spoiledUnits twoTasks [] ["E1S01", "E1S02"]).length := by
  have hrun : buildGenerationBatchReadModel plainFailures none twoUnits twoTasks [] = .ok _ := rfl
  obtain ⟨hsum, htotal, hdone⟩ := buildGenerationBatchReadModel_partitions hrun
  obtain ⟨result, hresult, -, -, -, -, hfailed, -⟩ := hdone (by decide)
  exact ⟨_, hrun, hsum.trans htotal, result, hresult, hfailed⟩

end ShortReel.BatchOutcomes
