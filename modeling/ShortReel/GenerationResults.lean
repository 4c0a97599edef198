import ShortReel.Classifications
import ShortReel.GenerationTables
import ShortReel.LedgerFile

/-!
# The result of a generation batch

The contract of `generation_result.py`: one outcome for each requested unit, on three axes, and the
batch of them, whose lists are checked against each other when it is built. A stored failure is
lifted into a problem with a closed next action.
-/

namespace ShortReel.GenerationResults

open LedgerFile Classifications
open GenerationTables (Task)

inductive GenerationSelectionMode where
  | explicit | missingOnly
  deriving DecidableEq, Repr

inductive GenerationItemState where
  | succeeded | failed | blocked
  deriving DecidableEq, Repr

def GenerationItemState.value : GenerationItemState → String
  | .succeeded => "succeeded"
  | .failed => "failed"
  | .blocked => "blocked"

def GenerationItemState.all : List GenerationItemState :=
  [.succeeded, .failed, .blocked]

inductive GenerationTaskState where
  | notQueued | succeeded | failed | cancelled | interrupted
  deriving DecidableEq, Repr

inductive ArtifactStatus where
  | current | stale | missing | blocked
  deriving DecidableEq, Repr

inductive GenerationAction where
  | retry | fixInput | generateDependency | waitForTask | replanUnit | confirmRequestDuration
  | configureProvider | repairArtifactState | retryArtifactDownload | retryProjectMigration | none
  deriving DecidableEq, Repr

def parseAction (text : String) : Option GenerationAction :=
  [("retry", .retry), ("fix_input", .fixInput), ("generate_dependency", .generateDependency),
    ("wait_for_task", .waitForTask), ("replan_unit", .replanUnit),
    ("confirm_request_duration", .confirmRequestDuration),
    ("configure_provider", .configureProvider), ("repair_artifact_state", .repairArtifactState),
    ("retry_artifact_download", .retryArtifactDownload),
    ("retry_project_migration", .retryProjectMigration), ("none", .none)].lookup text

def taskFailureActions : List (String × GenerationAction) :=
  [ ("needs_replan", .replanUnit),
    ("reference_duration_confirmation_required", .confirmRequestDuration),
    ("reference_asset_missing", .generateDependency),
    ("reference_asset_unregistered", .generateDependency),
    ("asset_original_missing", .fixInput),
    ("script_prompt_pending", .fixInput),
    ("asset_description_required", .fixInput),
    ("derivative_description_required", .fixInput),
    ("derivative_owner_sheet_missing", .generateDependency),
    ("reference_capability_unavailable", .configureProvider),
    ("reference_capability_changed", .configureProvider),
    ("reference_supported_durations_missing", .configureProvider),
    ("reference_supported_durations_invalid", .configureProvider),
    ("reference_supported_durations_incompatible", .configureProvider),
    ("video_audio_switch_not_supported", .configureProvider),
    ("video_capability_missing_i2v", .configureProvider),
    ("video_capability_missing_r2v", .configureProvider),
    ("video_capability_missing_t2v", .configureProvider),
    ("video_capability_reference_unavailable", .configureProvider),
    ("image_capability_missing_i2i", .configureProvider),
    ("image_capability_missing_t2i", .configureProvider),
    ("image_endpoint_mismatch_no_i2i", .configureProvider),
    ("image_endpoint_mismatch_no_t2i", .configureProvider),
    ("provider_unsupported_media", .configureProvider),
    ("provider_rejected", .fixInput),
    ("declarative_template_render_failed", .configureProvider),
    ("declarative_response_extract_failed", .configureProvider),
    ("declarative_image_save_failed", .retry),
    ("comfyui_image_drop_unsupported", .configureProvider),
    ("comfyui_upload_failed", .retry),
    ("comfyui_job_lost", .retry),
    ("comfyui_interrupted", .retry),
    ("comfyui_node_errors", .configureProvider),
    ("comfyui_execution_error", .configureProvider),
    ("comfyui_output_missing", .configureProvider),
    ("comfyui_output_type_mismatch", .configureProvider),
    ("comfyui_output_container_mismatch", .configureProvider),
    ("artifact_download_failed", .retryArtifactDownload),
    ("execution_identity_unrecoverable", .retry),
    ("script_edit_error", .fixInput),
    ("script_edit_items_not_list", .fixInput),
    ("script_edit_unit_lists_invalid", .fixInput),
    ("script_edit_generated_assets_invalid", .fixInput),
    ("image_dashscope_4k_t2i_only", .configureProvider),
    ("video_supported_durations_missing", .configureProvider),
    ("video_supported_durations_invalid", .configureProvider),
    ("video_supported_durations_incompatible", .configureProvider),
    ("video_capability_unavailable", .configureProvider),
    ("video_last_frame_requires_pro", .configureProvider),
    ("video_last_frame_unsupported", .configureProvider),
    ("video_reference_images_unsupported", .configureProvider),
    ("video_reference_images_with_frames_unsupported", .configureProvider),
    ("video_reference_audio_unsupported", .configureProvider),
    ("ref_payload_floor_exceeded", .fixInput),
    ("video_duration_invalid", .fixInput),
    ("video_duration_not_supported", .fixInput),
    ("video_end_image_requires_start_image", .fixInput),
    ("video_prompt_too_long", .fixInput),
    ("video_aspect_ratio_not_supported", .fixInput),
    ("video_resolution_duration_unsupported", .fixInput),
    ("video_resolution_not_supported", .fixInput),
    ("video_reference_resolution_unsupported", .fixInput),
    ("video_reference_images_duration_unsupported", .fixInput),
    ("video_reference_images_exceeded", .fixInput),
    ("video_reference_audio_duration_exceeded", .fixInput),
    ("video_reference_audio_exceeded", .fixInput),
    ("video_reference_audio_format_unsupported", .fixInput),
    ("video_reference_audio_slots_insufficient", .fixInput),
    ("cascade_blocked_dependency", .generateDependency),
    ("image_reference_images_unreadable", .generateDependency),
    ("video_start_image_unreadable", .generateDependency),
    ("video_end_image_unreadable", .generateDependency),
    ("video_reference_images_required", .generateDependency),
    ("video_reference_images_unreadable", .generateDependency),
    ("video_reference_audio_unreadable", .generateDependency),
    ("project_deleted_during_task", .none),
    ("dispatch_provider_requeue_failed", .retry),
    ("restart_lost_image", .retry),
    ("restart_lost_audio", .retry),
    ("restart_lost_text", .retry),
    ("restart_lost_render", .retry),
    ("restart_lost_no_job_id", .retry),
    ("restart_lost_resume_no_job_id", .retry),
    ("restart_lost_checkpoint_no_job_id", .retry),
    ("resume_unsupported_provider", .retry),
    ("resume_unsupported_capacity_zero", .retry),
    ("resume_unsupported_detail", .retry),
    ("resume_expired_detail", .retry),
    ("resume_endpoint_changed_detail", .retry) ]

structure GenerationProblem where
  code : String
  detail : String
  action : GenerationAction
  params : Fields := []

structure ProviderCheckpoint where
  submitted : Bool
  providerId : Option String := none
  providerJobId : Option String := none
  deriving DecidableEq, Repr

def translateReservedParams : List String :=
  ["key", "locale"]

structure GenerationWarning where
  key : String
  params : Fields
  expandable : ∀ name ∈ translateReservedParams, params.lookup name = none

/-- A problem is carried exactly by the units that did not succeed. -/
structure GenerationItemResult where
  unitId : String
  state : GenerationItemState
  artifactKey : Option String := none
  artifactPath : Option String := none
  taskId : Option String := none
  taskState : GenerationTaskState := .notQueued
  artifactStatus : Option ArtifactStatus := none
  providerCheckpoint : Option ProviderCheckpoint := none
  problem : Option GenerationProblem := none
  warnings : List GenerationWarning := []
  problemMatchesState : problem.isNone ↔ state = .succeeded

structure GenerationSkippedItem where
  unitId : String
  artifactKey : Option String := none
  artifactPath : Option String := none
  artifactStatus : Option ArtifactStatus := none
  deriving DecidableEq, Repr

/-- Truth of a value; a float is the text `repr` gives it. -/
def truthy : Json → Bool
  | .null => false
  | .bool value => value
  | .int value => value ≠ 0
  | .float text => text ≠ "0.0" ∧ text ≠ "-0.0"
  | .string text => text ≠ ""
  | .list items => !items.isEmpty
  | .object fields => !fields.isEmpty

inductive ResultError where
  | blockedNotUnique
  | notAMapping
  | invalidProblem
  | invalidPath
  | malformedKey (key : String)
  | comparisonRaised (detail : String)
  | sets (text : String)
  deriving DecidableEq, Repr

/-- `(value or {}).get`, where a value that is not a mapping has no `get`. -/
def orEmpty (value : Json) : Except ResultError Fields :=
  if !truthy value then .ok []
  else
    match value with
    | .object fields => .ok fields
    | _ => .error .notAMapping

/-- `GenerationProblem.model_validate`. -/
def validateProblem : Json → Except ResultError GenerationProblem
  | .object fields =>
      if fields.any fun field => field.1 ∉ ["code", "detail", "action", "params"] then
        .error .invalidProblem
      else
        match fields.lookup "code", fields.lookup "detail", fields.lookup "action",
            (fields.lookup "params").getD (.object []) with
        | some (.string code), some (.string detail), some (.string action), .object params =>
            match parseAction action with
            | some action => .ok { code, detail, action, params }
            | none => .error .invalidProblem
        | _, _, _, _ => .error .invalidProblem
  | _ => .error .invalidProblem

def validatePath : Json → Except ResultError (Option String)
  | .null => .ok none
  | .string text => .ok (some text)
  | _ => .error .invalidPath

def jsonPath : Option String → Json
  | some text => .string text
  | none => .null

/-- One entry of `generation_warnings_from_result`. -/
def readWarning : Json → Option GenerationWarning
  | .object entry =>
      match entry.lookup "key" with
      | some (.string key) =>
          let params := match entry.lookup "params" with
            | some (.object params) => params
            | _ => []
          if h : key ≠ "" ∧ ∀ name ∈ translateReservedParams, (params.lookup name).isNone then
            some ⟨key, params, fun name hname => Option.isNone_iff_eq_none.mp (h.2 name hname)⟩
          else none
      | _ => none
  | _ => none

def generationWarningsFromResult (result : Fields) : List GenerationWarning :=
  match getField result "warnings" with
  | .list entries => entries.filterMap readWarning
  | _ => []

/-- Without an id of its own, an unsubmitted task is known by its provider or its checkpoint. -/
def providerCheckpointFromTask (task : Task) : Option ProviderCheckpoint :=
  let submitted := task.providerJobId.any (· ≠ "")
  if !submitted && task.providerId.isNone && !task.executionCheckpointJson.any (· ≠ "") then none
  else some { submitted, providerId := task.providerId, providerJobId := task.providerJobId }

/-- What `compare` raises: the kinds that `observe_artifact_status` reports as blocked, or another. -/
inductive CompareError where
  | unavailable (detail : String)
  | other (detail : String)
  deriving DecidableEq, Repr

structure ArtifactCurrencyResolver where
  Key : Type
  decode : String → Option Key
  compare : Key → (artifactPath : String) → Except CompareError ArtifactStatus

/-- `observe_artifact_status` under the key that `encoded` decodes to. -/
def observeArtifactStatus (resolver : ArtifactCurrencyResolver) (encoded : String)
    (artifactPath : Json) : Except ResultError (Option ArtifactStatus) :=
  match resolver.decode encoded with
  | none => .error (.malformedKey encoded)
  | some key =>
      match artifactPath with
      | .string path =>
          if path = "" then .ok (some .missing)
          else
            match resolver.compare key path with
            | .ok status => .ok (some status)
            | .error (.unavailable _) => .ok (some .blocked)
            | .error (.other detail) => .error (.comparisonRaised detail)
      | _ => .ok (some .missing)

/-- How a stored message is read: as a persisted problem, or as a registered structured reason. -/
structure StoredFailures where
  decodeGenerationProblem : String → Option GenerationProblem
  parseFailure : String → Option (String × Fields)

def cascadeFailureCode : String :=
  "cascade_blocked_dependency"

/-- `text or default`. -/
def orText (text : Option String) (default : String) : String :=
  (text.filter (· ≠ "")).getD default

def problemFromTaskFailure (failures : StoredFailures) (errorMessage : Option String)
    (cancelled : Bool) : GenerationProblem :=
  if cancelled then
    { code := "generation_task_cancelled", detail := orText errorMessage "task cancelled",
      action := .retry }
  else
    match errorMessage.bind failures.decodeGenerationProblem with
    | some persisted => persisted
    | none =>
        match errorMessage.bind failures.parseFailure with
        | none =>
            { code := "generation_task_failed", detail := orText errorMessage "task failed",
              action := .retry }
        | some (code, params) =>
            { code, detail := orText errorMessage code,
              action := (taskFailureActions.lookup code).getD .retry, params }

def dependencyFailureProblem (problem : GenerationProblem) (dependency : Option String)
    (dependencyNotQueued : Bool) : GenerationProblem :=
  match dependency with
  | none => problem
  | some dependency =>
      if problem.code ≠ cascadeFailureCode ∧ !dependencyNotQueued then problem
      else
        { code := "generation_dependency_failed"
          detail :=
            "batch dependency " ++ dependency ++ " did not succeed; this unit was not submitted"
          action := .generateDependency
          params := [("dependency", .string dependency)] }

/-- `enqueue_problem` of a target that was not interrupted. -/
def enqueueProblem (detail : Option String) : GenerationProblem where
  code := "generation_enqueue_failed"
  detail := orText detail "enqueue failed"
  action := .retry

structure BatchSets where
  operation : String
  selection : GenerationSelectionMode
  requested : List String
  succeeded : List String
  failed : List String
  blocked : List String
  skipped : List GenerationSkippedItem
  items : List GenerationItemResult

namespace BatchSets

variable (sets : BatchSets)

def bucket : GenerationItemState → List String
  | .succeeded => sets.succeeded
  | .failed => sets.failed
  | .blocked => sets.blocked

def union : List String :=
  sets.succeeded ++ sets.failed ++ sets.blocked

/-- What `_sets_are_exhaustive_and_exclusive` finds first. Two lists sort to the same list when one
is a permutation of the other. -/
def error : Option String :=
  match GenerationItemState.all.find? fun state => ¬ (sets.bucket state).Nodup with
  | some state => some ("duplicate ids in " ++ state.value)
  | none =>
      if ¬ sets.union.Nodup then
        some "succeeded / failed / blocked must be mutually exclusive"
      else if ¬ sets.union.Perm sets.requested.dedup ∨ ¬ sets.requested.Nodup then
        some "requested must equal succeeded ∪ failed ∪ blocked without duplicates"
      else if ¬ (sets.items.map (·.unitId)).Perm sets.requested then
        some "items must cover exactly the requested ids"
      else
        match sets.items.find? fun item => item.unitId ∉ sets.bucket item.state with
        | some item => some ("item " ++ item.unitId ++ " state does not match its bucket")
        | none =>
            if ¬ (sets.skipped.map (·.unitId)).Nodup then some "duplicate ids in skipped"
            else if ∃ entry ∈ sets.skipped, entry.unitId ∈ sets.requested then
              some "skipped ids must not appear in requested"
            else none

end BatchSets

structure GenerationBatchResult extends BatchSets where
  checked : toBatchSets.error = none

def checkSets (sets : BatchSets) : Except ResultError GenerationBatchResult :=
  match h : sets.error with
  | none => .ok { toBatchSets := sets, checked := h }
  | some text => .error (.sets text)

def setsOfItems (operation : String) (selection : GenerationSelectionMode)
    (skipped : List GenerationSkippedItem) (items : List GenerationItemResult) : BatchSets where
  operation
  selection
  requested := items.map (·.unitId)
  succeeded := (items.filter (·.state = .succeeded)).map (·.unitId)
  failed := (items.filter (·.state = .failed)).map (·.unitId)
  blocked := (items.filter (·.state = .blocked)).map (·.unitId)
  skipped
  items

/-- What the module promises of a result: each requested unit has one outcome. -/
structure BatchSets.Partitioned (sets : BatchSets) : Prop where
  distinct : sets.union.Nodup
  requested : sets.union.Perm sets.requested
  items : (sets.items.map (·.unitId)).Perm sets.requested
  buckets : ∀ item ∈ sets.items, item.unitId ∈ sets.bucket item.state
  skipped : (sets.skipped.map (·.unitId)).Nodup
  disjoint : ∀ entry ∈ sets.skipped, entry.unitId ∉ sets.requested

section SetsOfItems

variable {sets : BatchSets} {operation : String} {selection : GenerationSelectionMode}
  {skipped : List GenerationSkippedItem} {items : List GenerationItemResult}

theorem mem_all (state : GenerationItemState) : state ∈ GenerationItemState.all := by
  cases state <;> simp [GenerationItemState.all]

theorem nodup_all : GenerationItemState.all.Nodup := by
  decide

theorem nodup_bucket (hunion : sets.union.Nodup) (state : GenerationItemState) :
    (sets.bucket state).Nodup := by
  obtain ⟨hleft, hblocked, _⟩ := List.nodup_append.mp hunion
  obtain ⟨hsucceeded, hfailed, _⟩ := List.nodup_append.mp hleft
  cases state with
  | succeeded => exact hsucceeded
  | failed => exact hfailed
  | blocked => exact hblocked

theorem error_eq_none_iff : sets.error = none ↔ sets.Partitioned := by
  constructor
  · intro h
    unfold BatchSets.error at h
    split at h
    · cases h
    split at h
    · cases h
    rename_i hunion
    split at h
    · cases h
    rename_i hrequested
    split at h
    · cases h
    rename_i hitems
    split at h
    · cases h
    rename_i hmatch
    split at h
    · cases h
    rename_i hskipped
    split at h
    · cases h
    rename_i hdisjoint
    rw [not_or, not_not, not_not] at hrequested
    rw [List.dedup_eq_self.mpr hrequested.2] at hrequested
    refine ⟨not_not.mp hunion, hrequested.1, not_not.mp hitems, ?_, not_not.mp hskipped, ?_⟩
    · intro item hitem
      simpa using List.find?_eq_none.mp hmatch item hitem
    · intro entry hentry hmem
      exact hdisjoint ⟨entry, hentry, hmem⟩
  · intro h
    have hdistinct : sets.requested.Nodup := h.requested.nodup_iff.mp h.distinct
    have hbuckets : GenerationItemState.all.find? (fun state => ¬ (sets.bucket state).Nodup) =
        none := by
      apply List.find?_eq_none.mpr
      intro state _
      simpa using nodup_bucket h.distinct state
    have hmatch : sets.items.find? (fun item => item.unitId ∉ sets.bucket item.state) = none := by
      apply List.find?_eq_none.mpr
      intro item hitem
      simpa using h.buckets item hitem
    have hrequested : ¬ (¬ sets.union.Perm sets.requested.dedup ∨ ¬ sets.requested.Nodup) := by
      rw [List.dedup_eq_self.mpr hdistinct, not_or, not_not, not_not]
      exact ⟨h.requested, hdistinct⟩
    have hdisjoint : ¬ ∃ entry ∈ sets.skipped, entry.unitId ∈ sets.requested := by
      rintro ⟨entry, hentry, hmem⟩
      exact h.disjoint entry hentry hmem
    unfold BatchSets.error
    rw [hbuckets]
    dsimp only
    rw [if_neg (not_not_intro h.distinct), if_neg hrequested, if_neg (not_not_intro h.items), hmatch]
    dsimp only
    rw [if_neg (not_not_intro h.skipped), if_neg hdisjoint]

theorem GenerationBatchResult.partitioned (result : GenerationBatchResult) : result.Partitioned :=
  error_eq_none_iff.mp result.checked

theorem checkSets_eq_ok {result : GenerationBatchResult} (h : checkSets sets = .ok result) :
    result.toBatchSets = sets := by
  unfold checkSets at h
  split at h
  · rw [← Except.ok.inj h]
  · cases h

theorem checkSets_of_partitioned (h : sets.Partitioned) : ∃ result, checkSets sets = .ok result := by
  unfold checkSets
  split
  · exact ⟨_, rfl⟩
  · rename_i text hsome
    rw [error_eq_none_iff.mpr h] at hsome
    cases hsome

theorem bucket_setsOfItems (state : GenerationItemState) :
    (setsOfItems operation selection skipped items).bucket state =
      (part (·.state) items state).map (·.unitId) := by
  cases state <;> rfl

theorem union_setsOfItems_perm :
    (setsOfItems operation selection skipped items).union.Perm (items.map (·.unitId)) := by
  have hparts := (perm_parts nodup_all fun item (_ : item ∈ items) => mem_all item.state).map
    (·.unitId)
  simpa [GenerationItemState.all, BatchSets.union, setsOfItems, part] using hparts

theorem partitioned_setsOfItems (hitems : (items.map (·.unitId)).Nodup)
    (hskipped : (skipped.map (·.unitId)).Nodup)
    (hdisjoint : ∀ entry ∈ skipped, entry.unitId ∉ items.map (·.unitId)) :
    (setsOfItems operation selection skipped items).Partitioned where
  distinct := union_setsOfItems_perm.nodup_iff.mpr hitems
  requested := union_setsOfItems_perm
  items := List.Perm.refl _
  buckets := by
    intro item hitem
    rw [bucket_setsOfItems]
    exact List.mem_map_of_mem (mem_part.mpr ⟨hitem, rfl⟩)
  skipped := hskipped
  disjoint := hdisjoint

end SetsOfItems

end ShortReel.GenerationResults
