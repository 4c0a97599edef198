import ShortReel.JsonReading
import ShortReel.ShrinkingTexts

/-!
# Stored task failures

`task_failure.py`: a failure is stored as its code and a JSON object of parameters, and a stored text
is bounded by cutting the strings among its parameters. Texts are code points, and what the
interpreter decides (its floats, how deep JSON may nest) is a parameter.
-/

namespace ShortReel.TaskFailures

open InsertionDict JsonText ShrinkingTexts

def capabilityFailureCodes : List String :=
  ["image_capability_missing_i2i", "image_capability_missing_t2i", "image_dashscope_4k_t2i_only",
    "image_endpoint_mismatch_no_i2i", "image_endpoint_mismatch_no_t2i",
    "image_reference_images_unreadable", "ref_payload_floor_exceeded",
    "video_capability_missing_t2v", "video_duration_invalid", "video_duration_not_supported",
    "video_end_image_requires_start_image", "video_end_image_unreadable",
    "video_last_frame_requires_pro", "video_last_frame_unsupported", "video_prompt_too_long",
    "video_reference_images_duration_unsupported", "video_reference_images_exceeded",
    "video_reference_images_required", "video_reference_images_unreadable",
    "video_reference_images_unsupported", "video_reference_images_with_frames_unsupported",
    "video_reference_resolution_unsupported", "video_reference_audio_duration_exceeded",
    "video_reference_audio_exceeded", "video_reference_audio_format_unsupported",
    "video_reference_audio_slots_insufficient", "video_reference_audio_unreadable",
    "video_reference_audio_unsupported", "video_aspect_ratio_not_supported",
    "video_resolution_duration_unsupported", "video_resolution_not_supported",
    "video_start_image_unreadable"]

def referenceProjectionFailureCodes : List String :=
  ["reference_asset_missing", "reference_asset_unregistered", "reference_capability_changed",
    "reference_capability_unavailable", "needs_replan",
    "reference_duration_confirmation_required", "reference_supported_durations_incompatible",
    "reference_supported_durations_invalid", "reference_supported_durations_missing",
    "video_audio_switch_not_supported", "video_capability_missing_i2v",
    "video_capability_missing_r2v", "video_capability_reference_unavailable"]

def generationInputFailureCodes : List String :=
  ["asset_description_required", "asset_original_missing", "derivative_description_required",
    "derivative_owner_sheet_missing", "reference_asset_missing", "reference_asset_unregistered",
    "script_prompt_pending"]

def videoRequestFactsFailureCodes : List String :=
  ["video_audio_switch_not_supported", "video_capability_unavailable",
    "video_supported_durations_incompatible", "video_supported_durations_invalid",
    "video_supported_durations_missing"]

def taskFailureCodes : List String :=
  ["provider_unsupported_media", "provider_rejected", "dispatch_provider_requeue_failed",
    "project_deleted_during_task", "restart_lost_image", "restart_lost_audio",
    "restart_lost_text", "restart_lost_render", "restart_lost_no_job_id",
    "restart_lost_resume_no_job_id", "resume_unsupported_provider",
    "resume_unsupported_capacity_zero", "resume_unsupported_detail", "resume_expired_detail",
    "resume_endpoint_changed_detail", "declarative_template_render_failed",
    "declarative_response_extract_failed", "declarative_image_save_failed",
    "comfyui_image_drop_unsupported", "comfyui_upload_failed", "comfyui_node_errors",
    "comfyui_job_lost", "comfyui_execution_error", "comfyui_interrupted",
    "comfyui_output_missing", "comfyui_output_type_mismatch", "comfyui_output_container_mismatch",
    "artifact_download_failed", "restart_lost_checkpoint_no_job_id",
    "execution_identity_unrecoverable", "script_edit_error", "script_edit_items_not_list",
    "script_edit_unit_lists_invalid", "script_edit_generated_assets_invalid",
    "cascade_blocked_dependency"]

/-- The keys of `FAILURE_CODE_KEYS`. -/
def failureCodes : List Text :=
  (capabilityFailureCodes ++ referenceProjectionFailureCodes ++ generationInputFailureCodes ++
    videoRequestFactsFailureCodes ++ taskFailureCodes).map text

def inputFailureCodes : List Text :=
  generationInputFailureCodes.map text

def cascadeFailureCode : Text :=
  text "cascade_blocked_dependency"

def maxCascadeUnwrap : ℕ := 100

/-- The interpreter: its floats, and how deep a value may nest before reading or writing it
overflows the stack. -/
structure Interpreter (F : Type) where
  floats : Floats F
  readDepth : ℕ
  writeDepth : ℕ

/-- Its floats are read back, and the few levels of a failure do not overflow the stack. -/
structure Interpreter.Lawful {F : Type} (python : Interpreter F) : Prop where
  floats : python.floats.Lawful
  readDepth : 4 ≤ python.readDepth
  writeDepth : 4 ≤ python.writeDepth

section Failures

variable {F : Type}

mutual

/-- Whether an integer is too long for `int.__repr__`, which then raises. -/
def hasLongInt : Json F → Bool
  | .int value => 10 ^ maxStrDigits ≤ value.natAbs
  | .list items => hasLongIntItems items
  | .object fields => hasLongIntFields fields
  | .null | .bool _ | .float _ | .string _ => false

def hasLongIntItems : List (Json F) → Bool
  | [] => false
  | item :: items => hasLongInt item || hasLongIntItems items

def hasLongIntFields : List (Text × Json F) → Bool
  | [] => false
  | (_, value) :: fields => hasLongInt value || hasLongIntFields fields

end

mutual

def nesting : Json F → ℕ
  | .list items => nestingItems items + 1
  | .object fields => nestingFields fields + 1
  | .null | .bool _ | .int _ | .float _ | .string _ => 0

def nestingItems : List (Json F) → ℕ
  | [] => 0
  | item :: items => max (nesting item) (nestingItems items)

def nestingFields : List (Text × Json F) → ℕ
  | [] => 0
  | (_, value) :: fields => max (nesting value) (nestingFields fields)

end

/-- `$` also holds before a final newline. -/
def beforeEnd (t : Text) : Text :=
  if t.getLast? = some 10 then t.dropLast else t

/-- What `_STRUCTURED_RE` finds in a text with a registered code. Those consist of word characters,
so that the code ends at the first bracket. -/
def structured (t : Text) : Option (Text × Option Text) :=
  match t with
  | 91 :: t =>
      let code := t.takeWhile (· ≠ 93)
      if code ∉ failureCodes then none
      else
        match t.dropWhile (· ≠ 93) with
        | [] => none
        | _ :: tail =>
            match beforeEnd tail with
            | [] => some (code, none)
            | 32 :: body =>
                if body.head? = some 123 ∧ body.getLast? = some 125 then some (code, some body)
                else none
            | _ => none
  | _ => none

variable (python : Interpreter F)

def parseFailure (errorMessage : Text) : Option (Text × Fields F) :=
  match structured errorMessage with
  | none => none
  | some (code, none) => some (code, [])
  | some (code, some rawParams) =>
      match loads python.floats python.readDepth rawParams with
      | some (.object params) => some (code, params)
      | _ => none

/-- `json.dumps` with sorted keys. -/
def dumpsSorted (value : Json F) : Text :=
  dumps python.floats.toText (sortKeys value)

/-- `encode_failure` of a registered code. -/
def encodeFailure (code : Text) (params : Fields F) : Text :=
  if params.isEmpty then 91 :: code ++ [93]
  else 91 :: code ++ 93 :: 32 :: dumpsSorted python (.object params)

/-- The fuel is one more than the unwrappings that `seen` allows. -/
def unwrapCascade : ℕ → Text → Text
  | 0, reason => reason
  | fuel + 1, reason =>
      match parseFailure python reason with
      | none => reason
      | some (code, params) =>
          if code ≠ cascadeFailureCode then reason
          else
            match get params (text "reason") with
            | some (.string nested) => unwrapCascade fuel nested
            | _ => reason

def collapseCascadeReason (reason : Text) : Text :=
  unwrapCascade python (maxCascadeUnwrap + 1) reason

/-- The text of a string, or of a container that `_as_shrinkable` turned into one. -/
def shrinkableText (value : Json F) : Option Text :=
  match value with
  | .string value => some value
  | .list _ | .object _ =>
      if nesting value ≤ python.writeDepth then some (dumps python.floats.toText value)
      else some (text "…")
  | .null | .bool _ | .int _ | .float _ => none

def validationMessage : Json F → Option (Text × Fields F)
  | .object fields =>
      match get fields (text "key"), get fields (text "params") with
      | some (.string key), some (.object params) =>
          if fields.all fun field => field.1 = text "key" ∨ field.1 = text "params" then
            some (key, params)
          else none
      | _, _ => none
  | _ => none

structure Gap where
  code : Text
  assetType : Option Text
  name : Text

def assetTypes : List Text :=
  [text "character", text "scene", text "prop", text "product"]

def readAssetType : Option (Json F) → Option (Option Text)
  | none | some .null => some none
  | some (.string value) => if value ∈ assetTypes then some (some value) else none
  | _ => none

def readGap : Json F → Option Gap
  | .object fields =>
      match get fields (text "code"), get fields (text "name"),
          readAssetType (get fields (text "asset_type")) with
      | some (.string code), some (.string name), some assetType =>
          if code ∈ inputFailureCodes then some { code, assetType, name } else none
      | _, _, _ => none
  | _ => none

def inputGaps (code : Text) (parsed : Fields F) : Option (List Gap) :=
  if code ∈ inputFailureCodes then
    match get parsed (text "gaps") with
    | some (.list gaps) => gaps.mapM readGap
    | _ => none
  else none

def keptGaps (gaps : List Gap) : List Gap :=
  gaps.foldl (fun kept gap => if gap.code ∈ kept.map (·.code) then kept else kept ++ [gap]) []

/-- The number of gaps left out before, a truth value counting as a number. -/
def omittedBefore (parsed : Fields F) : ℤ :=
  match get parsed (text "gaps_omitted") with
  | some (.int omitted) => omitted
  | some (.bool true) => 1
  | _ => 0

inductive Slot where
  | param (key : Text)
  | gapName (code : Text)
  | detailParam (key : Text)
  deriving DecidableEq

inductive Part (F : Type) where
  | scalar (value : Json F)
  | string
  | message (key : Text) (params : List (Text × Option (Json F)))
  | gaps (kept : List Gap)

def scalarOf (value : Json F) : Option (Json F) :=
  if (shrinkableText python value).isSome then none else some value

def partOf (key : Text) (value : Json F) : Part F :=
  match (if key = text "detail" then validationMessage value else none) with
  | some (messageKey, params) =>
      .message messageKey (params.map fun field => (field.1, scalarOf python field.2))
  | none =>
      match scalarOf python value with
      | some value => .scalar value
      | none => .string

def prepare (code : Text) (parsed : Fields F) : List (Text × Part F) :=
  let parts := parsed.map fun field => (field.1, partOf python field.1 field.2)
  match inputGaps code parsed with
  | none => parts
  | some gaps =>
      put (put parts (text "gaps") (.gaps (keptGaps gaps))) (text "gaps_omitted")
        (.scalar (.int (omittedBefore parsed + gaps.length - (keptGaps gaps).length)))

def Part.isString : Part F → Bool
  | .string => true
  | _ => false

def gapSlots (parts : List (Text × Part F)) : List Slot :=
  parts.flatMap fun part =>
    match part.2 with
    | .gaps kept => kept.map fun gap => .gapName gap.code
    | _ => []

def messageSlots (parts : List (Text × Part F)) : List Slot :=
  parts.flatMap fun part =>
    match part.2 with
    | .message _ params => (params.filter (·.2.isNone)).map fun field => .detailParam field.1
    | _ => []

def slotsOf (parts : List (Text × Part F)) : List Slot :=
  (parts.filter (·.2.isString)).map (fun part => .param part.1) ++ gapSlots parts ++
    messageSlots parts

def initialTexts (code : Text) (parsed : Fields F) : Slot → Text
  | .param key => ((get parsed key).bind (shrinkableText python)).getD []
  | .gapName gapCode =>
      (((inputGaps code parsed).getD []).find? (·.code = gapCode)).elim [] (·.name)
  | .detailParam key =>
      ((((get parsed (text "detail")).bind validationMessage).bind fun message =>
        get message.2 key).bind (shrinkableText python)).getD []

def fillGap (texts : Slot → Text) (gap : Gap) : Json F :=
  .object [(text "code", .string gap.code),
    (text "asset_type", gap.assetType.elim .null .string),
    (text "name", .string (texts (.gapName gap.code)))]

def fillPart (texts : Slot → Text) (key : Text) : Part F → Json F
  | .scalar value => value
  | .string => .string (texts (.param key))
  | .message messageKey params =>
      .object [(text "key", .string messageKey),
        (text "params", .object (params.map fun field =>
          (field.1, field.2.getD (.string (texts (.detailParam field.1))))))]
  | .gaps kept => .list (kept.map (fillGap texts))

def fill (texts : Slot → Text) (parts : List (Text × Part F)) : Fields F :=
  parts.map fun part => (part.1, fillPart texts part.1 part.2)

/-- `bound_reason`; nothing stands for the `ValueError` that writing too long a number raises. -/
def boundReason (reason : Text) (limit : ℕ) : Option Text :=
  if reason.length ≤ limit then some reason
  else
    match structured reason with
    | none => some (reason.take limit)
    | some (_, none) => some (reason.take limit)
    | some (code, some rawParams) =>
        match loads python.floats python.readDepth rawParams with
        | some (.object parsed) =>
            let parts := prepare python code parsed
            let encode := fun texts => encodeFailure python code (fill texts parts)
            if (slotsOf parts).isEmpty then some (reason.take limit)
            else if hasLongInt (.object (fill (fun _ => []) parts)) then none
            else
              match shrink (fun texts => (encode texts).length) (slotsOf parts) limit
                  (initialTexts python code parsed) with
              | some texts => some (encode texts)
              | none => some (reason.take limit)
        | _ => some (reason.take limit)

end Failures

end ShortReel.TaskFailures
