import ShortReel.InsertionDict
import ShortReel.ManualSplit
import ShortReel.RestoringTransactions
import ShortReel.ScriptEditor

/-!
# Editing a script in batches

`script_batch_edit.py`: operations on the items of a script, one after the other, and the commit of the
script, the project and the manifest as one. Where in the script a problem lies is left out.
-/

namespace ShortReel.ScriptBatchEdit

open InsertionDict
open LedgerFile (Json Fields getField setField popField isNull)
open RestoringTransactions ScriptEditor

inductive Operation where
  | update (id : String) (fields : List (List String × Json))
  | insertAfter (afterId : Option String) (item : Fields)
  | moveAfter (id : String) (afterId : Option String)
  | remove (id : String)

abbrev Removed := Dict String Fields

/-- `str`, and what counts as zero of the numbers. -/
structure PythonText where
  str : Json → String
  isZero : String → Bool
  str_string : ∀ text, str (.string text) = text

/-- What is known of the speech of an item: how it is prepared, the marker of replanning apart, and
whether that is allowed. -/
structure Speech (α : Type) where
  preparation : Kind → Fields → α
  allowed : Kind → Fields → Bool

section Operations

variable {α : Type} [DecidableEq α] (python : PythonText) (speech : Speech α)

def visualLayerFields : Kind → List String
  | .videoUnits => ["text"]
  | _ => ["image_prompt", "video_prompt"]

def visualFieldFilled : Json → Bool
  | .null => false
  | .bool value => value
  | .int value => value ≠ 0
  | .float text => !python.isZero text
  | .string text => ManualSplit.strip text.toList ≠ []
  | .list items => !items.isEmpty
  | .object fields => !fields.isEmpty

def visualLayerComplete (kind : Kind) (item : Fields) : Bool :=
  (visualLayerFields kind).all fun field => visualFieldFilled python (getField item field)

def plannedUnit (unit : Fields) : Bool :=
  match getField unit "text", getField unit "duration_seconds" with
  | .string text, .int duration => ManualSplit.strip text.toList ≠ [] && 0 < duration
  | _, _ => false

def refreshVideoUnitReplanState (unit : Fields) : Fields :=
  if !plannedUnit unit then setField unit "needs_replan" (.bool true)
  else if !speech.allowed .videoUnits unit then setField unit "needs_replan" (.bool true)
  else popField unit "needs_replan"

def clearPending (kind : Kind) (roots : List String) (item : Fields) : Fields :=
  if (visualLayerFields kind).any (· ∈ roots) && visualLayerComplete python kind item then
    popField item "pending_authoring"
  else item

def refreshMarkers (kind : Kind) (roots : List String) (old item : Fields) : Fields :=
  let item := clearPending python kind roots item
  if kind = .videoUnits then
    if "text" ∈ roots ∨ "duration_seconds" ∈ roots then refreshVideoUnitReplanState speech item
    else item
  else if speech.preparation kind item ≠ speech.preparation kind old ∧ speech.allowed kind item then
    popField item "needs_replan"
  else item

def markPending (kind : Kind) (item : Fields) : Fields :=
  let item := popField item "pending_authoring"
  if visualLayerComplete python kind item then item
  else setField item "pending_authoring" (.bool true)

def objectOrEmpty : Json → Json
  | .object fields => .object fields
  | _ => .object []

def withMedia (item : Fields) : Option Fields → Fields
  | none => popField (setField item "generated_assets" (.object [])) "end_frame_image"
  | some removed =>
      let item := setField item "generated_assets"
        (objectOrEmpty (getField removed "generated_assets"))
      let endFrame := getField removed "end_frame_image"
      if isNull endFrame then popField item "end_frame_image"
      else setField item "end_frame_image" endFrame

def insertedItem (kind : Kind) (item : Fields) (removed : Option Fields) : Fields :=
  let item := withMedia (markPending python kind item) removed
  if kind = .videoUnits then refreshVideoUnitReplanState speech item else item

def insertIndex (kind : Kind) (items : List Json) : Option String → Except ScriptEditError ℕ
  | none => .ok 0
  | some id => (findIndex python.str kind items id).map (· + 1)

def require (condition : Bool) (error : ScriptEditError) : Except ScriptEditError Unit :=
  if condition then .ok () else .error error

def insertedId (kind : Kind) (item : Fields) : Except ScriptEditError String :=
  match getField item kind.idField with
  | .string id => if id = "" then .error .itemWithoutId else .ok id
  | _ => .error .itemWithoutId

/-- `_apply_operation`: the id, the script and the items that are removed. -/
def applyOperation (script : Fields) (operation : Operation) (removed : Removed)
    (preserveRemovedAssets : Bool) : Except ScriptEditError (String × Fields × Removed) :=
  match operation with
  | .update id fields => do
      let view ← resolveItems script
      let index ← findIndex python.str view.kind view.items id
      let script ← fields.foldlM (fun script field => patchField python.str script id field.1 field.2)
        script
      let patched ← resolveItems script
      let item := refreshMarkers python speech view.kind (fields.map fun field => field.1.headD "")
        (objectAt view.items index) (objectAt patched.items index)
      return (id, putItems script patched (patched.items.set index (.object item)), removed)
  | .insertAfter afterId item => do
      let view ← resolveItems script
      let id ← insertedId view.kind item
      require (view.items.all fun existing => itemId python.str view.kind existing ≠ some id)
        (.duplicateId id)
      let index ← insertIndex python view.kind view.items afterId
      let origin := if preserveRemovedAssets then get removed id else none
      let item := insertedItem python speech view.kind item origin
      return (id, putItems script view (view.items.insertIdx index (.object item)),
        InsertionDict.remove removed id)
  | .moveAfter id afterId => do
      require (afterId ≠ some id) .ownAnchor
      let view ← resolveItems script
      let source ← findIndex python.str view.kind view.items id
      let item := objectAt view.items source
      let items := view.items.eraseIdx source
      let index ← insertIndex python view.kind items afterId
      return (id, putItems script view (items.insertIdx index (.object item)), removed)
  | .remove id => do
      let view ← resolveItems script
      let index ← findIndex python.str view.kind view.items id
      return (id, putItems script view (view.items.eraseIdx index),
        put removed id (objectAt view.items index))

def operationId : Operation → Option String
  | .update id _ => some id
  | .insertAfter _ item =>
      (["segment_id", "scene_id", "shot_id", "unit_id"].findSome? fun field =>
        match getField item field with
        | .string id => some id
        | _ => none)
  | .moveAfter id _ => some id
  | .remove id => some id

structure Progress where
  script : Fields
  removed : Removed
  affectedIds : List String
  freshInsertIds : List String

def isInsert : Operation → Bool
  | .insertAfter _ _ => true
  | _ => false

def runOperation (freshInsertIndexes : List ℕ) (progress : Progress) (index : ℕ)
    (operation : Operation) : Except ScriptEditError Progress := do
  let known := match operationId operation with
    | some id => keys progress.removed |>.contains id
    | none => false
  let fresh := isInsert operation && (index ∈ freshInsertIndexes || !known)
  let (id, script, removed) ← applyOperation python speech progress.script operation progress.removed
    (index ∉ freshInsertIndexes)
  return { script, removed
           affectedIds :=
             if id ∈ progress.affectedIds then progress.affectedIds else progress.affectedIds ++ [id]
           freshInsertIds :=
             if fresh ∧ id ∉ progress.freshInsertIds then progress.freshInsertIds ++ [id]
             else progress.freshInsertIds }

def runOperations (freshInsertIndexes : List ℕ) :
    Progress → ℕ → List Operation → Except (ℕ × ScriptEditError) Progress
  | progress, _, [] => .ok progress
  | progress, index, operation :: operations =>
      match runOperation python speech freshInsertIndexes progress index operation with
      | .ok progress => runOperations freshInsertIndexes progress (index + 1) operations
      | .error error => .error (index, error)

end Operations

structure Problem where
  code : String
  reason : String
  nextAction : String
  operationIndex : Option ℕ
  deriving DecidableEq, Repr

structure Command where
  episode : Option ℤ
  expectedRevision : String
  operations : List Operation
  freshInsertIndexes : List ℕ

variable {π κ ν α : Type} [DecidableEq κ] [DecidableEq α]

abbrev Manifest (κ ν : Type) := κ → Option ν

structure World (π κ ν : Type) where
  script : Fields
  project : π
  manifest : Manifest κ ν

structure ManifestPlan (κ ν : Type) where
  expected : Dict κ (Option ν)
  replacements : Dict κ (Option ν)

/-- What the edit asks of the rest: of the project, of the checks of a script and of the manifest. -/
structure Surroundings (π κ ν α : Type) where
  python : PythonText
  speech : Speech α
  migrationVerdict : Option String
  rebound : Bool
  filenameEpisode : Option ℤ
  revision : Fields → String
  episodeIs : Json → ℤ → Bool
  speechProblem : Fields → Fields → Option Problem
  structureValid : Fields → Bool
  sourceTextVerbatim : Fields → Fields → Bool
  referencesValid : π → Fields → Bool
  manifestPlan : π → Fields → List String → List String → Option (Option (ManifestPlan κ ν))
  nameConsistent : Fields → Bool
  stampMetadata : Json → Json
  syncProject : π → Fields → π
  namespaceUnique : π → Bool

structure CommitFaults where
  script : Fault
  project : Fault
  manifest : Fault

structure Receipt where
  revision : String
  affectedIds : List String
  deriving DecidableEq, Repr

section Execute

variable (around : Surroundings π κ ν α)

def problem (code reason nextAction : String) : Problem :=
  { code, reason, nextAction, operationIndex := none }

def check (condition : Bool) (failure : Problem) : Except Problem Unit :=
  if condition then .ok () else .error failure

def refuse : Option Problem → Except Problem Unit
  | some failure => .error failure
  | none => .ok ()

def orRefuse {β : Type} (failure : Problem) : Option β → Except Problem β
  | some b => .ok b
  | none => .error failure

def isString : Json → Bool
  | .string text => text ≠ ""
  | _ => false

/-- `_check_unit_id_unique`, over the units. -/
def unitIdsUnique (items : List Json) : Bool :=
  items.all (fun item =>
    match item with
    | .object fields => isString (getField fields "unit_id")
    | _ => true) &&
  decide (items.filterMap (itemId around.python.str .videoUnits)).Nodup

/-- `validate_episode_payload`. -/
def payloadValid (project : π) (script : Fields) : Bool :=
  (match resolveItems script with
  | .ok view => if view.kind = .videoUnits then unitIdsUnique around view.items else true
  | .error _ => true) &&
  around.referencesValid project script

structure Prepared (κ ν : Type) where
  progress : Progress
  plan : Option (ManifestPlan κ ν)

def operationFailure (failure : ℕ × ScriptEditError) : Problem :=
  { code := "operation_invalid", reason := "operation_invalid", nextAction := "fix_operation"
    operationIndex := some failure.1 }

def resourceIds (script : Fields) : List String :=
  match resolveItems script with
  | .ok view => view.items.filterMap (itemId around.python.str view.kind)
  | .error _ => []

/-- What `execute` does before it writes. -/
def preflight (command : Command) (world : World π κ ν) : Except Problem (Prepared κ ν) := do
  refuse (around.migrationVerdict.map fun reason =>
    problem "project_migration_failed" reason "retry_project_migration")
  check (!around.rebound) (problem "revision_conflict" "script_binding_changed" "refresh_script")
  check (command.expectedRevision = around.revision world.script)
    (problem "revision_conflict" "revision_mismatch" "refresh_script")
  check ((command.episode.orElse fun _ => around.filenameEpisode).all
      (around.episodeIs (getField world.script "episode")))
    (problem "schema_invalid" "episode_binding_mismatch" "refresh_script")
  let _ ← (resolveItems world.script).mapError fun _ =>
    problem "schema_invalid" "stored_schema_invalid" "repair_script"
  let start : Progress :=
    { script := world.script, removed := [], affectedIds := [], freshInsertIds := [] }
  let progress ← (runOperations around.python around.speech command.freshInsertIndexes start 0
    command.operations).mapError operationFailure
  refuse (around.speechProblem world.script progress.script)
  check (around.structureValid progress.script)
    (problem "schema_invalid" "candidate_schema_invalid" "fix_operation")
  check (around.sourceTextVerbatim world.script progress.script)
    (problem "source_text_not_verbatim" "source_text_not_verbatim" "fix_operation")
  check (payloadValid around world.project progress.script)
    (problem "references_invalid" "candidate_references_invalid" "fix_operation")
  let plan ← orRefuse (problem "manifest_invalid" "artifact_manifest_unavailable" "retry")
    (around.manifestPlan world.project progress.script
      (progress.affectedIds.filter (· ∉ resourceIds around progress.script))
      progress.freshInsertIds)
  return { progress, plan }

/-- `NarrationSegment` takes a retired field off the segment it is given. -/
def stripLegacyFields (kind : Kind) : Json → Json
  | .object fields => .object (if kind = .segments then popField fields "clues_in_segment" else fields)
  | item => item

def validatedScript (script : Fields) : Fields :=
  match resolveItems script with
  | .ok view => putItems script view (view.items.map (stripLegacyFields view.kind))
  | .error _ => script

def commitFailure : Problem :=
  problem "commit_failed" "durable_commit_failed" "retry"

def replaceEntries (entries : Dict κ (Option ν)) (manifest : Manifest κ ν) : Manifest κ ν :=
  fun key => (get entries key).getD (manifest key)

def observedEntries (plan : ManifestPlan κ ν) (manifest : Manifest κ ν) : Dict κ (Option ν) :=
  (keys plan.expected ++ keys plan.replacements).map fun key => (key, manifest key)

/-- `register_artifact_entries_atomically`: a write that fails is taken back. -/
def commitManifest [DecidableEq ν] (plan : ManifestPlan κ ν) (fault : Fault) :
    EStateM Problem (World π κ ν) PUnit := fun world =>
  let observed := observedEntries plan world.manifest
  let after (manifest : Manifest κ ν) := replaceEntries plan.replacements manifest
  if plan.expected.all (fun entry => world.manifest entry.1 = entry.2) then
    (tryCatch (write fault commitFailure fun world => { world with manifest := after world.manifest })
      fun error => do
        modify fun world => { world with manifest := replaceEntries observed world.manifest }
        throw error) world
  else .error commitFailure world

/-- What `formal_write_transaction` puts back. -/
def restoreFormal (before after : World π κ ν) : World π κ ν :=
  { after with script := before.script, project := before.project }

def commit [DecidableEq ν] (faults : CommitFaults) (prepared : Prepared κ ν) :
    EStateM Problem (World π κ ν) PUnit :=
  transaction restoreFormal do
    let validated := validatedScript prepared.progress.script
    let script := setField validated "metadata" (around.stampMetadata (getField validated "metadata"))
    if !around.nameConsistent script then throw commitFailure
    else
      write faults.script commitFailure fun world => { world with script }
      let project := around.syncProject (← MonadState.get).project script
      if !around.namespaceUnique project then throw commitFailure
      else
        write faults.project commitFailure fun world => { world with project }
        match prepared.plan with
        | some plan => commitManifest plan faults.manifest
        | none => pure ⟨⟩

def execute [DecidableEq ν] (faults : CommitFaults) (command : Command) :
    EStateM Problem (World π κ ν) Receipt := fun world =>
  match preflight around command world with
  | .error failure => .error failure world
  | .ok prepared =>
      (do
        commit around faults prepared
        return { revision := around.revision (← MonadState.get).script
                 affectedIds := prepared.progress.affectedIds } :
        EStateM Problem (World π κ ν) Receipt) world

end Execute

end ShortReel.ScriptBatchEdit
