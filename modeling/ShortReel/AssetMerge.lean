import ShortReel.ReferenceCatalog

/-!
# Merging assets

`asset_merge.py`, and `merge_asset` of `project_manager.py`: an asset is merged into another of its
type. Its references name the other one, and its derivatives move to it, unless it has one of that name.
-/

namespace ShortReel.AssetMerge

open InsertionDict ReferenceCatalog
open SourceAlignment (Text)

local instance lawfulText : LawfulBEq Text := List.instLawfulBEq

inductive MergeError where
  | typeNotMergeable
  | derivativeNeedsCharacter
  | notFound (name : Text)
  | sameAsset
  | entriesMustBeObjects
  | relocationCollision
  | nameConflict
  | invalidProject
  deriving DecidableEq, Repr

/-- `MERGEABLE_ASSET_TYPES`: the types with aliases. -/
def mergeable : AssetType → Bool
  | .product => false
  | _ => true

structure DerivativeMergePlan where
  created : Option Text
  moved : List Text
  folded : List Text
  deriving DecidableEq, Repr

structure AssetMergeReport where
  source : Text
  target : Text
  asDerivative : Bool
  aliasesAdded : List Text
  derivativeCreated : Option Text
  derivativesMoved : List Text
  derivativesFolded : List Text
  deriving DecidableEq, Repr

/-- Where a reference stands in a script: an item of a list, a speaker, the target of a new asset, or a
mention in a text or in the description of a scene, where it may speak. -/
inductive Site where
  | name
  | speaker
  | target
  | text (speaks : Bool)
  | scene (speaks : Bool)
  deriving DecidableEq, Repr

def Site.takesAsset : Site → Bool
  | .speaker => true
  | .target => true
  | .text speaks => speaks
  | .name => false
  | .scene _ => false

structure Payload where
  lists : List (List Text)
  targets : List Text
  speakers : List Text
  texts : List (Text × Bool)
  scenes : List (Text × Bool)
  deriving DecidableEq, Repr

def Payload.references (payload : Payload) : List (Site × Text) :=
  payload.lists.flatten.map (.name, ·) ++ payload.targets.map (.target, ·) ++
    payload.speakers.map (.speaker, ·) ++
    payload.texts.map (fun mention => (.text mention.2, mention.1)) ++
    payload.scenes.map (fun mention => (.scene mention.2, mention.1))

/-- What the merge of a project depends on besides: whether the sheets of the derivatives can be moved,
and whether the merged project has no errors that the project has not. -/
structure MergeChecks where
  relocates : Text → Text → List Text → Bool
  validates : Project → Project → Bool

section References

variable (forms : NameForms)

def mergedReference (name source target : Text) (asDerivative speaker : Bool) : Option Text :=
  let key := assetNameComparisonKey forms name
  let sourceKey := assetNameComparisonKey forms source
  let (base, derivative) := splitDerivativeReference key
  if derivative ≠ [] then
    if base = sourceKey then some (derivativeReference target derivative) else none
  else if key ≠ sourceKey then none
  else if asDerivative && !speaker then some (derivativeReference target sourceKey)
  else some target

def dropRepeated (written : List Text) : List Text → List Text → List Text
  | _, [] => []
  | seen, item :: items =>
      let key := assetNameComparisonKey forms item
      if key ∈ written ∧ key ∈ seen then dropRepeated written seen items
      else item :: dropRepeated written (key :: seen) items

section Payloads

variable (assetType : AssetType) (source target : Text) (asDerivative : Bool)

def mergedAt (site : Site) (name : Text) : Option Text :=
  mergedReference forms name source target asDerivative site.takesAsset

def rewritten (site : Site) (name : Text) : Text :=
  (mergedAt forms source target asDerivative site name).getD name

/-- `merge_payload_references`. The speakers are characters. -/
def mergePayloadReferences (payload : Payload) : Payload :=
  let rewritten := rewritten forms source target asDerivative
  let merged := payload.lists.flatten.filterMap (mergedAt forms source target asDerivative .name) ++
    payload.targets.filterMap (mergedAt forms source target asDerivative .target)
  let written := merged.map (assetNameComparisonKey forms)
  { lists := payload.lists.map fun items =>
      dropRepeated forms written [] (items.map (rewritten .name))
    targets := payload.targets.map (rewritten .target)
    speakers :=
      if assetType = .character then payload.speakers.map (rewritten .speaker)
      else payload.speakers
    texts := payload.texts.map fun mention => (rewritten (.text mention.2) mention.1, mention.2)
    scenes := payload.scenes.map fun mention => (rewritten (.scene mention.2) mention.1, mention.2) }

end Payloads

/-- The loop over the derivatives of the source: those that move, and those that fold into one that is
there. -/
def sortDerivatives : List Text → List Text → List Text × List Text
  | _, [] => ([], [])
  | taken, name :: names =>
      let key := assetNameComparisonKey forms name
      if key ∈ taken then
        let (moved, folded) := sortDerivatives taken names
        (moved, name :: folded)
      else
        let (moved, folded) := sortDerivatives (key :: taken) names
        (name :: moved, folded)

def planDerivativeMerge (sourceEntry targetEntry : AssetValue) (source : Text)
    (asDerivative : Bool) : DerivativeMergePlan :=
  let taken := (keys (derivativeTable targetEntry)).map (assetNameComparisonKey forms)
  let sourceKey := assetNameComparisonKey forms source
  let created := if asDerivative ∧ sourceKey ∉ taken then some sourceKey else none
  let (moved, folded) := sortDerivatives forms
    (if asDerivative then sourceKey :: taken else taken) (keys (derivativeTable sourceEntry))
  { created, moved, folded }

def recordAssetAliases (entry : AssetEntry) (aliases : List Text) (assetName : Text) : AssetEntry :=
  let nameKey := assetNameComparisonKey forms assetName
  let kept := (entry.aliases.getD []).filter fun item => assetNameComparisonKey forms item ≠ nameKey
  let added := aliases.foldl
    (fun kept name =>
      let key := assetNameComparisonKey forms name
      if key = [] ∨ key = nameKey ∨ key ∈ kept.map (assetNameComparisonKey forms) then kept
      else kept ++ [key]) kept
  if added ≠ [] ∨ entry.aliases.isSome then { entry with aliases := some added } else entry

def derivativeSheetRelativePath (owner derivative : Text) : Text :=
  "characters/derivatives/".toList ++ owner ++ '/' :: derivative ++ ".png".toList

/-- `rewrite_derivative_sheet_paths`, of one derivative. -/
def rewriteSheetPath (oldOwner newOwner name : Text) : DerivativeValue → DerivativeValue
  | .malformed => .malformed
  | .entry derivative =>
      let renamed := derivativeSheetRelativePath newOwner name
      match derivative.sheet with
      | none => .entry derivative
      | some sheet =>
          let current := forms.posixPath (sheet.map fun c => if c = '\\' then '/' else c)
          if sheet = [] ∨ sheet = renamed ∨
              forms.nfc current ≠ forms.nfc (derivativeSheetRelativePath oldOwner name) then
            .entry derivative
          else .entry { derivative with sheet := some renamed }

def createdDerivative (discarded : AssetEntry) : DerivativeValue :=
  .entry { description := some (discarded.description.getD []), sheet := some [] }

def mergedDerivatives (source target : Text) (discarded : AssetEntry)
    (table : Dict Text DerivativeValue) (plan : DerivativeMergePlan) : Dict Text DerivativeValue :=
  let created := match plan.created with
    | none => table
    | some name => put table name (createdDerivative discarded)
  plan.moved.foldl
    (fun table name => putSome table name ((get (discarded.derivatives.getD []) name).map
      (rewriteSheetPath forms source target name)))
    created

def mergedEntry (source target : Text) (asDerivative : Bool) (discarded kept : AssetEntry)
    (plan : DerivativeMergePlan) : AssetEntry :=
  let kept :=
    if asDerivative then kept
    else recordAssetAliases forms kept (source :: discarded.aliases.getD []) target
  if plan.created = none ∧ plan.moved = [] then kept
  else
    { kept with
      derivatives := some (mergedDerivatives forms source target discarded
        (kept.derivatives.getD []) plan) }

/-- `project_asset_name_conflicts`, when there is one. -/
def hasNameConflict (project : Project) : Bool :=
  ¬ ((([.character, .scene, .prop, .product] : List AssetType).flatMap fun assetType =>
    (keys (project.bucket assetType)).map (assetNameComparisonKey forms)).Nodup)

def require (condition : Bool) (error : MergeError) : Except MergeError Unit :=
  if condition then pure () else throw error

def orThrow {α : Type} (error : MergeError) : Option α → Except MergeError α
  | some a => pure a
  | none => throw error

def entryOf (bucket : Dict Text AssetValue) (name : Text) : Option AssetEntry :=
  match get bucket name with
  | some (.entry asset) => some asset
  | _ => none

def derivativePlan (assetType : AssetType) (discarded kept : AssetEntry) (source : Text)
    (asDerivative : Bool) : DerivativeMergePlan :=
  if assetType.supportsDerivatives then
    planDerivativeMerge forms (.entry discarded) (.entry kept) source asDerivative
  else { created := none, moved := [], folded := [] }

def mergedProject (project : Project) (assetType : AssetType) (source target : Text)
    (entry : AssetEntry) : Project :=
  { project with
    bucket := Function.update project.bucket assetType
      (put (remove (project.bucket assetType) source) target (.entry entry)) }

/-- `merge_asset`: the report, the merged project and the scripts and drafts. -/
def mergeAsset (checks : MergeChecks) (project : Project) (payloads : List Payload)
    (assetType : AssetType) (sourceName targetName : Text) (asDerivative : Bool) :
    Except MergeError (AssetMergeReport × Project × List Payload) := do
  require (mergeable assetType) .typeNotMergeable
  require (!asDerivative || assetType.supportsDerivatives) .derivativeNeedsCharacter
  let bucket := project.bucket assetType
  let source ← orThrow (.notFound sourceName)
    (resolveAssetKey forms bucket (assetNameComparisonKey forms sourceName))
  let target ← orThrow (.notFound targetName)
    (resolveAssetKey forms bucket (assetNameComparisonKey forms targetName))
  require (source ≠ target) .sameAsset
  let discarded ← orThrow .entriesMustBeObjects (entryOf bucket source)
  let kept ← orThrow .entriesMustBeObjects (entryOf bucket target)
  let plan := derivativePlan forms assetType discarded kept source asDerivative
  require (checks.relocates source target plan.moved) .relocationCollision
  let entry := mergedEntry forms source target asDerivative discarded kept plan
  let merged := mergedProject project assetType source target entry
  require (!(project.uniqueNamespace && hasNameConflict forms merged)) .nameConflict
  require (checks.validates project merged) .invalidProject
  let before := kept.aliases.getD []
  return ({ source, target, asDerivative
            aliasesAdded := (entry.aliases.getD []).filter (· ∉ before)
            derivativeCreated := plan.created
            derivativesMoved := plan.moved
            derivativesFolded := plan.folded },
    merged, payloads.map (mergePayloadReferences forms assetType source target asDerivative))

end References

end ShortReel.AssetMerge
