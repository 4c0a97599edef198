import Mathlib.Data.List.Lattice
import ShortReel.TimelineOperations

/-!
# The timeline commands

Content differences of `operations.py` and the commands of `service.py`: creating a timeline from
the script, copying, editing with optimistic concurrency, and restoring an older revision. The
episode lock of the store makes each command one atomic step; times and random ids are inputs.
-/

namespace ShortReel.TimelineService

open TimelineModel TimelineOperations

section LongestCommonSubsequence

variable {α : Type} [DecidableEq α]

/-- The cells of a table row from left to right: `q` is the cell before, `p` the one above it. -/
def rowFrom (a : α) (q p : ℕ) : List ℕ → List α → List ℕ
  | above :: row, b :: right =>
      let cell := if a = b then p + 1 else max above q
      cell :: rowFrom a cell above row right
  | _, _ => []

def nextRow (right : List α) (row : List ℕ) (a : α) : List ℕ :=
  match row with
  | p :: rest => 0 :: rowFrom a 0 p rest right
  | [] => []

/-- `lengths[i][j]`: how long the longest common subsequence of the two prefixes is. -/
def lengths (left right : List α) : List (List ℕ) :=
  left.scanl (nextRow right) (List.replicate (right.length + 1) 0)

def lengthAt (table : List (List ℕ)) (i j : ℕ) : ℕ :=
  (table.getD i []).getD j 0

/-- Walks the table back from the last cell; the two prefixes are given last element first. Each
step shortens one of them, so their lengths together are fuel enough. -/
def backtrack (table : List (List ℕ)) : ℕ → List α → List α → List α
  | fuel + 1, a :: left, b :: right =>
      if a = b then a :: backtrack table fuel left right
      else if lengthAt table (left.length + 1) right.length ≤
          lengthAt table left.length (right.length + 1) then
        backtrack table fuel left (b :: right)
      else backtrack table fuel (a :: left) right
  | _, _, _ => []

def longestCommonSubsequence (left right : List α) : List α :=
  backtrack (lengths left right) (left.length + right.length) left.reverse right.reverse

end LongestCommonSubsequence

/-- All ids of a content: the keys of the dictionaries `diff_content` compares. -/
def contentIds (content : EditTimelineContent) : List ClipId :=
  content.clips.map (·.id) ++ content.bgm.map (·.id)

def itemAt (content : EditTimelineContent) (id : ClipId) : Option (EditClip ⊕ BgmClip) :=
  ((content.clips.find? (·.id = id)).map Sum.inl).or ((content.bgm.find? (·.id = id)).map Sum.inr)

structure ContentDiff where
  added : List ClipId
  removed : List ClipId
  modified : List ClipId
  moved : List ClipId

def ContentDiff.changed (diff : ContentDiff) : List ClipId :=
  diff.added ∪ diff.removed ∪ diff.modified ∪ diff.moved

def diffContent (before after : EditTimelineContent) : ContentDiff :=
  let commonBefore := (before.clips.map (·.id)).filter (· ∈ contentIds after)
  let commonAfter := (after.clips.map (·.id)).filter (· ∈ contentIds before)
  let inOrder := longestCommonSubsequence commonBefore commonAfter
  { added := (contentIds after).filter (· ∉ contentIds before)
    removed := (contentIds before).filter (· ∉ contentIds after)
    modified := (contentIds before).filter fun id =>
      id ∈ contentIds after ∧ itemAt before id ≠ itemAt after id
    moved := commonBefore.filter (· ∉ inOrder) }

/-- Replacing the whole content: once the order has changed, every clip both contents share counts
as changed. -/
def restoreChangedClipIds (before after : EditTimelineContent) : List ClipId :=
  let diff := diffContent before after
  if diff.moved = [] then diff.changed
  else diff.changed ∪ (after.clips.map (·.id)).filter (· ∈ before.clips.map (·.id))

inductive ServiceError where
  | apply (error : ApplyError)
  | contentInvalid (error : ContentError)
  | documentInvalid
  | revisionNotFound (timelineId : String) (revision latestRevision : ℕ)
  | revisionConflict (timelineId : String) (baseRevision latestRevision : ℕ)
      (conflictingClipIds : List ClipId)
  | revisionUnchanged (timelineId : String) (revision latestRevision : ℕ)
  | revisionSummaryInvalid
  | noOperations
  deriving DecidableEq, Repr

instance (nextClipNumber nextBgmNumber : ℕ+) (revisions : List TimelineRevision) :
    Decidable (RevisionChain nextClipNumber nextBgmNumber revisions) :=
  decidable_of_iff
    (revisions ≠ [] ∧
      revisions.map (·.number) = (List.range revisions.length).map (· + 1) ∧
      (∀ revision ∈ revisions, ∀ clip ∈ revision.content.clips, clip.number < nextClipNumber) ∧
      ∀ revision ∈ revisions, ∀ clip ∈ revision.content.bgm, clip.number < nextBgmNumber)
    ⟨fun ⟨h₁, h₂, h₃, h₄⟩ => ⟨h₁, h₂, h₃, h₄⟩, fun ⟨h₁, h₂, h₃, h₄⟩ => ⟨h₁, h₂, h₃, h₄⟩⟩

def validateDocument (id : String) (episode : ℕ) (name createdAt : String)
    (nextClipNumber nextBgmNumber : ℕ+) (revisions : List TimelineRevision) :
    Except ServiceError EditTimelineDocument :=
  if chain : RevisionChain nextClipNumber nextBgmNumber revisions then
    .ok { id, episode, name, createdAt, nextClipNumber, nextBgmNumber, revisions, chain }
  else .error .documentInvalid

def appendRevision (document : EditTimelineDocument) (nextClipNumber nextBgmNumber : ℕ+)
    (revision : TimelineRevision) : Except ServiceError EditTimelineDocument :=
  validateDocument document.id document.episode document.name document.createdAt nextClipNumber
    nextBgmNumber (document.revisions ++ [revision])

def mechanicalCreationSummary : String := "按当前脚本机械新建：每个视频单元整段使用、全部硬切"

def revisionSummaryMaxLength : ℕ := 200

/-- Every unit of the script once, whole and hard cut, carrying its own narration. -/
def mechanicalContent (script : EpisodeScriptUnits) : Except ContentError EditTimelineContent :=
  validateContent
    (script.units.mapIdx fun index unit =>
      { number := index.succPNat
        unitId := unit.unitId
        sourceVolume := defaultSourceVolume unit.speechMode
        carriesNarration := true })
    []

/-- What a command takes from outside: who runs it and when, and the id of a new timeline. -/
structure CommandInput where
  author : RevisionAuthor
  now : String
  newId : String := ""
  name : String := ""

def newDocument (episode : ℕ) (content : EditTimelineContent) (summary : String)
    (nextClipNumber nextBgmNumber : ℕ+) (input : CommandInput) :
    Except ServiceError EditTimelineDocument :=
  validateDocument input.newId episode input.name input.now nextClipNumber nextBgmNumber
    [{ number := 1, author := input.author, summary, createdAt := input.now, content }]

/-- `_create_from_script_sync`. -/
def createFromScript (script : EpisodeScriptUnits) (input : CommandInput) :
    Except ServiceError EditTimelineDocument := do
  let content ← (mechanicalContent script).mapError .contentInvalid
  newDocument script.episode content mechanicalCreationSummary content.clips.length.succPNat 1 input

def baseRevision (document : EditTimelineDocument) (number : ℕ) :
    Except ServiceError TimelineRevision :=
  match document.revision number with
  | some revision => .ok revision
  | none => .error (.revisionNotFound document.id number document.latest.number)

/-- `_copy_sync`: the content of a revision in a new timeline, with the source's allocators. -/
def copy (source : EditTimelineDocument) (revision : Option ℕ) (input : CommandInput) :
    Except ServiceError EditTimelineDocument := do
  let target ← baseRevision source (revision.getD source.latest.number)
  newDocument source.episode target.content s!"复制自「{source.name}」的修订 {target.number}"
    source.nextClipNumber source.nextBgmNumber input

structure Written where
  document : EditTimelineDocument
  baseRevision : ℕ
  previousLatest : TimelineRevision
  affected : List ClipId
  deleted : List ClipId

def successors (content : EditTimelineContent) : List (ClipId × ClipId) :=
  (content.clips.map (·.id)).zip (content.clips.map (·.id)).tail

def changedSince : List TimelineRevision → List ClipId
  | previous :: revision :: rest =>
      revision.changedClipIds.getD (diffContent previous.content revision.content).changed ∪
        changedSince (revision :: rest)
  | _ => []

/-- The clips whose transition a `set_transition` sets although they are followed by another clip
on the latest revision than on the base. -/
def movedCuts (operations : List TimelineOperation) (onBase onLatest : EditTimelineContent) :
    List ClipId :=
  (operations.filterMap fun operation =>
    match operation with
    | .setTransition clip _ =>
        if (successors onBase).lookup clip ≠ (successors onLatest).lookup clip then some clip
        else none
    | _ => none).dedup

section Edit

variable (document : EditTimelineDocument) (sources : EpisodeSources)

/-- `reject`, when there is something to reject. -/
def rejectConflicts (base : TimelineRevision) (conflicting : List ClipId) :
    Except ServiceError Unit :=
  if conflicting = [] then .ok ()
  else .error (.revisionConflict document.id base.number document.latest.number
    (sortedClipIds conflicting))

def applyTo (content : EditTimelineContent) (operations : List TimelineOperation)
    (checkWindows : Bool) : Except ServiceError AppliedBatch :=
  (applyOperations content document.nextClipNumber document.nextBgmNumber operations sources
    checkWindows).mapError .apply

/-- `_check_conflicts`: two dry runs, on the base and on the latest revision, then the batch on
the latest revision. -/
def checkConflicts (base : TimelineRevision) (operations : List TimelineOperation) :
    Except ServiceError AppliedBatch := do
  let sinceBase := changedSince (document.revisions.drop (base.number - 1))
  let onBase ← applyTo document sources base.content operations false
  let touched := onBase.referenced ∪ onBase.lastOperation.keys
  rejectConflicts document base (touched.filter (· ∈ sinceBase))
  let onLatest ← applyTo document sources document.latest.content operations false
  rejectConflicts document base (onLatest.lastOperation.keys.filter (· ∈ sinceBase))
  rejectConflicts document base (movedCuts operations onBase.content onLatest.content)
  applyTo document sources document.latest.content operations true

/-- The batch as `_edit_sync` applies it: against conflicts when the base is not the latest
revision. -/
def applyEdit (base : TimelineRevision) (operations : List TimelineOperation) :
    Except ServiceError AppliedBatch :=
  if base.number ≠ document.latest.number then checkConflicts document sources base operations
  else applyTo document sources document.latest.content operations true

def editSync (baseNumber : ℕ) (summary : String) (operations : List TimelineOperation)
    (input : CommandInput) : Except ServiceError Written := do
  let base ← baseRevision document baseNumber
  let latest := document.latest
  let applied ← applyEdit document sources base operations
  let changes := diffContent latest.content applied.content
  let updated ← appendRevision document applied.nextClipNumber applied.nextBgmNumber {
    number := latest.number + 1
    parent := some latest.number
    author := input.author
    summary
    createdAt := input.now
    content := applied.content
    changedClipIds := some (sortedClipIds applied.lastOperation.keys) }
  return {
    document := updated
    baseRevision := base.number
    previousLatest := latest
    affected := (applied.targets ∪ changes.added ∪ changes.modified).filter (· ∉ changes.removed)
    deleted := changes.removed }

/-- `edit`: the summary is stripped and bounded, and there is something to do. -/
def edit (baseNumber : ℕ) (summary : String) (operations : List TimelineOperation)
    (input : CommandInput) : Except ServiceError Written :=
  let normalizedSummary := strip summary
  if normalizedSummary = "" ∨ revisionSummaryMaxLength < normalizedSummary.length then
    .error .revisionSummaryInvalid
  else if operations = [] then .error .noOperations
  else editSync document sources baseNumber normalizedSummary operations input

end Edit

/-- `_restore_sync`: the content of an older revision as a new one; history is not rewritten. -/
def restore (document : EditTimelineDocument) (number : ℕ) (input : CommandInput) :
    Except ServiceError Written := do
  let target ← baseRevision document number
  let latest := document.latest
  if target.content = latest.content then
    .error (.revisionUnchanged document.id number latest.number)
  else
    let changed := restoreChangedClipIds latest.content target.content
    let updated ← appendRevision document document.nextClipNumber document.nextBgmNumber {
      number := latest.number + 1
      parent := some latest.number
      author := input.author
      summary := s!"回滚到修订 {number}，撤销之后的改动；回滚前的修订仍保留在历史里"
      createdAt := input.now
      content := target.content
      changedClipIds := some (sortedClipIds changed)
      restoredFrom := some number }
    let changes := diffContent latest.content target.content
    return {
      document := updated
      baseRevision := latest.number
      previousLatest := latest
      affected := changed.filter (· ∉ changes.removed)
      deleted := changes.removed }

end ShortReel.TimelineService
