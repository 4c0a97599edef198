import ShortReel.EpisodeLedger

/-!
# Changes of source files

`source_file_changes.py`: a file of the whole source is edited, replaced, deleted, inserted or moved.
A change is planned, its impact is confirmed by a revision, and then the ledger and the files of the
episodes follow. The texts are normalized; the copies of the uploaded originals are left out.
-/

namespace ShortReel.SourceFileChanges

open SourceAlignment SourceRemap CutPlacements EpisodeLedger

/-- `crashed` stands for a `ValueError` that no caller expects. -/
inductive SourceFileChangeError where
  | ledgerInvalid
  | sourceFileNotFound
  | sourceFileUnreadable
  | sourceChanged
  | sourceTextEmpty
  | moveOutOfRange
  | conflict
  | crashed
  deriving DecidableEq, Repr

inductive MoveDirection where
  | up
  | down
  deriving DecidableEq, Repr

inductive Command where
  | edit (filename : String) (text : Text)
  | replace (filename : String) (text : Text) (kind : Option SourceKind)
  | delete (filename : String)
  | move (filename : String) (direction : MoveDirection)
  | insert (place : Option ℤ) (rel : String) (text : Text) (kind : Option SourceKind)
  deriving DecidableEq, Repr

structure SourceFileImpact where
  shifted : List ℕ
  changedWithProducts : List ℕ
  changedWithoutProducts : List ℕ
  retired : List ℕ
  removed : List ℕ
  kindStale : List ℕ
  deriving DecidableEq, Repr

def SourceFileImpact.isEmpty (impact : SourceFileImpact) : Bool :=
  [impact.shifted, impact.changedWithProducts, impact.changedWithoutProducts, impact.retired,
    impact.removed, impact.kindStale].all (·.isEmpty)

structure Change where
  docs : List SourceDoc
  remaps : List RangeRemap
  commit : Project → Project
  touched : List String := []
  reorder : Bool := false
  kindChange : Option (String × SourceKind) := none

structure SourceFileChangeOutcome where
  applied : Bool
  impact : SourceFileImpact
  revision : String
  project : Project

def orThrow {α : Type} (error : SourceFileChangeError) :
    Option α → Except SourceFileChangeError α
  | some a => pure a
  | none => throw error

section Plans

variable (matcher : SequenceMatcher) (digest : Text → String) (project : Project)

def filenameRel (filename : String) : Except SourceFileChangeError String :=
  let rel := "source/" ++ filename
  if '/' ∈ filename.toList ∨ '\\' ∈ filename.toList ∨ rel ∉ project.sources.map (·.rel) then
    throw .sourceFileNotFound
  else pure rel

def spans : Except SourceFileChangeError Spans :=
  orThrow .crashed (spansOf project.docs (project.entries.filterMap cutRange))

def requireText (text : Text) : Except SourceFileChangeError Unit :=
  if text.all isSpace then throw .sourceTextEmpty else pure ()

def rewrite (rel : String) (text : Text) (kind : Option SourceKind) (project : Project) : Project :=
  { project with
    sources := project.sources.map fun file =>
      if file.rel = rel then
        { file with
          text := some text
          kind := if project.contentMode = .drama then kind.getD file.kind else file.kind }
      else file }

def planRewrite (filename : String) (text : Text) (kind : Option SourceKind) :
    Except SourceFileChangeError Change := do
  let rel ← filenameRel project filename
  let doc ← orThrow .sourceFileUnreadable (project.docs.find? (·.relPath = rel))
  if project.changedOutsideService digest doc then throw .sourceChanged
  let ranges ← spans project
  let remaps ← orThrow .crashed (remapForEdit matcher project.docs ranges rel text)
  let changesKind : Bool := kind.isSome ∧ project.contentMode = .drama ∧
    project.wholeSourceFileKind rel ≠ kind
  return {
    docs := project.docs.map fun doc => if doc.relPath = rel then { doc with text } else doc
    remaps
    commit := rewrite rel text kind
    touched := [rel]
    kindChange := if changesKind then kind.map (rel, ·) else none }

def unreadableRemaps (ranges : Spans) (rel : String) : List RangeRemap :=
  ranges.map (fun (episode, span) => unchanged episode span) ++
    (project.entries.filterMap cutRange).filterMap fun (episode, span) =>
      if episode ∉ ranges.map Prod.fst ∧ rel ∈ [span.sourceFile, span.endFile] then
        some { episode, before := span, after := none, textChanged := true }
      else none

/-- `delete_whole_source_file`. -/
def planDelete (filename : String) : Except SourceFileChangeError Change := do
  let rel ← filenameRel project filename
  let ranges ← spans project
  let remaps ←
    if rel ∈ rels project.docs then orThrow .crashed (remapForDelete project.docs ranges rel)
    else pure (unreadableRemaps project ranges rel)
  return {
    docs := docsWithout project.docs rel
    remaps
    commit := fun project => { project with sources := project.sources.filter (·.rel ≠ rel) }
    touched := [rel] }

def swapAt {α : Type} (l : List α) (i : ℕ) : List α :=
  l.take i ++ ((l.drop (i + 1)).take 1 ++ ((l.drop i).take 1 ++ l.drop (i + 2)))

def docsOf (sources : List WholeSourceFile) : List SourceDoc :=
  sources.filterMap fun file => file.text.map ({ relPath := file.rel, text := · })

/-- Where the first of the two files stands that change places, if there are two. -/
def lowerIndex (count i : ℕ) : MoveDirection → Option ℕ
  | .up => if i = 0 then none else some (i - 1)
  | .down => if i + 1 < count then some i else none

/-- `move_whole_source_file`. -/
def planMove (filename : String) (direction : MoveDirection) :
    Except SourceFileChangeError Change := do
  let rel ← filenameRel project filename
  let i := (project.sources.map (·.rel)).idxOf rel
  let low ← orThrow .moveOutOfRange (lowerIndex project.sources.length i direction)
  let moved := ((project.sources.drop low).take 2).map (·.rel)
  if project.docs.any fun doc => doc.relPath ∈ moved ∧ project.changedOutsideService digest doc then
    throw .sourceChanged
  let newDocs := docsOf (swapAt project.sources low)
  let ranges ← spans project
  let remaps ←
    if rel ∈ rels project.docs then
      orThrow .crashed (remapForMove project.docs ranges rel ((rels newDocs).idxOf rel))
    else pure (ranges.map fun (episode, span) => unchanged episode span)
  return {
    docs := newDocs
    remaps
    commit := fun project => { project with sources := swapAt project.sources low }
    reorder := true }

def insertPosition (place : Option ℤ) : ℕ :=
  match place with
  | none => project.sources.length
  | some place => min place.toNat project.sources.length

/-- `insert_whole_source_file`. -/
def planInsert (place : Option ℤ) (rel : String) (text : Text) (kind : Option SourceKind) :
    Except SourceFileChangeError Change := do
  let position := insertPosition project place
  let ranges ← spans project
  let docIndex := (docsOf (project.sources.take position)).length
  let remaps ← orThrow .crashed (remapForInsert project.docs ranges docIndex)
  return {
    docs := project.docs
    remaps
    commit := fun project => { project with
      sources := project.sources.take position ++
        { rel, text := some text, kind := kind.getD .novel } :: project.sources.drop position } }

def Command.checkText : Command → Except SourceFileChangeError Unit
  | .edit _ text | .replace _ text _ => requireText text
  | _ => pure ()

def Command.plan : Command → Except SourceFileChangeError Change
  | .edit filename text => planRewrite matcher digest project filename text none
  | .replace filename text kind => planRewrite matcher digest project filename text kind
  | .delete filename => planDelete project filename
  | .move filename direction => planMove digest project filename direction
  | .insert place rel text kind => planInsert project place rel text kind

end Plans

/-- The order, parted in front of its anchors: what comes before the first, and a group for each. -/
def splitGroups (anchor : ℕ → Bool) : List ℕ → List ℕ × List (List ℕ)
  | [] => ([], [])
  | episode :: order =>
      let (head, groups) := splitGroups anchor order
      if anchor episode then ([], (episode :: head) :: groups) else (episode :: head, groups)

section Impacts

variable (change : Change)

def position (remap : RangeRemap) : Option (ℕ × ℕ × ℕ) :=
  remap.after.map fun after =>
    (remap.episode, (rels change.docs).idxOf after.sourceFile, after.start)

def positions : List (ℕ × ℕ × ℕ) :=
  change.remaps.filterMap (position change)

def groupPosition (group : List ℕ) : ℕ × ℕ :=
  ((group.head?.bind fun episode => (positions change).lookup episode).getD (0, 0))

def orderAfter (ids gone : List ℕ) : List ℕ :=
  let kept := ids.filter (· ∉ gone)
  let (head, groups) := splitGroups (· ∈ (positions change).map Prod.fst) kept
  let ordered :=
    if change.reorder then
      groups.mergeSort fun a b => !earlier (groupPosition change b) (groupPosition change a)
    else groups
  head ++ ordered.flatten

variable (project : Project) (hasScriptPlan : ℕ → Bool)

def idsOf (p : RangeRemap → Bool) : List ℕ :=
  project.ids.filter fun id => change.remaps.any fun remap => remap.episode = id ∧ p remap

def isShifted (order changed : List ℕ) (episode : ℕ) : Bool :=
  let before := project.ids.filter (· ∈ order)
  let ahead := order.take (order.idxOf episode)
  let aheadBefore := before.take (before.idxOf episode)
  episode ∈ order ∧ episode ∉ changed ∧
    (change.remaps.any (fun remap => remap.episode = episode ∧ remap.after ≠ some remap.before) ∨
      ¬ (ahead ⊆ aheadBefore ∧ aheadBefore ⊆ ahead))

/-- `_impact`: the impact, and the order afterwards. -/
def impactOf : SourceFileImpact × List ℕ :=
  let withProducts := (project.entries.filter project.hasProducts).map (·.episode)
  let gone := idsOf change project fun remap => remap.after = none
  let changed := idsOf change project fun remap => remap.after ≠ none ∧ remap.textChanged
  let order := orderAfter change project.ids gone
  let kindStale := idsOf change project fun remap =>
    match change.kindChange, remap.after with
    | some (rel, _), some after =>
        after.sourceFile = rel ∧ remap.episode ∉ changed ∧ hasScriptPlan remap.episode
    | _, _ => false
  ({ shifted := project.ids.filter (isShifted change project order changed)
     changedWithProducts := changed.filter (· ∈ withProducts)
     changedWithoutProducts := changed.filter (· ∉ withProducts)
     retired := gone.filter (· ∈ withProducts)
     removed := gone.filter (· ∉ withProducts)
     kindStale }, order)

end Impacts

def spanText (docs : List SourceDoc) (span : SourceSpan) : Option Text := do
  let first ← index docs span.sourceFile
  let last ← index docs span.endFile
  if last < first then none
  else
    let parts ← (List.range' first (last + 1 - first)).mapM fun i =>
      let low := if i = first then span.start else 0
      let high := if i = last then span.stop else lengthAt docs i
      if low ≤ high ∧ high ≤ lengthAt docs i then some (part docs first span.start last span.stop i)
      else none
    return parts.flatten

section Commits

variable (change : Change) (impact : SourceFileImpact)

def changedEpisodes : List ℕ :=
  impact.changedWithProducts ++ impact.changedWithoutProducts

def remappedEntry (entry : LedgerEntry) : LedgerEntry :=
  let ranged :=
    match change.remaps.find? (·.episode = entry.episode) with
    | some remap =>
        match remap.after with
        | some after => if after = remap.before then entry else { entry with sourceRange := .span after }
        | none => entry
    | none => entry
  if entry.episode ∈ changedEpisodes impact then markLedgerStale ranged else ranged

def writeEpisode (docs : List SourceDoc) (files : ℕ → Option Text) (remap : RangeRemap) :
    Except SourceFileChangeError (ℕ → Option Text) :=
  match remap.after with
  | none => pure files
  | some after =>
      if remap.episode ∈ changedEpisodes impact then do
        let text ← orThrow .conflict (spanText docs after)
        return Function.update files remap.episode (some text)
      else pure files

def recordFingerprints (digest : Text → String) (project : Project) (touched : List String) :
    List (String × String) :=
  project.fingerprints.filterMap fun (rel, fingerprint) =>
    if rel ∈ touched then
      (project.docs.find? (·.relPath = rel)).map fun doc => (rel, digest doc.text)
    else some (rel, fingerprint)

/-- `_apply`. -/
def applyChange (digest : Text → String) (committed : Project) (entries : List LedgerEntry)
    (order : List ℕ) : Except SourceFileChangeError Project := do
  let ordered := order.filterMap fun id => entries.find? (·.episode = id)
  let retired := impact.retired.filterMap fun id => entries.find? (·.episode = id)
  let moved := { committed with
    entries := ordered.map (remappedEntry change impact) ++ retired.map retire }
  let written ← change.remaps.foldlM (writeEpisode impact moved.docs) moved.files
  let synced := { moved with
    files := fun id => if id ∈ impact.retired ++ impact.removed then none else written id }
      |>.syncSourceSnapshots digest change.touched
  return { synced with fingerprints := recordFingerprints digest synced change.touched }

end Commits

/-- What `project.json` holds of a project. -/
def manifest (project : Project) :
    List (String × SourceKind) × List LedgerEntry × ℕ × List (String × String) × Option Bool :=
  (project.sources.map fun file => (file.rel, file.kind), project.entries, project.highWater,
    project.fingerprints, project.sourceRemaining)

/-- The end of `locked_source_registration`: what is left to plan is recorded again, and `project.json`
written when it is another one. -/
def leave (digest : Text → String) (before after : Project) : Project :=
  let recorded := after.recordSourceRemaining digest
  if manifest recorded = manifest before then { after with sourceRemaining := before.sourceRemaining }
  else recorded.raiseEpisodeIdHighWater

def run (matcher : SequenceMatcher) (digest : Text → String) (hasScriptPlan : ℕ → Bool)
    (revisionOf : Command → SourceFileImpact → String) (command : Command)
    (revision : Option String) (dryRun : Bool) (project : Project) :
    Except SourceFileChangeError SourceFileChangeOutcome := do
  command.checkText
  let entries ← orThrow .ledgerInvalid project.wellFormedLedgerEntries
  let change ← command.plan matcher digest project
  let (impact, order) := impactOf change project hasScriptPlan
  let current := revisionOf command impact
  if dryRun ∨ (¬ impact.isEmpty ∧ revision ≠ some current) then
    return { applied := false, impact, revision := current, project := leave digest project project }
  else
    let applied ← applyChange change impact digest (change.commit project) entries order
    return { applied := true, impact, revision := current, project := leave digest project applied }

end ShortReel.SourceFileChanges
