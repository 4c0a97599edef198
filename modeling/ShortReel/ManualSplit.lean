import ShortReel.EpisodeLedger
import Mathlib.Algebra.GroupWithZero.Nat

/-!
# Manual splits

`episode_manual_split.py`: the creator sets the borders of the episodes on the whole source. A command
is planned on a layout as an edit, and the edit is applied to the ledger and the episode files.
-/

namespace ShortReel.ManualSplit

open EditScripts SourceAlignment SourceRemap SourcePlaces CutPlacements EpisodeLedger

inductive ManualSplitError where
  | ledgerInvalid
  | sourceFileNotFound
  | positionInvalid
  | episodeNotFound
  | episodeNotPlaced
  | emptyRange
  | insideEpisode
  | noAdjacentEpisode
  | crossesSourceKind
  | noNextEpisode
  | mergeAcrossKinds
  | nothingAfter
  | sourceChanged
  | conflict
  deriving DecidableEq, Repr

def ManualSplitError.code : ManualSplitError → String
  | ledgerInvalid => "ledger_invalid"
  | sourceFileNotFound => "source_file_not_found"
  | positionInvalid => "position_invalid"
  | episodeNotFound => "episode_not_found"
  | episodeNotPlaced => "episode_not_placed"
  | emptyRange => "empty_range"
  | insideEpisode => "inside_episode"
  | noAdjacentEpisode => "no_adjacent_episode"
  | crossesSourceKind => "crosses_source_kind"
  | noNextEpisode => "no_next_episode"
  | mergeAcrossKinds => "merge_across_kinds"
  | nothingAfter => "nothing_after"
  | sourceChanged => "source_changed"
  | conflict => "conflict"

structure ManualSplitImpact where
  restaled : List ℕ
  retired : List ℕ
  removed : List ℕ
  mergedUnits : ℕ
  deriving DecidableEq, Repr

/-- A change of the ledger. The ranges are over the files one behind the other. -/
structure Edit where
  touchesSource : Bool := false
  ranges : List (ℕ × ℕ × ℕ) := []
  newRange : Option (ℕ × ℕ) := none
  newTitle : Text := []
  insertBefore : ℕ := 0
  dropped : List ℕ := []
  mergedUnits : ℕ := 0
  deriving DecidableEq, Repr

structure Layout where
  docs : List SourceDoc
  entries : List LedgerEntry
  placements : List CutPlacement
  kindWalls : List ℕ
  deriving DecidableEq, Repr

namespace Layout

variable (layout : Layout)

def text : Text :=
  wholeText layout.docs

/-- `units_between`: the reading units are counted file by file. -/
def unitsBetween (countReadingUnits : Text → ℕ) (start stop : ℕ) : ℕ :=
  ((List.range layout.docs.length).map fun i =>
    let low := max start (base layout.docs i)
    let high := min stop (base layout.docs (i + 1))
    if low < high then
      countReadingUnits
        (slice (textAt layout.docs i) (low - base layout.docs i) (high - base layout.docs i))
    else 0).sum

def docIndex (sourceFile : String) : Except ManualSplitError ℕ :=
  match index layout.docs sourceFile with
  | some i => pure i
  | none => throw .sourceFileNotFound

def toGlobal (sourceFile : String) (offset : ℤ) : Except ManualSplitError ℕ := do
  let i ← layout.docIndex sourceFile
  if 0 ≤ offset ∧ offset ≤ lengthAt layout.docs i then return base layout.docs i + offset.toNat
  else throw .positionInvalid

/-- `start_point`: at a file boundary, the beginning of the later file. -/
def startPoint (position : ℕ) : Option (String × ℕ) :=
  match (List.range layout.docs.length).find? fun i =>
      base layout.docs i ≤ position ∧ position < base layout.docs (i + 1) with
  | some i => (rels layout.docs)[i]?.map (·, position - base layout.docs i)
  | none => layout.docs.getLast?.map fun doc => (doc.relPath, doc.text.length)

/-- `end_point`: at a file boundary, the end of the earlier file. -/
def endPoint (position : ℕ) : Option (String × ℕ) :=
  match (List.range layout.docs.length).find? fun i =>
      base layout.docs i < position ∧ position ≤ base layout.docs (i + 1) with
  | some i => (rels layout.docs)[i]?.map (·, position - base layout.docs i)
  | none => layout.docs.head?.map fun doc => (doc.relPath, 0)

def span (item : CutPlacement) : ℕ × ℕ :=
  (base layout.docs item.place.first + item.place.start,
    base layout.docs item.place.last + item.place.stop)

def filesBetween (start stop : ℕ) : List SourceDoc :=
  ((List.range layout.docs.length).filter fun i =>
    base layout.docs i < stop ∧ start < base layout.docs (i + 1)).filterMap (layout.docs[·]?)

def wallsInside (span : ℕ × ℕ) : List ℕ :=
  layout.kindWalls.filter fun wall => span.1 < wall ∧ wall < span.2

def placement (episode : ℕ) : Except ManualSplitError CutPlacement :=
  if episode ∉ layout.entries.map (·.episode) then throw .episodeNotFound
  else
    match layout.placements.find? (·.episode = episode) with
    | some item => pure item
    | none => throw .episodeNotPlaced

def ordered : List CutPlacement :=
  layout.placements.mergeSort fun a b => !earlier b.position a.position

def entryIndex (episode : ℕ) : ℕ :=
  layout.entries.findIdx (·.episode = episode)

end Layout

def kindWalls (project : Project) : List ℕ :=
  let kinds := (rels project.docs).map project.wholeSourceFileKind
  (List.range' 1 (project.docs.length - 1)).filterMap fun i =>
    if kinds[i]? = kinds[i - 1]? then none else some (base project.docs i)

/-- `_layout`. -/
def layoutOf (project : Project) : Except ManualSplitError Layout :=
  match project.wellFormedLedgerEntries with
  | none => throw .ledgerInvalid
  | some entries =>
      pure { docs := project.docs, entries, placements := project.placements
             kindWalls := kindWalls project }

section Plans

variable (layout : Layout)

def requireText (start stop : ℕ) : Except ManualSplitError Unit :=
  if (slice layout.text start stop).all isSpace then throw .emptyRange else pure ()

def requireInside (at' low high : ℕ) : Except ManualSplitError Unit :=
  if low < at' ∧ at' < high then pure () else throw .positionInvalid

def requireSameKind (new old : ℕ × ℕ) : Except ManualSplitError Unit :=
  if layout.wallsInside new ⊆ layout.wallsInside old then pure () else throw .crossesSourceKind

def strip (text : Text) : Text :=
  ((text.dropWhile isSpace).reverse.dropWhile isSpace).reverse

def cutInsertIndex (position : ℕ × ℕ) : ℕ :=
  let before := layout.ordered.filter fun item => earlier item.position position
  let after := layout.ordered.filter fun item => !earlier item.position position
  match before.getLast?, after.head? with
  | some item, _ => layout.entryIndex item.episode + 1
  | none, some item => layout.entryIndex item.episode
  | none, none =>
      match layout.entries.reverse.findIdx? isCutEpisode with
      | some i => layout.entries.length - i
      | none => layout.entries.length

def planCut (sourceFile : String) (stop : ℤ) (title : Text) : Except ManualSplitError Edit := do
  let i ← layout.docIndex sourceFile
  if ¬ (0 < stop ∧ stop ≤ lengthAt layout.docs i) then throw .positionInvalid
  let point ← layout.toGlobal sourceFile stop
  let spans := layout.ordered.map layout.span
  if spans.any fun (low, high) => low < point ∧ point < high then throw .insideEpisode
  let starts := (spans.map Prod.snd).filter (· ≤ point) ++ layout.kindWalls.filter (· < point)
  let start := starts.foldl max 0
  requireText layout start point
  return { touchesSource := true, newRange := some (start, point), newTitle := strip title
           insertBefore := cutInsertIndex layout (i, stop.toNat) }

def pointFile (sourceFile : Option String) (i : ℕ) : String :=
  match sourceFile with
  | some file => if file = "" then ((rels layout.docs)[i]?).getD "" else file
  | none => ((rels layout.docs)[i]?).getD ""

def planSplit (episode : ℕ) (offset : ℤ) (sourceFile : Option String) :
    Except ManualSplitError Edit := do
  let item ← layout.placement episode
  let (low, high) := layout.span item
  let point ← layout.toGlobal (pointFile layout sourceFile item.place.first) offset
  requireInside point low high
  requireText layout low point
  requireText layout point high
  return { touchesSource := true, ranges := [(episode, low, point)], newRange := some (point, high)
           insertBefore := layout.entryIndex episode + 1 }

def planMove (episode : ℕ) (offset : ℤ) (sourceFile : Option String) :
    Except ManualSplitError Edit := do
  let left ← layout.placement episode
  let leftSpan := layout.span left
  match layout.ordered.find? fun item =>
      (layout.span item).1 = leftSpan.2 ∧ (layout.span item).1 < (layout.span item).2 with
  | none => throw .noAdjacentEpisode
  | some right =>
      let rightSpan := layout.span right
      let point ← layout.toGlobal (pointFile layout sourceFile left.place.last) offset
      requireInside point leftSpan.1 rightSpan.2
      if point = leftSpan.2 then throw .positionInvalid
      requireText layout leftSpan.1 point
      requireText layout point rightSpan.2
      requireSameKind layout (leftSpan.1, point) leftSpan
      requireSameKind layout (point, rightSpan.2) rightSpan
      return { touchesSource := true
               ranges := [(left.episode, leftSpan.1, point), (right.episode, point, rightSpan.2)] }

def planMerge (countReadingUnits : Text → ℕ) (episode : ℕ) : Except ManualSplitError Edit := do
  let item ← layout.placement episode
  match (layout.ordered.drop (layout.ordered.idxOf item + 1)).head? with
  | none => throw .noNextEpisode
  | some next =>
      let own := layout.span item
      let nextSpan := layout.span next
      let merged := (own.1, nextSpan.2)
      if ¬ layout.wallsInside merged ⊆ layout.wallsInside own ++ layout.wallsInside nextSpan then
        throw .mergeAcrossKinds
      return { touchesSource := true, ranges := [(episode, merged)], dropped := [next.episode]
               mergedUnits := layout.unitsBetween countReadingUnits own.2 nextSpan.1 }

def planClearAfter (episode : ℕ) : Except ManualSplitError Edit := do
  let item ← layout.placement episode
  let after := (layout.ordered.filter fun other => earlier item.position other.position).map
    (·.episode)
  if after = [] then throw .nothingAfter
  return { dropped := (layout.entries.map (·.episode)).filter (· ∈ after) }

end Plans

inductive Command where
  | cut (sourceFile : String) (stop : ℤ) (title : Text)
  | split (episode : ℕ) (offset : ℤ) (sourceFile : Option String)
  | move (episode : ℕ) (offset : ℤ) (sourceFile : Option String)
  | merge (episode : ℕ)
  | clearAfter (episode : ℕ)
  deriving DecidableEq, Repr

def Command.plan (countReadingUnits : Text → ℕ) (layout : Layout) :
    Command → Except ManualSplitError Edit
  | cut sourceFile stop title => planCut layout sourceFile stop title
  | split episode offset sourceFile => planSplit layout episode offset sourceFile
  | move episode offset sourceFile => planMove layout episode offset sourceFile
  | merge episode => planMerge layout countReadingUnits episode
  | clearAfter episode => planClearAfter layout episode

/-- `_impact`. -/
def impactOf (project : Project) (layout : Layout) (edit : Edit) : ManualSplitImpact :=
  let dropped := layout.entries.filter (·.episode ∈ edit.dropped)
  let restaled := layout.entries.filter fun entry =>
    entry.episode ∉ edit.dropped ∧ project.hasProducts entry ∧
      (edit.ranges.lookup entry.episode).any fun range =>
        some range ≠ (layout.placements.find? (·.episode = entry.episode)).map layout.span
  { restaled := restaled.map (·.episode)
    retired := (dropped.filter project.hasProducts).map (·.episode)
    removed := (dropped.filter fun entry => !project.hasProducts entry).map (·.episode)
    mergedUnits := edit.mergedUnits }

def touchedDocs (layout : Layout) (edit : Edit) : List SourceDoc :=
  let spans := edit.ranges.map Prod.snd ++ edit.newRange.toList
  layout.docs.filter fun doc => spans.any fun span => doc ∈ layout.filesBetween span.1 span.2

section Commits

variable (digest : Text → String)

def checkFingerprints (project : Project) (docs : List SourceDoc) :
    Except ManualSplitError Project :=
  if docs.any (project.changedOutsideService digest) then throw .sourceChanged
  else
    let untouched := project.fingerprints.filter fun (rel, _) => rel ∉ rels docs
    pure { project with
      fingerprints := untouched ++ docs.map fun doc => (doc.relPath, digest doc.text) }

def checkEdit (project : Project) (layout : Layout) (edit : Edit) :
    Except ManualSplitError Project :=
  if edit.touchesSource then checkFingerprints digest project (touchedDocs layout edit)
  else pure project

/-- `_range_value`. There is no point in a source without files. -/
def rangeValue (layout : Layout) (range : ℕ × ℕ) : Option SourceSpan := do
  let (sourceFile, start) ← layout.startPoint range.1
  let (endFile, stop) ← layout.endPoint range.2
  return { sourceFile, start, endFile, stop }

def rerange (layout : Layout) (edit : Edit) (impact : ManualSplitImpact) (entry : LedgerEntry) :
    LedgerEntry :=
  match (edit.ranges.lookup entry.episode).bind (rangeValue layout) with
  | none => entry
  | some value =>
      let ranged := { entry with sourceRange := .span value }
      if entry.episode ∈ impact.restaled then markLedgerStale ranged else ranged

def newEntry (project : Project) (layout : Layout) (edit : Edit) (range : ℕ × ℕ) (episode : ℕ) :
    LedgerEntry :=
  let entry : LedgerEntry :=
    { episode
      title := edit.newTitle
      scriptFile := "scripts/episode_" ++ toString episode ++ ".json"
      sourceOrigin := some .wholeSource
      sourceRange := (rangeValue layout range).elim .malformed .span
      ledgerStatus := .planned }
  if episode ∈ project.products then markLedgerStale entry else entry

/-- The files of the episodes: those with a range are written, those that are dropped removed. -/
def writeDerived (layout : Layout) (edit : Edit) (newEpisode : Option ℕ) (files : ℕ → Option Text) :
    ℕ → Option Text :=
  let written := edit.ranges.foldl
    (fun files (episode, start, stop) =>
      Function.update files episode (some (slice layout.text start stop))) files
  let added :=
    match newEpisode, edit.newRange with
    | some episode, some (start, stop) =>
        Function.update written episode (some (slice layout.text start stop))
    | _, _ => written
  edit.dropped.foldl (fun files episode => Function.update files episode none) added

/-- `_apply`. -/
def applyEdit (project : Project) (layout : Layout) (edit : Edit) (impact : ManualSplitImpact) :
    Except ManualSplitError (Option ℕ × Project) := do
  let checked ← checkEdit digest project layout edit
  let ranged := layout.entries.map (rerange layout edit impact)
  let newEpisode := edit.newRange.map fun _ => checked.episodeIdHighWater + 1
  let inserted :=
    match newEpisode, edit.newRange with
    | some episode, some range =>
        ranged.take edit.insertBefore ++
          newEntry checked layout edit range episode :: ranged.drop edit.insertBefore
    | _, _ => ranged
  let kept := inserted.filter (·.episode ∉ edit.dropped)
  let retired := edit.dropped.filterMap fun episode =>
    if episode ∈ impact.retired then (ranged.find? (·.episode = episode)).map retire else none
  let moved := { checked with
    entries := kept ++ retired
    highWater := newEpisode.getD checked.highWater
    files := writeDerived layout edit newEpisode checked.files }
  return (newEpisode, moved.syncSourceSnapshots digest [])

structure Confirmation where
  episodes : List ℕ
  mergedUnits : ℕ
  dryRun : Bool
  deriving DecidableEq, Repr

/-- `_needs_confirmation`. -/
def Confirmation.needed (confirmed : Confirmation) (impact : ManualSplitImpact) : Bool :=
  (impact.mergedUnits ≠ 0 ∧ impact.mergedUnits ≠ confirmed.mergedUnits) ∨
    (impact.restaled ++ impact.retired).any (· ∉ confirmed.episodes)

inductive Outcome where
  | confirmationRequired (impact : ManualSplitImpact)
  | written (impact : ManualSplitImpact) (episode : Option ℕ) (project : Project)

/-- The part of `_run` in front of the lock: the episodes that may be touched. -/
def preview (countReadingUnits : Text → ℕ) (project : Project) (command : Command) :
    Except ManualSplitError (ManualSplitImpact × List ℕ) := do
  let layout ← layoutOf project
  let edit ← command.plan countReadingUnits layout
  let _ ← checkEdit digest project layout edit
  return (impactOf project layout edit,
    edit.ranges.map Prod.fst ++ edit.dropped ++ [project.episodeIdHighWater + 1])

/-- `_commit`, on the project of the lock. An impact that needs a confirmation is `inl`. -/
def commit (countReadingUnits : Text → ℕ) (command : Command) (confirmed : Confirmation)
    (touched : List ℕ) (project : Project) :
    Except (ManualSplitImpact ⊕ ManualSplitError) ((ManualSplitImpact × Option ℕ) × Project) := do
  let layout ← (layoutOf project).mapError .inr
  let edit ← (command.plan countReadingUnits layout).mapError .inr
  let impact := impactOf project layout edit
  if confirmed.needed impact then throw (.inl impact)
  let added := (edit.newRange.map fun _ => project.episodeIdHighWater + 1).toList
  if ¬ edit.ranges.map Prod.fst ++ edit.dropped ++ added ⊆ touched then throw (.inr .conflict)
  let (episode, applied) ← (applyEdit digest project layout edit impact).mapError .inr
  return ((impact, episode), applied)

/-- `_run`. The project that is seen first may be another one than that of the lock. -/
def run (countReadingUnits : Text → ℕ) (seen project : Project) (command : Command)
    (confirmed : Confirmation) : Except ManualSplitError Outcome := do
  let (impact, touched) ← preview digest countReadingUnits seen command
  if confirmed.dryRun ∨ confirmed.needed impact then return .confirmationRequired impact
  match project.applyMutation digest (commit digest countReadingUnits command confirmed touched) with
  | .ok ((impact, episode), written) => return .written impact episode written
  | .error (.inl impact) => return .confirmationRequired impact
  | .error (.inr error) => throw error

end Commits

end ShortReel.ManualSplit
