import ShortReel.CutPlacements

/-!
# The episode ledger

A project with its whole source, its ledger of episodes and the source files of the episodes. The
offsets of a range are not negative, and an id is what `parse_positive_episode_num` makes of it.
-/

namespace ShortReel.EpisodeLedger

open SourceAlignment SourceRemap CutPlacements

inductive SourceOrigin where
  | wholeSource
  | own
  | none
  deriving DecidableEq, Repr

inductive LedgerStatus where
  | planned
  | consumed
  | stale
  deriving DecidableEq, Repr

inductive SourceKind where
  | novel
  | screenplay
  deriving DecidableEq, Repr

inductive ContentMode where
  | drama
  | narration
  | ad
  deriving DecidableEq, Repr

/-- The `source_range` of an entry: without one, with a broken one, or with one that parses. -/
inductive RangeField where
  | missing
  | malformed
  | span (range : SourceSpan)
  deriving DecidableEq, Repr

structure LedgerEntry where
  episode : ℕ
  title : Text
  scriptFile : String
  sourceOrigin : Option SourceOrigin
  sourceRange : RangeField
  ledgerStatus : LedgerStatus
  deriving DecidableEq, Repr

structure WholeSourceFile where
  rel : String
  text : Option Text
  kind : SourceKind
  deriving DecidableEq, Repr

/-- `files` are the source files of the episodes, `products` the episodes with a script or a script
plan on disk. -/
structure Project where
  contentMode : ContentMode
  sources : List WholeSourceFile
  entries : List LedgerEntry
  highWater : ℕ
  fingerprints : List (String × String)
  sourceRemaining : Option Bool
  snapshots : String → Option Text
  files : ℕ → Option Text
  products : List ℕ

def episodeSourceOrigin (entry : LedgerEntry) : SourceOrigin :=
  match entry.sourceOrigin with
  | some origin => origin
  | none => if entry.sourceRange = .missing then .none else .wholeSource

def isCutEpisode (entry : LedgerEntry) : Bool :=
  episodeSourceOrigin entry = .wholeSource

def parseSourceRange (entry : LedgerEntry) : Option SourceSpan :=
  match entry.sourceRange with
  | .span range => some range
  | _ => none

def cutRange (entry : LedgerEntry) : Option (ℕ × SourceSpan) :=
  if isCutEpisode entry then (parseSourceRange entry).map (entry.episode, ·) else none

def markLedgerStale (entry : LedgerEntry) : LedgerEntry :=
  { entry with ledgerStatus := .stale }

def retire (entry : LedgerEntry) : LedgerEntry :=
  markLedgerStale { entry with sourceOrigin := some .none, sourceRange := .missing }

namespace Project

variable (project : Project)

def ids : List ℕ :=
  project.entries.map (·.episode)

/-- `discover_sources`. -/
def docs : List SourceDoc :=
  project.sources.filterMap fun file => file.text.map ({ relPath := file.rel, text := · })

def wholeSourceFileKind (rel : String) : Option SourceKind :=
  if project.contentMode = .drama then
    (project.sources.find? (·.rel = rel)).map (·.kind)
  else none

/-- `cut_episode_placements`. -/
def placements : List CutPlacement :=
  cutEpisodePlacements project.docs (project.entries.filterMap cutRange)

def wellFormedLedgerEntries : Option (List LedgerEntry) :=
  if (∀ entry ∈ project.entries, 0 < entry.episode) ∧ project.ids.Nodup then some project.entries
  else none

/-- `episodes_with_products`. -/
def hasProducts (entry : LedgerEntry) : Bool :=
  entry.ledgerStatus = .consumed ∨ entry.episode ∈ project.products

def episodeIdHighWater : ℕ :=
  project.ids.foldl max project.highWater

section Fingerprints

variable (digest : Text → String)

def changedOutsideService (doc : SourceDoc) : Bool :=
  (project.fingerprints.lookup doc.relPath).any (· ≠ digest doc.text) ∨
    (project.snapshots doc.relPath).any (· ≠ doc.text)

def sourceFingerprintsDiverged : Bool :=
  project.fingerprints.any fun (rel, fingerprint) =>
    (project.docs.find? (·.relPath = rel)).map (digest ·.text) ≠ some fingerprint

def cutEpisodeSourceFiles : List String :=
  let order := project.sources.map (·.rel)
  (project.entries.filterMap cutRange).flatMap fun (_, span) =>
    match order.idxOf? span.sourceFile, order.idxOf? span.endFile with
    | some first, some last =>
        if first ≤ last then (order.take (last + 1)).drop first else [span.sourceFile]
    | _, _ => [span.sourceFile, span.endFile]

def syncSourceSnapshots (refreshed : List String) : Project :=
  { project with
    snapshots := fun rel =>
      if rel ∈ project.cutEpisodeSourceFiles then
        match project.docs.find? (·.relPath = rel) with
        | none => project.snapshots rel
        | some doc =>
            if rel ∉ refreshed ∧ project.changedOutsideService digest doc then project.snapshots rel
            else some doc.text
      else none }

/-- `planning_start`: the index of the file, and the offset. -/
def planningStart : Option (ℕ × ℕ) :=
  let ends := (project.entries.filterMap cutRange).filterMap fun (_, span) =>
    (index project.docs span.endFile).map (·, span.stop)
  match ends with
  | [] => if project.docs = [] then none else some (0, 0)
  | last :: rest => some (rest.foldl (fun last stop => if earlier last stop then stop else last) last)

def unplannedTextRemains : Bool :=
  match project.planningStart with
  | none => false
  | some (i, offset) =>
      !((textAt project.docs i).drop offset).all isSpace ||
        (project.docs.drop (i + 1)).any fun doc => !doc.text.all isSpace

/-- `source_remaining`. -/
def computeSourceRemaining : Bool :=
  if project.contentMode = .ad ∨ project.docs.all (·.text.all isSpace) then false
  else project.sourceFingerprintsDiverged digest || project.unplannedTextRemains

def recordSourceRemaining : Project :=
  { project with sourceRemaining := some (project.computeSourceRemaining digest) }

end Fingerprints

/-- `source_planning_inputs`. -/
def planningInputs : List String × List (String × String) ×
    List (ℕ × Option SourceOrigin × RangeField) :=
  (project.sources.map (·.rel), project.fingerprints,
    project.entries.map fun entry => (entry.episode, entry.sourceOrigin, entry.sourceRange))

def raiseEpisodeIdHighWater : Project :=
  { project with highWater := project.episodeIdHighWater }

/-- `_apply_project_mutation_unlocked`. -/
def applyMutation {ε α : Type} (digest : Text → String) (mutate : Project → Except ε (α × Project)) :
    Except ε (α × Project) := do
  let raised := project.raiseEpisodeIdHighWater
  let (value, mutated) ← mutate raised
  if mutated.planningInputs = raised.planningInputs then return (value, mutated)
  else return (value, mutated.recordSourceRemaining digest)

end Project

end ShortReel.EpisodeLedger
