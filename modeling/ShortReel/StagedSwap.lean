import ShortReel.InsertionDict
import ShortReel.SwapDirs
import ShortReel.TransitionSystem

/-!
# Staged swaps

`staged_swap.py` and `migrate_v5_to_v6`: a project is migrated in a copy next to it, the copy takes its
place by two renames, and what is left of a swap that has stopped is claimed or cleaned up later.
-/

namespace ShortReel.StagedSwap

open InsertionDict NameOrder SwapDirs

/-- An entry of the directory of the projects: a directory with all that is in it, a link with what the
directory that it leads to has, if it leads to one that is there, or anything else. -/
inductive Entry (τ : Type) where
  | dir (mtime : ℕ) (tree : τ)
  | link (target : Option τ)
  | file
  deriving DecidableEq, Repr

abbrev Parent (τ : Type) := Dict Name (Entry τ)

variable {τ : Type}

namespace Entry

def tree : Entry τ → Option τ
  | .dir _ tree => some tree
  | .link target => target
  | .file => none

/-- `exists`. -/
def isThere : Entry τ → Bool
  | .link none => false
  | _ => true

def isDir (entry : Entry τ) : Bool :=
  entry.tree.isSome

end Entry

namespace Parent

variable (parent : Parent τ)

def tree (name : Name) : Option τ :=
  (get parent name).bind Entry.tree

def isThere (name : Name) : Bool :=
  (get parent name).any Entry.isThere

def isDir (name : Name) : Bool :=
  (get parent name).any Entry.isDir

/-- `os.replace`, as it is called here: of an entry to a name where nothing is found. A directory does
not take the place of a link. -/
def replace (source target : Name) : Option (Parent τ) :=
  match get parent source, get parent target with
  | some entry, none => some (put (remove parent source) target entry)
  | _, _ => none

def rework (name : Name) (mtime : ℕ) (tree : τ) : Parent τ :=
  match get parent name with
  | some (.dir _ _) => put parent name (.dir mtime tree)
  | _ => parent

/-- `shutil.rmtree`, which takes no link. -/
def rmtree (name : Name) : Parent τ :=
  match get parent name with
  | some (.dir _ _) => remove parent name
  | _ => parent

/-- `_candidate_dirs`, with the times of the directories. -/
def candidateDirs : List (Name × ℕ) :=
  (parent.insertionSort fun a b => atMost a.1 b.1).filterMap fun item =>
    match item.2 with
    | .dir mtime _ => if item.1.head? = some '.' then some (item.1, mtime) else none
    | _ => none

end Parent

structure Candidate where
  mtime : ℕ
  rollback : Name
  project : Name
  deriving DecidableEq, Repr

def candidates (parent : Parent τ) : List Candidate :=
  parent.candidateDirs.filterMap fun item =>
    (rollbackProjectName item.1).map fun project => ⟨item.2, item.1, project⟩

/-- The loop of `reclaim_interrupted_swaps`. -/
def reclaimEach : List Candidate → List Name → Parent τ → Parent τ
  | [], _, parent => parent
  | candidate :: rest, attempted, parent =>
      if candidate.project ∈ attempted then reclaimEach rest attempted parent
      else if parent.isThere candidate.project then
        reclaimEach rest (candidate.project :: attempted) parent
      else
        match parent.replace candidate.rollback candidate.project with
        | none => reclaimEach rest (candidate.project :: attempted) parent
        | some claimed => reclaimEach rest (candidate.project :: attempted) claimed

def reclaimInterruptedSwaps (parent : Parent τ) : Parent τ :=
  reclaimEach (byRank Candidate.mtime (candidates parent)) [] parent

def swapProjectName (dirName : Name) : Option Name :=
  (rollbackProjectName dirName).or (stagingProjectName dirName)

/-- `cleanup_completed_swap_dirs`. A deletion may leave something of a directory. -/
def cleanupCompletedSwapDirs (cutoff : ℕ) (left : Name → Option (ℕ × τ)) (parent : Parent τ) :
    Parent τ :=
  parent.candidateDirs.foldl (fun parent item =>
    match swapProjectName item.1 with
    | none => parent
    | some project =>
        if ¬ parent.isDir project ∨ cutoff ≤ item.2 then parent
        else
          match left item.1 with
          | none => parent.rmtree item.1
          | some (mtime, tree) => parent.rework item.1 mtime tree) parent

structure Swap (τ : Type) where
  project : Name
  staging : Name
  rollback : Name
  empty : τ
  migrated : τ
  deriving DecidableEq, Repr

/-- The next operation of `migrate_v5_to_v6`. -/
inductive Phase where
  | making
  | copying
  | rewriting
  | settingAside
  | movingIn
  | movingBack
  | dropping
  | clearing
  | restoring
  | finished
  deriving DecidableEq, Repr

inductive Event (τ : Type) where
  | done (mtime : ℕ)
  | part (mtime : ℕ) (tree : τ)
  | fails
  deriving DecidableEq, Repr

structure State (τ : Type) where
  parent : Parent τ
  phase : Phase
  deriving DecidableEq, Repr

/-- After an `os.replace`, which raises where it cannot be done. -/
def State.replaced (state : State τ) (source target : Name) (next otherwise : Phase) : State τ :=
  match state.parent.replace source target with
  | some parent => { parent, phase := next }
  | none => { state with phase := otherwise }

section Migration

variable (swap : Swap τ)

def run (state : State τ) (event : Event τ) : State τ :=
  match state.phase, event with
  | .making, .done mtime =>
      { parent := put state.parent swap.staging (.dir mtime swap.empty), phase := .copying }
  | .making, .fails => { state with phase := .finished }
  | .copying, .part mtime tree | .rewriting, .part mtime tree =>
      { state with parent := state.parent.rework swap.staging mtime tree }
  | .copying, .done mtime =>
      match state.parent.tree swap.project with
      | some tree =>
          { parent := state.parent.rework swap.staging mtime tree, phase := .rewriting }
      | none => { state with phase := .clearing }
  | .rewriting, .done mtime =>
      { parent := state.parent.rework swap.staging mtime swap.migrated, phase := .settingAside }
  | .copying, .fails | .rewriting, .fails | .settingAside, .fails => { state with phase := .clearing }
  | .settingAside, .done _ => state.replaced swap.project swap.rollback .movingIn .clearing
  | .movingIn, .done _ => state.replaced swap.staging swap.project .dropping .movingBack
  | .movingIn, .fails => { state with phase := .movingBack }
  | .movingBack, .done _ => state.replaced swap.rollback swap.project .clearing .clearing
  | .movingBack, .fails => { state with phase := .clearing }
  | .dropping, .part mtime tree =>
      { state with parent := state.parent.rework swap.rollback mtime tree }
  | .dropping, .done _ => { parent := state.parent.rmtree swap.rollback, phase := .clearing }
  | .dropping, .fails => { state with phase := .clearing }
  -- `finally`: the errors of the deletion are ignored
  | .clearing, .part mtime tree =>
      { state with parent := state.parent.rework swap.staging mtime tree }
  | .clearing, .done _ => { parent := state.parent.rmtree swap.staging, phase := .restoring }
  | .clearing, .fails => { state with phase := .restoring }
  | .restoring, .done _ =>
      if state.parent.isThere swap.rollback ∧ ¬ state.parent.isThere swap.project then
        state.replaced swap.rollback swap.project .finished .finished
      else { state with phase := .finished }
  | .restoring, .fails => { state with phase := .finished }
  | _, _ => state

def migration (start : Parent τ) : TransitionSystem (State τ) (Event τ) :=
  .ofRun (· = { parent := start, phase := .making }) (run swap)

end Migration

end ShortReel.StagedSwap
