import ShortReel.InsertionDict
import ShortReel.NameOrder

/-!
# Profile manifest

`profile_manifest.py`: the files of the built-in profile are brought into a project. A manifest says
which version of a file was brought there last, or that it is gone.
-/

namespace ShortReel.ProfileManifest

open InsertionDict NameOrder

abbrev Rel := Name

inductive Entry (δ : Type) where
  | profile (sha256 : δ) (size : ℕ)
  | tombstone (deletedAt : ℕ)
  deriving DecidableEq, Repr

inductive ContentMode where
  | narration
  | drama
  | ad
  deriving DecidableEq, Repr

structure Manifest (δ : Type) where
  entries : Dict Rel (Entry δ)
  contentMode : Option ContentMode
  deriving DecidableEq, Repr

/-- A project: the files under `.claude` with `CLAUDE.md`, and the manifest, if it can be read. -/
structure Project (β δ : Type) where
  files : Dict Rel β
  manifest : Option (Manifest δ)
  deriving DecidableEq, Repr

def Project.entry {β δ : Type} (project : Project β δ) (rel : Rel) : Option (Entry δ) :=
  project.manifest.bind fun manifest => get manifest.entries rel

structure Hashing (β δ : Type) where
  sha256 : β → δ
  size : β → ℕ

inductive Outcome where
  | created
  | deletedUser
  | unchanged
  | upgraded
  | userModified
  | pruned
  | orphaned
  | userOnly
  | tombstoned
  | collision
  | error
  deriving DecidableEq, Repr

/-- What goes wrong with a file: something before it is written, or its copy, which leaves what has been
written until then. -/
inductive Fault (β : Type) where
  | early
  | copying (left : Option β)
  deriving DecidableEq, Repr

section Decisions

variable {β δ : Type} [DecidableEq δ] (hashing : Hashing β δ) (now : ℕ)

def profileActiveEntry (p : β) : Entry δ :=
  .profile (hashing.sha256 p) (hashing.size p)

/-- `_safe_copy`: the file that is there afterwards, with whether all has been written. -/
def safeCopy (fault : Option (Fault β)) (p : β) : Except (Option β) β :=
  match fault with
  | some (.copying left) => .error left
  | _ => .ok p

/-- `_apply_decision`, of the file of the profile, the file of the project and the entry. -/
def applyDecision (fault : Option (Fault β)) (p d : Option β) (m : Option (Entry δ)) :
    Option (Option β × Option (Entry δ) × Outcome) :=
  match fault with
  | some .early => some (d, m, .error)
  | _ =>
      match p, d, m with
      | some p, none, none =>
          match safeCopy fault p with
          | .ok file => some (some file, some (profileActiveEntry hashing p), .created)
          | .error left => some (left, none, .error)
      | some _, none, some (.profile _ _) => some (none, some (.tombstone now), .deletedUser)
      | some p, some d, some (.profile sha256 size) =>
          if hashing.sha256 d = hashing.sha256 p ∧ sha256 = hashing.sha256 p then
            some (some d, some (.profile sha256 size), .unchanged)
          else if hashing.sha256 d = sha256 ∧ hashing.sha256 d ≠ hashing.sha256 p then
            match safeCopy fault p with
            | .ok file => some (some file, some (profileActiveEntry hashing p), .upgraded)
            | .error left => some (left, some (.profile sha256 size), .error)
          else if hashing.sha256 d ≠ sha256 ∧ hashing.sha256 d = hashing.sha256 p then
            some (some d, some (profileActiveEntry hashing p), .unchanged)
          else some (some d, some (.profile sha256 size), .userModified)
      | none, some d, some (.profile sha256 size) =>
          if hashing.sha256 d = sha256 then some (none, some (.tombstone now), .pruned)
          else some (some d, some (.profile sha256 size), .orphaned)
      | none, some d, none => some (some d, none, .userOnly)
      | some _, some d, some (.tombstone _) => some (some d, none, .userOnly)
      | some _, none, some (.tombstone deletedAt) =>
          some (none, some (.tombstone deletedAt), .tombstoned)
      | none, some d, some (.tombstone _) => some (some d, none, .userOnly)
      | none, none, some (.tombstone deletedAt) =>
          some (none, some (.tombstone deletedAt), .tombstoned)
      | none, none, some (.profile _ _) => some (none, some (.tombstone now), .pruned)
      | some p, some d, none =>
          if hashing.sha256 d = hashing.sha256 p then
            some (some d, some (profileActiveEntry hashing p), .collision)
          else some (some d, none, .collision)
      | none, none, none => none

end Decisions

def assign {κ ν : Type} [DecidableEq κ] (dict : Dict κ ν) (key : κ) : Option ν → Dict κ ν
  | some value => put dict key value
  | none => remove dict key

structure SyncState (β δ : Type) where
  files : Dict Rel β
  entries : Dict Rel (Entry δ)
  stats : List (Rel × Outcome)
  deriving DecidableEq, Repr

section Syncs

variable {β δ : Type} [DecidableEq δ] (hashing : Hashing β δ) (now : ℕ)
  (faults : Rel → Option (Fault β)) (mapping : Dict Rel β)

def syncRound (state : SyncState β δ) (rel : Rel) : Option (SyncState β δ) :=
  (applyDecision hashing now (faults rel) (get mapping rel) (get state.files rel)
    (get state.entries rel)).map fun decision =>
      { files := assign state.files rel decision.1
        entries := assign state.entries rel decision.2.1
        stats := state.stats ++ [(rel, decision.2.2)] }

def resetRound (state : SyncState β δ) (rel : Rel) : SyncState β δ :=
  match faults rel, get mapping rel with
  | none, some p =>
      { files := put state.files rel p
        entries := put state.entries rel (profileActiveEntry hashing p)
        stats := state.stats ++ [(rel, .created)] }
  | some (.copying left), some _ =>
      { state with
        files := assign state.files rel left
        stats := state.stats ++ [(rel, .error)] }
  | _, _ => { state with stats := state.stats ++ [(rel, .error)] }

def fullResetFromProfile (mode : ContentMode) : Project β δ × List (Rel × Outcome) :=
  let state := (sortedSet (keys mapping)).foldl (resetRound hashing faults mapping)
    { files := [], entries := [], stats := [] }
  ({ files := state.files, manifest := some { entries := state.entries, contentMode := some mode } },
    state.stats)

/-- `sync_profile_to_project`, with what `resolve_profile_files_for_mode` makes of the profile. -/
def syncProfileToProject (mode : ContentMode) (project : Project β δ) :
    Option (Project β δ × List (Rel × Outcome)) :=
  if mapping = [] then none
  else
    match project.manifest with
    | none => some (fullResetFromProfile hashing faults mapping mode)
    | some manifest =>
        if manifest.contentMode ≠ none ∧ manifest.contentMode ≠ some mode then
          some (fullResetFromProfile hashing faults mapping mode)
        else do
          let state ← (sortedSet (keys mapping ++ keys project.files ++ keys manifest.entries)).foldlM
            (syncRound hashing now faults mapping)
            { files := project.files, entries := manifest.entries, stats := [] }
          return ({ files := state.files
                    manifest := some { entries := state.entries, contentMode := some mode } },
            state.stats)

end Syncs

end ShortReel.ProfileManifest
