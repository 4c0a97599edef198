import ShortReel.ResourcePaths
import Mathlib.Data.List.Sort

/-!
# The version store

`version_manager.py`: the versions of the media files of a project. `versions.json` lists them, each
with a snapshot in the history directory, and the formal file is a copy of the current one. A step on
the disk may fail; a copy that stops may leave a part of the file. Temporary files that nobody reads
are left out, and so are the metadata of the records.
-/

namespace ShortReel.VersionStore

open ResourcePaths

abbrev Bytes := List UInt8

/-- `failed` is an `OSError`, or what a callback raises. -/
inductive VersionError where
  | failed
  | rollbackIncomplete
  | stagedFileMissing
  | installedFileMissing
  | duplicateIdentity
  | duplicateTarget
  | resourceNotFound
  | versionNotFound
  | snapshotPathUnmanaged
  | snapshotMissing
  | restoreVersionMissing
  | selectionChanged
  deriving DecidableEq, Repr

structure VersionRecord where
  version : ℕ
  file : String
  prompt : String
  previousCurrentVersion : Option ℕ
  deriving DecidableEq, Repr

structure ResourceData where
  currentVersion : ℕ
  versions : List VersionRecord
  deriving DecidableEq, Repr

/-- What `versions.json` says of each resource. -/
abbrev VersionsDoc := Resource → Option ResourceData

structure Disk where
  versionsFile : Option VersionsDoc
  formal : String → Option Bytes
  snapshots : String → Option Bytes
  staged : String → Option Bytes

/-- How a step on the disk ends. A copy that stops leaves its target as it is, or with other bytes. -/
inductive Fault where
  | none
  | stops (left : Option Bytes)
  deriving DecidableEq, Repr

/-- The disk, what will happen to the next steps, and the variables of a call: `created` are the
snapshots that its rollback removes, `strayed` what a copy has left that is not among them, `states`
the formal files from before. -/
structure Session where
  disk : Disk
  faults : List Fault
  now : ℕ → Timestamp
  ticks : ℕ
  data : VersionsDoc
  created : List String
  strayed : List (String × Bytes)
  states : List (String × Option Bytes)

abbrev VersionM := EStateM VersionError Session

def nextFault : VersionM Fault :=
  modifyGet fun s => (s.faults.headD .none, { s with faults := s.faults.tail })

def attempt (effect : Disk → Option Disk) : VersionM Unit := do
  match ← nextFault with
  | .stops _ => throw .failed
  | .none =>
      match effect (← get).disk with
      | none => throw .failed
      | some disk => modify fun s => { s with disk }

def Disk.writeSnapshot (disk : Disk) (path : String) (bytes : Option Bytes) : Disk :=
  { disk with snapshots := Function.update disk.snapshots path bytes }

def Disk.writeFormal (disk : Disk) (path : String) (bytes : Option Bytes) : Disk :=
  { disk with formal := Function.update disk.formal path bytes }

inductive Source where
  | formal (path : String)
  | staged (path : String)
  deriving DecidableEq, Repr

def Source.read (disk : Disk) : Source → Option Bytes
  | formal path => disk.formal path
  | staged path => disk.staged path

def leaveSnapshot (path : String) (bytes : Bytes) (s : Session) : Session :=
  { s with
    disk := s.disk.writeSnapshot path (some bytes)
    strayed := if path ∈ s.created then s.strayed else (path, bytes) :: s.strayed }

/-- `shutil.copy2` into the history directory. -/
def copyToSnapshot (source : Source) (path : String) : VersionM Unit := do
  match ← nextFault with
  | .stops none => throw .failed
  | .stops (some bytes) => do
      modify (leaveSnapshot path bytes)
      throw .failed
  | .none =>
      match source.read (← get).disk with
      | none => throw .failed
      | some bytes => modify fun s => { s with disk := s.disk.writeSnapshot path (some bytes) }

/-- `shutil.copy2` of a snapshot onto a formal file. -/
def copyToFormal (path currentFile : String) : VersionM Unit := do
  match ← nextFault with
  | .stops none => throw .failed
  | .stops (some bytes) => do
      modify fun s => { s with disk := s.disk.writeFormal currentFile (some bytes) }
      throw .failed
  | .none =>
      match (← get).disk.snapshots path with
      | none => throw .failed
      | some bytes => modify fun s => { s with disk := s.disk.writeFormal currentFile (some bytes) }

/-- `os.replace` of a formal file by a staged one. -/
def replaceFormal (stagedFile currentFile : String) : VersionM Unit :=
  attempt fun disk => (disk.staged stagedFile).map fun bytes =>
    { disk.writeFormal currentFile (some bytes) with
      staged := Function.update disk.staged stagedFile none }

/-- `_load_versions`, at the beginning of a call. -/
def loadVersions : VersionM Unit :=
  modify fun s => { s with
    data := s.disk.versionsFile.getD fun _ => none
    created := []
    strayed := []
    states := [] }

def saveVersions : VersionM Unit := do
  let s ← get
  attempt fun disk => some { disk with versionsFile := some s.data }

def callback : VersionM Unit :=
  attempt some

/-- `_create_rollback_backup`, when there is a formal file. Whether there is one is returned. -/
def backupCurrent (currentFile : String) : VersionM Bool := do
  match (← get).disk.formal currentFile with
  | none => do
      modify fun s => { s with states := s.states ++ [(currentFile, none)] }
      return false
  | some bytes => do
      attempt some
      modify fun s => { s with states := s.states ++ [(currentFile, some bytes)] }
      return true

def restoreFormal (state : String × Option Bytes) (disk : Disk) : Disk :=
  disk.writeFormal state.1 state.2

def restoreVersions (versions : Option VersionsDoc) (disk : Disk) : Disk :=
  { disk with versionsFile := versions }

def unlinkSnapshot (path : String) (disk : Disk) : Disk :=
  disk.writeSnapshot path none

def unlinkStaged (path : String) (disk : Disk) : Disk :=
  { disk with staged := Function.update disk.staged path none }

/-- The steps of a rollback, all of which are tried. Whether all of them succeed is returned. -/
def undoAll : List (Disk → Disk) → VersionM Bool
  | [] => return true
  | step :: steps => do
      match ← nextFault with
      | .stops _ => do
          let _ ← undoAll steps
          return false
      | .none => do
          modify fun s => { s with disk := step s.disk }
          undoAll steps

def rollback {α : Type} (steps : List (Disk → Disk)) (failure : VersionError) : VersionM α := do
  if ← undoAll steps then throw failure else throw .rollbackIncomplete

/-- The rollback of a call: the formal files, the last one first, `versions.json` and the snapshots. -/
def compensate {α : Type} (before : Option VersionsDoc) (failure : VersionError) : VersionM α := do
  let s ← get
  rollback (s.states.reverse.map restoreFormal ++
    restoreVersions before :: s.created.map unlinkSnapshot) failure

def guarded {α : Type} (body : VersionM α) : VersionM α := do
  let s ← get
  tryCatch body (compensate s.disk.versionsFile)

def dataOf (data : VersionsDoc) (resource : Resource) : ResourceData :=
  (data resource).getD { currentVersion := 0, versions := [] }

def nextVersion (records : List VersionRecord) : ℕ :=
  (records.map (·.version)).foldl max 0 + 1

def appended (resourceData : ResourceData) (path prompt : String) (selects : Bool) : ResourceData where
  currentVersion := if selects then nextVersion resourceData.versions else resourceData.currentVersion
  versions := resourceData.versions ++
    [{ version := nextVersion resourceData.versions, file := path, prompt,
       previousCurrentVersion := some resourceData.currentVersion }]

def logSnapshot (path : String) : VersionM Unit :=
  modify fun s => { s with created := s.created ++ [path] }

/-- A new record with a snapshot of its file. The path is logged for the rollback before the copy or
behind it. -/
def appendRecord (loggedFirst selects : Bool) (resource : Resource) (source : Source)
    (prompt : String) : VersionM ℕ := do
  let s ← get
  let resourceData := dataOf s.data resource
  let path := versionSnapshotRelativePath resource (nextVersion resourceData.versions) (s.now s.ticks)
  modify fun s => { s with ticks := s.ticks + 1 }
  if loggedFirst then logSnapshot path
  copyToSnapshot source path
  if !loggedFirst then logSnapshot path
  modify fun s => { s with
    data := Function.update s.data resource (some (appended resourceData path prompt selects)) }
  return nextVersion resourceData.versions

def appendSelectedSnapshot : Resource → Source → String → VersionM ℕ :=
  appendRecord true true

def appendVersion : Resource → Source → String → VersionM ℕ :=
  appendRecord false true

def appendSnapshot : Resource → Source → String → VersionM ℕ :=
  appendRecord false false

def setCurrent (resource : Resource) (version : ℕ) : VersionM Unit :=
  modify fun s => { s with
    data := Function.update s.data resource
      (some { dataOf s.data resource with currentVersion := version }) }

def isManagedSnapshotPath (type : ResourceType) (path : String) : Bool :=
  let parts := path.toList.splitOn '/'
  let bucket := (versionSnapshotDir type).toList.splitOn '/'
  let extension := (pattern type).extension.toList
  '\\' ∉ path.toList ∧ '\x00' ∉ path.toList ∧
    parts.length = bucket.length + (pattern type).idSegments ∧ parts.take bucket.length = bucket ∧
    (∀ part ∈ parts, part ≠ [] ∧ part ≠ ['.'] ∧ part ≠ ['.', '.']) ∧
    parts.getLast?.any fun name => extension.isSuffixOf name ∧ extension.length < name.length

structure StagedVersionCommit where
  resource : Resource
  prompt : String
  stagedFile : String
  currentFile : String
  deriving DecidableEq, Repr

structure InstalledVersionCommit where
  resource : Resource
  prompt : String
  currentFile : String
  deriving DecidableEq, Repr

structure PaidVersionCommit where
  version : ℕ
  selected : Bool
  deriving DecidableEq, Repr

def addVersion (resource : Resource) (prompt : String) (source : Option Source) : VersionM ℕ := do
  loadVersions
  let s ← get
  let resourceData := dataOf s.data resource
  let path := versionSnapshotRelativePath resource (nextVersion resourceData.versions) (s.now s.ticks)
  modify fun s => { s with ticks := s.ticks + 1 }
  match source with
  | none => pure ()
  | some source => if (source.read s.disk).isSome then copyToSnapshot source path
  modify fun s => { s with
    data := Function.update s.data resource (some (appended resourceData path prompt true)) }
  saveVersions
  return nextVersion resourceData.versions

/-- What a call does with the formal file from before: it is kept for the rollback, and gets a record
when it has none. -/
def track (append : Resource → Source → String → VersionM ℕ) (resource : Resource)
    (currentFile : String) : VersionM Unit := do
  let existed ← backupCurrent currentFile
  let s ← get
  if existed ∧ (dataOf s.data resource).currentVersion = 0 then
    let _ ← append resource (.formal currentFile) ""

def activate (append : Resource → Source → String → VersionM ℕ) (commit : StagedVersionCommit) :
    VersionM (Resource × ℕ) := do
  track append commit.resource commit.currentFile
  let version ← append commit.resource (.staged commit.stagedFile) commit.prompt
  replaceFormal commit.stagedFile commit.currentFile
  return (commit.resource, version)

def commitStagedVersion (commit : StagedVersionCommit) : VersionM ℕ := do
  loadVersions
  let s ← get
  if s.disk.staged commit.stagedFile = none then throw .stagedFileMissing
  guarded do
    let (_, version) ← activate appendSelectedSnapshot commit
    saveVersions
    callback
    return version

def activateAll : List StagedVersionCommit → VersionM (List (Resource × ℕ))
  | [] => return []
  | commit :: commits => do
      let result ← activate appendVersion commit
      let results ← activateAll commits
      return result :: results

def checkStaged (disk : Disk) (identities : List Resource) (targets : List String) :
    List StagedVersionCommit → Option VersionError
  | [] => none
  | commit :: commits =>
      if commit.resource ∈ identities then some .duplicateIdentity
      else if disk.staged commit.stagedFile = none then some .stagedFileMissing
      else if commit.currentFile ∈ targets then some .duplicateTarget
      else checkStaged disk (commit.resource :: identities) (commit.currentFile :: targets) commits

def commitStagedVersions (commits : List StagedVersionCommit) : VersionM (List (Resource × ℕ)) := do
  loadVersions
  let s ← get
  if commits = [] then return []
  match checkStaged s.disk [] [] commits with
  | some error => throw error
  | none =>
      guarded do
        let results ← activateAll commits
        saveVersions
        callback
        return results

def appendAll : List InstalledVersionCommit → VersionM (List (Resource × ℕ))
  | [] => return []
  | commit :: commits => do
      let version ←
        appendSelectedSnapshot commit.resource (.formal commit.currentFile) commit.prompt
      let results ← appendAll commits
      return (commit.resource, version) :: results

def checkInstalled (disk : Disk) (identities : List Resource) :
    List InstalledVersionCommit → Option VersionError
  | [] => none
  | commit :: commits =>
      if commit.resource ∈ identities then some .duplicateIdentity
      else if disk.formal commit.currentFile = none then some .installedFileMissing
      else checkInstalled disk (commit.resource :: identities) commits

def commitInstalledVersions (commits : List InstalledVersionCommit) :
    VersionM (List (Resource × ℕ)) := do
  loadVersions
  let s ← get
  if commits = [] then return []
  match checkInstalled s.disk [] commits with
  | some error => throw error
  | none =>
      guarded do
        let results ← appendAll commits
        saveVersions
        callback
        return results

def discardStaged (path : String) : VersionM Unit := do
  let _ ← undoAll [unlinkStaged path]

/-- The history of a paid result: the version that was current when it was submitted, the one that is
current now, and the new one. -/
def recordPaid (commit : StagedVersionCommit) : VersionM (ℕ × ℕ × ℕ) := do
  let s ← get
  let submitted := (dataOf s.data commit.resource).currentVersion
  if (s.disk.formal commit.currentFile).isSome ∧ submitted = 0 then
    let tracked ← appendSnapshot commit.resource (.formal commit.currentFile) ""
    setCurrent commit.resource tracked
  let s ← get
  let prior := (dataOf s.data commit.resource).currentVersion
  let version ← appendSnapshot commit.resource (.staged commit.stagedFile) commit.prompt
  saveVersions
  return (submitted, prior, version)

/-- Removes what a paid result has left when its history is not saved. -/
def discardPaid {α : Type} (before : Option VersionsDoc) (stagedFile : String)
    (failure : VersionError) : VersionM α := do
  let s ← get
  rollback (restoreVersions before :: s.created.map unlinkSnapshot ++ [unlinkStaged stagedFile]) failure

def deselectPaid {α : Type} (commit : StagedVersionCommit) (prior : ℕ) (failure : VersionError) :
    VersionM α := do
  setCurrent commit.resource prior
  let s ← get
  let restored ← undoAll (s.states.reverse.map restoreFormal ++ [restoreVersions (some s.data)])
  discardStaged commit.stagedFile
  if restored then throw failure else throw .rollbackIncomplete

def selectPaid (commit : StagedVersionCommit) (version : ℕ) : VersionM PaidVersionCommit := do
  let _ ← backupCurrent commit.currentFile
  replaceFormal commit.stagedFile commit.currentFile
  setCurrent commit.resource version
  saveVersions
  callback
  return { version, selected := true }

/-- `commit_staged_paid_version`. `selectCurrent` is what the guard says, if it does not raise. -/
def commitStagedPaidVersion (commit : StagedVersionCommit) (selectCurrent : Option Bool)
    (expectedCurrentVersion : Option ℕ) : VersionM PaidVersionCommit := do
  loadVersions
  let s ← get
  if s.disk.staged commit.stagedFile = none then throw .stagedFileMissing
  let (submitted, prior, version) ←
    tryCatch (recordPaid commit) (discardPaid s.disk.versionsFile commit.stagedFile)
  let shouldSelect :=
    if expectedCurrentVersion.any (· ≠ submitted) then some false else selectCurrent
  match shouldSelect with
  | none => do
      discardStaged commit.stagedFile
      throw .failed
  | some false => do
      discardStaged commit.stagedFile
      return { version, selected := false }
  | some true => do
      let result ← tryCatch (selectPaid commit version) (deselectPaid commit prior)
      discardStaged commit.stagedFile
      return result

def findVersion (records : List VersionRecord) (version : ℕ) : Option VersionRecord :=
  records.find? (·.version = version)

/-- The version to go back to: the one that is asked for, the one that was current when the rejected
one was recorded, or the largest one before it. -/
def versionToRestore (records : List VersionRecord) (rejected : VersionRecord)
    (restoreVersion : Option ℕ) : ℕ :=
  (restoreVersion.or rejected.previousCurrentVersion).getD
    (((records.map (·.version)).filter (· < rejected.version)).foldl max 0)

def selectPrevious (resource : Resource) (currentFile : String) :
    Option VersionRecord → VersionM Unit
  | none => do
      attempt fun disk => some (disk.writeFormal currentFile none)
      setCurrent resource 0
  | some record => do
      match (← get).disk.snapshots record.file with
      | none => throw .snapshotMissing
      | some bytes => do
          -- the copy to the replacement, then the replacement of the formal file
          attempt some
          attempt fun disk => some (disk.writeFormal currentFile (some bytes))
          setCurrent resource record.version

def rejectCurrentVersion (resource : Resource) (rejectedVersion : ℕ) (restoreVersion : Option ℕ)
    (currentFile : String) (onReject : VersionM Unit) : VersionM Bool := do
  loadVersions
  let s ← get
  match s.data resource with
  | none => return false
  | some resourceData =>
      if resourceData.currentVersion ≠ rejectedVersion then return false
      match findVersion resourceData.versions rejectedVersion with
      | none => return false
      | some rejected =>
          let restored := versionToRestore resourceData.versions rejected restoreVersion
          let previous := findVersion resourceData.versions restored
          if 0 < restored ∧ previous = none then throw .restoreVersionMissing
          if previous.any fun record => !isManagedSnapshotPath resource.type record.file then
            throw .snapshotPathUnmanaged
          guarded do
            let _ ← backupCurrent currentFile
            selectPrevious resource currentFile previous
            saveVersions
            onReject
            return true

structure Rejection where
  resource : Resource
  version : ℕ
  currentFile : String
  deriving DecidableEq, Repr

def rejectAll : List Rejection → VersionM Unit
  | [] => pure ()
  | rejection :: rejections => do
      let selected ← rejectCurrentVersion rejection.resource rejection.version none
        rejection.currentFile (pure ())
      if !selected then throw .selectionChanged
      rejectAll rejections

def rejectionOrder (a b : Rejection) : Bool :=
  a.resource.type.name < b.resource.type.name ∨
    (a.resource.type.name = b.resource.type.name ∧ a.resource.id ≤ b.resource.id)

/-- `reject_current_versions`, inside a `formal_write_transaction`. -/
def rejectCurrentVersions (rejections : List Rejection) : VersionM (List Rejection) := do
  loadVersions
  let s ← get
  let current := rejections.filter fun rejection =>
    (s.data rejection.resource).any (·.currentVersion = rejection.version)
  if current = [] then return []
  let states := current.map fun rejection =>
    (rejection.currentFile, s.disk.formal rejection.currentFile)
  tryCatch
    (do
      rejectAll (current.mergeSort rejectionOrder)
      callback)
    (rollback (states.reverse.map restoreFormal ++ [restoreVersions s.disk.versionsFile]))
  return current

def restoreVersion (resource : Resource) (version : ℕ) (currentFile : String) :
    VersionM VersionRecord := do
  loadVersions
  let s ← get
  match s.data resource with
  | none => throw .resourceNotFound
  | some resourceData =>
      match findVersion resourceData.versions version with
      | none => throw .versionNotFound
      | some record =>
          if !isManagedSnapshotPath resource.type record.file then throw .snapshotPathUnmanaged
          if s.disk.snapshots record.file = none then throw .snapshotMissing
          guarded do
            let _ ← backupCurrent currentFile
            copyToFormal record.file currentFile
            setCurrent resource version
            saveVersions
            callback
            return record

end ShortReel.VersionStore
