import ShortReel.VersionRollbacks

/-!
# Failed version commits

What a call has copied into the history when it fails, and when it leaves no trace.
-/

namespace ShortReel.VersionFailures

open FallibleStates ResourcePaths VersionStore VersionSteps VersionRollbacks

inductive Operation where
  | commitStagedVersion (commit : StagedVersionCommit)
  | commitStagedVersions (commits : List StagedVersionCommit)
  | commitInstalledVersions (commits : List InstalledVersionCommit)
  | rejectCurrentVersion (resource : Resource) (rejectedVersion : ℕ) (restoreVersion : Option ℕ)
      (currentFile : String)
  | rejectCurrentVersions (rejections : List Rejection)
  | restoreVersion (resource : Resource) (version : ℕ) (currentFile : String)

namespace Operation

def run : Operation → VersionM Unit
  | commitStagedVersion commit => do
      let _ ← VersionStore.commitStagedVersion commit
  | commitStagedVersions commits => do
      let _ ← VersionStore.commitStagedVersions commits
  | commitInstalledVersions commits => do
      let _ ← VersionStore.commitInstalledVersions commits
  | rejectCurrentVersion resource rejectedVersion restore currentFile => do
      let _ ← VersionStore.rejectCurrentVersion resource rejectedVersion restore currentFile callback
  | rejectCurrentVersions rejections => do
      let _ ← VersionStore.rejectCurrentVersions rejections
  | restoreVersion resource version currentFile => do
      let _ ← VersionStore.restoreVersion resource version currentFile

end Operation

/-- A step of a call on the disk: a copy into the history, of a file that is there or not, or another
one. -/
inductive Step where
  | copy (path : String) (readable : Bool)
  | other
  deriving DecidableEq, Repr

/-- The snapshots that a rollback removes, and what else has been left of a copy. -/
structure Copies where
  created : List String
  strayed : List (String × Bytes)
  deriving DecidableEq, Repr

def stopped (loggedFirst : Bool) (path : String) (created : List String) (left : Option Bytes) :
    Copies :=
  let created := if loggedFirst then created ++ [path] else created
  { created
    strayed := if path ∈ created then [] else left.toList.map (path, ·) }

def copiesOf (loggedFirst : Bool) : List Step → List Fault → List String → Copies
  | [], _, created => { created, strayed := [] }
  | .other :: steps, faults, created =>
      match faults.headD .none with
      | .none => copiesOf loggedFirst steps faults.tail created
      | .stops _ => { created, strayed := [] }
  | .copy path readable :: steps, faults, created =>
      match faults.headD .none with
      | .none =>
          if readable then copiesOf loggedFirst steps faults.tail (created ++ [path])
          else stopped loggedFirst path created none
      | .stops left => stopped loggedFirst path created left

structure View where
  now : ℕ → Timestamp
  ticks : ℕ
  data : VersionsDoc
  formal : String → Option Bytes
  staged : String → Option Bytes

def viewOf (s : Session) : View where
  now := s.now
  ticks := s.ticks
  data := s.data
  formal := s.disk.formal
  staged := s.disk.staged

namespace View

def path (v : View) (resource : Resource) : String :=
  versionSnapshotRelativePath resource (nextVersion (dataOf v.data resource).versions) (v.now v.ticks)

def record (v : View) (resource : Resource) (prompt : String) : View :=
  { v with
    ticks := v.ticks + 1
    data := Function.update v.data resource
      (some (appended (dataOf v.data resource) (v.path resource) prompt true)) }

def replace (v : View) (stagedFile currentFile : String) : View :=
  { v with
    formal := Function.update v.formal currentFile (v.staged stagedFile)
    staged := Function.update v.staged stagedFile none }

def track (v : View) (resource : Resource) (currentFile : String) : List Step × View :=
  if v.formal currentFile = none then ([], v)
  else if (dataOf v.data resource).currentVersion = 0 then
    ([.other, .copy (v.path resource) true], v.record resource "")
  else ([.other], v)

def activate (v : View) (commit : StagedVersionCommit) : List Step × View :=
  let (steps, tracked) := v.track commit.resource commit.currentFile
  (steps ++ [.copy (tracked.path commit.resource) (tracked.staged commit.stagedFile).isSome, .other],
    (tracked.record commit.resource commit.prompt).replace commit.stagedFile commit.currentFile)

/-- Staged files, `versions.json` and the callback. -/
def activateAll (v : View) : List StagedVersionCommit → List Step
  | [] => [.other, .other]
  | commit :: commits => (v.activate commit).1 ++ (v.activate commit).2.activateAll commits

def appendAll (v : View) : List InstalledVersionCommit → List Step
  | [] => [.other, .other]
  | commit :: commits =>
      .copy (v.path commit.resource) (v.formal commit.currentFile).isSome ::
        (v.record commit.resource commit.prompt).appendAll commits

end View

section Following

variable {copies : Copies} {loggedFirst : Bool} {steps : List Step} {v v' : View}

def Following (loggedFirst : Bool) (copies : Copies) (steps : List Step) (v : View) (s : Session) :
    Prop :=
  copiesOf loggedFirst steps s.faults s.created = copies ∧ s.strayed = [] ∧ viewOf s = v

def Gone (copies : Copies) (_ : VersionError) (s : Session) : Prop :=
  s.created = copies.created ∧ s.strayed = copies.strayed

theorem following_attempt {effect : Disk → Option Disk}
    (h : ∀ s, viewOf s = v → ∃ disk, effect s.disk = some disk ∧ viewOf { s with disk } = v') :
    Meets (Following loggedFirst copies (.other :: steps) v) (attempt effect)
      (fun _ => Following loggedFirst copies steps v') (Gone copies) := by
  refine meets_attempt_drawn ?_ ?_ ?_
  · rintro s left ⟨hcopies, hstrayed, -⟩ hfault
    rw [copiesOf, hfault] at hcopies
    subst hcopies
    exact ⟨rfl, hstrayed⟩
  · rintro s ⟨-, -, hview⟩ - hnone
    obtain ⟨disk, hsome, -⟩ := h s hview
    rw [hnone] at hsome
    cases hsome
  · rintro s disk ⟨hcopies, hstrayed, hview⟩ hfault heffect
    obtain ⟨disk', hsome, hview'⟩ := h s hview
    obtain rfl := Option.some.inj (heffect.symm.trans hsome)
    rw [copiesOf, hfault] at hcopies
    exact ⟨hcopies, hstrayed, hview'⟩

theorem following_idle {effect : Disk → Disk} (h : ∀ s, viewOf { s with disk := effect s.disk } = viewOf s) :
    Meets (Following loggedFirst copies (.other :: steps) v) (attempt fun disk => some (effect disk))
      (fun _ => Following loggedFirst copies steps v) (Gone copies) :=
  following_attempt fun s hview => ⟨effect s.disk, rfl, (h s).trans hview⟩

theorem following_appendRecord {readable : Bool} (resource : Resource) {source : Source}
    (prompt : String) (hread : ∀ s, viewOf s = v → (source.read s.disk).isSome = readable) :
    Meets (Following loggedFirst copies (.copy (v.path resource) readable :: steps) v)
      (appendRecord loggedFirst true resource source prompt)
      (fun _ s => readable = true ∧
        Following loggedFirst copies steps (v.record resource prompt) s) (Gone copies) := by
  refine meets_appendRecord_drawn resource ?_ ?_ ?_ ?_
  · rintro s ⟨hcopies, hstrayed, rfl⟩ hfault
    rw [copiesOf, hfault] at hcopies
    subst hcopies
    exact ⟨rfl, hstrayed.trans (by simp [stopped])⟩
  · rintro s bytes ⟨hcopies, hstrayed, rfl⟩ hfault
    rw [copiesOf, hfault] at hcopies
    subst hcopies
    refine ⟨rfl, ?_⟩
    change (if _ then s.strayed else _ :: s.strayed) = _
    rw [hstrayed]
    rfl
  · rintro s ⟨hcopies, hstrayed, rfl⟩ hfault hnone
    have hreadable := hread s rfl
    rw [hnone] at hreadable
    rw [copiesOf, hfault, ← hreadable] at hcopies
    subst hcopies
    exact ⟨rfl, hstrayed.trans (by simp [stopped])⟩
  · rintro s bytes ⟨hcopies, hstrayed, rfl⟩ hfault hsome
    have hreadable := hread s rfl
    rw [hsome] at hreadable
    rw [copiesOf, hfault, ← hreadable] at hcopies
    exact ⟨hreadable.symm, hcopies, hstrayed, rfl⟩

theorem following_backupCurrent (file : String) :
    Meets (Following loggedFirst copies ((if v.formal file = none then [] else [.other]) ++ steps) v)
      (backupCurrent file)
      (fun existed s => existed = (v.formal file).isSome ∧ Following loggedFirst copies steps v s)
      (Gone copies) := by
  refine meets_get_bind fun s hs => ?_
  have hformal : v.formal file = s.disk.formal file := by rw [← hs.2.2]; rfl
  rw [hformal] at hs ⊢
  cases hfile : s.disk.formal file with
  | none =>
      rw [hfile, if_pos rfl] at hs
      refine meets_bind (Q := fun _ => Following loggedFirst copies steps v) (meets_modify ?_)
        fun _ => meets_pure fun _ h => ⟨rfl, h⟩
      rintro _ rfl
      exact hs
  | some bytes =>
      rw [hfile, if_neg (Option.some_ne_none bytes)] at hs
      have hidle : Meets (Following loggedFirst copies (.other :: steps) v) (attempt some)
          (fun _ => Following loggedFirst copies steps v) (Gone copies) := following_idle fun _ => rfl
      refine meets_bind (hidle.pre ?_) fun _ => meets_bind
        (Q := fun _ => Following loggedFirst copies steps v) (meets_modify fun _ h => h) fun _ =>
          meets_pure fun _ h => ⟨rfl, h⟩
      rintro _ rfl
      exact hs

theorem following_track (resource : Resource) (file : String) :
    Meets (Following loggedFirst copies ((v.track resource file).1 ++ steps) v)
      (track (appendRecord loggedFirst true) resource file)
      (fun _ => Following loggedFirst copies steps (v.track resource file).2) (Gone copies) := by
  unfold View.track
  split_ifs with hnone hcurrent
  · have hbackup := @following_backupCurrent copies loggedFirst steps v file
    rw [if_pos hnone, hnone] at hbackup
    refine meets_bind hbackup fun existed => meets_get_bind ?_
    rintro s ⟨rfl, hs⟩
    refine meets_ite (fun h => absurd h.1 Bool.false_ne_true) fun _ => meets_pure ?_
    rintro _ rfl
    exact hs
  · have hbackup := @following_backupCurrent copies loggedFirst
      (.copy (v.path resource) true :: steps) v file
    rw [if_neg hnone] at hbackup
    refine meets_bind hbackup fun existed => meets_get_bind ?_
    rintro s ⟨hexisted, hs⟩
    have hsome : existed = true := hexisted.trans (Option.isSome_iff_ne_none.mpr hnone)
    have hzero : (dataOf s.data resource).currentVersion = 0 := by
      rw [← hs.2.2] at hcurrent
      exact hcurrent
    refine meets_ite (fun _ => ?_) fun hnot => absurd ⟨hsome, hzero⟩ hnot
    have hread : ∀ s, viewOf s = v → ((Source.formal file).read s.disk).isSome = true := by
      rintro s rfl
      exact Option.isSome_iff_ne_none.mpr hnone
    refine meets_bind ((following_appendRecord resource "" hread).pre ?_) fun _ =>
      meets_pure fun _ h => h.2
    rintro _ rfl
    exact hs
  · have hbackup := @following_backupCurrent copies loggedFirst steps v file
    rw [if_neg hnone] at hbackup
    refine meets_bind hbackup fun existed => meets_get_bind ?_
    rintro s ⟨-, hs⟩
    have hnonzero : (dataOf s.data resource).currentVersion ≠ 0 := by
      rw [← hs.2.2] at hcurrent
      exact hcurrent
    refine meets_ite (fun h => absurd h.2 hnonzero) fun _ => meets_pure ?_
    rintro _ rfl
    exact hs

theorem following_replaceFormal {stagedFile : String} (file : String)
    (hstaged : (v.staged stagedFile).isSome) :
    Meets (Following loggedFirst copies (.other :: steps) v) (replaceFormal stagedFile file)
      (fun _ => Following loggedFirst copies steps (v.replace stagedFile file)) (Gone copies) := by
  refine following_attempt fun s hview => ?_
  subst hview
  obtain ⟨bytes, hbytes⟩ := Option.isSome_iff_exists.mp hstaged
  have hread : s.disk.staged stagedFile = some bytes := hbytes
  refine ⟨_, Option.map_eq_some_iff.mpr ⟨bytes, hread, rfl⟩, ?_⟩
  unfold View.replace
  rw [hbytes]
  rfl

theorem following_activate (commit : StagedVersionCommit) :
    Meets (Following loggedFirst copies ((v.activate commit).1 ++ steps) v)
      (activate (appendRecord loggedFirst true) commit)
      (fun _ => Following loggedFirst copies steps (v.activate commit).2) (Gone copies) := by
  unfold View.activate
  rw [List.append_assoc]
  refine meets_bind (following_track commit.resource commit.currentFile) fun _ =>
    meets_bind (following_appendRecord commit.resource commit.prompt ?_) fun version => ?_
  · intro s hview
    rw [← hview]
    rfl
  · refine meets_of_forall fun s hs => ?_
    have hreplace := @following_replaceFormal copies loggedFirst steps
      ((v.track commit.resource commit.currentFile).2.record commit.resource commit.prompt)
      commit.stagedFile commit.currentFile hs.1
    refine meets_bind (hreplace.pre ?_) fun _ => meets_pure fun _ => id
    rintro _ rfl
    exact hs.2

theorem following_finish {α : Type} (value : α) :
    Meets (fun s => ∃ v, Following loggedFirst copies [.other, .other] v s) (do
      saveVersions
      callback
      return value) (fun _ _ => True) (Gone copies) := by
  refine meets_of_forall fun s₀ ⟨v, hv⟩ => ?_
  refine meets_bind (Q := fun _ => Following loggedFirst copies [.other] v) ?_ fun _ => meets_bind
    (Q := fun _ => Following loggedFirst copies [] v) (following_idle fun _ => rfl) fun _ =>
      meets_pure fun _ _ => trivial
  refine meets_get_bind ?_
  rintro s rfl
  refine (following_idle fun _ => rfl).pre ?_
  rintro _ rfl
  exact hv

theorem following_activateAll (commits : List StagedVersionCommit) :
    Meets (Following false copies (v.activateAll commits) v) (do
      let results ← activateAll commits
      saveVersions
      callback
      return results) (fun _ _ => True) (Gone copies) := by
  suffices h : Meets (Following false copies (v.activateAll commits) v) (activateAll commits)
      (fun _ s => ∃ v', Following false copies [.other, .other] v' s) (Gone copies) by
    exact meets_bind h fun results => following_finish results
  induction commits generalizing v with
  | nil => exact meets_pure fun _ hs => ⟨v, hs⟩
  | cons commit commits ih =>
      exact meets_bind (following_activate commit) fun _ => meets_bind ih fun _ =>
        meets_pure fun _ => id

theorem following_appendAll (commits : List InstalledVersionCommit) :
    Meets (Following true copies (v.appendAll commits) v) (do
      let results ← appendAll commits
      saveVersions
      callback
      return results) (fun _ _ => True) (Gone copies) := by
  suffices h : Meets (Following true copies (v.appendAll commits) v) (appendAll commits)
      (fun _ s => ∃ v', Following true copies [.other, .other] v' s) (Gone copies) by
    exact meets_bind h fun results => following_finish results
  induction commits generalizing v with
  | nil => exact meets_pure fun _ hs => ⟨v, hs⟩
  | cons commit commits ih =>
      refine meets_bind (following_appendRecord commit.resource commit.prompt ?_) fun _ =>
        meets_bind (ih.pre fun _ h => h.2) fun _ => meets_pure fun _ => id
      intro s hview
      rw [← hview]
      rfl

end Following

def Operation.logsFirst : Operation → Bool
  | commitStagedVersions _ => false
  | _ => true

/-- The steps of a call whose checks succeed, when it copies into the history. -/
def Operation.steps (s : Session) : Operation → List Step
  | commitStagedVersion commit =>
      if s.disk.staged commit.stagedFile = none then []
      else (viewOf (loaded s)).activateAll [commit]
  | commitStagedVersions commits =>
      if checkStaged s.disk [] [] commits = none then (viewOf (loaded s)).activateAll commits else []
  | commitInstalledVersions commits =>
      if checkInstalled s.disk [] commits = none then (viewOf (loaded s)).appendAll commits else []
  | _ => []

def Operation.copies (operation : Operation) (s : Session) : Copies :=
  copiesOf operation.logsFirst (operation.steps s) s.faults []

section Failures

variable {s : Session} {loggedFirst : Bool}

theorem gone_loaded (s : Session) (loggedFirst : Bool) (e : VersionError) :
    Gone (copiesOf loggedFirst [] s.faults []) e (loaded s) :=
  ⟨rfl, rfl⟩

theorem gone_guarded {α : Type} {body : VersionM α} {steps : List Step} {copies : Copies}
    (hcopies : copiesOf loggedFirst steps s.faults [] = copies)
    (hbody : Meets (Following loggedFirst copies steps (viewOf (loaded s))) body (fun _ _ => True)
      (Gone copies)) :
    Meets (· = loaded s) (guarded body) (fun _ _ => True) (Gone copies) := by
  refine meets_guarded (hbody.pre ?_) fun _ _ s₁ _ _ _ _ hgone _ _ => hgone
  rintro _ rfl
  exact ⟨hcopies, rfl, rfl⟩

theorem gone_commitStagedVersion (commit : StagedVersionCommit) :
    Meets (· = s) (commitStagedVersion commit) (fun _ _ => True)
      (Gone ((Operation.commitStagedVersion commit).copies s)) := by
  have hcopies : (Operation.commitStagedVersion commit).copies s = copiesOf true
      (if s.disk.staged commit.stagedFile = none then []
        else (viewOf (loaded s)).activateAll [commit]) s.faults [] := rfl
  refine meets_bind meets_loadVersions fun _ => meets_get_bind ?_
  rintro _ rfl
  refine meets_ite (fun hmissing => meets_throw_bind ?_) fun hstaged => ?_
  · rintro _ rfl
    rw [hcopies, if_pos (show s.disk.staged commit.stagedFile = none from hmissing)]
    exact gone_loaded s true _
  · rw [if_neg (show ¬ s.disk.staged commit.stagedFile = none from hstaged)] at hcopies
    refine gone_guarded hcopies.symm (meets_bind (following_activate commit) fun result => ?_)
    exact (following_finish result.2).pre fun _ hs => ⟨_, hs⟩

theorem gone_commitStagedVersions (commits : List StagedVersionCommit) :
    Meets (· = s) (commitStagedVersions commits) (fun _ _ => True)
      (Gone ((Operation.commitStagedVersions commits).copies s)) := by
  have hcopies : (Operation.commitStagedVersions commits).copies s = copiesOf false
      (if checkStaged s.disk [] [] commits = none then (viewOf (loaded s)).activateAll commits
        else []) s.faults [] := rfl
  refine meets_bind meets_loadVersions fun _ => meets_get_bind ?_
  rintro _ rfl
  refine meets_ite (fun _ => meets_pure fun _ _ => trivial) fun _ => ?_
  rw [show (loaded s).disk = s.disk from rfl]
  cases hcheck : checkStaged s.disk [] [] commits with
  | some error =>
      rw [hcheck, if_neg (Option.some_ne_none error)] at hcopies
      refine meets_throw ?_
      rintro _ rfl
      rw [hcopies]
      exact gone_loaded s false _
  | none =>
      rw [if_pos hcheck] at hcopies
      exact gone_guarded hcopies.symm (following_activateAll commits)

theorem gone_commitInstalledVersions (commits : List InstalledVersionCommit) :
    Meets (· = s) (commitInstalledVersions commits) (fun _ _ => True)
      (Gone ((Operation.commitInstalledVersions commits).copies s)) := by
  have hcopies : (Operation.commitInstalledVersions commits).copies s = copiesOf true
      (if checkInstalled s.disk [] commits = none then (viewOf (loaded s)).appendAll commits
        else []) s.faults [] := rfl
  refine meets_bind meets_loadVersions fun _ => meets_get_bind ?_
  rintro _ rfl
  refine meets_ite (fun _ => meets_pure fun _ _ => trivial) fun _ => ?_
  rw [show (loaded s).disk = s.disk from rfl]
  cases hcheck : checkInstalled s.disk [] commits with
  | some error =>
      rw [hcheck, if_neg (Option.some_ne_none error)] at hcopies
      refine meets_throw ?_
      rintro _ rfl
      rw [hcopies]
      exact gone_loaded s true _
  | none =>
      rw [if_pos hcheck] at hcopies
      exact gone_guarded hcopies.symm (following_appendAll commits)

end Failures

/-- When a call fails and its rollback is complete, everything is as it was before if and only if no
path that was logged for a snapshot was in use before, and what is left of a copy that is not logged is
what was there before. -/
theorem failed_restored_iff (operation : Operation) {s s' : Session} {e : VersionError}
    (h : operation.run s = .error e s') (he : e ≠ .rollbackIncomplete) :
    Restored s.disk s'.disk ↔
      (∀ path ∈ (operation.copies s).created, s.disk.snapshots path = none) ∧
        ∀ entry ∈ (operation.copies s).strayed, s.disk.snapshots entry.1 = some entry.2 := by
  -- a call that copies nothing into the history
  have hnothing : ∀ {e s'}, OwesAll s e s' → e ≠ .rollbackIncomplete → operation.steps s = [] →
      (Restored s.disk s'.disk ↔
        (∀ path ∈ (operation.copies s).created, s.disk.snapshots path = none) ∧
          ∀ entry ∈ (operation.copies s).strayed, s.disk.snapshots entry.1 = some entry.2) := by
    intro e s' howes he hsteps
    refine iff_of_true (howes he).1 ?_
    unfold Operation.copies
    rw [hsteps]
    exact ⟨fun _ h => absurd h List.not_mem_nil, fun _ h => absurd h List.not_mem_nil⟩
  cases operation with
  | commitStagedVersion commit =>
      obtain ⟨howes, hcreated, hstrayed⟩ := (meets_bind ((owes_commitStagedVersion commit).and
        (gone_commitStagedVersion commit)) fun _ => meets_pure (Q := fun _ _ => True)
          fun _ _ => trivial).error ⟨rfl, rfl⟩ h
      rw [← hcreated, ← hstrayed]
      exact (howes he).1
  | commitStagedVersions commits =>
      obtain ⟨howes, hcreated, hstrayed⟩ := (meets_bind ((owes_commitStagedVersions commits).and
        (gone_commitStagedVersions commits)) fun _ => meets_pure (Q := fun _ _ => True)
          fun _ _ => trivial).error ⟨rfl, rfl⟩ h
      rw [← hcreated, ← hstrayed]
      exact (howes he).1
  | commitInstalledVersions commits =>
      obtain ⟨howes, hcreated, hstrayed⟩ := (meets_bind ((owes_commitInstalledVersions commits).and
        (gone_commitInstalledVersions commits)) fun _ => meets_pure (Q := fun _ _ => True)
          fun _ _ => trivial).error ⟨rfl, rfl⟩ h
      rw [← hcreated, ← hstrayed]
      exact (howes he).1
  | rejectCurrentVersion resource rejectedVersion restore currentFile =>
      exact hnothing ((meets_bind (owesAll_rejectCurrentVersion resource rejectedVersion restore
        currentFile) fun _ => meets_pure (Q := fun _ _ => True) fun _ _ => trivial).error rfl h) he rfl
  | rejectCurrentVersions rejections =>
      exact hnothing ((meets_bind (owesAll_rejectCurrentVersions rejections) fun _ =>
        meets_pure (Q := fun _ _ => True) fun _ _ => trivial).error rfl h) he rfl
  | restoreVersion resource version currentFile =>
      exact hnothing ((meets_bind (owesAll_restoreVersion resource version currentFile) fun _ =>
        meets_pure (Q := fun _ _ => True) fun _ _ => trivial).error rfl h) he rfl

private def scene : Resource where
  type := .scenes
  id := "Harbour"
  segments := by decide

private def sceneCommit : StagedVersionCommit where
  resource := scene
  prompt := "boats"
  stagedFile := "scenes/.staged.png"
  currentFile := "scenes/Harbour.png"

private def stagedScene (faults : List Fault) : Session where
  disk :=
    { versionsFile := none
      formal := fun _ => none
      snapshots := fun _ => none
      staged := fun path => if path = "scenes/.staged.png" then some [1] else none }
  faults
  now := fun _ => { text := "20260101T000000", plain := by decide }
  ticks := 0
  data := fun _ => none
  created := []
  strayed := []
  states := []

private def failureOf (result : EStateM.Result VersionError Session Unit) :
    Option (VersionError × Disk) :=
  match result with
  | .ok _ _ => none
  | .error e s => some (e, s.disk)

/-- The callback fails. -/
theorem failed_restored_iff_callback :
    ∃ s', (Operation.commitStagedVersion sceneCommit).run
        (stagedScene [.none, .none, .none, .stops none]) = .error .failed s' ∧
      (Restored (stagedScene []).disk s'.disk ↔
        (∀ path ∈ ((Operation.commitStagedVersion sceneCommit).copies
            (stagedScene [.none, .none, .none, .stops none])).created,
          (stagedScene []).disk.snapshots path = none) ∧
        ∀ entry ∈ ((Operation.commitStagedVersion sceneCommit).copies
            (stagedScene [.none, .none, .none, .stops none])).strayed,
          (stagedScene []).disk.snapshots entry.1 = some entry.2) := by
  have herror : (failureOf ((Operation.commitStagedVersion sceneCommit).run
      (stagedScene [.none, .none, .none, .stops none]))).map Prod.fst = some .failed := by
    decide +kernel
  cases hrun : (Operation.commitStagedVersion sceneCommit).run
      (stagedScene [.none, .none, .none, .stops none]) with
  | ok a s' =>
      rw [hrun] at herror
      cases herror
  | error e s' =>
      rw [hrun] at herror
      obtain rfl := Option.some.inj herror
      exact ⟨s', rfl, failed_restored_iff _ hrun (by decide)⟩

/-- The copy of a batch stops and leaves a part of the snapshot, which stays. -/
theorem failed_not_restored :
    ¬ ∀ (operation : Operation) (s s' : Session) (e : VersionError), operation.run s = .error e s' →
      e ≠ .rollbackIncomplete → Restored s.disk s'.disk := by
  intro h
  have hleft : (failureOf ((Operation.commitStagedVersions [sceneCommit]).run
      (stagedScene [.stops (some [2])]))).map (fun failure =>
        (failure.1, failure.2.snapshots ((viewOf (stagedScene [])).path scene))) =
          some (.failed, some [2]) := by
    decide +kernel
  cases hrun : (Operation.commitStagedVersions [sceneCommit]).run
      (stagedScene [.stops (some [2])]) with
  | ok a s' =>
      rw [hrun] at hleft
      cases hleft
  | error e s' =>
      rw [hrun] at hleft
      obtain ⟨rfl, hsnapshot⟩ := Prod.mk.inj (Option.some.inj hleft)
      have hrestored := (h _ _ _ _ hrun (by decide)).snapshots
      rw [hrestored] at hsnapshot
      cases hsnapshot

end ShortReel.VersionFailures
