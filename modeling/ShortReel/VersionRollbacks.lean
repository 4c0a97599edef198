import ShortReel.VersionSteps

/-!
# Rollbacks of version commits

A call that fails undoes what it has logged. This is all of it, unless a copy has left a part of a file
that is not logged, or a logged path had a file before.
-/

namespace ShortReel.VersionRollbacks

open FallibleStates ResourcePaths VersionStore VersionSteps

/-- The disk in the middle of a call: the backups give the formal files of the start, and only the
snapshots that are created, just copied or strayed are other ones. -/
structure Tracked (start disk : Disk) (created copied : List String)
    (strayed : List (String × Bytes)) (states : List (String × Option Bytes)) : Prop where
  formal : ∀ path, (states.lookup path).getD (disk.formal path) = start.formal path
  snapshots : ∀ path ∉ created, path ∉ copied → path ∉ strayed.map Prod.fst →
    disk.snapshots path = start.snapshots path
  strayed : ∀ entry ∈ strayed, entry.1 ∉ created ∧ disk.snapshots entry.1 = some entry.2

def Forward (start : Disk) (copied : List String) (K : List (String × Option Bytes) → Prop)
    (s : Session) : Prop :=
  Tracked start s.disk s.created copied s.strayed s.states ∧ s.strayed = [] ∧ K s.states

def Failing (start : Disk) (s : Session) : Prop :=
  Tracked start s.disk s.created [] s.strayed s.states

structure Restored (start disk : Disk) : Prop where
  versionsFile : disk.versionsFile = start.versionsFile
  formal : disk.formal = start.formal
  snapshots : disk.snapshots = start.snapshots

section Forwards

variable {start : Disk} {copied : List String} {K : List (String × Option Bytes) → Prop}
  {s : Session}

theorem forward_start (disk : Disk) (faults : List Fault) (now : ℕ → Timestamp) (ticks : ℕ)
    (data : VersionsDoc) : Forward disk [] (fun _ => True) ⟨disk, faults, now, ticks, data, [], [], []⟩ :=
  ⟨⟨fun _ => rfl, fun _ _ _ _ => rfl, fun _ h => absurd h List.not_mem_nil⟩, rfl, trivial⟩

theorem tracked_copy {path : String} {bytes : Option Bytes} {disk : Disk} {created : List String}
    {states : List (String × Option Bytes)} (h : Tracked start disk created [] [] states) :
    Tracked start (disk.writeSnapshot path bytes) created [path] [] states := by
  refine ⟨h.formal, fun other hcreated hcopied _ => ?_, fun _ hin => absurd hin List.not_mem_nil⟩
  have hne : other ≠ path := fun heq => hcopied (heq ▸ List.mem_singleton_self path)
  rw [writeSnapshot_of_ne _ _ hne]
  exact h.snapshots other hcreated List.not_mem_nil List.not_mem_nil

theorem tracked_log {path : String} {disk : Disk} {created : List String}
    {states : List (String × Option Bytes)} (h : Tracked start disk created [path] [] states) :
    Tracked start disk (created ++ [path]) [] [] states := by
  refine ⟨h.formal, fun other hcreated _ _ => ?_, fun _ hin => absurd hin List.not_mem_nil⟩
  obtain ⟨hbefore, hpath⟩ := not_or.mp fun hin => hcreated (List.mem_append.mpr hin)
  exact h.snapshots other hbefore hpath List.not_mem_nil

theorem tracked_leave {path : String} {bytes : Bytes} (h : Tracked start s.disk s.created [] [] s.states)
    (hstrayed : s.strayed = []) : Failing start (leaveSnapshot path bytes s) := by
  have hcopy := @tracked_copy start path (some bytes) _ _ _ h
  unfold Failing leaveSnapshot
  dsimp only
  split_ifs with hlogged
  · rw [hstrayed]
    refine ⟨hcopy.formal, fun other hcreated _ _ => ?_, fun _ hin => absurd hin List.not_mem_nil⟩
    have hne : other ≠ path := fun heq => hcreated (heq ▸ hlogged)
    exact hcopy.snapshots other hcreated (fun hin => hne (List.mem_singleton.mp hin))
      List.not_mem_nil
  · rw [hstrayed]
    refine ⟨hcopy.formal, fun other hcreated _ hother => ?_, fun entry hentry => ?_⟩
    · exact hcopy.snapshots other hcreated hother List.not_mem_nil
    · obtain rfl := List.mem_singleton.mp hentry
      exact ⟨hlogged, Function.update_self _ _ _⟩

theorem tracked_formal {file : String} {bytes : Option Bytes} {disk : Disk}
    {created : List String} {states : List (String × Option Bytes)}
    (h : Tracked start disk created [] [] states) (hfile : (states.lookup file).isSome) :
    Tracked start (disk.writeFormal file bytes) created [] [] states := by
  refine ⟨fun path => ?_, h.snapshots, h.strayed⟩
  by_cases hpath : path = file
  · obtain ⟨before, hbefore⟩ := Option.isSome_iff_exists.mp hfile
    have hformal := h.formal path
    rw [hpath, hbefore] at hformal ⊢
    exact hformal
  · rw [writeFormal_of_ne _ _ hpath]
    exact h.formal path

theorem tracked_backup {file : String} {disk : Disk} {created : List String}
    {states : List (String × Option Bytes)} (h : Tracked start disk created [] [] states) :
    Tracked start disk created [] [] (states ++ [(file, disk.formal file)]) := by
  refine ⟨fun path => ?_, h.snapshots, h.strayed⟩
  have hformal := h.formal path
  rw [List.lookup_append]
  cases hlookup : states.lookup path with
  | some before =>
      rw [hlookup] at hformal
      exact hformal
  | none =>
      rw [hlookup] at hformal
      by_cases hpath : path = file
      · subst hpath
        simpa using hformal
      · rw [List.lookup_cons, beq_false_of_ne hpath]
        exact hformal

def Clean (loggedFirst : Bool) (s : Session) : Prop :=
  loggedFirst = true → s.strayed = []

theorem forward_appendRecord (loggedFirst selects : Bool) (resource : Resource) (source : Source)
    (prompt : String) :
    Meets (Forward start [] K) (appendRecord loggedFirst selects resource source prompt)
      (fun _ => Forward start [] K) (fun _ s => Failing start s ∧ Clean loggedFirst s) := by
  have hlogged : ∀ s, Forward start [] K s → ∀ faults,
      Forward start [] K (appending resource loggedFirst faults s) := by
    rintro s ⟨htracked, hstrayed, hK⟩ faults
    refine ⟨?_, hstrayed, hK⟩
    unfold appending
    cases loggedFirst with
    | true =>
        refine ⟨htracked.formal, fun path hcreated hcopied hother => ?_, fun entry hentry => ?_⟩
        · exact htracked.snapshots path (fun hin => hcreated (List.mem_append_left _ hin)) hcopied
            hother
        · rw [hstrayed] at hentry
          cases hentry
    | false => exact htracked
  refine meets_appendRecord resource ?_ ?_ ?_
  · intro s faults hs
    exact ⟨(hlogged s hs faults).1, fun _ => hs.2.1⟩
  · intro s faults bytes hs
    obtain ⟨htracked, hstrayed, -⟩ := hlogged s hs faults
    rw [hstrayed] at htracked
    refine ⟨tracked_leave htracked hstrayed, fun hfirst => ?_⟩
    have hmem : newPath resource s ∈ (appending resource loggedFirst faults s).created := by
      unfold appending
      rw [hfirst]
      exact List.mem_append_right _ (List.mem_singleton_self _)
    unfold leaveSnapshot
    rw [if_pos hmem]
    exact hstrayed
  · rintro s faults bytes ⟨htracked, hstrayed, hK⟩ -
    rw [hstrayed] at htracked
    refine ⟨?_, hstrayed, hK⟩
    unfold withRecord
    rw [hstrayed]
    exact tracked_log (tracked_copy htracked)

theorem forward_attempt {effect : Disk → Option Disk} {loggedFirst : Bool}
    (h : ∀ disk disk' created states, Tracked start disk created [] [] states → K states →
      effect disk = some disk' → Tracked start disk' created [] [] states) :
    Meets (Forward start [] K) (attempt effect) (fun _ => Forward start [] K)
      (fun _ s => Failing start s ∧ Clean loggedFirst s) := by
  refine meets_attempt ?_ ?_
  · exact fun s faults hs => ⟨hs.1, fun _ => hs.2.1⟩
  · rintro s faults disk ⟨htracked, hstrayed, hK⟩ heffect
    rw [hstrayed] at htracked
    refine ⟨?_, hstrayed, hK⟩
    rw [hstrayed]
    exact h s.disk disk s.created s.states htracked hK heffect

theorem forward_saveVersions {loggedFirst : Bool} :
    Meets (Forward start [] K) saveVersions (fun _ => Forward start [] K)
      (fun _ s => Failing start s ∧ Clean loggedFirst s) := by
  refine meets_get_bind fun s hs => (forward_attempt ?_).pre ?_
  · intro disk disk' created states htracked _ heffect
    obtain rfl := Option.some.inj heffect
    exact ⟨htracked.formal, htracked.snapshots, htracked.strayed⟩
  · rintro _ rfl
    exact hs

theorem forward_callback {loggedFirst : Bool} :
    Meets (Forward start [] K) callback (fun _ => Forward start [] K)
      (fun _ s => Failing start s ∧ Clean loggedFirst s) := by
  refine forward_attempt ?_
  intro disk disk' created states htracked _ heffect
  rwa [← Option.some.inj heffect]

theorem forward_setCurrent {loggedFirst : Bool} (resource : Resource) (version : ℕ) :
    Meets (Forward start [] K) (setCurrent resource version) (fun _ => Forward start [] K)
      (fun _ s => Failing start s ∧ Clean loggedFirst s) :=
  meets_modify fun _ hs => hs

theorem forward_backupCurrent {loggedFirst : Bool} (file : String) :
    Meets (Forward start [] fun _ => True) (backupCurrent file)
      (fun _ => Forward start [] fun states => (states.lookup file).isSome)
      (fun _ s => Failing start s ∧ Clean loggedFirst s) := by
  have hkept : ∀ (states : List (String × Option Bytes)) bytes,
      ((states ++ [(file, bytes)]).lookup file).isSome := by
    intro states bytes
    rw [List.lookup_append, List.lookup_cons_self, Option.isSome_or]
    exact Bool.or_true _
  refine meets_backupCurrent ?_ ?_ ?_
  · rintro s ⟨htracked, hstrayed, -⟩ hnone
    rw [hstrayed] at htracked
    have hbackup := @tracked_backup start file _ _ _ htracked
    rw [hnone] at hbackup
    refine ⟨?_, hstrayed, hkept _ _⟩
    rw [hstrayed]
    exact hbackup
  · exact fun s faults hs => ⟨hs.1, fun _ => hs.2.1⟩
  · rintro s faults bytes ⟨htracked, hstrayed, -⟩ hsome
    rw [hstrayed] at htracked
    have hbackup := @tracked_backup start file _ _ _ htracked
    rw [hsome] at hbackup
    refine ⟨?_, hstrayed, hkept _ _⟩
    rw [hstrayed]
    exact hbackup

theorem forward_replaceFormal {loggedFirst : Bool} (stagedFile file : String) :
    Meets (Forward start [] fun states => (states.lookup file).isSome)
      (replaceFormal stagedFile file)
      (fun _ => Forward start [] fun states => (states.lookup file).isSome)
      (fun _ s => Failing start s ∧ Clean loggedFirst s) := by
  refine forward_attempt ?_
  intro disk disk' created states htracked hfile heffect
  obtain ⟨bytes, -, rfl⟩ := Option.map_eq_some_iff.mp heffect
  have hformal := @tracked_formal start file (some bytes) _ _ _ htracked hfile
  exact ⟨hformal.formal, hformal.snapshots, hformal.strayed⟩

theorem forward_copyToFormal {loggedFirst : Bool} (path file : String) :
    Meets (Forward start [] fun states => (states.lookup file).isSome) (copyToFormal path file)
      (fun _ => Forward start [] fun states => (states.lookup file).isSome)
      (fun _ s => Failing start s ∧ Clean loggedFirst s) := by
  have hwrite : ∀ s bytes, Forward start [] (fun states => (states.lookup file).isSome) s →
      Tracked start (s.disk.writeFormal file bytes) s.created [] s.strayed s.states := by
    rintro s bytes ⟨htracked, hstrayed, hfile⟩
    rw [hstrayed] at htracked ⊢
    exact tracked_formal htracked hfile
  refine meets_copyToFormal ?_ ?_ ?_
  · exact fun s faults hs => ⟨hs.1, fun _ => hs.2.1⟩
  · exact fun s faults bytes hs => ⟨hwrite s bytes hs, fun _ => hs.2.1⟩
  · exact fun s faults bytes hs _ => ⟨hwrite s bytes hs, hs.2⟩

theorem forward_selectPrevious {loggedFirst : Bool} (resource : Resource) (file : String)
    (previous : Option VersionRecord) :
    Meets (Forward start [] fun states => (states.lookup file).isSome)
      (selectPrevious resource file previous)
      (fun _ => Forward start [] fun states => (states.lookup file).isSome)
      (fun _ s => Failing start s ∧ Clean loggedFirst s) := by
  have hwrite : ∀ bytes, Meets (Forward start [] fun states => (states.lookup file).isSome)
      (attempt fun disk => some (disk.writeFormal file bytes))
      (fun _ => Forward start [] fun states => (states.lookup file).isSome)
      (fun _ s => Failing start s ∧ Clean loggedFirst s) := by
    refine fun bytes => forward_attempt fun disk disk' created states htracked hfile heffect => ?_
    rw [← Option.some.inj heffect]
    exact tracked_formal htracked hfile
  cases previous with
  | none => exact meets_bind (hwrite none) fun _ => forward_setCurrent resource 0
  | some record =>
      refine meets_get_bind fun s hs => ?_
      cases s.disk.snapshots record.file with
      | none => exact meets_throw fun _ hsame => hsame ▸ ⟨hs.1, fun _ => hs.2.1⟩
      | some bytes =>
          exact meets_bind (forward_callback.pre fun _ hsame => hsame ▸ hs) fun _ => meets_bind
            (hwrite (some bytes)) fun _ => forward_setCurrent resource record.version

theorem forward_track {loggedFirst : Bool} (resource : Resource) (file : String) :
    Meets (Forward start [] fun _ => True) (track (appendRecord loggedFirst true) resource file)
      (fun _ => Forward start [] fun states => (states.lookup file).isSome)
      (fun _ s => Failing start s ∧ Clean loggedFirst s) := by
  refine meets_bind (forward_backupCurrent file) fun existed => meets_get_bind fun s hs => ?_
  refine meets_ite (fun _ => ?_) fun _ => ?_
  · refine meets_bind ((forward_appendRecord loggedFirst true resource _ _).pre ?_) fun _ =>
      meets_pure fun _ => id
    rintro _ rfl
    exact hs
  · refine meets_pure ?_
    rintro _ rfl
    exact hs

theorem forward_activate {loggedFirst : Bool} (commit : StagedVersionCommit) :
    Meets (Forward start [] fun _ => True) (activate (appendRecord loggedFirst true) commit)
      (fun _ => Forward start [] fun _ => True)
      (fun _ s => Failing start s ∧ Clean loggedFirst s) := by
  refine meets_bind (forward_track commit.resource commit.currentFile) fun _ =>
    meets_bind (forward_appendRecord loggedFirst true commit.resource _ _) fun _ =>
      meets_bind (forward_replaceFormal commit.stagedFile commit.currentFile) fun _ => ?_
  exact meets_pure fun _ hs => ⟨hs.1, hs.2.1, trivial⟩

theorem forward_finish {α : Type} {loggedFirst : Bool} (value : α) :
    Meets (Forward start [] K) (do
      saveVersions
      callback
      return value) (fun _ => Forward start [] K)
      (fun _ s => Failing start s ∧ Clean loggedFirst s) :=
  meets_bind forward_saveVersions fun _ => meets_bind forward_callback fun _ =>
    meets_pure fun _ => id

theorem forward_activateAll (commits : List StagedVersionCommit) :
    Meets (Forward start [] fun _ => True) (activateAll commits)
      (fun _ => Forward start [] fun _ => True)
      (fun _ s => Failing start s ∧ Clean false s) := by
  induction commits with
  | nil => exact meets_pure fun _ => id
  | cons commit commits ih =>
      exact meets_bind (forward_activate commit) fun _ => meets_bind ih fun _ =>
        meets_pure fun _ => id

theorem forward_appendAll (commits : List InstalledVersionCommit) :
    Meets (Forward start [] fun _ => True) (appendAll commits)
      (fun _ => Forward start [] fun _ => True)
      (fun _ s => Failing start s ∧ Clean true s) := by
  induction commits with
  | nil => exact meets_pure fun _ => id
  | cons commit commits ih =>
      exact meets_bind (forward_appendRecord true true _ _ _) fun _ => meets_bind ih fun _ =>
        meets_pure fun _ => id

end Forwards

def loaded (s : Session) : Session :=
  { s with
    data := s.disk.versionsFile.getD fun _ => none
    created := []
    strayed := []
    states := [] }

theorem restored_iff {s₁ : Session} {start : Disk} (h : Failing start s₁) :
    Restored start (undone (undoSteps start.versionsFile s₁) s₁.disk) ↔
      (∀ path ∈ s₁.created, start.snapshots path = none) ∧
        ∀ entry ∈ s₁.strayed, start.snapshots entry.1 = some entry.2 := by
  rw [undone_undoSteps]
  constructor
  · rintro ⟨-, -, hsnapshots⟩
    refine ⟨fun path hpath => ?_, fun entry hentry => ?_⟩
    · rw [← hsnapshots]
      exact if_pos hpath
    · obtain ⟨hcreated, hleft⟩ := h.strayed entry hentry
      rw [← hsnapshots, ← hleft]
      exact if_neg hcreated
  · rintro ⟨hcreated, hstrayed⟩
    refine ⟨rfl, funext h.formal, funext fun path => ?_⟩
    dsimp only
    split_ifs with hpath
    · exact (hcreated path hpath).symm
    · by_cases hstray : path ∈ s₁.strayed.map Prod.fst
      · obtain ⟨entry, hentry, rfl⟩ := List.mem_map.mp hstray
        rw [(h.strayed entry hentry).2, hstrayed entry hentry]
      · exact h.snapshots path hpath List.not_mem_nil hstray

section Rejections

variable {start : Disk} {paths : List String}

structure Outside (start : Disk) (paths : List String) (disk : Disk) (created : List String)
    (strayed : List (String × Bytes)) (states : List (String × Option Bytes)) : Prop where
  formal : ∀ path ∉ paths, disk.formal path = start.formal path
  snapshots : disk.snapshots = start.snapshots
  created : created = []
  strayed : strayed = []
  states : ∀ state ∈ states, state.1 ∈ paths

def Rejecting (start : Disk) (paths : List String) (s : Session) : Prop :=
  Outside start paths s.disk s.created s.strayed s.states

theorem rejecting_attempt {effect : Disk → Option Disk}
    (h : ∀ disk disk', effect disk = some disk' → disk'.snapshots = disk.snapshots ∧
      ∀ path ∉ paths, disk'.formal path = disk.formal path) :
    Meets (Rejecting start paths) (attempt effect) (fun _ => Rejecting start paths)
      (fun _ => Rejecting start paths) := by
  refine meets_attempt (fun s faults hs => hs) ?_
  rintro s faults disk ⟨hformal, hsnapshots, hcreated, hstrayed, hstates⟩ heffect
  obtain ⟨hsame, hother⟩ := h s.disk disk heffect
  refine ⟨fun path hpath => ?_, hsame.trans hsnapshots, hcreated, hstrayed, hstates⟩
  exact (hother path hpath).trans (hformal path hpath)

theorem rejecting_backupCurrent {file : String} (hfile : file ∈ paths) :
    Meets (Rejecting start paths) (backupCurrent file) (fun _ => Rejecting start paths)
      (fun _ => Rejecting start paths) := by
  have hkept : ∀ s bytes, Rejecting start paths s →
      ∀ state ∈ s.states ++ [(file, bytes)], state.1 ∈ paths := by
    intro s bytes hs state hstate
    rcases List.mem_append.mp hstate with hin | hin
    · exact hs.states state hin
    · rwa [List.mem_singleton.mp hin]
  refine meets_backupCurrent ?_ (fun s faults hs => hs) ?_
  · exact fun s hs _ => ⟨hs.formal, hs.snapshots, hs.created, hs.strayed, hkept s none hs⟩
  · exact fun s faults bytes hs _ =>
      ⟨hs.formal, hs.snapshots, hs.created, hs.strayed, hkept s (some bytes) hs⟩

theorem rejecting_setCurrent (resource : Resource) (version : ℕ) :
    Meets (Rejecting start paths) (setCurrent resource version) (fun _ => Rejecting start paths)
      (fun _ => Rejecting start paths) :=
  meets_modify fun _ hs => hs

theorem writeFormal_outside {file : String} (hfile : file ∈ paths) (bytes : Option Bytes)
    (disk : Disk) : (disk.writeFormal file bytes).snapshots = disk.snapshots ∧
      ∀ path ∉ paths, (disk.writeFormal file bytes).formal path = disk.formal path :=
  ⟨rfl, fun _ hpath => writeFormal_of_ne disk bytes fun heq => hpath (heq ▸ hfile)⟩

theorem rejecting_selectPrevious {file : String} (hfile : file ∈ paths) (resource : Resource)
    (previous : Option VersionRecord) :
    Meets (Rejecting start paths) (selectPrevious resource file previous)
      (fun _ => Rejecting start paths) (fun _ => Rejecting start paths) := by
  have hwrite : ∀ bytes, Meets (Rejecting start paths)
      (attempt fun disk => some (disk.writeFormal file bytes)) (fun _ => Rejecting start paths)
      (fun _ => Rejecting start paths) := by
    intro bytes
    refine rejecting_attempt fun disk disk' heffect => ?_
    rw [← Option.some.inj heffect]
    exact writeFormal_outside hfile bytes disk
  have hidle : Meets (Rejecting start paths) (attempt some) (fun _ => Rejecting start paths)
      (fun _ => Rejecting start paths) := by
    refine rejecting_attempt fun disk disk' heffect => ?_
    rw [← Option.some.inj heffect]
    exact ⟨rfl, fun _ _ => rfl⟩
  cases previous with
  | none => exact meets_bind (hwrite none) fun _ => rejecting_setCurrent resource 0
  | some record =>
      refine meets_get_bind fun s hs => ?_
      cases s.disk.snapshots record.file with
      | none => exact meets_throw fun _ hsame => hsame ▸ hs
      | some bytes =>
          refine meets_bind (hidle.pre fun _ hsame => hsame ▸ hs) fun _ => meets_bind
            (hwrite (some bytes)) fun _ => rejecting_setCurrent resource record.version

theorem rejecting_saveVersions :
    Meets (Rejecting start paths) saveVersions (fun _ => Rejecting start paths)
      (fun _ => Rejecting start paths) := by
  refine meets_get_bind fun s hs => (rejecting_attempt fun disk disk' heffect => ?_).pre
    fun _ hsame => hsame ▸ hs
  rw [← Option.some.inj heffect]
  exact ⟨rfl, fun _ _ => rfl⟩

theorem rejecting_callback :
    Meets (Rejecting start paths) callback (fun _ => Rejecting start paths)
      (fun _ => Rejecting start paths) := by
  refine rejecting_attempt fun disk disk' heffect => ?_
  rw [← Option.some.inj heffect]
  exact ⟨rfl, fun _ _ => rfl⟩

theorem rejecting_copyToFormal {file : String} (hfile : file ∈ paths) (path : String) :
    Meets (Rejecting start paths) (copyToFormal path file) (fun _ => Rejecting start paths)
      (fun _ => Rejecting start paths) := by
  have hwrite : ∀ s bytes, Rejecting start paths s →
      Outside start paths (s.disk.writeFormal file bytes) s.created s.strayed s.states := by
    intro s bytes hs
    obtain ⟨hsame, hother⟩ := writeFormal_outside hfile bytes s.disk
    exact ⟨fun other hnot => (hother other hnot).trans (hs.formal other hnot),
      hsame.trans hs.snapshots, hs.created, hs.strayed, hs.states⟩
  exact meets_copyToFormal (fun s faults hs => hs) (fun s faults bytes hs => hwrite s bytes hs)
    fun s faults bytes hs _ => hwrite s bytes hs

theorem rejecting_undone {before : Option VersionsDoc} {s : Session} {faults : List Fault}
    {done : List (Disk → Disk)} (hs : Rejecting start paths s)
    (hdone : done.Sublist (undoSteps before s)) :
    Rejecting start paths { s with faults, disk := undone done s.disk } := by
  have hdisk : (∀ path ∉ paths, (undone done s.disk).formal path = start.formal path) ∧
      (undone done s.disk).snapshots = start.snapshots := by
    refine undone_induction (J := fun disk => (∀ path ∉ paths, disk.formal path = start.formal path) ∧
      disk.snapshots = start.snapshots) ⟨hs.formal, hs.snapshots⟩ fun step hstep disk hdisk => ?_
    rcases List.mem_append.mp (hdone.subset hstep) with hin | hin
    · obtain ⟨state, hstate, rfl⟩ := List.mem_map.mp hin
      have hpath := hs.states state (List.mem_reverse.mp hstate)
      obtain ⟨hsame, hother⟩ := writeFormal_outside hpath state.2 disk
      exact ⟨fun path hnot => (hother path hnot).trans (hdisk.1 path hnot), hsame.trans hdisk.2⟩
    · rw [hs.created] at hin
      obtain rfl := List.mem_singleton.mp hin
      exact hdisk
  exact ⟨hdisk.1, hdisk.2, hs.created, hs.strayed, hs.states⟩

theorem rejecting_rejectCurrentVersion {file : String} (hfile : file ∈ paths) (resource : Resource)
    (version : ℕ) (restore : Option ℕ) {onReject : VersionM Unit}
    (honReject : Meets (Rejecting start paths) onReject (fun _ => Rejecting start paths)
      (fun _ => Rejecting start paths)) :
    Meets (Rejecting start paths) (rejectCurrentVersion resource version restore file onReject)
      (fun _ => Rejecting start paths) (fun _ => Rejecting start paths) := by
  refine meets_bind (Q := fun _ => Rejecting start paths) (meets_modify ?_) fun _ =>
    meets_get_bind fun s hs => ?_
  · exact fun s hs => ⟨hs.formal, hs.snapshots, rfl, rfl, fun _ h => absurd h List.not_mem_nil⟩
  have hhere : ∀ s', s' = s → Rejecting start paths s' := fun _ hsame => hsame ▸ hs
  cases s.data resource with
  | none => exact meets_pure hhere
  | some resourceData =>
      refine meets_ite (fun _ => meets_pure hhere) fun _ => ?_
      cases findVersion resourceData.versions version with
      | none => exact meets_pure hhere
      | some rejected =>
          refine meets_ite (fun _ => meets_throw_bind hhere) fun _ =>
            meets_ite (fun _ => meets_throw_bind hhere) fun _ => ?_
          refine meets_guarded (F := fun _ => Rejecting start paths) ?_ ?_
          · refine Meets.pre (P := Rejecting start paths) ?_ hhere
            exact meets_bind (rejecting_backupCurrent hfile) fun _ =>
              meets_bind (rejecting_selectPrevious hfile resource _) fun _ =>
                meets_bind rejecting_saveVersions fun _ => meets_bind honReject fun _ =>
                  meets_pure fun _ => id
          · exact fun _ _ s _ faults done _ hs hdone _ => rejecting_undone hs hdone

theorem rejecting_rejectAll {rejections : List Rejection}
    (h : ∀ rejection ∈ rejections, rejection.currentFile ∈ paths) :
    Meets (Rejecting start paths) (rejectAll rejections) (fun _ => Rejecting start paths)
      (fun _ => Rejecting start paths) := by
  induction rejections with
  | nil => exact meets_pure fun _ => id
  | cons rejection rejections ih =>
      obtain ⟨hfirst, hrest⟩ := List.forall_mem_cons.mp h
      refine meets_bind (rejecting_rejectCurrentVersion hfirst _ _ none (meets_pure fun _ => id))
        fun selected => meets_ite (fun _ => meets_throw_bind fun _ => id) fun _ => ih hrest

end Rejections

/-- Everything is restored if and only if no snapshot that the call has removed was there before, and
what a copy has left that stopped was there before. -/
def RestoredIf (s s' : Session) : Prop :=
  Restored s.disk s'.disk ↔ (∀ path ∈ s'.created, s.disk.snapshots path = none) ∧
    ∀ entry ∈ s'.strayed, s.disk.snapshots entry.1 = some entry.2

section Failures

variable {s : Session} {α : Type}

def Owes (s : Session) (loggedFirst : Bool) (e : VersionError) (s' : Session) : Prop :=
  e ≠ .rollbackIncomplete → RestoredIf s s' ∧ Clean loggedFirst s'

theorem owes_loaded (s : Session) (loggedFirst : Bool) (e : VersionError) :
    Owes s loggedFirst e (loaded s) :=
  fun _ => ⟨iff_of_true ⟨rfl, rfl, rfl⟩
    ⟨fun _ h => absurd h List.not_mem_nil, fun _ h => absurd h List.not_mem_nil⟩, fun _ => rfl⟩

theorem owes_guarded {body : VersionM α} {loggedFirst : Bool}
    (hbody : Meets (Forward s.disk [] fun _ => True) body (fun _ _ => True)
      (fun _ s₁ => Failing s.disk s₁ ∧ Clean loggedFirst s₁)) :
    Meets (· = loaded s) (guarded body) (fun _ _ => True) (Owes s loggedFirst) := by
  refine meets_guarded (hbody.pre ?_) ?_
  · rintro _ rfl
    exact forward_start _ _ _ _ _
  · rintro _ e s₁ e' faults done rfl ⟨hfailing, hclean⟩ - hcomplete he
    rw [hcomplete he]
    exact ⟨restored_iff hfailing, hclean⟩

theorem meets_loadVersions {E : VersionError → Session → Prop} :
    Meets (· = s) loadVersions (fun _ => (· = loaded s)) E := by
  refine meets_modify ?_
  rintro _ rfl
  rfl

theorem owes_commitStagedVersion (commit : StagedVersionCommit) :
    Meets (· = s) (commitStagedVersion commit) (fun _ _ => True) (Owes s true) := by
  refine meets_bind meets_loadVersions fun _ => meets_get_bind ?_
  rintro _ rfl
  refine meets_ite (fun _ => meets_throw_bind ?_) fun _ => owes_guarded ?_
  · rintro _ rfl
    exact owes_loaded s true _
  · refine meets_bind (forward_activate commit) fun result => ?_
    exact (forward_finish result.2).mono (fun _ => id) (fun _ _ _ => trivial) fun _ _ => id

theorem owes_commitStagedVersions (commits : List StagedVersionCommit) :
    Meets (· = s) (commitStagedVersions commits) (fun _ _ => True) (Owes s false) := by
  refine meets_bind meets_loadVersions fun _ => meets_get_bind ?_
  rintro _ rfl
  refine meets_ite (fun _ => meets_pure fun _ _ => trivial) fun _ => ?_
  cases checkStaged (loaded s).disk [] [] commits with
  | some error =>
      refine meets_throw ?_
      rintro _ rfl
      exact owes_loaded s false _
  | none =>
      refine owes_guarded (meets_bind (forward_activateAll commits) fun results => ?_)
      exact (forward_finish results).mono (fun _ => id) (fun _ _ _ => trivial) fun _ _ => id

theorem owes_commitInstalledVersions (commits : List InstalledVersionCommit) :
    Meets (· = s) (commitInstalledVersions commits) (fun _ _ => True) (Owes s true) := by
  refine meets_bind meets_loadVersions fun _ => meets_get_bind ?_
  rintro _ rfl
  refine meets_ite (fun _ => meets_pure fun _ _ => trivial) fun _ => ?_
  cases checkInstalled (loaded s).disk [] commits with
  | some error =>
      refine meets_throw ?_
      rintro _ rfl
      exact owes_loaded s true _
  | none =>
      refine owes_guarded (meets_bind (forward_appendAll commits) fun results => ?_)
      exact (forward_finish results).mono (fun _ => id) (fun _ _ _ => trivial) fun _ _ => id

/-- A call that copies nothing into the history restores everything. -/
def OwesAll (s : Session) (e : VersionError) (s' : Session) : Prop :=
  e ≠ .rollbackIncomplete → Restored s.disk s'.disk ∧ s'.created = [] ∧ s'.strayed = []

theorem owesAll_loaded (s : Session) (e : VersionError) : OwesAll s e (loaded s) :=
  fun _ => ⟨⟨rfl, rfl, rfl⟩, rfl, rfl⟩

theorem rejecting_loaded (s : Session) (paths : List String) :
    Rejecting s.disk paths (loaded s) :=
  ⟨fun _ _ => rfl, rfl, rfl, rfl, fun _ h => absurd h List.not_mem_nil⟩

theorem owesAll_guarded {body : VersionM α} {file : String}
    (hbody : Meets (Forward s.disk [] fun _ => True) body (fun _ _ => True)
      (fun _ s₁ => Failing s.disk s₁ ∧ Clean true s₁))
    (houtside : Meets (Rejecting s.disk [file]) body (fun _ _ => True)
      (fun _ => Rejecting s.disk [file])) :
    Meets (· = loaded s) (guarded body) (fun _ _ => True) (OwesAll s) := by
  refine meets_guarded ((hbody.and houtside).mono ?_ (fun _ _ _ => trivial) fun _ _ => id) ?_
  · rintro _ rfl
    exact ⟨forward_start _ _ _ _ _, rejecting_loaded s [file]⟩
  · rintro _ e s₁ e' faults done rfl ⟨⟨hfailing, -⟩, hrejecting⟩ - hcomplete he
    have hcreated := hrejecting.created
    have hstrayed := hrejecting.strayed
    rw [hcomplete he]
    refine ⟨(restored_iff hfailing).mpr ?_, hcreated, hstrayed⟩
    rw [hcreated, hstrayed]
    exact ⟨fun _ h => absurd h List.not_mem_nil, fun _ h => absurd h List.not_mem_nil⟩

theorem owesAll_rejectCurrentVersion (resource : Resource) (rejectedVersion : ℕ)
    (restore : Option ℕ) (file : String) :
    Meets (· = s) (rejectCurrentVersion resource rejectedVersion restore file callback)
      (fun _ _ => True) (OwesAll s) := by
  have hhere : ∀ e s', s' = loaded s → OwesAll s e s' := by
    rintro e _ rfl
    exact owesAll_loaded s e
  refine meets_bind meets_loadVersions fun _ => meets_get_bind ?_
  rintro _ rfl
  cases (loaded s).data resource with
  | none => exact meets_pure fun _ _ => trivial
  | some resourceData =>
      refine meets_ite (fun _ => meets_pure fun _ _ => trivial) fun _ => ?_
      cases findVersion resourceData.versions rejectedVersion with
      | none => exact meets_pure fun _ _ => trivial
      | some rejected =>
          refine meets_ite (fun _ => meets_throw_bind (hhere _)) fun _ =>
            meets_ite (fun _ => meets_throw_bind (hhere _)) fun _ => @owesAll_guarded _ _ _ file ?_ ?_
          · exact meets_bind (forward_backupCurrent file) fun _ => meets_bind
              (forward_selectPrevious resource file _) fun _ => (forward_finish true).mono
                (fun _ => id) (fun _ _ _ => trivial) fun _ _ => id
          · have hfile := List.mem_singleton_self file
            exact meets_bind (rejecting_backupCurrent hfile) fun _ => meets_bind
              (rejecting_selectPrevious hfile resource _) fun _ => meets_bind
                rejecting_saveVersions fun _ => meets_bind rejecting_callback fun _ =>
                  meets_pure fun _ _ => trivial

theorem owesAll_restoreVersion (resource : Resource) (version : ℕ) (file : String) :
    Meets (· = s) (restoreVersion resource version file) (fun _ _ => True) (OwesAll s) := by
  have hhere : ∀ e s', s' = loaded s → OwesAll s e s' := by
    rintro e _ rfl
    exact owesAll_loaded s e
  refine meets_bind meets_loadVersions fun _ => meets_get_bind ?_
  rintro _ rfl
  cases (loaded s).data resource with
  | none => exact meets_throw (hhere _)
  | some resourceData =>
      dsimp only
      cases findVersion resourceData.versions version with
      | none => exact meets_throw (hhere _)
      | some record =>
          refine meets_ite (fun _ => meets_throw_bind (hhere _)) fun _ =>
            meets_ite (fun _ => meets_throw_bind (hhere _)) fun _ => @owesAll_guarded _ _ _ file ?_ ?_
          · exact meets_bind (forward_backupCurrent file) fun _ => meets_bind
              (forward_copyToFormal record.file file) fun _ => meets_bind
                (forward_setCurrent resource version) fun _ => (forward_finish record).mono
                  (fun _ => id) (fun _ _ _ => trivial) fun _ _ => id
          · have hfile := List.mem_singleton_self file
            exact meets_bind (rejecting_backupCurrent hfile) fun _ => meets_bind
              (rejecting_copyToFormal hfile record.file) fun _ => meets_bind
                (rejecting_setCurrent resource version) fun _ => meets_bind
                  rejecting_saveVersions fun _ => meets_bind rejecting_callback fun _ =>
                    meets_pure fun _ _ => trivial

theorem lookup_states (rejections : List Rejection) (formal : String → Option Bytes) (path : String) :
    (rejections.map fun rejection => (rejection.currentFile, formal rejection.currentFile)).lookup path =
      if path ∈ rejections.map (·.currentFile) then some (formal path) else none := by
  induction rejections with
  | nil => rfl
  | cons rejection rejections ih =>
      rw [List.map_cons, List.lookup_cons, ih]
      by_cases hpath : path = rejection.currentFile
      · simp [hpath]
      · rw [beq_false_of_ne hpath]
        simp [hpath]

theorem owesAll_rollback (rejections : List Rejection) (failure : VersionError) :
    Meets (Rejecting s.disk (rejections.map (·.currentFile)))
      (rollback ((rejections.map fun rejection =>
        (rejection.currentFile, s.disk.formal rejection.currentFile)).reverse.map restoreFormal ++
          [restoreVersions s.disk.versionsFile]) failure : VersionM α)
      (fun _ _ => True) (OwesAll s) := by
  intro s₁ hs₁
  obtain ⟨e, faults, done, -, hcomplete, hrun⟩ := @rollback_spec α _ failure s₁
  rw [hrun]
  intro he
  rw [(hcomplete he).2, undone_append, undone_states]
  refine ⟨⟨rfl, funext fun path => ?_, hs₁.snapshots⟩, hs₁.created, hs₁.strayed⟩
  change (List.lookup path _).getD (s₁.disk.formal path) = s.disk.formal path
  rw [lookup_states]
  split_ifs with hpath
  · rfl
  · exact hs₁.formal path hpath

theorem owesAll_rejectCurrentVersions (rejections : List Rejection) :
    Meets (· = s) (rejectCurrentVersions rejections) (fun _ _ => True) (OwesAll s) := by
  refine meets_bind meets_loadVersions fun _ => meets_get_bind ?_
  rintro _ rfl
  refine meets_ite (fun _ => meets_pure fun _ _ => trivial) fun _ => ?_
  refine meets_bind (Q := fun _ _ => True) ?_ fun _ => meets_pure fun _ _ => trivial
  refine meets_tryCatch ?_ fun failure => owesAll_rollback _ failure
  refine Meets.pre (P := Rejecting s.disk ((rejections.filter fun rejection =>
    ((loaded s).data rejection.resource).any (·.currentVersion = rejection.version)).map
      (·.currentFile))) ?_ ?_
  rotate_left
  · rintro _ rfl
    exact rejecting_loaded s _
  refine meets_bind (rejecting_rejectAll fun rejection hrejection => ?_) fun _ =>
    rejecting_callback.mono (fun _ => id) (fun _ _ _ => trivial) fun _ _ => id
  exact List.mem_map_of_mem (List.mem_mergeSort.mp hrejection)

end Failures

end ShortReel.VersionRollbacks
