import ShortReel.VersionSteps

/-!
# Version histories

What every step of a call keeps of the records of a resource and of their snapshots, whether the call
succeeds, fails or is rolled back in part.
-/

namespace ShortReel.VersionHistories

open FallibleStates ResourcePaths VersionStore VersionSteps

def docOf (disk : Disk) : VersionsDoc :=
  disk.versionsFile.getD fun _ => none

def recordsOf (doc : VersionsDoc) (resource : Resource) : List VersionRecord :=
  (dataOf doc resource).versions

def Named (doc : VersionsDoc) (resource : Resource) (version : ℕ) : Prop :=
  version = 0 ∨ ∃ record ∈ recordsOf doc resource, record.version = version

/-- The numbers of a resource increase, a record has a snapshot path of its own, and what is current is
a version or none. -/
structure Consistent (doc : VersionsDoc) : Prop where
  increasing : ∀ resource, (recordsOf doc resource).Pairwise fun a b => a.version < b.version
  managed : ∀ resource, ∀ record ∈ recordsOf doc resource, ∃ timestamp,
    record.file = versionSnapshotRelativePath resource record.version timestamp
  current : ∀ resource, Named doc resource (dataOf doc resource).currentVersion

section Documents

variable {doc : VersionsDoc} {resource other : Resource}

theorem dataOf_update (doc : VersionsDoc) (resource : Resource) (resourceData : ResourceData) :
    dataOf (Function.update doc resource (some resourceData)) resource = resourceData := by
  unfold dataOf
  rw [Function.update_self]
  rfl

theorem dataOf_update_of_ne (h : other ≠ resource) (resourceData : ResourceData) :
    dataOf (Function.update doc resource (some resourceData)) other = dataOf doc other := by
  unfold dataOf
  rw [Function.update_of_ne h]

theorem consistent_empty : Consistent fun _ => none :=
  ⟨fun _ => .nil, fun _ _ h => absurd h List.not_mem_nil, fun _ => .inl rfl⟩

theorem foldl_max_le {versions : List ℕ} {start version : ℕ} (h : version ≤ start ∨ version ∈ versions) :
    version ≤ versions.foldl max start := by
  induction versions generalizing start with
  | nil => exact h.resolve_right List.not_mem_nil
  | cons first versions ih =>
      refine ih ?_
      rcases h with hstart | hin
      · exact .inl (hstart.trans (le_max_left _ _))
      · rcases List.mem_cons.mp hin with rfl | hrest
        · exact .inl (le_max_right _ _)
        · exact .inr hrest

theorem lt_nextVersion {records : List VersionRecord} {record : VersionRecord}
    (h : record ∈ records) : record.version < nextVersion records :=
  Nat.lt_succ_of_le (foldl_max_le (.inr (List.mem_map_of_mem h)))

theorem newPath_fresh (hdoc : Consistent doc) {records : List VersionRecord}
    (hrecords : recordsOf doc resource <+: records) (timestamp : Timestamp) {record : VersionRecord}
    (hrecord : record ∈ recordsOf doc other) :
    record.file ≠ versionSnapshotRelativePath resource (nextVersion records) timestamp := by
  intro hfile
  obtain ⟨timestamp', hmanaged⟩ := hdoc.managed other record hrecord
  obtain ⟨rfl, hversion⟩ := versionSnapshotRelativePath_inj (hmanaged.symm.trans hfile)
  exact absurd hversion (lt_nextVersion (hrecords.subset hrecord)).ne

section Edits

variable {resourceData : ResourceData}

theorem named_update (h : recordsOf doc resource <+: resourceData.versions) {version : ℕ}
    (hnamed : Named doc other version) :
    Named (Function.update doc resource (some resourceData)) other version := by
  rcases hnamed with hzero | ⟨record, hrecord, hversion⟩
  · exact .inl hzero
  · refine .inr ⟨record, ?_, hversion⟩
    unfold recordsOf
    by_cases hother : other = resource
    · subst hother
      rw [dataOf_update]
      exact h.subset hrecord
    · rwa [dataOf_update_of_ne hother]

theorem records_update (h : recordsOf doc resource <+: resourceData.versions) (other : Resource) :
    recordsOf doc other <+: recordsOf (Function.update doc resource (some resourceData)) other := by
  unfold recordsOf at h ⊢
  by_cases hother : other = resource
  · subst hother
    rwa [dataOf_update]
  · exact ⟨[], by rw [dataOf_update_of_ne hother, List.append_nil]⟩

theorem consistent_update (hdoc : Consistent doc)
    (hincreasing : resourceData.versions.Pairwise fun a b => a.version < b.version)
    (hmanaged : ∀ record ∈ resourceData.versions, ∃ timestamp,
      record.file = versionSnapshotRelativePath resource record.version timestamp)
    (hcurrent : resourceData.currentVersion = 0 ∨
      ∃ record ∈ resourceData.versions, record.version = resourceData.currentVersion) :
    Consistent (Function.update doc resource (some resourceData)) := by
  have hother : ∀ {other}, other ≠ resource →
      dataOf (Function.update doc resource (some resourceData)) other = dataOf doc other :=
    fun h => dataOf_update_of_ne h resourceData
  refine ⟨fun other => ?_, fun other => ?_, fun other => ?_⟩
  · by_cases h : other = resource
    · subst h
      rwa [recordsOf, dataOf_update]
    · rw [recordsOf, hother h]
      exact hdoc.increasing other
  · by_cases h : other = resource
    · subst h
      rwa [recordsOf, dataOf_update]
    · rw [recordsOf, hother h]
      exact hdoc.managed other
  · by_cases h : other = resource
    · subst h
      rwa [Named, recordsOf, dataOf_update]
    · rw [Named, recordsOf, hother h]
      exact hdoc.current other

end Edits

theorem consistent_appended (hdoc : Consistent doc) (resource : Resource) (timestamp : Timestamp)
    (prompt : String) (selects : Bool) :
    Consistent (Function.update doc resource (some (appended (dataOf doc resource)
      (versionSnapshotRelativePath resource (nextVersion (dataOf doc resource).versions) timestamp)
        prompt selects))) := by
  refine consistent_update hdoc ?_ ?_ ?_
  · refine List.pairwise_append.mpr ⟨hdoc.increasing resource, List.pairwise_singleton _ _, ?_⟩
    intro record hrecord new hnew
    obtain rfl := List.mem_singleton.mp hnew
    exact lt_nextVersion hrecord
  · intro record hrecord
    rcases List.mem_append.mp hrecord with hold | hnew
    · exact hdoc.managed resource record hold
    · obtain rfl := List.mem_singleton.mp hnew
      exact ⟨timestamp, rfl⟩
  · unfold appended
    dsimp only
    split_ifs
    · exact .inr ⟨_, List.mem_append_right _ (List.mem_singleton_self _), rfl⟩
    · refine (hdoc.current resource).imp_right ?_
      rintro ⟨record, hrecord, hversion⟩
      exact ⟨record, List.mem_append_left _ hrecord, hversion⟩

theorem consistent_selected (hdoc : Consistent doc) {version : ℕ} (h : Named doc resource version) :
    Consistent (Function.update doc resource
      (some { dataOf doc resource with currentVersion := version })) :=
  consistent_update hdoc (hdoc.increasing resource) (hdoc.managed resource) h

end Documents

structure Grown (start disk : Disk) : Prop where
  consistent : Consistent (docOf disk)
  records : ∀ resource, recordsOf (docOf start) resource <+: recordsOf (docOf disk) resource
  snapshots : ∀ resource, ∀ record ∈ recordsOf (docOf start) resource,
    disk.snapshots record.file = start.snapshots record.file

def Fresh (start : Disk) (path : String) : Prop :=
  ∀ resource, ∀ record ∈ recordsOf (docOf start) resource, record.file ≠ path

section Disks

variable {start disk : Disk}

theorem grown_refl (h : Consistent (docOf disk)) : Grown disk disk :=
  ⟨h, fun _ => List.prefix_rfl, fun _ _ _ => rfl⟩

theorem Grown.trans {between : Disk} (h : Grown start between) (h' : Grown between disk) :
    Grown start disk := by
  refine ⟨h'.consistent, fun resource => (h.records resource).trans (h'.records resource), ?_⟩
  intro resource record hrecord
  exact (h'.snapshots resource record ((h.records resource).subset hrecord)).trans
    (h.snapshots resource record hrecord)

theorem Grown.of_eq {disk' : Disk} (h : Grown start disk)
    (hversions : disk'.versionsFile = disk.versionsFile) (hsnapshots : disk'.snapshots = disk.snapshots) :
    Grown start disk' := by
  have hdoc : docOf disk' = docOf disk := by rw [docOf, docOf, hversions]
  refine ⟨hdoc ▸ h.consistent, hdoc ▸ h.records, ?_⟩
  rw [hsnapshots]
  exact h.snapshots

theorem Grown.writeSnapshot (h : Grown start disk) {path : String} (hpath : Fresh start path)
    (bytes : Option Bytes) : Grown start (disk.writeSnapshot path bytes) := by
  refine ⟨h.consistent, h.records, fun resource record hrecord => ?_⟩
  rw [writeSnapshot_of_ne _ _ (hpath resource record hrecord)]
  exact h.snapshots resource record hrecord

theorem Grown.save (h : Grown start disk) {versions : Option VersionsDoc}
    (hdoc : Consistent (versions.getD fun _ => none))
    (hrecords : ∀ resource, recordsOf (docOf start) resource <+:
      recordsOf (versions.getD fun _ => none) resource) :
    Grown start { disk with versionsFile := versions } :=
  ⟨hdoc, hrecords, h.snapshots⟩

def Undoes (start : Disk) (step : Disk → Disk) : Prop :=
  ∀ disk, Grown start disk → Grown start (step disk)

theorem undoes_restoreFormal (state : String × Option Bytes) : Undoes start (restoreFormal state) :=
  fun _ h => h.of_eq rfl rfl

theorem undoes_restoreVersions {versions : Option VersionsDoc}
    (hdoc : Consistent (versions.getD fun _ => none))
    (hrecords : ∀ resource, recordsOf (docOf start) resource <+:
      recordsOf (versions.getD fun _ => none) resource) : Undoes start (restoreVersions versions) :=
  fun _ hdisk => hdisk.save hdoc hrecords

theorem undoes_unlinkSnapshot {path : String} (h : Fresh start path) :
    Undoes start (unlinkSnapshot path) :=
  fun _ hdisk => hdisk.writeSnapshot h none

theorem undoes_unlinkStaged (path : String) : Undoes start (unlinkStaged path) :=
  fun _ h => h.of_eq rfl rfl

end Disks

structure Going (start : Disk) (marks : List (Resource × ℕ)) (s : Session) : Prop where
  disk : Grown start s.disk
  consistent : Consistent s.data
  records : ∀ resource, recordsOf (docOf start) resource <+: recordsOf s.data resource
  created : ∀ path ∈ s.created, Fresh start path
  marks : ∀ mark ∈ marks, Named s.data mark.1 mark.2

/-- The call goes on, whether the computation succeeds or fails. -/
def Keeps {α : Type} (start : Disk) (marks : List (Resource × ℕ)) (x : VersionM α) : Prop :=
  Meets (Going start marks) x (fun _ => Going start marks) (fun _ => Going start marks)

section Calls

variable {start : Disk} {marks : List (Resource × ℕ)} {α β : Type}

theorem Keeps.bind {x : VersionM α} {f : α → VersionM β} (hx : Keeps start marks x)
    (hf : ∀ a, Keeps start marks (f a)) : Keeps start marks (x >>= f) :=
  meets_bind hx hf

theorem keeps_pure (a : α) : Keeps start marks (pure a : VersionM α) :=
  meets_pure fun _ => id

theorem keeps_throw (e : VersionError) : Keeps start marks (throw e : VersionM α) :=
  meets_throw fun _ => id

theorem keeps_get {f : Session → VersionM α}
    (h : ∀ s, Going start marks s → Meets (· = s) (f s) (fun _ => Going start marks)
      (fun _ => Going start marks)) : Keeps start marks (get >>= f) :=
  meets_get_bind h

theorem Going.forget {s : Session} {marks' : List (Resource × ℕ)} (h : Going start marks s)
    (hmarks : marks' ⊆ marks) : Going start marks' s :=
  ⟨h.disk, h.consistent, h.records, h.created, fun mark hmark => h.marks mark (hmarks hmark)⟩

theorem keeps_attempt {effect : Disk → Option Disk}
    (h : ∀ disk disk', effect disk = some disk' →
      disk'.versionsFile = disk.versionsFile ∧ disk'.snapshots = disk.snapshots) :
    Keeps start marks (attempt effect) := by
  refine meets_attempt (fun s faults hs => ?_) fun s faults disk hs heffect => ?_
  · exact ⟨hs.disk, hs.consistent, hs.records, hs.created, hs.marks⟩
  · obtain ⟨hversions, hsnapshots⟩ := h s.disk disk heffect
    exact ⟨hs.disk.of_eq hversions hsnapshots, hs.consistent, hs.records, hs.created, hs.marks⟩

theorem keeps_callback : Keeps start marks callback := by
  refine keeps_attempt fun disk disk' heffect => ?_
  rw [← Option.some.inj heffect]
  exact ⟨rfl, rfl⟩

theorem keeps_writeFormal (file : String) (bytes : Option Bytes) :
    Keeps start marks (attempt fun disk => some (disk.writeFormal file bytes)) := by
  refine keeps_attempt fun disk disk' heffect => ?_
  rw [← Option.some.inj heffect]
  exact ⟨rfl, rfl⟩

theorem keeps_replaceFormal (stagedFile file : String) :
    Keeps start marks (replaceFormal stagedFile file) := by
  refine keeps_attempt fun disk disk' heffect => ?_
  obtain ⟨bytes, -, rfl⟩ := Option.map_eq_some_iff.mp heffect
  exact ⟨rfl, rfl⟩

theorem keeps_saveVersions : Keeps start marks saveVersions := by
  refine meets_get_bind fun s₀ hs₀ => meets_attempt ?_ ?_
  · rintro s faults rfl
    exact ⟨hs₀.disk, hs₀.consistent, hs₀.records, hs₀.created, hs₀.marks⟩
  · rintro s faults disk rfl heffect
    obtain rfl := Option.some.inj heffect
    exact ⟨hs₀.disk.save hs₀.consistent hs₀.records, hs₀.consistent, hs₀.records, hs₀.created,
      hs₀.marks⟩

theorem keeps_backupCurrent (file : String) : Keeps start marks (backupCurrent file) :=
  meets_backupCurrent
    (fun _ hs _ => ⟨hs.disk, hs.consistent, hs.records, hs.created, hs.marks⟩)
    (fun _ _ hs => ⟨hs.disk, hs.consistent, hs.records, hs.created, hs.marks⟩)
    fun _ _ _ hs _ => ⟨hs.disk, hs.consistent, hs.records, hs.created, hs.marks⟩

theorem keeps_copyToFormal (path file : String) : Keeps start marks (copyToFormal path file) :=
  meets_copyToFormal
    (fun _ _ hs => ⟨hs.disk, hs.consistent, hs.records, hs.created, hs.marks⟩)
    (fun _ _ _ hs => ⟨hs.disk.of_eq rfl rfl, hs.consistent, hs.records, hs.created, hs.marks⟩)
    fun _ _ _ hs _ => ⟨hs.disk.of_eq rfl rfl, hs.consistent, hs.records, hs.created, hs.marks⟩

theorem going_loaded {s : Session} (h : Grown start s.disk) :
    Going start [] { s with
      data := s.disk.versionsFile.getD fun _ => none
      created := []
      strayed := []
      states := [] } :=
  ⟨h, h.consistent, h.records, fun _ hin => absurd hin List.not_mem_nil,
    fun _ hin => absurd hin List.not_mem_nil⟩

theorem newPath_fresh_start {s : Session} (hstart : Consistent (docOf start))
    (hs : Going start marks s) (resource : Resource) : Fresh start (newPath resource s) :=
  fun _ _ hrecord => newPath_fresh hstart (hs.records resource) _ hrecord

theorem prefix_appended (doc : VersionsDoc) (resource : Resource) (path prompt : String)
    (selects : Bool) :
    recordsOf doc resource <+: (appended (dataOf doc resource) path prompt selects).versions :=
  List.prefix_append _ _

theorem going_withRecord {s : Session} (hstart : Consistent (docOf start)) (hs : Going start marks s)
    (resource : Resource) (selects : Bool) (prompt : String) (bytes : Bytes) (faults : List Fault) :
    Going start ((resource, newVersion resource s) :: marks)
      (withRecord resource selects prompt bytes faults s) := by
  have hfresh := newPath_fresh_start hstart hs resource
  have hprefix := prefix_appended s.data resource (newPath resource s) prompt selects
  refine ⟨hs.disk.writeSnapshot hfresh _, consistent_appended hs.consistent resource _ prompt selects,
    fun other => (hs.records other).trans (records_update hprefix other), ?_, ?_⟩
  · intro path hpath
    rcases List.mem_append.mp hpath with hold | hnew
    · exact hs.created path hold
    · rwa [List.mem_singleton.mp hnew]
  · have hrecord : ∃ record ∈ (appended (dataOf s.data resource) (newPath resource s) prompt
        selects).versions, record.version = newVersion resource s :=
      ⟨_, List.mem_append_right _ (List.mem_singleton_self _), rfl⟩
    refine List.forall_mem_cons.mpr ⟨.inr ?_, fun mark hmark =>
      named_update hprefix (hs.marks mark hmark)⟩
    change ∃ record ∈ recordsOf (Function.update s.data resource _) resource, _
    rwa [recordsOf, dataOf_update]

theorem keeps_appendRecord (hstart : Consistent (docOf start)) (loggedFirst selects : Bool)
    (resource : Resource) (source : Source) (prompt : String) :
    Meets (Going start marks) (appendRecord loggedFirst selects resource source prompt)
      (fun version => Going start ((resource, version) :: marks)) (fun _ => Going start marks) := by
  have hlogged : ∀ s, Going start marks s → ∀ faults,
      Going start marks (appending resource loggedFirst faults s) := by
    intro s hs faults
    refine ⟨hs.disk, hs.consistent, hs.records, fun path hpath => ?_, hs.marks⟩
    unfold appending at hpath
    cases loggedFirst with
    | true =>
        rcases List.mem_append.mp hpath with hold | hnew
        · exact hs.created path hold
        · rw [List.mem_singleton.mp hnew]
          exact newPath_fresh_start hstart hs resource
    | false => exact hs.created path hpath
  refine meets_appendRecord resource (fun s faults hs => hlogged s hs faults) ?_ ?_
  · intro s faults bytes hs
    obtain ⟨hdisk, hdata, hrecords, hcreated, hmarks⟩ := hlogged s hs faults
    exact ⟨hdisk.writeSnapshot (newPath_fresh_start hstart hs resource) _, hdata, hrecords, hcreated,
      hmarks⟩
  · exact fun s faults bytes hs _ => going_withRecord hstart hs resource selects prompt bytes faults

theorem keeps_setCurrent {resource : Resource} {version : ℕ} (h : (resource, version) ∈ marks) :
    Keeps start marks (setCurrent resource version) := by
  refine meets_modify fun s hs => ?_
  have hprefix : recordsOf s.data resource <+:
      { dataOf s.data resource with currentVersion := version }.versions := List.prefix_rfl
  exact ⟨hs.disk, consistent_selected hs.consistent (hs.marks _ h),
    fun other => (hs.records other).trans (records_update hprefix other), hs.created,
    fun mark hmark => named_update hprefix (hs.marks mark hmark)⟩

theorem grown_undone {steps : List (Disk → Disk)} {disk : Disk} (hdisk : Grown start disk)
    (hsteps : ∀ step ∈ steps, Undoes start step) : Grown start (undone steps disk) :=
  undone_induction hdisk hsteps

theorem keeps_undoAll {steps : List (Disk → Disk)} (hsteps : ∀ step ∈ steps, Undoes start step) :
    Keeps start marks (undoAll steps) := by
  intro s hs
  obtain ⟨ok, faults, done, hdone, -, hrun⟩ := undoAll_spec steps s
  rw [hrun]
  exact ⟨grown_undone hs.disk fun step hstep => hsteps step (hdone.subset hstep), hs.consistent,
    hs.records, hs.created, hs.marks⟩

theorem keeps_rollback {steps : List (Disk → Disk)} (hsteps : ∀ step ∈ steps, Undoes start step)
    (failure : VersionError) (Q : α → Session → Prop) :
    Meets (Going start marks) (rollback steps failure) Q (fun _ => Going start marks) :=
  meets_bind (keeps_undoAll hsteps) fun _ =>
    meets_ite (fun _ => meets_throw fun _ => id) fun _ => meets_throw fun _ => id

theorem undoes_undoSteps {before s : Session} (hbefore : Going start [] before)
    (hs : Going start marks s) :
    ∀ step ∈ undoSteps before.disk.versionsFile s, Undoes start step := by
  intro step hstep
  rcases List.mem_append.mp hstep with hformal | hrest
  · obtain ⟨state, -, rfl⟩ := List.mem_map.mp hformal
    exact undoes_restoreFormal state
  · rcases List.mem_cons.mp hrest with rfl | hcreated
    · exact undoes_restoreVersions hbefore.disk.consistent hbefore.disk.records
    · obtain ⟨path, hpath, rfl⟩ := List.mem_map.mp hcreated
      exact undoes_unlinkSnapshot (hs.created path hpath)

theorem keeps_guarded {body : VersionM α} (hbody : Keeps start marks body) :
    Keeps start marks (guarded body) := by
  refine meets_guarded hbody fun s₀ e s e' faults done hs₀ hs hdone _ => ?_
  have hundoes := undoes_undoSteps (hs₀.forget (List.nil_subset _)) hs
  exact ⟨grown_undone hs.disk fun step hstep => hundoes step (hdone.subset hstep), hs.consistent,
    hs.records, hs.created, hs.marks⟩

theorem Going.mark {s : Session} (h : Going start marks s) {resource : Resource} {version : ℕ}
    (hnamed : Named s.data resource version) : Going start ((resource, version) :: marks) s :=
  ⟨h.disk, h.consistent, h.records, h.created, List.forall_mem_cons.mpr ⟨hnamed, h.marks⟩⟩

theorem keeps_append (hstart : Consistent (docOf start)) (loggedFirst selects : Bool)
    (resource : Resource) (source : Source) (prompt : String) :
    Keeps start marks (appendRecord loggedFirst selects resource source prompt) :=
  (keeps_appendRecord hstart loggedFirst selects resource source prompt).mono (fun _ => id)
    (fun _ _ h => h.forget (List.subset_cons_self _ _)) fun _ _ => id

theorem keeps_track (hstart : Consistent (docOf start)) (loggedFirst : Bool) (resource : Resource)
    (file : String) : Keeps start marks (track (appendRecord loggedFirst true) resource file) := by
  refine (keeps_backupCurrent file).bind fun existed => keeps_get fun s hs => ?_
  refine meets_ite (fun _ => ?_) fun _ => meets_pure fun _ hsame => hsame ▸ hs
  refine Meets.pre (P := Going start marks) ?_ fun _ hsame => hsame ▸ hs
  exact (keeps_append hstart loggedFirst true resource _ _).bind fun _ => keeps_pure _

theorem keeps_activate (hstart : Consistent (docOf start)) (loggedFirst : Bool)
    (commit : StagedVersionCommit) :
    Keeps start marks (activate (appendRecord loggedFirst true) commit) :=
  (keeps_track hstart loggedFirst commit.resource commit.currentFile).bind fun _ =>
    (keeps_append hstart loggedFirst true commit.resource _ _).bind fun _ =>
      (keeps_replaceFormal _ _).bind fun _ => keeps_pure _

theorem keeps_activateAll (hstart : Consistent (docOf start)) (commits : List StagedVersionCommit) :
    Keeps start marks (activateAll commits) := by
  induction commits with
  | nil => exact keeps_pure _
  | cons commit commits ih =>
      exact (keeps_activate hstart false commit).bind fun _ => ih.bind fun _ => keeps_pure _

theorem keeps_appendAll (hstart : Consistent (docOf start)) (commits : List InstalledVersionCommit) :
    Keeps start marks (appendAll commits) := by
  induction commits with
  | nil => exact keeps_pure _
  | cons commit commits ih =>
      exact (keeps_append hstart true true _ _ _).bind fun _ => ih.bind fun _ => keeps_pure _

theorem keeps_finish (value : α) :
    Keeps start marks (do
      saveVersions
      callback
      return value) :=
  keeps_saveVersions.bind fun _ => keeps_callback.bind fun _ => keeps_pure _

theorem keeps_selectPrevious {resource : Resource} {previous : Option VersionRecord}
    (hzero : (resource, 0) ∈ marks)
    (hprevious : ∀ record, previous = some record → (resource, record.version) ∈ marks)
    (file : String) : Keeps start marks (selectPrevious resource file previous) := by
  cases previous with
  | none => exact (keeps_writeFormal file none).bind fun _ => keeps_setCurrent hzero
  | some record =>
      refine keeps_get fun s hs => ?_
      cases s.disk.snapshots record.file with
      | none => exact meets_throw fun _ hsame => hsame ▸ hs
      | some bytes =>
          refine Meets.pre (P := Going start marks) ?_ fun _ hsame => hsame ▸ hs
          exact keeps_callback.bind fun _ => (keeps_writeFormal file (some bytes)).bind fun _ =>
            keeps_setCurrent (hprevious record rfl)

theorem keeps_discardStaged (path : String) : Keeps start marks (discardStaged path) := by
  refine (keeps_undoAll fun step hstep => ?_).bind fun _ => keeps_pure _
  rw [List.mem_singleton.mp hstep]
  exact undoes_unlinkStaged path

theorem going_recordPaid (hstart : Consistent (docOf start)) (commit : StagedVersionCommit) :
    Meets (Going start []) (recordPaid commit)
      (fun result => Going start [(commit.resource, result.2.2), (commit.resource, result.2.1)])
      (fun _ => Going start []) := by
  have hrest : ∀ submitted : ℕ, Meets (Going start [])
      (do
        let s ← get
        let prior := (dataOf s.data commit.resource).currentVersion
        let version ← appendSnapshot commit.resource (.staged commit.stagedFile) commit.prompt
        saveVersions
        return (submitted, prior, version))
      (fun result => Going start [(commit.resource, result.2.2), (commit.resource, result.2.1)])
      (fun _ => Going start []) := by
    refine fun submitted => meets_get_bind fun s hs => ?_
    have hprior := hs.mark (hs.consistent.current commit.resource)
    have happend : Meets (· = s)
        (appendSnapshot commit.resource (.staged commit.stagedFile) commit.prompt)
        (fun version => Going start [(commit.resource, version),
          (commit.resource, (dataOf s.data commit.resource).currentVersion)])
        (fun _ => Going start []) := by
      refine (keeps_appendRecord hstart false false commit.resource _ _).mono ?_ (fun _ _ => id)
        fun _ _ h => h.forget (List.nil_subset _)
      rintro _ rfl
      exact hprior
    refine meets_bind happend fun version => ?_
    exact meets_bind (keeps_saveVersions.mono (fun _ => id) (fun _ _ => id)
      fun _ _ h => h.forget (List.nil_subset _)) fun _ => meets_pure fun _ => id
  refine meets_get_bind fun s hs => meets_ite (fun _ => ?_) fun _ => (hrest _).pre ?_
  · -- the formal file from before gets a record
    refine Meets.pre (P := Going start []) ?_ fun _ hsame => hsame ▸ hs
    refine meets_bind (keeps_appendRecord hstart false false _ _ _) fun tracked => ?_
    exact meets_bind ((keeps_setCurrent (List.mem_singleton_self _)).mono (fun _ => id)
      (fun _ _ h => h.forget (List.nil_subset _)) fun _ _ h => h.forget (List.nil_subset _))
        fun _ => hrest _
  · rintro _ rfl
    exact hs

theorem keeps_discardPaid {before : Disk} (hbefore : Grown start before) (stagedFile : String)
    (failure : VersionError) (Q : α → Session → Prop) :
    Meets (Going start marks) (discardPaid before.versionsFile stagedFile failure) Q
      (fun _ => Going start marks) := by
  refine meets_get_bind fun s hs => ?_
  refine Meets.pre (P := Going start marks) ?_ fun _ hsame => hsame ▸ hs
  refine keeps_rollback (fun step hstep => ?_) failure Q
  rcases List.mem_append.mp hstep with hhistory | hstaged
  · rcases List.mem_cons.mp hhistory with rfl | hcreated
    · exact undoes_restoreVersions hbefore.consistent hbefore.records
    · obtain ⟨path, hpath, rfl⟩ := List.mem_map.mp hcreated
      exact undoes_unlinkSnapshot (hs.created path hpath)
  · rw [List.mem_singleton.mp hstaged]
    exact undoes_unlinkStaged stagedFile

theorem keeps_deselectPaid {commit : StagedVersionCommit} {prior : ℕ}
    (hprior : (commit.resource, prior) ∈ marks) (failure : VersionError)
    (Q : α → Session → Prop) :
    Meets (Going start marks) (deselectPaid commit prior failure) Q (fun _ => Going start marks) := by
  refine meets_bind (keeps_setCurrent hprior) fun _ => meets_get_bind fun s hs => ?_
  refine Meets.pre (P := Going start marks) ?_ fun _ hsame => hsame ▸ hs
  refine meets_bind (keeps_undoAll fun step hstep => ?_) fun restored =>
    meets_bind (keeps_discardStaged _) fun _ => meets_ite (fun _ => meets_throw fun _ => id)
      fun _ => meets_throw fun _ => id
  rcases List.mem_append.mp hstep with hformal | hversions
  · obtain ⟨state, -, rfl⟩ := List.mem_map.mp hformal
    exact undoes_restoreFormal state
  · rw [List.mem_singleton.mp hversions]
    exact undoes_restoreVersions hs.consistent hs.records

theorem keeps_selectPaid {commit : StagedVersionCommit} {version : ℕ}
    (hversion : (commit.resource, version) ∈ marks) :
    Keeps start marks (selectPaid commit version) :=
  (keeps_backupCurrent _).bind fun _ => (keeps_replaceFormal _ _).bind fun _ =>
    (keeps_setCurrent hversion).bind fun _ => keeps_saveVersions.bind fun _ =>
      keeps_callback.bind fun _ => keeps_pure _

end Calls

def Grows {α : Type} (start : Disk) (x : VersionM α) : Prop :=
  Meets (fun s => Grown start s.disk) x (fun _ s => Grown start s.disk) (fun _ s => Grown start s.disk)

section Failing

variable {start : Disk} {α : Type}

theorem grows_call {x : VersionM α} (h : Keeps start [] x) :
    Grows start (do
      loadVersions
      x) := by
  refine meets_bind (Q := fun _ => Going start []) (meets_modify fun s hs => going_loaded hs) fun _ => ?_
  exact h.mono (fun _ => id) (fun _ _ hs => hs.disk) fun _ _ hs => hs.disk

variable (hstart : Consistent (docOf start))
include hstart

theorem grows_addVersion (resource : Resource) (prompt : String) (source : Option Source) :
    Grows start (addVersion resource prompt source) := by
  refine grows_call (keeps_get fun s hs => ?_)
  have hfresh := newPath_fresh_start hstart hs resource
  -- the document is the one that was read until the record is there
  have hcopy : ∀ source, Meets (fun s' => Going start [] s' ∧ s'.data = s.data)
      (copyToSnapshot source (newPath resource s)) (fun _ s' => Going start [] s' ∧ s'.data = s.data)
      (fun _ => Going start []) := by
    intro source
    refine meets_copyToSnapshot_drawn ?_ ?_ ?_ ?_
    · exact fun _ h _ => ⟨h.1.disk, h.1.consistent, h.1.records, h.1.created, h.1.marks⟩
    · exact fun _ _ h _ => ⟨h.1.disk.writeSnapshot hfresh _, h.1.consistent, h.1.records,
        h.1.created, h.1.marks⟩
    · exact fun _ h _ _ => ⟨h.1.disk, h.1.consistent, h.1.records, h.1.created, h.1.marks⟩
    · exact fun _ _ h _ _ => ⟨⟨h.1.disk.writeSnapshot hfresh _, h.1.consistent, h.1.records,
        h.1.created, h.1.marks⟩, h.2⟩
  have hrecord : Meets (fun s' => Going start [] s' ∧ s'.data = s.data)
      (do
        modify fun s' => { s' with
          data := Function.update s'.data resource
            (some (appended (dataOf s.data resource) (newPath resource s) prompt true)) }
        saveVersions
        return nextVersion (dataOf s.data resource).versions)
      (fun _ => Going start []) (fun _ => Going start []) := by
    refine meets_bind (Q := fun _ => Going start []) (meets_modify ?_) fun _ =>
      keeps_saveVersions.bind fun _ => keeps_pure _
    rintro s' ⟨h, hdata⟩
    have hprefix := prefix_appended s.data resource (newPath resource s) prompt true
    rw [← hdata] at hprefix
    refine ⟨h.disk, ?_, fun other => (h.records other).trans ?_, h.created,
      fun _ hin => absurd hin List.not_mem_nil⟩
    · dsimp only
      rw [hdata]
      exact consistent_appended hs.consistent resource _ prompt true
    · dsimp only
      rw [← hdata]
      exact records_update hprefix other
  refine meets_bind (Q := fun _ s' => Going start [] s' ∧ s'.data = s.data) (meets_modify ?_)
    fun _ => ?_
  · rintro _ rfl
    exact ⟨⟨hs.disk, hs.consistent, hs.records, hs.created, hs.marks⟩, rfl⟩
  · cases source with
    | none => exact hrecord
    | some source =>
        exact meets_ite (fun _ => meets_bind (hcopy source) fun _ => hrecord) fun _ => hrecord

theorem grows_commitStagedVersion (commit : StagedVersionCommit) :
    Grows start (commitStagedVersion commit) := by
  refine grows_call (keeps_get fun s hs => meets_ite (fun _ => ?_) fun _ => ?_)
  · exact meets_throw_bind fun _ hsame => hsame ▸ hs
  · refine Meets.pre (P := Going start []) ?_ fun _ hsame => hsame ▸ hs
    exact keeps_guarded ((keeps_activate hstart true commit).bind fun result =>
      keeps_finish result.2)

theorem grows_commitStagedVersions (commits : List StagedVersionCommit) :
    Grows start (commitStagedVersions commits) := by
  refine grows_call (keeps_get fun s hs => meets_ite (fun _ => ?_) fun _ => ?_)
  · exact meets_pure fun _ hsame => hsame ▸ hs
  · refine Meets.pre (P := Going start []) ?_ fun _ hsame => hsame ▸ hs
    cases checkStaged s.disk [] [] commits with
    | some error => exact keeps_throw error
    | none => exact keeps_guarded ((keeps_activateAll hstart commits).bind keeps_finish)

theorem grows_commitInstalledVersions (commits : List InstalledVersionCommit) :
    Grows start (commitInstalledVersions commits) := by
  refine grows_call (keeps_get fun s hs => meets_ite (fun _ => ?_) fun _ => ?_)
  · exact meets_pure fun _ hsame => hsame ▸ hs
  · refine Meets.pre (P := Going start []) ?_ fun _ hsame => hsame ▸ hs
    cases checkInstalled s.disk [] commits with
    | some error => exact keeps_throw error
    | none => exact keeps_guarded ((keeps_appendAll hstart commits).bind keeps_finish)

theorem grows_commitStagedPaidVersion (commit : StagedVersionCommit) (selectCurrent : Option Bool)
    (expectedCurrentVersion : Option ℕ) :
    Grows start (commitStagedPaidVersion commit selectCurrent expectedCurrentVersion) := by
  refine grows_call (keeps_get fun s hs => meets_ite (fun _ => ?_) fun _ => ?_)
  · exact meets_throw_bind fun _ hsame => hsame ▸ hs
  refine Meets.pre (P := Going start []) ?_ fun _ hsame => hsame ▸ hs
  refine meets_bind (meets_tryCatch (going_recordPaid hstart commit) fun failure =>
    keeps_discardPaid hs.disk _ failure _) fun result => ?_
  obtain ⟨submitted, prior, version⟩ := result
  have hdiscard : ∀ {β} {x : VersionM β}, Keeps start [] x → Meets
      (Going start [(commit.resource, version), (commit.resource, prior)])
        (do
          discardStaged commit.stagedFile
          x) (fun _ => Going start []) (fun _ => Going start []) := by
    intro β x hx
    refine Meets.pre (P := Going start []) ?_ fun _ h => h.forget (List.nil_subset _)
    exact (keeps_discardStaged _).bind fun _ => hx
  dsimp only
  split
  · exact hdiscard (keeps_throw _)
  · exact hdiscard (keeps_pure _)
  · refine meets_bind (meets_tryCatch (keeps_selectPaid List.mem_cons_self) fun failure => ?_)
      fun selected => hdiscard (keeps_pure selected)
    exact (keeps_deselectPaid (List.mem_cons_of_mem _ (List.mem_singleton_self _)) failure _).mono
      (fun _ => id) (fun _ _ => id) fun _ _ h => h.forget (List.nil_subset _)

omit hstart

theorem mem_of_findVersion {records : List VersionRecord} {version : ℕ} {record : VersionRecord}
    (h : findVersion records version = some record) : record ∈ records ∧ record.version = version := by
  unfold findVersion at h
  have hversion := List.find?_some h
  exact ⟨List.mem_of_find?_eq_some h, of_decide_eq_true hversion⟩

theorem named_of_found {doc : VersionsDoc} {resource : Resource} {resourceData : ResourceData}
    (hdata : doc resource = some resourceData) {version : ℕ} {record : VersionRecord}
    (hfound : findVersion resourceData.versions version = some record) :
    Named doc resource record.version := by
  refine .inr ⟨record, ?_, rfl⟩
  unfold recordsOf dataOf
  rw [hdata]
  exact (mem_of_findVersion hfound).1

theorem grows_rejectCurrentVersion (resource : Resource) (rejectedVersion : ℕ)
    (restore : Option ℕ) (file : String) {onReject : VersionM Unit}
    (honReject : ∀ marks, Keeps start marks onReject) :
    Grows start (rejectCurrentVersion resource rejectedVersion restore file onReject) := by
  refine grows_call (keeps_get fun s hs => ?_)
  have hhere : ∀ s', s' = s → Going start [] s' := fun _ hsame => hsame ▸ hs
  cases hdata : s.data resource with
  | none => exact meets_pure hhere
  | some resourceData =>
      refine meets_ite (fun _ => meets_pure hhere) fun _ => ?_
      cases findVersion resourceData.versions rejectedVersion with
      | none => exact meets_pure hhere
      | some rejected =>
          refine meets_ite (fun _ => meets_throw_bind hhere) fun _ =>
            meets_ite (fun _ => meets_throw_bind hhere) fun _ => ?_
          have hbody : ∀ marks previous, (resource, 0) ∈ marks →
              (∀ record, previous = some record → (resource, record.version) ∈ marks) →
                Keeps start marks (guarded do
                  let _ ← backupCurrent file
                  selectPrevious resource file previous
                  saveVersions
                  onReject
                  return true) :=
            fun marks previous hzero hprevious => keeps_guarded ((keeps_backupCurrent file).bind
              fun _ => (keeps_selectPrevious hzero hprevious file).bind fun _ =>
                keeps_saveVersions.bind fun _ => (honReject marks).bind fun _ => keeps_pure true)
          have hforget : ∀ {marks s'}, Going start marks s' → Going start [] s' :=
            fun h => h.forget (List.nil_subset _)
          have hzero := hs.mark (.inl rfl : Named s.data resource 0)
          cases hfound : findVersion resourceData.versions
              (versionToRestore resourceData.versions rejected restore) with
          | none =>
              refine (hbody [(resource, 0)] none (List.mem_singleton_self _) ?_).mono ?_
                (fun _ _ => hforget) fun _ _ => hforget
              · exact fun _ h => absurd h.symm (Option.some_ne_none _)
              · exact fun _ hsame => hsame ▸ hzero
          | some record =>
              refine (hbody [(resource, record.version), (resource, 0)] (some record)
                (List.mem_cons_of_mem _ (List.mem_singleton_self _)) ?_).mono ?_
                (fun _ _ => hforget) fun _ _ => hforget
              · intro found hsome
                rw [← Option.some.inj hsome]
                exact List.mem_cons_self
              · rintro _ rfl
                exact hzero.mark (named_of_found hdata hfound)

theorem grows_callback : Grows start callback :=
  meets_attempt (fun _ _ hs => hs) fun _ _ _ hs heffect => Option.some.inj heffect ▸ hs

theorem grows_rejectAll (rejections : List Rejection) : Grows start (rejectAll rejections) := by
  induction rejections with
  | nil => exact meets_pure fun _ => id
  | cons rejection rejections ih =>
      exact meets_bind (grows_rejectCurrentVersion _ _ none _ fun _ => keeps_pure ()) fun selected =>
        meets_ite (fun _ => meets_throw_bind fun _ => id) fun _ => ih

theorem grows_rejectCurrentVersions (rejections : List Rejection) :
    Grows start (rejectCurrentVersions rejections) := by
  refine meets_bind (Q := fun _ s => Grown start s.disk) (meets_modify fun _ hs => hs) fun _ =>
    meets_get_bind fun s hs => ?_
  refine meets_ite (fun _ => meets_pure fun _ hsame => hsame ▸ hs) fun _ => ?_
  refine meets_bind (Q := fun _ s => Grown start s.disk) (meets_tryCatch
    (F := fun _ s => Grown start s.disk) ?_ fun failure => ?_) fun _ => meets_pure fun _ => id
  · refine Meets.pre (P := fun s => Grown start s.disk) ?_ fun _ hsame => hsame ▸ hs
    exact meets_bind (grows_rejectAll _) fun _ => grows_callback
  · intro s₁ hs₁
    obtain ⟨e, faults, done, hdone, -, hrun⟩ := @rollback_spec Unit _ failure s₁
    rw [hrun]
    refine grown_undone hs₁ fun step hstep => ?_
    rcases List.mem_append.mp (hdone.subset hstep) with hformal | hversions
    · obtain ⟨state, -, rfl⟩ := List.mem_map.mp hformal
      exact undoes_restoreFormal state
    · rw [List.mem_singleton.mp hversions]
      exact undoes_restoreVersions hs.consistent hs.records

theorem grows_restoreVersion (resource : Resource) (version : ℕ) (file : String) :
    Grows start (restoreVersion resource version file) := by
  refine grows_call (keeps_get fun s hs => ?_)
  have hhere : ∀ s', s' = s → Going start [] s' := fun _ hsame => hsame ▸ hs
  cases hdata : s.data resource with
  | none => exact meets_throw hhere
  | some resourceData =>
      dsimp only
      cases hfound : findVersion resourceData.versions version with
      | none => exact meets_throw hhere
      | some record =>
          refine meets_ite (fun _ => meets_throw_bind hhere) fun _ =>
            meets_ite (fun _ => meets_throw_bind hhere) fun _ => ?_
          have hmark := hs.mark (named_of_found hdata hfound)
          rw [(mem_of_findVersion hfound).2] at hmark
          have hbody := keeps_guarded ((@keeps_backupCurrent start [(resource, version)] file).bind fun _ =>
            (keeps_copyToFormal record.file file).bind fun _ =>
              (keeps_setCurrent (List.mem_singleton_self (resource, version))).bind fun _ =>
                keeps_finish record)
          exact hbody.mono (fun _ hsame => hsame ▸ hmark) (fun _ _ h => h.forget (List.nil_subset _))
            fun _ _ h => h.forget (List.nil_subset _)

end Failing

end ShortReel.VersionHistories
