import ShortReel.VersionHistories
import ShortReel.VersionRollbacks

/-!
# Paid results

`commit_staged_paid_version` saves a paid result in the history before it is selected. The selection
is undone when it fails, the history is not.
-/

namespace ShortReel.PaidSelections

open FallibleStates ResourcePaths VersionStore VersionSteps VersionHistories VersionRollbacks

def Held (doc : VersionsDoc) (disk : Disk) (resource : Resource) (version : ℕ) (bytes : Bytes) : Prop :=
  ∃ record ∈ recordsOf doc resource, record.version = version ∧
    (∃ timestamp, record.file = versionSnapshotRelativePath resource version timestamp) ∧
      disk.snapshots record.file = some bytes

def currentOf (disk : Disk) (resource : Resource) : ℕ :=
  (dataOf (docOf disk) resource).currentVersion

/-- The version that is current when the history is saved: the one from before, or the one that a
formal file without a version has got. -/
def priorOf (commit : StagedVersionCommit) (before : Disk) : ℕ :=
  if (before.formal commit.currentFile).isSome ∧ currentOf before commit.resource = 0 then
    nextVersion (recordsOf (docOf before) commit.resource)
  else currentOf before commit.resource

section Histories

variable {commit : StagedVersionCommit} {resource : Resource} {version : ℕ} {bytes : Bytes}
  {s : Session}

theorem held_new (selects : Bool) (prompt : String) (faults : List Fault) :
    Held (withRecord resource selects prompt bytes faults s).data
      (withRecord resource selects prompt bytes faults s).disk resource (newVersion resource s)
        bytes := by
  have hdata : dataOf (withRecord resource selects prompt bytes faults s).data resource =
      appended (dataOf s.data resource) (newPath resource s) prompt selects := dataOf_update _ _ _
  unfold Held recordsOf
  rw [hdata]
  exact ⟨_, List.mem_append_right _ (List.mem_singleton_self _), rfl, ⟨_, rfl⟩,
    writeSnapshot_self _ _⟩

theorem Held.withRecord (h : Held s.data s.disk resource version bytes) (selects : Bool)
    (prompt : String) (bytes' : Bytes) (faults : List Fault) :
    Held (withRecord resource selects prompt bytes' faults s).data
      (withRecord resource selects prompt bytes' faults s).disk resource version bytes := by
  obtain ⟨record, hrecord, hversion, ⟨timestamp, hfile⟩, hbytes⟩ := h
  have hdata : dataOf (VersionSteps.withRecord resource selects prompt bytes' faults s).data resource =
      appended (dataOf s.data resource) (newPath resource s) prompt selects := dataOf_update _ _ _
  have hfresh : record.file ≠ newPath resource s := by
    intro hsame
    obtain ⟨-, hnew⟩ := versionSnapshotRelativePath_inj (hfile.symm.trans hsame)
    exact absurd (hversion.trans hnew) (lt_nextVersion hrecord).ne
  refine ⟨record, ?_, hversion, ⟨timestamp, hfile⟩, ?_⟩
  · unfold recordsOf
    rw [hdata]
    exact List.mem_append_left _ hrecord
  · exact (writeSnapshot_of_ne _ _ hfresh).trans hbytes

structure Preparing (commit : StagedVersionCommit) (before : Disk) (prior : ℕ) (s : Session) : Prop where
  versionsFile : s.disk.versionsFile = before.versionsFile
  formal : s.disk.formal = before.formal
  staged : s.disk.staged = before.staged
  states : s.states = []
  current : (dataOf s.data commit.resource).currentVersion = prior
  tracked : prior ≠ currentOf before commit.resource → ∃ bytes,
    before.formal commit.currentFile = some bytes ∧ Held s.data s.disk commit.resource prior bytes

structure PaidHistory (commit : StagedVersionCommit) (before : Disk) (submitted prior version : ℕ)
    (s : Session) : Prop where
  submitted_eq : submitted = currentOf before commit.resource
  prior_eq : prior = priorOf commit before
  saved : s.disk.versionsFile = some s.data
  formal : s.disk.formal = before.formal
  staged : s.disk.staged = before.staged
  states : s.states = []
  current : (dataOf s.data commit.resource).currentVersion = prior
  held : ∃ bytes, before.staged commit.stagedFile = some bytes ∧
    Held s.data s.disk commit.resource version bytes
  tracked : prior ≠ currentOf before commit.resource → ∃ bytes,
    before.formal commit.currentFile = some bytes ∧ Held s.data s.disk commit.resource prior bytes

def Untouched (before : Disk) (_ : VersionError) (s : Session) : Prop :=
  s.disk.versionsFile = before.versionsFile ∧ s.disk.formal = before.formal

theorem meets_recordPaid (s : Session) :
    Meets (· = loaded s) (recordPaid commit)
      (fun result => PaidHistory commit s.disk result.1 result.2.1 result.2.2)
      (Untouched s.disk) := by
  have hrest : ∀ submitted, submitted = currentOf s.disk commit.resource →
      Meets (Preparing commit s.disk (priorOf commit s.disk))
        (do
          let s ← get
          let prior := (dataOf s.data commit.resource).currentVersion
          let version ← appendSnapshot commit.resource (.staged commit.stagedFile) commit.prompt
          saveVersions
          return (submitted, prior, version))
        (fun result => PaidHistory commit s.disk result.1 result.2.1 result.2.2)
        (Untouched s.disk) := by
    rintro submitted hsubmitted
    refine meets_get_bind fun s₁ hs₁ => ?_
    rw [hs₁.current]
    refine meets_bind (Q := fun version s' => Preparing commit s.disk (priorOf commit s.disk) s' ∧
      ∃ bytes, s.disk.staged commit.stagedFile = some bytes ∧
        Held s'.data s'.disk commit.resource version bytes)
      (meets_appendRecord commit.resource ?_ ?_ ?_) fun version => ?_
    · rintro _ faults rfl
      exact ⟨hs₁.versionsFile, hs₁.formal⟩
    · rintro _ faults bytes rfl
      exact ⟨hs₁.versionsFile, hs₁.formal⟩
    · rintro _ faults bytes rfl hread
      refine ⟨⟨hs₁.versionsFile, hs₁.formal, hs₁.staged, hs₁.states, ?_, fun hne => ?_⟩, bytes, ?_,
        held_new _ _ _⟩
      · refine (congrArg ResourceData.currentVersion (dataOf_update _ _ _)).trans ?_
        exact hs₁.current
      · obtain ⟨tracked, hformal, hheld⟩ := hs₁.tracked hne
        exact ⟨tracked, hformal, hheld.withRecord _ _ _ _⟩
      · rw [← hs₁.staged]
        exact hread
    · refine meets_bind (Q := fun _ => PaidHistory commit s.disk submitted (priorOf commit s.disk)
        version) ?_ fun _ => meets_pure fun _ => id
      refine meets_get_bind fun s₂ hs₂ => meets_attempt ?_ ?_
      · rintro _ faults rfl
        exact ⟨hs₂.1.versionsFile, hs₂.1.formal⟩
      · rintro _ faults disk rfl heffect
        obtain rfl := Option.some.inj heffect
        exact ⟨hsubmitted, rfl, rfl, hs₂.1.formal, hs₂.1.staged, hs₂.1.states, hs₂.1.current, hs₂.2,
          hs₂.1.tracked⟩
  refine meets_get_bind ?_
  rintro _ rfl
  refine meets_ite (fun huntracked => ?_) fun htracked => (hrest _ rfl).pre ?_
  · -- the formal file gets a version, which is then the current one
    have hprior : priorOf commit s.disk = newVersion commit.resource (loaded s) := if_pos huntracked
    refine meets_bind (Q := fun version s' => version = priorOf commit s.disk ∧
      s'.disk.versionsFile = s.disk.versionsFile ∧ s'.disk.formal = s.disk.formal ∧
      s'.disk.staged = s.disk.staged ∧ s'.states = [] ∧ ∃ bytes,
        s.disk.formal commit.currentFile = some bytes ∧
          Held s'.data s'.disk commit.resource version bytes)
      (meets_appendRecord commit.resource ?_ ?_ ?_) fun tracked => ?_
    · rintro _ faults rfl
      exact ⟨rfl, rfl⟩
    · rintro _ faults bytes rfl
      exact ⟨rfl, rfl⟩
    · rintro _ faults bytes rfl hread
      exact ⟨hprior.symm, rfl, rfl, rfl, rfl, bytes, hread, held_new _ _ _⟩
    · refine meets_bind (Q := fun _ => Preparing commit s.disk (priorOf commit s.disk))
        (meets_modify ?_) fun _ => hrest _ rfl
      rintro s' ⟨rfl, hversions, hformal, hstaged, hstates, bytes, hbytes, hheld⟩
      refine ⟨hversions, hformal, hstaged, hstates, ?_, fun _ => ⟨bytes, hbytes, ?_⟩⟩
      · exact congrArg ResourceData.currentVersion (dataOf_update _ _ _)
      · unfold Held recordsOf
        rw [dataOf_update]
        exact hheld
  · rintro _ rfl
    refine ⟨rfl, rfl, rfl, rfl, (if_neg htracked).symm, fun hne => absurd (if_neg htracked) hne⟩

end Histories

def Stays (resource : Resource) (saved : Session) (disk : Disk) : Prop :=
  recordsOf (docOf disk) resource = recordsOf saved.data resource ∧
    disk.snapshots = saved.disk.snapshots

/-- What a selection keeps in each step: the history, and the formal files together with what is noted
of them for the rollback. -/
structure Selecting (resource : Resource) (before : Disk) (saved s : Session) : Prop where
  stays : Stays resource saved s.disk
  data : recordsOf s.data resource = recordsOf saved.data resource
  restores : ∀ path, (s.states.lookup path).getD (s.disk.formal path) = before.formal path

section Selections

variable {commit : StagedVersionCommit} {submitted prior version : ℕ} {before : Disk}
  {saved s : Session}

theorem Selecting.setCurrent (h : Selecting commit.resource before saved s) (version : ℕ) :
    Selecting commit.resource before saved { s with
      data := Function.update s.data commit.resource
        (some { dataOf s.data commit.resource with currentVersion := version }) } := by
  refine ⟨h.stays, ?_, h.restores⟩
  unfold recordsOf
  rw [dataOf_update]
  exact h.data

theorem Selecting.save (h : Selecting commit.resource before saved s) (faults : List Fault) :
    Selecting commit.resource before saved
      { s with faults, disk := { s.disk with versionsFile := some s.data } } :=
  ⟨⟨h.data, h.stays.2⟩, h.data, h.restores⟩

theorem meets_selectPaid (hsaved : PaidHistory commit before submitted prior version saved) :
    Meets (· = saved) (selectPaid commit version)
      (fun result s => result = { version, selected := true } ∧
        Selecting commit.resource before saved s ∧
        s.disk.formal commit.currentFile = before.staged commit.stagedFile ∧
        currentOf s.disk commit.resource = version)
      (fun _ => Selecting commit.resource before saved) := by
  have hdoc : docOf saved.disk = saved.data := by rw [docOf, hsaved.saved, Option.getD_some]
  have hstart : Selecting commit.resource before saved saved := by
    refine ⟨⟨by rw [hdoc], rfl⟩, rfl, fun path => ?_⟩
    rw [hsaved.states, hsaved.formal]
    rfl
  have hnoted : ∀ faults, Selecting commit.resource before saved { saved with
      faults, states := saved.states ++ [(commit.currentFile, saved.disk.formal commit.currentFile)] } := by
    refine fun faults => ⟨hstart.stays, rfl, fun path => ?_⟩
    rw [hsaved.states, hsaved.formal, List.nil_append, List.lookup_cons]
    by_cases hpath : path = commit.currentFile
    · simp [hpath]
    · rw [beq_false_of_ne hpath]
      rfl
  have hlookup : (saved.states ++ [(commit.currentFile, saved.disk.formal commit.currentFile)]).lookup
      commit.currentFile = some (before.formal commit.currentFile) := by
    rw [hsaved.states, hsaved.formal, List.nil_append, List.lookup_cons_self]
  refine meets_bind (Q := fun _ s => Selecting commit.resource before saved s ∧
    s.states.lookup commit.currentFile = some (before.formal commit.currentFile) ∧
      s.disk.staged = before.staged) (meets_backupCurrent ?_ ?_ ?_) fun _ => ?_
  · rintro s₁ rfl hnone
    have hfile := hnoted s₁.faults
    rw [hnone] at hfile hlookup
    exact ⟨hfile, hlookup, hsaved.staged⟩
  · rintro _ faults rfl
    exact ⟨hstart.stays, rfl, hstart.restores⟩
  · rintro _ faults bytes rfl hsome
    have hfile := hnoted faults
    rw [hsome] at hfile hlookup
    exact ⟨hfile, hlookup, hsaved.staged⟩
  refine meets_bind (Q := fun _ s => Selecting commit.resource before saved s ∧
    s.disk.formal commit.currentFile = before.staged commit.stagedFile) (meets_attempt ?_ ?_)
      fun _ => ?_
  · rintro s faults ⟨hs, -, -⟩
    exact ⟨hs.stays, hs.data, hs.restores⟩
  · rintro s faults disk ⟨hs, hstates, hstaged⟩ heffect
    obtain ⟨bytes, hbytes, rfl⟩ := Option.map_eq_some_iff.mp heffect
    refine ⟨⟨hs.stays, hs.data, fun path => ?_⟩, ?_⟩
    · by_cases hpath : path = commit.currentFile
      · change (s.states.lookup path).getD _ = _
        rw [hpath, hstates]
        rfl
      · exact (congrArg _ (writeFormal_of_ne _ _ hpath)).trans (hs.restores path)
    · rw [← hstaged, hbytes]
      exact writeFormal_self _ _
  refine meets_bind (Q := fun _ s => Selecting commit.resource before saved s ∧
    s.disk.formal commit.currentFile = before.staged commit.stagedFile ∧
      (dataOf s.data commit.resource).currentVersion = version) (meets_modify ?_) fun _ => ?_
  · rintro s ⟨hs, hformal⟩
    exact ⟨hs.setCurrent version, hformal,
      congrArg ResourceData.currentVersion (dataOf_update _ _ _)⟩
  refine meets_bind (Q := fun _ s => Selecting commit.resource before saved s ∧
    s.disk.formal commit.currentFile = before.staged commit.stagedFile ∧
      currentOf s.disk commit.resource = version) ?_ fun _ => ?_
  · refine meets_get_bind fun s₁ hs₁ => meets_attempt ?_ ?_
    · rintro _ faults rfl
      exact ⟨hs₁.1.stays, hs₁.1.data, hs₁.1.restores⟩
    · rintro _ faults disk rfl heffect
      obtain rfl := Option.some.inj heffect
      exact ⟨hs₁.1.save faults, hs₁.2⟩
  · refine meets_bind (Q := fun _ s => Selecting commit.resource before saved s ∧
      s.disk.formal commit.currentFile = before.staged commit.stagedFile ∧
        currentOf s.disk commit.resource = version) (meets_attempt ?_ ?_) fun _ => meets_pure ?_
    · rintro s faults ⟨hs, -⟩
      exact ⟨hs.stays, hs.data, hs.restores⟩
    · rintro s faults disk ⟨hs, hrest⟩ heffect
      obtain rfl := Option.some.inj heffect
      exact ⟨⟨hs.stays, hs.data, hs.restores⟩, hrest⟩
    · rintro s ⟨hs, hformal, hcurrent⟩
      exact ⟨rfl, hs, hformal, hcurrent⟩

theorem meets_discardStaged {P : Disk → Prop} {E : VersionError → Session → Prop} (path : String)
    (hunlink : ∀ disk, P disk → P (unlinkStaged path disk)) :
    Meets (fun s => P s.disk) (discardStaged path) (fun _ s => P s.disk) E := by
  refine meets_bind (Q := fun _ s => P s.disk) ?_ fun _ => meets_pure fun _ => id
  intro s hs
  obtain ⟨ok, faults, done, hdone, -, hrun⟩ := undoAll_spec [unlinkStaged path] s
  rw [hrun]
  rcases List.sublist_singleton.mp hdone with rfl | rfl
  · exact hs
  · exact hunlink _ hs

/-- The formal files are as before, and so is the version that is current, but for a formal file that
had none: its new version is current. -/
structure Unselected (commit : StagedVersionCommit) (before after : Disk) : Prop where
  formal : after.formal = before.formal
  current : currentOf after commit.resource = priorOf commit before
  tracked : priorOf commit before ≠ currentOf before commit.resource → ∃ bytes,
    before.formal commit.currentFile = some bytes ∧
      Held (docOf after) after commit.resource (priorOf commit before) bytes

theorem Stays.held (h : Stays commit.resource saved before) {bytes : Bytes}
    (hheld : Held saved.data saved.disk commit.resource version bytes) :
    Held (docOf before) before commit.resource version bytes := by
  unfold Held
  rw [h.1, h.2]
  exact hheld

theorem meets_deselectPaid (hsaved : PaidHistory commit before submitted prior version saved)
    (failure : VersionError) {Q : PaidVersionCommit → Session → Prop} :
    Meets (Selecting commit.resource before saved) (deselectPaid commit prior failure) Q
      (fun e s => Stays commit.resource saved s.disk ∧
        (e = .rollbackIncomplete ∨ Unselected commit before s.disk)) := by
  refine meets_bind (Q := fun _ s => Selecting commit.resource before saved s ∧
    (dataOf s.data commit.resource).currentVersion = prior) (meets_modify ?_) fun _ => ?_
  · exact fun s hs => ⟨hs.setCurrent prior, congrArg ResourceData.currentVersion (dataOf_update _ _ _)⟩
  refine meets_get_bind fun s₁ ⟨hs₁, hcurrent⟩ => ?_
  have hundo : Meets (· = s₁)
      (undoAll (s₁.states.reverse.map restoreFormal ++ [restoreVersions (some s₁.data)]))
      (fun ok s => Stays commit.resource saved s.disk ∧
        (ok = true → Unselected commit before s.disk))
      (fun e s => Stays commit.resource saved s.disk ∧
        (e = .rollbackIncomplete ∨ Unselected commit before s.disk)) := by
    rintro s₂ rfl
    obtain ⟨ok, faults, done, hdone, hcomplete, hrun⟩ :=
      undoAll_spec (s₂.states.reverse.map restoreFormal ++ [restoreVersions (some s₂.data)]) s₂
    rw [hrun]
    have hstays : Stays commit.resource saved (undone done s₂.disk) := by
      refine undone_induction (J := Stays commit.resource saved) hs₁.stays ?_
      intro step hstep disk hdisk
      rcases List.mem_append.mp (hdone.subset hstep) with hformal | hversions
      · obtain ⟨state, -, rfl⟩ := List.mem_map.mp hformal
        exact hdisk
      · rw [List.mem_singleton.mp hversions]
        exact ⟨hs₁.data, hdisk.2⟩
    refine ⟨hstays, fun hok => ?_⟩
    have hall := hcomplete hok
    subst hall
    have hdisk : undone (s₂.states.reverse.map restoreFormal ++ [restoreVersions (some s₂.data)])
        s₂.disk = { s₂.disk with
          versionsFile := some s₂.data
          formal := fun path => (s₂.states.lookup path).getD (s₂.disk.formal path) } := by
      rw [undone_append, undone_states]
      rfl
    refine ⟨?_, ?_, fun hne => ?_⟩
    · rw [hdisk]
      exact funext hs₁.restores
    · rw [hdisk, ← hsaved.prior_eq]
      exact hcurrent
    · rw [← hsaved.prior_eq] at hne ⊢
      obtain ⟨bytes, hbytes, hheld⟩ := hsaved.tracked hne
      exact ⟨bytes, hbytes, hstays.held hheld⟩
  refine meets_bind hundo fun restored => ?_
  refine meets_bind (Q := fun _ s => Stays commit.resource saved s.disk ∧
    (restored = true → Unselected commit before s.disk)) ?_ fun _ => ?_
  · refine meets_discardStaged (P := fun disk => Stays commit.resource saved disk ∧
      (restored = true → Unselected commit before disk)) _ ?_
    exact fun disk h => ⟨h.1, fun hrestored => ⟨(h.2 hrestored).formal, (h.2 hrestored).current,
      (h.2 hrestored).tracked⟩⟩
  · refine meets_ite (fun hrestored => meets_throw ?_) fun _ => meets_throw ?_
    · exact fun s hs => ⟨hs.1, .inr (hs.2 hrestored)⟩
    · exact fun s hs => ⟨hs.1, .inl rfl⟩

theorem PaidHistory.unselected (h : PaidHistory commit before submitted prior version s) :
    Unselected commit before s.disk := by
  have hdoc : docOf s.disk = s.data := by rw [docOf, h.saved, Option.getD_some]
  refine ⟨h.formal, ?_, fun hne => ?_⟩
  · rw [← h.prior_eq, currentOf, hdoc]
    exact h.current
  · rw [← h.prior_eq] at hne ⊢
    rw [hdoc]
    exact h.tracked hne

theorem PaidHistory.stays (h : PaidHistory commit before submitted prior version s) :
    Stays commit.resource s s.disk := by
  refine ⟨?_, rfl⟩
  rw [docOf, h.saved, Option.getD_some]

end Selections

def diskOf {α : Type} : EStateM.Result VersionError Session α → Disk
  | .ok _ s => s.disk
  | .error _ s => s.disk

section Calls

variable {commit : StagedVersionCommit} {selectCurrent : Option Bool}
  {expectedCurrentVersion : Option ℕ}

def Ends (commit : StagedVersionCommit) (before : Disk) (expectedCurrentVersion : Option ℕ)
    (submitted version : ℕ) (saved : Session) :
    EStateM.Result VersionError Session PaidVersionCommit → Prop
  | .ok result s => result.version = version ∧ Stays commit.resource saved s.disk ∧
      (expectedCurrentVersion.any (· ≠ submitted) = true → result.selected = false) ∧
      (result.selected = false → Unselected commit before s.disk) ∧
      (result.selected = true →
        s.disk.formal commit.currentFile = before.staged commit.stagedFile ∧
          currentOf s.disk commit.resource = version)
  | .error e s => Stays commit.resource saved s.disk ∧
      ¬ expectedCurrentVersion.any (· ≠ submitted) = true ∧
      (e = .rollbackIncomplete ∨ Unselected commit before s.disk)

structure CallEnds (commit : StagedVersionCommit) (expectedCurrentVersion : Option ℕ) (s : Session)
    (outcome : EStateM.Result VersionError Session PaidVersionCommit) : Prop where
  saved : ∀ submitted prior version saved,
    recordPaid commit (loaded s) = .ok (submitted, prior, version) saved →
      Ends commit s.disk expectedCurrentVersion submitted version saved outcome
  lost : (∀ result saved, recordPaid commit (loaded s) ≠ .ok result saved) →
    (diskOf outcome).formal = s.disk.formal ∧
      currentOf (diskOf outcome) commit.resource = currentOf s.disk commit.resource ∧
        ∀ result s', outcome ≠ .ok result s'

theorem paidHistory_of_ok {s saved : Session} {submitted prior version : ℕ}
    (h : recordPaid commit (loaded s) = .ok (submitted, prior, version) saved) :
    PaidHistory commit s.disk submitted prior version saved :=
  (meets_recordPaid s).ok rfl h

theorem meets_run {ε σ α : Type} (x : EStateM ε σ α) (s : σ) :
    Meets (· = s) x (fun a s' => x s = .ok a s') (fun e s' => x s = .error e s') := by
  rintro s₁ rfl
  cases hrun : x s₁ with
  | ok a s' => rfl
  | error e s' => rfl

theorem meets_discardPaid {s : Session} {path : String} (failure : VersionError)
    {Q : ℕ × ℕ × ℕ → Session → Prop} :
    Meets (Untouched s.disk failure) (discardPaid s.disk.versionsFile path failure) Q
      (Untouched s.disk) := by
  refine meets_get_bind fun s₁ hs₁ => ?_
  rintro s₂ rfl
  obtain ⟨e, faults, done, hdone, -, hrun⟩ := rollback_spec (α := ℕ × ℕ × ℕ)
    (restoreVersions s.disk.versionsFile :: s₂.created.map unlinkSnapshot ++ [unlinkStaged path])
    failure s₂
  rw [hrun]
  refine undone_induction (J := fun disk => disk.versionsFile = s.disk.versionsFile ∧
    disk.formal = s.disk.formal) hs₁ ?_
  intro step hstep disk hdisk
  rcases List.mem_append.mp (hdone.subset hstep) with hhead | hstaged
  · rcases List.mem_cons.mp hhead with rfl | hsnapshot
    · exact ⟨rfl, hdisk.2⟩
    · obtain ⟨snapshot, -, rfl⟩ := List.mem_map.mp hsnapshot
      exact hdisk
  · rw [List.mem_singleton.mp hstaged]
    exact hdisk

theorem callEnds_of_ends {s saved : Session} {submitted prior version : ℕ}
    {outcome : EStateM.Result VersionError Session PaidVersionCommit}
    (hok : recordPaid commit (loaded s) = .ok (submitted, prior, version) saved)
    (h : Ends commit s.disk expectedCurrentVersion submitted version saved outcome) :
    CallEnds commit expectedCurrentVersion s outcome := by
  refine ⟨fun _ _ _ _ hok' => ?_, fun hlost => absurd hok (hlost _ _)⟩
  cases hok.symm.trans hok'
  exact h

theorem callEnds_commit (commit : StagedVersionCommit) (selectCurrent : Option Bool)
    (expectedCurrentVersion : Option ℕ) (s : Session) :
    Meets (· = s) (commitStagedPaidVersion commit selectCurrent expectedCurrentVersion)
      (fun result s' => CallEnds commit expectedCurrentVersion s (.ok result s'))
      (fun e s' => CallEnds commit expectedCurrentVersion s (.error e s')) := by
  refine meets_bind meets_loadVersions fun _ => meets_get_bind ?_
  rintro _ rfl
  refine meets_ite (fun hmissing => meets_throw_bind ?_) fun _ => ?_
  · -- without a staged file no history is saved
    rintro _ rfl
    refine ⟨fun submitted prior version saved hok => ?_, fun _ => ⟨rfl, rfl, fun _ _ h => by cases h⟩⟩
    obtain ⟨bytes, hbytes, -⟩ := (paidHistory_of_ok hok).held
    rw [show s.disk.staged commit.stagedFile = none from hmissing] at hbytes
    cases hbytes
  refine meets_bind (Q := fun result saved => recordPaid commit (loaded s) = .ok result saved)
    (meets_tryCatch (meets_run _ _) fun failure => ?_) fun result => ?_
  · refine meets_of_forall fun s₁ hfailed => ?_
    have huntouched := (meets_recordPaid s).error rfl hfailed
    refine (meets_discardPaid failure).mono (fun _ hs => hs ▸ huntouched) (fun _ _ h => h) ?_
    intro e s' hs'
    refine ⟨fun _ _ _ _ hok => ?_, fun _ => ⟨hs'.2, ?_, fun _ _ h => by cases h⟩⟩
    · cases hfailed.symm.trans hok
    · unfold currentOf docOf
      rw [diskOf, hs'.1]
      rfl
  obtain ⟨submitted, prior, version⟩ := result
  refine meets_of_forall fun saved hok => ?_
  have hpaid := paidHistory_of_ok hok
  have hdiscard : ∀ {E : VersionError → Session → Prop}, Meets (· = saved)
      (discardStaged commit.stagedFile)
      (fun _ s' => Stays commit.resource saved s'.disk ∧ Unselected commit s.disk s'.disk) E := by
    intro E
    refine (meets_discardStaged (P := fun disk => Stays commit.resource saved disk ∧
      Unselected commit s.disk disk) _ ?_).pre ?_
    · exact fun disk h => ⟨h.1, h.2.formal, h.2.current, h.2.tracked⟩
    · rintro _ rfl
      exact ⟨hpaid.stays, hpaid.unselected⟩
  dsimp only
  split
  · rename_i hselect
    refine meets_bind hdiscard fun _ => meets_throw fun s' hs' => callEnds_of_ends hok ?_
    refine ⟨hs'.1, fun hmismatch => ?_, .inr hs'.2⟩
    rw [if_pos hmismatch] at hselect
    cases hselect
  · refine meets_bind hdiscard fun _ => meets_pure fun s' hs' => callEnds_of_ends hok ?_
    exact ⟨rfl, hs'.1, fun _ => rfl, fun _ => hs'.2, fun h => absurd h Bool.false_ne_true⟩
  · rename_i hselect
    have hexpected : ¬ expectedCurrentVersion.any (· ≠ submitted) = true := by
      intro hmismatch
      rw [if_pos hmismatch] at hselect
      cases hselect
    refine meets_bind (meets_tryCatch (meets_selectPaid hpaid) fun failure => ?_) fun result => ?_
    · refine (meets_deselectPaid hpaid failure).mono (fun _ => id) (fun _ _ => id) ?_
      exact fun e s' hs' => callEnds_of_ends hok ⟨hs'.1, hexpected, hs'.2⟩
    · refine meets_bind (Q := fun _ s' => result = { version, selected := true } ∧
        Stays commit.resource saved s'.disk ∧
        s'.disk.formal commit.currentFile = s.disk.staged commit.stagedFile ∧
          currentOf s'.disk commit.resource = version) ?_ fun _ => meets_pure ?_
      · refine (meets_discardStaged (P := fun disk => result = { version, selected := true } ∧
          Stays commit.resource saved disk ∧
          disk.formal commit.currentFile = s.disk.staged commit.stagedFile ∧
            currentOf disk commit.resource = version) _ fun _ h => h).pre ?_
        exact fun s' hs' => ⟨hs'.1, hs'.2.1.stays, hs'.2.2⟩
      · rintro s' ⟨rfl, hstays, hselected⟩
        exact callEnds_of_ends hok ⟨rfl, hstays, fun h => absurd h hexpected,
          fun h => absurd h (Ne.symm Bool.false_ne_true), fun _ => hselected⟩

/-- Once its history is saved a paid result keeps its version and its bytes, however the call ends. A
result that is not selected, and a selection that fails, leaves the formal files as they were, and the
version that was current; a formal file without a version has one of its own by then. Otherwise the
call says that its rollback is incomplete. A result that was submitted for another version is not
selected, whether its history is saved or not. -/
theorem commitStagedPaidVersion_spec (commit : StagedVersionCommit) (selectCurrent : Option Bool)
    (expectedCurrentVersion : Option ℕ) (s : Session) :
    let outcome := commitStagedPaidVersion commit selectCurrent expectedCurrentVersion s
    let after := diskOf outcome
    (∀ submitted prior version saved,
      recordPaid commit (loaded s) = .ok (submitted, prior, version) saved →
        (∃ bytes, s.disk.staged commit.stagedFile = some bytes ∧
          Held (docOf after) after commit.resource version bytes) ∧
        (∀ result s', outcome = .ok result s' → result.version = version ∧
          if result.selected then
            after.formal commit.currentFile = s.disk.staged commit.stagedFile ∧
              currentOf after commit.resource = version
          else Unselected commit s.disk after) ∧
        ∀ e s', outcome = .error e s' → e = .rollbackIncomplete ∨ Unselected commit s.disk after) ∧
    (expectedCurrentVersion.any (· ≠ currentOf s.disk commit.resource) = true →
      (∀ result s', outcome = .ok result s' → result.selected = false) ∧
      after.formal = s.disk.formal ∧
        (currentOf after commit.resource = currentOf s.disk commit.resource ∨
          currentOf after commit.resource = priorOf commit s.disk)) := by
  have hends : CallEnds commit expectedCurrentVersion s
      (commitStagedPaidVersion commit selectCurrent expectedCurrentVersion s) := by
    have hmeets := callEnds_commit commit selectCurrent expectedCurrentVersion s s rfl
    cases hrun : commitStagedPaidVersion commit selectCurrent expectedCurrentVersion s with
    | ok result s' => rwa [hrun] at hmeets
    | error e s' => rwa [hrun] at hmeets
  dsimp only
  generalize commitStagedPaidVersion commit selectCurrent expectedCurrentVersion s = outcome at hends
  refine ⟨fun submitted prior version saved hok => ?_, fun hmismatch => ?_⟩
  · have hend := hends.saved submitted prior version saved hok
    obtain ⟨bytes, hbytes, hheld⟩ := (paidHistory_of_ok hok).held
    cases outcome with
    | ok result s' =>
        obtain ⟨hversion, hstays, -, hunselected, hselected⟩ := hend
        refine ⟨⟨bytes, hbytes, hstays.held hheld⟩, ?_, fun _ _ h => (by cases h)⟩
        rintro _ _ ⟨⟩
        refine ⟨hversion, ?_⟩
        split
        · rename_i hselect
          exact hselected hselect
        · rename_i hselect
          exact hunselected (Bool.eq_false_iff.mpr hselect)
    | error e s' =>
        obtain ⟨hstays, -, hundone⟩ := hend
        refine ⟨⟨bytes, hbytes, hstays.held hheld⟩, fun _ _ h => (by cases h), ?_⟩
        rintro _ _ ⟨⟩
        exact hundone
  · by_cases hok : ∃ submitted prior version saved,
        recordPaid commit (loaded s) = .ok (submitted, prior, version) saved
    · obtain ⟨submitted, prior, version, saved, hok⟩ := hok
      have hend := hends.saved submitted prior version saved hok
      rw [← (paidHistory_of_ok hok).submitted_eq] at hmismatch
      cases outcome with
      | ok result s' =>
          obtain ⟨-, -, hselected, hunselected, -⟩ := hend
          have hnot := hselected hmismatch
          refine ⟨?_, (hunselected hnot).formal, .inr (hunselected hnot).current⟩
          rintro _ _ ⟨⟩
          exact hnot
      | error e s' => exact absurd hmismatch hend.2.1
    · obtain ⟨hformal, hcurrent, hfails⟩ := hends.lost fun result saved h =>
        hok ⟨result.1, result.2.1, result.2.2, saved, h⟩
      exact ⟨fun result s' h => absurd h (hfails result s'), hformal, .inl hcurrent⟩

end Calls

private theorem harbour_segments :
    "Harbour".toList.count '/' + 1 = (pattern .scenes).idSegments := by
  decide

private def harbour : Resource where
  type := .scenes
  id := "Harbour"
  segments := harbour_segments

private def harbourCommit : StagedVersionCommit where
  resource := harbour
  prompt := "a harbour at dawn"
  stagedFile := "scenes/.staged.png"
  currentFile := "scenes/Harbour.png"

private theorem midnight_plain : ∀ c ∈ "20260101T000000".toList, c.isAlphanum = true := by
  decide

private def harbourSession (faults : List Fault) : Session where
  disk :=
    { versionsFile := none
      formal := fun path => if path = "scenes/Harbour.png" then some [7] else none
      snapshots := fun _ => none
      staged := fun path => if path = "scenes/.staged.png" then some [1] else none }
  faults
  now := fun _ => { text := "20260101T000000", plain := midnight_plain }
  ticks := 0
  data := fun _ => none
  created := []
  strayed := []
  states := []

private def registrationFails : List Fault :=
  [.none, .none, .none, .none, .none, .none, .stops none]

private def errorOf {α : Type} : EStateM.Result VersionError Session α → Option VersionError
  | .ok _ _ => none
  | .error e _ => some e

/-- The registration of a selected result fails. The formal file is back, and its new version is
current where none was. -/
theorem failedSelection_tracks :
    ¬ ∀ (commit : StagedVersionCommit) (selectCurrent : Option Bool)
        (expectedCurrentVersion : Option ℕ) (s s' : Session) (e : VersionError),
      (∃ result saved, recordPaid commit (loaded s) = .ok result saved) →
      commitStagedPaidVersion commit selectCurrent expectedCurrentVersion s = .error e s' →
      e ≠ .rollbackIncomplete →
        s'.disk.formal commit.currentFile = s.disk.formal commit.currentFile ∧
          currentOf s'.disk commit.resource = currentOf s.disk commit.resource := by
  intro h
  have hcurrent : currentOf (diskOf (commitStagedPaidVersion harbourCommit (some true) none
      (harbourSession registrationFails))) harbour = 1 := by decide +kernel
  have hfails : (errorOf (commitStagedPaidVersion harbourCommit (some true) none
      (harbourSession registrationFails))) = some .failed := by decide +kernel
  have hrecords : ∃ result saved, recordPaid harbourCommit (loaded (harbourSession registrationFails)) =
      .ok result saved := by
    cases hrun : recordPaid harbourCommit (loaded (harbourSession registrationFails)) with
    | ok result saved => exact ⟨result, saved, rfl⟩
    | error e saved =>
        have hrecorded : errorOf (recordPaid harbourCommit
          (loaded (harbourSession registrationFails))) = none := by decide +kernel
        rw [hrun] at hrecorded
        cases hrecorded
  cases hrun : commitStagedPaidVersion harbourCommit (some true) none
      (harbourSession registrationFails) with
  | ok result s' =>
      rw [hrun] at hfails
      cases hfails
  | error e s' =>
      rw [hrun] at hfails hcurrent
      obtain rfl := Option.some.inj hfails
      have hsame := (h _ _ _ _ _ _ hrecords hrun (by decide)).2
      exact absurd (hsame.symm.trans hcurrent) (by decide +kernel)

end ShortReel.PaidSelections
