import ShortReel.VersionHistories

/-!
# Version selections

Behind a call that selects a version, the formal file is the snapshot of that version; and what holds
of the histories along every run of calls.
-/

namespace ShortReel.VersionSelections

open FallibleStates ResourcePaths VersionStore VersionSteps VersionHistories

/-- What a call has selected for a resource, with the formal file. A rejection does not say which
version that is. -/
structure Selection where
  resource : Resource
  version : Option ℕ
  file : String
  deriving DecidableEq, Repr

def Selects (doc : VersionsDoc) (disk : Disk) (resource : Resource) (file : String) (version : ℕ) :
    Prop :=
  (dataOf doc resource).currentVersion = version ∧ ∃ record ∈ recordsOf doc resource,
    record.version = version ∧ ∃ bytes, disk.snapshots record.file = some bytes ∧
      disk.formal file = some bytes

def Settled (doc : VersionsDoc) (disk : Disk) (selection : Selection) : Prop :=
  match selection.version with
  | some version => Selects doc disk selection.resource selection.file version
  | none => ((dataOf doc selection.resource).currentVersion = 0 ∧ disk.formal selection.file = none) ∨
      ∃ version, Selects doc disk selection.resource selection.file version

section Frames

variable {doc doc' : VersionsDoc} {disk disk' : Disk} {selection : Selection}

theorem Settled.congr (h : Settled doc disk selection)
    (hdata : dataOf doc' selection.resource = dataOf doc selection.resource)
    (hsnapshots : ∀ record ∈ recordsOf doc selection.resource,
      disk'.snapshots record.file = disk.snapshots record.file)
    (hformal : disk'.formal selection.file = disk.formal selection.file) :
    Settled doc' disk' selection := by
  have hrecords : recordsOf doc' selection.resource = recordsOf doc selection.resource := by
    rw [recordsOf, recordsOf, hdata]
  have hselects : ∀ version, Selects doc disk selection.resource selection.file version →
      Selects doc' disk' selection.resource selection.file version := by
    rintro version ⟨hcurrent, record, hrecord, hversion, bytes, hsnapshot, hfile⟩
    refine ⟨by rw [hdata, hcurrent], record, by rwa [hrecords], hversion, bytes, ?_, ?_⟩
    · rw [hsnapshots record hrecord, hsnapshot]
    · rw [hformal, hfile]
  unfold Settled at h ⊢
  cases hversion : selection.version with
  | some version =>
      rw [hversion] at h
      exact hselects version h
  | none =>
      rw [hversion] at h
      refine h.imp ?_ ?_
      · rintro ⟨hzero, hnone⟩
        exact ⟨by rw [hdata, hzero], by rw [hformal, hnone]⟩
      · rintro ⟨version, hselected⟩
        exact ⟨version, hselects version hselected⟩

end Frames

def Holding (chosen : List Selection) (s : Session) : Prop :=
  Consistent s.data ∧ ∀ selection ∈ chosen, Settled s.data s.disk selection

def Saved (chosen : List Selection) (s : Session) : Prop :=
  Consistent (docOf s.disk) ∧ ∀ selection ∈ chosen, Settled (docOf s.disk) s.disk selection

def Reaches {α : Type} (P : Session → Prop) (x : VersionM α) (Q : α → Session → Prop) : Prop :=
  Meets P x Q fun _ _ => True

section Steps

variable {chosen : List Selection} {α : Type}

theorem Holding.subset {chosen' : List Selection} {s : Session} (h : Holding chosen s)
    (hsubset : chosen' ⊆ chosen) : Holding chosen' s :=
  ⟨h.1, fun selection hselection => h.2 selection (hsubset hselection)⟩

theorem saved_callback : Reaches (Saved chosen) callback fun _ => Saved chosen :=
  meets_attempt (fun _ _ _ => trivial) fun _ _ _ hs heffect => Option.some.inj heffect ▸ hs

theorem saved_saveVersions : Reaches (Holding chosen) saveVersions fun _ => Saved chosen := by
  refine meets_get_bind fun s₀ hs₀ => meets_attempt (fun _ _ _ => trivial) ?_
  rintro s faults disk rfl heffect
  obtain rfl := Option.some.inj heffect
  exact ⟨hs₀.1, fun selection hselection => (hs₀.2 selection hselection).congr rfl
    (fun _ _ => rfl) rfl⟩

theorem holding_loadVersions :
    Reaches (Saved chosen) loadVersions fun _ s => Holding chosen s ∧ Saved chosen s :=
  meets_modify fun _ hs => ⟨hs, hs⟩

theorem holding_backupCurrent (file : String) :
    Reaches (Holding chosen) (backupCurrent file) fun _ => Holding chosen :=
  meets_backupCurrent (fun _ hs _ => hs) (fun _ _ _ => trivial) fun _ _ _ hs _ => hs

theorem saved_finish {value : α} {Q : α → Session → Prop} (h : ∀ s, Saved chosen s → Q value s) :
    Reaches (Holding chosen) (do
      saveVersions
      callback
      return value) Q :=
  meets_bind saved_saveVersions fun _ => meets_bind saved_callback fun _ => meets_pure h

theorem holding_writeFormal {s : Session} (hs : Holding chosen s) {file : String}
    (hfile : ∀ selection ∈ chosen, selection.file ≠ file) (bytes : Option Bytes) (faults : List Fault) :
    Holding chosen { s with faults, disk := s.disk.writeFormal file bytes } :=
  ⟨hs.1, fun selection hselection => (hs.2 selection hselection).congr rfl (fun _ _ => rfl)
    (writeFormal_of_ne _ _ (hfile selection hselection))⟩

def Recorded (resource : Resource) (version : ℕ) (bytes : Bytes) (s : Session) : Prop :=
  ∃ record ∈ recordsOf s.data resource, record.version = version ∧
    s.disk.snapshots record.file = some bytes

theorem holding_appendRecord {loggedFirst selects : Bool} {resource : Resource} {source : Source}
    {prompt : String} (hresource : ∀ selection ∈ chosen, selection.resource ≠ resource) :
    Reaches (Holding chosen) (appendRecord loggedFirst selects resource source prompt)
      fun version s => Holding chosen s ∧
        (selects = true → (dataOf s.data resource).currentVersion = version) ∧
          ∃ bytes, source.read s.disk = some bytes ∧ Recorded resource version bytes s := by
  refine meets_appendRecord resource (fun _ _ _ => trivial) (fun _ _ _ _ => trivial) ?_
  intro s faults bytes hs hread
  have hdata : dataOf (withRecord resource selects prompt bytes faults s).data resource =
      appended (dataOf s.data resource) (newPath resource s) prompt selects := dataOf_update _ _ _
  refine ⟨⟨consistent_appended hs.1 resource _ prompt selects, fun selection hselection => ?_⟩, ?_,
    bytes, ?_, ?_⟩
  · refine (hs.2 selection hselection).congr (dataOf_update_of_ne (hresource selection hselection) _)
      (fun record hrecord => ?_) rfl
    exact writeSnapshot_of_ne _ _ (newPath_fresh hs.1 List.prefix_rfl _ hrecord)
  · intro hselects
    rw [hdata, appended, if_pos hselects]
    rfl
  · cases source <;> exact hread
  · have hnew : ∃ record ∈ (appended (dataOf s.data resource) (newPath resource s) prompt
        selects).versions, record.version = newVersion resource s ∧ record.file = newPath resource s :=
      ⟨_, List.mem_append_right _ (List.mem_singleton_self _), rfl, rfl⟩
    obtain ⟨record, hrecord, hversion, hfile⟩ := hnew
    refine ⟨record, ?_, hversion, ?_⟩
    · rwa [recordsOf, hdata]
    · rw [hfile]
      exact writeSnapshot_self _ _

theorem holding_setCurrent {s : Session} {resource : Resource} {version : ℕ} (hs : Holding chosen s)
    (hresource : ∀ selection ∈ chosen, selection.resource ≠ resource)
    (hnamed : Named s.data resource version) :
    Holding chosen { s with
      data := Function.update s.data resource
        (some { dataOf s.data resource with currentVersion := version }) } :=
  ⟨consistent_selected hs.1 hnamed, fun selection hselection => (hs.2 selection hselection).congr
    (dataOf_update_of_ne (hresource selection hselection) _) (fun _ _ => rfl) rfl⟩

end Steps

section Commits

variable {chosen : List Selection}

theorem holding_track {loggedFirst : Bool} {resource : Resource} (file : String)
    (hresource : ∀ selection ∈ chosen, selection.resource ≠ resource) :
    Reaches (Holding chosen) (track (appendRecord loggedFirst true) resource file)
      fun _ => Holding chosen := by
  refine meets_bind (holding_backupCurrent file) fun existed => meets_get_bind fun s hs => ?_
  refine meets_ite (fun _ => ?_) fun _ => meets_pure fun _ hsame => hsame ▸ hs
  refine Meets.pre (P := Holding chosen) ?_ fun _ hsame => hsame ▸ hs
  exact meets_bind (holding_appendRecord hresource) fun _ => meets_pure fun _ h => h.1

theorem holding_replaceFormal {resource : Resource} {version : ℕ} {stagedFile : String} {file : String}
    (hfile : ∀ selection ∈ chosen, selection.file ≠ file) :
    Reaches (fun s => Holding chosen s ∧ (true = true → (dataOf s.data resource).currentVersion = version) ∧
        ∃ bytes, (Source.staged stagedFile).read s.disk = some bytes ∧ Recorded resource version bytes s)
      (replaceFormal stagedFile file)
      fun _ => Holding ({ resource, version := some version, file } :: chosen) := by
  refine meets_attempt (fun _ _ _ => trivial) ?_
  rintro s faults disk ⟨hs, hcurrent, bytes, hstaged, record, hrecord, hversion, hsnapshot⟩ heffect
  obtain ⟨bytes', hbytes', rfl⟩ := Option.map_eq_some_iff.mp heffect
  obtain rfl := Option.some.inj (hstaged.symm.trans hbytes')
  obtain ⟨hdata, hothers⟩ := holding_writeFormal hs hfile (some bytes) faults
  refine ⟨hdata, List.forall_mem_cons.mpr ⟨?_, fun selection hselection => ?_⟩⟩
  · exact ⟨hcurrent rfl, record, hrecord, hversion, bytes, hsnapshot, writeFormal_self _ _⟩
  · exact (hothers selection hselection).congr rfl (fun _ _ => rfl) rfl

def selectionOf (commit : StagedVersionCommit) (result : Resource × ℕ) : Selection where
  resource := commit.resource
  version := some result.2
  file := commit.currentFile

theorem holding_activate {loggedFirst : Bool} {commit : StagedVersionCommit}
    (hresource : ∀ selection ∈ chosen, selection.resource ≠ commit.resource)
    (hfile : ∀ selection ∈ chosen, selection.file ≠ commit.currentFile) :
    Reaches (Holding chosen) (activate (appendRecord loggedFirst true) commit)
      fun result => Holding (selectionOf commit result :: chosen) :=
  meets_bind (holding_track commit.currentFile hresource) fun _ =>
    meets_bind (holding_appendRecord hresource) fun _ =>
      meets_bind (holding_replaceFormal hfile) fun _ => meets_pure fun _ => id

theorem holding_activateAll {commits : List StagedVersionCommit} {disk : Disk}
    {identities : List Resource} {targets : List String}
    (hcheck : checkStaged disk identities targets commits = none)
    (hchosen : ∀ selection ∈ chosen, selection.resource ∈ identities ∧ selection.file ∈ targets) :
    Reaches (Holding chosen) (activateAll commits)
      fun results => Holding (List.zipWith selectionOf commits results ++ chosen) := by
  induction commits generalizing chosen identities targets with
  | nil => exact meets_pure fun _ => id
  | cons commit commits ih =>
      unfold checkStaged at hcheck
      split_ifs at hcheck with hidentity hstaged htarget
      have hresource : ∀ selection ∈ chosen, selection.resource ≠ commit.resource :=
        fun selection hselection heq => hidentity (heq ▸ (hchosen selection hselection).1)
      have hfile : ∀ selection ∈ chosen, selection.file ≠ commit.currentFile :=
        fun selection hselection heq => htarget (heq ▸ (hchosen selection hselection).2)
      refine meets_bind (holding_activate hresource hfile) fun result => ?_
      refine meets_bind (ih hcheck (List.forall_mem_cons.mpr ⟨⟨List.mem_cons_self,
        List.mem_cons_self⟩, fun selection hselection => ?_⟩)) fun results =>
          meets_pure fun s hs => hs.subset ?_
      · obtain ⟨hidentities, htargets⟩ := hchosen selection hselection
        exact ⟨List.mem_cons_of_mem _ hidentities, List.mem_cons_of_mem _ htargets⟩
      · rw [List.zipWith_cons_cons, List.cons_append]
        exact List.perm_middle.symm.subset

def installedOf (commit : InstalledVersionCommit) (result : Resource × ℕ) : Selection where
  resource := commit.resource
  version := some result.2
  file := commit.currentFile

theorem holding_appendAll {commits : List InstalledVersionCommit} {disk : Disk}
    {identities : List Resource} (hcheck : checkInstalled disk identities commits = none)
    (hchosen : ∀ selection ∈ chosen, selection.resource ∈ identities) :
    Reaches (Holding chosen) (appendAll commits)
      fun results => Holding (List.zipWith installedOf commits results ++ chosen) := by
  induction commits generalizing chosen identities with
  | nil => exact meets_pure fun _ => id
  | cons commit commits ih =>
      unfold checkInstalled at hcheck
      split_ifs at hcheck with hidentity hinstalled
      have hresource : ∀ selection ∈ chosen, selection.resource ≠ commit.resource :=
        fun selection hselection heq => hidentity (heq ▸ hchosen selection hselection)
      refine meets_bind (holding_appendRecord hresource) fun version => ?_
      refine meets_bind (Meets.pre (P := Holding (installedOf commit (commit.resource, version) ::
        chosen)) (ih hcheck (List.forall_mem_cons.mpr ⟨List.mem_cons_self,
          fun selection hselection => List.mem_cons_of_mem _ (hchosen selection hselection)⟩)) ?_)
            fun results => meets_pure fun s hs => hs.subset ?_
      · rintro s ⟨hs, hcurrent, bytes, hformal, record, hrecord, hversion, hsnapshot⟩
        exact ⟨hs.1, List.forall_mem_cons.mpr ⟨⟨hcurrent rfl, record, hrecord, hversion, bytes,
          hsnapshot, hformal⟩, hs.2⟩⟩
      · rw [List.zipWith_cons_cons, List.cons_append]
        exact List.perm_middle.symm.subset

end Commits

section Recorded

variable {chosen : List Selection}

def Ready (chosen : List Selection) (resource : Resource) (version : ℕ) (file : String) (s : Session) :
    Prop :=
  Holding chosen s ∧ ∃ bytes, s.disk.formal file = some bytes ∧ Recorded resource version bytes s

theorem named_of_recorded {resource : Resource} {version : ℕ} {bytes : Bytes} {s : Session}
    (h : Recorded resource version bytes s) : Named s.data resource version := by
  obtain ⟨record, hrecord, hversion, -⟩ := h
  exact .inr ⟨record, hrecord, hversion⟩

theorem ready_setCurrent {resource : Resource} {version : ℕ} {file : String}
    (hresource : ∀ selection ∈ chosen, selection.resource ≠ resource) :
    Reaches (Ready chosen resource version file) (setCurrent resource version)
      fun _ => Holding ({ resource, version := some version, file } :: chosen) := by
  refine meets_modify ?_
  rintro s ⟨hs, bytes, hformal, hrecorded⟩
  obtain ⟨hdata, hothers⟩ := holding_setCurrent hs hresource (named_of_recorded hrecorded)
  refine ⟨hdata, List.forall_mem_cons.mpr ⟨?_, hothers⟩⟩
  obtain ⟨record, hrecord, hversion, hsnapshot⟩ := hrecorded
  have hupdate := dataOf_update s.data resource
    { dataOf s.data resource with currentVersion := version }
  refine ⟨by rw [hupdate], record, ?_, hversion, bytes, hsnapshot, hformal⟩
  rwa [recordsOf, hupdate]

theorem ready_writeFormal {s : Session} {resource : Resource} {version : ℕ} {file : String}
    {bytes : Bytes} (hs : Holding chosen s) (hrecorded : Recorded resource version bytes s)
    (hfile : ∀ selection ∈ chosen, selection.file ≠ file) (faults : List Fault) :
    Ready chosen resource version file
      { s with faults, disk := s.disk.writeFormal file (some bytes) } :=
  ⟨holding_writeFormal hs hfile _ faults, bytes, writeFormal_self _ _, hrecorded⟩

theorem Settled.forget {doc : VersionsDoc} {disk : Disk} {resource : Resource} {version : ℕ}
    {file : String} (h : Settled doc disk { resource, version := some version, file }) :
    Settled doc disk { resource, version := none, file } :=
  .inr ⟨version, h⟩

def Backed (s s' : Session) : Prop :=
  ∃ faults states, s' = { s with faults, states }

theorem backed_backupCurrent (s : Session) (file : String) :
    Reaches (· = s) (backupCurrent file) fun _ => Backed s := by
  refine meets_backupCurrent ?_ (fun _ _ _ => trivial) ?_
  · rintro _ rfl -
    exact ⟨_, _, rfl⟩
  · rintro _ faults bytes rfl -
    exact ⟨_, _, rfl⟩

theorem holding_selectPrevious {s : Session} {resource : Resource} {file : String}
    {previous : Option VersionRecord} (hs : Holding chosen s)
    (hprevious : ∀ record, previous = some record → record ∈ recordsOf s.data resource)
    (hresource : ∀ selection ∈ chosen, selection.resource ≠ resource)
    (hfile : ∀ selection ∈ chosen, selection.file ≠ file) :
    Reaches (Backed s) (selectPrevious resource file previous)
      fun _ => Holding ({ resource, version := none, file } :: chosen) := by
  cases previous with
  | none =>
      refine meets_bind (Q := fun _ s' => Holding chosen s' ∧ s'.disk.formal file = none)
        (meets_attempt (fun _ _ _ => trivial) ?_) fun _ => meets_modify ?_
      · rintro _ faults disk ⟨faults', states, rfl⟩ heffect
        obtain rfl := Option.some.inj heffect
        exact ⟨holding_writeFormal hs hfile none faults, writeFormal_self _ _⟩
      · rintro s' ⟨hs', hnone⟩
        obtain ⟨hdata, hothers⟩ := holding_setCurrent hs' hresource (.inl rfl)
        refine ⟨hdata, List.forall_mem_cons.mpr ⟨.inl ⟨?_, hnone⟩, hothers⟩⟩
        exact congrArg ResourceData.currentVersion (dataOf_update _ _ _)
  | some record =>
      refine meets_get_bind ?_
      rintro _ ⟨faults, states, rfl⟩
      dsimp only
      cases hsnapshot : s.disk.snapshots record.file with
      | none => exact meets_throw fun _ _ => trivial
      | some bytes =>
          have hrecorded : Recorded resource record.version bytes s :=
            ⟨record, hprevious record rfl, rfl, hsnapshot⟩
          refine meets_bind (Q := fun _ => Backed s)
            (meets_attempt (fun _ _ _ => trivial) ?_) fun _ =>
              meets_bind (Q := fun _ => Ready chosen resource record.version file)
                (meets_attempt (fun _ _ _ => trivial) ?_) fun _ =>
                  (ready_setCurrent hresource).mono (fun _ => id) (fun _ s' hs' => ?_)
                    fun _ _ => id
          · rintro _ faults' disk rfl heffect
            obtain rfl := Option.some.inj heffect
            exact ⟨faults', states, rfl⟩
          · rintro _ faults' disk ⟨faults'', states', rfl⟩ heffect
            obtain rfl := Option.some.inj heffect
            exact ready_writeFormal hs hrecorded hfile faults'
          · obtain ⟨hselected, hothers⟩ := List.forall_mem_cons.mp hs'.2
            exact ⟨hs'.1, List.forall_mem_cons.mpr ⟨hselected.forget, hothers⟩⟩

end Recorded

section Successes

variable {chosen : List Selection} {α : Type}

theorem Reaches.guarded {P : Session → Prop} {body : VersionM α} {Q : α → Session → Prop}
    (h : Reaches P body Q) : Reaches P (guarded body) Q :=
  meets_guarded h fun _ _ _ _ _ _ _ _ _ _ => trivial

theorem saved_commitStagedVersion (commit : StagedVersionCommit) :
    Reaches (Saved []) (commitStagedVersion commit)
      fun version => Saved [selectionOf commit (commit.resource, version)] := by
  refine meets_bind holding_loadVersions fun _ => meets_get_bind fun s hs => ?_
  refine meets_ite (fun _ => meets_throw_bind fun _ _ => trivial) fun _ => Reaches.guarded ?_
  refine Meets.pre (P := Holding []) ?_ fun _ hsame => hsame ▸ hs.1
  exact meets_bind (holding_activate (fun _ h => absurd h List.not_mem_nil)
    fun _ h => absurd h List.not_mem_nil) fun result => saved_finish fun _ => id

theorem saved_commitStagedVersions (commits : List StagedVersionCommit) :
    Reaches (Saved []) (commitStagedVersions commits)
      fun results => Saved (List.zipWith selectionOf commits results) := by
  refine meets_bind holding_loadVersions fun _ => meets_get_bind fun s hs => ?_
  refine meets_ite (fun _ => ?_) fun _ => ?_
  · refine meets_pure ?_
    rintro _ rfl
    rw [List.zipWith_nil_right]
    exact hs.2
  · refine Meets.pre (P := Holding []) ?_ fun _ hsame => hsame ▸ hs.1
    cases hcheck : checkStaged s.disk [] [] commits with
    | some error => exact meets_throw fun _ _ => trivial
    | none =>
        refine Reaches.guarded (meets_bind (holding_activateAll hcheck
          fun _ h => absurd h List.not_mem_nil) fun results => saved_finish fun s hs => ?_)
        rwa [List.append_nil] at hs

theorem saved_commitInstalledVersions (commits : List InstalledVersionCommit) :
    Reaches (Saved []) (commitInstalledVersions commits)
      fun results => Saved (List.zipWith installedOf commits results) := by
  refine meets_bind holding_loadVersions fun _ => meets_get_bind fun s hs => ?_
  refine meets_ite (fun _ => ?_) fun _ => ?_
  · refine meets_pure ?_
    rintro _ rfl
    rw [List.zipWith_nil_right]
    exact hs.2
  · refine Meets.pre (P := Holding []) ?_ fun _ hsame => hsame ▸ hs.1
    cases hcheck : checkInstalled s.disk [] commits with
    | some error => exact meets_throw fun _ _ => trivial
    | none =>
        refine Reaches.guarded (meets_bind (holding_appendAll hcheck
          fun _ h => absurd h List.not_mem_nil) fun results => saved_finish fun s hs => ?_)
        rwa [List.append_nil] at hs

section Paid

variable {commit : StagedVersionCommit}

theorem recorded_recordPaid :
    Reaches (Holding []) (recordPaid commit)
      fun result s => Holding [] s ∧ ∃ bytes, s.disk.staged commit.stagedFile = some bytes ∧
        Recorded commit.resource result.2.2 bytes s := by
  have hnone : ∀ selection ∈ ([] : List Selection), selection.resource ≠ commit.resource :=
    fun _ h => absurd h List.not_mem_nil
  have hrest : ∀ submitted : ℕ, Reaches (Holding [])
      (do
        let s ← get
        let prior := (dataOf s.data commit.resource).currentVersion
        let version ← appendSnapshot commit.resource (.staged commit.stagedFile) commit.prompt
        saveVersions
        return (submitted, prior, version))
      fun result s => Holding [] s ∧ ∃ bytes, s.disk.staged commit.stagedFile = some bytes ∧
        Recorded commit.resource result.2.2 bytes s := by
    refine fun submitted => meets_get_bind fun s hs => ?_
    refine meets_bind ((holding_appendRecord hnone).pre fun _ hsame => hsame ▸ hs) fun version => ?_
    refine meets_bind (Q := fun _ s => Holding [] s ∧ ∃ bytes,
      s.disk.staged commit.stagedFile = some bytes ∧ Recorded commit.resource version bytes s) ?_
        fun _ => meets_pure fun _ => id
    refine meets_get_bind fun s₀ hs₀ => meets_attempt (fun _ _ _ => trivial) ?_
    rintro s' faults disk rfl heffect
    obtain rfl := Option.some.inj heffect
    exact ⟨⟨hs₀.1.1, fun _ h => absurd h List.not_mem_nil⟩, hs₀.2.2⟩
  refine meets_get_bind fun s hs => meets_ite (fun _ => ?_) fun _ => (hrest _).pre ?_
  · refine Meets.pre (P := Holding []) ?_ fun _ hsame => hsame ▸ hs
    refine meets_bind (holding_appendRecord hnone) fun tracked =>
      meets_bind (Q := fun _ => Holding []) (meets_modify ?_) fun _ => hrest _
    rintro s' ⟨hs', -, bytes, -, hrecorded⟩
    exact holding_setCurrent hs' hnone (named_of_recorded hrecorded)
  · rintro _ rfl
    exact hs

theorem saved_selectPaid {version : ℕ} :
    Reaches (fun s => Holding [] s ∧ ∃ bytes, s.disk.staged commit.stagedFile = some bytes ∧
        Recorded commit.resource version bytes s) (selectPaid commit version)
      fun result => Saved [selectionOf commit (commit.resource, result.version)] := by
  refine meets_bind (Q := fun _ s => Holding [] s ∧ ∃ bytes,
    s.disk.staged commit.stagedFile = some bytes ∧ Recorded commit.resource version bytes s)
      (meets_backupCurrent (fun _ hs _ => hs) (fun _ _ _ => trivial) fun _ _ _ hs _ => hs) fun _ => ?_
  refine meets_bind (Q := fun _ => Ready [] commit.resource version commit.currentFile)
    (meets_attempt (fun _ _ _ => trivial) ?_) fun _ => ?_
  · rintro s faults disk ⟨hs, bytes, hstaged, hrecorded⟩ heffect
    obtain ⟨bytes', hbytes', rfl⟩ := Option.map_eq_some_iff.mp heffect
    obtain rfl := Option.some.inj (hstaged.symm.trans hbytes')
    obtain ⟨⟨hdata, -⟩, hready⟩ := ready_writeFormal hs hrecorded
      (fun _ h => absurd h List.not_mem_nil) faults
    exact ⟨⟨hdata, fun _ h => absurd h List.not_mem_nil⟩, hready⟩
  · exact meets_bind (ready_setCurrent fun _ h => absurd h List.not_mem_nil) fun _ =>
      saved_finish fun _ => id

theorem undoAll_returns {P : Session → Prop} {steps : List (Disk → Disk)} :
    Reaches P (undoAll steps) fun _ _ => True := by
  intro s _
  obtain ⟨ok, faults, done, -, -, hrun⟩ := undoAll_spec steps s
  rw [hrun]
  trivial

theorem rollback_fails {P : Session → Prop} {Q : α → Session → Prop} {steps : List (Disk → Disk)}
    (failure : VersionError) : Reaches P (rollback steps failure) Q :=
  meets_bind undoAll_returns fun _ =>
    meets_ite (fun _ => meets_throw fun _ _ => trivial) fun _ => meets_throw fun _ _ => trivial

theorem deselectPaid_fails {P : Session → Prop} {Q : α → Session → Prop} {prior : ℕ}
    (failure : VersionError) : Reaches P (deselectPaid commit prior failure) Q :=
  meets_bind (Q := fun _ _ => True) (meets_modify fun _ _ => trivial) fun _ =>
    meets_get_bind fun _ _ => meets_bind undoAll_returns fun _ =>
      meets_bind (Q := fun _ _ => True) (meets_bind undoAll_returns fun _ =>
        meets_pure fun _ _ => trivial) fun _ =>
          meets_ite (fun _ => meets_throw fun _ _ => trivial) fun _ => meets_throw fun _ _ => trivial

theorem saved_discardStaged (path : String) :
    Reaches (Saved chosen) (discardStaged path) fun _ => Saved chosen := by
  refine meets_bind (Q := fun _ => Saved chosen) ?_ fun _ => meets_pure fun _ => id
  intro s hs
  obtain ⟨ok, faults, done, hdone, -, hrun⟩ := undoAll_spec [unlinkStaged path] s
  rw [hrun]
  rcases List.sublist_singleton.mp hdone with rfl | rfl
  · exact hs
  · exact ⟨hs.1, fun selection hselection => (hs.2 selection hselection).congr rfl (fun _ _ => rfl) rfl⟩

theorem saved_commitStagedPaidVersion (selectCurrent : Option Bool)
    (expectedCurrentVersion : Option ℕ) :
    Reaches (Saved []) (commitStagedPaidVersion commit selectCurrent expectedCurrentVersion)
      fun result s => result.selected = true →
        Saved [selectionOf commit (commit.resource, result.version)] s := by
  refine meets_bind holding_loadVersions fun _ => meets_get_bind fun s hs => ?_
  refine meets_ite (fun _ => meets_throw_bind fun _ _ => trivial) fun _ => ?_
  refine Meets.pre (P := Holding []) ?_ fun _ hsame => hsame ▸ hs.1
  refine meets_bind (meets_tryCatch recorded_recordPaid fun failure =>
    meets_get_bind fun _ _ => rollback_fails failure) fun result => ?_
  obtain ⟨submitted, prior, version⟩ := result
  dsimp only
  split
  · exact meets_bind (Q := fun _ _ => True) (meets_bind (Q := fun _ _ => True)
      undoAll_returns fun _ => meets_pure fun _ _ => trivial) fun _ =>
        meets_throw fun _ _ => trivial
  · exact meets_bind (Q := fun _ _ => True) (meets_bind (Q := fun _ _ => True)
      undoAll_returns fun _ => meets_pure fun _ _ => trivial) fun _ =>
        meets_pure fun _ _ h => absurd h Bool.false_ne_true
  · refine meets_bind (meets_tryCatch saved_selectPaid fun failure => deselectPaid_fails failure)
      fun selected => meets_bind (saved_discardStaged _) fun _ => meets_pure fun _ hs _ => hs

end Paid

section Rejections

theorem saved_restoreVersion (resource : Resource) (version : ℕ) (file : String) :
    Reaches (Saved []) (restoreVersion resource version file)
      fun _ => Saved [{ resource, version := some version, file }] := by
  refine meets_bind holding_loadVersions fun _ => meets_get_bind fun s hs => ?_
  cases hdata : s.data resource with
  | none => exact meets_throw fun _ _ => trivial
  | some resourceData =>
      dsimp only
      cases hfound : findVersion resourceData.versions version with
      | none => exact meets_throw fun _ _ => trivial
      | some record =>
          refine meets_ite (fun _ => meets_throw_bind fun _ _ => trivial) fun _ =>
            meets_ite (fun _ => meets_throw_bind fun _ _ => trivial) fun _ => Reaches.guarded ?_
          obtain ⟨hrecord, hversion⟩ := mem_of_findVersion hfound
          have hrecords : record ∈ recordsOf s.data resource := by
            unfold recordsOf dataOf
            rwa [hdata]
          refine meets_bind (backed_backupCurrent s file) fun _ =>
            meets_bind (Q := fun _ => Ready [] resource version file)
              (meets_copyToFormal (fun _ _ _ => trivial) (fun _ _ _ _ => trivial) ?_) fun _ => ?_
          · rintro _ faults' bytes ⟨faults, states, rfl⟩ hsnapshot
            exact ready_writeFormal (s := s) hs.1 ⟨record, hrecords, hversion, hsnapshot⟩
              (fun _ h => absurd h List.not_mem_nil) faults'
          · exact meets_bind (ready_setCurrent fun _ h => absurd h List.not_mem_nil) fun _ =>
              saved_finish fun _ => id

variable {chosen : List Selection}

theorem saved_rejectCurrentVersion {resource : Resource} {file : String} (rejectedVersion : ℕ)
    (restore : Option ℕ) {onReject : VersionM Unit}
    (hresource : ∀ selection ∈ chosen, selection.resource ≠ resource)
    (hfile : ∀ selection ∈ chosen, selection.file ≠ file)
    (honReject : ∀ chosen, Reaches (Saved chosen) onReject fun _ => Saved chosen) :
    Reaches (Saved chosen) (rejectCurrentVersion resource rejectedVersion restore file onReject)
      fun selected s => selected = true → Saved ({ resource, version := none, file } :: chosen) s := by
  refine meets_bind holding_loadVersions fun _ => meets_get_bind fun s hs => ?_
  have hfalse : Reaches (· = s) (pure false : VersionM Bool) fun selected s => selected = true →
      Saved ({ resource, version := none, file } :: chosen) s :=
    meets_pure fun _ _ h => absurd h Bool.false_ne_true
  cases hdata : s.data resource with
  | none => exact hfalse
  | some resourceData =>
      refine meets_ite (fun _ => hfalse) fun _ => ?_
      cases findVersion resourceData.versions rejectedVersion with
      | none => exact hfalse
      | some rejected =>
          refine meets_ite (fun _ => meets_throw_bind fun _ _ => trivial) fun _ =>
            meets_ite (fun _ => meets_throw_bind fun _ _ => trivial) fun _ => Reaches.guarded ?_
          have hprevious : ∀ record, findVersion resourceData.versions
              (versionToRestore resourceData.versions rejected restore) = some record →
                record ∈ recordsOf s.data resource := by
            intro record hfound
            unfold recordsOf dataOf
            rw [hdata]
            exact (mem_of_findVersion hfound).1
          exact meets_bind (backed_backupCurrent s file) fun _ =>
            meets_bind (holding_selectPrevious hs.1 hprevious hresource hfile) fun _ =>
              meets_bind saved_saveVersions fun _ => meets_bind (honReject _) fun _ =>
                meets_pure fun _ hs _ => hs

def Alone (rejections : List Rejection) (rejection : Rejection) : Prop :=
  ∀ other ∈ rejections, other.currentFile = rejection.currentFile → other = rejection

instance (rejections : List Rejection) : DecidablePred (Alone rejections) := fun rejection =>
  inferInstanceAs (Decidable (∀ other ∈ rejections,
    other.currentFile = rejection.currentFile → other = rejection))

def rejectionOf (rejection : Rejection) : Selection where
  resource := rejection.resource
  version := none
  file := rejection.currentFile

theorem saved_rejectAll {rejections : List Rejection}
    (hkeys : (rejections.map (·.resource)).Nodup)
    (hchosen : ∀ selection ∈ chosen, ∀ rejection ∈ rejections,
      selection.resource ≠ rejection.resource ∧ selection.file ≠ rejection.currentFile) :
    Reaches (Saved chosen) (rejectAll rejections)
      fun _ s => Saved chosen s ∧ ∀ rejection ∈ rejections, Alone rejections rejection →
        Settled (docOf s.disk) s.disk (rejectionOf rejection) := by
  induction rejections generalizing chosen with
  | nil => exact meets_pure fun _ hs => ⟨hs, fun _ h => absurd h List.not_mem_nil⟩
  | cons rejection rejections ih =>
      obtain ⟨hnew, hrest⟩ := List.nodup_cons.mp hkeys
      have hlater : ∀ selection ∈ chosen, ∀ other ∈ rejections,
          selection.resource ≠ other.resource ∧ selection.file ≠ other.currentFile :=
        fun selection hselection other hother =>
          hchosen selection hselection other (List.mem_cons_of_mem _ hother)
      have hfirst : ∀ selection ∈ chosen, selection.resource ≠ rejection.resource ∧
          selection.file ≠ rejection.currentFile :=
        fun selection hselection => hchosen selection hselection rejection List.mem_cons_self
      refine meets_bind (saved_rejectCurrentVersion rejection.version none
        (fun selection h => (hfirst selection h).1) (fun selection h => (hfirst selection h).2)
          fun _ => meets_pure fun _ => id) fun selected => ?_
      refine meets_ite (fun _ => meets_throw_bind fun _ _ => trivial) fun hselected => ?_
      have htrue : selected = true := by simpa using hselected
      have halone : ∀ other ∈ rejections, Alone (rejection :: rejections) other →
          Alone rejections other :=
        fun other _ h another hanother => h another (List.mem_cons_of_mem _ hanother)
      by_cases hshared : rejection.currentFile ∈ rejections.map (·.currentFile)
      · -- a later rejection names this file
        refine (ih hrest hlater).mono (fun s hs => ?_) (fun _ s hs => ⟨hs.1, ?_⟩) fun _ _ => id
        · exact ⟨(hs htrue).1, fun selection h => (hs htrue).2 selection (List.mem_cons_of_mem _ h)⟩
        · refine List.forall_mem_cons.mpr ⟨fun h => ?_, fun other hother h =>
            hs.2 other hother (halone other hother h)⟩
          obtain ⟨other, hother, hfile⟩ := List.mem_map.mp hshared
          obtain rfl := h other (List.mem_cons_of_mem _ hother) hfile
          exact absurd (List.mem_map_of_mem hother) hnew
      · have hkept : ∀ selection ∈ rejectionOf rejection :: chosen, ∀ other ∈ rejections,
            selection.resource ≠ other.resource ∧ selection.file ≠ other.currentFile := by
          refine List.forall_mem_cons.mpr ⟨fun other hother => ⟨fun h => ?_, fun h => ?_⟩, hlater⟩
          · exact hnew (List.mem_map.mpr ⟨other, hother, h.symm⟩)
          · exact hshared (List.mem_map.mpr ⟨other, hother, h.symm⟩)
        refine (ih hrest hkept).mono (fun s hs => hs htrue) (fun _ s hs => ?_) fun _ _ => id
        obtain ⟨hself, hothers⟩ := List.forall_mem_cons.mp hs.1.2
        exact ⟨⟨hs.1.1, hothers⟩, List.forall_mem_cons.mpr ⟨fun _ => hself,
          fun other hother h => hs.2 other hother (halone other hother h)⟩⟩

theorem saved_rejectCurrentVersions {rejections : List Rejection}
    (hkeys : (rejections.map (·.resource)).Nodup) :
    Reaches (Saved []) (rejectCurrentVersions rejections)
      fun current s => ∀ rejection ∈ current, Alone current rejection →
        Settled (docOf s.disk) s.disk (rejectionOf rejection) := by
  refine meets_bind holding_loadVersions fun _ => meets_get_bind fun s hs => ?_
  refine meets_ite (fun _ => meets_pure fun _ _ _ h => absurd h List.not_mem_nil) fun _ => ?_
  have hperm : ∀ current : List Rejection, (current.mergeSort rejectionOrder).Perm current :=
    fun current => List.mergeSort_perm current rejectionOrder
  have hsorted : ∀ current : List Rejection, (current.map (·.resource)).Nodup →
      ((current.mergeSort rejectionOrder).map (·.resource)).Nodup :=
    fun current h => ((hperm current).map _).nodup_iff.mpr h
  have hcurrent := hkeys.sublist (List.Sublist.map (·.resource) (List.filter_sublist (l := rejections)
    (p := fun rejection => (s.data rejection.resource).any (·.currentVersion = rejection.version))))
  refine meets_bind (meets_tryCatch (F := fun _ _ => True) (Q := fun _ s' => ∀ rejection ∈ _,
    Alone _ rejection → Settled (docOf s'.disk) s'.disk (rejectionOf rejection)) ?_
      fun failure => rollback_fails failure) fun _ => meets_pure fun _ => id
  refine Meets.pre (P := Saved []) ?_ fun _ hsame => hsame ▸ hs.2
  refine meets_bind (saved_rejectAll (hsorted _ hcurrent) fun _ h => absurd h List.not_mem_nil)
    fun _ => meets_attempt (fun _ _ _ => trivial) fun s' faults disk hs' heffect => ?_
  obtain rfl := Option.some.inj heffect
  intro rejection hrejection halone
  exact hs'.2 rejection ((hperm _).mem_iff.mpr hrejection) fun other hother =>
    halone other ((hperm _).mem_iff.mp hother)

end Rejections

end Successes

inductive Call where
  | addVersion (resource : Resource) (prompt : String) (source : Option Source)
  | commitStagedVersion (commit : StagedVersionCommit)
  | commitStagedVersions (commits : List StagedVersionCommit)
  | commitInstalledVersions (commits : List InstalledVersionCommit)
  | commitStagedPaidVersion (commit : StagedVersionCommit) (selectCurrent : Option Bool)
      (expectedCurrentVersion : Option ℕ)
  | restoreVersion (resource : Resource) (version : ℕ) (file : String)
  | rejectCurrentVersion (resource : Resource) (rejectedVersion : ℕ) (restore : Option ℕ)
      (file : String)
  | rejectCurrentVersions (rejections : List Rejection)
      (keys : (rejections.map (·.resource)).Nodup)

/-- A call and what it has selected. In a batch of rejections, a formal file that two of them name is
the one of the last. -/
def Call.run : Call → VersionM (List Selection)
  | addVersion resource prompt source => do
      let _ ← VersionStore.addVersion resource prompt source
      return []
  | commitStagedVersion commit => do
      let version ← VersionStore.commitStagedVersion commit
      return [selectionOf commit (commit.resource, version)]
  | commitStagedVersions commits => do
      let results ← VersionStore.commitStagedVersions commits
      return List.zipWith selectionOf commits results
  | commitInstalledVersions commits => do
      let results ← VersionStore.commitInstalledVersions commits
      return List.zipWith installedOf commits results
  | commitStagedPaidVersion commit selectCurrent expectedCurrentVersion => do
      let result ← VersionStore.commitStagedPaidVersion commit selectCurrent expectedCurrentVersion
      return if result.selected then [selectionOf commit (commit.resource, result.version)] else []
  | restoreVersion resource version file => do
      let _ ← VersionStore.restoreVersion resource version file
      return [{ resource, version := some version, file }]
  | rejectCurrentVersion resource rejectedVersion restore file => do
      let selected ←
        VersionStore.rejectCurrentVersion resource rejectedVersion restore file callback
      return if selected then [{ resource, version := none, file }] else []
  | rejectCurrentVersions rejections _ => do
      let current ← VersionStore.rejectCurrentVersions rejections
      return (current.filter (Alone current ·)).map rejectionOf

structure Event where
  call : Call
  formal : String → Option Bytes
  staged : String → Option Bytes
  faults : List Fault
  now : ℕ → Timestamp

def Event.session (event : Event) (disk : Disk) : Session where
  disk := { disk with formal := event.formal, staged := event.staged }
  faults := event.faults
  now := event.now
  ticks := 0
  data := fun _ => none
  created := []
  strayed := []
  states := []

def Event.disk (event : Event) (disk : Disk) : Disk :=
  match event.call.run (event.session disk) with
  | .ok _ s => s.disk
  | .error _ s => s.disk

def runs (disk : Disk) (events : List Event) : Disk :=
  events.foldl (fun disk event => event.disk disk) disk

theorem grows_run {start : Disk} (hstart : Consistent (docOf start)) (call : Call) :
    Grows start call.run := by
  have hreturn : ∀ {α} {x : VersionM α} (f : α → List Selection), Grows start x →
      Grows start (do
        let a ← x
        return f a) := fun f h => meets_bind h fun _ => meets_pure fun _ => id
  cases call with
  | addVersion resource prompt source =>
      exact hreturn _ (grows_addVersion hstart resource prompt source)
  | commitStagedVersion commit => exact hreturn _ (grows_commitStagedVersion hstart commit)
  | commitStagedVersions commits => exact hreturn _ (grows_commitStagedVersions hstart commits)
  | commitInstalledVersions commits =>
      exact hreturn _ (grows_commitInstalledVersions hstart commits)
  | commitStagedPaidVersion commit selectCurrent expectedCurrentVersion =>
      exact hreturn _ (grows_commitStagedPaidVersion hstart commit selectCurrent _)
  | restoreVersion resource version file =>
      exact hreturn _ (grows_restoreVersion resource version file)
  | rejectCurrentVersion resource rejectedVersion restore file =>
      exact hreturn _ (grows_rejectCurrentVersion resource rejectedVersion restore file
        fun _ => keeps_callback)
  | rejectCurrentVersions rejections keys =>
      exact hreturn _ (grows_rejectCurrentVersions rejections)

theorem settled_run (call : Call) :
    Reaches (Saved []) call.run fun selections s =>
      ∀ selection ∈ selections, Settled (docOf s.disk) s.disk selection := by
  cases call with
  | addVersion resource prompt source =>
      exact meets_bind (Q := fun _ _ => True) (fun s _ => by
        split <;> trivial) fun _ => meets_pure fun _ _ _ h => absurd h List.not_mem_nil
  | commitStagedVersion commit =>
      exact meets_bind (saved_commitStagedVersion commit) fun _ => meets_pure fun _ hs => hs.2
  | commitStagedVersions commits =>
      exact meets_bind (saved_commitStagedVersions commits) fun _ => meets_pure fun _ hs => hs.2
  | commitInstalledVersions commits =>
      exact meets_bind (saved_commitInstalledVersions commits) fun _ => meets_pure fun _ hs => hs.2
  | commitStagedPaidVersion commit selectCurrent expectedCurrentVersion =>
      refine meets_bind (saved_commitStagedPaidVersion selectCurrent expectedCurrentVersion)
        fun result => meets_pure fun s hs => ?_
      split_ifs with hselected
      · exact (hs hselected).2
      · exact fun _ h => absurd h List.not_mem_nil
  | restoreVersion resource version file =>
      exact meets_bind (saved_restoreVersion resource version file) fun _ =>
        meets_pure fun _ hs => hs.2
  | rejectCurrentVersion resource rejectedVersion restore file =>
      refine meets_bind (saved_rejectCurrentVersion rejectedVersion restore
        (fun _ h => absurd h List.not_mem_nil) (fun _ h => absurd h List.not_mem_nil)
          fun _ => saved_callback) fun selected => meets_pure fun s hs => ?_
      split_ifs with hselected
      · exact (hs hselected).2
      · exact fun _ h => absurd h List.not_mem_nil
  | rejectCurrentVersions rejections keys =>
      refine meets_bind (saved_rejectCurrentVersions keys) fun current =>
        meets_pure fun s hs selection hselection => ?_
      obtain ⟨rejection, hrejection, rfl⟩ := List.mem_map.mp hselection
      obtain ⟨hcurrent, halone⟩ := List.mem_filter.mp hrejection
      exact hs rejection hcurrent (of_decide_eq_true halone)

theorem grown_event {disk : Disk} (h : Consistent (docOf disk)) (event : Event) :
    Grown disk (event.disk disk) := by
  have hsession : Grown disk (event.session disk).disk := (grown_refl h).of_eq rfl rfl
  have hrun := grows_run h event.call (event.session disk) hsession
  unfold Event.disk
  cases hresult : event.call.run (event.session disk) with
  | ok selections s =>
      rw [hresult] at hrun
      exact hrun
  | error e s =>
      rw [hresult] at hrun
      exact hrun

theorem grown_runs {disk : Disk} (h : Consistent (docOf disk)) (events : List Event) :
    Grown disk (runs disk events) := by
  induction events generalizing disk with
  | nil => exact grown_refl h
  | cons event events ih =>
      have hevent := grown_event h event
      exact hevent.trans (ih hevent.consistent)

/-- Behind every run of calls the versions of each resource are numbered in increasing order and what
is current is one of them or none. What was recorded at some point stays the front of the records, with
its snapshots as they were, and later versions have larger numbers. What a call selects next is in the
formal file. -/
theorem histories_hold {disk : Disk} (h : Consistent (docOf disk)) (events : List Event) :
    Consistent (docOf (runs disk events)) ∧
      (∀ more resource, ∃ new, recordsOf (docOf (runs disk (events ++ more))) resource =
          recordsOf (docOf (runs disk events)) resource ++ new ∧
        (∀ old ∈ recordsOf (docOf (runs disk events)) resource, ∀ record ∈ new,
          old.version < record.version) ∧
        ∀ old ∈ recordsOf (docOf (runs disk events)) resource,
          (runs disk (events ++ more)).snapshots old.file = (runs disk events).snapshots old.file) ∧
      ∀ (event : Event) (selections : List Selection) (s : Session),
        event.call.run (event.session (runs disk events)) = .ok selections s →
          ∀ selection ∈ selections, Settled (docOf s.disk) s.disk selection := by
  have hconsistent := (grown_runs h events).consistent
  refine ⟨hconsistent, fun more resource => ?_, fun event selections s hrun => ?_⟩
  · have hmore := grown_runs hconsistent more
    have happend : runs disk (events ++ more) = runs (runs disk events) more := List.foldl_append
    rw [happend]
    obtain ⟨new, hnew⟩ := hmore.records resource
    refine ⟨new, hnew.symm, ?_, hmore.snapshots resource⟩
    have hincreasing := hmore.consistent.increasing resource
    rw [← hnew] at hincreasing
    exact (List.pairwise_append.mp hincreasing).2.2
  · exact (settled_run event.call).ok ⟨hconsistent, fun _ h => absurd h List.not_mem_nil⟩ hrun

private def pier : Resource where
  type := .scenes
  id := "Pier"
  segments := by decide

private def pierCommit : Event where
  call := .commitStagedVersion
    { resource := pier
      prompt := "rain"
      stagedFile := "scenes/.staged.png"
      currentFile := "scenes/Pier.png" }
  formal := fun _ => none
  staged := fun path => if path = "scenes/.staged.png" then some [1] else none
  faults := []
  now := fun _ => { text := "20260102T000000", plain := by decide }

private def noVersions : Disk where
  versionsFile := none
  formal := fun _ => none
  snapshots := fun _ => none
  staged := fun _ => none

private def selectionsOf (result : EStateM.Result VersionError Session (List Selection)) :
    Option (List Selection) :=
  match result with
  | .ok selections _ => some selections
  | .error _ _ => none

/-- The second commit of the same file gets a version of its own, which is in the formal file. -/
theorem histories_hold_pier :
    Consistent (docOf (runs noVersions [pierCommit])) ∧
      ∃ s, pierCommit.call.run (pierCommit.session (runs noVersions [pierCommit])) =
          .ok [{ resource := pier, version := some 2, file := "scenes/Pier.png" }] s ∧
        Settled (docOf s.disk) s.disk
          { resource := pier, version := some 2, file := "scenes/Pier.png" } := by
  obtain ⟨hconsistent, -, hsettled⟩ :=
    @histories_hold noVersions consistent_empty [pierCommit]
  have hselections : selectionsOf (pierCommit.call.run
      (pierCommit.session (runs noVersions [pierCommit]))) =
        some [{ resource := pier, version := some 2, file := "scenes/Pier.png" }] := by
    decide +kernel
  refine ⟨hconsistent, ?_⟩
  cases hrun : pierCommit.call.run
      (pierCommit.session (runs noVersions [pierCommit])) with
  | ok selections s =>
      rw [hrun] at hselections
      obtain rfl := Option.some.inj hselections
      exact ⟨s, rfl, hsettled _ _ _ hrun _ (List.mem_singleton_self _)⟩
  | error e s =>
      rw [hrun] at hselections
      cases hselections

end ShortReel.VersionSelections
