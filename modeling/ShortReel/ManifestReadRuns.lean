import ShortReel.ManifestReads

/-!
# What a read of the manifest serves

Every read ends with the parse of the manifest as it is then, as long as no read without the lock is
overtaken by a replacement that bears the identity it has seen.
-/

namespace ShortReel.ManifestReadRuns

open InsertionDict ManifestCache ManifestReads

variable {ε α π ρ : Type} {parse : Bytes → Except ε α}

section Guards

variable (posix : Bool) (s : System π ρ parse)

/-- A replacement gives the file a change time that lags behind the clock by the settled age at most. -/
def granular : Event π ρ → Bool
  | .write _ (some (_, fileStat)) =>
      match ManifestFileIdentity.of posix fileStat with
      | some identity => s.now ≤ identity.lastChangeNs + manifestSettledAgeNs
      | none => true
  | _ => true

def bearsOther (file : Option StoredFile) (identity : ManifestFileIdentity) (raw : Bytes) : Bool :=
  match file with
  | some file => ManifestFileIdentity.of posix file.stat = some identity ∧ file.bytes ≠ raw
  | none => false

def isUnlocked : Place parse → Bool
  | .locked => false
  | _ => true

/-- A read without the lock settles its slot, and the file was replaced meanwhile under the identity
that the read has seen. -/
def overtaken : Event π ρ → Bool
  | .read party _ =>
      match s.parties party with
      | .reading project _ (.loading place (.stamping identity parsed)) =>
          isUnlocked place ∧ manifestSettledAgeNs < s.now - identity.lastChangeNs ∧
            bearsOther posix (s.projects project).file identity parsed.raw
      | _ => false
  | _ => false

end Guards

def Starts (s : System π ρ parse) : Prop :=
  s.cache = [] ∧ (∀ party, s.parties party = .idle) ∧ ∀ project,
    (s.projects project).holder = none ∧ (s.projects project).history = [(s.projects project).content]

section Systems

variable [DecidableEq π] [DecidableEq ρ] (posix : Bool) (limit : ℕ)

def reads (parse : Bytes → Except ε α) : TransitionSystem (System π ρ parse) (Event π ρ) :=
  .ofRun Starts (run posix limit)

end Systems

section Invariant

variable (posix : Bool)

structure SlotSound (files : ProjectFiles ρ) (now : ℤ) (slot : ManifestCacheSlot parse) : Prop where
  seen : some slot.parsed.raw ∈ files.history
  aged : slot.settled = true → manifestSettledAgeNs < now - slot.identity.lastChangeNs
  same : slot.settled = true → ∀ file, files.file = some file →
    ManifestFileIdentity.of posix file.stat = some slot.identity → file.bytes = slot.parsed.raw

/-- The result of a load of some content with `P`. -/
def ResultFrom (P : Option Bytes → Prop) : Except ε (Option (ParsedManifest parse)) → Prop
  | .ok manifest => P (manifest.map ParsedManifest.raw)
  | .error e => ∃ raw, P (some raw) ∧ parse raw = .error e

/-- A load that has found content with `P`. -/
def LoadFrom (P : Option Bytes → Prop) : Load parse → Prop
  | .opening => True
  | .discarding => P none
  | .statting handle => P (some handle.bytes)
  | .looking handle _ => P (some handle.bytes)
  | .rereading handle _ _ => P (some handle.bytes)
  | .stamping _ parsed => P (some parsed.raw)
  | .putting slot => P (some slot.parsed.raw)
  | .loaded result => ResultFrom P result

def LoadFresh (files : ProjectFiles ρ) : Load parse → Prop
  | .statting handle => files.file = some handle
  | .looking handle identity =>
      files.file = some handle ∧ identity = ManifestFileIdentity.of posix handle.stat
  | .rereading handle identity _ =>
      files.file = some handle ∧
        (∀ seen, identity = some seen → ManifestFileIdentity.of posix handle.stat = some seen)
  | .stamping identity _ =>
      ∃ handle, files.file = some handle ∧ ManifestFileIdentity.of posix handle.stat = some identity
  | _ => True

def PendingSound (files : ProjectFiles ρ) (now : ℤ) : Load parse → Prop
  | .putting slot => SlotSound posix files now slot
  | _ => True

def PlaceSound (files : ProjectFiles ρ) (party : ρ) (since : ℕ) (load : Load parse) : Place parse → Prop
  | .first => since = 1 ∧ LoadFrom (· ∈ files.history) load
  | .second original =>
      since = 1 ∧ original.map ParsedManifest.raw ∈ files.history ∧ LoadFrom (· ∈ files.history) load
  | .locked =>
      files.holder = some party ∧ LoadFrom (· = files.content) load ∧ LoadFresh posix files load

def PhaseSound (files : ProjectFiles ρ) (now : ℤ) (party : ρ) (since : ℕ) : Phase parse → Prop
  | .loading place load =>
      PlaceSound posix files party since load place ∧ PendingSound posix files now load
  | .reprobing original => since = 1 ∧ original.map ParsedManifest.raw ∈ files.history
  | .closing original repeated =>
      since = 1 ∧ original.map ParsedManifest.raw ∈ files.history ∧
        repeated.map ParsedManifest.raw ∈ files.history
  | _ => True

structure FilesSound (files : ProjectFiles ρ) : Prop where
  latest : files.history.head? = some files.content
  untouched : files.lockFile = false → files.history = [files.content]
  locked : ∀ party, files.holder = some party → files.lockFile = true

structure Sound (s : System π ρ parse) : Prop where
  files : ∀ project, FilesSound (s.projects project)
  slots : ∀ item ∈ s.cache, SlotSound posix (s.projects item.1) s.now item.2
  since : ∀ party project since phase, s.parties party = .reading project since phase →
    1 ≤ since ∧ since ≤ (s.projects project).history.length
  phases : ∀ party project since phase, s.parties party = .reading project since phase →
    PhaseSound posix (s.projects project) s.now party since phase

structure Frame (acts : ρ → Prop) (parse : Bytes → Except ε α) (files files' : ProjectFiles ρ)
    (now now' : ℤ) : Prop where
  history : files.history <:+ files'.history
  slots : ∀ slot : ManifestCacheSlot parse, SlotSound posix files now slot →
    SlotSound posix files' now' slot
  kept : ∀ party, ¬ acts party → files.holder = some party →
    files'.holder = some party ∧ files'.file = files.file

end Invariant

section Frames

variable {posix : Bool} {files files' : ProjectFiles ρ} {now now' : ℤ} {acts : ρ → Prop} {party : ρ}
  {since : ℕ} {P Q : Option Bytes → Prop} {load : Load parse} {place : Place parse}

theorem ResultFrom.mono {result : Except ε (Option (ParsedManifest parse))} (hPQ : ∀ c, P c → Q c)
    (h : ResultFrom P result) : ResultFrom Q result := by
  cases result with
  | ok manifest => exact hPQ _ h
  | error e =>
      obtain ⟨raw, hraw, hparse⟩ := h
      exact ⟨raw, hPQ _ hraw, hparse⟩

theorem LoadFrom.mono (hPQ : ∀ c, P c → Q c) (h : LoadFrom P load) : LoadFrom Q load := by
  cases load with
  | opening => trivial
  | discarding => exact hPQ _ h
  | statting handle => exact hPQ _ h
  | looking handle identity => exact hPQ _ h
  | rereading handle identity slot => exact hPQ _ h
  | stamping identity parsed => exact hPQ _ h
  | putting slot => exact hPQ _ h
  | loaded result => exact ResultFrom.mono hPQ h

theorem LoadFresh.of_file (hfile : files'.file = files.file) (h : LoadFresh posix files load) :
    LoadFresh posix files' load := by
  unfold LoadFresh at h ⊢
  rwa [hfile]

theorem PhaseSound.frame (hframe : Frame posix acts parse files files' now now') (hother : ¬ acts party)
    {phase : Phase parse} (h : PhaseSound posix files now party since phase) :
    PhaseSound posix files' now' party since phase := by
  have hseen : ∀ content, content ∈ files.history → content ∈ files'.history :=
    fun _ hmem => hframe.history.subset hmem
  cases phase with
  | probing => trivial
  | waiting => trivial
  | reprobing original => exact ⟨h.1, hseen _ h.2⟩
  | closing original repeated => exact ⟨h.1, hseen _ h.2.1, hseen _ h.2.2⟩
  | loading place load =>
      obtain ⟨hplace, hpending⟩ := h
      constructor
      · cases place with
        | first => exact ⟨hplace.1, hplace.2.mono hseen⟩
        | second original => exact ⟨hplace.1, hseen _ hplace.2.1, hplace.2.2.mono hseen⟩
        | locked =>
            obtain ⟨hholder, hfrom, hfresh⟩ := hplace
            obtain ⟨hholder', hfile⟩ := hframe.kept party hother hholder
            refine ⟨hholder', ?_, hfresh.of_file hfile⟩
            rwa [ProjectFiles.content, hfile]
      · cases load with
        | putting slot => exact hframe.slots slot hpending
        | _ => trivial

theorem Sound.advance {s s' : System π ρ parse} (h : Sound posix s) (acts : ρ → Prop)
    (hframe : ∀ project, Frame posix acts parse (s.projects project) (s'.projects project) s.now s'.now)
    (hfiles : ∀ project, FilesSound (s'.projects project))
    (hcache : ∀ item ∈ s'.cache, item ∈ s.cache ∨
      SlotSound posix (s'.projects item.1) s'.now item.2)
    (hothers : ∀ party, ¬ acts party → s'.parties party = s.parties party)
    (hacts : ∀ party, acts party → ∀ project since phase,
      s'.parties party = .reading project since phase →
        (1 ≤ since ∧ since ≤ (s'.projects project).history.length) ∧
          PhaseSound posix (s'.projects project) s'.now party since phase) :
    Sound posix s' := by
  refine ⟨hfiles, fun item hitem => ?_, fun party project since phase hparty => ?_,
    fun party project since phase hparty => ?_⟩
  · rcases hcache item hitem with hold | hnew
    · exact (hframe item.1).slots _ (h.slots item hold)
    · exact hnew
  · by_cases hact : acts party
    · exact (hacts party hact project since phase hparty).1
    · rw [hothers party hact] at hparty
      have hsince := h.since party project since phase hparty
      exact ⟨hsince.1, hsince.2.trans (hframe project).history.length_le⟩
  · by_cases hact : acts party
    · exact (hacts party hact project since phase hparty).2
    · rw [hothers party hact] at hparty
      exact (h.phases party project since phase hparty).frame (hframe project) hact

end Frames

section Files

variable {posix : Bool} {files : ProjectFiles ρ} {now now' : ℤ} {acts : ρ → Prop}
  {replacement : Option (Bytes × FileStat)} {party : ρ}

theorem SlotSound.of_file {files' : ProjectFiles ρ} {slot : ManifestCacheSlot parse}
    (hfile : files'.file = files.file) (hhistory : files'.history = files.history) (hnow : now ≤ now')
    (h : SlotSound posix files now slot) : SlotSound posix files' now' slot := by
  refine ⟨hhistory ▸ h.seen, fun hsettled => ?_, fun hsettled file hsome => ?_⟩
  · have haged := h.aged hsettled
    omega
  · exact h.same hsettled file (hfile ▸ hsome)

theorem Frame.of_file {files' : ProjectFiles ρ} (hfile : files'.file = files.file)
    (hhistory : files'.history = files.history) (hnow : now ≤ now')
    (hkept : ∀ party, ¬ acts party → files.holder = some party → files'.holder = some party) :
    Frame posix acts parse files files' now now' :=
  ⟨hhistory ▸ List.suffix_refl _, fun _ hslot => hslot.of_file hfile hhistory hnow,
    fun party hother hholder => ⟨hkept party hother hholder, hfile⟩⟩

theorem Frame.refl (hnow : now ≤ now') : Frame posix acts parse files files now now' :=
  .of_file rfl rfl hnow fun _ _ => id

theorem SlotSound.write {slot : ManifestCacheSlot parse} (h : SlotSound posix files now slot)
    (hgranular : ∀ bytes fileStat identity, replacement = some (bytes, fileStat) →
      ManifestFileIdentity.of posix fileStat = some identity →
        now ≤ identity.lastChangeNs + manifestSettledAgeNs) :
    SlotSound posix (files.write replacement) now slot := by
  refine ⟨List.mem_cons_of_mem _ h.seen, h.aged, fun hsettled file hfile hidentity => ?_⟩
  have haged := h.aged hsettled
  cases replacement with
  | none => cases hfile
  | some written =>
      obtain rfl := Option.some.inj hfile
      have hrecent := hgranular written.1 written.2 slot.identity rfl hidentity
      omega

theorem Frame.write (hholder : files.holder = some party)
    (hgranular : ∀ bytes fileStat identity, replacement = some (bytes, fileStat) →
      ManifestFileIdentity.of posix fileStat = some identity →
        now ≤ identity.lastChangeNs + manifestSettledAgeNs) :
    Frame posix (· = party) parse files (files.write replacement) now now := by
  refine ⟨List.suffix_cons _ _, fun _ hslot => hslot.write hgranular, fun other hother hkept => ?_⟩
  exact absurd (Option.some.inj (hkept.symm.trans hholder)) hother

theorem FilesSound.write (h : FilesSound files) (hholder : files.holder = some party) :
    FilesSound (files.write replacement) := by
  refine ⟨?_, fun hlock => ?_, h.locked⟩
  · cases replacement <;> rfl
  · have hlocked := h.locked party hholder
    exact absurd (hlock.symm.trans hlocked) (by decide)

variable [DecidableEq π] {s : System π ρ parse} {project other : π} {files' : ProjectFiles ρ}

theorem projects_setProject_self : (setProject s project files').projects project = files' :=
  Function.update_self _ _ _

theorem projects_setProject_of_ne (h : other ≠ project) :
    (setProject s project files').projects other = s.projects other :=
  Function.update_of_ne h _ _

theorem frame_setProject (hframe : Frame posix acts parse (s.projects project) files' s.now s.now)
    (other : π) :
    Frame posix acts parse (s.projects other) ((setProject s project files').projects other) s.now
      s.now := by
  by_cases hsame : other = project
  · rw [hsame, projects_setProject_self]
    exact hframe
  · rw [projects_setProject_of_ne hsame]
    exact .refl le_rfl

theorem filesSound_setProject (h : ∀ project, FilesSound (s.projects project))
    (hfiles : FilesSound files') (other : π) :
    FilesSound ((setProject s project files').projects other) := by
  by_cases hsame : other = project
  · rw [hsame, projects_setProject_self]
    exact hfiles
  · rw [projects_setProject_of_ne hsame]
    exact h other

theorem Sound.withFiles (h : Sound posix s) (acts : ρ → Prop)
    (hframe : Frame posix acts parse (s.projects project) files' s.now s.now)
    (hfiles : FilesSound files')
    (hacts : ∀ party, acts party → ∀ project since phase,
      s.parties party ≠ .reading project since phase) : Sound posix (setProject s project files') := by
  refine h.advance acts (frame_setProject hframe) (filesSound_setProject h.files hfiles)
    (fun item hitem => .inl hitem) (fun _ _ => rfl) ?_
  intro party hact project since phase hreading
  exact absurd hreading (hacts party hact project since phase)

end Files

section Loads

variable [DecidableEq π] {posix : Bool} {limit : ℕ} {files : ProjectFiles ρ} {now : ℤ}
  {fileStat : FileStat} {cache : ReadCache π parse} {project : π} {load : Load parse}
  {P : Option Bytes → Prop}

theorem parseOrReuse_from {slot : Option (ManifestCacheSlot parse)} {raw : Bytes} (hraw : P (some raw)) :
    ResultFrom P ((parseOrReuse slot raw).map some) := by
  have hparse : ResultFrom P ((parseManifest parse raw).map some) := by
    cases hresult : parseManifest parse raw with
    | ok manifest =>
        change P (some manifest.raw)
        rwa [parseManifest_ok hresult]
    | error e => exact ⟨raw, hraw, parseManifest_error hresult⟩
  unfold parseOrReuse
  split
  · split_ifs with hsame
    · change P (some _)
      rwa [hsame]
    · exact hparse
  · exact hparse

theorem loadStep_from (hcontent : P files.content)
    (hserved : ∀ handle identity slot, load = .looking handle (some identity) →
      get cache project = some slot → slot.settled = true → slot.identity = identity →
        P (some slot.parsed.raw))
    (h : LoadFrom P load) :
    LoadFrom P (loadStep posix limit project files now fileStat cache load).1 := by
  cases load with
  | opening =>
      unfold loadStep
      cases hfile : files.file with
      | none =>
          rw [ProjectFiles.content, hfile] at hcontent
          exact hcontent
      | some file =>
          rw [ProjectFiles.content, hfile] at hcontent
          exact hcontent
  | discarding => exact h
  | statting handle => exact h
  | looking handle identity =>
      cases identity with
      | none => exact h
      | some identity =>
          unfold loadStep
          dsimp only
          cases hget : get cache project with
          | none => exact h
          | some slot =>
              dsimp only
              split_ifs with hhit
              · exact hserved handle identity slot rfl hget hhit.1 hhit.2
              · exact h
  | rereading handle identity slot =>
      have hparsed : ResultFrom P ((parseOrReuse slot handle.bytes).map some) := parseOrReuse_from h
      unfold loadStep
      dsimp only
      cases hresult : parseOrReuse slot handle.bytes with
      | error e =>
          rw [hresult] at hparsed
          exact hparsed
      | ok manifest =>
          rw [hresult] at hparsed
          cases identity with
          | none => exact hparsed
          | some identity =>
              dsimp only
              split_ifs
              · exact hparsed
              · exact hparsed
  | stamping identity parsed => exact h
  | putting slot => exact h
  | loaded result => exact h

theorem fstat_of_file {handle : StoredFile} (h : files.file = some handle) :
    files.fstat handle fileStat = handle.stat := by
  unfold ProjectFiles.fstat
  rw [h]
  exact if_pos rfl

theorem loadStep_fresh (h : LoadFresh posix files load) :
    LoadFresh posix files (loadStep posix limit project files now fileStat cache load).1 := by
  cases load with
  | opening =>
      unfold loadStep
      cases hfile : files.file with
      | none => trivial
      | some file => exact hfile
  | discarding => trivial
  | statting handle => exact ⟨h, congrArg (ManifestFileIdentity.of posix) (fstat_of_file h)⟩
  | looking handle identity =>
      obtain ⟨hfile, hidentity⟩ := h
      cases identity with
      | none => exact ⟨hfile, fun _ hseen => (by cases hseen)⟩
      | some identity =>
          have hseen : ∀ seen, some identity = some seen →
              ManifestFileIdentity.of posix handle.stat = some seen :=
            fun _ hsame => hidentity.symm.trans hsame
          unfold loadStep
          dsimp only
          cases hget : get cache project with
          | none => exact ⟨hfile, hseen⟩
          | some slot =>
              dsimp only
              split_ifs
              · trivial
              · exact ⟨hfile, hseen⟩
  | rereading handle identity slot =>
      obtain ⟨hfile, hseen⟩ := h
      unfold loadStep
      dsimp only
      cases parseOrReuse slot handle.bytes with
      | error e => trivial
      | ok manifest =>
          cases identity with
          | none => trivial
          | some identity =>
              dsimp only
              split_ifs
              · exact ⟨handle, hfile, hseen identity rfl⟩
              · trivial
  | stamping identity parsed => trivial
  | putting slot => trivial
  | loaded result => trivial

end Loads

section Parties

variable {posix : Bool} {s : System π ρ parse} {party : ρ} {project : π} {since : ℕ}
  {activity : Activity π parse}

theorem Sound.withCache {cache : ReadCache π parse} (h : Sound posix s)
    (hcache : ∀ item ∈ cache, item ∈ s.cache ∨ SlotSound posix (s.projects item.1) s.now item.2) :
    Sound posix { s with cache } :=
  h.advance (fun _ => False) (fun _ => .refl le_rfl) h.files hcache (fun _ _ => rfl)
    fun _ hfalse => hfalse.elim

theorem Sound.tick (h : Sound posix s) (time : ℤ) : Sound posix { s with now := max s.now time } :=
  h.advance (fun _ => False) (fun _ => .refl (le_max_left _ _)) h.files (fun _ hitem => .inl hitem)
    (fun _ _ => rfl) fun _ hfalse => hfalse.elim

section Projects

variable [DecidableEq π]

theorem Sound.unlock (h : Sound posix s) (hholder : (s.projects project).holder = some party)
    (hparty : ∀ project since phase, s.parties party ≠ .reading project since phase) :
    Sound posix (unlock s project) := by
  have hfiles := h.files project
  refine h.withFiles (· = party) (.of_file rfl rfl le_rfl fun other hother hkept => ?_)
    ⟨hfiles.latest, hfiles.untouched, fun _ hnone => (by cases hnone)⟩ ?_
  · exact absurd (Option.some.inj (hkept.symm.trans hholder)) hother
  · rintro _ rfl
    exact hparty

theorem Sound.lock (h : Sound posix s) (hfree : isFree s project = true) :
    Sound posix (lock s party project) := by
  obtain ⟨hlock, hnone⟩ := of_decide_eq_true hfree
  have hfiles := h.files project
  refine h.withFiles (fun _ => False) (.of_file rfl rfl le_rfl fun other _ hkept => ?_)
    ⟨hfiles.latest, hfiles.untouched, fun _ _ => hlock⟩ fun _ hfalse => hfalse.elim
  exact absurd (hkept.symm.trans hnone) (by simp)

theorem Sound.createLock (h : Sound posix s) : Sound posix (createLock s project) := by
  have hfiles := h.files project
  exact h.withFiles (fun _ => False) (.of_file rfl rfl le_rfl fun _ _ => id)
    ⟨hfiles.latest, fun hfalse => (by cases hfalse), fun _ _ => rfl⟩ fun _ hfalse => hfalse.elim

end Projects

variable [DecidableEq ρ]

theorem parties_setParty_self : (setParty s party activity).parties party = activity :=
  Function.update_self _ _ _

theorem parties_setParty_of_ne {other : ρ} (h : other ≠ party) :
    (setParty s party activity).parties other = s.parties other :=
  Function.update_of_ne h _ _

theorem Sound.withParty (h : Sound posix s)
    (hactivity : ∀ project since phase, activity = .reading project since phase →
      (1 ≤ since ∧ since ≤ (s.projects project).history.length) ∧
        PhaseSound posix (s.projects project) s.now party since phase) :
    Sound posix (setParty s party activity) := by
  refine h.advance (· = party) (fun project => .refl le_rfl) h.files (fun item hitem => .inl hitem)
    (fun other hother => parties_setParty_of_ne hother) ?_
  rintro _ rfl project since phase hparty
  rw [parties_setParty_self] at hparty
  exact hactivity project since phase hparty

theorem Sound.withPhase (h : Sound posix s) {phase phase' : Phase parse}
    (hparty : s.parties party = .reading project since phase)
    (hphase : PhaseSound posix (s.projects project) s.now party since phase') :
    Sound posix (setParty s party (.reading project since phase')) := by
  refine h.withParty ?_
  rintro _ _ _ ⟨⟩
  exact ⟨h.since party project since phase hparty, hphase⟩

theorem Sound.withReturn (h : Sound posix s)
    {result : Except (ReadError ε) (Option (ParsedManifest parse))} :
    Sound posix (setParty s party (.returned project result)) :=
  h.withParty fun _ _ _ hreading => (by cases hreading)

theorem Sound.beginRead (h : Sound posix s) : Sound posix (beginRead s party project) := by
  unfold ManifestReads.beginRead
  split_ifs
  · refine h.withParty ?_
    rintro _ _ _ ⟨⟩
    have hlatest := (h.files project).latest
    refine ⟨⟨?_, le_rfl⟩, trivial⟩
    cases hhistory : (s.projects project).history with
    | nil =>
        rw [hhistory] at hlatest
        cases hlatest
    | cons content earlier => exact Nat.succ_le_succ (Nat.zero_le _)
  · exact h

theorem Sound.beginWrite (h : Sound posix s) : Sound posix (beginWrite s party project) := by
  unfold ManifestReads.beginWrite
  split_ifs
  · exact h.withParty fun _ _ _ hreading => (by cases hreading)
  · exact h

variable [DecidableEq π]

theorem Sound.acquire (h : Sound posix s) : Sound posix (acquire s party) := by
  unfold ManifestReads.acquire
  split
  · rename_i project since hparty
    split_ifs with hfree
    · have hlocked : Sound posix (ManifestReads.lock s party project) := h.lock hfree
      refine hlocked.withPhase hparty ⟨⟨?_, trivial, trivial⟩, trivial⟩
      exact congrArg ProjectFiles.holder projects_setProject_self
    · exact h
  · split_ifs with hfree
    · exact h.lock hfree
    · exact h
  · exact h

theorem Sound.writeStep {replacement : Option (Bytes × FileStat)} (h : Sound posix s)
    (hgranular : granular posix s (.write party replacement : Event π ρ) = true) :
    Sound posix (writeStep s party replacement) := by
  unfold ManifestReads.writeStep
  split
  · rename_i project hparty
    split_ifs with hholder
    · refine h.withFiles (· = party) (.write hholder ?_) ((h.files project).write hholder) ?_
      · rintro bytes fileStat identity rfl hidentity
        unfold granular at hgranular
        dsimp only at hgranular
        rw [hidentity] at hgranular
        exact of_decide_eq_true hgranular
      · rintro _ rfl project since phase hreading
        cases hparty.symm.trans hreading
    · exact h
  · exact h

theorem Sound.release (h : Sound posix s) : Sound posix (release s party) := by
  unfold ManifestReads.release
  split
  · rename_i project hparty
    split_ifs with hholder
    · have hidle : Sound posix (setParty s party .idle) :=
        h.withParty fun _ _ _ hreading => (by cases hreading)
      refine hidle.unlock hholder fun project since phase hreading => ?_
      rw [parties_setParty_self] at hreading
      cases hreading
    · exact h
  · exact h

variable {limit : ℕ} {place : Place parse} {load : Load parse} {fileStat : FileStat}

omit [DecidableEq ρ] in
theorem mem_loadStep_cache {files : ProjectFiles ρ} {now : ℤ} {cache : ReadCache π parse}
    {item : π × ManifestCacheSlot parse}
    (h : item ∈ (loadStep posix limit project files now fileStat cache load).2) :
    item ∈ cache ∨ ∃ slot, load = .putting slot ∧ item = (project, slot) := by
  unfold loadStep at h
  split at h
  · split at h <;> exact .inl h
  · exact .inl (mem_remove.mp h).1
  · exact .inl h
  · exact .inl h
  · split at h
    · exact .inl h
    · split at h <;> exact .inl (mem_of_mem_touch h)
  · split at h
    · exact .inl h
    · exact .inl h
    · split at h <;> exact .inl h
  · exact .inl h
  · rename_i slot
    exact (mem_of_mem_putSlot h).imp_right fun hitem => ⟨slot, rfl, hitem⟩
  · exact .inl h

omit [DecidableEq ρ] in
theorem loadStep_putting {files : ProjectFiles ρ} {now : ℤ} {cache : ReadCache π parse}
    {slot : ManifestCacheSlot parse} (hresult : load.result? = none)
    (h : (loadStep posix limit project files now fileStat cache load).1 = .putting slot) :
    load = .stamping slot.identity slot.parsed ∧
      (slot.settled = true → manifestSettledAgeNs < now - slot.identity.lastChangeNs) := by
  unfold loadStep at h
  split at h
  · split at h <;> cases h
  · cases h
  · cases h
  · cases h
  · split at h
    · cases h
    · split at h <;> cases h
  · split at h
    · cases h
    · cases h
    · split at h <;> cases h
  · cases h
    exact ⟨rfl, of_decide_eq_true⟩
  · cases h
  · cases h

omit [DecidableEq ρ] [DecidableEq π] in
theorem slotSound_of_stamping {identity : ManifestFileIdentity} {parsed : ParsedManifest parse}
    {settled : Bool} (h : Sound posix s)
    (hparty : s.parties party = .reading project since (.loading place (.stamping identity parsed)))
    (hnone : overtaken posix s (.read party fileStat) = false)
    (haged : settled = true → manifestSettledAgeNs < s.now - identity.lastChangeNs) :
    SlotSound posix (s.projects project) s.now ⟨identity, settled, parsed⟩ := by
  have hplace := (h.phases party project since _ hparty).1
  have hcontent := List.mem_of_mem_head? (h.files project).latest
  unfold overtaken at hnone
  dsimp only at hnone
  rw [hparty] at hnone
  have hsame : isUnlocked place = true → settled = true → ∀ file,
      (s.projects project).file = some file →
        ManifestFileIdentity.of posix file.stat = some identity → file.bytes = parsed.raw := by
    intro hunlocked hsettled file hfile hidentity
    by_contra hne
    refine of_decide_eq_false hnone ⟨hunlocked, haged hsettled, ?_⟩
    unfold bearsOther
    rw [hfile]
    exact decide_eq_true ⟨hidentity, hne⟩
  cases place with
  | first => exact ⟨hplace.2, haged, hsame rfl⟩
  | second original => exact ⟨hplace.2.2, haged, hsame rfl⟩
  | locked =>
      obtain ⟨-, hraw, handle, hhandle, -⟩ := hplace
      refine ⟨?_, haged, fun _ file hfile _ => ?_⟩
      · change some parsed.raw = _ at hraw
        rwa [hraw]
      · obtain rfl := Option.some.inj (hhandle.symm.trans hfile)
        change some parsed.raw = _ at hraw
        rw [ProjectFiles.content, hhandle] at hraw
        exact (Option.some.inj hraw).symm

theorem Sound.stepLoad (h : Sound posix s)
    (hparty : s.parties party = .reading project since (.loading place load))
    (hresult : load.result? = none)
    (hnone : overtaken posix s (.read party fileStat) = false) :
    Sound posix (setParty
      { s with cache := (loadStep posix limit project (s.projects project) s.now fileStat s.cache load).2 }
      party (.reading project since (.loading place
        (loadStep posix limit project (s.projects project) s.now fileStat s.cache load).1))) := by
  obtain ⟨hplace, hpending⟩ := h.phases party project since _ hparty
  have hcontent : (s.projects project).content ∈ (s.projects project).history :=
    List.mem_of_mem_head? (h.files project).latest
  have hslot : ∀ slot, get s.cache project = some slot →
      SlotSound posix (s.projects project) s.now slot :=
    fun slot hget => h.slots _ (mem_of_get hget)
  have hseen : LoadFrom (· ∈ (s.projects project).history) load →
      LoadFrom (· ∈ (s.projects project).history)
        (loadStep posix limit project (s.projects project) s.now fileStat s.cache load).1 :=
    loadStep_from hcontent fun _ _ slot _ hget _ _ => (hslot slot hget).seen
  have hcache : Sound posix
      { s with cache := (loadStep posix limit project (s.projects project) s.now fileStat s.cache
        load).2 } := by
    refine h.withCache fun item hitem => ?_
    rcases mem_loadStep_cache hitem with hold | ⟨slot, rfl, rfl⟩
    · exact .inl hold
    · exact .inr hpending
  refine hcache.withPhase hparty ⟨?_, ?_⟩
  · cases place with
    | first => exact ⟨hplace.1, hseen hplace.2⟩
    | second original => exact ⟨hplace.1, hplace.2.1, hseen hplace.2.2⟩
    | locked =>
        obtain ⟨hholder, hfrom, hfresh⟩ := hplace
        refine ⟨hholder, loadStep_from rfl ?_ hfrom, loadStep_fresh hfresh⟩
        rintro handle identity slot rfl hget hsettled rfl
        obtain ⟨hfile, hidentity⟩ := hfresh
        have hbytes := (hslot slot hget).same hsettled handle hfile hidentity.symm
        rw [ProjectFiles.content, hfile, ← hbytes]
        rfl
  · cases hstep : (loadStep posix limit project (s.projects project) s.now fileStat s.cache load).1 with
    | putting slot =>
        obtain ⟨rfl, haged⟩ := loadStep_putting hresult hstep
        exact slotSound_of_stamping h hparty hnone haged
    | _ => trivial

theorem load_eq_loaded {result : Except ε (Option (ParsedManifest parse))}
    (h : load.result? = some result) : load = .loaded result := by
  cases load with
  | loaded found => exact congrArg Load.loaded (Option.some.inj h)
  | _ => cases h

theorem Sound.finishLoad {result : Except ε (Option (ParsedManifest parse))} (h : Sound posix s)
    (hparty : s.parties party = .reading project since (.loading place (.loaded result))) :
    Sound posix (finishLoad s party project since result place) := by
  have hplace := (h.phases party project since _ hparty).1
  cases place with
  | first =>
      cases result with
      | error e => exact h.withReturn
      | ok original => exact h.withPhase hparty ⟨hplace.1, hplace.2⟩
  | second original =>
      cases result with
      | error e => exact h.withReturn
      | ok repeated => exact h.withPhase hparty ⟨hplace.1, hplace.2.1, hplace.2.2⟩
  | locked =>
      have hreturned : Sound posix (setParty s party (.returned project (result.mapError .invalid))) :=
        h.withReturn
      refine hreturned.unlock hplace.1 fun project since phase hreading => ?_
      rw [parties_setParty_self] at hreading
      cases hreading

theorem Sound.readStep (h : Sound posix s)
    (hnone : overtaken posix s (.read party fileStat) = false) :
    Sound posix (readStep posix limit s party fileStat) := by
  unfold ManifestReads.readStep
  cases hparty : s.parties party with
  | idle => exact h
  | returned project result => exact h
  | writing project => exact h
  | reading project since phase =>
      have hsince := h.since party project since phase hparty
      have hphase := h.phases party project since phase hparty
      cases phase with
      | waiting => exact h
      | probing =>
          refine h.withPhase hparty ?_
          split_ifs with hlock
          · exact trivial
          · have hone : since = 1 := by
              have hlength := hsince.2
              rw [(h.files project).untouched (Bool.eq_false_iff.mpr hlock)] at hlength
              exact le_antisymm hlength hsince.1
            exact ⟨⟨hone, trivial⟩, trivial⟩
      | reprobing original =>
          refine h.withPhase hparty ?_
          split_ifs
          · exact trivial
          · exact ⟨⟨hphase.1, hphase.2, trivial⟩, trivial⟩
      | closing original repeated =>
          dsimp only
          split_ifs
          · exact h.withPhase hparty trivial
          · exact h.withReturn
      | loading place load =>
          cases hresult : load.result? with
          | some result =>
              obtain rfl := load_eq_loaded hresult
              exact h.finishLoad hparty
          | none =>
              dsimp only
              rw [hresult]
              exact h.stepLoad hparty hresult hnone

theorem Sound.run {event : Event π ρ} (h : Sound posix s)
    (hgranular : granular posix s event = true) (hnone : overtaken posix s event = false) :
    Sound posix (run posix limit s event) := by
  cases event with
  | tick time => exact h.tick time
  | beginRead party project => exact h.beginRead
  | read party fileStat => exact h.readStep hnone
  | beginWrite party project => exact h.beginWrite
  | createLock project => exact h.createLock
  | acquire party => exact h.acquire
  | write party replacement => exact h.writeStep hgranular
  | release party => exact h.release

end Parties

section Serving

def parseFile (parse : Bytes → Except ε α) : Option Bytes → Except ε (Option α)
  | none => .ok none
  | some raw => (parse raw).map some

def Serves (result : Except (ReadError ε) (Option (ParsedManifest parse))) (content : Option Bytes) : Prop :=
  result.map (Option.map ParsedManifest.entries) = (parseFile parse content).mapError .invalid

/-- The clock of the files is granular at most, and no read is overtaken. -/
def Undisturbed (posix : Bool) (s : System π ρ parse) (event : Event π ρ) : Prop :=
  granular posix s event = true ∧ overtaken posix s event = false

instance (posix : Bool) (s : System π ρ parse) (event : Event π ρ) :
    Decidable (Undisturbed posix s event) :=
  inferInstanceAs (Decidable (_ ∧ _))

def window (files : ProjectFiles ρ) (since : ℕ) : List (Option Bytes) :=
  files.history.take (files.history.length + 1 - since)

theorem serves_ok (manifest : Option (ParsedManifest parse)) :
    Serves (.ok manifest) (manifest.map ParsedManifest.raw) := by
  cases manifest with
  | none => rfl
  | some manifest =>
      have hparse : parseFile parse (some manifest.raw) = .ok (some manifest.entries) :=
        congrArg (Except.map some) manifest.parsed
      rw [Serves, Option.map_some, hparse]
      rfl

theorem serves_error {raw : Bytes} {e : ε} (h : parse raw = .error e) :
    Serves (.error (.invalid e) : Except (ReadError ε) (Option (ParsedManifest parse))) (some raw) := by
  have hparse : parseFile parse (some raw) = .error e := congrArg (Except.map some) h
  rw [Serves, hparse]
  rfl

theorem serves_of_from {result : Except ε (Option (ParsedManifest parse))} {P : Option Bytes → Prop}
    (h : ResultFrom P result) : ∃ content, P content ∧ Serves (result.mapError .invalid) content := by
  cases result with
  | ok manifest => exact ⟨_, h, serves_ok manifest⟩
  | error e =>
      obtain ⟨raw, hraw, hparse⟩ := h
      exact ⟨_, hraw, serves_error hparse⟩

variable {posix : Bool} {limit : ℕ} {s : System π ρ parse} {party other : ρ} {project : π} {since : ℕ}
  {phase : Phase parse} {event : Event π ρ}
  {result : Except (ReadError ε) (Option (ParsedManifest parse))}

theorem sound_of_starts (h : Starts s) : Sound posix s := by
  obtain ⟨hcache, hidle, hprojects⟩ := h
  refine ⟨fun project => ?_, fun item hitem => ?_, fun party project since phase hparty => ?_,
    fun party project since phase hparty => ?_⟩
  · obtain ⟨hholder, hhistory⟩ := hprojects project
    refine ⟨?_, fun _ => hhistory, fun party hsome => ?_⟩
    · rw [hhistory]
      rfl
    · cases hholder.symm.trans hsome
  · rw [hcache] at hitem
    cases hitem
  · cases (hidle party).symm.trans hparty
  · cases (hidle party).symm.trans hparty

variable [DecidableEq π] [DecidableEq ρ]

theorem sound_of_reachable
    (hreach : (reads posix limit parse).ReachableWhen (Undisturbed posix) s) : Sound posix s :=
  hreach.invariant (Sound posix) (fun _ => sound_of_starts) fun _ _ _ _ hsound hguard hstep => by
    obtain rfl := hstep
    exact hsound.run hguard.1 hguard.2

def partyOf : Event π ρ → Option ρ
  | .tick _ => none
  | .beginRead party _ => some party
  | .read party _ => some party
  | .beginWrite party _ => some party
  | .createLock _ => none
  | .acquire party => some party
  | .write party _ => some party
  | .release party => some party

theorem finishLoad_parties_of_ne {place : Place parse}
    {found : Except ε (Option (ParsedManifest parse))} (hne : other ≠ party) :
    (finishLoad s party project since found place).parties other = s.parties other := by
  cases place with
  | locked => exact parties_setParty_of_ne hne
  | _ => cases found <;> exact parties_setParty_of_ne hne

theorem readStep_parties_of_ne {fileStat : FileStat} (hne : other ≠ party) :
    (readStep posix limit s party fileStat).parties other = s.parties other := by
  unfold readStep
  split
  · dsimp only
    split
    · exact parties_setParty_of_ne hne
    · split
      · exact finishLoad_parties_of_ne hne
      · exact parties_setParty_of_ne hne
    · exact parties_setParty_of_ne hne
    · exact parties_setParty_of_ne hne
    · rfl
  · rfl

theorem run_parties_of_ne (hne : partyOf event ≠ some other) :
    (run posix limit s event).parties other = s.parties other := by
  have hparty : ∀ party, some party ≠ some other → other ≠ party :=
    fun _ hsome hsame => hsome (congrArg some hsame.symm)
  cases event with
  | tick time => rfl
  | createLock project => rfl
  | read party fileStat => exact readStep_parties_of_ne (hparty party hne)
  | beginRead party project =>
      change (beginRead s party project).parties other = _
      unfold beginRead
      split_ifs
      · exact parties_setParty_of_ne (hparty party hne)
      · rfl
  | beginWrite party project =>
      change (beginWrite s party project).parties other = _
      unfold beginWrite
      split_ifs
      · exact parties_setParty_of_ne (hparty party hne)
      · rfl
  | acquire party =>
      change (acquire s party).parties other = _
      unfold acquire
      split
      · split_ifs
        · exact parties_setParty_of_ne (hparty party hne)
        · rfl
      · split_ifs <;> rfl
      · rfl
  | write party replacement =>
      change (writeStep s party replacement).parties other = _
      unfold writeStep
      split
      · split_ifs <;> rfl
      · rfl
  | release party =>
      change (release s party).parties other = _
      unfold release
      split
      · split_ifs
        · exact parties_setParty_of_ne (hparty party hne)
        · rfl
      · rfl

theorem exists_read_of_returned (hbefore : s.parties party = .reading project since phase)
    (hafter : (run posix limit s event).parties party = .returned project result) :
    ∃ fileStat, event = .read party fileStat := by
  have hnot : s.parties party ≠ .returned project result := fun h => by cases hbefore.symm.trans h
  by_cases hparty : partyOf event = some party
  · cases event with
    | tick time => cases hparty
    | createLock project => cases hparty
    | read other fileStat =>
        obtain rfl := Option.some.inj hparty
        exact ⟨fileStat, rfl⟩
    | beginRead other started =>
        obtain rfl := Option.some.inj hparty
        change (beginRead s other started).parties other = _ at hafter
        rw [beginRead, hbefore] at hafter
        exact absurd hafter hnot
    | beginWrite other started =>
        obtain rfl := Option.some.inj hparty
        change (beginWrite s other started).parties other = _ at hafter
        rw [beginWrite, hbefore] at hafter
        exact absurd hafter hnot
    | acquire other =>
        obtain rfl := Option.some.inj hparty
        change (acquire s other).parties other = _ at hafter
        unfold acquire at hafter
        split at hafter
        · split_ifs at hafter
          · rw [parties_setParty_self] at hafter
            cases hafter
          · exact absurd hafter hnot
        · split_ifs at hafter <;> exact absurd hafter hnot
        · exact absurd hafter hnot
    | write other replacement =>
        obtain rfl := Option.some.inj hparty
        change (writeStep s other replacement).parties other = _ at hafter
        rw [writeStep, hbefore] at hafter
        exact absurd hafter hnot
    | release other =>
        obtain rfl := Option.some.inj hparty
        change (release s other).parties other = _ at hafter
        rw [release, hbefore] at hafter
        exact absurd hafter hnot
  · rw [run_parties_of_ne hparty] at hafter
    exact absurd hafter hnot

theorem readStep_returned {fileStat : FileStat}
    (hbefore : s.parties party = .reading project since phase)
    (hafter : (readStep posix limit s party fileStat).parties party = .returned project result) :
    (∃ place found, phase = .loading place (.loaded found) ∧ result = found.mapError .invalid ∧
      (isUnlocked place = true → ∃ e, found = .error e)) ∨
    ∃ original repeated, phase = .closing original repeated ∧
      (s.projects project).lockFile = false ∧ result = unlockedResult original repeated := by
  unfold readStep at hafter
  rw [hbefore] at hafter
  cases phase with
  | waiting =>
      dsimp only at hafter
      cases hbefore.symm.trans hafter
  | probing =>
      rw [parties_setParty_self] at hafter
      cases hafter
  | reprobing original =>
      rw [parties_setParty_self] at hafter
      cases hafter
  | closing original repeated =>
      rw [parties_setParty_self] at hafter
      split_ifs at hafter with hlock
      cases hafter
      exact .inr ⟨original, repeated, rfl, Bool.eq_false_iff.mpr hlock, rfl⟩
  | loading place load =>
      dsimp only at hafter
      cases hresult : load.result? with
      | none =>
          rw [hresult] at hafter
          dsimp only at hafter
          rw [parties_setParty_self] at hafter
          cases hafter
      | some found =>
          obtain rfl := load_eq_loaded hresult
          rw [hresult] at hafter
          refine .inl ⟨place, found, rfl, ?_⟩
          change (finishLoad s party project since found place).parties party = _ at hafter
          cases place with
          | locked =>
              rw [finishLoad, parties_setParty_self] at hafter
              cases hafter
              exact ⟨rfl, fun hfalse => (by cases hfalse)⟩
          | first =>
              cases found with
              | error e =>
                  rw [finishLoad, parties_setParty_self] at hafter
                  cases hafter
                  exact ⟨rfl, fun _ => ⟨e, rfl⟩⟩
              | ok manifest =>
                  rw [finishLoad, parties_setParty_self] at hafter
                  cases hafter
          | second original =>
              cases found with
              | error e =>
                  rw [finishLoad, parties_setParty_self] at hafter
                  cases hafter
                  exact ⟨rfl, fun _ => ⟨e, rfl⟩⟩
              | ok manifest =>
                  rw [finishLoad, parties_setParty_self] at hafter
                  cases hafter

omit [DecidableEq ρ] in
theorem history_unlock (other : π) :
    ((unlock s project).projects other).content = (s.projects other).content ∧
      ((unlock s project).projects other).history = (s.projects other).history := by
  by_cases hsame : other = project
  · rw [hsame, unlock, projects_setProject_self]
    exact ⟨rfl, rfl⟩
  · rw [unlock, projects_setProject_of_ne hsame]
    exact ⟨rfl, rfl⟩

theorem history_readStep {fileStat : FileStat} (other : π) :
    ((readStep posix limit s party fileStat).projects other).content = (s.projects other).content ∧
      ((readStep posix limit s party fileStat).projects other).history = (s.projects other).history := by
  unfold readStep
  split
  · dsimp only
    split
    · exact ⟨rfl, rfl⟩
    · split
      · rename_i place load _ _ result hresult
        cases place with
        | locked => exact history_unlock other
        | _ => cases result <;> exact ⟨rfl, rfl⟩
      · exact ⟨rfl, rfl⟩
    · exact ⟨rfl, rfl⟩
    · exact ⟨rfl, rfl⟩
    · exact ⟨rfl, rfl⟩
  · exact ⟨rfl, rfl⟩

/-- Each read that ends serves the parse of a version that the manifest had since the read began. A read
that returns a manifest, and every one under the lock, serves that of the file as it is. -/
theorem cachedRead_serves
    (hreach : (reads posix limit parse).ReachableWhen (Undisturbed posix) s)
    (hguard : Undisturbed posix s event)
    (hbefore : s.parties party = .reading project since phase)
    (hafter : (run posix limit s event).parties party = .returned project result) :
    (∃ content ∈ window ((run posix limit s event).projects project) since, Serves result content) ∧
      ((∃ manifest, result = .ok manifest) ∨ (∃ load, phase = .loading .locked load) →
        Serves result ((run posix limit s event).projects project).content) := by
  have hsound := sound_of_reachable hreach
  obtain ⟨fileStat, rfl⟩ := exists_read_of_returned hbefore hafter
  have hphase := hsound.phases party project since phase hbefore
  have hsince := hsound.since party project since phase hbefore
  have hfiles := hsound.files project
  change (readStep posix limit s party fileStat).parties party = _ at hafter
  change (∃ content ∈ window ((readStep posix limit s party fileStat).projects project) since, _) ∧
    (_ → Serves result ((readStep posix limit s party fileStat).projects project).content)
  have hkept : ((readStep posix limit s party fileStat).projects project).content =
      (s.projects project).content ∧ _ := history_readStep project
  rw [window, hkept.1, hkept.2]
  have hwhole : since = 1 → (s.projects project).history.take
      ((s.projects project).history.length + 1 - since) = (s.projects project).history := by
    rintro rfl
    exact List.take_length
  have hcurrent : (s.projects project).content ∈ (s.projects project).history.take
      ((s.projects project).history.length + 1 - since) := by
    cases hversions : (s.projects project).history with
    | nil =>
        have hlatest := hfiles.latest
        rw [hversions] at hlatest
        cases hlatest
    | cons latest earlier =>
        have hlatest := hfiles.latest
        rw [hversions] at hlatest hsince
        obtain rfl := Option.some.inj hlatest
        rw [Nat.succ_sub hsince.2]
        exact List.mem_cons_self
  have hraised : ∀ failed : Except ε (Option (ParsedManifest parse)), since = 1 →
      ResultFrom (· ∈ (s.projects project).history) failed →
        ∃ content ∈ (s.projects project).history.take ((s.projects project).history.length + 1 - since),
          Serves (failed.mapError .invalid) content := by
    intro failed hone hfrom
    obtain ⟨content, hmem, hserves⟩ := serves_of_from hfrom
    rw [hwhole hone]
    exact ⟨content, hmem, hserves⟩
  rcases readStep_returned hbefore hafter with
    ⟨place, found, rfl, rfl, hunlocked⟩ | ⟨original, repeated, rfl, hlock, rfl⟩
  · cases place with
    | locked =>
        have hfrom : ResultFrom (· = (s.projects project).content) found := hphase.1.2.1
        obtain ⟨content, rfl, hserves⟩ := serves_of_from hfrom
        exact ⟨⟨_, hcurrent, hserves⟩, fun _ => hserves⟩
    | first =>
        obtain ⟨e, rfl⟩ := hunlocked rfl
        refine ⟨hraised _ hphase.1.1 hphase.1.2, ?_⟩
        rintro (⟨manifest, hok⟩ | ⟨load, hload⟩)
        · cases hok
        · cases hload
    | second original =>
        obtain ⟨e, rfl⟩ := hunlocked rfl
        refine ⟨hraised _ hphase.1.1 hphase.1.2.2, ?_⟩
        rintro (⟨manifest, hok⟩ | ⟨load, hload⟩)
        · cases hok
        · cases hload
  · obtain ⟨-, horiginal, hrepeated⟩ := hphase
    rw [hfiles.untouched hlock] at horiginal hrepeated
    have horiginal := List.mem_singleton.mp horiginal
    have hrepeated := List.mem_singleton.mp hrepeated
    have hserves : Serves (unlockedResult original repeated) (s.projects project).content := by
      rw [unlockedResult, if_pos (horiginal.trans hrepeated.symm), ← horiginal]
      exact serves_ok original
    exact ⟨⟨_, hcurrent, hserves⟩, fun _ => hserves⟩

end Serving

private def sampleParse (raw : Bytes) : Except Unit Bytes :=
  if raw = [] then .error () else .ok raw

private def statAt (inode : ℕ) (seconds : ℤ) : FileStat where
  device := 1
  inode
  size := 1
  modifiedNs := seconds * 1000000000
  changedNs := seconds * 1000000000

/-- A manifest without a lock file, changed half a second ago. -/
private def copied : System Unit ℕ sampleParse where
  now := 100500000000
  projects _ :=
    { file := some ⟨0, [1], statAt 7 100⟩
      lockFile := false
      holder := none
      objects := 1
      history := [some [1]] }
  cache := []
  parties _ := .idle

private def someStat : FileStat := statAt 9 100

private def steps (party count : ℕ) : List (Event Unit ℕ) :=
  List.replicate count (.read party someStat)

private def overtaking : List (Event Unit ℕ) :=
  .beginRead 0 () :: steps 0 5 ++
    [.beginWrite 1 (), .createLock (), .acquire 1, .tick 101000000000,
      .write 1 (some ([2], statAt 8 100)), .write 1 (some ([3], statAt 7 100)), .release 1,
      .tick 102100000000] ++ steps 0 4 ++ [.acquire 0] ++ steps 0 3

private def quiet : List (Event Unit ℕ) :=
  [.tick 103000000000, .beginRead 0 ()] ++ steps 0 13

private theorem starts_copied : Starts copied :=
  ⟨rfl, fun _ => rfl, fun _ => ⟨rfl, rfl⟩⟩

/-- The read serves the manifest from before both replacements. -/
theorem overtakenRead_stale :
    ¬ ∀ (s : System Unit ℕ sampleParse) (event : Event Unit ℕ) (party since : ℕ)
        (phase : Phase sampleParse) (manifest : Option (ParsedManifest sampleParse)),
      (reads true 32 sampleParse).ReachableWhen (fun s event => granular true s event = true) s →
      granular true s event = true →
      s.parties party = .reading () since phase →
      (run true 32 s event).parties party = .returned () (.ok manifest) →
        Serves (.ok manifest : Except (ReadError Unit) _)
          ((run true 32 s event).projects ()).content := by
  intro h
  have hreach : (reads true 32 sampleParse).ReachableWhen (fun s event => granular true s event = true)
      (overtaking.foldl (run true 32) copied) :=
    TransitionSystem.reachable_foldl (.start starts_copied) (by decide +kernel)
  have hserves := h _ (.read 0 someStat) 0 1 (.loading .locked (.loaded (.ok (some ⟨[1], [1], rfl⟩))))
    (some ⟨[1], [1], rfl⟩) hreach rfl rfl rfl
  exact absurd (Option.some.inj (Except.ok.inj hserves)) (by decide)

/-- A settled slot is served. -/
theorem cachedRead_serves_quiet :
    Serves (.ok (some ⟨[1], [1], rfl⟩) : Except (ReadError Unit) (Option (ParsedManifest sampleParse)))
      (some [1]) := by
  have hreach : (reads true 32 sampleParse).ReachableWhen (Undisturbed true)
      (quiet.foldl (run true 32) copied) :=
    TransitionSystem.reachable_foldl (.start starts_copied) (by decide +kernel)
  have hspec := @cachedRead_serves _ _ _ _ sampleParse true 32 _ 0 () 1
    (.closing (some ⟨[1], [1], rfl⟩) (some ⟨[1], [1], rfl⟩)) (.read 0 someStat)
    (.ok (some ⟨[1], [1], rfl⟩)) _ _ hreach ⟨rfl, rfl⟩ rfl rfl
  exact hspec.2 (.inl ⟨_, rfl⟩)

end ShortReel.ManifestReadRuns
