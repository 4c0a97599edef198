import ShortReel.ManifestStore

/-!
# Changes of claims with compensation

`ArtifactEntryRekeyPlan` and the transactional operations of `ArtifactManifest`. A change that fails is
undone by further writes of the same file, which others may have changed since.
-/

namespace ShortReel.ManifestTransactions

open FallibleStates RestoringTransactions ContendedFiles InsertionDict ManifestStore

structure ArtifactEntryRekeyPlan where
  before : OptionalEntries
  after : OptionalEntries
  changed : Bool
  sameKeys : keys before = keys after

inductive FormalFile where
  | missing
  | present
  | blocked (detail : String)

structure ArtifactObservation where
  artifactPath : String
  present : Bool
  blocker : Option String

section Operations

variable (text : TextTables) (formal : String → FormalFile)

def raise {α : Type} : Except ManifestError α → ManifestM α
  | .ok a => pure a
  | .error e => throw e

def undoing (body : ManifestM Bool) (undo : ManifestM Unit) (detail : String) : ManifestM Bool :=
  tryCatch body fun original => do
    tryCatch undo fun _ => throw (.rollbackIncomplete detail)
    throw original

def entriesMatch : OptionalEntries → ManifestM Bool
  | [] => return true
  | item :: rest => do
      let entry ← getEntry item.1
      if entry = item.2 then entriesMatch rest
      else return false

def ArtifactEntryRekeyPlan.restore (plan : ArtifactEntryRekeyPlan) : ManifestM Unit := do
  let restored ← replaceEntriesIfMatchesAtomically text plan.after plan.before
  if restored then
    return ()
  let same ← entriesMatch plan.before
  if same then
    return ()
  throw (.manifest "artifact claim rekey did not leave a recoverable state")

def ArtifactEntryRekeyPlan.commit (plan : ArtifactEntryRekeyPlan) : ManifestM Bool := do
  if plan.changed then
    let changed ← undoing (replaceEntriesIfMatchesAtomically text plan.before plan.after)
      (plan.restore text) "artifact claim rekey failed and rollback was incomplete"
    if changed then
      return true
    throw (.manifest "artifact claims changed after the rekey preflight")
  return false

def inspectArtifact (artifactPath : String) : ArtifactObservation :=
  match normalizeArtifactPath text artifactPath with
  | .error detail => { artifactPath, present := false, blocker := some detail }
  | .ok normalized =>
      match formal normalized with
      | .missing => { artifactPath := normalized, present := false, blocker := none }
      | .present => { artifactPath := normalized, present := true, blocker := none }
      | .blocked detail =>
          { artifactPath := normalized, present := false, blocker := some detail }

def inspected (artifactPath : String) : Except ManifestError String :=
  let observation := inspectArtifact text formal artifactPath
  match observation.blocker with
  | some detail => .error (.registration detail)
  | none =>
      if observation.present then .ok observation.artifactPath
      else .error (.registration ("artifact is not present: " ++ observation.artifactPath))

def registerDescriptor (key artifactPath digest : String) : ManifestM Bool := do
  let path ← raise (inspected text formal artifactPath)
  putEntry text key { artifactPath := path, basisDigest := digest }

/-- The claim from before, unless the key no longer holds what the failed change has written. -/
def restoreEntry (key : String) (previous expected : Option ArtifactManifestEntry) :
    ManifestM Unit := do
  let current ← getEntry key
  if current = expected then
    match previous with
    | none => discard (deleteEntry text key)
    | some entry => discard (putEntry text key entry)

def registerDescriptorTransactionally (key artifactPath digest : String) : ManifestM Bool := do
  let previous ← getEntry key
  let normalized ← raise ((normalizeArtifactPath text artifactPath).mapError .value)
  undoing (registerDescriptor text formal key artifactPath digest)
    (restoreEntry text key previous (some { artifactPath := normalized, basisDigest := digest }))
    "artifact basis registration failed and rollback was incomplete"

def registerEntryTransactionally (key : String) (entry : ArtifactManifestEntry) : ManifestM Bool := do
  raise (encodeTargetEntry text entry)
  let path ← raise (inspected text formal entry.artifactPath)
  let expected : ArtifactManifestEntry := { artifactPath := path, basisDigest := entry.basisDigest }
  let previous ← getEntry key
  undoing (putEntry text key expected) (restoreEntry text key previous (some expected))
    "artifact entry registration failed and rollback was incomplete"

def forgetEntryTransactionally (key : String) : ManifestM Bool := do
  let previous ← getEntry key
  if previous = none then
    return false
  undoing (deleteEntry text key) (restoreEntry text key previous none)
    "artifact entry removal failed and rollback was incomplete"

def readClaims : List String → ManifestM OptionalEntries
  | [] => return []
  | key :: rest => do
      let entry ← getEntry key
      let others ← readClaims rest
      return if entry = none then others else (key, entry) :: others

def forgetPlan (before : OptionalEntries) : ArtifactEntryRekeyPlan where
  before
  after := before.map fun item => (item.1, none)
  changed := true
  sameKeys := (keys_map (fun _ _ => none)).symm

def forgetEntriesTransactionally (names : List String) : ManifestM Bool := do
  let before ← readClaims names.eraseDups
  if before = [] then
    return false
  (forgetPlan before).commit text

def normalizeRewrites (rewrites : Dict String String) : Except ManifestError (Dict String String) := do
  let items ← rewrites.mapM fun item => do
    let source ← (normalizeArtifactPath text item.1).mapError .value
    let target ← (normalizeArtifactPath text item.2).mapError .value
    return (source, target)
  return ofItems items

def ArtifactEntryRekeyPlan.none : ArtifactEntryRekeyPlan where
  before := []
  after := []
  changed := false
  sameKeys := rfl

def rewritten (rewrites : Dict String String) (entry : ArtifactManifestEntry) : ArtifactManifestEntry where
  artifactPath := (get rewrites entry.artifactPath).getD entry.artifactPath
  basisDigest := entry.basisDigest

def planEntryRekey (sourceKey targetKey : String) (artifactPathRewrites : Dict String String) :
    ManifestM ArtifactEntryRekeyPlan := do
  let rewrites ← raise (normalizeRewrites text artifactPathRewrites)
  let sourceEntry ← getEntry sourceKey
  if sourceKey = targetKey then
    match sourceEntry with
    | .none => return .none
    | some entry =>
        if rewritten rewrites entry = entry then
          return .none
        return {
          before := [(sourceKey, some entry)]
          after := [(sourceKey, some (rewritten rewrites entry))]
          changed := true
          sameKeys := rfl }
  else
    let targetEntry ← getEntry targetKey
    if targetEntry ≠ none then
      throw (.manifest ("artifact claim already exists for target key: " ++ targetKey))
    match sourceEntry with
    | .none => return .none
    | some entry =>
        return {
          before := [(sourceKey, some entry), (targetKey, .none)]
          after := [(sourceKey, .none), (targetKey, some (rewritten rewrites entry))]
          changed := true
          sameKeys := rfl }

/-- The plans of `DerivativeSheetRelocation`, one after the other. -/
def commitManifest (plans : List ArtifactEntryRekeyPlan) : ManifestM Unit :=
  plans.forM fun plan => discard (plan.commit text)

end Operations

section Rules

variable {text : TextTables} {key : String} {value : Option ArtifactManifestEntry}
  {P Q E F : Shared ManifestFile → Prop} {start : ManifestFile} {touched : List String}

/-- From `P` a computation that returns with `Q` or fails with `E`, whatever others do meanwhile. -/
abbrev Does {α : Type} (P : Shared ManifestFile → Prop) (x : ManifestM α)
    (Q : α → Shared ManifestFile → Prop) (E : ManifestError → Shared ManifestFile → Prop) : Prop :=
  Meets (fun s => P s.toShared) x (fun a s => Q a s.toShared) (fun e s => E e s.toShared)

theorem does_getEntry (hP : Stable P) (hPE : ∀ s, P s → E s) :
    Does P (getEntry key) (fun entry s => P s ∧ lookup s.file key = some entry) (fun _ => E) := by
  refine meets_access (Q := fun entry s => P s ∧ lookup s.file key = some entry) (E := fun _ => E) hP
    hPE (fun s _ hs _ => hPE s hs) ?_ ?_
  · intro s entry written hs hread
    obtain ⟨hlookup, rfl⟩ := readLocked_ok hread
    exact ⟨hs, hlookup⟩
  · intro s entry written hs hread
    obtain ⟨-, rfl⟩ := readLocked_ok hread
    exact hPE s hs

theorem does_set {act : Act Bool} (hsets : Sets key value act) (hP : Stable P)
    (hwritten : ∀ s written, P s → (∀ other, lookup (written.getD s.file) other =
      if other = key then some value else lookup s.file other) → Q (s.write written))
    (hPE : ∀ s, P s → E s) (hQE : ∀ s, Q s → E s) :
    Does P (access .interrupted act) (fun _ => Q) (fun _ => E) := by
  have hdone : ∀ s changed written, P s → act s.file = .ok (changed, written) →
      Q (s.write written) :=
    fun s changed written hs hact => hwritten s written hs (hsets s.file changed written hact)
  exact meets_access (Q := fun _ => Q) (E := fun _ => E) hP hPE (fun s _ hs _ => hPE s hs) hdone
    fun s changed written hs hact => hQE _ (hdone s changed written hs hact)

theorem does_replace {expected replacements : OptionalEntries} (hP : Stable P)
    (hsame : ∀ s written, P s →
      (∀ key, lookup (written.getD s.file) key = lookup s.file key) → P (s.write written))
    (hswapped : ∀ s written, P s →
      (∀ key ∈ keys replacements, ∃ value, (key, value) ∈ replacements ∧
        lookup (written.getD s.file) key = some value) →
      (∀ key ∉ keys replacements, lookup (written.getD s.file) key = lookup s.file key) →
        Q (s.write written))
    (hPE : ∀ s, P s → E s) (hQE : ∀ s, Q s → E s) :
    Does P (replaceEntriesIfMatchesAtomically text expected replacements)
      (fun changed => if changed then Q else P) (fun _ => E) := by
  have hdone : ∀ s changed written, P s →
      replaceLocked text expected replacements s.file = .ok (changed, written) →
        (if changed then Q else P) (s.write written) := by
    intro s changed written hs hact
    rcases replaceLocked_ok hact with ⟨rfl, hlookup⟩ | ⟨hinside, houtside, rfl⟩
    · exact hsame s written hs hlookup
    · exact hswapped s written hs hinside houtside
  have haccess : Does P (access .interrupted (replaceLocked text expected replacements))
      (fun changed => if changed then Q else P) (fun _ => E) := by
    refine meets_access (Q := fun changed : Bool => if changed then Q else P) (E := fun _ => E) hP hPE
      (fun s _ hs _ => hPE s hs) hdone fun s changed written hs hact => ?_
    have hresult := hdone s changed written hs hact
    cases changed with
    | true => exact hQE _ hresult
    | false => exact hPE _ hresult
  unfold replaceEntriesIfMatchesAtomically
  cases encodeOptionalEntries text expected with
  | error e => exact meets_throw_bind fun s hs => hPE s.toShared hs
  | ok _ =>
      cases encodeOptionalEntries text replacements with
      | error e => exact meets_throw_bind fun s hs => hPE s.toShared hs
      | ok _ => exact haccess

end Rules

section Compensation

variable {text : TextTables} {P F : Shared ManifestFile → Prop} {start : ManifestFile}
  {touched : List String} {key : String}

structure Clean (start : ManifestFile) (touched : List String) (s : Shared ManifestFile) : Prop where
  spares : Spares lookup start touched s
  restored : ∀ key ∈ touched, Restored lookup start s key

def Failed (start : ManifestFile) (touched : List String) (e : ManifestError)
    (s : Shared ManifestFile) : Prop :=
  Spares lookup start touched s ∧
    ((∀ detail, e ≠ .rollbackIncomplete detail) → ∀ key ∈ touched, Restored lookup start s key)

def Known (start : ManifestFile) (entries : OptionalEntries) (s : Shared ManifestFile) : Prop :=
  ∀ item ∈ entries, Sourced lookup start s item.1 (some item.2)

theorem Clean.stable : Stable (Clean start touched) :=
  fun _ _ h => ⟨h.spares.arrive, fun key hkey => (h.restored key hkey).arrive⟩

theorem Clean.failed {s : Shared ManifestFile} (h : Clean start touched s) (e : ManifestError) :
    Failed start touched e s :=
  ⟨h.spares, fun _ => h.restored⟩

theorem Known.stable {entries : OptionalEntries} : Stable (Known start entries) :=
  fun _ _ h item hitem => (h item hitem).change

theorem does_undoing {body : ManifestM Bool} {undo : ManifestM Unit} {detail : String}
    {Q : Bool → Shared ManifestFile → Prop} (hbody : Does P body Q fun _ => F)
    (hundo : Does F undo (fun _ => Clean start touched) fun _ => Spares lookup start touched) :
    Does P (undoing body undo detail) Q (Failed start touched) := by
  refine meets_tryCatch hbody fun original => ?_
  refine meets_bind (Q := fun _ (s : Session ManifestFile) => Clean start touched s.toShared)
    (meets_tryCatch (F := fun _ (s : Session ManifestFile) => Spares lookup start touched s.toShared)
      ?_ fun e => ?_) fun _ => meets_throw fun s hs => hs.failed original
  · exact hundo
  · exact meets_throw fun s hs => ⟨hs, fun hcomplete => absurd rfl (hcomplete detail)⟩

structure Undoable (start : ManifestFile) (touched : List String) (before : OptionalEntries)
    (s : Shared ManifestFile) : Prop where
  spares : Spares lookup start touched s
  known : Known start before s
  rest : ∀ key ∈ touched, key ∉ keys before → Restored lookup start s key

theorem Undoable.stable {before : OptionalEntries} : Stable (Undoable start touched before) :=
  fun s file h => ⟨h.spares.arrive, Known.stable s file h.known,
    fun key hkey hbefore => (h.rest key hkey hbefore).arrive⟩

theorem does_entriesMatch {entries : OptionalEntries} (hP : Stable P)
    (hknown : ∀ s, P s → Known start entries s) :
    Does P (entriesMatch entries)
      (fun same s => P s ∧ (same = true → ∀ key ∈ keys entries, Restored lookup start s key))
      (fun _ => P) := by
  induction entries generalizing P with
  | nil => exact meets_pure fun s hs => ⟨hs, fun _ key hkey => (by cases hkey)⟩
  | cons item rest ih =>
      unfold entriesMatch
      refine meets_bind (does_getEntry hP fun _ => id) fun entry => meets_ite (fun hsame => ?_) fun _ => ?_
      · have hread : ∀ s : Shared ManifestFile, P s ∧ lookup s.file item.1 = some entry →
            P s ∧ Restored lookup start s item.1 := by
          rintro s ⟨hs, hlookup⟩
          refine ⟨hs, ?_⟩
          rw [Restored, hlookup, hsame]
          exact hknown s hs item List.mem_cons_self
        have hstable : Stable fun s => P s ∧ Restored lookup start s item.1 := hP.and stable_restored
        have hrest := ih hstable fun s hs => (List.forall_mem_cons.mp (hknown s hs.1)).2
        refine hrest.mono (fun s hs => hread _ hs) (fun same s hs => ⟨hs.1.1, fun h => ?_⟩)
          fun e s hs => hs.1
        exact List.forall_mem_cons.mpr ⟨hs.1.2, hs.2 h⟩
      · exact meets_pure fun s hs => ⟨hs.1, fun h => (by cases h)⟩

theorem does_restore (plan : ArtifactEntryRekeyPlan) (hkeys : keys plan.before ⊆ touched) :
    Does (Undoable start touched plan.before) (plan.restore text)
      (fun _ => Clean start touched) (fun _ => Spares lookup start touched) := by
  unfold ArtifactEntryRekeyPlan.restore
  refine meets_bind (does_replace (Q := Clean start touched)
    (E := Spares lookup start touched) Undoable.stable ?_ ?_ (fun s hs => hs.spares) fun s hs => hs.spares)
    fun restored => meets_ite (fun hrestored => ?_) fun hrestored => ?_
  · intro s written hs hsame
    refine ⟨hs.spares.write fun key _ => hsame key, fun item hitem => (hs.known item hitem).write _,
      fun key hkey hbefore => Restored.write ?_⟩
    rw [hsame]
    exact hs.rest key hkey hbefore
  · intro s written hs hinside houtside
    refine ⟨hs.spares.write fun key hkey => houtside key fun hmem => hkey (hkeys hmem),
      fun key hkey => Restored.write ?_⟩
    by_cases hbefore : key ∈ keys plan.before
    · obtain ⟨value, hvalue, hlookup⟩ := hinside key hbefore
      rw [hlookup]
      exact hs.known _ hvalue
    · rw [houtside key hbefore]
      exact hs.rest key hkey hbefore
  · exact meets_pure fun s hs => by simpa [hrestored] using hs
  · refine Meets.pre ?_ (P := fun s => Undoable start touched plan.before s.toShared)
      fun s hs => by simpa [hrestored] using hs
    refine meets_bind ((does_entriesMatch Undoable.stable fun s hs => hs.known).mono (fun _ => id)
      (fun _ _ => id) fun _ s hs => hs.spares) fun same => meets_ite (fun hsame => ?_) fun _ => ?_
    · refine meets_pure fun s hs => ⟨hs.1.spares, fun key hkey => ?_⟩
      by_cases hbefore : key ∈ keys plan.before
      · exact hs.2 hsame key hbefore
      · exact hs.1.rest key hkey hbefore
    · exact meets_throw fun s hs => hs.1.spares

theorem does_commit (plan : ArtifactEntryRekeyPlan) (hkeys : keys plan.before ⊆ touched) :
    Does (fun s => Clean start touched s ∧ Known start plan.before s) (plan.commit text)
      (fun _ => Spares lookup start touched) (Failed start touched) := by
  have hundoable : ∀ s, Clean start touched s ∧ Known start plan.before s →
      Undoable start touched plan.before s :=
    fun s hs => ⟨hs.1.spares, hs.2, fun key hkey _ => hs.1.restored key hkey⟩
  have hswap : Does (fun s => Clean start touched s ∧ Known start plan.before s)
      (replaceEntriesIfMatchesAtomically text plan.before plan.after)
      (fun changed => if changed then Undoable start touched plan.before
        else fun s => Clean start touched s ∧ Known start plan.before s)
      (fun _ => Undoable start touched plan.before) := by
    refine does_replace (Clean.stable.and Known.stable) ?_ ?_ hundoable fun _ => id
    · rintro s written ⟨hclean, hknown⟩ hsame
      refine ⟨⟨hclean.spares.write fun key _ => hsame key, fun key hkey => Restored.write ?_⟩,
        fun item hitem => (hknown item hitem).write _⟩
      rw [hsame]
      exact hclean.restored key hkey
    · rintro s written ⟨hclean, hknown⟩ - houtside
      rw [← plan.sameKeys] at houtside
      refine ⟨hclean.spares.write fun key hkey => houtside key fun hmem => hkey (hkeys hmem),
        fun item hitem => (hknown item hitem).write _, fun key hkey hbefore => Restored.write ?_⟩
      rw [houtside key hbefore]
      exact hclean.restored key hkey
  unfold ArtifactEntryRekeyPlan.commit
  refine meets_ite (fun _ => ?_) fun _ => meets_pure fun s hs => hs.1.spares
  refine meets_bind (does_undoing hswap (does_restore plan hkeys)) fun changed =>
    meets_ite (fun hchanged => ?_) fun hchanged => ?_
  · refine meets_pure fun s hs => ?_
    simp only [hchanged, if_true] at hs
    exact hs.spares
  · refine meets_throw fun s hs => ?_
    simp only [hchanged] at hs
    exact hs.1.failed _

variable {previous expected : Option ArtifactManifestEntry}

structure Dirty (start : ManifestFile) (key : String) (previous expected : Option ArtifactManifestEntry)
    (s : Shared ManifestFile) : Prop where
  spares : Spares lookup start [key] s
  previous : Sourced lookup start s key (some previous)
  left : lookup s.file key = some expected ∨ Restored lookup start s key

theorem Dirty.stable : Stable (Dirty start key previous expected) := by
  intro s file h
  refine ⟨h.spares.arrive, h.previous.change, ?_⟩
  by_cases hsame : lookup file key = lookup s.file key
  · refine h.left.imp (fun hleft => ?_) Restored.arrive
    exact hsame.trans hleft
  · exact .inr (restored_of_arrival hsame)

theorem spares_of_set {s : Shared ManifestFile} {written : Option ManifestFile}
    {value : Option ArtifactManifestEntry} (h : Spares lookup start [key] s)
    (hset : ∀ other, lookup (written.getD s.file) other =
      if other = key then some value else lookup s.file other) :
    Spares lookup start [key] (s.write written) := by
  refine h.write fun other hother => ?_
  rw [hset, if_neg fun hsame => hother (List.mem_singleton.mpr hsame)]

theorem does_change {act : Act Bool} (hsets : Sets key expected act) :
    Does (fun s => Clean start [key] s ∧ Sourced lookup start s key (some previous))
      (access .interrupted act) (fun _ => Dirty start key previous expected)
      (fun _ => Dirty start key previous expected) := by
  refine does_set hsets (Clean.stable.and stable_sourced) ?_ ?_ fun _ => id
  · rintro s written ⟨hclean, hprevious⟩ hset
    refine ⟨spares_of_set hclean.spares hset, hprevious.write _, .inl ?_⟩
    rw [file_write, hset, if_pos rfl]
  · rintro s ⟨hclean, hprevious⟩
    exact ⟨hclean.spares, hprevious, .inr (hclean.restored key List.mem_cons_self)⟩

theorem does_undo {act : Act Bool} (hsets : Sets key previous act) :
    Does (Dirty start key previous expected) (access .interrupted act)
      (fun _ => Clean start [key]) (fun _ => Spares lookup start [key]) := by
  refine does_set hsets Dirty.stable ?_ (fun s hs => hs.spares) fun s hs => hs.spares
  intro s written hs hset
  refine ⟨spares_of_set hs.spares hset, fun other hother => Restored.write ?_⟩
  obtain rfl := List.mem_singleton.mp hother
  rw [hset, if_pos rfl]
  exact hs.previous

theorem does_restoreEntry :
    Does (Dirty start key previous expected) (restoreEntry text key previous expected)
      (fun _ => Clean start [key]) (fun _ => Spares lookup start [key]) := by
  have hstable : Stable (Dirty start key previous expected) := Dirty.stable
  unfold restoreEntry
  refine meets_bind (does_getEntry hstable fun s hs => hs.spares) fun current =>
    meets_ite (fun _ => ?_) fun hother => ?_
  · cases previous with
    | none =>
        exact meets_bind ((does_undo (sets_deleteLocked text key)).pre fun s hs => hs.1)
          fun _ => meets_pure fun _ => id
    | some entry =>
        exact meets_bind ((does_undo (sets_putLocked text key entry)).pre fun s hs => hs.1)
          fun _ => meets_pure fun _ => id
  · refine meets_pure fun s hs => ⟨hs.1.spares, fun other hmem => ?_⟩
    obtain rfl := List.mem_singleton.mp hmem
    refine hs.1.left.resolve_left fun hleft => hother ?_
    exact Option.some.inj (hs.2.symm.trans hleft)

end Compensation

inductive ManifestChange where
  | rekey (sourceKey targetKey : String) (artifactPathRewrites : Dict String String)
  | registerDescriptor (key artifactPath digest : String)
  | registerEntry (key : String) (entry : ArtifactManifestEntry)
  | forgetEntry (key : String)
  | forgetEntries (names : List String)

def ManifestChange.run (text : TextTables) (formal : String → FormalFile) :
    ManifestChange → ManifestM Bool
  | .rekey sourceKey targetKey artifactPathRewrites => do
      let plan ← planEntryRekey text sourceKey targetKey artifactPathRewrites
      plan.commit text
  | .registerDescriptor key artifactPath digest =>
      registerDescriptorTransactionally text formal key artifactPath digest
  | .registerEntry key entry => registerEntryTransactionally text formal key entry
  | .forgetEntry key => forgetEntryTransactionally text key
  | .forgetEntries names => forgetEntriesTransactionally text names

def ManifestChange.touched : ManifestChange → List String
  | .rekey sourceKey targetKey _ => [sourceKey, targetKey]
  | .registerDescriptor key _ _ => [key]
  | .registerEntry key _ => [key]
  | .forgetEntry key => [key]
  | .forgetEntries names => names

section Changes

variable {text : TextTables} {formal : String → FormalFile} {P : Shared ManifestFile → Prop}
  {start : ManifestFile} {touched : List String} {key : String}

theorem does_raise {α : Type} {E : ManifestError → Shared ManifestFile → Prop}
    (x : Except ManifestError α) (hPE : ∀ e s, P s → E e s) : Does P (raise x) (fun _ => P) E := by
  cases x with
  | error e => exact meets_throw fun s hs => hPE e s.toShared hs
  | ok a => exact meets_pure fun _ => id

theorem does_readClaim (hP : Stable P) (hclean : ∀ s, P s → Clean start touched s)
    (hkey : key ∈ touched) :
    Does P (getEntry key) (fun entry s => P s ∧ Sourced lookup start s key (some entry))
      (Failed start touched) := by
  refine (does_getEntry hP fun _ => id).mono (fun _ => id) (fun entry s hs => ⟨hs.1, ?_⟩)
    fun e s hs => (hclean _ hs).failed e
  rw [← hs.2]
  exact (hclean _ hs.1).restored key hkey

theorem does_planEntryRekey (sourceKey targetKey : String) (rewrites : Dict String String) :
    Does (Clean start [sourceKey, targetKey]) (planEntryRekey text sourceKey targetKey rewrites)
      (fun plan s => keys plan.before ⊆ [sourceKey, targetKey] ∧
        Clean start [sourceKey, targetKey] s ∧ Known start plan.before s)
      (Failed start [sourceKey, targetKey]) := by
  have hnone : ∀ s, Clean start [sourceKey, targetKey] s →
      keys ArtifactEntryRekeyPlan.none.before ⊆ [sourceKey, targetKey] ∧
        Clean start [sourceKey, targetKey] s ∧ Known start ArtifactEntryRekeyPlan.none.before s :=
    fun s hs => ⟨List.nil_subset _, hs, fun item hitem => (by cases hitem)⟩
  unfold planEntryRekey
  refine meets_bind (does_raise _ fun e s hs => hs.failed e) fun rewrites => ?_
  refine meets_bind (does_readClaim Clean.stable (fun _ => id) List.mem_cons_self) fun sourceEntry =>
    meets_ite (fun _ => ?_) fun _ => ?_
  · cases sourceEntry with
    | none => exact meets_pure fun s hs => hnone _ hs.1
    | some entry =>
        refine meets_ite (fun _ => meets_pure fun s hs => hnone _ hs.1) fun _ => meets_pure fun s hs => ?_
        exact ⟨List.cons_subset_cons _ (List.nil_subset _), hs.1, List.forall_mem_singleton.mpr hs.2⟩
  · refine meets_bind (does_readClaim (Clean.stable.and stable_sourced) (fun s hs => hs.1)
      (List.mem_cons_of_mem _ List.mem_cons_self)) fun targetEntry =>
        meets_ite (fun _ => meets_throw_bind fun s hs => hs.1.1.failed _) fun hfree => ?_
    obtain rfl := not_not.mp hfree
    cases sourceEntry with
    | none => exact meets_pure fun s hs => hnone _ hs.1.1
    | some entry =>
        refine meets_pure fun s hs => ⟨List.Subset.refl _, hs.1.1, ?_⟩
        exact List.forall_mem_cons.mpr ⟨hs.1.2, List.forall_mem_singleton.mpr hs.2⟩

theorem does_readClaims (hP : Stable P) (hclean : ∀ s, P s → Clean start touched s)
    (names : List String) (hnames : names ⊆ touched) :
    Does P (readClaims names) (fun before s => keys before ⊆ names ∧ P s ∧ Known start before s)
      (Failed start touched) := by
  induction names generalizing P with
  | nil => exact meets_pure fun s hs => ⟨List.nil_subset _, hs, fun item hitem => (by cases hitem)⟩
  | cons key names ih =>
      obtain ⟨hkey, hrest⟩ := List.cons_subset.mp hnames
      refine meets_bind (does_readClaim hP hclean hkey) fun entry => ?_
      have hstable : Stable fun s => P s ∧ Sourced lookup start s key (some entry) :=
        hP.and stable_sourced
      refine meets_bind (ih hstable (fun s hs => hclean s hs.1) hrest) fun others => ?_
      refine meets_pure fun s hs => ?_
      obtain ⟨hothers, ⟨hs, hentry⟩, hknown⟩ := hs
      split_ifs
      · exact ⟨List.subset_cons_of_subset key hothers, hs, hknown⟩
      · exact ⟨List.cons_subset_cons key hothers, hs, List.forall_mem_cons.mpr ⟨hentry, hknown⟩⟩

theorem does_undoingChange {previous expected : Option ArtifactManifestEntry} {body : ManifestM Bool}
    {detail : String}
    (hbody : Does (fun s => Clean start [key] s ∧ Sourced lookup start s key (some previous)) body
      (fun _ => Dirty start key previous expected) (fun _ => Dirty start key previous expected)) :
    Does (fun s => Clean start [key] s ∧ Sourced lookup start s key (some previous))
      (undoing body (restoreEntry text key previous expected) detail)
      (fun _ => Spares lookup start [key]) (Failed start [key]) :=
  (does_undoing hbody does_restoreEntry).mono (fun _ => id) (fun _ _ hs => hs.spares) fun _ _ => id

theorem inspected_ok {artifactPath path normalized : String}
    (h : inspected text formal artifactPath = .ok path)
    (hnormalized : normalizeArtifactPath text artifactPath = .ok normalized) : path = normalized := by
  unfold inspected inspectArtifact at h
  rw [hnormalized] at h
  dsimp only at h
  cases hformal : formal normalized with
  | present =>
      rw [hformal] at h
      exact (Except.ok.inj h).symm
  | missing =>
      rw [hformal] at h
      cases h
  | blocked detail =>
      rw [hformal] at h
      cases h

theorem does_registerDescriptor {previous : Option ArtifactManifestEntry}
    {artifactPath digest normalized : String}
    (hnormalized : normalizeArtifactPath text artifactPath = .ok normalized) :
    Does (fun s => Clean start [key] s ∧ Sourced lookup start s key (some previous))
      (registerDescriptor text formal key artifactPath digest)
      (fun _ => Dirty start key previous
        (some { artifactPath := normalized, basisDigest := digest }))
      (fun _ => Dirty start key previous
        (some { artifactPath := normalized, basisDigest := digest })) := by
  unfold registerDescriptor
  cases hinspected : inspected text formal artifactPath with
  | error e =>
      refine meets_throw_bind fun s hs => ⟨hs.1.spares, hs.2, .inr ?_⟩
      exact hs.1.restored key List.mem_cons_self
  | ok path =>
      obtain rfl := inspected_ok hinspected hnormalized
      exact does_change (sets_putLocked text key _)

theorem does_registerDescriptorTransactionally (artifactPath digest : String) :
    Does (Clean start [key]) (registerDescriptorTransactionally text formal key artifactPath digest)
      (fun _ => Spares lookup start [key]) (Failed start [key]) := by
  refine meets_bind (does_readClaim Clean.stable (fun _ => id) List.mem_cons_self) fun previous => ?_
  cases hnormalized : normalizeArtifactPath text artifactPath with
  | error detail => exact meets_throw_bind fun s hs => hs.1.failed _
  | ok normalized => exact does_undoingChange (does_registerDescriptor hnormalized)

theorem does_registerEntryTransactionally (entry : ArtifactManifestEntry) :
    Does (Clean start [key]) (registerEntryTransactionally text formal key entry)
      (fun _ => Spares lookup start [key]) (Failed start [key]) := by
  refine meets_bind (does_raise _ fun e s hs => hs.failed e) fun _ => ?_
  refine meets_bind (does_raise _ fun e s hs => hs.failed e) fun path => ?_
  refine meets_bind (does_readClaim Clean.stable (fun _ => id) List.mem_cons_self) fun previous => ?_
  exact does_undoingChange (does_change (sets_putLocked text key _))

theorem does_forgetEntryTransactionally :
    Does (Clean start [key]) (forgetEntryTransactionally text key)
      (fun _ => Spares lookup start [key]) (Failed start [key]) := by
  refine meets_bind (does_readClaim Clean.stable (fun _ => id) List.mem_cons_self) fun previous => ?_
  refine meets_ite (fun _ => meets_pure fun s hs => hs.1.spares) fun _ => ?_
  exact does_undoingChange (does_change (sets_deleteLocked text key))

theorem does_forgetEntriesTransactionally (names : List String) :
    Does (Clean start names) (forgetEntriesTransactionally text names)
      (fun _ => Spares lookup start names) (Failed start names) := by
  have hnames : names.eraseDups ⊆ names := fun key hkey => List.mem_eraseDups.mp hkey
  refine meets_bind (does_readClaims Clean.stable (fun _ => id) _ hnames) fun before => ?_
  refine meets_ite (fun _ => meets_pure fun s hs => hs.2.1.spares) fun _ => ?_
  refine meets_of_forall fun s hs => ?_
  have hsub : keys (forgetPlan before).before ⊆ names := List.Subset.trans hs.1 hnames
  exact (does_commit (forgetPlan before) hsub).pre fun s' hs' => hs' ▸ hs.2

theorem does_run (change : ManifestChange) :
    Does (Clean start change.touched) (change.run text formal)
      (fun _ => Spares lookup start change.touched) (Failed start change.touched) := by
  cases change with
  | rekey sourceKey targetKey rewrites =>
      refine meets_bind (does_planEntryRekey sourceKey targetKey rewrites) fun plan => ?_
      refine meets_of_forall fun s hs => ?_
      exact (does_commit plan hs.1).pre fun s' hs' => hs' ▸ hs.2
  | registerDescriptor key artifactPath digest =>
      exact does_registerDescriptorTransactionally artifactPath digest
  | registerEntry key entry => exact does_registerEntryTransactionally entry
  | forgetEntry key => exact does_forgetEntryTransactionally
  | forgetEntries names => exact does_forgetEntriesTransactionally names

/-- Every change leaves the other keys as it finds them. One that fails leaves each key that it touches
with the claim it had, or with one that others have put there, unless it reports that its compensation
is incomplete. -/
theorem run_restores (text : TextTables) (formal : String → FormalFile) (change : ManifestChange)
    (start : ManifestFile) (arrivals : List (Option ManifestFile)) (faults : List Fault) :
    let outcome := change.run text formal (begin start arrivals faults)
    (∀ s', ((∃ changed, outcome = .ok changed s') ∨ ∃ e, outcome = .error e s') →
      Spares lookup start change.touched s'.toShared ∧
      ∀ key ∉ change.touched, lookup s'.file key = lookup (leftByOthers start s'.changes) key) ∧
    ∀ e s', outcome = .error e s' → (∀ detail, e ≠ .rollbackIncomplete detail) →
      ∀ key ∈ change.touched, Restored lookup start s'.toShared key ∧
        ((∀ other ∈ s'.changes, other.writer = .other →
          lookup other.after key = lookup other.before key) →
            lookup s'.file key = lookup start key) := by
  have hclean : Clean start change.touched (begin start arrivals faults).toShared :=
    ⟨⟨rfl, fun _ hmem => (by cases hmem)⟩, fun _ _ => .inl rfl⟩
  have hrun : Does (Clean start change.touched) (change.run text formal)
    (fun _ => Spares lookup start change.touched) (Failed start change.touched) := does_run change
  refine ⟨?_, fun e s' herror hcomplete key hkey => ?_⟩
  · rintro s' (⟨changed, hok⟩ | ⟨e, herror⟩)
    · have hspares := hrun.ok hclean hok
      exact ⟨hspares, fun key hkey => hspares.lookup_eq hkey⟩
    · have hspares := (hrun.error hclean herror).1
      exact ⟨hspares, fun key hkey => hspares.lookup_eq hkey⟩
  · have hrestored := (hrun.error hclean herror).2 hcomplete key hkey
    exact ⟨hrestored, fun hquiet => hrestored.eq_start hquiet⟩

end Changes

private def asciiTables : TextTables where
  repr value := value
  nfc value := value
  casefold value := String.ofList (value.toList.map Char.toLower)

private def sheetOf (name : String) (digit : Char) : ArtifactManifestEntry where
  artifactPath := "characters/" ++ name ++ ".png"
  basisDigest := "sha256-v1:" ++ String.ofList (List.replicate 64 digit)

private def meiKey : String := "artifact-key-v1:WyJhc3NldC1zaGVldCIsImNoYXJhY3RlciIsIk1laSJd"

private def lanKey : String := "artifact-key-v1:WyJhc3NldC1zaGVldCIsImNoYXJhY3RlciIsIkxhbiJd"

private def boKey : String := "artifact-key-v1:WyJhc3NldC1zaGVldCIsImNoYXJhY3RlciIsIkJvIl0"

private def qiKey : String := "artifact-key-v1:WyJhc3NldC1zaGVldCIsImNoYXJhY3RlciIsIlFpIl0"

private def claims (digit : Char) : ManifestFile :=
  .present ⟨[(boKey, sheetOf "Bo" '0'), (meiKey, sheetOf "Mei" digit)],
      (by decide : [boKey, meiKey].Nodup)⟩ true

private def moved (source target : String) (entry : ArtifactManifestEntry) : ArtifactEntryRekeyPlan where
  before := [(source, some entry), (target, none)]
  after := [(source, none), (target, some entry)]
  changed := true
  sameKeys := rfl

private def plans : List ArtifactEntryRekeyPlan :=
  [moved meiKey lanKey (sheetOf "Mei" '1'), moved boKey qiKey (sheetOf "Bo" '0')]

private def errorOf {α : Type} : EStateM.Result ManifestError (Session ManifestFile) α →
    Option ManifestError
  | .ok _ _ => none
  | .error e _ => some e

private def fileOf {α : Type} : EStateM.Result ManifestError (Session ManifestFile) α → ManifestFile
  | .ok _ s => s.file
  | .error _ s => s.file

private def refused : EStateM.Result ManifestError (Session ManifestFile) Bool :=
  ManifestChange.run asciiTables (fun _ => .present) (.rekey meiKey lanKey [])
    (begin (claims '1') [none, none, some (claims '2')] [])

private def halfway : EStateM.Result ManifestError (Session ManifestFile) Unit :=
  commitManifest asciiTables plans (begin (claims '1') [] [.none, .before])

/-- A refused rekey leaves the claim of others, and what follows a rekey does not undo it. -/
theorem refusedRekey_keeps :
    (¬ ∀ (text : TextTables) (formal : String → FormalFile) (change : ManifestChange)
        (start : ManifestFile) (arrivals : List (Option ManifestFile)) (faults : List Fault)
        (e : ManifestError) (s' : Session ManifestFile),
      change.run text formal (begin start arrivals faults) = .error e s' →
      (∀ detail, e ≠ .rollbackIncomplete detail) →
        ∀ key ∈ change.touched, lookup s'.file key = lookup start key) ∧
    ¬ ∀ (text : TextTables) (plans : List ArtifactEntryRekeyPlan) (start : ManifestFile)
        (faults : List Fault) (e : ManifestError) (s' : Session ManifestFile),
      commitManifest text plans (begin start [] faults) = .error e s' →
      (∀ detail, e ≠ .rollbackIncomplete detail) →
        ∀ plan ∈ plans, ∀ key ∈ keys plan.before, lookup s'.file key = lookup start key := by
  constructor
  · intro h
    obtain ⟨hfails, hkept⟩ : errorOf refused =
        some (.manifest "artifact claims changed after the rekey preflight") ∧
      lookup (fileOf refused) meiKey ≠ lookup (claims '1') meiKey := by decide +kernel
    cases hrun : refused with
    | ok changed s' =>
        rw [hrun] at hfails
        cases hfails
    | error e s' =>
        rw [hrun] at hfails hkept
        obtain rfl := Option.some.inj hfails
        exact hkept (h _ _ _ _ _ _ _ _ hrun (fun _ hsame => by cases hsame) meiKey
          List.mem_cons_self)
  · intro h
    obtain ⟨hfails, hkept⟩ : errorOf halfway = some .interrupted ∧
      lookup (fileOf halfway) meiKey ≠ lookup (claims '1') meiKey := by decide +kernel
    cases hrun : halfway with
    | ok changed s' =>
        rw [hrun] at hfails
        cases hfails
    | error e s' =>
        rw [hrun] at hfails hkept
        obtain rfl := Option.some.inj hfails
        exact hkept (h _ _ _ _ _ _ hrun (fun _ hsame => by cases hsame) _ List.mem_cons_self meiKey
          List.mem_cons_self)

end ShortReel.ManifestTransactions
