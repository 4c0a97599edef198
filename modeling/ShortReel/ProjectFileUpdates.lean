import ShortReel.ReplacedFiles
import ShortReel.RestoringTransactions

/-!
# Project files and `project.json` in one update

`_update_project_with_files` of `project_manager.py`: files are staged, put in place one after the
other, and `project.json` is saved behind them. A step that fails has what is in place undone. Paths
lead to entries of directories, and two paths may lead to one.
-/

namespace ShortReel.ProjectFileUpdates

open FallibleStates ReplacedFiles
open RestoringTransactions (Fault)

variable {π φ β σ ε : Type} [DecidableEq φ]

/-- The files, what the hook writes, and what the transaction notes. Each step takes its fault. -/
structure Run (φ β σ : Type) where
  store : Store φ β
  side : σ
  faults : List Fault
  staged : List (φ × ℕ)
  installed : List (Installed φ)
  unrestored : Bool

inductive UpdateError (ε : Type) where
  | os
  | duplicate
  | raised (error : ε)
  | rollbackIncomplete

def Run.next (s : Run φ β σ) : Run φ β σ :=
  { s with faults := s.faults.tail }

def attempt (effect : Store φ β → Option (Store φ β)) :
    EStateM (UpdateError ε) (Run φ β σ) PUnit := fun s =>
  match s.faults.headD .none, effect s.store with
  | .none, some store => .ok ⟨⟩ { s.next with store }
  | _, _ => .error .os s.next

def writeTemporary (place : Place φ) (content : β) :
    EStateM (UpdateError ε) (Run φ β σ) PUnit := fun s =>
  match s.faults.headD .none with
  | .none => .ok ⟨⟩ { s.next with store := put s.store place (some content) }
  | .before => .error .os s.next
  | .after => .error .os { s.next with store := put s.store place (some content) }

def replace (source destination : Place φ) (store : Store φ β) : Option (Store φ β) :=
  if (store source).isSome then some (moved store source destination) else none

def unlink (place : Place φ) (store : Store φ β) : Option (Store φ β) :=
  if (store place).isSome then some (put store place none) else none

/-- `unlink(missing_ok=True)`. -/
def discard (place : Place φ) (store : Store φ β) : Option (Store φ β) :=
  some (put store place none)

def whenThere (place : Place φ) (x : EStateM (UpdateError ε) (Run φ β σ) PUnit) :
    EStateM (UpdateError ε) (Run φ β σ) PUnit := do
  let s ← get
  if (s.store place).isSome then x else pure ⟨⟩

inductive Replacement (π β : Type) where
  | copy (source destination : π)
  | write (content : β) (destination : π)

def Replacement.destination : Replacement π β → π
  | .copy _ destination => destination
  | .write _ destination => destination

structure Change (π β : Type) where
  project : β
  copies : List (π × π)
  writes : List (β × π)

def Change.replacements (change : Change π β) : List (Replacement π β) :=
  change.copies.map (fun copied => .copy copied.1 copied.2) ++
    change.writes.map fun written => .write written.1 written.2

/-- The hook `on_commit`, which reads the files and writes others. A failure may come behind writes. -/
abbrev Hook (φ β σ ε : Type) := Store φ β → σ → Except (ε × σ) σ

section Updates

variable (entry : π → φ) (projectFile : φ)

def Replacement.content (store : Store φ β) : Replacement π β → Option β
  | .copy source _ => store (.file (entry source))
  | .write content _ => some content

def readContent (replacement : Replacement π β) : EStateM (UpdateError ε) (Run φ β σ) β := do
  let s ← get
  match replacement.content entry s.store with
  | none => throw .os
  | some content => pure content

def stage (index : ℕ) (replacement : Replacement π β) :
    EStateM (UpdateError ε) (Run φ β σ) PUnit := do
  attempt some  -- The directory is made.
  let content ← readContent entry replacement
  writeTemporary (.temporary (entry replacement.destination) index) content
  modify fun s =>
    { s with staged := s.staged ++ [(entry replacement.destination, index)] }

def stageAll : ℕ → List (Replacement π β) → EStateM (UpdateError ε) (Run φ β σ) PUnit
  | _, [] => pure ⟨⟩
  | index, replacement :: rest => do
      stage entry index replacement
      stageAll (index + 1) rest

def install (index : ℕ) (destination : φ) : EStateM (UpdateError ε) (Run φ β σ) PUnit := do
  let s ← get
  whenThere (.file destination) (attempt (replace (.file destination) (.backup destination index)))
  modify fun t =>
    { t with installed := t.installed ++ [installing s.store destination index] }
  attempt (replace (.temporary destination index) (.file destination))

def installAll : ℕ → List φ → EStateM (UpdateError ε) (Run φ β σ) PUnit
  | _, [] => pure ⟨⟩
  | index, destination :: rest => do
      install index destination
      installAll (index + 1) rest

def runHook : Option (Hook φ β σ ε) → EStateM (UpdateError ε) (Run φ β σ) PUnit
  | none => pure ⟨⟩
  | some hook => fun s =>
      match hook s.store s.side with
      | .ok side => .ok ⟨⟩ { s with side }
      | .error (error, side) => .error (.raised error) { s with side }

def prepared (prepare : Store φ β → Except ε (Change π β)) :
    EStateM (UpdateError ε) (Run φ β σ) (Change π β) := do
  let s ← get
  match prepare s.store with
  | .error error => throw (.raised error)
  | .ok change => pure change

def checkDistinct [DecidableEq π] (change : Change π β) :
    EStateM (UpdateError ε) (Run φ β σ) PUnit :=
  if (change.replacements.map Replacement.destination).Nodup then pure ⟨⟩ else throw .duplicate

/-- What is done up to the commit. `prepare` is the project read, changed by the callback and
normalised. -/
def body [DecidableEq π] (prepare : Store φ β → Except ε (Change π β))
    (onCommit : Option (Hook φ β σ ε)) : EStateM (UpdateError ε) (Run φ β σ) β := do
  let change ← prepared prepare
  checkDistinct change
  stageAll entry 0 change.replacements
  installAll 0 (change.replacements.map fun replacement => entry replacement.destination)
  attempt fun store => some (put store (.file projectFile) (some change.project))
  runHook onCommit
  pure change.project

def restore (done : Installed φ) : EStateM (UpdateError ε) (Run φ β σ) PUnit :=
  tryCatch
    (do
      whenThere (.file done.destination) (attempt (unlink (.file done.destination)))
      match done.backup with
      | none => pure ⟨⟩
      | some index => attempt (replace (.backup done.destination index) (.file done.destination)))
    fun _ => modify fun s => { s with unrestored := true }

def rollback : EStateM (UpdateError ε) (Run φ β σ) PUnit := do
  let s ← get
  s.installed.reverse.forM restore

def clear (places : List (Place φ)) : EStateM (UpdateError ε) (Run φ β σ) PUnit :=
  places.forM fun place => tryCatch (attempt (discard place)) fun _ => pure ⟨⟩

def temporaries (staged : List (φ × ℕ)) : List (Place φ) :=
  staged.map fun item => .temporary item.1 item.2

def backups (installed : List (Installed φ)) : List (Place φ) :=
  installed.filterMap fun done => done.backup.map (.backup done.destination)

/-- The body with its `except` and its `finally`. -/
def guarded (x : EStateM (UpdateError ε) (Run φ β σ) β) :
    EStateM (UpdateError ε) (Run φ β σ) β := do
  let project ← tryCatch x fun error => do
    rollback
    let s ← get
    clear (temporaries s.staged)
    throw error
  let s ← get
  clear (temporaries s.staged ++ backups s.installed)
  pure project

/-- `formal_write_transaction` of one file. -/
def formalWrite (x : EStateM (UpdateError ε) (Run φ β σ) β) :
    EStateM (UpdateError ε) (Run φ β σ) β := do
  attempt some  -- The snapshot is read.
  let s ← get
  tryCatch x fun error => do
    tryCatch (attempt fun store => some (put store (.file projectFile) (s.store (.file projectFile))))
      fun _ => do
        modify fun t => { t with unrestored := true }
        throw .rollbackIncomplete
    throw error

def updateProjectWithFiles [DecidableEq π] (prepare : Store φ β → Except ε (Change π β))
    (onCommit : Option (Hook φ β σ ε)) : EStateM (UpdateError ε) (Run φ β σ) β :=
  match onCommit with
  | none => guarded (body entry projectFile prepare none)
  | some hook => formalWrite projectFile (guarded (body entry projectFile prepare (some hook)))

end Updates

section Steps

variable {P Q : Run φ β σ → Prop} {E : UpdateError ε → Run φ β σ → Prop}

omit [DecidableEq φ] in
theorem meets_attempt {effect : Store φ β → Option (Store φ β)}
    (hfails : ∀ s, P s → E .os s.next)
    (hdone : ∀ s store, P s → effect s.store = some store → Q { s.next with store }) :
    Meets P (attempt effect) (fun _ => Q) E := by
  intro s hs
  unfold attempt
  cases heffect : effect s.store with
  | none => cases s.faults.headD .none <;> exact hfails s hs
  | some store =>
      cases s.faults.headD .none with
      | none => exact hdone s store hs heffect
      | before | after => exact hfails s hs

theorem meets_writeTemporary {place : Place φ} {content : β}
    (hbefore : ∀ s, P s → E .os s.next)
    (hafter : ∀ s, P s → E .os { s.next with store := put s.store place (some content) })
    (hdone : ∀ s, P s → Q { s.next with store := put s.store place (some content) }) :
    Meets P (writeTemporary place content) (fun _ => Q) E := by
  intro s hs
  unfold writeTemporary
  cases s.faults.headD .none with
  | none => exact hdone s hs
  | before => exact hbefore s hs
  | after => exact hafter s hs

omit [DecidableEq φ] in
theorem meets_whenThere {place : Place φ} {x : EStateM (UpdateError ε) (Run φ β σ) PUnit}
    (hthere : Meets (fun s => P s ∧ (s.store place).isSome = true) x (fun _ => Q) E)
    (hnone : ∀ s, P s → s.store place = none → Q s) :
    Meets P (whenThere place x) (fun _ => Q) E := by
  refine meets_get_bind fun s hs => meets_ite ?_ ?_
  · intro hsome
    exact hthere.pre fun s' hs' => hs' ▸ ⟨hs, hsome⟩
  · intro hnot
    exact meets_pure fun s' hs' => hs' ▸ hnone s hs (Option.not_isSome_iff_eq_none.mp hnot)

end Steps

section Back

variable {E : UpdateError ε → Run φ β σ → Prop} {target : Store φ β → Prop}

def Back (target : Store φ β → Prop) (s : Run φ β σ) : Prop :=
  s.unrestored = true ∨ target s.store

theorem moved_put_none (store : Store φ β) {source place : Place φ} (hne : source ≠ place) :
    moved (put store place none) source place = moved store source place := by
  funext other
  by_cases hplace : other = place
  · rw [hplace, moved_destination, moved_destination, put_of_ne hne]
  · by_cases hsource : other = source
    · rw [hsource, moved_source hne, moved_source hne]
    · rw [moved_of_ne hsource hplace, moved_of_ne hsource hplace, put_of_ne hplace]

theorem meets_restore (done : Installed φ) :
    Meets (fun s : Run φ β σ => Back (fun store => target (undo store done)) s)
      (restore done : EStateM (UpdateError ε) (Run φ β σ) PUnit) (fun _ => Back target) E := by
  refine meets_tryCatch (F := fun _ _ => True) ?_ fun e => meets_modify fun s _ => .inl rfl
  have hcleared : Meets (fun s : Run φ β σ => Back (fun store => target (undo store done)) s)
      (whenThere (.file done.destination) (attempt (unlink (.file done.destination))) :
        EStateM (UpdateError ε) (Run φ β σ) PUnit)
      (fun _ s => s.unrestored = true ∨ ∃ store, target (undo store done) ∧
        s.store = put store (.file done.destination) none) fun _ _ => True := by
    refine meets_whenThere (meets_attempt (fun _ _ => trivial) ?_) ?_
    · rintro s store ⟨hs, hthere⟩ heffect
      rw [unlink, if_pos hthere] at heffect
      exact hs.imp_right fun htarget => ⟨s.store, htarget, (Option.some.inj heffect).symm⟩
    · intro s hs hnone
      refine hs.imp_right fun htarget => ⟨s.store, htarget, ?_⟩
      funext place
      by_cases hplace : place = .file done.destination
      · rw [hplace, put_self, hnone]
      · rw [put_of_ne hplace]
  refine meets_bind hcleared fun _ => ?_
  cases hbackup : done.backup with
  | none =>
      refine meets_pure fun s hs => hs.imp_right ?_
      rintro ⟨store, htarget, hstore⟩
      rw [undo, hbackup] at htarget
      rw [hstore]
      exact htarget
  | some index =>
      refine meets_attempt (fun _ _ => trivial) ?_
      intro s store hs heffect
      refine hs.imp_right ?_
      rintro ⟨before, htarget, hstore⟩
      rw [undo, hbackup] at htarget
      rw [replace] at heffect
      split_ifs at heffect
      rw [← Option.some.inj heffect, hstore, moved_put_none _ (by rintro ⟨⟩)]
      exact htarget

theorem meets_restores (installed : List (Installed φ)) :
    Meets (fun s : Run φ β σ => Back (fun store => target (installed.foldl undo store)) s)
      (installed.forM restore : EStateM (UpdateError ε) (Run φ β σ) PUnit) (fun _ => Back target)
      E := by
  induction installed with
  | nil => exact meets_pure fun s hs => hs
  | cons done rest ih =>
      have hdone := @meets_restore φ β σ ε _ E (fun store => target (rest.foldl undo store)) done
      exact meets_bind hdone fun _ => ih

theorem meets_clear {places : List (Place φ)} {R : Bool → Store φ β → Prop}
    (hcleared : ∀ flag store, ∀ place ∈ places, R flag store → R flag (put store place none)) :
    Meets (fun s : Run φ β σ => R s.unrestored s.store)
      (clear places : EStateM (UpdateError ε) (Run φ β σ) PUnit)
      (fun _ s => R s.unrestored s.store) E := by
  refine meets_forM fun place hplace =>
    meets_tryCatch (F := fun _ s => R s.unrestored s.store) ?_ fun _ => meets_pure fun _ hs => hs
  refine meets_attempt (fun _ hs => hs) ?_
  intro s store hs heffect
  rw [← Option.some.inj heffect]
  exact hcleared s.unrestored s.store place hplace hs

theorem put_file {place : Place φ} {staged : List (φ × ℕ)} {installed : List (Installed φ)}
    (h : place ∈ temporaries staged ++ backups installed) (store : Store φ β) (f : φ) :
    put store place none (.file f) = store (.file f) := by
  refine put_of_ne ?_
  rintro rfl
  rcases List.mem_append.mp h with hstaged | hinstalled
  · obtain ⟨item, -, heq⟩ := List.mem_map.mp hstaged
    cases heq
  · obtain ⟨done, -, heq⟩ := List.mem_filterMap.mp hinstalled
    obtain ⟨index, -, heq⟩ := Option.map_eq_some_iff.mp heq
    cases heq

end Back

section Forward

variable (entry : π → φ) (projectFile : φ) (start : Store φ β) (replacements : List (Replacement π β))

structure Staging (count : ℕ) (s : Run φ β σ) : Prop where
  files : ∀ f, s.store (.file f) = start (.file f)
  installed : s.installed = []
  temporaries : ∀ index < count, ∀ r, replacements[index]? = some r →
    s.store (.temporary (entry r.destination) index) = r.content entry start

structure Installing (count : ℕ) (s : Run φ β σ) : Prop where
  files : ∀ f, undoAll s.store s.installed (.file f) = start (.file f)
  bounded : ∀ done ∈ s.installed, ∀ index, done.backup = some index → index < count
  temporaries : ∀ index, count ≤ index → ∀ r, replacements[index]? = some r →
    s.store (.temporary (entry r.destination) index) = r.content entry start
  placed : ∀ index < count, ∀ r, replacements[index]? = some r →
    (∀ later r', index < later → later < count → replacements[later]? = some r' →
      entry r'.destination ≠ entry r.destination) →
    s.store (.file (entry r.destination)) = r.content entry start

def Undoable (among : φ → Prop) (s : Run φ β σ) : Prop :=
  ∀ f, among f → undoAll s.store s.installed (.file f) = start (.file f)

variable {entry projectFile start replacements} {among : φ → Prop} {count : ℕ}
  {r : Replacement π β}

omit [DecidableEq φ] in
theorem Replacement.content_congr {store : Store φ β} (h : ∀ f, store (.file f) = start (.file f)) :
    r.content entry store = r.content entry start := by
  cases r with
  | copy source destination => exact h _
  | write content destination => rfl

theorem Staging.undoable {s : Run φ β σ} (h : Staging entry start replacements count s) :
    Undoable start among s := by
  intro f _
  rw [h.installed]
  exact h.files f

theorem Staging.put {s t : Run φ β σ} (h : Staging entry start replacements count s)
    (hr : replacements[count]? = some r) {content : β} (hcontent : r.content entry start = some content)
    (hstore : t.store = put s.store (.temporary (entry r.destination) count) (some content))
    (hinstalled : t.installed = s.installed) :
    Staging entry start replacements (count + 1) t := by
  refine ⟨?_, hinstalled.trans h.installed, ?_⟩
  · intro f
    rw [hstore, put_of_ne (by rintro ⟨⟩), h.files]
  · intro index hindex other hother
    rcases Nat.lt_succ_iff_lt_or_eq.mp hindex with hlt | rfl
    · have hne : Place.temporary (entry other.destination) index ≠
          .temporary (entry r.destination) count := by
        intro heq
        exact Nat.ne_of_lt hlt (Place.temporary.inj heq).2
      rw [hstore, put_of_ne hne, h.temporaries index hlt other hother]
    · obtain rfl := Option.some.inj (hr.symm.trans hother)
      rw [hstore, put_self, hcontent]

theorem meets_stage (hr : replacements[count]? = some r) :
    Meets (Staging entry start replacements count)
      (stage entry count r : EStateM (UpdateError ε) (Run φ β σ) PUnit)
      (fun _ => Staging entry start replacements (count + 1)) fun _ => Undoable start among := by
  have hsame : ∀ {s t : Run φ β σ}, Staging entry start replacements count s →
      t.store = s.store → t.installed = s.installed → Staging entry start replacements count t :=
    fun h hstore hinstalled => ⟨fun f => by rw [hstore, h.files], hinstalled.trans h.installed,
      fun index hindex other hother => by rw [hstore, h.temporaries index hindex other hother]⟩
  refine meets_bind (Q := fun _ => Staging entry start replacements count) ?_ fun _ => ?_
  · refine meets_attempt (fun s hs => (hsame hs rfl rfl).undoable) ?_
    intro s store hs heffect
    obtain rfl := Option.some.inj heffect
    exact hsame hs rfl rfl
  refine meets_bind (Q := fun content s => Staging entry start replacements count s ∧
    r.content entry start = some content) ?_ fun content => ?_
  · refine meets_get_bind fun s hs => ?_
    cases hcontent : r.content entry s.store with
    | none => exact meets_throw fun t ht => ht ▸ hs.undoable
    | some content =>
        refine meets_pure fun t ht => ht ▸ ⟨hs, ?_⟩
        rw [← Replacement.content_congr hs.files, hcontent]
  refine meets_bind (Q := fun _ => Staging entry start replacements (count + 1)) ?_ fun _ => ?_
  · refine meets_writeTemporary (fun s hs => (hsame hs.1 rfl rfl).undoable) ?_ ?_
    · exact fun s hs => Staging.undoable <| hs.1.put hr hs.2 rfl rfl
    · exact fun s hs => hs.1.put hr hs.2 rfl rfl
  · exact meets_modify fun s hs => ⟨hs.files, hs.installed, hs.temporaries⟩

theorem meets_stageAll {rest : List (Replacement π β)} (hrest : replacements.drop count = rest) :
    Meets (Staging entry start replacements count)
      (stageAll entry count rest : EStateM (UpdateError ε) (Run φ β σ) PUnit)
      (fun _ => Staging entry start replacements (count + rest.length))
      fun _ => Undoable start among := by
  induction rest generalizing count with
  | nil => exact meets_pure fun _ hs => hs
  | cons r rest ih =>
      have hr : replacements[count]? = some r := by
        rw [← List.head?_drop, hrest]
        rfl
      have hdrop : replacements.drop (count + 1) = rest := by
        rw [← List.tail_drop, hrest]
        rfl
      refine meets_bind (meets_stage hr) fun _ => ?_
      have hall := ih hdrop
      rwa [Nat.add_right_comm, Nat.add_assoc] at hall

theorem Staging.installing {s : Run φ β σ}
    (h : Staging entry start replacements replacements.length s) :
    Installing entry start replacements 0 s := by
  refine ⟨?_, ?_, ?_, ?_⟩
  · intro f
    rw [h.installed]
    exact h.files f
  · intro done hdone
    rw [h.installed] at hdone
    cases hdone
  · intro index _ other hother
    exact h.temporaries index (List.getElem?_eq_some_iff.mp hother).1 other hother
  · intro index hindex
    exact absurd hindex (Nat.not_lt_zero _)

theorem Installing.undoable {s : Run φ β σ} (h : Installing entry start replacements count s) :
    Undoable start among s :=
  fun f _ => h.files f

theorem Installing.files_concat {s : Run φ β σ} (h : Installing entry start replacements count s)
    {store : Store φ β} {done : Installed φ}
    (hstore : Alike (fun _ => True) count (undo store done) s.store) (f : φ) :
    undoAll store (s.installed ++ [done]) (.file f) = start (.file f) := by
  rw [undoAll_concat, (hstore.undoAll h.bounded).files f trivial, h.files]

theorem Installing.next {s t : Run φ β σ} (h : Installing entry start replacements count s)
    (hr : replacements[count]? = some r)
    (hstore : t.store = moved (backedUp s.store (entry r.destination) count)
      (.temporary (entry r.destination) count) (.file (entry r.destination)))
    (hinstalled : t.installed =
      s.installed ++ [installing s.store (entry r.destination) count]) :
    Installing entry start replacements (count + 1) t := by
  have hother : ∀ {place : Place φ}, place ≠ .file (entry r.destination) →
      place ≠ .backup (entry r.destination) count →
      place ≠ .temporary (entry r.destination) count → t.store place = s.store place := by
    intro place hfile hbackup htemporary
    rw [hstore, moved_of_ne htemporary hfile, backedUp_of_ne hfile hbackup]
  refine ⟨?_, ?_, ?_, ?_⟩
  · intro f
    rw [hstore, hinstalled]
    exact h.files_concat (alike_installed _ _) f
  · intro done hdone index hindex
    rw [hinstalled] at hdone
    rcases List.mem_append.mp hdone with hbefore | hlast
    · exact Nat.lt_succ_of_lt (h.bounded done hbefore index hindex)
    · obtain rfl := List.mem_singleton.mp hlast
      exact Nat.lt_succ_of_le (Nat.le_of_eq (installing_backup hindex))
  · intro index hindex other hother'
    rw [hother (by rintro ⟨⟩) (by rintro ⟨⟩) ?_, h.temporaries index (Nat.le_of_lt hindex) other hother']
    intro heq
    exact Nat.ne_of_gt hindex (Place.temporary.inj heq).2
  · intro index hindex other hother' hlast
    rcases Nat.lt_succ_iff_lt_or_eq.mp hindex with hlt | rfl
    · have hne : Place.file (entry other.destination) ≠ .file (entry r.destination) := by
        intro heq
        exact hlast count r hlt (Nat.lt_succ_self _) hr (Place.file.inj heq).symm
      rw [hother hne (by rintro ⟨⟩) (by rintro ⟨⟩)]
      exact h.placed index hlt other hother' fun later r' hlater hbound =>
        hlast later r' hlater (Nat.lt_succ_of_lt hbound)
    · obtain rfl := Option.some.inj (hr.symm.trans hother')
      rw [hstore, moved_destination, backedUp_of_ne (by rintro ⟨⟩) (by rintro ⟨⟩)]
      exact h.temporaries index (Nat.le_refl _) r hr

theorem meets_install (hr : replacements[count]? = some r) :
    Meets (Installing entry start replacements count)
      (install count (entry r.destination) : EStateM (UpdateError ε) (Run φ β σ) PUnit)
      (fun _ => Installing entry start replacements (count + 1)) fun _ => Undoable start among := by
  refine meets_get_bind fun s hs => ?_
  have hbacked : Meets (· = s) (whenThere (.file (entry r.destination))
      (attempt (replace (.file (entry r.destination)) (.backup (entry r.destination) count))) :
        EStateM (UpdateError ε) (Run φ β σ) PUnit)
      (fun _ t => t.store = backedUp s.store (entry r.destination) count ∧
        t.installed = s.installed) fun _ => Undoable start among := by
    refine meets_whenThere (meets_attempt ?_ ?_) ?_
    · rintro t ⟨rfl, -⟩
      exact hs.undoable
    · rintro t store ⟨rfl, hthere⟩ heffect
      rw [replace, if_pos hthere] at heffect
      refine ⟨?_, rfl⟩
      rw [backedUp, if_pos hthere]
      exact (Option.some.inj heffect).symm
    · rintro t rfl hnone
      refine ⟨?_, rfl⟩
      rw [backedUp, hnone]
      rfl
  refine meets_bind hbacked fun _ => ?_
  refine meets_bind (Q := fun _ t => t.store = backedUp s.store (entry r.destination) count ∧
    t.installed = s.installed ++ [installing s.store (entry r.destination) count]) ?_ fun _ => ?_
  · refine meets_modify fun t ht => ⟨ht.1, ?_⟩
    change t.installed ++ _ = _
    rw [ht.2]
  · refine meets_attempt ?_ ?_
    · rintro t ⟨hstore, hinstalled⟩ f -
      change undoAll t.store t.installed (.file f) = start (.file f)
      rw [hstore, hinstalled]
      exact hs.files_concat (alike_backedUp _) f
    · rintro t store ⟨hstore, hinstalled⟩ heffect
      rw [replace] at heffect
      split_ifs at heffect
      refine hs.next hr ?_ hinstalled
      rw [← hstore]
      exact (Option.some.inj heffect).symm

theorem meets_installAll {rest : List (Replacement π β)} (hrest : replacements.drop count = rest) :
    Meets (Installing entry start replacements count)
      (installAll count (rest.map fun replacement => entry replacement.destination) :
        EStateM (UpdateError ε) (Run φ β σ) PUnit)
      (fun _ => Installing entry start replacements (count + rest.length))
      fun _ => Undoable start among := by
  induction rest generalizing count with
  | nil => exact meets_pure fun _ hs => hs
  | cons r rest ih =>
      have hr : replacements[count]? = some r := by
        rw [← List.head?_drop, hrest]
        rfl
      have hdrop : replacements.drop (count + 1) = rest := by
        rw [← List.tail_drop, hrest]
        rfl
      refine meets_bind (meets_install hr) fun _ => ?_
      have hall := ih hdrop
      rwa [Nat.add_right_comm, Nat.add_assoc] at hall

end Forward

section Whole

variable (entry : π → φ) (projectFile : φ)

/-- The new project is saved. A destination has its content if no later one leads to the same file, and
it does not lead to the project's. -/
def Committed (start : Store φ β) (change : Change π β) (store : Store φ β) : Prop :=
  store (.file projectFile) = some change.project ∧
    ∀ (index : ℕ) (r : Replacement π β), change.replacements[index]? = some r →
      entry r.destination ≠ projectFile →
      (∀ (later : ℕ) (r' : Replacement π β), index < later → change.replacements[later]? = some r' →
        entry r'.destination ≠ entry r.destination) →
      store (.file (entry r.destination)) = r.content entry start

def Run.begin (store : Store φ β) (side : σ) (faults : List Fault) : Run φ β σ where
  store
  side
  faults
  staged := []
  installed := []
  unrestored := false

variable {entry projectFile} {start : Store φ β} {prepare : Store φ β → Except ε (Change π β)}
  {onCommit : Option (Hook φ β σ ε)} {among : φ → Prop}

omit [DecidableEq φ] in
theorem Committed.congr {change : Change π β} {store store' : Store φ β}
    (h : Committed entry projectFile start change store)
    (hfiles : ∀ f, store' (.file f) = store (.file f)) :
    Committed entry projectFile start change store' :=
  ⟨by rw [hfiles, h.1], fun index r hr hproject hlast => by rw [hfiles, h.2 index r hr hproject hlast]⟩

theorem meets_prepared :
    Meets (fun s => s.store = start ∧ s.installed = [])
      (prepared prepare : EStateM (UpdateError ε) (Run φ β σ) (Change π β))
      (fun change s => prepare start = .ok change ∧ s.store = start ∧ s.installed = [])
      fun _ => Undoable start among := by
  refine meets_get_bind fun s hs => ?_
  cases hprepare : prepare s.store with
  | error error =>
      refine meets_throw fun t ht f _ => ?_
      rw [ht, hs.1, hs.2]
      rfl
  | ok change => exact meets_pure fun t ht => ht ▸ ⟨hs.1 ▸ hprepare, hs⟩

theorem Installing.saved {change : Change π β} {s : Run φ β σ}
    (h : Installing entry start change.replacements change.replacements.length s) :
    Committed entry projectFile start change
        (put s.store (.file projectFile) (some change.project)) ∧
      ∀ f, f ≠ projectFile →
        undoAll (put s.store (.file projectFile) (some change.project)) s.installed (.file f) =
          start (.file f) := by
  refine ⟨⟨put_self, ?_⟩, ?_⟩
  · intro index r hr hproject hlast
    rw [put_of_ne fun heq => hproject (Place.file.inj heq)]
    exact h.placed index (List.getElem?_eq_some_iff.mp hr).1 r hr
      fun later r' hlater _ => hlast later r' hlater
  · intro f hf
    have halike : Alike (· ≠ projectFile) change.replacements.length
        (put s.store (.file projectFile) (some change.project)) s.store :=
      ⟨fun g hg => put_of_ne fun heq => hg (Place.file.inj heq),
        fun _ _ _ => put_of_ne (by rintro ⟨⟩)⟩
    rw [(halike.undoAll h.bounded).files f hf, h.files]

omit [DecidableEq φ] in
theorem meets_runHook {P : Run φ β σ → Prop} {E : UpdateError ε → Run φ β σ → Prop}
    (hP : ∀ s side, P s → P { s with side })
    (hE : ∀ error s, onCommit ≠ none → P s → E error s) :
    Meets P (runHook onCommit : EStateM (UpdateError ε) (Run φ β σ) PUnit) (fun _ => P) E := by
  cases onCommit with
  | none => exact meets_pure fun _ hs => hs
  | some hook =>
      intro s hs
      unfold runHook
      dsimp only
      cases hook s.store s.side with
      | ok side => exact hP s side hs
      | error failure => exact hE _ _ (Option.some_ne_none _) (hP s failure.2 hs)

theorem meets_body [DecidableEq π] :
    Meets (fun s => s.store = start ∧ s.installed = [])
      (body entry projectFile prepare onCommit : EStateM (UpdateError ε) (Run φ β σ) β)
      (fun project s => ∃ change, prepare start = .ok change ∧ project = change.project ∧
        Committed entry projectFile start change s.store)
      fun _ => Undoable start fun f => f ≠ projectFile ∨ onCommit = none := by
  refine meets_bind meets_prepared fun change => meets_of_forall fun s hs => ?_
  obtain ⟨hchange, hstore, hinstalled⟩ := hs
  have hstaging : Staging entry start change.replacements 0 s :=
    ⟨fun f => by rw [hstore], hinstalled, fun index hindex => absurd hindex (Nat.not_lt_zero _)⟩
  refine meets_bind (Q := fun _ => Staging entry start change.replacements 0) ?_ fun _ => ?_
  · refine meets_ite (fun _ => meets_pure fun t ht => ht ▸ hstaging)
      fun _ => meets_throw fun t ht => ht ▸ hstaging.undoable
  refine meets_bind (meets_stageAll (List.drop_zero)) fun _ => ?_
  have hinstall := @meets_installAll π φ β σ ε _ entry start change.replacements
    (fun f => f ≠ projectFile ∨ onCommit = none) 0 _ List.drop_zero
  rw [Nat.zero_add] at hinstall ⊢
  refine meets_bind (hinstall.pre fun t => Staging.installing) fun _ => ?_
  refine meets_bind (Q := fun _ t => Committed entry projectFile start change t.store ∧
    ∀ f, f ≠ projectFile → undoAll t.store t.installed (.file f) = start (.file f)) ?_ fun _ => ?_
  · refine meets_attempt (fun t ht => ht.undoable) ?_
    intro t store ht heffect
    obtain rfl := Option.some.inj heffect
    exact ht.saved
  refine meets_bind (meets_runHook (fun t side ht => ht) ?_) fun _ => ?_
  · rintro error t hsome ⟨-, hback⟩ f (hf | hnone)
    · exact hback f hf
    · exact absurd hnone hsome
  · exact meets_pure fun t ht => ⟨change, hchange, rfl, ht.1⟩

theorem meets_guarded {x : EStateM (UpdateError ε) (Run φ β σ) β} {P : Run φ β σ → Prop}
    {Q : β → Store φ β → Prop}
    (hx : Meets P x (fun project s => Q project s.store) fun _ => Undoable start among)
    (hQ : ∀ project store store', Q project store → (∀ f, store' (.file f) = store (.file f)) →
      Q project store') :
    Meets P (guarded x) (fun project s => Q project s.store)
      fun _ => Back fun store => ∀ f, among f → store (.file f) = start (.file f) := by
  have hback : ∀ error : UpdateError ε, Meets (Undoable start among)
      (do
        rollback
        let s ← get
        clear (temporaries s.staged)
        throw error : EStateM (UpdateError ε) (Run φ β σ) β)
      (fun project s => Q project s.store)
      fun _ => Back fun store => ∀ f, among f → store (.file f) = start (.file f) := by
    intro error
    refine meets_bind (Q := fun _ => Back fun store => ∀ f, among f →
      store (.file f) = start (.file f)) ?_ fun _ => ?_
    · refine meets_get_bind fun s hs => ?_
      refine (meets_restores s.installed.reverse).pre fun t ht => .inr ?_
      rw [ht]
      exact hs
    refine meets_get_bind fun s hs => ?_
    have hclear := @meets_clear φ β σ ε _
      (fun _ => Back fun store => ∀ f, among f → store (.file f) = start (.file f))
      (temporaries s.staged)
      (fun flag store => flag = true ∨ ∀ f, among f → store (.file f) = start (.file f)) ?_
    · exact meets_bind (hclear.pre fun t ht => ht ▸ hs) fun _ => meets_throw fun t ht => ht
    · rintro flag store place hplace (hflag | hfiles)
      · exact .inl hflag
      · refine .inr fun f hf => ?_
        rw [put_file (List.mem_append_left (backups []) hplace), hfiles f hf]
  refine meets_bind (meets_tryCatch hx hback) fun project => meets_get_bind fun s hs => ?_
  refine meets_bind (Q := fun _ t => Q project t.store) ?_ fun _ => meets_pure fun t ht => ht
  have hclear := @meets_clear φ β σ ε _
    (fun _ => Back fun store => ∀ f, among f → store (.file f) = start (.file f))
    (temporaries s.staged ++ backups s.installed) (fun _ store => Q project store)
    fun _ store place hplace hstore => hQ project store _ hstore (put_file hplace store)
  exact hclear.pre fun t ht => ht ▸ hs

theorem meets_formalWrite {x : EStateM (UpdateError ε) (Run φ β σ) β} {Q : β → Run φ β σ → Prop}
    (hx : Meets (fun s => s.store = start ∧ s.installed = []) x Q fun _ =>
      Back fun store => ∀ f, f ≠ projectFile → store (.file f) = start (.file f)) :
    Meets (fun s => s.store = start ∧ s.installed = []) (formalWrite projectFile x) Q
      fun _ => Back fun store => ∀ f, store (.file f) = start (.file f) := by
  refine meets_bind (Q := fun _ s => s.store = start ∧ s.installed = []) ?_ fun _ => ?_
  · refine meets_attempt ?_ ?_
    · rintro s ⟨rfl, -⟩
      exact .inr fun f => rfl
    · rintro s store hs heffect
      obtain rfl := Option.some.inj heffect
      exact hs
  refine meets_get_bind fun s hs => ?_
  refine meets_tryCatch (hx.pre fun t ht => ht ▸ hs) fun error => ?_
  refine meets_bind (Q := fun _ => Back fun store => ∀ f, store (.file f) = start (.file f)) ?_
    fun _ => meets_throw fun t ht => ht
  refine meets_tryCatch (F := fun _ _ => True) (meets_attempt (fun _ _ => trivial) ?_) fun _ => ?_
  · rintro t store hback heffect
    refine hback.imp_right fun hfiles f => ?_
    rw [← Option.some.inj heffect, hs.1]
    change put t.store (.file projectFile) (start (.file projectFile)) (.file f) = start (.file f)
    by_cases heq : f = projectFile
    · rw [heq, put_self]
    · rw [put_of_ne fun h => heq (Place.file.inj h), hfiles f heq]
  · refine meets_bind (Q := fun _ t => t.unrestored = true) (meets_modify fun _ _ => rfl) fun _ => ?_
    exact meets_throw fun t ht => .inl ht

/-- A run that returns has committed. A run that fails leaves every file as it was, unless one could
not be put back. -/
theorem updateProjectWithFiles_restores (entry : π → φ) (projectFile : φ) [DecidableEq π]
    (prepare : Store φ β → Except ε (Change π β)) (onCommit : Option (Hook φ β σ ε))
    (store : Store φ β) (side : σ) (faults : List Fault) :
    Meets (· = .begin store side faults)
      (updateProjectWithFiles entry projectFile prepare onCommit)
      (fun project s => ∃ change, prepare store = .ok change ∧ project = change.project ∧
        Committed entry projectFile store change s.store)
      fun _ s => s.unrestored = false → ∀ f, s.store (.file f) = store (.file f) := by
  have hguarded := @meets_guarded φ β σ ε _ store (fun f => f ≠ projectFile ∨ onCommit = none)
    (body entry projectFile prepare onCommit) (fun s => s.store = store ∧ s.installed = [])
    (fun project after => ∃ change, prepare store = .ok change ∧ project = change.project ∧
      Committed entry projectFile store change after) meets_body
    fun project before after ⟨change, hchange, hproject, hcommitted⟩ hfiles =>
      ⟨change, hchange, hproject, hcommitted.congr hfiles⟩
  have hall : Meets (fun s : Run φ β σ => s.store = store ∧ s.installed = [])
      (updateProjectWithFiles entry projectFile prepare onCommit)
      (fun project s => ∃ change, prepare store = .ok change ∧ project = change.project ∧
        Committed entry projectFile store change s.store)
      fun _ => Back fun after => ∀ f, after (.file f) = store (.file f) := by
    cases onCommit with
    | none =>
        refine hguarded.mono (fun _ hs => hs) (fun _ _ hs => hs) fun e s hs => ?_
        exact hs.imp_right fun hfiles f => hfiles f (.inr rfl)
    | some hook =>
        refine meets_formalWrite (hguarded.mono (fun _ hs => hs) (fun _ _ hs => hs) fun e s hs => ?_)
        exact hs.imp_right fun hfiles f hf => hfiles f (.inl hf)
  refine hall.mono ?_ (fun _ _ hs => hs) ?_
  · rintro s rfl
    exact ⟨rfl, rfl⟩
  · rintro e s (hflag | hfiles) hunrestored
    · rw [hflag] at hunrestored
      cases hunrestored
    · exact hfiles

end Whole

private def onlyProject : Store String ℕ
  | .file "project.json" => some 0
  | _ => none

private def entryOf (path : String) : String :=
  if path = "refs/../a.png" then "a.png" else path

private def writesTo (writes : List (ℕ × String)) : Store String ℕ → Except Unit (Change String ℕ) :=
  fun _ => .ok { project := 9, copies := [], writes }

/-- Of two contents that one file is to have, the later stays. -/
theorem coinciding_overwritten :
    (∃ s, updateProjectWithFiles entryOf "project.json" (writesTo [(1, "project.json")]) none
        (.begin onlyProject () []) = .ok 9 s ∧ s.store (.file "project.json") ≠ some 1) ∧
      ∃ s, updateProjectWithFiles entryOf "project.json"
        (writesTo [(1, "a.png"), (2, "refs/../a.png")]) none (.begin onlyProject () []) = .ok 9 s ∧
          s.store (.file "a.png") ≠ some 1 :=
  ⟨⟨_, rfl, by decide⟩, ⟨_, rfl, by decide⟩⟩

end ShortReel.ProjectFileUpdates
