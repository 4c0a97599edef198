import ShortReel.FallibleStates
import ShortReel.VersionStore

/-!
# Steps of the version store

What each step on the disk may do, whether it succeeds or not, and what a rollback undoes.
-/

namespace ShortReel.VersionSteps

open FallibleStates ResourcePaths VersionStore

section Writes

variable (disk : Disk) {path other : String} (bytes : Option Bytes)

@[simp]
theorem writeSnapshot_self : (disk.writeSnapshot path bytes).snapshots path = bytes :=
  Function.update_self _ _ _

@[simp]
theorem writeFormal_self : (disk.writeFormal path bytes).formal path = bytes :=
  Function.update_self _ _ _

theorem writeSnapshot_of_ne (h : other ≠ path) :
    (disk.writeSnapshot path bytes).snapshots other = disk.snapshots other :=
  Function.update_of_ne h _ _

theorem writeFormal_of_ne (h : other ≠ path) :
    (disk.writeFormal path bytes).formal other = disk.formal other :=
  Function.update_of_ne h _ _

end Writes

section Steps

variable {P : Session → Prop} {E : VersionError → Session → Prop}

def drawn (s : Session) : Session :=
  { s with faults := s.faults.tail }

theorem meets_nextFault :
    Meets P nextFault (fun fault s => ∃ s₀, P s₀ ∧ s₀.faults.headD .none = fault ∧ s = drawn s₀) E :=
  fun s hs => ⟨s, hs, rfl, rfl⟩

variable {Q : Unit → Session → Prop}

theorem meets_attempt_drawn {effect : Disk → Option Disk}
    (hstop : ∀ s left, P s → s.faults.headD .none = .stops left → E .failed (drawn s))
    (hfail : ∀ s, P s → s.faults.headD .none = .none → effect s.disk = none → E .failed (drawn s))
    (hdone : ∀ s disk, P s → s.faults.headD .none = .none → effect s.disk = some disk →
      Q () { drawn s with disk }) :
    Meets P (attempt effect) Q E := by
  refine meets_bind meets_nextFault fun fault => ?_
  cases fault with
  | stops left =>
      refine meets_throw ?_
      rintro _ ⟨s, hs, hfault, rfl⟩
      exact hstop s left hs hfault
  | none =>
      refine meets_get_bind ?_
      rintro _ ⟨s, hs, hfault, rfl⟩
      cases heffect : effect (drawn s).disk with
      | none =>
          refine meets_throw ?_
          rintro _ rfl
          exact hfail s hs hfault heffect
      | some disk =>
          refine meets_modify ?_
          rintro _ rfl
          exact hdone s disk hs hfault heffect

theorem meets_attempt {effect : Disk → Option Disk}
    (hfail : ∀ s faults, P s → E .failed { s with faults })
    (hdone : ∀ s faults disk, P s → effect s.disk = some disk → Q () { s with faults, disk }) :
    Meets P (attempt effect) Q E :=
  meets_attempt_drawn (fun s _ hs _ => hfail s _ hs) (fun s hs _ _ => hfail s _ hs)
    fun s disk hs _ heffect => hdone s _ disk hs heffect

theorem meets_copyToSnapshot_drawn {source : Source} {path : String}
    (hstop : ∀ s, P s → s.faults.headD .none = .stops none → E .failed (drawn s))
    (hleft : ∀ s bytes, P s → s.faults.headD .none = .stops (some bytes) →
      E .failed (leaveSnapshot path bytes (drawn s)))
    (hfail : ∀ s, P s → s.faults.headD .none = .none → source.read s.disk = none →
      E .failed (drawn s))
    (hdone : ∀ s bytes, P s → s.faults.headD .none = .none → source.read s.disk = some bytes →
      Q () { drawn s with disk := s.disk.writeSnapshot path (some bytes) }) :
    Meets P (copyToSnapshot source path) Q E := by
  refine meets_bind meets_nextFault fun fault => ?_
  cases fault with
  | stops left =>
      cases left with
      | none =>
          refine meets_throw ?_
          rintro _ ⟨s, hs, hfault, rfl⟩
          exact hstop s hs hfault
      | some bytes =>
          refine meets_bind (Q := fun _ s => E .failed s) (meets_modify ?_) fun _ =>
            meets_throw fun _ => id
          rintro _ ⟨s, hs, hfault, rfl⟩
          exact hleft s bytes hs hfault
  | none =>
      refine meets_get_bind ?_
      rintro _ ⟨s, hs, hfault, rfl⟩
      cases hread : source.read (drawn s).disk with
      | none =>
          refine meets_throw ?_
          rintro _ rfl
          exact hfail s hs hfault hread
      | some bytes =>
          refine meets_modify ?_
          rintro _ rfl
          exact hdone s bytes hs hfault hread

theorem meets_copyToFormal {path file : String}
    (hfail : ∀ s faults, P s → E .failed { s with faults })
    (hleft : ∀ s faults bytes, P s →
      E .failed { s with faults, disk := s.disk.writeFormal file (some bytes) })
    (hdone : ∀ s faults bytes, P s → s.disk.snapshots path = some bytes →
      Q () { s with faults, disk := s.disk.writeFormal file (some bytes) }) :
    Meets P (copyToFormal path file) Q E := by
  refine meets_bind meets_nextFault fun fault => ?_
  cases fault with
  | stops left =>
      cases left with
      | none =>
          refine meets_throw ?_
          rintro _ ⟨s, hs, -, rfl⟩
          exact hfail s _ hs
      | some bytes =>
          refine meets_bind (Q := fun _ s => E .failed s) (meets_modify ?_) fun _ =>
            meets_throw fun _ => id
          rintro _ ⟨s, hs, -, rfl⟩
          exact hleft s _ bytes hs
  | none =>
      refine meets_get_bind ?_
      rintro _ ⟨s, hs, -, rfl⟩
      cases hread : (drawn s).disk.snapshots path with
      | none =>
          refine meets_throw ?_
          rintro _ rfl
          exact hfail s _ hs
      | some bytes =>
          refine meets_modify ?_
          rintro _ rfl
          exact hdone s _ bytes hs hread

theorem meets_backupCurrent {file : String} {Q : Bool → Session → Prop}
    (hnone : ∀ s, P s → s.disk.formal file = none →
      Q false { s with states := s.states ++ [(file, none)] })
    (hfail : ∀ s faults, P s → E .failed { s with faults })
    (hsome : ∀ s faults bytes, P s → s.disk.formal file = some bytes →
      Q true { s with faults, states := s.states ++ [(file, some bytes)] }) :
    Meets P (backupCurrent file) Q E := by
  refine meets_get_bind fun s hs => ?_
  cases hformal : s.disk.formal file with
  | none =>
      refine meets_bind (Q := fun _ => Q false) (meets_modify ?_) fun _ => meets_pure fun _ => id
      rintro s' rfl
      exact hnone s' hs hformal
  | some bytes =>
      refine meets_bind (Q := fun _ s' => ∃ faults, s' = { s with faults }) (meets_attempt ?_ ?_)
        fun _ => meets_bind (Q := fun _ => Q true) (meets_modify ?_) fun _ => meets_pure fun _ => id
      · rintro s' faults rfl
        exact hfail s' faults hs
      · rintro s' faults disk rfl heffect
        cases heffect
        exact ⟨faults, rfl⟩
      · rintro _ ⟨faults, rfl⟩
        exact hsome s faults bytes hs hformal

end Steps

section Records

variable {P : Session → Prop} {E : VersionError → Session → Prop} (resource : Resource)

def newVersion (s : Session) : ℕ :=
  nextVersion (dataOf s.data resource).versions

def newPath (s : Session) : String :=
  versionSnapshotRelativePath resource (newVersion resource s) (s.now s.ticks)

def appending (loggedFirst : Bool) (faults : List Fault) (s : Session) : Session :=
  { s with
    faults
    ticks := s.ticks + 1
    created := if loggedFirst then s.created ++ [newPath resource s] else s.created }

def withRecord (selects : Bool) (prompt : String) (bytes : Bytes) (faults : List Fault)
    (s : Session) : Session :=
  { s with
    disk := s.disk.writeSnapshot (newPath resource s) (some bytes)
    faults
    ticks := s.ticks + 1
    created := s.created ++ [newPath resource s]
    data := Function.update s.data resource
      (some (appended (dataOf s.data resource) (newPath resource s) prompt selects)) }

theorem meets_appendRecord_drawn {loggedFirst selects : Bool} {source : Source} {prompt : String}
    {Q : ℕ → Session → Prop}
    (hstop : ∀ s, P s → s.faults.headD .none = .stops none →
      E .failed (appending resource loggedFirst s.faults.tail s))
    (hleft : ∀ s bytes, P s → s.faults.headD .none = .stops (some bytes) → E .failed
      (leaveSnapshot (newPath resource s) bytes (appending resource loggedFirst s.faults.tail s)))
    (hfail : ∀ s, P s → s.faults.headD .none = .none → source.read s.disk = none →
      E .failed (appending resource loggedFirst s.faults.tail s))
    (hdone : ∀ s bytes, P s → s.faults.headD .none = .none → source.read s.disk = some bytes →
      Q (newVersion resource s) (withRecord resource selects prompt bytes s.faults.tail s)) :
    Meets P (appendRecord loggedFirst selects resource source prompt) Q E := by
  unfold appendRecord
  refine meets_get_bind fun s hs => ?_
  refine meets_bind (Q := fun _ s' => s' = { s with ticks := s.ticks + 1 }) (meets_modify ?_)
    fun _ => ?_
  · rintro _ rfl
    rfl
  -- the copy, from a session in which the path is logged or not
  have hcopy : Meets (· = appending resource loggedFirst s.faults s)
      (copyToSnapshot source (newPath resource s))
      (fun _ s' => ∃ bytes, s.faults.headD .none = .none ∧ source.read s.disk = some bytes ∧
        s' = { appending resource loggedFirst s.faults.tail s with
          disk := s.disk.writeSnapshot (newPath resource s) (some bytes) }) E := by
    refine meets_copyToSnapshot_drawn ?_ ?_ ?_ ?_
    · rintro _ rfl hfault
      exact hstop s hs hfault
    · rintro _ bytes rfl hfault
      exact hleft s bytes hs hfault
    · rintro _ rfl hfault hread
      exact hfail s hs hfault hread
    · rintro _ bytes rfl hfault hread
      exact ⟨bytes, hfault, hread, rfl⟩
  cases loggedFirst with
  | true =>
      refine meets_bind (Q := fun _ => (· = appending resource true s.faults s)) (meets_modify ?_)
        fun _ => meets_bind hcopy fun _ => ?_
      · rintro _ rfl
        rfl
      refine meets_bind (Q := fun _ => Q (newVersion resource s)) (meets_modify ?_)
        fun _ => meets_pure fun _ => id
      rintro _ ⟨bytes, hfault, hread, rfl⟩
      exact hdone s bytes hs hfault hread
  | false =>
      refine meets_bind hcopy fun _ => meets_bind (Q := fun _ s' => ∃ bytes,
        s.faults.headD .none = .none ∧ source.read s.disk = some bytes ∧
          s' = { appending resource true s.faults.tail s with
            disk := s.disk.writeSnapshot (newPath resource s) (some bytes) }) (meets_modify ?_)
        fun _ => ?_
      · rintro _ ⟨bytes, hfault, hread, rfl⟩
        exact ⟨bytes, hfault, hread, rfl⟩
      refine meets_bind (Q := fun _ => Q (newVersion resource s)) (meets_modify ?_)
        fun _ => meets_pure fun _ => id
      rintro _ ⟨bytes, hfault, hread, rfl⟩
      exact hdone s bytes hs hfault hread

theorem meets_appendRecord {loggedFirst selects : Bool} {source : Source} {prompt : String}
    {Q : ℕ → Session → Prop}
    (hfail : ∀ s faults, P s → E .failed (appending resource loggedFirst faults s))
    (hleft : ∀ s faults bytes, P s → E .failed
      (leaveSnapshot (newPath resource s) bytes (appending resource loggedFirst faults s)))
    (hdone : ∀ s faults bytes, P s → source.read s.disk = some bytes →
      Q (newVersion resource s) (withRecord resource selects prompt bytes faults s)) :
    Meets P (appendRecord loggedFirst selects resource source prompt) Q E :=
  meets_appendRecord_drawn resource (fun s hs _ => hfail s _ hs)
    (fun s bytes hs _ => hleft s _ bytes hs) (fun s hs _ _ => hfail s _ hs)
    fun s bytes hs _ hread => hdone s _ bytes hs hread

end Records

def undone (steps : List (Disk → Disk)) (disk : Disk) : Disk :=
  steps.foldl (fun disk step => step disk) disk

theorem undoAll_spec (steps : List (Disk → Disk)) (s : Session) :
    ∃ ok faults, ∃ done : List (Disk → Disk), done.Sublist steps ∧ (ok = true → done = steps) ∧
      undoAll steps s = .ok ok { s with faults, disk := undone done s.disk } := by
  induction steps generalizing s with
  | nil => exact ⟨true, s.faults, [], .slnil, fun _ => rfl, rfl⟩
  | cons step steps ih =>
      cases hfault : s.faults.headD .none with
      | none =>
          obtain ⟨ok, faults, done, hdone, hok, hrun⟩ :=
            ih { s with faults := s.faults.tail, disk := step s.disk }
          refine ⟨ok, faults, step :: done, hdone.cons_cons step, fun h => by rw [hok h], ?_⟩
          have hnext : nextFault s = .ok .none { s with faults := s.faults.tail } := by
            rw [← hfault]
            rfl
          unfold undoAll
          rw [bind_run, hnext]
          exact hrun
      | stops left =>
          obtain ⟨ok, faults, done, hdone, -, hrun⟩ := ih { s with faults := s.faults.tail }
          have hnext : nextFault s = .ok (.stops left) { s with faults := s.faults.tail } := by
            rw [← hfault]
            rfl
          refine ⟨false, faults, done, hdone.cons step, fun h => (Bool.false_ne_true h).elim, ?_⟩
          unfold undoAll
          rw [bind_run, hnext]
          dsimp only
          rw [bind_run, hrun]
          rfl

theorem rollback_spec {α : Type} (steps : List (Disk → Disk)) (failure : VersionError) (s : Session) :
    ∃ e faults, ∃ done : List (Disk → Disk), done.Sublist steps ∧
      (e ≠ .rollbackIncomplete → e = failure ∧ done = steps) ∧
      (rollback steps failure : VersionM α) s =
        .error e { s with faults, disk := undone done s.disk } := by
  obtain ⟨ok, faults, done, hdone, hok, hrun⟩ := undoAll_spec steps s
  cases ok with
  | true =>
      refine ⟨failure, faults, done, hdone, fun _ => ⟨rfl, hok rfl⟩, ?_⟩
      unfold rollback
      rw [bind_run, hrun]
      rfl
  | false =>
      refine ⟨.rollbackIncomplete, faults, done, hdone, fun h => absurd rfl h, ?_⟩
      unfold rollback
      rw [bind_run, hrun]
      rfl

def undoSteps (before : Option VersionsDoc) (s : Session) : List (Disk → Disk) :=
  s.states.reverse.map restoreFormal ++ restoreVersions before :: s.created.map unlinkSnapshot

section Guarded

variable {α : Type} {body : VersionM α} {s s' : Session}

theorem guarded_ok {a : α} (h : guarded body s = .ok a s') : body s = .ok a s' := by
  change EStateM.tryCatch body (compensate s.disk.versionsFile) s = .ok a s' at h
  unfold EStateM.tryCatch at h
  dsimp only at h
  cases hbody : body s with
  | ok b s₁ =>
      rw [hbody] at h
      exact h
  | error e s₁ =>
      rw [hbody] at h
      obtain ⟨e', faults, done, -, -, hrun⟩ :=
        @rollback_spec α (undoSteps s.disk.versionsFile s₁) e s₁
      exact absurd (hrun.symm.trans h) (by simp)

theorem guarded_error {e : VersionError} (h : guarded body s = .error e s') :
    ∃ e₀ s₁ faults, ∃ done : List (Disk → Disk), body s = .error e₀ s₁ ∧
      done.Sublist (undoSteps s.disk.versionsFile s₁) ∧
      (e ≠ .rollbackIncomplete → done = undoSteps s.disk.versionsFile s₁) ∧
      s' = { s₁ with faults, disk := undone done s₁.disk } := by
  change EStateM.tryCatch body (compensate s.disk.versionsFile) s = .error e s' at h
  unfold EStateM.tryCatch at h
  dsimp only at h
  cases hbody : body s with
  | ok b s₁ =>
      rw [hbody] at h
      cases h
  | error e₀ s₁ =>
      rw [hbody] at h
      obtain ⟨e', faults, done, hdone, hcomplete, hrun⟩ :=
        @rollback_spec α (undoSteps s.disk.versionsFile s₁) e₀ s₁
      have hresult := hrun.symm.trans h
      cases hresult
      exact ⟨e₀, s₁, faults, done, rfl, hdone, fun he => (hcomplete he).2, rfl⟩

end Guarded

theorem undone_induction {J : Disk → Prop} {steps : List (Disk → Disk)} {disk : Disk}
    (hdisk : J disk) (hsteps : ∀ step ∈ steps, ∀ disk, J disk → J (step disk)) :
    J (undone steps disk) := by
  induction steps generalizing disk with
  | nil => exact hdisk
  | cons step steps ih =>
      obtain ⟨hstep, hrest⟩ := List.forall_mem_cons.mp hsteps
      exact ih (hstep disk hdisk) hrest

theorem meets_guarded {α : Type} {body : VersionM α} {P : Session → Prop} {Q : α → Session → Prop}
    {E F : VersionError → Session → Prop} (hbody : Meets P body Q F)
    (hundo : ∀ s₀ e s e' faults done, P s₀ → F e s →
      done.Sublist (undoSteps s₀.disk.versionsFile s) →
        (e' ≠ .rollbackIncomplete → done = undoSteps s₀.disk.versionsFile s) →
          E e' { s with faults, disk := undone done s.disk }) : Meets P (guarded body) Q E := by
  intro s hs
  cases h : guarded body s with
  | ok a s' => exact hbody.ok hs (guarded_ok h)
  | error e s' =>
      obtain ⟨e₀, s₁, faults, done, hrun, hdone, hcomplete, rfl⟩ := guarded_error h
      exact hundo s e₀ s₁ e faults done hs (hbody.error hs hrun) hdone hcomplete

theorem undone_append (steps steps' : List (Disk → Disk)) (disk : Disk) :
    undone (steps ++ steps') disk = undone steps' (undone steps disk) :=
  List.foldl_append

theorem undone_states (states : List (String × Option Bytes)) (disk : Disk) :
    undone (states.reverse.map restoreFormal) disk =
      { disk with formal := fun path => (states.lookup path).getD (disk.formal path) } := by
  induction states with
  | nil => rfl
  | cons state states ih =>
      rw [List.reverse_cons, List.map_append, undone_append, ih]
      change restoreFormal state _ = _
      unfold restoreFormal Disk.writeFormal
      refine congrArg (fun formal => { disk with formal }) (funext fun path => ?_)
      rw [List.lookup_cons]
      by_cases hpath : path = state.1
      · simp [hpath]
      · rw [beq_false_of_ne hpath, Function.update_of_ne hpath]

theorem undone_created (created : List String) (disk : Disk) :
    undone (created.map unlinkSnapshot) disk =
      { disk with snapshots := fun path => if path ∈ created then none else disk.snapshots path } := by
  induction created generalizing disk with
  | nil => simp [undone]
  | cons path created ih =>
      change undone (created.map unlinkSnapshot) (unlinkSnapshot path disk) = _
      rw [ih]
      unfold unlinkSnapshot Disk.writeSnapshot
      refine congrArg (fun snapshots => { disk with snapshots }) (funext fun other => ?_)
      by_cases hother : other = path
      · simp [hother]
      · simp [hother]

theorem undone_undoSteps (before : Option VersionsDoc) (s : Session) (disk : Disk) :
    undone (undoSteps before s) disk =
      { versionsFile := before
        formal := fun path => (s.states.lookup path).getD (disk.formal path)
        snapshots := fun path => if path ∈ s.created then none else disk.snapshots path
        staged := disk.staged } := by
  unfold undoSteps
  rw [undone_append, undone_states]
  exact undone_created s.created _

end ShortReel.VersionSteps
