import ShortReel.ProfileRuns

/-!
# Deletions and tombstones

When a sync delivers what is shipped at every path that the user never touched, and leaves what the
user has deleted.
-/

namespace ShortReel.ProfileHistories

open InsertionDict ProfileManifest ProfileSyncs ProfileRuns

/-- What has happened at a path: the user has put or deleted a file, has deleted the last one, which was
shipped then, a sync has run since, and a sync has removed a file that was no longer shipped. -/
structure Trace where
  touched : Bool
  deleted : Bool
  shipped : Bool
  seen : Bool
  dropped : Bool
  deriving DecidableEq, Repr

namespace Trace

def empty : Trace :=
  { touched := false, deleted := false, shipped := false, seen := false, dropped := false }

def put (trace : Trace) : Trace :=
  { trace with touched := true, deleted := false, shipped := false, seen := false }

def delete (trace : Trace) (isShipped : Bool) : Trace :=
  { trace with touched := true, deleted := true, shipped := isShipped, seen := false }

def synced (trace : Trace) (isDropped : Bool) : Trace :=
  { trace with seen := trace.seen || trace.deleted, dropped := trace.dropped || isDropped }

end Trace

structure History (β δ : Type) where
  world : World β δ
  trace : Rel → Trace

section Histories

variable {β δ : Type} [DecidableEq δ] (hashing : Hashing β δ) (mode : ContentMode)

/-- A built-in file that is not shipped any more is removed. -/
def drops (p d d' : Option β) (m : Option (Entry δ)) : Bool :=
  match p, d, d', m with
  | none, some _, none, some (.profile _ _) => true
  | _, _, _, _ => false

def History.step (history : History β δ) (action : Action β) : History β δ :=
  let world := history.world.step hashing mode action
  match action with
  | .upgrade _ => { history with world }
  | .edit rel (some _) =>
      { world, trace := Function.update history.trace rel (history.trace rel).put }
  | .edit rel none =>
      if (get history.world.project.files rel).isSome then
        { world
          trace := Function.update history.trace rel
            ((history.trace rel).delete (get history.world.profile rel).isSome) }
      else { history with world }
  | .sync _ _ =>
      if history.world.profile = [] then { history with world }
      else
        { world
          trace := fun rel => (history.trace rel).synced
            (drops (get history.world.profile rel) (get history.world.project.files rel)
              (get world.project.files rel) (history.world.project.entry rel)) }

/-- What keeps to the table: the user deletes a shipped file only while the manifest has it, no copy
stops in the middle, and nothing is shipped again that a sync had removed and the user never touched. -/
def Careful (history : History β δ) : Action β → Prop
  | .upgrade _ => True
  | .edit rel content => content = none → get history.world.project.files rel ≠ none →
      get history.world.profile rel ≠ none → history.world.project.entry rel ≠ none
  | .sync _ faults => (∀ rel left, faults rel ≠ some (.copying left)) ∧
      ∀ rel, get history.world.profile rel ≠ none → (history.trace rel).dropped →
        (history.trace rel).touched

inductive Kept : History β δ → Prop where
  | opened (mapping : Dict Rel β) (faults : Rel → Option (Fault β))
      (hfaults : ∀ rel left, faults rel ≠ some (.copying left)) :
      Kept ⟨opened hashing mode mapping faults, fun _ => .empty⟩
  | step {history : History β δ} (hkept : Kept history) (action : Action β)
      (hcareful : Careful history action) : Kept (history.step hashing mode action)

end Histories

section Paths

variable {β δ : Type} {hashing : Hashing β δ} {now : ℕ} {fault : Option (Fault β)}
  {p d d' : Option β} {m m' : Option (Entry δ)} {outcome : Outcome} {trace : Trace}

/-- What is at a path that the user never touched. -/
inductive Delivered (hashing : Hashing β δ) (dropped : Bool) : Option β → Option (Entry δ) → Prop where
  | nothing : Delivered hashing dropped none none
  | shipped (c : β) (size : ℕ) :
      Delivered hashing dropped (some c) (some (.profile (hashing.sha256 c) size))
  | dropped (deletedAt : ℕ) (hdropped : dropped = true) :
      Delivered hashing dropped none (some (.tombstone deletedAt))

structure PathKept (hashing : Hashing β δ) (trace : Trace) (d : Option β) (m : Option (Entry δ)) :
    Prop where
  untouched : trace.touched = false → Delivered hashing trace.dropped d m
  gone : trace.deleted = true → trace.shipped = true → d = none ∧ m ≠ none
  active : ∀ sha256 size, m = some (.profile sha256 size) → d = none → trace.deleted = true
  tombstone : ∀ deletedAt, m = some (.tombstone deletedAt) → d = none →
    trace.deleted = true ∨ trace.dropped = true
  seen : trace.seen = true → trace.deleted = true

theorem Delivered.decided {dropped : Bool} (h : Delivered hashing dropped d m)
    (hdecided : Decided hashing now fault p d m d' m' outcome)
    (hfault : ∀ left, fault ≠ some (.copying left)) (hagain : p ≠ none → dropped = false) :
    Delivered hashing (dropped || drops p d d' m) d' m' := by
  have hmono : dropped = true → (dropped || drops p d d' m) = true := fun htrue => by simp [htrue]
  cases h with
  | nothing =>
      cases hdecided with
      | early => exact .nothing
      | created p => exact .shipped p _
      | createFailed p hcopying => exact absurd hcopying (hfault _)
  | shipped c size =>
      cases hdecided with
      | early => exact .shipped c size
      | same => exact .shipped c size
      | upgraded p => exact .shipped p _
      | upgradeFailed _ _ _ _ _ _ hcopying => exact absurd hcopying (hfault _)
      | returned _ _ _ _ hne => exact absurd rfl hne
      | userModified _ _ _ _ hne => exact absurd rfl hne
      | pruned => exact .dropped now (Bool.or_true _)
      | orphaned _ _ _ hne => exact absurd rfl hne
  | dropped deletedAt hdropped =>
      cases hdecided with
      | early => exact .dropped deletedAt (hmono hdropped)
      | tombstoned => exact .dropped deletedAt (hmono hdropped)

theorem decided_gone (h : Decided hashing now fault p none m d' m' outcome) (hentry : m ≠ none) :
    d' = none ∧ m' ≠ none := by
  cases h <;> first
    | exact ⟨rfl, hentry⟩
    | exact ⟨rfl, fun hnone => by cases hnone⟩
    | exact absurd rfl hentry

theorem decided_active (h : Decided hashing now fault p d m d' m' outcome)
    (hfault : ∀ left, fault ≠ some (.copying left)) {sha256 : δ} {size : ℕ}
    (hentry : m' = some (.profile sha256 size)) (hfile : d' = none) :
    d = none ∧ m = some (.profile sha256 size) := by
  cases h with
  | early => exact ⟨hfile, hentry⟩
  | upgradeFailed _ _ _ _ _ _ hcopying => exact absurd hcopying (hfault _)
  | _ => first | (cases hfile; done) | cases hentry

theorem decided_tombstone (h : Decided hashing now fault p d m d' m' outcome) {deletedAt : ℕ}
    (hentry : m' = some (.tombstone deletedAt)) (hfile : d' = none) :
    drops p d d' m = true ∨ (d = none ∧ ∃ entry, m = some entry) := by
  cases h with
  | pruned => exact .inl rfl
  | early => exact .inr ⟨hfile, _, hentry⟩
  | deletedUser | bothGone | tombstoned => exact .inr ⟨rfl, _, rfl⟩
  | _ => first | (cases hfile; done) | cases hentry

theorem PathKept.decided (h : PathKept hashing trace d m)
    (hdecided : Decided hashing now fault p d m d' m' outcome)
    (hfault : ∀ left, fault ≠ some (.copying left))
    (hagain : p ≠ none → trace.dropped = true → trace.touched = true) :
    PathKept hashing (trace.synced (drops p d d' m)) d' m' := by
  refine ⟨fun htouched => ?_, fun hdeleted hshipped => ?_, fun sha256 size hentry hfile => ?_,
    fun deletedAt hentry hfile => ?_, fun hseen => ?_⟩
  · refine (h.untouched htouched).decided hdecided hfault fun hp => ?_
    by_contra hdropped
    have hagain := hagain hp (Bool.not_eq_false _ ▸ hdropped)
    exact absurd (hagain.symm.trans htouched) (by decide)
  · obtain ⟨rfl, hentry⟩ := h.gone hdeleted hshipped
    exact decided_gone hdecided hentry
  · obtain ⟨hfile, hentry⟩ := decided_active hdecided hfault hentry hfile
    exact h.active sha256 size hentry hfile
  · rcases decided_tombstone hdecided hentry hfile with hdrops | ⟨hfile, entry, hentry⟩
    · exact .inr (by simp [Trace.synced, hdrops])
    · cases entry with
      | profile sha256 size => exact .inl (h.active sha256 size hentry hfile)
      | tombstone at' =>
          exact (h.tombstone at' hentry hfile).imp_right fun hdropped => by
            simp [Trace.synced, hdropped]
  · change (trace.seen || trace.deleted) = true at hseen
    rcases Bool.or_eq_true_iff.mp hseen with hseen | hdeleted
    · exact h.seen hseen
    · exact hdeleted

theorem pathKept_put (c : β) : PathKept hashing trace.put (some c) m :=
  ⟨fun h => (by cases h), fun h => absurd h Bool.false_ne_true,
    fun _ _ _ h => (by cases h), fun _ _ h => (by cases h), fun h => absurd h Bool.false_ne_true⟩

theorem pathKept_delete {isShipped : Bool} (h : isShipped = true → m ≠ none) :
    PathKept hashing (trace.delete isShipped) none m :=
  ⟨fun h => (by cases h), fun _ hshipped => ⟨rfl, h hshipped⟩, fun _ _ _ _ => rfl,
    fun _ _ _ => .inl rfl, fun h => absurd h Bool.false_ne_true⟩

theorem Delivered.current (hinjective : Function.Injective hashing.sha256) {dropped : Bool}
    (h : Delivered hashing dropped d m)
    (hdecided : Decided hashing now fault p d m d' m' outcome) (hok : outcome ≠ .error)
    (hagain : p ≠ none → dropped = false) : d' = p := by
  cases h with
  | nothing =>
      cases hdecided with
      | early | createFailed => exact absurd rfl hok
      | created => rfl
  | shipped c size =>
      cases hdecided with
      | early | upgradeFailed => exact absurd rfl hok
      | same _ _ _ _ hsame => exact congrArg some (hinjective hsame)
      | upgraded => rfl
      | returned _ _ _ _ hne | userModified _ _ _ _ hne | orphaned _ _ _ hne => exact absurd rfl hne
      | pruned => rfl
  | dropped deletedAt hdropped =>
      cases hdecided with
      | early => exact absurd rfl hok
      | tombstoned =>
          by_contra hp
          rw [hagain fun hnone => hp hnone.symm] at hdropped
          cases hdropped

theorem decided_absent (h : Decided hashing now fault p d m d' m' outcome) (hok : outcome ≠ .error)
    {deletedAt : ℕ} (hentry : m' = some (.tombstone deletedAt)) : d' = none := by
  cases h <;> first | exact absurd rfl hok | rfl | cases hentry

end Paths

section Runs

variable {β δ : Type} [DecidableEq δ] {hashing : Hashing β δ} {mode : ContentMode}
  {history : History β δ}

structure HistoryKept (hashing : Hashing β δ) (mode : ContentMode) (history : History β δ) : Prop where
  readable : Readable mode history.world.project
  paths : ∀ rel, PathKept hashing (history.trace rel) (get history.world.project.files rel)
    (history.world.project.entry rel)

theorem kept_opened (mapping : Dict Rel β) {faults : Rel → Option (Fault β)}
    (hfaults : ∀ rel left, faults rel ≠ some (.copying left)) :
    HistoryKept hashing mode ⟨opened hashing mode mapping faults, fun _ => .empty⟩ := by
  obtain ⟨hreadable, hpaths⟩ := @reset_paths β δ hashing faults mapping mode
  refine ⟨hreadable, fun rel => ?_⟩
  have hcell := hpaths rel
  have hfile : get (opened hashing mode mapping faults).project.files rel =
      (resetCell hashing (faults rel) (get mapping rel)).1 := congrArg Prod.fst hcell
  have hentry : (opened hashing mode mapping faults).project.entry rel =
      (resetCell hashing (faults rel) (get mapping rel)).2 := congrArg Prod.snd hcell
  dsimp only
  rw [hfile, hentry]
  unfold resetCell
  split
  · exact ⟨fun _ => .shipped _ _, fun h => absurd h (by decide), fun _ _ _ h => (by cases h),
      fun _ h => (by cases h), fun h => absurd h (by decide)⟩
  · exact absurd ‹_› (hfaults rel _)
  · exact ⟨fun _ => .nothing, fun h => absurd h (by decide), fun _ _ h => (by cases h),
      fun _ h => (by cases h), fun h => absurd h (by decide)⟩

theorem step_edit (rel : Rel) (content : Option β) (other : Rel) :
    get (history.world.step hashing mode (.edit rel content)).project.files other =
        (if other = rel then content else get history.world.project.files other) ∧
      (history.world.step hashing mode (.edit rel content)).project.entry other =
        history.world.project.entry other :=
  ⟨get_assign content, rfl⟩

theorem kept_put (h : HistoryKept hashing mode history) (rel : Rel) (c : β) :
    HistoryKept hashing mode (history.step hashing mode (.edit rel (some c))) := by
  refine ⟨h.readable, fun other => ?_⟩
  obtain ⟨hfile, hentry⟩ := @step_edit β δ _ hashing mode history rel (some c) other
  unfold History.step
  dsimp only
  rw [hfile, hentry, Function.update_apply]
  by_cases hsame : other = rel
  · rw [if_pos hsame, if_pos hsame]
    exact pathKept_put c
  · rw [if_neg hsame, if_neg hsame]
    exact h.paths other

theorem kept_delete (h : HistoryKept hashing mode history) (rel : Rel)
    (hcareful : Careful history (.edit rel none)) :
    HistoryKept hashing mode (history.step hashing mode (.edit rel none)) := by
  refine ⟨?_, fun other => ?_⟩
  · unfold History.step
    dsimp only
    split_ifs <;> exact h.readable
  obtain ⟨hfile, hentry⟩ := @step_edit β δ _ hashing mode history rel none other
  unfold History.step
  dsimp only
  split_ifs with hthere
  · dsimp only
    rw [hfile, hentry, Function.update_apply]
    by_cases hsame : other = rel
    · rw [if_pos hsame, if_pos hsame, hsame]
      refine pathKept_delete fun hshipped => hcareful rfl ?_ ?_
      · exact Option.isSome_iff_ne_none.mp hthere
      · exact Option.isSome_iff_ne_none.mp hshipped
    · rw [if_neg hsame, if_neg hsame]
      exact h.paths other
  · dsimp only
    rw [hfile, hentry]
    have hpath := h.paths other
    by_cases hsame : other = rel
    · have hnone := Option.not_isSome_iff_eq_none.mp hthere
      rw [if_pos hsame]
      rwa [hsame, hnone, ← hsame] at hpath
    · rwa [if_neg hsame]

theorem sync_of_files {now : ℕ} {faults : Rel → Option (Fault β)}
    (hreadable : Readable mode history.world.project) (hprofile : history.world.profile ≠ []) :
    ∃ project stats, syncProfileToProject hashing now faults history.world.profile mode
        history.world.project = some (project, stats) ∧
      Readable mode project ∧
      Synced hashing now faults history.world.profile history.world.project project stats ∧
      (history.step hashing mode (.sync now faults)).world.project = project ∧
      (history.step hashing mode (.sync now faults)).trace = fun rel =>
        (history.trace rel).synced (drops (get history.world.profile rel)
          (get history.world.project.files rel) (get project.files rel)
          (history.world.project.entry rel)) := by
  obtain ⟨project, stats, hsync, hreadable', hsynced⟩ :=
    @sync_synced β δ _ hashing now faults history.world.profile mode history.world.project hprofile
      hreadable
  refine ⟨project, stats, hsync, hreadable', hsynced, ?_⟩
  unfold History.step
  dsimp only
  rw [if_neg hprofile, step_synced hsync]
  exact ⟨rfl, rfl⟩

theorem kept_sync {now : ℕ} {faults : Rel → Option (Fault β)}
    (h : HistoryKept hashing mode history) (hcareful : Careful history (.sync now faults)) :
    HistoryKept hashing mode (history.step hashing mode (.sync now faults)) := by
  by_cases hprofile : history.world.profile = []
  · have hrefused : syncProfileToProject hashing now faults history.world.profile mode
        history.world.project = none := by
      unfold syncProfileToProject
      exact if_pos hprofile
    unfold History.step
    dsimp only
    rw [if_pos hprofile, step_refused hrefused]
    exact h
  · obtain ⟨project, stats, -, hreadable, hsynced, hproject, htrace⟩ :=
      @sync_of_files β δ _ hashing mode history now faults h.readable hprofile
    refine ⟨hproject ▸ hreadable, fun rel => ?_⟩
    rw [hproject, htrace]
    dsimp only
    have hpath := h.paths rel
    rcases hsynced rel with ⟨hp, hd, hm, hd', hm'⟩ | ⟨outcome, -, hdecided⟩
    · rw [hd, hm] at hpath
      rw [hp, hd, hm, hd', hm']
      have hnothing : Decided hashing now (some .early) none none none none none .error :=
        .early none none none rfl
      exact hpath.decided hnothing (fun _ hcopying => (by cases hcopying))
        fun hnone => absurd rfl hnone
    · exact hpath.decided hdecided (hcareful.1 rel) (hcareful.2 rel)

theorem kept_step (h : HistoryKept hashing mode history) (action : Action β)
    (hcareful : Careful history action) :
    HistoryKept hashing mode (history.step hashing mode action) := by
  cases action with
  | upgrade profile => exact ⟨h.readable, h.paths⟩
  | edit rel content =>
      cases content with
      | none => exact kept_delete h rel hcareful
      | some c => exact kept_put h rel c
  | sync now faults => exact kept_sync h hcareful

theorem Kept.historyKept (h : Kept hashing mode history) : HistoryKept hashing mode history := by
  induction h with
  | opened mapping faults hfaults => exact kept_opened mapping hfaults
  | step _ action hcareful ih => exact kept_step ih action hcareful

end Runs

def twoShipped : History ℕ ℕ :=
  ⟨opened plainHashing .narration [(['a'], 1), (['b'], 1)] fun _ => none, fun _ => .empty⟩

def shippedAgain : History ℕ ℕ :=
  [.upgrade [(['b'], 1)], .sync 1 fun _ => none, .upgrade [(['a'], 1), (['b'], 1)],
    .sync 2 fun _ => none].foldl (History.step plainHashing .narration) twoShipped

def deletedAgain : History ℕ ℕ :=
  [.edit ['a'] none, .sync 1 fun _ => none, .edit ['a'] (some 5), .sync 2 fun _ => none,
    .edit ['a'] none, .sync 3 fun _ => none].foldl (History.step plainHashing .narration) twoShipped

end ShortReel.ProfileHistories
