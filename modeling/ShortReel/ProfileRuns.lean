import ShortReel.ProfileSyncs

/-!
# Runs of syncs

What a sync overwrites or deletes, in any run of syncs, upgrades of the profile and edits by the user.
-/

namespace ShortReel.ProfileRuns

open InsertionDict ProfileManifest ProfileSyncs

/-- The profile that is shipped, the project, and the versions that syncs have recorded so far. -/
structure World (β δ : Type) where
  profile : Dict Rel β
  project : Project β δ
  recorded : List (Rel × β)
  deriving DecidableEq, Repr

inductive Action (β : Type) where
  | upgrade (profile : Dict Rel β)
  | edit (rel : Rel) (content : Option β)
  | sync (now : ℕ) (faults : Rel → Option (Fault β))

section Worlds

variable {β δ : Type} [DecidableEq δ] (hashing : Hashing β δ) (mode : ContentMode)

def recordings (mapping : Dict Rel β) (project : Project β δ) : List (Rel × β) :=
  mapping.filter fun item => project.entry item.1 = some (profileActiveEntry hashing item.2)

def opened (mapping : Dict Rel β) (faults : Rel → Option (Fault β)) : World β δ :=
  let project := (fullResetFromProfile hashing faults mapping mode).1
  { profile := mapping, project, recorded := recordings hashing mapping project }

def World.step (world : World β δ) : Action β → World β δ
  | .upgrade profile => { world with profile }
  | .edit rel content =>
      { world with
        project := { world.project with files := assign world.project.files rel content } }
  | .sync now faults =>
      match syncProfileToProject hashing now faults world.profile mode world.project with
      | some (project, _) =>
          { world with
            project
            recorded := world.recorded ++ recordings hashing world.profile project }
      | none => world

def World.run (world : World β δ) (actions : List (Action β)) : World β δ :=
  actions.foldl (World.step hashing mode) world

end Worlds

section Runs

variable {β δ : Type} [DecidableEq δ] {hashing : Hashing β δ} {mode : ContentMode}
  {world : World β δ} {mapping : Dict Rel β} {faults : Rel → Option (Fault β)}

theorem mem_recordings {project : Project β δ} {rel : Rel} {q : β} (hq : get mapping rel = some q)
    (hentry : project.entry rel = some (profileActiveEntry hashing q)) :
    (rel, q) ∈ recordings hashing mapping project :=
  List.mem_filter.mpr ⟨mem_of_get hq, decide_eq_true hentry⟩

structure Sound (hashing : Hashing β δ) (mode : ContentMode) (world : World β δ) : Prop where
  readable : Readable mode world.project
  recorded : ∀ rel sha256 size, world.project.entry rel = some (.profile sha256 size) →
    ∃ c, (rel, c) ∈ world.recorded ∧ hashing.sha256 c = sha256

theorem sound_opened (mapping : Dict Rel β) (faults : Rel → Option (Fault β)) :
    Sound hashing mode (opened hashing mode mapping faults) := by
  obtain ⟨hreadable, hpaths⟩ := @reset_paths β δ hashing faults mapping mode
  refine ⟨hreadable, fun rel sha256 size hentry => ?_⟩
  have hsnd := congrArg Prod.snd (hpaths rel)
  change (fullResetFromProfile hashing faults mapping mode).1.entry rel = _ at hentry hsnd
  rw [hentry] at hsnd
  unfold resetCell at hsnd
  split at hsnd
  · refine ⟨_, mem_recordings ‹_› (hentry.trans hsnd), ?_⟩
    cases hsnd
    rfl
  · cases hsnd
  · cases hsnd

theorem step_refused {now : ℕ}
    (h : syncProfileToProject hashing now faults world.profile mode world.project = none) :
    world.step hashing mode (.sync now faults) = world := by
  simp only [World.step, h]

theorem step_synced {now : ℕ} {project : Project β δ} {stats : List (Rel × Outcome)}
    (h : syncProfileToProject hashing now faults world.profile mode world.project =
      some (project, stats)) :
    world.step hashing mode (.sync now faults) =
      { world with
        project
        recorded := world.recorded ++ recordings hashing world.profile project } := by
  simp only [World.step, h]

theorem sound_step (h : Sound hashing mode world) (action : Action β) :
    Sound hashing mode (world.step hashing mode action) := by
  cases action with
  | upgrade profile => exact ⟨h.readable, h.recorded⟩
  | edit rel content => exact ⟨h.readable, h.recorded⟩
  | sync now faults =>
      cases hsync : syncProfileToProject hashing now faults world.profile mode world.project with
      | none =>
          rw [step_refused hsync]
          exact h
      | some result =>
          obtain ⟨hreadable, hpaths⟩ := synced_of_some h.readable hsync
          rw [step_synced hsync]
          refine ⟨hreadable, fun rel sha256 size hentry => ?_⟩
          dsimp only at hentry ⊢
          rcases hpaths rel with ⟨-, -, -, -, hnone⟩ | ⟨outcome, -, hdecided⟩
          · rw [hnone] at hentry
            cases hentry
          · rcases hdecided.entry hentry with hsame | ⟨q, hq, hshipped⟩
            · obtain ⟨c, hc, hsha⟩ := h.recorded rel sha256 size (hsame.trans hentry)
              exact ⟨c, List.mem_append_left _ hc, hsha⟩
            · refine ⟨q, List.mem_append_right _ (mem_recordings hq hshipped), ?_⟩
              rw [hentry] at hshipped
              cases hshipped
              rfl

theorem sound_run (h : Sound hashing mode world) (actions : List (Action β)) :
    Sound hashing mode (world.run hashing mode actions) := by
  induction actions generalizing world with
  | nil => exact h
  | cons action actions ih => exact ih (sound_step h action)

/-- What a sync overwrites or deletes has been recorded by an earlier one, and a sync right behind one
without errors leaves every file. -/
theorem sync_keeps_user_content (hashing : Hashing β δ) (mode : ContentMode)
    (hinjective : Function.Injective hashing.sha256) (mapping : Dict Rel β)
    (faults : Rel → Option (Fault β)) (actions : List (Action β)) :
    let world := (opened hashing mode mapping faults).run hashing mode actions
    ∀ now faults project stats,
      syncProfileToProject hashing now faults world.profile mode world.project =
        some (project, stats) →
      (∀ rel c, get world.project.files rel = some c → get project.files rel ≠ some c →
        (rel, c) ∈ world.recorded) ∧
      ((∀ counter ∈ stats, counter.2 ≠ .error) → ∀ now' faults' project' stats',
        syncProfileToProject hashing now' faults' world.profile mode project =
          some (project', stats') → ∀ rel, get project'.files rel = get project.files rel) := by
  intro world now faults' project stats hsync
  have hsound : Sound hashing mode world := sound_run (sound_opened mapping faults) actions
  obtain ⟨hreadable, hpaths⟩ := synced_of_some hsound.readable hsync
  refine ⟨fun rel c hfile hlost => ?_, fun hok now' faults'' project' stats' hagain rel => ?_⟩
  · rcases hpaths rel with ⟨-, hnone, -⟩ | ⟨outcome, -, hdecided⟩
    · rw [hnone] at hfile
      cases hfile
    · obtain ⟨sha256, size, hentry, hsha⟩ := hdecided.lost hfile hlost
      obtain ⟨c', hc', hsame⟩ := hsound.recorded rel sha256 size hentry
      rwa [hinjective (hsha.trans hsame.symm)]
  · obtain ⟨-, hpaths'⟩ := synced_of_some hreadable hagain
    rcases hpaths' rel with ⟨-, hfile, -, hfile', -⟩ | ⟨_, -, hdecided'⟩
    · exact hfile'.trans hfile.symm
    · rcases hpaths rel with ⟨hp, -, -, hfile, hentry⟩ | ⟨outcome, hstat, hdecided⟩
      · rw [hp, hfile, hentry] at hdecided'
        exact hdecided'.nothing.trans hfile.symm
      · exact hdecided.again (hok _ hstat) hdecided'

def plainHashing : Hashing ℕ ℕ where
  sha256 c := c
  size _ := 1

theorem sync_keeps_user_content_one :
    {item | get (((opened plainHashing .narration [(['a'], 1)] fun _ => none).run plainHashing
        .narration [.upgrade [(['a'], 2)]]).project.files) item.1 = some item.2 ∧
        get [(['a'], 2)] item.1 ≠ some item.2} ⊆ {item | item ∈ [((['a'] : Rel), 1)]} := by
  have hsafe := sync_keeps_user_content plainHashing .narration (fun _ _ h => h) [(['a'], 1)]
    (fun _ => none) [.upgrade [(['a'], 2)]] 0 (fun _ => none)
    ⟨[(['a'], 2)], some ⟨[(['a'], .profile 2 1)], some .narration⟩⟩ [(['a'], .upgraded)] rfl
  exact fun item hitem => hsafe.1 item.1 item.2 hitem.1 hitem.2

end Runs

section Resets

variable {β δ : Type} [DecidableEq δ] {hashing : Hashing β δ} {faults : Rel → Option (Fault β)}
  {mapping : Dict Rel β}

/-- A sync behind a full reset brings every file that the reset could not copy, and changes no other. -/
theorem sync_after_reset (mode : ContentMode) (now : ℕ) (hmapping : mapping ≠ [])
    (hfaults : ∀ rel left, faults rel = some (.copying left) → left = none) :
    ∃ project stats,
      syncProfileToProject hashing now (fun _ => none) mapping mode
        (fullResetFromProfile hashing faults mapping mode).1 = some (project, stats) ∧
      ∀ rel, get project.files rel = get mapping rel ∧
        project.entry rel = (get mapping rel).map (profileActiveEntry hashing) := by
  obtain ⟨hreadable, hcells⟩ := @reset_paths β δ hashing faults mapping mode
  obtain ⟨project, stats, hsync, -, hsynced⟩ :=
    @sync_synced β δ _ hashing now (fun _ => none) mapping mode _ hmapping hreadable
  refine ⟨project, stats, hsync, fun rel => ?_⟩
  rcases hsynced rel with ⟨hp, -, -, hfile, hentry⟩ | ⟨outcome, -, hdecided⟩
  · rw [hp]
    exact ⟨hfile, hentry⟩
  · have hreset : resetCell hashing (faults rel) (get mapping rel) = (none, none) ∨
        ∃ p, get mapping rel = some p ∧
          resetCell hashing (faults rel) (get mapping rel) = (some p, some (profileActiveEntry hashing p)) := by
      unfold resetCell
      split
      · exact .inr ⟨_, ‹get mapping rel = some _›, rfl⟩
      · rename_i hfault _
        rw [hfaults rel _ hfault]
        exact .inl rfl
      · exact .inl rfl
    rcases hreset with hnone | ⟨p, hp, hcopied⟩
    · obtain ⟨hfile, hentry⟩ := Prod.mk.inj ((hcells rel).trans hnone)
      rw [hfile, hentry] at hdecided
      generalize get mapping rel = p at hdecided ⊢
      generalize get project.files rel = file at hdecided ⊢
      generalize project.entry rel = entry at hdecided ⊢
      cases hdecided with
      | early _ _ _ hfault | createFailed _ hfault => cases hfault
      | created p => exact ⟨rfl, rfl⟩
    · obtain ⟨hfile, hentry⟩ := Prod.mk.inj ((hcells rel).trans hcopied)
      rw [hfile, hentry, hp] at hdecided
      rw [hp]
      generalize get project.files rel = file at hdecided ⊢
      generalize project.entry rel = entry at hdecided ⊢
      cases hdecided with
      | early _ _ _ hfault | upgradeFailed _ _ _ _ _ _ hfault => cases hfault
      | same => exact ⟨rfl, rfl⟩
      | upgraded _ _ _ _ _ hne => exact absurd rfl hne
      | returned _ _ _ _ hne | userModified _ _ _ _ hne => exact absurd rfl hne

/-- The reset fails before it writes the second file. -/
theorem sync_after_reset_two : ∃ project stats,
    syncProfileToProject plainHashing 0 (fun _ => none) [(['a'], 1), (['b'], 2)] .narration
      (fullResetFromProfile plainHashing (fun rel => if rel = ['b'] then some .early else none)
        [(['a'], 1), (['b'], 2)] .narration).1 = some (project, stats) ∧
      get project.files ['b'] = some 2 := by
  obtain ⟨project, stats, hsync, hpaths⟩ := @sync_after_reset ℕ ℕ _ plainHashing
    (fun rel => if rel = ['b'] then some .early else none) [(['a'], 1), (['b'], 2)] .narration 0
    (List.cons_ne_nil _ _) fun rel left hleft => by split_ifs at hleft; cases hleft
  exact ⟨project, stats, hsync, (hpaths ['b']).1⟩

end Resets

end ShortReel.ProfileRuns
