import ShortReel.SwapReclaims

/-!
# Stopped swaps

What is left of a project wherever its migration stops, and what the next startup makes of it.
-/

namespace ShortReel.StagedSwapRuns

open InsertionDict NameOrder SwapDirs SwapNames StagedSwap SwapReclaims

section Runs

variable {τ : Type} {swap : Swap τ} {start : Parent τ} {entry : Entry τ} {original : τ}
  {state : State τ} {event : Event τ}

/-- A migration of a project, with names for its directories that are not in use. -/
structure Setting (swap : Swap τ) (start : Parent τ) (entry : Entry τ) (original : τ) : Prop where
  keys : (keys start).Nodup
  name : IsProjectName swap.project
  there : get start swap.project = some entry
  tree : entry.tree = some original
  staging : ∃ suffix, IsSuffix suffix ∧ swap.staging = newStagingDir swap.project suffix
  rollback : ∃ suffix, IsSuffix suffix ∧ swap.rollback = newRollbackDir swap.project suffix
  freshStaging : get start swap.staging = none
  freshRollback : get start swap.rollback = none

namespace Setting

variable (h : Setting swap start entry original)
include h

theorem rollbackProjectName_rollback : rollbackProjectName swap.rollback = some swap.project := by
  obtain ⟨suffix, hsuffix, hname⟩ := h.rollback
  rw [hname]
  exact rollbackProjectName_newRollbackDir h.name hsuffix

theorem rollbackProjectName_staging : rollbackProjectName swap.staging = none := by
  obtain ⟨suffix, hsuffix, hname⟩ := h.staging
  rw [hname]
  exact rollbackProjectName_newStagingDir hsuffix

theorem staging_ne_rollback : swap.staging ≠ swap.rollback := by
  intro heq
  have hnone := h.rollbackProjectName_staging
  rw [heq, h.rollbackProjectName_rollback] at hnone
  cases hnone

theorem staging_ne_project : swap.staging ≠ swap.project := by
  intro heq
  have hthere := h.there
  rw [← heq, h.freshStaging] at hthere
  cases hthere

theorem rollback_ne_project : swap.rollback ≠ swap.project := by
  intro heq
  have hthere := h.there
  rw [← heq, h.freshRollback] at hthere
  cases hthere

theorem rollbackProjectName_project : rollbackProjectName swap.project = none := by
  cases hname : rollbackProjectName swap.project with
  | none => rfl
  | some other => exact absurd rfl (@rollback_ne _ h.name ⟨0, swap.project, other⟩ hname)

theorem isThere : entry.isThere = true := by
  have htree := h.tree
  cases entry with
  | dir mtime tree => rfl
  | link target =>
      cases target with
      | none => cases htree
      | some tree => rfl
  | file => rfl

end Setting

def Stage (swap : Swap τ) (entry : Entry τ) (project rollback staging : Option (Entry τ)) :
    Phase → Prop
  | .making => project = some entry ∧ rollback = none
  | .copying | .rewriting =>
      project = some entry ∧ rollback = none ∧ ∃ mtime tree, staging = some (.dir mtime tree)
  | .settingAside =>
      project = some entry ∧ rollback = none ∧ ∃ mtime, staging = some (.dir mtime swap.migrated)
  | .movingIn =>
      project = none ∧ rollback = some entry ∧ ∃ mtime, staging = some (.dir mtime swap.migrated)
  | .movingBack => project = none ∧ rollback = some entry
  | .dropping => ∃ mtime, project = some (.dir mtime swap.migrated)
  | .clearing | .restoring | .finished =>
      (project = some entry ∧ rollback = none) ∨ (∃ mtime, project = some (.dir mtime swap.migrated)) ∨
        (project = none ∧ rollback = some entry)

structure Sound (swap : Swap τ) (start : Parent τ) (entry : Entry τ) (state : State τ) : Prop where
  keys : (keys state.parent).Nodup
  others : ∀ name, name ≠ swap.project → name ≠ swap.staging → name ≠ swap.rollback →
    get state.parent name = get start name
  stage : Stage swap entry (get state.parent swap.project) (get state.parent swap.rollback)
    (get state.parent swap.staging) state.phase

theorem Sound.whole (h : Sound swap start entry state) :
    get state.parent swap.project = some entry ∨
      (∃ mtime, get state.parent swap.project = some (.dir mtime swap.migrated)) ∨
      (get state.parent swap.project = none ∧ get state.parent swap.rollback = some entry) := by
  have hstage := h.stage
  generalize state.phase = phase at hstage
  cases phase with
  | making => exact .inl hstage.1
  | copying => exact .inl hstage.1
  | rewriting => exact .inl hstage.1
  | settingAside => exact .inl hstage.1
  | movingIn => exact .inr (.inr ⟨hstage.1, hstage.2.1⟩)
  | movingBack => exact .inr (.inr hstage)
  | dropping => exact .inr (.inl hstage)
  | clearing => exact hstage.imp_left And.left
  | restoring => exact hstage.imp_left And.left
  | finished => exact hstage.imp_left And.left

structure Near (swap : Swap τ) (before after : Parent τ) : Prop where
  keys : (keys before).Nodup → (keys after).Nodup
  others : ∀ name, name ≠ swap.project → name ≠ swap.staging → name ≠ swap.rollback →
    get after name = get before name

theorem Near.refl (parent : Parent τ) : Near swap parent parent :=
  ⟨id, fun _ _ _ _ => rfl⟩

theorem near_put {parent : Parent τ} {entry : Entry τ} : Near swap parent (put parent swap.staging entry) :=
  ⟨nodup_put, fun _ _ hstaging _ => get_put_ne hstaging⟩

theorem near_rework {parent : Parent τ} {name : Name} {mtime : ℕ} {tree : τ}
    (hname : name = swap.staging ∨ name = swap.rollback) :
    Near swap parent (parent.rework name mtime tree) := by
  refine ⟨nodup_rework, fun other _ hstaging hrollback => get_rework_ne ?_⟩
  rcases hname with rfl | rfl
  · exact hstaging
  · exact hrollback

theorem near_rmtree {parent : Parent τ} {name : Name}
    (hname : name = swap.staging ∨ name = swap.rollback) : Near swap parent (parent.rmtree name) := by
  refine ⟨nodup_rmtree, fun other _ hstaging hrollback => get_rmtree_ne ?_⟩
  rcases hname with rfl | rfl
  · exact hstaging
  · exact hrollback

theorem near_replace {parent replaced : Parent τ} {source target : Name}
    (hsource : source = swap.project ∨ source = swap.staging ∨ source = swap.rollback)
    (htarget : target = swap.project ∨ target = swap.staging ∨ target = swap.rollback)
    (h : parent.replace source target = some replaced) : Near swap parent replaced := by
  refine ⟨fun hkeys => nodup_replace hkeys h, fun name hproject hstaging hrollback => ?_⟩
  obtain ⟨entry, -, -, hget⟩ := replace_some h
  have hne : ∀ other, (other = swap.project ∨ other = swap.staging ∨ other = swap.rollback) →
      name ≠ other := by
    rintro other (rfl | rfl | rfl)
    · exact hproject
    · exact hstaging
    · exact hrollback
  rw [hget, if_neg (hne target htarget), if_neg (hne source hsource)]

theorem Sound.next (h : Sound swap start entry state) {parent : Parent τ} {phase : Phase}
    (hnear : Near swap state.parent parent)
    (hstage : Stage swap entry (get parent swap.project) (get parent swap.rollback)
      (get parent swap.staging) phase) :
    Sound swap start entry { parent, phase } :=
  ⟨hnear.keys h.keys, fun name hproject hstaging hrollback =>
    (hnear.others name hproject hstaging hrollback).trans (h.others name hproject hstaging hrollback),
    hstage⟩

section Steps

variable (hsetting : Setting swap start entry original) {parent : Parent τ}
include hsetting

theorem sound_making (h : Sound swap start entry ⟨parent, .making⟩) :
    Sound swap start entry (run swap ⟨parent, .making⟩ event) := by
  obtain ⟨hproject, hrollback⟩ := h.stage
  cases event with
  | done mtime =>
      refine h.next near_put ⟨?_, ?_, mtime, swap.empty, get_put_self⟩
      · rw [get_put_ne hsetting.staging_ne_project.symm]
        exact hproject
      · rw [get_put_ne hsetting.staging_ne_rollback.symm]
        exact hrollback
  | part mtime tree => exact h
  | fails => exact h.next (.refl _) (.inl ⟨hproject, hrollback⟩)

theorem stage_rework {mtime mtime' : ℕ} {tree tree' : τ}
    (hproject : get parent swap.project = some entry) (hrollback : get parent swap.rollback = none)
    (hstaging : get parent swap.staging = some (.dir mtime' tree')) :
    get (parent.rework swap.staging mtime tree) swap.project = some entry ∧
      get (parent.rework swap.staging mtime tree) swap.rollback = none ∧
      get (parent.rework swap.staging mtime tree) swap.staging = some (.dir mtime tree) := by
  rw [get_rework_ne hsetting.staging_ne_project.symm, get_rework_ne hsetting.staging_ne_rollback.symm]
  exact ⟨hproject, hrollback, get_rework_self hstaging⟩

theorem sound_copying (h : Sound swap start entry ⟨parent, .copying⟩) :
    Sound swap start entry (run swap ⟨parent, .copying⟩ event) := by
  obtain ⟨hproject, hrollback, mtime', tree', hstaging⟩ := h.stage
  cases event with
  | done mtime =>
      have htree : parent.tree swap.project = some original := by
        rw [Parent.tree, hproject]
        exact hsetting.tree
      simp only [run, htree]
      obtain ⟨hp, hr, hs⟩ := @stage_rework _ _ _ _ _ hsetting _ mtime _ original _ hproject hrollback hstaging
      exact h.next (near_rework (.inl rfl)) ⟨hp, hr, mtime, original, hs⟩
  | part mtime tree =>
      obtain ⟨hp, hr, hs⟩ := @stage_rework _ _ _ _ _ hsetting _ mtime _ tree _ hproject hrollback hstaging
      exact h.next (near_rework (.inl rfl)) ⟨hp, hr, mtime, tree, hs⟩
  | fails => exact h.next (.refl _) (.inl ⟨hproject, hrollback⟩)

theorem sound_rewriting (h : Sound swap start entry ⟨parent, .rewriting⟩) :
    Sound swap start entry (run swap ⟨parent, .rewriting⟩ event) := by
  obtain ⟨hproject, hrollback, mtime', tree', hstaging⟩ := h.stage
  cases event with
  | done mtime =>
      obtain ⟨hp, hr, hs⟩ :=
        @stage_rework _ _ _ _ _ hsetting _ mtime _ swap.migrated _ hproject hrollback hstaging
      exact h.next (near_rework (.inl rfl)) ⟨hp, hr, mtime, hs⟩
  | part mtime tree =>
      obtain ⟨hp, hr, hs⟩ := @stage_rework _ _ _ _ _ hsetting _ mtime _ tree _ hproject hrollback hstaging
      exact h.next (near_rework (.inl rfl)) ⟨hp, hr, mtime, tree, hs⟩
  | fails => exact h.next (.refl _) (.inl ⟨hproject, hrollback⟩)

omit hsetting in
theorem sound_replaced (h : Sound swap start entry state) {source target : Name} {moved : Entry τ}
    {next otherwise : Phase}
    (hsource : source = swap.project ∨ source = swap.staging ∨ source = swap.rollback)
    (htarget : target = swap.project ∨ target = swap.staging ∨ target = swap.rollback)
    (hmoved : get state.parent source = some moved) (hfree : get state.parent target = none)
    (hstage : ∀ parent : Parent τ, (∀ name, get parent name =
        if name = target then some moved else if name = source then none else get state.parent name) →
      Stage swap entry (get parent swap.project) (get parent swap.rollback) (get parent swap.staging)
        next) :
    Sound swap start entry (state.replaced source target next otherwise) := by
  have hreplace := replace_eq_some hmoved hfree
  rw [State.replaced, hreplace]
  refine h.next (near_replace hsource htarget hreplace) (hstage _ fun name => ?_)
  rw [get_put, get_remove]

theorem sound_settingAside (h : Sound swap start entry ⟨parent, .settingAside⟩) :
    Sound swap start entry (run swap ⟨parent, .settingAside⟩ event) := by
  obtain ⟨hproject, hrollback, mtime', hstaging⟩ := h.stage
  cases event with
  | done mtime =>
      refine sound_replaced h (.inl rfl) (.inr (.inr rfl)) hproject hrollback
        fun parent hget => ⟨?_, ?_, mtime', ?_⟩
      · rw [hget, if_neg hsetting.rollback_ne_project.symm, if_pos rfl]
      · rw [hget, if_pos rfl]
      · rw [hget, if_neg hsetting.staging_ne_rollback, if_neg hsetting.staging_ne_project]
        exact hstaging
  | part mtime tree => exact h
  | fails => exact h.next (.refl _) (.inl ⟨hproject, hrollback⟩)

omit hsetting in
theorem sound_movingIn (h : Sound swap start entry ⟨parent, .movingIn⟩) :
    Sound swap start entry (run swap ⟨parent, .movingIn⟩ event) := by
  obtain ⟨hproject, hrollback, mtime', hstaging⟩ := h.stage
  cases event with
  | done mtime =>
      refine sound_replaced h (.inr (.inl rfl)) (.inl rfl) hstaging hproject
        fun parent hget => ⟨mtime', ?_⟩
      rw [hget, if_pos rfl]
  | part mtime tree => exact h
  | fails => exact h.next (.refl _) ⟨hproject, hrollback⟩

theorem sound_back (h : Sound swap start entry state)
    (hproject : get state.parent swap.project = none)
    (hrollback : get state.parent swap.rollback = some entry) {next otherwise : Phase}
    (hnext : next = .clearing ∨ next = .finished) :
    Sound swap start entry (state.replaced swap.rollback swap.project next otherwise) := by
  refine sound_replaced h (.inr (.inr rfl)) (.inl rfl) hrollback hproject
    fun parent hget => ?_
  have hback : get parent swap.project = some entry ∧ get parent swap.rollback = none := by
    rw [hget, hget, if_pos rfl, if_neg hsetting.rollback_ne_project, if_pos rfl]
    exact ⟨rfl, rfl⟩
  rcases hnext with rfl | rfl
  · exact .inl hback
  · exact .inl hback

theorem sound_movingBack (h : Sound swap start entry ⟨parent, .movingBack⟩) :
    Sound swap start entry (run swap ⟨parent, .movingBack⟩ event) := by
  obtain ⟨hproject, hrollback⟩ := h.stage
  cases event with
  | done mtime => exact sound_back hsetting h hproject hrollback (.inl rfl)
  | part mtime tree => exact h
  | fails => exact h.next (.refl _) (.inr (.inr ⟨hproject, hrollback⟩))

theorem sound_dropping (h : Sound swap start entry ⟨parent, .dropping⟩) :
    Sound swap start entry (run swap ⟨parent, .dropping⟩ event) := by
  obtain ⟨mtime', hproject⟩ := h.stage
  cases event with
  | done mtime =>
      refine h.next (near_rmtree (.inr rfl)) (.inr (.inl ⟨mtime', ?_⟩))
      rw [get_rmtree_ne hsetting.rollback_ne_project.symm]
      exact hproject
  | part mtime tree =>
      refine h.next (near_rework (.inr rfl)) ⟨mtime', ?_⟩
      rw [get_rework_ne hsetting.rollback_ne_project.symm]
      exact hproject
  | fails => exact h.next (.refl _) (.inr (.inl ⟨mtime', hproject⟩))

theorem sound_clearing (h : Sound swap start entry ⟨parent, .clearing⟩) :
    Sound swap start entry (run swap ⟨parent, .clearing⟩ event) := by
  have hstage := h.stage
  cases event with
  | done mtime =>
      refine h.next (near_rmtree (.inl rfl)) ?_
      rw [get_rmtree_ne hsetting.staging_ne_project.symm,
        get_rmtree_ne hsetting.staging_ne_rollback.symm]
      exact hstage
  | part mtime tree =>
      refine h.next (near_rework (.inl rfl)) ?_
      rw [get_rework_ne hsetting.staging_ne_project.symm,
        get_rework_ne hsetting.staging_ne_rollback.symm]
      exact hstage
  | fails => exact h.next (.refl _) hstage

theorem sound_restoring (h : Sound swap start entry ⟨parent, .restoring⟩) :
    Sound swap start entry (run swap ⟨parent, .restoring⟩ event) := by
  have hstage := h.stage
  cases event with
  | done mtime =>
      simp only [run]
      split_ifs with hgone
      · have hproject : get parent swap.project = none := by
          rcases hstage with ⟨hthere, -⟩ | ⟨mtime', hthere⟩ | ⟨hnone, -⟩
          · refine absurd ?_ hgone.2
            rw [Parent.isThere, hthere]
            exact hsetting.isThere
          · refine absurd ?_ hgone.2
            rw [Parent.isThere, hthere]
            rfl
          · exact hnone
        have hrollback : get parent swap.rollback = some entry := by
          rcases hstage with ⟨hthere, -⟩ | ⟨mtime', hthere⟩ | ⟨-, hrollback⟩
          · cases hproject.symm.trans hthere
          · cases hproject.symm.trans hthere
          · exact hrollback
        exact sound_back hsetting h hproject hrollback (.inr rfl)
      · exact h.next (.refl _) hstage
  | part mtime tree => exact h
  | fails => exact h.next (.refl _) hstage

theorem Sound.step (h : Sound swap start entry state) :
    Sound swap start entry (run swap state event) := by
  obtain ⟨parent, phase⟩ := state
  cases phase with
  | making => exact sound_making hsetting h
  | copying => exact sound_copying hsetting h
  | rewriting => exact sound_rewriting hsetting h
  | settingAside => exact sound_settingAside hsetting h
  | movingIn => exact sound_movingIn h
  | movingBack => exact sound_movingBack hsetting h
  | dropping => exact sound_dropping hsetting h
  | clearing => exact sound_clearing hsetting h
  | restoring => exact sound_restoring hsetting h
  | finished => exact h

theorem sound_reachable (hreach : (migration swap start).Reachable state) :
    Sound swap start entry state := by
  refine hreach.invariant _ (fun state hinitial => ?_) fun state event later _ hsound _ hstep => ?_
  · rw [hinitial]
    exact ⟨hsetting.keys, fun _ _ _ _ => rfl, hsetting.there, hsetting.freshRollback⟩
  · rw [hstep]
    exact Sound.step hsetting hsound

end Steps

/-- A directory that would be tried for the project where it is set aside: one that was left before, or
the rollback directory of this swap, which is one only for a project that is no link. -/
def Rollback (swap : Swap τ) (start : Parent τ) (entry : Entry τ) (candidate : Candidate) (tree : τ) :
    Prop :=
  rollbackProjectName candidate.rollback = some swap.project ∧ candidate.project = swap.project ∧
    (get start candidate.rollback = some (.dir candidate.mtime tree) ∨
      (candidate.rollback = swap.rollback ∧ entry = .dir candidate.mtime tree))

def Restorable (swap : Swap τ) (start : Parent τ) (entry : Entry τ) (original : τ) : Prop :=
  ∃ candidate tree, Rollback swap start entry candidate tree ∧
    (tree = original ∨ tree = swap.migrated) ∧
    ∀ other rest, Rollback swap start entry other rest →
      other.rollback = candidate.rollback ∨ Ahead candidate other

/-- The project is whole after the next startup, and is not cleaned up; and what is claimed was made for
what it is claimed for. -/
structure Recovered (swap : Swap τ) (original : τ) (parent claimed : Parent τ) : Prop where
  whole : claimed.tree swap.project = some original ∨ claimed.tree swap.project = some swap.migrated
  cleaned : ∀ cutoff left, (cleanupCompletedSwapDirs cutoff left claimed).tree swap.project =
    claimed.tree swap.project
  own : ∀ name entry, get claimed name = some entry → get parent name = some entry ∨
    ∃ suffix, IsSuffix suffix ∧ get parent (newRollbackDir name suffix) = some entry

section Startup

variable (hsetting : Setting swap start entry original)
include hsetting

theorem rollback_iff (h : Sound swap start entry state)
    (hrollback : get state.parent swap.rollback = some entry) (candidate : Candidate) (tree : τ) :
    Rollback swap start entry candidate tree ↔ candidate.project = swap.project ∧
      rollbackProjectName candidate.rollback = some candidate.project ∧
      get state.parent candidate.rollback = some (.dir candidate.mtime tree) := by
  have hplace : rollbackProjectName candidate.rollback = some swap.project →
      (get state.parent candidate.rollback = some (.dir candidate.mtime tree) ↔
        get start candidate.rollback = some (.dir candidate.mtime tree) ∨
          (candidate.rollback = swap.rollback ∧ entry = .dir candidate.mtime tree)) := by
    intro hof
    by_cases hsame : candidate.rollback = swap.rollback
    · rw [hsame, hrollback, hsetting.freshRollback]
      constructor
      · exact fun heq => .inr ⟨rfl, Option.some.inj heq⟩
      · rintro (hnone | ⟨-, heq⟩)
        · cases hnone
        · rw [heq]
    · have hne : candidate.rollback ≠ swap.project := by
        intro heq
        rw [heq, hsetting.rollbackProjectName_project] at hof
        cases hof
      have hne' : candidate.rollback ≠ swap.staging := by
        intro heq
        rw [heq, hsetting.rollbackProjectName_staging] at hof
        cases hof
      rw [h.others _ hne hne' hsame]
      exact (or_iff_left fun hnew => hsame hnew.1).symm
  constructor
  · rintro ⟨hof, hname, hwhere⟩
    exact ⟨hname, hname ▸ hof, (hplace hof).mpr hwhere⟩
  · rintro ⟨hname, hof, hwhere⟩
    have hof' : rollbackProjectName candidate.rollback = some swap.project := hname ▸ hof
    exact ⟨hof', hname, (hplace hof').mp hwhere⟩

theorem tree_reclaim_absent (h : Sound swap start entry state)
    (hproject : get state.parent swap.project = none)
    (hrollback : get state.parent swap.rollback = some entry) :
    (((reclaimInterruptedSwaps state.parent).tree swap.project = some original ∨
      (reclaimInterruptedSwaps state.parent).tree swap.project = some swap.migrated)) ↔
      Restorable swap start entry original := by
  have hget := get_reclaim_absent h.keys hsetting.name hproject
  have hiff := rollback_iff hsetting h hrollback
  unfold Parent.tree
  rw [hget]
  constructor
  · intro hwhole
    cases hfirst : firstCandidate state.parent swap.project with
    | none =>
        rw [hfirst] at hwhole
        rcases hwhole with hnone | hnone
        · cases hnone
        · cases hnone
    | some candidate =>
        obtain ⟨hmem, hname, hahead⟩ := mem_of_firstCandidate hfirst
        obtain ⟨hof, tree, htree⟩ := (mem_candidates h.keys).mp hmem
        rw [hfirst, Option.bind_some, htree] at hwhole
        refine ⟨candidate, tree, (hiff candidate tree).mpr ⟨hname, hof, htree⟩,
          hwhole.imp Option.some.inj Option.some.inj, fun other rest hother => ?_⟩
        obtain ⟨hname', hof', htree'⟩ := (hiff other rest).mp hother
        rcases hahead other ((mem_candidates h.keys).mpr ⟨hof', rest, htree'⟩) hname' with heq | hahead'
        · exact .inl (congrArg Candidate.rollback heq)
        · exact .inr hahead'
  · rintro ⟨candidate, tree, hcandidate, hwhole, hahead⟩
    obtain ⟨hname, hof, htree⟩ := (hiff candidate tree).mp hcandidate
    have hmem := (mem_candidates h.keys).mpr ⟨hof, tree, htree⟩
    have hfirst := firstCandidate_eq h.keys hmem hname fun other hother hname' => by
      obtain ⟨hof', rest, htree'⟩ := (mem_candidates h.keys).mp hother
      exact hahead other rest ((hiff other rest).mpr ⟨hname', hof', htree'⟩)
    rw [hfirst, Option.bind_some, htree]
    exact hwhole.imp (congrArg some) (congrArg some)

theorem tree_reclaim_there (h : Sound swap start entry state)
    (hproject : get state.parent swap.project ≠ none) :
    (reclaimInterruptedSwaps state.parent).tree swap.project = some original ∨
      (reclaimInterruptedSwaps state.parent).tree swap.project = some swap.migrated := by
  unfold Parent.tree
  rcases h.whole with hold | ⟨mtime, hnew⟩ | ⟨hnone, -⟩
  · have hthere : state.parent.isThere swap.project = true := by
      rw [Parent.isThere, hold]
      exact hsetting.isThere
    rw [get_reclaim_there h.keys hsetting.name hthere, hold]
    exact .inl hsetting.tree
  · have hthere : state.parent.isThere swap.project = true := by
      rw [Parent.isThere, hnew]
      rfl
    rw [get_reclaim_there h.keys hsetting.name hthere, hnew]
    exact .inr rfl
  · exact absurd hnone hproject

end Startup

/-- Wherever a migration stops, all of the project is in its place or set aside, and the next startup
recovers it exactly if it is in its place, or a whole directory is the first one to be tried for it. -/
theorem recovered_iff (hsetting : Setting swap start entry original)
    (hreach : (migration swap start).Reachable state) :
    ((state.parent.tree swap.project = some original ∨
        state.parent.tree swap.project = some swap.migrated) ∨
      (get state.parent swap.project = none ∧ state.parent.tree swap.rollback = some original)) ∧
    (Recovered swap original state.parent (reclaimInterruptedSwaps state.parent) ↔
      get state.parent swap.project ≠ none ∨ Restorable swap start entry original) := by
  have hsound := sound_reachable hsetting hreach
  constructor
  · unfold Parent.tree
    rcases hsound.whole with hold | ⟨mtime, hnew⟩ | ⟨hnone, hrollback⟩
    · rw [hold]
      exact .inl (.inl hsetting.tree)
    · rw [hnew]
      exact .inl (.inr rfl)
    · rw [hrollback]
      exact .inr ⟨hnone, hsetting.tree⟩
  · have hrecovered : Recovered swap original state.parent (reclaimInterruptedSwaps state.parent) ↔
        (reclaimInterruptedSwaps state.parent).tree swap.project = some original ∨
          (reclaimInterruptedSwaps state.parent).tree swap.project = some swap.migrated := by
      refine ⟨fun h => h.whole, fun hwhole => ⟨hwhole, fun cutoff left => ?_, fun name entry hentry =>
        reclaim_own hsound.keys hentry⟩⟩
      unfold Parent.tree
      rw [get_cleanup (nodup_reclaim hsound.keys) hsetting.name]
    rw [hrecovered]
    by_cases hproject : get state.parent swap.project = none
    · have hrollback : get state.parent swap.rollback = some entry := by
        rcases hsound.whole with hold | ⟨mtime, hnew⟩ | ⟨-, hrollback⟩
        · cases hproject.symm.trans hold
        · cases hproject.symm.trans hnew
        · exact hrollback
      rw [tree_reclaim_absent hsetting hsound hproject hrollback]
      exact (or_iff_right fun hne => hne hproject).symm
    · exact iff_of_true (tree_reclaim_there hsetting hsound hproject) (.inl hproject)

theorem restorable_of_newest (hsetting : Setting swap start entry original) {mtime : ℕ}
    (hentry : entry = .dir mtime original)
    (hnewest : ∀ name mtime' tree, rollbackProjectName name = some swap.project →
      get start name = some (.dir mtime' tree) → mtime' < mtime) :
    Restorable swap start entry original := by
  refine ⟨⟨mtime, swap.rollback, swap.project⟩, original,
    ⟨hsetting.rollbackProjectName_rollback, rfl, .inr ⟨rfl, hentry⟩⟩, .inl rfl,
    fun other rest hother => ?_⟩
  obtain ⟨hof, -, hleft | ⟨hsame, -⟩⟩ := hother
  · exact .inr (.inl (hnewest _ _ _ hof hleft))
  · exact .inl hsame

theorem not_restorable_link {target : Option τ} (hentry : entry = .link target)
    (hnone : ∀ name mtime tree, rollbackProjectName name = some swap.project →
      get start name ≠ some (.dir mtime tree)) :
    ¬ Restorable swap start entry original := by
  rintro ⟨candidate, tree, ⟨hof, -, hleft | ⟨-, hdir⟩⟩, -⟩
  · exact hnone _ _ _ hof hleft
  · cases hentry.symm.trans hdir

end Runs

def demoSwap : Swap ℕ where
  project := ['d', 'e', 'm', 'o']
  staging := newStagingDir ['d', 'e', 'm', 'o'] (List.replicate 32 '0')
  rollback := newRollbackDir ['d', 'e', 'm', 'o'] (List.replicate 32 '1')
  empty := 0
  migrated := 2

def demoRun (entry : Entry ℕ) : State ℕ :=
  [.done 3, .part 3 0, .done 3, .part 4 0, .done 4, .done 4].foldl (run demoSwap)
    { parent := [(['d', 'e', 'm', 'o'], entry)], phase := .making }

theorem demo_reachable (entry : Entry ℕ) :
    (migration demoSwap [(['d', 'e', 'm', 'o'], entry)]).Reachable (demoRun entry) :=
  TransitionSystem.reachable_foldl (.start rfl) (TransitionSystem.along_true _ _)

theorem demo_setting : Setting demoSwap [(['d', 'e', 'm', 'o'], .dir 1 1)] (.dir 1 1) 1 := by
  have hsuffix : ∀ c ∈ ['0', '1'], IsSuffix (List.replicate 32 c) := by
    intro c hc
    rcases List.mem_cons.mp hc with rfl | hc
    · exact ⟨by decide, by decide⟩
    · rw [List.mem_singleton.mp hc]
      exact ⟨by decide, by decide⟩
  exact ⟨by decide, ⟨by decide, by decide⟩, rfl, rfl, ⟨_, hsuffix '0' (by decide), rfl⟩,
    ⟨_, hsuffix '1' (by decide), rfl⟩, by decide, by decide⟩

theorem recovered_iff_demo : Recovered demoSwap 1 (demoRun (.dir 1 1)).parent
    (reclaimInterruptedSwaps (demoRun (.dir 1 1)).parent) := by
  refine (recovered_iff demo_setting (demo_reachable (.dir 1 1))).2.mpr (.inr ?_)
  refine restorable_of_newest demo_setting rfl fun name mtime tree hname hleft => ?_
  obtain rfl := List.mem_singleton.mp (List.mem_map_of_mem (mem_of_get hleft) (f := Prod.fst))
  exact absurd hname (by decide)

/-- A project that is a link is not claimed when the process dies between the two renames. -/
theorem linked_project_lost :
    ∃ state, (migration demoSwap [(['d', 'e', 'm', 'o'], .link (some 1))]).Reachable state ∧
      (reclaimInterruptedSwaps state.parent).tree demoSwap.project = none :=
  ⟨demoRun (.link (some 1)), demo_reachable _, by decide⟩

end ShortReel.StagedSwapRuns
