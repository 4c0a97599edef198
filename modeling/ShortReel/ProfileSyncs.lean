import ShortReel.ProfileManifest

/-!
# Syncs of the profile

What a sync does at every path, and that what it overwrites or deletes is a version of the profile that
an earlier sync has recorded.
-/

namespace ShortReel.ProfileSyncs

open InsertionDict NameOrder ProfileManifest

section Lookups

variable {κ ν : Type} [DecidableEq κ] {dict : Dict κ ν} {key other : κ}

theorem get_assign (value : Option ν) :
    get (assign dict key value) other = if other = key then value else get dict other := by
  unfold assign
  by_cases hsame : other = key
  · rw [if_pos hsame, hsame]
    cases value with
    | none => exact get_remove_self
    | some value => exact get_put_self
  · rw [if_neg hsame]
    cases value with
    | none => exact get_remove_ne hsame
    | some value => exact get_put_ne hsame

end Lookups

/-- What a decision can do. The rows of the table are put together that change the same. -/
inductive Decided {β δ : Type} (hashing : Hashing β δ) (now : ℕ) (fault : Option (Fault β)) :
    Option β → Option β → Option (Entry δ) → Option β → Option (Entry δ) → Outcome → Prop where
  | early (p d : Option β) (m : Option (Entry δ)) (hfault : fault = some .early) :
      Decided hashing now fault p d m d m .error
  | created (p : β) : Decided hashing now fault (some p) none none (some p)
      (some (profileActiveEntry hashing p)) .created
  | createFailed (p : β) {left : Option β} (hfault : fault = some (.copying left)) :
      Decided hashing now fault (some p) none none left none .error
  | deletedUser (p : β) (sha256 : δ) (size : ℕ) : Decided hashing now fault (some p) none
      (some (.profile sha256 size)) none (some (.tombstone now)) .deletedUser
  | same (p d : β) (sha256 : δ) (size : ℕ) (hsame : hashing.sha256 d = hashing.sha256 p)
      (hentry : sha256 = hashing.sha256 p) :
      Decided hashing now fault (some p) (some d) (some (.profile sha256 size)) (some d)
        (some (.profile sha256 size)) .unchanged
  | upgraded (p d : β) (sha256 : δ) (size : ℕ) (hentry : hashing.sha256 d = sha256)
      (hne : hashing.sha256 d ≠ hashing.sha256 p) :
      Decided hashing now fault (some p) (some d) (some (.profile sha256 size)) (some p)
        (some (profileActiveEntry hashing p)) .upgraded
  | upgradeFailed (p d : β) (sha256 : δ) (size : ℕ) {left : Option β}
      (hentry : hashing.sha256 d = sha256) (hne : hashing.sha256 d ≠ hashing.sha256 p)
      (hfault : fault = some (.copying left)) :
      Decided hashing now fault (some p) (some d) (some (.profile sha256 size)) left
        (some (.profile sha256 size)) .error
  | returned (p d : β) (sha256 : δ) (size : ℕ) (hne : hashing.sha256 d ≠ sha256)
      (hsame : hashing.sha256 d = hashing.sha256 p) :
      Decided hashing now fault (some p) (some d) (some (.profile sha256 size)) (some d)
        (some (profileActiveEntry hashing p)) .unchanged
  | userModified (p d : β) (sha256 : δ) (size : ℕ) (hne : hashing.sha256 d ≠ sha256)
      (hother : hashing.sha256 d ≠ hashing.sha256 p) :
      Decided hashing now fault (some p) (some d) (some (.profile sha256 size)) (some d)
        (some (.profile sha256 size)) .userModified
  | pruned (d : β) (sha256 : δ) (size : ℕ) (hentry : hashing.sha256 d = sha256) :
      Decided hashing now fault none (some d) (some (.profile sha256 size)) none
        (some (.tombstone now)) .pruned
  | orphaned (d : β) (sha256 : δ) (size : ℕ) (hne : hashing.sha256 d ≠ sha256) :
      Decided hashing now fault none (some d) (some (.profile sha256 size)) (some d)
        (some (.profile sha256 size)) .orphaned
  | userOnly (d : β) : Decided hashing now fault none (some d) none (some d) none .userOnly
  | restored (p : Option β) (d : β) (deletedAt : ℕ) : Decided hashing now fault p (some d)
      (some (.tombstone deletedAt)) (some d) none .userOnly
  | tombstoned (p : Option β) (deletedAt : ℕ) : Decided hashing now fault p none
      (some (.tombstone deletedAt)) none (some (.tombstone deletedAt)) .tombstoned
  | bothGone (sha256 : δ) (size : ℕ) : Decided hashing now fault none none
      (some (.profile sha256 size)) none (some (.tombstone now)) .pruned
  | adopted (p d : β) (hsame : hashing.sha256 d = hashing.sha256 p) :
      Decided hashing now fault (some p) (some d) none (some d)
        (some (profileActiveEntry hashing p)) .collision
  | collided (p d : β) (hne : hashing.sha256 d ≠ hashing.sha256 p) :
      Decided hashing now fault (some p) (some d) none (some d) none .collision

section Decisions

variable {β δ : Type} {hashing : Hashing β δ} {now : ℕ} {fault : Option (Fault β)} {p d d' : Option β}
  {m m' : Option (Entry δ)} {outcome : Outcome}

theorem safeCopy_ok {p file : β} (h : safeCopy fault p = .ok file) : file = p := by
  unfold safeCopy at h
  split at h
  · cases h
  · cases h
    rfl

theorem safeCopy_error {p : β} {left : Option β} (h : safeCopy fault p = .error left) :
    fault = some (.copying left) := by
  unfold safeCopy at h
  split at h
  · cases h
    rfl
  · cases h

theorem applyDecision_cases [DecidableEq δ]
    (h : applyDecision hashing now fault p d m = some (d', m', outcome)) :
    Decided hashing now fault p d m d' m' outcome := by
  unfold applyDecision at h
  split at h
  · cases h
    exact .early _ _ _ rfl
  · split at h
    · split at h
      · cases h
        obtain rfl := safeCopy_ok ‹_›
        exact .created _
      · cases h
        exact .createFailed _ (safeCopy_error ‹_›)
    · cases h
      exact .deletedUser _ _ _
    · split_ifs at h with hsame hupgrade hreturned
      · cases h
        exact .same _ _ _ _ hsame.1 hsame.2
      · split at h
        · cases h
          obtain rfl := safeCopy_ok ‹_›
          exact .upgraded _ _ _ _ hupgrade.1 hupgrade.2
        · cases h
          exact .upgradeFailed _ _ _ _ hupgrade.1 hupgrade.2 (safeCopy_error ‹_›)
      · cases h
        exact .returned _ _ _ _ hreturned.1 hreturned.2
      · cases h
        refine .userModified _ _ _ _ (fun heq => ?_) fun heq => ?_
        · exact hupgrade ⟨heq, fun hp => hsame ⟨hp, heq.symm.trans hp⟩⟩
        · exact hreturned ⟨fun heq' => hsame ⟨heq, heq'.symm.trans heq⟩, heq⟩
    · split_ifs at h with hsame
      · cases h
        exact .pruned _ _ _ hsame
      · cases h
        exact .orphaned _ _ _ hsame
    · cases h
      exact .userOnly _
    · cases h
      exact .restored _ _ _
    · cases h
      exact .tombstoned _ _
    · cases h
      exact .restored _ _ _
    · cases h
      exact .tombstoned _ _
    · cases h
      exact .bothGone _ _
    · split_ifs at h with hsame
      · cases h
        exact .adopted _ _ hsame
      · cases h
        exact .collided _ _ hsame
    · cases h

theorem Decided.entry (h : Decided hashing now fault p d m d' m' outcome) {sha256 : δ} {size : ℕ}
    (hentry : m' = some (.profile sha256 size)) :
    m = m' ∨ ∃ q, p = some q ∧ m' = some (profileActiveEntry hashing q) := by
  cases h <;> first | exact .inl rfl | exact .inr ⟨_, rfl, rfl⟩ | cases hentry

theorem Decided.lost (h : Decided hashing now fault p d m d' m' outcome) {c : β}
    (hfile : d = some c) (hlost : d' ≠ some c) :
    ∃ sha256 size, m = some (.profile sha256 size) ∧ hashing.sha256 c = sha256 := by
  cases h with
  | upgraded _ _ sha256 size hentry | upgradeFailed _ _ sha256 size hentry
  | pruned _ sha256 size hentry =>
      cases hfile
      exact ⟨sha256, size, rfl, hentry⟩
  | _ => first | exact absurd hfile hlost | cases hfile

theorem Decided.nothing (h : Decided hashing now fault none none none d' m' outcome) : d' = none := by
  cases h
  rfl

theorem Decided.again {now' : ℕ} {fault' : Option (Fault β)} {d'' : Option β}
    {m'' : Option (Entry δ)} {outcome' : Outcome}
    (h : Decided hashing now fault p d m d' m' outcome) (hok : outcome ≠ .error)
    (h' : Decided hashing now' fault' p d' m' d'' m'' outcome') : d'' = d' := by
  cases h with
  | early | createFailed | upgradeFailed => exact absurd rfl hok
  | same p d sha256 size hsame hentry => cases h' <;> first | rfl | exact absurd hsame ‹_›
  | userModified p d sha256 size hne => cases h' <;> first | rfl | exact absurd ‹_› hne
  | returned p d sha256 size hne hsame => cases h' <;> first | rfl | exact absurd hsame ‹_›
  | orphaned d sha256 size hne => cases h' <;> first | rfl | exact absurd ‹_› hne
  | adopted p d hsame => cases h' <;> first | rfl | exact absurd hsame ‹_›
  | restored p d deletedAt => cases h' <;> rfl
  | _ => cases h' <;> first | rfl | exact absurd rfl ‹_›

end Decisions

variable {β δ : Type} [DecidableEq δ] {hashing : Hashing β δ} {now : ℕ}
  {faults : Rel → Option (Fault β)} {mapping : Dict Rel β} {mode : ContentMode}

theorem applyDecision_isSome {fault : Option (Fault β)} {p d : Option β} {m : Option (Entry δ)}
    (h : p ≠ none ∨ d ≠ none ∨ m ≠ none) : (applyDecision hashing now fault p d m).isSome := by
  unfold applyDecision
  split
  · rfl
  · split <;> first | rfl | skip
    · split <;> rfl
    · split_ifs
      · rfl
      · split <;> rfl
      · rfl
      · rfl
    · split_ifs <;> rfl
    · split_ifs <;> rfl
    · simp at h

theorem foldlM_syncRound {rels : List Rel} (hrels : rels.Nodup) {state : SyncState β δ}
    (hthere : ∀ rel ∈ rels,
      get mapping rel ≠ none ∨ get state.files rel ≠ none ∨ get state.entries rel ≠ none) :
    ∃ state', rels.foldlM (syncRound hashing now faults mapping) state = some state' ∧
      (∀ counter ∈ state.stats, counter ∈ state'.stats) ∧
      ∀ rel, (rel ∉ rels ∧ get state'.files rel = get state.files rel ∧
          get state'.entries rel = get state.entries rel) ∨
        rel ∈ rels ∧ ∃ outcome, (rel, outcome) ∈ state'.stats ∧
          applyDecision hashing now (faults rel) (get mapping rel) (get state.files rel)
            (get state.entries rel) =
              some (get state'.files rel, get state'.entries rel, outcome) := by
  induction rels generalizing state with
  | nil => exact ⟨state, rfl, fun _ => id, fun rel => .inl ⟨List.not_mem_nil, rfl, rfl⟩⟩
  | cons first rels ih =>
      obtain ⟨hfresh, hrest⟩ := List.nodup_cons.mp hrels
      have hsome := @applyDecision_isSome _ _ _ hashing now (faults first) _ _ _
        (hthere first List.mem_cons_self)
      obtain ⟨⟨d, m, outcome⟩, hdecision⟩ := Option.isSome_iff_exists.mp hsome
      have hround : syncRound hashing now faults mapping state first = some
          { files := assign state.files first d
            entries := assign state.entries first m
            stats := state.stats ++ [(first, outcome)] } := by
        rw [syncRound, hdecision]
        rfl
      have hother : ∀ rel, rel ≠ first → get (assign state.files first d) rel = get state.files rel ∧
          get (assign state.entries first m) rel = get state.entries rel := by
        intro rel hne
        rw [get_assign, get_assign, if_neg hne, if_neg hne]
        exact ⟨rfl, rfl⟩
      obtain ⟨state', hrun, hstats, hpaths⟩ := @ih hrest
        { files := assign state.files first d
          entries := assign state.entries first m
          stats := state.stats ++ [(first, outcome)] } (by
            intro rel hrel
            obtain ⟨hfile, hentry⟩ := hother rel fun heq => hfresh (heq ▸ hrel)
            dsimp only
            rw [hfile, hentry]
            exact hthere rel (List.mem_cons_of_mem _ hrel))
      refine ⟨state', ?_, fun counter hmem => hstats _ (List.mem_append_left _ hmem), fun rel => ?_⟩
      · rw [List.foldlM_cons, hround]
        exact hrun
      by_cases hsame : rel = first
      · refine .inr ⟨List.mem_cons.mpr (.inl hsame), outcome,
          hstats _ (List.mem_append_right _ (by simp [hsame])), ?_⟩
        rcases hpaths rel with ⟨-, hfile, hentry⟩ | ⟨hlater, -⟩
        · rw [hfile, hentry, get_assign, get_assign, if_pos hsame, if_pos hsame, hsame]
          exact hdecision
        · exact absurd (hsame ▸ hlater) hfresh
      · obtain ⟨hfile, hentry⟩ := hother rel hsame
        rcases hpaths rel with ⟨hnot, hkeptFile, hkeptEntry⟩ | ⟨hmem, later, hlater, hdecided⟩
        · refine .inl ⟨fun hmem => ?_, hkeptFile.trans hfile, hkeptEntry.trans hentry⟩
          exact (List.mem_cons.mp hmem).elim hsame hnot
        · refine .inr ⟨List.mem_cons_of_mem _ hmem, later, hlater, ?_⟩
          dsimp only at hdecided
          rw [hfile, hentry] at hdecided
          exact hdecided

/-- What a sync has made of a project: nothing of a path at which nothing is, and of any other what
the table says. -/
def Synced (hashing : Hashing β δ) (now : ℕ) (faults : Rel → Option (Fault β)) (mapping : Dict Rel β)
    (before after : Project β δ) (stats : List (Rel × Outcome)) : Prop :=
  ∀ rel, (get mapping rel = none ∧ get before.files rel = none ∧ before.entry rel = none ∧
      get after.files rel = none ∧ after.entry rel = none) ∨
    ∃ outcome, (rel, outcome) ∈ stats ∧
      Decided hashing now (faults rel) (get mapping rel) (get before.files rel) (before.entry rel)
        (get after.files rel) (after.entry rel) outcome

def Readable (mode : ContentMode) (project : Project β δ) : Prop :=
  ∃ entries, project.manifest = some ⟨entries, some mode⟩

theorem sync_synced {project : Project β δ} (hmapping : mapping ≠ [])
    (hreadable : Readable mode project) :
    ∃ project' stats,
      syncProfileToProject hashing now faults mapping mode project = some (project', stats) ∧
        Readable mode project' ∧ Synced hashing now faults mapping project project' stats := by
  obtain ⟨entries, hmanifest⟩ := hreadable
  have hmismatch : ¬ (some mode ≠ none ∧ some mode ≠ some mode) := fun h => h.2 rfl
  have hmem : ∀ rel, rel ∈ sortedSet (keys mapping ++ keys project.files ++ keys entries) ↔
      get mapping rel ≠ none ∨ get project.files rel ≠ none ∨ get entries rel ≠ none := by
    intro rel
    rw [mem_sortedSet, List.mem_append, List.mem_append, Ne, Ne, Ne, get_eq_none_iff,
      get_eq_none_iff, get_eq_none_iff, not_not, not_not, not_not, or_assoc]
  obtain ⟨state, hrun, -, hpaths⟩ := @foldlM_syncRound β δ _ hashing now faults mapping
    (sortedSet (keys mapping ++ keys project.files ++ keys entries)) nodup_sortedSet
    { files := project.files, entries, stats := [] } fun rel hrel => (hmem rel).mp hrel
  refine ⟨⟨state.files, some ⟨state.entries, some mode⟩⟩, state.stats, ?_, ⟨state.entries, rfl⟩,
    fun rel => ?_⟩
  · unfold syncProfileToProject
    rw [if_neg hmapping, hmanifest]
    dsimp only
    rw [if_neg hmismatch, hrun]
    rfl
  · have hentry : project.entry rel = get entries rel := by
      rw [Project.entry, hmanifest]
      rfl
    rw [hentry]
    rcases hpaths rel with ⟨hnot, hfile, hkept⟩ | ⟨-, outcome, hstat, hdecided⟩
    · rw [hmem rel, not_or, not_or, not_not, not_not, not_not] at hnot
      obtain ⟨hp, hd, hm⟩ := hnot
      exact .inl ⟨hp, hd, hm, hfile.trans hd, hkept.trans hm⟩
    · exact .inr ⟨outcome, hstat, applyDecision_cases hdecided⟩

theorem synced_of_some {project project' : Project β δ} {stats : List (Rel × Outcome)}
    (hreadable : Readable mode project)
    (h : syncProfileToProject hashing now faults mapping mode project = some (project', stats)) :
    Readable mode project' ∧ Synced hashing now faults mapping project project' stats := by
  have hmapping : mapping ≠ [] := by
    intro hnil
    unfold syncProfileToProject at h
    rw [if_pos hnil] at h
    cases h
  obtain ⟨other, counters, hother, hspec⟩ :=
    @sync_synced β δ _ hashing now faults mapping mode project hmapping hreadable
  cases hother.symm.trans h
  exact hspec

def resetCell (hashing : Hashing β δ) (fault : Option (Fault β)) (p : Option β) :
    Option β × Option (Entry δ) :=
  match fault, p with
  | none, some p => (some p, some (profileActiveEntry hashing p))
  | some (.copying left), some _ => (left, none)
  | _, _ => (none, none)

omit [DecidableEq δ]

theorem foldl_resetRound {rels : List Rel} (hrels : rels.Nodup) {state : SyncState β δ}
    (hnone : ∀ rel ∈ rels, get state.files rel = none ∧ get state.entries rel = none) (rel : Rel) :
    (get (rels.foldl (resetRound hashing faults mapping) state).files rel,
      get (rels.foldl (resetRound hashing faults mapping) state).entries rel) =
        if rel ∈ rels then resetCell hashing (faults rel) (get mapping rel)
        else (get state.files rel, get state.entries rel) := by
  induction rels generalizing state with
  | nil => rw [if_neg List.not_mem_nil, List.foldl_nil]
  | cons first rels ih =>
      obtain ⟨hfresh, hrest⟩ := List.nodup_cons.mp hrels
      obtain ⟨hfile, hentry⟩ := hnone first List.mem_cons_self
      have hstays : ∀ rel, (get state.files rel, get state.entries rel) =
          if rel = first then (none, none) else (get state.files rel, get state.entries rel) := by
        intro rel
        by_cases hsame : rel = first
        · rw [if_pos hsame, hsame, hfile, hentry]
        · rw [if_neg hsame]
      have hround : ∀ rel, (get (resetRound hashing faults mapping state first).files rel,
          get (resetRound hashing faults mapping state first).entries rel) =
            if rel = first then resetCell hashing (faults first) (get mapping first)
            else (get state.files rel, get state.entries rel) := by
        intro rel
        cases hfault : faults first with
        | none =>
            cases hp : get mapping first with
            | none =>
                simp only [resetRound, resetCell, hfault, hp]
                exact hstays rel
            | some p =>
                simp only [resetRound, resetCell, hfault, hp]
                by_cases hsame : rel = first
                · rw [if_pos hsame, hsame, get_put_self, get_put_self]
                · rw [if_neg hsame, get_put_ne hsame, get_put_ne hsame]
        | some fault =>
            cases fault with
            | early =>
                simp only [resetRound, resetCell, hfault]
                exact hstays rel
            | copying left =>
                cases hp : get mapping first with
                | none =>
                    simp only [resetRound, resetCell, hfault, hp]
                    exact hstays rel
                | some p =>
                    simp only [resetRound, resetCell, hfault, hp, get_assign]
                    by_cases hsame : rel = first
                    · rw [if_pos hsame, if_pos hsame, hsame, hentry]
                    · rw [if_neg hsame, if_neg hsame]
      have hlater : ∀ rel ∈ rels, get (resetRound hashing faults mapping state first).files rel = none ∧
          get (resetRound hashing faults mapping state first).entries rel = none := by
        intro rel hrel
        have hcell := hround rel
        rw [if_neg fun heq : rel = first => hfresh (heq ▸ hrel)] at hcell
        obtain ⟨hfile, hentry⟩ := hnone rel (List.mem_cons_of_mem _ hrel)
        rw [hfile, hentry] at hcell
        exact ⟨congrArg Prod.fst hcell, congrArg Prod.snd hcell⟩
      rw [List.foldl_cons, ih hrest hlater, hround]
      by_cases hsame : rel = first
      · rw [if_neg (hsame ▸ hfresh), if_pos hsame, hsame, if_pos List.mem_cons_self]
      · have hiff : rel ∈ first :: rels ↔ rel ∈ rels :=
          ⟨fun h => (List.mem_cons.mp h).resolve_left hsame, List.mem_cons_of_mem _⟩
        rw [if_neg hsame]
        exact if_congr hiff.symm rfl rfl

theorem reset_paths (mode : ContentMode) :
    Readable mode (fullResetFromProfile hashing faults mapping mode).1 ∧ ∀ rel,
      (get (fullResetFromProfile hashing faults mapping mode).1.files rel,
        (fullResetFromProfile hashing faults mapping mode).1.entry rel) =
          resetCell hashing (faults rel) (get mapping rel) := by
  refine ⟨⟨_, rfl⟩, fun rel => ?_⟩
  have hcells := @foldl_resetRound β δ hashing faults mapping (sortedSet (keys mapping))
    nodup_sortedSet { files := [], entries := [], stats := [] } (fun _ _ => ⟨rfl, rfl⟩) rel
  refine hcells.trans ?_
  by_cases hmem : rel ∈ sortedSet (keys mapping)
  · exact if_pos hmem
  · have hnone : get mapping rel = none :=
      get_eq_none_iff.mpr fun hkey => hmem (mem_sortedSet.mpr hkey)
    rw [if_neg hmem, hnone]
    unfold resetCell
    split
    · contradiction
    · contradiction
    · rfl

end ShortReel.ProfileSyncs
