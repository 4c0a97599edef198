import ShortReel.EntryProjection

/-!
# What is shown of the event log

The turns of a timeline without caches: a function of the accumulated state, by recursion down the
anchors. A change that gives new versions to what it reaches leaves the rest as it is shown.
-/

namespace ShortReel.EntryProjection

open ParentForests

variable {ν : Type}

section Views

variable (core : Core ν) (subs : String → List (TurnView ν)) (k : FoldKey)

def viewBlock (i : ℕ) (block : Block ν × ℕ) : BlockView ν :=
  .mk block.1 ((core.anchoredAt ⟨k, i, block.2⟩ block.1).map subs) none

def viewTurn (turn : InternalTurn ν × ℕ) : TurnView ν :=
  finishTurn turn.1 (turn.1.content.zipIdx.map (viewBlock core subs k turn.2))

def viewFold : List (TurnView ν) :=
  (core.folds k).turns.zipIdx.map (viewTurn core subs k)

end Views

theorem anchoredAt_some {core : Core ν} {site : ToolUseSite} {block : Block ν} {g : String}
    (h : core.anchoredAt site block = some g) : g ∈ core.groups ∧ core.anchors g = some site := by
  unfold Core.anchoredAt at h
  split_ifs at h
  obtain ⟨-, hanchored⟩ := Option.filter_eq_some_iff.mp h
  exact of_decide_eq_true hanchored

theorem parent_of_anchor {core : Core ν} {g : String} {site : ToolUseSite}
    (h : core.anchors g = some site) : core.parent (some g) = some site.fold := by
  change (core.anchors g).map (·.fold) = some site.fold
  rw [h, Option.map_some]

theorem anchor_of_parent {core : Core ν} {g : String} {k : FoldKey}
    (h : core.parent (some g) = some k) : ∃ site, core.anchors g = some site ∧ site.fold = k :=
  Option.map_eq_some_iff.mp h

theorem viewBlock_congr {core core' : Core ν} {subs subs' : String → List (TurnView ν)}
    {k : FoldKey} {i : ℕ} {block : Block ν × ℕ}
    (hat : core'.anchoredAt ⟨k, i, block.2⟩ block.1 = core.anchoredAt ⟨k, i, block.2⟩ block.1)
    (hsubs : ∀ g, core.anchors g = some ⟨k, i, block.2⟩ → subs' g = subs g) :
    viewBlock core' subs' k i block = viewBlock core subs k i block := by
  unfold viewBlock
  rw [hat]
  cases hg : core.anchoredAt ⟨k, i, block.2⟩ block.1 with
  | none => rfl
  | some g => rw [Option.map_some, Option.map_some, hsubs g (anchoredAt_some hg).2]

theorem viewTurn_congr {core core' : Core ν} {subs subs' : String → List (TurnView ν)} {k : FoldKey}
    {turn : InternalTurn ν × ℕ}
    (hat : ∀ j block, core'.anchoredAt ⟨k, turn.2, j⟩ block = core.anchoredAt ⟨k, turn.2, j⟩ block)
    (hsubs : ∀ g j, core.anchors g = some ⟨k, turn.2, j⟩ → subs' g = subs g) :
    viewTurn core' subs' k turn = viewTurn core subs k turn := by
  unfold viewTurn
  refine congrArg (finishTurn turn.1) (List.map_congr_left fun block _ => ?_)
  exact viewBlock_congr (hat _ _) fun g hg => hsubs g _ hg

section Shown

variable (core : Core ν) (h : Grounded core.parent)

noncomputable def shown : FoldKey → List (TurnView ν) :=
  h.fix (C := fun _ => List (TurnView ν)) fun k below =>
    viewFold core (fun g => if hg : core.parent (some g) = some k then below (some g) hg else []) k

noncomputable def shownBelow (g : String) : List (TurnView ν) :=
  shown core h (some g)

theorem shown_eq (k : FoldKey) : shown core h k = viewFold core (shownBelow core h) k := by
  refine (WellFounded.fix_eq _ _ _).trans ?_
  refine List.map_congr_left fun turn _ => viewTurn_congr (fun _ _ => rfl) fun g j hg => ?_
  rw [dif_pos (parent_of_anchor hg)]
  rfl

noncomputable def composition : List (TurnView ν) :=
  shown core h none ++ core.pending.map fun id => card core id (shown core h (some id))

end Shown

def Core.HasTurn (core : Core ν) (site : ToolUseSite) : Prop :=
  site.fold ∈ core.keys ∧ site.turn < (core.folds site.fold).turns.length

structure Core.Sound (core : Core ν) : Prop where
  foldVersion : ∀ k, (core.folds k).version ≤ core.counter
  turnVersion : ∀ k, ∀ turn ∈ (core.folds k).turns, turn.version ≤ core.counter
  absent : ∀ k, k ∉ core.keys → core.folds k = newFold
  pending : ∀ g ∈ core.pending, g ∈ core.groups
  group : ∀ g site, core.anchors g = some site → g ∈ core.groups
  anchor : ∀ g site, core.anchors g = some site → core.HasTurn site
  site : ∀ id site, core.sites id = some site → core.HasTurn site
  grounded : Grounded core.parent

theorem Core.Sound.parent_mem {core : Core ν} (h : core.Sound) {k above : FoldKey}
    (hparent : core.parent k = some above) : above ∈ core.keys := by
  cases k with
  | none => cases hparent
  | some g =>
      obtain ⟨site, hsite, rfl⟩ := anchor_of_parent hparent
      exact (h.anchor g site hsite).1

theorem Core.Sound.child_mem {core : Core ν} (h : core.Sound) {g : String} {k : FoldKey}
    (hparent : core.parent (some g) = some k) : some g ∈ core.keys := by
  obtain ⟨site, hsite, -⟩ := anchor_of_parent hparent
  exact List.mem_cons_of_mem _ (List.mem_map_of_mem (h.group g site hsite))

theorem Core.empty_sound : (Core.empty : Core ν).Sound where
  foldVersion _ := Nat.le_refl _
  turnVersion _ _ h := by cases h
  absent _ _ := rfl
  pending _ h := absurd h List.not_mem_nil
  group _ _ h := by cases h
  anchor _ _ h := by cases h
  site _ _ h := by cases h
  grounded := ⟨fun k => Acc.intro k fun child hchild => by cases child <;> cases hchild⟩

structure Refreshes (core core' : Core ν) : Prop where
  counter : core.counter ≤ core'.counter
  fold : ∀ k, (core'.folds k).version ≤ core.counter → core'.folds k = core.folds k
  turn : ∀ (k : FoldKey) (i : ℕ) (turn : InternalTurn ν), (core'.folds k).turns[i]? = some turn →
    turn.version ≤ core.counter → (core.folds k).turns[i]? = some turn
  anchor : ∀ (g : String) (site : ToolUseSite) (turn : InternalTurn ν),
    core'.anchors g = some site → (core'.folds site.fold).turns[site.turn]? = some turn →
    turn.version ≤ core.counter →
      core.anchors g = some site ∧ (core'.folds (some g)).version ≤ core.counter
  anchored : ∀ g site, core.anchors g = some site → core'.anchors g = some site

section Changes

variable {core core' core'' : Core ν}

theorem Refreshes.quiet (h : core.Sound) (hcounter : core'.counter = core.counter)
    (hfolds : core'.folds = core.folds) (hanchors : core'.anchors = core.anchors) :
    Refreshes core core' := by
  refine ⟨hcounter.ge, fun k _ => congrFun hfolds k, ?_, ?_, ?_⟩
  · intro k i turn hturn _
    rwa [hfolds] at hturn
  · intro g site turn hg _ _
    rw [hanchors] at hg
    rw [hfolds]
    exact ⟨hg, h.foldVersion _⟩
  · intro g site hg
    rw [hanchors]
    exact hg

theorem Refreshes.refl (h : core.Sound) : Refreshes core core :=
  .quiet h rfl rfl rfl

theorem Refreshes.trans (h : Refreshes core core') (h' : Refreshes core' core'') :
    Refreshes core core'' := by
  have hcounter := h.counter
  refine ⟨h.counter.trans h'.counter, ?_, ?_, ?_, fun g site hg => ?_⟩
  · intro k hk
    have hsame := h'.fold k (by omega)
    rw [hsame] at hk ⊢
    exact h.fold k hk
  · intro k i turn hturn hversion
    exact h.turn k i turn (h'.turn k i turn hturn (by omega)) hversion
  · intro g site turn hg hturn hversion
    obtain ⟨hg', hfold⟩ := h'.anchor g site turn hg hturn (by omega)
    obtain ⟨hg'', hold⟩ := h.anchor g site turn hg' (h'.turn _ _ turn hturn (by omega)) hversion
    rw [h'.fold (some g) hfold]
    exact ⟨hg'', hold⟩
  · exact h'.anchored g site (h.anchored g site hg)

variable (h : core.Sound) (h' : core'.Sound) (hrefresh : Refreshes core core')
include hrefresh

theorem Refreshes.anchors_eq {k : FoldKey} {i j : ℕ} {turn : InternalTurn ν} {g : String}
    (hturn : (core'.folds k).turns[i]? = some turn) (hversion : turn.version ≤ core.counter) :
    core'.anchors g = some ⟨k, i, j⟩ ↔ core.anchors g = some ⟨k, i, j⟩ :=
  ⟨fun hg => (hrefresh.anchor g ⟨k, i, j⟩ turn hg hturn hversion).1, hrefresh.anchored g _⟩

include h h'

theorem Refreshes.anchoredAt_eq {k : FoldKey} {i j : ℕ} {turn : InternalTurn ν} {block : Block ν}
    (hturn : (core'.folds k).turns[i]? = some turn) (hversion : turn.version ≤ core.counter) :
    core'.anchoredAt ⟨k, i, j⟩ block = core.anchoredAt ⟨k, i, j⟩ block := by
  unfold Core.anchoredAt
  split_ifs
  · refine congrArg (Option.filter · (truthy block.id)) (funext fun g => ?_)
    have hanchors := hrefresh.anchors_eq (g := g) (j := j) hturn hversion
    refine decide_eq_decide.mpr ⟨fun hg => ?_, fun hg => ?_⟩
    · exact ⟨h.group g _ (hanchors.mp hg.2), hanchors.mp hg.2⟩
    · exact ⟨h'.group g _ (hanchors.mpr hg.2), hanchors.mpr hg.2⟩
  · rfl

theorem Refreshes.shown_eq {k : FoldKey} (hversion : (core'.folds k).version ≤ core.counter) :
    shown core' h'.grounded k = shown core h.grounded k := by
  induction k using h'.grounded.induction with
  | h k ih =>
      rw [EntryProjection.shown_eq, EntryProjection.shown_eq]
      have hfold := hrefresh.fold k hversion
      unfold viewFold
      rw [hfold]
      refine List.map_congr_left fun turn hturn => ?_
      have hat := List.mem_zipIdx_iff_getElem?.mp hturn
      have hold := h.turnVersion k turn.1 (List.mem_of_getElem? hat)
      rw [← hfold] at hat
      refine viewTurn_congr (fun j block => hrefresh.anchoredAt_eq h h' hat hold) fun g j hg => ?_
      have hg' := hrefresh.anchored g _ hg
      exact ih (some g) (parent_of_anchor hg') (hrefresh.anchor g _ turn.1 hg' hat hold).2

theorem Refreshes.shownTurn_eq {k : FoldKey} {turn : InternalTurn ν × ℕ}
    (hturn : (core'.folds k).turns[turn.2]? = some turn.1) (hversion : turn.1.version ≤ core.counter) :
    viewTurn core' (shownBelow core' h'.grounded) k turn =
      viewTurn core (shownBelow core h.grounded) k turn := by
  refine viewTurn_congr (fun j block => hrefresh.anchoredAt_eq h h' hturn hversion) fun g j hg => ?_
  have hg' := hrefresh.anchored g _ hg
  exact hrefresh.shown_eq h h' (hrefresh.anchor g _ turn.1 hg' hturn hversion).2

end Changes

structure Caches.Valid (core : Core ν) (h : Grounded core.parent) (caches : Caches ν) : Prop where
  turn : ∀ (k : FoldKey) (i version : ℕ) (view : TurnView ν),
    caches.turnView k i = some (version, view) → version ≤ core.counter ∧
      ∀ turn, (core.folds k).turns[i]? = some turn → turn.version = version →
        view = viewTurn core (shownBelow core h) k (turn, i)
  display : ∀ k version turns, caches.display k = some (version, turns) →
    version ≤ core.counter ∧ ((core.folds k).version = version → turns = shown core h k)
  composed : core.dirty = false → caches.composed = composition core h

theorem Caches.empty_valid {core : Core ν} (h : Grounded core.parent) (hdirty : core.dirty = true) :
    Caches.empty.Valid core h := by
  refine ⟨fun _ _ _ _ hcached => ?_, fun _ _ _ hcached => ?_, fun hclean => ?_⟩
  · cases hcached
  · cases hcached
  · rw [hdirty] at hclean
    cases hclean

/-- A change that leaves the composed turns as they are, unless it says otherwise. -/
structure Settled (core core' : Core ν) : Prop where
  dirty : core'.dirty = false → core.dirty = false
  folds : core'.dirty = false → core'.folds = core.folds
  pending : core'.dirty = false → core'.pending = core.pending
  outcomes : core'.dirty = false → core'.outcomes = core.outcomes

theorem Caches.Valid.refresh {core core' : Core ν} {caches : Caches ν} (h : core.Sound)
    (h' : core'.Sound) (hvalid : caches.Valid core h.grounded) (hrefresh : Refreshes core core')
    (hsettled : Settled core core') : caches.Valid core' h'.grounded := by
  have hcounter := hrefresh.counter
  refine ⟨?_, ?_, fun hclean => ?_⟩
  · intro k i version view hcached
    obtain ⟨hversion, hview⟩ := hvalid.turn k i version view hcached
    refine ⟨hversion.trans hcounter, fun turn hturn hcurrent => ?_⟩
    rw [hrefresh.shownTurn_eq h h' hturn (hcurrent.trans_le hversion)]
    exact hview turn (hrefresh.turn k i turn hturn (hcurrent.trans_le hversion)) hcurrent
  · intro k version turns hcached
    obtain ⟨hversion, hturns⟩ := hvalid.display k version turns hcached
    refine ⟨hversion.trans hcounter, fun hcurrent => ?_⟩
    have hold := hcurrent.trans_le hversion
    rw [hrefresh.shown_eq h h' hold]
    exact hturns (hrefresh.fold k hold ▸ hcurrent)
  · have hshown : ∀ k, shown core' h'.grounded k = shown core h.grounded k := fun k =>
      hrefresh.shown_eq h h' (by rw [hsettled.folds hclean]; exact h.foldVersion k)
    rw [hvalid.composed (hsettled.dirty hclean)]
    unfold composition
    rw [hshown none, hsettled.pending hclean]
    refine congrArg _ (List.map_congr_left fun id _ => ?_)
    unfold card
    rw [hshown (some id), hsettled.outcomes hclean]

end ShortReel.EntryProjection
