import ShortReel.EntryProjectionViews

/-!
# Versions under the entries

What an entry changes has new versions, and so has what it is shown in, up to the main timeline.
-/

namespace ShortReel.EntryProjection

open ParentForests

variable {ν : Type}

structure Bumps (core core' : Core ν) (folds : List FoldKey) (turns : List (FoldKey × ℕ)) : Prop where
  counter : core.counter ≤ core'.counter
  groups : core'.groups = core.groups
  anchors : core'.anchors = core.anchors
  pending : core'.pending = core.pending
  sites : core'.sites = core.sites
  length : ∀ k, (core'.folds k).turns.length = (core.folds k).turns.length
  fold : ∀ k ∈ folds, core.counter < (core'.folds k).version
  foldKept : ∀ k, k ∉ folds → (core'.folds k).version = (core.folds k).version
  turn : ∀ (k : FoldKey) (i : ℕ) (turn : InternalTurn ν), (core'.folds k).turns[i]? = some turn →
    (k, i) ∈ turns → core.counter < turn.version
  turnKept : ∀ (k : FoldKey) (i : ℕ), (k, i) ∉ turns →
    (core'.folds k).turns[i]? = (core.folds k).turns[i]?
  bounded : (∀ k, (core.folds k).version ≤ core.counter) →
    ∀ k, (core'.folds k).version ≤ core'.counter
  turnBounded : (∀ k, ∀ turn ∈ (core.folds k).turns, turn.version ≤ core.counter) →
    ∀ k, ∀ turn ∈ (core'.folds k).turns, turn.version ≤ core'.counter

section Bumping

variable {core core' core'' : Core ν} {folds folds' : List FoldKey} {turns turns' : List (FoldKey × ℕ)}

theorem Bumps.refl (dirty : Bool) : Bumps core { core with dirty } [] [] where
  counter := Nat.le_refl _
  groups := rfl
  anchors := rfl
  pending := rfl
  sites := rfl
  length _ := rfl
  fold _ h := absurd h List.not_mem_nil
  foldKept _ _ := rfl
  turn _ _ _ _ h := absurd h List.not_mem_nil
  turnKept _ _ _ := rfl
  bounded := id
  turnBounded := id

theorem Bumps.trans (h : Bumps core core' folds turns) (h' : Bumps core' core'' folds' turns') :
    Bumps core core'' (folds ++ folds') (turns ++ turns') where
  counter := h.counter.trans h'.counter
  groups := h'.groups.trans h.groups
  anchors := h'.anchors.trans h.anchors
  pending := h'.pending.trans h.pending
  sites := h'.sites.trans h.sites
  length k := (h'.length k).trans (h.length k)
  fold k hk := by
    have hcounter := h.counter
    by_cases hmem : k ∈ folds'
    · exact hcounter.trans_lt (h'.fold k hmem)
    · rw [h'.foldKept k hmem]
      exact h.fold k ((List.mem_append.mp hk).resolve_right hmem)
  foldKept k hk := by
    obtain ⟨hfirst, hsecond⟩ := not_or.mp fun hmem => hk (List.mem_append.mpr hmem)
    exact (h'.foldKept k hsecond).trans (h.foldKept k hfirst)
  turn k i turn hturn hi := by
    by_cases hmem : (k, i) ∈ turns'
    · exact h.counter.trans_lt (h'.turn k i turn hturn hmem)
    · rw [h'.turnKept k i hmem] at hturn
      exact h.turn k i turn hturn ((List.mem_append.mp hi).resolve_right hmem)
  turnKept k i hi := by
    obtain ⟨hfirst, hsecond⟩ := not_or.mp fun hmem => hi (List.mem_append.mpr hmem)
    exact (h'.turnKept k i hsecond).trans (h.turnKept k i hfirst)
  bounded hbounded := h'.bounded (h.bounded hbounded)
  turnBounded hbounded := h'.turnBounded (h.turnBounded hbounded)

theorem bumpFold_self (k : FoldKey) :
    (core.bumpFold k).folds k = { core.folds k with version := core.counter + 1 } :=
  Function.update_self _ _ _

theorem bumpFold_ne {k k' : FoldKey} (h : k' ≠ k) : (core.bumpFold k).folds k' = core.folds k' :=
  Function.update_of_ne h _ _

theorem bumpFold_turns (k k' : FoldKey) :
    ((core.bumpFold k).folds k').turns = (core.folds k').turns := by
  by_cases hsame : k' = k
  · rw [hsame, bumpFold_self]
  · rw [bumpFold_ne hsame]

theorem bumpFold_bumps (k : FoldKey) : Bumps core (core.bumpFold k) [k] [] where
  counter := Nat.le_succ _
  groups := rfl
  anchors := rfl
  pending := rfl
  sites := rfl
  length k' := congrArg List.length (bumpFold_turns k k')
  fold k' hk' := by
    rw [List.mem_singleton.mp hk', bumpFold_self]
    exact Nat.lt_succ_self _
  foldKept k' hk' := by rw [bumpFold_ne (List.ne_of_not_mem_cons hk')]
  turn _ _ _ _ h := absurd h List.not_mem_nil
  turnKept k' i _ := by rw [bumpFold_turns]
  bounded h k' := by
    by_cases hsame : k' = k
    · rw [hsame, bumpFold_self]
      exact Nat.le_refl _
    · rw [bumpFold_ne hsame]
      exact (h k').trans (Nat.le_succ _)
  turnBounded h k' turn hturn := by
    rw [bumpFold_turns] at hturn
    exact (h k' turn hturn).trans (Nat.le_succ _)

theorem bumpTurn_self (k : FoldKey) (i : ℕ) :
    (core.bumpTurn k i).folds k = { core.folds k with
      turns := (core.folds k).turns.modify i fun turn => { turn with version := core.counter + 1 } } :=
  Function.update_self _ _ _

theorem bumpTurn_ne {k k' : FoldKey} {i : ℕ} (h : k' ≠ k) :
    (core.bumpTurn k i).folds k' = core.folds k' :=
  Function.update_of_ne h _ _

theorem bumpTurn_version (k k' : FoldKey) (i : ℕ) :
    ((core.bumpTurn k i).folds k').version = (core.folds k').version := by
  by_cases hsame : k' = k
  · rw [hsame, bumpTurn_self]
  · rw [bumpTurn_ne hsame]

theorem bumpTurn_bumps (k : FoldKey) (i : ℕ) : Bumps core (core.bumpTurn k i) [] [(k, i)] where
  counter := Nat.le_succ _
  groups := rfl
  anchors := rfl
  pending := rfl
  sites := rfl
  length k' := by
    by_cases hsame : k' = k
    · rw [hsame, bumpTurn_self, List.length_modify]
    · rw [bumpTurn_ne hsame]
  fold _ h := absurd h List.not_mem_nil
  foldKept k' _ := bumpTurn_version k k' i
  turn k' j turn hturn hj := by
    obtain ⟨rfl, rfl⟩ := Prod.mk.inj (List.mem_singleton.mp hj)
    rw [bumpTurn_self, List.getElem?_modify_eq] at hturn
    obtain ⟨old, -, rfl⟩ := Option.map_eq_some_iff.mp hturn
    exact Nat.lt_succ_self _
  turnKept k' j hj := by
    by_cases hsame : k' = k
    · have hother : i ≠ j := by
        rintro rfl
        exact hj (List.mem_singleton.mpr (hsame ▸ rfl))
      rw [hsame, bumpTurn_self, List.getElem?_modify_ne _ _ hother]
    · rw [bumpTurn_ne hsame]
  bounded h k' := by
    rw [bumpTurn_version]
    exact (h k').trans (Nat.le_succ _)
  turnBounded h k' turn hturn := by
    by_cases hsame : k' = k
    · rw [hsame, bumpTurn_self] at hturn
      obtain ⟨j, hj⟩ := List.getElem?_of_mem hturn
      rw [List.getElem?_modify] at hj
      obtain ⟨old, hold, rfl⟩ := Option.map_eq_some_iff.mp hj
      have hbound := h k old (List.mem_of_getElem? hold)
      split_ifs
      · exact Nat.le_refl _
      · exact hbound.trans (Nat.le_succ _)
    · rw [bumpTurn_ne hsame] at hturn
      exact (h k' turn hturn).trans (Nat.le_succ _)

end Bumping

def Core.place (core : Core ν) (k : FoldKey) : Option (FoldKey × ℕ) :=
  (core.parentSite k).map fun site => (site.fold, site.turn)

section Touching

variable {core core' : Core ν} {k : FoldKey} {i : ℕ}

theorem place_eq (h : core'.anchors = core.anchors) : core'.place = core.place := by
  unfold Core.place Core.parentSite
  rw [h]

theorem parent_eq (h : core'.anchors = core.anchors) : core'.parent = core.parent := by
  unfold Core.parent Core.parentSite
  rw [h]

theorem touchFold_bumps (k : FoldKey) :
    Bumps core (core.touchFold k) [k] (core.place k).toList := by
  unfold Core.touchFold Core.place
  cases core.parentSite k with
  | none => exact bumpFold_bumps k
  | some site => exact (bumpFold_bumps k).trans (bumpTurn_bumps site.fold site.turn)

theorem foldl_touchFold_bumps (l : List FoldKey) :
    Bumps core (l.foldl Core.touchFold core) l (l.filterMap core.place) := by
  induction l generalizing core with
  | nil => exact Bumps.refl core.dirty
  | cons k l ih =>
      have hstep : Bumps core (core.touchFold k) [k] (core.place k).toList := touchFold_bumps k
      have hrest := @ih (core.touchFold k)
      rw [place_eq hstep.anchors] at hrest
      have hboth := hstep.trans hrest
      rw [List.filterMap_cons]
      cases hplace : core.place k with
      | none =>
          rw [hplace] at hboth
          exact hboth
      | some place =>
          rw [hplace] at hboth
          exact hboth

theorem touch_bumps : Bumps core (core.touch k i) (ancestors core.parent core.keys k)
    ((k, i) :: (ancestors core.parent core.keys k).filterMap core.place) :=
  ((Bumps.refl true).trans (bumpTurn_bumps k i)).trans
    (foldl_touchFold_bumps (ancestors core.parent core.keys k))

theorem touchFold_dirty (k : FoldKey) : (core.touchFold k).dirty = core.dirty := by
  unfold Core.touchFold
  cases core.parentSite k <;> rfl

theorem touch_dirty : (core.touch k i).dirty = true := by
  have hfold : ∀ (l : List FoldKey) (core : Core ν), (l.foldl Core.touchFold core).dirty = core.dirty := by
    intro l
    induction l with
    | nil => exact fun _ => rfl
    | cons k l ih => exact fun core => (ih _).trans (touchFold_dirty k)
  exact hfold _ _

theorem parent_of_place {place : FoldKey × ℕ} (h : core.place k = some place) :
    core.parent k = some place.1 := by
  obtain ⟨site, hsite, rfl⟩ := Option.map_eq_some_iff.mp h
  exact Option.map_eq_some_iff.mpr ⟨site, hsite, rfl⟩

variable (h : core.Sound) (hk : k ∈ core.keys)
include h hk

theorem Core.Sound.mem_ancestors : k ∈ ancestors core.parent core.keys k :=
  ParentForests.mem_ancestors (fun _ _ _ hup => h.parent_mem hup) hk

theorem Core.Sound.ancestors_upClosed : UpClosed core.parent (ancestors core.parent core.keys k) :=
  ParentForests.ancestors_upClosed (fun _ _ _ hup => h.parent_mem hup) hk

theorem Core.Sound.ancestors_subset : ancestors core.parent core.keys k ⊆ core.keys :=
  ParentForests.ancestors_subset (fun _ _ _ hup => h.parent_mem hup) hk

theorem touch_outside {k' : FoldKey} (hout : k' ∉ ancestors core.parent core.keys k) :
    (core.touch k i).folds k' = core.folds k' := by
  have hbumps := @touch_bumps ν core k i
  have hturns : ((core.touch k i).folds k').turns = (core.folds k').turns := by
    refine List.ext_getElem? fun j => hbumps.turnKept k' j fun hmem => hout ?_
    rcases List.mem_cons.mp hmem with hhere | hmem
    · rw [(Prod.mk.inj hhere).1]
      exact h.mem_ancestors hk
    · obtain ⟨x, hx, hplace⟩ := List.mem_filterMap.mp hmem
      exact h.ancestors_upClosed hk x hx k' (parent_of_place hplace)
  have hversion := hbumps.foldKept k' hout
  cases hfold : (core.touch k i).folds k' with
  | mk turns version =>
      rw [hfold] at hturns hversion
      cases hturns
      cases hversion
      rfl

theorem touch_sound : (core.touch k i).Sound := by
  have hbumps := @touch_bumps ν core k i
  have hkeys : (core.touch k i).keys = core.keys := by
    unfold Core.keys
    rw [hbumps.groups]
  have hhas : ∀ site, core.HasTurn site → (core.touch k i).HasTurn site := fun site hsite =>
    ⟨hkeys ▸ hsite.1, (hbumps.length site.fold).symm ▸ hsite.2⟩
  refine ⟨hbumps.bounded h.foldVersion, hbumps.turnBounded h.turnVersion, ?_, ?_, ?_, ?_, ?_, ?_⟩
  · intro k' hk'
    rw [hkeys] at hk'
    rw [touch_outside h hk fun hmem => hk' (h.ancestors_subset hk hmem)]
    exact h.absent k' hk'
  · rw [hbumps.pending, hbumps.groups]
    exact h.pending
  · intro g site hg
    rw [hbumps.anchors] at hg
    rw [hbumps.groups]
    exact h.group g site hg
  · intro g site hg
    rw [hbumps.anchors] at hg
    exact hhas site (h.anchor g site hg)
  · intro id site hid
    rw [hbumps.sites] at hid
    exact hhas site (h.site id site hid)
  · rw [parent_eq hbumps.anchors]
    exact h.grounded

end Touching

structure Edits (core core' : Core ν) (k : FoldKey) (i : ℕ) : Prop where
  counter : core'.counter = core.counter
  fold : ∀ k', k' ≠ k → core'.folds k' = core.folds k'
  turn : ∀ j, j ≠ i → (core'.folds k).turns[j]? = (core.folds k).turns[j]?
  anchor : ∀ g site, core'.anchors g = some site →
    core.anchors g = some site ∨ site.fold = k ∧ site.turn = i
  anchored : ∀ g site, core.anchors g = some site → core'.anchors g = some site

theorem Edits.refreshes {core core' : Core ν} {k : FoldKey} {i : ℕ} (h : core.Sound)
    (h' : core'.Sound) (hedits : Edits core core' k i) (hk : k ∈ core'.keys) :
    Refreshes core (core'.touch k i) := by
  have hbumps := @touch_bumps ν core' k i
  have hcounter := hbumps.counter
  rw [hedits.counter] at hcounter
  -- an old version was not bumped
  have hfold : ∀ k', ((core'.touch k i).folds k').version ≤ core.counter →
      k' ∉ ancestors core'.parent core'.keys k := by
    intro k' hversion hmem
    have hnew := hbumps.fold k' hmem
    rw [hedits.counter] at hnew
    omega
  have hturn : ∀ k' j turn, ((core'.touch k i).folds k').turns[j]? = some turn →
      turn.version ≤ core.counter →
      (k', j) ∉ (k, i) :: (ancestors core'.parent core'.keys k).filterMap core'.place := by
    intro k' j turn hat hversion hmem
    have hnew := hbumps.turn k' j turn hat hmem
    rw [hedits.counter] at hnew
    omega
  have hother : ∀ k', k' ∉ ancestors core'.parent core'.keys k →
      (core'.touch k i).folds k' = core.folds k' := by
    intro k' hout
    rw [touch_outside h' hk hout]
    refine hedits.fold k' ?_
    rintro rfl
    exact hout (h'.mem_ancestors hk)
  refine ⟨hcounter, fun k' hversion => hother k' (hfold k' hversion), ?_, ?_, ?_⟩
  · intro k' j turn hat hversion
    have hout := hturn k' j turn hat hversion
    rw [hbumps.turnKept k' j hout] at hat
    by_cases hsame : k' = k
    · subst hsame
      have hne : j ≠ i := fun hji => hout (hji ▸ List.mem_cons_self)
      rwa [hedits.turn j hne] at hat
    · rwa [hedits.fold k' hsame] at hat
  · intro g site turn hg hat hversion
    have hout := hturn site.fold site.turn turn hat hversion
    rw [hbumps.anchors] at hg
    have hgroup : some g ∉ ancestors core'.parent core'.keys k := fun hmem =>
      hout (List.mem_cons_of_mem _ (List.mem_filterMap.mpr ⟨some g, hmem, by
        unfold Core.place Core.parentSite
        rw [Option.bind_some, hg, Option.map_some]⟩))
    rw [hother (some g) hgroup]
    refine ⟨(hedits.anchor g site hg).resolve_right fun hhere => hout ?_, h.foldVersion _⟩
    rw [hhere.1, hhere.2]
    exact List.mem_cons_self
  · intro g site hg
    rw [hbumps.anchors]
    exact hedits.anchored g site hg

structure Step (core core' : Core ν) : Prop where
  sound : core'.Sound
  refreshes : Refreshes core core'
  settled : Settled core core'
  keys : core.keys ⊆ core'.keys
  hasTurn : ∀ site, core.HasTurn site → core'.HasTurn site

section Steps

variable {core core' core'' : Core ν} {k : FoldKey} {i : ℕ}

theorem Settled.of_dirty (h : core'.dirty = true) : Settled core core' := by
  have hfalse : core'.dirty ≠ false := by
    rw [h]
    decide
  exact ⟨fun hclean => absurd hclean hfalse, fun hclean => absurd hclean hfalse,
    fun hclean => absurd hclean hfalse, fun hclean => absurd hclean hfalse⟩

theorem Step.refl (h : core.Sound) : Step core core where
  sound := h
  refreshes := Refreshes.refl h
  settled := ⟨id, fun _ => rfl, fun _ => rfl, fun _ => rfl⟩
  keys := List.Subset.refl _
  hasTurn _ := id

theorem Step.trans (h : Step core core') (h' : Step core' core'') : Step core core'' where
  sound := h'.sound
  refreshes := h.refreshes.trans h'.refreshes
  settled :=
    ⟨fun hclean => h.settled.dirty (h'.settled.dirty hclean),
      fun hclean => (h'.settled.folds hclean).trans (h.settled.folds (h'.settled.dirty hclean)),
      fun hclean => (h'.settled.pending hclean).trans (h.settled.pending (h'.settled.dirty hclean)),
      fun hclean => (h'.settled.outcomes hclean).trans (h.settled.outcomes (h'.settled.dirty hclean))⟩
  keys := fun _ hk => h'.keys (h.keys hk)
  hasTurn site hsite := h'.hasTurn site (h.hasTurn site hsite)

theorem Edits.step (h : core.Sound) (h' : core'.Sound) (hedits : Edits core core' k i)
    (hk : k ∈ core'.keys) (hkeys : core.keys ⊆ core'.keys)
    (hhas : ∀ site, core.HasTurn site → core'.HasTurn site) : Step core (core'.touch k i) := by
  have hbumps := @touch_bumps ν core' k i
  have hsame : (core'.touch k i).keys = core'.keys := by
    unfold Core.keys
    rw [hbumps.groups]
  refine ⟨touch_sound h' hk, hedits.refreshes h h' hk, Settled.of_dirty touch_dirty, ?_, ?_⟩
  · rw [hsame]
    exact hkeys
  · intro site hsite
    obtain ⟨hfold, hturn⟩ := hhas site hsite
    exact ⟨hsame ▸ hfold, (hbumps.length site.fold).symm ▸ hturn⟩

end Steps

end ShortReel.EntryProjection
