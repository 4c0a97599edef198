import ShortReel.EntryProjectionAnchors
import ShortReel.EntryProjectionRuns

/-!
# Each sub-agent is shown once

The turns of a sub-agent are in what a call returns at one place: in the block that it is anchored at,
or on a card of its own.
-/

namespace ShortReel.EntryProjection

open ParentForests

variable {ν : Type}

mutual

def TurnView.mounts : TurnView ν → List (Option String × List (TurnView ν))
  | .mk _ content _ _ => contentMounts content

def contentMounts : List (BlockView ν) → List (Option String × List (TurnView ν))
  | [] => []
  | view :: views => view.mounts ++ contentMounts views

def BlockView.mounts : BlockView ν → List (Option String × List (TurnView ν))
  | .mk _ none _ => []
  | .mk block (some turns) _ => (block.id, turns) :: mounts turns

def mounts : List (TurnView ν) → List (Option String × List (TurnView ν))
  | [] => []
  | turn :: turns => turn.mounts ++ mounts turns

end

theorem mounts_eq (turns : List (TurnView ν)) : mounts turns = turns.flatMap TurnView.mounts := by
  induction turns with
  | nil => rfl
  | cons turn turns ih => rw [mounts, ih, List.flatMap_cons]

theorem contentMounts_eq (content : List (BlockView ν)) :
    contentMounts content = content.flatMap BlockView.mounts := by
  induction content with
  | nil => rfl
  | cons view views ih => rw [contentMounts, ih, List.flatMap_cons]

theorem settleTask_mounts (completed : List String) (view : BlockView ν) :
    (settleTask completed view).mounts = view.mounts := by
  cases view with
  | mk block subTurns taskInfo =>
      rw [settleTask]
      split_ifs
      · cases subTurns <;> rfl
      · rfl

theorem settleTask_type (completed : List String) (view : BlockView ν) :
    (settleTask completed view).block.type = view.block.type := by
  cases view with
  | mk block subTurns taskInfo =>
      rw [settleTask]
      split_ifs <;> rfl

theorem withTask_mounts (task : Option (Block ν)) (view : BlockView ν) :
    (view.withTask task).mounts = view.mounts := by
  cases view with
  | mk block subTurns taskInfo => cases subTurns <;> rfl

theorem foldTasks_mounts (content : List (BlockView ν)) {views : List (BlockView ν)}
    (hbare : ∀ view ∈ views, view.block.type = .taskProgress → view.mounts = []) :
    contentMounts (foldTasks content views) = contentMounts views := by
  induction views with
  | nil => rfl
  | cons view views ih =>
      obtain ⟨hview, hviews⟩ := List.forall_mem_cons.mp hbare
      have hrest := ih hviews
      unfold foldTasks
      dsimp only
      cases toolUseId view with
      | some id =>
          dsimp only
          split_ifs
          · rw [contentMounts, contentMounts, hrest]
          · rw [contentMounts, contentMounts, hrest, withTask_mounts]
      | none =>
          dsimp only
          split_ifs with hdropped
          · have htask : view.block.type = .taskProgress := by
              unfold taskAnchor at hdropped
              split_ifs at hdropped with htask
              · exact htask
              · cases hdropped
            rw [contentMounts, hrest, hview htask, List.nil_append]
          · rw [contentMounts, contentMounts, hrest]

theorem finishContent_mounts {content : List (BlockView ν)}
    (hbare : ∀ view ∈ content, view.block.type = .taskProgress → view.mounts = []) :
    contentMounts (finishContent content) = contentMounts content := by
  unfold finishContent
  dsimp only
  rw [foldTasks_mounts, contentMounts_eq, contentMounts_eq, List.flatMap_map]
  · simp only [settleTask_mounts]
  · intro view hview htask
    obtain ⟨old, hold, rfl⟩ := List.mem_map.mp hview
    rw [settleTask_type] at htask
    rw [settleTask_mounts]
    exact hbare old hold htask

def Core.places (core : Core ν) (k : FoldKey) : List (ToolUseSite × Block ν) :=
  (core.folds k).turns.zipIdx.flatMap fun turn =>
    turn.1.content.zipIdx.map fun block => (⟨k, turn.2, block.2⟩, block.1)

def Core.children (core : Core ν) (k : FoldKey) : List FoldKey :=
  (core.places k).flatMap fun place => ((core.anchoredAt place.1 place.2).map some).toList

section Timelines

variable {core : Core ν} {k : FoldKey}

theorem anchoredAt_id {site : ToolUseSite} {block : Block ν} {g : String}
    (h : core.anchoredAt site block = some g) : block.type = .toolUse ∧ block.id = some g := by
  unfold Core.anchoredAt at h
  split_ifs at h with htool
  obtain ⟨htruthy, -⟩ := Option.filter_eq_some_iff.mp h
  exact ⟨htool, (Option.filter_eq_some_iff.mp htruthy).1⟩

theorem viewBlock_mounts (subs : FoldKey → List (TurnView ν)) (i : ℕ) (block : Block ν × ℕ) :
    (viewBlock core (fun g => subs (some g)) k i block).mounts =
      ((core.anchoredAt ⟨k, i, block.2⟩ block.1).map some).toList.flatMap fun child =>
        (child, subs child) :: mounts (subs child) := by
  unfold viewBlock
  cases hg : core.anchoredAt ⟨k, i, block.2⟩ block.1 with
  | none => rfl
  | some g =>
      rw [Option.map_some, Option.map_some, Option.toList_some, List.flatMap_singleton,
        BlockView.mounts, (anchoredAt_id hg).2]

theorem viewTurn_mounts (subs : FoldKey → List (TurnView ν)) (turn : InternalTurn ν × ℕ) :
    (viewTurn core (fun g => subs (some g)) k turn).mounts =
      (turn.1.content.zipIdx.map (viewBlock core (fun g => subs (some g)) k turn.2)).flatMap
        BlockView.mounts := by
  unfold viewTurn finishTurn
  rw [TurnView.mounts, finishContent_mounts, contentMounts_eq]
  intro view hview htask
  obtain ⟨block, -, rfl⟩ := List.mem_map.mp hview
  rw [viewBlock_mounts]
  cases hg : core.anchoredAt ⟨k, turn.2, block.2⟩ block.1 with
  | none => rfl
  | some g =>
      have htool : block.1.type = .taskProgress := htask
      rw [(anchoredAt_id hg).1] at htool
      cases htool

theorem viewFold_mounts (subs : FoldKey → List (TurnView ν)) :
    mounts (viewFold core (fun g => subs (some g)) k) =
      (core.children k).flatMap fun child => (child, subs child) :: mounts (subs child) := by
  unfold viewFold Core.children Core.places
  rw [mounts_eq, List.flatMap_map, List.flatMap_assoc, List.flatMap_assoc]
  refine congrArg (List.flatMap · _) (funext fun turn => ?_)
  rw [viewTurn_mounts, List.flatMap_map, List.flatMap_map]
  exact congrArg (List.flatMap · _) (funext fun block => viewBlock_mounts subs turn.2 block)

theorem nodup_places {α : Type} (l : List α) : (l.zipIdx.map Prod.snd).Nodup := by
  rw [List.zipIdx_map_snd]
  exact List.nodup_range'

theorem places_pairwise : (core.places k).Pairwise fun a b => a.1 ≠ b.1 := by
  have hsites : ((core.places k).map Prod.fst).Nodup := by
    unfold Core.places
    rw [List.map_flatMap, List.nodup_flatMap]
    constructor
    · intro turn _
      have hplaces := (nodup_places turn.1.content).map
        (f := fun j => ToolUseSite.mk k turn.2 j) fun i j hsame => (ToolUseSite.mk.inj hsame).2.2
      rw [List.map_map] at hplaces ⊢
      exact hplaces
    · refine (List.pairwise_map.mp (nodup_places (core.folds k).turns)).imp ?_
      intro a b hne site ha hb
      obtain ⟨p, hp, rfl⟩ := List.mem_map.mp ha
      obtain ⟨q, hq, hsite⟩ := List.mem_map.mp hb
      obtain ⟨_, -, rfl⟩ := List.mem_map.mp hp
      obtain ⟨_, -, rfl⟩ := List.mem_map.mp hq
      exact hne (ToolUseSite.mk.inj hsite).2.1.symm
  exact List.pairwise_map.mp hsites

theorem mem_places {site : ToolUseSite} {block : Block ν} (hblock : core.blockAt site = some block) :
    (site, block) ∈ core.places site.fold := by
  obtain ⟨turn, hturn, hat⟩ := Option.bind_eq_some_iff.mp hblock
  refine List.mem_flatMap.mpr ⟨(turn, site.turn), List.mem_zipIdx_iff_getElem?.mpr hturn, ?_⟩
  exact List.mem_map.mpr ⟨(block, site.block), List.mem_zipIdx_iff_getElem?.mpr hat, rfl⟩

theorem fold_of_mem_places {place : ToolUseSite × Block ν} (hplace : place ∈ core.places k) :
    place.1.fold = k := by
  obtain ⟨turn, -, hmem⟩ := List.mem_flatMap.mp hplace
  obtain ⟨block, -, rfl⟩ := List.mem_map.mp hmem
  rfl

theorem children_nodup : (core.children k).Nodup := by
  unfold Core.children
  rw [List.nodup_flatMap]
  constructor
  · intro place _
    cases (core.anchoredAt place.1 place.2).map some with
    | none => exact List.nodup_nil
    | some child => exact List.nodup_singleton child
  · refine places_pairwise.imp fun {a b} hne child ha hb => hne ?_
    obtain ⟨g, hg, rfl⟩ := Option.map_eq_some_iff.mp (Option.mem_toList.mp ha)
    obtain ⟨g', hg', hsame⟩ := Option.map_eq_some_iff.mp (Option.mem_toList.mp hb)
    rw [Option.some.inj hsame] at hg'
    exact Option.some.inj ((anchoredAt_some hg).2.symm.trans (anchoredAt_some hg').2)

theorem mem_children (h : core.Sound) (hanchored : core.Anchored) (child : FoldKey) :
    child ∈ core.children k ↔ core.parent child = some k := by
  constructor
  · intro hmem
    obtain ⟨place, hplace, hchild⟩ := List.mem_flatMap.mp hmem
    obtain ⟨g, hg, rfl⟩ := Option.map_eq_some_iff.mp (Option.mem_toList.mp hchild)
    rw [parent_of_anchor (anchoredAt_some hg).2, fold_of_mem_places hplace]
  · intro hparent
    cases child with
    | none => cases hparent
    | some g =>
        obtain ⟨site, hsite, rfl⟩ := anchor_of_parent hparent
        obtain ⟨block, hblock, htool, hid⟩ := hanchored.site g site (hanchored.anchor g site hsite)
        have hat : core.anchoredAt site block = some g := by
          unfold Core.anchoredAt
          rw [if_pos htool, hid, Option.filter_some, if_pos]
          exact decide_eq_true ⟨h.group g site hsite, hsite⟩
        refine List.mem_flatMap.mpr ⟨(site, block), mem_places hblock, ?_⟩
        rw [hat]
        exact List.mem_cons_self

end Timelines

section All

variable {core : Core ν} (h : core.Sound)

theorem shown_mounts (k : FoldKey) : mounts (shown core h.grounded k) =
    (core.children k).flatMap fun child =>
      (child, shown core h.grounded child) :: mounts (shown core h.grounded child) := by
  rw [shown_eq]
  exact viewFold_mounts (shown core h.grounded)

theorem mem_shown_mounts {k : FoldKey} {mount : Option String × List (TurnView ν)}
    (hanchored : core.Anchored) (hmount : mount ∈ mounts (shown core h.grounded k)) :
    mount.2 = shown core h.grounded mount.1 := by
  induction k using h.grounded.induction with
  | h k ih =>
      rw [shown_mounts h] at hmount
      obtain ⟨child, hchild, hmem⟩ := List.mem_flatMap.mp hmount
      rcases List.mem_cons.mp hmem with hsame | hbelow
      · rw [hsame]
      · exact ih child ((mem_children h hanchored child).mp hchild) hbelow

def Core.roots (core : Core ν) : List FoldKey :=
  none :: core.pending.map some

theorem composition_mounts : mounts (composition core h.grounded) =
    mounts (shown core h.grounded none) ++ core.pending.flatMap fun g =>
      (some g, shown core h.grounded (some g)) :: mounts (shown core h.grounded (some g)) := by
  unfold composition
  rw [mounts_eq, List.flatMap_append, ← mounts_eq, List.flatMap_map]
  refine congrArg _ (congrArg (List.flatMap · _) (funext fun g => ?_))
  unfold card
  rw [TurnView.mounts, contentMounts, BlockView.mounts, contentMounts, List.append_nil]

theorem mem_composition_mounts {mount : Option String × List (TurnView ν)} (hanchored : core.Anchored)
    (hmount : mount ∈ mounts (composition core h.grounded)) :
    mount.2 = shown core h.grounded mount.1 := by
  rw [composition_mounts h] at hmount
  rcases List.mem_append.mp hmount with hmain | hcard
  · exact mem_shown_mounts h hanchored hmain
  · obtain ⟨g, -, hmem⟩ := List.mem_flatMap.mp hcard
    rcases List.mem_cons.mp hmem with hsame | hbelow
    · rw [hsame]
    · exact mem_shown_mounts h hanchored hbelow

omit h in
theorem roots_nodup (hanchored : core.Anchored) : core.roots.Nodup := by
  refine List.nodup_cons.mpr ⟨?_, hanchored.pending.map (Option.some_injective _)⟩
  intro hmem
  obtain ⟨g, -, hsome⟩ := List.mem_map.mp hmem
  cases hsome

omit h in
theorem keys_nodup (hanchored : core.Anchored) : core.keys.Nodup := by
  refine List.nodup_cons.mpr ⟨?_, hanchored.groups.map (Option.some_injective _)⟩
  intro hmem
  obtain ⟨g, -, hsome⟩ := List.mem_map.mp hmem
  cases hsome

omit h in
theorem mem_roots (hanchored : core.Anchored) (k : FoldKey) :
    k ∈ core.roots ↔ k ∈ core.keys ∧ core.parent k = none := by
  cases k with
  | none =>
      constructor
      · intro _
        exact ⟨List.mem_cons_self, rfl⟩
      · intro _
        exact List.mem_cons_self
  | some g =>
      have hparent : core.parent (some g) = none ↔ core.anchors g = none := Option.map_eq_none_iff
      unfold Core.roots Core.keys
      simp [hparent, hanchored.waits]

theorem composition_mounts_perm (hanchored : core.Anchored) :
    (mounts (composition core h.grounded)).Perm
      (core.groups.map fun g => (some g, shown core h.grounded (some g))) := by
  let listing (k : FoldKey) : List FoldKey := k :: (mounts (shown core h.grounded k)).map Prod.fst
  have hlisting : ∀ k, listing k = k :: (core.children k).flatMap listing := fun k => by
    dsimp only [listing]
    rw [shown_mounts h, List.map_flatMap]
    rfl
  have hperm := listing_perm h.grounded hlisting (fun _ => children_nodup)
    (fun k child => mem_children h hanchored child)
    (fun k _ above hparent => h.parent_mem hparent) (keys_nodup hanchored) ?_ (roots_nodup hanchored)
    (mem_roots hanchored)
  · have hall : core.roots.flatMap listing =
        none :: (mounts (composition core h.grounded)).map Prod.fst := by
      unfold Core.roots
      rw [composition_mounts h, List.flatMap_cons, List.map_append, List.map_flatMap, List.flatMap_map]
      rfl
    rw [hall] at hperm
    have hshown : (mounts (composition core h.grounded)).map
        ((fun k => (k, shown core h.grounded k)) ∘ Prod.fst) = mounts (composition core h.grounded) := by
      refine (List.map_congr_left fun mount hmount => ?_).trans (List.map_id _)
      exact Prod.ext rfl (mem_composition_mounts h hanchored hmount).symm
    have hmapped := (hperm.cons_inv).map fun k => (k, shown core h.grounded k)
    rw [List.map_map, hshown, List.map_map] at hmapped
    exact hmapped
  · intro child above hparent
    cases child with
    | none => cases hparent
    | some g => exact h.child_mem hparent

end All

theorem replay_anchored (entries : List (EntryObject ν)) : (replay entries).Anchored :=
  (Core.empty_anchored.appendAll Core.empty_sound _).1

theorem mem_replay_groups (entries : List (EntryObject ν)) (g : String) :
    g ∈ (replay entries).groups ↔ ∃ entry ∈ entries, truthy entry.2.parentToolUseId = some g := by
  unfold replay
  rw [((Core.empty_anchored : (Core.empty : Core ν).Anchored).appendAll Core.empty_sound _).2]
  have hempty : g ∉ (Core.empty : Core ν).groups := List.not_mem_nil
  rw [or_iff_right hempty]
  constructor
  · rintro ⟨_, hmem, hparent⟩
    obtain ⟨entry, hentry, rfl⟩ := List.mem_map.mp hmem
    exact ⟨entry, hentry, hparent⟩
  · rintro ⟨entry, hentry, hparent⟩
    exact ⟨entry.2, List.mem_map_of_mem hentry, hparent⟩

/-- What the entries name as a parent is in the turns that are returned, with all that is shown of it, in
one block and no other; and at no time does a sub-agent stand below itself. -/
theorem projectEntriesToTurns_mounts (entries : List (EntryObject ν)) :
    ∃ turns, projectEntriesToTurns entries = some turns ∧
      (mounts turns).Perm ((replay entries).groups.map fun g =>
        (some g, shown (replay entries) (replay_sound entries).grounded (some g))) ∧
      (replay entries).groups.Nodup ∧
      (∀ g, g ∈ (replay entries).groups ↔
        ∃ entry ∈ entries, truthy entry.2.parentToolUseId = some g) ∧
      ∀ front, front <+: entries → ∀ k,
        ¬ Relation.TransGen (fun child above => (replay front).parent child = some above) k k :=
  ⟨shownAll entries, projectEntriesToTurns_eq entries,
    composition_mounts_perm (replay_sound entries) (replay_anchored entries),
    (replay_anchored entries).groups, mem_replay_groups entries,
    fun front _ k => (replay_sound front).grounded.acyclic k⟩

end ShortReel.EntryProjection
