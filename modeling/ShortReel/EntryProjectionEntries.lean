import ShortReel.EntryProjectionSteps

/-!
# Each entry is a step

What an entry does to the accumulated state is an edit that is touched, or it is not seen.
-/

namespace ShortReel.EntryProjection

open ParentForests

variable {ν : Type} {core : Core ν} {k : FoldKey} {i : ℕ}

theorem setFold_self (fold : Fold ν) : (core.setFold k fold).folds k = fold :=
  Function.update_self _ _ _

theorem setFold_ne {k' : FoldKey} {fold : Fold ν} (h : k' ≠ k) :
    (core.setFold k fold).folds k' = core.folds k' :=
  Function.update_of_ne h _ _

theorem setFold_hasTurn {fold : Fold ν} (hlength : (core.folds k).turns.length ≤ fold.turns.length)
    {site : ToolUseSite} (h : core.HasTurn site) : (core.setFold k fold).HasTurn site := by
  refine ⟨h.1, ?_⟩
  by_cases hsame : site.fold = k
  · rw [hsame, setFold_self]
    exact (hsame ▸ h.2).trans_le hlength
  · rw [setFold_ne hsame]
    exact h.2

theorem setFold_sound {turns : List (InternalTurn ν)} (h : core.Sound) (hk : k ∈ core.keys)
    (hlength : (core.folds k).turns.length ≤ turns.length)
    (hturns : ∀ turn ∈ turns, turn.version ≤ core.counter) :
    (core.setFold k { core.folds k with turns }).Sound := by
  refine ⟨?_, ?_, ?_, h.pending, h.group, ?_, ?_, h.grounded⟩
  · intro k'
    by_cases hsame : k' = k
    · rw [hsame, setFold_self]
      exact h.foldVersion k
    · rw [setFold_ne hsame]
      exact h.foldVersion k'
  · intro k' turn hturn
    by_cases hsame : k' = k
    · rw [hsame, setFold_self] at hturn
      exact hturns turn hturn
    · rw [setFold_ne hsame] at hturn
      exact h.turnVersion k' turn hturn
  · intro k' hk'
    have hother : k' ≠ k := by
      rintro rfl
      exact hk' hk
    rw [setFold_ne hother]
    exact h.absent k' hk'
  · exact fun g site hg => setFold_hasTurn hlength (h.anchor g site hg)
  · exact fun id site hid => setFold_hasTurn hlength (h.site id site hid)

theorem setFold_edits {turns : List (InternalTurn ν)}
    (hturn : ∀ j, j ≠ i → turns[j]? = (core.folds k).turns[j]?) :
    Edits core (core.setFold k { core.folds k with turns }) k i := by
  refine ⟨rfl, fun k' hne => setFold_ne hne, fun j hj => ?_, fun g site hg => Or.inl hg,
    fun g site hg => hg⟩
  rw [setFold_self]
  exact hturn j hj

theorem startTurn_step (h : core.Sound) (hk : k ∈ core.keys) (type : TurnType)
    (content : List (Block ν)) (entry : TimelineEntry ν) :
    Step core (core.startTurn k type content entry) := by
  refine Edits.step h (setFold_sound h hk ?_ ?_) (setFold_edits fun j hj => ?_) hk
    (List.Subset.refl _) fun site => setFold_hasTurn ?_
  · rw [List.length_append]
    exact Nat.le_add_right _ _
  · intro turn hturn
    rcases List.mem_append.mp hturn with hold | hnew
    · exact h.turnVersion k turn hold
    · rw [List.mem_singleton.mp hnew]
      exact Nat.zero_le _
  · rcases Nat.lt_or_gt_of_ne hj with hlt | hgt
    · rw [List.getElem?_append_left hlt]
    · rw [List.getElem?_eq_none_iff.mpr hgt.le, List.getElem?_eq_none_iff.mpr]
      rw [List.length_append, List.length_singleton]
      exact hgt
  · rw [List.length_append]
    exact Nat.le_add_right _ _

theorem modifyTurn_step (h : core.Sound) (hk : k ∈ core.keys) {f : InternalTurn ν → InternalTurn ν}
    (hf : ∀ turn, (f turn).version = turn.version) : Step core ((core.modifyTurn k i f).touch k i) := by
  refine Edits.step h (setFold_sound h hk ?_ ?_) (setFold_edits fun j hj => ?_) hk
    (List.Subset.refl _) fun site => setFold_hasTurn ?_
  · exact (List.length_modify _ _ _).ge
  · intro turn hturn
    obtain ⟨j, hj⟩ := List.getElem?_of_mem hturn
    rw [List.getElem?_modify] at hj
    obtain ⟨old, hold, rfl⟩ := Option.map_eq_some_iff.mp hj
    have hbound := h.turnVersion k old (List.mem_of_getElem? hold)
    split_ifs
    · rw [hf]
      exact hbound
    · exact hbound
  · exact List.getElem?_modify_ne _ _ (Ne.symm hj)
  · exact (List.length_modify _ _ _).ge

theorem pushBlocks_step (h : core.Sound) (hk : k ∈ core.keys) (blocks : List (Block ν)) :
    Step core (core.pushBlocks k i blocks) :=
  modifyTurn_step h hk fun _ => rfl

theorem modifyBlock_step {j : ℕ} (h : core.Sound) (hk : k ∈ core.keys) (f : Block ν → Block ν) :
    Step core (core.modifyBlock k i j f) :=
  modifyTurn_step h hk fun _ => rfl

theorem attachSystemBlock_step (h : core.Sound) (hk : k ∈ core.keys) (entry : TimelineEntry ν)
    (block : Block ν) : Step core (core.attachSystemBlock k entry block) := by
  unfold Core.attachSystemBlock
  cases core.assistantCursor k with
  | none => exact startTurn_step h hk .system [block] entry
  | some i => exact pushBlocks_step h hk [block]

theorem applyTaskBlock_step (h : core.Sound) (hk : k ∈ core.keys) (entry : TimelineEntry ν)
    (block : Block ν) (updateOnly : Bool) : Step core (core.applyTaskBlock k entry block updateOnly) := by
  unfold Core.applyTaskBlock
  cases (if updateOnly then truthy block.taskId else none).bind (core.findTaskSite k) with
  | none => exact attachSystemBlock_step h hk entry block
  | some site => exact modifyBlock_step h hk (Core.updateTask block)

theorem quiet_step {core' : Core ν} (h : core.Sound) (h' : core'.Sound)
    (hcounter : core'.counter = core.counter) (hfolds : core'.folds = core.folds)
    (hanchors : core'.anchors = core.anchors) (hgroups : core.groups ⊆ core'.groups)
    (hsettled : Settled core core') : Step core core' := by
  have hkeys : core.keys ⊆ core'.keys := List.cons_subset_cons _ (List.map_subset _ hgroups)
  refine ⟨h', Refreshes.quiet h hcounter hfolds hanchors, hsettled, hkeys, fun site hsite => ?_⟩
  exact ⟨hkeys hsite.1, by rw [hfolds]; exact hsite.2⟩

theorem registerSite_step {site : ToolUseSite} (h : core.Sound) (hsite : core.HasTurn site)
    (id : String) : Step core (core.registerSite id site) := by
  unfold Core.registerSite
  cases core.sites id with
  | some _ => exact Step.refl h
  | none =>
      refine quiet_step h ?_ rfl rfl rfl (List.Subset.refl _)
        ⟨fun hclean => hclean, fun _ => rfl, fun _ => rfl, fun _ => rfl⟩
      refine ⟨h.foldVersion, h.turnVersion, h.absent, h.pending, h.group, h.anchor, ?_, h.grounded⟩
      intro id' site' hid'
      dsimp only at hid'
      by_cases hsame : id' = id
      · rw [hsame, Function.update_self] at hid'
        exact Option.some.inj hid' ▸ hsite
      · rw [Function.update_of_ne hsame] at hid'
        exact h.site id' site' hid'

theorem parent_anchor (id : String) (site : ToolUseSite) :
    ({ core with anchors := Function.update core.anchors id (some site) } : Core ν).parent =
      Function.update core.parent (some id) (some site.fold) := by
  funext k
  cases k with
  | none => rfl
  | some g =>
      change (Function.update core.anchors id (some site) g).map (·.fold) = _
      by_cases hsame : g = id
      · rw [hsame, Function.update_self, Function.update_self, Option.map_some]
      · have hother : some g ≠ some id := fun hsome => hsame (Option.some.inj hsome)
        rw [Function.update_of_ne hsame, Function.update_of_ne hother]
        rfl

theorem anchorGroup_step {id : String} {site : ToolUseSite} (h : core.Sound) (hid : id ∈ core.groups)
    (hnone : core.anchors id = none) (hsite : core.HasTurn site)
    (hcycle : core.anchorCreatesCycle site.fold (some id) = false) :
    Step core (core.anchorGroup id site) := by
  have hgrounded := h.grounded.update (h.ancestors_upClosed hsite.1) (h.mem_ancestors hsite.1)
    (of_decide_eq_false hcycle)
  have hanchors : ∀ g site', Function.update core.anchors id (some site) g = some site' →
      g = id ∧ site' = site ∨ core.anchors g = some site' := by
    intro g site' hg
    by_cases hsame : g = id
    · rw [hsame, Function.update_self] at hg
      exact Or.inl ⟨hsame, (Option.some.inj hg).symm⟩
    · rw [Function.update_of_ne hsame] at hg
      exact Or.inr hg
  refine Edits.step h ?_ ?_ hsite.1 (List.Subset.refl _) fun _ hhas => hhas
  · refine ⟨h.foldVersion, h.turnVersion, h.absent, ?_, ?_, ?_, h.site, ?_⟩
    · exact fun g hg => h.pending g (List.mem_of_mem_filter hg)
    · intro g site' hg
      rcases hanchors g site' hg with ⟨rfl, -⟩ | hold
      · exact hid
      · exact h.group g site' hold
    · intro g site' hg
      rcases hanchors g site' hg with ⟨-, rfl⟩ | hold
      · exact hsite
      · exact h.anchor g site' hold
    · exact (@parent_anchor ν core id site).symm ▸ hgrounded
  · refine ⟨rfl, fun _ _ => rfl, fun _ _ => rfl, ?_, ?_⟩
    · intro g site' hg
      rcases hanchors g site' hg with ⟨-, rfl⟩ | hold
      · exact Or.inr ⟨rfl, rfl⟩
      · exact Or.inl hold
    · intro g site' hg
      have hother : g ≠ id := by
        rintro rfl
        rw [hnone] at hg
        cases hg
      exact (Function.update_of_ne hother _ _).trans hg

theorem anchorWaiting_step (h : core.Sound) (id : String) : Step core (core.anchorWaiting id) := by
  unfold Core.anchorWaiting
  cases hsite : core.sites id with
  | none => exact Step.refl h
  | some site =>
      dsimp only
      split_ifs with hwaits
      · obtain ⟨hid, hnone, hcycle⟩ := hwaits
        exact anchorGroup_step h hid hnone (h.site id site hsite) (by simpa using hcycle)
      · exact Step.refl h

theorem registerToolUse_step {site : ToolUseSite} (h : core.Sound) (hsite : core.HasTurn site)
    (block : Block ν) : Step core (core.registerToolUse site block) := by
  unfold Core.registerToolUse
  cases truthy block.id with
  | none => exact Step.refl h
  | some id =>
      have hregister := registerSite_step h hsite id
      exact hregister.trans (anchorWaiting_step hregister.sound id)

theorem registerBlocks_step {j : ℕ} {blocks : List (Block ν)} (h : core.Sound)
    (hturn : core.HasTurn ⟨k, i, 0⟩) : Step core (Core.registerBlocks k i j blocks core) := by
  induction blocks generalizing j core with
  | nil => exact Step.refl h
  | cons block blocks ih =>
      unfold Core.registerBlocks
      dsimp only
      split_ifs
      · have hregister := @registerToolUse_step ν core ⟨k, i, j⟩ h hturn block
        exact hregister.trans (ih hregister.sound (hregister.hasTurn _ hturn))
      · exact ih h hturn

theorem addGroup_folds {id : String} (h : core.Sound) (hnew : id ∉ core.groups) :
    (core.addGroup id).folds = core.folds := by
  have habsent : core.folds (some id) = newFold := h.absent _ fun hmem => by
    rcases List.mem_cons.mp hmem with hnone | hmem
    · cases hnone
    · obtain ⟨g, hg, hsome⟩ := List.mem_map.mp hmem
      exact hnew (Option.some.inj hsome ▸ hg)
  exact (congrArg (Function.update core.folds (some id)) habsent.symm).trans
    (Function.update_eq_self _ _)

theorem addGroup_step {id : String} (h : core.Sound) (hnew : id ∉ core.groups) :
    Step core (core.addGroup id) := by
  have hfolds := addGroup_folds h hnew
  have hgroups : core.groups ⊆ (core.addGroup id).groups := List.subset_append_left _ _
  have hkeys : core.keys ⊆ (core.addGroup id).keys :=
    List.cons_subset_cons _ (List.map_subset _ hgroups)
  have hhas : ∀ site, core.HasTurn site → (core.addGroup id).HasTurn site := fun site hsite =>
    ⟨hkeys hsite.1, by rw [hfolds]; exact hsite.2⟩
  refine quiet_step h ?_ rfl hfolds rfl hgroups (Settled.of_dirty rfl)
  refine ⟨?_, ?_, ?_, ?_, fun g site hg => hgroups (h.group g site hg), ?_, ?_, h.grounded⟩
  · rw [hfolds]
    exact h.foldVersion
  · rw [hfolds]
    exact h.turnVersion
  · intro k hk
    rw [hfolds]
    exact h.absent k fun hmem => hk (hkeys hmem)
  · intro g hg
    rcases List.mem_append.mp hg with hold | hnew
    · exact hgroups (h.pending g hold)
    · exact List.mem_append_right _ hnew
  · exact fun g site hg => hhas site (h.anchor g site hg)
  · exact fun id' site hid => hhas site (h.site id' site hid)

theorem groupFoldFor_step (h : core.Sound) (id : String) :
    Step core (core.groupFoldFor id) ∧ some id ∈ (core.groupFoldFor id).keys := by
  unfold Core.groupFoldFor
  split_ifs with hthere
  · exact ⟨Step.refl h, List.mem_cons_of_mem _ (List.mem_map_of_mem hthere)⟩
  · have hadd := addGroup_step h hthere
    have hanchor := anchorWaiting_step hadd.sound id
    refine ⟨hadd.trans hanchor, hanchor.keys (List.mem_cons_of_mem _ (List.mem_map_of_mem ?_))⟩
    exact List.mem_append_right _ List.mem_cons_self

theorem assistantCursor_lt (h : core.assistantCursor k = some i) : i < (core.folds k).turns.length := by
  unfold Core.assistantCursor at h
  cases hlast : (core.folds k).turns.getLast? with
  | none =>
      rw [hlast] at h
      cases h
  | some turn =>
      rw [hlast] at h
      dsimp only at h
      split_ifs at h
      have hsome := Option.some.inj h
      have hpos := List.length_pos_of_mem (List.mem_of_getLast? hlast)
      omega

theorem startTurn_hasTurn (h : core.Sound) (hk : k ∈ core.keys) (type : TurnType)
    (content : List (Block ν)) (entry : TimelineEntry ν) :
    (core.startTurn k type content entry).HasTurn ⟨k, (core.folds k).turns.length, 0⟩ := by
  refine ⟨(startTurn_step h hk type content entry).keys hk, ?_⟩
  change _ < ((Core.touch _ _ _).folds k).turns.length
  rw [touch_bumps.length, setFold_self, List.length_append, List.length_singleton]
  exact Nat.lt_succ_self _

theorem appendAssistant_step (h : core.Sound) (hk : k ∈ core.keys) (entry : TimelineEntry ν) :
    Step core (core.appendAssistant k entry) := by
  unfold Core.appendAssistant
  dsimp only
  cases hcursor : core.assistantCursor k with
  | none =>
      have hstart := startTurn_step h hk .assistant (entryBlocks entry) entry
      exact hstart.trans (registerBlocks_step hstart.sound
        (startTurn_hasTurn h hk .assistant (entryBlocks entry) entry))
  | some i =>
      have hpush := pushBlocks_step (i := i) h hk (entryBlocks entry)
      exact hpush.trans (registerBlocks_step hpush.sound
        (hpush.hasTurn _ ⟨hk, assistantCursor_lt hcursor⟩))

theorem siteOn_hasTurn (h : core.Sound) {id : Option String} {site : ToolUseSite}
    (hsite : core.siteOn k id = some site) : core.HasTurn site := by
  obtain ⟨hbind, -⟩ := Option.filter_eq_some_iff.mp hsite
  obtain ⟨id', -, hid'⟩ := Option.bind_eq_some_iff.mp hbind
  exact h.site id' site hid'

theorem appendResult_step (h : core.Sound) (hk : k ∈ core.keys) (entry : TimelineEntry ν) :
    Step core (core.appendResult k entry) := by
  unfold Core.appendResult
  cases hsite : core.siteOn k entry.toolUseId with
  | none => exact attachSystemBlock_step h hk entry _
  | some site => exact modifyBlock_step h (siteOn_hasTurn h hsite).1 _

theorem noteOutcome_step (h : core.Sound) (entry : TimelineEntry ν) :
    Step core (core.noteOutcome entry) := by
  unfold Core.noteOutcome
  cases truthy entry.toolUseId with
  | none => exact Step.refl h
  | some id =>
      refine quiet_step h ?_ rfl rfl rfl (List.Subset.refl _) (Settled.of_dirty rfl)
      exact ⟨h.foldVersion, h.turnVersion, h.absent, h.pending, h.group, h.anchor, h.site, h.grounded⟩

theorem appendSystem_step (h : core.Sound) (hk : k ∈ core.keys) (entry : TimelineEntry ν) :
    Step core (core.appendSystem k entry) := by
  unfold Core.appendSystem
  split_ifs
  · exact startTurn_step h hk _ _ entry
  · cases (entry.toolUseId.bind core.sites).filter (·.fold = k) with
    | none => exact attachSystemBlock_step h hk entry _
    | some _ => exact Step.refl h
  · exact startTurn_step h hk _ _ entry
  · exact noteOutcome_step h entry
  · exact applyTaskBlock_step h hk entry _ _
  · exact Step.refl h

theorem appendAnswer_step (h : core.Sound) (hk : k ∈ core.keys) (entry : TimelineEntry ν) :
    Step core (core.appendAnswer k entry) := by
  unfold Core.appendAnswer
  cases hsite : core.siteOn k entry.toolUseId with
  | none =>
      dsimp only
      split_ifs
      · exact attachSystemBlock_step h hk entry _
      · exact startTurn_step h hk _ _ entry
  | some site =>
      dsimp only
      have hmodify := modifyBlock_step (i := site.turn) (j := site.block) h (siteOn_hasTurn h hsite).1
        fun block : Block ν => { block with
          result := some (resultText entry), isError := some entry.isError
          answers := entry.answers.or block.answers }
      split_ifs
      · exact hmodify
      · exact hmodify.trans (startTurn_step hmodify.sound (hmodify.keys hk) _ _ entry)

theorem appendUser_step (h : core.Sound) (hk : k ∈ core.keys) (entry : TimelineEntry ν) :
    Step core (core.appendUser k entry) := by
  unfold Core.appendUser
  split_ifs
  · exact startTurn_step h hk _ _ entry
  · exact appendAnswer_step h hk entry
  · exact startTurn_step h hk _ _ entry

theorem appendTo_step (h : core.Sound) (hk : k ∈ core.keys) (entry : TimelineEntry ν) :
    Step core (core.appendTo k entry) := by
  unfold Core.appendTo
  cases entry.type with
  | user => exact appendUser_step h hk entry
  | assistant => exact appendAssistant_step h hk entry
  | toolResult => exact appendResult_step h hk entry
  | system => exact appendSystem_step h hk entry

theorem appendOne_step (h : core.Sound) (entry : TimelineEntry ν) : Step core (core.appendOne entry) := by
  unfold Core.appendOne
  cases truthy entry.parentToolUseId with
  | none => exact appendTo_step h List.mem_cons_self entry
  | some id =>
      obtain ⟨hgroup, hmem⟩ := groupFoldFor_step h id
      exact hgroup.trans (appendTo_step hgroup.sound hmem entry)

theorem appendAll_step (h : core.Sound) (entries : List (TimelineEntry ν)) :
    Step core (entries.foldl Core.appendOne core) := by
  induction entries generalizing core with
  | nil => exact Step.refl h
  | cons entry entries ih =>
      have hentry := appendOne_step h entry
      exact hentry.trans (ih hentry.sound)

end ShortReel.EntryProjection
