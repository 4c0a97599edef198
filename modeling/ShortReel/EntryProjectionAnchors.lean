import ShortReel.EntryProjectionEntries

/-!
# Where the sub-agents are anchored

A sub-agent is anchored at a block that is its tool use, or it waits: each entry keeps this.
-/

namespace ShortReel.EntryProjection


variable {ν : Type} {core core' core'' : Core ν} {k : FoldKey} {i : ℕ}

def blockIn (turns : List (InternalTurn ν)) (i j : ℕ) : Option (Block ν) :=
  turns[i]?.bind (·.content[j]?)

def Core.blockAt (core : Core ν) (site : ToolUseSite) : Option (Block ν) :=
  blockIn (core.folds site.fold).turns site.turn site.block

def Block.IsToolUse (block : Block ν) (id : String) : Prop :=
  block.type = .toolUse ∧ truthy block.id = some id

structure Core.Anchored (core : Core ν) : Prop where
  groups : core.groups.Nodup
  pending : core.pending.Nodup
  waits : ∀ g, g ∈ core.pending ↔ g ∈ core.groups ∧ core.anchors g = none
  site : ∀ id site, core.sites id = some site → ∃ block, core.blockAt site = some block ∧ block.IsToolUse id
  anchor : ∀ g site, core.anchors g = some site → core.sites g = some site

theorem Core.empty_anchored : (Core.empty : Core ν).Anchored where
  groups := List.nodup_nil
  pending := List.nodup_nil
  waits g := by
    constructor
    · intro h
      exact absurd h List.not_mem_nil
    · intro h
      exact absurd h.1 List.not_mem_nil
  site _ _ h := by cases h
  anchor _ _ h := by cases h

def KeepsBlocks (turns turns' : List (InternalTurn ν)) : Prop :=
  ∀ i j block, blockIn turns i j = some block →
    ∃ block', blockIn turns' i j = some block' ∧ block'.type = block.type ∧ block'.id = block.id

structure Keeps (core core' : Core ν) : Prop where
  groups : core'.groups = core.groups
  pending : core'.pending = core.pending
  anchors : core'.anchors = core.anchors
  sites : core'.sites = core.sites
  blocks : ∀ k, KeepsBlocks (core.folds k).turns (core'.folds k).turns

theorem KeepsBlocks.refl (turns : List (InternalTurn ν)) : KeepsBlocks turns turns :=
  fun _ _ block hblock => ⟨block, hblock, rfl, rfl⟩

theorem KeepsBlocks.trans {turns turns' turns'' : List (InternalTurn ν)}
    (h : KeepsBlocks turns turns') (h' : KeepsBlocks turns' turns'') : KeepsBlocks turns turns'' := by
  intro i j block hblock
  obtain ⟨block', hblock', htype, hid⟩ := h i j block hblock
  obtain ⟨block'', hblock'', htype', hid'⟩ := h' i j block' hblock'
  exact ⟨block'', hblock'', htype'.trans htype, hid'.trans hid⟩

theorem keepsBlocks_concat (turns : List (InternalTurn ν)) (turn : InternalTurn ν) :
    KeepsBlocks turns (turns ++ [turn]) := by
  intro i j block hblock
  refine ⟨block, ?_, rfl, rfl⟩
  obtain ⟨old, hold, hat⟩ := Option.bind_eq_some_iff.mp hblock
  have hlt := (List.getElem?_eq_some_iff.mp hold).1
  unfold blockIn
  rw [List.getElem?_append_left hlt, hold]
  exact hat

theorem keepsBlocks_modify (turns : List (InternalTurn ν)) {f : InternalTurn ν → InternalTurn ν}
    (hf : ∀ (turn : InternalTurn ν) (j : ℕ) (block : Block ν), turn.content[j]? = some block →
      ∃ block' : Block ν, (f turn).content[j]? = some block' ∧ block'.type = block.type ∧
        block'.id = block.id) :
    KeepsBlocks turns (turns.modify i f) := by
  intro i' j block hblock
  obtain ⟨old, hold, hat⟩ := Option.bind_eq_some_iff.mp hblock
  unfold blockIn
  rw [List.getElem?_modify, hold, Option.map_eq_map, Option.map_some, Option.bind_some]
  split_ifs
  · exact hf old j block hat
  · exact ⟨block, hat, rfl, rfl⟩

theorem Keeps.refl (core : Core ν) : Keeps core core :=
  ⟨rfl, rfl, rfl, rfl, fun _ => KeepsBlocks.refl _⟩

theorem Keeps.trans (h : Keeps core core') (h' : Keeps core' core'') : Keeps core core'' where
  groups := h'.groups.trans h.groups
  pending := h'.pending.trans h.pending
  anchors := h'.anchors.trans h.anchors
  sites := h'.sites.trans h.sites
  blocks k := (h.blocks k).trans (h'.blocks k)

theorem setFold_keeps {fold : Fold ν} (h : KeepsBlocks (core.folds k).turns fold.turns) :
    Keeps core (core.setFold k fold) := by
  refine ⟨rfl, rfl, rfl, rfl, fun k' => ?_⟩
  by_cases hsame : k' = k
  · rw [hsame, setFold_self]
    exact h
  · rw [setFold_ne hsame]
    exact KeepsBlocks.refl _

theorem modifyTurn_keeps {f : InternalTurn ν → InternalTurn ν}
    (hf : ∀ (turn : InternalTurn ν) (j : ℕ) (block : Block ν), turn.content[j]? = some block →
      ∃ block' : Block ν, (f turn).content[j]? = some block' ∧ block'.type = block.type ∧
        block'.id = block.id) : Keeps core (core.modifyTurn k i f) :=
  setFold_keeps (keepsBlocks_modify _ hf)

theorem bumpTurn_keeps (k : FoldKey) (i : ℕ) : Keeps core (core.bumpTurn k i) := by
  have hturn : Keeps core (core.modifyTurn k i fun turn => { turn with version := core.counter + 1 }) :=
    modifyTurn_keeps fun _ _ block hblock => ⟨block, hblock, rfl, rfl⟩
  exact ⟨hturn.groups, hturn.pending, hturn.anchors, hturn.sites, hturn.blocks⟩

theorem touchFold_keeps (k : FoldKey) : Keeps core (core.touchFold k) := by
  have hfold : Keeps core (core.setFold k { core.folds k with version := core.counter + 1 }) :=
    setFold_keeps (KeepsBlocks.refl _)
  have hbump : Keeps core (core.bumpFold k) :=
    ⟨hfold.groups, hfold.pending, hfold.anchors, hfold.sites, hfold.blocks⟩
  unfold Core.touchFold
  cases core.parentSite k with
  | none => exact hbump
  | some site => exact hbump.trans (bumpTurn_keeps site.fold site.turn)

theorem touch_keeps (k : FoldKey) (i : ℕ) : Keeps core (core.touch k i) := by
  have hall : ∀ (l : List FoldKey) (core : Core ν), Keeps core (l.foldl Core.touchFold core) := by
    intro l
    induction l with
    | nil => exact Keeps.refl
    | cons k l ih => exact fun core => (touchFold_keeps k).trans (ih _)
  have hdirty : Keeps core { core with dirty := true } :=
    ⟨rfl, rfl, rfl, rfl, fun _ => KeepsBlocks.refl _⟩
  exact hdirty.trans ((bumpTurn_keeps k i).trans (hall _ _))

theorem startTurn_keeps (type : TurnType) (content : List (Block ν)) (entry : TimelineEntry ν) :
    Keeps core (core.startTurn k type content entry) :=
  (setFold_keeps (keepsBlocks_concat _ _)).trans (touch_keeps _ _)

theorem pushBlocks_keeps (blocks : List (Block ν)) : Keeps core (core.pushBlocks k i blocks) := by
  refine (modifyTurn_keeps fun turn j block hblock => ?_).trans (touch_keeps _ _)
  refine ⟨block, ?_, rfl, rfl⟩
  rw [List.getElem?_append_left (List.getElem?_eq_some_iff.mp hblock).1]
  exact hblock

theorem modifyBlock_keeps {j : ℕ} {f : Block ν → Block ν}
    (hf : ∀ block, (f block).type = block.type ∧ (f block).id = block.id) :
    Keeps core (core.modifyBlock k i j f) := by
  refine (modifyTurn_keeps fun turn j' block hblock => ?_).trans (touch_keeps _ _)
  rw [List.getElem?_modify, hblock, Option.map_eq_map, Option.map_some]
  refine ⟨_, rfl, ?_⟩
  split_ifs
  · exact hf block
  · exact ⟨rfl, rfl⟩

theorem attachSystemBlock_keeps (entry : TimelineEntry ν) (block : Block ν) :
    Keeps core (core.attachSystemBlock k entry block) := by
  unfold Core.attachSystemBlock
  cases core.assistantCursor k with
  | none => exact startTurn_keeps .system [block] entry
  | some i => exact pushBlocks_keeps [block]

theorem applyTaskBlock_keeps (entry : TimelineEntry ν) (block : Block ν) (updateOnly : Bool) :
    Keeps core (core.applyTaskBlock k entry block updateOnly) := by
  unfold Core.applyTaskBlock
  cases (if updateOnly then truthy block.taskId else none).bind (core.findTaskSite k) with
  | none => exact attachSystemBlock_keeps entry block
  | some site => exact modifyBlock_keeps fun _ => ⟨rfl, rfl⟩

theorem Core.Anchored.keeps (h : core.Anchored) (hkeeps : Keeps core core') : core'.Anchored where
  groups := hkeeps.groups ▸ h.groups
  pending := hkeeps.pending ▸ h.pending
  waits g := by
    rw [hkeeps.pending, hkeeps.groups, hkeeps.anchors]
    exact h.waits g
  site id site hsite := by
    rw [hkeeps.sites] at hsite
    obtain ⟨block, hblock, htype, hid⟩ := h.site id site hsite
    obtain ⟨block', hblock', htype', hid'⟩ := hkeeps.blocks _ _ _ block hblock
    exact ⟨block', hblock', htype'.trans htype, (congrArg truthy hid').trans hid⟩
  anchor g site hsite := by
    rw [hkeeps.anchors] at hsite
    rw [hkeeps.sites]
    exact h.anchor g site hsite

theorem Core.Anchored.registerSite {id : String} {site : ToolUseSite} (h : core.Anchored)
    (hblock : ∃ block, core.blockAt site = some block ∧ block.IsToolUse id) :
    (core.registerSite id site).Anchored := by
  unfold Core.registerSite
  cases hthere : core.sites id with
  | some _ => exact h
  | none =>
      refine ⟨h.groups, h.pending, h.waits, fun id' site' hsite => ?_, fun g site' hanchor => ?_⟩
      · dsimp only at hsite
        by_cases hsame : id' = id
        · subst hsame
          rw [Function.update_self] at hsite
          exact Option.some.inj hsite ▸ hblock
        · rw [Function.update_of_ne hsame] at hsite
          exact h.site id' site' hsite
      · have hsite := h.anchor g site' hanchor
        have hother : g ≠ id := by
          rintro rfl
          rw [hthere] at hsite
          cases hsite
        exact (Function.update_of_ne hother _ _).trans hsite

theorem Core.Anchored.anchorGroup {id : String} {site : ToolUseSite} (h : core.Anchored)
    (hsite : core.sites id = some site) : (core.anchorGroup id site).Anchored := by
  refine Core.Anchored.keeps ?_ (touch_keeps site.fold site.turn)
  refine ⟨h.groups, h.pending.filter _, fun g => ?_, h.site, fun g site' hanchor => ?_⟩
  · dsimp only
    rw [List.mem_filter, h.waits]
    by_cases hsame : g = id
    · subst hsame
      rw [Function.update_self]
      simp
    · rw [Function.update_of_ne hsame]
      simp [hsame]
  · dsimp only at hanchor
    by_cases hsame : g = id
    · subst hsame
      rw [Function.update_self] at hanchor
      exact hsite.trans hanchor
    · rw [Function.update_of_ne hsame] at hanchor
      exact h.anchor g site' hanchor

theorem Core.Anchored.anchorWaiting (h : core.Anchored) (id : String) :
    (core.anchorWaiting id).Anchored := by
  unfold Core.anchorWaiting
  cases hsite : core.sites id with
  | none => exact h
  | some site =>
      dsimp only
      split_ifs
      · exact h.anchorGroup hsite
      · exact h

theorem Core.Anchored.addGroup {id : String} (h : core.Anchored) (hsound : core.Sound)
    (hnew : id ∉ core.groups) : (core.addGroup id).Anchored := by
  have hwaiting : id ∉ core.pending := fun hmem => hnew (hsound.pending id hmem)
  have habsent : core.anchors id = none := by
    cases hanchor : core.anchors id with
    | none => rfl
    | some site => exact absurd (hsound.group id site hanchor) hnew
  have hblocks : ∀ site, (core.addGroup id).blockAt site = core.blockAt site := fun site => by
    unfold Core.blockAt
    rw [addGroup_folds hsound hnew]
  have hgroups := h.groups.concat hnew
  have hpending := h.pending.concat hwaiting
  rw [List.concat_eq_append] at hgroups hpending
  refine ⟨hgroups, hpending, fun g => ?_, fun id' site hsite => ?_, h.anchor⟩
  · change g ∈ core.pending ++ [id] ↔ g ∈ core.groups ++ [id] ∧ core.anchors g = none
    rw [List.mem_append, List.mem_append, h.waits, List.mem_singleton, or_and_right]
    refine or_congr_right ⟨fun hsame => ⟨hsame, hsame ▸ habsent⟩, And.left⟩
  · rw [hblocks]
    exact h.site id' site hsite

structure Retains (core core' : Core ν) : Prop where
  groups : core'.groups = core.groups
  blocks : ∀ k, KeepsBlocks (core.folds k).turns (core'.folds k).turns

theorem Keeps.retains (h : Keeps core core') : Retains core core' :=
  ⟨h.groups, h.blocks⟩

theorem Retains.trans (h : Retains core core') (h' : Retains core' core'') : Retains core core'' :=
  ⟨h'.groups.trans h.groups, fun k => (h.blocks k).trans (h'.blocks k)⟩

theorem registerSite_retains (id : String) (site : ToolUseSite) :
    Retains core (core.registerSite id site) := by
  unfold Core.registerSite
  cases core.sites id <;> exact ⟨rfl, fun _ => KeepsBlocks.refl _⟩

theorem anchorWaiting_retains (id : String) : Retains core (core.anchorWaiting id) := by
  unfold Core.anchorWaiting
  cases core.sites id with
  | none => exact ⟨rfl, fun _ => KeepsBlocks.refl _⟩
  | some site =>
      dsimp only
      split_ifs
      · have htouch := @touch_keeps ν { core with
          anchors := Function.update core.anchors id (some site)
          pending := core.pending.filter (· ≠ id) } site.fold site.turn
        exact ⟨htouch.groups, htouch.blocks⟩
      · exact ⟨rfl, fun _ => KeepsBlocks.refl _⟩

theorem registerToolUse_retains (site : ToolUseSite) (block : Block ν) :
    Retains core (core.registerToolUse site block) := by
  unfold Core.registerToolUse
  cases truthy block.id with
  | none => exact ⟨rfl, fun _ => KeepsBlocks.refl _⟩
  | some id => exact (registerSite_retains id site).trans (anchorWaiting_retains id)

theorem Core.Anchored.registerToolUse {site : ToolUseSite} {block block' : Block ν}
    (h : core.Anchored) (htool : block.type = .toolUse) (hblock : core.blockAt site = some block')
    (hsame : block'.type = block.type ∧ block'.id = block.id) :
    (core.registerToolUse site block).Anchored := by
  unfold Core.registerToolUse
  cases hid : truthy block.id with
  | none => exact h
  | some id =>
      refine (h.registerSite ⟨block', hblock, hsame.1.trans htool, ?_⟩).anchorWaiting id
      rw [hsame.2]
      exact hid

theorem Core.Anchored.registerBlocks {j : ℕ} {blocks : List (Block ν)} (h : core.Anchored)
    (hblocks : ∀ n block, blocks[n]? = some block → ∃ block' : Block ν,
      core.blockAt ⟨k, i, j + n⟩ = some block' ∧ block'.type = block.type ∧ block'.id = block.id) :
    (Core.registerBlocks k i j blocks core).Anchored ∧
      Retains core (Core.registerBlocks k i j blocks core) := by
  induction blocks generalizing j core with
  | nil => exact ⟨h, rfl, fun _ => KeepsBlocks.refl _⟩
  | cons block blocks ih =>
      unfold Core.registerBlocks
      dsimp only
      have hrest : ∀ core', Retains core core' → ∀ n block, blocks[n]? = some block →
          ∃ block' : Block ν, core'.blockAt ⟨k, i, j + 1 + n⟩ = some block' ∧
            block'.type = block.type ∧ block'.id = block.id := by
        intro core' hretains n block hn
        obtain ⟨block', hblock', htype, hid⟩ := hblocks (n + 1) block hn
        obtain ⟨block'', hblock'', htype', hid'⟩ := hretains.blocks k i _ block' hblock'
        rw [Nat.add_assoc, Nat.add_comm 1 n]
        exact ⟨block'', hblock'', htype'.trans htype, hid'.trans hid⟩
      split_ifs with htool
      · obtain ⟨block', hblock', hsame⟩ := hblocks 0 block rfl
        have hretains := @registerToolUse_retains ν core ⟨k, i, j⟩ block
        obtain ⟨hanchored, hafter⟩ :=
          ih (h.registerToolUse htool hblock' hsame) (hrest _ hretains)
        exact ⟨hanchored, hretains.trans hafter⟩
      · exact ih h (hrest core ⟨rfl, fun _ => KeepsBlocks.refl _⟩)

theorem startTurn_block {type : TurnType} {content : List (Block ν)} {entry : TimelineEntry ν} {n : ℕ}
    {block : Block ν} (hn : content[n]? = some block) : ∃ block' : Block ν,
      (core.startTurn k type content entry).blockAt ⟨k, (core.folds k).turns.length, n⟩ = some block' ∧
        block'.type = block.type ∧ block'.id = block.id := by
  refine (touch_keeps _ _).blocks k _ n block ?_
  rw [setFold_self]
  unfold blockIn
  rw [List.getElem?_concat_length]
  exact hn

theorem pushBlocks_block {turn : InternalTurn ν} {blocks : List (Block ν)} {n : ℕ} {block : Block ν}
    (hturn : (core.folds k).turns[i]? = some turn) (hn : blocks[n]? = some block) :
    ∃ block' : Block ν,
      (core.pushBlocks k i blocks).blockAt ⟨k, i, turn.content.length + n⟩ = some block' ∧
        block'.type = block.type ∧ block'.id = block.id := by
  refine (touch_keeps _ _).blocks k i _ block ?_
  unfold Core.modifyTurn
  rw [setFold_self]
  unfold blockIn
  rw [List.getElem?_modify_eq, hturn, Option.map_eq_map, Option.map_some, Option.bind_some,
    List.getElem?_append_right (Nat.le_add_right _ _), Nat.add_sub_cancel_left]
  exact hn

theorem Core.Anchored.appendAssistant (h : core.Anchored) (entry : TimelineEntry ν) :
    (core.appendAssistant k entry).Anchored ∧ Retains core (core.appendAssistant k entry) := by
  unfold Core.appendAssistant
  dsimp only
  cases hcursor : core.assistantCursor k with
  | none =>
      have hstart := @startTurn_keeps ν core k .assistant (entryBlocks entry) entry
      obtain ⟨hanchored, hretains⟩ := (h.keeps hstart).registerBlocks
        fun n block hn => (Nat.zero_add n).symm ▸ startTurn_block hn
      exact ⟨hanchored, hstart.retains.trans hretains⟩
  | some i =>
      have hpush := @pushBlocks_keeps ν core k i (entryBlocks entry)
      have hturn := List.getElem?_eq_getElem (assistantCursor_lt hcursor)
      dsimp only
      rw [hturn, Option.map_some, Option.getD_some]
      obtain ⟨hanchored, hretains⟩ := (h.keeps hpush).registerBlocks
        fun n block hn => pushBlocks_block hturn hn
      exact ⟨hanchored, hpush.retains.trans hretains⟩

theorem appendResult_keeps (entry : TimelineEntry ν) : Keeps core (core.appendResult k entry) := by
  unfold Core.appendResult
  cases core.siteOn k entry.toolUseId with
  | none => exact attachSystemBlock_keeps entry _
  | some site => exact modifyBlock_keeps fun _ => ⟨rfl, rfl⟩

theorem noteOutcome_keeps (entry : TimelineEntry ν) : Keeps core (core.noteOutcome entry) := by
  unfold Core.noteOutcome
  cases truthy entry.toolUseId with
  | none => exact Keeps.refl core
  | some id => exact ⟨rfl, rfl, rfl, rfl, fun _ => KeepsBlocks.refl _⟩

theorem appendSystem_keeps (entry : TimelineEntry ν) : Keeps core (core.appendSystem k entry) := by
  unfold Core.appendSystem
  split_ifs
  · exact startTurn_keeps _ _ entry
  · cases (entry.toolUseId.bind core.sites).filter (·.fold = k) with
    | none => exact attachSystemBlock_keeps entry _
    | some _ => exact Keeps.refl core
  · exact startTurn_keeps _ _ entry
  · exact noteOutcome_keeps entry
  · exact applyTaskBlock_keeps entry _ _
  · exact Keeps.refl core

theorem appendAnswer_keeps (entry : TimelineEntry ν) : Keeps core (core.appendAnswer k entry) := by
  unfold Core.appendAnswer
  cases core.siteOn k entry.toolUseId with
  | none =>
      dsimp only
      split_ifs
      · exact attachSystemBlock_keeps entry _
      · exact startTurn_keeps _ _ entry
  | some site =>
      dsimp only
      have hmodify := @modifyBlock_keeps ν core site.fold site.turn site.block (fun block : Block ν =>
        { block with
          result := some (resultText entry), isError := some entry.isError
          answers := entry.answers.or block.answers }) fun _ => ⟨rfl, rfl⟩
      split_ifs
      · exact hmodify
      · exact hmodify.trans (startTurn_keeps _ _ entry)

theorem appendUser_keeps (entry : TimelineEntry ν) : Keeps core (core.appendUser k entry) := by
  unfold Core.appendUser
  split_ifs
  · exact startTurn_keeps _ _ entry
  · exact appendAnswer_keeps entry
  · exact startTurn_keeps _ _ entry

theorem Core.Anchored.appendTo (h : core.Anchored) (k : FoldKey) (entry : TimelineEntry ν) :
    (core.appendTo k entry).Anchored ∧ (core.appendTo k entry).groups = core.groups := by
  have hkept : ∀ core', Keeps core core' → core'.Anchored ∧ core'.groups = core.groups :=
    fun _ hkeeps => ⟨h.keeps hkeeps, hkeeps.groups⟩
  unfold Core.appendTo
  cases entry.type with
  | user => exact hkept _ (appendUser_keeps entry)
  | assistant =>
      obtain ⟨hanchored, hretains⟩ := h.appendAssistant (k := k) entry
      exact ⟨hanchored, hretains.groups⟩
  | toolResult => exact hkept _ (appendResult_keeps entry)
  | system => exact hkept _ (appendSystem_keeps entry)

theorem Core.Anchored.groupFoldFor (h : core.Anchored) (hsound : core.Sound) (id : String) :
    (core.groupFoldFor id).Anchored ∧
      ∀ g, g ∈ (core.groupFoldFor id).groups ↔ g ∈ core.groups ∨ id = g := by
  unfold Core.groupFoldFor
  split_ifs with hthere
  · refine ⟨h, fun g => ⟨Or.inl, ?_⟩⟩
    rintro (hg | rfl)
    · exact hg
    · exact hthere
  · refine ⟨(h.addGroup hsound hthere).anchorWaiting id, fun g => ?_⟩
    rw [(anchorWaiting_retains id).groups]
    change g ∈ core.groups ++ [id] ↔ _
    rw [List.mem_append, List.mem_singleton, eq_comm]

theorem Core.Anchored.appendOne (h : core.Anchored) (hsound : core.Sound) (entry : TimelineEntry ν) :
    (core.appendOne entry).Anchored ∧
      ∀ g, g ∈ (core.appendOne entry).groups ↔
        g ∈ core.groups ∨ truthy entry.parentToolUseId = some g := by
  unfold Core.appendOne
  cases truthy entry.parentToolUseId with
  | none =>
      obtain ⟨hanchored, hgroups⟩ := h.appendTo none entry
      refine ⟨hanchored, fun g => ?_⟩
      dsimp only
      rw [hgroups]
      simp
  | some id =>
      obtain ⟨hgroup, hmem⟩ := h.groupFoldFor hsound id
      obtain ⟨hanchored, hgroups⟩ := hgroup.appendTo (some id) entry
      refine ⟨hanchored, fun g => ?_⟩
      dsimp only
      rw [hgroups, hmem, Option.some_inj]

theorem Core.Anchored.appendAll (h : core.Anchored) (hsound : core.Sound)
    (entries : List (TimelineEntry ν)) :
    (entries.foldl Core.appendOne core).Anchored ∧
      ∀ g, g ∈ (entries.foldl Core.appendOne core).groups ↔
        g ∈ core.groups ∨ ∃ entry ∈ entries, truthy entry.parentToolUseId = some g := by
  induction entries generalizing core with
  | nil => exact ⟨h, fun g => by simp⟩
  | cons entry entries ih =>
      obtain ⟨hanchored, hmem⟩ := h.appendOne hsound entry
      obtain ⟨hall, hgroups⟩ := ih hanchored (appendOne_step hsound entry).sound
      refine ⟨hall, fun g => ?_⟩
      rw [List.foldl_cons, hgroups, hmem, or_assoc]
      simp

end ShortReel.EntryProjection
