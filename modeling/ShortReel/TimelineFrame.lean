import ShortReel.TimelineTrack

/-!
# The frame of a batch edit

What every state of a batch keeps of the earlier ones: clips the batch has not touched keep their
fields and their order, and a transition that survives keeps the cut it sits on.
-/

namespace ShortReel.TimelineFrame

open OrderEdits TimelineModel TimelineOperations TimelineTrack

open TimelineOperations.Batch

variable {index : ℕ} {sources : EpisodeSources} {batch result : Batch}

/-- What one state of a batch keeps of an earlier one: untouched clips stand in the same order
with the same fields, and clips that are not new keep what they refer to. -/
structure Frame (batch result : Batch) : Prop where
  touched : ∀ id ∈ batch.lastOperation, id ∈ result.lastOperation
  referenced : ∀ id ∈ batch.referenced, id ∈ result.referenced
  clips : result.clips.filter (·.id ∉ result.lastOperation) =
    batch.clips.filter (·.id ∉ result.lastOperation)
  bgm : result.bgm.filter (·.id ∉ result.lastOperation) =
    batch.bgm.filter (·.id ∉ result.lastOperation)
  nextClipNumber : batch.nextClipNumber ≤ result.nextClipNumber
  nextBgmNumber : batch.nextBgmNumber ≤ result.nextBgmNumber
  units : ∀ clip ∈ result.clips,
    (∃ old ∈ batch.clips, old.number = clip.number ∧ old.unitId = clip.unitId) ∨
      (batch.nextClipNumber ≤ clip.number ∧ clip.number < result.nextClipNumber)
  tunes : ∀ clip ∈ result.bgm,
    (∃ old ∈ batch.bgm, old.number = clip.number ∧ old.bgmId = clip.bgmId) ∨
      (batch.nextBgmNumber ≤ clip.number ∧ clip.number < result.nextBgmNumber)

theorem Frame.refl (batch : Batch) : Frame batch batch where
  touched := fun _ h => h
  referenced := fun _ h => h
  clips := rfl
  bgm := rfl
  nextClipNumber := le_refl _
  nextBgmNumber := le_refl _
  units := fun clip h => Or.inl ⟨clip, h, rfl, rfl⟩
  tunes := fun clip h => Or.inl ⟨clip, h, rfl, rfl⟩

theorem filter_eq_of_imp {α : Type} {first second : List α} {weak strong : α → Bool}
    (himp : ∀ a, strong a = true → weak a = true)
    (h : first.filter weak = second.filter weak) :
    first.filter strong = second.filter strong := by
  have hboth : ∀ items : List α, (items.filter weak).filter strong = items.filter strong := by
    intro items
    rw [List.filter_filter]
    congr 1
    funext a
    cases hstrong : strong a with
    | false => simp
    | true => simp [himp a hstrong]
  rw [← hboth first, h, hboth second]

theorem Frame.trans {first second third : Batch} (hfirst : Frame first second)
    (hsecond : Frame second third) : Frame first third where
  touched := fun id h => hsecond.touched id (hfirst.touched id h)
  referenced := fun id h => hsecond.referenced id (hfirst.referenced id h)
  clips := hsecond.clips.trans (filter_eq_of_imp
    (fun clip h => by
      simp only [decide_eq_true_eq] at h ⊢
      exact fun hmem => h (hsecond.touched _ hmem)) hfirst.clips)
  bgm := hsecond.bgm.trans (filter_eq_of_imp
    (fun clip h => by
      simp only [decide_eq_true_eq] at h ⊢
      exact fun hmem => h (hsecond.touched _ hmem)) hfirst.bgm)
  nextClipNumber := hfirst.nextClipNumber.trans hsecond.nextClipNumber
  nextBgmNumber := hfirst.nextBgmNumber.trans hsecond.nextBgmNumber
  units := by
    intro clip hclip
    rcases hsecond.units clip hclip with ⟨old, hold, hnumber, hunit⟩ | ⟨hge, hlt⟩
    · rcases hfirst.units old hold with ⟨older, holder, hnumber', hunit'⟩ | ⟨hge, hlt⟩
      · exact Or.inl ⟨older, holder, hnumber'.trans hnumber, hunit'.trans hunit⟩
      · exact Or.inr ⟨hnumber ▸ hge, hnumber ▸ hlt.trans_le hsecond.nextClipNumber⟩
    · exact Or.inr ⟨hfirst.nextClipNumber.trans hge, hlt⟩
  tunes := by
    intro clip hclip
    rcases hsecond.tunes clip hclip with ⟨old, hold, hnumber, htune⟩ | ⟨hge, hlt⟩
    · rcases hfirst.tunes old hold with ⟨older, holder, hnumber', htune'⟩ | ⟨hge, hlt⟩
      · exact Or.inl ⟨older, holder, hnumber'.trans hnumber, htune'.trans htune⟩
      · exact Or.inr ⟨hnumber ▸ hge, hnumber ▸ hlt.trans_le hsecond.nextBgmNumber⟩
    · exact Or.inr ⟨hfirst.nextBgmNumber.trans hge, hlt⟩

theorem Frame.mem_iff (frame : Frame batch result) {clip : EditClip}
    (hid : clip.id ∉ result.lastOperation) : clip ∈ result.clips ↔ clip ∈ batch.clips := by
  have hmem : ∀ clips : List EditClip,
      clip ∈ clips.filter (fun clip => decide (clip.id ∉ result.lastOperation)) ↔
        clip ∈ clips := by
    intro clips
    simp [List.mem_filter, hid]
  rw [← hmem result.clips, frame.clips, hmem batch.clips]

theorem Frame.mem_bgm_iff (frame : Frame batch result) {clip : BgmClip}
    (hid : clip.id ∉ result.lastOperation) : clip ∈ result.bgm ↔ clip ∈ batch.bgm := by
  have hmem : ∀ bgm : List BgmClip,
      clip ∈ bgm.filter (fun clip => decide (clip.id ∉ result.lastOperation)) ↔ clip ∈ bgm := by
    intro bgm
    simp [List.mem_filter, hid]
  rw [← hmem result.bgm, frame.bgm, hmem batch.bgm]

theorem frame_refer (id : ClipId) (asTarget : Bool) : Frame batch (batch.refer id asTarget) :=
  { Frame.refl batch with
    referenced := fun _ h => List.mem_insert_of_mem h }

theorem frame_insertionPoint {after : Option ClipId} {position : ℕ}
    (h : batch.insertionPoint index after = .ok (result, position)) : Frame batch result := by
  obtain ⟨⟨referenced, rfl, hreferenced⟩, -⟩ := insertionPoint_ok h
  exact { Frame.refl batch with referenced := fun id hid => (hreferenced id).mpr (Or.inl hid) }

theorem frame_rewriteClips {rewrite : ℕ → EditClip → EditClip} (hkeeps : KeepsIdentity rewrite) :
    Frame batch (batch.rewriteClips index rewrite) :=
  { Frame.refl batch with
    touched := fun _ h => mem_rewriteClips_lastOperation.mpr (Or.inl h)
    clips := by
      apply filter_mapIdx
      intro position clip hclip
      have hid : (rewrite position clip).id = clip.id := by
        simp [EditClip.id, (hkeeps position clip).1]
      refine ⟨by rw [hid], fun huntouched => ?_⟩
      exact rewrite_eq_self hclip (by simpa using huntouched)
    bgm := rfl
    units := by
      intro clip hclip
      obtain ⟨position, hlt, rfl⟩ := List.mem_mapIdx.mp hclip
      have hkept := hkeeps position batch.clips[position]
      exact Or.inl ⟨_, List.getElem_mem hlt, hkept.1.symm, hkept.2.symm⟩ }

theorem keepsIdentity_replace {position : ℕ} {changes : EditClip → EditClip}
    (h : ∀ clip, (changes clip).number = clip.number ∧ (changes clip).unitId = clip.unitId) :
    KeepsIdentity fun other clip => if other = position then changes clip else clip := by
  intro other clip
  dsimp only
  split
  · exact h clip
  · exact ⟨rfl, rfl⟩

theorem lookup_nextIds (clips : List EditClip) (id : ClipId) :
    (nextIds clips).lookup id =
      if id ∈ clipIds clips then some (nextOf (clipIds clips) id) else none := by
  induction clips with
  | nil => rfl
  | cons first rest ih =>
      by_cases hid : id = first.id
      · subst hid
        simp [nextIds, nextOf, clipIds]
      · have hid' : first.id ≠ id := Ne.symm hid
        have hbeq : (id == first.id) = false := by simpa using hid
        simp [nextIds, nextOf, List.lookup_cons, hbeq, hid, hid', ih]

/-- How `resetBrokenCuts` rewrites one clip. -/
def resetCut (before after : List (ClipId × Option ClipId)) (clip : EditClip) : EditClip :=
  if clip.transitionToNext.isSome ∧
      (before.lookup clip.id).any (fun next => after.lookup clip.id ≠ some next) then
    { clip with transitionToNext := none }
  else clip

theorem resetBrokenCuts_clips (before : List (ClipId × Option ClipId)) :
    (batch.resetBrokenCuts index before).clips =
      batch.clips.mapIdx fun _ clip => resetCut before (nextIds batch.clips) clip := rfl

theorem keepsIdentity_resetCut (before after : List (ClipId × Option ClipId)) :
    KeepsIdentity fun _ clip => resetCut before after clip := by
  intro _ clip
  dsimp only [resetCut]
  split <;> exact ⟨rfl, rfl⟩

theorem frame_resetBrokenCuts (before : List (ClipId × Option ClipId)) :
    Frame batch (batch.resetBrokenCuts index before) :=
  frame_rewriteClips (keepsIdentity_resetCut before (nextIds batch.clips))

theorem clipIds_resetBrokenCuts (before : List (ClipId × Option ClipId)) :
    clipIds (batch.resetBrokenCuts index before).clips = clipIds batch.clips :=
  clipIds_mapIdx (keepsIdentity_resetCut before (nextIds batch.clips)) batch.clips

theorem resetCut_of_isSome (track : List EditClip) {clips : List EditClip} {clip : EditClip}
    (hmem : clip ∈ clips)
    (h : (resetCut (nextIds track) (nextIds clips) clip).transitionToNext.isSome) :
    resetCut (nextIds track) (nextIds clips) clip = clip ∧
      (clip.id ∈ clipIds track →
        nextOf (clipIds clips) clip.id = nextOf (clipIds track) clip.id) := by
  unfold resetCut at h ⊢
  split at h
  · simp at h
  · rename_i hkept
    refine ⟨if_neg hkept, fun htrack => ?_⟩
    by_contra hmoved
    apply hkept
    refine ⟨h, ?_⟩
    rw [lookup_nextIds, lookup_nextIds, if_pos htrack, if_pos (id_mem_clipIds hmem)]
    simpa using hmoved

theorem cuts_resetBrokenCuts {track : List EditClip} {clip : EditClip}
    (hclip : clip ∈ (batch.resetBrokenCuts index (nextIds track)).clips)
    (hsome : clip.transitionToNext.isSome) :
    clip ∈ batch.clips ∧ (clip.id ∈ clipIds track →
      nextOf (clipIds batch.clips) clip.id = nextOf (clipIds track) clip.id) := by
  rw [resetBrokenCuts_clips] at hclip
  obtain ⟨position, hlt, heq⟩ := List.mem_mapIdx.mp hclip
  have hmem : batch.clips[position] ∈ batch.clips := List.getElem_mem hlt
  obtain ⟨hsame, hcut⟩ := resetCut_of_isSome track hmem (by rw [heq]; exact hsome)
  rw [← heq, hsame]
  exact ⟨hmem, hcut⟩

end ShortReel.TimelineFrame
