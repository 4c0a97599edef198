import ShortReel.TimelineSteps

/-!
# The invariants of a timeline content

Distinct ids below their allocators, exactly one narration carrier for every unit on the track,
and no transition behind the last clip: kept by every batch that is accepted.
-/

namespace ShortReel.TimelineInvariants

open TimelineModel TimelineOperations TimelineTrack TimelineFrame TimelineBatch TimelineSteps

def carriesFor (unitId : String) (clip : EditClip) : Bool :=
  clip.unitId = unitId && clip.carriesNarration

def OneCarrier (clips : List EditClip) : Prop :=
  ∀ clip ∈ clips, clips.countP (carriesFor clip.unitId) = 1

def voice (clip : EditClip) : String × Bool :=
  (clip.unitId, clip.carriesNarration)

theorem countP_voices (unitId : String) (clips : List EditClip) :
    clips.countP (carriesFor unitId) =
      (clips.map voice).countP fun entry => entry.1 = unitId && entry.2 := by
  rw [List.countP_map]
  rfl

theorem OneCarrier.of_perm {first second : List EditClip}
    (hperm : (second.map voice).Perm (first.map voice)) (h : OneCarrier first) :
    OneCarrier second := by
  intro clip hclip
  have hvoice : voice clip ∈ first.map voice :=
    hperm.mem_iff.mp (List.mem_map_of_mem hclip)
  obtain ⟨old, hold, heq⟩ := List.mem_map.mp hvoice
  have hunit : old.unitId = clip.unitId := congrArg Prod.fst heq
  rw [countP_voices, hperm.countP_eq, ← countP_voices, ← hunit]
  exact h old hold

theorem map_voice_mapIdx {clips : List EditClip} {rewrite : ℕ → EditClip → EditClip}
    (h : ∀ position clip, voice (rewrite position clip) = voice clip) :
    (clips.mapIdx rewrite).map voice = clips.map voice := by
  apply List.ext_getElem?
  intro position
  simp only [List.getElem?_map, List.getElem?_mapIdx, Option.map_map]
  congr 1
  funext clip
  exact h position clip

theorem countP_carriesFor_ne {clip : EditClip} {unitId : String} (h : clip.unitId ≠ unitId)
    (clips : List EditClip) :
    (clip :: clips).countP (carriesFor unitId) = clips.countP (carriesFor unitId) := by
  rw [List.countP_cons_of_neg]
  simp [carriesFor, h]

theorem OneCarrier.cons {clip : EditClip} {clips : List EditClip}
    (hcarries : clip.carriesNarration =
      !clips.any fun other => other.unitId = clip.unitId && other.carriesNarration)
    (h : OneCarrier clips) : OneCarrier (clip :: clips) := by
  intro other hother
  by_cases hunit : clip.unitId = other.unitId
  · rw [← hunit, List.countP_cons]
    cases hany : clips.any (fun other => other.unitId = clip.unitId && other.carriesNarration) with
    | true =>
        obtain ⟨carrier, hcarrier, hcarriesit⟩ := List.any_eq_true.mp hany
        have hcarrierunit : carrier.unitId = clip.unitId := by
          simpa using (Bool.and_eq_true_iff.mp hcarriesit).1
        have hone := h carrier hcarrier
        rw [hcarrierunit] at hone
        have hnot : carriesFor clip.unitId clip = false := by simp [carriesFor, hcarries, hany]
        simp [hone, hnot]
    | false =>
        have hnone : clips.countP (carriesFor clip.unitId) = 0 := by
          rw [List.countP_eq_zero]
          intro carrier hcarrier hcarriesit
          exact absurd hcarriesit (by
            simpa [carriesFor] using List.any_eq_false.mp hany carrier hcarrier)
        have hself : carriesFor clip.unitId clip = true := by simp [carriesFor, hcarries, hany]
        simp [hnone, hself]
  · have hmem : other ∈ clips := by
      rcases List.mem_cons.mp hother with rfl | hmem
      · exact absurd rfl hunit
      · exact hmem
    rw [countP_carriesFor_ne hunit]
    exact h other hmem

theorem mapIdx_at_else (here elsewhere : EditClip → EditClip) (front back : List EditClip)
    (clip : EditClip) :
    (front ++ clip :: back).mapIdx
        (fun position other => if position = front.length then here other else elsewhere other) =
      front.map elsewhere ++ here clip :: back.map elsewhere := by
  induction front with
  | nil =>
      simp only [List.nil_append, List.length_nil, List.mapIdx_cons, if_true, List.map_nil,
        List.cons.injEq, true_and]
      exact List.mapIdx_eq_iff.mpr fun position => by simp
  | cons first front ih =>
      simp only [List.cons_append, List.mapIdx_cons, List.length_cons, List.map_cons,
        List.cons.injEq]
      refine ⟨by simp, ?_⟩
      rw [← ih]
      simp

theorem mapIdx_at (changes : EditClip → EditClip) (front back : List EditClip) (clip : EditClip) :
    (front ++ clip :: back).mapIdx
        (fun position other => if position = front.length then changes other else other) =
      front ++ changes clip :: back := by
  simpa using mapIdx_at_else changes id front back clip

theorem oneCarrier_takeUp {front back : List EditClip} (heir : EditClip)
    (hnone : (front ++ back).countP (carriesFor heir.unitId) = 0)
    (hothers : ∀ other ∈ front ++ back, other.unitId ≠ heir.unitId →
      (front ++ back).countP (carriesFor other.unitId) = 1) :
    OneCarrier (front ++ { heir with carriesNarration := true } :: back) := by
  intro other hother
  rw [List.perm_middle.countP_eq]
  by_cases hunit : other.unitId = heir.unitId
  · rw [hunit, List.countP_cons_of_pos (by simp [carriesFor]), hnone]
  · have hheir : ({ heir with carriesNarration := true } : EditClip).unitId ≠ other.unitId :=
      Ne.symm hunit
    rw [countP_carriesFor_ne hheir]
    refine hothers other ?_ hunit
    simp only [List.mem_append, List.mem_cons] at hother ⊢
    rcases hother with h | rfl | h
    · exact Or.inl h
    · exact absurd rfl hunit
    · exact Or.inr h

theorem exists_split_at {clips : List EditClip} {position : ℕ} (h : position < clips.length) :
    ∃ front back, clips = front ++ clips[position] :: back ∧ position = front.length := by
  refine ⟨clips.take position, clips.drop (position + 1), ?_, ?_⟩
  · rw [List.getElem_cons_drop, List.take_append_drop]
  · rw [List.length_take, min_eq_left h.le]

theorem oneCarrier_handOverNarration {index : ℕ} {clip : EditClip} {batch : Batch}
    (h : OneCarrier (clip :: batch.clips)) :
    OneCarrier (batch.handOverNarration index clip).clips := by
  have hrest : ∀ other ∈ batch.clips, other.unitId ≠ clip.unitId ∨ clip.carriesNarration = false →
      batch.clips.countP (carriesFor other.unitId) = 1 := by
    intro other hother hcase
    have hone := h other (List.mem_cons_of_mem _ hother)
    rw [List.countP_cons_of_neg] at hone
    · exact hone
    · rcases hcase with hunit | hcarries
      · simp [carriesFor, Ne.symm hunit]
      · simp [carriesFor, hcarries]
  unfold Batch.handOverNarration
  split
  · rename_i hcarries
    have hnone : batch.clips.countP (carriesFor clip.unitId) = 0 := by
      have hone := h clip List.mem_cons_self
      rw [List.countP_cons_of_pos (by simp [carriesFor, hcarries])] at hone
      omega
    split
    · rename_i position hposition
      obtain ⟨hlt, hunit, -⟩ := List.findIdx?_eq_some_iff_getElem.mp hposition
      obtain ⟨front, back, hsplit, hfront⟩ := exists_split_at hlt
      generalize batch.clips[position] = heir at hunit hsplit
      have hunit : heir.unitId = clip.unitId := by simpa using hunit
      have hcount : ∀ unitId, batch.clips.countP (carriesFor unitId) =
          (heir :: (front ++ back)).countP (carriesFor unitId) := by
        intro unitId
        rw [hsplit, List.perm_middle.countP_eq]
      have hreplaced : (batch.replace index position fun other =>
          { other with carriesNarration := true }).clips =
          front ++ { heir with carriesNarration := true } :: back := by
        unfold Batch.replace Batch.rewriteClips
        rw [hsplit, hfront]
        exact mapIdx_at _ front back heir
      rw [hreplaced]
      apply oneCarrier_takeUp heir
      · have hzero := hcount clip.unitId
        rw [hnone, List.countP_cons] at hzero
        rw [hunit]
        omega
      · intro other hother hne
        have hmem : other ∈ batch.clips := by
          rw [hsplit]
          exact (List.perm_middle.mem_iff).mpr (List.mem_cons_of_mem _ hother)
        have hone := hrest other hmem (Or.inl (hunit ▸ hne))
        rwa [hcount, countP_carriesFor_ne (Ne.symm hne)] at hone
    · rename_i hnotfound
      intro other hother
      refine hrest other hother (Or.inl fun heq => ?_)
      have hnot := List.findIdx?_eq_none_iff.mp hnotfound other hother
      simp [heq] at hnot
  · rename_i hcarries
    intro other hother
    exact hrest other hother (Or.inr (by simpa using hcarries))

def laidDown (unitId : String) (clip : EditClip) : EditClip :=
  if clip.unitId = unitId then { clip with carriesNarration := false } else clip

theorem laidDown_unitId (unitId : String) (clip : EditClip) :
    (laidDown unitId clip).unitId = clip.unitId := by
  unfold laidDown
  split <;> rfl

theorem countP_laidDown (unitId other : String) (clips : List EditClip) :
    (clips.map (laidDown unitId)).countP (carriesFor other) =
      if other = unitId then 0 else clips.countP (carriesFor other) := by
  rw [List.countP_map]
  split
  · rename_i heq
    subst heq
    rw [List.countP_eq_zero]
    intro clip _ hcarries
    by_cases hunit : clip.unitId = other <;> simp [carriesFor, laidDown, hunit] at hcarries
  · rename_i hne
    congr 1
    funext clip
    by_cases hunit : clip.unitId = unitId
    · have hother : unitId ≠ other := Ne.symm hne
      simp [carriesFor, laidDown, hunit, hother]
    · simp [laidDown, hunit]

theorem oneCarrier_placeNarration {front back : List EditClip} {clip : EditClip}
    (h : OneCarrier (front ++ clip :: back)) :
    OneCarrier (((front ++ clip :: back).mapIdx (putDown clip.unitId front.length)).mapIdx
      fun other clip => if other = front.length then { clip with carriesNarration := true }
        else clip) := by
  have hdown : putDown clip.unitId front.length = fun position other =>
      if position = front.length then id other else laidDown clip.unitId other := by
    funext position other
    unfold putDown laidDown
    by_cases hposition : position = front.length <;> simp [hposition]
  have hlength : front.length = (front.map (laidDown clip.unitId)).length := by simp
  rw [hdown, mapIdx_at_else, hlength, mapIdx_at]
  have hcount : ∀ unitId, (front.map (laidDown clip.unitId) ++ back.map (laidDown clip.unitId)).countP
      (carriesFor unitId) =
        if unitId = clip.unitId then 0 else (front ++ back).countP (carriesFor unitId) := by
    intro unitId
    rw [← List.map_append]
    exact countP_laidDown clip.unitId unitId (front ++ back)
  apply oneCarrier_takeUp clip
  · rw [hcount, if_pos rfl]
  · intro other hother hne
    rw [← List.map_append] at hother
    obtain ⟨old, hold, rfl⟩ := List.mem_map.mp hother
    rw [laidDown_unitId] at hne ⊢
    rw [hcount, if_neg hne]
    have hone := h old (List.perm_middle.mem_iff.mpr (List.mem_cons_of_mem _ hold))
    rwa [List.perm_middle.countP_eq, countP_carriesFor_ne (Ne.symm hne)] at hone

section Operations

open TimelineOperations.Batch

variable {index : ℕ} {sources : EpisodeSources} {batch result : Batch}

theorem voices_resetBrokenCuts (before : List (ClipId × Option ClipId)) :
    (batch.resetBrokenCuts index before).clips.map voice = batch.clips.map voice := by
  rw [resetBrokenCuts_clips]
  apply map_voice_mapIdx
  intro _ clip
  unfold resetCut
  split <;> rfl

theorem oneCarrier_resetBrokenCuts (before : List (ClipId × Option ClipId))
    (h : OneCarrier batch.clips) : OneCarrier (batch.resetBrokenCuts index before).clips :=
  h.of_perm (by rw [voices_resetBrokenCuts])

theorem apply_oneCarrier {operation : TimelineOperation}
    (happly : batch.apply index sources operation = .ok result) (h : OneCarrier batch.clips) :
    OneCarrier result.clips := by
  -- A field that is neither the unit nor the narration leaves the voices alone.
  have hfield : ∀ clipId,
      ((∃ spec, operation = .setTrim clipId spec) ∨ (∃ volume, operation = .setVolume clipId volume) ∨
        (∃ hold, operation = .setHold clipId hold) ∨ ∃ reason, operation = .setReason clipId reason) →
      OneCarrier result.clips := by
    intro clipId hcase
    obtain ⟨position, clip, front, back, changes, -, hchanges, rfl⟩ := setField_ok hcase happly
    refine h.of_perm (List.Perm.of_eq (map_voice_mapIdx fun other clip => ?_))
    split
    · simp [voice, hchanges clip]
    · rfl
  cases operation with
  | insert operation =>
      obtain ⟨clip, named, position, hclip, hpoint, -, rfl⟩ := insert_ok happly
      obtain ⟨⟨referenced, rfl, -⟩, -, front, back, hsplit, rfl, -⟩ := insertionPoint_ok hpoint
      apply oneCarrier_resetBrokenCuts
      have hcons : OneCarrier (clip :: (front ++ back)) := by
        rw [← hsplit]
        exact h.cons (newClip_ok hclip).2
      refine hcons.of_perm (List.Perm.map voice ?_)
      simp only [placed, hsplit, OrderEdits.insertIdx_append_length]
      exact List.perm_middle
  | delete clipId =>
      obtain ⟨position, clip, front, back, found, rfl⟩ := delete_ok happly
      apply oneCarrier_resetBrokenCuts
      apply oneCarrier_handOverNarration
      have hremoved : (removed index clip position (batch.refer clipId true)).clips =
          front ++ back := found.eraseIdx
      rw [hremoved]
      refine h.of_perm (List.Perm.map voice ?_)
      rw [found.split]
      exact List.perm_middle.symm
  | move clipId after =>
      obtain ⟨position, clip, front, back, named, destination, found, -, hpoint, rfl⟩ :=
        move_ok happly
      rw [found.eraseIdx] at hpoint
      obtain ⟨⟨referenced, rfl, -⟩, -, left, right, hsplit, hdestination, -⟩ :=
        insertionPoint_ok hpoint
      apply oneCarrier_resetBrokenCuts
      have hsplit : front ++ back = left ++ right := hsplit
      refine h.of_perm (List.Perm.map voice ?_)
      have hclips : (moved index clip position destination
          { batch.refer clipId true with clips := front ++ back, referenced := referenced }).clips =
          left ++ clip :: right := by
        unfold moved
        split <;> simp [touch, hsplit, hdestination, OrderEdits.insertIdx_append_length]
      rw [hclips, found.split]
      exact (List.perm_middle.trans (by rw [hsplit])).trans List.perm_middle.symm
  | setTrim clipId spec => exact hfield clipId (Or.inl ⟨spec, rfl⟩)
  | setVolume clipId volume => exact hfield clipId (Or.inr (Or.inl ⟨volume, rfl⟩))
  | setHold clipId hold => exact hfield clipId (Or.inr (Or.inr (Or.inl ⟨hold, rfl⟩)))
  | setReason clipId reason => exact hfield clipId (Or.inr (Or.inr (Or.inr ⟨reason, rfl⟩)))
  | setTransition clipId spec =>
      obtain ⟨position, clip, front, back, transition, -, -, rfl⟩ := setTransition_ok happly
      refine h.of_perm (List.Perm.of_eq (map_voice_mapIdx fun other clip => ?_))
      split <;> rfl
  | placeNarration clipId =>
      obtain ⟨position, clip, front, back, found, rfl⟩ := placeNarration_ok happly
      have hclips : batch.clips = front ++ clip :: back := found.split
      rw [hclips] at h
      have hplaced := oneCarrier_placeNarration h
      rw [← hclips, ← found.position] at hplaced
      exact hplaced
  | insertBgm operation =>
      obtain ⟨clip, -, rfl⟩ := insertBgm_ok happly
      exact h
  | setBgm operation =>
      obtain ⟨front, back, current, updated, -, -, -, rfl | rfl⟩ := setBgm_ok happly <;> exact h
  | deleteBgm clipId =>
      obtain ⟨front, back, clip, -, rfl⟩ := deleteBgm_ok happly
      exact h

theorem applyAll_oneCarrier {operations : List TimelineOperation}
    (happly : batch.applyAll sources index operations = .ok result) (h : OneCarrier batch.clips) :
    OneCarrier result.clips := by
  induction operations generalizing index batch with
  | nil =>
      cases happly
      exact h
  | cons operation operations ih =>
      simp only [applyAll, bind_eq_ok] at happly
      obtain ⟨middle, hfirst, hrest⟩ := happly
      exact ih hrest (apply_oneCarrier hfirst h)

end Operations

structure Invariants (content : EditTimelineContent) (nextClipNumber nextBgmNumber : ℕ+) :
    Prop where
  clip_ids : (clipIds content.clips).Nodup
  bgm_ids : (content.bgm.map (·.id)).Nodup
  one_carrier : OneCarrier content.clips
  plain_end : PlainEnd content.clips
  clips_below : ∀ clip ∈ content.clips, clip.number < nextClipNumber
  bgm_below : ∀ clip ∈ content.bgm, clip.number < nextBgmNumber

theorem invariants_applyOperations {content : EditTimelineContent}
    {nextClipNumber nextBgmNumber : ℕ+} {operations : List TimelineOperation}
    {sources : EpisodeSources} {checkWindows : Bool} {applied : AppliedBatch}
    (hinvariants : Invariants content nextClipNumber nextBgmNumber)
    (happly : applyOperations content nextClipNumber nextBgmNumber operations sources checkWindows =
      .ok applied) :
    Invariants applied.content applied.nextClipNumber applied.nextBgmNumber := by
  obtain ⟨batch, accepted⟩ := applyOperations_ok happly
  have run := accepted.run
  have hbelow : Below (Batch.start content nextClipNumber nextBgmNumber) := hinvariants.clips_below
  refine ⟨applied.content.unique_clip_ids, applied.content.unique_bgm_ids, ?_, ?_, ?_, ?_⟩
  · rw [accepted.clips_eq]
    exact applyAll_oneCarrier accepted.ran hinvariants.one_carrier
  · rw [accepted.clips_eq]
    exact run.plainEnd hbelow hinvariants.clip_ids hinvariants.plain_end
  · rw [accepted.clips_eq, accepted.next_clip]
    exact below_of_frame run.frame hbelow
  · rw [accepted.bgm_eq, accepted.next_bgm]
    intro clip hclip
    rcases run.frame.tunes clip ((List.mem_insertionSort _).mp hclip) with
      ⟨old, hold, hnumber, -⟩ | ⟨-, hlt⟩
    · exact hnumber ▸ (hinvariants.bgm_below old hold).trans_le run.frame.nextBgmNumber
    · exact hlt

end ShortReel.TimelineInvariants
