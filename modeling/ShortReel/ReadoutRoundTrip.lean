import ShortReel.ShownSeconds
import ShortReel.TimelineDocuments
import ShortReel.TimelinePlacement

/-!
# Sending the readout back

Operations with the seconds of the readout: where these are the times of a clip, the clip stays as
it is. What `set_bgm` leaves out keeps its value, and the length of a video is a valid out point.
-/

namespace ShortReel.ReadoutRoundTrip

open TimelineModel TimelineOperations TimelineOperations.Batch TimelinePlacement TimelineTrack
open TimelineInvariants TimelineSteps TimelineDocuments ShownSeconds

variable {index : ℕ} {sources : EpisodeSources} {batch : Batch}

theorem checkTransitionWindows_untouched (previous : Option EditClip) (clips : List EditClip) :
    checkTransitionWindows sources ∅ previous clips = .ok () := by
  induction clips generalizing previous with
  | nil => rfl
  | cons clip clips ih =>
      have hnone : (previous.toList ++ [clip]).filterMap
          (fun item => (∅ : LastOperation).lookup item.id) = [] := by
        rw [List.filterMap_eq_nil_iff]
        exact fun item _ => rfl
      have hcheck : checkTransitionWindow sources ∅ previous clip = .ok () := by
        simp only [checkTransitionWindow, hnone, List.max?_nil]
      rw [checkTransitionWindows, hcheck]
      exact ih (some clip)

theorem checkBgm_untouched (h : batch.lastOperation = ∅) : batch.checkBgm sources = .ok () := by
  have hnone : batch.bgm.filter (fun clip => clip.id ∈ batch.lastOperation) = [] := by
    rw [h, List.filter_eq_nil_iff]
    intro clip _ hclip
    exact absurd (of_decide_eq_true hclip) (AList.notMem_empty clip.id)
  rw [checkBgm, hnone]
  rfl

theorem applyOperations_untouched {content : EditTimelineContent} {nextClipNumber nextBgmNumber : ℕ+}
    {operation : TimelineOperation} (checkWindows : Bool)
    (hrun : (Batch.start content nextClipNumber nextBgmNumber).apply 0 sources operation = .ok batch)
    (hclips : batch.clips = content.clips) (hbgm : batch.bgm = content.bgm)
    (hlast : batch.lastOperation = ∅) :
    ∃ applied, applyOperations content nextClipNumber nextBgmNumber [operation] sources
        checkWindows = .ok applied ∧
      applied.content.clips = content.clips ∧ applied.content.bgm.Perm content.bgm := by
  have hperm : (batch.bgm.insertionSort bgmOrder).Perm content.bgm :=
    hbgm ▸ List.perm_insertionSort _ _
  have hids : ((batch.bgm.insertionSort bgmOrder).map (·.id)).Nodup :=
    (hperm.map _).nodup_iff.mpr content.unique_bgm_ids
  have hvalid : ∃ kept, validateContent batch.clips (batch.bgm.insertionSort bgmOrder) = .ok kept := by
    rw [hclips]
    unfold validateContent
    rw [dif_pos content.unique_clip_ids, dif_pos hids, dif_pos content.one_narration_carrier_per_unit]
    exact ⟨_, rfl⟩
  obtain ⟨kept, hkept⟩ := hvalid
  obtain ⟨hkeptClips, hkeptBgm⟩ := validateContent_ok hkept
  have hall : (Batch.start content nextClipNumber nextBgmNumber).applyAll sources 0 [operation] =
      .ok batch := by
    rw [applyAll, hrun]
    rfl
  have hwindows : checkTransitionWindows sources ∅ none batch.clips = .ok () :=
    checkTransitionWindows_untouched none batch.clips
  have hplacement : batch.checkBgm sources = .ok () := checkBgm_untouched hlast
  refine ⟨⟨kept, batch.nextClipNumber, batch.nextBgmNumber, batch.targets, batch.referenced, ∅⟩, ?_,
    hkeptClips.trans hclips, hkeptBgm ▸ hperm⟩
  simp only [applyOperations, hall, Except.mapError, bind, Except.bind, hkept, hlast, hwindows,
    hplacement]
  cases checkWindows <;> rfl

theorem locate_of_mem {α : Type} {idOf : α → ClipId} {items : List α}
    (hnodup : (items.map idOf).Nodup) {item : α} (h : item ∈ items) :
    ∃ position, locate idOf items (idOf item) = some (position, item) := by
  induction items with
  | nil => exact absurd h List.not_mem_nil
  | cons first rest ih =>
      rw [List.map_cons, List.nodup_cons] at hnodup
      rw [locate]
      rcases List.mem_cons.mp h with rfl | hrest
      · exact ⟨0, if_pos rfl⟩
      · obtain ⟨position, hposition⟩ := ih hnodup.2 hrest
        have hne : idOf first ≠ idOf item := fun heq =>
          hnodup.1 (heq ▸ List.mem_map_of_mem hrest)
        rw [if_neg hne, hposition]
        exact ⟨position + 1, rfl⟩

theorem replace_self {position : ℕ} {clip : EditClip} {front back : List EditClip}
    (found : Found batch.clips clip.id position clip front back) {changes : EditClip → EditClip}
    (hchanges : changes clip = clip) : batch.replace index position changes = batch := by
  have hmap : batch.clips.mapIdx
      (fun other clip => if other = position then changes clip else clip) = batch.clips := by
    rw [found.split, found.position, mapIdx_at, hchanges]
  have hnone : rewrittenIds (fun other clip => if other = position then changes clip else clip)
      batch.clips = [] := by
    rw [List.eq_nil_iff_forall_not_mem]
    intro id hid
    obtain ⟨other, item, hitem, hchanged, -⟩ := mem_rewrittenIds.mp hid
    have hsame := congrArg (·[other]?) hmap
    simp only [List.getElem?_mapIdx, hitem, Option.map_some, Option.some.injEq] at hsame
    exact hchanged hsame
  rw [replace, rewriteClips, hmap, hnone]
  rfl

theorem position_of_mem {content : EditTimelineContent} (nextClipNumber nextBgmNumber : ℕ+)
    {clip : EditClip} (hclip : clip ∈ content.clips) :
    ∃ position, (Batch.start content nextClipNumber nextBgmNumber).position 0 clip.id "clip" =
      .ok ((Batch.start content nextClipNumber nextBgmNumber).refer clip.id true, position, clip) := by
  obtain ⟨position, hlocate⟩ := locate_of_mem content.unique_clip_ids hclip
  refine ⟨position, ?_⟩
  rw [TimelineOperations.Batch.position]
  simp only [Batch.start, hlocate]
  rfl

theorem bgmPosition_of_mem {content : EditTimelineContent} (nextClipNumber nextBgmNumber : ℕ+)
    {clip : BgmClip} (hclip : clip ∈ content.bgm) :
    ∃ position, (Batch.start content nextClipNumber nextBgmNumber).bgmPosition 0 clip.id =
      .ok ((Batch.start content nextClipNumber nextBgmNumber).refer clip.id true, position, clip) := by
  obtain ⟨position, hlocate⟩ := locate_of_mem content.unique_bgm_ids hclip
  refine ⟨position, ?_⟩
  rw [TimelineOperations.Batch.bgmPosition]
  simp only [Batch.start, hlocate]

def shownTrim (sources : EpisodeSources) (clip : EditClip) (startUs : ℕ) : Option TrimSpec :=
  (clipView sources clip startUs).1.trim.map fun view => ⟨view.sourceIn, view.sourceOut⟩

theorem shownTrim_some {clip : EditClip} {trim : ClipTrim} (h : clip.trim = some trim)
    (startUs : ℕ) : shownTrim sources clip startUs =
      some ⟨microsecondsToSeconds trim.inUs, microsecondsToSeconds trim.outUs⟩ := by
  have hview : (clipView sources clip startUs).1.trim = clip.trim.map trimView := rfl
  rw [shownTrim, hview, h]
  rfl

section Operations

variable {content : EditTimelineContent} {nextClipNumber nextBgmNumber : ℕ+}

theorem setTrim_shown {clip : EditClip} (hclip : clip ∈ content.clips) {trim : ClipTrim}
    (htrim : clip.trim = some trim) {wholeUs : ℕ}
    (hvideo : currentVideo 0 clip.id sources clip.unitId = .ok (trim.basisVersion, wholeUs))
    (hin : WholeMillis trim.inUs) (hout : KeptEnd wholeUs trim.outUs)
    (hlength : minTrimMicroseconds ≤ trim.outUs - trim.inUs) (startUs : ℕ) (checkWindows : Bool) :
    ∃ applied, applyOperations content nextClipNumber nextBgmNumber
        [.setTrim clip.id (shownTrim sources clip startUs)] sources checkWindows = .ok applied ∧
      applied.content.clips = content.clips ∧ applied.content.bgm.Perm content.bgm := by
  obtain ⟨position, hposition⟩ := position_of_mem nextClipNumber nextBgmNumber hclip
  obtain ⟨-, front, back, found⟩ := position_ok hposition
  set named := (Batch.start content nextClipNumber nextBgmNumber).refer clip.id true with hnamed
  have hfound : Found named.clips clip.id position clip front back := found
  have hself : { clip with trim := some trim } = clip := by rw [← htrim]
  have hsame : named.replace 0 position (fun other => { other with trim := some trim }) = named :=
    replace_self hfound hself
  have hrun : (Batch.start content nextClipNumber nextBgmNumber).apply 0 sources
      (.setTrim clip.id (shownTrim sources clip startUs)) = .ok named := by
    rw [apply, setTrim, hposition, shownTrim_some htrim]
    simp only [bind, Except.bind, checkTrim_shown hvideo hin hout hlength]
    exact congrArg Except.ok hsame
  exact applyOperations_untouched checkWindows hrun rfl rfl rfl

theorem sourceDuration_of_currentVideo {clip : EditClip} {clipId : Option ClipId} {version : ℕ+}
    {wholeUs : ℕ} (h : currentVideo index clipId sources clip.unitId = .ok (version, wholeUs))
    (startUs : ℕ) :
    (clipView sources clip startUs).1.sourceDuration = some (microsecondsToSeconds wholeUs) := by
  have hview : (clipView sources clip startUs).1.sourceDuration =
      (do
        let media ← sources.unitMedia clip.unitId
        let _ ← media.videoVersion
        return microsecondsToSeconds (← media.videoDurationUs)) := rfl
  unfold currentVideo at h
  split at h
  · rename_i media _ hmedia
    split at h
    · rename_i hversion hduration
      cases h
      rw [hview, hmedia]
      simp [hversion, hduration]
    · cases h
  · cases h

theorem setTrim_whole {clip : EditClip} (hclip : clip ∈ content.clips) {version : ℕ+} {wholeUs : ℕ}
    (hvideo : currentVideo 0 clip.id sources clip.unitId = .ok (version, wholeUs)) {sourceIn : ℚ}
    (hin : 0 ≤ sourceIn)
    (hrest : secondsToMicroseconds sourceIn + minTrimMicroseconds ≤
      min (wholeUs : ℤ) (1000 * shownMillis wholeUs)) :
    ∃ batch, (Batch.start content nextClipNumber nextBgmNumber).apply 0 sources
        (.setTrim clip.id (some ⟨sourceIn, microsecondsToSeconds wholeUs⟩)) = .ok batch ∧
      ∃ trimmed ∈ batch.clips, trimmed.id = clip.id ∧
        ∃ trim ∈ trimmed.trim, trim.outUs ≤ wholeUs := by
  obtain ⟨trim, htrim, hout⟩ := checkTrim_whole hvideo hin hrest
  obtain ⟨position, hposition⟩ := position_of_mem nextClipNumber nextBgmNumber hclip
  obtain ⟨-, front, back, found⟩ := position_ok hposition
  rw [apply, setTrim, hposition]
  simp only [bind, Except.bind, htrim]
  refine ⟨_, rfl, { clip with trim := some trim }, ?_, rfl, trim, rfl, hout⟩
  have hclips : ((Batch.start content nextClipNumber nextBgmNumber).refer clip.id true).clips =
      front ++ clip :: back := found.split
  rw [replace, rewriteClips, hclips, found.position, mapIdx_at]
  exact List.mem_append_right front List.mem_cons_self

end Operations

structure SentBack (view : BgmView) (operation : SetBgm) : Prop where
  clip : operation.clip = view.id
  start : ∀ seconds ∈ operation.start, seconds = view.start
  sourceIn : ∀ seconds ∈ operation.sourceIn, seconds = view.sourceIn
  sourceOut : ∀ seconds ∈ operation.sourceOut, seconds = view.sourceOut
  volume : ∀ volume ∈ operation.volume, volume = view.volume.1
  fadeIn : ∀ seconds ∈ operation.fadeIn, seconds = view.fadeIn
  fadeOut : ∀ seconds ∈ operation.fadeOut, seconds = view.fadeOut

/-- What is sent back is the time of the clip itself: whole milliseconds, a stretch of the file as it
now is, and fades that the placement did not change. -/
structure ShowsOwn (sources : EpisodeSources) (clip : BgmClip) (view : BgmView)
    (operation : SetBgm) : Prop where
  start : operation.start.isSome → WholeMillis clip.startUs
  range : operation.sourceIn.isSome ∨ operation.sourceOut.isSome →
    ∃ media, sources.bgmMedia clip.bgmId = some media ∧ WholeMillis clip.inUs ∧
      KeptEnd media.durationUs clip.outUs ∧
      min minBgmMicroseconds media.durationUs ≤ clip.outUs - clip.inUs
  fadeIn : operation.fadeIn.isSome →
    view.fadeIn = microsecondsToSeconds clip.fadeInUs ∧ WholeMillis clip.fadeInUs
  fadeOut : operation.fadeOut.isSome →
    view.fadeOut = microsecondsToSeconds clip.fadeOutUs ∧ WholeMillis clip.fadeOutUs

theorem orKeep_eq {α β : Type} {given : Option α} {current : β}
    {check : α → Except OperationInvalid β} (h : ∀ value ∈ given, check value = .ok current) :
    orKeep given current check = .ok current := by
  cases given with
  | none => rfl
  | some value => exact h value rfl

theorem orKeep_shown (index : ℕ) (clipId : Option ClipId) (field : String) {given : Option ℚ} {currentUs : ℕ}
    {shown : ℚ} (hgiven : ∀ seconds ∈ given, seconds = shown)
    (hown : given.isSome → shown = microsecondsToSeconds currentUs ∧ WholeMillis currentUs) :
    orKeep given currentUs (checkSeconds index clipId field) = .ok currentUs := by
  refine orKeep_eq fun seconds hseconds => ?_
  obtain ⟨rfl, hwhole⟩ := hown (Option.isSome_of_mem hseconds)
  rw [hgiven seconds hseconds]
  exact checkSeconds_shown hwhole field

theorem checkBgmVolume_own (clipId : Option ClipId) (volume : Volume) :
    checkBgmVolume index clipId volume.1 = .ok volume := by
  unfold checkBgmVolume
  rw [dif_pos volume.2]

section Shown

variable {clip : BgmClip} {placements : List PlacedBgm} {operation : SetBgm}

theorem changedRange_shown (hsent : SentBack (bgmView sources placements clip) operation)
    (hown : ShowsOwn sources clip (bgmView sources placements clip) operation) :
    changedRange index sources operation clip = .ok ⟨clip.inUs, clip.outUs, clip.out_after_in⟩ := by
  unfold changedRange
  split
  · rename_i hgiven
    obtain ⟨media, hmedia, hin, hout, hlength⟩ := hown.range hgiven
    have hsourceIn : operation.sourceIn.getD (microsecondsToSeconds clip.inUs) =
        microsecondsToSeconds clip.inUs := by
      cases hseconds : operation.sourceIn with
      | none => rfl
      | some seconds => exact hsent.sourceIn seconds hseconds
    have hsourceOut : operation.sourceOut.getD (microsecondsToSeconds clip.outUs) =
        microsecondsToSeconds clip.outUs := by
      cases hseconds : operation.sourceOut with
      | none => rfl
      | some seconds => exact hsent.sourceOut seconds hseconds
    rw [hsourceIn, hsourceOut]
    exact checkBgmRange_shown hmedia clip.out_after_in hin hout hlength
  · rfl

theorem changedBgm_shown (hsent : SentBack (bgmView sources placements clip) operation)
    (hown : ShowsOwn sources clip (bgmView sources placements clip) operation) :
    changedBgm index sources operation clip = .ok clip := by
  have hstart := orKeep_shown index operation.clip "start" hsent.start
    fun h => ⟨rfl, hown.start h⟩
  have hvolume : orKeep operation.volume clip.volume (checkBgmVolume index operation.clip) =
      .ok clip.volume := by
    refine orKeep_eq fun volume hvolume => ?_
    rw [hsent.volume volume hvolume]
    exact checkBgmVolume_own operation.clip clip.volume
  have hfadeIn := orKeep_shown index operation.clip "fade_in" hsent.fadeIn hown.fadeIn
  have hfadeOut := orKeep_shown index operation.clip "fade_out" hsent.fadeOut hown.fadeOut
  unfold changedBgm
  simp only [bind, Except.bind, changedRange_shown hsent hown, hstart, hvolume, hfadeIn, hfadeOut]
  rfl

theorem setBgm_shown {content : EditTimelineContent} {nextClipNumber nextBgmNumber : ℕ+}
    (hclip : clip ∈ content.bgm) (hsent : SentBack (bgmView sources placements clip) operation)
    (hown : ShowsOwn sources clip (bgmView sources placements clip) operation)
    (checkWindows : Bool) :
    ∃ applied, applyOperations content nextClipNumber nextBgmNumber [.setBgm operation] sources
        checkWindows = .ok applied ∧
      applied.content.clips = content.clips ∧ applied.content.bgm.Perm content.bgm := by
  obtain ⟨position, hposition⟩ := bgmPosition_of_mem nextClipNumber nextBgmNumber hclip
  have hid : operation.clip = clip.id := hsent.clip
  have hrun : (Batch.start content nextClipNumber nextBgmNumber).apply 0 sources
      (.setBgm operation) =
        .ok ((Batch.start content nextClipNumber nextBgmNumber).refer clip.id true) := by
    rw [apply, setBgm, hid, hposition]
    simp only [bind, Except.bind, changedBgm_shown hsent hown]
    rfl
  exact applyOperations_untouched checkWindows hrun rfl rfl rfl

end Shown

theorem checkBgmRange_ok {clipId : Option ClipId} {bgmId : String} {sourceIn : ℚ}
    {sourceOut : Option ℚ} {range : BgmRange}
    (h : checkBgmRange index clipId sources bgmId sourceIn sourceOut = .ok range) :
    ∃ media, sources.bgmMedia bgmId = some media ∧
      range.inUs = (secondsToMicroseconds sourceIn).toNat ∧
      ∀ out ∈ sourceOut, range.outUs = min (secondsToMicroseconds out).toNat media.durationUs := by
  unfold checkBgmRange at h
  split at h
  · cases h
  · rename_i media hmedia
    dsimp only at h
    split_ifs at h with hrange hlength hlength
    · cases h
      refine ⟨media, hmedia, rfl, fun out hout => ?_⟩
      cases hout
      rfl
    · cases h
    · exact absurd hlength.1 hrange
    · cases h

/-- The fields that an operation does not give stay as they are. One point of a stretch alone is
checked with the other one as it is shown, so that one has to be shown as it is. -/
structure KeepsOmitted (sources : EpisodeSources) (operation : SetBgm) (current updated : BgmClip) :
    Prop where
  number : updated.number = current.number
  bgmId : updated.bgmId = current.bgmId
  start : operation.start = none → updated.startUs = current.startUs
  volume : operation.volume = none → updated.volume = current.volume
  fadeIn : operation.fadeIn = none → updated.fadeInUs = current.fadeInUs
  fadeOut : operation.fadeOut = none → updated.fadeOutUs = current.fadeOutUs
  sourceIn : operation.sourceIn = none →
    operation.sourceOut = none ∨ WholeMillis current.inUs → updated.inUs = current.inUs
  sourceOut : operation.sourceOut = none →
    operation.sourceIn = none ∨ (∀ media ∈ sources.bgmMedia current.bgmId,
      KeptEnd media.durationUs current.outUs) → updated.outUs = current.outUs

theorem orKeep_none {α β : Type} {given : Option α} {current value : β}
    {check : α → Except OperationInvalid β} (h : orKeep given current check = .ok value)
    (hnone : given = none) : value = current := by
  subst hnone
  cases h
  rfl

theorem changedRange_omitted {operation : SetBgm} {current : BgmClip} {range : BgmRange}
    (h : changedRange index sources operation current = .ok range) :
    (operation.sourceIn = none → operation.sourceOut = none ∨ WholeMillis current.inUs →
        range.inUs = current.inUs) ∧
      (operation.sourceOut = none → operation.sourceIn = none ∨
        (∀ media ∈ sources.bgmMedia current.bgmId, KeptEnd media.durationUs current.outUs) →
        range.outUs = current.outUs) := by
  unfold changedRange at h
  split at h
  · rename_i hgiven
    obtain ⟨media, hmedia, hin, hout⟩ := checkBgmRange_ok h
    constructor
    · intro hnone hother
      rw [hnone, Option.isSome_none, Bool.false_eq_true, false_or] at hgiven
      rcases hother with hother | hwhole
      · rw [hother] at hgiven
        cases hgiven
      · rw [hin, hnone, Option.getD_none, secondsToMicroseconds_shown, hwhole.shown,
          Int.toNat_natCast]
    · intro hnone hother
      rw [hnone, Option.isSome_none, Bool.false_eq_true, or_false] at hgiven
      rcases hother with hother | hkept
      · rw [hother] at hgiven
        cases hgiven
      · rw [hout _ rfl, hnone, Option.getD_none]
        exact min_shown_of_keptEnd (hkept media hmedia)
  · cases h
    exact ⟨fun _ _ => rfl, fun _ _ => rfl⟩

theorem changedBgm_omitted {operation : SetBgm} {current updated : BgmClip}
    (h : changedBgm index sources operation current = .ok updated) :
    KeepsOmitted sources operation current updated := by
  simp only [changedBgm, bind_eq_ok] at h
  obtain ⟨range, hrange, start, hstart, volume, hvolume, fadeIn, hfadeIn, fadeOut, hfadeOut, heq⟩ := h
  obtain ⟨hin, hout⟩ := changedRange_omitted hrange
  cases heq
  exact ⟨rfl, rfl, orKeep_none hstart, orKeep_none hvolume, orKeep_none hfadeIn,
    orKeep_none hfadeOut, hin, hout⟩

theorem setBgm_omitted {content : EditTimelineContent} {nextClipNumber nextBgmNumber : ℕ+}
    {operation : SetBgm} {checkWindows : Bool} {applied : AppliedBatch}
    (h : applyOperations content nextClipNumber nextBgmNumber [.setBgm operation] sources
      checkWindows = .ok applied) {clip : BgmClip} (hclip : clip ∈ content.bgm)
    (hid : clip.id = operation.clip) :
    ∃ updated ∈ applied.content.bgm, KeepsOmitted sources operation clip updated := by
  obtain ⟨batch, accepted⟩ := applyOperations_ok h
  have hran := accepted.ran
  obtain ⟨position, hposition⟩ := bgmPosition_of_mem nextClipNumber nextBgmNumber hclip
  obtain ⟨-, front, back, hsplit, hat, -⟩ := bgmPosition_ok hposition
  simp only [applyAll, apply, setBgm, ← hid, hposition, bind_eq_ok] at hran
  obtain ⟨_, ⟨_, hnamed, updated, hupdated, hset⟩, hbatch⟩ := hran
  cases hnamed
  cases hbatch
  refine ⟨updated, ?_, changedBgm_omitted hupdated⟩
  rw [accepted.bgm_eq, List.mem_insertionSort]
  split at hset
  · rename_i hsame
    cases hset
    exact hsame ▸ hclip
  · cases hset
    have hbgm : ((Batch.start content nextClipNumber nextBgmNumber).refer clip.id true).bgm =
        front ++ clip :: back := hsplit
    dsimp only
    rw [hbgm, hat, List.set_append_right _ _ (le_refl _), Nat.sub_self, List.set_cons_zero]
    exact List.mem_append_right front List.mem_cons_self

/-- What the readout shows can be sent back: a trim on the current video and the fields of a BGM clip
that are shown as they are leave everything as it was, `set_bgm` keeps what it is not given, and the
length shown for a video is an out point before its end wherever a tenth of a second is left. -/
theorem readout_sent_back (content : EditTimelineContent) (nextClipNumber nextBgmNumber : ℕ+)
    (sources : EpisodeSources) (checkWindows : Bool) :
    (∀ clip ∈ content.clips, ∀ trim ∈ clip.trim, ∀ wholeUs startUs,
      currentVideo 0 clip.id sources clip.unitId = .ok (trim.basisVersion, wholeUs) →
      WholeMillis trim.inUs → KeptEnd wholeUs trim.outUs →
      minTrimMicroseconds ≤ trim.outUs - trim.inUs →
      ∃ applied, applyOperations content nextClipNumber nextBgmNumber
          [.setTrim clip.id (shownTrim sources clip startUs)] sources checkWindows = .ok applied ∧
        applied.content.clips = content.clips ∧ applied.content.bgm.Perm content.bgm) ∧
    (∀ clip ∈ content.bgm, ∀ placements operation,
      SentBack (bgmView sources placements clip) operation →
      ShowsOwn sources clip (bgmView sources placements clip) operation →
      ∃ applied, applyOperations content nextClipNumber nextBgmNumber [.setBgm operation] sources
          checkWindows = .ok applied ∧
        applied.content.clips = content.clips ∧ applied.content.bgm.Perm content.bgm) ∧
    (∀ clip ∈ content.bgm, ∀ operation applied, clip.id = operation.clip →
      applyOperations content nextClipNumber nextBgmNumber [.setBgm operation] sources
        checkWindows = .ok applied →
      ∃ updated ∈ applied.content.bgm, KeepsOmitted sources operation clip updated) ∧
    ∀ clip ∈ content.clips, ∀ startUs version wholeUs,
      currentVideo 0 clip.id sources clip.unitId = .ok (version, wholeUs) →
      ∃ seconds, (clipView sources clip startUs).1.sourceDuration = some seconds ∧
        ∀ sourceIn, 0 ≤ sourceIn →
          secondsToMicroseconds sourceIn + minTrimMicroseconds ≤
            min (wholeUs : ℤ) (secondsToMicroseconds seconds) →
          ∃ batch, (Batch.start content nextClipNumber nextBgmNumber).apply 0 sources
              (.setTrim clip.id (some ⟨sourceIn, seconds⟩)) = .ok batch ∧
            ∃ trimmed ∈ batch.clips, trimmed.id = clip.id ∧
              ∃ trim ∈ trimmed.trim, trim.outUs ≤ wholeUs := by
  refine ⟨?_, ?_, ?_, ?_⟩
  · intro clip hclip trim htrim wholeUs startUs hvideo hin hout hlength
    exact setTrim_shown hclip htrim hvideo hin hout hlength startUs checkWindows
  · intro clip hclip placements operation hsent hown
    exact setBgm_shown hclip hsent hown checkWindows
  · intro clip hclip operation applied hid happlied
    exact setBgm_omitted happlied hclip hid
  · intro clip hclip startUs version wholeUs hvideo
    refine ⟨microsecondsToSeconds wholeUs, sourceDuration_of_currentVideo hvideo startUs, ?_⟩
    intro sourceIn hin hrest
    rw [secondsToMicroseconds_shown] at hrest
    exact setTrim_whole hclip hvideo hin hrest

/-! Where the readout cannot be sent back: a fade that the end of the film sets, ends of files
between two milliseconds, and a video too short to be trimmed. -/

def unevenSources : EpisodeSources where
  script := sampleScript
  media := [("E1S01", ⟨some 1, some 4000300, none⟩), ("E1S02", ⟨some 1, some 50000, none⟩)]
  ttsNarration := true
  bgm := [("bgm-3f9a0c21", ⟨"雨夜", 30000300, by decide⟩)]

def trimmedClip : EditClip :=
  { number := 1, unitId := "E1S01", sourceVolume := defaultSourceVolumeLevel
    trim := some ⟨0, 4000300, 1, by decide⟩ }

def shortClip : EditClip :=
  { number := Nat.succPNat 1, unitId := "E1S02", sourceVolume := defaultSourceVolumeLevel }

def fadedClip : BgmClip :=
  { number := 1, bgmId := "bgm-3f9a0c21", startUs := 2000000, inUs := 0, outUs := 30000300
    fadeOutUs := 500000, out_after_in := by decide }

def unevenContent : EditTimelineContent where
  clips := [trimmedClip, shortClip]
  bgm := [fadedClip]
  unique_clip_ids := by decide
  unique_bgm_ids := by decide
  one_narration_carrier_per_unit := by decide

theorem exists_ok_of_check {ε α : Type} {x : Except ε α} {p : α → Prop} [DecidablePred p]
    (h : x.toOption.any (fun a => decide (p a)) = true) : ∃ a, x = .ok a ∧ p a := by
  cases x with
  | error error => cases h
  | ok a => exact ⟨a, rfl, of_decide_eq_true h⟩

theorem readout_not_sent_back :
    (∃ applied, applyOperations unevenContent 3 2 [.setBgm {
          clip := .b 1
          fadeOut := (bgmView unevenSources (placeBgm unevenContent.bgm 4050300) fadedClip).fadeOut }]
        unevenSources = .ok applied ∧ fadedClip ∉ applied.content.bgm) ∧
      (∃ applied, applyOperations unevenContent 3 2
          [.setTrim (.c 1) (shownTrim unevenSources trimmedClip 0)] unevenSources = .ok applied ∧
        trimmedClip ∉ applied.content.clips) ∧
      (∃ applied, applyOperations unevenContent 3 2
          [.setBgm { clip := .b 1, sourceIn := some 0 }] unevenSources = .ok applied ∧
        ∀ clip ∈ applied.content.bgm, clip.outUs ≠ fadedClip.outUs) ∧
      ∃ seconds, (clipView unevenSources shortClip 4000300).1.sourceDuration = some seconds ∧
        ¬ (applyOperations unevenContent 3 2 [.setTrim (.c 2) (some ⟨0, seconds⟩)]
          unevenSources).isOk :=
  ⟨exists_ok_of_check (by decide +kernel), exists_ok_of_check (by decide +kernel),
    exists_ok_of_check (by decide +kernel), 1 / 20, by decide +kernel, by decide +kernel⟩

end ShortReel.ReadoutRoundTrip
