import ShortReel.RenderLayout
import ShortReel.TimelinePlacement

/-!
# One timeline, three outputs

The readout, the draft placement and the plan of the final cut walk the track each on their own. On
the same media facts they agree on what plays when, up to what each of them rounds.
-/

namespace ShortReel.TimelineAgreement

open TimelineModel RenderPlan RenderLayout TimelinePlacement

structure BgmInput where
  path : String
  startUs : ℕ
  sourceInUs : ℕ
  durationUs : ℕ
  volume : ℚ
  fadeInUs : ℕ
  fadeOutUs : ℕ
  deriving DecidableEq, Repr

def bgmInput (placed : PlacedBgm) (source : BgmSource) : BgmInput :=
  { path := source.path
    startUs := placed.startUs
    sourceInUs := placed.sourceInUs
    durationUs := placed.durationUs
    volume := placed.volume.1 * source.gain
    fadeInUs := placed.fadeInUs
    fadeOutUs := placed.fadeOutUs }

def filmUs (plan : Plan) : ℕ :=
  ⌊plan.totalFrames * microsecondsPerSecond / plan.profile.fps⌋.toNat

/-- `FinalCutService._bgm`: none where it raises. -/
def finalCutBgm (bgm : List BgmClip) (plan : Plan) (bgmSources : List (String × BgmSource)) :
    Option (List BgmInput) :=
  (placeBgm bgm (filmUs plan)).mapM fun placed =>
    (bgmSources.lookup placed.bgmId).map (bgmInput placed)

section Facts

variable (sources : EpisodeSources) (units : List (String × UnitMaterial))
  (media : List (String × RenderMedia))

def UnitDeleted (unitId : String) : Prop :=
  (sources.unit unitId = none ∨ sources.unitMedia unitId = none) ∧ units.lookup unitId = none ∧
    media.lookup unitId = none

def SameVideo (unitId : String) : Prop :=
  ∃ unit facts material renderMedia, sources.unit unitId = some unit ∧
    sources.unitMedia unitId = some facts ∧ units.lookup unitId = some material ∧
    media.lookup unitId = some renderMedia ∧ facts.videoVersion = some material.videoVersion ∧
    facts.videoDurationUs = some material.videoDurationUs ∧
    renderMedia.videoVersion = material.videoVersion ∧
    renderMedia.durationUs = material.videoDurationUs

def ConsistentUnits (clips : List EditClip) : Prop :=
  ∀ clip ∈ clips, UnitDeleted sources units media clip.unitId ∨
    SameVideo sources units media clip.unitId

def BgmPresent (bgm : List BgmClip) (bgmSources : List (String × BgmSource)) : Prop :=
  ∀ clip ∈ bgm, ∃ source, bgmSources.lookup clip.bgmId = some source

end Facts

structure TrackClip where
  id : ClipId
  startUs : ℕ
  durationUs : ℕ
  deriving DecidableEq, Repr

def placedTrack (clips : List PlacedClip) : List TrackClip :=
  clips.map fun placed => ⟨placed.clipId, placed.startUs, placed.sourceDurationUs + placed.holdUs⟩

def renderTrack : (cursorUs : ℕ) → List RenderClip → List TrackClip
  | _, [] => []
  | cursorUs, clip :: clips =>
      ⟨clip.clipId, cursorUs, clip.durationUs⟩ :: renderTrack (cursorUs + clip.durationUs) clips

def trackLength (track : List TrackClip) : ℕ :=
  (track.map (·.durationUs)).sum

def Shows (view : ClipView) (clip : TrackClip) : Prop :=
  view.id = clip.id ∧ view.start = microsecondsToSeconds clip.startUs ∧
    view.duration = microsecondsToSeconds clip.durationUs

def frameBounds (profile : OutputProfile) (clip : TrackClip) : ClipId × ℤ × ℤ :=
  (clip.id, profile.frameAt clip.startUs, profile.frameAt (clip.startUs + clip.durationUs))

def plannedBounds (planned : PlannedClip) : ClipId × ℤ × ℤ :=
  (planned.clip.clipId, planned.startFrame, planned.endFrame)

/-- When a BGM clip sounds: start, position in the source, length and fades. -/
def soundOf (placed : PlacedBgm) : ℕ × ℕ × ℕ × ℕ × ℕ :=
  (placed.startUs, placed.sourceInUs, placed.durationUs, placed.fadeInUs, placed.fadeOutUs)

section Track

variable {sources : EpisodeSources} {units : List (String × UnitMaterial)}
  {media : List (String × RenderMedia)}

theorem placedTrack_endAtLastClip (clips : List PlacedClip) :
    placedTrack (endAtLastClip clips) = placedTrack clips := by
  fun_induction endAtLastClip clips with
  | case1 => rfl
  | case2 => rfl
  | case3 clip clips hclips ih =>
      unfold placedTrack at *
      rw [List.map_cons, ih, List.map_cons]

theorem durationUs_placeFrom {cursorUs : ℕ} {clips : List EditClip} :
    (placeFrom units cursorUs clips).durationUs =
      cursorUs + trackLength (placedTrack (placeFrom units cursorUs clips).clips) := by
  induction clips generalizing cursorUs with
  | nil => rfl
  | cons clip clips ih =>
      unfold placeFrom
      split
      · exact ih
      · rename_i unit hunit
        dsimp only
        rw [ih]
        simp only [placedTrack, trackLength, List.map_cons, List.sum_cons]
        omega

theorem sameVideo_clip {clip : EditClip} (cursorUs : ℕ)
    (h : SameVideo sources units media clip.unitId) :
    ∃ material renderMedia, units.lookup clip.unitId = some material ∧
      media.lookup clip.unitId = some renderMedia ∧
      (clipStatus sources clip).1 = .ready ∧
      (clipStatus sources clip).2 = (renderClip clip renderMedia).durationUs ∧
      (placedClip clip material cursorUs).sourceDurationUs + clip.holdUs =
        (renderClip clip renderMedia).durationUs := by
  obtain ⟨unit, facts, material, renderMedia, hunit, hfacts, hmaterial, hrender, hversion, hduration,
    hrenderVersion, hrenderDuration⟩ := h
  refine ⟨material, renderMedia, hmaterial, hrender, ?_, ?_, ?_⟩
  · simp [clipStatus, hunit, hfacts, hversion]
  · simp [clipStatus, hunit, hfacts, clipSourceDurationUs, hversion, hduration, renderClip,
      RenderClip.durationUs, hrenderVersion, hrenderDuration]
  · simp [placedClip, renderClip, RenderClip.durationUs, hrenderVersion, hrenderDuration]

theorem renderTrack_eq {clips : List EditClip} (cursorUs : ℕ)
    (h : ConsistentUnits sources units media clips) :
    renderTrack cursorUs (renderClips clips media) =
      placedTrack (placeFrom units cursorUs clips).clips := by
  induction clips generalizing cursorUs with
  | nil => rfl
  | cons clip clips ih =>
      have hclips : ConsistentUnits sources units media clips :=
        fun other hother => h other (List.mem_cons_of_mem _ hother)
      unfold placeFrom renderClips
      rcases h clip List.mem_cons_self with ⟨-, hunit, hmedia⟩ | hsame
      · rw [List.filterMap_cons, hunit, hmedia]
        exact ih cursorUs hclips
      · obtain ⟨material, renderMedia, hunit, hmedia, -, -, hduration⟩ :=
          sameVideo_clip cursorUs hsame
        rw [List.filterMap_cons, hunit, hmedia]
        have hhold : (placedClip clip material cursorUs).holdUs = clip.holdUs := rfl
        dsimp only [Option.map_some]
        rw [renderTrack, placedTrack, List.map_cons, hhold, hduration]
        exact congrArg _ (ih _ hclips)

theorem clipViews_eq {clips : List EditClip} (cursorUs : ℕ)
    (h : ConsistentUnits sources units media clips) :
    (clipViewsFrom sources cursorUs clips).2 = (placeFrom units cursorUs clips).durationUs ∧
      List.Forall₂ Shows
        ((clipViewsFrom sources cursorUs clips).1.filter (·.status ≠ .unitDeleted))
        (placedTrack (placeFrom units cursorUs clips).clips) := by
  induction clips generalizing cursorUs with
  | nil => exact ⟨rfl, .nil⟩
  | cons clip clips ih =>
      have hclips : ConsistentUnits sources units media clips :=
        fun other hother => h other (List.mem_cons_of_mem _ hother)
      unfold placeFrom clipViewsFrom
      rcases h clip List.mem_cons_self with ⟨hdeleted, hunit, -⟩ | hsame
      · have hstatus : clipStatus sources clip = (.unitDeleted, 0) := by
          rcases hdeleted with hnone | hnone <;> simp [clipStatus, hnone]
        rw [hunit]
        simpa [clipView, hstatus] using ih cursorUs hclips
      · obtain ⟨material, renderMedia, hunit, -, hstatus, hlength, hduration⟩ :=
          sameVideo_clip cursorUs hsame
        rw [hunit]
        have hhold : (placedClip clip material cursorUs).holdUs = clip.holdUs := rfl
        have hviewed : (clipView sources clip cursorUs).2 = (renderClip clip renderMedia).durationUs :=
          hlength
        have hready : (clipView sources clip cursorUs).1.status = .ready := hstatus
        have hshows : Shows (clipView sources clip cursorUs).1
            ⟨clip.id, cursorUs, (clipView sources clip cursorUs).2⟩ := ⟨rfl, rfl, rfl⟩
        obtain ⟨htotal, hviews⟩ :=
          ih (cursorUs + (renderClip clip renderMedia).durationUs) hclips
        dsimp only
        rw [hhold, hduration, hviewed, List.filter_cons_of_pos (by simp [hready])]
        refine ⟨htotal, ?_⟩
        rw [placedTrack, List.map_cons, hhold, hduration]
        exact .cons (hviewed ▸ hshows) hviews

theorem clipViews_ids {clips : List EditClip} {cursorUs : ℕ} :
    (clipViewsFrom sources cursorUs clips).1.map (·.id) = clips.map (·.id) := by
  induction clips generalizing cursorUs with
  | nil => rfl
  | cons clip clips ih =>
      unfold clipViewsFrom
      exact congrArg (clip.id :: ·) ih

theorem microsecondsToSeconds_zero : microsecondsToSeconds 0 = 0 := by
  norm_num [microsecondsToSeconds, roundMillis, roundHalfEven]

theorem clipViews_deleted {clips : List EditClip} {cursorUs : ℕ} {view : ClipView}
    (hview : view ∈ (clipViewsFrom sources cursorUs clips).1) (hstatus : view.status = .unitDeleted) :
    view.duration = 0 := by
  induction clips generalizing cursorUs with
  | nil => cases hview
  | cons clip clips ih =>
      unfold clipViewsFrom at hview
      rcases List.mem_cons.mp hview with rfl | hview
      · change (clipStatus sources clip).1 = .unitDeleted at hstatus
        change microsecondsToSeconds (clipStatus sources clip).2 = 0
        unfold clipStatus at *
        split at hstatus
        · rename_i unit facts _ _
          cases hversion : facts.videoVersion <;> simp [hversion] at hstatus
        · exact microsecondsToSeconds_zero
      · exact ih hview

end Track

section Plans

variable {profile : OutputProfile}

theorem layOutFrom_bounds {clips : List RenderClip} {cursorUs : ℕ} :
    (layOutFrom profile cursorUs clips).1.map plannedBounds =
      ((renderTrack cursorUs clips).map (frameBounds profile)).filter fun bounds =>
        bounds.2.1 < bounds.2.2 := by
  induction clips generalizing cursorUs with
  | nil => rfl
  | cons clip clips ih =>
      rw [renderTrack, List.map_cons]
      by_cases hshown : Shown profile cursorUs clip
      · obtain ⟨item, hclip, hstart, hend, hlayout⟩ := layOutFrom_of_shown profile clips hshown
        rw [hlayout, List.map_cons, ih, List.filter_cons, if_pos (by exact decide_eq_true hshown),
          plannedBounds, hclip, hstart, hend, frameBounds]
      · rw [layOutFrom_of_not_shown profile clips hshown, ih,
          List.filter_cons, if_neg (fun h => hshown (by exact of_decide_eq_true h))]

theorem layOutFrom_total (clips : List RenderClip) (cursorUs : ℕ) :
    (layOutFrom profile cursorUs clips).2 =
      profile.frameAt (cursorUs + trackLength (renderTrack cursorUs clips)) := by
  induction clips generalizing cursorUs with
  | nil => rfl
  | cons clip clips ih =>
      have hlength : cursorUs + trackLength (renderTrack cursorUs (clip :: clips)) =
          cursorUs + clip.durationUs +
            trackLength (renderTrack (cursorUs + clip.durationUs) clips) := by
        simp only [renderTrack, trackLength, List.map_cons, List.sum_cons]
        omega
      rw [hlength, ← ih, layOutFrom]
      split <;> rfl

theorem planned_bounds (clips : List RenderClip) :
    (planRender profile clips).clips.map plannedBounds =
      ((renderTrack 0 clips).map (frameBounds profile)).filter fun bounds =>
        bounds.2.1 < bounds.2.2 := by
  rw [← layOutFrom_bounds, eq_comm, ← List.forall₂_eq_eq_eq, List.forall₂_map_left_iff,
    List.forall₂_map_right_iff]
  refine (planRender_clips profile clips).imp fun first second hsame => ?_
  obtain ⟨hclip, hstart, hframes⟩ := hsame
  simp only [plannedBounds, PlannedClip.endFrame, hclip, hstart, hframes]

theorem planned_total (clips : List RenderClip) :
    (planRender profile clips).totalFrames =
      profile.frameAt (trackLength (renderTrack 0 clips)) := by
  change (layOutFrom profile 0 clips).2 = _
  rw [layOutFrom_total, zero_add]

theorem abs_filmUs_sub_lt {plan : Plan} {totalUs : ℕ}
    (h : plan.totalFrames = plan.profile.frameAt totalUs) :
    |(filmUs plan : ℚ) - totalUs| < 500000 / plan.profile.fps + 1 := by
  set fps := plan.profile.fps with hfpsEq
  have hfps : 0 < fps := plan.profile.fps_pos
  have hround : |(plan.totalFrames : ℚ) - totalUs * fps / microsecondsPerSecond| ≤ 1 / 2 := by
    rw [h]
    exact abs_roundHalfEven_sub_le _
  have hnonneg : 0 ≤ plan.totalFrames := by
    have hzero : plan.profile.frameAt 0 = 0 := by
      norm_num [OutputProfile.frameAt, roundHalfEven]
    rw [h, ← hzero]
    exact frameAt_mono plan.profile (Nat.zero_le _)
  set film : ℚ := plan.totalFrames * microsecondsPerSecond / fps with hfilm
  have hfloor : (filmUs plan : ℚ) = ⌊film⌋ := by
    have hpos : 0 ≤ ⌊film⌋ := Int.floor_nonneg.mpr (by positivity)
    rw [filmUs, ← hfpsEq, ← hfilm]
    exact_mod_cast Int.toNat_of_nonneg hpos
  have hclose : |film - totalUs| ≤ 500000 / fps := by
    have hscale : film - totalUs =
        (plan.totalFrames - totalUs * fps / microsecondsPerSecond) * (1000000 / fps) := by
      rw [hfilm, microsecondsPerSecond]
      field_simp
      push_cast
      ring
    rw [hscale, abs_mul, abs_of_pos (by positivity : (0 : ℚ) < 1000000 / fps)]
    calc _ ≤ 1 / 2 * (1000000 / fps) := by gcongr
      _ = 500000 / fps := by ring
  have hlow : (⌊film⌋ : ℚ) ≤ film := Int.floor_le film
  have hhigh : film < ⌊film⌋ + 1 := Int.lt_floor_add_one film
  rw [hfloor, abs_lt]
  rw [abs_le] at hclose
  constructor <;> linarith

end Plans

/-- The view of a BGM clip shows where it sounds on a timeline of that length, or that it ends where
it starts. -/
def ShowsBgm (totalUs : ℕ) (view : BgmView) (clip : BgmClip) : Prop :=
  view.id = clip.id ∧ view.start = microsecondsToSeconds clip.startUs ∧
    match placeBgmClip totalUs clip with
    | some placed =>
        view.stop = microsecondsToSeconds placed.endUs ∧
          view.fadeIn = microsecondsToSeconds placed.fadeInUs ∧
          view.fadeOut = microsecondsToSeconds placed.fadeOutUs
    | none =>
        view.stop = view.start ∧ view.fadeIn = microsecondsToSeconds clip.fadeInUs ∧
          view.fadeOut = microsecondsToSeconds clip.fadeOutUs

section Bgm

variable {bgm : List BgmClip} {totalUs : ℕ}

theorem placeBgmClip_some {clip : BgmClip} {placed : PlacedBgm}
    (h : placeBgmClip totalUs clip = some placed) :
    placed.clipId = clip.id ∧ placed.bgmId = clip.bgmId := by
  unfold placeBgmClip at h
  dsimp only at h
  split at h
  · cases h
  · cases h
    exact ⟨rfl, rfl⟩

theorem placeBgmClip_uncut {clip : BgmClip}
    (h : clip.startUs + bgmClipLengthUs clip ≤ totalUs) :
    placeBgmClip totalUs clip = placeBgmClip (clip.startUs + bgmClipLengthUs clip) clip := by
  simp only [placeBgmClip, min_eq_left h, min_self]

theorem mem_bgmByStart {clip : BgmClip} : clip ∈ bgmByStart bgm ↔ clip ∈ bgm :=
  List.mem_insertionSort _

theorem exists_of_mem_placeBgm {placed : PlacedBgm} (h : placed ∈ placeBgm bgm totalUs) :
    ∃ clip ∈ bgm, placeBgmClip totalUs clip = some placed := by
  obtain ⟨clip, hclip, hplaced⟩ := List.mem_filterMap.mp h
  exact ⟨clip, mem_bgmByStart.mp hclip, hplaced⟩

theorem find?_placeBgm (totalUs : ℕ) (hnodup : (bgm.map (·.id)).Nodup) {clip : BgmClip} (hclip : clip ∈ bgm) :
    (placeBgm bgm totalUs).find? (fun placed => placed.clipId = clip.id) =
      placeBgmClip totalUs clip := by
  cases hplaced : placeBgmClip totalUs clip with
  | none =>
      rw [List.find?_eq_none]
      intro placed hmem heq
      obtain ⟨other, hother, hotherPlaced⟩ := exists_of_mem_placeBgm hmem
      have hid : other.id = clip.id := by
        rw [← (placeBgmClip_some hotherPlaced).1]
        exact of_decide_eq_true heq
      rw [List.inj_on_of_nodup_map hnodup hother hclip hid, hplaced] at hotherPlaced
      cases hotherPlaced
  | some placed =>
      have hmem : placed ∈ placeBgm bgm totalUs :=
        List.mem_filterMap.mpr ⟨clip, mem_bgmByStart.mpr hclip, hplaced⟩
      obtain ⟨found, hfound⟩ : ∃ found, (placeBgm bgm totalUs).find?
          (fun placed => placed.clipId = clip.id) = some found := by
        rw [← Option.isSome_iff_exists, List.find?_isSome]
        exact ⟨placed, hmem, decide_eq_true (placeBgmClip_some hplaced).1⟩
      obtain ⟨other, hother, hotherPlaced⟩ := exists_of_mem_placeBgm (List.mem_of_find?_eq_some hfound)
      have hid : other.id = clip.id := by
        rw [← (placeBgmClip_some hotherPlaced).1]
        simpa using List.find?_some hfound
      rw [List.inj_on_of_nodup_map hnodup hother hclip hid, hplaced] at hotherPlaced
      rw [hfound, hotherPlaced]

theorem bgmView_shows {sources : EpisodeSources} (hnodup : (bgm.map (·.id)).Nodup) {clip : BgmClip}
    (hclip : clip ∈ bgm) : ShowsBgm totalUs (bgmView sources (placeBgm bgm totalUs) clip) clip := by
  have hfind := find?_placeBgm totalUs hnodup hclip
  refine ⟨rfl, rfl, ?_⟩
  cases hplaced : placeBgmClip totalUs clip with
  | none => simp [bgmView, hfind, hplaced]
  | some placed => simp [bgmView, hfind, hplaced]

theorem exists_source {bgmSources : List (String × BgmSource)} (h : BgmPresent bgm bgmSources)
    {placed : PlacedBgm} (hplaced : placed ∈ placeBgm bgm totalUs) :
    ∃ source, bgmSources.lookup placed.bgmId = some source := by
  obtain ⟨clip, hclip, hclipPlaced⟩ := exists_of_mem_placeBgm hplaced
  rw [(placeBgmClip_some hclipPlaced).2]
  exact h clip hclip

theorem mapM_bgmInput {bgmSources : List (String × BgmSource)} {placements : List PlacedBgm}
    (h : ∀ placed ∈ placements, ∃ source, bgmSources.lookup placed.bgmId = some source) :
    ∃ inputs, (placements.mapM fun placed =>
        (bgmSources.lookup placed.bgmId).map (bgmInput placed)) = some inputs ∧
      inputs.map (fun input => (input.startUs, input.sourceInUs, input.durationUs, input.fadeInUs,
        input.fadeOutUs)) = placements.map soundOf := by
  induction placements with
  | nil => exact ⟨[], rfl, rfl⟩
  | cons placed placements ih =>
      obtain ⟨source, hsource⟩ := h placed List.mem_cons_self
      obtain ⟨inputs, hinputs, hsounds⟩ := ih fun other hother => h other (List.mem_cons_of_mem _ hother)
      refine ⟨bgmInput placed source :: inputs, ?_, ?_⟩
      · simp [List.mapM_cons, hsource, hinputs]
      · rw [List.map_cons, List.map_cons, hsounds]
        rfl

theorem filterMap_bgmAudio {bgmSources : List (String × BgmSource)} {placements : List PlacedBgm}
    (h : ∀ placed ∈ placements, ∃ source, bgmSources.lookup placed.bgmId = some source) :
    (placements.filterMap fun placed =>
        (bgmSources.lookup placed.bgmId).map (bgmAudio placed)).map
      (fun audio => (audio.clipId, audio.startUs, audio.sourceInUs, audio.durationUs,
        audio.fadeInUs, audio.fadeOutUs)) =
      placements.map fun placed => (placed.clipId, soundOf placed) := by
  induction placements with
  | nil => rfl
  | cons placed placements ih =>
      obtain ⟨source, hsource⟩ := h placed List.mem_cons_self
      rw [List.filterMap_cons, hsource, List.map_cons]
      exact congrArg _ (ih fun other hother => h other (List.mem_cons_of_mem _ hother))

end Bgm

/-- How the readout, the draft placement, the render clips, the plan and the BGM of the final cut
show one content. -/
structure OutputsAgree (content : EditTimelineContent) (readout : EditTimelineReadout)
    (placement : DraftPlacement) (clips : List RenderClip) (plan : Plan)
    (bgmInputs : Option (List BgmInput)) : Prop where
  every_clip_listed : readout.clips.map (·.id) = content.clips.map (·.id)
  deleted_take_no_time : ∀ view ∈ readout.clips, view.status = .unitDeleted → view.duration = 0
  clips_shown : List.Forall₂ Shows (readout.clips.filter (·.status ≠ .unitDeleted))
    (placedTrack placement.clips)
  clips_rendered : renderTrack 0 clips = placedTrack placement.clips
  clips_planned : plan.clips.map plannedBounds =
    ((placedTrack placement.clips).map (frameBounds plan.profile)).filter fun bounds =>
      bounds.2.1 < bounds.2.2
  total_placed : placement.durationUs = trackLength (placedTrack placement.clips)
  total_shown : readout.duration = microsecondsToSeconds placement.durationUs
  total_planned : plan.totalFrames = plan.profile.frameAt placement.durationUs
  bgm_shown : List.Forall₂ (ShowsBgm placement.durationUs) readout.bgm (bgmByStart content.bgm)
  bgm_placed : placement.bgm.map (fun audio => (audio.clipId, audio.startUs, audio.sourceInUs,
      audio.durationUs, audio.fadeInUs, audio.fadeOutUs)) =
    (placeBgm content.bgm placement.durationUs).map fun placed => (placed.clipId, soundOf placed)
  bgm_rendered : ∃ inputs, bgmInputs = some inputs ∧
    inputs.map (fun input => (input.startUs, input.sourceInUs, input.durationUs, input.fadeInUs,
      input.fadeOutUs)) = (placeBgm content.bgm (filmUs plan)).map soundOf
  film_close : |(filmUs plan : ℚ) - placement.durationUs| < 500000 / plan.profile.fps + 1
  bgm_uncut : ∀ clip ∈ content.bgm,
    clip.startUs + bgmClipLengthUs clip ≤ min placement.durationUs (filmUs plan) →
      placeBgmClip (filmUs plan) clip = placeBgmClip placement.durationUs clip

/-- On the same media facts the three outputs agree, up to the milliseconds of the readout and the
frames of the film. -/
theorem outputs_agree (document : EditTimelineDocument) (revision : TimelineRevision)
    (sources : EpisodeSources) (units : List (String × UnitMaterial))
    (media : List (String × RenderMedia)) (bgmSources : List (String × BgmSource))
    (profile : OutputProfile)
    (hunits : ConsistentUnits sources units media revision.content.clips)
    (hbgm : BgmPresent revision.content.bgm bgmSources) :
    OutputsAgree revision.content (projectReadout sources document revision)
      (placeTimeline revision.content units bgmSources)
      (renderClips revision.content.clips media)
      (planRender profile (renderClips revision.content.clips media))
      (finalCutBgm revision.content.bgm
        (planRender profile (renderClips revision.content.clips media)) bgmSources) := by
  set track := placeFrom units 0 revision.content.clips with htrack
  set plan := planRender profile (renderClips revision.content.clips media) with hplan
  obtain ⟨htotal, hshown⟩ := clipViews_eq 0 hunits
  have hrendered := renderTrack_eq 0 hunits
  have hplaced : placedTrack (placeTimeline revision.content units bgmSources).clips =
      placedTrack track.clips := placedTrack_endAtLastClip track.clips
  have hduration : (placeTimeline revision.content units bgmSources).durationUs =
      track.durationUs := rfl
  have hlength : track.durationUs = trackLength (placedTrack track.clips) := by
    rw [htrack, durationUs_placeFrom, zero_add]
  have hframes : plan.totalFrames = plan.profile.frameAt track.durationUs := by
    rw [hlength, ← hrendered]
    exact planned_total _
  refine
    { every_clip_listed := clipViews_ids
      deleted_take_no_time := fun view hview => clipViews_deleted hview
      clips_shown := hplaced ▸ hshown
      clips_rendered := hplaced ▸ hrendered
      clips_planned := ?_
      total_placed := hplaced ▸ hlength
      total_shown := congrArg microsecondsToSeconds htotal
      total_planned := hframes
      bgm_shown := ?_
      bgm_placed := filterMap_bgmAudio fun placed => exists_source hbgm
      bgm_rendered := mapM_bgmInput fun placed => exists_source hbgm
      film_close := abs_filmUs_sub_lt hframes
      bgm_uncut := ?_ }
  · rw [hplaced, ← hrendered]
    exact planned_bounds _
  · change List.Forall₂ _ ((bgmByStart _).map _) _
    rw [List.forall₂_map_left_iff, List.forall₂_same]
    intro clip hclip
    rw [htotal]
    exact bgmView_shows revision.content.unique_bgm_ids (mem_bgmByStart.mp hclip)
  · intro clip _ hnatural
    rw [placeBgmClip_uncut (hnatural.trans (min_le_right _ _)),
      placeBgmClip_uncut (hnatural.trans (min_le_left _ _))]

/-! A track of 1.01 seconds, with a clip of a deleted unit: the film has 30 frames, one second. -/

section

local instance neZeroTwo : NeZero 2 := ⟨Nat.succ_ne_zero 1⟩

def halfFrameContent : EditTimelineContent where
  clips :=
    [{ number := 1, unitId := "E1S01", sourceVolume := defaultSourceVolumeLevel },
      { number := 2, unitId := "E1S02", sourceVolume := defaultSourceVolumeLevel }]
  bgm :=
    [{ number := 1, bgmId := "BGM1", startUs := 0, inUs := 0, outUs := 5000000, out_after_in := by decide }]
  unique_clip_ids := by decide
  unique_bgm_ids := by decide
  one_narration_carrier_per_unit := by decide

def halfFrameRevision : TimelineRevision where
  number := 1
  author := ⟨.creator, none⟩
  summary := "created"
  createdAt := "2026-01-01T00:00:00Z"
  content := halfFrameContent

def halfFrameDocument : EditTimelineDocument where
  id := "tl1"
  episode := 1
  name := "main"
  createdAt := "2026-01-01T00:00:00Z"
  nextClipNumber := 3
  nextBgmNumber := 2
  revisions := [halfFrameRevision]
  chain := ⟨by decide, by decide, by decide, by decide⟩

end

def halfFrameSources : EpisodeSources where
  script := ⟨1, "segments", [⟨"E1S01", some .silent, 1000000, ""⟩]⟩
  media := [("E1S01", ⟨some 1, some 1010000, none⟩)]
  ttsNarration := false
  bgm := [("BGM1", ⟨"theme", 5000000, by decide⟩)]

def halfFrameUnits : List (String × UnitMaterial) :=
  [("E1S01", { unitId := "E1S01", videoPath := "videos/E1S01.mp4", videoVersion := 1
               videoDurationUs := 1010000, sourceGain := 1, subtitles := [] })]

def halfFrameMedia : List (String × RenderMedia) :=
  [("E1S01", ⟨"videos/E1S01.mp4", 1, 1010000, true⟩)]

def halfFrameBgm : List (String × BgmSource) :=
  [("BGM1", ⟨"BGM1", "bgm/BGM1.mp3", "sha256", 1⟩)]

theorem halfFrame_fps_pos : (0 : ℚ) < 30 := by
  norm_num

def halfFrameProfile : OutputProfile :=
  ⟨1920, 1080, 30, halfFrame_fps_pos⟩

theorem halfFrame_consistent :
    ConsistentUnits halfFrameSources halfFrameUnits halfFrameMedia halfFrameContent.clips ∧
      BgmPresent halfFrameContent.bgm halfFrameBgm := by
  constructor
  · intro clip hclip
    simp only [halfFrameContent, List.mem_cons, List.not_mem_nil, or_false] at hclip
    rcases hclip with rfl | rfl
    · exact Or.inr ⟨_, _, _, _, rfl, rfl, rfl, rfl, rfl, rfl, rfl, rfl⟩
    · exact Or.inl ⟨Or.inl rfl, rfl, rfl⟩
  · intro clip hclip
    rw [List.mem_singleton.mp hclip]
    exact ⟨_, rfl⟩

theorem outputs_agree_sample :
    OutputsAgree halfFrameContent (projectReadout halfFrameSources halfFrameDocument halfFrameRevision)
      (placeTimeline halfFrameContent halfFrameUnits halfFrameBgm)
      (renderClips halfFrameContent.clips halfFrameMedia)
      (planRender halfFrameProfile (renderClips halfFrameContent.clips halfFrameMedia))
      (finalCutBgm halfFrameContent.bgm
        (planRender halfFrameProfile (renderClips halfFrameContent.clips halfFrameMedia)) halfFrameBgm) :=
  outputs_agree halfFrameDocument halfFrameRevision halfFrameSources halfFrameUnits halfFrameMedia
    halfFrameBgm halfFrameProfile halfFrame_consistent.1 halfFrame_consistent.2

/-- On consistent facts the readout lists a clip more than the draft, and the film is shorter than
the timeline. -/
theorem outputs_differ :
    ConsistentUnits halfFrameSources halfFrameUnits halfFrameMedia halfFrameContent.clips ∧
      BgmPresent halfFrameContent.bgm halfFrameBgm ∧
      (projectReadout halfFrameSources halfFrameDocument halfFrameRevision).clips.map (·.id) ≠
        (placeTimeline halfFrameContent halfFrameUnits halfFrameBgm).clips.map (·.clipId) ∧
      filmUs (planRender halfFrameProfile (renderClips halfFrameContent.clips halfFrameMedia)) ≠
        (placeTimeline halfFrameContent halfFrameUnits halfFrameBgm).durationUs ∧
      placeBgm halfFrameContent.bgm
          (filmUs (planRender halfFrameProfile (renderClips halfFrameContent.clips halfFrameMedia))) ≠
        placeBgm halfFrameContent.bgm
          (placeTimeline halfFrameContent halfFrameUnits halfFrameBgm).durationUs :=
  ⟨halfFrame_consistent.1, halfFrame_consistent.2, by decide +kernel, by decide +kernel,
    by decide +kernel⟩

end ShortReel.TimelineAgreement
