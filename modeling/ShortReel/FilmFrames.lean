import ShortReel.TimelineAgreement

/-!
# The frames of a film

A plan lays the clips of a track one behind the other, from frame zero to the last frame of the
film. Each boundary is rounded from the time on the track, so none of them drifts.
-/

namespace ShortReel.FilmFrames

open TimelineModel RenderPlan RenderLayout TimelineAgreement

section Film

variable (profile : OutputProfile)

def exactFrame (microseconds : ℕ) : ℚ :=
  microseconds * profile.fps / microsecondsPerSecond

theorem abs_frameAt_sub_le (microseconds : ℕ) :
    |(profile.frameAt microseconds : ℚ) - exactFrame profile microseconds| ≤ 1 / 2 :=
  abs_roundHalfEven_sub_le _

theorem frameAt_zero : profile.frameAt 0 = 0 := by
  norm_num [OutputProfile.frameAt, roundHalfEven]

def FillsFrame (clip : TrackClip) : Prop :=
  profile.frameAt clip.startUs < profile.frameAt (clip.startUs + clip.durationUs)

instance (clip : TrackClip) : Decidable (FillsFrame profile clip) :=
  inferInstanceAs (Decidable (_ < _))

structure NearestFrames (clip : TrackClip) (planned : PlannedClip) : Prop where
  id_eq : planned.clip.clipId = clip.id
  start_near : |(planned.startFrame : ℚ) - exactFrame profile clip.startUs| ≤ 1 / 2
  end_near :
    |(planned.endFrame : ℚ) - exactFrame profile (clip.startUs + clip.durationUs)| ≤ 1 / 2

theorem nearestFrames_of_bounds {clip : TrackClip} {planned : PlannedClip}
    (h : frameBounds profile clip = plannedBounds planned) : NearestFrames profile clip planned := by
  unfold frameBounds plannedBounds at h
  simp only [Prod.mk.injEq] at h
  obtain ⟨hid, hstart, hend⟩ := h
  refine ⟨hid.symm, ?_, ?_⟩
  · rw [← hstart]
    exact abs_frameAt_sub_le profile _
  · rw [← hend]
    exact abs_frameAt_sub_le profile _

theorem nearestFrames_planRender (clips : List RenderClip) :
    List.Forall₂ (NearestFrames profile) ((renderTrack 0 clips).filter (FillsFrame profile ·))
      (planRender profile clips).clips := by
  have hbounds : ((renderTrack 0 clips).filter (FillsFrame profile ·)).map (frameBounds profile) =
      (planRender profile clips).clips.map plannedBounds := by
    rw [planned_bounds, List.filter_map]
    rfl
  rw [← List.forall₂_eq_eq_eq, List.forall₂_map_left_iff, List.forall₂_map_right_iff] at hbounds
  exact hbounds.imp fun clip planned => nearestFrames_of_bounds profile

theorem layOutFrom_snd (startUs : ℕ) (clip : RenderClip) (clips : List RenderClip) :
    (layOutFrom profile startUs (clip :: clips)).2 =
      (layOutFrom profile (startUs + clip.durationUs) clips).2 := by
  rw [layOutFrom]
  split <;> rfl

theorem sum_layOutFrom (clips : List RenderClip) (startUs : ℕ) :
    profile.frameAt startUs + ((layOutFrom profile startUs clips).1.map (·.frames)).sum =
      (layOutFrom profile startUs clips).2 := by
  induction clips generalizing startUs with
  | nil => exact add_zero _
  | cons clip clips ih =>
      have hrest := ih (startUs + clip.durationUs)
      rw [layOutFrom_snd, ← hrest]
      by_cases hshown : Shown profile startUs clip
      · obtain ⟨item, -, hstart, hend, hlayout⟩ := layOutFrom_of_shown profile clips hshown
        have hitem : item.endFrame = item.startFrame + item.frames := rfl
        rw [hlayout, List.map_cons, List.sum_cons]
        omega
      · rw [layOutFrom_of_not_shown profile clips hshown, frameAt_of_not_shown profile hshown]

theorem sum_frames_congr {planned joined : List PlannedClip}
    (h : List.Forall₂ SameFrames planned joined) :
    (planned.map (·.frames)).sum = (joined.map (·.frames)).sum := by
  induction h with
  | nil => rfl
  | cons hitem _ ih => rw [List.map_cons, List.map_cons, List.sum_cons, List.sum_cons, ih, hitem.2.2]

theorem sum_clips (clips : List RenderClip) :
    ((planRender profile clips).clips.map (·.frames)).sum =
      (planRender profile clips).totalFrames := by
  have hsum := sum_layOutFrom profile clips 0
  rw [frameAt_zero, zero_add] at hsum
  rw [← sum_frames_congr (planRender_clips profile clips)]
  exact hsum

theorem sum_segments (plan : Plan) :
    (plan.segments.map (·.frames)).sum = (plan.clips.map (·.frames)).sum := by
  unfold Plan.clips
  induction plan.segments with
  | nil => rfl
  | cons segment segments ih =>
      rw [List.map_cons, List.sum_cons, ih, List.flatMap_cons, List.map_append, List.sum_append]
      rfl

/-- Clips are laid out without a gap from frame zero to the end of the film, segments fill it, and
every boundary stays within half a frame of its time. -/
theorem planRender_frames (clips : List RenderClip) :
    Contiguous 0 (planRender profile clips).clips ∧
      ((planRender profile clips).clips.map (·.frames)).sum =
        (planRender profile clips).totalFrames ∧
      ((planRender profile clips).segments.map (·.frames)).sum =
        (planRender profile clips).totalFrames ∧
      List.Forall₂ (NearestFrames profile) ((renderTrack 0 clips).filter (FillsFrame profile ·))
        (planRender profile clips).clips ∧
      |((planRender profile clips).totalFrames : ℚ) -
        exactFrame profile (trackLength (renderTrack 0 clips))| ≤ 1 / 2 := by
  have hlayout : Contiguous (profile.frameAt 0) (layOut profile clips).1 :=
    contiguous_layOutFrom profile
  rw [frameAt_zero] at hlayout
  refine ⟨contiguous_congr (planRender_clips profile clips) hlayout, sum_clips profile clips,
    (sum_segments _).trans (sum_clips profile clips), nearestFrames_planRender profile clips, ?_⟩
  rw [planned_total]
  exact abs_frameAt_sub_le profile _

end Film

end ShortReel.FilmFrames
