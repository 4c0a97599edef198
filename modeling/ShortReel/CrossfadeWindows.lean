import Mathlib.Algebra.Order.BigOperators.Group.List
import Mathlib.Data.List.Chain
import ShortReel.RenderLayout
import ShortReel.TimelineOperations

/-!
# Crossfades inside their segments

Starts, ends and halves of transitions are rounded to frames one by one. A plan keeps its windows
inside their segments, and apart, exactly when each clip of the film has as many frames as the
windows on its two sides take from it.
-/

namespace ShortReel.CrossfadeWindows

open TimelineModel RenderPlan RenderLayout

section Grid

variable (profile : OutputProfile)

theorem windowFrames_nonneg (transition : Transition) :
    0 ≤ (windowFrames profile transition).1 ∧ 0 < (windowFrames profile transition).2 := by
  unfold windowFrames
  dsimp only
  omega

def outgoingFrames (clip : RenderClip) : ℤ :=
  ((overlap clip).map fun transition => (windowFrames profile transition).1).getD 0

def incomingFrames (clip : RenderClip) : ℤ :=
  ((overlap clip).map fun transition => (windowFrames profile transition).2).getD 0

def SomeShown : (startUs : ℕ) → List RenderClip → Prop
  | _, [] => False
  | startUs, clip :: clips =>
      Shown profile startUs clip ∨ SomeShown (startUs + clip.durationUs) clips

instance decidableSomeShown : (startUs : ℕ) → (clips : List RenderClip) →
    Decidable (SomeShown profile startUs clips)
  | _, [] => .isFalse id
  | startUs, clip :: clips =>
      have := decidableSomeShown (startUs + clip.durationUs) clips
      inferInstanceAs (Decidable (Shown profile startUs clip ∨ _))

/-- The window law after rounding: the frames a clip fills suffice for what the crossfade before it
takes (`incoming`) and what the one behind it takes. -/
def FramesFit : (startUs : ℕ) → (incoming : ℤ) → List RenderClip → Prop
  | _, _, [] => True
  | startUs, incoming, clip :: clips =>
      let stopUs := startUs + clip.durationUs
      if Shown profile startUs clip then
        incoming + (if SomeShown profile stopUs clips then outgoingFrames profile clip else 0) ≤
            profile.frameAt stopUs - profile.frameAt startUs ∧
          FramesFit stopUs (incomingFrames profile clip) clips
      else FramesFit stopUs incoming clips

end Grid

def WindowsInside (segment : RenderSegment) : Prop :=
  (∀ crossfade ∈ segment.crossfades, 0 ≤ crossfade.offsetFrames ∧
    crossfade.offsetFrames + crossfade.frames ≤ segment.frames) ∧
  segment.crossfades.IsChain fun first second =>
    first.offsetFrames + first.frames ≤ second.offsetFrames

instance (segment : RenderSegment) : Decidable (WindowsInside segment) :=
  inferInstanceAs (Decidable (_ ∧ _))

def Spaced : (low : ℤ) → List Crossfade → (high : ℤ) → Prop
  | low, [], high => low ≤ high
  | low, crossfade :: crossfades, high =>
      low ≤ crossfade.offsetFrames ∧
        Spaced (crossfade.offsetFrames + crossfade.frames) crossfades high

theorem spaced_append {low high : ℤ} {crossfades : List Crossfade} {crossfade : Crossfade} :
    Spaced low (crossfades ++ [crossfade]) high ↔
      Spaced low crossfades crossfade.offsetFrames ∧
        crossfade.offsetFrames + crossfade.frames ≤ high := by
  induction crossfades generalizing low with
  | nil => rfl
  | cons first crossfades ih =>
      rw [List.cons_append, Spaced, Spaced, ih, and_assoc]

theorem spaced_bounds {low high : ℤ} {crossfades : List Crossfade}
    (hframes : ∀ crossfade ∈ crossfades, 0 ≤ crossfade.frames) (h : Spaced low crossfades high) :
    low ≤ high ∧ ∀ crossfade ∈ crossfades, low ≤ crossfade.offsetFrames ∧
      crossfade.offsetFrames + crossfade.frames ≤ high := by
  induction crossfades generalizing low with
  | nil => exact ⟨h, fun _ hin => by cases hin⟩
  | cons first crossfades ih =>
      obtain ⟨hlow, hrest⟩ := h
      obtain ⟨hhigh, hbounds⟩ := ih (fun c hc => hframes c (List.mem_cons_of_mem _ hc)) hrest
      have hfirst := hframes first List.mem_cons_self
      refine ⟨by omega, fun crossfade hin => ?_⟩
      rcases List.mem_cons.mp hin with rfl | hin
      · exact ⟨hlow, hhigh⟩
      · have := hbounds crossfade hin
        omega

theorem spaced_isChain {low high : ℤ} {crossfades : List Crossfade} (h : Spaced low crossfades high) :
    crossfades.IsChain fun first second =>
      first.offsetFrames + first.frames ≤ second.offsetFrames := by
  induction crossfades generalizing low with
  | nil => exact .nil
  | cons first crossfades ih =>
      rw [List.isChain_cons]
      refine ⟨fun second hsecond => ?_, ih h.2⟩
      cases crossfades with
      | nil => cases hsecond
      | cons next crossfades =>
          obtain rfl := Option.some.inj hsecond
          exact h.2.1

theorem spaced_of_isChain {low high : ℤ} {crossfades : List Crossfade} (hle : low ≤ high)
    (hhead : ∀ crossfade ∈ crossfades.head?, low ≤ crossfade.offsetFrames)
    (hends : ∀ crossfade ∈ crossfades, crossfade.offsetFrames + crossfade.frames ≤ high)
    (hchain : crossfades.IsChain fun first second =>
      first.offsetFrames + first.frames ≤ second.offsetFrames) : Spaced low crossfades high := by
  induction crossfades generalizing low with
  | nil => exact hle
  | cons first crossfades ih =>
      rw [List.isChain_cons] at hchain
      exact ⟨hhead first rfl, ih (hends first List.mem_cons_self) hchain.1
        (fun c hc => hends c (List.mem_cons_of_mem _ hc)) hchain.2⟩

theorem windowsInside_iff {segment : RenderSegment} (hframes : 0 ≤ segment.frames)
    (hwindows : ∀ crossfade ∈ segment.crossfades, 0 ≤ crossfade.frames) :
    WindowsInside segment ↔ Spaced 0 segment.crossfades segment.frames := by
  constructor
  · rintro ⟨hinside, hchain⟩
    exact spaced_of_isChain hframes
      (fun crossfade hhead => (hinside crossfade (List.mem_of_mem_head? hhead)).1)
      (fun crossfade hin => (hinside crossfade hin).2) hchain
  · intro h
    exact ⟨(spaced_bounds hwindows h).2, spaced_isChain h⟩

section Planned

variable (profile : OutputProfile)

def PlannedFit : (incoming : ℤ) → List PlannedClip → Prop
  | _, [] => True
  | incoming, item :: rest =>
      incoming + (if rest = [] then 0 else outgoingFrames profile item.clip) ≤ item.frames ∧
        PlannedFit (incomingFrames profile item.clip) rest

theorem plannedFit_congr {incoming : ℤ} {planned joined : List PlannedClip}
    (h : List.Forall₂ SameFrames planned joined) :
    PlannedFit profile incoming planned ↔ PlannedFit profile incoming joined := by
  induction h generalizing incoming with
  | nil => rfl
  | @cons first second planned joined hitem hrest ih =>
      obtain ⟨hclip, -, hframes⟩ := hitem
      have hlength := hrest.length_eq
      have hnil : planned = [] ↔ joined = [] := by
        rw [← List.length_eq_zero_iff, hlength, List.length_eq_zero_iff]
      simp only [PlannedFit, hclip, hframes, ih, hnil]

/-- A segment under way, before its clip `item`: its windows are as they should be when `fit` holds,
and the last one of them ends `incoming` frames after the start of the clip. -/
structure SegmentSoFar (current : List PlannedClip) (crossfades : List Crossfade)
    (item : PlannedClip) (fit : Prop) (incoming : ℤ) : Prop where
  frames : (current.map (·.frames)).sum = item.startFrame - (current.headD item).startFrame
  current_pos : ∀ planned ∈ current, 0 < planned.frames
  windows : ∀ crossfade ∈ crossfades, 0 ≤ crossfade.frames
  spaced : ∀ high, Spaced 0 crossfades high ↔
    fit ∧ item.startFrame - (current.headD item).startFrame + incoming ≤ high

theorem segmentSoFar_nil (item : PlannedClip) : SegmentSoFar [] [] item True 0 where
  frames := by simp
  current_pos := fun _ hin => absurd hin List.not_mem_nil
  windows := fun _ hin => absurd hin List.not_mem_nil
  spaced := by simp [Spaced]

section Closing

variable {profile} {current : List PlannedClip} {crossfades : List Crossfade} {item next : PlannedClip}
  {fit : Prop} {incoming : ℤ}

theorem SegmentSoFar.closed_iff (hsofar : SegmentSoFar current crossfades item fit incoming)
    (hitem : 0 < item.frames) (hnonempty : current ++ [item] ≠ []) :
    WindowsInside ⟨current ++ [item], crossfades, hnonempty⟩ ↔ fit ∧ incoming ≤ item.frames := by
  have hframes : RenderSegment.frames ⟨current ++ [item], crossfades, hnonempty⟩ =
      item.startFrame - (current.headD item).startFrame + item.frames := by
    simp [RenderSegment.frames, hsofar.frames]
  have hnonneg : 0 ≤ (current.map (·.frames)).sum := by
    apply List.sum_nonneg
    simp only [List.mem_map, forall_exists_index, and_imp, forall_apply_eq_imp_iff₂]
    exact fun planned hplanned => (hsofar.current_pos planned hplanned).le
  rw [windowsInside_iff (by rw [hframes, ← hsofar.frames]; omega) hsofar.windows, hframes,
    hsofar.spaced]
  exact and_congr_right fun _ => add_le_add_iff_left _

theorem SegmentSoFar.extend (hsofar : SegmentSoFar current crossfades item fit incoming)
    (hitem : 0 < item.frames) (hnext : next.startFrame = item.endFrame) {effect : String}
    {window : ℤ × ℤ} (hbefore : 0 ≤ window.1) (hafter : 0 < window.2) :
    SegmentSoFar (current ++ [item])
      (crossfades ++ [⟨effect, item.endFrame - window.1 - (current.headD item).startFrame,
        window.1 + window.2⟩])
      next (fit ∧ incoming + window.1 ≤ item.frames) window.2 where
  frames := by
    have hsum := hsofar.frames
    have hend : item.endFrame = item.startFrame + item.frames := rfl
    cases current with
    | nil => simp [hnext, hend]
    | cons first current =>
        simp only [List.cons_append, List.headD_cons, List.map_cons, List.map_append, List.map_nil,
          List.sum_cons, List.sum_append, List.sum_nil] at hsum ⊢
        omega
  current_pos := by
    intro planned hplanned
    rcases List.mem_append.mp hplanned with hplanned | hplanned
    · exact hsofar.current_pos planned hplanned
    · rwa [List.mem_singleton.mp hplanned]
  windows := by
    intro crossfade hcrossfade
    rcases List.mem_append.mp hcrossfade with hcrossfade | hcrossfade
    · exact hsofar.windows crossfade hcrossfade
    · rw [List.mem_singleton.mp hcrossfade]
      dsimp only
      omega
  spaced := by
    intro high
    have hhead : ((current ++ [item]).headD next).startFrame = (current.headD item).startFrame := by
      cases current <;> rfl
    have hend : item.endFrame = item.startFrame + item.frames := rfl
    rw [spaced_append, hsofar.spaced, hhead, hnext]
    dsimp only
    constructor
    · rintro ⟨⟨hfit, hlow⟩, hhigh⟩
      refine ⟨⟨hfit, ?_⟩, ?_⟩ <;> omega
    · rintro ⟨⟨hfit, hlow⟩, hhigh⟩
      refine ⟨⟨hfit, ?_⟩, ?_⟩ <;> omega

end Closing

theorem segmentsFrom_iff {current : List PlannedClip} {crossfades : List Crossfade}
    {item : PlannedClip} {fit : Prop} {incoming frame : ℤ} {rest : List PlannedClip}
    (hcontiguous : Contiguous frame (item :: rest))
    (hsofar : SegmentSoFar current crossfades item fit incoming) :
    (∀ segment ∈ segmentsFrom profile current crossfades (item :: rest), WindowsInside segment) ↔
      fit ∧ PlannedFit profile incoming (item :: rest) := by
  induction rest generalizing current crossfades item fit incoming frame with
  | nil =>
      have hclosed := hsofar.closed_iff hcontiguous.2.1 (by simp)
      have hsegments : segmentsFrom profile current crossfades [item] =
          [⟨current ++ [item], crossfades, by simp⟩] := by
        unfold segmentsFrom
        split <;> rfl
      rw [hsegments, List.forall_mem_singleton, hclosed]
      simp [PlannedFit]
  | cons next rest ih =>
      obtain ⟨-, hitem, hrest⟩ := hcontiguous
      have hnext : next.startFrame = item.endFrame := hrest.1
      rw [PlannedFit, if_neg (List.cons_ne_nil next rest)]
      cases hoverlap : overlap item.clip with
      | none =>
          have hclosed := hsofar.closed_iff hitem (by simp)
          have hout : outgoingFrames profile item.clip = 0 := by simp [outgoingFrames, hoverlap]
          have hin : incomingFrames profile item.clip = 0 := by simp [incomingFrames, hoverlap]
          have hsegments : segmentsFrom profile current crossfades (item :: next :: rest) =
              ⟨current ++ [item], crossfades, by simp⟩ ::
                segmentsFrom profile [] [] (next :: rest) := by
            rw [segmentsFrom, hoverlap]
          rw [hsegments, List.forall_mem_cons, hclosed, ih hrest (segmentSoFar_nil next), hout, hin,
            add_zero, true_and, and_assoc]
      | some transition =>
          obtain ⟨hbefore, hafter⟩ := windowFrames_nonneg profile transition
          have hout : outgoingFrames profile item.clip = (windowFrames profile transition).1 := by
            simp [outgoingFrames, hoverlap]
          have hin : incomingFrames profile item.clip = (windowFrames profile transition).2 := by
            simp [incomingFrames, hoverlap]
          rw [segmentsFrom, hoverlap]
          dsimp only
          rw [if_neg (List.cons_ne_nil next rest),
            ih hrest (hsofar.extend hitem hnext hbefore hafter), hout, hin, and_assoc]

theorem layOutFrom_eq_nil {startUs : ℕ} {clips : List RenderClip} :
    (layOutFrom profile startUs clips).1 = [] ↔ ¬ SomeShown profile startUs clips := by
  induction clips generalizing startUs with
  | nil => simp [layOutFrom, SomeShown]
  | cons clip clips ih =>
      rw [SomeShown]
      by_cases hshown : Shown profile startUs clip
      · obtain ⟨item, -, -, -, hlayout⟩ := layOutFrom_of_shown profile clips hshown
        rw [hlayout]
        simp [hshown]
      · rw [layOutFrom_of_not_shown profile clips hshown, ih]
        simp [hshown]

theorem plannedFit_layOutFrom {startUs : ℕ} {incoming : ℤ} {clips : List RenderClip} :
    PlannedFit profile incoming (layOutFrom profile startUs clips).1 ↔
      FramesFit profile startUs incoming clips := by
  induction clips generalizing startUs incoming with
  | nil => rfl
  | cons clip clips ih =>
      rw [FramesFit]
      by_cases hshown : Shown profile startUs clip
      · obtain ⟨item, hclip, hstart, hend, hlayout⟩ := layOutFrom_of_shown profile clips hshown
        have hframes : item.frames =
            profile.frameAt (startUs + clip.durationUs) - profile.frameAt startUs := by
          have : item.endFrame = item.startFrame + item.frames := rfl
          omega
        rw [if_pos hshown, hlayout, PlannedFit, ih, hclip, hframes]
        simp only [layOutFrom_eq_nil, ite_not]
      · rw [if_neg hshown, layOutFrom_of_not_shown profile clips hshown, ih]

end Planned

/-- Windows inside their segments, for every plan: exactly when the frames of each clip suffice. -/
theorem windows_inside_iff (profile : OutputProfile) (clips : List EditClip)
    (media : List (String × RenderMedia)) :
    (∀ segment ∈ (planRender profile (renderClips clips media)).segments, WindowsInside segment) ↔
      FramesFit profile 0 0 (renderClips clips media) := by
  have hjoined := joinAll_sameFrames profile (layOutFrom profile 0 (renderClips clips media)).1
  have hcontiguous := contiguous_congr hjoined (contiguous_layOutFrom profile)
  rw [← plannedFit_layOutFrom, plannedFit_congr profile hjoined]
  change (∀ segment ∈ segmentsFrom profile [] []
    (joinAll profile (layOutFrom profile 0 (renderClips clips media)).1), WindowsInside segment) ↔ _
  cases hplanned : joinAll profile (layOutFrom profile 0 (renderClips clips media)).1 with
  | nil => simp [segmentsFrom, PlannedFit]
  | cons first planned =>
      rw [hplanned] at hcontiguous
      rw [segmentsFrom_iff profile hcontiguous (segmentSoFar_nil first), true_and]

/-! A clip of 0.11 seconds between a dissolve of 0.22 seconds and the end of the film: the window
takes four frames of it after the cut, and it has three. -/

def tightClips : List EditClip :=
  [{ number := 1, unitId := "E1S01", sourceVolume := defaultSourceVolumeLevel
     transitionToNext := some ⟨.dissolve, 220000⟩ },
    { number := 2, unitId := "E1S02", sourceVolume := defaultSourceVolumeLevel }]

def tightSources : EpisodeSources where
  script := ⟨1, "segments", [⟨"E1S01", some .silent, 1000000, ""⟩, ⟨"E1S02", some .silent, 1000000, ""⟩]⟩
  media := [("E1S01", ⟨some 1, some 1000000, none⟩), ("E1S02", ⟨some 1, some 110000, none⟩)]
  ttsNarration := false

def tightMedia : List (String × RenderMedia) :=
  [("E1S01", ⟨"videos/E1S01.mp4", 1, 1000000, true⟩), ("E1S02", ⟨"videos/E1S02.mp4", 1, 110000, true⟩)]

def finalCutProfile : OutputProfile :=
  ⟨1920, 1080, 30, by norm_num⟩

theorem windows_outside_segment :
    TimelineOperations.Batch.checkTransitionWindows tightSources
        (AList.insert (.c 2) 0 (AList.insert (.c 1) 0 ∅)) none tightClips = .ok () ∧
      (∀ clip ∈ tightClips, (tightMedia.lookup clip.unitId).isSome) ∧
      ∃ segment ∈ (planRender finalCutProfile (renderClips tightClips tightMedia)).segments,
        ¬ WindowsInside segment := by
  refine ⟨by decide +kernel, by decide +kernel, by decide +kernel⟩

end ShortReel.CrossfadeWindows
