import ShortReel.TimelineModel

/-!
# Render plans

`render_plan.py`: the clips of a revision laid on the frame grid of the final cut, their transitions
expanded, and the film split at its hard cuts. The boundary of a clip is rounded from the
accumulated duration of the timeline.
-/

namespace ShortReel.RenderPlan

open TimelineModel

/-- The `xfade` effect of a transition; a fade colour only on one that does not overlap. -/
structure TransitionPreset where
  xfade : String
  fadeColor : Option String := none
  deriving DecidableEq, Repr

def TransitionPreset.overlaps (preset : TransitionPreset) : Bool :=
  preset.fadeColor.isNone

def transitionPreset : TransitionType → TransitionPreset
  | .dissolve => ⟨"fade", none⟩
  | .fadeBlack => ⟨"fadeblack", some "black"⟩
  | .fadeWhite => ⟨"fadewhite", some "white"⟩
  | .pushLeft => ⟨"slideleft", none⟩
  | .pushRight => ⟨"slideright", none⟩
  | .pushUp => ⟨"slideup", none⟩
  | .pushDown => ⟨"slidedown", none⟩
  | .wipeLeft => ⟨"wipeleft", none⟩
  | .wipeRight => ⟨"wiperight", none⟩
  | .wipeUp => ⟨"wipeup", none⟩
  | .wipeDown => ⟨"wipedown", none⟩
  | .circle => ⟨"circleopen", none⟩
  | .curtainHorizontal => ⟨"horzopen", none⟩
  | .curtainVertical => ⟨"vertopen", none⟩
  | .mosaic => ⟨"pixelize", none⟩
  | .blur => ⟨"hblur", none⟩
  | .radial => ⟨"radial", none⟩
  | .gradientWipe => ⟨"smoothleft", none⟩
  | .squeeze => ⟨"squeezeh", none⟩

/-- Canvas and frame rate; `FINAL_CUT_FPS` is 30, any rate is allowed here. -/
structure OutputProfile where
  width : ℕ
  height : ℕ
  fps : ℚ
  fps_pos : 0 < fps

/-- `frame_at`: the frame boundary closest to a time. -/
def OutputProfile.frameAt (profile : OutputProfile) (microseconds : ℕ) : ℤ :=
  roundHalfEven (microseconds * profile.fps / microsecondsPerSecond)

structure RenderMedia where
  path : String
  videoVersion : ℕ+
  durationUs : ℕ
  hasAudio : Bool
  deriving DecidableEq, Repr

structure RenderClip where
  clipId : ClipId
  unitId : String
  videoPath : String
  sourceInUs : ℕ
  sourceDurationUs : ℕ
  holdUs : ℕ
  sourceVolume : Volume
  hasAudio : Bool
  transitionToNext : Option Transition
  mediaDurationUs : ℕ
  deriving DecidableEq

def RenderClip.sourceOutUs (clip : RenderClip) : ℕ :=
  clip.sourceInUs + clip.sourceDurationUs

def RenderClip.durationUs (clip : RenderClip) : ℕ :=
  clip.sourceDurationUs + clip.holdUs

def renderClip (clip : EditClip) (unitMedia : RenderMedia) : RenderClip :=
  let range := effectiveSourceRangeUs clip (some unitMedia.videoVersion) unitMedia.durationUs
  { clipId := clip.id
    unitId := clip.unitId
    videoPath := unitMedia.path
    sourceInUs := range.1
    sourceDurationUs := range.2 - range.1
    holdUs := clip.holdUs
    sourceVolume := clip.sourceVolume
    hasAudio := unitMedia.hasAudio
    transitionToNext := clip.transitionToNext
    mediaDurationUs := unitMedia.durationUs }

/-- `render_clips`: clips without material are skipped. -/
def renderClips (clips : List EditClip) (media : List (String × RenderMedia)) : List RenderClip :=
  clips.filterMap fun clip => (media.lookup clip.unitId).map (renderClip clip)

/-- Picture beyond the range of a clip: frames of its source first, then a frozen frame. -/
structure Extension where
  sourceFrames : ℤ := 0
  freezeFrames : ℤ := 0
  deriving DecidableEq, Repr

def Extension.frames (extension : Extension) : ℤ :=
  extension.sourceFrames + extension.freezeFrames

def borrowFrames (needed availableUs : ℤ) (fps : ℚ) : Extension :=
  let available := ⌊(max availableUs 0 : ℤ) * fps / microsecondsPerSecond⌋
  let source := min needed available
  { sourceFrames := source, freezeFrames := needed - source }

structure Fade where
  frames : ℤ
  color : String
  deriving DecidableEq, Repr

structure PlannedClip where
  clip : RenderClip
  startFrame : ℤ
  sourceFrames : ℤ
  holdFrames : ℤ
  lead : Extension := {}
  trail : Extension := {}
  fadeIn : Option Fade := none
  fadeOut : Option Fade := none
  deriving DecidableEq

namespace PlannedClip

variable (planned : PlannedClip)

def frames : ℤ :=
  planned.sourceFrames + planned.holdFrames

def endFrame : ℤ :=
  planned.startFrame + planned.frames

def streamFrames : ℤ :=
  planned.lead.frames + planned.frames + planned.trail.frames

end PlannedClip

structure Crossfade where
  effect : String
  offsetFrames : ℤ
  frames : ℤ
  deriving DecidableEq, Repr

/-- Clips joined by overlapping transitions, between two hard cuts. -/
structure RenderSegment where
  clips : List PlannedClip
  crossfades : List Crossfade
  nonempty : clips ≠ []
  deriving DecidableEq

def RenderSegment.startFrame (segment : RenderSegment) : ℤ :=
  (segment.clips.head segment.nonempty).startFrame

def RenderSegment.frames (segment : RenderSegment) : ℤ :=
  (segment.clips.map (·.frames)).sum

structure Plan where
  profile : OutputProfile
  segments : List RenderSegment
  totalFrames : ℤ

def Plan.clips (plan : Plan) : List PlannedClip :=
  plan.segments.flatMap (·.clips)

section Planning

variable (profile : OutputProfile)

/-- `_window_frames`: the frames of a window before and after the cut. -/
def windowFrames (transition : Transition) : ℤ × ℤ :=
  let frames := max (profile.frameAt transition.durationUs) 1
  let before := frames / 2
  (before, frames - before)

/-- The loop of `_lay_out`; a clip of less than half a frame has no place in the film. -/
def layOutFrom : (cursorUs : ℕ) → List RenderClip → List PlannedClip × ℤ
  | cursorUs, [] => ([], profile.frameAt cursorUs)
  | cursorUs, clip :: clips =>
      let start := profile.frameAt cursorUs
      let sourceEnd := profile.frameAt (cursorUs + clip.sourceDurationUs)
      let stop := profile.frameAt (cursorUs + clip.durationUs)
      let rest := layOutFrom (cursorUs + clip.durationUs) clips
      if stop > start then
        ({ clip, startFrame := start, sourceFrames := sourceEnd - start
           holdFrames := stop - sourceEnd } :: rest.1, rest.2)
      else rest

def layOut (clips : List RenderClip) : List PlannedClip × ℤ :=
  layOutFrom profile 0 clips

/-- `_join`: both sides of a cut, by the transition of the first clip. -/
def join (previous following : PlannedClip) : PlannedClip × PlannedClip :=
  match previous.clip.transitionToNext with
  | none => (previous, following)
  | some transition =>
      let window := windowFrames profile transition
      match (transitionPreset transition.type).fadeColor with
      | some color =>
          ({ previous with fadeOut := some ⟨min window.1 previous.frames, color⟩ },
            { following with fadeIn := some ⟨min window.2 following.frames, color⟩ })
      | none =>
          let tailUs : ℤ :=
            if previous.holdFrames ≠ 0 then 0
            else previous.clip.mediaDurationUs - previous.clip.sourceOutUs
          ({ previous with trail := borrowFrames window.2 tailUs profile.fps },
            { following with
              lead := borrowFrames window.1 following.clip.sourceInUs profile.fps })

def joinFrom : PlannedClip → List PlannedClip → List PlannedClip
  | previous, [] => [previous]
  | previous, following :: rest =>
      let joined := join profile previous following
      joined.1 :: joinFrom joined.2 rest

def joinAll : List PlannedClip → List PlannedClip
  | [] => []
  | first :: rest => joinFrom profile first rest

def overlap (clip : RenderClip) : Option Transition :=
  clip.transitionToNext.filter fun transition => (transitionPreset transition.type).overlaps

def segmentsFrom (current : List PlannedClip) (crossfades : List Crossfade) :
    List PlannedClip → List RenderSegment
  | [] => []
  | item :: rest =>
      let closed : RenderSegment := ⟨current ++ [item], crossfades, by simp⟩
      match overlap item.clip with
      | none => closed :: segmentsFrom [] [] rest
      | some transition =>
          if rest = [] then closed :: segmentsFrom [] [] rest
          else
            let window := windowFrames profile transition
            let crossfade : Crossfade :=
              { effect := (transitionPreset transition.type).xfade
                offsetFrames := item.endFrame - window.1 - (current.headD item).startFrame
                frames := window.1 + window.2 }
            segmentsFrom (current ++ [item]) (crossfades ++ [crossfade]) rest

def planRender (clips : List RenderClip) : Plan :=
  let (planned, totalFrames) := layOut profile clips
  ⟨profile, segmentsFrom profile [] [] (joinAll profile planned), totalFrames⟩

end Planning

end ShortReel.RenderPlan
