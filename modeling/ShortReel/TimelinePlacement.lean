import ShortReel.TimelineModel

/-!
# What a timeline becomes

Three readings of one content: the readout of `readout.py` (without its issues), the placement of
`placement.py` that drafts and subtitles share, and the placement of the BGM track of `bgm.py` that
all of them use.
-/

namespace ShortReel.TimelinePlacement

open TimelineModel

def bgmCutoffFadeMicroseconds : ℕ := 1000000

structure PlacedBgm where
  clipId : ClipId
  bgmId : String
  startUs : ℕ
  sourceInUs : ℕ
  durationUs : ℕ
  volume : Volume
  fadeInUs : ℕ
  fadeOutUs : ℕ
  truncated : Bool
  deriving DecidableEq

def PlacedBgm.endUs (placed : PlacedBgm) : ℕ :=
  placed.startUs + placed.durationUs

def fitFades (clip : BgmClip) (length : ℕ) (truncated : Bool) : ℕ × ℕ :=
  if truncated then
    let fadeOut := min bgmCutoffFadeMicroseconds length
    (min clip.fadeInUs (length - fadeOut), fadeOut)
  else
    let total := clip.fadeInUs + clip.fadeOutUs
    if total ≤ length then (clip.fadeInUs, clip.fadeOutUs)
    else (clip.fadeInUs * length / total, clip.fadeOutUs * length / total)

def bgmByStart (bgm : List BgmClip) : List BgmClip :=
  bgm.insertionSort fun first second => first.startUs ≤ second.startUs

def placeBgmClip (durationUs : ℕ) (clip : BgmClip) : Option PlacedBgm :=
  let naturalEnd := clip.startUs + bgmClipLengthUs clip
  let stop := min naturalEnd durationUs
  if stop ≤ clip.startUs then none
  else
    let length := stop - clip.startUs
    let truncated : Bool := stop < naturalEnd
    let fades := fitFades clip length truncated
    some
      { clipId := clip.id
        bgmId := clip.bgmId
        startUs := clip.startUs
        sourceInUs := clip.inUs
        durationUs := length
        volume := clip.volume
        fadeInUs := fades.1
        fadeOutUs := fades.2
        truncated }

def placeBgm (bgm : List BgmClip) (durationUs : ℕ) : List PlacedBgm :=
  (bgmByStart bgm).filterMap (placeBgmClip durationUs)

inductive ClipStatus where
  | ready | videoMissing | unitDeleted
  deriving DecidableEq, Repr

structure TrimView where
  sourceIn : ℚ
  sourceOut : ℚ
  basisVersion : ℕ+
  deriving DecidableEq, Repr

structure TransitionView where
  type : TransitionType
  duration : ℚ
  deriving DecidableEq, Repr

structure NarrationView where
  start : ℚ
  stop : Option ℚ
  deriving DecidableEq, Repr

structure ClipView where
  id : ClipId
  unitId : String
  status : ClipStatus
  start : ℚ
  duration : ℚ
  videoVersion : Option ℕ+
  sourceDuration : Option ℚ
  trim : Option TrimView
  sourceVolume : Volume
  hold : ℚ
  carriesNarration : Bool
  narration : Option NarrationView
  reason : Option String
  transitionToNext : Option TransitionView
  deriving DecidableEq

structure BgmView where
  id : ClipId
  bgmId : String
  name : Option String
  start : ℚ
  stop : ℚ
  sourceIn : ℚ
  sourceOut : ℚ
  volume : Volume
  fadeIn : ℚ
  fadeOut : ℚ
  deriving DecidableEq

structure EditTimelineReadout where
  timelineId : String
  timelineName : String
  episode : ℕ
  revision : ℕ
  latestRevision : ℕ
  duration : ℚ
  clips : List ClipView
  bgm : List BgmView
  deriving DecidableEq

section Readout

variable (sources : EpisodeSources)

def trimView (trim : ClipTrim) : TrimView :=
  ⟨microsecondsToSeconds trim.inUs, microsecondsToSeconds trim.outUs, trim.basisVersion⟩

def transitionView (transition : Transition) : TransitionView :=
  ⟨transition.type, microsecondsToSeconds transition.durationUs⟩

def narrationView (clip : EditClip) (unit : ScriptUnit) (media : UnitMedia) (startUs : ℕ) :
    Option NarrationView :=
  if clip.carriesNarration ∧ unit.speechMode = some .narratorVoiceover then
    some ⟨microsecondsToSeconds startUs,
      media.narrationDurationUs.map fun duration => microsecondsToSeconds (startUs + duration)⟩
  else none

def clipStatus (clip : EditClip) : ClipStatus × ℕ :=
  match sources.unit clip.unitId, sources.unitMedia clip.unitId with
  | some unit, some media =>
      (if media.videoVersion.isSome then .ready else .videoMissing,
        clipSourceDurationUs clip media unit.scriptedDurationUs + clip.holdUs)
  | _, _ => (.unitDeleted, 0)

/-- `_clip_view`, with the length of the clip. -/
def clipView (clip : EditClip) (startUs : ℕ) : ClipView × ℕ :=
  let media := sources.unitMedia clip.unitId
  let narration := do narrationView clip (← sources.unit clip.unitId) (← media) startUs
  let (status, durationUs) := clipStatus sources clip
  ({ id := clip.id
     unitId := clip.unitId
     status
     start := microsecondsToSeconds startUs
     duration := microsecondsToSeconds durationUs
     videoVersion := media.bind (·.videoVersion)
     sourceDuration := do
       let media ← media
       let _ ← media.videoVersion
       return microsecondsToSeconds (← media.videoDurationUs)
     trim := clip.trim.map trimView
     sourceVolume := clip.sourceVolume
     hold := microsecondsToSeconds clip.holdUs
     carriesNarration := clip.carriesNarration
     narration
     reason := clip.reason
     transitionToNext := clip.transitionToNext.map transitionView }, durationUs)

def clipViewsFrom : (cursorUs : ℕ) → List EditClip → List ClipView × ℕ
  | cursorUs, [] => ([], cursorUs)
  | cursorUs, clip :: clips =>
      let (view, durationUs) := clipView sources clip cursorUs
      let rest := clipViewsFrom (cursorUs + durationUs) clips
      (view :: rest.1, rest.2)

def bgmView (placements : List PlacedBgm) (clip : BgmClip) : BgmView :=
  let placed := placements.find? fun placed => placed.clipId = clip.id
  { id := clip.id
    bgmId := clip.bgmId
    name := (sources.bgmMedia clip.bgmId).map (·.name)
    start := microsecondsToSeconds clip.startUs
    stop := microsecondsToSeconds ((placed.map (·.endUs)).getD clip.startUs)
    sourceIn := microsecondsToSeconds clip.inUs
    sourceOut := microsecondsToSeconds clip.outUs
    volume := clip.volume
    fadeIn := microsecondsToSeconds ((placed.map (·.fadeInUs)).getD clip.fadeInUs)
    fadeOut := microsecondsToSeconds ((placed.map (·.fadeOutUs)).getD clip.fadeOutUs) }

def projectReadout (document : EditTimelineDocument) (revision : TimelineRevision) :
    EditTimelineReadout :=
  let (clips, cursorUs) := clipViewsFrom sources 0 revision.content.clips
  let placements := placeBgm revision.content.bgm cursorUs
  { timelineId := document.id
    timelineName := document.name
    episode := document.episode
    revision := revision.number
    latestRevision := document.latest.number
    duration := microsecondsToSeconds cursorUs
    clips
    bgm := (bgmByStart revision.content.bgm).map (bgmView sources placements) }

end Readout

structure UnitCue where
  startUs : ℕ
  durationUs : ℕ
  text : String
  deriving DecidableEq, Repr

def UnitCue.endUs (cue : UnitCue) : ℕ :=
  cue.startUs + cue.durationUs

structure UnitMaterial where
  unitId : String
  videoPath : String
  videoVersion : ℕ+
  videoDurationUs : ℕ
  sourceGain : ℚ
  subtitles : List UnitCue
  narrationPath : Option String := none
  narrationDurationUs : Option ℕ := none
  deriving DecidableEq, Repr

structure PlacedClip where
  clipId : ClipId
  unitId : String
  videoPath : String
  startUs : ℕ
  sourceInUs : ℕ
  sourceDurationUs : ℕ
  volume : ℚ
  holdUs : ℕ
  transitionToNext : Option Transition := none
  deriving DecidableEq

def PlacedClip.sourceOutUs (placed : PlacedClip) : ℕ :=
  placed.sourceInUs + placed.sourceDurationUs

structure PlacedNarration where
  clipId : ClipId
  audioPath : String
  startUs : ℕ
  durationUs : ℕ
  deriving DecidableEq, Repr

structure PlacedSubtitle where
  startUs : ℕ
  durationUs : ℕ
  text : String
  deriving DecidableEq, Repr

structure PlacedBgmAudio where
  clipId : ClipId
  audioPath : String
  startUs : ℕ
  sourceInUs : ℕ
  durationUs : ℕ
  volume : ℚ
  fadeInUs : ℕ
  fadeOutUs : ℕ
  deriving DecidableEq, Repr

structure BgmSource where
  bgmId : String
  path : String
  contentDigest : String
  gain : ℚ
  deriving DecidableEq, Repr

structure DraftPlacement where
  durationUs : ℕ
  clips : List PlacedClip
  narrations : List PlacedNarration
  subtitles : List PlacedSubtitle
  bgm : List PlacedBgmAudio := []
  deriving DecidableEq

/-- `_clip_subtitles`: along with the narration, or cut to the range of the clip. -/
def clipSubtitles (clip : PlacedClip) (unit : UnitMaterial) (carries : Bool) :
    List PlacedSubtitle :=
  if unit.narrationPath.isSome then
    if carries then
      unit.subtitles.map fun cue => ⟨clip.startUs + cue.startUs, cue.durationUs, cue.text⟩
    else []
  else
    unit.subtitles.filterMap fun cue =>
      let start := max cue.startUs clip.sourceInUs
      let stop := min cue.endUs clip.sourceOutUs
      if start < stop then
        some ⟨clip.startUs + start - clip.sourceInUs, stop - start, cue.text⟩
      else none

/-- `_within_timeline`, of items with a start and a length. -/
def withinTimeline {α : Type} (startUs lengthUs : α → ℕ) (withLength : α → ℕ → α)
    (items : List α) (durationUs : ℕ) : List α :=
  (items.insertionSort fun first second => startUs first ≤ startUs second).filterMap fun item =>
    let stop := min (startUs item + lengthUs item) durationUs
    if startUs item < stop then some (withLength item (stop - startUs item)) else none

def placedClip (clip : EditClip) (unit : UnitMaterial) (cursorUs : ℕ) : PlacedClip :=
  let range := effectiveSourceRangeUs clip (some unit.videoVersion) unit.videoDurationUs
  { clipId := clip.id
    unitId := clip.unitId
    videoPath := unit.videoPath
    startUs := cursorUs
    sourceInUs := range.1
    sourceDurationUs := range.2 - range.1
    volume := clip.sourceVolume.1 * unit.sourceGain
    holdUs := clip.holdUs
    transitionToNext := clip.transitionToNext }

def placedNarration (clip : EditClip) (unit : UnitMaterial) (cursorUs : ℕ) :
    Option PlacedNarration :=
  if clip.carriesNarration then do
    return ⟨clip.id, ← unit.narrationPath, cursorUs, ← unit.narrationDurationUs⟩
  else none

/-- The loop over the main track: clips, narrations and subtitles from a time on, and the time at
their end. -/
def placeFrom (units : List (String × UnitMaterial)) :
    (cursorUs : ℕ) → List EditClip → DraftPlacement
  | cursorUs, [] => ⟨cursorUs, [], [], [], []⟩
  | cursorUs, clip :: clips =>
      match units.lookup clip.unitId with
      | none => placeFrom units cursorUs clips
      | some unit =>
          let placed := placedClip clip unit cursorUs
          let rest := placeFrom units (cursorUs + (placed.sourceDurationUs + placed.holdUs)) clips
          { durationUs := rest.durationUs
            clips := placed :: rest.clips
            narrations := (placedNarration clip unit cursorUs).toList ++ rest.narrations
            subtitles := clipSubtitles placed unit clip.carriesNarration ++ rest.subtitles }

def endAtLastClip : List PlacedClip → List PlacedClip
  | [] => []
  | [last] => [{ last with transitionToNext := none }]
  | clip :: clips => clip :: endAtLastClip clips

def bgmAudio (placed : PlacedBgm) (source : BgmSource) : PlacedBgmAudio :=
  { clipId := placed.clipId
    audioPath := source.path
    startUs := placed.startUs
    sourceInUs := placed.sourceInUs
    durationUs := placed.durationUs
    volume := placed.volume.1 * source.gain
    fadeInUs := placed.fadeInUs
    fadeOutUs := placed.fadeOutUs }

def placeTimeline (content : EditTimelineContent) (units : List (String × UnitMaterial))
    (bgmSources : List (String × BgmSource) := []) : DraftPlacement :=
  let track := placeFrom units 0 content.clips
  { durationUs := track.durationUs
    clips := endAtLastClip track.clips
    narrations := withinTimeline PlacedNarration.startUs PlacedNarration.durationUs
      (fun item durationUs => { item with durationUs }) track.narrations track.durationUs
    subtitles := withinTimeline PlacedSubtitle.startUs PlacedSubtitle.durationUs
      (fun item durationUs => { item with durationUs }) track.subtitles track.durationUs
    bgm := (placeBgm content.bgm track.durationUs).filterMap fun placed =>
      (bgmSources.lookup placed.bgmId).map (bgmAudio placed) }

end ShortReel.TimelinePlacement
