import Mathlib.Data.List.AList
import Mathlib.Data.List.Sort
import Mathlib.Data.Rat.Floor

/-!
# Edit timelines

The data model of `lib/edit_timeline/model.py` and the episode facts of `sources.py`. Times are
whole microseconds; a `FiniteFloat` of the source is a rational number. What a pydantic validator
checks is a field of the structure it checks.
-/

namespace ShortReel.TimelineModel

/-- Rounding to the nearest integer, ties to the even one, as Python's `round`. -/
def roundHalfEven (value : ℚ) : ℤ :=
  let below := ⌊value⌋
  let rest := value - below
  if rest < 1 / 2 then below
  else if 1 / 2 < rest then below + 1
  else if below % 2 = 0 then below
  else below + 1

/-- `round(value, 3)`. -/
def roundMillis (value : ℚ) : ℚ :=
  roundHalfEven (value * 1000) / 1000

def microsecondsPerSecond : ℕ := 1000000

def secondsToMicroseconds (seconds : ℚ) : ℤ :=
  roundHalfEven (roundMillis seconds * microsecondsPerSecond)

def microsecondsToSeconds (microseconds : ℕ) : ℚ :=
  roundMillis (microseconds / microsecondsPerSecond)

abbrev Volume : Type := { value : ℚ // 0 ≤ value ∧ value ≤ 1 }

def defaultSourceVolumeLevel : Volume := ⟨1, by norm_num⟩

/-- Default source volume of voiceover units: the track stays as ambience under the narration. -/
def voiceoverSourceVolume : Volume := ⟨3 / 10, by norm_num⟩

def defaultBgmVolume : Volume := ⟨1 / 4, by norm_num⟩

def defaultBgmFadeMicroseconds : ℕ := 1000000

/-- Clip numbers start at one. -/
instance neZeroOne : NeZero 1 := ⟨Nat.one_ne_zero⟩

/-- A clip id of the source: `c12`, `b3`, or any other text a caller may send. -/
inductive ClipId where
  | c (number : ℕ+)
  | b (number : ℕ+)
  | other (text : String)
  deriving DecidableEq, Repr

/-- `clip_number`; ids outside the two patterns have no number. -/
def ClipId.number : ClipId → ℕ
  | .c number => number
  | .b number => number
  | .other _ => 0

/-- The sort key of `sorted_clip_ids`: main-track clips first, then BGM clips, by number. -/
def ClipId.sortKey : ClipId → ℕ × ℕ
  | .c number => (0, number)
  | .b number => (1, number)
  | .other _ => (2, 0)

def ClipId.sortsBefore (left right : ClipId) : Prop :=
  left.sortKey.1 < right.sortKey.1 ∨
    (left.sortKey.1 = right.sortKey.1 ∧ left.sortKey.2 ≤ right.sortKey.2)

instance : DecidableRel ClipId.sortsBefore := fun _ _ => inferInstanceAs (Decidable (_ ∨ _))

/-- `sorted_clip_ids` on a duplicate-free enumeration of the set. -/
def sortedClipIds (ids : List ClipId) : List ClipId :=
  ids.insertionSort ClipId.sortsBefore

@[simp]
theorem mem_sortedClipIds (ids : List ClipId) (id : ClipId) :
    id ∈ sortedClipIds ids ↔ id ∈ ids :=
  List.mem_insertionSort _

inductive TransitionType where
  | dissolve | fadeBlack | fadeWhite
  | pushLeft | pushRight | pushUp | pushDown
  | wipeLeft | wipeRight | wipeUp | wipeDown
  | circle | curtainHorizontal | curtainVertical
  | mosaic | blur | radial | gradientWipe | squeeze
  deriving DecidableEq, Repr

/-- A transition between two neighbouring clips, half of it on each side of the cut. -/
structure Transition where
  type : TransitionType
  durationUs : ℕ
  deriving DecidableEq, Repr

/-- In and out points, valid only for the video version they were chosen on. -/
structure ClipTrim where
  inUs : ℕ
  outUs : ℕ
  basisVersion : ℕ+
  out_after_in : inUs < outUs
  deriving DecidableEq, Repr

/-- One cell of the main track; its id is `c` followed by its number. -/
structure EditClip where
  number : ℕ+
  unitId : String
  trim : Option ClipTrim := none
  sourceVolume : Volume
  holdUs : ℕ := 0
  carriesNarration : Bool := false
  reason : Option String := none
  transitionToNext : Option Transition := none
  deriving DecidableEq

def EditClip.id (clip : EditClip) : ClipId := .c clip.number

/-- One stretch of the BGM track; its id is `b` followed by its number. -/
structure BgmClip where
  number : ℕ+
  bgmId : String
  startUs : ℕ
  inUs : ℕ
  outUs : ℕ
  volume : Volume := defaultBgmVolume
  fadeInUs : ℕ := defaultBgmFadeMicroseconds
  fadeOutUs : ℕ := defaultBgmFadeMicroseconds
  out_after_in : inUs < outUs
  deriving DecidableEq

def BgmClip.id (clip : BgmClip) : ClipId := .b clip.number

@[simp]
theorem EditClip.id_inj {left right : EditClip} : left.id = right.id ↔ left.number = right.number := by
  simp [EditClip.id]

@[simp]
theorem EditClip.id_ne_bgm (clip : EditClip) (bgm : BgmClip) : clip.id ≠ bgm.id := by
  simp [EditClip.id, BgmClip.id]

def carriers (clips : List EditClip) : List String :=
  (clips.filter (·.carriesNarration)).map (·.unitId)

structure EditTimelineContent where
  clips : List EditClip := []
  bgm : List BgmClip := []
  unique_clip_ids : (clips.map (·.id)).Nodup
  unique_bgm_ids : (bgm.map (·.id)).Nodup
  one_narration_carrier_per_unit : (carriers clips).Nodup
  deriving DecidableEq

/-- What makes `EditTimelineContent(...)` raise. -/
inductive ContentError where
  | clipIdsNotUnique
  | bgmIdsNotUnique
  | narrationCarriedTwice
  deriving DecidableEq, Repr

/-- The validating constructor `EditTimelineContent(clips=..., bgm=...)`. -/
def validateContent (clips : List EditClip) (bgm : List BgmClip) :
    Except ContentError EditTimelineContent :=
  if hclips : (clips.map (·.id)).Nodup then
    if hbgm : (bgm.map (·.id)).Nodup then
      if hcarriers : (carriers clips).Nodup then
        .ok ⟨clips, bgm, hclips, hbgm, hcarriers⟩
      else .error .narrationCarriedTwice
    else .error .bgmIdsNotUnique
  else .error .clipIdsNotUnique

theorem validateContent_ok {clips : List EditClip} {bgm : List BgmClip}
    {content : EditTimelineContent} (h : validateContent clips bgm = .ok content) :
    content.clips = clips ∧ content.bgm = bgm := by
  unfold validateContent at h
  split at h
  · split at h
    · split at h
      · cases h
        exact ⟨rfl, rfl⟩
      · cases h
    · cases h
  · cases h

inductive AuthorKind where
  | creator | arcreelAgent | externalAgent
  deriving DecidableEq, Repr

structure RevisionAuthor where
  kind : AuthorKind
  userId : Option String := none
  deriving DecidableEq, Repr

/-- An immutable revision. Older revisions carry no `changedClipIds`. -/
structure TimelineRevision where
  number : ℕ
  parent : Option ℕ := none
  author : RevisionAuthor
  summary : String
  createdAt : String
  content : EditTimelineContent
  changedClipIds : Option (List ClipId) := none
  restoredFrom : Option ℕ := none
  deriving DecidableEq

/-- What `_revision_chain` checks of a document. -/
structure RevisionChain (nextClipNumber nextBgmNumber : ℕ+)
    (revisions : List TimelineRevision) : Prop where
  nonempty : revisions ≠ []
  numbered : revisions.map (·.number) = (List.range revisions.length).map (· + 1)
  clips_below : ∀ revision ∈ revisions, ∀ clip ∈ revision.content.clips,
    clip.number < nextClipNumber
  bgm_below : ∀ revision ∈ revisions, ∀ clip ∈ revision.content.bgm,
    clip.number < nextBgmNumber

/-- One timeline of an episode: an append-only chain of revisions and the two id allocators. -/
structure EditTimelineDocument where
  id : String
  episode : ℕ
  name : String
  createdAt : String
  nextClipNumber : ℕ+
  nextBgmNumber : ℕ+ := 1
  revisions : List TimelineRevision
  chain : RevisionChain nextClipNumber nextBgmNumber revisions

namespace EditTimelineDocument

variable (document : EditTimelineDocument)

def latest : TimelineRevision :=
  document.revisions.getLast document.chain.nonempty

/-- `revision(number)`: revisions are counted from one. -/
def revision (number : ℕ) : Option TimelineRevision :=
  if number = 0 then none else document.revisions[number - 1]?

end EditTimelineDocument

inductive SpeechMode where
  | characterSpeech | narratorVoiceover | silent
  deriving DecidableEq, Repr

/-- A video unit of the script; the mode is unknown when the speech cannot be attributed. -/
structure ScriptUnit where
  unitId : String
  speechMode : Option SpeechMode
  scriptedDurationUs : ℕ
  subtitleText : String := ""
  deriving DecidableEq, Repr

/-- The current media of a unit: no version without a usable video, no duration when probing
failed. -/
structure UnitMedia where
  videoVersion : Option ℕ+
  videoDurationUs : Option ℕ
  narrationDurationUs : Option ℕ
  deriving DecidableEq, Repr

/-- An uploaded BGM whose file is present; the library only records positive durations. -/
structure BgmMedia where
  name : String
  durationUs : ℕ
  duration_pos : 0 < durationUs
  deriving DecidableEq, Repr

structure EpisodeScriptUnits where
  episode : ℕ
  kind : String
  units : List ScriptUnit
  deriving DecidableEq, Repr

structure EpisodeSources where
  script : EpisodeScriptUnits
  media : List (String × UnitMedia)
  ttsNarration : Bool
  bgm : List (String × BgmMedia) := []

namespace EpisodeSources

variable (sources : EpisodeSources)

def unit (unitId : String) : Option ScriptUnit :=
  sources.script.units.find? (·.unitId = unitId)

/-- `media.get(unit_id)`. -/
def unitMedia (unitId : String) : Option UnitMedia :=
  sources.media.lookup unitId

/-- `bgm.get(bgm_id)`. -/
def bgmMedia (bgmId : String) : Option BgmMedia :=
  sources.bgm.lookup bgmId

end EpisodeSources

/-- The source range a clip really uses: a trim only holds for the version it is based on. -/
def effectiveSourceRangeUs (clip : EditClip) (videoVersion : Option ℕ+) (wholeUs : ℕ) : ℕ × ℕ :=
  match videoVersion, clip.trim with
  | some version, some trim =>
      if trim.basisVersion ≠ version then (0, wholeUs)
      else
        let sourceIn := min trim.inUs wholeUs
        (sourceIn, max sourceIn (min trim.outUs wholeUs))
  | _, _ => (0, wholeUs)

/-- The picture length of a clip without its hold; the scripted length stands in for a missing
video. -/
def clipSourceDurationUs (clip : EditClip) (media : UnitMedia) (scriptedUs : ℕ) : ℕ :=
  let whole := media.videoDurationUs.getD scriptedUs
  let range := effectiveSourceRangeUs clip media.videoVersion whole
  range.2 - range.1

def bgmClipLengthUs (clip : BgmClip) : ℕ :=
  clip.outUs - clip.inUs

def defaultSourceVolume (speechMode : Option SpeechMode) : Volume :=
  if speechMode = some .narratorVoiceover then voiceoverSourceVolume else defaultSourceVolumeLevel

end ShortReel.TimelineModel
