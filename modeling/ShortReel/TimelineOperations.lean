import ShortReel.TimelineModel

/-!
# Batch edits of a timeline

`lib/edit_timeline/operations.py`: the operations, one batch applied in order to the content of a
revision, the whole-batch checks of transition windows and BGM placement, and content differences.
-/

namespace ShortReel.TimelineOperations

open TimelineModel

def minTrimMicroseconds : ℕ := 100000
def maxHoldMicroseconds : ℕ := 10000000
def minTransitionMicroseconds : ℕ := 100000
def maxTransitionMicroseconds : ℕ := 2000000
def reasonMaxLength : ℕ := 200
def minBgmMicroseconds : ℕ := 1000000

structure TrimSpec where
  sourceIn : ℚ
  sourceOut : ℚ
  deriving DecidableEq, Repr

structure TransitionSpec where
  type : TransitionType
  duration : ℚ
  deriving DecidableEq, Repr

structure InsertClip where
  unitId : String
  after : Option ClipId
  sourceVolume : Option ℚ := none
  trim : Option TrimSpec := none
  hold : ℚ := 0
  reason : Option String := none
  transitionToNext : Option TransitionSpec := none
  deriving DecidableEq, Repr

structure InsertBgm where
  bgmId : String
  start : ℚ
  sourceIn : ℚ := 0
  sourceOut : Option ℚ := none
  volume : ℚ := defaultBgmVolume.val
  fadeIn : ℚ := defaultBgmFadeMicroseconds / 1000000
  fadeOut : ℚ := defaultBgmFadeMicroseconds / 1000000
  deriving DecidableEq, Repr

structure SetBgm where
  clip : ClipId
  start : Option ℚ := none
  sourceIn : Option ℚ := none
  sourceOut : Option ℚ := none
  volume : Option ℚ := none
  fadeIn : Option ℚ := none
  fadeOut : Option ℚ := none
  deriving DecidableEq, Repr

inductive TimelineOperation where
  | insert (operation : InsertClip)
  | delete (clip : ClipId)
  | move (clip : ClipId) (after : Option ClipId)
  | setTrim (clip : ClipId) (trim : Option TrimSpec)
  | setVolume (clip : ClipId) (volume : ℚ)
  | setHold (clip : ClipId) (hold : ℚ)
  | setReason (clip : ClipId) (reason : Option String)
  | setTransition (clip : ClipId) (transition : Option TransitionSpec)
  | placeNarration (clip : ClipId)
  | insertBgm (operation : InsertBgm)
  | setBgm (operation : SetBgm)
  | deleteBgm (clip : ClipId)
  deriving DecidableEq, Repr

inductive InvalidReason where
  | clipMissing (field : String)
  | unitDeleted (unitId : String)
  | videoMissing (unitId : String)
  | trimOutOfRange (spec : TrimSpec) (version : ℕ+) (whole : ℚ)
  | volumeOutOfRange (value : ℚ)
  | holdOutOfRange (value : ℚ)
  | reasonTooLong
  | transitionOutOfRange (value : ℚ)
  | noNextClip
  | unitNotInScript (unitId : String) (episode : ℕ)
  | notVoiceover (unitId : String)
  | afterItself
  | bgmClipMissing
  | bgmMissing (bgmId : String)
  | bgmRangeOutOfRange (sourceIn out : ℚ) (bgmId : String) (whole : ℚ)
  | bgmVolumeOutOfRange (value : ℚ)
  | negativeSeconds (field : String)
  | transitionWindow (durationUs totalUs : ℕ)
  | bgmStartOutside (startUs totalUs : ℕ)
  | bgmOverlap (other : ClipId) (startUs endUs : ℕ)
  deriving DecidableEq, Repr

def ClipId.text : ClipId → String
  | .c number => s!"c{(number : ℕ)}"
  | .b number => s!"b{(number : ℕ)}"
  | .other text => text

namespace InvalidReason

/-- The `field` parameter of the error. -/
def field : InvalidReason → String
  | clipMissing field => field
  | unitDeleted _ | videoMissing _ | trimOutOfRange _ _ _ => "trim"
  | volumeOutOfRange _ => "source_volume"
  | holdOutOfRange _ => "hold"
  | reasonTooLong => "reason"
  | transitionOutOfRange _ | transitionWindow _ _ => "transition.duration"
  | noNextClip => "transition"
  | unitNotInScript _ _ => "unit_id"
  | notVoiceover _ | bgmClipMissing => "clip"
  | afterItself => "after"
  | bgmMissing _ => "bgm_id"
  | bgmRangeOutOfRange _ _ _ _ => "source_in/source_out"
  | bgmVolumeOutOfRange _ => "volume"
  | negativeSeconds field => field
  | bgmStartOutside _ _ | bgmOverlap _ _ _ => "start"

section Texts

-- How the interpreter prints a float; every other part of a text is fixed.
variable (float : ℚ → String)

private def seconds (us : ℕ) : String := float (microsecondsToSeconds us)

/-- The `allowed` parameter of the error. -/
def allowed : InvalidReason → String
  | clipMissing _ => "当前修订里的片段 ID"
  | unitDeleted _ => "引用脚本中现有视频单元的片段"
  | videoMissing _ => "视频单元已有可用视频的片段"
  | trimOutOfRange _ _ whole =>
      s!"0 ≤ source_in < source_out ≤ {float whole}，且至少保留 {seconds float minTrimMicroseconds} 秒"
  | volumeOutOfRange _ | bgmVolumeOutOfRange _ => "0–1"
  | holdOutOfRange _ => s!"0–{seconds float maxHoldMicroseconds}"
  | reasonTooLong => s!"1–{reasonMaxLength} 个字符或 null"
  | transitionOutOfRange _ =>
      s!"{seconds float minTransitionMicroseconds}–{seconds float maxTransitionMicroseconds}"
  | noNextClip => "不是最后一个的片段"
  | unitNotInScript _ episode => s!"集（id={episode}）脚本中的视频单元 ID"
  | notVoiceover _ => "画外音单位的剪辑片段"
  | afterItself => "其他片段的 ID 或 null"
  | bgmClipMissing => "当前修订里的 BGM 片段 ID"
  | bgmMissing _ => "list_bgm 列出的 BGM ID"
  | bgmRangeOutOfRange _ _ _ whole =>
      s!"0 ≤ source_in < source_out ≤ {float whole}，且至少保留 {seconds float minBgmMicroseconds} 秒"
  | negativeSeconds _ => "≥ 0"
  | transitionWindow durationUs _ => s!"两侧转场时长之和 ≤ {seconds float (2 * durationUs)}"
  | bgmStartOutside _ totalUs => s!"0 ≤ start < {seconds float totalUs}"
  | bgmOverlap other _ _ => s!"不与 {ClipId.text other} 重叠的起点或更短的截取"

def message (reason : InvalidReason) : String :=
  match reason with
  | clipMissing _ => "剪辑片段不存在（或已在本批前面的操作中删除）"
  | unitDeleted unitId => s!"视频单元 {unitId} 已从脚本删除，不能截取"
  | videoMissing unitId => s!"视频单元 {unitId} 还没有可用视频，不能截取"
  | trimOutOfRange spec version whole =>
      s!"入出点 {float spec.sourceIn}–{float spec.sourceOut} 秒超出范围，current 视频（版本 {(version : ℕ)}）" ++
        s!"共 {float whole} 秒；合法范围：{reason.allowed float}"
  | volumeOutOfRange value => s!"原声音量 {float value} 超出范围；合法范围：0–1"
  | holdOutOfRange value => s!"定格延长 {float value} 秒超出范围；合法范围：{reason.allowed float} 秒"
  | reasonTooLong => s!"剪辑理由超过 {reasonMaxLength} 个字符"
  | transitionOutOfRange value =>
      s!"转场时长 {float value} 秒超出范围；合法范围：{reason.allowed float} 秒"
  | noNextClip => "它是最后一个剪辑片段，后面没有下一片段，不能设置转场"
  | unitNotInScript unitId episode => s!"视频单元 {unitId} 不在集（id={episode}）的脚本里"
  | notVoiceover unitId => s!"视频单元 {unitId} 不是脚本里的画外音单位，没有旁白可挂"
  | afterItself => "不能放到自己之后"
  | bgmClipMissing => "BGM 片段不存在（或已在本批前面的操作中删除）"
  | bgmMissing bgmId => s!"BGM {bgmId} 不在项目里（或文件已不在）"
  | bgmRangeOutOfRange sourceIn out bgmId whole =>
      s!"入出点 {float sourceIn}–{float out} 秒超出范围，BGM {bgmId} 共 {float whole} 秒；" ++
        s!"合法范围：{reason.allowed float}"
  | bgmVolumeOutOfRange value => s!"BGM 音量 {float value} 超出范围；合法范围：0–1"
  | negativeSeconds field => s!"{field} 不能为负数"
  | transitionWindow durationUs totalUs =>
      s!"片段时长 {seconds float durationUs} 秒，容不下两侧转场各占的一半：" ++
        s!"进出两个转场的时长之和须 ≤ {seconds float (2 * durationUs)} 秒，" ++
        s!"当前为 {seconds float totalUs} 秒"
  | bgmStartOutside startUs totalUs =>
      s!"起点 {seconds float startUs} 秒不在时间线内（时间线共 {seconds float totalUs} 秒）"
  | bgmOverlap other startUs endUs =>
      s!"与 BGM 片段 {ClipId.text other}（{seconds float startUs}–" ++
        s!"{seconds float endUs} 秒）重叠，同一时刻只能有一首 BGM"

end Texts

end InvalidReason

/-- An `operation_invalid` error. -/
structure OperationInvalid where
  operationIndex : ℕ
  clipId : Option ClipId := none
  reason : InvalidReason
  deriving DecidableEq, Repr

/-- The text `_invalid` puts together. -/
def OperationInvalid.text (float : ℚ → String) (error : OperationInvalid) : String :=
  let location := s!"第 {error.operationIndex + 1} 条操作（operations[{error.operationIndex}]）"
  let subject := match error.clipId with
    | some id => s!"片段 {ClipId.text id}："
    | none => ""
  location ++ subject ++ error.reason.message float

private def invalid {α : Type} (index : ℕ) (clipId : Option ClipId) (reason : InvalidReason) :
    Except OperationInvalid α :=
  .error ⟨index, clipId, reason⟩

abbrev LastOperation : Type := AList fun _ : ClipId => ℕ

/-- `_Batch`: the tracks being edited, the allocators and what the batch has named and changed. -/
structure Batch where
  clips : List EditClip
  bgm : List BgmClip
  nextClipNumber : ℕ+
  nextBgmNumber : ℕ+
  targets : List ClipId := []
  referenced : List ClipId := []
  lastOperation : LastOperation := ∅

def locate {α : Type} (idOf : α → ClipId) : List α → ClipId → Option (ℕ × α)
  | [], _ => none
  | item :: rest, id =>
      if idOf item = id then some (0, item)
      else (locate idOf rest id).map fun found => (found.1 + 1, found.2)

def nextIds : List EditClip → List (ClipId × Option ClipId)
  | [] => []
  | clip :: rest => (clip.id, rest.head?.map (·.id)) :: nextIds rest

def rewrittenIds (rewrite : ℕ → EditClip → EditClip) (clips : List EditClip) : List ClipId :=
  (clips.mapIdx fun position clip =>
    if rewrite position clip = clip then none else some clip.id).reduceOption

namespace Batch

variable (index : ℕ)

def start (content : EditTimelineContent) (nextClipNumber nextBgmNumber : ℕ+) : Batch where
  clips := content.clips
  bgm := content.bgm
  nextClipNumber := nextClipNumber
  nextBgmNumber := nextBgmNumber

def touch (id : ClipId) (batch : Batch) : Batch :=
  { batch with lastOperation := batch.lastOperation.insert id index }

def refer (id : ClipId) (asTarget : Bool) (batch : Batch) : Batch :=
  { batch with
    referenced := batch.referenced.insert id
    targets := if asTarget then batch.targets.insert id else batch.targets }

/-- `_position`, together with the clip standing there. -/
def position (clipId : ClipId) (field : String) (batch : Batch) :
    Except OperationInvalid (Batch × ℕ × EditClip) :=
  match locate EditClip.id batch.clips clipId with
  | some found => .ok (batch.refer clipId (field = "clip"), found)
  | none => invalid index clipId (.clipMissing field)

def insertionPoint (after : Option ClipId) (batch : Batch) : Except OperationInvalid (Batch × ℕ) :=
  match after with
  | none => .ok (batch, 0)
  | some anchor => do
      let (batch, position, _) ← batch.position index anchor "after"
      return (batch, position + 1)

/-- Rewrites main-track clips in place; a clip counts as touched when it really changes. -/
def rewriteClips (rewrite : ℕ → EditClip → EditClip) (batch : Batch) : Batch :=
  { batch with
    clips := batch.clips.mapIdx rewrite
    lastOperation := (rewrittenIds rewrite batch.clips).foldl
      (fun last id => last.insert id index) batch.lastOperation }

/-- `_replace`: the clip at one position, with some of its fields changed. -/
def replace (position : ℕ) (changes : EditClip → EditClip) (batch : Batch) : Batch :=
  batch.rewriteClips index fun other clip => if other = position then changes clip else clip

/-- `_reset_broken_cuts`: a transition whose clip is now followed by another clip goes back to a
hard cut. -/
def resetBrokenCuts (before : List (ClipId × Option ClipId)) (batch : Batch) : Batch :=
  let after := nextIds batch.clips
  batch.rewriteClips index fun _ clip =>
    if clip.transitionToNext.isSome ∧
        (before.lookup clip.id).any (fun next => after.lookup clip.id ≠ some next) then
      { clip with transitionToNext := none }
    else clip

end Batch

section FieldChecks

variable (index : ℕ) (clipId : Option ClipId) (sources : EpisodeSources)

def currentVideo (unitId : String) : Except OperationInvalid (ℕ+ × ℕ) :=
  match sources.unit unitId, sources.unitMedia unitId with
  | some _, some media =>
      match media.videoVersion, media.videoDurationUs with
      | some version, some duration => .ok (version, duration)
      | _, _ => invalid index clipId (.videoMissing unitId)
  | _, _ => invalid index clipId (.unitDeleted unitId)

/-- `_trim`: an out point at most one millisecond past the end is drawn back to it. -/
def checkTrim (unitId : String) (spec : Option TrimSpec) :
    Except OperationInvalid (Option ClipTrim) :=
  match spec with
  | none => .ok none
  | some spec => do
      let (version, wholeUs) ← currentVideo index clipId sources unitId
      let whole := microsecondsToSeconds wholeUs
      let inRange := 0 ≤ spec.sourceIn ∧ spec.sourceIn < spec.sourceOut ∧
        spec.sourceOut ≤ whole + 1 / 1000
      let inUs := if inRange then (secondsToMicroseconds spec.sourceIn).toNat else 0
      let roundedOutUs := if inRange then (secondsToMicroseconds spec.sourceOut).toNat else 0
      let outUs :=
        if wholeUs < roundedOutUs ∧ roundedOutUs ≤ wholeUs + 1000 then wholeUs else roundedOutUs
      if h : inRange ∧ outUs ≤ wholeUs ∧ minTrimMicroseconds ≤ outUs - inUs then
        return some ⟨inUs, outUs, version, by have := h.2.2; unfold minTrimMicroseconds at this; omega⟩
      else
        invalid index clipId (.trimOutOfRange spec version whole)

def checkVolume (value : ℚ) : Except OperationInvalid Volume :=
  if h : 0 ≤ value ∧ value ≤ 1 then .ok ⟨value, h⟩
  else invalid index clipId (.volumeOutOfRange value)

def checkHold (value : ℚ) : Except OperationInvalid ℕ :=
  if 0 ≤ value ∧ value ≤ microsecondsToSeconds maxHoldMicroseconds then
    .ok (secondsToMicroseconds value).toNat
  else invalid index clipId (.holdOutOfRange value)

/-- `str.isspace` for one character. -/
def isSpace (char : Char) : Bool :=
  let code := char.toNat
  (9 ≤ code ∧ code ≤ 13) ∨ (28 ≤ code ∧ code ≤ 32) ∨ code = 0x85 ∨ code = 0xa0 ∨ code = 0x1680 ∨
    (0x2000 ≤ code ∧ code ≤ 0x200a) ∨ code = 0x2028 ∨ code = 0x2029 ∨ code = 0x202f ∨
    code = 0x205f ∨ code = 0x3000

def strip (text : String) : String :=
  String.ofList ((text.toList.dropWhile isSpace).reverse.dropWhile isSpace).reverse

def checkReason (value : Option String) : Except OperationInvalid (Option String) :=
  let reason := (value.map strip).getD ""
  if reason = "" then .ok none
  else if reasonMaxLength < reason.length then invalid index clipId .reasonTooLong
  else .ok (some reason)

def checkTransition (spec : Option TransitionSpec) :
    Except OperationInvalid (Option Transition) :=
  match spec with
  | none => .ok none
  | some spec =>
      if microsecondsToSeconds minTransitionMicroseconds ≤ spec.duration ∧
          spec.duration ≤ microsecondsToSeconds maxTransitionMicroseconds then
        .ok (some ⟨spec.type, (secondsToMicroseconds spec.duration).toNat⟩)
      else invalid index clipId (.transitionOutOfRange spec.duration)

/-- `_seconds_at_least_zero`. -/
def checkSeconds (field : String) (value : ℚ) : Except OperationInvalid ℕ :=
  if value < 0 then invalid index clipId (.negativeSeconds field)
  else .ok (secondsToMicroseconds value).toNat

structure BgmRange where
  inUs : ℕ
  outUs : ℕ
  out_after_in : inUs < outUs

/-- `_bgm_range`: the whole rest of the file when no out point is given. -/
def checkBgmRange (bgmId : String) (sourceIn : ℚ) (sourceOut : Option ℚ) :
    Except OperationInvalid BgmRange :=
  match sources.bgmMedia bgmId with
  | none => invalid index clipId (.bgmMissing bgmId)
  | some media =>
      let whole := microsecondsToSeconds media.durationUs
      let out := sourceOut.getD whole
      let inRange := 0 ≤ sourceIn ∧ sourceIn < out ∧ out ≤ whole + 1 / 1000
      let inUs := if inRange then (secondsToMicroseconds sourceIn).toNat else 0
      let outUs := if inRange then min (secondsToMicroseconds out).toNat media.durationUs else 0
      if h : inRange ∧ min minBgmMicroseconds media.durationUs ≤ outUs - inUs then
        .ok ⟨inUs, outUs, by
          have hlength := h.2
          have hpos := media.duration_pos
          unfold minBgmMicroseconds at hlength
          omega⟩
      else invalid index clipId (.bgmRangeOutOfRange sourceIn out bgmId whole)

def checkBgmVolume (value : ℚ) : Except OperationInvalid Volume :=
  if h : 0 ≤ value ∧ value ≤ 1 then .ok ⟨value, h⟩
  else invalid index clipId (.bgmVolumeOutOfRange value)

/-- An optional field of `set_bgm`: left as it is when not given. -/
def orKeep {α β : Type} (given : Option α) (current : β) (check : α → Except OperationInvalid β) :
    Except OperationInvalid β :=
  match given with
  | none => .ok current
  | some value => check value

end FieldChecks

namespace Batch

variable (index : ℕ) (sources : EpisodeSources)

/-- `_require_next`: only a clip with a clip behind it may carry a transition. -/
def requireNext (position : ℕ) (transition : Option Transition) (batch : Batch) :
    Except OperationInvalid Unit :=
  if transition.isSome ∧ position + 1 = batch.clips.length then
    invalid index (batch.clips[position]?.map (·.id)) .noNextClip
  else .ok ()

def narrationCarried (unitId : String) (batch : Batch) : Bool :=
  batch.clips.any fun clip => clip.unitId = unitId && clip.carriesNarration

/-- The clip `_insert` builds, with the field checks in the order the source makes them. -/
def newClip (operation : InsertClip) (batch : Batch) : Except OperationInvalid EditClip :=
  match sources.unit operation.unitId with
  | none =>
      invalid index none (.unitNotInScript operation.unitId sources.script.episode)
  | some unit => do
      let trim ← checkTrim index none sources unit.unitId operation.trim
      let sourceVolume ← orKeep operation.sourceVolume (defaultSourceVolume unit.speechMode)
        (checkVolume index none)
      let holdUs ← checkHold index none operation.hold
      let reason ← checkReason index none operation.reason
      let transitionToNext ← checkTransition index none operation.transitionToNext
      return {
        number := batch.nextClipNumber
        unitId := unit.unitId
        trim, sourceVolume, holdUs, reason, transitionToNext
        carriesNarration := !batch.narrationCarried unit.unitId }

def insert (operation : InsertClip) (batch : Batch) : Except OperationInvalid Batch := do
  let clip ← batch.newClip index sources operation
  let before := nextIds batch.clips
  let (batch, position) ← batch.insertionPoint index operation.after
  let batch := { batch.touch index clip.id with
    clips := batch.clips.insertIdx position clip
    nextClipNumber := batch.nextClipNumber + 1 }
  batch.requireNext index position clip.transitionToNext
  return batch.resetBrokenCuts index before

def handOverNarration (removed : EditClip) (batch : Batch) : Batch :=
  if removed.carriesNarration then
    match batch.clips.findIdx? (·.unitId = removed.unitId) with
    | some heir => batch.replace index heir fun clip => { clip with carriesNarration := true }
    | none => batch
  else batch

def delete (clipId : ClipId) (batch : Batch) : Except OperationInvalid Batch := do
  let (batch, position, removed) ← batch.position index clipId "clip"
  let before := nextIds batch.clips
  let batch := { batch.touch index removed.id with clips := batch.clips.eraseIdx position }
  return (batch.handOverNarration index removed).resetBrokenCuts index before

def move (clipId : ClipId) (after : Option ClipId) (batch : Batch) :
    Except OperationInvalid Batch := do
  let (batch, position, moving) ← batch.position index clipId "clip"
  if after = some clipId then invalid index clipId .afterItself
  else
    let before := nextIds batch.clips
    let batch := { batch with clips := batch.clips.eraseIdx position }
    let (batch, destination) ← batch.insertionPoint index after
    let batch := if destination ≠ position then batch.touch index moving.id else batch
    let batch := { batch with clips := batch.clips.insertIdx destination moving }
    return batch.resetBrokenCuts index before

def setTrim (clipId : ClipId) (spec : Option TrimSpec) (batch : Batch) :
    Except OperationInvalid Batch := do
  let (batch, position, clip) ← batch.position index clipId "clip"
  let trim ← checkTrim index clipId sources clip.unitId spec
  return batch.replace index position fun clip => { clip with trim }

def setVolume (clipId : ClipId) (volume : ℚ) (batch : Batch) : Except OperationInvalid Batch := do
  let (batch, position, _) ← batch.position index clipId "clip"
  let sourceVolume ← checkVolume index clipId volume
  return batch.replace index position fun clip => { clip with sourceVolume }

def setHold (clipId : ClipId) (hold : ℚ) (batch : Batch) : Except OperationInvalid Batch := do
  let (batch, position, _) ← batch.position index clipId "clip"
  let holdUs ← checkHold index clipId hold
  return batch.replace index position fun clip => { clip with holdUs }

def setReason (clipId : ClipId) (reason : Option String) (batch : Batch) :
    Except OperationInvalid Batch := do
  let (batch, position, _) ← batch.position index clipId "clip"
  let reason ← checkReason index clipId reason
  return batch.replace index position fun clip => { clip with reason }

def setTransition (clipId : ClipId) (spec : Option TransitionSpec) (batch : Batch) :
    Except OperationInvalid Batch := do
  let (batch, position, _) ← batch.position index clipId "clip"
  let transitionToNext ← checkTransition index clipId spec
  batch.requireNext index position transitionToNext
  return batch.replace index position fun clip => { clip with transitionToNext }

/-- `_place_narration`: the other clips of the unit put the narration down, the named one takes
it up. -/
def placeNarration (clipId : ClipId) (batch : Batch) : Except OperationInvalid Batch := do
  let (batch, position, target) ← batch.position index clipId "clip"
  if (sources.unit target.unitId).bind (·.speechMode) = some .narratorVoiceover then
    let batch := batch.rewriteClips index fun other clip =>
      if clip.unitId = target.unitId ∧ other ≠ position then
        { clip with carriesNarration := false }
      else clip
    return batch.replace index position fun clip => { clip with carriesNarration := true }
  else invalid index clipId (.notVoiceover target.unitId)

/-- `_bgm_position`, together with the clip standing there. -/
def bgmPosition (clipId : ClipId) (batch : Batch) :
    Except OperationInvalid (Batch × ℕ × BgmClip) :=
  match locate BgmClip.id batch.bgm clipId with
  | some found => .ok (batch.refer clipId true, found)
  | none => invalid index clipId .bgmClipMissing

def newBgm (operation : InsertBgm) (batch : Batch) : Except OperationInvalid BgmClip := do
  let range ← checkBgmRange index none sources operation.bgmId operation.sourceIn operation.sourceOut
  let startUs ← checkSeconds index none "start" operation.start
  let volume ← checkBgmVolume index none operation.volume
  let fadeInUs ← checkSeconds index none "fade_in" operation.fadeIn
  let fadeOutUs ← checkSeconds index none "fade_out" operation.fadeOut
  return {
    number := batch.nextBgmNumber
    bgmId := operation.bgmId
    inUs := range.inUs
    outUs := range.outUs
    out_after_in := range.out_after_in
    startUs, volume, fadeInUs, fadeOutUs }

def insertBgm (operation : InsertBgm) (batch : Batch) : Except OperationInvalid Batch := do
  let clip ← batch.newBgm index sources operation
  return { batch.touch index clip.id with
    bgm := batch.bgm ++ [clip]
    nextBgmNumber := batch.nextBgmNumber + 1 }

def changedRange (operation : SetBgm) (current : BgmClip) : Except OperationInvalid BgmRange :=
  if operation.sourceIn.isSome ∨ operation.sourceOut.isSome then
    checkBgmRange index operation.clip sources current.bgmId
      (operation.sourceIn.getD (microsecondsToSeconds current.inUs))
      (operation.sourceOut.getD (microsecondsToSeconds current.outUs))
  else .ok ⟨current.inUs, current.outUs, current.out_after_in⟩

/-- The clip `_set_bgm` replaces the current one by. -/
def changedBgm (operation : SetBgm) (current : BgmClip) : Except OperationInvalid BgmClip := do
  let clipId := some operation.clip
  let range ← changedRange index sources operation current
  let startUs ← orKeep operation.start current.startUs (checkSeconds index clipId "start")
  let volume ← orKeep operation.volume current.volume (checkBgmVolume index clipId)
  let fadeInUs ← orKeep operation.fadeIn current.fadeInUs (checkSeconds index clipId "fade_in")
  let fadeOutUs ← orKeep operation.fadeOut current.fadeOutUs (checkSeconds index clipId "fade_out")
  return { current with
    inUs := range.inUs
    outUs := range.outUs
    out_after_in := range.out_after_in
    startUs, volume, fadeInUs, fadeOutUs }

def setBgm (operation : SetBgm) (batch : Batch) : Except OperationInvalid Batch := do
  let (batch, position, current) ← batch.bgmPosition index operation.clip
  let updated ← changedBgm index sources operation current
  if updated = current then return batch
  else return { batch.touch index updated.id with bgm := batch.bgm.set position updated }

def deleteBgm (clipId : ClipId) (batch : Batch) : Except OperationInvalid Batch := do
  let (batch, position, removed) ← batch.bgmPosition index clipId
  return { batch.touch index removed.id with bgm := batch.bgm.eraseIdx position }

def apply (operation : TimelineOperation) (batch : Batch) : Except OperationInvalid Batch :=
  match operation with
  | .insert operation => batch.insert index sources operation
  | .delete clip => batch.delete index clip
  | .move clip after => batch.move index clip after
  | .setTrim clip trim => batch.setTrim index sources clip trim
  | .setVolume clip volume => batch.setVolume index clip volume
  | .setHold clip hold => batch.setHold index clip hold
  | .setReason clip reason => batch.setReason index clip reason
  | .setTransition clip transition => batch.setTransition index clip transition
  | .placeNarration clip => batch.placeNarration index sources clip
  | .insertBgm operation => batch.insertBgm index sources operation
  | .setBgm operation => batch.setBgm index sources operation
  | .deleteBgm clip => batch.deleteBgm index clip

/-- The operations of a batch in order, numbered from `index`. -/
def applyAll (sources : EpisodeSources) :
    ℕ → List TimelineOperation → Batch → Except OperationInvalid Batch
  | _, [], batch => .ok batch
  | index, operation :: rest, batch => do
      let batch ← batch.apply index sources operation
      batch.applyAll sources (index + 1) rest

/-- `_duration_us`: unknown for a clip whose unit left the script or whose media is unknown. -/
def durationUs (clip : EditClip) : Option ℕ :=
  match sources.unit clip.unitId, sources.unitMedia clip.unitId with
  | some unit, some media =>
      some (clipSourceDurationUs clip media unit.scriptedDurationUs + clip.holdUs)
  | _, _ => none

def transitionUs (transition : Option Transition) : ℕ :=
  (transition.map (·.durationUs)).getD 0

/-- One clip of `check_transition_windows`: the window of a clip is checked when the batch changed
the clip or the one before it. -/
def checkTransitionWindow (last : LastOperation) (previous : Option EditClip) (clip : EditClip) :
    Except OperationInvalid Unit :=
  let indexes := (previous.toList ++ [clip]).filterMap fun item => last.lookup item.id
  let totalUs := transitionUs (previous.bind (·.transitionToNext)) +
    transitionUs clip.transitionToNext
  match indexes.max?, durationUs sources clip with
  | some index, some duration =>
      if totalUs = 0 ∨ totalUs ≤ 2 * duration then .ok ()
      else invalid index clip.id (.transitionWindow duration totalUs)
  | _, _ => .ok ()

def checkTransitionWindows (last : LastOperation) :
    Option EditClip → List EditClip → Except OperationInvalid Unit
  | _, [] => .ok ()
  | previous, clip :: rest => do
      checkTransitionWindow sources last previous clip
      checkTransitionWindows last (some clip) rest

def timelineDurationUs (clips : List EditClip) : ℕ :=
  (clips.filterMap (durationUs sources)).sum

def bgmOrder (left right : BgmClip) : Prop :=
  left.startUs < right.startUs ∨ (left.startUs = right.startUs ∧ left.number ≤ right.number)

instance : DecidableRel bgmOrder := fun _ _ => inferInstanceAs (Decidable (_ ∨ _))

def bgmEndUs (clip : BgmClip) : ℕ :=
  clip.startUs + bgmClipLengthUs clip

def checkBgmStart (totalUs : ℕ) (last : LastOperation) (clip : BgmClip) :
    Except OperationInvalid Unit :=
  match last.lookup clip.id with
  | some index =>
      if totalUs ≤ clip.startUs then
        invalid index clip.id (.bgmStartOutside clip.startUs totalUs)
      else .ok ()
  | none => .ok ()

/-- Two BGM clips that follow each other on the timeline; an overlap is only reported when the
batch changed one of them. -/
def checkBgmPair (last : LastOperation) (previous following : BgmClip) :
    Except OperationInvalid Unit :=
  if bgmEndUs previous ≤ following.startUs then .ok ()
  else
    match ([previous, following].filterMap fun clip => last.lookup clip.id).max? with
    | none => .ok ()
    | some index =>
        let (subject, other) :=
          if following.id ∈ last then (following, previous) else (previous, following)
        invalid index subject.id (.bgmOverlap other.id other.startUs (bgmEndUs other))

def checkBgmPairs (last : LastOperation) : List BgmClip → Except OperationInvalid Unit
  | previous :: following :: rest => do
      checkBgmPair last previous following
      checkBgmPairs last (following :: rest)
  | _ => .ok ()

def checkBgm (batch : Batch) : Except OperationInvalid Unit := do
  let touched := batch.bgm.filter (·.id ∈ batch.lastOperation)
  if touched = [] then return ()
  else
    touched.forM
      (checkBgmStart (timelineDurationUs sources batch.clips) batch.lastOperation)
    checkBgmPairs batch.lastOperation (batch.bgm.insertionSort bgmOrder)

end Batch

/-- A batch that went through, as `AppliedBatch`. -/
structure AppliedBatch where
  content : EditTimelineContent
  nextClipNumber : ℕ+
  nextBgmNumber : ℕ+
  targets : List ClipId
  referenced : List ClipId
  lastOperation : LastOperation

inductive ApplyError where
  | operationInvalid (error : OperationInvalid)
  | contentInvalid (error : ContentError)
  deriving DecidableEq, Repr

/-- `apply_operations`; the whole-batch checks are skipped in the dry runs of a conflict check. -/
def applyOperations (content : EditTimelineContent) (nextClipNumber nextBgmNumber : ℕ+)
    (operations : List TimelineOperation) (sources : EpisodeSources) (checkWindows : Bool := true) :
    Except ApplyError AppliedBatch := do
  let start := Batch.start content nextClipNumber nextBgmNumber
  let batch ← (start.applyAll sources 0 operations).mapError .operationInvalid
  if checkWindows then
    (Batch.checkTransitionWindows sources batch.lastOperation none batch.clips).mapError
      .operationInvalid
    (batch.checkBgm sources).mapError .operationInvalid
  let content ← (validateContent batch.clips (batch.bgm.insertionSort Batch.bgmOrder)).mapError
    .contentInvalid
  return {
    content
    nextClipNumber := batch.nextClipNumber
    nextBgmNumber := batch.nextBgmNumber
    targets := batch.targets
    referenced := batch.referenced
    lastOperation := batch.lastOperation }

end ShortReel.TimelineOperations
