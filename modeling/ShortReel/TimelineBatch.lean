import ShortReel.TimelineFrame

/-!
# What the operations of a batch do

One description of each operation that goes through: where it finds its clip, what becomes of the
order of the main track, and which clips it may rewrite.
-/

namespace ShortReel.TimelineBatch

open TimelineModel TimelineOperations TimelineTrack

open TimelineOperations.Batch

variable {index : ℕ} {sources : EpisodeSources} {batch result : Batch}

theorem requireNext_ok {position : ℕ} {transition : Option Transition}
    (h : batch.requireNext index position transition = .ok ()) :
    transition.isSome → position + 1 ≠ batch.clips.length := by
  unfold requireNext at h
  split at h
  · cases h
  · rename_i hnot
    exact fun hsome heq => hnot ⟨hsome, heq⟩

theorem newClip_ok {operation : InsertClip} {clip : EditClip}
    (h : batch.newClip index sources operation = .ok clip) :
    clip.number = batch.nextClipNumber ∧
      clip.carriesNarration = !batch.narrationCarried clip.unitId := by
  unfold newClip at h
  split at h
  · cases h
  · simp only [bind_eq_ok] at h
    obtain ⟨trim, -, volume, -, hold, -, reason, -, transition, -, heq⟩ := h
    cases heq
    exact ⟨rfl, rfl⟩

/-- The batch right after `_insert` has put its clip on the track. -/
def placed (index : ℕ) (clip : EditClip) (position : ℕ) (batch : Batch) : Batch :=
  { batch.touch index clip.id with
    clips := batch.clips.insertIdx position clip
    nextClipNumber := batch.nextClipNumber + 1 }

theorem insert_ok {operation : InsertClip} (h : batch.insert index sources operation = .ok result) :
    ∃ clip named position, batch.newClip index sources operation = .ok clip ∧
      batch.insertionPoint index operation.after = .ok (named, position) ∧
      (clip.transitionToNext.isSome → position + 1 ≠ (placed index clip position named).clips.length) ∧
      result = (placed index clip position named).resetBrokenCuts index (nextIds batch.clips) := by
  simp only [TimelineOperations.Batch.insert, bind_eq_ok] at h
  obtain ⟨clip, hclip, ⟨named, position⟩, hpoint, ⟨⟩, hnext, heq⟩ := h
  cases heq
  exact ⟨clip, named, position, hclip, hpoint, requireNext_ok hnext, rfl⟩

/-- The batch right after `_delete` has taken its clip off the track. -/
def removed (index : ℕ) (clip : EditClip) (position : ℕ) (batch : Batch) : Batch :=
  { batch.touch index clip.id with clips := batch.clips.eraseIdx position }

theorem delete_ok {clipId : ClipId} (h : batch.delete index clipId = .ok result) :
    ∃ position clip front back, Found batch.clips clipId position clip front back ∧
      result = ((removed index clip position (batch.refer clipId true)).handOverNarration index
        clip).resetBrokenCuts index (nextIds batch.clips) := by
  simp only [TimelineOperations.Batch.delete, bind_eq_ok] at h
  obtain ⟨⟨named, position, clip⟩, hposition, heq⟩ := h
  obtain ⟨rfl, front, back, found⟩ := position_ok hposition
  cases heq
  exact ⟨position, clip, front, back, found, rfl⟩

/-- The batch right after `_move` has put its clip back on the track. -/
def moved (index : ℕ) (clip : EditClip) (position destination : ℕ) (batch : Batch) : Batch :=
  let batch := if destination ≠ position then batch.touch index clip.id else batch
  { batch with clips := batch.clips.insertIdx destination clip }

theorem move_ok {clipId : ClipId} {after : Option ClipId}
    (h : batch.move index clipId after = .ok result) :
    ∃ position clip front back named destination,
      Found batch.clips clipId position clip front back ∧ after ≠ some clipId ∧
      ({ batch.refer clipId true with clips := batch.clips.eraseIdx position } : Batch).insertionPoint
        index after = .ok (named, destination) ∧
      result = (moved index clip position destination named).resetBrokenCuts index
        (nextIds batch.clips) := by
  simp only [TimelineOperations.Batch.move, bind_eq_ok] at h
  obtain ⟨⟨named, position, clip⟩, hposition, h⟩ := h
  obtain ⟨rfl, front, back, found⟩ := position_ok hposition
  split at h
  · cases h
  · rename_i hself
    simp only [bind_eq_ok] at h
    obtain ⟨⟨anchored, destination⟩, hpoint, heq⟩ := h
    cases heq
    exact ⟨position, clip, front, back, anchored, destination, found, hself, hpoint, rfl⟩

theorem setField_ok {operation : TimelineOperation} {clipId : ClipId}
    (hfield : (∃ spec, operation = .setTrim clipId spec) ∨
      (∃ volume, operation = .setVolume clipId volume) ∨
      (∃ hold, operation = .setHold clipId hold) ∨ ∃ reason, operation = .setReason clipId reason)
    (h : batch.apply index sources operation = .ok result) :
    ∃ position clip front back changes, Found batch.clips clipId position clip front back ∧
      (∀ clip : EditClip, (changes clip).number = clip.number ∧
        (changes clip).unitId = clip.unitId ∧
        (changes clip).carriesNarration = clip.carriesNarration ∧
        (changes clip).transitionToNext = clip.transitionToNext) ∧
      result = (batch.refer clipId true).replace index position changes := by
  rcases hfield with ⟨spec, rfl⟩ | ⟨volume, rfl⟩ | ⟨hold, rfl⟩ | ⟨reason, rfl⟩
  all_goals
    simp only [apply, setTrim, setVolume, setHold, setReason, bind_eq_ok] at h
    obtain ⟨⟨named, position, clip⟩, hposition, value, -, heq⟩ := h
    obtain ⟨rfl, front, back, found⟩ := position_ok hposition
    cases heq
    refine ⟨position, clip, front, back, _, found, ?_, rfl⟩
    exact fun _ => ⟨rfl, rfl, rfl, rfl⟩

theorem setTransition_ok {clipId : ClipId} {spec : Option TransitionSpec}
    (h : batch.setTransition index clipId spec = .ok result) :
    ∃ position clip front back transition, Found batch.clips clipId position clip front back ∧
      (transition.isSome → position + 1 ≠ batch.clips.length) ∧
      result = (batch.refer clipId true).replace index position
        fun clip => { clip with transitionToNext := transition } := by
  simp only [setTransition, bind_eq_ok] at h
  obtain ⟨⟨named, position, clip⟩, hposition, transition, -, ⟨⟩, hnext, heq⟩ := h
  obtain ⟨rfl, front, back, found⟩ := position_ok hposition
  cases heq
  exact ⟨position, clip, front, back, transition, found, requireNext_ok hnext, rfl⟩

/-- How `placeNarration` first rewrites the track: the other clips of the unit put the narration
down. -/
def putDown (unitId : String) (position : ℕ) (other : ℕ) (clip : EditClip) : EditClip :=
  if clip.unitId = unitId ∧ other ≠ position then { clip with carriesNarration := false } else clip

theorem placeNarration_ok {clipId : ClipId}
    (h : batch.placeNarration index sources clipId = .ok result) :
    ∃ position clip front back, Found batch.clips clipId position clip front back ∧
      result = ((batch.refer clipId true).rewriteClips index (putDown clip.unitId position)).replace
        index position fun clip => { clip with carriesNarration := true } := by
  simp only [placeNarration, bind_eq_ok] at h
  obtain ⟨⟨named, position, clip⟩, hposition, h⟩ := h
  obtain ⟨rfl, front, back, found⟩ := position_ok hposition
  split at h
  · cases h
    exact ⟨position, clip, front, back, found, rfl⟩
  · cases h

theorem newBgm_ok {operation : InsertBgm} {clip : BgmClip}
    (h : batch.newBgm index sources operation = .ok clip) : clip.number = batch.nextBgmNumber := by
  simp only [newBgm, bind_eq_ok] at h
  obtain ⟨range, -, start, -, volume, -, fadeIn, -, fadeOut, -, heq⟩ := h
  cases heq
  rfl

theorem insertBgm_ok {operation : InsertBgm}
    (h : batch.insertBgm index sources operation = .ok result) :
    ∃ clip, clip.number = batch.nextBgmNumber ∧
      result = { batch.touch index clip.id with
        bgm := batch.bgm ++ [clip]
        nextBgmNumber := batch.nextBgmNumber + 1 } := by
  simp only [insertBgm, bind_eq_ok] at h
  obtain ⟨clip, hclip, heq⟩ := h
  cases heq
  exact ⟨clip, newBgm_ok hclip, rfl⟩

theorem changedBgm_ok {operation : SetBgm} {current updated : BgmClip}
    (h : changedBgm index sources operation current = .ok updated) :
    updated.number = current.number ∧ updated.bgmId = current.bgmId := by
  simp only [changedBgm, bind_eq_ok] at h
  obtain ⟨range, -, start, -, volume, -, fadeIn, -, fadeOut, -, heq⟩ := h
  cases heq
  exact ⟨rfl, rfl⟩

theorem setBgm_ok {operation : SetBgm} (h : batch.setBgm index sources operation = .ok result) :
    ∃ front back current updated, batch.bgm = front ++ current :: back ∧
      updated.number = current.number ∧ updated.bgmId = current.bgmId ∧
      (result = batch.refer operation.clip true ∨
        result = { (batch.refer operation.clip true).touch index updated.id with
          bgm := front ++ updated :: back }) := by
  simp only [setBgm, bind_eq_ok] at h
  obtain ⟨⟨named, position, current⟩, hposition, updated, hupdated, h⟩ := h
  obtain ⟨rfl, front, back, hsplit, rfl, -⟩ := bgmPosition_ok hposition
  obtain ⟨hnumber, htune⟩ := changedBgm_ok hupdated
  refine ⟨front, back, current, updated, hsplit, hnumber, htune, ?_⟩
  split at h
  · cases h
    exact Or.inl rfl
  · cases h
    right
    simp [refer, hsplit]

theorem deleteBgm_ok {clipId : ClipId} (h : batch.deleteBgm index clipId = .ok result) :
    ∃ front back clip, batch.bgm = front ++ clip :: back ∧
      result = { (batch.refer clipId true).touch index clip.id with bgm := front ++ back } := by
  simp only [deleteBgm, bind_eq_ok] at h
  obtain ⟨⟨named, position, clip⟩, hposition, heq⟩ := h
  obtain ⟨rfl, front, back, hsplit, rfl, -⟩ := bgmPosition_ok hposition
  cases heq
  refine ⟨front, back, clip, hsplit, ?_⟩
  simp [refer, hsplit, List.eraseIdx_append_of_length_le]

end ShortReel.TimelineBatch
