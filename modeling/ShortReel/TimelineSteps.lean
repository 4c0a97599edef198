import ShortReel.TimelineBatch

/-!
# Batches as runs of steps

Every operation is a step: it keeps the frame, edits the order of the main track by anchors, and
leaves no transition on a cut it broke. A batch is a run of such steps.
-/

namespace ShortReel.TimelineSteps

open OrderEdits TimelineModel TimelineOperations TimelineTrack TimelineFrame TimelineBatch

open TimelineOperations.Batch

variable {index : ℕ} {sources : EpisodeSources} {batch result : Batch}

theorem mem_touch {id other : ClipId} :
    other ∈ (batch.touch index id).lastOperation ↔ other = id ∨ other ∈ batch.lastOperation :=
  AList.mem_insert _

theorem filter_untouched_split {last : LastOperation} {clip : EditClip} (h : clip.id ∈ last)
    (front back : List EditClip) :
    (front ++ clip :: back).filter (·.id ∉ last) = (front ++ back).filter (·.id ∉ last) := by
  simp [h]

theorem frame_placed {clip : EditClip} {front back : List EditClip}
    (hclips : batch.clips = front ++ back) (hnumber : clip.number = batch.nextClipNumber) :
    Frame batch (placed index clip front.length batch) where
  touched := fun _ h => mem_touch.mpr (Or.inr h)
  referenced := fun _ h => h
  clips := by
    have hplaced : (placed index clip front.length batch).clips = front ++ clip :: back := by
      simp only [placed, hclips, insertIdx_append_length]
    rw [hplaced, hclips]
    exact filter_untouched_split (mem_touch.mpr (Or.inl rfl)) front back
  bgm := rfl
  nextClipNumber := (PNat.lt_add_right _ _).le
  nextBgmNumber := le_refl _
  units := by
    intro other hother
    simp only [placed, hclips, insertIdx_append_length, List.mem_append, List.mem_cons] at hother
    rcases hother with hother | rfl | hother
    · exact Or.inl ⟨other, by simp [hclips, hother], rfl, rfl⟩
    · exact Or.inr ⟨hnumber.ge, by rw [hnumber]; exact PNat.lt_add_right _ _⟩
    · exact Or.inl ⟨other, by simp [hclips, hother], rfl, rfl⟩
  tunes := fun clip h => Or.inl ⟨clip, h, rfl, rfl⟩

theorem frame_removed {clipId : ClipId} {position : ℕ} {clip : EditClip}
    {front back : List EditClip} (found : Found batch.clips clipId position clip front back) :
    Frame batch (removed index clip position batch) :=
  { Frame.refl batch with
    touched := fun _ h => mem_touch.mpr (Or.inr h)
    clips := by
      have hremoved : (removed index clip position batch).clips = front ++ back := found.eraseIdx
      rw [hremoved, found.split]
      exact (filter_untouched_split (mem_touch.mpr (Or.inl rfl)) front back).symm
    bgm := rfl
    units := by
      intro other hother
      simp only [removed, found.eraseIdx, List.mem_append] at hother
      refine Or.inl ⟨other, ?_, rfl, rfl⟩
      rw [found.split]
      rcases hother with h | h <;> simp [h] }

theorem frame_moved {clipId : ClipId} {position destination : ℕ} {clip : EditClip}
    {front back left right : List EditClip} (found : Found batch.clips clipId position clip front back)
    (hclips : front ++ back = left ++ right) (hdestination : destination = left.length) :
    Frame batch (moved index clip position destination
      { batch with clips := front ++ back }) := by
  by_cases hstays : destination = position
  · have hback : (front ++ back).insertIdx destination clip = batch.clips := by
      rw [hstays, found.position, insertIdx_append_length, found.split]
    have hsame : moved index clip position destination { batch with clips := front ++ back } =
        batch := by
      unfold moved
      rw [if_neg (by simpa using hstays)]
      simp [hback]
    rw [hsame]
    exact Frame.refl batch
  · have hmoved : moved index clip position destination { batch with clips := front ++ back } =
        { batch.touch index clip.id with clips := left ++ clip :: right } := by
      unfold moved
      rw [if_pos hstays]
      simp [touch, hclips, hdestination, insertIdx_append_length]
    rw [hmoved]
    have htouched : clip.id ∈ (batch.touch index clip.id).lastOperation :=
      mem_touch.mpr (Or.inl rfl)
    exact { Frame.refl batch with
      touched := fun _ h => mem_touch.mpr (Or.inr h)
      clips := by
        rw [found.split, filter_untouched_split htouched, filter_untouched_split htouched, hclips]
      bgm := rfl
      units := by
        intro other hother
        have hmem : other ∈ batch.clips := by
          have hperm : other = clip ∨ other ∈ front ++ back := by
            rw [hclips]
            simpa [or_left_comm] using hother
          rw [found.split]
          simpa [or_left_comm] using hperm
        exact Or.inl ⟨other, hmem, rfl, rfl⟩ }

theorem handOverNarration_cases (index : ℕ) (batch : Batch) (clip : EditClip) :
    batch.handOverNarration index clip = batch ∨
      ∃ heir, batch.handOverNarration index clip =
        batch.replace index heir fun clip => { clip with carriesNarration := true } := by
  unfold handOverNarration
  split
  · split
    · rename_i heir _
      exact Or.inr ⟨heir, rfl⟩
    · exact Or.inl rfl
  · exact Or.inl rfl

theorem keepsIdentity_takeUp (position : ℕ) :
    KeepsIdentity fun other clip =>
      if other = position then { clip with carriesNarration := true } else clip :=
  keepsIdentity_replace fun _ => ⟨rfl, rfl⟩

theorem frame_handOverNarration (clip : EditClip) :
    Frame batch (batch.handOverNarration index clip) := by
  rcases handOverNarration_cases index batch clip with heq | ⟨heir, heq⟩
  · rw [heq]
    exact Frame.refl batch
  · rw [heq]
    exact frame_rewriteClips (keepsIdentity_takeUp heir)

theorem mem_handOverNarration {clip other : EditClip}
    (h : other ∈ (batch.handOverNarration index clip).clips) :
    ∃ old ∈ batch.clips, old.id = other.id ∧ old.transitionToNext = other.transitionToNext := by
  rcases handOverNarration_cases index batch clip with heq | ⟨heir, heq⟩
  · rw [heq] at h
    exact ⟨other, h, rfl, rfl⟩
  · rw [heq] at h
    obtain ⟨position, hlt, rfl⟩ := List.mem_mapIdx.mp h
    refine ⟨batch.clips[position], List.getElem_mem hlt, ?_⟩
    dsimp only
    split <;> exact ⟨rfl, rfl⟩

theorem clipIds_handOverNarration (clip : EditClip) :
    clipIds (batch.handOverNarration index clip).clips = clipIds batch.clips := by
  rcases handOverNarration_cases index batch clip with heq | ⟨heir, heq⟩
  · rw [heq]
  · rw [heq]
    exact clipIds_mapIdx (keepsIdentity_takeUp heir) batch.clips

def PlainEnd (clips : List EditClip) : Prop :=
  ∀ clip ∈ clips.getLast?, clip.transitionToNext = none

theorem eq_of_id_eq {clips : List EditClip} (hnodup : (clipIds clips).Nodup)
    {first second : EditClip} (hfirst : first ∈ clips) (hsecond : second ∈ clips)
    (hid : first.id = second.id) : first = second :=
  List.inj_on_of_nodup_map hnodup hfirst hsecond hid

/-- The state of a batch after the order of the track has changed and before broken cuts are
reset: transitions are those of before, and a new last clip has none. -/
structure Reordered (track : List EditClip) (middle : Batch) : Prop where
  origin : ∀ clip ∈ middle.clips, clip.transitionToNext.isSome → clip.id ∈ clipIds track →
    ∃ old ∈ track, old.id = clip.id ∧ old.transitionToNext.isSome
  new : ∀ clip ∈ middle.clips.getLast?, clip.id ∉ clipIds track → clip.transitionToNext = none

theorem reordered_of_kept {track : List EditClip} {middle : Batch}
    (h : ∀ clip ∈ middle.clips, ∃ old ∈ track, old.id = clip.id ∧
      old.transitionToNext = clip.transitionToNext) : Reordered track middle where
  origin := by
    intro clip hclip hsome _
    obtain ⟨old, hold, hid, htransition⟩ := h clip hclip
    exact ⟨old, hold, hid, htransition ▸ hsome⟩
  new := by
    intro clip hclip hnew
    obtain ⟨old, hold, hid, -⟩ := h clip (List.mem_of_getLast? hclip)
    exact absurd (hid ▸ id_mem_clipIds hold) hnew

theorem plainEnd_resetBrokenCuts {track : List EditClip} (reordered : Reordered track batch)
    (htrack : (clipIds track).Nodup) (hnodup : (clipIds batch.clips).Nodup)
    (hplain : PlainEnd track) :
    PlainEnd (batch.resetBrokenCuts index (nextIds track)).clips := by
  intro clip hclip
  by_contra hsome
  rw [← ne_eq, ← Option.isSome_iff_ne_none] at hsome
  have hmem := List.mem_of_getLast? hclip
  obtain ⟨hbatch, hcut⟩ := cuts_resetBrokenCuts hmem hsome
  -- The last clip kept its transition, so the reset left it as it was.
  have hlast : batch.clips.getLast? = some clip := by
    rw [resetBrokenCuts_clips, List.getLast?_mapIdx] at hclip
    obtain ⟨last, hlast, heq⟩ := Option.map_eq_some_iff.mp hclip
    have hkept := (resetCut_of_isSome track (List.mem_of_getLast? hlast)
      (by rw [heq]; exact hsome)).1
    rw [hlast, ← heq, hkept]
  by_cases hold : clip.id ∈ clipIds track
  · have hnone : nextOf (clipIds track) clip.id = none := by
      rw [← hcut hold]
      obtain ⟨front, hfront⟩ := List.getLast?_eq_some_iff.mp hlast
      rw [hfront, clipIds_append] at hnodup ⊢
      exact nextOf_concat (by
        have := (List.nodup_append.mp hnodup).2.2
        intro hin
        exact this _ hin clip.id (by simp) rfl)
    obtain ⟨old, holdmem, hid, holdsome⟩ := reordered.origin clip hbatch hsome hold
    have hlastid := getLast?_of_nextOf_none hold hnone
    rw [clipIds, List.getLast?_map] at hlastid
    obtain ⟨last, hlasttrack, hlasteq⟩ := Option.map_eq_some_iff.mp hlastid
    have hsame : last = old :=
      eq_of_id_eq htrack (List.mem_of_getLast? hlasttrack) holdmem (hlasteq.trans hid.symm)
    rw [← hsame, hplain last hlasttrack] at holdsome
    cases holdsome
  · rw [reordered.new clip hlast hold] at hsome
    cases hsome

def orderEdits (nextClipNumber : ℕ+) : TimelineOperation → List (OrderEdit ClipId)
  | .insert operation => [.insert (.c nextClipNumber) operation.after]
  | .delete clip => [.remove clip]
  | .move clip after => [.move clip after]
  | _ => []

def numberAfter (nextClipNumber : ℕ+) : TimelineOperation → ℕ+
  | .insert _ => nextClipNumber + 1
  | _ => nextClipNumber

def Below (batch : Batch) : Prop :=
  ∀ clip ∈ batch.clips, clip.number < batch.nextClipNumber

theorem Below.notMem {batch : Batch} (h : Below batch) :
    .c batch.nextClipNumber ∉ clipIds batch.clips := by
  intro hmem
  obtain ⟨clip, hclip, hid⟩ := mem_clipIds.mp hmem
  have hnumber : clip.number = batch.nextClipNumber := by simpa [EditClip.id] using hid
  exact absurd (h clip hclip) (by simp [hnumber])

structure Step (operation : TimelineOperation) (batch result : Batch) : Prop where
  frame : Frame batch result
  order : clipIds result.clips =
    OrderEdit.runAll (orderEdits batch.nextClipNumber operation) (clipIds batch.clips)
  applies : Below batch → ∀ edit ∈ orderEdits batch.nextClipNumber operation,
    edit.Applies (clipIds batch.clips)
  named : ∀ edit ∈ orderEdits batch.nextClipNumber operation, ∀ id ∈ edit.names,
    id ∈ result.referenced
  nextClipNumber : result.nextClipNumber = numberAfter batch.nextClipNumber operation
  cuts : ∀ clip ∈ result.clips, clip.transitionToNext.isSome → clip.id ∈ clipIds batch.clips →
    nextOf (clipIds result.clips) clip.id = nextOf (clipIds batch.clips) clip.id
  plainEnd : Below batch → (clipIds batch.clips).Nodup → PlainEnd batch.clips →
    PlainEnd result.clips

theorem step_of_reordered {operation : TimelineOperation} {middle : Batch}
    (edit : OrderEdit ClipId) (hedits : orderEdits batch.nextClipNumber operation = [edit])
    (hframe : Frame batch middle)
    (horder : clipIds middle.clips = edit.run (clipIds batch.clips))
    (happlies : Below batch → edit.Applies (clipIds batch.clips))
    (hnamed : ∀ id ∈ edit.names, id ∈ middle.referenced)
    (hnext : middle.nextClipNumber = numberAfter batch.nextClipNumber operation)
    (hreordered : Below batch → Reordered batch.clips middle) :
    Step operation batch (middle.resetBrokenCuts index (nextIds batch.clips)) where
  frame := hframe.trans (frame_resetBrokenCuts _)
  order := by
    rw [clipIds_resetBrokenCuts, horder, hedits]
    rfl
  applies := by
    rw [hedits]
    simpa using happlies
  named := by
    rw [hedits]
    intro other hother id hid
    rw [List.mem_singleton.mp hother] at hid
    exact hnamed id hid
  nextClipNumber := hnext
  cuts := by
    intro clip hclip hsome hold
    rw [clipIds_resetBrokenCuts]
    exact (cuts_resetBrokenCuts hclip hsome).2 hold
  plainEnd := by
    intro hbelow hnodup hplain
    refine plainEnd_resetBrokenCuts (hreordered hbelow) hnodup ?_ hplain
    rw [horder]
    exact OrderEdit.nodup_run (happlies hbelow) hnodup

theorem step_of_sameOrder {operation : TimelineOperation}
    (hedits : orderEdits batch.nextClipNumber operation = [])
    (hframe : Frame batch result) (hids : clipIds result.clips = clipIds batch.clips)
    (hnext : result.nextClipNumber = numberAfter batch.nextClipNumber operation)
    (hplain : PlainEnd batch.clips → PlainEnd result.clips) :
    Step operation batch result where
  frame := hframe
  order := by rw [hedits, hids]; rfl
  applies := by simp [hedits]
  named := by simp [hedits]
  nextClipNumber := hnext
  cuts := fun _ _ _ _ => by rw [hids]
  plainEnd := fun _ _ => hplain

theorem plainEnd_mapIdx {clips : List EditClip} {rewrite : ℕ → EditClip → EditClip}
    (h : ∀ position clip, position + 1 = clips.length → clip.transitionToNext = none →
      (rewrite position clip).transitionToNext = none)
    (hplain : PlainEnd clips) : PlainEnd (clips.mapIdx rewrite) := by
  intro clip hclip
  rw [Option.mem_def, List.getLast?_mapIdx] at hclip
  obtain ⟨last, hlast, rfl⟩ := Option.map_eq_some_iff.mp hclip
  have hpos : clips.length ≠ 0 := by
    intro hzero
    rw [List.length_eq_zero_iff.mp hzero] at hlast
    cases hlast
  exact h _ last (by omega) (hplain last hlast)

theorem insert_step {operation : InsertClip}
    (h : batch.insert index sources operation = .ok result) :
    Step (.insert operation) batch result := by
  obtain ⟨clip, named, position, hclip, hpoint, hnext, rfl⟩ := insert_ok h
  obtain ⟨hnumber, -⟩ := newClip_ok hclip
  have hid : clip.id = .c batch.nextClipNumber := by simp [EditClip.id, hnumber]
  obtain ⟨⟨referenced, rfl, hreferenced⟩, hanchor, front, back, hsplit, rfl, horder⟩ :=
    insertionPoint_ok hpoint
  set named : Batch := { batch with referenced := referenced } with hnamed
  have hplaced : (placed index clip front.length named).clips = front ++ clip :: back := by
    simp only [placed, hnamed, hsplit, insertIdx_append_length]
  refine step_of_reordered (.insert (.c batch.nextClipNumber) operation.after) rfl
    ((frame_insertionPoint hpoint).trans (frame_placed hsplit hnumber)) ?_ ?_ ?_ rfl ?_
  · rw [hplaced, horder clip, hid]
    rfl
  · exact fun hbelow => ⟨hbelow.notMem, hanchor⟩
  · intro id hmem
    exact (hreferenced id).mpr (Or.inr (by simpa [OrderEdit.names] using hmem))
  · intro hbelow
    have hmem : ∀ other, other ∈ front ∨ other ∈ back → other ∈ batch.clips := by
      intro other hother
      rw [hsplit]
      exact List.mem_append.mpr hother
    constructor
    · intro other hother hsome hold
      simp only [hplaced, List.mem_append, List.mem_cons] at hother
      rcases hother with hother | rfl | hother
      · exact ⟨other, hmem other (Or.inl hother), rfl, hsome⟩
      · exact absurd (hid ▸ hold) hbelow.notMem
      · exact ⟨other, hmem other (Or.inr hother), rfl, hsome⟩
    · intro last hlast hnew
      rw [hplaced, Option.mem_def] at hlast
      cases hback : back.getLast? with
      | none =>
          rw [List.getLast?_eq_none_iff] at hback
          subst hback
          rw [List.getLast?_concat, Option.some.injEq] at hlast
          subst hlast
          by_contra hsome
          rw [← ne_eq, ← Option.isSome_iff_ne_none] at hsome
          exact hnext hsome (by simp [hplaced])
      | some other =>
          have hother := List.mem_of_getLast? hback
          have heq : other = last := by
            simpa [List.getLast?_append, List.getLast?_cons, hback] using hlast
          exact absurd (id_mem_clipIds (hmem last (Or.inr (heq ▸ hother)))) hnew

theorem delete_step {clipId : ClipId} (h : batch.delete index clipId = .ok result) :
    Step (.delete clipId) batch result := by
  obtain ⟨position, clip, front, back, found, rfl⟩ := delete_ok h
  set named := batch.refer clipId true with hnamed
  have hframe : Frame batch (removed index clip position named) :=
    (frame_refer clipId true).trans (frame_removed found)
  refine step_of_reordered (.remove clipId) rfl
    (hframe.trans (frame_handOverNarration clip)) ?_ ?_ ?_ ?_ ?_
  · rw [clipIds_handOverNarration]
    exact found.clipIds_eraseIdx
  · exact fun _ => found.clip_id ▸ id_mem_clipIds found.mem
  · intro id hid
    simp only [OrderEdit.names, List.mem_singleton] at hid
    refine (frame_handOverNarration clip).referenced id ?_
    simp [removed, touch, refer, hnamed, hid]
  · rcases handOverNarration_cases index (removed index clip position named) clip
      with heq | ⟨heir, heq⟩ <;> rw [heq] <;> rfl
  · intro _
    refine reordered_of_kept fun other hother => ?_
    obtain ⟨old, hold, hkept⟩ := mem_handOverNarration hother
    have hold' : old ∈ batch.clips := List.mem_of_mem_eraseIdx hold
    exact ⟨old, hold', hkept⟩

theorem move_step {clipId : ClipId} {after : Option ClipId}
    (h : batch.move index clipId after = .ok result) :
    Step (.move clipId after) batch result := by
  obtain ⟨position, clip, front, back, anchored, destination, found, hself, hpoint, rfl⟩ :=
    move_ok h
  rw [found.eraseIdx] at hpoint
  obtain ⟨⟨referenced, rfl, hreferenced⟩, hanchor, left, right, hsplit, hdestination, horder⟩ :=
    insertionPoint_ok hpoint
  set named : Batch := { batch.refer clipId true with referenced := referenced } with hnamed
  set middle := moved index clip position destination { named with clips := front ++ back }
    with hmiddle
  have hids : clipIds (front ++ back) = (clipIds batch.clips).erase clipId := by
    rw [← found.eraseIdx, found.clipIds_eraseIdx]
  have hclips : middle.clips = left ++ clip :: right := by
    simp only [hmiddle, moved]
    split <;> simp [touch, show front ++ back = left ++ right from hsplit, hdestination,
      insertIdx_append_length]
  have hkept : middle.referenced = referenced ∧ middle.nextClipNumber = batch.nextClipNumber := by
    simp only [hmiddle, moved]
    split <;> exact ⟨rfl, rfl⟩
  have hnames : ∀ id, id = clipId ∨ id ∈ after → id ∈ referenced := by
    intro id hid
    refine (hreferenced id).mpr (hid.imp_left ?_)
    rintro rfl
    simp [refer]
  have hframe : Frame batch middle := by
    have hnamedframe : Frame batch named :=
      { Frame.refl batch with
        referenced := fun id hid => (hreferenced id).mpr (Or.inl (List.mem_insert_of_mem hid)) }
    exact hnamedframe.trans (frame_moved found hsplit hdestination)
  refine step_of_reordered (.move clipId after) rfl hframe ?_ ?_ ?_ hkept.2 ?_
  · rw [hclips, horder clip, found.clip_id, hids]
    rfl
  · intro _
    refine ⟨found.clip_id ▸ id_mem_clipIds found.mem, hself, fun anchor hmem => ?_⟩
    have hin := hanchor anchor hmem
    rw [hids] at hin
    exact List.mem_of_mem_erase hin
  · intro id hid
    rw [hkept.1]
    exact hnames id (by simpa [OrderEdit.names] using hid)
  · intro _
    refine reordered_of_kept fun other hother => ⟨other, ?_, rfl, rfl⟩
    have hmem : other = clip ∨ other ∈ front ++ back := by
      rw [hclips] at hother
      rw [show front ++ back = left ++ right from hsplit]
      simpa [or_left_comm] using hother
    rw [found.split]
    simpa [or_left_comm] using hmem

theorem setField_step {operation : TimelineOperation} {clipId : ClipId}
    (hfield : (∃ spec, operation = .setTrim clipId spec) ∨
      (∃ volume, operation = .setVolume clipId volume) ∨
      (∃ hold, operation = .setHold clipId hold) ∨ ∃ reason, operation = .setReason clipId reason)
    (h : batch.apply index sources operation = .ok result) : Step operation batch result := by
  obtain ⟨position, clip, front, back, changes, -, hchanges, rfl⟩ := setField_ok hfield h
  have hkeeps : KeepsIdentity fun other clip => if other = position then changes clip else clip :=
    keepsIdentity_replace fun clip => ⟨(hchanges clip).1, (hchanges clip).2.1⟩
  have hnone : orderEdits batch.nextClipNumber operation = [] ∧
      numberAfter batch.nextClipNumber operation = batch.nextClipNumber := by
    rcases hfield with ⟨_, rfl⟩ | ⟨_, rfl⟩ | ⟨_, rfl⟩ | ⟨_, rfl⟩ <;> exact ⟨rfl, rfl⟩
  refine step_of_sameOrder hnone.1 ((frame_refer clipId true).trans (frame_rewriteClips hkeeps))
    (clipIds_mapIdx hkeeps batch.clips) hnone.2.symm (plainEnd_mapIdx ?_)
  intro other clip _ hplain
  split
  · rw [(hchanges clip).2.2.2, hplain]
  · exact hplain

theorem setTransition_step {clipId : ClipId} {spec : Option TransitionSpec}
    (h : batch.setTransition index clipId spec = .ok result) :
    Step (.setTransition clipId spec) batch result := by
  obtain ⟨position, clip, front, back, transition, -, hnext, rfl⟩ := setTransition_ok h
  have hkeeps : KeepsIdentity fun other clip =>
      if other = position then { clip with transitionToNext := transition } else clip :=
    keepsIdentity_replace fun _ => ⟨rfl, rfl⟩
  refine step_of_sameOrder rfl ((frame_refer clipId true).trans (frame_rewriteClips hkeeps))
    (clipIds_mapIdx hkeeps batch.clips) rfl (plainEnd_mapIdx ?_)
  intro other clip hlast hplain
  split
  · rename_i hother
    -- The last position takes no transition, by the check the operation made.
    by_contra hsome
    exact hnext (Option.isSome_iff_ne_none.mpr hsome) (hother ▸ hlast)
  · exact hplain

theorem keepsIdentity_putDown (unitId : String) (position : ℕ) :
    KeepsIdentity (putDown unitId position) := by
  intro other clip
  unfold putDown
  split <;> exact ⟨rfl, rfl⟩

theorem placeNarration_step {clipId : ClipId}
    (h : batch.placeNarration index sources clipId = .ok result) :
    Step (.placeNarration clipId) batch result := by
  obtain ⟨position, clip, front, back, -, rfl⟩ := placeNarration_ok h
  have hdown := keepsIdentity_putDown clip.unitId position
  have hup := keepsIdentity_takeUp position
  refine step_of_sameOrder rfl
    ((frame_refer clipId true).trans ((frame_rewriteClips hdown).trans (frame_rewriteClips hup)))
    ((clipIds_mapIdx hup _).trans (clipIds_mapIdx hdown batch.clips)) rfl ?_
  intro hplain
  refine plainEnd_mapIdx ?_ (plainEnd_mapIdx ?_ hplain)
  · intro other clip _ hplain
    dsimp only
    split <;> exact hplain
  · intro other clip _ hplain
    unfold putDown
    split <;> exact hplain

theorem frame_setBgm {front back : List BgmClip} {current updated : BgmClip}
    (hsplit : batch.bgm = front ++ current :: back) (hnumber : updated.number = current.number)
    (htune : updated.bgmId = current.bgmId) :
    Frame batch { batch.touch index updated.id with bgm := front ++ updated :: back } :=
  { Frame.refl batch with
    touched := fun _ h => mem_touch.mpr (Or.inr h)
    clips := rfl
    bgm := by
      have htouched : updated.id ∈ (batch.touch index updated.id).lastOperation :=
        mem_touch.mpr (Or.inl rfl)
      have hsame : current.id = updated.id := by simp [BgmClip.id, hnumber]
      simp [hsplit, hsame, htouched]
    tunes := by
      intro clip hclip
      simp only [List.mem_append, List.mem_cons] at hclip
      rcases hclip with hclip | rfl | hclip
      · exact Or.inl ⟨clip, by simp [hsplit, hclip], rfl, rfl⟩
      · exact Or.inl ⟨current, by simp [hsplit], hnumber.symm, htune.symm⟩
      · exact Or.inl ⟨clip, by simp [hsplit, hclip], rfl, rfl⟩ }

theorem frame_deleteBgm {front back : List BgmClip} {clip : BgmClip}
    (hsplit : batch.bgm = front ++ clip :: back) :
    Frame batch { batch.touch index clip.id with bgm := front ++ back } :=
  { Frame.refl batch with
    touched := fun _ h => mem_touch.mpr (Or.inr h)
    clips := rfl
    bgm := by
      have htouched : clip.id ∈ (batch.touch index clip.id).lastOperation :=
        mem_touch.mpr (Or.inl rfl)
      simp [hsplit, htouched]
    tunes := by
      intro other hother
      refine Or.inl ⟨other, ?_, rfl, rfl⟩
      rw [hsplit]
      rcases List.mem_append.mp hother with h | h <;> simp [h] }

theorem insertBgm_step {operation : InsertBgm}
    (h : batch.insertBgm index sources operation = .ok result) :
    Step (.insertBgm operation) batch result := by
  obtain ⟨clip, hnumber, rfl⟩ := insertBgm_ok h
  have htouched : clip.id ∈ (batch.touch index clip.id).lastOperation := mem_touch.mpr (Or.inl rfl)
  refine step_of_sameOrder rfl { Frame.refl batch with
    touched := fun _ h => mem_touch.mpr (Or.inr h)
    clips := rfl
    bgm := by simp [htouched]
    nextBgmNumber := (PNat.lt_add_right _ _).le
    tunes := ?_ } rfl rfl id
  intro other hother
  rcases List.mem_append.mp hother with hother | hother
  · exact Or.inl ⟨other, hother, rfl, rfl⟩
  · rw [List.mem_singleton.mp hother]
    exact Or.inr ⟨hnumber.ge, by rw [hnumber]; exact PNat.lt_add_right _ _⟩

theorem setBgm_step {operation : SetBgm} (h : batch.setBgm index sources operation = .ok result) :
    Step (.setBgm operation) batch result := by
  obtain ⟨front, back, current, updated, hsplit, hnumber, htune, rfl | rfl⟩ := setBgm_ok h
  · exact step_of_sameOrder rfl (frame_refer operation.clip true) rfl rfl id
  · exact step_of_sameOrder rfl ((frame_refer operation.clip true).trans
      (frame_setBgm hsplit hnumber htune)) rfl rfl id

theorem deleteBgm_step {clipId : ClipId} (h : batch.deleteBgm index clipId = .ok result) :
    Step (.deleteBgm clipId) batch result := by
  obtain ⟨front, back, clip, hsplit, rfl⟩ := deleteBgm_ok h
  exact step_of_sameOrder rfl ((frame_refer clipId true).trans
    (frame_deleteBgm hsplit)) rfl rfl id

theorem apply_step {operation : TimelineOperation}
    (h : batch.apply index sources operation = .ok result) : Step operation batch result := by
  cases operation with
  | insert operation => exact insert_step h
  | delete clip => exact delete_step h
  | move clip after => exact move_step h
  | setTrim clip trim => exact setField_step (Or.inl ⟨trim, rfl⟩) h
  | setVolume clip volume => exact setField_step (Or.inr (Or.inl ⟨volume, rfl⟩)) h
  | setHold clip hold => exact setField_step (Or.inr (Or.inr (Or.inl ⟨hold, rfl⟩))) h
  | setReason clip reason => exact setField_step (Or.inr (Or.inr (Or.inr ⟨reason, rfl⟩))) h
  | setTransition clip transition => exact setTransition_step h
  | placeNarration clip => exact placeNarration_step h
  | insertBgm operation => exact insertBgm_step h
  | setBgm operation => exact setBgm_step h
  | deleteBgm clip => exact deleteBgm_step h

def orderScript : ℕ+ → List TimelineOperation → List (OrderEdit ClipId)
  | _, [] => []
  | next, operation :: rest => orderEdits next operation ++ orderScript (numberAfter next operation) rest

theorem below_of_frame (frame : Frame batch result) (h : Below batch) : Below result := by
  intro clip hclip
  rcases frame.units clip hclip with ⟨old, hold, hnumber, -⟩ | ⟨-, hlt⟩
  · exact hnumber ▸ (h old hold).trans_le frame.nextClipNumber
  · exact hlt

theorem Step.nodup {operation : TimelineOperation} (step : Step operation batch result)
    (hbelow : Below batch) (hnodup : (clipIds batch.clips).Nodup) :
    (clipIds result.clips).Nodup := by
  have happlies := step.applies hbelow
  rw [step.order]
  cases operation <;> simp only [orderEdits, OrderEdit.runAll_nil, OrderEdit.runAll_cons] at happlies ⊢
  all_goals first
    | exact hnodup
    | exact OrderEdit.nodup_run (happlies _ List.mem_cons_self) hnodup

/-- What a whole batch that goes through does, apart from its final checks. -/
structure Run (operations : List TimelineOperation) (batch result : Batch) : Prop where
  frame : Frame batch result
  order : clipIds result.clips =
    OrderEdit.runAll (orderScript batch.nextClipNumber operations) (clipIds batch.clips)
  named : ∀ edit ∈ orderScript batch.nextClipNumber operations, ∀ id ∈ edit.names,
    id ∈ result.referenced
  cuts : ∀ clip ∈ result.clips, clip.id ∉ result.lastOperation → clip.transitionToNext.isSome →
    nextOf (clipIds result.clips) clip.id = nextOf (clipIds batch.clips) clip.id
  nodup : Below batch → (clipIds batch.clips).Nodup → (clipIds result.clips).Nodup
  plainEnd : Below batch → (clipIds batch.clips).Nodup → PlainEnd batch.clips →
    PlainEnd result.clips

theorem applyAll_run {operations : List TimelineOperation}
    (h : batch.applyAll sources index operations = .ok result) : Run operations batch result := by
  induction operations generalizing index batch with
  | nil =>
      cases h
      exact ⟨Frame.refl _, rfl, by simp [orderScript], fun _ _ _ _ => rfl, fun _ => id, fun _ _ => id⟩
  | cons operation operations ih =>
      simp only [applyAll, bind_eq_ok] at h
      obtain ⟨middle, hfirst, hrest⟩ := h
      have step := apply_step hfirst
      have run := ih hrest
      refine ⟨step.frame.trans run.frame, ?_, ?_, ?_, ?_, ?_⟩
      · rw [run.order, step.order, orderScript, OrderEdit.runAll_append, step.nextClipNumber]
      · intro edit hedit id hid
        rcases List.mem_append.mp hedit with hedit | hedit
        · exact run.frame.referenced id (step.named edit hedit id hid)
        · exact run.named edit (step.nextClipNumber ▸ hedit) id hid
      · intro clip hclip huntouched hsome
        have hmiddle : clip ∈ middle.clips := (run.frame.mem_iff huntouched).mp hclip
        have hbatch : clip ∈ batch.clips :=
          ((step.frame.trans run.frame).mem_iff huntouched).mp hclip
        rw [run.cuts clip hclip huntouched hsome,
          step.cuts clip hmiddle hsome (id_mem_clipIds hbatch)]
      · intro hbelow hnodup
        exact run.nodup (below_of_frame step.frame hbelow) (step.nodup hbelow hnodup)
      · intro hbelow hnodup hplain
        exact run.plainEnd (below_of_frame step.frame hbelow) (step.nodup hbelow hnodup)
          (step.plainEnd hbelow hnodup hplain)

theorem mapError_eq_ok {ε δ α : Type} {f : ε → δ} {x : Except ε α} {a : α} :
    x.mapError f = .ok a ↔ x = .ok a := by
  cases x <;> simp [Except.mapError]

/-- A batch that was accepted: the state it ended in, which the whole-batch checks passed. -/
structure Accepted (content : EditTimelineContent) (nextClipNumber nextBgmNumber : ℕ+)
    (operations : List TimelineOperation) (sources : EpisodeSources) (checkWindows : Bool)
    (applied : AppliedBatch) (batch : Batch) : Prop where
  ran : (Batch.start content nextClipNumber nextBgmNumber).applyAll sources 0 operations =
    .ok batch
  windows : checkWindows → checkTransitionWindows sources batch.lastOperation none batch.clips =
    .ok ()
  placement : checkWindows → batch.checkBgm sources = .ok ()
  clips_eq : applied.content.clips = batch.clips
  bgm_eq : applied.content.bgm = batch.bgm.insertionSort bgmOrder
  next_clip : applied.nextClipNumber = batch.nextClipNumber
  next_bgm : applied.nextBgmNumber = batch.nextBgmNumber
  referenced_eq : applied.referenced = batch.referenced
  last_eq : applied.lastOperation = batch.lastOperation

theorem applyOperations_ok {content : EditTimelineContent} {nextClipNumber nextBgmNumber : ℕ+}
    {operations : List TimelineOperation} {checkWindows : Bool} {applied : AppliedBatch}
    (h : applyOperations content nextClipNumber nextBgmNumber operations sources checkWindows =
      .ok applied) :
    ∃ batch, Accepted content nextClipNumber nextBgmNumber operations sources checkWindows
      applied batch := by
  simp only [applyOperations, bind_eq_ok, mapError_eq_ok] at h
  obtain ⟨batch, hbatch, h⟩ := h
  refine ⟨batch, ?_⟩
  cases checkWindows with
  | true =>
      simp only [if_true, bind_eq_ok, mapError_eq_ok] at h
      obtain ⟨⟨⟩, hwindows, ⟨⟩, hbgm, validated, hcontent, heq⟩ := h
      obtain ⟨hclips, hbgmclips⟩ := validateContent_ok hcontent
      cases heq
      exact ⟨hbatch, fun _ => hwindows, fun _ => hbgm, hclips, hbgmclips, rfl, rfl, rfl, rfl⟩
  | false =>
      simp only [Bool.false_eq_true, if_false, bind_eq_ok, mapError_eq_ok] at h
      obtain ⟨validated, hcontent, heq⟩ := h
      obtain ⟨hclips, hbgmclips⟩ := validateContent_ok hcontent
      cases heq
      exact ⟨hbatch, by simp, by simp, hclips, hbgmclips, rfl, rfl, rfl, rfl⟩

theorem Accepted.run {content : EditTimelineContent} {nextClipNumber nextBgmNumber : ℕ+}
    {operations : List TimelineOperation} {checkWindows : Bool} {applied : AppliedBatch}
    (accepted : Accepted content nextClipNumber nextBgmNumber operations sources checkWindows
      applied batch) :
    Run operations (Batch.start content nextClipNumber nextBgmNumber) batch :=
  applyAll_run accepted.ran

end ShortReel.TimelineSteps
