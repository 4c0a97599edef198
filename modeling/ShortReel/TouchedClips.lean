import Mathlib.Data.List.Chain
import ShortReel.ConcurrentEdits
import ShortReel.TransitionCuts

/-!
# What a batch records as touched

`last_operation` is the whole footprint of a batch: a clip it does not name is the same before and
after, in the same order, and the differences of the two contents are among the clips it names.
-/

namespace ShortReel.TouchedClips

open TimelineModel TimelineOperations TimelineService TimelineSteps TimelineDocuments

theorem find?_id_eq_some {α : Type} {id : α → ClipId} {items : List α} (hnodup : (items.map id).Nodup)
    {key : ClipId} {item : α} :
    items.find? (fun item => id item = key) = some item ↔ item ∈ items ∧ id item = key := by
  constructor
  · intro h
    exact ⟨List.mem_of_find?_eq_some h, of_decide_eq_true (List.find?_eq_some_iff_append.mp h).1⟩
  · rintro ⟨hitem, rfl⟩
    cases hfound : items.find? fun other => id other = id item with
    | none => exact absurd (decide_eq_true rfl) (List.find?_eq_none.mp hfound item hitem)
    | some found =>
        have hid : id found = id item :=
          of_decide_eq_true (List.find?_eq_some_iff_append.mp hfound).1
        rw [List.inj_on_of_nodup_map hnodup (List.mem_of_find?_eq_some hfound) hitem hid]

theorem find?_id_congr {α : Type} {id : α → ClipId} {first second : List α}
    (hfirst : (first.map id).Nodup) (hsecond : (second.map id).Nodup) {key : ClipId}
    (h : ∀ item, id item = key → (item ∈ first ↔ item ∈ second)) :
    first.find? (fun item => id item = key) = second.find? fun item => id item = key := by
  apply Option.ext
  intro item
  rw [find?_id_eq_some hfirst, find?_id_eq_some hsecond]
  exact and_congr_left fun hid => h item hid

theorem itemAt_isSome {content : EditTimelineContent} {id : ClipId} :
    (itemAt content id).isSome ↔ id ∈ contentIds content := by
  simp [itemAt, contentIds]

theorem not_mem_diffContent {before after : EditTimelineContent} {id : ClipId}
    (h : itemAt before id = itemAt after id) :
    id ∉ (diffContent before after).added ∧ id ∉ (diffContent before after).removed ∧
      id ∉ (diffContent before after).modified := by
  have hids : id ∈ contentIds before ↔ id ∈ contentIds after := by
    rw [← itemAt_isSome, ← itemAt_isSome, h]
  simp only [diffContent, List.mem_filter, decide_eq_true_eq, hids, h]
  tauto

theorem itemAt_applyOperations {content : EditTimelineContent} {nextClipNumber nextBgmNumber : ℕ+}
    {operations : List TimelineOperation} {sources : EpisodeSources} {checkWindows : Bool}
    {applied : AppliedBatch}
    (h : applyOperations content nextClipNumber nextBgmNumber operations sources checkWindows =
      .ok applied) {id : ClipId} (hid : id ∉ applied.lastOperation) :
    itemAt content id = itemAt applied.content id := by
  obtain ⟨batch, accepted⟩ := applyOperations_ok h
  have frame := accepted.run.frame
  rw [accepted.last_eq] at hid
  have hclips : content.clips.find? (fun clip => clip.id = id) =
      applied.content.clips.find? fun clip => clip.id = id := by
    refine find?_id_congr content.unique_clip_ids applied.content.unique_clip_ids fun clip hclip => ?_
    rw [accepted.clips_eq]
    exact (frame.mem_iff (hclip ▸ hid)).symm
  have hbgm : content.bgm.find? (fun clip => clip.id = id) =
      applied.content.bgm.find? fun clip => clip.id = id := by
    refine find?_id_congr content.unique_bgm_ids applied.content.unique_bgm_ids fun clip hclip => ?_
    rw [accepted.bgm_eq, List.mem_insertionSort]
    exact (frame.mem_bgm_iff (hclip ▸ hid)).symm
  rw [itemAt, itemAt, hclips, hbgm]

/-- An accepted batch leaves every clip alone that its last operations do not name, keeps their
order, and names every clip it adds, removes or modifies. -/
theorem applyOperations_footprint {content : EditTimelineContent}
    {nextClipNumber nextBgmNumber : ℕ+} {operations : List TimelineOperation}
    {sources : EpisodeSources} {checkWindows : Bool} {applied : AppliedBatch}
    (h : applyOperations content nextClipNumber nextBgmNumber operations sources checkWindows =
      .ok applied) :
    (∀ id, id ∉ applied.lastOperation → itemAt content id = itemAt applied.content id) ∧
      content.clips.filter (·.id ∉ applied.lastOperation) =
        applied.content.clips.filter (·.id ∉ applied.lastOperation) ∧
      ∀ id, id ∈ (diffContent content applied.content).added ∨
          id ∈ (diffContent content applied.content).removed ∨
          id ∈ (diffContent content applied.content).modified → id ∈ applied.lastOperation := by
  refine ⟨fun id hid => itemAt_applyOperations h hid, ?_, fun id hdiff => ?_⟩
  · obtain ⟨batch, accepted⟩ := applyOperations_ok h
    rw [accepted.clips_eq, accepted.last_eq]
    exact accepted.run.frame.clips.symm
  · by_contra hid
    obtain ⟨hadded, hremoved, hmodified⟩ := not_mem_diffContent (itemAt_applyOperations h hid)
    rcases hdiff with hdiff | hdiff | hdiff
    · exact hadded hdiff
    · exact hremoved hdiff
    · exact hmodified hdiff

def cutTrack : EditTimelineContent where
  clips :=
    [{ number := 1, unitId := "E1S01", sourceVolume := defaultSourceVolumeLevel
       transitionToNext := some ⟨.dissolve, 500000⟩ },
      { number := Nat.succPNat 1, unitId := "E1S02", sourceVolume := defaultSourceVolumeLevel
        carriesNarration := true },
      { number := Nat.succPNat 2, unitId := "E1S02", sourceVolume := defaultSourceVolumeLevel }]
  unique_clip_ids := by decide
  unique_bgm_ids := by decide
  one_narration_carrier_per_unit := by decide

theorem applyOperations_footprint_delete :
    ∃ applied, applyOperations cutTrack 4 1 [.delete (.c 2)] sampleSources = .ok applied ∧
      (∀ id, id ∉ applied.lastOperation → itemAt cutTrack id = itemAt applied.content id) ∧
      cutTrack.clips.filter (·.id ∉ applied.lastOperation) =
        applied.content.clips.filter (·.id ∉ applied.lastOperation) ∧
      ∀ id, id ∈ (diffContent cutTrack applied.content).added ∨
          id ∈ (diffContent cutTrack applied.content).removed ∨
          id ∈ (diffContent cutTrack applied.content).modified → id ∈ applied.lastOperation := by
  obtain ⟨applied, happlied⟩ := exists_of_isOk (x :=
    applyOperations cutTrack 4 1 [.delete (.c 2)] sampleSources) (by decide +kernel)
  exact ⟨applied, happlied, applyOperations_footprint happlied⟩

section Histories

open TimelineChanges TimelineHistories TransitionCuts

def SameItems (changed : List ClipId) (before after : EditTimelineContent) : Prop :=
  ∀ id, id ∉ changed → itemAt before id = itemAt after id

theorem diffContent_sameItems (before after : EditTimelineContent) :
    SameItems (diffContent before after).changed before after := by
  intro id hunchanged
  simp only [mem_changed, not_or, diffContent, List.mem_filter, decide_eq_true_eq, not_and,
    not_not] at hunchanged
  obtain ⟨hadded, hremoved, hmodified, -⟩ := hunchanged
  by_cases hid : id ∈ contentIds before
  · exact hmodified hid (hremoved hid)
  · rw [Option.not_isSome_iff_eq_none.mp (mt itemAt_isSome.mp hid),
      Option.not_isSome_iff_eq_none.mp (mt itemAt_isSome.mp (mt hadded hid))]

def Records (previous revision : TimelineRevision) : Prop :=
  SameItems (changedClips previous revision) previous.content revision.content

theorem reachable_records {document : EditTimelineDocument}
    (hreach : timelines.Reachable document) : document.revisions.IsChain Records := by
  have hadds : ∀ {document : EditTimelineDocument} {revision : TimelineRevision},
      document.revisions.IsChain Records → Records document.latest revision →
        (document.revisions ++ [revision]).IsChain Records := by
    intro document revision hchain hnew
    refine hchain.append (.singleton revision) fun last hlast new hfirst => ?_
    rw [List.getLast?_eq_some_getLast document.chain.nonempty] at hlast
    cases hlast
    cases hfirst
    exact hnew
  refine hreach.invariant (fun document => document.revisions.IsChain Records) ?_ ?_
  · rintro document ⟨script, input, hcreate⟩
    obtain ⟨content, -, -, -, hrevisions⟩ := createFromScript_ok hcreate
    rw [hrevisions]
    exact .singleton _
  · intro document command later _ hchain _ hrun
    cases command with
    | copy revision input =>
        simp only [timelines, Command.run, TimelineService.copy, bind_eq_ok] at hrun
        obtain ⟨target, -, hnew⟩ := hrun
        rw [(newDocument_ok hnew).2.2.2]
        exact .singleton _
    | edit sources baseNumber summary operations input =>
        obtain ⟨written, hedit, rfl⟩ := map_eq_ok.mp hrun
        obtain ⟨base, applied, edited⟩ := editSync_ok (edit_ok hedit)
        rw [edited.revisions_eq]
        refine hadds hchain fun id hid => ?_
        rw [changedClips, edited.changed_eq] at hid
        rw [edited.content_eq]
        exact itemAt_applyOperations (applyEdit_ok edited.applied_eq).1
          fun hlast => hid ((mem_sortedClipIds _ _).mpr hlast)
    | restore number input =>
        obtain ⟨written, hrestore, rfl⟩ := map_eq_ok.mp hrun
        obtain ⟨target, restored⟩ := restore_ok hrestore
        rw [restored.revisions_eq]
        refine hadds hchain fun id hid => ?_
        rw [changedClips, restored.changed_eq] at hid
        rw [restored.content_eq]
        refine diffContent_sameItems _ _ id fun hdiff => hid ((mem_sortedClipIds _ _).mpr ?_)
        unfold restoreChangedClipIds
        dsimp only
        split
        · exact hdiff
        · exact List.mem_union_iff.mpr (Or.inl hdiff)

theorem sameItems_changedSince {first last : TimelineRevision} {rest : List TimelineRevision}
    (h : (first :: rest).IsChain Records) (hlast : (first :: rest).getLast? = some last) :
    SameItems (changedSince (first :: rest)) first.content last.content := by
  induction rest generalizing first with
  | nil =>
      cases hlast
      exact fun _ _ => rfl
  | cons second rest ih =>
      obtain ⟨hfirst, hrest⟩ := List.isChain_cons_cons.mp h
      intro id hid
      have hboth := mt List.mem_union_iff.mpr hid
      exact (hfirst id fun hmem => hboth (Or.inl hmem)).trans
        (ih hrest (by simpa using hlast) id fun hmem => hboth (Or.inr hmem))

/-- What differs between a revision and the latest one is among the clips recorded as changed since. -/
theorem changedSince_complete {document : EditTimelineDocument}
    (hreach : timelines.Reachable document) {number : ℕ} {base : TimelineRevision}
    (hbase : document.revision number = some base) :
    let changed := changedSince (document.revisions.drop (base.number - 1))
    SameItems changed base.content document.latest.content ∧
      SameOrderOutside changed base.content document.latest.content := by
  refine ⟨?_, sameOrder_latest hreach hbase⟩
  rw [number_of_revision hbase]
  obtain ⟨-, hget⟩ := revision_eq_some hbase
  obtain ⟨hlt, hbase⟩ := List.getElem?_eq_some_iff.mp hget
  have hlast : (document.revisions.drop (number - 1)).getLast? = some document.latest := by
    rw [List.getLast?_drop, if_neg (by omega)]
    exact List.getLast?_eq_some_getLast document.chain.nonempty
  have hchain := (reachable_records hreach).drop (number - 1)
  rw [List.drop_eq_getElem_cons hlt, hbase] at hchain hlast ⊢
  exact sameItems_changedSince hchain hlast

theorem changedSince_complete_sample :
    ∃ document base, sampleTimeline [[.setHold (.c 1) 1]] = .ok document ∧
      document.revision 1 = some base ∧
        let changed := changedSince (document.revisions.drop (base.number - 1))
        SameItems changed base.content document.latest.content ∧
          SameOrderOutside changed base.content document.latest.content := by
  obtain ⟨base, h⟩ := exists_of_isOk (x := sampleTimeline [[.setHold (.c 1) 1]] >>= fun document =>
    baseRevision document 1) (by decide +kernel)
  obtain ⟨document, hdocument, hbase⟩ := bind_eq_ok.mp h
  have hrevision := baseRevision_ok hbase
  exact ⟨document, base, hdocument, hrevision,
    changedSince_complete (reachable_sampleTimeline hdocument) hrevision⟩

end Histories

end ShortReel.TouchedClips
