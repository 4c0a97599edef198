import ShortReel.TimelineDocuments

/-!
# Edits on a stale base

An accepted edit leaves alone whatever other revisions changed since the base it was made on.
-/

namespace ShortReel.ConcurrentEdits

open TimelineModel TimelineOperations TimelineService TimelineSteps TimelineDocuments

/-- The clips with the given ids are the same in two contents: present or absent alike, with the
same fields, and those on the main track in the same relative order. -/
structure KeepsConcurrent (changed : List ClipId) (latest appended : EditTimelineContent) : Prop where
  clips : ∀ clip : EditClip, clip.id ∈ changed → (clip ∈ appended.clips ↔ clip ∈ latest.clips)
  bgm : ∀ clip : BgmClip, clip.id ∈ changed → (clip ∈ appended.bgm ↔ clip ∈ latest.bgm)
  order : ∀ first second : EditClip, first.id ∈ changed → second.id ∈ changed →
    ([first, second].Sublist appended.clips ↔ [first, second].Sublist latest.clips)

theorem sublist_of_filter_eq {α : Type} {keep : α → Bool} {pair left right : List α}
    (hpair : ∀ a ∈ pair, keep a = true) (hfilter : left.filter keep = right.filter keep)
    (h : pair.Sublist left) : pair.Sublist right := by
  have hfiltered := h.filter keep
  rw [List.filter_eq_self.mpr hpair, hfilter] at hfiltered
  exact hfiltered.trans List.filter_sublist

theorem keepsConcurrent_of_untouched {changed : List ClipId} {content : EditTimelineContent}
    {nextClipNumber nextBgmNumber : ℕ+} {operations : List TimelineOperation}
    {sources : EpisodeSources} {checkWindows : Bool} {applied : AppliedBatch}
    (happlied : applyOperations content nextClipNumber nextBgmNumber operations sources
      checkWindows = .ok applied)
    (hchanged : ∀ id ∈ changed, id ∉ applied.lastOperation) :
    KeepsConcurrent changed content applied.content := by
  obtain ⟨batch, accepted⟩ := applyOperations_ok happlied
  have frame := accepted.run.frame
  have huntouched : ∀ id ∈ changed, id ∉ batch.lastOperation := by
    rw [← accepted.last_eq]
    exact hchanged
  constructor
  · intro clip hclip
    rw [accepted.clips_eq]
    exact frame.mem_iff (huntouched _ hclip)
  · intro clip hclip
    rw [accepted.bgm_eq, List.mem_insertionSort]
    exact frame.mem_bgm_iff (huntouched _ hclip)
  · intro first second hfirst hsecond
    rw [accepted.clips_eq]
    have hkeep : ∀ clip ∈ [first, second],
        decide (clip.id ∉ batch.lastOperation) = true := by
      intro clip hclip
      rcases List.mem_pair.mp hclip with rfl | rfl
      · simpa using huntouched _ hfirst
      · simpa using huntouched _ hsecond
    exact ⟨sublist_of_filter_eq hkeep frame.clips, sublist_of_filter_eq hkeep frame.clips.symm⟩

theorem changedSince_latest {document : EditTimelineDocument} {number : ℕ}
    (h : number = document.latest.number) :
    changedSince (document.revisions.drop (number - 1)) = [] := by
  have hpos := length_pos document
  have hlength : (document.revisions.drop (number - 1)).length = 1 := by
    rw [List.length_drop, h, latest_number]
    omega
  obtain ⟨revision, hrevision⟩ := List.length_eq_one_iff.mp hlength
  rw [hrevision]
  rfl

/-- An accepted edit neither overwrites nor reorders what others changed since its base. -/
theorem editSync_keepsConcurrent {document : EditTimelineDocument} {sources : EpisodeSources}
    {baseNumber : ℕ} {summary : String} {operations : List TimelineOperation}
    {input : CommandInput} {written : Written}
    (h : editSync document sources baseNumber summary operations input = .ok written) :
    KeepsConcurrent (changedSince (document.revisions.drop (baseNumber - 1)))
      document.latest.content written.document.latest.content := by
  obtain ⟨base, applied, edited⟩ := editSync_ok h
  obtain ⟨happlied, hstale⟩ := applyEdit_ok edited.applied_eq
  rw [edited.content_eq]
  have hnumber := number_of_revision edited.base_eq
  by_cases hsame : base.number = document.latest.number
  · rw [changedSince_latest (hnumber ▸ hsame)]
    exact keepsConcurrent_of_untouched happlied (by simp)
  · obtain ⟨onBase, onLatest, checked⟩ := hstale hsame
    refine keepsConcurrent_of_untouched happlied fun id hid => ?_
    rw [← hnumber] at hid
    rw [(applyOperations_same happlied checked.latest_eq).2]
    exact (checked.apart id hid).2.2

theorem editSync_keepsConcurrent_sample :
    ∃ document written, sampleTimeline [[.setHold (.c 1) 1]] = .ok document ∧
      editSync document sampleSources 1 "节奏" [.setReason (.c 2) (some "节奏")] sampleInput =
        .ok written ∧
      KeepsConcurrent (changedSince (document.revisions.drop 0)) document.latest.content
        written.document.latest.content := by
  obtain ⟨written, h⟩ := exists_of_isOk (x := sampleTimeline [[.setHold (.c 1) 1]] >>= fun document =>
    editSync document sampleSources 1 "节奏" [.setReason (.c 2) (some "节奏")] sampleInput)
    (by decide +kernel)
  obtain ⟨document, hdocument, hwritten⟩ := bind_eq_ok.mp h
  exact ⟨document, written, hdocument, hwritten, editSync_keepsConcurrent hwritten⟩

end ShortReel.ConcurrentEdits
