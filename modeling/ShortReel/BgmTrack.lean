import ShortReel.TimelineDocuments

/-!
# The BGM track

At any time at most one BGM clip plays. An accepted batch keeps the BGM clips apart, although it
only compares clips that follow each other and only where it touched one of them.
-/

namespace ShortReel.BgmTrack

open TimelineModel TimelineOperations TimelineOperations.Batch TimelineFrame TimelineSteps
open TimelineService TimelineDocuments

def Apart (first second : BgmClip) : Prop :=
  bgmEndUs first ≤ second.startUs ∨ bgmEndUs second ≤ first.startUs

instance (first second : BgmClip) : Decidable (Apart first second) :=
  inferInstanceAs (Decidable (_ ∨ _))

def NonOverlapping (bgm : List BgmClip) : Prop :=
  bgm.Pairwise Apart

theorem Apart.symm {first second : BgmClip} (h : Apart first second) : Apart second first :=
  Or.symm h

theorem start_lt_end (clip : BgmClip) : clip.startUs < bgmEndUs clip := by
  have := clip.out_after_in
  unfold bgmEndUs bgmClipLengthUs
  omega

instance : IsTrans BgmClip bgmOrder where
  trans first second third h₁ h₂ := by
    unfold bgmOrder at *
    rcases h₁ with h₁ | ⟨h₁, hn₁⟩ <;> rcases h₂ with h₂ | ⟨h₂, hn₂⟩
    · exact Or.inl (h₁.trans h₂)
    · exact Or.inl (h₂ ▸ h₁)
    · exact Or.inl (h₁ ▸ h₂)
    · exact Or.inr ⟨h₁.trans h₂, hn₁.trans hn₂⟩

instance : Std.Total bgmOrder where
  total first second := by
    unfold bgmOrder
    rcases lt_trichotomy first.startUs second.startUs with h | h | h
    · exact Or.inl (Or.inl h)
    · rcases le_total first.number second.number with hn | hn
      · exact Or.inl (Or.inr ⟨h, hn⟩)
      · exact Or.inr (Or.inr ⟨h.symm, hn⟩)
    · exact Or.inr (Or.inl h)

theorem start_le_of_bgmOrder {first second : BgmClip} (h : bgmOrder first second) :
    first.startUs ≤ second.startUs := by
  rcases h with h | ⟨h, -⟩ <;> omega

def Precedes (first second : BgmClip) : Prop :=
  bgmEndUs first ≤ second.startUs

instance : IsTrans BgmClip Precedes where
  trans first second third h₁ h₂ := by
    have := start_lt_end second
    unfold Precedes at *
    omega

section Check

variable {last : LastOperation}

theorem precedes_of_checkBgmPair {previous following : BgmClip}
    (h : checkBgmPair last previous following = .ok ()) (horder : bgmOrder previous following)
    (huntouched : previous.id ∉ last → following.id ∉ last → Apart previous following) :
    Precedes previous following := by
  unfold checkBgmPair at h
  split at h
  · assumption
  · rename_i hoverlap
    cases hindex : ([previous, following].filterMap fun clip => last.lookup clip.id).max? with
    | some index =>
        rw [hindex] at h
        cases h
    | none =>
        rw [List.max?_eq_none_iff, List.filterMap_eq_nil_iff] at hindex
        have hprevious := AList.lookup_eq_none.mp (hindex previous (by simp))
        have hfollowing := AList.lookup_eq_none.mp (hindex following (by simp))
        rcases huntouched hprevious hfollowing with hapart | hapart
        · exact hapart
        · have := start_le_of_bgmOrder horder
          have := start_lt_end following
          unfold Precedes
          omega

theorem precedes_of_checkBgmPairs {bgm : List BgmClip}
    (h : checkBgmPairs last bgm = .ok ()) (horder : bgm.Pairwise bgmOrder)
    (huntouched : bgm.Pairwise fun first second =>
      first.id ∉ last → second.id ∉ last → Apart first second) :
    bgm.Pairwise Precedes := by
  rw [← List.isChain_iff_pairwise]
  induction bgm with
  | nil => exact .nil
  | cons previous rest ih =>
      cases rest with
      | nil => exact .singleton _
      | cons following rest =>
          simp only [checkBgmPairs, bind_eq_ok] at h
          obtain ⟨⟨⟩, hpair, hrest⟩ := h
          have horder' := List.pairwise_cons.mp horder
          have huntouched' := List.pairwise_cons.mp huntouched
          refine List.isChain_cons_cons.mpr ⟨?_, ih hrest horder'.2 huntouched'.2⟩
          exact precedes_of_checkBgmPair hpair (horder'.1 _ List.mem_cons_self)
            (huntouched'.1 _ List.mem_cons_self)

theorem checkBgmStart_ok {totalUs : ℕ} {clip : BgmClip}
    (h : checkBgmStart totalUs last clip = .ok ()) (htouched : clip.id ∈ last) :
    clip.startUs < totalUs := by
  obtain ⟨index, hindex⟩ := Option.isSome_iff_exists.mp (AList.lookup_isSome.mpr htouched)
  simp only [checkBgmStart, hindex] at h
  split at h
  · cases h
  · omega

theorem forM_ok {α ε : Type} {check : α → Except ε PUnit} {items : List α}
    (h : items.forM check = .ok ()) : ∀ item ∈ items, check item = .ok () := by
  induction items with
  | nil => simp
  | cons first rest ih =>
      simp only [List.forM, bind_eq_ok] at h
      obtain ⟨⟨⟩, hfirst, hrest⟩ := h
      exact List.forall_mem_cons.mpr ⟨hfirst, ih hrest⟩

end Check

theorem checkBgm_ok {sources : EpisodeSources} {batch : Batch}
    (h : batch.checkBgm sources = .ok ()) :
    (∀ clip ∈ batch.bgm, clip.id ∉ batch.lastOperation) ∨
      ((∀ clip ∈ batch.bgm, clip.id ∈ batch.lastOperation →
        clip.startUs < timelineDurationUs sources batch.clips) ∧
        checkBgmPairs batch.lastOperation (batch.bgm.insertionSort bgmOrder) = .ok ()) := by
  unfold checkBgm at h
  dsimp only at h
  split at h
  · rename_i hnone
    left
    intro clip hclip htouched
    have hmem : clip ∈ batch.bgm.filter (·.id ∈ batch.lastOperation) :=
      List.mem_filter.mpr ⟨hclip, by simpa using htouched⟩
    rw [hnone] at hmem
    cases hmem
  · right
    simp only [bind_eq_ok] at h
    obtain ⟨⟨⟩, hstarts, hpairs⟩ := h
    refine ⟨fun clip hclip htouched => ?_, hpairs⟩
    exact checkBgmStart_ok (forM_ok hstarts clip
      (List.mem_filter.mpr ⟨hclip, by simpa using htouched⟩)) htouched

theorem untouched_apart {batch result : Batch} (frame : Frame batch result)
    (hapart : NonOverlapping batch.bgm) :
    result.bgm.Pairwise fun first second =>
      first.id ∉ result.lastOperation → second.id ∉ result.lastOperation → Apart first second := by
  have hfiltered : (result.bgm.filter (·.id ∉ result.lastOperation)).Pairwise Apart := by
    rw [frame.bgm]
    exact hapart.sublist List.filter_sublist
  refine (List.pairwise_filter.mp hfiltered).imp fun {first second} h hfirst hsecond => ?_
  exact h (by simpa using hfirst) (by simpa using hsecond)

/-- Every accepted batch leaves the BGM clips apart, and the ones it touched begin inside the
timeline. -/
theorem bgm_applyOperations {sources : EpisodeSources} {content : EditTimelineContent}
    {nextClipNumber nextBgmNumber : ℕ+} {operations : List TimelineOperation}
    {applied : AppliedBatch} (hapart : NonOverlapping content.bgm)
    (happly : applyOperations content nextClipNumber nextBgmNumber operations sources =
      .ok applied) :
    NonOverlapping applied.content.bgm ∧
      ∀ clip ∈ applied.content.bgm, clip.id ∈ applied.lastOperation →
        clip.startUs < timelineDurationUs sources applied.content.clips := by
  obtain ⟨batch, accepted⟩ := applyOperations_ok happly
  have huntouched := untouched_apart accepted.run.frame hapart
  have hperm := List.perm_insertionSort bgmOrder batch.bgm
  rw [accepted.bgm_eq, accepted.clips_eq, accepted.last_eq]
  rcases checkBgm_ok (accepted.placement rfl) with hnone | ⟨hstarts, hpairs⟩
  · refine ⟨?_, fun clip hclip htouched => ?_⟩
    · refine (hperm.pairwise_iff Apart.symm).mpr (huntouched.imp_of_mem ?_)
      exact fun {first second} hfirst hsecond h => h (hnone first hfirst) (hnone second hsecond)
    · exact absurd htouched (hnone clip (hperm.mem_iff.mp hclip))
  · have hsorted : (batch.bgm.insertionSort bgmOrder).Pairwise Precedes := by
      refine precedes_of_checkBgmPairs hpairs (List.pairwise_insertionSort bgmOrder _) ?_
      refine (hperm.pairwise_iff ?_).mpr huntouched
      exact fun {first second} h hsecond hfirst => (h hfirst hsecond).symm
    refine ⟨hsorted.imp fun h => Or.inl h, fun clip hclip htouched => ?_⟩
    exact hstarts clip (hperm.mem_iff.mp hclip) htouched

theorem bgm_applyOperations_sample :
    ∃ content applied, NonOverlapping content.bgm ∧
      applyOperations content 3 3
        [.setBgm { clip := .b 1, sourceOut := some 2 },
          .insertBgm { bgmId := "bgm-3f9a0c21", start := 2, sourceOut := some 3 }] sampleSources =
        .ok applied ∧
      NonOverlapping applied.content.bgm ∧
      ∀ clip ∈ applied.content.bgm, clip.id ∈ applied.lastOperation →
        clip.startUs < timelineDurationUs sampleSources applied.content.clips := by
  obtain ⟨⟨content, applied⟩, h⟩ := exists_of_isOk (x := do
    let document ← sampleTimeline
      [[.insertBgm { bgmId := "bgm-3f9a0c21", start := 0, sourceOut := some 5 },
        .insertBgm { bgmId := "bgm-3f9a0c21", start := 5 }]]
    let applied ← applyTo document sampleSources document.latest.content
      [.setBgm { clip := .b 1, sourceOut := some 2 },
        .insertBgm { bgmId := "bgm-3f9a0c21", start := 2, sourceOut := some 3 }] true
    if document.latest.content.bgm.Pairwise Apart ∧
        document.nextClipNumber = 3 ∧ document.nextBgmNumber = 3 then
      return (document.latest.content, applied)
    else .error .documentInvalid) (by decide +kernel)
  simp only [bind_eq_ok] at h
  obtain ⟨document, -, _, happlied, h⟩ := h
  split at h
  · rename_i hapart
    cases h
    have happlied := applyTo_ok happlied
    rw [hapart.2.1, hapart.2.2] at happlied
    exact ⟨_, _, hapart.1, happlied, bgm_applyOperations hapart.1 happlied⟩
  · cases h

end ShortReel.BgmTrack
