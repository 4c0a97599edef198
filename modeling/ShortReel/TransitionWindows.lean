import ShortReel.TimelineDocuments

/-!
# Transition windows

The transitions on both sides of a clip take half of their time each from it, so together at most
twice its duration. An accepted batch keeps this for every clip, although it only looks at the
clips it touched and the ones behind them.
-/

namespace ShortReel.TransitionWindows

open OrderEdits TimelineModel TimelineOperations TimelineOperations.Batch TimelineTrack
open TimelineSteps TimelineService TimelineDocuments

/-- A clip has room for its share of the transitions on both sides; nothing is asked of a clip of
unknown duration. -/
def WindowFits (sources : EpisodeSources) (previous : Option EditClip) (clip : EditClip) : Prop :=
  ∀ duration ∈ durationUs sources clip,
    transitionUs (previous.bind (·.transitionToNext)) + transitionUs clip.transitionToNext ≤
      2 * duration

def WindowLaw (sources : EpisodeSources) : Option EditClip → List EditClip → Prop
  | _, [] => True
  | previous, clip :: rest => WindowFits sources previous clip ∧ WindowLaw sources (some clip) rest

instance (sources : EpisodeSources) (previous : Option EditClip) (clip : EditClip) :
    Decidable (WindowFits sources previous clip) :=
  inferInstanceAs (Decidable (∀ duration ∈ durationUs sources clip, _))

instance decidableWindowLaw (sources : EpisodeSources) :
    (previous : Option EditClip) → (clips : List EditClip) →
      Decidable (WindowLaw sources previous clips)
  | _, [] => .isTrue trivial
  | previous, clip :: rest =>
      have := decidableWindowLaw sources (some clip) rest
      inferInstanceAs (Decidable (WindowFits sources previous clip ∧ _))

theorem windowLaw_iff {sources : EpisodeSources} {previous : Option EditClip}
    {clips : List EditClip} :
    WindowLaw sources previous clips ↔ ∀ front clip back, clips = front ++ clip :: back →
      WindowFits sources (front.getLast?.or previous) clip := by
  induction clips generalizing previous with
  | nil => simp [WindowLaw]
  | cons first rest ih =>
      rw [WindowLaw, ih]
      constructor
      · rintro ⟨hfirst, hrest⟩ front clip back hsplit
        cases front with
        | nil =>
            cases hsplit
            exact hfirst
        | cons head front =>
            obtain ⟨rfl, rfl⟩ := List.cons.inj hsplit
            have h := hrest front clip back rfl
            rw [List.getLast?_cons]
            cases hlast : front.getLast? with
            | none => simpa [hlast] using h
            | some last => simpa [hlast] using h
      · intro h
        refine ⟨h [] first rest rfl, fun front clip back hsplit => ?_⟩
        have hcons := h (first :: front) clip back (by rw [hsplit]; rfl)
        rw [List.getLast?_cons] at hcons
        cases hlast : front.getLast? with
        | none => simpa [hlast] using hcons
        | some last => simpa [hlast] using hcons

section Check

variable {sources : EpisodeSources} {last : LastOperation}

theorem checkTransitionWindow_ok {previous : Option EditClip} {clip : EditClip}
    (h : checkTransitionWindow sources last previous clip = .ok ())
    (htouched : clip.id ∈ last ∨ ∃ other ∈ previous, other.id ∈ last) :
    WindowFits sources previous clip := by
  intro duration hduration
  have htouchedIndex : ∃ item ∈ previous.toList ++ [clip], ∃ index, last.lookup item.id = some index := by
    rcases htouched with hclip | ⟨other, hother, hmem⟩
    · exact ⟨clip, by simp, Option.isSome_iff_exists.mp (AList.lookup_isSome.mpr hclip)⟩
    · exact ⟨other, by simp [Option.mem_def.mp hother],
        Option.isSome_iff_exists.mp (AList.lookup_isSome.mpr hmem)⟩
  have hindex : ∃ index, ((previous.toList ++ [clip]).filterMap
      fun item => last.lookup item.id).max? = some index := by
    obtain ⟨item, hitem, index, hlookup⟩ := htouchedIndex
    rw [← Option.isSome_iff_exists, List.isSome_max?_iff]
    exact List.ne_nil_of_mem (List.mem_filterMap.mpr ⟨item, hitem, hlookup⟩)
  obtain ⟨index, hindex⟩ := hindex
  simp only [checkTransitionWindow, hindex, Option.mem_def.mp hduration] at h
  split at h
  · rename_i hfits
    omega
  · cases h

theorem checkTransitionWindows_ok {previous : Option EditClip} {clips : List EditClip}
    (h : checkTransitionWindows sources last previous clips = .ok ())
    {front back : List EditClip} {clip : EditClip} (hsplit : clips = front ++ clip :: back) :
    checkTransitionWindow sources last (front.getLast?.or previous) clip = .ok () := by
  induction front generalizing previous clips with
  | nil =>
      rw [hsplit] at h
      simp only [List.nil_append, checkTransitionWindows, bind_eq_ok] at h
      obtain ⟨⟨⟩, hclip, -⟩ := h
      exact hclip
  | cons first front ih =>
      rw [hsplit] at h
      simp only [List.cons_append, checkTransitionWindows, bind_eq_ok] at h
      obtain ⟨⟨⟩, -, hrest⟩ := h
      have hcheck := ih hrest rfl
      rw [List.getLast?_cons]
      cases hlast : front.getLast? with
      | none => simpa [hlast] using hcheck
      | some other => simpa [hlast] using hcheck

end Check

theorem previous_of_nextOf {clips front back : List EditClip} {clip previous : EditClip}
    (hnodup : (clipIds clips).Nodup) (hprevious : previous ∈ clips)
    (hnext : nextOf (clipIds clips) previous.id = some clip.id)
    (hsplit : clips = front ++ clip :: back) : front.getLast? = some previous := by
  have hids : clipIds clips = clipIds front ++ clip.id :: clipIds back := by
    rw [hsplit, clipIds_append, clipIds_cons]
  have hlast := getLast?_of_nextOf hnodup hnext hids
  rw [clipIds, List.getLast?_map] at hlast
  obtain ⟨other, hother, hid⟩ := Option.map_eq_some_iff.mp hlast
  have hmem : other ∈ clips := by
    rw [hsplit]
    exact List.mem_append_left _ (List.mem_of_getLast? hother)
  rw [hother, eq_of_id_eq hnodup hmem hprevious hid]

theorem windowFits_of_untouched {sources : EpisodeSources} {operations : List TimelineOperation}
    {batch result : Batch} (run : Run operations batch result)
    (hnodup : (clipIds batch.clips).Nodup) (hnodup' : (clipIds result.clips).Nodup)
    (hlaw : WindowLaw sources none batch.clips) {front back : List EditClip} {clip : EditClip}
    (hsplit : result.clips = front ++ clip :: back) (hclip : clip.id ∉ result.lastOperation)
    (hfront : ∀ previous ∈ front.getLast?, previous.id ∉ result.lastOperation) :
    WindowFits sources front.getLast? clip := by
  have hresult : clip ∈ result.clips := by simp [hsplit]
  have hbatch : clip ∈ batch.clips := (run.frame.mem_iff hclip).mp hresult
  obtain ⟨before, behind, hbefore⟩ := List.append_of_mem hbatch
  have hold := windowLaw_iff.mp hlaw before clip behind hbefore
  rw [Option.or_none] at hold
  intro duration hduration
  have hroom := hold duration hduration
  -- The transition coming in, if there is one, is the one that came in before.
  have hincoming : transitionUs (front.getLast?.bind (·.transitionToNext)) ≤
      transitionUs (before.getLast?.bind (·.transitionToNext)) := by
    cases hlast : front.getLast? with
    | none => simp [transitionUs]
    | some previous =>
        cases htransition : previous.transitionToNext with
        | none => simp [transitionUs, htransition]
        | some transition =>
            obtain ⟨init, rfl⟩ := List.getLast?_eq_some_iff.mp hlast
            have huntouched := hfront previous hlast
            have hin : previous ∈ result.clips := by simp [hsplit]
            have hnext : nextOf (clipIds result.clips) previous.id = some clip.id := by
              have hnotMem : previous.id ∉ clipIds init := by
                rw [hsplit] at hnodup'
                simp only [clipIds_append, clipIds_cons, List.append_assoc, List.cons_append] at hnodup'
                rw [List.nodup_middle, List.nodup_cons] at hnodup'
                exact fun hmem => hnodup'.1 (List.mem_append_left _ hmem)
              rw [hsplit]
              simp only [clipIds_append, clipIds_cons, List.append_assoc, List.cons_append,
                List.nil_append]
              rw [nextOf_append_cons hnotMem, List.head?_cons]
            rw [run.cuts previous hin huntouched (by simp [htransition])] at hnext
            have hprevious := previous_of_nextOf hnodup
              ((run.frame.mem_iff huntouched).mp hin) hnext hbefore
            rw [hprevious]
  omega

/-- Every accepted batch keeps the window law, for fixed media facts. -/
theorem windowLaw_applyOperations {sources : EpisodeSources} {content : EditTimelineContent}
    {nextClipNumber nextBgmNumber : ℕ+} {operations : List TimelineOperation}
    {applied : AppliedBatch} (hlaw : WindowLaw sources none content.clips)
    (happly : applyOperations content nextClipNumber nextBgmNumber operations sources =
      .ok applied) :
    WindowLaw sources none applied.content.clips := by
  obtain ⟨batch, accepted⟩ := applyOperations_ok happly
  rw [accepted.clips_eq, windowLaw_iff]
  intro front clip back hsplit
  rw [Option.or_none]
  by_cases htouched : clip.id ∈ batch.lastOperation ∨
      ∃ previous ∈ front.getLast?, previous.id ∈ batch.lastOperation
  · have hcheck := checkTransitionWindows_ok (accepted.windows rfl) hsplit
    rw [Option.or_none] at hcheck
    exact checkTransitionWindow_ok hcheck htouched
  · have hnodup : (clipIds batch.clips).Nodup := by
      rw [← accepted.clips_eq]
      exact applied.content.unique_clip_ids
    simp only [not_or, not_exists, not_and] at htouched
    exact windowFits_of_untouched accepted.run content.unique_clip_ids hnodup hlaw hsplit
      htouched.1 htouched.2

theorem windowLaw_applyOperations_sample :
    ∃ content applied, WindowLaw sampleSources none content.clips ∧
      applyOperations content 3 1
        [.insert { unitId := "E1S01", after := some (.c 2), hold := 2 },
          .setTransition (.c 2) (some ⟨.blur, 2⟩)] sampleSources = .ok applied ∧
      WindowLaw sampleSources none applied.content.clips := by
  obtain ⟨⟨content, applied⟩, h⟩ := exists_of_isOk (x := do
    let document ← sampleTimeline [[.setTransition (.c 1) (some ⟨.dissolve, 1⟩)]]
    let applied ← applyTo document sampleSources document.latest.content
      [.insert { unitId := "E1S01", after := some (.c 2), hold := 2 },
        .setTransition (.c 2) (some ⟨.blur, 2⟩)] true
    if WindowLaw sampleSources none document.latest.content.clips ∧
        document.nextClipNumber = 3 ∧ document.nextBgmNumber = 1 then
      return (document.latest.content, applied)
    else .error .documentInvalid) (by decide +kernel)
  simp only [bind_eq_ok] at h
  obtain ⟨document, -, _, happlied, h⟩ := h
  split at h
  · rename_i hlaw
    cases h
    have happlied := applyTo_ok happlied
    rw [hlaw.2.1, hlaw.2.2] at happlied
    exact ⟨_, _, hlaw.1, happlied, windowLaw_applyOperations hlaw.1 happlied⟩
  · cases h

end ShortReel.TransitionWindows
