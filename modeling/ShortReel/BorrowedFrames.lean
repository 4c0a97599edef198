import ShortReel.SegmentStreams

/-!
# Frames from beyond a clip

What a clip borrows for the crossfades on its two sides lies inside its media, frozen frames make up
for what is missing there, and the filters of `ffmpeg_render.py` produce exactly the frames planned.
-/

namespace ShortReel.BorrowedFrames

open TimelineModel RenderPlan RenderLayout CrossfadeWindows SegmentStreams

/-- Where `segment_args` seeks to in the source: the borrowed frames before the start of the clip. -/
def seekUs (planned : PlannedClip) (fps : ℚ) : ℤ :=
  let leadUs := ⌊(planned.lead.sourceFrames : ℚ) * microsecondsPerSecond / fps⌋
  max (planned.clip.sourceInUs - leadUs) 0

/-- The frames `_clip_chain` takes from the source. -/
def takenFrames (planned : PlannedClip) : ℤ :=
  planned.lead.sourceFrames + planned.sourceFrames + planned.trail.sourceFrames

/-- `_clip_chain` on the frames the source delivers: `trim`, `tpad` with copies of the first frame in
front and of the last one without end, and `trim` again. -/
def clipChain {φ : Type} (planned : PlannedClip) (delivered : List φ) : List φ :=
  let trimmed := delivered.take (max (takenFrames planned) 1).toNat
  match trimmed.head?, trimmed.getLast? with
  | some first, some last =>
      let opened := List.replicate planned.lead.freezeFrames.toNat first ++ trimmed
      (opened ++ List.replicate planned.streamFrames.toNat last).take planned.streamFrames.toNat
  | _, _ => []

theorem clipChain_of_ne_nil {φ : Type} (planned : PlannedClip) {delivered : List φ}
    (h : delivered ≠ []) :
    ∃ first last, (delivered.take (max (takenFrames planned) 1).toNat).head? = some first ∧
      (delivered.take (max (takenFrames planned) 1).toNat).getLast? = some last ∧
      clipChain planned delivered =
        (List.replicate planned.lead.freezeFrames.toNat first ++
          delivered.take (max (takenFrames planned) 1).toNat ++
          List.replicate planned.streamFrames.toNat last).take planned.streamFrames.toNat := by
  have hpos : (max (takenFrames planned) 1).toNat ≠ 0 := by omega
  set trimmed := delivered.take (max (takenFrames planned) 1).toNat with htrimmed
  have hne : trimmed ≠ [] := by
    rw [htrimmed, Ne, List.take_eq_nil_iff]
    exact fun hnil => hnil.elim hpos h
  refine ⟨trimmed.head hne, trimmed.getLast hne, List.head?_eq_some_head hne,
    List.getLast?_eq_some_getLast hne, ?_⟩
  simp only [clipChain, ← htrimmed, List.head?_eq_some_head hne, List.getLast?_eq_some_getLast hne]

theorem length_clipChain {φ : Type} (planned : PlannedClip) {delivered : List φ}
    (h : delivered ≠ []) : (clipChain planned delivered).length = planned.streamFrames.toNat := by
  obtain ⟨first, last, -, -, hchain⟩ := clipChain_of_ne_nil planned h
  rw [hchain, List.length_take, List.length_append, List.length_replicate]
  omega

theorem borrowFrames_bounds {needed : ℤ} (hneeded : 0 ≤ needed) (availableUs : ℤ) {fps : ℚ}
    (hfps : 0 < fps) :
    0 ≤ (borrowFrames needed availableUs fps).sourceFrames ∧
      0 ≤ (borrowFrames needed availableUs fps).freezeFrames ∧
      ((borrowFrames needed availableUs fps).sourceFrames : ℚ) * microsecondsPerSecond / fps ≤
        (max availableUs 0 : ℤ) := by
  set available := ⌊((max availableUs 0 : ℤ) : ℚ) * fps / microsecondsPerSecond⌋ with havailable
  have hmicro : (0 : ℚ) < microsecondsPerSecond := by norm_num [microsecondsPerSecond]
  have hnonneg : (0 : ℚ) ≤ (max availableUs 0 : ℤ) := by exact_mod_cast le_max_right _ _
  have havailable_nonneg : 0 ≤ available := by
    rw [havailable]
    exact Int.floor_nonneg.mpr (by positivity)
  refine ⟨le_min hneeded havailable_nonneg, sub_nonneg.mpr (min_le_left _ _), ?_⟩
  have hle : ((min needed available : ℤ) : ℚ) ≤ (max availableUs 0 : ℤ) * fps / microsecondsPerSecond :=
    (Int.cast_le.mpr (min_le_right needed available)).trans (Int.floor_le _)
  rw [div_le_iff₀ hfps]
  rwa [le_div_iff₀ hmicro] at hle

theorem sourceFrames_eq_zero {frames : ℤ} {fps : ℚ} (hfps : 0 < fps) (hnonneg : 0 ≤ frames)
    (h : (frames : ℚ) * microsecondsPerSecond / fps ≤ 0) : frames = 0 := by
  have hmicro : (0 : ℚ) < microsecondsPerSecond := by norm_num [microsecondsPerSecond]
  rw [div_le_iff₀ hfps, zero_mul] at h
  have hle : (frames : ℚ) ≤ 0 := nonpos_of_mul_nonpos_left h hmicro
  exact le_antisymm (by exact_mod_cast hle) hnonneg

section Plans

variable (profile : OutputProfile)

structure Fits (availableUs : ℤ) (extension : Extension) : Prop where
  source_nonneg : 0 ≤ extension.sourceFrames
  freeze_nonneg : 0 ≤ extension.freezeFrames
  source_le : (extension.sourceFrames : ℚ) * microsecondsPerSecond / profile.fps ≤
    (max availableUs 0 : ℤ)

theorem fits_none (availableUs : ℤ) : Fits profile availableUs {} where
  source_nonneg := le_refl 0
  freeze_nonneg := le_refl 0
  source_le := by
    rw [Int.cast_zero, zero_mul, zero_div]
    exact_mod_cast le_max_right _ _

theorem fits_borrowFrames {needed : ℤ} (hneeded : 0 ≤ needed) (availableUs : ℤ) :
    Fits profile availableUs (borrowFrames needed availableUs profile.fps) :=
  have hbounds := borrowFrames_bounds hneeded availableUs profile.fps_pos
  ⟨hbounds.1, hbounds.2.1, hbounds.2.2⟩

theorem fits_leadOf (previous following : RenderClip) :
    Fits profile following.sourceInUs (leadOf profile previous following) := by
  unfold leadOf
  cases overlap previous with
  | none => exact fits_none profile _
  | some transition => exact fits_borrowFrames profile (windowFrames_nonneg profile transition).1 _

theorem fits_trailOf (item : PlannedClip) :
    Fits profile (item.clip.mediaDurationUs - item.clip.sourceOutUs) (trailOf profile item) := by
  unfold trailOf
  cases overlap item.clip with
  | none => exact fits_none profile _
  | some transition =>
      have hneeded := (windowFrames_nonneg profile transition).2.le
      dsimp only
      split
      · obtain ⟨hsource, hfreeze, hle⟩ := fits_borrowFrames profile hneeded 0
        rw [max_self, Int.cast_zero] at hle
        refine ⟨hsource, hfreeze, hle.trans ?_⟩
        exact_mod_cast le_max_right _ _
      · exact fits_borrowFrames profile hneeded _

/-- What a clip borrows lies inside its media: before its start down to the first frame, behind its
end up to the last. -/
structure BorrowsInside (item : PlannedClip) : Prop where
  lead : Fits profile item.clip.sourceInUs item.lead
  trail : Fits profile (item.clip.mediaDurationUs - item.clip.sourceOutUs) item.trail

theorem borrowsInside_of_borrowed {planned : List PlannedClip} {lead : Extension}
    (h : Borrowed profile lead planned)
    (hlead : ∀ item ∈ planned.head?, Fits profile item.clip.sourceInUs lead) :
    ∀ item ∈ planned, BorrowsInside profile item := by
  induction planned generalizing lead with
  | nil => exact fun item hitem => absurd hitem List.not_mem_nil
  | cons item rest ih =>
      have hitem : Fits profile item.clip.sourceInUs item.lead := h.1 ▸ hlead item rfl
      rw [List.forall_mem_cons]
      cases rest with
      | nil =>
          have htrail : item.trail = {} := h.2
          exact ⟨⟨hitem, htrail ▸ fits_none profile _⟩, fun _ hnone => absurd hnone List.not_mem_nil⟩
      | cons next rest =>
          obtain ⟨-, htrail, hrest⟩ := h
          refine ⟨⟨hitem, htrail ▸ fits_trailOf profile item⟩, ih hrest fun other hother => ?_⟩
          cases hother
          exact fits_leadOf profile item.clip next.clip

/-- The frames the windows around each cut ask for, the first clip with this many before its start. -/
def Required : (lead : ℤ) → List PlannedClip → Prop
  | _, [] => True
  | lead, item :: rest =>
      item.lead.frames = lead ∧
        item.trail.frames = (if rest = [] then 0 else incomingFrames profile item.clip) ∧
        Required (outgoingFrames profile item.clip) rest

theorem required_of_borrowed {planned : List PlannedClip} {lead : Extension}
    (h : Borrowed profile lead planned) : Required profile lead.frames planned := by
  induction planned generalizing lead with
  | nil => trivial
  | cons item rest ih =>
      obtain ⟨hlead, hrest⟩ := h
      refine ⟨congrArg Extension.frames hlead, ?_⟩
      cases rest with
      | nil =>
          rw [if_pos rfl]
          exact ⟨congrArg Extension.frames hrest, trivial⟩
      | cons next rest =>
          have hnext := ih hrest.2
          rw [frames_leadOf] at hnext
          rw [if_neg (List.cons_ne_nil next rest), hrest.1, frames_trailOf]
          exact ⟨rfl, hnext⟩

def OwnFrames (planned : PlannedClip) : Prop :=
  0 ≤ planned.sourceFrames ∧ 0 ≤ planned.holdFrames ∧ 0 < planned.frames

theorem ownFrames_layOutFrom (clips : List RenderClip) (startUs : ℕ) :
    ∀ planned ∈ (layOutFrom profile startUs clips).1, OwnFrames planned := by
  induction clips generalizing startUs with
  | nil => exact fun planned h => absurd h List.not_mem_nil
  | cons clip clips ih =>
      rw [layOutFrom]
      split
      · rename_i hshown
        have hsource : profile.frameAt startUs ≤ profile.frameAt (startUs + clip.sourceDurationUs) :=
          frameAt_mono profile (Nat.le_add_right _ _)
        have hhold : profile.frameAt (startUs + clip.sourceDurationUs) ≤
            profile.frameAt (startUs + clip.durationUs) :=
          frameAt_mono profile (Nat.add_le_add_left (Nat.le_add_right _ _) _)
        rw [List.forall_mem_cons]
        refine ⟨⟨sub_nonneg.mpr hsource, sub_nonneg.mpr hhold, ?_⟩, ih _⟩
        simp only [PlannedClip.frames]
        omega
      · exact ih _

theorem ownFrames_join {previous following : PlannedClip} (hprevious : OwnFrames previous)
    (hfollowing : OwnFrames following) :
    OwnFrames (join profile previous following).1 ∧ OwnFrames (join profile previous following).2 := by
  unfold join
  split
  · exact ⟨hprevious, hfollowing⟩
  · dsimp only
    split <;> exact ⟨hprevious, hfollowing⟩

theorem ownFrames_joinFrom {previous : PlannedClip} {planned : List PlannedClip}
    (hprevious : OwnFrames previous) (hplanned : ∀ item ∈ planned, OwnFrames item) :
    ∀ item ∈ joinFrom profile previous planned, OwnFrames item := by
  induction planned generalizing previous with
  | nil => exact List.forall_mem_singleton.mpr hprevious
  | cons following planned ih =>
      rw [List.forall_mem_cons] at hplanned
      obtain ⟨hfirst, hsecond⟩ := ownFrames_join profile hprevious hplanned.1
      exact List.forall_mem_cons.mpr ⟨hfirst, ih hsecond hplanned.2⟩

theorem ownFrames_joinAll {planned : List PlannedClip} (h : ∀ item ∈ planned, OwnFrames item) :
    ∀ item ∈ joinAll profile planned, OwnFrames item := by
  cases planned with
  | nil => exact h
  | cons first planned =>
      rw [List.forall_mem_cons] at h
      exact ownFrames_joinFrom profile h.1 h.2

section Picture

variable {profile} {item : PlannedClip}

theorem seekUs_eq (h : BorrowsInside profile item) :
    seekUs item profile.fps = item.clip.sourceInUs -
      ⌊(item.lead.sourceFrames : ℚ) * microsecondsPerSecond / profile.fps⌋ := by
  have hle := (Int.floor_le _).trans h.lead.source_le
  rw [Int.cast_le] at hle
  unfold seekUs
  dsimp only
  omega

theorem streamFrames_pos (h : BorrowsInside profile item) (hown : OwnFrames item) :
    0 < item.streamFrames := by
  have hlead := add_nonneg h.lead.source_nonneg h.lead.freeze_nonneg
  have htrail := add_nonneg h.trail.source_nonneg h.trail.freeze_nonneg
  have hframes := hown.2.2
  unfold PlannedClip.streamFrames Extension.frames
  omega

theorem clipChain_eq {φ : Type} (h : BorrowsInside profile item) (hown : OwnFrames item)
    (htaken : 0 < takenFrames item) {delivered : List φ}
    (henough : takenFrames item ≤ delivered.length) :
    ∃ first ∈ delivered.head?, ∃ last ∈ (delivered.take (takenFrames item).toNat).getLast?,
      clipChain item delivered =
        List.replicate item.lead.freezeFrames.toNat first ++
          delivered.take (takenFrames item).toNat ++
          List.replicate (item.holdFrames + item.trail.freezeFrames).toNat last := by
  have hne : delivered ≠ [] := by
    rintro rfl
    rw [List.length_nil] at henough
    omega
  obtain ⟨first, last, hfirst, hlast, hchain⟩ := clipChain_of_ne_nil item hne
  have hmax : (max (takenFrames item) 1).toNat = (takenFrames item).toNat := by omega
  rw [hmax] at hfirst hlast hchain
  refine ⟨first, ?_, last, hlast, ?_⟩
  · rw [List.head?_take, if_neg (by omega)] at hfirst
    exact hfirst
  · have hleadSource := h.lead.source_nonneg
    have hleadFreeze := h.lead.freeze_nonneg
    have htrailSource := h.trail.source_nonneg
    have htrailFreeze := h.trail.freeze_nonneg
    obtain ⟨hsource, hhold, hframes⟩ := hown
    have hlength : (List.replicate item.lead.freezeFrames.toNat first ++
        delivered.take (takenFrames item).toNat).length +
          (item.holdFrames + item.trail.freezeFrames).toNat = item.streamFrames.toNat := by
      rw [List.length_append, List.length_replicate, List.length_take, min_eq_left (by omega)]
      simp only [takenFrames, PlannedClip.streamFrames, PlannedClip.frames, Extension.frames] at htaken ⊢
      omega
    rw [hchain, List.take_append, List.take_of_length_le (by omega), List.take_replicate]
    congr 2
    omega

end Picture

/-- Every clip of every plan: borrowed frames lie inside its media, with the frozen ones they are
what the windows on its two sides ask for, and its picture has exactly its frames. -/
theorem planRender_borrowed (clips : List RenderClip) :
    Required profile 0 (planRender profile clips).clips ∧
      ∀ item ∈ (planRender profile clips).clips,
        BorrowsInside profile item ∧
        (0 ≤ seekUs item profile.fps ∧ seekUs item profile.fps = item.clip.sourceInUs -
          ⌊(item.lead.sourceFrames : ℚ) * microsecondsPerSecond / profile.fps⌋) ∧
        (item.trail.sourceFrames ≠ 0 →
          (item.clip.sourceOutUs : ℚ) +
            item.trail.sourceFrames * microsecondsPerSecond / profile.fps ≤
              item.clip.mediaDurationUs) ∧
        ∀ {φ : Type} (delivered : List φ), delivered ≠ [] →
          ((clipChain item delivered).length : ℤ) = item.streamFrames := by
  have hborrowed : Borrowed profile {} (planRender profile clips).clips := by
    rw [clips_planRender]
    exact borrowed_joinAll profile (plain_layOutFrom profile clips 0)
  have hown : ∀ item ∈ (planRender profile clips).clips, OwnFrames item := by
    rw [clips_planRender]
    exact ownFrames_joinAll profile (ownFrames_layOutFrom profile clips 0)
  have hinside := borrowsInside_of_borrowed profile hborrowed fun item _ => fits_none profile _
  refine ⟨required_of_borrowed profile hborrowed, fun item hitem => ?_⟩
  have hitemInside := hinside item hitem
  refine ⟨hitemInside, ⟨le_max_right _ _, seekUs_eq hitemInside⟩, fun htrail => ?_,
    fun delivered hdelivered => ?_⟩
  · have hle := hitemInside.trail.source_le
    rcases le_total ((item.clip.mediaDurationUs : ℤ) - item.clip.sourceOutUs) 0 with hnone | hsome
    · rw [max_eq_right hnone, Int.cast_zero] at hle
      exact absurd (sourceFrames_eq_zero profile.fps_pos hitemInside.trail.source_nonneg hle) htrail
    · rw [max_eq_left hsome] at hle
      push_cast at hle
      linarith
  · rw [length_clipChain item hdelivered]
    exact Int.toNat_of_nonneg (streamFrames_pos hitemInside (hown item hitem)).le

/-- The picture of a clip of a plan is its first frame frozen, the frames taken from its source, and the
last of them frozen. -/
theorem planRender_picture {clips : List RenderClip} {item : PlannedClip}
    (hitem : item ∈ (planRender profile clips).clips) (htaken : 0 < takenFrames item) {φ : Type}
    {delivered : List φ} (henough : takenFrames item ≤ delivered.length) :
    ∃ first ∈ delivered.head?, ∃ last ∈ (delivered.take (takenFrames item).toNat).getLast?,
      clipChain item delivered =
        List.replicate item.lead.freezeFrames.toNat first ++
          delivered.take (takenFrames item).toNat ++
          List.replicate (item.holdFrames + item.trail.freezeFrames).toNat last := by
  rw [clips_planRender] at hitem
  have hborrowed := borrowed_joinAll profile (plain_layOutFrom profile clips 0)
  have hinside := borrowsInside_of_borrowed profile hborrowed fun item _ => fits_none profile _
  have hown := ownFrames_joinAll profile (ownFrames_layOutFrom profile clips 0)
  exact clipChain_eq (hinside item hitem) (hown item hitem) htaken henough

theorem planRender_picture_tight :
    ∃ item ∈ (planRender finalCutProfile (renderClips tightClips tightMedia)).clips,
      ∃ first ∈ (List.range 40).head?,
        ∃ last ∈ ((List.range 40).take (takenFrames item).toNat).getLast?,
          clipChain item (List.range 40) = List.replicate item.lead.freezeFrames.toNat first ++
            (List.range 40).take (takenFrames item).toNat ++
            List.replicate (item.holdFrames + item.trail.freezeFrames).toNat last := by
  have hhead : ((planRender finalCutProfile (renderClips tightClips tightMedia)).clips.head?.any
      fun item => 0 < takenFrames item ∧ takenFrames item ≤ 40) = true := by decide +kernel
  obtain ⟨item, hsome, htaken⟩ := (Option.any_eq_true _ _).mp hhead
  obtain ⟨hpos, hle⟩ := of_decide_eq_true htaken
  have hmem := List.mem_of_mem_head? hsome
  exact ⟨item, hmem, planRender_picture _ hmem hpos (by rwa [List.length_range])⟩

end Plans

end ShortReel.BorrowedFrames
