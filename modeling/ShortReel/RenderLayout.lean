import ShortReel.RenderPlan

/-!
# The frames of a plan

Clips keep the frames the layout gives them: joining cuts and closing segments only adds to them.
The layout rounds the same boundaries for a clip and the one behind it.
-/

namespace ShortReel.RenderLayout

open TimelineModel RenderPlan

theorem roundHalfEven_mono {first second : ℚ} (h : first ≤ second) :
    roundHalfEven first ≤ roundHalfEven second := by
  have hfloor : ⌊first⌋ ≤ ⌊second⌋ := Int.floor_mono h
  have hbelow (value : ℚ) : ⌊value⌋ ≤ roundHalfEven value ∧ roundHalfEven value ≤ ⌊value⌋ + 1 := by
    unfold roundHalfEven
    dsimp only
    split_ifs <;> omega
  rcases hfloor.lt_or_eq with hlt | heq
  · have hfirst := (hbelow first).2
    have hsecond := (hbelow second).1
    omega
  · unfold roundHalfEven
    rw [← heq]
    dsimp only
    have hrest : first - ⌊first⌋ ≤ second - ⌊first⌋ := sub_le_sub_right h _
    split_ifs <;> first | omega | (exfalso; linarith)

theorem abs_roundHalfEven_sub_le (value : ℚ) : |(roundHalfEven value : ℚ) - value| ≤ 1 / 2 := by
  have hlow : (⌊value⌋ : ℚ) ≤ value := Int.floor_le value
  have hhigh : value < ⌊value⌋ + 1 := Int.lt_floor_add_one value
  rw [abs_le]
  unfold roundHalfEven
  dsimp only
  split_ifs <;> push_cast <;> constructor <;> linarith

section Layout

variable (profile : OutputProfile)

theorem frameAt_mono {first second : ℕ} (h : first ≤ second) :
    profile.frameAt first ≤ profile.frameAt second := by
  apply roundHalfEven_mono
  have hfps := profile.fps_pos.le
  have hcast : (first : ℚ) ≤ second := by exact_mod_cast h
  gcongr

def Shown (startUs : ℕ) (clip : RenderClip) : Prop :=
  profile.frameAt startUs < profile.frameAt (startUs + clip.durationUs)

instance (startUs : ℕ) (clip : RenderClip) : Decidable (Shown profile startUs clip) :=
  inferInstanceAs (Decidable (_ < _))

theorem frameAt_of_not_shown {startUs : ℕ} {clip : RenderClip} (h : ¬ Shown profile startUs clip) :
    profile.frameAt (startUs + clip.durationUs) = profile.frameAt startUs :=
  le_antisymm (not_lt.mp h) (frameAt_mono profile (Nat.le_add_right _ _))

theorem layOutFrom_of_shown {startUs : ℕ} {clip : RenderClip} (clips : List RenderClip)
    (h : Shown profile startUs clip) :
    ∃ item, item.clip = clip ∧ item.startFrame = profile.frameAt startUs ∧
      item.endFrame = profile.frameAt (startUs + clip.durationUs) ∧
      (layOutFrom profile startUs (clip :: clips)).1 =
        item :: (layOutFrom profile (startUs + clip.durationUs) clips).1 := by
  refine ⟨_, ?_, ?_, ?_, congrArg Prod.fst (if_pos h)⟩
  · rfl
  · rfl
  · simp only [PlannedClip.endFrame, PlannedClip.frames]
    omega

theorem layOutFrom_of_not_shown {startUs : ℕ} {clip : RenderClip} (clips : List RenderClip)
    (h : ¬ Shown profile startUs clip) :
    layOutFrom profile startUs (clip :: clips) =
      layOutFrom profile (startUs + clip.durationUs) clips :=
  if_neg h

def Contiguous : (frame : ℤ) → List PlannedClip → Prop
  | _, [] => True
  | frame, item :: rest => item.startFrame = frame ∧ 0 < item.frames ∧ Contiguous item.endFrame rest

def SameFrames (first second : PlannedClip) : Prop :=
  first.clip = second.clip ∧ first.startFrame = second.startFrame ∧ first.frames = second.frames

theorem join_sameFrames (previous following : PlannedClip) :
    SameFrames previous (join profile previous following).1 ∧
      SameFrames following (join profile previous following).2 := by
  unfold join
  split
  · exact ⟨⟨rfl, rfl, rfl⟩, rfl, rfl, rfl⟩
  · dsimp only
    split
    · exact ⟨⟨rfl, rfl, rfl⟩, rfl, rfl, rfl⟩
    · exact ⟨⟨rfl, rfl, rfl⟩, rfl, rfl, rfl⟩

theorem SameFrames.trans {first second third : PlannedClip} (h₁ : SameFrames first second)
    (h₂ : SameFrames second third) : SameFrames first third :=
  ⟨h₁.1.trans h₂.1, h₁.2.1.trans h₂.2.1, h₁.2.2.trans h₂.2.2⟩

theorem joinFrom_sameFrames {original previous : PlannedClip} {planned : List PlannedClip}
    (h : SameFrames original previous) :
    List.Forall₂ SameFrames (original :: planned) (joinFrom profile previous planned) := by
  induction planned generalizing original previous with
  | nil => exact .cons h .nil
  | cons following planned ih =>
      obtain ⟨hprevious, hfollowing⟩ := join_sameFrames profile previous following
      exact .cons (h.trans hprevious) (ih hfollowing)

theorem joinAll_sameFrames (planned : List PlannedClip) :
    List.Forall₂ SameFrames planned (joinAll profile planned) := by
  cases planned with
  | nil => exact .nil
  | cons first planned => exact joinFrom_sameFrames profile ⟨rfl, rfl, rfl⟩

theorem contiguous_congr {frame : ℤ} {planned joined : List PlannedClip}
    (h : List.Forall₂ SameFrames planned joined) (hplanned : Contiguous frame planned) :
    Contiguous frame joined := by
  induction h generalizing frame with
  | nil => trivial
  | cons hitem hrest ih =>
      obtain ⟨-, hstart, hframes⟩ := hitem
      obtain ⟨hframe, hpos, htail⟩ := hplanned
      refine ⟨hstart ▸ hframe, hframes ▸ hpos, ih ?_⟩
      unfold PlannedClip.endFrame at *
      rwa [← hstart, ← hframes]

theorem contiguous_layOutFrom {startUs : ℕ} {clips : List RenderClip} :
    Contiguous (profile.frameAt startUs) (layOutFrom profile startUs clips).1 := by
  induction clips generalizing startUs with
  | nil => trivial
  | cons clip clips ih =>
      by_cases hshown : Shown profile startUs clip
      · obtain ⟨item, -, hstart, hend, hlayout⟩ := layOutFrom_of_shown profile clips hshown
        rw [hlayout]
        refine ⟨hstart, ?_, hend ▸ ih⟩
        have hlt : profile.frameAt startUs < profile.frameAt (startUs + clip.durationUs) := hshown
        have hframes : item.endFrame = item.startFrame + item.frames := rfl
        omega
      · rw [layOutFrom_of_not_shown profile clips hshown,
          ← frameAt_of_not_shown profile hshown]
        exact ih

theorem segmentsFrom_clips {current : List PlannedClip} {crossfades : List Crossfade}
    {item : PlannedClip} {rest : List PlannedClip} :
    (segmentsFrom profile current crossfades (item :: rest)).flatMap (·.clips) =
      current ++ item :: rest := by
  induction rest generalizing current crossfades item with
  | nil =>
      unfold segmentsFrom
      split <;> simp [segmentsFrom]
  | cons next rest ih =>
      rw [segmentsFrom]
      split
      · rw [List.flatMap_cons, ih]
        simp
      · rw [if_neg (List.cons_ne_nil next rest), ih]
        simp

theorem clips_planRender (clips : List RenderClip) :
    (planRender profile clips).clips = joinAll profile (layOut profile clips).1 := by
  change (segmentsFrom profile [] [] (joinAll profile (layOut profile clips).1)).flatMap _ = _
  cases joinAll profile (layOut profile clips).1 with
  | nil => rfl
  | cons item rest => exact segmentsFrom_clips profile

theorem planRender_clips (clips : List RenderClip) :
    List.Forall₂ SameFrames (layOut profile clips).1 (planRender profile clips).clips := by
  rw [clips_planRender]
  exact joinAll_sameFrames profile (layOut profile clips).1

end Layout

end ShortReel.RenderLayout
