import ShortReel.BgmTrack
import ShortReel.IntervalTracks
import ShortReel.TimelineAgreement

/-!
# Where the BGM sounds

The placed BGM lies inside the film, its fades fit into what is left of a clip, and clips that do
not overlap are placed without overlap. A clip the end of the film cuts off fades out there.
-/

namespace ShortReel.BgmPlacement

open TimelineModel TimelineOperations.Batch TimelinePlacement TimelineAgreement BgmTrack
open IntervalTracks

/-- `_fit_fades` over the integers, where a difference may become negative. -/
def fitFadesInt (fadeInUs fadeOutUs length : ℤ) (truncated : Bool) : ℤ × ℤ :=
  if truncated then
    let fadeOut := min (bgmCutoffFadeMicroseconds : ℤ) length
    (min fadeInUs (length - fadeOut), fadeOut)
  else
    let total := fadeInUs + fadeOutUs
    if total ≤ length then (fadeInUs, fadeOutUs)
    else (fadeInUs * length / total, fadeOutUs * length / total)

theorem fitFades_cast (clip : BgmClip) (length : ℕ) (truncated : Bool) :
    (((fitFades clip length truncated).1 : ℤ), ((fitFades clip length truncated).2 : ℤ)) =
      fitFadesInt clip.fadeInUs clip.fadeOutUs length truncated := by
  cases truncated with
  | true =>
      have hle : min bgmCutoffFadeMicroseconds length ≤ length := min_le_right _ _
      simp [fitFades, fitFadesInt, Nat.cast_sub hle]
  | false =>
      have hiff : ((clip.fadeInUs : ℤ) + clip.fadeOutUs ≤ length) ↔
          clip.fadeInUs + clip.fadeOutUs ≤ length := by
        exact_mod_cast Iff.rfl
      simp only [fitFades, fitFadesInt, Bool.false_eq_true, if_false, hiff]
      split
      · rfl
      · push_cast
        rfl

theorem fitFades_le (clip : BgmClip) (length : ℕ) (truncated : Bool) :
    (fitFades clip length truncated).1 + (fitFades clip length truncated).2 ≤ length := by
  cases truncated with
  | true =>
      have hout : min bgmCutoffFadeMicroseconds length ≤ length := min_le_right _ _
      have hin : min clip.fadeInUs (length - min bgmCutoffFadeMicroseconds length) ≤
          length - min bgmCutoffFadeMicroseconds length := min_le_right _ _
      simp only [fitFades, if_true]
      omega
  | false =>
      simp only [fitFades, Bool.false_eq_true, if_false]
      split
      · assumption
      · rename_i hlong
        have hpos : 0 < clip.fadeInUs + clip.fadeOutUs := by omega
        calc clip.fadeInUs * length / (clip.fadeInUs + clip.fadeOutUs) +
              clip.fadeOutUs * length / (clip.fadeInUs + clip.fadeOutUs)
            ≤ (clip.fadeInUs * length + clip.fadeOutUs * length) /
                (clip.fadeInUs + clip.fadeOutUs) := Nat.div_add_div_le_add_div
          _ = length := by rw [← Nat.add_mul, Nat.mul_div_cancel_left _ hpos]

structure PlacedFrom (durationUs : ℕ) (clip : BgmClip) (placed : PlacedBgm) : Prop where
  clipId_eq : placed.clipId = clip.id
  start_eq : placed.startUs = clip.startUs
  end_eq : placed.endUs = min (bgmEndUs clip) durationUs
  length_pos : 0 < placed.durationUs
  truncated_iff : placed.truncated = true ↔ durationUs < bgmEndUs clip
  fades_eq : (placed.fadeInUs, placed.fadeOutUs) =
    fitFades clip placed.durationUs placed.truncated

theorem placedFrom_of_some {durationUs : ℕ} {clip : BgmClip} {placed : PlacedBgm}
    (h : placeBgmClip durationUs clip = some placed) : PlacedFrom durationUs clip placed := by
  have hend : clip.startUs + bgmClipLengthUs clip = bgmEndUs clip := rfl
  unfold placeBgmClip at h
  dsimp only at h
  rw [hend] at h
  split at h
  · cases h
  · rename_i hlate
    cases h
    refine ⟨rfl, rfl, ?_, ?_, ?_, rfl⟩
    · simp only [PlacedBgm.endUs]
      omega
    · dsimp only
      omega
    · simp only [decide_eq_true_eq, min_lt_iff, lt_self_iff_false, false_or]

theorem placeBgmClip_isSome {durationUs : ℕ} {clip : BgmClip} (h : clip.startUs < durationUs) :
    ∃ placed, placeBgmClip durationUs clip = some placed := by
  have hend := start_lt_end clip
  unfold placeBgmClip
  dsimp only
  rw [if_neg]
  · exact ⟨_, rfl⟩
  · unfold bgmEndUs at hend
    omega

theorem disjoint_placeBgm {bgm : List BgmClip} (durationUs : ℕ) (h : NonOverlapping bgm) :
    (placeBgm bgm durationUs).Pairwise fun first second => first.endUs ≤ second.startUs := by
  have hperm : (bgmByStart bgm).Perm bgm := perm_byStart BgmClip.startUs bgm
  have hsorted : (bgmByStart bgm).Pairwise fun first second => first.startUs ≤ second.startUs :=
    pairwise_byStart BgmClip.startUs bgm
  have hapart : (bgmByStart bgm).Pairwise Apart := (hperm.pairwise_iff Apart.symm).mpr h
  refine List.Pairwise.filterMap (placeBgmClip durationUs) ?_ (hsorted.and hapart)
  rintro first second ⟨hle, hdisjoint⟩ placed hplaced other hother
  have hfirst := placedFrom_of_some hplaced
  have hsecond := placedFrom_of_some hother
  have hpos := start_lt_end second
  rw [hfirst.end_eq, hsecond.start_eq]
  unfold Apart at hdisjoint
  omega

/-- Every placement fits into the film and into itself, clips apart stay apart, and a clip that
the end of the film cuts off fades out there. -/
theorem placeBgm_fits (bgm : List BgmClip) (durationUs : ℕ) :
    (∀ placed ∈ placeBgm bgm durationUs,
      placed.startUs < placed.endUs ∧ placed.endUs ≤ durationUs ∧
      placed.fadeInUs + placed.fadeOutUs ≤ placed.durationUs ∧
      ∃ clip ∈ bgm, placed.clipId = clip.id ∧
        ((placed.fadeInUs : ℤ), (placed.fadeOutUs : ℤ)) =
          fitFadesInt clip.fadeInUs clip.fadeOutUs placed.durationUs placed.truncated) ∧
    (NonOverlapping bgm →
      (placeBgm bgm durationUs).Pairwise fun first second => first.endUs ≤ second.startUs) ∧
    ∀ clip ∈ bgm, clip.startUs < durationUs → durationUs < bgmEndUs clip →
      ∃ placed ∈ placeBgm bgm durationUs, placed.clipId = clip.id ∧
        placed.startUs = clip.startUs ∧ placed.endUs = durationUs ∧
        placed.fadeOutUs = min bgmCutoffFadeMicroseconds placed.durationUs ∧
        0 < placed.fadeOutUs := by
  refine ⟨fun placed hplaced => ?_, disjoint_placeBgm durationUs, fun clip hclip hstart hend => ?_⟩
  · obtain ⟨clip, hclip, hfrom⟩ := exists_of_mem_placeBgm hplaced
    have hclipFrom := placedFrom_of_some hfrom
    have hfades := fitFades_le clip placed.durationUs placed.truncated
    have hcast := fitFades_cast clip placed.durationUs placed.truncated
    rw [← hclipFrom.fades_eq] at hfades hcast
    refine ⟨?_, ?_, hfades, clip, hclip, hclipFrom.clipId_eq, hcast⟩
    · exact Nat.lt_add_of_pos_right hclipFrom.length_pos
    · rw [hclipFrom.end_eq]
      exact min_le_right _ _
  · obtain ⟨placed, hplaced⟩ := placeBgmClip_isSome hstart
    have hclipFrom := placedFrom_of_some hplaced
    have hcut := hclipFrom.truncated_iff.mpr hend
    have hfadeOut : placed.fadeOutUs = min bgmCutoffFadeMicroseconds placed.durationUs := by
      have hfades := congrArg Prod.snd hclipFrom.fades_eq
      rwa [hcut] at hfades
    have hmem : placed ∈ placeBgm bgm durationUs :=
      List.mem_filterMap.mpr ⟨clip, mem_bgmByStart.mpr hclip, hplaced⟩
    refine ⟨placed, hmem, hclipFrom.clipId_eq, hclipFrom.start_eq, ?_, hfadeOut, ?_⟩
    · rw [hclipFrom.end_eq, min_eq_right hend.le]
    · rw [hfadeOut]
      exact lt_min (by decide) hclipFrom.length_pos

end ShortReel.BgmPlacement
