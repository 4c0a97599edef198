import ShortReel.RenderLayout
import ShortReel.TimelineOperations

/-!
# Seconds as they are shown

The readout shows a time in seconds with at most three decimals. Sent back, such seconds are the
time itself when it is a whole number of milliseconds, and the end of a file when they reach it.
-/

namespace ShortReel.ShownSeconds

open TimelineModel TimelineOperations RenderLayout

theorem roundHalfEven_intCast (value : ℤ) : roundHalfEven (value : ℚ) = value := by
  unfold roundHalfEven
  simp

def shownMillis (us : ℕ) : ℤ :=
  roundHalfEven ((us : ℚ) / microsecondsPerSecond * 1000)

theorem microsecondsToSeconds_eq (us : ℕ) : microsecondsToSeconds us = shownMillis us / 1000 :=
  rfl

theorem secondsToMicroseconds_millis (millis : ℤ) :
    secondsToMicroseconds ((millis : ℚ) / 1000) = 1000 * millis := by
  have hround : roundMillis ((millis : ℚ) / 1000) = millis / 1000 := by
    rw [roundMillis, div_mul_cancel₀ _ (by norm_num), roundHalfEven_intCast]
  have hmicro : (millis : ℚ) / 1000 * microsecondsPerSecond = (1000 * millis : ℤ) := by
    push_cast [microsecondsPerSecond]
    ring
  rw [secondsToMicroseconds, hround, hmicro, roundHalfEven_intCast]

theorem roundHalfEven_nonneg {value : ℚ} (h : 0 ≤ value) : 0 ≤ roundHalfEven value := by
  have hzero := roundHalfEven_intCast 0
  rw [Int.cast_zero] at hzero
  exact hzero ▸ roundHalfEven_mono h

theorem secondsToMicroseconds_nonneg {seconds : ℚ} (h : 0 ≤ seconds) :
    0 ≤ secondsToMicroseconds seconds := by
  have hmillis : (0 : ℚ) ≤ roundHalfEven (seconds * 1000) := by
    exact_mod_cast roundHalfEven_nonneg (by positivity)
  apply roundHalfEven_nonneg
  unfold roundMillis
  positivity

theorem secondsToMicroseconds_shown (us : ℕ) :
    secondsToMicroseconds (microsecondsToSeconds us) = 1000 * shownMillis us := by
  rw [microsecondsToSeconds_eq, secondsToMicroseconds_millis]

theorem shownMillis_near (us : ℕ) :
    1000 * shownMillis us ≤ us + 500 ∧ us ≤ 1000 * shownMillis us + 500 := by
  have hnear := abs_roundHalfEven_sub_le ((us : ℚ) / microsecondsPerSecond * 1000)
  have hexact : (us : ℚ) / microsecondsPerSecond * 1000 = us / 1000 := by
    norm_num [microsecondsPerSecond]
    ring
  rw [abs_le, hexact] at hnear
  have hmillis : (roundHalfEven ((us : ℚ) / 1000) : ℚ) = shownMillis us := by
    rw [shownMillis, hexact]
  rw [hmillis] at hnear
  have hhigh : (1000 * shownMillis us : ℚ) ≤ us + 500 := by linarith
  have hlow : (us : ℚ) ≤ 1000 * shownMillis us + 500 := by linarith
  exact ⟨by exact_mod_cast hhigh, by exact_mod_cast hlow⟩

theorem shownMillis_mono {first second : ℕ} (h : first ≤ second) :
    shownMillis first ≤ shownMillis second := by
  have hcast : (first : ℚ) ≤ second := by exact_mod_cast h
  apply roundHalfEven_mono
  gcongr

theorem shownMillis_nonneg (us : ℕ) : 0 ≤ shownMillis us :=
  roundHalfEven_nonneg (by positivity)

def WholeMillis (us : ℕ) : Prop :=
  1000 ∣ us

instance (us : ℕ) : Decidable (WholeMillis us) :=
  inferInstanceAs (Decidable (1000 ∣ us))

theorem WholeMillis.shown {us : ℕ} (h : WholeMillis us) : 1000 * shownMillis us = us := by
  obtain ⟨millis, rfl⟩ := h
  have := shownMillis_near (1000 * millis)
  push_cast at this ⊢
  omega

/-- An out point that comes back as it was: whole milliseconds inside the file, or the end of the
file where that is shown rounded up. -/
def KeptEnd (wholeUs outUs : ℕ) : Prop :=
  outUs ≤ wholeUs ∧ (WholeMillis outUs ∨ (outUs = wholeUs ∧ (outUs : ℤ) < 1000 * shownMillis outUs))

instance (wholeUs outUs : ℕ) : Decidable (KeptEnd wholeUs outUs) :=
  inferInstanceAs (Decidable (_ ∧ _))

theorem min_shown_of_keptEnd {wholeUs outUs : ℕ} (h : KeptEnd wholeUs outUs) :
    min (secondsToMicroseconds (microsecondsToSeconds outUs)).toNat wholeUs = outUs := by
  rw [secondsToMicroseconds_shown]
  obtain ⟨hle, hmillis | ⟨hend, hup⟩⟩ := h
  · rw [hmillis.shown, Int.toNat_natCast, min_eq_left hle]
  · omega

section FieldChecks

variable {index : ℕ} {clipId : Option ClipId} {sources : EpisodeSources}

theorem checkSeconds_shown {us : ℕ} (h : WholeMillis us) (field : String) :
    checkSeconds index clipId field (microsecondsToSeconds us) = .ok us := by
  have hnonneg : ¬ microsecondsToSeconds us < 0 := by
    rw [microsecondsToSeconds_eq, not_lt]
    have : (0 : ℚ) ≤ shownMillis us := by exact_mod_cast shownMillis_nonneg us
    positivity
  rw [checkSeconds, if_neg hnonneg, secondsToMicroseconds_shown, h.shown, Int.toNat_natCast]

theorem microsecondsToSeconds_le {first second : ℕ} (h : first ≤ second) :
    microsecondsToSeconds first ≤ microsecondsToSeconds second := by
  rw [microsecondsToSeconds_eq, microsecondsToSeconds_eq]
  have : (shownMillis first : ℚ) ≤ shownMillis second := by exact_mod_cast shownMillis_mono h
  linarith

theorem microsecondsToSeconds_lt {first second : ℕ} (h : first + 1000 < second) :
    microsecondsToSeconds first < microsecondsToSeconds second := by
  have hfirst := (shownMillis_near first).1
  have hsecond := (shownMillis_near second).2
  have hlt : shownMillis first < shownMillis second := by omega
  rw [microsecondsToSeconds_eq, microsecondsToSeconds_eq]
  have : (shownMillis first : ℚ) < shownMillis second := by exact_mod_cast hlt
  linarith

theorem microsecondsToSeconds_nonneg (us : ℕ) : 0 ≤ microsecondsToSeconds us := by
  rw [microsecondsToSeconds_eq]
  have : (0 : ℚ) ≤ shownMillis us := by exact_mod_cast shownMillis_nonneg us
  positivity

theorem checkTrim_shown {unitId : String} {trim : ClipTrim} {wholeUs : ℕ}
    (hvideo : currentVideo index clipId sources unitId = .ok (trim.basisVersion, wholeUs))
    (hin : WholeMillis trim.inUs) (hout : KeptEnd wholeUs trim.outUs)
    (hlength : minTrimMicroseconds ≤ trim.outUs - trim.inUs) :
    checkTrim index clipId sources unitId
      (some ⟨microsecondsToSeconds trim.inUs, microsecondsToSeconds trim.outUs⟩) =
        .ok (some trim) := by
  have hapart : trim.inUs + 1000 < trim.outUs := by
    unfold minTrimMicroseconds at hlength
    omega
  have hrange : 0 ≤ microsecondsToSeconds trim.inUs ∧
      microsecondsToSeconds trim.inUs < microsecondsToSeconds trim.outUs ∧
      microsecondsToSeconds trim.outUs ≤ microsecondsToSeconds wholeUs + 1 / 1000 := by
    refine ⟨microsecondsToSeconds_nonneg _, microsecondsToSeconds_lt hapart, ?_⟩
    have := microsecondsToSeconds_le hout.1
    linarith
  have hinUs : (secondsToMicroseconds (microsecondsToSeconds trim.inUs)).toNat = trim.inUs := by
    rw [secondsToMicroseconds_shown, hin.shown, Int.toNat_natCast]
  have houtUs : (if wholeUs < (secondsToMicroseconds (microsecondsToSeconds trim.outUs)).toNat ∧
      (secondsToMicroseconds (microsecondsToSeconds trim.outUs)).toNat ≤ wholeUs + 1000
      then wholeUs else (secondsToMicroseconds (microsecondsToSeconds trim.outUs)).toNat) =
        trim.outUs := by
    rw [secondsToMicroseconds_shown]
    have hnear := shownMillis_near trim.outUs
    obtain ⟨hle, hmillis | ⟨rfl, hup⟩⟩ := hout
    · rw [hmillis.shown, Int.toNat_natCast, if_neg (by omega)]
    · rw [if_pos (by omega)]
  unfold checkTrim
  simp only [hvideo, bind, Except.bind, hrange, and_self, if_true, hinUs, houtUs]
  rw [dif_pos ⟨trivial, hout.1, hlength⟩]
  rfl

theorem checkTrim_whole {unitId : String} {version : ℕ+} {wholeUs : ℕ} {sourceIn : ℚ}
    (hvideo : currentVideo index clipId sources unitId = .ok (version, wholeUs))
    (hin : 0 ≤ sourceIn)
    (hrest : secondsToMicroseconds sourceIn + minTrimMicroseconds ≤
      min (wholeUs : ℤ) (1000 * shownMillis wholeUs)) :
    ∃ trim, checkTrim index clipId sources unitId
        (some ⟨sourceIn, microsecondsToSeconds wholeUs⟩) = .ok (some trim) ∧
      trim.outUs ≤ wholeUs := by
  have hmin : minTrimMicroseconds = 100000 := rfl
  have hbefore : sourceIn < microsecondsToSeconds wholeUs := by
    have hround := abs_roundHalfEven_sub_le (roundMillis sourceIn * microsecondsPerSecond)
    have hmillis := abs_roundHalfEven_sub_le (sourceIn * 1000)
    have hseconds : (secondsToMicroseconds sourceIn : ℚ) + 100000 ≤ 1000 * shownMillis wholeUs := by
      exact_mod_cast (hmin ▸ hrest).trans (min_le_right _ _)
    have hdef : (secondsToMicroseconds sourceIn : ℚ) =
        roundHalfEven (roundMillis sourceIn * microsecondsPerSecond) := rfl
    have hdefMillis : roundMillis sourceIn = roundHalfEven (sourceIn * 1000) / 1000 := rfl
    have hmicro : (microsecondsPerSecond : ℚ) = 1000000 := by norm_num [microsecondsPerSecond]
    rw [abs_le, ← hdef, hdefMillis, hmicro] at hround
    rw [abs_le] at hmillis
    rw [microsecondsToSeconds_eq]
    linarith
  have hrange : 0 ≤ sourceIn ∧ sourceIn < microsecondsToSeconds wholeUs ∧
      microsecondsToSeconds wholeUs ≤ microsecondsToSeconds wholeUs + 1 / 1000 :=
    ⟨hin, hbefore, by linarith⟩
  have hnear := shownMillis_near wholeUs
  have hnonneg := secondsToMicroseconds_nonneg hin
  unfold checkTrim
  simp only [hvideo, bind, Except.bind, hrange, and_self, if_true, secondsToMicroseconds_shown]
  rw [dif_pos]
  · exact ⟨_, rfl, by dsimp only; split <;> omega⟩
  · refine ⟨trivial, ?_, ?_⟩
    · split <;> omega
    · rw [hmin] at hrest ⊢
      split <;> omega

theorem checkBgmRange_shown {bgmId : String} {media : BgmMedia} {inUs outUs : ℕ}
    (hmedia : sources.bgmMedia bgmId = some media) (hlt : inUs < outUs) (hin : WholeMillis inUs)
    (hout : KeptEnd media.durationUs outUs)
    (hlength : min minBgmMicroseconds media.durationUs ≤ outUs - inUs) :
    checkBgmRange index clipId sources bgmId (microsecondsToSeconds inUs)
      (some (microsecondsToSeconds outUs)) = .ok ⟨inUs, outUs, hlt⟩ := by
  have hinUs : (secondsToMicroseconds (microsecondsToSeconds inUs)).toNat = inUs := by
    rw [secondsToMicroseconds_shown, hin.shown, Int.toNat_natCast]
  have houtUs := min_shown_of_keptEnd hout
  have hbefore : microsecondsToSeconds inUs < microsecondsToSeconds outUs := by
    have hinShown := hin.shown
    have hmillis : shownMillis inUs < shownMillis outUs := by
      obtain ⟨-, hmillis | ⟨-, hup⟩⟩ := hout
      · have := hmillis.shown
        omega
      · omega
    rw [microsecondsToSeconds_eq, microsecondsToSeconds_eq]
    have : (shownMillis inUs : ℚ) < shownMillis outUs := by exact_mod_cast hmillis
    linarith
  have hrange : 0 ≤ microsecondsToSeconds inUs ∧
      microsecondsToSeconds inUs < microsecondsToSeconds outUs ∧
      microsecondsToSeconds outUs ≤ microsecondsToSeconds media.durationUs + 1 / 1000 := by
    refine ⟨microsecondsToSeconds_nonneg _, hbefore, ?_⟩
    have := microsecondsToSeconds_le hout.1
    linarith
  unfold checkBgmRange
  simp only [hmedia, Option.getD_some, hrange, and_self, if_true, hinUs, houtUs]
  rw [dif_pos ⟨trivial, hlength⟩]

end FieldChecks

end ShortReel.ShownSeconds
