import Mathlib.Tactic.LinearCombination
import ShortReel.AspectSize
import ShortReel.TransitionSystem

/-!
# The multiple of a size

A size is a multiple of the smallest one of its ratio. The multiple that `aspect_size` takes is the
largest admissible one that is not above a multiple nearest to the target, unless the target is so
large that its quotient is misread as a double.
-/

namespace ShortReel.AspectMultiples

open Doubles TextSpaces AspectSize

structure Request where
  aspectRatio : Text
  shortEdge : ℤ
  roundTo : ℕ
  maxLongEdge : Option ℤ
  maxTotalPixels : Option ℤ
  maxRatio : Option ℚ

section Requests

variable (decimal : ℕ → Option ℕ) (request : Request)

def compute : Except AspectError (ℤ × ℤ) :=
  aspectSize decimal request.aspectRatio request.shortEdge request.roundTo request.maxLongEdge
    request.maxTotalPixels request.maxRatio

def ratio : ℕ × ℕ :=
  parseAspectRatio decimal request.aspectRatio

def sizeOf (t : ℤ) : ℤ × ℤ :=
  ((ratio decimal request).1 * request.roundTo * t, (ratio decimal request).2 * request.roundTo * t)

def Admissible (t : ℤ) : Prop :=
  (∀ edge ∈ request.maxLongEdge,
    max (sizeOf decimal request t).1 (sizeOf decimal request t).2 ≤ edge) ∧
  ∀ pixels ∈ request.maxTotalPixels,
    (sizeOf decimal request t).1 * (sizeOf decimal request t).2 ≤ pixels

def shortSide (t : ℤ) : ℤ :=
  min (sizeOf decimal request t).1 (sizeOf decimal request t).2

def Nearest (t : ℤ) : Prop :=
  0 < t ∧ ∀ other, 0 < other →
    |shortSide decimal request t - request.shortEdge| ≤
      |shortSide decimal request other - request.shortEdge|

structure Fitting (size : ℤ × ℤ) : Prop where
  positive : 0 < size.1 ∧ 0 < size.2
  exact_ratio : size.1 * (ratio decimal request).2 = size.2 * (ratio decimal request).1
  requested : ∀ aw ah, requestedRatio decimal request.aspectRatio = some (aw, ah) →
    size.1 * ah = size.2 * aw
  divisible : (request.roundTo : ℤ) ∣ size.1 ∧ (request.roundTo : ℤ) ∣ size.2
  largest : Admissible decimal request 1 →
    ∃ nearest t, Nearest decimal request nearest ∧ size = sizeOf decimal request t ∧
      IsGreatest {t | 0 < t ∧ t ≤ nearest ∧ Admissible decimal request t} t

def quotient : ℚ :=
  request.shortEdge / (request.roundTo * min (ratio decimal request).1 (ratio decimal request).2 : ℕ)

structure Computable : Prop where
  roundTo_pos : 0 < request.roundTo
  ratios : request.maxRatio.isSome →
    ((ratio decimal request).1 / (ratio decimal request).2 : ℚ) < overflowsAt ∧
      ((ratio decimal request).2 / (ratio decimal request).1 : ℚ) < overflowsAt
  quotient_lt : |quotient decimal request| < overflowsAt
  pixels : ∀ pixels ∈ request.maxTotalPixels, 0 ≤ pixels

/-- Nothing fails, and no admissible multiple is gained or lost where the quotient is misread. -/
structure WellRead : Prop extends Computable decimal request where
  parted : Admissible decimal request 1 → Misread (quotient decimal request) →
    ¬ Admissible decimal request (parting (quotient decimal request))

end Requests

variable {decimal : ℕ → Option ℕ} {request : Request}

theorem requestedRatio_pos {text : Text} {aw ah : ℕ} (h : requestedRatio decimal text = some (aw, ah)) :
    0 < aw ∧ 0 < ah := by
  unfold requestedRatio at h
  split at h
  · split at h
    · rename_i width height _ _
      split at h
      · cases h
      · rename_i hpos
        cases h
        rw [not_or, not_le, not_le] at hpos
        exact ⟨by omega, by omega⟩
    · cases h
  · cases h

theorem parseAspectRatio_requested {text : Text} {aw ah : ℕ}
    (h : requestedRatio decimal text = some (aw, ah)) :
    (parseAspectRatio decimal text).1 * ah = (parseAspectRatio decimal text).2 * aw ∧
      (parseAspectRatio decimal text).1.Coprime (parseAspectRatio decimal text).2 := by
  obtain ⟨hwidth, hheight⟩ := requestedRatio_pos h
  rw [parseAspectRatio, h]
  dsimp only
  refine ⟨?_, Nat.coprime_div_gcd_div_gcd (Nat.gcd_pos_of_pos_left ah hwidth)⟩
  obtain ⟨a, ha⟩ := Nat.gcd_dvd_left aw ah
  obtain ⟨b, hb⟩ := Nat.gcd_dvd_right aw ah
  have hpos := Nat.gcd_pos_of_pos_left ah hwidth
  generalize aw.gcd ah = divisor at ha hb hpos ⊢
  subst ha hb
  rw [Nat.mul_div_cancel_left a hpos, Nat.mul_div_cancel_left b hpos]
  ring

theorem parseAspectRatio_pos (text : Text) :
    0 < (parseAspectRatio decimal text).1 ∧ 0 < (parseAspectRatio decimal text).2 := by
  cases h : requestedRatio decimal text with
  | none =>
      rw [parseAspectRatio, h]
      decide
  | some requested =>
      obtain ⟨aw, ah⟩ := requested
      obtain ⟨hwidth, hheight⟩ := requestedRatio_pos h
      rw [parseAspectRatio, h]
      exact ⟨Nat.div_pos (Nat.gcd_le_left ah hwidth) (Nat.gcd_pos_of_pos_left ah hwidth),
        Nat.div_pos (Nat.gcd_le_right aw hheight) (Nat.gcd_pos_of_pos_left ah hwidth)⟩

theorem ratio_pos : 0 < (ratio decimal request).1 ∧ 0 < (ratio decimal request).2 :=
  parseAspectRatio_pos request.aspectRatio

theorem divide_ok_iff {dividend divisor : ℤ} {value : ℚ} :
    divide dividend divisor = .ok value ↔
      (divisor ≠ 0 ∧ |(dividend / divisor : ℚ)| < overflowsAt) ∧
        value = double (dividend / divisor) := by
  unfold divide trueDiv
  split_ifs with hzero hlarge
  · simp [Except.mapError, hzero]
  · simp [Except.mapError, hlarge]
  · simp [Except.mapError, hzero, not_le.mp hlarge, eq_comm]

theorem checkRatio_ok_iff {aw ah : ℕ} (hwidth : 0 < aw) (hheight : 0 < ah) {maxRatio : Option ℚ} :
    checkRatio aw ah maxRatio = .ok () ↔
      (maxRatio.isSome → (aw / ah : ℚ) < overflowsAt ∧ (ah / aw : ℚ) < overflowsAt) := by
  have hpositive : ∀ {a b : ℕ}, |((a : ℤ) / (b : ℤ) : ℚ)| = (a / b : ℚ) := by
    intro a b
    rw [abs_of_nonneg (by positivity)]
    push_cast
    rfl
  cases maxRatio with
  | none => exact iff_of_true rfl fun h => absurd h Bool.false_ne_true
  | some bound =>
      simp only [checkRatio, bind_eq_ok, divide_ok_iff, hpositive, Option.isSome_some, true_imp_iff]
      constructor
      · rintro ⟨_, ⟨⟨-, hfirst⟩, -⟩, _, ⟨⟨-, hsecond⟩, -⟩, -⟩
        exact ⟨hfirst, hsecond⟩
      · rintro ⟨hfirst, hsecond⟩
        exact ⟨_, ⟨⟨by omega, hfirst⟩, rfl⟩, _, ⟨⟨by omega, hsecond⟩, rfl⟩, rfl⟩

def bounded (denom : ℕ) (maxTotalPixels : Option ℤ) (t : ℤ) : ℤ :=
  match maxTotalPixels with
  | some pixels => min t (max 1 ((pixels / denom).toNat.sqrt : ℤ))
  | none => t

theorem boundTotalPixels_ok_iff {denom : ℕ} (hdenom : 0 < denom) {maxTotalPixels : Option ℤ} {t value : ℤ} :
    boundTotalPixels denom maxTotalPixels t = .ok value ↔
      (∀ pixels ∈ maxTotalPixels, 0 ≤ pixels) ∧ value = bounded denom maxTotalPixels t := by
  cases maxTotalPixels with
  | none =>
      constructor
      · intro h
        cases h
        exact ⟨by simp, rfl⟩
      · rintro ⟨-, rfl⟩
        rfl
  | some pixels =>
      have hneg : pixels / denom < 0 ↔ pixels < 0 := by
        have hpos : (0 : ℤ) < denom := by exact_mod_cast hdenom
        constructor
        · exact fun h => by_contra fun hle => absurd (Int.ediv_nonneg (not_lt.mp hle) hpos.le) (not_le.mpr h)
        · exact fun h => Int.ediv_neg_of_neg_of_pos h hpos
      simp only [boundTotalPixels, if_pos hdenom, bind_eq_ok, isqrt, hneg, Option.mem_some_iff,
        forall_eq', bounded]
      split
      · rename_i hlt
        exact iff_of_false (by simp) fun h => absurd h.1 (not_le.mpr hlt)
      · rename_i hle
        constructor
        · rintro ⟨a, ha, hvalue⟩
          cases ha
          cases hvalue
          exact ⟨not_lt.mp hle, rfl⟩
        · rintro ⟨-, rfl⟩
          exact ⟨_, rfl, rfl⟩

def multiple (decimal : ℕ → Option ℕ) (request : Request) : ℤ :=
  let (aw, ah) := ratio decimal request
  max 1 (bounded (aw * ah * request.roundTo * request.roundTo) request.maxTotalPixels
    (boundLongEdge (request.roundTo * max aw ah) request.maxLongEdge
      (max 1 (halfEven (double (quotient decimal request))))))

theorem compute_ok_iff {size : ℤ × ℤ} :
    compute decimal request = .ok size ↔
      Computable decimal request ∧ size = sizeOf decimal request (multiple decimal request) := by
  have hparse : parseAspectRatio decimal request.aspectRatio = ratio decimal request := rfl
  obtain ⟨hwidth, hheight⟩ := @ratio_pos decimal request
  have hunit : 0 < min (ratio decimal request).1 (ratio decimal request).2 := lt_min hwidth hheight
  have hdenom : 0 < request.roundTo → 0 < (ratio decimal request).1 * (ratio decimal request).2 *
      request.roundTo * request.roundTo := fun hstep => by positivity
  have hcast : ((request.shortEdge : ℚ) /
      ((request.roundTo * min (ratio decimal request).1 (ratio decimal request).2 : ℕ) : ℤ) : ℚ) =
        quotient decimal request := by
    rw [quotient]
    push_cast
    rfl
  unfold compute aspectSize
  rw [hparse]
  simp only [bind_eq_ok, divide_ok_iff, hcast]
  constructor
  · rintro ⟨_, hcheck, value, ⟨⟨hne, hlt⟩, rfl⟩, t, hpixels, hsize⟩
    have hstep : 0 < request.roundTo := by
      rcases Nat.eq_zero_or_pos request.roundTo with hzero | hpos
      · exact absurd (by rw [hzero, zero_mul, Nat.cast_zero]) hne
      · exact hpos
    rw [boundTotalPixels_ok_iff (hdenom hstep)] at hpixels
    obtain ⟨hpixels, rfl⟩ := hpixels
    cases hsize
    exact ⟨⟨hstep, (checkRatio_ok_iff hwidth hheight).mp hcheck, hlt, hpixels⟩, rfl⟩
  · rintro ⟨⟨hstep, hratios, hlt, hpixels⟩, rfl⟩
    have hne : ((request.roundTo * min (ratio decimal request).1 (ratio decimal request).2 : ℕ) : ℤ) ≠ 0 := by
      have hpos := Nat.mul_pos hstep hunit
      omega
    exact ⟨(), (checkRatio_ok_iff hwidth hheight).mpr hratios, _, ⟨⟨hne, hlt⟩, rfl⟩, _,
      (boundTotalPixels_ok_iff (hdenom hstep)).mpr ⟨hpixels, rfl⟩, rfl⟩

theorem max_sizeOf {t : ℤ} (ht : 0 < t) :
    max (sizeOf decimal request t).1 (sizeOf decimal request t).2 =
      (request.roundTo * max (ratio decimal request).1 (ratio decimal request).2 : ℕ) * t := by
  rw [sizeOf, ← max_mul_of_nonneg _ _ ht.le]
  push_cast
  rw [← max_mul_of_nonneg _ _ (Int.natCast_nonneg _), mul_comm (max _ _)]

theorem shortSide_eq {t : ℤ} (ht : 0 < t) :
    shortSide decimal request t =
      (request.roundTo * min (ratio decimal request).1 (ratio decimal request).2 : ℕ) * t := by
  rw [shortSide, sizeOf, ← min_mul_of_nonneg _ _ ht.le]
  push_cast
  rw [← min_mul_of_nonneg _ _ (Int.natCast_nonneg _), mul_comm (min _ _)]

theorem le_sqrt_iff {n t : ℤ} (hn : 0 ≤ n) (ht : 0 < t) : t ≤ (n.toNat.sqrt : ℤ) ↔ t * t ≤ n := by
  obtain ⟨n, rfl⟩ := Int.eq_ofNat_of_zero_le hn
  obtain ⟨t, rfl⟩ := Int.eq_ofNat_of_zero_le ht.le
  rw [Int.toNat_natCast, Nat.cast_le, Nat.le_sqrt]
  norm_cast

theorem admissible_iff (h : Computable decimal request) {t : ℤ} (ht : 0 < t) :
    Admissible decimal request t ↔
      (∀ edge ∈ request.maxLongEdge,
        t ≤ edge / (request.roundTo * max (ratio decimal request).1 (ratio decimal request).2 : ℕ)) ∧
      ∀ pixels ∈ request.maxTotalPixels,
        t ≤ ((pixels / ((ratio decimal request).1 * (ratio decimal request).2 * request.roundTo *
          request.roundTo : ℕ)).toNat.sqrt : ℤ) := by
  obtain ⟨hwidth, hheight⟩ := @ratio_pos decimal request
  have hstep := h.roundTo_pos
  have hlong : (0 : ℤ) <
      (request.roundTo * max (ratio decimal request).1 (ratio decimal request).2 : ℕ) := by
    exact_mod_cast Nat.mul_pos hstep (lt_max_of_lt_left hwidth)
  have hdenom : (0 : ℤ) < ((ratio decimal request).1 * (ratio decimal request).2 * request.roundTo *
      request.roundTo : ℕ) := by
    positivity
  refine and_congr (forall₂_congr fun edge _ => ?_) (forall₂_congr fun pixels hpixels => ?_)
  · rw [max_sizeOf ht, Int.le_ediv_iff_mul_le hlong, mul_comm]
  · rw [le_sqrt_iff (Int.ediv_nonneg (h.pixels pixels hpixels) hdenom.le) ht,
      Int.le_ediv_iff_mul_le hdenom, sizeOf]
    push_cast
    ring_nf

theorem admissible_le (h : Computable decimal request) {s t : ℤ} (hs : 0 < s) (hle : s ≤ t)
    (ht : Admissible decimal request t) : Admissible decimal request s := by
  rw [admissible_iff h hs]
  obtain ⟨hedges, hpixels⟩ := (admissible_iff h (hs.trans_le hle)).mp ht
  exact ⟨fun edge hedge => hle.trans (hedges edge hedge),
    fun pixels hmem => hle.trans (hpixels pixels hmem)⟩

theorem le_boundLongEdge_iff {longUnit : ℕ} {maxLongEdge : Option ℤ} {s t : ℤ}
    (hone : ∀ edge ∈ maxLongEdge, 1 ≤ edge / (longUnit : ℤ)) :
    t ≤ boundLongEdge longUnit maxLongEdge s ↔ t ≤ s ∧ ∀ edge ∈ maxLongEdge, t ≤ edge / longUnit := by
  cases maxLongEdge with
  | none => simp [boundLongEdge]
  | some edge => simp [boundLongEdge, max_eq_right (hone edge rfl)]

theorem le_bounded_iff {denom : ℕ} {maxTotalPixels : Option ℤ} {s t : ℤ}
    (hone : ∀ pixels ∈ maxTotalPixels, 1 ≤ ((pixels / (denom : ℤ)).toNat.sqrt : ℤ)) :
    t ≤ bounded denom maxTotalPixels s ↔
      t ≤ s ∧ ∀ pixels ∈ maxTotalPixels, t ≤ ((pixels / (denom : ℤ)).toNat.sqrt : ℤ) := by
  cases maxTotalPixels with
  | none => simp [bounded]
  | some pixels => simp only [bounded, max_eq_right (hone pixels rfl), le_min_iff, Option.mem_some_iff,
      forall_eq']

theorem le_multiple_iff (h : Computable decimal request) (hone : Admissible decimal request 1) {t : ℤ}
    (ht : 0 < t) :
    t ≤ multiple decimal request ↔
      t ≤ max 1 (halfEven (double (quotient decimal request))) ∧ Admissible decimal request t := by
  obtain ⟨hedges, hpixels⟩ := (admissible_iff h one_pos).mp hone
  have hle : ∀ {s : ℤ}, s ≤ multiple decimal request ↔ s ≤ 1 ∨
      (s ≤ max 1 (halfEven (double (quotient decimal request))) ∧
        ∀ edge ∈ request.maxLongEdge,
          s ≤ edge / (request.roundTo * max (ratio decimal request).1 (ratio decimal request).2 : ℕ)) ∧
      ∀ pixels ∈ request.maxTotalPixels,
        s ≤ ((pixels / ((ratio decimal request).1 * (ratio decimal request).2 * request.roundTo *
          request.roundTo : ℕ)).toNat.sqrt : ℤ) := by
    intro s
    rw [← le_boundLongEdge_iff hedges, ← le_bounded_iff hpixels, ← le_max_iff]
    rfl
  rw [hle, and_assoc, ← admissible_iff h ht]
  refine or_iff_right_of_imp fun hle => ?_
  rw [show t = 1 by omega]
  exact ⟨le_max_left _ _, hone⟩

theorem multiple_pos : 0 < multiple decimal request :=
  lt_of_lt_of_le one_pos (le_max_left _ _)

theorem isGreatest_multiple (h : Computable decimal request) (hone : Admissible decimal request 1) :
    IsGreatest {t | 0 < t ∧ t ≤ max 1 (halfEven (double (quotient decimal request))) ∧
      Admissible decimal request t} (multiple decimal request) :=
  ⟨⟨multiple_pos, (le_multiple_iff h hone multiple_pos).mp le_rfl⟩,
    fun _ ht => (le_multiple_iff h hone ht.1).mpr ht.2⟩

theorem isGreatest_iff {P : ℤ → Prop} (hdown : ∀ {s t}, 0 < s → s ≤ t → P t → P s) {a b m : ℤ}
    (ha : 0 < a) (hb : 0 < b) (h : IsGreatest {t | 0 < t ∧ t ≤ a ∧ P t} m) :
    IsGreatest {t | 0 < t ∧ t ≤ b ∧ P t} m ↔ a = b ∨ ¬ P (min a b + 1) := by
  obtain ⟨⟨hpos, hle, hm⟩, hgreatest⟩ := h
  constructor
  · rintro ⟨⟨-, hle', -⟩, hgreatest'⟩
    rcases lt_trichotomy a b with hlt | heq | hlt
    · refine .inr fun hnext => ?_
      rw [min_eq_left hlt.le] at hnext
      have hmem : a + 1 ≤ m := hgreatest' ⟨by omega, by omega, hnext⟩
      omega
    · exact .inl heq
    · refine .inr fun hnext => ?_
      rw [min_eq_right hlt.le] at hnext
      have hmem : b + 1 ≤ m := hgreatest ⟨by omega, by omega, hnext⟩
      omega
  · rintro (rfl | hnext)
    · exact ⟨⟨hpos, hle, hm⟩, hgreatest⟩
    · have habove : ∀ {t}, P t → t ≤ min a b := by
        intro t ht
        by_contra hlt
        exact hnext (hdown (by omega) (by omega) ht)
      have hmin : m ≤ min a b := habove hm
      refine ⟨⟨hpos, by omega, hm⟩, fun t ht => hgreatest ⟨ht.1, ?_, ht.2.2⟩⟩
      have hmin' := habove ht.2.2
      omega

theorem unit_pos (h : Computable decimal request) :
    (0 : ℚ) < (request.roundTo * min (ratio decimal request).1 (ratio decimal request).2 : ℕ) := by
  obtain ⟨hwidth, hheight⟩ := @ratio_pos decimal request
  exact_mod_cast Nat.mul_pos h.roundTo_pos (lt_min hwidth hheight)

theorem distance_eq (h : Computable decimal request) {t : ℤ} (ht : 0 < t) :
    ((|shortSide decimal request t - request.shortEdge| : ℤ) : ℚ) =
      (request.roundTo * min (ratio decimal request).1 (ratio decimal request).2 : ℕ) *
        |quotient decimal request - t| := by
  have hunit := unit_pos h
  rw [shortSide_eq ht, quotient, abs_sub_comm (_ / _ : ℚ), Int.cast_abs]
  generalize request.roundTo * min (ratio decimal request).1 (ratio decimal request).2 = unit at hunit ⊢
  have hscaled : (((unit : ℤ) * t - request.shortEdge : ℤ) : ℚ) =
      unit * (t - request.shortEdge / unit) := by
    push_cast
    field_simp
  rw [hscaled, abs_mul, abs_of_pos hunit]

theorem nearest_iff (h : Computable decimal request) {t : ℤ} :
    Nearest decimal request t ↔
      0 < t ∧ ∀ other : ℤ, 0 < other →
        |quotient decimal request - t| ≤ |quotient decimal request - other| := by
  refine and_congr_right fun ht => forall₂_congr fun other hother => ?_
  rw [← Int.cast_le (R := ℚ), distance_eq h ht, distance_eq h hother]
  exact mul_le_mul_iff_right₀ (unit_pos h)

theorem nearest_iff_half (h : Computable decimal request) (hle : 1 ≤ quotient decimal request) {t : ℤ} :
    Nearest decimal request t ↔ 0 < t ∧ |quotient decimal request - t| ≤ 1 / 2 := by
  rw [nearest_iff h]
  refine and_congr_right fun ht => ⟨fun hnearest => ?_, fun hhalf other hother => ?_⟩
  · have hpos : 0 < halfEven (quotient decimal request) :=
      lt_of_lt_of_le one_pos (le_halfEven (by exact_mod_cast hle))
    exact (hnearest _ hpos).trans (halfEven_near _)
  · rcases eq_or_ne other t with rfl | hne
    · exact le_rfl
    · have hapart : (1 : ℚ) ≤ |(t : ℚ) - other| := by
        have hone : 1 ≤ |t - other| := Int.one_le_abs (sub_ne_zero.mpr hne.symm)
        exact_mod_cast hone
      have htriangle := abs_sub_le (t : ℚ) (quotient decimal request) other
      rw [abs_sub_comm (t : ℚ) (quotient decimal request)] at htriangle
      linarith

theorem nearest_one (h : Computable decimal request) (hlt : quotient decimal request < 1) :
    Nearest decimal request 1 := by
  rw [nearest_iff h]
  refine ⟨one_pos, fun other hother => ?_⟩
  have hone : (1 : ℚ) ≤ other := by exact_mod_cast hother
  rw [Int.cast_one, abs_of_neg (by linarith), abs_of_neg (by linarith)]
  linarith

theorem sizeOf_inj (h : Computable decimal request) {s t : ℤ}
    (heq : sizeOf decimal request s = sizeOf decimal request t) : s = t := by
  have hunit : ((ratio decimal request).1 * request.roundTo : ℤ) ≠ 0 := by
    have hpos := Nat.mul_pos (@ratio_pos decimal request).1 h.roundTo_pos
    exact_mod_cast hpos.ne'
  exact mul_left_cancel₀ hunit (congrArg Prod.fst heq)

theorem wellRead_of_fitting (h : Computable decimal request)
    (hsize : Fitting decimal request (sizeOf decimal request (multiple decimal request))) :
    WellRead decimal request := by
  refine ⟨h, fun hone hmisread hparting => ?_⟩
  obtain ⟨nearest, t, hnearest, heq, hgreatest⟩ := hsize.largest hone
  obtain rfl := sizeOf_inj h heq
  have hle := hmisread.1
  obtain ⟨hpos, hhalf⟩ := (nearest_iff_half h hle).mp hnearest
  have htaken := one_le_halfEven_double hle
  have hgiven := isGreatest_multiple h hone
  rw [max_eq_right htaken] at hgiven
  rcases (isGreatest_iff (admissible_le h) (by omega) hpos hgiven).mp hgreatest with heq | hnext
  · rw [← heq, near_double_iff hle] at hhalf
    exact hhalf hmisread
  · refine hnext (admissible_le h (by omega) ?_ hparting)
    have hbelow : nearest ≤ ⌊quotient decimal request + 1 / 2⌋ := by
      apply Int.le_floor.mpr
      linarith [(abs_le.mp hhalf).1]
    rw [parting_of_misread hmisread]
    omega

theorem fitting_of_wellRead (h : WellRead decimal request) :
    Fitting decimal request (sizeOf decimal request (multiple decimal request)) := by
  obtain ⟨hwidth, hheight⟩ := @ratio_pos decimal request
  have hcomputable := h.toComputable
  have hstep := hcomputable.roundTo_pos
  have hpos := @multiple_pos decimal request
  refine ⟨⟨by unfold sizeOf; positivity, by unfold sizeOf; positivity⟩, ?_, fun aw ah h => ?_, ⟨?_, ?_⟩,
    fun hone => ?_⟩
  · unfold sizeOf
    ring
  · have hsame : ((ratio decimal request).1 * ah : ℤ) = (ratio decimal request).2 * aw := by
      exact_mod_cast (parseAspectRatio_requested h).1
    unfold sizeOf
    linear_combination (request.roundTo * multiple decimal request : ℤ) * hsame
  · exact ⟨(ratio decimal request).1 * multiple decimal request, by unfold sizeOf; ring⟩
  · exact ⟨(ratio decimal request).2 * multiple decimal request, by unfold sizeOf; ring⟩
  · have hgiven := isGreatest_multiple hcomputable hone
    rcases lt_or_ge (quotient decimal request) 1 with hlt | hle
    · rw [max_eq_left (halfEven_double_le_one hlt)] at hgiven
      exact ⟨1, _, nearest_one hcomputable hlt, rfl, hgiven⟩
    · have htaken := one_le_halfEven_double hle
      rw [max_eq_right htaken] at hgiven
      rcases Classical.em (Misread (quotient decimal request)) with hmisread | hread
      · have hnearest : Nearest decimal request ⌊quotient decimal request + 1 / 2⌋ := by
          have hfloor := Int.floor_le (quotient decimal request + 1 / 2)
          have hlt := Int.lt_floor_add_one (quotient decimal request + 1 / 2)
          refine (nearest_iff_half hcomputable hle).mpr ⟨Int.floor_pos.mpr (by linarith), ?_⟩
          exact abs_le.mpr ⟨by linarith, by linarith⟩
        refine ⟨_, _, hnearest, rfl, ?_⟩
        refine (isGreatest_iff (admissible_le hcomputable) (by omega) hnearest.1 hgiven).mpr (.inr ?_)
        rw [← parting_of_misread hmisread]
        exact h.parted hone hmisread
      · have hnear := (near_double_iff hle).mpr hread
        exact ⟨_, _, (nearest_iff_half hcomputable hle).mpr ⟨by omega, hnear⟩, rfl, hgiven⟩

/-- A size that fits the request is computed exactly when no step fails and the quotient is not
misread to the loss of an admissible multiple. -/
theorem compute_fitting_iff :
    (∃ size, compute decimal request = .ok size ∧ Fitting decimal request size) ↔
      WellRead decimal request := by
  constructor
  · rintro ⟨size, hsize, hfitting⟩
    obtain ⟨hcomputable, rfl⟩ := compute_ok_iff.mp hsize
    exact wellRead_of_fitting hcomputable hfitting
  · intro h
    exact ⟨_, compute_ok_iff.mpr ⟨h.toComputable, rfl⟩, fitting_of_wellRead h⟩

theorem wellRead_of_lt (h : Computable decimal request) (hlt : request.shortEdge < 2 ^ 52) :
    WellRead decimal request := by
  refine ⟨h, fun _ hmisread => absurd hmisread ?_⟩
  obtain ⟨hwidth, hheight⟩ := @ratio_pos decimal request
  exact not_misread_div (Nat.mul_pos h.roundTo_pos (lt_min hwidth hheight)) hlt

/-- Below 2 ^ 52 nothing is misread: every size that is computed fits. -/
theorem fitting_of_compute {size : ℤ × ℤ} (h : compute decimal request = .ok size)
    (hlt : request.shortEdge < 2 ^ 52) : Fitting decimal request size := by
  obtain ⟨hcomputable, rfl⟩ := compute_ok_iff.mp h
  exact fitting_of_wellRead (wellRead_of_lt hcomputable hlt)

def portrait : Request where
  aspectRatio := [0x39, 0x3a, 0x31, 0x36]
  shortEdge := 1080
  roundTo := 8
  maxLongEdge := none
  maxTotalPixels := none
  maxRatio := none

theorem fitting_of_compute_portrait : Fitting (fun _ => none) portrait (1080, 1920) :=
  fitting_of_compute (by decide +kernel) (by decide)

/-! A short edge one less than half-way between two multiples of 72, and far above. -/

def farRequest : Request where
  aspectRatio := [0x39, 0x3a, 0x31, 0x36]
  shortEdge := 10133099161583723
  roundTo := 8
  maxLongEdge := none
  maxTotalPixels := none
  maxRatio := none

theorem compute_farRequest :
    compute (fun _ => none) farRequest = .ok (10133099161583760, 18014398509482240) ∧
      ¬ Fitting (fun _ => none) farRequest (10133099161583760, 18014398509482240) := by
  have hcompute : compute (fun _ => none) farRequest = .ok (10133099161583760, 18014398509482240) := by
    decide +kernel
  obtain ⟨hcomputable, heq⟩ := compute_ok_iff.mp hcompute
  refine ⟨hcompute, fun hfitting => ?_⟩
  rw [heq] at hfitting
  have hratio : ratio (fun _ => none) farRequest = (9, 16) := by
    decide +kernel
  have hquotient : quotient (fun _ => none) farRequest = 10133099161583723 / 72 := by
    rw [quotient, hratio]
    norm_num [farRequest]
  have hmisread : Misread (quotient (fun _ => none) farRequest) := by
    rw [hquotient]
    exact ⟨by norm_num, .inl (by unfold MisreadFine; decide +kernel)⟩
  refine (wellRead_of_fitting hcomputable hfitting).parted ?_ hmisread ?_
  · exact ⟨by simp [farRequest], by simp [farRequest]⟩
  · exact ⟨by simp [farRequest], by simp [farRequest]⟩

end ShortReel.AspectMultiples
