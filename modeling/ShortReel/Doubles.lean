import Mathlib.Algebra.Order.Field.Power
import Mathlib.Data.Int.Log
import Mathlib.Data.Rat.Floor
import Mathlib.Tactic.Positivity

/-!
# Doubles

Quotients of integers as doubles, and integers nearest to a rational. Rounding a rational to a double
and the double to an integer does not always give an integer nearest to the rational.
-/

namespace ShortReel.Doubles

def halfEven (x : ℚ) : ℤ :=
  if Int.fract x < 1 / 2 then ⌊x⌋
  else if 1 / 2 < Int.fract x then ⌊x⌋ + 1
  else if Even ⌊x⌋ then ⌊x⌋
  else ⌊x⌋ + 1

def grid (x : ℚ) : ℚ :=
  2 ^ (max (Int.log 2 |x|) (-1022) - 52)

/-- The double nearest to a rational that is not too large, the even one of two. -/
def double (x : ℚ) : ℚ :=
  halfEven (x / grid x) * grid x

def overflowsAt : ℚ :=
  2 ^ 1024 - 2 ^ 970

inductive ArithmeticError where
  | zeroDivision
  | overflow
  deriving DecidableEq, Repr

def trueDiv (dividend divisor : ℤ) : Except ArithmeticError ℚ :=
  if divisor = 0 then .error .zeroDivision
  else if overflowsAt ≤ |(dividend / divisor : ℚ)| then .error .overflow
  else .ok (double (dividend / divisor))

variable {x : ℚ} {n : ℤ}

theorem halfEven_rounds (x : ℚ) :
    |x - halfEven x| < 1 / 2 ∨ |x - halfEven x| = 1 / 2 ∧ Even (halfEven x) := by
  have hsplit := Int.floor_add_fract x
  have hnonneg := Int.fract_nonneg x
  have hlt := Int.fract_lt_one x
  have hfloor : x - ⌊x⌋ = Int.fract x := by linarith
  have hceil : x - ((⌊x⌋ + 1 : ℤ) : ℚ) = Int.fract x - 1 := by push_cast; linarith
  unfold halfEven
  split_ifs with hlow hhigh heven
  · exact .inl (by rw [hfloor, abs_of_nonneg hnonneg]; exact hlow)
  · refine .inl ?_
    rw [hceil, abs_of_neg (by linarith)]
    linarith
  · refine .inr ⟨?_, heven⟩
    rw [hfloor, abs_of_nonneg hnonneg]
    linarith
  · refine .inr ⟨?_, Int.even_add_one.mpr heven⟩
    rw [hceil, abs_of_neg (by linarith)]
    linarith

theorem halfEven_near (x : ℚ) : |x - halfEven x| ≤ 1 / 2 :=
  (halfEven_rounds x).elim le_of_lt fun h => h.1.le

theorem halfEven_eq_iff :
    halfEven x = n ↔ |x - n| < 1 / 2 ∨ |x - n| = 1 / 2 ∧ Even n := by
  constructor
  · rintro rfl
    exact halfEven_rounds x
  · intro hn
    have hrounds := halfEven_rounds x
    have hclose : |(halfEven x : ℚ) - n| < 1 ∨
        |(halfEven x : ℚ) - n| ≤ 1 ∧ Even (halfEven x) ∧ Even n := by
      have htriangle : |(halfEven x : ℚ) - n| ≤ |x - halfEven x| + |x - n| := by
        rw [abs_sub_comm x]
        exact abs_sub_le (halfEven x : ℚ) x n
      rcases hrounds with hlt | ⟨heq, heven⟩ <;> rcases hn with hlt' | ⟨heq', heven'⟩
      · exact .inl (by linarith)
      · exact .inl (by linarith)
      · exact .inl (by linarith)
      · exact .inr ⟨by linarith, heven, heven'⟩
    rcases hclose with hlt | ⟨hle, heven, heven'⟩
    · have hlt : |halfEven x - n| < 1 := by exact_mod_cast hlt
      exact Int.sub_eq_zero.mp (Int.abs_lt_one_iff.mp hlt)
    · have hle : |halfEven x - n| ≤ 1 := by exact_mod_cast hle
      obtain ⟨a, ha⟩ := heven
      obtain ⟨b, hb⟩ := heven'
      rw [abs_le] at hle
      omega

theorem halfEven_le (h : x ≤ n) : halfEven x ≤ n := by
  have hnear := abs_le.mp (halfEven_near x)
  by_contra hlt
  have hlt : (n : ℚ) + 1 ≤ halfEven x := by exact_mod_cast not_le.mp hlt
  linarith [hnear.1]

theorem le_halfEven (h : (n : ℚ) ≤ x) : n ≤ halfEven x := by
  have hnear := abs_le.mp (halfEven_near x)
  by_contra hlt
  have hlt : (halfEven x : ℚ) + 1 ≤ n := by exact_mod_cast not_le.mp hlt
  linarith [hnear.2]

theorem halfEven_intCast (n : ℤ) : halfEven n = n :=
  halfEven_eq_iff.mpr (.inl (by norm_num))

theorem grid_pos (x : ℚ) : 0 < grid x := by
  unfold grid
  positivity

theorem exists_grid (h : 1 ≤ x) :
    ∃ e : ℕ, grid x = 2 ^ ((e : ℤ) - 52) ∧ (2 : ℚ) ^ e ≤ x := by
  have hpos : 0 < x := by linarith
  have hlog : 0 ≤ Int.log 2 x := by
    rw [Int.log_of_one_le_right 2 h]
    exact Int.natCast_nonneg _
  have hle := Int.zpow_log_le_self (R := ℚ) (b := 2) one_lt_two hpos
  obtain ⟨e, he⟩ := Int.eq_ofNat_of_zero_le hlog
  rw [he] at hle
  refine ⟨e, ?_, by exact_mod_cast hle⟩
  rw [grid, abs_of_pos hpos, he, max_eq_left (by omega)]

/-- Between two integers a double may stand half-way where the rational does not. -/
def MisreadFine (x : ℚ) : Prop :=
  grid x ≤ 1 / 2 ∧ Int.fract x ≠ 1 / 2 ∧ (Even ⌊x⌋ ↔ 1 / 2 < Int.fract x) ∧
    (|Int.fract x - 1 / 2| < grid x / 2 ∨ |Int.fract x - 1 / 2| = grid x / 2 ∧ grid x ≤ 1 / 4)

def MisreadCoarse (x : ℚ) : Prop :=
  2 ≤ grid x ∧ ∀ m : ℤ, 1 / 2 < |x - m * grid x|

/-- A rational of which the integer nearest to its double is not nearest to it. -/
def Misread (x : ℚ) : Prop :=
  1 ≤ x ∧ (MisreadFine x ∨ MisreadCoarse x)

section Fine

variable {half : ℤ}

theorem halfWay_iff (hhalf : 0 < half) (hgrid : grid x = 1 / (2 * half)) :
    halfEven (x / grid x) = 2 * half * ⌊x⌋ + half ↔
      |Int.fract x - 1 / 2| < grid x / 2 ∨ |Int.fract x - 1 / 2| = grid x / 2 ∧ Even half := by
  have hpos : (0 : ℚ) < half := by exact_mod_cast hhalf
  have hscaled : x / grid x - ((2 * half * ⌊x⌋ + half : ℤ) : ℚ) = 2 * half * (Int.fract x - 1 / 2) := by
    rw [hgrid, ← Int.self_sub_floor]
    push_cast
    field_simp
    ring
  have habs : |x / grid x - ((2 * half * ⌊x⌋ + half : ℤ) : ℚ)| =
      2 * half * |Int.fract x - 1 / 2| := by
    rw [hscaled, abs_mul, abs_of_pos (by linarith)]
  have hbound : grid x / 2 = 1 / 2 / (2 * half) := by
    rw [hgrid]
    ring
  have htwice : (0 : ℚ) < 2 * half := by linarith
  have hlt : 2 * half * |Int.fract x - 1 / 2| < 1 / 2 ↔ |Int.fract x - 1 / 2| < grid x / 2 := by
    rw [hbound]
    exact (lt_div_iff₀' htwice).symm
  have heq : 2 * half * |Int.fract x - 1 / 2| = 1 / 2 ↔ |Int.fract x - 1 / 2| = grid x / 2 := by
    rw [hbound, mul_comm]
    exact (eq_div_iff htwice.ne').symm
  have heven : Even (2 * half * ⌊x⌋ + half) ↔ Even half := by
    rw [mul_assoc, Int.even_add]
    simp
  rw [halfEven_eq_iff, habs, hlt, heq, heven]

theorem halfEven_div_iff (hhalf : 0 < half) {mantissa : ℤ} :
    halfEven (mantissa / (2 * half)) = n ↔
      |mantissa - 2 * half * n| < half ∨ |mantissa - 2 * half * n| = half ∧ Even n := by
  have htwice : (0 : ℚ) < 2 * half := by
    have hpos : (0 : ℚ) < half := by exact_mod_cast hhalf
    linarith
  have hscaled : |(mantissa : ℚ) / (2 * half) - n| =
      ((|mantissa - 2 * half * n| : ℤ) : ℚ) / (2 * half) := by
    rw [← abs_of_pos htwice, Int.cast_abs, ← abs_div]
    rw [abs_of_pos htwice]
    congr 1
    push_cast
    field_simp
  have hhalves : (1 / 2 : ℚ) = half / (2 * half) := by
    field_simp
  rw [halfEven_eq_iff, hscaled, hhalves, div_lt_div_iff_of_pos_right htwice,
    div_left_inj' htwice.ne']
  norm_cast

section Mantissa

variable {mantissa nearest : ℤ} (hhalf : 0 < half) (hscaled : |2 * half * x - mantissa| ≤ 1 / 2)
include hhalf hscaled

theorem near_inside (hinside : |mantissa - 2 * half * nearest| < half) :
    (nearest = ⌊x⌋ ∨ nearest = ⌊x⌋ + 1) ∧ |x - nearest| ≤ 1 / 2 ∧ mantissa ≠ 2 * half * ⌊x⌋ + half := by
  have hpos : (0 : ℚ) < half := by exact_mod_cast hhalf
  have htwice : (0 : ℚ) < 2 * half := by linarith
  have hfloor := Int.floor_add_fract x
  have hnonneg := Int.fract_nonneg x
  have hlt := Int.fract_lt_one x
  have hless : |mantissa - 2 * half * nearest| ≤ half - 1 := by omega
  have hless : |(mantissa : ℚ) - 2 * half * nearest| ≤ half - 1 := by exact_mod_cast hless
  rw [abs_le] at hless hscaled
  have hupper : 2 * half * (x - nearest) < 2 * half * (1 / 2) := by linarith
  have hlower : 2 * half * (-(1 / 2)) < 2 * half * (x - nearest) := by linarith
  have hupper := lt_of_mul_lt_mul_left hupper htwice.le
  have hlower := lt_of_mul_lt_mul_left hlower htwice.le
  have habove : ⌊x⌋ - 1 < nearest := by
    have hlt : (⌊x⌋ : ℚ) - 1 < nearest := by linarith
    exact_mod_cast hlt
  have hbelow : nearest < ⌊x⌋ + 2 := by
    have hlt : (nearest : ℚ) < ⌊x⌋ + 2 := by linarith
    exact_mod_cast hlt
  have hfloors : nearest = ⌊x⌋ ∨ nearest = ⌊x⌋ + 1 := by omega
  refine ⟨hfloors, abs_le.mpr ⟨hlower.le, hupper.le⟩, ?_⟩
  rintro rfl
  rcases hfloors with rfl | rfl
  · rw [add_sub_cancel_left, abs_of_pos hhalf] at hinside
    exact lt_irrefl _ hinside
  · rw [show 2 * half * ⌊x⌋ + half - 2 * half * (⌊x⌋ + 1) = -half by ring, abs_neg,
      abs_of_pos hhalf] at hinside
    exact lt_irrefl _ hinside

theorem floor_of_middle (hmiddle : mantissa = 2 * half * nearest + half) : ⌊x⌋ = nearest := by
  have hhalf' : (1 : ℚ) ≤ half := by exact_mod_cast hhalf
  have htwice : (0 : ℚ) < 2 * half := by linarith
  have hcast : (mantissa : ℚ) = 2 * half * nearest + half := by exact_mod_cast hmiddle
  rw [abs_le] at hscaled
  have hupper : 2 * half * (x - nearest) < 2 * half * 1 := by linarith
  have hlower : 2 * half * 0 < 2 * half * (x - nearest) := by linarith
  have hupper := lt_of_mul_lt_mul_left hupper htwice.le
  have hlower := lt_of_mul_lt_mul_left hlower htwice.le
  exact Int.floor_eq_iff.mpr ⟨by linarith, by linarith⟩

theorem near_of_middle_below (hmiddle : mantissa = 2 * half * nearest + half) (heven : Even nearest) :
    |x - nearest| ≤ 1 / 2 ↔ ¬ (Int.fract x ≠ 1 / 2 ∧ (Even ⌊x⌋ ↔ 1 / 2 < Int.fract x) ∧
      mantissa = 2 * half * ⌊x⌋ + half) := by
  have hfloor := floor_of_middle hhalf hscaled hmiddle
  rw [← hfloor, Int.self_sub_floor, abs_of_nonneg (Int.fract_nonneg x), hfloor]
  constructor
  · rintro hle ⟨hne, hside, -⟩
    exact hne (le_antisymm hle (hside.mp heven).le)
  · intro hnot
    by_contra hlt
    exact hnot ⟨(not_le.mp hlt).ne', iff_of_true heven (not_le.mp hlt), hmiddle⟩

theorem floor_of_middle_above (hmiddle : mantissa = 2 * half * nearest - half) : ⌊x⌋ = nearest - 1 := by
  have hlower : mantissa = 2 * half * (nearest - 1) + half := by linarith
  exact floor_of_middle hhalf hscaled hlower

theorem near_of_middle_above (hmiddle : mantissa = 2 * half * nearest - half) (heven : Even nearest) :
    |x - nearest| ≤ 1 / 2 ↔ ¬ (Int.fract x ≠ 1 / 2 ∧ (Even ⌊x⌋ ↔ 1 / 2 < Int.fract x) ∧
      mantissa = 2 * half * ⌊x⌋ + half) := by
  have hfloor := floor_of_middle_above hhalf hscaled hmiddle
  have hparts := Int.floor_add_fract x
  have hlt := Int.fract_lt_one x
  have hnearest : (nearest : ℚ) = ⌊x⌋ + 1 := by
    rw [hfloor]
    push_cast
    ring
  have hodd : ¬ Even ⌊x⌋ := by
    rw [hfloor, Int.even_sub]
    simp [heven]
  rw [show x - nearest = -(1 - Int.fract x) by linarith, abs_neg, abs_of_pos (by linarith)]
  constructor
  · rintro hle ⟨hne, hside, -⟩
    refine hodd (hside.mpr (lt_of_le_of_ne ?_ hne.symm))
    linarith
  · intro hnot
    by_contra hlt
    have hlt : Int.fract x < 1 / 2 := by linarith
    refine hnot ⟨hlt.ne, iff_of_false hodd (not_lt.mpr hlt.le), ?_⟩
    rw [hmiddle, hfloor]
    ring

end Mantissa

theorem near_fine_iff (hhalf : 0 < half) (hgrid : grid x = 1 / (2 * half)) :
    (halfEven (double x) = ⌊x⌋ ∨ halfEven (double x) = ⌊x⌋ + 1) ∧
    (|x - halfEven (double x)| ≤ 1 / 2 ↔
      ¬ (Int.fract x ≠ 1 / 2 ∧ (Even ⌊x⌋ ↔ 1 / 2 < Int.fract x) ∧
        (|Int.fract x - 1 / 2| < grid x / 2 ∨ |Int.fract x - 1 / 2| = grid x / 2 ∧ Even half))) := by
  rw [← halfWay_iff hhalf hgrid]
  have hpos : (0 : ℚ) < half := by exact_mod_cast hhalf
  have hscale : x / grid x = 2 * half * x := by
    rw [hgrid]
    field_simp
  have hdouble : double x = halfEven (x / grid x) / (2 * half) := by
    rw [double, hgrid]
    field_simp
  have hscaled := halfEven_near (x / grid x)
  rw [hscale] at hscaled
  rw [hdouble, hscale]
  generalize halfEven (2 * half * x) = mantissa at hscaled ⊢
  obtain ⟨nearest, hnearest⟩ : ∃ nearest, halfEven (mantissa / (2 * half)) = nearest := ⟨_, rfl⟩
  rw [hnearest]
  rcases (halfEven_div_iff hhalf).mp hnearest with hinside | ⟨hmiddle, heven⟩
  · obtain ⟨hfloors, hnear, hne⟩ := near_inside hhalf hscaled hinside
    exact ⟨hfloors, iff_of_true hnear fun hmisread => hne hmisread.2.2⟩
  · rcases (abs_eq hhalf.le).mp hmiddle with hmiddle | hmiddle
    · have hmiddle : mantissa = 2 * half * nearest + half := by omega
      exact ⟨.inl (floor_of_middle hhalf hscaled hmiddle).symm,
        near_of_middle_below hhalf hscaled hmiddle heven⟩
    · have hmiddle : mantissa = 2 * half * nearest - half := by omega
      have hfloor := floor_of_middle_above hhalf hscaled hmiddle
      exact ⟨.inr (by omega), near_of_middle_above hhalf hscaled hmiddle heven⟩

end Fine

theorem near_whole (hgrid : grid x = 1) : |x - halfEven (double x)| ≤ 1 / 2 := by
  rw [double, hgrid, div_one, mul_one, halfEven_intCast]
  exact halfEven_near x

section Coarse

variable {step : ℤ}

theorem halfEven_double_coarse (hgrid : grid x = step) :
    halfEven (double x) = halfEven (x / step) * step := by
  rw [double, hgrid]
  exact_mod_cast halfEven_intCast (halfEven (x / step) * step)

theorem near_coarse_iff (hstep : 2 ≤ step) (hgrid : grid x = step) :
    |x - halfEven (double x)| ≤ 1 / 2 ↔ ∃ m : ℤ, |x - m * grid x| ≤ 1 / 2 := by
  rw [halfEven_double_coarse hgrid, hgrid]
  push_cast
  constructor
  · exact fun h => ⟨_, h⟩
  · rintro ⟨m, hm⟩
    have hle : (2 : ℚ) ≤ step := by exact_mod_cast hstep
    have hpos : (0 : ℚ) < step := by linarith
    have hclose : |x / step - m| < 1 / 2 := by
      have hscaled : x / step - m = (x - m * step) / step := by
        field_simp
      rw [hscaled, abs_div, abs_of_pos hpos, div_lt_iff₀ hpos]
      linarith
    rwa [halfEven_eq_iff.mpr (.inl hclose)]

end Coarse

theorem grid_cases (h : 1 ≤ x) :
    (∃ half : ℤ, 0 < half ∧ grid x = 1 / (2 * half) ∧ (Even half ↔ grid x ≤ 1 / 4)) ∨ grid x = 1 ∨
      ∃ step : ℤ, 2 ≤ step ∧ grid x = step := by
  obtain ⟨e, hgrid, -⟩ := exists_grid h
  rcases lt_trichotomy e 52 with hlt | rfl | hgt
  · obtain ⟨j, hj⟩ := Nat.exists_eq_add_of_lt hlt
    have hgrid' : grid x = 1 / (2 * ((2 ^ j : ℤ) : ℚ)) := by
      rw [hgrid, show (e : ℤ) - 52 = -((j + 1 : ℕ) : ℤ) by omega, zpow_neg, zpow_natCast, pow_succ]
      push_cast
      rw [mul_comm, one_div]
    refine .inl ⟨2 ^ j, by positivity, hgrid', ?_⟩
    rw [hgrid']
    cases j with
    | zero => norm_num
    | succ j =>
        have hone : (1 : ℚ) ≤ 2 ^ j := one_le_pow₀ one_le_two
        refine iff_of_true ⟨2 ^ j, by ring⟩ ?_
        push_cast
        rw [div_le_div_iff₀ (by positivity) (by norm_num), pow_succ]
        linarith
  · exact .inr (.inl (by rw [hgrid]; norm_num))
  · obtain ⟨j, hj⟩ := Nat.exists_eq_add_of_lt hgt
    refine .inr (.inr ⟨2 ^ (j + 1), ?_, ?_⟩)
    · have hone : (1 : ℤ) ≤ 2 ^ j := one_le_pow₀ one_le_two
      rw [pow_succ]
      omega
    · rw [hgrid, show (e : ℤ) - 52 = ((j + 1 : ℕ) : ℤ) by omega, zpow_natCast]
      push_cast
      rfl

theorem near_double_iff (h : 1 ≤ x) : |x - halfEven (double x)| ≤ 1 / 2 ↔ ¬ Misread x := by
  rw [Misread, and_iff_right h, not_or]
  rcases grid_cases h with ⟨half, hhalf, hgrid, heven⟩ | hgrid | ⟨step, hstep, hgrid⟩
  · have hle : grid x ≤ 1 / 2 := by
      have hone : (1 : ℚ) ≤ half := by exact_mod_cast hhalf
      rw [hgrid, div_le_div_iff₀ (by linarith) (by norm_num)]
      linarith
    have hcoarse : ¬ MisreadCoarse x := fun hcoarse => by linarith [hcoarse.1]
    rw [(near_fine_iff hhalf hgrid).2, heven, MisreadFine, and_iff_right hle, and_iff_left hcoarse]
  · refine iff_of_true (near_whole hgrid) ⟨fun hfine => ?_, fun hcoarse => ?_⟩
    · have hle := hfine.1
      rw [hgrid] at hle
      norm_num at hle
    · have hle := hcoarse.1
      rw [hgrid] at hle
      norm_num at hle
  · have hle : (2 : ℚ) ≤ grid x := by
      rw [hgrid]
      exact_mod_cast hstep
    have hfine : ¬ MisreadFine x := fun hfine => by linarith [hfine.1]
    rw [near_coarse_iff hstep hgrid, MisreadCoarse, and_iff_right hfine, and_iff_right hle]
    simp only [not_forall, not_lt]

/-- The first integer that the rational does not reach although the integer nearest to its double
does, or the other way round. -/
def parting (x : ℚ) : ℤ :=
  if grid x ≤ 1 / 2 then ⌊x⌋ + 1
  else if Int.fract (x / grid x) < 1 / 2 ∨ Int.fract (x / grid x) = 1 / 2 ∧ Even ⌊x / grid x⌋ then
    ⌊x / grid x⌋ * ⌊grid x⌋ + 1
  else ⌊x + 1 / 2⌋ + 1

theorem halfEven_eq_ite (x : ℚ) :
    halfEven x =
      if Int.fract x < 1 / 2 ∨ Int.fract x = 1 / 2 ∧ Even ⌊x⌋ then ⌊x⌋ else ⌊x⌋ + 1 := by
  unfold halfEven
  split_ifs with hlow hhigh heven hor hor
  all_goals grind

theorem parting_of_misread (h : Misread x) :
    parting x = min (halfEven (double x)) ⌊x + 1 / 2⌋ + 1 := by
  have hfar : 1 / 2 < |x - halfEven (double x)| :=
    not_le.mp fun hnear => (near_double_iff h.1).mp hnear h
  have hfloor := Int.floor_add_fract x
  have hnonneg := Int.fract_nonneg x
  have hlt := Int.fract_lt_one x
  unfold parting
  rcases grid_cases h.1 with ⟨half, hhalf, hgrid, heven⟩ | hgrid | ⟨step, hstep, hgrid⟩
  · have hle : grid x ≤ 1 / 2 := by
      have hone : (1 : ℚ) ≤ half := by exact_mod_cast hhalf
      rw [hgrid, div_le_div_iff₀ (by linarith) (by norm_num)]
      linarith
    rw [if_pos hle]
    rcases (near_fine_iff hhalf hgrid).1 with hdown | hup
    · rw [hdown, Int.self_sub_floor, abs_of_nonneg hnonneg] at hfar
      have hnext : ⌊x + 1 / 2⌋ = ⌊x⌋ + 1 :=
        Int.floor_eq_iff.mpr ⟨by push_cast; linarith, by push_cast; linarith⟩
      rw [hdown, hnext, min_eq_left (by omega)]
    · rw [hup, abs_sub_comm, abs_of_pos (by push_cast; linarith)] at hfar
      push_cast at hfar
      have hsame : ⌊x + 1 / 2⌋ = ⌊x⌋ := Int.floor_eq_iff.mpr ⟨by linarith, by linarith⟩
      rw [hup, hsame, min_eq_right (by omega)]
  · exact absurd (near_whole hgrid) (not_le.mpr hfar)
  · have htwo : (2 : ℚ) ≤ step := by exact_mod_cast hstep
    have hpos : (0 : ℚ) < step := by linarith
    rw [if_neg (by rw [hgrid]; linarith)]
    rw [halfEven_double_coarse hgrid, halfEven_eq_ite] at hfar ⊢
    rw [hgrid, Int.floor_intCast]
    split_ifs at hfar ⊢ with hdown
    · have hbelow : ((⌊x / step⌋ * step : ℤ) : ℚ) ≤ x := by
        push_cast
        exact (le_div_iff₀ hpos).mp (Int.floor_le _)
      rw [abs_of_nonneg (by linarith)] at hfar
      have hnext : ⌊x / step⌋ * step + 1 ≤ ⌊x + 1 / 2⌋ :=
        Int.le_floor.mpr (by push_cast at hfar ⊢; linarith)
      rw [min_eq_left (by omega)]
    · have habove : x < (((⌊x / step⌋ + 1) * step : ℤ) : ℚ) := by
        push_cast
        exact (div_lt_iff₀ hpos).mp (Int.lt_floor_add_one _)
      rw [abs_sub_comm, abs_of_pos (by linarith)] at hfar
      have hnext : ⌊x + 1 / 2⌋ < (⌊x / step⌋ + 1) * step :=
        Int.floor_lt.mpr (by push_cast at hfar ⊢; linarith)
      rw [min_eq_right hnext.le]

theorem scaled_grid_le (h : 1 ≤ x) : grid x * 2 ^ 52 ≤ x := by
  obtain ⟨e, hgrid, hle⟩ := exists_grid h
  refine le_of_eq_of_le ?_ hle
  rw [hgrid, zpow_sub₀ two_ne_zero, zpow_natCast]
  norm_num

theorem grid_le (h : 1 ≤ x) : grid x ≤ x := by
  linarith [scaled_grid_le h, grid_pos x]

theorem not_misread_div {dividend : ℤ} {divisor : ℕ} (hdivisor : 0 < divisor)
    (hlt : dividend < 2 ^ 52) : ¬ Misread (dividend / divisor) := by
  rintro ⟨hone, hmisread⟩
  have hscaled := scaled_grid_le hone
  have hdivisor' : (0 : ℚ) < divisor := by exact_mod_cast hdivisor
  have hdividend : (dividend : ℚ) < 2 ^ 52 := by exact_mod_cast hlt
  have hbound : grid (dividend / divisor : ℚ) * divisor < 1 := by
    rw [le_div_iff₀ hdivisor'] at hscaled
    linarith
  rcases hmisread with ⟨-, hne, -, hclose⟩ | ⟨hle, -⟩
  · have hwhole : (Int.fract (dividend / divisor : ℚ) - 1 / 2) * (2 * divisor) =
        ((2 * dividend - (2 * ⌊(dividend / divisor : ℚ)⌋ + 1) * divisor : ℤ) : ℚ) := by
      rw [← Int.self_sub_floor]
      push_cast
      field_simp
      ring
    have hfar : 1 ≤ |(Int.fract (dividend / divisor : ℚ) - 1 / 2) * (2 * divisor)| := by
      have hnonzero : (Int.fract (dividend / divisor : ℚ) - 1 / 2) * (2 * divisor) ≠ 0 :=
        mul_ne_zero (sub_ne_zero.mpr hne) (by linarith)
      rw [hwhole] at hnonzero ⊢
      exact_mod_cast Int.one_le_abs (by exact_mod_cast hnonzero)
    have hle : |Int.fract (dividend / divisor : ℚ) - 1 / 2| ≤ grid (dividend / divisor : ℚ) / 2 :=
      hclose.elim le_of_lt fun h => h.1.le
    rw [abs_mul, abs_of_pos (show (0 : ℚ) < 2 * divisor by linarith)] at hfar
    have hnear := mul_le_mul_of_nonneg_right hle (show (0 : ℚ) ≤ 2 * divisor by linarith)
    linarith
  · have hone : (1 : ℚ) ≤ divisor := by exact_mod_cast hdivisor
    have htwo := mul_le_mul hle hone zero_le_one (grid_pos _).le
    linarith

theorem one_le_halfEven_double (h : 1 ≤ x) : 1 ≤ halfEven (double x) := by
  have hfloor : 1 ≤ ⌊x⌋ := Int.le_floor.mpr (by exact_mod_cast h)
  rcases grid_cases h with ⟨half, hhalf, hgrid, -⟩ | hgrid | ⟨step, hstep, hgrid⟩
  · rcases (near_fine_iff hhalf hgrid).1 with hdown | hup <;> omega
  · rw [double, hgrid, div_one, mul_one, halfEven_intCast]
    exact le_halfEven (by exact_mod_cast h)
  · have hone : 1 ≤ halfEven (x / step) := by
      apply le_halfEven
      rw [← hgrid, Int.cast_one, one_le_div (grid_pos x)]
      exact grid_le h
    rw [halfEven_double_coarse hgrid]
    calc (1 : ℤ) ≤ step := by omega
      _ ≤ halfEven (x / step) * step := le_mul_of_one_le_left (by omega) hone

theorem halfEven_double_le_one (h : x < 1) : halfEven (double x) ≤ 1 := by
  apply halfEven_le
  rw [double, Int.cast_one]
  rcases le_or_gt x 0 with hnonpos | hpos
  · have hle : halfEven (x / grid x) ≤ 0 := by
      apply halfEven_le
      rw [Int.cast_zero]
      exact div_nonpos_of_nonpos_of_nonneg hnonpos (grid_pos x).le
    have hle : (halfEven (x / grid x) : ℚ) ≤ 0 := by exact_mod_cast hle
    linarith [mul_nonpos_of_nonpos_of_nonneg hle (grid_pos x).le]
  · have hlog : Int.log 2 |x| ≤ 0 := by
      have hle : |x| ≤ 1 := by
        rw [abs_of_pos hpos]
        exact h.le
      have hmono := Int.log_mono_right (b := 2) (abs_pos.mpr hpos.ne') hle
      rwa [Int.log_one_right] at hmono
    obtain ⟨n, hn⟩ := Int.eq_ofNat_of_zero_le (show 0 ≤ -(max (Int.log 2 |x|) (-1022) - 52) by omega)
    have hgrid : grid x = ((2 ^ n : ℤ) : ℚ)⁻¹ := by
      rw [grid, show max (Int.log 2 |x|) (-1022) - 52 = -(n : ℤ) by omega, zpow_neg, zpow_natCast]
      push_cast
      rfl
    have hle : halfEven (x / grid x) ≤ 2 ^ n := by
      apply halfEven_le
      rw [hgrid, div_inv_eq_mul]
      exact mul_le_of_le_one_left (by positivity) h.le
    have hle : (halfEven (x / grid x) : ℚ) ≤ ((2 ^ n : ℤ) : ℚ) := by exact_mod_cast hle
    calc (halfEven (x / grid x) : ℚ) * grid x ≤ ((2 ^ n : ℤ) : ℚ) * grid x :=
          mul_le_mul_of_nonneg_right hle (grid_pos x).le
      _ = 1 := by
          rw [hgrid]
          exact mul_inv_cancel₀ (by positivity)

end ShortReel.Doubles
