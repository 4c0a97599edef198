import ShortReel.JsonRoundTrip

/-!
# Instants in UTC and their text

Microseconds since the epoch, the dates of the proleptic Gregorian calendar, and the ISO text of an
instant, which is read back to the microsecond up to the end of the year 9999.
-/

namespace ShortReel.UtcInstants

open JsonText

def isLeap (year : ℕ) : Bool :=
  year % 4 = 0 ∧ (year % 100 ≠ 0 ∨ year % 400 = 0)

def monthLengths (leap : Bool) : List ℕ :=
  [31, if leap then 29 else 28, 31, 30, 31, 30, 31, 31, 30, 31, 30, 31]

def daysInYear (leap : Bool) : ℕ :=
  if leap then 366 else 365

@[simp]
theorem sum_monthLengths (leap : Bool) : (monthLengths leap).sum = daysInYear leap := by
  cases leap <;> rfl

/-- The part of some consecutive parts that a position falls in, and where in it, both from one. -/
def locate : List ℕ → ℕ → ℕ × ℕ
  | [], position => (1, position + 1)
  | length :: lengths, position =>
      if position < length then (1, position + 1)
      else ((locate lengths (position - length)).1 + 1, (locate lengths (position - length)).2)

def Within (lengths : List ℕ) (found : ℕ × ℕ) : Prop :=
  1 ≤ found.1 ∧ 1 ≤ found.2 ∧ ∃ length, lengths[found.1 - 1]? = some length ∧ found.2 ≤ length

instance (lengths : List ℕ) (found : ℕ × ℕ) : Decidable (Within lengths found) :=
  match h : lengths[found.1 - 1]? with
  | some length =>
      decidable_of_iff (1 ≤ found.1 ∧ 1 ≤ found.2 ∧ found.2 ≤ length) (by simp [Within, h])
  | none => isFalse (by simp [Within, h])

def positionOf (lengths : List ℕ) (found : ℕ × ℕ) : ℕ :=
  (lengths.take (found.1 - 1)).sum + (found.2 - 1)

theorem locate_spec {lengths : List ℕ} {position : ℕ} (h : position < lengths.sum) :
    Within lengths (locate lengths position) ∧
      positionOf lengths (locate lengths position) = position := by
  induction lengths generalizing position with
  | nil => simp at h
  | cons length lengths ih =>
      rw [List.sum_cons] at h
      rw [locate]
      split
      · rename_i hlt
        refine ⟨⟨le_rfl, by simp, length, by simp, hlt⟩, by simp [positionOf]⟩
      · rename_i hge
        have hrest : position - length < lengths.sum := by omega
        obtain ⟨⟨hpart, hplace, found, hfound, hle⟩, hposition⟩ := ih hrest
        obtain ⟨part, hsucc⟩ : ∃ part, (locate lengths (position - length)).1 = part + 1 :=
          ⟨_, (Nat.sub_add_cancel hpart).symm⟩
        rw [positionOf, hsucc, Nat.add_sub_cancel] at hposition
        rw [hsucc, Nat.add_sub_cancel] at hfound
        refine ⟨⟨Nat.le_add_left 1 _, hplace, found, ?_, hle⟩, ?_⟩
        · simpa [hsucc] using hfound
        · simp only [positionOf, hsucc, Nat.add_sub_cancel, List.take_succ_cons, List.sum_cons]
          omega

structure Date where
  year : ℕ
  month : ℕ
  day : ℕ
  deriving DecidableEq, Repr

def daysBeforeYear (year : ℕ) : ℕ :=
  (year - 1) * 365 + (year - 1) / 4 - (year - 1) / 100 + (year - 1) / 400

def toOrdinal (date : Date) : ℕ :=
  daysBeforeYear date.year + positionOf (monthLengths (isLeap date.year)) (date.month, date.day) + 1

/-- A day of the calendar that a `datetime` can name. -/
def Date.Valid (date : Date) : Prop :=
  1 ≤ date.year ∧ date.year ≤ 9999 ∧ Within (monthLengths (isLeap date.year)) (date.month, date.day)

instance (date : Date) : Decidable date.Valid :=
  inferInstanceAs (Decidable (_ ∧ _ ∧ _))

theorem Date.Valid.small {date : Date} (h : date.Valid) : date.month < 10 ^ 2 ∧ date.day < 10 ^ 2 := by
  obtain ⟨-, -, hmonth, -, length, hlength, hday⟩ := h
  dsimp only at hmonth hlength hday
  have hcount : date.month - 1 < 12 := by
    have hlt := (List.getElem?_eq_some_iff.mp hlength).1
    exact hlt
  have hlong : length ≤ 31 := by
    have hmem := List.mem_of_getElem? hlength
    have hall : ∀ leap, ∀ length ∈ monthLengths leap, length ≤ 31 := by decide
    exact hall _ length hmem
  omega

/-- The year of a day counted from zero, and which day of that year it is: by cycles of 400, 100 and
4 years, the last of the shorter ones a day longer or shorter than the others. -/
def yearOf (days : ℕ) : ℕ × ℕ :=
  let cycle := days % 146097
  let century := min 3 (cycle / 36524)
  let inCentury := cycle - century * 36524
  let inFour := inCentury % 1461
  let year := min 3 (inFour / 365)
  (days / 146097 * 400 + century * 100 + inCentury / 1461 * 4 + year + 1, inFour - year * 365)

def fromOrdinal (ordinal : ℕ) : Date :=
  let found := yearOf (ordinal - 1)
  let place := locate (monthLengths (isLeap found.1)) found.2
  ⟨found.1, place.1, place.2⟩

theorem yearOf_spec (days : ℕ) :
    1 ≤ (yearOf days).1 ∧ (yearOf days).2 < daysInYear (isLeap (yearOf days).1) ∧
      daysBeforeYear (yearOf days).1 + (yearOf days).2 = days := by
  obtain ⟨a, hcycles⟩ : ∃ a, days / 146097 = a := ⟨_, rfl⟩
  obtain ⟨cycle, hcycle⟩ : ∃ cycle, days % 146097 = cycle := ⟨_, rfl⟩
  obtain ⟨b, hb⟩ : ∃ b, min 3 (cycle / 36524) = b := ⟨_, rfl⟩
  obtain ⟨inCentury, hcentury⟩ : ∃ n, cycle - b * 36524 = n := ⟨_, rfl⟩
  obtain ⟨c, hc⟩ : ∃ c, inCentury / 1461 = c := ⟨_, rfl⟩
  obtain ⟨inFour, hfour⟩ : ∃ n, inCentury % 1461 = n := ⟨_, rfl⟩
  obtain ⟨d, hd⟩ : ∃ d, min 3 (inFour / 365) = d := ⟨_, rfl⟩
  have hyear : yearOf days = (a * 400 + b * 100 + c * 4 + d + 1, inFour - d * 365) := by
    simp only [yearOf, hcycles, hcycle, hb, hcentury, hc, hfour, hd]
  have hbounds : b ≤ 3 ∧ c ≤ 24 ∧ d ≤ 3 := by omega
  have hbefore : daysBeforeYear (a * 400 + b * 100 + c * 4 + d + 1) =
      a * 146097 + b * 36524 + c * 1461 + d * 365 := by
    unfold daysBeforeYear
    omega
  have hdays : days = a * 146097 + b * 36524 + c * 1461 + inFour := by omega
  have hlast : inFour - d * 365 < 365 ∨
      inFour - d * 365 = 365 ∧ d = 3 ∧ (c < 24 ∨ b = 3) := by omega
  rw [hyear]
  dsimp only
  rw [hbefore]
  refine ⟨by omega, ?_, by omega⟩
  rcases hlast with hlt | ⟨hlast, hd, hcb⟩
  · unfold daysInYear
    split <;> omega
  · have hleap : isLeap (a * 400 + b * 100 + c * 4 + d + 1) = true := by
      unfold isLeap
      rw [decide_eq_true_eq]
      omega
    rw [hlast, hleap]
    decide

def endOfDays : ℕ := 3652060

theorem fromOrdinal_spec {ordinal : ℕ} (hfirst : 1 ≤ ordinal) (hlast : ordinal < endOfDays) :
    (fromOrdinal ordinal).Valid ∧ toOrdinal (fromOrdinal ordinal) = ordinal := by
  obtain ⟨hyear, hlt, hdays⟩ := yearOf_spec (ordinal - 1)
  rw [← sum_monthLengths] at hlt
  obtain ⟨hwithin, hposition⟩ := locate_spec hlt
  have hupper : (yearOf (ordinal - 1)).1 ≤ 9999 := by
    unfold endOfDays at hlast
    unfold daysBeforeYear at hdays
    omega
  refine ⟨⟨hyear, hupper, hwithin⟩, ?_⟩
  have hposition' : positionOf (monthLengths (isLeap (fromOrdinal ordinal).year))
      ((fromOrdinal ordinal).month, (fromOrdinal ordinal).day) = (yearOf (ordinal - 1)).2 :=
    hposition
  rw [toOrdinal, hposition']
  have hsame : (fromOrdinal ordinal).year = (yearOf (ordinal - 1)).1 := rfl
  rw [hsame, hdays]
  omega

def padded : ℕ → ℕ → Text
  | 0, _ => []
  | width + 1, value => padded width (value / 10) ++ [48 + value % 10]

theorem length_padded (width value : ℕ) : (padded width value).length = width := by
  induction width generalizing value with
  | zero => rfl
  | succ width ih => rw [padded, List.length_append, ih, List.length_singleton]

theorem isDigit_padded {width value c : ℕ} (h : c ∈ padded width value) : isDigit c = true := by
  induction width generalizing value with
  | zero => cases h
  | succ width ih =>
      rw [padded, List.mem_append, List.mem_singleton] at h
      rcases h with h | rfl
      · exact ih h
      · unfold isDigit
        rw [Bool.and_eq_true, decide_eq_true_eq, decide_eq_true_eq]
        omega

theorem ofDecimal_padded {width value : ℕ} (h : value < 10 ^ width) :
    ofDecimal (padded width value) = value := by
  induction width generalizing value with
  | zero =>
      rw [Nat.pow_zero, Nat.lt_one_iff] at h
      rw [h]
      rfl
  | succ width ih =>
      have hrest : value / 10 < 10 ^ width := by
        rw [Nat.pow_succ] at h
        omega
      rw [padded, ofDecimal_concat, ih hrest]
      omega

def readNumber (width : ℕ) (t : Text) : Option (ℕ × Text) :=
  if (t.take width).length = width ∧ ∀ c ∈ t.take width, isDigit c = true then
    some (ofDecimal (t.take width), t.drop width)
  else none

def readMark (mark : Text) (t : Text) : Option Text :=
  if mark <+: t then some (t.drop mark.length) else none

theorem readNumber_padded {width value : ℕ} (h : value < 10 ^ width) (rest : Text) :
    readNumber width (padded width value ++ rest) = some (value, rest) := by
  have htake : (padded width value ++ rest).take width = padded width value := by
    rw [List.take_append_of_le_length (length_padded width value).ge,
      List.take_of_length_le (length_padded width value).le]
  have hdrop : (padded width value ++ rest).drop width = rest := by
    rw [List.drop_append_of_le_length (length_padded width value).ge,
      List.drop_of_length_le (length_padded width value).le, List.nil_append]
  rw [readNumber, htake, hdrop, if_pos ⟨length_padded width value, fun _ => isDigit_padded⟩,
    ofDecimal_padded h]

theorem readMark_append (mark rest : Text) : readMark mark (mark ++ rest) = some rest := by
  rw [readMark, if_pos ( List.prefix_append mark rest), List.drop_left]

def microsecondsPerDay : ℕ := 86400000000

/-- The first instant that a `datetime` in UTC can hold, and the first after all of them, in
microseconds since the epoch, which is day 719163. -/
def startOfTime : ℤ := -(719162 * 86400000000)

def endOfTime : ℤ := (3652060 - 719163) * 86400000000

structure Clock where
  hour : ℕ
  minute : ℕ
  second : ℕ
  microsecond : ℕ
  deriving DecidableEq, Repr

def clockOf (time : ℕ) : Clock where
  hour := time / 3600000000
  minute := time / 60000000 % 60
  second := time / 1000000 % 60
  microsecond := time % 1000000

def Clock.Valid (clock : Clock) : Prop :=
  clock.hour < 24 ∧ clock.minute < 60 ∧ clock.second < 60 ∧ clock.microsecond < 1000000

instance (clock : Clock) : Decidable clock.Valid :=
  inferInstanceAs (Decidable (_ ∧ _ ∧ _ ∧ _))

def Clock.time (clock : Clock) : ℕ :=
  ((clock.hour * 60 + clock.minute) * 60 + clock.second) * 1000000 + clock.microsecond

theorem clockOf_spec {time : ℕ} (h : time < microsecondsPerDay) :
    (clockOf time).Valid ∧ (clockOf time).time = time := by
  unfold microsecondsPerDay at h
  unfold Clock.Valid Clock.time clockOf
  dsimp only
  omega

def fractionText (microsecond : ℕ) : Text :=
  if microsecond = 0 then [] else text "." ++ padded 6 microsecond

def written (date : Date) (clock : Clock) : Text :=
  padded 4 date.year ++ (text "-" ++ (padded 2 date.month ++ (text "-" ++ (padded 2 date.day ++
    (text "T" ++ (padded 2 clock.hour ++ (text ":" ++ (padded 2 clock.minute ++ (text ":" ++
      (padded 2 clock.second ++ (fractionText clock.microsecond ++ text "+00:00")))))))))))

/-- `datetime.isoformat` of an instant in UTC. -/
def isoformat (instant : ℤ) : Text :=
  let elapsed := (instant - startOfTime).toNat
  written (fromOrdinal (elapsed / microsecondsPerDay + 1)) (clockOf (elapsed % microsecondsPerDay))

def instantOf (date : Date) (clock : Clock) : ℤ :=
  ((toOrdinal date : ℤ) - 1) * microsecondsPerDay + clock.time + startOfTime

def readFraction (t : Text) : Option (ℕ × Text) :=
  match readMark (text ".") t with
  | some t => readNumber 6 t
  | none => some (0, t)

/-- `datetime.fromisoformat` on the texts `isoformat` writes in UTC; of the other texts it takes, none
is read here. -/
def fromisoformat (t : Text) : Option ℤ := do
  let (year, t) ← readNumber 4 t
  let t ← readMark (text "-") t
  let (month, t) ← readNumber 2 t
  let t ← readMark (text "-") t
  let (day, t) ← readNumber 2 t
  let t ← readMark (text "T") t
  let (hour, t) ← readNumber 2 t
  let t ← readMark (text ":") t
  let (minute, t) ← readNumber 2 t
  let t ← readMark (text ":") t
  let (second, t) ← readNumber 2 t
  let (microsecond, t) ← readFraction t
  let t ← readMark (text "+00:00") t
  let date : Date := ⟨year, month, day⟩
  let clock : Clock := ⟨hour, minute, second, microsecond⟩
  if t = [] ∧ date.Valid ∧ clock.Valid then
    some (instantOf date clock)
  else none

theorem readFraction_fractionText {microsecond : ℕ} (h : microsecond < 1000000) :
    readFraction (fractionText microsecond ++ text "+00:00") = some (microsecond, text "+00:00") := by
  unfold fractionText
  split
  · rename_i hzero
    rw [hzero]
    rfl
  · rw [List.append_assoc, readFraction, readMark_append]
    exact readNumber_padded (by omega) _

theorem fromisoformat_written {date : Date} {clock : Clock} (hdate : date.Valid)
    (hclock : clock.Valid) : fromisoformat (written date clock) = some (instantOf date clock) := by
  have hyear : date.year < 10 ^ 4 := Nat.lt_of_le_of_lt hdate.2.1 (by decide)
  obtain ⟨hmonth, hday⟩ := hdate.small
  have hhour : clock.hour < 10 ^ 2 := Nat.lt_trans hclock.1 (by decide)
  have hminute : clock.minute < 10 ^ 2 := Nat.lt_trans hclock.2.1 (by decide)
  have hsecond : clock.second < 10 ^ 2 := Nat.lt_trans hclock.2.2.1 (by decide)
  have hmark := readMark_append (text "+00:00") []
  rw [List.append_nil] at hmark
  simp only [fromisoformat, written, readNumber_padded hyear, readNumber_padded hmonth,
    readNumber_padded hday, readNumber_padded hhour, readNumber_padded hminute,
    readNumber_padded hsecond, readMark_append, readFraction_fractionText hclock.2.2.2, hmark,
    bind, Option.bind]
  exact if_pos ⟨trivial, hdate, hclock⟩

theorem fromisoformat_isoformat {instant : ℤ} (hstart : startOfTime ≤ instant)
    (hend : instant < endOfTime) : fromisoformat (isoformat instant) = some instant := by
  obtain ⟨elapsed, helapsed⟩ : ∃ elapsed : ℕ, (elapsed : ℤ) = instant - startOfTime :=
    ⟨_, Int.toNat_of_nonneg (by omega)⟩
  have hbound : elapsed < 3652059 * 86400000000 := by
    unfold endOfTime at hend
    unfold startOfTime at helapsed
    omega
  have hrest : elapsed % microsecondsPerDay < microsecondsPerDay :=
    Nat.mod_lt _ (by decide)
  have hdays : elapsed / microsecondsPerDay + 1 < endOfDays := by
    unfold endOfDays microsecondsPerDay
    omega
  have hsplit := Nat.div_add_mod' elapsed microsecondsPerDay
  obtain ⟨hdate, hordinal⟩ := fromOrdinal_spec (Nat.le_add_left 1 _) hdays
  obtain ⟨hclock, htime⟩ := clockOf_spec hrest
  have hinstant : instantOf (fromOrdinal (elapsed / microsecondsPerDay + 1))
      (clockOf (elapsed % microsecondsPerDay)) = instant := by
    have hcast := congrArg (Nat.cast (R := ℤ)) hsplit
    rw [Nat.cast_add, Nat.cast_mul] at hcast
    rw [instantOf, hordinal, htime, Nat.cast_add, Nat.cast_one, add_sub_cancel_right, hcast]
    omega
  unfold isoformat
  rw [← helapsed, Int.toNat_natCast, fromisoformat_written hdate hclock, hinstant]

end ShortReel.UtcInstants
