import ShortReel.TransitionSystem
import ShortReel.UsageTotals
import Mathlib.Data.Int.ConditionallyCompleteOrder
import Mathlib.Order.ConditionallyCompleteLattice.Basic

/-!
# Conservation of totals

A usage summary conserves its totals exactly when no row lies on a local day outside of the period: when the
clocks are set back over midnight, a row behind the start of the period can be on the day before it.
-/

namespace ShortReel.UsageConservation

open GroupedTotals InsertionDict UsageSummaries UsageTotals

variable {rows : List UsageSummaryRow} {tz : ℤ → ℤ} {since stop : Option ℤ} {summary : Summary}

def Queried (since stop : Option ℤ) (row : UsageSummaryRow) : Prop :=
  (∀ instant ∈ since, instant ≤ row.startedAt) ∧ ∀ instant ∈ stop, row.startedAt < instant

/-- A row whose local day is none before that of the start of the period and none after that of its end. -/
def Placed (tz : ℤ → ℤ) (since stop : Option ℤ) (row : UsageSummaryRow) : Prop :=
  (∀ instant ∈ since, localDate tz instant ≤ localDate tz row.startedAt) ∧
    ∀ instant ∈ stop, localDate tz row.startedAt ≤ localDate tz (instant - 1)

/-- The buckets and the breakdowns add up to the totals, and the buckets are of one day after another. -/
structure Conserves (rows : List UsageSummaryRow) (summary : Summary) : Prop where
  success : (summary.daily.map UsageDailyBucket.success).sum = summary.kpi.success
  failed : (summary.daily.map UsageDailyBucket.failed).sum = summary.kpi.failed
  cancelled : (summary.daily.map UsageDailyBucket.cancelled).sum = summary.kpi.cancelled
  cost : (∀ row ∈ rows, row.mediaType ∈ mediaTypes) →
    (summary.daily.map UsageDailyBucket.cost).sum = summary.primaryCurrency.elim 0 (amountOf summary.kpi.cost)
  breakdowns : ∀ breakdown ∈ [summary.project, summary.provider, summary.model],
    breakdownTotal Stats.success breakdown = summary.kpi.success ∧
    breakdownTotal Stats.failed breakdown = summary.kpi.failed ∧
    breakdownTotal Stats.cancelled breakdown = summary.kpi.cancelled ∧
    ∀ currency, breakdownTotal (fun stats => amountOf stats.cost currency) breakdown =
      amountOf summary.kpi.cost currency
  consecutive : (summary.daily.map UsageDailyBucket.date).IsChain fun day next => next = day + 1
  distinct : (summary.daily.map UsageDailyBucket.date).Nodup

def inWindow (tz : ℤ → ℤ) (range : Option (ℤ × ℤ)) (row : UsageSummaryRow) : Bool :=
  range.any fun days => localDate tz row.startedAt ∈ windowDays days.1 days.2

theorem firstDay_le (days : List ℤ) (day : ℤ) : firstDay days day ≤ day ∧
    ∀ d ∈ days, firstDay days day ≤ d := by
  induction days generalizing day with
  | nil => simp [firstDay]
  | cons next days ih =>
      obtain ⟨hle, hrest⟩ := ih (min day next)
      constructor
      · exact le_trans hle (min_le_left _ _)
      · intro d hd
        rcases List.mem_cons.mp hd with rfl | hd
        · exact le_trans hle (min_le_right _ _)
        · exact hrest d hd

theorem le_lastDay (days : List ℤ) (day : ℤ) : day ≤ lastDay days day ∧ ∀ d ∈ days, d ≤ lastDay days day := by
  induction days generalizing day with
  | nil => simp [lastDay]
  | cons next days ih =>
      obtain ⟨hle, hrest⟩ := ih (max day next)
      constructor
      · exact le_trans (le_max_left _ _) hle
      · intro d hd
        rcases List.mem_cons.mp hd with rfl | hd
        · exact le_trans (le_max_right _ _) hle
        · exact hrest d hd

theorem window_ok {row : UsageSummaryRow} {range : Option (ℤ × ℤ)}
    (h : window (row :: rows) tz since stop = .ok range) :
    let days := rows.map fun row => localDate tz row.startedAt
    let first := (since.map (localDate tz)).getD (firstDay days (localDate tz row.startedAt))
    let last := (stop.map fun instant => localDate tz (instant - 1)).getD
      (lastDay days (localDate tz row.startedAt))
    range = if last < first then none else some (first, last) := by
  intro days first last
  have hrest : (if last < first then pure none
      else checkBucketCount first last >>= fun _ => pure (some (first, last))) = Except.ok range := by
    cases since with
    | none => exact h
    | some instant =>
        cases stop with
        | none => exact h
        | some instant =>
            obtain ⟨_, _, h⟩ := bind_eq_ok.mp h
            exact h
  split_ifs at hrest ⊢ with hempty
  · exact (Except.ok.inj hrest).symm
  · obtain ⟨_, _, hrest⟩ := bind_eq_ok.mp hrest
    exact (Except.ok.inj hrest).symm

theorem getD_le_iff {least day : ℤ} (hleast : least ≤ day) : (since.map (localDate tz)).getD least ≤ day ↔
    ∀ instant ∈ since, localDate tz instant ≤ day := by
  cases since with
  | none => simp [hleast]
  | some instant => simp

theorem le_getD_iff {greatest day : ℤ} (hgreatest : day ≤ greatest) :
    day ≤ (stop.map fun instant => localDate tz (instant - 1)).getD greatest ↔
      ∀ instant ∈ stop, day ≤ localDate tz (instant - 1) := by
  cases stop with
  | none => simp [hgreatest]
  | some instant => simp

theorem window_spec {range : Option (ℤ × ℤ)} (h : window rows tz since stop = .ok range) :
    ∀ row ∈ rows, inWindow tz range row = true ↔ Placed tz since stop row := by
  cases rows with
  | nil => simp
  | cons first rows =>
      intro row hrow
      have hrange := window_ok h
      have hday : localDate tz row.startedAt = localDate tz first.startedAt ∨
          localDate tz row.startedAt ∈ rows.map fun row => localDate tz row.startedAt := by
        rcases List.mem_cons.mp hrow with rfl | hrow
        · exact Or.inl rfl
        · exact Or.inr (List.mem_map.mpr ⟨row, hrow, rfl⟩)
      generalize (rows.map fun row => localDate tz row.startedAt) = days at hrange hday
      have hleast : firstDay days (localDate tz first.startedAt) ≤ localDate tz row.startedAt := by
        rcases hday with hsame | hmem
        · rw [hsame]
          exact (firstDay_le days _).1
        · exact (firstDay_le days _).2 _ hmem
      have hgreatest : localDate tz row.startedAt ≤ lastDay days (localDate tz first.startedAt) := by
        rcases hday with hsame | hmem
        · rw [hsame]
          exact (le_lastDay days _).1
        · exact (le_lastDay days _).2 _ hmem
      unfold Placed
      rw [← getD_le_iff hleast, ← le_getD_iff hgreatest]
      dsimp only at hrange
      split_ifs at hrange with hempty
      · subst hrange
        simp only [inWindow, Option.any_none, Bool.false_eq_true, false_iff, not_and, not_le]
        intro hfirst
        exact lt_of_lt_of_le hempty hfirst
      · subst hrange
        simp only [inWindow, Option.any_some, decide_eq_true_eq]
        exact mem_windowDays

theorem sum_filter_eq {M : Type} [AddCommMonoid M] (p : UsageSummaryRow → Bool) (m : UsageSummaryRow → M) :
    ((rows.filter p).map m).sum = (rows.map fun row => if p row then m row else 0).sum := by
  induction rows with
  | nil => rfl
  | cons row rows ih =>
      by_cases hrow : p row
      · simp [hrow, ih]
      · simp [hrow, ih]

theorem buildSummary_ok (h : buildSummary rows tz since stop = .ok summary) :
    ∃ range, window rows tz since stop = .ok range ∧ summary.kpi = rows.foldl Stats.add {} ∧
      summary.primaryCurrency = primaryCurrency summary.kpi.cost ∧
      summary.daily = range.elim [] (fun days => dailyBuckets rows tz days.1 days.2 summary.primaryCurrency) ∧
      ∀ breakdown ∈ [summary.project, summary.provider, summary.model],
        ∃ keyOf, breakdown = breakdownDimension rows keyOf := by
  obtain ⟨range, hrange, h⟩ := bind_eq_ok.mp h
  refine ⟨range, hrange, ?_⟩
  obtain rfl := Except.ok.inj h
  refine ⟨rfl, rfl, ?_, ?_⟩
  · cases range with
    | none => rfl
    | some days => rfl
  · simp only [List.mem_cons, List.not_mem_nil, or_false]
    rintro breakdown (rfl | rfl | rfl)
    · exact ⟨_, rfl⟩
    · exact ⟨_, rfl⟩
    · exact ⟨_, rfl⟩

section Days

variable (rows : List UsageSummaryRow) (tz : ℤ → ℤ) (range : Option (ℤ × ℤ)) (primary : Option String)

def bucketsOf : List UsageDailyBucket :=
  range.elim [] fun days => dailyBuckets rows tz days.1 days.2 primary

theorem filter_none : rows.filter (inWindow tz none) = [] :=
  List.filter_eq_nil_iff.mpr fun _ _ => Bool.false_ne_true

theorem counts_bucketsOf {μ : DayCounts → ℕ} {m : UsageSummaryRow → ℕ} {shown : UsageDailyBucket → ℕ}
    (hshown : ∀ counts costs day, shown (bucketOf counts costs day) = μ ((get counts day).getD {}))
    (hempty : μ {} = 0) (hadd : ∀ counts row, μ (counts.add row) = μ counts + m row) :
    ((bucketsOf rows tz range primary).map shown).sum = ((rows.filter (inWindow tz range)).map m).sum := by
  cases range with
  | none =>
      rw [filter_none]
      rfl
  | some days => exact counts_dailyBuckets rows tz days.1 days.2 primary hshown hempty hadd

theorem success_bucketsOf : ((bucketsOf rows tz range primary).map UsageDailyBucket.success).sum =
    ((rows.filter (inWindow tz range)).map (ofStatus .success)).sum :=
  counts_bucketsOf rows tz range primary (fun _ _ _ => rfl) rfl add_success

theorem failed_bucketsOf : ((bucketsOf rows tz range primary).map UsageDailyBucket.failed).sum =
    ((rows.filter (inWindow tz range)).map (ofStatus .failed)).sum :=
  counts_bucketsOf rows tz range primary (fun _ _ _ => rfl) rfl add_failed

theorem cancelled_bucketsOf : ((bucketsOf rows tz range primary).map UsageDailyBucket.cancelled).sum =
    ((rows.filter (inWindow tz range)).map (ofStatus .cancelled)).sum :=
  counts_bucketsOf rows tz range primary (fun _ _ _ => rfl) rfl add_cancelled

theorem costs_bucketsOf : ((bucketsOf rows tz range primary).map UsageDailyBucket.cost).sum =
    (((rows.filter (isCharged primary)).filter (inWindow tz range)).map shownCost).sum := by
  cases range with
  | none =>
      rw [filter_none]
      rfl
  | some days => exact costs_dailyBuckets rows tz days.1 days.2 primary

theorem dates_bucketsOf : ((bucketsOf rows tz range primary).map UsageDailyBucket.date).IsChain
      (fun day next => next = day + 1) ∧
      ((bucketsOf rows tz range primary).map UsageDailyBucket.date).Nodup := by
  cases range with
  | none => exact ⟨List.isChain_nil, List.nodup_nil⟩
  | some days =>
      unfold bucketsOf
      rw [Option.elim_some, dates_dailyBuckets]
      exact ⟨isChain_daysFrom _ _, nodup_daysFrom _ _⟩

theorem primary_cost : primary.elim 0 (amountOf (rows.foldl Stats.add {}).cost) =
    ((rows.filter (isCharged primary)).map UsageSummaryRow.costAmount).sum := by
  rw [sum_filter_eq]
  cases primary with
  | none => simp [isCharged]
  | some currency =>
      rw [Option.elim_some, (additive_cost currency).foldl]
      congr 1
      apply List.map_congr_left
      intro row _
      simp [costIn, isCharged]

end Days

/-- Every row counts once, so that a row without a bucket is missed. -/
theorem count_statuses : (rows.map (ofStatus .success)).sum + (rows.map (ofStatus .failed)).sum +
    (rows.map (ofStatus .cancelled)).sum = rows.length := by
  induction rows with
  | nil => rfl
  | cons row rows ih =>
      have hrow : ofStatus .success row + ofStatus .failed row + ofStatus .cancelled row = 1 := by
        have hsettled := row.settled
        unfold ofStatus
        revert hsettled
        cases row.status <;> decide
      simp only [List.map_cons, List.sum_cons, List.length_cons]
      omega

theorem conserves_of_placed (hplaced : ∀ row ∈ rows, Placed tz since stop row)
    (h : buildSummary rows tz since stop = .ok summary) : Conserves rows summary := by
  obtain ⟨range, hrange, hkpi, hprimary, hdaily, hbreakdowns⟩ := buildSummary_ok h
  change summary.daily = bucketsOf rows tz range summary.primaryCurrency at hdaily
  have hall : ∀ kept : List UsageSummaryRow, kept ⊆ rows → kept.filter (inWindow tz range) = kept := by
    intro kept hkept
    apply List.filter_eq_self.mpr
    intro row hrow
    exact (window_spec hrange row (hkept hrow)).mpr (hplaced row (hkept hrow))
  have hrows := hall rows (List.Subset.refl rows)
  constructor
  · rw [hdaily, success_bucketsOf, hrows, hkpi, additive_success.foldl]
  · rw [hdaily, failed_bucketsOf, hrows, hkpi, additive_failed.foldl]
  · rw [hdaily, cancelled_bucketsOf, hrows, hkpi, additive_cancelled.foldl]
  · intro hknown
    rw [hdaily, costs_bucketsOf, hall _ (List.filter_subset_self rows), hkpi, primary_cost]
    congr 1
    apply List.map_congr_left
    intro row hrow
    exact if_pos (hknown row (List.mem_filter.mp hrow).1)
  · intro breakdown hbreakdown
    obtain ⟨keyOf, rfl⟩ := hbreakdowns breakdown hbreakdown
    rw [hkpi]
    exact ⟨breakdownTotal_eq additive_success keyOf, breakdownTotal_eq additive_failed keyOf,
      breakdownTotal_eq additive_cancelled keyOf,
      fun currency => breakdownTotal_eq (additive_cost currency) keyOf⟩
  · rw [hdaily]
    exact (dates_bucketsOf _ _ _ _).1
  · rw [hdaily]
    exact (dates_bucketsOf _ _ _ _).2

theorem placed_of_conserves (hconserves : Conserves rows summary)
    (h : buildSummary rows tz since stop = .ok summary) : ∀ row ∈ rows, Placed tz since stop row := by
  obtain ⟨range, hrange, hkpi, -, hdaily, -⟩ := buildSummary_ok h
  change summary.daily = bucketsOf rows tz range summary.primaryCurrency at hdaily
  have hsuccess := hconserves.success
  have hfailed := hconserves.failed
  have hcancelled := hconserves.cancelled
  rw [hdaily, success_bucketsOf, hkpi, additive_success.foldl] at hsuccess
  rw [hdaily, failed_bucketsOf, hkpi, additive_failed.foldl] at hfailed
  rw [hdaily, cancelled_bucketsOf, hkpi, additive_cancelled.foldl] at hcancelled
  have hlength : (rows.filter (inWindow tz range)).length = rows.length := by
    rw [← count_statuses, ← count_statuses, hsuccess, hfailed, hcancelled]
  intro row hrow
  exact (window_spec hrange row hrow).mp (List.length_filter_eq_length_iff.mp hlength row hrow)

theorem placed_of_queried (hmono : Monotone (localDate tz)) {row : UsageSummaryRow}
    (hrow : Queried since stop row) : Placed tz since stop row := by
  constructor
  · intro instant hsince
    exact hmono (hrow.1 instant hsince)
  · intro instant hstop
    exact hmono (Int.le_sub_one_of_lt (hrow.2 instant hstop))

theorem conserves_iff_placed (hqueried : ∀ row ∈ rows, Queried since stop row)
    (h : buildSummary rows tz since stop = .ok summary) :
    (Conserves rows summary ↔ ∀ row ∈ rows, Placed tz since stop row) ∧
      (Monotone (localDate tz) → Conserves rows summary) := by
  refine ⟨⟨fun hconserves => placed_of_conserves hconserves h,
    fun hplaced => conserves_of_placed hplaced h⟩, ?_⟩
  intro hmono
  exact conserves_of_placed (fun row hrow => placed_of_queried hmono (hqueried row hrow)) h

def midnight : ℤ := 1289088000000000

def stJohns (instant : ℤ) : ℤ :=
  if instant < midnight + 9060000000 then instant - 9000000000 else instant - 12600000000

def call (startedAt : ℤ) : UsageSummaryRow where
  projectName := "p"
  mediaType := "image"
  provider := "gemini"
  model := "flash"
  status := .success
  startedAt
  costAmount := 1
  currency := "USD"
  settled := by decide

theorem conserves_call : ∃ summary, buildSummary [call (midnight + 9045000000)] stJohns
    (some (midnight + 9030000000)) (some (midnight + 86400000000)) = .ok summary ∧
    Conserves [call (midnight + 9045000000)] summary := by
  refine ⟨_, rfl, ?_⟩
  refine (@conserves_iff_placed _ stJohns (some (midnight + 9030000000)) (some (midnight + 86400000000)) _
    ?_ rfl).1.mpr ?_
  · unfold Queried
    decide
  · unfold Placed
    decide

theorem not_conserves_setBack : ¬ ∀ (rows : List UsageSummaryRow) (tz : ℤ → ℤ) (since stop : Option ℤ)
    (summary : Summary), (∀ row ∈ rows, Queried since stop row) →
    buildSummary rows tz since stop = .ok summary → Conserves rows summary := by
  intro h
  have hconserves := h [call (midnight + 9900000000)] stJohns (some (midnight + 9030000000))
    (some (midnight + 86400000000)) _ (by unfold Queried; decide) rfl
  have hplaced := @placed_of_conserves _ stJohns (some (midnight + 9030000000))
    (some (midnight + 86400000000)) _ hconserves rfl
  revert hplaced
  unfold Placed
  decide

end ShortReel.UsageConservation
