import ShortReel.UsageSummaries
import Mathlib.Algebra.Order.Group.Int.Sum

/-!
# Usage totals

What the buckets and the breakdowns of a usage summary come to. A row is in the totals wherever its local day
is, and in a bucket only when that day is in the window of the period.
-/

namespace ShortReel.UsageTotals

open GroupedTotals InsertionDict UsageSummaries

def ofStatus (status : CallStatus) (row : UsageSummaryRow) : ℕ :=
  if row.status = status then 1 else 0

def costIn (currency : String) (row : UsageSummaryRow) : ℚ :=
  if 0 < row.costAmount ∧ row.currency = currency then row.costAmount else 0

theorem amountOf_charge (cost : Dict String ℚ) (currency other : String) (amount : ℚ) :
    amountOf (charge cost currency amount) other =
      amountOf cost other + if currency = other then amount else 0 := by
  unfold amountOf charge
  rw [get_put]
  by_cases hsame : other = currency
  · subst hsame
    simp [amountOf]
  · simp [hsame, Ne.symm hsame]

theorem amountOf_add (stats : Stats) (row : UsageSummaryRow) (currency : String) :
    amountOf (stats.add row).cost currency = amountOf stats.cost currency + costIn currency row := by
  unfold Stats.add costIn
  by_cases hcost : 0 < row.costAmount
  · simp only [hcost, if_true, true_and]
    exact amountOf_charge _ _ _ _
  · simp [hcost]

theorem amountOf_eq_sum {cost : Dict String ℚ} (hkeys : (keys cost).Nodup) (currency : String) :
    amountOf cost currency = (cost.map fun item => if item.1 = currency then item.2 else 0).sum := by
  induction cost with
  | nil => rfl
  | cons item cost ih =>
      obtain ⟨hfresh, hkeys⟩ := List.nodup_cons.mp hkeys
      rw [List.map_cons, List.sum_cons, ← ih hkeys]
      unfold amountOf InsertionDict.get
      rw [List.find?_cons]
      by_cases hsame : item.1 = currency
      · have hnone : InsertionDict.get cost currency = none := get_eq_none_iff.mpr (hsame ▸ hfresh)
        unfold InsertionDict.get at hnone
        simp [hsame, hnone]
      · simp [hsame]

theorem amountOf_merge (merged stats : Stats) (currency : String) :
    amountOf (merged.merge stats).cost currency =
      amountOf merged.cost currency + amountOf stats.cost currency := by
  rw [amountOf_eq_sum stats.nodup_cost]
  exact @measure_foldl _ _ _ _ (fun cost item => charge cost item.1 item.2) stats.cost (amountOf · currency)
    (fun item => if item.1 = currency then item.2 else 0)
    (fun cost item => amountOf_charge cost item.1 currency item.2) merged.cost

structure Additive {M : Type} [AddCommMonoid M] (μ : Stats → M) (m : UsageSummaryRow → M) : Prop where
  empty : μ {} = 0
  add : ∀ stats row, μ (stats.add row) = μ stats + m row
  merge : ∀ merged stats, μ (merged.merge stats) = μ merged + μ stats

theorem additive_success : Additive Stats.success (ofStatus .success) :=
  ⟨rfl, fun _ _ => rfl, fun _ _ => rfl⟩

theorem additive_failed : Additive Stats.failed (ofStatus .failed) :=
  ⟨rfl, fun _ _ => rfl, fun _ _ => rfl⟩

theorem additive_cancelled : Additive Stats.cancelled (ofStatus .cancelled) :=
  ⟨rfl, fun _ _ => rfl, fun _ _ => rfl⟩

theorem additive_cost (currency : String) :
    Additive (fun stats => amountOf stats.cost currency) (costIn currency) :=
  ⟨rfl, fun stats row => amountOf_add stats row currency,
    fun merged stats => amountOf_merge merged stats currency⟩

def breakdownTotal {M : Type} [AddCommMonoid M] (μ : Stats → M) (breakdown : Breakdown) : M :=
  (breakdown.rows.map fun group => μ group.2).sum + breakdown.other.elim 0 fun other => μ other.2

section Breakdowns

variable {M : Type} [AddCommMonoid M] {μ : Stats → M} {m : UsageSummaryRow → M} {rows : List UsageSummaryRow}

theorem Additive.foldl (h : Additive μ m) : μ (rows.foldl Stats.add {}) = (rows.map m).sum := by
  rw [measure_foldl h.add, h.empty, zero_add]

theorem breakdownTotal_eq (h : Additive μ m) (keyOf : UsageSummaryRow → List String) :
    breakdownTotal μ (breakdownDimension rows keyOf) = μ (rows.foldl Stats.add {}) := by
  unfold breakdownTotal breakdownDimension
  dsimp only
  generalize hordered : (grouped keyOf {} Stats.add rows).mergeSort groupLe = ordered
  have hother : (if ordered.drop maxBreakdownRows = [] then (none : Option (ℕ × Stats))
      else some ((ordered.drop maxBreakdownRows).length,
        (ordered.drop maxBreakdownRows).foldl (fun merged group => merged.merge group.2) {})).elim 0
          (fun other => μ other.2) = ((ordered.drop maxBreakdownRows).map fun group => μ group.2).sum := by
    split_ifs with hoverflow
    · rw [hoverflow]
      rfl
    · refine (measure_foldl (fun merged group => h.merge merged group.2) {}).trans ?_
      rw [h.empty, zero_add]
  rw [hother, ← List.sum_append, ← List.map_append, List.take_append_drop, h.foldl,
    ← @sum_grouped _ _ _ _ _ _ keyOf {} Stats.add rows μ m h.empty h.add, ← hordered]
  exact ((List.mergeSort_perm _ _).map _).sum_eq

end Breakdowns

def daysFrom (first : ℤ) (count : ℕ) : List ℤ :=
  (List.range count).map fun i : ℕ => first + (i : ℤ)

theorem daysFrom_succ (first : ℤ) (count : ℕ) :
    daysFrom first (count + 1) = first :: daysFrom (first + 1) count := by
  unfold daysFrom
  rw [List.range_succ_eq_map, List.map_cons, List.map_map]
  congr 1
  · simp
  · apply List.map_congr_left
    intro i _
    simp only [Function.comp_apply]
    omega

theorem mem_daysFrom {first day : ℤ} {count : ℕ} :
    day ∈ daysFrom first count ↔ first ≤ day ∧ day < first + count := by
  simp only [daysFrom, List.mem_map, List.mem_range]
  constructor
  · rintro ⟨i, hi, rfl⟩
    omega
  · rintro ⟨hfirst, hlast⟩
    exact ⟨(day - first).toNat, by omega, by omega⟩

theorem isChain_daysFrom (first : ℤ) (count : ℕ) :
    (daysFrom first count).IsChain fun day next => next = day + 1 := by
  induction count generalizing first with
  | zero => exact List.isChain_nil
  | succ count ih =>
      rw [daysFrom_succ]
      cases count with
      | zero => exact List.isChain_singleton first
      | succ count =>
          have hrest := ih (first + 1)
          rw [daysFrom_succ] at hrest ⊢
          exact List.isChain_cons_cons.mpr ⟨rfl, hrest⟩

theorem nodup_daysFrom (first : ℤ) (count : ℕ) : (daysFrom first count).Nodup := by
  apply List.Nodup.map
  · intro i j hsame
    simpa using hsame
  · exact List.nodup_range

theorem bucketsFrom_eq (bucket : ℤ → UsageDailyBucket) (last first : ℤ) :
    bucketsFrom bucket last (last + 1 - first).toNat first =
      (daysFrom first (last + 1 - first).toNat).map bucket := by
  generalize hcount : (last + 1 - first).toNat = count
  induction count generalizing first with
  | zero => rfl
  | succ count ih =>
      have hle : first ≤ last := by omega
      have hrest : (last + 1 - (first + 1)).toNat = count := by omega
      rw [bucketsFrom, if_pos hle, ih (first + 1) hrest, daysFrom_succ, List.map_cons]

def windowDays (first last : ℤ) : List ℤ :=
  daysFrom first (last + 1 - first).toNat

theorem mem_windowDays {first last day : ℤ} : day ∈ windowDays first last ↔ first ≤ day ∧ day ≤ last := by
  rw [windowDays, mem_daysFrom]
  omega

section Buckets

variable (rows : List UsageSummaryRow) (tz : ℤ → ℤ) (first last : ℤ) (primary : Option String)

def windowRows : List UsageSummaryRow :=
  rows.filter fun row => localDate tz row.startedAt ∈ windowDays first last

theorem dates_dailyBuckets :
    (dailyBuckets rows tz first last primary).map UsageDailyBucket.date = windowDays first last := by
  unfold dailyBuckets
  dsimp only
  rw [bucketsFrom_eq, List.map_map]
  exact List.map_id _

theorem counts_dailyBuckets {μ : DayCounts → ℕ} {m : UsageSummaryRow → ℕ} {shown : UsageDailyBucket → ℕ}
    (hshown : ∀ counts costs day, shown (bucketOf counts costs day) = μ ((get counts day).getD {}))
    (hempty : μ {} = 0) (hadd : ∀ counts row, μ (counts.add row) = μ counts + m row) :
    ((dailyBuckets rows tz first last primary).map shown).sum =
      ((windowRows rows tz first last).map m).sum := by
  unfold dailyBuckets
  dsimp only
  rw [bucketsFrom_eq, List.map_map]
  simp only [Function.comp_def, hshown, measure_get hempty hadd]
  exact sum_filter_keys _ (nodup_daysFrom _ _)

theorem add_success (counts : DayCounts) (row : UsageSummaryRow) :
    (counts.add row).success = counts.success + ofStatus .success row := by
  unfold DayCounts.add ofStatus
  cases row.status <;> rfl

theorem add_failed (counts : DayCounts) (row : UsageSummaryRow) :
    (counts.add row).failed = counts.failed + ofStatus .failed row := by
  unfold DayCounts.add ofStatus
  cases row.status <;> rfl

theorem add_cancelled (counts : DayCounts) (row : UsageSummaryRow) :
    (counts.add row).cancelled = counts.cancelled + ofStatus .cancelled row := by
  unfold DayCounts.add ofStatus
  cases row.status <;> rfl

def UsageDailyBucket.cost (bucket : UsageDailyBucket) : ℚ :=
  (bucket.costByMediaType.map Prod.snd).sum

def DayCosts.total (costs : DayCosts) : ℚ :=
  (mediaTypes.map (amountOf costs.amounts)).sum

def shownCost (row : UsageSummaryRow) : ℚ :=
  if row.mediaType ∈ mediaTypes then row.costAmount else 0

theorem total_empty : DayCosts.total {} = 0 := by
  decide +kernel

theorem total_add (costs : DayCosts) (row : UsageSummaryRow) :
    DayCosts.total (costs.add row) = DayCosts.total costs + shownCost row := by
  unfold DayCosts.total DayCosts.add shownCost
  dsimp only
  rw [costs.keys_amounts]
  split_ifs with hknown
  · rw [List.map_congr_left fun name _ => amountOf_charge costs.amounts row.mediaType name row.costAmount,
      List.sum_map_add, sum_map_ite_eq mediaTypes (by decide), if_pos hknown]
  · rw [add_zero]

theorem costs_dailyBuckets :
    ((dailyBuckets rows tz first last primary).map UsageDailyBucket.cost).sum =
      ((windowRows (rows.filter (isCharged primary)) tz first last).map shownCost).sum := by
  have hshown : ∀ counts costs day, UsageDailyBucket.cost (bucketOf counts costs day) =
      DayCosts.total ((get costs day).getD {}) := by
    intro counts costs day
    unfold UsageDailyBucket.cost bucketOf DayCosts.total
    dsimp only
    rw [List.map_map]
    rfl
  unfold dailyBuckets
  dsimp only
  rw [bucketsFrom_eq, List.map_map]
  simp only [Function.comp_def, hshown, measure_get total_empty total_add]
  exact sum_filter_keys _ (nodup_daysFrom _ _)

end Buckets

end ShortReel.UsageTotals
