import ShortReel.GroupedTotals
import Mathlib.Algebra.Order.Ring.Rat
import Mathlib.Data.List.Sort

/-!
# Usage summaries

`build_summary` of `usage_summary.py`: the calls of a period as totals, as a bucket for each local day, and
broken down by project, provider and model. Instants are microseconds, costs are exact and not rounded; the
items that need attention are left out, and so are the ends of the calendar.
-/

namespace ShortReel.UsageSummaries

open GroupedTotals InsertionDict

def maxBreakdownRows : ℕ := 50

def maxDailyBuckets : ℤ := 3660

def mediaTypes : List String := ["image", "video", "text", "audio"]

inductive CallStatus where
  | pending
  | success
  | failed
  | cancelled
  deriving DecidableEq, Repr

structure UsageSummaryRow where
  projectName : String
  mediaType : String
  provider : String
  model : String
  status : CallStatus
  startedAt : ℤ
  costAmount : ℚ
  currency : String
  settled : status ≠ .pending

def microsecondsOfDay : ℤ := 86400000000

/-- `_local_date` as a day number, in a time zone that says what the clocks show at an instant. -/
def localDate (tz : ℤ → ℤ) (instant : ℤ) : ℤ :=
  tz instant / microsecondsOfDay

/-- `UsageWindowTooWideError`. -/
structure WindowTooWide where
  first : ℤ
  last : ℤ
  deriving DecidableEq, Repr

def checkBucketCount (first last : ℤ) : Except WindowTooWide Unit :=
  if maxDailyBuckets < last - first + 1 then .error { first, last } else .ok ()

def firstDay (days : List ℤ) (day : ℤ) : ℤ :=
  days.foldl min day

def lastDay (days : List ℤ) (day : ℤ) : ℤ :=
  days.foldl max day

def window (rows : List UsageSummaryRow) (tz : ℤ → ℤ) (since stop : Option ℤ) :
    Except WindowTooWide (Option (ℤ × ℤ)) := do
  let sinceDay := since.map (localDate tz)
  let stopDay := stop.map fun instant => localDate tz (instant - 1)
  match sinceDay, stopDay with
  | some first, some last => checkBucketCount first last
  | _, _ => pure ()
  match rows.map fun row => localDate tz row.startedAt with
  | [] => pure none
  | day :: days =>
      let first := sinceDay.getD (firstDay days day)
      let last := stopDay.getD (lastDay days day)
      if last < first then pure none
      else
        checkBucketCount first last
        pure (some (first, last))

/-- `_StatsAccumulator`. -/
structure Stats where
  success : ℕ := 0
  failed : ℕ := 0
  cancelled : ℕ := 0
  cost : Dict String ℚ := []
  nodup_cost : (keys cost).Nodup := by exact List.nodup_nil

def amountOf (cost : Dict String ℚ) (currency : String) : ℚ :=
  (get cost currency).getD 0

/-- `self.cost[currency] = self.cost.get(currency, 0.0) + amount`. -/
def charge (cost : Dict String ℚ) (currency : String) (amount : ℚ) : Dict String ℚ :=
  put cost currency (amountOf cost currency + amount)

def Stats.add (stats : Stats) (row : UsageSummaryRow) : Stats where
  success := stats.success + if row.status = .success then 1 else 0
  failed := stats.failed + if row.status = .failed then 1 else 0
  cancelled := stats.cancelled + if row.status = .cancelled then 1 else 0
  cost := if 0 < row.costAmount then charge stats.cost row.currency row.costAmount else stats.cost
  nodup_cost := by
    split_ifs
    · exact nodup_put stats.nodup_cost
    · exact stats.nodup_cost

def Stats.calls (stats : Stats) : ℕ :=
  stats.success + stats.failed + stats.cancelled

def Stats.merge (merged stats : Stats) : Stats where
  success := merged.success + stats.success
  failed := merged.failed + stats.failed
  cancelled := merged.cancelled + stats.cancelled
  cost := stats.cost.foldl (fun cost item => charge cost item.1 item.2) merged.cost
  nodup_cost := by
    have hnodup := merged.nodup_cost
    generalize merged.cost = cost at hnodup
    induction stats.cost generalizing cost with
    | nil => exact hnodup
    | cons item items ih => exact ih _ (nodup_put hnodup)

def primaryCurrency (cost : Dict String ℚ) : Option String :=
  match cost with
  | [] => none
  | item :: items =>
      let top := (items.map Prod.snd).foldl max item.2
      let tied := (cost.filter fun item => item.2 = top).map Prod.fst
      if "USD" ∈ tied then some "USD" else (tied.insertionSort fun a b => a ≤ b).head?

structure DayCounts where
  success : ℕ := 0
  failed : ℕ := 0
  cancelled : ℕ := 0
  deriving DecidableEq, Repr

def DayCounts.add (counts : DayCounts) (row : UsageSummaryRow) : DayCounts :=
  match row.status with
  | .success => { counts with success := counts.success + 1 }
  | .failed => { counts with failed := counts.failed + 1 }
  | .cancelled => { counts with cancelled := counts.cancelled + 1 }
  | .pending => counts

structure DayCosts where
  amounts : Dict String ℚ := mediaTypes.map (·, 0)
  keys_amounts : keys amounts = mediaTypes := by rfl

/-- `costs[day][row.media_type] += row.cost_amount`, where the row has a media type of the table. -/
def DayCosts.add (costs : DayCosts) (row : UsageSummaryRow) : DayCosts where
  amounts :=
    if row.mediaType ∈ keys costs.amounts then charge costs.amounts row.mediaType row.costAmount
    else costs.amounts
  keys_amounts := by
    split_ifs with hknown
    · rw [charge, keys_put, if_pos hknown]
      exact costs.keys_amounts
    · exact costs.keys_amounts

structure UsageDailyBucket where
  date : ℤ
  success : ℕ
  failed : ℕ
  cancelled : ℕ
  costByMediaType : List (String × ℚ)

def isCharged (primary : Option String) (row : UsageSummaryRow) : Bool :=
  0 < row.costAmount ∧ some row.currency = primary

def bucketOf (counts : Dict ℤ DayCounts) (costs : Dict ℤ DayCosts) (day : ℤ) : UsageDailyBucket :=
  let dayCounts := (get counts day).getD {}
  let dayCosts := (get costs day).getD {}
  { date := day
    success := dayCounts.success
    failed := dayCounts.failed
    cancelled := dayCounts.cancelled
    costByMediaType := mediaTypes.map fun mediaType => (mediaType, amountOf dayCosts.amounts mediaType) }

def bucketsFrom (bucket : ℤ → UsageDailyBucket) (last : ℤ) : ℕ → ℤ → List UsageDailyBucket
  | 0, _ => []
  | rounds + 1, day =>
      if day ≤ last then bucket day :: bucketsFrom bucket last rounds (day + 1) else []

def dailyBuckets (rows : List UsageSummaryRow) (tz : ℤ → ℤ) (first last : ℤ) (primary : Option String) :
    List UsageDailyBucket :=
  let dayOf := fun row : UsageSummaryRow => localDate tz row.startedAt
  let counts := grouped dayOf {} DayCounts.add rows
  let costs := grouped dayOf {} DayCosts.add (rows.filter (isCharged primary))
  bucketsFrom (bucketOf counts costs) last (last + 1 - first).toNat first

structure Breakdown where
  rows : List (List String × Stats)
  other : Option (ℕ × Stats)

def keyLe : List String → List String → Bool
  | [], _ => true
  | _ :: _, [] => false
  | a :: as, b :: bs => a < b ∨ (a = b ∧ keyLe as bs)

def groupLe (a b : List String × Stats) : Bool :=
  b.2.calls < a.2.calls ∨ (a.2.calls = b.2.calls ∧ keyLe a.1 b.1)

def breakdownDimension (rows : List UsageSummaryRow) (keyOf : UsageSummaryRow → List String) : Breakdown :=
  let ordered := (grouped keyOf {} Stats.add rows).mergeSort groupLe
  let overflow := ordered.drop maxBreakdownRows
  { rows := ordered.take maxBreakdownRows
    other :=
      if overflow = [] then none
      else some (overflow.length, overflow.foldl (fun merged group => merged.merge group.2) {}) }

structure Summary where
  range : Option (ℤ × ℤ)
  primaryCurrency : Option String
  kpi : Stats
  daily : List UsageDailyBucket
  project : Breakdown
  provider : Breakdown
  model : Breakdown

def buildSummary (rows : List UsageSummaryRow) (tz : ℤ → ℤ) (since stop : Option ℤ) :
    Except WindowTooWide Summary := do
  let kpi := rows.foldl Stats.add {}
  let primary := primaryCurrency kpi.cost
  let range ← window rows tz since stop
  return {
    range
    primaryCurrency := primary
    kpi
    daily := match range with
      | some (first, last) => dailyBuckets rows tz first last primary
      | none => []
    project := breakdownDimension rows fun row => [row.projectName]
    provider := breakdownDimension rows fun row => [row.provider]
    model := breakdownDimension rows fun row => [row.provider, row.model] }

end ShortReel.UsageSummaries
