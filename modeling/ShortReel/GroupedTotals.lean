import Mathlib.Algebra.BigOperators.Group.List.Basic
import ShortReel.InsertionDict

/-!
# Totals of groups

Rows are grouped in a dictionary by a key, where each adds itself to the value of its group. A measure that
each row raises by an amount of its own comes to the same total over the groups as over the rows.
-/

namespace ShortReel.GroupedTotals

open InsertionDict

variable {κ ρ σ M : Type} [DecidableEq κ] [AddCommMonoid M]

def grouped (key : ρ → κ) (empty : σ) (add : σ → ρ → σ) (rows : List ρ) : Dict κ σ :=
  rows.foldl (fun groups row => put groups (key row) (add ((get groups (key row)).getD empty) row)) []

variable {key : ρ → κ} {empty : σ} {add : σ → ρ → σ} {rows : List ρ} {μ : σ → M} {m : ρ → M}

omit [AddCommMonoid M] in
theorem grouped_concat (rows : List ρ) (row : ρ) : grouped key empty add (rows ++ [row]) =
    put (grouped key empty add rows) (key row)
      (add ((get (grouped key empty add rows) (key row)).getD empty) row) := by
  unfold grouped
  rw [List.foldl_append]
  rfl

theorem nodup_grouped : (keys (grouped key empty add rows)).Nodup := by
  induction rows using List.reverseRecOn with
  | nil => exact List.nodup_nil
  | append_singleton rows row ih =>
      rw [grouped_concat]
      exact nodup_put ih

theorem mem_keys_grouped {row : ρ} (h : row ∈ rows) : key row ∈ keys (grouped key empty add rows) := by
  induction rows using List.reverseRecOn with
  | nil => cases h
  | append_singleton rows last ih =>
      rw [grouped_concat, mem_keys_put]
      rcases List.mem_append.mp h with hmem | hlast
      · exact Or.inl (ih hmem)
      · exact Or.inr (congrArg key (List.mem_singleton.mp hlast))

theorem measure_get (hempty : μ empty = 0) (hadd : ∀ value row, μ (add value row) = μ value + m row) (k : κ) :
    μ ((get (grouped key empty add rows) k).getD empty) = ((rows.filter (key · = k)).map m).sum := by
  induction rows using List.reverseRecOn with
  | nil => exact hempty
  | append_singleton rows row ih =>
      rw [grouped_concat, get_put, List.filter_append, List.map_append, List.sum_append, ← ih]
      by_cases hkey : k = key row
      · subst hkey
        simp [hadd]
      · have hne : key row ≠ k := fun hsame => hkey hsame.symm
        simp [hkey, hne]

omit [DecidableEq κ] in
theorem measure_foldl (hadd : ∀ value row, μ (add value row) = μ value + m row) (value : σ) :
    μ (rows.foldl add value) = μ value + (rows.map m).sum := by
  induction rows generalizing value with
  | nil => simp
  | cons row rows ih => rw [List.foldl_cons, ih, hadd, List.map_cons, List.sum_cons, add_assoc]

theorem sum_map_ite_eq (names : List κ) (hnames : names.Nodup) (name : κ) (amount : M) :
    (names.map fun k => if name = k then amount else 0).sum = if name ∈ names then amount else 0 := by
  induction names with
  | nil => rfl
  | cons first names ih =>
      obtain ⟨hfresh, hnames⟩ := List.nodup_cons.mp hnames
      rw [List.map_cons, List.sum_cons, ih hnames]
      by_cases hfirst : name = first
      · subst hfirst
        simp [hfresh]
      · simp [hfirst]

theorem sum_filter_keys (names : List κ) (hnames : names.Nodup) :
    (names.map fun k => ((rows.filter (key · = k)).map m).sum).sum =
      ((rows.filter (key · ∈ names)).map m).sum := by
  induction rows with
  | nil => simp
  | cons row rows ih =>
      have hsplit : ∀ k, (((row :: rows).filter (key · = k)).map m).sum =
          (if key row = k then m row else 0) + ((rows.filter (key · = k)).map m).sum := by
        intro k
        by_cases hkey : key row = k
        · simp [hkey]
        · simp [hkey]
      simp only [hsplit]
      rw [List.sum_map_add, ih, sum_map_ite_eq names hnames]
      by_cases hmem : key row ∈ names
      · simp [hmem]
      · simp [hmem]

theorem sum_grouped (hempty : μ empty = 0) (hadd : ∀ value row, μ (add value row) = μ value + m row) :
    ((grouped key empty add rows).map fun group => μ group.2).sum = (rows.map m).sum := by
  have hgroups : (grouped key empty add rows).map (fun group => μ group.2) =
      (keys (grouped key empty add rows)).map
        fun k => μ ((get (grouped key empty add rows) k).getD empty) := by
    unfold keys
    rw [List.map_map]
    refine List.map_congr_left fun group hgroup => ?_
    rw [Function.comp_apply, get_eq_some_of_mem nodup_grouped hgroup]
    rfl
  rw [hgroups]
  simp only [measure_get hempty hadd]
  rw [sum_filter_keys _ nodup_grouped, List.filter_eq_self.mpr]
  exact fun row hrow => decide_eq_true (mem_keys_grouped hrow)

end ShortReel.GroupedTotals
