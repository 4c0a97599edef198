import Mathlib.Data.Finset.Card

/-!
# Guarded updates of a table

A table is the list of its rows. A guarded update rewrites the rows that meet a condition and
leaves the others; `Forall₂` relates the rows before and after it. Rows are found by a key that no
two of them share.
-/

namespace ShortReel.TableUpdates

variable {α κ : Type*}

/-- `UPDATE … SET values WHERE guard`. -/
def updateWhere (guard : α → Prop) [DecidablePred guard] (values : α → α) (rows : List α) : List α :=
  rows.map fun row => if guard row then values row else row

def rowcount (guard : α → Prop) [DecidablePred guard] (rows : List α) : ℕ :=
  rows.countP fun row => guard row

section Updates

variable {guard : α → Prop} [DecidablePred guard] {values : α → α} {rows : List α}

theorem rowcount_eq_zero : rowcount guard rows = 0 ↔ ∀ row ∈ rows, ¬ guard row := by
  simp [rowcount, List.countP_eq_zero]

theorem exists_of_rowcount_ne_zero (h : rowcount guard rows ≠ 0) : ∃ row ∈ rows, guard row := by
  by_contra hnone
  exact h (rowcount_eq_zero.mpr fun row hrow hguard => hnone ⟨row, hrow, hguard⟩)

theorem mem_updateWhere {row : α} :
    row ∈ updateWhere guard values rows ↔
      (row ∈ rows ∧ ¬ guard row) ∨ ∃ old ∈ rows, guard old ∧ values old = row := by
  constructor
  · intro h
    obtain ⟨old, hold, rfl⟩ := List.mem_map.mp h
    by_cases hguard : guard old
    · exact Or.inr ⟨old, hold, hguard, (if_pos hguard).symm⟩
    · rw [if_neg hguard]
      exact Or.inl ⟨hold, hguard⟩
  · rintro (⟨hrow, hguard⟩ | ⟨old, hold, hguard, rfl⟩)
    · exact List.mem_map.mpr ⟨row, hrow, if_neg hguard⟩
    · exact List.mem_map.mpr ⟨old, hold, if_pos hguard⟩

theorem updateWhere_of_rowcount_one (values : α → α) (h : rowcount guard rows = 1) :
    ∃ before row after, rows = before ++ row :: after ∧ guard row ∧
      updateWhere guard values rows = before ++ values row :: after := by
  induction rows with
  | nil => cases h
  | cons row rows ih =>
      by_cases hguard : guard row
      · have hnone : rowcount guard rows = 0 := by
          rw [rowcount, List.countP_cons_of_pos (by simpa using hguard)] at h
          rw [rowcount]
          omega
        refine ⟨[], row, rows, rfl, hguard, ?_⟩
        have hrest : updateWhere guard values rows = rows := by
          refine (List.map_congr_left fun other hother => ?_).trans (List.map_id _)
          exact if_neg (rowcount_eq_zero.mp hnone other hother)
        rw [List.nil_append]
        conv_rhs => rw [← hrest]
        unfold updateWhere
        rw [List.map_cons, if_pos hguard]
      · rw [rowcount, List.countP_cons_of_neg (by simpa using hguard)] at h
        obtain ⟨before, found, after, rfl, hfound, hupdate⟩ := ih h
        refine ⟨row :: before, found, after, rfl, hfound, ?_⟩
        unfold updateWhere at hupdate ⊢
        rw [List.map_cons, if_neg hguard, hupdate, List.cons_append]

theorem eq_of_rowcount_one (h : rowcount guard rows = 1) {first second : α} (hfirst : first ∈ rows)
    (hsecond : second ∈ rows) (hguard₁ : guard first) (hguard₂ : guard second) : first = second := by
  rw [rowcount, List.countP_eq_length_filter, List.length_eq_one_iff] at h
  obtain ⟨row, hrow⟩ := h
  have honly : ∀ other ∈ rows, guard other → other = row := fun other hother hguard => by
    have hin : other ∈ rows.filter fun row => guard row := by
      rw [List.mem_filter]
      exact ⟨hother, decide_eq_true hguard⟩
    rw [hrow] at hin
    exact List.mem_singleton.mp hin
  rw [honly first hfirst hguard₁, honly second hsecond hguard₂]

theorem forall₂_updateWhere {r : α → α → Prop} (hkept : ∀ row ∈ rows, ¬ guard row → r row row)
    (hset : ∀ row ∈ rows, guard row → r row (values row)) :
    List.Forall₂ r rows (updateWhere guard values rows) := by
  rw [updateWhere, List.forall₂_map_right_iff, List.forall₂_same]
  intro row hrow
  by_cases hguard : guard row
  · rw [if_pos hguard]
    exact hset row hrow hguard
  · rw [if_neg hguard]
    exact hkept row hrow hguard

end Updates

section Related

variable {r : α → α → Prop} {before after : List α}

theorem exists_before (h : List.Forall₂ r before after) {row : α} (hrow : row ∈ after) :
    ∃ old ∈ before, r old row := by
  induction h with
  | nil => cases hrow
  | cons hr h ih =>
      rcases List.mem_cons.mp hrow with rfl | hrow
      · exact ⟨_, List.mem_cons_self, hr⟩
      · obtain ⟨old, hold, hrel⟩ := ih hrow
        exact ⟨old, List.mem_cons_of_mem _ hold, hrel⟩

theorem exists_after (h : List.Forall₂ r before after) {row : α} (hrow : row ∈ before) :
    ∃ new ∈ after, r row new := by
  induction h with
  | nil => cases hrow
  | cons hr h ih =>
      rcases List.mem_cons.mp hrow with rfl | hrow
      · exact ⟨_, List.mem_cons_self, hr⟩
      · obtain ⟨new, hnew, hrel⟩ := ih hrow
        exact ⟨new, List.mem_cons_of_mem _ hnew, hrel⟩

theorem forall₂_trans {s t : α → α → Prop} {last : List α}
    (htrans : ∀ a b c, r a b → s b c → t a c) (h₁ : List.Forall₂ r before after)
    (h₂ : List.Forall₂ s after last) : List.Forall₂ t before last := by
  induction h₁ generalizing last with
  | nil =>
      cases h₂
      exact .nil
  | cons hr h ih =>
      cases h₂ with
      | cons hs h₂ => exact .cons (htrans _ _ _ hr hs) (ih h₂)

theorem forall₂_imp_of_mem {s : α → α → Prop} (h : List.Forall₂ r before after)
    (himp : ∀ old ∈ before, ∀ new, r old new → s old new) : List.Forall₂ s before after := by
  induction h with
  | nil => exact .nil
  | cons hr h ih =>
      exact .cons (himp _ List.mem_cons_self _ hr)
        (ih fun old hold => himp old (List.mem_cons_of_mem _ hold))

theorem forall₂_map_eq {key : α → κ} (hkey : ∀ a b, r a b → key a = key b)
    (h : List.Forall₂ r before after) : before.map key = after.map key := by
  induction h with
  | nil => rfl
  | cons hr h ih => rw [List.map_cons, List.map_cons, hkey _ _ hr, ih]

end Related

theorem find?_updateWhere_key [DecidableEq κ] (key : α → κ) {values : α → α}
    (hvalues : ∀ row, key (values row) = key row) (k : κ) (rows : List α) :
    (updateWhere (key · = k) values rows).find? (key · = k) =
      (rows.find? (key · = k)).map values := by
  induction rows with
  | nil => rfl
  | cons row rows ih =>
      unfold updateWhere at ih ⊢
      rw [List.map_cons]
      by_cases hkey : key row = k
      · rw [if_pos hkey, List.find?_cons_of_pos (by simpa [hvalues] using hkey),
          List.find?_cons_of_pos (by simpa using hkey), Option.map_some]
      · rw [if_neg hkey, List.find?_cons_of_neg (by simpa using hkey),
          List.find?_cons_of_neg (by simpa using hkey), ih]

end ShortReel.TableUpdates
