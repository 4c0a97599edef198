import Mathlib.Algebra.BigOperators.Group.List.Basic
import Mathlib.Algebra.Ring.Nat

/-!
# Lists sorted into classes

What a classification makes of a list: its parts keep the order of the list, share no member, and
together are the list again, so that their sizes add up to its length.
-/

namespace ShortReel.Classifications

variable {α β κ : Type*} [DecidableEq κ]

def part (classify : α → κ) (items : List α) (class' : κ) : List α :=
  items.filter fun item => classify item = class'

variable {classify : α → κ} {items : List α} {keys : List κ} {class' other : κ}

theorem mem_part {item : α} :
    item ∈ part classify items class' ↔ item ∈ items ∧ classify item = class' := by
  simp [part]

theorem part_map (f : β → α) (sources : List β) :
    part classify (sources.map f) class' = (part (classify ∘ f) sources class').map f := by
  rw [part, List.filter_map]
  rfl

theorem perm_parts (hkeys : keys.Nodup) (hcover : ∀ item ∈ items, classify item ∈ keys) :
    (keys.flatMap (part classify items)).Perm items := by
  induction keys generalizing items with
  | nil =>
      have hnone : items = [] := by
        apply List.eq_nil_iff_forall_not_mem.mpr
        intro item hmem
        cases hcover item hmem
      rw [hnone]
      exact List.Perm.refl _
  | cons key keys ih =>
      obtain ⟨hkey, hkeys⟩ := List.nodup_cons.mp hkeys
      -- The other classes see only what the first one leaves.
      have hleft : ∀ class' ∈ keys, part classify items class' =
          part classify (items.filter fun item => !decide (classify item = key)) class' := by
        intro class' hmem
        rw [part, part, List.filter_filter]
        apply List.filter_congr
        intro item _
        by_cases hclass : classify item = class'
        · have hne : class' ≠ key := fun heq => hkey (heq ▸ hmem)
          simp [hclass, hne]
        · simp [hclass]
      have hrest : ∀ item ∈ items.filter fun item => !decide (classify item = key),
          classify item ∈ keys := by
        intro item hmem
        obtain ⟨hmem, hne⟩ := List.mem_filter.mp hmem
        exact (List.mem_cons.mp (hcover item hmem)).resolve_left (by simpa using hne)
      rw [List.flatMap_cons, List.flatMap_congr hleft]
      exact (List.Perm.append_left _ (ih hkeys hrest)).trans (List.filter_append_perm _ _)

theorem sum_length_parts (classify : α → κ) (items : List α) (hkeys : keys.Nodup)
    (hcover : ∀ item ∈ items, classify item ∈ keys) :
    (keys.map fun key => (part classify items key).length).sum = items.length := by
  rw [← (perm_parts hkeys hcover).length_eq, List.length_flatMap]

theorem count_map : (items.map classify).count class' = (part classify items class').length := by
  rw [part, List.count, List.countP_map, List.countP_eq_length_filter]
  rfl

theorem part_congr {ι : Type*} [DecidableEq ι] {coarse : α → ι} {coarseClass : ι}
    (h : ∀ item ∈ items, classify item = class' ↔ coarse item = coarseClass) :
    part classify items class' = part coarse items coarseClass := by
  apply List.filter_congr
  intro item hmem
  exact decide_eq_decide.mpr (h item hmem)

end ShortReel.Classifications
