import Mathlib.Algebra.Order.BigOperators.Group.List
import Mathlib.Algebra.Order.Group.Nat
import Mathlib.Algebra.Ring.Nat
import Mathlib.Data.List.Infix
import Mathlib.Data.List.MinMax

/-!
# Shrinking texts to a budget

Texts in slots are cut from the back, always the longest one, until what is made of them fits. How
much a round takes is guessed from what is too much; it takes a character at least, so the rounds end.
-/

namespace ShortReel.ShrinkingTexts

variable {ι α : Type} [DecidableEq ι]

def total (slots : List ι) (texts : ι → List α) : ℕ :=
  (slots.map fun slot => (texts slot).length).sum

def dropped (deficit length : ℕ) : ℕ :=
  if deficit < length then deficit else max 1 (length / 2)

def cut (texts : ι → List α) (slot : ι) (deficit : ℕ) : ι → List α :=
  Function.update texts slot
    ((texts slot).take ((texts slot).length - dropped deficit (texts slot).length))

variable {slots : List ι} {texts : ι → List α} {slot : ι} {deficit : ℕ}

theorem length_cut_lt (hne : texts slot ≠ []) (hdeficit : 0 < deficit) :
    (cut texts slot deficit slot).length < (texts slot).length := by
  have hpos := List.length_pos_iff.mpr hne
  rw [cut, Function.update_self, List.length_take]
  unfold dropped
  split <;> omega

theorem cut_ne_nil (h : 2 ≤ (texts slot).length) : cut texts slot deficit slot ≠ [] := by
  rw [cut, Function.update_self, ← List.length_pos_iff, List.length_take]
  unfold dropped
  split <;> omega

theorem length_cut_le (texts : ι → List α) (slot : ι) (deficit : ℕ) (other : ι) :
    (cut texts slot deficit other).length ≤ (texts other).length := by
  by_cases hother : other = slot
  · rw [hother, cut, Function.update_self, List.length_take]
    omega
  · rw [cut, Function.update_of_ne hother]

theorem total_cut_lt (hslot : slot ∈ slots) (hne : texts slot ≠ []) (hdeficit : 0 < deficit) :
    total slots (cut texts slot deficit) < total slots texts :=
  List.sum_lt_sum _ _ (fun other _ => length_cut_le texts slot deficit other)
    ⟨slot, hslot, length_cut_lt hne hdeficit⟩

def shrink (size : (ι → List α) → ℕ) (slots : List ι) (limit : ℕ) (texts : ι → List α) :
    Option (ι → List α) :=
  if _hfits : size texts ≤ limit then some texts
  else
    match _hlongest : slots.argmax fun slot => (texts slot).length with
    | none => none
    | some slot =>
        if _hempty : texts slot = [] then none
        else shrink size slots limit (cut texts slot (size texts - limit))
termination_by total slots texts
decreasing_by exact total_cut_lt (List.argmax_mem _hlongest) _hempty (by omega)

variable {size : (ι → List α) → ℕ} {limit : ℕ} {shrunk : ι → List α}

theorem shrink_fits (h : shrink size slots limit texts = some shrunk) : size shrunk ≤ limit := by
  fun_induction shrink size slots limit texts with
  | case1 texts hfits =>
      rw [← Option.some.inj h]
      exact hfits
  | case2 => cases h
  | case3 => cases h
  | case4 texts hfits slot hlongest hempty ih => exact ih h

theorem cut_front (texts : ι → List α) (slot : ι) (deficit : ℕ) (other : ι) :
    cut texts slot deficit other <+: texts other := by
  by_cases hother : other = slot
  · rw [hother, cut, Function.update_self]
    exact List.take_prefix _ _
  · rw [cut, Function.update_of_ne hother]

theorem shrink_front (h : shrink size slots limit texts = some shrunk) (slot : ι) :
    shrunk slot <+: texts slot := by
  fun_induction shrink size slots limit texts with
  | case1 texts hfits =>
      rw [← Option.some.inj h]
  | case2 => cases h
  | case3 => cases h
  | case4 texts hfits longest hlongest hempty ih =>
      exact (ih h).trans (cut_front texts longest _ slot)

theorem shrink_invariant {P : (ι → List α) → Prop}
    (hcut : ∀ texts slot, P texts → limit < size texts →
      slot ∈ slots.argmax (fun slot => (texts slot).length) → texts slot ≠ [] →
      P (cut texts slot (size texts - limit)))
    (hP : P texts) (h : shrink size slots limit texts = some shrunk) : P shrunk := by
  fun_induction shrink size slots limit texts with
  | case1 texts hfits =>
      rw [← Option.some.inj h]
      exact hP
  | case2 => cases h
  | case3 => cases h
  | case4 texts hfits longest hlongest hempty ih =>
      exact ih (hcut texts longest hP (Nat.not_le.mp hfits) hlongest hempty) h

def emptied (slots : List ι) (texts : ι → List α) : ι → List α :=
  fun slot => if slot ∈ slots then [] else texts slot

theorem emptied_cut (hslot : slot ∈ slots) :
    emptied slots (cut texts slot deficit) = emptied slots texts := by
  funext other
  unfold emptied
  split
  · rfl
  · rename_i hother
    have hne : other ≠ slot := fun heq => hother (heq ▸ hslot)
    rw [cut, Function.update_of_ne hne]

theorem emptied_eq_self (h : ∀ slot ∈ slots, texts slot = []) : emptied slots texts = texts := by
  funext other
  unfold emptied
  split
  · rename_i hother
    exact (h other hother).symm
  · rfl

theorem exists_shrink (h : size (emptied slots texts) ≤ limit) :
    ∃ shrunk, shrink size slots limit texts = some shrunk := by
  fun_induction shrink size slots limit texts with
  | case1 texts hfits => exact ⟨texts, rfl⟩
  | case2 texts hfits hlongest =>
      have hnone : slots = [] := List.argmax_eq_none.mp hlongest
      rw [emptied_eq_self (by simp [hnone])] at h
      exact absurd h hfits
  | case3 texts hfits longest hlongest hempty =>
      have hall : ∀ slot ∈ slots, texts slot = [] := by
        intro slot hslot
        have hle := List.le_of_mem_argmax hslot hlongest
        rw [hempty] at hle
        exact List.length_eq_zero_iff.mp (Nat.le_zero.mp hle)
      rw [emptied_eq_self hall] at h
      exact absurd h hfits
  | case4 texts hfits longest hlongest hempty ih =>
      apply ih
      rw [emptied_cut (List.argmax_mem hlongest)]
      exact h

end ShortReel.ShrinkingTexts
