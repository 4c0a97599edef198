import Mathlib.Data.List.Basic

/-!
# Longest common subsequences

The length of a longest common subsequence by the first elements of two lists, and that no common
subsequence is longer.
-/

namespace ShortReel.LongestSubsequences

variable {α : Type*} [DecidableEq α]

def longest : List α → List α → ℕ
  | a :: left, b :: right =>
      if a = b then longest left right + 1
      else max (longest left (b :: right)) (longest (a :: left) right)
  | _, _ => 0
termination_by left right => left.length + right.length

variable {a b : α} {left right kept : List α}

@[simp] theorem longest_nil_left : longest [] right = 0 := by
  rw [longest]
  intro a left b right h
  cases h

@[simp] theorem longest_nil_right : longest left [] = 0 := by
  rw [longest]
  intro a left b right _ h
  cases h

theorem longest_cons_self : longest (a :: left) (a :: right) = longest left right + 1 := by
  rw [longest, if_pos rfl]

theorem longest_cons_of_ne (h : a ≠ b) : longest (a :: left) (b :: right) =
    max (longest left (b :: right)) (longest (a :: left) right) := by
  rw [longest, if_neg h]

theorem length_le_longest (hleft : kept.Sublist left) (hright : kept.Sublist right) :
    kept.length ≤ longest left right := by
  induction left, right using longest.induct generalizing kept with
  | case1 left b right ih =>
      have htails := ih hleft.tail hright.tail
      rw [longest_cons_self]
      rw [List.length_tail] at htails
      omega
  | case2 a left b right hne ihLeft ihRight =>
      rw [longest_cons_of_ne hne]
      rcases List.sublist_cons_iff.mp hleft with hskip | ⟨kept', rfl, -⟩
      · exact Nat.le_trans (ihLeft hskip hright) (Nat.le_max_left _ _)
      · rcases List.sublist_cons_iff.mp hright with hskip | ⟨kept'', hsame, -⟩
        · exact Nat.le_trans (ihRight hleft hskip) (Nat.le_max_right _ _)
        · exact absurd (List.cons.inj hsame).1 hne
  | case3 left right hnone =>
      cases left with
      | nil => simp [List.sublist_nil.mp hleft]
      | cons a left =>
          cases right with
          | nil => simp [List.sublist_nil.mp hright]
          | cons b right => exact absurd rfl (hnone a left b right rfl)

end ShortReel.LongestSubsequences
