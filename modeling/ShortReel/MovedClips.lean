import ShortReel.LongestSubsequences
import ShortReel.TimelineChanges

/-!
# Moved clips

The table of `_longest_common_subsequence` holds the lengths of longest common subsequences, the walk back
over it collects one of them, and `diff_content` reports no more clips as moved than it has to.
-/

namespace ShortReel.MovedClips

open LongestSubsequences TimelineChanges TimelineModel
open TimelineOperations TimelineService TimelineTrack

section Table

variable {α : Type} [DecidableEq α]

/-- A row for a left list, behind a part of the right list; both are given last element first. -/
def cells (left done : List α) : List α → List ℕ
  | [] => []
  | b :: right => longest left (b :: done) :: cells left (b :: done) right

def row (left right : List α) : List ℕ :=
  longest left [] :: cells left [] right

variable {a : α} {left right done : List α} {i j fuel : ℕ}

theorem rowFrom_cells :
    rowFrom a (longest (a :: left) done) (longest left done) (cells left done right) right =
      cells (a :: left) done right := by
  induction right generalizing done with
  | nil => rfl
  | cons b right ih =>
      have hcell : (if a = b then longest left done + 1
          else max (longest left (b :: done)) (longest (a :: left) done)) =
          longest (a :: left) (b :: done) := by
        split_ifs with hab
        · rw [hab, longest_cons_self]
        · rw [longest_cons_of_ne hab]
      rw [cells, cells, rowFrom, hcell, ih]

theorem nextRow_row : nextRow right (row left right) a = row (a :: left) right := by
  have hcells := @rowFrom_cells α _ a left right []
  rw [longest_nil_right, longest_nil_right] at hcells
  unfold nextRow row
  rw [longest_nil_right, longest_nil_right]
  exact congrArg (0 :: ·) hcells

theorem cells_nil : cells [] done right = List.replicate right.length 0 := by
  induction right generalizing done with
  | nil => rfl
  | cons b right ih => rw [cells, ih, longest_nil_left, List.length_cons, List.replicate_succ]

theorem row_nil : row [] right = List.replicate (right.length + 1) 0 := by
  rw [row, cells_nil, longest_nil_left, List.replicate_succ]

theorem getElem?_rows (first : List α) (h : i ≤ left.length) :
    (left.scanl (nextRow right) (row first right))[i]? =
      some (row ((left.take i).reverse ++ first) right) := by
  induction left generalizing first i with
  | nil =>
      obtain rfl := Nat.le_zero.mp h
      rfl
  | cons a left ih =>
      rw [List.scanl_cons]
      cases i with
      | zero => rfl
      | succ i =>
          rw [List.getElem?_cons_succ, nextRow_row, ih (a :: first) (Nat.le_of_succ_le_succ h)]
          rw [List.take_succ_cons, List.reverse_cons, List.append_assoc]
          rfl

theorem getElem?_cells (h : j < right.length) :
    (cells left done right)[j]? = some (longest left ((right.take (j + 1)).reverse ++ done)) := by
  induction right generalizing done j with
  | nil => cases h
  | cons b right ih =>
      rw [cells, List.take_succ_cons, List.reverse_cons, List.append_assoc]
      cases j with
      | zero => rfl
      | succ j =>
          rw [List.getElem?_cons_succ, ih (Nat.lt_of_succ_lt_succ h)]
          rfl

theorem getElem?_row (h : j ≤ right.length) :
    (row left right)[j]? = some (longest left (right.take j).reverse) := by
  unfold row
  cases j with
  | zero => rfl
  | succ j => rw [List.getElem?_cons_succ, getElem?_cells h, List.append_nil]

theorem lengthAt_lengths (hi : i ≤ left.length) (hj : j ≤ right.length) :
    lengthAt (lengths left right) i j = longest (left.take i).reverse (right.take j).reverse := by
  have hrow := @getElem?_rows α _ left right i [] hi
  rw [row_nil, List.append_nil] at hrow
  unfold lengthAt lengths
  rw [List.getD_eq_getElem?_getD, List.getD_eq_getElem?_getD, hrow, Option.getD_some, getElem?_row hj,
    Option.getD_some]

omit [DecidableEq α] in
theorem take_of_suffix {front : List α} (h : front <:+ left.reverse) :
    (left.take front.length).reverse = front := by
  obtain ⟨rest, hrest⟩ := h
  have hleft : left = front.reverse ++ rest.reverse := by
    rw [← List.reverse_append, hrest, List.reverse_reverse]
  rw [hleft, List.take_left' List.length_reverse, List.reverse_reverse]

theorem length_backtrack {first second : List α} (hfirst : first <:+ left.reverse)
    (hsecond : second <:+ right.reverse) (hfuel : first.length + second.length ≤ fuel) :
    (backtrack (lengths left right) fuel first second).length = longest first second := by
  have hcell : ∀ {front back : List α}, front <:+ left.reverse → back <:+ right.reverse →
      lengthAt (lengths left right) front.length back.length = longest front back := by
    intro front back hfront hback
    rw [lengthAt_lengths, take_of_suffix hfront, take_of_suffix hback]
    · simpa only [List.length_reverse] using hfront.length_le
    · simpa only [List.length_reverse] using hback.length_le
  induction fuel generalizing first second with
  | zero =>
      obtain rfl := List.length_eq_zero_iff.mp (show first.length = 0 by omega)
      rw [longest_nil_left]
      rfl
  | succ fuel ih =>
      cases first with
      | nil =>
          rw [longest_nil_left]
          rfl
      | cons a first =>
          cases second with
          | nil =>
              rw [longest_nil_right]
              rfl
          | cons b second =>
              have hfirstTail := (List.suffix_cons a first).trans hfirst
              have hsecondTail := (List.suffix_cons b second).trans hsecond
              have habove := hcell hfirstTail hsecond
              have hbefore := hcell hfirst hsecondTail
              rw [List.length_cons] at habove hbefore
              rw [List.length_cons, List.length_cons] at hfuel
              rw [backtrack, habove, hbefore]
              split_ifs with hab hle
              · subst hab
                rw [List.length_cons, ih hfirstTail hsecondTail (by omega), longest_cons_self]
              · rw [ih hfirstTail hsecond (by simp only [List.length_cons]; omega), longest_cons_of_ne hab,
                  Nat.max_eq_left hle]
              · rw [ih hfirst hsecondTail (by simp only [List.length_cons]; omega), longest_cons_of_ne hab,
                  Nat.max_eq_right (Nat.le_of_not_le hle)]

theorem length_le_longestCommonSubsequence {kept : List α} (hleft : kept.Sublist left)
    (hright : kept.Sublist right) : kept.length ≤ (longestCommonSubsequence left right).length := by
  unfold longestCommonSubsequence
  rw [length_backtrack List.suffix_rfl List.suffix_rfl (by simp), ← List.length_reverse]
  exact length_le_longest hleft.reverse hright.reverse

end Table

def commonClips (content other : EditTimelineContent) : List ClipId :=
  (clipIds content.clips).filter (· ∈ contentIds other)

theorem moved_eq (before after : EditTimelineContent) : (diffContent before after).moved =
    (commonClips before after).filter
      (· ∉ longestCommonSubsequence (commonClips before after) (commonClips after before)) :=
  rfl

theorem unmoved_eq (before after : EditTimelineContent) :
    (commonClips before after).filter (· ∉ (diffContent before after).moved) =
      (commonClips before after).filter
        (· ∈ longestCommonSubsequence (commonClips before after) (commonClips after before)) := by
  refine List.filter_congr fun id hid => ?_
  rw [moved_eq]
  simp [hid]

theorem mem_commonClips_symm {before after : EditTimelineContent} {id : ClipId}
    (h : id ∈ commonClips after before) : id ∈ commonClips before after := by
  obtain ⟨hafter, hbefore⟩ := List.mem_filter.mp h
  refine List.mem_filter.mpr ⟨mem_clipIds_of_contentIds (of_decide_eq_true hbefore) hafter, decide_eq_true ?_⟩
  exact List.mem_append_left _ hafter

theorem unmoved_eq_after (before after : EditTimelineContent) :
    (commonClips after before).filter (· ∉ (diffContent before after).moved) =
      (commonClips after before).filter
        (· ∈ longestCommonSubsequence (commonClips before after) (commonClips after before)) := by
  refine List.filter_congr fun id hid => ?_
  rw [moved_eq]
  simp [mem_commonClips_symm hid]

theorem length_unmoved (before after : EditTimelineContent) :
    ((commonClips before after).filter (· ∉ (diffContent before after).moved)).length =
      (longestCommonSubsequence (commonClips before after) (commonClips after before)).length := by
  obtain ⟨hsublist, -⟩ := backtrack_sublist (lengths (commonClips before after) (commonClips after before))
    ((commonClips before after).length + (commonClips after before).length)
    (commonClips before after).reverse (commonClips after before).reverse
  have hnodup := List.nodup_reverse.mpr (before.unique_clip_ids.filter (· ∈ contentIds after))
  have hfilter := filter_mem_sublist hsublist hnodup
  rw [unmoved_eq, ← List.length_reverse, ← List.filter_reverse]
  exact congrArg List.length hfilter

/-- The common clips that are not reported as moved are in the same order in both contents, no common
subsequence has more of them, and whatever else is taken out to leave one order is not fewer. -/
theorem diffContent_moves_least (before after : EditTimelineContent) :
    (commonClips before after).filter (· ∉ (diffContent before after).moved) =
      (commonClips after before).filter (· ∉ (diffContent before after).moved) ∧
    (∀ kept : List ClipId, kept.Sublist (commonClips before after) → kept.Sublist (commonClips after before) →
      kept.length ≤ ((commonClips before after).filter (· ∉ (diffContent before after).moved)).length) ∧
    (diffContent before after).moved.Sublist (commonClips before after) ∧
    (diffContent before after).moved.Nodup ∧
    ∀ others : List ClipId,
      (commonClips before after).filter (· ∉ others) = (commonClips after before).filter (· ∉ others) →
      (diffContent before after).moved.length ≤
        ((commonClips before after).filter (· ∈ others)).length := by
  have hlongest : ∀ kept : List ClipId, kept.Sublist (commonClips before after) →
      kept.Sublist (commonClips after before) →
      kept.length ≤ ((commonClips before after).filter (· ∉ (diffContent before after).moved)).length := by
    intro kept hleft hright
    rw [length_unmoved]
    exact length_le_longestCommonSubsequence hleft hright
  have hnodup : (commonClips before after).Nodup := before.unique_clip_ids.filter _
  refine ⟨?_, hlongest, List.filter_sublist, hnodup.filter _, fun others hothers => ?_⟩
  · rw [unmoved_eq, unmoved_eq_after]
    exact filter_longestCommonSubsequence hnodup (after.unique_clip_ids.filter _)
  · have hright : ((commonClips before after).filter (· ∉ others)).Sublist (commonClips after before) := by
      rw [hothers]
      exact List.filter_sublist
    have hkept := hlongest _ List.filter_sublist hright
    have hreported := (commonClips before after).length_eq_length_filter_add
      (· ∈ (diffContent before after).moved)
    have hothersAll := (commonClips before after).length_eq_length_filter_add (· ∈ others)
    simp only [← decide_not] at hreported hothersAll
    have hmoved : (commonClips before after).filter (· ∈ (diffContent before after).moved) =
        (diffContent before after).moved := filter_mem_sublist List.filter_sublist hnodup
    rw [hmoved] at hreported
    omega

end ShortReel.MovedClips
