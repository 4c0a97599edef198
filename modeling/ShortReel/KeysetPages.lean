import Mathlib.Data.List.Sort
import Mathlib.Data.Prod.Lex

/-!
# Keyset pages

A list of rows is read a page at a time, the greatest key first. A page holds the first rows whose
keys lie below a bound, and one more row is looked at to see whether another page follows, which is
asked for with the key of the last row as its bound.
-/

namespace ShortReel.KeysetPages

variable {α κ : Type*} [LinearOrder κ] (key : α → κ)

def Before (first second : α) : Prop :=
  key second < key first

def ranked (rows : List α) : List α :=
  rows.insertionSort fun first second => key second ≤ key first

def InReach (bound : Option κ) (row : α) : Prop :=
  ∀ limit ∈ bound, key row < limit

instance (bound : Option κ) : DecidablePred (InReach key bound) :=
  fun row => inferInstanceAs (Decidable (∀ limit ∈ bound, key row < limit))

structure Page (α κ : Type*) where
  items : List α
  next : Option κ

/-- The page behind `bound`. -/
def page (limit : ℕ) (bound : Option κ) (rows : List α) : Page α κ :=
  let found := (ranked key (rows.filter (InReach key bound))).take (limit + 1)
  { items := found.take limit
    next := if limit < found.length then (found.take limit).getLast?.map key else none }

section Rules

variable {key} {rows : List α} {limit : ℕ} {bound : Option κ}

theorem mem_ranked {row : α} : row ∈ ranked key rows ↔ row ∈ rows :=
  List.mem_insertionSort _

theorem pairwise_ranked (hkeys : (rows.map key).Nodup) : (ranked key rows).Pairwise (Before key) := by
  have hsorted : (ranked key rows).Pairwise fun first second => key second ≤ key first := by
    have : Std.Total fun first second : α => key second ≤ key first := ⟨fun _ _ => le_total _ _⟩
    have : IsTrans α fun first second => key second ≤ key first := ⟨fun _ _ _ h h' => h'.trans h⟩
    exact List.pairwise_insertionSort _ rows
  have hperm : ((ranked key rows).map key).Perm (rows.map key) :=
    (List.perm_insertionSort _ rows).map key
  have hdistinct := List.pairwise_map.mp (hperm.nodup_iff.mpr hkeys)
  exact (hsorted.and hdistinct).imp fun h => lt_of_le_of_ne h.1 (Ne.symm h.2)

theorem page_items (limit : ℕ) (bound : Option κ) (rows : List α) :
    (page key limit bound rows).items =
      (ranked key (rows.filter (InReach key bound))).take limit := by
  rw [page, List.take_take, Nat.min_eq_left (Nat.le_succ limit)]

theorem mem_page {row : α} (h : row ∈ (page key limit bound rows).items) :
    row ∈ rows ∧ InReach key bound row := by
  rw [page_items] at h
  simpa [mem_ranked] using List.mem_of_mem_take h

theorem pairwise_page (hkeys : (rows.map key).Nodup) :
    (page key limit bound rows).items.Pairwise (Before key) := by
  rw [page_items]
  have hfilter : ((rows.filter (InReach key bound)).map key).Nodup :=
    hkeys.sublist (List.filter_sublist.map key)
  exact (pairwise_ranked hfilter).sublist (List.take_sublist _ _)

theorem mem_last_page (hnext : (page key limit bound rows).next = none) (hlimit : 1 ≤ limit)
    {row : α} (hrow : row ∈ rows) (hreach : InReach key bound row) :
    row ∈ (page key limit bound rows).items := by
  rw [page_items]
  have hmem : row ∈ ranked key (rows.filter (InReach key bound)) :=
    mem_ranked.mpr (by simpa using ⟨hrow, hreach⟩)
  have hshort : (ranked key (rows.filter (InReach key bound))).length ≤ limit := by
    by_contra hlong
    have hfound : limit <
        ((ranked key (rows.filter (InReach key bound))).take (limit + 1)).length := by
      rw [List.length_take]
      omega
    rw [page, if_pos hfound] at hnext
    change Option.map key (page key limit bound rows).items.getLast? = none at hnext
    rw [Option.map_eq_none_iff, List.getLast?_eq_none_iff, page_items] at hnext
    have hempty := congrArg List.length hnext
    rw [List.length_take, List.length_nil] at hempty
    omega
  rw [List.take_of_length_le hshort]
  exact hmem

theorem page_next {next : κ} (hnext : (page key limit bound rows).next = some next) :
    (page key limit bound rows).items.length = limit ∧
      ∃ rest last, (page key limit bound rows).items = rest ++ [last] ∧ key last = next := by
  have hfull : limit <
      ((ranked key (rows.filter (InReach key bound))).take (limit + 1)).length := by
    by_contra hshort
    rw [page, if_neg hshort] at hnext
    cases hnext
  have hlast : (page key limit bound rows).items.getLast?.map key = some next := by
    rw [← hnext]
    simp only [page, if_pos hfull]
  obtain ⟨last, hlast, hkey⟩ := Option.map_eq_some_iff.mp hlast
  refine ⟨?_, (page key limit bound rows).items.dropLast, last, ?_, hkey⟩
  · rw [List.length_take] at hfull
    rw [page_items, List.length_take]
    omega
  · exact (List.dropLast_append_getLast? last hlast).symm

theorem mem_page_or_later {next : κ} (hkeys : (rows.map key).Nodup)
    (hnext : (page key limit bound rows).next = some next) {row : α} (hrow : row ∈ rows)
    (hreach : InReach key bound row) :
    row ∈ (page key limit bound rows).items ∨ key row < next := by
  obtain ⟨hlength, rest, last, hitems, hlast⟩ := page_next hnext
  have hmem : row ∈ ranked key (rows.filter (InReach key bound)) :=
    mem_ranked.mpr (by simpa using ⟨hrow, hreach⟩)
  have hfilter : ((rows.filter (InReach key bound)).map key).Nodup :=
    hkeys.sublist (List.filter_sublist.map key)
  have hordered := pairwise_ranked hfilter
  rw [page_items] at hitems ⊢
  rw [← List.take_append_drop limit (ranked key (rows.filter (InReach key bound)))] at hmem hordered
  rcases List.mem_append.mp hmem with hhere | hlater
  · exact .inl hhere
  · rw [hitems] at hordered
    have hbefore := (List.pairwise_append.mp hordered).2.2 last (by simp) row hlater
    rw [Before, hlast] at hbefore
    exact .inr hbefore

theorem pairwise_append_later {next : κ} (hkeys : (rows.map key).Nodup)
    (hnext : (page key limit bound rows).next = some next) {later : List α}
    (hlater : later.Pairwise (Before key)) (hreach : ∀ row ∈ later, InReach key (some next) row) :
    ((page key limit bound rows).items ++ later).Pairwise (Before key) := by
  obtain ⟨-, rest, last, hitems, hlast⟩ := page_next hnext
  have hordered : (page key limit bound rows).items.Pairwise (Before key) := pairwise_page hkeys
  refine List.pairwise_append.mpr ⟨hordered, hlater, ?_⟩
  intro first hfirst second hsecond
  have hbelow : key second < next := hreach second hsecond next rfl
  rw [hitems] at hfirst hordered
  rcases List.mem_append.mp hfirst with hrest | hsingle
  · have hbefore := (List.pairwise_append.mp hordered).2.2 first hrest last (by simp)
    rw [Before, hlast] at hbefore
    exact hbelow.trans hbefore
  · rw [List.mem_singleton] at hsingle
    rw [hsingle, Before, hlast]
    exact hbelow

/-- The bound of the next page lies below this page's own, so that what is in reach of the one is in
reach of the other. -/
theorem InReach.later {next : κ} (hnext : (page key limit bound rows).next = some next) {row : α}
    (h : InReach key (some next) row) : InReach key bound row := by
  obtain ⟨-, rest, last, hitems, hlast⟩ := page_next hnext
  have hbelow : key row < next := h next rfl
  have hmem : last ∈ (page key limit bound rows).items := by
    rw [hitems]
    simp
  intro highest hhighest
  have habove := (mem_page hmem).2 highest hhighest
  rw [hlast] at habove
  exact hbelow.trans habove

end Rules

end ShortReel.KeysetPages
