import Mathlib.Data.List.Dedup
import Mathlib.Data.List.Sort

/-!
# Names in order

Strings as their characters, in the order of Python's `sorted`.
-/

namespace ShortReel.NameOrder

abbrev Name := List Char

def atMost : Name → Name → Bool
  | [], _ => true
  | _ :: _, [] => false
  | c :: first, d :: second => c.val < d.val || (c = d && atMost first second)

/-- `sorted`, of a set. -/
def sortedSet (names : List Name) : List Name :=
  names.dedup.insertionSort fun first second => atMost first second

variable {names : List Name} {name : Name}

section Order

variable {first second third : Name}

theorem atMost_cons {c d : Char} : atMost (c :: first) (d :: second) = true ↔
    c.val < d.val ∨ (c = d ∧ atMost first second = true) := by
  rw [atMost, Bool.or_eq_true, decide_eq_true_iff, Bool.and_eq_true, decide_eq_true_iff]

theorem atMost_total (first second : Name) : atMost first second = true ∨ atMost second first = true := by
  induction first generalizing second with
  | nil => exact .inl rfl
  | cons c first ih =>
      cases second with
      | nil => exact .inr rfl
      | cons d second =>
          rw [atMost_cons, atMost_cons]
          rcases Nat.lt_trichotomy c.val.toNat d.val.toNat with hlt | heq | hgt
          · exact .inl (.inl (UInt32.lt_iff_toNat_lt.mpr hlt))
          · have hsame : c = d := Char.ext (UInt32.toNat_inj.mp heq)
            rcases ih second with h | h
            · exact .inl (.inr ⟨hsame, h⟩)
            · exact .inr (.inr ⟨hsame.symm, h⟩)
          · exact .inr (.inl (UInt32.lt_iff_toNat_lt.mpr hgt))

theorem atMost_trans (h : atMost first second = true) (h' : atMost second third = true) :
    atMost first third = true := by
  induction first generalizing second third with
  | nil => rfl
  | cons c first ih =>
      cases second with
      | nil => cases h
      | cons d second =>
          cases third with
          | nil => cases h'
          | cons e third =>
              rw [atMost_cons] at h h' ⊢
              rcases h with hlt | ⟨rfl, hrest⟩
              · rcases h' with hlt' | ⟨rfl, -⟩
                · exact .inl (UInt32.lt_trans hlt hlt')
                · exact .inl hlt
              · rcases h' with hlt' | ⟨rfl, hrest'⟩
                · exact .inl hlt'
                · exact .inr ⟨rfl, ih hrest hrest'⟩

theorem atMost_antisymm (h : atMost first second = true) (h' : atMost second first = true) :
    first = second := by
  induction first generalizing second with
  | nil =>
      cases second with
      | nil => rfl
      | cons d second => cases h'
  | cons c first ih =>
      cases second with
      | nil => cases h
      | cons d second =>
          rw [atMost_cons] at h h'
          rcases h with hlt | ⟨rfl, hrest⟩
          · rcases h' with hlt' | ⟨rfl, -⟩
            · exact absurd hlt (UInt32.lt_asymm hlt')
            · exact absurd hlt (UInt32.lt_irrefl _)
          · rcases h' with hlt' | ⟨-, hrest'⟩
            · exact absurd hlt' (UInt32.lt_irrefl _)
            · rw [ih hrest hrest']

end Order

section Stable

variable {α : Type*} {rank : α → ℕ} {r : α → α → Prop} {a : α} {items : List α}

def Before (rank : α → ℕ) (r : α → α → Prop) (a b : α) : Prop :=
  rank b < rank a ∨ (rank b = rank a ∧ r a b)

/-- `sorted(..., key=rank, reverse=True)`. -/
def byRank (rank : α → ℕ) (items : List α) : List α :=
  items.insertionSort fun a b => rank b ≤ rank a

theorem pairwise_orderedInsert (hbefore : ∀ b ∈ items, r a b) (h : items.Pairwise (Before rank r)) :
    (items.orderedInsert (fun a b => rank b ≤ rank a) a).Pairwise (Before rank r) := by
  induction items with
  | nil => exact List.pairwise_singleton _ _
  | cons b items ih =>
      obtain ⟨hhead, htail⟩ := List.pairwise_cons.mp h
      rw [List.orderedInsert_cons]
      split_ifs with hle
      · refine List.pairwise_cons.mpr ⟨fun c hc => ?_, h⟩
        have hranks : rank c ≤ rank b := by
          rcases List.mem_cons.mp hc with rfl | hc
          · exact le_rfl
          · rcases hhead c hc with hlt | ⟨heq, -⟩
            · exact le_of_lt hlt
            · exact le_of_eq heq
        rcases lt_or_eq_of_le (le_trans hranks hle) with hlt | heq
        · exact .inl hlt
        · exact .inr ⟨heq, hbefore c hc⟩
      · refine List.pairwise_cons.mpr ⟨fun c hc => ?_, ih (fun c hc => hbefore c
          (List.mem_cons_of_mem _ hc)) htail⟩
        rcases (List.mem_orderedInsert _).mp hc with rfl | hc
        · exact .inl (not_le.mp hle)
        · exact hhead c hc

theorem pairwise_byRank (h : items.Pairwise r) : (byRank rank items).Pairwise (Before rank r) := by
  induction items with
  | nil => exact List.Pairwise.nil
  | cons a items ih =>
      obtain ⟨hhead, htail⟩ := List.pairwise_cons.mp h
      rw [byRank, List.insertionSort_cons]
      refine pairwise_orderedInsert (fun b hb => hhead b ?_) (ih htail)
      exact (List.mem_insertionSort _).mp hb

theorem mem_byRank : a ∈ byRank rank items ↔ a ∈ items :=
  List.mem_insertionSort _

end Stable

theorem mem_sortedSet : name ∈ sortedSet names ↔ name ∈ names :=
  (List.mem_insertionSort _).trans List.mem_dedup

theorem nodup_sortedSet : (sortedSet names).Nodup :=
  (List.perm_insertionSort _ _).nodup_iff.mpr (List.nodup_dedup names)

end ShortReel.NameOrder
