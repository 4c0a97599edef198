import Mathlib.Data.List.Nodup

/-!
# Occurrences

The places of a list where a pattern stands, which may overlap: a search goes on one place behind the last
that it found.
-/

namespace ShortReel.Occurrences

variable {α : Type*} [DecidableEq α]

def StandsAt (text pattern : List α) (i : ℕ) : Prop :=
  pattern ≠ [] ∧ (text.drop i).take pattern.length = pattern

def find (text pattern : List α) (start : ℕ) : Option ℕ :=
  (List.range' start (text.length + 1 - start)).find? fun i =>
    (text.drop i).take pattern.length = pattern

def findFrom (text pattern : List α) : ℕ → ℕ → List ℕ
  | 0, _ => []
  | fuel + 1, start =>
      match find text pattern start with
      | some found => found :: findFrom text pattern fuel (found + 1)
      | none => []

def findAll (text pattern : List α) : List ℕ :=
  if pattern = [] then [] else findFrom text pattern (text.length + 1) 0

variable {text pattern : List α} {start i fuel : ℕ}

omit [DecidableEq α] in
theorem StandsAt.le_length (h : StandsAt text pattern i) : i + pattern.length ≤ text.length := by
  obtain ⟨hne, hpattern⟩ := h
  have hlength := congrArg List.length hpattern
  have hpos := List.length_pos_iff.mpr hne
  rw [List.length_take, List.length_drop] at hlength
  omega

theorem find_eq_some_iff : find text pattern start = some i ↔
    (text.drop i).take pattern.length = pattern ∧ start ≤ i ∧ i ≤ text.length ∧
      ∀ j, start ≤ j → j < i → (text.drop j).take pattern.length ≠ pattern := by
  unfold find
  rw [List.find?_range'_eq_some]
  simp only [decide_eq_true_eq, List.mem_range'_1, Bool.not_eq_true', decide_eq_false_iff_not]
  constructor
  · rintro ⟨hpattern, hrange, hfirst⟩
    exact ⟨hpattern, hrange.1, by omega, hfirst⟩
  · rintro ⟨hpattern, hstart, hlength, hfirst⟩
    exact ⟨hpattern, ⟨hstart, by omega⟩, hfirst⟩

theorem find_eq_none_iff : find text pattern start = none ↔
    ∀ i, start ≤ i → i ≤ text.length → (text.drop i).take pattern.length ≠ pattern := by
  unfold find
  rw [List.find?_eq_none]
  simp only [decide_eq_true_eq, List.mem_range'_1]
  constructor
  · intro h i hstart hlength
    exact h i ⟨hstart, by omega⟩
  · intro h i hrange
    exact h i hrange.1 (by omega)

theorem mem_findFrom (hfuel : text.length + 1 - start ≤ fuel) : i ∈ findFrom text pattern fuel start ↔
    start ≤ i ∧ i ≤ text.length ∧ (text.drop i).take pattern.length = pattern := by
  induction fuel generalizing start with
  | zero =>
      refine iff_of_false List.not_mem_nil fun h => ?_
      omega
  | succ fuel ih =>
      rw [findFrom]
      cases hfind : find text pattern start with
      | none =>
          refine iff_of_false List.not_mem_nil fun h => ?_
          exact find_eq_none_iff.mp hfind i h.1 h.2.1 h.2.2
      | some found =>
          obtain ⟨hpattern, hstart, hlength, hfirst⟩ := find_eq_some_iff.mp hfind
          rw [List.mem_cons, ih (by omega)]
          constructor
          · rintro (rfl | ⟨hbehind, hrest⟩)
            · exact ⟨hstart, hlength, hpattern⟩
            · exact ⟨by omega, hrest⟩
          · rintro ⟨hi, hrest⟩
            rcases Nat.lt_trichotomy i found with hlt | heq | hgt
            · exact absurd hrest.2 (hfirst i hi hlt)
            · exact Or.inl heq
            · exact Or.inr ⟨hgt, hrest⟩

theorem nodup_findFrom : (findFrom text pattern fuel start).Nodup ∧
    ∀ i ∈ findFrom text pattern fuel start, start ≤ i := by
  induction fuel generalizing start with
  | zero => exact ⟨List.nodup_nil, fun i hi => absurd hi List.not_mem_nil⟩
  | succ fuel ih =>
      rw [findFrom]
      cases hfind : find text pattern start with
      | none => exact ⟨List.nodup_nil, fun i hi => absurd hi List.not_mem_nil⟩
      | some found =>
          obtain ⟨-, hstart, -⟩ := find_eq_some_iff.mp hfind
          obtain ⟨hnodup, hbehind⟩ := @ih (found + 1)
          refine ⟨List.nodup_cons.mpr ⟨fun hmem => ?_, hnodup⟩, List.forall_mem_cons.mpr ⟨hstart, ?_⟩⟩
          · have hlt := hbehind found hmem
            omega
          · intro i hi
            have hlt := hbehind i hi
            omega

theorem mem_findAll : i ∈ findAll text pattern ↔ StandsAt text pattern i := by
  unfold findAll
  split_ifs with hempty
  · exact iff_of_false List.not_mem_nil fun h => h.1 hempty
  · rw [mem_findFrom (by omega)]
    constructor
    · exact fun h => ⟨hempty, h.2.2⟩
    · exact fun h => ⟨Nat.zero_le i, Nat.le_trans (Nat.le_add_right _ _) h.le_length, h.2⟩

theorem nodup_findAll : (findAll text pattern).Nodup := by
  unfold findAll
  split_ifs
  · exact List.nodup_nil
  · exact nodup_findFrom.1

theorem findAll_eq_nil_iff : findAll text pattern = [] ↔ ∀ i, ¬ StandsAt text pattern i := by
  rw [List.eq_nil_iff_forall_not_mem]
  simp only [mem_findAll]

theorem findAll_eq_singleton_iff : findAll text pattern = [i] ↔
    StandsAt text pattern i ∧ ∀ j, StandsAt text pattern j → j = i := by
  simp only [← mem_findAll]
  constructor
  · intro h
    rw [h]
    exact ⟨List.mem_singleton_self i, fun j => List.mem_singleton.mp⟩
  · rintro ⟨hmem, hall⟩
    exact List.perm_singleton.mp ((List.perm_ext_iff_of_nodup nodup_findAll (List.nodup_singleton i)).mpr
      fun j => ⟨fun hj => List.mem_singleton.mpr (hall j hj), fun hj => List.mem_singleton.mp hj ▸ hmem⟩)

omit [DecidableEq α] in
theorem standsAt_map {β : Type*} {f : α → β} : StandsAt (text.map f) (pattern.map f) i ↔
    pattern ≠ [] ∧ ((text.drop i).take pattern.length).map f = pattern.map f := by
  unfold StandsAt
  rw [← List.map_drop, List.length_map, ← List.map_take]
  simp

end ShortReel.Occurrences
