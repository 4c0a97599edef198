import Mathlib.Data.List.DropRight

/-!
# Texts up to their spaces

Texts over any characters of which some are spaces: their ends without spaces, the text that is left
when all spaces are taken out, and parts of a text between which only spaces were dropped.
-/

namespace ShortReel.TextSpaces

abbrev Text := List ℕ

/-- `str.isspace` for one character, and `\s` of a pattern. -/
def isSpace (c : ℕ) : Bool :=
  (9 ≤ c ∧ c ≤ 13) ∨ (28 ≤ c ∧ c ≤ 32) ∨ c = 0x85 ∨ c = 0xa0 ∨ c = 0x1680 ∨
    (0x2000 ≤ c ∧ c ≤ 0x200a) ∨ c = 0x2028 ∨ c = 0x2029 ∨ c = 0x202f ∨ c = 0x205f ∨ c = 0x3000

variable {α : Type} (space : α → Bool)

def lstrip (t : List α) : List α :=
  t.dropWhile space

def rstrip (t : List α) : List α :=
  t.rdropWhile space

def strip (t : List α) : List α :=
  rstrip space (lstrip space t)

def inked (t : List α) : List α :=
  t.filter fun c => !space c

def Blank (t : List α) : Prop :=
  ∀ c ∈ t, space c = true

instance (t : List α) : Decidable (Blank space t) :=
  inferInstanceAs (Decidable (∀ c ∈ t, space c = true))

variable {space} {t front rest : List α}

theorem blank_nil : Blank space [] := by
  simp [Blank]

theorem blank_append : Blank space (front ++ rest) ↔ Blank space front ∧ Blank space rest :=
  List.forall_mem_append

theorem lstrip_eq_nil_iff : lstrip space t = [] ↔ Blank space t := by
  simp [lstrip, Blank]

theorem rstrip_eq_nil_iff : rstrip space t = [] ↔ Blank space t :=
  List.rdropWhile_eq_nil_iff

theorem exists_lstrip (space : α → Bool) (t : List α) :
    ∃ gap, Blank space gap ∧ gap ++ lstrip space t = t :=
  ⟨t.takeWhile space, fun _ hc => List.mem_takeWhile_imp hc, List.takeWhile_append_dropWhile⟩

theorem exists_rstrip (space : α → Bool) (t : List α) :
    ∃ gap, Blank space gap ∧ rstrip space t ++ gap = t :=
  ⟨t.rtakeWhile space, fun _ hc => List.mem_rtakeWhile_imp hc,
    List.rdropWhile_append_rtakeWhile⟩

theorem exists_strip (space : α → Bool) (t : List α) :
    ∃ before after, Blank space before ∧ Blank space after ∧
      before ++ (strip space t ++ after) = t := by
  obtain ⟨before, hbefore, heq⟩ := exists_lstrip space t
  obtain ⟨after, hafter, hstrip⟩ := exists_rstrip space (lstrip space t)
  exact ⟨before, after, hbefore, hafter, by rw [strip, hstrip, heq]⟩

theorem strip_eq_nil_iff : strip space t = [] ↔ Blank space t := by
  rw [strip, rstrip_eq_nil_iff]
  constructor
  · intro hblank
    obtain ⟨gap, hgap, heq⟩ := exists_lstrip space t
    rw [← heq]
    exact blank_append.mpr ⟨hgap, hblank⟩
  · intro hblank
    rw [lstrip_eq_nil_iff.mpr hblank]
    exact blank_nil

theorem lstrip_append_cons {c : α} (hc : space c = false) (front rest : List α) :
    lstrip space (front ++ c :: rest) = lstrip space front ++ c :: rest := by
  induction front with
  | nil =>
      rw [List.nil_append, lstrip, List.dropWhile_cons_of_neg (by simp [hc])]
      rfl
  | cons first front ih =>
      unfold lstrip at ih ⊢
      rw [List.cons_append, List.dropWhile_cons, List.dropWhile_cons]
      split
      · exact ih
      · rfl

theorem strip_append {tail : List α} (hne : tail ≠ []) (htail : ∀ c ∈ tail, space c = false)
    (t : List α) : strip space (t ++ tail) = lstrip space t ++ tail := by
  cases tail with
  | nil => exact absurd rfl hne
  | cons c tail =>
      rw [strip, lstrip_append_cons (htail c List.mem_cons_self), rstrip,
        List.rdropWhile_eq_self_iff]
      intro hnil
      have hlast := List.getLast_mem hne
      rw [List.getLast_append_of_ne_nil hnil hne, htail _ hlast]
      decide

theorem inked_append (front rest : List α) :
    inked space (front ++ rest) = inked space front ++ inked space rest :=
  List.filter_append ..

theorem inked_eq_nil_iff : inked space t = [] ↔ Blank space t := by
  simp [inked, Blank, List.filter_eq_nil_iff]

theorem inked_blank (h : Blank space t) : inked space t = [] :=
  inked_eq_nil_iff.mpr h

theorem inked_rstrip (t : List α) : inked space (rstrip space t) = inked space t := by
  obtain ⟨gap, hgap, heq⟩ := exists_rstrip space t
  rw [← congrArg (inked space) heq, inked_append, inked_blank hgap, List.append_nil]

theorem inked_strip (t : List α) : inked space (strip space t) = inked space t := by
  obtain ⟨before, after, hbefore, hafter, heq⟩ := exists_strip space t
  rw [← congrArg (inked space) heq, inked_append, inked_append, inked_blank hbefore,
    inked_blank hafter, List.nil_append, List.append_nil]

variable (space) in
/-- The parts stand in the text in their order, with only spaces before, between and behind them. -/
def Rejoins : List (List α) → List α → Prop
  | [], t => Blank space t
  | part :: parts, t =>
      ∃ gap rest, Blank space gap ∧ t = gap ++ (part ++ rest) ∧ Rejoins parts rest

variable {parts : List (List α)}

theorem Rejoins.blank_append (h : Rejoins space parts t) (hblank : Blank space front) :
    Rejoins space parts (front ++ t) := by
  cases parts with
  | nil => exact TextSpaces.blank_append.mpr ⟨hblank, h⟩
  | cons part parts =>
      obtain ⟨gap, rest, hgap, rfl, hrest⟩ := h
      exact ⟨front ++ gap, rest, TextSpaces.blank_append.mpr ⟨hblank, hgap⟩,
        (List.append_assoc ..).symm, hrest⟩

theorem Rejoins.inked_eq (h : Rejoins space parts t) : inked space t = inked space parts.flatten := by
  induction parts generalizing t with
  | nil => exact inked_blank h
  | cons part parts ih =>
      obtain ⟨gap, rest, hgap, rfl, hrest⟩ := h
      rw [inked_append, inked_blank hgap, List.nil_append, inked_append, ih hrest,
        List.flatten_cons, inked_append]

def stripped (space : α → Bool) (parts : List (List α)) : List (List α) :=
  (parts.map (strip space)).filter (· ≠ [])

theorem mem_stripped {part : List α} (h : part ∈ stripped space parts) :
    part ≠ [] ∧ ∃ whole ∈ parts, part = strip space whole := by
  obtain ⟨hmem, hne⟩ := List.mem_filter.mp h
  obtain ⟨whole, hwhole, rfl⟩ := List.mem_map.mp hmem
  exact ⟨of_decide_eq_true hne, whole, hwhole, rfl⟩

theorem stripped_cons (part : List α) (parts : List (List α)) :
    stripped space (part :: parts) =
      if strip space part = [] then stripped space parts
      else strip space part :: stripped space parts := by
  rw [stripped, List.map_cons, List.filter_cons]
  rcases eq_or_ne (strip space part) [] with hnil | hne
  · rw [if_pos hnil, if_neg (by simp [hnil])]
    rfl
  · rw [if_neg hne, if_pos (by simp [hne])]
    rfl

theorem rejoins_stripped_cons (part : List α) (h : Rejoins space (stripped space parts) t) :
    Rejoins space (stripped space (part :: parts)) (part ++ t) := by
  rw [stripped_cons]
  split
  · rename_i hnil
    exact h.blank_append (strip_eq_nil_iff.mp hnil)
  · obtain ⟨before, after, hbefore, hafter, heq⟩ := exists_strip space part
    refine ⟨before, after ++ t, hbefore, ?_, h.blank_append hafter⟩
    rw [← List.append_assoc (strip space part), ← List.append_assoc, heq]

theorem stripped_append (parts others : List (List α)) :
    stripped space (parts ++ others) = stripped space parts ++ stripped space others := by
  rw [stripped, List.map_append, List.filter_append]
  rfl

theorem mem_dropLast_stripped {part : List α} (h : part ∈ (stripped space parts).dropLast) :
    part ≠ [] ∧ ∃ whole ∈ parts.dropLast, part = strip space whole := by
  induction parts using List.reverseRecOn with
  | nil => cases h
  | append_singleton parts last _ =>
      rw [List.dropLast_concat]
      rw [stripped_append, stripped_cons] at h
      split at h
      · apply mem_stripped
        rw [show stripped space ([] : List (List α)) = [] from rfl, List.append_nil] at h
        exact List.dropLast_subset _ h
      · rw [show stripped space ([] : List (List α)) = [] from rfl, List.dropLast_concat] at h
        exact mem_stripped h

theorem Rejoins.not_blank (h : Rejoins space (stripped space parts) t) (hne : stripped space parts ≠ []) :
    ¬ Blank space t := by
  intro hblank
  obtain ⟨part, hpart⟩ := List.exists_mem_of_ne_nil _ hne
  obtain ⟨hne, whole, -, rfl⟩ := mem_stripped hpart
  have hinked := h.inked_eq
  rw [inked_blank hblank, eq_comm, inked_eq_nil_iff] at hinked
  have hwhole : Blank space (strip space whole) := fun c hc =>
    hinked c (List.mem_flatten_of_mem hpart hc)
  rw [← inked_eq_nil_iff, inked_strip, inked_eq_nil_iff, ← strip_eq_nil_iff] at hwhole
  exact hne hwhole

end ShortReel.TextSpaces
