import Mathlib.Algebra.Order.BigOperators.Group.List
import Mathlib.Data.List.Chain
import Mathlib.Data.Rat.Floor
import ShortReel.TextSpaces

/-!
# Subtitle lines

`wrap_chinese` of `subtitles.py`. A text is cut into the parts that are not broken, and these fill
line after line. Widths are counted in halves of a body, and which characters are a whole body wide is
a parameter.
-/

namespace ShortReel.SubtitleLines

open TextSpaces

def noLineStart : Text :=
  [0xff0c, 0x3002, 0x3001, 0xff1b, 0xff1a, 0xff1f, 0xff01, 0x2026, 0x2025, 0xff09, 0x300d, 0x300f,
    0x201d, 0x2019, 0x300b, 0x3009, 0x3011, 0x3015, 0xff5d, 0xff3d, 0x3017, 0x2c, 0x2e, 0x3b, 0x3a,
    0x3f, 0x21, 0x29, 0x5d, 0x7d, 0x25, 0xb7, 0x30fb, 0x30fc, 0x301c, 0xff5e]

def noLineEnd : Text :=
  [0xff08, 0x300c, 0x300e, 0x201c, 0x2018, 0x300a, 0x3008, 0x3010, 0x3014, 0xff5b, 0xff3b, 0x3016,
    0x28, 0x5b, 0x7b]

section Model

variable (wide : ℕ → Bool)

/-- A whole body when the East Asian width of the character is wide or full. -/
def advance (c : ℕ) : ℕ :=
  if wide c then 2 else 1

def width (text : Text) : ℕ :=
  (text.map (advance wide)).sum

def joins (previous : Text) (c : ℕ) : Bool :=
  match previous.getLast? with
  | none => false
  | some last =>
      advance wide c < 2 ∧ advance wide last < 2 ∧ isSpace c = isSpace last ∧ c ∉ noLineStart

def addCharacter (tokens : List Text) (c : ℕ) : List Text :=
  match tokens.getLast? with
  | none => [[c]]
  | some previous =>
      if joins wide previous c then tokens.dropLast ++ [previous ++ [c]] else tokens ++ [[c]]

def tokensOf (text : Text) : List Text :=
  text.foldl (addCharacter wide) []

def addPiece (capacity : ℕ) (state : List Text × Text) (c : ℕ) : List Text × Text :=
  if state.2 ≠ [] ∧ capacity < width wide (state.2 ++ [c]) then (state.1 ++ [state.2], [c])
  else (state.1, state.2 ++ [c])

def splitOversized (token : Text) (capacity : ℕ) : List Text :=
  let (pieces, current) := token.foldl (addPiece wide capacity) ([], [])
  if current = [] then pieces else pieces ++ [current]

def cutTokens (text : Text) (capacity : ℕ) : List Text :=
  (tokensOf wide text).flatMap fun token =>
    if capacity < width wide token then splitOversized wide token capacity else [token]

/-- The characters that may not end a line are taken off its end, all but its first character. The
line is read from behind. -/
def carry : Text → Text → Text × Text
  | c :: next :: rest, carried =>
      if c ∈ noLineEnd then carry (next :: rest) (c :: carried)
      else ((c :: next :: rest).reverse, carried)
  | current, carried => (current.reverse, carried)

/-- `str.isspace`. -/
def isBlank (token : Text) : Bool :=
  token ≠ [] ∧ Blank isSpace token

def addToken (capacity : ℕ) (state : List Text × Text) (token : Text) : List Text × Text :=
  let (lines, current) := state
  if current = [] then (lines, if isBlank token then current else token)
  else if width wide (current ++ token) ≤ capacity ∨ (token.head?.any (· ∈ noLineStart)) then
    (lines, current ++ token)
  else
    let (kept, carried) := carry current.reverse []
    (lines ++ [rstrip isSpace kept], if isBlank token then carried else carried ++ token)

def capacityOf (lineCapacity : ℚ) : ℕ :=
  2 * (max ⌊lineCapacity⌋ 1).toNat

def wrapChinese (text : Text) (lineCapacity : ℚ) : List Text :=
  let capacity := capacityOf lineCapacity
  let (lines, current) :=
    (cutTokens wide (strip isSpace text) capacity).foldl (addToken wide capacity) ([], [])
  if current = [] then lines else lines ++ [rstrip isSpace current]

end Model

variable {wide : ℕ → Bool} {text token current : Text} {tokens : List Text} {capacity : ℕ}

theorem width_singleton_le (c : ℕ) : width wide [c] ≤ 2 := by
  simp only [width, advance, List.map_cons, List.map_nil, List.sum_cons, List.sum_nil]
  split <;> omega

def Joined (wide : ℕ → Bool) (last c : ℕ) : Prop :=
  wide last = false ∧ wide c = false ∧ isSpace c = isSpace last ∧ c ∉ noLineStart

theorem joins_concat {front : Text} {last c : ℕ} :
    joins wide (front ++ [last]) c = true ↔ Joined wide last c := by
  have hhalf : ∀ d, advance wide d < 2 ↔ wide d = false := by
    intro d
    cases hwide : wide d <;> simp [advance, hwide]
  rw [joins, List.getLast?_concat]
  simp only [hhalf, decide_eq_true_eq, Joined]
  tauto

structure Unbroken (wide : ℕ → Bool) (token : Text) : Prop where
  ne_nil : token ≠ []
  joined : token.IsChain (Joined wide)

theorem flatten_addCharacter (tokens : List Text) (c : ℕ) :
    (addCharacter wide tokens c).flatten = tokens.flatten ++ [c] := by
  induction tokens using List.reverseRecOn with
  | nil => rfl
  | append_singleton tokens previous _ =>
      rw [addCharacter, List.getLast?_concat]
      dsimp only
      split
      · simp
      · simp

theorem unbroken_addCharacter (h : ∀ token ∈ tokens, Unbroken wide token) (c : ℕ) :
    ∀ token ∈ addCharacter wide tokens c, Unbroken wide token := by
  have hsingle : Unbroken wide [c] := ⟨List.cons_ne_nil _ _, List.isChain_singleton c⟩
  induction tokens using List.reverseRecOn with
  | nil => exact List.forall_mem_singleton.mpr hsingle
  | append_singleton tokens previous _ =>
      obtain ⟨htokens, hprevious⟩ := List.forall_mem_append.mp h
      have hlast := hprevious previous List.mem_cons_self
      rw [addCharacter, List.getLast?_concat]
      dsimp only
      split
      · rename_i hjoins
        rw [List.dropLast_concat]
        refine List.forall_mem_append.mpr ⟨htokens, List.forall_mem_singleton.mpr ?_⟩
        obtain ⟨front, last, rfl⟩ := (List.eq_nil_or_concat' previous).resolve_left hlast.ne_nil
        refine ⟨by simp, List.isChain_append.mpr ⟨hlast.joined, List.isChain_singleton c, ?_⟩⟩
        intro x hx y hy
        rw [List.getLast?_concat] at hx
        cases hx
        cases hy
        exact joins_concat.mp hjoins
      · exact List.forall_mem_append.mpr ⟨h, List.forall_mem_singleton.mpr hsingle⟩

theorem tokensOf_spec (text : Text) :
    (tokensOf wide text).flatten = text ∧ ∀ token ∈ tokensOf wide text, Unbroken wide token := by
  induction text using List.reverseRecOn with
  | nil => exact ⟨rfl, by simp [tokensOf]⟩
  | append_singleton text c ih =>
      rw [tokensOf, List.foldl_append, List.foldl_cons, List.foldl_nil, ← tokensOf]
      exact ⟨by rw [flatten_addCharacter, ih.1], unbroken_addCharacter ih.2 c⟩

structure Pieces (wide : ℕ → Bool) (capacity : ℕ) (token : Text) (state : List Text × Text) :
    Prop where
  whole : state.1.flatten ++ state.2 = token
  ne_nil : [] ∉ state.1
  fits : ∀ piece ∈ state.1, width wide piece ≤ capacity
  currentFits : width wide state.2 ≤ capacity

theorem pieces_addPiece {state : List Text × Text} (hcapacity : 2 ≤ capacity)
    (h : Pieces wide capacity token state) (c : ℕ) :
    Pieces wide capacity (token ++ [c]) (addPiece wide capacity state c) := by
  have hsingle : width wide [c] ≤ capacity := (width_singleton_le c).trans hcapacity
  unfold addPiece
  split
  · rename_i hfull
    refine ⟨?_, ?_, ?_, hsingle⟩
    · rw [List.flatten_concat, h.whole]
    · rw [List.mem_append, List.mem_singleton, not_or]
      exact ⟨h.ne_nil, fun heq => hfull.1 heq.symm⟩
    · exact List.forall_mem_append.mpr ⟨h.fits, List.forall_mem_singleton.mpr h.currentFits⟩
  · rename_i hroom
    refine ⟨?_, h.ne_nil, h.fits, ?_⟩
    · rw [← List.append_assoc, h.whole]
    · rcases Classical.em (state.2 = []) with hnil | hne
      · rw [hnil]
        exact hsingle
      · exact Nat.not_lt.mp fun hlt => hroom ⟨hne, hlt⟩

theorem pieces_foldl (hcapacity : 2 ≤ capacity) (token : Text) :
    Pieces wide capacity token (token.foldl (addPiece wide capacity) ([], [])) := by
  induction token using List.reverseRecOn with
  | nil => exact ⟨rfl, List.not_mem_nil, by simp, Nat.zero_le _⟩
  | append_singleton token c ih =>
      rw [List.foldl_append]
      exact pieces_addPiece hcapacity ih c

structure Held (wide : ℕ → Bool) (capacity : ℕ) (token : Text) : Prop extends
    Unbroken wide token where
  fits : width wide token ≤ capacity

theorem splitOversized_spec (hcapacity : 2 ≤ capacity) (h : Unbroken wide token) :
    (splitOversized wide token capacity).flatten = token ∧
      ∀ piece ∈ splitOversized wide token capacity, Held wide capacity piece := by
  have hpieces := @pieces_foldl wide capacity hcapacity token
  have hflatten : (splitOversized wide token capacity).flatten = token := by
    unfold splitOversized
    dsimp only
    split
    · rename_i hnil
      have hwhole := hpieces.whole
      rwa [hnil, List.append_nil] at hwhole
    · rw [List.flatten_concat]
      exact hpieces.whole
  refine ⟨hflatten, fun piece hpiece => ?_⟩
  have hinfix : piece <:+: token := by
    have hin := List.infix_of_mem_flatten hpiece
    rwa [hflatten] at hin
  have hsmall : piece ≠ [] ∧ width wide piece ≤ capacity := by
    unfold splitOversized at hpiece
    dsimp only at hpiece
    split at hpiece
    · exact ⟨fun heq => hpieces.ne_nil (heq ▸ hpiece), hpieces.fits piece hpiece⟩
    · rename_i hsome
      rcases List.mem_append.mp hpiece with hdone | hlast
      · exact ⟨fun heq => hpieces.ne_nil (heq ▸ hdone), hpieces.fits piece hdone⟩
      · rw [List.mem_singleton.mp hlast]
        exact ⟨hsome, hpieces.currentFits⟩
  exact ⟨⟨hsmall.1, h.joined.infix hinfix⟩, hsmall.2⟩

theorem flatten_flatMap_of_cut {cut : Text → List Text} (h : ∀ token ∈ tokens, (cut token).flatten = token) :
    (tokens.flatMap cut).flatten = tokens.flatten := by
  induction tokens with
  | nil => rfl
  | cons token tokens ih =>
      obtain ⟨htoken, htokens⟩ := List.forall_mem_cons.mp h
      rw [List.flatMap_cons, List.flatten_append, htoken, ih htokens, List.flatten_cons]

theorem cutTokens_spec (hcapacity : 2 ≤ capacity) (text : Text) :
    (cutTokens wide text capacity).flatten = text ∧
      ∀ token ∈ cutTokens wide text capacity, Held wide capacity token := by
  obtain ⟨hflatten, htokens⟩ := @tokensOf_spec wide text
  have hone : ∀ token ∈ tokensOf wide text,
      (if capacity < width wide token then splitOversized wide token capacity else [token]).flatten =
        token ∧
      ∀ piece ∈ (if capacity < width wide token then splitOversized wide token capacity
        else [token]), Held wide capacity piece := by
    intro token htoken
    split
    · exact splitOversized_spec hcapacity (htokens token htoken)
    · rename_i hfits
      refine ⟨List.flatten_singleton, List.forall_mem_singleton.mpr ?_⟩
      exact ⟨htokens token htoken, Nat.not_lt.mp hfits⟩
  constructor
  · rw [cutTokens, flatten_flatMap_of_cut fun token htoken => (hone token htoken).1, hflatten]
  · intro piece hpiece
    obtain ⟨token, htoken, hmem⟩ := List.mem_flatMap.mp hpiece
    exact (hone token htoken).2 piece hmem

theorem two_le_capacityOf (lineCapacity : ℚ) : 2 ≤ capacityOf lineCapacity := by
  have hone : 1 ≤ (max ⌊lineCapacity⌋ 1).toNat := by omega
  unfold capacityOf
  omega

/-- What is carried over may not end a line, and what is kept does not end with such a character
unless nothing else is left. -/
structure Carried (current kept carried : Text) : Prop where
  whole : kept ++ carried = current
  opening : ∀ c ∈ carried, c ∈ noLineEnd
  kept_ne_nil : kept ≠ []
  kept_last : 1 < kept.length → ∀ c ∈ kept.getLast?, c ∉ noLineEnd

theorem carry_carried (hcurrent : current ≠ []) {carried : Text}
    (hcarried : ∀ c ∈ carried, c ∈ noLineEnd) :
    Carried (current.reverse ++ carried) (carry current carried).1 (carry current carried).2 := by
  induction current generalizing carried with
  | nil => exact absurd rfl hcurrent
  | cons c rest ih =>
      cases rest with
      | nil => exact ⟨rfl, hcarried, List.cons_ne_nil _ _, fun h => absurd h (Nat.lt_irrefl 1)⟩
      | cons next rest =>
          rw [carry]
          split
          · rename_i hc
            have hnext := ih (List.cons_ne_nil _ _) (List.forall_mem_cons.mpr ⟨hc, hcarried⟩)
            rwa [List.reverse_cons, List.append_assoc, List.singleton_append]
          · rename_i hc
            refine ⟨rfl, hcarried, by simp, fun _ last hlast => ?_⟩
            rw [List.getLast?_reverse] at hlast
            cases hlast
            exact hc

theorem Unbroken.homogeneous (h : Unbroken wide token) :
    isBlank token = true ∨ ∀ c ∈ token, isSpace c = false := by
  obtain ⟨hne, hjoined⟩ := h
  induction token with
  | nil => exact absurd rfl hne
  | cons c rest ih =>
      cases rest with
      | nil =>
          cases hc : isSpace c with
          | false => exact .inr (List.forall_mem_singleton.mpr hc)
          | true => exact .inl (by simp [isBlank, Blank, hc])
      | cons next rest =>
          obtain ⟨hfirst, hrest⟩ := List.isChain_cons_cons.mp hjoined
          rcases ih (List.cons_ne_nil _ _) hrest with hblank | hinked
          · refine .inl ?_
            have hblank := (of_decide_eq_true hblank).2
            have hc : isSpace c = true := hfirst.2.2.1.symm.trans (hblank next List.mem_cons_self)
            exact decide_eq_true ⟨hne, List.forall_mem_cons.mpr ⟨hc, hblank⟩⟩
          · have hc : isSpace c = false := hfirst.2.2.1.symm.trans (hinked next List.mem_cons_self)
            exact .inr (List.forall_mem_cons.mpr ⟨hc, hinked⟩)

inductive Wraps (wide : ℕ → Bool) (capacity : ℕ) : Text → List Text → List Text → Prop
  | done : Wraps wide capacity [] [] []
  | last {current : Text} (hcurrent : current ≠ []) :
      Wraps wide capacity current [] [rstrip isSpace current]
  | skip {token : Text} {tokens lines : List Text} (hblank : isBlank token = true)
      (h : Wraps wide capacity [] tokens lines) : Wraps wide capacity [] (token :: tokens) lines
  | start {token : Text} {tokens lines : List Text} (hblank : isBlank token = false)
      (h : Wraps wide capacity token tokens lines) : Wraps wide capacity [] (token :: tokens) lines
  | extend {current token : Text} {tokens lines : List Text} (hcurrent : current ≠ [])
      (hfits : width wide (current ++ token) ≤ capacity ∨ ∃ c ∈ token.head?, c ∈ noLineStart)
      (h : Wraps wide capacity (current ++ token) tokens lines) :
      Wraps wide capacity current (token :: tokens) lines
  | close {current kept carried token : Text} {tokens lines : List Text}
      (hcarried : Carried current kept carried) (hhead : ∀ c ∈ token.head?, c ∉ noLineStart)
      (h : Wraps wide capacity (if isBlank token then carried else carried ++ token) tokens lines) :
      Wraps wide capacity current (token :: tokens) (rstrip isSpace kept :: lines)

def finish (state : List Text × Text) : List Text :=
  if state.2 = [] then state.1 else state.1 ++ [rstrip isSpace state.2]

theorem wraps_foldl (tokens lines : List Text) (current : Text) :
    ∃ later, finish (tokens.foldl (addToken wide capacity) (lines, current)) = lines ++ later ∧
      Wraps wide capacity current tokens later := by
  induction tokens generalizing lines current with
  | nil =>
      rcases eq_or_ne current [] with rfl | hcurrent
      · exact ⟨[], (List.append_nil lines).symm, .done⟩
      · exact ⟨[rstrip isSpace current], if_neg hcurrent, .last hcurrent⟩
  | cons token tokens ih =>
      rw [List.foldl_cons, addToken]
      dsimp only
      split
      · rename_i hnil
        subst hnil
        cases hblank : isBlank token with
        | true =>
            obtain ⟨later, heq, hlater⟩ := ih lines []
            exact ⟨later, heq, .skip hblank hlater⟩
        | false =>
            obtain ⟨later, heq, hlater⟩ := ih lines token
            exact ⟨later, heq, .start hblank hlater⟩
      · rename_i hcurrent
        split
        · rename_i hfits
          obtain ⟨later, heq, hlater⟩ := ih lines (current ++ token)
          refine ⟨later, heq, .extend hcurrent (hfits.imp_right fun hhead => ?_) hlater⟩
          obtain ⟨c, hc, hstart⟩ := (Option.any_eq_true _ _).mp hhead
          exact ⟨c, hc, of_decide_eq_true hstart⟩
        · rename_i hwide
          have hhead : ∀ c ∈ token.head?, c ∉ noLineStart := fun c hc hstart =>
            hwide (.inr ((Option.any_eq_true _ _).mpr ⟨c, hc, decide_eq_true hstart⟩))
          have hcarried := carry_carried (mt List.reverse_eq_nil_iff.mp hcurrent)
            (List.forall_mem_nil fun c => c ∈ noLineEnd)
          rw [List.reverse_reverse, List.append_nil] at hcarried
          obtain ⟨later, heq, hlater⟩ := ih (lines ++ [rstrip isSpace (carry current.reverse []).1])
            (if isBlank token then (carry current.reverse []).2
              else (carry current.reverse []).2 ++ token)
          rw [List.append_assoc, List.singleton_append] at heq
          exact ⟨_, heq, .close hcarried hhead hlater⟩

theorem wraps_wrapChinese (text : Text) (lineCapacity : ℚ) :
    Wraps wide (capacityOf lineCapacity) []
      (cutTokens wide (strip isSpace text) (capacityOf lineCapacity))
      (wrapChinese wide text lineCapacity) := by
  obtain ⟨later, heq, hlater⟩ := @wraps_foldl wide (capacityOf lineCapacity)
    (cutTokens wide (strip isSpace text) (capacityOf lineCapacity)) [] []
  rw [List.nil_append] at heq
  rw [← heq] at hlater
  exact hlater

end ShortReel.SubtitleLines
