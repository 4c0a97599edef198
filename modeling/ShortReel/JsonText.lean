import Mathlib.Data.Nat.Digits.Lemmas
import ShortReel.InsertionDict

/-!
# JSON as it is written

Texts are lists of code points, lone surrogates among them. `dumps` writes a value the way Python's
encoder does with `ensure_ascii=False`: every character as it is, but quotes, backslashes and control
characters, whose escapes are up to six characters long.
-/

namespace ShortReel.JsonText

abbrev Text := List ℕ

def text (literal : String) : Text :=
  literal.toList.map Char.toNat

inductive Json (F : Type) where
  | null
  | bool (value : Bool)
  | int (value : ℤ)
  | float (value : F)
  | string (value : Text)
  | list (items : List (Json F))
  | object (fields : List (Text × Json F))

abbrev Fields (F : Type) := List (Text × Json F)

section Values

variable {F : Type}

/-- Induction over values, with the hypothesis for every item and every field. -/
@[elab_as_elim]
theorem Json.induct {P : Json F → Prop} (value : Json F) (null : P .null)
    (bool : ∀ value, P (.bool value)) (int : ∀ value, P (.int value))
    (float : ∀ value, P (.float value)) (string : ∀ value, P (.string value))
    (list : ∀ items, (∀ item ∈ items, P item) → P (.list items))
    (object : ∀ fields, (∀ field ∈ fields, P field.2) → P (.object fields)) : P value :=
  @Json.rec F P (fun items => ∀ item ∈ items, P item)
    (fun fields => ∀ field ∈ fields, P field.2) (fun field => P field.2) null bool int float string
    list object (by simp) (fun _ _ hitem hitems => List.forall_mem_cons.mpr ⟨hitem, hitems⟩)
    (by simp) (fun _ _ hfield hfields => List.forall_mem_cons.mpr ⟨hfield, hfields⟩)
    (fun _ _ hvalue => hvalue) value

end Values

def hexDigit (value : ℕ) : ℕ :=
  if value < 10 then 48 + value else 87 + value

def escapeChar (c : ℕ) : Text :=
  if c = 34 then [92, 34]
  else if c = 92 then [92, 92]
  else if c = 10 then [92, 110]
  else if c = 13 then [92, 114]
  else if c = 9 then [92, 116]
  else if c = 8 then [92, 98]
  else if c = 12 then [92, 102]
  else if c < 32 then [92, 117, 48, 48, hexDigit (c / 16), hexDigit (c % 16)]
  else [c]

def escape (value : Text) : Text :=
  value.flatMap escapeChar

def quote (value : Text) : Text :=
  34 :: escape value ++ [34]

def decimal (n : ℕ) : Text :=
  if n = 0 then [48] else ((Nat.digits 10 n).map (48 + ·)).reverse

def intText : ℤ → Text
  | .ofNat n => decimal n
  | .negSucc n => 45 :: decimal (n + 1)

def commas : List Text → Text
  | [] => []
  | [part] => part
  | part :: parts => part ++ 44 :: 32 :: commas parts

section Dumps

variable {F : Type} (floatText : F → Text)

mutual

def dumps : Json F → Text
  | .null => text "null"
  | .bool true => text "true"
  | .bool false => text "false"
  | .int value => intText value
  | .float value => floatText value
  | .string value => quote value
  | .list items => 91 :: commas (dumpsItems items) ++ [93]
  | .object fields => 123 :: commas (dumpsFields fields) ++ [125]

def dumpsItems : List (Json F) → List Text
  | [] => []
  | item :: items => dumps item :: dumpsItems items

def dumpsFields : List (Text × Json F) → List Text
  | [] => []
  | (key, value) :: fields => (quote key ++ 58 :: 32 :: dumps value) :: dumpsFields fields

end

theorem dumpsItems_eq (items : List (Json F)) :
    dumpsItems floatText items = items.map (dumps floatText) := by
  induction items with
  | nil => rfl
  | cons item items ih => rw [dumpsItems, ih, List.map_cons]

theorem dumpsFields_eq (fields : List (Text × Json F)) :
    dumpsFields floatText fields =
      fields.map fun field => quote field.1 ++ 58 :: 32 :: dumps floatText field.2 := by
  induction fields with
  | nil => rfl
  | cons field fields ih => rw [dumpsFields, ih, List.map_cons]

end Dumps

section Sorting

variable {F : Type}

mutual

/-- The value `sort_keys=True` writes. -/
def sortKeys : Json F → Json F
  | .list items => .list (sortItems items)
  | .object fields => .object ((sortFields fields).insertionSort fun a b => a.1 ≤ b.1)
  | .null => .null
  | .bool value => .bool value
  | .int value => .int value
  | .float value => .float value
  | .string value => .string value

def sortItems : List (Json F) → List (Json F)
  | [] => []
  | item :: items => sortKeys item :: sortItems items

def sortFields : List (Text × Json F) → List (Text × Json F)
  | [] => []
  | (key, value) :: fields => (key, sortKeys value) :: sortFields fields

end

theorem sortItems_eq (items : List (Json F)) : sortItems items = items.map sortKeys := by
  induction items with
  | nil => rfl
  | cons item items ih => rw [sortItems, ih, List.map_cons]

theorem sortFields_eq (fields : List (Text × Json F)) :
    sortFields fields = fields.map fun field => (field.1, sortKeys field.2) := by
  induction fields with
  | nil => rfl
  | cons field fields ih => rw [sortFields, ih, List.map_cons]

end Sorting

theorem length_commas (parts : List Text) :
    (commas parts).length = (parts.map List.length).sum + 2 * (parts.length - 1) := by
  induction parts with
  | nil => rfl
  | cons part parts ih =>
      cases parts with
      | nil => simp [commas]
      | cons other parts =>
          rw [commas]
          · simp only [List.length_append, List.length_cons, List.map_cons, List.sum_cons] at ih ⊢
            omega
          · simp

def escapedLength (value : Text) : ℕ :=
  (value.map fun c => (escapeChar c).length).sum

theorem length_escape (value : Text) : (escape value).length = escapedLength value := by
  rw [escape, escapedLength, List.length_flatMap]

theorem length_quote (value : Text) : (quote value).length = escapedLength value + 2 := by
  rw [quote, List.cons_append, List.length_cons, List.length_append, length_escape]
  rfl

theorem one_le_length_escapeChar (c : ℕ) : 1 ≤ (escapeChar c).length := by
  unfold escapeChar
  split_ifs <;> simp

theorem length_escapeChar_le (c : ℕ) : (escapeChar c).length ≤ 6 := by
  unfold escapeChar
  split_ifs <;> simp

theorem escapedLength_append (left right : Text) :
    escapedLength (left ++ right) = escapedLength left + escapedLength right := by
  simp [escapedLength]

theorem length_le_escapedLength (value : Text) : value.length ≤ escapedLength value := by
  induction value with
  | nil => exact Nat.le_refl _
  | cons c value ih =>
      have hchar := one_le_length_escapeChar c
      simp only [escapedLength, List.map_cons, List.sum_cons, List.length_cons] at ih ⊢
      omega

theorem escapedLength_le (value : Text) : escapedLength value ≤ 6 * value.length := by
  induction value with
  | nil => exact Nat.le_refl _
  | cons c value ih =>
      have hchar := length_escapeChar_le c
      simp only [escapedLength, List.map_cons, List.sum_cons, List.length_cons] at ih ⊢
      omega

end ShortReel.JsonText
