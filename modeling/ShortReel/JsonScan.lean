import ShortReel.JsonText

/-!
# JSON as it is read

`loads` follows Python's scanner in its strict mode: strings refuse raw control characters, escaped
halves of a surrogate pair are joined, and values may not nest too deep.
-/

namespace ShortReel.JsonText

open InsertionDict

/-- The floats of the interpreter: how a numeral is read, and what `json` writes for a value. -/
structure Floats (F : Type) where
  ofNumeral : Text → F
  nan : F
  infinity : F
  negInfinity : F
  toText : F → Text

def maxStrDigits : ℕ := 4300

def hexValue (c : ℕ) : Option ℕ :=
  if 48 ≤ c ∧ c ≤ 57 then some (c - 48)
  else if 97 ≤ c ∧ c ≤ 102 then some (c - 87)
  else if 65 ≤ c ∧ c ≤ 70 then some (c - 55)
  else none

def hexValues (w x y z : ℕ) : Option ℕ :=
  match hexValue w, hexValue x, hexValue y, hexValue z with
  | some w, some x, some y, some z => some (4096 * w + 256 * x + 16 * y + z)
  | _, _, _, _ => none

def shortEscape (c : ℕ) : Option ℕ :=
  if c = 34 ∨ c = 92 ∨ c = 47 then some c
  else if c = 98 then some 8
  else if c = 102 then some 12
  else if c = 110 then some 10
  else if c = 114 then some 13
  else if c = 116 then some 9
  else none

abbrev StringUnit := Bool × ℕ

def scanUnits : Text → Option (List StringUnit × Text)
  | [] => none
  | c :: rest =>
      if c = 34 then some ([], rest)
      else if c = 92 then
        match rest with
        | [] => none
        | letter :: rest =>
            if letter = 117 then
              match rest with
              | w :: x :: y :: z :: rest =>
                  match hexValues w x y z with
                  | none => none
                  | some value => (scanUnits rest).map fun read => ((true, value) :: read.1, read.2)
              | _ => none
            else
              match shortEscape letter with
              | none => none
              | some value => (scanUnits rest).map fun read => ((false, value) :: read.1, read.2)
      else if c < 32 then none
      else (scanUnits rest).map fun read => ((false, c) :: read.1, read.2)

def isHighHalf (unit : StringUnit) : Bool :=
  unit.1 && decide (0xd800 ≤ unit.2) && decide (unit.2 < 0xdc00)

def isLowHalf (unit : StringUnit) : Bool :=
  unit.1 && decide (0xdc00 ≤ unit.2) && decide (unit.2 < 0xe000)

/-- An escaped high half takes the escaped low half right behind it. -/
def joinHalves : List StringUnit → Text
  | [] => []
  | [unit] => [unit.2]
  | unit :: next :: units =>
      if isHighHalf unit && isLowHalf next then
        (0x10000 + (unit.2 - 0xd800) * 0x400 + (next.2 - 0xdc00)) :: joinHalves units
      else unit.2 :: joinHalves (next :: units)

def scanString (t : Text) : Option (Text × Text) :=
  (scanUnits t).map fun read => (joinHalves read.1, read.2)

def isDigit (c : ℕ) : Bool :=
  decide (48 ≤ c) && decide (c ≤ 57)

def splitSign : Text → Text × Text
  | 45 :: t => ([45], t)
  | t => ([], t)

def splitWhole : Text → Option (Text × Text)
  | [] => none
  | c :: t =>
      if c = 48 then some ([48], t)
      else if isDigit c then some (c :: t.takeWhile isDigit, t.dropWhile isDigit)
      else none

def splitFraction (t : Text) : Text × Text :=
  match t with
  | 46 :: digit :: t' =>
      if isDigit digit then (46 :: digit :: t'.takeWhile isDigit, t'.dropWhile isDigit) else ([], t)
  | _ => ([], t)

def splitPower : Text → Text × Text
  | 43 :: t => (43 :: t.takeWhile isDigit, t.dropWhile isDigit)
  | 45 :: t => (45 :: t.takeWhile isDigit, t.dropWhile isDigit)
  | t => (t.takeWhile isDigit, t.dropWhile isDigit)

def splitExponent (t : Text) : Text × Text :=
  match t with
  | e :: t' =>
      if (e = 101 ∨ e = 69) ∧ (splitPower t').1.any isDigit then
        (e :: (splitPower t').1, (splitPower t').2)
      else ([], t)
  | [] => ([], [])

def ofDecimal (digits : Text) : ℕ :=
  digits.foldl (fun value digit => 10 * value + (digit - 48)) 0

def signed (sign : Text) (magnitude : ℕ) : ℤ :=
  if sign = [] then magnitude else -magnitude

section Scanning

variable {F : Type} (floats : Floats F)

def scanNumber (t : Text) : Option (Json F × Text) :=
  let (sign, t) := splitSign t
  match splitWhole t with
  | none => none
  | some (whole, t) =>
      let (fraction, t) := splitFraction t
      let (exponent, t) := splitExponent t
      if fraction ++ exponent = [] then
        if maxStrDigits < whole.length then none
        else some (.int (signed sign (ofDecimal whole)), t)
      else some (.float (floats.ofNumeral (sign ++ whole ++ fraction ++ exponent)), t)

def words : List (Text × Json F) :=
  [(text "null", .null), (text "true", .bool true), (text "false", .bool false),
    (text "NaN", .float floats.nan), (text "Infinity", .float floats.infinity),
    (text "-Infinity", .float floats.negInfinity)]

def afterWord (word t : Text) : Option Text :=
  if word <+: t then some (t.drop word.length) else none

def scanScalar (t : Text) : Option (Json F × Text) :=
  match (words floats).findSome? fun word => (afterWord word.1 t).map fun t => (word.2, t) with
  | some read => some read
  | none => scanNumber floats t

def isSpace (c : ℕ) : Bool :=
  c = 32 ∨ c = 9 ∨ c = 10 ∨ c = 13

def skipSpace (t : Text) : Text :=
  t.dropWhile isSpace

/-- Elements up to the closing bracket. Each takes a character at least, so that the length of the
text bounds the rounds. -/
def scanElements {α : Type} (close : ℕ) (element : Text → Option (α × Text)) :
    ℕ → Text → Option (List α × Text)
  | 0, _ => none
  | rounds + 1, t =>
      match element t with
      | none => none
      | some (item, t) =>
          match skipSpace t with
          | [] => none
          | c :: t =>
              if c = close then some ([item], t)
              else if c = 44 then
                (scanElements close element rounds (skipSpace t)).map fun read =>
                  (item :: read.1, read.2)
              else none

def scanGroup {α : Type} (close : ℕ) (element : Text → Option (α × Text)) (t : Text) :
    Option (List α × Text) :=
  match skipSpace t with
  | [] => none
  | c :: t => if c = close then some ([], t) else scanElements close element (t.length + 1) (c :: t)

def scanField (element : Text → Option (Json F × Text)) :
    Text → Option ((Text × Json F) × Text)
  | [] => none
  | c :: t =>
      if c = 34 then
        match scanString t with
        | none => none
        | some (key, t) =>
            match skipSpace t with
            | [] => none
            | c :: t =>
                if c = 58 then (element (skipSpace t)).map fun read => ((key, read.1), read.2)
                else none
      else none

/-- `scan_once`, within `depth` nested containers. -/
def scanOnce : ℕ → Text → Option (Json F × Text)
  | _, [] => none
  | 0, c :: t =>
      if c = 34 then (scanString t).map fun read => (.string read.1, read.2)
      else if c = 123 ∨ c = 91 then none
      else scanScalar floats (c :: t)
  | depth + 1, c :: t =>
      if c = 34 then (scanString t).map fun read => (.string read.1, read.2)
      else if c = 123 then
        (scanGroup 125 (scanField (scanOnce depth)) t).map fun read =>
          (.object (ofItems read.1), read.2)
      else if c = 91 then
        (scanGroup 93 (scanOnce depth) t).map fun read => (.list read.1, read.2)
      else scanScalar floats (c :: t)

/-- `json.loads`, where no value stands for its `ValueError` or `RecursionError`. -/
def loads (maxDepth : ℕ) (t : Text) : Option (Json F) :=
  match scanOnce floats maxDepth (skipSpace t) with
  | some (value, rest) => if skipSpace rest = [] then some value else none
  | none => none

end Scanning

end ShortReel.JsonText
