import ShortReel.Doubles
import ShortReel.TextSpaces

/-!
# Sizes of a ratio

`aspect_size` of `aspect_size.py`: the size of a ratio whose short side is nearest to a target, within
the bounds of a backend. Which characters beyond ASCII are decimal digits is a parameter.
-/

namespace ShortReel.AspectSize

open Doubles TextSpaces

section Model

variable (decimal : ℕ → Option ℕ)

/-- The spaces that `int` takes off: of ASCII only those of C. -/
def intSpace (c : ℕ) : Bool :=
  (9 ≤ c ∧ c ≤ 13) ∨ c = 32 ∨ (127 ≤ c ∧ isSpace c)

def digitOf (c : ℕ) : Option ℕ :=
  if 48 ≤ c ∧ c ≤ 57 then some (c - 48) else if 127 ≤ c then decimal c else none

def digitsOf : (behindDigit : Bool) → Text → Option (List ℕ)
  | behindDigit, [] => if behindDigit then some [] else none
  | behindDigit, c :: rest =>
      if c = 0x5f then if behindDigit then digitsOf false rest else none
      else
        match digitOf decimal c with
        | some digit => (digitsOf true rest).map (digit :: ·)
        | none => none

/-- `int` of a text, which takes no more than 4300 digits. -/
def intOf (text : Text) : Option ℤ :=
  let body := strip intSpace text
  let (negative, numeral) :=
    match body with
    | 0x2d :: rest => (true, rest)
    | 0x2b :: rest => (false, rest)
    | _ => (false, body)
  match digitsOf decimal false numeral with
  | some digits =>
      let magnitude : ℤ := (digits.foldl (fun value digit => 10 * value + digit) 0 : ℕ)
      if 4300 < digits.length then none else some (if negative then -magnitude else magnitude)
  | none => none

/-- `_RATIO_SEP_RE`. -/
def isRatioSep (c : ℕ) : Bool :=
  c = 0x3a ∨ c = 0xff1a

def defaultAspect : ℕ × ℕ :=
  (9, 16)

def requestedRatio (aspectRatio : Text) : Option (ℕ × ℕ) :=
  match (strip isSpace aspectRatio).splitOnP isRatioSep with
  | [first, second] =>
      match intOf decimal first, intOf decimal second with
      | some aw, some ah => if aw ≤ 0 ∨ ah ≤ 0 then none else some (aw.toNat, ah.toNat)
      | _, _ => none
  | _ => none

def parseAspectRatio (aspectRatio : Text) : ℕ × ℕ :=
  match requestedRatio decimal aspectRatio with
  | some (aw, ah) => (aw / aw.gcd ah, ah / aw.gcd ah)
  | none => defaultAspect

inductive AspectError where
  | arithmetic (error : ArithmeticError)
  | negativeSquareRoot
  deriving DecidableEq, Repr

def isqrt (n : ℤ) : Except AspectError ℤ :=
  if n < 0 then .error .negativeSquareRoot else .ok n.toNat.sqrt

def divide (dividend divisor : ℤ) : Except AspectError ℚ :=
  (trueDiv dividend divisor).mapError .arithmetic

/-- The ratio is only compared with its bound to warn, but both quotients are computed. -/
def checkRatio (aw ah : ℕ) (maxRatio : Option ℚ) : Except AspectError Unit :=
  match maxRatio with
  | some _ => do
      let _ ← divide aw ah
      let _ ← divide ah aw
      return ()
  | none => return ()

def boundLongEdge (longUnit : ℕ) (maxLongEdge : Option ℤ) (t : ℤ) : ℤ :=
  match maxLongEdge with
  | some edge => min t (max 1 (edge / longUnit))
  | none => t

def boundTotalPixels (denom : ℕ) (maxTotalPixels : Option ℤ) (t : ℤ) : Except AspectError ℤ :=
  match maxTotalPixels with
  | some pixels => do
      let maxPixels ← if 0 < denom then isqrt (pixels / denom) else .ok 0
      return min t (max 1 maxPixels)
  | none => return t

def aspectSize (aspectRatio : Text) (shortEdge : ℤ) (roundTo : ℕ) (maxLongEdge maxTotalPixels : Option ℤ)
    (maxRatio : Option ℚ) : Except AspectError (ℤ × ℤ) := do
  let (aw, ah) := parseAspectRatio decimal aspectRatio
  checkRatio aw ah maxRatio
  let shortUnit := roundTo * min aw ah
  let quotient ← divide shortEdge shortUnit
  let t := boundLongEdge (roundTo * max aw ah) maxLongEdge (max 1 (halfEven quotient))
  let t ← boundTotalPixels (aw * ah * roundTo * roundTo) maxTotalPixels t
  return (aw * roundTo * max 1 t, ah * roundTo * max 1 t)

end Model

end ShortReel.AspectSize
