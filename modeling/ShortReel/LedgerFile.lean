import ShortReel.EpisodeLedger

/-!
# The ledger as it is stored

`project.json` before anything is known of its shape: the value of `episodes` may be any JSON value,
and so may the recorded high-water mark. Strings are Unicode, and a missing key is null.
-/

namespace ShortReel.LedgerFile

open EpisodeLedger

inductive Json where
  | null
  | bool (value : Bool)
  | int (value : ℤ)
  | float (text : String)
  | string (text : String)
  | list (items : List Json)
  | object (fields : List (String × Json))

abbrev Fields := List (String × Json)

section Fields

variable {α : Type}

/-- `get` of a dictionary. -/
def getField (fields : Fields) (key : String) : Json :=
  (fields.lookup key).getD .null

/-- `pop` with a default. -/
def popField (fields : List (String × α)) (key : String) : List (String × α) :=
  fields.filter (·.1 ≠ key)

/-- `fields[key] = value`. -/
def setField : List (String × α) → String → α → List (String × α)
  | [], key, value => [(key, value)]
  | field :: fields, key, value =>
      if field.1 = key then (key, value) :: fields else field :: setField fields key value

end Fields

def decimalZeros : List ℕ :=
  [0x30, 0x660, 0x6f0, 0x7c0, 0x966, 0x9e6, 0xa66, 0xae6, 0xb66, 0xbe6, 0xc66, 0xce6, 0xd66,
    0xde6, 0xe50, 0xed0, 0xf20, 0x1040, 0x1090, 0x17e0, 0x1810, 0x1946, 0x19d0, 0x1a80, 0x1a90,
    0x1b50, 0x1bb0, 0x1c40, 0x1c50, 0xa620, 0xa8d0, 0xa900, 0xa9d0, 0xa9f0, 0xaa50, 0xabf0,
    0xff10, 0x104a0, 0x10d30, 0x11066, 0x110f0, 0x11136, 0x111d0, 0x112f0, 0x11450, 0x114d0,
    0x11650, 0x116c0, 0x11730, 0x118e0, 0x11950, 0x11c50, 0x11d50, 0x11da0, 0x11f50, 0x16a60,
    0x16ac0, 0x16b50, 0x1d7ce, 0x1d7d8, 0x1d7e2, 0x1d7ec, 0x1d7f6, 0x1e140, 0x1e2f0, 0x1e4f0,
    0x1e950, 0x1fbf0]

def decimal (c : Char) : Option ℕ :=
  (decimalZeros.find? fun first => first ≤ c.toNat ∧ c.toNat < first + 10).map (c.toNat - ·)

def maxStrDigits : ℕ := 4300

/-- `isdigit`, then `int`, which takes decimal digits only, and not too many of them. -/
def parseDigits (text : String) : Option ℕ :=
  if text = "" ∨ maxStrDigits < text.length then none
  else text.toList.foldlM (fun value c => (decimal c).map (10 * value + ·)) 0

def parseEpisodeNum : Json → Option ℤ
  | .int value => some value
  | .string text => (parseDigits text).map (↑)
  | _ => none

def parsePositiveEpisodeNum (value : Json) : Option ℕ :=
  (parseEpisodeNum value).bind fun num => if 0 < num then some num.toNat else none

def fieldsOf : Json → Option Fields
  | .object fields => some fields
  | _ => none

def ledgerEntries : Json → List Fields
  | .list items => items.filterMap fieldsOf
  | _ => []

def parseSourceOrigin : Json → Option SourceOrigin
  | .string text =>
      if text = "whole_source" then some .wholeSource
      else if text = "own" then some .own
      else if text = "none" then some .none
      else none
  | _ => none

def isNull : Json → Bool
  | .null => true
  | _ => false

def episodeSourceOrigin (entry : Fields) : SourceOrigin :=
  match parseSourceOrigin (getField entry "source_origin") with
  | some origin => origin
  | none => if isNull (getField entry "source_range") then .none else .wholeSource

def isCutEpisode (entry : Fields) : Bool :=
  episodeSourceOrigin entry = .wholeSource

def isString : Json → Bool
  | .string _ => true
  | _ => false

def isInt : Json → Bool
  | .int _ => true
  | _ => false

/-- Whether `parse_source_range` finds a range. Without an `end_file` the range ends in its file. -/
def hasSourceRange (entry : Fields) : Bool :=
  match getField entry "source_range" with
  | .object range =>
      isString (getField range "source_file") && isInt (getField range "start") &&
        isInt (getField range "end") &&
        (range.lookup "end_file").all isString
  | _ => false

structure ProjectFile (Rest : Type) where
  episodes : Json
  highWater : Json
  rest : Rest

variable {Rest : Type}

namespace ProjectFile

variable (project : ProjectFile Rest)

def ledgerEpisodeIds : List ℕ :=
  (ledgerEntries project.episodes).filterMap fun entry => parsePositiveEpisodeNum (getField entry "episode")

def storedHighWater : ℕ :=
  match project.highWater with
  | .int value => value.toNat
  | _ => 0

def episodeIdHighWater : ℕ :=
  project.ledgerEpisodeIds.foldl max project.storedHighWater

def raiseEpisodeIdHighWater (recorded : List ℕ) : ProjectFile Rest :=
  let highWater := recorded.foldl max project.episodeIdHighWater
  if project.storedHighWater < highWater then { project with highWater := .int highWater }
  else project

def allocateEpisodeIds (count : ℕ) : List ℕ × ProjectFile Rest :=
  let ids := List.range' (project.episodeIdHighWater + 1) count
  match ids.getLast? with
  | some last => (ids, project.raiseEpisodeIdHighWater [last])
  | none => (ids, project)

end ProjectFile

end ShortReel.LedgerFile
