import ShortReel.EditScripts

/-!
# Text alignment

`source_remap.py`: the alignment of a text before and after a change. The matcher is Python's; what is
taken of it is what its documentation says of the matching blocks.
-/

namespace ShortReel.SourceAlignment

open EditScripts

abbrev Text := List Char

/-- `(i, j, n)`: the slices of length `n` at `i` and `j` are the same. -/
structure Block where
  i : ℕ
  j : ℕ
  size : ℕ
  deriving DecidableEq, Repr

/-- The blocks match, go forward in either list without overlap, and end with the dummy, the only
one that is empty. -/
structure Matching {α : Type} (a b : List α) (blocks : List Block) : Prop where
  matched : ∀ block ∈ blocks,
    slice a block.i (block.i + block.size) = slice b block.j (block.j + block.size)
  ordered : blocks.IsChain fun first second =>
    first.i + first.size ≤ second.i ∧ first.j + first.size ≤ second.j
  dummy : ∃ front, blocks = front ++ [⟨a.length, b.length, 0⟩] ∧ ∀ block ∈ front, block.size ≠ 0

/-- `difflib.SequenceMatcher`, without junk. -/
structure SequenceMatcher where
  getMatchingBlocks : {α : Type} → [DecidableEq α] → List α → List α → List Block
  matching : ∀ {α : Type} [DecidableEq α] (a b : List α), Matching a b (getMatchingBlocks a b)

def gapOpcodes (i j : ℕ) (block : Block) : List Opcode :=
  if i < block.i ∧ j < block.j then [⟨.replace, i, block.i, j, block.j⟩]
  else if i < block.i then [⟨.delete, i, block.i, j, block.j⟩]
  else if j < block.j then [⟨.insert, i, block.i, j, block.j⟩]
  else []

def blockOpcodes (block : Block) : List Opcode :=
  if block.size = 0 then []
  else [⟨.equal, block.i, block.i + block.size, block.j, block.j + block.size⟩]

def opcodesFrom : ℕ → ℕ → List Block → List Opcode
  | _, _, [] => []
  | i, j, block :: blocks =>
      gapOpcodes i j block ++ (blockOpcodes block ++
        opcodesFrom (block.i + block.size) (block.j + block.size) blocks)

def SequenceMatcher.getOpcodes {α : Type} [DecidableEq α] (matcher : SequenceMatcher)
    (a b : List α) : List Opcode :=
  opcodesFrom 0 0 (matcher.getMatchingBlocks a b)

structure TextAlignment where
  opcodes : List Opcode
  oldLength : ℕ
  newLength : ℕ
  deriving DecidableEq, Repr

def TextAlignment.mapPosition (alignment : TextAlignment) (position : ℕ) (afterInsertions : Bool) :
    ℕ :=
  match alignment.opcodes.find? fun op => op.tag = .insert ∧ op.i1 = position with
  | some op => if afterInsertions then op.j2 else op.j1
  | none =>
      match alignment.opcodes.find? fun op => op.i1 ≤ position ∧ position < op.i2 with
      | some op =>
          if op.tag = .equal then op.j1 + (position - op.i1)
          else if op.tag = .delete then op.j1
          else op.j1 + (position - op.i1) * (op.j2 - op.j1) / (op.i2 - op.i1)
      | none => if alignment.oldLength ≤ position then alignment.newLength else position

/-- An operation changes the text from `start` to `stop`. -/
def changesBetween (start stop : ℕ) (insertionsAtStart insertionsAtEnd : Bool) (op : Opcode) :
    Bool :=
  match op.tag with
  | .equal => false
  | .insert =>
      (start < op.i1 ∧ op.i1 < stop) || (op.i1 = start && insertionsAtStart) ||
        (op.i1 = stop && insertionsAtEnd)
  | .replace | .delete => op.i1 < stop ∧ start < op.i2

def TextAlignment.changedBetween (alignment : TextAlignment) (start stop : ℕ)
    (insertionsAtStart insertionsAtEnd : Bool) : Bool :=
  alignment.opcodes.any (changesBetween start stop insertionsAtStart insertionsAtEnd)

def charAlignLimit : ℕ := 8000

def isLineBreak (c : Char) : Bool :=
  c ∈ ['\n', '\r', '\x0b', '\x0c', '\x1c', '\x1d', '\x1e', '\u0085', '\u2028', '\u2029']

/-- `str.splitlines`, with the ends kept. -/
def splitLines : Text → List Text
  | [] => []
  | '\r' :: '\n' :: text => ['\r', '\n'] :: splitLines text
  | c :: text =>
      if isLineBreak c then [c] :: splitLines text
      else
        match splitLines text with
        | [] => [[c]]
        | line :: lines => (c :: line) :: lines

/-- `_line_offsets`, at an index. -/
def lineOffset (lines : List Text) (index : ℕ) : ℕ :=
  (lines.take index).flatten.length

variable (matcher : SequenceMatcher)

def alignChars (old new : Text) (oldBase newBase : ℕ) : List Opcode :=
  (matcher.getOpcodes old new).map (Opcode.shift oldBase newBase)

/-- An operation on lines as one on characters, or as those of the characters of a small block. -/
def alignBlock (old new : Text) (oldBase newBase : ℕ) (op : Opcode) : List Opcode :=
  let a1 := lineOffset (splitLines old) op.i1
  let a2 := lineOffset (splitLines old) op.i2
  let b1 := lineOffset (splitLines new) op.j1
  let b2 := lineOffset (splitLines new) op.j2
  if op.tag = .replace ∧ a2 - a1 ≤ charAlignLimit ∧ b2 - b1 ≤ charAlignLimit then
    alignChars matcher (slice old a1 a2) (slice new b1 b2) (a1 + oldBase) (b1 + newBase)
  else [⟨op.tag, a1 + oldBase, a2 + oldBase, b1 + newBase, b2 + newBase⟩]

def alignMiddle (old new : Text) (oldBase newBase : ℕ) : List Opcode :=
  if old = [] ∨ new = [] then
    if old = [] ∧ new = [] then []
    else
      [⟨if old = [] then .insert else .delete, oldBase, oldBase + old.length, newBase,
        newBase + new.length⟩]
  else
    (matcher.getOpcodes (splitLines old) (splitLines new)).flatMap
      (alignBlock matcher old new oldBase newBase)

def commonLength : Text → Text → ℕ
  | c :: old, d :: new => if c = d then commonLength old new + 1 else 0
  | _, _ => 0

/-- `old.rfind("\n", 0, position) + 1`. -/
def lineStart (old : Text) (position : ℕ) : ℕ :=
  position - ((old.take position).reverse.takeWhile (· ≠ '\n')).length

def prefixLength (old new : Text) : ℕ :=
  let length := commonLength old new
  if length - lineStart old length ≤ charAlignLimit then lineStart old length else length

def suffixLength (old new : Text) : ℕ :=
  let length := min (commonLength old.reverse new.reverse)
    (min old.length new.length - commonLength old new)
  let tail := old.length - length
  if 0 < tail ∧ old[tail - 1]? ≠ some '\n' then
    match (old.drop tail).findIdx? (· = '\n') with
    | some offset =>
        if offset + 1 ≤ charAlignLimit then old.length - (tail + offset) - 1 else length
    | none => if length ≤ charAlignLimit then 0 else length
  else length

def alignTexts (old new : Text) : TextAlignment :=
  let first := prefixLength old new
  let last := suffixLength old new
  let before : List Opcode := if first = 0 then [] else [⟨.equal, 0, first, 0, first⟩]
  let middle := alignMiddle matcher (slice old first (old.length - last))
    (slice new first (new.length - last)) first first
  let behind : List Opcode :=
    if last = 0 then []
    else [⟨.equal, old.length - last, old.length, new.length - last, new.length⟩]
  { opcodes := before ++ middle ++ behind
    oldLength := old.length
    newLength := new.length }

end ShortReel.SourceAlignment
