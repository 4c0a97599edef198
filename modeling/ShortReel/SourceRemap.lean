import ShortReel.SourceAlignment

/-!
# Source remaps

`source_remap.py`: where the ranges of the cut episodes go when a file of the whole source is edited,
deleted, inserted or moved. A file that is not there is `none`, which is Python's `ValueError`.
-/

namespace ShortReel.SourceRemap

open EditScripts SourceAlignment

structure SourceDoc where
  relPath : String
  text : Text
  deriving DecidableEq, Repr

structure SourceSpan where
  sourceFile : String
  start : ℕ
  endFile : String
  stop : ℕ
  deriving DecidableEq, Repr

structure RangeRemap where
  episode : ℕ
  before : SourceSpan
  after : Option SourceSpan
  textChanged : Bool
  deriving DecidableEq, Repr

section Files

variable (docs : List SourceDoc)

def rels : List String :=
  docs.map (·.relPath)

def index (rel : String) : Option ℕ :=
  (rels docs).idxOf? rel

def wholeText : Text :=
  docs.flatMap (·.text)

/-- `_Files.bases`, at an index. -/
def base (i : ℕ) : ℕ :=
  (wholeText (docs.take i)).length

def textAt (i : ℕ) : Text :=
  (docs[i]?.map (·.text)).getD []

def lengthAt (i : ℕ) : ℕ :=
  (textAt docs i).length

def globalStart (span : SourceSpan) : Option ℕ := do
  let first ← index docs span.sourceFile
  return base docs first + span.start

def globalEnd (span : SourceSpan) : Option ℕ := do
  let last ← index docs span.endFile
  return base docs last + span.stop

def part (first start last stop i : ℕ) : Text :=
  slice (textAt docs i) (if i = first then start else 0)
    (if i = last then stop else lengthAt docs i)

def textBetween (first start last stop : ℕ) : Text :=
  (List.range' first (last + 1 - first)).flatMap (part docs first start last stop)

def text (span : SourceSpan) : Option Text := do
  let first ← index docs span.sourceFile
  let last ← index docs span.endFile
  return textBetween docs first span.start last span.stop

/-- The start, past the files at whose end it stands. The loop runs `last - first` times at most. -/
def advanceStart (last : ℕ) : (fuel : ℕ) → ℕ → ℕ → ℕ × ℕ
  | 0, first, start => (first, start)
  | fuel + 1, first, start =>
      if first < last ∧ lengthAt docs first ≤ start then advanceStart last fuel (first + 1) 0
      else (first, start)

def retreatStop (first : ℕ) : (fuel : ℕ) → ℕ → ℕ → ℕ × ℕ
  | 0, last, stop => (last, stop)
  | fuel + 1, last, stop =>
      if first < last ∧ stop = 0 then retreatStop first fuel (last - 1) (lengthAt docs (last - 1))
      else (last, stop)

def normalized (span : SourceSpan) : Option SourceSpan := do
  let first ← index docs span.sourceFile
  let last ← index docs span.endFile
  let (first, start) := advanceStart docs last (last - first) first span.start
  let (last, stop) := retreatStop docs first (last - first) last span.stop
  let sourceFile ← (rels docs)[first]?
  let endFile ← (rels docs)[last]?
  return { sourceFile, start, endFile, stop }

end Files

/-- What `str.strip` takes away. -/
def isSpace (c : Char) : Bool :=
  ('\t' ≤ c ∧ c ≤ '\r') ∨ ('\x1c' ≤ c ∧ c ≤ ' ') ∨ c ∈ ['\u0085', '\u00a0', '\u1680'] ∨
    ('\u2000' ≤ c ∧ c ≤ '\u200a') ∨ c ∈ ['\u2028', '\u2029', '\u202f', '\u205f', '\u3000']

def finish (docs : List SourceDoc) (episode : ℕ) (before after : SourceSpan) (changed : Bool) :
    Option RangeRemap := do
  let span ← normalized docs after
  let first ← index docs span.sourceFile
  let last ← index docs span.endFile
  let spanText ← text docs span
  if (last < first ∨ (last = first ∧ span.stop ≤ span.start)) ∨ spanText.all isSpace then
    return { episode, before, after := none, textChanged := true }
  else return { episode, before, after := some span, textChanged := changed }

def unchanged (episode : ℕ) (span : SourceSpan) : RangeRemap :=
  { episode, before := span, after := some span, textChanged := false }

abbrev Spans := List (ℕ × SourceSpan)

def editedDocs (docs : List SourceDoc) (target : ℕ) (rel : String) (newText : Text) :
    List SourceDoc :=
  docs.set target { relPath := rel, text := newText }

/-- One round of `remap_for_edit`. -/
def remapEdited (docs : List SourceDoc) (rel : String) (newText : Text) (target : ℕ)
    (alignment : TextAlignment) (starts : List ℕ) (entry : ℕ × SourceSpan) : Option RangeRemap := do
  let (episode, span) := entry
  let first ← index docs span.sourceFile
  let last ← index docs span.endFile
  if first ≤ target ∧ target ≤ last then
    let startsHere : Bool := first = target
    let endsHere : Bool := last = target
    let low := if startsHere then span.start else 0
    let high := if endsHere then span.stop else lengthAt docs target
    let sharedEnd : Bool := (← globalEnd docs span) ∈ starts
    let includeEnd := !endsHere || sharedEnd
    let changed := alignment.changedBetween low high (!startsHere) includeEnd
    let newLow := alignment.mapPosition low startsHere
    let newHigh := alignment.mapPosition high includeEnd
    let after : SourceSpan :=
      { span with
        start := if startsHere then newLow else span.start
        stop := if endsHere then newHigh else span.stop }
    finish (editedDocs docs target rel newText) episode span after changed
  else return unchanged episode span

def remapForEdit (matcher : SequenceMatcher) (docs : List SourceDoc) (spans : Spans) (rel : String)
    (newText : Text) : Option (List RangeRemap) := do
  let target ← index docs rel
  let starts ← spans.mapM fun entry => globalStart docs entry.2
  let alignment := alignTexts matcher (textAt docs target) newText
  spans.mapM (remapEdited docs rel newText target alignment starts)

def docsWithout (docs : List SourceDoc) (rel : String) : List SourceDoc :=
  docs.filter (·.relPath ≠ rel)

/-- One round of `remap_for_delete`. -/
def remapDeleted (docs : List SourceDoc) (rel : String) (target : ℕ) (entry : ℕ × SourceSpan) :
    Option RangeRemap := do
  let (episode, span) := entry
  let first ← index docs span.sourceFile
  let last ← index docs span.endFile
  if first ≤ target ∧ target ≤ last then
    if first = last then return { episode, before := span, after := none, textChanged := true }
    else
      let (startFile, start) ←
        if first = target then (rels docs)[target + 1]?.map (·, 0)
        else some (span.sourceFile, span.start)
      let (endFile, stop) ←
        if last = target then (rels docs)[target - 1]?.map (·, lengthAt docs (target - 1))
        else some (span.endFile, span.stop)
      finish (docsWithout docs rel) episode span { sourceFile := startFile, start, endFile, stop } true
  else return unchanged episode span

def remapForDelete (docs : List SourceDoc) (spans : Spans) (rel : String) :
    Option (List RangeRemap) := do
  let target ← index docs rel
  spans.mapM (remapDeleted docs rel target)

def insertedDocs (docs : List SourceDoc) (place : ℕ) (doc : SourceDoc) : List SourceDoc :=
  docs.take place ++ doc :: docs.drop place

/-- One round of `remap_for_insert`. -/
def remapInserted (docs : List SourceDoc) (boundary : ℕ) (entry : ℕ × SourceSpan) :
    Option RangeRemap := do
  let (episode, span) := entry
  let start ← globalStart docs span
  let stop ← globalEnd docs span
  let inside : Bool := start < boundary ∧ boundary < stop
  return { episode, before := span, after := some span, textChanged := inside }

def remapForInsert (docs : List SourceDoc) (spans : Spans) (place : ℕ) : Option (List RangeRemap) :=
  spans.mapM (remapInserted docs (base docs (min place docs.length)))

def movedDocs (docs : List SourceDoc) (rel : String) (target newIndex : ℕ) : List SourceDoc :=
  (docsWithout docs rel).take newIndex ++
    (docs[target]?.toList ++ (docsWithout docs rel).drop newIndex)

/-- The last file up to which the files behind `first` still follow each other. -/
def keptUpTo (old new : List String) (first position last : ℕ) : (fuel : ℕ) → ℕ → ℕ
  | 0, kept => kept
  | fuel + 1, kept =>
      if kept < last ∧ position + (kept - first) + 1 < new.length then
        if new[position + (kept - first) + 1]? ≠ old[kept + 1]? then kept
        else keptUpTo old new first position last fuel (kept + 1)
      else kept

/-- One round of `remap_for_move`. -/
def remapMoved (docs new : List SourceDoc) (entry : ℕ × SourceSpan) : Option RangeRemap := do
  let (episode, span) := entry
  let first ← index docs span.sourceFile
  let last ← index docs span.endFile
  let position ← index new span.sourceFile
  let kept := keptUpTo (rels docs) (rels new) first position last (last - first) first
  if kept = last then return unchanged episode span
  else
    let endFile ← (rels docs)[kept]?
    finish new episode span { span with endFile, stop := lengthAt docs kept } true

def remapForMove (docs : List SourceDoc) (spans : Spans) (rel : String) (newIndex : ℕ) :
    Option (List RangeRemap) := do
  let target ← index docs rel
  spans.mapM (remapMoved docs (movedDocs docs rel target newIndex))

inductive SourceChange where
  | edit (rel : String) (newText : Text)
  | delete (rel : String)
  | insert (place : ℕ) (doc : SourceDoc)
  | move (rel : String) (newIndex : ℕ)
  deriving DecidableEq, Repr

namespace SourceChange

def docs (old : List SourceDoc) : SourceChange → Option (List SourceDoc)
  | edit rel newText => do return editedDocs old (← index old rel) rel newText
  | delete rel => do
      let _ ← index old rel
      return docsWithout old rel
  | insert place doc => some (insertedDocs old place doc)
  | move rel newIndex => do return movedDocs old rel (← index old rel) newIndex

def remaps (matcher : SequenceMatcher) (old : List SourceDoc) (spans : Spans) :
    SourceChange → Option (List RangeRemap)
  | edit rel newText => remapForEdit matcher old spans rel newText
  | delete rel => remapForDelete old spans rel
  | insert place _ => remapForInsert old spans place
  | move rel newIndex => remapForMove old spans rel newIndex

end SourceChange

end ShortReel.SourceRemap
