import ShortReel.ReferenceCatalog

/-!
# Speech in a line

`split_speech_line` of `text_parser.py`: a line is parted into descriptions and speech marks. A text
in braces is spoken by the character whose mention stands right before it, and by nobody where there
is none.
-/

namespace ShortReel.SpeechLines

open EditScripts
open ManualSplit (strip)
open ReferenceCatalog
open SourceAlignment (Text)
open SourceRemap (isSpace)

def bom : Char := '\ufeff'

def speakerSeparators : List Char := ['：', ':']

def normalizeSource (forms : NameForms) (text : Text) : Text :=
  forms.nfc (text.filter (· ≠ bom))

def isAsciiWordChar (c : Char) : Bool :=
  c = '_' ∨ c.isAlphanum

def isLegacyMentionChar (c : Char) : Bool :=
  c = '_' ∨ c.isAlphanum ∨ ('\u4e00' ≤ c ∧ c ≤ '\u9fff')

structure Mention where
  start : ℕ
  stop : ℕ
  name : Text
  deriving DecidableEq, Repr

/-- `_next_positions`: the length of the text, if there is no target from the position on. -/
def nextPosition (targets : List Char) (text : Text) (i : ℕ) : ℕ :=
  i + (text.drop i).findIdx (· ∈ targets)

def mentionAt (text : Text) (i : ℕ) : Option Mention :=
  if text[i]? ≠ some '@' then none
  else if 0 < i ∧ (text[i - 1]?).any isAsciiWordChar then none
  else
    match text[i + 1]? with
    | none => none
    | some opener =>
        if opener = '[' then
          let close := nextPosition [']'] text (i + 2)
          if i + 2 < close ∧ close < nextPosition ['\r', '\n'] text (i + 2) then
            some { start := i, stop := close + 1, name := slice text (i + 2) close }
          else none
        else
          let stop := i + 1 + ((text.drop (i + 1)).takeWhile isLegacyMentionChar).length
          if i + 1 < stop then some { start := i, stop, name := slice text (i + 1) stop } else none

theorem mentionAt_start {text : Text} {i : ℕ} {mention : Mention}
    (h : mentionAt text i = some mention) : mention.start = i ∧ i < mention.stop := by
  unfold mentionAt at h
  split_ifs at h
  split at h
  · cases h
  · dsimp only at h
    split_ifs at h with hopener hclose hstop
    · obtain rfl := Option.some.inj h
      exact ⟨rfl, by dsimp only; omega⟩
    · obtain rfl := Option.some.inj h
      exact ⟨rfl, by dsimp only; omega⟩

def iterMentionsFrom (text : Text) (i : ℕ) : List Mention :=
  if i < text.length then
    match h : mentionAt text i with
    | some mention => mention :: iterMentionsFrom text mention.stop
    | none => iterMentionsFrom text (i + 1)
  else []
termination_by text.length - i
decreasing_by
  · have hstop := (mentionAt_start h).2
    omega
  · omega

def iterMentions (text : Text) : List Mention :=
  iterMentionsFrom text 0

private theorem start_le_stop {text : Text} {i : ℕ} {mention : Mention}
    (h : mention ∈ iterMentionsFrom text i) : mention.start ≤ mention.stop := by
  induction i using iterMentionsFrom.induct text with
  | case1 i hlt found hfound ih =>
      rw [iterMentionsFrom, if_pos hlt] at h
      split at h
      · rename_i other hother
        obtain rfl := Option.some.inj (hother.symm.trans hfound)
        rcases List.mem_cons.mp h with rfl | hrest
        · obtain ⟨hstart, hstop⟩ := mentionAt_start hfound
          omega
        · exact ih hrest
      · rename_i hnone
        cases hnone.symm.trans hfound
  | case2 i hlt hnone ih =>
      rw [iterMentionsFrom, if_pos hlt] at h
      split at h
      · rename_i other hother
        cases hother.symm.trans hnone
      · exact ih h
  | case3 i hge =>
      rw [iterMentionsFrom, if_neg hge] at h
      cases h

structure SpeechMark where
  speaker : Text
  text : Text
  raw : Text
  derivative : Text
  deriving DecidableEq, Repr

inductive SpeechPart where
  | description (text : Text)
  | mark (mark : SpeechMark)
  deriving DecidableEq, Repr

def find (c : Char) (text : Text) (start : ℕ) : Option ℕ :=
  ((text.drop start).findIdx? (· = c)).map (start + ·)

def skipSpaces (text : Text) (cursor : ℕ) : ℕ → ℕ
  | 0 => 0
  | head + 1 =>
      if cursor < head + 1 ∧ (text[head]?).any isSpace then skipSpaces text cursor head
      else head + 1

def afterSeparator (text : Text) (cursor head : ℕ) : Bool :=
  cursor < head ∧ (text[head - 1]?).any (· ∈ speakerSeparators)

def speakerHead (text : Text) (cursor openIndex : ℕ) : ℕ × Bool :=
  let head := skipSpaces text cursor openIndex
  if afterSeparator text cursor head then (skipSpaces text cursor (head - 1), true)
  else (head, false)

structure Speaker where
  start : ℕ
  speaker : Text
  derivative : Text

/-- The speaker of the text that is opened at a position. There is none where one was meant and is
malformed. -/
def speakerAt (forms : NameForms) (text : Text) (mentions : List Mention) (cursor openIndex : ℕ) :
    Option Speaker :=
  let head := speakerHead text cursor openIndex
  match mentions.find? fun mention => mention.stop = head.1 ∧ cursor ≤ mention.start with
  | some mention =>
      let name := splitDerivativeReference (assetNameComparisonKey forms mention.name)
      if name.1 = [] then none
      else some { start := mention.start, speaker := name.1, derivative := name.2 }
  | none =>
      if cursor < head.1 ∧
          (text[head.1 - 1]? = some ']' ∨ head.2 ∧ afterSeparator text cursor head.1) then
        none
      else some { start := openIndex, speaker := [], derivative := [] }

def descriptions (text : Text) (start stop : ℕ) : List SpeechPart :=
  if start < stop then [.description (slice text start stop)] else []

theorem find_spec {c : Char} {text : Text} {start index : ℕ} (h : find c text start = some index) :
    start ≤ index ∧ text[index]? = some c ∧ c ∉ slice text start index := by
  obtain ⟨offset, hoffset, rfl⟩ := Option.map_eq_some_iff.mp h
  obtain ⟨hlt, hat, hbefore⟩ := List.findIdx?_eq_some_iff_getElem.mp hoffset
  refine ⟨Nat.le_add_right _ _, ?_, ?_⟩
  · rw [← List.getElem?_drop, List.getElem?_eq_getElem hlt, of_decide_eq_true hat]
  · intro hmem
    rw [slice, List.drop_take, Nat.add_sub_cancel_left] at hmem
    obtain ⟨i, hi, heq⟩ := List.mem_iff_getElem.mp hmem
    rw [List.getElem_take] at heq
    rw [List.length_take] at hi
    exact hbefore i (by omega) (decide_eq_true heq)

theorem find_bounds {c : Char} {text : Text} {start index : ℕ}
    (h : find c text start = some index) : start ≤ index ∧ index < text.length := by
  obtain ⟨hle, hat, -⟩ := find_spec h
  exact ⟨hle, (List.getElem?_eq_some_iff.mp hat).1⟩

def splitFrom (forms : NameForms) (text : Text) (mentions : List Mention) (cursor scan : ℕ) :
    List SpeechPart :=
  match _hopen : find '{' text scan with
  | none => descriptions text cursor text.length
  | some openIndex =>
      match _hclose : find '}' text (openIndex + 1) with
      | none => descriptions text cursor text.length
      | some closeIndex =>
          let inner := slice text (openIndex + 1) closeIndex
          if '{' ∈ inner then splitFrom forms text mentions cursor (openIndex + 1)
          else if strip inner = [] then splitFrom forms text mentions cursor (closeIndex + 1)
          else
            match speakerAt forms text mentions cursor openIndex with
            | none => splitFrom forms text mentions cursor (closeIndex + 1)
            | some found =>
                descriptions text cursor found.start ++
                  .mark
                    { speaker := found.speaker
                      text := inner
                      raw := slice text found.start (closeIndex + 1)
                      derivative := found.derivative } ::
                  splitFrom forms text mentions (closeIndex + 1) (closeIndex + 1)
termination_by text.length - scan
decreasing_by
  all_goals
    have hopen := find_bounds _hopen
    have hclose := find_bounds _hclose
    omega

def splitSpeechLine (forms : NameForms) (line : Text) : List SpeechPart :=
  let text := normalizeSource forms line
  splitFrom forms text (iterMentions text) 0 0

/-- What stands between a speaker and the brace: spaces, and one separator at most. -/
def IsGap (gap : Text) : Prop :=
  (∀ c ∈ gap, isSpace c = true) ∨
    ∃ before separator after, gap = before ++ separator :: after ∧ separator ∈ speakerSeparators ∧
      (∀ c ∈ before, isSpace c = true) ∧ ∀ c ∈ after, isSpace c = true

def IsNarration (mark : SpeechMark) : Prop :=
  mark.speaker = [] ∧ mark.derivative = [] ∧ mark.raw = '{' :: mark.text ++ ['}']

def IsDialogue (forms : NameForms) (text : Text) (mark : SpeechMark) : Prop :=
  mark.speaker ≠ [] ∧
    ∃ mention ∈ iterMentions text, ∃ gap, IsGap gap ∧
      (mark.speaker, mark.derivative) =
        splitDerivativeReference (assetNameComparisonKey forms mention.name) ∧
      mark.raw = slice text mention.start mention.stop ++ gap ++ '{' :: mark.text ++ ['}']

def SpeechPart.raw : SpeechPart → Text
  | .description text => text
  | .mark m => m.raw

section Speakers

variable {text : Text} {cursor : ℕ}

theorem slice_succ {index : ℕ} {c : Char} (h : text[index]? = some c) :
    slice text index (index + 1) = [c] := by
  obtain ⟨hlt, hat⟩ := List.getElem?_eq_some_iff.mp h
  rw [slice, List.drop_take, Nat.add_sub_cancel_left, List.drop_eq_getElem_cons hlt, hat]
  rfl

theorem slice_cons {index stop : ℕ} {c : Char} (h : text[index]? = some c) (hstop : index < stop) :
    slice text index stop = c :: slice text (index + 1) stop := by
  rw [slice_split text (Nat.le_succ index) hstop, slice_succ h]
  rfl

theorem slice_concat {start index : ℕ} {c : Char} (h : text[index]? = some c)
    (hstart : start ≤ index) :
    slice text start (index + 1) = slice text start index ++ [c] := by
  rw [slice_split text hstart (Nat.le_succ index), slice_succ h]

theorem skipSpaces_spec {head : ℕ} (hcursor : cursor ≤ head) :
    cursor ≤ skipSpaces text cursor head ∧ skipSpaces text cursor head ≤ head ∧
      ∀ c ∈ slice text (skipSpaces text cursor head) head, isSpace c = true := by
  induction head with
  | zero =>
      refine ⟨hcursor, Nat.le_refl _, ?_⟩
      simp [skipSpaces, slice]
  | succ head ih =>
      rw [skipSpaces]
      split_ifs with hskip
      · obtain ⟨hlt, hspace⟩ := hskip
        obtain ⟨last, hlast, hisSpace⟩ := (Option.any_eq_true _ _).mp hspace
        obtain ⟨hlow, hhigh, hspaces⟩ := ih (Nat.le_of_lt_succ hlt)
        refine ⟨hlow, by omega, ?_⟩
        rw [slice_concat hlast hhigh]
        intro c hc
        rcases List.mem_append.mp hc with hbefore | hat
        · exact hspaces c hbefore
        · obtain rfl := List.mem_singleton.mp hat
          exact hisSpace
      · refine ⟨hcursor, Nat.le_refl _, ?_⟩
        rw [slice_of_le (Nat.le_refl _)]
        intro c hc
        cases hc

theorem speakerHead_spec {openIndex : ℕ} (hcursor : cursor ≤ openIndex) :
    (speakerHead text cursor openIndex).1 ≤ openIndex ∧
      IsGap (slice text (speakerHead text cursor openIndex).1 openIndex) := by
  obtain ⟨hlow, hhigh, hspaces⟩ := @skipSpaces_spec text cursor openIndex hcursor
  rw [speakerHead]
  split_ifs with hseparator
  · obtain ⟨hlt, hany⟩ := of_decide_eq_true hseparator
    obtain ⟨separator, hat, hmem⟩ := (Option.any_eq_true _ _).mp hany
    obtain ⟨hlow', hhigh', hspaces'⟩ := @skipSpaces_spec text _ _ (Nat.le_sub_one_of_lt hlt)
    refine ⟨?_, .inr ⟨_, separator, _, ?_, of_decide_eq_true hmem, hspaces', hspaces⟩⟩
    · change skipSpaces text cursor (skipSpaces text cursor openIndex - 1) ≤ openIndex
      omega
    rw [slice_split text hhigh' (Nat.sub_le_of_le_add (by omega)), slice_cons hat (by omega),
      Nat.sub_add_cancel (by omega)]
  · exact ⟨hhigh, .inl hspaces⟩

theorem speakerAt_spec {forms : NameForms} {openIndex : ℕ} {found : Speaker}
    (hcursor : cursor ≤ openIndex)
    (h : speakerAt forms text (iterMentions text) cursor openIndex = some found) :
    cursor ≤ found.start ∧ found.start ≤ openIndex ∧
      ((found.speaker = [] ∧ found.derivative = [] ∧ found.start = openIndex) ∨
        found.speaker ≠ [] ∧ ∃ mention ∈ iterMentions text,
          mention.start = found.start ∧ mention.start ≤ mention.stop ∧ mention.stop ≤ openIndex ∧
            IsGap (slice text mention.stop openIndex) ∧
            (found.speaker, found.derivative) =
              splitDerivativeReference (assetNameComparisonKey forms mention.name)) := by
  obtain ⟨hhead, hgap⟩ := @speakerHead_spec text cursor openIndex hcursor
  rw [speakerAt] at h
  dsimp only at h
  split at h
  · rename_i mention hmention
    have hmem := List.mem_of_find?_eq_some hmention
    have hplace := List.find?_some hmention
    obtain ⟨hstop, hstart⟩ := of_decide_eq_true hplace
    have hle := start_le_stop hmem
    split_ifs at h with hspeaker
    obtain rfl := Option.some.inj h
    refine ⟨hstart, hle.trans (hstop ▸ hhead),
      .inr ⟨hspeaker, mention, hmem, rfl, hle, ?_, ?_, rfl⟩⟩
    · rw [hstop]
      exact hhead
    · rw [hstop]
      exact hgap
  · split_ifs at h
    obtain rfl := Option.some.inj h
    exact ⟨hcursor, Nat.le_refl _, .inl ⟨rfl, rfl, rfl⟩⟩

end Speakers

section Lines

variable {forms : NameForms} {text : Text} {cursor scan : ℕ}

theorem flatten_descriptions {start stop : ℕ} :
    ((descriptions text start stop).map SpeechPart.raw).flatten = slice text start stop := by
  rw [descriptions]
  split_ifs with hlt
  · simp [SpeechPart.raw]
  · rw [slice_of_le (Nat.le_of_not_lt hlt)]
    rfl

theorem splitFrom_flatten (hscan : cursor ≤ scan) :
    ((splitFrom forms text (iterMentions text) cursor scan).map SpeechPart.raw).flatten =
      slice text cursor text.length := by
  fun_induction splitFrom forms text (iterMentions text) cursor scan with
  | case1 | case2 => exact flatten_descriptions
  | case3 cursor scan openIndex hopen closeIndex hclose inner hnested ih =>
      have hle := (find_bounds hopen).1
      exact ih (by omega)
  | case4 cursor scan openIndex hopen closeIndex hclose inner hnested hblank ih
  | case5 cursor scan openIndex hopen closeIndex hclose inner hnested hblank hnone ih =>
      have hle := (find_bounds hopen).1
      have hle' := (find_bounds hclose).1
      exact ih (by omega)
  | case6 cursor scan openIndex hopen closeIndex hclose inner hnested hblank found hfound ih =>
      have hle := (find_bounds hopen).1
      obtain ⟨hle', hlt⟩ := find_bounds hclose
      obtain ⟨hstart, hstop, -⟩ := speakerAt_spec (hscan.trans hle) hfound
      rw [List.map_append, List.flatten_append, flatten_descriptions, List.map_cons,
        List.flatten_cons, ih (Nat.le_refl _)]
      change slice text cursor found.start ++ (slice text found.start (closeIndex + 1) ++ _) = _
      rw [← slice_split text (by omega) hlt, ← slice_split text hstart (by omega)]

def IsMark (forms : NameForms) (text : Text) (mark : SpeechMark) : Prop :=
  strip mark.text ≠ [] ∧ '{' ∉ mark.text ∧ '}' ∉ mark.text ∧
    (IsNarration mark ∨ IsDialogue forms text mark)

theorem splitFrom_isMark (hscan : cursor ≤ scan) {mark : SpeechMark}
    (h : .mark mark ∈ splitFrom forms text (iterMentions text) cursor scan) :
    IsMark forms text mark := by
  have hdescriptions : ∀ {start stop : ℕ}, .mark mark ∉ descriptions text start stop := by
    intro start stop hmem
    rw [descriptions] at hmem
    split_ifs at hmem <;> simp at hmem
  fun_induction splitFrom forms text (iterMentions text) cursor scan with
  | case1 | case2 => exact absurd h hdescriptions
  | case3 cursor scan openIndex hopen closeIndex hclose inner hnested ih =>
      have hle := (find_bounds hopen).1
      exact ih (by omega) h
  | case4 cursor scan openIndex hopen closeIndex hclose inner hnested hblank ih
  | case5 cursor scan openIndex hopen closeIndex hclose inner hnested hblank hnone ih =>
      have hle := (find_bounds hopen).1
      have hle' := (find_bounds hclose).1
      exact ih (by omega) h
  | case6 cursor scan openIndex hopen closeIndex hclose inner hnested hblank found hfound ih =>
      obtain ⟨hle, hopenAt, -⟩ := find_spec hopen
      obtain ⟨hle', hcloseAt, hunclosed⟩ := find_spec hclose
      obtain ⟨-, -, hspeaker⟩ := speakerAt_spec (hscan.trans hle) hfound
      have hbraces : slice text openIndex (closeIndex + 1) = '{' :: inner ++ ['}'] := by
        rw [slice_cons hopenAt (by omega), slice_concat hcloseAt hle', List.cons_append]
      rcases List.mem_append.mp h with hmem | hmem
      · exact absurd hmem hdescriptions
      rcases List.mem_cons.mp hmem with hmark | hrest
      · obtain rfl := SpeechPart.mark.inj hmark
        refine ⟨hblank, hnested, hunclosed, ?_⟩
        rcases hspeaker with ⟨hnone, hbare, hstart⟩ |
          ⟨hsome, mention, hmem, hstart, hmention, hstop, hgap, hname⟩
        · refine .inl ⟨hnone, hbare, ?_⟩
          rw [← hbraces, hstart]
        · refine .inr ⟨hsome, mention, hmem, _, hgap, hname, ?_⟩
          change slice text found.start (closeIndex + 1) = _
          rw [← hstart, slice_split text hmention (by omega), slice_split text hstop (by omega),
            hbraces]
          simp only [List.append_assoc]
      · exact ih (Nat.le_refl _) hrest

/-- The parts of a line are the line. Every mark has a text that is not blank and that has no brace,
and it has a speaker exactly where a mention stands before the braces. -/
theorem splitSpeechLine_spec (forms : NameForms) (line : Text) :
    ((splitSpeechLine forms line).map SpeechPart.raw).flatten = normalizeSource forms line ∧
      ∀ mark, .mark mark ∈ splitSpeechLine forms line →
        IsMark forms (normalizeSource forms line) mark := by
  constructor
  · rw [splitSpeechLine, splitFrom_flatten (Nat.le_refl _), slice_zero_length]
  · intro mark hmark
    exact splitFrom_isMark (Nat.le_refl _) hmark

end Lines

end ShortReel.SpeechLines
