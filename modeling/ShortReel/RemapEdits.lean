import ShortReel.AlignmentPositions
import ShortReel.SourcePlaces

/-!
# Edits of a file

What `remap_for_edit` makes of a range whose place is known: the place goes where the alignment takes
its ends, and a range that is reported without a change reads the same text.
-/

namespace ShortReel.RemapEdits

open EditScripts SourceAlignment AlignmentScripts AlignmentPositions SourceRemap SourcePlaces

variable {docs : List SourceDoc} {target : ℕ} {rel : String} {newText : Text}

theorem rels_edited (h : index docs rel = some target) :
    rels (editedDocs docs target rel newText) = rels docs := by
  obtain ⟨hlt, hrel⟩ := List.getElem?_eq_some_iff.mp (getElem?_of_index h)
  have hset : (rels docs).set target rel = rels docs := by
    rw [← hrel]
    exact List.set_getElem_self hlt
  rw [rels, editedDocs, List.map_set]
  exact hset

theorem index_edited (h : index docs rel = some target) (other : String) :
    index (editedDocs docs target rel newText) other = index docs other := by
  rw [index, rels_edited h, index]

theorem textAt_edited (h : index docs rel = some target) :
    textAt (editedDocs docs target rel newText) target = newText := by
  rw [textAt, editedDocs, List.getElem?_set_self (index_lt h)]
  rfl

theorem textAt_edited_ne {i : ℕ} (h : i ≠ target) :
    textAt (editedDocs docs target rel newText) i = textAt docs i := by
  rw [textAt, editedDocs, List.getElem?_set_ne h.symm, textAt]

theorem base_edited {i : ℕ} (h : i ≤ target) :
    base (editedDocs docs target rel newText) i = base docs i := by
  rw [base, editedDocs, List.take_set_of_le h, base]

theorem base_edited_later (hindex : index docs rel = some target) {i : ℕ} (h : target < i) :
    base (editedDocs docs target rel newText) i + lengthAt docs target =
      base docs i + newText.length := by
  obtain ⟨count, rfl⟩ := Nat.exists_eq_add_of_le h
  have hbehind := @base_relocated docs (editedDocs docs target rel newText) (target + 1) (target + 1)
    count fun _ _ => List.getElem?_set_ne (by omega)
  have hlength : lengthAt (editedDocs docs target rel newText) target = newText.length := by
    rw [lengthAt, textAt_edited hindex]
  rw [base_succ, base_succ, base_edited le_rfl, hlength] at hbehind
  rw [Nat.succ_eq_add_one]
  omega

theorem lengthAt_edited (h : index docs rel = some target) :
    lengthAt (editedDocs docs target rel newText) target = newText.length := by
  rw [lengthAt, textAt_edited h]

theorem lengthAt_edited_ne {i : ℕ} (h : i ≠ target) :
    lengthAt (editedDocs docs target rel newText) i = lengthAt docs i := by
  rw [lengthAt, textAt_edited_ne h, lengthAt]

/-- Where the ends in the edited file go. The text at a stop that another range starts at belongs to
the range that stops. -/
def editedPlace (alignment : TextAlignment) (target : ℕ) (shared : Bool) (p : Place) : Place :=
  { p with
    start := if p.first = target then alignment.mapPosition p.start true else p.start
    stop := if p.last = target then alignment.mapPosition p.stop shared else p.stop }

def stretchStart (target : ℕ) (p : Place) : ℕ :=
  if p.first = target then p.start else 0

def stretchStop (docs : List SourceDoc) (target : ℕ) (p : Place) : ℕ :=
  if p.last = target then p.stop else lengthAt docs target

def stretchChanged (alignment : TextAlignment) (docs : List SourceDoc) (target : ℕ) (shared : Bool)
    (p : Place) : Bool :=
  alignment.changedBetween (stretchStart target p) (stretchStop docs target p)
    (!decide (p.first = target)) (!decide (p.last = target) || shared)

theorem remapEdited_eq {alignment : TextAlignment} {starts : List ℕ} {entry : ℕ × SourceSpan}
    {p : Place} (hindex : index docs rel = some target) (hplace : place docs entry.2 = some p) :
    (¬ (p.first ≤ target ∧ target ≤ p.last) ∧
      remapEdited docs rel newText target alignment starts entry =
        some (unchanged entry.1 entry.2)) ∨
    ((p.first ≤ target ∧ target ≤ p.last) ∧ ∃ after shared,
      shared = decide (base docs p.last + p.stop ∈ starts) ∧
      place (editedDocs docs target rel newText) after = some (editedPlace alignment target shared p) ∧
      remapEdited docs rel newText target alignment starts entry =
        finish (editedDocs docs target rel newText) entry.1 entry.2 after
          (stretchChanged alignment docs target shared p)) := by
  obtain ⟨episode, span⟩ := entry
  obtain ⟨hfirst, hlast, hstart, hstop⟩ := place_eq_some_iff.mp hplace
  by_cases htouch : p.first ≤ target ∧ target ≤ p.last
  · refine .inr ⟨htouch, ⟨span.sourceFile, (editedPlace alignment target
      (decide (base docs p.last + p.stop ∈ starts)) p).start, span.endFile, (editedPlace alignment
      target (decide (base docs p.last + p.stop ∈ starts)) p).stop⟩, _, rfl, ?_, ?_⟩
    · refine place_eq_some_iff.mpr ⟨?_, ?_, rfl, rfl⟩
      · rw [index_edited hindex, hfirst]
        rfl
      · rw [index_edited hindex, hlast]
        rfl
    · have hend := globalEnd_of_place hplace
      simp only [remapEdited, hfirst, hlast, hend, Option.bind_eq_bind, Option.bind_some,
        if_pos htouch, stretchChanged, stretchStart, stretchStop, editedPlace, decide_eq_true_eq]
      simp only at hstart hstop
      rw [hstart, hstop]
      by_cases hf : p.first = target <;> by_cases hl : p.last = target <;> simp [hf, hl]
  · refine .inl ⟨htouch, ?_⟩
    simp [remapEdited, hfirst, hlast, htouch]

variable {matcher : SequenceMatcher} {shared : Bool} {p : Place}

theorem alignTexts_bound {old new : Text} {position : ℕ} {after : Bool} (h : position ≤ old.length) :
    (alignTexts matcher old new).mapPosition position after ≤ new.length :=
  (mapPosition_mem (alignTexts_script matcher old new) (Nat.zero_le position) h).2

theorem editedPlace_fits (hindex : index docs rel = some target) (h : p.Fits docs) :
    (editedPlace (alignTexts matcher (textAt docs target) newText) target shared p).Fits
      (editedDocs docs target rel newText) := by
  obtain ⟨hfirst, hlast, hstart, hstop⟩ := h
  have hlength : (editedDocs docs target rel newText).length = docs.length := List.length_set
  refine ⟨hfirst, hlength ▸ hlast, ?_, ?_⟩
  · change (if _ then _ else _) ≤ lengthAt _ p.first
    split_ifs with htarget
    · rw [htarget] at hstart ⊢
      rw [lengthAt_edited hindex]
      exact alignTexts_bound hstart
    · rwa [lengthAt_edited_ne htarget]
  · change (if _ then _ else _) ≤ lengthAt _ p.last
    split_ifs with htarget
    · rw [htarget] at hstop ⊢
      rw [lengthAt_edited hindex]
      exact alignTexts_bound hstop
    · rwa [lengthAt_edited_ne htarget]

theorem text_of_touching (h : p.Fits docs) (hfirst : p.first ≤ target) (hlast : target ≤ p.last) :
    textBetween docs p.first p.start p.last p.stop =
      (wholeText (docs.take target)).drop (base docs p.first + p.start) ++
        (slice (textAt docs target) (stretchStart target p) (stretchStop docs target p) ++
          (wholeText (docs.drop (target + 1))).take
            (base docs p.last + p.stop - base docs (target + 1))) := by
  have hstart := h.start_le
  have hstop := h.stop_le
  have hnext := base_succ docs target
  have hlength : (textAt docs target).length = lengthAt docs target := rfl
  have hbase : (wholeText (docs.take target)).length = base docs target := rfl
  have hbegin : base docs p.first + p.start ≤ base docs target + stretchStart target p ∧
      base docs p.first + p.start - base docs target = stretchStart target p ∧
        stretchStart target p ≤ lengthAt docs target := by
    unfold stretchStart
    split_ifs with heq
    · rw [heq] at hstart ⊢
      omega
    · have hmono := @base_mono docs (p.first + 1) target (by omega)
      rw [base_succ] at hmono
      omega
  have hend : base docs target ≤ base docs p.last + p.stop ∧
      slice (textAt docs target) (stretchStart target p)
        (base docs p.last + p.stop - base docs target) =
          slice (textAt docs target) (stretchStart target p) (stretchStop docs target p) := by
    unfold stretchStop
    split_ifs with heq
    · rw [heq, Nat.add_sub_cancel_left]
      exact ⟨Nat.le_add_right _ _, rfl⟩
    · have hmono := @base_mono docs (target + 1) p.last (by omega)
      refine ⟨by omega, ?_⟩
      rw [slice_length_le (by omega), slice_length_le hlength.le]
  rw [h.text, wholeText_file docs target, slice_around (by omega) (by omega), hbase, hbegin.2.1,
    hend.2, hnext, Nat.sub_sub]
  rfl

section Unchanged

variable {old : Text} {low high : ℕ} {atStart atEnd : Bool}

theorem unchanged_of_changedBetween
    (h : (alignTexts matcher old newText).changedBetween low high atStart atEnd = false) :
    ∀ op ∈ (alignTexts matcher old newText).opcodes,
      changesBetween low high atStart atEnd op = false := by
  intro op hop
  exact Bool.eq_false_iff.mpr (List.any_eq_false.mp h op hop)

theorem not_insert_start
    (h : (alignTexts matcher old newText).changedBetween low high true atEnd = false) :
    ∀ op ∈ (alignTexts matcher old newText).opcodes, op.tag = .insert → op.i1 ≠ low := by
  intro op hop htag heq
  have hchanges := unchanged_of_changedBetween h op hop
  simp [changesBetween, htag, heq] at hchanges

theorem not_insert_stop
    (h : (alignTexts matcher old newText).changedBetween low high atStart true = false) :
    ∀ op ∈ (alignTexts matcher old newText).opcodes, op.tag = .insert → op.i1 ≠ high := by
  intro op hop htag heq
  have hchanges := unchanged_of_changedBetween h op hop
  simp [changesBetween, htag, heq] at hchanges

theorem slice_unchanged (hle : low ≤ high) (hhigh : high ≤ old.length)
    (h : (alignTexts matcher old newText).changedBetween low high atStart atEnd = false) :
    slice old low high = slice newText ((alignTexts matcher old newText).mapPosition low true)
      ((alignTexts matcher old newText).mapPosition high atEnd) := by
  have hslice := slice_mapPosition (alignTexts_script matcher old newText)
    (alignTexts_separated matcher old newText) (Nat.zero_le low) hle hhigh fun op hop =>
      changesBetween_mono le_rfl (unchanged_of_changedBetween h op hop)
  have hstop : (alignTexts matcher old newText).mapPosition high atEnd =
      (alignTexts matcher old newText).mapPosition high false := by
    cases atEnd with
    | false => rfl
    | true => exact mapPosition_sides (not_insert_stop h) true false
  rw [hstop]
  exact hslice

theorem mapPosition_zero
    (h : (alignTexts matcher old newText).changedBetween 0 high true atEnd = false) :
    (alignTexts matcher old newText).mapPosition 0 true = 0 := by
  rw [mapPosition_sides (not_insert_start h) true false]
  exact mapPosition_start (alignTexts_script matcher old newText) fun hfalse => by cases hfalse

theorem mapPosition_length
    (h : (alignTexts matcher old newText).changedBetween low old.length atStart true = false) :
    (alignTexts matcher old newText).mapPosition old.length true = newText.length :=
  mapPosition_end (alignTexts_script matcher old newText) (not_insert_stop h)

end Unchanged

theorem stretch_unchanged (h : p.InBounds docs)
    (hindex : index docs rel = some target)
    (hunchanged : stretchChanged (alignTexts matcher (textAt docs target) newText) docs target shared p
      = false) :
    slice (textAt docs target) (stretchStart target p) (stretchStop docs target p) =
      slice newText
        (stretchStart target
          (editedPlace (alignTexts matcher (textAt docs target) newText) target shared p))
        (stretchStop (editedDocs docs target rel newText) target
          (editedPlace (alignTexts matcher (textAt docs target) newText) target shared p)) := by
  obtain ⟨⟨-, -, hstart, hstop⟩, hordered⟩ := h
  have hlength : (textAt docs target).length = lengthAt docs target := rfl
  unfold stretchChanged stretchStart stretchStop at hunchanged
  simp only [stretchStart, stretchStop, editedPlace, lengthAt_edited hindex]
  by_cases hbegins : p.first = target
  · rw [hbegins] at hstart
    by_cases hends : p.last = target
    · rw [hends] at hstop
      have hle := hordered (hbegins.trans hends.symm)
      simp only [if_pos hbegins, if_pos hends, decide_eq_true hends, Bool.not_true,
        Bool.false_or] at hunchanged ⊢
      exact slice_unchanged hle hstop hunchanged
    · simp only [if_pos hbegins, if_neg hends, decide_eq_false hends, Bool.not_false,
        Bool.true_or] at hunchanged ⊢
      rw [slice_unchanged hstart le_rfl hunchanged]
      exact congrArg (slice newText _) (mapPosition_length hunchanged)
  · by_cases hends : p.last = target
    · rw [hends] at hstop
      simp only [if_neg hbegins, if_pos hends, decide_eq_false hbegins, decide_eq_true hends,
        Bool.not_true, Bool.not_false, Bool.false_or] at hunchanged ⊢
      rw [slice_unchanged (Nat.zero_le _) hstop hunchanged, mapPosition_zero hunchanged]
    · simp only [if_neg hbegins, if_neg hends, decide_eq_false hbegins, decide_eq_false hends,
        Bool.not_false, Bool.true_or] at hunchanged ⊢
      have hslice := slice_unchanged (Nat.zero_le _) hlength.ge hunchanged
      rw [mapPosition_zero hunchanged] at hslice
      exact hslice.trans (congrArg (slice newText 0) (mapPosition_length hunchanged))

theorem text_editedPlace (h : p.InBounds docs) (hfirst : p.first ≤ target) (hlast : target ≤ p.last)
    (hindex : index docs rel = some target)
    (hunchanged : stretchChanged (alignTexts matcher (textAt docs target) newText) docs target shared p
      = false) {q : Place}
    (hq : q = editedPlace (alignTexts matcher (textAt docs target) newText) target shared p) :
    textBetween (editedDocs docs target rel newText) q.first q.start q.last q.stop =
      textBetween docs p.first p.start p.last p.stop := by
  have hfits := @editedPlace_fits _ _ rel newText matcher shared p hindex h.toFits
  have hstretch := stretch_unchanged h hindex hunchanged
  rw [← hq] at hfits hstretch
  have hqfirst : q.first = p.first := by rw [hq]; rfl
  have hqlast : q.last = p.last := by rw [hq]; rfl
  have htake : (editedDocs docs target rel newText).take target = docs.take target :=
    List.take_set_of_le le_rfl
  have hdrop : (editedDocs docs target rel newText).drop (target + 1) = docs.drop (target + 1) :=
    List.drop_set_of_lt (Nat.lt_succ_self target)
  have hbefore : (wholeText (docs.take target)).drop (base (editedDocs docs target rel newText) q.first
      + q.start) = (wholeText (docs.take target)).drop (base docs p.first + p.start) := by
    rw [hqfirst, base_edited hfirst]
    by_cases hbegins : p.first = target
    · have hlength : (wholeText (docs.take target)).length = base docs target := rfl
      rw [hbegins, List.drop_eq_nil_of_le (hlength ▸ Nat.le_add_right _ _),
        List.drop_eq_nil_of_le (hlength ▸ Nat.le_add_right _ _)]
    · have hstart : q.start = p.start := by
        rw [hq]
        exact if_neg hbegins
      rw [hstart]
  have hbehind : base (editedDocs docs target rel newText) q.last + q.stop -
      base (editedDocs docs target rel newText) (target + 1) =
        base docs p.last + p.stop - base docs (target + 1) := by
    rw [hqlast, base_succ, base_succ, base_edited le_rfl, lengthAt_edited hindex]
    by_cases hends : p.last = target
    · have hstop := h.stop_le
      have hqstop := hfits.stop_le
      rw [hqlast, hends, lengthAt_edited hindex] at hqstop
      rw [hends] at hstop ⊢
      rw [base_edited le_rfl]
      omega
    · have hstop : q.stop = p.stop := by
        rw [hq]
        exact if_neg hends
      have hlater := @base_edited_later docs target rel newText hindex p.last (by omega)
      have hmono := @base_mono docs (target + 1) p.last (by omega)
      rw [base_succ] at hmono
      rw [hstop]
      omega
  rw [text_of_touching hfits (hqfirst ▸ hfirst) (hqlast ▸ hlast),
    text_of_touching h.toFits hfirst hlast, htake, hdrop, hbefore, hbehind, textAt_edited hindex,
    hstretch]

end ShortReel.RemapEdits
