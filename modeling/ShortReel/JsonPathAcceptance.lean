import ShortReel.JsonPathQueries

/-!
# Accepted paths

The paths that `parse_json_path` accepts are those of the grammar in which a compared query may be
padded, with the segments of the derivation.
-/

namespace ShortReel.JsonPathAcceptance

open JsonPathParser JsonPathGrammar JsonPathWords JsonPathFilters JsonPathQueries

variable {source : Text}

theorem readSliceBound_sound {text rest : Text} (h : readSliceBound source text = .ok rest) :
    SliceBound text rest := by
  unfold readSliceBound at h
  split at h
  · obtain ⟨after, hread, h⟩ := bind_eq_ok.mp h
    cases h
    exact .some (readInt_sound hread) (blanks_skip after)
  · cases h
    exact .none

theorem not_int_stop {stops : List Char} {rest : Text} (h : Follow stops rest)
    (hstops : ∀ c ∈ stops, ¬ Blank (.scalar c) ∧ ¬ Digit (.scalar c) ∧ c ≠ '-') :
    ¬ (peekIs '-' (skipWhitespace rest) || peekDigit (skipWhitespace rest)) = true := by
  obtain ⟨c, hc, tail, hskip⟩ := Follow.skip h fun c hc => (hstops c hc).1
  obtain ⟨-, hdigit, hsign⟩ := hstops c hc
  rw [hskip, Bool.or_eq_true]
  rintro (hpeek | hpeek)
  · obtain ⟨_, heq⟩ := peekIs_iff.mp hpeek
    cases heq
    exact hsign rfl
  · obtain ⟨d, _, heq, hd⟩ := peekDigit_iff.mp hpeek
    cases heq
    exact hdigit hd

theorem follow_digit {stops : List Char} {rest : Text} (h : Follow stops rest)
    (hstops : ∀ c ∈ stops, ¬ Digit (.scalar c)) : Stops Digit rest :=
  h.stops (fun _ hblank hd => not_blank_digit (.inr hd) hblank) hstops

theorem skip_int {text next rest : Text} (h : Int next rest) (hblanks : Blanks text next) :
    skipWhitespace text = next := by
  obtain ⟨c, tail, rfl, hc⟩ := int_head h
  exact skip_eq hblanks (not_blank_digit hc)

theorem readSliceBound_complete {text next rest : Text} (hblanks : Blanks text next)
    (h : SliceBound next rest) (hstop : Follow [':', ']'] rest) :
    readSliceBound source (skipWhitespace text) = .ok (skipWhitespace rest) := by
  unfold readSliceBound
  cases h with
  | none => rw [skip_of_blanks hblanks, if_neg (not_int_stop hstop (by decide))]
  | some h hbehind =>
      have hread := @readInt_complete source _ _ h (follow_digit (hstop.of_blanks hbehind) (by decide))
      rw [skip_int h hblanks, if_pos (int_start h), hread, ok_bind, skip_of_blanks hbehind]
      rfl

theorem readSliceEnd_sound {text rest : Text} (h : readSliceEnd source text = .ok rest) :
    ∃ next mid, Blanks text next ∧ (SliceBound next mid ∨ SliceBound next (':' :: mid)) ∧
      Blanks mid rest := by
  obtain ⟨after, hbound, h⟩ := bind_eq_ok.mp h
  have hbound := readSliceBound_sound hbound
  split at h
  · rename_i hpeek
    obtain ⟨tail, rfl⟩ := peekIs_iff.mp hpeek
    dsimp only at h
    split at h
    · exact (fail_ne_ok _ _ _ h).elim
    · cases h
      exact ⟨_, tail, blanks_skip text, .inr hbound, blanks_skip tail⟩
  · cases h
    exact ⟨_, _, blanks_skip text, .inl hbound, .nil⟩

theorem readSliceEnd_complete {text next rest : Text} (hblanks : Blanks text next)
    (h : SliceBound next rest) (hstop : Follow [']'] rest) :
    readSliceEnd source text = .ok (skipWhitespace rest) := by
  obtain ⟨c, hc, tail, hskip⟩ := Follow.skip hstop (by decide)
  rw [readSliceEnd, readSliceBound_complete hblanks h (hstop.mono (by decide)), ok_bind, hskip,
    if_neg (peekIs_stop hc (by decide))]
  rfl

theorem readSliceEnd_openStep {text next rest : Text} (hblanks : Blanks text next)
    (h : SliceBound next (':' :: rest)) (hstop : Follow [']'] rest) :
    readSliceEnd source text = .ok (skipWhitespace rest) := by
  have hcolon : Follow [':', ']'] (':' :: rest) := ⟨':', by decide, rest, .nil⟩
  have hskip : skipWhitespace (.scalar ':' :: rest) = .scalar ':' :: rest := skip_eq .nil (by decide)
  rw [readSliceEnd, readSliceBound_complete hblanks h hcolon, ok_bind, hskip,
    if_pos (peekIs_self _ _), List.tail_cons]
  dsimp only
  rw [if_neg (not_int_stop hstop (by decide))]
  rfl

theorem readSliceStart_complete {text rest : Text} (h : SliceBound text (':' :: rest)) :
    ∃ after, readSliceStart source text = .ok after ∧ skipWhitespace after = .scalar ':' :: rest := by
  unfold readSliceStart
  cases h with
  | none => exact ⟨_, if_pos (peekIs_self _ _), skip_eq .nil (by decide)⟩
  | some h hblanks =>
      have hstop : Follow [':'] _ := ⟨':', by decide, rest, hblanks⟩
      have hread := @readInt_complete source _ _ h (follow_digit hstop (by decide))
      obtain ⟨c, tail, rfl, hc⟩ := int_head h
      have hcolon : ¬ peekIs ':' (c :: tail) = true := by
        apply peekIs_of_ne
        rintro rfl
        revert hc
        decide
      rw [if_neg hcolon]
      exact ⟨_, hread, skip_eq hblanks (by decide)⟩

theorem parseFilter_sound {text rest : Text} (h : parseFilter source text = .ok rest) :
    Reads .or text rest := by
  obtain ⟨after, hread, h⟩ := bind_eq_ok.mp h
  cases h
  obtain ⟨first, mid, hblanks, hexpr, hmid⟩ := parseOr_sound _ hread
  exact ⟨first, mid, hblanks, hexpr, run_trans hmid (blanks_skip after)⟩

theorem parseFilter_complete {text next rest : Text} (hblanks : Blanks text next)
    (h : LogicalExpr true .or next rest) (hstop : Follow [']'] rest) :
    parseFilter source text = .ok (skipWhitespace rest) := by
  have hread : parseOr source (3 * text.length + 3) text = .ok (skipWhitespace rest) :=
    parses_of_logicalExpr h hblanks (Nat.le_refl _) (hstop.mono (by decide))
  rw [parseFilter, hread, ok_bind, skip_idem]
  rfl

theorem parseIndexOrSlice_sound {text rest : Text} {kind : SegmentKind}
    (h : parseIndexOrSlice source text = .ok (kind, rest)) :
    ∃ mid, Selector true kind text mid ∧ Blanks mid rest := by
  obtain ⟨after, hstart, h⟩ := bind_eq_ok.mp h
  have hskip := blanks_skip after
  unfold readSliceStart at hstart
  split at h
  · rename_i hcolon
    obtain ⟨tail, htail⟩ := peekIs_iff.mp hcolon
    obtain ⟨behind, hend, h⟩ := bind_eq_ok.mp h
    cases h
    rw [htail, List.tail_cons] at hend
    rw [htail] at hskip
    have hbound : SliceBound text (':' :: tail) := by
      split at hstart
      · rename_i hpeek
        obtain ⟨other, rfl⟩ := peekIs_iff.mp hpeek
        cases hstart
        rw [skip_eq .nil (by decide)] at htail
        cases htail
        exact .none
      · exact .some (readInt_sound hstart) hskip
    obtain ⟨next, mid, hblanks, hend | hend, hmid⟩ := readSliceEnd_sound hend
    · exact ⟨mid, .slice hbound hblanks hend, hmid⟩
    · exact ⟨mid, .openStep hbound hblanks hend, hmid⟩
  · rename_i hcolon
    cases h
    split at hstart
    · rename_i hpeek
      obtain ⟨tail, rfl⟩ := peekIs_iff.mp hpeek
      cases hstart
      rw [skip_eq .nil (by decide)] at hcolon
      exact absurd (peekIs_self _ _) hcolon
    · exact ⟨after, .index (readInt_sound hstart), hskip⟩

theorem parseSelector_sound {text rest : Text} {kind : SegmentKind}
    (h : parseSelector source text = .ok (kind, rest)) :
    ∃ mid, Selector true kind text mid ∧ Blanks mid rest := by
  unfold parseSelector at h
  split at h
  · rename_i hquote
    obtain ⟨after, hread, h⟩ := bind_eq_ok.mp h
    cases h
    exact ⟨rest, .name (readQuoted_iff.mp ⟨hquote, hread⟩), .nil⟩
  split at h
  · rename_i hpeek
    obtain ⟨tail, rfl⟩ := peekIs_iff.mp hpeek
    cases h
    exact ⟨tail, .wildcard, .nil⟩
  split at h
  · rename_i hpeek
    obtain ⟨tail, rfl⟩ := peekIs_iff.mp hpeek
    obtain ⟨after, hread, h⟩ := bind_eq_ok.mp h
    cases h
    obtain ⟨first, mid, hblanks, hexpr, hmid⟩ := parseFilter_sound hread
    exact ⟨mid, .filter hblanks hexpr, hmid⟩
  split at h
  · exact parseIndexOrSlice_sound h
  · exact (fail_ne_ok _ _ _ h).elim

theorem parseIndexOrSlice_index {text rest : Text} (h : Int text rest)
    (hstop : Follow [']'] rest) :
    parseIndexOrSlice source text = .ok (.index, skipWhitespace rest) := by
  obtain ⟨d, hd, tail, hskip⟩ := Follow.skip hstop (by decide)
  have hread := @readInt_complete source _ _ h (follow_digit hstop (by decide))
  have hcolon : ¬ peekIs ':' text = true := by
    obtain ⟨c, tail, rfl, hc⟩ := int_head h
    apply peekIs_of_ne
    rintro rfl
    revert hc
    decide
  rw [parseIndexOrSlice, readSliceStart, if_neg hcolon, hread, ok_bind, hskip,
    if_neg (peekIs_stop hd (by decide))]
  rfl

theorem parseIndexOrSlice_slice {text behind rest : Text} (h : SliceBound text (':' :: behind))
    (hend : readSliceEnd source behind = .ok (skipWhitespace rest)) :
    parseIndexOrSlice source text = .ok (.slice, skipWhitespace rest) := by
  obtain ⟨after, hstart, hskip⟩ := @readSliceStart_complete source _ _ h
  rw [parseIndexOrSlice, hstart, ok_bind, hskip, if_pos (peekIs_self _ _), List.tail_cons, hend,
    ok_bind]
  rfl

theorem sliceBound_head {text rest : Text} (h : SliceBound text (':' :: rest)) :
    ∃ c tail, text = c :: tail ∧ (c = ':' ∨ c = '-' ∨ Digit c) := by
  cases h with
  | none => exact ⟨_, _, rfl, .inl rfl⟩
  | some h =>
      obtain ⟨c, tail, rfl, hc⟩ := int_head h
      exact ⟨c, tail, rfl, .inr hc⟩

theorem parseSelector_index {c : PyChar} {tail : Text} (hc : c = ':' ∨ c = '-' ∨ Digit c) :
    parseSelector source (c :: tail) = parseIndexOrSlice source (c :: tail) := by
  have hquote : ¬ peekQuote (c :: tail) = true := by
    intro hpeek
    obtain ⟨quote, _, hquote, heq⟩ := peekQuote_iff.mp hpeek
    cases heq
    rcases hquote with rfl | rfl <;> revert hc <;> decide
  have hwildcard : ¬ peekIs '*' (c :: tail) = true := by
    apply peekIs_of_ne
    rintro rfl
    revert hc
    decide
  have hfilter : ¬ peekIs '?' (c :: tail) = true := by
    apply peekIs_of_ne
    rintro rfl
    revert hc
    decide
  have hstart : (peekIs ':' (c :: tail) || peekIs '-' (c :: tail) || peekDigit (c :: tail)) = true := by
    rcases hc with rfl | rfl | hc
    · rfl
    · rfl
    · rw [Bool.or_eq_true]
      exact .inr (peekDigit_iff.mpr ⟨_, _, rfl, hc⟩)
  rw [parseSelector, if_neg hquote, if_neg hwildcard, if_neg hfilter, if_pos hstart]

theorem parseSelector_complete {kind : SegmentKind} {text rest : Text}
    (h : Selector true kind text rest) (hstop : Follow [']'] rest) :
    ∃ after, parseSelector source text = .ok (kind, after) ∧
      skipWhitespace after = skipWhitespace rest := by
  cases h with
  | name h =>
      obtain ⟨hpeek, hread⟩ := (@readQuoted_iff source _ _).mpr h
      refine ⟨rest, ?_, rfl⟩
      rw [parseSelector, if_pos hpeek, hread, ok_bind]
      rfl
  | wildcard => exact ⟨rest, rfl, rfl⟩
  | index h =>
      have hread := @parseIndexOrSlice_index source _ _ h hstop
      obtain ⟨c, tail, rfl, hc⟩ := int_head h
      exact ⟨_, (parseSelector_index (.inr hc)).trans hread, skip_idem rest⟩
  | slice hstart hblanks hend =>
      have hread := @parseIndexOrSlice_slice source _ _ _ hstart
        (readSliceEnd_complete hblanks hend hstop)
      obtain ⟨c, tail, rfl, hc⟩ := sliceBound_head hstart
      exact ⟨_, (parseSelector_index hc).trans hread, skip_idem rest⟩
  | openStep hstart hblanks hend =>
      have hread := @parseIndexOrSlice_slice source _ _ _ hstart
        (readSliceEnd_openStep hblanks hend hstop)
      obtain ⟨c, tail, rfl, hc⟩ := sliceBound_head hstart
      exact ⟨_, (parseSelector_index hc).trans hread, skip_idem rest⟩
  | @filter text _ _ hblanks h =>
      have hread := @parseFilter_complete source _ _ _ hblanks h hstop
      have hselector : parseSelector source (.scalar '?' :: text) =
          (parseFilter source text).bind fun after => .ok (.filter, after) := rfl
      refine ⟨_, ?_, skip_idem rest⟩
      rw [hselector, hread]
      rfl

theorem selector_start {kind : SegmentKind} {text rest : Text} (h : Selector true kind text rest) :
    Stops Blank text := by
  have hslice : ∀ {text rest : Text}, SliceBound text (':' :: rest) → Stops Blank text := by
    intro text rest h
    obtain ⟨c, tail, rfl, rfl | hc⟩ := sliceBound_head h
    · exact stops_cons (by decide)
    · exact stops_cons (not_blank_digit hc)
  cases h with
  | name h =>
      obtain ⟨quote, tail, rfl | rfl, rfl⟩ := string_head h <;> exact stops_cons (by decide)
  | wildcard => exact stops_cons (by decide)
  | index h =>
      obtain ⟨c, tail, rfl, hc⟩ := int_head h
      exact stops_cons (not_blank_digit hc)
  | slice hstart => exact hslice hstart
  | openStep hstart => exact hslice hstart
  | filter => exact stops_cons (by decide)

theorem closeBracket_sound {kind kind' : SegmentKind} {text rest : Text}
    (h : closeBracket source kind (skipWhitespace text) = .ok (kind', rest)) :
    kind = kind' ∧ Blanks text (']' :: rest) := by
  unfold closeBracket at h
  split at h
  · exact (fail_ne_ok _ _ _ h).elim
  split at h
  · rename_i hpeek
    obtain ⟨tail, htail⟩ := peekIs_iff.mp hpeek
    rw [htail] at h
    cases h
    exact ⟨rfl, htail ▸ blanks_skip text⟩
  · exact (fail_ne_ok _ _ _ h).elim

theorem parseSegment_sound {kind : SegmentKind} {c : PyChar} {text rest : Text}
    (h : parseSegment source c text = .ok (kind, rest)) :
    ChildSegment true kind (c :: text) rest := by
  unfold parseSegment at h
  split at h
  · rename_i hdot
    subst hdot
    unfold parseDotSegment at h
    split at h
    · exact (fail_ne_ok _ _ _ h).elim
    split at h
    · rename_i hpeek
      obtain ⟨tail, rfl⟩ := peekIs_iff.mp hpeek
      cases h
      exact .wildcard
    · obtain ⟨after, hread, h⟩ := bind_eq_ok.mp h
      cases h
      exact .shorthand (readShorthand_sound hread)
  split at h
  · rename_i hbracket
    subst hbracket
    obtain ⟨⟨found, after⟩, hselector, h⟩ := bind_eq_ok.mp h
    obtain ⟨mid, hselector, hmid⟩ := parseSelector_sound hselector
    obtain ⟨rfl, hclose⟩ := closeBracket_sound h
    exact .bracket (blanks_skip text) hselector (run_trans hmid hclose)
  · exact (fail_ne_ok _ _ _ h).elim

theorem parseSegment_complete {kind : SegmentKind} {c : PyChar} {text rest : Text}
    (h : ChildSegment true kind (c :: text) rest) (hstop : Stops NameChar rest) :
    parseSegment source c text = .ok (kind, rest) := by
  cases h with
  | wildcard => rfl
  | shorthand h =>
      obtain ⟨hdot, hstar⟩ := memberName_head h
      rw [parseSegment, if_pos rfl, parseDotSegment, if_neg hdot, if_neg hstar,
        readShorthand_complete h hstop, ok_bind]
      rfl
  | bracket hopen h hclose =>
      obtain ⟨after, hread, hskip⟩ :=
        @parseSelector_complete source _ _ _ h ⟨']', by decide, rest, hclose⟩
      rw [parseSegment, if_neg (by decide), if_pos rfl, parseBracketSegment, skip_of_blanks hopen,
        skip_of_stops (selector_start h), hread, ok_bind]
      dsimp only
      rw [hskip, skip_eq hclose (by decide), closeBracket, if_neg (peekIs_of_ne (by decide)),
        if_pos (peekIs_self _ _), List.tail_cons]

theorem childSegment_head {kind : SegmentKind} {text rest : Text}
    (h : ChildSegment true kind text rest) :
    ∃ (c : Char) (tail : Text), (c = '.' ∨ c = '[') ∧ text = .scalar c :: tail := by
  cases h with
  | wildcard => exact ⟨_, _, .inl rfl, rfl⟩
  | shorthand => exact ⟨_, _, .inl rfl, rfl⟩
  | bracket => exact ⟨_, _, .inr rfl, rfl⟩

theorem segments_start {kinds : List SegmentKind} {text : Text} (h : Segments true kinds text) :
    Stops NameChar text := by
  cases h with
  | nil => exact stops_nil _
  | cons hblanks h =>
      cases hblanks with
      | nil =>
          obtain ⟨c, tail, rfl | rfl, rfl⟩ := childSegment_head h <;> exact stops_cons (by decide)
      | cons hblank => exact stops_cons (not_blank_name hblank)

def Trimmed (text : Text) : Prop :=
  ∀ c ∈ text.getLast?, ¬ Blank c

theorem getLast_of_suffix {text rest : Text} (h : rest <:+ text) (hne : rest ≠ []) :
    text.getLast? = rest.getLast? := by
  obtain ⟨front, rfl⟩ := h
  rw [List.getLast?_append]
  cases hlast : rest.getLast? with
  | none => exact absurd (List.getLast?_eq_none_iff.mp hlast) hne
  | some c => rfl

theorem Trimmed.of_suffix {text rest : Text} (h : Trimmed text) (hsuffix : rest <:+ text) :
    Trimmed rest := by
  by_cases hne : rest = []
  · subst hne
    intro c hc
    cases hc
  · unfold Trimmed
    rwa [← getLast_of_suffix hsuffix hne]

theorem trimmed_of_suffix {text rest : Text} (h : Trimmed rest) (hne : rest ≠ [])
    (hsuffix : rest <:+ text) : Trimmed text := by
  unfold Trimmed
  rwa [getLast_of_suffix hsuffix hne]

theorem all_of_run {p : PyChar → Prop} {text rest : Text} (h : Run p text rest)
    (hrest : rest = []) : ∀ c ∈ text, p c := by
  induction h with
  | nil =>
      intro c hc
      rw [hrest] at hc
      cases hc
  | cons hc _ ih =>
      intro d hd
      rcases List.mem_cons.mp hd with rfl | hd
      · exact hc
      · exact ih hrest d hd

theorem trimmed_of_run {p : PyChar → Prop} {text : Text} (h : Run p text [])
    (hp : ∀ c, p c → ¬ Blank c) : Trimmed text := fun c hc =>
  hp c (all_of_run h rfl c (List.mem_of_getLast? hc))

theorem eq_nil_of_blanks {text : Text} (h : Blanks text []) (htrimmed : Trimmed text) :
    text = [] := by
  cases hlast : text.getLast? with
  | none => exact List.getLast?_eq_none_iff.mp hlast
  | some c => exact absurd (all_of_run h rfl c (List.mem_of_getLast? hlast)) (htrimmed c hlast)

theorem sliceBound_suffix {text rest : Text} (h : SliceBound text rest) : rest <:+ text := by
  cases h with
  | none => exact List.suffix_rfl
  | some h hblanks => exact (run_suffix hblanks).trans (int_suffix h)

theorem selector_suffix {kind : SegmentKind} {text rest : Text} (h : Selector true kind text rest) :
    rest <:+ text := by
  cases h with
  | name h => exact string_suffix h
  | wildcard => exact List.suffix_cons _ _
  | index h => exact int_suffix h
  | slice hstart hblanks hend =>
      have hstart := (List.suffix_cons _ _).trans (sliceBound_suffix hstart)
      exact ((sliceBound_suffix hend).trans (run_suffix hblanks)).trans hstart
  | openStep hstart hblanks hend =>
      have hstart := (List.suffix_cons _ _).trans (sliceBound_suffix hstart)
      have hend := (List.suffix_cons _ _).trans (sliceBound_suffix hend)
      exact (hend.trans (run_suffix hblanks)).trans hstart
  | filter hblanks h =>
      have hfilter := (logicalExpr_suffix h).trans (run_suffix hblanks)
      exact hfilter.trans (List.suffix_cons _ _)

theorem childSegment_suffix {kind : SegmentKind} {c : PyChar} {text rest : Text}
    (h : ChildSegment true kind (c :: text) rest) : rest <:+ text := by
  cases h with
  | wildcard => exact List.suffix_cons _ _
  | shorthand h => exact memberName_suffix h
  | bracket hopen h hclose =>
      have hclose := (List.suffix_cons _ _).trans (run_suffix hclose)
      exact (hclose.trans (selector_suffix h)).trans (run_suffix hopen)

theorem childSegment_trimmed {kind : SegmentKind} {text : Text}
    (h : ChildSegment true kind text []) : Trimmed text := by
  cases h with
  | wildcard =>
      intro c hc
      cases hc
      decide
  | shorthand h =>
      obtain ⟨hc, hrun⟩ := h
      have hname : Run NameChar (_ :: _) [] := .cons (.inl hc) hrun
      exact trimmed_of_suffix (trimmed_of_run hname fun c hc hblank => not_blank_name hblank hc)
        (List.cons_ne_nil _ _) (List.suffix_cons _ _)
  | bracket hopen h hclose =>
      have hbracket := (run_suffix hclose).trans ((selector_suffix h).trans (run_suffix hopen))
      refine trimmed_of_suffix ?_ (List.cons_ne_nil _ _) (hbracket.trans (List.suffix_cons _ _))
      intro c hc
      cases hc
      decide

theorem segments_trimmed {kinds : List SegmentKind} {text : Text} (h : Segments true kinds text) :
    Trimmed text := by
  induction h with
  | nil =>
      intro c hc
      cases hc
  | @cons _ _ text inner behind hblanks h hrest ih =>
      have hinner : Trimmed inner := by
        by_cases hne : behind = []
        · subst hne
          exact childSegment_trimmed h
        · obtain ⟨c, tail, -, rfl⟩ := childSegment_head h
          exact trimmed_of_suffix ih hne ((childSegment_suffix h).trans (List.suffix_cons _ _))
      obtain ⟨c, tail, -, rfl⟩ := childSegment_head h
      exact trimmed_of_suffix hinner (List.cons_ne_nil _ _) (run_suffix hblanks)

theorem parseSegments_sound {fuel : ℕ} {kinds : List SegmentKind} {text : Text}
    (htrimmed : Trimmed text) (h : parseSegments source fuel (skipWhitespace text) = .ok kinds) :
    Segments true kinds text := by
  have hblanks := blanks_skip text
  induction fuel generalizing text kinds with
  | zero =>
      unfold parseSegments at h
      split at h
      · rename_i hempty
        cases h
        rw [List.isEmpty_iff.mp hempty] at hblanks
        exact eq_nil_of_blanks hblanks htrimmed ▸ .nil
      · exact (fail_ne_ok _ _ _ h).elim
  | succ fuel ih =>
      cases hskip : skipWhitespace text with
      | nil =>
          rw [hskip] at h hblanks
          cases h
          exact eq_nil_of_blanks hblanks htrimmed ▸ .nil
      | cons c rest =>
          rw [hskip] at h hblanks
          obtain ⟨⟨kind, after⟩, hsegment, h⟩ := bind_eq_ok.mp h
          obtain ⟨later, hlater, h⟩ := bind_eq_ok.mp h
          cases h
          have hsegment := parseSegment_sound hsegment
          have hsuffix : after <:+ text :=
            ((childSegment_suffix hsegment).trans (List.suffix_cons c rest)).trans
              (run_suffix hblanks)
          exact .cons hblanks hsegment
            (ih (htrimmed.of_suffix hsuffix) hlater (blanks_skip after))

theorem parseSegments_complete {fuel : ℕ} {kinds : List SegmentKind} {text : Text}
    (h : Segments true kinds text) (hfuel : text.length ≤ fuel) :
    parseSegments source fuel (skipWhitespace text) = .ok kinds := by
  induction h generalizing fuel with
  | nil => cases fuel <;> rfl
  | cons hblanks h hrest ih =>
      have hstop := segments_start hrest
      obtain ⟨c, tail, hc, rfl⟩ := childSegment_head h
      have hblank : ¬ Blank (.scalar c) := by
        rcases hc with rfl | rfl <;> decide
      have hlonger := (run_suffix hblanks).length_le
      have hshorter := (childSegment_suffix h).length_le
      rw [List.length_cons] at hlonger
      cases fuel with
      | zero => omega
      | succ fuel =>
          rw [skip_eq hblanks hblank, parseSegments, parseSegment_complete h hstop, ok_bind]
          dsimp only
          rw [ih (by omega), ok_bind]
          rfl

theorem any_isBlank {c : Option PyChar} : c.any isBlank = true ↔ ∃ d ∈ c, Blank d := by
  cases c <;> simp [isBlank_iff]

theorem query_trimmed {kinds : List SegmentKind} {text : Text} (h : Query true kinds text) :
    Trimmed text := by
  obtain ⟨h⟩ := h
  rename_i tail
  by_cases hne : tail = []
  · subst hne
    intro c hc
    cases hc
    decide
  · exact trimmed_of_suffix (segments_trimmed h) hne (List.suffix_cons _ _)

theorem parseJsonPath_iff {path : ParsedJsonPath} :
    parseJsonPath source = .ok path ↔ path.source = source ∧ Query true path.segments source := by
  constructor
  · intro h
    unfold parseJsonPath at h
    split at h
    · cases h
    rename_i hends
    unfold parse at h
    split at h
    · rename_i hroot
      obtain ⟨kinds, hkinds, h⟩ := bind_eq_ok.mp h
      cases h
      obtain ⟨tail, htail⟩ := peekIs_iff.mp hroot
      have htrimmed : Trimmed source := fun c hc hblank =>
        hends (.inr (any_isBlank.mpr ⟨c, hc, hblank⟩))
      have hsuffix : tail <:+ source := htail ▸ List.suffix_cons _ _
      rw [show source.tail = tail from congrArg List.tail htail] at hkinds
      refine ⟨rfl, ?_⟩
      have hquery := Query.query (parseSegments_sound (htrimmed.of_suffix hsuffix) hkinds)
      exact htail ▸ hquery
    · exact (fail_ne_ok _ _ _ h).elim
  · obtain ⟨text, kinds⟩ := path
    rintro ⟨rfl, h⟩
    have hends : ¬ ((text.head?.any isBlank : Prop) ∨ (text.getLast?.any isBlank : Prop)) := by
      rintro (hfirst | hlast)
      · obtain ⟨c, hc, hblank⟩ := any_isBlank.mp hfirst
        obtain ⟨-⟩ := h
        cases hc
        exact absurd hblank (by decide)
      · obtain ⟨c, hc, hblank⟩ := any_isBlank.mp hlast
        exact query_trimmed h c hc hblank
    rw [parseJsonPath, if_neg hends]
    obtain ⟨h⟩ := h
    rw [parse, if_pos (peekIs_self _ _), List.tail_cons]
    dsimp only at h ⊢
    rw [parseSegments_complete h (List.suffix_cons (.scalar '$') _).length_le, ok_bind]
    rfl

end ShortReel.JsonPathAcceptance
