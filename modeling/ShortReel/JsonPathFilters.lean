import ShortReel.JsonPathWords

/-!
# Filters of a path

The parser of a filter accepts what the grammar derives where the queries of a comparison may be
padded, and leaves what the derivation leaves, up to blanks.
-/

namespace ShortReel.JsonPathFilters

open JsonPathParser JsonPathGrammar JsonPathWords

variable {source : Text}

theorem padding_iff {text rest : Text} : Padding true text rest ↔ Blanks text rest := by
  simp [Padding]

theorem skip_idem (text : Text) : skipWhitespace (skipWhitespace text) = skipWhitespace text :=
  (skip_of_blanks (blanks_skip text)).symm

theorem skip_eq {text rest : Text} {c : PyChar} (h : Blanks text (c :: rest)) (hc : ¬ Blank c) :
    skipWhitespace text = c :: rest := by
  rw [skip_of_blanks h, skip_of_stops (stops_cons hc)]

theorem Follow.skip {stops : List Char} {rest : Text} (h : Follow stops rest)
    (hstops : ∀ c ∈ stops, ¬ Blank (.scalar c)) :
    ∃ c ∈ stops, ∃ tail, skipWhitespace rest = .scalar c :: tail := by
  obtain ⟨c, hc, tail, hblanks⟩ := h
  exact ⟨c, hc, tail, skip_eq hblanks (hstops c hc)⟩

theorem string_head {text rest : Text} (h : StringLiteral text rest) :
    ∃ (quote : Char) (tail : Text), (quote = '\'' ∨ quote = '"') ∧ text = .scalar quote :: tail := by
  obtain ⟨hquote, -⟩ := h
  exact ⟨_, _, hquote, rfl⟩

theorem int_head {text rest : Text} (h : Int text rest) :
    ∃ c tail, text = c :: tail ∧ (c = '-' ∨ Digit c) := by
  cases h with
  | zero => exact ⟨_, _, rfl, .inr (by decide)⟩
  | positive hd => exact ⟨_, _, rfl, .inr (digit_of_nonzero hd)⟩
  | negative => exact ⟨_, _, rfl, .inl rfl⟩

theorem int_start {text rest : Text} (h : Int text rest) :
    (peekIs '-' text || peekDigit text) = true :=
  numberStart (.number (.int h) .none .none)

theorem not_blank_digit {c : PyChar} (h : c = '-' ∨ Digit c) : ¬ Blank c := by
  intro hblank
  rcases h with rfl | h
  · exact absurd hblank (by decide)
  · cases c with
    | scalar c =>
        rcases hblank with rfl | rfl | rfl | rfl <;> revert h <;> decide
    | surrogate => exact h

theorem not_quote_int {text rest : Text} (h : Int text rest) : ¬ peekQuote text = true := by
  intro hpeek
  obtain ⟨quote, tail, hquote, rfl⟩ := peekQuote_iff.mp hpeek
  obtain ⟨c, _, heq, hc⟩ := int_head h
  cases heq
  rcases hquote with rfl | rfl <;> revert hc <;> decide

theorem readSingularBracket_sound {text rest : Text}
    (h : readSingularBracket source text = .ok rest) :
    SingularSegment true ('[' :: text) rest := by
  obtain ⟨after, hread, h⟩ := bind_eq_ok.mp h
  have hclose : Blanks after (.scalar ']' :: rest) := by
    unfold closeSingularBracket at h
    split at h
    · exact (fail_ne_ok _ _ _ h).elim
    split at h
    · rename_i hpeek
      obtain ⟨tail, htail⟩ := peekIs_iff.mp hpeek
      rw [htail] at h
      cases h
      exact htail ▸ blanks_skip after
    · exact (fail_ne_ok _ _ _ h).elim
  have hopen := padding_iff.mpr (blanks_skip text)
  unfold readSingularSelector at hread
  split at hread
  · rename_i hquote
    exact .name hopen (readQuoted_iff.mp ⟨hquote, hread⟩) (padding_iff.mpr hclose)
  split at hread
  · exact .index hopen (readInt_sound hread) (padding_iff.mpr hclose)
  · exact (fail_ne_ok _ _ _ hread).elim

theorem closeSingularBracket_complete {text rest : Text} (h : Blanks text (.scalar ']' :: rest)) :
    closeSingularBracket source (skipWhitespace text) = .ok rest := by
  rw [skip_eq h (by decide)]
  rfl

theorem readSingularBracket_complete {text rest : Text}
    (h : SingularSegment true ('[' :: text) rest) :
    readSingularBracket source text = .ok rest := by
  unfold readSingularBracket
  cases h with
  | name hopen h hclose =>
      rw [padding_iff] at hopen hclose
      obtain ⟨hpeek, hread⟩ := readQuoted_iff.mpr h
      obtain ⟨quote, tail, hquote, rfl⟩ := string_head h
      have hblank : ¬ Blank (.scalar quote) := by
        rcases hquote with rfl | rfl <;> decide
      rw [skip_eq hopen hblank, readSingularSelector, if_pos hpeek, hread, ok_bind]
      exact closeSingularBracket_complete hclose
  | index hopen h hclose =>
      rw [padding_iff] at hopen hclose
      have hstop : Follow [']'] _ := ⟨']', List.mem_singleton_self _, _, hclose⟩
      have hread := @readInt_complete source _ _ h (hstop.stops ?_ (by decide))
      have hquote := not_quote_int h
      have hstart := int_start h
      obtain ⟨c, tail, rfl, hc⟩ := int_head h
      · rw [skip_eq hopen (not_blank_digit hc), readSingularSelector, if_neg hquote, if_pos hstart,
          hread, ok_bind]
        exact closeSingularBracket_complete hclose
      · exact fun c hblank hd => not_blank_digit (.inr hd) hblank

theorem singularSegments_sound {fuel : ℕ} {text rest : Text}
    (h : singularSegments source fuel text = .ok rest) : SingularSegments true text rest := by
  induction fuel generalizing text with
  | zero =>
      cases h
      exact .nil
  | succ fuel ih =>
      have hblanks := blanks_skip text
      rw [singularSegments] at h
      split at h
      · rename_i hdot
        obtain ⟨tail, htail⟩ := peekIs_iff.mp hdot
        rw [htail] at h hblanks
        rw [List.tail_cons] at h
        split at h
        · exact (fail_ne_ok _ _ _ h).elim
        split at h
        · exact (fail_ne_ok _ _ _ h).elim
        · obtain ⟨after, hread, h⟩ := bind_eq_ok.mp h
          exact .cons hblanks (.shorthand (readShorthand_sound hread)) (ih h)
      split at h
      · rename_i hbracket
        obtain ⟨tail, htail⟩ := peekIs_iff.mp hbracket
        rw [htail] at h hblanks
        obtain ⟨after, hread, h⟩ := bind_eq_ok.mp h
        exact .cons hblanks (readSingularBracket_sound hread) (ih h)
      · cases h
        exact .nil

def operandStops : List Char :=
  ['=', '!', '<', '>', '&', '|', ')', ']']

theorem not_blank_name {c : PyChar} (hblank : Blank c) : ¬ NameChar c := by
  cases c with
  | scalar c => rcases hblank with rfl | rfl | rfl | rfl <;> decide
  | surrogate => exact fun _ => hblank

theorem segment_follow {text rest : Text} (h : SingularSegments true text rest)
    (hstop : Follow operandStops rest) : Follow ('.' :: '[' :: operandStops) text := by
  cases h with
  | nil => exact hstop.mono fun c hc => List.mem_cons_of_mem _ (List.mem_cons_of_mem _ hc)
  | cons hblanks hsegment =>
      cases hsegment with
      | shorthand => exact ⟨'.', by simp, _, hblanks⟩
      | name => exact ⟨'[', by simp, _, hblanks⟩
      | index => exact ⟨'[', by simp, _, hblanks⟩

theorem run_suffix {p : PyChar → Prop} {text rest : Text} (h : Run p text rest) :
    rest <:+ text := by
  induction h with
  | nil => exact List.suffix_rfl
  | cons _ _ ih => exact ih.trans (List.suffix_cons _ _)

theorem memberName_suffix {text rest : Text} (h : MemberName text rest) : rest <:+ text := by
  obtain ⟨-, hrun⟩ := h
  exact (run_suffix hrun).trans (List.suffix_cons _ _)

theorem int_suffix {text rest : Text} (h : Int text rest) : rest <:+ text := by
  cases h with
  | zero => exact List.suffix_cons _ _
  | positive _ hrun => exact (run_suffix hrun).trans (List.suffix_cons _ _)
  | negative _ hrun => exact (run_suffix hrun).trans ⟨[_, _], rfl⟩

theorem digits_suffix {text rest : Text} (h : Digits text rest) : rest <:+ text := by
  obtain ⟨-, hrun⟩ := h
  exact (run_suffix hrun).trans (List.suffix_cons _ _)

theorem string_suffix {text rest : Text} (h : StringLiteral text rest) : rest <:+ text := by
  obtain ⟨-, hrest⟩ := h
  exact (quotedRest_suffix hrest).trans (List.suffix_cons _ _)

theorem integerPart_suffix {text rest : Text} (h : IntegerPart text rest) : rest <:+ text := by
  cases h with
  | int h => exact int_suffix h
  | negativeZero => exact ⟨[_, _], rfl⟩

theorem fraction_suffix {text rest : Text} (h : Fraction text rest) : rest <:+ text := by
  cases h with
  | none => exact List.suffix_rfl
  | digits h => exact (digits_suffix h).trans (List.suffix_cons _ _)

theorem exponent_suffix {text rest : Text} (h : Exponent text rest) : rest <:+ text := by
  cases h with
  | none => exact List.suffix_rfl
  | unsigned _ h => exact (digits_suffix h).trans (List.suffix_cons _ _)
  | signed _ _ h => exact (digits_suffix h).trans ⟨[_, _], rfl⟩

theorem number_suffix {text rest : Text} (h : Number text rest) : rest <:+ text := by
  obtain ⟨hint, hfraction, hexponent⟩ := h
  exact ((exponent_suffix hexponent).trans (fraction_suffix hfraction)).trans
    (integerPart_suffix hint)

theorem literal_suffix {text rest : Text} (h : Literal text rest) : rest <:+ text := by
  cases h with
  | number h => exact number_suffix h
  | string h => exact string_suffix h
  | keyword _ h => exact h ▸ List.suffix_append _ _

theorem singularSegment_suffix {c : PyChar} {text rest : Text}
    (h : SingularSegment true (c :: text) rest) : rest <:+ text := by
  cases h with
  | shorthand h => exact memberName_suffix h
  | name hopen h hclose =>
      have hinner := (string_suffix h).trans (run_suffix (padding_iff.mp hopen))
      have hbracket := (run_suffix (padding_iff.mp hclose)).trans hinner
      exact (List.suffix_cons _ _).trans hbracket
  | index hopen h hclose =>
      have hinner := (int_suffix h).trans (run_suffix (padding_iff.mp hopen))
      have hbracket := (run_suffix (padding_iff.mp hclose)).trans hinner
      exact (List.suffix_cons _ _).trans hbracket

theorem singularSegment_cons {padded : Bool} {text rest : Text}
    (h : SingularSegment padded text rest) : ∃ c tail, text = c :: tail := by
  cases h <;> exact ⟨_, _, rfl⟩

theorem singularSegments_suffix {text rest : Text} (h : SingularSegments true text rest) :
    rest <:+ text := by
  induction h with
  | nil => exact List.suffix_rfl
  | cons hblanks hsegment _ ih =>
      obtain ⟨c, tail, rfl⟩ := singularSegment_cons hsegment
      have hinner := (singularSegment_suffix hsegment).trans (List.suffix_cons c _)
      exact (ih.trans hinner).trans (run_suffix hblanks)

theorem comparable_suffix {text rest : Text} (h : Comparable true text rest) : rest <:+ text := by
  cases h with
  | literal h => exact literal_suffix h
  | query h =>
      obtain ⟨h⟩ := h
      exact (singularSegments_suffix h).trans (List.suffix_cons _ _)

theorem peekIs_stop {stops : List Char} {c d : Char} {tail : Text} (hc : c ∈ stops) (hd : d ∉ stops) :
    ¬ peekIs d (.scalar c :: tail) = true := by
  apply peekIs_of_ne
  rintro heq
  cases heq
  exact hd hc

theorem memberName_head {text rest : Text} (h : MemberName text rest) :
    ¬ peekIs '.' text = true ∧ ¬ peekIs '*' text = true := by
  obtain ⟨hc, -⟩ := h
  constructor <;> intro hpeek <;> obtain ⟨_, heq⟩ := peekIs_iff.mp hpeek <;> cases heq <;>
    revert hc <;> decide

theorem singularSegments_complete {fuel : ℕ} {text rest : Text}
    (h : SingularSegments true text rest) (hstop : Follow operandStops rest)
    (hfuel : text.length ≤ fuel) : singularSegments source fuel text = .ok rest := by
  induction h generalizing fuel with
  | nil =>
      cases fuel with
      | zero => rfl
      | succ fuel =>
          obtain ⟨c, hc, tail, hskip⟩ := Follow.skip hstop (by decide)
          rw [singularSegments, hskip]
          rw [if_neg (peekIs_stop hc (by decide)), if_neg (peekIs_stop hc (by decide))]
  | @cons text inner behind rest hblanks hsegment hrest ih =>
      have hlonger := (run_suffix hblanks).length_le
      have hshorter : behind.length < inner.length := by
        obtain ⟨c, tail, rfl⟩ := singularSegment_cons hsegment
        exact Nat.lt_succ_of_le (singularSegment_suffix hsegment).length_le
      cases fuel with
      | zero => omega
      | succ fuel =>
          have hfollow := segment_follow hrest hstop
          have hbehind := ih hstop (by omega : behind.length ≤ fuel)
          rw [singularSegments]
          cases hsegment with
          | shorthand h =>
              have hhead := memberName_head h
              have hread := @readShorthand_complete source _ _ h
                (hfollow.stops (fun _ => not_blank_name) (by decide))
              rw [skip_eq hblanks (by decide), if_pos (peekIs_self _ _), List.tail_cons, if_neg hhead.1,
                if_neg hhead.2, hread, ok_bind, hbehind]
          | name hopen h hclose =>
              have hread := @readSingularBracket_complete source _ _ (.name hopen h hclose)
              rw [skip_eq hblanks (by decide), if_neg (peekIs_of_ne (by decide)),
                if_pos (peekIs_self _ _),
                List.tail_cons, hread, ok_bind, hbehind]
          | index hopen h hclose =>
              have hread := @readSingularBracket_complete source _ _ (.index hopen h hclose)
              rw [skip_eq hblanks (by decide), if_neg (peekIs_of_ne (by decide)),
                if_pos (peekIs_self _ _),
                List.tail_cons, hread, ok_bind, hbehind]

theorem not_number_blank {c : PyChar} (hblank : Blank c) : ¬ NumberChar c := by
  cases c with
  | scalar c => rcases hblank with rfl | rfl | rfl | rfl <;> unfold NumberChar <;> decide
  | surrogate => exact fun _ => hblank

theorem follow_number {rest : Text} (h : Follow operandStops rest) : Stops NumberChar rest := by
  refine h.stops (fun _ => not_number_blank) ?_
  unfold NumberChar
  decide

def OperandStart (c : PyChar) : Prop :=
  Digit c ∨ ∃ d ∈ ['\'', '"', '-', 't', 'f', 'n', '@'], c = .scalar d

theorem literal_start {text rest : Text} (h : Literal text rest) :
    ∃ c tail, text = c :: tail ∧ OperandStart c ∧ c ≠ '@' := by
  cases h with
  | number h =>
      obtain ⟨hint, -, -⟩ := h
      cases hint with
      | negativeZero => exact ⟨_, _, rfl, .inr ⟨'-', by decide, rfl⟩, by decide⟩
      | int h =>
          obtain ⟨c, tail, rfl, rfl | hd⟩ := int_head h
          · exact ⟨_, _, rfl, .inr ⟨'-', by decide, rfl⟩, by decide⟩
          · refine ⟨_, _, rfl, .inl hd, ?_⟩
            rintro rfl
            revert hd
            decide
  | string h =>
      obtain ⟨quote, tail, rfl | rfl, rfl⟩ := string_head h
      · exact ⟨_, _, rfl, .inr ⟨'\'', by decide, rfl⟩, by decide⟩
      · exact ⟨_, _, rfl, .inr ⟨'"', by decide, rfl⟩, by decide⟩
  | keyword hword h =>
      obtain rfl := h
      simp only [List.mem_cons, List.not_mem_nil, or_false] at hword
      rcases hword with rfl | rfl | rfl
      · exact ⟨_, _, rfl, .inr ⟨'t', by decide, rfl⟩, by decide⟩
      · exact ⟨_, _, rfl, .inr ⟨'f', by decide, rfl⟩, by decide⟩
      · exact ⟨_, _, rfl, .inr ⟨'n', by decide, rfl⟩, by decide⟩

theorem comparable_start {text rest : Text} (h : Comparable true text rest) :
    ∃ c tail, text = c :: tail ∧ OperandStart c := by
  cases h with
  | literal h =>
      obtain ⟨c, tail, rfl, hc, -⟩ := literal_start h
      exact ⟨c, tail, rfl, hc⟩
  | query h =>
      obtain ⟨-⟩ := h
      exact ⟨_, _, rfl, .inr ⟨'@', by decide, rfl⟩⟩

theorem operandStart_ne {c : PyChar} (h : OperandStart c) {d : Char}
    (hdigit : ¬ Digit d) (hd : d ∉ ['\'', '"', '-', 't', 'f', 'n', '@']) : c ≠ d := by
  rintro rfl
  rcases h with h | ⟨e, he, heq⟩
  · exact hdigit h
  · cases heq
    exact hd he

theorem operandStart_not_blank {c : PyChar} (h : OperandStart c) : ¬ Blank c := by
  intro hblank
  cases c with
  | scalar c =>
      rcases hblank with rfl | rfl | rfl | rfl <;>
        exact operandStart_ne h (by decide) (by decide) rfl
  | surrogate => exact hblank

theorem parseOperand_sound {text rest : Text} (h : parseOperand source text = .ok rest) :
    Comparable true text rest := by
  unfold parseOperand at h
  split at h
  · rename_i hpeek
    obtain ⟨tail, rfl⟩ := peekIs_iff.mp hpeek
    exact .query (.query (singularSegments_sound h))
  · exact .literal (parseLiteral_sound h)

theorem parseOperand_query {text rest : Text} (hpeek : peekIs '@' text = true)
    (h : parseOperand source text = .ok rest) : SingularQuery true text rest := by
  unfold parseOperand at h
  rw [if_pos hpeek] at h
  obtain ⟨tail, rfl⟩ := peekIs_iff.mp hpeek
  exact .query (singularSegments_sound h)

theorem parseOperand_complete {text rest : Text} (h : Comparable true text rest)
    (hstop : Follow operandStops rest) : parseOperand source text = .ok rest := by
  unfold parseOperand
  cases h with
  | literal h =>
      have hread := @parseLiteral_complete source _ _ h (follow_number hstop)
      obtain ⟨c, tail, rfl, -, hc⟩ := literal_start h
      rw [if_neg (peekIs_of_ne hc), hread]
  | query h =>
      obtain ⟨h⟩ := h
      rw [if_pos (peekIs_self _ _), List.tail_cons]
      exact singularSegments_complete h hstop (Nat.le_succ _)

end ShortReel.JsonPathFilters
