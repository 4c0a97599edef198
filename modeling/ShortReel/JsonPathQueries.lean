import ShortReel.JsonPathFilters

/-!
# Logical expressions of a path

Of a text, the parser of a filter reads a logical expression of the grammar in which a compared query
may be padded, and every such expression that a stop follows.
-/

namespace ShortReel.JsonPathQueries

open JsonPathParser JsonPathGrammar JsonPathWords JsonPathFilters

variable {source : Text}

def Reads (level : Level) (text rest : Text) : Prop :=
  ∃ first mid, Blanks text first ∧ LogicalExpr true level first mid ∧ Blanks mid rest

theorem reads_or {text after rest : Text} (h : Reads .and text after)
    (hrest : skipWhitespace after = rest ∨
      ∃ behind, skipWhitespace after = .scalar '|' :: .scalar '|' :: behind ∧ Reads .or behind rest) :
    Reads .or text rest := by
  obtain ⟨first, mid, hblanks, hexpr, hmid⟩ := h
  have hskip : Blanks mid (skipWhitespace after) := run_trans hmid (blanks_skip after)
  rcases hrest with rfl | ⟨behind, heq, next, last, hnext, hlater, hlast⟩
  · exact ⟨first, mid, hblanks, .disjunct hexpr, hskip⟩
  · rw [heq] at hskip
    exact ⟨first, last, hblanks, .or hexpr hskip hnext hlater, hlast⟩

theorem reads_and {text after rest : Text} (h : Reads .basic text after)
    (hrest : skipWhitespace after = rest ∨
      ∃ behind, skipWhitespace after = .scalar '&' :: .scalar '&' :: behind ∧ Reads .and behind rest) :
    Reads .and text rest := by
  obtain ⟨first, mid, hblanks, hexpr, hmid⟩ := h
  have hskip : Blanks mid (skipWhitespace after) := run_trans hmid (blanks_skip after)
  rcases hrest with rfl | ⟨behind, heq, next, last, hnext, hlater, hlast⟩
  · exact ⟨first, mid, hblanks, .conjunct hexpr, hskip⟩
  · rw [heq] at hskip
    exact ⟨first, last, hblanks, .and hexpr hskip hnext hlater, hlast⟩

theorem parseComparison_sound {negated isQuery : Bool} {text rest : Text}
    (h : parseComparison source negated isQuery text = .ok rest) :
    (isQuery = true ∧ text = rest) ∨ (negated = false ∧
      ∃ behind, ComparisonOperator text behind ∧ Comparable true (skipWhitespace behind) rest) := by
  unfold parseComparison at h
  split at h
  · exact (fail_ne_ok _ _ _ h).elim
  split at h
  · split at h
    · rename_i hquery
      cases h
      exact .inl ⟨hquery, rfl⟩
    · exact (fail_ne_ok _ _ _ h).elim
  · rename_i behind hoperator
    split at h
    · exact (fail_ne_ok _ _ _ h).elim
    · rename_i hnegated
      obtain ⟨operator, hmem, hword⟩ := findSome_stripWord hoperator
      exact .inr ⟨Bool.eq_false_iff.mpr hnegated, behind, .word hmem hword, parseOperand_sound h⟩

theorem readNegation_sound (text : Text) :
    Negation text (readNegation text).2 ∧
      ((readNegation text).1 = false → (readNegation text).2 = text) := by
  unfold readNegation
  split
  · rename_i hpeek
    obtain ⟨tail, rfl⟩ := peekIs_iff.mp hpeek
    exact ⟨.not (blanks_skip tail), fun h => by cases h⟩
  · exact ⟨.none, fun _ => rfl⟩

theorem parseTest_sound {text rest : Text}
    (h : parseTest source (readNegation text).1 (readNegation text).2 = .ok rest) :
    ∃ mid, LogicalExpr true .basic text mid ∧ Blanks mid rest := by
  obtain ⟨hnegation, hplain⟩ := readNegation_sound text
  obtain ⟨after, hread, h⟩ := bind_eq_ok.mp h
  rcases parseComparison_sound h with ⟨hquery, rfl⟩ | ⟨hnegated, behind, hoperator, hright⟩
  · exact ⟨after, .test hnegation (parseOperand_query hquery hread), blanks_skip after⟩
  · rw [hplain hnegated] at hread
    exact ⟨rest, .comparison (parseOperand_sound hread) (blanks_skip after) hoperator
      (blanks_skip behind) hright, .nil⟩

theorem closeParen_sound {text rest : Text}
    (h : closeParen source (skipWhitespace text) = .ok rest) : Blanks text (')' :: rest) := by
  unfold closeParen at h
  split at h
  · rename_i hpeek
    obtain ⟨tail, htail⟩ := peekIs_iff.mp hpeek
    rw [htail] at h
    cases h
    exact htail ▸ blanks_skip text
  · exact (fail_ne_ok _ _ _ h).elim

mutual

theorem parseOr_sound : (fuel : ℕ) → {text rest : Text} →
    parseOr source fuel text = .ok rest → Reads .or text rest
  | 0, _, _, h => (fail_ne_ok _ _ _ h).elim
  | fuel + 1, text, rest, h => by
      rw [parseOr] at h
      obtain ⟨after, hafter, h⟩ := bind_eq_ok.mp h
      exact reads_or (parseAnd_sound fuel hafter) (parseOrRest_sound fuel h)

theorem parseOrRest_sound : (fuel : ℕ) → {text rest : Text} →
    parseOrRest source fuel text = .ok rest →
    text = rest ∨ ∃ behind, text = .scalar '|' :: .scalar '|' :: behind ∧ Reads .or behind rest
  | 0, _, _, h => (fail_ne_ok _ _ _ h).elim
  | fuel + 1, text, rest, h => by
      rw [parseOrRest] at h
      split at h
      · cases h
        exact .inl rfl
      · rename_i behind hbehind
        obtain ⟨after, hafter, h⟩ := bind_eq_ok.mp h
        exact .inr ⟨behind, stripWord_iff.mp hbehind,
          reads_or (parseAnd_sound fuel hafter) (parseOrRest_sound fuel h)⟩

theorem parseAnd_sound : (fuel : ℕ) → {text rest : Text} →
    parseAnd source fuel text = .ok rest → Reads .and text rest
  | 0, _, _, h => (fail_ne_ok _ _ _ h).elim
  | fuel + 1, text, rest, h => by
      rw [parseAnd] at h
      obtain ⟨after, hafter, h⟩ := bind_eq_ok.mp h
      exact reads_and (parseBasic_sound fuel hafter) (parseAndRest_sound fuel h)

theorem parseAndRest_sound : (fuel : ℕ) → {text rest : Text} →
    parseAndRest source fuel text = .ok rest →
    text = rest ∨ ∃ behind, text = .scalar '&' :: .scalar '&' :: behind ∧ Reads .and behind rest
  | 0, _, _, h => (fail_ne_ok _ _ _ h).elim
  | fuel + 1, text, rest, h => by
      rw [parseAndRest] at h
      split at h
      · cases h
        exact .inl rfl
      · rename_i behind hbehind
        obtain ⟨after, hafter, h⟩ := bind_eq_ok.mp h
        exact .inr ⟨behind, stripWord_iff.mp hbehind,
          reads_and (parseBasic_sound fuel hafter) (parseAndRest_sound fuel h)⟩

theorem parseBasic_sound : (fuel : ℕ) → {text rest : Text} →
    parseBasic source fuel text = .ok rest → Reads .basic text rest
  | 0, _, _, h => (fail_ne_ok _ _ _ h).elim
  | fuel + 1, text, rest, h => by
      have hblanks := blanks_skip text
      rw [parseBasic] at h
      dsimp only at h
      split at h
      · rename_i hpeek
        obtain ⟨after, hafter, h⟩ := bind_eq_ok.mp h
        obtain ⟨hnegation, -⟩ := readNegation_sound (skipWhitespace text)
        obtain ⟨inner, hinner⟩ := peekIs_iff.mp hpeek
        rw [hinner] at hnegation hafter
        obtain ⟨first, mid, hopen, hexpr, hmid⟩ := parseOr_sound fuel hafter
        exact ⟨_, rest, hblanks,
          .paren hnegation hopen hexpr (run_trans hmid (closeParen_sound h)), .nil⟩
      · obtain ⟨mid, hexpr, hmid⟩ := parseTest_sound h
        exact ⟨_, mid, hblanks, hexpr, hmid⟩

end

theorem negation_suffix {text rest : Text} (h : Negation text rest) : rest <:+ text := by
  cases h with
  | none => exact List.suffix_rfl
  | not h => exact (run_suffix h).trans (List.suffix_cons _ _)

theorem operator_suffix {text rest : Text} (h : ComparisonOperator text rest) : rest <:+ text := by
  obtain ⟨-, h⟩ := h
  exact h ▸ List.suffix_append _ _

theorem logicalExpr_suffix {level : Level} {text rest : Text}
    (h : LogicalExpr true level text rest) : rest <:+ text := by
  induction h with
  | disjunct _ ih => exact ih
  | or _ hbar hblanks _ ih ihrest =>
      have hbar := List.IsSuffix.trans ⟨[_, _], rfl⟩ (run_suffix hbar)
      exact (ihrest.trans (run_suffix hblanks)).trans (hbar.trans ih)
  | conjunct _ ih => exact ih
  | and _ hamp hblanks _ ih ihrest =>
      have hamp := List.IsSuffix.trans ⟨[_, _], rfl⟩ (run_suffix hamp)
      exact (ihrest.trans (run_suffix hblanks)).trans (hamp.trans ih)
  | paren hnegation hopen _ hclose ih =>
      have hnegation := (List.suffix_cons _ _).trans (negation_suffix hnegation)
      have hclose := (List.suffix_cons _ _).trans (run_suffix hclose)
      exact (hclose.trans ih).trans ((run_suffix hopen).trans hnegation)
  | test hnegation h =>
      obtain ⟨h⟩ := h
      have hnegation := (List.suffix_cons _ _).trans (negation_suffix hnegation)
      exact (singularSegments_suffix h).trans hnegation
  | comparison hleft hoperator h hblanks hright =>
      have hright := (comparable_suffix hright).trans (run_suffix hblanks)
      have hoperator := (operator_suffix h).trans (run_suffix hoperator)
      exact (hright.trans hoperator).trans (comparable_suffix hleft)

def levelStops : Level → List Char
  | .basic => ['&', '|', ')', ']']
  | .and => ['|', ')', ']']
  | .or => [')', ']']

def levelFuel : Level → ℕ
  | .basic => 1
  | .and => 2
  | .or => 3

/-- The parser of the level reads the text up to the rest and to what is no blank behind it. -/
def Parses (source : Text) (fuel : ℕ) (text rest : Text) : Level → Prop
  | .basic => ∃ after, parseBasic source fuel text = .ok after ∧
      skipWhitespace after = skipWhitespace rest
  | .and => parseAnd source fuel text = .ok (skipWhitespace rest)
  | .or => parseOr source fuel text = .ok (skipWhitespace rest)

theorem stripWord_stop {w : Char} {word : List Char} {stops : List Char} {rest : Text}
    (h : Follow stops rest) (hblank : ∀ c ∈ stops, ¬ Blank (.scalar c)) (hw : w ∉ stops) :
    stripWord (w :: word) (skipWhitespace rest) = none := by
  obtain ⟨c, hc, tail, hskip⟩ := Follow.skip h hblank
  have hne : PyChar.scalar c ≠ .scalar w := by
    rintro heq
    cases heq
    exact hw hc
  rw [hskip, stripWord, if_neg hne]

theorem parseAnd_last {fuel : ℕ} {text rest : Text} (h : Parses source fuel text rest .basic)
    (hfuel : 0 < fuel) (hstop : Follow (levelStops .and) rest) :
    parseAnd source (fuel + 1) text = .ok (skipWhitespace rest) := by
  obtain ⟨after, hafter, hskip⟩ := h
  obtain ⟨fuel, rfl⟩ := Nat.exists_eq_succ_of_ne_zero hfuel.ne'
  rw [parseAnd, hafter, ok_bind, hskip, parseAndRest, stripWord_stop hstop (by decide) (by decide)]

theorem parseAnd_more {fuel : ℕ} {text amp behind rest : Text}
    (h : Parses source fuel text amp .basic) (hamp : Blanks amp ('&' :: '&' :: behind))
    (hfuel : 0 < fuel) (hlater : parseAnd source fuel behind = .ok (skipWhitespace rest)) :
    parseAnd source (fuel + 1) text = .ok (skipWhitespace rest) := by
  obtain ⟨after, hafter, hskip⟩ := h
  obtain ⟨fuel, rfl⟩ := Nat.exists_eq_succ_of_ne_zero hfuel.ne'
  rw [parseAnd, hafter, ok_bind, hskip, skip_eq hamp (by decide)]
  exact hlater

theorem parseOr_last {fuel : ℕ} {text rest : Text} (h : Parses source fuel text rest .and)
    (hfuel : 0 < fuel) (hstop : Follow (levelStops .or) rest) :
    parseOr source (fuel + 1) text = .ok (skipWhitespace rest) := by
  have hafter : parseAnd source fuel text = .ok (skipWhitespace rest) := h
  obtain ⟨fuel, rfl⟩ := Nat.exists_eq_succ_of_ne_zero hfuel.ne'
  rw [parseOr, hafter, ok_bind, skip_idem, parseOrRest,
    stripWord_stop hstop (by decide) (by decide)]

theorem parseOr_more {fuel : ℕ} {text bar behind rest : Text}
    (h : Parses source fuel text bar .and) (hbar : Blanks bar ('|' :: '|' :: behind))
    (hfuel : 0 < fuel) (hlater : parseOr source fuel behind = .ok (skipWhitespace rest)) :
    parseOr source (fuel + 1) text = .ok (skipWhitespace rest) := by
  have hafter : parseAnd source fuel text = .ok (skipWhitespace bar) := h
  obtain ⟨fuel, rfl⟩ := Nat.exists_eq_succ_of_ne_zero hfuel.ne'
  rw [parseOr, hafter, ok_bind, skip_idem, skip_eq hbar (by decide)]
  exact hlater

theorem readNegation_complete {text inner : Text} {c : PyChar} (h : Negation text (c :: inner))
    (hblank : ¬ Blank c) (hnot : c ≠ '!') (before : Text) (hbefore : Blanks before text) :
    ∃ negated, readNegation (skipWhitespace before) = (negated, c :: inner) := by
  cases h with
  | none =>
      rw [skip_eq hbefore hblank, readNegation, if_neg (peekIs_of_ne hnot)]
      exact ⟨_, rfl⟩
  | not h =>
      rw [skip_eq hbefore (by decide), readNegation, if_pos (peekIs_self _ _), List.tail_cons,
        skip_eq h hblank]
      exact ⟨_, rfl⟩

theorem parseComparison_none {negated : Bool} {rest : Text}
    (h : Follow (levelStops .basic) rest) :
    parseComparison source negated true (skipWhitespace rest) = .ok (skipWhitespace rest) := by
  have hnone : ∀ w word, w ∉ levelStops .basic →
      stripWord (w :: word) (skipWhitespace rest) = none := fun w word hw =>
    stripWord_stop h (by decide) hw
  have hequal := fun word => hnone '=' word (by decide)
  have hnot := fun word => hnone '!' word (by decide)
  have hless := fun word => hnone '<' word (by decide)
  have hgreater := fun word => hnone '>' word (by decide)
  simp [parseComparison, comparisonOperators, hequal, hnot, hless, hgreater]

theorem operator_complete {text rest : Text} (h : ComparisonOperator text rest)
    (hstop : Stops (· = '=') rest) :
    stripWord ['=', '~'] text = none ∧
      (comparisonOperators.findSome? fun operator => stripWord operator text) = some rest := by
  obtain ⟨hoperator, h⟩ := h
  obtain rfl := h
  simp only [List.mem_cons, List.not_mem_nil, or_false] at hoperator
  rcases hoperator with rfl | rfl | rfl | rfl | rfl | rfl
  · exact ⟨rfl, rfl⟩
  · exact ⟨rfl, rfl⟩
  · exact ⟨rfl, rfl⟩
  · exact ⟨rfl, rfl⟩
  · cases rest with
    | nil => exact ⟨rfl, rfl⟩
    | cons c rest =>
        have hc : c ≠ '=' := hstop c rfl
        simp [comparisonOperators, stripWord, hc]
  · cases rest with
    | nil => exact ⟨rfl, rfl⟩
    | cons c rest =>
        have hc : c ≠ '=' := hstop c rfl
        simp [comparisonOperators, stripWord, hc]

theorem operator_start {text rest : Text} (h : ComparisonOperator text rest) :
    ∃ c ∈ ['=', '!', '<', '>'], ∃ tail, text = .scalar c :: tail := by
  obtain ⟨hoperator, h⟩ := h
  obtain rfl := h
  simp only [List.mem_cons, List.not_mem_nil, or_false] at hoperator
  rcases hoperator with rfl | rfl | rfl | rfl | rfl | rfl <;>
    exact ⟨_, by simp, _, rfl⟩

theorem parseTest_complete {negated : Bool} {text rest : Text} (h : SingularQuery true text rest)
    (hstop : Follow (levelStops .basic) rest) :
    parseTest source negated text = .ok (skipWhitespace rest) := by
  have hoperand := @parseOperand_complete source _ _ (.query h) (hstop.mono (by decide))
  obtain ⟨-⟩ := h
  rw [parseTest, hoperand, ok_bind, peekIs_self, parseComparison_none hstop]

theorem parseTest_comparison {text operator next behind right rest : Text}
    (hleft : Comparable true text operator) (hoperator : Blanks operator next)
    (h : ComparisonOperator next behind) (hblanks : Blanks behind right)
    (hright : Comparable true right rest) (hstop : Follow (levelStops .basic) rest) :
    parseTest source false text = .ok rest := by
  obtain ⟨c, hc, tail, rfl⟩ := operator_start h
  have hfollow : Follow operandStops operator :=
    ⟨c, List.mem_append_left ['&', '|', ')', ']'] hc, tail, hoperator⟩
  have hblank : ∀ c ∈ ['=', '!', '<', '>'], ¬ Blank (.scalar c) := by decide
  obtain ⟨d, _, rfl, hd⟩ := comparable_start hright
  have hequal : Stops (· = '=') behind := by
    cases hblanks with
    | nil => exact stops_cons (operandStart_ne hd (by decide) (by decide))
    | cons hblank =>
        refine stops_cons ?_
        rintro rfl
        revert hblank
        decide
  obtain ⟨hregex, hfound⟩ := operator_complete h hequal
  rw [parseTest, parseOperand_complete hleft hfollow, ok_bind,
    skip_eq hoperator (hblank c hc), parseComparison, hregex, if_neg (by simp), hfound]
  dsimp only
  rw [if_neg Bool.false_ne_true, skip_eq hblanks (operandStart_not_blank hd)]
  exact parseOperand_complete hright (hstop.mono (by decide))

theorem exists_fuel {level : Level} {length fuel : ℕ} (h : length + levelFuel level ≤ fuel) :
    ∃ less, fuel = less + 1 := by
  have hpositive : 0 < levelFuel level := by
    cases level <;> decide
  exact Nat.exists_eq_succ_of_ne_zero (by omega)

theorem parses_of_logicalExpr {level : Level} {text rest : Text}
    (h : LogicalExpr true level text rest) {before : Text} (hbefore : Blanks before text)
    {fuel : ℕ} (hfuel : 3 * before.length + levelFuel level ≤ fuel)
    (hstop : Follow (levelStops level) rest) : Parses source fuel before rest level := by
  induction h generalizing before fuel with
  | disjunct h ih =>
      obtain ⟨fuel, rfl⟩ := exists_fuel hfuel
      simp only [levelFuel] at hfuel ih
      refine parseOr_last (ih hbefore (by omega) (hstop.mono (by decide))) (by omega) hstop
  | or hfirst hbar hblanks hrest ihfirst ihrest =>
      obtain ⟨fuel, rfl⟩ := exists_fuel hfuel
      have hlength := (logicalExpr_suffix hfirst).length_le
      have hbarLength := (run_suffix hbar).length_le
      have hbeforeLength := (run_suffix hbefore).length_le
      simp only [levelFuel, List.length_cons] at *
      have hbarStop : Follow (levelStops .and) _ := ⟨'|', by decide, _, hbar⟩
      exact parseOr_more (ihfirst hbefore (by omega) hbarStop) hbar (by omega)
        (ihrest hblanks (by omega) hstop)
  | conjunct h ih =>
      obtain ⟨fuel, rfl⟩ := exists_fuel hfuel
      simp only [levelFuel] at hfuel ih
      refine parseAnd_last (ih hbefore (by omega) (hstop.mono (by decide))) (by omega) hstop
  | and hfirst hamp hblanks hrest ihfirst ihrest =>
      obtain ⟨fuel, rfl⟩ := exists_fuel hfuel
      have hlength := (logicalExpr_suffix hfirst).length_le
      have hampLength := (run_suffix hamp).length_le
      have hbeforeLength := (run_suffix hbefore).length_le
      simp only [levelFuel, List.length_cons] at *
      have hampStop : Follow (levelStops .basic) _ := ⟨'&', by decide, _, hamp⟩
      exact parseAnd_more (ihfirst hbefore (by omega) hampStop) hamp (by omega)
        (ihrest hblanks (by omega) hstop)
  | @paren text inner first behind rest hnegation hopen h hclose ih =>
      obtain ⟨fuel, rfl⟩ := exists_fuel hfuel
      obtain ⟨negated, hread⟩ :=
        readNegation_complete hnegation (by decide) (by decide) before hbefore
      have hlength := (negation_suffix hnegation).length_le
      have hbeforeLength := (run_suffix hbefore).length_le
      simp only [levelFuel, List.length_cons] at *
      have hcloseStop : Follow (levelStops .or) behind := ⟨')', by decide, _, hclose⟩
      have hinner : parseOr source fuel inner = .ok (skipWhitespace behind) :=
        ih hopen (by omega) hcloseStop
      refine ⟨rest, ?_, rfl⟩
      rw [parseBasic, hread]
      dsimp only
      rw [if_pos (peekIs_self _ _), List.tail_cons, hinner, ok_bind, skip_idem,
        skip_eq hclose (by decide), closeParen, if_pos (peekIs_self _ _), List.tail_cons]
  | @test text query rest hnegation h =>
      obtain ⟨fuel, rfl⟩ := exists_fuel hfuel
      have htest := fun negated => @parseTest_complete source negated _ _ h hstop
      obtain ⟨-⟩ := h
      obtain ⟨negated, hread⟩ :=
        readNegation_complete hnegation (by decide) (by decide) before hbefore
      refine ⟨_, ?_, skip_idem rest⟩
      rw [parseBasic, hread]
      dsimp only
      rw [if_neg (peekIs_of_ne (by decide)), htest]
  | @comparison text operator behind right rest next hleft hoperator h hblanks hright =>
      obtain ⟨fuel, rfl⟩ := exists_fuel hfuel
      have htest := @parseTest_comparison source _ _ _ _ _ _ hleft hoperator h hblanks hright hstop
      obtain ⟨c, tail, rfl, hc⟩ := comparable_start hleft
      have hnot : ¬ peekIs '!' (c :: tail) = true :=
        peekIs_of_ne (operandStart_ne hc (by decide) (by decide))
      have hparen : ¬ peekIs '(' (c :: tail) = true :=
        peekIs_of_ne (operandStart_ne hc (by decide) (by decide))
      refine ⟨rest, ?_, rfl⟩
      rw [parseBasic, skip_eq hbefore (operandStart_not_blank hc), readNegation, if_neg hnot]
      dsimp only
      rw [if_neg hparen, htest]

end ShortReel.JsonPathQueries
