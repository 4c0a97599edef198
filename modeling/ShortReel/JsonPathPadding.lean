import ShortReel.JsonPathAcceptance

/-!
# Padded comparisons

RFC 9535 has no blank inside a bracket of a compared query; the gate passes them. It accepts the
paths of the documented grammar but for that.
-/

namespace ShortReel.JsonPathPadding

open JsonPathParser JsonPathGrammar JsonPathWords JsonPathFilters JsonPathAcceptance

theorem padding_mono {text rest : Text} (h : Padding false text rest) : Padding true text rest := by
  have heq : text = rest := by
    simpa [Padding] using h
  subst heq
  exact padding_iff.mpr .nil

theorem singularSegment_mono {text rest : Text} (h : SingularSegment false text rest) :
    SingularSegment true text rest := by
  cases h with
  | shorthand h => exact .shorthand h
  | name hopen h hclose => exact .name (padding_mono hopen) h (padding_mono hclose)
  | index hopen h hclose => exact .index (padding_mono hopen) h (padding_mono hclose)

theorem comparable_mono {text rest : Text} (h : Comparable false text rest) :
    Comparable true text rest := by
  have hsegments : ∀ {text rest : Text}, SingularSegments false text rest →
      SingularSegments true text rest := by
    intro text rest h
    induction h with
    | nil => exact .nil
    | cons hblanks hsegment _ ih => exact .cons hblanks (singularSegment_mono hsegment) ih
  cases h with
  | literal h => exact .literal h
  | query h =>
      obtain ⟨h⟩ := h
      exact .query (.query (hsegments h))

theorem logicalExpr_mono {level : Level} {text rest : Text}
    (h : LogicalExpr false level text rest) : LogicalExpr true level text rest := by
  induction h with
  | disjunct _ ih => exact .disjunct ih
  | or _ hbar hblanks _ ih ihrest => exact .or ih hbar hblanks ihrest
  | conjunct _ ih => exact .conjunct ih
  | and _ hamp hblanks _ ih ihrest => exact .and ih hamp hblanks ihrest
  | paren hnegation hopen _ hclose ih => exact .paren hnegation hopen ih hclose
  | test hnegation h => exact .test hnegation h
  | comparison hleft hoperator h hblanks hright =>
      exact .comparison (comparable_mono hleft) hoperator h hblanks (comparable_mono hright)

theorem childSegment_mono {kind : SegmentKind} {text rest : Text}
    (h : ChildSegment false kind text rest) : ChildSegment true kind text rest := by
  cases h with
  | wildcard => exact .wildcard
  | shorthand h => exact .shorthand h
  | bracket hopen h hclose =>
      refine .bracket hopen ?_ hclose
      cases h with
      | name h => exact .name h
      | wildcard => exact .wildcard
      | index h => exact .index h
      | slice hstart hblanks hend => exact .slice hstart hblanks hend
      | openStep hstart hblanks hend => exact .openStep hstart hblanks hend
      | filter hblanks h => exact .filter hblanks (logicalExpr_mono h)

theorem query_mono {kinds : List SegmentKind} {text : Text} (h : Query false kinds text) :
    Query true kinds text := by
  obtain ⟨h⟩ := h
  refine .query ?_
  induction h with
  | nil => exact .nil
  | cons hblanks h _ ih => exact .cons hblanks (childSegment_mono h) ih

theorem parseJsonPath_of_query {source : Text} {kinds : List SegmentKind}
    (h : Query false kinds source) : parseJsonPath source = .ok ⟨source, kinds⟩ :=
  parseJsonPath_iff.mpr ⟨rfl, query_mono h⟩

/-- The source is a path only when a compared query may be padded. -/
def PadsComparison (source : Text) : Prop :=
  ∃ kinds, Query true kinds source ∧ ¬ Query false kinds source

theorem accepts_derivable_iff (source : Text) :
    (∀ path, parseJsonPath source = .ok path ↔
      path.source = source ∧ Query false path.segments source) ↔ ¬ PadsComparison source := by
  constructor
  · rintro h ⟨kinds, hpadded, hstrict⟩
    have haccepted : parseJsonPath source = .ok ⟨source, kinds⟩ :=
      parseJsonPath_iff.mpr ⟨rfl, hpadded⟩
    exact hstrict ((h _).mp haccepted).2
  · intro h path
    rw [parseJsonPath_iff]
    refine and_congr_right fun _ => ⟨fun hpadded => ?_, query_mono⟩
    by_contra hstrict
    exact h ⟨_, hpadded, hstrict⟩

def paddedPath : Text :=
  ['$', '[', '?', '1', '=', '=', '@', '[', ' ', '0', ']', ']']

theorem run_stop {p : PyChar → Prop} {c : PyChar} {text rest : Text} (h : Run p (c :: text) rest)
    (hc : ¬ p c) : rest = c :: text := by
  cases h with
  | nil => rfl
  | cons hp => exact absurd hp hc

theorem digit_one {c : Char} {text rest : Text} (h : Literal ('1' :: .scalar c :: text) rest)
    (hc : ¬ NumberChar c) : rest = .scalar c :: text := by
  cases h with
  | number h =>
      obtain ⟨hint, hfraction, hexponent⟩ := h
      rename_i fraction exponent
      have hint : fraction = .scalar c :: text := by
        cases hint with
        | int h =>
            cases h with
            | positive _ hrun => exact run_stop hrun fun hd => hc (.inl hd)
      subst hint
      have hfraction : exponent = .scalar c :: text := by
        cases hfraction with
        | none => rfl
        | digits => exact absurd (.inr (.inl rfl)) hc
      subst hfraction
      cases hexponent with
      | none => rfl
      | unsigned he => exact absurd (.inr (.inr (he.imp (congrArg _) (congrArg _)))) hc
      | signed he => exact absurd (.inr (.inr (he.imp (congrArg _) (congrArg _)))) hc
  | string h =>
      obtain ⟨quote, tail, rfl | rfl, heq⟩ := string_head h <;> cases heq
  | keyword hword h =>
      simp only [List.mem_cons, List.not_mem_nil, or_false] at hword
      rcases hword with rfl | rfl | rfl <;> cases h

theorem bracket_left {text rest : Text} (h : Comparable false ('@' :: '[' :: ' ' :: text) rest) :
    rest = .scalar '[' :: .scalar ' ' :: text := by
  cases h with
  | literal h =>
      obtain ⟨c, tail, heq, -, hc⟩ := literal_start h
      cases heq
      exact absurd rfl hc
  | query h =>
      obtain ⟨h⟩ := h
      cases h with
      | nil => rfl
      | cons hblanks hsegment =>
          obtain rfl := run_stop hblanks (by decide)
          cases hsegment with
          | name hopen h =>
              obtain ⟨quote, tail, hquote, rfl⟩ := string_head h
              have heq : PyChar.scalar ' ' :: text = .scalar quote :: tail := by
                simpa [Padding] using hopen
              cases heq
              exact absurd hquote (by decide)
          | index hopen h =>
              obtain ⟨c, tail, rfl, hc⟩ := int_head h
              have heq : PyChar.scalar ' ' :: text = c :: tail := by
                simpa [Padding] using hopen
              cases heq
              exact absurd hc (by decide)

theorem negation_one {text rest : Text} (h : Negation ('1' :: text) rest) : rest = .scalar '1' :: text := by
  cases h
  rfl

theorem comparison_left {level : Level} {first text rest : Text}
    (h : LogicalExpr false level first rest)
    (hfirst : first = ('1' :: '=' :: '=' :: '@' :: '[' :: ' ' :: text : Text)) :
    rest = .scalar '[' :: .scalar ' ' :: text := by
  induction h with
  | disjunct _ ih => exact ih hfirst
  | conjunct _ ih => exact ih hfirst
  | or _ hbar _ _ ih =>
      obtain rfl := ih hfirst
      cases run_stop hbar (by decide)
  | and _ hamp _ _ ih =>
      obtain rfl := ih hfirst
      cases run_stop hamp (by decide)
  | paren hnegation =>
      subst hfirst
      cases negation_one hnegation
  | test hnegation h =>
      subst hfirst
      obtain rfl := negation_one hnegation
      cases h
  | comparison hleft hoperator h hblanks hright =>
      subst hfirst
      cases hleft with
      | query h => cases h
      | literal hleft =>
          obtain rfl := digit_one hleft (by unfold NumberChar; decide)
          obtain rfl := run_stop hoperator (by decide)
          obtain ⟨hword, h⟩ := h
          simp only [List.mem_cons, List.not_mem_nil, or_false] at hword
          rcases hword with rfl | rfl | rfl | rfl | rfl | rfl <;> cases h
          obtain rfl := run_stop hblanks (by decide)
          exact bracket_left hright

theorem not_derivable_padded (kinds : List SegmentKind) : ¬ Query false kinds paddedPath := by
  rintro ⟨h⟩
  cases h with
  | cons hblanks h =>
      obtain rfl := run_stop hblanks (by decide)
      cases h with
      | bracket hopen h hclose =>
          obtain rfl := run_stop hopen (by decide)
          cases h with
          | name h => obtain ⟨quote, tail, rfl | rfl, heq⟩ := string_head h <;> cases heq
          | index h =>
              obtain ⟨c, tail, heq, hc⟩ := int_head h
              cases heq
              exact absurd hc (by decide)
          | slice hstart =>
              obtain ⟨c, tail, heq, hc⟩ := sliceBound_head hstart
              cases heq
              exact absurd hc (by decide)
          | openStep hstart =>
              obtain ⟨c, tail, heq, hc⟩ := sliceBound_head hstart
              cases heq
              exact absurd hc (by decide)
          | filter hblanks h =>
              obtain rfl := run_stop hblanks (by decide)
              obtain rfl := comparison_left h rfl
              cases run_stop hclose (by decide)

theorem padded_path_accepted : ¬ ∀ path, parseJsonPath paddedPath = .ok path ↔
    path.source = paddedPath ∧ Query false path.segments paddedPath := by
  intro h
  have haccepted : parseJsonPath paddedPath = .ok ⟨paddedPath, [.filter]⟩ := by decide
  exact not_derivable_padded _ ((h _).mp haccepted).2

end ShortReel.JsonPathPadding
