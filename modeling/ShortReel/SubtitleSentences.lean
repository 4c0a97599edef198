import ShortReel.TextSpaces

/-!
# Subtitle sentences

`split_sentences` of `subtitle_sentences.py`: a text is cut behind its sentence terminators, and the
sentences are trimmed. Texts are code points.
-/

namespace ShortReel.SubtitleSentences

open TextSpaces

/-- The characters of `_ZH_UNIT_PATTERN`. -/
def isZhUnit (c : ℕ) : Bool :=
  (0x3400 ≤ c ∧ c ≤ 0x9fff) ∨ (0xf900 ≤ c ∧ c ≤ 0xfaff) ∨ (0x3000 ≤ c ∧ c ≤ 0x303f) ∨
    (0xff00 ≤ c ∧ c ≤ 0xffef) ∨ (0x20000 ≤ c ∧ c ≤ 0x323af)

def zhTerminators : Text := [0x3002, 0xff01, 0xff1f, 0x2026]

def zhClosers : Text := [0x201d, 0x2019, 0x300d, 0x300f, 0xff09, 0x3011, 0x300b, 0x29]

def latinTerminators : Text := [0x2e, 0x21, 0x3f]

def isZhTerminator (c : ℕ) : Bool :=
  c ∈ zhTerminators

def isZhCloser (c : ℕ) : Bool :=
  c ∈ zhClosers

/-- `count_reading_units` of a text in Chinese. -/
def countReadingUnits (text : Text) : ℕ :=
  (text.filter isZhUnit).length

def isChinese (text : Text) : Bool :=
  0 < countReadingUnits text

/-- What `_ZH_SENTENCE` matches at the front of a text, and what follows it. Its classes are disjoint
where they meet, so that it never gives back a character. -/
def zhMatch (text : Text) : Option (Text × Text) :=
  let opening := text.takeWhile isZhTerminator
  let body := (text.dropWhile isZhTerminator).takeWhile fun c => !isZhTerminator c
  let behind := (text.dropWhile isZhTerminator).dropWhile fun c => !isZhTerminator c
  let terminators := behind.takeWhile isZhTerminator
  let closers := (behind.dropWhile isZhTerminator).takeWhile isZhCloser
  if body = [] then none
  else
    some (opening ++ body ++ terminators ++ closers,
      (behind.dropWhile isZhTerminator).dropWhile isZhCloser)

theorem zhMatch_append {text sentence rest : Text} (h : zhMatch text = some (sentence, rest)) :
    sentence ++ rest = text := by
  unfold zhMatch at h
  dsimp only at h
  split at h
  · cases h
  · cases h
    simp only [List.append_assoc, List.takeWhile_append_dropWhile]

theorem length_lt_of_zhMatch {text sentence rest : Text} (h : zhMatch text = some (sentence, rest)) :
    rest.length < text.length := by
  have hsplit := congrArg List.length (zhMatch_append h)
  have hne : sentence ≠ [] := by
    unfold zhMatch at h
    dsimp only at h
    split at h
    · cases h
    · rename_i hbody
      cases h
      simp [hbody]
  have hpos := List.length_pos_iff.mpr hne
  rw [List.length_append] at hsplit
  omega

/-- `finditer`: every match with the text behind it. -/
def zhMatches (text : Text) : List (Text × Text) :=
  match _h : zhMatch text with
  | some (sentence, rest) => (sentence, rest) :: zhMatches rest
  | none =>
      match text with
      | [] => []
      | _ :: later => zhMatches later
termination_by text.length
decreasing_by
  · exact length_lt_of_zhMatch _h
  · exact Nat.lt_succ_self _

def zhPieces : List (Text × Text) → List Text
  | [] => []
  | [(sentence, rest)] => [sentence ++ rest]
  | (sentence, _) :: found :: later => sentence :: zhPieces (found :: later)

/-- `split` at the spaces behind a terminator, with the piece that was begun. -/
def latinPieces (piece : Text) (text : Text) : List Text :=
  match text with
  | [] => [piece]
  | c :: rest =>
      if isSpace c ∧ (piece.getLast?.any (· ∈ latinTerminators)) then
        piece :: latinPieces [] (rest.dropWhile isSpace)
      else latinPieces (piece ++ [c]) rest
termination_by text.length
decreasing_by
  · exact Nat.lt_succ_of_le (List.length_dropWhile_le ..)
  · exact Nat.lt_succ_self _

def splitSentences (text : Text) : List Text :=
  let pieces := if isChinese text then zhPieces (zhMatches text) else latinPieces [] text
  let sentences := stripped isSpace pieces
  if sentences = [] then [strip isSpace text] else sentences

variable {text sentence rest piece : Text}

theorem takeWhile_dropWhile_eq_nil_iff {p q : ℕ → Bool} (h : ∀ c, p c = false → q c = true) :
    (text.dropWhile p).takeWhile q = [] ↔ text.dropWhile p = [] := by
  cases hdrop : text.dropWhile p with
  | nil => rfl
  | cons c later =>
      have hhead := List.head?_dropWhile_not p text
      rw [hdrop] at hhead
      rw [List.takeWhile_cons_of_pos (h c hhead)]
      exact iff_of_false (List.cons_ne_nil _ _) (List.cons_ne_nil _ _)

theorem zhMatch_eq_none_iff : zhMatch text = none ↔ ∀ c ∈ text, isZhTerminator c = true := by
  rw [← List.dropWhile_eq_nil_iff,
    ← takeWhile_dropWhile_eq_nil_iff (q := fun c => !isZhTerminator c) fun c hc => by rw [hc]; rfl]
  unfold zhMatch
  dsimp only
  split
  · rename_i hnil
    exact iff_of_true rfl hnil
  · rename_i hne
    exact iff_of_false (by simp) hne

theorem zhMatches_of_none (h : zhMatch text = none) : zhMatches text = [] := by
  have hall := zhMatch_eq_none_iff.mp h
  clear h
  induction text with
  | nil =>
      rw [zhMatches]
      split
      · rename_i sentence rest hmatch
        exact absurd hmatch (by simp [zhMatch])
      · rfl
  | cons c text ih =>
      have hnone := zhMatch_eq_none_iff.mpr hall
      rw [zhMatches]
      split
      · rename_i sentence rest hmatch
        rw [hnone] at hmatch
        cases hmatch
      · exact ih fun d hd => hall d (List.mem_cons_of_mem _ hd)

theorem zhMatches_of_some (h : zhMatch text = some (sentence, rest)) :
    zhMatches text = (sentence, rest) :: zhMatches rest := by
  rw [zhMatches]
  split
  · rename_i sentence' rest' hmatch
    rw [h] at hmatch
    cases hmatch
    rfl
  · rename_i hmatch
    rw [h] at hmatch
    cases hmatch

def EndsSentence (chinese : Bool) (sentence : Text) : Prop :=
  ∃ front c closers, sentence = front ++ c :: closers ∧
    if chinese then c ∈ zhTerminators ∧ ∀ closer ∈ closers, closer ∈ zhClosers
    else c ∈ latinTerminators ∧ closers = []

theorem endsSentence_of_zhMatch (h : zhMatch text = some (sentence, rest)) (hrest : rest ≠ []) :
    EndsSentence true sentence := by
  unfold zhMatch at h
  dsimp only at h
  split at h
  · cases h
  cases h
  have hne : ((text.dropWhile isZhTerminator).dropWhile fun c => !isZhTerminator c).takeWhile
      isZhTerminator ≠ [] := by
    rw [ne_eq, takeWhile_dropWhile_eq_nil_iff fun c hc => by simpa using hc]
    intro hnil
    rw [hnil] at hrest
    exact hrest rfl
  obtain ⟨before, c, hlast⟩ := (List.eq_nil_or_concat' _).resolve_left hne
  have hc : isZhTerminator c = true := by
    apply List.mem_takeWhile_imp
    rw [hlast]
    exact List.mem_append_right _ List.mem_cons_self
  rw [hlast, ← List.append_assoc _ before, List.append_assoc _ [c], List.singleton_append]
  refine ⟨_, c, _, rfl, of_decide_eq_true hc, fun closer hcloser => ?_⟩
  have hc : isZhCloser closer = true := List.mem_takeWhile_imp hcloser
  exact of_decide_eq_true hc

theorem zhPieces_ne_nil (found : Text × Text) (later : List (Text × Text)) :
    zhPieces (found :: later) ≠ [] := by
  cases later with
  | nil => exact List.cons_ne_nil _ _
  | cons next later => exact List.cons_ne_nil _ _

theorem rejoins_zhPieces (h : zhMatches text ≠ []) :
    Rejoins isSpace (stripped isSpace (zhPieces (zhMatches text))) text := by
  induction hlength : text.length using Nat.strong_induction_on generalizing text with
  | h length ih =>
      cases hmatch : zhMatch text with
      | none => exact absurd (zhMatches_of_none hmatch) h
      | some found =>
          obtain ⟨sentence, rest⟩ := found
          have hsplit := zhMatch_append hmatch
          have hlt := length_lt_of_zhMatch hmatch
          rw [zhMatches_of_some hmatch]
          cases hlater : zhMatches rest with
          | nil =>
              have hend : Rejoins isSpace (stripped isSpace []) [] := blank_nil
              have hwhole := rejoins_stripped_cons (sentence ++ rest) hend
              rw [zhPieces, hsplit]
              rwa [List.append_nil, hsplit] at hwhole
          | cons next later =>
              have hlaterPieces := ih rest.length (hlength ▸ hlt) (hlater ▸ List.cons_ne_nil _ _) rfl
              rw [hlater] at hlaterPieces
              have hwhole := rejoins_stripped_cons sentence hlaterPieces
              rwa [hsplit] at hwhole

theorem endsSentence_zhPieces :
    ∀ piece ∈ (zhPieces (zhMatches text)).dropLast, EndsSentence true piece := by
  induction hlength : text.length using Nat.strong_induction_on generalizing text with
  | h length ih =>
      cases hmatch : zhMatch text with
      | none =>
          rw [zhMatches_of_none hmatch]
          simp [zhPieces]
      | some found =>
          obtain ⟨sentence, rest⟩ := found
          have hlt := length_lt_of_zhMatch hmatch
          rw [zhMatches_of_some hmatch]
          cases hlater : zhMatches rest with
          | nil => simp [zhPieces]
          | cons next later =>
              have hlaterPieces := ih rest.length (hlength ▸ hlt) rfl
              rw [hlater] at hlaterPieces
              have hrest : rest ≠ [] := by
                rintro rfl
                rw [zhMatches_of_none rfl] at hlater
                cases hlater
              rw [zhPieces, List.dropLast_cons_of_ne_nil (zhPieces_ne_nil _ _)]
              exact List.forall_mem_cons.mpr ⟨endsSentence_of_zhMatch hmatch hrest, hlaterPieces⟩

theorem latinPieces_ne_nil (piece text : Text) : latinPieces piece text ≠ [] := by
  fun_induction latinPieces piece text with
  | case1 => exact List.cons_ne_nil _ _
  | case2 => exact List.cons_ne_nil _ _
  | case3 piece c rest hbreak ih => exact ih

theorem rejoins_latinPieces (piece text : Text) :
    Rejoins isSpace (stripped isSpace (latinPieces piece text)) (piece ++ text) := by
  fun_induction latinPieces piece text with
  | case1 piece =>
      have hend : Rejoins isSpace (stripped isSpace []) [] := blank_nil
      exact rejoins_stripped_cons piece hend
  | case2 piece c rest hbreak ih =>
      have hgap : Blank isSpace (c :: rest.takeWhile isSpace) :=
        List.forall_mem_cons.mpr ⟨hbreak.1, fun _ hd => List.mem_takeWhile_imp hd⟩
      have hlater := ih.blank_append hgap
      rw [List.nil_append, List.cons_append, List.takeWhile_append_dropWhile] at hlater
      exact rejoins_stripped_cons piece hlater
  | case3 piece c rest hbreak ih =>
      rwa [List.append_assoc, List.singleton_append] at ih

theorem endsSentence_latinPieces (piece text : Text) :
    ∀ part ∈ (latinPieces piece text).dropLast, EndsSentence false part := by
  fun_induction latinPieces piece text with
  | case1 => simp
  | case2 piece c rest hbreak ih =>
      rw [List.dropLast_cons_of_ne_nil (latinPieces_ne_nil _ _)]
      refine List.forall_mem_cons.mpr ⟨?_, ih⟩
      cases hlast : piece.getLast? with
      | none => exact absurd hbreak.2 (by simp [hlast])
      | some last =>
          obtain ⟨front, rfl⟩ := List.getLast?_eq_some_iff.mp hlast
          have hterminator := hbreak.2
          rw [hlast] at hterminator
          exact ⟨front, last, [], rfl, of_decide_eq_true hterminator, rfl⟩
  | case3 piece c rest hbreak ih => exact ih

theorem not_isSpace_of_terminator {chinese : Bool} {c : ℕ} {closers : Text}
    (h : if chinese then c ∈ zhTerminators ∧ ∀ closer ∈ closers, closer ∈ zhClosers
      else c ∈ latinTerminators ∧ closers = []) : ∀ d ∈ c :: closers, isSpace d = false := by
  have hmarks : ∀ d ∈ zhTerminators ++ zhClosers ++ latinTerminators, isSpace d = false := by decide
  simp only [List.mem_append] at hmarks
  cases chinese with
  | false =>
      obtain ⟨hc, rfl⟩ := h
      intro d hd
      rw [List.mem_singleton.mp hd]
      exact hmarks c (.inr hc)
  | true =>
      obtain ⟨hc, hclosers⟩ := h
      exact List.forall_mem_cons.mpr ⟨hmarks c (.inl (.inl hc)), fun d hd =>
        hmarks d (.inl (.inr (hclosers d hd)))⟩

theorem EndsSentence.strip {chinese : Bool} (h : EndsSentence chinese sentence) :
    EndsSentence chinese (strip isSpace sentence) := by
  obtain ⟨front, c, closers, rfl, hends⟩ := h
  exact ⟨lstrip isSpace front, c, closers,
    strip_append (List.cons_ne_nil _ _) (not_isSpace_of_terminator hends) front, hends⟩

theorem splitSentences_eq (text : Text) :
    splitSentences text = [strip isSpace text] ∨
      ∃ pieces, splitSentences text = stripped isSpace pieces ∧ stripped isSpace pieces ≠ [] ∧
        Rejoins isSpace (stripped isSpace pieces) text ∧
        ∀ piece ∈ pieces.dropLast, EndsSentence (isChinese text) piece := by
  unfold splitSentences
  cases hchinese : isChinese text with
  | false =>
      dsimp only
      rw [if_neg Bool.false_ne_true]
      split
      · exact .inl rfl
      · rename_i hsome
        exact .inr ⟨latinPieces [] text, rfl, hsome, rejoins_latinPieces [] text,
          endsSentence_latinPieces [] text⟩
  | true =>
      dsimp only
      rw [if_pos rfl]
      split
      · exact .inl rfl
      · rename_i hsome
        have hmatches : zhMatches text ≠ [] := by
          intro hnil
          rw [hnil] at hsome
          exact hsome rfl
        exact .inr ⟨zhPieces (zhMatches text), rfl, hsome, rejoins_zhPieces hmatches,
          endsSentence_zhPieces⟩

theorem rejoins_strip (text : Text) : Rejoins isSpace [strip isSpace text] text := by
  obtain ⟨before, after, hbefore, hafter, heq⟩ := exists_strip isSpace text
  exact ⟨before, after, hbefore, heq.symm, hafter⟩

theorem splitSentences_of_blank (h : Blank isSpace text) : splitSentences text = [[]] := by
  rcases splitSentences_eq text with heq | ⟨pieces, -, hsome, hrejoins, -⟩
  · rw [heq, strip_eq_nil_iff.mpr h]
  · exact absurd h (hrejoins.not_blank hsome)

/-- The sentences stand in the text with only spaces dropped around them, none of them is empty
unless nothing but spaces is there, and all but the last end with a terminator. -/
theorem splitSentences_lossless (text : Text) :
    Rejoins isSpace (splitSentences text) text ∧
      (¬ Blank isSpace text → [] ∉ splitSentences text) ∧
      (Blank isSpace text → splitSentences text = [[]]) ∧
      ∀ sentence ∈ (splitSentences text).dropLast, EndsSentence (isChinese text) sentence := by
  have hblank : Blank isSpace text → splitSentences text = [[]] := splitSentences_of_blank
  rcases splitSentences_eq text with heq | ⟨pieces, heq, hsome, hrejoins, hends⟩
  · refine ⟨heq ▸ rejoins_strip text, fun hinked hmem => ?_, hblank, by simp [heq]⟩
    rw [heq] at hmem
    exact hinked (strip_eq_nil_iff.mp (List.mem_singleton.mp hmem).symm)
  · refine ⟨heq ▸ hrejoins, fun _ hmem => ?_, hblank, fun sentence hsentence => ?_⟩
    · rw [heq] at hmem
      exact (mem_stripped hmem).1 rfl
    · rw [heq] at hsentence
      obtain ⟨-, whole, hwhole, rfl⟩ := mem_dropLast_stripped hsentence
      exact (hends whole hwhole).strip

/-- A blank text is given back as one empty sentence. -/
theorem splitSentences_nil : ¬ ∀ text, [] ∉ splitSentences text := by
  intro h
  apply h []
  rw [splitSentences_of_blank blank_nil]
  exact List.mem_cons_self

end ShortReel.SubtitleSentences
