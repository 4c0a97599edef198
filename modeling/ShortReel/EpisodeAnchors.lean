import ShortReel.Occurrences
import ShortReel.TextSpaces

/-!
# The end anchors of a plan

`_resolve_boundaries` of the planner: each draft quotes the end of its episode, and the quotes give the
offsets at which the window is cut. Texts are code points.
-/

namespace ShortReel.EpisodeAnchors

open Occurrences TextSpaces

/-- `NarrationEpisodeDraft`, as far as the boundaries read it. -/
structure NarrationEpisodeDraft where
  endAnchor : Text
  min_length : 2 ≤ endAnchor.length

def normalizeNewlines (text : Text) : Text :=
  (crLf text).map fun c => if c = 0xd then 0xa else c
where
  /-- `replace("\r\n", "\n")`. -/
  crLf : Text → Text
    | 0xd :: 0xa :: rest => 0xa :: crLf rest
    | c :: rest => c :: crLf rest
    | [] => []

def punctFold : List (ℕ × ℕ) :=
  [(0x3002, 0x2e), (0xff0e, 0x2e), (0xff0c, 0x2c), (0xff01, 0x21), (0xff1f, 0x3f), (0xff1a, 0x3a),
    (0xff1b, 0x3b), (0xff08, 0x28), (0xff09, 0x29), (0xff5e, 0x7e), (0x301c, 0x7e), (0x201c, 0x22),
    (0x201d, 0x22), (0x2018, 0x27), (0x2019, 0x27), (0xff02, 0x22), (0xff07, 0x27)]

def foldChar (c : ℕ) : ℕ :=
  match punctFold.lookup c with
  | some folded => folded
  | none => if isSpace c then 0x20 else c

def foldForMatch (text : Text) : Text :=
  text.map foldChar

inductive Reason where
  | missing (idx : ℕ) (anchor : Text)
  | repeated (idx count : ℕ) (byFold : Bool) (anchor : Text)
  | notBehind (idx : ℕ) (anchor : Text)
  deriving DecidableEq, Repr

def Reason.text (repr : Text → String) : Reason → String
  | missing idx anchor =>
      s!"第 {idx} 条的 end_anchor 在原文窗口中不存在（必须逐字摘抄，含标点）: {repr anchor}"
  | repeated idx count true anchor =>
      s!"第 {idx} 条的 end_anchor 在原文窗口中按归一（NFC 与换行统一）及标点全/半角、空白折叠对齐后出现 {count} 次" ++
        s!"（逐字精确匹配可能为 0 次），无法唯一定位，请改用更长或更独特、与原文逐字一致的片段: {repr anchor}"
  | repeated idx count false anchor =>
      s!"第 {idx} 条的 end_anchor 在原文窗口中出现 {count} 次，无法唯一定位，" ++
        s!"请改用更长或更独特的片段: {repr anchor}"
  | notBehind idx anchor =>
      s!"第 {idx} 条的 end_anchor 位置不在上一集结尾之后（各集范围必须连续推进、不重叠）: {repr anchor}"

inductive Failure where
  | rejected (reasons : List Reason)
  /-- `ends[-1]` without drafts. -/
  | indexError
  deriving DecidableEq, Repr

structure Boundaries where
  reasons : List Reason := []
  ends : List ℕ := []
  pos : ℕ := 0
  orderingValid : Bool := true
  deriving DecidableEq, Repr

section Resolve

variable (nfc : Text → Text)

def normalizeSourceText (text : Text) : Text :=
  nfc (normalizeNewlines text)

/-- The starts of an anchor, whether they were found in the folded text, and the length it takes. -/
def locate (window anchor : Text) : List ℕ × Bool × ℕ :=
  match findAll window anchor with
  | [] =>
      let normalized := normalizeSourceText nfc anchor
      match findAll (foldForMatch window) (foldForMatch normalized) with
      | [] => ([], false, anchor.length)
      | starts => (starts, true, normalized.length)
  | starts => (starts, false, anchor.length)

def resolveDraft (window : Text) (state : Boundaries) (draft : NarrationEpisodeDraft × ℕ) : Boundaries :=
  let anchor := draft.1.endAnchor
  match locate nfc window anchor with
  | ([], _, _) =>
      { state with reasons := state.reasons ++ [.missing draft.2 anchor], orderingValid := false }
  | ([start], _, matchLen) =>
      let stop := start + matchLen
      if state.orderingValid ∧ stop ≤ state.pos then
        { state with reasons := state.reasons ++ [.notBehind draft.2 anchor], orderingValid := false }
      else { state with ends := state.ends ++ [stop], pos := stop }
  | (starts, byFold, _) =>
      { state with reasons := state.reasons ++ [.repeated draft.2 starts.length byFold anchor]
                   orderingValid := false }

def snapTail (window : Text) (snapWhitespaceTail : Bool) (ends : List ℕ) : Except Failure (List ℕ) :=
  if snapWhitespaceTail then
    match ends.getLast? with
    | none => .error .indexError
    | some last =>
        if last < window.length ∧ strip isSpace (window.drop last) = [] then
          .ok (ends.dropLast ++ [window.length])
        else .ok ends
  else .ok ends

def resolveBoundaries (window : Text) (drafts : List NarrationEpisodeDraft) (snapWhitespaceTail : Bool) :
    Except Failure (List ℕ) :=
  let state := (drafts.zipIdx 1).foldl (resolveDraft nfc window) {}
  if state.reasons ≠ [] then .error (.rejected state.reasons)
  else snapTail window snapWhitespaceTail state.ends

end Resolve

def FoldsAt (window anchor : Text) (i : ℕ) : Prop :=
  anchor ≠ [] ∧ foldForMatch ((window.drop i).take anchor.length) = foldForMatch anchor

/-- An anchor stands at one place of the window, and ends there; if it stands nowhere, its normal form does
up to the folding. -/
def EndsAt (nfc : Text → Text) (window anchor : Text) (stop : ℕ) : Prop :=
  (∃ i, StandsAt window anchor i ∧ (∀ j, StandsAt window anchor j → j = i) ∧ stop = i + anchor.length) ∨
    ((∀ i, ¬ StandsAt window anchor i) ∧ ∃ i, FoldsAt window (normalizeSourceText nfc anchor) i ∧
      (∀ j, FoldsAt window (normalizeSourceText nfc anchor) j → j = i) ∧
      stop = i + (normalizeSourceText nfc anchor).length)

structure Located (nfc : Text → Text) (window : Text) (drafts : List NarrationEpisodeDraft)
    (ends : List ℕ) : Prop where
  places : List.Forall₂ (fun draft stop => EndsAt nfc window draft.endAnchor stop) drafts ends
  ordered : ends.Pairwise (· < ·)

def pieces (window : Text) : ℕ → List ℕ → List Text
  | _, [] => []
  | start, stop :: ends => (window.take stop).drop start :: pieces window stop ends

section Anchors

variable {nfc : Text → Text} {window anchor : Text} {stop i : ℕ}

theorem standsAt_foldForMatch :
    StandsAt (foldForMatch window) (foldForMatch anchor) i ↔ FoldsAt window anchor i :=
  standsAt_map

theorem FoldsAt.le_length (h : FoldsAt window anchor i) : i + anchor.length ≤ window.length := by
  have hle := (standsAt_foldForMatch.mpr h).le_length
  rwa [foldForMatch, foldForMatch, List.length_map, List.length_map] at hle

theorem EndsAt.pos (h : EndsAt nfc window anchor stop) : 0 < stop := by
  rcases h with ⟨i, hstands, -, rfl⟩ | ⟨-, i, hfolds, -, rfl⟩
  · exact Nat.add_pos_right i (List.length_pos_iff.mpr hstands.1)
  · exact Nat.add_pos_right i (List.length_pos_iff.mpr hfolds.1)

theorem EndsAt.le_length (h : EndsAt nfc window anchor stop) : stop ≤ window.length := by
  rcases h with ⟨i, hstands, -, rfl⟩ | ⟨-, i, hfolds, -, rfl⟩
  · exact hstands.le_length
  · exact hfolds.le_length

theorem EndsAt.unique {stop' : ℕ} (h : EndsAt nfc window anchor stop) (h' : EndsAt nfc window anchor stop') :
    stop = stop' := by
  rcases h with ⟨i, hstands, -, rfl⟩ | ⟨hnowhere, i, hfolds, -, rfl⟩
  · rcases h' with ⟨j, -, hone, rfl⟩ | ⟨hnowhere, -⟩
    · rw [hone i hstands]
    · exact absurd hstands (hnowhere i)
  · rcases h' with ⟨j, hstands, -⟩ | ⟨-, j, -, hone, rfl⟩
    · exact absurd hstands (hnowhere j)
    · rw [hone i hfolds]

theorem endsAt_iff : EndsAt nfc window anchor stop ↔
    ∃ i byFold length, locate nfc window anchor = ([i], byFold, length) ∧ stop = i + length := by
  unfold locate EndsAt
  simp only [← standsAt_foldForMatch]
  cases hfound : findAll window anchor with
  | nil =>
      have hnowhere := findAll_eq_nil_iff.mp hfound
      rw [or_iff_right (fun h => hnowhere _ h.choose_spec.1), and_iff_right hnowhere]
      dsimp only
      constructor
      · rintro ⟨i, hstands, hone, rfl⟩
        have hfolded := findAll_eq_singleton_iff.mpr ⟨hstands, hone⟩
        exact ⟨i, true, _, by rw [hfolded], rfl⟩
      · rintro ⟨i, byFold, length, hlocate, rfl⟩
        cases hfolded : findAll (foldForMatch window) (foldForMatch (normalizeSourceText nfc anchor)) with
        | nil =>
            rw [hfolded] at hlocate
            cases hlocate
        | cons j rest =>
            rw [hfolded] at hlocate
            cases hlocate
            have hsingle := findAll_eq_singleton_iff.mp hfolded
            exact ⟨_, hsingle.1, hsingle.2, rfl⟩
  | cons j rest =>
      have hstands : StandsAt window anchor j := mem_findAll.mp (hfound ▸ List.mem_cons_self)
      rw [or_iff_left fun h => h.1 j hstands]
      constructor
      · rintro ⟨i, hi, hone, rfl⟩
        have hsingle := findAll_eq_singleton_iff.mpr ⟨hi, hone⟩
        rw [hfound] at hsingle
        exact ⟨i, false, anchor.length, by rw [hsingle], rfl⟩
      · rintro ⟨i, byFold, length, hlocate, rfl⟩
        cases hlocate
        have hsingle := findAll_eq_singleton_iff.mp hfound
        exact ⟨j, hsingle.1, hsingle.2, rfl⟩

end Anchors

section Loop

variable {nfc : Text → Text} {window : Text} {state : Boundaries} {draft : NarrationEpisodeDraft}
  {idx stop : ℕ}

theorem resolveDraft_accepts (h : EndsAt nfc window draft.endAnchor stop) (hpos : state.pos < stop) :
    resolveDraft nfc window state (draft, idx) =
      { state with ends := state.ends ++ [stop], pos := stop } := by
  obtain ⟨i, byFold, length, hlocate, rfl⟩ := endsAt_iff.mp h
  unfold resolveDraft
  simp only [hlocate]
  exact if_neg fun hbehind => absurd hbehind.2 (Nat.not_le_of_lt hpos)

theorem resolveDraft_reasons (h : state.reasons ≠ []) :
    (resolveDraft nfc window state (draft, idx)).reasons ≠ [] := by
  unfold resolveDraft
  dsimp only
  split
  · simp
  · split_ifs
    · simp
    · exact h
  · simp

theorem resolveDraft_rejects (hvalid : state.orderingValid = true)
    (h : ∀ stop, EndsAt nfc window draft.endAnchor stop → stop ≤ state.pos) :
    (resolveDraft nfc window state (draft, idx)).reasons ≠ [] := by
  unfold resolveDraft
  dsimp only
  split
  · simp
  · next i byFold length hlocate =>
      have hle := h (i + length) (endsAt_iff.mpr ⟨i, byFold, length, hlocate, rfl⟩)
      rw [if_pos ⟨hvalid, hle⟩]
      simp
  · simp

theorem foldl_reasons {drafts : List (NarrationEpisodeDraft × ℕ)} (h : state.reasons ≠ []) :
    (drafts.foldl (resolveDraft nfc window) state).reasons ≠ [] := by
  induction drafts generalizing state with
  | nil => exact h
  | cons draft drafts ih => exact ih (resolveDraft_reasons h)

theorem foldl_resolveDraft {drafts : List NarrationEpisodeDraft} (hreasons : state.reasons = [])
    (hvalid : state.orderingValid = true) :
    (∃ ends, Located nfc window drafts ends ∧ (∀ stop ∈ ends, state.pos < stop) ∧
      (drafts.zipIdx idx).foldl (resolveDraft nfc window) state =
        { state with ends := state.ends ++ ends, pos := (ends.getLast?).getD state.pos }) ∨
    (((drafts.zipIdx idx).foldl (resolveDraft nfc window) state).reasons ≠ [] ∧
      ∀ ends, Located nfc window drafts ends → ¬ ∀ stop ∈ ends, state.pos < stop) := by
  induction drafts generalizing state idx with
  | nil =>
      refine Or.inl ⟨[], ⟨List.Forall₂.nil, List.Pairwise.nil⟩, fun _ h => absurd h List.not_mem_nil, ?_⟩
      simp
  | cons draft drafts ih =>
      rw [List.zipIdx_cons, List.foldl_cons]
      by_cases hstop : ∃ stop, EndsAt nfc window draft.endAnchor stop ∧ state.pos < stop
      · obtain ⟨stop, hends, hpos⟩ := hstop
        rw [resolveDraft_accepts hends hpos]
        rcases @ih { state with ends := state.ends ++ [stop], pos := stop } (idx + 1) hreasons hvalid with
          ⟨ends, hlocated, hbehind, heq⟩ | ⟨hrejected, hnone⟩
        · refine Or.inl ⟨stop :: ends, ⟨List.Forall₂.cons hends hlocated.places,
            List.pairwise_cons.mpr ⟨hbehind, hlocated.ordered⟩⟩, ?_, ?_⟩
          · exact List.forall_mem_cons.mpr ⟨hpos, fun e he => Nat.lt_trans hpos (hbehind e he)⟩
          · rw [heq]
            simp [List.getLast?_cons]
        · refine Or.inr ⟨hrejected, fun ends hlocated _ => ?_⟩
          obtain ⟨hplaces, hordered⟩ := hlocated
          cases hplaces with
          | cons hfirst hrest =>
              obtain rfl := hends.unique hfirst
              obtain ⟨hbehind, hordered⟩ := List.pairwise_cons.mp hordered
              exact hnone _ ⟨hrest, hordered⟩ hbehind
      · refine Or.inr ⟨foldl_reasons (resolveDraft_rejects hvalid fun stop hends => ?_),
          fun ends hlocated hall => ?_⟩
        · exact Nat.le_of_not_lt fun hpos => hstop ⟨stop, hends, hpos⟩
        · obtain ⟨hplaces, -⟩ := hlocated
          cases hplaces with
          | cons hfirst hrest => exact hstop ⟨_, hfirst, hall _ List.mem_cons_self⟩

end Loop

/-- Boundaries as the drafts give them, the last one possibly moved over whitespace to the end. -/
structure Sound (nfc : Text → Text) (window : Text) (drafts : List NarrationEpisodeDraft)
    (result : List ℕ) : Prop where
  count : result.length = drafts.length
  increasing : (0 :: result).Pairwise (· < ·)
  inside : ∀ stop ∈ result, stop ≤ window.length
  anchored : ∃ ends, List.Forall₂ (fun draft stop => EndsAt nfc window draft.endAnchor stop) drafts ends ∧
    (result = ends ∨ ∃ front last, ends = front ++ [last] ∧ result = front ++ [window.length] ∧
      Blank isSpace (window.drop last))
  texts : ∀ piece ∈ pieces window 0 result, ¬ Blank isSpace piece

/-- Drafts are rejected for a reason or have sound boundaries, and the latter when their anchors are found. -/
structure Meets (nfc : Text → Text) (window : Text) (drafts : List NarrationEpisodeDraft)
    (snapWhitespaceTail : Bool) : Prop where
  rejects : ∀ failure, resolveBoundaries nfc window drafts snapWhitespaceTail = .error failure →
    ∃ reasons, failure = .rejected reasons ∧ reasons ≠ []
  sound : ∀ result, resolveBoundaries nfc window drafts snapWhitespaceTail = .ok result →
    Sound nfc window drafts result
  complete : ∀ ends, Located nfc window drafts ends →
    ∃ result, resolveBoundaries nfc window drafts snapWhitespaceTail = .ok result

section Boundaries

variable {nfc : Text → Text} {window : Text} {drafts : List NarrationEpisodeDraft} {ends result : List ℕ}
  {snapWhitespaceTail : Bool} {start last : ℕ}

theorem Located.mem (h : Located nfc window drafts ends) {stop : ℕ} (hstop : stop ∈ ends) :
    0 < stop ∧ stop ≤ window.length := by
  have hplaces := h.places
  clear h
  induction hplaces with
  | nil => cases hstop
  | cons hfirst _ ih =>
      rcases List.mem_cons.mp hstop with rfl | hrest
      · exact ⟨hfirst.pos, hfirst.le_length⟩
      · exact ih hrest

theorem Located.unique {ends' : List ℕ} (h : Located nfc window drafts ends)
    (h' : Located nfc window drafts ends') : ends = ends' := by
  have hplaces := h.places
  have hplaces' := h'.places
  clear h h'
  induction hplaces generalizing ends' with
  | nil =>
      cases hplaces'
      rfl
  | cons hfirst _ ih =>
      cases hplaces' with
      | cons hfirst' hrest' => rw [hfirst.unique hfirst', ih hrest']

theorem snapTail_cases (h : ends ≠ []) : ∃ result, snapTail window snapWhitespaceTail ends = .ok result ∧
    (result = ends ∨ ∃ front last, ends = front ++ [last] ∧ result = front ++ [window.length] ∧
      last < window.length ∧ Blank isSpace (window.drop last)) := by
  obtain ⟨front, last, rfl⟩ : ∃ front last, ends = front ++ [last] :=
    ⟨ends.dropLast, ends.getLast h, (List.dropLast_append_getLast h).symm⟩
  unfold snapTail
  rw [List.getLast?_concat, List.dropLast_concat]
  dsimp only
  split_ifs with hsnap hblank
  · exact ⟨_, rfl, Or.inr ⟨front, last, rfl, rfl, hblank.1, strip_eq_nil_iff.mp hblank.2⟩⟩
  · exact ⟨_, rfl, Or.inl rfl⟩
  · exact ⟨_, rfl, Or.inl rfl⟩

theorem pieces_snap {front : List ℕ} (hordered : (start :: (front ++ [last])).Pairwise (· < ·))
    (hlast : last ≤ window.length) (hblank : Blank isSpace (window.drop last)) :
    (∀ piece ∈ pieces window start (front ++ [window.length]), ¬ Blank isSpace piece) ↔
      ∀ piece ∈ pieces window start (front ++ [last]), ¬ Blank isSpace piece := by
  induction front generalizing start with
  | nil =>
      have hlt : start < last := List.rel_of_pairwise_cons hordered List.mem_cons_self
      have hsplit : window.drop start = (window.take last).drop start ++ window.drop last := by
        conv_lhs => rw [← List.take_append_drop last window]
        rw [List.drop_append_of_le_length]
        rw [List.length_take]
        omega
      simp only [List.nil_append, pieces, List.forall_mem_singleton, List.take_length]
      rw [hsplit, blank_append, and_iff_left hblank]
  | cons stop front ih =>
      have hrest := (List.pairwise_cons.mp hordered).2
      simp only [List.cons_append, pieces, List.forall_mem_cons]
      rw [ih hrest]

theorem resolveBoundaries_cases (hdrafts : drafts ≠ []) :
    (∃ ends result, Located nfc window drafts ends ∧ ends ≠ [] ∧
      resolveBoundaries nfc window drafts snapWhitespaceTail = .ok result ∧
      (result = ends ∨ ∃ front last, ends = front ++ [last] ∧ result = front ++ [window.length] ∧
        last < window.length ∧ Blank isSpace (window.drop last))) ∨
    ((∃ reasons, resolveBoundaries nfc window drafts snapWhitespaceTail = .error (.rejected reasons) ∧
      reasons ≠ []) ∧ ∀ ends, ¬ Located nfc window drafts ends) := by
  unfold resolveBoundaries
  rcases @foldl_resolveDraft nfc window {} 1 drafts rfl rfl with ⟨ends, hlocated, -, heq⟩ | ⟨hrejected, hnone⟩
  · have hends : ends ≠ [] := by
      rintro rfl
      have hlength := hlocated.places.length_eq
      exact hdrafts (List.length_eq_zero_iff.mp hlength)
    obtain ⟨result, hresult, hmoved⟩ := @snapTail_cases window ends snapWhitespaceTail hends
    refine Or.inl ⟨ends, result, hlocated, hends, ?_, hmoved⟩
    rw [heq]
    exact hresult
  · refine Or.inr ⟨⟨_, if_pos hrejected, hrejected⟩, fun ends hlocated => ?_⟩
    exact hnone ends hlocated fun stop hstop => (hlocated.mem hstop).1

theorem sound_iff (hlocated : Located nfc window drafts ends)
    (hmoved : result = ends ∨ ∃ front last, ends = front ++ [last] ∧ result = front ++ [window.length] ∧
      last < window.length ∧ Blank isSpace (window.drop last)) :
    Sound nfc window drafts result ↔ ∀ piece ∈ pieces window 0 ends, ¬ Blank isSpace piece := by
  have hcount := hlocated.places.length_eq
  have hordered : (0 :: ends).Pairwise (· < ·) :=
    List.pairwise_cons.mpr ⟨fun stop hstop => (hlocated.mem hstop).1, hlocated.ordered⟩
  rcases hmoved with rfl | ⟨front, last, rfl, rfl, hlast, hblank⟩
  · exact ⟨Sound.texts, fun htexts =>
      ⟨hcount.symm, hordered, fun stop hstop => (hlocated.mem hstop).2, ⟨result, hlocated.places, Or.inl rfl⟩,
        htexts⟩⟩
  · rw [← pieces_snap hordered hlast.le hblank]
    refine ⟨Sound.texts, fun htexts => ⟨?_, ?_, ?_, ?_, htexts⟩⟩
    · rw [hcount]
      simp
    · rw [← List.cons_append] at hordered ⊢
      obtain ⟨hfront, -, hacross⟩ := List.pairwise_append.mp hordered
      refine List.pairwise_append.mpr ⟨hfront, List.pairwise_singleton _ _, fun e he stop hstop => ?_⟩
      obtain rfl := List.mem_singleton.mp hstop
      exact (hacross e he last List.mem_cons_self).trans hlast
    · intro stop hstop
      rcases List.mem_append.mp hstop with hfront | hsame
      · exact (hlocated.mem (List.mem_append_left _ hfront)).2
      · exact (List.mem_singleton.mp hsame).le
    · exact ⟨_, hlocated.places, Or.inr ⟨front, last, rfl, rfl, hblank⟩⟩

/-- The boundaries are as they should be when no anchor ends over whitespace only behind the one before. -/
theorem meets_iff (hdrafts : drafts ≠ []) : Meets nfc window drafts snapWhitespaceTail ↔
    ∀ ends, Located nfc window drafts ends → ∀ piece ∈ pieces window 0 ends, ¬ Blank isSpace piece := by
  rcases @resolveBoundaries_cases nfc window drafts snapWhitespaceTail hdrafts with
    ⟨ends, result, hlocated, -, hresult, hmoved⟩ | ⟨⟨reasons, hrejected, hreasons⟩, hnone⟩
  · constructor
    · intro h ends' hlocated'
      rw [hlocated'.unique hlocated]
      exact (sound_iff hlocated hmoved).mp (h.sound result hresult)
    · intro h
      refine ⟨fun failure hfailure => ?_, fun result' hresult' => ?_, fun _ _ => ⟨result, hresult⟩⟩
      · rw [hresult] at hfailure
        cases hfailure
      · rw [hresult] at hresult'
        cases hresult'
        exact (sound_iff hlocated hmoved).mpr (h ends hlocated)
  · refine iff_of_true ⟨fun failure hfailure => ?_, fun result hresult => ?_, fun ends hlocated => ?_⟩ ?_
    · rw [hrejected] at hfailure
      cases hfailure
      exact ⟨reasons, rfl, hreasons⟩
    · rw [hrejected] at hresult
      cases hresult
    · exact absurd hlocated (hnone ends)
    · exact fun ends hlocated => absurd hlocated (hnone ends)

theorem isSpace_foldChar (c : ℕ) : isSpace (foldChar c) = isSpace c := by
  have htable : ∀ entry ∈ punctFold, isSpace entry.1 = false ∧ isSpace entry.2 = false := by decide
  unfold foldChar
  cases hfold : punctFold.lookup c with
  | some folded =>
      obtain ⟨front, back, heq, -⟩ := List.lookup_eq_some_iff.mp hfold
      have hmem : (c, folded) ∈ punctFold := by
        rw [heq]
        simp
      obtain ⟨hc, hfolded⟩ := htable _ hmem
      rw [hc]
      exact hfolded
  | none =>
      dsimp only
      split_ifs with hspace
      · rw [hspace]
        decide
      · rfl

theorem EndsAt.inked {anchor : Text} {stop : ℕ} (h : EndsAt nfc window anchor stop)
    (hanchor : ∀ c ∈ anchor.getLast?, isSpace c = false)
    (hnormal : ∀ c ∈ (normalizeSourceText nfc anchor).getLast?, isSpace c = false) :
    ∃ c, window[stop - 1]? = some c ∧ isSpace c = false := by
  have hlast : ∀ {text : Text} {i : ℕ}, text ≠ [] → (∀ c ∈ text.getLast?, isSpace c = false) →
      foldForMatch ((window.drop i).take text.length) = foldForMatch text →
      ∃ c, window[i + text.length - 1]? = some c ∧ isSpace c = false := by
    intro text i hne hinked hfolds
    have hpos := List.length_pos_iff.mpr hne
    have hread := congrArg (·[text.length - 1]?) hfolds
    simp only [foldForMatch, List.getElem?_map] at hread
    rw [List.getElem?_take_of_lt (by omega), List.getElem?_drop, ← List.getLast?_eq_getElem?,
      ← Nat.add_sub_assoc hpos] at hread
    obtain ⟨d, hd⟩ : ∃ d, text.getLast? = some d := ⟨_, List.getLast?_eq_some_getLast hne⟩
    rw [hd, Option.map_some, Option.map_eq_some_iff] at hread
    obtain ⟨c, hc, hfold⟩ := hread
    refine ⟨c, hc, ?_⟩
    rw [← isSpace_foldChar c, hfold, isSpace_foldChar]
    exact hinked d hd
  rcases h with ⟨i, hstands, -, rfl⟩ | ⟨-, i, hfolds, -, rfl⟩
  · exact hlast hstands.1 hanchor (congrArg foldForMatch hstands.2)
  · exact hlast hfolds.1 hnormal hfolds.2

theorem Located.texts (h : Located nfc window drafts ends) (hstart : ∀ stop ∈ ends, start < stop)
    (hinked : ∀ draft ∈ drafts, (∀ c ∈ draft.endAnchor.getLast?, isSpace c = false) ∧
      ∀ c ∈ (normalizeSourceText nfc draft.endAnchor).getLast?, isSpace c = false) :
    ∀ piece ∈ pieces window start ends, ¬ Blank isSpace piece := by
  obtain ⟨hplaces, hordered⟩ := h
  induction hplaces generalizing start with
  | nil => exact fun piece hpiece => absurd hpiece List.not_mem_nil
  | @cons draft stop drafts ends hfirst _ ih =>
      obtain ⟨hbehind, hordered⟩ := List.pairwise_cons.mp hordered
      obtain ⟨hdraft, hdrafts⟩ := List.forall_mem_cons.mp hinked
      obtain ⟨hlt, -⟩ := List.forall_mem_cons.mp hstart
      refine List.forall_mem_cons.mpr ⟨fun hblank => ?_, ih hbehind hdrafts hordered⟩
      obtain ⟨c, hc, hink⟩ := hfirst.inked hdraft.1 hdraft.2
      have hmem : c ∈ (window.take stop).drop start := by
        refine List.mem_iff_getElem?.mpr ⟨stop - 1 - start, ?_⟩
        rw [List.getElem?_drop, List.getElem?_take_of_lt (by omega), ← hc]
        congr 1
        omega
      rw [hblank c hmem] at hink
      cases hink

end Boundaries

def twoSentences : Text :=
  [0x7b2c, 0x4e00, 0x53e5, 0x3002, 0xa, 0x7b2c, 0x4e8c, 0x53e5, 0x3002, 0xa]

def quote (endAnchor : Text) (h : 2 ≤ endAnchor.length) : NarrationEpisodeDraft where
  endAnchor := endAnchor
  min_length := h

theorem meets_twoSentences :
    Meets id twoSentences
      [quote [0x4e00, 0x53e5, 0x3002] (by decide), quote [0x4e8c, 0x53e5, 0x2e] (by decide)] true := by
  refine (meets_iff (List.cons_ne_nil _ _)).mpr fun ends hlocated => ?_
  refine hlocated.texts (fun stop hstop => (hlocated.mem hstop).1) ?_
  decide

theorem not_meets_lineBreak : ¬ Meets id twoSentences
    [quote [0x4e00, 0x53e5, 0x3002] (by decide), quote [0x4e00, 0x53e5, 0x3002, 0xa] (by decide)] true := by
  intro h
  have hsound := h.sound [4, 5] (by decide)
  exact hsound.texts [0xa] (by decide) (by decide)

end ShortReel.EpisodeAnchors
