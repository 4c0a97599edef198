import ShortReel.SubtitleLines

/-!
# Where subtitle lines break

The lines of `wrap_chinese` spell the text and leave out nothing but spaces. Where no space stands
between two lines, what may not start a line does not start the second and what may not end a line
does not end the first.
-/

namespace ShortReel.SubtitleBreaks

open TextSpaces SubtitleLines

structure Spells (line stretch : Text) : Prop where
  sublist : List.Sublist line stretch
  inked_eq : inked isSpace stretch = inked isSpace line

structure MayMeet (before line : Text) : Prop where
  start : ∀ c ∈ line.head?, c ∉ noLineStart
  stop : 1 < before.length → ∀ c ∈ before.getLast?, c ∉ noLineEnd

/-- The lines stand in a text in their order, behind a line or none, with only spaces before, between
and behind them. -/
def Laid : Option Text → List Text → Text → Prop
  | _, [], text => Blank isSpace text
  | previous, line :: lines, text =>
      ∃ gap stretch rest, Blank isSpace gap ∧ text = gap ++ (stretch ++ rest) ∧
        line ≠ [] ∧ Spells line stretch ∧ (gap = [] → ∀ before ∈ previous, MayMeet before line) ∧
        Laid (some line) lines rest

section Laying

variable {line stretch front rest text : Text} {lines : List Text} {previous : Option Text}

theorem Spells.refl (line : Text) : Spells line line :=
  ⟨List.Sublist.refl line, rfl⟩

theorem Spells.append (h : Spells line stretch) (hrest : Spells front rest) :
    Spells (line ++ front) (stretch ++ rest) := by
  refine ⟨h.sublist.append hrest.sublist, ?_⟩
  rw [inked_append, inked_append, h.inked_eq, hrest.inked_eq]

theorem spells_blank (h : Blank isSpace stretch) : Spells [] stretch :=
  ⟨List.nil_sublist stretch, inked_blank h⟩

theorem Spells.blank (h : Spells line stretch) (hline : Blank isSpace line) :
    Blank isSpace stretch := by
  rw [← inked_eq_nil_iff, h.inked_eq, inked_blank hline]

theorem Spells.append_blank (h : Spells line stretch) (hrest : Blank isSpace rest) :
    Spells line (stretch ++ rest) := by
  have happend := h.append (spells_blank hrest)
  rwa [List.append_nil] at happend

theorem Spells.split (h : Spells (line ++ front) stretch) :
    ∃ first second, stretch = first ++ second ∧ Spells line first ∧ Spells front second := by
  obtain ⟨first, second, rfl, hfirst, hsecond⟩ := List.append_sublist_iff.mp h.sublist
  have hline : List.Sublist (inked isSpace line) (inked isSpace first) := hfirst.filter _
  have hfront : List.Sublist (inked isSpace front) (inked isSpace second) := hsecond.filter _
  have hlength := congrArg List.length h.inked_eq
  rw [inked_append, inked_append, List.length_append, List.length_append] at hlength
  have hle := hline.length_le
  have hle' := hfront.length_le
  exact ⟨first, second, rfl, ⟨hfirst, (hline.eq_of_length (by omega)).symm⟩,
    ⟨hsecond, (hfront.eq_of_length (by omega)).symm⟩⟩

theorem Laid.inked_eq (h : Laid previous lines text) :
    inked isSpace lines.flatten = inked isSpace text := by
  induction lines generalizing previous text with
  | nil => exact (inked_blank h).symm
  | cons line lines ih =>
      obtain ⟨gap, stretch, rest, hgap, rfl, -, hspells, -, hlines⟩ := h
      rw [List.flatten_cons, inked_append, ih hlines, inked_append, inked_append, inked_blank hgap,
        hspells.inked_eq, List.nil_append]

theorem Laid.line_ne_nil (h : Laid previous lines text) : [] ∉ lines := by
  induction lines generalizing previous text with
  | nil => exact List.not_mem_nil
  | cons line lines ih =>
      obtain ⟨gap, stretch, rest, -, -, hne, -, -, hlines⟩ := h
      rw [List.mem_cons, not_or]
      exact ⟨hne.symm, ih hlines⟩

theorem Laid.append_blank (h : Laid previous lines text) (hrest : Blank isSpace rest) :
    Laid previous lines (text ++ rest) := by
  induction lines generalizing previous text with
  | nil => exact blank_append.mpr ⟨h, hrest⟩
  | cons line lines ih =>
      obtain ⟨gap, stretch, later, hgap, rfl, hne, hspells, hmeet, hlines⟩ := h
      refine ⟨gap, stretch, later ++ rest, hgap, ?_, hne, hspells, hmeet, ih hlines⟩
      rw [List.append_assoc, List.append_assoc]

theorem Laid.blank_append (h : Laid none lines text) (hfront : Blank isSpace front) :
    Laid none lines (front ++ text) := by
  cases lines with
  | nil => exact TextSpaces.blank_append.mpr ⟨hfront, h⟩
  | cons line lines =>
      obtain ⟨gap, stretch, later, hgap, rfl, hne, hspells, -, hlines⟩ := h
      refine ⟨front ++ gap, stretch, later, TextSpaces.blank_append.mpr ⟨hfront, hgap⟩, ?_, hne, hspells,
        fun _ _ hbefore => absurd hbefore (by simp), hlines⟩
      rw [List.append_assoc]

end Laying

variable {wide : ℕ → Bool} {current token kept : Text} {tokens lines : List Text} {capacity : ℕ}

theorem not_isSpace_of_noLineEnd : ∀ c ∈ noLineEnd, isSpace c = false := by
  decide

theorem notMem_noLineStart_of_noLineEnd : ∀ c ∈ noLineEnd, c ∉ noLineStart := by
  decide

theorem head?_rstrip (hhead : ∀ c ∈ current.head?, isSpace c = false) :
    (rstrip isSpace current).head? = current.head? := by
  cases current with
  | nil => rfl
  | cons c rest =>
      obtain ⟨gap, hgap, heq⟩ := exists_rstrip isSpace (c :: rest)
      have hc := hhead c rfl
      cases hstrip : rstrip isSpace (c :: rest) with
      | nil =>
          rw [hstrip, List.nil_append] at heq
          rw [hgap c (heq ▸ List.mem_cons_self)] at hc
          cases hc
      | cons first tail =>
          rw [hstrip, List.cons_append] at heq
          cases heq
          rfl

theorem rstrip_ne_nil (hne : current ≠ []) (hhead : ∀ c ∈ current.head?, isSpace c = false) :
    rstrip isSpace current ≠ [] := by
  intro hnil
  have hsame := head?_rstrip hhead
  rw [hnil] at hsame
  exact hne (List.head?_eq_none_iff.mp hsame.symm)

theorem spells_rstrip {stretch : Text} (h : Spells current stretch) :
    Spells (rstrip isSpace current) stretch := by
  obtain ⟨gap, -, heq⟩ := exists_rstrip isSpace current
  have hsublist : List.Sublist (rstrip isSpace current) current := by
    rw [← congrArg (List.Sublist _) heq]
    exact List.sublist_append_left _ gap
  exact ⟨hsublist.trans h.sublist, h.inked_eq.trans (inked_rstrip current).symm⟩

theorem MayMeet.congr {before line other : Text} (h : MayMeet before line)
    (hhead : other.head? = line.head?) : MayMeet before other :=
  ⟨by rw [hhead]; exact h.start, h.stop⟩

theorem laid_of_wraps (h : Wraps wide capacity current tokens lines)
    (htokens : ∀ token ∈ tokens, Unbroken wide token)
    (hhead : ∀ c ∈ current.head?, isSpace c = false) {previous : Option Text} {gap stretch : Text}
    (hgap : Blank isSpace gap) (hspells : Spells current stretch)
    (hmeet : gap = [] → ∀ before ∈ previous, current ≠ [] ∧ MayMeet before current) :
    Laid previous lines (gap ++ (stretch ++ tokens.flatten)) := by
  induction h generalizing previous gap stretch with
  | done =>
      rw [List.flatten_nil, List.append_nil]
      exact blank_append.mpr ⟨hgap, hspells.blank blank_nil⟩
  | last hcurrent =>
      exact ⟨gap, stretch, [], hgap, rfl, rstrip_ne_nil hcurrent hhead, spells_rstrip hspells,
        fun hnil before hbefore => (hmeet hnil before hbefore).2.congr (head?_rstrip hhead), blank_nil⟩
  | @skip token tokens lines hblank h ih =>
      obtain ⟨htoken, htokens⟩ := List.forall_mem_cons.mp htokens
      have hlonger : Blank isSpace (gap ++ (stretch ++ token)) :=
        blank_append.mpr ⟨hgap, blank_append.mpr ⟨hspells.blank blank_nil, (of_decide_eq_true hblank).2⟩⟩
      have hlaid := @ih htokens (by simp) previous _ _ hlonger (Spells.refl []) fun hnil =>
        absurd hnil (by simp [htoken.ne_nil])
      simpa [List.append_assoc] using hlaid
  | @start token tokens lines hblank h ih =>
      obtain ⟨htoken, htokens⟩ := List.forall_mem_cons.mp htokens
      have hinked : ∀ c ∈ token, isSpace c = false :=
        htoken.homogeneous.resolve_left (by simp [hblank])
      have hlonger : Blank isSpace (gap ++ stretch) :=
        blank_append.mpr ⟨hgap, hspells.blank blank_nil⟩
      have hlaid := @ih htokens (fun c hc => hinked c (List.mem_of_mem_head? hc)) previous _ _ hlonger
        (Spells.refl token) fun hnil before hbefore =>
          absurd rfl (hmeet (List.append_eq_nil_iff.mp hnil).1 before hbefore).1
      simpa [List.append_assoc] using hlaid
  | @extend current token tokens lines hcurrent hfits h ih =>
      obtain ⟨htoken, htokens⟩ := List.forall_mem_cons.mp htokens
      have hsame : (current ++ token).head? = current.head? := List.head?_append_of_ne_nil _ hcurrent
      have hlaid := @ih htokens (by rwa [hsame]) previous gap _ hgap (hspells.append (Spells.refl token))
        fun hnil before hbefore =>
          ⟨by simp [hcurrent], (hmeet hnil before hbefore).2.congr hsame⟩
      simpa [List.append_assoc] using hlaid
  | @close current kept carried token tokens lines hcarried hstart h ih =>
      obtain ⟨htoken, htokens⟩ := List.forall_mem_cons.mp htokens
      obtain ⟨rfl, hopening, hkept, hlast⟩ := hcarried
      have hsame : (kept ++ carried).head? = kept.head? := List.head?_append_of_ne_nil _ hkept
      rw [hsame] at hhead
      obtain ⟨first, second, rfl, hfirst, hsecond⟩ := hspells.split
      obtain ⟨spaces, hspaces, hstrip⟩ := exists_rstrip isSpace kept
      rw [← hstrip] at hfirst
      obtain ⟨inside, behind, rfl, hinside, hbehind⟩ := hfirst.split
      have hblank : Blank isSpace behind := hbehind.blank hspaces
      refine ⟨gap, inside, behind ++ (second ++ (token ++ tokens.flatten)), hgap, by simp,
        rstrip_ne_nil hkept hhead, hinside, fun hnil before hbefore =>
          (hmeet hnil before hbefore).2.congr ((head?_rstrip hhead).trans hsame.symm), ?_⟩
      -- Without spaces behind the line, nothing was trimmed off its end.
      have hstop : behind = [] → 1 < (rstrip isSpace kept).length →
          ∀ c ∈ (rstrip isSpace kept).getLast?, c ∉ noLineEnd := by
        rintro rfl
        rw [List.sublist_nil.mp hbehind.sublist, List.append_nil] at hstrip
        rw [hstrip]
        exact hlast
      have hopened : carried ≠ [] → ∀ c ∈ carried.head?, isSpace c = false ∧ c ∉ noLineStart :=
        fun _ c hc =>
          have hc := hopening c (List.mem_of_mem_head? hc)
          ⟨not_isSpace_of_noLineEnd c hc, notMem_noLineStart_of_noLineEnd c hc⟩
      cases hblankToken : isBlank token with
      | true =>
          rw [hblankToken, if_pos rfl] at ih
          have htokenBlank := (of_decide_eq_true hblankToken).2
          rcases eq_or_ne carried [] with rfl | hne
          · have hlonger : Blank isSpace (behind ++ (second ++ token)) :=
              blank_append.mpr ⟨hblank, blank_append.mpr ⟨hsecond.blank blank_nil, htokenBlank⟩⟩
            have hlaid := @ih htokens (by simp) (some (rstrip isSpace kept)) _ _ hlonger
              (Spells.refl []) fun hnil => absurd hnil (by simp [htoken.ne_nil])
            simpa [List.append_assoc] using hlaid
          · have hlaid := @ih htokens (fun c hc => (hopened hne c hc).1) (some (rstrip isSpace kept)) _ _
              hblank (hsecond.append_blank htokenBlank) fun hnil before hbefore => by
                cases hbefore
                exact ⟨hne, fun c hc => (hopened hne c hc).2, hstop hnil⟩
            simpa [List.append_assoc] using hlaid
      | false =>
          rw [hblankToken, if_neg Bool.false_ne_true] at ih
          have hinked : ∀ c ∈ token, isSpace c = false :=
            htoken.homogeneous.resolve_left (by simp [hblankToken])
          have hfirst : ∀ c ∈ (carried ++ token).head?, isSpace c = false ∧ c ∉ noLineStart := by
            rcases eq_or_ne carried [] with rfl | hne
            · rw [List.nil_append]
              exact fun c hc => ⟨hinked c (List.mem_of_mem_head? hc), hstart c hc⟩
            · rw [List.head?_append_of_ne_nil _ hne]
              exact hopened hne
          have hlaid := @ih htokens (fun c hc => (hfirst c hc).1) (some (rstrip isSpace kept)) _ _
            hblank (hsecond.append (Spells.refl token)) fun hnil before hbefore => by
              cases hbefore
              exact ⟨by simp [htoken.ne_nil], fun c hc => (hfirst c hc).2, hstop hnil⟩
          simpa [List.append_assoc] using hlaid

theorem laid_wrapChinese (wide : ℕ → Bool) (text : Text) (lineCapacity : ℚ) :
    Laid none (wrapChinese wide text lineCapacity) text := by
  have hspec := @cutTokens_spec wide _ (two_le_capacityOf lineCapacity) (strip isSpace text)
  obtain ⟨before, after, hbefore, hafter, heq⟩ := exists_strip isSpace text
  have hlaid := laid_of_wraps (wraps_wrapChinese text lineCapacity)
    (fun token htoken => (hspec.2 token htoken).toUnbroken) (by simp) blank_nil (Spells.refl [])
    fun _ before hbefore => absurd hbefore (Option.not_mem_none before)
  rw [List.nil_append, List.nil_append, hspec.1] at hlaid
  have hwhole := (hlaid.append_blank hafter).blank_append hbefore
  rwa [heq] at hwhole

/-- Every character of the text that is no space is on the lines, in the order of the text, and no
line is empty. -/
theorem wrapChinese_lossless (wide : ℕ → Bool) (text : Text) (lineCapacity : ℚ) :
    inked isSpace (wrapChinese wide text lineCapacity).flatten = inked isSpace text ∧
      [] ∉ wrapChinese wide text lineCapacity := by
  have hlaid := laid_wrapChinese wide text lineCapacity
  exact ⟨hlaid.inked_eq, hlaid.line_ne_nil⟩

def unhung (line : Text) : Text :=
  line.rdropWhile fun c => c ∈ noLineStart

def Clean (wide : ℕ → Bool) (line : Text) : Prop :=
  line.IsChain fun last c => ¬ (last ∈ noLineStart ∧ Joined wide last c)

/-- A text is no wider than a line, or it is one token that a line holds behind opening characters. -/
def Roomy (wide : ℕ → Bool) (capacity : ℕ) (text : Text) : Prop :=
  width wide text ≤ capacity ∨
    (text.dropWhile fun c => c ∈ noLineEnd).IsChain (Joined wide) ∧
      width wide (text.dropWhile fun c => c ∈ noLineEnd) ≤ capacity

def Fits (wide : ℕ → Bool) (capacity : ℕ) (line : Text) : Prop :=
  ∃ front hung, line = front ++ hung ∧ (∀ c ∈ hung, c ∈ noLineStart) ∧ Roomy wide capacity front

section Fitting

variable {line front hung : Text}

theorem width_mono (h : List.Sublist front line) : width wide front ≤ width wide line :=
  (h.map _).sum_le_sum fun _ _ => Nat.zero_le _

theorem fits_of_width (h : width wide line ≤ capacity) : Fits wide capacity line :=
  ⟨line, [], (List.append_nil line).symm, List.forall_mem_nil _, .inl h⟩

theorem Fits.hang (h : Fits wide capacity line) {c : ℕ} (hc : c ∈ noLineStart) :
    Fits wide capacity (line ++ [c]) := by
  obtain ⟨front, hung, rfl, hhung, hfront⟩ := h
  refine ⟨front, hung ++ [c], List.append_assoc .., ?_, hfront⟩
  exact List.forall_mem_append.mpr ⟨hhung, List.forall_mem_singleton.mpr hc⟩

theorem front_cases {before behind : Text} (h : front <+: before ++ behind) :
    front <+: before ∨ ∃ tail, tail <+: behind ∧ front = before ++ tail := by
  rcases List.prefix_or_prefix_of_prefix h (List.prefix_append before behind) with hfront | hbefore
  · exact .inl hfront
  · obtain ⟨tail, rfl⟩ := hbefore
    exact .inr ⟨tail, (List.prefix_append_right_inj before).mp h, rfl⟩

theorem roomy_front (h : Roomy wide capacity line) (hfront : front <+: line) :
    Roomy wide capacity front := by
  refine h.imp (fun hwidth => (width_mono hfront.sublist).trans hwidth) ?_
  rintro ⟨hchain, hwidth⟩
  have hdropped : (front.dropWhile fun c => decide (c ∈ noLineEnd)) <+:
      line.dropWhile fun c => decide (c ∈ noLineEnd) := by
    obtain ⟨tail, rfl⟩ := hfront
    rw [List.dropWhile_append]
    split
    · rename_i hnil
      rw [List.isEmpty_iff.mp hnil]
      exact List.nil_prefix
    · exact List.prefix_append _ tail
  exact ⟨ List.IsChain.prefix hchain hdropped, (width_mono hdropped.sublist).trans hwidth⟩

theorem roomy_unhung (h : Fits wide capacity line) : Roomy wide capacity (unhung line) := by
  obtain ⟨front, hung, rfl, hhung, hfront⟩ := h
  refine roomy_front hfront ?_
  have hreverse : ∀ c ∈ hung.reverse, decide (c ∈ noLineStart) = true := fun c hc =>
    decide_eq_true (hhung c (List.mem_reverse.mp hc))
  rw [unhung, List.rdropWhile, List.reverse_append, List.dropWhile_append_of_pos hreverse]
  exact List.rdropWhile_prefix _ front

theorem fits_hung (hline : Fits wide capacity line) {tail : Text} (htail : tail.IsChain (Joined wide))
    (hstart : ∀ c ∈ tail.head?, c ∈ noLineStart) (hclean : Clean wide tail) :
    Fits wide capacity (line ++ tail) := by
  cases tail with
  | nil => rwa [List.append_nil]
  | cons c later =>
      cases later with
      | nil => exact hline.hang (hstart c rfl)
      | cons next later =>
          have hjoined := (List.isChain_cons_cons.mp htail).1
          exact absurd ⟨hstart c rfl, hjoined⟩ (List.isChain_cons_cons.mp hclean).1

theorem fits_carried {carried tail : Text} (hcarried : ∀ c ∈ carried, c ∈ noLineEnd)
    (htail : tail.IsChain (Joined wide)) (hwidth : width wide tail ≤ capacity)
    (hfront : front <+: carried ++ tail) : Fits wide capacity front := by
  refine ⟨front, [], (List.append_nil front).symm, List.forall_mem_nil _, roomy_front (.inr ?_) hfront⟩
  rw [List.dropWhile_append_of_pos fun c hc => decide_eq_true (hcarried c hc)]
  have hsuffix := List.dropWhile_suffix (l := tail) fun c => decide (c ∈ noLineEnd)
  exact ⟨htail.suffix hsuffix, (width_mono hsuffix.sublist).trans hwidth⟩

end Fitting

theorem fits_of_wraps (h : Wraps wide capacity current tokens lines)
    (htokens : ∀ token ∈ tokens, Held wide capacity token)
    (hcurrent : ∀ front, front <+: current → Clean wide front → Fits wide capacity front) :
    ∀ line ∈ lines, Clean wide line → Fits wide capacity line := by
  induction h with
  | done => exact List.forall_mem_nil _
  | @last current hne => 
      refine List.forall_mem_singleton.mpr (hcurrent _ ?_)
      exact List.rdropWhile_prefix isSpace current
  | skip hblank h ih => exact ih (List.forall_mem_cons.mp htokens).2 hcurrent
  | @start token tokens lines hblank h ih =>
      obtain ⟨htoken, htokens⟩ := List.forall_mem_cons.mp htokens
      refine ih htokens fun front hfront _ => fits_of_width ?_
      exact (width_mono hfront.sublist).trans htoken.fits
  | @extend current token tokens lines hne hfits h ih =>
      obtain ⟨htoken, htokens⟩ := List.forall_mem_cons.mp htokens
      refine ih htokens fun front hfront hclean => ?_
      rcases hfits with hroom | ⟨c, hc, hstart⟩
      · exact fits_of_width ((width_mono hfront.sublist).trans hroom)
      · rcases front_cases hfront with hbegun | ⟨tail, htail, rfl⟩
        · exact hcurrent front hbegun hclean
        · obtain ⟨hbegun, hhung, -⟩ := List.isChain_append.mp hclean
          refine fits_hung (hcurrent current (List.prefix_refl current) hbegun)
            ( List.IsChain.prefix htoken.joined htail) (fun first hfirst => ?_) hhung
          obtain ⟨later, rfl⟩ := htail
          rw [List.head?_append, hfirst] at hc
          cases hc
          exact hstart
  | @close current kept carried token tokens lines hcarried hstart h ih =>
      obtain ⟨htoken, htokens⟩ := List.forall_mem_cons.mp htokens
      obtain ⟨rfl, hopening, hkept, hlast⟩ := hcarried
      refine List.forall_mem_cons.mpr ⟨hcurrent _ ?_, ih htokens ?_⟩
      · exact List.IsPrefix.trans (List.rdropWhile_prefix isSpace kept) (List.prefix_append kept carried)
      · intro front hfront _
        cases hblank : isBlank token with
        | true =>
            rw [hblank, if_pos rfl, ← List.append_nil carried] at hfront
            exact fits_carried hopening List.isChain_nil (Nat.zero_le _) hfront
        | false =>
            rw [hblank, if_neg Bool.false_ne_true] at hfront
            exact fits_carried hopening htoken.joined htoken.fits hfront

def isIdeograph (c : ℕ) : Bool :=
  0x2e80 ≤ c

end ShortReel.SubtitleBreaks
