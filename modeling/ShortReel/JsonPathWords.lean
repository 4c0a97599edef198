import ShortReel.JsonPathGrammar
import ShortReel.TransitionSystem
import Mathlib.Tactic.Tauto

/-!
# Words of a path

The characters of the parser are those of the grammar, and the readers of its words read what the
grammar derives, as far as the next character allows.
-/

namespace ShortReel.JsonPathWords

open JsonPathParser JsonPathGrammar

theorem char_le_iff (c d : Char) : c ≤ d ↔ c.toNat ≤ d.toNat :=
  Iff.rfl

theorem isBlank_iff {c : PyChar} : isBlank c = true ↔ Blank c := by
  cases c <;> simp [isBlank, Blank]

theorem isAsciiDigit_iff {c : PyChar} : isAsciiDigit c = true ↔ Digit c := by
  cases c with
  | scalar c => simp [isAsciiDigit, Digit, char_le_iff]
  | surrogate => simp [isAsciiDigit, Digit]

theorem isAlpha_iff {c : Char} : c.isAlpha = true ↔
    (0x41 ≤ c.toNat ∧ c.toNat ≤ 0x5A) ∨ (0x61 ≤ c.toNat ∧ c.toNat ≤ 0x7A) := by
  change (decide ('A'.val ≤ c.val ∧ c.val ≤ 'Z'.val) ||
    (decide ('a'.val ≤ c.val) && decide (c.val ≤ 'z'.val))) = true ↔ _
  simp only [Bool.or_eq_true, Bool.and_eq_true, decide_eq_true_eq, UInt32.le_iff_toNat_le]
  exact Iff.rfl

theorem isDigit_iff {c : Char} : c.isDigit = true ↔ 0x30 ≤ c.toNat ∧ c.toNat ≤ 0x39 := by
  simp only [Char.isDigit, Bool.and_eq_true, decide_eq_true_eq, ge_iff_le,
    UInt32.le_iff_toNat_le]
  exact Iff.rfl

theorem isNameStart_iff {c : PyChar} : isNameStart c = true ↔ NameFirst c := by
  cases c with
  | scalar c =>
      simp only [isNameStart, isExtended, Bool.or_eq_true, isAlpha_iff, decide_eq_true_eq, NameFirst]
      grind
  | surrogate => simp [isNameStart, NameFirst]

theorem isNameChar_iff {c : PyChar} : isNameChar c = true ↔ NameChar c := by
  cases c with
  | scalar c =>
      simp only [isNameChar, isExtended, Char.isAlphanum, Bool.or_eq_true, isAlpha_iff, isDigit_iff,
        decide_eq_true_eq, NameChar, NameFirst, Digit]
      grind
  | surrogate => simp [isNameChar, NameChar, NameFirst, Digit]

theorem hexValue_iff {c : PyChar} {value : ℕ} : hexValue c = some value ↔ HexDigit c value := by
  cases c with
  | scalar c =>
      simp only [hexValue, char_le_iff, HexDigit, PyChar.scalar.injEq, exists_eq_left']
      change (if 48 ≤ c.toNat ∧ c.toNat ≤ 57 then some (c.toNat - 48)
        else if 97 ≤ c.toNat ∧ c.toNat ≤ 102 then some (c.toNat - 97 + 10)
        else if 65 ≤ c.toNat ∧ c.toNat ≤ 70 then some (c.toNat - 65 + 10) else none) = some value ↔ _
      split_ifs <;> simp <;> omega
  | surrogate => simp [hexValue, HexDigit]

theorem isBare_iff {quote : Char} {c : PyChar} (hquote : c ≠ quote) (hescape : c ≠ '\\') :
    isBare c = true ↔ Unescaped quote c := by
  cases c with
  | scalar c =>
      have hne : c ≠ '\\' ∧ c ≠ quote :=
        ⟨fun h => hescape (h ▸ rfl), fun h => hquote (h ▸ rfl)⟩
      simp [isBare, Unescaped, char_le_iff, hne]
  | surrogate => simp [isBare, Unescaped]

theorem mem_escapes_iff {quote : Char} {c : PyChar} : c ∈ escapes quote ↔ Escapable quote c := by
  simp only [escapes, Escapable, List.mem_cons, List.not_mem_nil, or_false]
  constructor
  · rintro (rfl | rfl | rfl | rfl | rfl | rfl | rfl | rfl) <;> exact ⟨_, by simp, rfl⟩
  · rintro ⟨d, h, rfl⟩
    simp only [PyChar.scalar.injEq]
    tauto

theorem peekIs_iff {c : Char} {rest : Text} : peekIs c rest = true ↔ ∃ tail, rest = .scalar c :: tail := by
  cases rest with
  | nil => simp [peekIs]
  | cons d tail => simp [peekIs]

theorem peekIs_self (c : Char) (tail : Text) : peekIs c (c :: tail) = true := by
  simp [peekIs]

theorem peekIs_cons (c d : Char) (tail : Text) : peekIs c (d :: tail) = decide (d = c) := by
  simp [peekIs]

theorem peekDigit_iff {rest : Text} :
    peekDigit rest = true ↔ ∃ d tail, rest = d :: tail ∧ Digit d := by
  cases rest with
  | nil => simp [peekDigit]
  | cons d tail => simp [peekDigit, isAsciiDigit_iff]

theorem peekQuote_iff {rest : Text} : peekQuote rest = true ↔
    ∃ (quote : Char) (tail : Text), (quote = '\'' ∨ quote = '"') ∧ rest = .scalar quote :: tail := by
  simp only [peekQuote, Bool.or_eq_true, peekIs_iff]
  constructor
  · rintro (⟨tail, h⟩ | ⟨tail, h⟩)
    · exact ⟨_, tail, .inl rfl, h⟩
    · exact ⟨_, tail, .inr rfl, h⟩
  · rintro ⟨quote, tail, rfl | rfl, h⟩
    · exact .inl ⟨tail, h⟩
    · exact .inr ⟨tail, h⟩

theorem stripWord_iff {word : List Char} {text rest : Text} :
    stripWord word text = some rest ↔ Word word text rest := by
  unfold Word
  induction word generalizing text with
  | nil => simp [stripWord]
  | cons w word ih =>
      cases text with
      | nil => simp [stripWord]
      | cons c text =>
          rw [stripWord, List.map_cons, List.cons_append, List.cons.injEq, ← ih]
          split <;> simp [*]

/-- No character that satisfies `p` is next. -/
def Stops (p : PyChar → Prop) (rest : Text) : Prop :=
  ∀ c ∈ rest.head?, ¬ p c

theorem stops_nil (p : PyChar → Prop) : Stops p [] := by
  intro c hc
  cases hc

theorem stops_cons {p : PyChar → Prop} {c : PyChar} {rest : Text} (h : ¬ p c) :
    Stops p (c :: rest) := by
  intro d hd
  cases hd
  exact h

section Runs

variable {p : PyChar → Prop} {test : PyChar → Bool} (htest : ∀ c, test c = true ↔ p c)
include htest

theorem run_dropWhile (text : Text) : Run p text (text.dropWhile test) := by
  induction text with
  | nil => exact .nil
  | cons c text ih =>
      rw [List.dropWhile_cons]
      split
      · rename_i hc
        exact .cons ((htest c).mp hc) ih
      · exact .nil

theorem dropWhile_of_run {text rest : Text} (h : Run p text rest) :
    text.dropWhile test = rest.dropWhile test := by
  induction h with
  | nil => rfl
  | cons hc _ ih => rw [List.dropWhile_cons, if_pos ((htest _).mpr hc), ih]

theorem dropWhile_of_stops {rest : Text} (h : Stops p rest) : rest.dropWhile test = rest := by
  cases rest with
  | nil => rfl
  | cons c rest =>
      rw [List.dropWhile_cons, if_neg]
      exact fun hc => h c rfl ((htest c).mp hc)

theorem takeWhile_of_stops {rest : Text} (h : Stops p rest) : rest.takeWhile test = [] := by
  cases rest with
  | nil => rfl
  | cons c rest =>
      rw [List.takeWhile_cons, if_neg]
      exact fun hc => h c rfl ((htest c).mp hc)

end Runs

theorem blanks_skip (text : Text) : Blanks text (skipWhitespace text) :=
  run_dropWhile (fun _ => isBlank_iff) text

theorem skip_of_blanks {text rest : Text} (h : Blanks text rest) :
    skipWhitespace text = skipWhitespace rest :=
  dropWhile_of_run (fun _ => isBlank_iff) h

theorem skip_of_stops {rest : Text} (h : Stops Blank rest) : skipWhitespace rest = rest :=
  dropWhile_of_stops (fun _ => isBlank_iff) h

theorem run_trans {p : PyChar → Prop} {text mid rest : Text} (h : Run p text mid)
    (h' : Run p mid rest) : Run p text rest := by
  induction h with
  | nil => exact h'
  | cons hc _ ih => exact .cons hc (ih h')

section Readers

variable {source : Text}

@[simp]
theorem fail_ne_ok {α : Type} (code : PathErrorCode) (rest : Text) (value : α) :
    fail source code rest ≠ .ok value := by
  intro h
  cases h

theorem readShorthand_sound {text rest : Text} (h : readShorthand source text = .ok rest) :
    MemberName text rest := by
  unfold readShorthand at h
  cases text with
  | nil => cases h
  | cons c text =>
      split at h
      · rename_i hstart
        have hc : NameFirst c := isNameStart_iff.mp hstart
        cases h
        rw [List.dropWhile_cons, if_pos (isNameChar_iff.mpr (.inl hc))]
        exact .name hc (run_dropWhile (fun _ => isNameChar_iff) text)
      · exact (fail_ne_ok _ _ _ h).elim

theorem readShorthand_complete {text rest : Text} (h : MemberName text rest)
    (hstop : Stops NameChar rest) : readShorthand source text = .ok rest := by
  obtain ⟨hc, hrun⟩ := h
  rw [readShorthand, List.head?_cons, Option.any_some, if_pos (isNameStart_iff.mpr hc),
    List.dropWhile_cons, if_pos (isNameChar_iff.mpr (.inl hc)),
    dropWhile_of_run (fun _ => isNameChar_iff) hrun, dropWhile_of_stops (fun _ => isNameChar_iff) hstop]

theorem readDigits_sound {text rest : Text} (h : readDigits source text = .ok rest) :
    Digits text rest := by
  unfold readDigits at h
  split at h
  · rename_i hdigit
    obtain ⟨d, tail, rfl, hd⟩ := peekDigit_iff.mp hdigit
    cases h
    rw [List.dropWhile_cons, if_pos (isAsciiDigit_iff.mpr hd)]
    exact .digits hd (run_dropWhile (fun _ => isAsciiDigit_iff) tail)
  · exact (fail_ne_ok _ _ _ h).elim

theorem dropWhile_digits {d : PyChar} {text rest : Text} (hd : Digit d) (hrun : Run Digit text rest)
    (hstop : Stops Digit rest) : (d :: text).dropWhile isAsciiDigit = rest := by
  rw [List.dropWhile_cons, if_pos (isAsciiDigit_iff.mpr hd),
    dropWhile_of_run (fun _ => isAsciiDigit_iff) hrun,
    dropWhile_of_stops (fun _ => isAsciiDigit_iff) hstop]

theorem readDigits_complete {text rest : Text} (h : Digits text rest) (hstop : Stops Digit rest) :
    readDigits source text = .ok rest := by
  obtain ⟨hd, hrun⟩ := h
  unfold readDigits
  rw [if_pos (peekDigit_iff.mpr ⟨_, _, rfl, hd⟩), dropWhile_digits hd hrun hstop]

theorem readFourHex_iff {text rest : Text} {code : ℕ} :
    readFourHex source text = .ok (code, rest) ↔ HexQuad text code rest := by
  constructor
  · intro h
    unfold readFourHex at h
    split at h
    · split at h
      · rename_i ha hb hc hd
        cases h
        exact .quad (hexValue_iff.mp ha) (hexValue_iff.mp hb) (hexValue_iff.mp hc)
          (hexValue_iff.mp hd)
      · exact (fail_ne_ok _ _ _ h).elim
    · exact (fail_ne_ok _ _ _ h).elim
  · rintro ⟨ha, hb, hc, hd⟩
    unfold readFourHex
    simp only [hexValue_iff.mpr ha, hexValue_iff.mpr hb, hexValue_iff.mpr hc, hexValue_iff.mpr hd]

theorem isLowSurrogate_iff {code : ℕ} :
    isLowSurrogate code = true ↔ 0xDC00 ≤ code ∧ code ≤ 0xDFFF := by
  simp [isLowSurrogate]

theorem isHighSurrogate_iff {code : ℕ} :
    isHighSurrogate code = true ↔ 0xD800 ≤ code ∧ code ≤ 0xDBFF := by
  simp [isHighSurrogate]

theorem readUnicodeEscape_iff {text rest : Text} :
    readUnicodeEscape source text = .ok rest ↔ HexChar text rest := by
  constructor
  · intro h
    obtain ⟨⟨code, mid⟩, hfirst, h⟩ := bind_eq_ok.mp h
    have hquad := readFourHex_iff.mp hfirst
    dsimp only at h
    split_ifs at h with hlow hhigh
    · exact (fail_ne_ok _ _ _ h).elim
    · split at h
      · exact (fail_ne_ok _ _ _ h).elim
      · rename_i behind hbehind
        obtain ⟨⟨low, after⟩, hsecond, h⟩ := bind_eq_ok.mp h
        dsimp only at h
        split at h
        · rename_i hlow'
          cases h
          have hword : mid = .scalar '\\' :: .scalar 'u' :: behind := stripWord_iff.mp hbehind
          subst hword
          exact .pair hquad (isHighSurrogate_iff.mp hhigh) (readFourHex_iff.mp hsecond)
            (isLowSurrogate_iff.mp hlow')
        · exact (fail_ne_ok _ _ _ h).elim
    · cases h
      rw [isLowSurrogate_iff] at hlow
      rw [isHighSurrogate_iff] at hhigh
      exact .nonSurrogate hquad (by omega)
  · intro h
    unfold readUnicodeEscape
    cases h with
    | @nonSurrogate _ code hquad hcode =>
        have hlow : ¬ isLowSurrogate code = true := by
          rw [isLowSurrogate_iff]
          omega
        have hhigh : ¬ isHighSurrogate code = true := by
          rw [isHighSurrogate_iff]
          omega
        rw [readFourHex_iff.mpr hquad, ok_bind]
        dsimp only
        rw [if_neg hlow, if_neg hhigh]
        rfl
    | @pair behind _ high low hfirst hhigh hsecond hlow =>
        have hnot : ¬ isLowSurrogate high = true := by
          rw [isLowSurrogate_iff]
          omega
        have hword : stripWord ['\\', 'u'] (.scalar '\\' :: .scalar 'u' :: behind) = some behind :=
          rfl
        rw [readFourHex_iff.mpr hfirst, ok_bind]
        dsimp only
        rw [if_neg hnot, if_pos (isHighSurrogate_iff.mpr hhigh), hword]
        dsimp only
        rw [readFourHex_iff.mpr hsecond, ok_bind]
        dsimp only
        rw [if_pos (isLowSurrogate_iff.mpr hlow)]
        rfl

theorem readQuotedRest_sound {quote : Char} {fuel : ℕ} {text rest : Text}
    (h : readQuotedRest source quote fuel text = .ok rest) : QuotedRest quote text rest := by
  induction fuel generalizing text with
  | zero => exact (fail_ne_ok _ _ _ h).elim
  | succ fuel ih =>
      cases text with
      | nil => exact (fail_ne_ok _ _ _ h).elim
      | cons c text =>
          unfold readQuotedRest at h
          split_ifs at h with hquote hescape hbare
          · cases h
            exact hquote ▸ .close
          · subst hescape
            cases text with
            | nil => cases h
            | cons escape behind =>
                dsimp only at h
                split_ifs at h with hunicode hallowed
                · obtain ⟨after, hafter, h⟩ := bind_eq_ok.mp h
                  exact hunicode ▸ .unicode (readUnicodeEscape_iff.mp hafter) (ih h)
                · exact .escaped (mem_escapes_iff.mp hallowed) (ih h)
                · exact (fail_ne_ok _ _ _ h).elim
          · exact .unescaped ((isBare_iff hquote hescape).mp hbare) (ih h)
          · exact (fail_ne_ok _ _ _ h).elim

theorem hexQuad_suffix {text rest : Text} {code : ℕ} (h : HexQuad text code rest) :
    rest <:+ text := by
  cases h
  exact ⟨[_, _, _, _], rfl⟩

theorem hexChar_suffix {text rest : Text} (h : HexChar text rest) : rest <:+ text := by
  cases h with
  | nonSurrogate hquad => exact hexQuad_suffix hquad
  | @pair behind _ _ _ hfirst _ hsecond =>
      have hmark : behind <:+ .scalar '\\' :: .scalar 'u' :: behind := ⟨[_, _], rfl⟩
      exact (hexQuad_suffix hsecond).trans (hmark.trans (hexQuad_suffix hfirst))

theorem escape_ne_quote {quote : Char} (hquote : quote = '\'' ∨ quote = '"') :
    PyChar.scalar '\\' ≠ .scalar quote := by
  rcases hquote with rfl | rfl <;> decide

theorem quotedRest_suffix {quote : Char} {text rest : Text} (h : QuotedRest quote text rest) :
    rest <:+ text := by
  induction h with
  | close => exact List.suffix_cons _ _
  | unescaped _ _ ih => exact ih.trans (List.suffix_cons _ _)
  | escaped _ _ ih => exact ih.trans ⟨[_, _], rfl⟩
  | unicode hchar _ ih => exact (ih.trans (hexChar_suffix hchar)).trans ⟨[_, _], rfl⟩

theorem readQuotedRest_complete {quote : Char} (hquote : quote = '\'' ∨ quote = '"') {fuel : ℕ}
    {text rest : Text} (h : QuotedRest quote text rest) (hfuel : text.length ≤ fuel) :
    readQuotedRest source quote fuel text = .ok rest := by
  induction h generalizing fuel with
  | close =>
      cases fuel with
      | zero => cases hfuel
      | succ fuel =>
          unfold readQuotedRest
          rw [if_pos rfl]
  | @unescaped c _ _ hc _ ih =>
      cases fuel with
      | zero => cases hfuel
      | succ fuel =>
          have hne : c ≠ quote ∧ c ≠ '\\' := by
            constructor <;> rintro rfl
            · exact hc.2.2 rfl
            · exact hc.2.1 rfl
          unfold readQuotedRest
          rw [if_neg hne.1, if_neg hne.2, if_pos ((isBare_iff hne.1 hne.2).mpr hc)]
          exact ih (Nat.le_of_succ_le_succ hfuel)
  | @escaped c _ _ hc _ ih =>
      cases fuel with
      | zero => cases hfuel
      | succ fuel =>
          have hu : c ≠ 'u' := by
            rintro rfl
            obtain ⟨d, hd, heq⟩ := hc
            cases heq
            rcases hquote with rfl | rfl <;> revert hd <;> decide
          unfold readQuotedRest
          rw [if_neg (escape_ne_quote hquote), if_pos rfl]
          dsimp only
          rw [if_neg hu, if_pos (mem_escapes_iff.mpr hc)]
          exact ih (by simp only [List.length_cons] at hfuel; omega)
  | @unicode text behind _ hchar _ ih =>
      cases fuel with
      | zero => cases hfuel
      | succ fuel =>
          have hshorter := (hexChar_suffix hchar).length_le
          unfold readQuotedRest
          rw [if_neg (escape_ne_quote hquote), if_pos rfl]
          dsimp only
          rw [if_pos rfl, readUnicodeEscape_iff.mpr hchar, ok_bind]
          exact ih (by simp only [List.length_cons] at hfuel; omega)

theorem readQuoted_iff {text rest : Text} :
    peekQuote text = true ∧ readQuoted source text = .ok rest ↔ StringLiteral text rest := by
  constructor
  · rintro ⟨hpeek, h⟩
    obtain ⟨quote, tail, hquote, rfl⟩ := peekQuote_iff.mp hpeek
    have hchosen : (if peekIs '\'' (.scalar quote :: tail) then '\'' else '"') = quote := by
      rcases hquote with rfl | rfl <;> rfl
    unfold readQuoted at h
    rw [hchosen] at h
    exact .quoted hquote (readQuotedRest_sound h)
  · rintro ⟨hquote, hrest⟩
    rename_i quote tail
    have hchosen : (if peekIs '\'' (.scalar quote :: tail) then '\'' else '"') = quote := by
      rcases hquote with rfl | rfl <;> rfl
    refine ⟨peekQuote_iff.mpr ⟨quote, tail, hquote, rfl⟩, ?_⟩
    unfold readQuoted
    rw [hchosen]
    exact readQuotedRest_complete hquote hrest (Nat.le_succ _)

theorem dropSign_negative (tail : Text) : dropSign (.scalar '-' :: tail) = tail := rfl

theorem dropSign_of_ne {c : PyChar} {tail : Text} (h : c ≠ '-') : dropSign (c :: tail) = c :: tail := by
  have hpeek : ¬ peekIs '-' (c :: tail) = true := by
    simpa [peekIs] using h
  rw [dropSign, if_neg hpeek]

theorem digit_of_nonzero {d : PyChar} (h : NonzeroDigit d) : Digit d := by
  cases d with
  | scalar d => exact ⟨Nat.le_of_succ_le h.1, h.2⟩
  | surrogate => exact h

theorem nonzero_or_zero {d : PyChar} (h : Digit d) : d = '0' ∨ NonzeroDigit d := by
  cases d with
  | scalar d =>
      rcases Nat.lt_or_ge 0x30 d.toNat with hlt | hle
      · exact .inr ⟨hlt, h.2⟩
      · refine .inl (congrArg PyChar.scalar (Char.ext (UInt32.toNat_inj.mp ?_)))
        exact Nat.le_antisymm hle h.1
  | surrogate => exact h.elim

theorem nonzero_ne {d : PyChar} (h : NonzeroDigit d) : d ≠ '0' ∧ d ≠ '-' := by
  constructor <;> rintro rfl <;> revert h <;> unfold NonzeroDigit <;> decide

theorem readInt_nonzero {text : Text} {d : PyChar} {tail rest : Text}
    (hunsigned : dropSign text = d :: tail) (hd : NonzeroDigit d) (hrun : Run Digit tail rest)
    (hstop : Stops Digit rest) : readInt source text = .ok rest := by
  have hdigit := isAsciiDigit_iff.mpr (digit_of_nonzero hd)
  have hne := (nonzero_ne hd).1
  unfold readInt
  dsimp only
  rw [hunsigned, List.takeWhile_cons, if_pos hdigit,
    dropWhile_digits (digit_of_nonzero hd) hrun hstop]
  rw [if_neg (List.cons_ne_nil _ _), if_neg]
  rintro (⟨-, heq⟩ | ⟨-, hpeek⟩)
  · exact hne (List.cons.inj heq).1
  · obtain ⟨_, heq⟩ := peekIs_iff.mp hpeek
    exact hne (List.cons.inj heq).1

theorem readInt_complete {text rest : Text} (h : Int text rest) (hstop : Stops Digit rest) :
    readInt source text = .ok rest := by
  cases h with
  | zero =>
      have hzero : isAsciiDigit '0' = true := rfl
      have hnone : rest.takeWhile isAsciiDigit = [] :=
        takeWhile_of_stops (fun _ => isAsciiDigit_iff) hstop
      have hall : rest.dropWhile isAsciiDigit = rest :=
        dropWhile_of_stops (fun _ => isAsciiDigit_iff) hstop
      unfold readInt
      dsimp only
      rw [dropSign_of_ne (by decide), List.takeWhile_cons, if_pos hzero, hnone, List.dropWhile_cons,
        if_pos hzero, hall]
      rw [if_neg (List.cons_ne_nil _ _), if_neg]
      rintro (⟨hpeek, -⟩ | ⟨hlength, -⟩)
      · rw [peekIs_cons] at hpeek
        revert hpeek
        decide
      · exact absurd hlength (by decide)
  | positive hd hrun => exact readInt_nonzero (dropSign_of_ne (nonzero_ne hd).2) hd hrun hstop
  | negative hd hrun => exact readInt_nonzero (dropSign_negative _) hd hrun hstop

theorem readInt_sound {text rest : Text} (h : readInt source text = .ok rest) : Int text rest := by
  unfold readInt at h
  dsimp only at h
  split_ifs at h with hempty hrefused
  · exact (fail_ne_ok _ _ _ h).elim
  · exact (fail_ne_ok _ _ _ h).elim
  cases h
  cases hunsigned : dropSign text with
  | nil => exact absurd (by rw [hunsigned]; rfl) hempty
  | cons d tail =>
      rw [hunsigned, List.takeWhile_cons] at hempty hrefused
      split at hempty
      · rename_i hdigit
        rw [if_pos hdigit] at hrefused
        rw [List.dropWhile_cons, if_pos hdigit]
        have hrun : Run Digit tail (tail.dropWhile isAsciiDigit) :=
          run_dropWhile (fun _ => isAsciiDigit_iff) tail
        by_cases hsign : peekIs '-' text = true
        · obtain ⟨behind, rfl⟩ := peekIs_iff.mp hsign
          rw [dropSign_negative] at hunsigned
          subst hunsigned
          rcases nonzero_or_zero (isAsciiDigit_iff.mp hdigit) with rfl | hd
          · refine absurd ?_ hrefused
            cases hmore : tail.takeWhile isAsciiDigit with
            | nil => exact .inl ⟨hsign, rfl⟩
            | cons e more => exact .inr ⟨by simp, rfl⟩
          · exact .negative hd hrun
        · rw [dropSign, if_neg hsign] at hunsigned
          subst hunsigned
          rcases nonzero_or_zero (isAsciiDigit_iff.mp hdigit) with rfl | hd
          · cases hmore : tail.takeWhile isAsciiDigit with
            | nil =>
                have hwhole := List.takeWhile_append_dropWhile (p := isAsciiDigit) (l := tail)
                rw [hmore, List.nil_append] at hwhole
                rw [hwhole]
                exact .zero
            | cons e more =>
                rw [hmore] at hrefused
                exact absurd (.inr ⟨by simp, rfl⟩) hrefused
          · exact .positive hd hrun
      · exact absurd rfl hempty

theorem readIntegerPart_sound {text rest : Text} (h : readIntegerPart source text = .ok rest) :
    IntegerPart text rest := by
  unfold readIntegerPart at h
  dsimp only at h
  by_cases hsign : peekIs '-' text = true
  · obtain ⟨behind, rfl⟩ := peekIs_iff.mp hsign
    rw [dropSign_negative] at h
    split at h
    · rename_i hzero
      obtain ⟨tail, rfl⟩ := peekIs_iff.mp hzero
      cases h
      exact .negativeZero
    · rename_i hzero
      obtain ⟨hd, hrun⟩ := readDigits_sound h
      rcases nonzero_or_zero hd with rfl | hd
      · exact absurd rfl hzero
      · exact .int (.negative hd hrun)
  · rw [dropSign, if_neg hsign] at h
    split at h
    · rename_i hzero
      obtain ⟨tail, rfl⟩ := peekIs_iff.mp hzero
      cases h
      exact .int .zero
    · rename_i hzero
      obtain ⟨hd, hrun⟩ := readDigits_sound h
      rcases nonzero_or_zero hd with rfl | hd
      · exact absurd rfl hzero
      · exact .int (.positive hd hrun)

theorem peekIs_of_ne {c : PyChar} {d : Char} {tail : Text} (h : c ≠ d) :
    ¬ peekIs d (c :: tail) = true := by
  intro hpeek
  obtain ⟨_, heq⟩ := peekIs_iff.mp hpeek
  exact h (List.cons.inj heq).1

theorem readIntegerPart_complete {text rest : Text} (h : IntegerPart text rest)
    (hstop : Stops Digit rest) : readIntegerPart source text = .ok rest := by
  unfold readIntegerPart
  dsimp only
  cases h with
  | negativeZero => rfl
  | int h =>
      cases h with
      | zero => rfl
      | positive hd hrun =>
          rw [dropSign_of_ne (nonzero_ne hd).2, if_neg (peekIs_of_ne (nonzero_ne hd).1)]
          exact readDigits_complete (.digits (digit_of_nonzero hd) hrun) hstop
      | negative hd hrun =>
          rw [dropSign_negative, if_neg (peekIs_of_ne (nonzero_ne hd).1)]
          exact readDigits_complete (.digits (digit_of_nonzero hd) hrun) hstop

theorem readFraction_sound {text rest : Text} (h : readFraction source text = .ok rest) :
    Fraction text rest := by
  unfold readFraction at h
  split at h
  · rename_i hdot
    obtain ⟨tail, rfl⟩ := peekIs_iff.mp hdot
    exact .digits (readDigits_sound h)
  · cases h
    exact .none

theorem peekIs_of_stops {p : PyChar → Prop} {c : Char} {rest : Text} (hstop : Stops p rest)
    (hc : p c) : ¬ peekIs c rest = true := by
  intro hpeek
  obtain ⟨_, rfl⟩ := peekIs_iff.mp hpeek
  exact hstop _ rfl hc

theorem readFraction_complete {text rest : Text} (h : Fraction text rest)
    (hstop : Stops (fun c => Digit c ∨ c = '.') rest) : readFraction source text = .ok rest := by
  unfold readFraction
  cases h with
  | none => rw [if_neg (peekIs_of_stops hstop (.inr rfl))]
  | digits h => exact readDigits_complete h fun c hc hd => hstop c hc (.inl hd)

theorem readExponent_sound {text rest : Text} (h : readExponent source text = .ok rest) :
    Exponent text rest := by
  unfold readExponent at h
  dsimp only at h
  split at h
  · rename_i he
    have hletter : ∃ (e : Char) (tail : Text), (e = 'e' ∨ e = 'E') ∧ text = .scalar e :: tail := by
      rcases he with he | he
      · obtain ⟨tail, rfl⟩ := peekIs_iff.mp he
        exact ⟨'e', tail, .inl rfl, rfl⟩
      · obtain ⟨tail, rfl⟩ := peekIs_iff.mp he
        exact ⟨'E', tail, .inr rfl, rfl⟩
    obtain ⟨e, tail, hletter, rfl⟩ := hletter
    rw [List.tail_cons] at h
    split at h
    · rename_i hsign
      rcases hsign with hsign | hsign
      · obtain ⟨power, rfl⟩ := peekIs_iff.mp hsign
        exact .signed hletter (.inl rfl) (readDigits_sound h)
      · obtain ⟨power, rfl⟩ := peekIs_iff.mp hsign
        exact .signed hletter (.inr rfl) (readDigits_sound h)
    · exact .unsigned hletter (readDigits_sound h)
  · cases h
    exact .none

theorem readExponent_complete {text rest : Text} (h : Exponent text rest)
    (hstop : Stops (fun c => Digit c ∨ c = 'e' ∨ c = 'E') rest) :
    readExponent source text = .ok rest := by
  have hdigit : Stops Digit rest := fun c hc hd => hstop c hc (.inl hd)
  unfold readExponent
  dsimp only
  cases h with
  | none =>
      rw [if_neg]
      rintro (he | he)
      · exact peekIs_of_stops hstop (.inr (.inl rfl)) he
      · exact peekIs_of_stops hstop (.inr (.inr rfl)) he
  | @unsigned e digits _ he h =>
      have hletter : peekIs 'e' (.scalar e :: digits) = true ∨ peekIs 'E' (.scalar e :: digits) = true := by
        rcases he with rfl | rfl
        · exact .inl rfl
        · exact .inr rfl
      rw [if_pos hletter, List.tail_cons, if_neg]
      · exact readDigits_complete h hdigit
      · obtain ⟨hd, -⟩ := h
        rintro (hsign | hsign)
        · obtain ⟨_, heq⟩ := peekIs_iff.mp hsign
          cases heq
          revert hd
          unfold Digit
          decide
        · obtain ⟨_, heq⟩ := peekIs_iff.mp hsign
          cases heq
          revert hd
          unfold Digit
          decide
  | @signed e sign digits _ he hsign h =>
      have hletter : peekIs 'e' (.scalar e :: .scalar sign :: digits) = true ∨
          peekIs 'E' (.scalar e :: .scalar sign :: digits) = true := by
        rcases he with rfl | rfl
        · exact .inl rfl
        · exact .inr rfl
      have hpower : peekIs '+' (.scalar sign :: digits) = true ∨
          peekIs '-' (.scalar sign :: digits) = true := by
        rcases hsign with rfl | rfl
        · exact .inl rfl
        · exact .inr rfl
      rw [if_pos hletter, List.tail_cons, if_pos hpower]
      exact readDigits_complete h hdigit

theorem readNumber_sound {text rest : Text} (h : readNumber source text = .ok rest) :
    Number text rest := by
  obtain ⟨fraction, hint, h⟩ := bind_eq_ok.mp h
  obtain ⟨exponent, hfraction, h⟩ := bind_eq_ok.mp h
  exact .number (readIntegerPart_sound hint) (readFraction_sound hfraction) (readExponent_sound h)

theorem stops_exponent {text rest : Text} {p : PyChar → Prop} (h : Exponent text rest)
    (hletter : ¬ p 'e' ∧ ¬ p 'E') (hstop : Stops p rest) : Stops p text := by
  cases h with
  | none => exact hstop
  | unsigned he =>
      rcases he with rfl | rfl
      · exact stops_cons hletter.1
      · exact stops_cons hletter.2
  | signed he =>
      rcases he with rfl | rfl
      · exact stops_cons hletter.1
      · exact stops_cons hletter.2

def NumberChar (c : PyChar) : Prop :=
  Digit c ∨ c = '.' ∨ c = 'e' ∨ c = 'E'

theorem readNumber_complete {text rest : Text} (h : Number text rest)
    (hstop : Stops NumberChar rest) : readNumber source text = .ok rest := by
  obtain ⟨hint, hfraction, hexponent⟩ := h
  rename_i fraction exponent
  have hdigit : Stops Digit rest := fun c hc hd => hstop c hc (.inl hd)
  have hexponentStop : Stops (fun c => Digit c ∨ c = '.') exponent := by
    refine stops_exponent hexponent (by decide) fun c hc hp => hstop c hc ?_
    exact hp.imp_right .inl
  have hfractionStop : Stops Digit fraction := by
    cases hfraction with
    | none => exact fun c hc hd => hexponentStop c hc (.inl hd)
    | digits => exact stops_cons (by decide)
  unfold readNumber
  rw [readIntegerPart_complete hint hfractionStop, ok_bind,
    readFraction_complete hfraction hexponentStop, ok_bind]
  exact readExponent_complete hexponent fun c hc hp => hstop c hc (hp.imp_right .inr)

theorem numberStart {text rest : Text} (h : Number text rest) :
    (peekIs '-' text || peekDigit text) = true := by
  obtain ⟨hint, -, -⟩ := h
  rw [Bool.or_eq_true]
  cases hint with
  | negativeZero => exact .inl rfl
  | int h =>
      cases h with
      | zero => exact .inr rfl
      | positive hd => exact .inr (peekDigit_iff.mpr ⟨_, _, rfl, digit_of_nonzero hd⟩)
      | negative => exact .inl rfl

theorem findSome_stripWord {words : List (List Char)} {text rest : Text}
    (h : (words.findSome? fun word => stripWord word text) = some rest) :
    ∃ word ∈ words, Word word text rest := by
  obtain ⟨word, hword, hstrip⟩ := List.exists_of_findSome?_eq_some h
  exact ⟨word, hword, stripWord_iff.mp hstrip⟩

theorem parseLiteral_sound {text rest : Text} (h : parseLiteral source text = .ok rest) :
    Literal text rest := by
  unfold parseLiteral at h
  split at h
  · rename_i hquote
    exact .string (readQuoted_iff.mp ⟨hquote, h⟩)
  split at h
  · exact .number (readNumber_sound h)
  split at h
  · rename_i behind hkeyword
    cases h
    obtain ⟨word, hword, hrest⟩ := findSome_stripWord hkeyword
    exact .keyword hword hrest
  · split_ifs at h <;> exact (fail_ne_ok _ _ _ h).elim

theorem parseLiteral_complete {text rest : Text} (h : Literal text rest)
    (hstop : Stops NumberChar rest) : parseLiteral source text = .ok rest := by
  unfold parseLiteral
  cases h with
  | string h =>
      obtain ⟨hpeek, hread⟩ := readQuoted_iff.mpr h
      rw [if_pos hpeek, hread]
  | number h =>
      have hstart := numberStart h
      have hquote : ¬ peekQuote text = true := by
        intro hpeek
        obtain ⟨quote, tail, hquote, rfl⟩ := peekQuote_iff.mp hpeek
        rcases hquote with rfl | rfl <;> revert hstart <;> simp [peekIs, peekDigit] <;> decide
      rw [if_neg hquote, if_pos hstart, readNumber_complete h hstop]
  | keyword hword h =>
      obtain rfl := h
      simp only [List.mem_cons, List.not_mem_nil, or_false] at hword
      rcases hword with rfl | rfl | rfl <;> rfl

end Readers

def Follow (stops : List Char) (rest : Text) : Prop :=
  ∃ c ∈ stops, ∃ tail, Blanks rest (.scalar c :: tail)

/-- The characters are few: one after the other, not over all characters. -/
instance (priority := high) decidableStops (stops : List Char) (p : Char → Prop) [DecidablePred p] :
    Decidable (∀ c ∈ stops, p c) :=
  List.decidableBAll p stops

theorem Follow.stops {stops : List Char} {rest : Text} {p : PyChar → Prop} (h : Follow stops rest)
    (hblank : ∀ c, Blank c → ¬ p c) (hstops : ∀ c ∈ stops, ¬ p (.scalar c)) : Stops p rest := by
  obtain ⟨c, hc, tail, hblanks⟩ := h
  cases hblanks with
  | nil => exact stops_cons (hstops c hc)
  | cons hd => exact stops_cons (hblank _ hd)

theorem Follow.of_blanks {stops : List Char} {text rest : Text} (h : Follow stops rest)
    (hblanks : Blanks text rest) : Follow stops text := by
  obtain ⟨c, hc, tail, hrest⟩ := h
  exact ⟨c, hc, tail, run_trans hblanks hrest⟩

theorem Follow.mono {stops more : List Char} {rest : Text} (h : Follow stops rest)
    (hsub : stops ⊆ more) : Follow more rest := by
  obtain ⟨c, hc, hrest⟩ := h
  exact ⟨c, hsub hc, hrest⟩

end ShortReel.JsonPathWords
