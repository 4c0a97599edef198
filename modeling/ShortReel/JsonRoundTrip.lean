import ShortReel.JsonScan

/-!
# What is written is read back

Every value whose keys are distinct, whose integers are not too long and that does not nest too deep
is read back from the text it is written as. Floats come back by the law of their numerals.
-/

namespace ShortReel.JsonText

open InsertionDict

def unitOf (c : ℕ) : StringUnit :=
  (decide ((escapeChar c).length = 6), c)

theorem hexValues_control : ∀ c < 32,
    hexValues 48 48 (hexDigit (c / 16)) (hexDigit (c % 16)) = some c := by
  decide

theorem scanUnits_quote (t : Text) : scanUnits (34 :: t) = some ([], t) := by
  rw [scanUnits.eq_def]
  rfl

theorem scanUnits_plain {c : ℕ} (hquote : c ≠ 34) (hback : c ≠ 92) (hplain : ¬ c < 32) (t : Text) :
    scanUnits (c :: t) = (scanUnits t).map fun read => ((false, c) :: read.1, read.2) := by
  rw [scanUnits.eq_def]
  dsimp only
  rw [if_neg hquote, if_neg hback, if_neg hplain]

theorem scanUnits_short {letter value : ℕ} (h : shortEscape letter = some value)
    (hletter : letter ≠ 117) (t : Text) :
    scanUnits (92 :: letter :: t) =
      (scanUnits t).map fun read => ((false, value) :: read.1, read.2) := by
  rw [scanUnits.eq_def]
  dsimp only
  rw [if_neg (by decide), if_pos rfl, if_neg hletter, h]

theorem scanUnits_hex {w x y z value : ℕ} (h : hexValues w x y z = some value) (t : Text) :
    scanUnits (92 :: 117 :: w :: x :: y :: z :: t) =
      (scanUnits t).map fun read => ((true, value) :: read.1, read.2) := by
  rw [scanUnits.eq_def]
  dsimp only
  rw [if_neg (by decide), if_pos rfl, if_pos rfl, h]

theorem scanUnits_escapeChar (c : ℕ) (t : Text) :
    scanUnits (escapeChar c ++ t) =
      (scanUnits t).map fun read => (unitOf c :: read.1, read.2) := by
  unfold unitOf escapeChar
  split
  · subst c
    exact scanUnits_short (by decide) (by decide) t
  split
  · subst c
    exact scanUnits_short (by decide) (by decide) t
  split
  · subst c
    exact scanUnits_short (by decide) (by decide) t
  split
  · subst c
    exact scanUnits_short (by decide) (by decide) t
  split
  · subst c
    exact scanUnits_short (by decide) (by decide) t
  split
  · subst c
    exact scanUnits_short (by decide) (by decide) t
  split
  · subst c
    exact scanUnits_short (by decide) (by decide) t
  split
  · rename_i hcontrol
    exact scanUnits_hex (hexValues_control c hcontrol) t
  · rename_i hquote hback _ _ _ _ _ hplain
    exact scanUnits_plain hquote hback hplain t

theorem scanUnits_escape (value t : Text) :
    scanUnits (escape value ++ 34 :: t) = some (value.map unitOf, t) := by
  induction value with
  | nil => exact scanUnits_quote t
  | cons c value ih =>
      rw [escape, List.flatMap_cons, List.append_assoc, scanUnits_escapeChar, ← escape, ih]
      rfl

theorem isHighHalf_unitOf (c : ℕ) : isHighHalf (unitOf c) = false := by
  unfold isHighHalf unitOf escapeChar
  split_ifs <;> simp
  omega

theorem joinHalves_unitOf (value : Text) : joinHalves (value.map unitOf) = value := by
  induction value with
  | nil => rfl
  | cons c value ih =>
      cases value with
      | nil => rfl
      | cons next value =>
          rw [List.map_cons, List.map_cons, joinHalves, isHighHalf_unitOf]
          rw [List.map_cons] at ih
          rw [ih]
          rfl

theorem scanString_escape (value t : Text) :
    scanString (escape value ++ 34 :: t) = some (value, t) := by
  rw [scanString, scanUnits_escape, Option.map_some, joinHalves_unitOf]

theorem isDigit_of_mem_decimal {n c : ℕ} (h : c ∈ decimal n) : isDigit c = true := by
  unfold decimal at h
  split at h
  · rw [List.mem_singleton.mp h]
    rfl
  · obtain ⟨digit, hdigit, rfl⟩ := List.mem_map.mp (List.mem_reverse.mp h)
    have hlt := Nat.digits_lt_base (by decide) hdigit
    simp only [isDigit, Bool.and_eq_true, decide_eq_true_eq]
    omega

theorem ofDecimal_concat (digits : Text) (digit : ℕ) :
    ofDecimal (digits ++ [digit]) = 10 * ofDecimal digits + (digit - 48) := by
  rw [ofDecimal, List.foldl_append]
  rfl

theorem ofDecimal_reverse (digits : List ℕ) :
    ofDecimal ((digits.map (48 + ·)).reverse) = Nat.ofDigits 10 digits := by
  induction digits with
  | nil => rfl
  | cons digit digits ih =>
      rw [List.map_cons, List.reverse_cons, ofDecimal_concat, ih, Nat.ofDigits_cons]
      omega

theorem ofDecimal_decimal (n : ℕ) : ofDecimal (decimal n) = n := by
  unfold decimal
  split
  · rename_i hzero
    rw [hzero]
    rfl
  · rw [ofDecimal_reverse, Nat.ofDigits_digits]

theorem decimal_cases (n : ℕ) :
    decimal n = [48] ∨ ∃ c digits, decimal n = c :: digits ∧ c ≠ 48 := by
  by_cases hzero : n = 0
  · left
    rw [hzero]
    rfl
  · right
    have hne : Nat.digits 10 n ≠ [] := Nat.digits_ne_nil_iff_ne_zero.mpr hzero
    have hlast := Nat.getLast_digit_ne_zero 10 hzero
    refine ⟨48 + (Nat.digits 10 n).getLast hne,
      ((Nat.digits 10 n).dropLast.map (48 + ·)).reverse, ?_, by omega⟩
    rw [decimal, if_neg hzero]
    conv_lhs => rw [← List.dropLast_append_getLast hne]
    rw [List.map_append, List.reverse_append]
    rfl

theorem length_decimal_le {n digits : ℕ} (hdigits : 0 < digits) (h : n < 10 ^ digits) :
    (decimal n).length ≤ digits := by
  unfold decimal
  split
  · exact hdigits
  · rw [List.length_reverse, List.length_map]
    exact (Nat.digits_length_le_iff (by decide) n).mpr h

/-- What may follow a value: nothing, a comma, or a closing bracket. -/
def Stops (rest : Text) : Prop :=
  ∀ c ∈ rest.head?, c = 44 ∨ c = 93 ∨ c = 125

theorem stops_cons {c : ℕ} {t : Text} : Stops (c :: t) ↔ c = 44 ∨ c = 93 ∨ c = 125 := by
  simp [Stops]

theorem stops_nil : Stops [] := by
  simp [Stops]

variable {rest digits : Text}

theorem takeWhile_digits (hdigits : ∀ c ∈ digits, isDigit c = true)
    (hrest : ∀ c ∈ rest.head?, isDigit c = false) :
    (digits ++ rest).takeWhile isDigit = digits ∧ (digits ++ rest).dropWhile isDigit = rest := by
  have hstop : rest.takeWhile isDigit = [] ∧ rest.dropWhile isDigit = rest := by
    cases rest with
    | nil => exact ⟨rfl, rfl⟩
    | cons c rest => simp [hrest c rfl]
  rw [List.takeWhile_append_of_pos hdigits, List.dropWhile_append_of_pos hdigits, hstop.1, hstop.2,
    List.append_nil]
  exact ⟨rfl, rfl⟩

theorem Stops.not_isDigit (h : Stops rest) : ∀ c ∈ rest.head?, isDigit c = false := by
  intro c hc
  rcases h c hc with rfl | rfl | rfl <;> rfl

def WholeNumeral (whole : Text) : Prop :=
  (∀ c ∈ whole, isDigit c = true) ∧ (whole = [48] ∨ ∃ c digits, whole = c :: digits ∧ c ≠ 48)

theorem wholeNumeral_decimal (n : ℕ) : WholeNumeral (decimal n) :=
  ⟨fun _ hc => isDigit_of_mem_decimal hc, decimal_cases n⟩

theorem splitWhole_append {whole : Text} (h : WholeNumeral whole)
    (hrest : ∀ c ∈ rest.head?, isDigit c = false) :
    splitWhole (whole ++ rest) = some (whole, rest) := by
  obtain ⟨hdigits, rfl | ⟨c, digits, rfl, hne⟩⟩ := h
  · rfl
  · obtain ⟨hfirst, hdigits⟩ := List.forall_mem_cons.mp hdigits
    obtain ⟨htake, hdrop⟩ := takeWhile_digits hdigits hrest
    rw [List.cons_append, splitWhole, if_neg hne, if_pos hfirst, htake, hdrop]

theorem splitFraction_stops (h : Stops rest) : splitFraction rest = ([], rest) := by
  unfold splitFraction
  split
  · rcases stops_cons.mp h with h | h | h <;> cases h
  · rfl

theorem splitExponent_stops (h : Stops rest) : splitExponent rest = ([], rest) := by
  unfold splitExponent
  split
  · rename_i e t'
    rw [if_neg]
    rintro ⟨h1 | h1, -⟩ <;> rcases stops_cons.mp h with h | h | h <;> omega
  · rfl

variable {F : Type} {floats : Floats F}

theorem splitSign_whole {whole : Text} (h : WholeNumeral whole) :
    splitSign (whole ++ rest) = ([], whole ++ rest) := by
  obtain ⟨hdigits, rfl | ⟨c, digits, rfl, hne⟩⟩ := h
  · rfl
  · have hdigit := hdigits c List.mem_cons_self
    unfold splitSign
    split
    · rename_i heq
      obtain ⟨rfl, -⟩ := List.cons_eq_cons.mp heq
      cases hdigit
    · rfl

theorem scanNumber_whole (floats : Floats F) {sign whole : Text} (hsign : sign = [] ∨ sign = [45])
    (h : WholeNumeral whole) (hlength : whole.length ≤ maxStrDigits) (hrest : Stops rest) :
    scanNumber floats (sign ++ (whole ++ rest)) =
      some (.int (signed sign (ofDecimal whole)), rest) := by
  have hsplit : splitSign (sign ++ (whole ++ rest)) = (sign, whole ++ rest) := by
    rcases hsign with rfl | rfl
    · change splitSign (whole ++ rest) = _
      exact splitSign_whole h
    · rfl
  simp only [scanNumber, hsplit, splitWhole_append h hrest.not_isDigit, splitFraction_stops hrest,
    splitExponent_stops hrest]
  rw [if_pos (List.append_nil []), if_neg (Nat.not_lt.mpr hlength)]

theorem scanNumber_intText {value : ℤ} (h : value.natAbs < 10 ^ maxStrDigits) (hrest : Stops rest) :
    scanNumber floats (intText value ++ rest) = some (.int value, rest) := by
  cases value with
  | ofNat n =>
      have hlength := length_decimal_le (by decide) h
      have hscan := scanNumber_whole floats (.inl rfl) (wholeNumeral_decimal n) hlength hrest
      rw [ofDecimal_decimal] at hscan
      exact hscan
  | negSucc n =>
      have hlength := length_decimal_le (by decide) h
      have hscan := scanNumber_whole floats (.inr rfl) (wholeNumeral_decimal (n + 1)) hlength hrest
      rw [ofDecimal_decimal] at hscan
      exact hscan

theorem afterWord_append (word t : Text) : afterWord word (word ++ t) = some t := by
  rw [afterWord, if_pos (List.prefix_append word t), List.drop_left]

theorem afterWord_ne {c d : ℕ} (h : c ≠ d) (word t : Text) :
    afterWord (c :: word) (d :: t) = none := by
  rw [afterWord, if_neg]
  intro hword
  exact h (List.cons_prefix_cons.mp hword).1

theorem text_words :
    text "null" = [110, 117, 108, 108] ∧ text "true" = [116, 114, 117, 101] ∧
      text "false" = [102, 97, 108, 115, 101] ∧ text "NaN" = [78, 97, 78] ∧
      text "Infinity" = [73, 110, 102, 105, 110, 105, 116, 121] ∧
      text "-Infinity" = [45, 73, 110, 102, 105, 110, 105, 116, 121] := by
  decide

theorem scanScalar_word {word : Text} {value : Json F} (h : (word, value) ∈ words floats)
    (t : Text) : scanScalar floats (word ++ t) = some (value, t) := by
  obtain ⟨hnull, htrue, hfalse, hnan, hinfinity, hnegative⟩ := text_words
  simp only [words, List.mem_cons, List.not_mem_nil, or_false, Prod.mk.injEq] at h
  simp only [scanScalar, words, List.findSome?_cons]
  rcases h with ⟨rfl, rfl⟩ | ⟨rfl, rfl⟩ | ⟨rfl, rfl⟩ | ⟨rfl, rfl⟩ | ⟨rfl, rfl⟩ | ⟨rfl, rfl⟩
  · rw [afterWord_append]
    rfl
  · rw [afterWord_append, hnull, htrue, List.cons_append, afterWord_ne (by decide)]
    rfl
  · rw [afterWord_append, hnull, htrue, hfalse, List.cons_append, afterWord_ne (by decide),
      afterWord_ne (by decide)]
    rfl
  · rw [afterWord_append, hnull, htrue, hfalse, hnan, List.cons_append, afterWord_ne (by decide),
      afterWord_ne (by decide), afterWord_ne (by decide)]
    rfl
  · rw [afterWord_append, hnull, htrue, hfalse, hnan, hinfinity, List.cons_append,
      afterWord_ne (by decide), afterWord_ne (by decide), afterWord_ne (by decide),
      afterWord_ne (by decide)]
    rfl
  · rw [afterWord_append, hnull, htrue, hfalse, hnan, hinfinity, hnegative, List.cons_append,
      afterWord_ne (by decide), afterWord_ne (by decide), afterWord_ne (by decide),
      afterWord_ne (by decide), afterWord_ne (by decide)]
    rfl

theorem WholeNumeral.head {whole : Text} (h : WholeNumeral whole) :
    ∃ c digits, whole = c :: digits ∧ isDigit c = true := by
  obtain ⟨hdigits, rfl | ⟨c, digits, rfl, -⟩⟩ := h
  · exact ⟨48, [], rfl, rfl⟩
  · exact ⟨c, digits, rfl, hdigits c List.mem_cons_self⟩

theorem scanScalar_numeral {sign whole : Text} (hsign : sign = [] ∨ sign = [45])
    (h : WholeNumeral whole) (t : Text) :
    scanScalar floats (sign ++ (whole ++ t)) = scanNumber floats (sign ++ (whole ++ t)) := by
  obtain ⟨c, digits, rfl, hdigit⟩ := h.head
  obtain ⟨hnull, htrue, hfalse, hnan, hinfinity, hnegative⟩ := text_words
  have hrange : 48 ≤ c ∧ c ≤ 57 := by
    simpa [isDigit] using hdigit
  simp only [scanScalar, words, List.findSome?_cons, List.findSome?_nil, hnull, htrue, hfalse, hnan,
    hinfinity, hnegative]
  rcases hsign with rfl | rfl
  · rw [List.nil_append, List.cons_append, afterWord_ne (by omega), afterWord_ne (by omega),
      afterWord_ne (by omega), afterWord_ne (by omega), afterWord_ne (by omega),
      afterWord_ne (by omega)]
    rfl
  · have hword : afterWord [45, 73, 110, 102, 105, 110, 105, 116, 121] (45 :: c :: (digits ++ t)) =
        none := by
      rw [afterWord, if_neg]
      intro hword
      have hletter := (List.cons_prefix_cons.mp (List.cons_prefix_cons.mp hword).2).1
      omega
    rw [List.cons_append, List.cons_append, List.nil_append, afterWord_ne (by decide), afterWord_ne (by decide),
      afterWord_ne (by decide),
      afterWord_ne (by decide), afterWord_ne (by decide), hword]
    rfl

def FractionPart (t : Text) : Prop :=
  t = [] ∨ ∃ digit digits, t = 46 :: digit :: digits ∧ ∀ c ∈ digit :: digits, isDigit c = true

def ExponentPart (t : Text) : Prop :=
  t = [] ∨ ∃ sign digit digits, t = 101 :: (sign ++ digit :: digits) ∧
    (sign = [] ∨ sign = [43] ∨ sign = [45]) ∧ ∀ c ∈ digit :: digits, isDigit c = true

/-- `repr` of a float is a numeral with a fraction or an exponent that `float` reads as the same
value again; the values that are no numbers are written as words. -/
structure Floats.Lawful (floats : Floats F) : Prop where
  reads : ∀ value,
    (value = floats.nan ∧ floats.toText value = text "NaN") ∨
    (value = floats.infinity ∧ floats.toText value = text "Infinity") ∨
    (value = floats.negInfinity ∧ floats.toText value = text "-Infinity") ∨
    ∃ sign whole fraction exponent, floats.toText value = sign ++ (whole ++ (fraction ++ exponent)) ∧
      (sign = [] ∨ sign = [45]) ∧ WholeNumeral whole ∧ FractionPart fraction ∧
      ExponentPart exponent ∧ fraction ++ exponent ≠ [] ∧
      floats.ofNumeral (floats.toText value) = value

theorem splitFraction_append {fraction exponent : Text} (hfraction : FractionPart fraction)
    (hexponent : ExponentPart exponent) (hrest : Stops rest) :
    splitFraction (fraction ++ (exponent ++ rest)) = (fraction, exponent ++ rest) := by
  have hnext : ∀ c ∈ (exponent ++ rest).head?, isDigit c = false := by
    rcases hexponent with rfl | ⟨sign, digit, digits, rfl, -, -⟩
    · exact hrest.not_isDigit
    · intro c hc
      obtain rfl := Option.some.inj hc
      rfl
  rcases hfraction with rfl | ⟨digit, digits, rfl, hdigits⟩
  · rcases hexponent with rfl | ⟨sign, digit, digits, rfl, -, -⟩
    · exact splitFraction_stops hrest
    · rfl
  · obtain ⟨hfirst, hdigits⟩ := List.forall_mem_cons.mp hdigits
    obtain ⟨htake, hdrop⟩ := takeWhile_digits hdigits hnext
    rw [List.cons_append, List.cons_append, splitFraction, if_pos hfirst, htake, hdrop]

theorem splitPower_append {sign digits : Text} (hsign : sign = [] ∨ sign = [43] ∨ sign = [45])
    (hdigits : ∀ c ∈ digits, isDigit c = true) (hne : digits ≠ []) (hrest : Stops rest) :
    splitPower (sign ++ (digits ++ rest)) = (sign ++ digits, rest) := by
  obtain ⟨htake, hdrop⟩ := takeWhile_digits hdigits hrest.not_isDigit
  rcases hsign with rfl | rfl | rfl
  · cases digits with
    | nil => exact absurd rfl hne
    | cons digit digits =>
        have hdigit := hdigits digit List.mem_cons_self
        rw [List.cons_append] at htake hdrop
        unfold splitPower
        split
        · rename_i heq
          obtain ⟨rfl, -⟩ := List.cons_eq_cons.mp heq
          cases hdigit
        · rename_i heq
          obtain ⟨rfl, -⟩ := List.cons_eq_cons.mp heq
          cases hdigit
        · rw [List.nil_append, List.cons_append, htake, hdrop]
          rfl
  · change (43 :: (digits ++ rest).takeWhile isDigit, (digits ++ rest).dropWhile isDigit) = _
    rw [htake, hdrop]
    rfl
  · change (45 :: (digits ++ rest).takeWhile isDigit, (digits ++ rest).dropWhile isDigit) = _
    rw [htake, hdrop]
    rfl

theorem splitExponent_append {exponent : Text} (hexponent : ExponentPart exponent)
    (hrest : Stops rest) : splitExponent (exponent ++ rest) = (exponent, rest) := by
  rcases hexponent with rfl | ⟨sign, digit, digits, rfl, hsign, hdigits⟩
  · exact splitExponent_stops hrest
  · have hpower := splitPower_append hsign hdigits (List.cons_ne_nil _ _) hrest
    have hany : (sign ++ digit :: digits).any isDigit = true := by
      rw [List.any_append, List.any_cons, hdigits digit List.mem_cons_self, Bool.true_or,
        Bool.or_true]
    rw [List.cons_append, List.append_assoc, splitExponent, hpower, if_pos ⟨.inl rfl, hany⟩]

theorem scanScalar_toText (hfloats : floats.Lawful) (value : F) (hrest : Stops rest) :
    scanScalar floats (floats.toText value ++ rest) = some (.float value, rest) := by
  rcases hfloats.reads value with ⟨rfl, htext⟩ | ⟨rfl, htext⟩ | ⟨rfl, htext⟩ |
    ⟨sign, whole, fraction, exponent, htext, hsign, hwhole, hfraction, hexponent, hfloat, hvalue⟩
  · rw [htext]
    exact scanScalar_word (by simp [words]) rest
  · rw [htext]
    exact scanScalar_word (by simp [words]) rest
  · rw [htext]
    exact scanScalar_word (by simp [words]) rest
  · have hnext : ∀ c ∈ (fraction ++ (exponent ++ rest)).head?, isDigit c = false := by
      rcases hfraction with rfl | ⟨digit, digits, rfl, -⟩
      · rcases hexponent with rfl | ⟨sign, digit, digits, rfl, -, -⟩
        · exact hrest.not_isDigit
        · intro c hc
          obtain rfl := Option.some.inj hc
          rfl
      · intro c hc
        obtain rfl := Option.some.inj hc
        rfl
    have hsplit : splitSign (sign ++ (whole ++ (fraction ++ (exponent ++ rest)))) =
        (sign, whole ++ (fraction ++ (exponent ++ rest))) := by
      rcases hsign with rfl | rfl
      · change splitSign (whole ++ _) = _
        exact splitSign_whole hwhole
      · rfl
    have hreassoc : floats.toText value ++ rest =
        sign ++ (whole ++ (fraction ++ (exponent ++ rest))) := by
      rw [htext]
      simp only [List.append_assoc]
    rw [hreassoc, scanScalar_numeral hsign hwhole]
    simp only [scanNumber, hsplit, splitWhole_append hwhole hnext,
      splitFraction_append hfraction hexponent hrest, splitExponent_append hexponent hrest]
    rw [if_neg hfloat]
    rw [htext] at hvalue
    simp only [List.append_assoc, hvalue]

def Starts (t : Text) : Prop :=
  ∃ c t', t = c :: t' ∧ isSpace c = false ∧ c ≠ 93 ∧ c ≠ 125

theorem Starts.skipSpace {t : Text} (h : Starts t) (rest : Text) :
    skipSpace (t ++ rest) = t ++ rest := by
  obtain ⟨c, t', rfl, hspace, -⟩ := h
  rw [List.cons_append, JsonText.skipSpace, List.dropWhile_cons_of_neg (by simp [hspace])]

section Elements

variable {α : Type} {close : ℕ} {element : Text → Option (α × Text)} {write : α → Text}
  {items : List α}

theorem commas_cons_cons (part next : Text) (parts : List Text) :
    commas (part :: next :: parts) = part ++ 44 :: 32 :: commas (next :: parts) := by
  rw [commas]
  simp

theorem scanElements_commas (hclose : close = 93 ∨ close = 125) (hne : items ≠ [])
    (hread : ∀ item ∈ items, ∀ rest, Stops rest → element (write item ++ rest) = some (item, rest))
    (hstart : ∀ item ∈ items, Starts (write item)) {rounds : ℕ} (hrounds : items.length ≤ rounds)
    (rest : Text) :
    scanElements close element rounds (commas (items.map write) ++ close :: rest) =
      some (items, rest) := by
  induction items generalizing rounds with
  | nil => exact absurd rfl hne
  | cons item items ih =>
      obtain ⟨rounds, rfl⟩ : ∃ fewer, rounds = fewer + 1 := ⟨rounds - 1, by
        rw [List.length_cons] at hrounds
        omega⟩
      obtain ⟨hfirst, hread⟩ := List.forall_mem_cons.mp hread
      have hcloses : isSpace close = false ∧ (close = 44) = False := by
        rcases hclose with rfl | rfl <;> decide
      cases items with
      | nil =>
          have hstops : Stops (close :: rest) := stops_cons.mpr (.inr hclose)
          rw [List.map_singleton, commas, scanElements, hfirst _ hstops]
          dsimp only
          rw [skipSpace, List.dropWhile_cons_of_neg (by simp [hcloses.1])]
          dsimp only
          rw [if_pos rfl]
      | cons next items =>
          have hstops : Stops (44 :: 32 :: (commas ((next :: items).map write) ++ close :: rest)) :=
            stops_cons.mpr (.inl rfl)
          have hnext := hstart next (List.mem_cons_of_mem _ List.mem_cons_self)
          have hskip : skipSpace (32 :: (commas ((next :: items).map write) ++ close :: rest)) =
              commas ((next :: items).map write) ++ close :: rest := by
            obtain ⟨c, t', ht, hspace, -⟩ := hnext
            rw [skipSpace, List.dropWhile_cons_of_pos (by rfl)]
            cases items with
            | nil =>
                rw [List.map_singleton, commas, ht, List.cons_append,
                  List.dropWhile_cons_of_neg (by simp [hspace])]
            | cons other items =>
                rw [List.map_cons, List.map_cons, commas_cons_cons, ht, List.cons_append,
                  List.cons_append, List.dropWhile_cons_of_neg (by simp [hspace])]
          have hrest := ih (List.cons_ne_nil _ _) hread
            (fun item hitem => hstart item (List.mem_cons_of_mem _ hitem))
            (Nat.le_of_succ_le_succ hrounds)
          rw [List.map_cons, List.map_cons, commas_cons_cons, ← List.map_cons, List.append_assoc,
            List.cons_append, List.cons_append, scanElements, hfirst _ hstops]
          dsimp only
          rw [skipSpace, List.dropWhile_cons_of_neg (by decide)]
          dsimp only
          rw [if_neg (by rcases hclose with rfl | rfl <;> decide), if_pos rfl, hskip, hrest]
          rfl

theorem length_le_length_commas (parts : List Text) (hparts : ∀ part ∈ parts, part ≠ []) :
    parts.length ≤ (commas parts).length := by
  have hsum : parts.length ≤ (parts.map List.length).sum := by
    induction parts with
    | nil => exact Nat.le_refl _
    | cons part parts ih =>
        obtain ⟨hpart, hparts⟩ := List.forall_mem_cons.mp hparts
        have hpos := List.length_pos_iff.mpr hpart
        have hrest := ih hparts
        rw [List.map_cons, List.sum_cons, List.length_cons]
        omega
  rw [length_commas]
  omega

theorem scanGroup_commas (hclose : close = 93 ∨ close = 125)
    (hread : ∀ item ∈ items, ∀ rest, Stops rest → element (write item ++ rest) = some (item, rest))
    (hstart : ∀ item ∈ items, Starts (write item)) (rest : Text) :
    scanGroup close element (commas (items.map write) ++ close :: rest) = some (items, rest) := by
  cases items with
  | nil =>
      have hspace : isSpace close = false := by
        rcases hclose with rfl | rfl <;> rfl
      rw [List.map_nil, commas, List.nil_append, scanGroup, skipSpace,
        List.dropWhile_cons_of_neg (by simp [hspace])]
      dsimp only
      rw [if_pos rfl]
  | cons item items =>
      have hparts : ∀ part ∈ (item :: items).map write, part ≠ [] := by
        intro part hpart hnil
        obtain ⟨other, hother, rfl⟩ := List.mem_map.mp hpart
        obtain ⟨c, t', ht, -⟩ := hstart other hother
        rw [ht] at hnil
        cases hnil
      have hcount := length_le_length_commas _ hparts
      rw [List.length_map] at hcount
      have hall := fun {rounds : ℕ} (hrounds : (item :: items).length ≤ rounds) =>
        scanElements_commas hclose (List.cons_ne_nil item items) hread hstart hrounds rest
      obtain ⟨c, t', ht, hspace, hsquare, hcurly⟩ := hstart item List.mem_cons_self
      obtain ⟨t'', ht''⟩ : ∃ t'', commas ((item :: items).map write) = c :: t'' := by
        cases items with
        | nil => exact ⟨t', by rw [List.map_singleton, commas, ht]⟩
        | cons next items =>
            exact ⟨_, by rw [List.map_cons, List.map_cons, commas_cons_cons, ht, List.cons_append]⟩
      rw [ht''] at hall hcount ⊢
      rw [scanGroup, List.cons_append, skipSpace, List.dropWhile_cons_of_neg (by simp [hspace])]
      dsimp only
      rw [if_neg (by rcases hclose with rfl | rfl <;> assumption), ← List.cons_append]
      apply hall
      simp only [List.length_cons, List.length_append] at hcount ⊢
      omega

end Elements

/-- The values that are read back within `depth` nested containers. -/
inductive ReadsWithin : ℕ → Json F → Prop where
  | null (depth : ℕ) : ReadsWithin depth .null
  | bool (depth : ℕ) (value : Bool) : ReadsWithin depth (.bool value)
  | int (depth : ℕ) {value : ℤ} (hvalue : value.natAbs < 10 ^ maxStrDigits) :
      ReadsWithin depth (.int value)
  | float (depth : ℕ) (value : F) : ReadsWithin depth (.float value)
  | string (depth : ℕ) (value : Text) : ReadsWithin depth (.string value)
  | list {depth : ℕ} {items : List (Json F)} (hitems : ∀ item ∈ items, ReadsWithin depth item) :
      ReadsWithin (depth + 1) (.list items)
  | object {depth : ℕ} {fields : Fields F} (hkeys : (keys fields).Nodup)
      (hfields : ∀ field ∈ fields, ReadsWithin depth field.2) :
      ReadsWithin (depth + 1) (.object fields)

theorem scanScalar_eq_none {c : ℕ}
    (h : c = 34 ∨ c = 123 ∨ c = 91 ∨ c = 93 ∨ c = 125 ∨ isSpace c = true) (t : Text) :
    scanScalar floats (c :: t) = none := by
  obtain ⟨hnull, htrue, hfalse, hnan, hinfinity, hnegative⟩ := text_words
  have hrange : c < 45 ∨ c = 91 ∨ c = 93 ∨ 123 ≤ c := by
    rcases h with rfl | rfl | rfl | rfl | rfl | h
    · decide
    · decide
    · decide
    · decide
    · decide
    · simp only [isSpace, decide_eq_true_eq] at h
      omega
  have hsign : splitSign (c :: t) = ([], c :: t) := by
    unfold splitSign
    split
    · rename_i heq
      obtain ⟨rfl, -⟩ := List.cons_eq_cons.mp heq
      omega
    · rfl
  have hdigit : isDigit c = false := by
    rw [isDigit, Bool.and_eq_false_iff, decide_eq_false_iff_not, decide_eq_false_iff_not]
    omega
  simp only [scanScalar, words, List.findSome?_cons, List.findSome?_nil, hnull, htrue, hfalse, hnan,
    hinfinity, hnegative]
  rw [afterWord_ne (by omega), afterWord_ne (by omega), afterWord_ne (by omega),
    afterWord_ne (by omega), afterWord_ne (by omega), afterWord_ne (by omega)]
  simp only [scanNumber, hsign, splitWhole]
  rw [if_neg (by omega), if_neg (by simp [hdigit])]
  rfl

theorem scanOnce_scalar {t : Text} {read : Json F × Text} (h : scanScalar floats t = some read)
    (depth : ℕ) : scanOnce floats depth t = some read := by
  cases t with
  | nil => cases h
  | cons c t =>
      have hne : c ≠ 34 ∧ c ≠ 123 ∧ c ≠ 91 := by
        refine ⟨?_, ?_, ?_⟩
        · rintro rfl
          rw [scanScalar_eq_none (.inl rfl)] at h
          cases h
        · rintro rfl
          rw [scanScalar_eq_none (.inr (.inl rfl))] at h
          cases h
        · rintro rfl
          rw [scanScalar_eq_none (.inr (.inr (.inl rfl)))] at h
          cases h
      cases depth with
      | zero =>
          rw [scanOnce, if_neg hne.1, if_neg (not_or.mpr ⟨hne.2.1, hne.2.2⟩)]
          exact h
      | succ depth =>
          rw [scanOnce, if_neg hne.1, if_neg hne.2.1, if_neg hne.2.2]
          exact h

theorem starts_of_scanScalar {t : Text} {read : Json F × Text}
    (h : scanScalar floats t = some read) : Starts t := by
  cases t with
  | nil => cases h
  | cons c t =>
      refine ⟨c, t, rfl, ?_, ?_, ?_⟩
      · by_contra hspace
        rw [Bool.not_eq_false] at hspace
        rw [scanScalar_eq_none (.inr (.inr (.inr (.inr (.inr hspace)))))] at h
        cases h
      · rintro rfl
        rw [scanScalar_eq_none (.inr (.inr (.inr (.inl rfl))))] at h
        cases h
      · rintro rfl
        rw [scanScalar_eq_none (.inr (.inr (.inr (.inr (.inl rfl)))))] at h
        cases h

theorem starts_quote (value : Text) : Starts (quote value) :=
  ⟨34, _, rfl, rfl, by decide, by decide⟩

theorem scanScalar_intText {value : ℤ} (h : value.natAbs < 10 ^ maxStrDigits) (hrest : Stops rest) :
    scanScalar floats (intText value ++ rest) = some (.int value, rest) := by
  rw [← scanNumber_intText h hrest]
  cases value with
  | ofNat n => exact scanScalar_numeral (.inl rfl) (wholeNumeral_decimal n) rest
  | negSucc n => exact scanScalar_numeral (.inr rfl) (wholeNumeral_decimal (n + 1)) rest

section RoundTrip

variable {depth : ℕ} {value : Json F}

theorem starts_dumps (hfloats : floats.Lawful) (h : ReadsWithin depth value) :
    Starts (dumps floats.toText value) := by
  cases h with
  | null depth => exact ⟨110, _, rfl, rfl, by decide, by decide⟩
  | bool depth value =>
      cases value with
      | true => exact ⟨116, _, rfl, rfl, by decide, by decide⟩
      | false => exact ⟨102, _, rfl, rfl, by decide, by decide⟩
  | int depth hvalue =>
      have hscan : scanScalar floats _ = _ := scanScalar_intText hvalue stops_nil
      rw [List.append_nil] at hscan
      exact starts_of_scanScalar hscan
  | float depth value =>
      have hscan := scanScalar_toText hfloats value stops_nil
      rw [List.append_nil] at hscan
      exact starts_of_scanScalar hscan
  | string depth value => exact starts_quote value
  | list hitems => exact ⟨91, _, rfl, rfl, by decide, by decide⟩
  | object hkeys hfields => exact ⟨123, _, rfl, rfl, by decide, by decide⟩

theorem scanOnce_string (depth : ℕ) (value rest : Text) :
    scanOnce floats depth (quote value ++ rest) = some (.string value, rest) := by
  have hquote : quote value ++ rest = 34 :: (escape value ++ 34 :: rest) := by
    simp [quote]
  rw [hquote]
  cases depth with
  | zero => rw [scanOnce, if_pos rfl, scanString_escape, Option.map_some]
  | succ depth => rw [scanOnce, if_pos rfl, scanString_escape, Option.map_some]

theorem scanField_quote {element : Text → Option (Json F × Text)} {key written : Text}
    (hread : element (written ++ rest) = some (value, rest)) (hstart : Starts written) :
    scanField element ((quote key ++ 58 :: 32 :: written) ++ rest) = some ((key, value), rest) := by
  have hquote : (quote key ++ 58 :: 32 :: written) ++ rest =
      34 :: (escape key ++ 34 :: 58 :: 32 :: (written ++ rest)) := by
    simp [quote]
  have hskip := hstart.skipSpace rest
  rw [skipSpace] at hskip
  rw [hquote, scanField, if_pos rfl, scanString_escape]
  dsimp only
  rw [skipSpace, List.dropWhile_cons_of_neg (by decide)]
  dsimp only
  rw [if_pos rfl, skipSpace, List.dropWhile_cons_of_pos (by rfl), hskip, hread, Option.map_some]

theorem scanOnce_dumps (hfloats : floats.Lawful) (h : ReadsWithin depth value) (hrest : Stops rest) :
    scanOnce floats depth (dumps floats.toText value ++ rest) = some (value, rest) := by
  induction h generalizing rest with
  | null depth => exact scanOnce_scalar (scanScalar_word (by simp [words, dumps]) rest) depth
  | bool depth value =>
      cases value with
      | true => exact scanOnce_scalar (scanScalar_word (by simp [words, dumps]) rest) depth
      | false => exact scanOnce_scalar (scanScalar_word (by simp [words, dumps]) rest) depth
  | int depth hvalue => exact scanOnce_scalar (scanScalar_intText hvalue hrest) depth
  | float depth value => exact scanOnce_scalar (scanScalar_toText hfloats value hrest) depth
  | string depth value => exact scanOnce_string depth value rest
  | @list depth items hitems ih =>
      have hgroup := scanGroup_commas (.inl rfl) (fun item hitem rest hrest => ih item hitem hrest)
        (fun item hitem => starts_dumps hfloats (hitems item hitem)) rest
      rw [dumps, dumpsItems_eq, List.append_assoc, List.cons_append, scanOnce, if_neg (by decide),
        if_neg (by decide), if_pos rfl]
      change (scanGroup 93 _ (_ ++ 93 :: rest)).map _ = _
      rw [hgroup, Option.map_some]
  | @object depth fields hkeys hfields ih =>
      have hgroup := scanGroup_commas (.inr rfl)
        (fun field hfield rest hrest => scanField_quote (ih field hfield hrest)
          (starts_dumps hfloats (hfields field hfield)))
        (fun field _ => ⟨34, _, rfl, rfl, by decide, by decide⟩) rest
      rw [dumps, dumpsFields_eq, List.append_assoc, List.cons_append, scanOnce, if_neg (by decide),
        if_pos rfl]
      change (scanGroup 125 _ (_ ++ 125 :: rest)).map _ = _
      rw [hgroup, Option.map_some, ofItems_of_nodup hkeys]

theorem loads_dumps (hfloats : floats.Lawful) (h : ReadsWithin depth value) :
    loads floats depth (dumps floats.toText value) = some value := by
  have hscan := scanOnce_dumps hfloats h stops_nil
  have hskip := (starts_dumps hfloats h).skipSpace []
  rw [List.append_nil] at hscan hskip
  rw [loads, hskip, hscan]
  rfl

end RoundTrip

end ShortReel.JsonText
