import Mathlib.Data.List.TakeWhile
import ShortReel.JsonRoundTrip

/-!
# What can be read

Only texts without stray control characters are read, an integer has no more digits and a list no
more items than its text has characters, and what is read could be written and read again.
-/

namespace ShortReel.JsonText

open InsertionDict

def Tame (t : Text) : Prop :=
  ∀ c ∈ t, (escapeChar c).length ≤ 2

theorem length_escapeChar_of_le {c : ℕ} (h : 32 ≤ c) : (escapeChar c).length ≤ 2 := by
  unfold escapeChar
  split_ifs <;> simp
  omega

theorem tame_append {left right : Text} : Tame (left ++ right) ↔ Tame left ∧ Tame right :=
  List.forall_mem_append

theorem tame_cons {c : ℕ} {t : Text} : Tame (c :: t) ↔ (escapeChar c).length ≤ 2 ∧ Tame t :=
  List.forall_mem_cons

theorem tame_nil : Tame [] := by
  simp [Tame]

theorem tame_of_le {t : Text} (h : ∀ c ∈ t, 32 ≤ c) : Tame t :=
  fun c hc => length_escapeChar_of_le (h c hc)

theorem Tame.sublist {t t' : Text} (h : Tame t) (hsub : t'.Sublist t) : Tame t' :=
  fun c hc => h c (hsub.subset hc)

/-- A reader took `consumed` off the front of a text. -/
structure Consumes (t consumed rest : Text) : Prop where
  split : t = consumed ++ rest
  tame : Tame consumed

theorem Consumes.trans {t middle rest first second : Text} (h : Consumes t first middle)
    (h' : Consumes middle second rest) : Consumes t (first ++ second) rest where
  split := by rw [h.split, h'.split, List.append_assoc]
  tame := tame_append.mpr ⟨h.tame, h'.tame⟩

theorem Consumes.cons {c : ℕ} {t consumed rest : Text} (hc : (escapeChar c).length ≤ 2)
    (h : Consumes t consumed rest) : Consumes (c :: t) (c :: consumed) rest where
  split := by rw [h.split, List.cons_append]
  tame := tame_cons.mpr ⟨hc, h.tame⟩

theorem Consumes.nil (t : Text) : Consumes t [] t where
  split := rfl
  tame := tame_nil

variable {t rest : Text}

theorem consumes_skipSpace (t : Text) : ∃ spaces, Consumes t spaces (skipSpace t) := by
  refine ⟨t.takeWhile isSpace, List.takeWhile_append_dropWhile.symm, ?_⟩
  intro c hc
  have hspace := List.mem_takeWhile_imp hc
  simp only [isSpace, decide_eq_true_eq] at hspace
  rcases hspace with rfl | rfl | rfl | rfl <;> decide

theorem le_of_hexValue {c value : ℕ} (h : hexValue c = some value) : 32 ≤ c := by
  unfold hexValue at h
  split_ifs at h <;> omega

theorem le_of_hexValues {w x y z value : ℕ} (h : hexValues w x y z = some value) :
    32 ≤ w ∧ 32 ≤ x ∧ 32 ≤ y ∧ 32 ≤ z := by
  unfold hexValues at h
  split at h
  · rename_i hw hx hy hz
    exact ⟨le_of_hexValue hw, le_of_hexValue hx, le_of_hexValue hy, le_of_hexValue hz⟩
  · cases h

theorem le_of_shortEscape {c value : ℕ} (h : shortEscape c = some value) : 32 ≤ c := by
  unfold shortEscape at h
  split_ifs at h <;> omega

theorem scanUnits_consumes {units : List StringUnit} (h : scanUnits t = some (units, rest)) :
    ∃ consumed, t = consumed ++ rest ∧ ∀ c ∈ consumed, 32 ≤ c := by
  fun_induction scanUnits t generalizing units rest with
  | case1 => cases h
  | case2 rest' =>
      cases h
      exact ⟨[34], rfl, by simp⟩
  | case3 => cases h
  | case4 => cases h
  | case5 w x y z rest' value hvalue _ ih =>
      obtain ⟨⟨units', rest''⟩, hread, heq⟩ := Option.map_eq_some_iff.mp h
      cases heq
      obtain ⟨consumed, rfl, hconsumed⟩ := ih hread
      obtain ⟨hw, hx, hy, hz⟩ := le_of_hexValues hvalue
      refine ⟨92 :: 117 :: w :: x :: y :: z :: consumed, rfl, ?_⟩
      simp only [List.forall_mem_cons]
      exact ⟨by decide, by decide, hw, hx, hy, hz, hconsumed⟩
  | case6 => cases h
  | case7 => cases h
  | case8 letter rest' _ value hvalue _ ih =>
      obtain ⟨⟨units', rest''⟩, hread, heq⟩ := Option.map_eq_some_iff.mp h
      cases heq
      obtain ⟨consumed, rfl, hconsumed⟩ := ih hread
      refine ⟨92 :: letter :: consumed, rfl, ?_⟩
      simp only [List.forall_mem_cons]
      exact ⟨by decide, le_of_shortEscape hvalue, hconsumed⟩
  | case9 => cases h
  | case10 c rest' _ _ hplain ih =>
      obtain ⟨⟨units', rest''⟩, hread, heq⟩ := Option.map_eq_some_iff.mp h
      cases heq
      obtain ⟨consumed, rfl, hconsumed⟩ := ih hread
      refine ⟨c :: consumed, rfl, ?_⟩
      simp only [List.forall_mem_cons]
      exact ⟨Nat.le_of_not_lt hplain, hconsumed⟩

theorem scanString_consumes {value : Text} (h : scanString t = some (value, rest)) :
    ∃ consumed, Consumes t consumed rest := by
  obtain ⟨⟨units, rest'⟩, hread, heq⟩ := Option.map_eq_some_iff.mp h
  cases heq
  obtain ⟨consumed, hsplit, hconsumed⟩ := scanUnits_consumes hread
  exact ⟨consumed, hsplit, tame_of_le hconsumed⟩

theorem le_of_isDigit {c : ℕ} (h : isDigit c = true) : 32 ≤ c := by
  simp only [isDigit, Bool.and_eq_true, decide_eq_true_eq] at h
  omega

theorem digits_consumes (t : Text) : Consumes t (t.takeWhile isDigit) (t.dropWhile isDigit) where
  split := List.takeWhile_append_dropWhile.symm
  tame := tame_of_le fun _ hc => le_of_isDigit (List.mem_takeWhile_imp hc)

theorem splitSign_consumes (t : Text) : Consumes t (splitSign t).1 (splitSign t).2 := by
  unfold splitSign
  split
  · exact (Consumes.nil _).cons (by decide)
  · exact Consumes.nil _

theorem splitWhole_consumes {whole : Text} (h : splitWhole t = some (whole, rest)) :
    Consumes t whole rest ∧ (∀ c ∈ whole, isDigit c = true) ∧ whole ≠ [] := by
  unfold splitWhole at h
  split at h
  · cases h
  split at h
  · rename_i c t' hzero
    cases h
    rw [hzero]
    exact ⟨(Consumes.nil _).cons (by decide), by simp [isDigit], List.cons_ne_nil _ _⟩
  split at h
  · rename_i hdigit
    cases h
    refine ⟨(digits_consumes _).cons (length_escapeChar_of_le (le_of_isDigit hdigit)), ?_,
      List.cons_ne_nil _ _⟩
    exact List.forall_mem_cons.mpr ⟨hdigit, fun _ hc => List.mem_takeWhile_imp hc⟩
  · cases h

theorem splitFraction_consumes (t : Text) : Consumes t (splitFraction t).1 (splitFraction t).2 := by
  unfold splitFraction
  split
  · split
    · rename_i hdigit
      exact ((digits_consumes _).cons (length_escapeChar_of_le (le_of_isDigit hdigit))).cons
        (by decide)
    · exact Consumes.nil _
  · exact Consumes.nil _

theorem splitPower_consumes (t : Text) : Consumes t (splitPower t).1 (splitPower t).2 := by
  unfold splitPower
  split
  · exact (digits_consumes _).cons (by decide)
  · exact (digits_consumes _).cons (by decide)
  · exact digits_consumes _

theorem splitExponent_consumes (t : Text) : Consumes t (splitExponent t).1 (splitExponent t).2 := by
  unfold splitExponent
  split
  · rename_i e t'
    split
    · rename_i hexponent
      refine (splitPower_consumes t').cons ?_
      rcases hexponent.1 with rfl | rfl <;> decide
    · exact Consumes.nil _
  · exact Consumes.nil _

theorem ofDecimal_lt {digits : Text} (h : ∀ c ∈ digits, isDigit c = true) :
    ofDecimal digits < 10 ^ digits.length := by
  induction digits using List.reverseRecOn with
  | nil => decide
  | append_singleton digits digit ih =>
      obtain ⟨hdigits, hdigit⟩ := List.forall_mem_append.mp h
      have hlt := ih hdigits
      have hlast := hdigit digit List.mem_cons_self
      simp only [isDigit, Bool.and_eq_true, decide_eq_true_eq] at hlast
      rw [ofDecimal_concat, List.length_append, List.length_singleton, Nat.pow_succ]
      omega

variable {F : Type} {floats : Floats F} {depth size : ℕ} {value : Json F}

/-- No integer has more than `size` digits, and no list more than `size` items. -/
inductive BoundedBy (size : ℕ) : Json F → Prop where
  | null : BoundedBy size .null
  | bool (value : Bool) : BoundedBy size (.bool value)
  | int {value : ℤ} (hvalue : value.natAbs < 10 ^ size) : BoundedBy size (.int value)
  | float (value : F) : BoundedBy size (.float value)
  | string (value : Text) : BoundedBy size (.string value)
  | list {items : List (Json F)} (hlength : items.length ≤ size)
      (hitems : ∀ item ∈ items, BoundedBy size item) : BoundedBy size (.list items)
  | object {fields : Fields F} (hfields : ∀ field ∈ fields, BoundedBy size field.2) :
      BoundedBy size (.object fields)

theorem BoundedBy.mono {larger : ℕ} (h : BoundedBy size value) (hle : size ≤ larger) :
    BoundedBy larger value := by
  induction h with
  | null => exact .null
  | bool value => exact .bool value
  | int hvalue => exact .int (Nat.lt_of_lt_of_le hvalue (Nat.pow_le_pow_right (by decide) hle))
  | float value => exact .float value
  | string value => exact .string value
  | list hlength hitems ih => exact .list (Nat.le_trans hlength hle) ih
  | object hfields ih => exact .object ih

/-- What reading a value from `t` tells of the value and of the text it took. -/
def ReadFrom (depth : ℕ) (t : Text) (value : Json F) (rest : Text) : Prop :=
  ∃ consumed, Consumes t consumed rest ∧ consumed ≠ [] ∧ ReadsWithin depth value ∧
    BoundedBy consumed.length value

theorem natAbs_signed (sign : Text) (magnitude : ℕ) :
    (signed sign magnitude).natAbs = magnitude := by
  unfold signed
  split <;> simp

theorem scanNumber_readFrom (h : scanNumber floats t = some (value, rest)) :
    ReadFrom depth t value rest := by
  have hsign := splitSign_consumes t
  simp only [scanNumber] at h
  split at h
  · cases h
  rename_i whole t' hwhole
  obtain ⟨hwhole, hdigits, hne⟩ := splitWhole_consumes hwhole
  have hfraction := splitFraction_consumes t'
  have hexponent := splitExponent_consumes (splitFraction t').2
  have hconsumed := ((hsign.trans hwhole).trans hfraction).trans hexponent
  split at h
  · rename_i hint
    split at h
    · cases h
    rename_i hlength
    cases h
    refine ⟨_, hconsumed, ?_, ?_, ?_⟩
    · simp [hne]
    · refine .int depth ?_
      rw [natAbs_signed]
      exact Nat.lt_of_lt_of_le (ofDecimal_lt hdigits)
        (Nat.pow_le_pow_right (by decide) (Nat.not_lt.mp hlength))
    · refine .int ?_
      rw [natAbs_signed]
      refine Nat.lt_of_lt_of_le (ofDecimal_lt hdigits) (Nat.pow_le_pow_right (by decide) ?_)
      simp only [List.length_append]
      omega
  · cases h
    refine ⟨_, hconsumed, ?_, .float depth _, .float _⟩
    simp [hne]

theorem tame_word {word : Text} (h : (word, value) ∈ words floats) :
    Tame word ∧ word ≠ [] ∧ ReadsWithin depth value ∧ BoundedBy size value := by
  simp only [words, List.mem_cons, List.not_mem_nil, or_false, Prod.mk.injEq] at h
  rcases h with ⟨rfl, rfl⟩ | ⟨rfl, rfl⟩ | ⟨rfl, rfl⟩ | ⟨rfl, rfl⟩ | ⟨rfl, rfl⟩ | ⟨rfl, rfl⟩
  · exact ⟨tame_of_le (by decide), by decide, .null depth, .null⟩
  · exact ⟨tame_of_le (by decide), by decide, .bool depth _, .bool _⟩
  · exact ⟨tame_of_le (by decide), by decide, .bool depth _, .bool _⟩
  · exact ⟨tame_of_le (by decide), by decide, .float depth _, .float _⟩
  · exact ⟨tame_of_le (by decide), by decide, .float depth _, .float _⟩
  · exact ⟨tame_of_le (by decide), by decide, .float depth _, .float _⟩

theorem scanScalar_readFrom (h : scanScalar floats t = some (value, rest)) :
    ReadFrom depth t value rest := by
  unfold scanScalar at h
  split at h
  · rename_i read hread
    rw [Option.some.inj h] at hread
    obtain ⟨⟨word, value'⟩, hword, hread⟩ := List.exists_of_findSome?_eq_some hread
    obtain ⟨t', hafter, heq⟩ := Option.map_eq_some_iff.mp hread
    cases heq
    obtain ⟨htame, hne, hreads, hbound⟩ := tame_word hword
    unfold afterWord at hafter
    split at hafter
    · rename_i hfront
      cases hafter
      obtain ⟨t'', rfl⟩ := hfront
      rw [List.drop_left]
      exact ⟨word, ⟨rfl, htame⟩, hne, hreads, hbound⟩
    · cases hafter
  · exact scanNumber_readFrom h

section Elements

variable {α : Type} {close rounds : ℕ} {element : Text → Option (α × Text)} {items : List α}
  {P : ℕ → α → Prop}

theorem scanElements_consumes (hclose : (escapeChar close).length ≤ 2)
    (hmono : ∀ item small large, small ≤ large → P small item → P large item)
    (helement : ∀ t item rest, element t = some (item, rest) →
      ∃ consumed, Consumes t consumed rest ∧ consumed ≠ [] ∧ P consumed.length item)
    (h : scanElements close element rounds t = some (items, rest)) :
    ∃ consumed, Consumes t consumed rest ∧ items.length ≤ consumed.length ∧
      ∀ item ∈ items, P consumed.length item := by
  induction rounds generalizing t items with
  | zero => cases h
  | succ rounds ih =>
      unfold scanElements at h
      split at h
      · cases h
      rename_i item t1 hitem
      obtain ⟨first, hfirst, hne, hholds⟩ := helement t item t1 hitem
      obtain ⟨spaces, hspaces⟩ := consumes_skipSpace t1
      have hpos := List.length_pos_iff.mpr hne
      split at h
      · cases h
      rename_i c t2 hskip
      rw [hskip] at hspaces
      split at h
      · rename_i heq
        cases h
        have hlast : Consumes (c :: rest) [c] rest := (Consumes.nil rest).cons (heq ▸ hclose)
        refine ⟨first ++ spaces ++ [c], (hfirst.trans hspaces).trans hlast, ?_, ?_⟩
        · simp only [List.length_append, List.length_singleton]
          omega
        · intro other hother
          rw [List.mem_singleton.mp hother]
          exact hmono item _ _ (by simp only [List.length_append]; omega) hholds
      split at h
      · rename_i hcomma
        obtain ⟨⟨later, rest'⟩, hlater, heq⟩ := Option.map_eq_some_iff.mp h
        cases heq
        obtain ⟨more, hmore⟩ := consumes_skipSpace t2
        obtain ⟨tail, htail, hlength, hrest⟩ := ih hlater
        have hnext : Consumes (c :: t2) (c :: more) (skipSpace t2) :=
          hmore.cons (hcomma ▸ by decide)
        refine ⟨first ++ spaces ++ (c :: more) ++ tail,
          ((hfirst.trans hspaces).trans hnext).trans htail, ?_, ?_⟩
        · simp only [List.length_append, List.length_cons]
          omega
        · refine List.forall_mem_cons.mpr ⟨?_, ?_⟩
          · exact hmono item _ _ (by simp only [List.length_append]; omega) hholds
          · intro other hother
            exact hmono other _ _ (by simp only [List.length_append]; omega) (hrest other hother)
      · cases h

theorem scanGroup_consumes (hclose : (escapeChar close).length ≤ 2)
    (hmono : ∀ item small large, small ≤ large → P small item → P large item)
    (helement : ∀ t item rest, element t = some (item, rest) →
      ∃ consumed, Consumes t consumed rest ∧ consumed ≠ [] ∧ P consumed.length item)
    (h : scanGroup close element t = some (items, rest)) :
    ∃ consumed, Consumes t consumed rest ∧ items.length ≤ consumed.length ∧
      ∀ item ∈ items, P consumed.length item := by
  obtain ⟨spaces, hspaces⟩ := consumes_skipSpace t
  unfold scanGroup at h
  split at h
  · cases h
  rename_i c t1 hskip
  rw [hskip] at hspaces
  split at h
  · rename_i heq
    cases h
    have hlast : Consumes (c :: rest) [c] rest := (Consumes.nil rest).cons (heq ▸ hclose)
    exact ⟨spaces ++ [c], hspaces.trans hlast, Nat.zero_le _, by simp⟩
  · obtain ⟨tail, htail, hlength, hall⟩ := scanElements_consumes hclose hmono helement h
    refine ⟨spaces ++ tail, hspaces.trans htail, ?_, ?_⟩
    · rw [List.length_append]
      omega
    · intro item hitem
      exact hmono item _ _ (by rw [List.length_append]; omega) (hall item hitem)

end Elements

theorem scanField_consumes {element : Text → Option (Json F × Text)} {field : Text × Json F}
    (helement : ∀ t value rest, element t = some (value, rest) → ReadFrom depth t value rest)
    (h : scanField element t = some (field, rest)) :
    ∃ consumed, Consumes t consumed rest ∧ consumed ≠ [] ∧ ReadsWithin depth field.2 ∧
      BoundedBy consumed.length field.2 := by
  unfold scanField at h
  split at h
  · cases h
  rename_i c t1
  split at h
  · rename_i hquote
    split at h
    · cases h
    rename_i key t2 hkey
    obtain ⟨first, hfirst⟩ := scanString_consumes hkey
    obtain ⟨spaces, hspaces⟩ := consumes_skipSpace t2
    split at h
    · cases h
    rename_i colon t3 hskip
    rw [hskip] at hspaces
    split at h
    · rename_i hcolon
      obtain ⟨⟨value, rest'⟩, hvalue, heq⟩ := Option.map_eq_some_iff.mp h
      cases heq
      obtain ⟨more, hmore⟩ := consumes_skipSpace t3
      obtain ⟨last, hlast, -, hreads, hbound⟩ := helement _ _ _ hvalue
      have hstart : Consumes (c :: t1) (c :: first) t2 := hfirst.cons (hquote ▸ by decide)
      have hmiddle : Consumes (colon :: t3) (colon :: more) (skipSpace t3) :=
        hmore.cons (hcolon ▸ by decide)
      refine ⟨c :: first ++ spaces ++ (colon :: more) ++ last,
        ((hstart.trans hspaces).trans hmiddle).trans hlast, by simp, hreads, hbound.mono ?_⟩
      rw [List.length_append]
      omega
    · cases h
  · cases h

theorem mem_ofItems_readsWithin {items : Fields F}
    (h : ∀ field ∈ items, ReadsWithin depth field.2) :
    ReadsWithin (depth + 1) (.object (ofItems items)) :=
  .object nodup_ofItems fun field hfield => h field (mem_of_mem_ofItems hfield)

theorem string_readFrom {c : ℕ} {value : Text} (hquote : c = 34)
    (h : scanString t = some (value, rest)) :
    ReadFrom depth (c :: t) (.string value : Json F) rest := by
  obtain ⟨consumed, hconsumed⟩ := scanString_consumes h
  exact ⟨c :: consumed, hconsumed.cons (hquote ▸ by decide), List.cons_ne_nil _ _,
    .string depth value, .string value⟩

theorem scanOnce_readFrom (h : scanOnce floats depth t = some (value, rest)) :
    ReadFrom depth t value rest := by
  induction depth generalizing t value rest with
  | zero =>
      cases t with
      | nil => cases h
      | cons c t =>
          rw [scanOnce] at h
          split at h
          · rename_i hquote
            obtain ⟨⟨read, rest'⟩, hread, heq⟩ := Option.map_eq_some_iff.mp h
            cases heq
            exact string_readFrom hquote hread
          split at h
          · cases h
          · exact scanScalar_readFrom h
  | succ depth ih =>
      cases t with
      | nil => cases h
      | cons c t =>
          have hmono : ∀ (item : Json F) (small large : ℕ), small ≤ large →
              ReadsWithin depth item ∧ BoundedBy small item →
                ReadsWithin depth item ∧ BoundedBy large item :=
            fun _ _ _ hle hitem => ⟨hitem.1, hitem.2.mono hle⟩
          rw [scanOnce] at h
          split at h
          · rename_i hquote
            obtain ⟨⟨read, rest'⟩, hread, heq⟩ := Option.map_eq_some_iff.mp h
            cases heq
            exact string_readFrom hquote hread
          split at h
          · rename_i hcurly
            obtain ⟨⟨fields, rest'⟩, hread, heq⟩ := Option.map_eq_some_iff.mp h
            cases heq
            obtain ⟨consumed, hconsumed, -, hfields⟩ :=
              scanGroup_consumes (by decide) (fun field => hmono field.2)
                (fun t field rest hfield => scanField_consumes (fun t value rest => ih) hfield) hread
            refine ⟨c :: consumed, hconsumed.cons (hcurly ▸ by decide), List.cons_ne_nil _ _, ?_, ?_⟩
            · exact mem_ofItems_readsWithin fun field hfield => (hfields field hfield).1
            · refine .object fun field hfield => ?_
              exact (hfields field (mem_of_mem_ofItems hfield)).2.mono (Nat.le_succ _)
          split at h
          · rename_i hsquare
            obtain ⟨⟨items, rest'⟩, hread, heq⟩ := Option.map_eq_some_iff.mp h
            cases heq
            obtain ⟨consumed, hconsumed, hlength, hitems⟩ :=
              scanGroup_consumes (by decide) hmono (fun t item rest hitem => ih hitem) hread
            refine ⟨c :: consumed, hconsumed.cons (hsquare ▸ by decide), List.cons_ne_nil _ _, ?_, ?_⟩
            · exact .list fun item hitem => (hitems item hitem).1
            · exact .list (Nat.le_trans hlength (Nat.le_succ _))
                fun item hitem => (hitems item hitem).2.mono (Nat.le_succ _)
          · exact scanScalar_readFrom h

theorem loads_reads (h : loads floats depth t = some value) :
    Tame t ∧ ReadsWithin depth value ∧ BoundedBy t.length value := by
  obtain ⟨spaces, hspaces⟩ := consumes_skipSpace t
  unfold loads at h
  split at h
  · rename_i value' rest' hscan
    obtain ⟨consumed, hconsumed, -, hreads, hbound⟩ := scanOnce_readFrom hscan
    obtain ⟨more, hmore⟩ := consumes_skipSpace rest'
    split at h
    · rename_i hend
      cases h
      rw [hend] at hmore
      have hall := (hspaces.trans hconsumed).trans hmore
      have hsplit := hall.split
      rw [List.append_nil] at hsplit
      refine ⟨hsplit ▸ hall.tame, hreads, hbound.mono ?_⟩
      rw [hsplit]
      simp only [List.length_append]
      omega
    · cases h
  · cases h

end ShortReel.JsonText
