import ShortReel.CascadeMessages

/-!
# The reason a cascade keeps

Cutting a text to a budget that its escapes overrun lowers the budget, and the second cut takes the
overrun off as many characters as there are columns too many. A structured reason is written with at
most two columns a character, so that some budget is always left for it; a plain text may be cut to
nothing.
-/

namespace ShortReel.CascadeReasons

open InsertionDict JsonText TaskFailures BoundedReasons CascadeMessages
open TaskRepository (maxErrorMessageLen)

/-- A text that starts with a bracket and is written with at most two columns a character. -/
def Bracketed (t : Text) : Prop :=
  ∃ tail, t = 91 :: tail ∧ Tame tail

theorem escapedLength_le_of_tame {t : Text} (h : Tame t) : escapedLength t ≤ 2 * t.length := by
  induction t with
  | nil => exact Nat.le_refl _
  | cons c t ih =>
      obtain ⟨hchar, htail⟩ := tame_cons.mp h
      have hle := ih htail
      simp only [escapedLength, List.map_cons, List.sum_cons, List.length_cons] at hle ⊢
      omega

theorem Bracketed.escapedLength_lt {t : Text} (h : Bracketed t) :
    escapedLength t < 2 * t.length := by
  obtain ⟨tail, rfl, htail⟩ := h
  have hle := escapedLength_le_of_tame htail
  have hbracket : (escapeChar 91).length = 1 := by decide
  simp only [escapedLength, List.map_cons, List.sum_cons, List.length_cons, hbracket] at hle ⊢
  omega

theorem Bracketed.ne_nil {t : Text} (h : Bracketed t) : t ≠ [] := by
  obtain ⟨tail, rfl, -⟩ := h
  exact List.cons_ne_nil _ _

theorem Bracketed.take {t : Text} (h : Bracketed t) {limit : ℕ} (hlimit : 0 < limit) :
    Bracketed (t.take limit) := by
  obtain ⟨tail, rfl, htail⟩ := h
  obtain ⟨limit, rfl⟩ := Nat.exists_eq_succ_of_ne_zero hlimit.ne'
  exact ⟨tail.take limit, List.take_succ_cons, htail.sublist (List.take_sublist _ _)⟩

theorem tame_text {literal : String}
    (h : ∀ byte ∈ literal.toByteArray.data.toList, 32 ≤ byte.toNat) : Tame (text literal) := by
  refine tame_of_le fun c hc => ?_
  obtain ⟨char, hchar, rfl⟩ := List.mem_map.mp hc
  rcases Nat.lt_or_ge char.toNat 32 with hcontrol | hprintable
  · have hsmall : char.val.toNat ≤ 127 := Nat.le_trans hcontrol.le (by decide)
    have hencode : String.utf8EncodeChar char = [UInt8.ofNat char.toNat] := if_pos hsmall
    have hmem : UInt8.ofNat char.toNat ∈ literal.toByteArray.data.toList := by
      rw [← String.utf8Encode_toList, List.utf8Encode, List.data_toByteArray]
      exact List.mem_flatMap.mpr ⟨char, hchar, hencode ▸ List.mem_cons_self⟩
    have hbyte := h _ hmem
    rwa [UInt8.toNat_ofNat', Nat.mod_eq_of_lt (by omega)] at hbyte
  · exact hprintable

theorem tame_of_mem_failureCodes {code : Text} (h : code ∈ failureCodes) : Tame code := by
  obtain ⟨literal, hliteral, rfl⟩ := List.mem_map.mp h
  have hbytes : ∀ literal ∈ capabilityFailureCodes ++ referenceProjectionFailureCodes ++
      generationInputFailureCodes ++ videoRequestFactsFailureCodes ++ taskFailureCodes,
      ∀ byte ∈ literal.toByteArray.data.toList, 32 ≤ byte.toNat := by
    decide +kernel
  exact tame_text (hbytes literal hliteral)

variable {F : Type} {python : Interpreter F} {code reason : Text} {parsed : Fields F} {limit : ℕ}

theorem structured_split {rawParams : Text} (h : structured reason = some (code, some rawParams)) :
    ∃ tail, reason = 91 :: code ++ 93 :: tail ∧ beforeEnd tail = 32 :: rawParams := by
  unfold structured at h
  split at h
  · rename_i t
    have hsplit := List.takeWhile_append_dropWhile (p := (· ≠ 93)) (l := t)
    dsimp only at h
    split at h
    · cases h
    split at h
    · cases h
    rename_i c tail hdrop
    have hbracket := List.head?_dropWhile_not (· ≠ 93) t
    rw [hdrop] at hbracket hsplit
    have hc : c = 93 := by simpa using hbracket
    split at h
    · cases h
    · rename_i body hend
      split at h
      · cases h
        refine ⟨tail, ?_, hend⟩
        rw [hc] at hsplit
        rw [List.cons_append, hsplit]
      · cases h
    · cases h
  · cases h

theorem beforeEnd_cases (t : Text) : beforeEnd t = t ∨ t = beforeEnd t ++ [10] := by
  unfold beforeEnd
  split
  · rename_i hlast
    obtain ⟨front, rfl⟩ := List.getLast?_eq_some_iff.mp hlast
    rw [List.dropLast_concat]
    exact .inr rfl
  · exact .inl rfl

theorem bracketed_of_structured {rawParams : Text}
    (h : structured reason = some (code, some rawParams)) (hparams : Tame rawParams) :
    Bracketed reason := by
  obtain ⟨tail, rfl, hend⟩ := structured_split h
  have hbody : Tame (beforeEnd tail) := by
    rw [hend]
    exact tame_cons.mpr ⟨by decide, hparams⟩
  have htail : Tame tail := by
    rcases beforeEnd_cases tail with hsame | hnewline
    · exact hsame ▸ hbody
    · rw [hnewline]
      exact tame_append.mpr ⟨hbody, tame_cons.mpr ⟨by decide, tame_nil⟩⟩
  exact ⟨code ++ 93 :: tail, rfl, tame_append.mpr
    ⟨tame_of_mem_failureCodes (registered_of_structured h).1, tame_cons.mpr ⟨by decide, htail⟩⟩⟩

theorem length_rawParams_lt {rawParams : Text}
    (h : structured reason = some (code, some rawParams)) : rawParams.length < reason.length := by
  obtain ⟨tail, rfl, hend⟩ := structured_split h
  have hlength : (beforeEnd tail).length ≤ tail.length := by
    rcases beforeEnd_cases tail with hsame | hnewline
    · rw [hsame]
    · have hsum := congrArg List.length hnewline
      rw [List.length_append] at hsum
      omega
  rw [hend] at hlength
  simp only [List.length_append, List.length_cons] at hlength ⊢
  omega

theorem bracketed_of_parseFailure (h : parseFailure python reason = some (code, parsed))
    (hne : parsed ≠ []) : Bracketed reason := by
  rcases (parseFailure_eq_some h).2 with ⟨-, rfl⟩ | ⟨rawParams, hstructured, hloads⟩
  · exact absurd rfl hne
  · exact bracketed_of_structured hstructured (loads_reads hloads).1

theorem length_of_mapM {α β : Type} {f : α → Option β} {values : List α} {results : List β}
    (h : values.mapM f = some results) : results.length = values.length := by
  induction values generalizing results with
  | nil =>
      cases h
      rfl
  | cons value values ih =>
      rw [List.mapM_cons] at h
      obtain ⟨result, -, hrest⟩ := Option.bind_eq_some_iff.mp h
      obtain ⟨rest, hrest, heq⟩ := Option.bind_eq_some_iff.mp hrest
      rw [← Option.some.inj heq, List.length_cons, List.length_cons, ih hrest]

theorem omittedFits_of_short (h : parseFailure python reason = some (code, parsed))
    (hshort : reason.length < maxStrDigits) : OmittedFits code parsed := by
  intro gaps hgaps
  rcases (parseFailure_eq_some h).2 with ⟨-, rfl⟩ | ⟨rawParams, hstructured, hloads⟩
  · rw [inputGaps_nil] at hgaps
    cases hgaps
  have hlength := length_rawParams_lt hstructured
  obtain ⟨-, -, hbounded⟩ := loads_reads hloads
  cases hbounded with
  | object hfields =>
      have homitted : (omittedBefore parsed).natAbs ≤ 10 ^ rawParams.length := by
        unfold omittedBefore
        split
        · rename_i hget
          have hint := hfields _ (mem_of_get hget)
          cases hint with
          | int hvalue => exact hvalue.le
        · exact Nat.one_le_pow _ _ (by decide)
        · exact Nat.zero_le _
      have hgapsLength : gaps.length ≤ rawParams.length := by
        unfold inputGaps at hgaps
        split at hgaps
        · split at hgaps
          · rename_i items hget
            have hlist := hfields _ (mem_of_get hget)
            cases hlist with
            | list hitems _ => exact length_of_mapM hgaps ▸ hitems
          · cases hgaps
        · cases hgaps
      have hkept := length_keptGaps_le gaps
      have hnow : (omittedNow parsed gaps).natAbs < 10 ^ (rawParams.length + 1) := by
        have hpow : rawParams.length < 10 ^ rawParams.length := Nat.lt_pow_self (by decide)
        rw [Nat.pow_succ, omittedNow]
        omega
      exact Nat.lt_of_lt_of_le hnow (Nat.pow_le_pow_right (by decide) (by omega))

theorem boundReason_isSome_of_short (h : reason.length < maxStrDigits) (limit : ℕ) :
    ∃ result, boundReason python reason limit = some result :=
  boundReason_isSome limit fun _ _ hparse => omittedFits_of_short hparse h

theorem bracketed_of_cuttable (hparse : parseFailure python reason = some (code, parsed))
    (hcuttable : cuttable python code parsed ≠ []) : Bracketed reason := by
  apply bracketed_of_parseFailure hparse
  rintro rfl
  exact hcuttable cuttable_nil

theorem boundReason_eq_take (h : ¬ Bracketed reason) (hlong : limit < reason.length) :
    boundReason python reason limit = some (reason.take limit) := by
  have hcases : boundReason python reason limit = _ ∨ _ := boundReason_cases hlong
  rcases hcases with hslice | ⟨code, parsed, hparse, hcuttable, -⟩
  · exact hslice
  · exact absurd (bracketed_of_cuttable hparse hcuttable) h

theorem bracketed_encodeWith (hpython : python.Lawful)
    (hparse : parseFailure python reason = some (code, parsed))
    (hcuttable : cuttable python code parsed ≠ []) (homitted : OmittedFits code parsed)
    (texts : Slot → Text) : Bracketed (encodeWith python code parsed texts) := by
  apply bracketed_of_parseFailure
    (parseFailure_encodeWith hpython hparse hcuttable homitted texts)
  intro hnil
  have hperm := sortedFields_perm (fill texts (prepare python code parsed))
  rw [hnil] at hperm
  exact fill_ne_nil hcuttable texts (List.map_eq_nil_iff.mp hperm.nil_eq.symm)

theorem boundReason_bracketed {result : Text} (hpython : python.Lawful) (h : Bracketed reason)
    (hlimit : 0 < limit) (hresult : boundReason python reason limit = some result) :
    Bracketed result := by
  rcases Nat.lt_or_ge limit reason.length with hlong | hshort
  · have hcases : boundReason python reason limit = _ ∨ _ := boundReason_cases hlong
    rcases hcases with hslice |
      ⟨code, parsed, hparse, hcuttable, ⟨hnone, -⟩ | ⟨homitted, shrunk, -, hencoded⟩⟩
    · rw [hslice] at hresult
      rw [← Option.some.inj hresult]
      exact h.take hlimit
    · rw [hnone] at hresult
      cases hresult
    · rw [hencoded] at hresult
      rw [← Option.some.inj hresult]
      exact bracketed_encodeWith hpython hparse hcuttable homitted shrunk
  · rw [boundReason_of_le hshort] at hresult
    rw [← Option.some.inj hresult]
    exact h

theorem boundReason_isSome_iff (hlong : limit < reason.length) :
    (∃ result, boundReason python reason limit = some result) ↔
      ∀ code parsed, parseFailure python reason = some (code, parsed) →
        cuttable python code parsed ≠ [] → OmittedFits code parsed := by
  have hcases : boundReason python reason limit = _ ∨ _ := boundReason_cases hlong
  constructor
  · rintro ⟨result, hresult⟩ code parsed hparse hcuttable
    have hbound := boundReason_of_cuttable hlong hparse hcuttable
    rw [hresult] at hbound
    have hne : parsed ≠ [] := by
      rintro rfl
      exact hcuttable cuttable_nil
    apply (hasLongInt_fill_iff (readsWithin_of_parseFailure hparse hne) fun _ => []).mp
    split at hbound
    · cases hbound
    · rename_i hshort
      exact Bool.eq_false_iff.mpr hshort
  · intro homitted
    rcases hcases with hslice |
      ⟨code, parsed, hparse, hcuttable, ⟨-, hraises⟩ | ⟨-, shrunk, -, hencoded⟩⟩
    · exact ⟨_, hslice⟩
    · exact absurd (homitted code parsed hparse hcuttable) hraises
    · exact ⟨_, hencoded⟩

variable (python) in
def lastReason : ℕ → ℕ → Text → Option Text
  | 0, _, reason => some reason
  | rounds + 1, budget, reason =>
      (boundReason python reason budget).bind fun reason =>
        if escapedLength reason ≤ room ∨ budget = 0 then some reason
        else lastReason rounds (budget - (escapedLength reason - room)) reason

theorem cutToBudget_eq (blocker : TaskId) (rounds budget : ℕ) (reason : Text) :
    cutToBudget python blocker.hex rounds budget reason (encodeCascade python blocker.hex reason) =
      (lastReason python rounds budget reason).map (encodeCascade python blocker.hex) := by
  induction rounds generalizing budget reason with
  | zero => rfl
  | succ rounds ih =>
      rw [cutToBudget, lastReason]
      cases boundReason python reason budget with
      | none => rfl
      | some result =>
          simp only [Option.bind_some, encodeCascade_fits_iff]
          split
          · rfl
          · have hover : (encodeCascade python blocker.hex result).length - maxErrorMessageLen =
                escapedLength result - room := by
              rw [length_encodeCascade, escapedLength_hex, maxErrorMessageLen, room]
              omega
            rw [hover]
            exact ih _ _

variable {budget rounds : ℕ}

theorem lastReason_zero (h : ∃ result, boundReason python reason 0 = some result) (rounds : ℕ) :
    lastReason python (rounds + 1) 0 reason = some [] := by
  obtain ⟨result, hresult⟩ := h
  have hnil : result = [] := List.length_eq_zero_iff.mp (Nat.le_zero.mp (boundReason_length hresult))
  rw [lastReason, hresult, Option.bind_some, if_pos (.inr rfl), hnil]

theorem lastReason_bracketed (hpython : python.Lawful) (h : Bracketed reason) (hpos : 0 < budget)
    (hle : budget ≤ room) (hsome : ∃ result, boundReason python reason budget = some result)
    (rounds : ℕ) : ∃ final, lastReason python rounds budget reason = some final ∧ final ≠ [] := by
  induction rounds generalizing budget reason with
  | zero => exact ⟨reason, rfl, h.ne_nil⟩
  | succ rounds ih =>
      obtain ⟨result, hresult⟩ := hsome
      have hbracketed := boundReason_bracketed hpython h hpos hresult
      have hescaped := hbracketed.escapedLength_lt
      have hlength := boundReason_length hresult
      rw [lastReason, hresult, Option.bind_some]
      split
      · exact ⟨result, rfl, hbracketed.ne_nil⟩
      · have hshort : result.length < maxStrDigits :=
          Nat.lt_of_le_of_lt (hlength.trans hle) (by decide)
        exact ih hbracketed (by omega) (by omega) (boundReason_isSome_of_short hshort _)

theorem escapedLength_take_le (t : Text) (length : ℕ) :
    escapedLength (t.take length) + (t.length - length) ≤ escapedLength t := by
  have hdrop := length_le_escapedLength (t.drop length)
  have hsum := escapedLength_append (t.take length) (t.drop length)
  rw [List.take_append_drop] at hsum
  rw [List.length_drop] at hdrop
  omega

theorem lastReason_sliced (hpython : python.Lawful) (hlength : reason.length = budget)
    (hle : budget ≤ room) (hover : room < escapedLength reason) (rounds : ℕ) :
    ∃ final, lastReason python (rounds + 1) (budget - (escapedLength reason - room)) reason =
        some final ∧ (final ≠ [] ↔ escapedLength reason < room + budget) := by
  have hshort : reason.length < maxStrDigits := Nat.lt_of_le_of_lt (hlength ▸ hle) (by decide)
  have hsome : ∀ limit, ∃ result, boundReason python reason limit = some result :=
    boundReason_isSome_of_short hshort
  rcases Nat.eq_zero_or_pos (budget - (escapedLength reason - room)) with hzero | hpos
  · rw [hzero]
    exact ⟨[], lastReason_zero (hsome 0) rounds, iff_of_false (fun hne => hne rfl) (by omega)⟩
  · have hroom : escapedLength reason < room + budget := by omega
    rcases Classical.em (Bracketed reason) with hbracketed | hplain
    · obtain ⟨final, hfinal, hne⟩ :=
        lastReason_bracketed hpython hbracketed hpos (by omega) (hsome _) (rounds + 1)
      exact ⟨final, hfinal, iff_of_true hne hroom⟩
    · have hcut : boundReason python reason (budget - (escapedLength reason - room)) = _ :=
        boundReason_eq_take hplain (by omega)
      have hfits := escapedLength_take_le reason (budget - (escapedLength reason - room))
      have hne : reason.take (budget - (escapedLength reason - room)) ≠ [] := by
        rw [← List.length_pos_iff, List.length_take]
        omega
      rw [lastReason, hcut, Option.bind_some, if_pos (.inl (by omega))]
      exact ⟨_, rfl, iff_of_true hne hroom⟩

theorem lastReason_cut (hpython : python.Lawful) (hlong : budget < reason.length)
    (hle : budget ≤ room) (hsome : ∃ result, boundReason python reason budget = some result)
    (rounds : ℕ) :
    ∃ final, lastReason python (rounds + 1) budget reason = some final ∧
      (final ≠ [] ↔ 0 < budget ∧
        (rounds = 0 ∨ escapedLength (reason.take budget) < room + budget)) := by
  have hlength : (reason.take budget).length = budget := List.length_take_of_le hlong.le
  rcases Nat.eq_zero_or_pos budget with rfl | hpos
  · exact ⟨[], lastReason_zero hsome rounds,
      iff_of_false (fun hne => hne rfl) fun hzero => Nat.lt_irrefl 0 hzero.1⟩
  rcases Classical.em (Bracketed reason) with hbracketed | hplain
  · obtain ⟨final, hfinal, hne⟩ :=
      lastReason_bracketed hpython hbracketed hpos hle hsome (rounds + 1)
    have hescaped := (hbracketed.take hpos).escapedLength_lt
    exact ⟨final, hfinal, iff_of_true hne ⟨hpos, .inr (by omega)⟩⟩
  · have hne : reason.take budget ≠ [] := by
      rw [← List.length_pos_iff, hlength]
      exact hpos
    rw [lastReason, boundReason_eq_take hplain hlong, Option.bind_some]
    split
    · rename_i hstops
      have hfits : escapedLength (reason.take budget) ≤ room := by omega
      exact ⟨_, rfl, iff_of_true hne ⟨hpos, .inr (by omega)⟩⟩
    · rename_i hgoes
      cases rounds with
      | zero => exact ⟨_, rfl, iff_of_true hne ⟨hpos, .inl rfl⟩⟩
      | succ rounds =>
          obtain ⟨final, hfinal, hiff⟩ :=
            lastReason_sliced hpython hlength hle (by omega) rounds
          refine ⟨final, hfinal, hiff.trans ⟨fun h => ⟨hpos, .inr h⟩, ?_⟩⟩
          rintro ⟨-, hzero | h⟩
          · cases hzero
          · exact h

theorem lastReason_unchanged (hover : room < escapedLength reason) (whole : ℕ)
    (hwhole : reason.length + whole * (escapedLength reason - room) ≤ budget) (rounds : ℕ) :
    lastReason python (rounds + whole + 1) budget reason =
      lastReason python rounds (budget - (whole + 1) * (escapedLength reason - room)) reason := by
  have hne : reason ≠ [] := by
    rintro rfl
    exact absurd hover (by decide)
  have hpos := List.length_pos_iff.mpr hne
  induction whole generalizing budget with
  | zero =>
      rw [lastReason, boundReason_of_le (by omega), Option.bind_some, if_neg (by omega)]
      simp
  | succ whole ih =>
      rw [Nat.succ_mul] at hwhole
      rw [← Nat.add_assoc, lastReason, boundReason_of_le (by omega), Option.bind_some,
        if_neg (by omega), ih (by omega), Nat.succ_mul (whole + 1), Nat.sub_sub, Nat.add_comm]

def overrun (reason : Text) : ℕ :=
  escapedLength reason - room

def wholeRounds (reason : Text) : ℕ :=
  (room - reason.length) / overrun reason

def cutBudget (reason : Text) : ℕ :=
  room - (wholeRounds reason + 1) * overrun reason

/-- A text of which the rounds leave something, by how many columns its characters take. -/
def Survives (reason : Text) : Prop :=
  (escapedLength reason ≤ room ∧ reason ≠ []) ∨
  (room < reason.length ∧ escapedLength (reason.take room) < 2 * room) ∨
  (reason.length ≤ room ∧ room < escapedLength reason ∧
    (4 ≤ wholeRounds reason ∨
      (0 < cutBudget reason ∧
        (wholeRounds reason = 3 ∨
          escapedLength (reason.take (cutBudget reason)) < room + cutBudget reason))))

theorem lastReason_of_short (hpython : python.Lawful) (hshort : reason.length ≤ room)
    (hover : room < escapedLength reason) :
    ∃ final, lastReason python 5 room reason = some final ∧
      (final ≠ [] ↔ 4 ≤ wholeRounds reason ∨
        (0 < cutBudget reason ∧
          (wholeRounds reason = 3 ∨
            escapedLength (reason.take (cutBudget reason)) < room + cutBudget reason))) := by
  have hne : reason ≠ [] := by
    rintro rfl
    exact absurd hover (by decide)
  have hlength := List.length_pos_iff.mpr hne
  have hpositive : 0 < overrun reason := Nat.sub_pos_of_lt hover
  have hle : wholeRounds reason * overrun reason ≤ room - reason.length := Nat.div_mul_le_self _ _
  have hlt : room - reason.length < (wholeRounds reason + 1) * overrun reason := by
    rw [Nat.mul_comm]
    exact Nat.lt_mul_div_succ _ hpositive
  have hdigits : reason.length < maxStrDigits := Nat.lt_of_le_of_lt hshort (by decide)
  rcases Nat.lt_or_ge (wholeRounds reason) 4 with hfew | hmany
  · obtain ⟨rounds, hrounds⟩ : ∃ rounds, rounds + 1 + wholeRounds reason + 1 = 5 :=
      ⟨3 - wholeRounds reason, by omega⟩
    have hrun : lastReason python 5 room reason =
        lastReason python (rounds + 1) (cutBudget reason) reason := by
      rw [← hrounds]
      exact lastReason_unchanged hover _ (by unfold overrun at hle; omega) _
    have hcut : cutBudget reason < reason.length := by
      unfold cutBudget
      omega
    obtain ⟨final, hfinal, hiff⟩ := lastReason_cut hpython hcut (Nat.sub_le _ _)
      (boundReason_isSome_of_short hdigits _) rounds
    refine ⟨final, hrun.trans hfinal, hiff.trans ?_⟩
    have hlast : rounds = 0 ↔ wholeRounds reason = 3 := by omega
    rw [hlast, or_iff_right (Nat.not_le.mpr hfew)]
  · have hfour : 4 * overrun reason ≤ wholeRounds reason * overrun reason :=
      Nat.mul_le_mul_right _ hmany
    have hrun : lastReason python 5 room reason = some reason :=
      lastReason_unchanged hover 4 (by unfold overrun at hfour hle; omega) 0
    exact ⟨reason, hrun, iff_of_true hne (.inl hmany)⟩

variable (python) in
def finalReason (reason : Text) : Option Text :=
  if escapedLength reason ≤ room then some reason else lastReason python 5 room reason

/-- Bounding the root cause does not fail on a number that is too long to be written. -/
def Boundable (python : Interpreter F) (reason : Text) : Prop :=
  room < reason.length → ∀ code parsed, parseFailure python reason = some (code, parsed) →
    cuttable python code parsed ≠ [] → OmittedFits code parsed

theorem finalReason_ne_nil_iff (hpython : python.Lawful) (reason : Text) :
    (∃ final, finalReason python reason = some final ∧ final ≠ []) ↔
      Survives reason ∧ Boundable python reason := by
  have hlength := length_le_escapedLength reason
  unfold finalReason Survives
  split
  · rename_i hfits
    have hboundable : Boundable python reason := fun hlong => absurd hlong (by omega)
    constructor
    · rintro ⟨final, hfinal, hne⟩
      cases hfinal
      exact ⟨.inl ⟨hfits, hne⟩, hboundable⟩
    · rintro ⟨⟨-, hne⟩ | ⟨hlong, -⟩ | ⟨-, hover, -⟩, -⟩
      · exact ⟨reason, rfl, hne⟩
      · omega
      · omega
  rename_i hover
  rcases Nat.lt_or_ge room reason.length with hlong | hshort
  · have hbounded : (∃ result, boundReason python reason room = some result) ↔ _ :=
      boundReason_isSome_iff hlong
    constructor
    · rintro ⟨final, hfinal, hne⟩
      have hsome : ∃ result, boundReason python reason room = some result := by
        rw [lastReason] at hfinal
        obtain ⟨result, hresult, -⟩ := Option.bind_eq_some_iff.mp hfinal
        exact ⟨result, hresult⟩
      obtain ⟨last, hlast, hiff⟩ := lastReason_cut hpython hlong (Nat.le_refl room) hsome 4
      rw [hfinal] at hlast
      cases hlast
      rcases (hiff.mp hne).2 with hzero | hroom
      · cases hzero
      · exact ⟨.inr (.inl ⟨hlong, by omega⟩), fun _ => hbounded.mp hsome⟩
    · rintro ⟨hsurvives, hboundable⟩
      obtain ⟨last, hlast, hiff⟩ := lastReason_cut hpython hlong (Nat.le_refl room)
        (hbounded.mpr (hboundable hlong)) 4
      have hroom : escapedLength (reason.take room) < room + room := by
        rcases hsurvives with ⟨hfits, -⟩ | ⟨-, hroom⟩ | ⟨hshort, -⟩
        · exact absurd hfits hover
        · omega
        · omega
      exact ⟨last, hlast, hiff.mpr ⟨by decide, .inr hroom⟩⟩
  · obtain ⟨last, hlast, hiff⟩ := lastReason_of_short hpython hshort (Nat.not_le.mp hover)
    have hboundable : Boundable python reason := fun hlong => absurd hlong (by omega)
    rw [hlast]
    constructor
    · rintro ⟨final, hfinal, hne⟩
      cases hfinal
      exact ⟨.inr (.inr ⟨hshort, Nat.not_le.mp hover, hiff.mp hne⟩), hboundable⟩
    · rintro ⟨⟨hfits, -⟩ | ⟨hlong, -⟩ | ⟨-, -, hrounds⟩, -⟩
      · exact absurd hfits hover
      · omega
      · exact ⟨last, rfl, hiff.mpr hrounds⟩

/-- A message that fits its column and names the blocker and, where there was one, a reason. -/
structure Carries (python : Interpreter F) (blocker : TaskId) (upstream message : Text) : Prop where
  length_le : message.length ≤ maxErrorMessageLen
  parsed : ∃ params, parseFailure python message = some (cascadeFailureCode, params) ∧
    get params (text "dependency_task_id") = some (.string blocker.hex) ∧
    (upstream ≠ [] → ∃ reason, get params (text "reason") = some (.string reason) ∧ reason ≠ [])

theorem storedMessage_eq (blocker : TaskId) (upstream : Text) :
    storedMessage python blocker.hex upstream =
      (finalReason python (collapseCascadeReason python upstream)).bind fun reason =>
        boundReason python (encodeCascade python blocker.hex reason) maxErrorMessageLen := by
  have hbudget : maxErrorMessageLen - (encodeCascade python blocker.hex []).length = room := by
    rw [length_encodeCascade, escapedLength_hex]
    rfl
  rw [storedMessage, encodeBoundedCascadeFailure, finalReason]
  simp only [encodeCascade_fits_iff, hbudget, cutToBudget_eq]
  split
  · rw [Option.bind_some, Option.bind_some]
  · rw [Option.bind_map, Function.comp_def]

theorem collapseCascadeReason_of_none (h : parseFailure python reason = none) :
    collapseCascadeReason python reason = reason := by
  rw [collapseCascadeReason, unwrapCascade, h]

theorem carries_encodeCascade (hpython : python.Lawful) (blocker : TaskId) {upstream : Text}
    (hreason : upstream ≠ [] → reason ≠ [])
    (hlength : (encodeCascade python blocker.hex reason).length ≤ maxErrorMessageLen) :
    Carries python blocker upstream (encodeCascade python blocker.hex reason) where
  length_le := hlength
  parsed := ⟨_, parseFailure_encodeCascade hpython blocker.hex reason, get_cascadeParams_blocker,
    fun hupstream => ⟨reason, get_cascadeParams_reason, hreason hupstream⟩⟩

theorem carries_iff (hpython : python.Lawful) (blocker : TaskId) (upstream : Text) :
    (∃ message, storedMessage python blocker.hex upstream = some message ∧
      Carries python blocker upstream message) ↔
      upstream = [] ∨ ∃ final,
        finalReason python (collapseCascadeReason python upstream) = some final ∧ final ≠ [] := by
  rw [storedMessage_eq]
  constructor
  · rintro ⟨message, hmessage, hcarries⟩
    rcases eq_or_ne upstream [] with hnil | hupstream
    · exact .inl hnil
    obtain ⟨final, hfinal, hbound⟩ := Option.bind_eq_some_iff.mp hmessage
    obtain ⟨kept, hkept, hiff⟩ := boundReason_encodeCascade hpython blocker final
    rw [hkept] at hbound
    cases hbound
    obtain ⟨params, hparams, -, hreason⟩ := hcarries.parsed
    obtain ⟨reason, hget, hne⟩ := hreason hupstream
    rw [parseFailure_encodeCascade hpython] at hparams
    cases hparams
    rw [get_cascadeParams_reason] at hget
    cases hget
    exact .inr ⟨final, hfinal, fun hnil => hne (hiff.mpr hnil)⟩
  · intro h
    obtain ⟨final, hfinal, hne⟩ : ∃ final,
        finalReason python (collapseCascadeReason python upstream) = some final ∧
          (upstream ≠ [] → final ≠ []) := by
      rcases h with rfl | ⟨final, hfinal, hne⟩
      · refine ⟨[], ?_, fun hne => absurd rfl hne⟩
        rw [collapseCascadeReason_of_none rfl]
        rfl
      · exact ⟨final, hfinal, fun _ => hne⟩
    obtain ⟨kept, hkept, hiff⟩ := boundReason_encodeCascade hpython blocker final
    refine ⟨_, by rw [hfinal, Option.bind_some, hkept], carries_encodeCascade hpython blocker ?_
      (boundReason_length hkept)⟩
    exact fun hupstream hnil => hne hupstream (hiff.mp hnil)

/-- A dependent is told why it is blocked exactly when the rounds leave something of the root cause
and bounding it does not fail. -/
theorem storedMessage_carries_iff (hpython : python.Lawful) (blocker : TaskId) (upstream : Text) :
    (∃ message, storedMessage python blocker.hex upstream = some message ∧
      Carries python blocker upstream message) ↔
      upstream = [] ∨ (Survives (collapseCascadeReason python upstream) ∧
        Boundable python (collapseCascadeReason python upstream)) := by
  rw [carries_iff hpython, finalReason_ne_nil_iff hpython]

def zeroId : TaskId where
  hex := List.replicate 32 48
  length_eq := List.length_replicate
  isHex c hc := by
    rw [List.eq_of_mem_replicate hc]
    decide

theorem escapedLength_replicate (count c : ℕ) :
    escapedLength (List.replicate count c) = count * (escapeChar c).length := by
  rw [escapedLength, List.map_replicate, List.sum_replicate]
  rfl

/-- Nothing is left of an error text of two thousand quotes. -/
theorem quotes_leave_nothing :
    ¬ ∀ (blocker : TaskId) (upstream : Text), ∃ message,
      storedMessage wholePython blocker.hex upstream = some message ∧
        Carries wholePython blocker upstream message := by
  intro h
  have hcarried := (carries_iff wholePython_lawful zeroId (List.replicate 2000 34)).mp
    (h zeroId (List.replicate 2000 34))
  have hplain : parseFailure wholePython (List.replicate 2000 34) = none := by
    rw [List.replicate_succ]
    rfl
  rw [finalReason_ne_nil_iff wholePython_lawful, collapseCascadeReason_of_none hplain] at hcarried
  rcases hcarried with hnil | ⟨⟨hfits, -⟩ | ⟨-, hcut⟩ | ⟨hshort, -⟩, -⟩
  · rw [List.replicate_succ] at hnil
    cases hnil
  · rw [escapedLength_replicate] at hfits
    exact absurd hfits (by decide)
  · rw [List.take_replicate, escapedLength_replicate] at hcut
    exact absurd hcut (by decide)
  · rw [List.length_replicate] at hshort
    exact absurd hshort (by decide)

/-- Without escapes a long error text is told. -/
theorem storedMessage_carries_plain :
    ∃ message, storedMessage wholePython zeroId.hex (List.replicate 2000 97) = some message ∧
      Carries wholePython zeroId (List.replicate 2000 97) message := by
  refine (storedMessage_carries_iff wholePython_lawful zeroId (List.replicate 2000 97)).mpr
    (.inr ?_)
  have hplain : parseFailure wholePython (List.replicate 2000 97) = none := by
    rw [List.replicate_succ]
    rfl
  have hcut : escapedLength ((List.replicate 2000 97).take room) < 2 * room := by
    rw [List.take_replicate, escapedLength_replicate]
    decide
  rw [collapseCascadeReason_of_none hplain]
  refine ⟨.inr (.inl ⟨by rw [List.length_replicate]; decide, hcut⟩), fun _ code parsed hparse => ?_⟩
  rw [hplain] at hparse
  cases hparse

end ShortReel.CascadeReasons
