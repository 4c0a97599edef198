import ShortReel.TaskFailures

/-!
# Bounded reasons

A stored reason that is too long is cut in its strings and nowhere else: it stays a registered code
with the parameters it had, each string among them a prefix of what it was.
-/

namespace ShortReel.BoundedReasons

open InsertionDict JsonText ShrinkingTexts TaskFailures

variable {F : Type} {python : Interpreter F}

def sortedFields (fields : Fields F) : Fields F :=
  (sortFields fields).insertionSort fun a b => a.1 ≤ b.1

theorem sortedFields_perm (fields : Fields F) :
    (sortedFields fields).Perm (fields.map fun field => (field.1, sortKeys field.2)) := by
  rw [sortedFields, sortFields_eq]
  exact List.perm_insertionSort _ _

theorem keys_sortedFields (fields : Fields F) : (keys (sortedFields fields)).Perm (keys fields) := by
  have hperm := (sortedFields_perm fields).map Prod.fst
  rwa [List.map_map] at hperm

theorem get_sortedFields {fields : Fields F} (hkeys : (keys fields).Nodup) (key : Text) :
    get (sortedFields fields) key = (get fields key).map sortKeys := by
  rw [get_perm ((keys_sortedFields fields).nodup_iff.mpr hkeys) (sortedFields_perm fields)]
  exact get_map (fun _ value => sortKeys value) fields key

theorem readsWithin_sortKeys {depth : ℕ} {value : Json F} (h : ReadsWithin depth value) :
    ReadsWithin depth (sortKeys value) := by
  induction h with
  | null depth => exact .null depth
  | bool depth value => exact .bool depth value
  | int depth hvalue => exact .int depth hvalue
  | float depth value => exact .float depth value
  | string depth value => exact .string depth value
  | @list depth items hitems ih =>
      rw [sortKeys, sortItems_eq]
      refine .list fun item hitem => ?_
      obtain ⟨before, hbefore, rfl⟩ := List.mem_map.mp hitem
      exact ih before hbefore
  | @object depth fields hkeys hfields ih =>
      refine .object ((keys_sortedFields fields).nodup_iff.mpr hkeys) fun field hfield => ?_
      obtain ⟨before, hbefore, rfl⟩ := List.mem_map.mp ((sortedFields_perm fields).mem_iff.mp hfield)
      exact ih before hbefore

def Registered (code : Text) : Prop :=
  code ∈ failureCodes ∧ 93 ∉ code

theorem registered_of_structured {t code : Text} {rawParams : Option Text}
    (h : structured t = some (code, rawParams)) : Registered code := by
  unfold structured at h
  split at h
  · rename_i t'
    have hbracket : 93 ∉ t'.takeWhile (· ≠ 93) := by
      intro hmem
      have hword := List.mem_takeWhile_imp hmem
      simp at hword
    dsimp only at h
    split at h
    · cases h
    rename_i hcode
    split at h
    · cases h
    split at h
    · cases h
      exact ⟨not_not.mp hcode, hbracket⟩
    · split at h
      · cases h
        exact ⟨not_not.mp hcode, hbracket⟩
      · cases h
    · cases h
  · cases h

theorem structured_object {code body : Text} (hcode : Registered code) :
    structured (91 :: code ++ 93 :: 32 :: (123 :: body ++ [125])) =
      some (code, some (123 :: body ++ [125])) := by
  obtain ⟨hcode, hbracket⟩ := hcode
  have hword : ∀ c ∈ code, decide (c ≠ 93) = true := by
    intro c hc
    exact decide_eq_true fun heq => hbracket (heq ▸ hc)
  have htake : (code ++ 93 :: 32 :: (123 :: body ++ [125])).takeWhile (· ≠ 93) = code := by
    rw [List.takeWhile_append_of_pos hword, List.takeWhile_cons_of_neg (by decide), List.append_nil]
  have hdrop : (code ++ 93 :: 32 :: (123 :: body ++ [125])).dropWhile (· ≠ 93) =
      93 :: 32 :: (123 :: body ++ [125]) := by
    rw [List.dropWhile_append_of_pos hword, List.dropWhile_cons_of_neg (by decide)]
  have hend : beforeEnd (32 :: (123 :: body ++ [125])) = 32 :: (123 :: body ++ [125]) := by
    have hlast : (32 :: (123 :: body ++ [125])).getLast? = some 125 := by
      rw [← List.cons_append, List.getLast?_concat]
    rw [beforeEnd, hlast, if_neg (by decide)]
  rw [List.cons_append, structured]
  simp only [htake, hdrop, hend, hcode, not_true_eq_false, if_false]
  rw [if_pos ⟨rfl, List.getLast?_concat⟩]

theorem encodeFailure_eq {params : Fields F} (hne : params ≠ []) (code : Text) :
    encodeFailure python code params = 91 :: code ++ 93 :: 32 ::
      (123 :: commas (dumpsFields python.floats.toText (sortedFields params)) ++ [125]) := by
  cases params with
  | nil => exact absurd rfl hne
  | cons field params => rfl

theorem parseFailure_encodeFailure (hpython : python.Lawful) {code : Text} {params : Fields F}
    (hcode : Registered code) (hne : params ≠ [])
    (hparams : ReadsWithin python.readDepth (.object params)) :
    parseFailure python (encodeFailure python code params) = some (code, sortedFields params) := by
  have hloads := loads_dumps hpython.floats (readsWithin_sortKeys hparams)
  rw [sortKeys, dumps, ← sortedFields] at hloads
  rw [encodeFailure_eq hne, parseFailure, structured_object hcode]
  dsimp only
  rw [hloads]

variable {code key : Text} {value : Json F} {parsed : Fields F} {depth : ℕ} {texts : Slot → Text}
  {part : TaskFailures.Part F} {gaps : List Gap}

theorem scalarOf_eq_some {scalar : Json F} :
    scalarOf python value = some scalar ↔ shrinkableText python value = none ∧ scalar = value := by
  unfold scalarOf
  cases shrinkableText python value with
  | none => simp [eq_comm]
  | some shrinkable => simp

def messageOf (key : Text) (value : Json F) : Option (Text × Fields F) :=
  if key = text "detail" then validationMessage value else none

theorem partOf_of_message {message : Text × Fields F} (h : messageOf key value = some message) :
    partOf python key value =
      .message message.1 (message.2.map fun field => (field.1, scalarOf python field.2)) := by
  unfold messageOf at h
  unfold partOf
  rw [h]

theorem partOf_of_string (h : messageOf key value = none) {shrinkable : Text}
    (hvalue : shrinkableText python value = some shrinkable) : partOf python key value = .string := by
  unfold messageOf at h
  unfold partOf scalarOf
  rw [h, hvalue]
  rfl

theorem partOf_of_scalar (h : messageOf key value = none)
    (hvalue : shrinkableText python value = none) : partOf python key value = .scalar value := by
  unfold messageOf at h
  unfold partOf scalarOf
  rw [h, hvalue]
  rfl

def omittedNow (parsed : Fields F) (gaps : List Gap) : ℤ :=
  omittedBefore parsed + gaps.length - (keptGaps gaps).length

theorem get_prepare_of_none (h : inputGaps code parsed = none) (key : Text) :
    get (prepare python code parsed) key = (get parsed key).map (partOf python key) := by
  unfold prepare
  rw [h]
  exact get_map (partOf python) parsed key

theorem get_prepare_of_some (h : inputGaps code parsed = some gaps) (key : Text) :
    get (prepare python code parsed) key =
      if key = text "gaps_omitted" then some (.scalar (.int (omittedNow parsed gaps)))
      else if key = text "gaps" then some (.gaps (keptGaps gaps))
      else (get parsed key).map (partOf python key) := by
  unfold prepare
  rw [h]
  dsimp only
  rw [get_put, get_put, omittedNow]
  rw [get_map (partOf python)]

theorem nodup_prepare (hkeys : (keys parsed).Nodup) :
    (keys (prepare python code parsed)).Nodup := by
  have hparts : (keys (parsed.map fun field => (field.1, partOf python field.1 field.2))).Nodup := by
    rw [keys_map (partOf python)]
    exact hkeys
  unfold prepare
  split
  · exact hparts
  · exact nodup_put (nodup_put hparts)

theorem prepare_cases (hkeys : (keys parsed).Nodup) (h : (key, part) ∈ prepare python code parsed) :
    (∃ value, (key, value) ∈ parsed ∧ part = partOf python key value) ∨
      ∃ gaps, inputGaps code parsed = some gaps ∧
        (part = .gaps (keptGaps gaps) ∨ part = .scalar (.int (omittedNow parsed gaps))) := by
  have hget := get_eq_some_of_mem (nodup_prepare hkeys) h
  have hown : (get parsed key).map (partOf python key) = some part →
      ∃ value, (key, value) ∈ parsed ∧ part = partOf python key value := by
    intro hmap
    obtain ⟨value, hvalue, rfl⟩ := Option.map_eq_some_iff.mp hmap
    exact ⟨value, mem_of_get hvalue, rfl⟩
  cases hgaps : inputGaps code parsed with
  | none =>
      rw [get_prepare_of_none hgaps] at hget
      exact .inl (hown hget)
  | some gaps =>
      rw [get_prepare_of_some hgaps] at hget
      split at hget
      · exact .inr ⟨gaps, rfl, .inr (Option.some.inj hget).symm⟩
      split at hget
      · exact .inr ⟨gaps, rfl, .inl (Option.some.inj hget).symm⟩
      · exact .inl (hown hget)

theorem readsWithin_mono {deeper : ℕ} (h : ReadsWithin depth value) (hle : depth ≤ deeper) :
    ReadsWithin deeper value := by
  induction h generalizing deeper with
  | null depth => exact .null deeper
  | bool depth value => exact .bool deeper value
  | int depth hvalue => exact .int deeper hvalue
  | float depth value => exact .float deeper value
  | string depth value => exact .string deeper value
  | list hitems ih =>
      obtain ⟨deeper, rfl⟩ : ∃ less, deeper = less + 1 := ⟨deeper - 1, by omega⟩
      exact .list fun item hitem => ih item hitem (Nat.le_of_succ_le_succ hle)
  | object hkeys hfields ih =>
      obtain ⟨deeper, rfl⟩ : ∃ less, deeper = less + 1 := ⟨deeper - 1, by omega⟩
      exact .object hkeys fun field hfield => ih field hfield (Nat.le_of_succ_le_succ hle)

theorem readsWithin_scalar (h : ReadsWithin depth value)
    (hscalar : shrinkableText python value = none) (other : ℕ) : ReadsWithin other value := by
  cases h with
  | null => exact .null other
  | bool depth value => exact .bool other value
  | int depth hvalue => exact .int other hvalue
  | float depth value => exact .float other value
  | string depth value => cases hscalar
  | list hitems =>
      unfold shrinkableText at hscalar
      dsimp only at hscalar
      split at hscalar <;> cases hscalar
  | object hkeys hfields =>
      unfold shrinkableText at hscalar
      dsimp only at hscalar
      split at hscalar <;> cases hscalar

theorem validationMessage_eq_some {message : Text × Fields F}
    (h : validationMessage value = some message) :
    ∃ fields, value = .object fields ∧ get fields (text "key") = some (.string message.1) ∧
      get fields (text "params") = some (.object message.2) ∧
      ∀ field ∈ fields, field.1 = text "key" ∨ field.1 = text "params" := by
  unfold validationMessage at h
  split at h
  · rename_i fields
    split at h
    · rename_i key params hkey hparams
      split at h
      · rename_i hall
        cases h
        refine ⟨fields, rfl, hkey, hparams, ?_⟩
        intro field hfield
        simpa using List.all_eq_true.mp hall field hfield
      · cases h
    · cases h
  · cases h

theorem messageOf_eq_some {message : Text × Fields F} (h : messageOf key value = some message) :
    key = text "detail" ∧ validationMessage value = some message := by
  unfold messageOf at h
  split at h
  · rename_i hdetail
    exact ⟨hdetail, h⟩
  · cases h

theorem readsWithin_messageParams {message : Text × Fields F}
    (h : validationMessage value = some message) (hvalue : ReadsWithin depth value) :
    (keys message.2).Nodup ∧ ∀ field ∈ message.2, ReadsWithin depth field.2 := by
  obtain ⟨fields, rfl, -, hparams, -⟩ := validationMessage_eq_some h
  cases hvalue with
  | object hkeys hfields =>
      have hobject := hfields _ (mem_of_get hparams)
      cases hobject with
      | object hkeys hparams =>
          exact ⟨hkeys, fun field hfield => readsWithin_mono (hparams field hfield) (by omega)⟩

theorem readsWithin_fillGap (texts : Slot → Text) (gap : Gap) :
    ReadsWithin 1 (fillGap texts gap : Json F) := by
  refine .object ?_ ?_
  · change [text "code", text "asset_type", text "name"].Nodup
    decide
  · intro field hfield
    simp only [List.mem_cons, List.not_mem_nil, or_false] at hfield
    rcases hfield with rfl | rfl | rfl
    · exact .string 0 _
    · cases gap.assetType with
      | none => exact .null 0
      | some assetType => exact .string 0 assetType
    · exact .string 0 _

def OmittedFits (code : Text) (parsed : Fields F) : Prop :=
  ∀ gaps, inputGaps code parsed = some gaps →
    (omittedNow parsed gaps).natAbs < 10 ^ maxStrDigits

theorem readsWithin_fillMessage {message : Text × Fields F}
    (h : validationMessage value = some message) (hvalue : ReadsWithin depth value)
    (texts : Slot → Text) (key : Text) :
    ReadsWithin 2 (fillPart texts key
      (.message message.1 (message.2.map fun field => (field.1, scalarOf python field.2)))) := by
  obtain ⟨hkeys, hfields⟩ := readsWithin_messageParams h hvalue
  have hparams : ReadsWithin 1 (.object ((message.2.map fun field =>
      (field.1, scalarOf python field.2)).map fun field =>
        (field.1, field.2.getD (.string (texts (.detailParam field.1))))) : Json F) := by
    refine .object ?_ ?_
    · rw [List.map_map, keys, List.map_map]
      exact hkeys
    · intro field hfield
      obtain ⟨⟨name, scalar⟩, hscalar, rfl⟩ := List.mem_map.mp hfield
      obtain ⟨before, hbefore, heq⟩ := List.mem_map.mp hscalar
      cases heq
      dsimp only
      cases hread : scalarOf python before.2 with
      | none => exact .string 0 _
      | some scalar =>
          obtain ⟨hnone, rfl⟩ := scalarOf_eq_some.mp hread
          exact readsWithin_scalar (hfields before hbefore) hnone 0
  refine .object ?_ ?_
  · change [text "key", text "params"].Nodup
    decide
  · intro field hfield
    simp only [List.mem_cons, List.not_mem_nil, or_false] at hfield
    rcases hfield with rfl | rfl
    · exact .string 1 _
    · exact hparams

theorem readsWithin_fillPart (hkeys : (keys parsed).Nodup)
    (hparsed : ∀ field ∈ parsed, ReadsWithin depth field.2) (homitted : OmittedFits code parsed)
    (h : (key, part) ∈ prepare python code parsed) (texts : Slot → Text) :
    ReadsWithin 2 (fillPart texts key part) := by
  rcases prepare_cases hkeys h with ⟨value, hvalue, rfl⟩ | ⟨gaps, hgaps, rfl | rfl⟩
  · have hreads := hparsed _ hvalue
    cases hmessage : messageOf key value with
    | some message =>
        rw [partOf_of_message hmessage]
        exact readsWithin_fillMessage (messageOf_eq_some hmessage).2 hreads texts key
    | none =>
        cases hshrinkable : shrinkableText python value with
        | none =>
            rw [partOf_of_scalar hmessage hshrinkable]
            exact readsWithin_scalar hreads hshrinkable 2
        | some shrinkable =>
            rw [partOf_of_string hmessage hshrinkable]
            exact .string 2 _
  · refine .list fun item hitem => ?_
    obtain ⟨gap, -, rfl⟩ := List.mem_map.mp hitem
    exact readsWithin_fillGap texts gap
  · exact .int 2 (homitted gaps hgaps)

theorem readsWithin_fill (hparsed : ReadsWithin depth (.object parsed))
    (homitted : OmittedFits code parsed) (texts : Slot → Text) :
    ReadsWithin 3 (.object (fill texts (prepare python code parsed))) := by
  cases hparsed with
  | object hkeys hfields =>
      refine .object ?_ ?_
      · rw [fill, keys_map (fillPart texts)]
        exact nodup_prepare hkeys
      · intro field hfield
        obtain ⟨part, hpart, rfl⟩ := List.mem_map.mp hfield
        exact readsWithin_fillPart hkeys hfields homitted hpart texts

theorem hasLongIntItems_eq (items : List (Json F)) :
    hasLongIntItems items = items.any hasLongInt := by
  induction items with
  | nil => rfl
  | cons item items ih => rw [hasLongIntItems, ih, List.any_cons]

theorem hasLongIntFields_eq (fields : Fields F) :
    hasLongIntFields fields = fields.any fun field => hasLongInt field.2 := by
  induction fields with
  | nil => rfl
  | cons field fields ih => rw [hasLongIntFields, ih, List.any_cons]

theorem hasLongInt_eq_false (h : ReadsWithin depth value) : hasLongInt value = false := by
  induction h with
  | null depth => rfl
  | bool depth value => rfl
  | int depth hvalue =>
      rw [hasLongInt, decide_eq_false_iff_not, Nat.not_le]
      exact hvalue
  | float depth value => rfl
  | string depth value => rfl
  | list hitems ih =>
      rw [hasLongInt, hasLongIntItems_eq, List.any_eq_false]
      intro item hitem
      rw [ih item hitem]
      exact Bool.false_ne_true
  | object hkeys hfields ih =>
      rw [hasLongInt, hasLongIntFields_eq, List.any_eq_false]
      intro field hfield
      rw [ih field hfield]
      exact Bool.false_ne_true

theorem hasLongInt_fill_iff (hparsed : ReadsWithin depth (.object parsed)) (texts : Slot → Text) :
    hasLongInt (.object (fill texts (prepare python code parsed))) = false ↔
      OmittedFits code parsed := by
  constructor
  · intro h gaps hgaps
    have hget : get (prepare python code parsed) _ = _ :=
      get_prepare_of_some hgaps (text "gaps_omitted")
    rw [if_pos rfl] at hget
    have hmem : (text "gaps_omitted", .int (omittedNow parsed gaps)) ∈
        fill texts (prepare python code parsed) :=
      List.mem_map_of_mem (mem_of_get hget)
    rw [hasLongInt, hasLongIntFields_eq, List.any_eq_false] at h
    have hint := h _ hmem
    rw [hasLongInt, decide_eq_true_eq, Nat.not_le] at hint
    exact hint
  · intro homitted
    exact hasLongInt_eq_false (readsWithin_fill hparsed homitted texts)

variable {parts : List (Text × TaskFailures.Part F)} {gap : Gap}

theorem param_mem_slotsOf (h : (key, TaskFailures.Part.string) ∈ parts) : Slot.param key ∈ slotsOf parts := by
  unfold slotsOf
  rw [List.append_assoc]
  apply List.mem_append_left
  exact List.mem_map.mpr ⟨_, List.mem_filter.mpr ⟨h, rfl⟩, rfl⟩

theorem gapName_mem_slotsOf {kept : List Gap} (h : (key, TaskFailures.Part.gaps kept) ∈ parts)
    (hgap : gap ∈ kept) : Slot.gapName gap.code ∈ slotsOf parts := by
  unfold slotsOf
  apply List.mem_append_left
  apply List.mem_append_right
  exact List.mem_flatMap.mpr ⟨_, h, List.mem_map_of_mem hgap⟩

theorem detailParam_mem_slotsOf {messageKey name : Text} {params : List (Text × Option (Json F))}
    (h : (key, TaskFailures.Part.message messageKey params) ∈ parts) (hparam : (name, none) ∈ params) :
    Slot.detailParam name ∈ slotsOf parts := by
  unfold slotsOf
  apply List.mem_append_right
  refine List.mem_flatMap.mpr ⟨_, h, ?_⟩
  exact List.mem_map.mpr ⟨_, List.mem_filter.mpr ⟨hparam, rfl⟩, rfl⟩

theorem fillPart_congr {others : Slot → Text}
    (h : ∀ slot ∈ slotsOf parts, texts slot = others slot) (hpart : (key, part) ∈ parts) :
    fillPart texts key part = fillPart others key part := by
  cases part with
  | scalar value => rfl
  | string => rw [fillPart, fillPart, h _ (param_mem_slotsOf hpart)]
  | message messageKey params =>
      rw [fillPart, fillPart]
      congr 4
      apply congrArg
      apply List.map_congr_left
      rintro ⟨name, scalar⟩ hparam
      cases scalar with
      | none => rw [h _ (detailParam_mem_slotsOf hpart hparam)]
      | some scalar => rfl
  | gaps kept =>
      rw [fillPart, fillPart]
      apply congrArg
      apply List.map_congr_left
      intro gap hgap
      rw [fillGap, fillGap, h _ (gapName_mem_slotsOf hpart hgap)]

theorem fill_congr {others : Slot → Text} (h : ∀ slot ∈ slotsOf parts, texts slot = others slot) :
    fill texts parts = fill others parts := by
  apply List.map_congr_left
  rintro ⟨key, part⟩ hpart
  exact Prod.ext rfl (fillPart_congr h hpart)

theorem keptGaps_concat (gaps : List Gap) (last : Gap) :
    keptGaps (gaps ++ [last]) =
      if last.code ∈ (keptGaps gaps).map (·.code) then keptGaps gaps
      else keptGaps gaps ++ [last] := by
  rw [keptGaps, List.foldl_append]
  rfl

theorem length_keptGaps_le (gaps : List Gap) : (keptGaps gaps).length ≤ gaps.length := by
  induction gaps using List.reverseRecOn with
  | nil => exact Nat.le_refl _
  | append_singleton gaps last ih =>
      rw [keptGaps_concat, List.length_append, List.length_singleton]
      split
      · exact Nat.le_succ_of_le ih
      · rw [List.length_append, List.length_singleton]
        exact Nat.succ_le_succ ih

theorem keptGaps_spec (gaps : List Gap) :
    (∀ gap ∈ keptGaps gaps, gaps.find? (·.code = gap.code) = some gap) ∧
      ∀ gap ∈ gaps, gap.code ∈ (keptGaps gaps).map (·.code) := by
  induction gaps using List.reverseRecOn with
  | nil => exact ⟨by simp [keptGaps], by simp⟩
  | append_singleton gaps last ih =>
      obtain ⟨hfirst, hcovers⟩ := ih
      rw [keptGaps_concat]
      split
      · rename_i hknown
        refine ⟨?_, ?_⟩
        · intro gap hgap
          rw [List.find?_append, hfirst gap hgap]
          rfl
        · intro gap hgap
          rcases List.mem_append.mp hgap with hgap | hgap
          · exact hcovers gap hgap
          · rw [List.mem_singleton.mp hgap]
            exact hknown
      · rename_i hnew
        refine ⟨?_, ?_⟩
        · intro gap hgap
          rcases List.mem_append.mp hgap with hgap | hgap
          · rw [List.find?_append, hfirst gap hgap]
            rfl
          · have hnone : gaps.find? (·.code = last.code) = none := by
              apply List.find?_eq_none.mpr
              intro other hother heq
              exact hnew (of_decide_eq_true heq ▸ hcovers other hother)
            rw [List.mem_singleton.mp hgap, List.find?_append, hnone]
            simp
        · intro gap hgap
          rw [List.map_append]
          rcases List.mem_append.mp hgap with hgap | hgap
          · exact List.mem_append_left _ (hcovers gap hgap)
          · exact List.mem_append_right _ (by simp [List.mem_singleton.mp hgap])

/-- A string, or a container in its JSON text, is cut from the back; every other value stays. -/
def PlainKept (python : Interpreter F) (before after : Json F) : Prop :=
  match shrinkableText python before with
  | some shrinkable => ∃ cut, cut <+: shrinkable ∧ after = .string cut
  | none => after = before

theorem sortKeys_scalar (h : shrinkableText python value = none) : sortKeys value = value := by
  cases value with
  | list items =>
      unfold shrinkableText at h
      dsimp only at h
      split at h <;> cases h
  | object fields =>
      unfold shrinkableText at h
      dsimp only at h
      split at h <;> cases h
  | null => rfl
  | bool value => rfl
  | int value => rfl
  | float value => rfl
  | string value => rfl

def keptGap (gap : Gap) (name : Text) : Json F :=
  .object [(text "asset_type", gap.assetType.elim .null .string), (text "code", .string gap.code),
    (text "name", .string name)]

structure Kept (python : Interpreter F) (code : Text) (parsed after : Fields F) : Prop where
  nodup : (keys after).Nodup
  keys_iff : ∀ key, key ∈ keys after ↔
    key ∈ keys parsed ∨ ((inputGaps code parsed).isSome ∧ key = text "gaps_omitted")
  plain : ∀ key value, get parsed key = some value → messageOf key value = none →
    (inputGaps code parsed = none ∨ (key ≠ text "gaps" ∧ key ≠ text "gaps_omitted")) →
      ∃ kept, get after key = some kept ∧ PlainKept python value kept
  message : ∀ value message, get parsed (text "detail") = some value →
    validationMessage value = some message →
      ∃ params, get after (text "detail") =
          some (.object [(text "key", .string message.1), (text "params", .object params)]) ∧
        (keys params).Perm (keys message.2) ∧
        ∀ name value, get message.2 name = some value →
          ∃ kept, get params name = some kept ∧ PlainKept python value kept
  gaps : ∀ gaps, inputGaps code parsed = some gaps →
    get after (text "gaps_omitted") = some (.int (omittedNow parsed gaps)) ∧
      ∃ items, get after (text "gaps") = some (.list items) ∧
        List.Forall₂ (fun gap item => ∃ name, name <+: gap.name ∧ item = keptGap gap name)
          (keptGaps gaps) items

theorem get_filled (hkeys : (keys parts).Nodup) (texts : Slot → Text) (key : Text) :
    get (sortedFields (fill texts parts)) key =
      (get parts key).map fun part => sortKeys (fillPart texts key part) := by
  have hfill : (keys (fill texts parts)).Nodup := by
    rw [fill, keys_map (fillPart texts)]
    exact hkeys
  rw [get_sortedFields hfill, fill, get_map (fillPart texts), Option.map_map]
  rfl

theorem get_prepare_plain (hvalue : get parsed key = some value)
    (hplain : inputGaps code parsed = none ∨ (key ≠ text "gaps" ∧ key ≠ text "gaps_omitted")) :
    get (prepare python code parsed) key = some (partOf python key value) := by
  have hown : (get parsed key).map (partOf python key) = some (partOf python key value) := by
    rw [hvalue, Option.map_some]
  cases hgaps : inputGaps code parsed with
  | none =>
      rw [get_prepare_of_none hgaps]
      exact hown
  | some gaps =>
      rw [hgaps] at hplain
      obtain ⟨hne, hneOmitted⟩ := hplain.resolve_left (Option.some_ne_none gaps)
      rw [get_prepare_of_some hgaps, if_neg hneOmitted, if_neg hne]
      exact hown

theorem plainKept_fill {initial cut : Text} (hcut : cut <+: initial)
    (hinitial : ∀ shrinkable, shrinkableText python value = some shrinkable → initial = shrinkable) :
    PlainKept python value (sortKeys ((scalarOf python value).getD (.string cut))) := by
  unfold PlainKept scalarOf
  cases hshrinkable : shrinkableText python value with
  | none => exact sortKeys_scalar hshrinkable
  | some shrinkable =>
      rw [hinitial shrinkable hshrinkable] at hcut
      exact ⟨cut, hcut, rfl⟩

theorem sortedFields_message (messageKey : Text) (params : Json F) :
    sortedFields [(text "key", .string messageKey), (text "params", params)] =
      [(text "key", .string messageKey), (text "params", sortKeys params)] := by
  have hle : text "key" ≤ text "params" := by
    decide
  simp [sortedFields, sortFields_eq, sortKeys, hle]

theorem sortKeys_fillGap (texts : Slot → Text) (gap : Gap) :
    sortKeys (fillGap texts gap : Json F) = keptGap gap (texts (.gapName gap.code)) := by
  have hcode : ¬ text "code" ≤ text "asset_type" := by
    decide
  have hasset : text "asset_type" ≤ text "name" := by
    decide
  have hnames : text "code" ≤ text "name" := by
    decide
  have hassetType : sortKeys (gap.assetType.elim .null .string : Json F) =
      gap.assetType.elim .null .string := by
    cases gap.assetType <;> rfl
  simp [fillGap, keptGap, sortKeys, sortFields_eq, List.orderedInsert, hcode, hasset, hnames,
    hassetType]

section Kept

variable (hparsed : ReadsWithin depth (.object parsed))
  (htexts : ∀ slot, texts slot <+: initialTexts python code parsed slot)

include htexts

theorem message_filled (hkeys : (keys parsed).Nodup) {message : Text × Fields F}
    (hfields : ∀ field ∈ parsed, ReadsWithin depth field.2)
    (hvalue : get parsed (text "detail") = some value)
    (hmessage : validationMessage value = some message) :
    ∃ params, get (sortedFields (fill texts (prepare python code parsed))) (text "detail") =
        some (.object [(text "key", .string message.1), (text "params", .object params)]) ∧
      (keys params).Perm (keys message.2) ∧
      ∀ name value, get message.2 name = some value →
        ∃ kept, get params name = some kept ∧ PlainKept python value kept := by
  have hreads := hfields _ (mem_of_get hvalue)
  obtain ⟨hnames, -⟩ := readsWithin_messageParams hmessage hreads
  have hpart : get (prepare python code parsed) (text "detail") = _ :=
    get_prepare_plain hvalue (.inr ⟨by decide, by decide⟩)
  have hdetail : messageOf (text "detail") value = some message := by
    rw [messageOf, if_pos rfl]
    exact hmessage
  rw [partOf_of_message hdetail] at hpart
  refine ⟨sortedFields (message.2.map fun field => (field.1,
    (scalarOf python field.2).getD (.string (texts (.detailParam field.1))))), ?_, ?_, ?_⟩
  · rw [get_filled (nodup_prepare hkeys), hpart, Option.map_some, fillPart, sortKeys, ← sortedFields,
      sortedFields_message, sortKeys, ← sortedFields, List.map_map]
    rfl
  · have hperm := keys_sortedFields (message.2.map fun field => (field.1,
      (scalarOf python field.2).getD (.string (texts (.detailParam field.1)))))
    rwa [keys_map fun name value =>
      (scalarOf python value).getD (.string (texts (.detailParam name)))] at hperm
  · intro name value hname
    refine ⟨sortKeys ((scalarOf python value).getD (.string (texts (.detailParam name)))), ?_, ?_⟩
    · rw [get_sortedFields, get_map (fun name value =>
        (scalarOf python value).getD (.string (texts (.detailParam name)))), hname]
      · rfl
      · rw [keys_map fun name value =>
          (scalarOf python value).getD (.string (texts (.detailParam name)))]
        exact hnames
    · refine plainKept_fill (htexts (.detailParam name)) ?_
      intro shrinkable hshrinkable
      simp [initialTexts, hvalue, hmessage, hname, hshrinkable]

theorem gaps_filled (hkeys : (keys parsed).Nodup) (hgaps : inputGaps code parsed = some gaps) :
    ∃ items, get (sortedFields (fill texts (prepare python code parsed))) (text "gaps") =
        some (.list items) ∧
      List.Forall₂ (fun gap item => ∃ name, name <+: gap.name ∧ item = keptGap gap name)
        (keptGaps gaps) items := by
  have hpart : get (prepare python code parsed) (text "gaps") = some (.gaps (keptGaps gaps)) := by
    rw [get_prepare_of_some hgaps, if_neg (by decide), if_pos rfl]
  refine ⟨(keptGaps gaps).map fun gap => keptGap gap (texts (.gapName gap.code)), ?_, ?_⟩
  · rw [get_filled (nodup_prepare hkeys), hpart, Option.map_some, fillPart, sortKeys, sortItems_eq,
      List.map_map]
    congr 2
    exact List.map_congr_left fun gap _ => sortKeys_fillGap texts gap
  · rw [List.forall₂_map_right_iff]
    apply List.forall₂_same.mpr
    intro gap hgap
    have hname := htexts (.gapName gap.code)
    rw [initialTexts, hgaps, Option.getD_some, (keptGaps_spec gaps).1 gap hgap] at hname
    exact ⟨_, hname, rfl⟩

include hparsed

theorem kept_filled :
    Kept python code parsed (sortedFields (fill texts (prepare python code parsed))) := by
  cases hparsed with
  | object hkeys hfields =>
      have hnodup : (keys (prepare python code parsed)).Nodup := nodup_prepare hkeys
      have hfill : keys (fill texts (prepare python code parsed)) = keys (prepare python code parsed) := by
        rw [fill, keys_map (fillPart texts)]
      refine ⟨?_, ?_, ?_, ?_, ?_⟩
      · rw [(keys_sortedFields _).nodup_iff, hfill]
        exact hnodup
      · intro key
        rw [(keys_sortedFields _).mem_iff, hfill, ← get_isSome_iff, ← get_isSome_iff]
        cases hgaps : inputGaps code parsed with
        | none =>
            rw [get_prepare_of_none hgaps, Option.isSome_map]
            simp
        | some gaps =>
            rw [get_prepare_of_some hgaps]
            split
            · rename_i homitted
              simp [homitted]
            split
            · rename_i hgapsKey
              have hlist : (get parsed (text "gaps")).isSome = true := by
                unfold inputGaps at hgaps
                split at hgaps
                · split at hgaps
                  · rename_i hlist
                    rw [hlist]
                    rfl
                  · cases hgaps
                · cases hgaps
              simp [hgapsKey, hlist]
            · rename_i hne _
              simp [hne, Option.isSome_map]
      · intro key value hvalue hmessage hplain
        refine ⟨sortKeys (fillPart texts key (partOf python key value)), ?_, ?_⟩
        · rw [get_filled hnodup, get_prepare_plain hvalue hplain, Option.map_some]
        · have hkept : fillPart texts key (partOf python key value) =
              (scalarOf python value).getD (.string (texts (.param key))) := by
            cases hshrinkable : shrinkableText python value with
            | none =>
                rw [partOf_of_scalar hmessage hshrinkable, scalarOf_eq_some.mpr ⟨hshrinkable, rfl⟩]
                rfl
            | some shrinkable =>
                rw [partOf_of_string hmessage hshrinkable, scalarOf, hshrinkable]
                rfl
          rw [hkept]
          refine plainKept_fill (htexts (.param key)) ?_
          intro shrinkable hshrinkable
          simp [initialTexts, hvalue, hshrinkable]
      · intro value message hvalue hmessage
        exact message_filled htexts hkeys hfields hvalue hmessage
      · intro gaps hgaps
        refine ⟨?_, gaps_filled htexts hkeys hgaps⟩
        rw [get_filled hnodup, get_prepare_of_some hgaps, if_pos rfl]
        rfl

end Kept

variable {reason result : Text} {limit : ℕ}

theorem parseFailure_eq_some (h : parseFailure python reason = some (code, parsed)) :
    Registered code ∧
      ((structured reason = some (code, none) ∧ parsed = []) ∨
        ∃ rawParams, structured reason = some (code, some rawParams) ∧
          loads python.floats python.readDepth rawParams = some (.object parsed)) := by
  unfold parseFailure at h
  split at h
  · cases h
  · rename_i hstructured
    cases h
    exact ⟨registered_of_structured hstructured, .inl ⟨hstructured, rfl⟩⟩
  · rename_i rawParams hstructured
    split at h
    · rename_i hloads
      cases h
      exact ⟨registered_of_structured hstructured, .inr ⟨rawParams, hstructured, hloads⟩⟩
    · cases h

theorem parseFailure_of_structured {rawParams : Text}
    (hstructured : structured reason = some (code, some rawParams))
    (hloads : loads python.floats python.readDepth rawParams = some (.object parsed)) :
    parseFailure python reason = some (code, parsed) := by
  rw [parseFailure, hstructured]
  dsimp only
  rw [hloads]

theorem boundReason_of_le (h : reason.length ≤ limit) :
    boundReason python reason limit = some reason := by
  rw [boundReason, if_pos h]

def cuttable (python : Interpreter F) (code : Text) (parsed : Fields F) : List Slot :=
  slotsOf (prepare python code parsed)

def encodeWith (python : Interpreter F) (code : Text) (parsed : Fields F) (texts : Slot → Text) : Text :=
  encodeFailure python code (fill texts (prepare python code parsed))

theorem boundReason_cases (hlong : limit < reason.length) :
    boundReason python reason limit = some (reason.take limit) ∨
      ∃ code parsed, parseFailure python reason = some (code, parsed) ∧
        cuttable python code parsed ≠ [] ∧
        ((boundReason python reason limit = none ∧ ¬ OmittedFits code parsed) ∨
          OmittedFits code parsed ∧
            ∃ shrunk, shrink (fun texts => (encodeWith python code parsed texts).length)
              (cuttable python code parsed) limit (initialTexts python code parsed) = some shrunk ∧
            boundReason python reason limit = some (encodeWith python code parsed shrunk)) := by
  unfold boundReason
  rw [if_neg (Nat.not_le.mpr hlong)]
  split
  · exact .inl rfl
  · exact .inl rfl
  rename_i code rawParams hstructured
  split
  · rename_i parsed hloads
    obtain ⟨-, hreads, -⟩ := loads_reads hloads
    dsimp only
    split
    · exact .inl rfl
    rename_i hslots
    have hcuttable : cuttable python code parsed ≠ [] := fun hnil => hslots (by
      rw [cuttable] at hnil
      rw [hnil]
      rfl)
    have hparse := parseFailure_of_structured hstructured hloads
    split
    · rename_i hlongInt
      refine .inr ⟨code, parsed, hparse, hcuttable, .inl ⟨rfl, ?_⟩⟩
      intro homitted
      rw [(hasLongInt_fill_iff hreads _).mpr homitted] at hlongInt
      cases hlongInt
    · rename_i hshort
      have homitted := (hasLongInt_fill_iff hreads _).mp (Bool.eq_false_iff.mpr hshort)
      split
      · rename_i shrunk hshrunk
        exact .inr ⟨code, parsed, hparse, hcuttable, .inr ⟨homitted, shrunk, hshrunk, rfl⟩⟩
      · exact .inl rfl
  · exact .inl rfl

theorem boundReason_length (h : boundReason python reason limit = some result) :
    result.length ≤ limit := by
  rcases Nat.lt_or_ge limit reason.length with hlong | hshort
  · rcases boundReason_cases hlong with hslice |
      ⟨code, parsed, -, -, ⟨hnone, -⟩ | ⟨-, shrunk, hshrunk, hencoded⟩⟩
    · rw [hslice] at h
      rw [← Option.some.inj h]
      exact List.length_take_le _ _
    · rw [hnone] at h
      cases h
    · rw [hencoded] at h
      rw [← Option.some.inj h]
      exact shrink_fits hshrunk
  · rw [boundReason_of_le hshort] at h
    rw [← Option.some.inj h]
    exact hshort

theorem inputGaps_nil : inputGaps code ([] : Fields F) = none := by
  unfold inputGaps
  split
  · rfl
  · rfl

theorem cuttable_nil : cuttable python code ([] : Fields F) = [] := by
  unfold cuttable prepare
  rw [inputGaps_nil]
  rfl

theorem boundReason_of_cuttable (hlong : limit < reason.length)
    (hparse : parseFailure python reason = some (code, parsed))
    (hcuttable : cuttable python code parsed ≠ []) :
    boundReason python reason limit =
      if hasLongInt (.object (fill (fun _ => []) (prepare python code parsed))) then none
      else
        match shrink (fun texts => (encodeWith python code parsed texts).length)
            (cuttable python code parsed) limit (initialTexts python code parsed) with
        | some texts => some (encodeWith python code parsed texts)
        | none => some (reason.take limit) := by
  rcases (parseFailure_eq_some hparse).2 with ⟨-, rfl⟩ | ⟨rawParams, hstructured, hloads⟩
  · exact absurd cuttable_nil hcuttable
  · have hslots : (slotsOf (prepare python code parsed)).isEmpty = false := by
      rw [List.isEmpty_eq_false_iff]
      exact hcuttable
    rw [boundReason, if_neg (Nat.not_le.mpr hlong), hstructured]
    dsimp only
    rw [hloads]
    dsimp only
    rw [hslots, if_neg Bool.false_ne_true]
    rfl

def skeleton (python : Interpreter F) (code : Text) (parsed : Fields F) : Text :=
  encodeWith python code parsed fun _ => []

theorem readsWithin_of_parseFailure (h : parseFailure python reason = some (code, parsed))
    (hne : parsed ≠ []) : ReadsWithin python.readDepth (.object parsed) := by
  rcases (parseFailure_eq_some h).2 with ⟨-, rfl⟩ | ⟨rawParams, -, hloads⟩
  · exact absurd rfl hne
  · exact (loads_reads hloads).2.1

theorem fill_ne_nil (hcuttable : cuttable python code parsed ≠ []) (texts : Slot → Text) :
    fill texts (prepare python code parsed) ≠ [] := by
  intro hnil
  have hparts : prepare python code parsed = [] := List.map_eq_nil_iff.mp hnil
  apply hcuttable
  rw [cuttable, hparts]
  rfl

theorem parseFailure_encodeWith (hpython : python.Lawful)
    (hparse : parseFailure python reason = some (code, parsed))
    (hcuttable : cuttable python code parsed ≠ []) (homitted : OmittedFits code parsed)
    (texts : Slot → Text) :
    parseFailure python (encodeWith python code parsed texts) =
      some (code, sortedFields (fill texts (prepare python code parsed))) := by
  have hne : parsed ≠ [] := by
    rintro rfl
    exact hcuttable cuttable_nil
  have hreads : ReadsWithin 3 (.object (fill texts (prepare python code parsed))) :=
    readsWithin_fill (readsWithin_of_parseFailure hparse hne) homitted texts
  exact parseFailure_encodeFailure hpython (parseFailure_eq_some hparse).1
    (fill_ne_nil hcuttable texts)
    (readsWithin_mono hreads (Nat.le_trans (by decide) hpython.readDepth))

theorem boundReason_kept (hpython : python.Lawful) (hlong : limit < reason.length)
    (hparse : parseFailure python reason = some (code, parsed))
    (hcuttable : cuttable python code parsed ≠ []) (homitted : OmittedFits code parsed)
    (hskeleton : (skeleton python code parsed).length ≤ limit) :
    ∃ result after, boundReason python reason limit = some result ∧ result.length ≤ limit ∧
      parseFailure python result = some (code, after) ∧ Kept python code parsed after := by
  have hne : parsed ≠ [] := by
    rintro rfl
    exact hcuttable cuttable_nil
  have hreads := readsWithin_of_parseFailure hparse hne
  have hslots : ∀ slot ∈ slotsOf (prepare python code parsed),
      emptied (cuttable python code parsed) (initialTexts python code parsed) slot = [] :=
    fun slot hslot => if_pos hslot
  have hempty : (encodeWith python code parsed
      (emptied (cuttable python code parsed) (initialTexts python code parsed))).length ≤ limit := by
    rw [encodeWith, fill_congr hslots]
    exact hskeleton
  have hexists : ∃ shrunk, shrink (fun texts => (encodeWith python code parsed texts).length)
      (cuttable python code parsed) limit (initialTexts python code parsed) = some shrunk :=
    exists_shrink hempty
  obtain ⟨shrunk, hshrunk⟩ := hexists
  have hbound := boundReason_of_cuttable hlong hparse hcuttable
  rw [(hasLongInt_fill_iff hreads _).mpr homitted, if_neg Bool.false_ne_true, hshrunk] at hbound
  refine ⟨_, _, hbound, boundReason_length hbound,
    parseFailure_encodeWith hpython hparse hcuttable homitted shrunk, ?_⟩
  exact kept_filled hreads fun slot => shrink_front hshrunk slot

theorem boundReason_isSome (limit : ℕ)
    (homitted : ∀ code parsed, parseFailure python reason = some (code, parsed) →
      OmittedFits code parsed) : ∃ result, boundReason python reason limit = some result := by
  rcases Nat.lt_or_ge limit reason.length with hlong | hshort
  · have hcases : boundReason python reason limit = _ ∨ _ := boundReason_cases hlong
    rcases hcases with hslice |
      ⟨code, parsed, hparse, -, ⟨-, hraises⟩ | ⟨-, shrunk, -, hencoded⟩⟩
    · exact ⟨_, hslice⟩
    · exact absurd (homitted code parsed hparse) hraises
    · exact ⟨_, hencoded⟩
  · exact ⟨_, boundReason_of_le hshort⟩

/-- A bounded reason fits its limit, and while the strings of a failure can make room it stays that
failure with the parameters it had. -/
theorem boundReason_bounds (hpython : python.Lawful) (reason : Text) (limit : ℕ) :
    (reason.length ≤ limit → boundReason python reason limit = some reason) ∧
    ((∀ code parsed, parseFailure python reason = some (code, parsed) → OmittedFits code parsed) →
      ∃ result, boundReason python reason limit = some result ∧ result.length ≤ limit) ∧
    ∀ code parsed, limit < reason.length → parseFailure python reason = some (code, parsed) →
      cuttable python code parsed ≠ [] → OmittedFits code parsed →
      (skeleton python code parsed).length ≤ limit →
        ∃ result after, boundReason python reason limit = some result ∧ result.length ≤ limit ∧
          parseFailure python result = some (code, after) ∧ Kept python code parsed after := by
  refine ⟨boundReason_of_le, ?_, ?_⟩
  · intro homitted
    obtain ⟨result, hresult⟩ := boundReason_isSome limit homitted
    exact ⟨result, hresult, boundReason_length hresult⟩
  · intro code parsed hlong hparse hcuttable homitted hskeleton
    exact boundReason_kept hpython hlong hparse hcuttable homitted hskeleton

instance : Decidable (OmittedFits code parsed) :=
  decidable_of_iff ((inputGaps code parsed).all (fun gaps =>
    decide ((omittedNow parsed gaps).natAbs < 10 ^ maxStrDigits)) = true) (by
      unfold OmittedFits
      cases inputGaps code parsed with
      | none => simp
      | some gaps => simp)

def wholePython : Interpreter Unit where
  floats :=
    { ofNumeral := fun _ => (), nan := (), infinity := (), negInfinity := (),
      toText := fun _ => text "NaN" }
  readDepth := 500
  writeDepth := 500

theorem wholePython_lawful : wholePython.Lawful where
  floats := ⟨fun _ => .inl ⟨rfl, rfl⟩⟩
  readDepth := by decide
  writeDepth := by decide

def missingAsset (name : Text) : Json Unit :=
  .object [(text "code", .string (text "reference_asset_missing")), (text "name", .string name)]

theorem readsWithin_missingAsset (name : Text) : ReadsWithin 1 (missingAsset name) := by
  refine .object ?_ ?_
  · change [text "code", text "name"].Nodup
    decide
  · intro field hfield
    simp only [List.mem_cons, List.not_mem_nil, or_false] at hfield
    rcases hfield with rfl | rfl
    · exact .string 0 _
    · exact .string 0 _

def threeGapsParams : Fields Unit :=
  [(text "gaps", .list [missingAsset [97], missingAsset [98], missingAsset [99]])]

def threeGaps : Text :=
  encodeFailure wholePython (text "reference_asset_missing") threeGapsParams

theorem parseFailure_threeGaps :
    parseFailure wholePython threeGaps =
      some (text "reference_asset_missing", sortedFields threeGapsParams) := by
  have hmem : "reference_asset_missing" ∈ referenceProjectionFailureCodes := by
    simp [referenceProjectionFailureCodes]
  have hcode : Registered (text "reference_asset_missing") :=
    ⟨List.mem_map_of_mem (by simp only [List.mem_append, hmem, true_or, or_true]), by decide⟩
  have hparams : ReadsWithin 3 (.object threeGapsParams) := by
    refine .object (List.nodup_singleton _) fun field hfield => ?_
    rw [List.mem_singleton.mp hfield]
    refine .list fun item hitem => ?_
    simp only [List.mem_cons, List.not_mem_nil, or_false] at hitem
    rcases hitem with rfl | rfl | rfl
    · exact readsWithin_missingAsset _
    · exact readsWithin_missingAsset _
    · exact readsWithin_missingAsset _
  exact parseFailure_encodeFailure wholePython_lawful hcode (List.cons_ne_nil _ _)
    (readsWithin_mono hparams (by decide))

/-- Grouping them adds a parameter that the failure did not have. -/
theorem threeGaps_gains_parameter :
    ∃ result code parsed after, parseFailure wholePython threeGaps = some (code, parsed) ∧
      (skeleton wholePython code parsed).length ≤ 130 ∧
      boundReason wholePython threeGaps 130 = some result ∧
      parseFailure wholePython result = some (code, after) ∧
      text "gaps_omitted" ∈ keys after ∧ text "gaps_omitted" ∉ keys parsed := by
  have hcuttable : cuttable wholePython (text "reference_asset_missing")
      (sortedFields threeGapsParams) ≠ [] := by decide +kernel
  have homitted : OmittedFits (text "reference_asset_missing") (sortedFields threeGapsParams) := by
    decide +kernel
  have hskeleton : (skeleton wholePython (text "reference_asset_missing")
      (sortedFields threeGapsParams)).length ≤ 130 := by decide +kernel
  have hgaps : (inputGaps (text "reference_asset_missing")
      (sortedFields threeGapsParams)).isSome = true := by decide +kernel
  obtain ⟨result, after, hresult, -, hafter, hkept⟩ :=
    boundReason_kept wholePython_lawful (by decide +kernel) parseFailure_threeGaps hcuttable homitted
      hskeleton
  exact ⟨result, _, _, after, parseFailure_threeGaps, hskeleton, hresult, hafter,
    (hkept.keys_iff _).mpr (.inr ⟨hgaps, rfl⟩), by decide +kernel⟩

/-- The three gaps, cut to one. -/
theorem boundReason_bounds_threeGaps :
    ∃ result code after, boundReason wholePython threeGaps 130 = some result ∧
      result.length ≤ 130 ∧ parseFailure wholePython result = some (code, after) := by
  obtain ⟨result, after, hresult, hlength, hafter, -⟩ :=
    (boundReason_bounds wholePython_lawful threeGaps 130).2.2 _ _ (by decide +kernel)
      parseFailure_threeGaps (by decide +kernel) (by decide +kernel) (by decide +kernel)
  exact ⟨result, _, after, hresult, hlength, hafter⟩

end ShortReel.BoundedReasons
