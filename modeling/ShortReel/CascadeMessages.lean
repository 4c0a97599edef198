import ShortReel.BoundedReasons
import ShortReel.TaskRepository

/-!
# What a cascade stores for a dependent

`_encode_bounded_cascade_failure` of `task_repo.py`. The root cause is cut in up to five rounds until
the message that names the blocker fits its column, and the message is bounded once more when it is
stored.
-/

namespace ShortReel.CascadeMessages

open InsertionDict JsonText ShrinkingTexts TaskFailures BoundedReasons
open TaskRepository (maxErrorMessageLen)

/-- `uuid.uuid4().hex`, the only source of task ids. -/
structure TaskId where
  hex : Text
  length_eq : hex.length = 32
  isHex : ∀ c ∈ hex, (48 ≤ c ∧ c ≤ 57) ∨ (97 ≤ c ∧ c ≤ 102)

section Model

variable {F : Type} (python : Interpreter F)

def cascadeParams (dependencyTaskId reason : Text) : Fields F :=
  [(text "dependency_task_id", .string dependencyTaskId), (text "reason", .string reason)]

def encodeCascade (dependencyTaskId reason : Text) : Text :=
  encodeFailure python cascadeFailureCode (cascadeParams dependencyTaskId reason)

/-- The rounds of the loop. A budget is never negative, so that subtraction stops at zero. -/
def cutToBudget (dependencyTaskId : Text) : ℕ → ℕ → Text → Text → Option Text
  | 0, _, _, encoded => some encoded
  | rounds + 1, budget, reason, _ =>
      (boundReason python reason budget).bind fun reason =>
        let encoded := encodeCascade python dependencyTaskId reason
        if encoded.length ≤ maxErrorMessageLen ∨ budget = 0 then some encoded
        else
          cutToBudget dependencyTaskId rounds (budget - (encoded.length - maxErrorMessageLen))
            reason encoded

def encodeBoundedCascadeFailure (dependencyTaskId reason : Text) : Option Text :=
  let reason := collapseCascadeReason python reason
  let encoded := encodeCascade python dependencyTaskId reason
  if encoded.length ≤ maxErrorMessageLen then some encoded
  else
    let overhead := (encodeCascade python dependencyTaskId []).length
    cutToBudget python dependencyTaskId 5 (maxErrorMessageLen - overhead) reason encoded

/-- The `error_message` of a dependent that is marked failed behind `dependencyTaskId`. -/
def storedMessage (dependencyTaskId errorMessage : Text) : Option Text :=
  (encodeBoundedCascadeFailure python dependencyTaskId errorMessage).bind fun blockedMessage =>
    boundReason python blockedMessage maxErrorMessageLen

end Model

variable {F : Type} {python : Interpreter F} {blocker reason : Text}

theorem sortedFields_cascadeParams :
    sortedFields (cascadeParams blocker reason : Fields F) = cascadeParams blocker reason := by
  have hle : text "dependency_task_id" ≤ text "reason" := by decide
  simp [sortedFields, cascadeParams, sortFields, sortKeys, List.insertionSort, hle]

theorem registered_cascade : Registered cascadeFailureCode := by
  have hmem : "cascade_blocked_dependency" ∈ taskFailureCodes := by
    simp [taskFailureCodes]
  exact ⟨List.mem_map_of_mem (List.mem_append_right _ hmem), by decide⟩

theorem readsWithin_cascadeParams :
    ReadsWithin 1 (.object (cascadeParams blocker reason : Fields F)) := by
  refine .object ?_ fun field hfield => ?_
  · change [text "dependency_task_id", text "reason"].Nodup
    decide
  · simp only [cascadeParams, List.mem_cons, List.not_mem_nil, or_false] at hfield
    rcases hfield with rfl | rfl
    · exact .string 0 _
    · exact .string 0 _

theorem get_cascadeParams_blocker :
    get (cascadeParams blocker reason : Fields F) (text "dependency_task_id") =
      some (.string blocker) := by
  simp [InsertionDict.get, cascadeParams]

theorem get_cascadeParams_reason :
    get (cascadeParams blocker reason : Fields F) (text "reason") = some (.string reason) := by
  have hne : text "dependency_task_id" ≠ text "reason" := by decide
  simp [InsertionDict.get, cascadeParams, hne]

theorem parseFailure_encodeCascade (hpython : python.Lawful) (blocker reason : Text) :
    parseFailure python (encodeCascade python blocker reason) =
      some (cascadeFailureCode, cascadeParams blocker reason) := by
  have hne : (cascadeParams blocker reason : Fields F) ≠ [] := List.cons_ne_nil _ _
  rw [encodeCascade, parseFailure_encodeFailure hpython registered_cascade hne
    (readsWithin_mono readsWithin_cascadeParams (Nat.le_trans (by decide) hpython.readDepth)),
    sortedFields_cascadeParams]

theorem length_encodeCascade (blocker reason : Text) :
    (encodeCascade python blocker reason).length =
      69 + escapedLength blocker + escapedLength reason := by
  have hcode : cascadeFailureCode.length = 26 := by decide
  have hblocker : (quote (text "dependency_task_id")).length = 20 := by decide
  have hreason : (quote (text "reason")).length = 8 := by decide
  have hne : (cascadeParams blocker reason : Fields F) ≠ [] := List.cons_ne_nil _ _
  rw [encodeCascade, encodeFailure_eq hne, sortedFields_cascadeParams]
  simp only [cascadeParams, dumpsFields, dumps, commas, List.length_append, List.length_cons,
    List.length_nil, length_quote, hcode] at hblocker hreason ⊢
  omega

theorem escapedLength_hex (blocker : TaskId) : escapedLength blocker.hex = 32 := by
  have hchar : ∀ c ∈ blocker.hex, (escapeChar c).length = 1 := by
    intro c hc
    have hrange := blocker.isHex c hc
    unfold escapeChar
    rw [if_neg (by omega), if_neg (by omega), if_neg (by omega), if_neg (by omega),
      if_neg (by omega), if_neg (by omega), if_neg (by omega), if_neg (by omega)]
    rfl
  rw [escapedLength, List.map_congr_left hchar, List.map_const', List.sum_replicate,
    blocker.length_eq]
  rfl

def room : ℕ := 1899

theorem encodeCascade_fits_iff (blocker : TaskId) (reason : Text) :
    (encodeCascade python blocker.hex reason).length ≤ maxErrorMessageLen ↔
      escapedLength reason ≤ room := by
  rw [length_encodeCascade, escapedLength_hex, maxErrorMessageLen, room]
  omega

theorem inputGaps_cascade (parsed : Fields F) : inputGaps cascadeFailureCode parsed = none := by
  have hcode : cascadeFailureCode ∉ inputFailureCodes := by decide +kernel
  rw [inputGaps, if_neg hcode]

theorem prepare_cascade (blocker reason : Text) :
    prepare python cascadeFailureCode (cascadeParams blocker reason) =
      [(text "dependency_task_id", .string), (text "reason", .string)] := by
  have hblocker : text "dependency_task_id" ≠ text "detail" := by decide
  have hreason : text "reason" ≠ text "detail" := by decide
  have hblockerPart : partOf python (text "dependency_task_id") (.string blocker) = .string :=
    partOf_of_string (if_neg hblocker) rfl
  have hreasonPart : partOf python (text "reason") (.string reason) = .string :=
    partOf_of_string (if_neg hreason) rfl
  rw [prepare, inputGaps_cascade]
  simp only [cascadeParams, List.map_cons, List.map_nil, hblockerPart, hreasonPart]

theorem encodeWith_cascade (blocker reason : Text) (texts : Slot → Text) :
    encodeWith python cascadeFailureCode (cascadeParams blocker reason) texts =
      encodeCascade python (texts (.param (text "dependency_task_id")))
        (texts (.param (text "reason"))) := by
  rw [encodeWith, prepare_cascade]
  rfl

theorem cuttable_cascade (blocker reason : Text) :
    cuttable python cascadeFailureCode (cascadeParams blocker reason) =
      [.param (text "dependency_task_id"), .param (text "reason")] := by
  rw [cuttable, prepare_cascade]
  rfl

def Intact (blocker : TaskId) (texts : Slot → Text) : Prop :=
  texts (.param (text "dependency_task_id")) = blocker.hex ∧ texts (.param (text "reason")) ≠ []

theorem intact_cut {blocker : TaskId} {texts : Slot → Text} {slot : Slot} (h : Intact blocker texts)
    (hlong : maxErrorMessageLen < (encodeCascade python (texts (.param (text "dependency_task_id")))
      (texts (.param (text "reason")))).length)
    (hlongest : slot ∈ [.param (text "dependency_task_id"), .param (text "reason")].argmax
      fun slot => (texts slot).length) (deficit : ℕ) :
    Intact blocker (cut texts slot deficit) := by
  obtain ⟨hblocker, hreason⟩ := h
  have hlength := blocker.length_eq
  have hescaped := escapedLength_le (texts (.param (text "reason")))
  rw [hblocker, length_encodeCascade, escapedLength_hex, maxErrorMessageLen] at hlong
  have hle := List.le_of_mem_argmax (List.mem_cons_of_mem _ List.mem_cons_self) hlongest
  have hmem := List.argmax_mem hlongest
  simp only [List.mem_cons, List.not_mem_nil, or_false] at hmem
  rcases hmem with rfl | rfl
  · rw [hblocker] at hle
    omega
  · have hne : Slot.param (text "dependency_task_id") ≠ .param (text "reason") := by decide
    refine ⟨?_, cut_ne_nil (by omega)⟩
    rw [cut, Function.update_of_ne hne, hblocker]

theorem boundReason_encodeCascade (hpython : python.Lawful) (blocker : TaskId) (reason : Text) :
    ∃ kept, boundReason python (encodeCascade python blocker.hex reason) maxErrorMessageLen =
        some (encodeCascade python blocker.hex kept) ∧ (kept = [] ↔ reason = []) := by
  rcases Nat.lt_or_ge maxErrorMessageLen (encodeCascade python blocker.hex reason).length with
    hlong | hshort
  · have hparse := parseFailure_encodeCascade hpython blocker.hex reason
    have homitted : OmittedFits cascadeFailureCode (cascadeParams blocker.hex reason : Fields F) := by
      intro gaps hgaps
      rw [inputGaps_cascade] at hgaps
      cases hgaps
    have hne : cuttable python cascadeFailureCode (cascadeParams blocker.hex reason) ≠ [] := by
      rw [cuttable_cascade]
      exact List.cons_ne_nil _ _
    have hbound := boundReason_of_cuttable hlong hparse hne
    rw [(hasLongInt_fill_iff readsWithin_cascadeParams _).mpr homitted, if_neg Bool.false_ne_true,
      cuttable_cascade] at hbound
    simp only [encodeWith_cascade] at hbound
    have hreason : reason ≠ [] := by
      rintro rfl
      rw [length_encodeCascade, escapedLength_hex] at hlong
      exact absurd hlong (by decide)
    have hinitial : Intact blocker
        (initialTexts python cascadeFailureCode (cascadeParams blocker.hex reason)) := by
      unfold Intact initialTexts
      dsimp only
      rw [get_cascadeParams_blocker, get_cascadeParams_reason]
      exact ⟨rfl, hreason⟩
    obtain ⟨shrunk, hshrunk⟩ : ∃ shrunk, shrink (fun texts : Slot → Text =>
        (encodeCascade python (texts (.param (text "dependency_task_id")))
          (texts (.param (text "reason")))).length)
        [.param (text "dependency_task_id"), .param (text "reason")] maxErrorMessageLen
        (initialTexts python cascadeFailureCode (cascadeParams blocker.hex reason)) = some shrunk := by
      apply exists_shrink
      rw [emptied, emptied, if_pos List.mem_cons_self,
        if_pos (List.mem_cons_of_mem _ List.mem_cons_self), length_encodeCascade]
      decide
    have hintact : Intact blocker shrunk :=
      shrink_invariant (fun texts slot h hlong hlongest _ => intact_cut h hlong hlongest _) hinitial
        hshrunk
    rw [hshrunk] at hbound
    dsimp only at hbound
    rw [hintact.1] at hbound
    exact ⟨_, hbound, iff_of_false hintact.2 hreason⟩
  · exact ⟨reason, boundReason_of_le hshort, Iff.rfl⟩

end ShortReel.CascadeMessages
