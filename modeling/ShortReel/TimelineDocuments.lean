import ShortReel.TimelineInvariants
import ShortReel.TimelineService

/-!
# What the timeline commands write

Creating, copying, editing and restoring, each described by the document it writes: which
revisions it has, with which content, and where its allocators stand.
-/

namespace ShortReel.TimelineDocuments

open TimelineModel TimelineOperations TimelineService TimelineSteps

variable {document : EditTimelineDocument} {sources : EpisodeSources}

theorem number_getElem {position : ℕ} (h : position < document.revisions.length) :
    document.revisions[position].number = position + 1 := by
  have hnumbered := congrArg (fun numbers : List ℕ => numbers[position]?) document.chain.numbered
  simpa [h] using hnumbered

theorem revision_eq_some {number : ℕ} {revision : TimelineRevision}
    (h : document.revision number = some revision) :
    0 < number ∧ document.revisions[number - 1]? = some revision := by
  unfold EditTimelineDocument.revision at h
  split at h
  · cases h
  · rename_i hzero
    exact ⟨Nat.pos_of_ne_zero hzero, h⟩

theorem revision_mem {number : ℕ} {revision : TimelineRevision}
    (h : document.revision number = some revision) : revision ∈ document.revisions :=
  List.mem_of_getElem? (revision_eq_some h).2

theorem number_of_revision {number : ℕ} {revision : TimelineRevision}
    (h : document.revision number = some revision) : revision.number = number := by
  obtain ⟨hpos, hget⟩ := revision_eq_some h
  obtain ⟨hlt, rfl⟩ := List.getElem?_eq_some_iff.mp hget
  rw [number_getElem hlt]
  omega

theorem latest_mem : document.latest ∈ document.revisions :=
  List.getLast_mem _

theorem latest_eq_getElem (h : document.revisions.length - 1 < document.revisions.length) :
    document.latest = document.revisions[document.revisions.length - 1] :=
  List.getLast_eq_getElem _

theorem length_pos (document : EditTimelineDocument) : 0 < document.revisions.length :=
  List.length_pos_iff.mpr document.chain.nonempty

theorem latest_number : document.latest.number = document.revisions.length := by
  have hpos := length_pos document
  rw [latest_eq_getElem (by omega), number_getElem]
  omega

theorem validateDocument_ok {id : String} {episode : ℕ} {name createdAt : String}
    {nextClipNumber nextBgmNumber : ℕ+} {revisions : List TimelineRevision}
    (h : validateDocument id episode name createdAt nextClipNumber nextBgmNumber revisions =
      .ok document) :
    document.nextClipNumber = nextClipNumber ∧ document.nextBgmNumber = nextBgmNumber ∧
      document.revisions = revisions := by
  unfold validateDocument at h
  split at h
  · cases h
    exact ⟨rfl, rfl, rfl⟩
  · cases h

theorem latest_of_append {revisions : List TimelineRevision} {revision : TimelineRevision}
    (h : document.revisions = revisions ++ [revision]) : document.latest = revision := by
  have hlast : document.revisions.getLast? = some revision := by
    rw [h, List.getLast?_concat]
  rw [List.getLast?_eq_some_getLast document.chain.nonempty, Option.some.injEq] at hlast
  exact hlast

theorem baseRevision_ok {number : ℕ} {revision : TimelineRevision}
    (h : baseRevision document number = .ok revision) :
    document.revision number = some revision := by
  unfold baseRevision at h
  split at h
  · rename_i found hfound
    cases h
    exact hfound
  · cases h

structure Edited (document : EditTimelineDocument) (sources : EpisodeSources) (baseNumber : ℕ)
    (operations : List TimelineOperation) (updated : EditTimelineDocument)
    (base : TimelineRevision) (applied : AppliedBatch) : Prop where
  base_eq : document.revision baseNumber = some base
  applied_eq : applyEdit document sources base operations = .ok applied
  content_eq : updated.latest.content = applied.content
  changed_eq : updated.latest.changedClipIds = some (sortedClipIds applied.lastOperation.keys)
  next_clip : updated.nextClipNumber = applied.nextClipNumber
  next_bgm : updated.nextBgmNumber = applied.nextBgmNumber
  revisions_eq : updated.revisions = document.revisions ++ [updated.latest]

theorem editSync_ok {baseNumber : ℕ} {summary : String} {operations : List TimelineOperation}
    {input : CommandInput} {written : Written}
    (h : editSync document sources baseNumber summary operations input = .ok written) :
    ∃ base applied, Edited document sources baseNumber operations written.document base applied := by
  simp only [editSync, bind_eq_ok] at h
  obtain ⟨base, hbase, applied, happlied, updated, hupdated, heq⟩ := h
  cases heq
  obtain ⟨hclip, hbgm, hrevisions⟩ := validateDocument_ok hupdated
  have hlatest := latest_of_append hrevisions
  refine ⟨base, applied, baseRevision_ok hbase, happlied, ?_, ?_, hclip, hbgm, ?_⟩
  · rw [hlatest]
  · rw [hlatest]
  · rw [hlatest]
    exact hrevisions

/-- The two ways a batch is applied: on the latest revision itself, or after the conflict check. -/
structure Checked (document : EditTimelineDocument) (sources : EpisodeSources)
    (base : TimelineRevision) (operations : List TimelineOperation) (onBase onLatest : AppliedBatch) :
    Prop where
  base_eq : applyOperations base.content document.nextClipNumber document.nextBgmNumber operations
    sources false = .ok onBase
  latest_eq : applyOperations document.latest.content document.nextClipNumber
    document.nextBgmNumber operations sources false = .ok onLatest
  apart : ∀ id ∈ changedSince (document.revisions.drop (base.number - 1)),
    id ∉ onBase.referenced ∧ id ∉ onBase.lastOperation ∧ id ∉ onLatest.lastOperation
  cuts : movedCuts operations onBase.content onLatest.content = []

theorem applyTo_ok {content : EditTimelineContent} {operations : List TimelineOperation}
    {checkWindows : Bool} {applied : AppliedBatch}
    (h : applyTo document sources content operations checkWindows = .ok applied) :
    applyOperations content document.nextClipNumber document.nextBgmNumber operations sources
      checkWindows = .ok applied :=
  mapError_eq_ok.mp h

theorem rejectConflicts_ok {base : TimelineRevision} {conflicting : List ClipId}
    (h : rejectConflicts document base conflicting = .ok ()) : conflicting = [] := by
  unfold rejectConflicts at h
  split at h
  · assumption
  · cases h

theorem checkConflicts_ok {base : TimelineRevision} {operations : List TimelineOperation}
    {applied : AppliedBatch}
    (h : checkConflicts document sources base operations = .ok applied) :
    ∃ onBase onLatest, Checked document sources base operations onBase onLatest ∧
      applyOperations document.latest.content document.nextClipNumber document.nextBgmNumber
        operations sources true = .ok applied := by
  simp only [checkConflicts, bind_eq_ok] at h
  obtain ⟨onBase, hbase, ⟨⟩, htouched, onLatest, hlatest, ⟨⟩, hlast, ⟨⟩, hcuts, happlied⟩ := h
  have htouched := rejectConflicts_ok htouched
  have hlast := rejectConflicts_ok hlast
  refine ⟨onBase, onLatest, ⟨applyTo_ok hbase, applyTo_ok hlatest, ?_, rejectConflicts_ok hcuts⟩,
    applyTo_ok happlied⟩
  intro id hid
  have hkeys : ∀ last : LastOperation, id ∈ last → id ∈ last.keys := fun _ hmem => hmem
  refine ⟨fun hmem => ?_, fun hmem => ?_, fun hmem => ?_⟩
  · have hin : id ∈ (onBase.referenced ∪ onBase.lastOperation.keys).filter
        (· ∈ changedSince (document.revisions.drop (base.number - 1))) :=
      List.mem_filter.mpr ⟨List.mem_union_iff.mpr (Or.inl hmem), by simpa using hid⟩
    rw [htouched] at hin
    cases hin
  · have hin : id ∈ (onBase.referenced ∪ onBase.lastOperation.keys).filter
        (· ∈ changedSince (document.revisions.drop (base.number - 1))) :=
      List.mem_filter.mpr ⟨List.mem_union_iff.mpr (Or.inr (hkeys _ hmem)), by simpa using hid⟩
    rw [htouched] at hin
    cases hin
  · have hin : id ∈ onLatest.lastOperation.keys.filter
        (· ∈ changedSince (document.revisions.drop (base.number - 1))) :=
      List.mem_filter.mpr ⟨hkeys _ hmem, by simpa using hid⟩
    rw [hlast] at hin
    cases hin

theorem applyEdit_ok {base : TimelineRevision} {operations : List TimelineOperation}
    {applied : AppliedBatch}
    (h : applyEdit document sources base operations = .ok applied) :
    applyOperations document.latest.content document.nextClipNumber document.nextBgmNumber
        operations sources true = .ok applied ∧
      (base.number ≠ document.latest.number →
        ∃ onBase onLatest, Checked document sources base operations onBase onLatest) := by
  unfold applyEdit at h
  split at h
  · obtain ⟨onBase, onLatest, checked, happlied⟩ := checkConflicts_ok h
    exact ⟨happlied, fun _ => ⟨onBase, onLatest, checked⟩⟩
  · rename_i hsame
    exact ⟨applyTo_ok h, fun hstale => absurd hstale hsame⟩

theorem applyOperations_same {content : EditTimelineContent} {nextClipNumber nextBgmNumber : ℕ+}
    {operations : List TimelineOperation} {first second : Bool} {one other : AppliedBatch}
    (hone : applyOperations content nextClipNumber nextBgmNumber operations sources first = .ok one)
    (hother : applyOperations content nextClipNumber nextBgmNumber operations sources second =
      .ok other) :
    one.content.clips = other.content.clips ∧ one.lastOperation = other.lastOperation := by
  obtain ⟨batch, accepted⟩ := applyOperations_ok hone
  obtain ⟨batch', accepted'⟩ := applyOperations_ok hother
  have hsame : batch = batch' := Except.ok.inj (accepted.ran.symm.trans accepted'.ran)
  subst hsame
  exact ⟨accepted.clips_eq.trans accepted'.clips_eq.symm,
    accepted.last_eq.trans accepted'.last_eq.symm⟩

/-- A restored revision: the content of an older one, with everything that differs recorded. -/
structure Restored (document : EditTimelineDocument) (number : ℕ) (updated : EditTimelineDocument)
    (target : TimelineRevision) : Prop where
  target_eq : document.revision number = some target
  content_eq : updated.latest.content = target.content
  changed_eq : updated.latest.changedClipIds =
    some (sortedClipIds (restoreChangedClipIds document.latest.content target.content))
  next_clip : updated.nextClipNumber = document.nextClipNumber
  next_bgm : updated.nextBgmNumber = document.nextBgmNumber
  revisions_eq : updated.revisions = document.revisions ++ [updated.latest]

theorem restore_ok {number : ℕ} {input : CommandInput} {written : Written}
    (h : restore document number input = .ok written) :
    ∃ target, Restored document number written.document target := by
  simp only [restore, bind_eq_ok] at h
  obtain ⟨target, htarget, h⟩ := h
  split at h
  · cases h
  · simp only [bind_eq_ok] at h
    obtain ⟨updated, hupdated, heq⟩ := h
    cases heq
    obtain ⟨hclip, hbgm, hrevisions⟩ := validateDocument_ok hupdated
    have hlatest := latest_of_append hrevisions
    refine ⟨target, baseRevision_ok htarget, ?_, ?_, hclip, hbgm, ?_⟩
    · rw [hlatest]
    · rw [hlatest]
    · rw [hlatest]
      exact hrevisions

/-! ### A small episode

Two units with usable videos, for the concrete cases of later results. -/

def sampleScript : EpisodeScriptUnits where
  episode := 1
  kind := "segments"
  units := [⟨"E1S01", some .characterSpeech, 4000000, ""⟩, ⟨"E1S02", some .narratorVoiceover, 4000000, ""⟩]

def sampleSources : EpisodeSources where
  script := sampleScript
  media := [("E1S01", ⟨some 1, some 4000000, none⟩), ("E1S02", ⟨some 1, some 4000000, none⟩)]
  ttsNarration := true
  bgm := [("bgm-3f9a0c21", ⟨"雨夜", 30000000, by decide⟩)]

def sampleInput : CommandInput where
  author := ⟨.creator, none⟩
  now := "2025-01-01T00:00:00.000000Z"
  newId := "tl-00000001"
  name := "初剪"

def sampleTimeline (batches : List (List TimelineOperation)) :
    Except ServiceError EditTimelineDocument := do
  let created ← createFromScript sampleScript sampleInput
  batches.foldlM (fun document operations => do
    let written ← edit document sampleSources document.latest.number "调整" operations sampleInput
    return written.document) created

theorem exists_of_isOk {ε α : Type} {x : Except ε α} (h : x.isOk = true) : ∃ a, x = .ok a := by
  cases x with
  | error error => cases h
  | ok a => exact ⟨a, rfl⟩

end ShortReel.TimelineDocuments
