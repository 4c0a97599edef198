import Mathlib.Data.List.Dedup
import ShortReel.TimelineChanges

/-!
# The cuts a stale edit sets transitions on

The conflict check compares, on the base and on the latest revision, what follows the clips of
`set_transition`. What follows a clip that an insertion brings in with a transition is not
compared: it is the same exactly when others changed nothing at the front of the gaps behind it.
-/

namespace ShortReel.TransitionCuts

open OrderEdits TimelineModel TimelineOperations TimelineService TimelineTrack TimelineSteps
open TimelineDocuments TimelineHistories TimelineChanges

/-- The clips a batch sets transitions of by `set_transition`. -/
def setCuts (operations : List TimelineOperation) : List ClipId :=
  operations.filterMap fun operation =>
    match operation with
    | .setTransition clip _ => some clip
    | _ => none

def insertedCuts : ℕ+ → List TimelineOperation → List ClipId
  | _, [] => []
  | next, operation :: rest =>
      match operation with
      | .insert insertion =>
          if insertion.transitionToNext.isSome then .c next :: insertedCuts (next + 1) rest
          else insertedCuts (next + 1) rest
      | _ => insertedCuts next rest

/-- Every clip whose transition the batch sets is followed by the same clip in two contents. -/
def KeepsCuts (nextClipNumber : ℕ+) (operations : List TimelineOperation)
    (onBase appended : EditTimelineContent) : Prop :=
  ∀ id ∈ setCuts operations ++ insertedCuts nextClipNumber operations,
    nextOf (clipIds onBase.clips) id = nextOf (clipIds appended.clips) id

/-- The track a batch leaves when it is made on the unchanged clips alone, with the gaps between
them in which the clips changed in the meantime stand. -/
def editedTokens (changed : List ClipId) (nextClipNumber : ℕ+)
    (operations : List TimelineOperation) (content : EditTimelineContent) :
    List (Token ClipId (Option ClipId)) :=
  OrderEdit.runAll ((orderScript nextClipNumber operations).map (OrderEdit.map Token.element))
    (skeleton ((clipIds content.clips).filter fun id => !decide (id ∈ changed)))

def changedBehind (changed : List ClipId) (nextClipNumber : ℕ+)
    (operations : List TimelineOperation) (content : EditTimelineContent) (id : ClipId) :
    Option ClipId :=
  ((gapsBehind id (editedTokens changed nextClipNumber operations content)).flatMap
    (gapOf (fun id => decide (id ∈ changed)) (clipIds content.clips))).head?

/-- Behind every clip inserted with a transition, the first clip changed since the base is the
same one, or none, on the base and on the latest revision. -/
def CutsUnchanged (document : EditTimelineDocument) (base : TimelineRevision)
    (operations : List TimelineOperation) : Prop :=
  let changed := changedSince (document.revisions.drop (base.number - 1))
  let next := document.nextClipNumber
  ∀ id ∈ insertedCuts next operations,
    changedBehind changed next operations base.content id =
      changedBehind changed next operations document.latest.content id

instance (nextClipNumber : ℕ+) (operations : List TimelineOperation)
    (onBase appended : EditTimelineContent) :
    Decidable (KeepsCuts nextClipNumber operations onBase appended) :=
  inferInstanceAs (Decidable (∀ id ∈ setCuts operations ++ insertedCuts _ operations, _))

instance (document : EditTimelineDocument) (base : TimelineRevision)
    (operations : List TimelineOperation) : Decidable (CutsUnchanged document base operations) :=
  inferInstanceAs (Decidable (∀ id ∈ insertedCuts _ operations, _))

theorem numberAfter_le (next : ℕ+) (operation : TimelineOperation) :
    next ≤ numberAfter next operation := by
  cases operation with
  | insert insertion => exact (PNat.lt_add_right next 1).le
  | _ => exact le_refl next

theorem element_orderScript {next : ℕ+} {operations : List TimelineOperation}
    {edit : OrderEdit ClipId} (h : edit ∈ orderScript next operations) :
    edit.element ∈ edit.names ∨ ∃ number, next ≤ number ∧ edit.element = .c number := by
  induction operations generalizing next with
  | nil => cases h
  | cons operation operations ih =>
      rcases List.mem_append.mp h with h | h
      · cases operation <;> simp only [orderEdits, List.mem_singleton, List.not_mem_nil] at h
        case insert insertion => exact Or.inr ⟨next, le_refl next, by rw [h]; rfl⟩
        case delete clip => exact Or.inl (by simp [h, OrderEdit.element, OrderEdit.names])
        case move clip after => exact Or.inl (by simp [h, OrderEdit.element, OrderEdit.names])
      · refine (ih h).imp_right ?_
        rintro ⟨number, hle, heq⟩
        exact ⟨number, (numberAfter_le next operation).trans hle, heq⟩

theorem insertedCuts_new {next : ℕ+} {operations : List TimelineOperation} {id : ClipId}
    (h : id ∈ insertedCuts next operations) : ∃ number, next ≤ number ∧ id = .c number := by
  induction operations generalizing next with
  | nil => cases h
  | cons operation operations ih =>
      cases operation with
      | insert insertion =>
          have hlater : id ∈ insertedCuts (next + 1) operations →
              ∃ number, next ≤ number ∧ id = .c number := by
            intro hrest
            obtain ⟨number, hle, heq⟩ := ih hrest
            exact ⟨number, (PNat.lt_add_right next 1).le.trans hle, heq⟩
          simp only [insertedCuts] at h
          split at h
          · rcases List.mem_cons.mp h with h | h
            · exact ⟨next, le_refl next, h⟩
            · exact hlater h
          · exact hlater h
      | _ => exact ih h

theorem new_notMem {clips : List EditClip} {next number : ℕ+}
    (hbelow : ∀ clip ∈ clips, clip.number < next) (hnumber : next ≤ number) :
    .c number ∉ clipIds clips := by
  intro hmem
  obtain ⟨clip, hclip, hid⟩ := mem_clipIds.mp hmem
  have heq : clip.number = number := by simpa [EditClip.id] using hid
  exact absurd (hbelow clip hclip) (by rw [heq]; exact not_lt.mpr hnumber)

section Batches

variable {content : EditTimelineContent} {next nextBgm : ℕ+} {operations : List TimelineOperation}
  {sources : EpisodeSources} {checkWindows : Bool} {applied : AppliedBatch}
  {changed : List ClipId}

theorem clipIds_applied
    (happlied : applyOperations content next nextBgm operations sources checkWindows = .ok applied)
    (hnames : ∀ edit ∈ orderScript next operations, ∀ id ∈ edit.names, id ∉ changed) :
    clipIds applied.content.clips =
      expand (gapOf (fun id => decide (id ∈ changed)) (clipIds content.clips))
        (editedTokens changed next operations content) := by
  obtain ⟨batch, accepted⟩ := applyOperations_ok happlied
  have hgaps : ∀ edit ∈ orderScript next operations, ∀ id ∈ edit.names, ∀ g,
      id ∉ gapOf (fun id => decide (id ∈ changed)) (clipIds content.clips) g := by
    intro edit hedit id hid g hgap
    exact hnames edit hedit id hid (by simpa using mem_gapOf hgap)
  have hids : expand (gapOf (fun id => decide (id ∈ changed)) (clipIds content.clips))
      (skeleton ((clipIds content.clips).filter fun id => !decide (id ∈ changed))) =
        clipIds content.clips :=
    expand_skeleton _ content.unique_clip_ids
  rw [editedTokens, expand_runAll hgaps, hids, accepted.clips_eq]
  exact accepted.run.order

theorem notMem_gapOf_of_editedTokens
    (hbelow : ∀ clip ∈ content.clips, clip.number < next)
    (hnames : ∀ edit ∈ orderScript next operations, ∀ id ∈ edit.names, id ∉ changed)
    {kept : EditTimelineContent} {id : ClipId}
    (h : .element id ∈ editedTokens changed next operations kept) (g : Option ClipId) :
    id ∉ gapOf (fun id => decide (id ∈ changed)) (clipIds content.clips) g := by
  intro hgap
  have hchanged : id ∈ changed := by simpa using mem_gapOf hgap
  rcases mem_of_mem_runAll h with h | ⟨edit, hedit, heq⟩
  · have hkept := List.mem_filter.mp (mem_of_element_mem_skeleton h)
    simp [hchanged] at hkept
  · obtain ⟨edit, horder, rfl⟩ := List.mem_map.mp hedit
    have helement : edit.element = id := by
      cases edit <;> simpa [OrderEdit.map, OrderEdit.element] using heq
    rcases element_orderScript horder with hname | ⟨number, hle, hnew⟩
    · exact hnames edit horder id (helement ▸ hname) hchanged
    · rw [← helement, hnew] at hgap
      exact new_notMem hbelow hle (gapOf_subset _ _ _ hgap)

end Batches

/-- What others did not change since a revision stands in the order it had there. -/
theorem sameOrder_latest {document : EditTimelineDocument} (hreach : timelines.Reachable document)
    {number : ℕ} {base : TimelineRevision} (hbase : document.revision number = some base) :
    SameOrderOutside (changedSince (document.revisions.drop (base.number - 1))) base.content
      document.latest.content := by
  rw [number_of_revision hbase]
  obtain ⟨-, hget⟩ := revision_eq_some hbase
  obtain ⟨hlt, hbase⟩ := List.getElem?_eq_some_iff.mp hget
  have hhonest := (reachable_honest hreach).drop (number - 1)
  have hlast : (document.revisions.drop (number - 1)).getLast? = some document.latest := by
    rw [List.getLast?_drop, if_neg (by omega)]
    exact List.getLast?_eq_some_getLast document.chain.nonempty
  rw [List.drop_eq_getElem_cons hlt, hbase] at hhonest hlast ⊢
  exact hhonest.sameOrder hlast

theorem lookup_successors (content : EditTimelineContent) (id : ClipId) :
    (successors content).lookup id = nextOf (clipIds content.clips) id := by
  unfold successors
  rw [← clipIds]
  generalize clipIds content.clips = ids
  induction ids with
  | nil => rfl
  | cons first rest ih =>
      cases rest with
      | nil => simp [nextOf]
      | cons second rest =>
          by_cases hfirst : first = id
          · simp [nextOf, hfirst]
          · have hne : (id == first) = false := beq_false_of_ne (Ne.symm hfirst)
            rw [nextOf, if_neg hfirst, ← ih]
            simp [List.lookup_cons, hne]

theorem setCuts_of_movedCuts {operations : List TimelineOperation}
    {onBase onLatest : EditTimelineContent} (h : movedCuts operations onBase onLatest = [])
    {id : ClipId} (hid : id ∈ setCuts operations) :
    nextOf (clipIds onBase.clips) id = nextOf (clipIds onLatest.clips) id := by
  rw [← lookup_successors, ← lookup_successors]
  by_contra hmoved
  have hmem : id ∈ movedCuts operations onBase onLatest := by
    rw [movedCuts, List.mem_dedup, List.mem_filterMap]
    obtain ⟨operation, hoperation, hset⟩ := List.mem_filterMap.mp hid
    refine ⟨operation, hoperation, ?_⟩
    cases operation <;> simp only [reduceCtorEq, Option.some.injEq] at hset
    rw [hset]
    exact if_pos hmoved
  rw [h] at hmem
  cases hmem

/-- An accepted edit on a stale base keeps the cuts of all the transitions it sets exactly when
nothing changed at the front of the gaps behind the clips it inserts with a transition. -/
theorem keepsCuts_iff_cutsUnchanged {document : EditTimelineDocument} {sources : EpisodeSources}
    {baseNumber : ℕ} {summary : String} {operations : List TimelineOperation}
    {input : CommandInput} {written : Written} {base : TimelineRevision} {onBase : AppliedBatch}
    (hreach : timelines.Reachable document)
    (haccepted : editSync document sources baseNumber summary operations input = .ok written)
    (hbase : document.revision baseNumber = some base)
    (hstale : base.number ≠ document.latest.number)
    (honBase : applyOperations base.content document.nextClipNumber document.nextBgmNumber
      operations sources false = .ok onBase) :
    KeepsCuts document.nextClipNumber operations onBase.content written.document.latest.content ↔
      CutsUnchanged document base operations := by
  obtain ⟨base', applied, edited⟩ := editSync_ok haccepted
  obtain rfl : base = base' := Option.some.inj (hbase.symm.trans edited.base_eq)
  obtain ⟨happlied, hchecked⟩ := applyEdit_ok edited.applied_eq
  obtain ⟨onBase', onLatest, checked⟩ := hchecked hstale
  obtain rfl : onBase = onBase' := Except.ok.inj (honBase.symm.trans checked.base_eq)
  set changed := changedSince (document.revisions.drop (base.number - 1)) with hchanged
  have hnumber := number_of_revision hbase
  -- The batch names only clips nobody changed since the base.
  have hnames : ∀ edit ∈ orderScript document.nextClipNumber operations, ∀ id ∈ edit.names,
      id ∉ changed := by
    intro edit hedit id hid hmem
    obtain ⟨batch, accepted⟩ := applyOperations_ok honBase
    refine (checked.apart id hmem).1 ?_
    rw [accepted.referenced_eq]
    exact accepted.run.named edit hedit id hid
  have hbelow : ∀ revision ∈ document.revisions, ∀ clip ∈ revision.content.clips,
      clip.number < document.nextClipNumber := document.chain.clips_below
  have hsame : SameOrderOutside changed base.content document.latest.content :=
    sameOrder_latest hreach hbase
  have htokens : editedTokens changed document.nextClipNumber operations base.content =
      editedTokens changed document.nextClipNumber operations document.latest.content := by
    have hkept : (clipIds base.content.clips).filter (fun id => !decide (id ∈ changed)) =
        (clipIds document.latest.content.clips).filter (fun id => !decide (id ∈ changed)) := by
      simpa [SameOrderOutside] using hsame
    rw [editedTokens, editedTokens, hkept]
  rw [edited.content_eq]
  have hset : ∀ id ∈ setCuts operations,
      nextOf (clipIds onBase.content.clips) id = nextOf (clipIds applied.content.clips) id := by
    intro id hid
    rw [(applyOperations_same happlied checked.latest_eq).1]
    exact setCuts_of_movedCuts checked.cuts hid
  have hinserted : ∀ id ∈ insertedCuts document.nextClipNumber operations,
      (nextOf (clipIds onBase.content.clips) id = nextOf (clipIds applied.content.clips) id ↔
        changedBehind changed document.nextClipNumber operations base.content id =
          changedBehind changed document.nextClipNumber operations document.latest.content id) := by
    intro id hid
    obtain ⟨number, hle, rfl⟩ := insertedCuts_new hid
    rw [clipIds_applied honBase hnames, clipIds_applied happlied hnames, ← htokens]
    rw [changedBehind, changedBehind, ← htokens]
    have hbasemem := revision_mem hbase
    refine nextOf_expand_eq_iff ?_ ?_ ?_
    · exact fun a g ha => notMem_gapOf_of_editedTokens (hbelow base hbasemem) hnames ha g
    · exact fun a g ha => notMem_gapOf_of_editedTokens (hbelow _ latest_mem) hnames ha g
    · exact fun g => ⟨fun h => new_notMem (hbelow base hbasemem) hle (gapOf_subset _ _ _ h),
        fun h => new_notMem (hbelow _ latest_mem) hle (gapOf_subset _ _ _ h)⟩
  constructor
  · intro hkeeps id hid
    exact (hinserted id hid).mp (hkeeps id (List.mem_append_right _ hid))
  · intro hunchanged id hid
    rcases List.mem_append.mp hid with hid | hid
    · exact hset id hid
    · exact (hinserted id hid).mpr (hunchanged id hid)

def insertDissolving (after : Option ClipId) : List TimelineOperation :=
  [.insert { unitId := "E1S01", after, transitionToNext := some ⟨.dissolve, 1⟩ }]

theorem keepsCuts_iff_cutsUnchanged_sample :
    ∃ document written base, ∃ onBase : AppliedBatch,
      sampleTimeline [[.setHold (.c 1) 1]] = .ok document ∧
      editSync document sampleSources 1 "片头" (insertDissolving none) sampleInput = .ok written ∧
      document.revision 1 = some base ∧
      (KeepsCuts document.nextClipNumber (insertDissolving none) onBase.content
          written.document.latest.content ↔
        CutsUnchanged document base (insertDissolving none)) := by
  obtain ⟨⟨written, base, onBase⟩, h⟩ := exists_of_isOk (x := do
    let document ← sampleTimeline [[.setHold (.c 1) 1]]
    let written ← editSync document sampleSources 1 "片头" (insertDissolving none) sampleInput
    let base ← baseRevision document 1
    let onBase ← applyTo document sampleSources base.content (insertDissolving none) false
    if base.number ≠ document.latest.number then return (written, base, onBase)
    else .error .documentInvalid) (by decide +kernel)
  simp only [bind_eq_ok] at h
  obtain ⟨document, hdocument, _, hwritten, _, hbase, _, honBase, h⟩ := h
  split at h
  · rename_i hstale
    cases h
    have hbase := baseRevision_ok hbase
    exact ⟨document, written, base, onBase, hdocument, hwritten, hbase,
      keepsCuts_iff_cutsUnchanged (reachable_sampleTimeline hdocument) hwritten hbase hstale
        (applyTo_ok honBase)⟩
  · cases h

/-- Another clip was put behind the first one in the meantime. The new clip goes between the two,
and its dissolve, set on the cut to the second clip, is applied to the cut to the other one. -/
theorem insert_dissolves_into_another_clip :
    ∃ document written base, ∃ onBase : AppliedBatch,
      sampleTimeline [[.insert { unitId := "E1S02", after := some (.c 1) }]] = .ok document ∧
      timelines.Reachable document ∧
      editSync document sampleSources 1 "补一镜" (insertDissolving (some (.c 1))) sampleInput =
        .ok written ∧
      document.revision 1 = some base ∧ base.number ≠ document.latest.number ∧
      applyOperations base.content document.nextClipNumber document.nextBgmNumber
        (insertDissolving (some (.c 1))) sampleSources false = .ok onBase ∧
      nextOf (clipIds onBase.content.clips) (.c 4) = some (.c 2) ∧
      nextOf (clipIds written.document.latest.content.clips) (.c 4) = some (.c 3) ∧
      ¬ KeepsCuts document.nextClipNumber (insertDissolving (some (.c 1))) onBase.content
        written.document.latest.content := by
  obtain ⟨⟨written, base, onBase⟩, h⟩ := exists_of_isOk (x := do
    let document ← sampleTimeline [[.insert { unitId := "E1S02", after := some (.c 1) }]]
    let written ← editSync document sampleSources 1 "补一镜" (insertDissolving (some (.c 1)))
      sampleInput
    let base ← baseRevision document 1
    let onBase ← applyTo document sampleSources base.content (insertDissolving (some (.c 1)))
      false
    if base.number ≠ document.latest.number ∧
        nextOf (clipIds onBase.content.clips) (.c 4) = some (.c 2) ∧
        nextOf (clipIds written.document.latest.content.clips) (.c 4) = some (.c 3) ∧
        ¬ KeepsCuts document.nextClipNumber (insertDissolving (some (.c 1))) onBase.content
          written.document.latest.content then
      return (written, base, onBase)
    else .error .documentInvalid) (by decide +kernel)
  simp only [bind_eq_ok] at h
  obtain ⟨document, hdocument, _, hwritten, _, hbase, _, honBase, h⟩ := h
  split at h
  · rename_i hcuts
    cases h
    exact ⟨document, written, base, onBase, hdocument, reachable_sampleTimeline hdocument, hwritten,
      baseRevision_ok hbase, hcuts.1, applyTo_ok honBase, hcuts.2⟩
  · cases h

end ShortReel.TransitionCuts
