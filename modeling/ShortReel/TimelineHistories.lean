import ShortReel.TimelineDocuments

/-!
# Histories of a timeline

The timeline of an episode as a system of commands: created from the script, then edited, restored
and copied in any order. Its revisions all satisfy the invariants of a content, and an id stands
for one clip as long as the history goes on.
-/

namespace ShortReel.TimelineHistories

open TimelineModel TimelineOperations TimelineService TimelineSteps TimelineInvariants
open TimelineDocuments

/-- What can happen to a timeline once it exists. A copy is followed as a timeline of its own. -/
inductive Command where
  | copy (revision : Option ℕ) (input : CommandInput)
  | edit (sources : EpisodeSources) (baseRevision : ℕ) (summary : String)
      (operations : List TimelineOperation) (input : CommandInput)
  | restore (revision : ℕ) (input : CommandInput)

def Command.run (document : EditTimelineDocument) :
    Command → Except ServiceError EditTimelineDocument
  | copy revision input => TimelineService.copy document revision input
  | edit sources baseRevision summary operations input =>
      (TimelineService.edit document sources baseRevision summary operations input).map (·.document)
  | restore revision input => (TimelineService.restore document revision input).map (·.document)

def timelines : TransitionSystem EditTimelineDocument Command where
  initial document := ∃ script input, createFromScript script input = .ok document
  step document command later := command.run document = .ok later

theorem reachable_sampleTimeline {batches : List (List TimelineOperation)}
    {document : EditTimelineDocument} (h : sampleTimeline batches = .ok document) :
    timelines.Reachable document := by
  simp only [sampleTimeline, bind_eq_ok] at h
  obtain ⟨created, hcreated, hbatches⟩ := h
  have hreach : timelines.Reachable created := .start ⟨_, _, hcreated⟩
  clear hcreated
  induction batches generalizing created with
  | nil =>
      cases hbatches
      exact hreach
  | cons operations batches ih =>
      simp only [List.foldlM_cons, bind_eq_ok] at hbatches
      obtain ⟨later, ⟨written, hwritten, heq⟩, hbatches⟩ := hbatches
      cases heq
      refine ih _ hbatches (.next (.edit sampleSources created.latest.number "调整" operations
        sampleInput) hreach trivial ?_)
      simp only [timelines, Command.run, hwritten, Except.map]

inductive Origin (document : EditTimelineDocument) (later : EditTimelineDocument) : Prop where
  | kept (revision : TimelineRevision) (hmem : revision ∈ document.revisions)
      (hcontent : later.latest.content = revision.content)
      (hclip : later.nextClipNumber = document.nextClipNumber)
      (hbgm : later.nextBgmNumber = document.nextBgmNumber)
  | edited (sources : EpisodeSources) (operations : List TimelineOperation) (applied : AppliedBatch)
      (happlied : applyOperations document.latest.content document.nextClipNumber
        document.nextBgmNumber operations sources true = .ok applied)
      (hcontent : later.latest.content = applied.content)
      (hclip : later.nextClipNumber = applied.nextClipNumber)
      (hbgm : later.nextBgmNumber = applied.nextBgmNumber)

theorem newDocument_ok {episode : ℕ} {content : EditTimelineContent} {summary : String}
    {nextClipNumber nextBgmNumber : ℕ+} {input : CommandInput} {document : EditTimelineDocument}
    (h : newDocument episode content summary nextClipNumber nextBgmNumber input = .ok document) :
    document.latest.content = content ∧ document.nextClipNumber = nextClipNumber ∧
      document.nextBgmNumber = nextBgmNumber ∧ document.revisions = [document.latest] := by
  obtain ⟨hclip, hbgm, hrevisions⟩ := validateDocument_ok h
  have hlatest := latest_of_append (hrevisions.trans (List.nil_append _).symm)
  refine ⟨by rw [hlatest], hclip, hbgm, ?_⟩
  rw [hlatest]
  exact hrevisions

theorem edit_ok {document : EditTimelineDocument} {sources : EpisodeSources} {baseNumber : ℕ}
    {summary : String} {operations : List TimelineOperation} {input : CommandInput}
    {written : Written}
    (h : TimelineService.edit document sources baseNumber summary operations input = .ok written) :
    editSync document sources baseNumber (strip summary) operations input = .ok written := by
  unfold TimelineService.edit at h
  dsimp only at h
  split at h
  · cases h
  · split at h
    · cases h
    · exact h

theorem map_eq_ok {ε α β : Type} {f : α → β} {x : Except ε α} {b : β} :
    x.map f = .ok b ↔ ∃ a, x = .ok a ∧ f a = b := by
  cases x <;> simp [Except.map]

theorem run_ok {document later : EditTimelineDocument} {command : Command}
    (h : command.run document = .ok later) :
    Origin document later ∧ (later.revisions = [later.latest] ∨
      later.revisions = document.revisions ++ [later.latest]) := by
  cases command with
  | copy revision input =>
      simp only [Command.run, TimelineService.copy, bind_eq_ok] at h
      obtain ⟨target, htarget, hnew⟩ := h
      obtain ⟨hcontent, hclip, hbgm, hrevisions⟩ := newDocument_ok hnew
      exact ⟨.kept target (revision_mem (baseRevision_ok htarget)) hcontent hclip hbgm,
        Or.inl hrevisions⟩
  | edit sources baseNumber summary operations input =>
      obtain ⟨written, hedit, rfl⟩ := map_eq_ok.mp h
      obtain ⟨base, applied, edited⟩ := editSync_ok (edit_ok hedit)
      obtain ⟨happlied, -⟩ := applyEdit_ok edited.applied_eq
      exact ⟨.edited sources operations applied happlied edited.content_eq edited.next_clip
        edited.next_bgm, Or.inr edited.revisions_eq⟩
  | restore number input =>
      obtain ⟨written, hrestore, rfl⟩ := map_eq_ok.mp h
      obtain ⟨target, restored⟩ := restore_ok hrestore
      exact ⟨.kept target (revision_mem restored.target_eq) restored.content_eq restored.next_clip
        restored.next_bgm, Or.inr restored.revisions_eq⟩

/-- The two kinds of ids of a timeline: what carries them, what a carrier refers to, and the
allocator they are drawn from. -/
structure IdSpace where
  Item : Type
  items : EditTimelineContent → List Item
  number : Item → ℕ+
  refersTo : Item → String
  allocator : EditTimelineDocument → ℕ+
  distinct : ∀ content, ((items content).map number).Nodup
  below : ∀ document, ∀ revision ∈ document.revisions, ∀ item ∈ items revision.content,
    number item < allocator document

def mainTrack : IdSpace where
  Item := EditClip
  items content := content.clips
  number := EditClip.number
  refersTo := EditClip.unitId
  allocator := EditTimelineDocument.nextClipNumber
  distinct content := by
    have h := content.unique_clip_ids
    rw [show (fun clip : EditClip => clip.id) = ClipId.c ∘ EditClip.number from rfl,
      ← List.map_map] at h
    exact h.of_map _
  below document := document.chain.clips_below

def bgmTrack : IdSpace where
  Item := BgmClip
  items content := content.bgm
  number := BgmClip.number
  refersTo := BgmClip.bgmId
  allocator := EditTimelineDocument.nextBgmNumber
  distinct content := by
    have h := content.unique_bgm_ids
    rw [show (fun clip : BgmClip => clip.id) = ClipId.b ∘ BgmClip.number from rfl,
      ← List.map_map] at h
    exact h.of_map _
  below document := document.chain.bgm_below

namespace IdSpace

variable (space : IdSpace)

def On (document : EditTimelineDocument) (item : space.Item) : Prop :=
  ∃ revision ∈ document.revisions, item ∈ space.items revision.content

def Consistent (document : EditTimelineDocument) : Prop :=
  ∀ first second, space.On document first → space.On document second →
    space.number first = space.number second → space.refersTo first = space.refersTo second

/-- Later items are those of before, as far as number and reference go, or have newer numbers. -/
structure Extends (document later : EditTimelineDocument) : Prop where
  allocator : space.allocator document ≤ space.allocator later
  items : ∀ item, space.On later item →
    (∃ old, space.On document old ∧ space.number old = space.number item ∧
      space.refersTo old = space.refersTo item) ∨
      space.allocator document ≤ space.number item

variable {space}

theorem Extends.refl (document : EditTimelineDocument) : space.Extends document document where
  allocator := le_refl _
  items := fun item h => Or.inl ⟨item, h, rfl, rfl⟩

theorem Extends.trans {first second third : EditTimelineDocument}
    (h₁ : space.Extends first second) (h₂ : space.Extends second third) :
    space.Extends first third where
  allocator := h₁.allocator.trans h₂.allocator
  items := by
    intro item hitem
    rcases h₂.items item hitem with ⟨old, hold, hnumber, hrefers⟩ | hnew
    · rcases h₁.items old hold with ⟨older, holder, hnumber', hrefers'⟩ | hnew
      · exact Or.inl ⟨older, holder, hnumber'.trans hnumber, hrefers'.trans hrefers⟩
      · exact Or.inr (hnumber ▸ hnew)
    · exact Or.inr (h₁.allocator.trans hnew)

theorem On.below {document : EditTimelineDocument} {item : space.Item}
    (h : space.On document item) : space.number item < space.allocator document := by
  obtain ⟨revision, hrevision, hitem⟩ := h
  exact space.below document revision hrevision item hitem

theorem Extends.refersTo {document later : EditTimelineDocument}
    (hextends : space.Extends document later) (hconsistent : space.Consistent document)
    {old item : space.Item} (hold : space.On document old) (hitem : space.On later item)
    (hnumber : space.number old = space.number item) :
    space.refersTo old = space.refersTo item := by
  rcases hextends.items item hitem with ⟨older, holder, hnumber', hrefers⟩ | hnew
  · rw [← hrefers]
    exact hconsistent old older hold holder (hnumber.trans hnumber'.symm)
  · exact absurd (hnumber ▸ hold.below) (not_lt.mpr hnew)

theorem consistent_of_single {document : EditTimelineDocument}
    (h : document.revisions = [document.latest]) : space.Consistent document := by
  intro first second hfirst hsecond hnumber
  unfold On at hfirst hsecond
  rw [h] at hfirst hsecond
  simp only [List.mem_singleton, exists_eq_left] at hfirst hsecond
  rw [List.inj_on_of_nodup_map (space.distinct document.latest.content) hfirst hsecond hnumber]

theorem consistent_step {document later : EditTimelineDocument}
    (hconsistent : space.Consistent document)
    (hallocator : space.allocator document ≤ space.allocator later)
    (hlatest : ∀ item ∈ space.items later.latest.content,
      (∃ old, space.On document old ∧ space.number old = space.number item ∧
        space.refersTo old = space.refersTo item) ∨ space.allocator document ≤ space.number item)
    (hrevisions : later.revisions = [later.latest] ∨
      later.revisions = document.revisions ++ [later.latest]) :
    space.Consistent later ∧ space.Extends document later := by
  have hon : ∀ item, space.On later item →
      space.On document item ∨ item ∈ space.items later.latest.content := by
    rintro item ⟨revision, hrevision, hitem⟩
    rcases hrevisions with h | h <;> rw [h] at hrevision
    · rw [List.mem_singleton.mp hrevision] at hitem
      exact Or.inr hitem
    · rcases List.mem_append.mp hrevision with hold | hnew
      · exact Or.inl ⟨revision, hold, hitem⟩
      · rw [List.mem_singleton.mp hnew] at hitem
        exact Or.inr hitem
  have hextends : space.Extends document later := by
    refine ⟨hallocator, fun item hitem => ?_⟩
    rcases hon item hitem with hold | hnew
    · exact Or.inl ⟨item, hold, rfl, rfl⟩
    · exact hlatest item hnew
  refine ⟨fun first second hfirst hsecond hnumber => ?_, hextends⟩
  rcases hon first hfirst with hold | hnew
  · exact hextends.refersTo hconsistent hold hsecond hnumber
  · rcases hon second hsecond with hold' | hnew'
    · exact (hextends.refersTo hconsistent hold' hfirst hnumber.symm).symm
    · rw [List.inj_on_of_nodup_map (space.distinct later.latest.content) hnew hnew' hnumber]

/-- Between two states of a timeline no id changes hands: what is new has a number the earlier
allocator had not reached, and what shares its number with an earlier item refers to the same
thing. -/
structure Stable (space : IdSpace) (document later : EditTimelineDocument) : Prop where
  fresh : space.Extends document later
  same : ∀ first second, space.On document first → space.On later second →
    space.number first = space.number second → space.refersTo first = space.refersTo second

end IdSpace

theorem Origin.allocators {document later : EditTimelineDocument} (origin : Origin document later) :
    document.nextClipNumber ≤ later.nextClipNumber ∧
      document.nextBgmNumber ≤ later.nextBgmNumber := by
  cases origin with
  | kept revision hmem hcontent hclip hbgm => exact ⟨hclip.ge, hbgm.ge⟩
  | edited sources operations applied happlied hcontent hclip hbgm =>
      obtain ⟨batch, accepted⟩ := applyOperations_ok happlied
      have frame := accepted.run.frame
      rw [hclip, hbgm, accepted.next_clip, accepted.next_bgm]
      exact ⟨frame.nextClipNumber, frame.nextBgmNumber⟩

theorem Origin.clips {document later : EditTimelineDocument} (origin : Origin document later) :
    ∀ clip ∈ later.latest.content.clips,
      (∃ old, mainTrack.On document old ∧ old.number = clip.number ∧ old.unitId = clip.unitId) ∨
        document.nextClipNumber ≤ clip.number := by
  intro clip hclip
  cases origin with
  | kept revision hmem hcontent _ _ =>
      rw [hcontent] at hclip
      exact Or.inl ⟨clip, ⟨revision, hmem, hclip⟩, rfl, rfl⟩
  | edited sources operations applied happlied hcontent _ _ =>
      obtain ⟨batch, accepted⟩ := applyOperations_ok happlied
      rw [hcontent, accepted.clips_eq] at hclip
      rcases accepted.run.frame.units clip hclip with ⟨old, hold, hkept⟩ | ⟨hnew, -⟩
      · exact Or.inl ⟨old, ⟨document.latest, latest_mem, hold⟩, hkept⟩
      · exact Or.inr hnew

theorem Origin.bgm {document later : EditTimelineDocument} (origin : Origin document later) :
    ∀ clip ∈ later.latest.content.bgm,
      (∃ old, bgmTrack.On document old ∧ old.number = clip.number ∧ old.bgmId = clip.bgmId) ∨
        document.nextBgmNumber ≤ clip.number := by
  intro clip hclip
  cases origin with
  | kept revision hmem hcontent _ _ =>
      rw [hcontent] at hclip
      exact Or.inl ⟨clip, ⟨revision, hmem, hclip⟩, rfl, rfl⟩
  | edited sources operations applied happlied hcontent _ _ =>
      obtain ⟨batch, accepted⟩ := applyOperations_ok happlied
      rw [hcontent, accepted.bgm_eq, List.mem_insertionSort] at hclip
      rcases accepted.run.frame.tunes clip hclip with ⟨old, hold, hkept⟩ | ⟨hnew, -⟩
      · exact Or.inl ⟨old, ⟨document.latest, latest_mem, hold⟩, hkept⟩
      · exact Or.inr hnew

theorem consistent_run {document later : EditTimelineDocument} {command : Command}
    (h : command.run document = .ok later) (hclips : mainTrack.Consistent document)
    (hbgm : bgmTrack.Consistent document) :
    (mainTrack.Consistent later ∧ mainTrack.Extends document later) ∧
      bgmTrack.Consistent later ∧ bgmTrack.Extends document later := by
  obtain ⟨origin, hrevisions⟩ := run_ok h
  exact ⟨IdSpace.consistent_step hclips origin.allocators.1 origin.clips hrevisions,
    IdSpace.consistent_step hbgm origin.allocators.2 origin.bgm hrevisions⟩

theorem createFromScript_ok {script : EpisodeScriptUnits} {input : CommandInput}
    {document : EditTimelineDocument} (h : createFromScript script input = .ok document) :
    ∃ content, mechanicalContent script = .ok content ∧ document.latest.content = content ∧
      document.nextClipNumber = content.clips.length.succPNat ∧
      document.revisions = [document.latest] := by
  simp only [createFromScript, bind_eq_ok, mapError_eq_ok] at h
  obtain ⟨content, hcontent, hnew⟩ := h
  obtain ⟨hlatest, hclip, -, hrevisions⟩ := newDocument_ok hnew
  exact ⟨content, hcontent, hlatest, hclip, hrevisions⟩

theorem reachable_consistent {document : EditTimelineDocument}
    (hreach : timelines.Reachable document) :
    mainTrack.Consistent document ∧ bgmTrack.Consistent document := by
  refine hreach.invariant (fun document =>
    mainTrack.Consistent document ∧ bgmTrack.Consistent document) ?_ ?_
  · rintro document ⟨script, input, hcreate⟩
    obtain ⟨content, -, -, -, hrevisions⟩ := createFromScript_ok hcreate
    exact ⟨IdSpace.consistent_of_single hrevisions, IdSpace.consistent_of_single hrevisions⟩
  · intro document command later _ hconsistent _ hrun
    obtain ⟨hclips, hbgm⟩ := consistent_run hrun hconsistent.1 hconsistent.2
    exact ⟨hclips.1, hbgm.1⟩

theorem ids_stable {document later : EditTimelineDocument} (hreach : timelines.Reachable document)
    (hleads : timelines.Leads document later) :
    mainTrack.Stable document later ∧ bgmTrack.Stable document later := by
  have hextends : mainTrack.Extends document later ∧ bgmTrack.Extends document later := by
    refine hleads.respects (fun document later =>
      mainTrack.Extends document later ∧ bgmTrack.Extends document later) ?_ ?_ ?_ hreach
    · exact fun document => ⟨.refl document, .refl document⟩
    · exact fun _ _ _ h₁ h₂ => ⟨h₁.1.trans h₂.1, h₁.2.trans h₂.2⟩
    · intro document command later hreach _ hrun
      obtain ⟨hclips, hbgm⟩ := reachable_consistent hreach
      obtain ⟨h₁, h₂⟩ := consistent_run hrun hclips hbgm
      exact ⟨h₁.2, h₂.2⟩
  obtain ⟨hclips, hbgm⟩ := reachable_consistent hreach
  exact ⟨⟨hextends.1, fun _ _ h₁ h₂ => hextends.1.refersTo hclips h₁ h₂⟩,
    ⟨hextends.2, fun _ _ h₁ h₂ => hextends.2.refersTo hbgm h₁ h₂⟩⟩

theorem invariants_mono {content : EditTimelineContent} {clip clip' bgm bgm' : ℕ+}
    (h : Invariants content clip bgm) (hclip : clip ≤ clip') (hbgm : bgm ≤ bgm') :
    Invariants content clip' bgm' :=
  { h with
    clips_below := fun item hitem => (h.clips_below item hitem).trans_le hclip
    bgm_below := fun item hitem => (h.bgm_below item hitem).trans_le hbgm }

def RevisionInvariants (document : EditTimelineDocument) : Prop :=
  ∀ revision ∈ document.revisions,
    Invariants revision.content document.nextClipNumber document.nextBgmNumber

theorem mechanicalContent_invariants {script : EpisodeScriptUnits} {content : EditTimelineContent}
    (h : mechanicalContent script = .ok content) (nextBgmNumber : ℕ+) :
    Invariants content content.clips.length.succPNat nextBgmNumber := by
  obtain ⟨hclips, hbgm⟩ := validateContent_ok h
  have hclip : ∀ clip ∈ content.clips, clip.carriesNarration = true ∧
      clip.transitionToNext = none ∧ clip.number < content.clips.length.succPNat := by
    intro clip hmem
    rw [hclips] at hmem ⊢
    obtain ⟨position, hlt, rfl⟩ := List.mem_mapIdx.mp hmem
    refine ⟨rfl, rfl, ?_⟩
    rw [List.length_mapIdx, Nat.succPNat_lt_succPNat]
    exact hlt
  -- Every clip carries the narration, so the units of the clips are distinct.
  have hunits : (content.clips.map (·.unitId)).Nodup := by
    have hcarriers := content.one_narration_carrier_per_unit
    rwa [carriers, List.filter_eq_self.mpr fun clip hmem => (hclip clip hmem).1] at hcarriers
  refine ⟨content.unique_clip_ids, content.unique_bgm_ids, ?_, ?_, ?_, ?_⟩
  · intro clip hmem
    have hcount : content.clips.countP (carriesFor clip.unitId) =
        (content.clips.map (·.unitId)).count clip.unitId := by
      rw [List.count, List.countP_map]
      refine List.countP_congr fun other hother => ?_
      simp [carriesFor, (hclip other hother).1]
    rw [hcount]
    exact List.count_eq_one_of_mem hunits (List.mem_map_of_mem hmem)
  · exact fun clip hlast => (hclip clip (List.mem_of_getLast? hlast)).2.1
  · exact fun clip hmem => (hclip clip hmem).2.2
  · rw [hbgm]
    simp

theorem reachable_invariants {document : EditTimelineDocument}
    (hreach : timelines.Reachable document) : RevisionInvariants document := by
  refine hreach.invariant RevisionInvariants ?_ ?_
  · rintro document ⟨script, input, hcreate⟩ revision hrevision
    obtain ⟨content, hcontent, hlatest, hclip, hrevisions⟩ := createFromScript_ok hcreate
    rw [hrevisions] at hrevision
    rw [List.mem_singleton.mp hrevision, hlatest, hclip]
    exact mechanicalContent_invariants hcontent _
  · intro document command later _ hinvariants _ hrun
    obtain ⟨origin, hrevisions⟩ := run_ok hrun
    obtain ⟨hclip, hbgm⟩ := origin.allocators
    have hlatest : Invariants later.latest.content later.nextClipNumber later.nextBgmNumber := by
      cases origin with
      | kept revision hmem hcontent _ _ =>
          rw [hcontent]
          exact invariants_mono (hinvariants revision hmem) hclip hbgm
      | edited sources operations applied happlied hcontent hclip hbgm =>
          rw [hcontent, hclip, hbgm]
          exact invariants_applyOperations (hinvariants document.latest latest_mem) happlied
    intro revision hrevision
    rcases hrevisions with h | h <;> rw [h] at hrevision
    · rw [List.mem_singleton.mp hrevision]
      exact hlatest
    · rcases List.mem_append.mp hrevision with hold | hnew
      · exact invariants_mono (hinvariants revision hold) hclip hbgm
      · rw [List.mem_singleton.mp hnew]
        exact hlatest

/-- Accepted batches keep the invariants of a content, and along every run of creating, copying,
editing and restoring no id is ever given to another clip. -/
theorem invariants_and_stable_ids :
    (∀ (content : EditTimelineContent) (nextClipNumber nextBgmNumber : ℕ+)
      (operations : List TimelineOperation) (sources : EpisodeSources) (checkWindows : Bool)
      (applied : AppliedBatch),
      Invariants content nextClipNumber nextBgmNumber →
      applyOperations content nextClipNumber nextBgmNumber operations sources checkWindows =
        .ok applied →
      Invariants applied.content applied.nextClipNumber applied.nextBgmNumber) ∧
    ∀ document later, timelines.Reachable document → timelines.Leads document later →
      mainTrack.Stable document later ∧ bgmTrack.Stable document later :=
  ⟨fun _ _ _ _ _ _ _ hinvariants happly => invariants_applyOperations hinvariants happly,
    fun _ _ hreach hleads => ids_stable hreach hleads⟩

theorem invariants_and_stable_ids_sample :
    ∃ document later applied, createFromScript sampleScript sampleInput = .ok document ∧
      applyOperations document.latest.content document.nextClipNumber document.nextBgmNumber
        [.delete (.c 1)] sampleSources = .ok applied ∧
      Invariants applied.content applied.nextClipNumber applied.nextBgmNumber ∧
      Command.run document (.edit sampleSources 1 "换单元"
        [.delete (.c 1), .insert { unitId := "E1S01", after := none }] sampleInput) = .ok later ∧
      mainTrack.Stable document later := by
  let batch : Command := .edit sampleSources 1 "换单元"
    [.delete (.c 1), .insert { unitId := "E1S01", after := none }] sampleInput
  obtain ⟨⟨later, applied⟩, h⟩ := exists_of_isOk (x := do
    let document ← createFromScript sampleScript sampleInput
    let later ← batch.run document
    let applied ← applyTo document sampleSources document.latest.content [.delete (.c 1)] true
    return (later, applied)) (by decide +kernel)
  simp only [bind_eq_ok] at h
  obtain ⟨document, hcreate, _, hlater, _, happlied, heq⟩ := h
  cases heq
  have hreach : timelines.Reachable document := .start ⟨_, _, hcreate⟩
  refine ⟨document, later, applied, hcreate, applyTo_ok happlied, ?_, hlater, ?_⟩
  · exact invariants_and_stable_ids.1 _ _ _ _ _ _ _
      (reachable_invariants hreach _ latest_mem) (applyTo_ok happlied)
  · exact (invariants_and_stable_ids.2 document later hreach
      (Relation.ReflTransGen.single ⟨batch, trivial, hlater⟩)).1

end ShortReel.TimelineHistories
