import ShortReel.IntervalTracks
import ShortReel.TimelinePlacement

/-!
# Tracks of a draft

`stack_tracks` of `placement.py`: narrations and subtitles that may overlap, spread over tracks.
What a draft places is never empty, so it gets no track more than it needs.
-/

namespace ShortReel.TrackStacks

open IntervalTracks TimelineModel TimelinePlacement

/-- `stack_tracks`, of items with a start and an end. -/
def stackTracks {α τ : Type} [LinearOrder τ] (startUs endUs : α → τ) (items : List α) :
    List (List α) :=
  (items.insertionSort fun first second => startUs first ≤ startUs second).foldl
    (fun tracks item => put startUs endUs item tracks) []

def PlacedNarration.endUs (narration : PlacedNarration) : ℕ :=
  narration.startUs + narration.durationUs

def PlacedSubtitle.endUs (subtitle : PlacedSubtitle) : ℕ :=
  subtitle.startUs + subtitle.durationUs

/-- The tracks hold the items, do not overlap, and are as many as the items are deep. -/
theorem stackTracks_minimal {α τ : Type} [LinearOrder τ] [Nonempty τ] {startUs endUs : α → τ}
    {items : List α} (hitems : ∀ item ∈ items, startUs item < endUs item) :
    (stackTracks startUs endUs items).flatten.Perm items ∧
      (∀ track ∈ stackTracks startUs endUs items,
        track.Pairwise fun first second => endUs first ≤ startUs second) ∧
      IsGreatest (Set.range fun time =>
          items.countP fun item => startUs item ≤ time ∧ time < endUs item)
        (stackTracks startUs endUs items).length := by
  have hstacked : Stacked startUs endUs items (stackTracks startUs endUs items) :=
    stacked_firstFit startUs endUs hitems
  exact ⟨hstacked.perm, hstacked.disjoint, hstacked.isGreatest⟩

theorem stackTracks_minimal_three :
    (stackTracks PlacedSubtitle.startUs PlacedSubtitle.endUs
        [⟨4, 3, "c"⟩, ⟨0, 4, "a"⟩, ⟨2, 5, "b"⟩]).length = 2 ∧
      IsGreatest (Set.range fun time =>
          ([⟨4, 3, "c"⟩, ⟨0, 4, "a"⟩, ⟨2, 5, "b"⟩] : List PlacedSubtitle).countP fun item =>
            item.startUs ≤ time ∧ time < PlacedSubtitle.endUs item)
        (stackTracks PlacedSubtitle.startUs PlacedSubtitle.endUs
          [⟨4, 3, "c"⟩, ⟨0, 4, "a"⟩, ⟨2, 5, "b"⟩]).length :=
  ⟨by decide, (stackTracks_minimal (by decide)).2.2⟩

/-- What a draft places of its narrations, or of its subtitles. -/
structure Tracked {α : Type} (startUs endUs : α → ℕ) (durationUs : ℕ) (items : List α) : Prop where
  inside : ∀ item ∈ items, startUs item < endUs item ∧ endUs item ≤ durationUs
  stacked : Stacked startUs endUs items (stackTracks startUs endUs items)

theorem tracked_withinTimeline {α : Type} {startUs lengthUs : α → ℕ} {withLength : α → ℕ → α}
    (hstart : ∀ item length, startUs (withLength item length) = startUs item)
    (hlength : ∀ item length, lengthUs (withLength item length) = length) (items : List α)
    (durationUs : ℕ) :
    Tracked startUs (fun item => startUs item + lengthUs item) durationUs
      (withinTimeline startUs lengthUs withLength items durationUs) := by
  have hinside : ∀ item ∈ withinTimeline startUs lengthUs withLength items durationUs,
      startUs item < startUs item + lengthUs item ∧ startUs item + lengthUs item ≤ durationUs := by
    intro item hitem
    obtain ⟨whole, -, hplaced⟩ := List.mem_filterMap.mp hitem
    dsimp only at hplaced
    split at hplaced
    · rename_i hlt
      cases hplaced
      rw [hstart, hlength]
      omega
    · cases hplaced
  exact ⟨hinside, stacked_firstFit _ _ fun item hitem => (hinside item hitem).1⟩

/-- The tracks of every draft hold what is placed, inside the timeline and without an overlap, and are no
more than it is deep. -/
theorem placeTimeline_tracked (content : EditTimelineContent) (units : List (String × UnitMaterial))
    (bgmSources : List (String × BgmSource)) :
    let placed := placeTimeline content units bgmSources
    Tracked PlacedNarration.startUs PlacedNarration.endUs placed.durationUs placed.narrations ∧
      Tracked PlacedSubtitle.startUs PlacedSubtitle.endUs placed.durationUs placed.subtitles :=
  ⟨@tracked_withinTimeline PlacedNarration PlacedNarration.startUs PlacedNarration.durationUs
      (fun item durationUs => { item with durationUs }) (fun _ _ => rfl) (fun _ _ => rfl) _ _,
    @tracked_withinTimeline PlacedSubtitle PlacedSubtitle.startUs PlacedSubtitle.durationUs
      (fun item durationUs => { item with durationUs }) (fun _ _ => rfl) (fun _ _ => rfl) _ _⟩

end ShortReel.TrackStacks
