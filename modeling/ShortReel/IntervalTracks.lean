import Mathlib.Algebra.BigOperators.Group.List.Basic
import Mathlib.Data.List.Induction
import Mathlib.Data.List.Sort
import Mathlib.Order.Bounds.Basic

/-!
# First-fit tracks of intervals

Intervals with a start and a stop in a linear order, put one by one on the first track that is free
by then. Taken by their starts, they need as many tracks as intervals ever run at one time.
-/

namespace ShortReel.IntervalTracks

section Tracks

variable {α τ : Type} [LinearOrder τ] (start stop : α → τ)

def FreeAt (time : τ) (track : List α) : Prop :=
  ∀ last ∈ track.getLast?, stop last ≤ time

instance (time : τ) (track : List α) : Decidable (FreeAt stop time track) :=
  inferInstanceAs (Decidable (∀ last ∈ track.getLast?, stop last ≤ time))

/-- The item at the end of the first free track, or on a new track behind the others. -/
def put (item : α) : List (List α) → List (List α)
  | [] => [[item]]
  | track :: tracks =>
      if FreeAt stop (start item) track then (track ++ [item]) :: tracks
      else track :: put item tracks

def firstFit (items : List α) : List (List α) :=
  items.foldl (fun tracks item => put start stop item tracks) []

def byStart (items : List α) : List α :=
  items.insertionSort fun first second => start first ≤ start second

def depthAt (items : List α) (time : τ) : ℕ :=
  items.countP fun item => start item ≤ time ∧ time < stop item

def Disjoint (track : List α) : Prop :=
  track.Pairwise fun first second => stop first ≤ start second

theorem flatten_put (item : α) (tracks : List (List α)) :
    (put start stop item tracks).flatten.Perm (item :: tracks.flatten) := by
  induction tracks with
  | nil => exact .refl _
  | cons track tracks ih =>
      rw [put]
      split
      · rw [List.flatten_cons, List.append_assoc, List.singleton_append]
        exact List.perm_middle
      · rw [List.flatten_cons, List.flatten_cons]
        exact (ih.append_left track).trans List.perm_middle

theorem length_put (item : α) (tracks : List (List α)) :
    (put start stop item tracks).length = tracks.length ∨
      ((put start stop item tracks).length = tracks.length + 1 ∧
        ∀ track ∈ tracks, ¬ FreeAt stop (start item) track) := by
  induction tracks with
  | nil => exact Or.inr ⟨rfl, fun _ h => absurd h List.not_mem_nil⟩
  | cons track tracks ih =>
      rw [put]
      split
      · exact Or.inl rfl
      · rename_i hfree
        rcases ih with hlength | ⟨hlength, hnone⟩
        · exact Or.inl (congrArg (· + 1) hlength)
        · refine Or.inr ⟨congrArg (· + 1) hlength, ?_⟩
          rw [List.forall_mem_cons]
          exact ⟨hfree, hnone⟩

section Implicit

variable {start stop}

theorem stop_le_of_freeAt {item : α} {track : List α} (hdisjoint : Disjoint start stop track)
    (hstarts : ∀ other ∈ track, start other ≤ start item)
    (hfree : FreeAt stop (start item) track) : ∀ other ∈ track, stop other ≤ start item := by
  induction track using List.reverseRecOn with
  | nil => exact fun other hother => absurd hother List.not_mem_nil
  | append_singleton track last =>
      have hlast : stop last ≤ start item := hfree last List.getLast?_concat
      intro other hother
      rcases List.mem_append.mp hother with hother | hother
      · have hbefore := (List.pairwise_append.mp hdisjoint).2.2 other hother last
          (List.mem_singleton_self last)
        exact hbefore.trans (hstarts last (List.mem_append_right _ (List.mem_singleton_self last)))
      · rwa [List.mem_singleton.mp hother]

theorem disjoint_put {item : α} {tracks : List (List α)}
    (hdisjoint : ∀ track ∈ tracks, Disjoint start stop track)
    (hstarts : ∀ other ∈ tracks.flatten, start other ≤ start item) :
    ∀ track ∈ put start stop item tracks, Disjoint start stop track := by
  induction tracks with
  | nil =>
      rintro track htrack
      rw [List.mem_singleton.mp htrack]
      exact List.pairwise_singleton _ _
  | cons first tracks ih =>
      rw [List.forall_mem_cons] at hdisjoint
      rw [List.flatten_cons] at hstarts
      rw [put]
      split
      · rename_i hfree
        rw [List.forall_mem_cons]
        refine ⟨List.pairwise_append.mpr ⟨hdisjoint.1, List.pairwise_singleton _ _, ?_⟩, hdisjoint.2⟩
        intro other hother next hnext
        rw [List.mem_singleton.mp hnext]
        exact stop_le_of_freeAt hdisjoint.1
          (fun other hother => hstarts other (List.mem_append_left _ hother)) hfree other hother
      · rw [List.forall_mem_cons]
        exact ⟨hdisjoint.1,
          ih hdisjoint.2 fun other hother => hstarts other (List.mem_append_right _ hother)⟩

theorem depthAt_perm {first second : List α} (h : first.Perm second) (time : τ) :
    depthAt start stop first time = depthAt start stop second time :=
  h.countP_eq _

theorem depthAt_le_one {track : List α} (h : Disjoint start stop track) (time : τ) :
    depthAt start stop track time ≤ 1 := by
  induction track with
  | nil => exact Nat.zero_le 1
  | cons item track ih =>
      obtain ⟨hitem, htrack⟩ := List.pairwise_cons.mp h
      unfold depthAt
      rw [List.countP_cons]
      split
      · rename_i hruns
        have hrest : track.countP (fun item => start item ≤ time ∧ time < stop item) = 0 := by
          rw [List.countP_eq_zero]
          intro other hother hother'
          have hafter := hitem other hother
          simp only [decide_eq_true_eq] at hruns hother'
          exact absurd (hother'.1.trans_lt hruns.2) (not_lt.mpr hafter)
        rw [hrest]
      · exact ih htrack

theorem depthAt_flatten_le {tracks : List (List α)}
    (h : ∀ track ∈ tracks, Disjoint start stop track) (time : τ) :
    depthAt start stop tracks.flatten time ≤ tracks.length := by
  induction tracks with
  | nil => exact Nat.zero_le 0
  | cons track tracks ih =>
      rw [List.forall_mem_cons] at h
      have hone := depthAt_le_one h.1 time
      have hrest := ih h.2
      rw [List.flatten_cons, depthAt, List.countP_append, List.length_cons]
      unfold depthAt at hone hrest
      omega

theorem le_depthAt_flatten {tracks : List (List α)} {time : τ}
    (h : ∀ track ∈ tracks, ∃ item ∈ track, start item ≤ time ∧ time < stop item) :
    tracks.length ≤ depthAt start stop tracks.flatten time := by
  induction tracks with
  | nil => exact Nat.zero_le _
  | cons track tracks ih =>
      rw [List.forall_mem_cons] at h
      obtain ⟨⟨item, hitem, hruns⟩, hrest⟩ := h
      have hone : 0 < track.countP fun item => start item ≤ time ∧ time < stop item :=
        List.countP_pos_iff.mpr ⟨item, hitem, decide_eq_true hruns⟩
      have := ih hrest
      rw [List.flatten_cons, depthAt, List.countP_append, List.length_cons]
      unfold depthAt at this
      omega

theorem exists_runs_of_not_freeAt {item : α} {track : List α}
    (hstarts : ∀ other ∈ track, start other ≤ start item)
    (h : ¬ FreeAt stop (start item) track) :
    ∃ other ∈ track, start other ≤ start item ∧ start item < stop other := by
  simp only [FreeAt, not_forall, not_le] at h
  obtain ⟨last, hlast, hlate⟩ := h
  have hmem := List.mem_of_getLast? hlast
  exact ⟨last, hmem, hstarts last hmem, hlate⟩

end Implicit

/-- The tracks after some items: all of them apart, and no track was opened in vain. -/
structure Stacked (items : List α) (tracks : List (List α)) : Prop where
  perm : tracks.flatten.Perm items
  disjoint : ∀ track ∈ tracks, Disjoint start stop track
  needed : ∃ time, tracks.length ≤ depthAt start stop items time

theorem Stacked.put {start stop : α → τ} {items : List α} {tracks : List (List α)} {item : α}
    (h : Stacked start stop items tracks) (hstarts : ∀ other ∈ items, start other ≤ start item)
    (hitem : start item < stop item) :
    Stacked start stop (items ++ [item]) (put start stop item tracks) := by
  have hperm := (flatten_put start stop item tracks).trans (h.perm.cons item)
  have hall : ∀ other ∈ tracks.flatten, start other ≤ start item := fun other hother =>
    hstarts other (h.perm.mem_iff.mp hother)
  refine ⟨hperm.trans (List.perm_append_singleton item items).symm, disjoint_put h.disjoint hall, ?_⟩
  rcases length_put start stop item tracks with hlength | ⟨hlength, hnone⟩
  · obtain ⟨time, htime⟩ := h.needed
    refine ⟨time, hlength ▸ htime.trans ?_⟩
    rw [depthAt, depthAt, List.countP_append]
    exact Nat.le_add_right _ _
  · -- When the item starts, something runs on every track, and the item itself.
    refine ⟨start item, ?_⟩
    have hruns : ∀ track ∈ tracks,
        ∃ other ∈ track, start other ≤ start item ∧ start item < stop other := fun track htrack =>
      exists_runs_of_not_freeAt
        (fun other hother => hall other (List.mem_flatten.mpr ⟨track, htrack, hother⟩))
        (hnone track htrack)
    have hdepth := le_depthAt_flatten hruns
    rw [depthAt_perm h.perm] at hdepth
    have hnew : depthAt start stop [item] (start item) = 1 := by
      simp [depthAt, hitem]
    rw [hlength, depthAt, List.countP_append]
    unfold depthAt at hdepth hnew
    omega

theorem stacked_foldl {items seen : List α} {tracks : List (List α)}
    (hseen : Stacked start stop seen tracks)
    (hsorted : (seen ++ items).Pairwise fun first second => start first ≤ start second)
    (hitems : ∀ item ∈ items, start item < stop item) :
    Stacked start stop (seen ++ items)
      (items.foldl (fun tracks item => IntervalTracks.put start stop item tracks) tracks) := by
  induction items generalizing seen tracks with
  | nil => rwa [List.append_nil]
  | cons item items ih =>
      rw [List.forall_mem_cons] at hitems
      have hbefore : ∀ other ∈ seen, start other ≤ start item := fun other hother =>
        (List.pairwise_append.mp hsorted).2.2 other hother item List.mem_cons_self
      rw [List.append_cons] at hsorted ⊢
      exact ih (hseen.put hbefore hitems.1) hsorted hitems.2

theorem perm_byStart (items : List α) : (byStart start items).Perm items :=
  List.perm_insertionSort _ items

theorem pairwise_byStart (items : List α) :
    (byStart start items).Pairwise fun first second => start first ≤ start second :=
  haveI : Std.Total fun first second : α => start first ≤ start second :=
    ⟨fun first second => le_total (start first) (start second)⟩
  haveI : IsTrans α fun first second => start first ≤ start second :=
    ⟨fun _ _ _ => le_trans⟩
  List.pairwise_insertionSort _ items

theorem stacked_firstFit [Nonempty τ] {items : List α}
    (h : ∀ item ∈ items, start item < stop item) :
    Stacked start stop items (firstFit start stop (byStart start items)) := by
  have hperm := perm_byStart start items
  have hstart : Stacked start stop [] [] :=
    ⟨.refl _, fun _ h => absurd h List.not_mem_nil, ⟨Classical.arbitrary τ, Nat.zero_le _⟩⟩
  obtain ⟨hflat, hdisjoint, time, hneeded⟩ := stacked_foldl start stop hstart
    (pairwise_byStart start items) fun item hitem => h item (hperm.mem_iff.mp hitem)
  exact ⟨hflat.trans hperm, hdisjoint, time, hneeded.trans_eq (depthAt_perm hperm time)⟩

theorem Stacked.isGreatest {start stop : α → τ} {items : List α} {tracks : List (List α)}
    (h : Stacked start stop items tracks) :
    IsGreatest (Set.range (depthAt start stop items)) tracks.length := by
  have hle : ∀ time, depthAt start stop items time ≤ tracks.length := fun time => by
    rw [← depthAt_perm h.perm]
    exact depthAt_flatten_le h.disjoint time
  constructor
  · obtain ⟨time, htime⟩ := h.needed
    exact ⟨time, le_antisymm (hle time) htime⟩
  · rintro depth ⟨time, rfl⟩
    exact hle time

end Tracks

end ShortReel.IntervalTracks
