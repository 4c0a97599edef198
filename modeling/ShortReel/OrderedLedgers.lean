import ShortReel.LedgerPlacements

/-!
# Ledgers in source order

When the cut episodes of a ledger follow each other in the source, `cut_episode_placements` places
each of them where its range says.
-/

namespace ShortReel.OrderedLedgers

open SourceRemap SourcePlaces CutPlacements EpisodeLedger LedgerPlacements

def cutPlace (docs : List SourceDoc) (entry : LedgerEntry) : Option Place :=
  if isCutEpisode entry then (parseSourceRange entry).bind (place docs) else none

/-- Each cut episode has a range in the bounds of the source, and none starts ahead of the end of the
one in front of it. -/
structure InOrder (docs : List SourceDoc) (entries : List LedgerEntry) : Prop where
  placed : ∀ entry ∈ entries, isCutEpisode entry = true →
    ∃ p, cutPlace docs entry = some p ∧ p.InBounds docs
  before : (entries.filterMap (cutPlace docs)).Pairwise Place.Before

variable {docs : List SourceDoc}

theorem cutPlace_eq_some_iff {entry : LedgerEntry} {p : Place} :
    cutPlace docs entry = some p ↔ isCutEpisode entry = true ∧
      ∃ range, parseSourceRange entry = some range ∧ place docs range = some p := by
  unfold cutPlace
  by_cases hcut : isCutEpisode entry = true
  · rw [if_pos hcut, Option.bind_eq_some_iff]
    exact (and_iff_right hcut).symm
  · rw [if_neg hcut]
    exact iff_of_false (by simp) fun h => hcut h.1

theorem candidate_of_inBounds {episode : ℕ} {range : SourceSpan} {p : Place}
    (hplace : place docs range = some p) (hp : p.InBounds docs) :
    candidate docs (episode, range) = some ⟨episode, p⟩ := by
  obtain ⟨hfirst, hlast, hstart, hstop⟩ := place_eq_some_iff.mp hplace
  have hordered := hp.ordered
  have hends : ¬ (p.first = p.last ∧ p.stop < p.start) := fun h => by
    have := hordered h.1
    omega
  unfold candidate
  simp only [hfirst, hlast, hstart, hstop, Option.bind_eq_bind, Option.bind_some]
  rw [if_neg (Nat.not_lt.mpr hp.first_le), if_neg (Nat.not_lt.mpr hp.start_le), if_neg hends,
    Nat.min_eq_left hp.stop_le]
  rfl

def placementOf (docs : List SourceDoc) (entry : LedgerEntry) : Option CutPlacement :=
  (cutPlace docs entry).map fun p => ⟨entry.episode, p⟩

theorem cutPlacement_eq {entry : LedgerEntry}
    (hplaced : isCutEpisode entry = true → ∃ p, cutPlace docs entry = some p ∧ p.InBounds docs) :
    cutPlacement docs entry = placementOf docs entry := by
  unfold cutPlacement cutRange placementOf
  by_cases hcut : isCutEpisode entry = true
  · obtain ⟨p, hplace, hp⟩ := hplaced hcut
    obtain ⟨-, range, hrange, hat⟩ := cutPlace_eq_some_iff.mp hplace
    rw [if_pos hcut, hrange, hplace, Option.map_some, Option.bind_some, Option.map_some]
    exact candidate_of_inBounds hat hp
  · have hnone : cutPlace docs entry = none := if_neg hcut
    rw [if_neg hcut, hnone]
    rfl

theorem sortKey_of_before {a b : CutPlacement} (ha : a.place.InBounds docs)
    (hb : b.place.InBounds docs) (h : a.place.Before b.place) : sortKey a b = true := by
  have hfirst := ha.first_le
  have hordered := ha.ordered
  have hfirst' := hb.first_le
  have hordered' := hb.ordered
  unfold Place.Before at h
  rw [sortKey_iff, earlier_iff, not_earlier_iff, Prod.ext_iff]
  simp only [CutPlacement.position, CutPlacement.endPosition]
  omega

section Placements

variable {project : Project} (hids : project.ids.Nodup)
  (horder : InOrder project.docs project.entries)
include hids horder

theorem placements_of_inOrder :
    project.placements = project.entries.filterMap (placementOf project.docs) := by
  have hcandidates : (project.entries.filterMap cutRange).filterMap (candidate project.docs) =
      project.entries.filterMap (placementOf project.docs) := by
    rw [List.filterMap_filterMap]
    exact List.filterMap_congr fun entry hentry => cutPlacement_eq (horder.placed entry hentry)
  have hitems : ∀ item ∈ project.entries.filterMap (placementOf project.docs),
      item.place.InBounds project.docs := by
    intro item hitem
    obtain ⟨entry, hentry, hplacement⟩ := List.mem_filterMap.mp hitem
    rw [← cutPlacement_eq (horder.placed entry hentry)] at hplacement
    exact cutPlacement_inBounds hplacement
  have hplaces : (project.entries.filterMap (placementOf project.docs)).map (·.place) =
      project.entries.filterMap (cutPlace project.docs) := by
    rw [List.map_filterMap]
    refine List.filterMap_congr fun entry _ => ?_
    rw [placementOf, Option.map_map]
    exact Option.map_id'
  have hbefore : (project.entries.filterMap (placementOf project.docs)).Pairwise
      fun a b => a.place.Before b.place := List.pairwise_map.mp (hplaces ▸ horder.before)
  have hsorted := hbefore.imp_of_mem fun {a b} ha hb h =>
    sortKey_of_before (hitems a ha) (hitems b hb) h
  have hepisodes : ((project.entries.filterMap (placementOf project.docs)).map
      (·.episode)).Nodup := by
    refine List.Nodup.sublist (map_filterMap_sublist fun entry item h => ?_) hids
    obtain ⟨p, -, rfl⟩ := Option.map_eq_some_iff.mp h
    rfl
  unfold Project.placements cutEpisodePlacements
  rw [hcandidates, List.mergeSort_of_pairwise hsorted]
  refine placeCandidates_all hbefore hepisodes (fun item _ => ?_) fun _ _ => List.not_mem_nil
  rw [← Bool.not_eq_true, earlier_iff]
  omega

theorem find_placement {entry : LedgerEntry} (hentry : entry ∈ project.entries) :
    project.placements.find? (·.episode = entry.episode) = placementOf project.docs entry := by
  rw [placements_of_inOrder hids horder]
  cases hplacement : placementOf project.docs entry with
  | none =>
      refine List.find?_eq_none.mpr fun item hitem hsame => ?_
      obtain ⟨other, hother, hat⟩ := List.mem_filterMap.mp hitem
      obtain ⟨p, -, rfl⟩ := Option.map_eq_some_iff.mp hat
      rw [List.inj_on_of_nodup_map hids hother hentry (of_decide_eq_true hsame), hplacement] at hat
      cases hat
  | some item =>
      obtain ⟨p, -, rfl⟩ := Option.map_eq_some_iff.mp hplacement
      have hmem := List.mem_filterMap.mpr ⟨entry, hentry, hplacement⟩
      obtain ⟨found, hfound⟩ := Option.isSome_iff_exists.mp
        (List.find?_isSome.mpr ⟨_, hmem, decide_eq_true rfl⟩ :
          (List.find? (fun item : CutPlacement => decide (item.episode = entry.episode))
            (project.entries.filterMap (placementOf project.docs))).isSome = true)
      have hsame := List.find?_some hfound
      obtain ⟨other, hother, hat⟩ := List.mem_filterMap.mp (List.mem_of_find?_eq_some hfound)
      have hepisode : found.episode = other.episode := by
        obtain ⟨q, -, rfl⟩ := Option.map_eq_some_iff.mp hat
        rfl
      have hentries : other = entry := List.inj_on_of_nodup_map hids hother hentry
        (hepisode.symm.trans (of_decide_eq_true hsame))
      rw [hentries, hplacement] at hat
      rw [hfound, hat]

end Placements

end ShortReel.OrderedLedgers
