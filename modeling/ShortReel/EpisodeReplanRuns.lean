import ShortReel.EpisodeReplanLedgers
import ShortReel.HighWaterRuns

/-!
# Adoptions of a candidate

`adopt_replan_candidate` with the revision of its own impact goes through, and each adoption that goes
through leaves a ledger in order.
-/

namespace ShortReel.EpisodeReplan

open SourceRemap SourcePlaces CutPlacements EpisodeLedger LedgerPlacements OrderedLedgers
open ManualSplitSafety

section Positions

variable {docs : List SourceDoc} {candidate : ReplanCandidate} {start : ℕ × ℕ}
  {positions : List (ℕ × ℕ × ℕ)}

theorem candidatePositions_length (h : candidatePositions docs candidate = some positions) :
    candidate.episodes.length = positions.length :=
  (mapM_eq_some_iff.mp h).length_eq

theorem sourcePosition_eq {range : SourceSpan} {p : Place} (hplace : place docs range = some p)
    (hfile : p.first = p.last) :
    sourcePosition docs range = some (p.first, p.start, p.stop) := by
  obtain ⟨hfirst, hlast, hstart, hstop⟩ := place_eq_some_iff.mp hplace
  have hsame : range.endFile = range.sourceFile := by
    have hend := getElem?_of_index hlast
    rw [← hfile, getElem?_of_index hfirst] at hend
    exact (Option.some.inj hend).symm
  unfold sourcePosition
  rw [hfirst, Option.bind_eq_bind, Option.bind_some, if_pos hsame, hstart, hstop]
  rfl

theorem exists_candidatePositions (hfollows : FollowsStart docs candidate start) :
    ∃ positions, candidatePositions docs candidate = some positions := by
  refine exists_mapM fun draft hdraft => ?_
  obtain ⟨p, hp, hfile, -, -⟩ := hfollows.placed draft hdraft
  obtain ⟨range, hspan, hplace⟩ := Option.bind_eq_some_iff.mp hp
  rw [hspan]
  exact ⟨_, sourcePosition_eq hplace hfile⟩

theorem exists_candidateCursor (hfollows : FollowsStart docs candidate start) :
    ∃ cursor, candidateCursor candidate = some cursor := by
  obtain ⟨found, hfound, -⟩ := Option.bind_eq_some_iff.mp hfollows.starts
  unfold candidateCursor
  split
  · rename_i draft hlast
    obtain ⟨p, hp, -⟩ := hfollows.placed draft (List.mem_of_getLast? hlast)
    obtain ⟨range, hspan, -⟩ := Option.bind_eq_some_iff.mp hp
    exact ⟨_, congrArg (Option.map _) hspan⟩
  · exact ⟨found, hfound⟩

end Positions

section Plans

variable {prints : Fingerprints} {project : Project} {candidate : ReplanCandidate}
  {start : ℕ × ℕ}

theorem orThrow_ok {α : Type} {error : ReplanError} {found : Option α} {a : α}
    (h : orThrow error found = .ok a) : found = some a := by
  cases found with
  | none => cases h
  | some b => exact congrArg some (Except.ok.inj h)

theorem exists_planAdoption
    (hwell : project.wellFormedLedgerEntries = some project.entries)
    (hfollows : FollowsStart project.docs candidate start) (hepisodes : candidate.episodes ≠ [])
    (hfresh : candidateStaleness prints project candidate = none) :
    ∃ adoption, planAdoption prints project candidate = .ok adoption := by
  obtain ⟨positions, hpositions⟩ := exists_candidatePositions hfollows
  obtain ⟨⟨sourceFile, offset⟩, hstart, hat⟩ := Option.bind_eq_some_iff.mp hfollows.starts
  obtain ⟨i, hindex, -⟩ := Option.map_eq_some_iff.mp hat
  obtain ⟨cursor, hcursor⟩ : ∃ cursor, coverage candidate (sourceFile, offset) = some cursor := by
    unfold coverage
    split_ifs
    · exact ⟨_, rfl⟩
    · exact exists_candidateCursor hfollows
  obtain ⟨head, hhead⟩ : ∃ head, positions.head? = some head := by
    rw [← Option.isSome_iff_exists, List.isSome_head?, ← List.length_pos_iff,
      ← candidatePositions_length hpositions, List.length_pos_iff]
    exact hepisodes
  unfold planAdoption requireFresh
  rw [hfresh, hpositions, hwell, hstart]
  exact ⟨_, by simp only [orThrow, pure_bind, hhead, hindex, hcursor]; rfl⟩

theorem planAdoption_ok {adoption : Adoption}
    (hfollows : FollowsStart project.docs candidate start)
    (h : planAdoption prints project candidate = .ok adoption) :
    ∃ positions cursor, candidatePositions project.docs candidate = some positions ∧
      positions ≠ [] ∧ adoption = adoptionOf project candidate positions start cursor := by
  obtain ⟨-, -, h⟩ := bind_eq_ok.mp h
  obtain ⟨positions, hpositions, h⟩ := bind_eq_ok.mp h
  obtain ⟨head, hhead, h⟩ := bind_eq_ok.mp h
  obtain ⟨-, -, h⟩ := bind_eq_ok.mp h
  obtain ⟨found, hfound, h⟩ := bind_eq_ok.mp h
  obtain ⟨i, hindex, h⟩ := bind_eq_ok.mp h
  obtain ⟨cursor, -, h⟩ := bind_eq_ok.mp h
  cases h
  have hstart := hfollows.starts
  unfold startPosition at hstart
  rw [orThrow_ok hfound, Option.bind_some, orThrow_ok hindex] at hstart
  obtain rfl := Option.some.inj hstart
  refine ⟨positions, _, orThrow_ok hpositions, ?_, rfl⟩
  rintro rfl
  cases orThrow_ok hhead

theorem adoptionImpact_ok {adoption : Adoption} {impact : ReplanAdoptionImpact}
    (h : adoptionImpact prints project candidate = .ok (adoption, impact)) :
    planAdoption prints project candidate = .ok adoption := by
  obtain ⟨planned, hplanned, h⟩ := bind_eq_ok.mp h
  cases h
  exact hplanned

theorem adoptionImpact_raise : adoptionImpact prints project.raiseEpisodeIdHighWater candidate =
    adoptionImpact prints project candidate := by
  unfold adoptionImpact
  simp only [prints.loss_raise]
  rfl

end Plans

section Runs

variable {prints : Fingerprints} {project after : Project} {candidate : ReplanCandidate}
  {start : ℕ × ℕ} {candidateId : String} {revision : Option String} {impact : ReplanAdoptionImpact}
  {newIds : List ℕ}

theorem requireCandidate_ok {stored : Stored} {found : ReplanCandidate}
    (hcandidate : stored.candidate = some candidate)
    (h : requireCandidate stored candidateId = .ok found) : found = candidate := by
  have hfound := orThrow_ok h
  rw [hcandidate] at hfound
  exact (Option.some.inj (Option.filter_eq_some_iff.mp hfound).1).symm

theorem commitAdoption_ok {plannedFirst : ℕ}
    (hfollows : FollowsStart project.docs candidate start)
    (hcommit : commitAdoption prints candidateId revision plannedFirst (some candidate) project =
      .ok ((impact, newIds), after)) :
    ∃ positions cursor, candidatePositions project.docs candidate = some positions ∧
      positions ≠ [] ∧ applyAdoption prints project candidate
        (adoptionOf project candidate positions start cursor) = (newIds, after) := by
  obtain ⟨locked, hlocked, hlater⟩ := bind_eq_ok.mp hcommit
  obtain ⟨⟨adoption, found⟩, hfound, h⟩ := bind_eq_ok.mp hlater
  obtain rfl := requireCandidate_ok rfl (mapError_ok hlocked)
  dsimp only at h
  split_ifs at h
  · obtain ⟨positions, cursor, hpositions, hne, rfl⟩ :=
      planAdoption_ok hfollows (adoptionImpact_ok (mapError_ok hfound))
    cases h
    exact ⟨positions, cursor, hpositions, hne, rfl⟩

theorem episodeIdHighWater_raise :
    project.raiseEpisodeIdHighWater.episodeIdHighWater = project.episodeIdHighWater := by
  refine le_antisymm ?_ (ManualSplitPlans.le_foldl_max (Or.inl le_rfl))
  show project.ids.foldl max project.episodeIdHighWater ≤ project.episodeIdHighWater
  by_contra hlt
  rcases LedgerFile.le_foldl_iff.mp (Nat.lt_of_not_le hlt) with hmark | ⟨id, hid, hmark⟩
  · exact absurd hmark (Nat.lt_irrefl _)
  · exact absurd (ManualSplitPlans.le_foldl_max (Or.inr hid)) (Nat.not_le_of_lt hmark)

theorem adopted_of_raise
    (h : Adopted project.raiseEpisodeIdHighWater after candidate start newIds) :
    Adopted project after candidate start newIds where
  ids := h.ids
  fresh id hid := (h.fresh id hid).imp_left
    (ManualSplitPlans.le_foldl_max (Or.inl le_rfl)).trans_lt
  count := h.count
  candidates := h.candidates
  kept := h.kept
  removed := h.removed
  retired := h.retired
  front := h.front
  placed := h.placed
  ordered := h.ordered

theorem exists_commitAdoption (hwell : project.wellFormedLedgerEntries = some project.entries)
    (hfollows : FollowsStart project.docs candidate start) (hepisodes : candidate.episodes ≠ [])
    (hfresh : candidateStaleness prints project candidate = none) :
    ∃ adoption impact, adoptionImpact prints project candidate = .ok (adoption, impact) ∧
      ∃ newIds after, project.applyMutation prints.digest (commitAdoption prints candidate.id
        (some (prints.impact impact)) (project.episodeIdHighWater + 1) (some candidate)) =
          .ok ((impact, newIds), after) := by
  obtain ⟨adoption, hadoption⟩ := exists_planAdoption hwell hfollows hepisodes hfresh
  obtain ⟨impact, himpact⟩ : ∃ impact,
      adoptionImpact prints project candidate = .ok (adoption, impact) := by
    unfold adoptionImpact
    rw [hadoption]
    exact ⟨_, rfl⟩
  refine ⟨adoption, impact, himpact, ?_⟩
  have hrequired : requireCandidate ⟨project.raiseEpisodeIdHighWater, some candidate⟩ candidate.id =
      .ok candidate := by
    unfold requireCandidate
    rw [Option.filter_some, decide_eq_true rfl]
    rfl
  unfold Project.applyMutation commitAdoption
  dsimp only
  rw [hrequired, episodeIdHighWater_raise]
  simp only [Except.mapError, ok_bind, adoptionImpact_raise, himpact, ne_eq, not_true_eq_false,
    if_false, pure_bind]
  split_ifs
  · exact ⟨_, _, rfl⟩
  · exact ⟨_, _, rfl⟩

section Adopts

variable {stored : Stored} (hcandidate : stored.candidate = some candidate)
  (hfollows : FollowsStart stored.project.docs candidate start)
include hcandidate hfollows

theorem exists_adopt
    (hwell : stored.project.wellFormedLedgerEntries = some stored.project.entries)
    (hepisodes : candidate.episodes ≠ [])
    (hfresh : candidateStaleness prints stored.project candidate = none) :
    ∃ impact newIds after, adoptReplanCandidate prints candidate.id
      (some (prints.impact impact)) stored stored = .ok (.adopted impact newIds after) := by
  obtain ⟨adoption, impact, himpact, newIds, adopted, hadopted⟩ :=
    exists_commitAdoption hwell hfollows hepisodes hfresh
  have hrequired : requireCandidate stored candidate.id = .ok candidate := by
    unfold requireCandidate
    rw [hcandidate, Option.filter_some, decide_eq_true rfl]
    rfl
  refine ⟨impact, newIds, ⟨adopted, none⟩, ?_⟩
  unfold adoptReplanCandidate
  rw [hrequired]
  simp only [ok_bind, himpact, ne_eq, not_true_eq_false, if_false, hcandidate, hadopted]
  rfl

theorem adopt_ok {seen later : Stored}
    (hadopt : adoptReplanCandidate prints candidateId revision seen stored =
      .ok (.adopted impact newIds later)) :
    ∃ positions cursor mutated remaining,
      candidatePositions stored.project.docs candidate = some positions ∧ positions ≠ [] ∧
      applyAdoption prints stored.project.raiseEpisodeIdHighWater candidate
        (adoptionOf stored.project.raiseEpisodeIdHighWater candidate positions start cursor) =
          (newIds, mutated) ∧
      later = ⟨{ mutated with sourceRemaining := remaining }, none⟩ := by
  obtain ⟨seenCandidate, -, hlater⟩ := bind_eq_ok.mp hadopt
  obtain ⟨⟨adoption, shown⟩, -, h⟩ := bind_eq_ok.mp hlater
  dsimp only at h
  split_ifs at h
  · cases h
  · split at h
    · rename_i hmutation
      cases h
      rw [hcandidate] at hmutation
      obtain ⟨mutated, remaining, hmutated, rfl⟩ := applyMutation_ok hmutation
      have hraised : FollowsStart stored.project.raiseEpisodeIdHighWater.docs candidate start :=
        hfollows
      obtain ⟨positions, cursor, hpositions, hne, happlied⟩ := commitAdoption_ok hraised hmutated
      exact ⟨positions, cursor, mutated, remaining, hpositions, hne, happlied, rfl⟩
    · cases h
    · cases h

/-- An adoption with the revision of its own impact goes through, and each adoption that goes through
makes of the ledger what `Adopted` says. -/
theorem adopts_in_order
    (hwell : stored.project.wellFormedLedgerEntries = some stored.project.entries)
    (horder : InOrder stored.project.docs stored.project.entries)
    (hepisodes : candidate.episodes ≠ [])
    (hfree : candidate.fromBeginning = true ∨
      StartFree stored.project.docs start stored.project.entries)
    (hfresh : candidateStaleness prints stored.project candidate = none) :
    (∃ impact newIds after, adoptReplanCandidate prints candidate.id
      (some (prints.impact impact)) stored stored = .ok (.adopted impact newIds after)) ∧
    ∀ candidateId revision seen impact newIds after,
      adoptReplanCandidate prints candidateId revision seen stored =
        .ok (.adopted impact newIds after) →
      Adopted stored.project after.project candidate start newIds ∧ after.candidate = none := by
  refine ⟨exists_adopt hcandidate hfollows hwell hepisodes hfresh, ?_⟩
  intro candidateId revision seen impact newIds after hadopt
  obtain ⟨positions, cursor, mutated, remaining, hpositions, hne, happlied, rfl⟩ :=
    adopt_ok hcandidate hfollows hadopt
  have hids : stored.project.raiseEpisodeIdHighWater.ids.Nodup := by
    unfold Project.wellFormedLedgerEntries at hwell
    split_ifs at hwell with hformed
    exact hformed.2
  obtain ⟨hnodup, hfresh, hcount, hcandidates, hkept, hremoved, hretired, hfront, hplaced,
    hordered⟩ := adopted_of_raise (applyAdoption_adopted hids horder hne
      (candidatePositions_length hpositions) happlied hfollows hfree)
  exact ⟨⟨hnodup, hfresh, hcount, hcandidates, hkept, hremoved, hretired, hfront, hplaced,
    hordered⟩, rfl⟩

end Adopts

end Runs

def plainPrints : Fingerprints where
  digest _ := ""
  layout _ := ""
  impact _ := ""
  loss _ _ := ""
  loss_raise _ _ := rfl

def candidateFrom (offset : ℕ) : ReplanCandidate where
  id := "c"
  episode := 2
  start := some ("source/a.txt", offset)
  fromBeginning := false
  sourceReplaced := false
  ledgerRevision := ""
  sourceFingerprints := [("source/a.txt", "")]
  episodes := [⟨[], .span ⟨"source/a.txt", offset, "source/a.txt", 4⟩⟩]
  complete := true

theorem twoEpisodes_inOrder : InOrder twoEpisodes.docs twoEpisodes.entries := by
  have hplaces : twoEpisodes.entries.filterMap (cutPlace twoEpisodes.docs) =
      [⟨0, 0, 0, 2⟩, ⟨0, 2, 0, 4⟩] := by decide
  refine ⟨fun entry hentry _ => ?_, hplaces ▸ List.pairwise_pair.mpr (Or.inr ⟨rfl, le_rfl⟩)⟩
  rcases List.mem_cons.mp hentry with rfl | hentry
  · exact ⟨⟨0, 0, 0, 2⟩, by decide, ⟨by decide, by decide, by decide, by decide⟩, by decide⟩
  · obtain rfl := List.mem_singleton.mp hentry
    exact ⟨⟨0, 2, 0, 4⟩, by decide, ⟨by decide, by decide, by decide, by decide⟩, by decide⟩

theorem candidateFrom_follows {offset : ℕ} (hoffset : offset < 4) :
    FollowsStart twoEpisodes.docs (candidateFrom offset) (0, offset) := by
  have hplace : draftPlace twoEpisodes.docs
      ⟨[], .span ⟨"source/a.txt", offset, "source/a.txt", 4⟩⟩ = some ⟨0, offset, 0, 4⟩ := rfl
  refine ⟨rfl, fun draft hdraft => ?_, ?_⟩
  · obtain rfl := List.mem_singleton.mp hdraft
    refine ⟨_, hplace, rfl, hoffset, ?_⟩
    rw [← Bool.not_eq_true, earlier_iff]
    simp
  · have hplaces : (candidateFrom offset).episodes.filterMap (draftPlace twoEpisodes.docs) =
        [⟨0, offset, 0, 4⟩] := rfl
    rw [hplaces]
    exact List.pairwise_singleton _ _

theorem candidateFrom_free : StartFree twoEpisodes.docs (0, 2) twoEpisodes.entries := by
  have hfirst : cutPlace twoEpisodes.docs (cutEntry 1 0 2) = some ⟨0, 0, 0, 2⟩ := by decide
  have hsecond : cutPlace twoEpisodes.docs (cutEntry 2 2 4) = some ⟨0, 2, 0, 4⟩ := by decide
  intro entry hentry p hp
  rcases List.mem_cons.mp hentry with rfl | hentry
  · rw [hfirst] at hp
    cases hp
    exact Or.inr rfl
  · obtain rfl := List.mem_singleton.mp hentry
    rw [hsecond] at hp
    cases hp
    exact Or.inl rfl

theorem adopts_in_order_two :
    ∃ impact newIds after, adoptReplanCandidate plainPrints "c"
        (some (plainPrints.impact impact)) ⟨twoEpisodes, some (candidateFrom 2)⟩
          ⟨twoEpisodes, some (candidateFrom 2)⟩ = .ok (.adopted impact newIds after) ∧
      Adopted twoEpisodes after.project (candidateFrom 2) (0, 2) newIds := by
  obtain ⟨⟨impact, newIds, after, hadopt⟩, hkeeps⟩ :=
    @adopts_in_order plainPrints (candidateFrom 2) (0, 2) ⟨twoEpisodes, some (candidateFrom 2)⟩ rfl
      (candidateFrom_follows (by decide)) rfl twoEpisodes_inOrder (by decide)
        (Or.inr candidateFrom_free) rfl
  exact ⟨impact, newIds, after, hadopt, (hkeeps _ _ _ _ _ _ hadopt).1⟩

/-- A candidate whose start is inside a cut episode overlaps it: the episode from 0 to 2 stays ahead of
that from 1 to 4. -/
theorem start_inside_overlaps :
    InOrder twoEpisodes.docs twoEpisodes.entries ∧
    twoEpisodes.wellFormedLedgerEntries = some twoEpisodes.entries ∧
    FollowsStart twoEpisodes.docs (candidateFrom 1) (0, 1) ∧
    candidateStaleness plainPrints twoEpisodes (candidateFrom 1) = none ∧
    ∃ impact newIds after, adoptReplanCandidate plainPrints "c"
        (some (plainPrints.impact impact)) ⟨twoEpisodes, some (candidateFrom 1)⟩
          ⟨twoEpisodes, some (candidateFrom 1)⟩ = .ok (.adopted impact newIds after) ∧
      after.project.entries.filterMap (cutPlace after.project.docs) =
        [⟨0, 0, 0, 2⟩, ⟨0, 1, 0, 4⟩] ∧
      ¬ (after.project.entries.filterMap (cutPlace after.project.docs)).Pairwise Place.Before := by
  have hfollows := @candidateFrom_follows 1 (by decide)
  have hcandidate : (Stored.mk twoEpisodes (some (candidateFrom 1))).candidate =
    some (candidateFrom 1) := rfl
  obtain ⟨impact, newIds, after, hadopt⟩ :=
    @exists_adopt plainPrints _ _ ⟨twoEpisodes, _⟩ hcandidate hfollows rfl (by decide) rfl
  have hplaces : after.project.entries.filterMap (cutPlace after.project.docs) =
      [⟨0, 0, 0, 2⟩, ⟨0, 1, 0, 4⟩] := by
    obtain ⟨positions, cursor, mutated, remaining, hpositions, hne, happlied, rfl⟩ :=
      adopt_ok hcandidate hfollows hadopt
    have hdocs := docs_congr (applyAdoption_ok happlied).2.1
    exact (adopted_places (by decide) twoEpisodes_inOrder hne (candidatePositions_length hpositions)
      happlied _ hdocs).trans (by rw [hdocs]; decide)
  refine ⟨twoEpisodes_inOrder, rfl, hfollows, rfl, impact, newIds, after, hadopt, hplaces, ?_⟩
  rw [hplaces, List.pairwise_pair]
  rintro (hfile | ⟨-, hoffset⟩)
  · exact absurd hfile (by decide)
  · exact absurd hoffset (by decide)

end ShortReel.EpisodeReplan
