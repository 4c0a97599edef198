import ShortReel.SourceFilePlans

/-!
# Runs of source file changes

What a run leaves: the files of the episodes, the ledger and the order in which the episodes are
broadcast. Episodes without a place in the source stay behind the cut episode that they followed.
-/

namespace ShortReel.SourceFileRuns

open SourceAlignment SourceRemap SourcePlaces RemapTexts CutPlacements EpisodeLedger
open LedgerPlacements SourceFileChanges SourceFilePlans

/-- The episodes from the last anchor in front of an episode up to it. `seen` is what has been passed
since the last anchor. -/
def leadUp (anchor : ℕ → Bool) (seen : List ℕ) : List ℕ → ℕ → List ℕ
  | [], _ => seen
  | id :: ids, episode =>
      if id = episode then seen
      else leadUp anchor (if anchor id then [id] else seen ++ [id]) ids episode

section Followers

variable {anchor : ℕ → Bool} {episode : ℕ}

theorem leadUp_append {front : List ℕ} (h : episode ∈ front) (seen back : List ℕ) :
    leadUp anchor seen (front ++ back) episode = leadUp anchor seen front episode := by
  induction front generalizing seen with
  | nil => cases h
  | cons id front ih =>
      rw [List.cons_append, leadUp, leadUp]
      split_ifs with hsame
      · rfl
      · exact ih ((List.mem_cons.mp h).resolve_left (Ne.symm hsame)) _
      · exact ih ((List.mem_cons.mp h).resolve_left (Ne.symm hsame)) _

theorem leadUp_skip {front : List ℕ} (h : episode ∉ front) (seen back : List ℕ) :
    ∃ later, leadUp anchor seen (front ++ back) episode = leadUp anchor later back episode := by
  induction front generalizing seen with
  | nil => exact ⟨seen, rfl⟩
  | cons id front ih =>
      obtain ⟨hne, hrest⟩ := not_or.mp fun hin => h (List.mem_cons.mpr hin)
      rw [List.cons_append, leadUp, if_neg (Ne.symm hne)]
      exact ih hrest _

/-- An order as its parts: nothing in front is an anchor, and each group follows one. -/
structure Grouped (anchor : ℕ → Bool) (order head : List ℕ) (groups : List (List ℕ)) : Prop where
  flatten : order = head ++ groups.flatten
  head : ∀ id ∈ head, anchor id = false
  groups : ∀ group ∈ groups, ∃ first followers, group = first :: followers ∧ anchor first = true ∧
    ∀ id ∈ followers, anchor id = false

theorem splitGroups_grouped (anchor : ℕ → Bool) (order : List ℕ) :
    Grouped anchor order (splitGroups anchor order).1 (splitGroups anchor order).2 := by
  induction order with
  | nil =>
      exact ⟨rfl, fun _ h => absurd h List.not_mem_nil, fun _ h => absurd h List.not_mem_nil⟩
  | cons id order ih =>
      obtain ⟨hflatten, hhead, hgroups⟩ := ih
      rw [splitGroups]
      dsimp only
      split_ifs with hanchor
      · refine ⟨?_, fun _ h => absurd h List.not_mem_nil, ?_⟩
        · rw [List.nil_append, List.flatten_cons, List.cons_append, ← hflatten]
        · exact List.forall_mem_cons.mpr ⟨⟨id, _, rfl, hanchor, hhead⟩, hgroups⟩
      · refine ⟨?_, ?_, hgroups⟩
        · rw [List.cons_append, ← hflatten]
        · exact List.forall_mem_cons.mpr ⟨Bool.eq_false_iff.mpr hanchor, hhead⟩

theorem leadUp_flatten {groups : List (List ℕ)} {group : List ℕ}
    (hgroups : ∀ group ∈ groups, ∃ first followers, group = first :: followers ∧
      anchor first = true ∧ ∀ id ∈ followers, anchor id = false)
    (hnodup : groups.flatten.Nodup) (hmem : group ∈ groups) (hepisode : episode ∈ group)
    (hanchor : anchor episode = false) (seen : List ℕ) :
    leadUp anchor seen groups.flatten episode = leadUp anchor [] group episode := by
  induction groups generalizing seen with
  | nil => cases hmem
  | cons other groups ih =>
      obtain ⟨⟨first, followers, rfl, hfirst, -⟩, hrest⟩ := List.forall_mem_cons.mp hgroups
      rw [List.flatten_cons] at hnodup ⊢
      obtain ⟨hother, hlater, hdisjoint⟩ := List.nodup_append.mp hnodup
      have hne : first ≠ episode := by
        rintro rfl
        rw [hfirst] at hanchor
        cases hanchor
      rcases List.mem_cons.mp hmem with rfl | hmem
      · rw [leadUp_append hepisode, leadUp, leadUp, if_neg hne, if_neg hne, if_pos hfirst]
        rw [if_pos hfirst]
      · have hnot : episode ∉ first :: followers := fun hin =>
          hdisjoint episode hin episode (List.mem_flatten.mpr ⟨group, hmem, hepisode⟩) rfl
        obtain ⟨later, hlater'⟩ := leadUp_skip hnot seen groups.flatten
        exact hlater'.trans (ih hrest hlater hmem later)

theorem leadUp_regrouped {order head : List ℕ} {groups others : List (List ℕ)}
    (hgrouped : Grouped anchor order head groups) (hnodup : order.Nodup)
    (hperm : others.Perm groups) (hepisode : episode ∈ order) (hanchor : anchor episode = false) :
    leadUp anchor [] (head ++ others.flatten) episode = leadUp anchor [] order episode := by
  obtain ⟨rfl, hhead, hgroups⟩ := hgrouped
  rcases List.mem_append.mp hepisode with hfront | hback
  · rw [leadUp_append hfront, leadUp_append hfront]
  · obtain ⟨-, hflatten, hdisjoint⟩ := List.nodup_append.mp hnodup
    have hnot : episode ∉ head := fun hin => hdisjoint episode hin episode hback rfl
    obtain ⟨group, hgroup, hin⟩ := List.mem_flatten.mp hback
    obtain ⟨seen, hseen⟩ := @leadUp_skip anchor episode head hnot [] others.flatten
    obtain ⟨seen', hseen'⟩ := @leadUp_skip anchor episode head hnot [] groups.flatten
    rw [hseen, hseen', leadUp_flatten hgroups hflatten hgroup hin hanchor]
    exact leadUp_flatten (fun group hgroup => hgroups group (hperm.mem_iff.mp hgroup))
      (hperm.flatten.nodup_iff.mpr hflatten) (hperm.mem_iff.mpr hgroup) hin hanchor _

end Followers

section Orders

variable {change : Change} {ids gone : List ℕ}

def placed (change : Change) (id : ℕ) : Bool :=
  id ∈ (positions change).map Prod.fst

theorem groups_perm (groups : List (List ℕ)) :
    (if change.reorder then
      groups.mergeSort fun a b => !earlier (groupPosition change b) (groupPosition change a)
    else groups).Perm groups := by
  split_ifs
  · exact List.mergeSort_perm _ _
  · exact .refl _

theorem orderAfter_perm (change : Change) (ids gone : List ℕ) :
    (orderAfter change ids gone).Perm (ids.filter (· ∉ gone)) := by
  have hgrouped := splitGroups_grouped (placed change) (ids.filter (· ∉ gone))
  unfold orderAfter
  exact ((groups_perm _).flatten.append_left _).trans (.of_eq hgrouped.flatten.symm)

theorem leadUp_orderAfter (hids : ids.Nodup) {episode : ℕ} (hepisode : episode ∈ ids)
    (hkept : episode ∉ gone) (hplaced : placed change episode = false) :
    leadUp (placed change) [] (orderAfter change ids gone) episode =
      leadUp (placed change) [] (ids.filter (· ∉ gone)) episode := by
  have hgrouped := splitGroups_grouped (placed change) (ids.filter (· ∉ gone))
  have hmem : episode ∈ ids.filter (· ∉ gone) :=
    List.mem_filter.mpr ⟨hepisode, decide_eq_true hkept⟩
  exact leadUp_regrouped hgrouped (hids.filter _) (groups_perm _) hmem hplaced

end Orders

section Impacts

variable {matcher : SequenceMatcher} {digest : Text → String} {project : Project}
  {command : Command} {ranges : Spans} {change : Change} {hasScriptPlan : ℕ → Bool}

def goneEpisodes (impact : SourceFileImpact) : List ℕ :=
  impact.retired ++ impact.removed

theorem mem_idsOf {p : RangeRemap → Bool} {episode : ℕ} :
    episode ∈ idsOf change project p ↔
      episode ∈ project.ids ∧ ∃ remap ∈ change.remaps, remap.episode = episode ∧ p remap := by
  unfold idsOf
  rw [List.mem_filter, List.any_eq_true]
  simp

theorem mem_partition {l : List ℕ} {q : ℕ → Prop} [DecidablePred q] {episode : ℕ} :
    episode ∈ l.filter (fun id => q id) ++ l.filter (fun id => ¬ q id) ↔ episode ∈ l := by
  rw [List.mem_append, List.mem_filter, List.mem_filter]
  by_cases hq : q episode <;> simp [hq]

theorem mem_changedEpisodes {episode : ℕ} :
    episode ∈ changedEpisodes (impactOf change project hasScriptPlan).1 ↔
      episode ∈ project.ids ∧ ∃ remap ∈ change.remaps, remap.episode = episode ∧
        remap.after ≠ none ∧ remap.textChanged = true := by
  refine mem_partition.trans (mem_idsOf.trans ?_)
  simp

theorem mem_goneEpisodes {episode : ℕ} :
    episode ∈ goneEpisodes (impactOf change project hasScriptPlan).1 ↔
      episode ∈ project.ids ∧ ∃ remap ∈ change.remaps, remap.episode = episode ∧
        remap.after = none := by
  refine mem_partition.trans (mem_idsOf.trans ?_)
  simp

end Impacts

/-- The files of the episodes that are cut from the source have the texts of their places. -/
def Derived (project : Project) : Prop :=
  ∀ item ∈ project.placements,
    project.files item.episode = some (placementText project.docs item.place)

section Ranges

variable {project : Project} {ranges : Spans}

theorem placeCandidates_episodes {items : List CutPlacement} {cursor : ℕ × ℕ} {placed : List ℕ} :
    ((placeCandidates cursor placed items).map (·.episode)).Nodup ∧
      ∀ item ∈ placeCandidates cursor placed items, item.episode ∉ placed := by
  induction items generalizing cursor placed with
  | nil => exact ⟨.nil, fun _ h => absurd h List.not_mem_nil⟩
  | cons item items ih =>
      rw [placeCandidates]
      split_ifs with hskip
      · exact ih
      · obtain ⟨hnodup, hnot⟩ := @ih item.endPosition (item.episode :: placed)
        refine ⟨List.nodup_cons.mpr ⟨fun hin => ?_, hnodup⟩, List.forall_mem_cons.mpr ⟨?_, ?_⟩⟩
        · obtain ⟨other, hother, hsame⟩ := List.mem_map.mp hin
          exact hnot other hother (hsame ▸ List.mem_cons_self)
        · exact fun hin => hskip (.inr hin)
        · exact fun other hother hin => hnot other hother (List.mem_cons_of_mem _ hin)

theorem placement_mem_ids {item : CutPlacement} (h : item ∈ project.placements) :
    item.episode ∈ project.ids := by
  obtain ⟨entry, hentry, hcandidate⟩ :=
    List.mem_filterMap.mp (List.mem_mergeSort.mp (mem_placeCandidates h))
  obtain ⟨old, hold, hrange⟩ := List.mem_filterMap.mp hentry
  have hepisode : item.episode = entry.1 := by
    unfold candidate at hcandidate
    obtain ⟨first, -, hcandidate⟩ := Option.bind_eq_some_iff.mp hcandidate
    obtain ⟨last, -, hcandidate⟩ := Option.bind_eq_some_iff.mp hcandidate
    split_ifs at hcandidate
    cases hcandidate
    rfl
  unfold cutRange at hrange
  split_ifs at hrange
  obtain ⟨span, -, rfl⟩ := Option.map_eq_some_iff.mp hrange
  exact List.mem_map.mpr ⟨old, hold, hepisode.symm⟩

theorem spanOf_episode {docs : List SourceDoc} {item : CutPlacement} {entry : ℕ × SourceSpan}
    (h : spanOf docs item = some entry) : item.episode = entry.1 := by
  unfold spanOf at h
  obtain ⟨first, -, h⟩ := Option.bind_eq_some_iff.mp h
  obtain ⟨last, -, h⟩ := Option.bind_eq_some_iff.mp h
  cases h
  rfl

theorem ranges_nodup (hranges : spans project = .ok ranges) : (ranges.map Prod.fst).Nodup := by
  have hepisodes : ranges.map Prod.fst = project.placements.map (·.episode) :=
    map_mapM (orThrow_eq_ok.mp hranges) fun _ _ _ hentry => (spanOf_episode hentry).symm
  rw [hepisodes]
  exact placeCandidates_episodes.1

variable (hpaths : (rels project.docs).Nodup) (hranges : spans project = .ok ranges)
include hpaths hranges

theorem ranges_of_placements :
    ∀ entry ∈ ranges, ∃ item ∈ project.placements, item.episode = entry.1 ∧
      place project.docs entry.2 = some item.place := by
  have hmapM := orThrow_eq_ok.mp hranges
  have hrounds : ∀ item ∈ project.placements, ∀ entry, spanOf project.docs item = some entry →
      item.episode = entry.1 ∧ place project.docs entry.2 = some item.place := by
    intro item hitem entry hentry
    obtain ⟨old, -, hcandidate⟩ :=
      List.mem_filterMap.mp (List.mem_mergeSort.mp (mem_placeCandidates hitem))
    obtain ⟨other, hother, hplace⟩ := exists_spanOf hpaths (candidate_inBounds hcandidate)
    obtain rfl := Option.some.inj (hentry.symm.trans hother)
    exact ⟨spanOf_episode hentry, hplace⟩
  exact (forall_mapM hmapM).mpr fun item hitem entry hentry => ⟨item, hitem, hrounds item hitem _ hentry⟩

theorem ranges_inBounds : AllInBounds project.docs ranges := by
  obtain ⟨others, hothers, hbounds, -⟩ :=
    spansOf_ordered hpaths (project.entries.filterMap cutRange)
  rwa [Option.some.inj ((orThrow_eq_ok.mp hranges).symm.trans hothers)]

theorem derived_ranges (hderived : Derived project) :
    ∀ entry ∈ ranges, project.files entry.1 = text project.docs entry.2 ∧
      project.files entry.1 ≠ none := by
  intro entry hentry
  obtain ⟨item, hitem, hepisode, hplace⟩ := ranges_of_placements hpaths hranges entry hentry
  have hfile := hderived item hitem
  rw [hepisode] at hfile
  rw [text_of_place hplace, hfile]
  exact ⟨rfl, Option.some_ne_none _⟩

theorem ranges_mem_ids : ∀ entry ∈ ranges, entry.1 ∈ project.ids := by
  intro entry hentry
  obtain ⟨item, hitem, hepisode, -⟩ := ranges_of_placements hpaths hranges entry hentry
  exact hepisode ▸ placement_mem_ids hitem

end Ranges

/-- What the remaps of a plan say: one for each range, and none for another episode with a place. -/
structure Remapped (project : Project) (command : Command) (ranges : Spans) (new : List SourceDoc)
    (remaps : List RangeRemap) : Prop where
  range : ∀ remap ∈ remaps, ∀ after, remap.after = some after → rangeOf remap ∈ ranges
  one : ∀ remap ∈ remaps, ∀ after, remap.after = some after →
    ∀ other ∈ remaps, other.episode = remap.episode → other = remap
  reported : ∀ remap ∈ remaps, remap.textChanged = false → ∃ after, remap.after = some after
  faithful : (∀ remap ∈ remaps, Faithful project.docs new remap) ↔ ¬ InsertsAtEdge project command

theorem remapped_of_planned {matcher : SequenceMatcher} {project : Project} {command : Command}
    {ranges : Spans} {change : Change} (hsources : (project.sources.map (·.rel)).Nodup)
    (hranges : spans project = .ok ranges)
    (h : Planned matcher project command ranges change) :
    Remapped project command ranges (change.commit project).docs change.remaps := by
  have hpaths := rels_nodup hsources
  have hbounds := ranges_inBounds hpaths hranges
  have hnodup := ranges_nodup hranges
  rcases h.remaps with ⟨sourceChange, hdocs, hremaps, hedge⟩ | ⟨hedge, hdocs, gone, heq, hgone⟩
  · have hnew := rels_nodup h.paths
    have hmap := remaps_rangeOf hremaps
    refine ⟨fun remap hremap _ _ => hmap ▸ List.mem_map_of_mem hremap, ?_,
      reported_of_gone hpaths hdocs hnew hbounds hremaps, ?_⟩
    · intro remap hremap _ _ other hother hsame
      rw [← hmap, List.map_map] at hnodup
      exact List.inj_on_of_nodup_map hnodup hother hremap hsame
    · obtain ⟨others, hothers, hfaithful⟩ :=
        remaps_faithful_iff matcher hpaths hdocs hnew hbounds
      rw [Option.some.inj (hremaps.symm.trans hothers), hfaithful, hedge]
  · have hcases : ∀ remap ∈ change.remaps, remap ∈ gone ∨
        ∃ entry ∈ ranges, unchanged entry.1 entry.2 = remap := by
      intro remap hremap
      rw [heq] at hremap
      exact (List.mem_append.mp hremap).symm.imp_right List.mem_map.mp
    refine ⟨?_, ?_, ?_, iff_of_true ?_ hedge⟩
    · intro remap hremap after hafter
      rcases hcases remap hremap with hin | ⟨entry, hentry, rfl⟩
      · rw [(hgone remap hin).1] at hafter
        cases hafter
      · exact hentry
    · intro remap hremap after hafter other hother hsame
      rcases hcases remap hremap with hin | ⟨entry, hentry, rfl⟩
      · rw [(hgone remap hin).1] at hafter
        cases hafter
      · rcases hcases other hother with hin | ⟨entry', hentry', rfl⟩
        · exact absurd (hsame ▸ List.mem_map_of_mem hentry) (hgone other hin).2.2
        · rw [List.inj_on_of_nodup_map hnodup hentry' hentry hsame]
    · intro remap hremap hchanged
      rcases hcases remap hremap with hin | ⟨entry, hentry, rfl⟩
      · rw [(hgone remap hin).2.1] at hchanged
        cases hchanged
      · exact ⟨_, rfl⟩
    · intro remap hremap hchanged
      rcases hcases remap hremap with hin | ⟨entry, hentry, rfl⟩
      · rw [(hgone remap hin).2.1] at hchanged
        cases hchanged
      · exact ⟨entry.2, rfl, by rw [hdocs]; rfl⟩

section Writes

variable {impact : SourceFileImpact} {docs : List SourceDoc} {remaps : List RangeRemap}
  {files written : ℕ → Option Text}

theorem spanText_eq {span : SourceSpan} {read : Text} (h : spanText docs span = some read) :
    text docs span = some read := by
  unfold spanText at h
  obtain ⟨first, hfirst, h⟩ := Option.bind_eq_some_iff.mp h
  obtain ⟨last, hlast, h⟩ := Option.bind_eq_some_iff.mp h
  split_ifs at h
  obtain ⟨parts, hparts, h⟩ := Option.bind_eq_some_iff.mp h
  cases h
  have heq : parts.map id = (List.range' first (last + 1 - first)).map
      (part docs first span.start last span.stop) := by
    refine map_mapM hparts fun i _ read hread => ?_
    exact (Option.some.inj (Option.ite_none_right_eq_some.mp hread).2).symm
  rw [List.map_id] at heq
  unfold text textBetween
  rw [hfirst, hlast, heq]
  rfl

theorem writeEpisode_other {remap : RangeRemap} {episode : ℕ}
    (h : writeEpisode impact docs files remap = .ok written)
    (hother : remap.episode = episode → remap.after = none ∨ episode ∉ changedEpisodes impact) :
    written episode = files episode := by
  unfold writeEpisode at h
  cases hafter : remap.after with
  | none =>
      rw [hafter] at h
      cases h
      rfl
  | some after =>
      rw [hafter] at h
      dsimp only at h
      split_ifs at h with hchanged
      · obtain ⟨read, -, h⟩ := bind_eq_ok.mp h
        cases h
        refine Function.update_of_ne (fun hsame => ?_) _ _
        rcases hother hsame.symm with hnone | hnot
        · rw [hafter] at hnone
          cases hnone
        · exact hnot (hsame ▸ hchanged)
      · cases h
        rfl

theorem writeEpisode_written {remap : RangeRemap} {after : SourceSpan}
    (h : writeEpisode impact docs files remap = .ok written) (hafter : remap.after = some after)
    (hchanged : remap.episode ∈ changedEpisodes impact) :
    written remap.episode = text docs after ∧ written remap.episode ≠ none := by
  unfold writeEpisode at h
  rw [hafter] at h
  dsimp only at h
  rw [if_pos hchanged] at h
  obtain ⟨read, hread, h⟩ := bind_eq_ok.mp h
  cases h
  rw [Function.update_self, spanText_eq (orThrow_eq_ok.mp hread)]
  exact ⟨rfl, Option.some_ne_none _⟩

theorem writes_other {episode : ℕ} (h : remaps.foldlM (writeEpisode impact docs) files = .ok written)
    (hother : ∀ remap ∈ remaps, remap.episode = episode →
      remap.after = none ∨ episode ∉ changedEpisodes impact) :
    written episode = files episode := by
  induction remaps generalizing files with
  | nil =>
      cases h
      rfl
  | cons remap remaps ih =>
      rw [List.foldlM_cons] at h
      obtain ⟨between, hbetween, h⟩ := bind_eq_ok.mp h
      obtain ⟨hfirst, hrest⟩ := List.forall_mem_cons.mp hother
      exact (ih h hrest).trans (writeEpisode_other hbetween hfirst)

theorem writes_written {remap : RangeRemap} {after : SourceSpan}
    (h : remaps.foldlM (writeEpisode impact docs) files = .ok written) (hmem : remap ∈ remaps)
    (hafter : remap.after = some after) (hchanged : remap.episode ∈ changedEpisodes impact)
    (hone : ∀ other ∈ remaps, other.episode = remap.episode → other = remap) :
    written remap.episode = text docs after ∧ written remap.episode ≠ none := by
  induction remaps generalizing files with
  | nil => cases hmem
  | cons first remaps ih =>
      rw [List.foldlM_cons] at h
      obtain ⟨between, hbetween, hwrites⟩ := bind_eq_ok.mp h
      obtain ⟨hfirst, hrest⟩ := List.forall_mem_cons.mp hone
      by_cases hlater : remap ∈ remaps
      · exact ih hwrites hlater hrest
      · obtain rfl := (List.mem_cons.mp hmem).resolve_right hlater
        have hkept : written remap.episode = between remap.episode :=
          writes_other hwrites fun other hother hsame =>
            absurd (hrest other hother hsame ▸ hother) hlater
        rw [hkept]
        exact writeEpisode_written hbetween hafter hchanged

end Writes

def keptIds (project : Project) (change : Change) : List ℕ :=
  project.ids.filter fun id => ∀ remap ∈ change.remaps, remap.episode = id → remap.after ≠ none

/-- A confirmed change: the file of every episode with a place has the text of it, only episodes whose
text is another one have another file, and the others stay behind those that they followed. -/
structure Applied (project : Project) (change : Change) (written : Project) : Prop where
  derived : ∀ remap ∈ change.remaps, ∀ after, remap.after = some after →
    ∃ read, text written.docs after = some read ∧ written.files remap.episode = some read
  rewritten : ∀ episode, written.files episode ≠ project.files episode →
    ∃ remap ∈ change.remaps, remap.episode = episode ∧
      ∀ after, remap.after = some after → text written.docs after ≠ text project.docs remap.before
  ledger : ∀ remap ∈ change.remaps, ∀ after, remap.after = some after →
    ∃ old ∈ project.entries, ∃ entry ∈ written.entries, old.episode = remap.episode ∧
      entry.episode = remap.episode ∧
        entry.sourceRange = if after = remap.before then old.sourceRange else .span after
  followers : ∀ episode ∈ project.ids, (∀ remap ∈ change.remaps, remap.episode ≠ episode) →
    episode ∈ written.ids ∧ leadUp (placed change) [] written.ids episode =
      leadUp (placed change) [] (keptIds project change) episode

section Ledgers

variable {project : Project} {change : Change} {impact : SourceFileImpact}

theorem exists_find {α : Type} {l : List α} {f : α → ℕ} {id : ℕ} (h : id ∈ l.map f) :
    ∃ a ∈ l, l.find? (fun a => f a = id) = some a ∧ f a = id := by
  obtain ⟨b, hb, hid⟩ := List.mem_map.mp h
  cases hfind : l.find? (fun a => f a = id) with
  | none => exact absurd (decide_eq_true hid) (List.find?_eq_none.mp hfind b hb)
  | some a =>
      have ha := List.find?_some hfind
      exact ⟨a, List.mem_of_find?_eq_some hfind, rfl, by simpa using ha⟩

theorem remappedEntry_episode (entry : LedgerEntry) :
    (remappedEntry change impact entry).episode = entry.episode := by
  unfold remappedEntry
  dsimp only
  repeat' split
  all_goals rfl

theorem map_find_episode {entries : List LedgerEntry} {ids : List ℕ}
    (h : ∀ id ∈ ids, id ∈ entries.map (·.episode)) :
    (ids.filterMap fun id => entries.find? (·.episode = id)).map (·.episode) = ids := by
  induction ids with
  | nil => rfl
  | cons id ids ih =>
      obtain ⟨hid, hids⟩ := List.forall_mem_cons.mp h
      obtain ⟨entry, -, hentry, hsame⟩ := exists_find hid
      rw [List.filterMap_cons, hentry, List.map_cons, ih hids, hsame]

theorem remappedEntry_range {entry : LedgerEntry} {remap : RangeRemap} {after : SourceSpan}
    (hremap : remap ∈ change.remaps) (hafter : remap.after = some after)
    (hone : ∀ other ∈ change.remaps, other.episode = remap.episode → other = remap)
    (hentry : entry.episode = remap.episode) :
    (remappedEntry change impact entry).sourceRange =
      if after = remap.before then entry.sourceRange else .span after := by
  obtain ⟨other, hmem, hother, hsame⟩ := @exists_find _ change.remaps (·.episode) entry.episode
    (List.mem_map.mpr ⟨remap, hremap, hentry.symm⟩)
  obtain rfl := hone other hmem (hsame.trans hentry)
  unfold remappedEntry
  rw [hother]
  dsimp only
  rw [hafter]
  dsimp only
  split_ifs <;> rfl

end Ledgers

section Remaps

variable {project : Project} {command : Command} {ranges : Spans} {new : List SourceDoc}
  {change : Change} {hasScriptPlan : ℕ → Bool}
  (hremapped : Remapped project command ranges new change.remaps)
include hremapped

theorem not_gone {remap : RangeRemap} {after : SourceSpan} (hremap : remap ∈ change.remaps)
    (hafter : remap.after = some after) :
    remap.episode ∉ goneEpisodes (impactOf change project hasScriptPlan).1 := by
  intro hgone
  obtain ⟨-, other, hother, hsame, hnone⟩ := mem_goneEpisodes.mp hgone
  rw [hremapped.one remap hremap after hafter other hother hsame, hafter] at hnone
  cases hnone

theorem mem_order {remap : RangeRemap} {after : SourceSpan}
    (hids : ∀ entry ∈ ranges, entry.1 ∈ project.ids) (hremap : remap ∈ change.remaps)
    (hafter : remap.after = some after) :
    remap.episode ∈ (impactOf change project hasScriptPlan).2 := by
  refine (orderAfter_perm change project.ids _).mem_iff.mpr (List.mem_filter.mpr ⟨?_, ?_⟩)
  · exact hids _ (hremapped.range remap hremap after hafter)
  · refine decide_eq_true fun hgone => ?_
    obtain ⟨-, other, hother, hsame, hnone⟩ := mem_idsOf.mp hgone
    rw [hremapped.one remap hremap after hafter other hother hsame, hafter] at hnone
    cases hnone

end Remaps

section Applying

variable {matcher : SequenceMatcher} {digest : Text → String} {hasScriptPlan : ℕ → Bool}
  {project written : Project} {command : Command} {ranges : Spans} {change : Change}
  (happly : applyChange change (impactOf change project hasScriptPlan).1 digest
    (change.commit project) project.entries (impactOf change project hasScriptPlan).2 = .ok written)
include happly

theorem applied_docs : written.docs = (change.commit project).docs := by
  unfold applyChange at happly
  dsimp only at happly
  obtain ⟨files, -, happly⟩ := bind_eq_ok.mp happly
  cases happly
  rfl

theorem applied_ids : written.ids = (impactOf change project hasScriptPlan).2 ++
    (impactOf change project hasScriptPlan).1.retired := by
  unfold applyChange at happly
  dsimp only at happly
  obtain ⟨files, -, happly⟩ := bind_eq_ok.mp happly
  cases happly
  have horder : ∀ id ∈ (impactOf change project hasScriptPlan).2, id ∈ project.ids := fun id hid =>
    List.mem_of_mem_filter ((orderAfter_perm change project.ids _).mem_iff.mp hid)
  have hretired : ∀ id ∈ (impactOf change project hasScriptPlan).1.retired, id ∈ project.ids :=
    fun id hid => (mem_goneEpisodes.mp (List.mem_append_left _ hid)).1
  have hremapped : (·.episode) ∘ remappedEntry change (impactOf change project hasScriptPlan).1 =
      (·.episode) := funext remappedEntry_episode
  have hretire : (·.episode) ∘ retire = (·.episode) := rfl
  refine List.map_append.trans ?_
  rw [List.map_map, List.map_map, hremapped, hretire, map_find_episode horder,
    map_find_episode hretired]

theorem applied_files (hfiles : (change.commit project).files = project.files) {episode : ℕ} :
    (episode ∈ goneEpisodes (impactOf change project hasScriptPlan).1 ∧ written.files episode = none) ∨
    (episode ∉ goneEpisodes (impactOf change project hasScriptPlan).1 ∧ ∃ files,
      change.remaps.foldlM (writeEpisode (impactOf change project hasScriptPlan).1
        (change.commit project).docs) project.files = .ok files ∧
      written.files episode = files episode) := by
  unfold applyChange at happly
  dsimp only at happly
  obtain ⟨files, hfold, happly⟩ := bind_eq_ok.mp happly
  rw [← hfiles]
  cases happly
  by_cases hgone : episode ∈ goneEpisodes (impactOf change project hasScriptPlan).1
  · exact .inl ⟨hgone, if_pos hgone⟩
  · exact .inr ⟨hgone, files, hfold, if_neg hgone⟩

theorem applied_entries {old : LedgerEntry} (hnodup : project.ids.Nodup)
    (hold : old ∈ project.entries)
    (horder : old.episode ∈ (impactOf change project hasScriptPlan).2) :
    remappedEntry change (impactOf change project hasScriptPlan).1 old ∈ written.entries := by
  unfold applyChange at happly
  dsimp only at happly
  obtain ⟨files, -, happly⟩ := bind_eq_ok.mp happly
  cases happly
  obtain ⟨entry, hentry, hfind, hsame⟩ := @exists_find _ project.entries (·.episode) old.episode
    (List.mem_map_of_mem hold)
  obtain rfl := List.inj_on_of_nodup_map hnodup hentry hold hsame
  refine List.mem_append_left _ (List.mem_map_of_mem ?_)
  exact List.mem_filterMap.mpr ⟨entry.episode, horder, hfind⟩

section Remaps

variable (hremapped : Remapped project command ranges (change.commit project).docs change.remaps)
  (hfiles : (change.commit project).files = project.files)
include hremapped hfiles

theorem files_kept {remap : RangeRemap} {after : SourceSpan} (hremap : remap ∈ change.remaps)
    (hafter : remap.after = some after) (hchanged : remap.textChanged = false) :
    written.files remap.episode = project.files remap.episode := by
  rcases applied_files happly hfiles with ⟨hgone, -⟩ | ⟨-, files, hfold, heq⟩
  · exact absurd hgone (not_gone hremapped hremap hafter)
  · rw [heq]
    refine writes_other hfold fun _ _ _ => .inr fun hmem => ?_
    obtain ⟨-, other, hother, hsame, -, hreported⟩ := mem_changedEpisodes.mp hmem
    rw [hremapped.one remap hremap after hafter other hother hsame, hchanged] at hreported
    cases hreported

variable (hids : ∀ entry ∈ ranges, entry.1 ∈ project.ids)
include hids

theorem files_written {remap : RangeRemap} {after : SourceSpan} (hremap : remap ∈ change.remaps)
    (hafter : remap.after = some after) (hchanged : remap.textChanged = true) :
    written.files remap.episode = text written.docs after ∧
      written.files remap.episode ≠ none := by
  rcases applied_files happly hfiles with ⟨hgone, -⟩ | ⟨-, files, hfold, heq⟩
  · exact absurd hgone (not_gone hremapped hremap hafter)
  · rw [heq, applied_docs happly]
    have hsome : remap.after ≠ none := by simp [hafter]
    refine writes_written hfold hremap hafter (mem_changedEpisodes.mpr ⟨?_, remap, hremap, rfl,
      hsome, hchanged⟩) (hremapped.one remap hremap after hafter)
    exact hids _ (hremapped.range remap hremap after hafter)

variable (hderived : ∀ entry ∈ ranges,
  project.files entry.1 = text project.docs entry.2 ∧ project.files entry.1 ≠ none)
include hderived

theorem derived_iff :
    (∀ remap ∈ change.remaps, ∀ after, remap.after = some after →
      ∃ read, text written.docs after = some read ∧ written.files remap.episode = some read) ↔
    ¬ InsertsAtEdge project command := by
  rw [← hremapped.faithful]
  constructor
  · intro h remap hremap hchanged
    obtain ⟨after, hafter⟩ := hremapped.reported remap hremap hchanged
    obtain ⟨read, hread, hfile⟩ := h remap hremap after hafter
    rw [files_kept happly hremapped hfiles hremap hafter hchanged] at hfile
    have hbefore := (hderived _ (hremapped.range remap hremap after hafter)).1
    refine ⟨after, hafter, ?_⟩
    rw [← applied_docs happly, hread, ← hfile]
    exact hbefore
  · intro h remap hremap after hafter
    cases hchanged : remap.textChanged with
    | true =>
        obtain ⟨htext, hsome⟩ :=
          files_written happly hremapped hfiles hids hremap hafter hchanged
        obtain ⟨read, hread⟩ := Option.ne_none_iff_exists'.mp hsome
        exact ⟨read, htext.symm.trans hread, hread⟩
    | false =>
        obtain ⟨hbefore, hsome⟩ := hderived _ (hremapped.range remap hremap after hafter)
        obtain ⟨read, hread⟩ := Option.ne_none_iff_exists'.mp hsome
        obtain ⟨other, hother, htext⟩ := h remap hremap hchanged
        obtain rfl := Option.some.inj (hafter.symm.trans hother)
        refine ⟨read, ?_, ?_⟩
        · rw [applied_docs happly, htext]
          exact hbefore.symm.trans hread
        · rw [files_kept happly hremapped hfiles hremap hafter hchanged]
          exact hread

theorem rewritten_changed {episode : ℕ} (h : written.files episode ≠ project.files episode) :
    ∃ remap ∈ change.remaps, remap.episode = episode ∧
      ∀ after, remap.after = some after → text written.docs after ≠ text project.docs remap.before := by
  rcases applied_files happly hfiles with ⟨hgone, -⟩ | ⟨-, files, hfold, heq⟩
  · obtain ⟨-, remap, hremap, hepisode, hnone⟩ := mem_goneEpisodes.mp hgone
    refine ⟨remap, hremap, hepisode, fun after hafter => ?_⟩
    rw [hnone] at hafter
    cases hafter
  · by_cases hchanged : episode ∈ changedEpisodes (impactOf change project hasScriptPlan).1
    · obtain ⟨-, remap, hremap, rfl, -, hreported⟩ := mem_changedEpisodes.mp hchanged
      refine ⟨remap, hremap, rfl, fun after hafter hsame => h ?_⟩
      rw [(files_written happly hremapped hfiles hids hremap hafter hreported).1, hsame]
      exact (hderived _ (hremapped.range remap hremap after hafter)).1.symm
    · rw [heq, writes_other hfold fun _ _ _ => .inr hchanged] at h
      exact absurd rfl h

omit hfiles hderived

theorem ledger_ranges (hnodup : project.ids.Nodup) {remap : RangeRemap} {after : SourceSpan}
    (hremap : remap ∈ change.remaps) (hafter : remap.after = some after) :
    ∃ old ∈ project.entries, ∃ entry ∈ written.entries, old.episode = remap.episode ∧
      entry.episode = remap.episode ∧
        entry.sourceRange = if after = remap.before then old.sourceRange else .span after := by
  obtain ⟨old, hold, hepisode⟩ :=
    List.mem_map.mp (hids _ (hremapped.range remap hremap after hafter))
  have horder := @mem_order _ _ _ _ _ hasScriptPlan hremapped _ _ hids hremap hafter
  refine ⟨old, hold, _, applied_entries happly hnodup hold (hepisode ▸ horder), hepisode,
    (remappedEntry_episode old).trans hepisode, ?_⟩
  exact remappedEntry_range hremap hafter (hremapped.one remap hremap after hafter) hepisode

end Remaps

theorem followers_kept (hnodup : project.ids.Nodup) {episode : ℕ} (hepisode : episode ∈ project.ids)
    (hother : ∀ remap ∈ change.remaps, remap.episode ≠ episode) :
    episode ∈ written.ids ∧ leadUp (placed change) [] written.ids episode =
      leadUp (placed change) [] (keptIds project change) episode := by
  have hgone : episode ∉ idsOf change project fun remap => remap.after = none := fun hin => by
    obtain ⟨-, remap, hremap, hsame, -⟩ := mem_idsOf.mp hin
    exact hother remap hremap hsame
  have hplaced : placed change episode = false := by
    refine decide_eq_false fun hin => ?_
    obtain ⟨place, hplace, hsame⟩ := List.mem_map.mp hin
    obtain ⟨remap, hremap, hposition⟩ := List.mem_filterMap.mp hplace
    obtain ⟨after, -, rfl⟩ := Option.map_eq_some_iff.mp hposition
    exact hother remap hremap hsame
  have hkept : (keptIds project change) =
      project.ids.filter (· ∉ idsOf change project fun remap => remap.after = none) := by
    refine List.filter_congr fun id hid => decide_eq_decide.mpr ?_
    rw [mem_idsOf]
    simp [hid]
  have horder : episode ∈ (impactOf change project hasScriptPlan).2 :=
    (orderAfter_perm change project.ids _).mem_iff.mpr
      (List.mem_filter.mpr ⟨hepisode, decide_eq_true hgone⟩)
  rw [applied_ids happly, hkept]
  refine ⟨List.mem_append_left _ horder, ?_⟩
  rw [leadUp_append horder]
  exact leadUp_orderAfter hnodup hepisode hgone hplaced

end Applying

section Runs

variable {matcher : SequenceMatcher} {digest : Text → String} {hasScriptPlan : ℕ → Bool}
  {revisionOf : Command → SourceFileImpact → String} {command : Command} {revision : Option String}
  {dryRun : Bool} {project : Project} {outcome : SourceFileChangeOutcome}

theorem leave_self_iff (digest : Text → String) (project : Project) :
    leave digest project project = project ↔
      project.sourceRemaining = some (project.computeSourceRemaining digest) := by
  unfold leave
  dsimp only
  split_ifs with hsame
  · have hremaining := congrArg (fun m => m.2.2.2.2) hsame
    exact iff_of_true rfl hremaining.symm
  · constructor
    · intro h
      exact (congrArg Project.sourceRemaining h).symm
    · intro h
      refine absurd ?_ hsame
      unfold manifest Project.recordSourceRemaining
      rw [h]

/-- A change that is carried out: none that is only computed, nor one whose impact is not the one that
was confirmed. -/
def Confirmed (hasScriptPlan : ℕ → Bool) (revisionOf : Command → SourceFileImpact → String)
    (command : Command) (revision : Option String) (dryRun : Bool) (project : Project)
    (change : Change) : Prop :=
  dryRun = false ∧ ((impactOf change project hasScriptPlan).1.isEmpty = true ∨
    revision = some (revisionOf command (impactOf change project hasScriptPlan).1))

structure RunKeeps (project : Project) (change : Change) (outcome : SourceFileChangeOutcome) :
    Prop where
  unconfirmed : outcome.applied = false → outcome.project = project
  confirmed : outcome.applied = true → Applied project change outcome.project

theorem applied_leave_iff {digest' : Text → String} {change : Change} {written : Project} :
    Applied project change (leave digest' project written) ↔ Applied project change written := by
  have hkeeps : (leave digest' project written).docs = written.docs ∧
      (leave digest' project written).entries = written.entries ∧
        (leave digest' project written).ids = written.ids ∧
          (leave digest' project written).files = written.files := by
    unfold leave
    dsimp only
    split_ifs
    · exact ⟨rfl, rfl, rfl, rfl⟩
    · exact ⟨rfl, rfl, rfl, rfl⟩
  obtain ⟨hdocs, hentries, hids, hfiles⟩ := hkeeps
  constructor
  · rintro ⟨hderived, hrewritten, hledger, hfollowers⟩
    rw [hdocs, hfiles] at hderived hrewritten
    rw [hentries] at hledger
    rw [hids] at hfollowers
    exact ⟨hderived, hrewritten, hledger, hfollowers⟩
  · rintro ⟨hderived, hrewritten, hledger, hfollowers⟩
    rw [← hdocs, ← hfiles] at hderived hrewritten
    rw [← hentries] at hledger
    rw [← hids] at hfollowers
    exact ⟨hderived, hrewritten, hledger, hfollowers⟩

theorem applyChange_iff {ranges : Spans} {change : Change} {written : Project}
    (hsources : (project.sources.map (·.rel)).Nodup) (hnodup : project.ids.Nodup)
    (hderived : Derived project) (hranges : spans project = .ok ranges)
    (hplanned : Planned matcher project command ranges change)
    (happly : applyChange change (impactOf change project hasScriptPlan).1 digest
      (change.commit project) project.entries (impactOf change project hasScriptPlan).2 =
        .ok written) :
    Applied project change written ↔ ¬ InsertsAtEdge project command := by
  have hpaths := rels_nodup hsources
  have hremapped := remapped_of_planned hsources hranges hplanned
  have hids := ranges_mem_ids hpaths hranges
  have hfiles := derived_ranges hpaths hranges hderived
  have hiff := derived_iff happly hremapped hplanned.files hids hfiles
  refine ⟨fun h => hiff.mp h.derived, fun h => ⟨hiff.mpr h, fun episode hchanged => ?_, ?_, ?_⟩⟩
  · exact rewritten_changed happly hremapped hplanned.files hids hfiles hchanged
  · exact fun remap hremap after hafter =>
      ledger_ranges happly hremapped hids hnodup hremap hafter
  · exact fun episode hepisode hother => followers_kept happly hnodup hepisode hother

/-- A run keeps what it owes if and only if, when it is confirmed, it does not insert a file at the
edge of an episode, and, when it is not, what is left to plan was recorded as it is. -/
theorem run_keeps_iff (hsources : (project.sources.map (·.rel)).Nodup)
    (hfresh : Fresh project command) (hderived : Derived project)
    (h : run matcher digest hasScriptPlan revisionOf command revision dryRun project = .ok outcome) :
    ∃ change, command.plan matcher digest project = .ok change ∧
      (outcome.applied = true ↔
        Confirmed hasScriptPlan revisionOf command revision dryRun project change) ∧
      (RunKeeps project change outcome ↔
        (Confirmed hasScriptPlan revisionOf command revision dryRun project change →
          ¬ InsertsAtEdge project command) ∧
        (¬ Confirmed hasScriptPlan revisionOf command revision dryRun project change →
          project.sourceRemaining = some (project.computeSourceRemaining digest))) := by
  unfold run at h
  obtain ⟨-, -, h⟩ := bind_eq_ok.mp h
  obtain ⟨entries, hentries, h⟩ := bind_eq_ok.mp h
  obtain ⟨change, hplan, h⟩ := bind_eq_ok.mp h
  obtain ⟨ranges, hranges, hplanned⟩ := plan_planned hsources hfresh hplan
  refine ⟨change, hplan, ?_⟩
  have hledger := orThrow_eq_ok.mp hentries
  unfold Project.wellFormedLedgerEntries at hledger
  split_ifs at hledger with hwell
  obtain rfl := Option.some.inj hledger
  dsimp only at h
  split_ifs at h with hgate
  · cases h
    have hnot : ¬ Confirmed hasScriptPlan revisionOf command revision dryRun project change := by
      rintro ⟨hdry, hconfirmed⟩
      rcases hgate with hdryRun | ⟨himpact, hrevision⟩
      · rw [hdry] at hdryRun
        cases hdryRun
      · exact hconfirmed.elim himpact hrevision
    refine ⟨iff_of_false Bool.false_ne_true hnot, ?_⟩
    constructor
    · exact fun hkeeps => ⟨fun hconfirmed => absurd hconfirmed hnot,
        fun _ => (leave_self_iff digest project).mp (hkeeps.unconfirmed rfl)⟩
    · exact fun hcondition => ⟨fun _ => (leave_self_iff digest project).mpr (hcondition.2 hnot),
        fun happlied => absurd happlied Bool.false_ne_true⟩
  · obtain ⟨written, hwritten, h⟩ := bind_eq_ok.mp h
    cases h
    have hconfirmed : Confirmed hasScriptPlan revisionOf command revision dryRun project change := by
      obtain ⟨hdry, himpact⟩ := not_or.mp hgate
      refine ⟨Bool.eq_false_iff.mpr hdry, ?_⟩
      by_contra hnot
      obtain ⟨hempty, hrevision⟩ := not_or.mp hnot
      exact himpact ⟨hempty, hrevision⟩
    have hiff := applyChange_iff hsources hwell.2 hderived hranges hplanned hwritten
    refine ⟨iff_of_true rfl hconfirmed, ?_⟩
    constructor
    · exact fun hkeeps => ⟨fun _ => hiff.mp (applied_leave_iff.mp (hkeeps.confirmed rfl)),
        fun hnot => absurd hconfirmed hnot⟩
    · exact fun hcondition => ⟨fun hfalse => absurd hfalse.symm Bool.false_ne_true,
        fun _ => applied_leave_iff.mpr (hiff.mpr (hcondition.1 hconfirmed))⟩

end Runs

def edgeEntry : LedgerEntry where
  episode := 1
  title := []
  scriptFile := "scripts/episode_1.json"
  sourceOrigin := some .wholeSource
  sourceRange := .span ⟨"source/a.txt", 2, "source/b.txt", 1⟩
  ledgerStatus := .planned

def edgeProject : Project where
  contentMode := .drama
  sources := [⟨"source/a.txt", some ['x', 'y'], .novel⟩, ⟨"source/b.txt", some ['z'], .novel⟩]
  entries := [edgeEntry]
  highWater := 1
  fingerprints := []
  sourceRemaining := none
  snapshots := fun _ => none
  files := fun episode => if episode = 1 then some ['z'] else none
  products := []

theorem edgeProject_placements : edgeProject.placements = [⟨1, ⟨0, 2, 1, 1⟩⟩] := by
  unfold Project.placements cutEpisodePlacements
  rw [List.mergeSort_of_pairwise (by decide)]
  decide

theorem edgeProject_derived : Derived edgeProject := by
  intro item hitem
  rw [edgeProject_placements] at hitem
  obtain rfl := List.mem_singleton.mp hitem
  decide

theorem edgeProject_spans :
    spans edgeProject = .ok [(1, ⟨"source/a.txt", 2, "source/b.txt", 1⟩)] := by
  have hplacements := edgeProject_placements
  unfold Project.placements at hplacements
  unfold spans spansOf
  rw [hplacements]
  rfl

def runEdge (command : Command) (dryRun : Bool) :
    Except SourceFileChangeError SourceFileChangeOutcome :=
  run disjointMatcher (fun _ => "") (fun _ => false) (fun _ _ => "") command none dryRun edgeProject

theorem not_insertsAtEdge_end :
    ¬ InsertsAtEdge edgeProject (.insert none "source/n.txt" ['n'] none) := by
  rintro ⟨ranges, hranges, -, entry, hentry, p, hplace, -, hlast, -⟩
  have hspans := orThrow_eq_ok.mp edgeProject_spans
  obtain rfl := Option.some.inj (hspans.symm.trans hranges)
  obtain rfl := List.mem_singleton.mp hentry
  obtain rfl := Option.some.inj (hplace.symm.trans
    (show place edgeProject.docs ⟨"source/a.txt", 2, "source/b.txt", 1⟩ = some ⟨0, 2, 1, 1⟩ by decide))
  exact absurd hlast (by decide)

/-- A file that is inserted behind the episode leaves it as it is. -/
theorem run_keeps_at_end :
    ∃ outcome change, runEdge (.insert none "source/n.txt" ['n'] none) false = .ok outcome ∧
      outcome.applied = true ∧ RunKeeps edgeProject change outcome := by
  obtain ⟨outcome, hrun, happlied⟩ :
      ∃ outcome, runEdge (.insert none "source/n.txt" ['n'] none) false = .ok outcome ∧
        outcome.applied = true := by
    unfold runEdge run Command.plan planInsert
    rw [edgeProject_spans]
    exact ⟨_, rfl, rfl⟩
  have hfresh : Fresh edgeProject (.insert none "source/n.txt" ['n'] none) := by
    unfold Fresh
    decide
  obtain ⟨change, -, hconfirmed, hiff⟩ :=
    run_keeps_iff (by decide) hfresh edgeProject_derived hrun
  exact ⟨outcome, change, hrun, happlied, hiff.mpr ⟨fun _ => not_insertsAtEdge_end,
    fun hnot => absurd (hconfirmed.mp happlied) hnot⟩⟩

/-- A dry run that writes `project.json`, and a file that is inserted where the episode starts: the
episode has the text from before. -/
theorem run_keeps_fails :
    (∃ outcome, runEdge (.delete "a.txt") true = .ok outcome ∧ outcome.applied = false ∧
      outcome.project.sourceRemaining ≠ edgeProject.sourceRemaining) ∧
    ∃ outcome, runEdge (.insert (some 1) "source/n.txt" ['n'] none) false = .ok outcome ∧
      outcome.applied = true ∧ outcome.project.files 1 = some ['z'] ∧
        text outcome.project.docs ⟨"source/a.txt", 2, "source/b.txt", 1⟩ = some ['n', 'z'] := by
  unfold runEdge run Command.plan planDelete planInsert
  rw [edgeProject_spans]
  exact ⟨⟨_, rfl, rfl, by decide⟩, _, rfl, rfl, rfl, by decide⟩

end ShortReel.SourceFileRuns
