import ShortReel.ManualSplitLedgers

/-!
# Manual splits keep the ledger sound

Whatever command is accepted, the ledger that it writes is sound when the one before was.
-/

namespace ShortReel.ManualSplitSafety

open SourceAlignment SourceRemap SourcePlaces CutPlacements EpisodeLedger LedgerPlacements
open ManualSplit ManualSplitPlans ManualSplitLedgers

/-- What an accepted command keeps of a ledger. The ids are those of before without the episodes that
give up their place, with the new one in between and the retired ones behind; `removed` is gone. -/
structure Keeps (project project' : Project) (impact : ManualSplitImpact) (episode : Option ℕ) :
    Prop where
  sound : Sound project'
  sources : project'.docs = project.docs
  walls : ∀ item ∈ project'.placements, ∀ wall ∈ kindWalls project,
    Inside wall (placeSpan project.docs item.place) →
      ∃ old ∈ project.placements, Inside wall (placeSpan project.docs old.place) ∧
        (old.episode = item.episode ∨ old.episode ∈ impact.retired ++ impact.removed ∨
          episode = some item.episode)
  fresh : ∀ id ∈ episode, id ∉ project.ids
  ids : ∃ front back,
    front ++ back = project.ids.filter (· ∉ impact.retired ++ impact.removed) ∧
      project'.ids = front ++ (episode.toList ++ (back ++ impact.retired))
  retired : impact.retired.Sublist project.ids

section Ledgers

variable {project project' : Project}

theorem docs_congr (h : project'.sources = project.sources) : project'.docs = project.docs := by
  unfold Project.docs
  rw [h]

theorem sound_congr (hsources : project'.sources = project.sources)
    (hentries : project'.entries = project.entries) (hfiles : project'.files = project.files)
    (h : Sound project) : Sound project' := by
  obtain ⟨hpaths, hpositive, hids, hapart, htext, hderived⟩ := h
  rw [← docs_congr hsources] at hpaths hapart htext hderived
  unfold Project.ids at hids
  rw [← hentries] at hpositive hids hapart htext hderived
  rw [← hfiles] at hderived
  exact ⟨hpaths, hpositive, hids, hapart, htext, hderived⟩

end Ledgers

section Applied

variable {digest : Text → String} {project project' : Project} {layout : Layout} {edit : Edit}
  {impact : ManualSplitImpact} {episode : Option ℕ} (hsound : Sound project)
  (hlayout : layoutOf project = .ok layout) (hfits : Fits project edit)
  (himpact : impact = impactOf project layout edit)
  (h : applyEdit digest project layout edit impact = .ok (episode, project'))

theorem assigned_disjoint {a b : ℕ × ℕ × ℕ} (hfits : Fits project edit)
    (ha : a ∈ assigned project edit) (hb : b ∈ assigned project edit) (hne : a ≠ b) :
    DisjointRanges a.2 b.2 := by
  have hapart := hfits.apart
  rw [← map_snd_assigned project, List.pairwise_map] at hapart
  have : Std.Symm fun a b : ℕ × ℕ × ℕ => DisjointRanges a.2 b.2 :=
    ⟨fun _ _ => DisjointRanges.symm⟩
  exact hapart.forall ha hb hne

theorem mem_results {a : ℕ × ℕ × ℕ} (ha : a ∈ assigned project edit) : a.2 ∈ results edit := by
  rw [← map_snd_assigned project]
  exact List.mem_map_of_mem ha

theorem assigned_inj {a b : ℕ × ℕ × ℕ} (hfits : Fits project edit)
    (ha : a ∈ assigned project edit) (hb : b ∈ assigned project edit) (h : a.2 = b.2) : a = b := by
  by_contra hne
  have hdisjoint := assigned_disjoint hfits ha hb hne
  have hlt := span_lt_of_text (hfits.text _ (mem_results ha))
  rw [← h] at hdisjoint
  unfold DisjointRanges at hdisjoint
  omega

theorem fromPlan_apart (hsound : Sound project) (hfits : Fits project edit) {x y : CutPlacement}
    (hx : FromPlan project edit x) (hy : FromPlan project edit y) (hne : x.episode ≠ y.episode) :
    Apart x.place y.place := by
  have hmixed : ∀ {x y : CutPlacement}, x ∈ project.placements →
      x.episode ∉ edit.ranges.map Prod.fst → x.episode ∉ edit.dropped →
      Tight project.docs y.place →
      (y.episode, placeSpan project.docs y.place) ∈ assigned project edit →
      Apart y.place x.place := by
    intro x y hplaced hkeys hdropped htight hassigned
    obtain ⟨entry, -, hplacement⟩ := hsound.mem_placements.mp hplaced
    exact htight.apart (cutPlacement_inBounds hplacement)
      (hfits.others _ (mem_results hassigned) x hplaced hkeys hdropped)
  rcases hx with ⟨hplaced, hkeys, hdropped⟩ | ⟨htight, hassigned⟩ <;>
    rcases hy with ⟨hplaced', hkeys', hdropped'⟩ | ⟨htight', hassigned'⟩
  · obtain ⟨first, hfirst, ha⟩ := hsound.mem_placements.mp hplaced
    obtain ⟨second, hsecond, hb⟩ := hsound.mem_placements.mp hplaced'
    exact hsound.apart_of_ne hfirst ha hsecond hb hne
  · exact (hmixed hplaced hkeys hdropped htight' hassigned').symm
  · exact hmixed hplaced' hkeys' hdropped' htight hassigned
  · refine htight.apart htight'.toInBounds (assigned_disjoint hfits hassigned hassigned' ?_)
    exact fun heq => hne (congrArg Prod.fst heq)

theorem applied_fresh
    (h : applyEdit digest project layout edit impact = .ok (episode, project')) :
    ∀ id ∈ episode, id ∉ project.ids := by
  obtain ⟨hepisode, -, -, -, -, -⟩ := applyEdit_ok h
  rintro id hid hmem
  rw [hepisode] at hid
  obtain ⟨range, -, rfl⟩ := Option.map_eq_some_iff.mp hid
  obtain ⟨entry, hentry, heq⟩ := List.mem_map.mp hmem
  have hle := le_foldl_ids hentry
  omega

include hsound hlayout hfits himpact h

theorem applied_ids : ∃ front back,
    front ++ back = project.ids.filter (· ∉ impact.retired ++ impact.removed) ∧
      project'.ids = front ++ (episode.toList ++ (back ++ impact.retired)) := by
  obtain ⟨hepisode, -, -, -, hentries, -⟩ := applyEdit_ok h
  have hfilter : project.ids.filter (· ∉ impact.retired ++ impact.removed) =
      project.ids.filter (· ∉ edit.dropped) := by
    refine List.filter_congr fun id hid => ?_
    rw [decide_eq_decide, not_iff_not]
    exact (mem_dropped_iff hlayout himpact hid).symm
  have hranged : (layout.entries.map (rerange layout edit impact)).map (·.episode) =
      project.ids := by
    rw [map_rerange_episode, layoutOf_eq hlayout]
    rfl
  have hids : project'.ids = ((insertedEntries project layout edit impact).map
      (·.episode)).filter (· ∉ edit.dropped) ++ impact.retired := by
    unfold Project.ids
    rw [hentries, List.map_append, retiredEntries_ids hsound hlayout hfits himpact, List.filter_map]
    rfl
  rw [hfilter, hids, hepisode]
  unfold insertedEntries
  cases hnew : edit.newRange with
  | none =>
      refine ⟨project.ids.filter (· ∉ edit.dropped), [], List.append_nil _, ?_⟩
      dsimp only
      rw [hranged]
      rfl
  | some range =>
      have hkept : project.episodeIdHighWater + 1 ∉ edit.dropped := fun hmem =>
        assigned_fresh hfits (Or.inr hmem) rfl
      refine ⟨(project.ids.take edit.insertBefore).filter (· ∉ edit.dropped),
        (project.ids.drop edit.insertBefore).filter (· ∉ edit.dropped), ?_, ?_⟩
      · rw [← List.filter_append, List.take_append_drop]
      · have hnewId : (newEntry project layout edit range (project.episodeIdHighWater + 1)).episode =
            project.episodeIdHighWater + 1 := by
          unfold newEntry
          dsimp only
          split_ifs <;> rfl
        have hcons : ((project.episodeIdHighWater + 1) :: project.ids.drop edit.insertBefore).filter
            (· ∉ edit.dropped) = (project.episodeIdHighWater + 1) ::
              (project.ids.drop edit.insertBefore).filter (· ∉ edit.dropped) :=
          List.filter_cons_of_pos (decide_eq_true hkept)
        dsimp only
        rw [List.map_append, List.map_cons, List.map_take, List.map_drop, hranged, hnewId,
          List.filter_append, List.append_assoc, hcons]
        rfl

theorem applied_nodup : project'.ids.Nodup := by
  obtain ⟨front, back, hkept, hids⟩ := applied_ids hsound hlayout hfits himpact h
  have hfresh := applied_fresh h
  have hsub := retired_sublist hlayout himpact
  have hmem : ∀ id ∈ front ++ back, id ∈ project.ids ∧ id ∉ impact.retired := by
    intro id hid
    rw [hkept] at hid
    obtain ⟨hid, hnot⟩ := List.mem_filter.mp hid
    exact ⟨hid, fun hretired => of_decide_eq_true hnot (List.mem_append_left _ hretired)⟩
  have hperm : project'.ids.Perm (episode.toList ++ (front ++ back ++ impact.retired)) := by
    rw [hids, List.append_assoc]
    exact List.perm_append_comm_assoc _ _ _
  rw [hperm.nodup_iff, List.nodup_append, List.nodup_append]
  refine ⟨?_, ⟨?_, hsound.ids.sublist hsub, ?_⟩, ?_⟩
  · cases episode with
    | none => exact List.nodup_nil
    | some id => exact List.nodup_singleton id
  · rw [hkept]
    exact hsound.ids.filter _
  · rintro id hid other hother rfl
    exact (hmem id hid).2 hother
  · rintro id hid other hother rfl
    rcases List.mem_append.mp hother with hother | hother
    · exact hfresh id (Option.mem_toList.mp hid) (hmem id hother).1
    · exact hfresh id (Option.mem_toList.mp hid) (hsub.mem hother)

theorem applied_positive : ∀ entry ∈ project'.entries, 0 < entry.episode := by
  obtain ⟨front, back, hkept, hids⟩ := applied_ids hsound hlayout hfits himpact h
  obtain ⟨hepisode, -, -, -, -, -⟩ := applyEdit_ok h
  have hold : ∀ id ∈ project.ids, 0 < id := by
    intro id hid
    obtain ⟨entry, hentry, rfl⟩ := List.mem_map.mp hid
    exact hsound.positive entry hentry
  have hkeptMem : ∀ id ∈ front ++ back, id ∈ project.ids := fun id hid =>
    (List.mem_filter.mp (hkept ▸ hid)).1
  intro entry hentry
  have hid : entry.episode ∈ project'.ids := List.mem_map_of_mem hentry
  rw [hids] at hid
  rcases List.mem_append.mp hid with hid | hid
  · exact hold _ (hkeptMem _ (List.mem_append_left _ hid))
  · rcases List.mem_append.mp hid with hid | hid
    · rw [Option.mem_toList, hepisode] at hid
      obtain ⟨range, -, heq⟩ := Option.map_eq_some_iff.mp hid
      omega
    · rcases List.mem_append.mp hid with hid | hid
      · exact hold _ (hkeptMem _ (List.mem_append_right _ hid))
      · exact hold _ ((retired_sublist hlayout himpact).mem hid)

omit himpact in
theorem applied_files {item : CutPlacement} (hitem : FromPlan project edit item) :
    (placementText project.docs item.place).all isSpace = false ∧
      project'.files item.episode = some (placementText project.docs item.place) := by
  obtain ⟨hepisode, -, -, -, -, hfiles⟩ := applyEdit_ok h
  rw [hfiles, hepisode]
  rcases hitem with ⟨hplaced, hkeys, hdropped⟩ | ⟨htight, hassigned⟩
  · obtain ⟨entry, hentry, hplacement⟩ := hsound.mem_placements.mp hplaced
    have hid := cutPlacement_episode hplacement
    have hle := le_foldl_ids hentry
    refine ⟨hsound.text entry hentry item hplacement, ?_⟩
    rw [writeDerived_untouched hkeys hdropped (by omega), hid]
    exact hsound.files entry hentry item hplacement
  · rw [placementText_eq htight.toInBounds]
    exact ⟨hfits.text _ (mem_results hassigned),
      writeDerived_assigned hlayout hfits hassigned⟩

theorem applyEdit_sound : Sound project' := by
  obtain ⟨-, hsources, -, -, -, -⟩ := applyEdit_ok h
  have hdocs := docs_congr hsources
  have hplan : ∀ entry ∈ project'.entries, ∀ item,
      cutPlacement project.docs entry = some item → FromPlan project edit item :=
    fun entry hentry item => placed_fromPlan hsound hlayout hfits h hentry
  refine ⟨?_, applied_positive hsound hlayout hfits himpact h,
    applied_nodup hsound hlayout hfits himpact h, ?_, ?_, ?_⟩
  · rw [hdocs]
    exact hsound.paths
  · intro a ha b hb hne x y hx hy
    rw [hdocs] at hx hy
    refine fromPlan_apart hsound hfits (hplan a ha x hx) (hplan b hb y hy) ?_
    rwa [cutPlacement_episode hx, cutPlacement_episode hy]
  · intro entry hentry item hitem
    rw [hdocs] at hitem ⊢
    exact (applied_files hsound hlayout hfits h (hplan entry hentry item hitem)).1
  · intro entry hentry item hitem
    rw [hdocs] at hitem ⊢
    rw [← cutPlacement_episode hitem]
    exact (applied_files hsound hlayout hfits h (hplan entry hentry item hitem)).2

theorem applied_walls {item : CutPlacement} (hitem : FromPlan project edit item) {wall : ℕ}
    (hwall : wall ∈ kindWalls project)
    (hinside : Inside wall (placeSpan project.docs item.place)) :
    ∃ old ∈ project.placements, Inside wall (placeSpan project.docs old.place) ∧
      (old.episode = item.episode ∨ old.episode ∈ impact.retired ++ impact.removed ∨
        episode = some item.episode) := by
  obtain ⟨hepisode, -, -, -, -, -⟩ := applyEdit_ok h
  rcases hitem with ⟨hplaced, -, -⟩ | ⟨-, hassigned⟩
  · exact ⟨item, hplaced, hinside, Or.inl rfl⟩
  · obtain ⟨old, hold, hcrossed, hwhy⟩ :=
      hfits.walls wall hwall _ (mem_results hassigned) hinside
    refine ⟨old, hold, hcrossed, ?_⟩
    rcases hwhy with hrange | hdropped | hnew
    · have heq := assigned_inj hfits (List.mem_append_left _ hrange) hassigned rfl
      exact Or.inl (congrArg Prod.fst heq)
    · obtain ⟨entry, hentry, hplacement⟩ := hsound.mem_placements.mp hold
      refine Or.inr (Or.inl ((mem_dropped_iff hlayout himpact ?_).mp hdropped))
      rw [cutPlacement_episode hplacement]
      exact List.mem_map_of_mem hentry
    · have hmem : (project.episodeIdHighWater + 1, placeSpan project.docs item.place) ∈
          assigned project edit := by
        unfold assigned
        rw [hnew]
        exact List.mem_append_right _ List.mem_cons_self
      have heq := congrArg Prod.fst (assigned_inj hfits hmem hassigned rfl)
      refine Or.inr (Or.inr ?_)
      rw [hepisode, hnew]
      exact congrArg some heq

theorem applyEdit_keeps : Keeps project project' impact episode := by
  obtain ⟨-, hsources, -, -, -, -⟩ := applyEdit_ok h
  have hsound' := applyEdit_sound hsound hlayout hfits himpact h
  refine ⟨hsound', docs_congr hsources, ?_, applied_fresh h,
    applied_ids hsound hlayout hfits himpact h, retired_sublist hlayout himpact⟩
  intro item hitem wall hwall hinside
  obtain ⟨entry, hentry, hplacement⟩ := hsound'.mem_placements.mp hitem
  rw [docs_congr hsources] at hplacement
  exact applied_walls hsound hlayout hfits himpact h
    (placed_fromPlan hsound hlayout hfits h hentry hplacement) hwall hinside

end Applied

section Runs

variable {digest : Text → String} {countReadingUnits : Text → ℕ} {seen project written : Project}
  {command : Command} {confirmed : Confirmation} {impact : ManualSplitImpact} {episode : Option ℕ}

theorem mapError_ok {ε ε' α : Type} {f : ε → ε'} {x : Except ε α} {a : α}
    (h : x.mapError f = .ok a) : x = .ok a := by
  cases x with
  | error => cases h
  | ok b => exact congrArg Except.ok (Except.ok.inj h)

theorem commit_keeps {touched : List ℕ} (hsound : Sound project)
    (h : commit digest countReadingUnits command confirmed touched project =
      .ok ((impact, episode), written)) : Keeps project written impact episode := by
  obtain ⟨layout, hlayout, h⟩ := bind_eq_ok.mp h
  obtain ⟨edit, hedit, h⟩ := bind_eq_ok.mp h
  have hfits := plan_fits hsound (mapError_ok hlayout) (mapError_ok hedit)
  dsimp only at h
  split at h
  · cases h
  split at h
  · cases h
  · obtain ⟨⟨new, applied⟩, happlied, h⟩ := bind_eq_ok.mp h
    cases h
    exact applyEdit_keeps hsound (mapError_ok hlayout) hfits rfl (mapError_ok happlied)

theorem applyMutation_ok {ε α : Type} {mutate : Project → Except ε (α × Project)} {value : α}
    (h : project.applyMutation digest mutate = .ok (value, written)) :
    ∃ mutated remaining, mutate project.raiseEpisodeIdHighWater = .ok (value, mutated) ∧
      written = { mutated with sourceRemaining := remaining } := by
  obtain ⟨⟨other, mutated⟩, hmutated, h⟩ := bind_eq_ok.mp h
  dsimp only at h
  split_ifs at h
  · cases h
    exact ⟨_, written.sourceRemaining, hmutated, rfl⟩
  · cases h
    exact ⟨mutated, _, hmutated, rfl⟩

/-- An accepted command leaves the ledger sound: the ranges apart and with a text, the files with the
texts of their ranges. -/
theorem run_keeps (hsound : Sound project)
    (h : run digest countReadingUnits seen project command confirmed =
      .ok (.written impact episode written)) : Keeps project written impact episode := by
  obtain ⟨⟨preview, touched⟩, -, h⟩ := bind_eq_ok.mp h
  dsimp only at h
  split_ifs at h
  · cases h
  · split at h
    · rename_i hmutation
      cases h
      obtain ⟨mutated, remaining, hmutated, rfl⟩ := applyMutation_ok hmutation
      have hraised : Sound project.raiseEpisodeIdHighWater :=
        @sound_congr project project.raiseEpisodeIdHighWater rfl rfl rfl hsound
      obtain ⟨hkeeps, hdocs, hwalls, hfresh, hids, hretired⟩ := commit_keeps hraised hmutated
      exact ⟨@sound_congr mutated _ rfl rfl rfl hkeeps, hdocs, hwalls, hfresh, hids, hretired⟩
    · cases h
    · cases h

end Runs

def cutEntry (episode start stop : ℕ) : LedgerEntry where
  episode := episode
  title := []
  scriptFile := "scripts/episode_" ++ toString episode ++ ".json"
  sourceOrigin := some .wholeSource
  sourceRange := .span ⟨"source/a.txt", start, "source/a.txt", stop⟩
  ledgerStatus := .planned

def twoEpisodes : Project where
  contentMode := .drama
  sources := [⟨"source/a.txt", some ['a', 'b', 'c', 'd'], .novel⟩]
  entries := [cutEntry 1 0 2, cutEntry 2 2 4]
  highWater := 2
  fingerprints := []
  sourceRemaining := none
  snapshots := fun _ => none
  files := fun episode => if episode = 1 then some ['a', 'b'] else some ['c', 'd']
  products := []

def twoLayout : Layout where
  docs := [⟨"source/a.txt", ['a', 'b', 'c', 'd']⟩]
  entries := twoEpisodes.entries
  placements := [⟨1, ⟨0, 0, 0, 2⟩⟩, ⟨2, ⟨0, 2, 0, 4⟩⟩]
  kindWalls := []

theorem twoEpisodes_sound : Sound twoEpisodes := by
  have hfirst : cutPlacement twoEpisodes.docs (cutEntry 1 0 2) = some ⟨1, ⟨0, 0, 0, 2⟩⟩ := by decide
  have hsecond : cutPlacement twoEpisodes.docs (cutEntry 2 2 4) = some ⟨2, ⟨0, 2, 0, 4⟩⟩ := by decide
  have hall : ∀ {P : LedgerEntry → CutPlacement → Prop},
      P (cutEntry 1 0 2) ⟨1, ⟨0, 0, 0, 2⟩⟩ → P (cutEntry 2 2 4) ⟨2, ⟨0, 2, 0, 4⟩⟩ →
        ∀ entry ∈ twoEpisodes.entries, ∀ item,
          cutPlacement twoEpisodes.docs entry = some item → P entry item := by
    intro P hone htwo entry hentry item hitem
    rcases List.mem_cons.mp hentry with rfl | hentry
    · rw [hfirst] at hitem
      cases hitem
      exact hone
    · obtain rfl := List.mem_singleton.mp hentry
      rw [hsecond] at hitem
      cases hitem
      exact htwo
  refine ⟨by decide, by decide, by decide, ?_, hall (by decide) (by decide), hall rfl rfl⟩
  intro a ha b hb hne x y hx hy
  revert hne
  refine @hall (fun a x => a.episode ≠ b.episode → Apart x.place y.place) ?_ ?_ a ha x hx <;>
    refine @hall (fun b y => _ ≠ b.episode → Apart _ y.place) ?_ ?_ b hb y hy <;> intro hne
  · exact absurd rfl hne
  · exact Or.inl (Or.inr ⟨rfl, le_rfl⟩)
  · exact Or.inr (Or.inr ⟨rfl, le_rfl⟩)
  · exact absurd rfl hne

theorem twoEpisodes_layout : layoutOf twoEpisodes = .ok twoLayout := by
  have hplacements : twoEpisodes.placements = twoLayout.placements := by
    rw [twoEpisodes_sound.placements_eq, List.mergeSort_of_pairwise (by decide)]
    decide
  unfold layoutOf
  rw [hplacements]
  rfl

theorem twoEpisodes_raised : twoEpisodes.raiseEpisodeIdHighWater = twoEpisodes := rfl

theorem run_keeps_split :
    ∃ written, run (fun _ => "") List.length twoEpisodes twoEpisodes (.split 1 1 none)
        ⟨[], 0, false⟩ = .ok (.written ⟨[], [], [], 0⟩ (some 3) written) ∧
      Keeps twoEpisodes written ⟨[], [], [], 0⟩ (some 3) := by
  obtain ⟨written, hwritten⟩ : ∃ written, run (fun _ => "") List.length twoEpisodes twoEpisodes
      (.split 1 1 none) ⟨[], 0, false⟩ = .ok (.written ⟨[], [], [], 0⟩ (some 3) written) := by
    unfold run preview Project.applyMutation commit
    dsimp only
    rw [twoEpisodes_raised, twoEpisodes_layout]
    exact ⟨_, rfl⟩
  exact ⟨written, hwritten, run_keeps twoEpisodes_sound hwritten⟩

/-- The episode that is merged into the one before it is not in the ledger any more when it has no
products. -/
theorem merge_removes :
    ∃ written, run (fun _ => "") List.length twoEpisodes twoEpisodes (.merge 1)
        ⟨[], 0, false⟩ = .ok (.written ⟨[], [], [2], 0⟩ none written) ∧
      Sound twoEpisodes ∧ 2 ∈ twoEpisodes.ids ∧ 2 ∉ written.ids := by
  have hordered : twoLayout.ordered = twoLayout.placements :=
    List.mergeSort_of_pairwise (by decide)
  have hplan : (Command.merge 1).plan List.length twoLayout =
      .ok { touchesSource := true, ranges := [(1, 0, 4)], dropped := [2] } := by
    unfold Command.plan planMerge
    dsimp only
    rw [hordered]
    rfl
  unfold run preview Project.applyMutation commit
  dsimp only
  rw [twoEpisodes_raised, twoEpisodes_layout]
  simp only [ok_bind, Except.mapError, hplan]
  exact ⟨_, rfl, twoEpisodes_sound, by decide, by decide⟩

end ShortReel.ManualSplitSafety
