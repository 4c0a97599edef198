import ShortReel.ManualSplitPlans

/-!
# Ledgers after a manual split

The ranges of an edit are written so that they are placed where they stood in the plan, and the ledger
is sound again.
-/

namespace ShortReel.ManualSplitLedgers

open EditScripts SourceAlignment SourceRemap SourcePlaces CutPlacements EpisodeLedger
open LedgerPlacements ManualSplit ManualSplitPlans

section Ranges

variable {docs : List SourceDoc} {layout : Layout}

theorem exists_file {n position : ℕ} (h : position < base docs n) :
    ∃ i < n, base docs i ≤ position ∧ position < base docs (i + 1) := by
  induction n with
  | zero => exact absurd h (Nat.not_lt_zero _)
  | succ n ih =>
      rcases Nat.lt_or_ge position (base docs n) with hlt | hge
      · obtain ⟨i, hi, hfile⟩ := ih hlt
        exact ⟨i, hi.trans (Nat.lt_succ_self n), hfile⟩
      · exact ⟨n, Nat.lt_succ_self n, hge, h⟩

theorem exists_find {n : ℕ} {f : ℕ → Bool} (h : ∃ i < n, f i = true) :
    ∃ i < n, (List.range n).find? f = some i ∧ f i = true := by
  obtain ⟨i, hi, hf⟩ := h
  obtain ⟨j, hj⟩ := Option.isSome_iff_exists.mp
    (List.find?_isSome.mpr ⟨i, List.mem_range.mpr hi, hf⟩)
  exact ⟨j, List.mem_range.mp (List.mem_of_find?_eq_some hj), hj, List.find?_some hj⟩

theorem startPoint_eq {position : ℕ} (h : position < (wholeText layout.docs).length) :
    ∃ i rel, (rels layout.docs)[i]? = some rel ∧ base layout.docs i ≤ position ∧
      position < base layout.docs (i + 1) ∧
      layout.startPoint position = some (rel, position - base layout.docs i) := by
  have hlength : base layout.docs layout.docs.length = (wholeText layout.docs).length := by
    rw [base, List.take_length]
  rw [← hlength] at h
  obtain ⟨j, hj, hfile⟩ := exists_file h
  obtain ⟨i, hi, hfind, hholds⟩ := @exists_find layout.docs.length
    (fun i => base layout.docs i ≤ position ∧ position < base layout.docs (i + 1))
    ⟨j, hj, decide_eq_true hfile⟩
  obtain ⟨rel, hrel⟩ := rels_getElem? hi
  obtain ⟨hlow, hhigh⟩ := of_decide_eq_true hholds
  refine ⟨i, rel, hrel, hlow, hhigh, ?_⟩
  unfold Layout.startPoint
  simp only [hfind, hrel, Option.map_some]

theorem endPoint_eq {position : ℕ} (hpos : 0 < position)
    (h : position ≤ (wholeText layout.docs).length) :
    ∃ i rel, (rels layout.docs)[i]? = some rel ∧ base layout.docs i < position ∧
      position ≤ base layout.docs (i + 1) ∧
      layout.endPoint position = some (rel, position - base layout.docs i) := by
  have hlength : base layout.docs layout.docs.length = (wholeText layout.docs).length := by
    rw [base, List.take_length]
  obtain ⟨j, hj, hfile⟩ := @exists_file layout.docs layout.docs.length (position - 1) (by omega)
  obtain ⟨i, hi, hfind, hholds⟩ := @exists_find layout.docs.length
    (fun i => base layout.docs i < position ∧ position ≤ base layout.docs (i + 1))
    ⟨j, hj, decide_eq_true (by omega)⟩
  obtain ⟨rel, hrel⟩ := rels_getElem? hi
  obtain ⟨hlow, hhigh⟩ := of_decide_eq_true hholds
  refine ⟨i, rel, hrel, hlow, hhigh, ?_⟩
  unfold Layout.endPoint
  simp only [hfind, hrel, Option.map_some]

theorem rangeValue_eq (hdocs : (rels layout.docs).Nodup) {range : ℕ × ℕ} (hlt : range.1 < range.2)
    (hle : range.2 ≤ (wholeText layout.docs).length) :
    ∃ value p, rangeValue layout range = some value ∧ Tight layout.docs p ∧
      placeSpan layout.docs p = range ∧
      ∀ episode, candidate layout.docs (episode, value) = some ⟨episode, p⟩ := by
  obtain ⟨first, sourceFile, hsource, hfirst, hfirstLt, hstart⟩ :=
    @startPoint_eq layout range.1 (hlt.trans_le hle)
  obtain ⟨last, endFile, hend, hlast, hlastLe, hstop⟩ :=
    @endPoint_eq layout range.2 (by omega) hle
  have hfiles : first ≤ last := by
    by_contra hgt
    have hbase := @base_mono layout.docs (last + 1) first (Nat.lt_of_not_le hgt)
    omega
  have hlastLt := index_lt (index_of_getElem? hdocs hend)
  rw [base_succ] at hfirstLt hlastLe
  refine ⟨⟨sourceFile, range.1 - base layout.docs first, endFile, range.2 - base layout.docs last⟩,
    ⟨first, range.1 - base layout.docs first, last, range.2 - base layout.docs last⟩, ?_, ?_, ?_, ?_⟩
  · simp [rangeValue, hstart, hstop]
  · refine ⟨⟨⟨hfiles, hlastLt, ?_, ?_⟩, ?_⟩, ?_, ?_⟩
    · exact (Nat.sub_lt_left_of_lt_add hfirst hfirstLt).le
    · exact Nat.sub_le_iff_le_add'.mpr hlastLe
    · intro heq
      dsimp only at heq ⊢
      rw [heq]
      omega
    · exact Nat.sub_lt_left_of_lt_add hfirst hfirstLt
    · exact Nat.sub_pos_of_lt hlast
  · exact Prod.ext (Nat.add_sub_cancel' hfirst) (Nat.add_sub_cancel' hlast.le)
  · intro episode
    have hstartLe : ¬ lengthAt layout.docs first < range.1 - base layout.docs first := by omega
    have hordered : ¬ (first = last ∧
        range.2 - base layout.docs last < range.1 - base layout.docs first) := by
      rintro ⟨heq, hback⟩
      rw [heq] at hback
      omega
    have hmin : min (range.2 - base layout.docs last) (lengthAt layout.docs last) =
        range.2 - base layout.docs last := min_eq_left (by omega)
    simp only [candidate, index_of_getElem? hdocs hsource, index_of_getElem? hdocs hend,
      Option.bind_eq_bind, Option.bind_some, if_neg hfiles.not_gt, if_neg hstartLe, if_neg hordered,
      hmin]
    rfl

end Ranges

section Files

variable {text : Text} {files : ℕ → Option Text} {ranges : List (ℕ × ℕ × ℕ)} {episode : ℕ}

theorem writeRanges_other (h : episode ∉ ranges.map Prod.fst) :
    ranges.foldl (fun files (episode, start, stop) =>
      Function.update files episode (some (slice text start stop))) files episode = files episode := by
  induction ranges generalizing files with
  | nil => rfl
  | cons range ranges ih =>
      obtain ⟨hne, hrest⟩ := not_or.mp (List.mem_cons.not.mp h)
      rw [List.foldl_cons, ih hrest]
      exact Function.update_of_ne hne _ _

theorem writeRanges_mem {start stop : ℕ} (hkeys : (ranges.map Prod.fst).Nodup)
    (h : (episode, start, stop) ∈ ranges) :
    ranges.foldl (fun files (episode, start, stop) =>
      Function.update files episode (some (slice text start stop))) files episode =
        some (slice text start stop) := by
  induction ranges generalizing files with
  | nil => cases h
  | cons range ranges ih =>
      obtain ⟨hnot, hrest⟩ := List.nodup_cons.mp hkeys
      rw [List.foldl_cons]
      rcases List.mem_cons.mp h with rfl | hmem
      · rw [writeRanges_other hnot]
        exact Function.update_self _ _ _
      · exact ih hrest hmem

theorem dropFiles_other {dropped : List ℕ} (h : episode ∉ dropped) :
    dropped.foldl (fun files episode => Function.update files episode none) files episode =
      files episode := by
  induction dropped generalizing files with
  | nil => rfl
  | cons other dropped ih =>
      obtain ⟨hne, hrest⟩ := not_or.mp (List.mem_cons.not.mp h)
      rw [List.foldl_cons, ih hrest]
      exact Function.update_of_ne hne _ _

end Files

theorem lookup_mem {ranges : List (ℕ × ℕ × ℕ)} {episode : ℕ} {range : ℕ × ℕ}
    (h : ranges.lookup episode = some range) : (episode, range) ∈ ranges := by
  obtain ⟨front, back, rfl, -⟩ := List.lookup_eq_some_iff.mp h
  exact List.mem_append_right _ List.mem_cons_self

theorem exists_lookup {ranges : List (ℕ × ℕ × ℕ)} {episode : ℕ}
    (h : episode ∈ ranges.map Prod.fst) : ∃ range, ranges.lookup episode = some range := by
  obtain ⟨range, hrange, hepisode⟩ := List.mem_map.mp h
  exact Option.isSome_iff_exists.mp
    (List.lookup_isSome_iff.mpr ⟨range, hrange, beq_iff_eq.mpr hepisode.symm⟩)

theorem lookup_none {ranges : List (ℕ × ℕ × ℕ)} {episode : ℕ}
    (h : episode ∉ ranges.map Prod.fst) : ranges.lookup episode = none := by
  refine List.lookup_eq_none_iff.mpr fun range hrange => bne_iff_ne.mpr ?_
  rintro rfl
  exact h (List.mem_map_of_mem hrange)

section Entries

variable {project : Project} {layout : Layout} {edit : Edit} {impact : ManualSplitImpact}
  {entry : LedgerEntry}

theorem rerange_episode : (rerange layout edit impact entry).episode = entry.episode := by
  unfold rerange
  split
  · rfl
  · dsimp only
    split_ifs <;> rfl

theorem rerange_untouched (h : entry.episode ∉ edit.ranges.map Prod.fst) :
    rerange layout edit impact entry = entry := by
  unfold rerange
  rw [lookup_none h]
  rfl

theorem map_rerange_episode (entries : List LedgerEntry) :
    (entries.map (rerange layout edit impact)).map (·.episode) = entries.map (·.episode) := by
  rw [List.map_map]
  exact List.map_congr_left fun _ _ => rerange_episode

theorem cutPlacement_ranged {docs : List SourceDoc} {value : SourceSpan}
    (hcut : isCutEpisode entry = true) :
    cutPlacement docs { entry with sourceRange := .span value } =
      candidate docs (entry.episode, value) := by
  have hcut' : isCutEpisode { entry with sourceRange := .span value } = true := by
    unfold isCutEpisode episodeSourceOrigin at hcut ⊢
    cases horigin : entry.sourceOrigin with
    | none => rfl
    | some origin =>
        simp only [horigin] at hcut ⊢
        exact hcut
  unfold cutPlacement cutRange
  rw [if_pos hcut']
  rfl

theorem cutPlacement_stale {docs : List SourceDoc} :
    cutPlacement docs (markLedgerStale entry) = cutPlacement docs entry := rfl

theorem cutPlacement_retire {docs : List SourceDoc} : cutPlacement docs (retire entry) = none := rfl

end Entries

def assigned (project : Project) (edit : Edit) : List (ℕ × ℕ × ℕ) :=
  edit.ranges ++ edit.newRange.toList.map (project.episodeIdHighWater + 1, ·)

theorem map_snd_assigned (project : Project) (edit : Edit) :
    (assigned project edit).map Prod.snd = results edit := by
  unfold assigned results
  rw [List.map_append, List.map_map]
  congr 1
  exact List.map_id _

theorem le_foldl_ids {project : Project} {entry : LedgerEntry} (h : entry ∈ project.entries) :
    entry.episode ≤ project.episodeIdHighWater :=
  le_foldl_max (Or.inr (List.mem_map_of_mem h))

section Applied

variable {digest : Text → String} {project project' : Project} {layout : Layout} {edit : Edit}
  {impact : ManualSplitImpact} {episode : Option ℕ}

def insertedEntries (project : Project) (layout : Layout) (edit : Edit)
    (impact : ManualSplitImpact) : List LedgerEntry :=
  let ranged := layout.entries.map (rerange layout edit impact)
  match edit.newRange with
  | some range =>
      ranged.take edit.insertBefore ++
        newEntry project layout edit range (project.episodeIdHighWater + 1) ::
          ranged.drop edit.insertBefore
  | none => ranged

def retiredEntries (layout : Layout) (edit : Edit) (impact : ManualSplitImpact) :
    List LedgerEntry :=
  edit.dropped.filterMap fun episode =>
    if episode ∈ impact.retired then
      ((layout.entries.map (rerange layout edit impact)).find? (·.episode = episode)).map retire
    else none

theorem checkFingerprints_ok {docs : List SourceDoc} {checked : Project}
    (h : checkFingerprints digest project docs = .ok checked) :
    ∃ fingerprints, checked = { project with fingerprints } := by
  unfold checkFingerprints at h
  split_ifs at h
  cases h
  exact ⟨_, rfl⟩

theorem applyEdit_ok (h : applyEdit digest project layout edit impact = .ok (episode, project')) :
    episode = edit.newRange.map (fun _ => project.episodeIdHighWater + 1) ∧
      project'.sources = project.sources ∧ project'.contentMode = project.contentMode ∧
      project'.products = project.products ∧
      project'.entries = (insertedEntries project layout edit impact).filter
        (·.episode ∉ edit.dropped) ++ retiredEntries layout edit impact ∧
      project'.files = writeDerived layout edit episode project.files := by
  obtain ⟨checked, hchecked, h⟩ := bind_eq_ok.mp h
  obtain ⟨fingerprints, rfl⟩ : ∃ fingerprints, checked = { project with fingerprints } := by
    unfold checkEdit at hchecked
    split_ifs at hchecked
    · exact checkFingerprints_ok hchecked
    · cases hchecked
      exact ⟨project.fingerprints, rfl⟩
  cases h
  refine ⟨rfl, rfl, rfl, rfl, ?_, rfl⟩
  unfold insertedEntries
  cases edit.newRange with
  | none => rfl
  | some range => rfl

section Sound

variable (hsound : Sound project) (hlayout : layoutOf project = .ok layout)
  (hfits : Fits project edit)

theorem mem_insertedEntries {entry : LedgerEntry} (hlayout : layoutOf project = .ok layout)
    (h : entry ∈ insertedEntries project layout edit impact) :
    (∃ old ∈ project.entries, entry = rerange layout edit impact old) ∨
      ∃ range, edit.newRange = some range ∧
        entry = newEntry project layout edit range (project.episodeIdHighWater + 1) := by
  have hentries : layout.entries = project.entries := by rw [layoutOf_eq hlayout]
  have hranged : ∀ other ∈ layout.entries.map (rerange layout edit impact),
      ∃ old ∈ project.entries, other = rerange layout edit impact old := by
    intro other hother
    obtain ⟨old, hold, rfl⟩ := List.mem_map.mp hother
    exact ⟨old, hentries ▸ hold, rfl⟩
  unfold insertedEntries at h
  dsimp only at h
  split at h
  · rename_i range hrange
    rcases List.mem_append.mp h with hmem | hmem
    · exact Or.inl (hranged entry (List.mem_of_mem_take hmem))
    · rcases List.mem_cons.mp hmem with rfl | hmem
      · exact Or.inr ⟨range, hrange, rfl⟩
      · exact Or.inl (hranged entry (List.mem_of_mem_drop hmem))
  · exact Or.inl (hranged entry h)

theorem mem_retiredEntries {entry : LedgerEntry}
    (h : entry ∈ retiredEntries layout edit impact) :
    cutPlacement project.docs entry = none ∧ entry.episode ∈ layout.entries.map (·.episode) := by
  obtain ⟨episode, -, hentry⟩ := List.mem_filterMap.mp h
  split_ifs at hentry
  obtain ⟨old, hold, rfl⟩ := Option.map_eq_some_iff.mp hentry
  refine ⟨cutPlacement_retire, ?_⟩
  rw [← @map_rerange_episode layout edit impact]
  exact List.mem_map_of_mem (f := fun entry => entry.episode) (List.mem_of_find?_eq_some hold)

/-- Where an item of the new ledger comes from: an entry that is not touched, or a range of the edit. -/
def FromPlan (project : Project) (edit : Edit) (item : CutPlacement) : Prop :=
  (item ∈ project.placements ∧ item.episode ∉ edit.ranges.map Prod.fst ∧
    item.episode ∉ edit.dropped) ∨
    (Tight project.docs item.place ∧
      (item.episode, placeSpan project.docs item.place) ∈ assigned project edit)

include hsound hlayout hfits

theorem rangeValue_spec {range : ℕ × ℕ} (h : range ∈ results edit) :
    ∃ value p, rangeValue layout range = some value ∧ Tight project.docs p ∧
      placeSpan project.docs p = range ∧
      ∀ episode, candidate project.docs (episode, value) = some ⟨episode, p⟩ := by
  have hdocs := layout_docs hlayout
  have hbound := hfits.bounds range h
  rw [← hdocs] at hbound ⊢
  exact rangeValue_eq (hdocs ▸ hsound.paths) (span_lt_of_text (hfits.text range h)) hbound

theorem cutPlacement_rerange {old : LedgerEntry} (hold : old ∈ project.entries) {item : CutPlacement}
    (hkept : old.episode ∉ edit.dropped)
    (h : cutPlacement project.docs (rerange layout edit impact old) = some item) :
    FromPlan project edit item := by
  by_cases htouched : old.episode ∈ edit.ranges.map Prod.fst
  · obtain ⟨range, hrange⟩ := exists_lookup htouched
    have hmem := lookup_mem hrange
    obtain ⟨entry, hentry, hepisode, hcut⟩ := hfits.known _ hmem
    obtain rfl := hsound.entry_inj hentry hold hepisode
    obtain ⟨value, p, hvalue, htight, hspan, hcandidate⟩ := rangeValue_spec hsound hlayout hfits
      (List.mem_append_left _ (List.mem_map_of_mem (f := Prod.snd) hmem))
    have hplacement : cutPlacement project.docs (rerange layout edit impact entry) =
        some ⟨entry.episode, p⟩ := by
      unfold rerange
      rw [hrange, Option.bind_some, hvalue]
      dsimp only
      split_ifs
      · exact cutPlacement_stale.trans ((cutPlacement_ranged hcut).trans (hcandidate _))
      · exact (cutPlacement_ranged hcut).trans (hcandidate _)
    rw [hplacement] at h
    cases h
    exact Or.inr ⟨htight, List.mem_append_left _ (hspan ▸ hmem)⟩
  · rw [rerange_untouched htouched] at h
    rw [← cutPlacement_episode h] at htouched hkept
    exact Or.inl ⟨hsound.mem_placements.mpr ⟨old, hold, h⟩, htouched, hkept⟩

theorem cutPlacement_newEntry {range : ℕ × ℕ} (hnew : edit.newRange = some range)
    {item : CutPlacement}
    (h : cutPlacement project.docs
      (newEntry project layout edit range (project.episodeIdHighWater + 1)) = some item) :
    FromPlan project edit item := by
  have hmem : range ∈ edit.newRange.toList := by rw [hnew]; exact List.mem_singleton.mpr rfl
  obtain ⟨value, p, hvalue, htight, hspan, hcandidate⟩ := rangeValue_spec hsound hlayout hfits
    (List.mem_append_right _ hmem)
  have hplacement : cutPlacement project.docs
      (newEntry project layout edit range (project.episodeIdHighWater + 1)) =
        some ⟨project.episodeIdHighWater + 1, p⟩ := by
    unfold newEntry
    rw [hvalue]
    dsimp only
    split_ifs <;> exact hcandidate _
  rw [hplacement] at h
  cases h
  refine Or.inr ⟨htight, List.mem_append_right _ ?_⟩
  rw [hspan]
  exact List.mem_map_of_mem (f := fun range => (project.episodeIdHighWater + 1, range)) hmem

theorem placed_fromPlan (h : applyEdit digest project layout edit impact = .ok (episode, project'))
    {entry : LedgerEntry} (hentry : entry ∈ project'.entries) {item : CutPlacement}
    (hitem : cutPlacement project.docs entry = some item) : FromPlan project edit item := by
  obtain ⟨-, -, -, -, hentries, -⟩ := applyEdit_ok h
  rw [hentries] at hentry
  rcases List.mem_append.mp hentry with hmem | hmem
  · obtain ⟨hmem, hkept⟩ := List.mem_filter.mp hmem
    rcases mem_insertedEntries hlayout hmem with ⟨old, hold, rfl⟩ | ⟨range, hrange, rfl⟩
    · rw [rerange_episode] at hkept
      exact cutPlacement_rerange hsound hlayout hfits hold (of_decide_eq_true hkept) hitem
    · exact cutPlacement_newEntry hsound hlayout hfits hrange hitem
  · rw [(mem_retiredEntries hmem).1] at hitem
    cases hitem

omit hsound hlayout in
theorem assigned_fresh {episode : ℕ} (h : episode ∈ edit.ranges.map Prod.fst ∨
    episode ∈ edit.dropped) : episode ≠ project.episodeIdHighWater + 1 := by
  suffices hle : episode ≤ project.episodeIdHighWater by omega
  rcases h with hmem | hmem
  · obtain ⟨x, hx, rfl⟩ := List.mem_map.mp hmem
    obtain ⟨entry, hentry, hepisode, -⟩ := hfits.known x hx
    rw [← hepisode]
    exact le_foldl_ids hentry
  · obtain ⟨entry, hentry, rfl⟩ := List.mem_map.mp (hfits.dropped.mem hmem)
    exact le_foldl_ids hentry

omit hsound hlayout hfits in
theorem writeDerived_untouched {episode : ℕ} (hkeys : episode ∉ edit.ranges.map Prod.fst)
    (hdropped : episode ∉ edit.dropped) (hfresh : episode ≠ project.episodeIdHighWater + 1) :
    writeDerived layout edit (edit.newRange.map fun _ => project.episodeIdHighWater + 1)
      project.files episode = project.files episode := by
  unfold writeDerived
  dsimp only
  rw [dropFiles_other hdropped]
  cases edit.newRange with
  | none => exact writeRanges_other hkeys
  | some range => exact (Function.update_of_ne hfresh _ _).trans (writeRanges_other hkeys)

omit hsound in
theorem writeDerived_assigned {episode : ℕ} {range : ℕ × ℕ}
    (h : (episode, range) ∈ assigned project edit) :
    writeDerived layout edit (edit.newRange.map fun _ => project.episodeIdHighWater + 1)
      project.files episode = some (slice (wholeText project.docs) range.1 range.2) := by
  have htext : layout.text = wholeText project.docs := by rw [layoutOf_eq hlayout]; rfl
  unfold writeDerived
  rw [htext]
  dsimp only
  rcases List.mem_append.mp h with hmem | hmem
  · have hkey := List.mem_map_of_mem (f := Prod.fst) hmem
    have hfresh := assigned_fresh hfits (Or.inl hkey)
    rw [dropFiles_other (hfits.kept _ hmem)]
    cases edit.newRange with
    | none => exact writeRanges_mem hfits.keys hmem
    | some other =>
        exact (Function.update_of_ne hfresh _ _).trans (writeRanges_mem hfits.keys hmem)
  · obtain ⟨other, hother, heq⟩ := List.mem_map.mp hmem
    cases heq
    rw [dropFiles_other fun hdropped => assigned_fresh hfits (Or.inr hdropped) rfl,
      Option.mem_toList.mp hother]
    exact Function.update_self _ _ _

end Sound

theorem filter_sublist {ids dropped : List ℕ} (h : dropped.Sublist ids) (hids : ids.Nodup) :
    ids.filter (· ∈ dropped) = dropped := by
  induction h with
  | slnil => rfl
  | @cons dropped ids id hsub ih =>
      obtain ⟨hnot, hids⟩ := List.nodup_cons.mp hids
      rw [List.filter_cons_of_neg (by simpa using fun hmem => hnot (hsub.mem hmem))]
      exact ih hids
  | @cons_cons dropped ids id hsub ih =>
      obtain ⟨hnot, hids⟩ := List.nodup_cons.mp hids
      rw [List.filter_cons_of_pos (by simp)]
      refine congrArg _ (Eq.trans (List.filter_congr fun other hother => ?_) (ih hids))
      have hne : other ≠ id := fun heq => hnot (heq ▸ hother)
      simp [hne]

section Ids

variable (hsound : Sound project) (hlayout : layoutOf project = .ok layout)
  (hfits : Fits project edit) (himpact : impact = impactOf project layout edit)
include hsound hlayout hfits himpact

omit hsound hfits in
theorem retired_eq : impact.retired =
    ((project.entries.filter (·.episode ∈ edit.dropped)).filter project.hasProducts).map
      (·.episode) := by
  rw [himpact, layoutOf_eq hlayout]
  rfl

omit hsound hfits in
theorem retired_sublist : impact.retired.Sublist project.ids := by
  rw [retired_eq hlayout himpact]
  exact (List.filter_sublist.trans List.filter_sublist).map _

theorem retired_sublist_dropped : impact.retired.Sublist edit.dropped := by
  have hdropped : edit.dropped =
      (project.entries.filter (·.episode ∈ edit.dropped)).map (·.episode) := by
    conv_lhs => rw [← filter_sublist hfits.dropped hsound.ids]
    exact List.filter_map
  have hsub := (List.filter_sublist (p := project.hasProducts)
    (l := project.entries.filter (·.episode ∈ edit.dropped))).map (·.episode)
  rwa [← hdropped, ← retired_eq hlayout himpact] at hsub

omit hsound hfits in
theorem mem_dropped_iff {id : ℕ} (hid : id ∈ project.ids) :
    id ∈ edit.dropped ↔ id ∈ impact.retired ++ impact.removed := by
  obtain ⟨entry, hentry, rfl⟩ := List.mem_map.mp hid
  have hentries : layout.entries = project.entries := by rw [layoutOf_eq hlayout]
  rw [himpact, List.mem_append]
  unfold impactOf
  dsimp only
  rw [hentries]
  constructor
  · intro hdropped
    have hmem : entry ∈ project.entries.filter (·.episode ∈ edit.dropped) :=
      List.mem_filter.mpr ⟨hentry, decide_eq_true hdropped⟩
    cases hproducts : project.hasProducts entry with
    | true => exact Or.inl (List.mem_map_of_mem (List.mem_filter.mpr ⟨hmem, hproducts⟩))
    | false =>
        refine Or.inr (List.mem_map_of_mem (List.mem_filter.mpr ⟨hmem, ?_⟩))
        rw [hproducts]
        rfl
  · rintro (hmem | hmem) <;>
      obtain ⟨other, hother, hepisode⟩ := List.mem_map.mp hmem <;>
      have hdropped := (List.mem_filter.mp (List.mem_filter.mp hother).1).2 <;>
      rw [← hepisode] <;>
      exact of_decide_eq_true hdropped

theorem retiredEntries_ids :
    (retiredEntries layout edit impact).map (·.episode) = impact.retired := by
  have hentries : layout.entries = project.entries := by rw [layoutOf_eq hlayout]
  have hfound : ∀ id ∈ edit.dropped, ∃ entry,
      (layout.entries.map (rerange layout edit impact)).find? (·.episode = id) = some entry ∧
        entry.episode = id := by
    intro id hid
    have hmem := hfits.dropped.mem hid
    unfold Project.ids at hmem
    rw [← hentries, ← @map_rerange_episode layout edit impact] at hmem
    obtain ⟨entry, hentry, hepisode⟩ := List.mem_map.mp hmem
    obtain ⟨found, hfound⟩ := Option.isSome_iff_exists.mp
      (List.find?_isSome (p := (·.episode = id)).mpr ⟨entry, hentry, decide_eq_true hepisode⟩)
    have hid := List.find?_some hfound
    exact ⟨found, hfound, of_decide_eq_true hid⟩
  have hids : (retiredEntries layout edit impact).map (·.episode) =
      edit.dropped.filter (· ∈ impact.retired) := by
    unfold retiredEntries
    revert hfound
    generalize edit.dropped = dropped
    intro hfound
    induction dropped with
    | nil => rfl
    | cons id dropped ih =>
        obtain ⟨hhead, htail⟩ := List.forall_mem_cons.mp hfound
        obtain ⟨entry, hentry, hepisode⟩ := hhead
        by_cases hretired : id ∈ impact.retired
        · rw [List.filterMap_cons_some (by rw [if_pos hretired, hentry]; rfl), List.map_cons, ih htail]
          refine (congrArg (· :: _) hepisode).trans (List.filter_cons_of_pos ?_).symm
          exact decide_eq_true hretired
        · rw [List.filterMap_cons_none (by rw [if_neg hretired]), ih htail]
          refine (List.filter_cons_of_neg ?_).symm
          exact fun h => hretired (of_decide_eq_true h)
  rw [hids]
  exact filter_sublist (retired_sublist_dropped hsound hlayout hfits himpact)
    (hsound.ids.sublist hfits.dropped)

end Ids

end Applied

end ShortReel.ManualSplitLedgers
