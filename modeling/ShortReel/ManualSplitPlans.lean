import ShortReel.LedgerPlacements
import ShortReel.ManualSplit
import ShortReel.TransitionSystem

/-!
# Plans of manual splits

An edit that a command plans leaves the ranges apart and with a text, and takes none over a border
between two kinds of files that no episode went over before.
-/

namespace ShortReel.ManualSplitPlans

open EditScripts SourceAlignment SourceRemap SourcePlaces CutPlacements EpisodeLedger
open LedgerPlacements ManualSplit

def results (edit : Edit) : List (ℕ × ℕ) :=
  edit.ranges.map Prod.snd ++ edit.newRange.toList

def Inside (wall : ℕ) (range : ℕ × ℕ) : Prop :=
  range.1 < wall ∧ wall < range.2

structure Fits (project : Project) (edit : Edit) : Prop where
  known : ∀ x ∈ edit.ranges, ∃ entry ∈ project.entries, entry.episode = x.1 ∧
    isCutEpisode entry = true
  keys : (edit.ranges.map Prod.fst).Nodup
  kept : ∀ x ∈ edit.ranges, x.1 ∉ edit.dropped
  dropped : edit.dropped.Sublist project.ids
  bounds : ∀ range ∈ results edit, range.2 ≤ (wholeText project.docs).length
  text : ∀ range ∈ results edit,
    (slice (wholeText project.docs) range.1 range.2).all isSpace = false
  apart : (results edit).Pairwise DisjointRanges
  others : ∀ range ∈ results edit, ∀ item ∈ project.placements,
    item.episode ∉ edit.ranges.map Prod.fst → item.episode ∉ edit.dropped →
      DisjointRanges range (placeSpan project.docs item.place)
  walls : ∀ wall ∈ kindWalls project, ∀ range ∈ results edit, Inside wall range →
    ∃ item ∈ project.placements, Inside wall (placeSpan project.docs item.place) ∧
      ((item.episode, range) ∈ edit.ranges ∨ item.episode ∈ edit.dropped ∨ edit.newRange = some range)

theorem layoutOf_eq {project : Project} {layout : Layout} (h : layoutOf project = .ok layout) :
    layout = ⟨project.docs, project.entries, project.placements, kindWalls project⟩ := by
  unfold layoutOf Project.wellFormedLedgerEntries at h
  split at h
  · cases h
  · rename_i entries hentries
    split_ifs at hentries
    cases hentries
    cases h
    rfl

section Layouts

variable {project : Project} {layout : Layout} (hsound : Sound project)
  (hlayout : layoutOf project = .ok layout)

theorem mem_ordered {item : CutPlacement} : item ∈ layout.ordered ↔ item ∈ layout.placements :=
  List.mem_mergeSort

include hlayout in
theorem span_eq (item : CutPlacement) : layout.span item = placeSpan project.docs item.place := by
  rw [layoutOf_eq hlayout]
  rfl

theorem placement_ok {episode : ℕ} {item : CutPlacement}
    (h : layout.placement episode = .ok item) :
    item ∈ layout.placements ∧ item.episode = episode := by
  unfold Layout.placement at h
  split_ifs at h
  split at h
  · rename_i found hfound
    cases h
    have hid := List.find?_some hfound
    exact ⟨List.mem_of_find?_eq_some hfound, of_decide_eq_true hid⟩
  · cases h

theorem toGlobal_ok {sourceFile : String} {offset : ℤ} {point : ℕ}
    (h : layout.toGlobal sourceFile offset = .ok point) :
    ∃ i, layout.docIndex sourceFile = .ok i ∧ 0 ≤ offset ∧ offset ≤ lengthAt layout.docs i ∧
      point = base layout.docs i + offset.toNat := by
  obtain ⟨i, hi, h⟩ := bind_eq_ok.mp h
  split_ifs at h with hbounds
  cases h
  exact ⟨i, hi, hbounds.1, hbounds.2, rfl⟩

theorem docIndex_ok {sourceFile : String} {i : ℕ} (h : layout.docIndex sourceFile = .ok i) :
    index layout.docs sourceFile = some i := by
  unfold Layout.docIndex at h
  split at h
  · rename_i j hj
    cases h
    exact hj
  · cases h

theorem requireText_ok {start stop : ℕ} (h : requireText layout start stop = .ok ()) :
    (slice (wholeText layout.docs) start stop).all isSpace = false := by
  unfold requireText at h
  split_ifs at h with hblank
  exact Bool.eq_false_iff.mpr hblank

theorem requireInside_ok {point low high : ℕ} (h : requireInside point low high = .ok ()) :
    low < point ∧ point < high := by
  unfold requireInside at h
  split_ifs at h with hinside
  exact hinside

theorem mem_wallsInside {wall : ℕ} {span : ℕ × ℕ} :
    wall ∈ layout.wallsInside span ↔ wall ∈ layout.kindWalls ∧ Inside wall span := by
  unfold Layout.wallsInside Inside
  rw [List.mem_filter, decide_eq_true_iff]

theorem requireSameKind_ok {new old : ℕ × ℕ} (h : requireSameKind layout new old = .ok ()) {wall : ℕ}
    (hwall : wall ∈ layout.kindWalls) (hinside : Inside wall new) : Inside wall old := by
  unfold requireSameKind at h
  split_ifs at h with hsubset
  exact (mem_wallsInside.mp (hsubset (mem_wallsInside.mpr ⟨hwall, hinside⟩))).2

include hlayout in
theorem toGlobal_le {sourceFile : String} {offset : ℤ} {point : ℕ}
    (h : layout.toGlobal sourceFile offset = .ok point) :
    point ≤ (wholeText project.docs).length := by
  have hdocs : layout.docs = project.docs := by rw [layoutOf_eq hlayout]
  obtain ⟨i, hi, hpos, hle, rfl⟩ := toGlobal_ok h
  have hlt := index_lt (docIndex_ok hi)
  have hbase := @base_mono layout.docs (i + 1) _ hlt
  have hlength : base layout.docs layout.docs.length = (wholeText layout.docs).length := by
    rw [base, List.take_length]
  rw [base_succ, hlength] at hbase
  rw [← hdocs]
  omega

include hsound hlayout

theorem placed_item {item : CutPlacement} (h : item ∈ layout.placements) :
    ∃ entry ∈ project.entries, entry.episode = item.episode ∧
      cutPlacement project.docs entry = some item := by
  rw [layoutOf_eq hlayout] at h
  obtain ⟨entry, hentry, hplacement⟩ := hsound.mem_placements.mp h
  exact ⟨entry, hentry, (cutPlacement_episode hplacement).symm, hplacement⟩

theorem placed_known {item : CutPlacement} (h : item ∈ layout.placements) :
    ∃ entry ∈ project.entries, entry.episode = item.episode ∧ isCutEpisode entry = true := by
  obtain ⟨entry, hentry, hepisode, hplacement⟩ := placed_item hsound hlayout h
  exact ⟨entry, hentry, hepisode, (cutPlacement_eq_some_iff.mp hplacement).1⟩

theorem placed_lt {item : CutPlacement} (h : item ∈ layout.placements) :
    (layout.span item).1 < (layout.span item).2 := by
  obtain ⟨entry, hentry, -, hplacement⟩ := placed_item hsound hlayout h
  rw [span_eq hlayout]
  exact hsound.placeSpan_lt hentry hplacement

theorem placed_le {item : CutPlacement} (h : item ∈ layout.placements) :
    (layout.span item).2 ≤ (wholeText project.docs).length := by
  obtain ⟨entry, hentry, -, hplacement⟩ := placed_item hsound hlayout h
  rw [span_eq hlayout]
  exact placeSpan_le_length (cutPlacement_inBounds hplacement)

theorem placed_disjoint {a b : CutPlacement} (ha : a ∈ layout.placements)
    (hb : b ∈ layout.placements) (hne : a.episode ≠ b.episode) :
    DisjointRanges (layout.span a) (layout.span b) := by
  obtain ⟨first, hfirst, -, hfirstPlace⟩ := placed_item hsound hlayout ha
  obtain ⟨second, hsecond, -, hsecondPlace⟩ := placed_item hsound hlayout hb
  rw [span_eq hlayout, span_eq hlayout]
  exact disjoint_of_apart (cutPlacement_inBounds hfirstPlace) (cutPlacement_inBounds hsecondPlace)
    (hsound.apart_of_ne hfirst hfirstPlace hsecond hsecondPlace hne)

theorem placed_inj {a b : CutPlacement} (ha : a ∈ layout.placements) (hb : b ∈ layout.placements)
    (h : a.episode = b.episode) : a = b := by
  rw [layoutOf_eq hlayout] at ha hb
  exact List.inj_on_of_nodup_map hsound.placements_ids ha hb h

theorem ordered_before : layout.ordered.Pairwise fun a b => a.place.Before b.place := by
  have hsorted : layout.ordered.Pairwise fun a b =>
      (!earlier b.position a.position) = true := by
    refine List.pairwise_mergeSort ?_ ?_ _
    · intro a b c
      rw [not_earlier_iff, not_earlier_iff, not_earlier_iff]
      omega
    · intro a b
      rw [Bool.or_eq_true, not_earlier_iff, not_earlier_iff]
      omega
  refine hsound.pairwise_before ?_ ?_ (hsorted.imp not_earlier_iff.mp)
  · intro item hitem
    obtain ⟨entry, hentry, -, hplacement⟩ := placed_item hsound hlayout (mem_ordered.mp hitem)
    exact ⟨entry, hentry, hplacement⟩
  · refine ((List.mergeSort_perm _ _).map _).nodup_iff.mpr ?_
    rw [layoutOf_eq hlayout]
    exact hsound.placements_ids

theorem placed_text {item : CutPlacement} (h : item ∈ layout.placements) :
    (slice (wholeText project.docs) (layout.span item).1 (layout.span item).2).all isSpace =
      false := by
  obtain ⟨entry, hentry, -, hplacement⟩ := placed_item hsound hlayout h
  rw [span_eq hlayout, ← placementText_eq (cutPlacement_inBounds hplacement)]
  exact hsound.text entry hentry item hplacement

end Layouts

theorem le_foldl_max {values : List ℕ} {acc x : ℕ} (h : x ≤ acc ∨ x ∈ values) :
    x ≤ values.foldl max acc := by
  induction values generalizing acc with
  | nil => simpa using h
  | cons value values ih =>
      refine ih ?_
      rcases h with hle | hmem
      · exact Or.inl (hle.trans (le_max_left _ _))
      · rcases List.mem_cons.mp hmem with rfl | hmem
        · exact Or.inl (le_max_right _ _)
        · exact Or.inr hmem

section Plans

variable {project : Project} {layout : Layout} {edit : Edit} (hsound : Sound project)
  (hlayout : layoutOf project = .ok layout)
include hsound hlayout

omit hsound in
theorem layout_docs : layout.docs = project.docs := by
  rw [layoutOf_eq hlayout]

omit hsound in
theorem mem_placed {item : CutPlacement} :
    item ∈ layout.placements ↔ item ∈ project.placements := by
  rw [layoutOf_eq hlayout]

omit hsound in
theorem requireText_project {start stop : ℕ} (h : requireText layout start stop = .ok ()) :
    (slice (wholeText project.docs) start stop).all isSpace = false := by
  rw [← layout_docs hlayout]
  exact requireText_ok h

omit hsound hlayout in
theorem fits_newRange {range : ℕ × ℕ} (hranges : edit.ranges = []) (hdropped : edit.dropped = [])
    (hnew : edit.newRange = some range) (hbound : range.2 ≤ (wholeText project.docs).length)
    (htext : (slice (wholeText project.docs) range.1 range.2).all isSpace = false)
    (hothers : ∀ item ∈ project.placements, DisjointRanges range (placeSpan project.docs item.place))
    (hwalls : ∀ wall ∈ kindWalls project, ¬ Inside wall range) : Fits project edit := by
  have hresults : ∀ other ∈ results edit, other = range := by
    intro other hother
    rw [results, hranges, hnew] at hother
    exact List.mem_singleton.mp hother
  refine ⟨?_, ?_, ?_, ?_, ?_, ?_, ?_, ?_, ?_⟩
  · rw [hranges]
    exact fun _ hx => absurd hx List.not_mem_nil
  · rw [hranges]
    exact List.nodup_nil
  · rw [hranges]
    exact fun _ hx => absurd hx List.not_mem_nil
  · rw [hdropped]
    exact List.nil_sublist _
  · intro other hother
    rw [hresults other hother]
    exact hbound
  · intro other hother
    rw [hresults other hother]
    exact htext
  · rw [results, hranges, hnew]
    exact List.pairwise_singleton _ _
  · intro other hother item hitem _ _
    rw [hresults other hother]
    exact hothers item hitem
  · intro wall hwall other hother hcrossed
    rw [hresults other hother] at hcrossed
    exact absurd hcrossed (hwalls wall hwall)

omit hsound in
theorem planCut_fits {sourceFile : String} {stop : ℤ} {title : Text}
    (h : planCut layout sourceFile stop title = .ok edit) : Fits project edit := by
  obtain ⟨i, -, h⟩ := bind_eq_ok.mp h
  split_ifs at h with hbounds
  swap
  · cases h
  obtain ⟨point, hpoint, h⟩ := bind_eq_ok.mp h
  dsimp only at h
  split_ifs at h with hinside
  · cases h
  · obtain ⟨⟨⟩, htext, h⟩ := bind_eq_ok.mp h
    cases h
    refine fits_newRange rfl rfl rfl (toGlobal_le hlayout hpoint)
      (requireText_project hlayout htext) ?_ ?_
    · intro item hitem
      have hspan := List.mem_map_of_mem (f := layout.span)
        (mem_ordered.mpr ((mem_placed hlayout).mpr hitem))
      rw [← span_eq hlayout]
      rw [List.any_eq_true] at hinside
      rcases Nat.lt_or_ge (layout.span item).1 point with hlow | hlow
      · refine Or.inr (le_foldl_max (Or.inr (List.mem_append_left _ ?_)))
        refine List.mem_filter.mpr ⟨List.mem_map_of_mem hspan, decide_eq_true ?_⟩
        by_contra hhigh
        exact hinside ⟨_, hspan, decide_eq_true ⟨hlow, Nat.lt_of_not_le hhigh⟩⟩
      · exact Or.inl hlow
    · rintro wall hwall ⟨hstart, hstop⟩
      refine absurd hstart (Nat.not_lt.mpr (le_foldl_max (Or.inr (List.mem_append_right _ ?_))))
      rw [layoutOf_eq hlayout]
      exact List.mem_filter.mpr ⟨hwall, decide_eq_true hstop⟩

omit hsound in
theorem planClearAfter_fits {episode : ℕ} (h : planClearAfter layout episode = .ok edit) :
    Fits project edit := by
  obtain ⟨item, -, h⟩ := bind_eq_ok.mp h
  dsimp only at h
  split_ifs at h
  · cases h
  · cases h
    refine ⟨?_, List.nodup_nil, ?_, ?_, ?_, ?_, List.Pairwise.nil, ?_, ?_⟩
    · exact fun _ hx => absurd hx List.not_mem_nil
    · exact fun _ hx => absurd hx List.not_mem_nil
    · rw [layoutOf_eq hlayout]
      exact List.filter_sublist
    · exact fun _ hx => absurd hx List.not_mem_nil
    · exact fun _ hx => absurd hx List.not_mem_nil
    · exact fun _ hx => absurd hx List.not_mem_nil
    · exact fun _ _ _ hx => absurd hx List.not_mem_nil

theorem planSplit_fits {episode : ℕ} {offset : ℤ} {sourceFile : Option String}
    (h : planSplit layout episode offset sourceFile = .ok edit) : Fits project edit := by
  obtain ⟨item, hitem, h⟩ := bind_eq_ok.mp h
  obtain ⟨point, hpoint, h⟩ := bind_eq_ok.mp h
  obtain ⟨⟨⟩, hinside, h⟩ := bind_eq_ok.mp h
  obtain ⟨⟨⟩, hlow, h⟩ := bind_eq_ok.mp h
  obtain ⟨⟨⟩, hhigh, h⟩ := bind_eq_ok.mp h
  cases h
  obtain ⟨hmem, rfl⟩ := placement_ok hitem
  obtain ⟨hafter, hbefore⟩ := requireInside_ok hinside
  have hle := placed_le hsound hlayout hmem
  have hresults : ∀ {P : ℕ × ℕ → Prop}, P ((layout.span item).1, point) →
      P (point, (layout.span item).2) → ∀ range ∈ [((layout.span item).1, point),
        (point, (layout.span item).2)], P range := by
    intro P hfirst hsecond
    exact List.forall_mem_cons.mpr ⟨hfirst, List.forall_mem_singleton.mpr hsecond⟩
  refine ⟨?_, List.nodup_singleton _, ?_, List.nil_sublist _, ?_, ?_, ?_, ?_, ?_⟩
  · refine List.forall_mem_singleton.mpr ?_
    exact placed_known hsound hlayout hmem
  · exact fun _ _ => List.not_mem_nil
  · exact hresults (hbefore.le.trans hle) hle
  · exact hresults (requireText_project hlayout hlow) (requireText_project hlayout hhigh)
  · exact List.pairwise_pair.mpr (Or.inl le_rfl)
  · have hothers : ∀ other ∈ project.placements, other.episode ∉ [item.episode] →
        DisjointRanges (layout.span item) (placeSpan project.docs other.place) := by
      intro other hother hne
      rw [← span_eq hlayout]
      exact placed_disjoint hsound hlayout hmem ((mem_placed hlayout).mpr hother)
        fun heq => hne (List.mem_singleton.mpr heq.symm)
    refine hresults ?_ ?_ <;> intro other hother hne _
    · refine (hothers other hother hne).imp (fun h => ?_) id
      exact hbefore.le.trans h
    · refine (hothers other hother hne).imp id fun h => ?_
      exact h.trans hafter.le
  · intro wall _
    have hcrossed : ∀ {range : ℕ × ℕ}, (layout.span item).1 ≤ range.1 →
        range.2 ≤ (layout.span item).2 → Inside wall range →
          Inside wall (placeSpan project.docs item.place) := by
      rintro range hstart hstop ⟨hlow, hhigh⟩
      rw [← span_eq hlayout]
      exact ⟨hstart.trans_lt hlow, hhigh.trans_le hstop⟩
    refine hresults ?_ ?_ <;> intro hwall <;>
      refine ⟨item, (mem_placed hlayout).mp hmem, hcrossed ?_ ?_ hwall, ?_⟩
    · exact le_rfl
    · exact hbefore.le
    · exact Or.inl (List.mem_singleton.mpr rfl)
    · exact hafter.le
    · exact le_rfl
    · exact Or.inr (Or.inr rfl)

theorem planMove_fits {episode : ℕ} {offset : ℤ} {sourceFile : Option String}
    (h : planMove layout episode offset sourceFile = .ok edit) : Fits project edit := by
  obtain ⟨left, hleft, h⟩ := bind_eq_ok.mp h
  dsimp only at h
  split at h
  · cases h
  rename_i right hright
  obtain ⟨point, hpoint, h⟩ := bind_eq_ok.mp h
  obtain ⟨⟨⟩, hinside, h⟩ := bind_eq_ok.mp h
  split_ifs at h
  · cases h
  obtain ⟨⟨⟩, hlow, h⟩ := bind_eq_ok.mp h
  obtain ⟨⟨⟩, hhigh, h⟩ := bind_eq_ok.mp h
  obtain ⟨⟨⟩, hleftKind, h⟩ := bind_eq_ok.mp h
  obtain ⟨⟨⟩, hrightKind, h⟩ := bind_eq_ok.mp h
  cases h
  obtain ⟨hleftMem, rfl⟩ := placement_ok hleft
  have hrightMem := mem_ordered.mp (List.mem_of_find?_eq_some hright)
  have hborder := List.find?_some hright
  obtain ⟨hmeet, hrightText⟩ := of_decide_eq_true hborder
  obtain ⟨hafter, hbefore⟩ := requireInside_ok hinside
  have hleftText := placed_lt hsound hlayout hleftMem
  have hle := placed_le hsound hlayout hrightMem
  have hne : left.episode ≠ right.episode := by
    intro heq
    rw [placed_inj hsound hlayout hleftMem hrightMem heq] at hleftText hmeet
    omega
  have hresults : ∀ {P : ℕ × ℕ → Prop}, P ((layout.span left).1, point) →
      P (point, (layout.span right).2) → ∀ range ∈ [((layout.span left).1, point),
        (point, (layout.span right).2)], P range := by
    intro P hfirst hsecond
    exact List.forall_mem_cons.mpr ⟨hfirst, List.forall_mem_singleton.mpr hsecond⟩
  refine ⟨?_, ?_, ?_, List.nil_sublist _, ?_, ?_, ?_, ?_, ?_⟩
  · refine List.forall_mem_cons.mpr ⟨?_, List.forall_mem_singleton.mpr ?_⟩
    · exact placed_known hsound hlayout hleftMem
    · exact placed_known hsound hlayout hrightMem
  · exact List.nodup_cons.mpr ⟨List.mem_singleton.not.mpr hne, List.nodup_singleton _⟩
  · exact fun _ _ => List.not_mem_nil
  · exact hresults (hbefore.le.trans hle) hle
  · exact hresults (requireText_project hlayout hlow) (requireText_project hlayout hhigh)
  · exact List.pairwise_pair.mpr (Or.inl le_rfl)
  · -- an episode beside the two is not in between, since they meet
    have hothers : ∀ other ∈ project.placements, other.episode ∉ [left.episode, right.episode] →
        (placeSpan project.docs other.place).2 ≤ (layout.span left).1 ∨
          (layout.span right).2 ≤ (placeSpan project.docs other.place).1 := by
      intro other hother hnot
      have hmem := (mem_placed hlayout).mpr hother
      have hotherText := placed_lt hsound hlayout hmem
      have hfromLeft := placed_disjoint hsound hlayout hleftMem hmem fun heq =>
        hnot (heq ▸ List.mem_cons_self)
      have hfromRight := placed_disjoint hsound hlayout hrightMem hmem fun heq =>
        hnot (List.mem_cons_of_mem _ (List.mem_singleton.mpr heq.symm))
      rw [← span_eq hlayout]
      unfold DisjointRanges at hfromLeft hfromRight
      omega
    refine hresults ?_ ?_ <;> intro other hother hnot _ <;> unfold DisjointRanges
    · have := hothers other hother hnot
      dsimp only
      omega
    · have := hothers other hother hnot
      dsimp only
      omega
  · intro wall hwall
    have hwall' : wall ∈ layout.kindWalls := by
      rw [layoutOf_eq hlayout]
      exact hwall
    refine hresults ?_ ?_ <;> intro hcrossed
    · refine ⟨left, (mem_placed hlayout).mp hleftMem, ?_, Or.inl List.mem_cons_self⟩
      rw [← span_eq hlayout]
      exact requireSameKind_ok hleftKind hwall' hcrossed
    · refine ⟨right, (mem_placed hlayout).mp hrightMem, ?_, Or.inl ?_⟩
      · rw [← span_eq hlayout]
        exact requireSameKind_ok hrightKind hwall' hcrossed
      · exact List.mem_cons_of_mem _ List.mem_cons_self

theorem ordered_next {item next : CutPlacement} (hitem : item ∈ layout.placements)
    (h : (layout.ordered.drop (layout.ordered.idxOf item + 1)).head? = some next) :
    item.place.Before next.place ∧ ∀ other ∈ layout.placements,
      other = item ∨ other = next ∨ other.place.Before item.place ∨
        next.place.Before other.place := by
  have hlt := List.idxOf_lt_length_of_mem (mem_ordered.mpr hitem)
  have hbehind := List.drop_eq_getElem_cons hlt
  rw [List.getElem_idxOf] at hbehind
  obtain ⟨rest, hrest⟩ := List.head?_eq_some_iff.mp h
  rw [hrest] at hbehind
  have hsplit := List.take_append_drop (layout.ordered.idxOf item) layout.ordered
  rw [hbehind] at hsplit
  have hpairs := ordered_before hsound hlayout
  rw [← hsplit] at hpairs
  obtain ⟨-, hback, hfront⟩ := List.pairwise_append.mp hpairs
  obtain ⟨hitemBack, hnextBack⟩ := List.pairwise_cons.mp hback
  refine ⟨hitemBack next List.mem_cons_self, fun other hother => ?_⟩
  have hmem := mem_ordered.mpr hother
  rw [← hsplit] at hmem
  rcases List.mem_append.mp hmem with hmem | hmem
  · exact Or.inr (Or.inr (Or.inl (hfront other hmem item List.mem_cons_self)))
  · rcases List.mem_cons.mp hmem with rfl | hmem
    · exact Or.inl rfl
    · rcases List.mem_cons.mp hmem with rfl | hmem
      · exact Or.inr (Or.inl rfl)
      · exact Or.inr (Or.inr (Or.inr ((List.pairwise_cons.mp hnextBack).1 other hmem)))

theorem placed_before {a b : CutPlacement} (ha : a ∈ layout.placements)
    (h : a.place.Before b.place) : (layout.span a).2 ≤ (layout.span b).1 := by
  obtain ⟨_, _, _, hplacement⟩ := placed_item hsound hlayout ha
  rw [span_eq hlayout, span_eq hlayout]
  exact disjoint_of_before (cutPlacement_inBounds hplacement) h

theorem planMerge_fits {countReadingUnits : Text → ℕ} {episode : ℕ}
    (h : planMerge layout countReadingUnits episode = .ok edit) : Fits project edit := by
  obtain ⟨item, hitem, h⟩ := bind_eq_ok.mp h
  dsimp only at h
  split at h
  · cases h
  rename_i next hnext
  split_ifs at h with hwalls
  swap
  · cases h
  cases h
  obtain ⟨hmem, rfl⟩ := placement_ok hitem
  obtain ⟨hbefore, hbetween⟩ := ordered_next hsound hlayout hmem hnext
  have hnextMem := mem_ordered.mp (List.mem_of_mem_drop (List.mem_of_head? hnext))
  have hgap := placed_before hsound hlayout hmem hbefore
  have hitemText := placed_lt hsound hlayout hmem
  have hnextText := placed_lt hsound hlayout hnextMem
  have hne : item.episode ≠ next.episode := by
    intro heq
    rw [placed_inj hsound hlayout hmem hnextMem heq] at hgap
    omega
  have hresults : ∀ {P : ℕ × ℕ → Prop}, P ((layout.span item).1, (layout.span next).2) →
      ∀ range ∈ [((layout.span item).1, (layout.span next).2)], P range :=
    fun h => List.forall_mem_singleton.mpr h
  obtain ⟨nextEntry, hnextEntry, hnextId, -⟩ := placed_item hsound hlayout hnextMem
  refine ⟨?_, List.nodup_singleton _, ?_, ?_, ?_, ?_, List.pairwise_singleton _ _, ?_, ?_⟩
  · exact List.forall_mem_singleton.mpr (placed_known hsound hlayout hmem)
  · exact List.forall_mem_singleton.mpr (List.mem_singleton.not.mpr hne)
  · refine List.singleton_sublist.mpr ?_
    rw [← hnextId]
    exact List.mem_map_of_mem hnextEntry
  · exact hresults (placed_le hsound hlayout hnextMem)
  · refine hresults ?_
    have htext := placed_text hsound hlayout hmem
    rw [slice_split _ hitemText.le (hgap.trans hnextText.le), List.all_append, htext,
      Bool.false_and]
  · refine hresults ?_
    intro other hother hnot hkept
    have hplaced := (mem_placed hlayout).mpr hother
    rw [← span_eq hlayout]
    rcases hbetween other hplaced with rfl | rfl | hfront | hback
    · exact absurd (List.mem_singleton.mpr rfl) hnot
    · exact absurd (List.mem_singleton.mpr rfl) hkept
    · exact Or.inr (placed_before hsound hlayout hplaced hfront)
    · exact Or.inl (placed_before hsound hlayout hnextMem hback)
  · intro wall hwall
    refine hresults fun hcrossed => ?_
    have hwall' : wall ∈ layout.kindWalls := by
      rw [layoutOf_eq hlayout]
      exact hwall
    rcases List.mem_append.mp (hwalls (mem_wallsInside.mpr ⟨hwall', hcrossed⟩)) with hown | hown
    · refine ⟨item, (mem_placed hlayout).mp hmem, ?_, Or.inl List.mem_cons_self⟩
      rw [← span_eq hlayout]
      exact (mem_wallsInside.mp hown).2
    · refine ⟨next, (mem_placed hlayout).mp hnextMem, ?_, Or.inr (Or.inl List.mem_cons_self)⟩
      rw [← span_eq hlayout]
      exact (mem_wallsInside.mp hown).2

theorem plan_fits {countReadingUnits : Text → ℕ} {command : Command}
    (h : command.plan countReadingUnits layout = .ok edit) : Fits project edit := by
  cases command with
  | cut sourceFile stop title => exact planCut_fits hlayout h
  | split episode offset sourceFile => exact planSplit_fits hsound hlayout h
  | move episode offset sourceFile => exact planMove_fits hsound hlayout h
  | merge episode => exact planMerge_fits hsound hlayout h
  | clearAfter episode => exact planClearAfter_fits hlayout h

end Plans

end ShortReel.ManualSplitPlans
