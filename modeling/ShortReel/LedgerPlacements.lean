import ShortReel.EpisodeLedger

/-!
# Placed ledgers

When the ranges of a ledger do not overlap and have a text, `cut_episode_placements` places each of
them.
-/

namespace ShortReel.LedgerPlacements

open EditScripts SourceAlignment SourceRemap SourcePlaces CutPlacements EpisodeLedger

variable {docs : List SourceDoc} {p q : Place}

def cutPlacement (docs : List SourceDoc) (entry : LedgerEntry) : Option CutPlacement :=
  (cutRange entry).bind (candidate docs)

def placementText (docs : List SourceDoc) (p : Place) : Text :=
  textBetween docs p.first p.start p.last p.stop

def placeSpan (docs : List SourceDoc) (p : Place) : ℕ × ℕ :=
  (base docs p.first + p.start, base docs p.last + p.stop)

def Apart (p q : Place) : Prop :=
  p.Before q ∨ q.Before p

def DisjointRanges (r s : ℕ × ℕ) : Prop :=
  r.2 ≤ s.1 ∨ s.2 ≤ r.1

/-- The ledger of a project places its episodes apart from each other, each with a text, and the file
of an episode has the text of its range. -/
structure Sound (project : Project) : Prop where
  paths : (rels project.docs).Nodup
  positive : ∀ entry ∈ project.entries, 0 < entry.episode
  ids : project.ids.Nodup
  apart : ∀ a ∈ project.entries, ∀ b ∈ project.entries, a.episode ≠ b.episode →
    ∀ x y, cutPlacement project.docs a = some x → cutPlacement project.docs b = some y →
      Apart x.place y.place
  text : ∀ entry ∈ project.entries, ∀ item, cutPlacement project.docs entry = some item →
    (placementText project.docs item.place).all isSpace = false
  files : ∀ entry ∈ project.entries, ∀ item, cutPlacement project.docs entry = some item →
    project.files entry.episode = some (placementText project.docs item.place)

theorem Apart.symm (h : Apart p q) : Apart q p :=
  Or.symm h

theorem DisjointRanges.symm {r s : ℕ × ℕ} (h : DisjointRanges r s) : DisjointRanges s r :=
  Or.symm h

theorem placementText_eq (h : p.InBounds docs) :
    placementText docs p = slice (wholeText docs) (placeSpan docs p).1 (placeSpan docs p).2 :=
  h.toFits.text

theorem placeSpan_le_length (h : p.InBounds docs) :
    (placeSpan docs p).2 ≤ (wholeText docs).length := by
  have hlast := @base_mono docs (p.last + 1) docs.length h.last_lt
  have hstop := h.stop_le
  have hlength : base docs docs.length = (wholeText docs).length := by
    rw [base, List.take_length]
  rw [base_succ, hlength] at hlast
  unfold placeSpan
  omega

theorem span_lt_of_text {text : Text} {start stop : ℕ}
    (h : (slice text start stop).all isSpace = false) : start < stop := by
  by_contra hle
  rw [slice_of_le (Nat.le_of_not_lt hle)] at h
  cases h

theorem placeSpan_lt (hp : p.InBounds docs) (h : (placementText docs p).all isSpace = false) :
    (placeSpan docs p).1 < (placeSpan docs p).2 := by
  rw [placementText_eq hp] at h
  exact span_lt_of_text h

theorem disjoint_of_before (hp : p.InBounds docs) (h : p.Before q) :
    (placeSpan docs p).2 ≤ (placeSpan docs q).1 := by
  have hstop := hp.stop_le
  unfold placeSpan
  rcases h with hfile | ⟨hfile, hoffset⟩
  · have hbase := @base_mono docs (p.last + 1) q.first hfile
    rw [base_succ] at hbase
    exact (Nat.add_le_add_left hstop _).trans (hbase.trans (Nat.le_add_right _ _))
  · rw [hfile]
    exact Nat.add_le_add_left hoffset _

theorem disjoint_of_apart (hp : p.InBounds docs) (hq : q.InBounds docs) (h : Apart p q) :
    DisjointRanges (placeSpan docs p) (placeSpan docs q) :=
  h.imp (disjoint_of_before hp) (disjoint_of_before hq)

/-- The start is not at the end of a file, nor the stop at the beginning of one. -/
structure Tight (docs : List SourceDoc) (p : Place) : Prop extends p.InBounds docs where
  start_lt : p.start < lengthAt docs p.first
  stop_pos : 0 < p.stop

theorem before_of_stop_le (hp : 0 < p.stop) (hq : q.InBounds docs)
    (h : (placeSpan docs p).2 ≤ (placeSpan docs q).1) : p.Before q := by
  unfold placeSpan at h
  rcases Nat.lt_trichotomy q.first p.last with hlt | heq | hgt
  · have hbase := @base_mono docs (q.first + 1) p.last hlt
    have hstart := hq.start_le
    rw [base_succ] at hbase
    dsimp only at h
    omega
  · refine Or.inr ⟨heq.symm, ?_⟩
    rw [heq] at h
    exact Nat.le_of_add_le_add_left h
  · exact Or.inl hgt

theorem before_of_le_start (hq : q.start < lengthAt docs q.first)
    (h : (placeSpan docs p).2 ≤ (placeSpan docs q).1) : p.Before q := by
  unfold placeSpan at h
  rcases Nat.lt_trichotomy q.first p.last with hlt | heq | hgt
  · have hbase := @base_mono docs (q.first + 1) p.last hlt
    rw [base_succ] at hbase
    dsimp only at h
    omega
  · refine Or.inr ⟨heq.symm, ?_⟩
    rw [heq] at h
    exact Nat.le_of_add_le_add_left h
  · exact Or.inl hgt

theorem Tight.apart (hp : Tight docs p) (hq : q.InBounds docs)
    (h : DisjointRanges (placeSpan docs p) (placeSpan docs q)) : Apart p q :=
  h.imp (before_of_stop_le hp.stop_pos hq) (before_of_le_start hp.start_lt)

theorem cutPlacement_eq_some_iff {entry : LedgerEntry} {item : CutPlacement} :
    cutPlacement docs entry = some item ↔ isCutEpisode entry = true ∧ ∃ range,
      parseSourceRange entry = some range ∧ candidate docs (entry.episode, range) = some item := by
  unfold cutPlacement cutRange
  by_cases hcut : isCutEpisode entry = true
  · rw [if_pos hcut, Option.bind_map, Option.bind_eq_some_iff]
    exact (and_iff_right hcut).symm
  · rw [if_neg hcut]
    simp [hcut]

theorem cutPlacement_inBounds {entry : LedgerEntry} {item : CutPlacement}
    (h : cutPlacement docs entry = some item) : item.place.InBounds docs := by
  obtain ⟨-, range, -, hcandidate⟩ := cutPlacement_eq_some_iff.mp h
  exact candidate_inBounds hcandidate

theorem candidate_episode {entry : ℕ × SourceSpan} {item : CutPlacement}
    (h : candidate docs entry = some item) : item.episode = entry.1 := by
  unfold candidate at h
  obtain ⟨first, -, h⟩ := Option.bind_eq_some_iff.mp h
  obtain ⟨last, -, h⟩ := Option.bind_eq_some_iff.mp h
  split_ifs at h
  cases h
  rfl

theorem cutPlacement_episode {entry : LedgerEntry} {item : CutPlacement}
    (h : cutPlacement docs entry = some item) : item.episode = entry.episode := by
  obtain ⟨-, range, -, hcandidate⟩ := cutPlacement_eq_some_iff.mp h
  exact candidate_episode hcandidate

theorem earlier_iff {a b : ℕ × ℕ} : earlier a b = true ↔ a.1 < b.1 ∨ (a.1 = b.1 ∧ a.2 < b.2) :=
  decide_eq_true_iff

theorem not_earlier_iff {a b : ℕ × ℕ} :
    (!earlier a b) = true ↔ b.1 < a.1 ∨ (b.1 = a.1 ∧ b.2 ≤ a.2) := by
  rw [Bool.not_eq_true', ← Bool.not_eq_true, earlier_iff]
  omega

theorem sortKey_iff {a b : CutPlacement} : sortKey a b = true ↔
    earlier a.position b.position = true ∨
      (a.position = b.position ∧ (!earlier b.endPosition a.endPosition) = true) := by
  unfold sortKey
  split_ifs with heq
  · rw [heq, earlier_iff]
    simp
  · simp only [heq, false_and, or_false]
    rw [Prod.ext_iff] at heq
    rw [not_earlier_iff, earlier_iff]
    omega

theorem sortKey_total (a b : CutPlacement) : (sortKey a b || sortKey b a) = true := by
  rw [Bool.or_eq_true, sortKey_iff, sortKey_iff, earlier_iff, earlier_iff, not_earlier_iff,
    not_earlier_iff, Prod.ext_iff, Prod.ext_iff]
  omega

theorem sortKey_trans (a b c : CutPlacement) (hab : sortKey a b = true) (hbc : sortKey b c = true) :
    sortKey a c = true := by
  rw [sortKey_iff, earlier_iff, not_earlier_iff, Prod.ext_iff] at hab hbc ⊢
  omega

theorem before_of_position (hq : q.InBounds docs) (htext : (placeSpan docs q).1 < (placeSpan docs q).2)
    (hapart : Apart p q) (h : p.first < q.first ∨ (p.first = q.first ∧ p.start ≤ q.start)) :
    p.Before q := by
  refine hapart.resolve_right fun hbefore => ?_
  have hfiles := hq.first_le
  have hordered := hq.ordered
  unfold Place.Before at hbefore
  have hfirst : q.first = q.last := by omega
  unfold placeSpan at htext
  rw [hfirst] at htext
  dsimp only at htext
  omega

theorem placeCandidates_all {items : List CutPlacement} {cursor : ℕ × ℕ} {placed : List ℕ}
    (hitems : items.Pairwise fun a b => a.place.Before b.place)
    (hids : (items.map (·.episode)).Nodup)
    (hcursor : ∀ item ∈ items, earlier item.position cursor = false)
    (hplaced : ∀ item ∈ items, item.episode ∉ placed) :
    placeCandidates cursor placed items = items := by
  induction items generalizing cursor placed with
  | nil => rfl
  | cons item items ih =>
      obtain ⟨hbehind, hrest⟩ := List.pairwise_cons.mp hitems
      obtain ⟨hnew, hids⟩ := List.nodup_cons.mp hids
      have hkeep : ¬ (earlier item.position cursor = true ∨ item.episode ∈ placed) := by
        rw [hcursor item List.mem_cons_self, or_iff_right Bool.false_ne_true]
        exact hplaced item List.mem_cons_self
      rw [placeCandidates, if_neg hkeep, ih hrest hids]
      · intro other hother
        have hbefore := hbehind other hother
        rw [← Bool.not_eq_true, earlier_iff]
        unfold Place.Before at hbefore
        simp only [CutPlacement.position, CutPlacement.endPosition]
        omega
      · intro other hother hmem
        rcases List.mem_cons.mp hmem with heq | hmem
        · exact hnew (List.mem_map.mpr ⟨other, hother, heq⟩)
        · exact hplaced other (List.mem_cons_of_mem _ hother) hmem

theorem map_filterMap_sublist {entries : List LedgerEntry} {f : LedgerEntry → Option CutPlacement}
    (h : ∀ entry item, f entry = some item → item.episode = entry.episode) :
    ((entries.filterMap f).map (·.episode)).Sublist (entries.map (·.episode)) := by
  induction entries with
  | nil => exact List.Sublist.slnil
  | cons entry entries ih =>
      cases hitem : f entry with
      | none =>
          rw [List.filterMap_cons_none hitem]
          exact ih.cons _
      | some item =>
          rw [List.filterMap_cons_some hitem, List.map_cons, List.map_cons, h entry item hitem]
          exact ih.cons_cons _

section Placed

variable {project : Project} (hsound : Sound project)
include hsound

theorem Sound.entry_inj {a b : LedgerEntry} (ha : a ∈ project.entries) (hb : b ∈ project.entries)
    (h : a.episode = b.episode) : a = b :=
  List.inj_on_of_nodup_map hsound.ids ha hb h

theorem Sound.placeSpan_lt {entry : LedgerEntry} {item : CutPlacement}
    (hentry : entry ∈ project.entries) (h : cutPlacement project.docs entry = some item) :
    (placeSpan project.docs item.place).1 < (placeSpan project.docs item.place).2 :=
  LedgerPlacements.placeSpan_lt (cutPlacement_inBounds h) (hsound.text entry hentry item h)

omit hsound in
theorem mem_sorted {item : CutPlacement} :
    item ∈ (project.entries.filterMap (cutPlacement project.docs)).mergeSort sortKey ↔
      ∃ entry ∈ project.entries, cutPlacement project.docs entry = some item := by
  rw [List.mem_mergeSort, List.mem_filterMap]

theorem Sound.sorted_ids :
    (((project.entries.filterMap (cutPlacement project.docs)).mergeSort sortKey).map
      (·.episode)).Nodup := by
  refine ((List.mergeSort_perm _ _).map _).nodup_iff.mpr ?_
  refine List.Nodup.sublist ?_ hsound.ids
  exact map_filterMap_sublist fun entry item h => cutPlacement_episode h

theorem Sound.apart_of_ne {a b : CutPlacement} {first second : LedgerEntry}
    (hfirst : first ∈ project.entries) (ha : cutPlacement project.docs first = some a)
    (hsecond : second ∈ project.entries) (hb : cutPlacement project.docs second = some b)
    (hne : a.episode ≠ b.episode) : Apart a.place b.place := by
  refine hsound.apart first hfirst second hsecond ?_ a b ha hb
  rwa [← cutPlacement_episode ha, ← cutPlacement_episode hb]

theorem Sound.pairwise_before {items : List CutPlacement}
    (hmem : ∀ item ∈ items, ∃ entry ∈ project.entries,
      cutPlacement project.docs entry = some item)
    (hids : (items.map (·.episode)).Nodup)
    (hsorted : items.Pairwise fun a b => a.position.1 < b.position.1 ∨
      (a.position.1 = b.position.1 ∧ a.position.2 ≤ b.position.2)) :
    items.Pairwise fun a b => a.place.Before b.place := by
  refine (hsorted.and (List.pairwise_map.mp hids)).imp_of_mem ?_
  rintro a b ha hb ⟨hposition, hne⟩
  obtain ⟨first, hfirst, hfirstPlace⟩ := hmem a ha
  obtain ⟨second, hsecond, hsecondPlace⟩ := hmem b hb
  exact before_of_position (cutPlacement_inBounds hsecondPlace)
    (hsound.placeSpan_lt hsecond hsecondPlace)
    (hsound.apart_of_ne hfirst hfirstPlace hsecond hsecondPlace hne) hposition

theorem Sound.placements_eq :
    project.placements =
      (project.entries.filterMap (cutPlacement project.docs)).mergeSort sortKey := by
  have hcandidates : (project.entries.filterMap cutRange).filterMap (candidate project.docs) =
      project.entries.filterMap (cutPlacement project.docs) := List.filterMap_filterMap
  have hsorted := List.pairwise_mergeSort sortKey_trans sortKey_total
    (project.entries.filterMap (cutPlacement project.docs))
  have hbefore := hsound.pairwise_before (fun item => mem_sorted.mp) hsound.sorted_ids
    (hsorted.imp fun hkey => by
      rw [sortKey_iff, earlier_iff, Prod.ext_iff] at hkey
      omega)
  unfold Project.placements cutEpisodePlacements
  rw [hcandidates]
  refine placeCandidates_all hbefore hsound.sorted_ids ?_ fun _ _ => List.not_mem_nil
  intro item _
  rw [← Bool.not_eq_true, earlier_iff]
  omega

theorem Sound.placements_ids : (project.placements.map (·.episode)).Nodup := by
  rw [hsound.placements_eq]
  exact hsound.sorted_ids

theorem Sound.mem_placements {item : CutPlacement} :
    item ∈ project.placements ↔
      ∃ entry ∈ project.entries, cutPlacement project.docs entry = some item := by
  rw [hsound.placements_eq, mem_sorted]

end Placed

end ShortReel.LedgerPlacements
