import ShortReel.SourcePlaces
import Mathlib.Data.List.Sort

/-!
# Placements of the cut episodes

`cut_episode_placements`: the ranges of the ledger that fall into the whole source, one behind the
other. The entries are those that have an episode, a range and an origin in the whole source.
-/

namespace ShortReel.CutPlacements

open SourceRemap SourcePlaces

structure CutPlacement where
  episode : ℕ
  place : Place
  deriving DecidableEq, Repr

namespace CutPlacement

/-- `position` and `end_position`. -/
def position (item : CutPlacement) : ℕ × ℕ :=
  (item.place.first, item.place.start)

def endPosition (item : CutPlacement) : ℕ × ℕ :=
  (item.place.last, item.place.stop)

end CutPlacement

/-- `<` of two positions. -/
def earlier (a b : ℕ × ℕ) : Bool :=
  a.1 < b.1 ∨ (a.1 = b.1 ∧ a.2 < b.2)

def candidate (docs : List SourceDoc) (entry : ℕ × SourceSpan) : Option CutPlacement := do
  let (episode, span) := entry
  let first ← index docs span.sourceFile
  let last ← index docs span.endFile
  if last < first then none
  else if lengthAt docs first < span.start then none
  else if first = last ∧ span.stop < span.start then none
  else
    return { episode, place := { first, start := span.start, last,
                                 stop := min span.stop (lengthAt docs last) } }

def sortKey (a b : CutPlacement) : Bool :=
  if a.position = b.position then !earlier b.endPosition a.endPosition
  else !earlier b.position a.position

def placeCandidates : (cursor : ℕ × ℕ) → (placed : List ℕ) → List CutPlacement → List CutPlacement
  | _, _, [] => []
  | cursor, placed, item :: items =>
      if earlier item.position cursor ∨ item.episode ∈ placed then placeCandidates cursor placed items
      else item :: placeCandidates item.endPosition (item.episode :: placed) items

def cutEpisodePlacements (docs : List SourceDoc) (entries : Spans) : List CutPlacement :=
  placeCandidates (0, 0) [] ((entries.filterMap (candidate docs)).mergeSort sortKey)

def spanOf (docs : List SourceDoc) (item : CutPlacement) : Option (ℕ × SourceSpan) := do
  let sourceFile ← (rels docs)[item.place.first]?
  let endFile ← (rels docs)[item.place.last]?
  return (item.episode, { sourceFile, start := item.place.start, endFile, stop := item.place.stop })

/-- `_spans`. -/
def spansOf (docs : List SourceDoc) (entries : Spans) : Option Spans :=
  (cutEpisodePlacements docs entries).mapM (spanOf docs)

variable {docs : List SourceDoc} {items : List CutPlacement} {cursor : ℕ × ℕ} {placed : List ℕ}

theorem candidate_inBounds {entry : ℕ × SourceSpan} {item : CutPlacement}
    (h : candidate docs entry = some item) : item.place.InBounds docs := by
  unfold candidate at h
  obtain ⟨first, hfirst, h⟩ := Option.bind_eq_some_iff.mp h
  obtain ⟨last, hlast, h⟩ := Option.bind_eq_some_iff.mp h
  split_ifs at h with hfiles hstart hempty
  cases h
  refine ⟨⟨Nat.le_of_not_lt hfiles, index_lt hlast, Nat.le_of_not_lt hstart, Nat.min_le_right _ _⟩,
    fun heq => ?_⟩
  dsimp only at heq ⊢
  rw [heq] at hstart hempty
  omega

theorem mem_placeCandidates {item : CutPlacement} (h : item ∈ placeCandidates cursor placed items) :
    item ∈ items := by
  induction items generalizing cursor placed with
  | nil => exact h
  | cons other items ih =>
      rw [placeCandidates] at h
      split_ifs at h
      · exact List.mem_cons_of_mem other (ih h)
      · rcases List.mem_cons.mp h with rfl | hrest
        · exact List.mem_cons_self
        · exact List.mem_cons_of_mem other (ih hrest)

theorem before_of_not_earlier {last : Place} {item : CutPlacement}
    (h : ¬ earlier item.position (last.last, last.stop)) : last.Before item.place := by
  have hle := of_decide_eq_false (Bool.eq_false_iff.mpr h)
  simp only [CutPlacement.position] at hle
  unfold Place.Before
  omega

theorem before_trans {p q r : Place} (hpq : p.Before q) (hq : q.InBounds docs) (hqr : q.Before r) :
    p.Before r := by
  have hle := hq.first_le
  have hordered := hq.ordered
  unfold Place.Before at hpq hqr ⊢
  omega

theorem placeCandidates_before (hitems : ∀ item ∈ items, item.place.InBounds docs) {last : Place}
    (hlast : (last.last, last.stop) = cursor) :
    (placeCandidates cursor placed items).Pairwise (fun a b => a.place.Before b.place) ∧
      ∀ item ∈ placeCandidates cursor placed items, last.Before item.place := by
  induction items generalizing cursor placed last with
  | nil => exact ⟨.nil, fun _ hitem => absurd hitem List.not_mem_nil⟩
  | cons item items ih =>
      obtain ⟨hitem, hrest⟩ := List.forall_mem_cons.mp hitems
      rw [placeCandidates]
      split_ifs with hskip
      · exact ih hrest hlast
      · obtain ⟨hpairs, hbehind⟩ := @ih item.endPosition (item.episode :: placed) hrest item.place rfl
        have hfirst : last.Before item.place :=
          before_of_not_earlier (hlast ▸ fun hearlier => hskip (.inl hearlier))
        refine ⟨List.pairwise_cons.mpr ⟨hbehind, hpairs⟩, List.forall_mem_cons.mpr ⟨hfirst, ?_⟩⟩
        exact fun other hother => before_trans hfirst hitem (hbehind other hother)

theorem exists_spanOf (hdocs : (rels docs).Nodup) {item : CutPlacement}
    (h : item.place.InBounds docs) :
    ∃ entry, spanOf docs item = some entry ∧ place docs entry.2 = some item.place := by
  obtain ⟨sourceFile, hsource⟩ := rels_getElem? (h.first_le.trans_lt h.last_lt)
  obtain ⟨endFile, hend⟩ := rels_getElem? h.last_lt
  refine ⟨(item.episode, ⟨sourceFile, item.place.start, endFile, item.place.stop⟩), ?_,
    place_eq_some_iff.mpr ⟨index_of_getElem? hdocs hsource, index_of_getElem? hdocs hend, rfl, rfl⟩⟩
  simp [spanOf, hsource, hend]

theorem spansOf_ordered (hdocs : (rels docs).Nodup) (entries : Spans) :
    ∃ spans, spansOf docs entries = some spans ∧ AllInBounds docs spans ∧ Ordered docs spans := by
  have hcandidates : ∀ item ∈ (entries.filterMap (candidate docs)).mergeSort sortKey,
      item.place.InBounds docs := by
    intro item hitem
    obtain ⟨entry, -, hentry⟩ := List.mem_filterMap.mp (List.mem_mergeSort.mp hitem)
    exact candidate_inBounds hentry
  have hround : ∀ item ∈ cutEpisodePlacements docs entries,
      ∃ entry, spanOf docs item = some entry ∧ place docs entry.2 = some item.place :=
    fun item hitem => exists_spanOf hdocs (hcandidates item (mem_placeCandidates hitem))
  obtain ⟨spans, hspans⟩ : ∃ spans, spansOf docs entries = some spans :=
    exists_mapM fun item hitem => (hround item hitem).imp fun _ => And.left
  refine ⟨spans, hspans, (forall_mapM hspans).mpr fun item hitem entry hentry => ?_, ?_⟩
  · obtain ⟨other, hother, hplace⟩ := hround item hitem
    obtain rfl := Option.some.inj (hentry.symm.trans hother)
    exact ⟨item.place, hplace, hcandidates item (mem_placeCandidates hitem)⟩
  · have hpairs := (@placeCandidates_before docs _ (0, 0) [] hcandidates ⟨0, 0, 0, 0⟩ rfl).1
    refine pairwise_mapM hspans hpairs fun a ha b hb hab x y hx hy => ?_
    obtain ⟨first, hfirst, hfirstPlace⟩ := hround a ha
    obtain ⟨second, hsecond, hsecondPlace⟩ := hround b hb
    obtain rfl := Option.some.inj (hx.symm.trans hfirst)
    obtain rfl := Option.some.inj (hy.symm.trans hsecond)
    exact ⟨a.place, b.place, hfirstPlace, hsecondPlace, hab⟩

end ShortReel.CutPlacements
