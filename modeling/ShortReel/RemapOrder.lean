import ShortReel.CutPlacements
import ShortReel.RemapTexts

/-!
# The order of the ranges after a change

The ranges that are left after an edit or a deletion are again in the bounds of the source and one
behind the other.
-/

namespace ShortReel.RemapOrder

open SourceAlignment AlignmentScripts AlignmentPositions SourceRemap SourcePlaces RemapEdits
open RemapDeletions RemapTexts CutPlacements

variable {docs new : List SourceDoc} {spans : Spans} {target : ℕ} {rel : String} {newText : Text}
  {p q p' q' : Place}

def kept (remaps : List RangeRemap) : Spans :=
  remaps.filterMap fun remap => remap.after.map (remap.episode, ·)

theorem Before.of_narrows (h : p.Before q) (hp : p'.Narrows docs p) (hq : q'.Narrows docs q) :
    p'.Before q' := by
  have hstop := hp.stop_le
  have hstart := hq.start_le
  unfold Place.Before at h ⊢
  omega

theorem Before.base_le (h : p.Before q) (hp : p.Fits docs) :
    base docs p.last + p.stop ≤ base docs q.first + q.start := by
  rcases h with hlt | ⟨heq, hle⟩
  · have hmono := @base_mono docs (p.last + 1) q.first hlt
    have hstop := hp.stop_le
    rw [base_succ] at hmono
    omega
  · rw [heq]
    omega

theorem Before.deletedPlace (h : p.Before q) (hp : p.Fits docs)
    (hpSurvives : Survives target p) : (deletedPlace docs target p).Before (deletedPlace docs target q) := by
  have hple := hp.first_le
  unfold Survives at hpSurvives
  unfold Place.Before at h ⊢
  dsimp only [RemapDeletions.deletedPlace]
  split_ifs <;> omega

theorem Before.editedPlace {matcher : SequenceMatcher} {starts : List ℕ} (h : p.Before q)
    (hq : q.Fits docs) (hstarts : base docs q.first + q.start ∈ starts) (shared : Bool) :
    (editedPlace (alignTexts matcher (textAt docs target) newText) target
        (decide (base docs p.last + p.stop ∈ starts)) p).Before
      (editedPlace (alignTexts matcher (textAt docs target) newText) target shared q) := by
  rcases h with hlt | ⟨heq, hle⟩
  · exact .inl hlt
  · refine .inr ⟨heq, ?_⟩
    dsimp only [RemapEdits.editedPlace]
    rw [heq]
    split_ifs with htarget
    · have hlength := hq.start_le
      rw [htarget] at hlength
      rcases Nat.eq_or_lt_of_le hle with hsame | hlt
      · rw [hsame, decide_eq_true hstarts]
      · exact mapPosition_lt (alignTexts_script matcher (textAt docs target) newText) (Nat.zero_le _)
          hlt hlength _ _
    · exact hle

def Leaves (new : List SourceDoc) (entry : ℕ × SourceSpan) (p : Place) (remap : RangeRemap) : Prop :=
  remap.episode = entry.1 ∧ ∀ after, remap.after = some after →
    ∃ q, place new after = some q ∧ q.InBounds new ∧ q.Narrows new p

theorem narrows_refl (p : Place) : p.Narrows new p :=
  ⟨rfl, rfl, .inr ⟨rfl, le_rfl⟩, .inr ⟨rfl, le_rfl⟩⟩

theorem leaves_unchanged {entry : ℕ × SourceSpan} (h : place new entry.2 = some p)
    (hp : p.InBounds new) : Leaves new entry p (unchanged entry.1 entry.2) := by
  refine ⟨rfl, fun after hafter => ⟨p, ?_, hp, narrows_refl p⟩⟩
  rwa [← Option.some.inj hafter]

theorem finish_leaves {entry : ℕ × SourceSpan} {after : SourceSpan} {changed : Bool}
    (hnew : (rels new).Nodup) (hafter : place new after = some p) (hp : p.Fits new) :
    ∃ remap, finish new entry.1 entry.2 after changed = some remap ∧ Leaves new entry p remap := by
  obtain ⟨remap, hremap, -, hcases⟩ := @finish_spec new hnew entry.1 entry.2 after changed p hafter hp
  refine ⟨remap, hremap, finish_episode hremap, fun span hspan => ?_⟩
  rcases hcases with ⟨hnone, -⟩ | ⟨other, q, hother, -, hq⟩
  · rw [hnone] at hspan
    cases hspan
  · obtain rfl := Option.some.inj (hspan.symm.trans hother)
    exact ⟨q, hq⟩

theorem remapDeleted_leaves {entry : ℕ × SourceSpan} (hdocs : (rels docs).Nodup)
    (hindex : index docs rel = some target) (hplace : place docs entry.2 = some p)
    (hp : p.InBounds docs) : ∃ remap, remapDeleted docs rel target entry = some remap ∧
      Leaves (docsWithout docs rel) entry (deletedPlace docs target p) remap ∧
        (remap.after ≠ none → Survives target p) := by
  rcases remapDeleted_eq hdocs hindex hplace hp.toFits with
    ⟨htouch, heq⟩ | ⟨-, heq⟩ | ⟨hsurvives, -, after, hafter, heq⟩
  · have hle := hp.first_le
    have hsurvives : Survives target p := fun hbegins hends => htouch (by omega)
    refine ⟨_, heq, leaves_unchanged (place_untouched hdocs hindex hplace hp.toFits htouch)
      ⟨deletedPlace_fits hdocs hindex hp.toFits hsurvives, ?_⟩, fun _ => hsurvives⟩
    have hordered := hp.ordered
    dsimp only [deletedPlace]
    split_ifs <;> omega
  · exact ⟨_, heq, ⟨rfl, fun _ hafter => by cases hafter⟩, fun hsome => absurd rfl hsome⟩
  · obtain ⟨remap, hremap, hleaves⟩ := @finish_leaves _ _ entry after true
      (nodup_docsWithout hdocs) hafter (deletedPlace_fits hdocs hindex hp.toFits hsurvives)
    exact ⟨remap, heq.trans hremap, hleaves, fun _ => hsurvives⟩

theorem editedPlace_untouched {alignment : TextAlignment} {shared : Bool}
    (hbegins : p.first ≠ target) (hends : p.last ≠ target) :
    editedPlace alignment target shared p = p := by
  rw [editedPlace, if_neg hbegins, if_neg hends]

theorem remapEdited_leaves {entry : ℕ × SourceSpan} (matcher : SequenceMatcher) (starts : List ℕ)
    (hdocs : (rels docs).Nodup) (hindex : index docs rel = some target)
    (hplace : place docs entry.2 = some p) (hp : p.InBounds docs) :
    ∃ remap, remapEdited docs rel newText target (alignTexts matcher (textAt docs target) newText)
        starts entry = some remap ∧
      Leaves (editedDocs docs target rel newText) entry
        (editedPlace (alignTexts matcher (textAt docs target) newText) target
          (decide (base docs p.last + p.stop ∈ starts)) p) remap := by
  have hnew : (rels (editedDocs docs target rel newText)).Nodup := by rwa [rels_edited hindex]
  have hfits := @editedPlace_fits _ _ rel newText matcher
    (decide (base docs p.last + p.stop ∈ starts)) p hindex hp.toFits
  rcases remapEdited_eq hindex hplace with ⟨htouch, heq⟩ | ⟨-, after, _, rfl, hafter, heq⟩
  · have hle := hp.first_le
    have hsame : editedPlace (alignTexts matcher (textAt docs target) newText) target
        (decide (base docs p.last + p.stop ∈ starts)) p = p :=
      editedPlace_untouched (by omega) (by omega)
    rw [hsame] at hfits ⊢
    refine ⟨_, heq, leaves_unchanged ?_ ⟨hfits, hp.ordered⟩⟩
    obtain ⟨hfirst, hlast, hstart, hstop⟩ := place_eq_some_iff.mp hplace
    refine place_eq_some_iff.mpr ⟨?_, ?_, hstart, hstop⟩
    · rw [index_edited hindex, hfirst]
    · rw [index_edited hindex, hlast]
  · rw [heq]
    exact finish_leaves hnew hafter hfits

/-- The ranges that are left are those of some of the episodes in the same order, in the bounds of the
source and one behind the other, so that no text is in two of them. -/
structure KeptInOrder (new : List SourceDoc) (spans : Spans) (remaps : List RangeRemap) : Prop where
  episodes : ((kept remaps).map Prod.fst).Sublist (spans.map Prod.fst)
  inBounds : AllInBounds new (kept remaps)
  ordered : Ordered new (kept remaps)
  disjoint : (kept remaps).Pairwise fun a b => ∃ stop start,
    globalEnd new a.2 = some stop ∧ globalStart new b.2 = some start ∧ stop ≤ start

theorem kept_sublist (remaps : List RangeRemap) :
    ((kept remaps).map Prod.fst).Sublist (remaps.map (·.episode)) := by
  induction remaps with
  | nil => exact List.Sublist.slnil
  | cons remap remaps ih =>
      unfold kept at ih ⊢
      cases hafter : remap.after with
      | none =>
          rw [List.filterMap_cons, hafter]
          exact ih.cons _
      | some after =>
          rw [List.filterMap_cons, hafter]
          exact ih.cons_cons _

section Rounds

variable {round : ℕ × SourceSpan → Option RangeRemap} (moved : Place → Place)
  (stays : Place → Prop) {remaps : List RangeRemap}

theorem keptInOrder (hremaps : spans.mapM round = some remaps) (hspans : AllInBounds docs spans)
    (hordered : Ordered docs spans)
    (hround : ∀ entry ∈ spans, ∀ p, place docs entry.2 = some p → p.InBounds docs →
      ∃ remap, round entry = some remap ∧ Leaves new entry (moved p) remap ∧
        (remap.after ≠ none → stays p))
    (hmoved : ∀ b ∈ spans, ∀ p q, place docs b.2 = some q → p.InBounds docs → q.InBounds docs →
      stays p → p.Before q → (moved p).Before (moved q)) : KeptInOrder new spans remaps := by
  have hfacts : ∀ entry ∈ spans, ∀ remap, round entry = some remap → ∃ p,
      place docs entry.2 = some p ∧ p.InBounds docs ∧ Leaves new entry (moved p) remap ∧
        (remap.after ≠ none → stays p) := by
    intro entry hentry remap hremap
    obtain ⟨p, hplace, hp⟩ := hspans entry hentry
    obtain ⟨other, hother, hleaves⟩ := hround entry hentry p hplace hp
    obtain rfl := Option.some.inj (hremap.symm.trans hother)
    exact ⟨p, hplace, hp, hleaves⟩
  have hepisodes : remaps.map (·.episode) = spans.map Prod.fst := by
    refine map_mapM hremaps fun entry hentry remap hremap => ?_
    obtain ⟨p, -, -, hleaves, -⟩ := hfacts entry hentry remap hremap
    exact hleaves.1
  have hbounds : AllInBounds new (kept remaps) := by
    intro entry hentry
    obtain ⟨remap, hremap, hsome⟩ := List.mem_filterMap.mp hentry
    obtain ⟨after, hafter, rfl⟩ := Option.map_eq_some_iff.mp hsome
    have hresults : ∀ remap ∈ remaps, ∀ after, remap.after = some after →
        ∃ q, place new after = some q ∧ q.InBounds new := by
      refine (forall_mapM hremaps).mpr fun other hother result hresult span hspan => ?_
      obtain ⟨p, -, -, hleaves, -⟩ := hfacts other hother result hresult
      obtain ⟨q, hq, hqBounds, -⟩ := hleaves.2 span hspan
      exact ⟨q, hq, hqBounds⟩
    exact hresults remap hremap after hafter
  have hbefore : Ordered new (kept remaps) := by
    refine List.pairwise_filterMap.mpr (pairwise_mapM hremaps hordered ?_)
    rintro a ha b hb ⟨p, q, hp, hq, hpq⟩ x y hx hy entry hentry later hlater
    obtain ⟨after, hafter, rfl⟩ := Option.map_eq_some_iff.mp hentry
    obtain ⟨after', hafter', rfl⟩ := Option.map_eq_some_iff.mp hlater
    obtain ⟨p', hp', hpBounds, ⟨-, hpLeaves⟩, hstays⟩ := hfacts a ha x hx
    obtain ⟨q', hq', hqBounds, ⟨-, hqLeaves⟩, -⟩ := hfacts b hb y hy
    obtain rfl := Option.some.inj (hp.symm.trans hp')
    obtain rfl := Option.some.inj (hq.symm.trans hq')
    obtain ⟨first, hfirst, -, hfirstNarrows⟩ := hpLeaves after hafter
    obtain ⟨second, hsecond, -, hsecondNarrows⟩ := hqLeaves after' hafter'
    have hstaying := hstays (by simp [hafter])
    exact ⟨first, second, hfirst, hsecond,
      Before.of_narrows (hmoved b hb p q hq hpBounds hqBounds hstaying hpq) hfirstNarrows
        hsecondNarrows⟩
  refine ⟨hepisodes ▸ kept_sublist remaps, hbounds, hbefore, ?_⟩
  refine List.Pairwise.imp_of_mem ?_ hbefore
  rintro a b ha - ⟨p, q, hp, hq, hpq⟩
  obtain ⟨p', hp', hpBounds⟩ := hbounds a ha
  obtain rfl := Option.some.inj (hp.symm.trans hp')
  exact ⟨_, _, globalEnd_of_place hp, globalStart_of_place hq, Before.base_le hpq hpBounds.toFits⟩

end Rounds

theorem remapForEdit_ordered (matcher : SequenceMatcher) (hdocs : (rels docs).Nodup)
    (hindex : index docs rel = some target) (hspans : AllInBounds docs spans)
    (hordered : Ordered docs spans) (newText : Text) :
    ∃ remaps, remapForEdit matcher docs spans rel newText = some remaps ∧
      KeptInOrder (editedDocs docs target rel newText) spans remaps := by
  obtain ⟨remaps, hremaps, -⟩ :=
    @remapForEdit_faithful docs spans target rel newText matcher hdocs hspans hindex
  refine ⟨remaps, hremaps, ?_⟩
  unfold remapForEdit at hremaps
  obtain ⟨_, hsame, hremaps⟩ := Option.bind_eq_some_iff.mp hremaps
  obtain rfl := Option.some.inj (hindex.symm.trans hsame)
  obtain ⟨starts, hstarts, hremaps⟩ := Option.bind_eq_some_iff.mp hremaps
  refine keptInOrder (fun p => editedPlace (alignTexts matcher (textAt docs target) newText) target
    (decide (base docs p.last + p.stop ∈ starts)) p) (fun _ => True) hremaps hspans hordered
    (fun entry _ p hplace hp => ?_) ?_
  · obtain ⟨remap, hremap, hleaves⟩ :=
      @remapEdited_leaves _ _ _ newText _ entry matcher starts hdocs hindex hplace hp
    exact ⟨remap, hremap, hleaves, fun _ => trivial⟩
  · intro b hb p q hq _ hqBounds _ hpq
    have hmem := (forall_mapM hstarts).mp (fun _ hstart => hstart) b hb _ (globalStart_of_place hq)
    exact Before.editedPlace hpq hqBounds.toFits hmem _

theorem remapForDelete_ordered (hdocs : (rels docs).Nodup)
    (hindex : index docs rel = some target) (hspans : AllInBounds docs spans)
    (hordered : Ordered docs spans) :
    ∃ remaps, remapForDelete docs spans rel = some remaps ∧
      KeptInOrder (docsWithout docs rel) spans remaps := by
  obtain ⟨remaps, hremaps, -⟩ := remapForDelete_faithful hdocs hspans hindex
  refine ⟨remaps, hremaps, ?_⟩
  unfold remapForDelete at hremaps
  obtain ⟨_, hsame, hremaps⟩ := Option.bind_eq_some_iff.mp hremaps
  obtain rfl := Option.some.inj (hindex.symm.trans hsame)
  refine keptInOrder (deletedPlace docs target) (Survives target) hremaps hspans hordered
    (fun entry _ p hplace hp => ?_) ?_
  · exact remapDeleted_leaves hdocs hindex hplace hp
  · intro b _ p q _ hp _ hsurvives hpq
    exact Before.deletedPlace hpq hp.toFits hsurvives

/-- After an edit or a deletion of a file the ranges are again in bounds and in order. -/
theorem remaps_ordered (matcher : SequenceMatcher) (hdocs : (rels docs).Nodup)
    (hindex : index docs rel = some target) (hspans : AllInBounds docs spans)
    (hordered : Ordered docs spans) :
    (∀ newText, ∃ remaps, remapForEdit matcher docs spans rel newText = some remaps ∧
      KeptInOrder (editedDocs docs target rel newText) spans remaps) ∧
    ∃ remaps, remapForDelete docs spans rel = some remaps ∧
      KeptInOrder (docsWithout docs rel) spans remaps :=
  ⟨remapForEdit_ordered matcher hdocs hindex hspans hordered,
    remapForDelete_ordered hdocs hindex hspans hordered⟩

theorem remaps_ordered_two :
    (∃ remaps, remapForEdit disjointMatcher twoFiles twoSpans "a.txt" ['w'] = some remaps ∧
      KeptInOrder (editedDocs twoFiles 0 "a.txt" ['w']) twoSpans remaps) ∧
    ∃ remaps, remapForDelete twoFiles twoSpans "a.txt" = some remaps ∧
      KeptInOrder (docsWithout twoFiles "a.txt") twoSpans remaps := by
  have hordered : Ordered twoFiles twoSpans := by
    refine List.pairwise_pair.mpr ⟨⟨0, 0, 0, 1⟩, ⟨0, 1, 1, 1⟩, by decide, by decide, ?_⟩
    exact .inr ⟨rfl, le_rfl⟩
  obtain ⟨hedit, hdelete⟩ := @remaps_ordered twoFiles twoSpans 0 "a.txt" disjointMatcher
    (by decide) (by decide) twoSpans_inBounds hordered
  exact ⟨hedit ['w'], hdelete⟩

theorem placed_remaps_ordered (matcher : SequenceMatcher) (hdocs : (rels docs).Nodup)
    (hindex : index docs rel = some target) (entries : Spans) (newText : Text) :
    ∃ spans remaps, spansOf docs entries = some spans ∧
      remapForEdit matcher docs spans rel newText = some remaps ∧
        KeptInOrder (editedDocs docs target rel newText) spans remaps := by
  obtain ⟨spans, hspans, hbounds, hordered⟩ := spansOf_ordered hdocs entries
  obtain ⟨remaps, hremaps, hkept⟩ :=
    remapForEdit_ordered matcher hdocs hindex hbounds hordered newText
  exact ⟨spans, remaps, hspans, hremaps, hkept⟩

end ShortReel.RemapOrder
