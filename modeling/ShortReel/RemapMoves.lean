import ShortReel.SourcePlaces

/-!
# Moves and insertions of a file

What `remap_for_move` makes of a range whose place is known, and the text of a range that another file
is inserted in.
-/

namespace ShortReel.RemapMoves

open EditScripts SourceRemap SourcePlaces

variable {docs new : List SourceDoc} {target : ℕ} {rel : String} {entry : ℕ × SourceSpan} {p : Place}

theorem keptUpTo_spec {old order : List String} {first position last fuel kept : ℕ}
    (hfirst : first ≤ kept) (hlast : kept ≤ last) :
    kept ≤ keptUpTo old order first position last fuel kept ∧
      keptUpTo old order first position last fuel kept ≤ last ∧
        ∀ count, kept < first + count →
          first + count ≤ keptUpTo old order first position last fuel kept →
            order[position + count]? = old[first + count]? := by
  induction fuel generalizing kept with
  | zero => exact ⟨le_rfl, hlast, fun count hlt hle => absurd hlt (Nat.not_lt.mpr hle)⟩
  | succ fuel ih =>
      rw [keptUpTo]
      split_ifs with hmore hdiffers
      · exact ⟨le_rfl, hlast, fun count hlt hle => absurd hlt (Nat.not_lt.mpr hle)⟩
      · obtain ⟨hle, hbound, hfiles⟩ := ih (hfirst.trans (Nat.le_succ kept)) hmore.1
        refine ⟨(Nat.le_succ kept).trans hle, hbound, fun count hlt hcount => ?_⟩
        rcases Nat.eq_or_lt_of_le hlt with heq | hlt'
        · have hnext := not_not.mp hdiffers
          have hposition : position + (kept - first) + 1 = position + count := by omega
          rw [hposition] at hnext
          exact hnext.trans (congrArg (old[·]?) heq)
        · exact hfiles count hlt' hcount
      · exact ⟨le_rfl, hlast, fun count hlt hle => absurd hlt (Nat.not_lt.mpr hle)⟩

theorem getElem?_of_rels (hdocs : (rels docs).Nodup) (hfrom : ∀ doc ∈ new, doc ∈ docs) {i j : ℕ}
    (hi : i < docs.length) (h : (rels new)[j]? = (rels docs)[i]?) : new[j]? = docs[i]? := by
  rw [rels, rels, List.getElem?_map, List.getElem?_map, List.getElem?_eq_getElem hi] at h
  obtain ⟨doc, hdoc, hrel⟩ := Option.map_eq_some_iff.mp h
  have hmem := hfrom doc (List.mem_of_getElem? hdoc)
  rw [hdoc, List.getElem?_eq_getElem hi]
  exact congrArg some (List.inj_on_of_nodup_map hdocs hmem (List.getElem_mem hi) hrel)

theorem mem_of_mem_movedDocs {newIndex : ℕ} {doc : SourceDoc}
    (h : doc ∈ movedDocs docs rel target newIndex) : doc ∈ docs := by
  have hwithout : ∀ doc ∈ docsWithout docs rel, doc ∈ docs :=
    fun _ hdoc => (List.mem_filter.mp hdoc).1
  rcases List.mem_append.mp h with hfront | hbehind
  · exact hwithout doc (List.mem_of_mem_take hfront)
  rcases List.mem_append.mp hbehind with hmoved | hrest
  · exact List.mem_of_getElem? (Option.mem_toList.mp hmoved)
  · exact hwithout doc (List.mem_of_mem_drop hrest)

theorem mem_movedDocs {newIndex : ℕ} {doc : SourceDoc} (hindex : index docs rel = some target)
    (hdocs : (rels docs).Nodup) (h : doc ∈ docs) : doc ∈ movedDocs docs rel target newIndex := by
  by_cases hrel : doc.relPath = rel
  · obtain ⟨i, hi, hget⟩ := List.mem_iff_getElem.mp h
    have hdoc : docs[i]? = some doc := by rw [List.getElem?_eq_getElem hi, hget]
    have hhere : index docs rel = some i := by
      refine index_of_getElem? hdocs ?_
      rw [rels, List.getElem?_map, hdoc]
      exact congrArg some hrel
    obtain rfl := Option.some.inj (hindex.symm.trans hhere)
    refine List.mem_append_right _ (List.mem_append_left _ ?_)
    exact Option.mem_toList.mpr hdoc
  · have hkept : doc ∈ docsWithout docs rel := List.mem_filter.mpr ⟨h, decide_eq_true hrel⟩
    rw [← List.take_append_drop newIndex (docsWithout docs rel)] at hkept
    rcases List.mem_append.mp hkept with hfront | hbehind
    · exact List.mem_append_left _ hfront
    · exact List.mem_append_right _ (List.mem_append_right _ hbehind)

theorem remapMoved_eq (hdocs : (rels docs).Nodup) (hnew : (rels new).Nodup)
    (hsame : ∀ doc, doc ∈ new ↔ doc ∈ docs) (hplace : place docs entry.2 = some p)
    (hp : p.InBounds docs) : ∃ position kept,
      (∀ count, p.first + count ≤ kept → new[position + count]? = docs[p.first + count]?) ∧
      ((kept = p.last ∧ remapMoved docs new entry = some (unchanged entry.1 entry.2)) ∨
        ∃ after q, place new after = some q ∧ q.Fits new ∧
          remapMoved docs new entry = finish new entry.1 entry.2 after true) := by
  obtain ⟨hfirst, hlast, hstart, hstop⟩ := place_eq_some_iff.mp hplace
  have hbound := hp.last_lt
  have hle := hp.first_le
  obtain ⟨position, hposition⟩ : ∃ position, index new entry.2.sourceFile = some position := by
    have hsource := List.mem_of_getElem? (getElem?_of_index hfirst)
    obtain ⟨doc, hdoc, hrel⟩ := List.mem_map.mp hsource
    obtain ⟨i, hi, hget⟩ := List.mem_iff_getElem.mp ((hsame doc).mpr hdoc)
    refine ⟨i, index_of_getElem? hnew ?_⟩
    rw [rels, List.getElem?_map, List.getElem?_eq_getElem hi, hget]
    exact congrArg some hrel
  obtain ⟨hfirstKept, hkeptLast, hfiles⟩ := @keptUpTo_spec (rels docs) (rels new) p.first position
    p.last (p.last - p.first) p.first le_rfl hle
  generalize hkept : keptUpTo (rels docs) (rels new) p.first position p.last (p.last - p.first)
    p.first = kept at *
  have hdocsEq : ∀ count, p.first + count ≤ kept →
      new[position + count]? = docs[p.first + count]? := by
    intro count hcount
    refine getElem?_of_rels hdocs (fun doc => (hsame doc).mp) (by omega) ?_
    rcases Nat.eq_zero_or_pos count with rfl | hpos
    · exact (getElem?_of_index hposition).trans (getElem?_of_index hfirst).symm
    · exact hfiles count (by omega) hcount
  refine ⟨position, kept, hdocsEq, ?_⟩
  by_cases hall : kept = p.last
  · refine .inl ⟨hall, ?_⟩
    simp [remapMoved, hfirst, hlast, hposition, hkept, hall]
  · refine .inr ?_
    obtain ⟨endFile, hendFile⟩ := @rels_getElem? docs kept (by omega)
    have hkeptFile := hdocsEq (kept - p.first) (by omega)
    rw [Nat.add_sub_cancel' hfirstKept] at hkeptFile
    have hend := index_relocated hnew hkeptFile (index_of_getElem? hdocs hendFile)
    refine ⟨⟨entry.2.sourceFile, p.start, endFile, lengthAt docs kept⟩,
      ⟨position, p.start, position + (kept - p.first), lengthAt docs kept⟩,
      place_eq_some_iff.mpr ⟨hposition, hend, rfl, rfl⟩, ⟨Nat.le_add_right _ _, index_lt hend, ?_, ?_⟩,
      ?_⟩
    · exact hp.start_le.trans (congrArg List.length (textAt_relocated (hdocsEq 0 hfirstKept))).ge
    · exact (congrArg List.length (textAt_relocated hkeptFile)).ge
    · simp [remapMoved, hfirst, hlast, hposition, hkept, hall, hendFile, hstart]

section Insertions

variable {boundary : ℕ} (doc : SourceDoc)

theorem insertedDocs_min (docs : List SourceDoc) (index : ℕ) :
    insertedDocs docs index doc = insertedDocs docs (min index docs.length) doc := by
  rcases Nat.le_total index docs.length with hle | hle
  · rw [Nat.min_eq_left hle]
  · rw [Nat.min_eq_right hle, insertedDocs, insertedDocs, List.take_of_length_le hle,
      List.take_length, List.drop_of_length_le hle, List.drop_length]

variable (hboundary : boundary ≤ docs.length)
include hboundary

theorem length_take_boundary : (docs.take boundary).length = boundary := by
  rw [List.length_take, Nat.min_eq_left hboundary]

theorem getElem?_inserted_before {i : ℕ} (h : i < boundary) :
    (insertedDocs docs boundary doc)[i]? = docs[i]? := by
  rw [insertedDocs, List.getElem?_append_left (by rwa [length_take_boundary hboundary])]
  exact List.getElem?_take_of_lt h

theorem getElem?_inserted : (insertedDocs docs boundary doc)[boundary]? = some doc := by
  have hlength := length_take_boundary hboundary
  rw [insertedDocs, List.getElem?_append_right hlength.le, hlength, Nat.sub_self]
  rfl

theorem getElem?_inserted_behind {i : ℕ} (h : boundary ≤ i) :
    (insertedDocs docs boundary doc)[i + 1]? = docs[i]? := by
  have hlength := length_take_boundary hboundary
  have hindex : i + 1 - boundary = i - boundary + 1 := by omega
  rw [insertedDocs, List.getElem?_append_right (by omega), hlength, hindex, List.getElem?_cons_succ,
    List.getElem?_drop, Nat.add_sub_cancel' h]

theorem base_inserted_before {i : ℕ} (h : i ≤ boundary) :
    base (insertedDocs docs boundary doc) i = base docs i := by
  have hbases := @base_relocated docs (insertedDocs docs boundary doc) 0 0 i fun count hlt =>
    getElem?_inserted_before doc hboundary (by omega)
  rw [Nat.zero_add] at hbases
  exact Nat.add_right_cancel hbases

theorem base_inserted_behind {i : ℕ} (h : boundary ≤ i) :
    base (insertedDocs docs boundary doc) (i + 1) = base docs i + doc.text.length := by
  obtain ⟨count, rfl⟩ := Nat.exists_eq_add_of_le h
  have hbases := @base_relocated docs (insertedDocs docs boundary doc) boundary (boundary + 1) count
    fun later _ => by
      have hindex : boundary + 1 + later = boundary + later + 1 := by omega
      rw [hindex]
      exact getElem?_inserted_behind doc hboundary (Nat.le_add_right _ _)
  have hlength : lengthAt (insertedDocs docs boundary doc) boundary = doc.text.length := by
    rw [lengthAt, textAt, getElem?_inserted doc hboundary]
    rfl
  have hindex : boundary + 1 + count = boundary + count + 1 := by omega
  rw [base_succ, base_inserted_before doc hboundary le_rfl, hlength, hindex] at hbases
  omega

theorem fits_inserted (hp : p.Fits docs) (hfirst : p.first < boundary) (hlast : boundary ≤ p.last) :
    Place.Fits (insertedDocs docs boundary doc) ⟨p.first, p.start, p.last + 1, p.stop⟩ := by
  have hbegin := textAt_relocated (getElem?_inserted_before doc hboundary hfirst)
  have hend := textAt_relocated (getElem?_inserted_behind doc hboundary hlast)
  refine ⟨hp.first_le.trans (Nat.le_succ _), ?_, ?_, ?_⟩
  · have hlt := hp.last_lt
    simp only [insertedDocs, List.length_append, List.length_cons, List.length_take, List.length_drop]
    omega
  · rw [lengthAt, hbegin]
    exact hp.start_le
  · rw [lengthAt, hend]
    exact hp.stop_le

theorem text_inserted (hnew : (rels (insertedDocs docs boundary doc)).Nodup)
    (hplace : place docs entry.2 = some p) (hp : p.Fits docs) (hfirst : p.first < boundary)
    (hlast : boundary ≤ p.last) : ∃ before behind, text docs entry.2 = some (before ++ behind) ∧
      text (insertedDocs docs boundary doc) entry.2 = some (before ++ (doc.text ++ behind)) := by
  obtain ⟨hfirstIndex, hlastIndex, hstart, hstop⟩ := place_eq_some_iff.mp hplace
  have hthere : place (insertedDocs docs boundary doc) entry.2 =
      some ⟨p.first, p.start, p.last + 1, p.stop⟩ := by
    refine place_eq_some_iff.mpr ⟨?_, ?_, hstart, hstop⟩
    · exact index_relocated hnew (getElem?_inserted_before doc hboundary hfirst) hfirstIndex
    · exact index_relocated hnew (getElem?_inserted_behind doc hboundary hlast) hlastIndex
  have hfits := fits_inserted doc hboundary hp hfirst hlast
  have hlength : (wholeText (docs.take boundary)).length = base docs boundary := rfl
  have hstartBase := @base_mono docs (p.first + 1) boundary hfirst
  have hstopBase := @base_mono docs boundary p.last hlast
  have hstartLength := hp.start_le
  rw [base_succ] at hstartBase
  have hold : wholeText docs = wholeText (docs.take boundary) ++ ([] ++ wholeText (docs.drop boundary)) :=
    wholeText_split docs boundary
  have hnewText : wholeText (insertedDocs docs boundary doc) =
      wholeText (docs.take boundary) ++ (doc.text ++ wholeText (docs.drop boundary)) := by
    rw [insertedDocs, wholeText_append]
    rfl
  have hzero : base docs p.first + p.start - base docs boundary = 0 := by omega
  refine ⟨(wholeText (docs.take boundary)).drop (base docs p.first + p.start),
    (wholeText (docs.drop boundary)).take (base docs p.last + p.stop - base docs boundary), ?_, ?_⟩
  · rw [text_of_place hplace, hp.text, hold, slice_around (by omega) (by omega), hlength]
    simp [slice]
  · have hstopEq : base docs p.last + doc.text.length + p.stop - base docs boundary - doc.text.length =
        base docs p.last + p.stop - base docs boundary := by omega
    have htext := hfits.text
    dsimp only at htext
    rw [text_of_place hthere, htext, base_inserted_before doc hboundary hfirst.le,
      base_inserted_behind doc hboundary hlast, hnewText, slice_around (by omega) (by omega), hlength,
      hzero, hstopEq, slice_length_le (by omega), List.drop_zero]

end Insertions

end ShortReel.RemapMoves
