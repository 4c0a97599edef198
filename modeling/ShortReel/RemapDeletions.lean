import ShortReel.SourcePlaces

/-!
# Deletions of a file

What `remap_for_delete` makes of a range whose place is known.
-/

namespace ShortReel.RemapDeletions

open SourceRemap SourcePlaces

variable {docs : List SourceDoc} {target : ℕ} {rel : String}

theorem docsWithout_eq (hdocs : (rels docs).Nodup) (hindex : index docs rel = some target) :
    docsWithout docs rel = docs.eraseIdx target := by
  have hlt := index_lt hindex
  have hrel : docs[target].relPath = rel := by
    have hget := getElem?_of_index hindex
    rw [rels, List.getElem?_map, List.getElem?_eq_getElem hlt] at hget
    exact Option.some.inj hget
  have hsplit : docs = docs.take target ++ docs[target] :: docs.drop (target + 1) := by
    rw [List.getElem_cons_drop, List.take_append_drop]
  have hother : ∀ doc ∈ docs.take target ++ docs.drop (target + 1), doc.relPath ≠ rel := by
    intro doc hdoc heq
    rw [hsplit, rels, List.map_append, List.map_cons, List.nodup_middle, ← List.map_append,
      hrel] at hdocs
    exact (List.nodup_cons.mp hdocs).1 (List.mem_map.mpr ⟨doc, hdoc, heq⟩)
  have hkept : ∀ part : List SourceDoc, (∀ doc ∈ part, doc.relPath ≠ rel) →
      part.filter (·.relPath ≠ rel) = part :=
    fun part hpart => List.filter_eq_self.mpr fun doc hdoc => decide_eq_true (hpart doc hdoc)
  rw [docsWithout, List.eraseIdx_eq_take_drop_succ]
  conv_lhs => rw [hsplit]
  rw [List.filter_append, List.filter_cons_of_neg (by simp [hrel]),
    hkept _ fun doc hdoc => hother doc (List.mem_append_left _ hdoc),
    hkept _ fun doc hdoc => hother doc (List.mem_append_right _ hdoc)]

theorem nodup_docsWithout (hdocs : (rels docs).Nodup) : (rels (docsWithout docs rel)).Nodup :=
  hdocs.sublist (List.filter_sublist.map _)

theorem getElem?_docsWithout_before (hdocs : (rels docs).Nodup) (hindex : index docs rel = some target)
    {i : ℕ} (h : i < target) : (docsWithout docs rel)[i]? = docs[i]? := by
  rw [docsWithout_eq hdocs hindex]
  exact List.getElem?_eraseIdx_of_lt h

theorem getElem?_docsWithout_behind (hdocs : (rels docs).Nodup) (hindex : index docs rel = some target)
    {i : ℕ} (h : target ≤ i) : (docsWithout docs rel)[i]? = docs[i + 1]? := by
  rw [docsWithout_eq hdocs hindex]
  exact List.getElem?_eraseIdx_of_ge h

/-- Where the ends go. From the deleted file they go to the next text inside the range, and the files
behind it come one index closer. -/
def deletedPlace (docs : List SourceDoc) (target : ℕ) (p : Place) : Place where
  first := if p.first ≤ target then p.first else p.first - 1
  start := if p.first = target then 0 else p.start
  last := if p.last < target then p.last else p.last - 1
  stop := if p.last = target then lengthAt docs (target - 1) else p.stop

def Survives (target : ℕ) (p : Place) : Prop :=
  p.first = target → p.last ≠ target

theorem getElem?_deletedPlace {p : Place} (hdocs : (rels docs).Nodup)
    (hindex : index docs rel = some target) (hp : p.Fits docs) (hsurvives : Survives target p) :
    (docsWithout docs rel)[(deletedPlace docs target p).first]? =
        docs[if p.first = target then target + 1 else p.first]? ∧
      (docsWithout docs rel)[(deletedPlace docs target p).last]? =
        docs[if p.last = target then target - 1 else p.last]? := by
  have hle := hp.first_le
  unfold Survives at hsurvives
  rw [docsWithout_eq hdocs hindex]
  dsimp only [deletedPlace]
  constructor
  · split_ifs with hbefore heq heq
    · rw [heq]
      exact List.getElem?_eraseIdx_of_ge le_rfl
    · exact List.getElem?_eraseIdx_of_lt (by omega)
    · omega
    · have hnext : p.first - 1 + 1 = p.first := by omega
      rw [List.getElem?_eraseIdx_of_ge (by omega), hnext]
  · split_ifs with hbefore heq heq
    · omega
    · exact List.getElem?_eraseIdx_of_lt hbefore
    · rw [heq]
      exact List.getElem?_eraseIdx_of_lt (by omega)
    · have hnext : p.last - 1 + 1 = p.last := by omega
      rw [List.getElem?_eraseIdx_of_ge (by omega), hnext]

theorem deletedPlace_fits {p : Place} (hdocs : (rels docs).Nodup)
    (hindex : index docs rel = some target) (hp : p.Fits docs) (hsurvives : Survives target p) :
    (deletedPlace docs target p).Fits (docsWithout docs rel) := by
  obtain ⟨hfirst, hlast⟩ := getElem?_deletedPlace hdocs hindex hp hsurvives
  have hlength : (docsWithout docs rel).length = docs.length - 1 := by
    rw [docsWithout_eq hdocs hindex, List.length_eraseIdx_of_lt (index_lt hindex)]
  have htarget := index_lt hindex
  have hbound := hp.last_lt
  have hle := hp.first_le
  unfold Survives at hsurvives
  refine ⟨?_, ?_, ?_, ?_⟩
  · simp only [deletedPlace]
    split_ifs <;> omega
  · rw [hlength]
    simp only [deletedPlace]
    split_ifs <;> omega
  · rw [lengthAt, textAt_relocated hfirst]
    change (if p.first = target then 0 else p.start) ≤ _
    split_ifs
    · exact Nat.zero_le _
    · exact hp.start_le
  · rw [lengthAt, textAt_relocated hlast]
    change (if p.last = target then lengthAt docs (target - 1) else p.stop) ≤ _
    split_ifs
    · exact le_rfl
    · exact hp.stop_le

theorem exists_deletedFiles {p : Place} (hdocs : (rels docs).Nodup)
    (hindex : index docs rel = some target) (hp : p.Fits docs) (hsurvives : Survives target p) :
    ∃ startFile endFile,
      (rels docs)[if p.first = target then target + 1 else p.first]? = some startFile ∧
      (rels docs)[if p.last = target then target - 1 else p.last]? = some endFile ∧
      index (docsWithout docs rel) startFile = some (deletedPlace docs target p).first ∧
      index (docsWithout docs rel) endFile = some (deletedPlace docs target p).last := by
  obtain ⟨hfirst, hlast⟩ := getElem?_deletedPlace hdocs hindex hp hsurvives
  have hbound := hp.last_lt
  have hle := hp.first_le
  unfold Survives at hsurvives
  obtain ⟨startFile, hstartFile⟩ := @rels_getElem? docs
    (if p.first = target then target + 1 else p.first) (by split_ifs <;> omega)
  obtain ⟨endFile, hendFile⟩ := @rels_getElem? docs
    (if p.last = target then target - 1 else p.last) (by split_ifs <;> omega)
  exact ⟨startFile, endFile, hstartFile, hendFile,
    index_relocated (nodup_docsWithout hdocs) hfirst (index_of_getElem? hdocs hstartFile),
    index_relocated (nodup_docsWithout hdocs) hlast (index_of_getElem? hdocs hendFile)⟩

theorem remapDeleted_eq {entry : ℕ × SourceSpan} {p : Place} (hdocs : (rels docs).Nodup)
    (hindex : index docs rel = some target) (hplace : place docs entry.2 = some p)
    (hp : p.Fits docs) :
    (¬ (p.first ≤ target ∧ target ≤ p.last) ∧
      remapDeleted docs rel target entry = some (unchanged entry.1 entry.2)) ∨
    (¬ Survives target p ∧ remapDeleted docs rel target entry =
      some { episode := entry.1, before := entry.2, after := none, textChanged := true }) ∨
    (Survives target p ∧ (p.first ≤ target ∧ target ≤ p.last) ∧ ∃ after,
      place (docsWithout docs rel) after = some (deletedPlace docs target p) ∧
      remapDeleted docs rel target entry =
        finish (docsWithout docs rel) entry.1 entry.2 after true) := by
  obtain ⟨episode, span⟩ := entry
  obtain ⟨hfirst, hlast, hstart, hstop⟩ := place_eq_some_iff.mp hplace
  have hle := hp.first_le
  by_cases htouch : p.first ≤ target ∧ target ≤ p.last
  · by_cases hsame : p.first = p.last
    · refine .inr (.inl ⟨fun hsurvives => hsurvives (by omega) (by omega), ?_⟩)
      simp only [remapDeleted, hfirst, hlast, Option.bind_eq_bind, Option.bind_some]
      rw [if_pos htouch, if_pos hsame]
      rfl
    · have hsurvives : Survives target p := fun hbegins hends => hsame (hbegins.trans hends.symm)
      obtain ⟨startFile, endFile, hstartFile, hendFile, hbegin, hend⟩ :=
        exists_deletedFiles hdocs hindex hp hsurvives
      refine .inr (.inr ⟨hsurvives, htouch, ⟨startFile, (deletedPlace docs target p).start, endFile,
        (deletedPlace docs target p).stop⟩, place_eq_some_iff.mpr ⟨hbegin, hend, rfl, rfl⟩, ?_⟩)
      simp only [remapDeleted, hfirst, hlast, Option.bind_eq_bind, Option.bind_some, deletedPlace]
      rw [if_pos htouch, if_neg hsame]
      have hsource := getElem?_of_index hfirst
      have hendSource := getElem?_of_index hlast
      simp only at hstart hstop
      split_ifs at hstartFile hendFile ⊢ with hbegins hends hends
      · omega
      · rw [hstartFile, hstop, Option.some.inj (hendFile.symm.trans hendSource)]
        rfl
      · rw [hendFile, hstart, Option.some.inj (hstartFile.symm.trans hsource)]
        rfl
      · rw [hstart, hstop, Option.some.inj (hstartFile.symm.trans hsource),
          Option.some.inj (hendFile.symm.trans hendSource)]
  · refine .inl ⟨htouch, ?_⟩
    simp [remapDeleted, hfirst, hlast, htouch]

theorem place_untouched {span : SourceSpan} {p : Place} (hdocs : (rels docs).Nodup)
    (hindex : index docs rel = some target) (hplace : place docs span = some p) (hp : p.Fits docs)
    (htouch : ¬ (p.first ≤ target ∧ target ≤ p.last)) :
    place (docsWithout docs rel) span = some (deletedPlace docs target p) := by
  have hle := hp.first_le
  have hbegins : p.first ≠ target := by omega
  have hends : p.last ≠ target := by omega
  obtain ⟨hfirst, hlast⟩ := getElem?_deletedPlace hdocs hindex hp fun heq => absurd heq hbegins
  obtain ⟨hfirstIndex, hlastIndex, hstart, hstop⟩ := place_eq_some_iff.mp hplace
  rw [if_neg hbegins] at hfirst
  rw [if_neg hends] at hlast
  refine place_eq_some_iff.mpr ⟨?_, ?_, hstart.trans (if_neg hbegins).symm,
    hstop.trans (if_neg hends).symm⟩
  · exact index_relocated (nodup_docsWithout hdocs) hfirst hfirstIndex
  · exact index_relocated (nodup_docsWithout hdocs) hlast hlastIndex

end ShortReel.RemapDeletions
