import ShortReel.SourceFileChanges
import ShortReel.LedgerPlacements
import ShortReel.RemapTexts
import ShortReel.TransitionSystem

/-!
# Plans of source file changes

A planned change hands its remaps over for the very files that its commit leaves. A file that is not
readable is not part of the text: without it the readable files stay as they are.
-/

namespace ShortReel.SourceFilePlans

open SourceAlignment SourceRemap SourcePlaces RemapDeletions RemapTexts CutPlacements EpisodeLedger
open SourceFileChanges

variable {matcher : SequenceMatcher} {digest : Text → String} {project : Project}
  {docs new : List SourceDoc} {ranges : Spans} {remaps : List RangeRemap} {change : Change}

theorem orThrow_eq_ok {α : Type} {error : SourceFileChangeError} {value : Option α} {a : α} :
    orThrow error value = .ok a ↔ value = some a := by
  cases value with
  | none => exact iff_of_false (fun h => by cases h) (fun h => by cases h)
  | some b => exact ⟨fun h => by cases h; rfl, fun h => by cases h; rfl⟩

def rangeOf (remap : RangeRemap) : ℕ × SourceSpan :=
  (remap.episode, remap.before)

theorem finish_rangeOf {episode : ℕ} {before after : SourceSpan} {changed : Bool}
    {remap : RangeRemap} (h : finish docs episode before after changed = some remap) :
    rangeOf remap = (episode, before) := by
  unfold finish at h
  obtain ⟨span, -, h⟩ := Option.bind_eq_some_iff.mp h
  obtain ⟨first, -, h⟩ := Option.bind_eq_some_iff.mp h
  obtain ⟨last, -, h⟩ := Option.bind_eq_some_iff.mp h
  obtain ⟨spanText, -, h⟩ := Option.bind_eq_some_iff.mp h
  split_ifs at h
  · cases h
    rfl
  · cases h
    rfl

theorem remapEdited_rangeOf {rel : String} {newText : Text} {target : ℕ}
    {alignment : TextAlignment} {starts : List ℕ} {entry : ℕ × SourceSpan} {remap : RangeRemap}
    (h : remapEdited docs rel newText target alignment starts entry = some remap) :
    rangeOf remap = entry := by
  unfold remapEdited at h
  obtain ⟨first, -, h⟩ := Option.bind_eq_some_iff.mp h
  obtain ⟨last, -, h⟩ := Option.bind_eq_some_iff.mp h
  split_ifs at h
  · obtain ⟨stop, -, h⟩ := Option.bind_eq_some_iff.mp h
    exact finish_rangeOf h
  · cases h
    rfl

theorem remapDeleted_rangeOf {rel : String} {target : ℕ} {entry : ℕ × SourceSpan}
    {remap : RangeRemap} (h : remapDeleted docs rel target entry = some remap) :
    rangeOf remap = entry := by
  unfold remapDeleted at h
  obtain ⟨first, -, h⟩ := Option.bind_eq_some_iff.mp h
  obtain ⟨last, -, h⟩ := Option.bind_eq_some_iff.mp h
  split_ifs at h
  all_goals first
    | (cases h; rfl)
    | (obtain ⟨start, -, h⟩ := Option.bind_eq_some_iff.mp h
       obtain ⟨stop, -, h⟩ := Option.bind_eq_some_iff.mp h
       exact finish_rangeOf h)

theorem remapMoved_rangeOf {entry : ℕ × SourceSpan} {remap : RangeRemap}
    (h : remapMoved docs new entry = some remap) : rangeOf remap = entry := by
  unfold remapMoved at h
  obtain ⟨first, -, h⟩ := Option.bind_eq_some_iff.mp h
  obtain ⟨last, -, h⟩ := Option.bind_eq_some_iff.mp h
  obtain ⟨position, -, h⟩ := Option.bind_eq_some_iff.mp h
  dsimp only at h
  split_ifs at h
  · cases h
    rfl
  · obtain ⟨endFile, -, h⟩ := Option.bind_eq_some_iff.mp h
    exact finish_rangeOf h

theorem remapInserted_rangeOf {boundary : ℕ} {entry : ℕ × SourceSpan} {remap : RangeRemap}
    (h : remapInserted docs boundary entry = some remap) :
    rangeOf remap = entry ∧ remap.after = some entry.2 := by
  unfold remapInserted at h
  obtain ⟨start, -, h⟩ := Option.bind_eq_some_iff.mp h
  obtain ⟨stop, -, h⟩ := Option.bind_eq_some_iff.mp h
  cases h
  exact ⟨rfl, rfl⟩

theorem remaps_rangeOf {sourceChange : SourceChange}
    (h : sourceChange.remaps matcher docs ranges = some remaps) : remaps.map rangeOf = ranges := by
  have hrounds : ∃ round : ℕ × SourceSpan → Option RangeRemap, ranges.mapM round = some remaps ∧
      ∀ entry remap, round entry = some remap → rangeOf remap = entry := by
    cases sourceChange with
    | edit rel newText =>
        obtain ⟨target, -, h⟩ := Option.bind_eq_some_iff.mp h
        obtain ⟨starts, -, h⟩ := Option.bind_eq_some_iff.mp h
        exact ⟨_, h, fun _ _ => remapEdited_rangeOf⟩
    | delete rel =>
        obtain ⟨target, -, h⟩ := Option.bind_eq_some_iff.mp h
        exact ⟨_, h, fun _ _ => remapDeleted_rangeOf⟩
    | insert index doc => exact ⟨_, h, fun _ _ hround => (remapInserted_rangeOf hround).1⟩
    | move rel newIndex =>
        obtain ⟨target, -, h⟩ := Option.bind_eq_some_iff.mp h
        exact ⟨_, h, fun _ _ => remapMoved_rangeOf⟩
  obtain ⟨round, hround, hrange⟩ := hrounds
  rw [map_mapM hround fun entry _ remap => hrange entry remap]
  exact List.map_id ranges

theorem reported_of_gone {sourceChange : SourceChange} (hdocs : (rels docs).Nodup)
    (hchange : sourceChange.docs docs = some new) (hnew : (rels new).Nodup)
    (hranges : AllInBounds docs ranges)
    (h : sourceChange.remaps matcher docs ranges = some remaps) :
    ∀ remap ∈ remaps, remap.textChanged = false → ∃ after, remap.after = some after := by
  obtain ⟨others, hothers, hfaithful⟩ := remaps_faithful_iff matcher hdocs hchange hnew hranges
  obtain rfl := Option.some.inj (hothers.symm.trans h)
  cases sourceChange with
  | insert index doc =>
      refine (forall_mapM h).mpr fun entry _ remap hremap _ => ?_
      exact ⟨_, (remapInserted_rangeOf hremap).2⟩
  | edit rel newText =>
      intro remap hremap hchanged
      exact (hfaithful.mpr not_false remap hremap hchanged).imp fun _ => And.left
  | delete rel =>
      intro remap hremap hchanged
      exact (hfaithful.mpr not_false remap hremap hchanged).imp fun _ => And.left
  | move rel newIndex =>
      intro remap hremap hchanged
      exact (hfaithful.mpr not_false remap hremap hchanged).imp fun _ => And.left

section Sources

variable {sources : List WholeSourceFile} {rel : String}

theorem rels_docsOf (sources : List WholeSourceFile) :
    (rels (docsOf sources)).Sublist (sources.map (·.rel)) := by
  induction sources with
  | nil => exact .slnil
  | cons file sources ih =>
      unfold docsOf rels at ih ⊢
      cases htext : file.text with
      | none =>
          rw [List.filterMap_cons, htext]
          exact ih.cons _
      | some text =>
          rw [List.filterMap_cons, htext]
          exact ih.cons_cons _

theorem docsOf_append (first last : List WholeSourceFile) :
    docsOf (first ++ last) = docsOf first ++ docsOf last :=
  List.filterMap_append

theorem docsOf_without (sources : List WholeSourceFile) (rel : String) :
    docsOf (sources.filter (·.rel ≠ rel)) = docsWithout (docsOf sources) rel := by
  unfold docsOf docsWithout
  rw [List.filterMap_filter, List.filter_filterMap]
  refine List.filterMap_congr fun file _ => ?_
  cases htext : file.text with
  | none => simp
  | some text => rw [Option.map_some, Option.filter_some]

theorem docsWithout_of_not_mem (h : rel ∉ rels docs) : docsWithout docs rel = docs := by
  refine List.filter_eq_self.mpr fun doc hdoc => ?_
  have hne : doc.relPath ≠ rel := fun heq => h (heq ▸ List.mem_map_of_mem hdoc)
  exact decide_eq_true hne

theorem exists_index (hdocs : (rels docs).Nodup) (h : rel ∈ rels docs) :
    ∃ target, index docs rel = some target := by
  obtain ⟨target, htarget⟩ := List.mem_iff_getElem?.mp h
  exact ⟨target, index_of_getElem? hdocs htarget⟩

theorem exists_doc_of_index {i : ℕ} (h : index docs rel = some i) :
    ∃ doc, docs[i]? = some doc ∧ doc.relPath = rel := by
  have hrel := getElem?_of_index h
  rw [rels, List.getElem?_map] at hrel
  exact Option.map_eq_some_iff.mp hrel

theorem index_of_doc (hdocs : (rels docs).Nodup) {i : ℕ} {doc : SourceDoc}
    (h : docs[i]? = some doc) : index docs doc.relPath = some i := by
  refine index_of_getElem? hdocs ?_
  rw [rels, List.getElem?_map, h]
  rfl

theorem map_text_eq {target : ℕ} {newText : Text} (hdocs : (rels docs).Nodup)
    (hindex : index docs rel = some target) :
    (docs.map fun doc => if doc.relPath = rel then { doc with text := newText } else doc) =
      editedDocs docs target rel newText := by
  refine List.ext_getElem? fun i => ?_
  unfold editedDocs
  rw [List.getElem?_map, List.getElem?_set]
  obtain ⟨doc, hdoc, hrel⟩ := exists_doc_of_index hindex
  split_ifs with htarget hlt
  · subst htarget
    rw [hdoc, Option.map_some, if_pos hrel]
    simp [hrel]
  · exact absurd (index_lt hindex) (htarget ▸ hlt)
  · cases hother : docs[i]? with
    | none => rfl
    | some other =>
        have hne : other.relPath ≠ rel := by
          intro heq
          have hi := index_of_doc hdocs hother
          rw [heq, hindex] at hi
          exact htarget (Option.some.inj hi)
        rw [Option.map_some, if_neg hne]

theorem movedDocs_eq {target i : ℕ} {doc : SourceDoc} (hnew : (rels new).Nodup)
    (hwithout : docsWithout new rel = docsWithout docs rel) (hold : docs[target]? = some doc)
    (hi : new[i]? = some doc) (hrel : doc.relPath = rel) : movedDocs docs rel target i = new := by
  have hindex := index_of_doc hnew hi
  rw [hrel] at hindex
  have hlt := index_lt hindex
  unfold movedDocs
  rw [← hwithout, docsWithout_eq hnew hindex, List.eraseIdx_eq_take_drop_succ, hold]
  have htake : (new.take i).length = i := by
    rw [List.length_take]
    omega
  have hfront : (new.take i ++ new.drop (i + 1)).take i = new.take i := by
    rw [List.take_append_of_le_length htake.ge, List.take_take, min_self]
  have hback : (new.take i ++ new.drop (i + 1)).drop i = new.drop (i + 1) := by
    rw [List.drop_append_of_le_length htake.ge, List.drop_take, Nat.sub_self, List.take_zero,
      List.nil_append]
  rw [hfront, hback]
  obtain ⟨hlt', heq⟩ := List.getElem?_eq_some_iff.mp hi
  rw [Option.toList_some, List.singleton_append, ← heq, ← List.drop_eq_getElem_cons,
    List.take_append_drop]

theorem swapAt_eq {α : Type} {l : List α} {i : ℕ} (h : i + 1 < l.length) :
    ∃ front a b back, l = front ++ a :: b :: back ∧ swapAt l i = front ++ b :: a :: back ∧
      front.length = i := by
  refine ⟨l.take i, l[i], l[i + 1], l.drop (i + 2), ?_, ?_, ?_⟩
  · rw [← List.drop_eq_getElem_cons, ← List.drop_eq_getElem_cons, List.take_append_drop]
  · have hfirst : (l.drop i).take 1 = [l[i]] := by
      rw [List.drop_eq_getElem_cons (by omega)]
      rfl
    have hsecond : (l.drop (i + 1)).take 1 = [l[i + 1]] := by
      rw [List.drop_eq_getElem_cons h]
      rfl
    rw [swapAt, hfirst, hsecond]
    rfl
  · rw [List.length_take]
    omega

end Sources

def Fresh (project : Project) : Command → Prop
  | .insert _ rel _ _ => rel ∉ project.sources.map (·.rel)
  | _ => True

/-- An insertion at a boundary that an episode crosses without reading anything on one side of it. -/
def InsertsAtEdge (project : Project) : Command → Prop
  | .insert place rel text _ => ∃ ranges,
      spansOf project.docs (project.entries.filterMap cutRange) = some ranges ∧
        OpensEdge project.docs ranges (.insert
          (docsOf (project.sources.take (insertPosition project place))).length ⟨rel, text⟩)
  | _ => False

structure Planned (matcher : SequenceMatcher) (project : Project) (command : Command)
    (ranges : Spans) (change : Change) : Prop where
  paths : ((change.commit project).sources.map (·.rel)).Nodup
  entries : (change.commit project).entries = project.entries
  files : (change.commit project).files = project.files
  remaps : (∃ sourceChange : SourceChange,
      sourceChange.docs project.docs = some (change.commit project).docs ∧
        sourceChange.remaps matcher project.docs ranges = some change.remaps ∧
          (OpensEdge project.docs ranges sourceChange ↔ InsertsAtEdge project command)) ∨
    (¬ InsertsAtEdge project command ∧ (change.commit project).docs = project.docs ∧
      ∃ gone : List RangeRemap,
        change.remaps = ranges.map (fun (episode, span) => unchanged episode span) ++ gone ∧
          ∀ remap ∈ gone, remap.after = none ∧ remap.textChanged = true ∧
            remap.episode ∉ ranges.map Prod.fst)

theorem filenameRel_mem {filename rel : String} (h : filenameRel project filename = .ok rel) :
    rel ∈ project.sources.map (·.rel) := by
  unfold filenameRel at h
  dsimp only at h
  split_ifs at h with hname
  cases h
  exact not_not.mp fun hnot => hname (.inr (.inr hnot))

theorem rels_rewrite (rel : String) (text : Text) (kind : Option SourceKind) :
    (rewrite rel text kind project).sources.map (·.rel) = project.sources.map (·.rel) := by
  unfold rewrite
  rw [List.map_map]
  refine List.map_congr_left fun file _ => ?_
  dsimp only [Function.comp_apply]
  split_ifs <;> rfl

theorem docs_rewrite {rel : String} {text : Text} {kind : Option SourceKind}
    (hsources : (project.sources.map (·.rel)).Nodup) (hrel : rel ∈ rels project.docs) :
    (rewrite rel text kind project).docs =
      project.docs.map fun doc => if doc.relPath = rel then { doc with text } else doc := by
  unfold rewrite Project.docs
  rw [List.filterMap_map, List.map_filterMap]
  refine List.filterMap_congr fun file hfile => ?_
  rw [Function.comp_apply]
  by_cases heq : file.rel = rel
  · obtain ⟨doc, hdoc, hpath⟩ := List.mem_map.mp hrel
    obtain ⟨other, hother, htext⟩ := List.mem_filterMap.mp hdoc
    obtain ⟨old, hold, rfl⟩ := Option.map_eq_some_iff.mp htext
    have hsame : other = file := List.inj_on_of_nodup_map hsources hother hfile (hpath.trans heq.symm)
    rw [if_pos heq, ← hsame, hold, Option.map_some, Option.map_some, Option.map_some, if_pos hpath]
  · rw [if_neg heq, Option.map_map]
    refine congrArg (Option.map · file.text) (funext fun old => ?_)
    rw [Function.comp_apply, if_neg heq]

theorem planRewrite_ok {filename : String} {text : Text} {kind : Option SourceKind}
    (h : planRewrite matcher digest project filename text kind = .ok change) :
    ∃ rel ranges, spans project = .ok ranges ∧ change.commit = rewrite rel text kind ∧
      rel ∈ rels project.docs ∧
        remapForEdit matcher project.docs ranges rel text = some change.remaps := by
  unfold planRewrite at h
  obtain ⟨rel, hrel, h⟩ := bind_eq_ok.mp h
  obtain ⟨doc, hdoc, h⟩ := bind_eq_ok.mp h
  have hfound := List.find?_some (orThrow_eq_ok.mp hdoc)
  have hmem := List.mem_of_find?_eq_some (orThrow_eq_ok.mp hdoc)
  split_ifs at h
  · cases h
  obtain ⟨ranges, hranges, h⟩ := bind_eq_ok.mp h
  obtain ⟨remaps, hremaps, h⟩ := bind_eq_ok.mp h
  cases h
  exact ⟨rel, ranges, hranges, rfl, List.mem_map.mpr ⟨doc, hmem, of_decide_eq_true hfound⟩,
    orThrow_eq_ok.mp hremaps⟩

theorem swapAt_perm {α : Type} {l : List α} {i : ℕ} (h : i + 1 < l.length) :
    (swapAt l i).Perm l := by
  obtain ⟨front, a, b, back, hsplit, hswap, -⟩ := swapAt_eq h
  rw [hswap, hsplit]
  exact (List.Perm.swap a b back).append_left front

theorem lowerIndex_bounds {count i low : ℕ} {direction : MoveDirection} (hi : i < count)
    (h : lowerIndex count i direction = some low) :
    low + 1 < count ∧ (i = low ∨ i = low + 1) := by
  cases direction with
  | up =>
      dsimp only [lowerIndex] at h
      split_ifs at h
      cases h
      omega
  | down =>
      dsimp only [lowerIndex] at h
      split_ifs at h
      cases h
      omega

theorem docsWithout_swapAt {i low : ℕ} {rel : String} (hlow : low + 1 < project.sources.length)
    (hi : i = low ∨ i = low + 1) (hrel : (project.sources.map (·.rel))[i]? = some rel) :
    docsWithout (docsOf (swapAt project.sources low)) rel = docsWithout project.docs rel := by
  obtain ⟨front, a, b, back, hsplit, hswap, hfront⟩ := swapAt_eq hlow
  have hdocs : project.docs = docsOf project.sources := rfl
  rw [hdocs, ← docsOf_without, ← docsOf_without, hswap, hsplit]
  rw [hsplit, List.map_append, List.map_cons, List.map_cons] at hrel
  have hlength : (front.map (·.rel)).length = low := by rw [List.length_map, hfront]
  refine congrArg docsOf ?_
  rw [List.filter_append, List.filter_append]
  refine congrArg (front.filter (·.rel ≠ rel) ++ ·) ?_
  rcases hi with rfl | rfl
  · rw [List.getElem?_append_right hlength.le, hlength, Nat.sub_self] at hrel
    have ha : a.rel = rel := Option.some.inj hrel
    rw [List.filter_cons, List.filter_cons, List.filter_cons (x := a), List.filter_cons (x := b)]
    simp [ha]
  · rw [List.getElem?_append_right (by omega), hlength] at hrel
    have hb : b.rel = rel := by simpa using hrel
    simp [List.filter_cons, hb]

section Commands

variable {command : Command} (hsources : (project.sources.map (·.rel)).Nodup)
include hsources

theorem rels_nodup : (rels project.docs).Nodup :=
  hsources.sublist (rels_docsOf project.sources)

theorem rewrite_planned {filename : String} {text : Text} {kind : Option SourceKind}
    (hcommand : ¬ InsertsAtEdge project command)
    (h : planRewrite matcher digest project filename text kind = .ok change) :
    ∃ ranges, spans project = .ok ranges ∧ Planned matcher project command ranges change := by
  obtain ⟨rel, ranges, hranges, hcommit, hrel, hremaps⟩ := planRewrite_ok h
  obtain ⟨target, htarget⟩ := exists_index (rels_nodup hsources) hrel
  refine ⟨ranges, hranges, ?_, ?_, ?_, .inl ⟨.edit rel text, ?_, hremaps, ?_⟩⟩
  · rw [hcommit, rels_rewrite]
    exact hsources
  · rw [hcommit, rewrite]
  · rw [hcommit, rewrite]
  · rw [hcommit, docs_rewrite hsources hrel, map_text_eq (rels_nodup hsources) htarget]
    simp [SourceChange.docs, htarget]
  · exact iff_of_false not_false hcommand

theorem delete_planned {filename : String}
    (h : planDelete project filename = .ok change) :
    ∃ ranges, spans project = .ok ranges ∧
      Planned matcher project (.delete filename) ranges change := by
  unfold planDelete at h
  obtain ⟨rel, -, h⟩ := bind_eq_ok.mp h
  obtain ⟨ranges, hranges, h⟩ := bind_eq_ok.mp h
  have hpaths : ((project.sources.filter (·.rel ≠ rel)).map (·.rel)).Nodup :=
    hsources.sublist (List.filter_sublist.map _)
  have hdocs := docsOf_without project.sources rel
  dsimp only at h
  split_ifs at h with hrel
  · obtain ⟨remaps, hremaps, h⟩ := bind_eq_ok.mp h
    cases h
    obtain ⟨target, htarget⟩ := exists_index (rels_nodup hsources) hrel
    refine ⟨ranges, hranges, hpaths, rfl, rfl, .inl ⟨.delete rel, ?_, orThrow_eq_ok.mp hremaps,
      Iff.rfl⟩⟩
    rw [SourceChange.docs, htarget]
    exact congrArg some hdocs.symm
  · cases h
    refine ⟨ranges, hranges, hpaths, rfl, rfl, .inr ⟨not_false,
      hdocs.trans (docsWithout_of_not_mem hrel), _, rfl, ?_⟩⟩
    intro remap hremap
    obtain ⟨⟨episode, span⟩, -, hgone⟩ := List.mem_filterMap.mp hremap
    dsimp only at hgone
    split_ifs at hgone with hlost
    cases hgone
    exact ⟨rfl, rfl, hlost.1⟩

theorem insert_planned {place : Option ℤ} {rel : String} {text : Text} {kind : Option SourceKind}
    (hrel : rel ∉ project.sources.map (·.rel))
    (h : planInsert project place rel text kind = .ok change) :
    ∃ ranges, spans project = .ok ranges ∧
      Planned matcher project (.insert place rel text kind) ranges change := by
  unfold planInsert at h
  obtain ⟨ranges, hranges, h⟩ := bind_eq_ok.mp h
  obtain ⟨remaps, hremaps, h⟩ := bind_eq_ok.mp h
  cases h
  have hsplit : project.docs = docsOf (project.sources.take (insertPosition project place)) ++
      docsOf (project.sources.drop (insertPosition project place)) := by
    rw [← docsOf_append, List.take_append_drop]
    rfl
  refine ⟨ranges, hranges, ?_, rfl, rfl, .inl ⟨.insert
    (docsOf (project.sources.take (insertPosition project place))).length ⟨rel, text⟩, ?_,
    orThrow_eq_ok.mp hremaps, ?_⟩⟩
  · rw [List.map_append, List.map_cons, List.nodup_middle, ← List.map_append, List.take_append_drop]
    exact List.nodup_cons.mpr ⟨hrel, hsources⟩
  · refine congrArg some ?_
    unfold insertedDocs
    rw [hsplit, List.take_left, List.drop_left]
    exact (docsOf_append (project.sources.take (insertPosition project place))
      ({ rel, text := some text, kind := kind.getD .novel } ::
        project.sources.drop (insertPosition project place))).symm
  · constructor
    · exact fun hedge => ⟨ranges, orThrow_eq_ok.mp hranges, hedge⟩
    · rintro ⟨others, hothers, hedge⟩
      rwa [← Option.some.inj ((orThrow_eq_ok.mp hranges).symm.trans hothers)] at hedge

theorem moved_docs {rel : String} {low target : ℕ} (hlow : low + 1 < project.sources.length)
    (hwithout : docsWithout (docsOf (swapAt project.sources low)) rel =
      docsWithout project.docs rel) (htarget : index project.docs rel = some target) :
    movedDocs project.docs rel target ((rels (docsOf (swapAt project.sources low))).idxOf rel) =
      docsOf (swapAt project.sources low) := by
  have hperm : (docsOf (swapAt project.sources low)).Perm project.docs :=
    (swapAt_perm hlow).filterMap _
  have hdocs := rels_nodup hsources
  have hnew : (rels (docsOf (swapAt project.sources low))).Nodup :=
    (hperm.map SourceDoc.relPath).nodup_iff.mpr hdocs
  obtain ⟨doc, hdoc, hrel⟩ := exists_doc_of_index htarget
  have hmem := hperm.mem_iff.mpr (List.mem_of_getElem? hdoc)
  obtain ⟨i, hi⟩ := List.mem_iff_getElem?.mp hmem
  have hplace := index_of_doc hnew hi
  rw [hrel] at hplace
  have hfound := index_of_getElem? hnew (List.getElem?_idxOf (List.mem_iff_getElem?.mpr
    ⟨i, getElem?_of_index hplace⟩))
  rw [Option.some.inj (hfound.symm.trans hplace)]
  exact movedDocs_eq hnew hwithout hdoc hi hrel

theorem move_planned {filename : String} {direction : MoveDirection}
    (h : planMove digest project filename direction = .ok change) :
    ∃ ranges, spans project = .ok ranges ∧
      Planned matcher project (.move filename direction) ranges change := by
  unfold planMove at h
  obtain ⟨rel, hrel, h⟩ := bind_eq_ok.mp h
  obtain ⟨low, hlow, h⟩ := bind_eq_ok.mp h
  have hmem := filenameRel_mem hrel
  have hi := List.idxOf_lt_length_of_mem hmem
  rw [List.length_map] at hi
  obtain ⟨hlt, hplace⟩ := lowerIndex_bounds hi (orThrow_eq_ok.mp hlow)
  have hwithout := docsWithout_swapAt hlt hplace (List.getElem?_idxOf hmem)
  have hpaths : ((swapAt project.sources low).map (·.rel)).Nodup :=
    ((swapAt_perm hlt).map _).nodup_iff.mpr hsources
  dsimp only at h
  split at h
  · cases h
  obtain ⟨ranges, hranges, h⟩ := bind_eq_ok.mp h
  split_ifs at h with hrel
  · obtain ⟨remaps, hremaps, h⟩ := bind_eq_ok.mp h
    cases h
    obtain ⟨target, htarget⟩ := exists_index (rels_nodup hsources) hrel
    refine ⟨ranges, hranges, hpaths, rfl, rfl, .inl ⟨.move rel _, ?_, orThrow_eq_ok.mp hremaps,
      Iff.rfl⟩⟩
    rw [SourceChange.docs, htarget]
    exact congrArg some (moved_docs hsources hlt hwithout htarget)
  · cases h
    have hother : rel ∉ rels (docsOf (swapAt project.sources low)) := fun hmoved =>
      hrel ((((swapAt_perm hlt).filterMap _).map SourceDoc.relPath).mem_iff.mp hmoved)
    rw [docsWithout_of_not_mem hother, docsWithout_of_not_mem hrel] at hwithout
    refine ⟨ranges, hranges, hpaths, rfl, rfl, .inr ⟨not_false, hwithout, [], ?_, ?_⟩⟩
    · rw [List.append_nil]
    · exact fun _ hgone => absurd hgone List.not_mem_nil

theorem plan_planned (hfresh : Fresh project command)
    (h : command.plan matcher digest project = .ok change) :
    ∃ ranges, spans project = .ok ranges ∧ Planned matcher project command ranges change := by
  cases command with
  | edit filename text => exact rewrite_planned hsources not_false h
  | replace filename text kind => exact rewrite_planned hsources not_false h
  | delete filename => exact delete_planned hsources h
  | move filename direction => exact move_planned hsources h
  | insert place rel text kind => exact insert_planned hsources hfresh h

end Commands

end ShortReel.SourceFilePlans
