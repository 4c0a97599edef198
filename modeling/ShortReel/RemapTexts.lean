import ShortReel.RemapDeletions
import ShortReel.RemapEdits
import ShortReel.RemapMoves

/-!
# Texts after a change

A range that a remap reports without a change reads what it read before. The exception are insertions
at a file boundary that a range crosses without reading anything on one side of it.
-/

namespace ShortReel.RemapTexts

open EditScripts SourceAlignment SourceRemap SourcePlaces RemapEdits RemapDeletions RemapMoves

variable {docs new : List SourceDoc} {spans : Spans} {target : ℕ} {rel : String} {newText : Text}
  {entry : ℕ × SourceSpan} {p : Place}

def Faithful (docs new : List SourceDoc) (remap : RangeRemap) : Prop :=
  remap.textChanged = false →
    ∃ after, remap.after = some after ∧ text new after = text docs remap.before

theorem faithful_unchanged {episode : ℕ} {span : SourceSpan} (h : text new span = text docs span) :
    Faithful docs new (unchanged episode span) :=
  fun _ => ⟨span, rfl, h⟩

theorem finish_faithful {episode : ℕ} {before after : SourceSpan} {changed : Bool}
    (hnew : (rels new).Nodup) (hafter : place new after = some p) (hp : p.Fits new)
    (h : changed = false →
      some (textBetween new p.first p.start p.last p.stop) = text docs before) :
    ∃ remap, finish new episode before after changed = some remap ∧ Faithful docs new remap := by
  obtain ⟨remap, hremap, -⟩ := @finish_spec new hnew episode before after changed p hafter hp
  refine ⟨remap, hremap, fun hchanged => ?_⟩
  obtain ⟨hsame, hbefore, span, hspan, htext⟩ := finish_reads hnew hafter hp hremap hchanged
  refine ⟨span, hspan, ?_⟩
  rw [htext, hbefore, h hsame]

theorem mapM_faithful {round : ℕ × SourceSpan → Option RangeRemap}
    (h : ∀ entry ∈ spans, ∃ remap, round entry = some remap ∧ Faithful docs new remap) :
    ∃ remaps, spans.mapM round = some remaps ∧ ∀ remap ∈ remaps, Faithful docs new remap := by
  obtain ⟨remaps, hremaps⟩ := exists_mapM fun entry hentry => (h entry hentry).imp fun _ => And.left
  refine ⟨remaps, hremaps, (forall_mapM hremaps).mpr fun entry hentry remap hremap => ?_⟩
  obtain ⟨other, hother, hfaithful⟩ := h entry hentry
  rwa [Option.some.inj (hremap.symm.trans hother)]

theorem remapEdited_faithful (matcher : SequenceMatcher) (starts : List ℕ)
    (hdocs : (rels docs).Nodup) (hindex : index docs rel = some target)
    (hplace : place docs entry.2 = some p) (hp : p.InBounds docs) :
    ∃ remap, remapEdited docs rel newText target (alignTexts matcher (textAt docs target) newText)
      starts entry = some remap ∧ Faithful docs (editedDocs docs target rel newText) remap := by
  have hnew : (rels (editedDocs docs target rel newText)).Nodup := by rwa [rels_edited hindex]
  rcases remapEdited_eq hindex hplace with ⟨htouch, heq⟩ | ⟨htouch, after, shared, -, hafter, heq⟩
  · refine ⟨_, heq, faithful_unchanged ?_⟩
    refine @text_relocated _ _ p.first hnew _ _ hplace hp.first_le fun count hcount => ?_
    exact List.getElem?_set_ne (by omega)
  · rw [heq]
    refine finish_faithful hnew hafter (editedPlace_fits hindex hp.toFits) fun hstretch => ?_
    rw [text_of_place hplace, text_editedPlace hp htouch.1 htouch.2 hindex hstretch rfl]

theorem remapForEdit_faithful (matcher : SequenceMatcher) (hdocs : (rels docs).Nodup)
    (hspans : AllInBounds docs spans) (hindex : index docs rel = some target) :
    ∃ remaps, remapForEdit matcher docs spans rel newText = some remaps ∧
      ∀ remap ∈ remaps, Faithful docs (editedDocs docs target rel newText) remap := by
  obtain ⟨starts, hstarts⟩ : ∃ starts, (spans.mapM fun entry => globalStart docs entry.2) =
      some starts := by
    refine exists_mapM fun entry hentry => ?_
    obtain ⟨p, hplace, -⟩ := hspans entry hentry
    exact ⟨_, globalStart_of_place hplace⟩
  simp only [remapForEdit, hindex, hstarts, Option.bind_eq_bind, Option.bind_some]
  refine mapM_faithful fun entry hentry => ?_
  obtain ⟨p, hplace, hp⟩ := hspans entry hentry
  exact remapEdited_faithful matcher starts hdocs hindex hplace hp

theorem remapDeleted_faithful (hdocs : (rels docs).Nodup) (hindex : index docs rel = some target)
    (hplace : place docs entry.2 = some p) (hp : p.InBounds docs) :
    ∃ remap, remapDeleted docs rel target entry = some remap ∧
      Faithful docs (docsWithout docs rel) remap := by
  rcases remapDeleted_eq hdocs hindex hplace hp.toFits with
    ⟨htouch, heq⟩ | ⟨-, heq⟩ | ⟨hsurvives, -, after, hafter, heq⟩
  · refine ⟨_, heq, faithful_unchanged ?_⟩
    rcases Nat.lt_or_ge p.last target with hbefore | hbehind
    · refine @text_relocated _ _ p.first (nodup_docsWithout hdocs) _ _ hplace hp.first_le ?_
      intro count hcount
      exact getElem?_docsWithout_before hdocs hindex (by omega)
    · have hfirst : target < p.first := by omega
      refine @text_relocated _ _ (p.first - 1) (nodup_docsWithout hdocs) _ _ hplace hp.first_le ?_
      intro count hcount
      have hnext : p.first + count = p.first - 1 + count + 1 := by omega
      rw [hnext]
      exact getElem?_docsWithout_behind hdocs hindex (by omega)
  · refine ⟨_, heq, fun hchanged => ?_⟩
    cases hchanged
  · rw [heq]
    refine finish_faithful (nodup_docsWithout hdocs) hafter
      (deletedPlace_fits hdocs hindex hp.toFits hsurvives) fun hfalse => ?_
    cases hfalse

theorem remapForDelete_faithful (hdocs : (rels docs).Nodup) (hspans : AllInBounds docs spans)
    (hindex : index docs rel = some target) :
    ∃ remaps, remapForDelete docs spans rel = some remaps ∧
      ∀ remap ∈ remaps, Faithful docs (docsWithout docs rel) remap := by
  simp only [remapForDelete, hindex, Option.bind_eq_bind, Option.bind_some]
  refine mapM_faithful fun entry hentry => ?_
  obtain ⟨p, hplace, hp⟩ := hspans entry hentry
  exact remapDeleted_faithful hdocs hindex hplace hp

theorem remapMoved_faithful (hdocs : (rels docs).Nodup) (hnew : (rels new).Nodup)
    (hsame : ∀ doc, doc ∈ new ↔ doc ∈ docs) (hplace : place docs entry.2 = some p)
    (hp : p.InBounds docs) :
    ∃ remap, remapMoved docs new entry = some remap ∧ Faithful docs new remap := by
  obtain ⟨position, kept, hfiles, ⟨rfl, heq⟩ | ⟨after, q, hafter, hq, heq⟩⟩ :=
    remapMoved_eq hdocs hnew hsame hplace hp
  · exact ⟨_, heq, faithful_unchanged (text_relocated hnew hplace hp.first_le hfiles)⟩
  · rw [heq]
    refine finish_faithful hnew hafter hq fun hfalse => ?_
    cases hfalse

theorem remapForMove_faithful {newIndex : ℕ} (hdocs : (rels docs).Nodup)
    (hspans : AllInBounds docs spans) (hindex : index docs rel = some target)
    (hnew : (rels (movedDocs docs rel target newIndex)).Nodup) :
    ∃ remaps, remapForMove docs spans rel newIndex = some remaps ∧
      ∀ remap ∈ remaps, Faithful docs (movedDocs docs rel target newIndex) remap := by
  simp only [remapForMove, hindex, Option.bind_eq_bind, Option.bind_some]
  refine mapM_faithful fun entry hentry => ?_
  obtain ⟨p, hplace, hp⟩ := hspans entry hentry
  exact remapMoved_faithful hdocs hnew
    (fun doc => ⟨mem_of_mem_movedDocs, mem_movedDocs hindex hdocs⟩) hplace hp

/-- A place goes over a file boundary, but reads nothing on one side of it. -/
def EdgesAt (docs : List SourceDoc) (boundary : ℕ) (p : Place) : Prop :=
  p.first < boundary ∧ boundary ≤ p.last ∧
    (base docs p.first + p.start = base docs boundary ∨
      base docs p.last + p.stop = base docs boundary)

theorem remapInserted_eq {boundary : ℕ} (hplace : place docs entry.2 = some p) :
    remapInserted docs (base docs boundary) entry =
      some { episode := entry.1, before := entry.2, after := some entry.2,
             textChanged := base docs p.first + p.start < base docs boundary ∧
               base docs boundary < base docs p.last + p.stop } := by
  simp [remapInserted, globalStart_of_place hplace, globalEnd_of_place hplace]

section Insertions

variable {boundary : ℕ} (doc : SourceDoc) (hboundary : boundary ≤ docs.length)
  (hnew : (rels (insertedDocs docs boundary doc)).Nodup) (hplace : place docs entry.2 = some p)
  (hp : p.InBounds docs)
include hboundary hnew hplace hp

theorem text_inserted_outside (h : ¬ (p.first < boundary ∧ boundary ≤ p.last)) :
    text (insertedDocs docs boundary doc) entry.2 = text docs entry.2 := by
  rcases Nat.lt_or_ge p.last boundary with hbefore | hbehind
  · refine @text_relocated _ _ p.first hnew _ _ hplace hp.first_le fun count hcount => ?_
    exact getElem?_inserted_before doc hboundary (by omega)
  · refine @text_relocated _ _ (p.first + 1) hnew _ _ hplace hp.first_le fun count hcount => ?_
    have hnext : p.first + 1 + count = p.first + count + 1 := by omega
    rw [hnext]
    exact getElem?_inserted_behind doc hboundary (by omega)

theorem text_inserted_inside (h : p.first < boundary ∧ boundary ≤ p.last) :
    text (insertedDocs docs boundary doc) entry.2 = text docs entry.2 ↔ doc.text = [] := by
  obtain ⟨before, behind, hold, hnewText⟩ :=
    text_inserted doc hboundary hnew hplace hp.toFits h.1 h.2
  rw [hold, hnewText, Option.some_inj, List.append_cancel_left_eq]
  constructor
  · intro heq
    have hlength := congrArg List.length heq
    rw [List.length_append] at hlength
    exact List.length_eq_zero_iff.mp (by omega)
  · intro heq
    rw [heq, List.nil_append]

theorem remapInserted_faithful :
    ∃ remap, remapInserted docs (base docs boundary) entry = some remap ∧
      (Faithful docs (insertedDocs docs boundary doc) remap ↔
        ¬ (doc.text ≠ [] ∧ EdgesAt docs boundary p)) := by
  refine ⟨_, remapInserted_eq hplace, ?_⟩
  by_cases hinside : p.first < boundary ∧ boundary ≤ p.last
  · have hstart := hp.start_le
    have hbegin := @base_mono docs (p.first + 1) boundary hinside.1
    have hend := @base_mono docs boundary p.last hinside.2
    rw [base_succ] at hbegin
    have htext := text_inserted_inside doc hboundary hnew hplace hp hinside
    constructor
    · rintro hfaithful ⟨hdoc, -, -, hedge⟩
      obtain ⟨after, hafter, hsame⟩ := hfaithful (decide_eq_false (by omega))
      obtain rfl := Option.some.inj hafter
      exact hdoc (htext.mp hsame)
    · intro hedges hchanged
      refine ⟨entry.2, rfl, htext.mpr ?_⟩
      by_contra hdoc
      have hcrossed := of_decide_eq_false hchanged
      exact hedges ⟨hdoc, hinside.1, hinside.2, by omega⟩
  · refine iff_of_true (fun _ => ⟨entry.2, rfl, ?_⟩) fun hedges => ?_
    · exact text_inserted_outside doc hboundary hnew hplace hp hinside
    · exact hinside ⟨hedges.2.1, hedges.2.2.1⟩

end Insertions

/-- An inserted file with a text is at a boundary that a range reads nothing on one side of. -/
def OpensEdge (docs : List SourceDoc) (spans : Spans) : SourceChange → Prop
  | .insert index doc => doc.text ≠ [] ∧ ∃ entry ∈ spans, ∃ p, place docs entry.2 = some p ∧
      EdgesAt docs (min index docs.length) p
  | _ => False

theorem remapForInsert_faithful_iff {index : ℕ} {doc : SourceDoc} (hspans : AllInBounds docs spans)
    (hnew : (rels (insertedDocs docs index doc)).Nodup) :
    ∃ remaps, remapForInsert docs spans index = some remaps ∧
      ((∀ remap ∈ remaps, Faithful docs (insertedDocs docs index doc) remap) ↔
        ¬ OpensEdge docs spans (.insert index doc)) := by
  have hboundary : min index docs.length ≤ docs.length := Nat.min_le_right _ _
  rw [insertedDocs_min] at hnew ⊢
  have hround := fun entry hentry => (hspans entry hentry).imp fun p hp =>
    And.intro hp.1 (remapInserted_faithful doc hboundary hnew hp.1 hp.2)
  obtain ⟨remaps, hremaps⟩ : ∃ remaps, remapForInsert docs spans index = some remaps := by
    refine exists_mapM fun entry hentry => ?_
    obtain ⟨p, -, remap, hremap, -⟩ := hround entry hentry
    exact ⟨remap, hremap⟩
  refine ⟨remaps, hremaps, (forall_mapM hremaps).trans ?_⟩
  constructor
  · rintro hfaithful ⟨hdoc, entry, hentry, p, hplace, hedges⟩
    obtain ⟨q, hq, remap, hremap, hiff⟩ := hround entry hentry
    obtain rfl := Option.some.inj (hplace.symm.trans hq)
    exact hiff.mp (hfaithful entry hentry remap hremap) ⟨hdoc, hedges⟩
  · intro hopens entry hentry remap hremap
    obtain ⟨p, hplace, other, hother, hiff⟩ := hround entry hentry
    obtain rfl := Option.some.inj (hother.symm.trans hremap)
    exact hiff.mpr fun hedges => hopens ⟨hedges.1, entry, hentry, p, hplace, hedges.2⟩

/-- The remap of a change is there, and reports every change of a text, if and only if the change is
not an insertion that opens an edge. -/
theorem remaps_faithful_iff (matcher : SequenceMatcher) {change : SourceChange}
    (hdocs : (rels docs).Nodup) (hchange : change.docs docs = some new) (hnew : (rels new).Nodup)
    (hspans : AllInBounds docs spans) :
    ∃ remaps, change.remaps matcher docs spans = some remaps ∧
      ((∀ remap ∈ remaps, Faithful docs new remap) ↔ ¬ OpensEdge docs spans change) := by
  cases change with
  | edit rel newText =>
      obtain ⟨target, hindex, heq⟩ := Option.bind_eq_some_iff.mp hchange
      cases heq
      obtain ⟨remaps, hremaps, hfaithful⟩ := remapForEdit_faithful matcher hdocs hspans hindex
      exact ⟨remaps, hremaps, iff_of_true hfaithful not_false⟩
  | delete rel =>
      obtain ⟨target, hindex, heq⟩ := Option.bind_eq_some_iff.mp hchange
      cases heq
      obtain ⟨remaps, hremaps, hfaithful⟩ := remapForDelete_faithful hdocs hspans hindex
      exact ⟨remaps, hremaps, iff_of_true hfaithful not_false⟩
  | insert index doc =>
      cases hchange
      exact remapForInsert_faithful_iff hspans hnew
  | move rel newIndex =>
      obtain ⟨target, hindex, heq⟩ := Option.bind_eq_some_iff.mp hchange
      cases heq
      obtain ⟨remaps, hremaps, hfaithful⟩ := remapForMove_faithful hdocs hspans hindex hnew
      exact ⟨remaps, hremaps, iff_of_true hfaithful not_false⟩

def disjointMatcher : SequenceMatcher where
  getMatchingBlocks a b := [⟨a.length, b.length, 0⟩]
  matching a b := by
    refine ⟨?_, List.isChain_singleton _, [], rfl, fun _ hblock => absurd hblock List.not_mem_nil⟩
    intro block hblock
    obtain rfl := List.mem_singleton.mp hblock
    exact (slice_of_length_le le_rfl).trans (slice_of_length_le le_rfl).symm

def twoFiles : List SourceDoc :=
  [⟨"a.txt", ['x', 'y']⟩, ⟨"b.txt", ['z']⟩]

def twoSpans : Spans :=
  [(1, ⟨"a.txt", 0, "a.txt", 1⟩), (2, ⟨"a.txt", 1, "b.txt", 1⟩)]

theorem twoSpans_inBounds : AllInBounds twoFiles twoSpans := by
  intro entry hentry
  rcases List.mem_cons.mp hentry with rfl | hentry
  · exact ⟨⟨0, 0, 0, 1⟩, by decide, ⟨by decide, by decide, by decide, by decide⟩, by decide⟩
  · obtain rfl := List.mem_singleton.mp hentry
    exact ⟨⟨0, 1, 1, 1⟩, by decide, ⟨by decide, by decide, by decide, by decide⟩, by decide⟩

theorem remaps_faithful_edit :
    ∃ remaps, (SourceChange.edit "a.txt" ['w']).remaps disjointMatcher twoFiles twoSpans =
        some remaps ∧
      ∀ remap ∈ remaps, Faithful twoFiles [⟨"a.txt", ['w']⟩, ⟨"b.txt", ['z']⟩] remap := by
  obtain ⟨remaps, hremaps, hiff⟩ := @remaps_faithful_iff twoFiles
    [⟨"a.txt", ['w']⟩, ⟨"b.txt", ['z']⟩] twoSpans disjointMatcher (.edit "a.txt" ['w'])
    (by decide) (by decide) (by decide) twoSpans_inBounds
  exact ⟨remaps, hremaps, hiff.mpr not_false⟩

/-- The episode starts at the end of the first file: the file that is inserted behind it is read from
then on, and no change is reported. -/
theorem inserted_text_unreported :
    AllInBounds twoFiles [(1, ⟨"a.txt", 2, "b.txt", 1⟩)] ∧
    remapForInsert twoFiles [(1, ⟨"a.txt", 2, "b.txt", 1⟩)] 1 =
      some [⟨1, ⟨"a.txt", 2, "b.txt", 1⟩, some ⟨"a.txt", 2, "b.txt", 1⟩, false⟩] ∧
    text twoFiles ⟨"a.txt", 2, "b.txt", 1⟩ = some ['z'] ∧
    text (insertedDocs twoFiles 1 ⟨"n.txt", ['n']⟩) ⟨"a.txt", 2, "b.txt", 1⟩ = some ['n', 'z'] := by
  refine ⟨?_, by decide, by decide, by decide⟩
  intro entry hentry
  obtain rfl := List.mem_singleton.mp hentry
  exact ⟨⟨0, 2, 1, 1⟩, by decide, ⟨by decide, by decide, by decide, by decide⟩, by decide⟩

end ShortReel.RemapTexts
