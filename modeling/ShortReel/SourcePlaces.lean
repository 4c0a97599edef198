import ShortReel.SourceRemap
import Mathlib.Data.List.Nodup

/-!
# Places of the source

A range as indices of its files and offsets in them: what it reads is a slice of the whole text, and
its ends may be moved across a file boundary.
-/

namespace ShortReel.SourcePlaces

open EditScripts SourceRemap

variable {docs : List SourceDoc}

theorem getElem?_of_index {rel : String} {i : ℕ} (h : index docs rel = some i) :
    (rels docs)[i]? = some rel := by
  obtain ⟨hlt, hrel, -⟩ := List.idxOf?_eq_some_iff.mp h
  rw [List.getElem?_eq_getElem hlt, hrel]

theorem index_of_getElem? (hdocs : (rels docs).Nodup) {rel : String} {i : ℕ}
    (h : (rels docs)[i]? = some rel) : index docs rel = some i := by
  obtain ⟨hlt, hrel⟩ := List.getElem?_eq_some_iff.mp h
  refine List.idxOf?_eq_some_iff.mpr ⟨hlt, hrel, ?_⟩
  intro j hj heq
  have hsame := hdocs.getElem_inj_iff.mp (heq.trans hrel.symm)
  omega

theorem index_lt {rel : String} {i : ℕ} (h : index docs rel = some i) : i < docs.length := by
  obtain ⟨hlt, -⟩ := List.getElem?_eq_some_iff.mp (getElem?_of_index h)
  rwa [rels, List.length_map] at hlt

theorem wholeText_append (first last : List SourceDoc) :
    wholeText (first ++ last) = wholeText first ++ wholeText last :=
  List.flatMap_append

theorem wholeText_take_succ (docs : List SourceDoc) (i : ℕ) :
    wholeText (docs.take (i + 1)) = wholeText (docs.take i) ++ textAt docs i := by
  rw [List.take_add_one, wholeText_append]
  congr 1
  unfold textAt
  cases docs[i]? with
  | none => rfl
  | some doc => exact List.append_nil _

theorem base_succ (docs : List SourceDoc) (i : ℕ) :
    base docs (i + 1) = base docs i + lengthAt docs i := by
  rw [base, wholeText_take_succ, List.length_append]
  rfl

theorem base_mono {i j : ℕ} (h : i ≤ j) : base docs i ≤ base docs j := by
  induction h with
  | refl => exact le_rfl
  | step _ ih =>
      rw [base_succ]
      exact ih.trans (Nat.le_add_right _ _)

theorem wholeText_split (docs : List SourceDoc) (i : ℕ) :
    wholeText docs = wholeText (docs.take i) ++ wholeText (docs.drop i) := by
  rw [← wholeText_append, List.take_append_drop]

theorem wholeText_file (docs : List SourceDoc) (i : ℕ) :
    wholeText docs =
      wholeText (docs.take i) ++ (textAt docs i ++ wholeText (docs.drop (i + 1))) := by
  rw [← List.append_assoc, ← wholeText_take_succ]
  exact wholeText_split docs (i + 1)

theorem slice_file {i start stop : ℕ} (hstop : stop ≤ lengthAt docs i) :
    slice (wholeText docs) (base docs i + start) (base docs i + stop) =
      slice (textAt docs i) start stop := by
  have hbase : (wholeText (docs.take i)).length = base docs i := rfl
  have hlength : (textAt docs i).length = lengthAt docs i := rfl
  have hfront : slice (wholeText (docs.take i)) (base docs i + start) (base docs i + stop) = [] :=
    slice_of_length_le (Nat.le_add_right (base docs i) start)
  rw [wholeText_file docs i, slice_append, slice_append, hfront, List.nil_append, hbase, hlength,
    Nat.add_sub_cancel_left, Nat.add_sub_cancel_left, Nat.sub_eq_zero_of_le hstop,
    slice_of_le (Nat.zero_le _), List.append_nil]

theorem part_later {first start last stop i : ℕ} (h : first + 1 ≤ i) :
    part docs first start last stop i = part docs (first + 1) 0 last stop i := by
  have hne : i ≠ first := by omega
  rw [part, part, if_neg hne, ite_self]

theorem textBetween_eq_slice {first start last stop : ℕ} (hle : first ≤ last)
    (hstart : start ≤ lengthAt docs first) (hstop : stop ≤ lengthAt docs last) :
    textBetween docs first start last stop =
      slice (wholeText docs) (base docs first + start) (base docs last + stop) := by
  obtain ⟨count, rfl⟩ := Nat.exists_eq_add_of_le hle
  induction count generalizing first start with
  | zero =>
      have hone : first + 0 + 1 - first = 1 := by omega
      rw [textBetween, hone, List.range'_one, List.flatMap_singleton, part, if_pos rfl,
        if_pos (Nat.add_zero first).symm, Nat.add_zero]
      exact (slice_file hstop).symm
  | succ count ih =>
      have hmore : first + (count + 1) + 1 - first = count + 1 + 1 := by omega
      have hlast : first + (count + 1) = first + 1 + count := by omega
      have hrest := @ih (first + 1) 0 (Nat.zero_le _) (Nat.le_add_right _ _) (hlast ▸ hstop)
      rw [Nat.add_zero] at hrest
      have hparts : (List.range' (first + 1) (count + 1)).flatMap
          (part docs first start (first + (count + 1)) stop) =
            textBetween docs (first + 1) 0 (first + 1 + count) stop := by
        rw [textBetween, ← hlast, show first + (count + 1) + 1 - (first + 1) = count + 1 by omega]
        refine List.flatMap_congr fun i hi => part_later ?_
        exact (List.mem_range'_1.mp hi).1
      have hfirst : part docs first start (first + (count + 1)) stop first =
          slice (wholeText docs) (base docs first + start) (base docs (first + 1)) := by
        have hne : first ≠ first + (count + 1) := by omega
        rw [part, if_pos rfl, if_neg hne, base_succ]
        exact (slice_file le_rfl).symm
      have hbase := @base_mono docs _ _ (Nat.le_add_right (first + 1) count)
      have hstep := base_succ docs first
      rw [textBetween, hmore, List.range'_succ, List.flatMap_cons, hfirst, hparts, hrest, hlast]
      exact (slice_split _ (by omega) (by omega)).symm

theorem textBetween_congr {other : List SourceDoc} {first start last stop first' last' : ℕ}
    (hlength : last' + first = last + first')
    (h : ∀ count, first + count ≤ last → textAt docs (first + count) = textAt other (first' + count)) :
    textBetween docs first start last stop = textBetween other first' start last' stop := by
  have hcount : last' + 1 - first' = last + 1 - first := by omega
  rw [textBetween, textBetween, hcount, List.range'_eq_map_range, List.range'_eq_map_range,
    List.flatMap_map, List.flatMap_map]
  refine List.flatMap_congr fun count hmem => ?_
  have hlt := List.mem_range.mp hmem
  have htext := h count (by omega)
  have hfirst : (first + count = first) = (first' + count = first') := by
    rw [eq_iff_iff]
    omega
  have hlast : (first + count = last) = (first' + count = last') := by
    rw [eq_iff_iff]
    omega
  simp only [part, lengthAt, htext, hfirst, hlast]

structure Place where
  first : ℕ
  start : ℕ
  last : ℕ
  stop : ℕ
  deriving DecidableEq, Repr

def place (docs : List SourceDoc) (span : SourceSpan) : Option Place := do
  let first ← index docs span.sourceFile
  let last ← index docs span.endFile
  return { first, start := span.start, last, stop := span.stop }

structure Place.Fits (docs : List SourceDoc) (p : Place) : Prop where
  first_le : p.first ≤ p.last
  last_lt : p.last < docs.length
  start_le : p.start ≤ lengthAt docs p.first
  stop_le : p.stop ≤ lengthAt docs p.last

structure Place.InBounds (docs : List SourceDoc) (p : Place) : Prop extends p.Fits docs where
  ordered : p.first = p.last → p.start ≤ p.stop

def Place.Before (p q : Place) : Prop :=
  p.last < q.first ∨ (p.last = q.first ∧ p.stop ≤ q.start)

def AllInBounds (docs : List SourceDoc) (spans : Spans) : Prop :=
  ∀ entry ∈ spans, ∃ p, place docs entry.2 = some p ∧ p.InBounds docs

/-- The ranges are one behind the other, each at a position where the last one has stopped. -/
def Ordered (docs : List SourceDoc) (spans : Spans) : Prop :=
  spans.Pairwise fun a b => ∃ p q,
    place docs a.2 = some p ∧ place docs b.2 = some q ∧ p.Before q

theorem place_eq_some_iff {span : SourceSpan} {p : Place} : place docs span = some p ↔
    index docs span.sourceFile = some p.first ∧ index docs span.endFile = some p.last ∧
      span.start = p.start ∧ span.stop = p.stop := by
  unfold place
  cases hfirst : index docs span.sourceFile with
  | none => simp
  | some first =>
      cases hlast : index docs span.endFile with
      | none => simp
      | some last =>
          obtain ⟨first', start', last', stop'⟩ := p
          simp
          tauto

theorem text_of_place {span : SourceSpan} {p : Place} (h : place docs span = some p) :
    text docs span = some (textBetween docs p.first p.start p.last p.stop) := by
  obtain ⟨hfirst, hlast, hstart, hstop⟩ := place_eq_some_iff.mp h
  simp [text, hfirst, hlast, hstart, hstop]

theorem globalStart_of_place {span : SourceSpan} {p : Place} (h : place docs span = some p) :
    globalStart docs span = some (base docs p.first + p.start) := by
  obtain ⟨hfirst, -, hstart, -⟩ := place_eq_some_iff.mp h
  simp [globalStart, hfirst, hstart]

theorem globalEnd_of_place {span : SourceSpan} {p : Place} (h : place docs span = some p) :
    globalEnd docs span = some (base docs p.last + p.stop) := by
  obtain ⟨-, hlast, -, hstop⟩ := place_eq_some_iff.mp h
  simp [globalEnd, hlast, hstop]

theorem Place.Fits.text {p : Place} (h : p.Fits docs) :
    textBetween docs p.first p.start p.last p.stop =
      slice (wholeText docs) (base docs p.first + p.start) (base docs p.last + p.stop) :=
  textBetween_eq_slice h.first_le h.start_le h.stop_le

/-- One place is another with its ends moved inward over file boundaries. -/
structure Place.Narrows (docs : List SourceDoc) (q p : Place) : Prop where
  start_eq : base docs q.first + q.start = base docs p.first + p.start
  stop_eq : base docs q.last + q.stop = base docs p.last + p.stop
  start_le : p.first < q.first ∨ (p.first = q.first ∧ p.start ≤ q.start)
  stop_le : q.last < p.last ∨ (q.last = p.last ∧ q.stop ≤ p.stop)

theorem advanceStart_spec {last fuel first start first' start' : ℕ} (hle : first ≤ last)
    (hstart : start ≤ lengthAt docs first)
    (h : advanceStart docs last fuel first start = (first', start')) :
    first' ≤ last ∧ start' ≤ lengthAt docs first' ∧
      base docs first' + start' = base docs first + start ∧
        (first < first' ∨ (first = first' ∧ start ≤ start')) := by
  induction fuel generalizing first start with
  | zero =>
      cases h
      exact ⟨hle, hstart, rfl, .inr ⟨rfl, le_rfl⟩⟩
  | succ fuel ih =>
      rw [advanceStart] at h
      split_ifs at h with hend
      · obtain ⟨hlast, hlength, hbase, hmoved⟩ := ih hend.1 (Nat.zero_le _) h
        refine ⟨hlast, hlength, ?_, ?_⟩
        · have hstep := base_succ docs first
          rw [Nat.succ_eq_add_one] at hbase
          omega
        · omega
      · cases h
        exact ⟨hle, hstart, rfl, .inr ⟨rfl, le_rfl⟩⟩

theorem retreatStop_spec {first fuel last stop last' stop' : ℕ} (hle : first ≤ last)
    (hstop : stop ≤ lengthAt docs last)
    (h : retreatStop docs first fuel last stop = (last', stop')) :
    first ≤ last' ∧ last' ≤ last ∧ stop' ≤ lengthAt docs last' ∧
      base docs last' + stop' = base docs last + stop ∧
        (last' < last ∨ (last' = last ∧ stop' ≤ stop)) := by
  induction fuel generalizing last stop with
  | zero =>
      cases h
      exact ⟨hle, le_rfl, hstop, rfl, .inr ⟨rfl, le_rfl⟩⟩
  | succ fuel ih =>
      rw [retreatStop] at h
      split_ifs at h with hbegin
      · obtain ⟨hfirst, hlast, hlength, hbase, hmoved⟩ := ih (by omega) le_rfl h
        obtain ⟨previous, rfl⟩ := Nat.exists_eq_succ_of_ne_zero (by omega : last ≠ 0)
        rw [Nat.succ_sub_one] at hlast hbase hmoved
        refine ⟨hfirst, by omega, hlength, ?_, by omega⟩
        have hstep := base_succ docs previous
        rw [Nat.succ_eq_add_one]
        omega
      · cases h
        exact ⟨hle, le_rfl, hstop, rfl, .inr ⟨rfl, le_rfl⟩⟩

theorem rels_getElem? {i : ℕ} (h : i < docs.length) : ∃ rel, (rels docs)[i]? = some rel := by
  refine ⟨docs[i].relPath, ?_⟩
  rw [rels, List.getElem?_map, List.getElem?_eq_getElem h]
  rfl

theorem normalized_spec (hdocs : (rels docs).Nodup) {after : SourceSpan} {p : Place}
    (hplace : place docs after = some p) (h : p.Fits docs) :
    ∃ span q, normalized docs after = some span ∧ place docs span = some q ∧ q.Fits docs ∧
      q.Narrows docs p := by
  obtain ⟨hfirst, hlast, hstart, hstop⟩ := place_eq_some_iff.mp hplace
  cases hadvance : advanceStart docs p.last (p.last - p.first) p.first p.start with
  | mk first start =>
      cases hretreat : retreatStop docs first (p.last - first) p.last p.stop with
      | mk last stop =>
          obtain ⟨hle, hlength, hbase, hmoved⟩ := advanceStart_spec h.first_le h.start_le hadvance
          obtain ⟨hle', hlast', hlength', hbase', hmoved'⟩ :=
            retreatStop_spec hle h.stop_le hretreat
          have hbound := h.last_lt
          obtain ⟨sourceFile, hsource⟩ := @rels_getElem? docs first (by omega)
          obtain ⟨endFile, hend⟩ := @rels_getElem? docs last (by omega)
          refine ⟨⟨sourceFile, start, endFile, stop⟩, ⟨first, start, last, stop⟩, ?_, ?_,
            ⟨hle', hlast'.trans_lt hbound, hlength, hlength'⟩, ⟨hbase, hbase', hmoved, hmoved'⟩⟩
          · simp [normalized, hfirst, hlast, hstart, hstop, hadvance, hretreat, hsource, hend]
          · refine place_eq_some_iff.mpr ⟨?_, ?_, rfl, rfl⟩
            · exact index_of_getElem? hdocs hsource
            · exact index_of_getElem? hdocs hend

theorem finish_spec (hdocs : (rels docs).Nodup) {episode : ℕ} {before after : SourceSpan}
    {changed : Bool} {p : Place} (hplace : place docs after = some p) (h : p.Fits docs) :
    ∃ remap, finish docs episode before after changed = some remap ∧ remap.before = before ∧
      ((remap.after = none ∧ remap.textChanged = true) ∨
        ∃ span q, remap.after = some span ∧ remap.textChanged = changed ∧
          place docs span = some q ∧ q.InBounds docs ∧ q.Narrows docs p) := by
  obtain ⟨span, q, hspan, hq, hfits, hnarrows⟩ := normalized_spec hdocs hplace h
  have htext := text_of_place hq
  obtain ⟨hfirst, hlast, hstart, hstop⟩ := place_eq_some_iff.mp hq
  unfold finish
  simp only [hspan, hfirst, hlast, htext, Option.bind_eq_bind, Option.bind_some]
  split_ifs with hgone
  · exact ⟨_, rfl, rfl, .inl ⟨rfl, rfl⟩⟩
  · refine ⟨_, rfl, rfl, .inr ⟨span, q, rfl, rfl, hq, ⟨hfits, fun heq => ?_⟩, hnarrows⟩⟩
    have hordered : ¬ (q.last = q.first ∧ span.stop ≤ span.start) := fun hle => hgone (.inl (.inr hle))
    rw [hstart, hstop] at hordered
    omega

theorem finish_episode {episode : ℕ} {before after : SourceSpan} {changed : Bool}
    {remap : RangeRemap} (h : finish docs episode before after changed = some remap) :
    remap.episode = episode := by
  unfold finish at h
  obtain ⟨span, -, h⟩ := Option.bind_eq_some_iff.mp h
  obtain ⟨first, -, h⟩ := Option.bind_eq_some_iff.mp h
  obtain ⟨last, -, h⟩ := Option.bind_eq_some_iff.mp h
  obtain ⟨spanText, -, h⟩ := Option.bind_eq_some_iff.mp h
  split_ifs at h
  · cases h
    rfl
  · cases h
    rfl

theorem finish_reads (hdocs : (rels docs).Nodup) {episode : ℕ} {before after : SourceSpan}
    {changed : Bool} {p : Place} {remap : RangeRemap} (hplace : place docs after = some p)
    (h : p.Fits docs) (hfinish : finish docs episode before after changed = some remap)
    (hchanged : remap.textChanged = false) :
    changed = false ∧ remap.before = before ∧ ∃ span, remap.after = some span ∧
      text docs span = some (textBetween docs p.first p.start p.last p.stop) := by
  obtain ⟨remap', hremap, hbefore, hcases⟩ :=
    @finish_spec docs hdocs episode before after changed p hplace h
  obtain rfl := Option.some.inj (hfinish.symm.trans hremap)
  rcases hcases with ⟨-, htrue⟩ | ⟨span, q, hafter, hsame, hq, hbounds, hnarrows⟩
  · rw [htrue] at hchanged
    cases hchanged
  · refine ⟨hsame.symm.trans hchanged, hbefore, span, hafter, ?_⟩
    rw [text_of_place hq, hbounds.text, hnarrows.start_eq, hnarrows.stop_eq, h.text]

section Relocation

variable {other : List SourceDoc} {i j : ℕ}

theorem index_relocated (hother : (rels other).Nodup) {rel : String}
    (h : other[j]? = docs[i]?) (hindex : index docs rel = some i) : index other rel = some j := by
  refine index_of_getElem? hother ?_
  have hrel := getElem?_of_index hindex
  rw [rels, List.getElem?_map] at hrel ⊢
  rwa [h]

theorem textAt_relocated (h : other[j]? = docs[i]?) : textAt other j = textAt docs i := by
  rw [textAt, textAt, h]

theorem base_relocated {n : ℕ} (h : ∀ count < n, other[j + count]? = docs[i + count]?) :
    base other (j + n) + base docs i = base docs (i + n) + base other j := by
  induction n with
  | zero => exact Nat.add_comm _ _
  | succ n ih =>
      have hlength : lengthAt other (j + n) = lengthAt docs (i + n) :=
        congrArg List.length (textAt_relocated (h n (Nat.lt_succ_self n)))
      have hbases := ih fun count hlt => h count (hlt.trans (Nat.lt_succ_self n))
      rw [← Nat.add_assoc, ← Nat.add_assoc, base_succ, base_succ]
      omega

theorem text_relocated (hother : (rels other).Nodup) {span : SourceSpan} {p : Place}
    (hplace : place docs span = some p) (hle : p.first ≤ p.last)
    (h : ∀ count, p.first + count ≤ p.last → other[j + count]? = docs[p.first + count]?) :
    text other span = text docs span := by
  obtain ⟨hfirst, hlast, hstart, hstop⟩ := place_eq_some_iff.mp hplace
  have hbegin := index_relocated hother (h 0 hle) hfirst
  have hlastFile := h (p.last - p.first) (by omega)
  rw [Nat.add_sub_cancel' hle] at hlastFile
  have hend := index_relocated hother hlastFile hlast
  have hthere : place other span = some ⟨j, p.start, j + (p.last - p.first), p.stop⟩ :=
    place_eq_some_iff.mpr ⟨hbegin, hend, hstart, hstop⟩
  have hlength : j + (p.last - p.first) + p.first = p.last + j := by omega
  rw [text_of_place hplace, text_of_place hthere]
  refine congrArg some (textBetween_congr hlength fun count hcount => ?_).symm
  exact (textAt_relocated (h count hcount)).symm

end Relocation

theorem mapM_eq_some_iff {α β : Type} {f : α → Option β} {values : List α} {results : List β} :
    values.mapM f = some results ↔ List.Forall₂ (fun value result => f value = some result) values
      results := by
  induction values generalizing results with
  | nil => simp [eq_comm]
  | cons value values ih =>
      rw [List.mapM_cons, List.forall₂_cons_left_iff]
      constructor
      · intro h
        obtain ⟨result, hresult, hrest⟩ := Option.bind_eq_some_iff.mp h
        obtain ⟨rest, hrest, heq⟩ := Option.bind_eq_some_iff.mp hrest
        exact ⟨result, rest, hresult, ih.mp hrest, (Option.some.inj heq).symm⟩
      · rintro ⟨result, rest, hresult, hrest, rfl⟩
        rw [hresult, ih.mpr hrest]
        rfl

theorem exists_mapM {α β : Type} {f : α → Option β} {values : List α}
    (h : ∀ value ∈ values, ∃ result, f value = some result) :
    ∃ results, values.mapM f = some results := by
  induction values with
  | nil => exact ⟨[], rfl⟩
  | cons value values ih =>
      obtain ⟨result, hresult⟩ := h value List.mem_cons_self
      obtain ⟨results, hresults⟩ := ih fun other hother => h other (List.mem_cons_of_mem _ hother)
      refine ⟨result :: results, ?_⟩
      rw [List.mapM_cons, hresult, hresults]
      rfl

theorem forall_mapM {α β : Type} {f : α → Option β} {values : List α} {results : List β}
    {P : β → Prop} (h : values.mapM f = some results) :
    (∀ result ∈ results, P result) ↔ ∀ value ∈ values, ∀ result, f value = some result → P result := by
  have hrounds := mapM_eq_some_iff.mp h
  clear h
  induction hrounds with
  | nil => simp
  | @cons value result values results hvalue _ ih =>
      rw [List.forall_mem_cons, List.forall_mem_cons]
      refine and_congr ?_ ih
      rw [hvalue]
      simp

theorem map_mapM {α β γ : Type} {f : α → Option β} {values : List α} {results : List β}
    {g : β → γ} {k : α → γ} (h : values.mapM f = some results)
    (heq : ∀ value ∈ values, ∀ result, f value = some result → g result = k value) :
    results.map g = values.map k := by
  have hrounds := mapM_eq_some_iff.mp h
  clear h
  induction hrounds with
  | nil => rfl
  | @cons value result values results hvalue _ ih =>
      rw [List.map_cons, List.map_cons, heq value List.mem_cons_self result hvalue,
        ih fun other hother => heq other (List.mem_cons_of_mem _ hother)]

theorem pairwise_mapM {α β : Type} {f : α → Option β} {values : List α} {results : List β}
    {R : α → α → Prop} {S : β → β → Prop} (h : values.mapM f = some results)
    (hvalues : values.Pairwise R)
    (hstep : ∀ a ∈ values, ∀ b ∈ values, R a b → ∀ x y, f a = some x → f b = some y → S x y) :
    results.Pairwise S := by
  have hrounds := mapM_eq_some_iff.mp h
  clear h
  induction hrounds with
  | nil => exact .nil
  | @cons value result values results hvalue hrest ih =>
      obtain ⟨hfirst, hlater⟩ := List.pairwise_cons.mp hvalues
      refine List.pairwise_cons.mpr ⟨?_, ih hlater fun a ha b hb => hstep a
        (List.mem_cons_of_mem _ ha) b (List.mem_cons_of_mem _ hb)⟩
      refine (forall_mapM (mapM_eq_some_iff.mpr hrest)).mpr fun other hother result' hresult' => ?_
      exact hstep value List.mem_cons_self other (List.mem_cons_of_mem _ hother)
        (hfirst other hother) result result' hvalue hresult'

end ShortReel.SourcePlaces
