import ShortReel.RemapOrder

/-!
# Boundaries after an edit

Two ranges of which one stops where the other starts, and the text that an edit inserts there.
-/

namespace ShortReel.RemapBoundaries

open EditScripts SourceAlignment AlignmentScripts AlignmentPositions SourceRemap SourcePlaces
open RemapEdits RemapTexts RemapOrder

section Insertions

variable {α : Type} {old new : List α} {op : Opcode} {ops : List Opcode} {i j n m : ℕ}

theorem insert_lt (hfits : op.Fits old new) (htag : op.tag = .insert) : op.j1 < op.j2 := by
  unfold Opcode.Fits at hfits
  rw [htag] at hfits
  exact hfits.2

theorem mem_script (h : Script old new ops i j n m) :
    ∀ op ∈ ops, op.Fits old new ∧ op.i2 ≤ n ∧ op.j2 ≤ m := by
  induction h with
  | nil => exact fun _ hop => absurd hop List.not_mem_nil
  | cons hfits hrest ih =>
      intro other hother
      rcases List.mem_cons.mp hother with rfl | hother
      · exact ⟨hfits, hrest.old_le, hrest.new_le⟩
      · exact ih other hother

theorem insert_behind (h : Script old new ops i j n m)
    (hhead : ∀ op ∈ ops.head?, op.tag ≠ .insert) : ∀ op ∈ ops, op.tag = .insert → i < op.i1 := by
  cases h with
  | nil => exact fun _ hop => absurd hop List.not_mem_nil
  | @cons first ops _ _ hfits hrest =>
      intro other hother htag
      rcases List.mem_cons.mp hother with rfl | hother
      · exact absurd htag (hhead _ rfl)
      · have hlt := hfits.lt_of_ne (hhead first rfl)
        exact hlt.trans_le (mem_old_le hrest other hother)

theorem mapPosition_at_insert (h : Script old new ops i j n m) (hseparated : Separated ops)
    (hop : op ∈ ops) (htag : op.tag = .insert) (after : Bool) :
    TextAlignment.mapPosition ⟨ops, n, m⟩ op.i1 after = if after then op.j2 else op.j1 := by
  induction h with
  | nil => exact absurd hop List.not_mem_nil
  | @cons first ops n m hfits hrest ih =>
      rcases List.mem_cons.mp hop with rfl | hop
      · exact mapPosition_insert htag rfl
      · rw [mapPosition_skip (mem_old_le hrest op hop), ih hseparated.tail hop]
        intro hfirst heq
        have hbehind := insert_behind hrest
          (fun next hnext => head_not_insert hseparated (by rw [hfirst]; decide) hnext) op hop htag
        have hold := hfits.old_le
        omega

theorem mapPosition_all (h : Script old new ops i j n m) (hseparated : Separated ops) :
    TextAlignment.mapPosition ⟨ops, n, m⟩ n true = m := by
  induction h with
  | nil => exact mapPosition_nil
  | @cons first ops n m hfits hrest ih =>
      by_cases hinsert : first.tag = .insert ∧ first.i1 = n
      · rw [mapPosition_insert hinsert.1 hinsert.2, if_pos rfl]
        have hstart : TextAlignment.mapPosition ⟨ops, n, m⟩ first.i2 true = first.j2 := by
          refine mapPosition_start hrest fun _ next hnext => head_not_insert hseparated ?_ hnext
          rw [hinsert.1]
          decide
        have hend := ih hseparated.tail
        have heq : n = first.i2 := hinsert.2.symm.trans (hfits.insert_eq hinsert.1)
        exact hstart.symm.trans (heq ▸ hend)
      · rw [mapPosition_skip hrest.old_le fun htag heq => hinsert ⟨htag, heq⟩]
        exact ih hseparated.tail

end Insertions

section Alignments

variable {matcher : SequenceMatcher} {old new : Text} {op : Opcode}

theorem alignTexts_insert (hop : op ∈ (alignTexts matcher old new).opcodes) (htag : op.tag = .insert) :
    (alignTexts matcher old new).mapPosition op.i1 true = op.j2 ∧ op.j1 < op.j2 ∧
      op.i1 ≤ old.length ∧ op.j2 ≤ new.length := by
  have hscript := alignTexts_script matcher old new
  obtain ⟨hfits, hold, hnew⟩ := mem_script hscript op hop
  have heq := hfits.insert_eq htag
  exact ⟨mapPosition_at_insert hscript (alignTexts_separated matcher old new) hop htag true,
    insert_lt hfits htag, heq ▸ hold, hnew⟩

theorem alignTexts_length :
    (alignTexts matcher old new).mapPosition old.length true = new.length :=
  mapPosition_all (alignTexts_script matcher old new) (alignTexts_separated matcher old new)

theorem alignTexts_zero
    (h : ∀ op ∈ (alignTexts matcher old new).opcodes, op.tag = .insert → op.i1 ≠ 0) :
    (alignTexts matcher old new).mapPosition 0 true = 0 := by
  rw [mapPosition_sides h true false]
  exact mapPosition_start (alignTexts_script matcher old new) fun hfalse => by cases hfalse

theorem alignTexts_start {position : ℕ} (hop : op ∈ (alignTexts matcher old new).opcodes)
    (htag : op.tag = .insert) (hlt : position < op.i1) :
    (alignTexts matcher old new).mapPosition position true ≤ op.j1 := by
  have hscript := alignTexts_script matcher old new
  have hlength := (alignTexts_insert hop htag).2.2.1
  have hsides := mapPosition_lt hscript (Nat.zero_le position) hlt hlength true false
  exact hsides.trans_eq
    (mapPosition_at_insert hscript (alignTexts_separated matcher old new) hop htag false)

end Alignments

variable {docs new : List SourceDoc} {spans : Spans} {target : ℕ} {rel : String} {newText : Text}
  {matcher : SequenceMatcher} {p q : Place}

def insertedAt (docs : List SourceDoc) (target : ℕ) (alignment : TextAlignment) (position : ℕ) :
    List Opcode :=
  alignment.opcodes.filter fun op => op.tag = .insert ∧ base docs target + op.i1 = position

theorem mem_insertedAt {alignment : TextAlignment} {position : ℕ} {op : Opcode} :
    op ∈ insertedAt docs target alignment position ↔
      op ∈ alignment.opcodes ∧ op.tag = .insert ∧ base docs target + op.i1 = position := by
  simp [insertedAt]

def newPosition (docs : List SourceDoc) (target : ℕ) (alignment : TextAlignment) (newLength : ℕ)
    (position : ℕ) : ℕ :=
  if position < base docs target then position
  else if position ≤ base docs target + lengthAt docs target then
    base docs target + alignment.mapPosition (position - base docs target) true
  else position + newLength - lengthAt docs target

def movedEnd (new : List SourceDoc) (target : ℕ) (alignment : TextAlignment) (i position : ℕ) : ℕ :=
  base new i + if i = target then alignment.mapPosition position true else position

section Ends

variable {i position : ℕ}

theorem movedEnd_before (h : i < target) :
    movedEnd (editedDocs docs target rel newText) target
      (alignTexts matcher (textAt docs target) newText) i position = base docs i + position := by
  rw [movedEnd, if_neg h.ne, base_edited h.le]

theorem movedEnd_behind (hindex : index docs rel = some target) (h : target < i) :
    movedEnd (editedDocs docs target rel newText) target
      (alignTexts matcher (textAt docs target) newText) i position + lengthAt docs target =
        base docs i + position + newText.length := by
  have hbase := @base_edited_later docs target rel newText hindex i h
  rw [movedEnd, if_neg h.ne']
  omega

theorem before_target (hposition : position ≤ lengthAt docs i) (h : i < target) :
    base docs i + position ≤ base docs target := by
  have hmono := @base_mono docs (i + 1) target h
  rw [base_succ] at hmono
  omega

theorem behind_target (h : target < i) :
    base docs target + lengthAt docs target ≤ base docs i := by
  have hmono := @base_mono docs (target + 1) i h
  rwa [base_succ] at hmono

theorem movedEnd_eq (hindex : index docs rel = some target) (hposition : position ≤ lengthAt docs i)
    (h : target ≤ i ∨ insertedAt docs target (alignTexts matcher (textAt docs target) newText)
      (base docs i + position) = []) :
    movedEnd (editedDocs docs target rel newText) target
      (alignTexts matcher (textAt docs target) newText) i position =
        newPosition docs target (alignTexts matcher (textAt docs target) newText) newText.length
          (base docs i + position) := by
  have hall := @alignTexts_length matcher (textAt docs target) newText
  unfold newPosition
  rcases lt_trichotomy i target with hlt | rfl | hgt
  · have hbefore := before_target hposition hlt
    rw [movedEnd_before hlt]
    split_ifs with hsmall hin
    · rfl
    · have heq : base docs i + position = base docs target := by omega
      have hzero := @alignTexts_zero matcher (textAt docs target) newText fun op hop htag hi => by
        have hmem := (@mem_insertedAt docs target _ (base docs i + position) op).mpr
          ⟨hop, htag, by omega⟩
        rw [h.resolve_left (by omega)] at hmem
        exact absurd hmem List.not_mem_nil
      rw [heq, Nat.sub_self, hzero]
      rfl
    · omega
  · rw [movedEnd, if_pos rfl, base_edited le_rfl, if_neg (by omega), if_pos (by omega),
      Nat.add_sub_cancel_left]
  · have hbehind := @behind_target docs target i hgt
    have hmoved := @movedEnd_behind docs target rel newText matcher i position hindex hgt
    split_ifs with hsmall hin
    · omega
    · have hat : base docs i + position - base docs target = (textAt docs target).length := by
        change _ = lengthAt docs target
        omega
      rw [hat, hall]
      omega
    · omega

theorem newPosition_inserted {op : Opcode}
    (hop : op ∈ insertedAt docs target (alignTexts matcher (textAt docs target) newText) position) :
    newPosition docs target (alignTexts matcher (textAt docs target) newText) newText.length position =
      base docs target + op.j2 := by
  obtain ⟨hmem, htag, rfl⟩ := mem_insertedAt.mp hop
  obtain ⟨hmap, -, hlength, -⟩ := alignTexts_insert hmem htag
  have hin : base docs target + op.i1 ≤ base docs target + lengthAt docs target :=
    Nat.add_le_add_left hlength _
  rw [newPosition, if_neg (by omega), if_pos hin, Nat.add_sub_cancel_left, hmap]

end Ends

theorem global_le (hp : p.InBounds docs) :
    base docs p.first + p.start ≤ base docs p.last + p.stop := by
  have hstart := hp.start_le
  rcases hp.first_le.lt_or_eq with hlt | heq
  · exact (before_target hstart hlt).trans (Nat.le_add_right _ _)
  · have hordered := hp.ordered heq
    rw [heq]
    omega

def Joined (new : List SourceDoc) (target : ℕ) (inserted : List Opcode) (p q : Place) : Prop :=
  base new p.last + p.stop = base new q.first + q.start ∧
    ∀ op ∈ inserted, base new p.first + p.start ≤ base new target + op.j1 ∧
      base new target + op.j2 ≤ base new p.last + p.stop

/-- The ends at the boundary are not both in the edited file or behind it, or the first place is
behind it as a whole. -/
def Apart (target : ℕ) (p q : Place) : Prop :=
  p.last < target ∨ q.first < target ∨ target < p.first

section Edited

variable {shared : Bool} (hindex : index docs rel = some target) (hp : p.InBounds docs)
  (hq : q.InBounds docs) (hadjacent : base docs p.last + p.stop = base docs q.first + q.start)

theorem start_before_inserted (hp : p.InBounds docs) (hfirst : p.first ≤ target) {op : Opcode}
    (hop : op ∈ insertedAt docs target (alignTexts matcher (textAt docs target) newText)
      (base docs p.last + p.stop))
    (hfull : p.first = target → base docs p.first + p.start < base docs p.last + p.stop) :
    movedEnd (editedDocs docs target rel newText) target
      (alignTexts matcher (textAt docs target) newText) p.first p.start ≤
        base docs target + op.j1 := by
  obtain ⟨hmem, htag, hat⟩ := mem_insertedAt.mp hop
  rcases hfirst.lt_or_eq with hlt | heq
  · have hbefore := before_target hp.start_le hlt
    rw [movedEnd_before hlt]
    omega
  · have hlt := hfull heq
    rw [heq] at hlt ⊢
    rw [movedEnd, if_pos rfl, base_edited le_rfl]
    exact Nat.add_le_add_left (alignTexts_start hmem htag (by omega)) _

include hindex hp hq hadjacent

theorem joined_of_not_apart
    (hfull : p.first = target → insertedAt docs target
      (alignTexts matcher (textAt docs target) newText) (base docs p.last + p.stop) ≠ [] →
        base docs p.first + p.start < base docs p.last + p.stop)
    (h : ¬ (insertedAt docs target (alignTexts matcher (textAt docs target) newText)
      (base docs p.last + p.stop) ≠ [] ∧ Apart target p q)) :
    Joined (editedDocs docs target rel newText) target
      (insertedAt docs target (alignTexts matcher (textAt docs target) newText)
        (base docs p.last + p.stop))
      (editedPlace (alignTexts matcher (textAt docs target) newText) target true p)
      (editedPlace (alignTexts matcher (textAt docs target) newText) target shared q) := by
  have hstop : movedEnd (editedDocs docs target rel newText) target
      (alignTexts matcher (textAt docs target) newText) p.last p.stop =
        newPosition docs target (alignTexts matcher (textAt docs target) newText) newText.length
          (base docs p.last + p.stop) := by
    refine movedEnd_eq hindex hp.stop_le ?_
    by_contra hboth
    exact h ⟨fun hnone => hboth (.inr hnone), .inl (by omega)⟩
  have hstart : movedEnd (editedDocs docs target rel newText) target
      (alignTexts matcher (textAt docs target) newText) q.first q.start =
        newPosition docs target (alignTexts matcher (textAt docs target) newText) newText.length
          (base docs p.last + p.stop) := by
    rw [hadjacent]
    refine movedEnd_eq hindex hq.start_le ?_
    by_contra hboth
    rw [hadjacent] at h
    exact h ⟨fun hnone => hboth (.inr hnone), .inr (.inl (by omega))⟩
  refine ⟨hstop.trans hstart.symm, fun op hop => ⟨?_, ?_⟩⟩
  · have hsome := List.ne_nil_of_mem hop
    have hfirst : p.first ≤ target := by
      by_contra hbehind
      exact h ⟨hsome, .inr (.inr (by omega))⟩
    rw [base_edited le_rfl]
    exact start_before_inserted hp hfirst hop fun heq => hfull heq hsome
  · rw [newPosition_inserted hop] at hstop
    rw [base_edited le_rfl]
    exact hstop.ge

theorem not_joined_of_apart
    (hinserted : insertedAt docs target (alignTexts matcher (textAt docs target) newText)
      (base docs p.last + p.stop) ≠ []) (hapart : Apart target p q) :
    ¬ Joined (editedDocs docs target rel newText) target
      (insertedAt docs target (alignTexts matcher (textAt docs target) newText)
        (base docs p.last + p.stop))
      (editedPlace (alignTexts matcher (textAt docs target) newText) target true p)
      (editedPlace (alignTexts matcher (textAt docs target) newText) target shared q) := by
  rintro ⟨hmeet, hinside⟩
  obtain ⟨op, hop⟩ := List.exists_mem_of_ne_nil _ hinserted
  obtain ⟨hmem, htag, hat⟩ := mem_insertedAt.mp hop
  obtain ⟨-, hlt, -, hlength⟩ := alignTexts_insert hmem htag
  obtain ⟨hstart, hstop⟩ := hinside op hop
  rw [base_edited le_rfl] at hstart hstop
  have hends : movedEnd (editedDocs docs target rel newText) target
      (alignTexts matcher (textAt docs target) newText) p.last p.stop =
        movedEnd (editedDocs docs target rel newText) target
          (alignTexts matcher (textAt docs target) newText) q.first q.start := hmeet
  replace hstop : base docs target + op.j2 ≤ movedEnd (editedDocs docs target rel newText) target
      (alignTexts matcher (textAt docs target) newText) p.last p.stop := hstop
  rcases hapart with hlast | hfirst | hbehind
  · have hbefore := before_target hp.stop_le hlast
    rw [movedEnd_before hlast] at hstop
    omega
  · have hbefore := before_target hq.start_le hfirst
    rw [hends, movedEnd_before hfirst] at hstop
    omega
  · have hmoved := @movedEnd_behind docs target rel newText matcher p.first p.start hindex hbehind
    have hbase := @behind_target docs target p.first hbehind
    replace hstart : movedEnd (editedDocs docs target rel newText) target
      (alignTexts matcher (textAt docs target) newText) p.first p.start ≤
        base docs target + op.j1 := hstart
    omega

end Edited

theorem finish_full {episode : ℕ} {before after span : SourceSpan} {changed : Bool}
    {remap : RangeRemap} (h : finish docs episode before after changed = some remap)
    (hspan : remap.after = some span) (hp : place docs span = some p) (hfits : p.Fits docs) :
    base docs p.first + p.start < base docs p.last + p.stop := by
  unfold finish at h
  obtain ⟨other, -, h⟩ := Option.bind_eq_some_iff.mp h
  obtain ⟨first, -, h⟩ := Option.bind_eq_some_iff.mp h
  obtain ⟨last, -, h⟩ := Option.bind_eq_some_iff.mp h
  obtain ⟨spanText, htext, h⟩ := Option.bind_eq_some_iff.mp h
  split_ifs at h with hgone
  · cases h
    cases hspan
  · cases h
    cases hspan
    rw [text_of_place hp, hfits.text] at htext
    cases htext
    by_contra hempty
    refine hgone (.inr ?_)
    rw [slice_of_le (by omega)]
    rfl

theorem remapEdited_full {starts : List ℕ} {entry : ℕ × SourceSpan} {remap : RangeRemap}
    {after : SourceSpan} {r : Place} (matcher : SequenceMatcher)
    (hindex : index docs rel = some target) (hp : place docs entry.2 = some p)
    (h : remapEdited docs rel newText target (alignTexts matcher (textAt docs target) newText) starts
      entry = some remap)
    (hafter : remap.after = some after)
    (hr : place (editedDocs docs target rel newText) after = some r)
    (hfits : r.Fits (editedDocs docs target rel newText)) (htouch : p.first ≤ target ∧ target ≤ p.last) :
    base (editedDocs docs target rel newText) r.first + r.start <
      base (editedDocs docs target rel newText) r.last + r.stop := by
  rcases @remapEdited_eq docs target rel newText _ starts entry p hindex hp with
    ⟨hout, -⟩ | ⟨-, between, shared, -, -, heq⟩
  · exact absurd htouch hout
  · exact finish_full (heq.symm.trans h) hafter hr hfits

theorem round_of_mapM {α β : Type} {f : α → Option β} {values : List α} {results : List β}
    (h : values.mapM f = some results) {i : ℕ} {value : α} {result : β}
    (hvalue : values[i]? = some value) (hresult : results[i]? = some result) :
    f value = some result := by
  obtain ⟨hi, rfl⟩ := List.getElem?_eq_some_iff.mp hvalue
  obtain ⟨hi', rfl⟩ := List.getElem?_eq_some_iff.mp hresult
  exact (mapM_eq_some_iff.mp h).get hi hi'

/-- The range that is left of an episode stops where the range that is left of the next one starts,
and the text that is inserted there is in the first. -/
def BoundaryKept (new : List SourceDoc) (target : ℕ) (inserted : List Opcode)
    (after after' : SourceSpan) : Prop :=
  ∃ start stop, globalStart new after = some start ∧ globalEnd new after = some stop ∧
    globalStart new after' = some stop ∧
    ∀ op ∈ inserted, start ≤ base new target + op.j1 ∧ base new target + op.j2 ≤ stop

theorem boundaryKept_iff {inserted : List Opcode} {after after' : SourceSpan} {p' q' r s : Place}
    (hr : place new after = some r) (hs : place new after' = some s) (hrp : r.Narrows new p')
    (hsq : s.Narrows new q') :
    BoundaryKept new target inserted after after' ↔ Joined new target inserted p' q' := by
  unfold BoundaryKept Joined
  rw [globalStart_of_place hr, globalEnd_of_place hr, globalStart_of_place hs, hrp.start_eq,
    hrp.stop_eq, hsq.start_eq]
  constructor
  · rintro ⟨start, stop, hstart, hstop, hnext, hinside⟩
    obtain rfl := Option.some.inj hstart
    obtain rfl := Option.some.inj hstop
    exact ⟨(Option.some.inj hnext).symm, hinside⟩
  · rintro ⟨hmeet, hinside⟩
    exact ⟨_, _, rfl, rfl, congrArg some hmeet.symm, hinside⟩

/-- After an edit two adjacent ranges meet again, with what is inserted between them in the first,
unless something is inserted there and a range has its end in another file before the text. -/
theorem remapForEdit_boundary_iff (matcher : SequenceMatcher) (hdocs : (rels docs).Nodup)
    (hindex : index docs rel = some target) (hspans : AllInBounds docs spans)
    {remaps : List RangeRemap} (hremaps : remapForEdit matcher docs spans rel newText = some remaps)
    {i j : ℕ} {a b : ℕ × SourceSpan} {x y : RangeRemap} {after after' : SourceSpan}
    (ha : spans[i]? = some a) (hb : spans[j]? = some b) (hx : remaps[i]? = some x)
    (hy : remaps[j]? = some y) (hafter : x.after = some after) (hafter' : y.after = some after')
    (hp : place docs a.2 = some p) (hq : place docs b.2 = some q)
    (hadjacent : globalEnd docs a.2 = globalStart docs b.2) :
    BoundaryKept (editedDocs docs target rel newText) target
      (insertedAt docs target (alignTexts matcher (textAt docs target) newText)
        (base docs p.last + p.stop)) after after' ↔
      ¬ (insertedAt docs target (alignTexts matcher (textAt docs target) newText)
        (base docs p.last + p.stop) ≠ [] ∧ Apart target p q) := by
  rw [globalEnd_of_place hp, globalStart_of_place hq] at hadjacent
  have hmeet := Option.some.inj hadjacent
  obtain ⟨_, hsame, hpBounds⟩ := hspans a (List.mem_of_getElem? ha)
  obtain rfl := Option.some.inj (hp.symm.trans hsame)
  obtain ⟨_, hsame, hqBounds⟩ := hspans b (List.mem_of_getElem? hb)
  obtain rfl := Option.some.inj (hq.symm.trans hsame)
  unfold remapForEdit at hremaps
  obtain ⟨_, hsame, hremaps⟩ := Option.bind_eq_some_iff.mp hremaps
  obtain rfl := Option.some.inj (hindex.symm.trans hsame)
  obtain ⟨starts, hstarts, hremaps⟩ := Option.bind_eq_some_iff.mp hremaps
  have hshared : base docs p.last + p.stop ∈ starts := by
    have hmem := (forall_mapM hstarts).mp (fun _ hstart => hstart) b (List.mem_of_getElem? hb) _
      (globalStart_of_place hq)
    exact hmeet ▸ hmem
  have hroundx := round_of_mapM hremaps ha hx
  have hroundy := round_of_mapM hremaps hb hy
  obtain ⟨_, hleft, -, hleavesx⟩ :=
    @remapEdited_leaves docs target rel newText p a matcher starts hdocs hindex hp hpBounds
  obtain rfl := Option.some.inj (hroundx.symm.trans hleft)
  obtain ⟨_, hleft, -, hleavesy⟩ :=
    @remapEdited_leaves docs target rel newText q b matcher starts hdocs hindex hq hqBounds
  obtain rfl := Option.some.inj (hroundy.symm.trans hleft)
  obtain ⟨r, hr, hrBounds, hrp⟩ := hleavesx after hafter
  obtain ⟨s, hs, -, hsq⟩ := hleavesy after' hafter'
  rw [decide_eq_true hshared] at hrp
  rw [boundaryKept_iff hr hs hrp hsq]
  refine ⟨fun hjoined hmissed => not_joined_of_apart hindex hpBounds hqBounds hmeet hmissed.1
    hmissed.2 hjoined, fun h => joined_of_not_apart hindex hpBounds hqBounds hmeet ?_ h⟩
  -- An empty first range would go to an empty one, which is not left.
  intro hfirst _
  have hfull := remapEdited_full matcher hindex hp hroundx hafter hr hrBounds.toFits
    ⟨hfirst.le, hfirst ▸ hpBounds.first_le⟩
  have hle := global_le hpBounds
  rw [hrp.start_eq, hrp.stop_eq] at hfull
  refine hle.lt_of_ne fun heq => hfull.ne ?_
  have hstart := @movedEnd_eq docs target rel newText matcher p.first p.start hindex
    hpBounds.start_le (.inl hfirst.ge)
  have hstop := @movedEnd_eq docs target rel newText matcher p.last p.stop hindex
    hpBounds.stop_le (.inl (hfirst ▸ hpBounds.first_le))
  rw [heq] at hstart
  exact hstart.trans hstop.symm

def fileSpans : Spans :=
  [(1, ⟨"a.txt", 0, "a.txt", 2⟩), (2, ⟨"b.txt", 0, "b.txt", 1⟩)]

theorem fileSpans_inBounds : AllInBounds twoFiles fileSpans := by
  intro entry hentry
  rcases List.mem_cons.mp hentry with rfl | hentry
  · exact ⟨⟨0, 0, 0, 2⟩, by decide, ⟨by decide, by decide, by decide, by decide⟩, by decide⟩
  · obtain rfl := List.mem_singleton.mp hentry
    exact ⟨⟨1, 0, 1, 1⟩, by decide, ⟨by decide, by decide, by decide, by decide⟩, by decide⟩

theorem remapForEdit_boundary_behind :
    BoundaryKept (editedDocs twoFiles 0 "a.txt" ['x', 'y', 'n']) 0
      (insertedAt twoFiles 0 (alignTexts disjointMatcher ['x', 'y'] ['x', 'y', 'n']) 2)
      ⟨"a.txt", 0, "a.txt", 3⟩ ⟨"b.txt", 0, "b.txt", 1⟩ := by
  refine (@remapForEdit_boundary_iff twoFiles fileSpans 0 "a.txt" ['x', 'y', 'n'] ⟨0, 0, 0, 2⟩
    ⟨1, 0, 1, 1⟩ disjointMatcher (by decide) (by decide) fileSpans_inBounds
    [⟨1, ⟨"a.txt", 0, "a.txt", 2⟩, some ⟨"a.txt", 0, "a.txt", 3⟩, true⟩,
      ⟨2, ⟨"b.txt", 0, "b.txt", 1⟩, some ⟨"b.txt", 0, "b.txt", 1⟩, false⟩] (by decide) 0 1 _ _ _ _ _ _
    rfl rfl rfl rfl rfl rfl rfl rfl rfl).mpr fun h => ?_
  rcases h.2 with hlt | hlt | hlt <;> exact absurd hlt (by decide)

/-- What is inserted at the beginning of the second file belongs to neither of the episodes that meet
there. -/
theorem inserted_at_file_start_dropped :
    AllInBounds twoFiles fileSpans ∧
    globalEnd twoFiles ⟨"a.txt", 0, "a.txt", 2⟩ = globalStart twoFiles ⟨"b.txt", 0, "b.txt", 1⟩ ∧
    remapForEdit disjointMatcher twoFiles fileSpans "b.txt" ['n', 'z'] =
      some [⟨1, ⟨"a.txt", 0, "a.txt", 2⟩, some ⟨"a.txt", 0, "a.txt", 2⟩, false⟩,
        ⟨2, ⟨"b.txt", 0, "b.txt", 1⟩, some ⟨"b.txt", 1, "b.txt", 2⟩, false⟩] ∧
    globalEnd (editedDocs twoFiles 1 "b.txt" ['n', 'z']) ⟨"a.txt", 0, "a.txt", 2⟩ = some 2 ∧
    globalStart (editedDocs twoFiles 1 "b.txt" ['n', 'z']) ⟨"b.txt", 1, "b.txt", 2⟩ = some 3 :=
  ⟨fileSpans_inBounds, by decide, by decide, by decide, by decide⟩

end ShortReel.RemapBoundaries
