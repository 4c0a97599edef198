import ShortReel.PlacedEpisodes
import Mathlib.Data.List.TakeWhile

/-!
# New placed episodes

An entry that is put at `cut_insert_index`: the episodes that were placed stay placed, the new one is placed
among them, and the ledger lists them in the order of their places.
-/

namespace ShortReel.PlacedInsertions

open CutPlacements hiding cutEpisodePlacements
open LedgerFile LedgerPlacements PlacedEpisodes SourcePlaces SourceRemap

section Sorting

variable {α : Type*} {r : α → α → Prop} [DecidableRel r]

theorem orderedInsert_append {z : α} {first last : List α} (h : ∀ y ∈ last.head?, r z y) :
    (first ++ last).orderedInsert r z = first.orderedInsert r z ++ last := by
  induction first with
  | nil =>
      cases last with
      | nil => rfl
      | cons y last => exact if_pos (h y rfl)
  | cons x first ih =>
      rw [List.cons_append, List.orderedInsert_cons, List.orderedInsert_cons, ih]
      split_ifs
      · rfl
      · rfl

theorem orderedInsert_append_of_not {z : α} {first last : List α} (h : ∀ y ∈ first, ¬ r z y) :
    (first ++ last).orderedInsert r z = first ++ last.orderedInsert r z := by
  induction first with
  | nil => rfl
  | cons x first ih =>
      obtain ⟨hx, hfirst⟩ := List.forall_mem_cons.mp h
      rw [List.cons_append, List.orderedInsert_cons, if_neg hx, ih hfirst, List.cons_append]

theorem insertionSort_middle [Std.Total r] [IsTrans α r] (first last : List α) (x : α) :
    ∃ a b, (first ++ x :: last).insertionSort r = a ++ x :: b ∧
      (first ++ last).insertionSort r = a ++ b ∧
      (∀ y ∈ a, r y x) ∧ (∀ y ∈ b, r x y) ∧ ∀ y ∈ a, r x y → y ∈ first := by
  induction first with
  | nil =>
      have hsorted := List.pairwise_insertionSort r last
      refine ⟨_, _, List.insertionSort_cons_eq_take_drop r x last,
        (List.takeWhile_append_dropWhile).symm, ?_, ?_, ?_⟩
      · intro y hy
        have hnot : ¬ r x y := by simpa using List.mem_takeWhile_imp hy
        exact (Std.Total.total y x).resolve_right hnot
      · intro y hy
        have hpairs := List.pairwise_insertionSort r (x :: last)
        rw [List.insertionSort_cons_eq_take_drop] at hpairs
        exact List.rel_of_pairwise_cons (List.pairwise_append.mp hpairs).2.1 hy
      · intro y hy hxy
        have hnot : ¬ r x y := by simpa using List.mem_takeWhile_imp hy
        exact absurd hxy hnot
  | cons z first ih =>
      obtain ⟨a, b, hwith, hwithout, hfront, hback, hstable⟩ := ih
      rw [List.cons_append, List.cons_append, List.insertionSort_cons, List.insertionSort_cons, hwith,
        hwithout]
      by_cases hzx : r z x
      · refine ⟨a.orderedInsert r z, b, orderedInsert_append ?_, orderedInsert_append ?_, ?_, hback, ?_⟩
        · rintro y ⟨⟩
          exact hzx
        · intro y hy
          exact IsTrans.trans z x y hzx (hback y (List.mem_of_mem_head? hy))
        · intro y hy
          rcases (List.mem_orderedInsert r).mp hy with rfl | hmem
          · exact hzx
          · exact hfront y hmem
        · intro y hy hxy
          rcases (List.mem_orderedInsert r).mp hy with rfl | hmem
          · exact List.mem_cons_self
          · exact List.mem_cons_of_mem z (hstable y hmem hxy)
      · have hnot : ∀ y ∈ a, ¬ r z y := fun y hy hzy => hzx (IsTrans.trans z y x hzy (hfront y hy))
        refine ⟨a, b.orderedInsert r z, ?_, orderedInsert_append_of_not hnot, hfront, ?_, ?_⟩
        · rw [orderedInsert_append_of_not hnot, List.orderedInsert_cons, if_neg hzx]
        · intro y hy
          rcases (List.mem_orderedInsert r).mp hy with rfl | hmem
          · exact (Std.Total.total x y).resolve_right hzx
          · exact hback y hmem
        · intro y hy hxy
          exact List.mem_cons_of_mem z (hstable y hy hxy)

end Sorting

theorem rel_or_rel {α : Type*} {R : α → α → Prop} {items : List α} (h : items.Pairwise R) {x y : α}
    (hx : x ∈ items) (hy : y ∈ items) (hne : x ≠ y) : R x y ∨ R y x := by
  have hsymm : Std.Symm fun a b => R a b ∨ R b a := ⟨fun _ _ => Or.symm⟩
  exact List.Pairwise.forall (R := fun a b => R a b ∨ R b a) (h.imp Or.inl) hx hy hne

section Indices

variable {entries : List Json} {entry : Json} {episode i n : ℕ}

theorem exists_entryIndex (hmem : entry ∈ entries) (h : entryEpisode entry = some episode) :
    ∃ i, entryIndex entries episode = some i :=
  ⟨_, List.findIdx?_eq_some_of_exists ⟨entry, hmem, decide_eq_true h⟩⟩

theorem entryIndex_lt_length (h : entryIndex entries episode = some i) : i < entries.length :=
  (List.findIdx?_eq_some_iff_getElem.mp h).1

theorem entryIndex_lt_of_mem_take (hmem : entry ∈ entries.take n) (h : entryEpisode entry = some episode)
    (hi : entryIndex entries episode = some i) : i < n := by
  obtain ⟨j, hj⟩ := exists_entryIndex hmem h
  have hlength := entryIndex_lt_length hj
  unfold entryIndex at hi hj
  rw [← List.take_append_drop n entries, List.findIdx?_append, hj] at hi
  cases hi
  rw [List.length_take] at hlength
  omega

theorem entryIndex_insertEntry (h : entryIndex entries episode = some i)
    (hother : entryEpisode entry ≠ some episode) :
    entryIndex (insertEntry entries n entry) episode = some (if i < n then i else i + 1) := by
  unfold entryIndex at h ⊢
  unfold insertEntry
  rw [← List.take_append_drop n entries, List.findIdx?_append] at h
  rw [List.findIdx?_append, List.findIdx?_cons, if_neg (by simpa using hother)]
  cases htake : (entries.take n).findIdx? fun entry => decide (entryEpisode entry = some episode) with
  | some j =>
      rw [htake] at h
      cases h
      have hlt := (List.findIdx?_eq_some_iff_getElem.mp htake).1
      rw [List.length_take] at hlt
      rw [if_pos (by omega)]
      rfl
  | none =>
      rw [htake, Option.none_or] at h
      obtain ⟨j, hj, rfl⟩ := Option.map_eq_some_iff.mp h
      have hlt := (List.findIdx?_eq_some_iff_getElem.mp hj).1
      rw [List.length_drop] at hlt
      rw [hj, List.length_take, Nat.min_eq_left (by omega), if_neg (by omega), Option.none_or]
      simp only [Option.map_some]
      congr 1
      omega

theorem entryIndex_insertEntry_new (h : entryEpisode entry = some episode) (hn : n ≤ entries.length)
    (hfresh : ∀ old ∈ entries, entryEpisode old ≠ some episode) :
    entryIndex (insertEntry entries n entry) episode = some n := by
  unfold entryIndex insertEntry
  have htake : (entries.take n).findIdx? (fun entry => decide (entryEpisode entry = some episode)) = none :=
    List.findIdx?_eq_none_iff.mpr fun old hold => decide_eq_false (hfresh old (List.mem_of_mem_take hold))
  rw [List.findIdx?_append, htake, List.findIdx?_cons, if_pos (decide_eq_true h), List.length_take,
    Nat.min_eq_left hn]
  simp

end Indices

section Chosen

variable {items first last : List CutPlacement} {cursor : ℕ × ℕ} {placed : List ℕ} {docs : List SourceDoc}
  {item : CutPlacement}

theorem placeCandidates_append :
    ∃ cursor' placed', (∀ last, placeCandidates cursor placed (first ++ last) =
        placeCandidates cursor placed first ++ placeCandidates cursor' placed' last) ∧
      (cursor' = cursor ∨ ∃ p ∈ placeCandidates cursor placed first, cursor' = p.endPosition) ∧
      ∀ episode ∈ placed', episode ∈ placed ∨
        episode ∈ (placeCandidates cursor placed first).map (·.episode) := by
  induction first generalizing cursor placed with
  | nil => exact ⟨cursor, placed, fun _ => rfl, Or.inl rfl, fun _ => Or.inl⟩
  | cons x first ih =>
      by_cases hskip : earlier x.position cursor ∨ x.episode ∈ placed
      · obtain ⟨cursor', placed', hlast, hcursor, hplaced⟩ := @ih cursor placed
        simp only [List.cons_append, placeCandidates, if_pos hskip]
        exact ⟨cursor', placed', hlast, hcursor, hplaced⟩
      · obtain ⟨cursor', placed', hlast, hcursor, hplaced⟩ := @ih x.endPosition (x.episode :: placed)
        simp only [List.cons_append, placeCandidates, if_neg hskip]
        refine ⟨cursor', placed', fun last => congrArg (x :: ·) (hlast last), Or.inr ?_, ?_⟩
        · rcases hcursor with rfl | ⟨p, hp, rfl⟩
          · exact ⟨x, List.mem_cons_self, rfl⟩
          · exact ⟨p, List.mem_cons_of_mem x hp, rfl⟩
        · intro episode hepisode
          rw [List.map_cons, List.mem_cons]
          rcases hplaced episode hepisode with hold | hchosen
          · rcases List.mem_cons.mp hold with rfl | hold
            · exact Or.inr (Or.inl rfl)
            · exact Or.inl hold
          · exact Or.inr (Or.inr hchosen)

theorem placeCandidates_congr {placed' : List ℕ}
    (h : ∀ item ∈ items, item.episode ∈ placed ↔ item.episode ∈ placed') :
    placeCandidates cursor placed items = placeCandidates cursor placed' items := by
  induction items generalizing cursor placed placed' with
  | nil => rfl
  | cons x items ih =>
      obtain ⟨hx, hitems⟩ := List.forall_mem_cons.mp h
      rw [placeCandidates, placeCandidates, ih hitems]
      simp only [hx]
      split_ifs
      · rfl
      · refine congrArg (x :: ·) (ih fun item hitem => ?_)
        rw [List.mem_cons, List.mem_cons, hitems item hitem]

theorem sortKey_places {a b : CutPlacement} : sortKey a b = true ↔
    a.place.first < b.place.first ∨ (a.place.first = b.place.first ∧ (a.place.start < b.place.start ∨
      (a.place.start = b.place.start ∧ (a.place.last < b.place.last ∨
        (a.place.last = b.place.last ∧ a.place.stop ≤ b.place.stop))))) := by
  rw [sortKey_iff, earlier_iff, not_earlier_iff, Prod.ext_iff]
  simp only [CutPlacement.position, CutPlacement.endPosition]
  omega

theorem before_of_sortKey {p : CutPlacement} (hp : p.place.InBounds docs) (hitem : item.place.InBounds docs)
    (hapart : Apart p.place item.place) (hkey : sortKey p item = true) : p.place.Before item.place := by
  rcases hapart with hbefore | hbehind
  · exact hbefore
  · have hpFiles := hp.first_le
    have hpOrdered := hp.ordered
    have hfiles := hitem.first_le
    have hordered := hitem.ordered
    rw [sortKey_places] at hkey
    unfold Place.Before at hbehind ⊢
    omega

theorem placeCandidates_past (hitem : item.place.InBounds docs)
    (hitems : ∀ p ∈ items, p.place.InBounds docs ∧ sortKey item p = true ∧ p.episode ≠ item.episode)
    (hcursor : earlier item.position cursor = false)
    (hapart : ∀ p ∈ placeCandidates cursor placed items, Apart item.place p.place) :
    placeCandidates item.endPosition (item.episode :: placed) items =
      placeCandidates cursor placed items := by
  induction items with
  | nil => rfl
  | cons x items ih =>
      obtain ⟨⟨hbounds, hkey, hepisode⟩, hrest⟩ := List.forall_mem_cons.mp hitems
      rw [placeCandidates] at hapart
      rw [placeCandidates, placeCandidates]
      by_cases hskip : earlier x.position cursor ∨ x.episode ∈ placed
      · have hskip' : earlier x.position item.endPosition ∨ x.episode ∈ item.episode :: placed := by
          rcases hskip with hearlier | hplaced
          · have hfiles := hitem.first_le
            have hordered := hitem.ordered
            rw [← Bool.not_eq_true, earlier_iff] at hcursor
            rw [earlier_iff] at hearlier
            rw [sortKey_places] at hkey
            simp only [CutPlacement.position] at hearlier hcursor
            omega
          · exact Or.inr (List.mem_cons_of_mem _ hplaced)
        rw [if_pos hskip] at hapart
        rw [if_pos hskip, if_pos hskip']
        exact ih hrest hapart
      · rw [if_neg hskip] at hapart
        have hbefore := before_of_sortKey hitem hbounds (hapart x List.mem_cons_self) hkey
        have hchosen : ¬ (earlier x.position item.endPosition ∨ x.episode ∈ item.episode :: placed) := by
          rintro (hearlier | hplaced)
          · rw [earlier_iff] at hearlier
            simp only [CutPlacement.position, CutPlacement.endPosition] at hearlier
            unfold Place.Before at hbefore
            omega
          · rcases List.mem_cons.mp hplaced with hsame | hplaced
            · exact hepisode hsame
            · exact hskip (Or.inr hplaced)
        rw [if_neg hskip, if_neg hchosen]
        refine congrArg (x :: ·) (placeCandidates_congr fun p hp => ?_)
        have hne := (hrest p hp).2.2
        simp only [List.mem_cons, hne, false_or]

theorem placeCandidates_middle (hitem : item.place.InBounds docs)
    (hfirst : ∀ p ∈ first, p.place.InBounds docs ∧ sortKey p item = true ∧ p.episode ≠ item.episode)
    (hlast : ∀ p ∈ last, p.place.InBounds docs ∧ sortKey item p = true ∧ p.episode ≠ item.episode)
    (hapart : ∀ p ∈ placeCandidates (0, 0) [] (first ++ last), Apart item.place p.place) :
    ∃ front back, placeCandidates (0, 0) [] (first ++ last) = front ++ back ∧
      placeCandidates (0, 0) [] (first ++ item :: last) = front ++ item :: back ∧
      front.Sublist first ∧ back.Sublist last := by
  obtain ⟨cursor, placed, happend, hcursor, hplaced⟩ := @placeCandidates_append first (0, 0) []
  rw [happend] at hapart
  have hcursor : earlier item.position cursor = false := by
    rw [← Bool.not_eq_true, earlier_iff]
    rcases hcursor with rfl | ⟨p, hp, rfl⟩
    · omega
    · obtain ⟨hbounds, hkey, -⟩ := hfirst p (placeCandidates_sublist.mem hp)
      have hbefore := before_of_sortKey hbounds hitem (hapart p (List.mem_append_left _ hp)).symm hkey
      unfold Place.Before at hbefore
      simp only [CutPlacement.position, CutPlacement.endPosition]
      omega
  have hfresh : item.episode ∉ placed := by
    intro hmem
    rcases hplaced _ hmem with hnil | hchosen
    · cases hnil
    · obtain ⟨p, hp, hsame⟩ := List.mem_map.mp hchosen
      exact (hfirst p (placeCandidates_sublist.mem hp)).2.2 hsame
  have hnot : ¬ (earlier item.position cursor ∨ item.episode ∈ placed) := by
    rw [hcursor]
    simp [hfresh]
  refine ⟨_, _, happend last, ?_, placeCandidates_sublist, placeCandidates_sublist⟩
  rw [happend, placeCandidates, if_neg hnot, placeCandidates_past hitem hlast hcursor]
  exact fun p hp => hapart p (List.mem_append_right _ hp)

end Chosen

def InOrder (entries : List Json) (placements : List CutPlacement) : Prop :=
  placements.Pairwise fun a b =>
    ∀ i j, entryIndex entries a.episode = some i → entryIndex entries b.episode = some j → i < j

structure NewPlaced (nfc : String → String) (docs : List SourceDoc) (entries : List Json) (entry : Json)
    (item : CutPlacement) : Prop where
  candidate : entryCandidate nfc docs entry = some item
  fresh : ∀ old ∈ entries, entryEpisode old ≠ some item.episode
  apart : ∀ p ∈ cutEpisodePlacements nfc docs entries, Apart item.place p.place

/-- The end of a new episode tells what is before it, and so does its start, unless it has a text and an
empty episode is placed there. -/
def Parts (placements : List CutPlacement) (item : CutPlacement) (position : ℕ × ℕ) : Prop :=
  position = item.endPosition ∨ (position = item.position ∧
    ∀ p ∈ placements, p.position = item.position → p.endPosition = p.position →
      item.endPosition = item.position)

section Inserted

variable {nfc : String → String} {docs : List SourceDoc} {entries : List Json} {entry : Json}
  {item : CutPlacement} {position : ℕ × ℕ} {placements : List CutPlacement} {n : ℕ}

theorem Parts.sortKey {p : CutPlacement} (h : Parts placements item position) (hmem : p ∈ placements)
    (hp : p.place.InBounds docs) (hitem : item.place.InBounds docs) (hapart : Apart item.place p.place) :
    (earlier p.position position = true → sortKey item p = false) ∧
      (earlier p.position position = false → sortKey item p = true) := by
  have hpFiles := hp.first_le
  have hpOrdered := hp.ordered
  have hfiles := hitem.first_le
  have hordered := hitem.ordered
  rw [← Bool.not_eq_true, ← Bool.not_eq_true, earlier_iff, sortKey_places]
  unfold Apart Place.Before at hapart
  rcases h with rfl | ⟨rfl, hempty⟩
  · simp only [CutPlacement.position, CutPlacement.endPosition]
    omega
  · have hempty := hempty p hmem
    simp only [CutPlacement.position, CutPlacement.endPosition, Prod.ext_iff] at hempty ⊢
    omega

theorem placements_sortKey :
    (cutEpisodePlacements nfc docs entries).Pairwise fun a b => sortKey a b = true :=
  sortedCandidates_pairwise.sublist placeCandidates_sublist

theorem ordered_placements :
    (cutEpisodePlacements nfc docs entries).insertionSort (fun a b => !earlier b.position a.position) =
      cutEpisodePlacements nfc docs entries := by
  refine List.Pairwise.insertionSort_eq (placements_sortKey.imp fun {a b} hkey => ?_)
  rw [sortKey_places] at hkey
  rw [not_earlier_iff]
  simp only [CutPlacement.position]
  omega

theorem InOrder.lt (h : InOrder entries (cutEpisodePlacements nfc docs entries)) {p q : CutPlacement}
    (hp : p ∈ cutEpisodePlacements nfc docs entries) (hq : q ∈ cutEpisodePlacements nfc docs entries)
    (hearlier : earlier p.position q.position = true) {i j : ℕ}
    (hi : entryIndex entries p.episode = some i) (hj : entryIndex entries q.episode = some j) : i < j := by
  have hne : p ≠ q := by
    rintro rfl
    rw [earlier_iff] at hearlier
    omega
  rcases rel_or_rel (placements_sortKey.and h) hp hq hne with ⟨-, hlisted⟩ | ⟨hkey, -⟩
  · exact hlisted i j hi hj
  · rw [sortKey_places] at hkey
    rw [earlier_iff] at hearlier
    simp only [CutPlacement.position] at hearlier
    omega

theorem exists_index_of_placed {p : CutPlacement} (hp : p ∈ cutEpisodePlacements nfc docs entries) :
    ∃ i, entryIndex entries p.episode = some i := by
  obtain ⟨old, hold, hcandidate⟩ := mem_sortedCandidates.mp (mem_placements hp)
  exact exists_entryIndex hold (entryCandidate_spec hcandidate).2

theorem cutInsertIndex_spec (h : InOrder entries (cutEpisodePlacements nfc docs entries)) :
    ∃ n, cutInsertIndex entries (cutEpisodePlacements nfc docs entries) position = some n ∧
      n ≤ entries.length ∧
      ∀ p ∈ cutEpisodePlacements nfc docs entries, ∀ i, entryIndex entries p.episode = some i →
        (earlier p.position position = true → i < n) ∧ (earlier p.position position = false → n ≤ i) := by
  unfold cutInsertIndex
  rw [ordered_placements]
  dsimp only
  generalize hbefore : (cutEpisodePlacements nfc docs entries).filter
    (fun item => earlier item.position position) = before
  generalize hafter : (cutEpisodePlacements nfc docs entries).filter
    (fun item => !earlier item.position position) = after
  cases hlast : before.getLast? with
  | some b =>
      obtain ⟨front, rfl⟩ := List.getLast?_eq_some_iff.mp hlast
      have hb : b ∈ cutEpisodePlacements nfc docs entries ∧ earlier b.position position = true := by
        have hmem : b ∈ front ++ [b] := List.mem_append_right front List.mem_cons_self
        rwa [← hbefore, List.mem_filter] at hmem
      obtain ⟨i, hi⟩ := exists_index_of_placed hb.1
      refine ⟨i + 1, by simp only [hi, Option.map_some], entryIndex_lt_length hi,
        fun p hp j hj => ⟨fun hearlier => ?_, fun hbehind => ?_⟩⟩
      · have hmem : p ∈ front ++ [b] := by
          rw [← hbefore]
          exact List.mem_filter.mpr ⟨hp, hearlier⟩
        have hpairs : (front ++ [b]).Pairwise fun a b => ∀ i j, entryIndex entries a.episode = some i →
            entryIndex entries b.episode = some j → i < j := by
          rw [← hbefore]
          exact List.Pairwise.sublist List.filter_sublist h
        rcases List.mem_append.mp hmem with hfront | hsame
        · exact Nat.lt_succ_of_lt
            ((List.pairwise_append.mp hpairs).2.2 p hfront b List.mem_cons_self j i hj hi)
        · obtain rfl := List.mem_singleton.mp hsame
          obtain rfl := Option.some.inj (hi.symm.trans hj)
          exact Nat.lt_succ_self i
      · refine h.lt hb.1 hp ?_ hi hj
        have hearlier := hb.2
        rw [← Bool.not_eq_true, earlier_iff] at hbehind
        rw [earlier_iff] at hearlier ⊢
        omega
  | none =>
      have hnone : ∀ p ∈ cutEpisodePlacements nfc docs entries, earlier p.position position = false := by
        intro p hp
        rw [List.getLast?_eq_none_iff.mp hlast, List.filter_eq_nil_iff] at hbefore
        exact Bool.eq_false_iff.mpr (hbefore p hp)
      cases hhead : after.head? with
      | some q =>
          obtain ⟨back, rfl⟩ := List.head?_eq_some_iff.mp hhead
          have hq : q ∈ cutEpisodePlacements nfc docs entries := by
            have hmem : q ∈ q :: back := List.mem_cons_self
            rw [← hafter] at hmem
            exact List.mem_of_mem_filter hmem
          obtain ⟨i, hi⟩ := exists_index_of_placed hq
          refine ⟨i, hi, (entryIndex_lt_length hi).le, fun p hp j hj => ⟨fun hearlier => ?_, fun _ => ?_⟩⟩
          · rw [hnone p hp] at hearlier
            cases hearlier
          · have hmem : p ∈ q :: back := by
              rw [← hafter]
              exact List.mem_filter.mpr ⟨hp, by rw [hnone p hp]; rfl⟩
            have hpairs : (q :: back).Pairwise fun a b => ∀ i j, entryIndex entries a.episode = some i →
                entryIndex entries b.episode = some j → i < j := by
              rw [← hafter]
              exact List.Pairwise.sublist List.filter_sublist h
            rcases List.mem_cons.mp hmem with rfl | hback
            · obtain rfl := Option.some.inj (hi.symm.trans hj)
              exact le_rfl
            · exact (List.rel_of_pairwise_cons hpairs hback i j hi hj).le
      | none =>
          have hempty : ∀ p ∈ cutEpisodePlacements nfc docs entries, False := by
            intro p hp
            rw [List.head?_eq_none_iff.mp hhead, List.filter_eq_nil_iff] at hafter
            exact hafter p hp (by rw [hnone p hp]; rfl)
          dsimp only
          cases entries.reverse.findIdx? isCutEntry with
          | some i => exact ⟨_, rfl, Nat.sub_le _ _, fun p hp => (hempty p hp).elim⟩
          | none => exact ⟨_, rfl, le_rfl, fun p hp => (hempty p hp).elim⟩

theorem inOrder_middle {front back : List CutPlacement} (h : InOrder entries (front ++ back))
    (hlisted : ∀ p ∈ front ++ back, p.episode ≠ item.episode ∧ ∃ i, entryIndex entries p.episode = some i)
    (hepisode : entryEpisode entry = some item.episode)
    (hitem : entryIndex (insertEntry entries n entry) item.episode = some n)
    (hfront : ∀ p ∈ front, ∀ i, entryIndex entries p.episode = some i → i < n)
    (hback : ∀ p ∈ back, ∀ i, entryIndex entries p.episode = some i → n ≤ i) :
    InOrder (insertEntry entries n entry) (front ++ item :: back) := by
  have hshift : ∀ p ∈ front ++ back, ∃ i, entryIndex entries p.episode = some i ∧
      entryIndex (insertEntry entries n entry) p.episode = some (if i < n then i else i + 1) := by
    intro p hp
    obtain ⟨hne, i, hi⟩ := hlisted p hp
    refine ⟨i, hi, entryIndex_insertEntry hi fun hsame => hne ?_⟩
    exact Option.some.inj (hsame.symm.trans hepisode)
  have hshifted : InOrder (insertEntry entries n entry) (front ++ back) := by
    refine h.imp_of_mem fun {p q} hp hq hpq i j hi hj => ?_
    obtain ⟨i', hi', hiNew⟩ := hshift p hp
    obtain ⟨j', hj', hjNew⟩ := hshift q hq
    have hlt := hpq i' j' hi' hj'
    rw [hiNew] at hi
    rw [hjNew] at hj
    cases hi
    cases hj
    split_ifs <;> omega
  obtain ⟨hfrontPairs, hbackPairs, hacross⟩ := List.pairwise_append.mp hshifted
  refine List.pairwise_append.mpr ⟨hfrontPairs, List.pairwise_cons.mpr ⟨?_, hbackPairs⟩, ?_⟩
  · intro q hq i j hi hj
    obtain ⟨j', hj', hjNew⟩ := hshift q (List.mem_append_right front hq)
    have hle := hback q hq j' hj'
    rw [hitem] at hi
    rw [hjNew, if_neg (by omega)] at hj
    cases hi
    cases hj
    omega
  · intro p hp q hq
    rcases List.mem_cons.mp hq with rfl | hq
    · intro i j hi hj
      obtain ⟨i', hi', hiNew⟩ := hshift p (List.mem_append_left back hp)
      have hlt := hfront p hp i' hi'
      rw [hiNew, if_pos hlt] at hi
      rw [hitem] at hj
      cases hi
      cases hj
      exact hlt
    · exact hacross p hp q hq

theorem inOrder_insertEntry (hnew : NewPlaced nfc docs entries entry item)
    (hparts : Parts (cutEpisodePlacements nfc docs entries) item position)
    (h : InOrder entries (cutEpisodePlacements nfc docs entries)) :
    ∃ n, cutInsertIndex entries (cutEpisodePlacements nfc docs entries) position = some n ∧
      (cutEpisodePlacements nfc docs (insertEntry entries n entry)).Perm
        (item :: cutEpisodePlacements nfc docs entries) ∧
      InOrder (insertEntry entries n entry)
        (cutEpisodePlacements nfc docs (insertEntry entries n entry)) := by
  obtain ⟨n, hn, hlength, hindex⟩ := @cutInsertIndex_spec nfc docs entries position h
  obtain ⟨hbounds, hepisode⟩ := entryCandidate_spec hnew.candidate
  have htotal : Std.Total fun a b : CutPlacement => sortKey a b = true :=
    ⟨fun a b => Bool.or_eq_true_iff.mp (sortKey_total a b)⟩
  have htrans : IsTrans CutPlacement fun a b => sortKey a b = true := ⟨sortKey_trans⟩
  obtain ⟨a, b, hwith, hwithout, hfront, hback, hstable⟩ :=
    insertionSort_middle (r := fun a b : CutPlacement => sortKey a b = true)
      ((entries.take n).filterMap (entryCandidate nfc docs))
      ((entries.drop n).filterMap (entryCandidate nfc docs)) item
  have hold : sortedCandidates nfc docs entries = a ++ b := by
    rw [← hwithout, ← List.filterMap_append, List.take_append_drop]
    rfl
  have hadded : sortedCandidates nfc docs (insertEntry entries n entry) = a ++ item :: b := by
    rw [← hwith, ← List.filterMap_cons_some hnew.candidate, ← List.filterMap_append]
    rfl
  have hcandidate : ∀ p ∈ a ++ b, p.place.InBounds docs ∧ p.episode ≠ item.episode := by
    intro p hp
    rw [← hold] at hp
    obtain ⟨old, hmem, hp⟩ := mem_sortedCandidates.mp hp
    obtain ⟨hplace, hsame⟩ := entryCandidate_spec hp
    exact ⟨hplace, fun heq => hnew.fresh old hmem (heq ▸ hsame)⟩
  have hapart := hnew.apart
  unfold PlacedEpisodes.cutEpisodePlacements at hapart
  rw [hold] at hapart
  obtain ⟨front, back, hchosen, hinserted, hfrontSub, hbackSub⟩ := placeCandidates_middle hbounds
    (fun p hp => ⟨(hcandidate p (List.mem_append_left b hp)).1, hfront p hp,
      (hcandidate p (List.mem_append_left b hp)).2⟩)
    (fun p hp => ⟨(hcandidate p (List.mem_append_right a hp)).1, hback p hp,
      (hcandidate p (List.mem_append_right a hp)).2⟩) hapart
  have hplaced : cutEpisodePlacements nfc docs entries = front ++ back := by
    rw [← hchosen, ← hold]
    rfl
  have hplacedNew : cutEpisodePlacements nfc docs (insertEntry entries n entry) = front ++ item :: back := by
    rw [← hinserted, ← hadded]
    rfl
  have hkeys := fun p hp => hparts.sortKey hp (sortedCandidates_inBounds (mem_placements hp)) hbounds
    (hnew.apart p hp)
  rw [hplaced] at h hindex hkeys
  have hlisted : ∀ p ∈ front ++ back, p.episode ≠ item.episode ∧
      ∃ i, entryIndex entries p.episode = some i := by
    intro p hp
    have hmem := (List.mem_append.mp hp).imp hfrontSub.mem hbackSub.mem
    exact ⟨(hcandidate p (List.mem_append.mpr hmem)).2, exists_index_of_placed (hplaced ▸ hp)⟩
  refine ⟨n, hn, ?_, ?_⟩
  · rw [hplaced, hplacedNew]
    exact List.perm_middle
  · rw [hplacedNew]
    refine inOrder_middle h hlisted hepisode (entryIndex_insertEntry_new hepisode hlength hnew.fresh) ?_ ?_
    · intro p hp i hi
      have hmem : p ∈ front ++ back := List.mem_append_left back hp
      cases hearlier : earlier p.position position with
      | true => exact (hindex p hmem i hi).1 hearlier
      | false =>
          -- It is as far as the new one, and the sort kept it ahead.
          have hfirst := hstable p (hfrontSub.mem hp) ((hkeys p hmem).2 hearlier)
          obtain ⟨old, hold, hcand⟩ := List.mem_filterMap.mp hfirst
          exact entryIndex_lt_of_mem_take hold (entryCandidate_spec hcand).2 hi
    · intro p hp i hi
      have hmem : p ∈ front ++ back := List.mem_append_right front hp
      cases hearlier : earlier p.position position with
      | true =>
          have hkey := hback p (hbackSub.mem hp)
          rw [(hkeys p hmem).1 hearlier] at hkey
          cases hkey
      | false => exact (hindex p hmem i hi).2 hearlier

end Inserted

/-- What is placed is in the source, one behind the other, once an episode, and leaves no room where a rest
could start; an entry that is inserted for a new episode keeps the ledger in order. -/
theorem placements_listed (nfc : String → String) (docs : List SourceDoc) (entries : List Json) :
    (∀ p ∈ cutEpisodePlacements nfc docs entries, p.place.InBounds docs) ∧
    (cutEpisodePlacements nfc docs entries).Pairwise (fun a b => a.place.Before b.place) ∧
    ((cutEpisodePlacements nfc docs entries).map (·.episode)).Nodup ∧
    (∀ entry ∈ entries, ∀ item, entryCandidate nfc docs entry = some item →
      item.episode ∉ (cutEpisodePlacements nfc docs entries).map (·.episode) →
      ∃ p ∈ cutEpisodePlacements nfc docs entries, sortKey p item = true ∧ ¬ Apart p.place item.place) ∧
    ∀ entry item position, NewPlaced nfc docs entries entry item →
      Parts (cutEpisodePlacements nfc docs entries) item position →
      InOrder entries (cutEpisodePlacements nfc docs entries) →
      ∃ n, cutInsertIndex entries (cutEpisodePlacements nfc docs entries) position = some n ∧
        (cutEpisodePlacements nfc docs (insertEntry entries n entry)).Perm
          (item :: cutEpisodePlacements nfc docs entries) ∧
        InOrder (insertEntry entries n entry)
          (cutEpisodePlacements nfc docs (insertEntry entries n entry)) := by
  refine ⟨?_, placements_before, placements_episodes, ?_, ?_⟩
  · exact fun p hp => sortedCandidates_inBounds (mem_placements hp)
  · exact fun entry hentry item => placements_maximal hentry
  · exact fun entry item position => inOrder_insertEntry

def rangeEntry (episode start stop : ℤ) : Json :=
  .object [("episode", .int episode), ("source_range",
    .object [("source_file", .string "a.txt"), ("start", .int start), ("end", .int stop)])]

def nineLetters : List SourceDoc :=
  [{ relPath := "a.txt", text := List.replicate 9 'a' }]

theorem rangeEntry_candidates :
    entryCandidate id nineLetters (rangeEntry 2 5 9) = some ⟨2, ⟨0, 5, 0, 9⟩⟩ ∧
      entryEpisode (rangeEntry 1 5 5) = some 1 ∧ entryEpisode (rangeEntry 1 0 5) = some 1 := by
  decide

/-- A new text goes ahead of an empty episode at its start, which is placed ahead of it. -/
theorem inserted_before_empty :
    InOrder [rangeEntry 1 5 5] (cutEpisodePlacements id nineLetters [rangeEntry 1 5 5]) ∧
      NewPlaced id nineLetters [rangeEntry 1 5 5] (rangeEntry 2 5 9) ⟨2, ⟨0, 5, 0, 9⟩⟩ ∧
      cutInsertIndex [rangeEntry 1 5 5] (cutEpisodePlacements id nineLetters [rangeEntry 1 5 5]) (0, 5) =
        some 0 ∧
      ¬ InOrder (insertEntry [rangeEntry 1 5 5] 0 (rangeEntry 2 5 9))
        (cutEpisodePlacements id nineLetters (insertEntry [rangeEntry 1 5 5] 0 (rangeEntry 2 5 9))) := by
  have hold : cutEpisodePlacements id nineLetters [rangeEntry 1 5 5] = [⟨1, ⟨0, 5, 0, 5⟩⟩] := by decide
  have hadded : cutEpisodePlacements id nineLetters [rangeEntry 2 5 9, rangeEntry 1 5 5] =
      [⟨1, ⟨0, 5, 0, 5⟩⟩, ⟨2, ⟨0, 5, 0, 9⟩⟩] := by decide
  obtain ⟨hcandidate, hepisode, -⟩ := rangeEntry_candidates
  refine ⟨?_, ⟨hcandidate, ?_, ?_⟩, ?_, ?_⟩
  · rw [hold]
    exact List.pairwise_singleton _ _
  · intro old hmem
    rw [List.mem_singleton.mp hmem, hepisode]
    decide
  · intro p hp
    rw [hold] at hp
    rw [List.mem_singleton.mp hp]
    exact Or.inr (Or.inr ⟨rfl, le_rfl⟩)
  · rw [hold]
    decide
  · intro horder
    change InOrder [rangeEntry 2 5 9, rangeEntry 1 5 5]
      (cutEpisodePlacements id nineLetters [rangeEntry 2 5 9, rangeEntry 1 5 5]) at horder
    rw [hadded] at horder
    have hlt := (List.pairwise_cons.mp horder).1 _ List.mem_cons_self 1 0 (by decide) (by decide)
    exact absurd hlt (by decide)

theorem placements_listed_behind :
    ∃ n, cutInsertIndex [rangeEntry 1 0 5] (cutEpisodePlacements id nineLetters [rangeEntry 1 0 5]) (0, 5) =
        some n ∧
      InOrder (insertEntry [rangeEntry 1 0 5] n (rangeEntry 2 5 9))
        (cutEpisodePlacements id nineLetters (insertEntry [rangeEntry 1 0 5] n (rangeEntry 2 5 9))) := by
  have hold : cutEpisodePlacements id nineLetters [rangeEntry 1 0 5] = [⟨1, ⟨0, 0, 0, 5⟩⟩] := by decide
  obtain ⟨hcandidate, -, hepisode⟩ := rangeEntry_candidates
  have hnew : NewPlaced id nineLetters [rangeEntry 1 0 5] (rangeEntry 2 5 9) ⟨2, ⟨0, 5, 0, 9⟩⟩ := by
    refine ⟨hcandidate, fun old hmem => ?_, fun p hp => ?_⟩
    · rw [List.mem_singleton.mp hmem, hepisode]
      decide
    · rw [hold] at hp
      rw [List.mem_singleton.mp hp]
      exact Or.inr (Or.inr ⟨rfl, le_rfl⟩)
  have hparts : Parts (cutEpisodePlacements id nineLetters [rangeEntry 1 0 5]) ⟨2, ⟨0, 5, 0, 9⟩⟩ (0, 5) := by
    refine Or.inr ⟨rfl, fun p hp hsame => ?_⟩
    rw [hold] at hp
    rw [List.mem_singleton.mp hp] at hsame
    exact absurd hsame (by decide)
  have horder : InOrder [rangeEntry 1 0 5] (cutEpisodePlacements id nineLetters [rangeEntry 1 0 5]) := by
    rw [hold]
    exact List.pairwise_singleton _ _
  obtain ⟨n, hn, -, hlisted⟩ := (placements_listed id nineLetters [rangeEntry 1 0 5]).2.2.2.2
    (rangeEntry 2 5 9) ⟨2, ⟨0, 5, 0, 9⟩⟩ (0, 5) hnew hparts horder
  exact ⟨n, hn, hlisted⟩

end ShortReel.PlacedInsertions
