import ShortReel.InsertionDict
import ShortReel.LedgerFile
import ShortReel.LedgerPlacements

/-!
# The placed episodes of a stored ledger

`cut_episode_placements` and `cut_insert_index` over a ledger as it is stored: a list of any JSON values,
whose ranges may be broken, negative, or one over the other.
-/

namespace ShortReel.PlacedEpisodes

open CutPlacements InsertionDict LedgerFile LedgerPlacements SourcePlaces SourceRemap

/-- `SourceSpan`, before its offsets are checked. -/
structure StoredSpan where
  sourceFile : String
  start : ℤ
  endFile : String
  stop : ℤ

def parseSourceRange (entry : Fields) : Option StoredSpan :=
  match getField entry "source_range" with
  | .object range =>
      let sourceFile := getField range "source_file"
      match sourceFile, getField range "start", getField range "end",
        (range.lookup "end_file").getD sourceFile with
      | .string sourceFile, .int start, .int stop, .string endFile =>
          some { sourceFile, start, endFile, stop }
      | _, _, _, _ => none
  | _ => none

def entryEpisode (entry : Json) : Option ℕ :=
  (fieldsOf entry).bind fun fields => parsePositiveEpisodeNum (getField fields "episode")

section Placements

variable (nfc : String → String) (docs : List SourceDoc)

/-- The places of the files by their names, where a later file of a name takes the place of an earlier. -/
def fileOrder : Dict String ℕ :=
  ofItems (docs.zipIdx.map fun doc => (nfc doc.1.relPath, doc.2))

def fileIndex (rel : String) : Option ℕ :=
  get (fileOrder nfc docs) (nfc rel)

/-- Where the range of an entry is, when it falls into the whole source. -/
def spanPlace (span : StoredSpan) : Option Place := do
  let first ← fileIndex nfc docs span.sourceFile
  let last ← fileIndex nfc docs span.endFile
  if last < first then none
  else if span.start < 0 ∨ lengthAt docs first < span.start ∨ span.stop < 0 then none
  else if first = last ∧ span.stop < span.start then none
  else
    return { first, start := span.start.toNat, last
             stop := min span.stop.toNat (lengthAt docs last) }

def entryCandidate (entry : Json) : Option CutPlacement := do
  let fields ← fieldsOf entry
  let episode ← parsePositiveEpisodeNum (getField fields "episode")
  let span ← parseSourceRange fields
  if isCutEpisode fields then
    let place ← spanPlace nfc docs span
    return { episode, place }
  else none

def sortedCandidates (entries : List Json) : List CutPlacement :=
  (entries.filterMap (entryCandidate nfc docs)).insertionSort fun a b => sortKey a b

def cutEpisodePlacements (entries : List Json) : List CutPlacement :=
  placeCandidates (0, 0) [] (sortedCandidates nfc docs entries)

end Placements

def entryIndex (entries : List Json) (episode : ℕ) : Option ℕ :=
  entries.findIdx? fun entry => entryEpisode entry = some episode

def isCutEntry (entry : Json) : Bool :=
  (fieldsOf entry).any isCutEpisode

/-- `cut_insert_index`. Without an entry for an episode Python's `next` raises. -/
def cutInsertIndex (entries : List Json) (placements : List CutPlacement) (position : ℕ × ℕ) :
    Option ℕ :=
  let ordered := placements.insertionSort fun a b => !earlier b.position a.position
  let before := ordered.filter fun item => earlier item.position position
  let after := ordered.filter fun item => !earlier item.position position
  match before.getLast?, after.head? with
  | some item, _ => (entryIndex entries item.episode).map (· + 1)
  | none, some item => entryIndex entries item.episode
  | none, none =>
      match entries.reverse.findIdx? isCutEntry with
      | some i => some (entries.length - i)
      | none => some entries.length

def insertEntry (entries : List Json) (i : ℕ) (entry : Json) : List Json :=
  entries.take i ++ entry :: entries.drop i

section Chosen

variable {items : List CutPlacement} {cursor : ℕ × ℕ} {placed : List ℕ}

theorem placeCandidates_sublist : (placeCandidates cursor placed items).Sublist items := by
  induction items generalizing cursor placed with
  | nil => exact List.Sublist.slnil
  | cons item items ih =>
      rw [placeCandidates]
      split_ifs
      · exact ih.cons item
      · exact ih.cons_cons item

theorem placeCandidates_episodes :
    ((placeCandidates cursor placed items).map (·.episode)).Nodup ∧
      ∀ item ∈ placeCandidates cursor placed items, item.episode ∉ placed := by
  induction items generalizing cursor placed with
  | nil => exact ⟨List.nodup_nil, fun item hitem => absurd hitem List.not_mem_nil⟩
  | cons item items ih =>
      rw [placeCandidates]
      split_ifs with hskip
      · exact ih
      · obtain ⟨hnodup, hfresh⟩ := @ih item.endPosition (item.episode :: placed)
        refine ⟨List.nodup_cons.mpr ⟨fun hmem => ?_, hnodup⟩, List.forall_mem_cons.mpr ⟨?_, ?_⟩⟩
        · obtain ⟨other, hother, hsame⟩ := List.mem_map.mp hmem
          exact hfresh other hother (hsame ▸ List.mem_cons_self)
        · exact fun hmem => hskip (Or.inr hmem)
        · exact fun other hother hmem => hfresh other hother (List.mem_cons_of_mem _ hmem)

theorem placeCandidates_maximal (hsorted : items.Pairwise fun a b => sortKey a b = true)
    {item : CutPlacement} (hitem : item ∈ items) :
    item.episode ∈ placed ∨
      item.episode ∈ (placeCandidates cursor placed items).map (·.episode) ∨
      earlier item.position cursor = true ∨
      ∃ p ∈ placeCandidates cursor placed items,
        sortKey p item = true ∧ earlier item.position p.endPosition = true := by
  induction items generalizing cursor placed with
  | nil => cases hitem
  | cons x items ih =>
      obtain ⟨hfirst, hrest⟩ := List.pairwise_cons.mp hsorted
      rw [placeCandidates]
      split_ifs with hskip
      · rcases List.mem_cons.mp hitem with rfl | hmem
        · rcases hskip with hearlier | hplaced
          · exact Or.inr (Or.inr (Or.inl hearlier))
          · exact Or.inl hplaced
        · exact ih hrest hmem
      · rcases List.mem_cons.mp hitem with rfl | hmem
        · exact Or.inr (Or.inl List.mem_cons_self)
        · rcases @ih x.endPosition (x.episode :: placed) hrest hmem with
            hplaced | hchosen | hearlier | ⟨p, hp, hkey, hearlier⟩
          · rcases List.mem_cons.mp hplaced with hsame | hold
            · exact Or.inr (Or.inl (List.mem_cons.mpr (Or.inl hsame)))
            · exact Or.inl hold
          · exact Or.inr (Or.inl (List.mem_cons_of_mem _ hchosen))
          · exact Or.inr (Or.inr (Or.inr ⟨x, List.mem_cons_self, hfirst item hmem, hearlier⟩))
          · exact Or.inr (Or.inr (Or.inr ⟨p, List.mem_cons_of_mem _ hp, hkey, hearlier⟩))

end Chosen

section Placed

variable {nfc : String → String} {docs : List SourceDoc} {entries : List Json}

theorem fileIndex_lt {rel : String} {i : ℕ} (h : fileIndex nfc docs rel = some i) : i < docs.length := by
  have hmem := mem_of_mem_ofItems (mem_of_get h)
  obtain ⟨⟨doc, j⟩, hdoc, hsame⟩ := List.mem_map.mp hmem
  obtain ⟨-, rfl⟩ := Prod.mk.inj hsame
  exact (List.getElem?_eq_some_iff.mp (List.mem_zipIdx_iff_getElem?.mp hdoc)).1

theorem spanPlace_inBounds {span : StoredSpan} {p : Place} (h : spanPlace nfc docs span = some p) :
    p.InBounds docs := by
  unfold spanPlace at h
  obtain ⟨first, hfirst, h⟩ := Option.bind_eq_some_iff.mp h
  obtain ⟨last, hlast, h⟩ := Option.bind_eq_some_iff.mp h
  split_ifs at h with hfiles hoffsets hends
  cases h
  have hlt := fileIndex_lt hlast
  refine ⟨⟨Nat.le_of_not_lt hfiles, hlt, ?_, Nat.min_le_right _ _⟩, fun heq => ?_⟩
  · dsimp only
    omega
  · dsimp only at heq ⊢
    rw [heq] at hoffsets hends
    omega

theorem entryCandidate_spec {entry : Json} {item : CutPlacement}
    (h : entryCandidate nfc docs entry = some item) :
    item.place.InBounds docs ∧ entryEpisode entry = some item.episode := by
  unfold entryCandidate at h
  obtain ⟨fields, hfields, h⟩ := Option.bind_eq_some_iff.mp h
  obtain ⟨episode, hepisode, h⟩ := Option.bind_eq_some_iff.mp h
  obtain ⟨span, -, h⟩ := Option.bind_eq_some_iff.mp h
  split_ifs at h
  obtain ⟨place, hplace, h⟩ := Option.bind_eq_some_iff.mp h
  cases h
  refine ⟨spanPlace_inBounds hplace, ?_⟩
  unfold entryEpisode
  rw [hfields]
  exact hepisode

theorem sortedCandidates_pairwise :
    (sortedCandidates nfc docs entries).Pairwise fun a b => sortKey a b = true := by
  have htotal : Std.Total fun a b : CutPlacement => sortKey a b = true :=
    ⟨fun a b => Bool.or_eq_true_iff.mp (sortKey_total a b)⟩
  have htrans : IsTrans CutPlacement fun a b => sortKey a b = true := ⟨sortKey_trans⟩
  exact List.pairwise_insertionSort _ _

theorem mem_sortedCandidates {item : CutPlacement} :
    item ∈ sortedCandidates nfc docs entries ↔
      ∃ entry ∈ entries, entryCandidate nfc docs entry = some item := by
  unfold sortedCandidates
  rw [List.mem_insertionSort, List.mem_filterMap]

theorem sortedCandidates_inBounds {item : CutPlacement} (h : item ∈ sortedCandidates nfc docs entries) :
    item.place.InBounds docs := by
  obtain ⟨entry, -, hentry⟩ := mem_sortedCandidates.mp h
  exact (entryCandidate_spec hentry).1

theorem mem_placements {item : CutPlacement} (h : item ∈ cutEpisodePlacements nfc docs entries) :
    item ∈ sortedCandidates nfc docs entries :=
  mem_placeCandidates h

theorem placements_before :
    (cutEpisodePlacements nfc docs entries).Pairwise fun a b => a.place.Before b.place :=
  (@placeCandidates_before docs _ (0, 0) [] (fun _ => sortedCandidates_inBounds) ⟨0, 0, 0, 0⟩ rfl).1

theorem placements_episodes : ((cutEpisodePlacements nfc docs entries).map (·.episode)).Nodup :=
  placeCandidates_episodes.1

theorem placements_maximal {entry : Json} {item : CutPlacement} (hentry : entry ∈ entries)
    (hitem : entryCandidate nfc docs entry = some item)
    (hnew : item.episode ∉ (cutEpisodePlacements nfc docs entries).map (·.episode)) :
    ∃ p ∈ cutEpisodePlacements nfc docs entries, sortKey p item = true ∧ ¬ Apart p.place item.place := by
  have hmem := mem_sortedCandidates.mpr ⟨entry, hentry, hitem⟩
  rcases @placeCandidates_maximal _ (0, 0) [] sortedCandidates_pairwise item hmem with
    hplaced | hchosen | hearlier | ⟨p, hp, hkey, hearlier⟩
  · cases hplaced
  · exact absurd hchosen hnew
  · rw [earlier_iff] at hearlier
    omega
  · refine ⟨p, hp, hkey, ?_⟩
    have hbounds := sortedCandidates_inBounds hmem
    have hfirst := hbounds.first_le
    have hordered := hbounds.ordered
    rw [sortKey_iff, earlier_iff, not_earlier_iff, Prod.ext_iff] at hkey
    rw [earlier_iff] at hearlier
    simp only [CutPlacement.position, CutPlacement.endPosition] at hkey hearlier
    rintro (hbefore | hbefore)
    · unfold Place.Before at hbefore
      omega
    · unfold Place.Before at hbefore
      omega

end Placed

end ShortReel.PlacedEpisodes
