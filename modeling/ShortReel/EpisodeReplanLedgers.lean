import Mathlib.Data.List.TakeWhile
import ShortReel.EpisodeReplanOrder
import ShortReel.ManualSplitSafety
import ShortReel.OrderedLedgers

/-!
# Ledgers that adopt a candidate

When the cut episodes of a ledger are in order and none of them surrounds the start of a candidate,
those that stay are ahead of the start: the cut episodes are in order behind an adoption as well.
-/

namespace ShortReel.EpisodeReplan

open SourceRemap SourcePlaces CutPlacements EpisodeLedger LedgerPlacements OrderedLedgers

section Specification

variable (docs : List SourceDoc)

def startPosition (candidate : ReplanCandidate) : Option (ℕ × ℕ) :=
  candidate.start.bind fun found => (index docs found.1).map (·, found.2)

def draftPlace (draft : Draft) : Option Place :=
  draft.span.bind (place docs)

/-- The episodes of a candidate have a text, each in one file, and none starts ahead of the start or
of the end of the one in front of it. -/
structure FollowsStart (candidate : ReplanCandidate) (start : ℕ × ℕ) : Prop where
  starts : startPosition docs candidate = some start
  placed : ∀ draft ∈ candidate.episodes, ∃ p, draftPlace docs draft = some p ∧
    p.first = p.last ∧ p.start < p.stop ∧ earlier (p.first, p.start) start = false
  before : (candidate.episodes.filterMap (draftPlace docs)).Pairwise Place.Before

def StartFree (start : ℕ × ℕ) (entries : List LedgerEntry) : Prop :=
  ∀ entry ∈ entries, ∀ p, cutPlace docs entry = some p →
    earlier (p.first, p.start) start = false ∨ earlier start (p.last, p.stop) = false

def isReplaced (candidate : ReplanCandidate) (start : ℕ × ℕ) (entry : LedgerEntry) : Bool :=
  (cutPlace docs entry).any fun p =>
    candidate.fromBeginning || !earlier (p.first, p.start) start

end Specification

structure Adopted (before after : Project) (candidate : ReplanCandidate) (start : ℕ × ℕ)
    (newIds : List ℕ) : Prop where
  ids : after.ids.Nodup
  fresh : ∀ id ∈ newIds, before.highWater < id ∧ ∀ old ∈ before.ids, old < id
  count : newIds.length = candidate.episodes.length
  candidates : after.entries.filter (·.episode ∈ newIds) =
    List.zipWith (newEntry before) candidate.episodes newIds
  kept : ∀ entry ∈ before.entries, isReplaced before.docs candidate start entry = false →
    entry ∈ after.entries
  removed : ∀ entry ∈ before.entries, isReplaced before.docs candidate start entry = true →
    before.hasProducts entry = false → entry.episode ∉ after.ids
  retired : (before.entries.filter fun entry =>
    isReplaced before.docs candidate start entry && before.hasProducts entry).map retire <:+
      after.entries
  front : before.entries.takeWhile (!isReplaced before.docs candidate start ·) <+: after.entries
  placed : ∀ entry ∈ after.entries, isCutEpisode entry = true →
    ∃ p, cutPlace after.docs entry = some p
  ordered : (after.entries.filterMap (cutPlace after.docs)).Pairwise Place.Before

section Replaced

variable {docs : List SourceDoc} {candidate : ReplanCandidate} {start : ℕ × ℕ}

theorem replacedIds_eq {placements : List CutPlacement} {episode : ℕ} {entries : List LedgerEntry}
    (hplaced : ∀ entry ∈ entries, isCutEpisode entry = true → ∃ p, cutPlace docs entry = some p)
    (hfind : ∀ entry ∈ entries,
      placements.find? (·.episode = entry.episode) = placementOf docs entry) (seenFrom : Bool) :
    replacedIds placements episode start candidate.fromBeginning seenFrom entries =
      (entries.filter (isReplaced docs candidate start)).map (·.episode) := by
  induction entries generalizing seenFrom with
  | nil => rfl
  | cons entry entries ih =>
      obtain ⟨hentry, hrest⟩ := List.forall_mem_cons.mp hplaced
      obtain ⟨hfound, hfind⟩ := List.forall_mem_cons.mp hfind
      rw [replacedIds, List.filter_cons]
      by_cases hcut : isCutEpisode entry = true
      · obtain ⟨p, hp⟩ := hentry hcut
        have hreplaced : isReplaced docs candidate start entry =
            (candidate.fromBeginning || !earlier (p.first, p.start) start) := by
          rw [isReplaced, hp, Option.any_some]
        have hplacement : placementOf docs entry = some ⟨entry.episode, p⟩ := by
          rw [placementOf, hp, Option.map_some]
        rw [if_pos hcut, hfound, hplacement]
        simp only [ih hrest hfind, CutPlacement.position, ← hreplaced]
        split_ifs
        · rfl
        · rfl
      · have hnone : cutPlace docs entry = none := if_neg hcut
        rw [if_neg hcut, isReplaced, hnone, Option.any_none, if_neg Bool.false_ne_true]
        exact ih hrest hfind seenFrom

end Replaced

section Parts

variable {project : Project} {candidate : ReplanCandidate} {start : ℕ × ℕ}

def replacedOf (project : Project) (candidate : ReplanCandidate) (start : ℕ × ℕ) : List ℕ :=
  (project.entries.filter (isReplaced project.docs candidate start)).map (·.episode)

theorem mem_replacedOf (hids : project.ids.Nodup) {entry : LedgerEntry}
    (hentry : entry ∈ project.entries) :
    entry.episode ∈ replacedOf project candidate start ↔
      isReplaced project.docs candidate start entry = true := by
  refine ⟨fun hmem => ?_, fun h => List.mem_map_of_mem (List.mem_filter.mpr ⟨hentry, h⟩)⟩
  obtain ⟨other, hother, hsame⟩ := List.mem_map.mp hmem
  obtain ⟨hother, hreplaced⟩ := List.mem_filter.mp hother
  rwa [← List.inj_on_of_nodup_map hids hother hentry hsame]

theorem firstReplaced_eq (hids : project.ids.Nodup) :
    firstReplaced project.ids (replacedOf project candidate start) =
      project.entries.findIdx (isReplaced project.docs candidate start) := by
  unfold firstReplaced Project.ids
  rw [List.findIdx_map]
  refine le_antisymm ?_ ?_
  · exact List.findIdx_le_findIdx fun entry hentry hreplaced =>
      decide_eq_true ((mem_replacedOf hids hentry).mpr hreplaced)
  · exact List.findIdx_le_findIdx fun entry hentry hmem =>
      (mem_replacedOf hids hentry).mp (of_decide_eq_true hmem)

theorem take_firstReplaced (hids : project.ids.Nodup) :
    project.entries.take (firstReplaced project.ids (replacedOf project candidate start)) =
      project.entries.takeWhile (!isReplaced project.docs candidate start ·) := by
  rw [firstReplaced_eq hids, List.takeWhile_eq_take_findIdx_not]
  simp only [Bool.not_not]

theorem drop_firstReplaced (hids : project.ids.Nodup) :
    project.entries.drop (firstReplaced project.ids (replacedOf project candidate start)) =
      project.entries.dropWhile (!isReplaced project.docs candidate start ·) := by
  rw [firstReplaced_eq hids, List.dropWhile_eq_drop_findIdx_not]
  simp only [Bool.not_not]

theorem isReplaced_iff {docs : List SourceDoc} {entry : LedgerEntry} :
    isReplaced docs candidate start entry = true ↔ ∃ p, cutPlace docs entry = some p ∧
      (candidate.fromBeginning = true ∨ earlier (p.first, p.start) start = false) := by
  rw [isReplaced, Option.any_eq_true]
  refine exists_congr fun p => and_congr_right fun _ => ?_
  rw [Bool.or_eq_true, Bool.not_eq_true']

theorem cutPlace_of_stays (horder : InOrder project.docs project.entries) {entry : LedgerEntry}
    (hback : entry ∈ project.entries.dropWhile (!isReplaced project.docs candidate start ·))
    (hstays : isReplaced project.docs candidate start entry = false) :
    cutPlace project.docs entry = none := by
  cases hplace : cutPlace project.docs entry with
  | none => rfl
  | some p =>
      exfalso
      have hsublist := @List.dropWhile_sublist _ project.entries
        (!isReplaced project.docs candidate start ·)
      have hhead := List.head_dropWhile_not (!isReplaced project.docs candidate start ·)
        (List.ne_nil_of_mem hback)
      cases hdrop : project.entries.dropWhile (!isReplaced project.docs candidate start ·) with
      | nil =>
          rw [hdrop] at hback
          cases hback
      | cons head tail =>
          simp only [hdrop, List.head_cons, Bool.not_eq_false'] at hhead
          rw [hdrop] at hback hsublist
          obtain ⟨q, hq, hfrom⟩ := isReplaced_iff.mp hhead
          obtain ⟨hcut, -⟩ := cutPlace_eq_some_iff.mp hq
          obtain ⟨q', hq', hbounds⟩ :=
            horder.placed head (hsublist.subset List.mem_cons_self) hcut
          obtain rfl := Option.some.inj (hq.symm.trans hq')
          rcases List.mem_cons.mp hback with rfl | htail
          · rw [hhead] at hstays
            cases hstays
          · have hpairs := (horder.before.sublist (hsublist.filterMap _))
            rw [List.filterMap_cons_some hq] at hpairs
            have hbefore := List.rel_of_pairwise_cons hpairs
              (List.mem_filterMap.mpr ⟨entry, htail, hplace⟩)
            have hreplaced : isReplaced project.docs candidate start entry = true := by
              refine isReplaced_iff.mpr ⟨p, hplace, hfrom.imp_right fun hfrom => ?_⟩
              have hfirst := hbounds.first_le
              have hordered := hbounds.ordered
              unfold Place.Before at hbefore
              rw [← Bool.not_eq_true, earlier_iff] at hfrom ⊢
              omega
            rw [hreplaced] at hstays
            cases hstays

theorem ends_of_front
    (hfree : candidate.fromBeginning = true ∨ StartFree project.docs start project.entries)
    {entry : LedgerEntry} {p : Place} (hplace : cutPlace project.docs entry = some p)
    (hfront : entry ∈ project.entries.takeWhile (!isReplaced project.docs candidate start ·)) :
    earlier start (p.last, p.stop) = false := by
  have hstays := List.mem_takeWhile_imp hfront
  have hentry := (List.takeWhile_sublist _).subset hfront
  rw [Bool.not_eq_true', ← Bool.not_eq_true, isReplaced_iff] at hstays
  rcases hfree with hall | hfree
  · exact absurd ⟨p, hplace, Or.inl hall⟩ hstays
  · rcases hfree entry hentry p hplace with hbehind | hends
    · exact absurd ⟨p, hplace, Or.inr hbehind⟩ hstays
    · exact hends

theorem slotEntry_old (hids : project.ids.Nodup) {retired : List ℕ} {news : List LedgerEntry}
    {entry : LedgerEntry} (hentry : entry ∈ project.entries) :
    slotEntry project retired news (.old entry.episode) =
      some (if entry.episode ∈ retired then retire entry else entry) := by
  have hfind : project.entries.find? (fun other => other.episode = entry.episode) = some entry := by
    obtain ⟨found, hfound⟩ := Option.isSome_iff_exists.mp (List.find?_isSome.mpr
      ⟨entry, hentry, decide_eq_true rfl⟩ : (project.entries.find? fun other =>
        decide (other.episode = entry.episode)).isSome = true)
    have hsame := List.find?_some hfound
    rw [hfound, List.inj_on_of_nodup_map hids (List.mem_of_find?_eq_some hfound) hentry
      (of_decide_eq_true hsame)]
  unfold slotEntry
  simp only [hfind]
  split_ifs
  · rfl
  · rfl

theorem slotEntries {retired : List ℕ} {news entries : List LedgerEntry}
    {f : LedgerEntry → LedgerEntry} (hslots : ∀ entry ∈ entries,
      slotEntry project retired news (.old entry.episode) = some (f entry)) :
    ((entries.map (·.episode)).map Slot.old).filterMap (slotEntry project retired news) =
      entries.map f := by
  induction entries with
  | nil => rfl
  | cons entry entries ih =>
      obtain ⟨hentry, hrest⟩ := List.forall_mem_cons.mp hslots
      rw [List.map_cons, List.map_cons, List.filterMap_cons_some hentry, List.map_cons, ih hrest]

def retiredEntries (project : Project) (candidate : ReplanCandidate) (start : ℕ × ℕ) :
    List LedgerEntry :=
  project.entries.filter fun entry =>
    isReplaced project.docs candidate start entry && project.hasProducts entry

theorem filter_products (hids : project.ids.Nodup) :
    (replacedOf project candidate start).filter (fun episode =>
      project.entries.any fun entry => entry.episode = episode ∧ project.hasProducts entry) =
        (retiredEntries project candidate start).map (·.episode) := by
  unfold replacedOf retiredEntries
  rw [List.filter_map, List.filter_filter]
  congr 1
  refine List.filter_congr fun entry hentry => ?_
  have hproducts : (project.entries.any fun other =>
      decide (other.episode = entry.episode ∧ project.hasProducts other = true)) =
        project.hasProducts entry := by
    refine Bool.eq_iff_iff.mpr (List.any_eq_true.trans ⟨?_, fun h => ?_⟩)
    · rintro ⟨other, hother, hsame⟩
      obtain ⟨hsame, hproducts⟩ := of_decide_eq_true hsame
      rwa [← List.inj_on_of_nodup_map hids hother hentry hsame]
    · exact ⟨entry, hentry, decide_eq_true ⟨rfl, h⟩⟩
  rw [Function.comp_apply, hproducts, Bool.and_comm]

theorem adoptionOf_order (hids : project.ids.Nodup)
    (horder : InOrder project.docs project.entries) {positions : List (ℕ × ℕ × ℕ)}
    (hpositions : positions ≠ []) (cursor : ℕ × ℕ) :
    (adoptionOf project candidate positions start cursor).retired =
      (retiredEntries project candidate start).map (·.episode) ∧
    ∃ others : List (ℕ × Anchor),
      others.map Prod.fst = ((project.entries.dropWhile
        (!isReplaced project.docs candidate start ·)).filter
          (!isReplaced project.docs candidate start ·)).map (·.episode) ∧
      (∀ other ∈ others, ∀ i, other.2 = .behind i → i < positions.length) ∧
      (adoptionOf project candidate positions start cursor).order =
        newOrder ((project.entries.takeWhile
          (!isReplaced project.docs candidate start ·)).map (·.episode)) others positions.length
            ((retiredEntries project candidate start).map (·.episode)) := by
  have hreplaced : replacedIds project.placements candidate.episode start candidate.fromBeginning
      false project.entries = replacedOf project candidate start :=
    replacedIds_eq (fun entry hentry hcut => (horder.placed entry hentry hcut).imp fun _ => And.left)
      (fun entry hentry => find_placement hids horder hentry) false
  have hretired := @filter_products project candidate start hids
  unfold adoptionOf
  simp only [hreplaced]
  refine ⟨hretired, anchored (anchorOf project.placements positions start
    (!candidate.sourceReplaced)) (firstReplaced project.ids (replacedOf project candidate start))
      (replacedOf project candidate start) none 0 project.entries, ?_, ?_, ?_⟩
  · rw [anchored_episodes, Nat.sub_zero, ← List.map_drop, drop_firstReplaced hids, List.filter_map]
    congr 1
    refine List.filter_congr fun entry hentry => ?_
    have hmem := @mem_replacedOf project candidate start hids entry
      ((List.dropWhile_sublist _).subset hentry)
    rw [Function.comp_apply, decide_not, Bool.eq_iff_iff, Bool.not_eq_true', Bool.not_eq_true',
      decide_eq_false_iff_not, hmem, Bool.not_eq_true]
  · intro other hother i hbehind
    obtain ⟨previous, hanchor⟩ := of_mem_anchored hother
    exact anchorOf_lt hpositions (hanchor.symm.trans hbehind)
  · rw [hretired, Project.ids, ← List.map_take, ← Project.ids, take_firstReplaced hids]

end Parts

section Orders

variable {project : Project} {candidate : ReplanCandidate} {start : ℕ × ℕ}
  {others : List (ℕ × Anchor)} {count : ℕ} {news : List LedgerEntry}
  (hids : project.ids.Nodup)
  (hothers : others.map Prod.fst = ((project.entries.dropWhile
    (!isReplaced project.docs candidate start ·)).filter
      (!isReplaced project.docs candidate start ·)).map (·.episode))
  (hcount : news.length = count)

def orderedEntries (project : Project) (candidate : ReplanCandidate) (start : ℕ × ℕ)
    (others : List (ℕ × Anchor)) (count : ℕ) (news : List LedgerEntry) : List LedgerEntry :=
  (newOrder ((project.entries.takeWhile
    (!isReplaced project.docs candidate start ·)).map (·.episode)) others count
      ((retiredEntries project candidate start).map (·.episode))).filterMap
    (slotEntry project ((retiredEntries project candidate start).map (·.episode)) news)

include hids in
theorem mem_retiredEntries {entry : LedgerEntry} (hentry : entry ∈ project.entries) :
    entry.episode ∈ (retiredEntries project candidate start).map (·.episode) ↔
      entry ∈ retiredEntries project candidate start := by
  refine ⟨fun hmem => ?_, fun h => List.mem_map_of_mem h⟩
  obtain ⟨other, hother, hsame⟩ := List.mem_map.mp hmem
  rwa [← List.inj_on_of_nodup_map hids (List.mem_of_mem_filter hother) hentry hsame]

include hids in
theorem slotEntry_stays {entry : LedgerEntry} (hentry : entry ∈ project.entries)
    (hstays : isReplaced project.docs candidate start entry = false) :
    slotEntry project ((retiredEntries project candidate start).map (·.episode)) news
      (.old entry.episode) = some entry := by
  rw [slotEntry_old hids hentry]
  refine congrArg some (if_neg fun hmem => ?_)
  have hretired := List.of_mem_filter ((mem_retiredEntries hids hentry).mp hmem)
  rw [hstays] at hretired
  cases hretired

include hids in
theorem stays_entries {entries : List LedgerEntry} (hsublist : entries.Sublist project.entries)
    (hstay : ∀ entry ∈ entries, (!isReplaced project.docs candidate start entry) = true) :
    ((entries.map (·.episode)).map Slot.old).filterMap (slotEntry project
      ((retiredEntries project candidate start).map (·.episode)) news) = entries := by
  refine (slotEntries fun entry hentry => ?_).trans entries.map_id
  exact slotEntry_stays hids (hsublist.subset hentry) (by simpa using hstay entry hentry)

include hids in
theorem retired_entries :
    (((retiredEntries project candidate start).map (·.episode)).map Slot.old).filterMap
      (slotEntry project ((retiredEntries project candidate start).map (·.episode)) news) =
        (retiredEntries project candidate start).map retire := by
  refine slotEntries fun entry hentry => ?_
  rw [slotEntry_old hids (List.mem_of_mem_filter hentry), if_pos (List.mem_map_of_mem hentry)]

include hcount in
theorem new_entries (retired : List ℕ) :
    ((List.range count).map Slot.new).filterMap (slotEntry project retired news) = news := by
  subst hcount
  rw [List.filterMap_map]
  induction news with
  | nil => rfl
  | cons entry news ih =>
      have hfirst : (slotEntry project retired (entry :: news) ∘ Slot.new) 0 = some entry := rfl
      rw [List.length_cons, List.range_succ_eq_map, List.filterMap_cons_some hfirst,
        List.filterMap_map]
      exact congrArg (entry :: ·) ih

include hids hothers hcount in
theorem orderedEntries_perm
    (hbound : ∀ other ∈ others, ∀ i, other.2 = .behind i → i < count) :
    (orderedEntries project candidate start others count news).Perm
      (project.entries.filter (!isReplaced project.docs candidate start ·) ++
        (retiredEntries project candidate start).map retire ++ news) := by
  have hslots := (newOrder_perm ((project.entries.takeWhile
    (!isReplaced project.docs candidate start ·)).map (·.episode))
      ((retiredEntries project candidate start).map (·.episode)) hbound).filterMap
        (slotEntry project ((retiredEntries project candidate start).map (·.episode)) news)
  refine hslots.trans (List.Perm.of_eq ?_)
  have hparts : (project.entries.takeWhile (!isReplaced project.docs candidate start ·)) ++
      (project.entries.dropWhile (!isReplaced project.docs candidate start ·)).filter
        (!isReplaced project.docs candidate start ·) =
          project.entries.filter (!isReplaced project.docs candidate start ·) := by
    conv_rhs => rw [← @List.takeWhile_append_dropWhile _
      (!isReplaced project.docs candidate start ·) project.entries]
    rw [List.filter_append, List.filter_eq_self.mpr fun entry => List.mem_takeWhile_imp]
  rw [hothers, List.map_append, List.map_append, List.filterMap_append, List.filterMap_append,
    List.filterMap_append, retired_entries hids, new_entries hcount]
  rw [stays_entries hids (List.takeWhile_sublist _) fun entry => List.mem_takeWhile_imp,
    stays_entries hids (List.filter_sublist.trans (List.dropWhile_sublist _))
      fun entry => List.of_mem_filter, hparts]

include hids hothers hcount in
theorem orderedEntries_filterMap {β : Type} {f : LedgerEntry → Option β}
    (hskip : ∀ entry ∈ project.entries.dropWhile (!isReplaced project.docs candidate start ·),
      isReplaced project.docs candidate start entry = false → f entry = none) :
    (orderedEntries project candidate start others count news).filterMap f =
      (project.entries.takeWhile (!isReplaced project.docs candidate start ·)).filterMap f ++
        news.filterMap f ++ ((retiredEntries project candidate start).map retire).filterMap f := by
  unfold orderedEntries
  rw [List.filterMap_filterMap, newOrder_filterMap]
  · rw [← List.filterMap_filterMap, ← List.filterMap_filterMap, ← List.filterMap_filterMap,
      retired_entries hids, new_entries hcount,
      stays_entries hids (List.takeWhile_sublist _) fun entry => List.mem_takeWhile_imp]
  · intro episode hepisode
    rw [hothers] at hepisode
    obtain ⟨entry, hentry, rfl⟩ := List.mem_map.mp hepisode
    obtain ⟨hback, hstays⟩ := List.mem_filter.mp hentry
    rw [Bool.not_eq_true'] at hstays
    rw [slotEntry_stays hids ((List.dropWhile_sublist _).subset hback) hstays, Option.bind_some]
    exact hskip entry hback hstays

theorem prefix_orderedEntries :
    (((project.entries.takeWhile (!isReplaced project.docs candidate start ·)).map
      (·.episode)).map Slot.old).filterMap (slotEntry project
        ((retiredEntries project candidate start).map (·.episode)) news) <+:
          orderedEntries project candidate start others count news := by
  unfold orderedEntries newOrder
  simp only [List.filterMap_append, List.append_assoc]
  exact List.prefix_append _ _

theorem suffix_orderedEntries :
    (((retiredEntries project candidate start).map (·.episode)).map Slot.old).filterMap
      (slotEntry project ((retiredEntries project candidate start).map (·.episode)) news) <:+
        orderedEntries project candidate start others count news := by
  unfold orderedEntries newOrder
  rw [List.filterMap_append]
  exact List.suffix_append _ _

end Orders

section Applied

variable {prints : Fingerprints} {project after : Project} {candidate : ReplanCandidate}
  {start cursor : ℕ × ℕ} {positions : List (ℕ × ℕ × ℕ)} {newIds : List ℕ}

theorem cutPlace_newEntry {docs : List SourceDoc} {draft : Draft} {episode : ℕ} :
    cutPlace docs (newEntry project draft episode) = draftPlace docs draft := by
  unfold newEntry draftPlace Draft.span
  split_ifs
  · rfl
  · rfl

theorem episode_newEntry {draft : Draft} {episode : ℕ} :
    (newEntry project draft episode).episode = episode := by
  unfold newEntry
  split_ifs
  · rfl
  · rfl

theorem newEntries_episodes {drafts : List Draft} (hlength : newIds.length = drafts.length) :
    (List.zipWith (newEntry project) drafts newIds).map (·.episode) = newIds := by
  induction drafts generalizing newIds with
  | nil =>
      rw [List.length_eq_zero_iff.mp hlength]
      rfl
  | cons draft drafts ih =>
      cases newIds with
      | nil => cases hlength
      | cons id ids =>
          rw [List.zipWith_cons_cons, List.map_cons, episode_newEntry, ih (Nat.succ.inj hlength)]

theorem newEntries_places {docs : List SourceDoc} {drafts : List Draft}
    (hlength : newIds.length = drafts.length) :
    (List.zipWith (newEntry project) drafts newIds).filterMap (cutPlace docs) =
      drafts.filterMap (draftPlace docs) := by
  induction drafts generalizing newIds with
  | nil =>
      rw [List.length_eq_zero_iff.mp hlength]
      rfl
  | cons draft drafts ih =>
      cases newIds with
      | nil => cases hlength
      | cons id ids =>
          rw [List.zipWith_cons_cons, List.filterMap_cons, List.filterMap_cons, cutPlace_newEntry,
            ih (Nat.succ.inj hlength)]

theorem applyAdoption_ok {adoption : Adoption}
    (h : applyAdoption prints project candidate adoption = (newIds, after)) :
    newIds = List.range' (project.episodeIdHighWater + 1) candidate.episodes.length ∧
      after.sources = project.sources ∧
      after.entries = adoption.order.filterMap (slotEntry project adoption.retired
        (List.zipWith (newEntry project) candidate.episodes newIds)) := by
  cases h
  exact ⟨rfl, rfl, rfl⟩

section Fields

variable (hids : project.ids.Nodup) (horder : InOrder project.docs project.entries)
  (hpositions : positions ≠ []) (hcount : candidate.episodes.length = positions.length)
  (h : applyAdoption prints project candidate
    (adoptionOf project candidate positions start cursor) = (newIds, after))
include h

theorem newIds_length : newIds.length = candidate.episodes.length := by
  rw [(applyAdoption_ok h).1, List.length_range']

theorem newIds_fresh : ∀ id ∈ newIds, project.episodeIdHighWater < id := by
  intro id hid
  rw [(applyAdoption_ok h).1, List.mem_range'_1] at hid
  exact hid.1

theorem newIds_nodup : newIds.Nodup := by
  rw [(applyAdoption_ok h).1]
  exact List.nodup_range'

include hcount in
theorem news_length :
    (List.zipWith (newEntry project) candidate.episodes newIds).length = positions.length := by
  rw [List.length_zipWith, newIds_length h, Nat.min_self, hcount]

include hids horder hpositions

theorem adopted_entries : ∃ others : List (ℕ × Anchor),
    others.map Prod.fst = ((project.entries.dropWhile
      (!isReplaced project.docs candidate start ·)).filter
        (!isReplaced project.docs candidate start ·)).map (·.episode) ∧
    (∀ other ∈ others, ∀ i, other.2 = .behind i → i < positions.length) ∧
    after.entries = orderedEntries project candidate start others positions.length
      (List.zipWith (newEntry project) candidate.episodes newIds) := by
  obtain ⟨hretired, others, hothers, hbound, horderOf⟩ :=
    @adoptionOf_order project candidate start hids horder positions hpositions cursor
  refine ⟨others, hothers, hbound, ?_⟩
  rw [(applyAdoption_ok h).2.2, horderOf, hretired]
  rfl

include hcount

theorem adopted_perm : after.entries.Perm
    (project.entries.filter (!isReplaced project.docs candidate start ·) ++
      (retiredEntries project candidate start).map retire ++
        List.zipWith (newEntry project) candidate.episodes newIds) := by
  obtain ⟨others, hothers, hbound, hentries⟩ := adopted_entries hids horder hpositions h
  rw [hentries]
  exact orderedEntries_perm hids hothers (news_length hcount h) hbound

theorem adopted_ids : after.ids.Perm
    ((project.entries.filter (!isReplaced project.docs candidate start ·) ++
      retiredEntries project candidate start).map (·.episode) ++ newIds) := by
  have hperm := (adopted_perm hids horder hpositions hcount h).map (·.episode)
  rw [List.map_append, List.map_append, List.map_map,
    newEntries_episodes (newIds_length h)] at hperm
  rw [List.map_append]
  exact hperm

theorem adopted_nodup : after.ids.Nodup := by
  refine (adopted_ids hids horder hpositions hcount h).nodup_iff.mpr ?_
  refine List.Nodup.append ?_ (newIds_nodup h) ?_
  · have hdisjoint : ∀ entry, (!isReplaced project.docs candidate start entry) = true →
        (isReplaced project.docs candidate start entry && project.hasProducts entry) = false := by
      intro entry hstays
      rw [Bool.not_eq_true'] at hstays
      rw [hstays, Bool.false_and]
    have hperm := filter_or_perm hdisjoint project.entries
    refine (hperm.map _).nodup_iff.mpr (List.Nodup.sublist ?_ hids)
    exact List.filter_sublist.map _
  · intro id hold hnew
    have hfresh := newIds_fresh h id hnew
    obtain ⟨entry, hentry, rfl⟩ := List.mem_map.mp hold
    have hmem : entry ∈ project.entries := (List.mem_append.mp hentry).elim
      List.mem_of_mem_filter List.mem_of_mem_filter
    exact absurd (ManualSplitLedgers.le_foldl_ids hmem) (Nat.not_le_of_lt hfresh)

theorem adopted_kept {entry : LedgerEntry} (hentry : entry ∈ project.entries)
    (hstays : isReplaced project.docs candidate start entry = false) : entry ∈ after.entries := by
  refine (adopted_perm hids horder hpositions hcount h).mem_iff.mpr ?_
  refine List.mem_append_left _ (List.mem_append_left _ (List.mem_filter.mpr ⟨hentry, ?_⟩))
  rw [hstays]
  rfl

theorem adopted_removed {entry : LedgerEntry} (hentry : entry ∈ project.entries)
    (hreplaced : isReplaced project.docs candidate start entry = true)
    (hproducts : project.hasProducts entry = false) : entry.episode ∉ after.ids := by
  intro hmem
  rcases List.mem_append.mp ((adopted_ids hids horder hpositions hcount h).mem_iff.mp hmem) with
    hold | hnew
  · obtain ⟨other, hother, hsame⟩ := List.mem_map.mp hold
    have hold : other ∈ project.entries := (List.mem_append.mp hother).elim
      List.mem_of_mem_filter List.mem_of_mem_filter
    obtain rfl := List.inj_on_of_nodup_map hids hold hentry hsame
    rcases List.mem_append.mp hother with hstays | hretired
    · have hstays := List.of_mem_filter hstays
      rw [hreplaced] at hstays
      cases hstays
    · have hretired := List.of_mem_filter hretired
      rw [hproducts, Bool.and_false] at hretired
      cases hretired
  · exact absurd (ManualSplitLedgers.le_foldl_ids hentry)
      (Nat.not_le_of_lt (newIds_fresh h _ hnew))

theorem adopted_candidates : after.entries.filter (·.episode ∈ newIds) =
    List.zipWith (newEntry project) candidate.episodes newIds := by
  obtain ⟨others, hothers, hbound, hentries⟩ := adopted_entries hids horder hpositions h
  have hold : ∀ entry ∈ project.entries, entry.episode ∉ newIds := fun entry hentry hnew =>
    absurd (ManualSplitLedgers.le_foldl_ids hentry) (Nat.not_le_of_lt (newIds_fresh h _ hnew))
  have hguard : ∀ entry, entry.episode ∉ newIds →
      Option.guard (fun entry : LedgerEntry => decide (entry.episode ∈ newIds)) entry = none :=
    fun entry hnot => Option.guard_eq_none_iff.mpr (decide_eq_false hnot)
  rw [← List.filterMap_eq_filter, hentries, orderedEntries_filterMap hids hothers
    (news_length hcount h) fun entry hback _ =>
      hguard entry (hold entry ((List.dropWhile_sublist _).subset hback))]
  have hfront : (project.entries.takeWhile
      (!isReplaced project.docs candidate start ·)).filterMap
        (Option.guard fun entry => decide (entry.episode ∈ newIds)) = [] :=
    List.filterMap_eq_nil_iff.mpr fun entry hfront =>
      hguard entry (hold entry ((List.takeWhile_sublist _).subset hfront))
  have hretired : ((retiredEntries project candidate start).map retire).filterMap
      (Option.guard fun entry => decide (entry.episode ∈ newIds)) = [] := by
    refine List.filterMap_eq_nil_iff.mpr fun entry hentry => hguard entry ?_
    obtain ⟨old, hretired, rfl⟩ := List.mem_map.mp hentry
    exact hold old (List.mem_of_mem_filter hretired)
  rw [hfront, hretired, List.nil_append, List.append_nil, List.filterMap_eq_filter,
    List.filter_eq_self]
  intro entry hentry
  refine decide_eq_true ?_
  rw [← @newEntries_episodes project _ _ (newIds_length h)]
  exact List.mem_map_of_mem hentry

theorem adopted_places (docs : List SourceDoc) (hdocs : docs = project.docs) :
    after.entries.filterMap (cutPlace docs) =
      (project.entries.takeWhile (!isReplaced project.docs candidate start ·)).filterMap
        (cutPlace docs) ++ candidate.episodes.filterMap (draftPlace docs) := by
  subst hdocs
  obtain ⟨others, hothers, hbound, hentries⟩ := adopted_entries hids horder hpositions h
  have hretired : ((retiredEntries project candidate start).map retire).filterMap
      (cutPlace project.docs) = [] := by
    rw [List.filterMap_map]
    exact List.filterMap_eq_nil_iff.mpr fun entry _ => rfl
  rw [hentries, orderedEntries_filterMap hids hothers (news_length hcount h)
    fun entry hback hstays => cutPlace_of_stays horder hback hstays, hretired, List.append_nil,
    newEntries_places (newIds_length h)]

variable (hfollows : FollowsStart project.docs candidate start)
  (hfree : candidate.fromBeginning = true ∨ StartFree project.docs start project.entries)
include hfollows

theorem adopted_placed {entry : LedgerEntry} (hentry : entry ∈ after.entries)
    (hcut : isCutEpisode entry = true) : ∃ p, cutPlace project.docs entry = some p := by
  rcases List.mem_append.mp ((adopted_perm hids horder hpositions hcount h).mem_iff.mp hentry) with
    hold | hnew
  · rcases List.mem_append.mp hold with hstays | hretired
    · exact (horder.placed entry (List.mem_of_mem_filter hstays) hcut).imp fun _ => And.left
    · obtain ⟨old, -, rfl⟩ := List.mem_map.mp hretired
      cases hcut
  · rw [← List.map_uncurry_zip_eq_zipWith] at hnew
    obtain ⟨⟨draft, id⟩, hpair, rfl⟩ := List.mem_map.mp hnew
    obtain ⟨p, hp, -⟩ := hfollows.placed draft (List.of_mem_zip hpair).1
    exact ⟨p, cutPlace_newEntry.trans hp⟩

include hfree

theorem adopted_ordered :
    (after.entries.filterMap (cutPlace project.docs)).Pairwise Place.Before := by
  rw [adopted_places hids horder hpositions hcount h _ rfl]
  refine List.pairwise_append.mpr
    ⟨horder.before.sublist ((List.takeWhile_sublist _).filterMap _), hfollows.before, ?_⟩
  intro p hp q hq
  obtain ⟨entry, hfront, hplace⟩ := List.mem_filterMap.mp hp
  obtain ⟨draft, hdraft, hat⟩ := List.mem_filterMap.mp hq
  obtain ⟨q', hq', -, -, hbehind⟩ := hfollows.placed draft hdraft
  obtain rfl := Option.some.inj (hat.symm.trans hq')
  have hends := ends_of_front hfree hplace hfront
  rw [← Bool.not_eq_true, earlier_iff] at hbehind hends
  unfold Place.Before
  omega

theorem applyAdoption_adopted : Adopted project after candidate start newIds where
  ids := adopted_nodup hids horder hpositions hcount h
  fresh id hid :=
    ⟨(ManualSplitPlans.le_foldl_max (Or.inl le_rfl)).trans_lt (newIds_fresh h id hid),
      fun _ hold => (ManualSplitPlans.le_foldl_max (Or.inr hold)).trans_lt (newIds_fresh h id hid)⟩
  count := newIds_length h
  candidates := adopted_candidates hids horder hpositions hcount h
  kept _ hentry hstays := adopted_kept hids horder hpositions hcount h hentry hstays
  removed _ hentry hreplaced hproducts :=
    adopted_removed hids horder hpositions hcount h hentry hreplaced hproducts
  retired := by
    obtain ⟨others, -, -, hentries⟩ := adopted_entries hids horder hpositions h
    rw [hentries, ← retiredEntries, ← retired_entries hids]
    exact suffix_orderedEntries
  front := by
    obtain ⟨others, -, -, hentries⟩ := adopted_entries hids horder hpositions h
    rw [hentries, ← @stays_entries project candidate start
      (List.zipWith (newEntry project) candidate.episodes newIds) hids _
        (List.takeWhile_sublist _) fun entry => List.mem_takeWhile_imp]
    exact prefix_orderedEntries
  placed _ hentry hcut := by
    rw [ManualSplitSafety.docs_congr (applyAdoption_ok h).2.1]
    exact adopted_placed hids horder hpositions hcount h hfollows hentry hcut
  ordered := by
    rw [ManualSplitSafety.docs_congr (applyAdoption_ok h).2.1]
    exact adopted_ordered hids horder hpositions hcount h hfollows hfree

end Fields

end Applied

end ShortReel.EpisodeReplan
