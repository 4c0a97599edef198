import Mathlib.Data.List.Dedup
import ShortReel.HighWaterRuns

/-!
# The full reset of the episode planning

`episode_reset.py` without an episode id: the cut episodes leave the ledger, or, when they have
products, give up their place in the whole source. Nothing is asked of the shape of the ledger.
-/

namespace ShortReel.EpisodeReset

open LedgerFile

inductive EpisodeResetError where
  | conflict
  | fileOperation
  deriving DecidableEq, Repr

structure Disk where
  safeExists : String → Bool
  hasScript : ℤ → Bool
  productEpisodeNums : List ℕ
  episodeFileAliases : List (ℕ × String)
  scriptPlanRevision : ℤ → Option String

structure ResetPlan where
  episodeNums : List ℤ
  consumed : List ℤ
  deletes : List String
  archives : List String
  deriving DecidableEq, Repr

inductive ResetOutcome (Rest : Type) where
  | confirmationRequired (plan : ResetPlan)
  | written (plan : ResetPlan) (project : ProjectFile Rest)

def isText (text : String) : Json → Bool
  | .string value => value = text
  | _ => false

def hasDownstreamProducts (disk : Disk) (num : ℤ) (entry : Fields) : Bool :=
  (match getField entry "script_file" with
    | .string scriptFile => scriptFile ≠ "" && disk.safeExists scriptFile
    | _ => false) || disk.hasScript num

section Scan

variable {Rest : Type} (disk : Disk) (project : ProjectFile Rest)

def episodeNum (entry : Fields) : Option ℤ :=
  parseEpisodeNum (getField entry "episode")

def entriesByNum (num : ℤ) : List Fields :=
  (ledgerEntries project.episodes).filter fun entry => episodeNum entry = some num

def dupes (num : ℤ) : List Fields :=
  if entriesByNum project num = [] then [[]] else entriesByNum project num

def isConsumed (num : ℤ) : Bool :=
  (entriesByNum project num).any (fun entry => isText "consumed" (getField entry "ledger_status")) ||
    disk.productEpisodeNums.any (fun product => (product : ℤ) = num) ||
    (dupes project num).any (hasDownstreamProducts disk num)

/-- `sorted` of a set. -/
def sorted (nums : List ℤ) : List ℤ :=
  nums.dedup.insertionSort (· ≤ ·)

/-- The numbers that the scan looks at: of entries, of files of episodes, and of products. -/
def candidates (retained : List ℤ) : List ℤ :=
  (sorted ((ledgerEntries project.episodes).filterMap episodeNum ++
      disk.episodeFileAliases.map (fun file => (file.1 : ℤ)) ++
      disk.productEpisodeNums.map (↑))).filter (· ∉ retained)

def aliasesOf (num : ℤ) : List String :=
  (disk.episodeFileAliases.filter fun file => (file.1 : ℤ) = num).map Prod.snd

/-- `_scan`. A file that a range can restore is deleted, every other one is kept under another name. -/
def scan (retained : List ℤ) : ResetPlan :=
  let recreatable num := (dupes project num).all hasSourceRange
  { episodeNums :=
      (sorted ((ledgerEntries project.episodes).filterMap episodeNum)).filter (· ∉ retained)
    consumed := (candidates disk project retained).filter (isConsumed disk project)
    deletes := ((candidates disk project retained).filter recreatable).flatMap (aliasesOf disk)
    archives :=
      ((candidates disk project retained).filter (!recreatable ·)).flatMap (aliasesOf disk) }

def otherOriginEpisodeIds : List ℤ :=
  ((ledgerEntries project.episodes).filter fun entry => !isCutEpisode entry).filterMap episodeNum

end Scan

def markLedgerStale (disk : Disk) (entry : Fields) (num : ℤ) : Fields :=
  popField
    (setField (setField entry "ledger_status" (.string "stale")) "stale_script_plan_revision"
      ((disk.scriptPlanRevision num).elim .null .string))
    "stale_script_plan_rebuilt_revision"

def retire (disk : Disk) (entry : Fields) (num : ℤ) : Fields :=
  markLedgerStale disk
    (popField (setField entry "source_origin" (.string "none")) "source_range") num

def resetEntries (disk : Disk) (retained consumed : List ℤ) :
    List ℤ → List Json → List Fields × List Fields
  | _, [] => ([], [])
  | retiredNums, item :: items =>
      match fieldsOf item with
      | none => resetEntries disk retained consumed retiredNums items
      | some entry =>
          match episodeNum entry with
          | none => resetEntries disk retained consumed retiredNums items
          | some num =>
              if num ∈ retained then
                let (kept, retired) := resetEntries disk retained consumed retiredNums items
                (entry :: kept, retired)
              else if 0 < num ∧ num ∈ consumed ∧ num ∉ retiredNums then
                let (kept, retired) :=
                  resetEntries disk retained consumed (num :: retiredNums) items
                (kept, retire disk entry num :: retired)
              else resetEntries disk retained consumed retiredNums items

section Reset

variable {Rest : Type} (saver : Saver Rest) (forgetFingerprints : Rest → Rest) (disk : Disk)

def itemsOf : Json → List Json
  | .list items => items
  | _ => []

def resetLedger (plan : ResetPlan) (project : ProjectFile Rest) : ProjectFile Rest :=
  let (kept, retired) := resetEntries disk (otherOriginEpisodeIds project) plan.consumed []
    (itemsOf project.episodes)
  { project with
    episodes := .list ((kept ++ retired).map .object)
    rest := forgetFingerprints project.rest }

/-- `reset_episode_planning` without an episode id. `seen` is the project in front of the lock. When the
files cannot be handled, `project.json` is restored. -/
def resetEpisodePlanning (fileOperations : ResetPlan → Bool) (confirmConsumed : Bool)
    (seen project : ProjectFile Rest) : Except EpisodeResetError (ResetOutcome Rest) :=
  let plan := scan disk seen (otherOriginEpisodeIds seen)
  if plan.consumed ≠ [] ∧ confirmConsumed = false then .ok (.confirmationRequired plan)
  else
    let commit (locked : ProjectFile Rest) : Option (ProjectFile Rest) :=
      let current := scan disk locked (otherOriginEpisodeIds locked)
      if current.consumed.any (· ∉ plan.consumed) then none
      else some (resetLedger forgetFingerprints disk current locked)
    match project.applyMutation saver commit with
    | none => .error .conflict
    | some written =>
        let current := scan disk project (otherOriginEpisodeIds project)
        if fileOperations current then .ok (.written current written) else .error .fileOperation

end Reset

section Fields

variable {fields : Fields} {key other : String} {value : Json}

theorem lookup_popField_self : (popField fields key).lookup key = none := by
  induction fields with
  | nil => rfl
  | cons field fields ih =>
      rw [popField, List.filter_cons]
      split
      · rename_i hne
        have hkey : (key == field.1) = false :=
          beq_false_of_ne fun heq => of_decide_eq_true hne heq.symm
        rw [List.lookup_cons, hkey]
        exact ih
      · exact ih

theorem lookup_popField_of_ne (hne : other ≠ key) :
    (popField fields key).lookup other = fields.lookup other := by
  induction fields with
  | nil => rfl
  | cons field fields ih =>
      rw [popField, List.filter_cons]
      split
      · rw [List.lookup_cons, List.lookup_cons, ← ih]
        rfl
      · rename_i heq
        have hkey : (other == field.1) = false := by
          refine beq_false_of_ne fun hfield => heq (decide_eq_true fun hsame => hne ?_)
          rw [hfield, hsame]
        rw [List.lookup_cons, hkey]
        exact ih

theorem lookup_setField_self : (setField fields key value).lookup key = some value := by
  induction fields with
  | nil => rw [setField, List.lookup_cons, beq_self_eq_true]
  | cons field fields ih =>
      rw [setField]
      split
      · rw [List.lookup_cons, beq_self_eq_true]
      · rename_i hne
        have hkey : (key == field.1) = false := beq_false_of_ne fun heq => hne heq.symm
        rw [List.lookup_cons, hkey]
        exact ih

theorem lookup_setField_of_ne (hne : other ≠ key) :
    (setField fields key value).lookup other = fields.lookup other := by
  have hkey : (other == key) = false := beq_false_of_ne hne
  induction fields with
  | nil => rw [setField, List.lookup_cons, hkey]
  | cons field fields ih =>
      rw [setField]
      split
      · rename_i heq
        rw [List.lookup_cons, List.lookup_cons, heq, hkey]
      · rw [List.lookup_cons, List.lookup_cons, ih]

end Fields

section Retired

variable (disk : Disk) (entry : Fields) (num : ℤ)

theorem lookup_retire {key : String} (hstatus : key ≠ "ledger_status")
    (hrevision : key ≠ "stale_script_plan_revision")
    (hrebuilt : key ≠ "stale_script_plan_rebuilt_revision") :
    (retire disk entry num).lookup key =
      (popField (setField entry "source_origin" (.string "none")) "source_range").lookup key := by
  rw [retire, markLedgerStale, lookup_popField_of_ne hrebuilt, lookup_setField_of_ne hrevision,
    lookup_setField_of_ne hstatus]

theorem episodeNum_retire : episodeNum (retire disk entry num) = episodeNum entry := by
  rw [episodeNum, getField, lookup_retire disk entry num (by decide) (by decide) (by decide),
    lookup_popField_of_ne (by decide), lookup_setField_of_ne (by decide)]
  rfl

theorem isCutEpisode_retire : isCutEpisode (retire disk entry num) = false := by
  have horigin : getField (retire disk entry num) "source_origin" = .string "none" := by
    rw [getField, lookup_retire disk entry num (by decide) (by decide) (by decide),
      lookup_popField_of_ne (by decide), lookup_setField_self]
    rfl
  rw [isCutEpisode, episodeSourceOrigin, horigin]
  rfl

theorem sourceRange_retire : (retire disk entry num).lookup "source_range" = none := by
  rw [lookup_retire disk entry num (by decide) (by decide) (by decide), lookup_popField_self]

end Retired

section Loop

variable {disk : Disk} {retained consumed : List ℤ}

theorem kept_eq (disk : Disk) (retained consumed retiredNums : List ℤ) (items : List Json) :
    (resetEntries disk retained consumed retiredNums items).1 =
      (items.filterMap fieldsOf).filter fun entry => (episodeNum entry).any (· ∈ retained) := by
  induction items generalizing retiredNums with
  | nil => rfl
  | cons item items ih =>
      rw [resetEntries]
      split
      · rename_i hitem
        rw [ih, List.filterMap_cons_none hitem]
      · rename_i entry hitem
        rw [List.filterMap_cons_some hitem, List.filter_cons]
        split
        · rename_i hnum
          rw [ih, hnum]
          rfl
        · rename_i num hnum
          rw [hnum, Option.any_some]
          by_cases hretained : num ∈ retained
          · rw [if_pos hretained, if_pos (decide_eq_true hretained)]
            exact congrArg (entry :: ·) (ih _)
          · rw [if_neg hretained, if_neg fun hkeep => hretained (of_decide_eq_true hkeep)]
            split_ifs
            · exact ih _
            · exact ih _

theorem of_mem_retired {retiredNums : List ℤ} {items : List Json} {late : Fields}
    (hlate : late ∈ (resetEntries disk retained consumed retiredNums items).2) :
    ∃ entry ∈ items.filterMap fieldsOf, ∃ num, episodeNum entry = some num ∧ num ∉ retained ∧
      0 < num ∧ num ∈ consumed ∧ num ∉ retiredNums ∧ late = retire disk entry num := by
  induction items generalizing retiredNums with
  | nil => cases hlate
  | cons item items ih =>
      rw [resetEntries] at hlate
      split at hlate
      · rename_i hitem
        rw [List.filterMap_cons_none hitem]
        exact ih hlate
      · rename_i entry hitem
        rw [List.filterMap_cons_some hitem]
        have hlater : ∀ {nums}, (∀ num, num ∉ nums → num ∉ retiredNums) →
            late ∈ (resetEntries disk retained consumed nums items).2 →
            ∃ entry' ∈ entry :: items.filterMap fieldsOf, ∃ num, episodeNum entry' = some num ∧
              num ∉ retained ∧ 0 < num ∧ num ∈ consumed ∧ num ∉ retiredNums ∧
              late = retire disk entry' num := by
          intro nums hnums hmem
          obtain ⟨entry', hentry', num, hnum, hfree, hpositive, hconsumed, hnew, hretire⟩ := ih hmem
          exact ⟨entry', List.mem_cons_of_mem _ hentry', num, hnum, hfree, hpositive, hconsumed,
            hnums num hnew, hretire⟩
        split at hlate
        · exact hlater (fun _ => id) hlate
        · rename_i num hnum
          split_ifs at hlate with hretained hretires
          · exact hlater (fun _ => id) hlate
          · rcases List.mem_cons.mp hlate with rfl | hlate
            · exact ⟨entry, List.mem_cons_self, num, hnum, hretained, hretires.1, hretires.2.1,
                hretires.2.2, rfl⟩
            · exact hlater (fun _ hnew hold => hnew (List.mem_cons_of_mem _ hold)) hlate
          · exact hlater (fun _ => id) hlate

theorem retired_nums (retiredNums : List ℤ) (items : List Json) :
    ((resetEntries disk retained consumed retiredNums items).2.map episodeNum).Nodup := by
  induction items generalizing retiredNums with
  | nil => exact List.nodup_nil
  | cons item items ih =>
      rw [resetEntries]
      split
      · exact ih _
      · split
        · exact ih _
        · rename_i entry _ num hnum
          split_ifs
          · exact ih _
          · refine List.nodup_cons.mpr ⟨fun hmem => ?_, ih _⟩
            obtain ⟨late, hlate, hsame⟩ := List.mem_map.mp hmem
            obtain ⟨entry', -, num', hnum', -, -, -, hnew, rfl⟩ := of_mem_retired hlate
            rw [episodeNum_retire, episodeNum_retire, hnum, hnum', Option.some_inj] at hsame
            exact hnew (hsame ▸ List.mem_cons_self)
          · exact ih _

end Loop

section Holds

variable {Rest : Type}

def others (project : ProjectFile Rest) : List Fields :=
  (ledgerEntries project.episodes).filter fun entry => !isCutEpisode entry

/-- The cut episodes are gone, or, with products, behind all others without a range; the others stand as
they did, and no id comes back. -/
structure ResetHolds (disk : Disk) (before after : ProjectFile Rest) : Prop where
  noCut : ∀ entry ∈ ledgerEntries after.episodes, isCutEpisode entry = false
  ledger : ∃ retired : List Fields,
    after.episodes = .list ((others before ++ retired).map .object) ∧
    (retired.map episodeNum).Nodup ∧
    ∀ late ∈ retired, late.lookup "source_range" = none ∧
      ∃ cut ∈ ledgerEntries before.episodes, isCutEpisode cut = true ∧ ∃ num,
        episodeNum cut = some num ∧ episodeNum late = some num ∧ isConsumed disk before num = true
  fresh : ∀ id ∈ before.ledgerEpisodeIds, ∀ count, ∀ new ∈ (after.allocateEpisodeIds count).1, id < new

/-- Each entry that is no cut episode has a number, and none that a cut episode has. -/
def Separate (project : ProjectFile Rest) : Prop :=
  (∀ entry ∈ others project, episodeNum entry ≠ none) ∧
    ∀ cut ∈ ledgerEntries project.episodes, isCutEpisode cut = true →
      ∀ entry ∈ others project, episodeNum cut = episodeNum entry → episodeNum cut = none

variable {saver : Saver Rest} {forgetFingerprints : Rest → Rest} {disk : Disk}
  {project : ProjectFile Rest}

theorem ledgerEntries_itemsOf (episodes : Json) :
    (itemsOf episodes).filterMap fieldsOf = ledgerEntries episodes := by
  cases episodes <;> rfl

theorem ledgerEntries_objects (entries : List Fields) :
    ledgerEntries (.list (entries.map .object)) = entries := by
  rw [ledgerEntries, List.filterMap_map]
  exact List.filterMap_some

theorem mem_others {entry : Fields} :
    entry ∈ others project ↔ entry ∈ ledgerEntries project.episodes ∧ isCutEpisode entry = false := by
  rw [others, List.mem_filter, Bool.not_eq_true']

theorem mem_otherOriginEpisodeIds {num : ℤ} :
    num ∈ otherOriginEpisodeIds project ↔ ∃ entry ∈ others project, episodeNum entry = some num :=
  List.mem_filterMap

theorem mem_sorted {num : ℤ} {nums : List ℤ} : num ∈ sorted nums ↔ num ∈ nums := by
  rw [sorted, List.mem_insertionSort, List.mem_dedup]

theorem mem_consumed {retained : List ℤ} {entry : Fields} {num : ℤ}
    (hentry : entry ∈ ledgerEntries project.episodes) (hnum : episodeNum entry = some num) :
    num ∈ (scan disk project retained).consumed ↔
      num ∉ retained ∧ isConsumed disk project num = true := by
  have hcandidate : num ∈ candidates disk project retained ↔ num ∉ retained := by
    rw [candidates, List.mem_filter, mem_sorted, decide_eq_true_eq]
    refine and_iff_right (List.mem_append_left _ (List.mem_append_left _ ?_))
    exact List.mem_filterMap.mpr ⟨entry, hentry, hnum⟩
  rw [← hcandidate]
  exact List.mem_filter

def keptOf (project : ProjectFile Rest) : List Fields :=
  (ledgerEntries project.episodes).filter fun entry =>
    (episodeNum entry).any (· ∈ otherOriginEpisodeIds project)

def retiredOf (disk : Disk) (project : ProjectFile Rest) : List Fields :=
  (resetEntries disk (otherOriginEpisodeIds project)
    (scan disk project (otherOriginEpisodeIds project)).consumed [] (itemsOf project.episodes)).2

theorem mem_keptOf {entry : Fields} : entry ∈ keptOf project ↔
    entry ∈ ledgerEntries project.episodes ∧
      ∃ other ∈ others project, episodeNum other ≠ none ∧ episodeNum entry = episodeNum other := by
  rw [keptOf, List.mem_filter, Option.any_eq_true]
  refine and_congr_right fun _ => ?_
  constructor
  · rintro ⟨num, hnum, hretained⟩
    obtain ⟨other, hother, hsame⟩ := mem_otherOriginEpisodeIds.mp (of_decide_eq_true hretained)
    exact ⟨other, hother, hsame ▸ Option.some_ne_none num, hnum.trans hsame.symm⟩
  · rintro ⟨other, hother, hsome, hsame⟩
    obtain ⟨num, hnum⟩ := Option.ne_none_iff_exists'.mp hsome
    exact ⟨num, hsame.trans hnum, decide_eq_true (mem_otherOriginEpisodeIds.mpr ⟨other, hother, hnum⟩)⟩

theorem keptOf_eq (hseparate : Separate project) : keptOf project = others project := by
  refine List.filter_congr fun entry hentry => ?_
  rw [Bool.eq_iff_iff, Bool.not_eq_true']
  have hmem := @mem_keptOf _ project entry
  rw [keptOf, List.mem_filter] at hmem
  constructor
  · intro hkept
    obtain ⟨-, other, hother, hsome, hsame⟩ := hmem.mp ⟨hentry, hkept⟩
    by_contra hcut
    rw [Bool.not_eq_false] at hcut
    exact hsome (hsame ▸ hseparate.2 entry hentry hcut other hother hsame)
  · intro hother
    have hin := mem_others.mpr ⟨hentry, hother⟩
    exact (hmem.mpr ⟨hentry, entry, hin, hseparate.1 entry hin, rfl⟩).2

theorem of_mem_retiredOf {late : Fields} (hlate : late ∈ retiredOf disk project) :
    ∃ entry ∈ ledgerEntries project.episodes, ∃ num, episodeNum entry = some num ∧
      num ∉ otherOriginEpisodeIds project ∧ isConsumed disk project num = true ∧
      late = retire disk entry num := by
  obtain ⟨entry, hentry, num, hnum, hfree, -, hconsumed, -, hretire⟩ := of_mem_retired hlate
  rw [ledgerEntries_itemsOf] at hentry
  exact ⟨entry, hentry, num, hnum, hfree, ((mem_consumed hentry hnum).mp hconsumed).2, hretire⟩

theorem resetLedger_episodes (forgetFingerprints : Rest → Rest) (disk : Disk)
    (project : ProjectFile Rest) :
    (resetLedger forgetFingerprints disk (scan disk project (otherOriginEpisodeIds project))
      project).episodes = .list ((keptOf project ++ retiredOf disk project).map .object) := by
  have hkept := kept_eq disk (otherOriginEpisodeIds project)
    (scan disk project (otherOriginEpisodeIds project)).consumed [] (itemsOf project.episodes)
  rw [ledgerEntries_itemsOf] at hkept
  rw [keptOf, ← hkept]
  rfl

theorem scan_raise (retained : List ℤ) :
    scan disk (project.raiseEpisodeIdHighWater []) retained = scan disk project retained := by
  have hcongr : ∀ other : ProjectFile Rest, other.episodes = project.episodes →
      scan disk other retained = scan disk project retained := by
    rintro ⟨episodes, highWater, rest⟩ rfl
    rfl
  exact hcongr _ (raise_episodes project [])

theorem otherOriginEpisodeIds_raise :
    otherOriginEpisodeIds (project.raiseEpisodeIdHighWater []) = otherOriginEpisodeIds project := by
  rw [otherOriginEpisodeIds, raise_episodes]
  rfl

theorem reset_written (saver : Saver Rest) (forgetFingerprints : Rest → Rest)
    (fileOperations : ResetPlan → Bool)
    (hfiles : fileOperations (scan disk project (otherOriginEpisodeIds project)) = true) :
    ∃ written, resetEpisodePlanning saver forgetFingerprints disk fileOperations true project project =
        .ok (.written (scan disk project (otherOriginEpisodeIds project)) written) ∧
      written.episodes = .list ((keptOf project ++ retiredOf disk project).map .object) ∧
      project.episodeIdHighWater ≤ written.storedHighWater := by
  let plan := scan disk project (otherOriginEpisodeIds project)
  let mutate (locked : ProjectFile Rest) : Option (ProjectFile Rest) :=
    let current := scan disk locked (otherOriginEpisodeIds locked)
    if current.consumed.any (· ∉ plan.consumed) then none
    else some (resetLedger forgetFingerprints disk current locked)
  have hmutated : mutate (project.raiseEpisodeIdHighWater []) =
      some (resetLedger forgetFingerprints disk plan (project.raiseEpisodeIdHighWater [])) := by
    have hsame : plan.consumed.any (· ∉ plan.consumed) = false := by
      rw [List.any_eq_false]
      intro num hnum
      simpa using hnum
    dsimp only [mutate]
    rw [otherOriginEpisodeIds_raise, scan_raise]
    exact if_neg (by rw [hsame]; exact Bool.false_ne_true)
  obtain ⟨written, hwritten⟩ := applyMutation_isSome saver hmutated
  obtain ⟨mutated, hat, hepisodes, hstored⟩ := applyMutation_eq_some hwritten
  cases hmutated.symm.trans hat
  refine ⟨written, ?_, ?_, ?_⟩
  · unfold resetEpisodePlanning
    dsimp only
    rw [if_neg (by simp), hwritten]
    exact if_pos hfiles
  · have hledger :=
      resetLedger_episodes forgetFingerprints disk (project.raiseEpisodeIdHighWater [])
    rw [otherOriginEpisodeIds_raise, scan_raise] at hledger
    rw [hepisodes, hledger, keptOf, retiredOf, otherOriginEpisodeIds_raise, scan_raise,
      raise_episodes]
    rfl
  · rw [hstored]
    refine le_trans ?_ (stored_le_highWater _)
    exact (raise_stored project []).ge

theorem fresh_of_le {before after : ProjectFile Rest}
    (hle : before.episodeIdHighWater ≤ after.storedHighWater) {id count new : ℕ}
    (hid : id ∈ before.ledgerEpisodeIds) (hnew : new ∈ (after.allocateEpisodeIds count).1) :
    id < new :=
  ((id_le_highWater before hid).trans (hle.trans (stored_le_highWater after))).trans_lt
    (allocated_gt after hnew)

theorem holds_of_separate (hseparate : Separate project) {written : ProjectFile Rest}
    (hepisodes : written.episodes = .list ((keptOf project ++ retiredOf disk project).map .object))
    (hmark : project.episodeIdHighWater ≤ written.storedHighWater) :
    ResetHolds disk project written where
  noCut entry hentry := by
    rw [hepisodes, ledgerEntries_objects, keptOf_eq hseparate] at hentry
    rcases List.mem_append.mp hentry with hkept | hretired
    · exact (mem_others.mp hkept).2
    · obtain ⟨old, -, num, -, -, -, rfl⟩ := of_mem_retiredOf hretired
      exact isCutEpisode_retire disk old num
  ledger := by
    refine ⟨retiredOf disk project, ?_, retired_nums _ _, fun late hlate => ?_⟩
    · rw [hepisodes, keptOf_eq hseparate]
    · obtain ⟨cut, hcut, num, hnum, hfree, hconsumed, rfl⟩ := of_mem_retiredOf hlate
      refine ⟨sourceRange_retire disk cut num, cut, hcut, ?_, num, hnum, ?_, hconsumed⟩
      · by_contra hother
        rw [Bool.not_eq_true] at hother
        exact hfree (mem_otherOriginEpisodeIds.mpr ⟨cut, mem_others.mpr ⟨hcut, hother⟩, hnum⟩)
      · rw [episodeNum_retire, hnum]
  fresh _ hid _ _ hnew := fresh_of_le hmark hid hnew

theorem separate_of_holds {written : ProjectFile Rest}
    (hepisodes : written.episodes = .list ((keptOf project ++ retiredOf disk project).map .object))
    (hholds : ResetHolds disk project written) : Separate project := by
  have hentries : ledgerEntries written.episodes = keptOf project ++ retiredOf disk project := by
    rw [hepisodes, ledgerEntries_objects]
  refine ⟨fun entry hentry => ?_, fun cut hcut hisCut entry hentry hsame => ?_⟩
  · obtain ⟨retired, hledger, -⟩ := hholds.ledger
    rw [hledger, ledgerEntries_objects] at hentries
    have hmem := hentries ▸ List.mem_append_left retired hentry
    rcases List.mem_append.mp hmem with hkept | hretired
    · obtain ⟨-, other, -, hsome, hsame⟩ := mem_keptOf.mp hkept
      exact hsame ▸ hsome
    · obtain ⟨old, -, num, hnum, -, -, rfl⟩ := of_mem_retiredOf hretired
      rw [episodeNum_retire, hnum]
      exact Option.some_ne_none num
  · by_contra hsome
    have hkept := mem_keptOf.mpr ⟨hcut, entry, hentry, hsame ▸ hsome, hsame⟩
    have hnot := hholds.noCut cut (hentries ▸ List.mem_append_left _ hkept)
    rw [hisCut] at hnot
    cases hnot

/-- A confirmed reset whose file operations succeed does what it is for if and only if each entry that
is no cut episode has a number, and none that a cut episode has. -/
theorem reset_holds_iff {fileOperations : ResetPlan → Bool}
    (hfiles : fileOperations (scan disk project (otherOriginEpisodeIds project)) = true) :
    (∃ plan written, resetEpisodePlanning saver forgetFingerprints disk fileOperations true project
        project = .ok (.written plan written) ∧ ResetHolds disk project written) ↔
      Separate project := by
  obtain ⟨written, hreset, hepisodes, hmark⟩ :=
    reset_written saver forgetFingerprints fileOperations hfiles
  constructor
  · rintro ⟨plan, other, hother, hholds⟩
    cases hreset.symm.trans hother
    exact separate_of_holds hepisodes hholds
  · exact fun hseparate => ⟨_, written, hreset, holds_of_separate hseparate hepisodes hmark⟩

end Holds

def emptyDisk : Disk where
  safeExists := fun _ => false
  hasScript := fun _ => false
  productEpisodeNums := []
  episodeFileAliases := []
  scriptPlanRevision := fun _ => none

def entryOf (episode : Json) (origin : String) : Json :=
  .object [("episode", episode), ("source_origin", .string origin)]

def ledgerOf (items : List Json) : ProjectFile Unit :=
  ⟨.list items, .null, ()⟩

/-- A ledger with an id that cannot be read, one that is not positive, and an entry that is no object:
the reset does what it is for. -/
theorem reset_holds_damaged :
    ∃ plan written, resetEpisodePlanning bareSaver id emptyDisk (fun _ => true) true
      (ledgerOf [.null, entryOf (.string "x") "whole_source", entryOf (.int 3) "own",
        entryOf (.int (-1)) "whole_source"])
      (ledgerOf [.null, entryOf (.string "x") "whole_source", entryOf (.int 3) "own",
        entryOf (.int (-1)) "whole_source"]) = .ok (.written plan written) ∧
      ResetHolds emptyDisk (ledgerOf [.null, entryOf (.string "x") "whole_source",
        entryOf (.int 3) "own", entryOf (.int (-1)) "whole_source"]) written := by
  refine (reset_holds_iff rfl).mpr ⟨?_, ?_⟩
  · decide +kernel
  · decide +kernel

/-- A cut episode with the id of an episode with a text of its own stays in the ledger, and an episode
with a text of its own whose id cannot be read is gone. -/
theorem reset_fails_damaged :
    (¬ ∃ plan written, resetEpisodePlanning bareSaver id emptyDisk (fun _ => true) true
      (ledgerOf [entryOf (.int 3) "own", entryOf (.string "3") "whole_source"])
      (ledgerOf [entryOf (.int 3) "own", entryOf (.string "3") "whole_source"]) =
        .ok (.written plan written) ∧
      ResetHolds emptyDisk
        (ledgerOf [entryOf (.int 3) "own", entryOf (.string "3") "whole_source"]) written) ∧
    ¬ ∃ plan written, resetEpisodePlanning bareSaver id emptyDisk (fun _ => true) true
      (ledgerOf [entryOf (.string "x") "own"]) (ledgerOf [entryOf (.string "x") "own"]) =
        .ok (.written plan written) ∧
      ResetHolds emptyDisk (ledgerOf [entryOf (.string "x") "own"]) written := by
  have hnot : ∀ project : ProjectFile Unit, ¬ Separate project → ¬ ∃ plan written,
      resetEpisodePlanning bareSaver id emptyDisk (fun _ => true) true project project =
        .ok (.written plan written) ∧ ResetHolds emptyDisk project written := by
    rintro project hseparate ⟨plan, written, hreset, hholds⟩
    obtain ⟨other, hother, hepisodes, -⟩ :=
      @reset_written _ emptyDisk project bareSaver id (fun _ => true) rfl
    cases hreset.symm.trans hother
    exact hseparate (separate_of_holds hepisodes hholds)
  refine ⟨hnot _ fun hseparate => ?_, hnot _ fun hseparate => ?_⟩
  · have hown : [("episode", .int 3), ("source_origin", .string "own")] ∈ others
        (ledgerOf [entryOf (.int 3) "own", entryOf (.string "3") "whole_source"]) :=
      mem_others.mpr ⟨List.mem_cons_self, by decide⟩
    have hcut : [("episode", .string "3"), ("source_origin", .string "whole_source")] ∈ ledgerEntries
        (ledgerOf [entryOf (.int 3) "own", entryOf (.string "3") "whole_source"]).episodes :=
      List.mem_cons_of_mem _ List.mem_cons_self
    exact absurd (hseparate.2 _ hcut (by decide) _ hown (by decide +kernel)) (by decide +kernel)
  · have hown : [("episode", .string "x"), ("source_origin", .string "own")] ∈ others
        (ledgerOf [entryOf (.string "x") "own"]) := mem_others.mpr ⟨List.mem_cons_self, by decide⟩
    exact hseparate.1 _ hown (by decide +kernel)

end ShortReel.EpisodeReset
