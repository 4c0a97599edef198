import Mathlib.Order.MinMax
import ShortReel.LedgerFile
import ShortReel.SourceFileRuns

/-!
# Writes of the ledger and the high-water mark

`update_project` raises the mark before its mutation and behind it, `locked_source_registration`
only behind its block.
-/

namespace ShortReel.LedgerFile

open EpisodeLedger (LedgerEntry Project SourceOrigin WholeSourceFile)

variable {Rest : Type}

/-- What the saving of a project does to its other fields, what it compares, and how it compares. -/
structure Saver (Rest : Type) where
  sourceRemaining : ProjectFile Rest → Rest
  planningInputs : ProjectFile Rest → String
  touch : Rest → Rest
  dumps : ProjectFile Rest → String

/-- A write of `project.json`: the mutation of `update_project`, or the block of
`locked_source_registration`. It is none where it raises. -/
inductive Write (Rest : Type) where
  | update (mutate : ProjectFile Rest → Option (ProjectFile Rest))
  | register (block : ProjectFile Rest → Option (ProjectFile Rest))

namespace ProjectFile

variable (saver : Saver Rest) (project : ProjectFile Rest)

def recordSourceRemaining : ProjectFile Rest :=
  { project with rest := saver.sourceRemaining project }

def touchMetadata : ProjectFile Rest :=
  { project.raiseEpisodeIdHighWater [] with rest := saver.touch project.rest }

/-- `_apply_project_mutation_unlocked`. -/
def applyMutation (mutate : ProjectFile Rest → Option (ProjectFile Rest)) :
    Option (ProjectFile Rest) := do
  let raised := project.raiseEpisodeIdHighWater []
  let mutated ← mutate raised
  let recorded :=
    if saver.planningInputs mutated = saver.planningInputs raised then mutated
    else mutated.recordSourceRemaining saver
  return recorded.touchMetadata saver

/-- `locked_source_registration`. It writes nothing when the block has changed nothing. -/
def lockedSourceRegistration (block : ProjectFile Rest → Option (ProjectFile Rest)) :
    Option (ProjectFile Rest) := do
  let left ← block project
  let recorded := left.recordSourceRemaining saver
  if saver.dumps recorded = saver.dumps project then none
  else recorded.applyMutation saver some

def write : Write Rest → Option (ProjectFile Rest)
  | .update mutate => project.applyMutation saver mutate
  | .register block => project.lockedSourceRegistration saver block

end ProjectFile

def KeepsMark (project : ProjectFile Rest) : Write Rest → Prop
  | .update mutate => ∀ mutated, mutate (project.raiseEpisodeIdHighWater []) = some mutated →
      (project.raiseEpisodeIdHighWater []).storedHighWater ≤ mutated.storedHighWater
  | .register block => ∀ left, block project = some left →
      project.storedHighWater ≤ left.storedHighWater

/-- The runs of writes, from any `project.json`. -/
def writing (saver : Saver Rest) : TransitionSystem (ProjectFile Rest) (Write Rest) where
  initial _ := True
  step project write later :=
    KeepsMark project write ∧ project.write saver write = some later

/-- Each id that a block takes out of the ledger is at most the mark that it leaves, or an id that it
leaves. -/
def Covered (project : ProjectFile Rest) : Write Rest → Prop
  | .update _ => True
  | .register block => ∀ left, block project = some left → ∀ id ∈ project.ledgerEpisodeIds,
      id ≤ left.storedHighWater ∨ ∃ other ∈ left.ledgerEpisodeIds, id ≤ other

section Marks

variable (project : ProjectFile Rest)

theorem le_foldl_iff {ids : List ℕ} {first bound : ℕ} :
    bound ≤ ids.foldl max first ↔ bound ≤ first ∨ ∃ id ∈ ids, bound ≤ id := by
  induction ids generalizing first with
  | nil => simp
  | cons id ids ih =>
      rw [List.foldl_cons, ih, le_max_iff, or_assoc]
      simp only [List.mem_cons, exists_eq_or_imp]

theorem stored_le_highWater : project.storedHighWater ≤ project.episodeIdHighWater :=
  le_foldl_iff.mpr (Or.inl le_rfl)

theorem id_le_highWater {id : ℕ} (hid : id ∈ project.ledgerEpisodeIds) :
    id ≤ project.episodeIdHighWater :=
  le_foldl_iff.mpr (Or.inr ⟨id, hid, le_rfl⟩)

@[simp] theorem raise_episodes (recorded : List ℕ) :
    (project.raiseEpisodeIdHighWater recorded).episodes = project.episodes := by
  unfold ProjectFile.raiseEpisodeIdHighWater
  dsimp only
  split <;> rfl

@[simp] theorem raise_ids (recorded : List ℕ) :
    (project.raiseEpisodeIdHighWater recorded).ledgerEpisodeIds = project.ledgerEpisodeIds := by
  rw [ProjectFile.ledgerEpisodeIds, raise_episodes]
  rfl

theorem raise_stored (recorded : List ℕ) :
    (project.raiseEpisodeIdHighWater recorded).storedHighWater =
      recorded.foldl max project.episodeIdHighWater := by
  have hstored : project.storedHighWater ≤ recorded.foldl max project.episodeIdHighWater :=
    le_foldl_iff.mpr (Or.inl (stored_le_highWater project))
  unfold ProjectFile.raiseEpisodeIdHighWater
  dsimp only
  split
  · rw [ProjectFile.storedHighWater]
    exact Int.toNat_natCast _
  · rename_i hnot
    exact hstored.antisymm (Nat.le_of_not_lt hnot)

@[simp] theorem raise_highWater :
    (project.raiseEpisodeIdHighWater []).episodeIdHighWater = project.episodeIdHighWater := by
  rw [ProjectFile.episodeIdHighWater, raise_ids, raise_stored]
  refine le_antisymm ?_ (le_foldl_iff.mpr (Or.inl le_rfl))
  rcases le_foldl_iff.mp (le_refl (project.ledgerEpisodeIds.foldl max project.episodeIdHighWater))
    with hle | ⟨id, hid, hle⟩
  · exact hle
  · exact hle.trans (id_le_highWater project hid)

theorem allocated_gt {count id : ℕ} (hid : id ∈ (project.allocateEpisodeIds count).1) :
    project.episodeIdHighWater < id := by
  have hids : (project.allocateEpisodeIds count).1 =
      List.range' (project.episodeIdHighWater + 1) count := by
    unfold ProjectFile.allocateEpisodeIds
    dsimp only
    split <;> rfl
  rw [hids, List.mem_range'_1] at hid
  exact hid.1

end Marks

section OneWrite

variable {saver : Saver Rest} {project later : ProjectFile Rest}

theorem ids_congr {other : ProjectFile Rest} (hepisodes : other.episodes = project.episodes) :
    other.ledgerEpisodeIds = project.ledgerEpisodeIds := by
  rw [ProjectFile.ledgerEpisodeIds, hepisodes]
  rfl

theorem applyMutation_eq_some {mutate : ProjectFile Rest → Option (ProjectFile Rest)}
    (happly : project.applyMutation saver mutate = some later) :
    ∃ mutated, mutate (project.raiseEpisodeIdHighWater []) = some mutated ∧
      later.episodes = mutated.episodes ∧ later.storedHighWater = mutated.episodeIdHighWater := by
  obtain ⟨mutated, hmutated, hlater⟩ := Option.bind_eq_some_iff.mp happly
  refine ⟨mutated, hmutated, ?_⟩
  cases hlater
  have htouched : ∀ recorded : ProjectFile Rest,
      (recorded.touchMetadata saver).episodes = recorded.episodes ∧
        (recorded.touchMetadata saver).storedHighWater = recorded.episodeIdHighWater :=
    fun recorded => ⟨raise_episodes recorded [], raise_stored recorded []⟩
  split
  · exact htouched mutated
  · exact htouched (mutated.recordSourceRemaining saver)

theorem applyMutation_isSome (saver : Saver Rest) {mutate : ProjectFile Rest → Option (ProjectFile Rest)}
    {mutated : ProjectFile Rest}
    (hmutated : mutate (project.raiseEpisodeIdHighWater []) = some mutated) :
    ∃ later, project.applyMutation saver mutate = some later := by
  rw [ProjectFile.applyMutation, hmutated]
  exact ⟨_, rfl⟩

theorem registration_eq_some {block : ProjectFile Rest → Option (ProjectFile Rest)}
    (hregister : project.lockedSourceRegistration saver block = some later) :
    ∃ left, block project = some left ∧ later.episodes = left.episodes ∧
      later.storedHighWater = left.episodeIdHighWater := by
  obtain ⟨left, hleft, hregister⟩ := Option.bind_eq_some_iff.mp hregister
  dsimp only at hregister
  split at hregister
  · cases hregister
  · obtain ⟨recorded, hrecorded, hepisodes, hstored⟩ := applyMutation_eq_some hregister
    cases hrecorded
    refine ⟨left, hleft, hepisodes.trans (raise_episodes _ _), hstored.trans ?_⟩
    exact raise_highWater (left.recordSourceRemaining saver)

variable {write : Write Rest}

theorem later_covered (hwrite : project.write saver write = some later) {id : ℕ}
    (hid : id ∈ later.ledgerEpisodeIds) : id ≤ later.storedHighWater := by
  cases write with
  | update mutate =>
      obtain ⟨mutated, -, hepisodes, hstored⟩ := applyMutation_eq_some hwrite
      rw [hstored]
      exact id_le_highWater mutated (ids_congr hepisodes ▸ hid)
  | register block =>
      obtain ⟨left, -, hepisodes, hstored⟩ := registration_eq_some hwrite
      rw [hstored]
      exact id_le_highWater left (ids_congr hepisodes ▸ hid)

theorem highWater_le_stored (hkeeps : KeepsMark project write) (hcovered : Covered project write)
    (hwrite : project.write saver write = some later) :
    project.episodeIdHighWater ≤ later.storedHighWater := by
  cases write with
  | update mutate =>
      obtain ⟨mutated, hmutated, -, hstored⟩ := applyMutation_eq_some hwrite
      have hmark := hkeeps mutated hmutated
      rw [raise_stored, List.foldl_nil] at hmark
      rw [hstored]
      exact hmark.trans (stored_le_highWater mutated)
  | register block =>
      obtain ⟨left, hleft, -, hstored⟩ := registration_eq_some hwrite
      rw [hstored]
      rcases le_foldl_iff.mp (le_refl project.episodeIdHighWater) with hle | ⟨id, hid, hle⟩
      · exact hle.trans ((hkeeps left hleft).trans (stored_le_highWater left))
      · exact hle.trans (le_foldl_iff.mpr (hcovered left hleft id hid))

theorem before_covered_iff (hkeeps : KeepsMark project write)
    (hwrite : project.write saver write = some later) :
    (∀ id ∈ project.ledgerEpisodeIds, id ≤ later.storedHighWater) ↔ Covered project write := by
  refine ⟨fun hbefore => ?_, fun hcovered id hid => ?_⟩
  · cases write with
    | update mutate => trivial
    | register block =>
        obtain ⟨left, hleft, -, hstored⟩ := registration_eq_some hwrite
        intro left' hleft' id hid
        cases hleft.symm.trans hleft'
        exact le_foldl_iff.mp ((hbefore id hid).trans_eq hstored)
  · exact (id_le_highWater project hid).trans (highWater_le_stored hkeeps hcovered hwrite)

end OneWrite

/-- In a run of covered writes no id is handed out that a ledger of the run has had; and a write stores
a mark that covers the ledgers before and behind it just when it is covered. -/
theorem marks_cover (saver : Saver Rest) (first stored : ProjectFile Rest)
    (hleads : (writing saver).LeadsWhen Covered first stored) :
    (∀ count, ∀ id ∈ first.ledgerEpisodeIds, id ∉ (stored.allocateEpisodeIds count).1) ∧
    ∀ write later, (writing saver).step stored write later →
      ((∀ id ∈ stored.ledgerEpisodeIds ++ later.ledgerEpisodeIds, id ≤ later.storedHighWater) ↔
        Covered stored write) := by
  have hle : first.episodeIdHighWater ≤ stored.episodeIdHighWater := by
    refine hleads.respects (fun before after => before.episodeIdHighWater ≤ after.episodeIdHighWater)
      (fun _ => le_rfl) (fun _ _ _ => le_trans) ?_ (.start trivial)
    rintro before write after - hcovered ⟨hkeeps, hwrite⟩
    exact (highWater_le_stored hkeeps hcovered hwrite).trans (stored_le_highWater after)
  refine ⟨fun count id hid hallocated => ?_, ?_⟩
  · have hgt := allocated_gt stored hallocated
    have hbound := (id_le_highWater first hid).trans hle
    omega
  · rintro write later ⟨hkeeps, hwrite⟩
    rw [← before_covered_iff hkeeps hwrite]
    constructor
    · exact fun hall id hid => hall id (List.mem_append_left _ hid)
    · intro hbefore id hid
      rcases List.mem_append.mp hid with hid | hid
      · exact hbefore id hid
      · exact later_covered hwrite hid

def numbered (ids : List ℤ) (highWater : Json) : ProjectFile Unit where
  episodes := .list (ids.map fun id => .object [("episode", .int id)])
  highWater := highWater
  rest := ()

def bareSaver : Saver Unit where
  sourceRemaining := fun _ => ()
  planningInputs := fun project => toString project.ledgerEpisodeIds
  touch := id
  dumps := fun project => toString project.ledgerEpisodeIds

def keepFirst : Write Unit :=
  .register fun project => some { numbered [1] .null with highWater := project.highWater }

/-- With the mark recorded, the id of the episode that is removed is not handed out again. -/
theorem marks_cover_recorded :
    ∃ later, (numbered [1, 2] (.int 2)).write bareSaver keepFirst = some later ∧
      later.ledgerEpisodeIds = [1] ∧ 2 ∉ (later.allocateEpisodeIds 1).1 := by
  have hstored : ((numbered [1, 2] (.int 2)).write bareSaver keepFirst).map
      ProjectFile.ledgerEpisodeIds = some [1] := by decide +kernel
  obtain ⟨later, hwrite, hids⟩ := Option.map_eq_some_iff.mp hstored
  have hleads : (writing bareSaver).LeadsWhen Covered (numbered [1, 2] (.int 2)) later := by
    refine .tail .refl ⟨keepFirst, ?_, ?_, hwrite⟩
    · rintro left ⟨⟩
      decide
    · rintro left ⟨⟩
      exact le_rfl
  exact ⟨later, hwrite, hids, (marks_cover bareSaver _ _ hleads).1 1 2 (by decide)⟩

def originName : SourceOrigin → String
  | .wholeSource => "whole_source"
  | .own => "own"
  | .none => "none"

def entryFields (entry : LedgerEntry) : Fields :=
  ("episode", .int entry.episode) :: ("script_file", .string entry.scriptFile) ::
    (entry.sourceOrigin.map fun origin => ("source_origin", .string (originName origin))).toList ++
    match entry.sourceRange with
    | .missing => []
    | .malformed => [("source_range", .object [])]
    | .span range =>
        [("source_range", .object [("source_file", .string range.sourceFile), ("start", .int range.start),
          ("end", .int range.stop), ("end_file", .string range.endFile)])]

def storedFile (project : Project) : ProjectFile (List WholeSourceFile) where
  episodes := .list (project.entries.map fun entry => .object (entryFields entry))
  highWater := .int project.highWater
  rest := project.sources

def unmarkedProject : Project where
  contentMode := .drama
  sources := [⟨"source/a.txt", some ['x'], .novel⟩, ⟨"source/b.txt", some ['y'], .novel⟩]
  entries := [⟨1, [], "scripts/episode_1.json", some .wholeSource,
      .span ⟨"source/a.txt", 0, "source/a.txt", 1⟩, .planned⟩,
    ⟨2, [], "scripts/episode_2.json", some .wholeSource,
      .span ⟨"source/b.txt", 0, "source/b.txt", 1⟩, .planned⟩]
  highWater := 0
  fingerprints := []
  sourceRemaining := none
  snapshots := fun _ => none
  files := fun _ => none
  products := []

theorem unmarkedProject_spans : SourceFileChanges.spans unmarkedProject =
    .ok [(1, ⟨"source/a.txt", 0, "source/a.txt", 1⟩), (2, ⟨"source/b.txt", 0, "source/b.txt", 1⟩)] := by
  have hplacements : unmarkedProject.placements = [⟨1, ⟨0, 0, 0, 1⟩⟩, ⟨2, ⟨1, 0, 1, 1⟩⟩] := by
    unfold Project.placements CutPlacements.cutEpisodePlacements
    rw [List.mergeSort_of_pairwise (by decide)]
    decide
  unfold Project.placements at hplacements
  unfold SourceFileChanges.spans CutPlacements.spansOf
  rw [hplacements]
  rfl

/-- The second file is deleted, and with it the second episode: the next episode gets its id. -/
theorem deleted_id_reused :
    (∃ outcome, SourceFileChanges.run RemapTexts.disjointMatcher (fun _ => "") (fun _ => false)
        (fun _ _ => "confirmed") (.delete "b.txt") (some "confirmed") false unmarkedProject =
          .ok outcome ∧ outcome.applied = true ∧ 2 ∈ (storedFile unmarkedProject).ledgerEpisodeIds ∧
        (storedFile outcome.project).storedHighWater = 1 ∧
        ((storedFile outcome.project).allocateEpisodeIds 1).1 = [2]) ∧
    ∃ later, (writing bareSaver).step (numbered [1, 2] .null) keepFirst later ∧
      2 ∈ (numbered [1, 2] .null).ledgerEpisodeIds ∧ later.storedHighWater = 1 ∧
      (later.allocateEpisodeIds 1).1 = [2] := by
  constructor
  · unfold SourceFileChanges.run SourceFileChanges.Command.plan SourceFileChanges.planDelete
    rw [unmarkedProject_spans]
    exact ⟨_, rfl, rfl, by decide, rfl, rfl⟩
  · have hstored : ((numbered [1, 2] .null).write bareSaver keepFirst).map
        (fun later => (later.storedHighWater, (later.allocateEpisodeIds 1).1)) = some (1, [2]) := by
      decide +kernel
    obtain ⟨later, hwrite, hmarks⟩ := Option.map_eq_some_iff.mp hstored
    rw [Prod.mk.injEq] at hmarks
    refine ⟨later, ⟨?_, hwrite⟩, by decide, hmarks⟩
    rintro left ⟨⟩
    exact le_rfl

end ShortReel.LedgerFile
