import ShortReel.SessionStoreKeys

/-!
# Session records after the move

Where the records of each project are after any number of starts.
-/

namespace ShortReel.SessionKeyRuns

open NameOrder SessionStoreKeys

def nested (name : Name) : Name :=
  ['p', 'r', 'o', 'j', 'e', 'c', 't', 's', '-'] ++ name

def renamed (names : List Name) (name : Name) : Name :=
  names.foldl (fun name other => if name = other then nested other else name) name

section Renaming

variable {names : List Name} {name : Name}

theorem length_nested (name : Name) : (nested name).length = name.length + 9 := by
  rw [nested, List.length_append, Nat.add_comm]
  rfl

theorem renamed_not_mem (h : name ∉ names) : renamed names name = name := by
  induction names with
  | nil => rfl
  | cons other names ih =>
      obtain ⟨hne, hrest⟩ := not_or.mp (fun hor => h (List.mem_cons.mpr hor))
      rw [renamed, List.foldl_cons, if_neg hne]
      exact ih hrest

theorem renamed_mem (h : name ∈ names) (hnested : nested name ∉ names) :
    renamed names name = nested name := by
  induction names with
  | nil => exact absurd h List.not_mem_nil
  | cons other names ih =>
      have hrest : nested name ∉ names := fun hmem => hnested (List.mem_cons_of_mem _ hmem)
      rw [renamed, List.foldl_cons]
      by_cases heq : name = other
      · rw [if_pos heq, ← heq]
        exact renamed_not_mem hrest
      · rw [if_neg heq]
        exact ih ((List.mem_cons.mp h).resolve_left heq) hrest

theorem length_le_renamed (names : List Name) (name : Name) :
    name.length ≤ (renamed names name).length := by
  induction names generalizing name with
  | nil => exact le_rfl
  | cons other names ih =>
      rw [renamed, List.foldl_cons]
      refine le_trans ?_ (ih _)
      split_ifs with heq
      · rw [heq, length_nested]
        exact Nat.le_add_right _ _
      · exact le_rfl

theorem renamed_ne (h : name ∈ names) : renamed names name ≠ name := by
  induction names with
  | nil => exact absurd h List.not_mem_nil
  | cons other names ih =>
      rw [renamed, List.foldl_cons]
      by_cases heq : name = other
      · rw [if_pos heq]
        intro hsame
        have hlength := length_le_renamed names (nested other)
        rw [length_nested] at hlength
        have hequal := congrArg List.length hsame
        rw [heq] at hequal
        change (renamed names (nested other)).length = other.length at hequal
        omega
      · rw [if_neg heq]
        exact ih ((List.mem_cons.mp h).resolve_left heq)

end Renaming

section Keys

variable {sdk : SessionSdk} {root : Path} {name other : Name}

theorem map_dashed (h : isProjectName name) : name.map dashed = name := by
  refine (List.map_congr_left fun c hc => ?_).trans (List.map_id name)
  have hall := (of_decide_eq_true h).2
  have hchar := List.all_eq_true.mp hall c hc
  unfold dashed
  split_ifs with halnum
  · rfl
  · have hdash : c = '-' := by simpa [halnum] using hchar
    exact hdash.symm

theorem join_eq (root : Path) (name : Name) : join root name = join root [] ++ name := by
  unfold join
  split_ifs
  · rw [List.append_nil]
  · rw [List.append_assoc]
    rfl

theorem legacyKey_eq (h : isProjectName name) :
    legacyKey sdk root name = (join root []).map dashed ++ name := by
  rw [legacyKey, makeProjectKey, sdk.dashes, join_eq, List.map_append, map_dashed h]

theorem currentKey_eq (h : isProjectName name) :
    currentKey sdk root name = (join root []).map dashed ++ nested name := by
  have hlast : (projectsDir root).getLast? ≠ some '/' := by
    rw [projectsDir, join_eq]
    simp [List.getLast?_append]
  have hname : ('/' :: name).map dashed = '-' :: name := congrArg ('-' :: ·) (map_dashed h)
  rw [currentKey, makeProjectKey, sdk.dashes, join, if_neg hlast, projectsDir, join_eq,
    List.map_append, hname, List.map_append, List.append_assoc]
  rfl

theorem currentKey_injective (h : isProjectName name) (hother : isProjectName other)
    (heq : currentKey sdk root name = currentKey sdk root other) : name = other := by
  rw [currentKey_eq h, currentKey_eq hother] at heq
  exact List.append_cancel_left (List.append_cancel_left heq)

theorem legacyKey_ne_currentKey (h : isProjectName name) :
    legacyKey sdk root name ≠ currentKey sdk root name := by
  rw [legacyKey_eq h, currentKey_eq h]
  intro heq
  have hlength := congrArg List.length (List.append_cancel_left heq)
  rw [length_nested] at hlength
  omega

end Keys

section Tables

variable {δ : Type} {rows : List (SessionRow δ)} {keyOf other : String → Key}

def Keyed (keyOf : String → Key) (rows : List (SessionRow δ)) : Prop :=
  ∀ row ∈ rows, row.projectKey = keyOf row.sessionId

def withKeys (keyOf : String → Key) (rows : List (SessionRow δ)) : List (SessionRow δ) :=
  rows.map fun row => { row with projectKey := keyOf row.sessionId }

theorem keyed_withKeys : Keyed keyOf (withKeys keyOf rows) := by
  intro row hrow
  obtain ⟨before, -, rfl⟩ := List.mem_map.mp hrow
  rfl

theorem withKeys_withKeys : withKeys other (withKeys keyOf rows) = withKeys other rows := by
  rw [withKeys, withKeys, List.map_map]
  rfl

theorem withKeys_of_keyed (h : Keyed keyOf rows) : withKeys keyOf rows = rows := by
  refine (List.map_congr_left fun row hrow => ?_).trans (List.map_id rows)
  rw [← h row hrow]
  rfl

theorem row_stays {legacy current : Key} {row : SessionRow δ} (h : row.projectKey = keyOf row.sessionId)
    (hkey : row.projectKey ≠ legacy) :
    ({ row with projectKey := (if keyOf row.sessionId = legacy then current else keyOf row.sessionId) }
      : SessionRow δ) = row := by
  rw [← h, if_neg hkey]

theorem rewriteTable_keyed {legacy current : Key} (hne : legacy ≠ current) (h : Keyed keyOf rows) :
    rewriteTable legacy current rows =
      withKeys (fun session => if keyOf session = legacy then current else keyOf session) rows := by
  unfold rewriteTable
  dsimp only
  split_ifs with hnone
  · refine ((List.map_congr_left fun row hmem => ?_).trans (List.map_id rows)).symm
    refine row_stays (h row hmem) fun hlegacy => ?_
    have hin : row ∈ rows.filter (·.projectKey = legacy) :=
      List.mem_filter.mpr ⟨hmem, decide_eq_true hlegacy⟩
    rw [List.map_eq_nil_iff.mp hnone] at hin
    exact absurd hin List.not_mem_nil
  · refine List.map_congr_left fun row hmem => ?_
    by_cases hlegacy : row.projectKey = legacy
    · dsimp only
      rw [← h row hmem, if_pos hlegacy, if_pos]
      refine ⟨hlegacy, fun hconflict => hne ?_⟩
      obtain ⟨clash, hclash, hsame⟩ := List.mem_map.mp hconflict
      obtain ⟨hclash, hkey⟩ := List.mem_filter.mp hclash
      have hcurrent := (of_decide_eq_true hkey).1
      rw [← hlegacy, ← hcurrent, h row hmem, h clash hclash, hsame]
    · rw [if_neg (fun hboth => hlegacy hboth.1)]
      exact (row_stays (h row hmem) hlegacy).symm

end Tables

section Runs

variable {δ ε : Type} {sdk : SessionSdk} {root : Path} {entries : List DirEntry}
  {names : List Name} {owner : String → Name} {store : SessionStore δ ε} {pairs : List (Key × Key)}
  {keyOf : String → Key}

def renamedKey (pairs : List (Key × Key)) (key : Key) : Key :=
  pairs.foldl (fun key pair => if key = pair.1 then pair.2 else key) key

def storeWithKeys (keyOf : String → Key) (store : SessionStore δ ε) : SessionStore δ ε :=
  { entries := withKeys keyOf store.entries
    summaries := withKeys keyOf store.summaries }

theorem foldl_rewritePair (hpairs : ∀ pair ∈ pairs, pair.1 ≠ pair.2) :
    pairs.foldl rewritePair (storeWithKeys keyOf store) =
      storeWithKeys (fun session => renamedKey pairs (keyOf session)) store := by
  induction pairs generalizing keyOf with
  | nil => rfl
  | cons pair pairs ih =>
      have hpair := hpairs pair List.mem_cons_self
      have hstep : rewritePair (storeWithKeys keyOf store) pair = storeWithKeys
          (fun session => if keyOf session = pair.1 then pair.2 else keyOf session) store := by
        unfold rewritePair storeWithKeys
        dsimp only
        rw [rewriteTable_keyed hpair keyed_withKeys, rewriteTable_keyed hpair keyed_withKeys,
          withKeys_withKeys, withKeys_withKeys]
      rw [List.foldl_cons, hstep]
      exact ih fun other hother => hpairs other (List.mem_cons_of_mem _ hother)

theorem keyPairs_ne : ∀ pair ∈ keyPairs sdk root names, pair.1 ≠ pair.2 := by
  intro pair hpair
  exact of_decide_eq_true (List.mem_filter.mp hpair).2

theorem keyPairs_eq (hnames : ∀ name ∈ names, isProjectName name) :
    keyPairs sdk root names =
      names.map fun name => (legacyKey sdk root name, currentKey sdk root name) := by
  refine List.filter_eq_self.mpr fun pair hpair => ?_
  obtain ⟨name, hname, rfl⟩ := List.mem_map.mp hpair
  exact decide_eq_true (legacyKey_ne_currentKey (hnames name hname))

theorem renamedKey_keyPairs (hnames : ∀ name ∈ names, isProjectName name) (name : Name) :
    renamedKey (keyPairs sdk root names) ((join root []).map dashed ++ name) =
      (join root []).map dashed ++ renamed names name := by
  rw [keyPairs_eq hnames, renamedKey, List.foldl_map]
  induction names generalizing name with
  | nil => rfl
  | cons other names ih =>
      have hother := hnames other List.mem_cons_self
      rw [List.foldl_cons, renamed, List.foldl_cons, legacyKey_eq hother, currentKey_eq hother]
      have hcancel : (join root []).map dashed ++ name = (join root []).map dashed ++ other ↔
          name = other := ⟨List.append_cancel_left, congrArg _⟩
      by_cases heq : name = other
      · rw [if_pos (hcancel.mpr heq), if_pos heq]
        exact ih (fun later hlater => hnames later (List.mem_cons_of_mem _ hlater)) _
      · rw [if_neg (fun hsame => heq (hcancel.mp hsame)), if_neg heq]
        exact ih (fun later hlater => hnames later (List.mem_cons_of_mem _ hlater)) _

def storeUnder (root : Path) (nameOf : String → Name) (store : SessionStore δ ε) :
    SessionStore δ ε :=
  storeWithKeys (fun session => (join root []).map dashed ++ nameOf session) store

theorem rewrite_storeUnder (hnames : ∀ name ∈ movedProjectNames entries, isProjectName name)
    (nameOf : String → Name) :
    rewriteSessionStoreKeys sdk root entries (storeUnder root nameOf store) =
      storeUnder root
        (fun session => renamed (sortedSet (movedProjectNames entries)) (nameOf session)) store := by
  have hsorted : ∀ name ∈ sortedSet (movedProjectNames entries), isProjectName name :=
    fun name hname => hnames name (mem_sortedSet.mp hname)
  rw [rewriteSessionStoreKeys, storeUnder, foldl_rewritePair keyPairs_ne, storeUnder]
  refine congrArg (storeWithKeys · store) (funext fun session => ?_)
  exact renamedKey_keyPairs hsorted _

/-- The records are under the old keys of the projects that they belong to, each session in one. -/
structure Belongs (sdk : SessionSdk) (root : Path) (names : List Name) (owner : String → Name)
    (store : SessionStore δ ε) : Prop where
  entries : ∀ row ∈ store.entries,
    owner row.sessionId ∈ names ∧ row.projectKey = legacyKey sdk root (owner row.sessionId)
  summaries : ∀ row ∈ store.summaries,
    owner row.sessionId ∈ names ∧ row.projectKey = legacyKey sdk root (owner row.sessionId)

/-- Every record is under the new key of the project that it belongs to, and of no other. -/
structure Settled (sdk : SessionSdk) (root : Path) (names : List Name) (owner : String → Name)
    (before after : SessionStore δ ε) : Prop where
  moved : after = storeWithKeys (fun session => currentKey sdk root (owner session)) before
  entriesApart : ∀ name ∈ names, ∀ row ∈ after.entries,
    row.projectKey = currentKey sdk root name → name = owner row.sessionId
  summariesApart : ∀ name ∈ names, ∀ row ∈ after.summaries,
    row.projectKey = currentKey sdk root name → name = owner row.sessionId

def HasSession (store : SessionStore δ ε) (session : String) : Prop :=
  (∃ row ∈ store.entries, row.sessionId = session) ∨ ∃ row ∈ store.summaries, row.sessionId = session

theorem withKeys_congr {δ : Type} {rows : List (SessionRow δ)} {keyOf other : String → Key} :
    withKeys keyOf rows = withKeys other rows ↔
      ∀ row ∈ rows, keyOf row.sessionId = other row.sessionId := by
  constructor
  · intro heq row hrow
    exact congrArg SessionRow.projectKey (List.map_inj_left.mp heq row hrow)
  · intro hkeys
    refine List.map_congr_left fun row hrow => ?_
    rw [hkeys row hrow]

theorem storeWithKeys_congr {keyOf other : String → Key} :
    storeWithKeys keyOf store = storeWithKeys other store ↔
      ∀ session, HasSession store session → keyOf session = other session := by
  unfold storeWithKeys
  rw [SessionStore.mk.injEq, withKeys_congr, withKeys_congr]
  constructor
  · rintro ⟨hentries, hsummaries⟩ session (⟨row, hrow, rfl⟩ | ⟨row, hrow, rfl⟩)
    · exact hentries row hrow
    · exact hsummaries row hrow
  · intro h
    exact ⟨fun row hrow => h _ (.inl ⟨row, hrow, rfl⟩), fun row hrow => h _ (.inr ⟨row, hrow, rfl⟩)⟩

theorem Belongs.owner_mem (h : Belongs sdk root names owner store) {session : String}
    (hsession : HasSession store session) : owner session ∈ names := by
  rcases hsession with ⟨row, hrow, rfl⟩ | ⟨row, hrow, rfl⟩
  · exact (h.entries row hrow).1
  · exact (h.summaries row hrow).1

theorem Belongs.eq_storeUnder (h : Belongs sdk root names owner store)
    (hnames : ∀ name ∈ names, isProjectName name) : storeUnder root owner store = store := by
  have hkeys : ∀ session, HasSession store session →
      (join root []).map dashed ++ owner session = legacyKey sdk root (owner session) :=
    fun session hsession => (legacyKey_eq (hnames _ (h.owner_mem hsession))).symm
  rw [storeUnder, storeWithKeys_congr.mpr hkeys, storeWithKeys,
    withKeys_of_keyed fun row hrow => (h.entries row hrow).2,
    withKeys_of_keyed fun row hrow => (h.summaries row hrow).2]

theorem starts_storeUnder (hnames : ∀ name ∈ movedProjectNames entries, isProjectName name)
    (run : List Start) (nameOf : String → Name) :
    starts sdk root entries (storeUnder root nameOf store) run = storeUnder root (fun session =>
      (renamed (sortedSet (movedProjectNames entries)))^[run.count .committed] (nameOf session))
        store := by
  induction run generalizing nameOf with
  | nil => rfl
  | cons first run ih =>
      rw [starts, List.foldl_cons]
      cases first with
      | lost => exact ih nameOf
      | committed =>
          rw [start, rewrite_storeUnder hnames, List.count_cons_self]
          exact ih _

theorem settled_iff (hnames : ∀ name ∈ names, isProjectName name)
    (howners : ∀ session, HasSession store session → owner session ∈ names)
    (nameOf : String → Name) :
    Settled sdk root names owner store (storeUnder root nameOf store) ↔
      ∀ session, HasSession store session → nameOf session = nested (owner session) := by
  have hiff : storeUnder root nameOf store =
      storeWithKeys (fun session => currentKey sdk root (owner session)) store ↔
        ∀ session, HasSession store session → nameOf session = nested (owner session) := by
    rw [storeUnder, storeWithKeys_congr]
    refine forall_congr' fun session => forall_congr' fun hsession => ?_
    rw [currentKey_eq (hnames _ (howners session hsession))]
    exact ⟨List.append_cancel_left, congrArg _⟩
  refine ⟨fun h => hiff.mp h.moved, fun h => ?_⟩
  have hmoved := hiff.mpr h
  refine ⟨hmoved, fun name hname row hrow hkey => ?_, fun name hname row hrow hkey => ?_⟩
  · rw [hmoved] at hrow
    obtain ⟨before, hbefore, rfl⟩ := List.mem_map.mp hrow
    have howner := howners before.sessionId (.inl ⟨before, hbefore, rfl⟩)
    exact (currentKey_injective (hnames _ howner) (hnames name hname) hkey).symm
  · rw [hmoved] at hrow
    obtain ⟨before, hbefore, rfl⟩ := List.mem_map.mp hrow
    have howner := howners before.sessionId (.inr ⟨before, hbefore, rfl⟩)
    exact (currentKey_injective (hnames _ howner) (hnames name hname) hkey).symm

/-- The records of every project end up under its new key, however often the migration starts, if and
only if no project with a record has a sibling that is named as it with `projects-` in front. -/
theorem starts_settled_iff (sdk : SessionSdk) (root : Path)
    (hnames : ∀ name ∈ movedProjectNames entries, isProjectName name)
    (hbelongs : Belongs sdk root (movedProjectNames entries) owner store) :
    (∀ run, Start.committed ∈ run → Settled sdk root (movedProjectNames entries) owner store
      (starts sdk root entries store run)) ↔
      ∀ session, HasSession store session →
        nested (owner session) ∉ movedProjectNames entries := by
  have hrun : ∀ run, Settled sdk root (movedProjectNames entries) owner store
      (starts sdk root entries store run) ↔ ∀ session, HasSession store session →
        (renamed (sortedSet (movedProjectNames entries)))^[run.count .committed] (owner session) =
          nested (owner session) := by
    intro run
    have hstarts := @starts_storeUnder δ ε sdk root entries store hnames run owner
    rw [hbelongs.eq_storeUnder hnames] at hstarts
    rw [hstarts]
    exact settled_iff hnames (fun _ => hbelongs.owner_mem) _
  constructor
  · intro h session hsession hmem
    have honce := (hrun [.committed]).mp (h _ (List.mem_singleton.mpr rfl)) session hsession
    have htwice := (hrun [.committed, .committed]).mp (h _ List.mem_cons_self) session hsession
    -- The second run takes the new key for the old one of the sibling.
    change renamed (sortedSet (movedProjectNames entries)) (owner session) = _ at honce
    change renamed (sortedSet (movedProjectNames entries))
      (renamed (sortedSet (movedProjectNames entries)) (owner session)) = _ at htwice
    rw [honce] at htwice
    exact renamed_ne (mem_sortedSet.mpr hmem) htwice
  · intro h run hcommitted
    refine (hrun run).mpr fun session hsession => ?_
    have hfresh : nested (owner session) ∉ sortedSet (movedProjectNames entries) :=
      fun hmem => h session hsession (mem_sortedSet.mp hmem)
    have hfirst := renamed_mem (mem_sortedSet.mpr (hbelongs.owner_mem hsession)) hfresh
    obtain ⟨count, hcount⟩ := Nat.exists_eq_succ_of_ne_zero (List.count_pos_iff.mpr hcommitted).ne'
    rw [hcount, Nat.succ_eq_add_one, Function.iterate_succ_apply, hfirst]
    exact Function.iterate_fixed (renamed_not_mem hfresh) count

end Runs

def plainSdk : SessionSdk where
  projectKeyForDirectory path := path.map dashed
  dashes _ := rfl

def projectDir (name : Name) : DirEntry :=
  { name, isDir := true, isSymlink := false }

def recordOf (sdk : SessionSdk) (name : Name) (sessionId : String) : SessionRow ℕ :=
  { projectKey := legacyKey sdk ['/'] name, sessionId, data := 0 }

def ownerOf (session : String) : Name :=
  if session = "1" then ['a'] else nested ['a']

theorem starts_settled_one :
    Settled plainSdk ['/'] [['a']] ownerOf (⟨[recordOf plainSdk ['a'] "1"], []⟩ : SessionStore ℕ ℕ)
      (starts plainSdk ['/'] [projectDir ['a']] ⟨[recordOf plainSdk ['a'] "1"], []⟩
        [.lost, .committed, .committed]) := by
  refine (@starts_settled_iff ℕ ℕ [projectDir ['a']] ownerOf ⟨[recordOf plainSdk ['a'] "1"], []⟩
    plainSdk ['/'] (by decide) ⟨by decide, by decide⟩).mpr ?_ _ (by decide)
  rintro session (⟨row, hrow, rfl⟩ | ⟨row, hrow, -⟩)
  · obtain rfl := List.mem_singleton.mp hrow
    decide
  · exact absurd hrow List.not_mem_nil

/-- After the first run the record of `a` is under the new key of `projects-a`. -/
theorem starts_misplaced :
    Belongs plainSdk ['/'] [['a'], nested ['a']] ownerOf
      (⟨[recordOf plainSdk ['a'] "1", recordOf plainSdk (nested ['a']) "2"], []⟩ :
        SessionStore ℕ ℕ) ∧
    ((starts plainSdk ['/'] [projectDir ['a'], projectDir (nested ['a'])]
      (⟨[recordOf plainSdk ['a'] "1", recordOf plainSdk (nested ['a']) "2"], []⟩ :
        SessionStore ℕ ℕ) [.committed]).entries.map (·.projectKey)) =
      [currentKey plainSdk ['/'] (nested ['a']), currentKey plainSdk ['/'] (nested ['a'])] ∧
    currentKey plainSdk ['/'] (nested ['a']) ≠ currentKey plainSdk ['/'] ['a'] :=
  ⟨⟨by decide, by decide⟩, by decide, by decide⟩

end ShortReel.SessionKeyRuns
