import ShortReel.SwapDirs

/-!
# Keys of the session store

`data_root_layout_migration.py`: the session records of the projects that have moved into `projects/`
get the keys of the new directories.
-/

namespace ShortReel.SessionStoreKeys

open NameOrder SwapDirs

abbrev Path := List Char
abbrev Key := List Char

def dashed (c : Char) : Char :=
  if c.isAlphanum then c else '-'

/-- What is used of the agent SDK: how it makes a key of an absolute path. -/
structure SessionSdk where
  projectKeyForDirectory : Path → Key
  dashes : ∀ path, projectKeyForDirectory path = path.map dashed

def makeProjectKey (sdk : SessionSdk) (projectCwd : Path) : Key :=
  sdk.projectKeyForDirectory projectCwd

/-- `path / name`. -/
def join (path : Path) (name : Name) : Path :=
  if path.getLast? = some '/' then path ++ name else path ++ '/' :: name

def projectsDir (root : Path) : Path :=
  join root ['p', 'r', 'o', 'j', 'e', 'c', 't', 's']

def legacyKey (sdk : SessionSdk) (root : Path) (name : Name) : Key :=
  makeProjectKey sdk (join root name)

def currentKey (sdk : SessionSdk) (root : Path) (name : Name) : Key :=
  makeProjectKey sdk (join (projectsDir root) name)

/-- `PROJECT_NAME_PATTERN`. -/
def isProjectName (name : Name) : Bool :=
  name ≠ [] ∧ name.all fun c => c.isAlphanum || c = '-'

/-- An entry of a directory, with what `is_dir` and `is_symlink` say of it. -/
structure DirEntry where
  name : Name
  isDir : Bool
  isSymlink : Bool
  deriving DecidableEq, Repr

def isProjectNamedDir (entry : DirEntry) : Bool :=
  isProjectName entry.name && entry.isDir

def isProjectSwapDir (entry : DirEntry) : Bool :=
  ((rollbackProjectName entry.name).isSome || (stagingProjectName entry.name).isSome) &&
    entry.isDir && !entry.isSymlink

/-- `_moved_project_names`, with the names in the order they are found in. -/
def movedProjectNames (entries : List DirEntry) : List Name :=
  entries.filterMap fun entry =>
    if isProjectNamedDir entry then some entry.name
    else if isProjectSwapDir entry then
      (rollbackProjectName entry.name).or (stagingProjectName entry.name)
    else none

/-- A record of a session, with the columns that the migration does not read as `data`. -/
structure SessionRow (δ : Type) where
  projectKey : Key
  sessionId : String
  data : δ
  deriving DecidableEq, Repr

/-- The tables `AgentSessionEntry` and `AgentSessionSummary`. -/
structure SessionStore (δ ε : Type) where
  entries : List (SessionRow δ)
  summaries : List (SessionRow ε)
  deriving DecidableEq, Repr

section Tables

variable {δ : Type}

/-- The update of a table for one pair of keys. A session with records under both keys stays. -/
def rewriteTable (legacy current : Key) (rows : List (SessionRow δ)) : List (SessionRow δ) :=
  let legacyIds : List String := (rows.filter (·.projectKey = legacy)).map (·.sessionId)
  if legacyIds = [] then rows
  else
    let conflicting : List String :=
      (rows.filter fun row => row.projectKey = current ∧ row.sessionId ∈ legacyIds).map (·.sessionId)
    rows.map fun row : SessionRow δ =>
      if row.projectKey = legacy ∧ row.sessionId ∉ conflicting then { row with projectKey := current }
      else row

end Tables

variable {δ ε : Type}

def keyPairs (sdk : SessionSdk) (root : Path) (names : List Name) : List (Key × Key) :=
  (names.map fun name => (legacyKey sdk root name, currentKey sdk root name)).filter
    fun pair => pair.1 ≠ pair.2

def rewritePair (store : SessionStore δ ε) (pair : Key × Key) : SessionStore δ ε :=
  { entries := rewriteTable pair.1 pair.2 store.entries
    summaries := rewriteTable pair.1 pair.2 store.summaries }

/-- `_rewrite_session_store_keys`, as one transaction. -/
def rewriteSessionStoreKeys (sdk : SessionSdk) (root : Path) (entries : List DirEntry)
    (store : SessionStore δ ε) : SessionStore δ ε :=
  (keyPairs sdk root (sortedSet (movedProjectNames entries))).foldl rewritePair store

/-- A start of the program before the layout marker is there: the process dies before the transaction
is committed, or it is committed. -/
inductive Start where
  | lost
  | committed
  deriving DecidableEq, Repr

def start (sdk : SessionSdk) (root : Path) (entries : List DirEntry) (store : SessionStore δ ε) :
    Start → SessionStore δ ε
  | .lost => store
  | .committed => rewriteSessionStoreKeys sdk root entries store

def starts (sdk : SessionSdk) (root : Path) (entries : List DirEntry) (store : SessionStore δ ε)
    (run : List Start) : SessionStore δ ε :=
  run.foldl (start sdk root entries) store

end ShortReel.SessionStoreKeys
