import ShortReel.ManifestCache
import ShortReel.TransitionSystem

/-!
# Reads of the manifest

`_load_readonly` and `_load_cached`, one access at a time, among writes and other reads. All of them
share one cache. Writers hold the lock of their project. So do readers once there is a lock file; before
that they read twice.
-/

namespace ShortReel.ManifestReads

open InsertionDict ManifestCache

structure StoredFile where
  object : ℕ
  bytes : Bytes
  stat : FileStat

/-- The files of a project, who holds its lock, and what the manifest was so far, the latest first. -/
structure ProjectFiles (ρ : Type) where
  file : Option StoredFile
  lockFile : Bool
  holder : Option ρ
  objects : ℕ
  history : List (Option Bytes)

variable {ε α π ρ : Type}

def ProjectFiles.content (files : ProjectFiles ρ) : Option Bytes :=
  files.file.map StoredFile.bytes

def ProjectFiles.write (replacement : Option (Bytes × FileStat)) (files : ProjectFiles ρ) :
    ProjectFiles ρ :=
  { files with
    file := replacement.map fun written => ⟨files.objects, written.1, written.2⟩
    objects := files.objects + 1
    history := replacement.map Prod.fst :: files.history }

/-- `fstat` of an open file: one that was replaced since may have other times. -/
def ProjectFiles.fstat (files : ProjectFiles ρ) (handle : StoredFile) (fileStat : FileStat) : FileStat :=
  match files.file with
  | some file => if file.object = handle.object then file.stat else fileStat
  | none => fileStat

inductive ReadError (ε : Type) where
  | invalid (e : ε)
  | changed

/-- How far `_load_cached` has come. -/
inductive Load (parse : Bytes → Except ε α) where
  | opening
  | discarding
  | statting (handle : StoredFile)
  | looking (handle : StoredFile) (identity : Option ManifestFileIdentity)
  | rereading (handle : StoredFile) (identity : Option ManifestFileIdentity)
      (slot : Option (ManifestCacheSlot parse))
  | stamping (identity : ManifestFileIdentity) (parsed : ParsedManifest parse)
  | putting (slot : ManifestCacheSlot parse)
  | loaded (result : Except ε (Option (ParsedManifest parse)))

inductive Place (parse : Bytes → Except ε α) where
  | first
  | second (original : Option (ParsedManifest parse))
  | locked

/-- How far `_load_readonly` has come. -/
inductive Phase (parse : Bytes → Except ε α) where
  | probing
  | loading (place : Place parse) (load : Load parse)
  | reprobing (original : Option (ParsedManifest parse))
  | closing (original repeated : Option (ParsedManifest parse))
  | waiting

/-- A read knows how many versions there were when it began. -/
inductive Activity (π : Type) (parse : Bytes → Except ε α) where
  | idle
  | reading (project : π) (since : ℕ) (phase : Phase parse)
  | returned (project : π) (result : Except (ReadError ε) (Option (ParsedManifest parse)))
  | writing (project : π)

structure System (π ρ : Type) (parse : Bytes → Except ε α) where
  now : ℤ
  projects : π → ProjectFiles ρ
  cache : ReadCache π parse
  parties : ρ → Activity π parse

inductive Event (π ρ : Type) where
  | tick (time : ℤ)
  | beginRead (party : ρ) (project : π)
  | read (party : ρ) (fileStat : FileStat)
  | beginWrite (party : ρ) (project : π)
  | createLock (project : π)
  | acquire (party : ρ)
  | write (party : ρ) (replacement : Option (Bytes × FileStat))
  | release (party : ρ)

section Steps

variable [DecidableEq π] [DecidableEq ρ] {parse : Bytes → Except ε α} (posix : Bool) (limit : ℕ)

def Load.result? : Load parse → Option (Except ε (Option (ParsedManifest parse)))
  | .loaded result => some result
  | _ => none

def parseOrReuse (slot : Option (ManifestCacheSlot parse)) (raw : Bytes) :
    Except ε (ParsedManifest parse) :=
  match slot with
  | some slot => if slot.parsed.raw = raw then .ok slot.parsed else parseManifest parse raw
  | none => parseManifest parse raw

def loadStep (project : π) (files : ProjectFiles ρ) (now : ℤ) (fileStat : FileStat)
    (cache : ReadCache π parse) : Load parse → Load parse × ReadCache π parse
  | .opening =>
      match files.file with
      | none => (.discarding, cache)
      | some file => (.statting file, cache)
  | .discarding => (.loaded (.ok none), remove cache project)
  | .statting handle => (.looking handle (ManifestFileIdentity.of posix (files.fstat handle fileStat)), cache)
  | .looking handle none => (.rereading handle none none, cache)
  | .looking handle (some identity) =>
      match get cache project with
      | none => (.rereading handle (some identity) none, cache)
      | some slot =>
          if slot.settled ∧ slot.identity = identity then
            (.loaded (.ok (some slot.parsed)), touch cache project)
          else (.rereading handle (some identity) (some slot), touch cache project)
  | .rereading handle identity slot =>
      match parseOrReuse slot handle.bytes, identity with
      | .error e, _ => (.loaded (.error e), cache)
      | .ok parsed, none => (.loaded (.ok (some parsed)), cache)
      | .ok parsed, some identity =>
          if ManifestFileIdentity.of posix (files.fstat handle fileStat) = some identity then
            (.stamping identity parsed, cache)
          else (.loaded (.ok (some parsed)), cache)
  | .stamping identity parsed =>
      (.putting ⟨identity, manifestSettledAgeNs < now - identity.lastChangeNs, parsed⟩, cache)
  | .putting slot => (.loaded (.ok (some slot.parsed)), putSlot limit cache project slot)
  | .loaded result => (.loaded result, cache)

variable (s : System π ρ parse)

def setParty (party : ρ) (activity : Activity π parse) : System π ρ parse :=
  { s with parties := Function.update s.parties party activity }

def setProject (project : π) (files : ProjectFiles ρ) : System π ρ parse :=
  { s with projects := Function.update s.projects project files }

def unlock (project : π) : System π ρ parse :=
  setProject s project { s.projects project with holder := none }

def finishLoad (party : ρ) (project : π) (since : ℕ)
    (result : Except ε (Option (ParsedManifest parse))) : Place parse → System π ρ parse
  | .first =>
      match result with
      | .error e => setParty s party (.returned project (.error (.invalid e)))
      | .ok original => setParty s party (.reading project since (.reprobing original))
  | .second original =>
      match result with
      | .error e => setParty s party (.returned project (.error (.invalid e)))
      | .ok repeated => setParty s party (.reading project since (.closing original repeated))
  | .locked =>
      setParty (unlock s project) party (.returned project (result.mapError .invalid))

def unlockedResult (original repeated : Option (ParsedManifest parse)) :
    Except (ReadError ε) (Option (ParsedManifest parse)) :=
  if original.map ParsedManifest.raw = repeated.map ParsedManifest.raw then .ok original
  else .error .changed

def readStep (party : ρ) (fileStat : FileStat) : System π ρ parse :=
  match s.parties party with
  | .reading project since phase =>
      let lockFile := (s.projects project).lockFile
      match phase with
      | .probing =>
          setParty s party (.reading project since
            (if lockFile then .waiting else .loading .first .opening))
      | .loading place load =>
          match load.result? with
          | some result => finishLoad s party project since result place
          | none =>
              let (load, cache) :=
                loadStep posix limit project (s.projects project) s.now fileStat s.cache load
              setParty { s with cache } party (.reading project since (.loading place load))
      | .reprobing original =>
          setParty s party (.reading project since
            (if lockFile then .waiting else .loading (.second original) .opening))
      | .closing original repeated =>
          setParty s party (if lockFile then .reading project since .waiting
            else .returned project (unlockedResult original repeated))
      | .waiting => s
  | _ => s

def mayBegin : Activity π parse → Bool
  | .idle => true
  | .returned _ _ => true
  | _ => false

def beginRead (party : ρ) (project : π) : System π ρ parse :=
  if mayBegin (s.parties party) then
    setParty s party (.reading project (s.projects project).history.length .probing)
  else s

def beginWrite (party : ρ) (project : π) : System π ρ parse :=
  if mayBegin (s.parties party) then setParty s party (.writing project) else s

def createLock (project : π) : System π ρ parse :=
  setProject s project { s.projects project with lockFile := true }

def lock (party : ρ) (project : π) : System π ρ parse :=
  setProject s project { s.projects project with holder := some party }

def isFree (project : π) : Bool :=
  (s.projects project).lockFile ∧ (s.projects project).holder = none

def acquire (party : ρ) : System π ρ parse :=
  match s.parties party with
  | .reading project since .waiting =>
      if isFree s project then
        setParty (lock s party project) party (.reading project since (.loading .locked .opening))
      else s
  | .writing project => if isFree s project then lock s party project else s
  | _ => s

def writeStep (party : ρ) (replacement : Option (Bytes × FileStat)) : System π ρ parse :=
  match s.parties party with
  | .writing project =>
      if (s.projects project).holder = some party then
        setProject s project ((s.projects project).write replacement)
      else s
  | _ => s

def release (party : ρ) : System π ρ parse :=
  match s.parties party with
  | .writing project =>
      if (s.projects project).holder = some party then setParty (unlock s project) party .idle
      else s
  | _ => s

def run : Event π ρ → System π ρ parse
  | .tick time => { s with now := max s.now time }
  | .beginRead party project => beginRead s party project
  | .read party fileStat => readStep posix limit s party fileStat
  | .beginWrite party project => beginWrite s party project
  | .createLock project => createLock s project
  | .acquire party => acquire s party
  | .write party replacement => writeStep s party replacement
  | .release party => release s party

end Steps

end ShortReel.ManifestReads
