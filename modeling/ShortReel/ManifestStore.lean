import Mathlib.Data.List.Sort
import ShortReel.ContendedFiles
import ShortReel.InsertionDict
import ShortReel.TransitionSystem

/-!
# The artifact manifest

`ProjectArtifactManifestAdapter`: the claims of a project are in one file, each under the encoding of its
key. Every operation reads the file anew under its lock.
-/

namespace ShortReel.ManifestStore

open ContendedFiles InsertionDict

structure ArtifactManifestEntry where
  artifactPath : String
  basisDigest : String
  deriving DecidableEq, Repr

/-- `interrupted` stands for every failure of the system and for an interruption. -/
inductive ManifestError where
  | manifest (detail : String)
  | registration (detail : String)
  | value (detail : String)
  | interrupted
  | rollbackIncomplete (detail : String)
  deriving DecidableEq, Repr

structure TextTables where
  repr : String → String
  nfc : String → String
  casefold : String → String

section Checks

variable (text : TextTables)

def manifestFilename : String := ".arcreel_artifacts.json"

def lockFilename : String := ".artifact_manifest.lock"

def reservedArtifactPaths : List String := [manifestFilename, lockFilename]

def isCanonicalPart (part : List Char) : Bool :=
  part ≠ [] ∧ part.getLast? ≠ some '.' ∧ part.getLast? ≠ some ' ' ∧ ':' ∉ part

def normalizeArtifactPath (value : String) : Except String String :=
  let parts := value.toList.splitOn '/'
  if value = "" ∨ '\x00' ∈ value.toList ∨ '\\' ∈ value.toList then
    .error ("artifact path must be a non-empty project-relative POSIX path: " ++ text.repr value)
  else if ¬ parts.all isCanonicalPart then
    .error ("artifact path must be a canonical project-relative POSIX path: " ++ text.repr value)
  else if value ∈ reservedArtifactPaths ∨
      parts.length = 1 ∧ text.casefold value ∈ reservedArtifactPaths then
    .error ("runtime-owned path cannot be registered as an artifact: " ++ text.repr value)
  else .ok value

/-- `sha256-v1:` and 64 lower hexadecimal digits. -/
def isPrefixedDigest (digest : String) : Bool :=
  let chars := digest.toList
  chars.take 10 = "sha256-v1:".toList ∧ chars.length = 74 ∧
    (chars.drop 10).all fun c => c.isDigit || ('a' ≤ c && c ≤ 'f')

def encodeTargetEntry (entry : ArtifactManifestEntry) : Except ManifestError Unit :=
  match normalizeArtifactPath text entry.artifactPath with
  | .error detail => .error (.value detail)
  | .ok path =>
      if path ≠ entry.artifactPath then
        .error (.value "manifest target artifact path must be canonical")
      else if ¬ isPrefixedDigest entry.basisDigest then
        .error (.value "manifest target basis digest must be a canonical sha256-v1 digest")
      else .ok ()

/-- Claims to be compared or written, with `none` where there is none. -/
abbrev OptionalEntries := Dict String (Option ArtifactManifestEntry)

def encodeOptionalEntries (entries : OptionalEntries) : Except ManifestError Unit :=
  (entries.filterMap Prod.snd).forM (encodeTargetEntry text)

def filesystemIdentity (entry : ArtifactManifestEntry) : String :=
  text.casefold (text.nfc entry.artifactPath)

def addOwner (owners : Dict String String) (item : String × ArtifactManifestEntry) :
    Except ManifestError (Dict String String) :=
  match get owners (filesystemIdentity text item.2) with
  | some owner =>
      if owner ≠ item.1 then
        .error (.manifest ("formal artifact path is claimed by multiple keys: " ++
          item.2.artifactPath ++ " (" ++ owner ++ ", " ++ item.1 ++ ")"))
      else .ok (put owners (filesystemIdentity text item.2) item.1)
  | none => .ok (put owners (filesystemIdentity text item.2) item.1)

def assertUniqueArtifactPaths (entries : Dict String ArtifactManifestEntry) :
    Except ManifestError Unit := do
  let _ ← entries.foldlM (addOwner text) []
  return ()

end Checks

structure Entries where
  items : Dict String ArtifactManifestEntry
  nodup : (keys items).Nodup

def Entries.empty : Entries where
  items := []
  nodup := List.nodup_nil

def Entries.get (entries : Entries) (key : String) : Option ArtifactManifestEntry :=
  InsertionDict.get entries.items key

def Entries.set (entries : Entries) (key : String) : Option ArtifactManifestEntry → Entries
  | none => ⟨remove entries.items key, nodup_remove entries.nodup⟩
  | some entry => ⟨put entries.items key entry, nodup_put entries.nodup⟩

def Entries.setAll (entries : Entries) (replacements : OptionalEntries) : Entries :=
  replacements.foldl (fun entries item => entries.set item.1 item.2) entries

def Entries.sorted (entries : Entries) : Entries where
  items := entries.items.insertionSort fun a b => a.1 ≤ b.1
  nodup := (((List.perm_insertionSort _ entries.items).map Prod.fst).nodup_iff).mpr entries.nodup

/-- What the manifest parses to. Its bytes may be those that `_serialize_manifest` writes for it. -/
inductive ManifestFile where
  | absent
  | unreadable (detail : String)
  | present (entries : Entries) (serialized : Bool)

def loadUnlocked : ManifestFile → Except ManifestError Entries
  | .absent => .ok .empty
  | .unreadable detail => .error (.manifest detail)
  | .present entries _ => .ok entries

def ManifestFile.isAbsent : ManifestFile → Bool
  | .absent => true
  | _ => false

def ManifestFile.hasBytes (entries : Entries) : ManifestFile → Bool
  | .present original true => original.items = entries.items
  | _ => false

def serializeManifest (text : TextTables) (entries : Entries) : Except ManifestError Entries := do
  assertUniqueArtifactPaths text entries.items
  return entries.sorted

section Operations

variable (text : TextTables)

abbrev Act (α : Type) := ManifestFile → Except ManifestError (α × Option ManifestFile)

abbrev ManifestM := EStateM ManifestError (Session ManifestFile)

def readLocked (key : String) : Act (Option ArtifactManifestEntry) := fun file => do
  let entries ← loadUnlocked file
  return (entries.get key, none)

def writeUnlessSame (entries : Entries) : Act Bool := fun file => do
  let newBytes ← serializeManifest text entries
  if file.hasBytes newBytes then
    return (false, none)
  return (true, some (.present newBytes true))

def putLocked (key : String) (entry : ArtifactManifestEntry) : Act Bool := fun file => do
  let entries ← loadUnlocked file
  if entries.get key = some entry ∧ ¬ file.isAbsent then
    return (false, none)
  writeUnlessSame text (entries.set key (some entry)) file

def deleteLocked (key : String) : Act Bool := fun file => do
  let entries ← loadUnlocked file
  if entries.get key = none then
    return (false, none)
  let entries := entries.set key none
  if entries.items = [] then
    return (true, some .absent)
  writeUnlessSame text entries file

def replaceLocked (expected replacements : OptionalEntries) : Act Bool := fun file => do
  let entries ← loadUnlocked file
  if expected.any fun item => entries.get item.1 ≠ item.2 then
    return (false, none)
  let entries := entries.setAll replacements
  if entries.items = [] then
    return (!file.isAbsent, some .absent)
  writeUnlessSame text entries file

def getEntry (key : String) : ManifestM (Option ArtifactManifestEntry) :=
  access .interrupted (readLocked key)

def putEntry (key : String) (entry : ArtifactManifestEntry) : ManifestM Bool :=
  access .interrupted (putLocked text key entry)

def deleteEntry (key : String) : ManifestM Bool :=
  access .interrupted (deleteLocked text key)

def replaceEntriesIfMatchesAtomically (expected replacements : OptionalEntries) : ManifestM Bool := do
  if let .error e := encodeOptionalEntries text expected then
    throw e
  if let .error e := encodeOptionalEntries text replacements then
    throw e
  access .interrupted (replaceLocked text expected replacements)

end Operations

/-- The claim under a key, `none` where the file cannot be read. -/
def lookup : ManifestFile → String → Option (Option ArtifactManifestEntry)
  | .absent, _ => some none
  | .unreadable _, _ => none
  | .present entries _, key => some (entries.get key)

section Specs

variable {text : TextTables} {entries : Entries} {file : ManifestFile} {key other : String}
  {value : Option ArtifactManifestEntry} {replacements expected : OptionalEntries} {changed : Bool}
  {written : Option ManifestFile}

theorem get_set : (entries.set key value).get other = if other = key then value else entries.get other := by
  cases value with
  | none => exact get_remove
  | some entry => exact get_put

theorem get_sorted : entries.sorted.get key = entries.get key :=
  (get_perm entries.nodup (List.perm_insertionSort _ _).symm).symm

theorem get_setAll_of_notMem (h : key ∉ keys replacements) :
    (entries.setAll replacements).get key = entries.get key := by
  induction replacements generalizing entries with
  | nil => rfl
  | cons item replacements ih =>
      obtain ⟨hne, hrest⟩ := List.ne_and_not_mem_of_not_mem_cons h
      refine (ih hrest).trans ?_
      rw [get_set, if_neg hne]

theorem mem_get_setAll (h : key ∈ keys replacements) :
    (key, (entries.setAll replacements).get key) ∈ replacements := by
  induction replacements generalizing entries with
  | nil => cases h
  | cons item replacements ih =>
      by_cases hrest : key ∈ keys replacements
      · exact List.mem_cons_of_mem _ (ih hrest)
      · obtain rfl : key = item.1 := (List.mem_cons.mp h).resolve_right hrest
        have hget : (entries.setAll (item :: replacements)).get item.1 = item.2 := by
          refine (get_setAll_of_notMem hrest).trans ?_
          rw [get_set, if_pos rfl]
        rw [hget]
        exact List.mem_cons_self

theorem lookup_of_load (h : loadUnlocked file = .ok entries) (key : String) :
    lookup file key = some (entries.get key) := by
  cases file with
  | absent =>
      cases h
      rfl
  | unreadable detail => cases h
  | present original serialized =>
      cases h
      rfl

theorem lookup_of_items_eq_nil (h : entries.items = []) : some (entries.get key) = lookup .absent key := by
  unfold Entries.get
  rw [h]
  rfl

theorem serializeManifest_ok {newBytes : Entries} (h : serializeManifest text entries = .ok newBytes) :
    newBytes = entries.sorted := by
  unfold serializeManifest at h
  cases hunique : assertUniqueArtifactPaths text entries.items with
  | error e =>
      rw [hunique] at h
      cases h
  | ok _ =>
      rw [hunique] at h
      exact (Except.ok.inj h).symm

theorem lookup_of_hasBytes (h : file.hasBytes entries = true) : lookup file key = some (entries.get key) := by
  unfold ManifestFile.hasBytes at h
  split at h
  · rename_i original
    have hitems : original.items = entries.items := of_decide_eq_true h
    exact congrArg (fun items => some (InsertionDict.get items key)) hitems
  · cases h

theorem writeUnlessSame_ok (h : writeUnlessSame text entries file = .ok (changed, written)) :
    (changed = false → written = none) ∧
      ∀ key, lookup (written.getD file) key = some (entries.get key) := by
  unfold writeUnlessSame at h
  cases hserialized : serializeManifest text entries with
  | error e =>
      rw [hserialized] at h
      cases h
  | ok newBytes =>
      rw [hserialized] at h
      obtain rfl := serializeManifest_ok hserialized
      change (if file.hasBytes entries.sorted then Except.ok (false, none)
        else Except.ok (true, some (ManifestFile.present entries.sorted true))) = _ at h
      split at h
      · rename_i hsame
        cases h
        refine ⟨fun _ => rfl, fun key => ?_⟩
        rw [← get_sorted]
        exact lookup_of_hasBytes hsame
      · cases h
        refine ⟨fun hfalse => (by cases hfalse), fun key => ?_⟩
        rw [← get_sorted]
        rfl

theorem readLocked_ok (h : readLocked key file = .ok (value, written)) :
    lookup file key = some value ∧ written = none := by
  unfold readLocked at h
  obtain ⟨entries, hload, h⟩ := bind_eq_ok.mp h
  cases h
  exact ⟨lookup_of_load hload key, rfl⟩

def Sets (key : String) (value : Option ArtifactManifestEntry) (act : Act Bool) : Prop :=
  ∀ file changed written, act file = .ok (changed, written) → ∀ other,
    lookup (written.getD file) other = if other = key then some value else lookup file other

theorem sets_of_get (hload : loadUnlocked file = .ok entries) (hget : entries.get key = value) :
    lookup file other = if other = key then some value else lookup file other := by
  split_ifs with hsame
  · rw [lookup_of_load hload, hsame, hget]
  · rfl

theorem some_get_set (hload : loadUnlocked file = .ok entries) :
    some ((entries.set key value).get other) = if other = key then some value else lookup file other := by
  rw [get_set, lookup_of_load hload]
  split_ifs <;> rfl

theorem sets_putLocked (text : TextTables) (key : String) (entry : ArtifactManifestEntry) :
    Sets key (some entry) (putLocked text key entry) := by
  intro file changed written h other
  unfold putLocked at h
  obtain ⟨entries, hload, h⟩ := bind_eq_ok.mp h
  change (if entries.get key = some entry ∧ ¬ file.isAbsent then Except.ok (false, none)
    else writeUnlessSame text (entries.set key (some entry)) file) = _ at h
  split at h
  · rename_i hsame
    cases h
    exact sets_of_get hload hsame.1
  · exact ((writeUnlessSame_ok h).2 other).trans (some_get_set hload)

theorem sets_deleteLocked (text : TextTables) (key : String) :
    Sets key none (deleteLocked text key) := by
  intro file changed written h other
  unfold deleteLocked at h
  obtain ⟨entries, hload, h⟩ := bind_eq_ok.mp h
  change (if entries.get key = none then Except.ok (false, none)
    else if (entries.set key none).items = [] then Except.ok (true, some ManifestFile.absent)
    else writeUnlessSame text (entries.set key none) file) = _ at h
  split at h
  · rename_i hnone
    cases h
    exact sets_of_get hload hnone
  · split at h
    · rename_i hempty
      cases h
      exact (lookup_of_items_eq_nil hempty).symm.trans (some_get_set hload)
    · exact ((writeUnlessSame_ok h).2 other).trans (some_get_set hload)

theorem replaceLocked_ok (h : replaceLocked text expected replacements file = .ok (changed, written)) :
    (changed = false ∧ ∀ key, lookup (written.getD file) key = lookup file key) ∨
      (∀ key ∈ keys replacements, ∃ value, (key, value) ∈ replacements ∧
        lookup (written.getD file) key = some value) ∧
      (∀ key ∉ keys replacements, lookup (written.getD file) key = lookup file key) ∧
      changed = true := by
  unfold replaceLocked at h
  obtain ⟨entries, hload, h⟩ := bind_eq_ok.mp h
  change (if expected.any fun item => entries.get item.1 ≠ item.2 then Except.ok (false, none)
    else if (entries.setAll replacements).items = [] then
      Except.ok (!file.isAbsent, some ManifestFile.absent)
    else writeUnlessSame text (entries.setAll replacements) file) = _ at h
  have hswapped (hlookup : ∀ key, lookup (written.getD file) key =
      some ((entries.setAll replacements).get key)) :
      (∀ key ∈ keys replacements, ∃ value, (key, value) ∈ replacements ∧
        lookup (written.getD file) key = some value) ∧
      ∀ key ∉ keys replacements, lookup (written.getD file) key = lookup file key := by
    refine ⟨fun key hkey => ⟨_, mem_get_setAll hkey, hlookup key⟩, fun key hkey => ?_⟩
    rw [hlookup, get_setAll_of_notMem hkey, lookup_of_load hload]
  split at h
  · cases h
    exact .inl ⟨rfl, fun _ => rfl⟩
  · split at h
    · rename_i hempty
      cases h
      cases hfile : file.isAbsent with
      | true =>
          refine .inl ⟨rfl, fun key => ?_⟩
          cases file with
          | absent => rfl
          | unreadable detail => cases hfile
          | present original serialized => cases hfile
      | false =>
          obtain ⟨hinside, houtside⟩ := hswapped fun key => (lookup_of_items_eq_nil hempty).symm
          exact .inr ⟨hinside, houtside, rfl⟩
    · obtain ⟨hwritten, hlookup⟩ := writeUnlessSame_ok h
      cases changed with
      | false =>
          obtain rfl := hwritten rfl
          exact .inl ⟨rfl, fun _ => rfl⟩
      | true =>
          obtain ⟨hinside, houtside⟩ := hswapped hlookup
          exact .inr ⟨hinside, houtside, rfl⟩

end Specs

end ShortReel.ManifestStore
