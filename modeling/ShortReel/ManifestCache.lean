import Mathlib.Algebra.Order.Ring.Int
import ShortReel.InsertionDict

/-!
# The cache of parsed manifests

A slot holds the parse of the manifest that a read has found under a file identity. A settled slot is
served for that identity without another look at the bytes.
-/

namespace ShortReel.ManifestCache

open InsertionDict

abbrev Bytes := List UInt8

structure FileStat where
  device : ℕ
  inode : ℕ
  size : ℕ
  modifiedNs : ℤ
  changedNs : ℤ
  deriving DecidableEq, Repr

structure ManifestFileIdentity where
  device : ℕ
  inode : ℕ
  size : ℕ
  modifiedNs : ℤ
  changedNs : ℤ
  deriving DecidableEq, Repr

def ManifestFileIdentity.of (posix : Bool) (fileStat : FileStat) : Option ManifestFileIdentity :=
  if fileStat.inode = 0 then none
  else some
    { device := fileStat.device
      inode := fileStat.inode
      size := fileStat.size
      modifiedNs := fileStat.modifiedNs
      changedNs := if posix then fileStat.changedNs else 0 }

def ManifestFileIdentity.lastChangeNs (identity : ManifestFileIdentity) : ℤ :=
  max identity.modifiedNs identity.changedNs

def manifestSettledAgeNs : ℤ := 2000000000

variable {ε α π : Type}

structure ParsedManifest (parse : Bytes → Except ε α) where
  raw : Bytes
  entries : α
  parsed : parse raw = .ok entries

def parseManifest (parse : Bytes → Except ε α) (raw : Bytes) : Except ε (ParsedManifest parse) :=
  match parsed : parse raw with
  | .ok entries => .ok { raw, entries, parsed }
  | .error e => .error e

structure ManifestCacheSlot (parse : Bytes → Except ε α) where
  identity : ManifestFileIdentity
  settled : Bool
  parsed : ParsedManifest parse

variable {parse : Bytes → Except ε α}

theorem parseManifest_ok {raw : Bytes} {manifest : ParsedManifest parse}
    (h : parseManifest parse raw = .ok manifest) : manifest.raw = raw := by
  unfold parseManifest at h
  split at h
  · obtain rfl := Except.ok.inj h
    rfl
  · cases h

theorem parseManifest_error {raw : Bytes} {e : ε} (h : parseManifest parse raw = .error e) :
    parse raw = .error e := by
  unfold parseManifest at h
  split at h
  · cases h
  · rename_i hparse
    exact hparse.trans (congrArg _ (Except.error.inj h))

abbrev ReadCache (π : Type) (parse : Bytes → Except ε α) := Dict π (ManifestCacheSlot parse)

section Slots

variable [DecidableEq π]

def moveToEnd (cache : ReadCache π parse) (project : π) (slot : ManifestCacheSlot parse) :
    ReadCache π parse :=
  remove cache project ++ [(project, slot)]

def touch (cache : ReadCache π parse) (project : π) : ReadCache π parse :=
  match get cache project with
  | none => cache
  | some slot => moveToEnd cache project slot

def putSlot (limit : ℕ) (cache : ReadCache π parse) (project : π) (slot : ManifestCacheSlot parse) :
    ReadCache π parse :=
  let slots := moveToEnd cache project slot
  slots.drop (slots.length - limit)

variable {cache : ReadCache π parse} {project : π} {slot : ManifestCacheSlot parse}
  {item : π × ManifestCacheSlot parse}

theorem mem_of_mem_moveToEnd (h : item ∈ moveToEnd cache project slot) :
    item ∈ cache ∨ item = (project, slot) := by
  rcases List.mem_append.mp h with hrest | hlast
  · exact .inl (mem_remove.mp hrest).1
  · exact .inr (List.mem_singleton.mp hlast)

theorem mem_of_mem_touch (h : item ∈ touch cache project) : item ∈ cache := by
  unfold touch at h
  split at h
  · exact h
  · rename_i found hfound
    rcases mem_of_mem_moveToEnd h with hrest | rfl
    · exact hrest
    · exact mem_of_get hfound

theorem mem_of_mem_putSlot {limit : ℕ} (h : item ∈ putSlot limit cache project slot) :
    item ∈ cache ∨ item = (project, slot) :=
  mem_of_mem_moveToEnd (List.mem_of_mem_drop h)

end Slots

end ShortReel.ManifestCache
