import ShortReel.FileTrees
import ShortReel.ReferenceCatalog

/-!
# Renaming the files of an asset

`asset_rename.py`: the files that a rename moves, and the path fields of the entry that it rewrites.
A file is named by its asset, so both go by the stem. Paths are compared as they are written, and no
file has two of them.
-/

namespace ShortReel.AssetRenames

open FileTrees ReferenceCatalog
open SourceAlignment (Text)

/-- `PurePosixPath`. -/
structure PurePath where
  absolute : Bool
  parts : List Text
  deriving DecidableEq, Repr

def PurePath.parse (text : Text) : PurePath where
  absolute := text.head? = some '/'
  parts := (text.splitOn '/').filter fun part => part ≠ [] ∧ part ≠ ['.']

def PurePath.parent (path : PurePath) : PurePath :=
  { path with parts := path.parts.dropLast }

def PurePath.name (path : PurePath) : Text :=
  path.parts.getLast?.getD []

def PurePath.str (path : PurePath) : Text :=
  if path.absolute then '/' :: ['/'].intercalate path.parts
  else if path.parts = [] then ['.'] else ['/'].intercalate path.parts

def rfind (c : Char) (text : Text) : Option ℕ :=
  (text.reverse.findIdx? (· = c)).map fun index => text.length - 1 - index

def suffixAt (name : Text) : ℕ :=
  match rfind '.' name with
  | some index => if 0 < index ∧ index < name.length - 1 then index else name.length
  | none => name.length

def stem (name : Text) : Text :=
  name.take (suffixAt name)

def suffix (name : Text) : Text :=
  name.drop (suffixAt name)

/-- What `validate_asset_name` lets through is one segment of a path. -/
structure SegmentName where
  text : Text
  nonempty : text ≠ []
  slash : '/' ∉ text
  backslash : '\\' ∉ text
  here : text ≠ ['.']
  up : text ≠ ['.', '.']

def subdir : AssetType → Text
  | .character => "characters".toList
  | .scene => "scenes".toList
  | .prop => "props".toList
  | .product => "products".toList

def extraListFields : AssetType → List String
  | .character | .scene | .prop => ["aliases"]
  | .product => ["reference_images", "selling_points"]

def sequencedRefs (type : AssetType) : Bool :=
  "reference_images" ∈ extraListFields type

def refsDir (type : AssetType) : List Text :=
  [subdir type, "refs".toList]

def refsAudioDir (type : AssetType) : List Text :=
  [subdir type, "refs_audio".toList]

def migratedDirs (type : AssetType) : List (List Text) :=
  [[subdir type], refsDir type, refsAudioDir type]

/-- The path fields of an entry. A value that is not a string is `none`. -/
structure AssetPaths where
  sheet : Option Text
  referenceImage : Option Text
  referenceAudio : Option Text
  referenceImages : List (Option Text)
  derivativeSheets : List (Option Text)
  deriving DecidableEq, Repr

/-- `str.isdigit` of one character. -/
structure DigitTable where
  isDigit : Char → Bool
  slash : isDigit '/' = false
  backslash : isDigit '\\' = false

section Renames

variable (forms : NameForms) (digits : DigitTable) (type : AssetType) (oldName : Text)
  (newName : SegmentName)

def renamedFileStem (stem : Text) (allowSequence : Bool) : Option Text :=
  let normalized := forms.nfc stem
  let target := forms.nfc oldName
  if normalized = target then some newName.text
  else if allowSequence then
    let front := target ++ ['_']
    let number := normalized.drop front.length
    if front <+: normalized ∧ number ≠ [] ∧ number.all digits.isDigit then
      some (newName.text ++ '_' :: number)
    else none
  else none

def fieldPath (value : Text) : PurePath :=
  PurePath.parse (value.map fun c => if c = '\\' then '/' else c)

/-- `renamed_relpath`. The name that is put in is a segment. -/
def renamedRelpath (rel : Text) (allowSequence : Bool) : Option Text :=
  let path := fieldPath rel
  (renamedFileStem forms digits oldName newName (stem path.name) allowSequence).map fun newStem =>
    { path with parts := path.parts.dropLast ++ [newStem ++ suffix path.name] : PurePath }.str

/-- `rewrite` of `rewrite_entry_paths`. -/
def rewriteValue (value : Text) (sequencedField : Bool) : Option Text :=
  let parent := (fieldPath value).parent
  if parent.absolute ∨ parent.parts ∉ migratedDirs type then none
  else
    let allowSequence := sequencedField && sequencedRefs type && parent.parts = refsDir type
    match renamedRelpath forms digits oldName newName value allowSequence with
    | some renamed => if renamed ≠ value then some renamed else none
    | none => none

def rewrittenField (sequencedField : Bool) (field : Option Text) : Option Text :=
  field.bind fun value =>
    if value = [] then none else rewriteValue forms digits type oldName newName value sequencedField

def rewriteEntryPaths (entry : AssetPaths) : AssetPaths × ℕ :=
  let single := rewrittenField forms digits type oldName newName false
  let image := rewrittenField forms digits type oldName newName true
  ({ entry with
      sheet := (single entry.sheet).or entry.sheet
      referenceImage := (single entry.referenceImage).or entry.referenceImage
      referenceAudio := (single entry.referenceAudio).or entry.referenceAudio
      referenceImages := entry.referenceImages.map fun field => (image field).or field },
    [entry.sheet, entry.referenceImage, entry.referenceAudio].countP (fun field => (single field).isSome) +
      entry.referenceImages.countP fun field => (image field).isSome)

variable {β : Type} (tree : Tree Text β) (projectDir : List Text)

def namedFileDirs : List (List Text × Bool) :=
  [(projectDir ++ [subdir type], false), (projectDir ++ refsDir type, sequencedRefs type),
    (projectDir ++ refsAudioDir type, false)].filter fun directory => isDir tree directory.1

def fileName (path : List Text) : Text :=
  path.getLast?.getD []

def nameLe : Text → Text → Bool
  | [], _ => true
  | _ :: _, [] => false
  | a :: first, b :: second => if a = b then nameLe first second else a.toNat < b.toNat

/-- `sorted(directory.iterdir())`. -/
def sortedChildren (directory : List Text) : List (List Text) :=
  (children tree directory).insertionSort fun first second => nameLe (fileName first) (fileName second)

def destinationOf (allowSequence : Bool) (file : List Text) : Option (List Text) :=
  if (fileAt tree file).isNone then none
  else
    match renamedFileStem forms digits oldName newName (stem (fileName file)) allowSequence with
    | some newStem =>
        if stem (fileName file) ≠ newStem then
          some (file.dropLast ++ [newStem ++ suffix (fileName file)])
        else none
    | none => none

/-- One file of the plan. The error is `AssetRenameFileCollisionError`. -/
def planFile (moves : List (Move Text)) (item : List Text × Bool) :
    Except (List Text) (List (Move Text)) :=
  match destinationOf forms digits oldName newName tree item.2 item.1 with
  | none => .ok moves
  | some destination =>
      if destination ∈ moves.map Prod.snd then .error destination
      else if (node tree destination).isSome ∧ destination ≠ item.1 then .error destination
      else .ok (moves ++ [(item.1, destination)])

def scannedFiles : List (List Text × Bool) :=
  (namedFileDirs type tree projectDir).flatMap fun directory =>
    (sortedChildren tree directory.1).map fun file => (file, directory.2)

def planAssetFileRenames : Except (List Text) (List (Move Text)) :=
  (scannedFiles type tree projectDir).foldlM (planFile forms digits oldName newName tree) []

end Renames

end ShortReel.AssetRenames
