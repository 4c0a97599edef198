import Mathlib.Data.List.DropRight
import ShortReel.InsertionDict
import ShortReel.ManualSplit

/-!
# The reference catalog

`reference_catalog.py`, and the names of `asset_types.py`: what the references of a script may name.
Names are compared without the space around them and in NFC; a derivative of a character is named
behind it. A bucket or a table that is not an object is an empty one.
-/

namespace ShortReel.ReferenceCatalog

open InsertionDict
open ManualSplit (strip)
open SourceAlignment (Text)
open SourceRemap (isSpace)

/-- What the code takes from the libraries: NFC and the form of a path. `/` takes part in no canonical
composition, and space is canonically equivalent to space alone. -/
structure NameForms where
  nfc : Text → Text
  posixPath : Text → Text
  nfc_nfc : ∀ name, nfc (nfc name) = nfc name
  nfc_slash : ∀ base rest, nfc (base ++ '/' :: rest) = nfc base ++ '/' :: nfc rest
  slash_of_nfc : ∀ name, '/' ∈ nfc name → '/' ∈ name
  strip_nfc : ∀ name, strip (nfc name) = nfc (strip name)

inductive AssetType where
  | character
  | scene
  | prop
  | product
  deriving DecidableEq, Repr

def AssetType.supportsDerivatives : AssetType → Bool
  | .character => true
  | _ => false

def referenceAttributionOrder : List AssetType :=
  [.product, .character, .scene, .prop]

structure Derivative where
  description : Option Text
  sheet : Option Text
  deriving DecidableEq, Repr

inductive DerivativeValue where
  | entry (derivative : Derivative)
  | malformed
  deriving DecidableEq, Repr

/-- An entry of an asset bucket. A list of aliases or a table that is not there is `none`. -/
structure AssetEntry where
  description : Option Text
  aliases : Option (List Text)
  derivatives : Option (Dict Text DerivativeValue)
  deriving DecidableEq, Repr

inductive AssetValue where
  | entry (asset : AssetEntry)
  | malformed
  deriving DecidableEq, Repr

structure Project where
  bucket : AssetType → Dict Text AssetValue
  uniqueNamespace : Bool

section Names

variable (forms : NameForms)

def assetNameComparisonKey (name : Text) : Text :=
  forms.nfc (strip name)

def resolveAssetKey {α : Type} (bucket : Dict Text α) (name : Text) : Option Text :=
  (keys bucket).reverse.find? fun key => forms.nfc key = forms.nfc name

def splitDerivativeReference (name : Text) : Text × Text :=
  (name.takeWhile (· ≠ '/'), (name.dropWhile (· ≠ '/')).tail)

def derivativeReference (baseName derivativeName : Text) : Text :=
  baseName ++ '/' :: derivativeName

def normalizeAssetBucket {α : Type} (bucket : Dict Text α) : Dict Text α :=
  ofItems (bucket.map fun item => (forms.nfc item.1, item.2))

def referenceBucket {α : Type} (bucket : Dict Text α) : Dict Text α :=
  ofItems ((normalizeAssetBucket forms bucket).map fun item =>
    (assetNameComparisonKey forms item.1, item.2))

end Names

structure Stripped (name : Text) : Prop where
  head : ∀ c, name.head? = some c → isSpace c = false
  last : ∀ c, name.getLast? = some c → isSpace c = false

theorem strip_of_stripped {name : Text} (h : Stripped name) : strip name = name := by
  have hfront : name.dropWhile isSpace = name := by
    refine List.dropWhile_eq_self_iff.mpr fun hlength => ?_
    rw [Bool.not_eq_true]
    exact h.head _ (List.head?_eq_getElem?.trans (List.getElem?_eq_getElem hlength))
  have hback : name.rdropWhile isSpace = name := by
    refine List.rdropWhile_eq_self_iff.mpr fun hne => ?_
    rw [Bool.not_eq_true]
    exact h.last _ (List.getLast?_eq_some_getLast hne)
  show (name.dropWhile isSpace).rdropWhile isSpace = name
  rw [hfront, hback]

theorem stripped_strip (name : Text) : Stripped (strip name) := by
  obtain ⟨tail, htail⟩ := @List.rdropWhile_prefix _ isSpace (name.dropWhile isSpace)
  refine ⟨fun c hc => ?_, fun c hc => ?_⟩
  · have hhead : (name.dropWhile isSpace).head? = some c := by
      rw [← htail, List.head?_append]
      exact Option.or_eq_some_iff.mpr (Or.inl hc)
    have hnot := List.head?_dropWhile_not isSpace name
    rw [hhead] at hnot
    exact hnot
  · have hne : (name.dropWhile isSpace).rdropWhile isSpace ≠ [] := by
      intro hnil
      rw [show strip name = (name.dropWhile isSpace).rdropWhile isSpace from rfl, hnil] at hc
      cases hc
    have hlast := List.rdropWhile_last_not isSpace _ hne
    have hsame : ((name.dropWhile isSpace).rdropWhile isSpace).getLast hne = c :=
      Option.some.inj ((List.getLast?_eq_some_getLast hne).symm.trans hc)
    rw [hsame, Bool.not_eq_true] at hlast
    exact hlast

theorem mem_of_mem_strip {name : Text} {c : Char} (h : c ∈ strip name) : c ∈ name := by
  have hfront := @List.rdropWhile_prefix _ isSpace (name.dropWhile isSpace)
  exact (List.dropWhile_sublist _).subset (hfront.subset h)

theorem stripped_derivativeReference {base derivative : Text} (hbase : Stripped base)
    (hderivative : Stripped derivative) : Stripped (derivativeReference base derivative) := by
  refine ⟨fun c hc => ?_, fun c hc => ?_⟩
  · cases base with
    | nil =>
        cases hc
        rfl
    | cons first rest => exact hbase.head c hc
  · unfold derivativeReference at hc
    rw [List.getLast?_append, List.getLast?_cons] at hc
    cases hlast : derivative.getLast? with
    | none =>
        rw [hlast] at hc
        cases hc
        rfl
    | some last =>
        rw [hlast] at hc
        cases hc
        exact hderivative.last last hlast

theorem split_derivativeReference {base : Text} (derivative : Text) (hbase : '/' ∉ base) :
    splitDerivativeReference (derivativeReference base derivative) = (base, derivative) := by
  have hpass : ∀ c ∈ base, decide (c ≠ '/') = true := fun c hc =>
    decide_eq_true fun hslash => hbase (hslash ▸ hc)
  unfold splitDerivativeReference derivativeReference
  rw [List.takeWhile_append_of_pos hpass, List.dropWhile_append_of_pos hpass,
    List.takeWhile_cons_of_neg (by simp), List.dropWhile_cons_of_neg (by simp), List.append_nil]
  rfl

theorem derivativeReference_inj {base base' derivative derivative' : Text} (hbase : '/' ∉ base)
    (hbase' : '/' ∉ base')
    (h : derivativeReference base derivative = derivativeReference base' derivative') :
    base = base' ∧ derivative = derivative' := by
  have hsplit := congrArg splitDerivativeReference h
  rw [split_derivativeReference derivative hbase, split_derivativeReference derivative' hbase'] at hsplit
  exact Prod.mk.inj hsplit

theorem eq_derivativeReference {name : Text} (h : (splitDerivativeReference name).2 ≠ []) :
    name = derivativeReference (splitDerivativeReference name).1
      (splitDerivativeReference name).2 := by
  have hwhole := (@List.takeWhile_append_dropWhile _ (fun c : Char => decide (c ≠ '/')) name).symm
  cases hrest : name.dropWhile (fun c => decide (c ≠ '/')) with
  | nil =>
      unfold splitDerivativeReference at h
      rw [hrest] at h
      exact absurd rfl h
  | cons c rest =>
      have hslash : c = '/' := by
        have hnot := List.head?_dropWhile_not (fun c : Char => decide (c ≠ '/')) name
        rw [hrest] at hnot
        simpa using hnot
      rw [hrest, hslash] at hwhole
      unfold splitDerivativeReference derivativeReference
      rw [hrest]
      exact hwhole

section Keys

variable (forms : NameForms)

theorem key_eq_strip (name : Text) :
    assetNameComparisonKey forms name = strip (forms.nfc name) :=
  (forms.strip_nfc name).symm

theorem stripped_key (name : Text) : Stripped (assetNameComparisonKey forms name) := by
  rw [key_eq_strip]
  exact stripped_strip _

theorem nfc_key (name : Text) :
    forms.nfc (assetNameComparisonKey forms name) = assetNameComparisonKey forms name :=
  forms.nfc_nfc _

theorem key_nfc (name : Text) :
    assetNameComparisonKey forms (forms.nfc name) = assetNameComparisonKey forms name := by
  rw [key_eq_strip, forms.nfc_nfc, ← key_eq_strip]

theorem key_key (name : Text) :
    assetNameComparisonKey forms (assetNameComparisonKey forms name) =
      assetNameComparisonKey forms name := by
  rw [key_eq_strip, nfc_key, strip_of_stripped (stripped_key forms name)]

theorem slash_notMem_key {name : Text} (h : '/' ∉ name) :
    '/' ∉ assetNameComparisonKey forms name :=
  fun hmem => h (mem_of_mem_strip (forms.slash_of_nfc _ hmem))

theorem key_derivativeReference {base derivative : Text}
    (hbase : forms.nfc base = assetNameComparisonKey forms base)
    (hderivative : forms.nfc derivative = assetNameComparisonKey forms derivative) :
    assetNameComparisonKey forms (derivativeReference base derivative) =
      derivativeReference (assetNameComparisonKey forms base)
        (assetNameComparisonKey forms derivative) := by
  rw [key_eq_strip]
  have hnfc : forms.nfc (derivativeReference base derivative) =
      derivativeReference (assetNameComparisonKey forms base)
        (assetNameComparisonKey forms derivative) := by
    rw [derivativeReference, forms.nfc_slash, hbase, hderivative]
    rfl
  rw [hnfc]
  exact strip_of_stripped (stripped_derivativeReference (stripped_key forms base)
    (stripped_key forms derivative))

theorem resolveAssetKey_eq {α : Type} {bucket : Dict Text α} {name key : Text}
    (h : resolveAssetKey forms bucket name = some key) :
    key ∈ keys bucket ∧ forms.nfc key = forms.nfc name := by
  have hsame := List.find?_some h
  exact ⟨List.mem_reverse.mp (List.mem_of_find?_eq_some h), of_decide_eq_true hsame⟩

end Keys

inductive ReferencedAsset where
  | asset (value : AssetValue)
  | derivative (value : DerivativeValue)
  deriving DecidableEq, Repr

structure ReferenceCatalogEntry where
  assetType : AssetType
  name : Text
  assetName : Text
  asset : ReferencedAsset
  deriving DecidableEq, Repr

def derivativeTable : AssetValue → Dict Text DerivativeValue
  | .entry asset => asset.derivatives.getD []
  | .malformed => []

section Catalog

variable (forms : NameForms)

def assetReferences (assetType : AssetType) (item : Text × AssetValue) :
    List (Text × ReferenceCatalogEntry) :=
  (item.1, { assetType, name := item.1, assetName := item.1, asset := .asset item.2 }) ::
    if assetType.supportsDerivatives then
      (referenceBucket forms (derivativeTable item.2)).map fun derivative =>
        (derivativeReference item.1 derivative.1,
          { assetType, name := derivativeReference item.1 derivative.1, assetName := item.1,
            asset := .derivative derivative.2 })
    else []

def typeEntries (project : Project) (assetType : AssetType) : Dict Text ReferenceCatalogEntry :=
  ofItems ((referenceBucket forms (project.bucket assetType)).flatMap
    (assetReferences forms assetType))

def lookup (project : Project) (assetType : AssetType) (name : Text) :
    Option ReferenceCatalogEntry :=
  get (typeEntries forms project assetType) (assetNameComparisonKey forms name)

def resolve (project : Project) (name : Text) : Option ReferenceCatalogEntry :=
  referenceAttributionOrder.findSome? fun assetType => lookup forms project assetType name

def assetNames (project : Project) (assetType : AssetType) : List Text :=
  (typeEntries forms project assetType).map (·.2.assetName)

end Catalog

section Namespaces

variable (forms : NameForms)

/-- The assets of all types have names of their own, as `ensure_project_asset_namespace` demands, and
none has the character in it that stands ahead of a derivative. -/
structure NamesApart (project : Project) : Prop where
  unique : ∀ a b, ∀ x ∈ project.bucket a, ∀ y ∈ project.bucket b,
    assetNameComparisonKey forms x.1 = assetNameComparisonKey forms y.1 → a = b
  nodup : ∀ a, ((project.bucket a).map fun item => assetNameComparisonKey forms item.1).Nodup
  plain : ∀ a, ∀ x ∈ project.bucket a, '/' ∉ x.1

end Namespaces

end ShortReel.ReferenceCatalog
