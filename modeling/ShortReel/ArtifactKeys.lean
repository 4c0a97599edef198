import ShortReel.JsonRoundTrip
import ShortReel.TextSpaces
import ShortReel.TransitionSystem
import ShortReel.UrlSafeBase64

/-!
# Artifact keys

`ArtifactKey` of `artifact_manifest.py`: which artifact an entry of the manifest is about, and the
text that the manifest has for it. A text is a key only in the form in which that key is written, so
that no two keys are the same text and no two texts the same key.
-/

namespace ShortReel.ArtifactKeys

open JsonText
open TextSpaces (strip)

inductive ArtifactKind where
  | assetSheet | episodeScriptPlan | episodeScript | episodeGrid | episodeStoryboard | episodeVideo
  | episodeAudio | episodeSubtitle | episodePresentation | episodeFinalCut | episodeJianyingDraft
  | projectBgm
  deriving DecidableEq, Repr

def ArtifactKind.value : ArtifactKind → Text
  | .assetSheet => text "asset-sheet"
  | .episodeScriptPlan => text "episode-script-plan"
  | .episodeScript => text "episode-script"
  | .episodeGrid => text "episode-grid"
  | .episodeStoryboard => text "episode-storyboard"
  | .episodeVideo => text "episode-video"
  | .episodeAudio => text "episode-audio"
  | .episodeSubtitle => text "episode-subtitle"
  | .episodePresentation => text "episode-presentation"
  | .episodeFinalCut => text "episode-final-cut"
  | .episodeJianyingDraft => text "episode-jianying-draft"
  | .projectBgm => text "project-bgm"

/-- `ArtifactKind(value)`. -/
def ArtifactKind.ofValue (value : Text) : Option ArtifactKind :=
  [.assetSheet, .episodeScriptPlan, .episodeScript, .episodeGrid, .episodeStoryboard, .episodeVideo,
    .episodeAudio, .episodeSubtitle, .episodePresentation, .episodeFinalCut, .episodeJianyingDraft,
    .projectBgm].find? fun kind => decide (ArtifactKind.value kind = value)

inductive Component where
  | name (value : Text)
  | number (value : ℤ)
  deriving DecidableEq

/-- NFC, which `unicodedata` computes. It makes no space at the ends of a text. -/
structure NameForm where
  nfc : Text → Text
  nfc_nfc : ∀ name, nfc (nfc name) = nfc name
  strip_nfc : ∀ name, strip TextSpaces.isSpace (nfc (strip TextSpaces.isSpace name)) =
    nfc (strip TextSpaces.isSpace name)

inductive KeyError where
  | unsupportedEncoding
  | malformed
  | unsupportedKind (value : Text)
  | mismatch
  /-- The `TypeError` of a list or an object that is looked for in a set. -/
  | unhashable
  | tooManyDigits
  | surrogate
  | notCanonical
  deriving DecidableEq

def assetTypes : List Text :=
  [text "character", text "scene", text "prop", text "product"]

def renditionVariants : List Text :=
  [text "post_production", text "use_tts"]

def narrationVersions : List Text :=
  [text "without_narration", text "with_narration"]

def finalCutSubtitleModes : List Text :=
  [text "no_subtitles", text "burned_subtitles"]

/-- `^…-[0-9a-f]{8}$`, matched in full. -/
def HexId (stem id : Text) : Prop :=
  stem <+: id ∧ id.length = stem.length + 8 ∧
    ∀ c ∈ id.drop stem.length, 48 ≤ c ∧ c ≤ 57 ∨ 97 ≤ c ∧ c ≤ 102

instance (stem id : Text) : Decidable (HexId stem id) :=
  inferInstanceAs (Decidable (_ ∧ _ ∧ _))

section Keys

variable (form : NameForm)

def assetNameComparisonKey (name : Text) : Text :=
  form.nfc (strip TextSpaces.isSpace name)

def Fits (kind : ArtifactKind) (components : List Component) : Prop :=
  match kind, components with
  | .assetSheet, [.name assetType, .name assetId] =>
      assetType ∈ assetTypes ∧ assetNameComparisonKey form assetId = assetId ∧ assetId ≠ []
  | .episodeScriptPlan, [.number episode] | .episodeScript, [.number episode] => 0 < episode
  | .episodeGrid, [.number episode, .name resourceId]
  | .episodeStoryboard, [.number episode, .name resourceId]
  | .episodeVideo, [.number episode, .name resourceId]
  | .episodeAudio, [.number episode, .name resourceId] => 0 < episode ∧ resourceId ≠ []
  | .episodeSubtitle, [.number episode, .name resourceId, .name variant]
  | .episodePresentation, [.number episode, .name resourceId, .name variant] =>
      0 < episode ∧ resourceId ≠ [] ∧ variant ∈ renditionVariants
  | .episodeFinalCut, [.number episode, .name timelineId, .name narration, .name subtitles] =>
      0 < episode ∧ HexId (text "tl-") timelineId ∧ narration ∈ narrationVersions ∧
        subtitles ∈ finalCutSubtitleModes
  | .episodeJianyingDraft, [.number episode, .name timelineId, .name narration] =>
      0 < episode ∧ HexId (text "tl-") timelineId ∧ narration ∈ narrationVersions
  | .projectBgm, [.name bgmId] => HexId (text "bgm-") bgmId
  | _, _ => False

instance lawfulBEqText : LawfulBEq Text := inferInstance

instance (kind : ArtifactKind) (components : List Component) :
    Decidable (Fits form kind components) := by
  unfold Fits
  split <;> infer_instance

/-- The components as `__post_init__` puts them back. -/
def canonical (kind : ArtifactKind) (components : List Component) : List Component :=
  match kind, components with
  | .assetSheet, [.name assetType, .name assetId] =>
      [.name assetType, .name (assetNameComparisonKey form assetId)]
  | _, _ => components

structure ArtifactKey where
  kind : ArtifactKind
  components : List Component
  fits : Fits form kind components

/-- `__post_init__`: nothing when the components do not fit the kind. -/
def ArtifactKey.init (kind : ArtifactKind) (components : List Component) :
    Option (ArtifactKey form) :=
  if fits : Fits form kind (canonical form kind components) then some ⟨kind, _, fits⟩ else none

end Keys

def Component.written : Component → Text
  | .name value => quote value
  | .number value => intText value

def Component.tooLong : Component → Prop
  | .name _ => False
  | .number value => 10 ^ maxStrDigits ≤ value.natAbs

instance (component : Component) : Decidable component.tooLong := by
  cases component <;> unfold Component.tooLong <;> infer_instance

/-- `json.dumps` of a list of names and numbers, with nothing behind its commas. -/
def payload (components : List Component) : Text :=
  91 :: [44].intercalate (components.map Component.written) ++ [93]

def charOf (c : ℕ) : Option Char :=
  if c.isValidChar then some (Char.ofNat c) else none

/-- `str.encode("utf-8")`; lone surrogates are not written. -/
def utf8 (t : Text) : Option (List ℕ) :=
  (t.mapM charOf).map fun chars => (chars.flatMap String.utf8EncodeChar).map UInt8.toNat

/-- `bytes.decode("utf-8")`. -/
def ofUtf8 (bytes : List ℕ) : Option Text :=
  (ByteArray.mk (bytes.map UInt8.ofNat).toArray).utf8Decode?.map fun chars =>
    chars.toList.map Char.toNat

def token (bytes : List ℕ) : Text :=
  (UrlSafeBase64.encode bytes).rdropWhile (· = 61)

def ofToken (token : Text) : Option (List ℕ) :=
  UrlSafeBase64.decode (token ++ List.replicate ((4 - token.length % 4) % 4) 61)

def keyPrefix : Text := text "artifact-key-v1:"

def encodeArtifactKeyParts (kind : Text) (components : List Component) : Except KeyError Text :=
  if ∃ component ∈ components, component.tooLong then .error .tooManyDigits
  else
    match utf8 (payload (.name kind :: components)) with
    | none => .error .surrogate
    | some bytes => .ok (keyPrefix ++ token bytes)

def ArtifactKey.encode {form : NameForm} (self : ArtifactKey form) : Except KeyError Text :=
  encodeArtifactKeyParts self.kind.value self.components

section Decode

variable {F : Type} (floats : Floats F) (depth : ℕ)

/-- `decode_artifact_key_parts`, with an interpreter that reads one level of nesting at least. -/
def decodeArtifactKeyParts (value : Text) : Option (Text × List (Json F)) :=
  if keyPrefix <+: value then
    match ((ofToken (value.drop keyPrefix.length)).bind ofUtf8).bind (loads floats (depth + 1)) with
    | some (.list (.string kind :: parts)) => some (kind, parts)
    | _ => none
  else none

def componentOf : Json F → Option Component
  | .string value => some (.name value)
  | .int value => some (.number value)
  | _ => none

def isContainer : Json F → Bool
  | .list _ | .object _ => true
  | _ => false

/-- The check of the components comes to a list or an object of which it asks whether a set has it. -/
def Unhashable (kind : ArtifactKind) (parts : List (Json F)) : Prop :=
  match kind, parts with
  | .episodeSubtitle, [.int episode, .string resourceId, variant]
  | .episodePresentation, [.int episode, .string resourceId, variant] =>
      0 < episode ∧ resourceId ≠ [] ∧ isContainer variant
  | .episodeFinalCut, [.int episode, .string timelineId, narration, subtitles] =>
      0 < episode ∧ HexId (text "tl-") timelineId ∧ (isContainer narration ∨
        (∃ version ∈ narrationVersions, componentOf narration = some (.name version)) ∧
          isContainer subtitles)
  | .episodeJianyingDraft, [.int episode, .string timelineId, narration] =>
      0 < episode ∧ HexId (text "tl-") timelineId ∧ isContainer narration
  | _, _ => False

instance (kind : ArtifactKind) (parts : List (Json F)) : Decidable (Unhashable kind parts) := by
  unfold Unhashable
  split <;> infer_instance

variable (form : NameForm)

def ArtifactKey.fromParts (kindValue : Text) (parts : List (Json F)) :
    Except KeyError (ArtifactKey form) :=
  match ArtifactKind.ofValue kindValue with
  | none => .error (.unsupportedKind kindValue)
  | some kind =>
      match (parts.mapM componentOf).bind (ArtifactKey.init form kind) with
      | some key => .ok key
      | none => .error (if Unhashable kind parts then .unhashable else .mismatch)

def ArtifactKey.decode (value : Text) : Except KeyError (ArtifactKey form) :=
  if keyPrefix <+: value then
    match decodeArtifactKeyParts floats depth value with
    | none => .error .malformed
    | some (kindValue, parts) => do
        let key ← ArtifactKey.fromParts form kindValue parts
        let written ← key.encode
        if written = value then .ok key else .error .notCanonical
  else .error .unsupportedEncoding

end Decode

theorem toNat_of_charOf {c : ℕ} {char : Char} (h : charOf c = some char) : char.toNat = c := by
  unfold charOf at h
  split at h
  · rename_i hvalid
    cases h
    rw [Char.ofNat, dif_pos hvalid]
    rfl
  · cases h

theorem toNat_of_mapM_charOf {t : Text} {chars : List Char} (h : t.mapM charOf = some chars) :
    chars.map Char.toNat = t := by
  induction t generalizing chars with
  | nil =>
      cases h
      rfl
  | cons c t ih =>
      rw [List.mapM_cons] at h
      obtain ⟨char, hchar, h⟩ := Option.bind_eq_some_iff.mp h
      obtain ⟨rest, hrest, h⟩ := Option.bind_eq_some_iff.mp h
      cases h
      rw [List.map_cons, toNat_of_charOf hchar, ih hrest]

theorem ofUtf8_utf8 {t : Text} {bytes : List ℕ} (h : utf8 t = some bytes) :
    ofUtf8 bytes = some t ∧ ∀ byte ∈ bytes, byte < 256 := by
  obtain ⟨chars, hchars, rfl⟩ := Option.map_eq_some_iff.mp h
  constructor
  · have hback : ((chars.flatMap String.utf8EncodeChar).map UInt8.toNat).map UInt8.ofNat =
        chars.flatMap String.utf8EncodeChar := by
      rw [List.map_map]
      exact (List.map_congr_left fun _ _ => UInt8.ofNat_toNat).trans (List.map_id _)
    have harray : ByteArray.mk (chars.flatMap String.utf8EncodeChar).toArray = chars.utf8Encode := by
      rw [List.utf8Encode, ← List.data_toByteArray]
    rw [ofUtf8, hback, harray, List.utf8Decode?_utf8Encode, Option.map_some, List.toList_toArray,
      toNat_of_mapM_charOf hchars]
  · intro byte hbyte
    obtain ⟨octet, -, rfl⟩ := List.mem_map.mp hbyte
    exact octet.toNat_lt

/-- What base64 writes is symbols of its alphabet and padding up to a length that four divides. -/
theorem encode_padded {bytes : List ℕ} (h : ∀ byte ∈ bytes, byte < 256) :
    ∃ symbols pad, UrlSafeBase64.encode bytes = symbols ++ List.replicate pad 61 ∧
      (∀ c ∈ symbols, c ≠ 61) ∧ pad < 4 ∧ (symbols.length + pad) % 4 = 0 := by
  have hsymbol : ∀ {bits}, bits < 64 → UrlSafeBase64.symbol bits ≠ 61 := UrlSafeBase64.symbol_ne_pad
  fun_induction UrlSafeBase64.encode bytes with
  | case1 => exact ⟨[], 0, rfl, by simp, by omega, rfl⟩
  | case2 first =>
      have hfirst := h first List.mem_cons_self
      refine ⟨[_, _], 2, rfl, ?_, by omega, by simp⟩
      simp only [List.forall_mem_cons]
      exact ⟨hsymbol (by omega), hsymbol (by omega), by simp⟩
  | case3 first second =>
      have hfirst := h first List.mem_cons_self
      have hsecond := h second (List.mem_cons_of_mem _ List.mem_cons_self)
      refine ⟨[_, _, _], 1, rfl, ?_, by omega, by simp⟩
      simp only [List.forall_mem_cons]
      exact ⟨hsymbol (by omega), hsymbol (by omega), hsymbol (by omega), by simp⟩
  | case4 first second third bytes ih =>
      simp only [List.forall_mem_cons] at h
      obtain ⟨hfirst, hsecond, hthird, h⟩ := h
      obtain ⟨symbols, pad, heq, hsymbols, hpad, hlength⟩ := ih h
      refine ⟨_ :: _ :: _ :: _ :: symbols, pad, by rw [heq]; rfl, ?_, hpad, ?_⟩
      · simp only [List.forall_mem_cons]
        exact ⟨hsymbol (by omega), hsymbol (by omega), hsymbol (by omega), hsymbol (by omega), hsymbols⟩
      · simp only [List.length_cons]
        omega

theorem ofToken_token {bytes : List ℕ} (h : ∀ byte ∈ bytes, byte < 256) :
    ofToken (token bytes) = some bytes := by
  obtain ⟨symbols, pad, heq, hsymbols, hpad, hlength⟩ := encode_padded h
  have htoken : token bytes = symbols := by
    rw [token, heq, List.rdropWhile, List.reverse_append, List.reverse_replicate,
      List.dropWhile_append_of_pos (by simp), List.dropWhile_eq_self_iff.mpr, List.reverse_reverse]
    intro hpos
    simpa using hsymbols _ (List.mem_reverse.mp (List.getElem_mem hpos))
  have hmissing : (4 - symbols.length % 4) % 4 = pad := by omega
  rw [htoken, ofToken, hmissing, ← heq, UrlSafeBase64.decode_encode h]

section RoundTrip

variable {F : Type} {floats : Floats F} {depth : ℕ}

def Component.json : Component → Json F
  | .name value => .string value
  | .number value => .int value

theorem scanOnce_written {component : Component} (h : ¬ component.tooLong) {rest : Text}
    (hrest : Stops rest) :
    scanOnce floats depth (component.written ++ rest) = some (component.json, rest) := by
  cases component with
  | name value => exact scanOnce_string depth value rest
  | number value => exact scanOnce_scalar (scanScalar_intText (not_le.mp h) hrest) depth

theorem starts_written (floats : Floats F) {component : Component} (h : ¬ component.tooLong) :
    Starts component.written := by
  cases component with
  | name value => exact starts_quote value
  | number value =>
      have hscan := @scanScalar_intText [] F floats value (not_le.mp h) stops_nil
      rw [List.append_nil] at hscan
      exact starts_of_scanScalar hscan

theorem exists_intercalate (separator part : Text) (parts : List Text) :
    ∃ tail, separator.intercalate (part :: parts) = part ++ tail := by
  cases parts with
  | nil => exact ⟨[], by rw [List.intercalate_singleton, List.append_nil]⟩
  | cons next parts => exact ⟨_, by rw [List.intercalate_cons_cons, List.append_assoc]⟩

theorem scanElements_written {components : List Component} (hne : components ≠ [])
    (h : ∀ component ∈ components, ¬ component.tooLong) {rounds : ℕ}
    (hrounds : components.length ≤ rounds) :
    scanElements 93 (scanOnce floats depth) rounds
        ([44].intercalate (components.map Component.written) ++ [93]) =
      some (components.map Component.json, []) := by
  induction components generalizing rounds with
  | nil => exact absurd rfl hne
  | cons component components ih =>
      obtain ⟨rounds, rfl⟩ : ∃ fewer, rounds = fewer + 1 := ⟨rounds - 1, by
        rw [List.length_cons] at hrounds
        omega⟩
      obtain ⟨hfirst, hrest⟩ := List.forall_mem_cons.mp h
      cases components with
      | nil =>
          rw [List.map_singleton, List.intercalate_singleton, scanElements,
            scanOnce_written hfirst (stops_cons.mpr (.inr (.inl rfl)))]
          rfl
      | cons next components =>
          have hstarts := starts_written floats (hrest next List.mem_cons_self)
          have htail := ih (List.cons_ne_nil _ _) hrest (Nat.le_of_succ_le_succ hrounds)
          rw [List.map_cons, List.map_cons, List.intercalate_cons_cons, ← List.map_cons,
            List.append_assoc, List.append_assoc, List.singleton_append, scanElements,
            scanOnce_written hfirst (stops_cons.mpr (.inl rfl))]
          obtain ⟨tail, hnext⟩ := exists_intercalate [44] next.written (components.map Component.written)
          rw [List.map_cons, hnext, List.append_assoc] at htail ⊢
          dsimp only
          rw [skipSpace, List.dropWhile_cons_of_neg (by decide)]
          dsimp only
          rw [if_neg (by decide), if_pos rfl, hstarts.skipSpace, htail]
          rfl

theorem length_le_intercalate (parts : List Text) :
    parts.length ≤ ([44].intercalate parts).length + 1 := by
  induction parts with
  | nil => exact Nat.zero_le _
  | cons part parts ih =>
      cases parts with
      | nil => simp
      | cons next parts =>
          rw [List.intercalate_cons_cons, List.length_cons, List.length_append, List.length_append,
            List.length_singleton]
          omega

theorem loads_payload {components : List Component} (hne : components ≠ [])
    (h : ∀ component ∈ components, ¬ component.tooLong) :
    loads floats (depth + 1) (payload components) = some (.list (components.map Component.json)) := by
  have hrounds := length_le_intercalate (components.map Component.written)
  rw [List.length_map] at hrounds
  have hall := @scanElements_written F floats depth _ hne h _ hrounds
  obtain ⟨first, rest, rfl⟩ := List.exists_cons_of_ne_nil hne
  obtain ⟨tail, htail⟩ := exists_intercalate [44] first.written (rest.map Component.written)
  obtain ⟨c, t, ht, hspace, hclose, -⟩ := starts_written floats (h first List.mem_cons_self)
  have hscan : scanOnce floats (depth + 1) (payload (first :: rest)) =
      some (.list ((first :: rest).map Component.json), []) := by
    rw [List.map_cons, htail, ht] at hall
    rw [payload, List.map_cons, htail, ht, List.cons_append, scanOnce, if_neg (by decide),
      if_neg (by decide), if_pos rfl, scanGroup, List.append_assoc, List.cons_append, skipSpace,
      List.dropWhile_cons_of_neg (by simp [hspace])]
    dsimp only
    have hlength : (t ++ (tail ++ [93])).length = (c :: t ++ tail).length := by
      simp only [List.length_append, List.length_cons, List.length_nil]
      omega
    rw [List.append_assoc (c :: t)] at hall
    rw [if_neg hclose, hlength]
    exact congrArg (Option.map _) hall
  rw [loads, skipSpace, payload, List.cons_append, List.dropWhile_cons_of_neg (by decide),
    ← List.cons_append, ← payload, hscan]
  rfl

end RoundTrip

section Keys

variable {F : Type} {floats : Floats F} {depth : ℕ} {form : NameForm}

theorem ofValue_value (kind : ArtifactKind) : ArtifactKind.ofValue kind.value = some kind := by
  cases kind <;> decide

theorem mapM_componentOf (components : List Component) :
    (components.map (Component.json (F := F))).mapM componentOf = some components := by
  induction components with
  | nil => rfl
  | cons component components ih =>
      rw [List.map_cons, List.mapM_cons, ih]
      cases component <;> rfl

theorem init_components (key : ArtifactKey form) :
    ArtifactKey.init form key.kind key.components = some key := by
  obtain ⟨kind, components, hfits⟩ := key
  have hcanonical : canonical form kind components = components := by
    unfold canonical
    split
    · rw [hfits.2.1]
    · rfl
  unfold ArtifactKey.init
  simp only [hcanonical]
  rw [dif_pos hfits]

theorem decodeArtifactKeyParts_encode {kind value : Text} {components : List Component}
    (h : encodeArtifactKeyParts kind components = .ok value) :
    keyPrefix <+: value ∧ decodeArtifactKeyParts floats depth value =
      some (kind, components.map Component.json) := by
  unfold encodeArtifactKeyParts at h
  split at h
  · cases h
  rename_i hshort
  split at h
  · cases h
  rename_i bytes hbytes
  cases h
  obtain ⟨hread, hlt⟩ := ofUtf8_utf8 hbytes
  have hparts : ∀ component ∈ Component.name kind :: components, ¬ component.tooLong :=
    List.forall_mem_cons.mpr ⟨id, fun component hmem hlong => hshort ⟨component, hmem, hlong⟩⟩
  have hloads := @loads_payload F floats depth _ (List.cons_ne_nil _ _) hparts
  have hbegin : keyPrefix <+: keyPrefix ++ token bytes := List.prefix_append _ _
  refine ⟨hbegin, ?_⟩
  rw [decodeArtifactKeyParts, if_pos hbegin, List.drop_left, ofToken_token hlt, Option.bind_some,
    hread, Option.bind_some, hloads]
  rfl

/-- A text is read as a key exactly when it is what that key is written as. -/
theorem decode_eq_ok_iff (key : ArtifactKey form) (value : Text) :
    ArtifactKey.decode floats depth form value = .ok key ↔ key.encode = .ok value := by
  constructor
  · intro h
    unfold ArtifactKey.decode at h
    split at h
    · split at h
      · cases h
      · obtain ⟨read, -, h⟩ := bind_eq_ok.mp h
        obtain ⟨written, hwritten, h⟩ := bind_eq_ok.mp h
        split at h
        · rename_i hsame
          cases h
          rw [hwritten, hsame]
        · cases h
    · cases h
  · intro h
    obtain ⟨hbegin, hparts⟩ := @decodeArtifactKeyParts_encode F floats depth _ _ _ h
    have hread : ArtifactKey.fromParts form key.kind.value (key.components.map (Component.json (F := F))) =
        .ok key := by
      rw [ArtifactKey.fromParts, ofValue_value]
      dsimp only
      rw [mapM_componentOf, Option.bind_some, init_components]
    rw [ArtifactKey.decode, if_pos hbegin, hparts]
    dsimp only
    rw [hread, ok_bind, h, ok_bind, if_pos rfl]

end Keys

end ShortReel.ArtifactKeys
