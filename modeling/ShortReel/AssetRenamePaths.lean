import ShortReel.AssetRenames

/-!
# Renamed files and the fields that name them

A rename moves files by where they lie and rewrites fields by where they are written. The fields of
the renamed entry and of the others still name their files exactly if every field that names a moved
file is one that is rewritten.
-/

namespace ShortReel.AssetRenames

open FileTrees InsertionDict ReferenceCatalog
open SourceAlignment (Text)

inductive Slot where
  | sheet
  | referenceImage
  | referenceAudio
  | referenceImages (index : ℕ)
  | derivativeSheets (index : ℕ)

def Slot.isImages : Slot → Bool
  | .referenceImages _ => true
  | _ => false

def Slot.isDerivative : Slot → Bool
  | .derivativeSheets _ => true
  | _ => false

def AssetPaths.at (entry : AssetPaths) : Slot → Option Text
  | .sheet => entry.sheet
  | .referenceImage => entry.referenceImage
  | .referenceAudio => entry.referenceAudio
  | .referenceImages index => entry.referenceImages[index]?.join
  | .derivativeSheets index => entry.derivativeSheets[index]?.join

section Fields

variable {β : Type} (tree : Tree Text β) (projectDir : List Text)

def locateField (value : Text) : Option (List Text) :=
  let path := fieldPath value
  locate tree ['.', '.'] (if path.absolute then [] else projectDir) path.parts

def readField (value : Text) : Option β :=
  (locateField tree projectDir value).bind (fileAt tree)

/-- Whatever file a field names, it names the same bytes afterwards. -/
def Keeps (tree' : Tree Text β) (before after : AssetPaths) : Prop :=
  ∀ slot bytes, (before.at slot).bind (readField tree projectDir) = some bytes →
    (after.at slot).bind (readField tree' projectDir) = some bytes

end Fields

section Conditions

variable (forms : NameForms) (digits : DigitTable) (type : AssetType) (oldName : Text)
  (newName : SegmentName)

def NamedAfter (numbered : Bool) (stem newStem : Text) : Prop :=
  (forms.nfc stem = forms.nfc oldName ∧ newStem = newName.text) ∨
    numbered = true ∧ ∃ number, number ≠ [] ∧ number.all digits.isDigit = true ∧
      forms.nfc stem = forms.nfc oldName ++ '_' :: number ∧ newStem = newName.text ++ '_' :: number

def isSequenced (dir : List Text) : Bool :=
  sequencedRefs type && dir = refsDir type

/-- A file of the type's directories that is named after the old name, and not yet after the new. -/
def Swept {β : Type} (tree : Tree Text β) (projectDir path : List Text) : Prop :=
  ∃ dir ∈ migratedDirs type, ∃ name newStem, path = projectDir ++ dir ++ [name] ∧
    isDir tree (projectDir ++ dir) = true ∧ (fileAt tree path).isSome = true ∧
    NamedAfter forms digits oldName newName (isSequenced type dir) (stem name) newStem ∧
    stem name ≠ newStem

/-- A field that is written with the directory in front of the name. If the name is numbered, the
field is one of the reference images. -/
def Reached (slot : Slot) (value : Text) : Prop :=
  slot.isDerivative = false ∧ ∃ dir ∈ migratedDirs type, ∃ name,
    fieldPath value = { absolute := false, parts := dir ++ [name] } ∧
      (forms.nfc (stem name) = forms.nfc oldName ∨ slot.isImages = true)

/-- Every field of the renamed entry that names a moved file is reached, and no other entry names
one. -/
def Agrees {β : Type} (tree : Tree Text β) (projectDir : List Text) (entry : AssetPaths)
    (others : List AssetPaths) : Prop :=
  (∀ slot value path, entry.at slot = some value → locateField tree projectDir value = some path →
      Swept forms digits type oldName newName tree projectDir path →
      Reached forms type oldName slot value) ∧
    ∀ other ∈ others, ∀ slot value path, other.at slot = some value →
      locateField tree projectDir value = some path →
      ¬ Swept forms digits type oldName newName tree projectDir path

end Conditions

def IsPart (part : Text) : Prop :=
  part ≠ [] ∧ part ≠ ['.'] ∧ '/' ∉ part

theorem of_mem_splitOn {c : Char} {text part : Text} (h : part ∈ text.splitOn c) :
    ∀ d ∈ part, d ≠ c ∧ d ∈ text := by
  induction text generalizing part with
  | nil =>
      rw [List.splitOn_nil, List.mem_singleton] at h
      subst h
      intro d hd
      cases hd
  | cons first text ih =>
      rw [List.splitOn_cons_eq_if_modifyHead] at h
      split_ifs at h with hsep
      · intro d hd
        rcases List.mem_cons.mp h with rfl | hrest
        · cases hd
        · exact ⟨(ih hrest d hd).1, List.mem_cons_of_mem _ (ih hrest d hd).2⟩
      · cases hrest : text.splitOn c with
        | nil => exact absurd hrest (List.splitOn_ne_nil c text)
        | cons head tail =>
            rw [hrest] at h ih
            rcases List.mem_cons.mp h with rfl | htail
            · intro d hd
              rcases List.mem_cons.mp hd with rfl | hin
              · exact ⟨fun heq => hsep (beq_iff_eq.mpr heq), List.mem_cons_self⟩
              · obtain ⟨hne, hmem⟩ := ih List.mem_cons_self d hin
                exact ⟨hne, List.mem_cons_of_mem _ hmem⟩
            · intro d hd
              obtain ⟨hne, hmem⟩ := ih (List.mem_cons_of_mem _ htail) d hd
              exact ⟨hne, List.mem_cons_of_mem _ hmem⟩

theorem isPart_of_mem_parse {text part : Text} (h : part ∈ (PurePath.parse text).parts) :
    IsPart part := by
  obtain ⟨hmem, hpart⟩ := List.mem_filter.mp h
  obtain ⟨hnonempty, hhere⟩ := of_decide_eq_true hpart
  exact ⟨hnonempty, hhere, fun hslash => (of_mem_splitOn hmem _ hslash).1 rfl⟩

theorem parse_str {parts : List Text} (hne : parts ≠ []) (hparts : ∀ part ∈ parts, IsPart part) :
    PurePath.parse (PurePath.str { absolute := false, parts }) = { absolute := false, parts } := by
  have hstr : PurePath.str { absolute := false, parts } = ['/'].intercalate parts := by
    rw [PurePath.str, if_neg (by simp), if_neg hne]
  have hsplit : (['/'].intercalate parts).splitOn '/' = parts :=
    List.splitOn_intercalate '/' (fun part hpart => (hparts part hpart).2.2) hne
  have hfilter : parts.filter (fun part => part ≠ [] ∧ part ≠ ['.']) = parts := by
    refine List.filter_eq_self.mpr fun part hpart => decide_eq_true ?_
    exact ⟨(hparts part hpart).1, (hparts part hpart).2.1⟩
  have habsolute : (['/'].intercalate parts).head? ≠ some '/' := by
    cases parts with
    | nil => exact absurd rfl hne
    | cons first rest =>
        obtain ⟨hnonempty, -, hslash⟩ := hparts first List.mem_cons_self
        cases first with
        | nil => exact absurd rfl hnonempty
        | cons c first =>
            have hhead : (['/'].intercalate ((c :: first) :: rest)).head? = some c := by
              cases rest <;> rfl
            rw [hhead]
            rintro ⟨⟩
            exact hslash List.mem_cons_self
  rw [hstr, PurePath.parse, hsplit, hfilter, decide_eq_false habsolute]

theorem backslash_of_fieldPath {value part : Text} (h : part ∈ (fieldPath value).parts) :
    '\\' ∉ part := by
  intro hmem
  have hin := (of_mem_splitOn (List.mem_filter.mp h).1 _ hmem).2
  obtain ⟨c, -, hc⟩ := List.mem_map.mp hin
  split_ifs at hc with hback
  · cases hc
  · exact hback hc

theorem fieldPath_of_backslash {value : Text} (h : '\\' ∉ value) :
    fieldPath value = PurePath.parse value := by
  have hmap : (value.map fun c => if c = '\\' then '/' else c) = value := by
    refine List.map_congr_left (fun c hc => if_neg ?_) |>.trans (List.map_id _)
    rintro rfl
    exact h hc
  rw [fieldPath, hmap]

theorem stem_append_suffix (name : Text) : stem name ++ suffix name = name :=
  List.take_append_drop _ _

theorem suffix_length (name : Text) : suffix name = [] ∨ 2 ≤ (suffix name).length := by
  rw [suffix, suffixAt]
  split
  · split_ifs with hindex
    · rename_i index hfound
      right
      rw [List.length_drop]
      omega
    · exact .inl (List.drop_length)
  · exact .inl (List.drop_length)

theorem mem_of_mem_suffix {name : Text} {c : Char} (h : c ∈ suffix name) : c ∈ name :=
  List.mem_of_mem_drop h

section Stems

variable {forms : NameForms} {digits : DigitTable} {type : AssetType} {oldName : Text}
  {newName : SegmentName} {numbered : Bool} {name newStem : Text}

theorem renamedFileStem_eq_some_iff {stem : Text} :
    renamedFileStem forms digits oldName newName stem numbered = some newStem ↔
      NamedAfter forms digits oldName newName numbered stem newStem := by
  rw [renamedFileStem, NamedAfter]
  dsimp only
  split_ifs with hexact hnumbered hnumber
  · constructor
    · rintro ⟨⟩
      exact .inl ⟨hexact, rfl⟩
    · rintro (⟨-, rfl⟩ | ⟨-, number, -, -, hnumber, -⟩)
      · rfl
      · have hlength := congrArg List.length (hexact.symm.trans hnumber)
        rw [List.length_append, List.length_cons] at hlength
        omega
  · obtain ⟨⟨rest, hfront⟩, hne, hall⟩ := hnumber
    rw [← hfront, List.drop_left] at hne hall ⊢
    constructor
    · rintro ⟨⟩
      exact .inr ⟨hnumbered, rest, hne, hall, by simp, rfl⟩
    · rintro (⟨heq, -⟩ | ⟨-, number, -, -, hnumber, rfl⟩)
      · exact absurd heq (by simp)
      · rw [List.append_assoc] at hnumber
        obtain rfl := List.cons.inj (List.append_cancel_left hnumber) |>.2
        rfl
  · constructor
    · rintro ⟨⟩
    · rintro (⟨heq, -⟩ | ⟨-, number, hne, hall, hfront, -⟩)
      · exact absurd heq hexact
      · have hfront' : forms.nfc stem = forms.nfc oldName ++ ['_'] ++ number := by
          rw [hfront, List.append_assoc]
          rfl
        rw [hfront', List.drop_left] at hnumber
        exact absurd ⟨List.prefix_append _ _, hne, hall⟩ hnumber
  · constructor
    · rintro ⟨⟩
    · rintro (⟨heq, -⟩ | ⟨htrue, -⟩)
      · exact absurd heq hexact
      · exact absurd htrue hnumbered

theorem NamedAfter.unique {stem other : Text}
    (h : NamedAfter forms digits oldName newName numbered stem newStem)
    (h' : NamedAfter forms digits oldName newName numbered stem other) : newStem = other :=
  Option.some.inj
    ((renamedFileStem_eq_some_iff.mpr h).symm.trans (renamedFileStem_eq_some_iff.mpr h'))

theorem NamedAfter.newStem_eq {stem : Text}
    (h : NamedAfter forms digits oldName newName numbered stem newStem) :
    newStem = newName.text ∨ ∃ number, number ≠ [] ∧ number.all digits.isDigit = true ∧
      newStem = newName.text ++ '_' :: number := by
  rcases h with ⟨-, hnew⟩ | ⟨-, number, hne, hall, -, hnew⟩
  · exact .inl hnew
  · exact .inr ⟨number, hne, hall, hnew⟩

theorem NamedAfter.not_mem {stem : Text} {c : Char}
    (h : NamedAfter forms digits oldName newName numbered stem newStem) (hnew : c ∉ newName.text)
    (hdigit : digits.isDigit c = false) (hc : c ≠ '_') : c ∉ newStem := by
  rcases h.newStem_eq with rfl | ⟨number, -, hall, rfl⟩
  · exact hnew
  · intro hmem
    rcases List.mem_append.mp hmem with hfront | hrest
    · exact hnew hfront
    · rcases List.mem_cons.mp hrest with heq | hin
      · exact hc heq
      · rw [List.all_eq_true.mp hall c hin] at hdigit
        cases hdigit

theorem NamedAfter.isPart (h : NamedAfter forms digits oldName newName numbered (stem name) newStem)
    (hslash : '/' ∉ name) :
    IsPart (newStem ++ suffix name) ∧ newStem ++ suffix name ≠ ['.', '.'] := by
  have hlength : newStem = newName.text ∨ 3 ≤ newStem.length := by
    rcases h.newStem_eq with hnew | ⟨number, hne, -, rfl⟩
    · exact .inl hnew
    · right
      have hnumber := List.length_pos_of_ne_nil hne
      have hnew := List.length_pos_of_ne_nil newName.nonempty
      rw [List.length_append, List.length_cons]
      omega
  have hlong : newStem ++ suffix name = newName.text ∨ 3 ≤ (newStem ++ suffix name).length := by
    rw [List.length_append]
    rcases hlength with rfl | hlong
    · rcases suffix_length name with hnone | hsome
      · exact .inl (by rw [hnone, List.append_nil])
      · have hnew := List.length_pos_of_ne_nil newName.nonempty
        exact .inr (by omega)
    · exact .inr (by omega)
  have hne : ∀ short : Text, short.length < 3 → newName.text ≠ short →
      newStem ++ suffix name ≠ short := by
    intro short hshort hnew heq
    rcases hlong with hname | hlong
    · exact hnew (hname.symm.trans heq)
    · rw [heq] at hlong
      omega
  refine ⟨⟨hne [] (by decide) newName.nonempty, hne ['.'] (by decide) newName.here, ?_⟩,
    hne ['.', '.'] (by decide) newName.up⟩
  intro hmem
  rcases List.mem_append.mp hmem with hfront | hrest
  · exact h.not_mem newName.slash digits.slash (by decide) hfront
  · exact hslash (mem_of_mem_suffix hrest)

end Stems

section Fields

variable {forms : NameForms} {digits : DigitTable} {type : AssetType} {oldName : Text}
  {newName : SegmentName}

theorem isPart_of_mem_migratedDirs {dir : List Text} (h : dir ∈ migratedDirs type) :
    dir ≠ [] ∧ ∀ part ∈ dir, IsPart part ∧ '\\' ∉ part ∧ part ≠ ['.', '.'] := by
  have hall : ∀ type, ∀ dir ∈ migratedDirs type, dir ≠ [] ∧ ∀ part ∈ dir,
      (part ≠ [] ∧ part ≠ ['.'] ∧ '/' ∉ part) ∧ '\\' ∉ part ∧ part ≠ ['.', '.'] := by
    intro type
    cases type <;> decide
  exact hall type dir h

def RewrittenTo (forms : NameForms) (digits : DigitTable) (type : AssetType) (oldName : Text)
    (newName : SegmentName) (sequencedField : Bool) (value renamed : Text) : Prop :=
  ∃ dir ∈ migratedDirs type, ∃ name newStem,
    fieldPath value = { absolute := false, parts := dir ++ [name] } ∧
      NamedAfter forms digits oldName newName (sequencedField && isSequenced type dir) (stem name)
        newStem ∧
      renamed = PurePath.str { absolute := false, parts := dir ++ [newStem ++ suffix name] }

theorem rewriteValue_of_path {value name : Text} {dir : List Text} (sequencedField : Bool)
    (hdir : dir ∈ migratedDirs type)
    (hpath : fieldPath value = { absolute := false, parts := dir ++ [name] }) :
    rewriteValue forms digits type oldName newName value sequencedField =
      ((renamedFileStem forms digits oldName newName (stem name)
        (sequencedField && isSequenced type dir)).map fun newStem =>
          PurePath.str { absolute := false, parts := dir ++ [newStem ++ suffix name] }).filter
            (· ≠ value) := by
  rw [rewriteValue, hpath, PurePath.parent]
  dsimp only
  rw [List.dropLast_concat, if_neg (by simp [hdir]), renamedRelpath, hpath, PurePath.name]
  dsimp only
  rw [List.getLast?_concat, Option.getD_some, List.dropLast_concat, isSequenced, Bool.and_assoc]
  cases renamedFileStem forms digits oldName newName (stem name)
      (sequencedField && (sequencedRefs type && dir = refsDir type)) with
  | none => simp
  | some newStem => simp [Option.filter]

theorem path_of_rewriteValue {value renamed : Text} {sequencedField : Bool}
    (h : rewriteValue forms digits type oldName newName value sequencedField = some renamed) :
    ∃ dir ∈ migratedDirs type, ∃ name,
      fieldPath value = { absolute := false, parts := dir ++ [name] } := by
  rw [rewriteValue] at h
  dsimp only at h
  split_ifs at h with hoff
  rw [not_or, not_not] at hoff
  obtain ⟨habsolute, hdir⟩ := hoff
  have hne : (fieldPath value).parts ≠ [] := by
    intro hnil
    refine (isPart_of_mem_migratedDirs hdir).1 ?_
    rw [PurePath.parent, hnil]
    rfl
  refine ⟨_, hdir, (fieldPath value).parts.getLast hne, ?_⟩
  have habsolute' : (fieldPath value).absolute = false := Bool.eq_false_iff.mpr habsolute
  rw [PurePath.parent, List.dropLast_append_getLast hne, ← habsolute']

theorem rewriteValue_eq_some_iff {value renamed : Text} {sequencedField : Bool} :
    rewriteValue forms digits type oldName newName value sequencedField = some renamed ↔
      RewrittenTo forms digits type oldName newName sequencedField value renamed ∧ renamed ≠ value := by
  constructor
  · intro h
    obtain ⟨dir, hdir, name, hpath⟩ := path_of_rewriteValue h
    rw [rewriteValue_of_path sequencedField hdir hpath, Option.filter_eq_some_iff] at h
    obtain ⟨hrenamed, hne⟩ := h
    obtain ⟨newStem, hstem, heq⟩ := Option.map_eq_some_iff.mp hrenamed
    exact ⟨⟨dir, hdir, name, newStem, hpath, renamedFileStem_eq_some_iff.mp hstem, heq.symm⟩,
      of_decide_eq_true hne⟩
  · rintro ⟨⟨dir, hdir, name, newStem, hpath, hnamed, rfl⟩, hne⟩
    rw [rewriteValue_of_path sequencedField hdir hpath, Option.filter_eq_some_iff]
    exact ⟨by rw [renamedFileStem_eq_some_iff.mpr hnamed]; rfl, decide_eq_true hne⟩

theorem mem_of_mem_intercalate {c separator : Char} {parts : List Text}
    (h : c ∈ [separator].intercalate parts) : c = separator ∨ ∃ part ∈ parts, c ∈ part := by
  induction parts with
  | nil => cases h
  | cons first rest ih =>
      cases rest with
      | nil =>
          rw [List.intercalate_singleton] at h
          exact .inr ⟨first, List.mem_cons_self, h⟩
      | cons second rest =>
          rw [List.intercalate_cons_cons] at h
          rcases List.mem_append.mp h with hfront | hrest
          · rcases List.mem_append.mp hfront with hfirst | hseparator
            · exact .inr ⟨first, List.mem_cons_self, hfirst⟩
            · exact .inl (List.mem_singleton.mp hseparator)
          · rcases ih hrest with heq | ⟨part, hpart, hin⟩
            · exact .inl heq
            · exact .inr ⟨part, List.mem_cons_of_mem _ hpart, hin⟩

theorem fieldPath_renamed {dir : List Text} {name newStem value : Text} {numbered : Bool}
    (hdir : dir ∈ migratedDirs type)
    (hpath : fieldPath value = { absolute := false, parts := dir ++ [name] })
    (hnamed : NamedAfter forms digits oldName newName numbered (stem name) newStem) :
    fieldPath (PurePath.str { absolute := false, parts := dir ++ [newStem ++ suffix name] }) =
      { absolute := false, parts := dir ++ [newStem ++ suffix name] } := by
  have hmem : name ∈ (fieldPath value).parts := by
    rw [hpath]
    exact List.mem_append_right _ (List.mem_singleton_self _)
  have hname := isPart_of_mem_parse hmem
  obtain ⟨-, hparts⟩ := isPart_of_mem_migratedDirs hdir
  have hne : dir ++ [newStem ++ suffix name] ≠ [] := by simp
  rw [fieldPath_of_backslash, parse_str hne]
  · intro part hpart
    rcases List.mem_append.mp hpart with hfront | hlast
    · exact (hparts part hfront).1
    · obtain rfl := List.mem_singleton.mp hlast
      exact (hnamed.isPart hname.2.2).1
  · intro hback
    rw [PurePath.str, if_neg (by simp), if_neg hne] at hback
    rcases mem_of_mem_intercalate hback with heq | ⟨part, hpart, hin⟩
    · cases heq
    · rcases List.mem_append.mp hpart with hfront | hlast
      · exact (hparts part hfront).2.1 hin
      · obtain rfl := List.mem_singleton.mp hlast
        rcases List.mem_append.mp hin with hstem | hsuffix
        · exact hnamed.not_mem newName.backslash digits.backslash (by decide) hstem
        · exact backslash_of_fieldPath hmem (mem_of_mem_suffix hsuffix)

end Fields

section Plans

variable {forms : NameForms} {digits : DigitTable} {type : AssetType} {oldName : Text}
  {newName : SegmentName} {β : Type} {tree : Tree Text β} {projectDir : List Text}
  {moves moves' : List (Move Text)} {items : List (List Text × Bool)}

def IsMove (forms : NameForms) (digits : DigitTable) (oldName : Text) (newName : SegmentName)
    (tree : Tree Text β) (items : List (List Text × Bool)) (m : Move Text) : Prop :=
  ∃ allow, (m.1, allow) ∈ items ∧ destinationOf forms digits oldName newName tree allow m.1 = some m.2

theorem destinationOf_eq_some_iff {allow : Bool} {file destination : List Text} :
    destinationOf forms digits oldName newName tree allow file = some destination ↔
      (fileAt tree file).isSome = true ∧ ∃ newStem,
        NamedAfter forms digits oldName newName allow (stem (fileName file)) newStem ∧
          stem (fileName file) ≠ newStem ∧
          destination = file.dropLast ++ [newStem ++ suffix (fileName file)] := by
  rw [destinationOf]
  cases hfile : fileAt tree file with
  | none => simp
  | some bytes =>
      rw [if_neg (by simp)]
      cases hstem : renamedFileStem forms digits oldName newName (stem (fileName file)) allow with
      | none =>
          constructor
          · rintro ⟨⟩
          · rintro ⟨-, newStem, hnamed, -, -⟩
            rw [renamedFileStem_eq_some_iff.mpr hnamed] at hstem
            cases hstem
      | some newStem =>
          have hnamed := renamedFileStem_eq_some_iff.mp hstem
          dsimp only
          constructor
          · intro h
            split_ifs at h with hne
            exact ⟨rfl, newStem, hnamed, hne, (Option.some.inj h).symm⟩
          · rintro ⟨-, other, hother, hne, rfl⟩
            obtain rfl := hnamed.unique hother
            rw [if_pos hne]

theorem concat_fileName {file : List Text} (h : (fileAt tree file).isSome = true) :
    file.dropLast ++ [fileName file] = file := by
  obtain ⟨bytes, hfile⟩ := Option.isSome_iff_exists.mp h
  have hne := (fileAt_eq_some_iff.mp hfile).1
  rw [fileName, List.getLast?_eq_some_getLast hne, Option.getD_some, List.dropLast_append_getLast]

theorem destinationOf_ne {allow : Bool} {file destination : List Text}
    (h : destinationOf forms digits oldName newName tree allow file = some destination) :
    destination ≠ file := by
  obtain ⟨hfile, newStem, -, hne, rfl⟩ := destinationOf_eq_some_iff.mp h
  intro heq
  rw [← concat_fileName hfile, List.dropLast_concat, fileName, List.getLast?_concat,
    Option.getD_some] at heq
  have hname := List.singleton_inj.mp (List.append_cancel_left heq)
  conv_rhs at hname => rw [← stem_append_suffix (fileName file)]
  exact hne (List.append_cancel_right hname).symm

theorem planFile_foldlM
    (h : items.foldlM (planFile forms digits oldName newName tree) moves = .ok moves') :
    (∀ m ∈ moves', m ∈ moves ∨
        IsMove forms digits oldName newName tree items m ∧ node tree m.2 = none) ∧
      (∀ m, m ∈ moves ∨ IsMove forms digits oldName newName tree items m → m ∈ moves') ∧
      ((moves.map Prod.snd).Nodup → (moves'.map Prod.snd).Nodup) := by
  induction items generalizing moves with
  | nil =>
      cases h
      refine ⟨fun m hm => .inl hm, ?_, id⟩
      rintro m (hm | ⟨allow, hmem, -⟩)
      · exact hm
      · cases hmem
  | cons item items ih =>
      rw [List.foldlM_cons, planFile] at h
      have hcons : ∀ {m}, IsMove forms digits oldName newName tree items m →
          IsMove forms digits oldName newName tree (item :: items) m :=
        fun ⟨allow, hmem, hdestination⟩ => ⟨allow, List.mem_cons_of_mem _ hmem, hdestination⟩
      cases hdestination : destinationOf forms digits oldName newName tree item.2 item.1 with
      | none =>
          rw [hdestination] at h
          obtain ⟨hof, hto, hnodup⟩ := ih h
          refine ⟨fun m hm => (hof m hm).imp_right fun ⟨hmove, hfree⟩ => ⟨hcons hmove, hfree⟩, ?_, hnodup⟩
          rintro m (hm | ⟨allow, hmem, hmove⟩)
          · exact hto m (.inl hm)
          · rcases List.mem_cons.mp hmem with heq | hrest
            · rw [← heq, hmove] at hdestination
              cases hdestination
            · exact hto m (.inr ⟨allow, hrest, hmove⟩)
      | some destination =>
          rw [hdestination] at h
          dsimp only at h
          split_ifs at h with hplanned hexists
          · cases h
          · cases h
          have hfree : node tree destination = none := by
            rw [not_and_or, Option.not_isSome_iff_eq_none, not_not] at hexists
            exact hexists.resolve_right (destinationOf_ne hdestination)
          obtain ⟨hof, hto, hnodup⟩ := ih h
          refine ⟨?_, ?_, ?_⟩
          · intro m hm
            rcases hof m hm with hmem | ⟨hmove, hfree'⟩
            · rcases List.mem_append.mp hmem with hmem | hlast
              · exact .inl hmem
              · obtain rfl := List.mem_singleton.mp hlast
                exact .inr ⟨⟨item.2, List.mem_cons_self, hdestination⟩, hfree⟩
            · exact .inr ⟨hcons hmove, hfree'⟩
          · rintro m (hm | ⟨allow, hmem, hmove⟩)
            · exact hto m (.inl (List.mem_append_left _ hm))
            · rcases List.mem_cons.mp hmem with heq | hrest
              · refine hto m (.inl (List.mem_append_right _ (List.mem_singleton.mpr ?_)))
                rw [← heq, hmove] at hdestination
                rw [← heq, ← Option.some.inj hdestination]
              · exact hto m (.inr ⟨allow, hrest, hmove⟩)
          · intro hmoves
            refine hnodup ?_
            rw [List.map_append, List.nodup_append]
            refine ⟨hmoves, List.nodup_singleton _, ?_⟩
            intro other hother last hlast heq
            rw [List.map_singleton, List.mem_singleton] at hlast
            rw [heq, hlast] at hother
            exact hplanned hother

theorem mem_scannedFiles {file : List Text} {allow : Bool} :
    (file, allow) ∈ scannedFiles type tree projectDir ↔
      ∃ dir ∈ migratedDirs type, allow = isSequenced type dir ∧
        isDir tree (projectDir ++ dir) = true ∧ file ∈ children tree (projectDir ++ dir) := by
  have hdirs : ∀ directory : List Text × Bool, directory ∈ namedFileDirs type tree projectDir ↔
      ∃ dir ∈ migratedDirs type, directory = (projectDir ++ dir, isSequenced type dir) ∧
        isDir tree (projectDir ++ dir) = true := by
    have hflags : [(projectDir ++ [subdir type], false), (projectDir ++ refsDir type, sequencedRefs type),
        (projectDir ++ refsAudioDir type, false)] =
          (migratedDirs type).map fun dir => (projectDir ++ dir, isSequenced type dir) := by
      simp [migratedDirs, isSequenced, refsDir, refsAudioDir]
    intro directory
    rw [namedFileDirs, hflags, List.mem_filter, List.mem_map]
    constructor
    · rintro ⟨⟨dir, hdir, rfl⟩, hisDir⟩
      exact ⟨dir, hdir, rfl, hisDir⟩
    · rintro ⟨dir, hdir, rfl, hisDir⟩
      exact ⟨⟨dir, hdir, rfl⟩, hisDir⟩
  rw [scannedFiles, List.mem_flatMap]
  constructor
  · rintro ⟨directory, hdirectory, hfile⟩
    obtain ⟨dir, hdir, rfl, hisDir⟩ := (hdirs directory).mp hdirectory
    obtain ⟨child, hchild, heq⟩ := List.mem_map.mp hfile
    obtain ⟨rfl, rfl⟩ := Prod.mk.inj heq
    exact ⟨dir, hdir, rfl, hisDir, (List.mem_insertionSort _).mp hchild⟩
  · rintro ⟨dir, hdir, rfl, hisDir, hchild⟩
    exact ⟨_, (hdirs _).mpr ⟨dir, hdir, rfl, hisDir⟩,
      List.mem_map.mpr ⟨file, (List.mem_insertionSort _).mpr hchild, rfl⟩⟩

theorem isMove_iff {m : Move Text} :
    IsMove forms digits oldName newName tree (scannedFiles type tree projectDir) m ↔
      ∃ dir ∈ migratedDirs type, ∃ name newStem, m.1 = projectDir ++ dir ++ [name] ∧
        m.2 = projectDir ++ dir ++ [newStem ++ suffix name] ∧
        isDir tree (projectDir ++ dir) = true ∧ (fileAt tree m.1).isSome = true ∧
        NamedAfter forms digits oldName newName (isSequenced type dir) (stem name) newStem ∧
        stem name ≠ newStem := by
  constructor
  · rintro ⟨allow, hmem, hmove⟩
    obtain ⟨dir, hdir, rfl, hisDir, hchild⟩ := mem_scannedFiles.mp hmem
    obtain ⟨-, -, hdropLast⟩ := mem_children.mp hchild
    obtain ⟨hfile, newStem, hnamed, hne, hdestination⟩ := destinationOf_eq_some_iff.mp hmove
    rw [hdropLast] at hdestination
    refine ⟨dir, hdir, fileName m.1, newStem, ?_, hdestination, hisDir, hfile, hnamed, hne⟩
    rw [← hdropLast, concat_fileName hfile]
  · rintro ⟨dir, hdir, name, newStem, hsource, hdestination, hisDir, hfile, hnamed, hne⟩
    obtain ⟨bytes, hbytes⟩ := Option.isSome_iff_exists.mp hfile
    obtain ⟨hroot, hget⟩ := fileAt_eq_some_iff.mp hbytes
    have hname : fileName m.1 = name := by
      rw [hsource, fileName, List.getLast?_concat, Option.getD_some]
    have hdropLast : m.1.dropLast = projectDir ++ dir := by
      rw [hsource, List.dropLast_concat]
    refine ⟨isSequenced type dir, mem_scannedFiles.mpr ⟨dir, hdir, rfl, hisDir, ?_⟩,
      destinationOf_eq_some_iff.mpr ⟨hfile, newStem, ?_, ?_, ?_⟩⟩
    · exact mem_children.mpr ⟨get_isSome_iff.mp (by rw [hget]; rfl), hroot, hdropLast⟩
    · rwa [hname]
    · rwa [hname]
    · rw [hname, hdropLast, hdestination]

theorem IsMove.unique {m other : Move Text}
    (h : IsMove forms digits oldName newName tree (scannedFiles type tree projectDir) m)
    (h' : IsMove forms digits oldName newName tree (scannedFiles type tree projectDir) other)
    (heq : m.1 = other.1) : m = other := by
  obtain ⟨dir, -, name, newStem, hsource, hdestination, -, -, hnamed, -⟩ := isMove_iff.mp h
  obtain ⟨dir', -, name', newStem', hsource', hdestination', -, -, hnamed', -⟩ := isMove_iff.mp h'
  rw [hsource, hsource'] at heq
  obtain ⟨hdirs, hnames⟩ := List.append_inj' heq rfl
  obtain rfl := List.append_cancel_left hdirs
  obtain rfl := List.singleton_inj.mp hnames
  obtain rfl := hnamed.unique hnamed'
  exact Prod.ext (hsource.trans hsource'.symm) (hdestination.trans hdestination'.symm)

theorem plan_spec
    (h : planAssetFileRenames forms digits type oldName newName tree projectDir = .ok moves) :
    Apart tree moves ∧ ∀ m, m ∈ moves ↔
      IsMove forms digits oldName newName tree (scannedFiles type tree projectDir) m := by
  obtain ⟨hof, hto, hnodup⟩ := planFile_foldlM h
  have hmem : ∀ m, m ∈ moves ↔
      IsMove forms digits oldName newName tree (scannedFiles type tree projectDir) m := by
    intro m
    constructor
    · intro hm
      rcases hof m hm with hnil | ⟨hmove, -⟩
      · cases hnil
      · exact hmove
    · exact fun hmove => hto m (.inr hmove)
  have hdestinations : (moves.map Prod.snd).Nodup := hnodup List.nodup_nil
  refine ⟨⟨?_, hdestinations, ?_, ?_⟩, hmem⟩
  · refine List.Nodup.map_on ?_ hdestinations.of_map
    exact fun m hm other hother => ((hmem m).mp hm).unique ((hmem other).mp hother)
  · intro m hm
    obtain ⟨-, -, -, -, -, -, -, hfile, -⟩ := isMove_iff.mp ((hmem m).mp hm)
    obtain ⟨bytes, hbytes⟩ := Option.isSome_iff_exists.mp hfile
    exact ⟨bytes, (fileAt_eq_some_iff.mp hbytes).2⟩
  · intro m hm
    rcases hof m hm with hnil | ⟨-, hfree⟩
    · cases hnil
    · rw [node] at hfree
      split_ifs at hfree with hroot
      exact ⟨hroot, hfree⟩

theorem mem_sources_iff
    (h : planAssetFileRenames forms digits type oldName newName tree projectDir = .ok moves)
    {path : List Text} : path ∈ moves.map Prod.fst ↔
      Swept forms digits type oldName newName tree projectDir path := by
  obtain ⟨-, hmem⟩ := plan_spec h
  constructor
  · intro hpath
    obtain ⟨m, hm, rfl⟩ := List.mem_map.mp hpath
    obtain ⟨dir, hdir, name, newStem, hsource, -, hisDir, hfile, hnamed, hne⟩ :=
      isMove_iff.mp ((hmem m).mp hm)
    exact ⟨dir, hdir, name, newStem, hsource, hisDir, hfile, hnamed, hne⟩
  · rintro ⟨dir, hdir, name, newStem, hsource, hisDir, hfile, hnamed, hne⟩
    exact List.mem_map.mpr ⟨(path, projectDir ++ dir ++ [newStem ++ suffix name]),
      (hmem _).mpr (isMove_iff.mpr
        ⟨dir, hdir, name, newStem, hsource, rfl, hisDir, hfile, hnamed, hne⟩), rfl⟩

end Plans

section Agreement

variable {forms : NameForms} {digits : DigitTable} {type : AssetType} {oldName : Text}
  {newName : SegmentName} {β : Type} {tree : Tree Text β} {projectDir : List Text}
  {moves : List (Move Text)} {value path : List Char}

theorem NamedAfter.mono {flag numbered : Bool} {stem newStem : Text}
    (h : NamedAfter forms digits oldName newName (flag && numbered) stem newStem) :
    NamedAfter forms digits oldName newName numbered stem newStem := by
  rcases h with hexact | ⟨hflag, hnumber⟩
  · exact .inl hexact
  · exact .inr ⟨(Bool.and_eq_true_iff.mp hflag).2, hnumber⟩

theorem rewriteEntryPaths_at (entry : AssetPaths) (slot : Slot) :
    (rewriteEntryPaths forms digits type oldName newName entry).1.at slot =
      if slot.isDerivative then entry.at slot
      else (rewrittenField forms digits type oldName newName slot.isImages (entry.at slot)).or
        (entry.at slot) := by
  cases slot with
  | sheet | referenceImage | referenceAudio | derivativeSheets => rfl
  | referenceImages index =>
      change ((entry.referenceImages.map _)[index]?).join = (rewrittenField _ _ _ _ _ true
        entry.referenceImages[index]?.join).or entry.referenceImages[index]?.join
      rw [List.getElem?_map]
      cases entry.referenceImages[index]? with
      | none => rfl
      | some field => rfl

theorem locateField_of_path {dir : List Text} {name : Text} {bytes : β} {path : List Text}
    (hdir : dir ∈ migratedDirs type)
    (hpath : fieldPath value = { absolute := false, parts := dir ++ [name] })
    (hlocate : locateField tree projectDir value = some path)
    (hfile : fileAt tree path = some bytes) :
    path = projectDir ++ dir ++ [name] ∧ isDir tree (projectDir ++ dir) = true ∧
      locate tree ['.', '.'] projectDir dir = some (projectDir ++ dir) := by
  obtain ⟨hne, hparts⟩ := isPart_of_mem_migratedDirs hdir
  have hup : ['.', '.'] ∉ dir := fun hmem => (hparts _ hmem).2.2 rfl
  rw [locateField, hpath] at hlocate
  change locate tree ['.', '.'] projectDir (dir ++ [name]) = some path at hlocate
  obtain ⟨current, hcurrent, hisDir, hend⟩ := locate_concat_eq_some hlocate
  obtain rfl := locate_eq_append hup hcurrent
  have hname : name ≠ ['.', '.'] := by
    intro hname
    obtain ⟨first, last, rfl⟩ : ∃ first last, dir = first ++ [last] :=
      ⟨_, _, (List.dropLast_append_getLast hne).symm⟩
    obtain ⟨before, -, hisDir', hlast⟩ := locate_concat_eq_some hcurrent
    rw [if_neg (hparts last (List.mem_append_right _ List.mem_cons_self)).2.2] at hlast
    rw [if_pos hname, hlast, List.dropLast_concat] at hend
    rw [← hend] at hisDir'
    rw [isDir] at hisDir'
    rw [fileAt] at hfile
    cases hnode : node tree path with
    | none =>
        rw [hnode] at hfile
        cases hfile
    | some found =>
        rw [hnode] at hfile hisDir'
        cases found with
        | directory => cases hfile
        | file => cases hisDir'
  rw [if_neg hname] at hend
  exact ⟨hend, hisDir, hcurrent⟩

theorem readField_congr {other : Text} (h : fieldPath other = fieldPath value) :
    readField tree projectDir other = readField tree projectDir value := by
  rw [readField, readField, locateField, locateField, h]

theorem readField_eq_some_iff {bytes : β} : readField tree projectDir value = some bytes ↔
    ∃ path, locateField tree projectDir value = some path ∧ fileAt tree path = some bytes :=
  Option.bind_eq_some_iff

theorem readField_moveAll (hapart : Apart tree moves) {path : List Text} {bytes : β}
    (hlocate : locateField tree projectDir value = some path)
    (hfile : fileAt tree path = some bytes) :
    readField (moveAll tree moves) projectDir value = some bytes ↔ path ∉ moves.map Prod.fst := by
  have hlocate' : locateField (moveAll tree moves) projectDir value = some path := by
    rw [locateField, hapart.locate_moveAll]
    exact hlocate
  rw [readField, hlocate', Option.bind_some, hapart.fileAt_moveAll hfile]

theorem readField_renamed
    (hplan : planAssetFileRenames forms digits type oldName newName tree projectDir = .ok moves)
    {dir : List Text} {name newStem : Text} {bytes : β} {path : List Text}
    (hdir : dir ∈ migratedDirs type)
    (hpath : fieldPath value = { absolute := false, parts := dir ++ [name] })
    (hlocate : locateField tree projectDir value = some path)
    (hfile : fileAt tree path = some bytes)
    (hnamed : NamedAfter forms digits oldName newName (isSequenced type dir) (stem name) newStem)
    (hne : stem name ≠ newStem) :
    readField (moveAll tree moves) projectDir
      (PurePath.str { absolute := false, parts := dir ++ [newStem ++ suffix name] }) =
        some bytes := by
  obtain ⟨hapart, hmem⟩ := plan_spec hplan
  obtain ⟨rfl, hisDir, hwalk⟩ := locateField_of_path hdir hpath hlocate hfile
  have hmove : (projectDir ++ dir ++ [name], projectDir ++ dir ++ [newStem ++ suffix name]) ∈ moves :=
    (hmem _).mpr (isMove_iff.mpr ⟨dir, hdir, name, newStem, rfl, rfl, hisDir,
      by rw [hfile]; rfl, hnamed, hne⟩)
  have hslash : '/' ∉ name := by
    refine (isPart_of_mem_parse (?_ : name ∈ (fieldPath value).parts)).2.2
    rw [hpath]
    exact List.mem_append_right _ (List.mem_singleton_self _)
  have hlocate' : locateField (moveAll tree moves) projectDir
      (PurePath.str { absolute := false, parts := dir ++ [newStem ++ suffix name] }) =
        some (projectDir ++ dir ++ [newStem ++ suffix name]) := by
    rw [locateField, fieldPath_renamed hdir hpath hnamed]
    change locate (moveAll tree moves) ['.', '.'] projectDir (dir ++ [newStem ++ suffix name]) = _
    rw [hapart.locate_moveAll, locate_concat, hwalk, Option.bind_some, walk, if_pos hisDir,
      if_neg (hnamed.isPart hslash).2]
  rw [readField, hlocate', Option.bind_some]
  exact hapart.fileAt_destination hmove hfile

theorem Reached.rewrittenTo {slot : Slot} {path : List Text} {bytes : β}
    (h : Reached forms type oldName slot value)
    (hlocate : locateField tree projectDir value = some path)
    (hfile : fileAt tree path = some bytes)
    (hswept : Swept forms digits type oldName newName tree projectDir path) :
    ∃ renamed, rewriteValue forms digits type oldName newName value slot.isImages = some renamed := by
  obtain ⟨-, dir, hdir, name, hpath, hexact⟩ := h
  obtain ⟨rfl, -, -⟩ := locateField_of_path hdir hpath hlocate hfile
  obtain ⟨dir', -, name', newStem, heq, -, -, hnamed, hne⟩ := hswept
  obtain ⟨hdirs, hnames⟩ := List.append_inj' heq rfl
  obtain rfl := List.append_cancel_left hdirs
  obtain rfl := List.singleton_inj.mp hnames
  have hnamed' : NamedAfter forms digits oldName newName (slot.isImages && isSequenced type dir)
      (stem name) newStem := by
    rcases hnamed with hsame | ⟨hnumbered, number, hnonempty, hall, hfront, hnew⟩
    · exact .inl hsame
    · rcases hexact with hsame | himages
      · have hlength := congrArg List.length (hsame.symm.trans hfront)
        rw [List.length_append, List.length_cons] at hlength
        omega
      · exact .inr ⟨by rw [himages, hnumbered]; rfl, number, hnonempty, hall, hfront, hnew⟩
  refine ⟨_, rewriteValue_eq_some_iff.mpr
    ⟨⟨dir, hdir, name, newStem, hpath, hnamed', rfl⟩, ?_⟩⟩
  intro hsame
  have hread := fieldPath_renamed hdir hpath hnamed'
  rw [hsame, hpath] at hread
  have hlast := List.singleton_inj.mp (List.append_cancel_left (PurePath.mk.inj hread).2)
  conv_lhs at hlast => rw [← stem_append_suffix name]
  exact hne (List.append_cancel_right hlast)

theorem reached_of_rewritten {slot : Slot} {renamed : Text} (hslot : slot.isDerivative = false)
    (h : rewriteValue forms digits type oldName newName value slot.isImages = some renamed) :
    Reached forms type oldName slot value := by
  obtain ⟨⟨dir, hdir, name, newStem, hpath, hnamed, -⟩, -⟩ := rewriteValue_eq_some_iff.mp h
  refine ⟨hslot, dir, hdir, name, hpath, ?_⟩
  rcases hnamed with ⟨hexact, -⟩ | ⟨hnumbered, -⟩
  · exact .inl hexact
  · exact .inr (Bool.and_eq_true_iff.mp hnumbered).1

theorem rewriteValue_nil (flag : Bool) :
    rewriteValue forms digits type oldName newName [] flag = none := by
  rw [Option.eq_none_iff_forall_ne_some]
  intro renamed h
  obtain ⟨dir, -, name, hpath⟩ := path_of_rewriteValue h
  have hparts := congrArg PurePath.parts hpath
  exact List.append_ne_nil_of_right_ne_nil dir (List.cons_ne_nil name []) hparts.symm

theorem at_rewritten {entry : AssetPaths} {slot : Slot} (hat : entry.at slot = some value) :
    (rewriteEntryPaths forms digits type oldName newName entry).1.at slot =
      if slot.isDerivative then some value
      else (rewriteValue forms digits type oldName newName value slot.isImages).or (some value) := by
  rw [rewriteEntryPaths_at, hat, rewrittenField, Option.bind_some]
  by_cases hempty : value = []
  · rw [if_pos hempty, hempty, rewriteValue_nil]
  · rw [if_neg hempty]

theorem readField_rewritten
    (hplan : planAssetFileRenames forms digits type oldName newName tree projectDir = .ok moves)
    {flag : Bool} {renamed : Text} {path : List Text} {bytes : β}
    (hlocate : locateField tree projectDir value = some path)
    (hfile : fileAt tree path = some bytes)
    (hrenamed : rewriteValue forms digits type oldName newName value flag = some renamed) :
    readField (moveAll tree moves) projectDir renamed = some bytes := by
  obtain ⟨hapart, -⟩ := plan_spec hplan
  obtain ⟨⟨dir, hdir, name, newStem, hpath, hnamed, rfl⟩, -⟩ :=
    rewriteValue_eq_some_iff.mp hrenamed
  by_cases hne : stem name = newStem
  · -- The file has the new name, and the field is only spelled another way.
    have hsame : fieldPath (PurePath.str
        { absolute := false, parts := dir ++ [newStem ++ suffix name] }) = fieldPath value := by
      rw [fieldPath_renamed hdir hpath hnamed, hpath, ← hne, stem_append_suffix]
    rw [readField_congr hsame, readField_moveAll hapart hlocate hfile, mem_sources_iff hplan]
    rintro ⟨dir', -, name', other, heq, -, -, hnamed', hne'⟩
    obtain ⟨rfl, -, -⟩ := locateField_of_path hdir hpath hlocate hfile
    obtain ⟨hdirs, hnames⟩ := List.append_inj' heq rfl
    obtain rfl := List.append_cancel_left hdirs
    obtain rfl := List.singleton_inj.mp hnames
    exact hne' (hne.trans (hnamed.mono.unique hnamed'))
  · exact readField_renamed hplan hdir hpath hlocate hfile hnamed.mono hne

/-- The fields keep their files exactly if all fields that name a moved file are rewritten. -/
theorem keeps_iff_agrees
    (hplan : planAssetFileRenames forms digits type oldName newName tree projectDir = .ok moves)
    (entry : AssetPaths) (others : List AssetPaths) :
    (Keeps tree projectDir (moveAll tree moves) entry
        (rewriteEntryPaths forms digits type oldName newName entry).1 ∧
      ∀ other ∈ others, Keeps tree projectDir (moveAll tree moves) other other) ↔
      Agrees forms digits type oldName newName tree projectDir entry others := by
  obtain ⟨hapart, -⟩ := plan_spec hplan
  have hstays : ∀ {value : Text} {path : List Text} {bytes : β},
      locateField tree projectDir value = some path → fileAt tree path = some bytes →
      (readField (moveAll tree moves) projectDir value = some bytes ↔
        ¬ Swept forms digits type oldName newName tree projectDir path) := by
    intro value path bytes hlocate hfile
    rw [readField_moveAll hapart hlocate hfile, mem_sources_iff hplan]
  constructor
  · rintro ⟨hentry, hothers⟩
    constructor
    · intro slot value path hat hlocate hswept
      obtain ⟨-, -, -, -, -, -, hisFile, -⟩ := id hswept
      obtain ⟨bytes, hfile⟩ := Option.isSome_iff_exists.mp hisFile
      have hread := readField_eq_some_iff.mpr ⟨path, hlocate, hfile⟩
      by_contra hreached
      have hafter : (rewriteEntryPaths forms digits type oldName newName entry).1.at slot =
          some value := by
        rw [at_rewritten hat]
        split_ifs with hslot
        · rfl
        · cases hrenamed : rewriteValue forms digits type oldName newName value slot.isImages with
          | none => rfl
          | some renamed =>
              exact absurd (reached_of_rewritten (Bool.eq_false_iff.mpr hslot) hrenamed) hreached
      have hkept := hentry slot bytes (by rw [hat, Option.bind_some, hread])
      rw [hafter, Option.bind_some] at hkept
      exact (hstays hlocate hfile).mp hkept hswept
    · intro other hother slot value path hat hlocate hswept
      obtain ⟨-, -, -, -, -, -, hisFile, -⟩ := id hswept
      obtain ⟨bytes, hfile⟩ := Option.isSome_iff_exists.mp hisFile
      have hread := readField_eq_some_iff.mpr ⟨path, hlocate, hfile⟩
      have hkept := hothers other hother slot bytes (by rw [hat, Option.bind_some, hread])
      rw [hat, Option.bind_some] at hkept
      exact (hstays hlocate hfile).mp hkept hswept
  · rintro ⟨hentry, hothers⟩
    constructor
    · intro slot bytes hbefore
      obtain ⟨value, hat, hread⟩ := Option.bind_eq_some_iff.mp hbefore
      obtain ⟨path, hlocate, hfile⟩ := readField_eq_some_iff.mp hread
      rw [at_rewritten hat]
      split_ifs with hslot
      · refine (hstays hlocate hfile).mpr fun hswept => ?_
        have hreached := hentry slot value path hat hlocate hswept
        rw [hreached.1] at hslot
        cases hslot
      · cases hrenamed : rewriteValue forms digits type oldName newName value slot.isImages with
        | none =>
            refine (hstays hlocate hfile).mpr fun hswept => ?_
            obtain ⟨renamed, hsome⟩ :=
              (hentry slot value path hat hlocate hswept).rewrittenTo hlocate hfile hswept
            rw [hrenamed] at hsome
            cases hsome
        | some renamed => exact readField_rewritten hplan hlocate hfile hrenamed
    · intro other hother slot bytes hbefore
      obtain ⟨value, hat, hread⟩ := Option.bind_eq_some_iff.mp hbefore
      obtain ⟨path, hlocate, hfile⟩ := readField_eq_some_iff.mp hread
      rw [hat]
      exact (hstays hlocate hfile).mpr (hothers other hother slot value path hat hlocate)

end Agreement

private theorem composed_slash (base rest : Text) : id (base ++ '/' :: rest) = id base ++ '/' :: id rest :=
  rfl

private theorem slash_of_composed (name : Text) (h : '/' ∈ id name) : '/' ∈ name :=
  h

private theorem composed_twice (name : Text) : id (id name) = id name :=
  rfl

private theorem strip_composed (name : Text) :
    ManualSplit.strip (id name) = id (ManualSplit.strip name) :=
  rfl

private def composedForms : NameForms where
  nfc := id
  posixPath := id
  nfc_nfc := composed_twice
  nfc_slash := composed_slash
  slash_of_nfc := slash_of_composed
  strip_nfc := strip_composed

private def asciiDigits : DigitTable where
  isDigit c := c.isDigit
  slash := rfl
  backslash := rfl

private def mug : SegmentName where
  text := "mug".toList
  nonempty := by decide
  slash := by decide
  backslash := by decide
  here := by decide
  up := by decide

private def demo : List Text := ["demo".toList]

private def cupTree : Tree Text ℕ :=
  [(demo, .directory), (demo ++ ["products".toList], .directory),
    (demo ++ ["products".toList, "refs".toList], .directory),
    (demo ++ ["products".toList, "refs".toList, "cup_1.png".toList], .file 1),
    (demo ++ ["products".toList, "refs".toList, "cup_2.png".toList], .file 2),
    (demo ++ ["products".toList, "cup_2.png".toList], .file 3)]

private def cup : AssetPaths where
  sheet := none
  referenceImage := none
  referenceAudio := none
  referenceImages := [some "products/refs/cup_1.png".toList, some "products/refs/cup_2.png".toList]
  derivativeSheets := []

private def secondCup : AssetPaths where
  sheet := some "products/cup_2.png".toList
  referenceImage := none
  referenceAudio := none
  referenceImages := []
  derivativeSheets := []

/-- The rename of `cup` leaves the files of `cup_2` where they are. -/
theorem keeps_iff_agrees_cup :
    ∃ moves, planAssetFileRenames composedForms asciiDigits .product "cup".toList mug cupTree demo =
        .ok moves ∧
      ((Keeps cupTree demo (moveAll cupTree moves) cup
          (rewriteEntryPaths composedForms asciiDigits .product "cup".toList mug cup).1 ∧
        ∀ other ∈ [secondCup], Keeps cupTree demo (moveAll cupTree moves) other other) ↔
        Agrees composedForms asciiDigits .product "cup".toList mug cupTree demo cup [secondCup]) := by
  have hplan : planAssetFileRenames composedForms asciiDigits .product "cup".toList mug cupTree demo =
      .ok [(demo ++ ["products".toList, "refs".toList, "cup_1.png".toList],
          demo ++ ["products".toList, "refs".toList, "mug_1.png".toList]),
        (demo ++ ["products".toList, "refs".toList, "cup_2.png".toList],
          demo ++ ["products".toList, "refs".toList, "mug_2.png".toList])] := by decide +kernel
  exact ⟨_, hplan, keeps_iff_agrees hplan cup [secondCup]⟩

/-- The rename of `cup_2` takes the second image of `cup` away. -/
theorem renamedSecondCup_dangles :
    ∃ moves, planAssetFileRenames composedForms asciiDigits .product "cup_2".toList mug cupTree demo =
        .ok moves ∧
      ¬ (Keeps cupTree demo (moveAll cupTree moves) secondCup
          (rewriteEntryPaths composedForms asciiDigits .product "cup_2".toList mug secondCup).1 ∧
        ∀ other ∈ [cup], Keeps cupTree demo (moveAll cupTree moves) other other) := by
  have hplan : planAssetFileRenames composedForms asciiDigits .product "cup_2".toList mug cupTree demo =
      .ok [(demo ++ ["products".toList, "cup_2.png".toList],
          demo ++ ["products".toList, "mug.png".toList]),
        (demo ++ ["products".toList, "refs".toList, "cup_2.png".toList],
          demo ++ ["products".toList, "refs".toList, "mug.png".toList])] := by decide +kernel
  refine ⟨_, hplan, ?_⟩
  rintro ⟨-, hothers⟩
  have hkept := hothers cup List.mem_cons_self (.referenceImages 1) 2 (by decide +kernel)
  have hgone : readField (moveAll cupTree [(demo ++ ["products".toList, "cup_2.png".toList],
          demo ++ ["products".toList, "mug.png".toList]),
        (demo ++ ["products".toList, "refs".toList, "cup_2.png".toList],
          demo ++ ["products".toList, "refs".toList, "mug.png".toList])]) demo
      "products/refs/cup_2.png".toList = none := by decide +kernel
  rw [show cup.at (.referenceImages 1) = some "products/refs/cup_2.png".toList from rfl,
    Option.bind_some, hgone] at hkept
  cases hkept

end ShortReel.AssetRenames
