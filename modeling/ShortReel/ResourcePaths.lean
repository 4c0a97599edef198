import Mathlib.Data.List.TakeWhile

/-!
# Resource paths

`resource_paths.py`: the shape of the paths of each type of resource, and the path of a version
snapshot. No two versions of resources have one snapshot path.
-/

namespace ShortReel.ResourcePaths

inductive ResourceType where
  | storyboards
  | endFrames
  | videos
  | characters
  | scenes
  | props
  | products
  | grids
  | referenceVideos
  | audio
  | characterDerivatives
  deriving DecidableEq, Repr

structure ResourcePattern where
  subdir : String
  extension : String
  idSegments : ℕ
  deriving DecidableEq, Repr

/-- `_PATTERNS`. -/
def pattern : ResourceType → ResourcePattern
  | .storyboards => ⟨"storyboards", ".png", 1⟩
  | .endFrames => ⟨"end_frames", ".png", 1⟩
  | .videos => ⟨"videos", ".mp4", 1⟩
  | .characters => ⟨"characters", ".png", 1⟩
  | .scenes => ⟨"scenes", ".png", 1⟩
  | .props => ⟨"props", ".png", 1⟩
  | .products => ⟨"products", ".png", 1⟩
  | .grids => ⟨"grids", ".png", 1⟩
  | .referenceVideos => ⟨"reference_videos", ".mp4", 1⟩
  | .audio => ⟨"audio", ".wav", 1⟩
  | .characterDerivatives => ⟨"characters/derivatives", ".png", 2⟩

/-- The name of a type in `versions.json`. -/
def ResourceType.name : ResourceType → String
  | .characterDerivatives => "character_derivatives"
  | type => (pattern type).subdir

structure Resource where
  type : ResourceType
  id : String
  segments : id.toList.count '/' + 1 = (pattern type).idSegments
  deriving DecidableEq, Repr

/-- What `strftime` gives for a file name. -/
structure Timestamp where
  text : String
  plain : ∀ c ∈ text.toList, c.isAlphanum = true
  deriving DecidableEq, Repr

/-- `str.rpartition`, without the separator. -/
def rpartition (c : Char) (s : List Char) : List Char × List Char :=
  (((s.reverse.dropWhile (· ≠ c)).drop 1).reverse, (s.reverse.takeWhile (· ≠ c)).reverse)

def parentPrefix (id : String) : List Char :=
  let parent := (rpartition '/' id.toList).1
  if parent = [] then [] else parent ++ ['/']

def stem (id : String) : List Char :=
  (rpartition '/' id.toList).2

def versionSnapshotDir (type : ResourceType) : String :=
  "versions/" ++ (pattern type).subdir

def versionSnapshotRelativePath (resource : Resource) (version : ℕ) (timestamp : Timestamp) :
    String :=
  versionSnapshotDir resource.type ++ "/" ++
    String.ofList (parentPrefix resource.id ++ stem resource.id) ++ "_v" ++ toString version ++ "_" ++
      timestamp.text ++ (pattern resource.type).extension

theorem splitFirst_inj {c : Char} {a b a' b' : List Char} (ha : c ∉ a) (ha' : c ∉ a')
    (h : a ++ c :: b = a' ++ c :: b') : a = a' ∧ b = b' := by
  induction a generalizing a' with
  | nil =>
      cases a' with
      | nil => exact ⟨rfl, (List.cons.inj h).2⟩
      | cons d a' =>
          obtain ⟨rfl, -⟩ := List.cons.inj h
          exact absurd List.mem_cons_self ha'
  | cons d a ih =>
      cases a' with
      | nil =>
          obtain ⟨rfl, -⟩ := List.cons.inj h
          exact absurd List.mem_cons_self ha
      | cons d' a' =>
          obtain ⟨rfl, hrest⟩ := List.cons.inj h
          obtain ⟨rfl, hb⟩ := ih (fun hin => ha (List.mem_cons_of_mem _ hin))
            (fun hin => ha' (List.mem_cons_of_mem _ hin)) hrest
          exact ⟨rfl, hb⟩

theorem splitLast_inj {c : Char} {a b a' b' : List Char} (hb : c ∉ b) (hb' : c ∉ b')
    (h : a ++ c :: b = a' ++ c :: b') : a = a' ∧ b = b' := by
  have hreverse := congrArg List.reverse h
  rw [List.reverse_append, List.reverse_append, List.reverse_cons, List.reverse_cons,
    List.append_assoc, List.append_assoc] at hreverse
  obtain ⟨hback, hfront⟩ := splitFirst_inj (fun hin => hb (List.mem_reverse.mp hin))
    (fun hin => hb' (List.mem_reverse.mp hin)) hreverse
  exact ⟨List.reverse_inj.mp hfront, List.reverse_inj.mp hback⟩

theorem rpartition_of_not_mem {c : Char} {s : List Char} (h : c ∉ s) :
    rpartition c s = ([], s) := by
  have hall : ∀ x ∈ s.reverse, decide (x ≠ c) = true := fun x hx =>
    decide_eq_true fun heq => h (heq ▸ List.mem_reverse.mp hx)
  unfold rpartition
  rw [List.dropWhile_eq_nil_iff.mpr hall, List.takeWhile_eq_self_iff.mpr hall, List.reverse_reverse]
  rfl

theorem rpartition_append {c : Char} {a b : List Char} (h : c ∉ b) :
    rpartition c (a ++ c :: b) = (a, b) := by
  have hall : ∀ x ∈ b.reverse, decide (x ≠ c) = true := fun x hx =>
    decide_eq_true fun heq => h (heq ▸ List.mem_reverse.mp hx)
  unfold rpartition
  rw [List.reverse_append, List.reverse_cons, List.append_assoc, List.singleton_append,
    List.dropWhile_append_of_pos hall, List.takeWhile_append_of_pos hall]
  simp

theorem exists_splitLast {c : Char} {s : List Char} (h : c ∈ s) : ∃ a b, s = a ++ c :: b ∧ c ∉ b := by
  obtain ⟨a, b, hsplit, hnot⟩ := List.eq_append_cons_of_mem (List.mem_reverse.mpr h)
  refine ⟨b.reverse, a.reverse, ?_, fun hin => hnot (List.mem_reverse.mp hin)⟩
  have hreverse := congrArg List.reverse hsplit
  rw [List.reverse_reverse, List.reverse_append, List.reverse_cons, List.append_assoc] at hreverse
  exact hreverse

def snapshotName (id : String) : List Char :=
  parentPrefix id ++ stem id

theorem snapshotName_of_plain {id : String} (h : '/' ∉ id.toList) : snapshotName id = id.toList := by
  unfold snapshotName parentPrefix stem
  rw [rpartition_of_not_mem h]
  rfl

theorem snapshotName_of_split {id : String} {a b : List Char} (hid : id.toList = a ++ '/' :: b)
    (hb : '/' ∉ b) : snapshotName id = if a = [] then b else id.toList := by
  unfold snapshotName parentPrefix stem
  rw [hid, rpartition_append hb]
  dsimp only
  split_ifs
  · rfl
  · rw [List.append_assoc, List.singleton_append]

theorem snapshotName_inj {r r' : Resource} (htype : r.type = r'.type)
    (h : snapshotName r.id = snapshotName r'.id) : r = r' := by
  suffices hid : r.id = r'.id by
    cases r
    cases r'
    cases htype
    cases hid
    rfl
  have hcount := r.segments
  have hcount' := r'.segments
  rw [← htype] at hcount'
  apply String.toList_injective
  by_cases hslash : '/' ∈ r.id.toList
  · obtain ⟨a, b, hsplit, hb⟩ := exists_splitLast hslash
    have hslash' : '/' ∈ r'.id.toList := by
      have hpos := List.count_pos_iff.mpr hslash
      exact List.count_pos_iff.mp (by omega)
    obtain ⟨a', b', hsplit', hb'⟩ := exists_splitLast hslash'
    rw [snapshotName_of_split hsplit hb, snapshotName_of_split hsplit' hb'] at h
    split_ifs at h with hnil hnil' hnil'
    · rw [hsplit, hsplit', hnil, hnil', h]
    · exact absurd (h ▸ hslash') hb
    · exact absurd (h ▸ hslash) hb'
    · exact h
  · have hnot : '/' ∉ r'.id.toList := by
      intro hin
      have hpos := List.count_pos_iff.mpr hin
      have hzero := List.count_eq_zero.mpr hslash
      omega
    rwa [snapshotName_of_plain hslash, snapshotName_of_plain hnot] at h

def topDir (type : ResourceType) : List Char :=
  if type = .characterDerivatives then "characters".toList else (pattern type).subdir.toList

def lowerDirs (type : ResourceType) : List Char :=
  if type = .characterDerivatives then "derivatives/".toList else []

theorem subdir_eq (type : ResourceType) :
    (pattern type).subdir.toList ++ ['/'] = topDir type ++ '/' :: lowerDirs type := by
  cases type <;> rfl

theorem topDir_plain (type : ResourceType) : '/' ∉ topDir type := by
  cases type <;> decide

theorem topDir_inj {type type' : ResourceType} (h : topDir type = topDir type') :
    type = type' ∨ (type = .characters ∧ type' = .characterDerivatives) ∨
      (type = .characterDerivatives ∧ type' = .characters) := by
  revert h
  cases type <;> cases type' <;> decide

def snapshotSuffix (version : ℕ) (timestamp : Timestamp) (extension : String) : List Char :=
  '_' :: 'v' :: Nat.toDigits 10 version ++ '_' :: timestamp.text.toList ++ extension.toList

theorem path_toList (r : Resource) (version : ℕ) (timestamp : Timestamp) :
    (versionSnapshotRelativePath r version timestamp).toList =
      "versions/".toList ++ (topDir r.type ++ '/' :: (lowerDirs r.type ++ (snapshotName r.id ++
        snapshotSuffix version timestamp (pattern r.type).extension))) := by
  have hdirs : (pattern r.type).subdir.toList ++ "/".toList = topDir r.type ++ '/' ::
      lowerDirs r.type := subdir_eq r.type
  have hnumber : (toString version).toList = Nat.toDigits 10 version := Nat.toList_repr
  unfold versionSnapshotRelativePath versionSnapshotDir
  rw [String.toList_append, String.toList_append, String.toList_append, String.toList_append,
    String.toList_append, String.toList_append, String.toList_append, String.toList_append,
    @String.toList_ofList (parentPrefix r.id ++ stem r.id), hnumber,
    List.append_assoc "versions/".toList, hdirs]
  simp [snapshotName, snapshotSuffix]

theorem snapshotName_plain {r : Resource} (h : r.type = .characters) : '/' ∉ snapshotName r.id := by
  have hcount := r.segments
  rw [h] at hcount
  have hplain : '/' ∉ r.id.toList := List.count_eq_zero.mp (Nat.succ.inj hcount)
  rwa [snapshotName_of_plain hplain]

theorem plain_not_mem {timestamp : Timestamp} {c : Char} (h : c.isAlphanum = false) :
    c ∉ timestamp.text.toList := by
  intro hin
  rw [timestamp.plain c hin] at h
  cases h

theorem digits_not_mem {version : ℕ} {c : Char} (h : c.isDigit = false) :
    c ∉ Nat.toDigits 10 version := by
  intro hin
  rw [Nat.isDigit_of_mem_toDigits (by decide) (by decide) hin] at h
  cases h

theorem suffix_plain (version : ℕ) (timestamp : Timestamp) (type : ResourceType) :
    '/' ∉ snapshotSuffix version timestamp (pattern type).extension := by
  have hextension : '/' ∉ (pattern type).extension.toList := by cases type <;> decide
  unfold snapshotSuffix
  simp only [List.cons_append, List.mem_cons, List.mem_append]
  rintro (hin | hin | (hin | (hin | hin)) | hin)
  · exact absurd hin (by decide)
  · exact absurd hin (by decide)
  · exact digits_not_mem (by decide) hin
  · exact absurd hin (by decide)
  · exact plain_not_mem (by decide) hin
  · exact hextension hin

theorem characters_ne {r r' : Resource} {version version' : ℕ} {timestamp timestamp' : Timestamp}
    (hr : r.type = .characters) (hr' : r'.type = .characterDerivatives) :
    lowerDirs r.type ++ (snapshotName r.id ++
        snapshotSuffix version timestamp (pattern r.type).extension) ≠
      lowerDirs r'.type ++ (snapshotName r'.id ++
        snapshotSuffix version' timestamp' (pattern r'.type).extension) := by
  intro h
  have hdirs : lowerDirs r.type = [] := by
    rw [hr]
    rfl
  rw [hdirs, List.nil_append] at h
  have hslash : '/' ∈ lowerDirs r'.type := by
    rw [hr']
    decide
  rcases List.mem_append.mp (h ▸ List.mem_append_left _ hslash) with hin | hin
  · exact snapshotName_plain hr hin
  · exact suffix_plain version timestamp r.type hin

theorem versionSnapshotRelativePath_inj {r r' : Resource} {version version' : ℕ}
    {timestamp timestamp' : Timestamp}
    (h : versionSnapshotRelativePath r version timestamp =
      versionSnapshotRelativePath r' version' timestamp') : r = r' ∧ version = version' := by
  have hpath := congrArg String.toList h
  rw [path_toList, path_toList] at hpath
  obtain ⟨htop, hrest⟩ := splitFirst_inj (topDir_plain r.type) (topDir_plain r'.type)
    (List.append_cancel_left hpath)
  have htype : r.type = r'.type := by
    rcases topDir_inj htop with heq | ⟨hr, hr'⟩ | ⟨hr, hr'⟩
    · exact heq
    · exact absurd hrest (characters_ne hr hr')
    · exact absurd hrest.symm (characters_ne hr' hr)
  rw [htype] at hrest
  have hname := List.append_cancel_left hrest
  unfold snapshotSuffix at hname
  rw [← List.append_assoc, ← List.append_assoc, ← List.append_assoc, ← List.append_assoc] at hname
  obtain ⟨hfront, -⟩ := splitLast_inj (plain_not_mem (by decide)) (plain_not_mem (by decide))
    (List.append_cancel_right hname)
  have hv : ∀ version, '_' ∉ 'v' :: Nat.toDigits 10 version := by
    rintro version (_ | ⟨_, hin⟩)
    exact digits_not_mem (by decide) hin
  obtain ⟨hstem, hdigits⟩ := splitLast_inj (hv version) (hv version') hfront
  refine ⟨snapshotName_inj htype hstem, ?_⟩
  have hnumber := congrArg (Nat.ofDigitChars 10 · 0) (List.cons.inj hdigits).2
  rwa [Nat.ofDigitChars_ten_toDigits, Nat.ofDigitChars_ten_toDigits] at hnumber

end ShortReel.ResourcePaths
