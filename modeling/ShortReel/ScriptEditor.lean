import ShortReel.LedgerFile
import ShortReel.TransitionSystem

/-!
# Editing a script

`script_skeleton.py` and `script_editor.py`: which list of a script holds its items, an item found by
its id, and a field of it that is set by its path. A path is given by its parts.
-/

namespace ShortReel.ScriptEditor

open LedgerFile

inductive Kind where
  | segments
  | scenes
  | shots
  | videoUnits
  deriving DecidableEq, Repr

namespace Kind

def key : Kind → String
  | .segments => "segments"
  | .scenes => "scenes"
  | .shots => "shots"
  | .videoUnits => "video_units"

def idField : Kind → String
  | .segments => "segment_id"
  | .scenes => "scene_id"
  | .shots => "shot_id"
  | .videoUnits => "unit_id"

end Kind

inductive ScriptEditError where
  | itemsNotList (kind : Kind)
  | itemNotFound (id : String)
  | invalidPath
  | generatedAssets
  | replanMarker
  | pendingAuthoring
  | endFrame
  | promptCleared (field : String)
  | itemId (field : String)
  | parentNotObject
  | parentMissing (part : String)
  | itemWithoutId
  | duplicateId (id : String)
  | ownAnchor
  deriving DecidableEq, Repr

def hasField (fields : Fields) (key : String) : Bool :=
  (fields.lookup key).isSome

def isText (value : Json) (text : String) : Bool :=
  match value with
  | .string other => other = text
  | _ => false

/-- `resolve_script_kind`: what the script looks like. -/
def resolveScriptKind (script : Fields) : Kind :=
  let mode := getField script "content_mode"
  if hasField script "video_units" &&
      !(hasField script "segments" || hasField script "scenes" || hasField script "shots") then
    .videoUnits
  else if isText mode "ad" then .shots
  else if isText mode "drama" then .scenes
  else if isText mode "narration" then
    if !hasField script "segments" && hasField script "scenes" then .scenes else .segments
  else if hasField script "scenes" && !hasField script "segments" then .scenes
  else if hasField script "shots" && !hasField script "segments" then .shots
  else .segments

structure Items where
  kind : Kind
  items : List Json
  attached : Bool

def resolveItems (script : Fields) : Except ScriptEditError Items :=
  let kind := resolveScriptKind script
  match script.lookup kind.key with
  | none => .ok { kind, items := [], attached := false }
  | some (.list items) => .ok { kind, items, attached := true }
  | some _ => .error (.itemsNotList kind)

def putItems (script : Fields) (view : Items) (items : List Json) : Fields :=
  if view.attached then setField script view.kind.key (.list items) else script

/-- The loop of `_set_nested` over the parts of a path. -/
def setAt : Fields → List String → Json → Except ScriptEditError Fields
  | _, [], _ => .error .invalidPath
  | fields, [part], value => .ok (setField fields part value)
  | fields, part :: parts, value =>
      match fields.lookup part with
      | none => .error (.parentMissing part)
      | some (.object inner) =>
          match setAt inner parts value with
          | .ok inner => .ok (setField fields part (.object inner))
          | .error error => .error error
      | some _ => .error .parentNotObject

def idFields : List String :=
  ["segment_id", "scene_id", "unit_id", "shot_id"]

def setNested (fields : Fields) (path : List String) (value : Json) :
    Except ScriptEditError Fields :=
  if path = [] ∨ "" ∈ path then .error .invalidPath
  else if path.head? = some "generated_assets" then .error .generatedAssets
  else if path.head? = some "needs_replan" then .error .replanMarker
  else if path.head? = some "pending_authoring" then .error .pendingAuthoring
  else if path.head? = some "end_frame_image" then .error .endFrame
  else if isNull value ∧ (path = ["image_prompt"] ∨ path = ["video_prompt"]) then
    .error (.promptCleared (path.headD ""))
  else if path.headD "" ∈ idFields then .error (.itemId (path.headD ""))
  else setAt fields path value

section Lookup

variable (str : Json → String)

def itemId (kind : Kind) : Json → Option String
  | .object fields => some (str (getField fields kind.idField))
  | _ => none

def findIndex (kind : Kind) (items : List Json) (id : String) : Except ScriptEditError ℕ :=
  match items.findIdx? fun item => itemId str kind item = some id with
  | some index => .ok index
  | none => .error (.itemNotFound id)

def objectAt (items : List Json) (index : ℕ) : Fields :=
  match items[index]? with
  | some (.object fields) => fields
  | _ => []

def patchField (script : Fields) (id : String) (path : List String) (value : Json) :
    Except ScriptEditError Fields := do
  let view ← resolveItems script
  let index ← findIndex str view.kind view.items id
  let fields ← setNested (objectAt view.items index) path value
  return putItems script view (view.items.set index (.object fields))

end Lookup

section Fields

variable {fields : Fields} {key other : String} {value : Json}

theorem lookup_cons_of_ne {later : Fields} {found : Option Json} (hfield : field.1 ≠ key)
    (h : later.lookup other = if other = key then found else fields.lookup other) :
    (field :: later).lookup other = if other = key then found else (field :: fields).lookup other := by
  rw [List.lookup_cons, List.lookup_cons, h]
  by_cases hsame : other = key
  · have hne : (other == field.1) = false :=
      beq_eq_false_iff_ne.mpr fun h => hfield (h.symm.trans hsame)
    rw [if_pos hsame, if_pos hsame, hne]
  · rw [if_neg hsame, if_neg hsame]

theorem lookup_setField : (setField fields key value).lookup other =
    if other = key then some value else fields.lookup other := by
  induction fields with
  | nil =>
      rw [setField, List.lookup_cons, List.lookup_nil]
      by_cases hsame : other = key
      · rw [if_pos hsame, beq_iff_eq.mpr hsame]
      · rw [if_neg hsame, beq_eq_false_iff_ne.mpr hsame]
  | cons field fields ih =>
      rw [setField]
      by_cases hfield : field.1 = key
      · rw [if_pos hfield, List.lookup_cons, List.lookup_cons]
        by_cases hsame : other = key
        · rw [if_pos hsame, beq_iff_eq.mpr hsame]
        · rw [if_neg hsame, beq_eq_false_iff_ne.mpr hsame, hfield, beq_eq_false_iff_ne.mpr hsame]
      · rw [if_neg hfield]
        exact lookup_cons_of_ne hfield ih

theorem lookup_popField : (popField fields key).lookup other =
    if other = key then none else fields.lookup other := by
  unfold popField
  induction fields with
  | nil =>
      rw [List.filter_nil, List.lookup_nil]
      split_ifs <;> rfl
  | cons field fields ih =>
      by_cases hfield : field.1 = key
      · rw [List.filter_cons_of_neg (by simp [hfield]), ih, List.lookup_cons]
        by_cases hsame : other = key
        · rw [if_pos hsame, if_pos hsame]
        · rw [if_neg hsame, if_neg hsame, hfield, beq_eq_false_iff_ne.mpr hsame]
      · rw [List.filter_cons_of_pos (by simp [hfield])]
        exact lookup_cons_of_ne hfield ih

theorem getField_setField : getField (setField fields key value) other =
    if other = key then value else getField fields other := by
  unfold getField
  rw [lookup_setField]
  split_ifs <;> rfl

theorem getField_popField : getField (popField fields key) other =
    if other = key then .null else getField fields other := by
  unfold getField
  rw [lookup_popField]
  split_ifs <;> rfl

theorem hasField_setField (hkey : hasField fields key = true) :
    hasField (setField fields key value) other = hasField fields other := by
  unfold hasField at hkey ⊢
  rw [lookup_setField]
  split_ifs with hsame
  · rw [hsame, hkey]
    rfl
  · rfl

theorem getField_setAt {fields' : Fields} {path : List String}
    (h : setAt fields path value = .ok fields') (hother : path.head? ≠ some other) :
    getField fields' other = getField fields other := by
  have hset : ∀ part inner, path.head? = some part → fields' = setField fields part inner →
      getField fields' other = getField fields other := by
    rintro part inner hpart rfl
    rw [getField_setField, if_neg fun hsame => hother (hpart.trans (congrArg some hsame.symm))]
  match path with
  | [] => cases h
  | [part] => exact hset part value rfl (Except.ok.inj h).symm
  | part :: next :: parts =>
      rw [setAt] at h
      split at h
      · cases h
      · rename_i inner _
        split at h
        · rename_i inner' _
          exact hset part (.object inner') rfl (Except.ok.inj h).symm
        · cases h
      · cases h
      · simp

theorem getField_setNested {fields' : Fields} {path : List String}
    (h : setNested fields path value = .ok fields')
    (hother : other ∈ "generated_assets" :: "end_frame_image" :: idFields) :
    getField fields' other = getField fields other := by
  unfold setNested at h
  split_ifs at h with hpath hassets hreplan hpending hend hprompt hid
  refine getField_setAt h fun hhead => ?_
  rcases List.mem_cons.mp hother with rfl | hother
  · exact hassets hhead
  rcases List.mem_cons.mp hother with rfl | hother
  · exact hend hhead
  · rw [List.headD_eq_head?_getD, hhead] at hid
    exact hid hother

end Fields

section Items

variable {script : Fields} {view : Items} {items : List Json}

theorem resolveItems_kind (h : resolveItems script = .ok view) :
    view.kind = resolveScriptKind script := by
  unfold resolveItems at h
  dsimp only at h
  split at h
  · rw [← Except.ok.inj h]
  · rw [← Except.ok.inj h]
  · cases h

theorem resolveScriptKind_setField {kind : Kind} (hkey : hasField script kind.key = true) :
    resolveScriptKind (setField script kind.key (.list items)) = resolveScriptKind script := by
  have hmode : getField (setField script kind.key (.list items)) "content_mode" =
      getField script "content_mode" := by
    rw [getField_setField, if_neg]
    cases kind <;> decide
  unfold resolveScriptKind
  rw [hmode]
  simp only [hasField_setField hkey]

theorem resolveItems_putItems (h : resolveItems script = .ok view) (hattached : view.attached = true) :
    resolveItems (putItems script view items) = .ok { view with items } := by
  have hkind := resolveItems_kind h
  have hkey : hasField script view.kind.key = true := by
    rw [hkind]
    unfold resolveItems at h
    dsimp only at h
    split at h
    · rw [← Except.ok.inj h] at hattached
      cases hattached
    · rename_i hlookup
      unfold hasField
      rw [hlookup]
      rfl
    · cases h
  unfold putItems resolveItems
  rw [if_pos hattached, resolveScriptKind_setField hkey, ← hkind]
  dsimp only
  rw [lookup_setField, if_pos rfl, hattached]

theorem resolveItems_setField {key : String} {value : Json}
    (hkey : key ∉ ["video_units", "segments", "scenes", "shots", "content_mode"]) :
    resolveItems (setField script key value) = resolveItems script := by
  simp only [List.mem_cons, List.not_mem_nil, or_false, not_or] at hkey
  obtain ⟨hunits, hsegments, hscenes, hshots, hmode⟩ := hkey
  have hkind : resolveScriptKind (setField script key value) = resolveScriptKind script := by
    unfold resolveScriptKind hasField
    rw [getField_setField, if_neg (Ne.symm hmode), lookup_setField, if_neg (Ne.symm hunits),
      lookup_setField, if_neg (Ne.symm hsegments), lookup_setField, if_neg (Ne.symm hscenes),
      lookup_setField, if_neg (Ne.symm hshots)]
  have hlookup : (setField script key value).lookup (resolveScriptKind script).key =
      script.lookup (resolveScriptKind script).key := by
    rw [lookup_setField, if_neg]
    cases resolveScriptKind script with
    | segments => exact Ne.symm hsegments
    | scenes => exact Ne.symm hscenes
    | shots => exact Ne.symm hshots
    | videoUnits => exact Ne.symm hunits
  unfold resolveItems
  rw [hkind]
  dsimp only
  rw [hlookup]

theorem resolveItems_detached (h : resolveItems script = .ok view) (hattached : view.attached = false) :
    view.items = [] := by
  unfold resolveItems at h
  dsimp only at h
  split at h
  · rw [← Except.ok.inj h]
  · rw [← Except.ok.inj h] at hattached
    cases hattached
  · cases h

end Items

end ShortReel.ScriptEditor
