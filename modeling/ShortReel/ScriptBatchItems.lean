import Mathlib.Data.List.InsertIdx
import ShortReel.ScriptBatchEdit

/-!
# What operations do to the items of a script

Each operation replaces, inserts, moves or removes one item, of the id that it names. The media of an
item stay with its id.
-/

namespace ShortReel.ScriptBatchEdit

open InsertionDict
open LedgerFile (Json Fields getField setField popField isNull)
open ScriptEditor

section Lists

variable {β : Type} {items : List β} {index : ℕ} {item : β}

theorem exists_append_of_getElem? (h : items[index]? = some item) :
    ∃ front back, items = front ++ item :: back ∧ front.length = index := by
  obtain ⟨hlength, rfl⟩ := List.getElem?_eq_some_iff.mp h
  refine ⟨items.take index, items.drop (index + 1), ?_, List.length_take_of_le hlength.le⟩
  rw [← List.drop_eq_getElem_cons hlength, List.take_append_drop]

theorem set_of_getElem? (h : items[index]? = some item) : items.set index item = items := by
  obtain ⟨hlength, rfl⟩ := List.getElem?_eq_some_iff.mp h
  exact List.set_getElem_self hlength

theorem insertIdx_eq_append (h : index ≤ items.length) (item : β) :
    items.insertIdx index item = items.take index ++ item :: items.drop index := by
  induction items generalizing index with
  | nil =>
      obtain rfl := Nat.le_zero.mp h
      rfl
  | cons first items ih =>
      cases index with
      | zero => rfl
      | succ index =>
          rw [List.insertIdx_succ_cons, ih (Nat.le_of_succ_le_succ h)]
          rfl

end Lists

section Effects

variable (str : Json → String) (kind : Kind)

structure SameIdentity (old new : Fields) : Prop where
  id : getField new kind.idField = getField old kind.idField
  assets : getField new "generated_assets" = getField old "generated_assets"
  endFrame : getField new "end_frame_image" = getField old "end_frame_image"

variable {kind} {old new next : Fields}

theorem SameIdentity.trans (h : SameIdentity kind old new) (h' : SameIdentity kind new next) :
    SameIdentity kind old next :=
  ⟨h'.id.trans h.id, h'.assets.trans h.assets, h'.endFrame.trans h.endFrame⟩

theorem idField_mem : kind.idField ∈ idFields := by
  cases kind <;> decide

def Marker (field : String) : Prop :=
  field ∉ "generated_assets" :: "end_frame_image" :: idFields

theorem sameIdentity_of_marker {field : String} (hmarker : Marker field)
    (h : ∀ other, other ≠ field → getField new other = getField old other) :
    SameIdentity kind old new := by
  unfold Marker at hmarker
  simp only [List.mem_cons, not_or] at hmarker
  refine ⟨h _ fun hsame => ?_, h _ (Ne.symm hmarker.1), h _ (Ne.symm hmarker.2.1)⟩
  have hid : kind.idField ∈ idFields := idField_mem
  rw [hsame] at hid
  exact absurd hid (by simpa [idFields] using hmarker.2.2)

theorem sameIdentity_setField {field : String} (hmarker : Marker field) (value : Json) :
    SameIdentity kind old (setField old field value) :=
  sameIdentity_of_marker hmarker fun _ hne => by rw [getField_setField, if_neg hne]

theorem sameIdentity_popField {field : String} (hmarker : Marker field) :
    SameIdentity kind old (popField old field) :=
  sameIdentity_of_marker hmarker fun _ hne => by rw [getField_popField, if_neg hne]

theorem sameIdentity_refl : SameIdentity kind old old :=
  ⟨rfl, rfl, rfl⟩

theorem sameIdentity_setNested {path : List String} {value : Json}
    (h : setNested old path value = .ok new) : SameIdentity kind old new :=
  ⟨getField_setNested h (List.mem_cons_of_mem _ (List.mem_cons_of_mem _ idField_mem)),
    getField_setNested h List.mem_cons_self,
    getField_setNested h (List.mem_cons_of_mem _ List.mem_cons_self)⟩

section Markers

variable {α : Type} [DecidableEq α] {python : PythonText} {speech : Speech α}

theorem marker_needsReplan : Marker "needs_replan" := by
  unfold Marker
  decide

theorem marker_pendingAuthoring : Marker "pending_authoring" := by
  unfold Marker
  decide

omit [DecidableEq α] in
theorem sameIdentity_refreshReplan :
    SameIdentity kind old (refreshVideoUnitReplanState speech old) := by
  unfold refreshVideoUnitReplanState
  split_ifs
  · exact sameIdentity_setField marker_needsReplan _
  · exact sameIdentity_setField marker_needsReplan _
  · exact sameIdentity_popField marker_needsReplan

theorem sameIdentity_clearPending {roots : List String} :
    SameIdentity kind old (clearPending python kind roots old) := by
  unfold clearPending
  split_ifs
  · exact sameIdentity_popField marker_pendingAuthoring
  · exact sameIdentity_refl

theorem sameIdentity_refreshMarkers {roots : List String} :
    SameIdentity kind new (refreshMarkers python speech kind roots old new) := by
  have hpending : SameIdentity kind new (clearPending python kind roots new) :=
    sameIdentity_clearPending
  unfold refreshMarkers
  dsimp only
  refine hpending.trans ?_
  split_ifs
  · exact sameIdentity_refreshReplan
  · exact sameIdentity_refl
  · exact sameIdentity_popField marker_needsReplan
  · exact sameIdentity_refl

theorem sameIdentity_markPending : SameIdentity kind old (markPending python kind old) := by
  unfold markPending
  dsimp only
  split_ifs
  · exact sameIdentity_popField marker_pendingAuthoring
  · exact (sameIdentity_popField marker_pendingAuthoring).trans
      (sameIdentity_setField marker_pendingAuthoring _)

structure MediaFrom (origin : Option Fields) (item : Fields) : Prop where
  assets : getField item "generated_assets" = .object [] ∨ ∃ source, origin = some source ∧
    getField item "generated_assets" = getField source "generated_assets"
  endFrame : getField item "end_frame_image" = .null ∨ ∃ source, origin = some source ∧
    getField item "end_frame_image" = getField source "end_frame_image"

theorem mediaFrom_withMedia {item : Fields} {origin : Option Fields} :
    getField (withMedia item origin) kind.idField = getField item kind.idField ∧
      MediaFrom origin (withMedia item origin) := by
  have hassets : kind.idField ≠ "generated_assets" := by cases kind <;> decide
  have hend : kind.idField ≠ "end_frame_image" := by cases kind <;> decide
  have hapart : "generated_assets" ≠ "end_frame_image" := by decide
  cases origin with
  | none =>
      unfold withMedia
      refine ⟨?_, Or.inl ?_, Or.inl ?_⟩
      · rw [getField_popField, if_neg hend, getField_setField, if_neg hassets]
      · rw [getField_popField, if_neg hapart, getField_setField, if_pos rfl]
      · rw [getField_popField, if_pos rfl]
  | some source =>
      have hobject : ∀ value, objectOrEmpty value = .object [] ∨ objectOrEmpty value = value := by
        intro value
        cases value with
        | object fields => exact Or.inr rfl
        | _ => exact Or.inl rfl
      unfold withMedia
      dsimp only
      by_cases hnull : isNull (getField source "end_frame_image") = true
      · rw [if_pos hnull]
        refine ⟨?_, ?_, Or.inl ?_⟩
        · rw [getField_popField, if_neg hend, getField_setField, if_neg hassets]
        · rw [getField_popField, if_neg hapart, getField_setField, if_pos rfl]
          exact (hobject _).imp_right fun hsame => ⟨source, rfl, hsame⟩
        · rw [getField_popField, if_pos rfl]
      · rw [if_neg hnull]
        refine ⟨?_, ?_, Or.inr ⟨source, rfl, ?_⟩⟩
        · rw [getField_setField, if_neg hend, getField_setField, if_neg hassets]
        · rw [getField_setField, if_neg hapart, getField_setField, if_pos rfl]
          exact (hobject _).imp_right fun hsame => ⟨source, rfl, hsame⟩
        · rw [getField_setField, if_pos rfl]

omit [DecidableEq α] in
theorem mediaFrom_insertedItem {item : Fields} {origin : Option Fields} :
    getField (insertedItem python speech kind item origin) kind.idField =
        getField item kind.idField ∧
      MediaFrom origin (insertedItem python speech kind item origin) := by
  have hmarked : SameIdentity kind item (markPending python kind item) := sameIdentity_markPending
  obtain ⟨hid, hassets, hend⟩ := @mediaFrom_withMedia kind (markPending python kind item) origin
  have hlast : SameIdentity kind (withMedia (markPending python kind item) origin)
      (insertedItem python speech kind item origin) := by
    unfold insertedItem
    dsimp only
    split_ifs
    · exact sameIdentity_refreshReplan
    · exact sameIdentity_refl
  refine ⟨hlast.id.trans (hid.trans hmarked.id), ?_, ?_⟩
  · rw [hlast.assets]
    exact hassets
  · rw [hlast.endFrame]
    exact hend

end Markers

end Effects

section Operations

variable {α : Type} [DecidableEq α] {python : PythonText} {speech : Speech α} {kind : Kind}
  {items items' : List Json} {removed removed' : Removed}

def operationName (kind : Kind) : Operation → Option String
  | .update id _ => some id
  | .insertAfter _ item =>
      match getField item kind.idField with
      | .string id => some id
      | _ => none
  | .moveAfter id _ => some id
  | .remove id => some id

structure ItemAt (python : PythonText) (kind : Kind) (items : List Json) (index : ℕ) (id : String)
    (fields : Fields) : Prop where
  there : items[index]? = some (.object fields)
  named : python.str (getField fields kind.idField) = id

inductive Effect (python : PythonText) (kind : Kind) (items : List Json) (removed : Removed) :
    Operation → List Json → Removed → Prop
  | update (id : String) (patches : List (List String × Json)) (index : ℕ) (old new : Fields) :
      ItemAt python kind items index id old → SameIdentity kind old new →
      Effect python kind items removed (.update id patches) (items.set index (.object new)) removed
  | insert (afterId : Option String) (item : Fields) (id : String) (index : ℕ) (new : Fields)
      (origin : Option Fields) :
      getField item kind.idField = .string id → some id ∉ items.map (itemId python.str kind) →
      index ≤ items.length → (∀ source, origin = some source → get removed id = some source) →
      getField new kind.idField = .string id → MediaFrom origin new →
      Effect python kind items removed (.insertAfter afterId item)
        (items.insertIdx index (.object new)) (InsertionDict.remove removed id)
  | move (id : String) (afterId : Option String) (source index : ℕ) (fields : Fields) :
      ItemAt python kind items source id fields → index ≤ (items.eraseIdx source).length →
      Effect python kind items removed (.moveAfter id afterId)
        ((items.eraseIdx source).insertIdx index (.object fields)) removed
  | remove (id : String) (index : ℕ) (fields : Fields) : ItemAt python kind items index id fields →
      Effect python kind items removed (.remove id) (items.eraseIdx index) (put removed id fields)

theorem findIndex_itemAt {id : String} {index : ℕ}
    (h : findIndex python.str kind items id = .ok index) :
    ItemAt python kind items index id (objectAt items index) := by
  unfold findIndex at h
  split at h
  · rename_i found hfound
    obtain rfl := Except.ok.inj h
    obtain ⟨hlength, hnamed, -⟩ := List.findIdx?_eq_some_iff_getElem.mp hfound
    have hat : items[found]? = some items[found] := List.getElem?_eq_getElem hlength
    have hnamed : itemId python.str kind items[found] = some id := of_decide_eq_true hnamed
    unfold itemId at hnamed
    split at hnamed
    · rename_i fields hobject
      have hfields : objectAt items found = fields := by
        unfold objectAt
        rw [hat, hobject]
      rw [hfields]
      exact ⟨hat.trans (congrArg some hobject), Option.some.inj hnamed⟩
    · cases hnamed
  · cases h

theorem findIndex_le {id : String} {index : ℕ}
    (h : findIndex python.str kind items id = .ok index) : index < items.length :=
  (List.getElem?_eq_some_iff.mp (findIndex_itemAt h).there).1

theorem insertIndex_le {afterId : Option String} {index : ℕ}
    (h : insertIndex python kind items afterId = .ok index) : index ≤ items.length := by
  cases afterId with
  | none =>
      obtain rfl := Except.ok.inj h
      exact Nat.zero_le _
  | some id =>
      unfold insertIndex at h
      dsimp only at h
      cases hfind : findIndex python.str kind items id with
      | error error =>
          rw [hfind] at h
          cases h
      | ok found =>
          rw [hfind] at h
          obtain rfl := Except.ok.inj h
          exact findIndex_le hfind

theorem findIndex_congr {id : String}
    (h : items'.map (itemId python.str kind) = items.map (itemId python.str kind)) :
    findIndex python.str kind items' id = findIndex python.str kind items id := by
  have hcomp : ∀ list : List Json, list.findIdx? (fun item => itemId python.str kind item = some id) =
      (list.map (itemId python.str kind)).findIdx? (· = some id) := by
    intro list
    rw [List.findIdx?_map]
    rfl
  unfold findIndex
  rw [hcomp, hcomp, h]

theorem map_itemId_set {index : ℕ} {old new : Fields} {id : String}
    (hat : ItemAt python kind items index id old) (hsame : SameIdentity kind old new) :
    (items.set index (.object new)).map (itemId python.str kind) =
      items.map (itemId python.str kind) := by
  rw [List.map_set]
  refine set_of_getElem? ?_
  rw [List.getElem?_map, hat.there, Option.map_some]
  exact congrArg (fun value => some (some (python.str value))) hsame.id.symm

variable {script script' : Fields} {view : Items}

theorem attached_of_itemAt {index : ℕ} {id : String} {fields : Fields}
    (hview : resolveItems script = .ok view) (hat : ItemAt python kind view.items index id fields) :
    view.attached = true := by
  by_contra hdetached
  rw [Bool.not_eq_true] at hdetached
  have hthere := hat.there
  rw [resolveItems_detached hview hdetached] at hthere
  cases hthere

theorem patches_ok {id : String} {patches : List (List String × Json)} {index : ℕ} {old : Fields}
    (hview : resolveItems script = .ok view)
    (hfind : findIndex python.str view.kind view.items id = .ok index)
    (hat : view.items[index]? = some (.object old))
    (h : patches.foldlM (fun script field => patchField python.str script id field.1 field.2) script =
      .ok script') :
    ∃ new, SameIdentity view.kind old new ∧
      resolveItems script' = .ok { view with items := view.items.set index (.object new) } := by
  induction patches generalizing script view old with
  | nil =>
      obtain rfl := Except.ok.inj h
      refine ⟨old, sameIdentity_refl, ?_⟩
      rw [set_of_getElem? hat, hview]
  | cons patch patches ih =>
      rw [List.foldlM_cons] at h
      obtain ⟨patched, hpatched, hrest⟩ := bind_eq_ok.mp h
      unfold patchField at hpatched
      obtain ⟨view', hview', hpatched⟩ := bind_eq_ok.mp hpatched
      obtain rfl := Except.ok.inj (hview.symm.trans hview')
      obtain ⟨index', hindex', hpatched⟩ := bind_eq_ok.mp hpatched
      obtain rfl := Except.ok.inj (hfind.symm.trans hindex')
      obtain ⟨new, hset, hpatched⟩ := bind_eq_ok.mp hpatched
      obtain rfl := Except.ok.inj hpatched
      have hthere := findIndex_itemAt hfind
      have hold : objectAt view.items index = old := by
        unfold objectAt
        rw [hat]
      rw [hold] at hthere hset
      have hsame : SameIdentity view.kind old new := sameIdentity_setNested hset
      have hput : resolveItems (putItems script view (view.items.set index (.object new))) =
          .ok { view with items := view.items.set index (.object new) } :=
        resolveItems_putItems hview (attached_of_itemAt hview hthere)
      have hlength := (List.getElem?_eq_some_iff.mp hat).1
      obtain ⟨last, hlast, hresolved⟩ := ih hput
        ((findIndex_congr (map_itemId_set hthere hsame)).trans hfind)
        (List.getElem?_set_self hlength) hrest
      refine ⟨last, hsame.trans hlast, ?_⟩
      rw [hresolved, List.set_set]

structure Replaced (script script' : Fields) (view : Items) (items : List Json) : Prop where
  attached : view.attached = true → resolveItems script' = .ok { view with items }
  detached : view.attached = false → script' = script

omit [DecidableEq α] in
theorem replaced_putItems (hview : resolveItems script = .ok view) :
    Replaced script (putItems script view items) view items := by
  refine ⟨resolveItems_putItems hview, fun hdetached => ?_⟩
  unfold putItems
  rw [hdetached]
  exact if_neg Bool.false_ne_true

theorem insertedId_ok {item : Fields} {id : String} (h : insertedId kind item = .ok id) :
    getField item kind.idField = .string id := by
  unfold insertedId at h
  split at h
  · rename_i text htext
    split_ifs at h
    rw [htext, Except.ok.inj h]
  · cases h

theorem require_ok {condition : Bool} {error : ScriptEditError} {u : Unit}
    (h : require condition error = .ok u) : condition = true := by
  unfold require at h
  split_ifs at h with hcondition
  exact hcondition

theorem applyOperation_ok {operation : Operation} {preserve : Bool} {id : String}
    (h : applyOperation python speech script operation removed preserve = .ok (id, script', removed')) :
    ∃ view, resolveItems script = .ok view ∧ operationName view.kind operation = some id ∧
      ∃ items', Effect python view.kind view.items removed operation items' removed' ∧
        Replaced script script' view items' := by
  cases operation with
  | update name patches =>
      obtain ⟨view, hview, h⟩ := bind_eq_ok.mp h
      obtain ⟨index, hindex, h⟩ := bind_eq_ok.mp h
      obtain ⟨patchedScript, hpatched, h⟩ := bind_eq_ok.mp h
      obtain ⟨patched, hresolved, h⟩ := bind_eq_ok.mp h
      obtain ⟨rfl, hrest⟩ := Prod.mk.inj (Except.ok.inj h)
      obtain ⟨rfl, rfl⟩ := Prod.mk.inj hrest
      have hat := findIndex_itemAt hindex
      have hattached := attached_of_itemAt hview hat
      obtain ⟨new, hsame, hnew⟩ := patches_ok hview hindex hat.there hpatched
      obtain rfl := Except.ok.inj (hnew.symm.trans hresolved)
      have hlength := (List.getElem?_eq_some_iff.mp hat.there).1
      have hitem : objectAt (view.items.set index (.object new)) index = new := by
        unfold objectAt
        rw [List.getElem?_set_self hlength]
      have hmarked : SameIdentity view.kind (objectAt view.items index)
          (refreshMarkers python speech view.kind (patches.map fun patch => patch.1.headD "")
            (objectAt view.items index) new) := hsame.trans sameIdentity_refreshMarkers
      refine ⟨view, hview, rfl, _, Effect.update name patches index _ _ hat hmarked, fun _ => ?_,
        fun hdetached => ?_⟩
      · dsimp only
        rw [hitem, List.set_set]
        exact resolveItems_putItems hresolved hattached
      · rw [hdetached] at hattached
        cases hattached
  | insertAfter afterId item =>
      obtain ⟨view, hview, h⟩ := bind_eq_ok.mp h
      obtain ⟨name, hname, h⟩ := bind_eq_ok.mp h
      obtain ⟨_, hfresh, h⟩ := bind_eq_ok.mp h
      obtain ⟨index, hindex, h⟩ := bind_eq_ok.mp h
      obtain ⟨rfl, hrest⟩ := Prod.mk.inj (Except.ok.inj h)
      obtain ⟨rfl, rfl⟩ := Prod.mk.inj hrest
      have hid := insertedId_ok hname
      obtain ⟨hkept, hmedia⟩ := @mediaFrom_insertedItem view.kind α python speech item
        (if preserve then get removed name else none)
      refine ⟨view, hview, ?_, _, Effect.insert afterId item name index _ _ hid ?_
        (insertIndex_le hindex) ?_ (hkept.trans hid) hmedia, replaced_putItems hview⟩
      · unfold operationName
        dsimp only
        rw [hid]
      · intro hmem
        obtain ⟨existing, hexisting, hsame⟩ := List.mem_map.mp hmem
        exact of_decide_eq_true (List.all_eq_true.mp (require_ok hfresh) existing hexisting) hsame
      · intro source hsource
        split_ifs at hsource
        exact hsource
  | moveAfter name afterId =>
      obtain ⟨_, -, h⟩ := bind_eq_ok.mp h
      obtain ⟨view, hview, h⟩ := bind_eq_ok.mp h
      obtain ⟨source, hsource, h⟩ := bind_eq_ok.mp h
      obtain ⟨index, hindex, h⟩ := bind_eq_ok.mp h
      obtain ⟨rfl, hrest⟩ := Prod.mk.inj (Except.ok.inj h)
      obtain ⟨rfl, rfl⟩ := Prod.mk.inj hrest
      exact ⟨view, hview, rfl, _, Effect.move name afterId source index _ (findIndex_itemAt hsource)
        (insertIndex_le hindex), replaced_putItems hview⟩
  | remove name =>
      obtain ⟨view, hview, h⟩ := bind_eq_ok.mp h
      obtain ⟨index, hindex, h⟩ := bind_eq_ok.mp h
      obtain ⟨rfl, hrest⟩ := Prod.mk.inj (Except.ok.inj h)
      obtain ⟨rfl, rfl⟩ := Prod.mk.inj hrest
      exact ⟨view, hview, rfl, _, Effect.remove name index _ (findIndex_itemAt hindex),
        replaced_putItems hview⟩

end Operations

end ShortReel.ScriptBatchEdit
