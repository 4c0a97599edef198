import ShortReel.ScriptBatchItems

/-!
# Batches of operations

Each operation of a batch keeps the items that none of them names, in their order, and the media with
their ids. An edit that is rejected, at whatever write it fails, leaves everything as it was.
-/

namespace ShortReel.ScriptBatchEdit

open FallibleStates InsertionDict
open LedgerFile (Json Fields getField setField popField isNull)
open RestoringTransactions ScriptEditor

section Kept

variable (python : PythonText) (kind : Kind)

def untouched (names : List String) (item : Json) : Bool :=
  (itemId python.str kind item).all (· ∉ names)

structure Inherited (original : List Json) (id : String) (fields : Fields) : Prop where
  assets : getField fields "generated_assets" = .null ∨
    getField fields "generated_assets" = .object [] ∨
    ∃ origin, .object origin ∈ original ∧ python.str (getField origin kind.idField) = id ∧
      getField fields "generated_assets" = getField origin "generated_assets"
  endFrame : getField fields "end_frame_image" = .null ∨
    ∃ origin, .object origin ∈ original ∧ python.str (getField origin kind.idField) = id ∧
      getField fields "end_frame_image" = getField origin "end_frame_image"

structure Kept (names : List String) (original items : List Json) (removed : Removed) : Prop where
  untouched : items.filter (untouched python kind names) =
    original.filter (untouched python kind names)
  inherited : ∀ fields, .object fields ∈ items →
    Inherited python kind original (python.str (getField fields kind.idField)) fields
  removed : ∀ item ∈ removed, Inherited python kind original item.1 item.2
  nodup : (original.filterMap (itemId python.str kind)).Nodup →
    (items.filterMap (itemId python.str kind)).Nodup

variable {python kind} {names : List String} {original front back : List Json} {removed : Removed}
  {old new fields : Fields} {id : String}

theorem Kept.start (items : List Json) : Kept python kind names items items [] := by
  refine ⟨rfl, fun fields hmem => ⟨Or.inr (Or.inr ⟨fields, hmem, rfl, rfl⟩),
    Or.inr ⟨fields, hmem, rfl, rfl⟩⟩, fun _ hmem => absurd hmem List.not_mem_nil, fun h => h⟩

theorem itemId_object (hid : python.str (getField fields kind.idField) = id) :
    itemId python.str kind (.object fields) = some id :=
  congrArg some hid

theorem touched (hid : python.str (getField fields kind.idField) = id) (hname : id ∈ names) :
    untouched python kind names (.object fields) = false := by
  unfold untouched
  rw [itemId_object hid, Option.all_some, decide_eq_false (not_not.mpr hname)]

theorem Inherited.same (h : Inherited python kind original id old)
    (hsame : SameIdentity kind old new) : Inherited python kind original id new := by
  refine ⟨?_, ?_⟩
  · rw [hsame.assets]
    exact h.assets
  · rw [hsame.endFrame]
    exact h.endFrame

theorem ids_middle (hid : python.str (getField new kind.idField) = id) :
    ((front ++ .object new :: back).filterMap (itemId python.str kind)).Perm
      (id :: (front ++ back).filterMap (itemId python.str kind)) := by
  have hmiddle := (@List.perm_middle _ (Json.object new) front back).filterMap (itemId python.str kind)
  rwa [List.filterMap_cons_some (itemId_object hid)] at hmiddle

theorem Kept.delete (h : Kept python kind names original (front ++ .object fields :: back) removed)
    (hid : python.str (getField fields kind.idField) = id) (hname : id ∈ names) :
    Kept python kind names original (front ++ back) removed := by
  have hsub : (front ++ back).Sublist (front ++ .object fields :: back) :=
    (List.Sublist.refl front).append (List.sublist_cons_self _ _)
  refine ⟨?_, fun other hmem => h.inherited other (hsub.subset hmem), h.removed, fun hnodup =>
    (h.nodup hnodup).sublist (hsub.filterMap _)⟩
  rw [← h.untouched, List.filter_append, List.filter_append,
    List.filter_cons_of_neg (by rw [touched hid hname]; exact Bool.false_ne_true)]

theorem Kept.insert (h : Kept python kind names original (front ++ back) removed)
    (hid : python.str (getField new kind.idField) = id) (hname : id ∈ names)
    (hnew : Inherited python kind original id new)
    (hfresh : (original.filterMap (itemId python.str kind)).Nodup →
      id ∉ (front ++ back).filterMap (itemId python.str kind)) :
    Kept python kind names original (front ++ .object new :: back) removed := by
  refine ⟨?_, fun fields hmem => ?_, h.removed, fun hnodup => ?_⟩
  · rw [← h.untouched, List.filter_append, List.filter_append,
      List.filter_cons_of_neg (by rw [touched hid hname]; exact Bool.false_ne_true)]
  · rcases List.mem_append.mp hmem with hfront | hback
    · exact h.inherited fields (List.mem_append_left _ hfront)
    rcases List.mem_cons.mp hback with hhere | hback
    · obtain rfl := Json.object.inj hhere
      rw [hid]
      exact hnew
    · exact h.inherited fields (List.mem_append_right _ hback)
  · exact (ids_middle hid).nodup_iff.mpr (List.nodup_cons.mpr ⟨hfresh hnodup, h.nodup hnodup⟩)

theorem Kept.replace (h : Kept python kind names original (front ++ .object old :: back) removed)
    (hid : python.str (getField old kind.idField) = id) (hname : id ∈ names)
    (hsame : SameIdentity kind old new) :
    Kept python kind names original (front ++ .object new :: back) removed := by
  have hnew : python.str (getField new kind.idField) = id := by rw [hsame.id, hid]
  refine (h.delete hid hname).insert hnew hname ?_ fun hnodup => ?_
  · have hold := h.inherited old (List.mem_append_right _ List.mem_cons_self)
    rw [hid] at hold
    exact hold.same hsame
  · exact (List.nodup_cons.mp ((ids_middle hid).nodup_iff.mp (h.nodup hnodup))).1

theorem Kept.forget {removed' : Removed} (h : Kept python kind names original front removed)
    (hremoved : ∀ item ∈ removed', Inherited python kind original item.1 item.2) :
    Kept python kind names original front removed' :=
  ⟨h.untouched, h.inherited, hremoved, h.nodup⟩

theorem MediaFrom.inherited {origin : Option Fields} (h : MediaFrom origin new)
    (horigin : ∀ source, origin = some source → Inherited python kind original id source) :
    Inherited python kind original id new := by
  refine ⟨?_, ?_⟩
  · rcases h.assets with hnone | ⟨source, hsource, hsame⟩
    · exact Or.inr (Or.inl hnone)
    · rw [hsame]
      exact (horigin source hsource).assets
  · rcases h.endFrame with hnone | ⟨source, hsource, hsame⟩
    · exact Or.inl hnone
    · rw [hsame]
      exact (horigin source hsource).endFrame

theorem Effect.kept {items items' : List Json} {removed' : Removed} {operation : Operation}
    (heffect : Effect python kind items removed operation items' removed')
    (hname : operationName kind operation = some id) (hmem : id ∈ names)
    (h : Kept python kind names original items removed) :
    Kept python kind names original items' removed' := by
  cases heffect with
  | update name patches index old new hat hsame =>
      obtain rfl := Option.some.inj hname
      obtain ⟨front, back, rfl, rfl⟩ := exists_append_of_getElem? hat.there
      rw [List.set_append_right _ _ le_rfl, Nat.sub_self]
      exact h.replace hat.named hmem hsame
  | insert afterId item name index new origin hitem hfresh hindex horigin hnew hmedia =>
      have hsame : id = name := by
        unfold operationName at hname
        dsimp only at hname
        rw [hitem] at hname
        exact (Option.some.inj hname).symm
      obtain rfl := hsame
      have hid : python.str (getField new kind.idField) = id := by rw [hnew, python.str_string]
      rw [insertIdx_eq_append hindex]
      refine (Kept.insert (by rwa [List.take_append_drop]) hid hmem (hmedia.inherited
        fun source hsource => h.removed _ (mem_of_get (horigin source hsource))) fun _ hthere => ?_).forget
          fun other hother => h.removed other (mem_remove.mp hother).1
      rw [List.take_append_drop] at hthere
      obtain ⟨other, hother, hsame⟩ := List.mem_filterMap.mp hthere
      exact hfresh (List.mem_map.mpr ⟨other, hother, hsame⟩)
  | move name afterId source index fields hat hindex =>
      obtain rfl := Option.some.inj hname
      obtain ⟨front, back, rfl, rfl⟩ := exists_append_of_getElem? hat.there
      have herase : (front ++ Json.object fields :: back).eraseIdx front.length = front ++ back := by
        rw [List.eraseIdx_append_of_length_le le_rfl, Nat.sub_self]
        rfl
      have hinherited := h.inherited fields (List.mem_append_right _ List.mem_cons_self)
      rw [hat.named] at hinherited
      rw [herase] at hindex ⊢
      rw [insertIdx_eq_append hindex]
      refine Kept.insert (by
        rw [List.take_append_drop]
        exact h.delete hat.named hmem) hat.named hmem hinherited fun hnodup hthere => ?_
      rw [List.take_append_drop] at hthere
      have hperm := (@List.perm_middle _ (Json.object fields) front back).filterMap
        (itemId python.str kind)
      have hnodup := hperm.nodup_iff.mp (h.nodup hnodup)
      rw [List.filterMap_cons_some (itemId_object hat.named)] at hnodup
      exact (List.nodup_cons.mp hnodup).1 hthere
  | remove name index fields hat =>
      obtain rfl := Option.some.inj hname
      obtain ⟨front, back, rfl, rfl⟩ := exists_append_of_getElem? hat.there
      have hinherited := h.inherited fields (List.mem_append_right _ List.mem_cons_self)
      rw [hat.named] at hinherited
      rw [List.eraseIdx_append_of_length_le le_rfl, Nat.sub_self]
      refine (h.delete hat.named hmem).forget fun other hother => ?_
      rcases mem_put hother with rfl | hother
      · exact hinherited
      · exact h.removed other hother

end Kept

section Loop

variable {α : Type} [DecidableEq α] {python : PythonText} {speech : Speech α}
  {names : List String} {start : Items} {freshInsertIndexes : List ℕ}

structure Running (python : PythonText) (names : List String) (start : Items) (script : Fields)
    (items : List Json) (removed : Removed) : Prop where
  resolved : resolveItems script = .ok { start with items }
  kept : Kept python start.kind names start.items items removed

theorem runOperation_running {progress progress' : Progress} {index : ℕ} {operation : Operation}
    {items : List Json}
    (hnames : ∀ id, operationName start.kind operation = some id → id ∈ names)
    (hrunning : Running python names start progress.script items progress.removed)
    (h : runOperation python speech freshInsertIndexes progress index operation = .ok progress') :
    ∃ items', Running python names start progress'.script items' progress'.removed := by
  unfold runOperation at h
  dsimp only at h
  obtain ⟨⟨id, script', removed'⟩, happlied, h⟩ := bind_eq_ok.mp h
  obtain rfl := Except.ok.inj h
  obtain ⟨view, hview, hname, items', heffect, hreplaced⟩ := applyOperation_ok happlied
  obtain rfl := Except.ok.inj (hrunning.resolved.symm.trans hview)
  have hkept := heffect.kept hname (hnames id hname) hrunning.kept
  cases hattached : start.attached with
  | true => exact ⟨items', hreplaced.attached hattached, hkept⟩
  | false =>
      -- a list that is not attached stays empty
      have hempty : items = [] := resolveItems_detached hrunning.resolved hattached
      refine ⟨items, ?_, hrunning.kept.untouched, ?_, hkept.removed, hrunning.kept.nodup⟩
      · dsimp only
        rw [hreplaced.detached hattached]
        exact hrunning.resolved
      · intro fields hmem
        rw [hempty] at hmem
        cases hmem

theorem runOperations_running {progress progress' : Progress} {index : ℕ}
    {operations : List Operation} {items : List Json}
    (hnames : ∀ operation ∈ operations, ∀ id, operationName start.kind operation = some id →
      id ∈ names)
    (hrunning : Running python names start progress.script items progress.removed)
    (h : runOperations python speech freshInsertIndexes progress index operations = .ok progress') :
    ∃ items', Running python names start progress'.script items' progress'.removed := by
  induction operations generalizing progress index items with
  | nil =>
      obtain rfl := Except.ok.inj h
      exact ⟨items, hrunning⟩
  | cons operation operations ih =>
      rw [runOperations] at h
      split at h
      · rename_i next hnext
        obtain ⟨hfirst, hrest⟩ := List.forall_mem_cons.mp hnames
        obtain ⟨items', hrunning'⟩ := runOperation_running hfirst hrunning hnext
        exact ih hrest hrunning' h
      · cases h

end Loop

section Commit

variable {π κ ν α : Type} [DecidableEq κ] [DecidableEq α] [DecidableEq ν]
  {around : Surroundings π κ ν α} {prepared : Prepared κ ν} {faults : CommitFaults}
  {world : World π κ ν}

omit [DecidableEq ν] in
theorem get_observed (entries : List κ) (manifest : Manifest κ ν) (key : κ) :
    InsertionDict.get (entries.map fun key => (key, manifest key)) key =
      if key ∈ entries then some (manifest key) else none := by
  induction entries with
  | nil => rfl
  | cons entry entries ih =>
      unfold InsertionDict.get at ih ⊢
      rw [List.map_cons, List.find?_cons]
      by_cases hsame : entry = key
      · rw [decide_eq_true hsame, if_pos (hsame ▸ List.mem_cons_self), hsame]
        rfl
      · rw [decide_eq_false hsame]
        dsimp only
        rw [ih]
        refine if_congr ?_ rfl rfl
        rw [List.mem_cons, or_iff_right (Ne.symm hsame)]

omit [DecidableEq ν] in
theorem replaceEntries_observed (plan : ManifestPlan κ ν) (manifest : Manifest κ ν) :
    replaceEntries (observedEntries plan manifest) (replaceEntries plan.replacements manifest) =
      manifest := by
  funext key
  unfold replaceEntries observedEntries
  rw [get_observed]
  by_cases hmem : key ∈ keys plan.expected ++ keys plan.replacements
  · rw [if_pos hmem]
    rfl
  · have hnone : InsertionDict.get plan.replacements key = none :=
      get_eq_none_iff.mpr fun hkey => hmem (List.mem_append_right _ hkey)
    rw [if_neg hmem, hnone]
    rfl

omit [DecidableEq ν] in
theorem replaceEntries_observed_self (plan : ManifestPlan κ ν) (manifest : Manifest κ ν) :
    replaceEntries (observedEntries plan manifest) manifest = manifest := by
  funext key
  unfold replaceEntries observedEntries
  rw [get_observed]
  split_ifs <;> rfl

theorem commitManifest_meets {plan : ManifestPlan κ ν} {fault : Fault} {manifest : Manifest κ ν}
    {script : Fields} :
    Meets (fun s : World π κ ν => s.manifest = manifest ∧ s.script = script)
      (commitManifest plan fault) (fun _ s => s.script = script)
      fun _ s => s.manifest = manifest := by
  rintro s ⟨rfl, rfl⟩
  unfold commitManifest
  dsimp only
  split_ifs
  · cases fault with
    | none => rfl
    | before => exact replaceEntries_observed_self plan s.manifest
    | after => exact replaceEntries_observed plan s.manifest
  · rfl

def committedScript (around : Surroundings π κ ν α) (script : Fields) : Fields :=
  setField (validatedScript script) "metadata"
    (around.stampMetadata (getField (validatedScript script) "metadata"))

omit [DecidableEq α] in
theorem commit_meets : Meets (· = world) (commit around faults prepared)
    (fun _ s => s.script = committedScript around prepared.progress.script)
    fun _ s => s = world := by
  refine meets_transaction fun s hs => ?_
  obtain rfl := hs
  have hrestored : ∀ s' : World π κ ν, s'.manifest = s.manifest → restoreFormal s s' = s := by
    intro s' hmanifest
    unfold restoreFormal
    rw [hmanifest]
  dsimp only
  refine meets_ite (fun _ => meets_throw fun s' hs' => hs' ▸ hrestored s rfl) fun _ => ?_
  refine meets_bind (meets_write (Q := fun _ s' => s'.manifest = s.manifest ∧
      s'.script = committedScript around prepared.progress.script)
    (fun s' hs' => hs' ▸ ⟨rfl, rfl⟩) (fun s' hs' => hs' ▸ hrestored s rfl)
    fun s' hs' => hs' ▸ hrestored _ rfl) fun _ => ?_
  refine meets_get_bind fun middle hmiddle => ?_
  obtain ⟨hmanifest, hscript⟩ := hmiddle
  refine meets_ite (fun _ => meets_throw fun s' hs' => hs' ▸ hrestored middle hmanifest) fun _ => ?_
  refine meets_bind (meets_write (Q := fun _ s' => s'.manifest = s.manifest ∧
      s'.script = committedScript around prepared.progress.script)
    (fun s' hs' => by rw [hs']; exact ⟨hmanifest, hscript⟩)
    (fun s' hs' => hs' ▸ hrestored middle hmanifest)
    fun s' hs' => hrestored _ (by rw [hs']; exact hmanifest)) fun _ => ?_
  cases prepared.plan with
  | none => exact meets_pure fun s' hs' => hs'.2
  | some plan =>
      refine commitManifest_meets.mono (fun _ h => h) (fun _ _ h => h) fun _ s' hs' => ?_
      exact hrestored s' hs'

theorem stripLegacyFields_idem (kind : Kind) (item : Json) :
    stripLegacyFields kind (stripLegacyFields kind item) = stripLegacyFields kind item := by
  cases item with
  | object fields =>
      unfold stripLegacyFields
      dsimp only
      split_ifs
      · unfold popField
        rw [List.filter_filter]
        simp only [Bool.and_self]
      · rfl
  | _ => rfl

theorem getField_strip {kind : Kind} {fields : Fields} {key : String}
    (hkey : key ≠ "clues_in_segment") :
    getField (if kind = .segments then popField fields "clues_in_segment" else fields) key =
      getField fields key := by
  split_ifs
  · rw [getField_popField, if_neg hkey]
  · rfl

theorem itemId_strip (str : Json → String) (kind : Kind) (item : Json) :
    itemId str kind (stripLegacyFields kind item) = itemId str kind item := by
  cases item with
  | object fields =>
      have hid : kind.idField ≠ "clues_in_segment" := by cases kind <;> decide
      exact congrArg (fun value => some (str value)) (getField_strip hid)
  | _ => rfl

def itemsOf (script : Fields) : List Json :=
  match resolveItems script with
  | .ok view => view.items
  | .error _ => []

theorem itemsOf_eq {script : Fields} {view : Items} (h : resolveItems script = .ok view) :
    itemsOf script = view.items := by
  unfold itemsOf
  rw [h]

omit [DecidableEq κ] [DecidableEq α] [DecidableEq ν] in
theorem itemsOf_committed {script : Fields} {view : Items} (h : resolveItems script = .ok view) :
    itemsOf (committedScript around script) = view.items.map (stripLegacyFields view.kind) := by
  have hmetadata : resolveItems (committedScript around script) =
      resolveItems (validatedScript script) := by
    unfold committedScript
    exact resolveItems_setField (by decide)
  have hvalidated : validatedScript script =
      putItems script view (view.items.map (stripLegacyFields view.kind)) := by
    unfold validatedScript
    rw [h]
  have hreplaced : Replaced script _ view (view.items.map (stripLegacyFields view.kind)) :=
    replaced_putItems h
  unfold itemsOf
  rw [hmetadata, hvalidated]
  cases hattached : view.attached with
  | true => rw [hreplaced.attached hattached]
  | false =>
      rw [hreplaced.detached hattached, h]
      dsimp only
      rw [resolveItems_detached h hattached, List.map_nil]

def commandNames (kind : Kind) (command : Command) : List String :=
  command.operations.filterMap (operationName kind)

structure Edited (around : Surroundings π κ ν α) (command : Command) (script script' : Fields) :
    Prop where
  revision : command.expectedRevision = around.revision script
  distinct : ((itemsOf script).filterMap
        (itemId around.python.str (resolveScriptKind script))).Nodup ∨
      resolveScriptKind script = .videoUnits →
    ((itemsOf script').filterMap (itemId around.python.str (resolveScriptKind script))).Nodup
  untouched : ((itemsOf script').filter (untouched around.python (resolveScriptKind script)
        (commandNames (resolveScriptKind script) command))).map
      (stripLegacyFields (resolveScriptKind script)) =
    ((itemsOf script).filter (untouched around.python (resolveScriptKind script)
        (commandNames (resolveScriptKind script) command))).map
      (stripLegacyFields (resolveScriptKind script))
  inherited : ∀ fields, .object fields ∈ itemsOf script' →
    Inherited around.python (resolveScriptKind script) (itemsOf script)
      (around.python.str (getField fields (resolveScriptKind script).idField)) fields

theorem check_ok {condition : Bool} {failure : Problem} {u : Unit}
    (h : check condition failure = .ok u) : condition = true := by
  unfold check at h
  split_ifs at h with hcondition
  exact hcondition

theorem mapError_ok {ε ε' β : Type} {x : Except ε β} {f : ε → ε'} {b : β}
    (h : x.mapError f = .ok b) : x = .ok b := by
  cases x with
  | ok a => exact congrArg Except.ok (Except.ok.inj h)
  | error error => cases h

omit [DecidableEq κ] [DecidableEq ν] in
theorem preflight_edited {command : Command} (h : preflight around command world = .ok prepared) :
    Edited around command world.script (committedScript around prepared.progress.script) := by
  unfold preflight at h
  obtain ⟨_, -, h⟩ := bind_eq_ok.mp h
  obtain ⟨_, -, h⟩ := bind_eq_ok.mp h
  obtain ⟨_, hrevision, h⟩ := bind_eq_ok.mp h
  obtain ⟨_, -, h⟩ := bind_eq_ok.mp h
  obtain ⟨view, hview, h⟩ := bind_eq_ok.mp h
  obtain ⟨progress, hprogress, h⟩ := bind_eq_ok.mp h
  obtain ⟨_, -, h⟩ := bind_eq_ok.mp h
  obtain ⟨_, -, h⟩ := bind_eq_ok.mp h
  obtain ⟨_, -, h⟩ := bind_eq_ok.mp h
  obtain ⟨_, hpayload, h⟩ := bind_eq_ok.mp h
  obtain ⟨plan, -, h⟩ := bind_eq_ok.mp h
  obtain rfl := Except.ok.inj h
  have hview := mapError_ok hview
  have hkind : resolveScriptKind world.script = view.kind := (resolveItems_kind hview).symm
  have hnames : ∀ operation ∈ command.operations, ∀ id,
      operationName view.kind operation = some id → id ∈ commandNames view.kind command :=
    fun operation hoperation id hid => List.mem_filterMap.mpr ⟨operation, hoperation, hid⟩
  have hstart : Running around.python (commandNames view.kind command) view world.script view.items [] :=
    ⟨hview, Kept.start view.items⟩
  obtain ⟨items, hresolved, hkept⟩ := runOperations_running hnames hstart (mapError_ok hprogress)
  have hcommitted : itemsOf (committedScript around progress.script) =
      items.map (stripLegacyFields view.kind) := itemsOf_committed hresolved
  have hids : (items.map (stripLegacyFields view.kind)).filterMap
      (itemId around.python.str view.kind) = items.filterMap (itemId around.python.str view.kind) := by
    rw [List.filterMap_map]
    exact List.filterMap_congr fun item _ => itemId_strip _ _ item
  refine ⟨of_decide_eq_true (check_ok hrevision), ?_, ?_, ?_⟩
  · rw [hkind, hcommitted, itemsOf_eq hview, hids]
    rintro (hnodup | hunits)
    · exact hkept.nodup hnodup
    · have hunique := check_ok hpayload
      unfold payloadValid at hunique
      rw [hresolved] at hunique
      dsimp only at hunique
      rw [if_pos hunits, Bool.and_eq_true] at hunique
      unfold unitIdsUnique at hunique
      rw [Bool.and_eq_true, decide_eq_true_iff] at hunique
      rw [hunits]
      exact hunique.1.2
  · rw [hkind, hcommitted, itemsOf_eq hview, List.filter_map, List.map_map]
    have huntouched : untouched around.python view.kind (commandNames view.kind command) ∘
        stripLegacyFields view.kind =
        untouched around.python view.kind (commandNames view.kind command) := by
      funext item
      unfold untouched
      rw [Function.comp_apply, itemId_strip]
    have hstrip : stripLegacyFields view.kind ∘ stripLegacyFields view.kind =
        stripLegacyFields view.kind := by
      funext item
      exact stripLegacyFields_idem view.kind item
    rw [huntouched, hstrip, hkept.untouched]
  · rw [hkind, hcommitted, itemsOf_eq hview]
    intro fields hmem
    obtain ⟨item, hitem, hstripped⟩ := List.mem_map.mp hmem
    cases item with
    | object source =>
        obtain rfl := Json.object.inj hstripped
        have hid : view.kind.idField ≠ "clues_in_segment" := by cases view.kind <;> decide
        have hsource := hkept.inherited source hitem
        rw [getField_strip hid]
        refine ⟨?_, ?_⟩
        · rw [getField_strip (by decide)]
          exact hsource.assets
        · rw [getField_strip (by decide)]
          exact hsource.endFrame
    | _ => cases hstripped

/-- An edit is rejected and leaves the script, the project and the manifest as they were, or it is
accepted at the stored revision, and keeps what no operation names, and the media with their ids. -/
theorem execute_outcome (around : Surroundings π κ ν α) (faults : CommitFaults) (command : Command)
    (world : World π κ ν) :
    match execute around faults command world with
    | .error _ world' => world' = world
    | .ok _ world' => Edited around command world.script world'.script := by
  unfold execute
  cases hpreflight : preflight around command world with
  | error failure => rfl
  | ok prepared =>
      have hcommit : Meets (· = world) (commit around faults prepared) _ _ := commit_meets
      have hedited := preflight_edited hpreflight
      dsimp only
      rw [bind_run]
      cases hrun : commit around faults prepared world with
      | ok u world' =>
          have hscript : world'.script = _ := hcommit.ok rfl hrun
          dsimp only
          rw [← hscript] at hedited
          exact hedited
      | error failure world' => exact hcommit.error rfl hrun

end Commit

def quietSurroundings : Surroundings Unit Unit Unit Unit where
  python := { str := fun value => match value with
                | .string text => text
                | _ => "None"
              isZero := fun _ => false
              str_string := fun _ => rfl }
  speech := { preparation := fun _ _ => (), allowed := fun _ _ => true }
  migrationVerdict := none
  rebound := false
  filenameEpisode := none
  revision _ := "sha256-v1:0"
  episodeIs _ _ := true
  speechProblem _ _ := none
  structureValid _ := true
  sourceTextVerbatim _ _ := true
  referencesValid _ _ := true
  manifestPlan _ _ _ _ := some none
  nameConsistent _ := true
  stampMetadata value := value
  syncProject project _ := project
  namespaceUnique _ := true

def segment (id : String) : Json :=
  .object [("segment_id", .string id), ("duration_seconds", .int 4), ("novel_text", .string "text"),
    ("characters_in_segment", .list [])]

def repeatedScript : Fields :=
  [("title", .string "title"), ("episode", .int 1), ("content_mode", .string "narration"),
    ("segments", .list [segment "E1S01", segment "E1S01", segment "E1S02"])]

def repeatedWorld : World Unit Unit Unit where
  script := repeatedScript
  project := ()
  manifest _ := none

def removeThird : Command where
  episode := none
  expectedRevision := "sha256-v1:0"
  operations := [.remove "E1S02"]
  freshInsertIndexes := []

/-- The edit of the third segment is accepted, and the ids are not distinct. -/
theorem repeated_ids_accepted :
    (match execute quietSurroundings ⟨.none, .none, .none⟩ removeThird repeatedWorld with
      | .ok _ world' => decide ((resourceIds quietSurroundings world'.script).Nodup)
      | .error _ _ => true) = false := by
  decide +kernel

end ShortReel.ScriptBatchEdit
