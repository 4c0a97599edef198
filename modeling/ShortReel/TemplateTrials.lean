import ShortReel.TemplateSoundness
import ShortReel.TransitionSystem

/-!
# Trial contexts

The converse: a context in which every list has one element, a dictionary of all inputs but one, makes
a body that is not safe raise one of the errors. Other errors do not come first, as long as the enum
maps are those of the schema and no alias has one.
-/

namespace ShortReel.TemplateTrials

open TemplateEngine EndpointValidator TemplateNames TemplateSoundness

section Trials

variable (definition : EndpointDefinition)

def trialElement (missing : Option String) : Value :=
  .dict (((inputNames definition).filter (missing ≠ some ·)).map fun name => (name, .string ""))

def trialInput (missing : Option String) (name : String) : Value :=
  if name ∈ listInputs definition then .list [trialElement definition missing] else .string ""

def trialInputs (missing : Option String) : List (String × Value) :=
  (inputNames definition).map fun name => (name, trialInput definition missing name)

def trialVariable (name : String) : Value :=
  match definition.enumMaps.lookup name with
  | some ((key, _) :: _) => .string key
  | _ => .string ""

def trialContext (missing : Option String) : Context :=
  ("api_key", .string "") :: ("inputs", .dict (trialInputs definition missing)) ::
    definition.mediaType.variables.map fun name => (name, trialVariable definition name)

/-- What the schema asks of `enum_maps`: a map has an entry, and no entry is null. -/
def MapsFilled : Prop :=
  ∀ entry ∈ definition.enumMaps, entry.2 ≠ [] ∧ ∀ pair ∈ entry.2, pair.2 ≠ .null

mutual

def nodeAliases : Node → List String
  | .leaf _ => []
  | .text _ => []
  | .list items => itemsAliases items
  | .object fields => fieldsAliases fields

def itemsAliases : Nodes → List String
  | .nil => []
  | .cons item rest => nodeAliases item ++ itemsAliases rest

def fieldsAliases : Fields → List String
  | .nil => []
  | .guard _ rest => fieldsAliases rest
  | .eachItem head item rest => head.asName.1 :: (nodeAliases item ++ fieldsAliases rest)
  | .eachPair head _ value rest => head.asName.1 :: (nodeAliases value ++ fieldsAliases rest)
  | .field _ value rest => nodeAliases value ++ fieldsAliases rest

end

def AliasesUnmapped : Prop :=
  ∀ body ∈ definition.submit.body, ∀ name ∈ nodeAliases body,
    definition.enumMaps.lookup name = none

/-- A context of the submit request, or of a body in it, in which every list has the trial element. -/
structure Trial (missing : Option String) (shadow : Shadow) (context : Context) : Prop where
  filled : ∀ name value, context.lookup name = some value → value ≠ .null
  mapped : ∀ name mapping, definition.enumMaps.lookup name = some mapping →
    ∃ key mapped, context.lookup name = some (.string key) ∧
      mapping.lookup key = some mapped ∧ mapped ≠ .null
  inputs : context.lookup "inputs" = some (if shadow.isNone then
    .dict (trialInputs definition missing) else trialElement definition missing)

end Trials

section TrialContexts

variable {library : PythonLibrary} {definition : EndpointDefinition} {scope : Scope}
  {shadow : Shadow} {context : Context} {missing : Option String}

theorem lookup_map_self {β : Type} (f : String → β) (names : List String) (name : String) :
    (names.map fun name => (name, f name)).lookup name =
      if name ∈ names then some (f name) else none := by
  induction names with
  | nil => rfl
  | cons other names ih =>
      rw [List.map_cons, List.lookup_cons, ih]
      by_cases heq : name = other
      · subst heq
        simp
      · simp [heq, beq_false_of_ne heq]

theorem lookup_trialInputs {name : String} (h : name ∈ inputNames definition) :
    (trialInputs definition missing).lookup name = some (trialInput definition missing name) := by
  rw [trialInputs, lookup_map_self, if_pos h]

theorem trialInput_ne_null (name : String) : trialInput definition missing name ≠ .null := by
  unfold trialInput
  split <;> intro h <;> cases h

theorem trialVariable_eq (name : String) :
    ∃ text, trialVariable definition name = .string text := by
  unfold trialVariable
  split <;> exact ⟨_, rfl⟩

theorem enumMapVariables_subset (mediaType : MediaType) :
    ∀ name ∈ mediaType.enumMapVariables, name ∈ mediaType.variables := by
  cases mediaType <;> decide

theorem variables_not_reserved (mediaType : MediaType) :
    ∀ name ∈ mediaType.variables, name ≠ "api_key" ∧ name ≠ "inputs" ∧ name ≠ "index" := by
  cases mediaType <;> decide

theorem mem_of_lookup {β : Type} {entries : List (String × β)} {name : String} {value : β}
    (h : entries.lookup name = some value) : (name, value) ∈ entries := by
  obtain ⟨before, after, rfl, -⟩ := List.lookup_eq_some_iff.mp h
  exact List.mem_append_right _ List.mem_cons_self

theorem variable_of_mapped (haccepted : Accepted definition library) {name : String}
    {mapping : List (String × Value)} (h : definition.enumMaps.lookup name = some mapping) :
    name ∈ definition.mediaType.variables :=
  enumMapVariables_subset _ _ (enumMapVariable_of_accepted haccepted (mem_of_lookup h))

theorem lookup_trialContext (name : String) :
    (trialContext definition missing).lookup name =
      if name = "api_key" then some (.string "")
      else if name = "inputs" then some (.dict (trialInputs definition missing))
      else if name ∈ definition.mediaType.variables then some (trialVariable definition name)
      else none := by
  rw [trialContext, List.lookup_cons, List.lookup_cons, lookup_map_self]
  by_cases hkey : name = "api_key"
  · rw [if_pos hkey, beq_iff_eq.mpr hkey]
  rw [if_neg hkey, beq_false_of_ne hkey]
  by_cases hinputs : name = "inputs"
  · rw [if_pos hinputs, beq_iff_eq.mpr hinputs]
  · rw [if_neg hinputs, beq_false_of_ne hinputs]

theorem lookup_trialContext_variable {name : String} (h : name ∈ definition.mediaType.variables) :
    (trialContext definition missing).lookup name = some (trialVariable definition name) := by
  obtain ⟨hkey, hinputs, -⟩ := variables_not_reserved _ name h
  rw [lookup_trialContext, if_neg hkey, if_neg hinputs, if_pos h]

theorem trialContext_trial (haccepted : Accepted definition library)
    (hfilled : MapsFilled definition) (missing : Option String) :
    Trial definition missing none (trialContext definition missing) := by
  refine ⟨?_, ?_, ?_⟩
  · intro name value hvalue
    rw [lookup_trialContext] at hvalue
    split_ifs at hvalue with hkey hinputs hvariable
    · cases hvalue
      intro h
      cases h
    · cases hvalue
      intro h
      cases h
    · obtain ⟨text, htext⟩ := @trialVariable_eq definition name
      rw [htext] at hvalue
      cases hvalue
      intro h
      cases h
  · intro name mapping hmapping
    obtain ⟨hnonempty, hvalues⟩ := hfilled _ (mem_of_lookup hmapping)
    cases mapping with
    | nil => exact absurd rfl hnonempty
    | cons pair pairs =>
        refine ⟨pair.1, pair.2, ?_, ?_, hvalues pair List.mem_cons_self⟩
        · rw [lookup_trialContext_variable (variable_of_mapped haccepted hmapping), trialVariable,
            hmapping]
        · exact List.lookup_cons_self
  · rfl

theorem trialContext_provides (missing : Option String) :
    Provides definition .submit (trialContext definition missing) := by
  refine ⟨⟨_, rfl⟩, ?_, ?_, ?_, ?_⟩
  · intro name hname
    exact ⟨_, lookup_trialContext_variable hname⟩
  · rintro (h | h) <;> cases h
  · intro h
    cases h
  · intro _
    refine ⟨_, rfl, fun name hname => ⟨_, lookup_trialInputs hname, fun hlist => .inr ?_⟩⟩
    exact ⟨_, if_pos hlist⟩

theorem Trial.inside (h : Trial definition missing none context) {head : EachHead}
    (hunmapped : definition.enumMaps.lookup head.asName.1 = none)
    (hindex : definition.enumMaps.lookup "index" = none) (index : ℕ) :
    Trial definition missing (Shadow.inside none head)
      (eachScope head context index (trialElement definition missing)) := by
  refine ⟨?_, ?_, ?_⟩
  · intro name value hvalue
    rw [lookup_eachScope] at hvalue
    split_ifs at hvalue
    · cases hvalue
      intro h
      cases h
    · cases hvalue
      intro h
      cases h
    · exact h.filled name value hvalue
  · intro name mapping hmapping
    obtain ⟨key, mapped, hkey, hmapped⟩ := h.mapped name mapping hmapping
    refine ⟨key, mapped, ?_, hmapped⟩
    rw [lookup_eachScope, if_neg, if_neg, hkey]
    · rintro rfl
      rw [hunmapped] at hmapping
      cases hmapping
    · rintro rfl
      rw [hindex] at hmapping
      cases hmapping
  · rw [lookup_eachScope, if_neg (by decide)]
    by_cases halias : head.asName.1 = "inputs"
    · rw [if_pos halias.symm, Shadow.inside, if_pos halias]
      rfl
    · rw [if_neg (Ne.symm halias), Shadow.inside, if_neg halias, h.inputs]

theorem Trial.guarded (h : Trial definition missing shadow context) (fields : Fields) :
    Trial definition missing (shadow.guarded fields) context := by
  refine ⟨h.filled, h.mapped, ?_⟩
  rw [h.inputs]
  cases shadow <;> rfl

theorem lookup_trialElement (name : String) :
    ∀ fields, trialElement definition missing = .dict fields →
      fields.lookup name = if name ∈ inputNames definition ∧ missing ≠ some name then
        some (.string "") else none := by
  intro fields hfields
  obtain rfl := (Value.dict.inj hfields).symm
  rw [lookup_map_self]
  simp only [List.mem_filter, decide_eq_true_eq]

theorem lookup_shadowed {guards : List String}
    (h : Trial definition missing (some guards) context) {name : String} (hdot : '.' ∉ name.toList) :
    lookup context ("inputs." ++ name) =
      if name ∈ inputNames definition ∧ missing ≠ some name then .ok (.string "")
      else .error (.undeclaredVariable ("inputs." ++ name)) := by
  have hinputs : context.lookup "inputs" = some (trialElement definition missing) := h.inputs
  have helement := @lookup_trialElement definition missing name _ rfl
  unfold lookup
  rw [namePath_inputs hdot, lookupPath, hinputs, Option.bind_some, trialElement, lookupPath, helement]
  by_cases hfound : name ∈ inputNames definition ∧ missing ≠ some name
  · rw [if_pos hfound, if_pos hfound]
    rfl
  · rw [if_neg hfound, if_neg hfound]
    rfl

theorem lookup_unshadowed (h : Trial definition missing none context) {name : String}
    (hname : name ∈ inputNames definition) :
    lookup context ("inputs." ++ name) = .ok (trialInput definition missing name) :=
  lookup_input (inputNames_undotted hname) h.inputs (lookup_trialInputs hname)

theorem lookup_raises (name : String) : Raises Unbound (lookup context name) := by
  unfold lookup
  split
  · exact Raises.ok _
  · exact Raises.error trivial

theorem eachValues_raises (head : EachHead) : Raises Unbound (eachValues head context) := by
  unfold eachValues
  refine (lookup_raises _).bind fun _ _ => ?_
  split
  · exact Raises.ok _
  · exact Raises.ok _
  · exact Raises.error trivial

theorem eachValues_trial (h : Trial definition missing none context) {head : EachHead}
    (hlist : head.inName.1 ∈ listInputs definition) :
    eachValues head context = .ok [trialElement definition missing] := by
  unfold eachValues EachHead.source
  rw [lookup_unshadowed h (listInputs_subset hlist), trialInput, if_pos hlist]
  rfl

theorem eachValues_shadowed {guards : List String}
    (h : Trial definition missing (some guards) context) (head : EachHead) (values : List Value) :
    eachValues head context ≠ .ok values := by
  unfold eachValues EachHead.source
  rw [lookup_shadowed h (inputName_undotted head.inName)]
  split <;> intro heq <;> cases heq

theorem lookup_ne_null (h : Trial definition missing shadow context) (hplain : Plain scope)
    {name : String} (hname : Readable definition scope name) :
    lookup context name ≠ .ok .null := by
  by_cases hdot : '.' ∈ name.toList
  · obtain ⟨input, rfl, hinput, -⟩ := input_of_dotted hplain hname hdot
    cases shadow with
    | none =>
        rw [lookup_unshadowed h hinput]
        intro heq
        exact trialInput_ne_null input (Except.ok.inj heq)
    | some guards =>
        rw [lookup_shadowed h (inputNames_undotted hinput)]
        split <;> intro heq <;> cases heq
  · intro heq
    unfold lookup at heq
    rw [namePath_of_undotted hdot, lookupPath] at heq
    cases hvalue : context.lookup name with
    | none =>
        rw [hvalue] at heq
        cases heq
    | some value =>
        rw [hvalue] at heq
        exact h.filled name value hvalue (Except.ok.inj heq)

theorem resolve_trial (haccepted : Accepted definition library)
    (h : Trial definition missing shadow context) (hplain : Plain scope) {name : String}
    (hname : Readable definition scope name) :
    Raises Unbound (resolve library definition.enumMaps name context) ∧
      resolve library definition.enumMaps name context ≠ .ok .null := by
  unfold resolve
  cases hmapping : definition.enumMaps.lookup name with
  | none =>
      refine ⟨(lookup_raises name).bind fun _ _ => Raises.ok _, fun heq => ?_⟩
      cases hvalue : lookup context name with
      | error raised =>
          rw [hvalue] at heq
          cases heq
      | ok value =>
          rw [hvalue] at heq
          exact lookup_ne_null h hplain hname (hvalue.trans heq)
  | some mapping =>
      obtain ⟨key, mapped, hkey, hmapped, hnull⟩ := h.mapped name mapping hmapping
      have hdot := variables_undotted _ _ (variable_of_mapped haccepted hmapping)
      rw [lookup_of_undotted hdot hkey]
      have hkeyText : enumMapKey library (.string key) = key := rfl
      rw [ok_bind]
      dsimp only
      rw [hkeyText, hmapped]
      refine ⟨Raises.ok _, fun heq => ?_⟩
      exact hnull (Except.ok.inj heq)

theorem renderParts_trial (haccepted : Accepted definition library)
    (h : Trial definition missing shadow context) (hplain : Plain scope) {parts : List Part}
    (hnames : ∀ name ∈ parts.filterMap Part.variableName, Readable definition scope name) :
    Raises Unbound (renderParts library definition.enumMaps context parts) := by
  induction parts with
  | nil => exact Raises.ok _
  | cons part parts ih =>
      have hrest := ih fun name hname => hnames name (by
        rw [List.filterMap_cons]
        split
        · exact hname
        · exact List.mem_cons_of_mem _ hname)
      have hpart : Raises Unbound (renderPart library definition.enumMaps context part) := by
        cases part with
        | char c => exact Raises.ok _
        | placeholder name =>
            obtain ⟨hraises, hnull⟩ :=
              resolve_trial haccepted h hplain (hnames name (by simp [Part.variableName]))
            rw [renderPart]
            refine hraises.bind fun value hvalue => ?_
            split
            · exact absurd hvalue hnull
            · exact Raises.ok _
      rw [renderParts]
      exact hpart.bind fun _ _ => hrest.bind fun _ _ => Raises.ok _

theorem template_trial (haccepted : Accepted definition library)
    (h : Trial definition missing shadow context) (hplain : Plain scope) {template path : String}
    (hscan : (scanTemplate definition template path scope).errors = []) :
    Raises Unbound (renderString library definition.enumMaps template context) := by
  unfold renderString
  split
  · rename_i name hwhole
    have hname := readable_of_scanTemplate hscan (wholePlaceholder_mem hwhole)
    refine (resolve_trial haccepted h hplain hname).1.bind fun _ _ => ?_
    split <;> exact Raises.ok _
  · refine (renderParts_trial haccepted h hplain fun name hname => ?_).bind fun _ _ => Raises.ok _
    exact readable_of_scanTemplate hscan hname

end TrialContexts

section Raising

variable {library : PythonLibrary} {definition : EndpointDefinition} {missing : Option String}

theorem index_unmapped (haccepted : Accepted definition library) :
    definition.enumMaps.lookup "index" = none := by
  cases hmapping : definition.enumMaps.lookup "index" with
  | none => rfl
  | some mapping =>
      have hvariable := variable_of_mapped haccepted hmapping
      exact absurd rfl (variables_not_reserved _ _ hvariable).2.2

def Unmapped (definition : EndpointDefinition) (aliases : List String) : Prop :=
  ∀ name ∈ aliases, definition.enumMaps.lookup name = none

theorem Unmapped.left {aliases later : List String} (h : Unmapped definition (aliases ++ later)) :
    Unmapped definition aliases :=
  fun name hname => h name (List.mem_append_left _ hname)

theorem Unmapped.right {aliases later : List String} (h : Unmapped definition (aliases ++ later)) :
    Unmapped definition later :=
  fun name hname => h name (List.mem_append_right _ hname)

theorem Unmapped.tail {name : String} {aliases : List String} (h : Unmapped definition (name :: aliases)) :
    Unmapped definition aliases :=
  fun other hother => h other (List.mem_cons_of_mem _ hother)

mutual

theorem renderNode_trial (haccepted : Accepted definition library) {scope : Scope}
    {shadow : Shadow} {context : Context} {path : String} {inArray : Bool} : (node : Node) → Plain scope →
    (scanNode definition node path scope inArray).errors = [] →
    (inArray = true → node.hasEach = false) → Unmapped definition (nodeAliases node) →
    Trial definition missing shadow context →
    Raises Unbound (renderNode library definition.enumMaps node context)
  | .leaf _, _, _, _, _, _ => Raises.ok _
  | .text template, hplain, hscan, _, _, h => by
      rw [scanNode] at hscan
      rw [renderNode]
      exact template_trial haccepted h hplain hscan
  | .list items, hplain, hscan, _, haliases, h => by
      rw [scanNode] at hscan
      rw [nodeAliases] at haliases
      rw [renderNode]
      refine (renderItems_trial haccepted items hplain hscan haliases h).bind fun rendered _ => ?_
      dsimp only
      split <;> exact Raises.ok _
  | .object fields, hplain, hscan, harray, haliases, h => by
      rw [scanNode] at hscan
      rw [nodeAliases] at haliases
      rw [renderNode]
      split
      · exact (renderFields_trial haccepted fields hplain hscan harray haliases h).bind fun _ _ => Raises.ok _
      · exact Raises.ok _

theorem renderItems_trial (haccepted : Accepted definition library) {scope : Scope}
    {shadow : Shadow} {context : Context} {path : String} {index : ℕ} : (items : Nodes) → Plain scope →
    (scanItems definition items path scope index).errors = [] →
    Unmapped definition (itemsAliases items) → Trial definition missing shadow context →
    Raises Unbound (renderItems library definition.enumMaps items context)
  | .nil, _, _, _, _ => Raises.ok _
  | .cons item rest, hplain, hscan, haliases, h => by
      rw [scanItems, errors_append, List.append_eq_nil_iff] at hscan
      rw [itemsAliases] at haliases
      rw [renderItems]
      have hrest := renderItems_trial haccepted rest hplain hscan.2 haliases.right h
      cases heach : item.hasEach with
      | true =>
          exact (renderEachItems_trial haccepted item hplain hscan.1 haliases.left h).bind fun _ _ =>
            hrest.bind fun _ _ => Raises.ok _
      | false =>
          exact (renderNode_trial haccepted item hplain hscan.1 (fun _ => heach) haliases.left h).map.bind
            fun _ _ =>
            hrest.bind fun _ _ => Raises.ok _

theorem renderEachItems_trial (haccepted : Accepted definition library) {scope : Scope}
    {shadow : Shadow} {context : Context} {path : String} : (item : Node) → Plain scope →
    (scanNode definition item path scope true).errors = [] →
    Unmapped definition (nodeAliases item) → Trial definition missing shadow context →
    Raises Unbound (renderEachItems library definition.enumMaps item context)
  | .leaf _, _, _, _, _ => Raises.ok _
  | .text _, _, _, _, _ => Raises.ok _
  | .list _, _, _, _, _ => Raises.ok _
  | .object fields, hplain, hscan, haliases, h => by
      rw [scanNode] at hscan
      rw [nodeAliases] at haliases
      rw [renderEachItems]
      split
      · exact renderEachFields_trial haccepted fields hplain hscan haliases h
      · exact Raises.ok _

theorem renderEachFields_trial (haccepted : Accepted definition library) {scope : Scope}
    {shadow : Shadow} {context : Context} {path : String} : (fields : Fields) → Plain scope →
    (scanFields definition fields path scope true).errors = [] →
    Unmapped definition (fieldsAliases fields) → Trial definition missing shadow context →
    Raises Unbound (renderEachFields library definition.enumMaps fields context)
  | .nil, _, _, _, _ => Raises.ok _
  | .guard _ rest, hplain, hscan, haliases, h => by
      rw [scanFields, errors_append, List.append_eq_nil_iff] at hscan
      exact renderEachFields_trial haccepted rest hplain hscan.2 haliases h
  | .field _ _ rest, hplain, hscan, haliases, h => by
      rw [scanFields, errors_append, List.append_eq_nil_iff] at hscan
      rw [fieldsAliases] at haliases
      exact renderEachFields_trial haccepted rest hplain hscan.2 haliases.right h
  | .eachItem head item rest, hplain, hscan, haliases, h => by
      simp only [scanFields, errors_append, List.append_eq_nil_iff] at hscan
      rw [fieldsAliases] at haliases
      rw [renderEachFields]
      refine (eachValues_raises head).bind fun values hvalues => ?_
      refine Raises.bind ?_ fun _ _ => Raises.ok _
      cases shadow with
      | some guards => exact absurd hvalues (eachValues_shadowed h head values)
      | none =>
          rw [eachValues_trial h (eachHead_of_scan hscan.1.1).2.1] at hvalues
          cases hvalues
          refine eachRound_raises (fun index value hvalue => ?_) 0
          obtain rfl := List.mem_singleton.mp hvalue
          exact renderNode_trial haccepted item (hplain.inside head) hscan.1.2 (absurd · Bool.false_ne_true)
            haliases.tail.left (h.inside (haliases _ List.mem_cons_self) (index_unmapped haccepted) index)
  | .eachPair head _ _ _, _, hscan, _, _ => by
      simp only [scanFields, errors_append, List.append_eq_nil_iff] at hscan
      have hmisplaced := (eachHead_of_scan hscan.1.1.1).1
      cases hmisplaced

theorem renderFields_trial (haccepted : Accepted definition library) {scope : Scope}
    {shadow : Shadow} {context : Context} {path : String} {inArray : Bool} : (fields : Fields) → Plain scope →
    (scanFields definition fields path scope inArray).errors = [] →
    (inArray = true → fields.hasEach = false) →
    Unmapped definition (fieldsAliases fields) → Trial definition missing shadow context →
    Raises Unbound (renderFields library definition.enumMaps fields context)
  | .nil, _, _, _, _, _ => Raises.ok _
  | .guard _ rest, hplain, hscan, harray, haliases, h => by
      rw [scanFields, errors_append, List.append_eq_nil_iff] at hscan
      exact renderFields_trial haccepted rest hplain hscan.2 harray haliases h
  | .eachItem head _ _, _, hscan, harray, _, _ => by
      simp only [scanFields, errors_append, List.append_eq_nil_iff] at hscan
      have hmisplaced := (eachHead_of_scan hscan.1.1).1
      rw [Bool.not_eq_false'] at hmisplaced
      cases harray hmisplaced
  | .eachPair head key value rest, hplain, hscan, _, haliases, h => by
      simp only [scanFields, errors_append, List.append_eq_nil_iff] at hscan
      rw [fieldsAliases] at haliases
      have hmisplaced := (eachHead_of_scan hscan.1.1.1).1
      rw [renderFields]
      refine (eachValues_raises head).bind fun values hvalues => ?_
      split
      · exact Raises.ok _
      refine Raises.bind ?_ fun _ _ => Raises.bind ?_ fun _ _ => Raises.ok _
      · cases shadow with
        | some guards => exact absurd hvalues (eachValues_shadowed h head values)
        | none =>
            rw [eachValues_trial h (eachHead_of_scan hscan.1.1.1).2.1] at hvalues
            cases hvalues
            refine eachRound_raises (fun index found hfound => ?_) 0
            obtain rfl := List.mem_singleton.mp hfound
            have hinside := h.inside (haliases _ List.mem_cons_self) (index_unmapped haccepted) index
            refine (template_trial haccepted hinside (hplain.inside head) hscan.1.1.2).bind
              fun _ _ => ?_
            refine Raises.bind ?_ fun _ _ => Raises.ok _
            exact renderNode_trial haccepted value (hplain.inside head) hscan.1.2
              (absurd · Bool.false_ne_true)
              haliases.tail.left hinside
      · refine renderFields_trial haccepted rest hplain hscan.2 (fun h => ?_) haliases.tail.right h
        rw [h] at hmisplaced
        cases hmisplaced
  | .field key value rest, hplain, hscan, harray, haliases, h => by
      rw [scanFields, errors_append, List.append_eq_nil_iff] at hscan
      rw [fieldsAliases] at haliases
      rw [renderFields]
      have hhere := renderNode_trial haccepted value
        hplain hscan.1 (absurd · Bool.false_ne_true) haliases.left h
      have hlater := renderFields_trial haccepted rest hplain hscan.2 harray haliases.right h
      exact hhere.bind fun _ _ => hlater.bind fun _ _ => Raises.ok _

end

end Raising

section Rendered

variable {library : PythonLibrary} {definition : EndpointDefinition} {scope : Scope}
  {shadow : Shadow} {context : Context}

def Admissible (shadow : Shadow) (missing : Option String) : Prop :=
  ∀ guards, shadow = some guards → ∀ name ∈ guards, missing ≠ some name

theorem Admissible.of_guarded {fields : Fields} {missing : Option String}
    (h : Admissible (shadow.guarded fields) missing) : Admissible shadow missing := by
  intro guards hshadow name hname
  subst hshadow
  exact h _ rfl name (List.mem_append_right _ hname)

theorem lookup_of_resolve {enumMaps : EnumMaps} {name : String} {value : Value}
    (h : resolve library enumMaps name context = .ok value) :
    ∃ found, lookup context name = .ok found := by
  obtain ⟨found, hfound, -⟩ := bind_eq_ok.mp h
  exact ⟨found, hfound⟩

theorem lookup_of_renderParts {enumMaps : EnumMaps} {parts : List Part} {text : String}
    (h : renderParts library enumMaps context parts = .ok text) :
    ∀ name ∈ parts.filterMap Part.variableName, ∃ found, lookup context name = .ok found := by
  induction parts generalizing text with
  | nil => exact fun _ hname => absurd hname List.not_mem_nil
  | cons part parts ih =>
      rw [renderParts] at h
      obtain ⟨head, hhead, h⟩ := bind_eq_ok.mp h
      obtain ⟨tail, htail, -⟩ := bind_eq_ok.mp h
      intro name hname
      cases part with
      | char c => exact ih htail name hname
      | placeholder other =>
          rcases List.mem_cons.mp hname with rfl | hname
          · rw [renderPart] at hhead
            obtain ⟨value, hvalue, -⟩ := bind_eq_ok.mp hhead
            exact lookup_of_resolve hvalue
          · exact ih htail name hname

theorem lookup_of_renderString {enumMaps : EnumMaps} {template : String} {rendered : Option Value}
    (h : renderString library enumMaps template context = .ok rendered) :
    ∀ name ∈ placeholderNames template, ∃ found, lookup context name = .ok found := by
  unfold renderString at h
  split at h
  · rename_i name hwhole
    rw [placeholderNames_of_whole hwhole]
    intro other hother
    obtain rfl := List.mem_singleton.mp hother
    obtain ⟨value, hvalue, -⟩ := bind_eq_ok.mp h
    exact lookup_of_resolve hvalue
  · obtain ⟨text, htext, -⟩ := bind_eq_ok.mp h
    exact lookup_of_renderParts htext

theorem templateSafe_of_rendered {trial : Option String → Context} (hplain : Plain scope)
    {template path : String} (hscan : (scanTemplate definition template path scope).errors = [])
    (htrial : ∀ missing, Trial definition missing shadow (trial missing))
    (hok : ∀ missing, Admissible shadow missing →
      ∃ rendered, renderString library definition.enumMaps template (trial missing) = .ok rendered) :
    templateSafe shadow template = true := by
  cases shadow with
  | none => rfl
  | some guards =>
      refine List.all_eq_true.mpr fun name hname => ?_
      cases hafter : afterInputs name with
      | none => rfl
      | some input =>
          refine decide_eq_true (by_contra fun hunguarded => ?_)
          obtain rfl := afterInputs_eq_some hafter
          -- the trial without this input cannot render the template
          have hadmissible : Admissible (some guards) (some input) := by
            intro _ hguards other hother heq
            obtain rfl := Option.some.inj hguards
            exact hunguarded (Option.some.inj heq ▸ hother)
          obtain ⟨rendered, hrendered⟩ := hok _ hadmissible
          obtain ⟨found, hfound⟩ := lookup_of_renderString hrendered _ hname
          have hdot : '.' ∈ ("inputs." ++ input).toList := by
            rw [String.toList_append]
            exact List.mem_append_left _ (by decide)
          obtain ⟨other, heq, hother, -⟩ :=
            input_of_dotted hplain (readable_of_scanTemplate hscan hname) hdot
          have hinput : input = other := by
            rw [heq, afterInputs_inputs] at hafter
            exact (Option.some.inj hafter).symm
          rw [lookup_shadowed (htrial _) (hinput ▸ inputNames_undotted hother),
            if_neg fun h => h.2 rfl] at hfound
          cases hfound

theorem when_of_scan {path : String} {inArray : Bool} {name : String} :
    (fields : Fields) → (scanFields definition fields path scope inArray).errors = [] →
    fields.when = some name → name ∈ inputNames definition
  | .nil, _, hwhen => by cases hwhen
  | .guard other rest, hscan, hwhen => by
      rw [scanFields, errors_append, List.append_eq_nil_iff] at hscan
      obtain rfl := Option.some.inj hwhen
      have hguard := hscan.1
      unfold scanWhen at hguard
      split_ifs at hguard with hname
      · exact (errors_issue _ _ _ hguard).elim
      · exact hname
      · exact (errors_issue _ _ _ hguard).elim
  | .eachItem _ _ rest, hscan, hwhen => by
      simp only [scanFields, errors_append, List.append_eq_nil_iff] at hscan
      exact when_of_scan rest hscan.2 hwhen
  | .eachPair _ _ _ rest, hscan, hwhen => by
      simp only [scanFields, errors_append, List.append_eq_nil_iff] at hscan
      exact when_of_scan rest hscan.2 hwhen
  | .field _ _ rest, hscan, hwhen => by
      simp only [scanFields, errors_append, List.append_eq_nil_iff] at hscan
      exact when_of_scan rest hscan.2 hwhen

theorem inputPresent_of_lookup {name : String} {inputs : List (String × Value)} {value : Value}
    (hinputs : context.lookup "inputs" = some (.dict inputs))
    (hvalue : inputs.lookup name = some value) (hnull : value ≠ .null)
    (hempty : value ≠ .list []) : inputPresent context name = true := by
  unfold inputPresent
  rw [hinputs]
  dsimp only
  rw [hvalue]
  split
  · rename_i heq
    cases heq
  · rename_i heq
    exact absurd (Option.some.inj heq) hnull
  · rename_i heq
    exact absurd (Option.some.inj heq) hempty
  · rfl

theorem guardHolds_trial {path : String} {inArray : Bool} {fields : Fields}
    {missing : Option String} (h : Trial definition missing shadow context)
    (hscan : (scanFields definition fields path scope inArray).errors = [])
    (hadmissible : Admissible (shadow.guarded fields) missing) :
    guardHolds fields context = true := by
  unfold guardHolds
  cases hwhen : fields.when with
  | none => rfl
  | some name =>
      have hname := when_of_scan fields hscan hwhen
      cases shadow with
      | none =>
          refine inputPresent_of_lookup h.inputs (lookup_trialInputs hname)
            (trialInput_ne_null name) ?_
          unfold trialInput
          split_ifs <;> intro heq <;> cases heq
      | some guards =>
          have hne : missing ≠ some name := by
            refine hadmissible _ rfl name (List.mem_append_left _ ?_)
            rw [hwhen]
            exact List.mem_singleton_self name
          have helement := @lookup_trialElement definition missing name _ rfl
          rw [if_pos ⟨hname, hne⟩] at helement
          refine inputPresent_of_lookup h.inputs helement ?_ ?_ <;> intro heq <;> cases heq

theorem eachValues_rendered {trial : Option String → Context} (head : EachHead)
    (htrial : ∀ missing, Trial definition missing shadow (trial missing))
    (hok : ∀ missing, Admissible shadow missing →
      ∃ values, eachValues head (trial missing) = .ok values) : shadow = none := by
  cases shadow with
  | none => rfl
  | some guards =>
      obtain ⟨values, hvalues⟩ := hok none fun _ _ _ _ heq => by cases heq
      exact absurd hvalues (eachValues_shadowed (htrial none) head values)

theorem eachRound_rendered {β : Type} {render : Context → Except RenderError β} {head : EachHead}
    {element : Value} {rounds : List β}
    (h : eachRound render head context 0 [element] = .ok rounds) :
    ∃ round, render (eachScope head context 0 element) = .ok round := by
  rw [eachRound] at h
  obtain ⟨round, hround, -⟩ := bind_eq_ok.mp h
  exact ⟨round, hround⟩

mutual

theorem nodeSafe_of_rendered (haccepted : Accepted definition library) {scope : Scope}
    {shadow : Shadow} (trial : Option String → Context) {path : String} {inArray : Bool} :
    (node : Node) → Plain scope → (scanNode definition node path scope inArray).errors = [] →
    Unmapped definition (nodeAliases node) →
    (∀ missing, Trial definition missing shadow (trial missing)) →
    (∀ missing, Admissible shadow missing →
      ∃ rendered, renderNode library definition.enumMaps node (trial missing) = .ok rendered) →
    nodeSafe node shadow = true
  | .leaf _, _, _, _, _, _ => rfl
  | .text template, hplain, hscan, _, htrial, hok => by
      rw [scanNode] at hscan
      simp only [renderNode] at hok
      exact templateSafe_of_rendered hplain hscan htrial hok
  | .list items, hplain, hscan, haliases, htrial, hok => by
      rw [scanNode] at hscan
      rw [nodeAliases] at haliases
      rw [nodeSafe]
      refine itemsSafe_of_rendered haccepted trial items hplain hscan haliases htrial
        fun missing hadmissible => ?_
      obtain ⟨rendered, hrendered⟩ := hok missing hadmissible
      rw [renderNode] at hrendered
      obtain ⟨found, hfound, -⟩ := bind_eq_ok.mp hrendered
      exact ⟨found, hfound⟩
  | .object fields, hplain, hscan, haliases, htrial, hok => by
      rw [scanNode] at hscan
      rw [nodeAliases] at haliases
      rw [nodeSafe]
      refine fieldsSafe_of_rendered haccepted trial fields hplain hscan haliases
        (fun missing => (htrial missing).guarded fields) fun missing hadmissible => ?_
      obtain ⟨rendered, hrendered⟩ := hok missing hadmissible.of_guarded
      rw [renderNode, if_pos (guardHolds_trial (htrial missing) hscan hadmissible)] at hrendered
      obtain ⟨found, hfound, -⟩ := bind_eq_ok.mp hrendered
      exact ⟨found, hfound⟩

theorem itemsSafe_of_rendered (haccepted : Accepted definition library) {scope : Scope}
    {shadow : Shadow} (trial : Option String → Context) {path : String} {index : ℕ} :
    (items : Nodes) → Plain scope → (scanItems definition items path scope index).errors = [] →
    Unmapped definition (itemsAliases items) →
    (∀ missing, Trial definition missing shadow (trial missing)) →
    (∀ missing, Admissible shadow missing →
      ∃ rendered, renderItems library definition.enumMaps items (trial missing) = .ok rendered) →
    itemsSafe items shadow = true
  | .nil, _, _, _, _, _ => rfl
  | .cons item rest, hplain, hscan, haliases, htrial, hok => by
      rw [scanItems, errors_append, List.append_eq_nil_iff] at hscan
      rw [itemsAliases] at haliases
      rw [itemsSafe, Bool.and_eq_true]
      cases heach : item.hasEach with
      | true =>
          refine ⟨eachItemsSafe_of_rendered haccepted trial item hplain hscan.1 haliases.left htrial ?_,
            itemsSafe_of_rendered haccepted trial rest hplain hscan.2 haliases.right htrial ?_⟩
          all_goals
            intro missing hadmissible
            obtain ⟨rendered, hrendered⟩ := hok missing hadmissible
            simp only [renderItems, heach, if_true] at hrendered
            obtain ⟨first, hfirst, hrendered⟩ := bind_eq_ok.mp hrendered
            obtain ⟨second, hsecond, -⟩ := bind_eq_ok.mp hrendered
          · exact ⟨first, hfirst⟩
          · exact ⟨second, hsecond⟩
      | false =>
          refine ⟨nodeSafe_of_rendered haccepted trial item hplain hscan.1 haliases.left htrial ?_,
            itemsSafe_of_rendered haccepted trial rest hplain hscan.2 haliases.right htrial ?_⟩
          all_goals
            intro missing hadmissible
            obtain ⟨rendered, hrendered⟩ := hok missing hadmissible
            simp only [renderItems, heach, Bool.false_eq_true, if_false] at hrendered
            obtain ⟨first, hfirst, hrendered⟩ := bind_eq_ok.mp hrendered
            obtain ⟨second, hsecond, -⟩ := bind_eq_ok.mp hrendered
          · cases hnode : renderNode library definition.enumMaps item (trial missing) with
            | error raised =>
                rw [hnode] at hfirst
                cases hfirst
            | ok found => exact ⟨found, rfl⟩
          · exact ⟨second, hsecond⟩

theorem eachItemsSafe_of_rendered (haccepted : Accepted definition library) {scope : Scope}
    {shadow : Shadow} (trial : Option String → Context) {path : String} {inArray : Bool} :
    (item : Node) → Plain scope → (scanNode definition item path scope inArray).errors = [] →
    Unmapped definition (nodeAliases item) →
    (∀ missing, Trial definition missing shadow (trial missing)) →
    (∀ missing, Admissible shadow missing →
      ∃ rendered, renderEachItems library definition.enumMaps item (trial missing) = .ok rendered) →
    eachItemsSafe item shadow = true
  | .leaf _, _, _, _, _, _ => rfl
  | .text _, _, _, _, _, _ => rfl
  | .list _, _, _, _, _, _ => rfl
  | .object fields, hplain, hscan, haliases, htrial, hok => by
      rw [scanNode] at hscan
      rw [nodeAliases] at haliases
      rw [eachItemsSafe]
      refine eachFieldsSafe_of_rendered haccepted trial fields hplain hscan haliases
        (fun missing => (htrial missing).guarded fields) fun missing hadmissible => ?_
      obtain ⟨rendered, hrendered⟩ := hok missing hadmissible.of_guarded
      rw [renderEachItems, if_pos (guardHolds_trial (htrial missing) hscan hadmissible)]
        at hrendered
      exact ⟨rendered, hrendered⟩

theorem eachFieldsSafe_of_rendered (haccepted : Accepted definition library) {scope : Scope}
    {shadow : Shadow} (trial : Option String → Context) {path : String} {inArray : Bool} :
    (fields : Fields) → Plain scope → (scanFields definition fields path scope inArray).errors = [] →
    Unmapped definition (fieldsAliases fields) →
    (∀ missing, Trial definition missing shadow (trial missing)) →
    (∀ missing, Admissible shadow missing → ∃ rendered,
      renderEachFields library definition.enumMaps fields (trial missing) = .ok rendered) →
    eachFieldsSafe fields shadow = true
  | .nil, _, _, _, _, _ => rfl
  | .guard _ rest, hplain, hscan, haliases, htrial, hok => by
      rw [scanFields, errors_append, List.append_eq_nil_iff] at hscan
      exact eachFieldsSafe_of_rendered haccepted trial rest hplain hscan.2 haliases htrial hok
  | .field _ _ rest, hplain, hscan, haliases, htrial, hok => by
      rw [scanFields, errors_append, List.append_eq_nil_iff] at hscan
      rw [fieldsAliases] at haliases
      exact eachFieldsSafe_of_rendered haccepted trial rest hplain hscan.2 haliases.right htrial hok
  | .eachPair head _ _ _, _, _, _, htrial, hok => by
      rw [eachFieldsSafe, Option.isNone_iff_eq_none]
      refine eachValues_rendered head htrial fun missing hadmissible => ?_
      obtain ⟨rendered, hrendered⟩ := hok missing hadmissible
      rw [renderEachFields] at hrendered
      obtain ⟨values, hvalues, -⟩ := bind_eq_ok.mp hrendered
      exact ⟨values, hvalues⟩
  | .eachItem head item _, hplain, hscan, haliases, htrial, hok => by
      simp only [scanFields, errors_append, List.append_eq_nil_iff] at hscan
      rw [fieldsAliases] at haliases
      simp only [renderEachFields] at hok
      obtain rfl := eachValues_rendered head htrial fun missing hadmissible =>
        have ⟨_, hrendered⟩ := hok missing hadmissible
        have ⟨values, hvalues, _⟩ := bind_eq_ok.mp hrendered
        ⟨values, hvalues⟩
      rw [eachFieldsSafe, Bool.and_eq_true]
      refine ⟨rfl, nodeSafe_of_rendered haccepted
        (fun missing => eachScope head (trial missing) 0 (trialElement definition missing)) item
        (hplain.inside head) hscan.1.2 haliases.tail.left ?_ ?_⟩
      · exact fun missing => (htrial missing).inside (haliases _ List.mem_cons_self)
          (index_unmapped haccepted) 0
      · intro missing _
        obtain ⟨rendered, hrendered⟩ := hok missing fun _ h => by cases h
        rw [eachValues_trial (htrial missing) (eachHead_of_scan hscan.1.1).2.1] at hrendered
        obtain ⟨values, hvalues, hrendered⟩ := bind_eq_ok.mp hrendered
        cases hvalues
        obtain ⟨rounds, hrounds, -⟩ := bind_eq_ok.mp hrendered
        exact eachRound_rendered hrounds

theorem fieldsSafe_of_rendered (haccepted : Accepted definition library) {scope : Scope}
    {shadow : Shadow} (trial : Option String → Context) {path : String} {inArray : Bool} :
    (fields : Fields) → Plain scope → (scanFields definition fields path scope inArray).errors = [] →
    Unmapped definition (fieldsAliases fields) →
    (∀ missing, Trial definition missing shadow (trial missing)) →
    (∀ missing, Admissible shadow missing → ∃ rendered,
      renderFields library definition.enumMaps fields (trial missing) = .ok rendered) →
    fieldsSafe fields shadow = true
  | .nil, _, _, _, _, _ => rfl
  | .guard _ rest, hplain, hscan, haliases, htrial, hok => by
      rw [scanFields, errors_append, List.append_eq_nil_iff] at hscan
      exact fieldsSafe_of_rendered haccepted trial rest hplain hscan.2 haliases htrial hok
  | .eachItem head _ _, _, _, _, htrial, hok => by
      rw [fieldsSafe, Option.isNone_iff_eq_none]
      refine eachValues_rendered head htrial fun missing hadmissible => ?_
      obtain ⟨rendered, hrendered⟩ := hok missing hadmissible
      rw [renderFields] at hrendered
      obtain ⟨values, hvalues, -⟩ := bind_eq_ok.mp hrendered
      exact ⟨values, hvalues⟩
  | .eachPair head key value rest, hplain, hscan, haliases, htrial, hok => by
      simp only [scanFields, errors_append, List.append_eq_nil_iff] at hscan
      rw [fieldsAliases] at haliases
      simp only [renderFields] at hok
      obtain rfl := eachValues_rendered head htrial fun missing hadmissible =>
        have ⟨_, hrendered⟩ := hok missing hadmissible
        have ⟨values, hvalues, _⟩ := bind_eq_ok.mp hrendered
        ⟨values, hvalues⟩
      have hinside : ∀ missing, Trial definition missing (Shadow.inside none head)
          (eachScope head (trial missing) 0 (trialElement definition missing)) := fun missing =>
        (htrial missing).inside (haliases _ List.mem_cons_self) (index_unmapped haccepted) 0
      have hparts : ∀ missing,
          (∃ key', renderString library definition.enumMaps key
            (eachScope head (trial missing) 0 (trialElement definition missing)) = .ok key') ∧
          (∃ value', renderNode library definition.enumMaps value
            (eachScope head (trial missing) 0 (trialElement definition missing)) = .ok value') ∧
          ∃ later, renderFields library definition.enumMaps rest (trial missing) = .ok later := by
        intro missing
        obtain ⟨rendered, hrendered⟩ := hok missing fun _ h => by cases h
        rw [eachValues_trial (htrial missing) (eachHead_of_scan hscan.1.1.1).2.1] at hrendered
        obtain ⟨values, hvalues, hrendered⟩ := bind_eq_ok.mp hrendered
        cases hvalues
        rw [List.isEmpty_cons, if_neg Bool.false_ne_true] at hrendered
        obtain ⟨rounds, hrounds, hrendered⟩ := bind_eq_ok.mp hrendered
        obtain ⟨later, hlater, -⟩ := bind_eq_ok.mp hrendered
        obtain ⟨round, hround⟩ := eachRound_rendered hrounds
        obtain ⟨key', hkey, hround⟩ := bind_eq_ok.mp hround
        obtain ⟨value', hvalue, -⟩ := bind_eq_ok.mp hround
        exact ⟨⟨key', hkey⟩, ⟨value', hvalue⟩, later, hlater⟩
      simp only [fieldsSafe, Bool.and_eq_true]
      refine ⟨⟨⟨rfl, ?_⟩, ?_⟩, ?_⟩
      · exact templateSafe_of_rendered (hplain.inside head) hscan.1.1.2 hinside
          fun missing _ => (hparts missing).1
      · exact nodeSafe_of_rendered haccepted _ value (hplain.inside head) hscan.1.2 haliases.tail.left hinside
          fun missing _ => (hparts missing).2.1
      · exact fieldsSafe_of_rendered haccepted trial rest hplain hscan.2 haliases.tail.right htrial
          fun missing _ => (hparts missing).2.2
  | .field key value rest, hplain, hscan, haliases, htrial, hok => by
      rw [scanFields, errors_append, List.append_eq_nil_iff] at hscan
      rw [fieldsAliases] at haliases
      rw [fieldsSafe, Bool.and_eq_true]
      refine ⟨nodeSafe_of_rendered haccepted trial value hplain hscan.1
        haliases.left htrial ?_,
        fieldsSafe_of_rendered haccepted trial rest hplain hscan.2
        haliases.right htrial ?_⟩
      all_goals
        intro missing hadmissible
        obtain ⟨rendered, hrendered⟩ := hok missing hadmissible
        rw [renderFields] at hrendered
        obtain ⟨first, hfirst, hrendered⟩ := bind_eq_ok.mp hrendered
        obtain ⟨second, hsecond, -⟩ := bind_eq_ok.mp hrendered
      · exact ⟨first, hfirst⟩
      · exact ⟨second, hsecond⟩

end

theorem visible_of_renderingSound (haccepted : Accepted definition library)
    (hfilled : MapsFilled definition) (haliases : AliasesUnmapped definition)
    (hsound : RenderingSound definition library) : InputsVisible definition := by
  intro body hbody
  have hrequest : (Section.submit, definition.submit) ∈ requests definition := List.mem_cons_self
  have hscan := (request_of_accepted haccepted hrequest).2.2 body hbody
  have hplain := plain_of_region .submit
  have htrial := trialContext_trial haccepted hfilled
  refine nodeSafe_of_rendered haccepted (trialContext definition) body hplain hscan
    (haliases body hbody) htrial fun missing _ => ?_
  have hsafe := (hsound _ _ hrequest _ (trialContext_provides missing)).2 body hbody
  have honly := renderNode_trial haccepted body hplain hscan (absurd · Bool.false_ne_true)
    (haliases body hbody) (htrial missing)
  cases hrendered : renderNode library definition.enumMaps body (trialContext definition missing) with
  | error raised => exact absurd (honly raised hrendered) (hsafe raised hrendered)
  | ok rendered => exact ⟨rendered, rfl⟩

/-- An accepted definition whose inputs no alias hides renders without the two errors; where the aliases
have no enum map, no other accepted definition does. -/
theorem rendering_sound_iff (haccepted : Accepted definition library) :
    (InputsVisible definition → RenderingSound definition library) ∧
      (MapsFilled definition → AliasesUnmapped definition →
        (RenderingSound definition library ↔ InputsVisible definition)) :=
  ⟨renderingSound_of_visible haccepted, fun hfilled haliases =>
    ⟨visible_of_renderingSound haccepted hfilled haliases, renderingSound_of_visible haccepted⟩⟩

end Rendered

def imagesDefinition (name : Identifier) (item : String) : EndpointDefinition :=
  { auth := { headers := [("Authorization", "Bearer \x7b\x7b api_key \x7d\x7d")] }
    inputs := [(⟨"first", by decide +kernel⟩, { source := .startImage, encoding := .dataUri }),
      (⟨"refs", by decide +kernel⟩, { source := .referenceImages, encoding := .dataUri })]
    submit := {
      method := "POST"
      url := "\x7b\x7bbase_url\x7d\x7d/v1"
      body := some (.object (.field "start" (.text "\x7b\x7binputs.first\x7d\x7d")
        (.field "images" (.list (.cons (.object (.eachItem ⟨⟨"refs", by decide +kernel⟩, name⟩
          (.text item) .nil)) .nil)) .nil))) }
    poll := { method := "GET", url := "\x7b\x7bbase_url\x7d\x7d/v1/\x7b\x7btask_id\x7d\x7d" } }

def plainDefinition : EndpointDefinition :=
  imagesDefinition ⟨"ref", by decide +kernel⟩ "\x7b\x7bref\x7d\x7d"

theorem plainDefinition_rendering : RenderingSound plainDefinition sampleLibrary := by
  have haccepted : Accepted plainDefinition sampleLibrary := by decide +kernel
  refine (rendering_sound_iff haccepted).1 fun body hbody => ?_
  obtain rfl := Option.some.inj hbody
  decide +kernel

def hiddenDefinition : EndpointDefinition :=
  imagesDefinition ⟨"inputs", by decide +kernel⟩ "\x7b\x7binputs.first\x7d\x7d"

def hiddenContext : Context :=
  ("api_key", .string "key") ::
    ("inputs", .dict [("first", .string "data:a"), ("refs", .list [.string "data:b"])]) ::
    MediaType.video.variables.map fun name => (name, .string "")

theorem hiddenContext_provides : Provides hiddenDefinition .submit hiddenContext := by
  refine ⟨⟨_, rfl⟩, ?_, ?_, ?_, fun _ => ⟨_, rfl, ?_⟩⟩
  · intro name hname
    have hall : ∀ name ∈ MediaType.video.variables, (hiddenContext.lookup name).isSome := by
      decide +kernel
    exact Option.isSome_iff_exists.mp (hall name hname)
  · rintro (h | h) <;> cases h
  · intro h
    cases h
  · intro name hname
    rcases List.mem_cons.mp hname with rfl | hname
    · exact ⟨_, rfl, fun hlist => absurd hlist (by decide +kernel)⟩
    · obtain rfl := List.mem_singleton.mp hname
      exact ⟨_, rfl, fun _ => .inr ⟨_, rfl⟩⟩

/-- The alias `inputs` hides the start image from the template of an element. -/
theorem accepted_not_sound :
    ¬ ∀ definition library, Accepted definition library → RenderingSound definition library := by
  intro h
  have haccepted : Accepted hiddenDefinition sampleLibrary := by decide +kernel
  have hsafe := (h _ _ haccepted _ _ List.mem_cons_self _ hiddenContext_provides).2 _ rfl
  exact hsafe (.undeclaredVariable "inputs.first") rfl trivial

end ShortReel.TemplateTrials
