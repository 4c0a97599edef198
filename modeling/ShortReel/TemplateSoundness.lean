import ShortReel.TemplateNames

/-!
# Accepted templates find their variables

A context that provides what a section may name does not make an accepted template raise
`UNDECLARED_VARIABLE` or `EACH_VALUE_NOT_LIST`, unless the alias of an expansion hides `inputs`.
-/

namespace ShortReel.TemplateSoundness

open TemplateEngine EndpointValidator TemplateNames

def Unbound : RenderError → Prop
  | .undeclaredVariable _ | .eachValueNotList _ => True
  | _ => False

def Raises {α : Type} (allowed : RenderError → Prop) (result : Except RenderError α) : Prop :=
  ∀ raised, result = .error raised → allowed raised

section Raises

variable {α β : Type} {allowed : RenderError → Prop}

theorem Raises.ok (value : α) : Raises allowed (.ok value) := by
  intro raised h
  cases h

theorem Raises.error {raised : RenderError} (h : allowed raised) :
    Raises allowed (.error raised : Except RenderError α) := by
  intro other heq
  cases heq
  exact h

theorem Raises.bind {result : Except RenderError α} {next : α → Except RenderError β}
    (h : Raises allowed result) (hnext : ∀ a, result = .ok a → Raises allowed (next a)) :
    Raises allowed (result >>= next) := by
  cases result with
  | error raised => exact Raises.error (h raised rfl)
  | ok value => exact hnext value rfl

theorem Raises.map {result : Except RenderError α} {f : α → β} (h : Raises allowed result) :
    Raises allowed (f <$> result) := by
  cases result with
  | error raised => exact Raises.error (h raised rfl)
  | ok value => exact Raises.ok _

end Raises

section Contexts

variable (definition : EndpointDefinition)

/-- The inputs a context has for a definition, with lists where they are declared as lists. -/
def ProvidesInputs (context : Context) : Prop :=
  ∃ inputs, context.lookup "inputs" = some (.dict inputs) ∧
    ∀ name ∈ inputNames definition, ∃ value, inputs.lookup name = some value ∧
      (name ∈ listInputs definition → value = .null ∨ ∃ items, value = .list items)

structure Provides (region : Section) (context : Context) : Prop where
  credential : ∃ value, context.lookup "api_key" = some value
  builtin : ∀ name ∈ definition.mediaType.variables, ∃ value, context.lookup name = some value
  taskId : region = .poll ∨ region = .result → ∃ value, context.lookup "task_id" = some value
  resultId : region = .result → "result_id" ∈ definition.poll.extractKeys →
    ∃ value, context.lookup "result_id" = some value
  inputs : region = .submit → ProvidesInputs definition context

/-- No template of an accepted definition raises one of the errors, nor does a request. -/
def RenderingSound (library : PythonLibrary) : Prop :=
  ∀ region request, (region, request) ∈ requests definition →
    ∀ context, Provides definition region context →
      Raises (¬ Unbound ·)
          (renderRequest library definition.enumMaps request definition.auth context) ∧
        ∀ body ∈ request.body,
          Raises (¬ Unbound ·) (renderNode library definition.enumMaps body context)

end Contexts

/-- Outside the expansions aliased `inputs` none; inside one, the inputs that a `$when` of its body
has found in the element. -/
abbrev Shadow := Option (List String)

def Shadow.inside (shadow : Shadow) (head : EachHead) : Shadow :=
  if head.asName.1 = "inputs" then some [] else shadow

def Shadow.guarded (shadow : Shadow) (fields : Fields) : Shadow :=
  shadow.map (fields.when.toList ++ ·)

def templateSafe (shadow : Shadow) (template : String) : Bool :=
  shadow.all fun guards =>
    (placeholderNames template).all fun name => (afterInputs name).all (· ∈ guards)

mutual

/-- In the body of an expansion aliased `inputs` there is no other expansion, and a placeholder of an
input stands in an object with that input for its `$when`. -/
def nodeSafe : Node → Shadow → Bool
  | .leaf _, _ => true
  | .text template, shadow => templateSafe shadow template
  | .list items, shadow => itemsSafe items shadow
  | .object fields, shadow => fieldsSafe fields (shadow.guarded fields)

def itemsSafe : Nodes → Shadow → Bool
  | .nil, _ => true
  | .cons item rest, shadow =>
      (if item.hasEach then eachItemsSafe item shadow else nodeSafe item shadow) &&
        itemsSafe rest shadow

def eachItemsSafe : Node → Shadow → Bool
  | .object fields, shadow => eachFieldsSafe fields (shadow.guarded fields)
  | _, _ => true

def eachFieldsSafe : Fields → Shadow → Bool
  | .nil, _ => true
  | .guard _ rest, shadow => eachFieldsSafe rest shadow
  | .field _ _ rest, shadow => eachFieldsSafe rest shadow
  | .eachItem head item _, shadow => shadow.isNone && nodeSafe item (shadow.inside head)
  | .eachPair .., shadow => shadow.isNone

def fieldsSafe : Fields → Shadow → Bool
  | .nil, _ => true
  | .guard _ rest, shadow => fieldsSafe rest shadow
  | .eachItem .., shadow => shadow.isNone
  | .eachPair head key value rest, shadow =>
      shadow.isNone && templateSafe (shadow.inside head) key &&
        nodeSafe value (shadow.inside head) && fieldsSafe rest shadow
  | .field _ value rest, shadow => nodeSafe value shadow && fieldsSafe rest shadow

end

def InputsVisible (definition : EndpointDefinition) : Prop :=
  ∀ body ∈ definition.submit.body, nodeSafe body none = true

section Serving

variable {library : PythonLibrary} {definition : EndpointDefinition} {scope : Scope}
  {shadow : Shadow} {context : Context}

structure Serves (definition : EndpointDefinition) (scope : Scope) (shadow : Shadow)
    (context : Context) : Prop where
  names : ∀ name, Readable definition scope name → '.' ∉ name.toList →
    ∃ value, context.lookup name = some value
  inputs : shadow = none → scope.region = .submit → ProvidesInputs definition context
  guards : ∀ guards, shadow = some guards → ∀ name ∈ guards, ∃ inputs value,
    context.lookup "inputs" = some (.dict inputs) ∧ inputs.lookup name = some value

theorem lookup_of_undotted {name : String} {value : Value} (h : '.' ∉ name.toList)
    (hvalue : context.lookup name = some value) : lookup context name = .ok value := by
  simp [lookup, namePath_of_undotted h, lookupPath, hvalue]

theorem lookup_input {name : String} {inputs : List (String × Value)} {value : Value}
    (h : '.' ∉ name.toList) (hinputs : context.lookup "inputs" = some (.dict inputs))
    (hvalue : inputs.lookup name = some value) :
    lookup context ("inputs." ++ name) = .ok value := by
  simp [lookup, namePath_inputs h, lookupPath, hinputs, hvalue]

theorem afterInputs_inputs (name : String) : afterInputs ("inputs." ++ name) = some name := by
  have hprefix : "inputs.".toList <+: ("inputs." ++ name).toList :=
    ⟨name.toList, by rw [String.toList_append]⟩
  have hdrop : ("inputs." ++ name).toList.drop 7 = name.toList := by
    rw [String.toList_append]
    rfl
  rw [afterInputs, if_pos hprefix, hdrop, String.ofList_toList]

theorem input_of_dotted (hplain : Plain scope) {name : String}
    (hname : Readable definition scope name) (hdot : '.' ∈ name.toList) :
    ∃ input, name = "inputs." ++ input ∧ input ∈ inputNames definition ∧
      scope.region = .submit := by
  cases hname with
  | credential => exact absurd hdot (by decide)
  | taskId => exact absurd hdot (by decide)
  | resultId => exact absurd hdot (by decide)
  | loop hlocal => exact absurd hdot (hplain _ hlocal)
  | builtin hvariable => exact absurd hdot (variables_undotted _ _ hvariable)
  | input hinput hregion => exact ⟨_, rfl, hinput, hregion⟩

theorem lookup_of_readable (hserves : Serves definition scope shadow context)
    (hplain : Plain scope) {name : String} (hname : Readable definition scope name)
    (hsafe : shadow.all (fun guards => (afterInputs name).all (· ∈ guards))) :
    ∃ value, lookup context name = .ok value := by
  by_cases hdot : '.' ∈ name.toList
  · obtain ⟨input, rfl, hinput, hregion⟩ := input_of_dotted hplain hname hdot
    have hundotted := inputNames_undotted hinput
    cases shadow with
    | none =>
        obtain ⟨inputs, hinputs, hvalues⟩ := hserves.inputs rfl hregion
        obtain ⟨value, hvalue, -⟩ := hvalues input hinput
        exact ⟨value, lookup_input hundotted hinputs hvalue⟩
    | some guards =>
        rw [afterInputs_inputs] at hsafe
        have hguard : input ∈ guards := by simpa using hsafe
        obtain ⟨inputs, value, hinputs, hvalue⟩ := hserves.guards guards rfl input hguard
        exact ⟨value, lookup_input hundotted hinputs hvalue⟩
  · obtain ⟨value, hvalue⟩ := hserves.names name hname hdot
    exact ⟨value, lookup_of_undotted hdot hvalue⟩

theorem listInputs_subset {name : String} (h : name ∈ listInputs definition) :
    name ∈ inputNames definition := by
  obtain ⟨entry, hentry, rfl⟩ := List.mem_map.mp h
  exact List.mem_map.mpr ⟨entry, (List.mem_filter.mp hentry).1, rfl⟩

theorem eachHead_of_scan {head : EachHead} {path : String} {misplaced : Bool}
    (h : (scanEachHead definition head path scope misplaced).errors = []) :
    misplaced = false ∧ head.inName.1 ∈ listInputs definition ∧ scope.region = .submit := by
  unfold scanEachHead at h
  simp only [errors_append, List.append_eq_nil_iff] at h
  obtain ⟨⟨hposition, -⟩, hsource⟩ := h
  refine ⟨?_, ?_⟩
  · cases misplaced
    · rfl
    · exact (errors_issue _ _ _ hposition).elim
  · split_ifs at hsource with hlist hregion
    · exact (errors_issue _ _ _ hsource).elim
    · exact ⟨hlist, not_not.mp hregion⟩
    · exact (errors_issue _ _ _ hsource).elim

theorem eachValues_of_provided {head : EachHead} (hinputs : ProvidesInputs definition context)
    (hlist : head.inName.1 ∈ listInputs definition) :
    ∃ values, eachValues head context = .ok values := by
  obtain ⟨inputs, hinputs, hvalues⟩ := hinputs
  obtain ⟨value, hvalue, hshape⟩ := hvalues _ (listInputs_subset hlist)
  have hlookup : lookup context head.source = .ok value :=
    lookup_input (inputName_undotted head.inName) hinputs hvalue
  rw [eachValues, hlookup]
  rcases hshape hlist with rfl | ⟨items, rfl⟩
  · exact ⟨[], rfl⟩
  · exact ⟨items, rfl⟩

theorem eachValues_of_scan {head : EachHead} {path : String} {misplaced : Bool}
    (hserves : Serves definition scope none context)
    (hscan : (scanEachHead definition head path scope misplaced).errors = []) :
    ∃ values, eachValues head context = .ok values := by
  obtain ⟨-, hlist, hregion⟩ := eachHead_of_scan hscan
  exact eachValues_of_provided (hserves.inputs rfl hregion) hlist

theorem readable_inside {head : EachHead} {name : String}
    (h : Readable definition (scope.inside head) name) :
    name = head.asName.1 ∨ name = "index" ∨ Readable definition scope name := by
  cases h with
  | credential hregion => exact .inr (.inr (.credential hregion))
  | taskId hregion => exact .inr (.inr (.taskId hregion))
  | resultId hregion hextract => exact .inr (.inr (.resultId hregion hextract))
  | loop hname hkey =>
      rcases List.mem_cons.mp hname with halias | hname
      · exact .inl halias
      rcases List.mem_cons.mp hname with hindex | hname
      · exact .inr (.inl hindex)
      · exact .inr (.inr (.loop hname hkey))
  | builtin hname => exact .inr (.inr (.builtin hname))
  | input hname hregion hlist => exact .inr (.inr (.input hname hregion hlist))

theorem lookup_eachScope (head : EachHead) (index : ℕ) (value : Value) (name : String) :
    (eachScope head context index value).lookup name =
      if name = "index" then some (.number (toString index))
      else if name = head.asName.1 then some value
      else context.lookup name := by
  rw [eachScope, List.lookup_cons, List.lookup_cons]
  by_cases hindex : name = "index"
  · rw [if_pos hindex, beq_iff_eq.mpr hindex]
  rw [if_neg hindex, beq_false_of_ne hindex]
  by_cases halias : name = head.asName.1
  · rw [if_pos halias, beq_iff_eq.mpr halias]
  · rw [if_neg halias, beq_false_of_ne halias]

theorem Serves.inside (h : Serves definition scope none context) (head : EachHead) (index : ℕ)
    (value : Value) : Serves definition (scope.inside head) (Shadow.inside none head)
      (eachScope head context index value) := by
  refine ⟨?_, ?_, ?_⟩
  · intro name hname hdot
    rw [lookup_eachScope]
    split_ifs with hindex halias
    · exact ⟨_, rfl⟩
    · exact ⟨_, rfl⟩
    · rcases readable_inside hname with heq | heq | hreadable
      · exact absurd heq halias
      · exact absurd heq hindex
      · exact h.names name hreadable hdot
  · intro hshadow hregion
    obtain ⟨inputs, hinputs, hvalues⟩ := h.inputs rfl hregion
    have halias : head.asName.1 ≠ "inputs" := by
      intro heq
      rw [Shadow.inside, if_pos heq] at hshadow
      cases hshadow
    refine ⟨inputs, ?_, hvalues⟩
    rw [lookup_eachScope, if_neg (by decide), if_neg halias.symm, hinputs]
  · intro guards hshadow name hname
    unfold Shadow.inside at hshadow
    split at hshadow
    · cases hshadow
      cases hname
    · cases hshadow

theorem Serves.guarded (h : Serves definition scope shadow context) {fields : Fields}
    (hholds : guardHolds fields context = true) :
    Serves definition scope (shadow.guarded fields) context := by
  refine ⟨h.names, ?_, ?_⟩
  · intro hshadow
    cases shadow with
    | none => exact h.inputs rfl
    | some guards => cases hshadow
  · intro guards hshadow name hname
    cases shadow with
    | none => cases hshadow
    | some before =>
        obtain rfl := Option.some.inj hshadow
        rcases List.mem_append.mp hname with hwhen | hbefore
        · rw [Option.mem_toList] at hwhen
          unfold guardHolds at hholds
          rw [hwhen] at hholds
          dsimp only at hholds
          unfold inputPresent at hholds
          split at hholds
          · rename_i inputs hinputs
            cases hvalue : inputs.lookup name with
            | none => rw [hvalue] at hholds; cases hholds
            | some value => exact ⟨inputs, value, hinputs, hvalue⟩
          · cases hholds
        · exact h.guards before rfl name hbefore

end Serving

section Sound

variable {library : PythonLibrary} {enumMaps : EnumMaps} {definition : EndpointDefinition}
  {scope : Scope} {shadow : Shadow} {context : Context}

theorem resolve_sound {name : String} (h : ∃ value, lookup context name = .ok value) :
    Raises (¬ Unbound ·) (resolve library enumMaps name context) := by
  obtain ⟨value, hvalue⟩ := h
  unfold resolve
  rw [hvalue]
  refine Raises.bind (Raises.ok _) fun _ _ => ?_
  split
  · exact Raises.ok _
  · exact Raises.ok _
  · split
    · exact Raises.ok _
    · exact Raises.error fun h => h

theorem renderParts_sound {parts : List Part}
    (h : ∀ name ∈ parts.filterMap Part.variableName, ∃ value, lookup context name = .ok value) :
    Raises (¬ Unbound ·) (renderParts library enumMaps context parts) := by
  induction parts with
  | nil => exact Raises.ok _
  | cons part parts ih =>
      have hrest := ih fun name hname => h name (by
        rw [List.filterMap_cons]
        split
        · exact hname
        · exact List.mem_cons_of_mem _ hname)
      have hpart : Raises (¬ Unbound ·) (renderPart library enumMaps context part) := by
        cases part with
        | char c => exact Raises.ok _
        | placeholder name =>
            rw [renderPart]
            refine (resolve_sound (h name (by simp [Part.variableName]))).bind fun value _ => ?_
            split
            · exact Raises.error fun h => h
            · exact Raises.ok _
      rw [renderParts]
      exact hpart.bind fun _ _ => hrest.bind fun _ _ => Raises.ok _

theorem renderString_sound {template : String}
    (h : ∀ name ∈ placeholderNames template, ∃ value, lookup context name = .ok value) :
    Raises (¬ Unbound ·) (renderString library enumMaps template context) := by
  unfold renderString
  split
  · rename_i name hwhole
    refine (resolve_sound (h name (wholePlaceholder_mem hwhole))).bind fun value _ => ?_
    split <;> exact Raises.ok _
  · exact (renderParts_sound h).bind fun _ _ => Raises.ok _

theorem template_sound {template path : String} (hplain : Plain scope)
    (hscan : (scanTemplate definition template path scope).errors = [])
    (hsafe : templateSafe shadow template = true)
    (hserves : Serves definition scope shadow context) :
    Raises (¬ Unbound ·) (renderString library enumMaps template context) := by
  refine renderString_sound fun name hname => ?_
  refine lookup_of_readable hserves hplain (readable_of_scanTemplate hscan hname) ?_
  cases shadow with
  | none => rfl
  | some guards => exact List.all_eq_true.mp hsafe name hname

theorem eachRound_raises {β : Type} {allowed : RenderError → Prop}
    {render : Context → Except RenderError β} {head : EachHead} {values : List Value}
    (h : ∀ index, ∀ value ∈ values, Raises allowed (render (eachScope head context index value)))
    (index : ℕ) : Raises allowed (eachRound render head context index values) := by
  induction values generalizing index with
  | nil => exact Raises.ok _
  | cons value values ih =>
      rw [eachRound]
      refine (h index value List.mem_cons_self).bind fun _ _ => ?_
      refine (ih (fun index other hother => h index other (List.mem_cons_of_mem _ hother))
        (index + 1)).bind fun _ _ => ?_
      exact Raises.ok _

mutual

theorem renderNode_sound {scope : Scope} {shadow : Shadow} {context : Context} {path : String}
    {inArray : Bool} : (node : Node) → Plain scope →
    (scanNode definition node path scope inArray).errors = [] → nodeSafe node shadow = true →
    Serves definition scope shadow context →
    Raises (¬ Unbound ·) (renderNode library enumMaps node context)
  | .leaf _, _, _, _, _ => Raises.ok _
  | .text template, hplain, hscan, hsafe, hserves => by
      rw [scanNode] at hscan
      rw [nodeSafe] at hsafe
      rw [renderNode]
      exact template_sound hplain hscan hsafe hserves
  | .list items, hplain, hscan, hsafe, hserves => by
      rw [scanNode] at hscan
      rw [nodeSafe] at hsafe
      rw [renderNode]
      refine (renderItems_sound items hplain hscan hsafe hserves).bind fun rendered _ => ?_
      dsimp only
      split <;> exact Raises.ok _
  | .object fields, hplain, hscan, hsafe, hserves => by
      rw [scanNode] at hscan
      rw [nodeSafe] at hsafe
      rw [renderNode]
      split
      · rename_i hholds
        exact (renderFields_sound fields hplain hscan hsafe (hserves.guarded hholds)).bind
          fun _ _ => Raises.ok _
      · exact Raises.ok _

theorem renderItems_sound {scope : Scope} {shadow : Shadow} {context : Context} {path : String}
    {index : ℕ} : (items : Nodes) → Plain scope →
    (scanItems definition items path scope index).errors = [] → itemsSafe items shadow = true →
    Serves definition scope shadow context →
    Raises (¬ Unbound ·) (renderItems library enumMaps items context)
  | .nil, _, _, _, _ => Raises.ok _
  | .cons item rest, hplain, hscan, hsafe, hserves => by
      rw [scanItems, errors_append, List.append_eq_nil_iff] at hscan
      rw [itemsSafe, Bool.and_eq_true] at hsafe
      rw [renderItems]
      have hrest := renderItems_sound rest hplain hscan.2 hsafe.2 hserves
      cases heach : item.hasEach with
      | true =>
          rw [heach] at hsafe
          exact (renderEachItems_sound item hplain hscan.1 hsafe.1 hserves).bind fun _ _ =>
            hrest.bind fun _ _ => Raises.ok _
      | false =>
          rw [heach] at hsafe
          exact (renderNode_sound item hplain hscan.1 hsafe.1 hserves).map.bind fun _ _ =>
            hrest.bind fun _ _ => Raises.ok _

theorem renderEachItems_sound {scope : Scope} {shadow : Shadow} {context : Context}
    {path : String} {inArray : Bool} : (item : Node) → Plain scope →
    (scanNode definition item path scope inArray).errors = [] → eachItemsSafe item shadow = true →
    Serves definition scope shadow context →
    Raises (¬ Unbound ·) (renderEachItems library enumMaps item context)
  | .leaf _, _, _, _, _ => Raises.ok _
  | .text _, _, _, _, _ => Raises.ok _
  | .list _, _, _, _, _ => Raises.ok _
  | .object fields, hplain, hscan, hsafe, hserves => by
      rw [scanNode] at hscan
      rw [eachItemsSafe] at hsafe
      rw [renderEachItems]
      split
      · rename_i hholds
        exact renderEachFields_sound fields hplain hscan hsafe (hserves.guarded hholds)
      · exact Raises.ok _

theorem renderEachFields_sound {scope : Scope} {shadow : Shadow} {context : Context}
    {path : String} {inArray : Bool} : (fields : Fields) → Plain scope →
    (scanFields definition fields path scope inArray).errors = [] →
    eachFieldsSafe fields shadow = true → Serves definition scope shadow context →
    Raises (¬ Unbound ·) (renderEachFields library enumMaps fields context)
  | .nil, _, _, _, _ => Raises.ok _
  | .guard _ rest, hplain, hscan, hsafe, hserves => by
      rw [scanFields, errors_append, List.append_eq_nil_iff] at hscan
      exact renderEachFields_sound rest hplain hscan.2 hsafe hserves
  | .field _ _ rest, hplain, hscan, hsafe, hserves => by
      rw [scanFields, errors_append, List.append_eq_nil_iff] at hscan
      exact renderEachFields_sound rest hplain hscan.2 hsafe hserves
  | .eachItem head item rest, hplain, hscan, hsafe, hserves => by
      simp only [scanFields, errors_append, List.append_eq_nil_iff] at hscan
      rw [eachFieldsSafe, Bool.and_eq_true, Option.isNone_iff_eq_none] at hsafe
      obtain ⟨rfl, hitem⟩ := hsafe
      obtain ⟨values, hvalues⟩ := eachValues_of_scan hserves hscan.1.1
      rw [renderEachFields, hvalues]
      refine Raises.bind (Raises.ok _) fun _ _ => Raises.bind ?_ fun _ _ => Raises.ok _
      exact eachRound_raises (fun index value _ => renderNode_sound item (hplain.inside head)
        hscan.1.2 hitem (hserves.inside head index value)) 0
  | .eachPair head _ _ _, _, hscan, hsafe, hserves => by
      simp only [scanFields, errors_append, List.append_eq_nil_iff] at hscan
      rw [eachFieldsSafe, Option.isNone_iff_eq_none] at hsafe
      subst hsafe
      obtain ⟨values, hvalues⟩ := eachValues_of_scan hserves hscan.1.1.1
      rw [renderEachFields, hvalues]
      refine Raises.bind (Raises.ok _) fun _ _ => ?_
      split
      · exact Raises.ok _
      · exact Raises.error fun h => h

theorem renderFields_sound {scope : Scope} {shadow : Shadow} {context : Context}
    {path : String} {inArray : Bool} : (fields : Fields) → Plain scope →
    (scanFields definition fields path scope inArray).errors = [] →
    fieldsSafe fields shadow = true → Serves definition scope shadow context →
    Raises (¬ Unbound ·) (renderFields library enumMaps fields context)
  | .nil, _, _, _, _ => Raises.ok _
  | .guard _ rest, hplain, hscan, hsafe, hserves => by
      rw [scanFields, errors_append, List.append_eq_nil_iff] at hscan
      exact renderFields_sound rest hplain hscan.2 hsafe hserves
  | .eachItem head _ _, _, hscan, hsafe, hserves => by
      simp only [scanFields, errors_append, List.append_eq_nil_iff] at hscan
      rw [fieldsSafe, Option.isNone_iff_eq_none] at hsafe
      subst hsafe
      obtain ⟨values, hvalues⟩ := eachValues_of_scan hserves hscan.1.1
      rw [renderFields, hvalues]
      refine Raises.bind (Raises.ok _) fun _ _ => ?_
      split
      · exact Raises.ok _
      · exact Raises.error fun h => h
  | .eachPair head key value rest, hplain, hscan, hsafe, hserves => by
      simp only [scanFields, errors_append, List.append_eq_nil_iff] at hscan
      simp only [fieldsSafe, Bool.and_eq_true, Option.isNone_iff_eq_none] at hsafe
      obtain ⟨⟨⟨rfl, hkey⟩, hvalue⟩, hrest⟩ := hsafe
      obtain ⟨values, hvalues⟩ := eachValues_of_scan hserves hscan.1.1.1
      rw [renderFields, hvalues]
      refine Raises.bind (Raises.ok _) fun _ _ => ?_
      split
      · exact Raises.ok _
      refine Raises.bind (eachRound_raises (fun index value _ => ?_) 0) fun _ _ => ?_
      · have hinside := hserves.inside head index value
        exact (template_sound (hplain.inside head) hscan.1.1.2 hkey hinside).bind fun _ _ =>
          (renderNode_sound _ (hplain.inside head) hscan.1.2 hvalue hinside).bind fun _ _ =>
            Raises.ok _
      · exact (renderFields_sound rest hplain hscan.2 hrest hserves).bind fun _ _ => Raises.ok _
  | .field key value rest, hplain, hscan, hsafe, hserves => by
      rw [scanFields, errors_append, List.append_eq_nil_iff] at hscan
      rw [fieldsSafe, Bool.and_eq_true] at hsafe
      rw [renderFields]
      exact (renderNode_sound value hplain hscan.1 hsafe.1 hserves).bind fun _ _ =>
        (renderFields_sound rest hplain hscan.2 hsafe.2 hserves).bind fun _ _ => Raises.ok _

end

theorem renderTable_sound {entries : List (String × String)}
    (h : ∀ entry ∈ entries,
      Raises (¬ Unbound ·) (renderString library enumMaps entry.2 context)) :
    Raises (¬ Unbound ·) (renderTable library enumMaps context entries) := by
  induction entries with
  | nil => exact Raises.ok _
  | cons entry entries ih =>
      rw [renderTable]
      refine (h entry List.mem_cons_self).bind fun _ _ => ?_
      exact (ih fun other hother => h other (List.mem_cons_of_mem _ hother)).bind fun _ _ =>
        Raises.ok _

theorem appendAuthQuery_sound (url : String) (authQuery : List (String × String)) :
    Raises (¬ Unbound ·) (appendAuthQuery library url authQuery) := by
  unfold appendAuthQuery
  split
  · exact Raises.ok _
  split
  · exact Raises.error fun h => h
  dsimp only
  split
  · exact Raises.error fun h => h
  · exact Raises.ok _

end Sound

section Elsewhere

variable {definition : EndpointDefinition}

mutual

theorem nodeSafe_elsewhere {scope : Scope} {path : String} {inArray : Bool}
    (hregion : scope.region ≠ .submit) : (node : Node) →
    (scanNode definition node path scope inArray).errors = [] → nodeSafe node none = true
  | .leaf _, _ => rfl
  | .text _, _ => rfl
  | .list items, hscan => by
      rw [scanNode] at hscan
      exact itemsSafe_elsewhere hregion items hscan
  | .object fields, hscan => by
      rw [scanNode] at hscan
      exact fieldsSafe_elsewhere hregion fields hscan

theorem itemsSafe_elsewhere {scope : Scope} {path : String} {index : ℕ}
    (hregion : scope.region ≠ .submit) : (items : Nodes) →
    (scanItems definition items path scope index).errors = [] → itemsSafe items none = true
  | .nil, _ => rfl
  | .cons item rest, hscan => by
      rw [scanItems, errors_append, List.append_eq_nil_iff] at hscan
      rw [itemsSafe, Bool.and_eq_true]
      refine ⟨?_, itemsSafe_elsewhere hregion rest hscan.2⟩
      split
      · exact eachItemsSafe_elsewhere hregion item hscan.1
      · exact nodeSafe_elsewhere hregion item hscan.1

theorem eachItemsSafe_elsewhere {scope : Scope} {path : String} {inArray : Bool}
    (hregion : scope.region ≠ .submit) : (item : Node) →
    (scanNode definition item path scope inArray).errors = [] → eachItemsSafe item none = true
  | .leaf _, _ => rfl
  | .text _, _ => rfl
  | .list _, _ => rfl
  | .object fields, hscan => by
      rw [scanNode] at hscan
      exact eachFieldsSafe_elsewhere hregion fields hscan

theorem eachFieldsSafe_elsewhere {scope : Scope} {path : String} {inArray : Bool}
    (hregion : scope.region ≠ .submit) : (fields : Fields) →
    (scanFields definition fields path scope inArray).errors = [] →
    eachFieldsSafe fields none = true
  | .nil, _ => rfl
  | .guard _ rest, hscan => by
      rw [scanFields, errors_append, List.append_eq_nil_iff] at hscan
      exact eachFieldsSafe_elsewhere hregion rest hscan.2
  | .field _ _ rest, hscan => by
      rw [scanFields, errors_append, List.append_eq_nil_iff] at hscan
      exact eachFieldsSafe_elsewhere hregion rest hscan.2
  | .eachItem .., hscan => by
      simp only [scanFields, errors_append, List.append_eq_nil_iff] at hscan
      exact absurd (eachHead_of_scan hscan.1.1).2.2 hregion
  | .eachPair .., _ => rfl

theorem fieldsSafe_elsewhere {scope : Scope} {path : String} {inArray : Bool}
    (hregion : scope.region ≠ .submit) : (fields : Fields) →
    (scanFields definition fields path scope inArray).errors = [] → fieldsSafe fields none = true
  | .nil, _ => rfl
  | .guard _ rest, hscan => by
      rw [scanFields, errors_append, List.append_eq_nil_iff] at hscan
      exact fieldsSafe_elsewhere hregion rest hscan.2
  | .eachItem .., _ => rfl
  | .eachPair .., hscan => by
      simp only [scanFields, errors_append, List.append_eq_nil_iff] at hscan
      exact absurd (eachHead_of_scan hscan.1.1.1).2.2 hregion
  | .field _ value rest, hscan => by
      rw [scanFields, errors_append, List.append_eq_nil_iff] at hscan
      rw [fieldsSafe, Bool.and_eq_true]
      exact ⟨nodeSafe_elsewhere hregion value hscan.1, fieldsSafe_elsewhere hregion rest hscan.2⟩

end

end Elsewhere

section Requests

variable {library : PythonLibrary} {definition : EndpointDefinition} {context : Context}
  {region : Section}

theorem Provides.serves (h : Provides definition region context) :
    Serves definition { region } none context := by
  refine ⟨fun name hname hdot => ?_, fun _ => h.inputs, fun _ hshadow => by cases hshadow⟩
  cases hname with
  | credential => exact h.credential
  | taskId hregion => exact h.taskId hregion
  | resultId hregion hextract => exact h.resultId hregion hextract
  | loop hlocal => exact absurd hlocal List.not_mem_nil
  | builtin hname => exact h.builtin name hname
  | input hname =>
      refine absurd ?_ hdot
      rw [String.toList_append]
      exact List.mem_append_left _ (by decide)

theorem Provides.auth (h : Provides definition region context) :
    Provides definition .auth context := by
  refine ⟨h.credential, h.builtin, ?_, ?_, ?_⟩
  · rintro (h | h) <;> cases h
  · intro h
    cases h
  · intro h
    cases h

theorem requests_safe (haccepted : Accepted definition library)
    (hvisible : InputsVisible definition) {request : RequestTemplate}
    (hrequest : (region, request) ∈ requests definition) :
    ∀ body ∈ request.body, nodeSafe body none = true := by
  intro body hbody
  by_cases hregion : region = .submit
  · subst hregion
    rcases List.mem_cons.mp hrequest with hsubmit | hlater
    · cases hsubmit
      exact hvisible body hbody
    rcases List.mem_cons.mp hlater with hpoll | hresult
    · cases hpoll
    obtain ⟨_, -, heq⟩ := Option.map_eq_some_iff.mp (Option.mem_toList.mp hresult)
    cases heq
  · exact nodeSafe_elsewhere hregion body ((request_of_accepted haccepted hrequest).2.2 body hbody)

theorem renderTable_auth_sound (haccepted : Accepted definition library)
    (hserves : Serves definition { region := .auth } none context)
    {entries : List (String × String)}
    (h : ∀ entry ∈ entries, ∃ path, (path, entry.2) ∈ authTemplates definition.auth) :
    Raises (¬ Unbound ·) (renderTable library definition.enumMaps context entries) := by
  refine renderTable_sound fun entry hentry => renderString_sound fun name hname => ?_
  obtain ⟨path, hpath⟩ := h entry hentry
  exact lookup_of_readable hserves (plain_of_region _) (auth_of_accepted haccepted hpath hname) rfl

theorem renderingSound_of_visible (haccepted : Accepted definition library)
    (hvisible : InputsVisible definition) : RenderingSound definition library := by
  intro region request hrequest context hprovides
  obtain ⟨hurl, hheaders, hbody⟩ := request_of_accepted haccepted hrequest
  have hserves := hprovides.serves
  have hplain := plain_of_region region
  have hbodies : ∀ body ∈ request.body,
      Raises (¬ Unbound ·) (renderNode library definition.enumMaps body context) :=
    fun body hsome => renderNode_sound body hplain (hbody body hsome)
      (requests_safe haccepted hvisible hrequest body hsome) hserves
  refine ⟨?_, hbodies⟩
  unfold renderRequest
  refine (template_sound hplain hurl rfl hserves).bind fun url _ => ?_
  split
  · refine Raises.bind (renderTable_sound fun header hheader => ?_) fun _ _ => ?_
    · exact template_sound hplain (hheaders header (List.mem_filter.mp hheader).1) rfl hserves
    have hauth := hprovides.auth.serves
    refine (renderTable_auth_sound haccepted hauth fun entry hentry => ?_).bind fun _ _ => ?_
    · exact ⟨_, List.mem_append_left _ (List.mem_map.mpr ⟨entry, hentry, rfl⟩)⟩
    refine (renderTable_auth_sound haccepted hauth fun entry hentry => ?_).bind fun _ _ => ?_
    · exact ⟨_, List.mem_append_right _ (List.mem_map.mpr ⟨entry, hentry, rfl⟩)⟩
    refine (appendAuthQuery_sound _ _).bind fun _ _ => ?_
    cases hsome : request.body with
    | none => exact Raises.ok _
    | some body => exact (hbodies body hsome).bind fun _ _ => Raises.ok _
  · exact Raises.error fun h => h

end Requests

end ShortReel.TemplateSoundness
