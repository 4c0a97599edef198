import ShortReel.TemplateNames

/-!
# The key stays in the auth section

Two contexts that differ in `api_key` only render every template of an accepted definition outside its
auth section the same.
-/

namespace ShortReel.TemplateSecrets

open TemplateEngine EndpointValidator TemplateNames

/-- The contexts give every name but `api_key` the same value. -/
def AgreeOffKey (first second : Context) : Prop :=
  ∀ name, name ≠ "api_key" → first.lookup name = second.lookup name

theorem AgreeOffKey.cons {first second : Context} (h : AgreeOffKey first second) (name : String)
    (value : Value) : AgreeOffKey ((name, value) :: first) ((name, value) :: second) := by
  intro other hother
  rw [List.lookup_cons, List.lookup_cons, h other hother]

section Agree

variable {library : PythonLibrary} {enumMaps : EnumMaps} {definition : EndpointDefinition}
  {first second : Context}

theorem lookup_agree (h : AgreeOffKey first second) {name : String}
    (hname : firstPart name ≠ "api_key") : lookup first name = lookup second name := by
  obtain ⟨later, hpath⟩ := namePath_eq name
  unfold lookup
  rw [hpath, lookupPath, lookupPath, h _ hname]

theorem firstPart_ne_of_readable {scope : Scope} (hscope : Plain scope)
    (hregion : scope.region ≠ .auth) {name : String} (h : Readable definition scope name) :
    firstPart name ≠ "api_key" := by
  cases h with
  | credential hauth => exact absurd hauth hregion
  | taskId => decide
  | resultId => decide
  | loop hlocal hkey => rwa [firstPart_of_undotted (hscope _ hlocal)]
  | builtin hname =>
      rw [firstPart_of_undotted (variables_undotted _ _ hname)]
      rintro rfl
      cases hmedia : definition.mediaType <;> rw [hmedia] at hname <;> revert hname <;> decide
  | input => rw [firstPart_inputs]; decide

theorem resolve_agree (h : AgreeOffKey first second) {name : String}
    (hname : firstPart name ≠ "api_key") :
    resolve library enumMaps name first = resolve library enumMaps name second := by
  unfold resolve
  rw [lookup_agree h hname]

theorem renderParts_agree (h : AgreeOffKey first second) {parts : List Part}
    (hnames : ∀ name ∈ parts.filterMap Part.variableName, firstPart name ≠ "api_key") :
    renderParts library enumMaps first parts = renderParts library enumMaps second parts := by
  induction parts with
  | nil => rfl
  | cons part parts ih =>
      have hpart : renderPart library enumMaps first part = renderPart library enumMaps second part := by
        cases part with
        | char c => rfl
        | placeholder name =>
            rw [renderPart, renderPart, resolve_agree h (hnames name (by simp [Part.variableName]))]
      rw [renderParts, renderParts, hpart, ih fun name hname => hnames name ?_]
      rw [List.filterMap_cons]
      split
      · exact hname
      · exact List.mem_cons_of_mem _ hname

theorem renderString_agree (h : AgreeOffKey first second) {template : String}
    (hnames : ∀ name ∈ placeholderNames template, firstPart name ≠ "api_key") :
    renderString library enumMaps template first = renderString library enumMaps template second := by
  unfold renderString
  split
  · rename_i name hwhole
    rw [resolve_agree h (hnames name (wholePlaceholder_mem hwhole))]
  · rw [renderParts_agree h hnames]

theorem eachValues_agree (h : AgreeOffKey first second) (head : EachHead) :
    eachValues head first = eachValues head second := by
  have hsource : firstPart head.source ≠ "api_key" := by
    rw [EachHead.source, firstPart_inputs]
    decide
  rw [eachValues, lookup_agree h hsource, eachValues]

theorem guardHolds_agree (h : AgreeOffKey first second) (fields : Fields) :
    guardHolds fields first = guardHolds fields second := by
  unfold guardHolds inputPresent
  rw [h "inputs" (by decide)]

theorem eachScope_agree (h : AgreeOffKey first second) (head : EachHead) (index : ℕ) (value : Value) :
    AgreeOffKey (eachScope head first index value) (eachScope head second index value) :=
  (h.cons _ _).cons _ _

theorem eachRound_agree {β : Type} {render : Context → Except RenderError β}
    (hrender : ∀ first second, AgreeOffKey first second → render first = render second)
    (h : AgreeOffKey first second) (head : EachHead) (index : ℕ) (values : List Value) :
    eachRound render head first index values = eachRound render head second index values := by
  induction values generalizing index with
  | nil => rfl
  | cons value values ih =>
      rw [eachRound, eachRound, hrender _ _ (eachScope_agree h head index value), ih]

theorem scanTemplate_agree {scope : Scope} {path template : String} (hscope : Plain scope)
    (hregion : scope.region ≠ .auth)
    (hscan : (scanTemplate definition template path scope).errors = [])
    (h : AgreeOffKey first second) :
    renderString library enumMaps template first = renderString library enumMaps template second :=
  renderString_agree h fun _ hname =>
    firstPart_ne_of_readable hscope hregion (readable_of_scanTemplate hscan hname)

end Agree

section Nodes

variable {library : PythonLibrary} {enumMaps : EnumMaps} {definition : EndpointDefinition}

mutual

theorem renderNode_agree {first second : Context} {scope : Scope} {path : String}
    {inArray : Bool} : (node : Node) → Plain scope → scope.region ≠ .auth →
    (scanNode definition node path scope inArray).errors = [] → AgreeOffKey first second →
    renderNode library enumMaps node first = renderNode library enumMaps node second
  | .leaf _, _, _, _, _ => rfl
  | .text template, hscope, hregion, hscan, h => by
      rw [scanNode] at hscan
      rw [renderNode, renderNode, scanTemplate_agree hscope hregion hscan h]
  | .list items, hscope, hregion, hscan, h => by
      rw [scanNode] at hscan
      rw [renderNode, renderNode, renderItems_agree items hscope hregion hscan h]
  | .object fields, hscope, hregion, hscan, h => by
      rw [scanNode] at hscan
      rw [renderNode, renderNode, guardHolds_agree h, renderFields_agree fields hscope hregion hscan h]

theorem renderItems_agree {first second : Context} {scope : Scope} {path : String}
    {index : ℕ} : (items : Nodes) → Plain scope → scope.region ≠ .auth →
    (scanItems definition items path scope index).errors = [] → AgreeOffKey first second →
    renderItems library enumMaps items first = renderItems library enumMaps items second
  | .nil, _, _, _, _ => rfl
  | .cons item rest, hscope, hregion, hscan, h => by
      rw [scanItems, errors_append, List.append_eq_nil_iff] at hscan
      rw [renderItems, renderItems, renderEachItems_agree item hscope hregion hscan.1 h,
        renderNode_agree item hscope hregion hscan.1 h,
        renderItems_agree rest hscope hregion hscan.2 h]

theorem renderEachItems_agree {first second : Context} {scope : Scope} {path : String}
    {inArray : Bool} : (item : Node) → Plain scope →
    scope.region ≠ .auth → (scanNode definition item path scope inArray).errors = [] →
    AgreeOffKey first second →
    renderEachItems library enumMaps item first = renderEachItems library enumMaps item second
  | .leaf _, _, _, _, _ => rfl
  | .text _, _, _, _, _ => rfl
  | .list _, _, _, _, _ => rfl
  | .object fields, hscope, hregion, hscan, h => by
      rw [scanNode] at hscan
      rw [renderEachItems, renderEachItems, guardHolds_agree h,
        renderEachFields_agree fields hscope hregion hscan h]

theorem renderEachFields_agree {first second : Context} {scope : Scope} {path : String}
    {inArray : Bool} : (fields : Fields) → Plain scope →
    scope.region ≠ .auth → (scanFields definition fields path scope inArray).errors = [] →
    AgreeOffKey first second →
    renderEachFields library enumMaps fields first = renderEachFields library enumMaps fields second
  | .nil, _, _, _, _ => rfl
  | .guard _ rest, hscope, hregion, hscan, h => by
      rw [scanFields, errors_append, List.append_eq_nil_iff] at hscan
      exact renderEachFields_agree rest hscope hregion hscan.2 h
  | .field _ _ rest, hscope, hregion, hscan, h => by
      rw [scanFields, errors_append, List.append_eq_nil_iff] at hscan
      exact renderEachFields_agree rest hscope hregion hscan.2 h
  | .eachItem head item _, hscope, hregion, hscan, h => by
      simp only [scanFields, errors_append, List.append_eq_nil_iff] at hscan
      have hitem : ∀ first second, AgreeOffKey first second →
          renderNode library enumMaps item first = renderNode library enumMaps item second :=
        fun _ _ h => renderNode_agree item (hscope.inside head) hregion hscan.1.2 h
      rw [renderEachFields, renderEachFields, eachValues_agree h]
      simp only [eachRound_agree hitem h]
  | .eachPair head .., _, _, _, h => by
      rw [renderEachFields, renderEachFields, eachValues_agree h]

theorem renderFields_agree {first second : Context} {scope : Scope} {path : String}
    {inArray : Bool} : (fields : Fields) → Plain scope →
    scope.region ≠ .auth → (scanFields definition fields path scope inArray).errors = [] →
    AgreeOffKey first second →
    renderFields library enumMaps fields first = renderFields library enumMaps fields second
  | .nil, _, _, _, _ => rfl
  | .guard _ rest, hscope, hregion, hscan, h => by
      rw [scanFields, errors_append, List.append_eq_nil_iff] at hscan
      exact renderFields_agree rest hscope hregion hscan.2 h
  | .eachItem head _ _, _, _, _, h => by
      rw [renderFields, renderFields, eachValues_agree h]
  | .eachPair head key value rest, hscope, hregion, hscan, h => by
      simp only [scanFields, errors_append, List.append_eq_nil_iff] at hscan
      have hinside := hscope.inside head
      have hpair : ∀ first second, AgreeOffKey first second →
          (do
            let key ← renderString library enumMaps key first
            return renderPair library key (← renderNode library enumMaps value first)) =
          (do
            let key ← renderString library enumMaps key second
            return renderPair library key (← renderNode library enumMaps value second)) := by
        intro first second h
        rw [scanTemplate_agree hinside hregion hscan.1.1.2 h,
          renderNode_agree value hinside hregion hscan.1.2 h]
      rw [renderFields, renderFields, eachValues_agree h,
        renderFields_agree rest hscope hregion hscan.2 h]
      simp only [eachRound_agree hpair h]
  | .field key value rest, hscope, hregion, hscan, h => by
      rw [scanFields, errors_append, List.append_eq_nil_iff] at hscan
      rw [renderFields, renderFields, renderNode_agree value hscope hregion hscan.1 h,
        renderFields_agree rest hscope hregion hscan.2 h]

end

end Nodes

def Alike {α : Type} (related : α → α → Prop) : Except RenderError α → Except RenderError α → Prop
  | .ok first, .ok second => related first second
  | .error first, .error second => first = second
  | _, _ => False

theorem Alike.bind {α β : Type} {related : α → α → Prop} {next : β → β → Prop}
    {first second : Except RenderError α} {f g : α → Except RenderError β}
    (h : Alike related first second) (hnext : ∀ a b, related a b → Alike next (f a) (g b)) :
    Alike next (first >>= f) (second >>= g) := by
  cases first <;> cases second
  · exact h
  · cases h
  · cases h
  · exact hnext _ _ h

theorem Alike.bind_same {α β : Type} {next : β → β → Prop} {result : Except RenderError α}
    {f g : α → Except RenderError β} (h : ∀ a, Alike next (f a) (g a)) :
    Alike next (result >>= f) (result >>= g) := by
  cases result
  · rfl
  · exact h _

theorem Alike.results {α : Type} {related : α → α → Prop} {first second : Except RenderError α}
    (h : Alike related first second) :
    Alike (fun a b => related a b ∧ first = .ok a ∧ second = .ok b) first second := by
  cases first <;> cases second
  · exact h
  · exact h
  · exact h
  · exact ⟨h, rfl, rfl⟩

theorem Alike.of_eq {α : Type} {related : α → α → Prop} {first second : Except RenderError α}
    (h : first = second) (hrefl : ∀ a, related a a) : Alike related first second := by
  subst h
  cases first
  · rfl
  · exact hrefl _

section Auth

variable {library : PythonLibrary} {enumMaps : EnumMaps} {definition : EndpointDefinition}
  {context : Context} {first second : String}

def withKey (key : String) (context : Context) : Context :=
  ("api_key", .string key) :: context

theorem agreeOffKey_withKey : AgreeOffKey (withKey first context) (withKey second context) := by
  intro name hname
  have hbeq : (name == "api_key") = false := by simpa using hname
  rw [withKey, withKey, List.lookup_cons, List.lookup_cons, hbeq]

def SameNull : Value → Value → Prop
  | .null, .null => True
  | .null, _ => False
  | _, .null => False
  | _, _ => True

theorem SameNull.refl (value : Value) : SameNull value value := by
  cases value <;> trivial

theorem resolve_auth (henum : enumMaps.lookup "api_key" = none) {name : String}
    (hname : Readable definition { region := .auth } name) :
    Alike SameNull (resolve library enumMaps name (withKey first context))
      (resolve library enumMaps name (withKey second context)) := by
  by_cases hkey : name = "api_key"
  · subst hkey
    have hresolve : ∀ key, resolve library enumMaps "api_key" (withKey key context) =
        .ok (.string key) := by
      intro key
      have hpath : namePath "api_key" = ["api_key"] := namePath_of_undotted (by decide)
      simp [resolve, lookup, hpath, lookupPath, withKey, henum]
    rw [hresolve, hresolve]
    trivial
  · refine Alike.of_eq (resolve_agree agreeOffKey_withKey ?_) SameNull.refl
    cases hname with
    | credential => exact absurd rfl hkey
    | taskId hregion => simp at hregion
    | resultId hregion => cases hregion
    | loop hlocal => cases hlocal
    | builtin hname => rwa [firstPart_of_undotted (variables_undotted _ _ hname)]
    | input _ hregion => cases hregion

theorem renderParts_auth (henum : enumMaps.lookup "api_key" = none) {parts : List Part}
    (hnames : ∀ name ∈ parts.filterMap Part.variableName,
      Readable definition { region := .auth } name) :
    Alike (fun _ _ => True) (renderParts library enumMaps (withKey first context) parts)
      (renderParts library enumMaps (withKey second context) parts) := by
  induction parts with
  | nil => trivial
  | cons part parts ih =>
      have hrest := ih fun name hname => hnames name (by
        rw [List.filterMap_cons]
        split
        · exact hname
        · exact List.mem_cons_of_mem _ hname)
      have hpart : Alike (fun _ _ => True)
          (renderPart library enumMaps (withKey first context) part)
          (renderPart library enumMaps (withKey second context) part) := by
        cases part with
        | char c => trivial
        | placeholder name =>
            rw [renderPart, renderPart]
            refine (resolve_auth henum (hnames name (by simp [Part.variableName]))).bind ?_
            intro a b hnull
            cases a <;> cases b <;> first | exact hnull.elim | trivial
      rw [renderParts, renderParts]
      exact hpart.bind fun _ _ _ => hrest.bind fun _ _ _ => trivial

theorem renderString_auth (henum : enumMaps.lookup "api_key" = none) {template : String}
    (hnames : ∀ name ∈ placeholderNames template, Readable definition { region := .auth } name) :
    Alike (fun a b => a.isSome = b.isSome)
      (renderString library enumMaps template (withKey first context))
      (renderString library enumMaps template (withKey second context)) := by
  unfold renderString
  split
  · rename_i name hwhole
    refine (resolve_auth henum (hnames name (wholePlaceholder_mem hwhole))).bind ?_
    intro a b hnull
    cases a <;> cases b <;> first | exact hnull.elim | rfl
  · exact (renderParts_auth henum hnames).bind fun _ _ _ => rfl

theorem renderTable_auth (henum : enumMaps.lookup "api_key" = none)
    {entries : List (String × String)}
    (hnames : ∀ entry ∈ entries, ∀ name ∈ placeholderNames entry.2,
      Readable definition { region := .auth } name) :
    Alike (fun a b => a.map (·.1) = b.map (·.1))
      (renderTable library enumMaps (withKey first context) entries)
      (renderTable library enumMaps (withKey second context) entries) := by
  induction entries with
  | nil => rfl
  | cons entry entries ih =>
      rw [renderTable, renderTable]
      refine (renderString_auth henum (hnames entry List.mem_cons_self)).bind fun a b hsome => ?_
      refine (ih fun other hother => hnames other (List.mem_cons_of_mem _ hother)).bind ?_
      intro later later' hlater
      cases a <;> cases b
      · exact hlater
      · cases hsome
      · cases hsome
      · exact congrArg (entry.1 :: ·) hlater

theorem assign_names {α β : Type} {fields : List (String × α)} {others : List (String × β)}
    (h : fields.map (·.1) = others.map (·.1)) (key : String) (value : α) (other : β) :
    (assign fields key value).map (·.1) = (assign others key other).map (·.1) := by
  have hkept : ∀ {γ : Type} (fields : List (String × γ)) (value : γ),
      (assign fields key value).map (·.1) =
        if key ∈ fields.map (·.1) then fields.map (·.1) else fields.map (·.1) ++ [key] := by
    intro γ fields value
    unfold assign
    by_cases hin : key ∈ fields.map (·.1)
    · have hany : fields.any (·.1 = key) = true := by
        obtain ⟨field, hfield, hkey⟩ := List.mem_map.mp hin
        exact List.any_eq_true.mpr ⟨field, hfield, decide_eq_true hkey⟩
      rw [if_pos hany, if_pos hin, List.map_map]
      refine List.map_congr_left fun field _ => ?_
      by_cases hkey : field.1 = key <;> simp [hkey]
    · have hany : ¬ fields.any (·.1 = key) = true := by
        intro hany
        obtain ⟨field, hfield, hkey⟩ := List.any_eq_true.mp hany
        exact hin (List.mem_map.mpr ⟨field, hfield, of_decide_eq_true hkey⟩)
      rw [if_neg hany, if_neg hin, List.map_append]
      rfl
  rw [hkept, hkept, h]

theorem assignAll_names {fields others assignments later : List (String × String)}
    (hfields : fields.map (·.1) = others.map (·.1))
    (h : assignments.map (·.1) = later.map (·.1)) :
    (assignAll fields assignments).map (·.1) = (assignAll others later).map (·.1) := by
  induction assignments generalizing fields others later with
  | nil =>
      obtain rfl : later = [] := by simpa using h.symm
      exact hfields
  | cons assignment assignments ih =>
      cases later with
      | nil => cases h
      | cons entry later =>
          obtain ⟨hkey, hrest⟩ := List.cons.inj h
          have hstep : (assign fields assignment.1 assignment.2).map (·.1) =
              (assign others entry.1 entry.2).map (·.1) := by
            rw [show assignment.1 = entry.1 from hkey]
            exact assign_names hfields _ _ _
          have hall := ih hstep hrest
          exact hall

theorem filter_assign {keep : String → Bool} {fields : List (String × String)} {key value : String}
    (h : keep key = false) :
    (assign fields key value).filter (keep ·.1) = fields.filter (keep ·.1) := by
  unfold assign
  split
  · induction fields with
    | nil => rfl
    | cons field fields ih =>
        have hrest : (fields.map fun field => if field.1 = key then (key, value) else field).filter
            (keep ·.1) = fields.filter (keep ·.1) := by
          by_cases hany : fields.any (·.1 = key) = true
          · exact ih hany
          · refine congrArg (List.filter _) ((List.map_congr_left fun other hother => ?_).trans
              (List.map_id fields))
            refine if_neg fun heq => hany ?_
            exact List.any_eq_true.mpr ⟨other, hother, decide_eq_true heq⟩
        rw [List.map_cons, List.filter_cons, List.filter_cons, hrest]
        by_cases hkey : field.1 = key
        · simp [hkey, h]
        · simp [hkey]
  · simp [h]

theorem filter_assignAll {keep : String → Bool} {fields assignments : List (String × String)}
    (h : ∀ assignment ∈ assignments, keep assignment.1 = false) :
    (assignAll fields assignments).filter (keep ·.1) = fields.filter (keep ·.1) := by
  induction assignments generalizing fields with
  | nil => rfl
  | cons assignment assignments ih =>
      exact (ih fun other hother => h other (List.mem_cons_of_mem _ hother)).trans
        (filter_assign (h assignment List.mem_cons_self))

theorem appendAuthQuery_alike {url : String} {query later : List (String × String)}
    (h : query.map (·.1) = later.map (·.1)) :
    Alike (fun a b => appendAuthQuery library url query = .ok a ∧
        appendAuthQuery library url later = .ok b)
      (appendAuthQuery library url query) (appendAuthQuery library url later) := by
  have hempty : query.isEmpty = later.isEmpty := by
    rw [← List.isEmpty_map (f := (·.1)), h, List.isEmpty_map]
  unfold appendAuthQuery
  rw [hempty, h]
  split
  · exact ⟨rfl, rfl⟩
  · split
    · rfl
    · dsimp only
      split
      · rfl
      · exact ⟨rfl, rfl⟩

theorem renderTable_keys {entries rendered : List (String × String)}
    (h : renderTable library enumMaps context entries = .ok rendered) :
    ∀ pair ∈ rendered, pair.1 ∈ entries.map (·.1) := by
  induction entries generalizing rendered with
  | nil =>
      cases h
      exact fun _ hpair => absurd hpair List.not_mem_nil
  | cons entry entries ih =>
      rw [renderTable] at h
      cases hvalue : renderString library enumMaps entry.2 context with
      | error raised => rw [hvalue] at h; cases h
      | ok value =>
          cases hlater : renderTable library enumMaps context entries with
          | error raised => rw [hvalue, hlater] at h; cases h
          | ok later =>
              rw [hvalue, hlater] at h
              cases h
              intro pair hpair
              rcases List.mem_append.mp hpair with hhere | hthere
              · rw [Option.mem_toList, Option.map_eq_some_iff] at hhere
                obtain ⟨_, -, rfl⟩ := hhere
                exact List.mem_cons_self
              · exact List.mem_cons_of_mem _ (ih hlater pair hthere)

theorem apiKey_unmapped (h : Accepted definition library) :
    definition.enumMaps.lookup "api_key" = none := by
  rw [List.lookup_eq_none_iff]
  rintro ⟨name, mapping⟩ hentry
  have hallowed := enumMapVariable_of_accepted h hentry
  have hne : name ≠ "api_key" := by
    rintro rfl
    cases hmedia : definition.mediaType <;> rw [hmedia] at hallowed <;> revert hallowed <;> decide
  simpa using hne.symm

theorem auth_headers_readable (h : Accepted definition library) :
    ∀ entry ∈ definition.auth.headers, ∀ name ∈ placeholderNames entry.2,
      Readable definition { region := .auth } name := by
  intro entry hentry name hname
  have hmem : (joinPath (joinPath "auth" "headers") entry.1, entry.2) ∈
      authTemplates definition.auth :=
    List.mem_append_left _ (List.mem_map.mpr ⟨entry, hentry, rfl⟩)
  exact auth_of_accepted h hmem hname

theorem auth_query_readable (h : Accepted definition library) :
    ∀ entry ∈ definition.auth.query, ∀ name ∈ placeholderNames entry.2,
      Readable definition { region := .auth } name := by
  intro entry hentry name hname
  have hmem : (joinPath (joinPath "auth" "query") entry.1, entry.2) ∈
      authTemplates definition.auth :=
    List.mem_append_right _ (List.mem_map.mpr ⟨entry, hentry, rfl⟩)
  exact auth_of_accepted h hmem hname

theorem renderTable_agree {entries : List (String × String)} {first second : Context}
    (h : ∀ entry ∈ entries, renderString library enumMaps entry.2 first =
      renderString library enumMaps entry.2 second) :
    renderTable library enumMaps first entries = renderTable library enumMaps second entries := by
  induction entries with
  | nil => rfl
  | cons entry entries ih =>
      rw [renderTable, renderTable, h entry List.mem_cons_self,
        ih fun other hother => h other (List.mem_cons_of_mem _ hother)]

def notAuth (auth : AuthTemplates) (name : String) : Bool :=
  name.toLower ∉ auth.headers.map (·.1.toLower)

/-- Two requests that differ in the values of the auth section only. -/
structure SameOffAuth (library : PythonLibrary) (auth : AuthTemplates)
    (first second : RenderedRequest) : Prop where
  method : first.method = second.method
  url : ∃ url, appendAuthQuery library url first.authQuery = .ok first.url ∧
    appendAuthQuery library url second.authQuery = .ok second.url
  headers : first.headers.filter (notAuth auth ·.1) = second.headers.filter (notAuth auth ·.1)
  body : first.body = second.body

theorem filter_authHeaders {auth : AuthTemplates} {headers rendered : List (String × String)}
    (h : renderTable library enumMaps context auth.headers = .ok rendered) :
    (assignAll headers rendered).filter (notAuth auth ·.1) = headers.filter (notAuth auth ·.1) := by
  refine filter_assignAll fun pair hpair => decide_eq_false ?_
  obtain ⟨entry, hentry, heq⟩ := List.mem_map.mp (renderTable_keys h pair hpair)
  exact not_not.mpr (List.mem_map.mpr ⟨entry, hentry, congrArg String.toLower heq⟩)

/-- The key of an accepted definition reaches the auth section of a request and nothing else. -/
theorem key_only_in_auth (h : Accepted definition library) {region : Section}
    {request : RequestTemplate} (hrequest : (region, request) ∈ requests definition)
    (context : Context) (first second : String) :
    Alike (SameOffAuth library definition.auth)
      (renderRequest library definition.enumMaps request definition.auth (withKey first context))
      (renderRequest library definition.enumMaps request definition.auth
        (withKey second context)) := by
  obtain ⟨hurl, hheaders, hbody⟩ := request_of_accepted h hrequest
  have hregion := region_of_request hrequest
  have hagree : AgreeOffKey (withKey first context) (withKey second context) :=
    agreeOffKey_withKey
  have hown : renderTable library definition.enumMaps (withKey first context)
        (ownHeaders request.headers definition.auth.headers) =
      renderTable library definition.enumMaps (withKey second context)
        (ownHeaders request.headers definition.auth.headers) :=
    renderTable_agree fun header hheader => scanTemplate_agree (plain_of_region region) hregion
      (hheaders header (List.mem_filter.mp hheader).1) hagree
  unfold renderRequest
  rw [scanTemplate_agree (plain_of_region region) hregion hurl hagree, hown]
  refine Alike.bind_same fun url => ?_
  split
  · rename_i url
    refine Alike.bind_same fun headers => ?_
    refine (renderTable_auth (apiKey_unmapped h) (auth_headers_readable h)).results.bind ?_
    rintro authHeaders authHeaders' ⟨-, hfirst, hsecond⟩
    refine (renderTable_auth (apiKey_unmapped h) (auth_query_readable h)).bind ?_
    intro authQuery authQuery' hnames
    refine (appendAuthQuery_alike (assignAll_names rfl hnames)).bind ?_
    rintro url₁ url₂ hurls
    have hkept : ∀ headers : List (String × String),
        (assignAll headers authHeaders).filter (notAuth definition.auth ·.1) =
          (assignAll headers authHeaders').filter (notAuth definition.auth ·.1) := by
      intro headers
      rw [filter_authHeaders hfirst, filter_authHeaders hsecond]
    cases hsome : request.body with
    | none => exact ⟨rfl, ⟨url, hurls⟩, hkept _, rfl⟩
    | some body =>
        dsimp only
        rw [renderNode_agree body (plain_of_region region) hregion (hbody body hsome) hagree]
        exact Alike.bind_same fun body => ⟨rfl, ⟨url, hurls⟩, hkept _, rfl⟩
  · rfl

end Auth

def sampleDefinition : EndpointDefinition :=
  { auth := { headers := [("Authorization", "Bearer \x7b\x7b api_key \x7d\x7d")] }
    submit := { method := "POST", url := "\x7b\x7bbase_url\x7d\x7d/v1",
                body := some (.object (.field "prompt" (.text "\x7b\x7bprompt\x7d\x7d") .nil)) }
    poll := { method := "GET", url := "\x7b\x7bbase_url\x7d\x7d/v1/\x7b\x7btask_id\x7d\x7d" } }

theorem sampleDefinition_accepted : Accepted sampleDefinition sampleLibrary := by
  decide +kernel

def sampleContext : Context :=
  [("base_url", .string "https://host"), ("prompt", .string "rain")]

theorem key_only_in_auth_submit :
    Alike (SameOffAuth sampleLibrary sampleDefinition.auth)
      (renderRequest sampleLibrary sampleDefinition.enumMaps sampleDefinition.submit
        sampleDefinition.auth (withKey "first" sampleContext))
      (renderRequest sampleLibrary sampleDefinition.enumMaps sampleDefinition.submit
        sampleDefinition.auth (withKey "second" sampleContext)) := by
  have hrequest : (Section.submit, sampleDefinition.submit) ∈ requests sampleDefinition :=
    List.mem_cons_self
  exact key_only_in_auth sampleDefinition_accepted hrequest sampleContext "first" "second"

end ShortReel.TemplateSecrets
