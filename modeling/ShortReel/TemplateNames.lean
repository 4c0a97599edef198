import ShortReel.EndpointValidator
import Mathlib.Data.List.TakeWhile

/-!
# Names in templates

What the validator and the engine take a placeholder for is the same: both find it with one scan, and
the parts of an accepted name are known.
-/

namespace ShortReel.TemplateNames

open TemplateEngine EndpointValidator

theorem matchPlaceholder_space {c : Char} {rest : List Char} (h : isSpace c) :
    matchPlaceholder (c :: rest) = none := by
  have hbrace : c ≠ '{' := by
    rintro rfl
    exact absurd h (by decide)
  unfold matchPlaceholder
  split
  · rename_i heq
    exact absurd (List.cons.inj heq).1 hbrace
  · rfl

theorem scanName_suffix (chars : List Char) : (scanName chars).2 <:+ chars := by
  fun_induction scanName chars with
  | case1 => exact List.suffix_rfl
  | case2 c h => exact List.nil_suffix
  | case3 c h => exact List.suffix_rfl
  | case4 c d rest h scanned ih => exact ih.trans (List.suffix_cons c _)
  | case5 c d rest h => exact List.suffix_rfl

theorem matchPlaceholder_suffix {c : Char} {rest after : List Char} {name : String}
    (h : matchPlaceholder (c :: rest) = some (name, after)) : after <:+ rest := by
  unfold matchPlaceholder at h
  split at h
  · rename_i tail heq
    obtain ⟨-, rfl⟩ := List.cons.inj heq
    split at h
    · rename_i start inner hopen
      split at h
      · dsimp only at h
        split at h
        · rename_i closing hclose
          obtain ⟨-, rfl⟩ := Prod.mk.inj (Option.some.inj h)
          have hinner : start :: inner <:+ tail := hopen ▸ List.dropWhile_suffix _
          have hclosing : '}' :: '}' :: closing <:+ (scanName inner).2 :=
            hclose ▸ List.dropWhile_suffix _
          have hafter : closing <:+ '}' :: '}' :: closing :=
            (List.suffix_cons _ _).trans (List.suffix_cons _ _)
          exact ((((hafter.trans hclosing).trans (scanName_suffix inner)).trans
            (List.suffix_cons _ _)).trans hinner).trans (List.suffix_cons _ _)
        · cases h
      · cases h
    · cases h
  · cases h

theorem partsFrom_skip (skip : ℕ) (chars : List Char) :
    partsFrom skip chars = partsFrom 0 (chars.drop skip) := by
  induction chars generalizing skip with
  | nil => simp [partsFrom]
  | cons c rest ih =>
      cases skip with
      | zero => rfl
      | succ skip => exact ih skip

theorem partsFrom_match {c : Char} {rest after : List Char} {name : String}
    (h : matchPlaceholder (c :: rest) = some (name, after)) :
    partsFrom 0 (c :: rest) = .placeholder name :: partsFrom 0 after := by
  have hdrop := List.suffix_iff_eq_drop.mp (matchPlaceholder_suffix h)
  rw [partsFrom, h]
  dsimp only
  rw [partsFrom_skip, ← hdrop]

theorem names_dropWhile (chars : List Char) :
    (partsFrom 0 (chars.dropWhile isSpace)).filterMap Part.variableName =
      (partsFrom 0 chars).filterMap Part.variableName := by
  induction chars with
  | nil => rfl
  | cons c rest ih =>
      rw [List.dropWhile_cons]
      split
      · rename_i hspace
        rw [partsFrom, matchPlaceholder_space hspace, ih]
        rfl
      · rfl

theorem placeholderNames_of_whole {template name : String}
    (h : wholePlaceholder template = some name) : placeholderNames template = [name] := by
  unfold wholePlaceholder at h
  split at h
  · rename_i found after hmatch
    split at h
    · rename_i hspace
      cases h
      rw [placeholderNames, templateParts, ← names_dropWhile]
      cases hchars : template.toList.dropWhile isSpace with
      | nil =>
          rw [hchars] at hmatch
          cases hmatch
      | cons c rest =>
          rw [hchars] at hmatch
          have hafter : after.dropWhile isSpace = [] :=
            List.dropWhile_eq_nil_iff.mpr (List.all_eq_true.mp hspace)
          rw [partsFrom_match hmatch, List.filterMap_cons, ← names_dropWhile, hafter]
          rfl
    · cases h
  · cases h

theorem wholePlaceholder_mem {template name : String} (h : wholePlaceholder template = some name) :
    name ∈ placeholderNames template := by
  rw [placeholderNames_of_whole h]
  exact List.mem_singleton_self name

def firstPart (name : String) : String :=
  String.ofList (name.toList.takeWhile (· ≠ '.'))

theorem splitDots_eq (chars : List Char) :
    ∃ later, splitDots chars = chars.takeWhile (· ≠ '.') :: later := by
  induction chars with
  | nil => exact ⟨[], rfl⟩
  | cons c rest ih =>
      obtain ⟨later, hlater⟩ := ih
      rw [splitDots, List.takeWhile_cons]
      by_cases hdot : c = '.'
      · simp [hdot]
      · simp [hdot, hlater]

theorem namePath_eq (name : String) : ∃ later, namePath name = firstPart name :: later := by
  obtain ⟨later, hlater⟩ := splitDots_eq name.toList
  exact ⟨later.map String.ofList, by rw [namePath, hlater, List.map_cons, firstPart]⟩

theorem splitDots_of_undotted {chars : List Char} (h : '.' ∉ chars) : splitDots chars = [chars] := by
  induction chars with
  | nil => rfl
  | cons c rest ih =>
      have hc : c ≠ '.' := fun heq => h (heq ▸ List.mem_cons_self)
      rw [splitDots, if_neg hc, ih fun hin => h (List.mem_cons_of_mem _ hin)]

theorem namePath_of_undotted {name : String} (h : '.' ∉ name.toList) : namePath name = [name] := by
  rw [namePath, splitDots_of_undotted h]
  simp

theorem firstPart_of_undotted {name : String} (h : '.' ∉ name.toList) : firstPart name = name := by
  obtain ⟨later, hlater⟩ := namePath_eq name
  rw [namePath_of_undotted h] at hlater
  exact (List.cons.inj hlater).1.symm

theorem namePath_inputs {name : String} (h : '.' ∉ name.toList) :
    namePath ("inputs." ++ name) = ["inputs", name] := by
  have hsplit : splitDots ("inputs." ++ name).toList = ["inputs".toList, name.toList] := by
    rw [String.toList_append]
    change splitDots ('i' :: 'n' :: 'p' :: 'u' :: 't' :: 's' :: '.' :: name.toList) = _
    simp [splitDots, splitDots_of_undotted h]
  rw [namePath, hsplit]
  simp

theorem firstPart_inputs (name : String) : firstPart ("inputs." ++ name) = "inputs" := by
  rw [firstPart, String.toList_append]
  rfl

theorem undotted_of_chars {text : String}
    (h : ∀ c ∈ (if text.toList.getLast? = some '\n' then text.toList.dropLast else text.toList),
      c.isLower ∨ c.isDigit ∨ c = '_') : '.' ∉ text.toList := by
  intro hdot
  have hbad : ¬ (('.').isLower ∨ ('.').isDigit ∨ '.' = '_') := by decide
  split at h
  · rename_i hlast
    rw [List.getLast?_eq_some_iff] at hlast
    obtain ⟨front, hfront⟩ := hlast
    rw [hfront, List.dropLast_concat] at h
    rw [hfront] at hdot
    rcases List.mem_append.mp hdot with hdot | hdot
    · exact hbad (h _ hdot)
    · exact absurd (List.mem_singleton.mp hdot) (by decide)
  · exact hbad (h _ hdot)

theorem identifier_undotted (identifier : Identifier) : '.' ∉ identifier.1.toList := by
  obtain ⟨text, htext⟩ := identifier
  apply undotted_of_chars
  unfold isIdentifier at htext
  dsimp only at htext
  split at htext
  · rename_i c rest heq
    rw [heq]
    simp only [decide_eq_true_eq, List.all_eq_true, Bool.or_eq_true] at htext
    intro d hd
    rcases List.mem_cons.mp hd with rfl | hd
    · exact Or.inl htext.1
    · have := htext.2.2 d hd
      tauto
  · cases htext

theorem inputName_undotted (name : InputName) : '.' ∉ name.1.toList := by
  obtain ⟨text, htext⟩ := name
  apply undotted_of_chars
  unfold isInputName at htext
  dsimp only at htext
  split at htext
  · rename_i c rest heq
    rw [heq]
    simp only [decide_eq_true_eq, List.all_eq_true, Bool.or_eq_true] at htext
    intro d hd
    rcases List.mem_cons.mp hd with rfl | hd
    · exact Or.inl htext.1
    · have := htext.2 d hd
      tauto
  · cases htext

@[simp]
theorem errors_append (first second : Findings) :
    (first ++ second).errors = first.errors ++ second.errors := rfl

theorem errors_concat {α : Type} {find : α → Findings} {items : List α} :
    (Findings.concat find items).errors = [] ↔ ∀ item ∈ items, (find item).errors = [] := by
  induction items with
  | nil => simp [Findings.concat]
  | cons item items ih => simp [Findings.concat, ih]

@[simp]
theorem errors_issue (path : String) (code : DefinitionErrorCode) (params : List (String × String)) :
    (issue path code params).errors ≠ [] := by
  simp [issue]

inductive Readable (definition : EndpointDefinition) (scope : Scope) : String → Prop where
  | credential (hregion : scope.region = .auth) : Readable definition scope "api_key"
  | taskId (hregion : scope.region = .poll ∨ scope.region = .result) :
      Readable definition scope "task_id"
  | resultId (hregion : scope.region = .result)
      (hextract : "result_id" ∈ definition.poll.extractKeys) : Readable definition scope "result_id"
  | loop {name : String} (hname : name ∈ scope.locals) (hkey : name ≠ "api_key") :
      Readable definition scope name
  | builtin {name : String} (hname : name ∈ definition.mediaType.variables) :
      Readable definition scope name
  | input {name : String} (hname : name ∈ inputNames definition) (hregion : scope.region = .submit)
      (hlist : name ∉ listInputs definition) : Readable definition scope ("inputs." ++ name)

variable {definition : EndpointDefinition} {scope : Scope}

theorem afterInputs_eq_some {name input : String} (h : afterInputs name = some input) :
    name = "inputs." ++ input := by
  unfold afterInputs at h
  split at h
  · rename_i hprefix
    obtain ⟨rest, hrest⟩ := hprefix
    obtain rfl := Option.some.inj h
    apply String.toList_inj.mp
    have hdrop : ("inputs.".toList ++ rest).drop 7 = rest := by simp
    rw [String.toList_append, ← hrest, hdrop]
    exact congrArg _ String.toList_ofList.symm
  · cases h

theorem readable_of_inputReference {name path : String}
    (h : (inputReferenceIssue definition name path scope).errors = []) :
    Readable definition scope ("inputs." ++ name) := by
  unfold inputReferenceIssue at h
  split_ifs at h with hname hregion hlist
  · exact (errors_issue _ _ _ h).elim
  · exact (errors_issue _ _ _ h).elim
  · exact .input hname (not_not.mp hregion) hlist
  · exact (errors_issue _ _ _ h).elim

theorem readable_of_resultId {path : String}
    (h : (resultIdIssue definition path scope).errors = []) :
    Readable definition scope "result_id" := by
  unfold resultIdIssue at h
  split_ifs at h with hregion hextract
  · exact (errors_issue _ _ _ h).elim
  · exact .resultId (not_not.mp hregion) hextract
  · exact (errors_issue _ _ _ h).elim

theorem readable_of_variableIssue {name path : String}
    (h : (variableIssue definition name path scope).errors = []) :
    Readable definition scope name := by
  unfold variableIssue at h
  by_cases hkey : name = "api_key"
  · rw [if_pos hkey] at h
    split at h
    · rename_i hregion
      exact hkey ▸ .credential hregion
    · exact (errors_issue _ _ _ h).elim
  rw [if_neg hkey] at h
  by_cases htask : name = "task_id"
  · rw [if_pos htask] at h
    split at h
    · rename_i hregion
      exact htask ▸ .taskId hregion
    · exact (errors_issue _ _ _ h).elim
  rw [if_neg htask] at h
  by_cases hresult : name = "result_id"
  · rw [if_pos hresult] at h
    exact hresult ▸ readable_of_resultId h
  rw [if_neg hresult] at h
  by_cases hknown : name ∈ scope.locals ∨ name ∈ definition.mediaType.variables
  · rcases hknown with hlocal | hvariable
    · exact .loop hlocal hkey
    · exact .builtin hvariable
  rw [if_neg hknown] at h
  split at h
  · rename_i input hinput
    exact afterInputs_eq_some hinput ▸ readable_of_inputReference h
  · split at h <;> exact (errors_issue _ _ _ h).elim

theorem readable_of_scanTemplate {template path name : String}
    (h : (scanTemplate definition template path scope).errors = [])
    (hname : name ∈ placeholderNames template) : Readable definition scope name := by
  rw [scanTemplate, errors_append, List.append_eq_nil_iff] at h
  exact readable_of_variableIssue (errors_concat.mp h.2 name hname)

def Plain (scope : Scope) : Prop :=
  ∀ name ∈ scope.locals, '.' ∉ name.toList

theorem plain_of_region (region : Section) : Plain { region } :=
  fun _ hname => absurd hname List.not_mem_nil

theorem Plain.inside (h : Plain scope) (head : EachHead) : Plain (scope.inside head) := by
  intro name hname
  rcases List.mem_cons.mp hname with rfl | hname
  · exact identifier_undotted head.asName
  · rcases List.mem_cons.mp hname with rfl | hname
    · decide
    · exact h name hname

theorem inputNames_undotted {name : String} (h : name ∈ inputNames definition) :
    '.' ∉ name.toList := by
  obtain ⟨entry, -, rfl⟩ := List.mem_map.mp h
  exact identifier_undotted entry.1

theorem variables_undotted (mediaType : MediaType) :
    ∀ name ∈ mediaType.variables, '.' ∉ name.toList := by
  cases mediaType <;> decide

section Accepted

variable {library : PythonLibrary}

theorem sections_of_accepted (h : Accepted definition library) :
    (checkAuthSection definition).errors = [] ∧
      (∀ entry ∈ requests definition,
        (checkRequest definition library entry.1 entry.2).errors = []) ∧
      (checkEnumMaps definition).errors = [] := by
  unfold Accepted checkDefinition at h
  generalize checkAuthSection definition = auth at h ⊢
  simp only [errors_append, List.append_eq_nil_iff] at h
  exact ⟨h.1.1.1.1, errors_concat.mp h.1.1.1.2, h.1.1.2⟩

theorem enumMapVariable_of_accepted (h : Accepted definition library) {name : String}
    {mapping : List (String × Value)} (hentry : (name, mapping) ∈ definition.enumMaps) :
    name ∈ definition.mediaType.enumMapVariables := by
  have hissues := errors_concat.mp (sections_of_accepted h).2.2 _ hentry
  split_ifs at hissues with hallowed
  · exact hallowed
  · exact (errors_issue _ _ _ hissues).elim
  · exact (errors_issue _ _ _ hissues).elim

theorem auth_of_accepted (h : Accepted definition library) {entry : String × String}
    (hentry : entry ∈ authTemplates definition.auth) {name : String}
    (hname : name ∈ placeholderNames entry.2) : Readable definition { region := .auth } name := by
  have hauth := (sections_of_accepted h).1
  unfold checkAuthSection at hauth
  simp only [errors_append, List.append_eq_nil_iff] at hauth
  have hentries := errors_concat.mp hauth.1.1 entry hentry
  rw [errors_append, List.append_eq_nil_iff] at hentries
  have hissues := errors_concat.mp hentries.2 name hname
  split at hissues
  · rename_i hkey
    exact hkey ▸ .credential rfl
  · exact readable_of_variableIssue hissues

theorem request_of_accepted (h : Accepted definition library) {region : Section}
    {request : RequestTemplate} (hrequest : (region, request) ∈ requests definition) :
    (scanTemplate definition request.url (joinPath region.value "url") { region }).errors = [] ∧
      (∀ header ∈ request.headers,
        (scanTemplate definition header.2 (joinPath (joinPath region.value "headers") header.1)
          { region }).errors = []) ∧
      ∀ body ∈ request.body,
        (scanNode definition body (joinPath region.value "body") { region } false).errors = [] := by
  have hissues := (sections_of_accepted h).2.1 _ hrequest
  unfold checkRequest at hissues
  simp only [errors_append, List.append_eq_nil_iff] at hissues
  refine ⟨hissues.1.1.1.1, errors_concat.mp hissues.1.1.1.2, fun body hbody => ?_⟩
  rw [Option.mem_def] at hbody
  have hscan := hissues.1.2
  rwa [hbody] at hscan

theorem region_of_request {region : Section} {request : RequestTemplate}
    (hrequest : (region, request) ∈ requests definition) : region ≠ .auth := by
  rintro rfl
  rcases List.mem_cons.mp hrequest with hsubmit | hlater
  · cases hsubmit
  rcases List.mem_cons.mp hlater with hpoll | hresult
  · cases hpoll
  obtain ⟨_, -, heq⟩ := Option.map_eq_some_iff.mp (Option.mem_toList.mp hresult)
  cases heq

end Accepted

def sampleLibrary : PythonLibrary :=
  { str := fun _ => "", dumps := fun _ => "", urlsplit := fun url => some ⟨"", "", url, "", ""⟩
    urlunsplit := fun parts => parts.path ++ "?" ++ parts.query
    queryNames := fun _ => [], quote := id }

end ShortReel.TemplateNames
