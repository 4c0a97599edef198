import ShortReel.TemplateEngine

/-!
# The validator of endpoint definitions

The part of `validator.py` and `auth_section.py` that looks at templates: which variables a
placeholder may name where, the shape of `$each` and `$when`, the credentials of the auth section and
the enum maps. The structural layer is in the types of the definition. Warnings are left out.
-/

namespace ShortReel.EndpointValidator

open TemplateEngine

inductive DefinitionErrorCode where
  | malformedPlaceholder
  | undeclaredVariable
  | apiKeyOutsideAuth
  | authWithoutApiKey
  | authHeaderConflict
  | headerNameDuplicate
  | authQueryConflict
  | taskIdOutOfScope
  | resultIdOutOfScope
  | resultIdWithoutExtract
  | inputOutOfScope
  | listInputRequiresEach
  | eachInNotListInput
  | eachPositionMismatch
  | eachAliasReserved
  | whenUnknownInput
  | inputNotReferenced
  | enumMapVariableNotAllowed
  | mediaTypeFieldNotAllowed
  deriving DecidableEq, Repr

structure DefinitionIssue where
  path : String
  code : DefinitionErrorCode
  params : List (String × String) := []
  deriving DecidableEq, Repr

/-- `join_path`, with a key. -/
def joinPath (base key : String) : String :=
  if base = "$" then key else base ++ "." ++ key

/-- `join_path`, with an index. -/
def joinIndex (base : String) (index : ℕ) : String :=
  base ++ "[" ++ toString index ++ "]"

inductive MediaType where
  | video | image
  deriving DecidableEq, Repr

def MediaType.value : MediaType → String
  | .video => "video"
  | .image => "image"

inductive InputSource where
  | startImage | endImage | referenceImages | referenceAudioFiles
  deriving DecidableEq, Repr

def InputSource.value : InputSource → String
  | .startImage => "start_image"
  | .endImage => "end_image"
  | .referenceImages => "reference_images"
  | .referenceAudioFiles => "reference_audio_files"

/-- `LIST_INPUT_SOURCES`. -/
def InputSource.isList : InputSource → Bool
  | .referenceImages | .referenceAudioFiles => true
  | .startImage | .endImage => false

inductive InputEncoding where
  | dataUri | base64
  deriving DecidableEq, Repr

structure InputDecl where
  source : InputSource
  encoding : InputEncoding
  required : Bool := false
  deriving DecidableEq, Repr

structure EndpointDefinition where
  mediaType : MediaType := .video
  auth : AuthTemplates := {}
  inputs : List (Identifier × InputDecl) := []
  enumMaps : EnumMaps := []
  submit : RequestTemplate
  poll : RequestTemplate
  result : Option RequestTemplate := none

inductive Section where
  | auth | submit | poll | result
  deriving DecidableEq, Repr

def Section.value : Section → String
  | .auth => "auth"
  | .submit => "submit"
  | .poll => "poll"
  | .result => "result"

/-- `MEDIA_TYPE_RULES[...].variables`. -/
def MediaType.variables : MediaType → List String
  | .video =>
      ["base_url", "model", "prompt", "duration", "aspect_ratio", "resolution", "generate_audio",
        "seed", "width", "height"]
  | .image =>
      ["base_url", "model", "prompt", "aspect_ratio", "resolution", "seed", "width", "height"]

def MediaType.enumMapVariables : MediaType → List String
  | .video => ["duration", "aspect_ratio", "resolution", "generate_audio"]
  | .image => ["aspect_ratio", "resolution"]

def MediaType.inputSources : MediaType → List InputSource
  | .video => [.startImage, .endImage, .referenceImages, .referenceAudioFiles]
  | .image => [.referenceImages]

def allVariables : List String :=
  MediaType.video.variables ++ MediaType.image.variables

def allEnumMapVariables : List String :=
  MediaType.video.enumMapVariables ++ MediaType.image.enumMapVariables

structure Findings where
  errors : List DefinitionIssue := []
  referenced : List String := []

instance : Append Findings :=
  ⟨fun first second =>
    ⟨first.errors ++ second.errors, first.referenced ++ second.referenced⟩⟩

def issue (path : String) (code : DefinitionErrorCode) (params : List (String × String) := []) :
    Findings :=
  { errors := [⟨path, code, params⟩] }

def Findings.concat {α : Type} (find : α → Findings) : List α → Findings
  | [] => {}
  | item :: items => find item ++ Findings.concat find items

structure Scope where
  region : Section
  locals : List String := []

section Checks

variable (definition : EndpointDefinition)

def inputNames : List String :=
  definition.inputs.map (·.1.1)

def listInputs : List String :=
  (definition.inputs.filter (·.2.source.isList)).map (·.1.1)

def mediaTypeMismatch (path name : String) : Findings :=
  issue path .mediaTypeFieldNotAllowed
    [("name", name), ("media_type", definition.mediaType.value)]

/-- Positions where a match of `_PLACEHOLDER` starts. -/
def placeholderStartsFrom : (skip position : ℕ) → List Char → List ℕ
  | _, _, [] => []
  | skip + 1, position, _ :: rest => placeholderStartsFrom skip (position + 1) rest
  | 0, position, c :: rest =>
      match matchPlaceholder (c :: rest) with
      | some (_, after) =>
          position :: placeholderStartsFrom (rest.length - after.length) (position + 1) rest
      | none => placeholderStartsFrom 0 (position + 1) rest

/-- Positions of `\x7b\x7b`, none of which overlaps the one before it. -/
def openingsFrom : (skip : Bool) → (position : ℕ) → List Char → List ℕ
  | _, _, [] => []
  | true, position, _ :: rest => openingsFrom false (position + 1) rest
  | false, position, c :: rest =>
      if c = '{' ∧ rest.head? = some '{' then position :: openingsFrom true (position + 1) rest
      else openingsFrom false (position + 1) rest

/-- The text up to the first `\x7d\x7d`, all of it where there is none. -/
def untilClosing : List Char → List Char
  | '}' :: '}' :: _ => ['}', '}']
  | c :: rest => c :: untilClosing rest
  | [] => []

def malformedPlaceholders (text : String) : List String :=
  let starts := placeholderStartsFrom 0 0 text.toList
  ((openingsFrom false 0 text.toList).filter (· ∉ starts)).map fun position =>
    String.ofList (untilClosing (text.toList.drop position))

def resultIdIssue (path : String) (scope : Scope) : Findings :=
  if scope.region ≠ .result then issue path .resultIdOutOfScope
  else if "result_id" ∉ definition.poll.extractKeys then issue path .resultIdWithoutExtract
  else {}

/-- `_input_reference_issue`, of what follows `inputs.`. -/
def inputReferenceIssue (name path : String) (scope : Scope) : Findings :=
  if name ∉ inputNames definition then
    issue path .undeclaredVariable [("name", "inputs." ++ name)]
  else if scope.region ≠ .submit then issue path .inputOutOfScope [("name", name)]
  else if name ∈ listInputs definition then issue path .listInputRequiresEach [("name", name)]
  else { referenced := [name] }

/-- `name.removeprefix("inputs.")`, where the name starts with it. -/
def afterInputs (name : String) : Option String :=
  if "inputs.".toList <+: name.toList then some (String.ofList (name.toList.drop 7)) else none

def variableIssue (name path : String) (scope : Scope) : Findings :=
  if name = "api_key" then
    if scope.region = .auth then {} else issue path .apiKeyOutsideAuth
  else if name = "task_id" then
    if scope.region = .poll ∨ scope.region = .result then {} else issue path .taskIdOutOfScope
  else if name = "result_id" then resultIdIssue definition path scope
  else if name ∈ scope.locals ∨ name ∈ definition.mediaType.variables then {}
  else
    match afterInputs name with
    | some input => inputReferenceIssue definition input path scope
    | none =>
        if name ∈ allVariables then mediaTypeMismatch definition path name
        else issue path .undeclaredVariable [("name", name)]

def scanTemplate (template path : String) (scope : Scope) : Findings :=
  Findings.concat (fun fragment => issue path .malformedPlaceholder [("fragment", fragment)])
      (malformedPlaceholders template) ++
    Findings.concat (fun name => variableIssue definition name path scope)
      (placeholderNames template)

/-- `$when`. -/
def scanWhen (name path : String) (scope : Scope) : Findings :=
  if name ∉ inputNames definition then issue path .whenUnknownInput [("name", name)]
  else if scope.region ≠ .submit then issue path .inputOutOfScope [("name", name)]
  else {}

/-- The head of a `$each`: its position, its alias and its list. -/
def scanEachHead (head : EachHead) (path : String) (scope : Scope) (misplaced : Bool) : Findings :=
  (if misplaced then issue path .eachPositionMismatch else {}) ++
    (if head.asName.1 = "index" then
      issue (joinPath path "as") .eachAliasReserved [("name", "index")] else {}) ++
    (if head.inName.1 ∉ listInputs definition then
      issue (joinPath path "in") .eachInNotListInput [("name", head.inName.1)]
    else if scope.region ≠ .submit then
      issue (joinPath path "in") .inputOutOfScope [("name", head.inName.1)]
    else { referenced := [head.inName.1] })

def Scope.inside (scope : Scope) (head : EachHead) : Scope :=
  { scope with locals := head.asName.1 :: "index" :: scope.locals }

mutual

def scanNode : Node → (path : String) → Scope → (inArray : Bool) → Findings
  | .leaf _, _, _, _ => {}
  | .text template, path, scope, _ => scanTemplate definition template path scope
  | .list items, path, scope, _ => scanItems items path scope 0
  | .object fields, path, scope, inArray => scanFields fields path scope inArray

def scanItems : Nodes → (path : String) → Scope → (index : ℕ) → Findings
  | .nil, _, _, _ => {}
  | .cons item rest, path, scope, index =>
      scanNode item (joinIndex path index) scope true ++ scanItems rest path scope (index + 1)

/-- The keys of an object; `_scan_each` for an expansion. -/
def scanFields : Fields → (path : String) → Scope → (inArray : Bool) → Findings
  | .nil, _, _, _ => {}
  | .guard name rest, path, scope, inArray =>
      scanWhen definition name.1 (joinPath path "$when") scope ++
        scanFields rest path scope inArray
  | .eachItem head item rest, path, scope, inArray =>
      scanEachHead definition head (joinPath path "$each") scope (!inArray) ++
        scanNode item (joinPath (joinPath path "$each") "item") (scope.inside head) false ++
        scanFields rest path scope inArray
  | .eachPair head key value rest, path, scope, inArray =>
      scanEachHead definition head (joinPath path "$each") scope inArray ++
        scanTemplate definition key (joinPath (joinPath path "$each") "key") (scope.inside head) ++
        scanNode value (joinPath (joinPath path "$each") "value") (scope.inside head) false ++
        scanFields rest path scope inArray
  | .field key value rest, path, scope, inArray =>
      scanNode value (joinPath path key) scope false ++ scanFields rest path scope inArray

end

def duplicateHeaderIssues (path : String) : (seen : List String) → List (String × String) → Findings
  | _, [] => {}
  | seen, (name, _) :: rest =>
      (match seen.find? (·.toLower = name.toLower) with
        | some first =>
            issue (joinPath path name) .headerNameDuplicate [("header", name), ("first", first)]
        | none => {}) ++
      duplicateHeaderIssues path (seen ++ [name]) rest

def urlQueryNames (library : PythonLibrary) (url : String) : List String :=
  if '?' ∈ url.toList then
    library.queryNames (String.ofList
      (((url.toList.dropWhile (· ≠ '?')).drop 1).takeWhile (· ≠ '#')))
  else []

variable (library : PythonLibrary)

def checkAuthCollisions (name : String) (request : RequestTemplate) : Findings :=
  Findings.concat (fun header =>
      if header.1.toLower ∈ definition.auth.headers.map (·.1.toLower) then
        issue (joinPath (joinPath name "headers") header.1) .authHeaderConflict
          [("header", header.1)]
      else {}) request.headers ++
    Findings.concat (fun param => issue (joinPath name "url") .authQueryConflict [("param", param)])
      (((urlQueryNames library request.url).filter
        (· ∈ definition.auth.query.map (·.1))).dedup.mergeSort (· ≤ ·))

/-- `_check_request`, without its extract. -/
def checkRequest (region : Section) (request : RequestTemplate) : Findings :=
  let scope : Scope := { region }
  scanTemplate definition request.url (joinPath region.value "url") scope ++
    Findings.concat (fun header =>
      scanTemplate definition header.2 (joinPath (joinPath region.value "headers") header.1) scope)
      request.headers ++
    duplicateHeaderIssues (joinPath region.value "headers") [] request.headers ++
    (match request.body with
      | some body => scanNode definition body (joinPath region.value "body") scope false
      | none => {}) ++
    checkAuthCollisions definition library region.value request

/-- `auth_templates`: where each template of the auth section stands, and the template. -/
def authTemplates (auth : AuthTemplates) : List (String × String) :=
  auth.headers.map (fun entry => (joinPath (joinPath "auth" "headers") entry.1, entry.2)) ++
    auth.query.map fun entry => (joinPath (joinPath "auth" "query") entry.1, entry.2)

def checkAuthSection : Findings :=
  let templates := authTemplates definition.auth
  Findings.concat (fun entry =>
      Findings.concat (fun fragment => issue entry.1 .malformedPlaceholder [("fragment", fragment)])
        (malformedPlaceholders entry.2) ++
      Findings.concat (fun name =>
        if name = "api_key" then {}
        else variableIssue definition name entry.1 { region := .auth }) (placeholderNames entry.2))
      templates ++
    duplicateHeaderIssues (joinPath "auth" "headers") [] definition.auth.headers ++
    (if templates ≠ [] ∧ ∀ entry ∈ templates, "api_key" ∉ placeholderNames entry.2 then
      issue "auth" .authWithoutApiKey
    else {})

def requests : List (Section × RequestTemplate) :=
  (Section.submit, definition.submit) :: (Section.poll, definition.poll) ::
    (definition.result.map fun request => (Section.result, request)).toList

def checkEnumMaps : Findings :=
  Findings.concat (fun entry =>
    if entry.1 ∈ definition.mediaType.enumMapVariables then {}
    else if entry.1 ∈ allEnumMapVariables then
      mediaTypeMismatch definition (joinPath "enum_maps" entry.1) entry.1
    else
      issue (joinPath "enum_maps" entry.1) .enumMapVariableNotAllowed
        [("variable", entry.1),
          ("allowed", String.intercalate " / "
            (definition.mediaType.enumMapVariables.mergeSort (· ≤ ·)))]) definition.enumMaps

def checkInputsReferenced (referenced : List String) : Findings :=
  Findings.concat (fun name =>
    if name ∈ referenced then {} else issue (joinPath "inputs" name) .inputNotReferenced)
    (inputNames definition)

def checkInputSources : Findings :=
  Findings.concat (fun entry =>
    if entry.2.source ∈ definition.mediaType.inputSources then {}
    else
      mediaTypeMismatch definition (joinPath (joinPath "inputs" entry.1.1) "source")
        entry.2.source.value) definition.inputs

/-- `_SemanticChecker.run`, of the checks above. -/
def checkDefinition : Findings :=
  let templates := checkAuthSection definition ++
    Findings.concat (fun entry => checkRequest definition library entry.1 entry.2)
      (requests definition)
  templates ++ checkEnumMaps definition ++ checkInputsReferenced definition templates.referenced ++
    checkInputSources definition

def Accepted : Prop :=
  (checkDefinition definition library).errors = []

instance : Decidable (Accepted definition library) :=
  inferInstanceAs (Decidable (_ = []))

end Checks

end ShortReel.EndpointValidator
