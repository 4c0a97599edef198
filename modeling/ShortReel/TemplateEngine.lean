import Mathlib.Data.List.ReduceOption

/-!
# The template engine

`template_engine.py`: the templates of an endpoint definition rendered against a context. A
dictionary is the list of its pairs in insertion order, a number the text Python prints for it. What
the engine takes from the standard library beyond strings is a parameter.
-/

namespace ShortReel.TemplateEngine

inductive Value where
  | null
  | bool (value : Bool)
  | number (text : String)
  | string (text : String)
  | list (items : List Value)
  | dict (fields : List (String × Value))

abbrev Context := List (String × Value)

abbrev EnumMaps := List (String × List (String × Value))

/-- `dictionary[key] = value`. -/
def assign {α : Type} (fields : List (String × α)) (key : String) (value : α) :
    List (String × α) :=
  if fields.any (·.1 = key) then
    fields.map fun field => if field.1 = key then (key, value) else field
  else fields ++ [(key, value)]

def assignAll {α : Type} (fields assignments : List (String × α)) : List (String × α) :=
  assignments.foldl (fun fields assignment => assign fields assignment.1 assignment.2) fields

/-- The parts of a URL, as `urlsplit` names them. -/
structure SplitUrl where
  scheme : String
  netloc : String
  path : String
  query : String
  fragment : String
  deriving DecidableEq, Repr

/-- The standard library the engine calls: `str` of a list or a dictionary, `json.dumps`, `urlsplit`
(none where it raises), `urlunsplit`, the names of `parse_qsl` and `quote`. -/
structure PythonLibrary where
  str : Value → String
  dumps : Value → String
  urlsplit : String → Option SplitUrl
  urlunsplit : SplitUrl → String
  queryNames : String → List String
  quote : String → String

def isSpace (c : Char) : Bool :=
  let n := c.toNat
  (9 ≤ n ∧ n ≤ 13) ∨ (28 ≤ n ∧ n ≤ 32) ∨ n = 0x85 ∨ n = 0xa0 ∨ n = 0x1680 ∨
    (0x2000 ≤ n ∧ n ≤ 0x200a) ∨ n = 0x2028 ∨ n = 0x2029 ∨ n = 0x202f ∨ n = 0x205f ∨ n = 0x3000

def isNameStart (c : Char) : Bool :=
  c.isAlpha || c = '_'

def isNameChar (c : Char) : Bool :=
  c.isAlphanum || c = '_'

/-- The rest of a variable name behind its first letter: name characters, and dots with a letter
behind them. -/
def scanName : List Char → List Char × List Char
  | [] => ([], [])
  | [c] => if isNameChar c then ([c], []) else ([], [c])
  | c :: d :: rest =>
      if isNameChar c ∨ (c = '.' ∧ isNameStart d) then
        let scanned := scanName (d :: rest)
        (c :: scanned.1, scanned.2)
      else ([], c :: d :: rest)

def matchPlaceholder : List Char → Option (String × List Char)
  | '{' :: '{' :: rest =>
      match rest.dropWhile isSpace with
      | c :: tail =>
          if isNameStart c then
            let (name, after) := scanName tail
            match after.dropWhile isSpace with
            | '}' :: '}' :: rest => some (String.ofList (c :: name), rest)
            | _ => none
          else none
      | [] => none
  | _ => none

inductive Part where
  | char (c : Char)
  | placeholder (name : String)
  deriving DecidableEq, Repr

/-- The matches of `_PLACEHOLDER` in a text and the characters between them; `skip` counts the
characters of a match that are still to be passed over. -/
def partsFrom : (skip : ℕ) → List Char → List Part
  | _, [] => []
  | skip + 1, _ :: rest => partsFrom skip rest
  | 0, c :: rest =>
      match matchPlaceholder (c :: rest) with
      | some (name, after) => .placeholder name :: partsFrom (rest.length - after.length) rest
      | none => .char c :: partsFrom 0 rest

def templateParts (template : String) : List Part :=
  partsFrom 0 template.toList

/-- `_WHOLE_PLACEHOLDER.fullmatch`: one placeholder and nothing but space around it. -/
def wholePlaceholder (template : String) : Option String :=
  match matchPlaceholder (template.toList.dropWhile isSpace) with
  | some (name, after) => if after.all isSpace then some name else none
  | none => none

def Part.variableName : Part → Option String
  | .char _ => none
  | .placeholder name => some name

def placeholderNames (template : String) : List String :=
  (templateParts template).filterMap Part.variableName

inductive RenderError where
  | templateUrlNotString
  | undeclaredVariable (name : String)
  | enumMapValueMissing (name value : String)
  | templateTextVariableNull (name : String)
  | eachValueNotList (name : String)
  | authQueryConflict (param : String)
  | invalidUrl
  | missingKey (key : String)
  deriving DecidableEq, Repr

/-- `name.split(".")`, of the characters. -/
def splitDots : List Char → List (List Char)
  | [] => [[]]
  | c :: rest =>
      if c = '.' then [] :: splitDots rest
      else
        match splitDots rest with
        | head :: tail => (c :: head) :: tail
        | [] => [[c]]

def namePath (name : String) : List String :=
  (splitDots name.toList).map String.ofList

def lookupPath : Value → List String → Option Value
  | value, [] => some value
  | .dict fields, part :: parts => (fields.lookup part).bind fun value => lookupPath value parts
  | _, _ :: _ => none

def lookup (context : Context) (name : String) : Except RenderError Value :=
  match lookupPath (.dict context) (namePath name) with
  | some value => .ok value
  | none => .error (.undeclaredVariable name)

section Rendering

variable (library : PythonLibrary)

def enumMapKey : Value → String
  | .null => "None"
  | .bool value => if value then "true" else "false"
  | .number text => text
  | .string text => text
  | value => library.str value

variable (enumMaps : EnumMaps)

def resolve (name : String) (context : Context) : Except RenderError Value := do
  let value ← lookup context name
  match enumMaps.lookup name, value with
  | none, value => return value
  | some _, .null => return .null
  | some mapping, value =>
      match mapping.lookup (enumMapKey library value) with
      | some mapped => return mapped
      | none => .error (.enumMapValueMissing name (enumMapKey library value))

def stringify : Value → String
  | .null => "None"
  | .bool value => if value then "true" else "false"
  | .number text => text
  | .string text => text
  | value => library.dumps value

def renderPart (context : Context) : Part → Except RenderError String
  | .char c => .ok (String.ofList [c])
  | .placeholder name => do
      match ← resolve library enumMaps name context with
      | .null => .error (.templateTextVariableNull name)
      | value => return stringify library value

def renderParts (context : Context) : List Part → Except RenderError String
  | [] => .ok ""
  | part :: parts => do
      let head ← renderPart library enumMaps context part
      let tail ← renderParts context parts
      return head ++ tail

/-- `_render_string`; none is a field to drop. -/
def renderString (template : String) (context : Context) : Except RenderError (Option Value) :=
  match wholePlaceholder template with
  | some name => do
      match ← resolve library enumMaps name context with
      | .null => return none
      | value => return some value
  | none => do return some (.string (← renderParts library enumMaps context (templateParts template)))

/-- `^[a-z][a-z0-9_]{0,63}$`, where `$` also stands before a line feed at the end. -/
def isIdentifier (text : String) : Bool :=
  let body := if text.toList.getLast? = some '\n' then text.toList.dropLast else text.toList
  match body with
  | c :: rest => c.isLower ∧ rest.length ≤ 63 ∧ rest.all fun c => c.isLower || c.isDigit || c = '_'
  | [] => false

abbrev Identifier : Type := { text : String // isIdentifier text }

/-- The same without a bound on the length: what `inputs.` is followed by in a directive. -/
def isInputName (text : String) : Bool :=
  let body := if text.toList.getLast? = some '\n' then text.toList.dropLast else text.toList
  match body with
  | c :: rest => c.isLower ∧ rest.all fun c => c.isLower || c.isDigit || c = '_'
  | [] => false

abbrev InputName : Type := { text : String // isInputName text }

/-- The list a `$each` goes over (behind `inputs.`) and the variable of its elements. -/
structure EachHead where
  inName : InputName
  asName : Identifier

def EachHead.source (head : EachHead) : String :=
  "inputs." ++ head.inName.1

mutual

/-- `jsonTemplate`: a number, boolean or null, a text, an array or an object. -/
inductive Node where
  | leaf (value : Value)
  | text (template : String)
  | list (items : Nodes)
  | object (fields : Fields)

inductive Nodes where
  | nil
  | cons (item : Node) (rest : Nodes)

/-- The keys of an object in their order: `$when`, `$each` with an element or with a key and a
value, and the others. -/
inductive Fields where
  | nil
  | guard (name : Identifier) (rest : Fields)
  | eachItem (head : EachHead) (item : Node) (rest : Fields)
  | eachPair (head : EachHead) (key : String) (value : Node) (rest : Fields)
  | field (key : String) (value : Node) (rest : Fields)

end

/-- The `$when` of an object. -/
def Fields.when : Fields → Option String
  | .nil => none
  | .guard name _ => some name.1
  | .eachItem _ _ rest => rest.when
  | .eachPair _ _ _ rest => rest.when
  | .field _ _ rest => rest.when

def Fields.hasEach : Fields → Bool
  | .nil => false
  | .guard _ rest => rest.hasEach
  | .eachItem .. => true
  | .eachPair .. => true
  | .field _ _ rest => rest.hasEach

def Node.hasEach : Node → Bool
  | .object fields => fields.hasEach
  | _ => false

def inputPresent (context : Context) (name : String) : Bool :=
  match context.lookup "inputs" with
  | some (.dict inputs) =>
      match inputs.lookup name with
      | none => false
      | some .null => false
      | some (.list []) => false
      | some _ => true
  | _ => false

def guardHolds (fields : Fields) (context : Context) : Bool :=
  match fields.when with
  | none => true
  | some name => inputPresent context name

def eachValues (head : EachHead) (context : Context) : Except RenderError (List Value) := do
  match ← lookup context head.source with
  | .null => return []
  | .list values => return values
  | _ => .error (.eachValueNotList head.source)

def eachScope (head : EachHead) (context : Context) (index : ℕ) (value : Value) : Context :=
  ("index", .number (toString index)) :: (head.asName.1, value) :: context

def eachRound {β : Type} (render : Context → Except RenderError β) (head : EachHead)
    (context : Context) : (index : ℕ) → List Value → Except RenderError (List β)
  | _, [] => .ok []
  | index, value :: values => do
      let first ← render (eachScope head context index value)
      let rest ← eachRound render head context (index + 1) values
      return first :: rest

def renderPair (key value : Option Value) : Option (String × Value) :=
  match key, value with
  | some key, some value => some (stringify library key, value)
  | _, _ => none

mutual

/-- `_render_node`; none is a node to drop. -/
def renderNode : Node → Context → Except RenderError (Option Value)
  | .leaf value, _ => .ok (some value)
  | .text template, context => renderString library enumMaps template context
  | .list items, context => do
      let (rendered, expandedEach) ← renderItems items context
      if expandedEach ∧ rendered.isEmpty then return none else return some (.list rendered)
  | .object fields, context =>
      if guardHolds fields context then do
        let assignments ← renderFields fields context
        return assignments.map fun assignments => .dict (assignAll [] assignments)
      else .ok none

def renderItems : Nodes → Context → Except RenderError (List Value × Bool)
  | .nil, _ => .ok ([], false)
  | .cons item rest, context => do
      let head ←
        if item.hasEach then renderEachItems item context
        else (·.toList) <$> renderNode item context
      let (tail, expandedEach) ← renderItems rest context
      return (head ++ tail, item.hasEach || expandedEach)

def renderEachItems : Node → Context → Except RenderError (List Value)
  | .object fields, context =>
      if guardHolds fields context then renderEachFields fields context else .ok []
  | _, _ => .ok []

def renderEachFields : Fields → Context → Except RenderError (List Value)
  | .nil, _ => .ok []
  | .guard _ rest, context => renderEachFields rest context
  | .field _ _ rest, context => renderEachFields rest context
  | .eachItem head item _, context => do
      let values ← eachValues head context
      let rendered ← eachRound (fun scope => renderNode item scope) head context 0 values
      return rendered.reduceOption
  | .eachPair head .., context => do
      let values ← eachValues head context
      if values.isEmpty then return [] else .error (.missingKey "item")

/-- The assignments to the object; none drops it, at an expansion to nothing. -/
def renderFields : Fields → Context → Except RenderError (Option (List (String × Value)))
  | .nil, _ => .ok (some [])
  | .guard _ rest, context => renderFields rest context
  | .eachItem head _ _, context => do
      let values ← eachValues head context
      if values.isEmpty then return none else .error (.missingKey "key")
  | .eachPair head key value rest, context => do
      let values ← eachValues head context
      if values.isEmpty then return none
      else
        let pairs ← eachRound (fun scope => do
          let key ← renderString library enumMaps key scope
          return renderPair library key (← renderNode value scope)) head context 0 values
        let later ← renderFields rest context
        return later.map (pairs.reduceOption ++ ·)
  | .field key value rest, context => do
      let rendered ← renderNode value context
      let later ← renderFields rest context
      return later.map ((rendered.map fun rendered => (key, rendered)).toList ++ ·)

end

structure AuthTemplates where
  headers : List (String × String) := []
  query : List (String × String) := []
  deriving DecidableEq, Repr

/-- One request of a definition, with the keys its `extract` declares. -/
structure RequestTemplate where
  method : String
  url : String
  headers : List (String × String) := []
  body : Option Node := none
  extractKeys : List String := []

structure RenderedRequest where
  method : String
  url : String
  headers : List (String × String)
  body : Option Value
  authQuery : List (String × String)

def renderTable (context : Context) :
    List (String × String) → Except RenderError (List (String × String))
  | [] => .ok []
  | (name, template) :: rest => do
      let rendered ← renderString library enumMaps template context
      let later ← renderTable context rest
      return (rendered.map fun value => (name, stringify library value)).toList ++ later

def ownHeaders (headers authHeaders : List (String × String)) : List (String × String) :=
  headers.filter fun header => header.1.toLower ∉ authHeaders.map (·.1.toLower)

def appendAuthQuery (url : String) (authQuery : List (String × String)) :
    Except RenderError String :=
  if authQuery.isEmpty then .ok url
  else
    match library.urlsplit url with
    | none => .error .invalidUrl
    | some parts =>
        let overlap := (library.queryNames parts.query).filter (· ∈ authQuery.map (·.1))
        match (overlap.mergeSort (· ≤ ·)).head? with
        | some param => .error (.authQueryConflict param)
        | none =>
            let appended := authQuery.map fun pair =>
              library.quote pair.1 ++ "=" ++ library.quote pair.2
            let query := String.intercalate "&"
              (if parts.query = "" then appended else parts.query :: appended)
            .ok (library.urlunsplit { parts with query })

def renderRequest (request : RequestTemplate) (auth : AuthTemplates) (context : Context) :
    Except RenderError RenderedRequest := do
  match ← renderString library enumMaps request.url context with
  | some (.string url) =>
      let headers ← renderTable library enumMaps context (ownHeaders request.headers auth.headers)
      let authHeaders ← renderTable library enumMaps context auth.headers
      let authQuery ← renderTable library enumMaps context auth.query
      let url ← appendAuthQuery library url (assignAll [] authQuery)
      let body ← match request.body with
        | none => pure none
        | some body => renderNode library enumMaps body context
      return { method := request.method
               url
               headers := assignAll (assignAll [] headers) authHeaders
               body
               authQuery := assignAll [] authQuery }
  | _ => .error .templateUrlNotString

end Rendering

end ShortReel.TemplateEngine
