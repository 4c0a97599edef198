import Mathlib.Data.List.TakeWhile

/-!
# The JSONPath gate

`jsonpath_subset.py`: the parser of the paths a definition may use. The cursor is what is left of the
source; a loop and the recursion through parentheses take the length of that for their fuel.
-/

namespace ShortReel.JsonPathParser

/-- A character of a Python string: a Unicode scalar value, or a surrogate on its own. -/
inductive PyChar where
  | scalar (c : Char)
  | surrogate (offset : Fin 0x800)
  deriving DecidableEq, Repr

instance : Coe Char PyChar :=
  ⟨.scalar⟩

abbrev Text := List PyChar

/-- `_RFC_BLANK`. -/
def isBlank (c : PyChar) : Bool :=
  c = ' ' ∨ c = '\t' ∨ c = '\n' ∨ c = '\r'

def isAsciiDigit : PyChar → Bool
  | .scalar c => '0' ≤ c ∧ c ≤ '9'
  | .surrogate _ => false

def isExtended : PyChar → Bool
  | .scalar c => 127 < c.toNat
  | .surrogate _ => false

/-- `_is_name_start`; beyond ASCII, where `isalpha` says more, every scalar value is extended. -/
def isNameStart : PyChar → Bool
  | .scalar c => c.isAlpha || c = '_' || isExtended c
  | .surrogate _ => false

def isNameChar : PyChar → Bool
  | .scalar c => c.isAlphanum || c = '_' || isExtended c
  | .surrogate _ => false

def hexValue : PyChar → Option ℕ
  | .scalar c =>
      if '0' ≤ c ∧ c ≤ '9' then some (c.toNat - '0'.toNat)
      else if 'a' ≤ c ∧ c ≤ 'f' then some (c.toNat - 'a'.toNat + 10)
      else if 'A' ≤ c ∧ c ≤ 'F' then some (c.toNat - 'A'.toNat + 10)
      else none
  | .surrogate _ => none

/-- `_peek`, compared with a character. -/
def peekIs (c : Char) (rest : Text) : Bool :=
  rest.head? = some (.scalar c)

def peekDigit (rest : Text) : Bool :=
  rest.head?.any isAsciiDigit

def peekQuote (rest : Text) : Bool :=
  peekIs '\'' rest || peekIs '"' rest

/-- `startswith` at the cursor; what stands behind the word. -/
def stripWord : List Char → Text → Option Text
  | [], rest => some rest
  | _ :: _, [] => none
  | w :: word, c :: rest => if c = .scalar w then stripWord word rest else none

def skipWhitespace (rest : Text) : Text :=
  rest.dropWhile isBlank

inductive PathErrorCode where
  | surroundingWhitespace
  | missingRoot
  | syntaxError
  | recursiveDescent
  | union
  | sliceStep
  | functionExtension
  | filterRootReference
  | filterNonSingular
  | regexOperator
  deriving DecidableEq, Repr

/-- `JsonPathSubsetError`. -/
structure SubsetError where
  code : PathErrorCode
  position : ℕ
  source : Text
  deriving DecidableEq, Repr

inductive SegmentKind where
  | name
  | index
  | wildcard
  | slice
  | filter
  deriving DecidableEq, Repr

structure ParsedJsonPath where
  source : Text
  segments : List SegmentKind
  deriving DecidableEq, Repr

def ParsedJsonPath.hasWildcard (path : ParsedJsonPath) : Bool :=
  path.segments.any (· = .wildcard)

section Parser

variable (source : Text)

/-- `_fail`, with the cursor before `rest`. -/
def fail {α : Type} (code : PathErrorCode) (rest : Text) : Except SubsetError α :=
  .error ⟨code, source.length - rest.length + 1, source⟩

def readShorthand (rest : Text) : Except SubsetError Text :=
  if rest.head?.any isNameStart then .ok (rest.dropWhile isNameChar)
  else fail source .syntaxError rest

def readFourHex : Text → Except SubsetError (ℕ × Text)
  | a :: b :: c :: d :: rest =>
      match hexValue a, hexValue b, hexValue c, hexValue d with
      | some w, some x, some y, some z => .ok (((w * 16 + x) * 16 + y) * 16 + z, rest)
      | _, _, _, _ => fail source .syntaxError (a :: b :: c :: d :: rest)
  | rest => fail source .syntaxError rest

def isLowSurrogate (code : ℕ) : Bool :=
  0xDC00 ≤ code ∧ code ≤ 0xDFFF

def isHighSurrogate (code : ℕ) : Bool :=
  0xD800 ≤ code ∧ code ≤ 0xDBFF

def readUnicodeEscape (rest : Text) : Except SubsetError Text := do
  let (code, rest) ← readFourHex source rest
  if isLowSurrogate code then fail source .syntaxError rest
  else if isHighSurrogate code then
    match stripWord ['\\', 'u'] rest with
    | none => fail source .syntaxError rest
    | some behind => do
        let (low, rest) ← readFourHex source behind
        if isLowSurrogate low then return rest else fail source .syntaxError rest
  else return rest

/-- `_ESCAPES` and the quote itself. -/
def escapes (quote : Char) : List PyChar :=
  [.scalar 'n', .scalar 't', .scalar 'r', .scalar 'b', .scalar 'f', .scalar '/', .scalar '\\',
    .scalar quote]

def isBare : PyChar → Bool
  | .scalar c => ' ' ≤ c
  | .surrogate _ => false

def readQuotedRest (quote : Char) : (fuel : ℕ) → Text → Except SubsetError Text
  | 0, rest => fail source .syntaxError rest
  | _ + 1, [] => fail source .syntaxError []
  | fuel + 1, c :: rest =>
      if c = quote then .ok rest
      else if c = '\\' then
        match rest with
        -- the cursor is past the end here
        | [] => .error ⟨.syntaxError, source.length + 2, source⟩
        | escape :: behind =>
            if escape = 'u' then do
              let after ← readUnicodeEscape source behind
              readQuotedRest quote fuel after
            else if escape ∈ escapes quote then readQuotedRest quote fuel behind
            else fail source .syntaxError behind
      else if isBare c then readQuotedRest quote fuel rest
      else fail source .syntaxError (c :: rest)

def readQuoted (rest : Text) : Except SubsetError Text :=
  readQuotedRest source (if peekIs '\'' rest then '\'' else '"') rest.length rest.tail

def dropSign (rest : Text) : Text :=
  if peekIs '-' rest then rest.tail else rest

def readInt (rest : Text) : Except SubsetError Text :=
  let unsigned := dropSign rest
  let digits := unsigned.takeWhile isAsciiDigit
  let after := unsigned.dropWhile isAsciiDigit
  if digits = [] then fail source .syntaxError unsigned
  else if (peekIs '-' rest ∧ digits = [.scalar '0']) ∨ (1 < digits.length ∧ peekIs '0' digits) then
    fail source .syntaxError after
  else .ok after

def readDigits (rest : Text) : Except SubsetError Text :=
  if peekDigit rest then .ok (rest.dropWhile isAsciiDigit) else fail source .syntaxError rest

def readIntegerPart (rest : Text) : Except SubsetError Text :=
  let unsigned := dropSign rest
  if peekIs '0' unsigned then .ok unsigned.tail else readDigits source unsigned

def readFraction (rest : Text) : Except SubsetError Text :=
  if peekIs '.' rest then readDigits source rest.tail else .ok rest

def readExponent (rest : Text) : Except SubsetError Text :=
  if peekIs 'e' rest ∨ peekIs 'E' rest then
    let power := rest.tail
    readDigits source (if peekIs '+' power ∨ peekIs '-' power then power.tail else power)
  else .ok rest

def readNumber (rest : Text) : Except SubsetError Text := do
  let rest ← readIntegerPart source rest
  let rest ← readFraction source rest
  readExponent source rest

def keywords : List (List Char) :=
  [['t', 'r', 'u', 'e'], ['f', 'a', 'l', 's', 'e'], ['n', 'u', 'l', 'l']]

def parseLiteral (rest : Text) : Except SubsetError Text :=
  if peekQuote rest then readQuoted source rest
  else if peekIs '-' rest || peekDigit rest then readNumber source rest
  else
    match keywords.findSome? fun keyword => stripWord keyword rest with
    | some behind => .ok behind
    | none =>
        if peekIs '$' rest then fail source .filterRootReference rest
        else if rest.head?.any isNameStart then fail source .functionExtension rest
        else fail source .syntaxError rest

def readSingularSelector (rest : Text) : Except SubsetError Text :=
  if peekQuote rest then readQuoted source rest
  else if peekIs '-' rest || peekDigit rest then readInt source rest
  else fail source .filterNonSingular rest

def closeSingularBracket (rest : Text) : Except SubsetError Text :=
  if peekIs ':' rest || peekIs ',' rest then fail source .filterNonSingular rest
  else if peekIs ']' rest then .ok rest.tail
  else fail source .syntaxError rest

/-- A bracket of a singular query, behind its `[`. -/
def readSingularBracket (rest : Text) : Except SubsetError Text := do
  let after ← readSingularSelector source (skipWhitespace rest)
  closeSingularBracket source (skipWhitespace after)

def singularSegments : (fuel : ℕ) → Text → Except SubsetError Text
  | 0, rest => .ok rest
  | fuel + 1, rest =>
      let behind := skipWhitespace rest
      if peekIs '.' behind then
        if peekIs '.' behind.tail then fail source .recursiveDescent behind
        else if peekIs '*' behind.tail then fail source .filterNonSingular behind.tail
        else do
          let after ← readShorthand source behind.tail
          singularSegments fuel after
      else if peekIs '[' behind then do
        let after ← readSingularBracket source behind.tail
        singularSegments fuel after
      else .ok rest

def parseOperand (rest : Text) : Except SubsetError Text :=
  if peekIs '@' rest then singularSegments source rest.length rest.tail
  else parseLiteral source rest

def comparisonOperators : List (List Char) :=
  [['=', '='], ['!', '='], ['<', '='], ['>', '='], ['<'], ['>']]

def parseComparison (negated isQuery : Bool) (rest : Text) : Except SubsetError Text :=
  if (stripWord ['=', '~'] rest).isSome then fail source .regexOperator rest
  else
    match comparisonOperators.findSome? fun operator => stripWord operator rest with
    | none => if isQuery then .ok rest else fail source .syntaxError rest
    | some behind =>
        if negated then fail source .syntaxError rest
        else parseOperand source (skipWhitespace behind)

/-- `_parse_basic`, behind a negation and where no parenthesis opens. -/
def parseTest (negated : Bool) (rest : Text) : Except SubsetError Text := do
  let after ← parseOperand source rest
  parseComparison source negated (peekIs '@' rest) (skipWhitespace after)

/-- The `!` in front of a basic expression, and what it stands before. -/
def readNegation (rest : Text) : Bool × Text :=
  if peekIs '!' rest then (true, skipWhitespace rest.tail) else (false, rest)

def closeParen (rest : Text) : Except SubsetError Text :=
  if peekIs ')' rest then .ok rest.tail else fail source .syntaxError rest

mutual

def parseOr : (fuel : ℕ) → Text → Except SubsetError Text
  | 0, rest => fail source .syntaxError rest
  | fuel + 1, rest => do
      let after ← parseAnd fuel rest
      parseOrRest fuel (skipWhitespace after)

def parseOrRest : (fuel : ℕ) → Text → Except SubsetError Text
  | 0, rest => fail source .syntaxError rest
  | fuel + 1, rest =>
      match stripWord ['|', '|'] rest with
      | none => .ok rest
      | some behind => do
          let after ← parseAnd fuel behind
          parseOrRest fuel (skipWhitespace after)

def parseAnd : (fuel : ℕ) → Text → Except SubsetError Text
  | 0, rest => fail source .syntaxError rest
  | fuel + 1, rest => do
      let after ← parseBasic fuel rest
      parseAndRest fuel (skipWhitespace after)

def parseAndRest : (fuel : ℕ) → Text → Except SubsetError Text
  | 0, rest => fail source .syntaxError rest
  | fuel + 1, rest =>
      match stripWord ['&', '&'] rest with
      | none => .ok rest
      | some behind => do
          let after ← parseBasic fuel behind
          parseAndRest fuel (skipWhitespace after)

def parseBasic : (fuel : ℕ) → Text → Except SubsetError Text
  | 0, rest => fail source .syntaxError rest
  | fuel + 1, rest =>
      let (negated, inner) := readNegation (skipWhitespace rest)
      if peekIs '(' inner then do
        let after ← parseOr fuel inner.tail
        closeParen source (skipWhitespace after)
      else parseTest source negated inner

end

def parseFilter (rest : Text) : Except SubsetError Text := do
  let after ← parseOr source (3 * rest.length + 3) rest
  return skipWhitespace after

def readSliceBound (rest : Text) : Except SubsetError Text :=
  if peekIs '-' rest || peekDigit rest then do
    let after ← readInt source rest
    return skipWhitespace after
  else .ok rest

def readSliceEnd (rest : Text) : Except SubsetError Text := do
  let after ← readSliceBound source (skipWhitespace rest)
  if peekIs ':' after then
    let behind := skipWhitespace after.tail
    if peekIs '-' behind || peekDigit behind then fail source .sliceStep behind
    else return behind
  else return after

def readSliceStart (rest : Text) : Except SubsetError Text :=
  if peekIs ':' rest then .ok rest else readInt source rest

def parseIndexOrSlice (rest : Text) : Except SubsetError (SegmentKind × Text) := do
  let after ← readSliceStart source rest
  if peekIs ':' (skipWhitespace after) then do
    let behind ← readSliceEnd source (skipWhitespace after).tail
    return (.slice, behind)
  else return (.index, skipWhitespace after)

def parseSelector (rest : Text) : Except SubsetError (SegmentKind × Text) :=
  if peekQuote rest then do
    let after ← readQuoted source rest
    return (.name, after)
  else if peekIs '*' rest then .ok (.wildcard, rest.tail)
  else if peekIs '?' rest then do
    let after ← parseFilter source rest.tail
    return (.filter, after)
  else if peekIs ':' rest || peekIs '-' rest || peekDigit rest then parseIndexOrSlice source rest
  else fail source .syntaxError rest

def closeBracket (kind : SegmentKind) (rest : Text) : Except SubsetError (SegmentKind × Text) :=
  if peekIs ',' rest then fail source .union rest
  else if peekIs ']' rest then .ok (kind, rest.tail)
  else fail source .syntaxError rest

/-- `_parse_bracket_segment`, behind the `[`. -/
def parseBracketSegment (rest : Text) : Except SubsetError (SegmentKind × Text) := do
  let (kind, after) ← parseSelector source (skipWhitespace rest)
  closeBracket source kind (skipWhitespace after)

/-- `_parse_dot_segment`, behind the dot. -/
def parseDotSegment (rest : Text) : Except SubsetError (SegmentKind × Text) :=
  if peekIs '.' rest then fail source .recursiveDescent (.scalar '.' :: rest)
  else if peekIs '*' rest then .ok (.wildcard, rest.tail)
  else do
    let after ← readShorthand source rest
    return (.name, after)

def parseSegment (c : PyChar) (rest : Text) : Except SubsetError (SegmentKind × Text) :=
  if c = '.' then parseDotSegment source rest
  else if c = '[' then parseBracketSegment source rest
  else fail source .syntaxError (c :: rest)

def parseSegments : (fuel : ℕ) → Text → Except SubsetError (List SegmentKind)
  | 0, rest => if rest.isEmpty then .ok [] else fail source .syntaxError rest
  | _ + 1, [] => .ok []
  | fuel + 1, c :: rest => do
      let (kind, after) ← parseSegment source c rest
      let kinds ← parseSegments fuel (skipWhitespace after)
      return kind :: kinds

def parse : Except SubsetError ParsedJsonPath :=
  if peekIs '$' source then do
    let segments ← parseSegments source source.length (skipWhitespace source.tail)
    return { source, segments }
  else fail source .missingRoot source

/-- `parse_json_path`, of a string. -/
def parseJsonPath : Except SubsetError ParsedJsonPath :=
  if source.head?.any isBlank ∨ source.getLast?.any isBlank then
    .error ⟨.surroundingWhitespace, 1, source⟩
  else parse source

end Parser

end ShortReel.JsonPathParser
