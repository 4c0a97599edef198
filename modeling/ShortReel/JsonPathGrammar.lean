import ShortReel.JsonPathParser

/-!
# The grammar of the gate

The productions of RFC 9535 that the gate documents: child segments with one selector, slices without
a step, filters over singular queries and literals. A production relates a text to what it leaves of
it. Nothing here is taken from the parser but the characters.

The productions of a compared query have a parameter: RFC 9535 allows no blank inside its brackets.
-/

namespace ShortReel.JsonPathGrammar

open JsonPathParser (PyChar Text SegmentKind)

def Blank : PyChar → Prop
  | .scalar c => c = ' ' ∨ c = '\t' ∨ c = '\n' ∨ c = '\r'
  | .surrogate _ => False

def Digit : PyChar → Prop
  | .scalar c => 0x30 ≤ c.toNat ∧ c.toNat ≤ 0x39
  | .surrogate _ => False

def NonzeroDigit : PyChar → Prop
  | .scalar c => 0x31 ≤ c.toNat ∧ c.toNat ≤ 0x39
  | .surrogate _ => False

/-- `name-first`. -/
def NameFirst : PyChar → Prop
  | .scalar c => (0x41 ≤ c.toNat ∧ c.toNat ≤ 0x5A) ∨ (0x61 ≤ c.toNat ∧ c.toNat ≤ 0x7A) ∨ c = '_' ∨
      0x80 ≤ c.toNat
  | .surrogate _ => False

/-- `name-char`. -/
def NameChar (c : PyChar) : Prop :=
  NameFirst c ∨ Digit c

instance : DecidablePred Blank
  | .scalar c => inferInstanceAs (Decidable (c = ' ' ∨ c = '\t' ∨ c = '\n' ∨ c = '\r'))
  | .surrogate _ => inferInstanceAs (Decidable False)

instance : DecidablePred Digit
  | .scalar c => inferInstanceAs (Decidable (0x30 ≤ c.toNat ∧ c.toNat ≤ 0x39))
  | .surrogate _ => inferInstanceAs (Decidable False)

instance : DecidablePred NameFirst
  | .scalar c => inferInstanceAs (Decidable ((0x41 ≤ c.toNat ∧ c.toNat ≤ 0x5A) ∨
      (0x61 ≤ c.toNat ∧ c.toNat ≤ 0x7A) ∨ c = '_' ∨ 0x80 ≤ c.toNat))
  | .surrogate _ => inferInstanceAs (Decidable False)

instance : DecidablePred NameChar := fun c =>
  inferInstanceAs (Decidable (NameFirst c ∨ Digit c))

/-- `HEXDIG`, with its value. -/
def HexDigit (c : PyChar) (value : ℕ) : Prop :=
  ∃ d : Char, c = .scalar d ∧
    ((0x30 ≤ d.toNat ∧ d.toNat ≤ 0x39 ∧ value = d.toNat - 0x30) ∨
      (0x41 ≤ d.toNat ∧ d.toNat ≤ 0x46 ∧ value = d.toNat - 0x41 + 10) ∨
      (0x61 ≤ d.toNat ∧ d.toNat ≤ 0x66 ∧ value = d.toNat - 0x61 + 10))

def Unescaped (quote : Char) : PyChar → Prop
  | .scalar c => 0x20 ≤ c.toNat ∧ c ≠ '\\' ∧ c ≠ quote
  | .surrogate _ => False

/-- What may stand behind `ESC`, but for `u`. -/
def Escapable (quote : Char) (c : PyChar) : Prop :=
  ∃ d ∈ ['b', 'f', 'n', 'r', 't', '/', '\\', quote], c = .scalar d

/-- `*p`. -/
inductive Run (p : PyChar → Prop) : Text → Text → Prop where
  | nil {rest : Text} : Run p rest rest
  | cons {c : PyChar} {text rest : Text} (hc : p c) (hrun : Run p text rest) : Run p (c :: text) rest

/-- `S`. -/
abbrev Blanks : Text → Text → Prop :=
  Run Blank

def Word (word : List Char) (text rest : Text) : Prop :=
  text = word.map .scalar ++ rest

inductive Int : Text → Text → Prop where
  | zero {rest : Text} : Int ('0' :: rest) rest
  | positive {d : PyChar} {text rest : Text} (hd : NonzeroDigit d) (hrun : Run Digit text rest) :
      Int (d :: text) rest
  | negative {d : PyChar} {text rest : Text} (hd : NonzeroDigit d) (hrun : Run Digit text rest) :
      Int ('-' :: d :: text) rest

/-- `1*DIGIT`. -/
inductive Digits : Text → Text → Prop where
  | digits {d : PyChar} {text rest : Text} (hd : Digit d) (hrun : Run Digit text rest) :
      Digits (d :: text) rest

/-- `int / "-0"`. -/
inductive IntegerPart : Text → Text → Prop where
  | int {text rest : Text} (h : Int text rest) : IntegerPart text rest
  | negativeZero {rest : Text} : IntegerPart ('-' :: '0' :: rest) rest

/-- `[ frac ]`. -/
inductive Fraction : Text → Text → Prop where
  | none {rest : Text} : Fraction rest rest
  | digits {text rest : Text} (h : Digits text rest) : Fraction ('.' :: text) rest

/-- `[ exp ]`. -/
inductive Exponent : Text → Text → Prop where
  | none {rest : Text} : Exponent rest rest
  | unsigned {e : Char} {text rest : Text} (he : e = 'e' ∨ e = 'E') (h : Digits text rest) :
      Exponent (e :: text) rest
  | signed {e sign : Char} {text rest : Text} (he : e = 'e' ∨ e = 'E')
      (hsign : sign = '+' ∨ sign = '-') (h : Digits text rest) : Exponent (e :: sign :: text) rest

inductive Number : Text → Text → Prop where
  | number {text fraction exponent rest : Text} (hint : IntegerPart text fraction)
      (hfraction : Fraction fraction exponent) (hexponent : Exponent exponent rest) :
      Number text rest

/-- `member-name-shorthand`. -/
inductive MemberName : Text → Text → Prop where
  | name {c : PyChar} {text rest : Text} (hc : NameFirst c) (hrun : Run NameChar text rest) :
      MemberName (c :: text) rest

/-- `4HEXDIG`, with its value. -/
inductive HexQuad : Text → ℕ → Text → Prop where
  | quad {a b c d : PyChar} {w x y z : ℕ} {rest : Text} (ha : HexDigit a w) (hb : HexDigit b x)
      (hc : HexDigit c y) (hd : HexDigit d z) :
      HexQuad (a :: b :: c :: d :: rest) (((w * 16 + x) * 16 + y) * 16 + z) rest

inductive HexChar : Text → Text → Prop where
  | nonSurrogate {text rest : Text} {code : ℕ} (hquad : HexQuad text code rest)
      (hcode : code < 0xD800 ∨ 0xDFFF < code) : HexChar text rest
  | pair {text behind rest : Text} {high low : ℕ} (hfirst : HexQuad text high ('\\' :: 'u' :: behind))
      (hhigh : 0xD800 ≤ high ∧ high ≤ 0xDBFF) (hsecond : HexQuad behind low rest)
      (hlow : 0xDC00 ≤ low ∧ low ≤ 0xDFFF) : HexChar text rest

/-- `*double-quoted` or `*single-quoted`, and the quote behind it. -/
inductive QuotedRest (quote : Char) : Text → Text → Prop where
  | close {rest : Text} : QuotedRest quote (quote :: rest) rest
  | unescaped {c : PyChar} {text rest : Text} (hc : Unescaped quote c)
      (hrest : QuotedRest quote text rest) : QuotedRest quote (c :: text) rest
  | escaped {c : PyChar} {text rest : Text} (hc : Escapable quote c)
      (hrest : QuotedRest quote text rest) : QuotedRest quote ('\\' :: c :: text) rest
  | unicode {text behind rest : Text} (hchar : HexChar text behind)
      (hrest : QuotedRest quote behind rest) : QuotedRest quote ('\\' :: 'u' :: text) rest

/-- `string-literal`. -/
inductive StringLiteral : Text → Text → Prop where
  | quoted {quote : Char} {text rest : Text} (hquote : quote = '\'' ∨ quote = '"')
      (hrest : QuotedRest quote text rest) : StringLiteral (quote :: text) rest

inductive Literal : Text → Text → Prop where
  | number {text rest : Text} (h : Number text rest) : Literal text rest
  | string {text rest : Text} (h : StringLiteral text rest) : Literal text rest
  | keyword {word : List Char} {text rest : Text}
      (hword : word ∈ [['t', 'r', 'u', 'e'], ['f', 'a', 'l', 's', 'e'], ['n', 'u', 'l', 'l']])
      (h : Word word text rest) : Literal text rest

/-- What stands between a bracket and its selector: `S` where the query may be padded. -/
def Padding (padded : Bool) (text rest : Text) : Prop :=
  if padded then Blanks text rest else text = rest

/-- `name-segment / index-segment`. -/
inductive SingularSegment (padded : Bool) : Text → Text → Prop where
  | shorthand {text rest : Text} (h : MemberName text rest) : SingularSegment padded ('.' :: text) rest
  | name {text inner behind rest : Text} (hopen : Padding padded text inner)
      (h : StringLiteral inner behind) (hclose : Padding padded behind (']' :: rest)) :
      SingularSegment padded ('[' :: text) rest
  | index {text inner behind rest : Text} (hopen : Padding padded text inner) (h : Int inner behind)
      (hclose : Padding padded behind (']' :: rest)) : SingularSegment padded ('[' :: text) rest

/-- `singular-query-segments`. -/
inductive SingularSegments (padded : Bool) : Text → Text → Prop where
  | nil {rest : Text} : SingularSegments padded rest rest
  | cons {text inner behind rest : Text} (hblanks : Blanks text inner)
      (hsegment : SingularSegment padded inner behind)
      (hrest : SingularSegments padded behind rest) : SingularSegments padded text rest

/-- `rel-singular-query`. -/
inductive SingularQuery (padded : Bool) : Text → Text → Prop where
  | query {text rest : Text} (h : SingularSegments padded text rest) :
      SingularQuery padded ('@' :: text) rest

inductive Comparable (padded : Bool) : Text → Text → Prop where
  | literal {text rest : Text} (h : Literal text rest) : Comparable padded text rest
  | query {text rest : Text} (h : SingularQuery padded text rest) : Comparable padded text rest

/-- `comparison-op`. -/
inductive ComparisonOperator : Text → Text → Prop where
  | word {operator : List Char} {text rest : Text}
      (hoperator : operator ∈ [['=', '='], ['!', '='], ['<', '='], ['>', '='], ['<'], ['>']])
      (h : Word operator text rest) : ComparisonOperator text rest

/-- `[logical-not-op S]`. -/
inductive Negation : Text → Text → Prop where
  | none {rest : Text} : Negation rest rest
  | not {text rest : Text} (h : Blanks text rest) : Negation ('!' :: text) rest

inductive Level where
  | or
  | and
  | basic
  deriving DecidableEq, Repr

/-- `logical-or-expr`, `logical-and-expr` and `basic-expr`. An existence test takes its query from
`rel-query`, whose brackets may be padded. -/
inductive LogicalExpr (padded : Bool) : Level → Text → Text → Prop where
  | disjunct {text rest : Text} (h : LogicalExpr padded .and text rest) :
      LogicalExpr padded .or text rest
  | or {text bar behind next rest : Text} (hfirst : LogicalExpr padded .and text bar)
      (hbar : Blanks bar ('|' :: '|' :: behind)) (hblanks : Blanks behind next)
      (hrest : LogicalExpr padded .or next rest) : LogicalExpr padded .or text rest
  | conjunct {text rest : Text} (h : LogicalExpr padded .basic text rest) :
      LogicalExpr padded .and text rest
  | and {text amp behind next rest : Text} (hfirst : LogicalExpr padded .basic text amp)
      (hamp : Blanks amp ('&' :: '&' :: behind)) (hblanks : Blanks behind next)
      (hrest : LogicalExpr padded .and next rest) : LogicalExpr padded .and text rest
  | paren {text inner first behind rest : Text} (hnegation : Negation text ('(' :: inner))
      (hopen : Blanks inner first) (h : LogicalExpr padded .or first behind)
      (hclose : Blanks behind (')' :: rest)) : LogicalExpr padded .basic text rest
  | test {text query rest : Text} (hnegation : Negation text query)
      (h : SingularQuery true query rest) : LogicalExpr padded .basic text rest
  | comparison {text operator behind right rest next : Text} (hleft : Comparable padded text operator)
      (hoperator : Blanks operator next) (h : ComparisonOperator next behind)
      (hblanks : Blanks behind right) (hright : Comparable padded right rest) :
      LogicalExpr padded .basic text rest

/-- `[start S]` and `[end S]`. -/
inductive SliceBound : Text → Text → Prop where
  | none {rest : Text} : SliceBound rest rest
  | some {text behind rest : Text} (h : Int text behind) (hblanks : Blanks behind rest) :
      SliceBound text rest

/-- `selector`, without a step in a slice. -/
inductive Selector (padded : Bool) : SegmentKind → Text → Text → Prop where
  | name {text rest : Text} (h : StringLiteral text rest) : Selector padded .name text rest
  | wildcard {rest : Text} : Selector padded .wildcard ('*' :: rest) rest
  | index {text rest : Text} (h : Int text rest) : Selector padded .index text rest
  | slice {text behind next rest : Text} (hstart : SliceBound text (':' :: behind))
      (hblanks : Blanks behind next) (hend : SliceBound next rest) : Selector padded .slice text rest
  | openStep {text behind next rest : Text} (hstart : SliceBound text (':' :: behind))
      (hblanks : Blanks behind next) (hend : SliceBound next (':' :: rest)) :
      Selector padded .slice text rest
  | filter {text next rest : Text} (hblanks : Blanks text next)
      (h : LogicalExpr padded .or next rest) : Selector padded .filter ('?' :: text) rest

/-- `child-segment`, with one selector in a bracket. -/
inductive ChildSegment (padded : Bool) : SegmentKind → Text → Text → Prop where
  | wildcard {rest : Text} : ChildSegment padded .wildcard ('.' :: '*' :: rest) rest
  | shorthand {text rest : Text} (h : MemberName text rest) :
      ChildSegment padded .name ('.' :: text) rest
  | bracket {kind : SegmentKind} {text inner behind rest : Text} (hopen : Blanks text inner)
      (h : Selector padded kind inner behind) (hclose : Blanks behind (']' :: rest)) :
      ChildSegment padded kind ('[' :: text) rest

/-- `segments`, to the end of the text. -/
inductive Segments (padded : Bool) : List SegmentKind → Text → Prop where
  | nil : Segments padded [] []
  | cons {kind : SegmentKind} {kinds : List SegmentKind} {text inner behind : Text}
      (hblanks : Blanks text inner) (h : ChildSegment padded kind inner behind)
      (hrest : Segments padded kinds behind) : Segments padded (kind :: kinds) text

/-- `jsonpath-query`. -/
inductive Query (padded : Bool) : List SegmentKind → Text → Prop where
  | query {kinds : List SegmentKind} {text : Text} (h : Segments padded kinds text) :
      Query padded kinds ('$' :: text)

end ShortReel.JsonPathGrammar
