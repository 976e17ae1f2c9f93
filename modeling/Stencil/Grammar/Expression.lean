import Stencil.Grammar.Part

/-!
# Expressions

An expression is a primary that tails extend to the left: operators with their right operand,
calls, properties and subscripts. All operators and calls have one strength, and properties and
subscripts bind tighter than a sign or `not`; so an operand beside an operator goes on through
properties and subscripts only. How deeply operands may stand inside each other is the first
argument of `expression`.
-/

namespace Stencil

namespace Terminal

/-- A word with a meaning of its own. -/
def keyword (w : String) : Terminal := ⟨none, .keyword, .code, .word w, w⟩

/-- A punctuation mark. -/
def mark (kind : TokenKind) (expected : String) : Terminal :=
  ⟨none, .punctuation, .code, .kind kind, expected⟩

/-- A name. Every word is one. -/
def name (field : Field) : Terminal :=
  ⟨some field, .identifier, .code, .kind .word, "identifier"⟩

/-- A string. -/
def string (field : Field) : Terminal :=
  ⟨some field, .string, .operand, .kind .quoted, "string literal"⟩

/-- The opening character of a bracket. -/
def opener (b : Bracket) (mode : Mode) : Terminal :=
  ⟨none, .punctuation, mode, .kind b.opener, b.openerExpected⟩

/-- The closing character of a bracket. -/
def closer (b : Bracket) : Terminal := ⟨none, .punctuation, .code, .closer b, b.closerExpected⟩

end Terminal

namespace Part

/-- The comma between the members of a list. -/
def comma : Part := .token (.mark .comma "`,`")

/-- Whether a comma comes next. -/
def atComma : Look := .next .code (.kind .comma)

/-- Members between brackets, with commas between them and at most one comma after the last. A
comma may also stand alone. -/
def bracketed (b : Bracket) (mode : Mode) (member : List Part) : List Part :=
  [.token (.opener b mode),
    .choice atComma [comma]
      [.choice (.next .code (.closer b)) []
        (member ++
          [.repeated atComma [comma, .choice (.next .code (.closer b)) [] member]])],
    .token (.closer b)]

/-- A list in square brackets. -/
def list : List Part := bracketed .square .operand [.operand none .whole]

/-- Pairs of keys and values in braces. -/
def dict : List Part :=
  bracketed .curly .operand
    [.node none .pair
      [.operand (some .key) .whole, .token (.mark .colon "`:`"), .operand (some .value) .whole]]

/-- The arguments of a call, or the parameters of a macro: named ones and others, in any order. -/
def argumentList : List Part :=
  bracketed .round .code
    [.choice .named
      [.node none .keywordArgument
        [.token (.name .key), .token (.mark .assign "`=`"), .operand (some .value) .whole]]
      [.operand none .whole]]

/-- An argument list held under a field. -/
def arguments (field : Field) : Part := .node (some field) .argumentList argumentList

end Part

/-- How an expression is read whose first token is known. -/
inductive Primary where
  /-- The token is the expression. -/
  | leaf (kind : Kind)
  /-- The expression is made of parts, of which the token is the first. -/
  | node (kind : Kind) (parts : List Part)
deriving Repr

/-- An operator before its operand. -/
def Primary.unary (t : Token) : Primary :=
  .node .unaryOperation
    [.token ⟨some .operator, .operator, .operand, .kind t.kind, "expression"⟩,
      .operand (some .operand) .operand]

/-- How an expression is read that begins with `t`, if one does. -/
def Primary.of? (t : Token) : Option Primary :=
  match t.kind with
  | .word =>
    if t.isWord "not" then some (.unary t)
    else if t.isWord "True" || t.isWord "False" then some (.leaf .bool)
    else some (.leaf .identifier)
  | .plus | .minus => some (.unary t)
  | .quoted => some (.leaf .string)
  | .integer => some (.leaf .integer)
  | .float => some (.leaf .float)
  | .leftBracket => some (.node .list Part.list)
  | .leftBrace => some (.node .dict Part.dict)
  | _ => none

/-- A primary that is made of parts is a list, a dictionary or an operator before its operand. -/
theorem Primary.of?_eq_node {t : Token} {kind : Kind} {parts : List Part}
    (h : of? t = some (.node kind parts)) :
    node kind parts = node .list Part.list ∨ node kind parts = node .dict Part.dict ∨
      (node kind parts = unary t ∧ (t.kind = .word ∨ t.kind = .plus ∨ t.kind = .minus)) := by
  unfold of? at h
  split at h
  case h_1 hkind =>
    repeat' split at h
    all_goals cases h
    exact .inr (.inr ⟨rfl, .inl hkind⟩)
  case h_2 hkind =>
    cases h
    exact .inr (.inr ⟨rfl, .inr (.inl hkind)⟩)
  case h_3 hkind =>
    cases h
    exact .inr (.inr ⟨rfl, .inr (.inr hkind)⟩)
  case h_7 =>
    cases h
    exact .inl rfl
  case h_8 =>
    cases h
    exact .inr (.inl rfl)
  all_goals cases h

/-- Reads a primary. -/
def Primary.read (operand : Extent → Parser Tree) : Parser Tree := do
  let t ← Parser.peek .operand
  match Primary.of? t with
  | some (.leaf kind) =>
    Parser.skip t
    return t.leaf none kind
  | some (.node kind parts) =>
    let ts ← Part.readAll operand parts
    return .node none kind ts
  | none => Parser.fail (.unexpectedToken "expression") t.start

/-- What extends an expression to the right. The expression becomes the first child of a node, and
the other children are given by `α`: as parts before they are read, and then as trees. -/
structure Tail (α : Type) where
  /-- The kind of the node. -/
  kind : Kind
  /-- The field under which the node holds the expression. -/
  slot : Field
  /-- What comes after the expression. -/
  more : List α
deriving Repr

namespace Tail

/-- An operator and the operand to its right. -/
def binary (kind : Kind) (t : Token) : Tail Part :=
  ⟨kind, .left,
    [.token ⟨some .operator, .operator, .operator, .kind t.kind, "expression"⟩,
      .operand (some .right) .operand]⟩

/-- Arguments. -/
def call : Tail Part := ⟨.call, .function, [Part.arguments .arguments]⟩

/-- A point and the name of a property. -/
def property : Tail Part :=
  ⟨.propertyAccess, .object, [.token (.mark .dot "`.`"), .token (.name .property)]⟩

/-- An index in square brackets. -/
def subscript : Tail Part :=
  ⟨.subscript, .object,
    [.token (.mark .leftBracket "`[`"), .operand (some .index) .whole,
      .token (.mark .rightBracket "`]`")]⟩

/-- The tail that begins with `t`, if one does. -/
def of? (t : Token) : Option (Tail Part) :=
  match t.kind with
  | .equal | .notEqual | .less | .greater | .lessEqual | .greaterEqual | .notIn =>
    some (binary .comparison t)
  | .word => if t.isWord "in" then some (binary .comparison t) else none
  | .plus | .minus | .star | .starStar | .slash | .slashSlash | .percent =>
    some (binary .binaryOperation t)
  | .leftParen => some call
  | .dot => some property
  | .leftBracket => some subscript
  | _ => none

/-- Whether a token of a kind compares what stands on its sides. The word `in` does too. -/
def comparisonKinds : List TokenKind :=
  [.equal, .notEqual, .less, .greater, .lessEqual, .greaterEqual, .notIn]

/-- Whether a token of a kind computes with what stands on its sides. -/
def arithmeticKinds : List TokenKind :=
  [.plus, .minus, .star, .starStar, .slash, .slashSlash, .percent]

/-- A tail is arguments, a property, a subscript, or an operator with its operand. -/
theorem of?_eq_some {t : Token} {tail : Tail Part} (h : of? t = some tail) :
    (tail = call ∧ t.kind = .leftParen) ∨ (tail = property ∧ t.kind = .dot) ∨
      (tail = subscript ∧ t.kind = .leftBracket) ∨
      (tail = binary .comparison t ∧ (t.kind ∈ comparisonKinds ∨ t.isWord "in")) ∨
      (tail = binary .binaryOperation t ∧ t.kind ∈ arithmeticKinds) := by
  unfold of? at h
  split at h
  case h_8 =>
    split at h
    · rename_i hin
      cases h
      exact .inr (.inr (.inr (.inl ⟨rfl, .inr hin⟩)))
    · cases h
  case h_16 hkind =>
    cases h
    exact .inl ⟨rfl, hkind⟩
  case h_17 hkind =>
    cases h
    exact .inr (.inl ⟨rfl, hkind⟩)
  case h_18 hkind =>
    cases h
    exact .inr (.inr (.inl ⟨rfl, hkind⟩))
  case h_19 => cases h
  all_goals
    rename_i hkind
    cases h
    simp [comparisonKinds, arithmeticKinds, hkind]

/-- The mode in which the token after an expression is looked at. Only where operators that are
words may follow are two words read as one. -/
def mode : Extent → Mode
  | .target => .code
  | _ => .operator

/-- Whether an expression of an extent goes on through a tail that begins with `t`. -/
def admits (extent : Extent) (t : Token) : Bool :=
  match extent with
  | .whole => true
  | .target => t.kind ≠ .word
  | .operand => t.kind = .dot ∨ t.kind = .leftBracket

/-- Reads the next tail of an expression, if it has one. -/
def read (operand : Extent → Parser Tree) (extent : Extent) : Parser (Option (Tail Tree)) := do
  let t ← Parser.peek (mode extent)
  match if admits extent t then of? t else none with
  | some tail =>
    let more ← Part.readAll operand tail.more
    return some ⟨tail.kind, tail.slot, more⟩
  | none => return none

/-- The expression `t` extended by a tail. -/
def attach (t : Tree) (tail : Tail Tree) : Tree :=
  .node none tail.kind (t.under (some tail.slot) :: tail.more)

end Tail

/-- Reads an expression of an extent, inside which operands nest less than `depth` deep. -/
def expression : Nat → Extent → Parser Tree
  | 0, _ => fun s => .error ⟨⟨.nestingTooDeep, s⟩, s⟩
  | depth + 1, extent => do
    let head ← Primary.read (expression depth)
    let tails ← Parser.many (Tail.read (expression depth) extent)
    return tails.foldl Tail.attach head

end Stencil
