import Stencil.Tree.Place
import Stencil.Token.Quotation
import Stencil.Decimal.Double

/-!
# Views

What the nodes of a tree mean. A view names the parts of a node by their role. A part that the
tree lacks is missing from the view too, and so is one of the wrong kind.
-/

namespace Stencil

/-- The value of an attribute. -/
inductive AttributeValue where
  | string (n : Node)
  | value (n : Node)

/-- An argument of a call, or a parameter of a macro. -/
inductive Argument where
  | positional (n : Node)
  | named (n : Node)

/-- What a node means, by its kind. -/
inductive View where
  | sourceFile (items : List Node)
  | text (text : List Char)
  | value (expr : Option Node)
  | statement (body : Option Node) (leadingTrim trailingTrim : Bool)
  | comment (content : List Char)
  | element (tagName closeTagName : Option (List Char)) (selfClosing : Bool)
      (attributes items : List Node)
  | tagAttribute (name : Option (List Char)) (value : Option AttributeValue)
  | forStatement (target iterable condition : Option Node)
  | ifStatement (condition : Option Node) (elifClauses : List Node) (elseClause : Option Node)
  | elifClause (condition : Option Node)
  | elseClause
  | includeStatement (template context : Option Node) (ignoreMissing : Bool)
  | extendsStatement (parentTemplate : Option Node)
  | blockStatement (name : Option Node)
  | setStatement (variableName value : Option Node)
  | macroStatement (name params : Option Node)
  | callStatement (macroExpr params : Option Node)
  | filterStatement (name : Option Node)
  | rawStatement
  | importStatement (module aliasName : Option Node)
  | fromStatement (module : Option Node) (names : List Node)
  | importedName (name aliasName : Option Node)
  | endStatement (keyword : List Char)
  | comparison (left : Option Node) (operator : List Char) (right : Option Node)
  | binaryOperation (left : Option Node) (operator : List Char) (right : Option Node)
  | unaryOperation (operator : List Char) (operand : Option Node)
  | call (function arguments : Option Node)
  | propertyAccess (object property : Option Node)
  | subscript (object index : Option Node)
  | list (items : List Node)
  | dict (pairs : List Node)
  | pair (key value : Option Node)
  | string (value : List Char)
  | bool (value : Bool)
  | integer (value : Option Int)
  | float (bits : DoubleBits)
  | identifier (name : List Char)
  | argumentList (arguments : List Argument)
  | keywordArgument (key value : Option Node)

namespace Node

/-- The child under a field, if it is an expression. -/
def expr? (n : Node) (f : Field) : Option Node := (n.child? f).filter fun c => c.kind.isExpression

/-- The child under a field, if it is of a kind. -/
def part? (n : Node) (f : Field) (k : Kind) : Option Node := (n.child? f).filter fun c => c.kind = k

/-- The children that are of a kind. -/
def ofKind (n : Node) (k : Kind) : List Node := n.children.filter fun c => c.kind = k

/-- The children that are items. -/
def items (n : Node) : List Node := n.children.filter fun c => c.kind.isItem

/-- The text of the child under a field, empty if there is none. -/
def textUnder (n : Node) (f : Field) : List Char := (n.child? f).elim [] text

/-- Whether some child is a token of a kind with a certain text. -/
def hasToken (n : Node) (k : Kind) (w : String) : Bool :=
  n.children.any fun c => c.kind = k && c.text = w.toList

/-- Text with every run of blanks inside it written as one space. -/
def squeeze : List Char → List Char
  | c :: d :: s =>
    if isBlank c then
      if isBlank d then squeeze (d :: s) else ' ' :: squeeze (d :: s)
    else c :: squeeze (d :: s)
  | s => s

/-- The value of an integer as it is written, if it fits 64 bits with a sign. -/
def integerValue (text : List Char) : Option Int :=
  let v := Decimal.intValue (text.filter (· ≠ '_'))
  if -0x8000000000000000 ≤ v ∧ v < 0x8000000000000000 then some v else none

/-- The value of a float as it is written. -/
def floatValue (text : List Char) : DoubleBits :=
  .ofDecimal (.ofText (text.filter (· ≠ '_')))

/-- The value of an attribute, if it has one. -/
def attributeValue? (n : Node) : Option AttributeValue :=
  (n.child? .value).bind fun c =>
    match c.kind with
    | .string => some (.string c)
    | .value => some (.value c)
    | _ => none

/-- The arguments among the children. -/
def arguments (n : Node) : List Argument :=
  n.children.filterMap fun c =>
    if c.kind = .keywordArgument then some (.named c)
    else if c.kind.isExpression then some (.positional c)
    else none

/-- What a node means; the kinds that need no view have none. -/
def view? (n : Node) : Option View :=
  match n.kind with
  | .sourceFile => some (.sourceFile n.items)
  | .text => some (.text n.text)
  | .value => some (.value (n.expr? .expression))
  | .statement =>
    some (.statement (n.children.find? fun c => c.kind.isStatementBody)
      (n.child? .leadingTrim).isSome (n.child? .trailingTrim).isSome)
  | .comment => some (.comment (n.textUnder .content))
  | .element =>
    some (.element ((n.child? .name).map text) ((n.child? .closeName).map text)
      (n.hasToken .punctuation "/>") (n.ofKind .tagAttribute) n.items)
  | .tagAttribute => some (.tagAttribute ((n.child? .name).map text) n.attributeValue?)
  | .forStatement =>
    some (.forStatement (n.expr? .target) (n.expr? .iterable) (n.expr? .condition))
  | .ifStatement =>
    some (.ifStatement (n.expr? .condition)
      ((n.childrenUnder .elifClause).filter fun c => c.kind = .elifClause)
      (n.part? .elseClause .elseClause))
  | .elifClause => some (.elifClause (n.expr? .condition))
  | .elseClause => some .elseClause
  | .includeStatement =>
    some (.includeStatement (n.part? .template .string) (n.part? .context .dict)
      (n.hasToken .keyword "missing"))
  | .extendsStatement => some (.extendsStatement (n.part? .parentTemplate .string))
  | .blockStatement => some (.blockStatement (n.part? .blockName .identifier))
  | .setStatement => some (.setStatement (n.part? .variableName .identifier) (n.expr? .value))
  | .macroStatement =>
    some (.macroStatement (n.part? .macroName .identifier) (n.part? .params .argumentList))
  | .callStatement =>
    some (.callStatement (n.expr? .macroExpr) (n.part? .params .argumentList))
  | .filterStatement => some (.filterStatement (n.part? .filterName .identifier))
  | .rawStatement => some .rawStatement
  | .importStatement =>
    some (.importStatement (n.part? .module .string) (n.part? .aliasName .identifier))
  | .fromStatement => some (.fromStatement (n.part? .module .string) (n.ofKind .importedName))
  | .importedName =>
    some (.importedName (n.part? .name .identifier) (n.part? .aliasName .identifier))
  | .endStatement => some (.endStatement ((n.childOfKind? .keyword).elim [] text))
  | .comparison =>
    some (.comparison (n.expr? .left) (squeeze (n.textUnder .operator)) (n.expr? .right))
  | .binaryOperation =>
    some (.binaryOperation (n.expr? .left) (n.textUnder .operator) (n.expr? .right))
  | .unaryOperation => some (.unaryOperation (n.textUnder .operator) (n.expr? .operand))
  | .call => some (.call (n.expr? .function) (n.part? .arguments .argumentList))
  | .propertyAccess =>
    some (.propertyAccess (n.expr? .object) (n.part? .property .identifier))
  | .subscript => some (.subscript (n.expr? .object) (n.expr? .index))
  | .list => some (.list (n.children.filter fun c => c.kind.isExpression))
  | .dict => some (.dict (n.ofKind .pair))
  | .pair => some (.pair (n.expr? .key) (n.expr? .value))
  | .string => some (.string (Quotation.value n.text))
  | .bool => some (.bool (n.text = "True".toList))
  | .integer => some (.integer (integerValue n.text))
  | .float => some (.float (floatValue n.text))
  | .identifier => some (.identifier n.text)
  | .argumentList => some (.argumentList n.arguments)
  | .keywordArgument =>
    some (.keywordArgument (n.part? .key .identifier) (n.expr? .value))
  | _ => none

end Node

end Stencil
