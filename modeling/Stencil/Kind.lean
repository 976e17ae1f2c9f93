/-!
# Kinds and fields

The kinds of nodes that a template's tree is made of, and the fields under which a node holds its
children. Both are written by fixed labels.
-/

namespace Stencil

/-- What a node of the tree is. The last five kinds are tokens without a meaning of their own. -/
inductive Kind where
  | sourceFile | text | value | statement | comment | commentContent
  | element | tagName | tagAttribute | attributeName
  | forStatement | ifStatement | elifClause | elseClause | includeStatement | extendsStatement
  | blockStatement | setStatement | macroStatement | callStatement | filterStatement
  | rawStatement | importStatement | fromStatement | importedName | endStatement
  | comparison | binaryOperation | unaryOperation | call | propertyAccess | subscript
  | list | dict | pair | string | bool | integer | float | identifier
  | argumentList | keywordArgument
  | error
  | delimiter | trimMarker | keyword | punctuation | operator
deriving DecidableEq, Repr

namespace Kind

/-- The label by which a kind is written. -/
def label : Kind → String
  | sourceFile => "source_file"
  | text => "text"
  | value => "value"
  | statement => "statement"
  | comment => "comment"
  | commentContent => "comment_content"
  | element => "element"
  | tagName => "tag_name"
  | tagAttribute => "attribute"
  | attributeName => "attribute_name"
  | forStatement => "for_statement"
  | ifStatement => "if_statement"
  | elifClause => "elif_clause"
  | elseClause => "else_clause"
  | includeStatement => "include_statement"
  | extendsStatement => "extends_statement"
  | blockStatement => "block_statement"
  | setStatement => "set_statement"
  | macroStatement => "macro_statement"
  | callStatement => "call_statement"
  | filterStatement => "filter_statement"
  | rawStatement => "raw_statement"
  | importStatement => "import_statement"
  | fromStatement => "from_statement"
  | importedName => "imported_name"
  | endStatement => "end_statement"
  | comparison => "comparison"
  | binaryOperation => "binary_operation"
  | unaryOperation => "unary_operation"
  | call => "call"
  | propertyAccess => "property_access"
  | subscript => "subscript"
  | list => "list"
  | dict => "dict"
  | pair => "pair"
  | string => "string"
  | bool => "bool"
  | integer => "integer"
  | float => "float"
  | identifier => "identifier"
  | argumentList => "argument_list"
  | keywordArgument => "keyword_argument"
  | error => "ERROR"
  | delimiter => "delimiter"
  | trimMarker => "trim_marker"
  | keyword => "keyword"
  | punctuation => "punctuation"
  | operator => "operator"

/-- Every kind, in the order of the declaration. -/
def all : List Kind :=
  [sourceFile, text, value, statement, comment, commentContent, element, tagName, tagAttribute,
    attributeName, forStatement, ifStatement, elifClause, elseClause, includeStatement,
    extendsStatement, blockStatement, setStatement, macroStatement, callStatement,
    filterStatement, rawStatement, importStatement, fromStatement, importedName, endStatement,
    comparison, binaryOperation, unaryOperation, call, propertyAccess, subscript, list, dict,
    pair, string, bool, integer, float, identifier, argumentList, keywordArgument, error,
    delimiter, trimMarker, keyword, punctuation, operator]

/-- The kind with a given label. -/
def ofLabel? (s : String) : Option Kind := all.find? fun k => k.label = s

/-- Every kind is found by its label. -/
theorem ofLabel?_label (k : Kind) : ofLabel? k.label = some k := by
  cases k <;> decide +kernel

/-- Named kinds are those that the written form of a tree shows: all but the bare tokens. -/
def isNamed : Kind → Bool
  | delimiter | trimMarker | keyword | punctuation | operator => false
  | _ => true

/-- The kinds of expressions. -/
def isExpression : Kind → Bool
  | comparison | binaryOperation | unaryOperation | call | propertyAccess | subscript
  | list | dict | string | bool | integer | float | identifier => true
  | _ => false

/-- The kinds of what stands between the delimiters of a statement. -/
def isStatementBody : Kind → Bool
  | forStatement | ifStatement | elifClause | elseClause | includeStatement | extendsStatement
  | blockStatement | setStatement | macroStatement | callStatement | filterStatement
  | rawStatement | importStatement | fromStatement | endStatement => true
  | _ => false

/-- The kinds of what a template, or the body of an element, is a sequence of. -/
def isItem : Kind → Bool
  | text | value | statement | comment | element | error => true
  | _ => false

end Kind

/-- The role under which a node holds one of its children. -/
inductive Field where
  | openDelimiter | closeDelimiter | leadingTrim | trailingTrim | expression | content
  | name | closeName | value | target | iterable | condition | elifClause | elseClause
  | template | context | parentTemplate | blockName | variableName | macroName | params
  | macroExpr | filterName | module | aliasName | left | right | operator | operand
  | object | property | index | function | arguments | key
deriving DecidableEq, Repr

namespace Field

/-- The label by which a field is written. -/
def label : Field → String
  | openDelimiter => "open_delimiter"
  | closeDelimiter => "close_delimiter"
  | leadingTrim => "leading_trim"
  | trailingTrim => "trailing_trim"
  | expression => "expression"
  | content => "content"
  | name => "name"
  | closeName => "close_name"
  | value => "value"
  | target => "target"
  | iterable => "iterable"
  | condition => "condition"
  | elifClause => "elif"
  | elseClause => "else"
  | template => "template"
  | context => "context"
  | parentTemplate => "parent_template"
  | blockName => "block_name"
  | variableName => "variable"
  | macroName => "macro_name"
  | params => "params"
  | macroExpr => "macro"
  | filterName => "filter_name"
  | module => "module"
  | aliasName => "alias"
  | left => "left"
  | right => "right"
  | operator => "operator"
  | operand => "operand"
  | object => "object"
  | property => "property"
  | index => "index"
  | function => "function"
  | arguments => "arguments"
  | key => "key"

/-- Every field, in the order of the declaration. -/
def all : List Field :=
  [openDelimiter, closeDelimiter, leadingTrim, trailingTrim, expression, content, name,
    closeName, value, target, iterable, condition, elifClause, elseClause, template, context,
    parentTemplate, blockName, variableName, macroName, params, macroExpr, filterName, module,
    aliasName, left, right, operator, operand, object, property, index, function, arguments, key]

/-- The field with a given label. -/
def ofLabel? (s : String) : Option Field := all.find? fun f => f.label = s

/-- Every field is found by its label. -/
theorem ofLabel?_label (f : Field) : ofLabel? f.label = some f := by
  cases f <;> decide +kernel

end Field

end Stencil
