import Stencil.Grammar.Expression

/-!
# Statements

The forms of statements, each named by its first word, and the production of a value. A statement
stands alone: nothing here pairs a statement that opens a block with the one that closes it.
-/

namespace Stencil

namespace Part

/-- A keyword. -/
def word (w : String) : Part := .token (.keyword w)

/-- Whether a certain word comes next. -/
def atWord (w : String) : Look := .next .code (.word w)

/-- Parts that a keyword begins and that may be missing. -/
def optional (w : String) (parts : List Part) : Part := .choice (atWord w) (word w :: parts) []

/-- An expression held under a field. -/
def expr (field : Field) : Part := .operand (some field) .whole

/-- The clause for another condition, as a node held under `field`. -/
def elif (field : Option Field) : Part :=
  .node field .elifClause [word "elif", expr .condition]

/-- The clause for all other cases, as a node held under `field`. -/
def otherwise (field : Option Field) : Part := .node field .elseClause [word "else"]

/-- A name that is imported, perhaps under another name. -/
def importedName : Part :=
  .node none .importedName
    [.token (.name .name), optional "as" [.token (.name .aliasName)]]

/-- A value: an expression between its delimiters. The opening one is read in `mode`. -/
def value (field : Option Field) (mode : Mode) (expected : String) : Part :=
  .enclosed field .value ⟨some .openDelimiter, .delimiter, mode, .kind .valueOpen, expected⟩
    [expr .expression,
      .token ⟨some .closeDelimiter, .delimiter, .code, .kind .valueClose, "`\x7d\x7d`"⟩]

end Part

namespace Statement

open Stencil.Part

/-- The forms of statements, by the word that each begins with. -/
def forms : List (String × Part) :=
  [("for", .node none .forStatement
      [word "for", .operand (some .target) .target, word "in", expr .iterable,
        optional "if" [expr .condition]]),
    ("if", .node none .ifStatement
      [word "if", expr .condition, .repeated (atWord "elif") [elif (some .elifClause)],
        .choice (atWord "else") [otherwise (some .elseClause)] []]),
    ("elif", elif none),
    ("else", otherwise none),
    ("include", .node none .includeStatement
      [word "include", .token (.string .template),
        optional "with" [.node (some .context) .dict dict],
        optional "ignore" [word "missing"]]),
    ("extends", .node none .extendsStatement
      [word "extends", .token (.string .parentTemplate)]),
    ("block", .node none .blockStatement [word "block", .token (.name .blockName)]),
    ("set", .node none .setStatement
      [word "set", .token (.name .variableName), .token (.mark .assign "`=`"), expr .value]),
    ("macro", .node none .macroStatement
      [word "macro", .token (.name .macroName), arguments .params]),
    ("call", .node none .callStatement
      [word "call",
        .choice (.next .operand (.kind .statementClose)) []
          [.choice (.next .operand (.kind .trim)) []
            [.choice (.next .operand (.kind .leftParen)) [arguments .params] [callee]]]]),
    ("filter", .node none .filterStatement [word "filter", .token (.name .filterName)]),
    ("raw", .node none .rawStatement [word "raw"]),
    ("import", .node none .importStatement
      [word "import", .token (.string .module), word "as", .token (.name .aliasName)]),
    ("from", .node none .fromStatement
      [word "from", .token (.string .module), word "import", importedName,
        .repeated atComma [comma, importedName]])]

/-- The words that end a block. Each is a statement of its own. -/
def endWords : List String :=
  ["endmacro", "endfor", "endif", "endblock", "endraw", "endcall", "endfilter"]

/-- All forms of statements, by the word that each begins with. -/
def bodies : List (String × Part) :=
  forms ++ endWords.map fun w => (w, .node none .endStatement [word w])

/-- What stands between the delimiters of a statement, apart from trim markers: the form that the
next word begins. -/
def body : List Part :=
  bodies.foldr (fun (w, form) others => [.choice (atWord w) [form] others])
    [.choice (.next .code (.kind .endOfInput))
      [.refuse (.unexpectedToken "statement keyword")] [.refuse .unknownStatementKeyword]]

end Statement

/-- A statement between its delimiters. A hyphen that touches either delimiter is a trim marker. -/
def Part.statement : Part :=
  .enclosed none .statement
    ⟨some .openDelimiter, .delimiter, .text, .kind .statementOpen, "`\x7b%`"⟩
    ([.choice (.next .code (.touching .hyphen))
        [.token ⟨some .leadingTrim, .trimMarker, .code, .touching .hyphen, "`-`"⟩] []]
      ++ Statement.body ++
      [.choice (.next .code (.kind .trim))
        [.token ⟨some .trailingTrim, .trimMarker, .code, .kind .trim, "`-`"⟩] [],
      .token ⟨some .closeDelimiter, .delimiter, .code, .kind .statementClose, "`%\x7d`"⟩])

end Stencil
