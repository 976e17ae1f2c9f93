import Stencil.Tree
import Stencil.Grammar.Parser

/-!
# Productions

The productions of the grammar are data: a production is a list of parts, and `Part.readAll` reads
a list of parts into the trees that they stand for. Which part comes next is decided by looking at
the next token, or, for the arguments of a call, at the next two. Operands are read by a parser
that the production is given, so that a part says nothing about how deeply operands may nest.
-/

namespace Stencil

/-- How far an expression extends to the right. -/
inductive Extent where
  /-- Through every operator. -/
  | whole
  /-- Through every operator but those that are words: what stands before the `in` of a loop. -/
  | target
  /-- Through properties and subscripts only: what stands beside an operator. -/
  | operand
deriving DecidableEq, Repr

/-- The brackets between which lists of things stand. -/
inductive Bracket where
  | round | square | curly
deriving DecidableEq, Repr

namespace Bracket

/-- The character that opens a bracket. -/
def opener : Bracket → TokenKind
  | round => .leftParen
  | square => .leftBracket
  | curly => .leftBrace

/-- The character that closes a bracket. -/
def closer : Bracket → Char
  | round => ')'
  | square => ']'
  | curly => '}'

/-- What is expected where a bracket should open. -/
def openerExpected : Bracket → String
  | round => "`(`"
  | square => "`[`"
  | curly => "`\x7b`"

/-- What is expected where a list between brackets should go on or end. -/
def closerExpected : Bracket → String
  | round => "`,` or `)`"
  | square => "`,` or `]`"
  | curly => "`,` or `\x7d`"

end Bracket

/-- What a token has to be. -/
inductive Pattern where
  /-- A token of a kind. -/
  | kind (k : TokenKind)
  /-- A certain word. -/
  | word (w : String)
  /-- The closing character of a bracket. It is a token of its own even where it is the first
  character of a longer one: of the two braces that would end a value, a list in braces takes
  one. -/
  | closer (b : Bracket)
  /-- A hyphen, be it before the end of a statement or not. -/
  | hyphen
  /-- A token without blanks before it. -/
  | touching (p : Pattern)
deriving Repr

/-- The token that is read where `t` comes next, if it fits the pattern. -/
def Pattern.take? : Pattern → Token → Option Token
  | kind k, t => if t.kind = k then some t else none
  | word w, t => if t.isWord w then some t else none
  | closer b, t =>
    match t.text with
    | [] => none
    | c :: more => if c = b.closer then some ⟨t.kind, t.gap, [c], more ++ t.rest⟩ else none
  | hyphen, t => if t.kind = .minus ∨ t.kind = .trim then some t else none
  | touching p, t => if t.gap = [] then p.take? t else none

/-- A pattern takes no more and no less than what begins where the token does. -/
theorem Pattern.take?_start {p : Pattern} {t taken : Token} (h : p.take? t = some taken) :
    taken.gap = t.gap ∧ taken.start = t.start := by
  induction p with
  | closer b =>
    unfold take? at h
    split at h
    · simp at h
    · split at h
      · obtain rfl := by simpa using h
        simp_all [Token.start]
      · simp at h
  | touching p ih =>
    unfold take? at h
    split at h
    · exact ih h
    · simp at h
  | _ =>
    unfold take? at h
    split at h <;> simp_all

/-- A token that fits the pattern of a kind is of that kind, and is taken as a whole. -/
theorem Pattern.kind_of_take? {k : TokenKind} {t taken : Token}
    (h : (kind k).take? t = some taken) : t.kind = k ∧ taken = t := by
  unfold take? at h
  split at h
  · rename_i hkind
    exact ⟨hkind, (Option.some.inj h).symm⟩
  · cases h

/-- A token of a production. -/
structure Terminal where
  /-- The field under which its leaf is held. -/
  field : Option Field
  /-- What its leaf is. -/
  kind : Kind
  /-- The mode in which the token is read. -/
  mode : Mode
  /-- What the token has to be. -/
  pattern : Pattern
  /-- What is reported to be expected where the token is missing. -/
  expected : String
deriving Repr

/-- Reads the token, or fails where it is missing. -/
def Terminal.read (t : Terminal) : Parser Tree := do
  let next ← Parser.peek t.mode
  match t.pattern.take? next with
  | some token =>
    Parser.skip token
    return token.leaf t.field t.kind
  | none => Parser.fail (.unexpectedToken t.expected) next.start

/-- A leaf is made of what the pattern takes of the next token. -/
theorem Terminal.exists_of_read {t : Terminal} {s rest : Input} {leaf : Tree}
    (h : t.read s = .ok (leaf, rest)) :
    ∃ next taken, Token.scan t.mode s = .ok next ∧ t.pattern.take? next = some taken ∧
      leaf = taken.leaf t.field t.kind ∧ rest = taken.rest := by
  obtain ⟨next, s', hpeek, h⟩ := Parser.bind_eq_ok.1 h
  obtain ⟨hscan, rfl⟩ := Parser.peek_eq_ok.1 hpeek
  cases htake : t.pattern.take? next with
  | none =>
    rw [htake] at h
    cases h
  | some taken =>
    rw [htake] at h
    cases h
    exact ⟨next, taken, hscan, htake, rfl, rfl⟩

/-- What is looked at to decide how a production goes on. -/
inductive Look where
  /-- The next token in a mode. -/
  | next (mode : Mode) (pattern : Pattern)
  /-- A word and the sign of assignment after it. -/
  | named
deriving Repr

/-- Whether a word and the sign of assignment come next. Input without a token is not such. -/
def atNamed (s : Input) : Bool :=
  match Token.scan .code s with
  | .ok key =>
    key.kind = .word &&
      match Token.scan .code key.rest with
      | .ok sign => sign.kind = .assign
      | .error _ => false
  | .error _ => false

/-- Whether what is looked for comes next. Nothing is read. -/
def Look.holds : Look → Parser Bool
  | next mode pattern => do
    let t ← Parser.peek mode
    return (pattern.take? t).isSome
  | named => fun s => .ok (atNamed s, s)

/-- Looking reads nothing. -/
theorem Look.holds_rest {look : Look} {s rest : Input} {found : Bool}
    (h : look.holds s = .ok (found, rest)) : s = rest := by
  cases look with
  | next mode pattern =>
    obtain ⟨t, s', h₁, h₂⟩ := Parser.bind_eq_ok.1 h
    obtain ⟨_, rfl⟩ := Parser.peek_eq_ok.1 h₁
    exact (Parser.pure_eq_ok.1 h₂).2
  | named =>
    cases h
    rfl

/-- A part of a production. -/
inductive Part where
  /-- A token. -/
  | token (t : Terminal)
  /-- An operand of an extent, held under a field. -/
  | operand (field : Option Field) (extent : Extent)
  /-- What a call statement calls. A call becomes two trees, the macro and its parameters; any
  other expression is the macro. -/
  | callee
  /-- A node of a kind that is made of parts. -/
  | node (field : Option Field) (kind : Kind) (parts : List Part)
  /-- A node of a kind that an opening token begins. When the input ends inside, the fault is that
  the opening token is not matched. -/
  | enclosed (field : Option Field) (kind : Kind) (opening : Terminal) (parts : List Part)
  /-- The first parts if what is looked for comes next, and the others if not. -/
  | choice (look : Look) (yes no : List Part)
  /-- The parts again and again, while what is looked for comes next. -/
  | repeated (look : Look) (parts : List Part)
  /-- Nothing may stand here: a fault at the next token. -/
  | refuse (cause : Cause)
deriving Repr

namespace Part

/-- The trees of a call statement's callee. -/
def splitCall : Tree → List Tree
  | .node _ .call [function, arguments] =>
    [function.under (some .macroExpr), arguments.under (some .params)]
  | t => [t.under (some .macroExpr)]

mutual

/-- Reads one part into the trees that it stands for. -/
def read (operand : Extent → Parser Tree) : Part → Parser (List Tree)
  | token t => do
    let leaf ← t.read
    return [leaf]
  | .operand field extent => do
    let t ← operand extent
    return [t.under field]
  | callee => do
    let t ← operand .whole
    return splitCall t
  | node field kind parts => do
    let ts ← readAll operand parts
    return [.node field kind ts]
  | enclosed field kind opening parts => do
    let next ← Parser.peek opening.mode
    let first ← opening.read
    let ts ← Parser.inside next.start (readAll operand parts)
    return [.node field kind (first :: ts)]
  | choice look yes no => do
    let found ← look.holds
    if found then readAll operand yes else readAll operand no
  | repeated look parts => do
    let rounds ← Parser.many do
      let found ← look.holds
      if found then
        let ts ← readAll operand parts
        return some ts
      else return none
    return rounds.flatten
  | refuse cause => do
    let next ← Parser.peek .code
    Parser.fail cause next.start

/-- Reads the parts of a production one after the other. -/
def readAll (operand : Extent → Parser Tree) : List Part → Parser (List Tree)
  | [] => return []
  | p :: ps => do
    let first ← p.read operand
    let more ← readAll operand ps
    return first ++ more

end

end Part

end Stencil
