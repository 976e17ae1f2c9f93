import Stencil.Options
import Stencil.Text.Unprintable
import Stencil.Decimal.Shortest

/-!
# Options as data

Options are given as data of the kind that configuration files hold: an object with the keys
`errorRecovery` and `maxDepth`, or a list of their values in this order. What is missing is
standard, and other keys are ignored. Data of the wrong form is refused with what was found and
what was wanted.
-/

namespace Stencil

/-- Data of a configuration. -/
inductive Setting where
  | null
  | boolean (b : Bool)
  | integer (i : Int)
  | real (bits : DoubleBits)
  | string (s : String)
  | list (members : List Setting)
  | object (entries : List (String × Setting))
deriving Inhabited

namespace Setting

/-- The number that `n` and then some digits write, up to the first digit with which it no longer
fits 64 bits, and the digits from there on. -/
def takeDigits (n : Nat) : List Char → Nat × List Char
  | [] => (n, [])
  | c :: ds =>
    let more := 10 * n + Decimal.natValue [c]
    if more < 0x10000000000000000 then takeDigits more ds else (n, c :: ds)

/-- The quotient of a double by `10 ^ n`. A divisor is at most `10 ^ 308`, the greatest power of ten
among doubles, so a greater one is divided by in steps. -/
def divideByTens (bits : DoubleBits) (n : Nat) : DoubleBits :=
  let tens (k : Nat) : DoubleBits := .ofRatio (Nat.pow 10 k) 1
  if bits = 0 then 0
  else if n ≤ 308 then bits.div (tens n)
  else divideByTens (bits.div (tens 308)) (n - 308)
termination_by n

/-- A real number of the data. It is rounded twice, and may so be a neighbour of the nearest double:
the digits that fit 64 bits make a double, and its product with a power of ten, or its quotient by
one, another. Digits that do not fit count as zeros. -/
def realValue (text : List Char) : DoubleBits :=
  let p := Decimal.partsOf text
  let (n, more) := takeDigits 0 p.whole
  let (n, dropped) := takeDigits n p.fraction
  let bits := DoubleBits.ofRatio n 1
  let power := p.exponent + more.length - (p.fraction.length - dropped.length : Nat)
  let magnitude :=
    if power < 0 then divideByTens bits (-power).toNat
    -- A number out of range is no data; it is not computed.
    else if 308 < power && bits ≠ 0 then DoubleBits.infinity
    else if bits = 0 then 0
    else bits.mul (.ofRatio (Nat.pow 10 power.toNat) 1)
  if p.negative then DoubleBits.signBit + magnitude else magnitude

/-- The number that a numeral writes: a whole number that fits 64 bits, with or without a sign, is
an integer, and every other one is real. -/
def ofNumeral (text : List Char) : Setting :=
  let whole := text.all fun c => c.isDigit || c = '-'
  let v := Decimal.intValue text
  if whole ∧ -0x8000000000000000 ≤ v ∧ v < 0x10000000000000000 ∧ text ≠ ['-', '0'] then integer v
  else real (realValue text)

/-- A character as it stands in quoted text. One that cannot be shown is given by its code point. -/
def quoteChar (c : Char) : List Char :=
  match c with
  | '"' => ['\\', '"']
  | '\\' => ['\\', '\\']
  | '\n' => ['\\', 'n']
  | '\r' => ['\\', 'r']
  | '\t' => ['\\', 't']
  | '\x00' => ['\\', '0']
  | c =>
    if isUnprintable c then ['\\', 'u', '{'] ++ Nat.toDigits 16 c.toNat ++ ['}'] else [c]

/-- Text in double quotes. -/
def quote (s : String) : String := String.ofList ('"' :: s.toList.flatMap quoteChar ++ ['"'])

/-- A real number as a message shows it: by position where its first digit counts at least
`10 ^ -5` and at most `10 ^ 15`, and with an exponent otherwise. -/
def realText (bits : DoubleBits) : String :=
  let d := bits.shortest
  if -5 ≤ d.leading ∧ d.leading < 16 then d.positional else d.scientific

/-- What a message calls some data. -/
def describe : Setting → String
  | null => "null"
  | boolean b => "boolean `" ++ (if b then "true" else "false") ++ "`"
  | integer i => "integer `" ++ toString i ++ "`"
  | real bits => "floating point `" ++ realText bits ++ "`"
  | string s => "string " ++ quote s
  | list _ => "sequence"
  | object _ => "map"

/-- The value under a key, the last one if the key is repeated. -/
def lookup (key : String) (entries : List (String × Setting)) : Option Setting :=
  (entries.reverse.find? fun e => e.1 = key).map (·.2)

end Setting

/-- Why data is refused as options. -/
inductive Options.Refusal where
  /-- Data of one type where another is wanted. -/
  | wrongType (found : Setting) (wanted : String)
  /-- A whole number that is out of range. -/
  | wrongValue (found : Int) (wanted : String)
  /-- A list of more values than there are options. -/
  | tooLong (length : Nat)

/-- The text of a refusal. -/
def Options.Refusal.message : Options.Refusal → String
  | wrongType found wanted => "invalid type: " ++ found.describe ++ ", expected " ++ wanted
  | wrongValue found wanted =>
    "invalid value: integer `" ++ toString found ++ "`, expected " ++ wanted
  | tooLong length =>
    "invalid length " ++ toString length ++ ", expected fewer elements in array"

namespace Options

/-- The option to recover. -/
def recoverOf : Setting → Except Refusal Bool
  | .boolean b => .ok b
  | found => .error (.wrongType found "a boolean")

/-- The greatest depth, with its being positive. -/
def depthOf : Setting → Except Refusal { n : Nat // 0 < n }
  | .integer i =>
    if h : 0 < i then .ok ⟨i.toNat, by omega⟩
    else .error (.wrongValue i "a nonzero usize")
  | found => .error (.wrongType found "a nonzero usize")

/-- Options of given values; those that are missing are the standard ones. -/
def ofValues (recover depth : Option Setting) : Except Refusal Options := do
  let recover ← recover.elim (.ok standard.recover) recoverOf
  let depth ← depth.elim (.ok ⟨standard.maxDepth, standard.maxDepth_pos⟩) depthOf
  return { recover := recover, maxDepth := depth.1, maxDepth_pos := depth.2 }

/-- The options that some data gives. The fault of the first option is reported before that of the
second, and both before too great a length. -/
def decode : Setting → Except Refusal Options
  | .object entries =>
    ofValues (Setting.lookup "errorRecovery" entries) (Setting.lookup "maxDepth" entries)
  | .list members => do
    let options ← ofValues members[0]? members[1]?
    if 2 < members.length then .error (.tooLong members.length) else return options
  | found => .error (.wrongType found "struct ParseOptions")

/-- Options as the text of an object. -/
def encode (o : Options) : String :=
  "\x7b\"errorRecovery\":" ++ (if o.recover then "true" else "false")
    ++ ",\"maxDepth\":" ++ toString o.maxDepth ++ "\x7d"

end Options

end Stencil
