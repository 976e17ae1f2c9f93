import Stencil.Template
import Stencil.Proofs.Recovery

/-!
# Reading in place

The readers of the grammar answer trees. A reader that works in place has a machine instead: one
arena of nodes, a cursor, a count of the elements and operands that it is inside of, and the faults
that it has noted (`Machine`). It reads by the same productions, but what it reads becomes nodes at
the end of the arena, and it knows them by their places there (`Link`). Wherever it looks up places
in the arena it notes whether these are there (`Machine.visit`). A reading that fails leaves the
machine as it happened to be then: what must not last is undone where a failure is caught, after a
reading on trial (`Machine.attempt`) and after an item (`Row.itemOrError`).
-/

namespace Stencil

/-- What the arena holds of a node. -/
structure Entry where
  /-- The field under which the parent holds the node, once it does. -/
  field : Option Field
  kind : Kind
  /-- The byte offset at which the text of the node begins. -/
  start : Nat
  /-- The byte offset at which the text of the node ends. -/
  stop : Nat
  /-- The places of the children in the arena. -/
  children : List Nat
deriving DecidableEq, Repr

/-- What a call calls, and its arguments. -/
def Entry.call? (e : Entry) : Option (Nat × Nat) :=
  match e.kind, e.children with
  | .call, [function, arguments] => some (function, arguments)
  | _, _ => none

/-- The arena knows a call by its kind and its two children. -/
theorem Entry.call?_eq_some {e : Entry} {function arguments : Nat} (hkind : e.kind = .call)
    (hchildren : e.children = [function, arguments]) : e.call? = some (function, arguments) := by
  rw [call?, hkind, hchildren]

/-- A node that waits for its parent: the field under which the parent will hold it, and its place
in the arena. -/
abbrev Link := Option Field × Nat

/-- The state of a reader that works in place. -/
structure Machine where
  source : Input
  options : Options
  /-- What is left to read at the cursor. -/
  rest : Input
  /-- The arena. -/
  entries : List Entry
  /-- How many elements and operands the reader is inside of. -/
  depth : Nat
  /-- What was found to be wrong so far. -/
  faults : List Fault
  /-- Whether a place was looked at so far that the arena did not have. What is read does not depend
  on it. -/
  astray : Bool
deriving DecidableEq, Repr

/-- A machine with the row of items that it adds to. -/
structure Row where
  links : List Link
  machine : Machine
deriving DecidableEq, Repr

/-- What is done to a state. It answers a value or fails, and leaves another state in both cases. -/
def Action (σ α : Type) := σ → Except Fault α × σ

namespace Action

variable {σ α β : Type}

instance : Monad (Action σ) where
  pure a := fun s => (.ok a, s)
  bind x f := fun s =>
    match x s with
    | (.ok a, s') => f a s'
    | (.error fault, s') => (.error fault, s')

/-- Answers a failure too. -/
def caught (x : Action σ α) : Action σ (Except Fault α) := fun s => (.ok (x s).1, (x s).2)

variable {x : Action σ α} {f : α → Action σ β} {s s' : σ}

/-- What is done after a success. -/
theorem bind_of_ok {a : α} (h : x s = (.ok a, s')) : (x >>= f) s = f a s' := by
  show (match x s with
    | (.ok a, s') => f a s'
    | (.error fault, s') => (.error fault, s')) = _
  rw [h]

/-- Nothing is done after a failure. -/
theorem bind_of_error {fault : Fault} (h : x s = (.error fault, s')) :
    (x >>= f) s = (.error fault, s') := by
  show (match x s with
    | (.ok a, s') => f a s'
    | (.error fault, s') => (.error fault, s')) = _
  rw [h]

end Action

namespace Machine

/-- The number of bytes of the source. -/
def size (m : Machine) : Nat := byteLength m.source

/-- The byte offset of the cursor. -/
def pos (m : Machine) : Nat := offset m.size m.rest

/-! ## Tokens -/

/-- What is left to read. -/
def here : Action Machine Input := fun m => (.ok m.rest, m)

/-- Fails with a cause at the place where `found` is left to read. -/
def fail {α : Type} (cause : Cause) (found : Input) : Action Machine α := fun m =>
  (.error ⟨cause, found⟩, m)

/-- The next token in a mode, which is not read yet. -/
def peek (mode : Mode) : Action Machine Token := fun m =>
  match Token.scan mode m.rest with
  | .ok t => (.ok t, m)
  | .error fault => (.error fault, m)

/-- Goes on after a token. -/
def bump (t : Token) : Action Machine Unit := fun m => (.ok (), { m with rest := t.rest })

/-- Reads the next token in a mode. -/
def next (mode : Mode) : Action Machine Token := do
  let t ← peek mode
  bump t
  return t

/-! ## Nodes -/

/-- Looks at some places of the arena. -/
def visit (ids : List Nat) (m : Machine) : Machine :=
  { m with astray := (ids.any fun id => m.entries.length ≤ id) || m.astray }

/-- Looking at places that the arena has leaves the machine as it is. -/
theorem visit_of_lt {ids : List Nat} {m : Machine} (h : ∀ id ∈ ids, id < m.entries.length) :
    m.visit ids = m := by
  have hnone : (ids.any fun id => decide (m.entries.length ≤ id)) = false := by
    simpa using h
  rw [visit, hnone, Bool.false_or]

/-- Tells nodes under which fields their parent holds them. -/
def assign (entries : List Entry) : List Link → List Entry
  | [] => entries
  | (field, id) :: links => assign (entries.modify id fun e => { e with field := field }) links

/-- Adds a node, whose children are told their fields. -/
def push (kind : Kind) (start stop : Nat) (links : List Link) : Action Machine Nat := fun m =>
  (.ok m.entries.length,
    { m.visit (links.map Prod.snd) with
      entries := assign m.entries links ++ [⟨none, kind, start, stop, links.map Prod.snd⟩] })

/-- A node is added behind its children, if these are in the arena. -/
theorem push_of_lt (kind : Kind) (start stop : Nat) {links : List Link} {m : Machine}
    (h : ∀ link ∈ links, link.2 < m.entries.length) :
    push kind start stop links m = (.ok m.entries.length,
      { m with
        entries := assign m.entries links ++
          [⟨none, kind, start, stop, links.map Prod.snd⟩] }) := by
  rw [push, visit_of_lt (List.forall_mem_map.2 h)]

/-- Makes a node that reaches from its first child to its last. -/
def node (kind : Kind) (links : List Link) : Action Machine Nat := fun m =>
  let first := links.head?.bind fun link => m.entries[link.2]?
  let last := links.getLast?.bind fun link => m.entries[link.2]?
  push kind (first.elim m.pos Entry.start) (last.elim m.pos Entry.stop) links
    (m.visit ((links.head?.toList ++ links.getLast?.toList).map Prod.snd))

/-- A node is made like any other, once it is known from where to where it reaches. -/
theorem node_of_lt (kind : Kind) {links : List Link} {m : Machine}
    (h : ∀ link ∈ links, link.2 < m.entries.length) :
    node kind links m =
      push kind ((links.head?.bind fun link => m.entries[link.2]?).elim m.pos Entry.start)
        ((links.getLast?.bind fun link => m.entries[link.2]?).elim m.pos Entry.stop) links m := by
  rw [node, visit_of_lt (List.forall_mem_map.2 fun link hlink => h link ?_)]
  rcases List.mem_append.1 hlink with hfirst | hlast
  · exact List.mem_of_mem_head? (Option.mem_toList.1 hfirst)
  · exact List.mem_of_getLast? (Option.mem_toList.1 hlast)

/-- Makes a leaf of a token. -/
def leaf (kind : Kind) (t : Token) : Action Machine Nat := fun m =>
  push kind (offset m.size t.start) (offset m.size t.rest) [] m

/-- Reads a token of a production, or fails where it is missing. -/
def terminal (t : Terminal) : Action Machine Link := do
  let next ← peek t.mode
  match t.pattern.take? next with
  | some token =>
    bump token
    let id ← leaf t.kind token
    return (t.field, id)
  | none => fail (.unexpectedToken t.expected) next.start

/-! ## Failures and levels -/

/-- Reads inside an opener. -/
def inside {α : Type} (opener : Input) (x : Action Machine α) : Action Machine α := fun m =>
  let (result, m') := x m
  (result.mapError fun fault => (Failure.inside opener ⟨fault, m'.rest⟩).toFault, m')

/-- Reads on trial: after a failure the cursor, the arena and the level are as they were. -/
def attempt {α : Type} (x : Action Machine α) : Action Machine α := fun m =>
  match x m with
  | (.ok a, m') => (.ok a, m')
  | (.error fault, m') =>
    (.error fault,
      { m' with rest := m.rest, entries := m'.entries.take m.entries.length, depth := m.depth })

/-- The machine one level further down. -/
def down (m : Machine) : Machine := { m with depth := m.depth + 1 }

/-- Goes one level down, and fails if that is one level too many. -/
def enter (found : Input) : Action Machine Unit := fun m =>
  if m.options.maxDepth < m.down.depth then (.error ⟨.nestingTooDeep, found⟩, m.down)
  else (.ok (), m.down)

/-- Goes one level up. -/
def leave : Action Machine Unit := fun m => (.ok (), { m with depth := m.depth - 1 })

/-- Goes on in rounds until one answers nothing. A round that reads no character would repeat
forever and is therefore the last one. -/
def iterate {α : Type} (round : α → Action Machine (Option α)) (a : α) : Action Machine α :=
  fun m =>
    match round a m with
    | (.error fault, m') => (.error fault, m')
    | (.ok none, m') => (.ok a, m')
    | (.ok (some b), m') =>
      if m'.rest.length < m.rest.length then iterate round b m' else (.ok b, m')
termination_by m => m.rest.length

/-! ## Productions -/

/-- Whether what is looked for comes next. Nothing is read. -/
def look : Look → Action Machine Bool
  | .next mode pattern => do
    let t ← peek mode
    return (pattern.take? t).isSome
  | .named => fun m => (.ok (atNamed m.rest), m)

/-- Takes the call apart that was made last into what it calls and its arguments. Any other
expression is kept. -/
def splitCall (id : Nat) : Action Machine (List Link) := fun m =>
  match (m.entries[id]?).bind Entry.call? with
  | some (function, arguments) =>
    if id + 1 = m.entries.length then
      (.ok [(some .macroExpr, function), (some .params, arguments)],
        { m.visit [id] with entries := m.entries.dropLast })
    else (.ok [(some .macroExpr, id)], m.visit [id])
  | none => (.ok [(some .macroExpr, id)], m.visit [id])

/-- An expression that is no call is kept. -/
theorem splitCall_of_none {id : Nat} {m : Machine} (h : id < m.entries.length)
    (hcall : (m.entries[id]?).bind Entry.call? = none) :
    splitCall id m = (.ok [(some .macroExpr, id)], m) := by
  rw [splitCall, hcall, visit_of_lt (List.forall_mem_singleton.2 h)]

/-- A call that was made last is taken away. -/
theorem splitCall_of_some {id function arguments : Nat} {m : Machine}
    (hcall : (m.entries[id]?).bind Entry.call? = some (function, arguments))
    (hlast : id + 1 = m.entries.length) :
    splitCall id m = (.ok [(some .macroExpr, function), (some .params, arguments)],
      { m with entries := m.entries.dropLast }) := by
  have hlt : id < m.entries.length := by omega
  rw [splitCall, hcall]
  dsimp only
  rw [if_pos hlast, visit_of_lt (List.forall_mem_singleton.2 hlt)]

/-- A call that was not made last is kept. -/
theorem splitCall_of_ne {id : Nat} {m : Machine} (h : id < m.entries.length)
    (hne : id + 1 ≠ m.entries.length) : splitCall id m = (.ok [(some .macroExpr, id)], m) := by
  rw [splitCall, visit_of_lt (List.forall_mem_singleton.2 h)]
  split
  · exact if_neg hne
  · rfl

/-- Reads the name of an argument and the sign of assignment behind it. -/
def keyword (key sign : Terminal) : Action Machine (List Link) := do
  let name ← terminal key
  let assign ← terminal sign
  return [name, assign]

mutual

/-- Reads one part of a production. Whether an argument is a named one is found out by reading its
name on trial. -/
def part (operand : Extent → Action Machine Nat) : Part → Action Machine (List Link)
  | .token t => do
    let link ← terminal t
    return [link]
  | .operand field extent => do
    let id ← operand extent
    return [(field, id)]
  | .callee => do
    let id ← operand .whole
    splitCall id
  | .node field kind ps => do
    let links ← parts operand ps
    let id ← node kind links
    return [(field, id)]
  | .enclosed field kind opening ps => do
    let next ← peek opening.mode
    let first ← terminal opening
    let links ← inside next.start (parts operand ps)
    let id ← node kind (first :: links)
    return [(field, id)]
  | .choice .named [.node field kind (.token key :: .token sign :: value)] no => do
    let trial ← Action.caught (attempt (keyword key sign))
    match trial with
    | .ok links =>
      let more ← parts operand value
      let id ← node kind (links ++ more)
      return [(field, id)]
    | .error _ => parts operand no
  | .choice l yes no => do
    let found ← look l
    if found then parts operand yes else parts operand no
  | .repeated l ps =>
    iterate (fun links => do
      let found ← look l
      if found then
        let more ← parts operand ps
        return some (links ++ more)
      else return none) []
  | .refuse cause => do
    let next ← peek .code
    fail cause next.start

/-- Reads the parts of a production one after the other. -/
def parts (operand : Extent → Action Machine Nat) : List Part → Action Machine (List Link)
  | [] => return []
  | p :: ps => do
    let first ← part operand p
    let more ← parts operand ps
    return first ++ more

end

/-! ## Expressions -/

/-- Reads a primary. -/
def primary (operand : Extent → Action Machine Nat) : Action Machine Nat := do
  let t ← peek .operand
  match Primary.of? t with
  | some (.leaf kind) =>
    bump t
    leaf kind t
  | some (.node kind ps) =>
    let links ← parts operand ps
    node kind links
  | none => fail (.unexpectedToken "expression") t.start

/-- Extends the expression `left` by the next tail, if it has one. -/
def tail (operand : Extent → Action Machine Nat) (extent : Extent) (left : Nat) :
    Action Machine (Option Nat) := do
  let t ← peek (Tail.mode extent)
  match if Tail.admits extent t then Tail.of? t else none with
  | some tail =>
    let more ← parts operand tail.more
    let id ← node tail.kind ((some tail.slot, left) :: more)
    return some id
  | none => return none

/-- Reads a primary and what extends it to the right. -/
def extended (operand : Extent → Action Machine Nat) (extent : Extent) : Action Machine Nat := do
  let head ← primary operand
  iterate (tail operand extent) head

/-- Reads an expression of an extent one level further down. The number only bounds the recursion:
whether a level is allowed is found out by the count of levels. -/
def expression : Nat → Extent → Action Machine Nat
  | 0, _ => do
    let s ← here
    enter s
    fail .nestingTooDeep s
  | n + 1, extent => do
    let s ← here
    enter s
    let id ← extended (expression n) extent
    leave
    return id

/-! ## Comments and elements -/

/-- Ends a comment with its last token, which has to close it. -/
def commentEnd (opener : Token) (links : List Link) (last : Token) : Action Machine Nat :=
  if last.kind = .commentClose then do
    let close ← leaf .delimiter last
    node .comment (links ++ [(some .closeDelimiter, close)])
  else fail .unterminatedDelimiter opener.start

/-- Reads a comment after its opener. -/
def comment (opener : Token) : Action Machine Nat := do
  let first ← leaf .delimiter opener
  let t ← next .comment
  if t.kind = .commentContent then
    let content ← leaf .commentContent t
    let last ← next .comment
    commentEnd opener [(some .openDelimiter, first), (some .content, content)] last
  else commentEnd opener [(some .openDelimiter, first)] t

/-- Adds items to a row of their own, which begins with `links`. -/
def collect (links : List Link) (x : Action Row Unit) : Action Machine (List Link) := fun m =>
  let (result, r) := x ⟨links, m⟩
  (result.map fun _ => r.links, r.machine)

/-- Reads the opening tag of an element after its bracket, which is the first of its children, with
whether the tag closes itself. -/
def openTag (operand : Extent → Action Machine Nat) (first : Link) :
    Action Machine (List Link × Bool) := do
  let inner ← parts operand Markup.header
  let closed ← look (.next .tag (.kind .selfClose))
  let stop ← parts operand Markup.headerEnd
  return (first :: inner ++ stop, closed)

/-- Reads what an element is made of after its bracket, given how the items of its body are added to
a row. -/
def elementNode (operand : Extent → Action Machine Nat) (items : Action Row Unit) (opener : Token) :
    Action Machine Nat := do
  let first ← leaf .punctuation opener
  inside opener.start do
    let (tag, closed) ← openTag operand (none, first)
    if closed then node .element tag
    else
      let links ← collect tag items
      let closing ← parts operand Markup.footer
      node .element (links ++ closing)

/-- Reads an element after its bracket, one level further down. -/
def element (operand : Extent → Action Machine Nat) (items : Action Row Unit) (opener : Token) :
    Action Machine Nat := do
  enter opener.start
  let id ← elementNode operand items opener
  leave
  return id

/-- Refuses an element after its bracket. -/
def tooDeep (opener : Token) : Action Machine Nat := do
  enter opener.start
  fail .nestingTooDeep opener.start

end Machine

/-! ## Items -/

namespace Row

open Machine

/-- What is done to the machine of a row. -/
def lift {α : Type} (x : Action Machine α) : Action Row α := fun r =>
  let (result, m) := x r.machine
  (result, { r with machine := m })

/-- Adds nodes to the row. -/
def add (links : List Link) : Action Row Unit := fun r =>
  (.ok (), { r with links := r.links ++ links })

/-- Adds the body of a raw block that `opener` began. An empty body is no node. -/
def rawBody (opener : Input) : Action Row Unit := do
  let body ← lift (next .raw)
  if body.rest = [] then lift (fail .unterminatedDelimiter opener)
  else if body.text = [] then return
  else
    let id ← lift (leaf .text body)
    add [(none, id)]

/-- Whether some nodes are a statement that begins a raw block. -/
def opensRaw (entries : List Entry) (links : List Link) : Bool :=
  links.any fun link => (entries[link.2]?).any fun e =>
    e.children.any fun id => (entries[id]?).any fun body => body.kind = .rawStatement

/-- The places that are looked at to find out whether some nodes begin a raw block. -/
def asked (entries : List Entry) (links : List Link) : List Nat :=
  links.map Prod.snd ++ links.flatMap fun link => (entries[link.2]?).elim [] Entry.children

/-- Adds a statement, and the body of the raw block that it may begin. -/
def statement (operand : Extent → Action Machine Nat) : Action Row Unit := do
  let opener ← lift here
  let links ← lift (part operand Part.statement)
  add links
  let raw ← lift fun m => (.ok (opensRaw m.entries links), m.visit (asked m.entries links))
  if raw then rawBody opener else return

/-- Adds an item, given how operands and elements are read. -/
def itemOf (operand : Extent → Action Machine Nat) (element : Token → Action Machine Nat) :
    Action Row Unit := do
  let t ← lift (peek .text)
  match t.kind with
  | .text =>
    lift (bump t)
    let id ← lift (leaf .text t)
    add [(none, id)]
  | .valueOpen =>
    let links ← lift (part operand (Part.value none .text "`\x7b\x7b`"))
    add links
  | .statementOpen => statement operand
  | .commentOpen =>
    lift (bump t)
    let id ← lift (comment t)
    add [(none, id)]
  | .tagOpen =>
    lift (bump t)
    let id ← lift (element t)
    add [(none, id)]
  | _ => lift (fail (.unexpectedToken "text, element or template tag") t.start)

/-- What becomes of a row and its machine after an item that began at the cursor of `r` failed: what
the item added is taken away again, an error stands for it, and the fault is noted. -/
def giveUp (r : Row) (fault : Fault) (r' : Row) : Row :=
  let recover := r.machine.options.recover
  let rest := if recover then Failure.resume r.machine.rest ⟨fault, r'.machine.rest⟩ else []
  let m : Machine :=
    { r'.machine with
      entries := r'.machine.entries.take r.machine.entries.length
      depth := r.machine.depth }
  let error : Entry := ⟨none, .error, r.machine.pos, offset m.size rest, []⟩
  { links := r'.links.take r.links.length ++ [(none, m.entries.length)]
    machine :=
      { m with rest := rest, entries := m.entries ++ [error], faults := m.faults ++ [fault] } }

/-- Adds an item, or an error that stands for it if it is malformed, with whether reading can go
on. -/
def itemOrError (item : Action Row Unit) (r : Row) : Bool × Row :=
  match item r with
  | (.ok (), r') => (true, r')
  | (.error fault, r') => (r.machine.options.recover, giveUp r fault r')

/-- Adds an item of the body of an element. Only a reader that recovers goes on after a malformed
one. -/
def bodyItem (item : Action Row Unit) : Action Row Unit := fun r =>
  if r.machine.options.recover then (.ok (), (itemOrError item r).2) else item r

/-- Adds the items of a body, up to the closing tag. -/
def body (item : Action Row Unit) : Action Row Unit := fun r =>
  if r.machine.rest = [] then (.error ⟨.unexpectedToken "closing tag", []⟩, r)
  else if Markup.atFooter r.machine.rest then (.ok (), r)
  else
    match bodyItem item r with
    | (.error fault, r') => (.error fault, r')
    | (.ok (), r') =>
      if r'.machine.rest.length < r.machine.rest.length then body item r' else (.ok (), r')
termination_by r => r.machine.rest.length

/-- Adds an item. The number only bounds the recursion, as that of an expression does. -/
def item : Nat → Action Row Unit
  | 0 => itemOf (Machine.expression 0) tooDeep
  | n + 1 => itemOf (Machine.expression (n + 1)) (element (Machine.expression n) (body (item n)))

/-- Adds the items of a template, each from no level. -/
def items (r : Row) : Row :=
  if r.machine.rest = [] then r
  else
    let start : Row := { r with machine := { r.machine with depth := 0 } }
    let (more, r') := itemOrError (item r.machine.options.maxDepth) start
    if more && decide (r'.machine.rest.length < r.machine.rest.length) then items r' else r'
termination_by r.machine.rest.length
decreasing_by simp_all

end Row

namespace Machine

/-- The machine before anything is read. -/
def start (options : Options) (source : Input) : Machine :=
  ⟨source, options, source, [], 0, [], false⟩

/-- The machine after a template was read. The last node in its arena is the root. -/
def finish (options : Options) (source : Input) : Machine :=
  let r := Row.items ⟨[], start options source⟩
  (push .sourceFile 0 r.machine.size r.links r.machine).2

/-- Reads a template: the arena, of which the last node is the root, and what is wrong with the
template. -/
def parse (options : Options) (source : Input) : List Entry × List Diagnostic :=
  let m := finish options source
  (m.entries, Template.arrange (m.faults.map (Fault.diagnose m.size)))

end Machine

end Stencil
