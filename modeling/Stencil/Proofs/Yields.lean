import Stencil.Grammar.Statement
import Stencil.Proofs.Forward

/-!
# What productions yield

A production, read as a grammar of trees: `Part.Yields` says which rows of trees a part stands for,
whatever the input was, given the trees that operands stand for. `Part.read_yields` shows that the
reader answers such rows only. What holds of every tree that a production yields is then shown of
the production, by following its parts, and no proof has to follow the reader.
-/

namespace Stencil

/-- The leaves that a terminal stands for: those that some input is read into. -/
def Terminal.Leaf (t : Terminal) (leaf : Tree) : Prop :=
  ∃ s next taken, Token.scan t.mode s = .ok next ∧ t.pattern.take? next = some taken ∧
    leaf = taken.leaf t.field t.kind

/-- A terminal is read into one of its leaves. -/
theorem Terminal.read_leaf {t : Terminal} {s rest : Input} {leaf : Tree}
    (h : t.read s = .ok (leaf, rest)) : t.Leaf leaf := by
  obtain ⟨next, taken, hscan, htake, hleaf, -⟩ := exists_of_read h
  exact ⟨s, next, taken, hscan, htake, hleaf⟩

/-- A leaf is what its terminal makes of a token. -/
theorem Terminal.Leaf.eq {t : Terminal} {leaf : Tree} (h : t.Leaf leaf) :
    ∃ gap text, leaf = .leaf t.field t.kind gap text := by
  obtain ⟨_, _, taken, _, _, rfl⟩ := h
  exact ⟨taken.gap, taken.text, rfl⟩

namespace Part

mutual

/-- The rows of trees that a part stands for, where `E` says what operands stand for. -/
def Yields (E : Extent → Tree → Prop) : Part → List Tree → Prop
  | token t, ts => ∃ leaf, t.Leaf leaf ∧ ts = [leaf]
  | .operand field extent, ts => ∃ t, E extent t ∧ ts = [t.under field]
  | callee, ts => ∃ t, E .whole t ∧ ts = splitCall t
  | node field kind parts, ts => ∃ inner, YieldsAll E parts inner ∧ ts = [.node field kind inner]
  | enclosed field kind opening parts, ts =>
    ∃ first inner, opening.Leaf first ∧ YieldsAll E parts inner ∧
      ts = [.node field kind (first :: inner)]
  | choice _ yes no, ts => YieldsAll E yes ts ∨ YieldsAll E no ts
  | repeated _ parts, ts => ∃ rounds : List (List Tree),
      (∀ round ∈ rounds, YieldsAll E parts round) ∧ ts = rounds.flatten
  | refuse _, _ => False

/-- The rows of trees that a production stands for. -/
def YieldsAll (E : Extent → Tree → Prop) : List Part → List Tree → Prop
  | [], ts => ts = []
  | p :: ps, ts => ∃ first more, Yields E p first ∧ YieldsAll E ps more ∧ ts = first ++ more

end

variable {operand : Extent → Parser Tree} {E : Extent → Tree → Prop}

mutual

/-- A part is read into a row that it yields. -/
theorem read_yields (ho : ∀ {extent s t rest}, operand extent s = .ok (t, rest) → E extent t) :
    ∀ (p : Part) {s rest : Input} {ts : List Tree}, p.read operand s = .ok (ts, rest) →
      p.Yields E ts
  | token t, s, rest, ts, h => by
    simp only [read, Parser.bind_eq_ok, Parser.pure_eq_ok] at h
    obtain ⟨leaf, _, h, rfl, rfl⟩ := h
    exact ⟨leaf, Terminal.read_leaf h, rfl⟩
  | .operand field extent, s, rest, ts, h => by
    simp only [read, Parser.bind_eq_ok, Parser.pure_eq_ok] at h
    obtain ⟨t, _, h, rfl, rfl⟩ := h
    exact ⟨t, ho h, rfl⟩
  | callee, s, rest, ts, h => by
    simp only [read, Parser.bind_eq_ok, Parser.pure_eq_ok] at h
    obtain ⟨t, _, h, rfl, rfl⟩ := h
    exact ⟨t, ho h, rfl⟩
  | node field kind parts, s, rest, ts, h => by
    simp only [read, Parser.bind_eq_ok, Parser.pure_eq_ok] at h
    obtain ⟨inner, _, h, rfl, rfl⟩ := h
    exact ⟨inner, readAll_yields ho parts h, rfl⟩
  | enclosed field kind opening parts, s, rest, ts, h => by
    simp only [read, Parser.bind_eq_ok, Parser.pure_eq_ok, Parser.peek_eq_ok,
      Parser.inside_eq_ok] at h
    obtain ⟨_, _, _, first, _, hfirst, inner, _, hinner, rfl, rfl⟩ := h
    exact ⟨first, inner, Terminal.read_leaf hfirst, readAll_yields ho parts hinner, rfl⟩
  | choice look yes no, s, rest, ts, h => by
    simp only [read, Parser.bind_eq_ok] at h
    obtain ⟨found, _, _, h⟩ := h
    split at h
    · exact .inl (readAll_yields ho yes h)
    · exact .inr (readAll_yields ho no h)
  | repeated look parts, s, rest, ts, h => by
    simp only [read, Parser.bind_eq_ok, Parser.pure_eq_ok] at h
    obtain ⟨rounds, _, h, rfl, rfl⟩ := h
    refine ⟨rounds, fun round hround => ?_, rfl⟩
    -- A round that answers trees has found what was looked for and read the parts.
    obtain ⟨s', rest', h⟩ := Parser.many_mem h round hround
    simp only [Parser.bind_eq_ok] at h
    obtain ⟨found, _, _, h⟩ := h
    split at h
    · simp only [Parser.bind_eq_ok, Parser.pure_eq_ok] at h
      obtain ⟨ts, _, h, hts, _⟩ := h
      cases hts
      exact readAll_yields ho parts h
    · cases (Parser.pure_eq_ok.1 h).1
  | refuse cause, s, rest, ts, h => by
    simp only [read, Parser.bind_eq_ok] at h
    obtain ⟨_, _, _, h⟩ := h
    cases h

/-- A production is read into a row that it yields. -/
theorem readAll_yields (ho : ∀ {extent s t rest}, operand extent s = .ok (t, rest) → E extent t) :
    ∀ (ps : List Part) {s rest : Input} {ts : List Tree}, readAll operand ps s = .ok (ts, rest) →
      YieldsAll E ps ts
  | [], s, rest, ts, h => (Parser.pure_eq_ok.1 h).1.symm
  | p :: ps, s, rest, ts, h => by
    simp only [readAll, Parser.bind_eq_ok, Parser.pure_eq_ok] at h
    obtain ⟨first, _, hfirst, more, _, hmore, rfl, rfl⟩ := h
    exact ⟨first, more, read_yields ho p hfirst, readAll_yields ho ps hmore, rfl⟩

end

end Part

/-! ## Under which fields trees are held -/

namespace Part

mutual

/-- The fields under which the trees of a part are held. -/
def fields : Part → List (Option Field)
  | token t => [t.field]
  | .operand field _ | node field _ _ | enclosed field _ _ _ => [field]
  | callee => [some .macroExpr, some .params]
  | choice _ yes no => fieldsOf yes ++ fieldsOf no
  | repeated _ parts => fieldsOf parts
  | refuse _ => []

/-- The fields under which the trees of a production are held. -/
def fieldsOf : List Part → List (Option Field)
  | [] => []
  | p :: ps => p.fields ++ fieldsOf ps

end

variable {E : Extent → Tree → Prop}

/-- The trees of a call statement's callee are the macro and its parameters. -/
theorem field_mem_of_splitCall {t u : Tree} (h : u ∈ splitCall t) :
    u.field ∈ [some Field.macroExpr, some .params] := by
  unfold splitCall at h
  split at h
  · simp only [List.mem_cons, List.not_mem_nil, or_false] at h
    rcases h with rfl | rfl <;> simp
  · obtain rfl := List.mem_singleton.1 h
    simp

mutual

/-- What a part yields is held under its fields. -/
theorem field_mem_of_yields : ∀ (p : Part) {ts : List Tree}, p.Yields E ts →
    ∀ t ∈ ts, t.field ∈ p.fields
  | token _, ts, ⟨leaf, hleaf, h⟩, t, ht => by
    obtain ⟨gap, text, rfl⟩ := hleaf.eq
    subst h
    obtain rfl := List.mem_singleton.1 ht
    exact List.mem_singleton.2 rfl
  | .operand field _, ts, ⟨u, _, h⟩, t, ht => by
    subst h
    obtain rfl := List.mem_singleton.1 ht
    exact List.mem_singleton.2 (u.field_under field)
  | callee, ts, ⟨u, _, h⟩, t, ht => by
    subst h
    exact field_mem_of_splitCall ht
  | node _ _ _, ts, ⟨inner, _, h⟩, t, ht => by
    subst h
    obtain rfl := List.mem_singleton.1 ht
    exact List.mem_singleton.2 rfl
  | enclosed _ _ _ _, ts, ⟨first, inner, _, _, h⟩, t, ht => by
    subst h
    obtain rfl := List.mem_singleton.1 ht
    exact List.mem_singleton.2 rfl
  | choice _ yes no, ts, h, t, ht => by
    rcases h with h | h
    · exact List.mem_append_left _ (field_mem_of_yieldsAll yes h t ht)
    · exact List.mem_append_right _ (field_mem_of_yieldsAll no h t ht)
  | repeated _ parts, ts, ⟨rounds, hrounds, h⟩, t, ht => by
    subst h
    obtain ⟨round, hround, ht⟩ := List.mem_flatten.1 ht
    exact field_mem_of_yieldsAll parts (hrounds round hround) t ht

/-- What a production yields is held under its fields. -/
theorem field_mem_of_yieldsAll : ∀ (ps : List Part) {ts : List Tree}, YieldsAll E ps ts →
    ∀ t ∈ ts, t.field ∈ fieldsOf ps
  | [], ts, h, t, ht => by
    obtain rfl : ts = [] := h
    cases ht
  | p :: ps, ts, ⟨first, more, hfirst, hmore, h⟩, t, ht => by
    subst h
    rcases List.mem_append.1 ht with ht | ht
    · exact List.mem_append_left _ (field_mem_of_yields p hfirst t ht)
    · exact List.mem_append_right _ (field_mem_of_yieldsAll ps hmore t ht)

end

end Part

/-! ## What expressions are -/

section Expressions

variable {operand : Extent → Parser Tree} {E : Extent → Tree → Prop} {s rest : Input}

/-- A primary is a token, or a node that a production yields. -/
theorem Primary.read_yields
    (ho : ∀ {extent s t rest}, operand extent s = .ok (t, rest) → E extent t) {t : Tree}
    (h : read operand s = .ok (t, rest)) :
    (∃ next kind, Token.scan .operand s = .ok next ∧ of? next = some (.leaf kind) ∧
        t = next.leaf none kind) ∨
      ∃ next kind parts, of? next = some (.node kind parts) ∧
        (Part.node none kind parts).Yields E [t] := by
  cases read_eq_ok.1 h with
  | leaf hscan hform => exact .inl ⟨_, _, hscan, hform, rfl⟩
  | @node next kind parts ts _ _ hform hparts =>
    exact .inr ⟨next, kind, parts, hform, ts, Part.readAll_yields (E := E) ho parts hparts, rfl⟩

/-- A tail is what the production of the tail that its first token begins yields. -/
theorem Tail.read_yields (ho : ∀ {extent s t rest}, operand extent s = .ok (t, rest) → E extent t)
    {extent : Extent} {tail : Tail Tree} (h : read operand extent s = .ok (some tail, rest)) :
    ∃ next form, Token.scan (mode extent) s = .ok next ∧ admits extent next = true ∧
      of? next = some form ∧ tail.kind = form.kind ∧ tail.slot = form.slot ∧
        Part.YieldsAll E form.more tail.more := by
  cases read_eq_ok.1 h with
  | @some next form _ _ hscan hnext hmore =>
    obtain ⟨hadmits, hof⟩ := of?_of_next? hnext
    exact ⟨next, form, hscan, hadmits, hof, rfl, rfl,
      Part.readAll_yields (E := E) ho form.more hmore⟩

/-- What holds of primaries, and goes on to hold when a tail extends a tree, holds of expressions,
if it may be used of the operands in them. -/
theorem expression_induction {P : Tree → Prop}
    (hprimary : ∀ {operand : Extent → Parser Tree} {s rest : Input} {t : Tree},
      (∀ {extent s t rest}, operand extent s = .ok (t, rest) → P t) →
        Primary.read operand s = .ok (t, rest) → P t)
    (htail : ∀ {operand : Extent → Parser Tree} {extent : Extent} {s rest : Input}
      {tail : Tail Tree} {t : Tree},
      (∀ {extent s t rest}, operand extent s = .ok (t, rest) → P t) →
        Tail.read operand extent s = .ok (some tail, rest) → P t → P (Tail.attach t tail))
    (depth : Nat) {extent : Extent} {t : Tree} (h : expression depth extent s = .ok (t, rest)) :
    P t := by
  induction depth generalizing extent s t rest with
  | zero => cases h
  | succ depth ih =>
    obtain ⟨head, s', tails, hhead, htails, rfl⟩ := exists_of_expression h
    -- The tails extend the primary from the first to the last.
    refine List.foldlRecOn tails Tail.attach (hprimary ih hhead) fun t ht tail hmem => ?_
    obtain ⟨_, _, hround⟩ := Parser.many_mem htails tail hmem
    exact htail ih hround ht

end Expressions

end Stencil
