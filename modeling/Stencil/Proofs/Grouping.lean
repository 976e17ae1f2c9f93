import Stencil.Proofs.Contents
import Stencil.Proofs.Forward

/-!
# How expressions are grouped

Properties and subscripts bind tighter than a sign or `not`, and these bind tighter than calls and
the operators between operands, which all group to the left. In the tree this is a matter of which
expressions stand where: what stands to the right of an operator holds no operator between operands
and no call, unless brackets are around it, and no property or subscript is one of an operation
(`Tree.Grouped`). The proof follows the tails of an expression one after the other. What it carries
along is that no point and no square bracket comes next after an operand: the operand would have
gone on through it (`NoPostfix`).
-/

namespace Stencil

/-! ## Grouping -/

namespace Tree

mutual

/-- The expression that a property or subscript is one of, the expression that this one is a
property or subscript of, and so on. -/
def objects : Tree → List Tree
  | leaf .. => []
  | node _ _ ts => objectsAmong ts

/-- The objects among some children, and the objects of these. -/
def objectsAmong : List Tree → List Tree
  | [] => []
  | t :: ts => (if t.field = some .object then t :: t.objects else []) ++ objectsAmong ts

end

/-- An expression that may stand to the right of an operator: no operation between operands and no
call, nor a property or subscript of a call, however many of them. -/
structure Tight (t : Tree) : Prop where
  notComparison : t.kind ≠ .comparison
  notBinary : t.kind ≠ .binaryOperation
  uncalled : ∀ u ∈ t :: t.objects, u.kind ≠ .call

/-- How the children of an expression are grouped, apart from how those of its children are. -/
structure Grouped (t : Tree) : Prop where
  /-- What stands to the right of an operator between operands is tight. -/
  right : t.kind = .comparison ∨ t.kind = .binaryOperation →
    ∀ c ∈ t.children, c.field = some .right → c.Tight
  /-- What stands to the right of an operator before its operand is tight. -/
  operand : t.kind = .unaryOperation → ∀ c ∈ t.children, c.field = some .operand → c.Tight
  /-- Properties and subscripts are none of an operation. -/
  object : t.kind = .propertyAccess ∨ t.kind = .subscript →
    ∀ c ∈ t.children, c.field = some .object →
      c.kind ≠ .comparison ∧ c.kind ≠ .binaryOperation ∧ c.kind ≠ .unaryOperation

/-- The objects of an expression do not depend on its field. -/
@[simp]
theorem objects_under (t : Tree) (f : Option Field) : (t.under f).objects = t.objects := by
  cases t <;> rfl

/-- Where no child is an object there are no objects. -/
theorem objectsAmong_eq_nil {ts : List Tree} (h : ∀ t ∈ ts, t.field ≠ some .object) :
    objectsAmong ts = [] := by
  induction ts with
  | nil => rfl
  | cons t ts ih =>
    obtain ⟨ht, hts⟩ := List.forall_mem_cons.1 h
    rw [objectsAmong, if_neg ht, ih hts, List.append_nil]

/-- Whether an expression is tight does not depend on its field. -/
theorem Tight.under {t : Tree} (h : t.Tight) (f : Option Field) : (t.under f).Tight := by
  obtain ⟨hcomparison, hbinary, huncalled⟩ := h
  refine ⟨by simpa using hcomparison, by simpa using hbinary, fun u hu => ?_⟩
  rw [objects_under] at hu
  rcases List.mem_cons.1 hu with rfl | hu
  · simpa using huncalled t List.mem_cons_self
  · exact huncalled u (List.mem_cons_of_mem t hu)

/-- An expression without objects is tight, if it is no operation between operands and no call. -/
theorem Tight.of_objects_eq_nil {t : Tree} (hcomparison : t.kind ≠ .comparison)
    (hbinary : t.kind ≠ .binaryOperation) (hcall : t.kind ≠ .call) (hobjects : t.objects = []) :
    t.Tight := by
  refine ⟨hcomparison, hbinary, ?_⟩
  rw [hobjects]
  simpa using hcall

/-- Only operations, properties and subscripts may fail to be grouped. -/
theorem grouped_common : Common Grouped := by
  refine ⟨?_, fun f kind gap text => ⟨nofun, nofun, nofun⟩, ?_⟩
  · rintro (⟨_, _, _, _⟩ | ⟨_, _, _⟩) f ⟨hright, hoperand, hobject⟩
    all_goals exact ⟨hright, hoperand, hobject⟩
  · intro f kind ts hkind
    refine ⟨?_, ?_, ?_⟩
    · rintro (rfl | rfl) <;> cases hkind
    · rintro rfl
      cases hkind
    · rintro (rfl | rfl) <;> cases hkind

/-- A call is grouped whatever its children are: it may be the call of any expression. -/
theorem grouped_call (f : Option Field) (ts : List Tree) : (node f .call ts).Grouped := by
  refine ⟨?_, nofun, ?_⟩
  · rintro (h | h) <;> cases h
  · rintro (h | h) <;> cases h

end Tree

/-! ## What comes next -/

namespace Token

/-- A token where an operator may stand is the token of code, or the two words. -/
theorem scan_code_of_operator {s : Input} {t : Token} (h : scan .operator s = .ok t)
    (hkind : t.kind ≠ .notIn) : scan .code s = .ok t := by
  cases scanOperator_eq_ok.1 h with
  | single hfirst => exact hfirst
  | notIn => exact absurd rfl hkind

/-- A token of code that is no word is the token where an operator may stand. -/
theorem scan_operator_of_code {s : Input} {t : Token} (h : scan .code s = .ok t)
    (hkind : t.kind ≠ .word) : scan .operator s = .ok t := by
  have hnot : t.isWord "not" = false := by simp [isWord, hkind]
  simp only [scan] at h
  simp only [scan, scanOperator, h, hnot]
  rfl

end Token

/-- Neither a point nor a square bracket comes next. -/
def NoPostfix (s : Input) : Prop :=
  ∀ t, Token.scan .code s = .ok t → t.kind ≠ .dot ∧ t.kind ≠ .leftBracket

namespace Tail

variable {operand : Extent → Parser Tree} {extent : Extent} {s rest : Input}

/-- Where an expression ends, neither a point nor a square bracket comes next: it would go on
through it. -/
theorem noPostfix_of_read_none (h : read operand extent s = .ok (none, rest)) :
    rest = s ∧ NoPostfix s := by
  cases read_eq_ok.1 h with
  | @none next hscan hnone =>
    refine ⟨rfl, fun t ht => ?_⟩
    -- A point or a bracket would be seen in either mode.
    have hsame : t.kind = .dot ∨ t.kind = .leftBracket → next = t := by
      intro hkind
      have hoperator := Token.scan_operator_of_code ht (by rcases hkind with h | h <;> simp [h])
      cases extent <;> simp_all [mode]
    constructor
    · intro hkind
      obtain rfl := hsame (.inl hkind)
      cases extent <;> simp [next?, admits, of?, hkind] at hnone
    · intro hkind
      obtain rfl := hsame (.inr hkind)
      cases extent <;> simp [next?, admits, of?, hkind] at hnone

/-- A property or a subscript begins with a point or a square bracket. -/
theorem not_noPostfix_of_scan {t : Token} (hscan : Token.scan (mode extent) s = .ok t)
    (hkind : t.kind = .dot ∨ t.kind = .leftBracket) : ¬ NoPostfix s := by
  intro h
  have hcode : Token.scan .code s = .ok t := by
    cases extent with
    | target => exact hscan
    | whole | operand =>
      exact Token.scan_code_of_operator hscan (by rcases hkind with h | h <;> simp [h])
  obtain ⟨hdot, hbracket⟩ := h t hcode
  exact hkind.elim hdot hbracket

/-- A tail that is read is not empty. -/
theorem read_rest_lt (ho : Part.Operands operand) {tail : Tail Tree}
    (h : read operand extent s = .ok (some tail, rest)) : rest.length < s.length := by
  obtain ⟨next, form, -, -, hof, -, -, hyields⟩ :=
    read_yields (E := fun _ t => t.Every Tree.Spaced) ho.spaced h
  have hspaced := Part.everyOf_spaced (fun h => h) form.more (isSolid_of_of? hof).2 hyields
  have hpresent : Part.anyPresent form.more = true := by
    rcases of?_eq_some hof with ⟨rfl, -⟩ | ⟨rfl, -⟩ | ⟨rfl, -⟩ | ⟨rfl, -⟩ | ⟨rfl, -⟩ <;> rfl
  have hne := Part.ne_nil_of_anyPresent form.more hpresent hyields
  exact Tree.length_lt_of_sources hne hspaced (read_append ho.source h)

end Tail

/-- What rounds that read something come to, folded over a value: what holds of the value at the
beginning is kept by each round, and the last round says where they end. -/
theorem Parser.many_foldl {α β : Type} {round : Parser (Option α)} {f : β → α → β}
    (holds ends : β → Input → Prop)
    (hsome : ∀ {b s a rest}, holds b s → round s = .ok (some a, rest) →
      holds (f b a) rest ∧ rest.length < s.length)
    (hnone : ∀ {b s rest}, holds b s → round s = .ok (none, rest) → ends b rest)
    {b : β} {s rest : Input} {as : List α} (hb : holds b s) (h : many round s = .ok (as, rest)) :
    ends (as.foldl f b) rest := by
  fun_induction many round s generalizing as rest b with
  | case1 | case3 => cases h
  | case2 s r hround =>
    cases h
    exact hnone hb hround
  | case4 s a r hround _ bs stop hmore ih =>
    cases h
    have hends := ih (hsome hb hround).1 hmore
    exact hends
  | case5 s a r hround hlt => exact absurd (hsome hb hround).2 hlt

/-! ## Expressions -/

/-- What holds of an expression of an extent when it is read, with `rest` left after it. -/
structure Extent.Groups (extent : Extent) (t : Tree) (rest : Input) : Prop where
  grouped : t.Every Tree.Grouped
  tight : extent = .operand → t.Tight
  ends : NoPostfix rest

/-- What holds of an expression of an extent before all its tails are read, with `s` left after it:
no property and no subscript follows an operation. -/
structure Extent.Grows (extent : Extent) (t : Tree) (s : Input) : Prop where
  grouped : t.Every Tree.Grouped
  tight : extent = .operand → t.Tight
  ends : t.kind = .comparison ∨ t.kind = .binaryOperation ∨ t.kind = .unaryOperation → NoPostfix s

section Expressions

variable {operand : Extent → Parser Tree} {extent : Extent} {s rest : Input} {t : Tree}

/-- An operator and the operand after it are a token and a tight expression, after which the operand
does not go on. -/
theorem Part.readAll_operator
    (hg : ∀ {extent s t rest}, operand extent s = .ok (t, rest) → extent.Groups t rest)
    {terminal : Terminal} {field : Field} {ts : List Tree}
    (h : readAll operand [.token terminal, .operand (some field) .operand] s = .ok (ts, rest)) :
    ∃ gap text, ∃ t : Tree,
      ts = [.leaf terminal.field terminal.kind gap text, t.under (some field)] ∧
      t.Every Tree.Grouped ∧ t.Tight ∧ NoPostfix rest := by
  obtain ⟨_, taken, t, -, -, ht, rfl⟩ := exists_of_read_operation h
  obtain ⟨hgrouped, htight, hends⟩ := hg ht
  exact ⟨taken.gap, taken.text, t, rfl, hgrouped, htight rfl, hends⟩

/-- What is no operation and has no objects may be extended in every way. -/
theorem Extent.Grows.of_isOperation (hgrouped : t.Every Tree.Grouped)
    (hkind : t.kind.isOperation = false) (hobjects : t.objects = []) : extent.Grows t s := by
  have hne : ∀ k : Kind, k.isOperation = true → t.kind ≠ k := by
    rintro k hk rfl
    rw [hk] at hkind
    cases hkind
  refine ⟨hgrouped, fun _ => .of_objects_eq_nil (hne _ rfl) (hne _ rfl) (hne _ rfl) hobjects, ?_⟩
  rintro (h | h | h)
  all_goals exact absurd h (hne _ rfl)

/-- What a production is read into is held under no field but its own. -/
theorem Part.field_ne_of_readAll {ps : List Part} {ts : List Tree} {field : Option Field}
    (hfield : field ∉ fieldsOf ps) (h : readAll operand ps s = .ok (ts, rest)) :
    ∀ t ∈ ts, t.field ≠ field := by
  rintro t ht rfl
  have hyields := readAll_yields (E := fun _ _ => True) (fun _ => trivial) ps h
  exact hfield (field_mem_of_yieldsAll ps hyields t ht)

/-- A list or a dictionary may be extended in every way, if operands are grouped. -/
theorem Part.node_grows
    (hg : ∀ {extent s t rest}, operand extent s = .ok (t, rest) → extent.Groups t rest)
    {kind : Kind} {ps : List Part} {ts : List Tree} (hkind : kind.isOperation = false)
    (hplain : Plain (productionsOf ps)) (hfields : some .object ∉ fieldsOf ps)
    (h : readAll operand ps s = .ok (ts, rest)) : extent.Grows (.node none kind ts) rest := by
  have hgrouped : Tree.EveryOf Tree.Grouped ts :=
    readAll_every Tree.grouped_common (fun h => (hg h).grouped) hplain h
  refine .of_isOperation ⟨Tree.grouped_common.node hkind, hgrouped⟩ hkind ?_
  exact Tree.objectsAmong_eq_nil (field_ne_of_readAll hfields h)

/-- A token that is a primary is no operation. -/
theorem Primary.isOperation_of_of? {next : Token} {kind : Kind}
    (h : of? next = some (.leaf kind)) : kind.isOperation = false := by
  unfold of? at h
  repeat' split at h
  all_goals cases h
  all_goals rfl

/-- A primary may be extended if it is no operation, or else if it does not go on through a property
or a subscript. -/
theorem Primary.read_grows
    (hg : ∀ {extent s t rest}, operand extent s = .ok (t, rest) → extent.Groups t rest)
    (h : read operand s = .ok (t, rest)) : extent.Grows t rest := by
  cases read_eq_ok.1 h with
  | leaf _ hform =>
    exact .of_isOperation (Tree.grouped_common.leaf _ _ _ _) (isOperation_of_of? hform) rfl
  | node _ hform hread =>
    rcases of?_eq_node hform with hnode | hnode | ⟨hnode, -⟩
    · cases hnode
      exact Part.node_grows hg rfl (by decide) (by decide) hread
    · cases hnode
      exact Part.node_grows hg rfl (by decide) (by decide) hread
    · -- An operator before its operand, which is tight.
      cases hnode
      obtain ⟨gap, text, t, rfl, hgrouped, htight, hends⟩ := Part.readAll_operator hg hread
      refine ⟨⟨⟨?_, fun _ c hc hfield => ?_, ?_⟩, ?_, ?_, trivial⟩, fun _ => ?_, fun _ => hends⟩
      · rintro (h | h) <;> cases h
      · rcases List.mem_cons.1 hc with rfl | hc
        · cases hfield
        · obtain rfl := List.mem_singleton.1 hc
          exact htight.under _
      · rintro (h | h) <;> cases h
      · exact Tree.grouped_common.leaf _ _ _ _
      · exact hgrouped.under Tree.grouped_common.under _
      · refine .of_objects_eq_nil nofun nofun nofun (Tree.objectsAmong_eq_nil fun c hc => ?_)
        rcases List.mem_cons.1 hc with rfl | hc
        · nofun
        · obtain rfl := List.mem_singleton.1 hc
          rw [Tree.field_under]
          nofun

/-- An expression that a property or a subscript extends may be extended in every way, if it might
be extended so. -/
theorem Tail.attach_postfix {tail : Tail Tree} (ht : extent.Grows t s) (hs : ¬ NoPostfix s)
    (hkind : tail.kind = .propertyAccess ∨ tail.kind = .subscript) (hslot : tail.slot = .object)
    (hmore : Tree.EveryOf Tree.Grouped tail.more)
    (hfields : ∀ c ∈ tail.more, c.field ≠ some .object) : extent.Grows (attach t tail) rest := by
  have hne : ∀ k, k ≠ .propertyAccess → k ≠ .subscript → (attach t tail).kind ≠ k := by
    rintro k hproperty hsubscript rfl
    exact hkind.elim hproperty hsubscript
  have hobjects : (attach t tail).objects = t.under (some .object) :: t.objects := by
    simp [attach, Tree.objects, Tree.objectsAmong, hslot, Tree.objectsAmong_eq_nil hfields]
  refine ⟨⟨⟨?_, fun h => ?_, fun _ c hc hfield => ?_⟩,
    ht.grouped.under Tree.grouped_common.under _, hmore⟩, fun hextent => ⟨?_, ?_, ?_⟩, ?_⟩
  · rintro (h | h) <;> exact absurd h (hne _ (by decide) (by decide))
  · exact absurd h (hne _ (by decide) (by decide))
  · -- The object is the expression, and that is no operation.
    have hnone : ∀ k, k = .comparison ∨ k = .binaryOperation ∨ k = .unaryOperation → t.kind ≠ k :=
      fun k hk h => hs (ht.ends (h ▸ hk))
    rcases List.mem_cons.1 hc with rfl | hc
    · rw [Tree.kind_under]
      exact ⟨hnone _ (.inl rfl), hnone _ (.inr (.inl rfl)), hnone _ (.inr (.inr rfl))⟩
    · exact absurd hfield (hfields c hc)
  · exact hne _ (by decide) (by decide)
  · exact hne _ (by decide) (by decide)
  · -- The objects are the expression and its own objects.
    intro u hu
    rw [hobjects] at hu
    rcases List.mem_cons.1 hu with rfl | hu
    · exact hne _ (by decide) (by decide)
    · have huncalled := ((ht.tight hextent).under (some .object)).uncalled u
      rw [Tree.objects_under] at huncalled
      exact huncalled hu
  · rintro (h | h | h) <;> exact absurd h (hne _ (by decide) (by decide))

/-- An expression that an operator with its operand extends goes on through no property or
subscript. -/
theorem Tail.attach_binary {kind : Kind} {gap text : List Char} {right : Tree} {k : Kind}
    (ht : t.Every Tree.Grouped) (hkind : kind = .comparison ∨ kind = .binaryOperation)
    (hextent : extent ≠ .operand) (hgrouped : right.Every Tree.Grouped) (htight : right.Tight)
    (hends : NoPostfix rest) :
    extent.Grows (attach t
      ⟨kind, .left, [.leaf (some .operator) k gap text, right.under (some .right)]⟩) rest := by
  refine ⟨⟨⟨fun _ c hc hfield => ?_, ?_, ?_⟩, ht.under Tree.grouped_common.under _,
    Tree.grouped_common.leaf _ _ _ _, hgrouped.under Tree.grouped_common.under _, trivial⟩,
    fun h => absurd h hextent, fun _ => hends⟩
  · simp only [Tree.children, List.mem_cons, List.not_mem_nil, or_false] at hc
    rcases hc with rfl | rfl | rfl
    · rw [Tree.field_under] at hfield
      cases hfield
    · cases hfield
    · exact htight.under _
  · rintro rfl
    rcases hkind with h | h <;> cases h
  · rcases hkind with rfl | rfl <;> rintro (h | h) <;> cases h

/-- An expression that a tail extends may be extended if it is no operation, or else if it does not
go on through a property or a subscript. -/
theorem Tail.attach_grows
    (hg : ∀ {extent s t rest}, operand extent s = .ok (t, rest) → extent.Groups t rest)
    {tail : Tail Tree} (ht : extent.Grows t s)
    (h : Tail.read operand extent s = .ok (some tail, rest)) :
    extent.Grows (attach t tail) rest := by
  have hevery : ∀ {extent s t rest}, operand extent s = .ok (t, rest) → t.Every Tree.Grouped :=
    fun h => (hg h).grouped
  cases Tail.read_eq_ok.1 h with
  | @some next form _ _ hscan hnext hread =>
    obtain ⟨hadmits, hform⟩ := of?_of_next? hnext
    -- Only properties and subscripts extend an operand.
    have hextent : next.kind ≠ .dot → next.kind ≠ .leftBracket → extent ≠ .operand := by
      rintro hdot hbracket rfl
      simp [admits, hdot, hbracket] at hadmits
    rcases of?_eq_some hform with
      ⟨rfl, hkind⟩ | ⟨rfl, hkind⟩ | ⟨rfl, hkind⟩ | ⟨rfl, hkind⟩ | ⟨rfl, hkind⟩
    · -- A call extends no operand.
      have hmore := Part.readAll_every Tree.grouped_common hevery (by decide) hread
      refine ⟨⟨Tree.grouped_call _ _, ht.grouped.under Tree.grouped_common.under _, hmore⟩,
        fun h => absurd h (hextent (by simp [hkind]) (by simp [hkind])), ?_⟩
      rintro (h | h | h) <;> cases h
    · exact attach_postfix ht (not_noPostfix_of_scan hscan (.inl hkind)) (.inl rfl) rfl
        (Part.readAll_every Tree.grouped_common hevery (by decide) hread)
        (Part.field_ne_of_readAll (by decide) hread)
    · exact attach_postfix ht (not_noPostfix_of_scan hscan (.inr hkind)) (.inr rfl) rfl
        (Part.readAll_every Tree.grouped_common hevery (by decide) hread)
        (Part.field_ne_of_readAll (by decide) hread)
    · obtain ⟨gap, text, right, rfl, hgrouped, htight, hends⟩ := Part.readAll_operator hg hread
      have hne : next.kind ≠ .dot ∧ next.kind ≠ .leftBracket := by
        rcases hkind with hkind | hkind
        · exact ⟨by rintro h; simp [h, comparisonKinds] at hkind,
            by rintro h; simp [h, comparisonKinds] at hkind⟩
        · exact ⟨by rintro h; simp [Token.isWord, h] at hkind,
            by rintro h; simp [Token.isWord, h] at hkind⟩
      exact attach_binary ht.grouped (.inl rfl) (hextent hne.1 hne.2) hgrouped htight hends
    · obtain ⟨gap, text, right, rfl, hgrouped, htight, hends⟩ := Part.readAll_operator hg hread
      have hne : next.kind ≠ .dot ∧ next.kind ≠ .leftBracket :=
        ⟨by rintro h; simp [h, arithmeticKinds] at hkind,
          by rintro h; simp [h, arithmeticKinds] at hkind⟩
      exact attach_binary ht.grouped (.inr rfl) (hextent hne.1 hne.2) hgrouped htight hends

end Expressions

/-- An expression is grouped, and does not go on through a property or a subscript. -/
theorem expression_groups (depth : Nat) {extent : Extent} {s rest : Input} {t : Tree}
    (h : expression depth extent s = .ok (t, rest)) : extent.Groups t rest := by
  induction depth generalizing extent s t rest with
  | zero => cases h
  | succ depth ih =>
    obtain ⟨head, s', tails, hhead, htails, rfl⟩ := exists_of_expression h
    have ho := Part.operands_expression depth
    -- The tails extend the primary one after the other, up to where there is none.
    refine Parser.many_foldl extent.Grows extent.Groups
      (fun ht hround => ⟨Tail.attach_grows ih ht hround, Tail.read_rest_lt ho hround⟩)
      (fun ht hround => ?_) (Primary.read_grows ih hhead) htails
    obtain ⟨rfl, hends⟩ := Tail.noPostfix_of_read_none hround
    exact ⟨ht.grouped, ht.tight, hends⟩

/-- Expressions are grouped wherever they stand in a template: operators and calls to the left, with
signs before them and properties and subscripts before these. -/
theorem Template.parse_grouped (options : Options) (source : Input) :
    (parse options source).tree.Every Tree.Grouped :=
  parse_every Tree.grouped_common (fun h => (expression_groups _ h).grouped) options source

end Stencil
