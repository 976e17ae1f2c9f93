import Stencil.Grammar.Statement
import Stencil.Proofs.Forward

/-!
# Nothing is lost

The trees that a production is read into hold every character that was read, in order, blanks
included: what they hold and what is left is the input. The main statements are `Part.read_append`
for productions, whatever reads the operands, and `expression_append` for expressions of every
depth.
-/

namespace Stencil

/-! ## Productions -/

/-- A leaf holds what is read of the input. -/
theorem Terminal.read_append {t : Terminal} {s rest : Input} {leaf : Tree}
    (h : t.read s = .ok (leaf, rest)) : leaf.source ++ rest = s := by
  obtain ⟨next, taken, hscan, htake, rfl, rfl⟩ := exists_of_read h
  obtain ⟨hgap, hstart⟩ := Pattern.take?_start htake
  have := Token.gap_append_start hscan
  rw [← hgap, ← hstart] at this
  simpa [Token.leaf, Tree.source, Token.start] using this

namespace Part

/-- Splitting a call keeps its characters. -/
theorem sources_splitCall (t : Tree) : Tree.sources (splitCall t) = t.source := by
  unfold splitCall
  split <;> simp [Tree.sources, Tree.source]

/-- The characters of rounds of trees are those of the trees in one row. -/
theorem sources_flatten (rounds : List (List Tree)) :
    Tree.sources rounds.flatten = rounds.flatMap Tree.sources := by
  induction rounds with
  | nil => rfl
  | cons ts rounds ih => simp [ih]

mutual

/-- The trees of a part hold what is read of the input, if operands do. -/
theorem read_append {operand : Extent → Parser Tree}
    (ho : ∀ {extent s t rest}, operand extent s = .ok (t, rest) → t.source ++ rest = s) :
    ∀ (p : Part) {s rest : Input} {ts : List Tree}, p.read operand s = .ok (ts, rest) →
      Tree.sources ts ++ rest = s
  | token t, s, rest, ts, h => by
    simp only [read, Parser.bind_eq_ok, Parser.pure_eq_ok] at h
    obtain ⟨leaf, _, h, rfl, rfl⟩ := h
    simpa [Tree.sources] using Terminal.read_append h
  | .operand field extent, s, rest, ts, h => by
    simp only [read, Parser.bind_eq_ok, Parser.pure_eq_ok] at h
    obtain ⟨t, _, h, rfl, rfl⟩ := h
    simpa [Tree.sources] using ho h
  | callee, s, rest, ts, h => by
    simp only [read, Parser.bind_eq_ok, Parser.pure_eq_ok] at h
    obtain ⟨t, _, h, rfl, rfl⟩ := h
    simpa [sources_splitCall] using ho h
  | node field kind parts, s, rest, ts, h => by
    simp only [read, Parser.bind_eq_ok, Parser.pure_eq_ok] at h
    obtain ⟨ts, _, h, rfl, rfl⟩ := h
    simpa [Tree.sources, Tree.source] using readAll_append ho parts h
  | enclosed field kind opening parts, s, rest, ts, h => by
    simp only [read, Parser.bind_eq_ok, Parser.pure_eq_ok, Parser.peek_eq_ok,
      Parser.inside_eq_ok] at h
    -- The opening token, and the parts after it.
    obtain ⟨t, _, ⟨_, rfl⟩, first, s', hfirst, ts, _, hmore, rfl, rfl⟩ := h
    have hfirst := Terminal.read_append hfirst
    have hmore := readAll_append ho parts hmore
    simp_all [Tree.sources, Tree.source]
  | choice look yes no, s, rest, ts, h => by
    simp only [read, Parser.bind_eq_ok] at h
    obtain ⟨found, _, hlook, h⟩ := h
    obtain rfl := Look.holds_rest hlook
    split at h
    · exact readAll_append ho yes h
    · exact readAll_append ho no h
  | repeated look parts, s, rest, ts, h => by
    simp only [read, Parser.bind_eq_ok, Parser.pure_eq_ok] at h
    obtain ⟨rounds, _, h, rfl, rfl⟩ := h
    -- Each round reads nothing while it looks, and then the parts or nothing.
    rw [sources_flatten]
    refine Parser.many_append Tree.sources (fun {s a rest} h => ?_) h
    simp only [Parser.bind_eq_ok] at h
    obtain ⟨found, _, hlook, h⟩ := h
    obtain rfl := Look.holds_rest hlook
    split at h
    · simp only [Parser.bind_eq_ok, Parser.pure_eq_ok] at h
      obtain ⟨ts, _, h, rfl, rfl⟩ := h
      exact readAll_append ho parts h
    · obtain ⟨rfl, rfl⟩ := Parser.pure_eq_ok.1 h
      rfl
  | refuse cause, s, rest, ts, h => by
    simp only [read, Parser.bind_eq_ok] at h
    obtain ⟨_, _, _, h⟩ := h
    cases h

/-- The trees of a production hold what is read of the input, if operands do. -/
theorem readAll_append {operand : Extent → Parser Tree}
    (ho : ∀ {extent s t rest}, operand extent s = .ok (t, rest) → t.source ++ rest = s) :
    ∀ (ps : List Part) {s rest : Input} {ts : List Tree}, readAll operand ps s = .ok (ts, rest) →
      Tree.sources ts ++ rest = s
  | [], s, rest, ts, h => by
    obtain ⟨rfl, rfl⟩ := Parser.pure_eq_ok.1 h
    rfl
  | p :: ps, s, rest, ts, h => by
    simp only [readAll, Parser.bind_eq_ok, Parser.pure_eq_ok] at h
    obtain ⟨first, _, hfirst, more, _, hmore, rfl, rfl⟩ := h
    have hfirst := read_append ho p hfirst
    have hmore := readAll_append ho ps hmore
    simp_all

end

end Part

/-! ## Expressions -/

/-- The trees of a primary hold what is read of the input, if operands do. -/
theorem Primary.read_append {operand : Extent → Parser Tree}
    (ho : ∀ {extent s t rest}, operand extent s = .ok (t, rest) → t.source ++ rest = s)
    {s rest : Input} {t : Tree} (h : Primary.read operand s = .ok (t, rest)) :
    t.source ++ rest = s := by
  cases read_eq_ok.1 h with
  | leaf hscan => simpa [Token.leaf, Tree.source, Token.start] using Token.gap_append_start hscan
  | node _ _ hparts => exact Part.readAll_append ho _ hparts

/-- The trees of a tail hold what is read of the input, if operands do. -/
theorem Tail.read_append {operand : Extent → Parser Tree} {extent : Extent}
    (ho : ∀ {extent s t rest}, operand extent s = .ok (t, rest) → t.source ++ rest = s)
    {s rest : Input} {tail : Option (Tail Tree)}
    (h : Tail.read operand extent s = .ok (tail, rest)) :
    (tail.elim [] fun tail => Tree.sources tail.more) ++ rest = s := by
  cases read_eq_ok.1 h with
  | none => rfl
  | some _ _ hmore => exact Part.readAll_append ho _ hmore

/-- An expression that is extended holds its own characters and then those of the tails. -/
theorem Tail.source_foldl_attach (tails : List (Tail Tree)) (t : Tree) :
    (tails.foldl attach t).source
      = t.source ++ tails.flatMap fun tail => Tree.sources tail.more := by
  induction tails generalizing t with
  | nil => simp
  | cons tail tails ih => simp [ih, attach, Tree.source, Tree.sources]

/-- An expression holds what is read of the input. -/
theorem expression_append (depth : Nat) {extent : Extent} {s rest : Input} {t : Tree}
    (h : expression depth extent s = .ok (t, rest)) : t.source ++ rest = s := by
  induction depth generalizing extent s t rest with
  | zero => cases h
  | succ depth ih =>
    -- The primary is read first, and then the tails that extend it.
    obtain ⟨head, s', tails, hhead, htails, rfl⟩ := exists_of_expression h
    have hhead := Primary.read_append ih hhead
    have htails := Parser.many_append (fun tail : Tail Tree => Tree.sources tail.more)
      (Tail.read_append ih) htails
    rw [Tail.source_foldl_attach, List.append_assoc, htails, hhead]

end Stencil
