import Stencil.Proofs.Elements
import Stencil.Proofs.Forward
import Stencil.Proofs.Restart

/-!
# Descents

Operands, and the items in the body of an element, are read by a reader that is given to the one
that comes to them. `Part.Enters`, `OperandAt` and `Markup.NestedAt` say where a reader so descends.
Each of these places lies a byte behind the beginning of what is being read at least, and they are
all that matters: any reader that does the same there may be given instead. Depth is used up by
descents only. So no input is too deep for a limit that is greater than the number of its
characters, and such limits make no difference (`expression_eq_of_length_lt`,
`Markup.item_eq_of_length_lt`).
-/

namespace Stencil

/-! ## Advancing -/

/-- What is left at `place` is an end of `s`, and a byte shorter at least. -/
structure Advances (s place : Input) : Prop where
  suffix : place <:+ s
  lt : byteLength place < byteLength s

namespace Advances

variable {s m place : Input}

/-- Characters take bytes. -/
theorem of_length_lt (h : place <:+ s) (hlt : place.length < s.length) : Advances s place := by
  refine ⟨h, Nat.lt_of_le_of_ne (byteLength_le_of_suffix h) fun heq => ?_⟩
  rw [eq_of_suffix_of_byteLength_eq h heq] at hlt
  exact Nat.lt_irrefl _ hlt

/-- There are fewer characters left. -/
theorem length_lt (h : Advances s place) : place.length < s.length := by
  refine Nat.lt_of_le_of_ne h.suffix.length_le fun heq => ?_
  have hlt := h.lt
  rw [h.suffix.eq_of_length heq] at hlt
  exact Nat.lt_irrefl _ hlt

/-- Behind text there is less left. -/
theorem of_append {text : List Char} (h : text ++ place = s) (htext : text ≠ []) :
    Advances s place := by
  refine of_length_lt ⟨text, h⟩ ?_
  have hpos := List.length_pos_iff.2 htext
  rw [← h, List.length_append]
  omega

/-- Going on after advancing is advancing. -/
theorem on (h : Advances s m) (hplace : place <:+ m) : Advances s place :=
  ⟨hplace.trans h.suffix, Nat.lt_of_le_of_lt (byteLength_le_of_suffix hplace) h.lt⟩

/-- Advancing after going on is advancing. -/
theorem after (h : Advances m place) (hm : m <:+ s) : Advances s place :=
  ⟨h.suffix.trans hm, Nat.lt_of_lt_of_le h.lt (byteLength_le_of_suffix hm)⟩

/-- In a source, what advances comes to a greater offset, which is not behind the end. -/
theorem offset_lt {source : Input} (h : Advances s place) (hs : s <:+ source) :
    offset (byteLength source) s < offset (byteLength source) place ∧
      offset (byteLength source) place ≤ byteLength source := by
  have hlt := h.lt
  have hle := byteLength_le_of_suffix hs
  simp only [offset]
  omega

end Advances

/-! ## Parsers -/

namespace Parser

variable {α β : Type} {s : Input}

/-- Parsers that do the same are followed by the same. -/
theorem bind_congr {p p' : Parser α} {f f' : α → Parser β} (hp : p s = p' s)
    (hf : ∀ a rest, p s = .ok (a, rest) → f a rest = f' a rest) :
    (p >>= f) s = (p' >>= f') s := by
  show StateT.bind p f s = StateT.bind p' f' s
  unfold StateT.bind
  rw [← hp]
  cases h : p s with
  | error e => rfl
  | ok r => exact hf r.1 r.2 h

/-- Parsers that do the same do the same inside an opener. -/
theorem inside_congr (opener : Input) {p p' : Parser α} (h : p s = p' s) :
    inside opener p s = inside opener p' s := by
  rw [inside, inside, h]

/-- Rounds lead from a place to another. -/
inductive Rounds (round : Parser (Option α)) : Input → Input → Prop
  | here (s : Input) : Rounds round s s
  | next {s rest place : Input} {a : α} (h : round s = .ok (some a, rest))
    (hmore : Rounds round rest place) : Rounds round s place

/-- Rounds lead to an end of the input, if each of them does. -/
theorem Rounds.suffix {round : Parser (Option α)} (hround : round.Within) {place : Input}
    (h : Rounds round s place) : place <:+ s := by
  induction h with
  | here s => exact List.suffix_refl s
  | next h _ ih => exact ih.trans (hround.rest h)

/-- Rounds that do the same wherever they lead are the same. -/
theorem many_congr {round round' : Parser (Option α)}
    (h : ∀ place, Rounds round s place → round place = round' place) :
    many round s = many round' s := by
  fun_induction many round s with
  | case1 s e hround => rw [many, ← h s (.here s), hround]
  | case2 s rest hround => rw [many, ← h s (.here s), hround]
  | case3 s a rest hround hlt e hmore ih =>
    have hsame := ih fun place hplace => h place (.next hround hplace)
    rw [many, ← h s (.here s), hround]
    simp only [if_pos hlt, ← hsame, hmore]
  | case4 s a rest hround hlt as stop hmore ih =>
    have hsame := ih fun place hplace => h place (.next hround hplace)
    rw [many, ← h s (.here s), hround]
    simp only [if_pos hlt, ← hsame, hmore]
  | case5 s a rest hround hlt =>
    rw [many, ← h s (.here s), hround]
    simp only [if_neg hlt]

end Parser

/-- A token of a pattern that asks for text is read behind its beginning. -/
theorem Terminal.read_advances {t : Terminal} {s rest : Input} {leaf : Tree}
    (ht : t.pattern.hasText = true) (h : t.read s = .ok (leaf, rest)) : Advances s rest := by
  have hsource := Terminal.read_append h
  obtain ⟨next, taken, hscan, htake, rfl, rfl⟩ := exists_of_read h
  have htext := Pattern.take?_ne_nil hscan ht htake
  exact .of_append hsource (by simp [Token.leaf, Tree.source, htext])

/-- Looking is done where it begins. -/
theorem Look.holds_of_ok {look : Look} {s rest : Input} {found : Bool}
    (h : look.holds s = .ok (found, rest)) : look.holds s = .ok (found, s) := by
  rw [h, holds_rest h]

/-! ## Productions -/

namespace Part

variable {operand operand' : Extent → Parser Tree}

mutual

/-- Reading a part at `s` comes to an operand of an extent at a place. -/
def Enters (operand : Extent → Parser Tree) : Part → Input → Extent → Input → Prop
  | token _, _, _, _ | refuse _, _, _, _ => False
  | .operand _ e, s, extent, place => e = extent ∧ s = place
  | callee, s, extent, place => .whole = extent ∧ s = place
  | node _ _ parts, s, extent, place => EntersAll operand parts s extent place
  | enclosed _ _ opening parts, s, extent, place => ∃ first rest,
    opening.read s = .ok (first, rest) ∧ EntersAll operand parts rest extent place
  | choice look yes no, s, extent, place =>
    look.holds s = .ok (true, s) ∧ EntersAll operand yes s extent place ∨
      look.holds s = .ok (false, s) ∧ EntersAll operand no s extent place
  | repeated look parts, s, extent, place => ∃ s',
    Parser.Rounds (round operand look parts) s s' ∧ look.holds s' = .ok (true, s') ∧
      EntersAll operand parts s' extent place

/-- Reading a production at `s` comes to an operand of an extent at a place. -/
def EntersAll (operand : Extent → Parser Tree) : List Part → Input → Extent → Input → Prop
  | [], _, _, _ => False
  | p :: ps, s, extent, place =>
    Enters operand p s extent place ∨ ∃ first rest,
      p.read operand s = .ok (first, rest) ∧ EntersAll operand ps rest extent place

end

mutual

/-- Operands that are the same where a part comes to them may stand for each other. -/
theorem read_congr : ∀ (p : Part) {s : Input},
    (∀ extent place, p.Enters operand s extent place →
      operand extent place = operand' extent place) → p.read operand s = p.read operand' s
  | token t, s, _ => by rw [read, read]
  | .operand field extent, s, h => by
    rw [read, read]
    exact Parser.bind_congr (h extent s ⟨rfl, rfl⟩) fun _ _ _ => rfl
  | callee, s, h => by
    rw [read, read]
    exact Parser.bind_congr (h .whole s ⟨rfl, rfl⟩) fun _ _ _ => rfl
  | node _ _ parts, s, h => by
    rw [read, read]
    exact Parser.bind_congr (readAll_congr parts h) fun _ _ _ => rfl
  | enclosed _ _ opening parts, s, h => by
    rw [read, read]
    refine Parser.bind_congr rfl fun next rest hpeek => ?_
    obtain ⟨-, rfl⟩ := Parser.peek_eq_ok.1 hpeek
    refine Parser.bind_congr rfl fun first rest hfirst => ?_
    have hsame := readAll_congr parts (s := rest) fun extent place hplace =>
      h extent place ⟨first, rest, hfirst, hplace⟩
    exact Parser.bind_congr (Parser.inside_congr _ hsame) fun _ _ _ => rfl
  | choice look yes no, s, h => by
    rw [read, read]
    refine Parser.bind_congr rfl fun found rest hlook => ?_
    have hfound := Look.holds_of_ok hlook
    obtain rfl := Look.holds_rest hlook
    cases found with
    | true => exact readAll_congr yes fun e place hplace => h e place (.inl ⟨hfound, hplace⟩)
    | false => exact readAll_congr no fun e place hplace => h e place (.inr ⟨hfound, hplace⟩)
  | repeated look parts, s, h => by
    rw [read_repeated, read_repeated]
    refine Parser.bind_congr (Parser.many_congr fun s' hs' => ?_) fun _ _ _ => rfl
    -- The round that begins here looks first, and then reads the parts.
    refine Parser.bind_congr rfl fun found rest hlook => ?_
    have hfound := Look.holds_of_ok hlook
    obtain rfl := Look.holds_rest hlook
    cases found with
    | true =>
      exact Parser.bind_congr (readAll_congr parts fun extent place hplace =>
        h extent place ⟨s', hs', hfound, hplace⟩) fun _ _ _ => rfl
    | false => rfl
  | refuse _, s, _ => by rw [read, read]

/-- Operands that are the same where a production comes to them may stand for each other. -/
theorem readAll_congr : ∀ (ps : List Part) {s : Input},
    (∀ extent place, EntersAll operand ps s extent place →
      operand extent place = operand' extent place) → readAll operand ps s = readAll operand' ps s
  | [], s, _ => rfl
  | p :: ps, s, h => by
    rw [readAll, readAll]
    have hfirst := read_congr p fun extent place hplace => h extent place (.inl hplace)
    refine Parser.bind_congr hfirst fun first rest hread => ?_
    have hmore := readAll_congr ps (s := rest) fun extent place hplace =>
      h extent place (.inr ⟨first, rest, hread, hplace⟩)
    exact Parser.bind_congr hmore fun _ _ _ => rfl

end

/-- One round of a production is within its input, if operands are. -/
theorem round_within (hw : ∀ extent, (operand extent).Within) (look : Look) (parts : List Part) :
    (round operand look parts).Within := by
  refine look.holds_within.bind fun found => ?_
  cases found with
  | true => exact (readAll_within hw parts).bind fun _ => Parser.Within.pure _
  | false => exact Parser.Within.pure _

mutual

/-- A part comes to operands at ends of its input. -/
theorem suffix_of_enters (hw : ∀ extent, (operand extent).Within) : ∀ (p : Part) {s : Input}
    {extent : Extent} {place : Input}, p.Enters operand s extent place → place <:+ s
  | token _, _, _, _, h | refuse _, _, _, _, h => h.elim
  | .operand _ _, s, _, _, h | callee, s, _, _, h => by
    obtain ⟨-, rfl⟩ := h
    exact List.suffix_refl s
  | node _ _ parts, s, _, _, h => suffix_of_entersAll hw parts h
  | enclosed _ _ opening parts, s, _, _, h => by
    obtain ⟨_, _, hfirst, h⟩ := h
    exact (suffix_of_entersAll hw parts h).trans (opening.read_within.rest hfirst)
  | choice _ yes no, s, _, _, h => by
    rcases h with ⟨-, h⟩ | ⟨-, h⟩
    · exact suffix_of_entersAll hw yes h
    · exact suffix_of_entersAll hw no h
  | repeated look parts, s, _, _, h => by
    obtain ⟨_, hrounds, -, h⟩ := h
    exact (suffix_of_entersAll hw parts h).trans (hrounds.suffix (round_within hw look parts))

/-- A production comes to operands at ends of its input. -/
theorem suffix_of_entersAll (hw : ∀ extent, (operand extent).Within) : ∀ (ps : List Part)
    {s : Input} {extent : Extent} {place : Input}, EntersAll operand ps s extent place → place <:+ s
  | [], _, _, _, h => h.elim
  | p :: ps, s, _, _, h => by
    rcases h with h | ⟨_, _, hread, h⟩
    · exact suffix_of_enters hw p h
    · exact (suffix_of_entersAll hw ps h).trans ((read_within hw p).rest hread)

end

/-! ## Productions that begin with a token -/

mutual

/-- Whether a part begins with a token that has text. -/
def opens : Part → Bool
  | token t => t.pattern.hasText
  | node _ _ parts => opensAll parts
  | enclosed _ _ opening _ => opening.pattern.hasText
  | choice _ yes no => opensAll yes && opensAll no
  | .operand _ _ | callee | repeated _ _ | refuse _ => false

/-- Whether a production begins with a token that has text. -/
def opensAll : List Part → Bool
  | [] => false
  | p :: _ => p.opens

end

mutual

/-- A part that begins with a token that has text is read behind its beginning. -/
theorem read_advances (hw : ∀ extent, (operand extent).Within) : ∀ (p : Part) {s rest : Input}
    {ts : List Tree}, p.opens = true → p.read operand s = .ok (ts, rest) → Advances s rest
  | token t, _, _, _, hp, h => by
    obtain ⟨leaf, _, hread, h⟩ := Parser.bind_eq_ok.1 h
    obtain ⟨-, rfl⟩ := Parser.pure_eq_ok.1 h
    exact Terminal.read_advances hp hread
  | node _ _ parts, _, _, _, hp, h => by
    obtain ⟨ts, _, hread, h⟩ := Parser.bind_eq_ok.1 h
    obtain ⟨-, rfl⟩ := Parser.pure_eq_ok.1 h
    exact readAll_advances hw parts hp hread
  | enclosed _ _ opening parts, _, _, _, hp, h => by
    simp only [read, Parser.bind_eq_ok, Parser.pure_eq_ok, Parser.peek_eq_ok,
      Parser.inside_eq_ok] at h
    obtain ⟨_, _, ⟨_, rfl⟩, _, _, hfirst, _, _, hmore, -, rfl⟩ := h
    exact (Terminal.read_advances hp hfirst).on ((readAll_within hw parts).rest hmore)
  | choice look yes no, _, _, _, hp, h => by
    simp only [opens, Bool.and_eq_true] at hp
    obtain ⟨found, _, hlook, h⟩ := Parser.bind_eq_ok.1 h
    obtain rfl := Look.holds_rest hlook
    cases found with
    | true => exact readAll_advances hw yes hp.1 h
    | false => exact readAll_advances hw no hp.2 h

/-- A production that begins with a token that has text is read behind its beginning. -/
theorem readAll_advances (hw : ∀ extent, (operand extent).Within) : ∀ (ps : List Part)
    {s rest : Input} {ts : List Tree}, opensAll ps = true → readAll operand ps s = .ok (ts, rest) →
      Advances s rest
  | p :: ps, _, _, _, hp, h => by
    simp only [readAll, Parser.bind_eq_ok, Parser.pure_eq_ok] at h
    obtain ⟨_, _, hfirst, _, _, hmore, -, rfl⟩ := h
    exact (read_advances hw p hp hfirst).on ((readAll_within hw ps).rest hmore)

end

mutual

/-- A part that begins with a token that has text comes to operands behind its beginning. -/
theorem advances_of_enters (hw : ∀ extent, (operand extent).Within) : ∀ (p : Part) {s : Input}
    {extent : Extent} {place : Input}, p.opens = true → p.Enters operand s extent place →
      Advances s place
  | token _, _, _, _, _, h | refuse _, _, _, _, _, h => h.elim
  | .operand _ _, _, _, _, hp, _ | callee, _, _, _, hp, _ | repeated _ _, _, _, _, hp, _ => by
    cases hp
  | node _ _ parts, _, _, _, hp, h => advances_of_entersAll hw parts hp h
  | enclosed _ _ _ parts, _, _, _, hp, h => by
    obtain ⟨_, _, hfirst, h⟩ := h
    exact (Terminal.read_advances hp hfirst).on (suffix_of_entersAll hw parts h)
  | choice _ yes no, _, _, _, hp, h => by
    simp only [opens, Bool.and_eq_true] at hp
    rcases h with ⟨-, h⟩ | ⟨-, h⟩
    · exact advances_of_entersAll hw yes hp.1 h
    · exact advances_of_entersAll hw no hp.2 h

/-- A production that begins with a token that has text comes to operands behind its beginning. -/
theorem advances_of_entersAll (hw : ∀ extent, (operand extent).Within) : ∀ (ps : List Part)
    {s : Input} {extent : Extent} {place : Input}, opensAll ps = true →
      EntersAll operand ps s extent place → Advances s place
  | [], _, _, _, _, h => h.elim
  | p :: ps, _, _, _, hp, h => by
    rcases h with h | ⟨_, _, hread, h⟩
    · exact advances_of_enters hw p hp h
    · exact (read_advances hw p hp hread).on (suffix_of_entersAll hw ps h)

end

end Part

/-! ## Expressions -/

/-- A primary that is made of parts begins with a token that has text. -/
theorem Primary.opensAll_of_of? {t : Token} {kind : Kind} {parts : List Part}
    (h : of? t = some (.node kind parts)) : Part.opensAll parts = true := by
  have hsolid := isSolid_of_of? h
  rcases of?_eq_node h with h | h | ⟨h, -⟩
  · cases h
    rfl
  · cases h
    rfl
  · -- The token of an operator is solid, and so it has text.
    cases h
    simp only [Part.isSolid, Part.allSolid, Bool.and_eq_true] at hsolid
    exact hsolid.2.1.2

/-- A tail begins with a token that has text. -/
theorem Tail.opensAll_of_of? {t : Token} {form : Tail Part} (h : of? t = some form) :
    Part.opensAll form.more = true := by
  have hsolid := (isSolid_of_of? h).2
  have hbinary : ∀ {kind}, Part.allSolid (binary kind t).more = true →
      Part.opensAll (binary kind t).more = true := by
    intro kind hsolid
    simp only [binary, Part.isSolid, Part.allSolid, Bool.and_eq_true] at hsolid
    exact hsolid.1.2
  rcases of?_eq_some h with ⟨rfl, -⟩ | ⟨rfl, -⟩ | ⟨rfl, -⟩ | ⟨rfl, -⟩ | ⟨rfl, -⟩
  · rfl
  · rfl
  · rfl
  · exact hbinary hsolid
  · exact hbinary hsolid

/-- Reads an expression of an extent, given how operands are read. -/
def expressionOf (operand : Extent → Parser Tree) (extent : Extent) : Parser Tree := do
  let head ← Primary.read operand
  let tails ← Parser.many (Tail.read operand extent)
  return tails.foldl Tail.attach head

/-- The operands of an expression are read one level deeper. -/
theorem expression_succ (depth : Nat) (extent : Extent) :
    expression (depth + 1) extent = expressionOf (expression depth) extent := rfl

section Expressions

variable {operand operand' : Extent → Parser Tree} {extent e : Extent} {s place : Input}

/-- Reading an expression of an extent at `s` comes to an operand of an extent at a place: it stands
in the primary, or in a tail. -/
inductive OperandAt (operand : Extent → Parser Tree) (extent : Extent) (s : Input) :
    Extent → Input → Prop
  | primary {next : Token} {kind : Kind} {parts : List Part} {e : Extent} {place : Input}
    (hscan : Token.scan .operand s = .ok next) (hof : Primary.of? next = some (.node kind parts))
    (h : Part.EntersAll operand parts s e place) : OperandAt operand extent s e place
  | tail {head : Tree} {s₁ s₂ : Input} {next : Token} {form : Tail Part} {e : Extent}
    {place : Input} (hhead : Primary.read operand s = .ok (head, s₁))
    (hrounds : Parser.Rounds (Tail.read operand extent) s₁ s₂)
    (hscan : Token.scan (Tail.mode extent) s₂ = .ok next) (hadmits : Tail.admits extent next = true)
    (hof : Tail.of? next = some form) (h : Part.EntersAll operand form.more s₂ e place) :
    OperandAt operand extent s e place

/-- The operands of an expression stand behind a byte of it at least. -/
theorem OperandAt.advances (ho : Part.Operands operand) (h : OperandAt operand extent s e place) :
    Advances s place := by
  cases h with
  | @primary _ _ parts _ _ _ hof h =>
    exact Part.advances_of_entersAll ho.within parts (Primary.opensAll_of_of? hof) h
  | @tail _ s₁ s₂ _ form _ _ hhead hrounds _ _ hof h =>
    -- The tail begins behind the primary and the tails before it.
    have hs₁ := (Primary.read_within (fun _ _ _ _ h => ho.source h) ho.within).rest hhead
    have hs₂ := hrounds.suffix (Tail.read_within extent ho.within)
    exact (Part.advances_of_entersAll ho.within form.more (Tail.opensAll_of_of? hof) h).after
      (hs₂.trans hs₁)

/-- Operands that are the same where an expression comes to them may stand for each other. -/
theorem expressionOf_congr
    (h : ∀ e place, OperandAt operand extent s e place → operand e place = operand' e place) :
    expressionOf operand extent s = expressionOf operand' extent s := by
  have hprimary : Primary.read operand s = Primary.read operand' s := by
    refine Parser.bind_congr rfl fun next rest hpeek => ?_
    obtain ⟨hscan, rfl⟩ := Parser.peek_eq_ok.1 hpeek
    cases hof : Primary.of? next with
    | none => rfl
    | some form =>
      cases form with
      | leaf kind => rfl
      | node kind parts =>
        exact Parser.bind_congr (Part.readAll_congr parts fun e place hplace =>
          h e place (.primary hscan hof hplace)) fun _ _ _ => rfl
  refine Parser.bind_congr hprimary fun head s₁ hhead => ?_
  refine Parser.bind_congr (Parser.many_congr fun s₂ hrounds => ?_) fun _ _ _ => rfl
  -- The tail that begins here.
  refine Parser.bind_congr rfl fun next rest hpeek => ?_
  obtain ⟨hscan, rfl⟩ := Parser.peek_eq_ok.1 hpeek
  by_cases hadmits : Tail.admits extent next = true
  · rw [if_pos hadmits]
    cases hof : Tail.of? next with
    | none => rfl
    | some form =>
      exact Parser.bind_congr (Part.readAll_congr form.more fun e place hplace =>
        h e place (.tail hhead hrounds hscan hadmits hof hplace)) fun _ _ _ => rfl
  · rw [if_neg hadmits]

/-- How deeply operands may nest makes no difference, if that is deeper than there are
characters. -/
theorem expression_eq_of_length_lt {depth depth' : Nat} (h : s.length < depth)
    (h' : s.length < depth') : expression depth extent s = expression depth' extent s := by
  induction depth generalizing depth' extent s with
  | zero => omega
  | succ depth ih =>
    cases depth' with
    | zero => omega
    | succ depth' =>
      rw [expression_succ, expression_succ]
      refine expressionOf_congr fun e place hplace => ?_
      have hlt := (hplace.advances (Part.operands_expression depth)).length_lt
      exact ih (by omega) (by omega)

end Expressions

/-! ## Items -/

/-- Readings that do the same are followed by the same. -/
theorem Reading.bind_congr {α β : Type} {x y : Reading α} {f g : α → Reading β} {s : Input}
    (hx : x s = y s) (hf : ∀ a rest, x.parser s = .ok (a, rest) → f a rest = g a rest) :
    (x >>= f) s = (y >>= g) s := by
  cases h : (x s).result with
  | error e => rw [bind_of_error h, bind_of_error (hx ▸ h), hx]
  | ok r => rw [bind_of_ok h, bind_of_ok (hx ▸ h), hx, hf r.1 r.2 h]

/-- Parsers that do the same do the same without a journal. -/
theorem Reading.quiet_congr {α : Type} {p p' : Parser α} {s : Input} (h : p s = p' s) :
    quiet p s = quiet p' s := by
  rw [quiet, quiet, h]

/-- Readings that do the same do the same inside an opener. -/
theorem Reading.inside_congr {α : Type} (opener : Input) {x y : Reading α} {s : Input}
    (h : x s = y s) : inside opener x s = inside opener y s := by
  rw [inside_eq, inside_eq, h]

namespace Markup

variable {operand operand' : Extent → Parser Tree} {x y : Reading (List Tree)}
  {element element' : Reading Tree} {s place : Input} {e : Extent}

/-- Reading the items of a body from `s` on comes to an item at a place: neither does the input end
there, nor is there a closing tag. -/
inductive BodyAt (x : Reading (List Tree)) : Input → Input → Prop
  | here {s : Input} (hs : s ≠ []) (hfooter : atFooter s = false) : BodyAt x s s
  | next {s rest place : Input} {ts : List Tree} (hs : s ≠ []) (hfooter : atFooter s = false)
    (h : x.parser s = .ok (ts, rest)) (hmore : BodyAt x rest place) : BodyAt x s place

/-- The items of a body begin at ends of the input. -/
theorem BodyAt.suffix (hx : x.parser.Within) (h : BodyAt x s place) : place <:+ s := by
  induction h with
  | here => exact List.suffix_refl _
  | next _ _ h _ ih => exact ih.trans (hx.rest h)

/-- Items that are the same wherever a body has one may stand for each other. -/
theorem body_congr (h : ∀ place, BodyAt x s place → x place = y place) : body x s = body y s := by
  fun_induction body x s with
  | case1 => rw [body, if_pos rfl]
  | case2 s hs hfooter => rw [body, if_neg hs, if_pos hfooter]
  | case3 s hs hfooter first e hfirst =>
    have hsame := h s (.here hs (Bool.not_eq_true _ ▸ hfooter))
    rw [body, if_neg hs, if_neg hfooter, ← hsame]
    simp only [first] at hfirst ⊢
    rw [hfirst]
  | case4 s hs hfooter first ts rest hfirst hlt more ih =>
    have hfooter' : atFooter s = false := Bool.not_eq_true _ ▸ hfooter
    have hsame := h s (.here hs hfooter')
    have hmore := ih fun place hplace => h place (.next hs hfooter' hfirst hplace)
    rw [body, if_neg hs, if_neg hfooter, ← hsame]
    simp only [first, more] at hfirst hmore ⊢
    simp only [hfirst, if_pos hlt, ← hmore]
  | case5 s hs hfooter first ts rest hfirst hlt =>
    have hsame := h s (.here hs (Bool.not_eq_true _ ▸ hfooter))
    rw [body, if_neg hs, if_neg hfooter, ← hsame]
    simp only [first] at hfirst ⊢
    simp only [hfirst, if_neg hlt]

/-- Reading the element at `s` comes to an operand of an extent at a place: it stands in the opening
tag. -/
def TagOperandAt (operand : Extent → Parser Tree) (s : Input) (e : Extent) (place : Input) : Prop :=
  ∃ first s', opener.read s = .ok (first, s') ∧ Part.EntersAll operand header s' e place

/-- Reading the element at `s` comes to an item at a place: it stands in the body. -/
def NestedAt (operand : Extent → Parser Tree) (x : Reading (List Tree)) (s place : Input) : Prop :=
  ∃ tag stop s', Opened operand s tag stop s' ∧
    (stop.any fun t => t.text = ['/', '>']) = false ∧ BodyAt x s' place

/-- The operands of an opening tag stand behind a byte of the element at least. -/
theorem TagOperandAt.advances (hw : ∀ extent, (operand extent).Within)
    (h : TagOperandAt operand s e place) : Advances s place := by
  obtain ⟨first, s', hfirst, h⟩ := h
  exact (Terminal.read_advances rfl hfirst).on (Part.suffix_of_entersAll hw header h)

/-- The items of a body begin behind a byte of the element at least. -/
theorem NestedAt.advances (hw : ∀ extent, (operand extent).Within) (hx : x.parser.Within)
    (h : NestedAt operand x s place) : Advances s place := by
  obtain ⟨_, _, s', ⟨first, s₁, inner, s₂, hfirst, hinner, hstop, -⟩, -, h⟩ := h
  have hs₂ := (Part.readAll_within hw header).rest hinner
  have hs' := (Part.readAll_within hw headerEnd).rest hstop
  exact (Terminal.read_advances rfl hfirst).on (((h.suffix hx).trans hs').trans hs₂)

/-- The end of an opening tag holds no operands. -/
theorem headerEnd_congr (s : Input) :
    Part.readAll operand headerEnd s = Part.readAll operand' headerEnd s :=
  Part.readAll_congr headerEnd fun _ _ h => by simp [headerEnd, Part.EntersAll, Part.Enters] at h

/-- A closing tag holds no operands. -/
theorem footer_congr (s : Input) :
    Part.readAll operand footer s = Part.readAll operand' footer s :=
  Part.readAll_congr footer fun _ _ h => by simp [footer, Part.EntersAll, Part.Enters] at h

/-- Operands and items that are the same where an element comes to them may stand for each other. -/
theorem element_congr
    (hoperand : ∀ e place, TagOperandAt operand s e place → operand e place = operand' e place)
    (hitem : ∀ place, NestedAt operand x s place → x place = y place) :
    Markup.element operand x s = Markup.element operand' y s := by
  refine Reading.bind_congr rfl fun here s₀ hhere => ?_
  obtain ⟨rfl, rfl⟩ := Reading.parser_here_eq_ok.1 hhere
  refine Reading.bind_congr rfl fun first s₁ hfirst => ?_
  have htag : Part.readAll operand header s₁ = Part.readAll operand' header s₁ :=
    Part.readAll_congr header fun e place hplace => hoperand e place ⟨first, s₁, hfirst, hplace⟩
  refine Reading.inside_congr _ ?_
  refine Reading.bind_congr (Reading.quiet_congr htag) fun tag s₂ htag => ?_
  refine Reading.bind_congr (Reading.quiet_congr (headerEnd_congr s₂)) fun stop s₃ hstop => ?_
  cases hopen : stop.any fun t => t.text = ['/', '>'] with
  | true => rfl
  | false =>
    have hbody : body x s₃ = body y s₃ := body_congr fun place hplace =>
      hitem place ⟨_, stop, s₃, ⟨first, s₁, tag, s₂, hfirst, htag, hstop, rfl⟩, hopen, hplace⟩
    exact Reading.bind_congr hbody fun items s₄ _ =>
      Reading.bind_congr (Reading.quiet_congr (footer_congr s₄)) fun _ _ _ => rfl

/-- Reading an item at `s` comes to an operand of an extent at a place, if the item is a value or a
statement. -/
inductive ItemOperandAt (operand : Extent → Parser Tree) (s : Input) : Extent → Input → Prop
  | value {e : Extent} {place : Input} (hkind : (Token.scanText s).kind = .valueOpen)
    (h : (Part.value none .text "`\x7b\x7b`").Enters operand s e place) :
    ItemOperandAt operand s e place
  | statement {e : Extent} {place : Input} (hkind : (Token.scanText s).kind = .statementOpen)
    (h : Part.statement.Enters operand s e place) : ItemOperandAt operand s e place

/-- The operands of an item stand behind a byte of it at least. -/
theorem ItemOperandAt.advances (hw : ∀ extent, (operand extent).Within)
    (h : ItemOperandAt operand s e place) : Advances s place := by
  cases h with
  | value _ h => exact Part.advances_of_enters hw _ rfl h
  | statement _ h => exact Part.advances_of_enters hw _ rfl h

/-- Operands that are the same where an item comes to them may stand for each other, and so may
elements that are the same. -/
theorem itemOf_congr
    (hoperand : ∀ e place, ItemOperandAt operand s e place → operand e place = operand' e place)
    (helement : (Token.scanText s).kind = .tagOpen → element s = element' s) :
    itemOf operand element s = itemOf operand' element' s := by
  rw [itemOf_eq, itemOf_eq]
  cases hkind : (Token.scanText s).kind
  case valueOpen =>
    exact Reading.quiet_congr (Part.read_congr _ fun e place h => hoperand e place (.value hkind h))
  case statementOpen =>
    refine Reading.bind_congr rfl fun opener s₁ hhere => ?_
    obtain ⟨rfl, rfl⟩ := Reading.parser_here_eq_ok.1 hhere
    have hread := Part.read_congr Part.statement fun e place h =>
      hoperand e place (.statement hkind h)
    exact Reading.bind_congr (Reading.quiet_congr hread) fun _ _ _ => rfl
  case tagOpen => exact Reading.bind_congr (helement hkind) fun _ _ _ => rfl
  all_goals rfl

/-- The items of a body, as they are read where elements and operands nest at most `depth` deep. -/
def nested (recover : Bool) (depth : Nat) : Reading (List Tree) :=
  if recover then (item recover depth).recovering else item recover depth

/-- Reads an element in which elements and operands nest less than `depth` deep. -/
def elementAt (recover : Bool) : Nat → Reading Tree
  | 0 => tooDeep
  | depth + 1 => Markup.element (expression depth) (nested recover depth)

/-- What an item is made of where elements and operands nest at most `depth` deep. -/
theorem item_eq (recover : Bool) (depth : Nat) :
    item recover depth = itemOf (expression depth) (elementAt recover depth) := by
  cases depth <;> rfl

/-- The items of a body hold what is read. -/
theorem nested_readsItems (recover : Bool) (depth : Nat) : ReadsItems (nested recover depth) := by
  cases recover with
  | true => exact recovering_readsItems (item_readsItems true depth)
  | false => exact item_readsItems false depth

/-- How deeply elements and operands may nest makes no difference, if that is deeper than there are
characters. -/
theorem item_eq_of_length_lt {recover : Bool} {depth depth' : Nat} (h : s.length < depth)
    (h' : s.length < depth') : item recover depth s = item recover depth' s := by
  induction depth generalizing depth' s with
  | zero => omega
  | succ depth ih =>
    cases depth' with
    | zero => omega
    | succ depth' =>
      have hw := fun depth => (Part.operands_expression depth).within
      rw [item_eq, item_eq]
      refine itemOf_congr (fun e place hplace => ?_)
        fun _ => element_congr (fun e place hplace => ?_) fun place hplace => ?_
      · have hlt := (hplace.advances (hw _)).length_lt
        exact expression_eq_of_length_lt (by omega) (by omega)
      · have hlt := (hplace.advances (hw _)).length_lt
        exact expression_eq_of_length_lt (by omega) (by omega)
      · have hlt := (hplace.advances (hw _) (nested_readsItems recover depth).within).length_lt
        have hitem : item recover depth place = item recover depth' place :=
          ih (by omega) (by omega)
        cases recover with
        | true =>
          show (item true depth).recovering place = (item true depth').recovering place
          rw [Reading.recovering, Reading.recovering, hitem]
        | false => exact hitem

end Markup

end Stencil
