import Stencil.Proofs.Forward
import Stencil.Proofs.Machine

/-!
# Reading on trial

Where the reader of trees looks ahead for a name and a sign of assignment, the machine reads the
two tokens on trial. Whatever state it is in, the trial succeeds where they come next, and where it
fails the machine is as it was (`Machine.attempt_cases`). So a choice between an argument that is
named and another one comes to the same whether it is made by trial or by looking ahead
(`Machine.part_named`).
-/

namespace Stencil

namespace Action

variable {σ : Type}

/-- What is done one after the other may be grouped in any way. -/
instance : LawfulMonad (Action σ) := by
  refine LawfulMonad.mk' (Action σ) (fun x => ?_) (fun a f => rfl) (fun x f g => ?_)
  · funext s
    show (x >>= fun a => pure a) s = x s
    rcases hx : x s with ⟨_ | a, s'⟩
    · rw [bind_of_error hx]
    · rw [bind_of_ok hx]
      rfl
  · funext s
    rcases hx : x s with ⟨fault | a, s'⟩
    · rw [bind_of_error hx, bind_of_error (bind_of_error hx)]
    · rw [bind_of_ok hx]
      rcases hf : f a s' with ⟨fault | b, s''⟩
      · rw [bind_of_error hf, bind_of_error ((bind_of_ok hx).trans hf)]
      · rw [bind_of_ok hf, bind_of_ok ((bind_of_ok hx).trans hf)]

end Action

/-! ## Looking ahead -/

namespace Terminal

/-- Whether a token is one of code and of a kind. -/
def isOf (t : Terminal) (k : TokenKind) : Bool :=
  match t.mode, t.pattern with
  | .code, .kind k' => k' = k
  | _, _ => false

/-- A token of code and of a kind is read where the next token is of that kind. -/
theorem read_of_isOf {t : Terminal} {k : TokenKind} (h : t.isOf k = true) {s rest : Input}
    {leaf : Tree} :
    t.read s = .ok (leaf, rest) ↔ ∃ next, Token.scan .code s = .ok next ∧ next.kind = k ∧
      leaf = next.leaf t.field t.kind ∧ rest = next.rest := by
  obtain ⟨field, kind, mode, pattern, expected⟩ := t
  unfold isOf at h
  split at h
  case h_2 => cases h
  case h_1 k' hmode hpattern =>
    obtain rfl : mode = .code := hmode
    obtain rfl : pattern = .kind k' := hpattern
    obtain rfl := of_decide_eq_true h
    constructor
    · intro h
      obtain ⟨next, taken, hscan, htake, hleaf, hrest⟩ := exists_of_read h
      obtain ⟨hkind, rfl⟩ := Pattern.kind_of_take? htake
      exact ⟨taken, hscan, hkind, hleaf, hrest⟩
    · rintro ⟨next, hscan, hkind, rfl, rfl⟩
      exact read_of_scan hscan (if_pos hkind)

/-- Whether two tokens are read one after the other. -/
def ReadBefore (first second : Terminal) (s : Input) : Prop :=
  ∃ leaf s' leaf' rest, first.read s = .ok (leaf, s') ∧ second.read s' = .ok (leaf', rest)

end Terminal

/-- A name and the sign of assignment come next where the two tokens are read. -/
theorem atNamed_iff {key sign : Terminal} (hkey : key.isOf .word = true)
    (hsign : sign.isOf .assign = true) (s : Input) :
    atNamed s = true ↔ key.ReadBefore sign s := by
  simp only [Terminal.ReadBefore, Terminal.read_of_isOf hkey, Terminal.read_of_isOf hsign]
  constructor
  · intro h
    unfold atNamed at h
    split at h
    case h_2 => cases h
    case h_1 name hname =>
      split at h
      case h_2 => simp at h
      case h_1 assign hassign =>
        simp only [Bool.and_eq_true, decide_eq_true_eq] at h
        exact ⟨_, _, _, _, ⟨name, hname, h.1, rfl, rfl⟩, assign, hassign, h.2, rfl, rfl⟩
  · rintro ⟨_, _, _, _, ⟨name, hname, hword, rfl, rfl⟩, assign, hassign, hkind, rfl, rfl⟩
    simp [atNamed, hname, hword, hassign, hkind]

/-! ## Trials -/

namespace Machine

/-- The machine after some tokens were read: their leaves are at the end of the arena. -/
def behind (m : Machine) (leaves : List Entry) (rest : Input) : Machine :=
  { m with rest := rest, entries := m.entries ++ leaves }

/-- A token is read on the machine where the reader reads it. Where it is missing the machine is as
it was. -/
theorem terminal_cases (t : Terminal) (m : Machine) :
    (∃ leaf rest link entry, t.read m.rest = .ok (leaf, rest) ∧
        terminal t m = (.ok link, m.behind [entry] rest)) ∨
      ∃ e fault, t.read m.rest = .error e ∧ terminal t m = (.error fault, m) := by
  cases hscan : Token.scan t.mode m.rest with
  | error fault =>
    have hread : t.read m.rest = .error ⟨fault, m.rest⟩ :=
      Parser.bind_eq_error.2 (.inl (Parser.peek_eq_error.2 ⟨fault, hscan, rfl⟩))
    have hpeek : peek t.mode m = (.error fault, m) := by rw [peek, hscan]
    exact .inr ⟨_, fault, hread, Action.bind_of_error hpeek⟩
  | ok next =>
    have hpeek : peek t.mode m = (.ok next, m) := by rw [peek, hscan]
    cases htake : t.pattern.take? next with
    | none =>
      refine .inr ⟨⟨⟨.unexpectedToken t.expected, next.start⟩, m.rest⟩,
        ⟨.unexpectedToken t.expected, next.start⟩,
        Parser.bind_eq_error.2 (.inr ⟨next, m.rest, Parser.peek_of_scan hscan, ?_⟩), ?_⟩
      · rw [htake]
        rfl
      · rw [terminal, Action.bind_of_ok hpeek, htake]
        rfl
    | some taken =>
      refine .inl ⟨_, _, (t.field, m.entries.length),
        ⟨none, t.kind, offset m.size taken.start, offset m.size taken.rest, []⟩,
        Terminal.read_of_scan hscan htake, ?_⟩
      rw [terminal, Action.bind_of_ok hpeek, htake]
      rfl

/-- A name and the sign of assignment behind it are read on trial where the reader reads them. Where
one of them is missing the machine is as it was. -/
theorem attempt_cases (key sign : Terminal) (m : Machine) :
    (key.ReadBefore sign m.rest ∧ ∃ links m', keyword key sign m = (.ok links, m') ∧
        attempt (keyword key sign) m = (.ok links, m')) ∨
      ¬key.ReadBefore sign m.rest ∧ ∃ fault, attempt (keyword key sign) m = (.error fault, m) := by
  rcases terminal_cases key m with
    ⟨name, s, link, entry, hname, hkey⟩ | ⟨e, fault, hname, hkey⟩
  · rcases terminal_cases sign (m.behind [entry] s) with
      ⟨assign, rest, link', entry', hassign, hsign⟩ | ⟨e, fault, hassign, hsign⟩
    · have hkeyword : keyword key sign m =
          (.ok [link, link'], (m.behind [entry] s).behind [entry'] rest) := by
        rw [keyword, Action.bind_of_ok hkey, Action.bind_of_ok hsign]
        rfl
      refine .inl ⟨⟨name, s, assign, rest, hname, hassign⟩, _, _, hkeyword, ?_⟩
      rw [attempt, hkeyword]
    · -- The name has been read, and its leaf is taken away again.
      have hkeyword : keyword key sign m = (.error fault, m.behind [entry] s) := by
        rw [keyword, Action.bind_of_ok hkey, Action.bind_of_error hsign]
      refine .inr ⟨?_, fault, by simp [attempt, hkeyword, behind]⟩
      rintro ⟨_, _, _, _, hname', hassign'⟩
      cases hname.symm.trans hname'
      cases hassign.symm.trans hassign'
  · have hkeyword : keyword key sign m = (.error fault, m) := by
      rw [keyword, Action.bind_of_error hkey]
    refine .inr ⟨?_, fault, by simp [attempt, hkeyword]⟩
    rintro ⟨_, _, _, _, hname', -⟩
    cases hname.symm.trans hname'

/-- A node that begins with a name and the sign of assignment behind it. -/
theorem parts_keyword (operand : Extent → Action Machine Nat) (key sign : Terminal)
    (field : Option Field) (kind : Kind) (value : List Part) :
    parts operand [.node field kind (.token key :: .token sign :: value)] = (do
      let links ← keyword key sign
      let more ← parts operand value
      let id ← node kind (links ++ more)
      return [(field, id)]) := by
  simp [parts, part, keyword]

/-- Whether an argument is a named one may be found out by looking ahead as well. -/
theorem part_named {key sign : Terminal} (hkey : key.isOf .word = true)
    (hsign : sign.isOf .assign = true) (operand : Extent → Action Machine Nat)
    (field : Option Field) (kind : Kind) (value no : List Part) (m : Machine) :
    part operand (.choice .named [.node field kind (.token key :: .token sign :: value)] no) m =
      parts operand
        (if atNamed m.rest then [.node field kind (.token key :: .token sign :: value)] else no)
        m := by
  have hnamed := atNamed_iff hkey hsign m.rest
  rw [part]
  rcases attempt_cases key sign m with ⟨hread, links, m', hkeyword, htrial⟩ | ⟨hread, fault, htrial⟩
  · -- The name and the sign are kept, and the value follows them.
    have hcaught : (attempt (keyword key sign)).caught m = (.ok (.ok links), m') := by
      rw [Action.caught, htrial]
    rw [Action.bind_of_ok hcaught, if_pos (hnamed.2 hread), parts_keyword,
      Action.bind_of_ok hkeyword]
  · -- The machine is as it was, and what is read is no named argument.
    have hcaught : (attempt (keyword key sign)).caught m = (.ok (.error fault), m) := by
      rw [Action.caught, htrial]
    rw [Action.bind_of_ok hcaught, if_neg (mt hnamed.1 hread)]

end Machine

end Stencil
