import Stencil.Proofs.Forward
import Stencil.Proofs.Items
import Stencil.Proofs.Lookahead

/-!
# What is read stays read

What a parser reads does not change when more input follows, as long as what it leaves says where
it stopped (`Parser.Local`). For the parts of a production it is enough that the end of the value or
the statement is still to come (`Part.readAll_local`), and so it is for expressions of every depth
(`expression_local`). Parts that hold the end themselves are what they are before whatever follows
(`Parser.Closing`, `Part.readAll_closing`).
-/

namespace Stencil

variable {s rest : Input}

/-- What is left of an input, as a condition that holds of an input if it holds of its end. -/
structure Ahead (ends : Input → Prop) (modes : List Mode) : Prop where
  mono : ∀ ⦃rest s⦄, ends rest → rest <:+ s → ends s
  /-- A token in one of the modes is the same in front of more input. -/
  scan : ∀ ⦃mode s t⦄, mode ∈ modes → ends s → Token.scan mode s = .ok t →
    ∀ x, Token.scan mode (s ++ x) = .ok (t.append x)

/-- The end of a value or a statement says where its tokens stop. -/
theorem ahead_closes : Ahead Closes Token.codeModes :=
  ⟨fun _ _ h hs => h.mono hs, fun _ _ _ hmode hs h x => Token.scan_append_of_closes hmode hs h x⟩

/-- The bracket of a tag says where its tokens stop. -/
theorem ahead_bracket : Ahead (fun s => '>' ∈ s) [.tag] := by
  refine ⟨fun _ _ h hs => hs.subset h, fun mode s t hmode hs h x => ?_⟩
  obtain rfl := List.mem_singleton.1 hmode
  exact Token.scan_append_of_bracket hs h x

/-- A pattern takes the same of a token in front of more input. -/
theorem Pattern.take?_append (p : Pattern) (t : Token) (x : Input) :
    p.take? (t.append x) = (p.take? t).map fun taken => taken.append x := by
  induction p with
  | kind k => by_cases h : t.kind = k <;> simp [take?, h]
  | word w => by_cases h : t.isWord w = true <;> simp [take?, h]
  | closer b =>
    cases htext : t.text with
    | nil => simp [take?, htext]
    | cons c more => by_cases hc : c = b.closer <;> simp [take?, htext, hc, Token.append]
  | hyphen => by_cases h : t.kind = .minus ∨ t.kind = .trim <;> simp [take?, h]
  | touching p ih => by_cases h : t.gap = [] <;> simp [take?, h, ih]

/-- What a pattern takes of a token it takes of the token in front of more input. -/
theorem Pattern.take?_append_of_some {p : Pattern} {t taken : Token} (h : p.take? t = some taken)
    (x : Input) : p.take? (t.append x) = some (taken.append x) := by
  rw [take?_append, h]
  rfl

/-! ## Parsers -/

namespace Parser

variable {α β : Type} {ends : Input → Prop} {modes : List Mode}

/-- A parser reads the same in front of more input, if what it leaves satisfies `ends`. -/
def Local (ends : Input → Prop) (p : Parser α) : Prop :=
  ∀ ⦃s a rest⦄, ends rest → p s = .ok (a, rest) → ∀ x, p (s ++ x) = .ok (a, rest ++ x)

/-- A parser that goes on is local if its halves are. -/
theorem Local.bind (hends : Ahead ends modes) {p : Parser α} {f : α → Parser β} (hp : p.Local ends)
    (hf : ∀ a, (f a).Local ends) (hw : ∀ a, (f a).Within) : (p >>= f).Local ends := by
  intro s b rest hrest h x
  obtain ⟨a, s', h₁, h₂⟩ := bind_eq_ok.1 h
  have hs' := hends.mono hrest ((hw a).rest h₂)
  rw [bind_of_ok (hp hs' h₁ x)]
  exact hf a hrest h₂ x

/-- A parser that answers a value is local. -/
theorem Local.pure (a : α) : (pure a : Parser α).Local ends := by
  intro s b rest _ h x
  obtain ⟨rfl, rfl⟩ := pure_eq_ok.1 h
  rfl

/-- What is made of what a local parser answers is local too. -/
theorem Local.map {p : Parser α} (hp : p.Local ends) (f : α → β) :
    (p >>= fun a => Pure.pure (f a)).Local ends := by
  intro s b rest hrest h x
  obtain ⟨a, s', h₁, h₂⟩ := bind_eq_ok.1 h
  obtain ⟨rfl, rfl⟩ := pure_eq_ok.1 h₂
  rw [bind_of_ok (hp hrest h₁ x)]
  rfl

/-- Rounds are local if each of them is. -/
theorem Local.many (hends : Ahead ends modes) {round : Parser (Option α)} (hr : round.Local ends)
    (hw : round.Within) : (many round).Local ends := by
  intro s as rest hrest h x
  fun_induction Parser.many round s generalizing as rest with
  | case1 | case3 => cases h
  | case2 s r hround =>
    cases h
    exact many_of_none (hr hrest hround x)
  | case4 s a r hround hlt bs stop hmore ih =>
    cases h
    have hr' := hends.mono hrest ((Within.many hw).rest hmore)
    have hlt' : (r ++ x).length < (s ++ x).length := by
      rw [List.length_append, List.length_append]
      omega
    exact many_of_some (hr hr' hround x) hlt' (ih hrest hmore)
  | case5 s a r hround hlt =>
    cases h
    have hlt' : ¬(r ++ x).length < (s ++ x).length := by
      rw [List.length_append, List.length_append]
      omega
    rw [Parser.many, hr hrest hround x]
    exact if_neg hlt'

/-- A parser holds its own end: what satisfies `ends` is there before it, and it reads the same in
front of more input, whatever that is. -/
def Closing (ends : Input → Prop) (p : Parser α) : Prop :=
  ∀ ⦃s a rest⦄, p s = .ok (a, rest) → ends s ∧ ∀ x, p (s ++ x) = .ok (a, rest ++ x)

/-- A parser that goes on holds its end, if the second half does. -/
theorem Closing.bind (hends : Ahead ends modes) {p : Parser α} {f : α → Parser β}
    (hp : p.Local ends) (hw : p.Within) (hf : ∀ a, (f a).Closing ends) :
    (p >>= f).Closing ends := by
  intro s b rest h
  obtain ⟨a, s', h₁, h₂⟩ := bind_eq_ok.1 h
  obtain ⟨hs', hmore⟩ := hf a h₂
  refine ⟨hends.mono hs' (hw.rest h₁), fun x => ?_⟩
  rw [bind_of_ok (hp hs' h₁ x)]
  exact hmore x

/-- What is made of what a parser answers that holds its end does so too. -/
theorem Closing.map {p : Parser α} (hp : p.Closing ends) (f : α → β) :
    (p >>= fun a => Pure.pure (f a)).Closing ends := by
  intro s b rest h
  obtain ⟨a, s', h₁, h₂⟩ := bind_eq_ok.1 h
  obtain ⟨rfl, rfl⟩ := pure_eq_ok.1 h₂
  obtain ⟨hs, hmore⟩ := hp h₁
  refine ⟨hs, fun x => ?_⟩
  rw [bind_of_ok (hmore x)]
  rfl

/-- A parser that holds its own end is local, whatever follows. -/
theorem Closing.isLocal {p : Parser α} (hp : p.Closing ends) (others : Input → Prop) :
    p.Local others := fun _ _ _ _ h x => (hp h).2 x

end Parser

open Stencil.Parser (Within Local Closing)

section Rules

variable {ends : Input → Prop} {modes : List Mode}

/-- A token of one of the modes is local. -/
theorem Terminal.read_local (hends : Ahead ends modes) {t : Terminal} (hmode : t.mode ∈ modes) :
    t.read.Local ends := by
  intro s leaf rest hrest h x
  have hs := hends.mono hrest (t.read_within.rest h)
  obtain ⟨next, taken, hscan, htake, rfl, rfl⟩ := exists_of_read h
  exact Terminal.read_of_scan (hends.scan hmode hs hscan x) (Pattern.take?_append_of_some htake x)

/-- A token of one of the modes holds its own end, if the tokens that fit do. -/
theorem Terminal.read_closing (hends : Ahead ends modes) {t : Terminal} (hmode : t.mode ∈ modes)
    (htext : ∀ {s next taken}, Token.scan t.mode s = .ok next →
      t.pattern.take? next = some taken → ends next.start) : t.read.Closing ends := by
  intro s leaf rest h
  obtain ⟨next, taken, hscan, htake, rfl, rfl⟩ := exists_of_read h
  have hs := hends.mono (htext hscan htake) ⟨next.gap, Token.gap_append_start hscan⟩
  exact ⟨hs, fun x => Terminal.read_of_scan (hends.scan hmode hs hscan x)
    (Pattern.take?_append_of_some htake x)⟩

/-- Looking at a token of one of the modes is local. -/
theorem Look.next_local (hends : Ahead ends modes) {mode : Mode} (hmode : mode ∈ modes)
    (pattern : Pattern) : (Look.next mode pattern).holds.Local ends := by
  intro s found rest hrest h x
  obtain ⟨t, s', hpeek, h⟩ := Parser.bind_eq_ok.1 h
  obtain ⟨hscan, rfl⟩ := Parser.peek_eq_ok.1 hpeek
  obtain ⟨rfl, rfl⟩ := Parser.pure_eq_ok.1 h
  rw [Look.holds_of_scan (hends.scan hmode hrest hscan x), Pattern.take?_append, Option.isSome_map]

end Rules

/-- Looking for a named argument is local inside a value or a statement. -/
theorem Look.named_local : Look.named.holds.Local Closes := by
  intro s found rest hrest h x
  cases h
  rw [Look.holds_named, atNamed_append hrest]

/-! ## Productions -/

/-- Whether what is looked at is a token of a value or a statement. -/
def Look.isCode : Look → Bool
  | next mode _ => mode ∈ Token.codeModes
  | named => true

/-- Looking is local inside a value or a statement. -/
theorem Look.holds_local {look : Look} (h : look.isCode = true) : look.holds.Local Closes := by
  cases look with
  | next mode pattern => exact Look.next_local ahead_closes (by simpa [isCode] using h) pattern
  | named => exact Look.named_local

namespace Part

mutual

/-- Whether a part is read in the modes of values and statements alone. -/
def isCode : Part → Bool
  | token t => t.mode ∈ Token.codeModes
  | .operand _ _ | callee => true
  | node _ _ parts => areCode parts
  | enclosed .. => false
  | choice look yes no => look.isCode && areCode yes && areCode no
  | repeated look parts => look.isCode && areCode parts
  | refuse _ => true

/-- Whether a production is read in the modes of values and statements alone. -/
def areCode : List Part → Bool
  | [] => true
  | p :: ps => p.isCode && areCode ps

end

variable {operand : Extent → Parser Tree} {ends : Input → Prop} {modes : List Mode}

/-- A part that is a token is local, if the token is. -/
theorem read_token_local {t : Terminal} (ht : t.read.Local ends) :
    ((token t).read operand).Local ends := ht.map _

/-- A row of parts is local, if the first part and the row of the others are. -/
theorem readAll_cons_local (hends : Ahead ends modes) (hw : ∀ extent, (operand extent).Within)
    {p : Part} {ps : List Part} (hp : (p.read operand).Local ends)
    (hps : (readAll operand ps).Local ends) : (readAll operand (p :: ps)).Local ends :=
  hp.bind hends (fun _ => hps.map _)
    fun _ => (readAll_within hw ps).bind fun _ => Within.pure _

/-- One part is local in a row too. -/
theorem readAll_singleton_local (hends : Ahead ends modes)
    (hw : ∀ extent, (operand extent).Within) {p : Part} (hp : (p.read operand).Local ends) :
    (readAll operand [p]).Local ends :=
  readAll_cons_local hends hw hp (Local.pure _)

/-- A choice is local, if what is looked at and both rows of parts are. -/
theorem read_choice_local (hends : Ahead ends modes) (hw : ∀ extent, (operand extent).Within)
    {look : Look} {yes no : List Part} (hlook : look.holds.Local ends)
    (hyes : (readAll operand yes).Local ends) (hno : (readAll operand no).Local ends) :
    ((choice look yes no).read operand).Local ends := by
  refine hlook.bind hends (fun found => ?_) fun found => ?_
  · cases found with
    | true => exact hyes
    | false => exact hno
  · cases found with
    | true => exact readAll_within hw yes
    | false => exact readAll_within hw no

/-- Repeated parts are local, if what is looked at and the parts are. -/
theorem read_repeated_local (hends : Ahead ends modes) (hw : ∀ extent, (operand extent).Within)
    {look : Look} {parts : List Part} (hlook : look.holds.Local ends)
    (hparts : (readAll operand parts).Local ends) :
    ((repeated look parts).read operand).Local ends := by
  have hwithin : ∀ found : Bool, (if found = true then
      (readAll operand parts >>= fun ts => pure (some ts)) else pure none).Within := by
    intro found
    cases found with
    | true => exact (readAll_within hw parts).bind fun _ => Within.pure _
    | false => exact Within.pure _
  rw [read_repeated]
  refine Local.map (Local.many hends ?_ (look.holds_within.bind hwithin)) _
  refine hlook.bind hends (fun found => ?_) hwithin
  cases found with
  | true => exact hparts.map _
  | false => exact Local.pure _

/-- A part that is a token holds its own end, if the token does. -/
theorem read_token_closing {t : Terminal} (ht : t.read.Closing ends) :
    ((token t).read operand).Closing ends := ht.map _

/-- A choice holds its own end, if what is looked at is local and both rows of parts hold theirs. -/
theorem read_choice_closing (hends : Ahead ends modes) {look : Look} {yes no : List Part}
    (hlook : look.holds.Local ends) (hyes : (readAll operand yes).Closing ends)
    (hno : (readAll operand no).Closing ends) :
    ((choice look yes no).read operand).Closing ends := by
  refine Closing.bind hends hlook look.holds_within fun found => ?_
  cases found with
  | true => exact hyes
  | false => exact hno

/-- One part holds its own end in a row too. -/
theorem readAll_singleton_closing {p : Part} (hp : (p.read operand).Closing ends) :
    (readAll operand [p]).Closing ends := by
  intro s ts rest h
  obtain ⟨hs, hmore⟩ := hp (read_of_readAll_singleton h)
  exact ⟨hs, fun x => readAll_singleton (hmore x)⟩

/-- A row of parts holds its own end, if the first part is local and the row of the others holds its
end. -/
theorem readAll_cons_closing (hends : Ahead ends modes) (hw : ∀ extent, (operand extent).Within)
    {p : Part} {ps : List Part} (hp : (p.read operand).Local ends)
    (hps : (readAll operand ps).Closing ends) : (readAll operand (p :: ps)).Closing ends :=
  Closing.bind hends hp (read_within hw p) fun _ => hps.map _

mutual

/-- A part is local inside a value or a statement, if operands are. -/
theorem read_local (hw : ∀ extent, (operand extent).Within)
    (ho : ∀ extent, (operand extent).Local Closes) :
    ∀ p : Part, p.isCode = true → (p.read operand).Local Closes
  | token t, hp => by
    have hmode : t.mode ∈ Token.codeModes := by simpa [isCode] using hp
    exact read_token_local (Terminal.read_local ahead_closes hmode)
  | .operand _ extent, _ => (ho extent).map _
  | callee, _ => (ho .whole).map _
  | node _ _ parts, hp => (readAll_local hw ho parts hp).map _
  | enclosed .., hp => by cases hp
  | choice look yes no, hp => by
    simp only [isCode, Bool.and_eq_true] at hp
    obtain ⟨⟨hlook, hyes⟩, hno⟩ := hp
    exact read_choice_local ahead_closes hw (Look.holds_local hlook) (readAll_local hw ho yes hyes)
      (readAll_local hw ho no hno)
  | repeated look parts, hp => by
    simp only [isCode, Bool.and_eq_true] at hp
    exact read_repeated_local ahead_closes hw (Look.holds_local hp.1)
      (readAll_local hw ho parts hp.2)
  | refuse cause, _ => by
    intro s ts rest _ h
    obtain ⟨_, _, _, h⟩ := Parser.bind_eq_ok.1 h
    cases h

/-- A production is local inside a value or a statement, if operands are. -/
theorem readAll_local (hw : ∀ extent, (operand extent).Within)
    (ho : ∀ extent, (operand extent).Local Closes) :
    ∀ ps : List Part, areCode ps = true → (readAll operand ps).Local Closes
  | [], _ => Local.pure _
  | p :: ps, hps => by
    simp only [areCode, Bool.and_eq_true] at hps
    exact readAll_cons_local ahead_closes hw (read_local hw ho p hps.1)
      (readAll_local hw ho ps hps.2)

end

/-- Parts of a value or a statement and a last part that holds its own end do so together. -/
theorem readAll_closing (hw : ∀ extent, (operand extent).Within)
    (ho : ∀ extent, (operand extent).Local Closes) {last : Part}
    (hlast : (last.read operand).Closing Closes) :
    ∀ ps : List Part, areCode ps = true → (readAll operand (ps ++ [last])).Closing Closes
  | [], _ => readAll_singleton_closing hlast
  | p :: ps, hps => by
    simp only [areCode, Bool.and_eq_true] at hps
    exact readAll_cons_closing ahead_closes hw (read_local hw ho p hps.1)
      (readAll_closing hw ho hlast ps hps.2)

/-- A node that an opening token begins is that token and the parts after it. -/
theorem exists_of_read_enclosed {field : Option Field} {kind : Kind} {opening : Terminal}
    {parts : List Part} {s rest : Input} {ts : List Tree}
    (h : (enclosed field kind opening parts).read operand s = .ok (ts, rest)) :
    ∃ first s' more, opening.read s = .ok (first, s') ∧
      readAll operand parts s' = .ok (more, rest) ∧ ts = [.node field kind (first :: more)] := by
  rw [read] at h
  obtain ⟨next, s₁, hpeek, h⟩ := Parser.bind_eq_ok.1 h
  obtain ⟨-, rfl⟩ := Parser.peek_eq_ok.1 hpeek
  obtain ⟨first, s₂, hfirst, h⟩ := Parser.bind_eq_ok.1 h
  obtain ⟨more, s₃, hmore, h⟩ := Parser.bind_eq_ok.1 h
  obtain ⟨rfl, rfl⟩ := Parser.pure_eq_ok.1 h
  exact ⟨first, s₂, more, hfirst, Parser.inside_eq_ok.1 hmore, rfl⟩

/-- A node between an opening token and what holds the end is local as the opening token is, and it
holds the end of a value or a statement. -/
theorem enclosed_local (hends : Ahead ends modes) {field : Option Field} {kind : Kind}
    {opening : Terminal} {parts : List Part}
    (hopening : opening.read.Local ends) (hparts : (readAll operand parts).Closing Closes)
    (hw : (readAll operand parts).Within) :
    ((enclosed field kind opening parts).read operand).Local ends ∧
      ∀ ⦃s ts rest⦄, (enclosed field kind opening parts).read operand s = .ok (ts, rest) →
        Closes s := by
  constructor
  · intro s ts rest hrest h x
    obtain ⟨first, s', more, hfirst, hmore, rfl⟩ := exists_of_read_enclosed h
    have hs' := hends.mono hrest (hw.rest hmore)
    exact read_enclosed (hopening hs' hfirst x) ((hparts hmore).2 x)
  · intro s ts rest h
    obtain ⟨first, s', more, hfirst, hmore, rfl⟩ := exists_of_read_enclosed h
    exact (hparts hmore).1.mono (opening.read_within.rest hfirst)

end Part

/-! ## Expressions -/

/-- The parts of a primary are read as code. -/
theorem Primary.areCode_of_of? {t : Token} {kind : Kind} {parts : List Part}
    (h : Primary.of? t = some (.node kind parts)) : Part.areCode parts = true := by
  rcases of?_eq_node h with h | h | ⟨h, -⟩
  all_goals
    cases h
    rfl

/-- The parts of a tail are read as code. -/
theorem Tail.areCode_of_of? {t : Token} {tail : Tail Part} (h : Tail.of? t = some tail) :
    Part.areCode tail.more = true := by
  rcases of?_eq_some h with ⟨rfl, -⟩ | ⟨rfl, -⟩ | ⟨rfl, -⟩ | ⟨rfl, -⟩ | ⟨rfl, -⟩ <;> rfl

section Expressions

variable {operand : Extent → Parser Tree}

/-- A primary is local, if operands are. -/
theorem Primary.read_local (hw : ∀ extent, (operand extent).Within)
    (ho : ∀ extent, (operand extent).Local Closes) (hwithin : (Primary.read operand).Within) :
    (Primary.read operand).Local Closes := by
  intro s t rest hrest h x
  have hs := hrest.mono (hwithin.rest h)
  have hscan : ∀ {next}, Token.scan .operand s = .ok next →
      Token.scan .operand (s ++ x) = .ok (next.append x) := fun h =>
    ahead_closes.scan (by decide) hs h x
  have hof : ∀ next : Token, of? (next.append x) = of? next := fun _ => rfl
  cases read_eq_ok.1 h with
  | leaf hnext hform => exact read_leaf (hscan hnext) ((hof _).trans hform)
  | node hnext hform hparts =>
    have hcode := areCode_of_of? hform
    exact read_node (hscan hnext) ((hof _).trans hform)
      (Part.readAll_local hw ho _ hcode hrest hparts x)

/-- A tail is local, if operands are. -/
theorem Tail.read_local (extent : Extent) (hw : ∀ extent, (operand extent).Within)
    (ho : ∀ extent, (operand extent).Local Closes) : (Tail.read operand extent).Local Closes := by
  intro s tail rest hrest h x
  have hs := hrest.mono ((Tail.read_within extent hw).rest h)
  have hmode : mode extent ∈ Token.codeModes := by cases extent <;> decide
  have hscan : ∀ {next}, Token.scan (mode extent) s = .ok next →
      Token.scan (mode extent) (s ++ x) = .ok (next.append x) := fun h =>
    ahead_closes.scan hmode hs h x
  have hsame : ∀ next : Token, next? extent (next.append x) = next? extent next := fun _ => rfl
  cases read_eq_ok.1 h with
  | none hnext hnone => exact read_none (hscan hnext) ((hsame _).trans hnone)
  | some hnext hform hparts =>
    have hcode := areCode_of_of? (of?_of_next? hform).2
    exact read_eq_ok.2 (.some (hscan hnext) ((hsame _).trans hform)
      (Part.readAll_local hw ho _ hcode hrest hparts x))

end Expressions

/-- An expression is local. -/
theorem expression_local (depth : Nat) (extent : Extent) :
    (expression depth extent).Local Closes := by
  induction depth generalizing extent with
  | zero => exact fun s t rest _ h => by cases h
  | succ depth ih =>
    have hw := expression_within depth
    have hhead := Primary.read_within (fun _ _ _ _ h => expression_append depth h) hw
    have htail := Tail.read_within extent hw
    refine (Primary.read_local hw ih hhead).bind ahead_closes (fun _ => ?_) fun _ => ?_
    · exact (Local.many ahead_closes (Tail.read_local extent hw ih) htail).map _
    · exact (Within.many htail).bind fun _ => Within.pure _

end Stencil
