import Mathlib.Data.Nat.Digits.Defs
import Stencil.Proofs.Canonical
import Stencil.Proofs.Literals
import Stencil.Proofs.Numerals

/-!
# The numbers of a template

A text is read as an integer or a float if and only if it is written as one
(`Token.scan_operand_iff`), and so are the numbers of a template. The value of an integer is what
its digits write by their places (`Numeral.intValue_eq_valueOf`). A float is a decimal number once
its underscores are removed, in the grammar that readers of decimal numbers share
(`Numeral.strips_floats`). The main statement is `Template.parse_numerals`.
-/

namespace Stencil

open scoped Computability

/-! ## Tokens -/

namespace Token

/-- Where an operand may stand, a number is read if one begins. -/
theorem scanCode_of_starts {s : Input} {t : Token} (h : Numeral.starts s = true)
    (hscan : Numeral.scan? s = some t) : scanCode true s = .ok t := by
  cases s with
  | nil => cases h
  | cons c s =>
    have heq := scanCode.eq_3 true c s (by
      -- The hyphen that ends a statement begins no number.
      rintro rest rfl rfl
      cases h)
    rw [heq, if_pos (by simp [h]), hscan]

/-- A token of code that is a number is read as one. -/
theorem scan?_of_scanCode {operand : Bool} {s : Input} {t : Token}
    (h : scanCode operand s = .ok t) (hkind : t.kind = .integer ∨ t.kind = .float) :
    Numeral.scan? s = some t := by
  cases codeToken_of_scanCode h with
  | number hscan => exact hscan
  | atEnd => simp [atEnd] at hkind
  | trim | quoted | word => simp at hkind
  | symbol hmem =>
    have hsymbols : ∀ symbol ∈ symbols, ¬(symbol.2 = .integer ∨ symbol.2 = .float) := by decide
    exact absurd hkind (hsymbols _ hmem)

/-- A token that is a number is one of its kind. -/
theorem Spells.mem_numbers {kind : TokenKind} {text : List Char} (h : Spells kind text)
    (hkind : kind = .integer ∨ kind = .float) : text ∈ Numeral.numbers kind := by
  rcases h.exists_scan (.inr hkind) with ⟨operand, s, t, hscan, rfl, rfl⟩ | ⟨rfl, -⟩
  · exact Numeral.mem_numbers_iff.2 (Numeral.exists_parts (scan?_of_scanCode hscan hkind))
  · rcases hkind with hkind | hkind <;> cases hkind

/-- Before a space, a text is read as a number of a kind if and only if it is one. -/
theorem scan_operand_iff {kind : TokenKind} (hkind : kind = .integer ∨ kind = .float)
    (w : List Char) :
    scan .operand (w ++ [' ']) = .ok ⟨kind, [], w, [' ']⟩ ↔ w ∈ Numeral.numbers kind := by
  constructor
  · intro h
    exact Spells.mem_numbers ⟨.operand, _, _, h, rfl, rfl⟩ hkind
  · intro h
    obtain ⟨sg, whole, frac, power, hparts, hw, rfl⟩ := Numeral.mem_numbers_iff.1 h
    have hscan := scanCode_of_starts hparts.starts_eq_true hparts.scan?_eq_some
    rw [← hw] at hscan
    have hne : w ≠ [] := by
      rw [hw]
      rcases hparts.nonempty with hsome | hsome <;> simp [hsome]
    exact afterBlanks_gap (b := []) nofun (scanCode_blank (c := ' ') (x := []) rfl hne hscan)

end Token

/-! ## Values -/

namespace Numeral

/-- The number that the digits of some text write, with the sign before them. -/
def valueOf (text : List Char) : Int :=
  let ds := (text.filter Char.isDigit).map fun c => c.toNat - '0'.toNat
  let n : Nat := Nat.ofDigits 10 ds.reverse
  if text.head? = some '-' then -(n : Int) else n

/-- Without underscores only the digits of a group are left. -/
theorem More.filter_ne {w : List Char} (h : More w) :
    w.filter (· ≠ '_') = w.filter Char.isDigit := by
  have hne : ∀ {c : Char}, c.isDigit = true → c ≠ '_' := by
    rintro c hc rfl
    cases hc
  induction h with
  | nil => rfl
  | underscore => rfl
  | digit hc _ ih => simpa [hc, hne hc] using ih
  | separated hc _ ih => simpa [hc, hne hc] using ih

/-- The number that some digits write, by their places. -/
theorem natValue_eq_ofDigits (ds : List Char) :
    Decimal.natValue ds = Nat.ofDigits 10 (ds.map fun c => c.toNat - '0'.toNat).reverse := by
  rw [Nat.ofDigits_eq_foldr, List.foldr_reverse, List.foldl_map, Decimal.natValue]
  simp only [Nat.cast_id, Nat.add_comm]

/-- The value of an integer is what its digits write. -/
theorem intValue_eq_valueOf {w : List Char} (h : w ∈ integers) :
    Decimal.intValue (w.filter (· ≠ '_')) = valueOf w := by
  obtain ⟨sg, hsign, ds, hds, rfl⟩ := Language.mem_mul.1 h
  obtain ⟨c, more, hc, hmore, rfl⟩ := mem_groups_iff.1 hds
  have hdigits : (c :: more).filter (· ≠ '_') = (c :: more).filter Char.isDigit :=
    (More.digit hc hmore).filter_ne
  have hsigned : ∀ d, d ∈ ['+', '-'] → c ≠ d := by
    rintro d hd rfl
    simp only [List.mem_cons, List.not_mem_nil, or_false] at hd
    rcases hd with rfl | rfl <;> cases hc
  have hunsigned : Decimal.takeSign ((c :: more).filter Char.isDigit) =
      (false, (c :: more).filter Char.isDigit) := by
    rw [List.filter_cons_of_pos hc]
    unfold Decimal.takeSign
    split
    · rename_i heq
      exact absurd (List.cons_eq_cons.1 heq).1 (hsigned '-' (by simp))
    · rename_i heq
      exact absurd (List.cons_eq_cons.1 heq).1 (hsigned '+' (by simp))
    · rfl
  rw [valueOf, ← natValue_eq_ofDigits, List.filter_append, List.filter_append, hdigits]
  rcases mem_optional.1 hsign with rfl | hsign
  · have hhead : ((c :: more) : List Char).head? ≠ some '-' := by simpa using hsigned '-' (by simp)
    rw [List.filter_nil, List.filter_nil, List.nil_append, List.nil_append, Decimal.intValue,
      hunsigned, if_neg hhead]
    rfl
  · rcases mem_signs.1 hsign with rfl | rfl <;> rfl

/-! ### Floats without underscores -/

/-- What is left of one language without the underscores is in another. -/
def Strips (l m : Language Char) : Prop := ∀ w ∈ l, w.filter (· ≠ '_') ∈ m

section Strips

variable {l l' m m' : Language Char}

/-- Without underscores, texts one after another are texts one after another. -/
theorem Strips.mul (hl : Strips l l') (hm : Strips m m') : Strips (l * m) (l' * m') := by
  rintro _ ⟨a, ha, b, hb, rfl⟩
  rw [List.filter_append]
  exact Language.append_mem_mul (hl a ha) (hm b hb)

/-- Without underscores, what may be missing may be missing. -/
theorem Strips.optional (hl : Strips l l') : Strips (optional l) (optional l') := by
  rintro w (rfl | hw)
  · exact .inl rfl
  · exact .inr (hl w hw)

/-- Without underscores, repeated texts are repeated texts. -/
theorem Strips.kstar (hl : Strips l l') : Strips l∗ l'∗ := by
  rintro _ ⟨rounds, rfl, hrounds⟩
  rw [List.filter_flatten]
  refine Language.join_mem_kstar fun w hw => ?_
  obtain ⟨round, hround, rfl⟩ := List.mem_map.1 hw
  exact hl round (hrounds round hround)

/-- A text without underscores is left as it is. -/
theorem Strips.refl (h : ∀ w ∈ l, '_' ∉ w) : Strips l l := by
  intro w hw
  have hne : ∀ c ∈ w, decide (c ≠ '_') = true := by
    intro c hc
    refine decide_eq_true ?_
    rintro rfl
    exact h w hw hc
  rwa [List.filter_eq_self.2 hne]

end Strips

/-- Digits, one at least. -/
def runs : Language Char := digit * digit∗

/-- Decimal numbers: digits with a point among them, before them or after them, or without one, and
perhaps a sign before them and an exponent after them. -/
def decimals : Language Char :=
  optional signs * ((runs + runs * {['.']} * digit∗ + digit∗ * {['.']} * runs) *
    optional (exponentMarks * optional signs * runs))

/-- A group of digits is digits without its underscores. -/
theorem strips_groups : Strips groups runs := by
  have hdigit : Strips digit digit := .refl (by
    rintro _ ⟨c, hc, rfl⟩ hmem
    obtain rfl := List.mem_singleton.1 hmem
    cases hc)
  have hnone : Strips (optional {['_']}) 1 := by
    rintro _ (rfl | rfl) <;> exact rfl
  have hstrips := (hdigit.mul (hnone.mul hdigit).kstar).mul hnone
  rwa [one_mul, mul_one] at hstrips

/-- A group of digits that may be missing is any number of digits. -/
theorem strips_optional_groups : Strips (optional groups) digit∗ := by
  have hstrips := strips_groups.optional
  rwa [optional.eq_1 runs, runs, Language.one_add_self_mul_kstar_eq_kstar] at hstrips

/-- Without underscores, a float is a decimal number. -/
theorem strips_floats : Strips floats decimals := by
  have hsigns : Strips signs signs := .refl (by rintro _ (rfl | rfl) <;> simp)
  have hmarks : Strips exponentMarks exponentMarks := .refl (by rintro _ (rfl | rfl) <;> simp)
  have hpoint : Strips {['.']} {['.']} := .refl (by rintro _ rfl; simp)
  have hexponents : Strips exponents (exponentMarks * optional signs * runs) :=
    (hmarks.mul hsigns.optional).mul strips_groups
  refine hsigns.optional.mul ?_
  rintro w ((hw | hw) | hw)
  · obtain ⟨a, ha, b, hb, hw⟩ :=
      ((strips_groups.mul hpoint).mul strips_optional_groups).mul hexponents.optional w hw
    exact ⟨a, .inl (.inr ha), b, hb, hw⟩
  · -- No digits are before the point.
    obtain ⟨a, ha, b, hb, hw⟩ := (hpoint.mul strips_groups).mul hexponents.optional w hw
    obtain ⟨point, hpoint, ds, hds, rfl⟩ := ha
    exact ⟨_, .inr ⟨point, ⟨[], Language.nil_mem_kstar _, point, hpoint, rfl⟩, ds, hds, rfl⟩, b,
      hb, hw⟩
  · obtain ⟨a, ha, b, hb, hw⟩ := strips_groups.mul hexponents w hw
    exact ⟨a, .inl (.inl ha), b, .inr hb, hw⟩

end Numeral

/-! ## Templates -/

namespace Template

/-- A text before a space is read as an integer or a float if and only if it is written as one. The
value of an integer of a template is the number that its digits write, if that fits 64 bits with a
sign. The value of a float is read by every reader of decimal numbers, once its underscores are
removed. -/
theorem parse_numerals (read : List Char → Option DoubleBits)
    (hread : ∀ w ∈ Numeral.decimals, (read w).isSome = true) :
    (∀ w, (Token.scan .operand (w ++ [' ']) = .ok ⟨.integer, [], w, [' ']⟩ ↔ w ∈ Numeral.integers) ∧
      (Token.scan .operand (w ++ [' ']) = .ok ⟨.float, [], w, [' ']⟩ ↔ w ∈ Numeral.floats)) ∧
    ∀ options source, ∀ n ∈ (parse options source).tree.root.descendants,
      (n.kind = .integer → Between source n.start n.stop n.text ∧
        let v := Numeral.valueOf n.text
        n.view? = some (.integer (if -2 ^ 63 ≤ v ∧ v ≤ 2 ^ 63 - 1 then some v else none))) ∧
      (n.kind = .float → Between source n.start n.stop n.text ∧
        (read (n.text.filter (· ≠ '_'))).isSome = true ∧
        n.view? = some (.float (Node.floatValue n.text))) := by
  refine ⟨fun w => ⟨Token.scan_operand_iff (.inl rfl) w, Token.scan_operand_iff (.inr rfl) w⟩,
    fun options source n hn => ⟨fun hkind => ?_, fun hkind => ?_⟩⟩
  · have hliteral : n.kind.literal? = some .integer := by rw [hkind]; rfl
    obtain ⟨hbetween, hspells⟩ := parse_spelled options source hn hliteral
    refine ⟨hbetween, ?_⟩
    have hvalue := Numeral.intValue_eq_valueOf (hspells.mem_numbers (.inl rfl))
    have hfits : Node.integerValue n.text =
        let v := Numeral.valueOf n.text
        if -2 ^ 63 ≤ v ∧ v ≤ 2 ^ 63 - 1 then some v else none := by
      rw [Node.integerValue, hvalue]
      have hbound : ∀ v : Int, (-0x8000000000000000 ≤ v ∧ v < 0x8000000000000000) ↔
          -2 ^ 63 ≤ v ∧ v ≤ 2 ^ 63 - 1 := by omega
      simp only [hbound]
    rw [Node.view?, hkind]
    exact congrArg (fun v => some (View.integer v)) hfits
  · have hliteral : n.kind.literal? = some .float := by rw [hkind]; rfl
    obtain ⟨hbetween, hspells⟩ := parse_spelled options source hn hliteral
    refine ⟨hbetween, hread _ (Numeral.strips_floats _ (hspells.mem_numbers (.inr rfl))), ?_⟩
    rw [Node.view?, hkind]

/-- A quotient of an integer with an underscore and a float without digits before its point. -/
theorem parse_numerals_quotient :
    let read : List Char → Option DoubleBits := fun w => some (.ofDecimal (.ofText w))
    let options : Options := ⟨false, 2, by decide⟩
    let source : Input := ['{', '{', '1', '_', '0', '/', '.', '5', '}', '}']
    (∀ w ∈ Numeral.decimals, (read w).isSome = true) ∧
      ∃ m ∈ (parse options source).tree.root.descendants,
        ∃ n ∈ (parse options source).tree.root.descendants,
          m.kind = .integer ∧ m.text = ['1', '_', '0'] ∧ m.view? = some (.integer (some 10)) ∧
          n.kind = .float ∧ n.text = ['.', '5'] ∧ Between source n.start n.stop n.text ∧
            (read (n.text.filter (· ≠ '_'))).isSome = true ∧
            n.view? = some (.float (Node.floatValue n.text)) := by
  intro read options source
  have hread : ∀ w ∈ Numeral.decimals, (read w).isSome = true := fun _ _ => rfl
  have htree : (parse options source).tree = .node none .sourceFile
      [.node none .value
        [.leaf (some .openDelimiter) .delimiter [] ['{', '{'],
          .node (some .expression) .binaryOperation
            [.leaf (some .left) .integer [] ['1', '_', '0'],
              .leaf (some .operator) .operator [] ['/'],
              .leaf (some .right) .float [] ['.', '5']],
          .leaf (some .closeDelimiter) .delimiter [] ['}', '}']]] := by
    unfold parse ofSteps
    dsimp only
    cbv
  have hliterals : ∃ m ∈ (parse options source).tree.root.descendants,
      ∃ n ∈ (parse options source).tree.root.descendants,
        m.kind = .integer ∧ m.text = ['1', '_', '0'] ∧ n.kind = .float ∧ n.text = ['.', '5'] := by
    rw [htree]
    -- Behind the root, the value, its delimiter and the operation.
    exact ⟨_, .tail _ (.tail _ (.tail _ (.tail _ (.head _)))), _,
      .tail _ (.tail _ (.tail _ (.tail _ (.tail _ (.tail _ (.head _)))))), rfl, rfl, rfl, rfl⟩
  obtain ⟨m, hm, n, hn, hinteger, hten, hfloat, hhalf⟩ := hliterals
  have hnodes := (parse_numerals read hread).2 options source
  obtain ⟨-, hview⟩ := (hnodes m hm).1 hinteger
  rw [hten] at hview
  exact ⟨hread, m, hm, n, hn, hinteger, hten, hview, hfloat, hhalf, (hnodes n hn).2 hfloat⟩

end Template

end Stencil
