import Stencil.Token

/-!
# Numerals

The written form of numbers. Digits may be separated by single underscores, and one underscore may
follow them. A number is an integer, or a float when it has a point or an exponent; a point needs
digits on one of its sides, an exponent needs digits after it, and no character of a word may
follow a number.
-/

namespace Stencil.Numeral

/-- Further digits of a group that has begun: digits and underscores that no underscore follows.
A double underscore ends the group before its first character. -/
def moreDigits : Input → List Char × Input
  | [] => ([], [])
  | c :: s =>
    if c.isDigit || (c = '_' && s.head? != some '_') then
      let (ds, rest) := moreDigits s
      (c :: ds, rest)
    else ([], c :: s)

/-- A group of digits, empty where no digit stands. -/
def digits : Input → List Char × Input
  | [] => ([], [])
  | c :: s =>
    if c.isDigit then
      let (ds, rest) := moreDigits s
      (c :: ds, rest)
    else ([], c :: s)

/-- An optional sign. -/
def sign : Input → List Char × Input
  | '+' :: s => (['+'], s)
  | '-' :: s => (['-'], s)
  | s => ([], s)

/-- The point and the digits after it. Without digits on either side the point is not part of the
number; `whole` is the digits before it. -/
def fraction (whole : List Char) : Input → List Char × Input
  | '.' :: s =>
    let (ds, rest) := digits s
    if whole.isEmpty && ds.isEmpty then ([], '.' :: s) else ('.' :: ds, rest)
  | s => ([], s)

/-- An optional exponent, or nothing where its digits are missing. -/
def exponent : Input → Option (List Char × Input)
  | [] => some ([], [])
  | c :: s =>
    if c = 'e' || c = 'E' then
      let (sg, s₁) := sign s
      let (ds, rest) := digits s₁
      if ds.isEmpty then none else some (c :: (sg ++ ds), rest)
    else some ([], c :: s)

/-- The number that begins here, or nothing where it is malformed. -/
def scan? (s : Input) : Option Token :=
  let (sg, s₁) := sign s
  let (whole, s₂) := digits s₁
  let (frac, s₃) := fraction whole s₂
  match exponent s₃ with
  | none => none
  | some (power, rest) =>
    -- A sign alone, or an exponent alone, is no number.
    if (whole.isEmpty && frac.isEmpty) || rest.head?.any isWordChar then none
    else
      let kind := if frac.isEmpty && power.isEmpty then TokenKind.integer else TokenKind.float
      some ⟨kind, [], sg ++ (whole ++ (frac ++ power)), rest⟩

/-- A group of digits and what is left are the input. -/
theorem moreDigits_append (s : Input) : (moreDigits s).1 ++ (moreDigits s).2 = s := by
  induction s with
  | nil => rfl
  | cons c s ih =>
    simp only [moreDigits]
    split
    · simpa using ih
    · rfl

/-- Digits and what is left are the input. -/
theorem digits_append (s : Input) : (digits s).1 ++ (digits s).2 = s := by
  cases s with
  | nil => rfl
  | cons c s =>
    simp only [digits]
    split
    · simpa using moreDigits_append s
    · rfl

/-- The sign and what is left are the input. -/
theorem sign_append (s : Input) : (sign s).1 ++ (sign s).2 = s := by
  unfold sign
  split <;> rfl

/-- The fraction and what is left are the input. -/
theorem fraction_append (whole s : Input) : (fraction whole s).1 ++ (fraction whole s).2 = s := by
  unfold fraction
  split
  · dsimp only
    split
    · rfl
    · simpa using digits_append _
  · rfl

/-- The exponent and what is left are the input. -/
theorem exponent_append {s power rest : Input} (h : exponent s = some (power, rest)) :
    power ++ rest = s := by
  unfold exponent at h
  split at h
  · simp_all
  · split at h
    · dsimp only at h
      split at h
      · simp at h
      · obtain ⟨rfl, rfl⟩ := by simpa using h
        simp [digits_append, sign_append]
    · obtain ⟨rfl, rfl⟩ := by simpa using h
      rfl

/-- A number begins where it is read. -/
theorem scan?_start {s : Input} {t : Token} (h : scan? s = some t) : t.start = s := by
  unfold scan? at h
  dsimp only at h
  split at h
  · simp at h
  · rename_i power rest he
    split at h
    · simp at h
    · obtain rfl := by simpa using h
      simp [Token.start, exponent_append he, fraction_append, digits_append, sign_append]

/-- A number has text: a sign or an exponent alone is none. -/
theorem scan?_ne_nil {s : Input} {t : Token} (h : scan? s = some t) : t.text ≠ [] := by
  unfold scan? at h
  dsimp only at h
  split at h
  · simp at h
  · split at h
    · simp at h
    · rename_i hsome
      obtain rfl := by simpa using h
      intro hnil
      obtain ⟨-, hwhole, hfrac, -⟩ : _ = [] ∧ _ = [] ∧ _ = [] ∧ _ = [] := by simpa using hnil
      exact hsome (by rw [hfrac, hwhole]; rfl)

/-- A number is an integer or a float. -/
theorem scan?_kind {s : Input} {t : Token} (h : scan? s = some t) :
    t.kind = .integer ∨ t.kind = .float := by
  unfold scan? at h
  dsimp only at h
  split at h
  · cases h
  · split at h
    · cases h
    · cases h
      dsimp only
      split
      · exact .inl rfl
      · exact .inr rfl

/-- Whether an unsigned number begins here: a digit, or a point before a digit. -/
def startsUnsigned : Input → Bool
  | '.' :: c :: _ => c.isDigit
  | c :: _ => c.isDigit
  | [] => false

/-- Whether a number begins here, be it signed or not. -/
def starts : Input → Bool
  | '+' :: s => startsUnsigned s
  | '-' :: s => startsUnsigned s
  | s => startsUnsigned s

/-- An unsigned number begins with every digit. -/
theorem startsUnsigned_of_isDigit {c : Char} (hc : c.isDigit = true) (s : Input) :
    startsUnsigned (c :: s) = true := by
  unfold startsUnsigned
  split
  · rename_i heq
    cases heq
    cases hc
  · rename_i heq
    cases heq
    exact hc
  · rename_i heq
    cases heq

/-- A number begins with every digit. -/
theorem starts_of_isDigit {c : Char} (hc : c.isDigit = true) (s : Input) :
    starts (c :: s) = true := by
  unfold starts
  split
  · rename_i heq
    cases heq
    cases hc
  · rename_i heq
    cases heq
    cases hc
  · exact startsUnsigned_of_isDigit hc s

end Stencil.Numeral
