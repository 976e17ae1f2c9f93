import Mathlib.Computability.Language
import Stencil.Token.Numeral

/-!
# The written forms of numbers

Integers and floats, as they are written, are languages (`Numeral.integers`, `Numeral.floats`). A
number is read in four parts, each of which may be missing: a sign, digits, a point with the digits
after it, and an exponent; `Numeral.Parts` says what they have to be. Whatever the input is, what is
read as a number has such parts (`Numeral.exists_parts`), and such parts are read as they are
written (`Numeral.Parts.scan?_eq_some`). Since the texts with these parts are those of the two
languages (`Numeral.mem_numbers_iff`), no more and no less is read as a number.
-/

namespace Stencil

open scoped Computability

namespace Numeral

/-! ## The languages of numbers -/

/-- What may be missing. -/
def optional (l : Language Char) : Language Char := 1 + l

/-- A digit. -/
def digit : Language Char := {w | ∃ c : Char, c.isDigit = true ∧ w = [c]}

/-- Digits with single underscores between them, and perhaps one after them. -/
def groups : Language Char := digit * (optional {['_']} * digit)∗ * optional {['_']}

/-- The signs of numbers. -/
def signs : Language Char := {['+'], ['-']}

/-- The letters before an exponent. -/
def exponentMarks : Language Char := {['e'], ['E']}

/-- The exponents of numbers. -/
def exponents : Language Char := exponentMarks * optional signs * groups

/-- Integers as they are written. -/
def integers : Language Char := optional signs * groups

/-- Floats as they are written: with a point behind digits, with a point before digits, or with an
exponent and no point. -/
def floats : Language Char :=
  optional signs * (groups * {['.']} * optional groups * optional exponents +
    {['.']} * groups * optional exponents + groups * exponents)

/-- What may be missing is missing, or it is there. -/
theorem mem_optional {l : Language Char} {w : List Char} : w ∈ optional l ↔ w = [] ∨ w ∈ l :=
  Iff.rfl

/-- A sign is a plus or a minus. -/
theorem mem_signs {w : List Char} : w ∈ signs ↔ w = ['+'] ∨ w = ['-'] := Iff.rfl

/-- An exponent begins with one of two letters. -/
theorem mem_exponentMarks {w : List Char} : w ∈ exponentMarks ↔ w = ['e'] ∨ w = ['E'] := Iff.rfl

/-- What may come after the first digit of a group. -/
inductive More : List Char → Prop
  | nil : More []
  | underscore : More ['_']
  | digit {c : Char} {w : List Char} (hc : c.isDigit = true) (h : More w) : More (c :: w)
  | separated {c : Char} {w : List Char} (hc : c.isDigit = true) (h : More w) :
    More ('_' :: c :: w)

/-- What may come after the first digit of a group are the digits and underscores of its
language. -/
theorem mem_more_iff {w : List Char} :
    w ∈ (optional {['_']} * digit)∗ * optional {['_']} ↔ More w := by
  constructor
  · rintro ⟨_, ⟨rounds, rfl, hrounds⟩, last, hlast, rfl⟩
    induction rounds with
    | nil =>
      rcases mem_optional.1 hlast with rfl | rfl
      · exact .nil
      · exact .underscore
    | cons round rounds ih =>
      obtain ⟨hround, hrounds⟩ := List.forall_mem_cons.1 hrounds
      have ih := ih hrounds
      obtain ⟨mark, hmark, _, ⟨c, hc, rfl⟩, rfl⟩ := hround
      rcases mem_optional.1 hmark with rfl | rfl
      · exact .digit hc ih
      · exact .separated hc ih
  · intro h
    have hcons : ∀ {round w : List Char}, round ∈ optional {['_']} * digit →
        w ∈ (optional {['_']} * digit)∗ * optional {['_']} →
          round ++ w ∈ (optional {['_']} * digit)∗ * optional {['_']} := by
      rintro round _ hround ⟨_, ⟨rounds, rfl, hrounds⟩, last, hlast, rfl⟩
      exact ⟨_, ⟨round :: rounds, rfl, List.forall_mem_cons.2 ⟨hround, hrounds⟩⟩, last, hlast,
        by simp⟩
    induction h with
    | nil => exact ⟨[], Language.nil_mem_kstar _, [], .inl rfl, rfl⟩
    | underscore => exact ⟨[], Language.nil_mem_kstar _, ['_'], .inr rfl, rfl⟩
    | @digit c w hc _ ih => exact hcons ⟨[], .inl rfl, [c], ⟨c, hc, rfl⟩, rfl⟩ ih
    | @separated c w hc _ ih => exact hcons ⟨['_'], .inr rfl, [c], ⟨c, hc, rfl⟩, rfl⟩ ih

/-- A group of digits begins with a digit. -/
theorem mem_groups_iff {w : List Char} :
    w ∈ groups ↔ ∃ c more, c.isDigit = true ∧ More more ∧ w = c :: more := by
  rw [groups, mul_assoc]
  constructor
  · rintro ⟨_, ⟨c, hc, rfl⟩, more, hmore, rfl⟩
    exact ⟨c, more, hc, mem_more_iff.1 hmore, rfl⟩
  · rintro ⟨c, more, hc, hmore, rfl⟩
    exact ⟨[c], ⟨c, hc, rfl⟩, more, mem_more_iff.2 hmore, rfl⟩

/-- A group of digits is not empty. -/
theorem ne_nil_of_mem_groups {w : List Char} (h : w ∈ groups) : w ≠ [] := by
  obtain ⟨c, more, -, -, rfl⟩ := mem_groups_iff.1 h
  exact List.cons_ne_nil c more

/-- An exponent begins with a letter. -/
theorem exists_of_mem_exponents {w : List Char} (h : w ∈ exponents) :
    ∃ c more, (c = 'e' ∨ c = 'E') ∧ w = c :: more := by
  obtain ⟨_, ⟨_, hmark, sg, -, rfl⟩, ds, -, rfl⟩ := h
  rcases mem_exponentMarks.1 hmark with rfl | rfl
  · exact ⟨'e', sg ++ ds, .inl rfl, rfl⟩
  · exact ⟨'E', sg ++ ds, .inr rfl, rfl⟩

/-- An exponent is not empty. -/
theorem ne_nil_of_mem_exponents {w : List Char} (h : w ∈ exponents) : w ≠ [] := by
  obtain ⟨c, more, -, rfl⟩ := exists_of_mem_exponents h
  exact List.cons_ne_nil c more

/-! ## Groups of digits -/

/-- No further digits come first. -/
def EndsGroup (s : Input) : Prop := ∀ c ∈ s.head?, c.isDigit = false ∧ c ≠ '_'

/-- Further digits are read as far as they are written. -/
theorem more_moreDigits (s : Input) : More (moreDigits s).1 := by
  -- Without an underscore before them, they begin with a digit or there are none.
  suffices h : More (moreDigits s).1 ∧ (s.head? ≠ some '_' → (moreDigits s).1 = [] ∨
      ∃ c w, (moreDigits s).1 = c :: w ∧ c.isDigit = true ∧ More w) from h.1
  fun_induction moreDigits s with
  | case1 => exact ⟨.nil, fun _ => .inl rfl⟩
  | case2 c s hc ds rest heq ih =>
    rw [heq] at ih
    by_cases hdigit : c.isDigit = true
    · exact ⟨.digit hdigit ih.1, fun _ => .inr ⟨c, ds, rfl, hdigit, ih.1⟩⟩
    · obtain ⟨rfl, hnext⟩ : c = '_' ∧ s.head? ≠ some '_' := by simpa [hdigit] using hc
      refine ⟨?_, fun h => absurd rfl h⟩
      rcases ih.2 hnext with rfl | ⟨d, w, rfl, hd, hw⟩
      · exact .underscore
      · exact .separated hd hw
  | case3 => exact ⟨.nil, fun _ => .inl rfl⟩

/-- Further digits are read if they are written. -/
theorem More.moreDigits {w : List Char} (h : More w) {s : Input} (hs : EndsGroup s) :
    moreDigits (w ++ s) = (w, s) := by
  have hstop : Numeral.moreDigits s = ([], s) := by
    cases s with
    | nil => rfl
    | cons c s =>
      obtain ⟨hdigit, hunderscore⟩ := hs c rfl
      simp [Numeral.moreDigits, hdigit, hunderscore]
  induction h with
  | nil => exact hstop
  | underscore =>
    have hhead : s.head? ≠ some '_' := fun h => (hs '_' h).2 rfl
    simp [Numeral.moreDigits, hhead, hstop]
  | digit hc _ ih => simp [Numeral.moreDigits, hc, ih]
  | @separated c w hc _ ih =>
    have hunderscore : c ≠ '_' := by
      rintro rfl
      cases hc
    simp [Numeral.moreDigits, hc, hunderscore, ih]

/-- What is read as digits is a group of them, or nothing. -/
theorem digits_mem (s : Input) : (digits s).1 ∈ optional groups := by
  cases s with
  | nil => exact .inl rfl
  | cons c s =>
    by_cases hc : c.isDigit = true
    · rw [digits, if_pos hc]
      exact .inr (mem_groups_iff.2 ⟨c, _, hc, more_moreDigits s, rfl⟩)
    · rw [digits, if_neg hc]
      exact .inl rfl

/-- A group of digits is read, if one is written. -/
theorem digits_of_mem {w : List Char} (h : w ∈ optional groups) {s : Input} (hs : EndsGroup s) :
    digits (w ++ s) = (w, s) := by
  rcases mem_optional.1 h with rfl | h
  · cases s with
    | nil => rfl
    | cons c s => simp [digits, (hs c rfl).1]
  · obtain ⟨c, more, hc, hmore, rfl⟩ := mem_groups_iff.1 h
    simp [digits, hc, hmore.moreDigits hs]

/-! ## Signs, fractions and exponents -/

/-- What is read as a sign is one, or nothing. -/
theorem sign_mem (s : Input) : (sign s).1 ∈ optional signs := by
  unfold sign
  split
  · exact .inr (.inl rfl)
  · exact .inr (.inr rfl)
  · exact .inl rfl

/-- A sign is read, if one is written. -/
theorem sign_of_mem {w : List Char} (h : w ∈ optional signs) {s : Input}
    (hs : s.head? ≠ some '+' ∧ s.head? ≠ some '-') : sign (w ++ s) = (w, s) := by
  rcases mem_optional.1 h with rfl | h
  · rw [List.nil_append]
    unfold sign
    split
    · exact absurd rfl hs.1
    · exact absurd rfl hs.2
    · rfl
  · rcases mem_signs.1 h with rfl | rfl <;> rfl

/-- A point with the digits after it. -/
def fractions : Language Char := {['.']} * optional groups

/-- What is read as a fraction is one, or nothing; and the point stands beside digits. -/
theorem fraction_mem (whole s : Input) :
    (fraction whole s).1 ∈ optional fractions ∧ ((fraction whole s).1 = ['.'] → whole ≠ []) := by
  unfold fraction
  split
  · rename_i s
    dsimp only
    split
    · exact ⟨.inl rfl, nofun⟩
    · rename_i hbeside
      refine ⟨.inr ⟨['.'], rfl, _, digits_mem s, rfl⟩, fun h => ?_⟩
      have hnone : (digits s).1 = [] := (List.cons_eq_cons.1 h).2
      simpa [hnone] using hbeside
  · exact ⟨.inl rfl, nofun⟩

/-- A fraction is read, if one is written. -/
theorem fraction_of_mem {whole w : List Char} (h : w ∈ optional fractions)
    (hbeside : w = ['.'] → whole ≠ []) {s : Input} (hs : EndsGroup s)
    (hpoint : s.head? ≠ some '.') :
    fraction whole (w ++ s) = (w, s) := by
  rcases mem_optional.1 h with rfl | ⟨_, rfl, ds, hds, rfl⟩
  · rw [List.nil_append]
    unfold fraction
    split
    · exact absurd rfl hpoint
    · rfl
  · have hsome : ¬(whole.isEmpty && ds.isEmpty) = true := by
      intro hnone
      obtain ⟨hwhole, hnil⟩ : whole = [] ∧ ds = [] := by simpa using hnone
      subst hnil
      exact hbeside rfl hwhole
    simp only [List.cons_append, List.nil_append, fraction, digits_of_mem hds hs]
    rw [if_neg hsome]

/-- What is read as an exponent is one, or nothing. -/
theorem exponent_mem {s power rest : Input} (h : exponent s = some (power, rest)) :
    power ∈ optional exponents := by
  unfold exponent at h
  split at h
  · cases h
    exact .inl rfl
  · rename_i c s
    split at h
    · rename_i hc
      dsimp only at h
      split at h
      · cases h
      · rename_i hsome
        cases h
        have hgroup := (mem_optional.1 (digits_mem (sign s).2)).resolve_left (by simpa using hsome)
        have hmark : [c] ∈ exponentMarks := mem_exponentMarks.2 (by simpa using hc)
        exact .inr ⟨_, ⟨[c], hmark, _, sign_mem s, rfl⟩, _, hgroup, rfl⟩
    · cases h
      exact .inl rfl

/-- An exponent is read, if one is written. -/
theorem exponent_of_mem {w : List Char} (h : w ∈ optional exponents) :
    exponent w = some (w, []) := by
  rcases mem_optional.1 h with rfl | ⟨_, ⟨mark, hmark, sg, hsign, rfl⟩, ds, hds, rfl⟩
  · rfl
  · obtain ⟨d, more, hd, -, rfl⟩ := mem_groups_iff.1 hds
    have hhead : (d :: more).head? ≠ some '+' ∧ (d :: more).head? ≠ some '-' := by
      constructor <;>
      · rintro h
        cases h
        cases hd
    have hdigits : digits (d :: more) = (d :: more, []) := by
      have h := digits_of_mem (.inr hds) (s := []) nofun
      rwa [List.append_nil] at h
    rcases mem_exponentMarks.1 hmark with rfl | rfl
    all_goals
      simp [exponent, sign_of_mem hsign hhead, hdigits]

/-! ## Numbers -/

/-- The parts of a number: a sign, digits, a point with the digits after it, and an exponent. -/
structure Parts (sg whole frac power : List Char) : Prop where
  sign_mem : sg ∈ optional signs
  whole_mem : whole ∈ optional groups
  fraction_mem : frac ∈ optional fractions
  exponent_mem : power ∈ optional exponents
  /-- A point stands beside digits. -/
  beside : frac = ['.'] → whole ≠ []
  /-- A sign alone, or an exponent alone, is no number. -/
  nonempty : whole ≠ [] ∨ frac ≠ []

/-- A number with a point or an exponent is a float. -/
def kindOf (frac power : List Char) : TokenKind :=
  if frac.isEmpty && power.isEmpty then .integer else .float

/-- What is read as a number has the parts of one. -/
theorem exists_parts {s : Input} {t : Token} (h : scan? s = some t) :
    ∃ sg whole frac power, Parts sg whole frac power ∧
      t.text = sg ++ (whole ++ (frac ++ power)) ∧ t.kind = kindOf frac power := by
  unfold scan? at h
  dsimp only at h
  split at h
  · cases h
  · rename_i power rest hpower
    split at h
    · cases h
    · rename_i hnumber
      cases h
      obtain ⟨hfraction, hbeside⟩ := fraction_mem (digits (sign s).2).1 (digits (sign s).2).2
      refine ⟨_, _, _, power,
        ⟨sign_mem s, digits_mem _, hfraction, exponent_mem hpower, hbeside, ?_⟩, rfl, rfl⟩
      by_contra hnone
      obtain ⟨hwhole, hfrac⟩ := not_or.1 hnone
      rw [not_not] at hwhole hfrac
      exact hnumber (by rw [hfrac, hwhole]; rfl)

namespace Parts

variable {sg whole frac power : List Char}

/-- No digits come after those of the fraction, and no point. -/
theorem ends_exponent (h : Parts sg whole frac power) :
    EndsGroup power ∧ power.head? ≠ some '.' := by
  rcases mem_optional.1 h.exponent_mem with rfl | hpower
  · exact ⟨nofun, nofun⟩
  · obtain ⟨c, more, hc, rfl⟩ := exists_of_mem_exponents hpower
    have hhead : c.isDigit = false ∧ c ≠ '_' ∧ c ≠ '.' := by rcases hc with rfl | rfl <;> decide
    refine ⟨fun d hd => ?_, by simp [hhead.2.2]⟩
    cases hd
    exact ⟨hhead.1, hhead.2.1⟩

/-- No digits come after those before the point. -/
theorem ends_whole (h : Parts sg whole frac power) : EndsGroup (frac ++ power) := by
  rcases mem_optional.1 h.fraction_mem with rfl | ⟨_, rfl, ds, -, rfl⟩
  · exact h.ends_exponent.1
  · intro c hc
    cases hc
    exact ⟨rfl, by decide⟩

/-- After the sign an unsigned number begins. -/
theorem startsUnsigned_eq_true (h : Parts sg whole frac power) :
    startsUnsigned (whole ++ (frac ++ power)) = true := by
  rcases mem_optional.1 h.whole_mem with rfl | hwhole
  · rcases mem_optional.1 h.fraction_mem with rfl | ⟨_, rfl, ds, hds, rfl⟩
    · exact absurd h.nonempty (by simp)
    · rcases mem_optional.1 hds with rfl | hds
      · exact absurd rfl (h.beside rfl)
      · obtain ⟨c, more, hc, -, rfl⟩ := mem_groups_iff.1 hds
        exact hc
  · obtain ⟨c, more, hc, -, rfl⟩ := mem_groups_iff.1 hwhole
    exact startsUnsigned_of_isDigit hc _

/-- There is one sign at most. -/
theorem head?_ne_sign (h : Parts sg whole frac power) :
    (whole ++ (frac ++ power)).head? ≠ some '+' ∧
      (whole ++ (frac ++ power)).head? ≠ some '-' := by
  have hstarts := h.startsUnsigned_eq_true
  generalize whole ++ (frac ++ power) = s at hstarts
  cases s with
  | nil => exact ⟨nofun, nofun⟩
  | cons c s =>
    constructor <;>
    · intro hhead
      cases hhead
      cases hstarts

/-- Where the parts of a number are, a number begins. -/
theorem starts_eq_true (h : Parts sg whole frac power) :
    starts (sg ++ (whole ++ (frac ++ power))) = true := by
  have hstarts := h.startsUnsigned_eq_true
  have hhead := h.head?_ne_sign
  generalize whole ++ (frac ++ power) = s at hstarts hhead
  rcases mem_optional.1 h.sign_mem with rfl | hsign
  · rw [List.nil_append]
    unfold starts
    split
    · exact absurd rfl hhead.1
    · exact absurd rfl hhead.2
    · exact hstarts
  · rcases mem_signs.1 hsign with rfl | rfl <;> exact hstarts

/-- The parts of a number are read as a number. -/
theorem scan?_eq_some (h : Parts sg whole frac power) :
    scan? (sg ++ (whole ++ (frac ++ power))) =
      some ⟨kindOf frac power, [], sg ++ (whole ++ (frac ++ power)), []⟩ := by
  have hsign := sign_of_mem h.sign_mem h.head?_ne_sign
  have hwhole := digits_of_mem h.whole_mem h.ends_whole
  have hfraction := fraction_of_mem h.fraction_mem h.beside h.ends_exponent.1 h.ends_exponent.2
  have hexponent := exponent_of_mem h.exponent_mem
  have hnumber :
      ¬((whole.isEmpty && frac.isEmpty) || ([] : Input).head?.any isWordChar) = true := by
    rcases h.nonempty with hsome | hsome <;> simp [hsome]
  simp only [scan?, hsign, hwhole, hfraction, hexponent]
  rw [if_neg hnumber]
  rfl

end Parts

/-- The numbers of a kind, as they are written. -/
def numbers : TokenKind → Language Char
  | .integer => integers
  | .float => floats
  | _ => 0

/-- Numbers are what has the parts of one, and these make it an integer or a float. -/
theorem mem_numbers_iff {kind : TokenKind} {w : List Char} :
    w ∈ numbers kind ↔ ∃ sg whole frac power, Parts sg whole frac power ∧
      w = sg ++ (whole ++ (frac ++ power)) ∧ kind = kindOf frac power := by
  constructor
  · intro h
    have hkind : kind = .integer ∨ kind = .float := by
      cases kind
      case integer => exact .inl rfl
      case float => exact .inr rfl
      all_goals cases h
    rcases hkind with rfl | rfl
    · obtain ⟨sg, hsign, ds, hds, rfl⟩ := h
      exact ⟨sg, ds, [], [], ⟨hsign, .inr hds, .inl rfl, .inl rfl, nofun,
        .inl (ne_nil_of_mem_groups hds)⟩, by simp, rfl⟩
    · obtain ⟨sg, hsign, _, (⟨_, ⟨_, ⟨ds, hds, _, rfl, rfl⟩, es, hes, rfl⟩, power, hpower, rfl⟩ |
        ⟨_, ⟨_, rfl, ds, hds, rfl⟩, power, hpower, rfl⟩) | ⟨ds, hds, power, hpower, rfl⟩, rfl⟩ := h
      · exact ⟨sg, ds, '.' :: es, power, ⟨hsign, .inr hds, .inr ⟨['.'], rfl, es, hes, rfl⟩, hpower,
          fun _ => ne_nil_of_mem_groups hds, .inr nofun⟩, by simp, rfl⟩
      · exact ⟨sg, [], '.' :: ds, power, ⟨hsign, .inl rfl, .inr ⟨['.'], rfl, ds, .inr hds, rfl⟩,
          hpower, by simpa using ne_nil_of_mem_groups hds, .inr nofun⟩, by simp, rfl⟩
      · exact ⟨sg, ds, [], power, ⟨hsign, .inr hds, .inl rfl, .inr hpower, nofun,
          .inl (ne_nil_of_mem_groups hds)⟩, by simp,
          by simp [kindOf, ne_nil_of_mem_exponents hpower]⟩
  · rintro ⟨sg, whole, frac, power, h, rfl, rfl⟩
    rcases mem_optional.1 h.fraction_mem with rfl | ⟨_, rfl, es, hes, rfl⟩
    · have hwhole := (mem_optional.1 h.whole_mem).resolve_left (h.nonempty.resolve_right (by simp))
      rcases mem_optional.1 h.exponent_mem with rfl | hpower
      · exact ⟨sg, h.sign_mem, whole, hwhole, by simp⟩
      · rw [kindOf, if_neg (by simp [ne_nil_of_mem_exponents hpower])]
        exact ⟨sg, h.sign_mem, _, .inr ⟨whole, hwhole, power, hpower, rfl⟩, by simp⟩
    · rw [kindOf, if_neg (by simp)]
      rcases mem_optional.1 h.whole_mem with rfl | hwhole
      · have hes := (mem_optional.1 hes).resolve_left fun hnil => h.beside (by simp [hnil]) rfl
        exact ⟨sg, h.sign_mem, _, .inl (.inr ⟨_, ⟨['.'], rfl, es, hes, rfl⟩, power, h.exponent_mem,
          rfl⟩), by simp⟩
      · exact ⟨sg, h.sign_mem, _, .inl (.inl ⟨_, ⟨_, ⟨whole, hwhole, ['.'], rfl, rfl⟩, es, hes,
          rfl⟩, power, h.exponent_mem, rfl⟩), by simp⟩

end Numeral

end Stencil
