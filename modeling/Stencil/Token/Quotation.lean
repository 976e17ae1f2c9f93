import Stencil.Token

/-!
# Quotations

The written form of strings. A string stands between two equal quotes, single or double, and a
backslash before that quote makes it part of the string; every other backslash stands for itself.
-/

namespace Stencil.Quotation

/-- The text up to and with the first quote `q` that no backslash escapes, and what is left after
it; nothing where no such quote follows. -/
def close? (q : Char) : Input → Option (List Char × Input)
  | [] => none
  | '\\' :: c :: s =>
    if c = q then (close? q s).map fun (text, rest) => ('\\' :: c :: text, rest)
    else (close? q (c :: s)).map fun (text, rest) => ('\\' :: text, rest)
  | c :: s =>
    if c = q then some ([q], s)
    else (close? q s).map fun (text, rest) => (c :: text, rest)

/-- The string that begins at its opening quote `q`, with `s` after it. -/
def scan? (q : Char) (s : Input) : Option Token :=
  (close? q s).map fun (text, rest) => ⟨.quoted, [], q :: text, rest⟩

/-- The text up to the closing quote and what is left are the input. -/
theorem close?_append {q : Char} {s text rest : List Char} (h : close? q s = some (text, rest)) :
    text ++ rest = s := by
  fun_induction close? q s generalizing text rest with
  | case1 => simp at h
  | case2 s ih | case3 c s _ ih | case5 c s _ _ ih =>
    obtain ⟨⟨text', rest'⟩, h', he⟩ := Option.map_eq_some_iff.1 h
    obtain ⟨rfl, rfl⟩ := by simpa using he
    simpa using ih h'
  | case4 s =>
    obtain ⟨rfl, rfl⟩ := by simpa using h
    rfl

/-- A string begins where it is read. -/
theorem scan?_start {q : Char} {s : Input} {t : Token} (h : scan? q s = some t) :
    t.start = q :: s := by
  obtain ⟨⟨text, rest⟩, h', rfl⟩ := Option.map_eq_some_iff.1 h
  simp [Token.start, close?_append h']

/-- A string has text: its quotes at least. -/
theorem scan?_ne_nil {q : Char} {s : Input} {t : Token} (h : scan? q s = some t) : t.text ≠ [] := by
  obtain ⟨_, _, rfl⟩ := Option.map_eq_some_iff.1 h
  exact List.cons_ne_nil q _

/-- Writes a string to stand between quotes `q`: a backslash goes before every `q`. -/
def escape (q : Char) : List Char → List Char
  | [] => []
  | c :: s => if c = q then '\\' :: c :: escape q s else c :: escape q s

/-- Reads what stands between quotes `q`: a backslash before `q` is dropped. -/
def unescape (q : Char) : List Char → List Char
  | [] => []
  | '\\' :: c :: s => if c = q then c :: unescape q s else '\\' :: unescape q (c :: s)
  | c :: s => c :: unescape q s

/-- Reading what was written gives the string back. -/
theorem unescape_escape {q : Char} (hq : q ≠ '\\') (s : List Char) :
    unescape q (escape q s) = s := by
  induction s with
  | nil => rfl
  | cons c s ih =>
    by_cases hc : c = q
    · subst hc
      simp [escape, unescape, ih]
    · by_cases hb : c = '\\'
      · -- The backslash stands for itself, since what is written after it is no quote.
        subst hb
        cases s with
        | nil => simp [escape, unescape, hc]
        | cons d s =>
          by_cases hd : d = q
          · subst hd
            simp only [escape, if_true, if_neg hc] at ih ⊢
            rw [unescape, if_neg (Ne.symm hq), ih]
          · simp only [escape, if_neg hc, if_neg hd] at ih ⊢
            rw [unescape, if_neg hd, ih]
      · simp only [escape, if_neg hc]
        rw [unescape, ih]
        intros
        simp_all

/-- The value of a string as it is written, quotes included. -/
def value : List Char → List Char
  | [] => []
  | q :: s => unescape q s.dropLast

end Stencil.Quotation
