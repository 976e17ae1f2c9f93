import Stencil.Proofs.Locality
import Stencil.Proofs.Respacing

/-!
# Reading what is respaced

A parser respaces its answers (`Parser.Respaces`) if it reads a respaced answer as it is, provided
that what follows is related to what it had left. The relation that is asked for behind an answer
and the one that holds before it are stated together, so that parsers compose. Two relations are
enough inside a value or a statement (`Frames`): one holds where a token is still to come, the other
one behind an expression too. With them parts may be respaced (`Part.readAll_respaces`), and so may
expressions of every depth (`expression_respaces`). Both may be that the inputs are alike up to the
end of the value or the statement (`frames_closes`). Behind parts that read that end themselves
nothing is asked for (`Part.readAll_concat_respaces`).
-/

namespace Stencil

variable {s s' rest rest' : Input}

/-- Two relations between inputs that say where tokens stop: the same ones are read of inputs that
are in the first relation, and a token in front of inputs that are in the second makes inputs that
are in the first. -/
structure Guides (inner outer : Input → Input → Prop) (modes : List Mode) : Prop where
  spaced : ∀ ⦃mode⦄, mode ∈ modes → mode ∈ Token.spacedModes
  nonempty : ∀ ⦃rest rest'⦄, outer rest rest' → rest ≠ []
  append : ∀ ⦃text text' rest rest'⦄, Similar text text' → Trimmed text → outer rest rest' →
    inner (text ++ rest) (text' ++ rest')
  scan : ∀ ⦃mode s s' t⦄, mode ∈ modes → inner s s' → Token.scan mode s = .ok t →
    ∃ t', Token.scan mode s' = .ok t' ∧ t.Alike t'

/-- What ends a value or a statement is still to come of an input if it is of the end of the
input. -/
theorem closes_mono ⦃rest s : Input⦄ (h : Closes rest) (hs : rest <:+ s) : Closes s := h.mono hs

/-- The bracket of a tag is still to come of an input if it is of the end of the input. -/
theorem bracket_mono ⦃rest s : Input⦄ (h : '>' ∈ rest) (hs : rest <:+ s) : '>' ∈ s := hs.subset h

/-- The end of a value or a statement guides its tokens. -/
theorem guides_code : Guides (Alike Closes) (Alike Closes) Token.codeModes where
  spaced _ hmode := List.mem_cons_of_mem _ hmode
  nonempty rest rest' h := by
    obtain ⟨u, _, r, _, rfl, _, _, hend, _⟩ := h
    have hlength := hend.two_le_length
    simp [List.ne_nil_of_length_pos (Nat.lt_of_lt_of_le Nat.zero_lt_two hlength)]
  append _ _ _ _ htext _ h := h.append closes_mono htext
  scan _ _ _ _ hmode hs h := Token.scan_alike hmode hs h

/-- The bracket of a tag guides its tokens. -/
theorem guides_tag :
    Guides (Alike fun s => '>' ∈ s) (Alike fun s => '>' ∈ s) [.tag] where
  spaced mode hmode := by
    obtain rfl := List.mem_singleton.1 hmode
    exact List.mem_cons_self
  nonempty rest rest' h := by
    obtain ⟨u, _, r, _, rfl, _, _, hend, _⟩ := h
    simp [List.ne_nil_of_mem hend]
  append _ _ _ _ htext _ h := h.append bracket_mono htext
  scan mode _ _ _ hmode hs h := by
    obtain rfl := List.mem_singleton.1 hmode
    exact Token.scanTag_alike hs h

/-! ## Leaves -/

namespace Pattern

variable {p : Pattern} {t t' taken : Token}

/-- What a pattern takes of a token it takes of one that is alike. -/
theorem take?_alike (h : t.Alike t') (htake : p.take? t = some taken) :
    ∃ taken', p.take? t' = some taken' ∧ taken.Alike taken' := by
  induction p with
  | kind k =>
    simp only [take?] at htake ⊢
    split at htake
    · rename_i hk
      cases htake
      exact ⟨t', if_pos (h.kind.trans hk), h⟩
    · cases htake
  | word w =>
    simp only [take?] at htake ⊢
    split at htake
    · rename_i hw
      cases htake
      exact ⟨t', if_pos ((h.isWord w).trans hw), h⟩
    · cases htake
  | closer b =>
    simp only [take?] at htake ⊢
    split at htake
    · cases htake
    · rename_i c more htext
      split at htake
      · rename_i hc
        cases htake
        rcases h.text with htext' | ⟨-, ⟨gap, -, hwords⟩, -⟩
        · rw [htext'.trans htext]
          exact ⟨_, if_pos hc, h.kind, h.gap, List.cons_ne_nil _ _, .inl rfl⟩
        · -- The words `not in` do not begin with a bracket.
          rw [htext] at hwords
          obtain rfl : c = 'n' := (List.cons_eq_cons.1 hwords).1
          cases b <;> cases hc
      · cases htake
  | hyphen =>
    simp only [take?] at htake ⊢
    split at htake
    · rename_i hk
      cases htake
      exact ⟨t', if_pos (by rwa [h.kind]), h⟩
    · cases htake
  | touching p ih =>
    simp only [take?] at htake ⊢
    split at htake
    · rename_i hgap
      rw [if_pos (h.gap.2 hgap)]
      exact ih htake
    · cases htake

/-- Tokens that are alike fit the same patterns. -/
theorem isSome_take?_alike (h : t.Alike t') (p : Pattern) :
    (p.take? t').isSome = (p.take? t).isSome := by
  have fits : ∀ {t t' : Token}, t.Alike t' → (p.take? t).isSome = true →
      (p.take? t').isSome = true := by
    intro t t' h hsome
    obtain ⟨taken, htake⟩ := Option.isSome_iff_exists.1 hsome
    obtain ⟨taken', htake', -⟩ := take?_alike h htake
    rw [htake']
    rfl
  rw [Bool.eq_iff_iff]
  exact ⟨fits h.symm, fits h⟩

/-- What a pattern takes of a token is similar to itself if the token is. -/
theorem take?_similar (h : Similar t.text t.text) (htake : p.take? t = some taken) :
    Similar taken.text taken.text := by
  induction p with
  | closer b =>
    simp only [take?] at htake
    split at htake
    · cases htake
    · split at htake
      · rename_i hc
        cases htake
        subst hc
        exact .plain (by cases b <;> rfl) .nil
      · cases htake
  | touching p ih =>
    simp only [take?] at htake
    split at htake
    · exact ih htake
    · cases htake
  | _ =>
    simp only [take?] at htake
    split at htake
    · cases htake
      exact h
    · cases htake

end Pattern

/-- Where the words `not in` come first, it is known what they are. -/
theorem Token.IsNotIn.append_inj {text text' : List Char} (h : IsNotIn text) (h' : IsNotIn text')
    (heq : text ++ rest = text' ++ rest') : text = text' := by
  obtain ⟨b, hb, rfl⟩ := h
  obtain ⟨b', hb', rfl⟩ := h'
  simp only [List.append_assoc] at heq
  have hblanks := congrArg (List.takeWhile isBlank) (List.append_cancel_left heq)
  rw [List.takeWhile_append_of_pos hb.2, List.takeWhile_append_of_pos hb'.2] at hblanks
  have hin : ∀ r : Input, ("in".toList ++ r).takeWhile isBlank = [] := fun r => rfl
  rw [hin, hin, List.append_nil, List.append_nil] at hblanks
  rw [hblanks]

/-- Where a token is alike to one whose text is respaced, it has the respaced text, or both are the
words `not in`. -/
theorem RespacedText.eq_or {kind : Kind} {t t' : Token} {text' : List Char} (h : t.Alike t')
    (htext' : RespacedText kind t.text text') :
    text' = t'.text ∨ Token.IsNotIn text' ∧ Token.IsNotIn t'.text := by
  rcases htext' with rfl | ⟨-, hwords, hwords'⟩
  · rcases h.text with htext | ⟨-, hwords, hwords'⟩
    · exact .inl htext.symm
    · exact .inr ⟨hwords, hwords'⟩
  · rcases h.text with htext | ⟨-, -, hother⟩
    · exact .inr ⟨hwords', htext ▸ hwords⟩
    · exact .inr ⟨hwords', hother⟩

/-- Blanks end where something else comes first. -/
theorem blanks_append_cons {gap : List Char} {c : Char} (hgap : ∀ b ∈ gap, isBlank b = true)
    (hc : isBlank c = false) (more : Input) :
    (gap ++ c :: more).takeWhile isBlank = gap ∧
      (gap ++ c :: more).dropWhile isBlank = c :: more := by
  have hc : ¬isBlank c = true := by simp [hc]
  constructor
  · rw [List.takeWhile_append_of_pos hgap, List.takeWhile_cons_of_neg hc, List.append_nil]
  · rw [List.dropWhile_append_of_pos hgap, List.dropWhile_cons_of_neg hc]

/-- A token that is alike to one whose leaf is respaced is what the respaced leaf is made of, if
that comes first. -/
theorem Token.leaf_eq {field : Option Field} {kind : Kind} {t t' : Token} {leaf' : Tree}
    (h : t.Alike t') (hblanks : t'.gap = s'.takeWhile isBlank ∧ t'.start = s'.dropWhile isBlank)
    (hleaf : (t.leaf field kind).Respaced leaf') (hs : leaf'.source ++ rest' = s') :
    t'.leaf field kind = leaf' ∧ t'.rest = rest' := by
  obtain ⟨hgap, hstart⟩ := hblanks
  unfold Token.leaf at hleaf ⊢
  cases hleaf with
  | leaf hgap' htext' =>
    rename_i gap' text'
    have hsame := htext'.eq_or h
    -- Both texts begin with the same character, and it is no blank.
    obtain ⟨c, more, more', hmore, hmore'⟩ : ∃ c more more', text' = c :: more ∧
        t'.text = c :: more' := by
      rcases hsame with rfl | ⟨⟨_, -, rfl⟩, _, -, htext⟩
      · obtain ⟨c, more, hmore⟩ := List.exists_cons_of_ne_nil h.nonempty'
        exact ⟨c, more, more, hmore, hmore⟩
      · exact ⟨'n', _, _, rfl, htext⟩
    have hblank : isBlank c = false := by
      have hhead := List.head?_dropWhile_not isBlank s'
      rwa [← hstart, Token.start, hmore'] at hhead
    have hsource : s' = gap' ++ c :: (more ++ rest') := by
      rw [← hs, Tree.source, hmore, List.append_assoc, List.cons_append]
    obtain ⟨htake, hdrop⟩ := blanks_append_cons hgap'.1 hblank (more ++ rest')
    rw [hsource, htake] at hgap
    rw [hsource, hdrop, ← List.cons_append, ← hmore, Token.start] at hstart
    have htext : t'.text = text' := by
      rcases hsame with heq | ⟨hwords', hwords⟩
      · exact heq.symm
      · exact hwords.append_inj hwords' hstart
    rw [htext] at hstart ⊢
    exact ⟨by rw [hgap], List.append_cancel_left hstart⟩

/-- A respaced leaf is similar to the leaf, if the text is that of a token. -/
theorem Tree.Respaced.similar_leaf {field : Option Field} {kind : Kind} {gap text : List Char}
    {leaf' : Tree} (h : (Tree.leaf field kind gap text).Respaced leaf')
    (hgap : ∀ c ∈ gap, isBlank c = true) (htext : Similar text text) :
    Similar (Tree.leaf field kind gap text).source leaf'.source := by
  cases h with
  | leaf hgap' htext' =>
    rename_i gap' text'
    refine Similar.append ?_ ?_
    · by_cases hnil : gap = []
      · rw [hgap'.2.2 hnil, hnil]
        exact .nil
      · exact .of_gap ⟨hnil, hgap⟩ ⟨fun hnil' => hnil (hgap'.2.1 hnil'), hgap'.1⟩
    · rcases htext' with rfl | ⟨-, hwords, hwords'⟩
      · exact htext
      · exact hwords.similar hwords'

/-! ## Parsers -/

namespace Parser

variable {α β : Type} {before after : Input → Input → Prop} {ends : Input → Prop}
  {l : Layout α} {m : Layout β}

/-- A parser answers what holds what it reads. -/
def Lossless (l : Layout α) (p : Parser α) : Prop :=
  ∀ ⦃s a rest⦄, p s = .ok (a, rest) → l.text a ++ rest = s

/-- What a parser answers may be respaced: a respaced answer is read in front of what is related to
what was left, and then the inputs are related too. -/
def Respaces (before after : Input → Input → Prop) (l : Layout α) (p : Parser α) : Prop :=
  ∀ ⦃s a rest⦄, p s = .ok (a, rest) → ∀ ⦃a'⦄, l.Respaced a a' →
    Similar (l.text a) (l.text a') ∧ ∀ ⦃rest'⦄, after rest rest' →
      before s (l.text a' ++ rest') ∧ p (l.text a' ++ rest') = .ok (a', rest')

/-- What may be respaced in front of what is related in one way may be so in front of what is
related more closely. -/
theorem Respaces.weaken {after' : Input → Input → Prop} {p : Parser α}
    (hafter : ∀ ⦃rest rest'⦄, after' rest rest' → after rest rest')
    (hp : p.Respaces before after l) : p.Respaces before after' l := fun _ _ _ h _ ha =>
  have ⟨hsimilar, hread⟩ := hp h ha
  ⟨hsimilar, fun _ hrest => hread (hafter hrest)⟩

/-- What may be respaced so that inputs are related closely may be so if they are to be related less
closely. -/
theorem Respaces.relax {before' : Input → Input → Prop} {p : Parser α}
    (hbefore : ∀ ⦃s s'⦄, before s s' → before' s s')
    (hp : p.Respaces before after l) : p.Respaces before' after l := fun _ _ _ h _ ha =>
  have ⟨hsimilar, hread⟩ := hp h ha
  ⟨hsimilar, fun _ hrest => (hread hrest).imp_left fun hs => hbefore hs⟩

/-- What is made of answers that may be respaced may be so too. -/
theorem Respaces.map {p : Parser α} {f : α → β} (hf : l.Keeps m f)
    (hp : p.Respaces before after l) : (p >>= fun a => pure (f a)).Respaces before after m := by
  intro s b rest h b' hb
  obtain ⟨a, s₁, h₁, h₂⟩ := bind_eq_ok.1 h
  obtain ⟨rfl, rfl⟩ := pure_eq_ok.1 h₂
  obtain ⟨a', ha, rfl⟩ := hf.respaced hb
  obtain ⟨hsimilar, hread⟩ := hp h₁ ha
  rw [hf.text, hf.text]
  refine ⟨hsimilar, fun rest' hrest => ?_⟩
  obtain ⟨hs, hread⟩ := hread hrest
  refine ⟨hs, ?_⟩
  rw [bind_of_ok hread]
  rfl

/-- Behind what reads its own end inputs may be alike in any way, and then they are so before it. -/
theorem Respaces.carry (hmono : ∀ ⦃rest s⦄, ends rest → rest <:+ s → ends s) {p : Parser α}
    (hl : p.Lossless l) (hp : p.Respaces before (fun _ _ => True) l) :
    p.Respaces (Alike ends) (Alike ends) l := by
  intro s a rest h a' ha
  obtain ⟨hsimilar, hread⟩ := hp h ha
  exact ⟨hsimilar, fun rest' hrest => ⟨hl h ▸ hrest.append hmono hsimilar, (hread trivial).2⟩⟩

/-- Something is read exactly where what is left is shorter. -/
theorem length_lt_iff {text s rest : List Char} (h : text ++ rest = s) :
    rest.length < s.length ↔ text ≠ [] := by
  subst h
  rw [List.length_append, ← List.length_pos_iff]
  omega

/-- Rounds may be respaced if each of them may. -/
theorem Respaces.many {round : Parser (Option α)} (hl : round.Lossless l.option)
    (hr : round.Respaces before before l.option) :
    (many round).Respaces before before l.list := by
  intro s as rest h as' has
  fun_induction Parser.many round s generalizing as rest as' with
  | case1 | case3 => cases h
  | case2 s r hround =>
    cases h
    cases has
    obtain ⟨hsimilar, hread⟩ := hr hround .none
    exact ⟨hsimilar, fun rest' hrest => ⟨(hread hrest).1, many_of_none (hread hrest).2⟩⟩
  | case4 s a r hround hlt bs stop hmore ih =>
    cases h
    obtain ⟨a', bs', ha, hbs, rfl⟩ := List.forall₂_cons_left_iff.1 has
    obtain ⟨hfirst, hread⟩ := hr hround (.some ha)
    obtain ⟨hothers, hmore'⟩ := ih hmore hbs
    refine ⟨hfirst.append hothers, fun rest' hrest => ?_⟩
    obtain ⟨hr', hmore'⟩ := hmore' hrest
    obtain ⟨hs, hread⟩ := hread hr'
    -- A round that reads something does so respaced.
    have hne : l.option.text (some a') ≠ [] := by
      rw [Ne, ← hfirst.eq_nil_iff]
      exact (length_lt_iff (hl hround)).1 hlt
    have hmany := many_of_some hread ((length_lt_iff rfl).2 hne) hmore'
    rw [← List.append_assoc] at hs hmany
    exact ⟨hs, hmany⟩
  | case5 s a r hround hlt =>
    cases h
    obtain ⟨a', bs', ha, hbs, rfl⟩ := List.forall₂_cons_left_iff.1 has
    cases hbs
    obtain ⟨hfirst, hread⟩ := hr hround (.some ha)
    -- A round that reads nothing is the last one, respaced too.
    have hnil : l.option.text (some a') = [] := by
      rw [← hfirst.eq_nil_iff]
      by_contra hne
      exact hlt ((length_lt_iff (hl hround)).2 hne)
    have hsingle : ∀ a, l.list.text [a] = l.option.text (some a) := fun _ => List.append_nil _
    rw [hsingle, hsingle]
    refine ⟨hfirst, fun rest' hrest => ?_⟩
    obtain ⟨hs, hread⟩ := hread hrest
    refine ⟨hs, ?_⟩
    rw [Parser.many, hread, hnil]
    simp

end Parser

/-! ## Productions -/

open Stencil.Parser (Lossless Respaces)

section Rules

variable {inner outer : Input → Input → Prop} {ends : Input → Prop} {modes : List Mode}

/-- A token of a value, a statement or a tag does not end with a blank, if there is anything to
read. -/
theorem Token.trimmed_of_start {mode : Mode} {t : Token} (hmode : mode ∈ spacedModes)
    (h : scan mode s = .ok t) (hne : t.start ≠ []) : Trimmed t.text := by
  obtain ⟨-, hstart⟩ := scan_blanks hmode h
  have blanks : ∀ {scan : Input → Except Cause Token} {t : Token},
      (∀ {s t}, scan s = .ok t → s ≠ [] → t.text ≠ []) → afterBlanks scan s = .ok t →
        s.dropWhile isBlank ≠ [] → t.text ≠ [] := by
    intro scan t hscan h hne
    obtain ⟨next, hnext, -, hsame⟩ := exists_scan_of_afterBlanks h
    exact hsame ▸ hscan hnext hne
  refine trimmed hmode h ?_
  rw [hstart] at hne
  simp only [spacedModes, codeModes, List.mem_cons, List.not_mem_nil, or_false] at hmode
  rcases hmode with rfl | rfl | rfl | rfl
  · exact blanks scanTag_text_ne_nil_of_input h hne
  · exact blanks scanCode_text_ne_nil_of_input h hne
  · exact blanks scanCode_text_ne_nil_of_input h hne
  · cases scanOperator_eq_ok.1 h with
    | single hfirst => exact blanks scanCode_text_ne_nil_of_input hfirst hne
    | notIn _ hnot => simp [(isWord_iff.1 hnot).2]

/-- What a pattern takes of a token does not end with a blank, if there is anything to read. -/
theorem Pattern.trimmed {mode : Mode} {p : Pattern} {next taken : Token}
    (hmode : mode ∈ Token.spacedModes) (hscan : Token.scan mode s = .ok next)
    (htake : p.take? next = some taken) (hne : taken.start ≠ []) : Trimmed taken.text := by
  have hnext := Token.trimmed_of_start hmode hscan ((take?_start htake).2 ▸ hne)
  induction p with
  | closer b =>
    simp only [take?] at htake
    split at htake
    · cases htake
    · split at htake
      · rename_i hc
        cases htake
        subst hc
        exact ⟨[], b.closer, rfl, by cases b <;> rfl⟩
      · cases htake
  | touching p ih =>
    simp only [take?] at htake
    split at htake
    · exact ih htake
    · cases htake
  | _ =>
    simp only [take?] at htake
    split at htake
    · cases htake
      exact hnext
    · cases htake

/-- A respaced leaf is similar to the leaf that a token is read into, and it is read of inputs in
which the same tokens are read. -/
theorem Terminal.read_respaced (hends : Guides inner outer modes) {t : Terminal}
    (hmode : t.mode ∈ modes) {leaf leaf' : Tree} (h : t.read s = .ok (leaf, rest))
    (hleaf : leaf.Respaced leaf') :
    Similar leaf.source leaf'.source ∧ ∀ ⦃rest'⦄, inner s (leaf'.source ++ rest') →
      t.read (leaf'.source ++ rest') = .ok (leaf', rest') := by
  obtain ⟨next, taken, hscan, htake, rfl, rfl⟩ := exists_of_read h
  have hspaced := hends.spaced hmode
  obtain ⟨hgap, hstart⟩ := Pattern.take?_start htake
  constructor
  · refine Tree.Respaced.similar_leaf hleaf ?_
      (Pattern.take?_similar (Token.scan_similar hspaced hscan) htake)
    rw [hgap]
    exact Token.isBlank_of_mem_gap hscan
  · intro rest' hs
    obtain ⟨next', hscan', hnext⟩ := hends.scan hmode hs hscan
    obtain ⟨taken', htake', htaken⟩ := Pattern.take?_alike hnext htake
    obtain ⟨hgap', hstart'⟩ := Pattern.take?_start htake'
    have hblanks := Token.scan_blanks hspaced hscan'
    rw [← hgap', ← hstart'] at hblanks
    obtain ⟨rfl, rfl⟩ := Token.leaf_eq htaken hblanks hleaf rfl
    exact Terminal.read_of_scan hscan' htake'

/-- The leaf of a token may be respaced, whatever may come behind a token. -/
theorem Terminal.read_respaces (hends : Guides inner outer modes) {t : Terminal}
    (hmode : t.mode ∈ modes) : t.read.Respaces inner outer .tree := by
  intro s leaf rest h leaf' hleaf
  have hsource : leaf.source ++ rest = s := read_append h
  obtain ⟨hsimilar, hread⟩ := read_respaced hends hmode h hleaf
  obtain ⟨next, taken, hscan, htake, rfl, rfl⟩ := exists_of_read h
  refine ⟨hsimilar, fun rest' hrest => ?_⟩
  have hne : taken.start ≠ [] := by simp [Token.start, hends.nonempty hrest]
  have htrimmed := Pattern.trimmed (hends.spaced hmode) hscan htake hne
  have hs : inner s (leaf'.source ++ rest') :=
    hsource ▸ hends.append hsimilar (htrimmed.append_left _) hrest
  exact ⟨hs, hread hs⟩

/-- The leaf of a token that holds an end may be respaced in front of inputs that make related ones
together with the end. -/
theorem Terminal.read_closed {after : Input → Input → Prop}
    (hmono : ∀ ⦃rest s⦄, ends rest → rest <:+ s → ends s)
    (hends : Guides inner outer modes) {t : Terminal} (hmode : t.mode ∈ modes)
    (hkind : t.kind ≠ .operator) (htext : ∀ {s next taken}, Token.scan t.mode s = .ok next →
      t.pattern.take? next = some taken → ends taken.text)
    (hclosed : ∀ ⦃text text' rest rest'⦄, Similar text text' → ends text → ends text' →
      after rest rest' → inner (text ++ rest) (text' ++ rest')) :
    t.read.Respaces inner after .tree := by
  intro s leaf rest h leaf' hleaf
  have hsource : leaf.source ++ rest = s := read_append h
  obtain ⟨hsimilar, hread⟩ := read_respaced hends hmode h hleaf
  obtain ⟨next, taken, hscan, htake, rfl, rfl⟩ := exists_of_read h
  have hend : ends (taken.leaf t.field t.kind).source :=
    hmono (htext hscan htake) ⟨taken.gap, rfl⟩
  have hend' : ends leaf'.source := by
    unfold Token.leaf at hleaf
    cases hleaf with
    | leaf hgap htext' =>
      rename_i gap' text'
      obtain rfl := htext'.resolve_right fun hwords => hkind hwords.1
      exact hmono (htext hscan htake) ⟨gap', rfl⟩
  refine ⟨hsimilar, fun rest' hrest => ?_⟩
  have hs : inner s (leaf'.source ++ rest') := hsource ▸ hclosed hsimilar hend hend' hrest
  exact ⟨hs, hread hs⟩

/-- Whether a look finds the same in inputs that are related. -/
def Look.Steady (before : Input → Input → Prop) (look : Look) : Prop :=
  ∀ ⦃s s' found rest⦄, look.holds s = .ok (found, rest) → before s s' →
    look.holds s' = .ok (found, s')

/-- Looking at a token finds the same in inputs in which the same tokens are read. -/
theorem Look.next_steady (hends : Guides inner outer modes) {mode : Mode} (hmode : mode ∈ modes)
    (pattern : Pattern) : (Look.next mode pattern).Steady inner := by
  intro s s' found rest h hs
  obtain ⟨t, s₁, hpeek, h⟩ := Parser.bind_eq_ok.1 h
  obtain ⟨hscan, rfl⟩ := Parser.peek_eq_ok.1 hpeek
  obtain ⟨rfl, rfl⟩ := Parser.pure_eq_ok.1 h
  obtain ⟨t', hscan', halike⟩ := hends.scan hmode hs hscan
  rw [Look.holds_of_scan hscan', Pattern.isSome_take?_alike halike]

/-- The same primary begins with tokens that are alike. -/
theorem Primary.of?_alike {t t' : Token} (h : t.Alike t') : of? t' = of? t := by
  simp only [of?, unary, h.kind, h.isWord]

/-- The same tail begins with tokens that are alike. -/
theorem Tail.of?_alike {t t' : Token} (h : t.Alike t') : of? t' = of? t := by
  simp only [of?, binary, h.kind, h.isWord]

/-- An expression goes on through tokens that are alike. -/
theorem Tail.admits_alike {t t' : Token} (h : t.Alike t') (extent : Extent) :
    admits extent t' = admits extent t := by
  simp only [admits, h.kind]

/-- The same tail comes next where tokens are alike. -/
theorem Tail.next?_alike {t t' : Token} (h : t.Alike t') (extent : Extent) :
    next? extent t' = next? extent t := by
  rw [next?, next?, admits_alike h, of?_alike h]

/-- In code the token after an expression is looked at. -/
theorem Tail.mode_mem (extent : Extent) : mode extent ∈ Token.codeModes := by
  cases extent <;> decide

/-- Two relations between inputs inside a value or a statement. The same tokens are read of inputs
that are in the first relation. Behind an expression inputs are in the second, and the expression
ends in both of them or in neither. -/
structure Frames (inner outer : Input → Input → Prop) : Prop
    extends Guides inner outer Token.codeModes where
  outer_of_inner : ∀ ⦃s s'⦄, inner s s' → outer s s'
  named : ∀ ⦃s s'⦄, inner s s' → atNamed s' = atNamed s
  tail : ∀ ⦃extent s s' t⦄, outer s s' → Token.scan (Tail.mode extent) s = .ok t →
    Tail.next? extent t = none →
      ∃ t', Token.scan (Tail.mode extent) s' = .ok t' ∧ Tail.next? extent t' = none

/-- No tail comes next in either of two inputs that are alike, if it does so in neither. -/
theorem Tail.next?_none_alike {extent : Extent} {t : Token} (hs : Alike Closes s s')
    (hscan : Token.scan (mode extent) s = .ok t) (hnone : next? extent t = none) :
    ∃ t', Token.scan (mode extent) s' = .ok t' ∧ next? extent t' = none := by
  obtain ⟨t', hscan', halike⟩ := Token.scan_alike (mode_mem extent) hs hscan
  exact ⟨t', hscan', (next?_alike halike extent).trans hnone⟩

/-- Inputs that are alike up to the end of the value or the statement are so behind an expression
too. -/
theorem frames_closes : Frames (Alike Closes) (Alike Closes) where
  toGuides := guides_code
  outer_of_inner _ _ h := h
  named _ _ h := atNamed_alike h
  tail _ _ _ _ h := Tail.next?_none_alike h

/-- What is looked at in a value or a statement is found in inputs in which the same tokens are
read. -/
theorem Look.steady_of_isCode (hframes : Frames inner outer) {look : Look}
    (h : look.isCode = true) : look.Steady inner := by
  cases look with
  | next mode pattern => exact next_steady hframes.toGuides (by simpa [isCode] using h) pattern
  | named =>
    intro s s' found rest h hs
    cases h
    rw [holds_named, hframes.named hs]

end Rules

namespace Part

variable {operand : Extent → Parser Tree} {before between after : Input → Input → Prop}

/-- The trees of a production hold what it reads. -/
theorem readAll_lossless (ho : ∀ extent, (operand extent).Lossless .tree) (ps : List Part) :
    (readAll operand ps).Lossless .row :=
  fun _ _ _ h => readAll_append (fun h => ho _ h) ps h

/-- A part that is a token may be respaced, if its leaf may. -/
theorem read_token_respaces {t : Terminal} (ht : t.read.Respaces before after .tree) :
    ((token t).read operand).Respaces before after .row := ht.map Layout.keeps_singleton

/-- No parts may be respaced. -/
theorem readAll_nil_respaces : (readAll operand []).Respaces before before .row := by
  intro s ts rest h ts' hts
  cases h
  cases hts
  exact ⟨.nil, fun rest' hrest => ⟨hrest, readAll_nil⟩⟩

/-- A row of parts may be respaced, if the first part and the row of the others may. -/
theorem readAll_cons_respaces {p : Part} {ps : List Part}
    (hp : (p.read operand).Respaces before between .row)
    (hps : (readAll operand ps).Respaces between after .row) :
    (readAll operand (p :: ps)).Respaces before after .row := by
  intro s ts rest h ts' hts
  obtain ⟨first, s₁, more, hfirst, hmore, rfl⟩ := exists_of_readAll_cons h
  obtain ⟨first', more', rfl, hfirst', hmore'⟩ := forall₂_append hts
  obtain ⟨hsimilar, hread⟩ := hp hfirst hfirst'
  obtain ⟨hothers, hreadMore⟩ := hps hmore hmore'
  simp only [Layout.row, Tree.sources_append,
    List.append_assoc] at hsimilar hread hothers hreadMore ⊢
  refine ⟨hsimilar.append hothers, fun rest' hrest => ?_⟩
  obtain ⟨hbetween, hreadMore⟩ := hreadMore hrest
  obtain ⟨hbefore, hread⟩ := hread hbetween
  exact ⟨hbefore, readAll_cons hread hreadMore⟩

/-- One part may be respaced in a row too. -/
theorem readAll_singleton_respaces {p : Part} (hp : (p.read operand).Respaces before after .row) :
    (readAll operand [p]).Respaces before after .row :=
  readAll_cons_respaces hp readAll_nil_respaces

/-- A choice may be respaced, if both rows of parts may and what is looked for is found. -/
theorem read_choice_respaces {look : Look} {yes no : List Part} (hlook : look.Steady before)
    (hyes : (readAll operand yes).Respaces before after .row)
    (hno : (readAll operand no).Respaces before after .row) :
    ((choice look yes no).read operand).Respaces before after .row := by
  intro s ts rest h ts' hts
  rw [read] at h
  obtain ⟨found, s₁, hfound, h⟩ := Parser.bind_eq_ok.1 h
  obtain rfl := Look.holds_rest hfound
  cases found with
  | true =>
    obtain ⟨hsimilar, hread⟩ := hyes h hts
    refine ⟨hsimilar, fun rest' hrest => ?_⟩
    obtain ⟨hs, hread⟩ := hread hrest
    exact ⟨hs, read_choice_yes (hlook hfound hs) hread⟩
  | false =>
    obtain ⟨hsimilar, hread⟩ := hno h hts
    refine ⟨hsimilar, fun rest' hrest => ?_⟩
    obtain ⟨hs, hread⟩ := hread hrest
    exact ⟨hs, read_choice_no (hlook hfound hs) hread⟩

/-- One round of repeated parts may be respaced, if the parts may and what is looked for is
found. -/
theorem round_respaces {look : Look} {parts : List Part} (hlook : look.Steady before)
    (hparts : (readAll operand parts).Respaces before before .row) :
    (round operand look parts).Respaces before before Layout.row.option := by
  intro s a rest h a' ha
  obtain ⟨found, s₁, hfound, h⟩ := Parser.bind_eq_ok.1 h
  obtain rfl := Look.holds_rest hfound
  cases found with
  | true =>
    have hsome := hparts.map (Layout.keeps_some .row) h ha
    refine ⟨hsome.1, fun rest' hrest => ?_⟩
    obtain ⟨hs, hread⟩ := hsome.2 hrest
    refine ⟨hs, ?_⟩
    rw [round, Parser.bind_of_ok (hlook hfound hs)]
    exact hread
  | false =>
    obtain ⟨rfl, rfl⟩ := Parser.pure_eq_ok.1 h
    cases ha
    refine ⟨.nil, fun rest' hrest => ⟨hrest, ?_⟩⟩
    show round operand look parts rest' = _
    rw [round, Parser.bind_of_ok (hlook hfound hrest)]
    rfl

/-- A round of repeated parts answers what it reads. -/
theorem round_lossless (ho : ∀ extent, (operand extent).Lossless .tree) (look : Look)
    (parts : List Part) : (round operand look parts).Lossless Layout.row.option := by
  intro s a rest h
  obtain ⟨found, s₁, hfound, h⟩ := Parser.bind_eq_ok.1 h
  obtain rfl := Look.holds_rest hfound
  cases found with
  | true =>
    obtain ⟨ts, s₂, hts, h⟩ := Parser.bind_eq_ok.1 h
    obtain ⟨rfl, rfl⟩ := Parser.pure_eq_ok.1 h
    exact readAll_lossless ho parts hts
  | false =>
    obtain ⟨rfl, rfl⟩ := Parser.pure_eq_ok.1 h
    rfl

/-- Repeated parts may be respaced, if the parts may and what is looked for is found. -/
theorem read_repeated_respaces (ho : ∀ extent, (operand extent).Lossless .tree) {look : Look}
    {parts : List Part} (hlook : look.Steady before)
    (hparts : (readAll operand parts).Respaces before before .row) :
    ((repeated look parts).read operand).Respaces before before .row := by
  rw [read_repeated]
  exact (Respaces.many (round_lossless ho look parts) (round_respaces hlook hparts)).map
    Layout.keeps_flatten

/-- A node that an opening token begins may be respaced, if the token and the parts after it may. -/
theorem read_enclosed_respaces {field : Option Field} {kind : Kind} {opening : Terminal}
    {parts : List Part} (hopening : opening.read.Respaces before between .tree)
    (hparts : (readAll operand parts).Respaces between after .row) :
    ((enclosed field kind opening parts).read operand).Respaces before after .row := by
  intro s ts rest h ts' hts
  obtain ⟨first, s₁, more, hfirst, hmore, rfl⟩ := exists_of_read_enclosed h
  obtain ⟨node', rfl, hnode⟩ := forall₂_singleton hts
  obtain ⟨row, hrow, rfl⟩ := (Layout.keeps_node field kind).respaced hnode
  obtain ⟨first', more', hfirst', hmore', rfl⟩ := List.forall₂_cons_left_iff.1 hrow
  obtain ⟨hsimilar, hread⟩ := hopening hfirst hfirst'
  obtain ⟨hothers, hreadMore⟩ := hparts hmore hmore'
  simp only [Layout.row, Layout.tree, Tree.sources, Tree.source, List.append_nil,
    List.append_assoc] at hsimilar hread hothers hreadMore ⊢
  refine ⟨hsimilar.append hothers, fun rest' hrest => ?_⟩
  obtain ⟨hbetween, hreadMore⟩ := hreadMore hrest
  obtain ⟨hbefore, hread⟩ := hread hbetween
  exact ⟨hbefore, read_enclosed hread hreadMore⟩

section Frames

variable {inner outer : Input → Input → Prop}

mutual

/-- A part may be respaced where a token is still to come, if operands may. -/
theorem read_respaces (hframes : Frames inner outer)
    (ho : ∀ extent, (operand extent).Lossless .tree)
    (hr : ∀ extent, (operand extent).Respaces inner outer .tree) :
    ∀ p : Part, p.isCode = true → (p.read operand).Respaces inner inner .row
  | token t, hp => by
    have hmode : t.mode ∈ Token.codeModes := by simpa [isCode] using hp
    exact read_token_respaces
      ((Terminal.read_respaces hframes.toGuides hmode).weaken hframes.outer_of_inner)
  | .operand field extent, _ =>
    ((hr extent).map (Layout.keeps_under field)).weaken hframes.outer_of_inner
  | callee, _ => ((hr .whole).map Layout.keeps_splitCall).weaken hframes.outer_of_inner
  | node field kind parts, hp =>
    (readAll_respaces hframes ho hr parts hp).map
      (Layout.keeps_singleton.comp (Layout.keeps_node field kind))
  | enclosed .., hp => by cases hp
  | choice look yes no, hp => by
    simp only [isCode, Bool.and_eq_true] at hp
    obtain ⟨⟨hlook, hyes⟩, hno⟩ := hp
    exact read_choice_respaces (Look.steady_of_isCode hframes hlook)
      (readAll_respaces hframes ho hr yes hyes) (readAll_respaces hframes ho hr no hno)
  | repeated look parts, hp => by
    simp only [isCode, Bool.and_eq_true] at hp
    exact read_repeated_respaces ho (Look.steady_of_isCode hframes hp.1)
      (readAll_respaces hframes ho hr parts hp.2)
  | refuse cause, _ => by
    intro s ts rest h
    obtain ⟨_, _, _, h⟩ := Parser.bind_eq_ok.1 h
    cases h

/-- Parts may be respaced where a token is still to come, if operands may. -/
theorem readAll_respaces (hframes : Frames inner outer)
    (ho : ∀ extent, (operand extent).Lossless .tree)
    (hr : ∀ extent, (operand extent).Respaces inner outer .tree) :
    ∀ ps : List Part, areCode ps = true → (readAll operand ps).Respaces inner inner .row
  | [], _ => readAll_nil_respaces
  | p :: ps, hps => by
    simp only [areCode, Bool.and_eq_true] at hps
    exact readAll_cons_respaces (read_respaces hframes ho hr p hps.1)
      (readAll_respaces hframes ho hr ps hps.2)

end

/-- Parts of a value or a statement and a last part may be respaced in front of what the last part
may be. -/
theorem readAll_concat_respaces (hframes : Frames inner outer)
    (ho : ∀ extent, (operand extent).Lossless .tree)
    (hr : ∀ extent, (operand extent).Respaces inner outer .tree) {last : Part}
    (hlast : (last.read operand).Respaces inner after .row) :
    ∀ ps : List Part, areCode ps = true →
      (readAll operand (ps ++ [last])).Respaces inner after .row
  | [], _ => readAll_singleton_respaces hlast
  | p :: ps, hps => by
    simp only [areCode, Bool.and_eq_true] at hps
    exact readAll_cons_respaces (read_respaces hframes ho hr p hps.1)
      (readAll_concat_respaces hframes ho hr hlast ps hps.2)

/-- Members between brackets may be respaced in front of what the closing bracket may be. -/
theorem bracketed_respaces (hframes : Frames inner outer)
    (ho : ∀ extent, (operand extent).Lossless .tree)
    (hr : ∀ extent, (operand extent).Respaces inner outer .tree) {b : Bracket} {mode : Mode}
    {member : List Part} (hcloser : (Terminal.closer b).read.Respaces inner after .tree)
    (hcode : areCode (bracketed b mode member) = true) :
    (readAll operand (bracketed b mode member)).Respaces inner after .row := by
  simp only [bracketed, areCode, Bool.and_eq_true] at hcode
  exact readAll_concat_respaces hframes ho hr (read_token_respaces hcloser) [_, _]
    (by simp [areCode, hcode])

end Frames

end Part

/-! ## Expressions -/

section Expressions

variable {operand : Extent → Parser Tree}

variable {inner outer : Input → Input → Prop}

/-- The parts of a primary may be respaced, if operands may. -/
theorem Primary.parts_respaces (hframes : Frames inner outer)
    (ho : ∀ extent, (operand extent).Lossless .tree)
    (hr : ∀ extent, (operand extent).Respaces inner outer .tree) {t : Token} {kind : Kind}
    {parts : List Part} (h : of? t = some (.node kind parts)) :
    (Part.readAll operand parts).Respaces inner outer .row := by
  have hcode := areCode_of_of? h
  have hcloser : ∀ b, (Terminal.closer b).read.Respaces inner outer .tree := fun _ =>
    Terminal.read_respaces hframes.toGuides (List.mem_cons_self : Mode.code ∈ Token.codeModes)
  rcases of?_eq_node h with heq | heq | ⟨heq, -⟩
  · cases heq
    exact Part.bracketed_respaces hframes ho hr (hcloser .square) hcode
  · cases heq
    exact Part.bracketed_respaces hframes ho hr (hcloser .curly) hcode
  · cases heq
    exact Part.readAll_concat_respaces hframes ho hr
      ((hr .operand).map (Layout.keeps_under (some .operand))) [_] rfl

/-- What comes after the expression in a tail may be respaced, if operands may. -/
theorem Tail.more_respaces (hframes : Frames inner outer)
    (ho : ∀ extent, (operand extent).Lossless .tree)
    (hr : ∀ extent, (operand extent).Respaces inner outer .tree) {t : Token} {tail : Tail Part}
    (h : of? t = some tail) : (Part.readAll operand tail.more).Respaces inner outer .row := by
  have hbinary : ∀ kind, (Part.readAll operand (binary kind t).more).Respaces inner outer .row :=
    fun kind => Part.readAll_concat_respaces hframes ho hr
      ((hr .operand).map (Layout.keeps_under (some .right))) [_] rfl
  have hleaf : ∀ terminal : Terminal, terminal.mode = .code →
      terminal.read.Respaces inner outer .tree := fun terminal hmode =>
    Terminal.read_respaces hframes.toGuides (hmode ▸ List.mem_cons_self)
  rcases of?_eq_some h with ⟨rfl, -⟩ | ⟨rfl, -⟩ | ⟨rfl, -⟩ | ⟨rfl, -⟩ | ⟨rfl, -⟩
  · exact Part.readAll_singleton_respaces
      ((Part.bracketed_respaces hframes ho hr (hleaf _ rfl) rfl).map
        (Layout.keeps_singleton.comp (Layout.keeps_node (some .arguments) .argumentList)))
  · exact Part.readAll_concat_respaces hframes ho hr (Part.read_token_respaces (hleaf _ rfl))
      [_] rfl
  · exact Part.readAll_concat_respaces hframes ho hr (Part.read_token_respaces (hleaf _ rfl))
      [_, _] rfl
  · exact hbinary .comparison
  · exact hbinary .binaryOperation

/-- A primary may be respaced where the same tokens begin operands, if its parts may. -/
theorem Primary.read_respaces_of {modes : List Mode} (hends : Guides inner outer modes)
    (hoperand : Mode.operand ∈ modes) (ho : ∀ extent, (operand extent).Lossless .tree)
    (hparts : ∀ {t kind parts}, of? t = some (.node kind parts) →
      (Part.readAll operand parts).Respaces inner outer .row) :
    (Primary.read operand).Respaces inner outer .tree := by
  intro s t rest h t' ht
  have hsource : t.source ++ rest = s := read_append (fun h => ho _ h) h
  cases read_eq_ok.1 h with
  | @leaf next kind hscan hform =>
    have hspaced := hends.spaced hoperand
    have hsimilar : Similar (next.leaf none kind).source t'.source :=
      Tree.Respaced.similar_leaf ht (Token.isBlank_of_mem_gap hscan)
        (Token.scan_similar hspaced hscan)
    refine ⟨hsimilar, fun rest' hrest => ?_⟩
    have hne : next.start ≠ [] := by simp [Token.start, hends.nonempty hrest]
    have htrimmed := Token.trimmed_of_start hspaced hscan hne
    have hs : inner s (t'.source ++ rest') :=
      hsource ▸ hends.append hsimilar (htrimmed.append_left _) hrest
    obtain ⟨next', hscan', halike⟩ := hends.scan hoperand hs hscan
    obtain ⟨rfl, rfl⟩ := Token.leaf_eq halike (Token.scan_blanks hspaced hscan') ht rfl
    exact ⟨hs, Primary.read_leaf hscan' ((of?_alike halike).trans hform)⟩
  | @node _ kind _ _ _ hscan hform hread =>
    obtain ⟨ts', hts, rfl⟩ := (Layout.keeps_node none kind).respaced ht
    obtain ⟨hsimilar, hread⟩ := hparts hform hread hts
    refine ⟨hsimilar, fun rest' hrest => ?_⟩
    obtain ⟨hs, hread⟩ := hread hrest
    obtain ⟨next', hscan', halike⟩ := hends.scan hoperand hs hscan
    exact ⟨hs, Primary.read_node hscan' ((of?_alike halike).trans hform) hread⟩

/-- A primary may be respaced, if operands may. -/
theorem Primary.read_respaces (hframes : Frames inner outer)
    (ho : ∀ extent, (operand extent).Lossless .tree)
    (hr : ∀ extent, (operand extent).Respaces inner outer .tree) :
    (Primary.read operand).Respaces inner outer .tree :=
  read_respaces_of hframes.toGuides (by decide) ho (parts_respaces hframes ho hr)

/-- A tail may be respaced behind an expression where the same tails come next, if what comes after
the expression in them may. -/
theorem Tail.read_respaces_of {extent : Extent}
    (houter : ∀ {s s'}, inner s s' → outer s s')
    (hsome : ∀ {s s' t form}, inner s s' → Token.scan (mode extent) s = .ok t →
      next? extent t = some form →
        ∃ t', Token.scan (mode extent) s' = .ok t' ∧ next? extent t' = some form)
    (hnone : ∀ {s s' t}, outer s s' → Token.scan (mode extent) s = .ok t →
      next? extent t = none →
        ∃ t', Token.scan (mode extent) s' = .ok t' ∧ next? extent t' = none)
    (hmore : ∀ {s t form}, Token.scan (mode extent) s = .ok t → next? extent t = some form →
      (Part.readAll operand form.more).Respaces inner outer .row) :
    (Tail.read operand extent).Respaces outer outer Layout.tail.option := by
  intro s tail rest h tail' htail
  cases read_eq_ok.1 h with
  | none hscan hend =>
    cases htail
    refine ⟨.nil, fun rest' hrest => ⟨hrest, ?_⟩⟩
    obtain ⟨next', hscan', hend'⟩ := hnone hrest hscan hend
    exact read_none hscan' hend'
  | @some _ form _ _ hscan hnext hread =>
    obtain ⟨tail, hheld, rfl⟩ := (Layout.keeps_some .tail).respaced htail
    obtain ⟨more', hmore', rfl⟩ := (Layout.keeps_tail form.kind form.slot).respaced hheld
    obtain ⟨hsimilar, hread⟩ := hmore hscan hnext hread hmore'
    refine ⟨hsimilar, fun rest' hrest => ?_⟩
    obtain ⟨hs, hread⟩ := hread hrest
    refine ⟨houter hs, ?_⟩
    obtain ⟨next', hscan', hnext'⟩ := hsome hs hscan hnext
    exact read_eq_ok.2 (.some hscan' hnext' hread)

/-- A tail may be respaced behind an expression, if operands may. -/
theorem Tail.read_respaces (hframes : Frames inner outer) (extent : Extent)
    (ho : ∀ extent, (operand extent).Lossless .tree)
    (hr : ∀ extent, (operand extent).Respaces inner outer .tree) :
    (Tail.read operand extent).Respaces outer outer Layout.tail.option := by
  refine read_respaces_of (fun hs => hframes.outer_of_inner hs) (fun hs hscan hnext => ?_)
    (fun hs hscan hnone => hframes.tail hs hscan hnone)
    (fun _ hnext => more_respaces hframes ho hr (of?_of_next? hnext).2)
  obtain ⟨next', hscan', halike⟩ := hframes.scan (mode_mem extent) hs hscan
  exact ⟨next', hscan', (next?_alike halike extent).trans hnext⟩

end Expressions

/-- An expression answers what it reads. -/
theorem expression_lossless (depth : Nat) (extent : Extent) :
    (expression depth extent).Lossless .tree := fun _ _ _ h => expression_append depth h

/-- An expression may be respaced, if its primary and its tails may. -/
theorem expression_respaces_of {inner outer : Input → Input → Prop} {depth : Nat} {extent : Extent}
    (hprimary : (Primary.read (expression depth)).Respaces inner outer .tree)
    (htail : (Tail.read (expression depth) extent).Respaces outer outer Layout.tail.option) :
    (expression (depth + 1) extent).Respaces inner outer .tree := by
  intro s t rest h t' ht
  obtain ⟨head, s₁, tails, hhead, htails, rfl⟩ := exists_of_expression h
  obtain ⟨head', tails', hhead', htails', rfl⟩ := Layout.of_foldl_attach ht
  obtain ⟨hsimilar, hread⟩ := hprimary hhead hhead'
  have hlossless : (Tail.read (expression depth) extent).Lossless Layout.tail.option :=
    fun _ _ _ h => Tail.read_append (fun h => expression_lossless depth _ h) h
  obtain ⟨hothers, hreadMore⟩ := Respaces.many hlossless htail htails htails'
  have htext : ∀ (head : Tree) (tails : List (Tail Tree)),
      Layout.tree.text (tails.foldl Tail.attach head) =
        head.source ++ Layout.tail.list.text tails :=
    fun head tails => Tail.source_foldl_attach tails head
  rw [htext, htext]
  refine ⟨hsimilar.append hothers, fun rest' hrest => ?_⟩
  rw [List.append_assoc]
  obtain ⟨hbetween, hreadMore⟩ := hreadMore hrest
  obtain ⟨hs, hread⟩ := hread hbetween
  exact ⟨hs, expression_of_tails hread hreadMore⟩

/-- An expression may be respaced inside a value or a statement. -/
theorem expression_respaces {inner outer : Input → Input → Prop} (hframes : Frames inner outer)
    (depth : Nat) (extent : Extent) :
    (expression depth extent).Respaces inner outer .tree := by
  induction depth generalizing extent with
  | zero => exact fun s t rest h => by cases h
  | succ depth ih =>
    have ho := expression_lossless depth
    exact expression_respaces_of (Primary.read_respaces hframes ho ih)
      (Tail.read_respaces hframes extent ho ih)

end Stencil
