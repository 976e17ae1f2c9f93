import Stencil.Proofs.Similar

/-!
# What follows an item

Literal text, comments and the bodies of raw blocks are read up to the first place that satisfies a
test, and such a test looks at what follows them. What it finds does not depend on the blanks
between the tokens that follow: text and comments end where two characters tell so, and whether the
statement that ends a raw block is there does not depend on its blanks (`Token.atEndRaw_alike`). One
input may follow an item in place of another if they agree in this (`Follows`).
-/

namespace Stencil

variable {s s' rest rest' : Input}

/-- Whether one input may follow an item where another did. -/
structure Follows (rest rest' : Input) : Prop where
  take : rest'.take 2 = rest.take 2
  raw : Token.atEndRaw rest' = Token.atEndRaw rest

/-- Inputs that begin with the same two characters do so behind the same text. -/
theorem take_two_append (h : rest'.take 2 = rest.take 2) (text : List Char) :
    (text ++ rest').take 2 = (text ++ rest).take 2 := by
  have hshort : ∀ n, n ≤ 2 → rest'.take n = rest.take n := by
    intro n hn
    have htake := congrArg (List.take n) h
    rwa [List.take_take, List.take_take, Nat.min_eq_left hn] at htake
  rw [List.take_append, List.take_append, hshort _ (Nat.sub_le 2 _)]

/-- Inputs that begin with the same two characters are both empty, or neither is. -/
theorem eq_nil_iff_of_take_two (h : rest'.take 2 = rest.take 2) : rest' = [] ↔ rest = [] := by
  cases rest <;> cases rest' <;> simp_all

/-- Text ends before another input as it does before what was left, if the test for its end finds
the same. -/
theorem splitBefore_replace {stop : Input → Bool} {text : List Char}
    (h : splitBefore stop s = (text, rest)) (hnil : rest' = [] ↔ rest = [])
    (hstop : ∀ p, p <:+ text → stop (p ++ rest') = stop (p ++ rest)) :
    splitBefore stop (text ++ rest') = (text, rest') := by
  induction s generalizing text with
  | nil =>
    cases h
    rw [hnil.2 rfl]
    rfl
  | cons c s ih =>
    have hsource := splitBefore_append stop (c :: s)
    rw [h] at hsource
    by_cases hc : stop (c :: s) = true
    · rw [splitBefore, if_pos hc] at h
      cases h
      have hrest' : stop rest' = true := (hstop [] (List.suffix_refl _)).trans hc
      obtain ⟨d, more, rfl⟩ := List.exists_cons_of_ne_nil fun h => List.cons_ne_nil c s (hnil.1 h)
      exact if_pos hrest'
    · rw [splitBefore, if_neg hc] at h
      cases h
      have hrest' : ¬stop (c :: ((splitBefore stop s).1 ++ rest')) = true := by
        have hsame := hstop _ (List.suffix_refl _)
        rw [hsource, List.cons_append] at hsame
        rwa [hsame]
      have hmore := ih rfl fun p hp => hstop p (hp.trans (List.suffix_cons c _))
      rw [List.cons_append, splitBefore, if_neg hrest', hmore]

/-- Two characters tell whether an opener begins. -/
theorem atOpener_of_take_two (h : s'.take 2 = s.take 2) : atOpener s' = atOpener s := by
  have htake : ∀ s : Input, atOpener (s.take 2) = atOpener s := by
    intro s
    rcases s with _ | ⟨c, _ | ⟨d, s⟩⟩
    · rfl
    · rfl
    · exact (@atOpener_append [c, d] (by simp) s).symm
  rw [← htake s', h, htake]

namespace Token

/-! ## Text and comments -/

/-- Text ends before another input that begins with the same two characters. -/
theorem scanText_replace (hk : (scanText s).kind = .text)
    (h : rest'.take 2 = (scanText s).rest.take 2) :
    scanText ((scanText s).text ++ rest') = { scanText s with rest := rest' } := by
  obtain ⟨hs, hopener⟩ := not_atOpener_of_scanText hk
  have htext := splitBefore_ne_nil hs hopener
  have hsource := splitBefore_append atOpener s
  rw [scanText_of_not_atOpener hs hopener] at h ⊢
  dsimp only at h ⊢
  have hopener' : atOpener ((splitBefore atOpener s).1 ++ rest') = false := by
    rw [atOpener_of_take_two (take_two_append h _), hsource, hopener]
  rw [scanText_of_not_atOpener (by simp [htext]) hopener',
    splitBefore_replace rfl (eq_nil_iff_of_take_two h) fun p _ =>
      atOpener_of_take_two (take_two_append h p)]

/-- Where no opener begins no raw block ends. -/
theorem not_atEndRaw_of_not_atOpener (h : atOpener s = false) : atEndRaw s = false := by
  unfold atEndRaw
  split
  · cases h
  · rfl

/-- Two characters tell whether a comment ends. -/
theorem atCommentClose_of_take_two (h : s'.take 2 = s.take 2) :
    atCommentClose s' = atCommentClose s := by
  have htake : ∀ s : Input, atCommentClose (s.take 2) = atCommentClose s := by
    intro s
    rcases s with _ | ⟨c, _ | ⟨d, s⟩⟩
    · rfl
    · rfl
    · exact (@atCommentClose_append [c, d] (by simp) s).symm
  rw [← htake s', h, htake]

/-- The content of a comment ends before another input that begins with the same two characters. -/
theorem scanComment_replace (hk : (scanComment s).kind = .commentContent)
    (h : rest'.take 2 = (scanComment s).rest.take 2) :
    scanComment ((scanComment s).text ++ rest') = { scanComment s with rest := rest' } := by
  obtain ⟨hs, hopen⟩ := not_atCommentClose_of_scanComment hk
  have htext := splitBefore_ne_nil hs hopen
  have hsource := splitBefore_append atCommentClose s
  rw [scanComment_of_not_atCommentClose hs hopen] at h ⊢
  dsimp only at h ⊢
  have hopen' : atCommentClose ((splitBefore atCommentClose s).1 ++ rest') = false := by
    rw [atCommentClose_of_take_two (take_two_append h _), hsource, hopen]
  rw [scanComment_of_not_atCommentClose (by simp [htext]) hopen',
    splitBefore_replace rfl (eq_nil_iff_of_take_two h) fun p _ =>
      atCommentClose_of_take_two (take_two_append h p)]

/-! ## The end of a raw block -/

/-- What is left without a hyphen that may stand first. -/
def withoutHyphen (s : Input) : Input := if s.head? = some '-' then s.tail else s

/-- Inputs that are alike are so without a hyphen that may stand first. -/
theorem alike_withoutHyphen (h : Stencil.Alike Closes s s') :
    Stencil.Alike Closes (withoutHyphen s) (withoutHyphen s') := by
  have keep : ∀ {c : Char} {s : Input}, c ≠ '-' → withoutHyphen (c :: s) = c :: s := by
    intro c s hc
    simp [withoutHyphen, hc]
  obtain ⟨u, u', r, r', rfl, rfl, hu, hend, hend'⟩ := h
  have hsame := hu
  cases hu with
  | nil => exact absurd hend.two_le_length (by simp)
  | @plain c v v' hc hv =>
    by_cases hhyphen : c = '-'
    · subst hhyphen
      exact ⟨v, v', r, r', rfl, rfl, hv, hend.tail (by decide), hend'.tail (by decide)⟩
    · rw [List.cons_append, List.cons_append, keep hhyphen, keep hhyphen]
      exact ⟨_, _, r, r', rfl, rfl, hsame, hend, hend'⟩
  | @quoted q text v v' hq htext hv =>
    have hhyphen : q ≠ '-' := by rcases hq with rfl | rfl <;> decide
    rw [List.cons_append, List.cons_append, keep hhyphen, keep hhyphen]
    exact ⟨_, _, r, r', rfl, rfl, hsame, hend, hend'⟩
  | @gap b b' v v' hb hb' hv =>
    have first : ∀ {b v r : List Char}, IsGap b → withoutHyphen (b ++ v ++ r) = b ++ v ++ r := by
      intro b v r hb
      obtain ⟨c, b, rfl⟩ := List.exists_cons_of_ne_nil hb.1
      exact keep (ne_of_isBlank (hb.2 c List.mem_cons_self) rfl)
    rw [first hb, first hb']
    exact ⟨_, _, r, r', rfl, rfl, hsame, hend, hend'⟩

/-- The word `endraw` is read where no character of a word follows it. -/
theorem scanCode_endraw (h : rest.head?.any isWordChar = false) :
    scanCode false ("endraw".toList ++ rest) = .ok ⟨.word, [], "endraw".toList, rest⟩ := by
  have hscan : scanCode false ("endraw".toList ++ rest) =
      .ok ⟨.word, [], 'e' :: (['n', 'd', 'r', 'a', 'w'] ++ rest).takeWhile isWordChar,
        (['n', 'd', 'r', 'a', 'w'] ++ rest).dropWhile isWordChar⟩ := rfl
  have hrun : ∀ c ∈ ['n', 'd', 'r', 'a', 'w'], isWordChar c = true := List.all_eq_true.1 rfl
  obtain ⟨hword, hrest⟩ : rest.takeWhile isWordChar = [] ∧ rest.dropWhile isWordChar = rest := by
    cases rest with
    | nil => exact ⟨rfl, rfl⟩
    | cons c rest =>
      have hc : isWordChar c = false := h
      simp [hc]
  rw [hscan, List.takeWhile_append_of_pos hrun, List.dropWhile_append_of_pos hrun, hword, hrest]
  rfl

/-- The statement that ends a raw block begins with the word `endraw`, perhaps behind a hyphen. -/
theorem atEndRaw_iff : atEndRaw ('{' :: '%' :: s) = true ↔
    ∃ t, afterBlanks (scanCode false) (withoutHyphen s) = .ok t ∧ t.isWord "endraw" = true := by
  have hunfold : atEndRaw ('{' :: '%' :: s) =
      ("endraw".toList.isPrefixOf ((withoutHyphen s).dropWhile isBlank) &&
        !(((withoutHyphen s).dropWhile isBlank).drop 6).head?.any isWordChar) := rfl
  have hdrop : ∀ rest : Input, ("endraw".toList ++ rest).drop 6 = rest := fun _ => rfl
  rw [hunfold, Bool.and_eq_true, Bool.not_eq_true']
  generalize withoutHyphen s = s
  constructor
  · rintro ⟨hbegin, hend⟩
    obtain ⟨rest, hrest⟩ := List.isPrefixOf_iff_prefix.1 hbegin
    rw [← hrest, hdrop] at hend
    refine ⟨⟨.word, s.takeWhile isBlank, "endraw".toList, rest⟩, ?_, rfl⟩
    rw [afterBlanks, ← hrest, scanCode_endraw hend]
  · rintro ⟨t, ht, hword⟩
    obtain ⟨hkind, htext⟩ := isWord_iff.1 hword
    obtain ⟨-, hstart⟩ := afterBlanks_start scanCode_start ht
    have hhead := head_rest_of_word ht hkind
    rw [← hstart, start, htext, hdrop]
    refine ⟨List.isPrefixOf_iff_prefix.2 (List.prefix_append _ _), ?_⟩
    cases hrest : t.rest.head? with
    | none => rfl
    | some c => exact hhead c hrest

/-- Whether the statement that ends a raw block begins is the same in inputs that are alike behind
its opener. -/
theorem atEndRaw_alike (h : Stencil.Alike Closes s s') :
    atEndRaw ('{' :: '%' :: s') = atEndRaw ('{' :: '%' :: s) := by
  have ends : ∀ {s s' : Input}, Stencil.Alike Closes s s' → atEndRaw ('{' :: '%' :: s) = true →
      atEndRaw ('{' :: '%' :: s') = true := by
    intro s s' h hend
    obtain ⟨t, ht, hword⟩ := atEndRaw_iff.1 hend
    obtain ⟨t', ht', htwin⟩ := afterBlanks_twin (stopping_code false) (alike_withoutHyphen h) ht
    exact atEndRaw_iff.2 ⟨t', ht', (htwin.alike.isWord "endraw").trans hword⟩
  rw [Bool.eq_iff_iff]
  exact ⟨ends h.symm, ends h⟩

/-- Before a template opener it is known whether a raw block ends, whatever the opener begins. -/
theorem atEndRaw_append_opener {p : List Char} (hp : p ≠ []) (r r' : Input) :
    atEndRaw (p ++ '{' :: r') = atEndRaw (p ++ '{' :: r) := by
  obtain ⟨c, p, rfl⟩ := List.exists_cons_of_ne_nil hp
  cases p with
  | nil =>
    have hno : ∀ r : Input, atEndRaw (c :: '{' :: r) = false := by
      intro r
      unfold atEndRaw
      split
      · simp_all
      · rfl
    exact (hno r').trans (hno r).symm
  | cons d p =>
    by_cases hopener : c = '{' ∧ d = '%'
    · obtain ⟨rfl, rfl⟩ := hopener
      have hmem : '{' ∈ p ++ ['{'] := by simp
      have hbrace := fun x => atEndRaw_append_of_mem rfl (by decide) (by simp) hmem x
      simp only [List.append_assoc, List.singleton_append] at hbrace
      exact (hbrace r').trans (hbrace r).symm
    · have hno : ∀ r : Input, atEndRaw (c :: d :: r) = false := by
        intro r
        unfold atEndRaw
        split
        · simp_all
        · rfl
      exact (hno _).trans (hno _).symm

/-- The body of a raw block ends before another input where the block ends too. -/
theorem scanRaw_replace (hrest : (scanRaw s).rest ≠ [])
    (h : atEndRaw rest' = atEndRaw (scanRaw s).rest) :
    scanRaw ((scanRaw s).text ++ rest') = { scanRaw s with rest := rest' } := by
  have hend : atEndRaw (splitBefore atEndRaw s).2 = true := splitBefore_stops hrest
  have hend' : atEndRaw rest' = true := h.trans hend
  have opens : ∀ {rest : Input}, atEndRaw rest = true → ∃ r, rest = '{' :: r := by
    intro rest h
    unfold atEndRaw at h
    split at h
    · exact ⟨_, rfl⟩
    · cases h
  obtain ⟨r, hr⟩ := opens hend
  obtain ⟨r', rfl⟩ := opens hend'
  have hsplit : splitBefore atEndRaw ((splitBefore atEndRaw s).1 ++ '{' :: r') =
      ((splitBefore atEndRaw s).1, '{' :: r') := by
    refine @splitBefore_replace s ('{' :: r) _ _ _ (by rw [← hr]) (by simp) fun p _ => ?_
    by_cases hp : p = []
    · rw [hp, List.nil_append, List.nil_append, ← hr]
      exact h
    · exact atEndRaw_append_opener hp r r'
  simp only [scanRaw, hsplit]

end Token

end Stencil
