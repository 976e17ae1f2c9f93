import Stencil.Proofs.Accounting

/-!
# Diagnostics are in order and distinct

Arranging diagnostics sorts them by position and leaves out those that equal the one before them, so
that of two equal ones both stay if another one of the same position stands between them. There is
no third one: at one place at most two faults are reported, one at the end of an item and one at the
beginning of the next (`Sparse`). An element keeps to that because its body and its closing tag
report what they do behind each other, and what is reported where it begins is its own fault alone
(`Markup.element_sparse`). The main statement is `Template.parse_ordered`.
-/

namespace Stencil

/-- The number of faults at the place where `place` is left to read. -/
def faultsAt (place : Input) (faults : List Fault) : Nat := faults.countP fun f => f.found = place

/-- At most two faults are at one place between `s` and `rest`, and no more than one at either of
these. -/
structure Sparse (s rest : Input) (faults : List Fault) : Prop where
  suffix : rest <:+ s
  /-- There is room for the faults. -/
  proper : faults ≠ [] → rest.length < s.length
  within : ∀ f ∈ faults, f.found <:+ s ∧ rest <:+ f.found
  twice : ∀ place, faultsAt place faults ≤ 2
  first : faultsAt s faults ≤ 1
  last : faultsAt rest faults ≤ 1

namespace Sparse

variable {s m rest : Input} {a b : List Fault} {f : Fault}

/-- No faults are sparse. -/
theorem nil (h : rest <:+ s) : Sparse s rest [] :=
  ⟨h, fun h => absurd rfl h, nofun, fun _ => Nat.zero_le 2, Nat.zero_le 1, Nat.zero_le 1⟩

/-- One fault is sparse. -/
theorem singleton (hf : f.found <:+ s) (hrest : rest <:+ f.found) (hlt : rest.length < s.length) :
    Sparse s rest [f] := by
  have hcount : ∀ place, faultsAt place [f] ≤ 1 := fun place => List.countP_le_length
  exact ⟨hrest.trans hf, fun _ => hlt, List.forall_mem_singleton.2 ⟨hf, hrest⟩,
    fun place => Nat.le_succ_of_le (hcount place), hcount s, hcount rest⟩

/-- Whether faults are sparse does not depend on their order. -/
theorem perm (h : Sparse s rest a) (hab : a.Perm b) : Sparse s rest b := by
  have hcount : ∀ place, faultsAt place b = faultsAt place a := fun place => (hab.countP_eq _).symm
  refine ⟨h.suffix, fun hb => h.proper ?_, fun f hf => h.within f (hab.mem_iff.2 hf), ?_, ?_, ?_⟩
  · rintro rfl
    exact hb (List.nil_perm.1 hab)
  · exact fun place => hcount place ▸ h.twice place
  · exact hcount s ▸ h.first
  · exact hcount rest ▸ h.last

/-- There are faults at a place only between the ends. -/
theorem between (h : Sparse s rest a) {place : Input} (hplace : faultsAt place a ≠ 0) :
    a ≠ [] ∧ place <:+ s ∧ rest <:+ place := by
  obtain ⟨f, hf, hfound⟩ := List.countP_pos_iff.1 (Nat.pos_of_ne_zero hplace)
  obtain rfl := of_decide_eq_true hfound
  exact ⟨List.ne_nil_of_mem hf, h.within f hf⟩

/-- Faults before a place and faults behind it are sparse together. -/
theorem append (h : Sparse s m a) (h' : Sparse m rest b) : Sparse s rest (a ++ b) := by
  have hcount : ∀ place, faultsAt place (a ++ b) = faultsAt place a + faultsAt place b :=
    fun place => List.countP_append
  have hleft := h.suffix.length_le
  have hright := h'.suffix.length_le
  refine ⟨h'.suffix.trans h.suffix, fun hne => ?_, fun f hf => ?_, fun place => ?_, ?_, ?_⟩
  · by_cases ha : a = []
    · have := h'.proper fun hb => hne (by rw [ha, hb, List.append_nil])
      omega
    · have := h.proper ha
      omega
  · rcases List.mem_append.1 hf with hf | hf
    · exact ⟨(h.within f hf).1, h'.suffix.trans (h.within f hf).2⟩
    · exact ⟨(h'.within f hf).1.trans h.suffix, (h'.within f hf).2⟩
  · rw [hcount]
    by_cases ha : faultsAt place a = 0
    · rw [ha, Nat.zero_add]
      exact h'.twice place
    by_cases hb : faultsAt place b = 0
    · rw [hb]
      exact h.twice place
    · -- Both parts have faults there, so that it is the place between them.
      obtain ⟨-, -, hbefore⟩ := h.between ha
      obtain ⟨-, hbehind, -⟩ := h'.between hb
      obtain rfl : m = place := hbefore.eq_of_length_le hbehind.length_le
      have := h.last
      have := h'.first
      omega
  · rw [hcount]
    by_cases hb : faultsAt s b = 0
    · rw [hb]
      exact h.first
    · -- Faults of the second part are at the beginning only if the first part has none.
      obtain ⟨-, hbehind, -⟩ := h'.between hb
      obtain rfl : m = s := h.suffix.eq_of_length_le hbehind.length_le
      have ha : faultsAt m a = 0 := by
        by_contra ha
        have := h.proper (h.between ha).1
        omega
      rw [ha, Nat.zero_add]
      exact h'.first
  · rw [hcount]
    by_cases ha : faultsAt rest a = 0
    · rw [ha, Nat.zero_add]
      exact h'.last
    · obtain ⟨-, -, hbefore⟩ := h.between ha
      obtain rfl : rest = m := h'.suffix.eq_of_length_le hbefore.length_le
      have hb : faultsAt rest b = 0 := by
        by_contra hb
        have := h'.proper (h'.between hb).1
        omega
      rw [hb]
      exact h.last

/-- Sparse faults are sparse between places that are further apart. -/
theorem mono {s' rest' : Input} (h : Sparse s rest a) (hs : s <:+ s') (hrest : rest' <:+ rest) :
    Sparse s' rest' a := by
  have hwide := ((nil hs).append h).append (nil hrest)
  rwa [List.nil_append, List.append_nil] at hwide

/-- Faults and one that is reported last but lies before them are sparse together. -/
theorem snoc (h : Sparse m rest a) (hm : m <:+ s) (hlt : m.length < s.length) (hf : f.found = s) :
    Sparse s rest (a ++ [f]) := by
  have hfirst : Sparse s m [f] := .singleton (hf ▸ List.suffix_refl s) (hf ▸ hm) hlt
  exact (hfirst.append h).perm List.perm_append_comm

end Sparse

/-- Reading that succeeds stops behind what it reads. -/
theorem Reply.stop_of_ok {α : Type} {reply : Reply α} {a : α} {rest : Input}
    (h : reply.result = .ok (a, rest)) : reply.stop = rest := by
  rw [stop, h]

/-- Reading that fails stops where it gives up. -/
theorem Reply.stop_of_error {α : Type} {reply : Reply α} {e : Failure}
    (h : reply.result = .error e) : reply.stop = e.stopped := by
  rw [stop, h]

/-- Where reading stops does not depend on what is answered. -/
theorem Reply.stop_map {α β : Type} (events : List Event) (reply : Reply α)
    {g : α × Input → β × Input} (hg : ∀ a, (g a).2 = a.2) :
    (Reply.mk events (reply.result.map g)).stop = reply.stop := by
  unfold stop
  cases reply.result with
  | ok a => exact hg a
  | error e => rfl

/-- Failing inside an opener stops where the failure does. -/
theorem Failure.stopped_inside (e : Failure) (opener : Input) :
    (e.inside opener).stopped = e.stopped := by
  unfold inside
  split <;> rfl

namespace Markup

/-! ## Items -/

/-- An item reports sparse faults, be it malformed or not. -/
structure ReportsSparsely (x : Reading (List Tree)) : Prop where
  ok : ∀ {s ts rest}, s ≠ [] → x.parser s = .ok (ts, rest) →
    Sparse s rest (faultsOf (x s).events)
  error : ∀ {s e}, s ≠ [] → x.parser s = .error e →
    Sparse s (e.resume s) (faultsOf (x s).events ++ [e.toFault])

/-- What becomes of an item reports sparse faults. -/
theorem settle_sparse {x : Reading (List Tree)} (hx : ReportsSparsely x) {s : Input} (hs : s ≠ []) :
    Sparse s ((x s).settle true s).rest (faultsOf ((x s).settle true s).events) := by
  cases hresult : (x s).result with
  | ok a =>
    rw [Reply.settle, hresult]
    exact hx.ok hs hresult
  | error e =>
    rw [Reply.settle_error (s := s) hresult (if_pos rfl), faultsOf_append]
    exact hx.error hs hresult

/-! ## Elements -/

/-- A body that recovers reports sparse faults. -/
theorem body_sparse {y : Reading (List Tree)} (hy : Recovers y)
    (hsparse : ∀ {s}, s ≠ [] → Sparse s (y s).stop (faultsOf (y s).events)) (s : Input) :
    Sparse s (body y s).stop (faultsOf (body y s).events) := by
  fun_induction body y s with
  | case1 => exact .nil List.nil_suffix
  | case2 s => exact .nil (List.suffix_refl s)
  | case3 s hs _ first e =>
    rename_i hfirst
    exact absurd hfirst (hy.ok hs)
  | case4 s hs _ first trees r hfirst _ =>
    rename_i more ih
    have hfirstSparse := hsparse hs
    rw [Reply.stop_of_ok hfirst] at hfirstSparse
    rw [faultsOf_append, Reply.stop_map]
    · exact hfirstSparse.append ih
    · exact fun _ => rfl
  | case5 s hs _ first trees r hfirst =>
    rename_i hlt
    exact absurd (hy.items.rest_lt hs hfirst) hlt

/-- A body that recovers fails because the input ends. -/
theorem body_eq_error {y : Reading (List Tree)} (hy : Recovers y) {s : Input} {e : Failure}
    (h : (body y).parser s = .error e) : e = ⟨⟨.unexpectedToken "closing tag", []⟩, []⟩ := by
  obtain h | ⟨s', -, hs', he⟩ := body_failure (fun _ => True) (fun _ _ => trivial) trivial h
  · exact h
  · exact absurd he (hy.ok hs')

/-- A body ends where a closing tag begins. -/
theorem atFooter_of_body {y : Reading (List Tree)} (hy : ReadsItems y) {s rest : Input}
    {ts : List Tree} (h : (body y).parser s = .ok (ts, rest)) : atFooter rest = true := by
  refine body_induction (motive := fun _ _ rest => atFooter rest = true) ?stop ?next ?stuck h
  case stop => exact fun _ hfooter => hfooter
  case next => exact fun _ _ _ hmore => hmore
  case stuck => exact fun hs hfirst hlt => absurd (hy.rest_lt hs hfirst) hlt

/-- Where a closing tag begins its bracket comes next. -/
theorem kind_of_atFooter {s : Input} (hs : atFooter s = true) :
    (Token.scanText s).kind = .endTagOpen := by
  unfold atFooter at hs
  split at hs
  · rfl
  · cases hs

/-- A closing tag that is there fails behind its bracket. -/
theorem footer_eq_error {depth : Nat} {s : Input} {e : Failure} (hs : atFooter s = true)
    (h : Part.readAll (expression depth) footer s = .error e) :
    e.toFault.Lies s (nextItem e.stopped) ∧ e.stopped.length < s.length := by
  have hinner : Part.areInner footer = true := by decide +kernel
  refine ⟨Part.readAll_skips (expression_within depth) (expression_skips depth) _ hinner h, ?_⟩
  have hk := kind_of_atFooter hs
  have hscan : Token.scan .text s = .ok (Token.scanText s) := rfl
  rw [footer, Part.readAll, Part.read] at h
  rcases Parser.bind_eq_error.1 h with h | ⟨first, s', hfirst, h⟩
  · -- The bracket is there.
    rcases Parser.bind_eq_error.1 h with h | ⟨_, _, _, h⟩
    · rw [Terminal.read_of_scan (t := ⟨none, .punctuation, .text, .kind .endTagOpen, "closing tag"⟩)
        hscan (if_pos hk)] at h
      cases h
    · cases h
  · obtain ⟨leaf, after, hleaf, hpure⟩ := Parser.bind_eq_ok.1 hfirst
    obtain ⟨-, rfl⟩ : [leaf] = first ∧ after = s' := Parser.pure_eq_ok.1 hpure
    have hlt := (Terminal.read_rest_lt rfl hscan hleaf).2
    rw [Token.scanText_start] at hlt
    have hmore := Part.readAll_within (expression_within depth) footer.tail
    have hstopped : e.stopped <:+ after := by
      rcases Parser.bind_eq_error.1 h with h | ⟨_, _, _, h⟩
      · exact hmore.stopped h
      · cases h
    have := hstopped.length_le
    omega

/-- What is left after an opening tag is behind its bracket. -/
theorem Opened.rest_lt {depth : Nat} {s rest : Input} {tag stop : List Tree}
    (h : Opened (expression depth) s tag stop rest) : rest <:+ s ∧ rest.length < s.length := by
  obtain ⟨first, s₁, inner, s₂, hfirst, hinner, hstop, -⟩ := h
  obtain ⟨hsuffix, hlt⟩ := opener_rest_lt hfirst
  have hwithin := Part.readAll_within (expression_within depth)
  have hrest := ((hwithin headerEnd).rest hstop).trans ((hwithin header).rest hinner)
  have := hrest.length_le
  exact ⟨hrest.trans hsuffix, by omega⟩

/-- An element reports sparse faults, those of its body among them. -/
theorem element_sparse {depth : Nat} {y : Reading (List Tree)} (hy : Recovers y)
    (hsparse : ∀ {s}, s ≠ [] → Sparse s (y s).stop (faultsOf (y s).events)) {s : Input} :
    (∀ t rest, (element (expression depth) y).parser s = .ok (t, rest) →
      Sparse s rest (faultsOf (element (expression depth) y s).events)) ∧
    ∀ e, (Token.scanText s).kind = .tagOpen →
      (element (expression depth) y).parser s = .error e →
      Sparse s (e.resume s)
        (faultsOf (element (expression depth) y s).events ++ [e.toFault]) := by
  have hentered := fun e hk (h : (element (expression depth) y).parser s = .error e) =>
    element_entered hy hk h
  have hinner := body_sparse hy hsparse
  have hreply := element_reply (expression depth) y s
  simp only [Reading.parser] at hentered ⊢
  generalize element (expression depth) y s = reply at hreply hentered ⊢
  constructor
  · rintro t rest h
    cases hreply with
    | unopened | malformed | unclosed | footer => cases h
    | selfClosing htag =>
      cases h
      exact .nil htag.rest_lt.1
    | @closed _ _ items _ s' s'' _ htag hbody hclosing =>
      cases h
      have hinner := hinner s'
      rw [Reply.stop_of_ok hbody] at hinner
      have hrest := (Part.readAll_within (expression_within depth) footer).rest hclosing
      exact hinner.mono htag.rest_lt.1 hrest
  · intro e hk h
    have hfailed := hentered e hk h
    have hlt := Nat.lt_of_le_of_lt (nextItem_suffix e.stopped).length_le hfailed.stopped
    rw [Failure.resume_of_lt hfailed.stopped]
    cases hreply with
    | selfClosing | closed => cases h
    | unopened hbracket => exact absurd hbracket (opener_read_ne_error hk)
    | malformed => exact .singleton hfailed.lies.within hfailed.lies.before hlt
    | @unclosed _ _ s' f htag hbody =>
      -- The body ends with the input, so that it is the element that is not closed.
      cases h
      have hinner := hinner s'
      obtain rfl := body_eq_error hy hbody
      rw [Reply.stop_of_error hbody] at hinner
      exact hinner.snoc htag.rest_lt.1 htag.rest_lt.2 rfl
    | @footer _ _ items s' s'' f htag hbody hclosing =>
      -- The closing tag fails behind its bracket, or it is the element that is not closed.
      cases h
      have hinner := hinner s'
      rw [Reply.stop_of_ok hbody] at hinner
      obtain ⟨hlies, hstopped⟩ := footer_eq_error (atFooter_of_body hy.items hbody) hclosing
      have hnext := Nat.lt_of_le_of_lt (nextItem_suffix f.stopped).length_le hstopped
      rw [Failure.stopped_inside]
      unfold Failure.inside
      split
      · have hbefore := hinner.mono (List.suffix_refl s') (hlies.before.trans hlies.within)
        exact hbefore.snoc (f := ⟨.unterminatedDelimiter, s⟩) htag.rest_lt.1 htag.rest_lt.2 rfl
      · exact (hinner.mono htag.rest_lt.1 (List.suffix_refl s'')).append
          (.singleton hlies.within hlies.before hnext)

/-- Items report sparse faults, if the elements that they may be do. -/
theorem itemOf_sparse {depth : Nat} {element : Reading Tree}
    (hw : (itemOf (expression depth) element).parser.Within)
    (hlies : FaultsLie (itemOf (expression depth) element))
    (hok : ∀ {s t rest}, element.parser s = .ok (t, rest) →
      Sparse s rest (faultsOf (element s).events))
    (herror : ∀ {s e}, (Token.scanText s).kind = .tagOpen → element.parser s = .error e →
      Sparse s (e.resume s) (faultsOf (element s).events ++ [e.toFault])) :
    ReportsSparsely (itemOf (expression depth) element) := by
  -- Items that are no elements report nothing on the way.
  have hnone : ∀ {s}, (Token.scanText s).kind ≠ .tagOpen →
      faultsOf (itemOf (expression depth) element s).events = [] := by
    intro s hk
    rw [itemOf_eq]
    split
    case h_3 => exact (statement_agrees s).faultless
    case h_4 =>
      rw [(Reading.events_map comment (fun t => [t]) s).1]
      exact (comment_agrees s).faultless
    case h_5 hkind => exact absurd hkind hk
    all_goals rfl
  have htag : ∀ {s}, (Token.scanText s).kind = .tagOpen →
      itemOf (expression depth) element s = (element >>= fun t => pure [t]) s := by
    intro s hk
    rw [itemOf_eq, hk]
  constructor
  · intro s ts rest _ h
    by_cases hk : (Token.scanText s).kind = .tagOpen
    · rw [Reading.parser, htag hk] at h
      obtain ⟨t, ht, rfl⟩ := Reading.parser_single_eq_ok.1 h
      rw [htag hk, (Reading.events_map element (fun t => [t]) s).1]
      exact hok ht
    · rw [hnone hk]
      exact .nil (hw.rest h)
  · intro s e hs h
    have hfailed := hlies.failed hs h
    obtain ⟨-, hlt⟩ := resume_suffix hs (hw.stopped h)
    by_cases hk : (Token.scanText s).kind = .tagOpen
    · rw [Reading.parser, htag hk] at h
      have h := Reading.parser_single_eq_error.1 h
      rw [htag hk, (Reading.events_map element (fun t => [t]) s).1]
      exact herror hk h
    · rw [hnone hk]
      exact .singleton hfailed.within hfailed.before hlt

/-- An item reports sparse faults. -/
theorem item_sparse (depth : Nat) : ReportsSparsely (item true depth) := by
  induction depth with
  | zero =>
    refine itemOf_sparse (item_readsItems true 0).within (item_faultsLie 0)
      (fun h => absurd h tooDeep_ne_ok) fun {s e} hk h => ?_
    obtain ⟨hlies, hstopped⟩ := tooDeep_eq_error hk h
    have hlt := Nat.lt_of_le_of_lt (nextItem_suffix e.stopped).length_le hstopped
    rw [Failure.resume_of_lt hstopped, (tooDeep_agrees s).faultless]
    exact .singleton hlies.within hlies.before hlt
  | succ depth ih =>
    have hitems := item_readsItems true depth
    have hrecovers := recovering_recovers (item_faultsLie depth) hitems
    have hsparse : ∀ {s}, s ≠ [] → Sparse s ((item true depth).recovering s).stop
        (faultsOf ((item true depth).recovering s).events) := fun hs => settle_sparse ih hs
    exact itemOf_sparse (item_readsItems true (depth + 1)).within (item_faultsLie (depth + 1))
      (fun h => (element_sparse hrecovers hsparse).1 _ _ h)
      fun hk h => (element_sparse hrecovers hsparse).2 _ hk h

end Markup

/-! ## Steps -/

namespace Template

/-- The steps of a reader report sparse faults. -/
theorem steps_sparse (options : Options) (s : Input) :
    Sparse s [] (faultsOf ((steps options s).flatMap Step.events)) := by
  obtain ⟨recover, maxDepth, hpos⟩ := options
  cases recover with
  | false =>
    -- A strict reader reports one fault at most.
    have hfound : ∀ f ∈ faultsOf ((steps ⟨false, maxDepth, hpos⟩ s).flatMap Step.events),
        f.found <:+ s := fun f hf => (steps_found ⟨false, maxDepth, hpos⟩ hf).1
    rcases @steps_strict ⟨false, maxDepth, hpos⟩ rfl s with
      hnone | ⟨_, _, fault, htrees, -, hone⟩
    · rw [hnone]
      exact .nil List.nil_suffix
    · rw [hone, List.forall_mem_singleton] at hfound
      rw [hone]
      refine .singleton hfound List.nil_suffix (List.length_pos_iff.2 ?_)
      rintro rfl
      rw [steps_nil] at hone
      cases hone
  | true =>
    generalize hoptions : (⟨true, maxDepth, hpos⟩ : Options) = options
    induction s using steps_induction options with
    | nil =>
      rw [steps_nil]
      exact .nil (List.suffix_refl [])
    | cons s hs ih =>
      have hfirst : Sparse s (step options s).rest (faultsOf (step options s).events) := by
        rw [← hoptions]
        exact Markup.settle_sparse (Markup.item_sparse maxDepth) hs
      rw [steps_eq_cons options hs, List.flatMap_cons, faultsOf_append]
      exact hfirst.append ih

/-! ## Positions -/

/-- Of faults that are sparse at most two are diagnosed at one position. -/
theorem count_diagnose_le {source rest : Input} {faults : List Fault}
    (h : Sparse source rest faults) (pos : Nat) :
    (faults.map (Fault.diagnose (byteLength source))).countP (fun d => d.pos = pos) ≤ 2 := by
  rw [List.countP_map]
  by_cases hnone : ∀ f ∈ faults, (f.diagnose (byteLength source)).pos ≠ pos
  · rw [List.countP_eq_zero.2 fun f hf => by simpa using hnone f hf]
    exact Nat.zero_le 2
  · obtain ⟨f, hf, rfl⟩ : ∃ f ∈ faults, (f.diagnose (byteLength source)).pos = pos := by
      simpa using hnone
    -- The faults at the position are those at the place of one of them.
    refine Nat.le_trans (List.countP_mono_left fun g hg hpos => ?_) (h.twice f.found)
    have hf := (h.within f hf).1
    have hg := (h.within g hg).1
    have hpos : offset (byteLength source) g.found = offset (byteLength source) f.found :=
      of_decide_eq_true hpos
    have hfle := byteLength_le_of_suffix hf
    have hgle := byteLength_le_of_suffix hg
    rw [offset, offset] at hpos
    rw [decide_eq_true_eq]
    rcases List.suffix_or_suffix_of_suffix hg hf with hsuffix | hsuffix
    · exact eq_of_suffix_of_byteLength_eq hsuffix (by omega)
    · exact (eq_of_suffix_of_byteLength_eq hsuffix (by omega)).symm

/-- Leaving out repetitions leaves the others in order. -/
theorem dropRepeats_sublist {α : Type} [DecidableEq α] (l : List α) :
    (dropRepeats l).Sublist l := by
  fun_induction dropRepeats l with
  | case1 b l ih => exact ih.cons b
  | case2 a b l _ ih => exact ih.cons_cons a
  | case3 => exact List.Sublist.refl _

/-- Of diagnostics in order, with at most two at one position, no two are equal once repetitions are
left out: between two that are equal there would stand a third one. -/
theorem nodup_dropRepeats {l : List Diagnostic} (hsorted : l.Pairwise fun a b => a.pos ≤ b.pos)
    (htwice : ∀ pos, l.countP (fun d => d.pos = pos) ≤ 2) : (dropRepeats l).Nodup := by
  fun_induction dropRepeats l with
  | case1 b l ih =>
    refine ih hsorted.of_cons fun pos => Nat.le_trans ?_ (htwice pos)
    exact (List.sublist_cons_self b (b :: l)).countP_le
  | case2 a b l hne ih =>
    have hrest : ∀ pos, (b :: l).countP (fun d => d.pos = pos) ≤ 2 := fun pos =>
      Nat.le_trans (List.sublist_cons_self a (b :: l)).countP_le (htwice pos)
    refine List.nodup_cons.2 ⟨fun hmem => ?_, ih hsorted.of_cons hrest⟩
    rw [mem_dropRepeats] at hmem
    -- The diagnostic after the first is at the position of both.
    have hmem := (List.mem_cons.1 hmem).resolve_left hne
    have hab := List.rel_of_pairwise_cons hsorted List.mem_cons_self
    have hba := List.rel_of_pairwise_cons hsorted.of_cons hmem
    have hpos : b.pos = a.pos := Nat.le_antisymm hba hab
    have hthree := htwice a.pos
    have hone : 0 < l.countP fun d => d.pos = a.pos := List.countP_pos_iff.2 ⟨a, hmem, by simp⟩
    simp only [List.countP_cons, hpos, decide_true, if_pos] at hthree
    omega
  | case3 l hshort =>
    rcases l with _ | ⟨a, _ | ⟨b, l⟩⟩
    · exact List.nodup_nil
    · exact List.nodup_singleton a
    · exact absurd rfl (hshort a b l)

/-- Diagnostics that are arranged are in order. -/
theorem arrange_pairwise (found : List Diagnostic) :
    (arrange found).Pairwise fun a b => a.pos ≤ b.pos := by
  have hsorted := List.pairwise_mergeSort pos_le_trans pos_le_total found
  exact (hsorted.imp fun h => of_decide_eq_true h).sublist (dropRepeats_sublist _)

/-- Diagnostics that are arranged are distinct, if there are at most two at one position. -/
theorem arrange_nodup {found : List Diagnostic}
    (htwice : ∀ pos, found.countP (fun d => d.pos = pos) ≤ 2) : (arrange found).Nodup := by
  have hsorted := List.pairwise_mergeSort pos_le_trans pos_le_total found
  refine nodup_dropRepeats (hsorted.imp fun h => of_decide_eq_true h) fun pos => ?_
  rw [(List.mergeSort_perm found _).countP_eq]
  exact htwice pos

end Template

/-- What is reported of a template is in order and distinct. -/
structure Parse.Ordered (p : Parse) : Prop where
  /-- No diagnostic lies before an earlier one. -/
  sorted : p.errors.Pairwise fun a b => a.pos ≤ b.pos
  /-- No two diagnostics are equal, wherever they stand in the list. -/
  distinct : p.errors.Nodup

namespace Template

/-- What is reported of a template is in order and distinct, and it is all that was noted. -/
theorem parse_ordered (options : Options) (source : Input) :
    (parse options source).Ordered ∧
      ∀ step ∈ steps options source, ∀ fault region, .skipped fault region ∈ step.events →
        fault.diagnose (byteLength source) ∈ (parse options source).errors := by
  have hsparse := steps_sparse options source
  refine ⟨⟨arrange_pairwise _, arrange_nodup fun pos => ?_⟩, fun step hstep fault region h => ?_⟩
  · rw [faults_eq]
    exact count_diagnose_le hsparse pos
  · have hevent := List.mem_flatMap.2 ⟨step, hstep, h⟩
    exact mem_errors_ofSteps.2 ⟨fault, List.mem_filterMap.2 ⟨_, hevent, rfl⟩, rfl⟩

/-- The operand of the value lies too deep, and so does the element that stands in its place: two
equal faults are noted where the value ends and the element begins, and one is reported. -/
example :
    let options : Options := ⟨true, 1, by decide⟩
    let source : Input := ['<', 'a', '>', '{', '{', '<', 'b', '>', '<', '/', 'a', '>']
    let fault : Fault := ⟨.nestingTooDeep, ['<', 'b', '>', '<', '/', 'a', '>']⟩
    faultsOf ((steps options source).flatMap Step.events) = [fault, fault] ∧
      (parse options source).errors = [⟨.nestingTooDeep, 5⟩] := by
  intro options source fault
  constructor
  · cbv
  · unfold parse ofSteps
    dsimp only
    cbv

end Template

end Stencil
