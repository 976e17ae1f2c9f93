import Stencil.Proofs.Carrying

/-!
# What reading in place leaves alone

Whatever state a machine is in, what it holds in its arena is not changed by reading: nodes are
added behind it, and only the added ones are told fields or taken away again (`Machine.Grown`). The
places that a reading is given to work on, and those that it answers, are places of added nodes that
are there at the time (`Machine.Holds`), so that the machine never looks at a place that its arena
does not have. A reading that succeeds also comes back to the level at which it began
(`Action.Keeps`). That is shown for each operation and put together along the grammar:
`Machine.parts_keep` is about productions, `Machine.expression_keeps` about expressions and
`Row.item_keeps` about items.
-/

namespace Stencil

/-! ## Nodes behind their children -/

/-- In a row of nodes, of which the first is at the place `n`, each comes after its children, and
these are in the row. -/
def Rising (n : Nat) (entries : List Entry) : Prop :=
  ∀ i e, entries[i]? = some e → ∀ id ∈ e.children, n ≤ id ∧ id < n + i

namespace Rising

variable {n : Nat} {as bs : List Entry} {e : Entry}

/-- No nodes have no children. -/
theorem nil (n : Nat) : Rising n [] := by
  intro i e h
  cases h

/-- Two rows of nodes, one behind the other. -/
theorem append (has : Rising n as) (hbs : Rising (n + as.length) bs) : Rising n (as ++ bs) := by
  intro i e h id hid
  rcases Nat.lt_or_ge i as.length with hi | hi
  · rw [List.getElem?_append_left hi] at h
    exact has i e h id hid
  · rw [List.getElem?_append_right hi] at h
    have hbounds := hbs _ e h id hid
    omega

/-- A node behind some others, of which some are its children. -/
theorem concat (has : Rising n as)
    (he : ∀ id ∈ e.children, n ≤ id ∧ id < n + as.length) : Rising n (as ++ [e]) := by
  intro i e' h id hid
  rcases Nat.lt_or_ge i as.length with hi | hi
  · rw [List.getElem?_append_left hi] at h
    exact has i e' h id hid
  · rw [List.getElem?_append_right hi] at h
    obtain rfl := List.mem_singleton.1 (List.mem_of_getElem? h)
    have hbounds := he id hid
    omega

/-- Without the last node the others are still a row. -/
theorem dropLast (has : Rising n as) : Rising n as.dropLast := by
  intro i e h
  rw [List.getElem?_dropLast] at h
  split at h
  · exact has i e h
  · cases h

/-- Telling a node its field changes no children. -/
theorem modify (has : Rising n as) (i : Nat) (field : Option Field) :
    Rising n (as.modify i fun e => { e with field := field }) := by
  intro j e h id hid
  rw [List.getElem?_modify, Option.map_eq_map, Option.map_eq_some_iff] at h
  obtain ⟨e', he', rfl⟩ := h
  refine has j e' he' id ?_
  split at hid <;> exact hid

end Rising

namespace Machine

variable {base m m' : Machine} {ids ids' : List Nat}

/-- Telling nodes their fields adds no node. -/
theorem length_assign (entries : List Entry) (links : List Link) :
    (assign entries links).length = entries.length := by
  induction links generalizing entries with
  | nil => rfl
  | cons link links ih => rw [assign, ih, List.length_modify]

/-- Some places are in the arena of `m`, behind all that `base` holds. -/
def Holds (base m : Machine) (ids : List Nat) : Prop :=
  ∀ id ∈ ids, base.entries.length ≤ id ∧ id < m.entries.length

/-- No places are held. -/
theorem Holds.nil : base.Holds m [] := List.forall_mem_nil _

/-- One place is held. -/
theorem Holds.single {id : Nat} (hle : base.entries.length ≤ id) (hlt : id < m.entries.length) :
    base.Holds m [id] := List.forall_mem_singleton.2 ⟨hle, hlt⟩

/-- Places in two rows. -/
theorem Holds.append (h : base.Holds m ids) (h' : base.Holds m ids') : base.Holds m (ids ++ ids') :=
  List.forall_mem_append.2 ⟨h, h'⟩

/-- Some of the places. -/
theorem Holds.subset (h : base.Holds m ids) (hids : ids' ⊆ ids) : base.Holds m ids' :=
  fun id hid => h id (hids hid)

/-- Where no fewer nodes are the places are held too. -/
theorem Holds.mono (h : base.Holds m ids) (hle : m.entries.length ≤ m'.entries.length) :
    base.Holds m' ids := fun id hid => (h id hid).imp_right (Nat.lt_of_lt_of_le · hle)

/-- The machine `m` came from `base` by adding nodes, whose children were added too, and by noting
faults. It looked at no place that the arena did not have. -/
structure Grown (base m : Machine) : Prop where
  source : m.source = base.source
  options : m.options = base.options
  entries : ∃ more, m.entries = base.entries ++ more ∧ Rising base.entries.length more
  faults : base.faults <+: m.faults
  astray : m.astray = base.astray

/-- Nothing is added at first. -/
theorem Grown.refl (m : Machine) : m.Grown m :=
  ⟨rfl, rfl, ⟨[], (List.append_nil _).symm, .nil _⟩, List.prefix_refl _, rfl⟩

/-- What was there is still there, where it was. -/
theorem Grown.isPrefix (h : base.Grown m) : base.entries <+: m.entries := by
  obtain ⟨more, hmore, -⟩ := h.entries
  exact ⟨more, hmore.symm⟩

/-- Without what was added the arena is as it was. -/
theorem Grown.take (h : base.Grown m) : m.entries.take base.entries.length = base.entries :=
  List.prefix_iff_eq_take.1 h.isPrefix |>.symm

/-- What is added later is added too. -/
theorem Grown.trans (h : base.Grown m) (h' : m.Grown m') : base.Grown m' := by
  obtain ⟨more, hmore, hrising⟩ := h.entries
  obtain ⟨more', hmore', hrising'⟩ := h'.entries
  refine ⟨h'.source.trans h.source, h'.options.trans h.options,
    ⟨more ++ more', by rw [hmore', hmore, List.append_assoc], ?_⟩,
    h.faults.trans h'.faults, h'.astray.trans h.astray⟩
  rw [hmore, List.length_append] at hrising'
  exact hrising.append hrising'

/-- The children of a node that was added are before it, and they were added too. -/
theorem Grown.children (h : base.Grown m) {id : Nat} {e : Entry} (hid : base.entries.length ≤ id)
    (he : m.entries[id]? = some e) :
    ∀ child ∈ e.children, base.entries.length ≤ child ∧ child < id := by
  obtain ⟨more, hmore, hrising⟩ := h.entries
  rw [hmore, List.getElem?_append_right hid] at he
  intro child hchild
  have hbounds := hrising _ e he child hchild
  omega

/-- On another level, or with the cursor at another place, the same nodes are there. -/
theorem Grown.moved (h : base.Grown m) (rest : Input) (depth : Nat) :
    base.Grown { m with rest := rest, depth := depth } :=
  ⟨h.source, h.options, h.entries, h.faults, h.astray⟩

end Machine

/-! ## Keeping to what there is -/

namespace Action

variable {σ α β : Type} {view : σ → Machine} {base : Machine} {inv : σ → Prop} {given : List Nat}
  {gives : α → List Nat} {gives' : β → List Nat} {x : Action σ α} {f : α → Action σ β}

/-- What is done while the places `given` are held keeps to an invariant and takes no node away. If
it succeeds, it ends at the level at which it began, and the places that it answers are held. -/
structure Keeps (view : σ → Machine) (base : Machine) (inv : σ → Prop) (given : List Nat)
    (gives : α → List Nat) (x : Action σ α) : Prop where
  ok : ∀ {s a s'}, inv s → base.Holds (view s) given → x s = (.ok a, s') →
    inv s' ∧ (view s).entries.length ≤ (view s').entries.length ∧
      (view s').depth = (view s).depth ∧ base.Holds (view s') (gives a)
  error : ∀ {s fault s'}, inv s → base.Holds (view s) given → x s = (.error fault, s') →
    inv s' ∧ (view s).entries.length ≤ (view s').entries.length

/-- What leaves the state as it is keeps to every invariant. -/
theorem Keeps.of_still (h : ∀ s, (x s).2 = s) (hgives : ∀ s a, (x s).1 = .ok a → gives a ⊆ given) :
    Keeps view base inv given gives x := by
  constructor
  · intro s a s' hs hgiven hx
    obtain rfl : s = s' := by rw [← h s, hx]
    exact ⟨hs, le_rfl, rfl, hgiven.subset (hgives s a (by rw [hx]))⟩
  · intro s fault s' hs hgiven hx
    obtain rfl : s = s' := by rw [← h s, hx]
    exact ⟨hs, le_rfl⟩

/-- Answering places that are held changes nothing. -/
theorem Keeps.pure {a : α} (h : gives a ⊆ given) :
    Keeps view base inv given gives (pure a : Action σ α) :=
  .of_still (fun _ => rfl) fun _ _ ha => by
    cases ha
    exact h

/-- What is done one after the other, where what is done first answers places for the other. -/
theorem Keeps.bind (hx : Keeps view base inv given gives x)
    (hf : ∀ a, Keeps view base inv (gives a ++ given) gives' (f a)) :
    Keeps view base inv given gives' (x >>= f) := by
  constructor
  · intro s b s' hs hgiven h
    rcases hfirst : x s with ⟨_ | a, s₁⟩
    · rw [bind_of_error hfirst] at h
      cases h
    · rw [bind_of_ok hfirst] at h
      obtain ⟨hs₁, hle, hlevel, ha⟩ := hx.ok hs hgiven hfirst
      obtain ⟨hs', hle', hlevel', hb⟩ := (hf a).ok hs₁ (ha.append (hgiven.mono hle)) h
      exact ⟨hs', hle.trans hle', hlevel'.trans hlevel, hb⟩
  · intro s fault s' hs hgiven h
    rcases hfirst : x s with ⟨_ | a, s₁⟩
    · rw [bind_of_error hfirst] at h
      cases h
      exact hx.error hs hgiven hfirst
    · rw [bind_of_ok hfirst] at h
      obtain ⟨hs₁, hle, -, ha⟩ := hx.ok hs hgiven hfirst
      exact ((hf a).error hs₁ (ha.append (hgiven.mono hle)) h).imp_right hle.trans

end Action

namespace Machine

variable {base m m' : Machine} {α : Type} {given : List Nat} {gives : α → List Nat}

/-- What is done to a machine that came from `base`. -/
abbrev Keeps (base : Machine) (given : List Nat) (gives : α → List Nat) (x : Action Machine α) :
    Prop := Action.Keeps (fun m => m) base base.Grown given gives x

/-! ## Tokens and nodes -/

/-- Looking at a token changes nothing. -/
theorem peek_keeps (mode : Mode) : base.Keeps given (fun _ => []) (peek mode) :=
  .of_still (fun m => by unfold peek; split <;> rfl) fun _ _ _ => List.nil_subset _

/-- Looking at what comes next changes nothing. -/
theorem look_keeps (l : Look) : base.Keeps given (fun _ => []) (look l) := by
  cases l with
  | next mode pattern => exact (peek_keeps mode).bind fun _ => .pure (List.nil_subset _)
  | named => exact .of_still (fun _ => rfl) fun _ _ _ => List.nil_subset _

/-- Failing changes nothing. -/
theorem fail_keeps (cause : Cause) (found : Input) : base.Keeps given gives (fail cause found) :=
  .of_still (fun _ => rfl) fun _ _ h => by cases h

/-- Going on after a token moves the cursor alone. -/
theorem bump_keeps (t : Token) : base.Keeps given (fun _ => []) (bump t) := by
  constructor
  · intro m _ m' hm _ h
    cases h
    exact ⟨hm.moved _ _, le_rfl, rfl, .nil⟩
  · intro m _ m' _ _ h
    cases h

/-- Only the nodes that were added are told their fields, if these are linked to. -/
theorem Grown.assign (h : base.Grown m) {links : List Link}
    (hlinks : base.Holds m (links.map Prod.snd)) :
    ∃ more, Machine.assign m.entries links = base.entries ++ more ∧
      Rising base.entries.length more := by
  obtain ⟨more, hmore, hrising⟩ := h.entries
  replace hlinks : ∀ link ∈ links, base.entries.length ≤ link.2 := fun link hlink =>
    (hlinks link.2 (List.mem_map_of_mem hlink)).1
  rw [hmore]
  clear hmore h
  induction links generalizing more with
  | nil => exact ⟨more, rfl, hrising⟩
  | cons link links ih =>
    obtain ⟨hlink, hlinks⟩ := List.forall_mem_cons.1 hlinks
    rw [Machine.assign, modify_behind _ _ _ hlink]
    exact ih _ (hrising.modify _ _) hlinks

/-- A node that is added is behind what was there. -/
theorem push_keeps (kind : Kind) (start stop : Nat) {links : List Link}
    (hlinks : links.map Prod.snd ⊆ given) :
    base.Keeps given (fun id => [id]) (push kind start stop links) := by
  constructor
  · intro m id m' hm hgiven h
    have hids := hgiven.subset hlinks
    rw [push_of_lt _ _ _ fun link hlink => (hids _ (List.mem_map_of_mem hlink)).2] at h
    cases h
    obtain ⟨more, hmore, hrising⟩ := hm.assign hids
    have hlength : m.entries.length = base.entries.length + more.length := by
      rw [← length_assign m.entries links, hmore, List.length_append]
    refine ⟨⟨hm.source, hm.options, ⟨more ++ [⟨none, kind, start, stop, links.map Prod.snd⟩], ?_,
      hrising.concat fun id hid => hlength ▸ hids id hid⟩, hm.faults, hm.astray⟩, ?_, rfl,
      .single hm.isPrefix.length_le ?_⟩
    · rw [hmore, List.append_assoc]
    · simp [length_assign]
    · simp [length_assign]
  · intro m _ m' _ _ h
    cases h

/-- A node is behind what was there. -/
theorem node_keeps (kind : Kind) {links : List Link} (hlinks : links.map Prod.snd ⊆ given) :
    base.Keeps given (fun id => [id]) (node kind links) := by
  have hnode : ∀ {m : Machine}, base.Holds m given → ∃ start stop,
      node kind links m = push kind start stop links m := fun hgiven =>
    ⟨_, _, node_of_lt kind fun link hlink =>
      (hgiven _ (hlinks (List.mem_map_of_mem hlink))).2⟩
  constructor
  · intro m id m' hm hgiven h
    obtain ⟨start, stop, hpush⟩ := hnode hgiven
    exact (push_keeps kind start stop hlinks).ok hm hgiven (hpush ▸ h)
  · intro m fault m' hm hgiven h
    obtain ⟨start, stop, hpush⟩ := hnode hgiven
    exact (push_keeps kind start stop hlinks).error hm hgiven (hpush ▸ h)

/-- A leaf is behind what was there. -/
theorem leaf_keeps (kind : Kind) (t : Token) : base.Keeps given (fun id => [id]) (leaf kind t) :=
  ⟨fun hm hgiven h => (push_keeps _ _ _ (List.nil_subset _)).ok hm hgiven h,
    fun hm hgiven h => (push_keeps _ _ _ (List.nil_subset _)).error hm hgiven h⟩

/-- A token of a production becomes a leaf. -/
theorem terminal_keeps (t : Terminal) : base.Keeps given (fun link => [link.2]) (terminal t) := by
  refine (peek_keeps _).bind fun next => ?_
  cases t.pattern.take? next with
  | none => exact fail_keeps _ _
  | some token =>
    exact (bump_keeps _).bind fun _ => (leaf_keeps _ _).bind fun id => .pure (by simp)

/-- A name and the sign of assignment become leaves. -/
theorem keyword_keeps (key sign : Terminal) :
    base.Keeps given (List.map Prod.snd) (keyword key sign) :=
  (terminal_keeps key).bind fun name => (terminal_keeps sign).bind fun assign => .pure (by simp)

/-! ## Failures and levels -/

/-- Reading inside an opener does the same. -/
theorem inside_keeps (opener : Input) {x : Action Machine α} (hx : base.Keeps given gives x) :
    base.Keeps given gives (inside opener x) := by
  constructor
  · intro m a m' hm hgiven h
    rcases hresult : x m with ⟨_ | b, m₁⟩
    · simp [inside, hresult, Except.mapError] at h
    · simp only [inside, hresult, Except.mapError, Prod.mk.injEq, Except.ok.injEq] at h
      obtain ⟨rfl, rfl⟩ := h
      exact hx.ok hm hgiven hresult
  · intro m fault m' hm hgiven h
    rcases hresult : x m with ⟨_ | b, m₁⟩
    · simp only [inside, hresult, Except.mapError, Prod.mk.injEq] at h
      obtain ⟨-, rfl⟩ := h
      exact hx.error hm hgiven hresult
    · simp [inside, hresult, Except.mapError] at h

/-- The places that are answered on trial, if any are. -/
def tried (gives : α → List Nat) : Except Fault α → List Nat
  | .ok a => gives a
  | .error _ => []

/-- After a failure on trial the arena and the level are as they were. -/
theorem attempt_keeps {x : Action Machine α}
    (hx : ∀ (base : Machine) (given : List Nat), base.Keeps given gives x) :
    base.Keeps given (tried gives) (Action.caught (attempt x)) := by
  constructor
  · intro m trial m' hm hgiven h
    rcases hresult : x m with ⟨fault | a, m₁⟩
    · simp only [Action.caught, attempt, hresult, Prod.mk.injEq, Except.ok.injEq] at h
      obtain ⟨rfl, rfl⟩ := h
      have hgrown := ((hx m []).error (.refl m) .nil hresult).1
      have htake := hgrown.take
      refine ⟨⟨hgrown.source.trans hm.source, hgrown.options.trans hm.options, ?_,
        hm.faults.trans hgrown.faults, hgrown.astray.trans hm.astray⟩, ?_, rfl, .nil⟩
      · rw [htake]
        exact hm.entries
      · simp [htake]
    · simp only [Action.caught, attempt, hresult, Prod.mk.injEq, Except.ok.injEq] at h
      obtain ⟨rfl, rfl⟩ := h
      exact (hx base given).ok hm hgiven hresult
  · intro m fault m' _ _ h
    cases h

/-- What is done one level further down: it is refused there, it fails, or the level is gone up
after it again. -/
theorem level_cases (found : Input) (x : Action Machine α) (m : Machine) :
    ((do enter found; let a ← x; leave; return a : Action Machine α) m =
        (.error ⟨.nestingTooDeep, found⟩, m.down)) ∨
      (∃ a m', x m.down = (.ok a, m') ∧
        (do enter found; let a ← x; leave; return a : Action Machine α) m =
          (.ok a, { m' with depth := m'.depth - 1 })) ∨
      ∃ fault m', x m.down = (.error fault, m') ∧
        (do enter found; let a ← x; leave; return a : Action Machine α) m =
          (.error fault, m') := by
  by_cases hlevel : m.options.maxDepth < m.down.depth
  · have henter : enter found m = (.error ⟨.nestingTooDeep, found⟩, m.down) := if_pos hlevel
    exact .inl (Action.bind_of_error henter)
  · have henter : enter found m = (.ok (), m.down) := if_neg hlevel
    rw [Action.bind_of_ok henter]
    rcases hresult : x m.down with ⟨fault | a, m'⟩
    · exact .inr (.inr ⟨fault, m', rfl, Action.bind_of_error hresult⟩)
    · exact .inr (.inl ⟨a, m', rfl, Action.bind_of_ok hresult⟩)

/-- On another level the same nodes are there. -/
theorem Grown.down (h : base.Grown m) : base.Grown m.down := h.moved m.rest _

/-- One level too many is refused. -/
theorem refused_keeps (found : Input) (cause : Cause) :
    base.Keeps given gives (enter found >>= fun _ => fail cause found) := by
  have hfail : ∀ m : Machine, ∃ fault,
      (enter found >>= fun _ => (fail cause found : Action Machine α)) m =
        (.error fault, m.down) := by
    intro m
    by_cases hlevel : m.options.maxDepth < m.down.depth
    · have henter : enter found m = (.error ⟨.nestingTooDeep, found⟩, m.down) := if_pos hlevel
      exact ⟨_, Action.bind_of_error henter⟩
    · have henter : enter found m = (.ok (), m.down) := if_neg hlevel
      exact ⟨_, Action.bind_of_ok henter⟩
  constructor
  · intro m a m' _ _ h
    obtain ⟨fault, hfault⟩ := hfail m
    rw [hfault] at h
    cases h
  · intro m _ m' hm _ h
    obtain ⟨fault, hfault⟩ := hfail m
    rw [hfault] at h
    cases h
    exact ⟨hm.down, le_rfl⟩

/-- The level is gone up that was gone down. -/
theorem level_keeps (found : Input) {x : Action Machine α} (hx : base.Keeps given gives x) :
    base.Keeps given gives (do enter found; let a ← x; leave; return a) := by
  constructor
  · intro m a m' hm hgiven h
    rcases level_cases found x m with h' | ⟨b, m₁, hresult, h'⟩ | ⟨fault, m₁, -, h'⟩ <;>
      rw [h'] at h <;> cases h
    obtain ⟨hgrown, hle, hdepth, ha⟩ := hx.ok (s := m.down) hm.down hgiven hresult
    refine ⟨hgrown.moved m₁.rest _, hle, ?_, ha⟩
    show m₁.depth - 1 = m.depth
    rw [hdepth]
    rfl
  · intro m fault m' hm hgiven h
    rcases level_cases found x m with h' | ⟨b, m₁, -, h'⟩ | ⟨fault, m₁, hresult, h'⟩ <;>
      rw [h'] at h <;> cases h
    · exact ⟨hm.down, le_rfl⟩
    · exact hx.error (s := m.down) hm.down hgiven hresult

/-- What each round keeps, rounds keep. -/
theorem iterate_keeps {round : α → Action Machine (Option α)}
    (hround : ∀ a, base.Keeps (gives a ++ given) (fun o => o.elim [] gives) (round a)) (a : α) :
    base.Keeps (gives a ++ given) gives (iterate round a) := by
  have hall : ∀ (m : Machine) (a : α), base.Grown m → base.Holds m (gives a ++ given) →
      (base.Grown (iterate round a m).2 ∧
        m.entries.length ≤ (iterate round a m).2.entries.length) ∧
      ∀ b, (iterate round a m).1 = .ok b →
        (iterate round a m).2.depth = m.depth ∧ base.Holds (iterate round a m).2 (gives b) := by
    intro m a hm ha
    fun_induction iterate round a m with
    | case1 a m fault m' h => exact ⟨(hround a).error hm ha h, nofun⟩
    | case2 a m m' h =>
      obtain ⟨hgrown, hle, hdepth, -⟩ := (hround a).ok hm ha h
      refine ⟨⟨hgrown, hle⟩, fun b hb => ?_⟩
      cases hb
      exact ⟨hdepth, (ha.subset (List.subset_append_left _ _)).mono hle⟩
    | case3 a m b m' h hlt ih =>
      obtain ⟨hgrown, hle, hdepth, hb⟩ := (hround a).ok hm ha h
      have hgiven := (ha.subset (List.subset_append_right _ _)).mono hle
      obtain ⟨⟨hgrown', hle'⟩, hmore⟩ := ih hgrown (hb.append hgiven)
      exact ⟨⟨hgrown', hle.trans hle'⟩, fun c hc => (hmore c hc).imp_left (·.trans hdepth)⟩
    | case4 a m b m' h hlt =>
      obtain ⟨hgrown, hle, hdepth, hb⟩ := (hround a).ok hm ha h
      refine ⟨⟨hgrown, hle⟩, fun c hc => ?_⟩
      cases hc
      exact ⟨hdepth, hb⟩
  constructor
  · intro m b m' hm hgiven h
    obtain ⟨⟨hgrown, hle⟩, hok⟩ := hall m a hm hgiven
    rw [h] at hgrown hle hok
    exact ⟨hgrown, hle, hok b rfl⟩
  · intro m fault m' hm hgiven h
    have hgrown := (hall m a hm hgiven).1
    rwa [h] at hgrown

/-! ## Productions and expressions -/

/-- How operands are read: each is a node that is added. -/
def OperandsKeep (operand : Extent → Action Machine Nat) : Prop :=
  ∀ (base : Machine) (given : List Nat) (extent : Extent),
    base.Keeps given (fun id => [id]) (operand extent)

variable {operand : Extent → Action Machine Nat}

/-- What a call calls and its arguments are among its children. -/
theorem mem_children_of_call? {e : Entry} {function arguments : Nat}
    (h : e.call? = some (function, arguments)) :
    function ∈ e.children ∧ arguments ∈ e.children := by
  unfold Entry.call? at h
  split at h
  case h_1 hchildren =>
    cases h
    simp [hchildren]
  case h_2 => cases h

/-- Taking a call apart takes nothing away but the call, if that was added last. -/
theorem splitCall_grown (hm : base.Grown m) {id : Nat} (hle : base.entries.length ≤ id)
    (hlt : id < m.entries.length) :
    ∃ links m', splitCall id m = (.ok links, m') ∧ base.Grown m' ∧ id ≤ m'.entries.length ∧
      m'.depth = m.depth ∧ base.Holds m' (links.map Prod.snd) := by
  cases hcall : (m.entries[id]?).bind Entry.call? with
  | none => exact ⟨_, _, splitCall_of_none hlt hcall, hm, hlt.le, rfl, .single hle hlt⟩
  | some call =>
    obtain ⟨function, arguments⟩ := call
    rcases eq_or_ne (id + 1) m.entries.length with hlast | hnot
    · obtain ⟨e, hfound, he⟩ := Option.bind_eq_some_iff.1 hcall
      obtain ⟨hfunction, harguments⟩ := mem_children_of_call? he
      have hchildren := hm.children hle hfound
      obtain ⟨more, hmore, hrising⟩ := hm.entries
      have hne : more ≠ [] := by
        rintro rfl
        rw [List.append_nil] at hmore
        rw [hmore] at hlt
        omega
      have hid : id = m.entries.dropLast.length := by
        rw [List.length_dropLast]
        omega
      refine ⟨_, _, splitCall_of_some hcall hlast, ⟨hm.source, hm.options,
        ⟨more.dropLast, ?_, hrising.dropLast⟩, hm.faults, hm.astray⟩, hid.le, rfl, ?_⟩
      · rw [hmore, List.dropLast_append_of_ne_nil hne]
      · show base.Holds _ [function, arguments]
        refine List.forall_mem_cons.2 ⟨?_, List.forall_mem_singleton.2 ?_⟩
        · exact hid ▸ hchildren function hfunction
        · exact hid ▸ hchildren arguments harguments
    · exact ⟨_, _, splitCall_of_ne hlt hnot, hm, hlt.le, rfl, .single hle hlt⟩

/-- What a call statement calls is made of nodes that are added. -/
theorem callee_keeps (ho : OperandsKeep operand) :
    base.Keeps given (List.map Prod.snd) (operand .whole >>= splitCall) := by
  have hoperand : ∀ {m id m₁}, base.Grown m → base.Holds m given →
      operand .whole m = (.ok id, m₁) → base.Grown m₁ ∧ m.entries.length ≤ id ∧
        id < m₁.entries.length ∧ m₁.depth = m.depth := by
    intro m id m₁ hm hgiven h
    obtain ⟨hgrown, -, hdepth, -⟩ := (ho base given .whole).ok hm hgiven h
    -- The operand is behind all that there was, and not only behind what `base` holds.
    obtain ⟨-, -, -, hid⟩ := (ho m [] .whole).ok (.refl m) .nil h
    obtain ⟨hle, hlt⟩ := List.forall_mem_singleton.1 hid
    exact ⟨hgrown, hle, hlt, hdepth⟩
  constructor
  · intro m links m' hm hgiven h
    rcases hresult : operand .whole m with ⟨_ | id, m₁⟩
    · rw [Action.bind_of_error hresult] at h
      cases h
    · obtain ⟨hgrown, hle, hlt, hdepth⟩ := hoperand hm hgiven hresult
      obtain ⟨_, _, hsplit, hgrown', hle', hdepth', hids⟩ :=
        splitCall_grown hgrown (hm.isPrefix.length_le.trans hle) hlt
      rw [Action.bind_of_ok hresult, hsplit] at h
      cases h
      exact ⟨hgrown', hle.trans hle', hdepth'.trans hdepth, hids⟩
  · intro m fault m' hm hgiven h
    rcases hresult : operand .whole m with ⟨_ | id, m₁⟩
    · rw [Action.bind_of_error hresult] at h
      cases h
      exact (ho base given .whole).error hm hgiven hresult
    · obtain ⟨hgrown, hle, hlt, -⟩ := hoperand hm hgiven hresult
      obtain ⟨_, _, hsplit, -⟩ := splitCall_grown hgrown (hm.isPrefix.length_le.trans hle) hlt
      rw [Action.bind_of_ok hresult, hsplit] at h
      cases h

/-- A node that is made of what was read is added. -/
theorem node_part_keeps (field : Option Field) (kind : Kind) {links : List Link}
    (hlinks : links.map Prod.snd ⊆ given) :
    base.Keeps given (List.map Prod.snd) (node kind links >>= fun id => pure [(field, id)]) :=
  (node_keeps kind hlinks).bind fun _ => .pure (by simp)

/-- The parts of a production are read into nodes that are added. -/
theorem parts_keep (ho : OperandsKeep operand) :
    (∀ (p : Part) (base : Machine) (given : List Nat),
      base.Keeps given (List.map Prod.snd) (part operand p)) ∧
    ∀ (ps : List Part) (base : Machine) (given : List Nat),
      base.Keeps given (List.map Prod.snd) (parts operand ps) := by
  refine part.mutual_induct
    (fun p => ∀ (base : Machine) (given : List Nat),
      base.Keeps given (List.map Prod.snd) (part operand p))
    (fun ps => ∀ (base : Machine) (given : List Nat),
      base.Keeps given (List.map Prod.snd) (parts operand ps))
    ?token ?operand ?callee ?node ?enclosed ?named ?choice ?repeated ?refuse ?nil ?cons
  case token =>
    intro t base given
    rw [part]
    exact (terminal_keeps t).bind fun link => .pure (by simp)
  case operand =>
    intro field extent base given
    rw [part]
    exact (ho base given extent).bind fun id => .pure (by simp)
  case callee =>
    intro base given
    rw [part]
    exact callee_keeps ho
  case node =>
    intro field kind ps ih base given
    rw [part]
    exact (ih base given).bind fun links => node_part_keeps field kind (by simp)
  case enclosed =>
    intro field kind opening ps ih base given
    rw [part]
    refine (peek_keeps _).bind fun next => (terminal_keeps opening).bind fun first => ?_
    exact (inside_keeps _ (ih base _)).bind fun links => node_part_keeps field kind (by simp)
  case named =>
    intro field kind key sign value no ihValue ihNo base given
    rw [part]
    refine (attempt_keeps fun base given => keyword_keeps key sign).bind fun trial => ?_
    cases trial with
    | error fault => exact ihNo base _
    | ok links =>
      exact (ihValue base _).bind fun more => node_part_keeps field kind (by simp [tried])
  case choice =>
    intro l yes no hl ihYes ihNo base given
    rw [part]
    · refine (look_keeps l).bind fun found => ?_
      cases found with
      | true => exact ihYes base _
      | false => exact ihNo base _
    · exact hl
  case repeated =>
    intro l ps ih base given
    rw [part]
    -- At first there are no links.
    show base.Keeps (([] : List Link).map Prod.snd ++ given) (List.map Prod.snd) _
    refine iterate_keeps (fun links => ?_) []
    refine (look_keeps l).bind fun found => ?_
    cases found with
    | true => exact (ih base _).bind fun more => .pure (by simp)
    | false => exact .pure (List.nil_subset _)
  case refuse =>
    intro cause base given
    rw [part]
    exact (peek_keeps _).bind fun next => fail_keeps _ _
  case nil =>
    intro base given
    rw [parts]
    exact .pure (List.nil_subset _)
  case cons =>
    intro p ps ih ihs base given
    rw [parts]
    exact (ih base given).bind fun first => (ihs base _).bind fun more => .pure (by simp)

/-- A primary is a node that is added. -/
theorem primary_keeps (ho : OperandsKeep operand) :
    base.Keeps given (fun id => [id]) (primary operand) := by
  refine (peek_keeps _).bind fun t => ?_
  cases Primary.of? t with
  | none => exact fail_keeps _ _
  | some p =>
    cases p with
    | leaf kind => exact (bump_keeps t).bind fun _ => leaf_keeps kind t
    | node kind ps =>
      exact ((parts_keep ho).2 ps base _).bind fun links => node_keeps kind (by simp)

/-- The next tail of an expression makes it a node that is added. -/
theorem tail_keeps (ho : OperandsKeep operand) (extent : Extent) {left : Nat}
    (hleft : left ∈ given) :
    base.Keeps given (fun o => o.elim [] fun id => [id]) (tail operand extent left) := by
  refine (peek_keeps _).bind fun t => ?_
  cases (if Tail.admits extent t then Tail.of? t else none) with
  | none => exact .pure (List.nil_subset _)
  | some tail =>
    refine ((parts_keep ho).2 tail.more base _).bind fun more => ?_
    exact (node_keeps tail.kind (by simp [hleft])).bind fun id => .pure (by simp)

/-- A primary with its tails is a node that is added. -/
theorem extended_keeps (ho : OperandsKeep operand) (extent : Extent) :
    base.Keeps given (fun id => [id]) (extended operand extent) :=
  (primary_keeps ho).bind fun head =>
    iterate_keeps (fun _ => tail_keeps ho extent List.mem_cons_self) head

/-- What is left to read is found out without any change. -/
theorem here_keeps : base.Keeps given (fun _ => []) here :=
  .of_still (fun _ => rfl) fun _ _ _ => List.nil_subset _

/-- An expression is a node that is added, and reading it ends at the level at which it began. -/
theorem expression_keeps (n : Nat) : OperandsKeep (expression n) := by
  induction n with
  | zero =>
    intro base given extent
    rw [expression]
    exact here_keeps.bind fun s => refused_keeps s _
  | succ n ih =>
    intro base given extent
    rw [expression]
    exact here_keeps.bind fun s => level_keeps s (extended_keeps ih extent)

/-! ## Comments -/

/-- The next token is read. -/
theorem next_keeps (mode : Mode) : base.Keeps given (fun _ => []) (next mode) :=
  (peek_keeps mode).bind fun t => (bump_keeps t).bind fun _ => .pure (List.nil_subset _)

/-- A comment that is closed is a node that is added. -/
theorem commentEnd_keeps (opener : Token) {links : List Link} (hlinks : links.map Prod.snd ⊆ given)
    (last : Token) : base.Keeps given (fun id => [id]) (commentEnd opener links last) := by
  unfold commentEnd
  split
  · refine (leaf_keeps _ _).bind fun close => node_keeps _ ?_
    simpa using List.subset_cons_of_subset close hlinks
  · exact fail_keeps _ _

/-- A comment is a node that is added. -/
theorem comment_keeps (opener : Token) : base.Keeps given (fun id => [id]) (comment opener) := by
  refine (leaf_keeps _ _).bind fun first => (next_keeps _).bind fun t => ?_
  split
  · refine (leaf_keeps _ _).bind fun content => (next_keeps _).bind fun last => ?_
    exact commentEnd_keeps opener (by simp) last
  · exact commentEnd_keeps opener (by simp) t

end Machine

/-! ## Items -/

namespace Row

open Machine

variable {base r r' : Row} {α : Type} {given : List Nat} {gives : α → List Nat}
  {operand : Extent → Action Machine Nat}

/-- The row `r` came from `base` by adding nodes that its machine added too. -/
structure Grown (base r : Row) : Prop where
  machine : base.machine.Grown r.machine
  links : ∃ more, r.links = base.links ++ more ∧ base.machine.Holds r.machine (more.map Prod.snd)

/-- What is done to a row that came from `base`. -/
abbrev Keeps (base : Row) (given : List Nat) (gives : α → List Nat) (x : Action Row α) : Prop :=
  Action.Keeps Row.machine base.machine base.Grown given gives x

/-- Nothing is added at first. -/
theorem Grown.refl (r : Row) : r.Grown r :=
  ⟨.refl _, [], (List.append_nil _).symm, .nil⟩

/-- What is added later is added too. -/
theorem Grown.trans (h : base.Grown r) (h' : r.Grown r') : base.Grown r' := by
  obtain ⟨more, hmore, hnew⟩ := h.links
  obtain ⟨more', hmore', hnew'⟩ := h'.links
  refine ⟨h.machine.trans h'.machine, more ++ more', by rw [hmore', hmore, List.append_assoc], ?_⟩
  rw [List.map_append]
  exact (hnew.mono h'.machine.isPrefix.length_le).append fun id hid =>
    (hnew' id hid).imp_left h.machine.isPrefix.length_le.trans

/-- Without what was added the row is as it was. -/
theorem Grown.take (h : base.Grown r) : r.links.take base.links.length = base.links := by
  obtain ⟨more, hmore, -⟩ := h.links
  rw [hmore, List.take_left]

/-- Where the machine adds nodes the row holds those that it held. -/
theorem Grown.lift (h : base.Grown r) {m : Machine} (hm : base.machine.Grown m)
    (hle : r.machine.entries.length ≤ m.entries.length) : base.Grown { r with machine := m } := by
  obtain ⟨more, hmore, hnew⟩ := h.links
  exact ⟨hm, more, hmore, hnew.mono hle⟩

/-- What is done to the machine leaves the row as it is. -/
theorem lift_keeps {x : Action Machine α} (hx : base.machine.Keeps given gives x) :
    base.Keeps given gives (lift x) := by
  constructor
  · intro r a r' hr hgiven h
    simp only [Row.lift, Prod.mk.injEq] at h
    obtain ⟨hresult, rfl⟩ := h
    obtain ⟨hgrown, hle, hdepth, ha⟩ := hx.ok hr.machine hgiven (Prod.ext hresult rfl)
    exact ⟨hr.lift hgrown hle, hle, hdepth, ha⟩
  · intro r fault r' hr hgiven h
    simp only [Row.lift, Prod.mk.injEq] at h
    obtain ⟨hresult, rfl⟩ := h
    obtain ⟨hgrown, hle⟩ := hx.error hr.machine hgiven (Prod.ext hresult rfl)
    exact ⟨hr.lift hgrown hle, hle⟩

/-- Nodes that are held are added to the row. -/
theorem add_keeps {links : List Link} (hlinks : links.map Prod.snd ⊆ given) :
    base.Keeps given (fun _ => []) (add links) := by
  constructor
  · intro r _ r' hr hgiven h
    cases h
    obtain ⟨more, hmore, hnew⟩ := hr.links
    refine ⟨⟨hr.machine, more ++ links, ?_, ?_⟩, le_rfl, rfl, .nil⟩
    · rw [hmore, List.append_assoc]
    · rw [List.map_append]
      exact hnew.append (hgiven.subset hlinks)
  · intro r _ r' _ _ h
    cases h

/-- A node that is read is added to the row. -/
theorem add_single_keeps {x : Action Machine Nat}
    (hx : base.machine.Keeps given (fun id => [id]) x) :
    base.Keeps given (fun _ => []) (lift x >>= fun id => add [(none, id)]) :=
  (lift_keeps hx).bind fun _ => add_keeps (by simp)

/-- The body of a raw block is a node that is added, if it is one. -/
theorem rawBody_keeps (opener : Input) : base.Keeps given (fun _ => []) (rawBody opener) := by
  refine (lift_keeps (next_keeps .raw)).bind fun body => ?_
  split
  · exact lift_keeps (fail_keeps _ _)
  · split
    · exact .pure (List.nil_subset _)
    · exact add_single_keeps (leaf_keeps _ _)

/-- To find out whether nodes begin a raw block the machine looks at places that the arena has. -/
theorem visit_asked {base m : Machine} (hm : base.Grown m) {links : List Link}
    (hlinks : base.Holds m (links.map Prod.snd)) : m.visit (asked m.entries links) = m := by
  refine visit_of_lt (List.forall_mem_append.2 ⟨fun id hid => (hlinks id hid).2, ?_⟩)
  intro id hid
  obtain ⟨link, hlink, hid⟩ := List.mem_flatMap.1 hid
  obtain ⟨hle, hlt⟩ := hlinks link.2 (List.mem_map_of_mem hlink)
  rw [List.getElem?_eq_getElem hlt] at hid
  exact (hm.children hle (List.getElem?_eq_getElem hlt) id hid).2.trans hlt

/-- Whether nodes begin a raw block is found out without any change. -/
theorem opensRaw_keeps {base : Machine} {links : List Link} (hlinks : links.map Prod.snd ⊆ given) :
    base.Keeps given (fun _ => [])
      (fun m => (.ok (opensRaw m.entries links), m.visit (asked m.entries links))) := by
  constructor
  · intro m _ m' hm hgiven h
    rw [visit_asked hm (hgiven.subset hlinks)] at h
    cases h
    exact ⟨hm, le_rfl, rfl, .nil⟩
  · intro m _ m' _ _ h
    cases h

/-- A statement is a node that is added, and so is the body of the raw block that it may begin. -/
theorem statement_keeps (ho : OperandsKeep operand) :
    base.Keeps given (fun _ => []) (statement operand) := by
  refine (lift_keeps here_keeps).bind fun opener =>
    (lift_keeps ((parts_keep ho).1 Part.statement _ _)).bind fun links =>
      (add_keeps (by simp)).bind fun _ => (lift_keeps (opensRaw_keeps (by simp))).bind fun raw => ?_
  split
  · exact rawBody_keeps opener
  · exact .pure (List.nil_subset _)

/-- How an item is added. -/
def ItemKeeps (item : Action Row Unit) : Prop :=
  ∀ (base : Row) (given : List Nat), base.Keeps given (fun _ => []) item

/-- An item is a node that is added, or some. -/
theorem itemOf_keeps (ho : OperandsKeep operand) {element : Token → Action Machine Nat}
    (he : ∀ (base : Machine) (given : List Nat) (t : Token),
      base.Keeps given (fun id => [id]) (element t)) :
    ItemKeeps (itemOf operand element) := by
  intro base given
  refine (lift_keeps (peek_keeps .text)).bind fun t => ?_
  have hbump : base.Keeps given (fun _ => []) (lift (bump t)) := lift_keeps (bump_keeps t)
  split
  · exact hbump.bind fun _ => add_single_keeps (leaf_keeps _ _)
  · exact (lift_keeps ((parts_keep ho).1 _ _ _)).bind fun links => add_keeps (by simp)
  · exact statement_keeps ho
  · exact hbump.bind fun _ => add_single_keeps (comment_keeps _)
  · exact hbump.bind fun _ => add_single_keeps (he _ _ _)
  · exact lift_keeps (fail_keeps _ _)

/-- The row after an error was added to it, and faults were noted. -/
def mark (r : Row) (rest : Input) (noted : List Fault) : Row where
  links := r.links ++ [(none, r.machine.entries.length)]
  machine :=
    { r.machine with
      rest := rest
      entries := r.machine.entries ++
        [⟨none, .error, r.machine.pos, offset r.machine.size rest, []⟩]
      faults := r.machine.faults ++ noted }

/-- An error is a node that is added. -/
theorem mark_grown (r : Row) (rest : Input) (noted : List Fault) : r.Grown (r.mark rest noted) := by
  have hrising : Rising r.machine.entries.length
      [⟨none, .error, r.machine.pos, offset r.machine.size rest, []⟩] := (Rising.nil _).concat nofun
  refine ⟨⟨rfl, rfl, ⟨_, rfl, hrising⟩, List.prefix_append _ _, rfl⟩, _, rfl, ?_⟩
  exact .single le_rfl (by simp [mark])

/-- What becomes of a row after a malformed item: an error is added, the faults are noted, and all
else but the cursor is as it was before the item. -/
theorem giveUp_of_grown (h : r.Grown r') (fault : Fault) :
    ∃ noted, r'.machine.faults = r.machine.faults ++ noted ∧
      giveUp r fault r' =
        r.mark (if r.machine.options.recover then
          Failure.resume r.machine.rest ⟨fault, r'.machine.rest⟩ else []) (noted ++ [fault]) := by
  obtain ⟨noted, hnoted⟩ := h.machine.faults
  refine ⟨noted, hnoted.symm, ?_⟩
  simp only [giveUp, mark, h.take, h.machine.take, Machine.size, h.machine.source,
    h.machine.options, h.machine.astray, ← hnoted, List.append_assoc]

/-- An item of a body is a node that is added, or some, and so is the error that stands for it. -/
theorem bodyItem_keeps {item : Action Row Unit} (hitem : ItemKeeps item) :
    ItemKeeps (bodyItem item) := by
  intro base given
  constructor
  · intro r _ r' hr hgiven h
    unfold bodyItem at h
    split at h
    case isFalse => exact (hitem base given).ok hr hgiven h
    case isTrue =>
      cases h
      unfold itemOrError
      rcases hresult : item r with ⟨fault | _, r'⟩
      · have hgrown := ((hitem r []).error (.refl r) .nil hresult).1
        obtain ⟨noted, -, hrow⟩ := giveUp_of_grown hgrown fault
        dsimp only
        rw [hrow]
        exact ⟨hr.trans (mark_grown _ _ _), by simp [mark], rfl, .nil⟩
      · exact (hitem base given).ok hr hgiven hresult
  · intro r fault r' hr hgiven h
    unfold bodyItem at h
    split at h
    case isFalse => exact (hitem base given).error hr hgiven h
    case isTrue => cases h

/-- The items of a body are nodes that are added. -/
theorem body_keeps {item : Action Row Unit} (hitem : ItemKeeps item) : ItemKeeps (body item) := by
  intro base given
  have hitem := bodyItem_keeps hitem base []
  have hall : ∀ r : Row, base.Grown r → (base.Grown (body item r).2 ∧
      r.machine.entries.length ≤ (body item r).2.machine.entries.length) ∧
      ((body item r).1 = .ok () → (body item r).2.machine.depth = r.machine.depth) := by
    intro r hr
    fun_induction body item r with
    | case1 r h => exact ⟨⟨hr, le_rfl⟩, nofun⟩
    | case2 r h hfooter => exact ⟨⟨hr, le_rfl⟩, fun _ => rfl⟩
    | case3 r h hfooter fault r' hresult => exact ⟨hitem.error hr .nil hresult, nofun⟩
    | case4 r h hfooter r' hresult hlt ih =>
      obtain ⟨hgrown, hle, hdepth, -⟩ := hitem.ok hr .nil hresult
      obtain ⟨⟨hgrown', hle'⟩, hdepth'⟩ := ih hgrown
      exact ⟨⟨hgrown', hle.trans hle'⟩, fun hok => (hdepth' hok).trans hdepth⟩
    | case5 r h hfooter r' hresult hlt =>
      obtain ⟨hgrown, hle, hdepth, -⟩ := hitem.ok hr .nil hresult
      exact ⟨⟨hgrown, hle⟩, fun _ => hdepth⟩
  constructor
  · intro r _ r' hr _ h
    obtain ⟨⟨hgrown, hle⟩, hdepth⟩ := hall r hr
    rw [h] at hgrown hle hdepth
    exact ⟨hgrown, hle, hdepth rfl, .nil⟩
  · intro r fault r' hr _ h
    have hgrown := (hall r hr).1
    rwa [h] at hgrown

end Row

/-! ## Elements -/

namespace Machine

variable {base : Machine} {given : List Nat} {operand : Extent → Action Machine Nat}

/-- Items in a row of their own are nodes that are added, behind those with which the row begins. -/
theorem collect_keeps {links : List Link} (hlinks : links.map Prod.snd ⊆ given)
    {x : Action Row Unit} (hx : Row.ItemKeeps x) :
    base.Keeps given (List.map Prod.snd) (collect links x) := by
  have hrow : ∀ {m : Machine}, base.Grown m → base.Holds m given →
      Row.Grown ⟨[], base⟩ ⟨links, m⟩ := fun hm hgiven => ⟨hm, links, rfl, hgiven.subset hlinks⟩
  constructor
  · intro m all m' hm hgiven h
    rcases hresult : x ⟨links, m⟩ with ⟨fault | _, r⟩
    · simp [collect, hresult, Except.map] at h
    · simp only [collect, hresult, Except.map, Prod.mk.injEq, Except.ok.injEq] at h
      obtain ⟨rfl, rfl⟩ := h
      obtain ⟨⟨hgrown, more, hmore, hnew⟩, hle, hdepth, -⟩ :=
        (hx ⟨[], base⟩ []).ok (hrow hm hgiven) .nil hresult
      refine ⟨hgrown, hle, hdepth, ?_⟩
      rw [hmore]
      exact hnew
  · intro m fault m' hm hgiven h
    rcases hresult : x ⟨links, m⟩ with ⟨fault | _, r⟩
    · simp only [collect, hresult, Except.map, Prod.mk.injEq] at h
      obtain ⟨-, rfl⟩ := h
      exact ((hx ⟨[], base⟩ []).error (hrow hm hgiven) .nil hresult).imp_left Row.Grown.machine
    · simp [collect, hresult, Except.map] at h

/-- An opening tag is made of nodes that are added. -/
theorem openTag_keeps (ho : OperandsKeep operand) (first : Link) (hfirst : first.2 ∈ given) :
    base.Keeps given (fun tag => tag.1.map Prod.snd) (openTag operand first) := by
  refine ((parts_keep ho).2 Markup.header base _).bind fun inner => ?_
  refine (look_keeps _).bind fun closed => ?_
  exact ((parts_keep ho).2 Markup.headerEnd base _).bind fun stop => .pure (by simp [hfirst])

/-- What an element is made of is added. -/
theorem elementNode_keeps (ho : OperandsKeep operand) {items : Action Row Unit}
    (hitems : Row.ItemKeeps items) (opener : Token) :
    base.Keeps given (fun id => [id]) (elementNode operand items opener) := by
  refine (leaf_keeps _ _).bind fun first => inside_keeps _ ?_
  refine (openTag_keeps ho (none, first) List.mem_cons_self).bind fun tag => ?_
  obtain ⟨tag, closed⟩ := tag
  cases closed with
  | true => exact node_keeps _ (List.subset_append_left _ _)
  | false =>
    exact (collect_keeps (List.subset_append_left _ _) hitems).bind fun links =>
      ((parts_keep ho).2 Markup.footer base _).bind fun closing => node_keeps _ (by simp)

/-- An element is a node that is added, and reading it ends at the level at which it began. -/
theorem element_keeps (ho : OperandsKeep operand) {items : Action Row Unit}
    (hitems : Row.ItemKeeps items) (opener : Token) :
    base.Keeps given (fun id => [id]) (element operand items opener) :=
  level_keeps _ (elementNode_keeps ho hitems opener)

end Machine

/-- Adding an item adds nodes alone, and ends at the level at which it began. -/
theorem Row.item_keeps (n : Nat) : Row.ItemKeeps (Row.item n) := by
  induction n with
  | zero =>
    exact itemOf_keeps (Machine.expression_keeps 0) fun base given t => Machine.refused_keeps _ _
  | succ n ih =>
    exact itemOf_keeps (Machine.expression_keeps (n + 1)) fun base given t =>
      Machine.element_keeps (Machine.expression_keeps n) (body_keeps ih) t

end Stencil
