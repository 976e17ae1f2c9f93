import Stencil.Proofs.Restart

/-!
# Stopping a reader

A reader that may be told to stop looks at a flag whenever it is about to read a top-level item. The
flag may be up from the beginning, or it goes up when a certain record of the journal is written,
which may be in the middle of an item; once it is up, it stays up (`Flag.write`). `Template.Ends` is
the loop of such a reader, one item after the other. A reader that is not stopped takes the steps
that every reader takes (`Ends.of_done`), and one that is stopped has taken some of them, as far as
an item before which the flag is up (`Ends.of_cancelled`).
-/

namespace Stencil.Template

/-- The flag by which a reader is told to stop. -/
structure Flag where
  /-- The number of records that were written. -/
  written : Nat
  /-- Whether the flag is up. -/
  up : Bool

/-- The flag when one more record is written. -/
def Flag.write (signal : Signal) (flag : Flag) (_ : Event) : Flag :=
  ⟨flag.written + 1, flag.up || signal.after = some (flag.written + 1)⟩

/-- The flag when the records of some events are written, one after the other. -/
def Signal.flag (signal : Signal) (events : List Event) : Flag :=
  events.foldl (Flag.write signal) ⟨0, signal.raised⟩

/-- The flag when some steps are taken. -/
def Signal.flagAfter (signal : Signal) (done : List Step) : Flag :=
  signal.flag (done.flatMap Step.events)

/-- How reading goes on with what is left of `source` when some steps are taken, and what its
outcome is. -/
inductive Ends (options : Options) (signal : Signal) (source : Input) :
    List Step → Input → Outcome → Prop
  | finished (done : List Step) : Ends options signal source done [] (.done (ofSteps source done))
  | stopped {done : List Step} {s : Input} (hs : s ≠ [])
    (hup : (signal.flagAfter done).up = true) :
    Ends options signal source done s (.cancelled (ofSteps source done).records)
  | item {done : List Step} {s : Input} {outcome : Outcome} (hs : s ≠ [])
    (hup : (signal.flagAfter done).up = false)
    (h : Ends options signal source (done ++ [step options s]) (step options s).rest outcome) :
    Ends options signal source done s outcome

/-! ## The flag -/

namespace Signal

variable {signal : Signal}

/-- The flag is up from the beginning, or since some record was written. -/
theorem isUp_iff {written : Nat} : signal.isUp written = true ↔
    signal.raised = true ∨ ∃ n, signal.after = some n ∧ 0 < n ∧ n ≤ written := by
  cases hafter : signal.after <;> simp [isUp, hafter]

/-- One more record puts the flag up if the flag waits for it. -/
theorem isUp_succ (signal : Signal) (written : Nat) : signal.isUp (written + 1) =
    (signal.isUp written || decide (signal.after = some (written + 1))) := by
  rw [Bool.eq_iff_iff, Bool.or_eq_true, decide_eq_true_eq, isUp_iff, isUp_iff, or_assoc]
  refine or_congr_right ⟨?_, ?_⟩
  · rintro ⟨n, hn, hpos, hle⟩
    rcases Nat.lt_or_eq_of_le hle with hlt | rfl
    · exact .inl ⟨n, hn, hpos, Nat.le_of_lt_succ hlt⟩
    · exact .inr hn
  · rintro (⟨n, hn, hpos, hle⟩ | hn)
    · exact ⟨n, hn, hpos, by omega⟩
    · exact ⟨written + 1, hn, Nat.succ_pos _, Nat.le_refl _⟩

/-- What was written tells whether the flag is up. -/
theorem flag_eq (signal : Signal) (events : List Event) :
    signal.flag events = ⟨events.length, signal.isUp events.length⟩ := by
  induction events using List.reverseRecOn with
  | nil =>
    have hzero : signal.isUp 0 = signal.raised := by
      rw [Bool.eq_iff_iff, isUp_iff, or_iff_left]
      rintro ⟨n, -, hpos, hle⟩
      omega
    rw [List.length_nil, hzero]
    rfl
  | append_singleton events e ih =>
    rw [flag, List.foldl_append, ← flag, ih, List.length_append, List.length_singleton, isUp_succ]
    rfl

/-- Once the flag is up, it stays up. -/
theorem flagAfter_mono {done : List Step} (h : (signal.flagAfter done).up = true)
    (more : List Step) : (signal.flagAfter (done ++ more)).up = true := by
  rw [flagAfter, flag_eq] at h ⊢
  rw [isUp_iff] at h ⊢
  refine h.imp_right ?_
  rintro ⟨n, hn, hpos, hle⟩
  refine ⟨n, hn, hpos, hle.trans ?_⟩
  rw [List.flatMap_append, List.length_append]
  exact Nat.le_add_right _ _

end Signal

/-! ## The loop -/

namespace Ends

variable {options : Options} {signal : Signal} {source s : Input} {done more : List Step}
  {outcome : Outcome}

/-- Reading ends in one way. -/
theorem unique {outcome' : Outcome} (h : Ends options signal source done s outcome)
    (h' : Ends options signal source done s outcome') : outcome = outcome' := by
  induction h with
  | finished =>
    cases h' with
    | finished => rfl
    | stopped hs => exact absurd rfl hs
    | item hs => exact absurd rfl hs
  | stopped hs hup =>
    cases h' with
    | finished => exact absurd rfl hs
    | stopped => rfl
    | item _ hdown => exact absurd (hup.symm.trans hdown) (by decide)
  | item hs hdown _ ih =>
    cases h' with
    | finished => exact absurd rfl hs
    | stopped _ hup => exact absurd (hup.symm.trans hdown) (by decide)
    | item _ _ h' => exact ih h'

/-- A reader that is not stopped takes all steps, and the flag is not up before any of them. -/
theorem of_done {p : Parse} (h : Ends options signal source done s (.done p)) :
    p = ofSteps source (done ++ steps options s) ∧ ∀ more rest, Taken options s more rest →
      rest ≠ [] → (signal.flagAfter (done ++ more)).up = false := by
  generalize hdone : Outcome.done p = outcome at h
  induction h with
  | finished done =>
    cases hdone
    refine ⟨by rw [steps_nil, List.append_nil], fun more rest htaken hrest => ?_⟩
    cases htaken with
    | nil => exact absurd rfl hrest
    | cons hs => exact absurd rfl hs
  | stopped => cases hdone
  | @item done s _ hs hdown _ ih =>
    obtain ⟨hp, hmore⟩ := ih hdone
    rw [List.append_assoc, List.singleton_append, ← steps_eq_cons options hs] at hp
    refine ⟨hp, fun more rest htaken hrest => ?_⟩
    cases htaken with
    | nil => rwa [List.append_nil]
    | @cons _ more _ _ htaken =>
      have hlater := hmore more rest htaken hrest
      rwa [List.append_assoc, List.singleton_append] at hlater

/-- A reader that is stopped has taken some steps, and the flag is up before the next one. -/
theorem of_cancelled {records : List Record}
    (h : Ends options signal source done s (.cancelled records)) :
    ∃ more rest, Taken options s more rest ∧ rest ≠ [] ∧
      (signal.flagAfter (done ++ more)).up = true ∧
      records = (ofSteps source (done ++ more)).records := by
  generalize hcancelled : Outcome.cancelled records = outcome at h
  induction h with
  | finished => cases hcancelled
  | @stopped done s hs hup =>
    cases hcancelled
    rw [← List.append_nil done] at hup
    exact ⟨[], s, .nil s, hs, hup, by rw [List.append_nil]⟩
  | @item done s _ hs _ _ ih =>
    obtain ⟨more, rest, htaken, hrest, hup, hrecords⟩ := ih hcancelled
    rw [List.append_assoc, List.singleton_append] at hup hrecords
    exact ⟨_, rest, .cons hs htaken, hrest, hup, hrecords⟩

/-- A reader is not stopped if the flag is not up before its last item. -/
theorem exists_of_last {rest : Input} (h : Ends options signal source done s outcome)
    (htaken : Taken options s more rest) (hrest : rest ≠ [])
    (hdown : (signal.flagAfter (done ++ more)).up = false)
    (hlast : (step options rest).rest = []) : ∃ p, outcome = .done p := by
  induction htaken generalizing done with
  | nil =>
    rw [List.append_nil] at hdown
    cases h with
    | finished => exact absurd rfl hrest
    | stopped _ hup => exact absurd (hup.symm.trans hdown) (by decide)
    | item _ _ h =>
      rw [hlast] at h
      cases h with
      | finished => exact ⟨_, rfl⟩
      | stopped hs => exact absurd rfl hs
      | item hs => exact absurd rfl hs
  | cons hs _ ih =>
    cases h with
    | finished => exact absurd rfl hs
    | stopped _ hup =>
      exact absurd ((Signal.flagAfter_mono hup _).symm.trans hdown) (by decide)
    | item _ _ h =>
      rw [← List.singleton_append, ← List.append_assoc] at hdown
      exact ih h hrest hdown hlast

/-- Looking at the number of records that were written is going through the loop. -/
theorem of_takeUntil (options : Options) (signal : Signal) (source : Input) (done : List Step)
    (s : Input) :
    let taken := takeUntil signal (done.flatMap Step.events).length (steps options s)
    Ends options signal source done s <|
      if taken.2 then .cancelled (ofSteps source (done ++ taken.1)).records
      else .done (ofSteps source (done ++ taken.1)) := by
  induction s using steps_induction options generalizing done with
  | nil =>
    rw [steps_nil]
    simpa [takeUntil] using Ends.finished done
  | cons s hs ih =>
    have hup : (signal.flagAfter done).up = signal.isUp (done.flatMap Step.events).length := by
      rw [Signal.flagAfter, Signal.flag_eq]
    rw [steps_eq_cons options hs, takeUntil]
    cases hflag : signal.isUp (done.flatMap Step.events).length with
    | true => simpa [hflag] using Ends.stopped hs (hup.trans hflag)
    | false =>
      have hmore := ih (done ++ [step options s])
      refine .item hs (hup.trans hflag) ?_
      simpa [hflag] using hmore

/-- A reader that may be stopped goes through the loop. -/
theorem iff_parseUntil (options : Options) (signal : Signal) (source : Input) (outcome : Outcome) :
    Ends options signal source [] source outcome ↔ outcome = parseUntil options signal source := by
  have h := of_takeUntil options signal source [] source
  simp only [List.nil_append] at h
  constructor
  · exact fun h' => h'.unique h
  · rintro rfl
    exact h

end Ends

/-- The journal of some steps is the beginning of the journal of all. -/
theorem Taken.records_prefix {options : Options} {s rest : Input} {done : List Step}
    (h : Taken options s done rest) : (ofSteps s done).records <+: (parse options s).records := by
  rw [parse, h.steps_eq]
  simp only [ofSteps, List.flatMap_append, List.map_append]
  exact List.prefix_append _ _

/-- Stopping a reader is all or nothing. The reader runs through the loop. It reads what every other
reader reads, or it is stopped, and then its journal is a beginning of theirs; and it is stopped if
and only if the flag is up before some item. So it is not stopped if the flag goes up in the last
item only. -/
theorem parseUntil_all_or_nothing (options : Options) (signal : Signal) (source : Input) :
    (∀ outcome, Ends options signal source [] source outcome ↔
      outcome = parseUntil options signal source) ∧
    (parseUntil options signal source = .done (parse options source) ∨
      ∃ records, parseUntil options signal source = .cancelled records ∧
        records <+: (parse options source).records) ∧
    ((∃ records, parseUntil options signal source = .cancelled records) ↔
      ∃ done rest, Taken options source done rest ∧ rest ≠ [] ∧
        (signal.flagAfter done).up = true) ∧
    ∀ done rest, Taken options source done rest → rest ≠ [] → (step options rest).rest = [] →
      (signal.flagAfter done).up = false →
      parseUntil options signal source = .done (parse options source) := by
  have hends := (Ends.iff_parseUntil options signal source _).2 rfl
  refine ⟨Ends.iff_parseUntil options signal source, ?_, ⟨?_, ?_⟩, ?_⟩
  · cases houtcome : parseUntil options signal source with
    | done p =>
      rw [houtcome] at hends
      exact .inl (congrArg Outcome.done hends.of_done.1)
    | cancelled records =>
      rw [houtcome] at hends
      obtain ⟨done, rest, htaken, -, -, rfl⟩ := hends.of_cancelled
      exact .inr ⟨_, rfl, htaken.records_prefix⟩
  · rintro ⟨records, houtcome⟩
    rw [houtcome] at hends
    obtain ⟨done, rest, htaken, hrest, hup, -⟩ := hends.of_cancelled
    exact ⟨done, rest, htaken, hrest, hup⟩
  · rintro ⟨done, rest, htaken, hrest, hup⟩
    cases houtcome : parseUntil options signal source with
    | done p =>
      rw [houtcome] at hends
      exact absurd (hup.symm.trans (hends.of_done.2 done rest htaken hrest)) (by decide)
    | cancelled records => exact ⟨records, rfl⟩
  · intro done rest htaken hrest hlast hdown
    obtain ⟨p, houtcome⟩ := hends.exists_of_last htaken hrest hdown hlast
    rw [houtcome] at hends ⊢
    exact congrArg Outcome.done hends.of_done.1

end Stencil.Template
