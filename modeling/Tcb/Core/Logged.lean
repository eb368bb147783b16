import Tcb.Core.Run

/-!
# Runs with a log

A program reports what it does while it runs, and what it has reported stays
when it stops.  The log stands beside the run, not in its result, so that a
property of the reports can be asked of runs that give up as well.
-/

namespace Tcb

/-- A run and what it reported. -/
structure Logged (ω ε α : Type) where
  log : List ω
  run : Run ε α

namespace Logged

variable {ω ε α β σ : Type}

def bind (first : Logged ω ε α) (next : α → Logged ω ε β) : Logged ω ε β :=
  match first.run with
  | .ok value => ⟨first.log ++ (next value).log, (next value).run⟩
  | .error stop => ⟨first.log, .error stop⟩

instance : Monad (Logged ω ε) where
  pure value := ⟨[], .ok value⟩
  bind := bind

def report (entry : ω) : Logged ω ε Unit := ⟨[entry], .ok ()⟩

/-- A run that reports nothing. -/
def quiet (run : Run ε α) : Logged ω ε α := ⟨[], run⟩

/-- None of the reports is a bad one. -/
def Clean (bad : ω → Prop) (logged : Logged ω ε α) : Prop :=
  ∀ entry ∈ logged.log, ¬ bad entry

section Steps

variable {first : Logged ω ε α} {next : α → Logged ω ε β} {bad : ω → Prop}

@[simp]
theorem run_pure (value : α) : (pure value : Logged ω ε α).run = .ok value := rfl

@[simp]
theorem log_pure (value : α) : (pure value : Logged ω ε α).log = [] := rfl

@[simp]
theorem run_report (entry : ω) : (report entry : Logged ω ε Unit).run = .ok () := rfl

@[simp]
theorem log_report (entry : ω) : (report entry : Logged ω ε Unit).log = [entry] := rfl

@[simp]
theorem run_quiet (run : Run ε α) : (quiet run : Logged ω ε α).run = run := rfl

@[simp]
theorem log_quiet (run : Run ε α) : (quiet run : Logged ω ε α).log = [] := rfl

@[simp]
theorem quiet_ok (value : α) : (quiet (.ok value) : Logged ω ε α) = pure value := rfl

theorem bind_of_ok {value : α} (hfirst : first.run = .ok value) :
    first >>= next = ⟨first.log ++ (next value).log, (next value).run⟩ := by
  change bind first next = _
  rw [bind, hfirst]

@[simp]
theorem run_report_bind (entry : ω) (next : Unit → Logged ω ε β) :
    (report entry >>= next).run = (next ()).run := rfl

theorem run_bind (first : Logged ω ε α) (next : α → Logged ω ε β) :
    (first >>= next).run = first.run >>= fun value => (next value).run := by
  change (bind first next).run = _
  rw [bind]
  cases first.run <;> rfl

theorem bind_of_error {stop : Run.Stop ε} (hfirst : first.run = .error stop) :
    first >>= next = ⟨first.log, .error stop⟩ := by
  change bind first next = _
  rw [bind, hfirst]

@[simp]
theorem pure_bind (value : α) (next : α → Logged ω ε β) : pure value >>= next = next value := rfl

@[simp]
theorem run_bind_eq_ok {result : β} :
    (first >>= next).run = .ok result ↔
      ∃ value, first.run = .ok value ∧ (next value).run = .ok result := by
  cases hfirst : first.run with
  | ok value => simp [bind_of_ok hfirst]
  | error stop => simp [bind_of_error hfirst]

theorem mem_log_bind {entry : ω} :
    entry ∈ (first >>= next).log ↔
      entry ∈ first.log ∨ ∃ value, first.run = .ok value ∧ entry ∈ (next value).log := by
  cases hfirst : first.run with
  | ok value => simp [bind_of_ok hfirst]
  | error stop => simp [bind_of_error hfirst]

theorem clean_bind :
    Clean bad (first >>= next) ↔
      Clean bad first ∧ ∀ value, first.run = .ok value → Clean bad (next value) := by
  simp only [Clean, mem_log_bind]
  constructor
  · exact fun hclean => ⟨fun entry hentry => hclean entry (.inl hentry),
      fun value hvalue entry hentry => hclean entry (.inr ⟨value, hvalue, hentry⟩)⟩
  · rintro ⟨hfirst, hnext⟩ entry (hentry | ⟨value, hvalue, hentry⟩)
    · exact hfirst entry hentry
    · exact hnext value hvalue entry hentry

@[simp]
theorem clean_pure (value : α) : Clean bad (pure value : Logged ω ε α) := by
  simp [Clean]

@[simp]
theorem clean_quiet (run : Run ε α) : Clean bad (quiet run : Logged ω ε α) := by
  simp [Clean]

@[simp]
theorem clean_report {entry : ω} :
    Clean bad (report entry : Logged ω ε Unit) ↔ ¬ bad entry := by
  simp [Clean]

end Steps

/-! ## Loops -/

section Loops

variable {step : σ → α → Logged ω ε σ} {bad : ω → Prop} {items : List α} {start final : σ}

theorem run_foldlM : (items.foldlM step start).run =
    items.foldlM (fun state item => (step state item).run) start := by
  induction items generalizing start with
  | nil => rfl
  | cons item items ih =>
      rw [List.foldlM_cons, List.foldlM_cons, run_bind]
      congr 1
      funext state
      exact ih

/-- A property of the items that are done and the state holds when a loop over
them returns. -/
theorem foldlM_invariant (invariant : List α → σ → Prop)
    (hrun : (items.foldlM step start).run = .ok final)
    (hclean : Clean bad (items.foldlM step start)) (hstart : invariant [] start)
    (hstep : ∀ before item after state next, items = before ++ item :: after →
      invariant before state → (step state item).run = .ok next →
        Clean bad (step state item) → invariant (before ++ [item]) next) :
    invariant items final := by
  suffices hgeneral : ∀ before after state, items = before ++ after → invariant before state →
      (after.foldlM step state).run = .ok final → Clean bad (after.foldlM step state) →
        invariant items final by
    exact hgeneral [] items start rfl hstart hrun hclean
  intro before after
  induction after generalizing before with
  | nil =>
      intro state hitems hstate hrun _
      rw [List.foldlM_nil, run_pure, Except.ok.injEq] at hrun
      rw [List.append_nil] at hitems
      rwa [← hrun, hitems]
  | cons item after ih =>
      intro state hitems hstate hrun hclean
      rw [List.foldlM_cons] at hrun hclean
      obtain ⟨next, hhead, hrest⟩ := run_bind_eq_ok.mp hrun
      obtain ⟨hcleanHead, hcleanRest⟩ := clean_bind.mp hclean
      have hnext := hstep before item after state next hitems hstate hhead hcleanHead
      exact ih (before ++ [item]) next (by rw [hitems, List.append_assoc]; rfl) hnext hrest
        (hcleanRest next hhead)

/-- A loop returns when every step returns from a state with the property. -/
theorem foldlM_returns (invariant : List α → σ → Prop)
    (hclean : Clean bad (items.foldlM step start)) (hstart : invariant [] start)
    (hstep : ∀ before item after state, items = before ++ item :: after →
      invariant before state → Clean bad (step state item) →
        ∃ next, (step state item).run = .ok next ∧ invariant (before ++ [item]) next) :
    ∃ final, (items.foldlM step start).run = .ok final := by
  suffices hgeneral : ∀ before after state, items = before ++ after → invariant before state →
      Clean bad (after.foldlM step state) → ∃ final, (after.foldlM step state).run = .ok final by
    exact hgeneral [] items start rfl hstart hclean
  intro before after
  induction after generalizing before with
  | nil => exact fun state _ _ _ => ⟨state, rfl⟩
  | cons item after ih =>
      intro state hitems hstate hclean
      rw [List.foldlM_cons] at hclean ⊢
      obtain ⟨hcleanHead, hcleanRest⟩ := clean_bind.mp hclean
      obtain ⟨next, hhead, hnext⟩ := hstep before item after state hitems hstate hcleanHead
      obtain ⟨final, hfinal⟩ := ih (before ++ [item]) next
        (by rw [hitems, List.append_assoc]; rfl) hnext (hcleanRest next hhead)
      exact ⟨final, run_bind_eq_ok.mpr ⟨next, hhead, hfinal⟩⟩

theorem clean_foldlM (hstep : ∀ state, ∀ item ∈ items, Clean bad (step state item)) :
    Clean bad (items.foldlM step start) := by
  induction items generalizing start with
  | nil => exact clean_pure start
  | cons item items ih =>
      rw [List.foldlM_cons]
      exact clean_bind.mpr ⟨hstep start item List.mem_cons_self, fun next _ =>
        ih fun state other hother => hstep state other (List.mem_cons_of_mem _ hother)⟩

/-- A clean loop whose steps report nothing else is a return. -/
theorem foldlM_pure (invariant : List α → σ → Prop)
    (hclean : Clean bad (items.foldlM step start)) (hstart : invariant [] start)
    (hstep : ∀ before item after state, items = before ++ item :: after →
      invariant before state → Clean bad (step state item) →
        ∃ next, step state item = pure next ∧ invariant (before ++ [item]) next) :
    ∃ final, items.foldlM step start = pure final ∧ invariant items final := by
  suffices hgeneral : ∀ before after state, items = before ++ after → invariant before state →
      Clean bad (after.foldlM step state) →
        ∃ final, after.foldlM step state = pure final ∧ invariant items final by
    exact hgeneral [] items start rfl hstart hclean
  intro before after
  induction after generalizing before with
  | nil =>
      intro state hitems hstate _
      rw [List.append_nil] at hitems
      exact ⟨state, rfl, hitems ▸ hstate⟩
  | cons item after ih =>
      intro state hitems hstate hclean
      rw [List.foldlM_cons] at hclean ⊢
      obtain ⟨next, hhead, hnext⟩ :=
        hstep before item after state hitems hstate (clean_bind.mp hclean).1
      rw [hhead, pure_bind] at hclean ⊢
      exact ih (before ++ [item]) next (by rw [hitems, List.append_assoc]; rfl) hnext hclean

end Loops

end Logged

end Tcb
