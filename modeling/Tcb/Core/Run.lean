import Mathlib.Data.List.Basic
import Mathlib.Tactic

/-!
# Runs of a C program that may stop early

A modelled C function either returns, ends the process with `exit`, or does
something the language gives no meaning to (an access outside an object, a
signed overflow).  A loop that the source does not bound carries fuel in the
model, and running out of it is a fourth outcome of its own, so that "the
function returns" is never confused with "the model stopped looking".
-/

namespace Tcb.Run

/-- What the language leaves undefined in the modelled functions. -/
inductive Fault
  | outOfBounds
  | nullPointer
  | overflow
  deriving DecidableEq, Repr

/-- How a run ends without returning. -/
inductive Stop (ε : Type)
  | exit (reason : ε)
  | fault (kind : Fault)
  | outOfFuel
  deriving DecidableEq, Repr

end Tcb.Run

namespace Tcb

/-- A run that returns a value or stops. -/
abbrev Run (ε α : Type) := Except (Run.Stop ε) α

namespace Run

variable {ε α β σ : Type}

/-- `exit` with the reason that selects the message. -/
def exit (reason : ε) : Run ε α := .error (.exit reason)

def fault (kind : Fault) : Run ε α := .error (.fault kind)

def outOfFuel : Run ε α := .error .outOfFuel

/-- Go on only inside the bounds of the object. -/
def require (inside : Prop) [Decidable inside] : Run ε Unit :=
  if inside then .ok () else fault .outOfBounds

/-- The run returns: it neither exits, nor faults, nor is cut off. -/
def Returns (run : Run ε α) : Prop := ∃ value, run = .ok value

instance (run : Run ε α) : Decidable (Returns run) :=
  match run with
  | .ok value => isTrue ⟨value, rfl⟩
  | .error _ => isFalse fun ⟨_, hreturns⟩ => nomatch hreturns

/-- The run reaches its end, by a return, an `exit` or a fault, within the
fuel it was given. -/
def Ends (run : Run ε α) : Prop := run ≠ outOfFuel

/-! ## Taking runs apart -/

@[simp]
theorem pure_eq_ok (value : α) : (pure value : Run ε α) = .ok value := rfl

@[simp]
theorem ok_bind (value : α) (next : α → Run ε β) :
    ((.ok value : Run ε α) >>= next) = next value := rfl

@[simp]
theorem error_bind (stop : Stop ε) (next : α → Run ε β) :
    ((.error stop : Run ε α) >>= next) = .error stop := rfl

@[simp]
theorem bind_ok (run : Run ε α) : (run >>= fun value => .ok value) = run := by
  cases run <;> rfl

@[simp]
theorem fault_ne_ok (kind : Fault) (value : α) :
    (fault kind : Run ε α) ≠ .ok value := by
  simp [fault]

@[simp]
theorem exit_ne_ok (reason : ε) (value : α) :
    (exit reason : Run ε α) ≠ .ok value := by
  simp [exit]

@[simp]
theorem outOfFuel_ne_ok (value : α) :
    (outOfFuel : Run ε α) ≠ .ok value := by
  simp [outOfFuel]

@[simp]
theorem fault_bind (kind : Fault) (next : α → Run ε β) :
    ((fault kind : Run ε α) >>= next) = fault kind := rfl

@[simp]
theorem exit_bind (reason : ε) (next : α → Run ε β) :
    ((exit reason : Run ε α) >>= next) = exit reason := rfl

@[simp]
theorem outOfFuel_bind (next : α → Run ε β) :
    ((outOfFuel : Run ε α) >>= next) = outOfFuel := rfl

theorem bind_eq_ok {run : Run ε α} {next : α → Run ε β} {value : β} :
    (run >>= next) = .ok value ↔
      ∃ middle, run = .ok middle ∧ next middle = .ok value := by
  cases run with
  | error stop => simp
  | ok middle => simp

theorem map_eq_ok {run : Run ε α} {f : α → β} {value : β} :
    (f <$> run) = .ok value ↔ ∃ middle, run = .ok middle ∧ f middle = value := by
  cases run with
  | error stop => simp [Functor.map, Except.map]
  | ok middle => simp [Functor.map, Except.map]

@[simp]
theorem map_ok (f : α → β) (value : α) :
    (f <$> (.ok value : Run ε α)) = .ok (f value) := rfl

@[simp]
theorem require_eq_ok {inside : Prop} [Decidable inside] {value : Unit} :
    (require inside : Run ε Unit) = .ok value ↔ inside := by
  by_cases h : inside <;> simp [require, h]

theorem require_bind_eq_ok {inside : Prop} [Decidable inside]
    {next : Unit → Run ε β} {value : β} :
    (require inside >>= next) = .ok value ↔ inside ∧ next () = .ok value := by
  by_cases h : inside <;> simp [require, h]

theorem require_pos {inside : Prop} [Decidable inside] (h : inside) :
    (require inside : Run ε Unit) = .ok () := if_pos h

theorem require_neg {inside : Prop} [Decidable inside] (h : ¬ inside) :
    (require inside : Run ε Unit) = fault .outOfBounds := if_neg h

@[simp]
theorem ends_ok (value : α) : Ends (.ok value : Run ε α) := by
  simp [Ends, outOfFuel]

@[simp]
theorem ends_fault (kind : Fault) : Ends (fault kind : Run ε α) := by
  simp [Ends, outOfFuel, fault]

@[simp]
theorem ends_exit (reason : ε) : Ends (exit reason : Run ε α) := by
  simp [Ends, outOfFuel, exit]

@[simp]
theorem ends_require (inside : Prop) [Decidable inside] :
    Ends (require inside : Run ε Unit) := by
  by_cases h : inside <;> simp [require, h]

/-- A sequence ends when its first part does and its second part does after
every value the first part can return. -/
theorem ends_bind {run : Run ε α} {next : α → Run ε β} (hrun : Ends run)
    (hnext : ∀ value, run = .ok value → Ends (next value)) :
    Ends (run >>= next) := by
  cases run with
  | error stop =>
      simp only [Ends, outOfFuel, ne_eq, error_bind] at hrun ⊢
      exact fun h => hrun (by simpa using h)
  | ok value => exact hnext value rfl

/-! ## Loops over a list -/

/-- Invariant rule: what holds initially and is preserved by every iteration
that returns, holds when the loop returns. -/
theorem foldlM_invariant (invariant : σ → Prop) {body : σ → α → Run ε σ}
    {items : List α} {start final : σ}
    (hrun : items.foldlM body start = .ok final) (hstart : invariant start)
    (hstep : ∀ state item next, item ∈ items → invariant state →
      body state item = .ok next → invariant next) :
    invariant final := by
  induction items generalizing start with
  | nil =>
      simp only [List.foldlM_nil, pure_eq_ok, Except.ok.injEq] at hrun
      exact hrun ▸ hstart
  | cons item rest ih =>
      rw [List.foldlM_cons, bind_eq_ok] at hrun
      obtain ⟨middle, hbody, hrest⟩ := hrun
      refine ih hrest (hstep start item middle (by simp) hstart hbody) ?_
      intro state other next hmem
      exact hstep state other next (by simp [hmem])

/-- Total-correctness rule: a loop whose body ends from every state that
satisfies the invariant ends. -/
theorem ends_foldlM (invariant : σ → Prop) {body : σ → α → Run ε σ}
    {items : List α} {start : σ} (hstart : invariant start)
    (hends : ∀ state item, item ∈ items → invariant state →
      Ends (body state item))
    (hstep : ∀ state item next, item ∈ items → invariant state →
      body state item = .ok next → invariant next) :
    Ends (items.foldlM body start) := by
  induction items generalizing start with
  | nil => simp
  | cons item rest ih =>
      rw [List.foldlM_cons]
      refine ends_bind (hends start item (by simp) hstart) ?_
      intro middle hbody
      refine ih (hstep start item middle (by simp) hstart hbody) ?_ ?_
      · intro state other hmem
        exact hends state other (by simp [hmem])
      · intro state other next hmem
        exact hstep state other next (by simp [hmem])

/-- Invariant rule for an invariant that speaks about the items done so far. -/
theorem foldlM_done (invariant : List α → σ → Prop) {body : σ → α → Run ε σ}
    {items : List α} {start final : σ}
    (hrun : items.foldlM body start = .ok final) (hstart : invariant [] start)
    (hstep : ∀ before item after state next, items = before ++ item :: after →
      invariant before state → body state item = .ok next →
        invariant (before ++ [item]) next) :
    invariant items final := by
  induction items using List.reverseRecOn generalizing final with
  | nil =>
      simp only [List.foldlM_nil, pure_eq_ok, Except.ok.injEq] at hrun
      exact hrun ▸ hstart
  | append_singleton items last ih =>
      rw [List.foldlM_append, bind_eq_ok] at hrun
      obtain ⟨middle, hfront, hlast⟩ := hrun
      have hmiddle : invariant items middle := by
        apply ih hfront
        intro before item after state next hsplit
        exact hstep before item (after ++ [last]) state next (by simp [hsplit])
      refine hstep items last [] middle final (by simp) hmiddle ?_
      simpa using hlast

/-- A loop every iteration of which appends what belongs to its item to a log
appends it for all items. -/
theorem foldlM_log {γ : Type} (log : σ → List γ) {emit : α → List γ}
    {body : σ → α → Run ε σ} {items : List α} {start final : σ}
    (hrun : items.foldlM body start = .ok final)
    (hstep : ∀ state item next, item ∈ items → body state item = .ok next →
      log next = log state ++ emit item) :
    log final = log start ++ items.flatMap emit := by
  apply foldlM_done (fun before state => log state = log start ++ before.flatMap emit)
    hrun (by simp)
  intro before item after state next hsplit hstate hbody
  rw [hstep state item next (by simp [hsplit]) hbody, hstate]
  simp

/-- In a loop that returns, the body has returned for every item. -/
theorem foldlM_ok_of_mem {body : σ → α → Run ε σ} {items : List α} {start final : σ}
    (hrun : items.foldlM body start = .ok final) {item : α} (hmem : item ∈ items) :
    ∃ state next, body state item = .ok next := by
  obtain ⟨before, after, rfl⟩ := List.append_of_mem hmem
  rw [List.foldlM_append, bind_eq_ok] at hrun
  obtain ⟨state, -, hrest⟩ := hrun
  rw [List.foldlM_cons, bind_eq_ok] at hrest
  obtain ⟨next, hbody, -⟩ := hrest
  exact ⟨state, next, hbody⟩

/-- Total-correctness rule: a loop whose body returns from every state that
satisfies the invariant, and re-establishes it, returns. -/
theorem foldlM_returns (invariant : σ → Prop) {body : σ → α → Run ε σ}
    {items : List α} {start : σ} (hstart : invariant start)
    (hstep : ∀ state item, item ∈ items → invariant state →
      ∃ next, body state item = .ok next ∧ invariant next) :
    ∃ final, items.foldlM body start = .ok final ∧ invariant final := by
  induction items generalizing start with
  | nil => exact ⟨start, rfl, hstart⟩
  | cons item rest ih =>
      obtain ⟨middle, hbody, hmiddle⟩ := hstep start item (by simp) hstart
      rw [List.foldlM_cons, hbody, ok_bind]
      exact ih hmiddle fun state other hmem => hstep state other (by simp [hmem])

/-- The same rule with an invariant over the items that are done. -/
theorem foldlM_returns_done (invariant : List α → σ → Prop) {body : σ → α → Run ε σ}
    {items : List α} {start : σ} (hstart : invariant [] start)
    (hstep : ∀ before item after state, items = before ++ item :: after → invariant before state →
      ∃ next, body state item = .ok next ∧ invariant (before ++ [item]) next) :
    ∃ final, items.foldlM body start = .ok final ∧ invariant items final := by
  induction items generalizing start invariant with
  | nil => exact ⟨start, rfl, hstart⟩
  | cons item rest ih =>
      obtain ⟨middle, hbody, hmiddle⟩ := hstep [] item rest start rfl hstart
      rw [List.foldlM_cons, hbody, ok_bind]
      apply ih (fun done => invariant (item :: done)) hmiddle
      intro before other after state hrest hstate
      exact hstep (item :: before) other after state (congrArg (item :: ·) hrest) hstate

/-- A loop that returns is simulated by another one, whose body reaches the
same states. -/
theorem foldlM_simulates (invariant : σ → Prop) {body other : σ → α → Run ε σ}
    {items : List α} {start final : σ}
    (hrun : items.foldlM body start = .ok final) (hstart : invariant start)
    (hstep : ∀ state item next, item ∈ items → invariant state →
      body state item = .ok next →
        invariant next ∧ other state item = .ok next) :
    items.foldlM other start = .ok final := by
  induction items generalizing start with
  | nil => simpa using hrun
  | cons item rest ih =>
      rw [List.foldlM_cons, bind_eq_ok] at hrun
      obtain ⟨middle, hbody, hrest⟩ := hrun
      obtain ⟨hmiddle, hother⟩ := hstep start item middle (by simp) hstart hbody
      rw [List.foldlM_cons, hother, ok_bind]
      exact ih hrest hmiddle fun state item next hmem =>
        hstep state item next (by simp [hmem])

/-- Items that the body passes over can be left out. -/
theorem foldlM_filter (keep : α → Bool) {body : σ → α → Run ε σ} {items : List α}
    {start : σ} (hskip : ∀ state item, item ∈ items → keep item = false →
      body state item = .ok state) :
    items.foldlM body start = (items.filter keep).foldlM body start := by
  induction items generalizing start with
  | nil => rfl
  | cons item rest ih =>
      have hrest : ∀ state other, other ∈ rest → keep other = false →
          body state other = .ok state :=
        fun state other hmem => hskip state other (by simp [hmem])
      by_cases hkeep : keep item = true
      · rw [List.filter_cons_of_pos hkeep, List.foldlM_cons, List.foldlM_cons]
        congr 1
        funext middle
        exact ih hrest
      · rw [List.filter_cons_of_neg hkeep, List.foldlM_cons,
          hskip start item (by simp) (by simpa using hkeep), ok_bind]
        exact ih hrest

/-- A loop over a concatenation of lists is a loop over loops. -/
theorem foldlM_flatMap {γ : Type} {body : σ → α → Run ε σ}
    {items : List γ} {expand : γ → List α} {start : σ} :
    (items.flatMap expand).foldlM body start =
      items.foldlM (fun state item => (expand item).foldlM body state) start := by
  induction items generalizing start with
  | nil => rfl
  | cons item rest ih =>
      rw [List.flatMap_cons, List.foldlM_append, List.foldlM_cons]
      congr 1
      funext middle
      exact ih

end Run

end Tcb
