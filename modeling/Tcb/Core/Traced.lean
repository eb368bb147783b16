import Tcb.Core.Run

/-!
# Programs that call the outside

Each call of a program is a step, and what the outside answers may depend on
every step before it.  The steps stand in a list with the newest in front, so
that what is behind a step is the history in which it was made.

A property of histories is shown for a program by going through it once: at
each call the step has to be as it should be, under a condition on the answers
that may be asked of the whole run.
-/

namespace Tcb

/-- A program: the history that it makes of the one before it, and its end. -/
structure Traced (ω ε α : Type) where
  exec : List ω → List ω × Run ε α
  suffix : ∀ h, h <:+ (exec h).1

namespace Traced

variable {ω ε α β : Type}

def bind (first : Traced ω ε α) (next : α → Traced ω ε β) : Traced ω ε β where
  exec h :=
    match first.exec h with
    | (h', .ok value) => (next value).exec h'
    | (h', .error stop) => (h', .error stop)
  suffix h := by
    have hfirst := first.suffix h
    split
    · rename_i h' value heq
      rw [heq] at hfirst
      exact hfirst.trans ((next value).suffix h')
    · rename_i h' stop heq
      rwa [heq] at hfirst

instance : Monad (Traced ω ε) where
  pure value := ⟨fun h => (h, .ok value), fun _ => List.suffix_rfl⟩
  bind := bind

/-- The end of the program. -/
def stop (reason : Run.Stop ε) : Traced ω ε α :=
  ⟨fun h => (h, .error reason), fun _ => List.suffix_rfl⟩

/-- A call whose effect is only defined in some histories and for some
answers. -/
def perform (defined : List ω → α → Prop) [∀ h answer, Decidable (defined h answer)]
    (answer : List ω → α) (step : α → ω) : Traced ω ε α where
  exec h :=
    (step (answer h) :: h,
      if defined h (answer h) then .ok (answer h) else .error (.fault .outOfBounds))
  suffix h := List.suffix_cons _ h

def call (answer : List ω → α) (step : α → ω) : Traced ω ε α :=
  perform (fun _ _ => True) answer step

/-- A step that has no answer. -/
def emit (step : ω) : Traced ω ε Unit := call (fun _ => ()) fun _ => step

theorem exec_bind (first : Traced ω ε α) (next : α → Traced ω ε β) (h : List ω) :
    (first >>= next).exec h =
      match first.exec h with
      | (h', .ok value) => (next value).exec h'
      | (h', .error stop) => (h', .error stop) := rfl

theorem exec_perform {defined : List ω → α → Prop} [∀ h answer, Decidable (defined h answer)]
    (answer : List ω → α) (step : α → ω) (h : List ω) :
    ((perform defined answer step : Traced ω ε α).exec h) =
      (step (answer h) :: h,
        if defined h (answer h) then .ok (answer h) else .error (.fault .outOfBounds)) := rfl

/-! ## Properties of every step -/

/-- Each step is as it should be in the history in which it was made. -/
def Always (ok : List ω → ω → Prop) : List ω → Prop
  | [] => True
  | step :: h => ok h step ∧ Always ok h

section Always

variable {ok : List ω → ω → Prop} {h h' : List ω} {step : ω}

@[simp]
theorem always_nil : Always ok ([] : List ω) := trivial

@[simp]
theorem always_cons : Always ok (step :: h) ↔ ok h step ∧ Always ok h := Iff.rfl

instance decidableAlways [∀ h step, Decidable (ok h step)] : DecidablePred (Always ok)
  | [] => isTrue trivial
  | _ :: h => @instDecidableAnd _ _ _ (decidableAlways h)

theorem Always.of_suffix (halways : Always ok h') (hsuffix : h <:+ h') : Always ok h := by
  obtain ⟨newer, rfl⟩ := hsuffix
  induction newer with
  | nil => exact halways
  | cons step newer ih => exact ih halways.2

/-- What holds of each step by itself. -/
theorem always_of_forall_mem {kind : ω → Prop} (hall : ∀ step ∈ h, kind step) :
    Always (fun _ => kind) h := by
  induction h with
  | nil => trivial
  | cons step h ih =>
      have hrest : ∀ other ∈ h, kind other := fun other hother =>
        hall other (List.mem_cons_of_mem step hother)
      exact ⟨hall step List.mem_cons_self, ih hrest⟩

end Always

/-! ## Going through a program -/

/-- When the steps of the run are fine, each of them is as it should be, and
what is asked of a return holds. -/
def Ensures (fine ok : List ω → ω → Prop) (prog : Traced ω ε α) (post : α → List ω → Prop)
    (h : List ω) : Prop :=
  Always ok h → Always fine (prog.exec h).1 →
    Always ok (prog.exec h).1 ∧
      ∀ value, (prog.exec h).2 = .ok value → post value (prog.exec h).1

section Ensures

variable {fine ok : List ω → ω → Prop} {h : List ω} {post post' : α → List ω → Prop}

theorem ensures_pure {value : α} (hpost : post value h) :
    Ensures fine ok (pure value : Traced ω ε α) post h := by
  intro halways _
  refine ⟨halways, fun result hresult => ?_⟩
  obtain rfl : value = result := Except.ok.inj hresult
  exact hpost

theorem ensures_stop (reason : Run.Stop ε) : Ensures fine ok (stop reason) post h :=
  fun halways _ => ⟨halways, fun _ hresult => nomatch hresult⟩

theorem ensures_bind {first : Traced ω ε α} {next : α → Traced ω ε β}
    {post : β → List ω → Prop}
    (hfirst : Ensures fine ok first (fun value => Ensures fine ok (next value) post) h) :
    Ensures fine ok (first >>= next) post h := by
  intro halways hfine
  rw [exec_bind] at hfine ⊢
  rw [Ensures] at hfirst
  rcases heq : first.exec h with ⟨h', stop | value⟩
  · rw [heq] at hfirst hfine
    exact ⟨(hfirst halways hfine).1, fun _ hresult => nomatch hresult⟩
  · rw [heq] at hfirst hfine
    obtain ⟨halways', hnext⟩ := hfirst halways (hfine.of_suffix ((next value).suffix h'))
    exact hnext value rfl halways' hfine

theorem ensures_perform {defined : List ω → α → Prop} [∀ h answer, Decidable (defined h answer)]
    {answer : List ω → α} {step : α → ω}
    (hstep : fine h (step (answer h)) → ok h (step (answer h)) ∧
      (defined h (answer h) → post (answer h) (step (answer h) :: h))) :
    Ensures fine ok (perform defined answer step : Traced ω ε α) post h := by
  intro halways hfine
  obtain ⟨hok, hpost⟩ := hstep hfine.1
  refine ⟨⟨hok, halways⟩, fun value hvalue => ?_⟩
  have hresult : (if defined h (answer h) then Except.ok (answer h)
      else .error (.fault .outOfBounds) : Run ε α) = .ok value := hvalue
  by_cases hdefined : defined h (answer h)
  · rw [if_pos hdefined, Except.ok.injEq] at hresult
    exact hresult ▸ hpost hdefined
  · rw [if_neg hdefined] at hresult
    exact nomatch hresult

theorem ensures_call {answer : List ω → α} {step : α → ω}
    (hstep : fine h (step (answer h)) → ok h (step (answer h)) ∧
      post (answer h) (step (answer h) :: h)) :
    Ensures fine ok (call answer step : Traced ω ε α) post h :=
  ensures_perform fun hfine => (hstep hfine).imp_right fun hpost _ => hpost

theorem ensures_emit {step : ω} {post : Unit → List ω → Prop}
    (hstep : fine h step → ok h step ∧ post () (step :: h)) :
    Ensures fine ok (emit step : Traced ω ε Unit) post h :=
  ensures_call hstep

theorem Ensures.mono {prog : Traced ω ε α} (hprog : Ensures fine ok prog post h)
    (himp : ∀ value h', h <:+ h' → post value h' → post' value h') :
    Ensures fine ok prog post' h := by
  intro halways hfine
  obtain ⟨halways', hpost⟩ := hprog halways hfine
  exact ⟨halways', fun value hvalue => himp value _ (prog.suffix h) (hpost value hvalue)⟩

theorem always_and {ok' : List ω → ω → Prop} :
    Always (fun h step => ok h step ∧ ok' h step) h ↔ Always ok h ∧ Always ok' h := by
  induction h with
  | nil => exact ⟨fun _ => ⟨trivial, trivial⟩, fun _ => trivial⟩
  | cons step h ih =>
      rw [always_cons, always_cons, always_cons, ih]
      exact and_and_and_comm

/-- What two goings through a program have shown. -/
theorem Ensures.and {prog : Traced ω ε α} {ok' : List ω → ω → Prop}
    (hleft : Ensures fine ok prog post h) (hright : Ensures fine ok' prog post' h) :
    Ensures fine (fun h step => ok h step ∧ ok' h step) prog
      (fun value h' => post value h' ∧ post' value h') h := by
  intro halways hfine
  obtain ⟨hok, hok'⟩ := always_and.mp halways
  obtain ⟨hsteps, hpost⟩ := hleft hok hfine
  obtain ⟨hsteps', hpost'⟩ := hright hok' hfine
  exact ⟨always_and.mpr ⟨hsteps, hsteps'⟩,
    fun value hvalue => ⟨hpost value hvalue, hpost' value hvalue⟩⟩

/-- A program in front of others that need what it leaves. -/
theorem Ensures.bind {first : Traced ω ε α} {next : α → Traced ω ε β}
    {post' : β → List ω → Prop} (hfirst : Ensures fine ok first post h)
    (hnext : ∀ value h', h <:+ h' → post value h' → Ensures fine ok (next value) post' h') :
    Ensures fine ok (first >>= next) post' h :=
  ensures_bind (hfirst.mono hnext)

/-- What holds in front of each item of a loop holds behind the loop. -/
theorem ensures_forM {body : β → Traced ω ε Unit} {invariant : List ω → Prop} {items : List β}
    (hbody : ∀ item ∈ items, ∀ h, invariant h →
      Ensures fine ok (body item) (fun _ => invariant) h) (hstart : invariant h) :
    Ensures fine ok (items.forM body) (fun _ => invariant) h := by
  induction items generalizing h with
  | nil => exact ensures_pure hstart
  | cons item items ih =>
      have hfirst := hbody item List.mem_cons_self h hstart
      apply Ensures.bind hfirst
      intro _ h' _ hinvariant
      exact ih (fun other hother => hbody other (List.mem_cons_of_mem _ hother)) hinvariant

/-- What a run from the beginning does. -/
theorem Ensures.run {prog : Traced ω ε α} (hprog : Ensures fine ok prog post [])
    (hfine : Always fine (prog.exec []).1) :
    Always ok (prog.exec []).1 ∧
      ∀ value, (prog.exec []).2 = .ok value → post value (prog.exec []).1 :=
  hprog trivial hfine

end Ensures

/-! ## Why a program stops -/

/-- When the program does not return, its history says why. -/
def Stops (cause : Run.Stop ε → List ω → Prop) (prog : Traced ω ε α) (h : List ω) : Prop :=
  ∀ reason, (prog.exec h).2 = .error reason → cause reason (prog.exec h).1

section Stops

variable {cause : Run.Stop ε → List ω → Prop} {h : List ω}

theorem stops_pure (value : α) : Stops cause (pure value : Traced ω ε α) h :=
  fun _ hstop => nomatch hstop

theorem stops_stop {reason : Run.Stop ε} (hcause : cause reason h) :
    Stops cause (stop reason : Traced ω ε α) h := by
  intro other hother
  obtain rfl : reason = other := Except.error.inj hother
  exact hcause

theorem Stops.bind {first : Traced ω ε α} {next : α → Traced ω ε β}
    (hfirst : Stops cause first h) (hnext : ∀ value h', Stops cause (next value) h') :
    Stops cause (first >>= next) h := by
  intro reason hstop
  rw [exec_bind] at hstop ⊢
  rw [Stops] at hfirst
  rcases heq : first.exec h with ⟨h', stop | value⟩
  · rw [heq] at hfirst hstop
    obtain rfl : stop = reason := Except.error.inj hstop
    exact hfirst stop rfl
  · rw [heq] at hstop
    exact hnext value h' reason hstop

theorem stops_perform {defined : List ω → α → Prop} [∀ h answer, Decidable (defined h answer)]
    {answer : List ω → α} {step : α → ω}
    (hstep : ¬ defined h (answer h) → cause (.fault .outOfBounds) (step (answer h) :: h)) :
    Stops cause (perform defined answer step : Traced ω ε α) h := by
  intro reason hstop
  rw [exec_perform] at hstop ⊢
  by_cases hdefined : defined h (answer h)
  · rw [if_pos hdefined] at hstop
    exact nomatch hstop
  · rw [if_neg hdefined, Except.error.injEq] at hstop
    exact hstop ▸ hstep hdefined

theorem stops_call {answer : List ω → α} {step : α → ω} :
    Stops cause (call answer step : Traced ω ε α) h :=
  stops_perform fun hdefined => absurd trivial hdefined

theorem stops_emit (step : ω) : Stops cause (emit step : Traced ω ε Unit) h :=
  stops_call

theorem stops_forM {body : β → Traced ω ε Unit} {items : List β}
    (hbody : ∀ item h, Stops cause (body item) h) : Stops cause (items.forM body) h := by
  induction items generalizing h with
  | nil => exact stops_pure ()
  | cons item items ih => exact (hbody item h).bind fun _ _ => ih

end Stops

/-! ## Programs with steps of one kind -/

/-- Every step that the program adds is of the kind. -/
def Only (kind : ω → Prop) (prog : Traced ω ε α) : Prop :=
  ∀ h, ∃ newer, (prog.exec h).1 = newer ++ h ∧ ∀ step ∈ newer, kind step

section Only

variable {kind : ω → Prop} {fine ok : List ω → ω → Prop} {h : List ω}

theorem only_pure (value : α) : Only kind (pure value : Traced ω ε α) :=
  fun _ => ⟨[], rfl, fun _ hmem => nomatch hmem⟩

theorem only_stop (reason : Run.Stop ε) : Only kind (stop reason : Traced ω ε α) :=
  fun _ => ⟨[], rfl, fun _ hmem => nomatch hmem⟩

theorem only_perform {defined : List ω → α → Prop} [∀ h answer, Decidable (defined h answer)]
    {answer : List ω → α} {step : α → ω} (hkind : ∀ value, kind (step value)) :
    Only kind (perform defined answer step : Traced ω ε α) :=
  fun h => ⟨[step (answer h)], rfl, by simp [hkind]⟩

theorem only_call {answer : List ω → α} {step : α → ω} (hkind : ∀ value, kind (step value)) :
    Only kind (call answer step : Traced ω ε α) :=
  only_perform hkind

theorem only_emit {step : ω} (hkind : kind step) : Only kind (emit step : Traced ω ε Unit) :=
  only_call fun _ => hkind

theorem only_bind {first : Traced ω ε α} {next : α → Traced ω ε β} (hfirst : Only kind first)
    (hnext : ∀ value, Only kind (next value)) : Only kind (first >>= next) := by
  intro h
  obtain ⟨newer, hnewer, hkind⟩ := hfirst h
  rw [exec_bind]
  rcases heq : first.exec h with ⟨h', stop | value⟩
  · rw [heq] at hnewer
    exact ⟨newer, hnewer, hkind⟩
  · obtain ⟨newest, hnewest, hkind'⟩ := hnext value h'
    rw [heq] at hnewer
    refine ⟨newest ++ newer, ?_, ?_⟩
    · calc ((next value).exec h').1 = newest ++ h' := hnewest
        _ = newest ++ (newer ++ h) := by rw [← hnewer]
        _ = newest ++ newer ++ h := (List.append_assoc _ _ _).symm
    · intro step hstep
      exact (List.mem_append.mp hstep).elim (hkind' step) (hkind step)

/-- What steps of the kind keep is kept by a program that makes no others. -/
theorem ensures_of_only {prog : Traced ω ε α} {invariant : List ω → Prop} (honly : Only kind prog)
    (hkeep : ∀ h step, kind step → invariant h → fine h step →
      ok h step ∧ invariant (step :: h))
    (hstart : invariant h) : Ensures fine ok prog (fun _ => invariant) h := by
  intro halways hfine
  obtain ⟨newer, hnewer, hkind⟩ := honly h
  rw [hnewer] at hfine ⊢
  suffices hall : Always ok (newer ++ h) ∧ invariant (newer ++ h) from
    ⟨hall.1, fun _ _ => hall.2⟩
  clear hnewer
  induction newer with
  | nil => exact ⟨halways, hstart⟩
  | cons step newer ih =>
      obtain ⟨halways', hinvariant⟩ :=
        ih hfine.2 fun other hother => hkind other (List.mem_cons_of_mem _ hother)
      obtain ⟨hok, hnext⟩ := hkeep _ step (hkind step List.mem_cons_self) hinvariant hfine.1
      exact ⟨⟨hok, halways'⟩, hnext⟩

end Only

/-! ## Ending like another run -/

/-- Both runs stop for one reason, or both return and what they return is
related. -/
def Alike (related : α → β → Prop) : Run ε α → Run ε β → Prop
  | .ok left, .ok right => related left right
  | .error stop, .error stop' => stop = stop'
  | _, _ => False

/-- The program ends like the run, in the history that it leaves. -/
def Follows (prog : Traced ω ε α) (run : Run ε β) (post : α → β → List ω → Prop)
    (h : List ω) : Prop :=
  Alike (fun left right => post left right (prog.exec h).1) (prog.exec h).2 run

section Follows

variable {γ δ : Type} {run : Run ε β} {post : α → β → List ω → Prop} {h : List ω}

theorem follows_pure {left : α} {right : β} (hpost : post left right h) :
    Follows (pure left : Traced ω ε α) (.ok right) post h := hpost

theorem follows_pure_bind {value : γ} {next : γ → Traced ω ε α}
    (hnext : Follows (next value) run post h) : Follows (pure value >>= next) run post h := hnext

theorem follows_stop (reason : Run.Stop ε) :
    Follows (stop reason : Traced ω ε α) (.error reason) post h := rfl

theorem Follows.bind {first : Traced ω ε α} {next : α → Traced ω ε γ} {next' : β → Run ε δ}
    {post' : γ → δ → List ω → Prop} (hfirst : Follows first run post h)
    (hnext : ∀ left right h', post left right h' → Follows (next left) (next' right) post' h') :
    Follows (first >>= next) (run >>= next') post' h := by
  rw [Follows] at hfirst ⊢
  rw [exec_bind]
  rcases heq : first.exec h with ⟨h', stop | left⟩
  · rw [heq] at hfirst
    cases run with
    | ok right => exact hfirst.elim
    | error stop' => exact hfirst
  · rw [heq] at hfirst
    cases run with
    | ok right => exact hnext left right h' hfirst
    | error stop' => exact hfirst.elim

/-- The other run goes on with its result. -/
theorem Follows.map {prog : Traced ω ε α} {give : β → δ} {post' : α → δ → List ω → Prop}
    (hprog : Follows prog run post h)
    (hpost : ∀ left right h', post left right h' → post' left (give right) h') :
    Follows prog (run >>= fun right => .ok (give right)) post' h := by
  rw [Follows, Alike.eq_def] at hprog ⊢
  cases hresult : (prog.exec h).2 with
  | ok left =>
      rw [hresult] at hprog
      cases run with
      | ok right => exact hpost left right _ hprog
      | error stop => exact hprog.elim
  | error stop =>
      rw [hresult] at hprog
      cases run with
      | ok right => exact hprog.elim
      | error stop' => exact hprog

/-- A part that the other run does not have. -/
theorem Follows.skip {first : Traced ω ε γ} {next : γ → Traced ω ε α}
    {skipped : γ → List ω → Prop}
    (hfirst : Follows first (.ok () : Run ε Unit) (fun value _ h' => skipped value h') h)
    (hnext : ∀ value h', skipped value h' → Follows (next value) run post h') :
    Follows (first >>= next) run post h := by
  have hrun : run = ((.ok () : Run ε Unit) >>= fun _ => run) := rfl
  rw [hrun]
  exact hfirst.bind fun value _ h' hskipped => hnext value h' hskipped

/-- A part that stops for the reason of the other run. -/
theorem Follows.stops {first : Traced ω ε γ} {next : γ → Traced ω ε α} {reason : Run.Stop ε}
    {skipped : γ → Unit → List ω → Prop}
    (hfirst : Follows first (.error reason : Run ε Unit) skipped h) :
    Follows (first >>= next) (.error reason : Run ε β) post h := by
  rw [Follows, Alike.eq_def] at hfirst
  rw [Follows, exec_bind]
  rcases heq : first.exec h with ⟨h', stop | value⟩
  · rw [heq] at hfirst
    exact hfirst
  · rw [heq] at hfirst
    exact hfirst.elim

/-- A call that the other run does not make. -/
theorem follows_perform_bind {defined : List ω → γ → Prop}
    [∀ h answer, Decidable (defined h answer)] {answer : List ω → γ} {step : γ → ω}
    {next : γ → Traced ω ε α} (hdefined : defined h (answer h))
    (hnext : Follows (next (answer h)) run post (step (answer h) :: h)) :
    Follows (perform defined answer step >>= next) run post h := by
  rw [Follows, exec_bind, exec_perform, if_pos hdefined]
  exact hnext

theorem follows_perform_fault {defined : List ω → γ → Prop}
    [∀ h answer, Decidable (defined h answer)] {answer : List ω → γ} {step : γ → ω}
    {next : γ → Traced ω ε α} (hundefined : ¬ defined h (answer h)) :
    Follows (perform defined answer step >>= next) (Run.fault .outOfBounds : Run ε β) post h := by
  rw [Follows, exec_bind, exec_perform, if_neg hundefined]
  rfl

theorem follows_call_bind {answer : List ω → γ} {step : γ → ω} {next : γ → Traced ω ε α}
    (hnext : Follows (next (answer h)) run post (step (answer h) :: h)) :
    Follows (call answer step >>= next) run post h :=
  follows_perform_bind trivial hnext

theorem follows_emit_bind {step : ω} {next : Unit → Traced ω ε α}
    (hnext : Follows (next ()) run post (step :: h)) :
    Follows (emit step >>= next) run post h := by
  rw [emit]
  exact follows_call_bind hnext

theorem follows_emit {step : ω} {right : β} {post : Unit → β → List ω → Prop}
    (hpost : post () right (step :: h)) :
    Follows (emit step : Traced ω ε Unit) (.ok right) post h := hpost

/-- A call that succeeds or fails like one that gives a result or an error. -/
theorem follows_isOk {result : Except γ δ} {answer : List ω → Bool} {step : Bool → ω}
    {next : Bool → Traced ω ε α} (hanswer : answer h = result.isOk)
    (hok : ∀ value, result = .ok value → Follows (next true) run post (step true :: h))
    (herror : ∀ code, result = .error code → Follows (next false) run post (step false :: h)) :
    Follows (call answer step >>= next) run post h := by
  apply follows_call_bind
  rw [hanswer]
  cases hresult : result with
  | ok value => exact hok value hresult
  | error code => exact herror code hresult

/-- A call that gives a handle where the other run has the value itself. -/
theorem follows_option {found : Option γ} {handle : γ → δ} {answer : List ω → Option δ}
    {step : Option δ → ω} {next : Option δ → Traced ω ε α}
    (hanswer : answer h = found.map handle)
    (hsome : ∀ value, found = some value →
      Follows (next (some (handle value))) run post (step (some (handle value)) :: h))
    (hnone : found = none → Follows (next none) run post (step none :: h)) :
    Follows (call answer step >>= next) run post h := by
  apply follows_call_bind
  rw [hanswer]
  cases hfound : found with
  | some value => exact hsome value hfound
  | none => exact hnone hfound

theorem follows_toOption {μ : Type} {result : Except γ δ} {handle : δ → μ}
    {answer : List ω → Option μ} {step : Option μ → ω} {next : Option μ → Traced ω ε α}
    (hanswer : answer h = result.toOption.map handle)
    (hok : ∀ value, result = .ok value →
      Follows (next (some (handle value))) run post (step (some (handle value)) :: h))
    (herror : ∀ code, result = .error code → Follows (next none) run post (step none :: h)) :
    Follows (call answer step >>= next) run post h := by
  apply follows_call_bind
  rw [hanswer]
  cases hresult : result with
  | ok value => exact hok value hresult
  | error code => exact herror code hresult

/-- Two loops, one of which keeps a state. -/
theorem follows_forM {body : γ → Traced ω ε Unit} {step : δ → γ → Run ε δ}
    {invariant : δ → List ω → Prop} {items : List γ} {start : δ}
    (hbody : ∀ item ∈ items, ∀ state h, invariant state h →
      Follows (body item) (step state item) (fun _ => invariant) h)
    (hstart : invariant start h) :
    Follows (items.forM body) (items.foldlM step start) (fun _ => invariant) h := by
  induction items generalizing start h with
  | nil => exact follows_pure hstart
  | cons item items ih =>
      have hfirst := hbody item List.mem_cons_self start h hstart
      rw [List.foldlM_cons]
      apply hfirst.bind
      intro _ state h' hinvariant
      exact ih (fun other hother => hbody other (List.mem_cons_of_mem _ hother)) hinvariant

end Follows

/-! ## Programs inside others -/

section Inside

variable {ω' : Type} {wrap : ω → ω'} {view : List ω' → List ω}

/-- A program the steps of which are steps of another one; it sees only its
own. -/
def inside (wrap : ω → ω') (view : List ω' → List ω) (prog : Traced ω ε α) : Traced ω' ε α where
  exec h :=
    (((prog.exec (view h)).1.take ((prog.exec (view h)).1.length - (view h).length)).map wrap ++ h,
      (prog.exec (view h)).2)
  suffix h := List.suffix_append _ h

theorem exec_inside (wrap : ω → ω') (prog : Traced ω ε α) (h : List ω') :
    ∃ newer, (prog.exec (view h)).1 = newer ++ view h ∧
      (inside wrap view prog).exec h = (newer.map wrap ++ h, (prog.exec (view h)).2) := by
  obtain ⟨newer, hnewer⟩ := prog.suffix (view h)
  refine ⟨newer, hnewer.symm, ?_⟩
  have hlength : (newer ++ view h).length - (view h).length = newer.length := by
    rw [List.length_append, Nat.add_sub_cancel]
  have hsteps : ((inside wrap view prog).exec h).1 =
      ((prog.exec (view h)).1.take ((prog.exec (view h)).1.length - (view h).length)).map wrap ++
        h := rfl
  apply Prod.ext
  · rw [hsteps, ← hnewer, hlength, List.take_left']
    rfl
  · rfl

theorem view_map_append (hview : ∀ step h, view (wrap step :: h) = step :: view h)
    (newer : List ω) (h : List ω') : view (newer.map wrap ++ h) = newer ++ view h := by
  induction newer with
  | nil => rfl
  | cons step newer ih => rw [List.map_cons, List.cons_append, hview, ih, List.cons_append]

/-- What is shown of a program by itself holds of it inside of another one, in a
phase that its steps do not end. -/
theorem ensures_inside {fine ok : List ω → ω → Prop} {fine' ok' : List ω' → ω' → Prop}
    {prog : Traced ω ε α} {post : α → List ω → Prop} {h : List ω'} (phase : List ω' → Prop)
    (hview : ∀ step h, view (wrap step :: h) = step :: view h)
    (hphase : ∀ step h, phase h → phase (wrap step :: h))
    (hfine : ∀ step h, fine' h (wrap step) → fine (view h) step)
    (hok : ∀ step h, phase h → ok (view h) step → ok' h (wrap step))
    (hprog : Ensures fine ok prog post (view h)) (hbegun : phase h)
    (hfineView : Always fine (view h)) (hokView : Always ok (view h)) :
    Ensures fine' ok' (inside wrap view prog) (fun value h' => phase h' ∧ post value (view h'))
      h := by
  intro halways halways'
  obtain ⟨newer, hnewer, hexec⟩ := exec_inside wrap prog h
  rw [hexec] at halways' ⊢
  have hinner : Always fine (newer ++ view h) := by
    clear hnewer hexec
    induction newer with
    | nil => exact hfineView
    | cons step newer ih =>
        have hstep : fine (view (newer.map wrap ++ h)) step := hfine step _ halways'.1
        rw [view_map_append hview] at hstep
        exact ⟨hstep, ih halways'.2⟩
  obtain ⟨hsteps, hpost⟩ := hprog hokView (hnewer ▸ hinner)
  rw [hnewer] at hsteps hpost
  have hall : Always ok' (newer.map wrap ++ h) ∧ phase (newer.map wrap ++ h) := by
    clear hnewer hexec hinner halways' hpost
    induction newer with
    | nil => exact ⟨halways, hbegun⟩
    | cons step newer ih =>
        obtain ⟨hrest, hreached⟩ := ih hsteps.2
        have hstep : ok (newer ++ view h) step := hsteps.1
        rw [← view_map_append hview] at hstep
        exact ⟨⟨hok step _ hreached hstep, hrest⟩, hphase step _ hreached⟩
  refine ⟨hall.1, fun value hvalue => ⟨hall.2, ?_⟩⟩
  rw [view_map_append hview]
  exact hpost value hvalue

end Inside

end Traced

end Tcb
