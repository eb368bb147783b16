import Tcb.Core.Traced

/-!
# Programs that return

Whatever the outside answers, each call is as it should be and the program
returns.
-/

namespace Tcb.Traced

variable {ω ε α β : Type}

/-- What the history says. -/
def inspect (read : List ω → α) : Traced ω ε α :=
  ⟨fun h => (h, .ok (read h)), fun _ => List.suffix_rfl⟩

/-- Each step of the program is as it should be, and it returns with what is
asked of its result. -/
def Does (ok : List ω → ω → Prop) (prog : Traced ω ε α) (post : α → List ω → Prop)
    (h : List ω) : Prop :=
  Always ok h → Always ok (prog.exec h).1 ∧
    ∃ value, (prog.exec h).2 = .ok value ∧ post value (prog.exec h).1

section Does

variable {ok : List ω → ω → Prop} {h : List ω} {post post' : α → List ω → Prop}

theorem does_pure {value : α} (hpost : post value h) :
    Does ok (pure value : Traced ω ε α) post h :=
  fun halways => ⟨halways, value, rfl, hpost⟩

theorem does_inspect {read : List ω → α} (hpost : post (read h) h) :
    Does ok (inspect read : Traced ω ε α) post h :=
  fun halways => ⟨halways, read h, rfl, hpost⟩

theorem does_bind {first : Traced ω ε α} {next : α → Traced ω ε β} {post : β → List ω → Prop}
    (hfirst : Does ok first (fun value => Does ok (next value) post) h) :
    Does ok (first >>= next) post h := by
  intro halways
  obtain ⟨halways', value, hvalue, hnext⟩ := hfirst halways
  rw [exec_bind]
  rcases heq : first.exec h with ⟨h', stop | value'⟩
  · rw [heq] at hvalue
    exact nomatch hvalue
  · rw [heq] at hvalue halways' hnext
    obtain rfl : value' = value := Except.ok.inj hvalue
    exact hnext halways'

theorem does_perform {defined : List ω → α → Prop} [∀ h answer, Decidable (defined h answer)]
    {answer : List ω → α} {step : α → ω} (hdefined : defined h (answer h))
    (hok : ok h (step (answer h))) (hpost : post (answer h) (step (answer h) :: h)) :
    Does ok (perform defined answer step : Traced ω ε α) post h := by
  intro halways
  rw [exec_perform, if_pos hdefined]
  exact ⟨⟨hok, halways⟩, answer h, rfl, hpost⟩

theorem does_call {answer : List ω → α} {step : α → ω} (hok : ok h (step (answer h)))
    (hpost : post (answer h) (step (answer h) :: h)) :
    Does ok (call answer step : Traced ω ε α) post h :=
  does_perform trivial hok hpost

theorem does_emit {step : ω} {post : Unit → List ω → Prop} (hok : ok h step)
    (hpost : post () (step :: h)) : Does ok (emit step : Traced ω ε Unit) post h :=
  does_call hok hpost

theorem Does.mono {prog : Traced ω ε α} (hprog : Does ok prog post h)
    (himp : ∀ value h', post value h' → post' value h') : Does ok prog post' h := by
  intro halways
  obtain ⟨halways', value, hvalue, hpost⟩ := hprog halways
  exact ⟨halways', value, hvalue, himp value _ hpost⟩

theorem Does.bind {first : Traced ω ε α} {next : α → Traced ω ε β}
    {post' : β → List ω → Prop} (hfirst : Does ok first post h)
    (hnext : ∀ value h', post value h' → Does ok (next value) post' h') :
    Does ok (first >>= next) post' h :=
  does_bind (hfirst.mono hnext)

/-- A loop, with what holds when some of the items are done. -/
theorem does_forM {body : β → Traced ω ε Unit} {items : List β}
    (invariant : List β → List ω → Prop)
    (hbody : ∀ done item rest, items = done ++ item :: rest → ∀ h, invariant done h →
      Does ok (body item) (fun _ => invariant (done ++ [item])) h) (hstart : invariant [] h) :
    Does ok (items.forM body) (fun _ => invariant items) h := by
  suffices hfrom : ∀ rest done h, items = done ++ rest → invariant done h →
      Does ok (rest.forM body) (fun _ => invariant items) h from hfrom items [] h rfl hstart
  intro rest
  induction rest with
  | nil =>
      intro done h hitems hinvariant
      rw [List.append_nil] at hitems
      exact does_pure (hitems ▸ hinvariant)
  | cons item rest ih =>
      intro done h hitems hinvariant
      apply (hbody done item rest hitems h hinvariant).bind
      intro _ h' hnext
      exact ih (done ++ [item]) h' (by rw [hitems, List.append_assoc, List.singleton_append]) hnext

/-- A run from the beginning. -/
theorem Does.run {prog : Traced ω ε α} (hprog : Does ok prog post []) :
    Always ok (prog.exec []).1 ∧
      ∃ value, (prog.exec []).2 = .ok value ∧ post value (prog.exec []).1 :=
  hprog trivial

end Does

end Tcb.Traced
