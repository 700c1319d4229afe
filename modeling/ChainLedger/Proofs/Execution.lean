import ChainLedger.Program

/-!
# Executions of programs

A program says nothing about who answers its calls.  Here the answers come from
surroundings, a relation that may leave several answers open and that acts on a
state.  An execution is a finite run of a program in its surroundings; a triple
says what every execution from a state ends in, and is proved along the program,
call by call.
-/

namespace ChainLedger

/-- How calls may be answered: `A s c r s'` says that in the state `s` the call `c` may
get the answer `r`, or stop its caller, and leave the state `s'`. -/
abbrev Surroundings (S : Signature) (σ : Type) : Type :=
  σ → (c : S.Call) → Except Fault (S.Answer c) → σ → Prop

namespace Prog

variable {S : Signature} {α β σ : Type} {A : Surroundings S σ}

/-- `Exec A s p r s'`: in the surroundings `A`, the program `p` may run from the state
`s` to the state `s'` and end there with the result or the fault `r`. -/
inductive Exec (A : Surroundings S σ) : σ → Prog S α → Except Fault α → σ → Prop
  /-- The program has ended. -/
  | done (s : σ) (a : α) : Exec A s (.done a) (.ok a) s
  /-- The program is stopped by its own fault. -/
  | crash (s : σ) (f : Fault) : Exec A s (.crash f) (.error f) s
  /-- The call is answered and the program goes on. -/
  | answered {s s' s'' : σ} {c : S.Call} {next : S.Answer c → Prog S α} {a : S.Answer c}
      {r : Except Fault α} (hcall : A s c (.ok a) s') (hnext : Exec A s' (next a) r s'') :
      Exec A s (.call c next) r s''
  /-- The call stops the program. -/
  | stopped {s s' : σ} {c : S.Call} {next : S.Answer c → Prog S α} {f : Fault}
      (hcall : A s c (.error f) s') : Exec A s (.call c next) (.error f) s'

/-- If every call has some answer, then every program has an execution. -/
theorem exists_exec (hA : ∀ s c, ∃ r s', A s c r s') (s : σ) (p : Prog S α) :
  ∃ r s', Exec A s p r s'
  := by
  induction p generalizing s with
  | done a => exact ⟨.ok a, s, .done s a⟩
  | crash f => exact ⟨.error f, s, .crash s f⟩
  | call c next ih =>
      obtain ⟨r, s', hr⟩ := hA s c
      cases r with
      | ok a =>
          obtain ⟨r', s'', hr'⟩ := ih a s'
          exact ⟨r', s'', .answered hr hr'⟩
      | error f => exact ⟨.error f, s', .stopped hr⟩

/-- A run whose answers are among those of the surroundings is an execution. -/
theorem exec_run {answer : σ → (c : S.Call) → σ × Except Fault (S.Answer c)}
    (hA : ∀ s c, A s c (answer s c).2 (answer s c).1) (s : σ) (p : Prog S α) :
  Exec A s p (p.run answer s).2 (p.run answer s).1
  := by
  induction p generalizing s with
  | done a => apply Exec.done
  | crash f => apply Exec.crash
  | call c next ih =>
      have h := hA s c
      rw [run]
      rcases hanswer : answer s c with ⟨s', a | f⟩
      · rw [hanswer] at h
        apply Exec.stopped h
      · rw [hanswer] at h
        apply Exec.answered h (ih f s')

/-! ### Triples -/

/-- Every execution of `p` from `s` ends in a result and a state of `Q`. -/
def Ensures (A : Surroundings S σ) (s : σ) (p : Prog S α) (Q : Except Fault α → σ → Prop) :
    Prop :=
  ∀ ⦃r s'⦄, Exec A s p r s' → Q r s'

/-- What is to be shown after a call: of the rest of the program if there is an
answer, of the fault if there is none. -/
def Follows (A : Surroundings S σ) (k : α → Prog S β) (Q : Except Fault β → σ → Prop) :
    Except Fault α → σ → Prop
  | .ok a, s => Ensures A s (k a) Q
  | .error f, s => Q (.error f) s

theorem ensures_done {s : σ} {a : α} {Q : Except Fault α → σ → Prop} (h : Q (.ok a) s) :
  Ensures A s (.done a) Q
  := by
  rintro _ _ ⟨⟩
  exact h

theorem ensures_crash {s : σ} {f : Fault} {Q : Except Fault α → σ → Prop}
    (h : Q (.error f) s) :
  Ensures A s (.crash f) Q
  := by
  rintro _ _ ⟨⟩
  exact h

theorem ensures_call {s : σ} {c : S.Call} {next : S.Answer c → Prog S α}
    {Q : Except Fault α → σ → Prop} (h : ∀ r s', A s c r s' → Follows A next Q r s') :
  Ensures A s (.call c next) Q
  := by
  intro r s' hexec
  cases hexec with
  | answered hcall hnext => exact h _ _ hcall hnext
  | stopped hcall => exact h _ _ hcall

theorem Ensures.mono {s : σ} {p : Prog S α} {Q Q' : Except Fault α → σ → Prop}
    (h : Ensures A s p Q) (hQ : ∀ r s', Q r s' → Q' r s') :
  Ensures A s p Q'
  := fun r s' hexec => hQ r s' (h hexec)

/-- What a call may be answered is what the triple of its caller has to follow. -/
theorem Ensures.follows {s s' : σ} {c : S.Call} {next : S.Answer c → Prog S α}
    {Q : Except Fault α → σ → Prop} (h : Ensures A s (.call c next) Q)
    {r : Except Fault (S.Answer c)} (hcall : A s c r s') :
  Follows A next Q r s'
  := by
  cases r with
  | ok a => exact fun r s'' hnext => h (.answered hcall hnext)
  | error f => exact h (.stopped hcall)

/-- One program after another: the first is to end where the triple of the second
starts. -/
theorem ensures_bind {s : σ} {p : Prog S α} {k : α → Prog S β} {Q : Except Fault β → σ → Prop}
    (h : Ensures A s p (Follows A k Q)) :
  Ensures A s (p >>= k) Q
  := by
  induction p generalizing s with
  | done a => exact h (.done s a)
  | crash f => exact ensures_crash (h (.crash s f))
  | call c next ih =>
      apply ensures_call
      intro r s' hcall
      have hnext := h.follows hcall
      cases r with
      | ok a => exact ih a hnext
      | error f => exact hnext

/-- One program is executed after another. -/
theorem Exec.bind {s s' s'' : σ} {p : Prog S α} {k : α → Prog S β} {a : α}
    {r : Except Fault β} (hp : Exec A s p (.ok a) s') (hk : Exec A s' (k a) r s'') :
  Exec A s (p >>= k) r s''
  := by
  generalize hend : Except.ok a = e at hp
  induction hp with
  | done =>
      cases hend
      exact hk
  | crash => cases hend
  | answered hcall _ ih => exact .answered hcall (ih hk hend)
  | stopped => cases hend

/-! ### Calls of a kind -/

/-- Every call that the program may make is one of `P`. -/
def Uses (P : S.Call → Prop) : Prog S α → Prop
  | .done _ => True
  | .crash _ => True
  | .call c next => P c ∧ ∀ a, (next a).Uses P

theorem uses_bind {P : S.Call → Prop} {p : Prog S α} {k : α → Prog S β}
    (hp : p.Uses P) (hk : ∀ a, (k a).Uses P) :
  (p >>= k).Uses P
  := by
  induction p with
  | done a => exact hk a
  | crash f => trivial
  | call c next ih => exact ⟨hp.1, fun a => ih a (hp.2 a)⟩

end Prog

end ChainLedger
