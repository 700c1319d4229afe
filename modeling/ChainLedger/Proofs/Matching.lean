import ChainLedger.Proofs.Execution

/-!
# Two programs side by side

Two programs match from a state if every run of the one agrees with every run of the other: both
are stopped, or both end in the same state with results that stand in a relation.  The surroundings
of the two may differ.  That programs match is shown along both at once, part by part.
-/

namespace ChainLedger

namespace Prog

variable {S : Signature} {α α' β β' σ : Type} {A A' : Surroundings S σ} {Q : σ → σ → Prop}
  {R : α → α' → Prop} {R' : β → β' → Prop} {s t : σ}

/-- A run of one program after another is stopped in the first, or goes on with the second where
the first has ended. -/
theorem exec_bind_iff {p : Prog S α} {k : α → Prog S β} {r : Except Fault β} :
  Exec A s (p >>= k) r t
    ↔ (∃ f, Exec A s p (.error f) t ∧ r = .error f)
      ∨ ∃ a s', Exec A s p (.ok a) s' ∧ Exec A s' (k a) r t
  := by
  constructor
  · have hall : Ensures A s (p >>= k) fun r t => (∃ f, Exec A s p (.error f) t ∧ r = .error f) ∨
        ∃ a s', Exec A s p (.ok a) s' ∧ Exec A s' (k a) r t := by
      apply ensures_bind
      intro r s' hp
      cases r with
      | error f => exact .inl ⟨f, hp, rfl⟩
      | ok a => exact fun r t hk => .inr ⟨a, s', hp, hk⟩
    exact fun h => hall h
  · rintro (⟨f, hp, rfl⟩ | ⟨a, s', hp, hk⟩)
    · generalize hend : Except.error f = e at hp
      induction hp with
      | done => cases hend
      | crash =>
          cases hend
          exact .crash _ f
      | answered hcall _ ih => exact .answered hcall (ih hend)
      | stopped hcall =>
          cases hend
          exact .stopped hcall
    · exact hp.bind hk

/-- A program with one run goes on from there. -/
theorem exec_bind_of {p : Prog S α} {k : α → Prog S β} {r : Except Fault β} {a : α} {s' : σ}
    (h : ∀ r t, Exec A s p r t ↔ r = .ok a ∧ t = s') :
  Exec A s (p >>= k) r t ↔ Exec A s' (k a) r t
  := by
  constructor
  · intro hexec
    rcases exec_bind_iff.mp hexec with ⟨f, hp, -⟩ | ⟨a', s'', hp, hk⟩
    · cases ((h _ _).mp hp).1
    · obtain ⟨hr, rfl⟩ := (h _ _).mp hp
      cases hr
      exact hk
  · exact fun hk => exec_bind_iff.mpr (.inr ⟨a, s', (h _ _).mpr ⟨rfl, rfl⟩, hk⟩)

/-- The program of one call ends as the call does. -/
theorem exec_ask_iff {c : S.Call} {r : Except Fault (S.Answer c)} :
  Exec A s (ask c) r t ↔ A s c r t
  := by
  constructor
  · intro h
    cases h with
    | answered hcall hnext =>
        cases hnext
        exact hcall
    | stopped hcall => exact hcall
  · intro hcall
    cases r with
    | ok a => exact .answered hcall (.done _ a)
    | error f => exact .stopped hcall

/-- A program has a run if each of its calls has an answer. -/
theorem exists_exec_of_uses {P : S.Call → Prop} (hA : ∀ s c, P c → ∃ r s', A s c r s')
    {p : Prog S α} (h : p.Uses P) (s : σ) :
  ∃ r t, Exec A s p r t
  := by
  induction p generalizing s with
  | done a => exact ⟨_, _, .done s a⟩
  | crash f => exact ⟨_, _, .crash s f⟩
  | call c next ih =>
      obtain ⟨hc, hnext⟩ := h
      obtain ⟨r, s', hcall⟩ := hA s c hc
      cases r with
      | error f => exact ⟨_, _, .stopped hcall⟩
      | ok a =>
          obtain ⟨r, t, hexec⟩ := ih a (hnext a) s'
          exact ⟨r, t, .answered hcall hexec⟩

/-- One program after another has a run if both have. -/
theorem exists_exec_bind {p : Prog S α} {k : α → Prog S β} (hp : ∃ r t, Exec A s p r t)
    (hk : ∀ a t, Exec A s p (.ok a) t → ∃ r t', Exec A t (k a) r t') :
  ∃ r t, Exec A s (p >>= k) r t
  := by
  obtain ⟨r, t, hexec⟩ := hp
  cases r with
  | error f => exact ⟨_, _, exec_bind_iff.mpr (.inl ⟨f, hexec, rfl⟩)⟩
  | ok a =>
      obtain ⟨r, t', hrest⟩ := hk a t hexec
      exact ⟨r, t', hexec.bind hrest⟩

/-- How two runs agree: both are stopped, in states that stand in a relation, or both end in the
same state, with results that stand in a relation. -/
inductive Agree (Q : σ → σ → Prop) (R : α → α' → Prop) :
    Except Fault α → σ → Except Fault α' → σ → Prop
  | stopped {f f' : Fault} {t t' : σ} (h : Q t t') : Agree Q R (.error f) t (.error f') t'
  | ended {a : α} {a' : α'} {t : σ} (h : R a a') : Agree Q R (.ok a) t (.ok a') t

/-- All runs of two programs agree. -/
def Matches (A A' : Surroundings S σ) (Q : σ → σ → Prop) (s : σ) (p : Prog S α)
    (p' : Prog S α') (R : α → α' → Prop) : Prop :=
  ∀ ⦃r t r' t'⦄, Exec A s p r t → Exec A' s p' r' t' → Agree Q R r t r' t'

theorem matches_done {a : α} {a' : α'} (h : R a a') :
  Matches A A' Q s (.done a) (.done a') R
  := by
  rintro _ _ _ _ ⟨⟩ ⟨⟩
  exact .ended h

theorem matches_crash {f f' : Fault} (h : Q s s) :
  Matches A A' Q s (.crash f) (.crash f') R
  := by
  rintro _ _ _ _ ⟨⟩ ⟨⟩
  exact .stopped h

/-- Calls match if their answers agree. -/
theorem matches_ask {c c' : S.Call} {R : S.Answer c → S.Answer c' → Prop}
    (h : ∀ r t r' t', A s c r t → A' s c' r' t' → Agree Q R r t r' t') :
  Matches A A' Q s (ask c) (ask c') R
  := fun _ _ _ _ hexec hexec' => h _ _ _ _ (exec_ask_iff.mp hexec) (exec_ask_iff.mp hexec')

/-- Programs match if their first parts do, and what follows these. -/
theorem Matches.bind {p : Prog S α} {p' : Prog S α'} {k : α → Prog S β} {k' : α' → Prog S β'}
    (h : Matches A A' Q s p p' R)
    (hk : ∀ a a' t, R a a' → Matches A A' Q t (k a) (k' a') R') :
  Matches A A' Q s (p >>= k) (p' >>= k') R'
  := by
  intro r t r' t' hexec hexec'
  rcases exec_bind_iff.mp hexec with ⟨f, hp, rfl⟩ | ⟨a, s₁, hp, hrest⟩
  · rcases exec_bind_iff.mp hexec' with ⟨f', hp', rfl⟩ | ⟨a', s₁', hp', -⟩
    · cases h hp hp' with
      | stopped hQ => exact .stopped hQ
    · cases h hp hp'
  · rcases exec_bind_iff.mp hexec' with ⟨f', hp', rfl⟩ | ⟨a', s₁', hp', hrest'⟩
    · cases h hp hp'
    · cases h hp hp' with
      | ended hR => exact hk a a' s₁ hR hrest hrest'

end Prog

end ChainLedger
