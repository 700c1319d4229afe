import ChainLedger.Proofs.Matching
import ChainLedger.Service

/-!
# Turn by turn

Work that is given turn by turn reaches what it knows after each of its turns, and returns what it
is stopped with.  It ends if there is no endless sequence of turns, whichever way the calls are
answered.  A service is such work: the calls of its batches are answered as those of a batch are,
and besides these it polls, waits, and looks whether a stop is signalled.
-/

namespace ChainLedger

open Prog

/-! ### Parts of a run -/

namespace Prog

variable {S : Signature} {α β σ : Type} {A A' : Surroundings S σ} {K : S.Call → Prop}
  {s s' t : σ} {p : Prog S α}

/-- A run of a program comes to a state where a rest of it is left. -/
inductive Comes (A : Surroundings S σ) (s : σ) (p : Prog S α) : σ → Prog S α → Prop
  | start : Comes A s p s p
  | call {s' s'' : σ} {c : S.Call} {next : S.Answer c → Prog S α} {a : S.Answer c}
      (h : Comes A s p s' (.call c next)) (hcall : A s' c (.ok a) s'') : Comes A s p s'' (next a)

/-- A call that a run comes to is one that the program may make. -/
theorem Comes.uses {p' : Prog S α} (h : Comes A s p s' p') (hp : p.Uses K) :
  p'.Uses K
  := by
  induction h with
  | start => exact hp
  | call _ _ ih => exact ih.2 _

/-- A run that comes to a call has started with it, or with a call before it. -/
theorem Comes.of_call {c : S.Call} {next : S.Answer c → Prog S α} {p' : Prog S α}
    (h : Comes A s (.call c next) s' p') :
  s' = s ∧ p' = .call c next ∨ ∃ a s₁, A s c (.ok a) s₁ ∧ Comes A s₁ (next a) s' p'
  := by
  induction h with
  | start => exact .inl ⟨rfl, rfl⟩
  | call _ hcall ih =>
      rcases ih with ⟨rfl, heq⟩ | ⟨a, s₁, hfirst, hrest⟩
      · cases heq
        exact .inr ⟨_, _, hcall, .start⟩
      · exact .inr ⟨a, s₁, hfirst, .call hrest hcall⟩

/-- A program that makes calls of one kind only may also be said to make calls of a wider one. -/
theorem Uses.mono {K' : S.Call → Prop} (h : p.Uses K) (hK : ∀ c, K c → K' c) :
  p.Uses K'
  := by
  induction p with
  | done a => trivial
  | crash f => trivial
  | call c next ih => exact ⟨hK c h.1, fun a => ih a (h.2 a)⟩

/-- A program makes only the calls that it makes. -/
theorem uses_true (p : Prog S α) :
  p.Uses fun _ => True
  := by
  induction p with
  | done a => trivial
  | crash f => trivial
  | call c next ih => exact ⟨trivial, ih⟩

/-- A run is also one in surroundings that may answer the calls of the program so. -/
theorem Exec.mono {r : Except Fault α} (hexec : Exec A s p r t)
    (hA : ∀ s c r s', K c → A s c r s' → A' s c r s') (h : p.Uses K) :
  Exec A' s p r t
  := by
  induction hexec with
  | done => exact .done _ _
  | crash => exact .crash _ _
  | answered hcall _ ih => exact .answered (hA _ _ _ _ h.1 hcall) (ih (h.2 _))
  | stopped hcall => exact .stopped (hA _ _ _ _ h.1 hcall)

/-- A program runs alike in all surroundings that answer its calls alike. -/
theorem exec_congr (hA : ∀ s c r s', K c → (A s c r s' ↔ A' s c r s')) (h : p.Uses K)
    {r : Except Fault α} :
  Exec A s p r t ↔ Exec A' s p r t
  := ⟨fun hexec => hexec.mono (fun s c r s' hc => (hA s c r s' hc).mp) h,
    fun hexec => hexec.mono (fun s c r s' hc => (hA s c r s' hc).mpr) h⟩

/-- One program after another runs alike in two surroundings if both do. -/
theorem exec_bind_congr {k : α → Prog S β} (hp : ∀ r t, Exec A s p r t ↔ Exec A' s p r t)
    (hk : ∀ a t, Exec A s p (.ok a) t → ∀ r t', Exec A t (k a) r t' ↔ Exec A' t (k a) r t')
    {r : Except Fault β} :
  Exec A s (p >>= k) r t ↔ Exec A' s (p >>= k) r t
  := by
  rw [exec_bind_iff, exec_bind_iff]
  apply or_congr
  · apply exists_congr
    intro f
    rw [hp]
  · constructor
    · rintro ⟨a, s₁, hfirst, hrest⟩
      exact ⟨a, s₁, (hp _ _).mp hfirst, (hk a s₁ hfirst r t).mp hrest⟩
    · rintro ⟨a, s₁, hfirst, hrest⟩
      have hfirst := (hp _ _).mpr hfirst
      exact ⟨a, s₁, hfirst, (hk a s₁ hfirst r t).mpr hrest⟩

/-- What all calls of the program keep, it keeps. -/
theorem ensures_keeps {J : σ → Prop} (hJ : ∀ s c r s', A s c r s' → K c → J s → J s')
    (h : p.Uses K) (hs : J s) :
  Ensures A s p fun _ => J
  := by
  intro r t hexec
  induction hexec with
  | done => exact hs
  | crash => exact hs
  | answered hcall _ ih => exact ih (h.2 _) (hJ _ _ _ _ hcall h.1 hs)
  | stopped hcall => exact hJ _ _ _ _ hcall h.1 hs

/-- After a program whose calls keep something, the next one may rely on it. -/
theorem ensures_bind_of_keeps {J : σ → Prop} {k : α → Prog S β} {Q : Except Fault β → σ → Prop}
    (hJ : ∀ s c r s', A s c r s' → K c → J s → J s') (h : p.Uses K) (hs : J s)
    (hfault : ∀ f s', J s' → Q (.error f) s') (hk : ∀ a s', J s' → Ensures A s' (k a) Q) :
  Ensures A s (p >>= k) Q
  := by
  apply ensures_bind
  refine (ensures_keeps hJ h hs).mono ?_
  intro r s' hs'
  cases r with
  | ok a => exact hk a s' hs'
  | error f => exact hfault f s' hs'

end Prog

/-! ### Turns -/

namespace Turn

variable {S : Signature} {σ τ α : Type} {A : Surroundings S σ} {turn : τ → Prog S (Turn τ α)}
  {s s' : σ} {t t' : τ}

/-- After some turns, each of which is followed by another, the work goes on from here. -/
inductive Reaches (A : Surroundings S σ) (turn : τ → Prog S (Turn τ α)) (s : σ) (t : τ) :
    σ → τ → Prop
  | start : Reaches A turn s t s t
  | again {s₁ s₂ : σ} {t₁ t₂ : τ} (h : Reaches A turn s t s₁ t₁)
      (hexec : Exec A s₁ (turn t₁) (.ok (.again t₂)) s₂) : Reaches A turn s t s₂ t₂

/-- The last of some turns has stopped the work. -/
def Returns (A : Surroundings S σ) (turn : τ → Prog S (Turn τ α)) (s : σ) (t : τ) (a : α)
    (s' : σ) : Prop :=
  ∃ s₁ t₁, Reaches A turn s t s₁ t₁ ∧ Exec A s₁ (turn t₁) (.ok (.stop a)) s'

/-- Every sequence of turns comes to an end, with a result or a fault and in a state of `Q`. -/
inductive Ends (A : Surroundings S σ) (turn : τ → Prog S (Turn τ α))
    (Q : Except Fault α → σ → Prop) : σ → τ → Prop
  | turn {s : σ} {t : τ} (hsome : ∃ r s', Exec A s (turn t) r s')
      (hstop : ∀ a s', Exec A s (turn t) (.ok (.stop a)) s' → Q (.ok a) s')
      (hfault : ∀ f s', Exec A s (turn t) (.error f) s' → Q (.error f) s')
      (hagain : ∀ t' s', Exec A s (turn t) (.ok (.again t')) s' → Ends A turn Q s' t') :
      Ends A turn Q s t

/-- Turns also go on in surroundings that may answer more. -/
theorem Returns.mono {A' : Surroundings S σ} {a : α} (h : Returns A turn s t a s')
    (hA : ∀ s c r s', A s c r s' → A' s c r s') :
  Returns A' turn s t a s'
  := by
  have hexec : ∀ {β : Type} {p : Prog S β} {s r s'}, Exec A s p r s' → Exec A' s p r s' :=
    fun hexec => hexec.mono (fun s c r s' _ => hA s c r s') (uses_true _)
  obtain ⟨s₁, t₁, hreaches, hstop⟩ := h
  refine ⟨s₁, t₁, ?_, hexec hstop⟩
  clear hstop
  induction hreaches with
  | start => exact .start
  | again _ hagain ih => exact ih.again (hexec hagain)

/-- What every turn keeps, the work keeps. -/
theorem Reaches.keeps {J : σ → τ → Prop} (h : Reaches A turn s t s' t')
    (hturn : ∀ {s t s' t'}, J s t → Exec A s (turn t) (.ok (.again t')) s' → J s' t')
    (hs : J s t) :
  J s' t'
  := by
  induction h with
  | start => exact hs
  | again _ hexec ih => exact hturn ih hexec

end Turn

/-! ### Services -/

/-- How the calls of a service may be answered: those of its batches as `A` answers them, polls as
`polls` says, and looks for a signal as `signalled` says.  A pause may end either way. -/
inductive ServiceAnswers {σ : Type} (A : Surroundings batchSignature σ)
    (polls : σ → Except Fault (Except LogError (List Record)) → σ → Prop) (signalled : σ → Bool) :
    Surroundings serviceSignature σ
  | batch {s s' : σ} {c : BatchCall} {r : Except Fault (batchSignature.Answer c)}
      (h : A s c r s') : ServiceAnswers A polls signalled s (.batch c) r s'
  | polled {s s' : σ} {r : Except Fault (Except LogError (List Record))} (h : polls s r s') :
      ServiceAnswers A polls signalled s .poll r s'
  | waited (s : σ) (ms : Nat) : ServiceAnswers A polls signalled s (.wait ms) (.ok ()) s
  | looked (s : σ) : ServiceAnswers A polls signalled s .stopSignalled (.ok (signalled s)) s
  | paused (s : σ) (ms : Nat) (e : PauseEnd) :
      ServiceAnswers A polls signalled s (.pause ms) (.ok e) s

/-- A service may be answered all that its batches may be answered. -/
theorem ServiceAnswers.mono {σ : Type} {A A' : Surroundings batchSignature σ}
    {polls : σ → Except Fault (Except LogError (List Record)) → σ → Prop} {signalled : σ → Bool}
    {s s' : σ} {c : ServiceCall} {r : Except Fault (serviceSignature.Answer c)}
    (h : ServiceAnswers A polls signalled s c r s') (hA : ∀ s c r s', A s c r s' → A' s c r s') :
  ServiceAnswers A' polls signalled s c r s'
  := by
  cases h with
  | batch h => exact .batch (hA _ _ _ _ h)
  | polled h => exact .polled h
  | waited => exact .waited ..
  | looked => exact .looked ..
  | paused => exact .paused ..

/-- The call is one of a batch of the service, of the kind `K`. -/
inductive ServiceCall.OfBatch (K : BatchCall → Prop) : ServiceCall → Prop
  | batch {c : BatchCall} (h : K c) : OfBatch K (.batch c)

namespace Service

variable {σ α : Type} {A : Surroundings batchSignature σ}
  {polls : σ → Except Fault (Except LogError (List Record)) → σ → Prop} {signalled : σ → Bool}
  {s t : σ}

/-- A batch runs in a service as it does by itself. -/
theorem exec_ofBatch_iff {p : Batch.Step α} {r : Except Fault α} :
  Exec (ServiceAnswers A polls signalled) s (ofBatch p) r t ↔ Exec A s p r t
  := by
  induction p generalizing s with
  | done a =>
      constructor
      · rintro ⟨⟩
        exact .done _ _
      · rintro ⟨⟩
        exact .done _ _
  | crash f =>
      constructor
      · rintro ⟨⟩
        exact .crash _ _
      · rintro ⟨⟩
        exact .crash _ _
  | call c next ih =>
      constructor
      · intro h
        cases h with
        | answered hcall hnext =>
            cases hcall with
            | batch hcall => exact .answered hcall ((ih _).mp hnext)
        | stopped hcall =>
            cases hcall with
            | batch hcall => exact .stopped hcall
      · intro h
        cases h with
        | answered hcall hnext => exact .answered (.batch hcall) ((ih _).mpr hnext)
        | stopped hcall => exact .stopped (.batch hcall)

/-- The calls of a batch are calls of the service. -/
theorem uses_ofBatch {K : BatchCall → Prop} {p : Batch.Step α} (h : p.Uses K) :
  (ofBatch p).Uses (ServiceCall.OfBatch K)
  := by
  induction p with
  | done a => trivial
  | crash f => trivial
  | call c next ih => exact ⟨.batch h.1, fun a => ih a (h.2 a)⟩

/-- A batch does not poll. -/
theorem ofBatch_polls_not (p : Batch.Step α) :
  (ofBatch p).Uses fun c => c ≠ ServiceCall.poll
  := by
  apply (uses_ofBatch (uses_true p)).mono
  rintro _ h rfl
  cases h

/-- A poll answers as the consumer does. -/
theorem exec_poll_iff {r : Except Fault (Except LogError (List Record))} :
  Exec (ServiceAnswers A polls signalled) s poll r t ↔ polls s r t
  := by
  constructor
  · intro h
    cases exec_ask_iff.mp h with
    | polled h => exact h
  · intro h
    exact exec_ask_iff.mpr (.polled h)

end Service

end ChainLedger
