import ChainLedger.Proofs.Site

/-!
# The ports of a batch

What a batch and its apply loops call: a store, an offset oracle and a log, which may
answer as a relation on a state of their own says.  The loops run at the same time, and
their calls go to the same ports as those of the batch itself.  A run with one kind of ports
is also one with any other kind that allows the same answers.
-/

namespace ChainLedger

open Prog

/-- Who makes a store call: an apply loop, or the batch itself. -/
inductive Caller
  | loop
  | batch
deriving DecidableEq

/-- How the store, the oracle and the log may answer, and what becomes of their state. -/
structure Ports (σ : Type) where
  store : Caller → σ → (c : StoreCall) → Except Fault (Timed c.Answer) → σ → Prop
  latestOffset : σ → Partition → Except Fault (Except OracleError (Option Nat)) → σ → Prop
  acknowledge : σ → Bounds → Except Fault (Except LogError Unit) → σ → Prop

namespace Ports

variable {σ : Type} {P : Ports σ}

/-- How the calls of an apply loop may be answered. -/
inductive Loops (P : Ports σ) : Surroundings applySignature σ
  | store {s s' : σ} {c : StoreCall} {deadline : Nat} {r : Except Fault (Timed c.Answer)}
      (h : P.store .loop s c r s') : Loops P s (.store c deadline) r s'
  | latestOffset {s s' : σ} {p : Partition} {r : Except Fault (Except OracleError (Option Nat))}
      (h : P.latestOffset s p r s') : Loops P s (.latestOffset p) r s'
  | waited (s : σ) (ms : Nat) : Loops P s (.wait ms) (.ok ()) s

/-- How the calls of a batch may be answered. -/
inductive Batches (P : Ports σ) : Surroundings batchSignature σ
  | accepting (s : σ) (accepted : Bool) : Batches P s .accepting (.ok accepted) s
  | store {s s' : σ} {c : StoreCall} {deadline : Nat} {r : Except Fault (Timed c.Answer)}
      (h : P.store .batch s c r s') : Batches P s (.store c deadline) r s'
  | applied {s s' : σ} {policy : Policy} {jobs : List Job} {ends : List (JobEnd Apply.Result)}
      (h : Completes P.Loops policy jobs s ends s') :
      Batches P s (.applyAll policy jobs) (.ok ends) s'
  | acknowledged {s s' : σ} {b : Bounds} {r : Except Fault (Except LogError Unit)}
      (h : P.acknowledge s b r s') : Batches P s (.acknowledge b) r s'
  | told (s : σ) (e : Event) : Batches P s (.tell e) (.ok ()) s

variable {s : σ} {β : Type} {Q : Except Fault β → σ → Prop}

/-! ### Triples of the calls -/

/-- A store call of a batch. -/
theorem store_spec {policy : Policy} {c : StoreCall}
    {Q : Except Fault (Except StoreError c.Answer) → σ → Prop}
    (h : ∀ r s', P.store .batch s c r s' → Q (heard r) s') :
  Ensures P.Batches s (Batch.store policy c) Q
  := by
  apply ensures_call
  intro r s' hcall
  cases hcall with
  | store hcall =>
      have hheard := h r s' hcall
      cases r with
      | ok a => exact ensures_done hheard
      | error f => exact hheard

/-- A batch program that starts with a store call. -/
theorem ensures_store {policy : Policy} {c : StoreCall}
    {k : Except StoreError c.Answer → Batch.Step β}
    (h : ∀ r s', P.store .batch s c r s' → Follows P.Batches k Q (heard r) s') :
  Ensures P.Batches s (Batch.store policy c >>= k) Q
  := by
  apply ensures_bind
  exact store_spec h

/-- A batch program that starts by asking whether the batch is accepted. -/
theorem ensures_accepting {k : Bool → Batch.Step β}
    (h : ∀ accepted, Ensures P.Batches s (k accepted) Q) :
  Ensures P.Batches s (Prog.ask (S := batchSignature) .accepting >>= k) Q
  := by
  apply ensures_call
  intro r s' hcall
  cases hcall with
  | accepting _ accepted => exact h accepted

/-- A batch program that starts with the jobs of a batch. -/
theorem ensures_applyAll {policy : Policy} {jobs : List Job}
    {k : List (JobEnd Apply.Result) → Batch.Step β}
    (h : ∀ ends s', Completes P.Loops policy jobs s ends s' → Ensures P.Batches s' (k ends) Q) :
  Ensures P.Batches s (Prog.ask (S := batchSignature) (.applyAll policy jobs) >>= k) Q
  := by
  apply ensures_call
  intro r s' hcall
  cases hcall with
  | applied hcompletes => exact h _ s' hcompletes

/-- A batch program that starts with the acknowledgment of the batch. -/
theorem ensures_acknowledge {b : Bounds} {k : Except LogError Unit → Batch.Step β}
    (h : ∀ r s', P.acknowledge s b r s' → Follows P.Batches k Q r s') :
  Ensures P.Batches s (Prog.ask (S := batchSignature) (.acknowledge b) >>= k) Q
  := by
  apply ensures_call
  intro r s' hcall
  cases hcall with
  | acknowledged hcall =>
      have hfollows := h r s' hcall
      cases r with
      | ok a => exact hfollows
      | error f => exact hfollows

/-- A batch program that starts by telling the observers something. -/
theorem ensures_tell {e : Event} {k : Unit → Batch.Step β}
    (h : Ensures P.Batches s (k ()) Q) :
  Ensures P.Batches s (Batch.tell e >>= k) Q
  := by
  apply ensures_call
  intro r s' hcall
  cases hcall with
  | told => exact h

/-- A batch program that starts by telling the observers the same several times. -/
theorem ensures_tellAll {α : Type} {l : List α} {e : Event} {k : PUnit → Batch.Step β}
    (h : Ensures P.Batches s (k ⟨⟩) Q) :
  Ensures P.Batches s ((l.forM fun _ => Batch.tell e) >>= k) Q
  := by
  induction l with
  | nil => exact h
  | cons a l ih =>
      change Ensures _ _ ((Batch.tell e >>= fun _ => l.forM fun _ => Batch.tell e) >>= k) _
      rw [LawfulMonad.bind_assoc]
      apply ensures_tell
      exact ih

end Ports

/-! ### Simulation -/

/-- Whatever the surroundings `A` answer, the surroundings `A'` may answer, and states that
are related stay related. -/
def Simulates {S : Signature} {σ τ : Type} (A : Surroundings S σ) (A' : Surroundings S τ)
    (Rel : σ → τ → Prop) : Prop :=
  ∀ ⦃s : σ⦄ ⦃c : S.Call⦄ ⦃r : Except Fault (S.Answer c)⦄ ⦃s' : σ⦄ ⦃t : τ⦄,
    A s c r s' → Rel s t → ∃ t', A' t c r t' ∧ Rel s' t'

/-- An execution is also one in surroundings that may answer the same. -/
theorem Prog.Exec.simulate {S : Signature} {σ τ α : Type} {A : Surroundings S σ}
    {A' : Surroundings S τ} {Rel : σ → τ → Prop} (hA : Simulates A A' Rel) {s s' : σ} {t : τ}
    {p : Prog S α} {r : Except Fault α} (h : Exec A s p r s') (hst : Rel s t) :
  ∃ t', Exec A' t p r t' ∧ Rel s' t'
  := by
  induction h generalizing t with
  | done => exact ⟨t, .done _ _, hst⟩
  | crash => exact ⟨t, .crash _ _, hst⟩
  | answered hcall _ ih =>
      obtain ⟨t₁, hcall', hst₁⟩ := hA hcall hst
      obtain ⟨t', hexec, hst'⟩ := ih hst₁
      exact ⟨t', .answered hcall' hexec, hst'⟩
  | stopped hcall =>
      obtain ⟨t', hcall', hst'⟩ := hA hcall hst
      exact ⟨t', .stopped hcall', hst'⟩

/-- A move of a job is also one in surroundings that may answer the same. -/
theorem Task.Move.simulate {σ τ : Type} {A : Surroundings applySignature σ}
    {A' : Surroundings applySignature τ} {Rel : σ → τ → Prop} (hA : Simulates A A' Rel)
    {policy : Policy} {j : Job} {s s' : σ} {t : τ} {u u' : Task}
    (h : Task.Move A policy j s u s' u') (hst : Rel s t) :
  ∃ t', Task.Move A' policy j t u t' u' ∧ Rel s' t'
  := by
  cases h with
  | answered hcall =>
      obtain ⟨t', hcall', hst'⟩ := hA hcall hst
      exact ⟨t', .answered hcall', hst'⟩
  | stopped hcall =>
      obtain ⟨t', hcall', hst'⟩ := hA hcall hst
      exact ⟨t', .stopped hcall', hst'⟩
  | crash => exact ⟨t, .crash, hst⟩
  | again => exact ⟨t, .again, hst⟩
  | done => exact ⟨t, .done, hst⟩

/-- Jobs that run to their ends also do so in surroundings that may answer the same. -/
theorem Completes.simulate {σ τ : Type} {A : Surroundings applySignature σ}
    {A' : Surroundings applySignature τ} {Rel : σ → τ → Prop} (hA : Simulates A A' Rel)
    {policy : Policy} {jobs : List Job} {ends : List (JobEnd Apply.Result)} {s s' : σ} {t : τ}
    (h : Completes A policy jobs s ends s') (hst : Rel s t) :
  ∃ t', Completes A' policy jobs t ends t' ∧ Rel s' t'
  := by
  have hmoves : ∀ x y : σ × List Task, Relation.ReflTransGen (Moves A policy jobs) x y →
      Rel x.1 t → ∃ t', Relation.ReflTransGen (Moves A' policy jobs) (t, x.2) (t', y.2) ∧
        Rel y.1 t' := by
    intro x y hxy hx
    induction hxy with
    | refl => exact ⟨t, .refl, hx⟩
    | tail _ hmove ih =>
        obtain ⟨t₁, hmoves, hst₁⟩ := ih
        cases hmove with
        | move n hj ht hmove =>
            obtain ⟨t', hmove', hst'⟩ := hmove.simulate hA hst₁
            exact ⟨t', hmoves.tail (.move n hj ht hmove'), hst'⟩
  exact hmoves _ _ h hst

namespace Ports

variable {σ τ : Type} {P : Ports σ} {P' : Ports τ} {Rel : σ → τ → Prop}

/-- Whatever the ports `P` answer, the ports `P'` may answer, and states that are related
stay related. -/
structure Simulates (P : Ports σ) (P' : Ports τ) (Rel : σ → τ → Prop) : Prop where
  store : ∀ {who s c r s' t}, P.store who s c r s' → Rel s t →
    ∃ t', P'.store who t c r t' ∧ Rel s' t'
  latestOffset : ∀ {s p r s' t}, P.latestOffset s p r s' → Rel s t →
    ∃ t', P'.latestOffset t p r t' ∧ Rel s' t'
  acknowledge : ∀ {s b r s' t}, P.acknowledge s b r s' → Rel s t →
    ∃ t', P'.acknowledge t b r t' ∧ Rel s' t'

/-- Ports that may answer the same to a port call, may do so to a loop. -/
theorem Simulates.loops (hP : P.Simulates P' Rel) :
  ChainLedger.Simulates P.Loops P'.Loops Rel
  := by
  intro s c r s' t h hst
  cases h with
  | store h =>
      obtain ⟨t', h', hst'⟩ := hP.store h hst
      exact ⟨t', .store h', hst'⟩
  | latestOffset h =>
      obtain ⟨t', h', hst'⟩ := hP.latestOffset h hst
      exact ⟨t', .latestOffset h', hst'⟩
  | waited => exact ⟨t, .waited .., hst⟩

/-- Ports that may answer the same to a port call, may do so to a batch. -/
theorem Simulates.batches (hP : P.Simulates P' Rel) :
  ChainLedger.Simulates P.Batches P'.Batches Rel
  := by
  intro s c r s' t h hst
  cases h with
  | accepting => exact ⟨t, .accepting .., hst⟩
  | store h =>
      obtain ⟨t', h', hst'⟩ := hP.store h hst
      exact ⟨t', .store h', hst'⟩
  | applied h =>
      obtain ⟨t', h', hst'⟩ := h.simulate hP.loops hst
      exact ⟨t', .applied h', hst'⟩
  | acknowledged h =>
      obtain ⟨t', h', hst'⟩ := hP.acknowledge h hst
      exact ⟨t', .acknowledged h', hst'⟩
  | told => exact ⟨t, .told .., hst⟩

/-- Ports without a state that may answer anything. -/
def anything : Ports Unit where
  store _ _ _ _ _ := True
  latestOffset _ _ _ _ := True
  acknowledge _ _ _ _ := True

/-- What the calls of the loops keep, however they are answered, the jobs of a batch keep. -/
theorem completes_keeps {J : σ → Prop} {policy : Policy} {jobs : List Job}
    {ends : List (JobEnd Apply.Result)} {s s' : σ}
    (hstore : ∀ {s c r s'}, J s → P.store .loop s c r s' → J s')
    (hlatest : ∀ {s p r s'}, J s → P.latestOffset s p r s' → J s')
    (h : Completes P.Loops policy jobs s ends s') (hs : J s) :
  J s'
  := by
  have hkeep : ChainLedger.Simulates P.Loops anything.Loops fun s _ => J s := by
    intro s c r s' t hcall hs
    cases hcall with
    | store hcall => exact ⟨t, .store trivial, hstore hs hcall⟩
    | latestOffset hcall => exact ⟨t, .latestOffset trivial, hlatest hs hcall⟩
    | waited => exact ⟨t, .waited .., hs⟩
  obtain ⟨-, -, hs'⟩ := h.simulate hkeep (t := ()) hs
  exact hs'

/-- What all calls keep, however they are answered, an execution of a batch keeps. -/
theorem exec_keeps {J : σ → Prop} (hstore : ∀ {who s c r s'}, J s → P.store who s c r s' → J s')
    (hlatest : ∀ {s p r s'}, J s → P.latestOffset s p r s' → J s')
    (hacknowledge : ∀ {s b r s'}, J s → P.acknowledge s b r s' → J s') {α : Type} {s s' : σ}
    {p : Batch.Step α} {r : Except Fault α} (h : Exec P.Batches s p r s') (hs : J s) :
  J s'
  := by
  have hkeep : P.Simulates anything fun s _ => J s := by
    constructor
    · intro who s c r s' t hcall hs
      exact ⟨t, trivial, hstore hs hcall⟩
    · intro s p r s' t hcall hs
      exact ⟨t, trivial, hlatest hs hcall⟩
    · intro s b r s' t hcall hs
      exact ⟨t, trivial, hacknowledge hs hcall⟩
  obtain ⟨-, -, hs'⟩ := h.simulate hkeep.batches (t := ()) hs
  exact hs'

/-! ### Ports that nothing disturbs -/

/-- The ports of a site that nobody else uses, and whose calls are never lost. -/
def undisturbed {Λ : Type} (parties : Parties Λ) : Ports (Site Λ) where
  store _ s c r s' := r = (c.on s.rows).2.map .answered ∧ s' = { s with rows := (c.on s.rows).1 }
  latestOffset s p r s' := r = .ok (.ok (parties.latestOffset s.log p)) ∧ s' = s
  acknowledge s b r s' := r = .ok (parties.acknowledge s.log b).2 ∧
    s' = { s with log := (parties.acknowledge s.log b).1 }

/-- A batch that loses no call runs through undisturbed ports. -/
theorem simulates_undisturbed {Λ : Type} (parties : Parties Λ) :
  ChainLedger.Simulates (BatchAnswers False parties) (undisturbed parties).Batches Eq
  := by
  rintro s c r s' _ h rfl
  refine ⟨s', ?_, rfl⟩
  cases h with
  | accepted => exact .accepting ..
  | refused h => exact h.elim
  | store h =>
      cases h with
      | served => exact .store ⟨rfl, rfl⟩
      | lost h => exact h.elim
      | landed h => exact h.elim
  | @applied _ rows _ _ _ h =>
      have hloops : ChainLedger.Simulates
          (ApplyAnswers False (parties.latestOffset s.log)) (undisturbed parties).Loops
          fun rows t => t = { s with rows } := by
        rintro rows c r rows' _ h rfl
        refine ⟨_, ?_, rfl⟩
        cases h with
        | store h =>
            cases h with
            | served => exact .store ⟨rfl, rfl⟩
            | lost h => exact h.elim
            | landed h => exact h.elim
        | position => exact .latestOffset ⟨rfl, rfl⟩
        | unavailable h => exact h.elim
        | waited => exact .waited ..
      obtain ⟨_, hcompletes, rfl⟩ := h.simulate hloops rfl
      exact .applied hcompletes
  | acknowledged => exact .acknowledged ⟨rfl, rfl⟩
  | unacknowledged h => exact h.elim
  | unheard h => exact h.elim
  | told => exact .told ..

/-- A batch that loses no call also runs through all ports that may answer as undisturbed
ones do. -/
theorem exec_of_undisturbed {Λ α : Type} {parties : Parties Λ} {Rel : Site Λ → τ → Prop}
    (hP : (undisturbed parties).Simulates P' Rel) {s s' : Site Λ} {t : τ} {p : Batch.Step α}
    {r : Except Fault α} (h : Exec (BatchAnswers False parties) s p r s') (hst : Rel s t) :
  ∃ t', Exec P'.Batches t p r t' ∧ Rel s' t'
  := by
  obtain ⟨_, hexec, rfl⟩ := h.simulate (simulates_undisturbed parties) rfl
  exact hexec.simulate hP.batches hst

end Ports

end ChainLedger
