import ChainLedger.Proofs.Progress

/-!
# A site: rows and a log

What a batch works on: the rows of a store, and a log that takes acknowledgments and
answers for the offset oracle.  In lossy surroundings the calls to either may be lost,
before or after their effect; else every call is served, and then every program of a
batch comes to an end.
-/

namespace ChainLedger

open Prog

/-- A log over the states `Λ`: what the oracle tells of each partition, and what comes of
the acknowledgment of a batch. -/
structure Parties (Λ : Type) where
  latestOffset : Λ → Partition → Option Nat
  acknowledge : Λ → Bounds → Λ × Except LogError Unit

/-- The rows of a store, and a log. -/
structure Site (Λ : Type) where
  rows : Table Address Row
  log : Λ

/-- How the calls of a batch may be answered. -/
inductive BatchAnswers {Λ : Type} (lossy : Prop) (parties : Parties Λ) :
    Surroundings batchSignature (Site Λ)
  | accepted (s : Site Λ) : BatchAnswers lossy parties s .accepting (.ok true) s
  | refused (h : lossy) (s : Site Λ) : BatchAnswers lossy parties s .accepting (.ok false) s
  | store {s : Site Λ} {rows : Table Address Row} {c : StoreCall} {deadline : Nat}
      {r : Except Fault (Timed c.Answer)} (h : StoreAnswers lossy s.rows c r rows) :
      BatchAnswers lossy parties s (.store c deadline) r { s with rows }
  | applied {s : Site Λ} {rows : Table Address Row} {policy : Policy} {jobs : List Job}
      {ends : List (JobEnd Apply.Result)}
      (h : Completes (ApplyAnswers lossy (parties.latestOffset s.log)) policy jobs s.rows ends
        rows) :
      BatchAnswers lossy parties s (.applyAll policy jobs) (.ok ends) { s with rows }
  | acknowledged (s : Site Λ) (b : Bounds) :
      BatchAnswers lossy parties s (.acknowledge b) (.ok (parties.acknowledge s.log b).2)
        { s with log := (parties.acknowledge s.log b).1 }
  /-- The acknowledgment is lost before it takes effect. -/
  | unacknowledged (h : lossy) (s : Site Λ) (b : Bounds)
      {r : Except Fault (Except LogError Unit)} (hr : Fails r) :
      BatchAnswers lossy parties s (.acknowledge b) r s
  /-- The acknowledgment is lost after it took effect. -/
  | unheard (h : lossy) (s : Site Λ) (b : Bounds) {r : Except Fault (Except LogError Unit)}
      (hr : Fails r) :
      BatchAnswers lossy parties s (.acknowledge b) r
        { s with log := (parties.acknowledge s.log b).1 }
  | told (s : Site Λ) (e : Event) : BatchAnswers lossy parties s (.tell e) (.ok ()) s

variable {Λ : Type} {lossy : Prop} {parties : Parties Λ} {s : Site Λ}

/-- When no call is lost, every call of a batch has an answer. -/
theorem exists_batchAnswers (parties : Parties Λ) (s : Site Λ) (c : BatchCall) :
  ∃ r s', BatchAnswers False parties s c r s'
  := by
  cases c with
  | accepting => exact ⟨_, _, .accepted s⟩
  | store c deadline => exact ⟨_, _, .store .served⟩
  | applyAll policy jobs =>
      obtain ⟨ends, rows, hcompletes⟩ := exists_completes jobs s.rows
      exact ⟨_, _, .applied hcompletes⟩
  | acknowledge b => exact ⟨_, _, .acknowledged s b⟩
  | tell e => exact ⟨_, _, .told s e⟩

namespace Batch

variable {β : Type} {Q : Except Fault β → Site Λ → Prop}

/-! ### Triples of the calls -/

/-- A store call. -/
theorem store_spec {policy : Policy} {c : StoreCall}
    {Q : Except Fault (Except StoreError c.Answer) → Site Λ → Prop}
    (h : AfterStore lossy s.rows c fun r rows => Q r { s with rows }) :
  Ensures (BatchAnswers lossy parties) s (store policy c) Q
  := by
  apply ensures_call
  intro r s' hcall
  cases hcall with
  | store hcall =>
      have hheard := h.of_answers hcall
      cases r with
      | ok a => exact ensures_done hheard
      | error f => exact hheard

/-- A program that starts with a store call. -/
theorem ensures_store {policy : Policy} {c : StoreCall} {k : Except StoreError c.Answer → Step β}
    (h : AfterStore lossy s.rows c
      fun r rows => Follows (BatchAnswers lossy parties) k Q r { s with rows }) :
  Ensures (BatchAnswers lossy parties) s (store policy c >>= k) Q
  := by
  apply ensures_bind
  exact store_spec h

/-- A program that starts by asking whether the batch is accepted. -/
theorem ensures_accepting {k : Bool → Step β}
    (haccepted : Ensures (BatchAnswers lossy parties) s (k true) Q)
    (hrefused : lossy → Ensures (BatchAnswers lossy parties) s (k false) Q) :
  Ensures (BatchAnswers lossy parties) s (Prog.ask (S := batchSignature) .accepting >>= k) Q
  := by
  apply ensures_call
  intro r s' hcall
  cases hcall with
  | accepted => exact haccepted
  | refused hlossy => exact hrefused hlossy

/-- A program that starts with the jobs of a batch. -/
theorem ensures_applyAll {policy : Policy} {jobs : List Job}
    {k : List (JobEnd Apply.Result) → Step β}
    (h : ∀ ends rows, Completes (ApplyAnswers lossy (parties.latestOffset s.log)) policy jobs
      s.rows ends rows → Ensures (BatchAnswers lossy parties) { s with rows } (k ends) Q) :
  Ensures (BatchAnswers lossy parties) s
    (Prog.ask (S := batchSignature) (.applyAll policy jobs) >>= k) Q
  := by
  apply ensures_call
  intro r s' hcall
  cases hcall with
  | applied hcompletes => exact h _ _ hcompletes

/-- A program that starts with the acknowledgment of a batch. -/
theorem ensures_acknowledge {b : Bounds} {k : Except LogError Unit → Step β}
    (hserved : Ensures (BatchAnswers lossy parties)
      { s with log := (parties.acknowledge s.log b).1 } (k (parties.acknowledge s.log b).2) Q)
    (hlost : lossy → ∀ r, Fails r → Follows (BatchAnswers lossy parties) k Q r s)
    (hunheard : lossy → ∀ r, Fails r → Follows (BatchAnswers lossy parties) k Q r
      { s with log := (parties.acknowledge s.log b).1 }) :
  Ensures (BatchAnswers lossy parties) s
    (Prog.ask (S := batchSignature) (.acknowledge b) >>= k) Q
  := by
  apply ensures_call
  intro r s' hcall
  have hfollows : Follows (BatchAnswers lossy parties) k Q r s' := by
    cases hcall with
    | acknowledged => exact hserved
    | unacknowledged hlossy _ _ hr => exact hlost hlossy r hr
    | unheard hlossy _ _ hr => exact hunheard hlossy r hr
  cases r with
  | ok a => exact hfollows
  | error f => exact hfollows

/-- A program that starts by telling the observers something. -/
theorem ensures_tell {e : Event} {k : Unit → Step β}
    (h : Ensures (BatchAnswers lossy parties) s (k ()) Q) :
  Ensures (BatchAnswers lossy parties) s (tell e >>= k) Q
  := by
  apply ensures_call
  intro r s' hcall
  cases hcall with
  | told => exact h

/-- A program that starts by telling the observers the same several times. -/
theorem ensures_tellAll {α : Type} {l : List α} {e : Event} {k : PUnit → Step β}
    (h : Ensures (BatchAnswers lossy parties) s (k ⟨⟩) Q) :
  Ensures (BatchAnswers lossy parties) s ((l.forM fun _ => tell e) >>= k) Q
  := by
  induction l with
  | nil => exact h
  | cons a l ih =>
      change Ensures _ _ ((tell e >>= fun _ => l.forM fun _ => tell e) >>= k) _
      rw [LawfulMonad.bind_assoc]
      exact ensures_tell ih

end Batch

/-! ### Changes to rows -/

/-- The rows of some of the addresses of `P` have become those that `f` gives; all others
are as they were. -/
def Partly (P : Address → Prop) (f : Address → Option Row) (rows rows' : Table Address Row) :
    Prop :=
  ∀ key, rows'.get? key = rows.get? key ∨ P key ∧ rows'.get? key = f key

/-- The rows of all addresses of `P` have become those that `f` gives; all others are as
they were. -/
structure Wholly (P : Address → Prop) (f : Address → Option Row) (rows rows' : Table Address Row) :
    Prop where
  changed : ∀ key, P key → rows'.get? key = f key
  others : ∀ key, ¬ P key → rows'.get? key = rows.get? key

variable {P P' : Address → Prop} {f : Address → Option Row} {rows rows' rows'' : Table Address Row}

theorem Partly.refl :
  Partly P f rows rows
  := fun _ => .inl rfl

theorem Partly.mono (h : Partly P f rows rows') (hP : ∀ key, P key → P' key) :
  Partly P' f rows rows'
  := fun key => (h key).imp_right fun ⟨hkey, hf⟩ => ⟨hP key hkey, hf⟩

theorem Partly.trans (h : Partly P f rows rows') (h' : Partly P f rows' rows'') :
  Partly P f rows rows''
  := by
  intro key
  rcases h' key with heq | hchanged
  · rw [heq]
    exact h key
  · exact .inr hchanged

/-- A change to the row of one address. -/
theorem Partly.at {key : Address} (hkey : P key)
    (heither : rows'.get? key = rows.get? key ∨ rows'.get? key = f key)
    (hothers : ∀ k ≠ key, rows'.get? k = rows.get? k) :
  Partly P f rows rows'
  := by
  intro k
  by_cases hk : k = key
  · subst hk
    exact heither.imp_right fun hf => ⟨hkey, hf⟩
  · exact .inl (hothers k hk)

theorem Wholly.trans (h : Wholly P f rows rows') (h' : Wholly P' f rows' rows'') :
  Wholly (fun key => P key ∨ P' key) f rows rows''
  := by
  constructor
  · intro key hkey
    by_cases hkey' : P' key
    · exact h'.changed key hkey'
    · rw [h'.others key hkey']
      exact h.changed key (hkey.resolve_right hkey')
  · intro key hkey
    rw [h'.others key fun hkey' => hkey (.inr hkey')]
    exact h.others key fun hkey' => hkey (.inl hkey')

end ChainLedger
