import ChainLedger.Proofs.Interleaving

/-!
# Jobs that others interfere with

The apply loops of a batch run at the same time, and other writers may act between any two
of their calls.  A loop is then looked at alone, in surroundings where anything that it may
rely on can happen before each call.  What holds between two turns of every loop, whatever
the others do meanwhile, leads to what holds when all have ended.
-/

namespace ChainLedger

open Prog

/-- Surroundings in which something else may happen before every call. -/
def After {S : Signature} {σ : Type} (R : σ → σ → Prop) (A : Surroundings S σ) :
    Surroundings S σ :=
  fun s c r s' => ∃ s₁, R s s₁ ∧ A s₁ c r s'

/-- What is ensured where something else may happen before every call, is still ensured
after it has happened. -/
theorem Prog.Ensures.after {S : Signature} {σ α : Type} {R : σ → σ → Prop}
    {A : Surroundings S σ} {p : Prog S α} {Q : Except Fault α → σ → Prop}
    (htrans : ∀ s s₁ s', R s s₁ → R s₁ s' → R s s')
    (hQ : ∀ r s s', R s s' → Q r s → Q r s') {s s₁ : σ} (hs : R s s₁)
    (h : Ensures (After R A) s p Q) :
  Ensures (After R A) s₁ p Q
  := by
  cases p with
  | done a => exact ensures_done (hQ _ _ _ hs (h (.done s a)))
  | crash f => exact ensures_crash (hQ _ _ _ hs (h (.crash s f)))
  | call c next =>
      apply ensures_call
      rintro r s' ⟨s₂, hs₂, hcall⟩
      apply h.follows
      exact ⟨s₂, htrans _ _ _ hs hs₂, hcall⟩

namespace Apply

/-- What is to hold after a turn: between two turns, or at the end of the loop. -/
def Goes {σ : Type} (I : State → σ → Prop) (E : JobEnd Result → σ → Prop) :
    Except Fault (Turn State Result) → σ → Prop
  | .ok (.again t), s => I t s
  | .ok (.stop r), s => E (.finished r) s
  | .error _, s => E .crashed s

/-- In a loop of a delta that may rely on `R`, what `I` says holds between two turns, and
what `E` says when the loop has ended. -/
structure Invariant {σ : Type} (A : Surroundings applySignature σ) (R : σ → σ → Prop)
    (policy : Policy) (d : Delta) (I : State → σ → Prop) (E : JobEnd Result → σ → Prop) :
    Prop where
  /-- The others keep it between two turns. -/
  between : ∀ {t s s'}, R s s' → I t s → I t s'
  /-- The others keep it after the end. -/
  ended : ∀ {e s s'}, R s s' → E e s → E e s'
  /-- A row that was read is one of the delta's address. -/
  key : ∀ {t s row}, I t s → t.seen = some (some row) → row.key = d.key
  /-- Each turn keeps it. -/
  turn : ∀ {t s}, I t s → Ensures (After R A) s (Apply.turn policy d t) (Goes I E)

end Apply

variable {σ : Type}

/-- What a loop may rely on at each address: the calls about other addresses, and no more
than what these may do. -/
structure Rely (A : Surroundings applySignature σ) (R : Address → σ → σ → Prop) : Prop where
  refl : ∀ {key s}, R key s s
  trans : ∀ {key s s₁ s'}, R key s s₁ → R key s₁ s' → R key s s'
  others : ∀ {key key' s c r s'}, key' ≠ key → About key' c → A s c r s' → R key s s'

variable {A : Surroundings applySignature σ} {R : Address → σ → σ → Prop} {policy : Policy}
  {I : Job → Apply.State → σ → Prop} {E : Job → JobEnd Apply.Result → σ → Prop} {s s' : σ}

/-- What holds of a job that others interfere with: the rest of its turn keeps its
invariant, and calls for its own address only. -/
def Task.Stays (A : Surroundings applySignature σ) (R : σ → σ → Prop) (key : Address)
    (I : Apply.State → σ → Prop) (E : JobEnd Apply.Result → σ → Prop) (s : σ) : Task → Prop
  | .running p => Uses (About key) p ∧ Ensures (After R A) s p (Apply.Goes I E)
  | .ended e => E e s

/-- A job that the others interfere with stays as it is. -/
theorem Task.Stays.of_rely {j : Job} {t : Task} (hR : Rely A R)
    (hj : Apply.Invariant A (R j.delta.key) policy j.delta (I j) (E j))
    (hs : R j.delta.key s s')
    (h : t.Stays A (R j.delta.key) j.delta.key (I j) (E j) s) :
  t.Stays A (R j.delta.key) j.delta.key (I j) (E j) s'
  := by
  cases t with
  | running p =>
      obtain ⟨huses, hensures⟩ := h
      have htrans : ∀ s s₁ s', R j.delta.key s s₁ → R j.delta.key s₁ s' → R j.delta.key s s' :=
        fun _ _ _ => hR.trans
      have hgoes : ∀ r s s', R j.delta.key s s' → Apply.Goes (I j) (E j) r s →
          Apply.Goes (I j) (E j) r s' := by
        intro r s s' hs hgoes
        rcases r with f | (t | r)
        · exact hj.ended hs hgoes
        · exact hj.between hs hgoes
        · exact hj.ended hs hgoes
      exact ⟨huses, hensures.after htrans hgoes hs⟩
  | ended e => exact hj.ended hs h

/-- A job that moves stays within its invariant, and is one of the others to all other
addresses. -/
theorem Task.Move.stays {j : Job} {t t' : Task} (hR : Rely A R)
    (hj : Apply.Invariant A (R j.delta.key) policy j.delta (I j) (E j))
    (h : t.Stays A (R j.delta.key) j.delta.key (I j) (E j) s)
    (hmove : Task.Move A policy j s t s' t') :
  t'.Stays A (R j.delta.key) j.delta.key (I j) (E j) s' ∧ ∀ key ≠ j.delta.key, R key s s'
  := by
  cases hmove with
  | answered hcall =>
      obtain ⟨⟨habout, huses⟩, hensures⟩ := h
      exact ⟨⟨huses _, hensures.follows ⟨_, hR.refl, hcall⟩⟩,
        fun key hkey => hR.others (Ne.symm hkey) habout hcall⟩
  | stopped hcall =>
      obtain ⟨⟨habout, -⟩, hensures⟩ := h
      exact ⟨hensures.follows ⟨_, hR.refl, hcall⟩,
        fun key hkey => hR.others (Ne.symm hkey) habout hcall⟩
  | crash => exact ⟨h.2 (.crash _ _), fun _ _ => hR.refl⟩
  | again =>
      have hbetween := h.2 (.done _ _)
      exact ⟨⟨Apply.uses_turn fun row hseen => hj.key hbetween hseen, hj.turn hbetween⟩,
        fun _ _ => hR.refl⟩
  | done => exact ⟨h.2 (.done _ _), fun _ _ => hR.refl⟩

/-- What holds of all jobs together: each stays within its invariant, and at the addresses
of none no more has happened than a loop may rely on. -/
structure Tasks.Stay (A : Surroundings applySignature σ) (R : Address → σ → σ → Prop)
    (I : Job → Apply.State → σ → Prop) (E : Job → JobEnd Apply.Result → σ → Prop) (s₀ : σ)
    (jobs : List Job) (x : σ × List Task) : Prop where
  length : jobs.length = x.2.length
  each : ∀ (n : Nat) (j : Job) (t : Task), jobs[n]? = some j → x.2[n]? = some t →
    t.Stays A (R j.delta.key) j.delta.key (I j) (E j) x.1
  others : ∀ key, key ∉ jobs.map (·.delta.key) → R key s₀ x.1

variable {jobs : List Job}

/-- Jobs of distinct addresses stay within their invariants when any one of them moves. -/
theorem Moves.stay {s₀ : σ} {x y : σ × List Task} (hR : Rely A R)
    (hjobs : ∀ j ∈ jobs, Apply.Invariant A (R j.delta.key) policy j.delta (I j) (E j))
    (hnodup : (jobs.map (·.delta.key)).Nodup) (h : Tasks.Stay A R I E s₀ jobs x)
    (hmoves : Moves A policy jobs x y) :
  Tasks.Stay A R I E s₀ jobs y
  := by
  cases hmoves with
  | @move n s s' tasks j t t' hj ht hmove =>
      have hmem : j ∈ jobs := List.mem_of_getElem? hj
      obtain ⟨hstays, hothers⟩ := hmove.stays hR (hjobs j hmem) (h.each n j t hj ht)
      constructor
      · rw [List.length_set]
        exact h.length
      · intro m j' u hj' hu
        by_cases hnm : n = m
        · subst hnm
          obtain rfl := Option.some.inj (hj.symm.trans hj')
          have hlt : n < tasks.length := (List.getElem?_eq_some_iff.mp ht).1
          dsimp only at hu
          rw [List.getElem?_set_self hlt] at hu
          obtain rfl := Option.some.inj hu
          exact hstays
        · dsimp only at hu
          rw [List.getElem?_set_ne hnm] at hu
          have hmem' : j' ∈ jobs := List.mem_of_getElem? hj'
          apply Task.Stays.of_rely hR (hjobs j' hmem') _ (h.each m j' u hj' hu)
          apply hothers
          intro hkey
          apply hnm
          have hn : (jobs.map (·.delta.key))[n]? = some j.delta.key := by simp [hj]
          have hm : (jobs.map (·.delta.key))[m]? = some j.delta.key := by simp [hj', hkey]
          exact (List.getElem?_inj (List.getElem?_eq_some_iff.mp hn).1 hnodup).mp
            (hn.trans hm.symm)
      · intro key hkey
        apply hR.trans (h.others key hkey)
        apply hothers
        rintro rfl
        exact hkey (List.mem_map_of_mem hmem)

/-- Jobs of distinct addresses that start within their invariants end within them, and at
the addresses of none no more has happened than a loop may rely on. -/
theorem Completes.stay {ends : List (JobEnd Apply.Result)} (hR : Rely A R)
    (hjobs : ∀ j ∈ jobs, Apply.Invariant A (R j.delta.key) policy j.delta (I j) (E j))
    (hnodup : (jobs.map (·.delta.key)).Nodup) (hstart : ∀ j ∈ jobs, I j (.start j.row?) s)
    (h : Completes A policy jobs s ends s') :
  List.Forall₂ (fun j e => E j e s') jobs ends
    ∧ ∀ key, key ∉ jobs.map (·.delta.key) → R key s s'
  := by
  have hfirst : Tasks.Stay A R I E s jobs (s, jobs.map (Task.start policy)) := by
    constructor
    · rw [List.length_map]
    · intro n j t hj ht
      dsimp only at ht
      rw [List.getElem?_map, hj] at ht
      obtain rfl := Option.some.inj ht
      have hmem : j ∈ jobs := List.mem_of_getElem? hj
      have hbetween := hstart j hmem
      exact ⟨Apply.uses_turn fun row hseen => (hjobs j hmem).key hbetween hseen,
        (hjobs j hmem).turn hbetween⟩
    · intro key _
      exact hR.refl
  have hlast : Tasks.Stay A R I E s jobs (s', ends.map .ended) := by
    rw [Completes] at h
    generalize (s', ends.map Task.ended) = y at h
    induction h with
    | refl => exact hfirst
    | tail _ hmove ih => exact hmove.stay hR hjobs hnodup ih
  refine ⟨?_, hlast.others⟩
  rw [List.forall₂_iff_get]
  have hlength : jobs.length = ends.length := by simpa using hlast.length
  refine ⟨hlength, fun n hj he => ?_⟩
  apply hlast.each n _ (.ended ends[n])
  · simp
  · simp

end ChainLedger
