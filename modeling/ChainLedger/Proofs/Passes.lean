import ChainLedger.Proofs.Matching
import ChainLedger.Proofs.Seating

/-!
# Passes over cells

Where a batch is put back and where it is settled, it goes through a list and makes calls for one
address at a time.  In a store that keeps a cell for each address, what is done at one address has
no part in what is done at another.  So if no address comes twice, the order of the list makes no
difference to the cells, nor to which addresses succeed.  Only where a call of the store stops its
caller does the order show in the cells: the pass ends there, and the addresses behind are left.
-/

namespace ChainLedger

open Prog

/-- The call is for one address, or tells something. -/
def BatchCall.For (key : Address) : BatchCall → Prop
  | .store c _ => c.address? = some key
  | .tell _ => True
  | .accepting | .applyAll _ _ | .acknowledge _ => False

namespace Batch

variable {α β : Type} {key : Address}

/-- The program makes calls for one address only, and does not stop by itself. -/
def KeepsTo (key : Address) : Step α → Prop
  | .done _ => True
  | .crash _ => False
  | .call c next => c.For key ∧ ∀ a, KeepsTo key (next a)

theorem keepsTo_bind {p : Step α} {k : α → Step β} (hp : KeepsTo key p)
    (hk : ∀ a, KeepsTo key (k a)) :
  KeepsTo key (p >>= k)
  := by
  induction p with
  | done a => exact hk a
  | crash f => exact hp
  | call c next ih => exact ⟨hp.1, fun a => ih a (hp.2 a)⟩

theorem keepsTo_store {policy : Policy} {c : StoreCall} (h : c.address? = some key) :
  KeepsTo key (store policy c)
  := ⟨h, fun _ => trivial⟩

/-- Goes through a list, and tells those for which a program answers yes from the others. -/
def sift (body : α → Step Bool) : List α → Step (List α × List α)
  | [] => return ([], [])
  | a :: as => do
    let yes ← body a
    let (accepted, others) ← sift body as
    return if yes then (a :: accepted, others) else (accepted, a :: others)

end Batch

namespace Cells

variable {κ Λ α : Type} {C : Cells κ Λ} {size : Nat} {s t : Stand κ Λ}

/-- How the calls of a batch are answered.  The loops take the places of a pool of some size, and
their ends are handed out in any order. -/
inductive Batches (C : Cells κ Λ) (size : Nat) : Surroundings batchSignature (Stand κ Λ)
  | accepting (s : Stand κ Λ) : Batches C size s .accepting (.ok (C.accepting s.log)) s
  | store {s : Stand κ Λ} {cells' : Address → κ} {c : StoreCall} {deadline : Nat}
      {r : Except Fault (Timed c.Answer)} (h : C.call s.cells c = (cells', r)) :
      Batches C size s (.store c deadline) r { s with cells := cells' }
  | applied {s : Stand κ Λ} {cells' : Address → κ} {policy : Policy} {jobs : List Job}
      {ends collected : List (JobEnd Apply.Result)}
      (h : Pool.Finishes C.Loop policy size jobs s.cells ends cells')
      (hcollected : collected.Perm ends) :
      Batches C size s (.applyAll policy jobs) (.ok collected) { s with cells := cells' }
  | acknowledged {s : Stand κ Λ} {log' : Λ} {b : Bounds} {r : Except Fault (Except LogError Unit)}
      (h : C.acknowledge s.log b = (log', r)) :
      Batches C size s (.acknowledge b) r { s with log := log' }
  | told (s : Stand κ Λ) (e : Event) : Batches C size s (.tell e) (.ok ()) s

/-- No call for one address stops its caller. -/
def Steady (C : Cells κ Λ) : Prop := ∀ x c f, (C.store x c).2 ≠ .error f

/-- How two runs may differ that were both stopped by a fault.  Their logs are the same, and so are
their cells over a store none of whose calls stops its caller.  Over any other store, and the one
in memory is among them, as a version may overflow in it, nothing is said of the cells, also where
the fault has come before the first write. -/
def Akin (C : Cells κ Λ) (t t' : Stand κ Λ) : Prop := t.log = t'.log ∧ (C.Steady → t = t')

theorem akin_refl (t : Stand κ Λ) :
  C.Akin t t
  := ⟨rfl, fun _ => rfl⟩

/-- All runs of two programs agree, in pools of two sizes. -/
abbrev Pairs {β : Type} (C : Cells κ Λ) (size size' : Nat) (s : Stand κ Λ) (p : Batch.Step α)
    (p' : Batch.Step β) (R : α → β → Prop) : Prop :=
  Matches (C.Batches size) (C.Batches size') C.Akin s p p' R

/-! ### One call -/

section Calls

variable {c : StoreCall} {deadline : Nat} {next : Timed c.Answer → Batch.Step α}
  {cells' : Address → κ} {r : Except Fault α}

/-- A program that starts with a store call which is answered. -/
theorem exec_store_of_ok {a : Timed c.Answer} (h : C.call s.cells c = (cells', .ok a)) :
  Exec (C.Batches size) s (.call (.store c deadline) next) r t
    ↔ Exec (C.Batches size) { s with cells := cells' } (next a) r t
  := by
  constructor
  · intro hexec
    cases hexec with
    | answered hcall hnext =>
        cases hcall with
        | store hcall =>
            cases h.symm.trans hcall
            exact hnext
    | stopped hcall =>
        cases hcall with
        | store hcall => cases h.symm.trans hcall
  · intro hnext
    exact .answered (.store h) hnext

/-- A program that starts with a store call which stops it. -/
theorem exec_store_of_error {f : Fault} (h : C.call s.cells c = (cells', .error f)) :
  Exec (C.Batches size) s (.call (.store c deadline) next) r t
    ↔ r = .error f ∧ t = { s with cells := cells' }
  := by
  constructor
  · intro hexec
    cases hexec with
    | answered hcall =>
        cases hcall with
        | store hcall => cases h.symm.trans hcall
    | stopped hcall =>
        cases hcall with
        | store hcall =>
            cases h.symm.trans hcall
            exact ⟨rfl, rfl⟩
  · rintro ⟨rfl, rfl⟩
    exact .stopped (.store h)

/-- A program that starts by telling the observers something. -/
theorem exec_tell_iff {e : Event} {next : Unit → Batch.Step α} :
  Exec (C.Batches size) s (.call (.tell e) next) r t ↔ Exec (C.Batches size) s (next ()) r t
  := by
  constructor
  · intro hexec
    cases hexec with
    | answered hcall hnext =>
        cases hcall
        exact hnext
    | stopped hcall => cases hcall
  · intro hnext
    exact .answered (.told s e) hnext

end Calls

/-! ### One address -/

/-- How a cell by itself answers the calls for its address; it stops all others. -/
def single (C : Cells κ Λ) : κ → (c : BatchCall) → κ × Except Fault (batchSignature.Answer c)
  | x, .store c _ => C.store x c
  | x, .tell _ => (x, .ok ())
  | x, .accepting | x, .applyAll _ _ | x, .acknowledge _ => (x, .error .injected)

/-- A program that keeps to an address runs as it does with the cell of this address, and leaves
the others as they are. -/
theorem exec_iff_of_keepsTo {key : Address} {p : Batch.Step α} {r : Except Fault α}
    (h : Batch.KeepsTo key p) :
  Exec (C.Batches size) s p r t
    ↔ r = (p.run C.single (s.cells key)).2
      ∧ t = { s with cells := Function.update s.cells key (p.run C.single (s.cells key)).1 }
  := by
  induction p generalizing s with
  | done a =>
      simp only [run, Function.update_eq_self]
      constructor
      · rintro ⟨⟩
        exact ⟨rfl, rfl⟩
      · rintro ⟨rfl, rfl⟩
        exact .done s a
  | crash f => exact h.elim
  | call c next ih =>
      obtain ⟨hc, hnext⟩ := h
      cases c with
      | accepting => exact hc.elim
      | applyAll => exact hc.elim
      | acknowledge => exact hc.elim
      | tell e => exact exec_tell_iff.trans (ih () (hnext ()))
      | store c deadline =>
          have hserve := call_of_address (C := C) hc s.cells
          rw [run, single]
          rcases hstore : C.store (s.cells key) c with ⟨x, f | a⟩
          · rw [serve, hstore] at hserve
            exact exec_store_of_error hserve
          · rw [serve, hstore] at hserve
            -- the rest of the program updates the cell that this call has updated
            have hrest := ih a (hnext a) (s := { s with cells := Function.update s.cells key x })
            dsimp only at hrest
            rw [Function.update_self, Function.update_idem] at hrest
            exact (exec_store_of_ok hserve).trans hrest

/-- If the store does not stop its callers, a program that keeps to an address is not stopped. -/
theorem Steady.exists_run {key : Address} {p : Batch.Step α} (hC : C.Steady)
    (h : Batch.KeepsTo key p) (x : κ) :
  ∃ a, (p.run C.single x).2 = .ok a
  := by
  induction p generalizing x with
  | done a => exact ⟨a, rfl⟩
  | crash f => exact h.elim
  | call c next ih =>
      obtain ⟨hc, hnext⟩ := h
      cases c with
      | accepting => exact hc.elim
      | applyAll => exact hc.elim
      | acknowledge => exact hc.elim
      | tell e => exact ih () (hnext ()) x
      | store c deadline =>
          rw [run, single]
          rcases hstore : C.store x c with ⟨x', f | a⟩
          · exact absurd (congrArg (·.2) hstore) (hC x c f)
          · exact ih a (hnext a) x'

/-! ### A list of addresses -/

section Sifting

variable {key : α → Address} {body : α → Batch.Step Bool} {as as' : List α}
  {r r' : Except Fault (List α × List α)} {t' : Stand κ Λ}

/-- What the program for one entry does to the cell of its address. -/
def does (C : Cells κ Λ) (key : α → Address) (body : α → Batch.Step Bool) (cells : Address → κ)
    (a : α) : κ × Except Fault Bool :=
  (body a).run C.single (cells (key a))

/-- Whether the program for one entry answers yes. -/
def accepts (C : Cells κ Λ) (key : α → Address) (body : α → Batch.Step Bool) (cells : Address → κ)
    (a : α) : Bool :=
  match (C.does key body cells a).2 with
  | .ok yes => yes
  | .error _ => false

/-- What a pass over a list comes to. -/
inductive Sifted (C : Cells κ Λ) (key : α → Address) (body : α → Batch.Step Bool) (as : List α)
    (s : Stand κ Λ) : Except Fault (List α × List α) → Stand κ Λ → Prop
  /-- At each address the program has done what it does by itself. -/
  | ended {t : Stand κ Λ} (hlog : t.log = s.log)
      (heach : ∀ a ∈ as, ∃ yes, C.does key body s.cells a = (t.cells (key a), .ok yes))
      (hothers : ∀ k, k ∉ as.map key → t.cells k = s.cells k) :
      Sifted C key body as s (.ok (as.filter (C.accepts key body s.cells),
        as.filter fun a => ! C.accepts key body s.cells a)) t
  /-- At one of the addresses the program was stopped. -/
  | stopped {f : Fault} {t : Stand κ Λ} (hlog : t.log = s.log)
      (h : ∃ a ∈ as, ∃ f', (C.does key body s.cells a).2 = .error f') :
      Sifted C key body as s (.error f) t

/-- What is done at one address is not seen at another. -/
theorem does_update {a a' : α} (h : key a' ≠ key a) (cells : Address → κ) (x : κ) :
  C.does key body (Function.update cells (key a) x) a' = C.does key body cells a'
  := by
  rw [does, Function.update_of_ne h, does]

theorem accepts_of_does {cells : Address → κ} {a : α} {x : κ} {yes : Bool}
    (h : C.does key body cells a = (x, .ok yes)) :
  C.accepts key body cells a = yes
  := by
  rw [accepts, h]

/-- A list with one more entry in front, parted by a test. -/
theorem filter_cons_pair {p q : α → Bool} {a : α} (hsame : ∀ a' ∈ as, p a' = q a') :
  (if q a then (a :: as.filter p, as.filter fun a' => ! p a')
    else (as.filter p, a :: as.filter fun a' => ! p a'))
    = ((a :: as).filter q, (a :: as).filter fun a' => ! q a')
  := by
  have hnot : ∀ a' ∈ as, (! p a') = ! q a' := fun a' ha' => congrArg _ (hsame a' ha')
  rw [List.filter_congr hsame, List.filter_congr hnot, List.filter_cons, List.filter_cons]
  cases q a with
  | true => rfl
  | false => rfl

/-- One more entry comes before the others. -/
theorem Sifted.cons {a : α} {x : κ} {yes : Bool} {accepted others : List α}
    (hnew : key a ∉ as.map key) (hdoes : C.does key body s.cells a = (x, .ok yes))
    (h : C.Sifted key body as { s with cells := Function.update s.cells (key a) x }
      (.ok (accepted, others)) t) :
  C.Sifted key body (a :: as) s
    (.ok (if yes then (a :: accepted, others) else (accepted, a :: others))) t
  := by
  cases h with
  | ended hlog heach hothers =>
      have hsame : ∀ a' ∈ as, C.accepts key body (Function.update s.cells (key a) x) a'
          = C.accepts key body s.cells a' := by
        intro a' ha'
        rw [accepts, does_update (ne_of_new hnew ha'), accepts]
      have hlog' : t.log = s.log := hlog
      have hothers' : ∀ k, k ∉ as.map key → t.cells k = Function.update s.cells (key a) x k :=
        hothers
      rw [← accepts_of_does hdoes, filter_cons_pair hsame]
      apply Sifted.ended hlog'
      · intro a' ha'
        rcases List.mem_cons.mp ha' with rfl | ha'
        · refine ⟨yes, ?_⟩
          rw [hothers' _ hnew, Function.update_self]
          exact hdoes
        · obtain ⟨yes', hyes'⟩ := heach a' ha'
          rw [does_update (ne_of_new hnew ha')] at hyes'
          exact ⟨yes', hyes'⟩
      · intro k hk
        rw [List.map_cons, List.mem_cons, not_or] at hk
        rw [hothers' k hk.2, Function.update_of_ne hk.1]

/-- A pass over a list comes to what the program does at each address by itself. -/
theorem sifted_of_exec (hkeeps : ∀ a ∈ as, Batch.KeepsTo (key a) (body a))
    (hnodup : (as.map key).Nodup) (h : Exec (C.Batches size) s (Batch.sift body as) r t) :
  C.Sifted key body as s r t
  := by
  induction as generalizing s r t with
  | nil =>
      cases h
      exact .ended rfl (by simp) fun _ _ => rfl
  | cons a as ih =>
      obtain ⟨hnew, hnodup⟩ := List.nodup_cons.mp hnodup
      rw [Batch.sift] at h
      rcases exec_bind_iff.mp h with ⟨f, hbody, rfl⟩ | ⟨yes, s₁, hbody, hrest⟩
      · obtain ⟨hf, rfl⟩ := (exec_iff_of_keepsTo (hkeeps a (.head _))).mp hbody
        exact .stopped rfl ⟨a, .head _, f, hf.symm⟩
      · obtain ⟨hyes, rfl⟩ := (exec_iff_of_keepsTo (hkeeps a (.head _))).mp hbody
        rcases exec_bind_iff.mp hrest with ⟨f, hsift, rfl⟩ | ⟨x, t', hsift, hend⟩
        · cases ih (fun a' ha' => hkeeps a' (.tail _ ha')) hnodup hsift with
          | stopped hlog h =>
              -- the first entry has changed no cell of the others, so they are stopped at first too
              obtain ⟨a', ha', f', hf'⟩ := h
              rw [does_update (ne_of_new hnew ha')] at hf'
              exact .stopped hlog ⟨a', .tail _ ha', f', hf'⟩
        · cases hend
          exact (ih (fun a' ha' => hkeeps a' (.tail _ ha')) hnodup hsift).cons hnew
            (Prod.ext rfl hyes.symm)

/-- The order of the list makes no difference. -/
theorem Sifted.agree (hkeeps : ∀ a ∈ as, Batch.KeepsTo (key a) (body a)) (hperm : as.Perm as')
    (h : C.Sifted key body as s r t) (h' : C.Sifted key body as' s r' t') :
  Agree C.Akin (fun x x' => x.1.Perm x'.1 ∧ x.2.Perm x'.2) r t r' t'
  := by
  cases h with
  | ended hlog heach hothers =>
      cases h' with
      | ended hlog' heach' hothers' =>
          have hcells : t.cells = t'.cells := by
            funext k
            by_cases hk : k ∈ as.map key
            · obtain ⟨a, ha, rfl⟩ := List.mem_map.mp hk
              obtain ⟨yes, hyes⟩ := heach a ha
              obtain ⟨yes', hyes'⟩ := heach' a (hperm.mem_iff.mp ha)
              exact congrArg (·.1) (hyes.symm.trans hyes')
            · have hk' : k ∉ as'.map key := fun hmem => hk ((hperm.map key).mem_iff.mpr hmem)
              rw [hothers k hk, hothers' k hk']
          obtain ⟨cells, log⟩ := t
          obtain ⟨cells', log'⟩ := t'
          obtain rfl : cells = cells' := hcells
          obtain rfl : log = log' := hlog.trans hlog'.symm
          exact .ended ⟨hperm.filter _, hperm.filter _⟩
      | stopped _ h =>
          obtain ⟨a, ha, f, hf⟩ := h
          obtain ⟨yes, hyes⟩ := heach a (hperm.mem_iff.mpr ha)
          rw [hyes] at hf
          cases hf
  | stopped hlog h =>
      obtain ⟨a, ha, f, hf⟩ := h
      cases h' with
      | ended _ heach' =>
          obtain ⟨yes, hyes⟩ := heach' a (hperm.mem_iff.mp ha)
          rw [hyes] at hf
          cases hf
      | stopped hlog' _ =>
          -- the two may be stopped at different addresses, and then their cells differ
          refine .stopped ⟨hlog.trans hlog'.symm, fun hC => ?_⟩
          obtain ⟨yes, hyes⟩ := hC.exists_run (hkeeps a ha) (s.cells (key a))
          rw [does, hyes] at hf
          cases hf

/-- Passes over the same entries in different orders match. -/
theorem pairs_sift {size' : Nat} (hkeeps : ∀ a ∈ as, Batch.KeepsTo (key a) (body a))
    (hnodup : (as.map key).Nodup) (hperm : as.Perm as') :
  C.Pairs size size' s (Batch.sift body as) (Batch.sift body as')
    fun x x' => x.1.Perm x'.1 ∧ x.2.Perm x'.2
  := by
  intro r t r' t' h h'
  have hkeeps' : ∀ a ∈ as', Batch.KeepsTo (key a) (body a) :=
    fun a ha => hkeeps a (hperm.mem_iff.mpr ha)
  have hnodup' : (as'.map key).Nodup := (hperm.map key).nodup_iff.mp hnodup
  exact (sifted_of_exec hkeeps hnodup h).agree hkeeps hperm (sifted_of_exec hkeeps' hnodup' h')

end Sifting

end Cells

end ChainLedger
