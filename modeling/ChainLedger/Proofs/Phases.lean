import ChainLedger.Proofs.Site

/-!
# The last phases of a batch

A batch ends in undoing its writes, or in being acknowledged and having its rows
settled.  Either phase goes through some addresses one by one and gives each a row that
is known beforehand: the row before the batch, or the settled row.  If calls are lost it
does so for some of them; if none is, for all, unless a version overflows.
-/

namespace ChainLedger

open Prog

/-- The row with its position marked as acknowledged, its version raised. -/
def Row.final (row : Row) : Row := { row with version := row.version + 1, settled := true }

/-- The row of the address is in doubt and has the version. -/
def Stands (rows : Table Address Row) (key : Address) (version : Nat) : Prop :=
  ∃ row, rows.get? key = some row ∧ row.version = version ∧ row.settled = false

/-- Every row is stored under its own address. -/
def Keyed (rows : Table Address Row) : Prop := ∀ key row, rows.get? key = some row → row.key = key

theorem keyed_empty :
  Keyed .empty
  := by
  intro key row hrow
  cases hrow

/-- Rows that are stored under their own addresses ascend by address. -/
theorem Keyed.ascending_values {rows : Table Address Row} (h : Keyed rows) :
  rows.values.Pairwise fun r r' => compare r.key r'.key = .lt
  := by
  apply List.pairwise_map.mpr
  apply rows.ascending.imp_of_mem
  intro e e' he he' hlt
  rw [h e.1 e.2 (Table.get?_eq_some_iff.mpr he), h e'.1 e'.2 (Table.get?_eq_some_iff.mpr he')]
  exact hlt

/-- A phase has given some addresses of `P` the rows of `f`.  If no call is lost, all of
them have these rows and the phase ends with the answer `a`, unless there is an overflow,
which stops it. -/
structure Changed {Λ α : Type} (lossy overflow : Prop) (P : Address → Prop)
    (f : Address → Option Row) (a : α) (s : Site Λ) (r : Except Fault α) (s' : Site Λ) : Prop where
  log : s'.log = s.log
  partly : Partly P f s.rows s'.rows
  calm : ¬ lossy → overflow ∧ (∃ o, r = .error (.overflow o)) ∨
    ¬ overflow ∧ r = .ok a ∧ Wholly P f s.rows s'.rows

variable {Λ : Type} {lossy : Prop} {parties : Parties Λ} {s : Site Λ} {policy : Policy}

/-- A row that did not change is still in doubt. -/
theorem Stands.of_eq {rows rows' : Table Address Row} {key : Address} {version : Nat}
    (h : Stands rows key version) (heq : rows'.get? key = rows.get? key) :
  Stands rows' key version
  := by
  obtain ⟨row, hrow, hstands⟩ := h
  exact ⟨row, heq.trans hrow, hstands⟩

namespace Changed

variable {α β : Type} {overflow overflow' overflow'' : Prop} {P P' P'' : Address → Prop}
  {f : Address → Option Row} {a : α} {b : β} {r : Except Fault α} {s' : Site Λ}

/-- A phase without addresses has nothing to do. -/
theorem nothing (hP : ∀ key, ¬ P key) (hoverflow : ¬ overflow) :
  Changed lossy overflow P f a s (.ok a) s
  := by
  constructor
  · rfl
  · exact .refl
  · intro hcalm
    refine .inr ⟨hoverflow, rfl, ?_⟩
    constructor
    · intro key hkey
      exact absurd hkey (hP key)
    · intro key hkey
      rfl

/-- If calls are lost, the answer does not matter. -/
theorem lost (h : Changed lossy overflow P f a s r s') (hlossy : lossy) {r' : Except Fault β} :
  Changed lossy overflow P f b s r' s'
  := ⟨h.log, h.partly, fun hcalm => absurd hlossy hcalm⟩

/-- A phase of one address, from the ways in which its one call may end. -/
theorem one {key : Address} {rows : Table Address Row}
    (hothers : ∀ k ≠ key, rows.get? k = s.rows.get? k)
    (hrow : rows.get? key = s.rows.get? key ∨ rows.get? key = f key)
    (hcalm : ¬ lossy → overflow ∧ (∃ o, r = .error (.overflow o)) ∨
      ¬ overflow ∧ r = .ok a ∧ rows.get? key = f key) :
  Changed lossy overflow (· = key) f a s r { s with rows }
  := by
  constructor
  · rfl
  · exact Partly.at rfl hrow hothers
  · intro h
    refine (hcalm h).imp_right fun ⟨hoverflow, hr, hf⟩ => ⟨hoverflow, hr, ?_⟩
    constructor
    · rintro k rfl
      exact hf
    · exact hothers

/-- A lost call of a phase of one address may leave everything as it is. -/
theorem kept {key : Address} (hlossy : lossy) :
  Changed lossy overflow (· = key) f a s r s
  := one (fun _ _ => rfl) (.inl rfl) (absurd hlossy)

/-- A phase of one address may have put the row as it is to be. -/
theorem put {key : Address} {rows : Table Address Row} (hoverflow : ¬ overflow)
    (hothers : ∀ k ≠ key, rows.get? k = s.rows.get? k) (hrow : rows.get? key = f key)
    (hr : ¬ lossy → r = .ok a) :
  Changed lossy overflow (· = key) f a s r { s with rows }
  := one hothers (.inr hrow) fun hcalm => .inr ⟨hoverflow, hr hcalm, hrow⟩

/-- The answer of a phase may be taken further. -/
theorem map {p : Batch.Step α} (g : α → β)
    (h : Ensures (BatchAnswers lossy parties) s p (Changed lossy overflow P f a s)) :
  Ensures (BatchAnswers lossy parties) s (p >>= fun a => .done (g a))
    (Changed lossy overflow P f (g a) s)
  := by
  apply ensures_bind
  refine h.mono ?_
  intro r s' hchanged
  cases r with
  | ok a' =>
      apply ensures_done
      refine ⟨hchanged.log, hchanged.partly, fun hcalm => ?_⟩
      rcases hchanged.calm hcalm with ⟨-, o, hfault⟩ | ⟨hoverflow, ha, hwholly⟩
      · cases hfault
      · cases ha
        exact .inr ⟨hoverflow, rfl, hwholly⟩
  | error fault =>
      refine ⟨hchanged.log, hchanged.partly, fun hcalm => ?_⟩
      rcases hchanged.calm hcalm with ⟨hoverflow, o, hfault⟩ | ⟨-, ha, -⟩
      · cases hfault
        exact .inl ⟨hoverflow, o, rfl⟩
      · cases ha

/-- One phase after another is a phase about the addresses of both. -/
theorem bind {p : Batch.Step α} {k : α → Batch.Step β}
    (h : Ensures (BatchAnswers lossy parties) s p (Changed lossy overflow P f a s))
    (hk : ∀ x s', (∀ key, ¬ P key → s'.rows.get? key = s.rows.get? key) → (¬ lossy → x = a) →
      Ensures (BatchAnswers lossy parties) s' (k x) (Changed lossy overflow' P' f b s'))
    (hoverflow : overflow'' ↔ overflow ∨ overflow') (hP : ∀ key, P'' key ↔ P key ∨ P' key) :
  Ensures (BatchAnswers lossy parties) s (p >>= k) (Changed lossy overflow'' P'' f b s)
  := by
  obtain rfl : P'' = fun key => P key ∨ P' key := funext fun key => propext (hP key)
  apply ensures_bind
  refine h.mono ?_
  intro r s' hfirst
  have hothers : ∀ key, ¬ P key → s'.rows.get? key = s.rows.get? key :=
    fun key hkey => (hfirst.partly key).resolve_right fun hchanged => hkey hchanged.1
  cases r with
  | ok x =>
      have hx : ¬ lossy → x = a := by
        intro hcalm
        rcases hfirst.calm hcalm with ⟨-, o, hfault⟩ | ⟨-, ha, -⟩
        · cases hfault
        · cases ha
          rfl
      refine (hk x s' hothers hx).mono ?_
      intro r s'' hsecond
      constructor
      · exact hsecond.log.trans hfirst.log
      · apply (hfirst.partly.mono fun key hkey => .inl hkey).trans
        exact hsecond.partly.mono fun key hkey => .inr hkey
      · intro hcalm
        rcases hfirst.calm hcalm with ⟨-, o, hfault⟩ | ⟨hno, -, hwholly⟩
        · cases hfault
        · rcases hsecond.calm hcalm with ⟨hyes', hfault⟩ | ⟨hno', hr, hwholly'⟩
          · exact .inl ⟨hoverflow.mpr (.inr hyes'), hfault⟩
          · refine .inr ⟨?_, hr, hwholly.trans hwholly'⟩
            intro hyes
            exact (hoverflow.mp hyes).elim hno hno'
  | error fault =>
      constructor
      · exact hfirst.log
      · exact hfirst.partly.mono fun key hkey => .inl hkey
      · intro hcalm
        rcases hfirst.calm hcalm with ⟨hyes, o, hfault⟩ | ⟨-, ha, -⟩
        · cases hfault
          exact .inl ⟨hoverflow.mpr (.inl hyes), o, rfl⟩
        · cases ha

end Changed

namespace Batch

/-- A phase of one address whose only call puts the row as it is to be. -/
theorem store_put {α : Type} {overflow : Prop} {f : Address → Option Row} {a : α} {key : Address}
    {c : StoreCall} {k : Except StoreError c.Answer → Step α} {answer : c.Answer}
    {rows : Table Address Row} (hon : c.on s.rows = (rows, .ok (.ok answer)))
    (hoverflow : ¬ overflow) (hothers : ∀ k ≠ key, rows.get? k = s.rows.get? k)
    (hrow : rows.get? key = f key) (hanswered : k (.ok answer) = .done a)
    (hfailed : ∀ e, ∃ a', k (.error e) = .done a') :
  Ensures (BatchAnswers lossy parties) s (store policy c >>= k)
    (Changed lossy overflow (· = key) f a s)
  := by
  have hput : ∀ r : Except Fault α, (¬ lossy → r = .ok a) →
      Changed lossy overflow (· = key) f a s r { s with rows } :=
    fun r hr => .put hoverflow hothers hrow hr
  apply ensures_store
  constructor
  · rw [hon, Follows, hanswered]
    apply ensures_done
    exact hput _ fun _ => rfl
  · intro hlossy r hr
    apply Follows.of_fails hr
    · intro fault
      exact .kept hlossy
    · intro e
      obtain ⟨a', ha'⟩ := hfailed e
      rw [ha']
      exact ensures_done (.kept hlossy)
  · rw [hon]
    intro hlossy r hr
    apply Follows.of_fails hr
    · intro fault
      exact hput _ (absurd hlossy)
    · intro e
      obtain ⟨a', ha'⟩ := hfailed e
      rw [ha']
      exact ensures_done (hput _ (absurd hlossy))

/-! ### Undoing -/

variable {rows₀ : Table Address Row}

/-- A row that the batch made is removed. -/
theorem removeOwn_spec {w : Write} (hstands : Stands s.rows w.key w.version)
    (hprevious : rows₀.get? w.key = none) :
  Ensures (BatchAnswers lossy parties) s (removeOwn policy w)
    (Changed lossy False (· = w.key) rows₀.get? (.ok true) s)
  := by
  obtain ⟨row, hrow, hversion, hsettled⟩ := hstands
  rw [removeOwn]
  apply ensures_store
  apply AfterStore.of_read (StoreCall.on_find w.key)
  · dsimp only [Follows]
    rw [hrow]
    dsimp only
    rw [if_pos ⟨hversion, by simp [hsettled]⟩]
    apply store_put (StoreCall.on_remove w.key) id
    · intro k hk
      rw [Table.get?_erase, if_neg (Ne.symm hk)]
    · rw [Table.get?_erase, if_pos rfl, hprevious]
    · rfl
    · intro e
      exact ⟨_, rfl⟩
  · intro hlossy r hr
    exact .of_fails hr (fun _ => .kept hlossy) fun _ => ensures_done (.kept hlossy)

/-- A row that the batch wrote is put back as it was before. -/
theorem restore_spec {w : Write} (hkeyed : Keyed rows₀) (hprevious : w.previous = rows₀.get? w.key)
    (hstands : Stands s.rows w.key w.version) :
  Ensures (BatchAnswers lossy parties) s (restore policy w)
    (Changed lossy False (· = w.key) rows₀.get? (.ok true) s)
  := by
  rw [restore]
  cases hrow₀ : w.previous with
  | none => exact removeOwn_spec hstands (by rw [← hprevious, hrow₀])
  | some row₀ =>
      rw [hrow₀] at hprevious
      have hkey : row₀.key = w.key := hkeyed _ _ hprevious.symm
      obtain ⟨row, hrow, hversion, hsettled⟩ := hstands
      have hon : (StoreCall.update row₀ w.version).on s.rows = _ :=
        StoreCall.on_update_of_version (by rwa [hkey]) hversion
      rw [hkey] at hon
      dsimp only
      rw [← bind_done (store policy _)]
      apply store_put hon id
      · intro k hk
        rw [Table.get?_insert, if_neg hk]
      · rw [Table.get?_insert, if_pos rfl, hprevious]
      · rfl
      · intro e
        exact ⟨_, rfl⟩

/-- Undoing puts the rows that the batch wrote back as they were before it. -/
theorem restoreAll_spec {ws : List Write} (hkeyed : Keyed rows₀)
    (hprevious : ∀ w ∈ ws, w.previous = rows₀.get? w.key)
    (hstands : ∀ w ∈ ws, Stands s.rows w.key w.version) (hnodup : (ws.map (·.key)).Nodup) :
  Ensures (BatchAnswers lossy parties) s (restoreAll policy ws)
    (Changed lossy False (· ∈ ws.map (·.key)) rows₀.get? (ws.map (·.key)) s)
  := by
  induction ws generalizing s with
  | nil => exact ensures_done (.nothing (by simp) id)
  | cons w ws ih =>
      obtain ⟨hfirst, hnodup⟩ := List.nodup_cons.mp hnodup
      have hrestored : Ensures (BatchAnswers lossy parties) s (restore policy w) _ :=
        restore_spec hkeyed (hprevious w (.head _)) (hstands w (.head _))
      apply Changed.bind hrestored _ (or_self_iff (a := False)).symm fun key => List.mem_cons
      intro x s' hothers hx
      have hrest := ih (s := s') (fun w' hw' => hprevious w' (.tail _ hw'))
        (by
          intro w' hw'
          apply (hstands w' (.tail _ hw')).of_eq
          apply hothers
          intro heq
          apply hfirst
          exact List.mem_map.mpr ⟨w', hw', heq⟩)
        hnodup
      have hlost : x ≠ .ok true → Ensures (BatchAnswers lossy parties) s' (restoreAll policy ws)
          (Changed lossy False (· ∈ ws.map (·.key)) rows₀.get? ((w :: ws).map (·.key)) s') := by
        intro hne
        refine hrest.mono ?_
        intro r s'' hchanged
        apply hchanged.lost
        exact Classical.byContradiction fun hcalm => hne (hx hcalm)
      rcases x with e | (_ | _)
      · exact hlost (by simp)
      · exact hlost (by simp)
      · exact Changed.map (w.key :: ·) hrest

/-- A batch that is undone leaves the rows that it wrote as they were before. -/
theorem undo_spec {ws : List Write} {b : Bounds} {locked : List Address} (hkeyed : Keyed rows₀)
    (hprevious : ∀ w ∈ ws, w.previous = rows₀.get? w.key)
    (hstands : ∀ w ∈ ws, Stands s.rows w.key w.version) (hnodup : (ws.map (·.key)).Nodup) :
  Ensures (BatchAnswers lossy parties) s (undo policy b locked ws)
    (Changed lossy False (· ∈ ws.map (·.key)) rows₀.get?
      (.reverted b locked (ws.map (·.key))) s)
  := by
  rw [undo]
  apply ensures_tell
  apply ensures_bind
  refine (restoreAll_spec hkeyed hprevious hstands hnodup).mono ?_
  intro r s' hchanged
  cases r with
  | ok restored =>
      apply ensures_tell
      apply ensures_tell
      apply ensures_done
      refine ⟨hchanged.log, hchanged.partly, fun hcalm => ?_⟩
      rcases hchanged.calm hcalm with ⟨hfalse, -⟩ | ⟨hno, hrestored, hwholly⟩
      · exact hfalse.elim
      · cases hrestored
        exact .inr ⟨hno, rfl, hwholly⟩
  | error fault =>
      refine ⟨hchanged.log, hchanged.partly, fun hcalm => ?_⟩
      rcases hchanged.calm hcalm with ⟨hfalse, -⟩ | ⟨-, hrestored, -⟩
      · exact hfalse.elim
      · cases hrestored

end Batch

end ChainLedger
