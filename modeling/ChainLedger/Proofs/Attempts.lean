import ChainLedger.Proofs.Processing

/-!
# What an attempt may leave behind

While calls may be lost, every job of a batch may be run to its end, or be stopped before
it writes; one that is stopped makes the batch fail.  So any of the rows that a batch may
write can be just those that a failed attempt has written.
-/

namespace ChainLedger

open Prog

/-- An answer that a call may get when no call is lost, it may get in any case. -/
theorem ApplyAnswers.of_calm {lossy : Prop} {positions : Partition → Option Nat}
    {rows rows' : Table Address Row} {c : ApplyCall} {r : Except Fault (applySignature.Answer c)}
    (h : ApplyAnswers False positions rows c r rows') :
  ApplyAnswers lossy positions rows c r rows'
  := by
  cases h with
  | store h =>
      cases h with
      | served => exact .store .served
      | lost hlost => exact hlost.elim
      | landed hlanded => exact hlanded.elim
  | position => exact .position _ _
  | unavailable h => exact h.elim
  | waited => exact .waited _ _

namespace Task

variable {positions : Partition → Option Nat} {policy : Policy} {rows : Table Address Row} {j : Job}

/-- A way that a job may go when no call is lost, it may go in any case. -/
theorem Path.of_calm {lossy : Prop} {x y : Table Address Row × Task}
    (h : Path (ApplyAnswers False positions) policy j x y) :
  Path (ApplyAnswers lossy positions) policy j x y
  := by
  induction h with
  | refl => exact .refl
  | @tail y z _ hmove ih =>
      obtain ⟨rows, t⟩ := y
      obtain ⟨rows', t'⟩ := z
      apply ih.tail
      dsimp only at hmove ⊢
      cases hmove with
      | answered h => exact .answered h.of_calm
      | stopped h => exact .stopped h.of_calm
      | crash => exact .crash
      | again => exact .again
      | done => exact .done

/-- A job may be stopped before it writes anything. -/
theorem path_stopped (hnew : ∀ row ∈ j.row?, ¬ row.Reflects j.delta.source) :
  Path (ApplyAnswers True positions) policy j (rows, start policy j) (rows, .ended .crashed)
  := by
  have hlost : ∀ c : StoreCall, StoreAnswers True rows c (.error .injected) rows := by
    intro c
    apply StoreAnswers.lost trivial
    rintro a ⟨⟩
  rw [start, Apply.turn, Apply.State.start]
  dsimp only
  cases hrow : j.row? with
  | none =>
      apply path_of_exec (r := .error .injected)
      exact .stopped (.store (hlost _))
  | some row =>
      have hnew := hnew row hrow
      rw [Standing.of]
      by_cases hopen : row.settled ∨ row.SameOrigin j.delta.source
      · simp only [hopen, if_true, if_neg hnew]
        rw [Apply.replace]
        cases hupdated : row.apply j.delta with
        | error o =>
            apply path_of_exec (r := .error (.overflow o))
            exact .crash _ _
        | ok row' =>
            apply path_of_exec (r := .error .injected)
            exact .stopped (.store (hlost _))
      · simp only [hopen, if_false]
        rw [Apply.contend]
        split
        · -- the job waits, and is stopped when it reads the row again
          apply Relation.ReflTransGen.trans (b := (rows, Task.afterTurn policy j (.ok (.again _))))
          · apply path_of_exec
            exact .answered (.waited _ _) (.done _ _)
          · apply path_of_exec (r := .error .injected)
            exact .stopped (.store (hlost _))
        · apply path_of_exec (r := .error .injected)
          apply Exec.stopped
          apply ApplyAnswers.unavailable trivial
          rintro a ⟨⟩

/-- A job that may write its row may be run to where it has. -/
theorem exists_path_written (hj : j.Fresh) (hcell : j.row? = rows.get? j.delta.key) {row' : Row}
    (hwritten : Row.written j.row? j.delta = .ok row')
    (hfree : ¬ Blocked policy.takeover positions j.delta.source.partition j.row?) :
  ∃ e rows', Path (ApplyAnswers True positions) policy j (rows, start policy j) (rows', .ended e) ∧
    rows'.get? j.delta.key = some row' ∧ ∀ k ≠ j.delta.key, rows'.get? k = rows.get? k
  := by
  obtain ⟨e, rows', hpath⟩ := @exists_path positions policy j (.start j.row?) rows
  have hcompletes : Completes (ApplyAnswers False positions) policy [j] rows [e] rows' :=
    @Path.moves policy _ _ [j] j [] [] rfl _ _ hpath
  obtain ⟨heach, hothers⟩ := hcompletes.ends (by simpa using hj) (by simp) (by simpa using hcell)
  refine ⟨e, rows', hpath.of_calm, ?_, by simpa using hothers⟩
  obtain ⟨hend, -⟩ := List.forall₂_cons.mp heach
  generalize rows'.get? j.delta.key = cell at hend
  cases hend with
  | locked _ hblocked => exact absurd hblocked hfree
  | applied hwritten' =>
      rw [hwritten'] at hwritten
      cases hwritten
      rfl
  | overflowed hwritten' =>
      rw [hwritten'] at hwritten
      cases hwritten
  | failed hlossy => exact hlossy.elim
  | failedWritten hlossy => exact hlossy.elim

end Task

/-- Results cannot be collected if a job was stopped. -/
theorem JobEnd.collect_eq_none {α : Type} {ends : List (JobEnd α)} (h : .crashed ∈ ends) :
  collect ends = none
  := by
  cases hcollect : collect ends with
  | none => rfl
  | some results =>
      rw [collect_eq_some hcollect] at h
      obtain ⟨a, -, ha⟩ := List.mem_map.mp h
      cases ha

namespace Batch

/-- One attempt to process some records while calls may be lost, however it ends. -/
def Attempt {Λ : Type} (parties : Parties Λ) (policy : Policy) (rs : List Record)
    (s s' : Site Λ) : Prop :=
  ∃ r, Exec (BatchAnswers True parties) s (process policy rs) r s'

variable {b : Batch} {rs : List Record} {positions : Partition → Option Nat} {policy : Policy}
  {rows : Table Address Row} {jobs : List Job} {P : Address → Prop}

/-- What the jobs done so far have left, if those of `P` write their rows and the others are
stopped. -/
structure Attempted (b : Batch) (P : Address → Prop) (rows : Table Address Row) (done : List Job)
    (ends : List (JobEnd Apply.Result)) (rows₁ : Table Address Row) : Prop where
  /-- If there is a job that is not of `P`, one was stopped. -/
  stopped : (∃ j ∈ done, ¬ P j.delta.key) → .crashed ∈ ends
  /-- The rows of the other jobs are written. -/
  written : Wholly (fun key => P key ∧ key ∈ done.map (·.delta.key))
    (fun key => b.writtenAt key (rows.get? key)) rows rows₁

theorem Attempted.nothing :
  b.Attempted P rows [] [] rows
  := by
  constructor
  · rintro ⟨j, hj, -⟩
    cases hj
  · constructor
    · rintro key ⟨-, hmem⟩
      cases hmem
    · intro key _
      rfl

variable {done : List Job} {j : Job} {ends : List (JobEnd Apply.Result)} {e : JobEnd Apply.Result}
  {rows₁ rows₂ : Table Address Row}

/-- One more job has written its row. -/
theorem Attempted.write (h : b.Attempted P rows done ends rows₁) (hkey : P j.delta.key)
    (hrow : rows₂.get? j.delta.key = b.writtenAt j.delta.key (rows.get? j.delta.key))
    (hothers : ∀ key ≠ j.delta.key, rows₂.get? key = rows₁.get? key) :
  b.Attempted P rows (done ++ [j]) (ends ++ [e]) rows₂
  := by
  constructor
  · rintro ⟨j', hj', hkey'⟩
    rcases List.mem_append.mp hj' with hj' | hj'
    · apply List.mem_append_left
      apply h.stopped ⟨j', hj', hkey'⟩
    · obtain rfl := List.mem_singleton.mp hj'
      exact absurd hkey hkey'
  · constructor
    · rintro key ⟨hP, hmem⟩
      by_cases hk : key = j.delta.key
      · rw [hk, hrow]
      · rw [hothers key hk]
        apply h.written.changed key ⟨hP, by simpa [hk] using hmem⟩
    · intro key hnot
      have hk : key ≠ j.delta.key := by
        rintro rfl
        exact hnot ⟨hkey, by simp⟩
      rw [hothers key hk]
      apply h.written.others
      intro hbefore
      exact hnot ⟨hbefore.1, by simp [hbefore.2]⟩

/-- One more job was stopped. -/
theorem Attempted.stop (h : b.Attempted P rows done ends rows₁) (hkey : ¬ P j.delta.key) :
  b.Attempted P rows (done ++ [j]) (ends ++ [.crashed]) rows₁
  := by
  constructor
  · intro _
    apply List.mem_append_right _ (.head _)
  · constructor
    · rintro key ⟨hP, hmem⟩
      have hk : key ≠ j.delta.key := by
        rintro rfl
        exact hkey hP
      apply h.written.changed key ⟨hP, by simpa [hk] using hmem⟩
    · intro key hnot
      apply h.written.others
      intro hbefore
      exact hnot ⟨hbefore.1, by simp [hbefore.2]⟩

/-- The next job of a batch may be run to where it has written its row, if it is of `P`, and be
stopped if it is not. -/
theorem Planned.exists_next (hplan : b.Planned rows jobs) (hb : b.Collects rs)
    (hkeyed : Keyed rows)
    (hwrites : ∀ key, P key → b.Writes policy.takeover positions key (rows.get? key))
    {todo : List Job} (hjobs : jobs = done ++ j :: todo) (h : b.Attempted P rows done ends rows₁) :
  ∃ e rows₂, Task.Path (ApplyAnswers True positions) policy j
    (rows₁, Task.start policy j) (rows₂, .ended e) ∧
    b.Attempted P rows (done ++ [j]) (ends ++ [e]) rows₂
  := by
  have hj : j ∈ jobs := by simp [hjobs]
  have hfresh := hplan.fresh hb hkeyed hj
  by_cases hkey : P j.delta.key
  · obtain ⟨hfree, d, row', hd, hwritten⟩ := hwrites _ hkey
    obtain rfl := Option.some.inj (hd.symm.trans (hplan.delta j hj))
    have hat := writtenAt_of_written hd hwritten
    rw [← hplan.partition hb hj] at hfree
    rw [← hplan.row j hj] at hfree hwritten
    have hnew : j.delta.key ∉ done.map (·.delta.key) := by
      have hnodup := hplan.nodup
      rw [hjobs, List.map_append, List.map_cons] at hnodup
      intro hmem
      exact (List.nodup_append.mp hnodup).2.2 _ hmem _ (.head _) rfl
    have hcell : j.row? = rows₁.get? j.delta.key := by
      rw [h.written.others _ fun hmem => hnew hmem.2, hplan.row j hj]
    obtain ⟨e, rows₂, hpath, hrow, hothers⟩ :=
      Task.exists_path_written hfresh hcell hwritten hfree
    exact ⟨e, rows₂, hpath, h.write hkey (hrow.trans hat.symm) hothers⟩
  · exact ⟨.crashed, rows₁, Task.path_stopped hfresh.new, h.stop hkey⟩

/-- The jobs of a batch may be run so that they write the rows of `P` and no others, if the
batch may write these.  The other jobs are stopped. -/
theorem Planned.exists_completes (hplan : b.Planned rows jobs) (hb : b.Collects rs)
    (hkeyed : Keyed rows)
    (hwrites : ∀ key, P key → b.Writes policy.takeover positions key (rows.get? key)) :
  ∃ ends rows₁, Completes (ApplyAnswers True positions) policy jobs rows ends rows₁ ∧
    ((∃ j ∈ jobs, ¬ P j.delta.key) → .crashed ∈ ends) ∧
    Wholly P (fun key => b.writtenAt key (rows.get? key)) rows rows₁
  := by
  obtain ⟨ends, rows₁, hcompletes, hattempted⟩ := exists_completes_of_each
    (fun _ _ _ _ _ hjobs => hplan.exists_next hb hkeyed hwrites hjobs) Attempted.nothing
  refine ⟨ends, rows₁, hcompletes, hattempted.stopped, ?_, ?_⟩
  · intro key hP
    obtain ⟨-, d, -, hd, -⟩ := hwrites key hP
    apply hattempted.written.changed key ⟨hP, hplan.all key d hd⟩
  · intro key hP
    apply hattempted.written.others
    intro hmem
    exact hP hmem.1

variable {Λ : Type} {parties : Parties Λ} {s : Site Λ}

/-- An attempt may leave behind any of the rows that the batch may write, and no others, if
there is something else to apply. -/
theorem exists_attempt (hrs : ofRecords rs = .ok (some b)) (hkeyed : Keyed s.rows)
    (hsums : ∀ key, Totals.Summable ((b.pendingFor key (s.rows.get? key)).map (·.change)))
    (hwrites : ∀ key, P key →
      b.Writes policy.takeover (parties.latestOffset s.log) key (s.rows.get? key))
    (hrest : ∃ key d, b.toApply key (s.rows.get? key) = some d ∧ ¬ P key) :
  ∃ rows₁, Exec (BatchAnswers True parties) s (process policy rs) (.ok (.error .workerFailed))
      { s with rows := rows₁ } ∧
    Wholly P (fun key => b.writtenAt key (s.rows.get? key)) s.rows rows₁
  := by
  have hb := collects_of_ofRecords hrs
  have hselected : ∀ key ∈ b.keys,
      (MemoryStore.select { rows := s.rows } b.keys).get? key = s.rows.get? key := by
    intro key hkey
    rw [MemoryStore.get?_select, if_pos hkey]
  obtain ⟨merged, hmerged⟩ := hb.exists_merged hselected hsums
  have hplan := hb.planned hselected hmerged
  obtain ⟨ends, rows₁, hcompletes, hcrashed, hwholly⟩ :=
    hplan.exists_completes hb hkeyed hwrites
  have hcollect : JobEnd.collect ends = none := by
    apply JobEnd.collect_eq_none
    obtain ⟨key, d, hd, hkey⟩ := hrest
    obtain ⟨j, hj, rfl⟩ := List.mem_map.mp (hplan.all key d hd)
    exact hcrashed ⟨j, hj, hkey⟩
  refine ⟨rows₁, ?_, hwholly⟩
  rw [process]
  apply Exec.answered (.accepted s)
  rw [Prog.bind, if_pos rfl, hrs]
  apply Exec.answered (.store .served)
  apply Exec.answered (.told _ _)
  change Exec _ _ (Prog.ofExcept (Merge.batch _ b.deltas) >>= _) _ _
  rw [hmerged]
  apply Exec.answered (.applied hcompletes)
  rw [Prog.bind, hcollect]
  exact .done _ _

end Batch

end ChainLedger
