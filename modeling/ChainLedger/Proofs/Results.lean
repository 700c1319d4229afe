import ChainLedger.Proofs.Plan

/-!
# The results of the jobs

When the jobs of a batch have ended, each row is as it was or as the batch was to write
it.  If none of them failed, a job is locked exactly if its row is held, and all others
have written their rows; so the writes and the rows to be settled are known.
-/

namespace ChainLedger

/-- Something on the right stands for everything on the left of two lists that match. -/
theorem exists_of_forall₂ {α β : Type} {R : α → β → Prop} {l : List α} {l' : List β}
    (h : List.Forall₂ R l l') {a : α} (ha : a ∈ l) :
  ∃ b ∈ l', R a b
  := by
  induction h with
  | nil => cases ha
  | cons hab _ ih =>
      rcases List.mem_cons.mp ha with rfl | ha
      · exact ⟨_, .head _, hab⟩
      · obtain ⟨b, hb, hR⟩ := ih ha
        exact ⟨b, .tail _ hb, hR⟩

/-- Results can be collected exactly if every job has one. -/
theorem JobEnd.collect_eq_some {α : Type} {ends : List (JobEnd α)} {results : List α}
    (h : collect ends = some results) :
  ends = results.map .finished
  := by
  induction ends generalizing results with
  | nil =>
      cases h
      rfl
  | cons e ends ih =>
      cases e with
      | crashed => cases h
      | finished a =>
          rw [collect] at h
          obtain ⟨rest, hrest, rfl⟩ := Option.map_eq_some_iff.mp h
          rw [ih hrest, List.map_cons]

/-- If results cannot be collected, a job was stopped. -/
theorem JobEnd.crashed_of_collect {α : Type} {ends : List (JobEnd α)} (h : collect ends = none) :
  .crashed ∈ ends
  := by
  induction ends with
  | nil => cases h
  | cons e ends ih =>
      cases e with
      | crashed => exact .head _
      | finished a =>
          rw [collect, Option.map_eq_none_iff] at h
          exact .tail _ (ih h)

/-- A job's row is held. -/
def Job.Locked (rule : TakeoverRule) (positions : Partition → Option Nat) (j : Job) : Prop :=
  Blocked rule positions j.delta.source.partition j.row?

instance (rule : TakeoverRule) (positions : Partition → Option Nat) (j : Job) :
    Decidable (Job.Locked rule positions j) :=
  inferInstanceAs (Decidable (Blocked _ _ _ _))

namespace Batch

variable {b : Batch} {rs : List Record} {lossy : Prop} {positions : Partition → Option Nat}
  {policy : Policy} {rows rows₁ : Table Address Row} {jobs : List Job}

/-- The ends of the jobs, and the rows that they leave. -/
structure Ended (lossy : Prop) (positions : Partition → Option Nat) (policy : Policy)
    (rows : Table Address Row) (jobs : List Job) (ends : List (JobEnd Apply.Result))
    (rows₁ : Table Address Row) : Prop where
  each : List.Forall₂ (fun j e => j.Ends lossy positions policy e (rows₁.get? j.delta.key))
    jobs ends
  others : ∀ key, key ∉ jobs.map (·.delta.key) → rows₁.get? key = rows.get? key

variable {ends : List (JobEnd Apply.Result)}

/-- The jobs of a batch that have run to their ends have ended as each would alone. -/
theorem Planned.ended (hplan : b.Planned rows jobs) (hb : b.Collects rs) (hkeyed : Keyed rows)
    (h : Completes (ApplyAnswers lossy positions) policy jobs rows ends rows₁) :
  Ended lossy positions policy rows jobs ends rows₁
  := by
  obtain ⟨heach, hothers⟩ := h.ends (fun j hj => hplan.fresh hb hkeyed hj) hplan.nodup hplan.row
  exact ⟨heach, hothers⟩

/-- A job is for a position of the batch's partition. -/
theorem Planned.partition (hplan : b.Planned rows jobs) (hb : b.Collects rs) {j : Job}
    (hj : j ∈ jobs) :
  j.delta.source.partition = b.bounds.partition
  := (hb.of_toApply (hplan.delta j hj)).2.2.1.1

/-- A job that writes its row does what the batch is to do at its address. -/
theorem Planned.writes_of_written (hplan : b.Planned rows jobs) (hb : b.Collects rs) {j : Job}
    (hj : j ∈ jobs) {row' : Row} (hwritten : Row.written j.row? j.delta = .ok row')
    (hfree : ¬ Blocked policy.takeover positions j.delta.source.partition j.row?) :
  b.Writes policy.takeover positions j.delta.key (rows.get? j.delta.key)
    ∧ b.writtenAt j.delta.key (rows.get? j.delta.key) = some row'
  := by
  have hdelta := hplan.delta j hj
  rw [hplan.partition hb hj] at hfree
  rw [hplan.row j hj] at hfree hwritten
  constructor
  · exact ⟨hfree, j.delta, row', hdelta, hwritten⟩
  · exact writtenAt_of_written hdelta hwritten

/-- Each row is as it was, or as the batch was to write it. -/
theorem Planned.partly (hplan : b.Planned rows jobs) (hb : b.Collects rs)
    (h : Ended lossy positions policy rows jobs ends rows₁) :
  Partly (fun key => b.Writes policy.takeover positions key (rows.get? key))
    (fun key => b.writtenAt key (rows.get? key)) rows rows₁
  := by
  intro key
  by_cases hkey : key ∈ jobs.map (·.delta.key)
  · obtain ⟨j, hj, rfl⟩ := List.mem_map.mp hkey
    obtain ⟨e, -, he⟩ := exists_of_forall₂ h.each hj
    generalize hcell : rows₁.get? j.delta.key = cell at he
    cases he with
    | locked hrow hblocked => exact .inl (hplan.row j hj)
    | applied hwritten hfree =>
        obtain ⟨hwrites, heq⟩ := hplan.writes_of_written hb hj hwritten hfree
        exact .inr ⟨hwrites, heq.symm⟩
    | overflowed hwritten hfree => exact .inl (hplan.row j hj)
    | failed hlossy he => exact .inl (hplan.row j hj)
    | failedWritten hlossy he hwritten hfree =>
        obtain ⟨hwrites, heq⟩ := hplan.writes_of_written hb hj hwritten hfree
        exact .inr ⟨hwrites, heq.symm⟩
  · exact .inl (h.others key hkey)

/-! ### Faults among the results -/

/-- If no call is lost and nothing overflows, no job is stopped. -/
theorem Planned.collect_ne_none (hplan : b.Planned rows jobs) (hb : b.Collects rs)
    (h : Ended lossy positions policy rows jobs ends rows₁) (hcalm : ¬ lossy)
    (hfits : b.Fits policy.takeover positions rows) :
  JobEnd.collect ends ≠ none
  := by
  intro hnone
  obtain ⟨j, hj, hend⟩ := exists_of_forall₂ h.each.flip (JobEnd.crashed_of_collect hnone)
  change j.Ends lossy positions policy .crashed _ at hend
  generalize rows₁.get? j.delta.key = cell at hend
  cases hend with
  | overflowed hwritten hfree =>
      rw [hplan.partition hb hj, hplan.row j hj] at hfree
      obtain ⟨row', hrow'⟩ := hfits.writes _ _ (hplan.delta j hj) hfree
      rw [hplan.row j hj, hrow'] at hwritten
      cases hwritten
  | failed hlossy => exact hcalm hlossy
  | failedWritten hlossy => exact hcalm hlossy

/-- If no call is lost, no job ends in a failure. -/
theorem firstFailure_eq_none {results : List Apply.Result}
    (h : Ended lossy positions policy rows jobs (results.map .finished) rows₁)
    (hcalm : ¬ lossy) :
  firstFailure? results = none
  := by
  have heach := List.forall₂_map_right_iff.mp h.each
  clear h
  induction heach with
  | nil => rfl
  | @cons j r jobs results hend _ ih =>
      cases r with
      | ok e => exact ih
      | error f =>
          generalize rows₁.get? j.delta.key = cell at hend
          cases hend with
          | failed hlossy => exact absurd hlossy hcalm
          | failedWritten hlossy => exact absurd hlossy hcalm

/-! ### Results without a failure -/

/-- The endings of the jobs that have one. -/
def endings (results : List Apply.Result) : List Ending := results.filterMap Except.toOption

/-- The writes of the jobs. -/
def writes (results : List Apply.Result) : List Write := (endings results).filterMap write?

/-- The addresses found locked. -/
def lockeds (results : List Apply.Result) : List Address := (endings results).filterMap locked?

/-- The rows that the jobs leave to be settled. -/
def targets (results : List Apply.Result) : List Target := (endings results).filterMap target?

/-- What the results of jobs without a failure say: which addresses are locked, and which
rows are written. -/
structure Told (rule : TakeoverRule) (positions : Partition → Option Nat)
    (rows₁ : Table Address Row) (jobs : List Job) (results : List Apply.Result) : Prop where
  /-- The locked addresses are those whose row is held. -/
  lockeds : lockeds results = (jobs.filter (Job.Locked rule positions ·)).map (·.delta.key)
  /-- The row of all other addresses is written. -/
  writes : (writes results).map (·.key)
    = (jobs.filter (¬ Job.Locked rule positions ·)).map (·.delta.key)
  /-- What is written is to be settled. -/
  targets : targets results = (Batch.writes results).map fun w => ⟨w.key, w.version⟩
  /-- A write is that of a job, and its row is there. -/
  write : ∀ w ∈ Batch.writes results, ∃ j ∈ jobs, ∃ row', Row.written j.row? j.delta = .ok row' ∧
    w = Write.over j.row? j.delta row' ∧ rows₁.get? j.delta.key = some row'
  /-- The row of a locked address is left alone. -/
  kept : ∀ j ∈ jobs, Job.Locked rule positions j → rows₁.get? j.delta.key = j.row?

/-- One more job is locked. -/
theorem Told.locked {rule : TakeoverRule} {j : Job} {results : List Apply.Result}
    {reason : LockReason} (h : Told rule positions rows₁ jobs results)
    (hlocked : Job.Locked rule positions j) (hrow : rows₁.get? j.delta.key = j.row?) :
  Told rule positions rows₁ (j :: jobs) (.ok (.locked j.delta.key reason) :: results)
  := by
  constructor
  · rw [List.filter_cons_of_pos (by simpa using hlocked), List.map_cons, ← h.lockeds]
    rfl
  · rw [List.filter_cons_of_neg (by simpa using hlocked), ← h.writes]
    rfl
  · exact h.targets
  · intro w hw
    obtain ⟨j', hj', hwrite⟩ := h.write w hw
    exact ⟨j', .tail _ hj', hwrite⟩
  · intro j' hj' hlocked'
    rcases List.mem_cons.mp hj' with rfl | hj'
    · exact hrow
    · exact h.kept j' hj' hlocked'

/-- One more job has written its row. -/
theorem Told.applied {rule : TakeoverRule} {j : Job} {results : List Apply.Result} {row' : Row}
    (h : Told rule positions rows₁ jobs results) (hfree : ¬ Job.Locked rule positions j)
    (hwritten : Row.written j.row? j.delta = .ok row')
    (hrow : rows₁.get? j.delta.key = some row') :
  Told rule positions rows₁ (j :: jobs)
    (.ok (.applied (Write.over j.row? j.delta row')) :: results)
  := by
  constructor
  · rw [List.filter_cons_of_neg (by simpa using hfree), ← h.lockeds]
    rfl
  · rw [List.filter_cons_of_pos (by simpa using hfree), List.map_cons, ← h.writes]
    rfl
  · change _ :: Batch.targets results = _ :: _
    rw [h.targets]
    rfl
  · intro w hw
    change w ∈ _ :: Batch.writes results at hw
    rcases List.mem_cons.mp hw with rfl | hw
    · exact ⟨j, .head _, row', hwritten, rfl, hrow⟩
    · obtain ⟨j', hj', hwrite⟩ := h.write w hw
      exact ⟨j', .tail _ hj', hwrite⟩
  · intro j' hj' hlocked'
    rcases List.mem_cons.mp hj' with rfl | hj'
    · exact absurd hlocked' hfree
    · exact h.kept j' hj' hlocked'

/-- A result that is a failure is found. -/
theorem firstFailure_of_failed {e : JobEnd Apply.Result} {r : Apply.Result}
    {results : List Apply.Result} (he : Apply.Failed e) (hr : e = .finished r) :
  firstFailure? (r :: results) ≠ none
  := by
  rintro hnone
  rcases he with rfl | ⟨f, rfl⟩
  · cases hr
  · cases hr
    cases hnone

/-- Jobs without a failure tell which addresses are locked and what is written. -/
theorem told_of_ends {results : List Apply.Result}
    (heach : List.Forall₂
      (fun j r => j.Ends lossy positions policy (.finished r) (rows₁.get? j.delta.key))
      jobs results)
    (hnone : firstFailure? results = none) :
  Told policy.takeover positions rows₁ jobs results
  := by
  induction heach with
  | nil =>
      constructor
      · rfl
      · rfl
      · rfl
      · intro w hw
        cases hw
      · intro j hj
        cases hj
  | @cons j r jobs results hend _ ih =>
      generalize hcell : rows₁.get? j.delta.key = cell at hend
      cases hend with
      | locked hrow hblocked => exact (ih hnone).locked hblocked hcell
      | applied hwritten hfree => exact (ih hnone).applied hfree hwritten hcell
      | failed hlossy he => exact absurd hnone (firstFailure_of_failed he rfl)
      | failedWritten hlossy he => exact absurd hnone (firstFailure_of_failed he rfl)

/-! ### Locked addresses -/

/-- A job is locked exactly at an address of the batch whose row is held. -/
theorem Planned.mem_locked_iff {rule : TakeoverRule} {positions : Partition → Option Nat}
    {rows : Table Address Row} (hplan : b.Planned rows jobs) (hb : b.Collects rs)
    (key : Address) :
  key ∈ (jobs.filter (Job.Locked rule positions ·)).map (·.delta.key)
    ↔ key ∈ b.keys ∧ Blocked rule positions b.bounds.partition (rows.get? key)
  := by
  have hlocked : ∀ j ∈ jobs, Job.Locked rule positions j ↔
      Blocked rule positions b.bounds.partition (rows.get? j.delta.key) := by
    intro j hj
    rw [Job.Locked, hplan.partition hb hj, hplan.row j hj]
  simp only [List.mem_map, List.mem_filter, decide_eq_true_eq]
  constructor
  · rintro ⟨j, ⟨hj, hj'⟩, rfl⟩
    exact ⟨(hb.of_toApply (hplan.delta j hj)).2.1, (hlocked j hj).mp hj'⟩
  · rintro ⟨hkey, hblocked⟩
    have hheld : Held b.bounds.partition (rows.get? key) := by
      cases hrow : rows.get? key with
      | none =>
          rw [hrow] at hblocked
          exact hblocked.elim
      | some row =>
          rw [hrow] at hblocked
          exact hblocked.1
    obtain ⟨d, hd⟩ := hb.toApply_of_held hkey hheld
    obtain ⟨j, hj, rfl⟩ := List.mem_map.mp (hplan.all key d hd)
    exact ⟨j, ⟨hj, (hlocked j hj).mpr hblocked⟩, rfl⟩

/-- A batch is stuck exactly if one of its jobs is locked. -/
theorem Planned.stuck_iff {rule : TakeoverRule} {positions : Partition → Option Nat}
    {rows : Table Address Row} (hplan : b.Planned rows jobs) (hb : b.Collects rs) :
  b.Stuck rule positions rows
    ↔ (jobs.filter (Job.Locked rule positions ·)).map (·.delta.key) ≠ []
  := by
  constructor
  · rintro ⟨key, hkey⟩
    exact List.ne_nil_of_mem ((hplan.mem_locked_iff hb key).mpr hkey)
  · intro hne
    obtain ⟨key, hkey⟩ := List.exists_mem_of_ne_nil _ hne
    exact ⟨key, (hplan.mem_locked_iff hb key).mp hkey⟩

/-- If every job has written its row, then so it is with every delta to be applied. -/
theorem Planned.written_of_writes {rule : TakeoverRule} {positions : Partition → Option Nat}
    {rows : Table Address Row} {results : List Apply.Result} (hplan : b.Planned rows jobs)
    (htold : Told rule positions rows₁ jobs results)
    (hwrites : (writes results).map (·.key) = jobs.map (·.delta.key)) {key : Address} {d : Delta}
    (hd : b.toApply key (rows.get? key) = some d) :
  ∃ row', Row.written (rows.get? key) d = .ok row' ∧ rows₁.get? key = some row'
  := by
  have hmem := hplan.all key d hd
  rw [← hwrites] at hmem
  obtain ⟨w, hw, hkey⟩ := List.mem_map.mp hmem
  obtain ⟨j, hj, row', hwritten, rfl, hrow⟩ := htold.write w hw
  obtain rfl : j.delta.key = key := hkey
  have hdelta := hplan.delta j hj
  rw [hd] at hdelta
  obtain rfl := Option.some.inj hdelta
  rw [hplan.row j hj] at hwritten
  exact ⟨row', hwritten, hrow⟩

/-- If no job is locked, the rows are as the batch was to write them. -/
theorem Planned.written_of_told {rule : TakeoverRule} {positions : Partition → Option Nat}
    {rows : Table Address Row} {results : List Apply.Result} (hplan : b.Planned rows jobs)
    (hb : b.Collects rs) (hothers : ∀ key, key ∉ jobs.map (·.delta.key) →
      rows₁.get? key = rows.get? key)
    (htold : Told rule positions rows₁ jobs results) (hfree : lockeds results = []) :
  (∀ key, rows₁.get? key = b.writtenAt key (rows.get? key))
    ∧ (∀ key d, b.toApply key (rows.get? key) = some d →
        b.Writes rule positions key (rows.get? key))
    ∧ (writes results).map (·.key) = jobs.map (·.delta.key)
  := by
  have hnone : jobs.filter (Job.Locked rule positions ·) = [] := by
    rw [htold.lockeds] at hfree
    exact List.map_eq_nil_iff.mp hfree
  have hwrites : (writes results).map (·.key) = jobs.map (·.delta.key) := by
    rw [htold.writes]
    congr 1
    apply List.filter_eq_self.mpr
    intro j hj
    simpa using List.filter_eq_nil_iff.mp hnone j hj
  refine ⟨?_, ?_, hwrites⟩
  · intro key
    cases hd : b.toApply key (rows.get? key) with
    | some d =>
        obtain ⟨row', hwritten, hrow⟩ := hplan.written_of_writes htold hwrites hd
        rw [hrow, writtenAt_of_written hd hwritten]
    | none =>
        rw [writtenAt, hd]
        apply hothers
        intro hmem
        obtain ⟨j, hj, rfl⟩ := List.mem_map.mp hmem
        rw [hplan.delta j hj] at hd
        cases hd
  · intro key d hd
    obtain ⟨row', hwritten, -⟩ := hplan.written_of_writes htold hwrites hd
    refine ⟨?_, d, row', hd, hwritten⟩
    intro hblocked
    have hstuck : b.Stuck rule positions rows := ⟨key, (hb.of_toApply hd).2.1, hblocked⟩
    apply (hplan.stuck_iff hb).mp hstuck
    rw [hnone, List.map_nil]

/-! ### The rows to be settled -/

/-- A row to be settled is one that was written. -/
theorem Planned.target_of_told {rule : TakeoverRule} {positions : Partition → Option Nat}
    {rows : Table Address Row} {results : List Apply.Result} (hplan : b.Planned rows jobs)
    (htold : Told rule positions rows₁ jobs results) {t : Target} (ht : t ∈ targets results) :
  ∃ d row', b.toApply t.key (rows.get? t.key) = some d ∧ rows₁.get? t.key = some row' ∧
    row'.version = t.version ∧ row'.source = d.source ∧ row'.settled = false
  := by
  rw [htold.targets] at ht
  obtain ⟨w, hw, rfl⟩ := List.mem_map.mp ht
  obtain ⟨j, hj, row', hwritten, rfl, hrow⟩ := htold.write w hw
  obtain ⟨hsource, hsettled⟩ := Row.of_written hwritten
  exact ⟨j.delta, row', hplan.delta j hj, hrow, rfl, hsource, hsettled⟩

/-- If no job is locked, the rows to be settled are in doubt exactly at positions of the
batch. -/
theorem Prepared.mem_targets_of_told {rule : TakeoverRule} {positions : Partition → Option Nat}
    {rows : Table Address Row} {results : List Apply.Result} {carried : List Target}
    (h : b.Prepared rows carried jobs) (hb : b.Collects rs)
    (htold : Told rule positions rows₁ jobs results)
    (hkept : ∀ key, b.toApply key (rows.get? key) = none → rows₁.get? key = rows.get? key)
    (hkeys : (targets results).map (·.key) = jobs.map (·.delta.key)) (key : Address) :
  key ∈ (carried ++ targets results).map (·.key) ↔ b.InDoubt key (rows₁.get? key)
  := by
  rw [List.map_append, List.mem_append]
  constructor
  · rintro (hkey | hkey)
    · obtain ⟨t, ht, rfl⟩ := List.mem_map.mp hkey
      obtain ⟨hnone, hdoubt, -⟩ := (h.mem_carried t).mp ht
      rw [hkept _ hnone]
      exact hdoubt
    · obtain ⟨t, ht, rfl⟩ := List.mem_map.mp hkey
      obtain ⟨d, row', hd, hrow, -, hsource, hsettled⟩ := h.target_of_told htold ht
      obtain ⟨-, hmem, hcontains, -⟩ := hb.of_toApply hd
      exact ⟨hmem, row', hrow, hsettled, hsource ▸ hcontains⟩
  · intro hdoubt
    cases hd : b.toApply key (rows.get? key) with
    | some d =>
        right
        rw [hkeys]
        exact h.all key d hd
    | none =>
        left
        rw [hkept key hd] at hdoubt
        obtain ⟨hmem, row, hrow, hsettled, hcontains⟩ := hdoubt
        apply List.mem_map.mpr
        refine ⟨⟨key, row.version⟩, (h.mem_carried _).mpr ⟨hd, ?_, ?_⟩, rfl⟩
        · exact ⟨hmem, row, hrow, hsettled, hcontains⟩
        · exact ⟨row, hrow, rfl, hsettled⟩

/-- If no job is locked, the rows to be settled are in doubt under the versions that the
batch knows, and they are all rows in doubt at positions of the batch. -/
theorem Prepared.targets_of_told {rule : TakeoverRule} {positions : Partition → Option Nat}
    {rows : Table Address Row} {results : List Apply.Result} {carried : List Target}
    (h : b.Prepared rows carried jobs) (hb : b.Collects rs)
    (htold : Told rule positions rows₁ jobs results)
    (hwritten : ∀ key, rows₁.get? key = b.writtenAt key (rows.get? key))
    (hwrites : (writes results).map (·.key) = jobs.map (·.delta.key)) :
  (∀ t ∈ carried ++ targets results, Stands rows₁ t.key t.version)
    ∧ ((carried ++ targets results).map (·.key)).Nodup
    ∧ ∀ key, key ∈ (carried ++ targets results).map (·.key) ↔ b.InDoubt key (rows₁.get? key)
  := by
  have hkept : ∀ key, b.toApply key (rows.get? key) = none →
      rows₁.get? key = rows.get? key := by
    intro key hnone
    rw [hwritten, writtenAt, hnone]
  have hkeys : (targets results).map (·.key) = jobs.map (·.delta.key) := by
    rw [htold.targets, List.map_map, ← hwrites]
    rfl
  refine ⟨?_, ?_, h.mem_targets_of_told hb htold hkept hkeys⟩
  · intro t ht
    rcases List.mem_append.mp ht with ht | ht
    · obtain ⟨hnone, -, hstands⟩ := (h.mem_carried t).mp ht
      exact hstands.of_eq (hkept _ hnone)
    · obtain ⟨d, row', -, hrow, hversion, -, hsettled⟩ := h.target_of_told htold ht
      exact ⟨row', hrow, hversion, hsettled⟩
  · rw [List.map_append, hkeys]
    apply h.nodup_carried.append h.nodup
    intro key hcarry hjob
    obtain ⟨t, ht, rfl⟩ := List.mem_map.mp hcarry
    obtain ⟨j, hj, hkey⟩ := List.mem_map.mp hjob
    have hdelta := h.delta j hj
    rw [hkey, ((h.mem_carried t).mp ht).1] at hdelta
    cases hdelta

/-- If some job is locked, the rows that are not written are as before. -/
theorem Planned.kept_of_told {rule : TakeoverRule} {positions : Partition → Option Nat}
    {rows : Table Address Row} {results : List Apply.Result} (hplan : b.Planned rows jobs)
    (hothers : ∀ key, key ∉ jobs.map (·.delta.key) → rows₁.get? key = rows.get? key)
    (htold : Told rule positions rows₁ jobs results) {key : Address}
    (hkey : key ∉ (writes results).map (·.key)) :
  rows₁.get? key = rows.get? key
  := by
  by_cases hmem : key ∈ jobs.map (·.delta.key)
  · obtain ⟨j, hj, rfl⟩ := List.mem_map.mp hmem
    rw [htold.writes] at hkey
    have hlocked : Job.Locked rule positions j := by
      apply Classical.byContradiction
      intro hfree
      apply hkey
      exact List.mem_map.mpr ⟨j, List.mem_filter.mpr ⟨hj, by simpa using hfree⟩, rfl⟩
    rw [htold.kept j hj hlocked, hplan.row j hj]
  · exact hothers key hmem

/-- What is written is to be undone: the rows of the writes are in doubt, over the rows
from before the batch. -/
theorem Planned.undoable_of_told {rule : TakeoverRule} {positions : Partition → Option Nat}
    {rows : Table Address Row} {results : List Apply.Result} (hplan : b.Planned rows jobs)
    (htold : Told rule positions rows₁ jobs results) :
  (∀ w ∈ writes results, w.previous = rows.get? w.key)
    ∧ (∀ w ∈ writes results, Stands rows₁ w.key w.version)
    ∧ ((writes results).map (·.key)).Nodup
  := by
  refine ⟨?_, ?_, ?_⟩
  · intro w hw
    obtain ⟨j, hj, row', -, rfl, -⟩ := htold.write w hw
    exact hplan.row j hj
  · intro w hw
    obtain ⟨j, hj, row', hwritten, rfl, hrow⟩ := htold.write w hw
    exact ⟨row', hrow, rfl, (Row.of_written hwritten).2⟩
  · rw [htold.writes]
    exact (List.filter_sublist.map _).nodup hplan.nodup

end Batch

end ChainLedger
