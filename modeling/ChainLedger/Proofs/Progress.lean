import ChainLedger.Proofs.Interleaving

/-!
# The jobs come to an end

When no call is lost, every turn of an apply loop but the last uses up an attempt or a
conflict, or reads the row that the next turn acts on.  So every loop ends, whatever
rows it meets, and the jobs of a batch can all be run to their ends.
-/

namespace ChainLedger

open Prog

variable {positions : Partition → Option Nat} {policy : Policy} {rows : Table Address Row}

/-- When no call is lost, only the answer of the store has to be considered. -/
theorem afterStore_calm {c : StoreCall}
    {Q : Except Fault (Except StoreError c.Answer) → Table Address Row → Prop}
    (h : Q (c.on rows).2 (c.on rows).1) :
  AfterStore False rows c Q
  := by
  constructor
  · exact h
  · exact False.elim
  · exact False.elim

namespace Apply

/-- What the next turn of a loop starts from, given what this turn starts from and the row of the
address, if no call is lost and there is a next turn. -/
inductive Next (policy : Policy) (d : Delta) (s : State) (row? : Option Row) : State → Prop
  /-- The row has been read. -/
  | read (hseen : s.seen = none) :
      Next policy d s row? { s with inFlight := none, seen := some row? }
  /-- There is a row already, so none could be made. -/
  | met {row : Row} (hseen : s.seen = some none) (hrow : row? = some row) :
      Next policy d s row? { s with seen := none }
  /-- The row is not the one last read, so it could not be replaced. -/
  | lost {row : Row} (hseen : s.seen = some (some row)) (hconflicts : s.conflicts < policy.conflicts)
      (hstale : row.key = d.key → row? ≠ some row) :
      Next policy d s row? { s with conflicts := s.conflicts + 1, seen := none }
  /-- The loop has waited for a held row. -/
  | waited {row : Row} (hseen : s.seen = some (some row)) (hspent : s.spent < policy.attempts) :
      Next policy d s row? { s with spent := s.spent + 1, seen := none }

/-- The turn ends the loop, or it changes no row and the next turn starts as it should. -/
def Continues (policy : Policy) (d : Delta) (s : State) (rows : Table Address Row) :
    Except Fault (Turn State Result) → Table Address Row → Prop
  | .ok (.again s'), rows' => rows' = rows ∧ Next policy d s (rows.get? d.key) s'
  | .ok (.stop _), _ => True
  | .error _, _ => True

variable {d : Delta} {s : State}

/-- A row that was read is replaced, or a conflict is used up. -/
theorem replace_continues {row : Row} {forced : Bool} (hseen : s.seen = some (some row)) :
  Ensures (ApplyAnswers False positions) rows (replace policy d s row forced)
    (Continues policy d s rows)
  := by
  rw [replace]
  cases hupdated : row.apply d with
  | error o =>
      apply ensures_crash
      trivial
  | ok row' =>
      obtain ⟨-, -, hrow'⟩ := Row.apply_eq_ok_iff.mp hupdated
      change Ensures _ _ (store policy (.update row' row.version) >>= _) _
      apply ensures_store
      apply afterStore_calm
      by_cases hold : ∃ old, rows.get? row'.key = some old ∧ old.version = row.version
      · obtain ⟨old, hold, hversion⟩ := hold
        rw [StoreCall.on_update_of_version hold hversion]
        apply ensures_done
        trivial
      · rw [StoreCall.on_update_of_not fun old hrow hversion => hold ⟨old, hrow, hversion⟩]
        dsimp only [Follows]
        split
        · apply ensures_done
          trivial
        · next hconflicts =>
            apply ensures_done
            refine ⟨rfl, .lost hseen (by omega) ?_⟩
            intro hkey hrow
            apply hold
            refine ⟨row, ?_, rfl⟩
            rw [hrow']
            exact hkey ▸ hrow

/-- A turn that reads makes the loop remember the row, unless it ends it. -/
theorem read_continues (hseen : s.seen = none) :
  Ensures (ApplyAnswers False positions) rows (read policy d s) (Continues policy d s rows)
  := by
  have hread : Continues policy d s rows
      (.ok (.again { s with inFlight := none, seen := some (rows.get? d.key) })) rows :=
    ⟨rfl, .read hseen⟩
  rw [read]
  apply ensures_store
  apply afterStore_calm
  rw [StoreCall.on_find]
  dsimp only [Follows]
  split
  · next hrow =>
      split
      · apply ensures_done
        trivial
      · apply ensures_done
        rw [hrow] at hread
        exact hread
  · apply ensures_done hread

/-- A turn that makes the first row ends the loop, or finds a row to be read. -/
theorem insert_continues (hseen : s.seen = some none) :
  Ensures (ApplyAnswers False positions) rows (insert policy d s) (Continues policy d s rows)
  := by
  rw [insert]
  apply ensures_store
  apply afterStore_calm
  cases hrow : rows.get? (Row.ofDelta d).key with
  | none =>
      rw [StoreCall.on_insert_of_none hrow]
      apply ensures_done
      trivial
  | some row =>
      rw [StoreCall.on_insert_of_some hrow]
      apply ensures_done
      exact ⟨rfl, .met hseen hrow⟩

/-- A turn that meets a held row uses up an attempt, replaces the row or ends the loop. -/
theorem contend_continues {row : Row} (hseen : s.seen = some (some row)) :
  Ensures (ApplyAnswers False positions) rows (contend policy d s row) (Continues policy d s rows)
  := by
  rw [contend]
  split
  · next hspent =>
      apply ensures_wait
      apply ensures_done
      exact ⟨rfl, .waited hseen hspent⟩
  · apply ensures_latestOffset
    · dsimp only
      split
      · apply replace_continues hseen
      · apply ensures_done
        trivial
    · exact False.elim

/-- Every turn that does not end the loop changes no row. -/
theorem turn_continues :
  Ensures (ApplyAnswers False positions) rows (turn policy d s) (Continues policy d s rows)
  := by
  rw [turn]
  cases hseen : s.seen with
  | none => apply read_continues hseen
  | some row? =>
      cases row? with
      | none => apply insert_continues hseen
      | some row =>
          dsimp only [Standing.of]
          by_cases hopen : row.settled ∨ row.SameOrigin d.source
          · simp only [hopen, if_true]
            split
            · apply ensures_done
              trivial
            · apply replace_continues hseen
          · simp only [hopen, if_false]
            apply contend_continues hseen

/-- How far a loop is from its end, given the row of its address: by the attempts and
conflicts left, and then by whether it has read the row. -/
def rank (policy : Policy) (s : State) (row? : Option Row) : Nat :=
  3 * ((policy.attempts - s.spent) + (policy.conflicts + 1 - s.conflicts)) +
    match s.seen, row? with
    | none, _ => 2
    | some none, some _ => 3
    | some none, none => 1
    | some (some _), _ => 1

/-- The next turn starts nearer to the end. -/
theorem Next.rank_lt {row? : Option Row} {s' : State} (h : Next policy d s row? s') :
  rank policy s' row? < rank policy s row?
  := by
  cases h with
  | read hseen =>
      cases row? with
      | none => simp [rank, hseen]
      | some row => simp [rank, hseen]
  | met hseen hrow => simp [rank, hseen, hrow]
  | lost hseen =>
      simp only [rank, hseen]
      omega
  | waited hseen =>
      simp only [rank, hseen]
      omega

/-- A bound on the turns of a loop over keyed rows that nobody else changes: two for each attempt
left, and those that it takes to act on the row as it is. -/
def turnsLeft (policy : Policy) (s : State) (row? : Option Row) : Nat :=
  2 * (policy.attempts - s.spent) +
    match s.seen with
    | none => 2
    | some seen? => if seen? = row? then 1 else 3

/-- Over keyed rows, the next turn is one of those left. -/
theorem Next.turnsLeft_lt {row? : Option Row} {s' : State} (h : Next policy d s row? s')
    (hkey : ∀ row ∈ row?, row.key = d.key) :
  turnsLeft policy s' row? < turnsLeft policy s row?
  := by
  cases h with
  | read hseen => simp [turnsLeft, hseen]
  | met hseen hrow => simp [turnsLeft, hseen, hrow]
  | @lost row hseen _ hstale =>
      have hother : some row ≠ row? := fun hrow => hstale (hkey row hrow.symm) hrow.symm
      simp [turnsLeft, hseen, hother]
  | waited hseen =>
      simp only [turnsLeft, hseen]
      split
      · omega
      · omega

end Apply

/-! ### Running one job -/

/-- What a job becomes at the end of a turn. -/
def Task.afterTurn (policy : Policy) (j : Job) :
    Except Fault (Turn Apply.State Apply.Result) → Task
  | .ok (.again s) => .running (Apply.turn policy j.delta s)
  | .ok (.stop r) => .ended (.finished r)
  | .error _ => .ended .crashed

/-- One job moves, step by step. -/
def Task.Path {σ : Type} (A : Surroundings applySignature σ) (policy : Policy) (j : Job) :
    σ × Task → σ × Task → Prop :=
  Relation.ReflTransGen fun x y => Task.Move A policy j x.1 x.2 y.1 y.2

/-- A job goes through a turn as the turn's program is executed. -/
theorem Task.path_of_exec {σ : Type} {A : Surroundings applySignature σ} {j : Job} {s s' : σ}
    {p : Apply.Step} {r : Except Fault (Turn Apply.State Apply.Result)}
    (h : Exec A s p r s') :
  Task.Path A policy j (s, .running p) (s', Task.afterTurn policy j r)
  := by
  induction h with
  | done s t =>
      cases t with
      | again t => exact .single .again
      | stop r => exact .single .done
  | crash s f => exact .single .crash
  | answered hcall _ ih => exact .head (b := (_, _)) (.answered hcall) ih
  | stopped hcall => exact .single (.stopped hcall)

/-- Alone, every job comes to its end. -/
theorem Task.exists_path (j : Job) (s : Apply.State) (rows : Table Address Row) :
  ∃ e rows', Task.Path (ApplyAnswers False positions) policy j
    (rows, .running (Apply.turn policy j.delta s)) (rows', .ended e)
  := by
  induction hrank : Apply.rank policy s (rows.get? j.delta.key) using Nat.strongRecOn
    generalizing s rows with
  | _ n ih =>
      obtain ⟨r, rows', hexec⟩ :=
        exists_exec (exists_applyAnswers False positions) rows (Apply.turn policy j.delta s)
      have hpath : Task.Path _ policy j _ _ := Task.path_of_exec hexec
      have hcontinues := Apply.turn_continues hexec
      rcases r with f | (s' | r)
      · exact ⟨_, _, hpath⟩
      · obtain ⟨rfl, hnext⟩ := hcontinues
        obtain ⟨e, rows'', hrest⟩ := ih _ (hrank ▸ hnext.rank_lt) s' rows' rfl
        exact ⟨e, rows'', hpath.trans hrest⟩
      · exact ⟨_, _, hpath⟩

/-! ### Running all jobs -/

/-- A job that moves, moves among the others. -/
theorem Task.Path.moves {σ : Type} {A : Surroundings applySignature σ} {jobs : List Job} {j : Job}
    {front back : List Task} (hj : jobs[front.length]? = some j) {x y : σ × Task}
    (h : Task.Path A policy j x y) :
  Relation.ReflTransGen (Moves A policy jobs) (x.1, front ++ x.2 :: back)
    (y.1, front ++ y.2 :: back)
  := by
  induction h with
  | refl => exact .refl
  | @tail y z _ hmove ih =>
      apply ih.tail
      have hstep : Moves A policy jobs (y.1, front ++ y.2 :: back) _ :=
        .move front.length hj (by simp) hmove
      rwa [List.set_append_right _ _ (Nat.le_refl _), Nat.sub_self, List.set_cons_zero] at hstep

/-- Two jobs that come to their ends one after the other have both come to their ends. -/
theorem completes_pair {σ : Type} {A : Surroundings applySignature σ} {j j' : Job} {s s₁ s₂ : σ}
    {e e' : JobEnd Apply.Result}
    (h : Task.Path A policy j (s, Task.start policy j) (s₁, .ended e))
    (h' : Task.Path A policy j' (s₁, Task.start policy j') (s₂, .ended e')) :
  Completes A policy [j, j'] s [e, e'] s₂
  := by
  have hfirst : Relation.ReflTransGen (Moves A policy [j, j'])
      (s, [] ++ _ :: [Task.start policy j']) _ := h.moves rfl
  have hsecond : Relation.ReflTransGen (Moves A policy [j, j'])
      (s₁, [Task.ended e] ++ _ :: []) _ := h'.moves rfl
  exact hfirst.trans hsecond

/-- Jobs that can each be run to an end, one after another, can all be run to their ends.
What holds of the jobs done so far, with their ends, is carried along. -/
theorem exists_completes_of_each {σ : Type} {A : Surroundings applySignature σ} {jobs : List Job}
    {I : List Job → List (JobEnd Apply.Result) → σ → Prop}
    (hstep : ∀ done j todo ends s, jobs = done ++ j :: todo → I done ends s → ∃ e s',
      Task.Path A policy j (s, Task.start policy j) (s', .ended e) ∧
        I (done ++ [j]) (ends ++ [e]) s')
    {s : σ} (hs : I [] [] s) :
  ∃ ends s', Completes A policy jobs s ends s' ∧ I jobs ends s'
  := by
  have rest : ∀ (todo done : List Job) (ends : List (JobEnd Apply.Result)) (s : σ),
      jobs = done ++ todo → ends.length = done.length → I done ends s →
      ∃ (ends' : List (JobEnd Apply.Result)) (s' : σ),
        Relation.ReflTransGen (Moves A policy jobs)
          (s, ends.map Task.ended ++ todo.map (Task.start policy))
          (s', ends'.map Task.ended) ∧ I jobs ends' s' := by
    intro todo
    induction todo with
    | nil =>
        intro done ends s hjobs hlength hI
        rw [List.append_nil] at hjobs
        rw [List.map_nil, List.append_nil, hjobs]
        exact ⟨ends, s, .refl, hI⟩
    | cons j todo ih =>
        intro done ends s hjobs hlength hI
        obtain ⟨e, s₁, hpath, hI₁⟩ := hstep done j todo ends s hjobs hI
        have hj : jobs[(ends.map Task.ended).length]? = some j := by
          simp [hjobs, hlength]
        have hmoves : Relation.ReflTransGen _ (_, _ ++ _ :: todo.map (Task.start policy)) _ :=
          hpath.moves hj
        obtain ⟨ends', s', hrest, hI'⟩ := ih (done ++ [j]) (ends ++ [e]) s₁ (by simp [hjobs])
          (by simp [hlength]) hI₁
        refine ⟨ends', s', hmoves.trans ?_, hI'⟩
        simpa using hrest
  exact rest jobs [] [] s rfl rfl hs

/-- When no call is lost, the jobs of a batch can all be run to their ends. -/
theorem exists_completes (jobs : List Job) (rows : Table Address Row) :
  ∃ ends rows', Completes (ApplyAnswers False positions) policy jobs rows ends rows'
  := by
  have hstep : ∀ (done : List Job) (j : Job) (todo : List Job) (ends : List (JobEnd Apply.Result))
      (rows : Table Address Row), jobs = done ++ j :: todo → True →
      ∃ e rows', Task.Path (ApplyAnswers False positions) policy j
        (rows, Task.start policy j) (rows', .ended e) ∧ True := by
    intro _ j _ _ rows _ _
    obtain ⟨e, rows', hpath⟩ := Task.exists_path j (.start j.row?) rows
    exact ⟨e, rows', hpath, trivial⟩
  obtain ⟨ends, rows', hcompletes, -⟩ := exists_completes_of_each hstep (s := rows) trivial
  exact ⟨ends, rows', hcompletes⟩

end ChainLedger
