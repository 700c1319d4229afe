import Mathlib.Data.List.Forall2
import Mathlib.Logic.Relation
import ChainLedger.Batch
import ChainLedger.Proofs.ApplyLoop

/-!
# Jobs at the same time

The apply loops of a batch run at the same time and share the rows: at any moment any
of them may make its next move.  This holds for every number of workers and for every
order in which they get their turns.  Each loop touches the row of its own address and
no other, so if the addresses are distinct each ends as it would alone.
-/

namespace ChainLedger

open Prog

/-- A job of a batch, before or after its end. -/
inductive Task
  /-- What is left of its current turn. -/
  | running (p : Apply.Step)
  /-- Its end. -/
  | ended (e : JobEnd Apply.Result)

/-- A job before its first turn. -/
def Task.start (policy : Policy) (j : Job) : Task :=
  .running (Apply.turn policy j.delta (.start j.row?))

/-- A move of one job: a call, or what comes after its turn. -/
inductive Task.Move {σ : Type} (A : Surroundings applySignature σ) (policy : Policy) (j : Job) :
    σ → Task → σ → Task → Prop
  /-- A call is answered. -/
  | answered {s s' : σ} {c : ApplyCall} {next : applySignature.Answer c → Apply.Step}
      {a : applySignature.Answer c} (h : A s c (.ok a) s') :
      Move A policy j s (.running (.call c next)) s' (.running (next a))
  /-- A call stops the job. -/
  | stopped {s s' : σ} {c : ApplyCall} {next : applySignature.Answer c → Apply.Step} {f : Fault}
      (h : A s c (.error f) s') :
      Move A policy j s (.running (.call c next)) s' (.ended .crashed)
  /-- The job stops itself. -/
  | crash {s : σ} {f : Fault} : Move A policy j s (.running (.crash f)) s (.ended .crashed)
  /-- Another turn follows. -/
  | again {s : σ} {t : Apply.State} :
      Move A policy j s (.running (.done (.again t))) s (.running (Apply.turn policy j.delta t))
  /-- The job is done. -/
  | done {s : σ} {r : Apply.Result} :
      Move A policy j s (.running (.done (.stop r))) s (.ended (.finished r))

/-- A move of any one of the jobs. -/
inductive Moves {σ : Type} (A : Surroundings applySignature σ) (policy : Policy)
    (jobs : List Job) : σ × List Task → σ × List Task → Prop
  | move (n : Nat) {s s' : σ} {tasks : List Task} {j : Job} {t t' : Task} (hj : jobs[n]? = some j)
      (ht : tasks[n]? = some t) (hmove : t.Move A policy j s s' t') :
      Moves A policy jobs (s, tasks) (s', tasks.set n t')

/-- All jobs have run, in some order of their moves, and these are their ends. -/
def Completes {σ : Type} (A : Surroundings applySignature σ) (policy : Policy)
    (jobs : List Job) (s : σ) (ends : List (JobEnd Apply.Result)) (s' : σ) : Prop :=
  Relation.ReflTransGen (Moves A policy jobs) (s, jobs.map (Task.start policy))
    (s', ends.map .ended)

/-! ### The calls of one address -/

/-- The call is about one address, or about none. -/
def About (key : Address) : ApplyCall → Prop
  | .store (.find k) _ => k = key
  | .store (.insert row) _ => row.key = key
  | .store (.update row _) _ => row.key = key
  | .store (.findAll _) _ => False
  | .store (.remove _) _ => False
  | .store (.settle _ _) _ => False
  | .latestOffset _ => True
  | .wait _ => True

namespace Apply

variable {policy : Policy} {d : Delta}

theorem uses_done {key : Address} {t : Turn State Result} :
  Uses (About key) (.done t : Step)
  := trivial

theorem uses_store {key : Address} {c : StoreCall} (h : About key (.store c policy.deadline)) :
  Uses (About key) (store policy c)
  := ⟨h, fun _ => trivial⟩

theorem uses_retry {key : Address} {s : State} {e : StoreError} {w : Option Write} :
  Uses (About key) (retry policy s e w)
  := by
  rw [retry]
  split
  · exact uses_done
  · exact uses_done

theorem uses_replace {s : State} {row : Row} {forced : Bool} (hkey : row.key = d.key) :
  Uses (About d.key) (replace policy d s row forced)
  := by
  rw [replace]
  cases hupdated : row.apply d with
  | error o => trivial
  | ok row' =>
      have hwritten : Row.written (some row) d = .ok row' := hupdated
      have hkey' : row'.key = d.key := Row.key_of_written (by simpa using hkey) hwritten
      apply uses_bind (uses_store (c := .update row' row.version) hkey')
      intro a
      rcases a with e | (_ | _)
      · apply uses_retry
      · dsimp only
        split
        · exact uses_done
        · exact uses_done
      · exact uses_done

theorem uses_read {s : State} :
  Uses (About d.key) (read policy d s)
  := by
  apply uses_bind (uses_store (c := .find d.key) rfl)
  intro a
  rcases a with e | row?
  · apply uses_retry
  · dsimp only
    split
    · split
      · exact uses_done
      · exact uses_done
    · exact uses_done

theorem uses_insert {s : State} :
  Uses (About d.key) (insert policy d s)
  := by
  apply uses_bind (uses_store (c := .insert (Row.ofDelta d)) rfl)
  intro a
  rcases a with e | (_ | _)
  · apply uses_retry
  · exact uses_done
  · exact uses_done

theorem uses_contend {s : State} {row : Row} (hkey : row.key = d.key) :
  Uses (About d.key) (contend policy d s row)
  := by
  rw [contend]
  split
  · exact ⟨trivial, fun _ => uses_done⟩
  · refine ⟨trivial, fun a => ?_⟩
    rcases a with e | committed
    · exact uses_done
    · change Uses _ (if _ then _ else _)
      split
      · exact uses_replace hkey
      · exact uses_done

/-- A turn calls for its own address only. -/
theorem uses_turn {s : State} (hkey : ∀ row, s.seen = some (some row) → row.key = d.key) :
  Uses (About d.key) (turn policy d s)
  := by
  rw [turn]
  cases hseen : s.seen with
  | none => apply uses_read
  | some row? =>
      cases row? with
      | none => apply uses_insert
      | some row =>
          have hkey := hkey row hseen
          dsimp only [Standing.of]
          by_cases hopen : row.settled ∨ row.SameOrigin d.source
          · simp only [hopen, if_true]
            split
            · exact uses_done
            · exact uses_replace hkey
          · simp only [hopen, if_false]
            exact uses_contend hkey

end Apply

/-- A store call about one address does to the row of that address what it would do if
there were no other, and nothing to the others. -/
theorem StoreCall.on_only {c : StoreCall} {key : Address} {deadline : Nat}
    (h : About key (.store c deadline)) (rows : Table Address Row) :
  c.on (rows.only key) = ((c.on rows).1.only key, (c.on rows).2)
    ∧ ∀ k ≠ key, (c.on rows).1.get? k = rows.get? k
  := by
  have hcell : (rows.only key).get? key = rows.get? key := by simp
  have hwrite : ∀ row : Row, (rows.only key).insert key row = (rows.insert key row).only key := by
    intro row
    apply Table.ext
    intro k
    simp only [Table.get?_insert, Table.get?_only]
    split
    · rfl
    · rfl
  have hframe : ∀ row : Row, ∀ k ≠ key, (rows.insert key row).get? k = rows.get? k := by
    intro row k hk
    rw [Table.get?_insert, if_neg hk]
  cases c with
  | find k =>
      obtain rfl : k = key := h
      refine ⟨?_, fun _ _ => rfl⟩
      rw [on_find, on_find, hcell]
  | insert row =>
      obtain rfl : row.key = key := h
      cases hrow : rows.get? row.key with
      | none =>
          rw [on_insert_of_none hrow, on_insert_of_none (hcell.trans hrow), hwrite]
          exact ⟨rfl, hframe row⟩
      | some old =>
          rw [on_insert_of_some hrow, on_insert_of_some (hcell.trans hrow)]
          exact ⟨rfl, fun _ _ => rfl⟩
  | update row expected =>
      obtain rfl : row.key = key := h
      by_cases hold : ∃ old, rows.get? row.key = some old ∧ old.version = expected
      · obtain ⟨old, hrow, hversion⟩ := hold
        rw [on_update_of_version hrow hversion,
          on_update_of_version (hcell.trans hrow) hversion, hwrite]
        exact ⟨rfl, hframe row⟩
      · have hnot : ∀ old, rows.get? row.key = some old → old.version ≠ expected :=
          fun old hrow hversion => hold ⟨old, hrow, hversion⟩
        rw [on_update_of_not hnot, on_update_of_not (by rwa [hcell])]
        exact ⟨rfl, fun _ _ => rfl⟩
  | findAll keys => exact h.elim
  | remove k => exact h.elim
  | settle k expected => exact h.elim

/-- A call about one address may be answered as if there were no other. -/
theorem ApplyAnswers.only {lossy : Prop} {positions : Partition → Option Nat}
    {rows rows' : Table Address Row} {c : ApplyCall} {r : Except Fault (applySignature.Answer c)}
    {key : Address} (h : ApplyAnswers lossy positions rows c r rows') (hkey : About key c) :
  ApplyAnswers lossy positions (rows.only key) c r (rows'.only key)
    ∧ ∀ k ≠ key, rows'.get? k = rows.get? k
  := by
  cases h with
  | @store _ _ c _ _ h =>
      obtain ⟨honly, hframe⟩ := StoreCall.on_only hkey rows
      cases h with
      | served =>
          refine ⟨.store ?_, hframe⟩
          have hserved : StoreAnswers lossy (rows.only key) c _ _ := .served
          rw [honly] at hserved
          exact hserved
      | lost hlossy hr => exact ⟨.store (.lost hlossy hr), fun _ _ => rfl⟩
      | landed hlossy hr =>
          refine ⟨.store ?_, hframe⟩
          have hlanded : StoreAnswers lossy (rows.only key) c _ _ := .landed hlossy hr
          rw [honly] at hlanded
          exact hlanded
  | position p => exact ⟨.position _ _, fun _ _ => rfl⟩
  | unavailable hlossy _ _ hr => exact ⟨.unavailable hlossy _ _ hr, fun _ _ => rfl⟩
  | waited ms => exact ⟨.waited _ _, fun _ _ => rfl⟩

/-! ### The invariant of the jobs -/

/-- The row of a job is one of its address, and does not count the job's delta. -/
structure Job.Fresh (j : Job) : Prop where
  key : ∀ row ∈ j.row?, row.key = j.delta.key
  new : ∀ row ∈ j.row?, ¬ row.Reflects j.delta.source

variable {lossy : Prop} {positions : Partition → Option Nat} {policy : Policy}
  {rows rows' : Table Address Row}

/-- How a job that started at its row may end, and the row it leaves. -/
abbrev Job.Ends (lossy : Prop) (positions : Partition → Option Nat) (policy : Policy) (j : Job) :
    JobEnd Apply.Result → Option Row → Prop :=
  Apply.Ends lossy positions policy j.delta j.row?

/-- What holds of a job among the others: alone with the row of its address, the rest of
its turn would end as a turn does. -/
def Task.Holds (lossy : Prop) (positions : Partition → Option Nat) (policy : Policy)
    (rows : Table Address Row) (j : Job) : Task → Prop
  | .running p =>
    Uses (About j.delta.key) p ∧
      Ensures (ApplyAnswers lossy positions) (rows.only j.delta.key) p
        (Apply.AfterTurn lossy positions policy j.delta j.row? j.delta.key)
  | .ended e => j.Ends lossy positions policy e (rows.get? j.delta.key)

/-- A job holds at the start of a turn. -/
theorem Task.holds_turn {j : Job} (hj : j.Fresh) {s : Apply.State}
    (h : Apply.Between lossy positions policy j.delta j.row? s (rows.get? j.delta.key)) :
  Task.Holds lossy positions policy rows j (.running (Apply.turn policy j.delta s))
  := by
  constructor
  · apply Apply.uses_turn
    intro row hseen
    apply hj.key
    generalize rows.get? j.delta.key = cell at h
    generalize j.row? = row? at h ⊢
    cases h with
    | unwritten h =>
        rw [hseen] at h
        simpa [eq_comm] using h
    | written _ _ _ h =>
        rw [hseen] at h
        cases h
  · apply Apply.turn_spec hj.key hj.new
    simpa using h

/-- A job that moves still holds, and leaves all other addresses alone. -/
theorem Task.Move.holds {j : Job} (hj : j.Fresh) {t t' : Task}
    (h : t.Holds lossy positions policy rows j)
    (hmove : t.Move (ApplyAnswers lossy positions) policy j rows rows' t') :
  t'.Holds lossy positions policy rows' j ∧ ∀ k ≠ j.delta.key, rows'.get? k = rows.get? k
  := by
  have hcell : ∀ rows : Table Address Row,
      (rows.only j.delta.key).get? j.delta.key = rows.get? j.delta.key := by simp
  cases hmove with
  | answered hcall =>
      obtain ⟨⟨habout, huses⟩, hensures⟩ := h
      obtain ⟨honly, hframe⟩ := hcall.only habout
      exact ⟨⟨huses _, hensures.follows honly⟩, hframe⟩
  | stopped hcall =>
      obtain ⟨⟨habout, huses⟩, hensures⟩ := h
      obtain ⟨honly, hframe⟩ := hcall.only habout
      have hend := hensures.follows honly
      rw [Follows, Apply.AfterTurn, hcell] at hend
      exact ⟨hend, hframe⟩
  | crash =>
      have hend := h.2 (.crash _ _)
      rw [Apply.AfterTurn, hcell] at hend
      exact ⟨hend, fun _ _ => rfl⟩
  | again =>
      have hbetween := h.2 (.done _ _)
      rw [Apply.AfterTurn, hcell] at hbetween
      exact ⟨Task.holds_turn hj hbetween, fun _ _ => rfl⟩
  | done =>
      have hend := h.2 (.done _ _)
      rw [Apply.AfterTurn, hcell] at hend
      exact ⟨hend, fun _ _ => rfl⟩

/-- Whether a job holds depends on the row of its own address only. -/
theorem Task.holds_congr {j : Job} {t : Task}
    (hcell : rows'.get? j.delta.key = rows.get? j.delta.key)
    (h : t.Holds lossy positions policy rows j) :
  t.Holds lossy positions policy rows' j
  := by
  cases t with
  | running p =>
      rw [Task.Holds, Table.only_congr hcell]
      exact h
  | ended e =>
      rw [Task.Holds, hcell]
      exact h

/-- What holds of all jobs together: each holds, and the addresses of none are as they
were at the start. -/
structure Tasks.Hold (lossy : Prop) (positions : Partition → Option Nat) (policy : Policy)
    (rows₀ : Table Address Row) (jobs : List Job) (rows : Table Address Row)
    (tasks : List Task) : Prop where
  length : jobs.length = tasks.length
  each : ∀ (n : Nat) (j : Job) (t : Task), jobs[n]? = some j → tasks[n]? = some t →
    t.Holds lossy positions policy rows j
  others : ∀ k, k ∉ jobs.map (·.delta.key) → rows.get? k = rows₀.get? k

/-- Jobs of distinct addresses still hold after any one of them has moved. -/
theorem Moves.hold {rows₀ : Table Address Row} {jobs : List Job} {tasks tasks' : List Task}
    (hfresh : ∀ j ∈ jobs, j.Fresh) (hnodup : (jobs.map (·.delta.key)).Nodup)
    (h : Tasks.Hold lossy positions policy rows₀ jobs rows tasks)
    (hmoves : Moves (ApplyAnswers lossy positions) policy jobs (rows, tasks) (rows', tasks')) :
  Tasks.Hold lossy positions policy rows₀ jobs rows' tasks'
  := by
  cases hmoves with
  | @move n _ _ _ j t t' hj ht hmove =>
      have hmem : j ∈ jobs := List.mem_of_getElem? hj
      obtain ⟨hholds, hframe⟩ := hmove.holds (hfresh j hmem) (h.each n j t hj ht)
      constructor
      · rw [List.length_set]
        exact h.length
      · intro m j' u hj' hu
        by_cases hnm : n = m
        · subst hnm
          obtain rfl := Option.some.inj (hj.symm.trans hj')
          have hlt : n < tasks.length := (List.getElem?_eq_some_iff.mp ht).1
          rw [List.getElem?_set_self hlt] at hu
          obtain rfl := Option.some.inj hu
          exact hholds
        · rw [List.getElem?_set_ne hnm] at hu
          apply Task.holds_congr (hframe _ _) (h.each m j' u hj' hu)
          intro hkey
          apply hnm
          have hn : (jobs.map (·.delta.key))[n]? = some j.delta.key := by simp [hj]
          have hm : (jobs.map (·.delta.key))[m]? = some j.delta.key := by simp [hj', hkey]
          have hlt := (List.getElem?_eq_some_iff.mp hn).1
          exact (List.getElem?_inj hlt hnodup).mp (hn.trans hm.symm)
      · intro k hk
        rw [hframe k, h.others k hk]
        rintro rfl
        exact hk (List.mem_map_of_mem hmem)

/-- Jobs that start at their rows hold. -/
theorem Tasks.hold_start {jobs : List Job} (hfresh : ∀ j ∈ jobs, j.Fresh)
    (hrow : ∀ j ∈ jobs, j.row? = rows.get? j.delta.key) :
  Tasks.Hold lossy positions policy rows jobs rows (jobs.map (Task.start policy))
  := by
  constructor
  · rw [List.length_map]
  · intro n j t hj ht
    rw [List.getElem?_map, hj] at ht
    obtain rfl := Option.some.inj ht
    have hmem : j ∈ jobs := List.mem_of_getElem? hj
    apply Task.holds_turn (hfresh j hmem)
    rw [← hrow j hmem]
    exact .unwritten (.inr rfl)
  · intro k hk
    rfl

/-- Jobs of distinct addresses still hold after any moves. -/
theorem Tasks.Hold.run {rows₀ : Table Address Row} {jobs : List Job}
    {x y : Table Address Row × List Task} (hfresh : ∀ j ∈ jobs, j.Fresh)
    (hnodup : (jobs.map (·.delta.key)).Nodup)
    (h : Tasks.Hold lossy positions policy rows₀ jobs x.1 x.2)
    (hmoves : Relation.ReflTransGen (Moves (ApplyAnswers lossy positions) policy jobs) x y) :
  Tasks.Hold lossy positions policy rows₀ jobs y.1 y.2
  := by
  induction hmoves with
  | refl => exact h
  | tail _ hmove ih => exact hmove.hold hfresh hnodup ih

/-- Jobs of distinct addresses that run at the same time end as each would alone, and
leave all other addresses as they were. -/
theorem Completes.ends {jobs : List Job} {ends : List (JobEnd Apply.Result)}
    (h : Completes (ApplyAnswers lossy positions) policy jobs rows ends rows')
    (hfresh : ∀ j ∈ jobs, j.Fresh) (hnodup : (jobs.map (·.delta.key)).Nodup)
    (hrow : ∀ j ∈ jobs, j.row? = rows.get? j.delta.key) :
  List.Forall₂ (fun j e => j.Ends lossy positions policy e (rows'.get? j.delta.key)) jobs ends
    ∧ ∀ k, k ∉ jobs.map (·.delta.key) → rows'.get? k = rows.get? k
  := by
  have hend := (Tasks.hold_start hfresh hrow).run hfresh hnodup h
  refine ⟨?_, hend.others⟩
  rw [List.forall₂_iff_get]
  have hlength : jobs.length = ends.length := by simpa using hend.length
  refine ⟨hlength, fun n hj he => ?_⟩
  apply hend.each n _ (.ended ends[n])
  · simp
  · simp

end ChainLedger
