import ChainLedger.Proofs.Course
import ChainLedger.Proofs.Scene

/-!
# Batches that are undone

What has to be shown of a batch that ends undone, whatever ports it runs through: only the
fetch of its rows, its loops and the calls that put rows back matter.  And a batch that shares
a store acknowledges nothing on this way.
-/

namespace ChainLedger

open Prog

namespace Batch

variable {σ : Type} {P : Ports σ} {policy : Policy} {rs : List Record} {s : σ}

/-- A batch that goes on to its acknowledgment does not end undone. -/
theorem commit_not_reverted {b : Bounds} {ws : List Write} {ts : List Target} :
  Ensures P.Batches s (commit policy b ws ts)
    fun r _ => ∀ b' locked restored, r ≠ .ok (.ok (.reverted b' locked restored))
  := by
  rw [commit]
  apply Ports.ensures_acknowledge
  intro r s' _
  rcases r with f | (e | _)
  · rintro _ _ _ ⟨⟩
  · apply ensures_done
    rintro _ _ _ ⟨⟩
  · apply Ports.ensures_tell
    apply Ports.ensures_tell
    apply ensures_bind
    intro r s'' _
    cases r with
    | error f => rintro _ _ _ ⟨⟩
    | ok result =>
        apply Ports.ensures_tell
        apply ensures_done
        rintro _ _ _ ⟨⟩

/-- The writes of jobs of distinct addresses are done, and are of distinct addresses. -/
theorem done_of_ends {W : Job → Watch σ} {jobs : List Job} {results : List Apply.Result}
    (hnodup : (jobs.map (·.delta.key)).Nodup)
    (hkey : ∀ j w, (W j).done w s → w.key = j.delta.key)
    (h : List.Forall₂ (fun j r => (W j).Ends j.delta s (.finished r)) jobs results) :
  (∀ w ∈ writes results, ∃ j ∈ jobs, (W j).done w s) ∧ ((writes results).map (·.key)).Nodup
  := by
  constructor
  · intro w hw
    obtain ⟨j, hj, hend⟩ := exists_of_forall₂ h.flip (mem_writes.mp hw)
    exact ⟨j, hj, hend.done⟩
  · have hkeys : ((writes results).map (·.key)).Sublist (jobs.map (·.delta.key)) := by
      apply sublist_of_endings fun e w => key_of_write
      refine h.imp ?_
      rintro j _ hend e rfl
      exact hend.key (hkey j)
    exact hkeys.nodup hnodup

/-- What holds of a batch that ends undone: it has fetched its rows, none of its loops has
failed, and its writes have been put back as far as possible. -/
theorem process_reverted {Q : Bounds → List Address → List Address → σ → Prop}
    (h : ∀ (b : Batch) rows s₁ merged results s₂, b.Collects rs →
      P.store .batch s (.findAll b.keys) (.ok (.answered (.ok rows))) s₁ →
      Merge.batch rows b.deltas = .ok merged →
      Completes P.Loops policy (jobs rows merged) s₁ (results.map .finished) s₂ →
      (∀ r ∈ results, ∃ e, r = .ok e) →
      Ensures P.Batches s₂ (restoreAll policy (writes results))
        fun r s' => ∀ restored, r = .ok restored → Q b.bounds (lockeds results) restored s') :
  Ensures P.Batches s (process policy rs)
    fun r s' => ∀ b locked restored, r = .ok (.ok (.reverted b locked restored)) →
      Q b locked restored s'
  := by
  rw [process]
  apply Ports.ensures_accepting
  intro accepted
  cases accepted with
  | false =>
      apply ensures_done
      rintro _ _ _ ⟨⟩
  | true =>
      rw [if_pos rfl]
      rcases hrs : ofRecords rs with e | (_ | b)
      · apply ensures_done
        rintro _ _ _ ⟨⟩
      · apply ensures_done
        rintro _ _ _ ⟨⟩
      · have hb := collects_of_ofRecords hrs
        change Ensures _ _ (run policy b) _
        rw [run]
        apply Ports.ensures_store
        intro r s₁ hfetch
        rcases Watch.answered_or_unanswered r with ⟨rows, rfl⟩ | hr
        · apply Ports.ensures_tell
          cases hmerged : Merge.batch rows b.deltas with
          | error o =>
              apply ensures_crash
              rintro _ _ _ ⟨⟩
          | ok merged =>
              apply Ports.ensures_applyAll
              intro ends s₂ hcompletes
              cases hcollect : JobEnd.collect ends with
              | none =>
                  apply ensures_done
                  rintro _ _ _ ⟨⟩
              | some results =>
                  obtain rfl := JobEnd.collect_eq_some hcollect
                  apply Ports.ensures_tell
                  rw [conclude]
                  apply Ports.ensures_tellAll
                  cases hnone : firstFailure? results with
                  | some f =>
                      apply ensures_done
                      rintro _ _ _ ⟨⟩
                  | none =>
                      have hended := ended_of_firstFailure hnone
                      have hrestored := h b rows s₁ merged results s₂ hb hfetch hmerged
                        hcompletes hended
                      dsimp only
                      split
                      · refine commit_not_reverted.mono ?_
                        intro r s' hne b locked restored hr
                        exact absurd hr (hne b locked restored)
                      · apply ensures_bind
                        rw [undo]
                        apply Ports.ensures_tell
                        apply ensures_bind
                        refine hrestored.mono ?_
                        intro r s' hQ
                        cases r with
                        | error f => rintro _ _ _ ⟨⟩
                        | ok restored =>
                            apply Ports.ensures_tell
                            apply Ports.ensures_tell
                            apply ensures_done
                            apply ensures_done
                            rintro _ _ _ ⟨⟩
                            exact hQ restored rfl
        · apply Follows.of_fails (fails_heard hr)
          · rintro f _ _ _ ⟨⟩
          · intro e
            apply ensures_done
            rintro _ _ _ ⟨⟩

end Batch

/-- A row that does not count a position is not at it. -/
theorem Row.source_ne {row : Row} {p : Position} (h : ¬ row.Reflects p) :
  row.source ≠ p
  := by
  rintro rfl
  exact h ⟨rfl, Nat.le_refl _⟩

/-- A job that is fresh starts from a row that is not at its position. -/
theorem Job.Fresh.source_ne {j : Job} (hj : j.Fresh) :
  ∀ row ∈ j.row?, row.source ≠ j.delta.source
  := fun row hrow => Row.source_ne (hj.new row hrow)

/-- The rows fetched from a shared store are those that are there. -/
theorem Scene.of_fetch {M : Manners} {s s' : Scene} {keys : List Address}
    {rows : Table Address Row} (hkeyed : Keyed s.rows)
    (h : (shared M).store .batch s (.findAll keys) (.ok (.answered (.ok rows))) s') :
  Keyed s'.rows ∧ ∀ key ∈ keys, rows.get? key = s'.rows.get? key
  := by
  obtain ⟨s₁, rows', hothers, hanswer, rfl⟩ := h
  have hkeyed' := (hanswer.keyed (Scene.keyed_of_meddled hothers hkeyed)).1
  have hon := hanswer.of_answered rfl
  rw [StoreCall.on_findAll] at hon
  cases hon
  refine ⟨hkeyed', ?_⟩
  intro key hkey
  rw [MemoryStore.get?_select, if_pos hkey]
  rfl

/-! ### No acknowledgment -/

/-- No acknowledgment has been called for. -/
def Scene.Unacknowledged (s : Scene) : Prop := ∀ b r, .acknowledge b r ∉ s.calls

namespace Scene

variable {M : Manners} {s s' : Scene} {policy : Policy}

/-- A store call is no acknowledgment. -/
theorem Unacknowledged.of_store {who : Caller} {c : StoreCall}
    {r : Except Fault (Timed c.Answer)} (h : s.Unacknowledged)
    (hcall : (shared M).store who s c r s') :
  s'.Unacknowledged
  := by
  obtain ⟨s₁, rows, hothers, -, rfl⟩ := hcall
  intro b r' hmem
  rw [calls_answer, calls_of_meddled hothers] at hmem
  rcases List.mem_append.mp hmem with hmem | hmem
  · exact h b r' hmem
  · simp at hmem

/-- The loops of a batch acknowledge nothing. -/
theorem Unacknowledged.of_completes {jobs : List Job} {ends : List (JobEnd Apply.Result)}
    (h : s.Unacknowledged) (hcompletes : Completes (shared M).Loops policy jobs s ends s') :
  s'.Unacknowledged
  := by
  apply Ports.completes_keeps _ _ hcompletes h
  · intro s c r s' h hcall
    exact h.of_store hcall
  · rintro s p r _ h rfl b r' hmem
    rw [calls_note] at hmem
    rcases List.mem_append.mp hmem with hmem | hmem
    · exact h b r' hmem
    · simp at hmem

end Scene

/-! ### A transfer that is undone -/

namespace Batch

/-- A partition with a transfer. -/
def home : Partition := ⟨"TRANSFERS", 0⟩

/-- Another partition. -/
def away : Partition := ⟨"TRANSFERS", 1⟩

/-- A policy that waits once. -/
def hasty : Policy := ⟨1, 100, 30, 5000, .past⟩

/-- What the transfer takes from the address that pays. -/
def debit : Delta where
  key := sender
  change := { balance := -5, transfers := 1 }
  source := ⟨home, 0⟩
  time := 9

/-- What the transfer gives to the address that is paid. -/
def credit : Delta where
  key := receiver
  change := { balance := 5, received := 5, transfers := 1 }
  source := ⟨home, 0⟩
  time := 9

/-- A row of the address that is paid, in doubt under the other partition. -/
def heldReceiver : Row where
  key := receiver
  totals := { balance := 100, received := 100, transfers := 1 }
  version := 0
  source := ⟨away, 4⟩
  settled := false
  firstSeen := 3
  lastSeen := 3

/-- The row that the transfer makes of it. -/
def paidReceiver : Row where
  key := receiver
  totals := { balance := 105, received := 105, transfers := 2 }
  version := 1
  source := ⟨home, 0⟩
  settled := false
  firstSeen := 3
  lastSeen := 9

/-- A store where the other partition holds the row of the address that is paid. -/
def heldRows : Table Address Row := Table.empty.insert receiver heldReceiver

/-- The write that makes the row of the address that pays. -/
def payment : Write where
  key := sender
  previous := none
  version := 0
  forced := false

theorem heldRows_eq {key : Address} {row : Row} (h : heldRows.get? key = some row) :
  key = receiver ∧ row = heldReceiver
  := by
  rw [heldRows, Table.get?_insert, Table.get?_empty] at h
  split at h
  · next hkey => exact ⟨hkey, (Option.some.inj h).symm⟩
  · cases h

theorem keyed_heldRows :
  Keyed heldRows
  := by
  intro key row hrow
  obtain ⟨rfl, rfl⟩ := heldRows_eq hrow
  rfl

/-- The scene when the batch has fetched its rows. -/
def fetchedScene : Scene :=
  Scene.serve ⟨heldRows, []⟩ .batch (.findAll (transferBatch home).keys)

/-- The scene when the row of the address that pays is made. -/
def paidScene : Scene := fetchedScene.serve .loop (.insert (Row.ofDelta debit))

/-- The scene when the address that is paid has been found locked. -/
def lockedScene : Scene :=
  (paidScene.serve .loop (.find receiver)).note (.latestOffset away (.ok (.ok none)))

variable {M : Manners}

/-- The jobs of the transfer, one after the other: one is done, the other waits once and then
finds its address locked. -/
theorem completes_locked :
  Completes (shared M).Loops hasty [⟨debit, none⟩, ⟨credit, some heldReceiver⟩] fetchedScene
    [.finished (.ok (.applied payment)),
      .finished (.ok (.locked receiver (.stalledWriter ⟨away, 4⟩ none)))] lockedScene
  := by
  have hpaid : Task.Path (shared M).Loops hasty ⟨debit, none⟩
      (fetchedScene, Task.start hasty ⟨debit, none⟩)
      (paidScene, .ended (.finished (.ok (.applied payment)))) := by
    apply Task.path_of_exec (r := .ok (.stop (.ok (.applied payment))))
    exact .answered (.store shared_serve) (.done _ _)
  have hwaited : Task.Path (shared M).Loops hasty ⟨credit, some heldReceiver⟩
      (paidScene, Task.start hasty ⟨credit, some heldReceiver⟩)
      (paidScene, .running (Apply.turn hasty credit { spent := 1, seen := none })) := by
    apply Task.path_of_exec (r := .ok (.again { spent := 1, seen := none }))
    exact .answered (.waited _ _) (.done _ _)
  have hread : Task.Path (shared M).Loops hasty ⟨credit, some heldReceiver⟩
      (paidScene, .running (Apply.turn hasty credit { spent := 1, seen := none }))
      (paidScene.serve .loop (.find receiver),
        .running (Apply.turn hasty credit { spent := 1, seen := some (some heldReceiver) })) := by
    apply Task.path_of_exec (r := .ok (.again { spent := 1, seen := some (some heldReceiver) }))
    exact .answered (.store shared_serve) (.done _ _)
  have hlocked : Task.Path (shared M).Loops hasty ⟨credit, some heldReceiver⟩
      (paidScene.serve .loop (.find receiver),
        .running (Apply.turn hasty credit { spent := 1, seen := some (some heldReceiver) }))
      (lockedScene, .ended (.finished (.ok (.locked receiver (.stalledWriter ⟨away, 4⟩ none))))) := by
    apply Task.path_of_exec
      (r := .ok (.stop (.ok (.locked receiver (.stalledWriter ⟨away, 4⟩ none)))))
    exact .answered (.latestOffset (r := .ok (.ok none)) rfl) (.done _ _)
  exact completes_pair hpaid ((hwaited.trans hread).trans hlocked)

/-- The transfer comes to be undone, and ends with what is put back. -/
theorem transfer_locked {restored : List Address} {s' : Scene}
    (h : Exec (shared M).Batches lockedScene (restoreAll hasty [payment]) (.ok restored) s') :
  Exec (shared M).Batches ⟨heldRows, []⟩ (process hasty [transfer home])
    (.ok (.ok (.reverted (transferBatch home).bounds [receiver] restored))) s'
  := by
  rw [process]
  refine .answered (.accepting _ true) ?_
  dsimp only [Prog.bind]
  rw [if_pos rfl, ofRecords_transfer]
  refine .answered (.store (r := .ok _) shared_serve) ?_
  refine .answered (.told _ _) ?_
  refine .answered (.applied completes_locked) ?_
  refine .answered (.told _ _) (.answered (.told _ _) ?_)
  change Exec _ _ ((restoreAll hasty [payment] >>= _) >>= _) _ _
  refine .bind (.bind h ?_) (.done _ _)
  exact .answered (.told _ _) (.answered (.told _ _) (.done _ _))

/-- If nobody interferes, then the row made is removed again. -/
theorem exists_transfer_undone (M : Manners) :
  ∃ s', Exec (shared M).Batches ⟨heldRows, []⟩ (process hasty [transfer home])
    (.ok (.ok (.reverted (transferBatch home).bounds [receiver] [sender]))) s'
  := by
  have hrestored : Exec (shared M).Batches lockedScene (restoreAll hasty [payment])
      (.ok [sender])
      ((lockedScene.serve .batch (.find sender)).serve .batch (.remove sender)) := by
    refine .answered (.store (r := .ok _) shared_serve) ?_
    refine .answered (.store (r := .ok _) shared_serve) ?_
    exact .done _ _
  exact ⟨_, transfer_locked hrestored⟩

end Batch

end ChainLedger
