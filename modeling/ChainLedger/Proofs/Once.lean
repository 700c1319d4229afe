import ChainLedger.Proofs.Undoing

/-!
# A delta is written once

The loop of one delta, while nobody else writes the rows and any call may be lost, before or
after its effect.  The loop remembers a write that was not answered until it has read the row
again, and the row then shows whether the write was done: a row that is the outcome of the
write is not the one replaced.  So however many calls are lost, the delta is written at most
once, and the end of the loop says truly what has become of the row, unless the loop fails.
-/

namespace ChainLedger

open Prog

/-- Nobody else writes the rows, and any call may be lost. -/
def solitary : Manners where
  may _ _ _ _ := False
  keyed := False.elim
  lossy _ _ := True

variable {row? : Option Row} {d : Delta} {s s' : Scene}

/-- The row of the delta's address has not been changed. -/
structure Untouched (row? : Option Row) (d : Delta) (s : Scene) : Prop where
  row : s.rows.get? d.key = row?
  changes : changesAt s.journal d.key = []

/-- The one change of the row of the delta's address is that the delta was written over it. -/
structure Once (row? : Option Row) (d : Delta) (row' : Row) (s : Scene) : Prop where
  written : Row.written row? d = .ok row'
  row : s.rows.get? d.key = some row'
  changes : changesAt s.journal d.key = [⟨.loop, d.key, row?, some row'⟩]

/-! ### Nobody interferes -/

/-- At an address that nobody else writes, nothing happens but what the loop does. -/
theorem Scene.eq_of_drifts_solitary {key : Address} (h : Scene.Drifts solitary key s s') :
  s'.rows.get? key = s.rows.get? key ∧ changesAt s'.journal key = changesAt s.journal key
  := by
  apply h.keep (P := fun s' => s'.rows.get? key = s.rows.get? key ∧
    changesAt s'.journal key = changesAt s.journal key)
  · rintro s₁ s₂ (⟨hrow, hchanges⟩ | ⟨_, hmay, -⟩) ⟨hrow₁, hchanges₁⟩
    · exact ⟨hrow.trans hrow₁, hchanges.trans hchanges₁⟩
    · exact hmay.elim
  · exact ⟨rfl, rfl⟩

theorem Untouched.drifts (h : Untouched row? d s) (hs : Scene.Drifts solitary d.key s s') :
  Untouched row? d s'
  := by
  obtain ⟨hrow, hchanges⟩ := Scene.eq_of_drifts_solitary hs
  exact ⟨hrow.trans h.row, hchanges.trans h.changes⟩

theorem Once.drifts {row' : Row} (h : Once row? d row' s)
    (hs : Scene.Drifts solitary d.key s s') :
  Once row? d row' s'
  := by
  obtain ⟨hrow, hchanges⟩ := Scene.eq_of_drifts_solitary hs
  exact ⟨h.written, hrow.trans h.row, hchanges.trans h.changes⟩

/-! ### The watch -/

/-- The write is the one that replaces the row. -/
def Write.Replaces (w : Write) (row? : Option Row) (d : Delta) : Prop :=
  w.previous = row? ∧ ∃ row', w.Makes d row'

/-- The write has been done, and nothing else. -/
def Write.DoneOnce (w : Write) (row? : Option Row) (d : Delta) (s : Scene) : Prop :=
  w.previous = row? ∧ ∃ row', w.version = row'.version ∧ Once row? d row' s

theorem Write.DoneOnce.drifts {w : Write} (h : w.DoneOnce row? d s)
    (hs : Scene.Drifts solitary d.key s s') :
  w.DoneOnce row? d s'
  := by
  obtain ⟨hprevious, row', hversion, honce⟩ := h
  exact ⟨hprevious, row', hversion, honce.drifts hs⟩

/-- What is said of a loop that nobody interferes with: the row that it reads is the one that it
started from, until it has replaced it. -/
def onceWatch (row? : Option Row) (d : Delta) : Watch Scene where
  seen seen? s := seen? = row? ∧ Untouched row? d s
  sent w? s := (∀ w ∈ w?, w.Replaces row? d) ∧
    (Untouched row? d s ∨ ∃ w ∈ w?, w.DoneOnce row? d s)
  done w s := w.DoneOnce row? d s

namespace onceWatch

theorem sent_drifts {w? : Option Write} (h : (onceWatch row? d).sent w? s)
    (hs : Scene.Drifts solitary d.key s s') :
  (onceWatch row? d).sent w? s'
  := by
  obtain ⟨hreplaces, huntouched | ⟨w, hw, hdone⟩⟩ := h
  · exact ⟨hreplaces, .inl (huntouched.drifts hs)⟩
  · exact ⟨hreplaces, .inr ⟨w, hw, hdone.drifts hs⟩⟩

/-- The row replaced is not the outcome of the write. -/
theorem not_landed {w : Write} {row : Row} (h : w.Replaces (some row) d) :
  ¬ Apply.Landed d w row
  := by
  rintro ⟨hversion, -⟩
  obtain ⟨hprevious, row', hmakes⟩ := h
  have hnext := hmakes.version_succ hprevious
  rw [← hmakes.version, ← hversion] at hnext
  omega

/-- The row written is the outcome of the write. -/
theorem landed {w : Write} {row' : Row} (hversion : w.version = row'.version)
    (h : Once row? d row' s) :
  Apply.Landed d w row'
  := ⟨hversion.symm, (Row.of_written h.written).1⟩

/-- A call that writes over the row does nothing, or writes the delta once. -/
theorem of_wrote {w : Write} {row' : Row} {P : Option Row → Prop}
    {r : Except Fault (Timed Bool)} (hmakes : w.Makes d row') (hprevious : w.previous = row?)
    (h : Untouched row? d s) (hwrote : Scene.Wrote s s' .loop row' P true false r) :
  (onceWatch row? d).AfterWrite w r s'
  := by
  have hreplaces : w.Replaces row? d := ⟨hprevious, row', hmakes⟩
  have hwritten : Row.written row? d = .ok row' := hprevious ▸ hmakes.written
  have hkey : row'.key = d.key := Row.key_of_written hmakes.previous hmakes.written
  cases hwrote with
  | refused hrow hchanges hr =>
      rw [hkey] at hrow hchanges
      have huntouched : Untouched row? d s' := ⟨hrow.trans h.row, hchanges.trans h.changes⟩
      apply Watch.AfterWrite.of
      · exact fun htrue => absurd htrue hr
      · exact fun _ => ⟨nofun, .inl huntouched⟩
      · rintro -
        refine ⟨?_, .inl huntouched⟩
        rintro _ ⟨⟩
        exact hreplaces
  | done _ hrow hchanges hr =>
      rw [hkey] at hrow hchanges
      rw [h.changes, h.row] at hchanges
      have hdone : w.DoneOnce row? d s' := ⟨hprevious, row', hmakes.version, hwritten, hrow, hchanges⟩
      apply Watch.AfterWrite.of
      · exact fun _ => hdone
      · exact fun hfalse => absurd hfalse hr
      · rintro -
        refine ⟨?_, .inr ⟨w, rfl, hdone⟩⟩
        rintro _ ⟨⟩
        exact hreplaces

/-- The watch is right about every loop that nobody interferes with. -/
theorem sound (hkey : ∀ row ∈ row?, row.key = d.key) :
  (onceWatch row? d).Sound (shared solitary) (Scene.Drifts solitary d.key) d
  := by
  constructor
  case seen => exact fun hs h => ⟨h.1, h.2.drifts hs⟩
  case sent => exact fun hs h => sent_drifts h hs
  case done => exact fun hs h => Write.DoneOnce.drifts h hs
  case key =>
    rintro s row ⟨hrow, -⟩
    exact hkey row hrow.symm
  case latestOffset =>
    rintro s p r _ rfl
    exact .single (Scene.drift_of_note _)
  case find =>
    intro s w? r s' h hcall
    have hsent := sent_drifts h (Scene.drifts_of_store hcall nofun)
    obtain ⟨s₁, rows, -, hanswer, rfl⟩ := hcall
    apply Watch.AfterRead.of
    · intro found? hr w hw row hrow hlanded
      obtain ⟨rfl, rfl⟩ := hanswer.of_found hr
      obtain ⟨hreplaces, huntouched | ⟨w', hw', hdone⟩⟩ := hsent
      · have hrow' : row? = some row := huntouched.row.symm.trans hrow
        exact absurd hlanded (not_landed (hrow' ▸ hreplaces w hw))
      · obtain rfl := Option.some.inj (hw.symm.trans hw')
        exact hdone
    · intro found? hr hnot
      obtain ⟨rfl, rfl⟩ := hanswer.of_found hr
      obtain ⟨hreplaces, huntouched | ⟨w', hw', -, row', hversion, honce⟩⟩ := hsent
      · exact ⟨⟨nofun, .inl huntouched⟩, huntouched.row, huntouched⟩
      · exact absurd (landed hversion honce) (hnot w' hw' row' honce.row)
    · exact fun _ => hsent
  case insert =>
    rintro s r s' - ⟨rfl, huntouched⟩ ⟨s₁, rows, hothers, hanswer, rfl⟩
    have huntouched := huntouched.drifts (Scene.drifts_of_meddled hothers d.key)
    exact of_wrote (Write.makes_insert d) rfl huntouched (Scene.insert_wrote hanswer)
  case update =>
    rintro s row row' forced r s' - ⟨rfl, huntouched⟩ - hupdated ⟨s₁, rows, hothers, hanswer, rfl⟩
    have huntouched := huntouched.drifts (Scene.drifts_of_meddled hothers d.key)
    have hmakes := Write.makes_update forced (hkey row rfl) hupdated
    have hversion : row'.version ≠ row.version := by
      rw [hmakes.version_succ rfl]
      exact Nat.succ_ne_self _
    exact of_wrote hmakes rfl huntouched (Scene.update_wrote hversion hanswer)

end onceWatch

/-! ### Whole loops -/

/-- Nobody else writes the rows, and any call may be lost, before or after its effect.  If the
loop of a delta ends having applied it, then the row that it says it has replaced is the one
that was there, and the delta has been written over this row, once; if it ends in another way,
then the row has not been changed; and if it fails, then one or the other is the case. -/
theorem Task.Path.once {policy : Policy} {rows : Table Address Row} {e : JobEnd Apply.Result}
    (hkey : ∀ row ∈ rows.get? d.key, row.key = d.key)
    (h : Task.Path (shared solitary).Loops policy ⟨d, rows.get? d.key⟩
      (⟨rows, []⟩, Task.start policy ⟨d, rows.get? d.key⟩) (s', .ended e)) :
  (∀ w, e = .finished (.ok (.applied w)) →
      w.previous = rows.get? d.key ∧
      ∃ row', w.version = row'.version ∧ Once (rows.get? d.key) d row' s') ∧
    (∀ ending, e = .finished (.ok ending) → (∀ w, ending ≠ .applied w) →
      Untouched (rows.get? d.key) d s') ∧
    (Untouched (rows.get? d.key) d s' ∨ ∃ row', Once (rows.get? d.key) d row' s')
  := by
  have hstart : Untouched (rows.get? d.key) d ⟨rows, []⟩ := ⟨rfl, rfl⟩
  have hends : (onceWatch (rows.get? d.key) d).Ends d s' e := by
    apply (onceWatch.sound hkey).ends_of_path (j := ⟨d, rows.get? d.key⟩)
    · exact ⟨nofun, .inl hstart⟩
    · exact ⟨rfl, hstart⟩
    · exact h.mono fun s c r s' hcall => ⟨s, .refl, hcall⟩
  have hsent : ∀ {w?}, (onceWatch (rows.get? d.key) d).sent w? s' →
      Untouched (rows.get? d.key) d s' ∨ ∃ row', Once (rows.get? d.key) d row' s' := by
    rintro w? ⟨-, huntouched | ⟨w, -, -, row', -, honce⟩⟩
    · exact .inl huntouched
    · exact .inr ⟨row', honce⟩
  have hunsent : (onceWatch (rows.get? d.key) d).sent none s' →
      Untouched (rows.get? d.key) d s' := by
    rintro ⟨-, huntouched | ⟨w, hw, -⟩⟩
    · exact huntouched
    · cases hw
  cases hends with
  | @applied w hdone =>
      obtain ⟨hprevious, row', hversion, honce⟩ := hdone
      refine ⟨?_, ?_, .inr ⟨row', honce⟩⟩
      · rintro _ ⟨⟩
        exact ⟨hprevious, row', hversion, honce⟩
      · rintro _ ⟨⟩ hother
        exact absurd rfl (hother w)
  | alreadyApplied hnone =>
      exact ⟨nofun, fun _ _ _ => hunsent hnone, .inl (hunsent hnone)⟩
  | locked hnone =>
      exact ⟨nofun, fun _ _ _ => hunsent hnone, .inl (hunsent hnone)⟩
  | failed he hflight =>
      refine ⟨?_, ?_, hsent hflight⟩
      · rintro w rfl
        exact absurd he Watch.not_failed
      · rintro ending rfl
        exact absurd he Watch.not_failed

/-! ### A write that is read back -/

namespace Batch

/-- A policy that lets calls be lost twice. -/
def patient : Policy := ⟨3, 100, 30, 5000, .past⟩

/-- A row of the address that is paid, acknowledged. -/
def settledReceiver : Row := { heldReceiver with settled := true }

/-- A store with the acknowledged row. -/
def settledRows : Table Address Row := Table.empty.insert receiver settledReceiver

/-- The write over the acknowledged row. -/
def overSettled : Write where
  key := receiver
  previous := some settledReceiver
  version := 1
  forced := false

/-- The scene when the row is written, and the answer is late. -/
def landedScene : Scene :=
  Scene.answer ⟨settledRows, []⟩ .loop (.update paidReceiver 0) (.ok .late)
    (settledRows.insert receiver paidReceiver)

/-- The scene when a read has come to nothing as well. -/
def lateScene : Scene := landedScene.answer .loop (.find receiver) (.ok .late) landedScene.rows

/-- The row is written late, read in vain, and then read back. -/
theorem path_readBack :
  Task.Path (shared solitary).Loops patient ⟨credit, some settledReceiver⟩
    (⟨settledRows, []⟩, Task.start patient ⟨credit, some settledReceiver⟩)
    (lateScene.serve .loop (.find receiver), .ended (.finished (.ok (.applied overSettled))))
  := by
  have hlate : ∀ c : StoreCall, Unanswered (.ok .late : Except Fault (Timed c.Answer)) := by
    rintro c a ⟨⟩
  have hwritten : Task.Path (shared solitary).Loops patient ⟨credit, some settledReceiver⟩
      (⟨settledRows, []⟩, Task.start patient ⟨credit, some settledReceiver⟩)
      (landedScene, .running (Apply.turn patient credit
        { spent := 1, inFlight := some overSettled, seen := none })) := by
    apply Task.path_of_exec
      (r := .ok (.again { spent := 1, inFlight := some overSettled, seen := none }))
    refine .answered (.store ⟨_, _, .refl, .landed trivial (hlate _), rfl⟩) ?_
    exact .done _ _
  have hlost : Task.Path (shared solitary).Loops patient ⟨credit, some settledReceiver⟩
      (landedScene, .running (Apply.turn patient credit
        { spent := 1, inFlight := some overSettled, seen := none }))
      (lateScene, .running (Apply.turn patient credit
        { spent := 2, inFlight := some overSettled, seen := none })) := by
    apply Task.path_of_exec
      (r := .ok (.again { spent := 2, inFlight := some overSettled, seen := none }))
    refine .answered (.store ⟨_, _, .refl, .lost trivial (hlate _), rfl⟩) ?_
    exact .done _ _
  have hread : Task.Path (shared solitary).Loops patient ⟨credit, some settledReceiver⟩
      (lateScene, .running (Apply.turn patient credit
        { spent := 2, inFlight := some overSettled, seen := none }))
      (lateScene.serve .loop (.find receiver),
        .ended (.finished (.ok (.applied overSettled)))) := by
    apply Task.path_of_exec (r := .ok (.stop (.ok (.applied overSettled))))
    exact .answered (.store shared_serve) (.done _ _)
  exact (hwritten.trans hlost).trans hread

/-- The delta whose write was answered late is written once, and the loop says so. -/
theorem readBack_once :
  Task.Path (shared solitary).Loops patient ⟨credit, some settledReceiver⟩
      (⟨settledRows, []⟩, Task.start patient ⟨credit, some settledReceiver⟩)
      (lateScene.serve .loop (.find receiver), .ended (.finished (.ok (.applied overSettled)))) ∧
    ∃ row', overSettled.version = row'.version ∧
      Once (some settledReceiver) credit row' (lateScene.serve .loop (.find receiver))
  := by
  have hkey : ∀ row ∈ settledRows.get? credit.key, row.key = credit.key := by
    rintro _ ⟨⟩
    rfl
  have hpath : Task.Path (shared solitary).Loops patient ⟨credit, settledRows.get? credit.key⟩
      (⟨settledRows, []⟩, Task.start patient ⟨credit, settledRows.get? credit.key⟩) _ :=
    path_readBack
  obtain ⟨happlied, -⟩ := Task.Path.once hkey hpath
  exact ⟨path_readBack, (happlied overSettled rfl).2⟩

end Batch

end ChainLedger
