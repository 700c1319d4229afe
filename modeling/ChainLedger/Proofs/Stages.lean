import ChainLedger.Proofs.Processing

/-!
# Stages of a row

However far a batch got, it has left each row in one of three stages: as before, written,
or settled.  A row that is written counts all deltas of the batch for its address, so from
every stage the same batch has the same still to do, and leads to the same row.
-/

namespace ChainLedger

namespace Batch

/-- How far a batch has got at one address, starting from the row `row?`. -/
inductive Stage (b : Batch) (key : Address) (row? : Option Row) : Option Row → Prop
  /-- The row is as before. -/
  | before : Stage b key row? row?
  /-- What was to be applied is written. -/
  | written {d : Delta} {row' : Row} (hd : b.toApply key row? = some d)
      (hwritten : Row.written row? d = .ok row') : Stage b key row? (some row')
  /-- The row is settled. -/
  | settled {row : Row} (hat : b.writtenAt key row? = some row)
      (hdoubt : b.InDoubt key (some row)) : Stage b key row? (some row.final)

/-- The row counts all deltas of the batch for the address. -/
def CaughtUp (b : Batch) (key : Address) (row : Row) : Prop :=
  ∀ d ∈ b.deltas, d.key = key → row.Reflects d.source

variable {b : Batch} {rs : List Record} {key : Address} {row? row'? row''? : Option Row}

/-! ### Rows that count the batch -/

/-- Nothing is pending for a row exactly if it counts all deltas. -/
theorem pendingFor_eq_nil_iff {row : Row} :
  b.pendingFor key (some row) = [] ↔ b.CaughtUp key row
  := by
  rw [List.eq_nil_iff_forall_not_mem]
  apply forall_congr'
  intro d
  rw [mem_pendingFor_iff]
  constructor
  · intro h hd hkey
    apply Classical.byContradiction
    intro hnew
    apply h
    refine ⟨⟨hd, hkey⟩, ?_⟩
    rintro _ ⟨⟩
    exact hnew
  · rintro h ⟨⟨hd, hkey⟩, hnew⟩
    exact hnew row rfl (h hd hkey)

/-- Nothing is to be applied to a row exactly if it counts all deltas. -/
theorem toApply_eq_none_iff {row : Row} :
  b.toApply key (some row) = none ↔ b.CaughtUp key row
  := by
  rw [← pendingFor_eq_nil_iff, toApply]
  split
  · next hidle =>
      rcases hidle with hnil | ⟨hnone, -⟩
      · simp [hnil]
      · cases hnone
  · next hidle =>
      constructor
      · intro h
        cases h
      · intro hnil
        exact absurd (.inl hnil) hidle

/-- A row that counts all deltas is left as it is, but for being settled. -/
theorem CaughtUp.writtenAt {row : Row} (h : b.CaughtUp key row) :
  b.writtenAt key (some row) = some row
  := by
  rw [Batch.writtenAt, toApply_eq_none_iff.mpr h]

/-- Settling a row changes nothing about what it counts. -/
theorem CaughtUp.final {row : Row} (h : b.CaughtUp key row) :
  b.CaughtUp key row.final
  := h

/-- A row that the batch has written counts all deltas: those that were pending, and those
that the row before counted. -/
theorem Collects.caughtUp_of_written (hb : b.Collects rs) {d : Delta} {row' : Row}
    (hd : b.toApply key row? = some d) (hwritten : Row.written row? d = .ok row') :
  b.CaughtUp key row'
  := by
  obtain ⟨-, -, hcontains, hnew⟩ := hb.of_toApply hd
  intro d' hd' hkey
  have hpartition : d'.source.partition = b.bounds.partition := (hb.contains_source hd').1
  have horigin : row'.source = d.source := (Row.of_written hwritten).1
  refine ⟨?_, ?_⟩
  · rw [Row.SameOrigin, horigin, hcontains.1, hpartition]
  · rw [horigin]
    by_cases hpending : d' ∈ b.pendingFor key row?
    · rw [(eq_whole_of_toApply hd).1]
      exact le_greatest (List.mem_map_of_mem hpending)
    · -- the row before counts this delta and not the one applied, so that one is later
      have hcounted : ∃ row ∈ row?, row.Reflects d'.source := by
        apply Classical.byContradiction
        intro hno
        apply hpending
        apply mem_pendingFor_iff.mpr
        refine ⟨⟨hd', hkey⟩, ?_⟩
        intro row hrow hreflects
        exact hno ⟨row, hrow, hreflects⟩
      obtain ⟨row, hrow, hsame, hle⟩ := hcounted
      have hlt : ¬ d.source.offset ≤ row.source.offset := by
        intro hle'
        apply hnew row hrow
        refine ⟨?_, hle'⟩
        rw [Row.SameOrigin, hsame, hpartition, hcontains.1]
      exact Nat.le_trans hle (Nat.le_of_not_le hlt)

/-- A row that is to be settled counts all deltas. -/
theorem Collects.caughtUp_of_writtenAt (hb : b.Collects rs) {row : Row}
    (hat : b.writtenAt key row? = some row) :
  b.CaughtUp key row
  := by
  rw [writtenAt] at hat
  split at hat
  · next hnone =>
      subst hat
      exact toApply_eq_none_iff.mp hnone
  · next d hd =>
      cases hwritten : Row.written row? d with
      | error o =>
          rw [hwritten] at hat
          cases hat
      | ok row' =>
          rw [hwritten] at hat
          cases hat
          exact hb.caughtUp_of_written hd hwritten

/-- What is written leaves nothing to apply. -/
theorem Collects.toApply_writtenAt (hb : b.Collects rs)
    (h : ∀ d, b.toApply key row? = some d → ∃ row', Row.written row? d = .ok row') :
  b.toApply key (b.writtenAt key row?) = none
  := by
  cases hd : b.toApply key row? with
  | none => rw [writtenAt, hd, hd]
  | some d =>
      obtain ⟨row', hwritten⟩ := h d hd
      rw [writtenAt_of_written hd hwritten]
      apply toApply_eq_none_iff.mpr (hb.caughtUp_of_written hd hwritten)

/-! ### From stage to stage -/

/-- A settled row is in doubt nowhere. -/
theorem not_inDoubt_final {row : Row} :
  ¬ b.InDoubt key (some row.final)
  := by
  rintro ⟨-, _, ⟨⟩, hsettled, -⟩
  cases hsettled

/-- The stages follow each other: going on from any of them leads to one of them. -/
theorem Stage.trans (hb : b.Collects rs) (h : b.Stage key row? row'?)
    (h' : b.Stage key row'? row''?) :
  b.Stage key row? row''?
  := by
  cases h with
  | before => exact h'
  | @written d row' hd hwritten =>
      have hcaught := hb.caughtUp_of_written hd hwritten
      cases h' with
      | before => exact .written hd hwritten
      | written hd' _ =>
          rw [toApply_eq_none_iff.mpr hcaught] at hd'
          cases hd'
      | settled hat hdoubt =>
          rw [hcaught.writtenAt] at hat
          cases hat
          exact .settled (writtenAt_of_written hd hwritten) hdoubt
  | @settled row hat hdoubt =>
      have hcaught := (hb.caughtUp_of_writtenAt hat).final
      cases h' with
      | before => exact .settled hat hdoubt
      | written hd' _ =>
          rw [toApply_eq_none_iff.mpr hcaught] at hd'
          cases hd'
      | settled hat' hdoubt' =>
          rw [hcaught.writtenAt] at hat'
          cases hat'
          exact absurd hdoubt' not_inDoubt_final

/-- From every stage the batch leads to the same row. -/
theorem Stage.finalAt_eq (hb : b.Collects rs) (h : b.Stage key row? row'?) :
  b.finalAt key row'? = b.finalAt key row?
  := by
  cases h with
  | before => rfl
  | written hd hwritten =>
      rw [finalAt, finalAt, (hb.caughtUp_of_written hd hwritten).writtenAt,
        writtenAt_of_written hd hwritten]
  | settled hat hdoubt =>
      rw [finalAt, finalAt, (hb.caughtUp_of_writtenAt hat).final.writtenAt, hat,
        if_neg not_inDoubt_final, if_pos hdoubt, Option.map_some]

/-- A row keeps its address. -/
theorem Stage.key_eq (hb : b.Collects rs) (h : b.Stage key row? row'?)
    (hkey : ∀ row ∈ row?, row.key = key) :
  ∀ row ∈ row'?, row.key = key
  := by
  have hwritten : ∀ d row', b.toApply key row? = some d → Row.written row? d = .ok row' →
      row'.key = key := by
    intro d row' hd hwritten
    obtain ⟨rfl, -⟩ := hb.of_toApply hd
    exact Row.key_of_written hkey hwritten
  cases h with
  | before => exact hkey
  | written hd hrow =>
      rintro _ ⟨⟩
      exact hwritten _ _ hd hrow
  | @settled row hat hdoubt =>
      rintro _ ⟨⟩
      change row.key = key
      rw [writtenAt] at hat
      split at hat
      · exact hkey row hat
      · next d hd =>
          cases hrow : Row.written row? d with
          | error o =>
              rw [hrow] at hat
              cases hat
          | ok row' =>
              rw [hrow] at hat
              cases hat
              exact hwritten d _ hd hrow

/-! ### The stages that a batch leaves behind -/

variable {Λ : Type} {policy : Policy} {parties : Parties Λ} {s s' : Site Λ}

/-- Whatever calls are lost, a batch leaves every row in one of its stages. -/
theorem Effect.stage (h : b.Effect policy parties s s') (key : Address) :
  b.Stage key (s.rows.get? key) (s'.rows.get? key)
  := by
  have hwrites : b.Writes policy.takeover (parties.latestOffset s.log) key (s.rows.get? key) →
      b.Stage key (s.rows.get? key) (b.writtenAt key (s.rows.get? key)) := by
    rintro ⟨-, d, row', hd, hwritten⟩
    rw [writtenAt_of_written hd hwritten]
    exact .written hd hwritten
  cases h with
  | unacknowledged hlog hrows =>
      rcases hrows key with hkept | ⟨hkey, hwritten⟩
      · rw [hkept]
        exact .before
      · rw [hwritten]
        exact hwrites hkey
  | @acknowledged rows₁ hlog hall hwritten hsettled =>
      have hstage : b.Stage key (s.rows.get? key) (rows₁.get? key) := by
        rw [hwritten]
        cases hd : b.toApply key (s.rows.get? key) with
        | none =>
            rw [writtenAt, hd]
            exact .before
        | some d => exact hwrites (hall key d hd)
      rcases hsettled with heq | ⟨-, hpartly⟩
      · rw [heq]
        exact hstage
      · rcases hpartly key with hkept | ⟨hdoubt, hfinal⟩
        · rw [hkept]
          exact hstage
        · obtain ⟨hkey, row, hrow, hsettled, hcontains⟩ := hdoubt
          rw [hfinal, Row.finalAt, hrow, Option.map_some]
          rw [hwritten] at hrow
          exact .settled hrow ⟨hkey, row, rfl, hsettled, hcontains⟩

/-- A batch leaves the rows under their own addresses. -/
theorem Effect.keyed (hb : b.Collects rs) (h : b.Effect policy parties s s')
    (hkeyed : Keyed s.rows) :
  Keyed s'.rows
  := by
  intro key row hrow
  apply (h.stage key).key_eq hb _ row hrow
  intro row hrow
  exact hkeyed key row hrow

end Batch

end ChainLedger
