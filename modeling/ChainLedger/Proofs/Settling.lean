import ChainLedger.Proofs.Phases

/-!
# Acknowledging and settling

A batch that is not undone is acknowledged to the log, and then the rows that it knows by
their versions are settled.  The rows are settled only after the acknowledgment has
succeeded; a failure on the way leaves some of them in doubt.
-/

namespace ChainLedger

open Prog

/-- The address of a target, settled. -/
def Row.finalAt (rows : Table Address Row) (key : Address) : Option Row :=
  (rows.get? key).map Row.final

/-- The version of a target cannot be raised. -/
def Target.Overflows (t : Target) : Prop := ¬ FitsUnsigned 64 (t.version + 1)

/-- How a batch is committed: what is known of the log, of the rows and, if no call is
lost, of the result. -/
structure Commits {Λ : Type} (lossy : Prop) (parties : Parties Λ) (b : Bounds)
    (applied : List Address) (targets : List Target) (s : Site Λ)
    (r : Except Fault (Except Failure Outcome)) (s' : Site Λ) : Prop where
  /-- The acknowledgment is taken, or nothing has happened. -/
  log : s'.log = s.log ∧ s'.rows = s.rows ∨ s'.log = (parties.acknowledge s.log b).1
  /-- Rows are settled only after the acknowledgment has succeeded. -/
  rows : s'.rows = s.rows ∨ (parties.acknowledge s.log b).2 = .ok () ∧
    Partly (· ∈ targets.map (·.key)) (Row.finalAt s.rows) s.rows s'.rows
  /-- If no call is lost and the log refuses, that is the result. -/
  refused : ¬ lossy → ∀ e, (parties.acknowledge s.log b).2 = .error e →
    r = .ok (.error (.log e)) ∧ s'.rows = s.rows
  /-- If no call is lost and the log accepts, all rows are settled unless a version
  overflows. -/
  accepted : ¬ lossy → (parties.acknowledge s.log b).2 = .ok () →
    s'.log = (parties.acknowledge s.log b).1 ∧
      ((∃ t ∈ targets, t.Overflows) ∧ (∃ o, r = .error (.overflow o)) ∨
        (¬ ∃ t ∈ targets, t.Overflows) ∧
          r = .ok (.ok (.committed b applied (targets.map (·.key)) [])) ∧
          Wholly (· ∈ targets.map (·.key)) (Row.finalAt s.rows) s.rows s'.rows)

variable {Λ : Type} {lossy : Prop} {parties : Parties Λ} {s : Site Λ} {policy : Policy}

namespace Commits

variable {b : Bounds} {applied : List Address} {ts : List Target}

/-- The log refuses the acknowledgment. -/
theorem of_refused {e : LogError} (hack : (parties.acknowledge s.log b).2 = .error e) :
  Commits lossy parties b applied ts s (.ok (.error (.log e)))
    { s with log := (parties.acknowledge s.log b).1 }
  := by
  constructor
  · exact .inr rfl
  · exact .inl rfl
  · intro _ e' he'
    rw [hack] at he'
    cases he'
    exact ⟨rfl, rfl⟩
  · intro _ hok
    rw [hack] at hok
    cases hok

/-- The log takes the acknowledgment, and the second phase ends. -/
theorem of_settled {r : Except Fault (List Address × List Address)}
    {r' : Except Fault (Except Failure Outcome)} {s' : Site Λ}
    (hack : (parties.acknowledge s.log b).2 = .ok ())
    (hsettled : Changed lossy (∃ t ∈ ts, t.Overflows) (· ∈ ts.map (·.key)) (Row.finalAt s.rows)
      (ts.map (·.key), []) { s with log := (parties.acknowledge s.log b).1 } r s')
    (hfault : ∀ fault, r = .error fault → r' = .error fault)
    (hok : r = .ok (ts.map (·.key), []) →
      r' = .ok (.ok (.committed b applied (ts.map (·.key)) []))) :
  Commits lossy parties b applied ts s r' s'
  := by
  constructor
  · exact .inr hsettled.log
  · exact .inr ⟨hack, hsettled.partly⟩
  · intro _ e he
    rw [hack] at he
    cases he
  · intro hcalm _
    refine ⟨hsettled.log, ?_⟩
    rcases hsettled.calm hcalm with ⟨hover, o, hr⟩ | ⟨hover, hr, hwholly⟩
    · exact .inl ⟨hover, o, hfault _ hr⟩
    · exact .inr ⟨hover, hok hr, hwholly⟩

/-- The acknowledgment is lost before it takes effect. -/
theorem of_lost {r : Except Fault (Except Failure Outcome)} (hlossy : lossy) :
  Commits lossy parties b applied ts s r s
  := ⟨.inl ⟨rfl, rfl⟩, .inl rfl, absurd hlossy, absurd hlossy⟩

/-- The acknowledgment is lost after it took effect. -/
theorem of_unheard {r : Except Fault (Except Failure Outcome)} (hlossy : lossy) :
  Commits lossy parties b applied ts s r { s with log := (parties.acknowledge s.log b).1 }
  := ⟨.inr rfl, .inl rfl, absurd hlossy, absurd hlossy⟩

end Commits

namespace Batch

/-- A row that is read again as the batch knows it may be settled. -/
theorem eligible_of_stands {rows selected : Table Address Row} {t : Target}
    (h : Stands rows t.key t.version) (hsame : selected.get? t.key = rows.get? t.key) :
  eligible selected t = true
  := by
  obtain ⟨row, hrow, hversion, hsettled⟩ := h
  rw [eligible, hsame, hrow]
  simp [hversion, hsettled]

/-- A row in doubt whose version overflows stops the batch. -/
theorem settle_spec_of_overflows {rows selected : Table Address Row} {t : Target} {row : Row}
    (hrow : s.rows.get? t.key = some row) (hversion : row.version = t.version)
    (hover : t.Overflows) (hselected : eligible selected t = true) :
  Ensures (BatchAnswers lossy parties) s (settle policy selected t)
    (Changed lossy t.Overflows (· = t.key) (Row.finalAt rows) true s)
  := by
  cases hsettle : row.settle with
  | ok row' =>
      rw [Target.Overflows, ← hversion] at hover
      exact absurd (Row.settle_eq_ok_iff.mp hsettle).1 hover
  | error o =>
      have hon : (StoreCall.settle t.key t.version).on s.rows = _ :=
        StoreCall.on_settle_of_error hrow hversion hsettle
      have hstopped : Changed lossy t.Overflows (· = t.key) (Row.finalAt rows) true s
          (.error (.overflow o)) s :=
        .one (fun _ _ => rfl) (.inl rfl) fun _ => .inl ⟨hover, _, rfl⟩
      rw [settle, if_pos hselected]
      apply ensures_store
      constructor
      · rw [hon]
        exact hstopped
      · intro hlossy r hr
        exact .of_fails hr (fun _ => .kept hlossy) fun _ => ensures_done (.kept hlossy)
      · intro hlossy r hr
        rw [hon]
        exact .of_fails hr (fun _ => .kept hlossy) fun _ => ensures_done (.kept hlossy)

/-- A row in doubt is settled, unless its version overflows. -/
theorem settle_spec {rows selected : Table Address Row} {t : Target}
    (hstands : Stands s.rows t.key t.version) (hselected : eligible selected t = true)
    (hsame : s.rows.get? t.key = rows.get? t.key) :
  Ensures (BatchAnswers lossy parties) s (settle policy selected t)
    (Changed lossy t.Overflows (· = t.key) (Row.finalAt rows) true s)
  := by
  obtain ⟨row, hrow, hversion, -⟩ := hstands
  by_cases hover : t.Overflows
  · exact settle_spec_of_overflows hrow hversion hover hselected
  · have hfits : FitsUnsigned 64 (row.version + 1) := by
      rw [hversion]
      exact Classical.not_not.mp hover
    rw [settle, if_pos hselected]
    apply store_put
      (StoreCall.on_settle_of_ok hrow hversion (Row.settle_eq_ok_iff.mpr ⟨hfits, rfl⟩)) hover
    · intro k hk
      rw [Table.get?_insert, if_neg hk]
    · rw [Table.get?_insert, if_pos rfl, Row.finalAt, ← hsame, hrow]
      rfl
    · rfl
    · intro e
      exact ⟨_, rfl⟩

/-- Rows in doubt are settled one by one. -/
theorem settleAll_spec {topic : String} {rows selected : Table Address Row} {ts : List Target}
    (hstands : ∀ t ∈ ts, Stands s.rows t.key t.version)
    (hselected : ∀ t ∈ ts, eligible selected t = true)
    (hsame : ∀ t ∈ ts, s.rows.get? t.key = rows.get? t.key) (hnodup : (ts.map (·.key)).Nodup) :
  Ensures (BatchAnswers lossy parties) s (settleAll policy topic selected ts)
    (Changed lossy (∃ t ∈ ts, t.Overflows) (· ∈ ts.map (·.key)) (Row.finalAt rows)
      (ts.map (·.key), []) s)
  := by
  induction ts generalizing s with
  | nil => exact ensures_done (.nothing (by simp) (by simp))
  | cons t ts ih =>
      obtain ⟨hfirst, hnodup⟩ := List.nodup_cons.mp hnodup
      have hsettled : Ensures (BatchAnswers lossy parties) s (settle policy selected t) _ :=
        settle_spec (hstands t (.head _)) (hselected t (.head _)) (hsame t (.head _))
      apply Changed.bind hsettled _ (List.exists_mem_cons_iff _ _ _)
        fun key => List.mem_cons
      intro x s' hothers hx
      have hkept : ∀ t' ∈ ts, s'.rows.get? t'.key = s.rows.get? t'.key := by
        intro t' ht'
        apply hothers
        intro heq
        apply hfirst
        exact List.mem_map.mpr ⟨t', ht', heq⟩
      have hrest := ih (fun t' ht' => (hstands t' (.tail _ ht')).of_eq (hkept t' ht'))
        (fun t' ht' => hselected t' (.tail _ ht'))
        (fun t' ht' => (hkept t' ht').trans (hsame t' (.tail _ ht'))) hnodup
      cases x with
      | true => exact Changed.map (fun result => (t.key :: result.1, result.2)) hrest
      | false =>
          apply ensures_tell
          refine (Changed.map (fun result => (result.1, t.key :: result.2)) hrest).mono ?_
          intro r s'' hchanged
          apply hchanged.lost
          exact Classical.byContradiction fun hcalm => by simpa using hx hcalm

/-- The second phase settles the rows that are still as the batch knows them. -/
theorem finalize_spec {b : Bounds} {ts : List Target}
    (hstands : ∀ t ∈ ts, Stands s.rows t.key t.version) (hnodup : (ts.map (·.key)).Nodup) :
  Ensures (BatchAnswers lossy parties) s (finalize policy b ts)
    (Changed lossy (∃ t ∈ ts, t.Overflows) (· ∈ ts.map (·.key)) (Row.finalAt s.rows)
      (ts.map (·.key), []) s)
  := by
  cases ts with
  | nil => exact ensures_done (.nothing (by simp) (by simp))
  | cons t ts =>
      have hlost : ∀ r : Except Fault (List Address × List Address), lossy →
          Changed lossy (∃ t' ∈ t :: ts, t'.Overflows) (· ∈ (t :: ts).map (·.key))
            (Row.finalAt s.rows) ((t :: ts).map (·.key), []) s r s :=
        fun r hlossy => ⟨rfl, .refl, absurd hlossy⟩
      rw [finalize, if_neg (by simp)]
      apply ensures_store
      apply AfterStore.of_read (StoreCall.on_findAll _)
      · apply ensures_tell
        have hselected : ∀ t' ∈ t :: ts,
            eligible (MemoryStore.select { rows := s.rows } ((t :: ts).map (·.key))) t' = true := by
          intro t' ht'
          apply eligible_of_stands (hstands t' ht')
          rw [MemoryStore.get?_select, if_pos (List.mem_map_of_mem ht')]
        apply ensures_bind
        refine Ensures.mono (settleAll_spec hstands hselected (fun _ _ => rfl) hnodup) ?_
        intro r s' hchanged
        cases r with
        | ok result =>
            apply ensures_tell
            exact ensures_done hchanged
        | error fault => exact hchanged
      · intro hlossy r hr
        rcases r with f | (e | a)
        · exact hlost _ hlossy
        · apply ensures_tellAll
          exact ensures_done (hlost _ hlossy)
        · exact absurd rfl (hr a)

/-- The targets can all be settled exactly if the versions of their rows can be raised. -/
theorem not_overflows_iff {rows : Table Address Row} {ts : List Target} {P : Address → Prop}
    (hstands : ∀ t ∈ ts, Stands rows t.key t.version)
    (htargets : ∀ key, key ∈ ts.map (·.key) ↔ P key) :
  (¬ ∃ t ∈ ts, t.Overflows)
    ↔ ∀ key row, P key → rows.get? key = some row → FitsUnsigned 64 (row.version + 1)
  := by
  constructor
  · intro hno key row hkey hrow
    obtain ⟨t, ht, rfl⟩ := List.mem_map.mp ((htargets key).mpr hkey)
    obtain ⟨row', hrow', hversion, -⟩ := hstands t ht
    obtain rfl := Option.some.inj (hrow.symm.trans hrow')
    rw [hversion]
    apply Classical.byContradiction
    intro hover
    exact hno ⟨t, ht, hover⟩
  · rintro hfits ⟨t, ht, hover⟩
    obtain ⟨row, hrow, hversion, -⟩ := hstands t ht
    apply hover
    rw [← hversion]
    exact hfits t.key row ((htargets t.key).mp (List.mem_map_of_mem ht)) hrow

/-- A batch is acknowledged, and then its rows are settled. -/
theorem commit_spec {b : Bounds} {ws : List Write} {ts : List Target}
    (hstands : ∀ t ∈ ts, Stands s.rows t.key t.version) (hnodup : (ts.map (·.key)).Nodup) :
  Ensures (BatchAnswers lossy parties) s (commit policy b ws ts)
    (Commits lossy parties b (ws.map (·.key)) ts s)
  := by
  rw [commit]
  apply ensures_acknowledge
  · cases hack : (parties.acknowledge s.log b).2 with
    | error e =>
        apply ensures_done
        exact .of_refused hack
    | ok u =>
        apply ensures_tell
        apply ensures_tell
        apply ensures_bind
        refine Ensures.mono (finalize_spec hstands hnodup) ?_
        intro r s' hsettled
        cases r with
        | ok result =>
            apply ensures_tell
            apply ensures_done
            apply Commits.of_settled hack hsettled
            · intro fault hr
              cases hr
            · intro hr
              cases hr
              rfl
        | error fault =>
            apply Commits.of_settled hack hsettled
            · intro fault' hr
              exact congrArg _ (Except.error.inj hr)
            · intro hr
              cases hr
  · intro hlossy r hr
    exact .of_fails hr (fun _ => .of_lost hlossy) fun _ => ensures_done (.of_lost hlossy)
  · intro hlossy r hr
    exact .of_fails hr (fun _ => .of_unheard hlossy) fun _ => ensures_done (.of_unheard hlossy)

end Batch

end ChainLedger
