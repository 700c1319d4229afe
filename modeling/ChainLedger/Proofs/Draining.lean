import ChainLedger.Proofs.Advancing
import ChainLedger.Proofs.Memory

/-!
# Draining partitions

A store and a log in memory whose rows are all settled and at acknowledged positions.  The next
records of a partition are then beyond every row, so no batch is held up: its records are
acknowledged and added to the rows.  Thus draining a partition adds all that was not acknowledged,
in as many turns as there are records and one more, unless some batch overflows on the way.
-/

namespace ChainLedger

open Prog

/-! ### What remains -/

/-- The records of a partition that are not acknowledged. -/
def EventLog.remaining (log : EventLog) (p : Partition) : List Record :=
  (log.partition p).records.drop (log.partition p).firstPending

theorem EventLog.lag_eq (log : EventLog) (p : Partition) :
  log.lag p = (log.remaining p).length
  := (List.length_drop ..).symm

/-- A poll delivers the first of the records that remain. -/
theorem EventLog.poll_eq {log : EventLog} {p : Partition} (h : p ∈ log.partitions.keys)
    (maxBatch : Nat) :
  log.poll p maxBatch = .ok ((log.remaining p).take (max maxBatch 1))
  := EventLog.poll_eq_ok_iff.mpr ⟨h, rfl⟩

theorem EventLog.remaining_of_poll {log : EventLog} {p : Partition} {maxBatch : Nat}
    {rs : List Record} (h : log.poll p maxBatch = .ok rs) :
  rs <+: log.remaining p
  := by
  rw [(EventLog.poll_eq_ok_iff.mp h).2]
  apply List.take_prefix

theorem EventLog.remaining_of_poll_nil {log : EventLog} {p : Partition} {maxBatch : Nat}
    (h : log.poll p maxBatch = .ok []) :
  log.remaining p = []
  := by
  have hnil : (log.remaining p).take (max maxBatch 1) = [] := (EventLog.poll_eq_ok_iff.mp h).2.symm
  rcases List.take_eq_nil_iff.mp hnil with hzero | hnil
  · omega
  · exact hnil

theorem EventLog.Sound.le_offset_of_remaining {log : EventLog} {p : Partition} {r : Record}
    (h : log.Sound) (hr : r ∈ log.remaining p) :
  (log.partition p).firstPending ≤ r.offset
  := by
  obtain ⟨i, hi, rfl⟩ := List.mem_drop_iff_getElem.mp hr
  rw [Nat.add_comm] at hi
  have hposition := h.placed p _ _ (List.getElem?_eq_getElem hi)
  apply Nat.le_trans (Nat.le_add_right _ i)
  exact Nat.le_of_eq (congrArg Position.offset hposition).symm

theorem EventLog.Sound.partition_of_poll {log : EventLog} {p : Partition} {maxBatch : Nat}
    {rs : List Record} (h : log.Sound) (hpoll : log.poll p maxBatch = .ok rs) :
  ∀ r ∈ rs, r.partition = p
  := by
  intro r hr
  obtain ⟨i, hi, rfl⟩ := List.mem_iff_getElem.mp hr
  exact congrArg Position.partition (h.position_of_poll hpoll hi)

/-- An acknowledgment is the only one that a log is told to refuse. -/
theorem EventLog.failNext_acknowledgeAs {log : EventLog} (h : log.failNext = false)
    (p : Partition) (b : Bounds) :
  (log.acknowledgeAs p b).1.failNext = false
  := by
  rw [acknowledgeAs]
  split
  · rw [acknowledge, h, if_neg Bool.false_ne_true]
    split
    · exact h
    · split
      · rfl
      · exact h
  · exact h

/-- What remains after more of a partition is acknowledged. -/
theorem EventLog.Advances.remaining {log log' : EventLog} {p : Partition} {n : Nat}
    (h : log.Advances log' p ((log.partition p).firstPending + n)) (q : Partition) :
  log'.remaining q = if q = p then (log.remaining p).drop n else log.remaining q
  := by
  rw [EventLog.remaining, h.records]
  split
  · next hq =>
      subst hq
      rw [h.here, EventLog.remaining, List.drop_drop]
  · next hq =>
      rw [h.elsewhere q hq]
      rfl

/-! ### One batch -/

namespace Site

variable {s s' s'' : Site EventLog} {p : Partition} {rs rs' : List Record} {policy : Policy}

/-- All rows are settled, at positions that are acknowledged, and the log accepts what is
acknowledged next. -/
structure Abreast (s : Site EventLog) : Prop where
  keyed : Keyed s.rows
  settled : Settled s.rows
  log : s.log.Sound
  accepts : s.log.failNext = false
  acknowledged : ∀ key row, s.rows.get? key = some row →
    row.source.offset < (s.log.partition row.source.partition).firstPending

/-- Some records of a partition are acknowledged, and added to the rows. -/
structure Consumed (p : Partition) (rs : List Record) (s s' : Site EventLog) : Prop where
  abreast : s'.Abreast
  accrues : Accrues rs s.rows s'.rows
  remaining : s.log.remaining p = rs ++ s'.log.remaining p
  others : ∀ q ≠ p, s'.log.remaining q = s.log.remaining q
  keys : s'.log.partitions.keys.Perm s.log.partitions.keys

theorem Abreast.consumed_nil (h : s.Abreast) (p : Partition) :
  Consumed p [] s s
  := ⟨h, .refl h.keyed h.settled, rfl, fun _ _ => rfl, .refl _⟩

theorem Consumed.append (h : Consumed p rs s s') (h' : Consumed p rs' s' s'') :
  Consumed p (rs ++ rs') s s''
  := by
  constructor
  · exact h'.abreast
  · exact h.accrues.append h'.accrues
  · rw [h.remaining, h'.remaining, List.append_assoc]
  · intro q hq
    rw [h'.others q hq, h.others q hq]
  · exact h'.keys.trans h.keys

/-- Records that remain are beyond all rows. -/
theorem Abreast.beyond (h : s.Abreast) (hrs : ∀ r ∈ rs, r ∈ s.log.remaining p) :
  Beyond p s.rows rs
  := by
  rintro key row hrow rfl r hr
  exact Nat.lt_of_lt_of_le (h.acknowledged key row hrow) (h.log.le_offset_of_remaining (hrs r hr))

/-- When the records of a poll are acknowledged and added to the rows, all rows are at acknowledged
positions again. -/
theorem Abreast.consumed (h : s.Abreast) {maxBatch : Nat} (hpoll : s.log.poll p maxBatch = .ok rs)
    (haccrues : Accrues rs s.rows s'.rows)
    (hadvances : s.log.Advances s'.log p ((s.log.partition p).firstPending + rs.length))
    (haccepts : s'.log.failNext = false) :
  Consumed p rs s s'
  := by
  have hprefix := EventLog.remaining_of_poll hpoll
  have hle : (s.log.partition p).firstPending + rs.length ≤ (s.log.partition p).records.length := by
    have hlength := hprefix.length_le
    rw [EventLog.remaining, List.length_drop] at hlength
    have hbounded := h.log.bounded p
    omega
  have hacknowledged : ∀ key row, s'.rows.get? key = some row →
      row.source.offset < (s'.log.partition row.source.partition).firstPending := by
    intro key row hrow
    rcases haccrues.source key row hrow with hold | ⟨r, hr, hsource⟩
    · have hbefore := h.acknowledged key row hold
      by_cases hq : row.source.partition = p
      · rw [hq] at hbefore ⊢
        rw [hadvances.here]
        omega
      · rw [hadvances.elsewhere _ hq]
        exact hbefore
    · obtain ⟨i, hi, rfl⟩ := List.mem_iff_getElem.mp hr
      rw [hsource, h.log.position_of_poll hpoll hi]
      dsimp only
      rw [hadvances.here]
      omega
  constructor
  · exact ⟨haccrues.keyed, haccrues.settled, h.log.advanced hadvances hle, haccepts, hacknowledged⟩
  · exact haccrues
  · rw [hadvances.remaining, if_pos rfl]
    conv_lhs => rw [← List.take_append_drop rs.length (s.log.remaining p)]
    rw [← List.prefix_iff_eq_take.mp hprefix]
  · intro q hq
    rw [hadvances.remaining, if_neg hq]
  · exact hadvances.keys

/-- The next records of a partition are consumed, unless the batch of them overflows because it
does not fit. -/
theorem Abreast.consume (h : s.Abreast) {maxBatch : Nat} (hpoll : s.log.poll p maxBatch = .ok rs)
    {b : Batch} (hrs : Batch.ofRecords rs = .ok (some b))
    {r : Except Fault (Except Failure Outcome)}
    (hexec : Exec (BatchAnswers False (EventLog.parties p)) s (Batch.process policy rs) r s') :
  (Overflowed r ∧ ¬ b.Fits policy.takeover s.log.latestOffset s.rows) ∨
    (∃ applied finalized, r = .ok (.ok (.committed b.bounds applied finalized []))) ∧
      Consumed p rs s s'
  := by
  have hpolled := h.log.polled hpoll hrs
  have hloose : ¬ b.Stuck policy.takeover s.log.latestOffset s.rows :=
    Batch.not_stuck_of_settled h.settled
  obtain ⟨hack, hadvances⟩ := hpolled.of_acknowledge h.accepts
  by_cases hcalm : Overflowed r
  · refine .inl ⟨hcalm, ?_⟩
    cases Batch.process_verdict hrs h.keyed hexec with
    | overflowed _ hfits => exact hfits
    | reverted hstuck => exact absurd hstuck hloose
    | refused hrefused =>
        change (s.log.acknowledgeAs p b.bounds).2 = _ at hrefused
        rw [hack] at hrefused
        cases hrefused
    | committed => rcases hcalm with ⟨o, ⟨⟩⟩ | ⟨⟨⟩⟩
  · obtain ⟨hlog, hcommitted, hrows⟩ := Batch.done_of_loose hrs h.keyed hloose hexec hcalm hack
    change s'.log = (s.log.acknowledgeAs p b.bounds).1 at hlog
    rw [← hlog, h.log.last_of_poll hpoll hrs] at hadvances
    refine .inr ⟨hcommitted, h.consumed hpoll ?_ hadvances ?_⟩
    · apply hpolled.collects.accrues _ h.settled _ hrows
      · exact (Batch.process_processed hrs h.keyed hexec).1.keyed hpolled.collects h.keyed
      · rw [hpolled.partition]
        exact h.beyond fun r hr => (EventLog.remaining_of_poll hpoll).subset hr
    · rw [hlog]
      exact EventLog.failNext_acknowledgeAs h.accepts p b.bounds

end Site

/-! ### Overflow -/

/-- Some of the records in sequence amount to a batch that does not fit the rows which those before
them have left. -/
def Overruns (rule : TakeoverRule) (rows : Table Address Row) (rs : List Record) : Prop :=
  ∃ front part back rows' b positions, rs = front ++ part ++ back ∧ Accrues front rows rows' ∧
    Batch.ofRecords part = .ok (some b) ∧ ¬ b.Fits rule positions rows'

section Overruns

variable {rule : TakeoverRule} {rows rows' : Table Address Row} {rs rs' : List Record}

theorem Overruns.append (h : Overruns rule rows rs) (rs' : List Record) :
  Overruns rule rows (rs ++ rs')
  := by
  obtain ⟨front, part, back, rows', b, positions, rfl, haccrues, hpart, hfits⟩ := h
  exact ⟨front, part, back ++ rs', rows', b, positions, List.append_assoc .., haccrues, hpart,
    hfits⟩

theorem Overruns.after (h : Overruns rule rows' rs') (haccrues : Accrues rs rows rows') :
  Overruns rule rows (rs ++ rs')
  := by
  obtain ⟨front, part, back, rows'', b, positions, rfl, haccrues', hpart, hfits⟩ := h
  refine ⟨rs ++ front, part, back, rows'', b, positions, ?_, haccrues.append haccrues', hpart,
    hfits⟩
  simp

/-- Records that fit even when all of their columns are counted as positive cannot overflow,
however they are cut into batches. -/
theorem not_overruns_of_weight
    (hfits : ∀ key, (Record.weight key rs).Fits) (hlength : FitsUnsigned 64 (2 * rs.length)) :
  ¬ Overruns rule .empty rs
  := by
  rintro ⟨front, part, back, rows, b, positions, rfl, haccrues, hpart, hover⟩
  have hb := Batch.collects_of_ofRecords hpart
  have hpos := hb.length_pos
  have hrows : ∀ key,
      Batch.Bounded (Record.weight key front) (2 * front.length) (rows.get? key) := by
    intro key row hrow
    have htotals := haccrues.totals key
    have hversion := haccrues.version key row hrow
    rw [Option.mem_def.mp hrow, Table.get?_empty] at htotals
    simp only [Option.elim, zero_add] at htotals
    constructor
    · rw [htotals]
      exact Delta.within_total (List.Sublist.refl _)
    · simpa using hversion
  have hsum : ∀ key, (Record.weight key front + b.weight key).Fits := by
    intro key
    rw [hb.weight_eq, ← Record.weight_append]
    exact Record.fits_weight_left (hfits key)
  apply hover
  apply Batch.fits_of_bounded (fun key => Record.weight_within key front) hrows hsum
  apply Nat.lt_of_le_of_lt _ hlength
  simp only [List.length_append]
  omega

end Overruns

/-! ### One partition -/

section run

variable {S : Signature} {σ α β : Type}
  {answer : σ → (c : S.Call) → σ × Except Fault (S.Answer c)}

/-- One program is run after another. -/
theorem Prog.run_bind (s : σ) (p : Prog S α) (k : α → Prog S β) :
  (p >>= k).run answer s = match p.run answer s with
    | (s', .ok a) => (k a).run answer s'
    | (s', .error f) => (s', .error f)
  := by
  induction p generalizing s with
  | done a => rfl
  | crash f => rfl
  | call c next ih =>
      change (call c fun a => next a >>= k).run answer s = _
      rw [run, run]
      generalize answer s c = x
      obtain ⟨s', f | a⟩ := x
      · rfl
      · exact ih a s'

end run

namespace Backend

variable {settings : Settings} {policy : Policy} {p : Partition} {maxBatch : Nat} {b : Backend}
  {stats : Stats}

/-- A service answers the calls of a batch as the batch itself is answered. -/
theorem run_ofBatch {α : Type} (b : Backend) (q : Batch.Step α) :
  (Service.ofBatch q).run (answerService p maxBatch) b = q.run (answerBatch p) b
  := by
  induction q generalizing b with
  | done a => rfl
  | crash f => rfl
  | call c next ih =>
      rw [Service.ofBatch, run, run]
      have hsame : answerService p maxBatch b (.batch c) = answerBatch p b c := rfl
      rw [hsame]
      generalize answerBatch p b c = x
      obtain ⟨b', f | a⟩ := x
      · rfl
      · exact ih a b'

/-- What a turn of draining comes to, after the records of its poll are processed. -/
def afterBatch (stats : Stats) (x : Backend × Except Fault (Except Failure Outcome)) :
    Backend × Except Fault (Turn Stats (Except Failure Stats)) :=
  (x.1, match x.2 with
    | .ok (.ok outcome) => .ok (.again (stats.count outcome))
    | .ok (.error e) => .ok (.stop (.error e))
    | .error f => .error f)

/-- A turn of draining polls, and processes what is delivered. -/
theorem run_drain {rs : List Record} (hpoll : b.log.poll p maxBatch = .ok rs) :
  (Service.drain settings stats).run (answerService p maxBatch) b =
    if rs = [] then (b, .ok (.stop (.ok stats)))
    else afterBatch stats (b.process settings.policy p rs)
  := by
  have hask : Service.poll.run (answerService p maxBatch) b = (b, .ok (.ok rs)) := by
    rw [← hpoll]
    rfl
  rw [Service.drain, run_bind, hask]
  cases rs with
  | nil => rfl
  | cons r rs =>
      dsimp only
      rw [run_bind, run_ofBatch, if_neg (List.cons_ne_nil r rs), process]
      generalize (Batch.process settings.policy (r :: rs)).run (answerBatch p) b = x
      obtain ⟨b', f | (e | outcome)⟩ := x
      · rfl
      · rfl
      · cases outcome with
        | empty => rfl
        | committed => rfl
        | reverted => rfl

/-- What a turn of draining does to a backend whose rows are abreast of the log. -/
inductive Drains (settings : Settings) (p : Partition) (b : Backend) (stats : Stats) :
    Backend × Except Fault (Turn Stats (Except Failure Stats)) → Prop
  /-- Nothing remains, and the drain ends. -/
  | ended (hnil : b.log.remaining p = []) : Drains settings p b stats (b, .ok (.stop (.ok stats)))
  /-- Some records are consumed. -/
  | consumed {rs : List Record} {b' : Backend} {stats' : Stats} (hne : rs ≠ []) (hready : b'.Ready)
      (hconsumed : Site.Consumed p rs b.site b'.site) :
    Drains settings p b stats (b', .ok (.again stats'))
  /-- A batch overflows in its own computation. -/
  | overflowed {b' : Backend} {o : Overflow}
      (hover : Overruns settings.takeover b.store.rows (b.log.remaining p)) :
    Drains settings p b stats (b', .error (.overflow o))
  /-- A batch overflows in the computation for one of its addresses. -/
  | workerFailed {b' : Backend}
      (hover : Overruns settings.takeover b.store.rows (b.log.remaining p)) :
    Drains settings p b stats (b', .ok (.stop (.error .workerFailed)))

/-- One turn of draining. -/
theorem drains (h : b.Ready) (hsite : b.site.Abreast) (hp : p ∈ b.log.partitions.keys)
    (maxBatch : Nat) (stats : Stats) :
  Drains settings p b stats ((Service.drain settings stats).run (answerService p maxBatch) b)
  := by
  obtain ⟨rs, hpoll⟩ : ∃ rs, b.log.poll p maxBatch = .ok rs := ⟨_, EventLog.poll_eq hp maxBatch⟩
  rw [run_drain hpoll]
  by_cases hnil : rs = []
  · rw [if_pos hnil]
    exact .ended (EventLog.remaining_of_poll_nil (hnil ▸ hpoll))
  · rw [if_neg hnil]
    obtain ⟨batch, hrs⟩ := Batch.exists_ofRecords hnil (hsite.log.partition_of_poll hpoll)
    obtain ⟨hready, hexec⟩ := exec_process h settings.policy p rs
    have hconsume := hsite.consume hpoll hrs hexec
    generalize b.process settings.policy p rs = x at hready hconsume ⊢
    obtain ⟨b', r⟩ := x
    rcases hconsume with ⟨hover, hfits⟩ | ⟨⟨applied, finalized, hr⟩, hconsumed⟩
    · have hoverruns : Overruns settings.takeover b.store.rows (b.log.remaining p) := by
        obtain ⟨rest, hrest⟩ := EventLog.remaining_of_poll hpoll
        rw [← hrest]
        exact .append ⟨[], rs, [], b.store.rows, batch, _, (List.append_nil rs).symm,
          .refl hsite.keyed hsite.settled, hrs, hfits⟩ rest
      rcases hover with ⟨o, hr⟩ | hr
      · obtain rfl : r = _ := hr
        exact .overflowed hoverruns
      · obtain rfl : r = _ := hr
        exact .workerFailed hoverruns
    · obtain rfl : r = _ := hr
      exact .consumed hnil hready hconsumed

/-- Draining was stopped by an overflow, in the computation of a batch or in that for one of its
addresses. -/
def Overran (r : Option (Except Fault (Except Failure Stats))) : Prop :=
  (∃ o, r = some (.error (.overflow o))) ∨ r = some (.ok (.error .workerFailed))

/-- With more turns than records remain, a partition is drained: all that remains is consumed,
unless some batch overflows. -/
theorem drained_of_turns {n : Nat} (h : b.Ready) (hsite : b.site.Abreast)
    (hp : p ∈ b.log.partitions.keys) (hturns : (b.log.remaining p).length < n) (stats : Stats) :
  (∃ b' stats', Turn.run (answerService p maxBatch) (Service.drain settings) n b stats
        = (b', some (.ok (.ok stats'))) ∧
      b'.Ready ∧ Site.Consumed p (b.log.remaining p) b.site b'.site) ∨
    (Overran (Turn.run (answerService p maxBatch) (Service.drain settings) n b stats).2 ∧
      Overruns settings.takeover b.store.rows (b.log.remaining p))
  := by
  induction n generalizing b stats with
  | zero => cases hturns
  | succ n ih =>
      rw [Turn.run]
      have hdrains : Drains settings p b stats _ := drains h hsite hp maxBatch stats
      generalize (Service.drain settings stats).run (answerService p maxBatch) b = x at hdrains ⊢
      cases hdrains with
      | ended hnil =>
          rw [hnil]
          exact .inl ⟨b, stats, rfl, h, hsite.consumed_nil p⟩
      | overflowed hover => exact .inr ⟨.inl ⟨_, rfl⟩, hover⟩
      | workerFailed hover => exact .inr ⟨.inr rfl, hover⟩
      | @consumed rs b₁ stats₁ hne hready hconsumed =>
          have hsplit : b.log.remaining p = rs ++ b₁.log.remaining p := hconsumed.remaining
          have hfewer : (b₁.log.remaining p).length < n := by
            have hlength := List.length_pos_iff.mpr hne
            rw [hsplit, List.length_append] at hturns
            omega
          have hp' : p ∈ b₁.log.partitions.keys := hconsumed.keys.mem_iff.mpr hp
          rw [hsplit]
          rcases ih hready hconsumed.abreast hp' hfewer stats₁
            with ⟨b', stats', hrun, hready', hconsumed'⟩ | ⟨hover, hoverruns⟩
          · exact .inl ⟨b', stats', hrun, hready', hconsumed.append hconsumed'⟩
          · exact .inr ⟨hover, hoverruns.after hconsumed.accrues⟩

/-- A partition is drained in as many turns as records remain and one more. -/
theorem drained (h : b.Ready) (hsite : b.site.Abreast) (hp : p ∈ b.log.partitions.keys)
    (maxBatch : Nat) :
  (∃ b' stats, b.drain settings p maxBatch (b.log.lag p + 1) = (b', some (.ok (.ok stats))) ∧
      b'.Ready ∧ Site.Consumed p (b.log.remaining p) b.site b'.site) ∨
    (Overran (b.drain settings p maxBatch (b.log.lag p + 1)).2 ∧
      Overruns settings.takeover b.store.rows (b.log.remaining p))
  := by
  rw [EventLog.lag_eq]
  exact drained_of_turns h hsite hp (Nat.lt_succ_self _) {}

end Backend

end ChainLedger
