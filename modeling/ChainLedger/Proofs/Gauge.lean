import ChainLedger.Proofs.Emptying
import ChainLedger.Proofs.Offsets
import ChainLedger.Proofs.Telling
import ChainLedger.Proofs.Undoing

/-!
# The gauge of acknowledged offsets

When a batch is acknowledged, its last offset is given to the gauge of its partition.  The log
keeps the highest of the offsets that it has accepted, while the gauge shows the last of them.  So
after a batch the two agree exactly if no offset beyond it was acknowledged before.  This holds of
batches that are polled, but need not hold of those that are delivered again.
-/

namespace ChainLedger

open Prog

namespace EventLog

variable {log log' log₀ : EventLog} {p : Partition}

/-! ### Acknowledged offsets -/

/-- What others do does not change what is acknowledged of the partition. -/
theorem acknowledged_touched (h : log.Touched p log') :
  log'.acknowledged p = log.acknowledged p
  := by
  cases h with
  | appended q kind payload =>
      rw [acknowledged, append, partition_insert]
      split
      · next hq =>
          subst hq
          rfl
      · rfl
  | @acknowledged b hq =>
      have hsame : log.acknowledge b = log.acknowledgeAs b.partition b := by
        rw [acknowledgeAs, if_pos rfl]
      have hother : (Operation.acknowledge b.partition b).partition? ≠ some p :=
        fun heq => hq (Option.some.inj heq)
      have hget : (log.acknowledge b).1.partitions.get? p = log.partitions.get? p := by
        rw [hsame]
        exact get?_after hother
      rw [EventLog.acknowledged, EventLog.acknowledged, partition, partition, hget]
  | told => rfl

theorem acknowledged_meanwhile (h : Meanwhile p log log') :
  log'.acknowledged p = log.acknowledged p
  := by
  induction h with
  | refl => rfl
  | tail _ htouched ih => exact (acknowledged_touched htouched).trans ih

theorem firstPending_meanwhile (h : Meanwhile p log log') :
  (log'.partition p).firstPending = (log.partition p).firstPending
  := by
  have hsame : (log'.partition p).acknowledged = (log.partition p).acknowledged :=
    acknowledged_meanwhile h
  rw [PartitionLog.firstPending, hsame]
  rfl

/-- The consumer of a partition is refused and nothing more is acknowledged, or the batch is of the
partition and the higher one of its last offset and the one acknowledged before is acknowledged. -/
theorem acknowledged_acknowledgeAs (log : EventLog) (p : Partition) (b : Bounds) :
  ((log.acknowledgeAs p b).2 ≠ .ok () ∧
      (log.acknowledgeAs p b).1.acknowledged p = log.acknowledged p) ∨
    (log.acknowledgeAs p b).2 = .ok () ∧ b.partition = p ∧
      (log.acknowledgeAs p b).1.acknowledged p
        = some ((log.acknowledged p).elim b.last (max · b.last))
  := by
  rcases log.acknowledgeAs_cases p b with ⟨e, heq⟩ | ⟨-, e, heq⟩ | ⟨l, hl, -, heq⟩
  · left
    rw [heq]
    exact ⟨nofun, rfl⟩
  · left
    rw [heq]
    exact ⟨nofun, rfl⟩
  · right
    have hp : b.partition = p := by
      by_contra hne
      rw [acknowledgeAs, if_neg hne] at heq
      cases (Prod.mk.inj heq).2
    refine ⟨by rw [heq], hp, ?_⟩
    rw [heq, acknowledged, partition_insert, if_pos rfl, acknowledged, partition, hl,
      Option.getD_some, PartitionLog.acknowledge]
    cases l.acknowledged with
    | none => rfl
    | some old => rfl

/-! ### What a log and a gauge are given -/

/-- With one more number, the highest one is it or the highest one before. -/
theorem max?_concat (l : List Nat) (n : Nat) :
  (l ++ [n]).max? = some (l.max?.elim n (max · n))
  := by
  cases l with
  | nil => rfl
  | cons m l =>
      rw [List.cons_append, List.max?_cons', List.foldl_concat, List.max?_cons']
      rfl

/-- The last one of some numbers is the highest one exactly if none before is higher. -/
theorem max?_concat_eq_iff {l : List Nat} {n : Nat} :
  some n = (l ++ [n]).max? ↔ ∀ m ∈ l, m ≤ n
  := by
  rw [eq_comm, List.max?_eq_some_iff]
  constructor
  · exact fun h m hm => h.2 m (List.mem_append_left _ hm)
  · intro h
    refine ⟨List.mem_concat_self, ?_⟩
    intro m hm
    rcases List.mem_append.mp hm with hm | hm
    · exact h m hm
    · exact Nat.le_of_eq (List.mem_singleton.mp hm)

/-- The offset of an acknowledgment that was accepted. -/
def accepted? (x : Exchange batchSignature) : Option Nat :=
  match x with
  | ⟨.acknowledge b, .ok (.ok ())⟩ => some b.last
  | _ => none

/-- The offsets that were accepted, in order. -/
def accepted (t : Transcript batchSignature) : List Nat := t.filterMap accepted?

theorem accepted_append (t t' : Transcript batchSignature) :
  accepted (t ++ t') = accepted t ++ accepted t'
  := List.filterMap_append

end EventLog

/-- The offset that an event gives to the gauge of a partition. -/
def Event.offset? (p : Partition) (e : Event) : Option Nat :=
  match e with
  | offset q n => if q = p then some n else none
  | stage .. | lockAbort _ | forcedApply _ | finalizeFailure _ => none

/-- The offsets that events give to the gauge of a partition, in order. -/
def Event.given (p : Partition) (es : List Event) : List Nat := es.filterMap (·.offset? p)

theorem Event.given_append (p : Partition) (es es' : List Event) :
  given p (es ++ es') = given p es ++ given p es'
  := List.filterMap_append

/-- An event that gives no offset gives none several times. -/
theorem Event.given_map {ι : Type} {p : Partition} {e : Event} (h : e.offset? p = none)
    (l : List ι) :
  given p (l.map fun _ => e) = []
  := by
  rw [given, List.filterMap_map]
  exact List.filterMap_eq_nil_iff.mpr fun _ _ => h

namespace EventLog

variable {log log' log₀ : EventLog} {p : Partition} {x y : EventLog × Transcript batchSignature}
  {policy : Policy}

/-- What the gauge of a partition shows after a dialogue. -/
def gauge (p : Partition) (t : Transcript batchSignature) : Option Nat :=
  (Event.given p (Batch.told t)).getLast?

/-! ### The consumer of a partition -/

/-- The batches of a consumer acknowledge to the log, and all their other calls may be answered
anything.  With each call, others may do to the log what they like, but for acknowledging the
partition. -/
inductive Consumer (p : Partition) : Surroundings batchSignature EventLog
  | acknowledged {log log' : EventLog} {b : Bounds} (h : Meanwhile p log log') :
      Consumer p log (.acknowledge b) (.ok (log'.acknowledgeAs p b).2) (log'.acknowledgeAs p b).1
  | other {log log' : EventLog} {c : BatchCall} {r : Except Fault (batchSignature.Answer c)}
      (hc : c.Unacknowledging) (h : Meanwhile p log log') : Consumer p log c r log'

/-- Batches of any records are processed through the consumer of a partition, one after another,
whatever they end in; all that they call is written down. -/
inductive History (policy : Policy) (p : Partition) (log₀ : EventLog) :
    EventLog × Transcript batchSignature → Prop
  | start : History policy p log₀ (log₀, [])
  | meanwhile {log log' : EventLog} {t : Transcript batchSignature}
      (h : History policy p log₀ (log, t)) (hmeanwhile : Meanwhile p log log') :
      History policy p log₀ (log', t)
  | processed {x y : EventLog × Transcript batchSignature} {rs : List Record}
      {r : Except Fault (Except Failure Outcome)} (h : History policy p log₀ x)
      (hexec : Exec (Consumer p).logged x (Batch.process policy rs) r y) :
      History policy p log₀ y

/-- What is acknowledged of the partition is the highest of the offset acknowledged at first and
those accepted since, and only batches of the partition were accepted. -/
structure Tallied (p : Partition) (log₀ : EventLog) (x : EventLog × Transcript batchSignature) :
    Prop where
  highest : x.1.acknowledged p = ((log₀.acknowledged p).toList ++ accepted x.2).max?
  own : ∀ b, ⟨.acknowledge b, .ok (.ok ())⟩ ∈ x.2 → b.partition = p

theorem tallied_start (p : Partition) (log : EventLog) :
  Tallied p log (log, [])
  := by
  refine ⟨?_, fun b hb => absurd hb List.not_mem_nil⟩
  change log.acknowledged p = ((log.acknowledged p).toList ++ []).max?
  rw [List.append_nil]
  cases log.acknowledged p with
  | none => rfl
  | some n => rfl

theorem Tallied.meanwhile {t : Transcript batchSignature} (h : Tallied p log₀ (log, t))
    (hmeanwhile : Meanwhile p log log') :
  Tallied p log₀ (log', t)
  := ⟨(acknowledged_meanwhile hmeanwhile).trans h.highest, h.own⟩

/-- A call that is no accepted acknowledgment only writes itself down. -/
theorem Tallied.noted {t : Transcript batchSignature} (h : Tallied p log₀ (log, t))
    {e : Exchange batchSignature} (he : accepted? e = none) :
  Tallied p log₀ (log, t ++ [e])
  := by
  constructor
  · rw [accepted_append, show accepted [e] = [] from List.filterMap_cons_none he, List.append_nil]
    exact h.highest
  · intro b hb
    rcases List.mem_append.mp hb with hb | hb
    · exact h.own b hb
    · rw [← List.mem_singleton.mp hb] at he
      cases he

/-- Every call of a batch keeps the tally. -/
theorem Tallied.call {c : BatchCall} {r : Except Fault (batchSignature.Answer c)}
    (hcall : (Consumer p).logged x c r y) (h : Tallied p log₀ x) :
  Tallied p log₀ y
  := by
  obtain ⟨log, t⟩ := x
  obtain ⟨log', t'⟩ := y
  obtain ⟨hanswer, ht⟩ := hcall
  dsimp only at hanswer ht
  subst ht
  cases hanswer with
  | @acknowledged _ log₁ b hmeanwhile =>
      have h₁ := h.meanwhile hmeanwhile
      rcases log₁.acknowledged_acknowledgeAs p b with ⟨hrefused, hsame⟩ | ⟨haccepted, hp, hhighest⟩
      · have hnone : ∀ a : Except LogError Unit, a ≠ .ok () →
            accepted? ⟨.acknowledge b, .ok a⟩ = none := by
          rintro (e | ⟨⟩) ha
          · rfl
          · exact absurd rfl ha
        have hnoted := h₁.noted (hnone _ hrefused)
        exact ⟨hsame.trans hnoted.highest, hnoted.own⟩
      · rw [haccepted]
        constructor
        · rw [accepted_append, ← List.append_assoc]
          change _ = ((_ ++ accepted t) ++ [b.last]).max?
          rw [max?_concat, ← h₁.highest]
          exact hhighest
        · intro b' hb'
          rcases List.mem_append.mp hb' with hb' | hb'
          · exact h.own b' hb'
          · cases List.mem_singleton.mp hb'
            exact hp
  | other hc hmeanwhile =>
      apply (h.meanwhile hmeanwhile).noted
      cases c with
      | acknowledge b => exact absurd rfl (hc b)
      | accepting | store | applyAll | tell => rfl

/-- Every batch, whatever it ends in, keeps the tally. -/
theorem Tallied.exec {α : Type} {q : Batch.Step α} {r : Except Fault α} (h : Tallied p log₀ x)
    (hexec : Exec (Consumer p).logged x q r y) :
  Tallied p log₀ y
  := ensures_keeps (J := Tallied p log₀) (fun _ _ _ _ hcall _ => Tallied.call hcall) (uses_true q) h
    hexec

/-- All offsets that were accepted lie before the first pending one. -/
theorem Tallied.lt_firstPending (h : Tallied p log₀ x) {n : Nat}
    (hn : n ∈ (log₀.acknowledged p).toList ++ accepted x.2) :
  n < (x.1.partition p).firstPending
  := by
  obtain ⟨m, hm⟩ := Option.isSome_iff_exists.mp (List.isSome_max?_of_mem hn)
  have hacknowledged : (x.1.partition p).acknowledged = some m := h.highest.trans hm
  rw [PartitionLog.firstPending, hacknowledged]
  exact Nat.lt_succ_of_le ((List.max?_eq_some_iff.mp hm).2 n hn)

theorem History.tallied (h : History policy p log₀ x) :
  Tallied p log₀ x
  := by
  induction h with
  | start => exact tallied_start p log₀
  | meanwhile _ hmeanwhile ih => exact ih.meanwhile hmeanwhile
  | processed _ hexec ih => exact ih.exec hexec

end EventLog

/-! ### One batch -/

namespace Batch

open EventLog

variable {policy : Policy} {rs : List Record} {b : Bounds} {u : Transcript batchSignature}
  {r : Except Failure Outcome} {es : List Event}

/-- The bounds of a batch that is committed. -/
def committed? (r : Except Failure Outcome) : Option Bounds :=
  match r with
  | .ok (.committed b ..) => some b
  | .ok .empty | .ok (.reverted ..) | .error _ => none

/-- Events are not accepted. -/
theorem accepted_asked (t : Transcript batchSignature) :
  accepted (asked t) = accepted t
  := by
  rw [accepted, asked, List.filterMap_filter]
  congr
  funext x
  obtain ⟨c, r⟩ := x
  cases c with
  | tell e => rfl
  | accepting | store | applyAll | acknowledge => rfl

/-- Store calls are not accepted. -/
theorem Stores.accepted (h : Stores policy u) :
  EventLog.accepted u = []
  := by
  apply List.filterMap_eq_nil_iff.mpr
  rintro ⟨c, r⟩ hx
  obtain ⟨c', rfl⟩ := h _ hx
  rfl

/-- The second phase acknowledges nothing and gives no offset. -/
theorem Finalizes.given {ts : List Target} {x : List Address × List Address}
    (h : Finalizes policy b ts u x es) (p : Partition) :
  accepted u = [] ∧ Event.given p es = []
  := by
  cases h with
  | nothing => exact ⟨rfl, rfl⟩
  | unread => exact ⟨rfl, Event.given_map rfl _⟩
  | reread _ hu =>
      refine ⟨hu.accepted, ?_⟩
      rw [Event.given_append, Event.given_append, Event.given_map rfl]
      rfl

/-- If a batch is committed, its last offset is accepted and given to the gauge of its partition;
else nothing is accepted or given. -/
structure Gives (r : Except Failure Outcome) (u : Transcript batchSignature) (es : List Event) :
    Prop where
  accepted : EventLog.accepted u = ((committed? r).map (·.last)).toList
  acknowledged : ∀ b, committed? r = some b → ⟨.acknowledge b, .ok (.ok ())⟩ ∈ u
  given : ∀ p, Event.given p es = (((committed? r).filter (·.partition = p)).map (·.last)).toList

/-- After its loops, a batch gives its last offset if it is committed, and else nothing. -/
theorem Concludes.gives {carried : List Target} {results : List Apply.Result}
    (h : Concludes policy b carried results u r es) :
  Gives r u es
  := by
  cases h with
  | failed => exact ⟨rfl, nofun, fun p => rfl⟩
  | reverted _ _ hu => exact ⟨hu.accepted, nofun, fun p => rfl⟩
  | unacknowledged => exact ⟨rfl, nofun, fun p => rfl⟩
  | @committed u _ _ events _ _ hfinal =>
      constructor
      · exact congrArg (b.last :: ·) (hfinal.given b.partition).1
      · rintro _ ⟨⟩
        exact .head _
      · intro p
        rw [Event.given_append, Event.given_append, (hfinal.given p).2]
        by_cases hp : b.partition = p
        · simp [Event.given, Event.offset?, committed?, Option.filter, hp]
        · simp [Event.given, Event.offset?, committed?, Option.filter, hp]

/-- A batch gives its last offset if it is committed, and else nothing. -/
theorem Reports.gives (h : Reports policy rs u r es) :
  Gives r u es
  := by
  cases h with
  | refused | mixed | empty | unread | crashed => exact ⟨rfl, nofun, fun p => rfl⟩
  | concluded _ _ _ hend =>
      obtain ⟨haccepted, hacknowledged, hgiven⟩ := hend.gives
      constructor
      · exact haccepted
      · intro b hb
        exact .tail _ (.tail _ (.tail _ (hacknowledged b hb)))
      · intro p
        rw [Event.given_append, Event.given_append, Event.given_map rfl, hgiven]
        rfl

/-- A batch that is committed is one of the records delivered. -/
theorem Reports.exists_batch (h : Reports policy rs u r es) (hr : committed? r = some b) :
  ∃ batch, ofRecords rs = .ok (some batch) ∧ batch.bounds = b
  := by
  cases h with
  | refused | mixed | empty | unread | crashed => cases hr
  | concluded hrs _ _ hend =>
      cases hend with
      | failed | reverted | unacknowledged => cases hr
      | committed =>
          cases hr
          exact ⟨_, hrs, rfl⟩

/-- So it is with everything that a batch calls. -/
theorem gives_of_talk (h : Talk (process policy rs) u r) :
  Gives r u (told u)
  := by
  obtain ⟨haccepted, hacknowledged, hgiven⟩ := (says_process policy rs h).gives
  constructor
  · rw [← accepted_asked]
    exact haccepted
  · exact fun b hb => (List.mem_filter.mp (hacknowledged b hb)).1
  · exact hgiven

end Batch

namespace EventLog

section ended

variable {log log' log₀ : EventLog} {p : Partition} {policy : Policy} {rs : List Record}
  {t t' : Transcript batchSignature} {b : Bounds} {applied finalized failed : List Address}

/-- Only batches of the partition are committed in its history. -/
theorem History.gives {r : Except Failure Outcome} (h : History policy p log₀ (log, t))
    (hexec : Exec (Consumer p).logged (log, t) (Batch.process policy rs) (.ok r) (log', t')) :
  ∃ u, t' = t ++ u ∧ Batch.Gives r u (Batch.told u) ∧
    ∀ b, Batch.committed? r = some b → b.partition = p
  := by
  have htallied := h.tallied.exec hexec
  obtain ⟨u, hu, htalk⟩ := hexec.talk
  have hgives := Batch.gives_of_talk htalk
  refine ⟨u, hu, hgives, ?_⟩
  intro b hb
  apply htallied.own b
  rw [hu]
  exact List.mem_append_right _ (hgives.acknowledged b hb)

/-- A batch that ends leaves the gauges of other partitions as they are. -/
theorem gauge_elsewhere {r : Except Failure Outcome} {q : Partition} (hq : q ≠ p)
    (h : History policy p log₀ (log, t))
    (hexec : Exec (Consumer p).logged (log, t) (Batch.process policy rs) (.ok r) (log', t')) :
  gauge q t' = gauge q t
  := by
  obtain ⟨u, rfl, hgives, hown⟩ := h.gives hexec
  have hnone : (Batch.committed? r).filter (·.partition = q) = none := by
    apply Option.filter_eq_none_iff.mpr
    intro b hb hbq
    exact hq ((of_decide_eq_true hbq).symm.trans (hown b hb))
  have hgiven := hgives.given q
  rw [hnone] at hgiven
  rw [gauge, Batch.told_append, Event.given_append, hgiven]
  exact congrArg _ (List.append_nil _)

/-- The log and the gauge after a committed batch of a history. -/
theorem History.committed (h : History policy p log₀ (log, t))
    (hexec : Exec (Consumer p).logged (log, t) (Batch.process policy rs)
      (.ok (.ok (.committed b applied finalized failed))) (log', t')) :
  accepted t' = accepted t ++ [b.last] ∧ gauge p t' = some b.last ∧
    log'.acknowledged p = ((log₀.acknowledged p).toList ++ accepted t ++ [b.last]).max?
  := by
  have htallied := h.tallied.exec hexec
  obtain ⟨u, rfl, hgives, hown⟩ := h.gives hexec
  have hp : b.partition = p := hown b rfl
  have haccepted : accepted (t ++ u) = accepted t ++ [b.last] := by
    rw [accepted_append, hgives.accepted]
    rfl
  have hgiven : Event.given p (Batch.told u) = [b.last] := by
    rw [hgives.given]
    simp [Batch.committed?, hp]
  refine ⟨haccepted, ?_, ?_⟩
  · rw [gauge, Batch.told_append, Event.given_append, hgiven, List.getLast?_concat]
  · rw [htallied.highest, haccepted, List.append_assoc]

/-- As long as batches are polled, the gauge follows the log. -/
theorem gauge_of_polled {polled : EventLog} {maxBatch : Nat} (h : History policy p log₀ (log, t))
    (hsound : polled.Sound) (hpoll : polled.poll p maxBatch = .ok rs)
    (hmeanwhile : Meanwhile p polled log)
    (hexec : Exec (Consumer p).logged (log, t) (Batch.process policy rs)
      (.ok (.ok (.committed b applied finalized failed))) (log', t')) :
  gauge p t' = log'.acknowledged p
  := by
  obtain ⟨-, hgauge, hlog⟩ := h.committed hexec
  rw [hgauge, hlog]
  apply max?_concat_eq_iff.mpr
  intro n hn
  obtain ⟨u, -, htalk⟩ := hexec.talk
  obtain ⟨batch, hrs, rfl⟩ := (Batch.says_process policy rs htalk).exists_batch rfl
  -- a polled batch begins at the first pending offset, so all that was accepted lies before it
  have hlast := hsound.last_of_poll hpoll hrs
  have hpos := (Batch.collects_of_ofRecords hrs).length_pos
  have hlt : n < (log.partition p).firstPending := h.tallied.lt_firstPending hn
  rw [firstPending_meanwhile hmeanwhile] at hlt
  omega

/-- After every history of a consumer, whatever was delivered again and whatever its batches have
ended in, a batch that is committed gives its last offset to the gauge of its partition.  The log
has the highest of all offsets that were accepted, so the gauge follows it exactly if none of those
accepted before is beyond the batch. -/
theorem gauge_of_committed (h : History policy p log₀ (log, t))
    (hexec : Exec (Consumer p).logged (log, t) (Batch.process policy rs)
      (.ok (.ok (.committed b applied finalized failed))) (log', t')) :
  gauge p t' = some b.last ∧ accepted t' = accepted t ++ [b.last] ∧
    log'.acknowledged p = ((log₀.acknowledged p).toList ++ accepted t').max? ∧
    (gauge p t' = log'.acknowledged p ↔
      ∀ n ∈ (log₀.acknowledged p).toList ++ accepted t, n ≤ b.last)
  := by
  obtain ⟨haccepted, hgauge, hlog⟩ := h.committed hexec
  refine ⟨hgauge, haccepted, ?_, ?_⟩
  · rw [hlog, haccepted, List.append_assoc]
  · rw [hgauge, hlog]
    exact max?_concat_eq_iff

end ended

end EventLog

/-! ### A batch that is delivered again -/

namespace Batch

open EventLog

/-- A transaction that is only pooled. -/
def pooled (offset : Nat) : Record := remittance home .pooled sender 5 offset

/-- A log with two transactions that are only pooled. -/
def pool : EventLog := appendAll {} [pooled 0, pooled 1]

/-- The batch of both transactions. -/
def bothPooled : Batch where
  bounds := ⟨home, 0, 1, 2⟩
  records := [pooled 0, pooled 1]

/-- The batch of the first transaction. -/
def firstPooled : Batch where
  bounds := ⟨home, 0, 0, 1⟩
  records := [pooled 0]

/-- What a batch calls that changes no row. -/
def idle (b : Bounds) : Transcript batchSignature :=
  [⟨.accepting, .ok true⟩,
    ⟨.store (.findAll []) 5000, .ok (.answered (.ok .empty))⟩,
    ⟨.tell (.stage b.partition.topic .fetch), .ok ()⟩,
    ⟨.applyAll hasty [], .ok []⟩,
    ⟨.tell (.stage b.partition.topic .store), .ok ()⟩,
    ⟨.acknowledge b, .ok (.ok ())⟩,
    ⟨.tell (.stage b.partition.topic .commitLog), .ok ()⟩,
    ⟨.tell (.offset b.partition b.last), .ok ()⟩,
    ⟨.tell (.stage b.partition.topic .batch), .ok ()⟩]

/-- A batch that changes no row is committed if the log accepts it. -/
theorem exec_idle {log log' : EventLog} {p : Partition} {rs : List Record} {b : Batch}
    (t : Transcript batchSignature) (hrs : ofRecords rs = .ok (some b))
    (hdeltas : b.deltas = []) (hlog : log.acknowledgeAs p b.bounds = (log', .ok ())) :
  Exec (Consumer p).logged (log, t) (process hasty rs)
    (.ok (.ok (.committed b.bounds [] [] []))) (log', t ++ idle b.bounds)
  := by
  have hkeys : b.keys = [] := by
    change Delta.keys b.deltas = []
    rw [hdeltas]
    rfl
  have haccepting : BatchCall.accepting.Unacknowledging := by rintro b ⟨⟩
  have hloops : (BatchCall.applyAll hasty []).Unacknowledging := by rintro b ⟨⟩
  have htold : ∀ e, (BatchCall.tell e).Unacknowledging :=
    fun e => (BatchCall.Plain.tell e).unacknowledging
  have hread : (BatchCall.store (.findAll []) hasty.deadline).Unacknowledging :=
    (BatchCall.Plain.store _ _).unacknowledging
  have hacknowledged : Consumer p log (.acknowledge b.bounds) (.ok (.ok ())) log' := by
    have hanswer : Consumer p log (.acknowledge b.bounds) (.ok (log.acknowledgeAs p b.bounds).2)
        (log.acknowledgeAs p b.bounds).1 := .acknowledged .refl
    rw [hlog] at hanswer
    exact hanswer
  -- without deltas there are no rows to read and no loops to run
  apply exec_written (.other haccepting .refl)
  simp only [Prog.bind, if_true, hrs]
  rw [run, hkeys]
  apply exec_written (S := batchSignature) (c := .store (.findAll []) hasty.deadline)
    (a := .answered (.ok .empty)) (.other hread .refl)
  apply exec_written (.other (htold _) .refl)
  rw [hdeltas]
  apply exec_written (.other hloops .refl)
  apply exec_written (.other (htold _) .refl)
  rw [carriedOver, hkeys]
  apply exec_written hacknowledged
  apply exec_written (.other (htold _) .refl)
  apply exec_written (.other (htold _) .refl)
  apply exec_written (.other (htold _) .refl)
  rw [List.append_nil]
  exact .done _ _

theorem ofRecords_bothPooled :
  ofRecords [pooled 0, pooled 1] = .ok (some bothPooled)
  := by
  apply ofRecords_of_ascending
  · decide
  · decide

theorem ofRecords_firstPooled :
  ofRecords [pooled 0] = .ok (some firstPooled)
  := by
  rw [ofRecords, List.mergeSort_singleton]
  rfl

/-- The log with both transactions acknowledged. -/
def poolTaken : EventLog := (pool.acknowledgeAs home bothPooled.bounds).1

/-- The batch of both transactions is committed. -/
theorem exec_bothPooled :
  Exec (Consumer home).logged (pool, []) (process hasty [pooled 0, pooled 1])
    (.ok (.ok (.committed bothPooled.bounds [] [] []))) (poolTaken, idle bothPooled.bounds)
  := exec_idle [] ofRecords_bothPooled rfl rfl

theorem history_bothPooled :
  History hasty home pool (poolTaken, idle bothPooled.bounds)
  := History.start.processed exec_bothPooled

/-- When the batch of both transactions is delivered again, the gauge follows the log. -/
theorem gauge_of_pool_again :
  ∃ t, Exec (Consumer home).logged (poolTaken, idle bothPooled.bounds)
      (process hasty [pooled 0, pooled 1])
      (.ok (.ok (.committed bothPooled.bounds [] [] []))) (poolTaken, t) ∧
    gauge home t = poolTaken.acknowledged home
  := by
  have hlog : poolTaken.acknowledgeAs home bothPooled.bounds = (poolTaken, .ok ()) := rfl
  have hexec := exec_idle (idle bothPooled.bounds) ofRecords_bothPooled rfl hlog
  obtain ⟨-, -, -, hfollows⟩ := gauge_of_committed history_bothPooled hexec
  exact ⟨_, hexec, hfollows.mpr (by decide)⟩

/-- When only the first of two transactions is delivered again, after both were acknowledged, the
gauge is set back to it, and both stay acknowledged. -/
theorem gauge_is_set_back :
  History hasty home pool (poolTaken, idle bothPooled.bounds) ∧
    gauge home (idle bothPooled.bounds) = some 1 ∧
    ∃ t, Exec (Consumer home).logged (poolTaken, idle bothPooled.bounds)
        (process hasty [pooled 0])
        (.ok (.ok (.committed firstPooled.bounds [] [] []))) (poolTaken, t) ∧
      gauge home t = some 0 ∧ poolTaken.acknowledged home = some 1
  := by
  refine ⟨history_bothPooled, rfl, idle bothPooled.bounds ++ idle firstPooled.bounds, ?_, rfl, rfl⟩
  exact exec_idle _ ofRecords_firstPooled rfl rfl

end Batch

end ChainLedger
