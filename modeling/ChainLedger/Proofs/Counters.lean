import ChainLedger.Metrics
import ChainLedger.Proofs.Replacing
import ChainLedger.Proofs.Telling

/-!
# Counters

The counters of a topic are raised by the events of this topic, one kind each.  What a batch tells
is fixed by how it ends, so over any run they count the batches that were undone, the forced writes
that loops reported, and the rows that batches reported as left in doubt.
-/

namespace ChainLedger

open Prog

/-! ### Series -/

/-- What stands before the first opening brace is known from the whole. -/
theorem eq_of_append_brace {cs cs' r r' : List Char} (h : '{' ∉ cs) (h' : '{' ∉ cs')
    (heq : cs ++ '{' :: r = cs' ++ '{' :: r') :
  cs = cs' ∧ r = r'
  := by
  induction cs generalizing cs' with
  | nil =>
      cases cs' with
      | nil => exact ⟨rfl, (List.cons.inj heq).2⟩
      | cons c cs' => exact absurd ((List.cons.inj heq).1 ▸ List.mem_cons_self) h'
  | cons c cs ih =>
      cases cs' with
      | nil => exact absurd ((List.cons.inj heq).1 ▸ List.mem_cons_self) h
      | cons c' cs' =>
          obtain ⟨rfl, hrest⟩ := List.cons.inj heq
          obtain ⟨rfl, rfl⟩ :=
            ih (fun hmem => h (.tail _ hmem)) (fun hmem => h' (.tail _ hmem)) hrest
          exact ⟨rfl, rfl⟩

namespace Metrics

/-- Metrics of different names have different series, and so have metrics of different labels. -/
theorem series_inj {name name' : String} {labels labels' : List String} (h : '{' ∉ name.toList)
    (h' : '{' ∉ name'.toList) (heq : series name labels = series name' labels') :
  name = name' ∧ ",".intercalate labels = ",".intercalate labels'
  := by
  have hchars := congrArg String.toList heq
  simp only [series, String.toList_append] at hchars
  have hbrace : "\x7b".toList = ['{'] := rfl
  rw [hbrace, List.append_assoc, List.append_assoc, List.append_assoc, List.append_assoc] at hchars
  obtain ⟨hname, hlabels⟩ := eq_of_append_brace h h' hchars
  exact ⟨String.toList_inj.mp hname, String.toList_inj.mp (List.append_cancel_right hlabels)⟩

/-- The value of a series, zero if it was never touched. -/
def count (m : Metrics) (series : String) : Int := (m.values.get? series).getD 0

theorem count_add (m : Metrics) (s s' : String) (n : Nat) :
  (m.add s n).count s' = m.count s' + if s' = s then (n : Int) else 0
  := by
  rw [count, add, Table.get?_insert]
  split
  · next h =>
      subst h
      rfl
  · exact (Int.add_zero _).symm

theorem count_setOffset_of_ne (m : Metrics) (p : Partition) (offset : Nat) {s : String}
    (h : s ≠ series "summary_current_offset" [toString p.number, p.topic]) :
  (m.setOffset p offset).count s = m.count s
  := by
  rw [count, setOffset, Table.get?_insert, if_neg h]
  rfl

end Metrics

namespace Event

/-- The series that an event changes. -/
def series : Event → String
  | stage topic s => Metrics.series "summary_stage_seconds" [s.label, topic]
  | lockAbort topic => Metrics.series "summary_lock_aborts_total" [topic]
  | forcedApply topic => Metrics.series "summary_forced_applies_total" [topic]
  | finalizeFailure topic => Metrics.series "summary_finalize_failures_total" [topic]
  | offset p _ => Metrics.series "summary_current_offset" [toString p.number, p.topic]

/-- The event is one that a counter counts. -/
def Counted : Event → Prop
  | lockAbort _ | forcedApply _ | finalizeFailure _ => True
  | stage .. | offset .. => False

/-- A counter has events of one kind and one topic only. -/
theorem eq_of_series {e e' : Event} (h : e.Counted) (heq : e.series = e'.series) :
  e = e'
  := by
  have hne : ∀ {name name' labels labels'}, '{' ∉ name.toList → '{' ∉ name'.toList →
      name ≠ name' → Metrics.series name labels ≠ Metrics.series name' labels' :=
    fun h h' hne heq => hne (Metrics.series_inj h h' heq).1
  have htopic : ∀ {name topic topic'}, '{' ∉ name.toList →
      Metrics.series name [topic] = Metrics.series name [topic'] → topic = topic' :=
    fun h heq => (Metrics.series_inj h h heq).2
  cases e with
  | stage => exact h.elim
  | offset => exact h.elim
  | lockAbort topic =>
      cases e' with
      | lockAbort topic' => exact congrArg lockAbort (htopic (by decide) heq)
      | stage | forcedApply | finalizeFailure | offset =>
          exact absurd heq (hne (by decide) (by decide) (by decide))
  | forcedApply topic =>
      cases e' with
      | forcedApply topic' => exact congrArg forcedApply (htopic (by decide) heq)
      | stage | lockAbort | finalizeFailure | offset =>
          exact absurd heq (hne (by decide) (by decide) (by decide))
  | finalizeFailure topic =>
      cases e' with
      | finalizeFailure topic' => exact congrArg finalizeFailure (htopic (by decide) heq)
      | stage | lockAbort | forcedApply | offset =>
          exact absurd heq (hne (by decide) (by decide) (by decide))

/-- An event other than an acknowledged offset raises its series by one. -/
theorem record_eq_add (m : Metrics) {e : Event} (h : ∀ p n, e ≠ offset p n) :
  m.record e = m.add e.series 1
  := by
  cases e with
  | offset p n => exact absurd rfl (h p n)
  | stage | lockAbort | forcedApply | finalizeFailure => rfl

/-- A counter is raised by its own events only, each time by one. -/
theorem count_record {e : Event} (h : e.Counted) (m : Metrics) (e' : Event) :
  (m.record e').count e.series = m.count e.series + if e' = e then 1 else 0
  := by
  by_cases heq : e' = e
  · subst heq
    have hoffset : ∀ p n, e' ≠ offset p n := by
      rintro p n rfl
      exact h
    rw [record_eq_add m hoffset, Metrics.count_add, if_pos rfl, if_pos rfl]
    rfl
  · have hne : e.series ≠ e'.series := fun hseries => heq (eq_of_series h hseries).symm
    rw [if_neg heq, Int.add_zero]
    by_cases hoffset : ∃ p n, e' = offset p n
    · obtain ⟨p, n, rfl⟩ := hoffset
      exact m.count_setOffset_of_ne p n hne
    · rw [record_eq_add m fun p n heq => hoffset ⟨p, n, heq⟩, Metrics.count_add, if_neg hne,
        Int.add_zero]

/-- After some events, a counter is higher by the number of its own events. -/
theorem count_foldl {e : Event} (h : e.Counted) (m : Metrics) (es : List Event) :
  (es.foldl Metrics.record m).count e.series = m.count e.series + es.count e
  := by
  induction es generalizing m with
  | nil => exact (Int.add_zero _).symm
  | cons e' es ih =>
      rw [List.foldl_cons, ih, count_record h, List.count_cons]
      by_cases heq : e' = e
      · subst heq
        rw [if_pos rfl, if_pos (beq_self_eq_true e')]
        omega
      · rw [if_neg heq, if_neg (by simpa using heq)]
        omega

end Event

/-! ### Runs -/

namespace Batch

/-- The processing of some records: the calls that it made, with their ends, and its result. -/
structure Treatment where
  records : List Record
  calls : Transcript batchSignature
  result : Except Failure Outcome

/-- The forced writes among the results of the loops, where all loops have results. -/
def forced (x : Exchange batchSignature) : List Write :=
  match x with
  | ⟨.applyAll _ _, .ok ends⟩ =>
    match JobEnd.collect ends with
    | some results => (writes results).filter (·.forced)
    | none => []
  | _ => []

/-- The topic of the batch of some records, if they make one. -/
def topic? (rs : List Record) : Option String :=
  match ofRecords rs with
  | .ok (some b) => some b.bounds.partition.topic
  | .ok none | .error _ => none

/-- Whether the batch was undone. -/
def wasReverted (r : Except Failure Outcome) : Bool := r.toOption.any Outcome.isReverted

/-- The rows that the batch reports as left in doubt. -/
def unfinalized : Except Failure Outcome → List Address
  | .ok (.committed _ _ _ failed) => failed
  | .ok (.reverted ..) | .ok .empty | .error _ => []

/-- In the surroundings, records are processed in turn, none of the batches being stopped by a
fault; each treatment holds what was called and heard. -/
inductive Runs {σ : Type} (A : Surroundings batchSignature σ) (policy : Policy) :
    σ → List Treatment → σ → Prop
  | nil (s : σ) : Runs A policy s [] s
  | cons {s s' s'' : σ} {x : Treatment} {xs : List Treatment}
      (h : Exec A.logged (s, []) (process policy x.records) (.ok x.result) (s', x.calls))
      (hrest : Runs A policy s' xs s'') : Runs A policy s (x :: xs) s''

/-- Every batch of a run ends in one of the ways that a batch may end. -/
theorem Runs.reports {σ : Type} {A : Surroundings batchSignature σ} {policy : Policy} {s s' : σ}
    {xs : List Treatment} (h : Runs A policy s xs s') :
  ∀ x ∈ xs, Reports policy x.records (asked x.calls) x.result (told x.calls)
  := by
  induction h with
  | nil => exact fun x hx => absurd hx List.not_mem_nil
  | @cons _ _ _ x _ hexec _ ih =>
      intro y hy
      rcases List.mem_cons.mp hy with rfl | hy
      · obtain ⟨t, ht, htalk⟩ := hexec.talk
        obtain rfl : y.calls = t := ht
        exact says_process policy y.records htalk
      · exact ih y hy

/-! ### Counting -/

variable {policy : Policy} {rs : List Record} {b : Bounds} {u : Transcript batchSignature}
  {r : Except Failure Outcome} {es : List Event}

/-- The second phase tells each row left in doubt, and nothing else that is counted. -/
theorem Finalizes.count {ts : List Target} {x : List Address × List Address}
    (h : Finalizes policy b ts u x es) (topic : String) :
  es.count (.lockAbort topic) = 0 ∧ es.count (.forcedApply topic) = 0 ∧
    es.count (.finalizeFailure topic) = if b.partition.topic = topic then x.2.length else 0
  := by
  cases h with
  | nothing => simp
  | unread => simp [List.count_replicate, -List.map_map]
  | reread => simp [List.count_replicate]

/-- After its loops, a batch tells the lock if it is undone, each row left in doubt, and nothing
else that is counted. -/
theorem Concludes.count {carried : List Target} {results : List Apply.Result}
    (h : Concludes policy b carried results u r es) (topic : String) :
  es.count (.lockAbort topic) = (if b.partition.topic = topic ∧ wasReverted r then 1 else 0) ∧
    es.count (.forcedApply topic) = 0 ∧
    es.count (.finalizeFailure topic)
      = if b.partition.topic = topic then (unfinalized r).length else 0
  := by
  cases h with
  | failed => simp [wasReverted, unfinalized, Except.toOption]
  | reverted =>
      simp [wasReverted, unfinalized, Outcome.isReverted, Except.toOption, List.count_cons]
  | unacknowledged => simp [wasReverted, unfinalized, Except.toOption]
  | committed _ _ hfinal =>
      obtain ⟨hlock, hforced, hfailure⟩ := hfinal.count topic
      simp [wasReverted, unfinalized, Outcome.isReverted, Except.toOption, hlock, hforced,
        hfailure]

/-- Store calls report no forced writes. -/
theorem Stores.forced (h : Stores policy u) :
  u.flatMap forced = []
  := by
  apply List.flatMap_eq_nil_iff.mpr
  rintro ⟨c, r⟩ hx
  obtain ⟨c', rfl⟩ := h _ hx
  rfl

/-- Events report no forced writes. -/
theorem forced_asked (t : Transcript batchSignature) :
  (asked t).flatMap forced = t.flatMap forced
  := by
  induction t with
  | nil => rfl
  | cons x t ih =>
      obtain ⟨c, r⟩ := x
      cases c with
      | tell e => exact ih
      | accepting | store | applyAll | acknowledge => exact congrArg (forced _ ++ ·) ih

/-- The loops have reported before the batch concludes. -/
theorem Concludes.forced {carried : List Target} {results : List Apply.Result}
    (h : Concludes policy b carried results u r es) :
  u.flatMap forced = []
  := by
  cases h with
  | failed => rfl
  | reverted _ _ hu => exact hu.forced
  | unacknowledged => rfl
  | committed _ _ hfinal =>
      cases hfinal with
      | nothing => rfl
      | unread => rfl
      | reread _ hu => exact hu.forced

/-- A batch is counted by what it ends in. -/
theorem Reports.count (h : Reports policy rs u r es) (topic : String) :
  es.count (.lockAbort topic) = (if topic? rs = some topic ∧ wasReverted r then 1 else 0) ∧
    es.count (.forcedApply topic)
      = (if topic? rs = some topic then (u.flatMap Batch.forced).length else 0) ∧
    es.count (.finalizeFailure topic)
      = if topic? rs = some topic then (unfinalized r).length else 0
  := by
  cases h with
  | refused => simp [wasReverted, unfinalized, Except.toOption, Batch.forced]
  | mixed => simp [wasReverted, unfinalized, Except.toOption, Batch.forced]
  | empty => simp [wasReverted, unfinalized, Outcome.isReverted, Except.toOption, Batch.forced]
  | unread => simp [wasReverted, unfinalized, Except.toOption, Batch.forced]
  | crashed _ _ hends => simp [wasReverted, unfinalized, Except.toOption, Batch.forced, hends]
  | @concluded b _ _ _ _ _ _ _ hb _ hends hend =>
      obtain ⟨hlock, hforced, hfailure⟩ := hend.count topic
      have htopic : topic? rs = some b.bounds.partition.topic := by rw [topic?, hb]
      simp only [List.flatMap_cons, Batch.forced, hends, hend.forced, htopic, Option.some.injEq]
      simp [hlock, hforced, hfailure, List.count_replicate]

/-- The treatments of batches of a topic. -/
def ofTopic (topic : String) (xs : List Treatment) : List Treatment :=
  xs.filter fun x => topic? x.records = some topic

theorem ofTopic_cons (topic : String) (x : Treatment) (xs : List Treatment) :
  ofTopic topic (x :: xs)
    = if topic? x.records = some topic then x :: ofTopic topic xs else ofTopic topic xs
  := by
  simp only [ofTopic, List.filter_cons, decide_eq_true_eq]

/-- The events of a run are counted by what its batches ended in. -/
theorem count_of_reports {xs : List Treatment}
    (h : ∀ x ∈ xs, Reports policy x.records (asked x.calls) x.result (told x.calls))
    (topic : String) :
  (xs.flatMap (told ·.calls)).count (.lockAbort topic)
      = (ofTopic topic xs).countP (wasReverted ·.result) ∧
    (xs.flatMap (told ·.calls)).count (.forcedApply topic)
      = ((ofTopic topic xs).flatMap (·.calls.flatMap forced)).length ∧
    (xs.flatMap (told ·.calls)).count (.finalizeFailure topic)
      = ((ofTopic topic xs).flatMap (unfinalized ·.result)).length
  := by
  induction xs with
  | nil => exact ⟨rfl, rfl, rfl⟩
  | cons x xs ih =>
      obtain ⟨hlocks, hforced, hfailures⟩ := ih fun y hy => h y (.tail _ hy)
      obtain ⟨hlock, hforce, hfailure⟩ := (h x (.head _)).count topic
      rw [forced_asked] at hforce
      rw [List.flatMap_cons, List.count_append, List.count_append, List.count_append, hlocks,
        hforced, hfailures, hlock, hforce, hfailure, ofTopic_cons]
      by_cases htopic : topic? x.records = some topic
      · simp only [htopic, if_true, true_and, List.countP_cons, List.flatMap_cons,
          List.length_append, Nat.add_comm]
      · simp only [htopic, if_false, false_and, Nat.zero_add, and_self]

/-- What the observers are told is fixed by how each batch ends, whatever the surroundings, as
long as no fault stops the batch.  So over any run the counters of a topic rise by the number of
its batches that were undone, of the forced writes that its loops reported, and of the rows that
its batches reported as left in doubt. -/
theorem counters_of_run {σ : Type} {A : Surroundings batchSignature σ} {s s' : σ}
    {xs : List Treatment} (h : Runs A policy s xs s') :
  (∀ x ∈ xs, Reports policy x.records (asked x.calls) x.result (told x.calls)) ∧
    ∀ (m m' : Metrics) (topic : String),
      m' = (xs.flatMap (told ·.calls)).foldl Metrics.record m →
      m'.count (Metrics.series "summary_lock_aborts_total" [topic])
          = m.count (Metrics.series "summary_lock_aborts_total" [topic])
            + (ofTopic topic xs).countP (wasReverted ·.result) ∧
        m'.count (Metrics.series "summary_forced_applies_total" [topic])
          = m.count (Metrics.series "summary_forced_applies_total" [topic])
            + ((ofTopic topic xs).flatMap (·.calls.flatMap forced)).length ∧
        m'.count (Metrics.series "summary_finalize_failures_total" [topic])
          = m.count (Metrics.series "summary_finalize_failures_total" [topic])
            + ((ofTopic topic xs).flatMap (unfinalized ·.result)).length
  := by
  refine ⟨h.reports, ?_⟩
  rintro m _ topic rfl
  obtain ⟨hlocks, hforced, hfailures⟩ := count_of_reports h.reports topic
  rw [← hlocks, ← hforced, ← hfailures]
  refine ⟨?_, ?_, ?_⟩
  · exact Event.count_foldl (e := .lockAbort topic) trivial m _
  · exact Event.count_foldl (e := .forcedApply topic) trivial m _
  · exact Event.count_foldl (e := .finalizeFailure topic) trivial m _

/-! ### A transfer that is undone and then left in doubt -/

/-- A batch that is accepted is run. -/
theorem talk_process {b : Batch} {t : Transcript batchSignature}
    (hb : ofRecords rs = .ok (some b)) (h : Talk (run policy b) t r) :
  Talk (process policy rs) (⟨.accepting, .ok true⟩ :: t) r
  := by
  apply Talk.call
  simp only [Prog.bind, if_true, hb]
  exact h

/-- The batch of the transfer finds the address that is paid locked, and is undone. -/
def undoneTransfer : Treatment where
  records := [transfer home]
  calls := [⟨.accepting, .ok true⟩,
    ⟨.store (.findAll (transferBatch home).keys) 5000, .ok (.answered (.ok heldRows))⟩,
    ⟨.tell (.stage "TRANSFERS" .fetch), .ok ()⟩,
    ⟨.applyAll hasty [⟨debit, none⟩, ⟨credit, some heldReceiver⟩],
      .ok [.finished (.ok (.applied payment)),
        .finished (.ok (.locked receiver (.stalledWriter ⟨away, 4⟩ none)))]⟩,
    ⟨.tell (.stage "TRANSFERS" .store), .ok ()⟩,
    ⟨.tell (.lockAbort "TRANSFERS"), .ok ()⟩,
    ⟨.store (.find sender) 5000, .ok (.answered (.ok (some (Row.ofDelta debit))))⟩,
    ⟨.store (.remove sender) 5000, .ok (.answered (.ok ()))⟩,
    ⟨.tell (.stage "TRANSFERS" .revert), .ok ()⟩,
    ⟨.tell (.stage "TRANSFERS" .batch), .ok ()⟩]
  result := .ok (.reverted (transferBatch home).bounds [receiver] [sender])

theorem talk_undoneTransfer :
  Talk (process hasty undoneTransfer.records) undoneTransfer.calls undoneTransfer.result
  := by
  apply talk_process ofRecords_transfer
  refine .call (.call (.call (.call (.call ?_))))
  refine .call (.call (.call (.call ?_)))
  exact .done _

/-- The batch of the transfer writes over the row in doubt, is acknowledged, and cannot read its
rows again. -/
def doubtfulTransfer : Treatment where
  records := [transfer home]
  calls := [⟨.accepting, .ok true⟩,
    ⟨.store (.findAll (transferBatch home).keys) 5000, .ok (.answered (.ok heldRows))⟩,
    ⟨.tell (.stage "TRANSFERS" .fetch), .ok ()⟩,
    ⟨.applyAll hasty [⟨debit, none⟩, ⟨credit, some heldReceiver⟩],
      .ok [.finished (.ok (.applied payment)), .finished (.ok (.applied takeover))]⟩,
    ⟨.tell (.stage "TRANSFERS" .store), .ok ()⟩,
    ⟨.tell (.forcedApply "TRANSFERS"), .ok ()⟩,
    ⟨.acknowledge (transferBatch home).bounds, .ok (.ok ())⟩,
    ⟨.tell (.stage "TRANSFERS" .commitLog), .ok ()⟩,
    ⟨.tell (.offset home 0), .ok ()⟩,
    ⟨.store (.findAll [sender, receiver]) 5000, .ok .late⟩,
    ⟨.tell (.finalizeFailure "TRANSFERS"), .ok ()⟩,
    ⟨.tell (.finalizeFailure "TRANSFERS"), .ok ()⟩,
    ⟨.tell (.stage "TRANSFERS" .batch), .ok ()⟩]
  result := .ok (.committed (transferBatch home).bounds [sender, receiver] [] [sender, receiver])

theorem talk_doubtfulTransfer :
  Talk (process hasty doubtfulTransfer.records) doubtfulTransfer.calls doubtfulTransfer.result
  := by
  apply talk_process ofRecords_transfer
  refine .call (.call (.call (.call (.call (.call ?_)))))
  refine .call (.call (.call (.call (.call (.call ?_)))))
  exact .done _

/-- The transfer is delivered twice. -/
def transferTreatments : List Treatment := [undoneTransfer, doubtfulTransfer]

theorem runs_transfer :
  Runs along hasty (undoneTransfer.calls ++ (doubtfulTransfer.calls ++ [])) transferTreatments []
  := .cons (talk_undoneTransfer.exec [] _) (.cons (talk_doubtfulTransfer.exec [] _) (.nil _))

/-- The counters of the topic of a transfer that is undone once, then written over a row in doubt
and left in doubt itself. -/
theorem counters_of_transfer :
  Runs along hasty (undoneTransfer.calls ++ (doubtfulTransfer.calls ++ [])) transferTreatments [] ∧
    (∀ x ∈ transferTreatments, Reports hasty x.records (asked x.calls) x.result (told x.calls)) ∧
    ∃ m : Metrics, m = (transferTreatments.flatMap (told ·.calls)).foldl Metrics.record {} ∧
      m.count (Metrics.series "summary_lock_aborts_total" ["TRANSFERS"]) = 1 ∧
      m.count (Metrics.series "summary_forced_applies_total" ["TRANSFERS"]) = 1 ∧
      m.count (Metrics.series "summary_finalize_failures_total" ["TRANSFERS"]) = 2
  := by
  obtain ⟨hreports, hcounters⟩ := counters_of_run runs_transfer
  obtain ⟨hlocks, hforced, hfailures⟩ := hcounters {} _ "TRANSFERS" rfl
  have hall : ofTopic "TRANSFERS" transferTreatments = transferTreatments := by
    have htopic : topic? [transfer home] = some "TRANSFERS" := by
      rw [topic?, ofRecords_transfer]
      rfl
    rw [transferTreatments, ofTopic_cons, undoneTransfer, doubtfulTransfer, if_pos htopic,
      ofTopic_cons, if_pos htopic]
    rfl
  rw [hall] at hlocks hforced hfailures
  exact ⟨runs_transfer, hreports, _, rfl, hlocks.trans rfl, hforced.trans rfl, hfailures.trans rfl⟩

end Batch

end ChainLedger
