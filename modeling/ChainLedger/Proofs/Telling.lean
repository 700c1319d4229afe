import ChainLedger.Proofs.Dialogue
import ChainLedger.Proofs.Results

/-!
# What a batch tells its observers

The events of a batch are fixed by how it ends.  A batch that does not come to its loops tells at
most that it has fetched; a batch whose loops have ended tells which writes were forced, and then
how it was undone, or how it was acknowledged and settled.  This holds of every dialogue that a
batch may have, whatever it is answered.
-/

namespace ChainLedger

open Prog

/-- The event that a call tells. -/
def BatchCall.event? : BatchCall → Option Event
  | .tell e => some e
  | .accepting | .store .. | .applyAll .. | .acknowledge _ => none

/-- A call has a result only if it is answered in time. -/
theorem Timed.eq_answered {α : Type} {operation : String} {r : Timed α} {a : α}
    (h : r.result operation = .ok a) :
  r = .answered (.ok a)
  := by
  cases r with
  | answered r => exact congrArg answered h
  | late => cases h

namespace Batch

/-- The events of a dialogue. -/
def told (t : Transcript batchSignature) : List Event := t.filterMap (·.call.event?)

/-- A dialogue without its events. -/
def asked (t : Transcript batchSignature) : Transcript batchSignature :=
  t.filter (·.call.event?.isNone)

theorem told_append (t₁ t₂ : Transcript batchSignature) :
  told (t₁ ++ t₂) = told t₁ ++ told t₂
  := List.filterMap_append

theorem asked_append (t₁ t₂ : Transcript batchSignature) :
  asked (t₁ ++ t₂) = asked t₁ ++ asked t₂
  := List.filter_append ..

/-! ### The ends of a batch -/

variable {policy : Policy} {rs : List Record}

/-- Nothing but store calls are made. -/
def Stores (policy : Policy) (u : Transcript batchSignature) : Prop :=
  ∀ x ∈ u, ∃ c, x.call = .store c policy.deadline

theorem stores_nil :
  Stores policy []
  := fun _ hx => absurd hx List.not_mem_nil

theorem Stores.append {u u' : Transcript batchSignature} (h : Stores policy u)
    (h' : Stores policy u') :
  Stores policy (u ++ u')
  := fun x hx => (List.mem_append.mp hx).elim (h x) (h' x)

/-- How the second phase ends: what it asks, which rows it settles and which it leaves in doubt,
and its events. -/
inductive Finalizes (policy : Policy) (b : Bounds) (ts : List Target) :
    Transcript batchSignature → List Address × List Address → List Event → Prop
  /-- There is nothing to settle. -/
  | nothing (h : ts = []) : Finalizes policy b ts [] ([], []) []
  /-- The rows cannot be read again, and are all left in doubt. -/
  | unread {r : Timed (StoreCall.findAll (ts.map (·.key))).Answer} {e : StoreError} (h : ts ≠ [])
      (hr : r.result (StoreCall.findAll (ts.map (·.key))).name = .error e) :
      Finalizes policy b ts [⟨.store (.findAll (ts.map (·.key))) policy.deadline, .ok r⟩]
        ([], ts.map (·.key)) ((ts.map (·.key)).map fun _ => .finalizeFailure b.partition.topic)
  /-- The rows are read again, and settled or left in doubt one by one. -/
  | reread {rows : Table Address Row} {u : Transcript batchSignature}
      {finalized failed : List Address} (h : ts ≠ []) (hu : Stores policy u) :
      Finalizes policy b ts
        (⟨.store (.findAll (ts.map (·.key))) policy.deadline, .ok (.answered (.ok rows))⟩ :: u)
        (finalized, failed)
        ([.stage b.partition.topic .reload]
          ++ (failed.map fun _ => .finalizeFailure b.partition.topic)
          ++ [.stage b.partition.topic .finalize])

/-- How a batch ends whose loops all have results: what it asks then, its result, and its events
after those of the forced writes. -/
inductive Concludes (policy : Policy) (b : Bounds) (carried : List Target)
    (results : List Apply.Result) :
    Transcript batchSignature → Except Failure Outcome → List Event → Prop
  /-- A loop failed. -/
  | failed {e : Failure} (h : firstFailure? results = some e) :
      Concludes policy b carried results [] (.error e) []
  /-- An address was locked, and the batch is undone. -/
  | reverted {u : Transcript batchSignature} {restored : List Address}
      (h : firstFailure? results = none) (hlocked : lockeds results ≠ []) (hu : Stores policy u) :
      Concludes policy b carried results u (.ok (.reverted b (lockeds results) restored))
        [.lockAbort b.partition.topic, .stage b.partition.topic .revert,
          .stage b.partition.topic .batch]
  /-- The log did not take the acknowledgment. -/
  | unacknowledged {e : LogError} (h : firstFailure? results = none)
      (hlocked : lockeds results = []) :
      Concludes policy b carried results [⟨.acknowledge b, .ok (.error e)⟩] (.error (.log e)) []
  /-- The batch is acknowledged and its rows are settled. -/
  | committed {u : Transcript batchSignature} {finalized failed : List Address}
      {events : List Event} (h : firstFailure? results = none) (hlocked : lockeds results = [])
      (hfinal : Finalizes policy b (carried ++ targets results) u (finalized, failed) events) :
      Concludes policy b carried results (⟨.acknowledge b, .ok (.ok ())⟩ :: u)
        (.ok (.committed b ((writes results).map (·.key)) finalized failed))
        ([.stage b.partition.topic .commitLog, .offset b.partition b.last] ++ events
          ++ [.stage b.partition.topic .batch])

/-- How the processing of some records ends: what it asks, its result, and its events. -/
inductive Reports (policy : Policy) (rs : List Record) :
    Transcript batchSignature → Except Failure Outcome → List Event → Prop
  /-- The batch is refused. -/
  | refused : Reports policy rs [⟨.accepting, .ok false⟩] (.error .shutDown) []
  /-- The records are not of one partition. -/
  | mixed {e : Failure} (h : ofRecords rs = .error e) :
      Reports policy rs [⟨.accepting, .ok true⟩] (.error e) []
  /-- There are no records. -/
  | empty (h : ofRecords rs = .ok none) :
      Reports policy rs [⟨.accepting, .ok true⟩] (.ok .empty) []
  /-- The rows cannot be read. -/
  | unread {b : Batch} {r : Timed (StoreCall.findAll b.keys).Answer} {e : StoreError}
      (h : ofRecords rs = .ok (some b))
      (hr : r.result (StoreCall.findAll b.keys).name = .error e) :
      Reports policy rs
        [⟨.accepting, .ok true⟩, ⟨.store (.findAll b.keys) policy.deadline, .ok r⟩]
        (.error (.store e)) []
  /-- A loop was stopped. -/
  | crashed {b : Batch} {rows : Table Address Row} {merged : Table Address Delta}
      {ends : List (JobEnd Apply.Result)} (h : ofRecords rs = .ok (some b))
      (hmerged : Merge.batch rows b.deltas = .ok merged) (hends : JobEnd.collect ends = none) :
      Reports policy rs
        [⟨.accepting, .ok true⟩,
          ⟨.store (.findAll b.keys) policy.deadline, .ok (.answered (.ok rows))⟩,
          ⟨.applyAll policy (jobs rows merged), .ok ends⟩]
        (.error .workerFailed) [.stage b.bounds.partition.topic .fetch]
  /-- All loops have ended with results. -/
  | concluded {b : Batch} {rows : Table Address Row} {merged : Table Address Delta}
      {ends : List (JobEnd Apply.Result)} {results : List Apply.Result}
      {u : Transcript batchSignature} {r : Except Failure Outcome} {events : List Event}
      (h : ofRecords rs = .ok (some b)) (hmerged : Merge.batch rows b.deltas = .ok merged)
      (hends : JobEnd.collect ends = some results)
      (hend : Concludes policy b.bounds (b.carriedOver rows merged) results u r events) :
      Reports policy rs
        (⟨.accepting, .ok true⟩ ::
          ⟨.store (.findAll b.keys) policy.deadline, .ok (.answered (.ok rows))⟩ ::
          ⟨.applyAll policy (jobs rows merged), .ok ends⟩ :: u) r
        ([.stage b.bounds.partition.topic .fetch, .stage b.bounds.partition.topic .store]
          ++ (((writes results).filter (·.forced)).map fun _ =>
            .forcedApply b.bounds.partition.topic)
          ++ events)

/-! ### Programs and their events -/

variable {α β : Type}

/-- Of every dialogue of the program, what is asked, the result, and the events stand in the
relation. -/
def Says (p : Step α) (R : Transcript batchSignature → α → List Event → Prop) : Prop :=
  ∀ ⦃t a⦄, Talk p t a → R (asked t) a (told t)

theorem says_done {a : α} {R : Transcript batchSignature → α → List Event → Prop}
    (h : R [] a []) :
  Says (.done a) R
  := by
  rintro _ _ ⟨⟩
  exact h

/-- A program that is stopped says nothing. -/
theorem says_crash {f : Fault} {R : Transcript batchSignature → α → List Event → Prop} :
  Says (.crash f) R
  := by
  rintro _ _ ⟨⟩

/-- One program after another. -/
theorem says_bind {p : Step α} {k : α → Step β}
    {R : Transcript batchSignature → α → List Event → Prop}
    {R' : Transcript batchSignature → β → List Event → Prop} (hp : Says p R)
    (hk : ∀ u a es, R u a es → Says (k a) fun u' b es' => R' (u ++ u') b (es ++ es')) :
  Says (p >>= k) R'
  := by
  intro t b h
  obtain ⟨a, t₁, t₂, rfl, hfirst, hsecond⟩ := h.of_bind
  rw [asked_append, told_append]
  exact hk _ _ _ (hp hfirst) hsecond

theorem Says.mono {p : Step α} {R R' : Transcript batchSignature → α → List Event → Prop}
    (h : Says p R) (hR : ∀ u a es, R u a es → R' u a es) :
  Says p R'
  := fun _ _ htalk => hR _ _ _ (h htalk)

/-- An event comes first. -/
theorem says_tell {e : Event} {k : Unit → Step β}
    {R : Transcript batchSignature → β → List Event → Prop}
    (h : Says (k ()) fun u b es => R u b (e :: es)) :
  Says (tell e >>= k) R
  := by
  intro t b htalk
  cases htalk with
  | call hnext => exact h hnext

/-- A call that tells no event is answered first. -/
theorem says_ask {c : BatchCall} (hc : c.event? = none) {k : batchSignature.Answer c → Step β}
    {R : Transcript batchSignature → β → List Event → Prop}
    (h : ∀ a, Says (k a) fun u b es => R (⟨c, .ok a⟩ :: u) b es) :
  Says (Prog.ask (S := batchSignature) c >>= k) R
  := by
  intro t b htalk
  cases htalk with
  | @call _ _ a t _ hnext =>
      have hasked : asked (⟨c, .ok a⟩ :: t) = ⟨c, .ok a⟩ :: asked t := by
        rw [asked, List.filter_cons, hc]
        rfl
      have htold : told (⟨c, .ok a⟩ :: t) = told t := List.filterMap_cons_none hc
      rw [hasked, htold]
      exact h a hnext

/-- A store call is answered first. -/
theorem says_store {c : StoreCall} {k : Except StoreError c.Answer → Step β}
    {R : Transcript batchSignature → β → List Event → Prop}
    (h : ∀ r : Timed c.Answer, Says (k (r.result c.name)) fun u b es =>
      R (⟨.store c policy.deadline, .ok r⟩ :: u) b es) :
  Says (store policy c >>= k) R
  := by
  intro t b htalk
  cases htalk with
  | @call _ _ r t _ hnext => exact h r hnext

/-- The program makes store calls only, and tells no event. -/
abbrev Silent (policy : Policy) (p : Step α) : Prop :=
  Says p fun u _ es => Stores policy u ∧ es = []

theorem silent_done (a : α) :
  Silent policy (.done a)
  := says_done ⟨stores_nil, rfl⟩

theorem silent_store (c : StoreCall) :
  Silent policy (store policy c)
  := by
  intro t r htalk
  cases htalk with
  | @call _ _ r t _ hnext =>
      cases hnext
      exact ⟨fun x hx => ⟨c, by rw [List.mem_singleton.mp hx]⟩, rfl⟩

theorem silent_bind {p : Step α} {k : α → Step β} (hp : Silent policy p)
    (hk : ∀ a, Silent policy (k a)) :
  Silent policy (p >>= k)
  := by
  refine says_bind hp ?_
  rintro u a _ ⟨hu, rfl⟩
  refine (hk a).mono ?_
  rintro u' b _ ⟨hu', rfl⟩
  exact ⟨hu.append hu', rfl⟩

/-- Something is told several times. -/
theorem says_forM {ι : Type} (l : List ι) (e : Event) :
  Says (l.forM fun _ => tell e) fun u _ es => u = [] ∧ es = l.map fun _ => e
  := by
  induction l with
  | nil => exact says_done ⟨rfl, rfl⟩
  | cons i l ih =>
      apply says_tell
      intro t a htalk
      obtain ⟨hasked, htold⟩ := ih htalk
      exact ⟨hasked, congrArg (e :: ·) htold⟩

/-! ### Undoing and settling -/

theorem silent_restore (w : Write) :
  Silent policy (restore policy w)
  := by
  rw [restore]
  split
  · exact silent_store _
  · rw [removeOwn]
    refine silent_bind (silent_store _) ?_
    rintro (e | _ | row)
    · exact silent_done _
    · exact silent_done _
    · dsimp only
      split
      · refine silent_bind (silent_store _) ?_
        rintro (e | _)
        · exact silent_done _
        · exact silent_done _
      · exact silent_done _

theorem silent_restoreAll (ws : List Write) :
  Silent policy (restoreAll policy ws)
  := by
  induction ws with
  | nil => exact silent_done _
  | cons w ws ih =>
      refine silent_bind (silent_restore w) ?_
      rintro (e | _ | _)
      · exact ih
      · exact ih
      · exact silent_bind ih fun _ => silent_done _

/-- The undoing of a batch tells the lock, and two stages. -/
theorem says_undo (b : Bounds) (locked : List Address) (ws : List Write) :
  Says (undo policy b locked ws) fun u o es => Stores policy u ∧
    (∃ restored, o = .reverted b locked restored) ∧
    es = [.lockAbort b.partition.topic, .stage b.partition.topic .revert,
      .stage b.partition.topic .batch]
  := by
  apply says_tell
  refine says_bind (silent_restoreAll ws) ?_
  rintro u restored _ ⟨hu, rfl⟩
  apply says_tell
  apply says_tell
  apply says_done
  rw [List.append_nil]
  exact ⟨hu, ⟨restored, rfl⟩, rfl⟩

theorem silent_settle (rows : Table Address Row) (t : Target) :
  Silent policy (settle policy rows t)
  := by
  rw [settle]
  split
  · refine silent_bind (silent_store _) ?_
    rintro (e | done)
    · exact silent_done _
    · exact silent_done _
  · exact silent_done _

/-- Each row left in doubt is told. -/
theorem says_settleAll (topic : String) (rows : Table Address Row) (ts : List Target) :
  Says (settleAll policy topic rows ts) fun u x es => Stores policy u ∧
    es = x.2.map fun _ => .finalizeFailure topic
  := by
  induction ts with
  | nil => exact says_done ⟨stores_nil, rfl⟩
  | cons t ts ih =>
      refine says_bind (silent_settle rows t) ?_
      rintro u done _ ⟨hu, rfl⟩
      cases done with
      | true =>
          refine says_bind ih ?_
          rintro u' ⟨finalized, failed⟩ _ ⟨hu', rfl⟩
          exact says_done ⟨hu.append (hu'.append stores_nil), List.append_nil _⟩
      | false =>
          apply says_tell
          refine says_bind ih ?_
          rintro u' ⟨finalized, failed⟩ _ ⟨hu', rfl⟩
          exact says_done
            ⟨hu.append (hu'.append stores_nil), congrArg (_ :: ·) (List.append_nil _)⟩

theorem says_finalize (b : Bounds) (ts : List Target) :
  Says (finalize policy b ts) (Finalizes policy b ts)
  := by
  cases ts with
  | nil => exact says_done (.nothing rfl)
  | cons t ts =>
      apply says_store
      intro r
      rcases hr : r.result _ with e | rows
      · refine says_bind (says_forM _ _) ?_
        rintro _ _ _ ⟨rfl, rfl⟩
        apply says_done
        rw [List.append_nil, List.append_nil]
        exact .unread (List.cons_ne_nil t ts) hr
      · rw [Timed.eq_answered hr]
        apply says_tell
        refine says_bind (says_settleAll _ _ _) ?_
        rintro u ⟨finalized, failed⟩ _ ⟨hu, rfl⟩
        apply says_tell
        exact says_done (.reread (List.cons_ne_nil t ts) (hu.append stores_nil))

/-! ### Processing -/

theorem says_commit (b : Bounds) (carried : List Target) {results : List Apply.Result}
    (h : firstFailure? results = none) (hlocked : lockeds results = []) :
  Says (commit policy b (writes results) (carried ++ targets results))
    (Concludes policy b carried results)
  := by
  refine says_ask rfl ?_
  intro a
  cases a with
  | error e => exact says_done (.unacknowledged h hlocked)
  | ok _ =>
      apply says_tell
      apply says_tell
      refine says_bind (says_finalize _ _) ?_
      rintro u ⟨finalized, failed⟩ events hfinal
      apply says_tell
      have hend := Concludes.committed h hlocked hfinal
      refine says_done ?_
      rw [List.append_nil]
      exact hend

theorem says_conclude (b : Bounds) (carried : List Target) (results : List Apply.Result) :
  Says (conclude policy b carried results) fun u r es => ∃ events,
    es = (((writes results).filter (·.forced)).map fun _ => .forcedApply b.partition.topic)
        ++ events ∧
      Concludes policy b carried results u r events
  := by
  refine says_bind (says_forM _ _) ?_
  rintro _ _ _ ⟨rfl, rfl⟩
  refine Says.mono (R := Concludes policy b carried results) ?_ fun _ _ es h => ⟨es, rfl, h⟩
  cases hfirst : firstFailure? results with
  | some e => exact says_done (.failed hfirst)
  | none =>
      dsimp only
      split
      · next hlocked => exact says_commit b carried hfirst hlocked
      · next hlocked =>
          refine says_bind (says_undo b (lockeds results) (writes results)) ?_
          rintro u _ _ ⟨hu, ⟨restored, rfl⟩, rfl⟩
          apply says_done
          rw [List.append_nil]
          exact .reverted hfirst hlocked hu

theorem says_run {b : Batch} (hb : ofRecords rs = .ok (some b)) :
  Says (run policy b) fun u r es => Reports policy rs (⟨.accepting, .ok true⟩ :: u) r es
  := by
  apply says_store
  intro r
  cases hr : r.result _ with
  | error e => exact says_done (.unread hb hr)
  | ok rows =>
      rw [Timed.eq_answered hr]
      apply says_tell
      cases hmerged : Merge.batch rows b.deltas with
      | error o => exact says_crash
      | ok merged =>
          refine says_ask rfl ?_
          intro ends
          dsimp only
          split
          · next hends => exact says_done (.crashed hb hmerged hends)
          · next results hends =>
              apply says_tell
              refine (says_conclude _ _ _).mono ?_
              rintro u r _ ⟨events, rfl, hend⟩
              exact .concluded hb hmerged hends hend

/-- Whatever a batch is answered, how it ends fixes the events that it tells. -/
theorem says_process (policy : Policy) (rs : List Record) :
  Says (process policy rs) (Reports policy rs)
  := by
  refine says_ask rfl ?_
  intro accepted
  cases accepted with
  | false => exact says_done .refused
  | true =>
      cases hb : ofRecords rs with
      | error e =>
          rw [if_pos rfl]
          exact says_done (.mixed hb)
      | ok b? =>
          rw [if_pos rfl]
          cases b? with
          | none => exact says_done (.empty hb)
          | some b => exact says_run hb

end Batch

end ChainLedger
