import ChainLedger.Proofs.Acknowledging
import ChainLedger.Proofs.Marks

/-!
# What becomes of the rows to be settled

Once a batch is acknowledged, each of its rows is settled or left in doubt, and the outcome lists
it under just one of the two: as settled if the call that settles it was answered with yes, and as
left in doubt if the call was not answered, was answered with no, or was not made.  The rows are
those that the batch has written, those that a loop found to count their deltas, and those that an
earlier delivery of the batch has left.
-/

namespace ChainLedger

open Prog

namespace PortCall

/-- The call was stopped by a fault. -/
def Faulted : PortCall → Prop
  | store _ _ r => ∃ f, r = .error f
  | latestOffset _ r => ∃ f, r = .error f
  | acknowledge _ r => ∃ f, r = .error f

/-- The call that has settled a row of some version. -/
def settling (key : Address) (version : Nat) : PortCall :=
  .store .batch (.settle key version) (.ok (.answered (.ok true)))

end PortCall

namespace Batch

variable {policy : Policy} {b : Batch} {bounds : Bounds} {rows : Table Address Row} {t : List PortCall}
  {rs : List Record} {ts : List Target} {ws : List Write}

/-! ### The second phase -/

/-- Some rows were settled by the calls, and others left in doubt: each of them is one or the
other. -/
structure Sorts (ts : List Target) (u : List PortCall) (x : List Address × List Address) : Prop where
  keys : (x.1 ++ x.2).Perm (ts.map (·.key))
  settled : ∀ key, key ∈ x.1 ↔ ∃ version, PortCall.settling key version ∈ u
  known : ∀ key version, PortCall.settling key version ∈ u → ⟨key, version⟩ ∈ ts

/-- Rows are sorted by the calls, unless one of these was stopped by a fault. -/
def Sorted (ts : List Target) (u : List PortCall) :
    Except Fault (List Address × List Address) → Prop
  | .ok x => Sorts ts u x
  | .error _ => ∃ c ∈ u, c.Faulted

theorem Sorts.nothing :
  Sorts [] [] ([], [])
  := ⟨.refl _, by simp, by simp⟩

/-- If no call settles a row, all are left in doubt. -/
theorem Sorts.unsettled {u : List PortCall} (h : ∀ key version, PortCall.settling key version ∉ u) :
  Sorts ts u ([], ts.map (·.key))
  := by
  constructor
  · exact .refl _
  · intro key
    simp [h]
  · intro key version hcall
    exact absurd hcall (h key version)

/-- One more row was settled. -/
theorem Sorts.settle {target : Target} {u : List PortCall} {finalized failed : List Address}
    (h : Sorts ts u (finalized, failed)) :
  Sorts (target :: ts) (PortCall.settling target.key target.version :: u)
    (target.key :: finalized, failed)
  := by
  constructor
  · exact h.keys.cons _
  · intro key
    rw [List.mem_cons, h.settled key]
    constructor
    · rintro (rfl | ⟨version, hcall⟩)
      · exact ⟨target.version, .head _⟩
      · exact ⟨version, .tail _ hcall⟩
    · rintro ⟨version, hcall⟩
      rcases List.mem_cons.mp hcall with heq | hcall
      · cases heq
        exact .inl rfl
      · exact .inr ⟨version, hcall⟩
  · intro key version hcall
    rcases List.mem_cons.mp hcall with heq | hcall
    · cases heq
      exact .head _
    · exact .tail _ (h.known key version hcall)

/-- One more row was left in doubt. -/
theorem Sorts.leave {target : Target} {u : List PortCall} {finalized failed : List Address}
    (h : Sorts ts u (finalized, failed)) :
  Sorts (target :: ts) u (finalized, target.key :: failed)
  := by
  constructor
  · exact List.perm_middle.trans (h.keys.cons _)
  · exact h.settled
  · intro key version hcall
    exact .tail _ (h.known key version hcall)

/-- Calls before that settle no row make no difference. -/
theorem Sorts.after {u v : List PortCall} {x : List Address × List Address}
    (hu : ∀ key version, PortCall.settling key version ∉ u) (h : Sorts ts v x) :
  Sorts ts (u ++ v) x
  := by
  have hcalls : ∀ key version, PortCall.settling key version ∈ u ++ v
      ↔ PortCall.settling key version ∈ v := by
    intro key version
    simp [hu key version]
  constructor
  · exact h.keys
  · intro key
    rw [h.settled key]
    exact exists_congr fun version => (hcalls key version).symm
  · intro key version hcall
    exact h.known key version ((hcalls key version).mp hcall)

theorem Sorted.after {u v : List PortCall} {r : Except Fault (List Address × List Address)}
    (hu : ∀ key version, PortCall.settling key version ∉ u) (h : Sorted ts v r) :
  Sorted ts (u ++ v) r
  := by
  cases r with
  | ok x => exact Sorts.after hu h
  | error f =>
      obtain ⟨c, hc, hfault⟩ := h
      exact ⟨c, List.mem_append_right u hc, hfault⟩

/-- What a program that settles one row has called and answers. -/
def Tried (target : Target) (u : List PortCall) : Except Fault Bool → Prop
  | .ok true => u = [PortCall.settling target.key target.version]
  | .ok false => ∀ key version, PortCall.settling key version ∉ u
  | .error _ => ∃ c ∈ u, c.Faulted

/-- Settling one row makes the call that settles it, or leaves it in doubt. -/
theorem settle_tried {target : Target} :
  Ensures recorded.Batches t (settle policy rows target) fun r => Adds (Tried target · r) t
  := by
  rw [settle]
  split
  · apply Ports.ensures_store
    rintro r _ ⟨-, rfl⟩
    have hother : r ≠ .ok (.answered (.ok true)) → ∀ key version, PortCall.settling key version
        ∉ [PortCall.store .batch (.settle target.key target.version) r] := by
      intro hr key version hcall
      cases List.mem_singleton.mp hcall
      exact hr rfl
    rcases r with f | (e | (_ | _)) | _
    · exact ⟨_, rfl, _, .head _, f, rfl⟩
    · exact ensures_done ⟨_, rfl, hother (by rintro ⟨⟩)⟩
    · exact ensures_done ⟨_, rfl, hother (by rintro ⟨⟩)⟩
    · exact ensures_done ⟨_, rfl, rfl⟩
    · exact ensures_done ⟨_, rfl, hother (by rintro ⟨⟩)⟩
  · exact ensures_done ⟨[], by simp, by simp [Tried]⟩

/-- Settling rows one by one sorts them. -/
theorem settleAll_sorted {topic : String} :
  Ensures recorded.Batches t (settleAll policy topic rows ts) fun r => Adds (Sorted ts · r) t
  := by
  induction ts generalizing t with
  | nil => exact ensures_done ⟨[], by simp, .nothing⟩
  | cons target ts ih =>
      apply ensures_bind
      refine settle_tried.mono ?_
      rintro (f | (_ | _)) _ ⟨u, rfl, hu⟩
      · exact ⟨u, rfl, hu⟩
      · apply Ports.ensures_tell
        apply ensures_bind
        refine ih.mono ?_
        rintro (f | ⟨finalized, failed⟩) _ ⟨v, rfl, hv⟩
        · obtain ⟨c, hc, hfault⟩ := hv
          exact ⟨u ++ v, List.append_assoc .., c, List.mem_append_right u hc, hfault⟩
        · exact ensures_done ⟨u ++ v, List.append_assoc .., .after hu (.leave hv)⟩
      · obtain rfl : u = _ := hu
        apply ensures_bind
        refine ih.mono ?_
        rintro (f | ⟨finalized, failed⟩) _ ⟨v, rfl, hv⟩
        · obtain ⟨c, hc, hfault⟩ := hv
          exact ⟨_ :: v, List.append_assoc .., c, .tail _ hc, hfault⟩
        · exact ensures_done ⟨_ :: v, List.append_assoc .., .settle hv⟩

/-- The second phase sorts the rows to be settled, whether or not it can read them again. -/
theorem finalize_sorted :
  Ensures recorded.Batches t (finalize policy bounds ts) fun r => Adds (Sorted ts · r) t
  := by
  rw [finalize]
  split
  · next hnil =>
      rw [List.isEmpty_iff.mp hnil]
      exact ensures_done ⟨[], by simp, .nothing⟩
  · apply Ports.ensures_store
    rintro r _ ⟨-, rfl⟩
    have hread : ∀ key version, PortCall.settling key version
        ∉ [PortCall.store .batch (.findAll (ts.map (·.key))) r] := by
      intro key version hcall
      cases List.mem_singleton.mp hcall
    have hall : Sorted ts [PortCall.store .batch (.findAll (ts.map (·.key))) r]
        (.ok ([], ts.map (·.key))) := .unsettled hread
    rcases r with f | (e | rows) | _
    · exact ⟨_, rfl, _, .head _, f, rfl⟩
    · apply Ports.ensures_tellAll
      exact ensures_done ⟨_, rfl, hall⟩
    · apply Ports.ensures_tell
      apply ensures_bind
      refine settleAll_sorted.mono ?_
      rintro r' _ ⟨u, rfl, hu⟩
      have hsorted := hu.after hread
      cases r' with
      | error f => exact ⟨_, List.append_assoc .., hsorted⟩
      | ok x =>
          apply Ports.ensures_tell
          exact ensures_done ⟨_, List.append_assoc .., hsorted⟩
    · apply Ports.ensures_tellAll
      exact ensures_done ⟨_, rfl, hall⟩

/-! ### From the acknowledgment on -/

/-- The batch was acknowledged, and its rows are sorted, unless a call was stopped by a fault or no
acknowledgment has succeeded. -/
def Sifts (bounds : Bounds) (ws : List Write) (ts : List Target) (u : List PortCall)
    (r : Except Fault (Except Failure Outcome)) : Prop :=
  (∃ c ∈ u, c.Faulted) ∨ (∀ b, .acknowledge b (.ok (.ok ())) ∉ u) ∨
    ∃ v x, u = .acknowledge bounds (.ok (.ok ())) :: v ∧ Sorts ts v x ∧
      r = .ok (.ok (.committed bounds (ws.map (·.key)) x.1 x.2))

/-- An acknowledgment that succeeds is followed by the second phase. -/
theorem commit_sifts :
  Ensures recorded.Batches t (commit policy bounds ws ts) fun r => Adds (Sifts bounds ws ts · r) t
  := by
  rw [commit]
  apply Ports.ensures_acknowledge
  rintro r _ rfl
  rcases r with f | (e | _)
  · exact ⟨_, rfl, .inl ⟨_, .head _, f, rfl⟩⟩
  · apply ensures_done
    refine ⟨_, rfl, .inr (.inl ?_)⟩
    intro b hmem
    cases List.mem_singleton.mp hmem
  · apply Ports.ensures_tell
    apply Ports.ensures_tell
    apply ensures_bind
    refine finalize_sorted.mono ?_
    rintro (f | x) _ ⟨v, rfl, hv⟩
    · obtain ⟨c, hc, hfault⟩ := hv
      exact ⟨_ :: v, List.append_assoc .., .inl ⟨c, .tail _ hc, hfault⟩⟩
    · apply Ports.ensures_tell
      exact ensures_done ⟨_ :: v, List.append_assoc .., .inr (.inr ⟨v, x, rfl, hv, rfl⟩)⟩

/-- From the results of its loops on, a batch that is not committed acknowledges nothing. -/
theorem conclude_sifts {carried : List Target} {results : List Apply.Result} :
  Ensures recorded.Batches t (conclude policy bounds carried results) fun r =>
    Adds (Sifts bounds (writes results) (carried ++ targets results) · r) t
  := by
  rw [conclude]
  apply Ports.ensures_tellAll
  cases firstFailure? results with
  | some e => exact ensures_done ⟨[], by simp, .inr (.inl (by simp))⟩
  | none =>
      dsimp only
      split
      · exact commit_sifts
      · next hlocked =>
          have hquiet : ∀ c : BatchCall, c.Plain →
              BatchCall.OfKind (fun c => c.isAcknowledgment = false) c :=
            fun _ hc => hc.ofKind fun _ _ => rfl
          have huses : (undo policy bounds (lockeds results) (writes results)
              >>= fun o => .done (Except.ok (ε := Failure) o)).Uses
                (BatchCall.OfKind fun c => c.isAcknowledgment = false) :=
            uses_bind ((plain_undo _ _).mono hquiet) fun _ => trivial
          refine (adds_of_uses huses).mono ?_
          rintro r _ ⟨u, rfl, hu⟩
          refine ⟨u, rfl, .inr (.inl ?_)⟩
          intro b hmem
          cases hu _ hmem

/-! ### The whole batch -/

/-- The batch knows the row of an address by a version. -/
inductive Knows (b : Batch) (rows : Table Address Row) (results : List Apply.Result)
    (key : Address) (version : Nat) : Prop
  /-- A loop has written it. -/
  | applied {w : Write} (h : .ok (.applied w) ∈ results) (hkey : w.key = key)
      (hversion : w.version = version) : Knows b rows results key version
  /-- A loop has found it to count its delta, and to be in doubt. -/
  | alreadyApplied (h : .ok (.alreadyApplied key version false) ∈ results) :
      Knows b rows results key version
  /-- It was fetched in doubt at a position of the batch, which has nothing to apply to it. -/
  | carriedOver (hnone : b.toApply key (rows.get? key) = none)
      (hdoubt : b.InDoubt key (rows.get? key)) (hstands : Stands rows key version) :
      Knows b rows results key version

/-- The rows to be settled are those that the batch knows. -/
theorem mem_targets_iff {merged : Table Address Delta} {results : List Apply.Result}
    {u : List PortCall} (hb : b.Collects rs)
    (h : Worked policy b rows merged (results.map .finished) u) {key : Address} {version : Nat} :
  ⟨key, version⟩ ∈ b.carriedOver rows merged ++ targets results
    ↔ b.Knows rows results key version
  := by
  have hselected : ∀ key ∈ b.keys, rows.get? key = rows.get? key := fun _ _ => rfl
  rw [List.mem_append, hb.mem_carriedOver_iff hselected h.keyed h.merges]
  constructor
  · rintro (⟨hnone, hdoubt, hstands⟩ | htarget)
    · exact .carriedOver hnone hdoubt hstands
    · obtain ⟨e, he, htarget⟩ := List.mem_filterMap.mp htarget
      replace he := mem_endings.mp he
      cases e with
      | applied w =>
          cases htarget
          exact .applied he rfl rfl
      | alreadyApplied key' version' settled =>
          cases settled with
          | true => cases htarget
          | false =>
              cases htarget
              exact .alreadyApplied he
      | locked => cases htarget
  · rintro (⟨h, rfl, rfl⟩ | h | ⟨hnone, hdoubt, hstands⟩)
    · exact .inr (List.mem_filterMap.mpr ⟨_, mem_endings.mpr h, rfl⟩)
    · exact .inr (List.mem_filterMap.mpr ⟨_, mem_endings.mpr h, rfl⟩)
    · exact .inl ⟨hnone, hdoubt, hstands⟩

/-- A batch whose acknowledgment has succeeded has sorted the rows that it knows, unless a call was
stopped by a fault. -/
theorem run_sifts (hb : b.Collects rs) :
  Ensures recorded.Batches [] (run policy b) fun r t =>
    (∃ c ∈ t, c.Faulted) ∨ (∀ b', .acknowledge b' (.ok (.ok ())) ∉ t) ∨
      ∃ rows merged results u v x, Worked policy b rows merged (results.map .finished) u ∧
        t = b.fetched rows :: u ++ .acknowledge b.bounds (.ok (.ok ())) :: v ∧
        Sorts (b.carriedOver rows merged ++ targets results) v x ∧
        r = .ok (.ok (.committed b.bounds ((writes results).map (·.key)) x.1 x.2))
  := by
  have hquiet : ∀ {rows merged ends u}, Worked policy b rows merged ends u →
      ∀ b', .acknowledge b' (.ok (.ok ())) ∉ b.fetched rows :: u := by
    intro rows merged ends u h b' hmem
    rcases List.mem_cons.mp hmem with heq | hmem
    · cases heq
    · cases (h.loops _ hmem).quiet.1
  refine ensures_run hb ?_ ?_ ?_ ?_
  · intro r o _
    refine .inr (.inl ?_)
    intro b' hmem
    cases List.mem_singleton.mp hmem
  · intro rows o _
    refine .inr (.inl ?_)
    intro b' hmem
    cases List.mem_singleton.mp hmem
  · intro rows merged ends u h _
    exact .inr (.inl (hquiet h))
  · intro rows merged results u h
    refine conclude_sifts.mono ?_
    rintro r _ ⟨w, rfl, ⟨c, hc, hfault⟩ | hnone | ⟨v, x, rfl, hsorts, rfl⟩⟩
    · exact .inl ⟨c, List.mem_append_right _ hc, hfault⟩
    · refine .inr (.inl ?_)
      intro b' hmem
      exact (List.mem_append.mp hmem).elim (hquiet h b') (hnone b')
    · exact .inr (.inr ⟨rows, merged, results, u, v, x, h, rfl, hsorts, rfl⟩)

/-- An outcome lists the rows that the batch knows, each of them once: as settled exactly if the call
that settles it, by a version that the batch knows it by, was answered with yes in time. -/
structure Listed (b : Batch) (rows : Table Address Row) (results : List Apply.Result)
    (t : List PortCall) (finalized unfinalized : List Address) : Prop where
  nodup : (finalized ++ unfinalized).Nodup
  known : ∀ key, key ∈ finalized ∨ key ∈ unfinalized ↔ ∃ version, b.Knows rows results key version
  settled : ∀ key, key ∈ finalized ↔ ∃ version, b.Knows rows results key version ∧
    .store .batch (.settle key version) (.ok (.answered (.ok true))) ∈ t

/-- Whatever the store, the oracle and the log answer and however their calls fail, as long as the
rows answered carry the addresses asked for and no call is stopped by a fault: if some records were
acknowledged, their batch ends as committed, and its outcome lists the rows that it knows: those
that its loops have written, those that they have found to count their deltas, and those that were
in doubt already.  Which of them it lists as settled depends on the calls that settle them alone,
whatever fails besides. -/
theorem settled_or_in_doubt {r : Except Fault (Except Failure Outcome)}
    (h : Exec recorded.Batches [] (process policy rs) r t) (hcalm : ∀ c ∈ t, ¬ c.Faulted)
    (hacknowledged : .acknowledge bounds (.ok (.ok ())) ∈ t) :
  ∃ b rows merged results u finalized unfinalized, ofRecords rs = .ok (some b) ∧
    Worked policy b rows merged (results.map .finished) u ∧ b.fetched rows :: u <+: t ∧
    r = .ok (.ok (.committed b.bounds ((writes results).map (·.key)) finalized unfinalized)) ∧
    b.Listed rows results t finalized unfinalized
  := by
  rcases run_of_process h with rfl | ⟨b, hrs, hb, hrun⟩
  · cases hacknowledged
  rcases run_sifts hb hrun with ⟨c, hc, hfault⟩ | hnone |
    ⟨rows, merged, results, u, v, ⟨finalized, unfinalized⟩, hworked, rfl, hsorts, rfl⟩
  · exact absurd hfault (hcalm c hc)
  · exact absurd hacknowledged (hnone bounds)
  · have hsettling : ∀ key version, PortCall.settling key version
        ∈ b.fetched rows :: u ++ .acknowledge b.bounds (.ok (.ok ())) :: v
          ↔ PortCall.settling key version ∈ v := by
      intro key version
      have hloops : PortCall.settling key version ∉ u := by
        intro hmem
        cases (hworked.loops _ hmem).quiet.2
      rw [List.mem_append, List.mem_cons, List.mem_cons]
      constructor
      · rintro ((heq | hmem) | heq | hmem)
        · cases heq
        · exact absurd hmem hloops
        · cases heq
        · exact hmem
      · exact fun hmem => .inr (.inr hmem)
    refine ⟨b, rows, merged, results, u, finalized, unfinalized, hrs, hworked,
      List.prefix_append _ _, rfl, ?_⟩
    constructor
    · exact hsorts.keys.nodup_iff.mpr (hworked.nodup_targets hb)
    · intro key
      rw [← List.mem_append, hsorts.keys.mem_iff, List.mem_map]
      constructor
      · rintro ⟨target, htarget, rfl⟩
        exact ⟨target.version, (mem_targets_iff hb hworked).mp htarget⟩
      · rintro ⟨version, hknows⟩
        exact ⟨⟨key, version⟩, (mem_targets_iff hb hworked).mpr hknows, rfl⟩
    · intro key
      rw [hsorts.settled key]
      apply exists_congr
      intro version
      change _ ↔ _ ∧ PortCall.settling key version ∈ _
      rw [hsettling]
      constructor
      · intro hcall
        exact ⟨(mem_targets_iff hb hworked).mp (hsorts.known key version hcall), hcall⟩
      · exact And.right

/-! ### A transfer with one row left in doubt -/

/-- The rows of a transfer when it is acknowledged: one was written by an earlier delivery. -/
def transferRows : Table Address Row :=
  Table.ofList [(sender, lateRow), (receiver, Row.ofDelta credit)]

theorem keyed_transferRows :
  Keyed transferRows
  := by
  intro key row hrow
  have hmem := Table.get?_eq_some_iff.mp hrow
  have hall : ∀ e ∈ transferRows.entries, e.2.key = e.1 := by decide
  exact hall _ hmem

/-- The calls of the loops of the transfer. -/
def transferLoops : List PortCall :=
  [.store .loop (.insert (Row.ofDelta debit)) (.ok (.answered (.ok false))),
    .reads lateRow,
    .store .loop (.insert (Row.ofDelta credit)) (.ok (.answered (.ok true)))]

/-- The calls of the second phase of the transfer, of which the last is late. -/
def transferSettles : List PortCall :=
  [.store .batch (.findAll [sender, receiver]) (.ok (.answered (.ok transferRows))),
    .settling sender 0,
    .store .batch (.settle receiver 0) (.ok .late)]

/-- The loops of the transfer: one finds the row of an earlier delivery, the other makes its row. -/
theorem completes_late :
  Completes recorded.Loops hasty [⟨debit, none⟩, ⟨credit, none⟩]
    [(transferBatch home).fetched .empty]
    [.finished (.ok (.alreadyApplied sender 0 false)), .finished (.ok (.applied receipt))]
    ((transferBatch home).fetched .empty :: transferLoops)
  := by
  have hrefused : Task.Path recorded.Loops hasty ⟨debit, none⟩
      ([(transferBatch home).fetched .empty], Task.start hasty ⟨debit, none⟩)
      ((transferBatch home).fetched .empty :: transferLoops.take 1,
        .running (Apply.turn hasty debit { seen := none })) := by
    apply Task.path_of_exec (r := .ok (.again { seen := none }))
    exact .answered (.store (r := .ok (.answered (.ok false))) ⟨trivial, rfl⟩) (.done _ _)
  have hread : Task.Path recorded.Loops hasty ⟨debit, none⟩
      ((transferBatch home).fetched .empty :: transferLoops.take 1,
        .running (Apply.turn hasty debit { seen := none }))
      ((transferBatch home).fetched .empty :: transferLoops.take 2,
        .running (Apply.turn hasty debit { seen := some (some lateRow) })) := by
    apply Task.path_of_exec (r := .ok (.again { seen := some (some lateRow) }))
    exact .answered (.store (c := .find sender) (r := .ok (.answered (.ok (some lateRow))))
      ⟨rfl, rfl⟩) (.done _ _)
  have hfound : Task.Path recorded.Loops hasty ⟨debit, none⟩
      ((transferBatch home).fetched .empty :: transferLoops.take 2,
        .running (Apply.turn hasty debit { seen := some (some lateRow) }))
      ((transferBatch home).fetched .empty :: transferLoops.take 2,
        .ended (.finished (.ok (.alreadyApplied sender 0 false)))) := by
    apply Task.path_of_exec (r := .ok (.stop (.ok (.alreadyApplied sender 0 false))))
    exact .done _ _
  have hmade : Task.Path recorded.Loops hasty ⟨credit, none⟩
      ((transferBatch home).fetched .empty :: transferLoops.take 2,
        Task.start hasty ⟨credit, none⟩)
      ((transferBatch home).fetched .empty :: transferLoops,
        .ended (.finished (.ok (.applied receipt)))) := by
    apply Task.path_of_exec (r := .ok (.stop (.ok (.applied receipt))))
    exact .answered (.store (r := .ok (.answered (.ok true))) ⟨trivial, rfl⟩) (.done _ _)
  exact completes_pair ((hrefused.trans hread).trans hfound) hmade

/-- The transfer is acknowledged, and one of its rows is settled. -/
theorem exec_late :
  Exec recorded.Batches [] (process hasty [transfer home])
    (.ok (.ok (.committed (transferBatch home).bounds [receiver] [sender] [receiver])))
    ((transferBatch home).fetched .empty :: transferLoops
      ++ .acknowledge (transferBatch home).bounds (.ok (.ok ())) :: transferSettles)
  := by
  rw [process]
  refine .answered (.accepting _ true) ?_
  dsimp only [Prog.bind]
  rw [if_pos rfl, ofRecords_transfer]
  refine .answered (.store (c := .findAll (transferBatch home).keys)
    (r := .ok (.answered (.ok .empty))) ⟨keyed_empty, rfl⟩) ?_
  refine .answered (.told _ _) ?_
  refine .answered (.applied completes_late) ?_
  refine .answered (.told _ _) ?_
  refine .answered (.acknowledged (r := .ok (.ok ())) rfl) ?_
  refine .answered (.told _ _) (.answered (.told _ _) ?_)
  refine .answered (.store (c := .findAll [sender, receiver])
    (r := .ok (.answered (.ok transferRows))) ⟨keyed_transferRows, rfl⟩) ?_
  refine .answered (.told _ _) ?_
  refine .answered (.store (r := .ok (.answered (.ok true))) ⟨trivial, rfl⟩) ?_
  refine .answered (.store (r := .ok .late) ⟨trivial, rfl⟩) ?_
  refine .answered (.told _ _) ?_
  exact .answered (.told _ _) (.answered (.told _ _) (.done _ _))

/-- A transfer is committed with one row settled, which an earlier delivery has written, and its
other row left in doubt, since the call that settles it comes late. -/
theorem late_transfer_in_doubt :
  ∃ r t, Exec recorded.Batches [] (process hasty [transfer home]) r t ∧ (∀ c ∈ t, ¬ c.Faulted) ∧
    .acknowledge (transferBatch home).bounds (.ok (.ok ())) ∈ t ∧
    ∃ b rows merged results u finalized unfinalized,
      ofRecords [transfer home] = .ok (some b) ∧
      Worked hasty b rows merged (results.map .finished) u ∧ b.fetched rows :: u <+: t ∧
      r = .ok (.ok (.committed b.bounds ((writes results).map (·.key)) finalized unfinalized)) ∧
      b.Listed rows results t finalized unfinalized ∧
      finalized = [sender] ∧ unfinalized = [receiver]
  := by
  have hcalm : ∀ c ∈ (transferBatch home).fetched .empty :: transferLoops
      ++ .acknowledge (transferBatch home).bounds (.ok (.ok ())) :: transferSettles,
      ¬ c.Faulted := by
    simp [transferLoops, transferSettles, fetched, PortCall.reads, PortCall.settling,
      PortCall.Faulted]
  have hacknowledged : .acknowledge (transferBatch home).bounds (.ok (.ok ()))
      ∈ (transferBatch home).fetched .empty :: transferLoops
        ++ .acknowledge (transferBatch home).bounds (.ok (.ok ())) :: transferSettles :=
    List.mem_append_right _ (.head _)
  obtain ⟨b, rows, merged, results, u, finalized, unfinalized, hrs, hworked, hprefix, hr, hlisted⟩ :=
    settled_or_in_doubt exec_late hcalm hacknowledged
  obtain ⟨-, -, hfinalized, hunfinalized⟩ :=
    Outcome.committed.inj (Except.ok.inj (Except.ok.inj hr))
  exact ⟨_, _, exec_late, hcalm, hacknowledged, b, rows, merged, results, u, finalized,
    unfinalized, hrs, hworked, hprefix, hr, hlisted, hfinalized.symm, hunfinalized.symm⟩

end Batch

end ChainLedger
