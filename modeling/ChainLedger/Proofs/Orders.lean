import ChainLedger.Proofs.Concluding
import ChainLedger.Proofs.Grouping
import ChainLedger.Proofs.Phases
import ChainLedger.Proofs.Schedules
import ChainLedger.Proofs.Spreading

/-!
# A batch in any order

Over a store and an oracle that keep a cell for each address, a batch has one end: the order in
which its records are delivered, the order in which its loops start, move and are collected, and
the number of places in the pool make no difference to it.  Where a fault stops the batch, the cells
are left out of the comparison, unless no call of the store stops its caller.
-/

namespace ChainLedger

open Prog

/-- Ends that come in two orders can be collected in both or in neither. -/
theorem JobEnd.collect_perm {α : Type} {ends ends' : List (JobEnd α)} (h : ends.Perm ends') :
  (collect ends = none ∧ collect ends' = none)
    ∨ ∃ l l', collect ends = some l ∧ collect ends' = some l' ∧ l.Perm l'
  := by
  have hnone : ∀ {ends ends' : List (JobEnd α)} {l' : List α}, ends.Perm ends' →
      collect ends = none → collect ends' ≠ some l' := by
    intro ends ends' l' h hends hends'
    obtain rfl := collect_eq_some hends'
    obtain ⟨a, -, ha⟩ := List.mem_map.mp (h.mem_iff.mp (crashed_of_collect hends))
    cases ha
  cases hends : collect ends with
  | none =>
      cases hends' : collect ends' with
      | none => exact .inl ⟨rfl, rfl⟩
      | some l' => exact absurd hends' (hnone h hends)
  | some l =>
      cases hends' : collect ends' with
      | none => exact absurd hends (hnone h.symm hends')
      | some l' =>
          refine .inr ⟨l, l', rfl, rfl, ?_⟩
          rw [collect_eq_some hends, collect_eq_some hends'] at h
          apply (List.map_perm_map_iff _).mp h
          rintro a b ⟨⟩
          rfl

/-- The ending is one of the loop of the delta. -/
structure Ending.Of (e : Ending) (d : Delta) : Prop where
  key : e.key = d.key
  previous : ∀ w, e = .applied w → ∀ row ∈ w.previous, row.key = w.key

namespace Batch

variable {κ Λ : Type} {C : Cells κ Λ} {size size' : Nat} {s t : Stand κ Λ} {policy : Policy}
  {js : List Job} {rs rs' : List Record} {b : Batch}

/-! ### The delivery -/

/-- Records of distinct offsets amount to the same batch in every order. -/
theorem ofRecords_perm (hoffsets : (rs.map (·.offset)).Nodup) (hperm : rs.Perm rs') :
  ofRecords rs = ofRecords rs'
  := by
  have hsorted : (rs.mergeSort fun a b => decide (a.offset ≤ b.offset))
      = rs'.mergeSort fun a b => decide (a.offset ≤ b.offset) := by
    have hrs := List.mergeSort_perm rs fun a b => decide (a.offset ≤ b.offset)
    have hrs' := List.mergeSort_perm rs' fun a b => decide (a.offset ≤ b.offset)
    apply (hrs.trans (hperm.trans hrs'.symm)).eq_of_pairwise _ (pairwise_sorted rs)
      (pairwise_sorted rs')
    intro r r' hr hr' hle hge
    exact List.inj_on_of_nodup_map hoffsets (hrs.mem_iff.mp hr)
      (hperm.mem_iff.mpr (hrs'.mem_iff.mp hr')) (Nat.le_antisymm hle hge)
  rw [ofRecords, ofRecords, hsorted]

/-- So they are processed by the same program. -/
theorem process_perm (hoffsets : (rs.map (·.offset)).Nodup) (hperm : rs.Perm rs') :
  process policy rs = process policy rs'
  := by
  rw [process, process, ofRecords_perm hoffsets hperm]

/-! ### The loops -/

/-- A loop alone with its cell comes to an ending of its own. -/
theorem of_path {j : Job} {e : Ending} {x y : κ} (hkey : ∀ row ∈ j.row?, row.key = j.delta.key)
    (h : Task.Path C.alone.Loops policy j (x, Task.start policy j)
      (y, .ended (.finished (.ok e)))) :
  e.Of j.delta
  := by
  have hends : (Cells.reads κ j.delta).Ends j.delta y (.finished (.ok e)) :=
    Cells.bound_of_path hkey h
  constructor
  · apply hends.key
    rintro w ⟨row', hmakes⟩
    exact hmakes.key
  · rintro w rfl row hrow
    obtain ⟨row', hmakes⟩ := hends.done
    rw [hmakes.key]
    exact hmakes.previous row hrow

theorem of_ended (hjobs : Job.Apart js) {cells cells' : Address → κ}
    {ends : List (JobEnd Apply.Result)} (h : C.Ended policy js cells ends cells') :
  List.Forall₂ (fun j e => ∀ ending, e = .finished (.ok ending) → ending.Of j.delta) js ends
  := by
  refine ((List.forall₂_and_left _ _).mpr ⟨hjobs.key, h.each⟩).imp ?_
  rintro j e ⟨hkey, hpath⟩ ending rfl
  exact of_path hkey hpath

/-- The loops come to the same ends in every pool, though these may be collected in different
orders. -/
theorem pairs_applyAll (hjobs : Job.Apart js) :
  C.Pairs size size' s (Prog.ask (S := batchSignature) (.applyAll policy js))
    (Prog.ask (S := batchSignature) (.applyAll policy js))
    fun ends ends' => ends.Perm ends' ∧ ∃ given, ends.Perm given ∧
      List.Forall₂ (fun j e => ∀ ending, e = .finished (.ok ending) → ending.Of j.delta) js given
  := by
  apply matches_ask
  intro r t r' t' h h'
  cases h with
  | @applied _ cells _ _ ends collected hfinishes hcollected =>
      cases h' with
      | @applied _ cells' _ _ ends' collected' hfinishes' hcollected' =>
          have hended := Cells.ended_of_finishes hjobs hfinishes
          obtain ⟨rfl, rfl⟩ := hended.unique (Cells.ended_of_finishes hjobs hfinishes')
          exact .ended ⟨hcollected.trans hcollected'.symm, ends, hcollected, of_ended hjobs hended⟩

/-- If no address is carried over and worked on as well, then none comes twice after the loops. -/
theorem separate_of_results {carried : List Target} {results : List Apply.Result}
    (hnodup : (js.map (·.delta.key)).Nodup) (hcarried : (carried.map (·.key)).Nodup)
    (hapart : ∀ t ∈ carried, t.key ∉ js.map (·.delta.key))
    (h : List.Forall₂ (fun j r => ∀ e, r = .ok e → e.Of j.delta) js results) :
  Separate carried results
  := by
  have hkeys : List.Forall₂ (fun j r => ∀ e, r = .ok e → e.key = j.delta.key) js results :=
    h.imp fun j r hof e he => (hof e he).key
  have htargets : ((targets results).map (·.key)).Sublist (js.map (·.delta.key)) :=
    sublist_of_endings (fun _ _ => key_of_target) hkeys
  constructor
  · intro w hw
    obtain ⟨j, -, hof⟩ := exists_of_forall₂ h.flip (mem_writes.mp hw)
    exact (hof _ rfl).previous w rfl
  · exact (sublist_of_endings (fun _ _ => key_of_write) hkeys).nodup hnodup
  · rw [List.map_append]
    apply hcarried.append (htargets.nodup hnodup)
    intro key hcarry hkey
    obtain ⟨t, ht, rfl⟩ := List.mem_map.mp hcarry
    exact hapart t ht (htargets.subset hkey)

/-! ### The batch -/

/-- The jobs of a batch over keyed rows are apart. -/
theorem Collects.apart (hb : b.Collects rs) {rows : Table Address Row}
    {merged : Table Address Delta} (hkeyed : Keyed rows)
    (hmerged : Merge.batch rows b.deltas = .ok merged) :
  Job.Apart (jobs rows merged)
  := by
  have hplan : b.Planned rows (jobs rows merged) := hb.planned (fun _ _ => rfl) hmerged
  exact ⟨hplan.nodup, fun j hj => (hplan.fresh hb hkeyed hj).key⟩

/-- No address is carried over and worked on as well. -/
theorem Collects.carried_apart (hb : b.Collects rs) {rows : Table Address Row}
    {merged : Table Address Delta} (hkeyed : Keyed rows)
    (hmerged : Merge.batch rows b.deltas = .ok merged) :
  ∀ t ∈ b.carriedOver rows merged, t.key ∉ (jobs rows merged).map (·.delta.key)
  := by
  intro t ht hmem
  have hsame : ∀ key ∈ b.keys, rows.get? key = rows.get? key := fun _ _ => rfl
  obtain ⟨j, hj, hkey⟩ := List.mem_map.mp hmem
  have hdelta := (hb.planned hsame hmerged).delta j hj
  rw [hkey, ((hb.mem_carriedOver_iff hsame hkeyed hmerged).mp ht).1] at hdelta
  cases hdelta

/-- After the loops of a batch no address comes twice, in whatever order their ends are
collected. -/
theorem Collects.separate (hb : b.Collects rs) {rows : Table Address Row}
    {merged : Table Address Delta} (hkeyed : Keyed rows)
    (hmerged : Merge.batch rows b.deltas = .ok merged) {ends given : List (JobEnd Apply.Result)}
    {results : List Apply.Result} (hends : JobEnd.collect ends = some results)
    (hperm : ends.Perm given)
    (h : List.Forall₂ (fun j e => ∀ ending, e = .finished (.ok ending) → ending.Of j.delta)
      (jobs rows merged) given) :
  Separate (b.carriedOver rows merged) results
  := by
  rcases JobEnd.collect_perm hperm with ⟨hnone, -⟩ | ⟨_, ordered, hends', hordered, hresults⟩
  · cases hends.symm.trans hnone
  · obtain rfl := Option.some.inj (hends.symm.trans hends')
    rw [JobEnd.collect_eq_some hordered, List.forall₂_map_right_iff] at h
    have hof : List.Forall₂ (fun j r => ∀ e, r = .ok e → e.Of j.delta) (jobs rows merged)
        ordered := h.imp fun j r hof e he => hof e (by rw [he])
    have hseparate : Separate (b.carriedOver rows merged) ordered :=
      separate_of_results (hb.apart hkeyed hmerged).nodup
        (nodup_carriedOver (fun _ _ => rfl) hkeyed merged) (hb.carried_apart hkeyed hmerged) hof
    exact hseparate.perm hresults.symm

theorem pairs_ofExcept {α : Type} (x : Except Overflow α) :
  C.Pairs size size' s (Prog.ofExcept x) (Prog.ofExcept x) fun a a' => a = a' ∧ x = .ok a
  := by
  cases x with
  | error o => exact matches_crash (Cells.akin_refl s)
  | ok a => exact matches_done ⟨rfl, rfl⟩

/-- A batch that is processed has one end. -/
theorem pairs_run (hb : b.Collects rs) :
  C.Pairs size size' s (run policy b) (run policy b) Alike
  := by
  rw [run]
  apply (pairs_findAll fun _ => Iff.rfl).bind
  rintro a _ t ⟨rfl, hkeyed⟩
  rcases a with e | rows
  · exact matches_done (.failed _ _)
  · replace hkeyed := hkeyed rows rfl
    apply pairs_tell.bind
    intro _ _ t _
    apply (pairs_ofExcept _).bind
    rintro merged _ t ⟨rfl, hmerged⟩
    apply (pairs_applyAll (hb.apart hkeyed hmerged)).bind
    rintro ends ends' t ⟨hperm, given, hgiven, hof⟩
    rcases JobEnd.collect_perm hperm with ⟨hnone, hnone'⟩ |
      ⟨results, results', hends, hends', hresults⟩
    · rw [hnone, hnone']
      exact matches_done (.failed _ _)
    · rw [hends, hends']
      apply pairs_tell.bind
      intro _ _ t _
      exact pairs_conclude (hb.separate hkeyed hmerged hends hgiven hof) hresults

/-- Whether a batch is accepted is said by the log. -/
theorem pairs_accepting :
  C.Pairs size size' s (Prog.ask (S := batchSignature) .accepting)
    (Prog.ask (S := batchSignature) .accepting) Eq
  := by
  apply matches_ask
  rintro _ _ _ _ ⟨⟩ ⟨⟩
  exact .ended rfl

/-- Records that are processed have one end. -/
theorem pairs_process :
  C.Pairs size size' s (process policy rs) (process policy rs) Alike
  := by
  rw [process]
  apply pairs_accepting.bind
  rintro accepted _ t rfl
  split
  · rcases hrs : ofRecords rs with e | (_ | b)
    · exact matches_done (.failed _ _)
    · exact matches_done (.ended .empty)
    · exact pairs_run (collects_of_ofRecords hrs)
  · exact matches_done (.failed _ _)

/-! ### The start of the loops -/

/-- What is left of a batch once its loops have ended. -/
def afterLoops (policy : Policy) (b : Batch) (rows : Table Address Row)
    (merged : Table Address Delta) (ends : List (JobEnd Apply.Result)) :
    Step (Except Failure Outcome) :=
  match JobEnd.collect ends with
  | none => return .error .workerFailed
  | some results => do
    passed b.bounds .store
    conclude policy b.bounds (b.carriedOver rows merged) results

/-- The loops of a delivery are started, over these cells: it is accepted and makes up a batch,
whose rows are read and whose deltas are merged. -/
structure Starts (C : Cells κ Λ) (rs : List Record) (s : Stand κ Λ) (b : Batch)
    (cells : Address → κ) (rows : Table Address Row) (merged : Table Address Delta) : Prop where
  accepting : C.accepting s.log = true
  batch : ofRecords rs = .ok (some b)
  found : C.findAll s.cells b.keys = (cells, .ok (.answered (.ok rows)))
  merged : Merge.batch rows b.deltas = .ok merged

variable {cells : Address → κ} {rows : Table Address Row} {merged : Table Address Delta}

theorem Starts.collects (h : Starts C rs s b cells rows merged) :
  b.Collects rs
  := collects_of_ofRecords h.batch

theorem Starts.apart (h : Starts C rs s b cells rows merged) :
  Job.Apart (jobs rows merged)
  := h.collects.apart (C.keyed_of_findAll h.found) h.merged

/-- A delivery whose loops are started is processed by running them and going on from there. -/
theorem Starts.exec_iff {r : Except Fault (Except Failure Outcome)}
    (h : Starts C rs s b cells rows merged) :
  Exec (C.Batches size) s (process policy rs) r t
    ↔ Exec (C.Batches size) { s with cells }
        (Prog.ask (S := batchSignature) (.applyAll policy (jobs rows merged))
          >>= afterLoops policy b rows merged) r t
  := by
  have haccepting : ∀ r t, Exec (C.Batches size) s (Prog.ask (S := batchSignature) .accepting) r t
      ↔ r = .ok true ∧ t = s := by
    intro r t
    rw [exec_ask_iff, ← h.accepting]
    constructor
    · rintro ⟨⟩
      exact ⟨rfl, rfl⟩
    · rintro ⟨rfl, rfl⟩
      exact .accepting _
  have hcall : C.call s.cells (.findAll b.keys) = (cells, .ok (.answered (.ok rows))) := h.found
  have hfound : ∀ r t, Exec (C.Batches size) s (store policy (.findAll b.keys)) r t
      ↔ r = .ok (.ok rows) ∧ t = { s with cells } := by
    intro r t
    rw [exec_store_iff, hcall]
    rfl
  rw [process, exec_bind_of haccepting, if_pos rfl, h.batch]
  dsimp only
  rw [run, exec_bind_of hfound]
  dsimp only
  rw [h.merged]
  exact Cells.exec_tell_iff

/-! ### There is an end -/

/-- If the loops of a delivery are started at all, then each comes to an end alone. -/
def Finishing (C : Cells κ Λ) (policy : Policy) (rs : List Record) (s : Stand κ Λ) : Prop :=
  ∀ b cells rows merged, Starts C rs s b cells rows merged →
    ∃ ends cells', C.Ended policy (jobs rows merged) cells ends cells'

/-- In a run of a delivery the loops come to their ends, if they are started. -/
theorem finishing_of_exec {r : Except Fault (Except Failure Outcome)}
    (h : Exec (C.Batches size) s (process policy rs) r t) :
  Finishing C policy rs s
  := by
  intro b cells rows merged hstarts
  rcases exec_bind_iff.mp (hstarts.exec_iff.mp h) with ⟨f, hloops, -⟩ | ⟨ends, s', hloops, -⟩
  · cases exec_ask_iff.mp hloops
  · cases exec_ask_iff.mp hloops with
    | applied hfinishes _ => exact ⟨_, _, Cells.ended_of_finishes hstarts.apart hfinishes⟩

/-- If the loops of a delivery come to their ends alone, then its run comes to its end in a pool of
any size. -/
theorem Starts.exists_exec (hstarts : Starts C rs s b cells rows merged)
    (h : Finishing C policy rs s) (size : Nat) :
  ∃ r t, Exec (C.Batches size) s (process policy rs) r t
  := by
  obtain ⟨ends, cells', hended⟩ := h _ _ _ _ hstarts
  have hloops : ∃ r t, Exec (C.Batches size) { s with cells }
      (Prog.ask (S := batchSignature) (.applyAll policy (jobs rows merged))) r t :=
    ⟨_, _, exec_ask_iff.mpr (.applied (hended.finishes hstarts.apart size) (.refl _))⟩
  have hrun : ∃ r t, Exec (C.Batches size) { s with cells }
      (Prog.ask (S := batchSignature) (.applyAll policy (jobs rows merged))
        >>= afterLoops policy b rows merged) r t := by
    apply exists_exec_bind hloops
    intro collected s' _
    rw [afterLoops]
    cases JobEnd.collect collected with
    | none => exact ⟨_, _, .done _ _⟩
    | some results =>
        apply exists_exec_bind ((loopless_plain (plain_tell _)).exists_exec _)
        intro _ s'' _
        exact (loopless_conclude _ results).exists_exec s''
  obtain ⟨r, t, hexec⟩ := hrun
  exact ⟨r, t, hstarts.exec_iff.mpr hexec⟩

/-- A delivery comes to its end in a pool of any size, if its loops come to theirs alone. -/
theorem Finishing.exists_exec (h : Finishing C policy rs s) (size : Nat) :
  ∃ r t, Exec (C.Batches size) s (process policy rs) r t
  := by
  by_cases hstarts : ∃ b cells rows merged, Starts C rs s b cells rows merged
  · obtain ⟨b, cells, rows, merged, hstarts⟩ := hstarts
    exact hstarts.exists_exec h size
  -- if the loops are not started, then the calls on the way there have answers all the same
  rw [process]
  apply exists_exec_bind ⟨_, _, exec_ask_iff.mpr (.accepting s)⟩
  intro accepted s₁ hask
  cases exec_ask_iff.mp hask
  split
  · next haccepting =>
      rcases hrs : ofRecords rs with e | (_ | b)
      · exact ⟨_, _, .done _ _⟩
      · exact ⟨_, _, .done _ _⟩
      · dsimp only
        rw [run]
        apply exists_exec_bind ((loopless_plain (plain_store _)).exists_exec s)
        intro a s₁ hstore
        rcases a with e | rows
        · exact ⟨_, _, .done _ _⟩
        · obtain ⟨hheard, rfl⟩ := exec_store_iff.mp hstore
          have hfound : C.findAll s.cells b.keys =
              ((C.findAll s.cells b.keys).1, .ok (.answered (.ok rows))) :=
            Prod.ext rfl (answered_of_heard hheard.symm)
          apply exists_exec_bind ((loopless_plain (plain_tell _)).exists_exec _)
          intro _ s₂ _
          cases hmerged : Merge.batch rows b.deltas with
          | error o => exact ⟨_, _, .crash _ _⟩
          | ok merged =>
              exact absurd ⟨b, _, rows, merged, haccepting, hrs, hfound, hmerged⟩ hstarts
  · exact ⟨_, _, .done _ _⟩

/-- The schedules of the loops of a delivery come to an end, if the loops do so alone. -/
theorem Finishing.terminates (h : Finishing C policy rs s)
    (hstarts : Starts C rs s b cells rows merged) (size : Nat) :
  Pool.Terminates C.Loop policy size (jobs rows merged) cells
  := by
  obtain ⟨ends, cells', hended⟩ := h _ _ _ _ hstarts
  exact hended.terminates hstarts.apart size

/-- Over a store and an oracle that keep a cell for each address, a delivery of distinct offsets
has one end.  If it comes to an end in some order of its records and some schedule of its loops, in
a pool of some size, then it can be processed in every order of its records and in a pool of every
size, and no schedule of the loops is endless or gets stuck.  Whatever the schedule of the loops
and the order in which their ends are collected, all runs end in one of two ways.  Either none is
stopped by a fault, and they leave the same cells and make the same acknowledgment, with the same
outcome up to the order of the lists in it, or with a failure in each.  Or all are stopped by a
fault: then they make the same acknowledgment, and leave the same cells if no call of the store
stops its caller (`Cells.Akin`). -/
theorem process_in_any_order {r : Except Fault (Except Failure Outcome)}
    (hoffsets : (rs.map (·.offset)).Nodup) (hperm : rs.Perm rs')
    (h : Exec (C.Batches size) s (process policy rs) r t) (size' : Nat) :
  (∃ r' t', Exec (C.Batches size') s (process policy rs') r' t')
    ∧ (∀ r' t', Exec (C.Batches size') s (process policy rs') r' t' →
      Agree C.Akin Alike r t r' t')
    ∧ ∀ b cells rows merged, Starts C rs' s b cells rows merged →
      Pool.Terminates C.Loop policy size' (jobs rows merged) cells
  := by
  have hexec : Exec (C.Batches size) s (process policy rs') r t := by
    rwa [← process_perm hoffsets hperm]
  have hfinishing : Finishing C policy rs' s := finishing_of_exec hexec
  refine ⟨hfinishing.exists_exec size', ?_, ?_⟩
  · exact fun _ _ hexec' => pairs_process hexec hexec'
  · exact fun _ _ _ _ hstarts => hfinishing.terminates hstarts size'

/-- Over the store in memory the loops come to their ends. -/
theorem finishing_inMemory {positions : Partition → Option Nat} (rs : List Record)
    (s : Stand Cells.Cell (List Bounds)) :
  Finishing (Cells.inMemory positions) policy rs s
  := by
  intro b cells rows merged hstarts
  exact Cells.exists_ended hstarts.apart.nodup fun j _ => Cells.exists_path_inMemory j _

/-- Two transfers end alike, whether they are delivered in order and processed by one worker or
delivered in reverse and processed by eight. -/
theorem reversed_transfers_end_alike :
  ∃ r t, Exec ((Cells.inMemory fun _ => none).Batches 1) ⟨Cells.spread .empty keyed_empty, []⟩
      (process ⟨20, 100, 30, 5000, .past⟩ Merge.twoTransfers) r t ∧
    (∃ r' t', Exec ((Cells.inMemory fun _ => none).Batches 8)
      ⟨Cells.spread .empty keyed_empty, []⟩
      (process ⟨20, 100, 30, 5000, .past⟩ Merge.twoTransfers.reverse) r' t') ∧
    (∀ r' t', Exec ((Cells.inMemory fun _ => none).Batches 8)
      ⟨Cells.spread .empty keyed_empty, []⟩
      (process ⟨20, 100, 30, 5000, .past⟩ Merge.twoTransfers.reverse) r' t' →
      Agree (Cells.inMemory fun _ => none).Akin Alike r t r' t') ∧
    ∀ b cells rows merged, Starts (Cells.inMemory fun _ => none) Merge.twoTransfers.reverse
      ⟨Cells.spread .empty keyed_empty, []⟩ b cells rows merged →
      Pool.Terminates (Cells.inMemory fun _ => none).Loop ⟨20, 100, 30, 5000, .past⟩ 8
        (jobs rows merged) cells
  := by
  have hexists : ∃ r t, Exec ((Cells.inMemory fun _ => none).Batches 1)
      ⟨Cells.spread .empty keyed_empty, []⟩
      (process ⟨20, 100, 30, 5000, .past⟩ Merge.twoTransfers) r t :=
    (finishing_inMemory _ _).exists_exec 1
  obtain ⟨r, t, hexec⟩ := hexists
  have hoffsets : (Merge.twoTransfers.map (·.offset)).Nodup := by decide
  exact ⟨r, t, hexec, process_in_any_order hoffsets (List.reverse_perm _).symm hexec 8⟩

end Batch

end ChainLedger
