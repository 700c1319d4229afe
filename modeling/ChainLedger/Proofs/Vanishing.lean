import ChainLedger.Proofs.Rereading
import ChainLedger.Proofs.Seclusion

/-!
# Rows that vanish

Whether deltas that add up to nothing are to be applied is decided when the rows have been
fetched: only where there is a row.  Whether a loop makes a row or replaces one is decided later,
by what it has read last.  So a row of zeros is made exactly where a row was fetched and somebody
else has removed it before the loop has read the address again.
-/

namespace ChainLedger

open Prog

/-- A call of a loop removes no row. -/
theorem StoreCall.get?_on_of_byLoop {c : StoreCall} {r : Except Fault (Timed c.Answer)}
    {rows : Table Address Row} {key : Address} (h : PortCall.ByLoop (.store .loop c r))
    (hrow : rows.get? key ≠ none) :
  (c.on rows).1.get? key ≠ none
  := by
  cases c with
  | find k => exact hrow
  | insert row =>
      rcases on_insert_cases row rows with ⟨-, hon⟩ | hon
      · rw [hon, Table.get?_insert]
        split
        · rintro ⟨⟩
        · exact hrow
      · rw [hon]
        exact hrow
  | update row expected =>
      rcases on_update_cases row expected rows with ⟨-, -, -, hon⟩ | hon
      · rw [hon, Table.get?_insert]
        split
        · rintro ⟨⟩
        · exact hrow
      · rw [hon]
        exact hrow
  | findAll keys => exact h.elim
  | remove k => exact h.elim
  | settle k expected => exact h.elim

namespace Batch

variable {M : Manners} {b : Batch} {rs : List Record} {policy : Policy}

/-- A row that was fetched is gone when a loop reads its address again, and the batch has made
no calls but those of its loops: somebody else has removed it. -/
theorem removed_by_other {rows fetched : Table Address Row} {front later after : List Entry}
    {key : Address} {held : Row}
    (h : Coherent rows (front ++ .call (b.fetched fetched) :: later ++ after))
    (hkey : key ∈ b.keys) (hheld : fetched.get? key = some held)
    (hloops : ∀ c, .call c ∈ later → c.ByLoop) (hgone : .call (.finds key none) ∈ later) :
  ∃ x y old, later = x ++ .change ⟨.other, key, some old, none⟩ :: y ∧
    .call (.finds key none) ∈ y
  := by
  obtain ⟨z, z', rfl⟩ := List.append_of_mem hgone
  have hfetched : rowAfter rows (front ++ [.call (b.fetched fetched)]) key ≠ none := by
    have hrow := h front (.call (b.fetched fetched)) _ (List.append_assoc ..) key (some held)
      (.fetched hkey hheld)
    rw [rowAfter_call, hrow]
    nofun
  have hread : rowAfter rows (front ++ [.call (b.fetched fetched)] ++ z) key = none := by
    apply h _ (.call (.finds key none)) (z' ++ after) (by simp) key none
    exact .found
  have hcoherent : Coherent rows (front ++ [.call (b.fetched fetched)] ++ z) := by
    have hsplit : front ++ .call (b.fetched fetched)
          :: (z ++ .call (.finds key none) :: z') ++ after
        = front ++ [.call (b.fetched fetched)] ++ z
          ++ (.call (.finds key none) :: z' ++ after) := by
      simp
    rw [hsplit] at h
    exact h.left
  obtain ⟨x, y, c, old, rfl, hckey, hbefore, hafter⟩ := hcoherent.exists_removal hfetched hread
  have hother : c.agent = .other := by
    by_contra hown
    obtain ⟨journal, who, call, r, rows', hjournal, -, htarget, hfrom, hto, -⟩ :=
      (hcoherent _ (.change c) y (List.append_assoc ..).symm).2 hown
    -- the call that has removed the row would be one of a loop, since the fetch removes nothing
    have hloop : PortCall.ByLoop (.store who call r) := by
      rcases x.eq_nil_or_concat with rfl | ⟨x, e, rfl⟩
      · rw [List.append_nil] at hjournal
        obtain ⟨-, hcall⟩ := List.append_inj' hjournal rfl
        cases hcall
        cases htarget
      · rw [List.concat_eq_append, ← List.append_assoc] at hjournal
        obtain ⟨-, hcall⟩ := List.append_inj' hjournal rfl
        rw [List.singleton_inj] at hcall
        apply hloops
        simp [hcall]
    cases who with
    | batch => exact hloop.elim
    | loop =>
        apply StoreCall.get?_on_of_byLoop hloop _ (hto.symm.trans hafter)
        rw [← hfrom, hbefore]
        nofun
  have hc : c = ⟨.other, key, some old, none⟩ := by
    cases c
    simp only at hother hckey hbefore hafter
    rw [hother, hckey, hbefore, hafter]
  exact ⟨x, y ++ .call (.finds key none) :: z', old, by simp [hc], by simp⟩

/-- A batch shares its rows with others that may change them as they like, under their own
addresses, and any call may be lost if the manners of the others say so.  Every row that a loop
of the batch makes where there is none has the sum of those deltas that the row fetched with the
others does not count.  If that sum is zero, then a row was fetched, somebody else has removed it
since, and the loop has found none after that. -/
theorem totals_of_made {rows : Table Address Row} {r : Except Fault (Except Failure Outcome)}
    {s' : Scene} (hkeyed : Keyed rows)
    (h : Exec (shared M).Batches ⟨rows, []⟩ (process policy rs) r s') :
  ∀ before c after, s'.journal = before ++ .change c :: after → c.agent = .loop →
    c.before = none →
    ∃ b fetched front later row', ofRecords rs = .ok (some b) ∧
      before = front ++ .call (b.fetched fetched) :: later ∧ c.after = some row' ∧
      row'.totals = Delta.total (b.pendingFor c.key (fetched.get? c.key)) ∧
      (row'.totals = 0 → ∃ held old x y, fetched.get? c.key = some held ∧
        later = x ++ .change ⟨.other, c.key, some old, none⟩ :: y ∧
        .call (.finds c.key none) ∈ y)
  := by
  intro before c after hsplit hagent hnone
  obtain ⟨b, fetched, front, later, d, w, row', hrs, hb, rfl, hloops, heffected⟩ :=
    effected_of_loop hkeyed h hsplit hagent
  have hprevious : w.previous = none := by
    have hversion := heffected.before
    rw [hnone] at hversion
    exact Option.map_eq_none_iff.mp hversion.symm
  have htotals : row'.totals = d.change := by
    rw [Row.totals_of_written heffected.makes.written, hprevious]
    exact zero_add _
  have hchange : d.change = Delta.total (b.pendingFor c.key (fetched.get? c.key)) := by
    rw [(eq_whole_of_toApply heffected.delta).1]
    rfl
  refine ⟨b, fetched, front, later, row', hrs, rfl, heffected.after, htotals.trans hchange, ?_⟩
  intro hzero
  cases hheld : fetched.get? c.key with
  | none =>
      have hdelta := heffected.delta
      rw [hheld] at hdelta
      exact absurd (htotals.symm.trans hzero) (change_ne_zero hdelta)
  | some held =>
      have hgone : .call (.finds c.key none) ∈ later := by
        rcases heffected.found with hfound | hfound
        · rw [hprevious, hheld] at hfound
          cases hfound
        · rwa [hprevious] at hfound
      have hcoherent := (Scene.chronicled_of_exec h).coherent
      rw [hsplit] at hcoherent
      obtain ⟨x, y, old, hlater⟩ := removed_by_other hcoherent
        (hb.of_toApply heffected.delta).2.1 hheld hloops hgone
      exact ⟨held, old, x, y, rfl, hlater⟩

/-! ### A transfer that is retracted -/

/-- A transfer and its retraction. -/
def retracted : List Record :=
  [remittance home .added sender 5 0, remittance home .dropped sender 5 1]

/-- The batch of the transfer and its retraction. -/
def retractedBatch : Batch where
  bounds := ⟨home, 0, 1, 2⟩
  records := retracted

theorem ofRecords_retracted :
  ofRecords retracted = .ok (some retractedBatch)
  := by
  apply ofRecords_of_ascending
  · decide
  · decide

/-- What the two give to the address that is paid: nothing. -/
def balanced : Delta where
  key := receiver
  change := 0
  source := ⟨home, 1⟩
  time := 9

/-- The scene when the batch has fetched its rows. -/
def askedScene : Scene := Scene.serve ⟨heldRows, []⟩ .batch (.findAll retractedBatch.keys)

/-- The scene when the other partition has removed its row, and the loop has read again. -/
def vacatedScene : Scene := (askedScene.meddle receiver none).serve .loop (.find receiver)

/-- The scene when the loop has made a row of zeros. -/
def zeroScene : Scene := vacatedScene.serve .loop (.insert (Row.ofDelta balanced))

/-- The scene when the batch is acknowledged and the row is settled. -/
def keptScene : Scene :=
  ((zeroScene.note (.acknowledge retractedBatch.bounds (.ok (.ok ())))).serve .batch
    (.findAll [receiver])).serve .batch (.settle receiver 0)

/-- Writers of other partitions, which never leave a row that is not the one held. -/
abbrev holders : Manners := secluded (fun _ row => row = heldReceiver) home

/-- The one job of the batch waits once, finds no row any more and makes one. -/
theorem completes_vacated :
  Completes (shared holders).Loops hasty [⟨balanced, some heldReceiver⟩] askedScene
    [.finished (.ok (.applied receipt))] zeroScene
  := by
  have hmay : holders.may receiver (Mine askedScene.journal receiver) (some heldReceiver) none := by
    constructor
    · rintro ⟨c, hlast, -⟩
      cases hlast
    · nofun
  have hwaited : Task.Path (shared holders).Loops hasty ⟨balanced, some heldReceiver⟩
      (askedScene, Task.start hasty ⟨balanced, some heldReceiver⟩)
      (askedScene, .running (Apply.turn hasty balanced { spent := 1, seen := none })) := by
    apply Task.path_of_exec (r := .ok (.again { spent := 1, seen := none }))
    exact .answered (.waited _ _) (.done _ _)
  have hread : Task.Path (shared holders).Loops hasty ⟨balanced, some heldReceiver⟩
      (askedScene, .running (Apply.turn hasty balanced { spent := 1, seen := none }))
      (vacatedScene, .running (Apply.turn hasty balanced { spent := 1, seen := some none })) := by
    apply Task.path_of_exec (r := .ok (.again { spent := 1, seen := some none }))
    exact .answered (.store (shared_meddle hmay)) (.done _ _)
  have hmade : Task.Path (shared holders).Loops hasty ⟨balanced, some heldReceiver⟩
      (vacatedScene, .running (Apply.turn hasty balanced { spent := 1, seen := some none }))
      (zeroScene, .ended (.finished (.ok (.applied receipt)))) := by
    apply Task.path_of_exec (r := .ok (.stop (.ok (.applied receipt))))
    exact .answered (.store shared_serve) (.done _ _)
  have hpath : Task.Path (shared holders).Loops hasty ⟨balanced, some heldReceiver⟩ _ _ :=
    (hwaited.trans hread).trans hmade
  have hmoves : Relation.ReflTransGen
      (Moves (shared holders).Loops hasty [⟨balanced, some heldReceiver⟩])
      (askedScene, [] ++ _ :: []) _ := hpath.moves rfl
  exact hmoves

/-- The batch is acknowledged, and the row of zeros is settled. -/
theorem exec_vacated :
  Exec (shared holders).Batches ⟨heldRows, []⟩ (process hasty retracted)
    (.ok (.ok (.committed retractedBatch.bounds [receiver] [receiver] []))) keptScene
  := by
  rw [process]
  refine .answered (.accepting _ true) ?_
  dsimp only [Prog.bind]
  rw [if_pos rfl, ofRecords_retracted]
  refine .answered (.store (r := .ok _) shared_serve) ?_
  refine .answered (.told _ _) ?_
  refine .answered (.applied completes_vacated) ?_
  refine .answered (.told _ _) ?_
  refine .answered (.acknowledged (r := .ok (.ok ())) rfl) ?_
  refine .answered (.told _ _) (.answered (.told _ _) ?_)
  refine .answered (.store (r := .ok _) shared_serve) ?_
  refine .answered (.told _ _) ?_
  refine .answered (.store (r := .ok _) shared_serve) ?_
  exact .answered (.told _ _) (.answered (.told _ _) (.done _ _))

/-- The loop of the retracted transfer makes one row, of the sum of the deltas that the row
fetched did not count. -/
theorem vacated_row_is_the_sum :
  ∃ s', Keyed heldRows ∧
    Exec (shared holders).Batches ⟨heldRows, []⟩ (process hasty retracted)
      (.ok (.ok (.committed retractedBatch.bounds [receiver] [receiver] []))) s' ∧
    ((s'.journal.filterMap Entry.change?).filter (·.agent = .loop)).map (·.before) = [none] ∧
    ∀ before c after, s'.journal = before ++ .change c :: after → c.agent = .loop →
      c.before = none →
      ∃ b fetched front later row', ofRecords retracted = .ok (some b) ∧
        before = front ++ .call (b.fetched fetched) :: later ∧ c.after = some row' ∧
        row'.totals = Delta.total (b.pendingFor c.key (fetched.get? c.key)) ∧
        (row'.totals = 0 → ∃ held old x y, fetched.get? c.key = some held ∧
          later = x ++ .change ⟨.other, c.key, some old, none⟩ :: y ∧
          .call (.finds c.key none) ∈ y)
  := ⟨keptScene, keyed_heldRows, exec_vacated, rfl, totals_of_made keyed_heldRows exec_vacated⟩

/-- A loop may make a row of zeros: another partition removes the row that it holds between the
fetch and the write, and the transfer and its retraction together make a row of nothing. -/
theorem row_of_zeros_is_made :
  ∃ s', Exec (shared holders).Batches ⟨heldRows, []⟩ (process hasty retracted)
      (.ok (.ok (.committed retractedBatch.bounds [receiver] [receiver] []))) s' ∧
    changesAt s'.journal receiver = [⟨.other, receiver, some heldReceiver, none⟩,
      ⟨.loop, receiver, none, some (Row.ofDelta balanced)⟩,
      ⟨.finalize, receiver, some (Row.ofDelta balanced),
        some { Row.ofDelta balanced with version := 1, settled := true }⟩] ∧
    (Row.ofDelta balanced).totals = 0
  := ⟨keptScene, exec_vacated, rfl, rfl⟩

end Batch

end ChainLedger
