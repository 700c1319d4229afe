import ChainLedger.CommandLine
import ChainLedger.Proofs.Appending
import ChainLedger.Proofs.Undoing

/-!
# Replaying a file

A replay puts the records of a file into an empty log and drains one partition after another into
an empty store.  Every batch finds settled rows, so none is undone, and in the end the row of every
address holds just what all records together change the address by.  The rows depend only on the
order of the records within each partition.

Only numbers that overflow can stop a replay.  They cannot if the records fit even when all of
their columns are counted as positive.
-/

namespace ChainLedger

namespace Replay

variable {settings : Settings} {text : String} {rs : List Record}

/-! ### The records of a text -/

/-- The lines of a text that are not blank denote the records. -/
def Lists (text : String) (rs : List Record) : Prop :=
  ((lines text.toList).filter fun l => ¬ l.all Text.isBlank).map record? = rs.map some

/-- The records of lines, of which the blank ones do not count. -/
theorem records_of_lines {ls : List (List Char)}
    (h : (ls.filter fun l => ¬ l.all Text.isBlank).map record? = rs.map some) (number : Nat) :
  records number ls = .ok rs
  := by
  induction ls generalizing rs number with
  | nil =>
      obtain rfl : rs = [] := List.map_eq_nil_iff.mp h.symm
      rfl
  | cons l ls ih =>
      rw [records]
      split
      · next hblank =>
          apply ih
          rw [← h, List.filter_cons_of_neg (by simpa using hblank)]
      · next hblank =>
          rw [List.filter_cons_of_pos (by simpa using hblank), List.map_cons] at h
          cases rs with
          | nil => cases h
          | cons r rs =>
              obtain ⟨hr, hrest⟩ := List.cons.inj h
              rw [hr, ih hrest]
              rfl

/-! ### Draining all partitions -/

/-- A replay was stopped by an overflow, in the computation of a batch or in that for one of its
addresses. -/
def Overran {α : Type} (r : Except Stop α) : Prop :=
  (∃ o, r = .error (.fault (.overflow o))) ∨ ∃ p, r = .error (.failed p .workerFailed)

theorem Overran.map {α β : Type} {r : Except Stop α} (h : Overran r) (f : α → β) :
  Overran (r.map f)
  := by
  rcases h with ⟨o, rfl⟩ | ⟨p, rfl⟩
  · exact .inl ⟨o, rfl⟩
  · exact .inr ⟨p, rfl⟩

/-- Partitions that are drained one after another add all that remains in them, unless some batch
overflows. -/
theorem drainAll_of_abreast {ps : List Partition} {b : Backend} (h : b.Ready)
    (hsite : b.site.Abreast) (hps : ∀ p ∈ ps, p ∈ b.log.partitions.keys) (hnodup : ps.Nodup) :
  (∃ b', drainAll settings ps b = .ok b' ∧
      Accrues (ps.flatMap b.log.remaining) b.store.rows b'.store.rows) ∨
    (Overran (drainAll settings ps b) ∧
      Overruns settings.takeover b.store.rows (ps.flatMap b.log.remaining))
  := by
  induction ps generalizing b with
  | nil => exact .inl ⟨b, rfl, .refl hsite.keyed hsite.settled⟩
  | cons p ps ih =>
      obtain ⟨hp, hnodup⟩ := List.nodup_cons.mp hnodup
      obtain ⟨hknown, hps⟩ := List.forall_mem_cons.mp hps
      rw [drainAll, List.flatMap_cons]
      rcases Backend.drained h hsite hknown settings.batchSize
        with ⟨b', stats, hdrain, hready, hconsumed⟩ | ⟨hover, hoverruns⟩
      · have hothers : ps.flatMap b.log.remaining = ps.flatMap b'.log.remaining := by
          apply List.flatMap_congr
          intro q hq
          exact (hconsumed.others q fun heq => hp (heq ▸ hq)).symm
        have hps' : ∀ q ∈ ps, q ∈ b'.log.partitions.keys :=
          fun q hq => hconsumed.keys.mem_iff.mpr (hps q hq)
        rw [hdrain, hothers]
        rcases ih hready hconsumed.abreast hps' hnodup
          with ⟨b'', hrest, haccrues⟩ | ⟨hover, hoverruns⟩
        · exact .inl ⟨b'', hrest, hconsumed.accrues.append haccrues⟩
        · exact .inr ⟨hover, hoverruns.after hconsumed.accrues⟩
      · refine .inr ⟨?_, hoverruns.append _⟩
        generalize b.drain settings p settings.batchSize (b.log.lag p + 1) = x at hover ⊢
        obtain ⟨b', r⟩ := x
        rcases hover with ⟨o, hr⟩ | hr
        · obtain rfl : r = _ := hr
          exact .inl ⟨o, rfl⟩
        · obtain rfl : r = _ := hr
          exact .inr ⟨p, rfl⟩

/-! ### The rows -/

/-- The replay of some records stops because numbers overflow: some of the records, one partition
after another, amount to a batch that does not fit the rows which those before them have left. -/
def Overflows (settings : Settings) (text : String) (rs : List Record) : Prop :=
  Overran (rows settings text) ∧
    Overruns settings.takeover .empty (EventLog.appendAll {} rs).queue

theorem rows_eq (hlists : Lists text rs) (hworkers : FitsUnsigned 61 settings.workers) :
  rows settings text = (drainAll settings (EventLog.appendAll {} rs).partitions.keys
    { log := EventLog.appendAll {} rs }).map fun b => b.store.rows.values
  := by
  rw [rows, records_of_lines hlists, Pool.ofSize, if_pos hworkers]
  dsimp only [bind, Except.bind, Except.mapError]
  generalize drainAll settings (EventLog.appendAll {} rs).partitions.keys
    { log := EventLog.appendAll {} rs } = x
  cases x with
  | error e => rfl
  | ok b => rfl

/-- A replay adds all records to an empty store, unless numbers overflow. -/
theorem rows_of_lists (hlists : Lists text rs) (hworkers : FitsUnsigned 61 settings.workers)
    (hcalm : ¬ Overflows settings text rs) :
  ∃ table, rows settings text = .ok table.values ∧
    Accrues (EventLog.appendAll {} rs).queue .empty table
  := by
  have hready : Backend.Ready { log := EventLog.appendAll {} rs } := by
    constructor
    · rfl
    · rfl
    · intro key row hrow
      cases hrow
  have hsite : (Backend.site { log := EventLog.appendAll {} rs }).Abreast := by
    constructor
    · exact hready.keyed
    · exact settled_empty
    · exact EventLog.sound_appendAll rs
    · exact EventLog.failNext_appendAll rs
    · intro key row hrow
      cases hrow
  have hrows := rows_eq hlists hworkers
  rcases drainAll_of_abreast hready hsite (fun _ hp => hp) (Table.nodup_keys _)
    with ⟨b, hdrain, haccrues⟩ | ⟨hover, hoverruns⟩
  · refine ⟨b.store.rows, ?_, haccrues⟩
    rw [hrows, hdrain]
    rfl
  · refine absurd ⟨?_, hoverruns⟩ hcalm
    rw [hrows]
    exact hover.map _

/-- Records in the same order within each partition make the same rows. -/
theorem rows_congr {text' : String} {rs' : List Record} (hlists : Lists text rs)
    (hlists' : Lists text' rs') (hworkers : FitsUnsigned 61 settings.workers)
    (hsame : ∀ p, rs'.filter (·.partition = p) = rs.filter (·.partition = p)) :
  rows settings text' = rows settings text
  := by
  rw [rows_eq hlists' hworkers, rows_eq hlists hworkers, EventLog.appendAll_congr hsame]

/-- Nothing overflows in a replay if the records fit even when all of their columns are counted as
positive. -/
theorem not_overflows_of_weight (hfits : ∀ key, (Record.weight key rs).Fits)
    (hlength : FitsUnsigned 64 (2 * rs.length)) :
  ¬ Overflows settings text rs
  := by
  rintro ⟨-, hoverruns⟩
  apply not_overruns_of_weight _ _ hoverruns
  · intro key
    rw [EventLog.weight_queue]
    exact hfits key
  · rw [EventLog.length_queue]
    exact hlength

end Replay

/-! ### The command -/

/-- Settings that the engine can run with pass the check. -/
theorem Settings.check_of_valid {s : Settings} (h : s.Valid) :
  s.check = .ok s
  := by
  have hnone : s.firstZero? = none := by
    rw [firstZero?, List.find?_eq_none]
    intro p hp
    simpa using Nat.ne_of_gt (h p hp)
  rw [check, hnone]

namespace CommandLine

variable {words : List String} {env : Environment} {files : String → File} {s : Settings}
  {path : String} {only : List Address}

/-- The words ask for a replay of a file, and for the rows of some addresses or, if none is named,
for all rows, under settings that the engine can run with. -/
structure Asks (words : List String) (env : Environment) (files : String → File) (s : Settings)
    (path : String) (only : List Address) : Prop where
  request : ∃ path? size? texts given,
    Request.ofWords words = .ok ⟨path?, .replay path size? texts⟩ ∧
      settings path? env files = .ok given ∧ addresses texts = .ok only ∧
      s = { given with batchSize := size?.getD given.batchSize }
  valid : s.Valid
  workers : FitsUnsigned 61 s.workers

/-- The rows of the addresses asked for. -/
def shown (only : List Address) (rows : List Row) : List Row :=
  rows.filter fun r => only.isEmpty || only.contains r.key

/-- What a replay prints. -/
theorem run_of_asks {text : String} (h : Asks words env files s path only)
    (hfile : files path = .text text) :
  run words env files = report path only (Replay.rows s text)
  := by
  obtain ⟨⟨path?, size?, texts, given, hwords, hsettings, honly, rfl⟩, hvalid, -⟩ := h
  have hcheck := Settings.check_of_valid hvalid
  rw [run, hwords]
  dsimp only
  rw [perform]
  dsimp only
  rw [hsettings]
  dsimp only [bind, Except.bind]
  rw [honly]
  dsimp only
  rw [hcheck, input, hfile]
  rfl

/-- A replay prints the rows of the store, ascending by address and without repetition.  Each holds
what all records of the file change its address by, and is settled; an address asked for that has
no row is changed by nothing on the whole.  What is printed depends only on the order of the records
within each partition. -/
theorem replay_prints_sums {text : String} {rs : List Record}
    (h : Asks words env files s path only) (hfile : files path = .text text)
    (hlists : Replay.Lists text rs) (hcalm : ¬ Replay.Overflows s text rs) :
  ∃ stored, Replay.rows s text = .ok stored ∧
    run words env files
      = .printed (Json.pretty (.arr ((shown only stored).map Replay.toJson)) ++ "\n") ∧
    (stored.Pairwise fun row row' => compare row.key row'.key = .lt) ∧
    (∀ row ∈ stored, row.totals = Record.changes row.key rs ∧ row.settled = true) ∧
    (∀ key, only = [] ∨ key ∈ only → Record.changes key rs ≠ 0 →
      ∃ row ∈ shown only stored, row.key = key) ∧
    ∀ files' text' rs', Asks words env files' s path only → files' path = .text text' →
      Replay.Lists text' rs' →
      (∀ p, rs'.filter (·.partition = p) = rs.filter (·.partition = p)) →
      run words env files' = run words env files
  := by
  obtain ⟨table, hrows, haccrues⟩ := Replay.rows_of_lists hlists h.workers hcalm
  have htotals : ∀ key, (table.get? key).elim 0 Row.totals = Record.changes key rs := by
    intro key
    rw [haccrues.totals key, Table.get?_empty, EventLog.changes_queue]
    apply zero_add
  refine ⟨table.values, hrows, ?_, haccrues.keyed.ascending_values, ?_, ?_, ?_⟩
  · rw [run_of_asks h hfile, hrows]
    rfl
  · intro row hrow
    obtain ⟨key, hrow⟩ := Table.mem_values_iff.mp hrow
    have hsum := htotals key
    rw [hrow] at hsum
    rw [haccrues.keyed key row hrow]
    exact ⟨hsum, haccrues.settled key row hrow⟩
  · intro key hasked hne
    cases hrow : table.get? key with
    | none =>
        have hsum := htotals key
        rw [hrow] at hsum
        exact absurd hsum.symm hne
    | some row =>
        have hkey := haccrues.keyed key row hrow
        refine ⟨row, List.mem_filter.mpr ⟨Table.mem_values_iff.mpr ⟨key, hrow⟩, ?_⟩, hkey⟩
        rw [hkey]
        simpa using hasked
  · intro files' text' rs' h' hfile' hlists' hsame
    rw [run_of_asks h' hfile', run_of_asks h hfile,
      Replay.rows_congr hlists hlists' h.workers hsame]

/-! ### A file of blocks -/

section blocks

open Batch

/-- A block of a miner joins or leaves the chain. -/
def mined (p : Partition) (kind : Kind) (reward : Nat) : Record where
  kind := kind
  payload := .block {
    number := 1
    hash := default
    miner := receiver
    baseReward := reward
    uncleInclusion := 0
    fees := 0
    transactions := 0
    time := 9 }
  partition := p
  offset := 0

/-- The text of some records, with a blank line after each. -/
def textOf (rs : List Record) : String :=
  String.ofList (rs.flatMap fun r => r.toJson.compactChars ++ ['\n', ' ', '\n'])

/-- A file with the text of some records, and no other. -/
def ledgerOf (rs : List Record) (path : String) : File :=
  if path = "ledger" then .text (textOf rs) else .missing

def replayOfLedger : List String :=
  ["replay", "-i", "ledger", "-b", "1", "-a", Address.render receiver]

theorem asks_replayOfLedger (rs : List Record) :
  Asks replayOfLedger (fun _ => none) (ledgerOf rs) { batchSize := 1 } "ledger" [receiver]
  := by
  constructor
  · exact ⟨none, some 1, [Address.render receiver], {}, by decide +kernel, rfl, by decide +kernel,
      rfl⟩
  · decide
  · decide

theorem lists_mined :
  Replay.Lists (textOf [mined home .added 5, mined away .dropped 3])
      [mined home .added 5, mined away .dropped 3] ∧
    Replay.Lists (textOf [mined away .dropped 3, mined home .added 5])
      [mined away .dropped 3, mined home .added 5]
  := by
  rw [Replay.Lists, Replay.Lists, textOf, textOf, String.toList_ofList, String.toList_ofList]
  decide +kernel

theorem not_overflows_mined (settings : Settings) (text : String) :
  ¬ Replay.Overflows settings text [mined home .added 5, mined away .dropped 3]
  := by
  apply Replay.not_overflows_of_weight
  · intro key
    apply (Delta.within_weight List.filter_sublist).fits
    decide +kernel
  · decide

/-- A reward of five is paid and one of three is taken back, whichever comes first in the file. -/
theorem replay_prints_balance :
  (∃ stored, run replayOfLedger (fun _ => none)
        (ledgerOf [mined home .added 5, mined away .dropped 3])
      = .printed (Json.pretty (.arr ((shown [receiver] stored).map Replay.toJson)) ++ "\n") ∧
    ∃ row ∈ shown [receiver] stored,
      row.key = receiver ∧ row.totals.balance = 2 ∧ row.settled = true) ∧
    run replayOfLedger (fun _ => none) (ledgerOf [mined away .dropped 3, mined home .added 5])
      = run replayOfLedger (fun _ => none) (ledgerOf [mined home .added 5, mined away .dropped 3])
  := by
  obtain ⟨stored, -, hrun, -, hsums, hmissing, hsame⟩ := replay_prints_sums
    (asks_replayOfLedger _) rfl lists_mined.1 (not_overflows_mined _ _)
  obtain ⟨row, hrow, hkey⟩ := hmissing receiver (by simp) (by decide +kernel)
  obtain ⟨htotals, hsettled⟩ := hsums row (List.mem_filter.mp hrow).1
  have hbalance : (Record.changes receiver
      [mined home .added 5, mined away .dropped 3]).balance = 2 := by
    decide +kernel
  refine ⟨⟨stored, hrun, row, hrow, hkey, ?_, hsettled⟩, ?_⟩
  · rw [htotals, hkey]
    exact hbalance
  · apply hsame _ _ _ (asks_replayOfLedger _) rfl lists_mined.2
    intro p
    by_cases hhome : home = p
    · subst hhome
      decide +kernel
    · have hdrop : decide ((mined home .added 5).partition = p) = false := decide_eq_false hhome
      simp [List.filter_cons, hdrop]

end blocks

end CommandLine

end ChainLedger
