import ChainLedger.Proofs.Transcript
import ChainLedger.Proofs.Undoing

/-!
# The budgets of a loop

Whatever a loop hears, every time that it reads its row again something has been used up before:
an attempt, by waiting or by a missed deadline, or a compare-and-swap that was lost.  Only an
insertion that was refused uses up nothing.  The loop writes over a row that it has just read,
and that is open to the delta and does not count it; over a row that another partition holds it
writes only when all attempts are used up and the oracle has said that this partition has moved
on.
-/

namespace ChainLedger

open Prog

/-! ### Counting exchanges -/

namespace Exchange

/-- The loop has waited. -/
def isWait : Exchange applySignature → Bool
  | ⟨.wait _, _⟩ => true
  | _ => false

/-- A store call missed its deadline, or the store says so. -/
def isLate : Exchange applySignature → Bool
  | ⟨.store c _, .ok r⟩ =>
    match r.result c.name with
    | .error e => e.isRetryable
    | .ok _ => false
  | _ => false

/-- A compare-and-swap was lost. -/
def isLost : Exchange applySignature → Bool
  | ⟨.store (.update _ _) _, .ok (.answered (.ok false))⟩ => true
  | _ => false

/-- An insertion was refused. -/
def isRefused : Exchange applySignature → Bool
  | ⟨.store (.insert _) _, .ok (.answered (.ok false))⟩ => true
  | _ => false

/-- The row was to be read again. -/
def isReload : Exchange applySignature → Bool
  | ⟨.store (.find _) _, _⟩ => true
  | _ => false

/-- The row that was read. -/
def found? : Exchange applySignature → Option (Option Row)
  | ⟨.store (.find _) _, .ok (.answered (.ok row?))⟩ => some row?
  | _ => none

variable {c : StoreCall} (deadline : Nat) {r : Timed c.Answer} {e : StoreError}

theorem isLate_of_error (h : r.result c.name = .error e) :
  isLate ⟨.store c deadline, .ok r⟩ = e.isRetryable
  := by
  simp [isLate, h]

/-- A call that fails is neither lost nor refused, and nothing is read. -/
theorem of_error (h : r.result c.name = .error e) :
  isLost ⟨.store c deadline, .ok r⟩ = false ∧ isRefused ⟨.store c deadline, .ok r⟩ = false ∧
    found? ⟨.store c deadline, .ok r⟩ = none
  := by
  rcases r with (e | a) | _
  · cases c <;> exact ⟨rfl, rfl, rfl⟩
  · cases h
  · cases c <;> exact ⟨rfl, rfl, rfl⟩

end Exchange

namespace Transcript

variable (t : Transcript applySignature) (x : Exchange applySignature)

/-- The attempts used up: by waiting, and by missed deadlines. -/
def spent : Nat := t.countP fun x => x.isWait || x.isLate

/-- The compare-and-swaps lost. -/
def lost : Nat := t.countP Exchange.isLost

/-- The insertions refused. -/
def refusals : Nat := t.countP Exchange.isRefused

/-- How often the row was to be read again. -/
def reloads : Nat := t.countP Exchange.isReload

/-- The row last read, by a loop that has started from a row read before. -/
def lastRead (row? : Option Row) : Option Row := (t.filterMap Exchange.found?).getLast?.getD row?

@[simp]
theorem spent_concat :
  spent (t ++ [x]) = spent t + if x.isWait || x.isLate then 1 else 0
  := by
  simp [spent, List.countP_singleton]

@[simp]
theorem lost_concat :
  lost (t ++ [x]) = lost t + if x.isLost then 1 else 0
  := by
  simp [lost, List.countP_singleton]

@[simp]
theorem refusals_concat :
  refusals (t ++ [x]) = refusals t + if x.isRefused then 1 else 0
  := by
  simp [refusals, List.countP_singleton]

@[simp]
theorem reloads_concat :
  reloads (t ++ [x]) = reloads t + if x.isReload then 1 else 0
  := by
  simp [reloads, List.countP_singleton]

@[simp]
theorem lastRead_concat (row? : Option Row) :
  lastRead (t ++ [x]) row? = x.found?.getD (lastRead t row?)
  := by
  rw [lastRead, List.filterMap_append]
  cases hfound : x.found? with
  | none => simp [hfound, lastRead]
  | some row? => simp [hfound]

end Transcript

open Exchange Transcript

/-! ### What a loop may do -/

/-- The loop that makes these calls keeps within its budgets: it reads the row again only for
what it has used up or been refused, and makes few calls each time. -/
structure Transcript.Paid (t : Transcript applySignature) (policy : Policy) : Prop where
  reloads_le : reloads t ≤ policy.attempts + policy.conflicts + refusals t
  length_le : t.length ≤ 3 * reloads t + 2

/-- After these calls the row may be replaced by the next one, if it has the version expected. -/
inductive Warranted (policy : Policy) (d : Delta) (row? : Option Row)
    (t : Transcript applySignature) (row' : Row) (expected : Nat) : Prop
  /-- The row last read is open to the delta and does not count it. -/
  | open {row : Row} (hread : lastRead t row? = some row)
      (hopen : row.settled ∨ row.SameOrigin d.source) (hnew : ¬ row.Reflects d.source)
      (hrow' : row.apply d = .ok row') (hexpected : expected = row.version) :
      Warranted policy d row? t row' expected
  /-- The row last read is held by another partition, all attempts are used up, and the oracle
  has just said that this partition has moved on. -/
  | forced {row : Row} {before : Transcript applySignature} {committed : Option Nat}
      (hread : lastRead before row? = some row) (hheld : Held d.source.partition (some row))
      (hspent : spent before = policy.attempts)
      (hasked : t = before ++ [⟨.latestOffset row.source.partition, .ok (.ok committed)⟩])
      (hallows : policy.takeover.allows committed row.source.offset = true)
      (hrow' : row.apply d = .ok row') (hexpected : expected = row.version) :
      Warranted policy d row? t row' expected

/-- After these calls the loop may end so. -/
inductive Justified (policy : Policy) (d : Delta) (row? : Option Row)
    (t : Transcript applySignature) : Ending → Prop
  /-- It is said truly whether the row replaced was held by another partition. -/
  | applied {w : Write} (hforced : w.forced = true ↔ Held d.source.partition w.previous) :
      Justified policy d row? t (.applied w)
  /-- The row last read counts the delta. -/
  | alreadyApplied {row : Row} (hread : lastRead t row? = some row)
      (hreflects : row.Reflects d.source) :
      Justified policy d row? t (.alreadyApplied d.key row.version row.settled)
  /-- The row last read is held by another partition, all attempts are used up, and the oracle
  has just said that this partition has not moved on. -/
  | stalled {row : Row} {before : Transcript applySignature} {committed : Option Nat}
      (hread : lastRead before row? = some row) (hheld : Held d.source.partition (some row))
      (hspent : spent before = policy.attempts)
      (hasked : t = before ++ [⟨.latestOffset row.source.partition, .ok (.ok committed)⟩])
      (hbehind : policy.takeover.allows committed row.source.offset = false) :
      Justified policy d row? t (.locked d.key (.stalledWriter row.source committed))
  /-- One more compare-and-swap was lost than may be. -/
  | conflicts (hlost : lost t = policy.conflicts + 1) :
      Justified policy d row? t (.locked d.key (.conflicts (policy.conflicts + 1)))

namespace Apply

variable {policy : Policy} {d : Delta} {row? : Option Row} {s : State}
  {t : Transcript applySignature}

/-- The loop may make the call after these calls. -/
def Allows (policy : Policy) (d : Delta) (row? : Option Row) (t : Transcript applySignature) :
    ApplyCall → Prop
  | .store (.update row' expected) _ => t.Paid policy ∧ Warranted policy d row? t row' expected
  | _ => t.Paid policy

/-- The loop may come to its end after these calls. -/
def Closes (policy : Policy) (d : Delta) (row? : Option Row) (e : JobEnd Result)
    (t : Transcript applySignature) : Prop :=
  t.Paid policy ∧ ∀ ending, e = .finished (.ok ending) → Justified policy d row? t ending

theorem Closes.ended {ending : Ending} (h : t.Paid policy)
    (hending : Justified policy d row? t ending) :
  Closes policy d row? (.finished (.ok ending)) t
  := by
  refine ⟨h, ?_⟩
  rintro _ ⟨⟩
  exact hending

theorem Closes.failed {f : Failure} (h : t.Paid policy) :
  Closes policy d row? (.finished (.error f)) t
  := by
  refine ⟨h, ?_⟩
  rintro _ ⟨⟩

theorem Closes.crashed (h : t.Paid policy) :
  Closes policy d row? .crashed t
  := by
  refine ⟨h, ?_⟩
  rintro _ ⟨⟩

/-- The state of the loop agrees with its calls, with `owed` reloads to come. -/
structure Counted (policy : Policy) (s : State) (t : Transcript applySignature) (owed : Nat) :
    Prop where
  spent_eq : s.spent = spent t
  conflicts_eq : s.conflicts = lost t
  spent_le : s.spent ≤ policy.attempts
  conflicts_le : s.conflicts ≤ policy.conflicts
  paid : reloads t + owed = spent t + lost t + refusals t

/-- It is said truly whether the row replaced was held by another partition. -/
def Truthful (d : Delta) (w : Write) : Prop :=
  w.forced = true ↔ Held d.source.partition w.previous

/-- What holds between two turns of the loop, whatever it has heard. -/
inductive Balanced (policy : Policy) (d : Delta) (row? : Option Row) (s : State)
    (t : Transcript applySignature) : Prop
  /-- The row is to be read again, and this has been paid for. -/
  | due (hseen : s.seen = none) (hcounted : Counted policy s t 1)
      (hlength : t.length ≤ 3 * reloads t + 2) (hflight : ∀ w ∈ s.inFlight, Truthful d w) :
      Balanced policy d row? s t
  /-- The row remembered is the one last read. -/
  | current {seen? : Option Row} (hseen : s.seen = some seen?) (hcounted : Counted policy s t 0)
      (hlength : t.length ≤ 3 * reloads t) (hread : lastRead t row? = seen?)
      (hflight : ∀ w ∈ s.inFlight, Truthful d w) : Balanced policy d row? s t

section Counted

variable {x : Exchange applySignature} {owed : Nat}

theorem Counted.paid_of_length (h : Counted policy s t owed)
    (hlength : t.length ≤ 3 * reloads t + 2) :
  t.Paid policy
  := by
  obtain ⟨hspent, hconflicts, hspent_le, hconflicts_le, hpaid⟩ := h
  exact ⟨by omega, hlength⟩

/-- Between two turns the state of the loop agrees with its calls, whether or not the row is to be
read again. -/
theorem Balanced.counted (h : Balanced policy d row? s t) :
  ∃ owed, Counted policy s t owed ∧ t.length ≤ 3 * reloads t + 2
  := by
  cases h with
  | due _ hcounted hlength => exact ⟨1, hcounted, hlength⟩
  | current _ hcounted hlength => exact ⟨0, hcounted, Nat.le_add_right_of_le hlength⟩

/-- What holds between two turns, holds of the calls between them. -/
theorem Balanced.paid (h : Balanced policy d row? s t) :
  t.Paid policy
  := by
  obtain ⟨_, hcounted, hlength⟩ := h.counted
  exact hcounted.paid_of_length hlength

/-- One more call is counted. -/
theorem Counted.concat {s' : State} {owed' : Nat} (h : Counted policy s t owed)
    (hspent : s'.spent = s.spent + if x.isWait || x.isLate then 1 else 0)
    (hconflicts : s'.conflicts = s.conflicts + if x.isLost then 1 else 0)
    (hspent_le : s'.spent ≤ policy.attempts) (hconflicts_le : s'.conflicts ≤ policy.conflicts)
    (howed : (if x.isReload then 1 else 0) + owed'
      = owed + (if x.isWait || x.isLate then 1 else 0) + (if x.isLost then 1 else 0)
        + if x.isRefused then 1 else 0) :
  Counted policy s' (t ++ [x]) owed'
  := by
  have hpaid := h.paid
  constructor
  · rw [hspent, h.spent_eq, spent_concat]
  · rw [hconflicts, h.conflicts_eq, lost_concat]
  · exact hspent_le
  · exact hconflicts_le
  · rw [reloads_concat, spent_concat, lost_concat, refusals_concat]
    omega

/-- A call that does not read the row is one more call since the last reload. -/
theorem length_concat_le {n : Nat} (hx : x.isReload = false) (h : t.length ≤ 3 * reloads t + n) :
  (t ++ [x]).length ≤ 3 * reloads (t ++ [x]) + (n + 1)
  := by
  rw [reloads_concat, hx, List.length_append, List.length_singleton]
  exact Nat.succ_le_succ h

/-- A call that reads the row makes up for all calls since the last reload. -/
theorem length_reload_le (hx : x.isReload = true) (h : t.length ≤ 3 * reloads t + 2) :
  (t ++ [x]).length ≤ 3 * reloads (t ++ [x])
  := by
  rw [reloads_concat, hx, List.length_append, List.length_singleton]
  exact Nat.succ_le_succ h

/-- A call that does not read the row keeps within the budgets. -/
theorem Counted.paid_concat (h : Counted policy s t owed) (hx : x.isReload = false)
    (hlength : t.length ≤ 3 * reloads t + 1) :
  Paid (t ++ [x]) policy
  := by
  obtain ⟨hspent, hconflicts, hspent_le, hconflicts_le, hpaid⟩ := h
  refine ⟨?_, length_concat_le hx hlength⟩
  rw [reloads_concat, refusals_concat, hx, if_neg Bool.false_ne_true]
  omega

/-- A call that reads the row keeps within the budgets, if this has been paid for. -/
theorem Counted.paid_reload (h : Counted policy s t 1) (hx : x.isReload = true)
    (hlength : t.length ≤ 3 * reloads t + 2) :
  Paid (t ++ [x]) policy
  := by
  obtain ⟨hspent, hconflicts, hspent_le, hconflicts_le, hpaid⟩ := h
  refine ⟨?_, Nat.le_add_right_of_le (length_reload_le hx hlength)⟩
  rw [reloads_concat, refusals_concat, if_pos hx]
  omega

end Counted

/-! ### The turns -/

/-- After a store call that is not answered, the loop goes on with an attempt less, or ends. -/
theorem retry_abides {e : StoreError} {w? : Option Write} {c : StoreCall} {r : Timed c.Answer}
    {owed : Nat} (h : Counted policy s t owed) (hr : r.result c.name = .error e)
    (howed : (if isReload ⟨.store c policy.deadline, .ok r⟩ then 1 else 0) = owed)
    (hpaid : Paid (t ++ [⟨.store c policy.deadline, .ok r⟩]) policy)
    (hw : ∀ w ∈ w?, Truthful d w) :
  (retry policy s e w?).Abides (Allows policy d row?)
    (Goes (Balanced policy d row?) (Closes policy d row?))
    (t ++ [⟨.store c policy.deadline, .ok r⟩])
  := by
  obtain ⟨hlost, hrefused, -⟩ := of_error policy.deadline hr
  have hlate := isLate_of_error policy.deadline hr
  rw [retry]
  split
  · next hretry =>
      obtain ⟨hretryable, hleft⟩ := hretry
      refine .due rfl (h.concat ?_ ?_ ?_ h.conflicts_le ?_) hpaid.length_le hw
      · simp [hlate, hretryable]
      · simp [hlost]
      · exact Nat.le_of_lt hleft
      · simp [howed, hlate, hretryable, hlost, hrefused]
  · exact Closes.failed hpaid

/-- A turn that reads. -/
theorem read_abides (hcounted : Counted policy s t 1) (hlength : t.length ≤ 3 * reloads t + 2)
    (hflight : ∀ w ∈ s.inFlight, Truthful d w) :
  (read policy d s).Abides (Allows policy d row?)
    (Goes (Balanced policy d row?) (Closes policy d row?)) t
  := by
  rw [read]
  apply abides_store
  · exact hcounted.paid_of_length hlength
  · intro found?
    have hgoon : Balanced policy d row? { s with inFlight := none, seen := some found? }
        (t ++ [⟨.store (.find d.key) policy.deadline, .ok (.answered (.ok found?))⟩]) := by
      apply Balanced.current rfl
      · exact hcounted.concat rfl rfl hcounted.spent_le hcounted.conflicts_le rfl
      · exact length_reload_le rfl hlength
      · rw [lastRead_concat]
        rfl
      · rintro _ ⟨⟩
    dsimp only
    split
    · next w row hw =>
        split
        · exact Closes.ended hgoon.paid (.applied (hflight w hw))
        · exact hgoon
    · exact hgoon
  · intro r e hr
    exact retry_abides hcounted hr rfl (hcounted.paid_reload rfl hlength) hflight
  · intro f
    exact Closes.crashed (hcounted.paid_reload rfl hlength)

/-- A turn that makes the first row. -/
theorem insert_abides (hcounted : Counted policy s t 0) (hlength : t.length ≤ 3 * reloads t)
    (hflight : ∀ w ∈ s.inFlight, Truthful d w) :
  (insert policy d s).Abides (Allows policy d row?)
    (Goes (Balanced policy d row?) (Closes policy d row?)) t
  := by
  have hwrite : ∀ w ∈ some (⟨d.key, none, 0, false⟩ : Write), Truthful d w := by
    rintro _ ⟨⟩
    simp [Truthful, Held]
  have hpaid : ∀ r, Paid (t ++ [⟨.store (.insert (Row.ofDelta d)) policy.deadline, r⟩]) policy :=
    fun _ => hcounted.paid_concat rfl (Nat.le_succ_of_le hlength)
  rw [insert]
  apply abides_store
  · exact hcounted.paid_of_length (Nat.le_add_right_of_le hlength)
  · rintro (_ | _)
    · apply Balanced.due rfl
      · exact hcounted.concat rfl rfl hcounted.spent_le hcounted.conflicts_le rfl
      · exact (hpaid _).length_le
      · exact hflight
    · exact Closes.ended (hpaid _) (.applied (hwrite _ rfl))
  · intro r e hr
    exact retry_abides hcounted hr rfl (hpaid _) hwrite
  · intro f
    exact Closes.crashed (hpaid _)

/-- A turn that replaces the row read, if it may. -/
theorem replace_abides {row : Row} {forced : Bool} (hcounted : Counted policy s t 0)
    (hlength : t.length ≤ 3 * reloads t + 1) (hflight : ∀ w ∈ s.inFlight, Truthful d w)
    (hforced : forced = true ↔ Held d.source.partition (some row))
    (hwarranted : ∀ row', row.apply d = .ok row' →
      Warranted policy d row? t row' row.version) :
  (replace policy d s row forced).Abides (Allows policy d row?)
    (Goes (Balanced policy d row?) (Closes policy d row?)) t
  := by
  have hbefore := hcounted.paid_of_length (Nat.le_succ_of_le hlength)
  rw [replace]
  cases hupdated : row.apply d with
  | error o => exact Closes.crashed hbefore
  | ok row' =>
      have hwrite : ∀ w ∈ some (⟨d.key, some row, row'.version, forced⟩ : Write),
          Truthful d w := by
        rintro _ ⟨⟩
        exact hforced
      have hpaid : ∀ r, Paid (t ++ [⟨.store (.update row' row.version) policy.deadline, r⟩])
          policy := fun _ => hcounted.paid_concat rfl hlength
      change (store policy (.update row' row.version) >>= _).Abides _ _ _
      apply abides_store
      · exact ⟨hbefore, hwarranted row' hupdated⟩
      · rintro (_ | _)
        · have hconflicts := hcounted.conflicts_eq
          have hconflicts_le := hcounted.conflicts_le
          dsimp only
          split
          · next hmany =>
              have hlast : s.conflicts = policy.conflicts := by omega
              rw [hlast]
              apply Closes.ended (hpaid _)
              apply Justified.conflicts
              rw [lost_concat, ← hconflicts, hlast]
              rfl
          · next hmany =>
              apply Balanced.due rfl
              · exact hcounted.concat rfl rfl hcounted.spent_le (Nat.le_of_not_lt hmany) rfl
              · exact (hpaid _).length_le
              · exact hflight
        · exact Closes.ended (hpaid _) (.applied (hwrite _ rfl))
      · intro r e hr
        exact retry_abides hcounted hr rfl (hpaid _) hwrite
      · intro f
        exact Closes.crashed (hpaid _)

/-- A turn that waits for a held row, writes over it or gives it up. -/
theorem contend_abides {row : Row} (hcounted : Counted policy s t 0)
    (hlength : t.length ≤ 3 * reloads t) (hread : lastRead t row? = some row)
    (hflight : ∀ w ∈ s.inFlight, Truthful d w) (hheld : Held d.source.partition (some row)) :
  (contend policy d s row).Abides (Allows policy d row?)
    (Goes (Balanced policy d row?) (Closes policy d row?)) t
  := by
  have hbefore := hcounted.paid_of_length (Nat.le_add_right_of_le hlength)
  have hpaid : ∀ x : Exchange applySignature, x.isReload = false → Paid (t ++ [x]) policy :=
    fun _ hx => hcounted.paid_concat hx (Nat.le_succ_of_le hlength)
  rw [contend]
  split
  · next hleft =>
      refine ⟨hbefore, ?_, fun f => Closes.crashed (hpaid _ rfl)⟩
      intro _
      apply Balanced.due rfl
      · exact hcounted.concat rfl rfl hleft hcounted.conflicts_le rfl
      · exact (hpaid _ rfl).length_le
      · exact hflight
  · next hleft =>
      have hspent : spent t = policy.attempts := by
        rw [← hcounted.spent_eq]
        exact Nat.le_antisymm hcounted.spent_le (Nat.le_of_not_lt hleft)
      refine ⟨hbefore, ?_, fun f => Closes.crashed (hpaid _ rfl)⟩
      rintro (e | committed)
      · exact Closes.failed (hpaid _ rfl)
      · change (if _ then _ else _ : Step).Abides _ _ _
        split
        · next hallows =>
            apply replace_abides
            · exact hcounted.concat rfl rfl hcounted.spent_le hcounted.conflicts_le rfl
            · exact length_concat_le rfl hlength
            · exact hflight
            · simpa using hheld
            · intro row' hrow'
              exact .forced hread hheld hspent rfl hallows hrow' rfl
        · next hallows =>
            apply Closes.ended (hpaid _ rfl)
            exact .stalled hread hheld hspent rfl (by simpa using hallows)

/-- Every turn keeps within the budgets. -/
theorem turn_abides (h : Balanced policy d row? s t) :
  (turn policy d s).Abides (Allows policy d row?)
    (Goes (Balanced policy d row?) (Closes policy d row?)) t
  := by
  rw [turn]
  cases h with
  | due hseen hcounted hlength hflight =>
      rw [hseen]
      exact read_abides hcounted hlength hflight
  | @current seen? hseen hcounted hlength hread hflight =>
      rw [hseen]
      cases seen? with
      | none => exact insert_abides hcounted hlength hflight
      | some row =>
          dsimp only [Standing.of]
          by_cases hopen : row.settled ∨ row.SameOrigin d.source
          · have hheld : ¬ Held d.source.partition (some row) := by
              rintro ⟨hsettled, horigin⟩
              exact hopen.elim hsettled horigin
            simp only [hopen, if_true]
            split
            · next hreflects =>
                apply Closes.ended (hcounted.paid_of_length (Nat.le_add_right_of_le hlength))
                exact .alreadyApplied hread hreflects
            · next hnew =>
                apply replace_abides hcounted (Nat.le_succ_of_le hlength) hflight
                · simpa using hheld
                · intro row' hrow'
                  exact .open hread hopen hnew hrow' rfl
          · simp only [hopen, if_false]
            apply contend_abides hcounted hlength hread hflight
            exact ⟨fun h => hopen (.inl h), fun h => hopen (.inr h)⟩

end Apply

/-! ### Whole loops -/

variable {policy : Policy} {d : Delta} {row? : Option Row} {t : Transcript applySignature}
  {task : Task}

/-- At any time, a loop keeps within its budgets. -/
theorem Task.Path.keeps
    (h : Task.Path transcribed policy ⟨d, row?⟩ ([], Task.start policy ⟨d, row?⟩) (t, task)) :
  task.Abides (Apply.Allows policy d row?) (Apply.Balanced policy d row?)
    (Apply.Closes policy d row?) t
  := by
  apply h.abides
  · intro s t
    exact Apply.turn_abides
  · exact .current rfl ⟨rfl, rfl, Nat.zero_le _, Nat.zero_le _, rfl⟩ (Nat.le_refl 0) rfl nofun

/-- Whatever it hears, a loop reads the row again only for what it has used up or been refused,
and makes few calls each time. -/
theorem Task.Path.paid
    (h : Task.Path transcribed policy ⟨d, row?⟩ ([], Task.start policy ⟨d, row?⟩) (t, task)) :
  t.Paid policy
  := by
  have hkeeps := h.keeps
  cases task with
  | ended e => exact hkeeps.1
  | running p =>
      cases p with
      | done turn =>
          cases turn with
          | again s => exact Apply.Balanced.paid hkeeps
          | stop r => exact hkeeps.1
      | crash f => exact hkeeps.1
      | call c next =>
          obtain ⟨hallows, -⟩ := hkeeps
          rcases c with (_ | _ | _ | ⟨row', expected⟩ | _ | _) | _ | _
          case update => exact hallows.1
          all_goals exact hallows

/-- Whatever a loop hears, its counters are within their bounds between two turns. -/
theorem Task.Path.counters_le {s : Apply.State}
    (h : Task.Path transcribed policy ⟨d, row?⟩ ([], Task.start policy ⟨d, row?⟩)
      (t, .running (.done (.again s)))) :
  s.spent ≤ policy.attempts ∧ s.conflicts ≤ policy.conflicts
  := by
  have hkeeps : Apply.Balanced policy d row? s t := h.keeps
  obtain ⟨_, hcounted, -⟩ := hkeeps.counted
  exact ⟨hcounted.spent_le, hcounted.conflicts_le⟩

/-- Whatever a loop hears, every write over a row is warranted by what it has heard before, and
so is its end, unless it fails. -/
theorem Task.Path.warranted
    (h : Task.Path transcribed policy ⟨d, row?⟩ ([], Task.start policy ⟨d, row?⟩) (t, task)) :
  (∀ row' expected deadline next,
      task = .running (.call (.store (.update row' expected) deadline) next) →
        Warranted policy d row? t row' expected) ∧
    ∀ ending, task = .ended (.finished (.ok ending)) → Justified policy d row? t ending
  := by
  have hkeeps := h.keeps
  constructor
  · rintro row' expected deadline next rfl
    exact hkeeps.1.2
  · rintro ending rfl
    exact hkeeps.2 ending rfl

/-! ### A row that is taken over -/

namespace Batch

/-- The loop waits once, finds the row held as before and hears that its holder has moved on. -/
def movedOn : Transcript applySignature :=
  [⟨.wait 30, .ok ()⟩,
    ⟨.store (.find receiver) 5000, .ok (.answered (.ok (some heldReceiver)))⟩,
    ⟨.latestOffset away, .ok (.ok (some 5))⟩]

/-- The loop that hears so goes on to replace the row. -/
theorem path_movedOn :
  Task.Path transcribed hasty ⟨credit, some heldReceiver⟩
    ([], Task.start hasty ⟨credit, some heldReceiver⟩)
    (movedOn, .running (Apply.replace hasty credit { spent := 1, seen := some (some heldReceiver) }
      heldReceiver true))
  := by
  have hwaited : Task.Path transcribed hasty ⟨credit, some heldReceiver⟩
      ([], Task.start hasty ⟨credit, some heldReceiver⟩)
      (movedOn.take 1, .running (Apply.turn hasty credit { spent := 1, seen := none })) := by
    apply Task.path_of_exec (r := .ok (.again { spent := 1, seen := none }))
    exact .answered (a := ()) rfl (.done _ _)
  have hread : Task.Path transcribed hasty ⟨credit, some heldReceiver⟩
      (movedOn.take 1, .running (Apply.turn hasty credit { spent := 1, seen := none }))
      (movedOn.take 2,
        .running (Apply.turn hasty credit { spent := 1, seen := some (some heldReceiver) })) := by
    apply Task.path_of_exec (r := .ok (.again { spent := 1, seen := some (some heldReceiver) }))
    exact .answered (a := Timed.answered (.ok (some heldReceiver))) rfl (.done _ _)
  apply (hwaited.trans hread).tail
  exact .answered (c := .latestOffset away) (a := Except.ok (some 5)) rfl

/-- The write over the held row is warranted by what the oracle has said. -/
theorem takeover_warranted :
  Task.Path transcribed hasty ⟨credit, some heldReceiver⟩
      ([], Task.start hasty ⟨credit, some heldReceiver⟩)
      (movedOn, .running (Apply.replace hasty credit
        { spent := 1, seen := some (some heldReceiver) } heldReceiver true)) ∧
    Held home (some heldReceiver) ∧
    Warranted hasty credit (some heldReceiver) movedOn paidReceiver 0
  := ⟨path_movedOn, by decide, path_movedOn.warranted.1 paidReceiver 0 5000 _ rfl⟩

end Batch

end ChainLedger
