import ChainLedger.Pool
import ChainLedger.Proofs.Surroundings

/-!
# The apply loop among faults

The loop of one delta, in surroundings that may lose its calls while nobody else
writes its address.  Between two turns the row of the address is the one that the
loop started at, or the one that its lost write left behind; so the loop ends with
the row written, or left alone, and says which unless a call was lost.
-/

namespace ChainLedger

/-- The row that a delta makes of a row, or of none. -/
def Row.written (row? : Option Row) (d : Delta) : Except Overflow Row :=
  match row? with
  | none => .ok (.ofDelta d)
  | some row => row.apply d

/-- The row is in doubt under another partition. -/
def Held (p : Partition) (row? : Option Row) : Prop :=
  match row? with
  | none => False
  | some row => ¬ row.settled ∧ row.source.partition ≠ p

/-- The row is in doubt under another partition, which is not known to have moved on. -/
def Blocked (rule : TakeoverRule) (positions : Partition → Option Nat) (p : Partition)
    (row? : Option Row) : Prop :=
  match row? with
  | none => False
  | some row =>
    Held p (some row) ∧ rule.allows (positions row.source.partition) row.source.offset = false

instance (p : Partition) (row? : Option Row) : Decidable (Held p row?) := by
  cases row? <;> unfold Held <;> infer_instance

instance (rule : TakeoverRule) (positions : Partition → Option Nat) (p : Partition)
    (row? : Option Row) : Decidable (Blocked rule positions p row?) := by
  cases row? <;> unfold Blocked <;> infer_instance

/-- The write of a delta that replaces a row, or makes the first, by another one. -/
def Write.over (row? : Option Row) (d : Delta) (row' : Row) : Write where
  key := d.key
  previous := row?
  version := row'.version
  forced := Held d.source.partition row?

/-- The row written has the delta's position and is in doubt. -/
theorem Row.of_written {row? : Option Row} {d : Delta} {row' : Row}
    (h : Row.written row? d = .ok row') :
  row'.source = d.source ∧ row'.settled = false
  := by
  cases row? with
  | none =>
      cases h
      exact ⟨rfl, rfl⟩
  | some row =>
      obtain ⟨-, -, rfl⟩ := Row.apply_eq_ok_iff.mp h
      exact ⟨rfl, rfl⟩

/-- The row written has the address of the row that it replaces. -/
theorem Row.key_of_written {row? : Option Row} {d : Delta} {row' : Row}
    (hkey : ∀ row ∈ row?, row.key = d.key) (h : Row.written row? d = .ok row') :
  row'.key = d.key
  := by
  cases row? with
  | none =>
      cases h
      rfl
  | some row =>
      obtain ⟨-, -, rfl⟩ := Row.apply_eq_ok_iff.mp h
      exact hkey row rfl

/-- How the calls of an apply loop may be answered; the oracle tells the `positions`. -/
inductive ApplyAnswers (lossy : Prop) (positions : Partition → Option Nat) :
    Surroundings applySignature (Table Address Row)
  | store {rows rows' : Table Address Row} {c : StoreCall} {deadline : Nat}
      {r : Except Fault (Timed c.Answer)} (h : StoreAnswers lossy rows c r rows') :
      ApplyAnswers lossy positions rows (.store c deadline) r rows'
  | position (rows : Table Address Row) (p : Partition) :
      ApplyAnswers lossy positions rows (.latestOffset p) (.ok (.ok (positions p))) rows
  | unavailable (h : lossy) (rows : Table Address Row) (p : Partition)
      {r : Except Fault (Except OracleError (Option Nat))} (hr : Fails r) :
      ApplyAnswers lossy positions rows (.latestOffset p) r rows
  | waited (rows : Table Address Row) (ms : Nat) :
      ApplyAnswers lossy positions rows (.wait ms) (.ok ()) rows

/-- Every call of an apply loop has some answer. -/
theorem exists_applyAnswers (lossy : Prop) (positions : Partition → Option Nat)
    (rows : Table Address Row) (c : ApplyCall) :
  ∃ r rows', ApplyAnswers lossy positions rows c r rows'
  := by
  cases c with
  | store c deadline => exact ⟨_, _, .store .served⟩
  | latestOffset p => exact ⟨_, _, .position rows p⟩
  | wait ms => exact ⟨_, _, .waited rows ms⟩

namespace Apply

open Prog

variable {lossy : Prop} {positions : Partition → Option Nat} {policy : Policy} {d : Delta}
  {rows : Table Address Row} {β : Type}

/-! ### Triples of the calls -/

/-- A program that starts with a store call. -/
theorem ensures_store {c : StoreCall}
    {k : Except StoreError c.Answer → Prog applySignature β}
    {Q : Except Fault β → Table Address Row → Prop}
    (h : AfterStore lossy rows c (Follows (ApplyAnswers lossy positions) k Q)) :
  Ensures (ApplyAnswers lossy positions) rows (store policy c >>= k) Q
  := by
  apply ensures_call
  intro r rows' hcall
  cases hcall with
  | store hcall =>
      have hheard := h.of_answers hcall
      cases r with
      | ok a => exact hheard
      | error f => exact hheard

/-- A program that starts by asking the oracle. -/
theorem ensures_latestOffset {p : Partition}
    {k : Except OracleError (Option Nat) → Prog applySignature β}
    {Q : Except Fault β → Table Address Row → Prop}
    (hknown : Ensures (ApplyAnswers lossy positions) rows (k (.ok (positions p))) Q)
    (hlost : lossy → ∀ r, Fails r → Follows (ApplyAnswers lossy positions) k Q r rows) :
  Ensures (ApplyAnswers lossy positions) rows
    (Prog.ask (S := applySignature) (.latestOffset p) >>= k) Q
  := by
  apply ensures_call
  intro r rows' hcall
  cases hcall with
  | position => exact hknown
  | unavailable hlossy _ _ hr =>
      have hfollows := hlost hlossy r hr
      cases r with
      | ok a => exact hfollows
      | error f => exact hfollows

/-- A program that starts by waiting. -/
theorem ensures_wait {ms : Nat} {k : Unit → Prog applySignature β}
    {Q : Except Fault β → Table Address Row → Prop}
    (h : Ensures (ApplyAnswers lossy positions) rows (k ()) Q) :
  Ensures (ApplyAnswers lossy positions) rows (Prog.ask (S := applySignature) (.wait ms) >>= k) Q
  := by
  apply ensures_call
  intro r rows' hcall
  cases hcall with
  | waited => exact h

/-! ### The invariant -/

variable (lossy positions policy d) in
/-- What holds between two turns of a loop that started at the row `row?`: of its state
and of the row of its address. -/
inductive Between (row? : Option Row) : State → Option Row → Prop
  /-- Nothing is written. -/
  | unwritten {s : State} (hseen : s.seen = none ∨ s.seen = some row?) :
      Between row? s row?
  /-- The delta is written, and the write is still counted as in flight. -/
  | written {s : State} {row' : Row} (hlossy : lossy)
      (hwritten : Row.written row? d = .ok row')
      (hfree : ¬ Blocked policy.takeover positions d.source.partition row?)
      (hseen : s.seen = none) (hflight : s.inFlight = some (Write.over row? d row')) :
      Between row? s (some row')

/-- The loop failed, or was stopped by a fault. -/
def Failed (e : JobEnd Result) : Prop := e = .crashed ∨ ∃ f, e = .finished (.error f)

variable (lossy positions policy d) in
/-- How a loop that started at the row `row?` may end, and the row it leaves. -/
inductive Ends (row? : Option Row) : JobEnd Result → Option Row → Prop
  /-- The row is held by a partition that has not moved on. -/
  | locked {row : Row} (hrow : row? = some row)
      (hblocked : Blocked policy.takeover positions d.source.partition row?) :
      Ends row? (.finished (.ok (.locked d.key
        (.stalledWriter row.source (positions row.source.partition))))) row?
  /-- The delta is written. -/
  | applied {row' : Row} (hwritten : Row.written row? d = .ok row')
      (hfree : ¬ Blocked policy.takeover positions d.source.partition row?) :
      Ends row? (.finished (.ok (.applied (Write.over row? d row')))) (some row')
  /-- The row written would overflow. -/
  | overflowed {o : Overflow} (hwritten : Row.written row? d = .error o)
      (hfree : ¬ Blocked policy.takeover positions d.source.partition row?) :
      Ends row? .crashed row?
  /-- A call was lost, and nothing is written. -/
  | failed {e : JobEnd Result} (hlossy : lossy) (he : Failed e) : Ends row? e row?
  /-- A call was lost, but the delta is written. -/
  | failedWritten {e : JobEnd Result} {row' : Row} (hlossy : lossy) (he : Failed e)
      (hwritten : Row.written row? d = .ok row')
      (hfree : ¬ Blocked policy.takeover positions d.source.partition row?) :
      Ends row? e (some row')

variable (lossy positions policy d) in
/-- What holds after a turn: the loop goes on, or it has ended. -/
def AfterTurn (row? : Option Row) (key : Address) :
    Except Fault (Turn State Result) → Table Address Row → Prop
  | .ok (.again s), rows => Between lossy positions policy d row? s (rows.get? key)
  | .ok (.stop r), rows => Ends lossy positions policy d row? (.finished r) (rows.get? key)
  | .error _, rows => Ends lossy positions policy d row? .crashed (rows.get? key)

variable {row? : Option Row} {s : State}

/-- After a failure that may have left the delta written, the loop goes on or ends. -/
theorem retry_spec {e : StoreError} {w : Option Write} {cell : Option Row}
    (hgo : ∀ s', s'.seen = none → s'.inFlight = w → Between lossy positions policy d row? s' cell)
    (hstop : ∀ e, Failed e → Ends lossy positions policy d row? e cell)
    (hcell : rows.get? d.key = cell) :
  Ensures (ApplyAnswers lossy positions) rows (retry policy s e w)
    (AfterTurn lossy positions policy d row? d.key)
  := by
  subst hcell
  rw [retry]
  split
  · apply ensures_done
    exact hgo _ rfl rfl
  · apply ensures_done
    exact hstop _ (.inr ⟨_, rfl⟩)

/-- A store call fails while nothing is written: the loop goes on or ends. -/
theorem follows_unwritten {α : Type} {k : Except StoreError α → Step} {w : Option Write}
    {r : Except Fault (Except StoreError α)} (hlossy : lossy) (hr : Fails r)
    (hk : ∀ e, k (.error e) = retry policy s e w) (hcell : rows.get? d.key = row?) :
  Follows (ApplyAnswers lossy positions) k (AfterTurn lossy positions policy d row? d.key) r rows
  := by
  apply Follows.of_fails hr
  · intro f
    rw [AfterTurn, hcell]
    exact .failed hlossy (.inl rfl)
  · intro e
    rw [hk]
    apply retry_spec _ _ hcell
    · intro s' hseen hflight
      exact .unwritten (.inl hseen)
    · intro e he
      exact .failed hlossy he

/-- A store call fails when the delta is written: the loop goes on or ends. -/
theorem follows_written {α : Type} {k : Except StoreError α → Step} {row' : Row}
    {r : Except Fault (Except StoreError α)} (hlossy : lossy) (hr : Fails r)
    (hk : ∀ e, k (.error e) = retry policy s e (some (Write.over row? d row')))
    (hcell : rows.get? d.key = some row') (hwritten : Row.written row? d = .ok row')
    (hfree : ¬ Blocked policy.takeover positions d.source.partition row?) :
  Follows (ApplyAnswers lossy positions) k (AfterTurn lossy positions policy d row? d.key) r rows
  := by
  apply Follows.of_fails hr
  · intro f
    rw [AfterTurn, hcell]
    exact .failedWritten hlossy (.inl rfl) hwritten hfree
  · intro e
    rw [hk]
    apply retry_spec _ _ hcell
    · intro s' hseen hflight
      exact .written hlossy hwritten hfree hseen hflight
    · intro e he
      exact .failedWritten hlossy he hwritten hfree

/-- A turn that reads leads from any row between two turns to one. -/
theorem read_spec (hnew : ∀ row ∈ row?, ¬ row.Reflects d.source)
    (h : Between lossy positions policy d row? s (rows.get? d.key)) :
  Ensures (ApplyAnswers lossy positions) rows (read policy d s)
    (AfterTurn lossy positions policy d row? d.key)
  := by
  generalize hcell : rows.get? d.key = cell at h
  rw [read]
  apply ensures_store
  apply AfterStore.of_read (StoreCall.on_find d.key)
  · rw [Follows, hcell]
    cases h with
    | unwritten hseen =>
        rcases hflight : s.inFlight with _ | w
        · apply ensures_done
          rw [AfterTurn, hcell]
          exact .unwritten (.inr rfl)
        · cases row? with
          | none =>
              apply ensures_done
              rw [AfterTurn, hcell]
              exact .unwritten (.inr rfl)
          | some row =>
              have hlanded : ¬ Landed d w row := by
                intro hlanded
                apply hnew row rfl
                rw [Row.Reflects, Row.SameOrigin, hlanded.2]
                exact ⟨rfl, Nat.le_refl _⟩
              dsimp only
              rw [if_neg hlanded]
              apply ensures_done
              rw [AfterTurn, hcell]
              exact .unwritten (.inr rfl)
    | @written row' hlossy hwritten hfree hseen hflight =>
        have hlanded : Landed d (Write.over row? d row') row' :=
          ⟨rfl, (Row.of_written hwritten).1⟩
        rw [hflight]
        dsimp only
        rw [if_pos hlanded]
        apply ensures_done
        rw [AfterTurn, hcell]
        exact .applied hwritten hfree
  · intro hlossy r hr
    cases h with
    | unwritten hseen => exact follows_unwritten hlossy hr (fun _ => rfl) hcell
    | @written row' _ hwritten hfree hseen hflight =>
        have hk : ∀ e, retry policy s e s.inFlight
            = retry policy s e (some (Write.over row? d row')) := by
          intro e
          rw [hflight]
        exact follows_written hlossy hr hk hcell hwritten hfree

/-- What is to be shown after a call that writes the delta. -/
theorem afterWrite {c : StoreCall} {row' : Row} {k : Except StoreError c.Answer → Step}
    {a : c.Answer} (hcell : rows.get? d.key = row?) (hwritten : Row.written row? d = .ok row')
    (hfree : ¬ Blocked policy.takeover positions d.source.partition row?)
    (hc : c.on rows = (rows.insert d.key row', .ok (.ok a)))
    (hanswered : k (.ok a) = finish (.applied (Write.over row? d row')))
    (hlost : ∀ e, k (.error e) = retry policy s e (some (Write.over row? d row'))) :
  AfterStore lossy rows c (Follows (ApplyAnswers lossy positions) k
    (AfterTurn lossy positions policy d row? d.key))
  := by
  have hcell' : (rows.insert d.key row').get? d.key = some row' := by simp
  constructor
  · rw [hc, Follows, hanswered]
    apply ensures_done
    rw [AfterTurn, hcell']
    exact .applied hwritten hfree
  · intro hlossy r hr
    exact follows_unwritten hlossy hr hlost hcell
  · rw [hc]
    intro hlossy r hr
    exact follows_written hlossy hr hlost hcell' hwritten hfree

/-- Making the first row of an address without one ends the loop unless the call is
lost. -/
theorem insert_spec (hrow : row? = none) (hcell : rows.get? d.key = row?) :
  Ensures (ApplyAnswers lossy positions) rows (insert policy d s)
    (AfterTurn lossy positions policy d row? d.key)
  := by
  subst hrow
  rw [insert]
  apply ensures_store
  apply afterWrite hcell rfl id (StoreCall.on_insert_of_none hcell)
  · rfl
  · intro e
    rfl

/-- Replacing a row that may be written ends the loop unless the call is lost. -/
theorem replace_spec {row : Row} (hrow : row? = some row) (hcell : rows.get? d.key = row?)
    (hkey : row.key = d.key)
    (hfree : ¬ Blocked policy.takeover positions d.source.partition row?) :
  Ensures (ApplyAnswers lossy positions) rows
    (replace policy d s row (Held d.source.partition row?))
    (AfterTurn lossy positions policy d row? d.key)
  := by
  subst hrow
  rw [replace]
  cases hupdated : row.apply d with
  | error o =>
      apply ensures_crash
      rw [AfterTurn, hcell]
      exact .overflowed hupdated hfree
  | ok row' =>
      have hwritten : Row.written (some row) d = .ok row' := hupdated
      have hkey' : row'.key = d.key := Row.key_of_written (by simpa using hkey) hwritten
      change Ensures _ _ (store policy (.update row' row.version) >>= _) _
      apply ensures_store
      have hon : (StoreCall.update row' row.version).on rows = _ :=
        StoreCall.on_update_of_version (by rw [hkey']; exact hcell) rfl
      rw [hkey'] at hon
      apply afterWrite hcell hwritten hfree hon
      · rfl
      · intro e
        rfl

/-- A row held by another partition is waited for, then written over or given up. -/
theorem contend_spec {row : Row} (hrow : row? = some row) (hcell : rows.get? d.key = row?)
    (hkey : row.key = d.key) (hheld : Held d.source.partition row?) :
  Ensures (ApplyAnswers lossy positions) rows (contend policy d s row)
    (AfterTurn lossy positions policy d row? d.key)
  := by
  rw [contend]
  split
  · apply ensures_wait
    apply ensures_done
    rw [AfterTurn, hcell]
    exact .unwritten (.inl rfl)
  · apply ensures_latestOffset
    · dsimp only
      split
      · next hallows =>
          have hfree : ¬ Blocked policy.takeover positions d.source.partition row? := by
            subst hrow
            rintro ⟨-, hblocked⟩
            rw [hallows] at hblocked
            cases hblocked
          rw [← decide_eq_true hheld]
          exact replace_spec hrow hcell hkey hfree
      · next hallows =>
          apply ensures_done
          rw [AfterTurn, hcell]
          apply Ends.locked hrow
          subst hrow
          exact ⟨hheld, by simpa using hallows⟩
    · intro hlossy r hr
      apply Follows.of_fails hr
      · intro f
        rw [AfterTurn, hcell]
        exact .failed hlossy (.inl rfl)
      · intro e
        apply ensures_done
        rw [AfterTurn, hcell]
        exact .failed hlossy (.inr ⟨_, rfl⟩)

/-- A turn leads from any row between two turns to one, or to an end. -/
theorem turn_spec (hkey : ∀ row ∈ row?, row.key = d.key)
    (hnew : ∀ row ∈ row?, ¬ row.Reflects d.source)
    (h : Between lossy positions policy d row? s (rows.get? d.key)) :
  Ensures (ApplyAnswers lossy positions) rows (turn policy d s)
    (AfterTurn lossy positions policy d row? d.key)
  := by
  rw [turn]
  cases hseen : s.seen with
  | none => exact read_spec hnew h
  | some seen =>
      -- a row is remembered only while nothing is written, and then it is the row
      have hrow : row? = seen ∧ rows.get? d.key = row? := by
        generalize hcell : rows.get? d.key = cell at h
        cases h with
        | unwritten h =>
            rw [hseen] at h
            simpa [eq_comm] using h
        | written _ _ _ h =>
            rw [hseen] at h
            cases h
      obtain ⟨rfl, hcell⟩ := hrow
      dsimp only
      cases row? with
      | none => exact insert_spec rfl hcell
      | some row =>
          have hkey := hkey row rfl
          have hnew := hnew row rfl
          rw [Standing.of]
          by_cases hopen : row.settled ∨ row.SameOrigin d.source
          · have hheld : ¬ Held d.source.partition (some row) := by
              rintro ⟨hsettled, horigin⟩
              exact hopen.elim hsettled horigin
            simp only [hopen, if_true]
            rw [if_neg hnew, ← decide_eq_false hheld]
            apply replace_spec rfl hcell hkey
            exact fun hblocked => hheld hblocked.1
          · simp only [hopen, if_false]
            apply contend_spec rfl hcell hkey
            exact ⟨fun h => hopen (.inl h), fun h => hopen (.inr h)⟩

end Apply

end ChainLedger
