import ChainLedger.Proofs.Course
import ChainLedger.Proofs.Passes

/-!
# After the loops, in any order

From the results of its loops on, a batch is a single program.  If the results come in another
order, then so do the writes to be put back and the rows to be settled.  But no address comes twice
among them, so the batch concludes as before: with the same cells, the same acknowledgment and the
same outcome, up to the order of the lists in it.
-/

namespace ChainLedger

open Prog

/-- The same outcome, up to the order of its lists. -/
inductive Outcome.Alike : Outcome → Outcome → Prop
  | empty : Alike .empty .empty
  | committed {b : Bounds} {applied applied' finalized finalized' left left' : List Address}
      (happlied : applied.Perm applied') (hfinalized : finalized.Perm finalized')
      (hleft : left.Perm left') :
      Alike (.committed b applied finalized left) (.committed b applied' finalized' left')
  | reverted {b : Bounds} {locked locked' restored restored' : List Address}
      (hlocked : locked.Perm locked') (hrestored : restored.Perm restored') :
      Alike (.reverted b locked restored) (.reverted b locked' restored')

namespace Batch

/-- Both batches fail, or both have the same outcome up to the order of its lists. -/
inductive Alike : Except Failure Outcome → Except Failure Outcome → Prop
  | failed (e e' : Failure) : Alike (.error e) (.error e')
  | ended {o o' : Outcome} (h : o.Alike o') : Alike (.ok o) (.ok o')

variable {policy : Policy} {b : Bounds}

/-! ### One address -/

/-- Puts one row back, and says whether that succeeded. -/
def restored (policy : Policy) (w : Write) : Step Bool := do
  match ← restore policy w with
  | .ok yes => return yes
  | .error _ => return false

/-- Settles one row, and says whether that succeeded; if not, the observers are told. -/
def settled (policy : Policy) (topic : String) (rows : Table Address Row) (t : Target) :
    Step Bool := do
  if ← settle policy rows t then return true
  else
    tell (.finalizeFailure topic)
    return false

/-- To put rows back is a pass over the writes. -/
theorem restoreAll_eq_sift (ws : List Write) :
  restoreAll policy ws = sift (restored policy) ws >>= fun x => pure (x.1.map (·.key))
  := by
  induction ws with
  | nil => rfl
  | cons w ws ih =>
      rw [restoreAll, sift, restored, LawfulMonad.bind_assoc, LawfulMonad.bind_assoc]
      congr 1
      funext r
      rw [ih]
      rcases r with e | (_ | _)
      · simp
      · simp
      · simp

/-- To settle rows is a pass over the targets. -/
theorem settleAll_eq_sift (topic : String) (rows : Table Address Row) (ts : List Target) :
  settleAll policy topic rows ts = sift (settled policy topic rows) ts >>=
    fun x => pure (x.1.map (·.key), x.2.map (·.key))
  := by
  induction ts with
  | nil => rfl
  | cons t ts ih =>
      rw [settleAll, sift, settled, LawfulMonad.bind_assoc, LawfulMonad.bind_assoc]
      congr 1
      funext yes
      rw [ih]
      cases yes with
      | false => simp
      | true => simp

/-- A row is put back by calls for its address only. -/
theorem keepsTo_restored {w : Write} (h : ∀ row ∈ w.previous, row.key = w.key) :
  KeepsTo w.key (restored policy w)
  := by
  apply keepsTo_bind
  · rw [restore]
    cases hrow : w.previous with
    | some row => exact keepsTo_store (congrArg some (h row hrow))
    | none =>
        dsimp only
        rw [removeOwn]
        apply keepsTo_bind (keepsTo_store rfl)
        intro a
        rcases a with e | (_ | row)
        · trivial
        · trivial
        · change KeepsTo _ (if _ then _ else _)
          split
          · apply keepsTo_bind (keepsTo_store rfl)
            intro a
            rcases a with e | _
            · trivial
            · trivial
          · trivial
  · intro a
    rcases a with e | yes
    · trivial
    · trivial

/-- A row is settled by a call for its address only. -/
theorem keepsTo_settled (topic : String) (rows : Table Address Row) (t : Target) :
  KeepsTo t.key (settled policy topic rows t)
  := by
  apply keepsTo_bind
  · rw [settle]
    split
    · apply keepsTo_bind (keepsTo_store rfl)
      intro a
      rcases a with e | done
      · trivial
      · trivial
    · trivial
  · intro yes
    cases yes with
    | true => trivial
    | false => exact ⟨trivial, fun _ => trivial⟩

/-! ### The results -/

variable {carried : List Target} {results results' : List Apply.Result}

/-- The lists that a batch goes through after its loops name no address twice, and a row that was
replaced is one of the address written. -/
structure Separate (carried : List Target) (results : List Apply.Result) : Prop where
  previous : ∀ w ∈ writes results, ∀ row ∈ w.previous, row.key = w.key
  writes : ((writes results).map (·.key)).Nodup
  targets : ((carried ++ targets results).map (·.key)).Nodup

theorem endings_perm (h : results.Perm results') :
  (endings results).Perm (endings results')
  := h.filterMap _

theorem writes_perm (h : results.Perm results') :
  (writes results).Perm (writes results')
  := (endings_perm h).filterMap _

theorem lockeds_perm (h : results.Perm results') :
  (lockeds results).Perm (lockeds results')
  := (endings_perm h).filterMap _

theorem targets_perm (h : results.Perm results') :
  (targets results).Perm (targets results')
  := (endings_perm h).filterMap _

theorem Separate.perm (h : Separate carried results) (hperm : results.Perm results') :
  Separate carried results'
  := by
  constructor
  · exact fun w hw => h.previous w ((writes_perm hperm).mem_iff.mpr hw)
  · exact ((writes_perm hperm).map _).nodup_iff.mp h.writes
  · exact (((targets_perm hperm).append_left carried).map _).nodup_iff.mp h.targets

/-- There is no failure if every loop has an ending. -/
theorem firstFailure_eq_none_iff :
  firstFailure? results = none ↔ ∀ r ∈ results, ∃ e, r = .ok e
  := by
  constructor
  · exact ended_of_firstFailure
  · intro h
    cases hfirst : firstFailure? results with
    | none => rfl
    | some f =>
        obtain ⟨r, hr, rfl⟩ := exists_of_firstFailure hfirst
        obtain ⟨e, he⟩ := h _ hr
        cases he

/-- Whether there is a failure does not depend on the order. -/
theorem firstFailure_perm (h : results.Perm results') :
  firstFailure? results = none ↔ firstFailure? results' = none
  := by
  rw [firstFailure_eq_none_iff, firstFailure_eq_none_iff]
  constructor
  · exact fun hended r hr => hended r (h.mem_iff.mpr hr)
  · exact fun hended r hr => hended r (h.mem_iff.mp hr)

/-! ### The calls -/

variable {κ Λ : Type} {C : Cells κ Λ} {size size' : Nat} {s : Stand κ Λ}

theorem answered_of_heard {c : StoreCall} {r : Except Fault (Timed c.Answer)} {a : c.Answer}
    (h : heard r = .ok (.ok a)) :
  r = .ok (.answered (.ok a))
  := by
  rcases r with f | (e | a') | _
  · cases h
  · cases h
  · cases h
    rfl
  · cases h

/-- A store call of a batch. -/
theorem exec_store_iff {c : StoreCall} {r : Except Fault (Except StoreError c.Answer)}
    {t : Stand κ Λ} :
  Exec (C.Batches size) s (store policy c) r t
    ↔ r = heard (C.call s.cells c).2 ∧ t = { s with cells := (C.call s.cells c).1 }
  := by
  rcases hcall : C.call s.cells c with ⟨cells, f | a⟩
  · exact Cells.exec_store_of_error hcall
  · rw [store, Cells.exec_store_of_ok hcall]
    constructor
    · rintro ⟨⟩
      exact ⟨rfl, rfl⟩
    · rintro ⟨rfl, rfl⟩
      exact .done _ _

theorem pairs_tell {e : Event} :
  C.Pairs size size' s (tell e) (tell e) fun _ _ => True
  := by
  apply matches_ask
  rintro _ _ _ _ ⟨⟩ ⟨⟩
  exact .ended trivial

/-- To tell the observers the same several times changes nothing. -/
theorem of_exec_tellAll {α : Type} {l : List α} {e : Event} {r : Except Fault PUnit}
    {t : Stand κ Λ} (h : Exec (C.Batches size) s (l.forM fun _ => tell e) r t) :
  r = .ok ⟨⟩ ∧ t = s
  := by
  induction l generalizing r t with
  | nil =>
      cases h
      exact ⟨rfl, rfl⟩
  | cons a l ih =>
      rcases exec_bind_iff.mp h with ⟨f, htell, rfl⟩ | ⟨_, s', htell, hrest⟩
      · cases exec_ask_iff.mp htell
      · cases exec_ask_iff.mp htell
        exact ih hrest

theorem pairs_tellAll {α : Type} {l l' : List α} {e : Event} :
  C.Pairs size size' s (l.forM fun _ => tell e) (l'.forM fun _ => tell e) fun _ _ => True
  := by
  intro r t r' t' h h'
  obtain ⟨rfl, rfl⟩ := of_exec_tellAll h
  obtain ⟨rfl, rfl⟩ := of_exec_tellAll h'
  exact .ended trivial

/-- The rows of the same addresses are the same, in whatever order they are asked for. -/
theorem pairs_findAll {keys keys' : List Address} (h : ∀ key, key ∈ keys ↔ key ∈ keys') :
  C.Pairs size size' s (store policy (.findAll keys)) (store policy (.findAll keys'))
    fun a a' => a = a' ∧ ∀ rows, a = .ok rows → Keyed rows
  := by
  intro r t r' t' h₁ h₂
  obtain ⟨rfl, rfl⟩ := exec_store_iff.mp h₁
  obtain ⟨rfl, rfl⟩ := exec_store_iff.mp h₂
  rcases hfind : C.findAll s.cells keys with ⟨cells, a⟩
  have hcall : C.call s.cells (.findAll keys) = (cells, a) := hfind
  have hcall' : C.call s.cells (.findAll keys') = (cells, a) :=
    (C.findAll_congr s.cells keys keys' h).symm.trans hfind
  rw [hcall, hcall']
  rcases a with f | (e | rows) | _
  · exact .stopped (Cells.akin_refl _)
  · refine .ended ⟨rfl, ?_⟩
    rintro _ ⟨⟩
  · refine .ended ⟨rfl, ?_⟩
    rintro _ ⟨⟩
    exact C.keyed_of_findAll hfind
  · refine .ended ⟨rfl, ?_⟩
    rintro _ ⟨⟩

theorem pairs_acknowledge :
  C.Pairs size size' s (Prog.ask (S := batchSignature) (.acknowledge b))
    (Prog.ask (S := batchSignature) (.acknowledge b)) Eq
  := by
  apply matches_ask
  intro r t r' t' h h'
  cases h with
  | acknowledged h =>
      cases h' with
      | acknowledged h' =>
          cases h.symm.trans h'
          cases r with
          | error f => exact .stopped (Cells.akin_refl _)
          | ok a => exact .ended rfl

/-! ### Undoing -/

theorem pairs_restoreAll {ws ws' : List Write}
    (hprevious : ∀ w ∈ ws, ∀ row ∈ w.previous, row.key = w.key) (hnodup : (ws.map (·.key)).Nodup)
    (hperm : ws.Perm ws') :
  C.Pairs size size' s (restoreAll policy ws) (restoreAll policy ws') List.Perm
  := by
  rw [restoreAll_eq_sift, restoreAll_eq_sift]
  apply (Cells.pairs_sift (fun w hw => keepsTo_restored (hprevious w hw)) hnodup hperm).bind
  rintro x x' t ⟨hrestored, -⟩
  exact matches_done (hrestored.map _)

theorem pairs_undo {locked locked' : List Address} {ws ws' : List Write}
    (hprevious : ∀ w ∈ ws, ∀ row ∈ w.previous, row.key = w.key) (hnodup : (ws.map (·.key)).Nodup)
    (hlocked : locked.Perm locked') (hperm : ws.Perm ws') :
  C.Pairs size size' s (undo policy b locked ws) (undo policy b locked' ws') Outcome.Alike
  := by
  rw [undo, undo]
  apply pairs_tell.bind
  intro _ _ _ _
  apply (pairs_restoreAll hprevious hnodup hperm).bind
  intro restored restored' _ hrestored
  apply pairs_tell.bind
  intro _ _ _ _
  apply pairs_tell.bind
  intro _ _ _ _
  exact matches_done (.reverted hlocked hrestored)

/-! ### Settling -/

theorem pairs_settleAll {topic : String} {rows : Table Address Row} {ts ts' : List Target}
    (hnodup : (ts.map (·.key)).Nodup) (hperm : ts.Perm ts') :
  C.Pairs size size' s (settleAll policy topic rows ts) (settleAll policy topic rows ts')
    fun x x' => x.1.Perm x'.1 ∧ x.2.Perm x'.2
  := by
  rw [settleAll_eq_sift, settleAll_eq_sift]
  apply (Cells.pairs_sift (fun t _ => keepsTo_settled topic rows t) hnodup hperm).bind
  rintro x x' t ⟨hsettled, hleft⟩
  exact matches_done ⟨hsettled.map _, hleft.map _⟩

theorem pairs_finalize {ts ts' : List Target} (hnodup : (ts.map (·.key)).Nodup)
    (hperm : ts.Perm ts') :
  C.Pairs size size' s (finalize policy b ts) (finalize policy b ts')
    fun x x' => x.1.Perm x'.1 ∧ x.2.Perm x'.2
  := by
  rw [finalize, finalize, ← hperm.isEmpty_eq]
  split
  · exact matches_done ⟨.refl _, .refl _⟩
  · have hkeys : (ts.map (·.key)).Perm (ts'.map (·.key)) := hperm.map _
    apply (pairs_findAll fun key => hkeys.mem_iff).bind
    rintro a _ t ⟨rfl, -⟩
    rcases a with e | rows
    · apply pairs_tellAll.bind
      intro _ _ _ _
      exact matches_done ⟨.refl _, hkeys⟩
    · apply pairs_tell.bind
      intro _ _ _ _
      apply (pairs_settleAll hnodup hperm).bind
      intro x x' t hx
      apply pairs_tell.bind
      intro _ _ _ _
      exact matches_done hx

theorem pairs_commit {ws ws' : List Write} {ts ts' : List Target}
    (hnodup : (ts.map (·.key)).Nodup) (hws : ws.Perm ws') (hts : ts.Perm ts') :
  C.Pairs size size' s (commit policy b ws ts) (commit policy b ws' ts') Alike
  := by
  rw [commit, commit]
  apply pairs_acknowledge.bind
  rintro a _ t rfl
  rcases a with e | _
  · exact matches_done (.failed _ _)
  · apply pairs_tell.bind
    intro _ _ _ _
    apply pairs_tell.bind
    intro _ _ _ _
    apply (pairs_finalize hnodup hts).bind
    rintro x x' t ⟨hsettled, hleft⟩
    apply pairs_tell.bind
    intro _ _ _ _
    exact matches_done (.ended (.committed (hws.map _) hsettled hleft))

/-- A batch concludes in the same way, in whatever order the results of its loops come. -/
theorem pairs_conclude (h : Separate carried results) (hperm : results.Perm results') :
  C.Pairs size size' s (conclude policy b carried results) (conclude policy b carried results')
    Alike
  := by
  rw [conclude, conclude]
  apply pairs_tellAll.bind
  intro _ _ _ _
  have hfailure := firstFailure_perm hperm
  cases hfirst : firstFailure? results with
  | some f =>
      cases hfirst' : firstFailure? results' with
      | some f' => exact matches_done (.failed f f')
      | none => cases hfirst.symm.trans (hfailure.mpr hfirst')
  | none =>
      rw [hfailure.mp hfirst]
      have hlocked : (lockeds results).Perm (lockeds results') := lockeds_perm hperm
      dsimp only
      split
      -- the lists of locked addresses are both empty, or neither is
      · next hfree =>
          have hfree' : lockeds results' = [] := by
            rw [lockeds, endings, hfree] at hlocked
            exact hlocked.symm.eq_nil
          rw [lockeds, endings] at hfree'
          rw [hfree']
          exact pairs_commit h.targets (writes_perm hperm) ((targets_perm hperm).append_left _)
      · next hstuck =>
          have hstuck' : lockeds results' ≠ [] := by
            intro hfree'
            rw [hfree'] at hlocked
            exact hstuck hlocked.eq_nil
          split
          · next hfree' => exact absurd hfree' hstuck'
          · apply (pairs_undo h.previous h.writes hlocked (writes_perm hperm)).bind
            intro o o' t ho
            exact matches_done (.ended ho)

/-! ### It comes to an end -/

/-- The program makes no call for loops. -/
abbrev Loopless {α : Type} (p : Step α) : Prop := p.Uses (BatchCall.OfKind fun _ => True)

/-- A program without loops comes to an end. -/
theorem Loopless.exists_exec {α : Type} {p : Step α} (h : Loopless p) (s : Stand κ Λ) :
  ∃ r t, Exec (C.Batches size) s p r t
  := by
  apply exists_exec_of_uses _ h s
  intro s c hc
  cases c with
  | accepting => exact ⟨_, _, .accepting s⟩
  | store c deadline => exact ⟨_, _, .store rfl⟩
  | applyAll => exact hc.elim
  | acknowledge b => exact ⟨_, _, .acknowledged rfl⟩
  | tell e => exact ⟨_, _, .told s e⟩

/-- Plain calls start no loops. -/
theorem loopless_plain {α : Type} {p : Step α} (h : p.Uses BatchCall.Plain) :
  Loopless p
  := h.mono fun _ hc => hc.ofKind fun _ _ => trivial

/-- After its loops a batch makes no call for loops. -/
theorem loopless_conclude (carried : List Target) (results : List Apply.Result) :
  Loopless (conclude policy b carried results)
  := uses_conclude (fun _ hc => hc.ofKind fun _ _ => trivial) (fun _ _ => trivial) carried results

end Batch

end ChainLedger
