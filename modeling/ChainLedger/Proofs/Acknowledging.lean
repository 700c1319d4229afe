import ChainLedger.Proofs.Turns

/-!
# The acknowledgment of a batch

Most of what a batch calls are plain calls: it reads and writes the store, and tells the observers.
Only once does it ask whether it is accepted, before anything else, only once does it run loops,
and only once does it acknowledge.  So what every other call keeps holds of a batch up to its
acknowledgment; and what then holds, if all but acknowledgments keep it, holds to its end, which is
that of a committed batch.
-/

namespace ChainLedger

open Prog

/-- The call is one of the store, or tells the observers something. -/
inductive BatchCall.Plain : BatchCall → Prop
  | store (c : StoreCall) (deadline : Nat) : Plain (.store c deadline)
  | tell (e : Event) : Plain (.tell e)

/-- The call acknowledges nothing. -/
def BatchCall.Unacknowledging (c : BatchCall) : Prop := ∀ b, c ≠ .acknowledge b

/-- A plain call acknowledges nothing. -/
theorem BatchCall.Plain.unacknowledging {c : BatchCall} (h : c.Plain) :
  c.Unacknowledging
  := by
  rintro b rfl
  cases h

/-- A plain call does not ask whether the batch is accepted. -/
theorem BatchCall.Plain.ne_accepting {c : BatchCall} (h : c.Plain) :
  c ≠ .accepting
  := by
  rintro rfl
  cases h

namespace Batch

variable {policy : Policy} {b : Batch} {bounds : Bounds}

/-! ### Plain programs -/

theorem plain_store (c : StoreCall) :
  (store policy c).Uses BatchCall.Plain
  := ⟨.store c _, fun _ => trivial⟩

theorem plain_tell (e : Event) :
  (tell e).Uses BatchCall.Plain
  := ⟨.tell e, fun _ => trivial⟩

theorem plain_tellAll {α : Type} (l : List α) (e : Event) :
  (l.forM fun _ => tell e).Uses BatchCall.Plain
  := by
  induction l with
  | nil => trivial
  | cons a l ih => exact uses_bind (plain_tell e) fun _ => ih

theorem plain_restore (w : Write) :
  (restore policy w).Uses BatchCall.Plain
  := by
  rw [restore]
  split
  · exact plain_store _
  · apply uses_bind (plain_store _)
    rintro (e | (_ | row))
    · trivial
    · trivial
    · change Uses _ (if _ then _ else _)
      split
      · apply uses_bind (plain_store _)
        rintro (e | _)
        · trivial
        · trivial
      · trivial

theorem plain_restoreAll (ws : List Write) :
  (restoreAll policy ws).Uses BatchCall.Plain
  := by
  induction ws with
  | nil => trivial
  | cons w ws ih =>
      apply uses_bind (plain_restore w)
      rintro (e | (_ | _))
      · exact ih
      · exact ih
      · exact uses_bind ih fun _ => trivial

/-- A batch is undone by plain calls. -/
theorem plain_undo (locked : List Address) (ws : List Write) :
  (undo policy bounds locked ws).Uses BatchCall.Plain
  := by
  apply uses_bind (plain_tell _)
  intro _
  apply uses_bind (plain_restoreAll ws)
  intro _
  exact uses_bind (plain_tell _) fun _ => uses_bind (plain_tell _) fun _ => trivial

theorem plain_settle (rows : Table Address Row) (t : Target) :
  (settle policy rows t).Uses BatchCall.Plain
  := by
  rw [settle]
  split
  · apply uses_bind (plain_store _)
    rintro (e | done)
    · trivial
    · trivial
  · trivial

theorem plain_settleAll (topic : String) (rows : Table Address Row) (ts : List Target) :
  (settleAll policy topic rows ts).Uses BatchCall.Plain
  := by
  induction ts with
  | nil => trivial
  | cons t ts ih =>
      apply uses_bind (plain_settle rows t)
      rintro (_ | _)
      · exact uses_bind (plain_tell _) fun _ => uses_bind ih fun _ => trivial
      · exact uses_bind ih fun _ => trivial

/-- The rows of a batch are settled by plain calls. -/
theorem plain_finalize (ts : List Target) :
  (finalize policy bounds ts).Uses BatchCall.Plain
  := by
  rw [finalize]
  split
  · trivial
  · apply uses_bind (plain_store _)
    rintro (e | rows)
    · exact uses_bind (plain_tellAll _ _) fun _ => trivial
    · apply uses_bind (plain_tell _)
      intro _
      apply uses_bind (plain_settleAll _ rows ts)
      exact fun _ => uses_bind (plain_tell _) fun _ => trivial

/-! ### Once accepted -/

theorem uses_commit {K : BatchCall → Prop} (hplain : ∀ c, c.Plain → K c)
    (hacknowledge : ∀ b, K (.acknowledge b)) (ws : List Write) (ts : List Target) :
  (commit policy bounds ws ts).Uses K
  := by
  refine ⟨hacknowledge bounds, ?_⟩
  rintro (e | _)
  · trivial
  · apply Uses.mono _ hplain
    apply uses_bind (plain_tell _)
    intro _
    apply uses_bind (plain_tell _)
    intro _
    apply uses_bind (plain_finalize ts)
    exact fun _ => uses_bind (plain_tell _) fun _ => trivial

/-- After its loops, a batch acknowledges and makes plain calls. -/
theorem uses_conclude {K : BatchCall → Prop} (hplain : ∀ c, c.Plain → K c)
    (hacknowledge : ∀ b, K (.acknowledge b)) (carried : List Target)
    (results : List Apply.Result) :
  (conclude policy bounds carried results).Uses K
  := by
  apply uses_bind ((plain_tellAll _ _).mono hplain)
  intro _
  cases firstFailure? results with
  | some e => trivial
  | none =>
      dsimp only
      split
      · apply uses_commit hplain hacknowledge
      · exact uses_bind ((plain_undo _ _).mono hplain) fun _ => trivial

/-- A batch that is accepted does not ask again whether it is. -/
theorem uses_run (policy : Policy) (b : Batch) :
  (run policy b).Uses fun c => c ≠ BatchCall.accepting
  := by
  have hplain : ∀ c : BatchCall, c.Plain → c ≠ .accepting := fun c hc => hc.ne_accepting
  apply uses_bind ((plain_store _).mono hplain)
  rintro (e | rows)
  · trivial
  · apply uses_bind ((plain_tell _).mono hplain)
    intro _
    dsimp only
    apply uses_bind (p := Prog.ofExcept (Merge.batch rows b.deltas))
    · cases Merge.batch rows b.deltas with
      | error o => trivial
      | ok merged => trivial
    · intro merged
      apply uses_bind (p := Prog.ask (S := batchSignature) _) ⟨nofun, fun _ => trivial⟩
      intro ends
      cases JobEnd.collect ends with
      | none => trivial
      | some results =>
          apply uses_bind ((plain_tell _).mono hplain)
          intro _
          exact uses_conclude hplain (fun _ => nofun) _ results

/-! ### Before and after the acknowledgment -/

variable {σ : Type} {A : Surroundings batchSignature σ} {Before : σ → Prop}
  {After : Bounds → σ → Prop} {rs : List Record} {s : σ}

/-- What holds before a batch of the records is acknowledged and what holds after are both kept by
all other calls, and the acknowledgment leads from the one to the other, or fails. -/
structure Brackets (A : Surroundings batchSignature σ) (rs : List Record) (Before : σ → Prop)
    (After : Bounds → σ → Prop) : Prop where
  before : ∀ s c r s', A s c r s' → c.Unacknowledging → Before s → Before s'
  after : ∀ b s c r s', A s c r s' → c.Unacknowledging → After b s → After b s'
  refused : ∀ s b e s', A s (.acknowledge b) (.ok (.error e)) s' → Before s → Before s'
  accepted : ∀ s b s', ofRecords rs = .ok (some b) →
    A s (.acknowledge b.bounds) (.ok (.ok ())) s' → Before s → After b.bounds s'

/-- How the processing of some records ends, and what holds then, unless a fault stops it. -/
inductive Closed (rs : List Record) (Before : σ → Prop) (After : Bounds → σ → Prop) :
    Except Fault (Except Failure Outcome) → σ → Prop
  | committed {b : Batch} {bounds : Bounds} {applied finalized failed : List Address} {s : σ}
      (hrs : ofRecords rs = .ok (some b)) (hb : b.bounds = bounds) (h : After bounds s) :
      Closed rs Before After (.ok (.ok (.committed bounds applied finalized failed))) s
  | reverted {b : Bounds} {locked restored : List Address} {s : σ} (h : Before s) :
      Closed rs Before After (.ok (.ok (.reverted b locked restored))) s
  | empty {s : σ} (hnil : rs = []) (h : Before s) :
      Closed rs Before After (.ok (.ok .empty)) s
  | failed {e : Failure} {s : σ} (h : Before s) : Closed rs Before After (.ok (.error e)) s
  | stopped {f : Fault} {s : σ} : Closed rs Before After (.error f) s

/-- Only if there are no records there is no batch of them. -/
theorem eq_nil_of_ofRecords (h : ofRecords rs = .ok none) :
  rs = []
  := by
  rw [ofRecords] at h
  cases hsorted : rs.mergeSort fun a b => a.offset ≤ b.offset with
  | nil =>
      have hlength : (rs.mergeSort fun a b => a.offset ≤ b.offset).length = rs.length :=
        List.length_mergeSort rs
      rw [hsorted] at hlength
      exact List.length_eq_zero_iff.mp hlength.symm
  | cons first rest =>
      rw [hsorted] at h
      dsimp only at h
      split at h
      · cases h
      · cases h

/-- A plain program keeps what holds before, and what follows may rely on it. -/
theorem Brackets.ensures_plain {α : Type} (h : Brackets A rs Before After) {p : Step α}
    {k : α → Step (Except Failure Outcome)} (hp : p.Uses BatchCall.Plain) (hs : Before s)
    (hk : ∀ a s', Before s' → Ensures A s' (k a) (Closed rs Before After)) :
  Ensures A s (p >>= k) (Closed rs Before After)
  := by
  apply ensures_bind_of_keeps (J := Before) _ hp hs (fun _ _ _ => .stopped) hk
  intro s c r s' hcall hc
  exact h.before s c r s' hcall hc.unacknowledging

/-- From its acknowledgment on, a batch ends as one that is committed, or it fails. -/
theorem Brackets.commit (h : Brackets A rs Before After) (hrs : ofRecords rs = .ok (some b))
    (hs : Before s) (ws : List Write) (ts : List Target) :
  Ensures A s (commit policy b.bounds ws ts) (Closed rs Before After)
  := by
  have hplain : ∀ s c r s', A s c r s' → c.Plain → After b.bounds s → After b.bounds s' :=
    fun s c r s' hcall hc => h.after b.bounds s c r s' hcall hc.unacknowledging
  have hstopped : ∀ f s', After b.bounds s' → Closed rs Before After (.error f) s' :=
    fun _ _ _ => .stopped
  apply ensures_call
  intro r s' hcall
  rcases r with f | (e | _)
  · exact .stopped
  · exact ensures_done (.failed (h.refused s b.bounds e s' hcall hs))
  · have hs' := h.accepted s b s' hrs hcall hs
    apply ensures_bind_of_keeps hplain (plain_tell _) hs' hstopped
    intro _ s₁ hs₁
    apply ensures_bind_of_keeps hplain (plain_tell _) hs₁ hstopped
    intro _ s₂ hs₂
    apply ensures_bind_of_keeps hplain (plain_finalize ts) hs₂ hstopped
    intro _ s₃ hs₃
    apply ensures_bind_of_keeps hplain (plain_tell _) hs₃ hstopped
    intro _ s₄ hs₄
    exact ensures_done (.committed hrs rfl hs₄)

/-- A batch that is undone ends as reverted. -/
theorem Brackets.undo (h : Brackets A rs Before After) (hs : Before s) (locked : List Address)
    (ws : List Write) :
  Ensures A s (undo policy bounds locked ws) fun r s' =>
    Before s' ∧ ∀ o, r = .ok o → ∃ restored, o = .reverted bounds locked restored
  := by
  have hplain : ∀ s c r s', A s c r s' → c.Plain → Before s → Before s' :=
    fun s c r s' hcall hc => h.before s c r s' hcall hc.unacknowledging
  have hstopped : ∀ (f : Fault) s', Before s' → Before s' ∧ ∀ o, Except.error f = .ok o →
      ∃ restored, o = Outcome.reverted bounds locked restored :=
    fun _ _ hs' => ⟨hs', nofun⟩
  refine ensures_bind_of_keeps hplain (plain_tell _) hs hstopped ?_
  intro _ s₁ hs₁
  refine ensures_bind_of_keeps hplain (plain_restoreAll ws) hs₁ hstopped ?_
  intro restored s₂ hs₂
  refine ensures_bind_of_keeps hplain (plain_tell _) hs₂ hstopped ?_
  intro _ s₃ hs₃
  refine ensures_bind_of_keeps hplain (plain_tell _) hs₃ hstopped ?_
  intro _ s₄ hs₄
  apply ensures_done
  refine ⟨hs₄, ?_⟩
  rintro _ ⟨⟩
  exact ⟨restored, rfl⟩

/-- From the results of its loops on, a batch is committed, reverted or fails. -/
theorem Brackets.conclude (h : Brackets A rs Before After) (hrs : ofRecords rs = .ok (some b))
    (hs : Before s) (carried : List Target) (results : List Apply.Result) :
  Ensures A s (conclude policy b.bounds carried results) (Closed rs Before After)
  := by
  apply h.ensures_plain (plain_tellAll _ _) hs
  intro _ s₁ hs₁
  cases firstFailure? results with
  | some e => exact ensures_done (.failed hs₁)
  | none =>
      dsimp only
      split
      · exact h.commit hrs hs₁ _ _
      · apply ensures_bind
        refine (h.undo hs₁ _ _).mono ?_
        rintro (f | o) s₂ ⟨hs₂, hreverted⟩
        · exact .stopped
        · obtain ⟨restored, rfl⟩ := hreverted o rfl
          exact ensures_done (.reverted hs₂)

/-- A call other than an acknowledgment keeps what holds before, and what follows may rely on it. -/
theorem Brackets.ensures_ask (h : Brackets A rs Before After) {c : BatchCall}
    {k : batchSignature.Answer c → Step (Except Failure Outcome)} (hc : c.Unacknowledging)
    (hs : Before s) (hk : ∀ a s', Before s' → Ensures A s' (k a) (Closed rs Before After)) :
  Ensures A s (Prog.ask (S := batchSignature) c >>= k) (Closed rs Before After)
  := ensures_bind_of_keeps (J := Before) (K := BatchCall.Unacknowledging) h.before
    ⟨hc, fun _ => trivial⟩ hs (fun _ _ _ => .stopped) hk

/-- A batch that is accepted is committed, reverted or fails. -/
theorem Brackets.run (h : Brackets A rs Before After) (hrs : ofRecords rs = .ok (some b))
    (hs : Before s) :
  Ensures A s (run policy b) (Closed rs Before After)
  := by
  apply h.ensures_plain (plain_store _) hs
  rintro (e | rows) s₁ hs₁
  · exact ensures_done (.failed hs₁)
  · apply h.ensures_plain (plain_tell _) hs₁
    intro _ s₂ hs₂
    cases hmerged : Merge.batch rows b.deltas with
    | error o => exact ensures_crash .stopped
    | ok merged =>
        apply h.ensures_ask (by rintro b ⟨⟩) hs₂
        intro ends s₃ hs₃
        cases hcollect : JobEnd.collect ends with
        | none => exact ensures_done (.failed hs₃)
        | some results =>
            apply h.ensures_plain (plain_tell _) hs₃
            intro _ s₄ hs₄
            exact h.conclude hrs hs₄ _ results

/-- Processing some records ends as it is said, from the question whether they are accepted on. -/
theorem Brackets.process (h : Brackets A rs Before After) (hs : Before s) :
  Ensures A s (process policy rs) (Closed rs Before After)
  := by
  apply h.ensures_ask (by rintro b ⟨⟩) hs
  intro accepted s₁ hs₁
  cases accepted with
  | false => exact ensures_done (.failed hs₁)
  | true =>
      rw [if_pos rfl]
      rcases hrs : ofRecords rs with e | (_ | b)
      · exact ensures_done (.failed hs₁)
      · exact ensures_done (.empty (eq_nil_of_ofRecords hrs) hs₁)
      · exact h.run hrs hs₁

end Batch

end ChainLedger
