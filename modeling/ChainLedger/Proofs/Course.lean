import ChainLedger.Proofs.Acknowledging
import ChainLedger.Proofs.Calls
import ChainLedger.Proofs.Reference

/-!
# The course of a batch

The calls of a batch, from the fetch of its rows to the last.  What comes after the loops
depends on their ends: nothing if one of them failed, calls that put rows back if one found
its address locked, and else the acknowledgment, with rows settled only once it has succeeded.
-/

namespace ChainLedger

open Prog

/-- Calls of the kind `Q` were recorded. -/
def Adds (Q : List PortCall → Prop) (t t' : List PortCall) : Prop := ∃ u, t' = t ++ u ∧ Q u

/-- The port calls that a call of a batch may stand for are of a kind. -/
def BatchCall.OfKind (K : PortCall → Prop) : BatchCall → Prop
  | .store c _ => ∀ r, K (.store .batch c r)
  | .acknowledge b => ∀ r, K (.acknowledge b r)
  | .applyAll _ _ => False
  | .accepting | .tell _ => True

/-- A plain call stands for calls of the store only. -/
theorem BatchCall.Plain.ofKind {K : PortCall → Prop} (hK : ∀ c r, K (.store .batch c r))
    {c : BatchCall} (h : c.Plain) :
  BatchCall.OfKind K c
  := by
  cases h with
  | store c deadline => exact hK c
  | tell e => trivial

namespace Batch

/-- The call that fetched the rows of the batch. -/
def fetched (b : Batch) (rows : Table Address Row) : PortCall :=
  .store .batch (.findAll b.keys) (.ok (.answered (.ok rows)))

/-- The calls of a batch after its loops have ended. -/
inductive Rest (b : Bounds) (carried : List Target) :
    List (JobEnd Apply.Result) → List PortCall → Prop
  /-- A loop failed or was stopped, and nothing follows. -/
  | failed {ends : List (JobEnd Apply.Result)} (h : ∃ e ∈ ends, Apply.Failed e) :
      Rest b carried ends []
  /-- No loop failed, but one found its address locked; rows written are put back. -/
  | undone {results : List Apply.Result} {u : List PortCall}
      (hended : ∀ r ∈ results, ∃ e, r = .ok e)
      (hlocked : ∃ e, .ok e ∈ results ∧ e.isLocked = true)
      (hcalls : ∀ c ∈ u, c.Restores ((writes results).map (·.key))) :
      Rest b carried (results.map .finished) u
  /-- Every loop applied its delta or found it applied, but the acknowledgment failed. -/
  | refused {results : List Apply.Result} {r : Except Fault (Except LogError Unit)}
      (hended : ∀ r ∈ results, ∃ e, r = .ok e ∧ e.isLocked = false) (hr : r ≠ .ok (.ok ())) :
      Rest b carried (results.map .finished) [.acknowledge b r]
  /-- Every loop applied its delta or found it applied, the acknowledgment succeeded, and
  rows are settled. -/
  | acknowledged {results : List Apply.Result} {u : List PortCall}
      (hended : ∀ r ∈ results, ∃ e, r = .ok e ∧ e.isLocked = false)
      (hcalls : ∀ c ∈ u, c.Settles (carried ++ targets results))
      (hnodup : (u.filterMap PortCall.settled?).Nodup) :
      Rest b carried (results.map .finished) (.acknowledge b (.ok (.ok ())) :: u)

/-- The calls of a batch. -/
inductive Course (policy : Policy) (b : Batch) : List PortCall → Prop
  /-- The rows could not be fetched, and nothing follows. -/
  | unfetched {r : Except Fault (Timed (Table Address Row))} (hr : Unanswered r) :
      Course policy b [.store .batch (.findAll b.keys) r]
  /-- The deltas could not be merged, and nothing follows. -/
  | unmerged {rows : Table Address Row} {o : Overflow}
      (hmerged : Merge.batch rows b.deltas = .error o) : Course policy b [b.fetched rows]
  /-- The loops of all jobs ran to their ends. -/
  | worked {rows : Table Address Row} {merged : Table Address Delta}
      {ends : List (JobEnd Apply.Result)} {u v : List PortCall} (hkeyed : Keyed rows)
      (hmerged : Merge.batch rows b.deltas = .ok merged)
      (hcompletes : Completes recorded.Loops policy (jobs rows merged) [b.fetched rows] ends
        (b.fetched rows :: u))
      (hloops : ∀ c ∈ u, c.ByLoop)
      (hshown : List.Forall₂ (fun j e => ∀ ending, e = .finished (.ok ending) →
        Shown j.delta (b.fetched rows :: u) ending) (jobs rows merged) ends)
      (hrest : Rest b.bounds (b.carriedOver rows merged) ends v) :
      Course policy b (b.fetched rows :: u ++ v)

variable {b : Batch} {policy : Policy} {t t' : List PortCall}

/-! ### The loops -/

/-- The calls of jobs show how these have ended, and are calls of loops. -/
theorem shown_of_completes {jobs : List Job} {ends : List (JobEnd Apply.Result)}
    (hfresh : ∀ j ∈ jobs, j.Fresh) (hnodup : (jobs.map (·.delta.key)).Nodup)
    (h : Completes recorded.Loops policy jobs t ends t') :
  Grown t t' ∧ List.Forall₂ (fun j e => ∀ ending, e = .finished (.ok ending) →
    Shown j.delta t' ending) jobs ends
  := by
  have hrely : Rely recorded.Loops fun _ => Grown := by
    constructor
    · intro _ t
      exact .refl
    · intro _ t t' t'' h h'
      exact h.trans h'
    · intro key key' t c r t' _ habout hcall
      cases hcall with
      | @store _ _ c _ _ hcall =>
          obtain ⟨-, rfl⟩ := hcall
          apply Grown.one
          cases c with
          | find => trivial
          | insert => trivial
          | update => trivial
          | findAll => exact habout.elim
          | remove => exact habout.elim
          | settle => exact habout.elim
      | latestOffset hcall =>
          cases hcall
          exact .one trivial
      | waited => exact .refl
  obtain ⟨hends, hothers⟩ := h.watched (W := fun j => j.calls t) hrely
    (fun j _ => j.sound_calls t) hnodup
    (by
      intro j hj
      refine ⟨⟨.refl, by rintro _ ⟨⟩⟩, ?_⟩
      intro row hrow
      exact ⟨(hfresh j hj).key row hrow, .inl hrow⟩)
  constructor
  · cases hends with
    | nil => exact hothers default (by simp)
    | cons hend _ =>
        cases hend with
        | applied hdone => exact hdone.1
        | alreadyApplied hsent => exact hsent.1
        | locked hsent => exact hsent.1
        | failed _ hsent => exact hsent.1
  · refine ((List.forall₂_and_left _ _).mpr ⟨hfresh, hends⟩).imp ?_
    rintro j e ⟨hfresh, hend⟩ ending rfl
    cases hend with
    | applied hdone => exact hdone.2
    | alreadyApplied _ hseen hreflects =>
        obtain ⟨hkey, hrow | hread⟩ := hseen _ rfl
        · exact absurd hreflects (hfresh.new _ hrow)
        · exact .alreadyApplied hread hkey hreflects
    | locked => exact .locked
    | failed he =>
        rcases he with he | ⟨f, hf⟩
        · cases he
        · cases hf

/-! ### Undoing -/

/-- A program whose port calls are all of a kind records calls of this kind. -/
theorem adds_of_uses {α : Type} {K : PortCall → Prop} {p : Step α}
    (h : p.Uses (BatchCall.OfKind K)) :
  Ensures recorded.Batches t p fun _ => Adds (fun u => ∀ c ∈ u, K c) t
  := by
  induction p generalizing t with
  | done a => exact ensures_done ⟨[], by simp, by simp⟩
  | crash f => exact ensures_crash ⟨[], by simp, by simp⟩
  | call c next ih =>
      obtain ⟨hc, hnext⟩ := h
      have hgoes : ∀ (c' : PortCall) (a : batchSignature.Answer c), K c' →
          Ensures recorded.Batches (t ++ [c']) (next a)
            fun _ => Adds (fun u => ∀ c ∈ u, K c) t := by
        intro c' a hc'
        refine (ih a (hnext a)).mono ?_
        rintro r _ ⟨u, rfl, hu⟩
        exact ⟨c' :: u, by simp, by simpa using ⟨hc', hu⟩⟩
      have hstops : ∀ c' : PortCall, K c' → Adds (fun u => ∀ c ∈ u, K c) t (t ++ [c']) :=
        fun c' hc' => ⟨[c'], rfl, by simpa using hc'⟩
      apply ensures_call
      intro r t' hcall
      cases hcall with
      | accepting _ accepted => exact ih _ (hnext _)
      | @store _ _ c _ r hcall =>
          obtain ⟨-, rfl⟩ := hcall
          cases r with
          | ok a => exact hgoes _ a (hc _)
          | error f => exact hstops _ (hc _)
      | applied => exact hc.elim
      | @acknowledged _ _ b r hcall =>
          cases hcall
          cases r with
          | ok a => exact hgoes _ a (hc _)
          | error f => exact hstops _ (hc _)
      | told => exact ih _ (hnext _)

theorem uses_store {K : PortCall → Prop} {c : StoreCall} (h : ∀ r, K (.store .batch c r)) :
  (store policy c).Uses (BatchCall.OfKind K)
  := ⟨h, fun _ => trivial⟩

/-- Putting rows back makes calls for their addresses only. -/
theorem uses_restoreAll {ws : List Write} {keys : List Address}
    (hprevious : ∀ w ∈ ws, ∀ row ∈ w.previous, row.key = w.key)
    (hkeys : ∀ w ∈ ws, w.key ∈ keys) :
  (restoreAll policy ws).Uses (BatchCall.OfKind (PortCall.Restores keys))
  := by
  induction ws with
  | nil => trivial
  | cons w ws ih =>
      have hrest := ih (fun w' hw' => hprevious w' (.tail _ hw'))
        fun w' hw' => hkeys w' (.tail _ hw')
      have hkey := hkeys w (.head _)
      rw [restoreAll]
      apply uses_bind
      · rw [restore]
        cases hrow : w.previous with
        | some row =>
            apply uses_store
            intro r
            change row.key ∈ keys
            rw [hprevious w (.head _) row hrow]
            exact hkey
        | none =>
            dsimp only
            rw [removeOwn]
            apply uses_bind (uses_store fun _ => hkey)
            intro a
            rcases a with e | (_ | row)
            · trivial
            · trivial
            · change Uses _ (if _ then _ else _)
              split
              · apply uses_bind (uses_store fun _ => hkey)
                intro a
                rcases a with e | _
                · trivial
                · trivial
              · trivial
      · intro a
        rcases a with e | (_ | _)
        · exact hrest
        · exact hrest
        · exact uses_bind hrest fun _ => trivial

/-- Undoing a batch makes calls for the addresses of its writes only. -/
theorem uses_undo {b : Bounds} {locked : List Address} {ws : List Write}
    (hprevious : ∀ w ∈ ws, ∀ row ∈ w.previous, row.key = w.key) :
  (undo policy b locked ws).Uses (BatchCall.OfKind (PortCall.Restores (ws.map (·.key))))
  := by
  refine ⟨trivial, fun _ => ?_⟩
  apply uses_bind (uses_restoreAll hprevious fun w hw => List.mem_map_of_mem hw)
  intro restored
  exact ⟨trivial, fun _ => ⟨trivial, fun _ => trivial⟩⟩

/-! ### Settling -/

/-- Settling one row makes no call but the one that settles it. -/
theorem settle_calls {rows : Table Address Row} {target : Target} :
  Ensures recorded.Batches t (settle policy rows target) fun _ =>
    Adds (fun u => u = [] ∨ ∃ r, u = [.store .batch (.settle target.key target.version) r]) t
  := by
  rw [settle]
  split
  · apply Ports.ensures_store
    rintro r _ ⟨-, rfl⟩
    have hadds : Adds (fun u => u = [] ∨ ∃ r,
        u = [.store .batch (.settle target.key target.version) r]) t
        (t ++ [.store .batch (.settle target.key target.version) r]) :=
      ⟨_, rfl, .inr ⟨r, rfl⟩⟩
    rcases heard r with f | (e | done)
    · exact hadds
    · exact ensures_done hadds
    · exact ensures_done hadds
  · exact ensures_done ⟨[], by simp, .inl rfl⟩

/-- Settling rows makes calls for some of them, in their order. -/
def SettlesInOrder (ts : List Target) (u : List PortCall) : Prop :=
  (∀ c ∈ u, ∃ target ∈ ts, ∃ r, c = .store .batch (.settle target.key target.version) r) ∧
    (u.filterMap PortCall.settled?).Sublist (ts.map (·.key))

/-- One more row was settled, or left alone. -/
theorem SettlesInOrder.cons {target : Target} {ts : List Target} {u v : List PortCall}
    (hu : u = [] ∨ ∃ r, u = [.store .batch (.settle target.key target.version) r])
    (hv : SettlesInOrder ts v) :
  SettlesInOrder (target :: ts) (u ++ v)
  := by
  obtain ⟨hcalls, hkeys⟩ := hv
  have hcalls' : ∀ c ∈ v, ∃ target' ∈ target :: ts, ∃ r,
      c = .store .batch (.settle target'.key target'.version) r := by
    intro c hc
    obtain ⟨target', htarget, hc⟩ := hcalls c hc
    exact ⟨target', .tail _ htarget, hc⟩
  rcases hu with rfl | ⟨r, rfl⟩
  · exact ⟨hcalls', hkeys.cons _⟩
  · constructor
    · intro c hc
      rcases List.mem_cons.mp hc with rfl | hc
      · exact ⟨target, .head _, r, rfl⟩
      · exact hcalls' c hc
    · exact hkeys.cons_cons _

/-- Settling rows one by one settles each at most once. -/
theorem settleAll_calls {topic : String} {rows : Table Address Row} {ts : List Target} :
  Ensures recorded.Batches t (settleAll policy topic rows ts) fun _ => Adds (SettlesInOrder ts) t
  := by
  induction ts generalizing t with
  | nil => exact ensures_done ⟨[], by simp, by simp [SettlesInOrder]⟩
  | cons target ts ih =>
      apply ensures_bind
      refine settle_calls.mono ?_
      rintro r _ ⟨u, rfl, hu⟩
      have hrest : ∀ k : List Address × List Address → Step (List Address × List Address),
          (∀ x, ∃ y, k x = .done y) →
          Ensures recorded.Batches (t ++ u) (settleAll policy topic rows ts >>= k)
            fun _ => Adds (SettlesInOrder (target :: ts)) t := by
        intro k hk
        apply ensures_bind
        refine ih.mono ?_
        rintro r _ ⟨v, rfl, hv⟩
        have hadds : Adds (SettlesInOrder (target :: ts)) t (t ++ u ++ v) :=
          ⟨u ++ v, List.append_assoc .., hv.cons hu⟩
        cases r with
        | error f => exact hadds
        | ok x =>
            obtain ⟨y, hy⟩ := hk x
            rw [Follows, hy]
            exact ensures_done hadds
      rcases r with f | (_ | _)
      · exact ⟨u, rfl, by simpa using SettlesInOrder.cons hu (v := []) (by simp [SettlesInOrder])⟩
      · apply Ports.ensures_tell
        exact hrest _ fun x => ⟨_, rfl⟩
      · exact hrest _ fun x => ⟨_, rfl⟩

/-- The second phase settles rows, each at most once. -/
def Settling (ts : List Target) (u : List PortCall) : Prop :=
  (∀ c ∈ u, c.Settles ts) ∧ (u.filterMap PortCall.settled?).Nodup

theorem SettlesInOrder.settling {ts : List Target} {u : List PortCall}
    (hnodup : (ts.map (·.key)).Nodup) (h : SettlesInOrder ts u) :
  Settling ts u
  := by
  constructor
  · intro c hc
    obtain ⟨target, htarget, r, rfl⟩ := h.1 c hc
    exact htarget
  · exact h.2.nodup hnodup

/-- The second phase reads the rows again and settles each at most once. -/
theorem finalize_calls {b : Bounds} {ts : List Target} (hnodup : (ts.map (·.key)).Nodup) :
  Ensures recorded.Batches t (finalize policy b ts) fun _ => Adds (Settling ts) t
  := by
  rw [finalize]
  split
  · exact ensures_done ⟨[], by simp, by simp [Settling]⟩
  · apply Ports.ensures_store
    rintro r _ ⟨-, rfl⟩
    have hread : ∀ u, Settling ts u →
        Adds (Settling ts) t (t ++ [.store .batch (.findAll (ts.map (·.key))) r] ++ u) := by
      rintro u ⟨hcalls, hkeys⟩
      refine ⟨.store .batch (.findAll (ts.map (·.key))) r :: u, by simp, ?_, hkeys⟩
      intro c hc
      rcases List.mem_cons.mp hc with rfl | hc
      · rfl
      · exact hcalls c hc
    have hnothing : Adds (Settling ts) t
        (t ++ [.store .batch (.findAll (ts.map (·.key))) r]) := by
      simpa using hread [] (by simp [Settling])
    rcases heard r with f | (e | rows)
    · exact hnothing
    · apply Ports.ensures_tellAll
      exact ensures_done hnothing
    · apply Ports.ensures_tell
      apply ensures_bind
      refine settleAll_calls.mono ?_
      rintro r' _ ⟨u, rfl, hu⟩
      cases r' with
      | error f => exact hread u (hu.settling hnodup)
      | ok result =>
          apply Ports.ensures_tell
          exact ensures_done (hread u (hu.settling hnodup))

/-! ### After the loops -/

/-- The calls of a batch that is not undone: its acknowledgment, and if that succeeds those
of the second phase. -/
def Committing (b : Bounds) (ts : List Target) (u : List PortCall) : Prop :=
  (∃ r, r ≠ .ok (.ok ()) ∧ u = [.acknowledge b r]) ∨
    ∃ v, u = .acknowledge b (.ok (.ok ())) :: v ∧ Settling ts v

/-- A batch is acknowledged once, and rows are settled only if that has succeeded. -/
theorem commit_calls {b : Bounds} {ws : List Write} {ts : List Target}
    (hnodup : (ts.map (·.key)).Nodup) :
  Ensures recorded.Batches t (commit policy b ws ts) fun _ => Adds (Committing b ts) t
  := by
  rw [commit]
  apply Ports.ensures_acknowledge
  rintro r _ rfl
  have hsettled : ∀ v, Settling ts v →
      Adds (Committing b ts) t (t ++ [.acknowledge b (.ok (.ok ()))] ++ v) :=
    fun v hv => ⟨.acknowledge b (.ok (.ok ())) :: v, by simp, .inr ⟨v, rfl, hv⟩⟩
  rcases r with f | (e | _)
  · refine ⟨_, rfl, .inl ⟨.error f, ?_, rfl⟩⟩
    rintro ⟨⟩
  · apply ensures_done
    refine ⟨_, rfl, .inl ⟨.ok (.error e), ?_, rfl⟩⟩
    rintro ⟨⟩
  · apply Ports.ensures_tell
    apply Ports.ensures_tell
    apply ensures_bind
    refine (finalize_calls hnodup).mono ?_
    rintro r _ ⟨v, rfl, hv⟩
    cases r with
    | error f => exact hsettled v hv
    | ok result =>
        apply Ports.ensures_tell
        exact ensures_done (hsettled v hv)

variable {results : List Apply.Result}

theorem mem_endings {e : Ending} :
  e ∈ endings results ↔ .ok e ∈ results
  := by
  rw [endings, List.mem_filterMap]
  constructor
  · rintro ⟨r, hr, he⟩
    cases r with
    | error f => cases he
    | ok e' =>
        cases he
        exact hr
  · intro he
    exact ⟨_, he, rfl⟩

/-- A failure among the results is that of a loop. -/
theorem exists_of_firstFailure {f : Failure} (h : firstFailure? results = some f) :
  ∃ r ∈ results, r = .error f
  := by
  induction results with
  | nil => cases h
  | cons r results ih =>
      cases r with
      | error f' =>
          cases h
          exact ⟨_, .head _, rfl⟩
      | ok e =>
          obtain ⟨r, hr, hf⟩ := ih h
          exact ⟨r, .tail _ hr, hf⟩

/-- Without a failure every loop has an ending. -/
theorem ended_of_firstFailure (h : firstFailure? results = none) :
  ∀ r ∈ results, ∃ e, r = .ok e
  := by
  induction results with
  | nil => simp
  | cons r results ih =>
      cases r with
      | error f => cases h
      | ok e =>
          intro r hr
          rcases List.mem_cons.mp hr with rfl | hr
          · exact ⟨e, rfl⟩
          · exact ih h r hr

/-- The loops that found their addresses locked are those whose addresses are listed. -/
theorem mem_lockeds {key : Address} :
  key ∈ lockeds results ↔ ∃ reason, .ok (.locked key reason) ∈ results
  := by
  rw [lockeds, List.mem_filterMap]
  constructor
  · rintro ⟨e, he, hkey⟩
    cases e with
    | locked key' reason =>
        cases hkey
        exact ⟨reason, mem_endings.mp he⟩
    | applied => cases hkey
    | alreadyApplied => cases hkey
  · rintro ⟨reason, h⟩
    exact ⟨_, mem_endings.mpr h, rfl⟩

/-- The writes of the results are those of the loops that applied their deltas. -/
theorem mem_writes {w : Write} :
  w ∈ writes results ↔ .ok (.applied w) ∈ results
  := by
  rw [writes, List.mem_filterMap]
  constructor
  · rintro ⟨e, he, hw⟩
    cases e with
    | applied w' =>
        cases hw
        exact mem_endings.mp he
    | alreadyApplied => cases hw
    | locked => cases hw
  · intro h
    exact ⟨_, mem_endings.mpr h, rfl⟩

/-- From the results on, the calls of a batch are as these say. -/
theorem conclude_calls {b : Bounds} {carried : List Target}
    (hprevious : ∀ w ∈ writes results, ∀ row ∈ w.previous, row.key = w.key)
    (hnodup : ((carried ++ targets results).map (·.key)).Nodup) :
  Ensures recorded.Batches t (conclude policy b carried results)
    fun _ => Adds (Rest b carried (results.map .finished)) t
  := by
  rw [conclude]
  apply Ports.ensures_tellAll
  cases hnone : firstFailure? results with
  | some f =>
      obtain ⟨r, hr, rfl⟩ := exists_of_firstFailure hnone
      apply ensures_done
      exact ⟨[], by simp, .failed ⟨_, List.mem_map_of_mem hr, .inr ⟨f, rfl⟩⟩⟩
  | none =>
      have hended := ended_of_firstFailure hnone
      dsimp only
      split
      · next hfree =>
          have hfree : ∀ r ∈ results, ∃ e, r = .ok e ∧ e.isLocked = false := by
            intro r hr
            obtain ⟨e, rfl⟩ := hended r hr
            refine ⟨e, rfl, ?_⟩
            cases e with
            | applied => rfl
            | alreadyApplied => rfl
            | locked key reason =>
                have hkey : key ∈ lockeds results := mem_lockeds.mpr ⟨reason, hr⟩
                rw [lockeds, endings, hfree] at hkey
                cases hkey
          refine (commit_calls hnodup).mono ?_
          rintro r _ ⟨u, rfl, ⟨r', hr', rfl⟩ | ⟨v, rfl, hcalls, hkeys⟩⟩
          · exact ⟨_, rfl, .refused hfree hr'⟩
          · exact ⟨_, rfl, .acknowledged hfree hcalls hkeys⟩
      · next hne =>
          have hlocked : ∃ e, .ok e ∈ results ∧ e.isLocked = true := by
            obtain ⟨key, hkey⟩ := List.exists_mem_of_ne_nil (lockeds results) hne
            obtain ⟨reason, hmem⟩ := mem_lockeds.mp hkey
            exact ⟨_, hmem, rfl⟩
          have huses : (undo policy b (lockeds results) (writes results)
              >>= fun o => .done (Except.ok (ε := Failure) o)).Uses
                (BatchCall.OfKind (PortCall.Restores ((writes results).map (·.key)))) :=
            uses_bind (uses_undo hprevious) fun _ => trivial
          refine (adds_of_uses huses).mono ?_
          rintro r _ ⟨u, rfl, hu⟩
          exact ⟨u, rfl, .undone hended hlocked hu⟩

/-! ### The whole batch -/

/-- What is collected of the endings of jobs is in the order of their addresses. -/
theorem sublist_of_endings {α : Type} {f : Ending → Option α} {key : α → Address}
    {jobs : List Job} (hf : ∀ e a, f e = some a → key a = e.key)
    (h : List.Forall₂ (fun j r => ∀ e, r = .ok e → e.key = j.delta.key) jobs results) :
  (((endings results).filterMap f).map key).Sublist (jobs.map (·.delta.key))
  := by
  induction h with
  | nil => exact .slnil
  | @cons j r jobs results hkey _ ih =>
      cases r with
      | error f => exact ih.cons _
      | ok e =>
          have hkey : e.key = j.delta.key := hkey e rfl
          change (((e :: endings results).filterMap f).map key).Sublist _
          rw [List.filterMap_cons, List.map_cons, ← hkey]
          cases ha : f e with
          | none => exact ih.cons _
          | some a =>
              dsimp only
              rw [List.map_cons, hf e a ha]
              exact ih.cons_cons _

theorem key_of_target {e : Ending} {t : Target} (h : target? e = some t) :
  t.key = e.key
  := by
  cases e with
  | applied w =>
      cases h
      rfl
  | alreadyApplied key version settled =>
      cases settled with
      | true => cases h
      | false =>
          cases h
          rfl
  | locked => cases h

theorem key_of_write {e : Ending} {w : Write} (h : write? e = some w) :
  w.key = e.key
  := by
  cases e with
  | applied w' =>
      cases h
      rfl
  | alreadyApplied => cases h
  | locked => cases h

/-- A loop that wrote replaced a row of its address. -/
theorem previous_of_shown {jobs : List Job}
    (h : List.Forall₂ (fun j e => ∀ ending, e = JobEnd.finished (.ok ending) →
      Shown j.delta t ending) jobs (results.map .finished)) :
  ∀ w ∈ writes results, ∀ row ∈ w.previous, row.key = w.key
  := by
  intro w hw row hrow
  have hmem := List.mem_map_of_mem (f := JobEnd.finished) (mem_writes.mp hw)
  obtain ⟨j, -, hshown⟩ := exists_of_forall₂ h.flip hmem
  have hmakes : ∃ row', w.Makes j.delta row' := by
    cases hshown _ rfl with
    | answered hmakes => exact ⟨_, hmakes⟩
    | readBack hmakes => exact ⟨_, hmakes⟩
  obtain ⟨row', hmakes⟩ := hmakes
  rw [hmakes.key]
  exact hmakes.previous row hrow

/-- The rows of the batch were fetched and merged, and its loops have run to their ends. -/
structure Worked (policy : Policy) (b : Batch) (rows : Table Address Row)
    (merged : Table Address Delta) (ends : List (JobEnd Apply.Result)) (u : List PortCall) :
    Prop where
  keyed : Keyed rows
  merges : Merge.batch rows b.deltas = .ok merged
  completes : Completes recorded.Loops policy (jobs rows merged) [b.fetched rows] ends
    (b.fetched rows :: u)
  loops : ∀ c ∈ u, c.ByLoop
  shown : List.Forall₂ (fun j e => ∀ ending, e = JobEnd.finished (.ok ending) →
    Shown j.delta (b.fetched rows :: u) ending) (jobs rows merged) ends

/-- The rows to be settled are those of different addresses. -/
theorem Worked.nodup_targets {rs : List Record} {rows : Table Address Row}
    {merged : Table Address Delta} {u : List PortCall} (hb : b.Collects rs)
    (h : Worked policy b rows merged (results.map .finished) u) :
  ((b.carriedOver rows merged ++ targets results).map (·.key)).Nodup
  := by
  have hselected : ∀ key ∈ b.keys, rows.get? key = rows.get? key := fun _ _ => rfl
  have hplan := hb.planned hselected h.merges
  have hkeys : ((targets results).map (·.key)).Sublist
      ((jobs rows merged).map (·.delta.key)) := by
    apply sublist_of_endings fun e t => key_of_target
    refine (List.forall₂_map_right_iff.mp h.shown).imp ?_
    rintro j _ hend e rfl
    exact (hend e rfl).key
  rw [List.map_append]
  apply (nodup_carriedOver hselected h.keyed merged).append (hkeys.nodup hplan.nodup)
  intro key hcarried hkey
  obtain ⟨target, htarget, rfl⟩ := List.mem_map.mp hcarried
  obtain ⟨j, hj, hjkey⟩ := List.mem_map.mp (hkeys.subset hkey)
  have hdelta := hplan.delta j hj
  rw [hjkey, ((hb.mem_carriedOver_iff hselected h.keyed h.merges).mp htarget).1] at hdelta
  cases hdelta

/-- A batch that is processed ends after a fetch that failed, after a merge that overflowed, after
loops of which one was stopped, or as its results lead to. -/
theorem ensures_run {rs : List Record} {Q : Except Fault (Except Failure Outcome) →
      List PortCall → Prop} (hb : b.Collects rs)
    (hunfetched : ∀ r o, Unanswered r → Q o [.store .batch (.findAll b.keys) r])
    (hunmerged : ∀ rows o, Merge.batch rows b.deltas = .error o →
      Q (.error (.overflow o)) [b.fetched rows])
    (hstopped : ∀ rows merged ends u, Worked policy b rows merged ends u → .crashed ∈ ends →
      Q (.ok (.error .workerFailed)) (b.fetched rows :: u))
    (hconclude : ∀ rows merged results u, Worked policy b rows merged (results.map .finished) u →
      Ensures recorded.Batches (b.fetched rows :: u)
        (conclude policy b.bounds (b.carriedOver rows merged) results) Q) :
  Ensures recorded.Batches [] (run policy b) Q
  := by
  rw [run]
  apply Ports.ensures_store
  rintro r _ ⟨hkeyed, rfl⟩
  rcases Watch.answered_or_unanswered r with ⟨rows, rfl⟩ | hr
  · replace hkeyed : Keyed rows := hkeyed
    apply Ports.ensures_tell
    cases hmerged : Merge.batch rows b.deltas with
    | error o => exact ensures_crash (hunmerged rows o hmerged)
    | ok merged =>
        have hselected : ∀ key ∈ b.keys, rows.get? key = rows.get? key := fun _ _ => rfl
        have hplan := hb.planned hselected hmerged
        apply Ports.ensures_applyAll
        intro ends t hcompletes
        obtain ⟨⟨u, rfl, hloops⟩, hshown⟩ := shown_of_completes
          (fun j hj => hplan.fresh hb hkeyed hj) hplan.nodup hcompletes
        have hworked : Worked policy b rows merged ends u :=
          ⟨hkeyed, hmerged, hcompletes, hloops, hshown⟩
        cases hcollect : JobEnd.collect ends with
        | none =>
            exact ensures_done (hstopped _ _ _ _ hworked (JobEnd.crashed_of_collect hcollect))
        | some results =>
            obtain rfl := JobEnd.collect_eq_some hcollect
            apply Ports.ensures_tell
            exact hconclude _ _ _ _ hworked
  · apply Follows.of_fails (fails_heard hr)
    · intro f
      exact hunfetched r _ hr
    · intro e
      exact ensures_done (hunfetched r _ hr)

/-- The calls of a batch that is processed follow its course. -/
theorem run_calls {rs : List Record} (hb : b.Collects rs) :
  Ensures recorded.Batches [] (run policy b) fun _ => Course policy b
  := by
  refine ensures_run hb ?_ ?_ ?_ ?_
  · intro r o hr
    exact .unfetched hr
  · intro rows o hmerged
    exact .unmerged hmerged
  · intro rows merged ends u h hcrashed
    have hfailed : Course policy b (b.fetched rows :: u ++ []) :=
      .worked h.keyed h.merges h.completes h.loops h.shown (.failed ⟨_, hcrashed, .inl rfl⟩)
    rw [List.append_nil] at hfailed
    exact hfailed
  · intro rows merged results u h
    refine (conclude_calls (previous_of_shown h.shown) (h.nodup_targets hb)).mono ?_
    rintro r _ ⟨v, rfl, hv⟩
    exact .worked h.keyed h.merges h.completes h.loops h.shown hv

/-- Processing some records makes no call, or runs the batch that they amount to. -/
theorem run_of_process {rs : List Record} {r : Except Fault (Except Failure Outcome)}
    (h : Exec recorded.Batches t (process policy rs) r t') :
  t' = t ∨ ∃ b, ofRecords rs = .ok (some b) ∧ b.Collects rs ∧
    Exec recorded.Batches t (run policy b) r t'
  := by
  rw [process] at h
  rcases exec_bind_iff.mp h with ⟨f, hask, -⟩ | ⟨accepted, t₁, hask, hrest⟩
  · cases exec_ask_iff.mp hask
  · cases exec_ask_iff.mp hask
    cases accepted with
    | false =>
        cases hrest
        exact .inl rfl
    | true =>
        rw [if_pos rfl] at hrest
        rcases hrs : ofRecords rs with e | (_ | b)
        · rw [hrs] at hrest
          cases hrest
          exact .inl rfl
        · rw [hrs] at hrest
          cases hrest
          exact .inl rfl
        · rw [hrs] at hrest
          exact .inr ⟨b, rfl, collects_of_ofRecords hrs, hrest⟩

/-- Whatever the ends of its calls, processing some records makes none or follows the course
of the batch that they amount to. -/
theorem process_calls {rs : List Record} :
  Ensures recorded.Batches [] (process policy rs) fun _ t =>
    t = [] ∨ ∃ b, ofRecords rs = .ok (some b) ∧ b.Collects rs ∧ Course policy b t
  := by
  intro r t h
  rcases run_of_process h with hnone | ⟨b, hrs, hb, hrun⟩
  · exact .inl hnone
  · exact .inr ⟨b, hrs, hb, run_calls hb hrun⟩

/-! ### Counting -/

/-- Among quiet calls there is no acknowledgment, and none that settles a row. -/
theorem counts_of_quiet {u : List PortCall} (h : ∀ c ∈ u, c.Quiet) :
  u.countP (·.isAcknowledgment) = 0 ∧ u.filterMap (·.settled?) = []
  := by
  constructor
  · apply List.countP_eq_zero.mpr
    intro c hc
    rw [(h c hc).1]
    exact Bool.false_ne_true
  · apply List.filterMap_eq_nil_iff.mpr
    intro c hc
    exact (h c hc).2

/-- After the loops there is at most one acknowledgment, and no row is settled twice. -/
theorem Rest.counts {b : Bounds} {carried : List Target} {ends : List (JobEnd Apply.Result)}
    {u : List PortCall} (h : Rest b carried ends u) :
  u.countP (·.isAcknowledgment) ≤ 1 ∧ (u.filterMap (·.settled?)).Nodup
  := by
  cases h with
  | failed => simp
  | undone _ _ hcalls =>
      obtain ⟨hcount, hsettled⟩ := counts_of_quiet fun c hc => (hcalls c hc).quiet
      rw [hcount, hsettled]
      exact ⟨Nat.zero_le 1, List.nodup_nil⟩
  | refused => exact ⟨Nat.le_refl 1, List.nodup_nil⟩
  | @acknowledged results u _ hcalls hnodup =>
      have hcount : u.countP (·.isAcknowledgment) = 0 := by
        apply List.countP_eq_zero.mpr
        intro c hc
        rw [(hcalls c hc).isAcknowledgment_eq_false]
        exact Bool.false_ne_true
      constructor
      · apply Nat.le_of_eq
        rw [List.countP_cons_of_pos rfl, hcount]
      · exact hnodup

/-- A batch is acknowledged at most once, and settles no row twice. -/
theorem Course.counts (h : Course policy b t) :
  t.countP (·.isAcknowledgment) ≤ 1 ∧ (t.filterMap (·.settled?)).Nodup
  := by
  cases h with
  | unfetched => exact ⟨Nat.zero_le 1, List.nodup_nil⟩
  | unmerged => exact ⟨Nat.zero_le 1, List.nodup_nil⟩
  | @worked rows merged ends u v _ _ _ hloops _ hrest =>
      have hquiet : ∀ c ∈ b.fetched rows :: u, c.Quiet := by
        intro c hc
        rcases List.mem_cons.mp hc with rfl | hc
        · exact ⟨rfl, rfl⟩
        · exact (hloops c hc).quiet
      obtain ⟨hcount, hsettled⟩ := counts_of_quiet hquiet
      rw [List.countP_append, List.filterMap_append, hcount, hsettled, Nat.zero_add,
        List.nil_append]
      exact hrest.counts

/-! ### A transfer that is acknowledged -/

/-- A log that accepts every acknowledgment, and knows no position. -/
def acceptsAll : Parties Unit where
  latestOffset _ _ := none
  acknowledge _ _ := ((), .ok ())

/-- Over no rows, a transfer is committed if no call is lost. -/
theorem exists_transfer_committed (policy : Policy) (p : Partition) :
  ∃ r s', Exec (BatchAnswers False acceptsAll) ⟨.empty, ()⟩ (process policy [transfer p]) r s' ∧
    ∃ applied finalized,
      r = .ok (.ok (.committed (transferBatch p).bounds applied finalized []))
  := by
  obtain ⟨r, s', hexec⟩ := exists_exec (exists_batchAnswers acceptsAll) ⟨.empty, ()⟩
    (process policy [transfer p])
  have hkeyed : Keyed (Table.empty : Table Address Row) := by
    intro key row hrow
    cases hrow
  have hloose : ¬ (transferBatch p).Stuck policy.takeover (acceptsAll.latestOffset ())
      Table.empty := by
    rintro ⟨key, -, hblocked⟩
    exact hblocked
  have hfaultless := (process_processed ofRecords_transfer hkeyed hexec).2 id
  exact ⟨r, s', hexec, (hfaultless.committed hloose (fits_transfer _ _) rfl).2.1⟩

/-- Whatever the store, the oracle and the log answer and however their calls fail, as long as
the rows answered carry the addresses asked for: processing some records acknowledges at most
once and settles no row twice, and if it makes any call then its calls follow the course of
the batch that the records amount to.  So nothing follows a failed fetch, a failed loop or a
failed acknowledgment, a locked address leads to calls that put written rows back and to no
others, and the acknowledgment comes after all loops have applied their deltas or found them
applied, with rows settled only after it has succeeded. -/
theorem process_in_order {rs : List Record} {r : Except Fault (Except Failure Outcome)}
    (h : Exec recorded.Batches [] (process policy rs) r t) :
  t.countP (·.isAcknowledgment) ≤ 1 ∧ (t.filterMap (·.settled?)).Nodup ∧
    (t = [] ∨ ∃ b, ofRecords rs = .ok (some b) ∧ Course policy b t)
  := by
  rcases process_calls h with rfl | ⟨b, hrs, -, hcourse⟩
  · exact ⟨Nat.zero_le 1, List.nodup_nil, .inl rfl⟩
  · obtain ⟨honce, hnodup⟩ := hcourse.counts
    exact ⟨honce, hnodup, .inr ⟨b, hrs, hcourse⟩⟩

/-- A transfer that is committed makes its calls in order. -/
theorem transfer_in_order :
  ∃ r t, Exec recorded.Batches [] (process ⟨20, 100, 30, 5000, .past⟩ [transfer ⟨"TRANSFERS", 0⟩])
      r t ∧
    (∃ applied finalized, r = .ok (.ok (.committed (transferBatch ⟨"TRANSFERS", 0⟩).bounds
      applied finalized []))) ∧
    t.countP (·.isAcknowledgment) ≤ 1 ∧ (t.filterMap (·.settled?)).Nodup ∧
      (t = [] ∨ ∃ b, ofRecords [transfer ⟨"TRANSFERS", 0⟩] = .ok (some b) ∧
        Course ⟨20, 100, 30, 5000, .past⟩ b t)
  := by
  obtain ⟨r, s', hexec, hr⟩ :=
    exists_transfer_committed ⟨20, 100, 30, 5000, .past⟩ ⟨"TRANSFERS", 0⟩
  obtain ⟨t, hexec', -⟩ := Ports.exec_of_undisturbed (simulates_recorded acceptsAll) (t := [])
    hexec (by intro key row hrow; cases hrow)
  exact ⟨r, t, hexec', hr, process_in_order hexec'⟩

end Batch

end ChainLedger
