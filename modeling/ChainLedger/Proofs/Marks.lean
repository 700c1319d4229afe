import ChainLedger.Proofs.Course
import ChainLedger.Proofs.Sparing

/-!
# The rows that a batch settles

A batch shares its rows with others that do as they like.  What it settles are rows that some
call has shown to it before the acknowledgment: a row fetched with the others, a row that one of
its loops has written, or one that a loop has read.  The positions of the first two are those of
the batch.  A row that a loop has read counts the delta of the loop, but may be ahead of the
batch.
-/

namespace ChainLedger

open Prog

/-! ### Rows that stood -/

/-- The row stood at the address at some time: at first, or after a change. -/
def Stood (rows : Table Address Row) (journal : List Entry) (key : Address) (row : Row) : Prop :=
  rows.get? key = some row ∨ ∃ c : Change, .change c ∈ journal ∧ c.key = key ∧ c.after = some row

theorem Stood.append {rows : Table Address Row} {j j' : List Entry} {key : Address} {row : Row}
    (h : Stood rows j key row) :
  Stood rows (j ++ j') key row
  := by
  rcases h with h | ⟨c, hc, hkey, hafter⟩
  · exact .inl h
  · exact .inr ⟨c, List.mem_append_left j' hc, hkey, hafter⟩

/-- The end of the call shows that the row is at the address. -/
inductive PortCall.Shows (key : Address) (row : Row) : PortCall → Prop
  /-- It was read. -/
  | found {who : Caller} :
      Shows key row (.store who (.find key) (.ok (.answered (.ok (some row)))))
  /-- It was read among others. -/
  | fetched {who : Caller} {keys : List Address} {rows : Table Address Row}
      (hrow : rows.get? key = some row) :
      Shows key row (.store who (.findAll keys) (.ok (.answered (.ok rows))))
  /-- It was made. -/
  | inserted {who : Caller} (hkey : row.key = key) :
      Shows key row (.store who (.insert row) (.ok (.answered (.ok true))))
  /-- It has replaced another. -/
  | updated {who : Caller} {expected : Nat} (hkey : row.key = key) :
      Shows key row (.store who (.update row expected) (.ok (.answered (.ok true))))

/-- A row that a call shows is there. -/
theorem StoreAnswers.get?_of_shows {lossy : Prop} {rows rows' : Table Address Row} {who : Caller}
    {c : StoreCall} {r : Except Fault (Timed c.Answer)} {key : Address} {row : Row}
    (h : StoreAnswers lossy rows c r rows') (hshows : PortCall.Shows key row (.store who c r)) :
  rows'.get? key = some row
  := by
  cases hshows with
  | found =>
      obtain ⟨rfl, hrow⟩ := h.of_found rfl
      exact hrow.symm
  | fetched hrow =>
      have hon := h.of_answered rfl
      rw [StoreCall.on_findAll] at hon
      cases hon
      rw [MemoryStore.get?_select] at hrow
      split at hrow
      · exact hrow
      · cases hrow
  | inserted hkey =>
      have hon := h.of_answered rfl
      rcases StoreCall.on_insert_cases row rows with ⟨-, hmade⟩ | hrefused
      · rw [hmade] at hon
        cases hon
        simp [hkey]
      · rw [hrefused] at hon
        cases hon
  | @updated _ expected hkey =>
      have hon := h.of_answered rfl
      rcases StoreCall.on_update_cases row expected rows with ⟨-, -, -, hmade⟩ | hrefused
      · rw [hmade] at hon
        cases hon
        simp [hkey]
      · rw [hrefused] at hon
        cases hon

/-! ### Changes that settle a row -/

/-- A call that settles a row has changed it, from one of the version given. -/
theorem StoreCall.of_settled {rows : Table Address Row} {key : Address} {expected : Nat}
    (h : ((settle key expected).on rows).1.get? key ≠ rows.get? key) :
  ∃ row row', rows.get? key = some row ∧ row.version = expected ∧ row.settle = .ok row' ∧
    ((settle key expected).on rows).1.get? key = some row'
  := by
  rw [on, MemoryStore.perform] at h ⊢
  cases hrow : rows.get? key with
  | none => simp [hrow] at h
  | some row =>
      by_cases hversion : row.version = expected
      · cases hsettle : row.settle with
        | error o => simp [hrow, hversion, hsettle] at h
        | ok row' => exact ⟨row, row', rfl, hversion, hsettle, by simp [hversion, hsettle]⟩
      · simp [hrow, hversion] at h

/-- The change settles a row that stood at its address, and comes right after the call that is
to settle the row of this version. -/
def Marks (rows : Table Address Row) (before : List Entry) (c : Change) : Prop :=
  ∃ journal row row' r,
    before = journal ++ [.call (.store .batch (.settle c.key row.version) r)] ∧
    c.before = some row ∧ row.settle = .ok row' ∧ c.after = some row' ∧
    Stood rows journal c.key row

namespace Scene

variable {M : Manners} {rows₀ rows : Table Address Row} {s s' : Scene} {who : Caller}
  {c : StoreCall} {r : Except Fault (Timed c.Answer)}

/-- The journal tells of all rows that are there or that calls have shown, and of the calls
that have settled rows. -/
structure Certified (rows₀ : Table Address Row) (s : Scene) : Prop where
  rows : ∀ key row, s.rows.get? key = some row → Stood rows₀ s.journal key row
  shown : ∀ c ∈ s.calls, ∀ key row, c.Shows key row → Stood rows₀ s.journal key row
  marked : EachChange (fun before c => c.agent = .finalize → Marks rows₀ before c) s.journal

theorem certified_start :
  Certified rows₀ ⟨rows₀, []⟩
  := by
  constructor
  · intro key row hrow
    exact .inl hrow
  · intro c hc
    cases hc
  · exact .nil

theorem Certified.meddled (h : s.Certified rows₀)
    (hothers : Relation.ReflTransGen (Meddled M) s s') :
  s'.Certified rows₀
  := by
  constructor
  · induction hothers with
    | refl => exact h.rows
    | tail _ hmeddled ih =>
        obtain ⟨key, row?, -, rfl⟩ := hmeddled
        intro k row hrow
        by_cases hk : k = key
        · subst hk
          refine .inr ⟨_, List.mem_append_right _ (.head _), rfl, ?_⟩
          simpa [meddle] using hrow
        · apply Stood.append
          apply ih
          simpa [meddle, hk] using hrow
  · rw [calls_of_meddled hothers]
    intro c hc key row hshows
    obtain ⟨j, hj, -⟩ := journal_of_meddled hothers
    rw [hj]
    exact (h.shown c hc key row hshows).append
  · apply h.marked.meddled _ hothers
    intro journal c hother hfinalize
    rw [hother] at hfinalize
    cases hfinalize

/-- The change of a row by a call is in the journal. -/
theorem mem_journal_answer {lossy : Prop} {key : Address}
    (h : StoreAnswers lossy s.rows c r rows) (hne : rows.get? key ≠ s.rows.get? key) :
  .change ⟨who.agent c, key, s.rows.get? key, rows.get? key⟩ ∈ (s.answer who c r rows).journal
  := by
  have htarget : c.target? = some key := by
    by_contra htarget
    exact hne (h.get?_eq htarget)
  simp [answer, noted, htarget, hne]

theorem Certified.answer {lossy : Prop} (h : s.Certified rows₀)
    (hanswer : StoreAnswers lossy s.rows c r rows) :
  (s.answer who c r rows).Certified rows₀
  := by
  have hrows : ∀ key row, rows.get? key = some row →
      Stood rows₀ (s.answer who c r rows).journal key row := by
    intro key row hrow
    by_cases heq : rows.get? key = s.rows.get? key
    · exact (h.rows key row (heq.symm.trans hrow)).append
    · exact .inr ⟨_, mem_journal_answer hanswer heq, rfl, hrow⟩
  constructor
  · exact hrows
  · rw [calls_answer]
    intro c' hc' key row hshows
    rcases List.mem_append.mp hc' with hc' | hc'
    · exact (h.shown c' hc' key row hshows).append
    · cases List.mem_singleton.mp hc'
      exact hrows key row (hanswer.get?_of_shows hshows)
  · apply h.marked.answer
    intro key htarget hne hagent
    cases who with
    | loop => cases hagent
    | batch =>
        cases c with
        | settle key' expected =>
            cases htarget
            have hserved : rows = ((StoreCall.settle key expected).on s.rows).1 := by
              rcases hanswer.rows_eq with heq | heq
              · rw [heq] at hne
                exact absurd rfl hne
              · exact heq
            rw [hserved] at hne ⊢
            obtain ⟨row, row', hrow, rfl, hsettle, hafter⟩ := StoreCall.of_settled hne
            exact ⟨s.journal, row, row', r, rfl, hrow, hsettle, hafter, h.rows key row hrow⟩
        | find => cases hagent
        | findAll => cases hagent
        | insert => cases hagent
        | update => cases hagent
        | remove => cases hagent

theorem Certified.note (h : s.Certified rows₀) {c : PortCall}
    (hc : ∀ key row, ¬ c.Shows key row) :
  (s.note c).Certified rows₀
  := by
  constructor
  · intro key row hrow
    exact (h.rows key row hrow).append
  · rw [calls_note]
    intro c' hc' key row hshows
    rcases List.mem_append.mp hc' with hc' | hc'
    · exact (h.shown c' hc' key row hshows).append
    · cases List.mem_singleton.mp hc'
      exact absurd hshows (hc key row)
  · exact h.marked.note c

/-- Whatever happens in a shared store, its journal tells of. -/
theorem certified_of_exec {α : Type} {p : Batch.Step α} {r : Except Fault α}
    (h : Exec (shared M).Batches ⟨rows₀, []⟩ p r s') :
  s'.Certified rows₀
  := by
  apply Ports.exec_keeps _ _ _ h certified_start
  · rintro who s c r _ h ⟨s₁, rows, hothers, hanswer, rfl⟩
    exact (h.meddled hothers).answer hanswer
  · rintro s p r _ h rfl
    exact h.note nofun
  · rintro s b r _ h rfl
    exact h.note nofun

end Scene

/-! ### What the calls show of a row to be settled -/

namespace Batch

variable {b : Batch} {rs : List Record} {policy : Policy} {t : List PortCall}

/-- The row is at a position of the batch's partition, which is not behind the batch unless a
loop has read the row. -/
def Vouches (b : Batch) (t : List PortCall) (row : Row) : Prop :=
  row.source.partition = b.bounds.partition ∧
    (row.source.offset ≤ b.bounds.last ∨ .reads row ∈ t)

/-- Some call has shown a row of the target's version that the batch vouches for. -/
def Backs (b : Batch) (t : List PortCall) (target : Target) : Prop :=
  ∃ c ∈ t, ∃ row, c.Shows target.key row ∧ row.version = target.version ∧ b.Vouches t row

theorem Backs.append {t' : List PortCall} {target : Target} (h : b.Backs t target) :
  b.Backs (t ++ t') target
  := by
  obtain ⟨c, hc, row, hshows, hversion, hpartition, hoffset⟩ := h
  exact ⟨c, List.mem_append_left t' hc, row, hshows, hversion, hpartition,
    hoffset.imp_right (List.mem_append_left t')⟩

/-- A row at the position of a job is one that the batch vouches for. -/
theorem Planned.vouches {rows : Table Address Row} {jobs : List Job} {j : Job} {row : Row}
    (hplan : b.Planned rows jobs) (hb : b.Collects rs) (hj : j ∈ jobs)
    (hsource : row.source = j.delta.source) :
  b.Vouches t row
  := by
  have hcontains := (hb.of_toApply (hplan.delta j hj)).2.2.1
  rw [← hsource] at hcontains
  exact ⟨hcontains.1, .inl hcontains.2.2⟩

/-- What a loop leaves to be settled, its calls show. -/
theorem backs_of_shown {rows : Table Address Row} {jobs : List Job} {j : Job} {e : Ending}
    {target : Target} (hplan : b.Planned rows jobs) (hb : b.Collects rs) (hj : j ∈ jobs)
    (hshown : Shown j.delta t e) (htarget : target? e = some target) :
  b.Backs t target
  := by
  cases hshown with
  | @answered w row' hmakes hcall =>
      cases htarget
      have hkey : row'.key = w.key :=
        (Row.key_of_written hmakes.previous hmakes.written).trans hmakes.key.symm
      have hshows : PortCall.Shows w.key row' (w.call row' (.ok (.answered (.ok true)))) := by
        rw [Write.call]
        split
        · exact .inserted hkey
        · exact .updated hkey
      exact ⟨_, hcall, row', hshows, hmakes.version.symm,
        hplan.vouches hb hj (Row.of_written hmakes.written).1⟩
  | @readBack w row' row r t₁ t₂ hmakes ht hr hread hkey hlanded =>
      cases htarget
      have hmem : .reads row ∈ t := by
        rw [ht]
        exact List.mem_append_right _ (.tail _ hread)
      have hshows : PortCall.Shows w.key row (.reads row) := by
        rw [hmakes.key, ← hkey]
        exact .found
      exact ⟨_, hmem, row, hshows, hlanded.1, hplan.vouches hb hj hlanded.2⟩
  | @alreadyApplied row hread hkey hreflects =>
      -- nothing bounds the row from above: to count the delta it may be ahead of the batch
      have htarget : (if row.settled then none else some (Target.mk j.delta.key row.version))
          = some target := htarget
      split at htarget
      · cases htarget
      · cases htarget
        have hshows : PortCall.Shows j.delta.key row (.reads row) := by
          rw [← hkey]
          exact .found
        have hpartition : row.source.partition = b.bounds.partition :=
          hreflects.1.trans (hb.of_toApply (hplan.delta j hj)).2.2.1.1
        exact ⟨_, hread, row, hshows, rfl, hpartition, .inr hread⟩
  | locked => cases htarget

/-- What is left to be settled when the loops have ended, the calls so far show. -/
theorem backs_of_target {rows : Table Address Row} {merged : Table Address Delta}
    {results : List Apply.Result} {u : List PortCall} {target : Target} (hb : b.Collects rs)
    (hkeyed : Keyed rows) (hmerged : Merge.batch rows b.deltas = .ok merged)
    (hshown : List.Forall₂ (fun j r => ∀ ending, r = .ok ending →
      Shown j.delta (b.fetched rows :: u) ending) (jobs rows merged) results)
    (h : target ∈ b.carriedOver rows merged ++ targets results) :
  b.Backs (b.fetched rows :: u) target
  := by
  have hselected : ∀ key ∈ b.keys, rows.get? key = rows.get? key := fun _ _ => rfl
  rcases List.mem_append.mp h with h | h
  · obtain ⟨-, ⟨-, row, hrow, -, hcontains⟩, row', hrow', hversion, -⟩ :=
      (hb.mem_carriedOver_iff hselected hkeyed hmerged).mp h
    obtain rfl := Option.some.inj (hrow.symm.trans hrow')
    exact ⟨_, .head _, row, .fetched hrow, hversion, hcontains.1, .inl hcontains.2.2⟩
  · obtain ⟨e, he, htarget⟩ := List.mem_filterMap.mp h
    obtain ⟨j, hj, hshown⟩ :=
      exists_of_forall₂ hshown.flip (mem_endings.mp he)
    exact backs_of_shown (hb.planned hselected hmerged) hb hj (hshown e rfl) htarget

/-- A list that goes on after a front can only be split there where the front has ended. -/
theorem exists_of_append_cons {α : Type} {x y front v : List α} {a : α}
    (h : x ++ a :: y = front ++ v) (ha : a ∉ front) :
  ∃ z, x = front ++ z ∧ v = z ++ a :: y
  := by
  rcases List.append_eq_append_iff.mp h with ⟨z, rfl, hz⟩ | ⟨z, rfl, hz⟩
  · cases z with
    | nil => exact ⟨[], by simp, by simpa using hz.symm⟩
    | cons a' z =>
        cases hz
        exact absurd (List.mem_append_right x (.head z)) ha
  · exact ⟨z, rfl, hz⟩

/-- A row is settled only after the acknowledgment, and calls before it have shown the row. -/
theorem Course.of_settle {x y : List PortCall} {key : Address} {version : Nat}
    {r : Except Fault (Timed Bool)} (hb : b.Collects rs)
    (h : Course policy b (x ++ .store .batch (.settle key version) r :: y)) :
  .acknowledge b.bounds (.ok (.ok ())) ∈ x ∧ b.Backs x ⟨key, version⟩
  := by
  generalize ht : x ++ PortCall.store .batch (.settle key version) r :: y = t at h
  have hmem : .store .batch (.settle key version) r ∈ t := by
    rw [← ht]
    exact List.mem_append_right x (.head y)
  cases h with
  | unfetched => simp at hmem
  | unmerged => simp [fetched] at hmem
  | @worked rows merged ends u v hkeyed hmerged _ hloops hshown hrest =>
      have hfront : .store .batch (.settle key version) r ∉ b.fetched rows :: u := by
        intro hfront
        rcases List.mem_cons.mp hfront with heq | hu
        · cases heq
        · exact hloops _ hu
      obtain ⟨z, rfl, hz⟩ := exists_of_append_cons ht hfront
      have hmem : .store .batch (.settle key version) r ∈ v := by
        rw [hz]
        exact List.mem_append_right z (.head y)
      cases hrest with
      | failed => cases hmem
      | undone _ _ hcalls => exact (hcalls _ hmem).elim
      | refused => simp at hmem
      | @acknowledged results w _ hcalls =>
          rcases List.mem_cons.mp hmem with heq | hmem
          · cases heq
          · have hended : List.Forall₂ (fun j r => ∀ ending, r = .ok ending →
                Shown j.delta (b.fetched rows :: u) ending) (jobs rows merged) results := by
              refine (List.forall₂_map_right_iff.mp hshown).imp ?_
              rintro j _ hshown ending rfl
              exact hshown ending rfl
            have htarget := backs_of_target hb hkeyed hmerged hended (hcalls _ hmem)
            refine ⟨?_, htarget.append⟩
            cases z with
            | nil => cases hz
            | cons c z =>
                cases hz
                exact List.mem_append_right _ (.head z)

/-! ### A transfer that is overtaken -/

variable {M : Manners}

/-- The row that an earlier delivery of the transfer with seven more makes of the address that
pays. -/
def lateRow : Row where
  key := sender
  totals := { balance := -40, transfers := 8 }
  version := 0
  source := ⟨home, 7⟩
  settled := false
  firstSeen := 9
  lastSeen := 16

/-- The write that makes the row of the address that is paid. -/
def receipt : Write where
  key := receiver
  previous := none
  version := 0
  forced := false

/-- The scene when the batch has fetched its rows. -/
def emptyScene : Scene := Scene.serve ⟨.empty, []⟩ .batch (.findAll (transferBatch home).keys)

/-- The scene when the earlier write has come first. -/
def overtakenScene : Scene :=
  (emptyScene.meddle sender (some lateRow)).serve .loop (.insert (Row.ofDelta debit))

/-- The scene when the loops have ended. -/
def appliedScene : Scene :=
  (overtakenScene.serve .loop (.find sender)).serve .loop (.insert (Row.ofDelta credit))

/-- The scene when the batch is acknowledged and its rows are settled. -/
def settledScene : Scene :=
  (((appliedScene.note (.acknowledge (transferBatch home).bounds (.ok (.ok ())))).serve .batch
    (.findAll [sender, receiver])).serve .batch (.settle sender 0)).serve .batch
      (.settle receiver 0)

/-- Others that raise versions may make the row. -/
theorem may_lateRow {mine : Prop} :
  (raising False home).may sender mine none (some lateRow)
  := ⟨lateRow, rfl, rfl, nofun, False.elim⟩

/-- The jobs of the transfer, one after the other: one finds the row of the earlier write, the
other makes its row. -/
theorem completes_overtaken
    (hmay : M.may sender (Mine emptyScene.journal sender) none (some lateRow)) :
  Completes (shared M).Loops hasty [⟨debit, none⟩, ⟨credit, none⟩] emptyScene
    [.finished (.ok (.alreadyApplied sender 0 false)),
      .finished (.ok (.applied receipt))] appliedScene
  := by
  have hrefused : Task.Path (shared M).Loops hasty ⟨debit, none⟩
      (emptyScene, Task.start hasty ⟨debit, none⟩)
      (overtakenScene, .running (Apply.turn hasty debit { seen := none })) := by
    apply Task.path_of_exec (r := .ok (.again { seen := none }))
    exact .answered (.store (shared_meddle hmay)) (.done _ _)
  have hread : Task.Path (shared M).Loops hasty ⟨debit, none⟩
      (overtakenScene, .running (Apply.turn hasty debit { seen := none }))
      (overtakenScene.serve .loop (.find sender),
        .running (Apply.turn hasty debit { seen := some (some lateRow) })) := by
    apply Task.path_of_exec (r := .ok (.again { seen := some (some lateRow) }))
    exact .answered (.store shared_serve) (.done _ _)
  have hfound : Task.Path (shared M).Loops hasty ⟨debit, none⟩
      (overtakenScene.serve .loop (.find sender),
        .running (Apply.turn hasty debit { seen := some (some lateRow) }))
      (overtakenScene.serve .loop (.find sender),
        .ended (.finished (.ok (.alreadyApplied sender 0 false)))) := by
    apply Task.path_of_exec (r := .ok (.stop (.ok (.alreadyApplied sender 0 false))))
    exact .done _ _
  have hmade : Task.Path (shared M).Loops hasty ⟨credit, none⟩
      (overtakenScene.serve .loop (.find sender), Task.start hasty ⟨credit, none⟩)
      (appliedScene, .ended (.finished (.ok (.applied receipt)))) := by
    apply Task.path_of_exec (r := .ok (.stop (.ok (.applied receipt))))
    exact .answered (.store shared_serve) (.done _ _)
  exact completes_pair ((hrefused.trans hread).trans hfound) hmade

/-- The transfer is acknowledged, and both rows are settled. -/
theorem exec_overtaken
    (hmay : M.may sender (Mine emptyScene.journal sender) none (some lateRow)) :
  Exec (shared M).Batches ⟨.empty, []⟩ (process hasty [transfer home])
    (.ok (.ok (.committed (transferBatch home).bounds [receiver] [sender, receiver] [])))
    settledScene
  := by
  rw [process]
  refine .answered (.accepting _ true) ?_
  dsimp only [Prog.bind]
  rw [if_pos rfl, ofRecords_transfer]
  refine .answered (.store (r := .ok _) shared_serve) ?_
  refine .answered (.told _ _) ?_
  refine .answered (.applied (completes_overtaken hmay)) ?_
  refine .answered (.told _ _) ?_
  refine .answered (.acknowledged (r := .ok (.ok ())) rfl) ?_
  refine .answered (.told _ _) (.answered (.told _ _) ?_)
  refine .answered (.store (r := .ok _) shared_serve) ?_
  refine .answered (.told _ _) ?_
  refine .answered (.store (r := .ok _) shared_serve) ?_
  refine .answered (.store (r := .ok _) shared_serve) ?_
  exact .answered (.told _ _) (.answered (.told _ _) (.done _ _))

/-- All rows that stood at one address have versions of their own. -/
theorem versions_settledScene (key : Address) (row row' : Row)
    (h : Stood .empty settledScene.journal key row)
    (h' : Stood .empty settledScene.journal key row') (hversion : row.version = row'.version) :
  row = row'
  := by
  have hmem : ∀ {row}, Stood .empty settledScene.journal key row →
      ∃ c ∈ settledScene.journal.filterMap Entry.change?, c.key = key ∧ c.after = some row := by
    rintro row (h | ⟨c, hc, hkey, hafter⟩)
    · cases h
    · exact ⟨c, List.mem_filterMap.mpr ⟨_, hc, rfl⟩, hkey, hafter⟩
  have hversions : ∀ c ∈ settledScene.journal.filterMap Entry.change?,
      ∀ c' ∈ settledScene.journal.filterMap Entry.change?, c.key = c'.key →
      ∀ row ∈ c.after, ∀ row' ∈ c'.after, row.version = row'.version → row = row' := by
    decide
  obtain ⟨c, hc, hkey, hafter⟩ := hmem h
  obtain ⟨c', hc', hkey', hafter'⟩ := hmem h'
  exact hversions c hc c' hc' (hkey.trans hkey'.symm) row hafter row' hafter' hversion

/-! ### The whole batch -/

/-- A batch shares its rows with others that may change them as they like, under their own
addresses, and any call may be lost if the manners of the others say so.  Equal versions of rows
that stood at one address mean equal rows.  Then every row that the batch settles becomes only
settled, after the batch has been acknowledged, and is at a position of the batch's partition;
this is not behind the last offset acknowledged, unless a loop of the batch has read this very
row. -/
theorem settled_positions {rows : Table Address Row}
    {r : Except Fault (Except Failure Outcome)} {s' : Scene} (hkeyed : Keyed rows)
    (hversions : ∀ key row row', Stood rows s'.journal key row → Stood rows s'.journal key row' →
      row.version = row'.version → row = row')
    (h : Exec (shared M).Batches ⟨rows, []⟩ (process policy rs) r s') :
  ∀ before c after, s'.journal = before ++ .change c :: after → c.agent = .finalize →
    ∃ b row row', ofRecords rs = .ok (some b) ∧
      c.before = some row ∧ row.settle = .ok row' ∧ c.after = some row' ∧
      .call (.acknowledge b.bounds (.ok (.ok ()))) ∈ before ∧
      row.source.partition = b.bounds.partition ∧
      (row.source.offset ≤ b.bounds.last ∨ .call (.reads row) ∈ before)
  := by
  intro before c after hsplit hagent
  have hcertified := Scene.certified_of_exec h
  obtain ⟨journal, row, row', r', rfl, hbefore, hsettle, hafter, hstood⟩ :=
    hcertified.marked before c after hsplit hagent
  obtain ⟨t, hrecorded, -, rfl⟩ :=
    h.simulate (shared_recorded M).batches (t := []) ⟨hkeyed, rfl⟩
  have hcalls : s'.calls = journal.filterMap Entry.call?
      ++ .store .batch (.settle c.key row.version) r' :: after.filterMap Entry.call? := by
    rw [Scene.calls, hsplit, List.filterMap_append, List.filterMap_append, List.append_assoc]
    rfl
  rcases process_calls hrecorded with hnone | ⟨b, hrs, hb, hcourse⟩
  · rw [hcalls] at hnone
    simp at hnone
  · rw [hcalls] at hcourse
    obtain ⟨hacknowledged, c', hc', shown, hshows, hversion, hpartition, hoffset⟩ :=
      hcourse.of_settle hb
    have hmem : ∀ c', c' ∈ journal.filterMap Entry.call? → .call c' ∈ journal := by
      intro c' hc'
      obtain ⟨e, he, hcall⟩ := List.mem_filterMap.mp hc'
      cases e with
      | call c'' =>
          cases hcall
          exact he
      | change c'' => cases hcall
    -- the call that settles names a version only; the row shown is the one that has it
    have hsame : row = shown := by
      apply hversions c.key _ _ _ _ hversion.symm
      · rw [hsplit]
        exact hstood.append.append
      · apply hcertified.shown c' _ c.key shown hshows
        rw [hcalls]
        exact List.mem_append_left _ hc'
    subst hsame
    refine ⟨b, row, row', hrs, hbefore, hsettle, hafter, ?_, hpartition, ?_⟩
    · exact List.mem_append_left _ (hmem _ hacknowledged)
    · exact hoffset.imp id fun hread => List.mem_append_left _ (hmem _ hread)

/-- A transfer whose first write comes late settles rows of which each is one of the batch, or
was read by a loop. -/
theorem overtaken_transfer_settles :
  ∃ s', Keyed .empty ∧
    (∀ key row row', Stood .empty s'.journal key row → Stood .empty s'.journal key row' →
      row.version = row'.version → row = row') ∧
    Exec (shared (raising False home)).Batches ⟨.empty, []⟩ (process hasty [transfer home])
      (.ok (.ok (.committed (transferBatch home).bounds [receiver] [sender, receiver] []))) s' ∧
    ∀ before c after, s'.journal = before ++ .change c :: after → c.agent = .finalize →
      ∃ b row row', ofRecords [transfer home] = .ok (some b) ∧
        c.before = some row ∧ row.settle = .ok row' ∧ c.after = some row' ∧
        .call (.acknowledge b.bounds (.ok (.ok ()))) ∈ before ∧
        row.source.partition = b.bounds.partition ∧
        (row.source.offset ≤ b.bounds.last ∨ .call (.reads row) ∈ before)
  := by
  have hkeyed : Keyed (.empty : Table Address Row) := by
    intro key row hrow
    cases hrow
  have hexec := exec_overtaken may_lateRow
  exact ⟨settledScene, hkeyed, versions_settledScene, hexec,
    settled_positions hkeyed versions_settledScene hexec⟩

/-- Not every row that is settled is behind the acknowledgment: a row of the batch's partition
that comes between the fetch and the first write is ahead of the batch, is found to count the
transfer already, and is settled with it. -/
theorem row_ahead_is_settled :
  ∃ s', Exec (shared (raising False home)).Batches ⟨.empty, []⟩ (process hasty [transfer home])
      (.ok (.ok (.committed (transferBatch home).bounds [receiver] [sender, receiver] []))) s' ∧
    changesAt s'.journal sender = [⟨.other, sender, none, some lateRow⟩,
      ⟨.finalize, sender, some lateRow, some { lateRow with version := 1, settled := true }⟩] ∧
    (transferBatch home).bounds.last < lateRow.source.offset
  := ⟨settledScene, exec_overtaken may_lateRow, rfl, by decide⟩

end Batch

end ChainLedger
