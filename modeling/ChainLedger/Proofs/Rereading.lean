import ChainLedger.Proofs.Accounts
import ChainLedger.Proofs.Chronicle
import ChainLedger.Proofs.Marks

/-!
# Rows that are read again

A loop is to add the deltas of its address that the row fetched with the others does not count.
When its write is refused it reads the row again and adds the same deltas to the row that it
finds, unless this counts the last of them.  A row that others have put in the midst of the
batch's positions counts some of the deltas but not the last, and these are counted twice.
-/

namespace ChainLedger

open Prog

/-! ### Calls that write -/

namespace PortCall

/-- The address whose row the call may change for a loop. -/
def written? : PortCall → Option Address
  | store .loop c _ => c.target?
  | _ => none

/-- The call of a loop that found the row of an address, or that there is none. -/
def finds (key : Address) (row? : Option Row) : PortCall :=
  .store .loop (.find key) (.ok (.answered (.ok row?)))

theorem Restores.written?_eq_none {keys : List Address} {c : PortCall} (h : c.Restores keys) :
  c.written? = none
  := by
  cases c with
  | store who c r =>
      cases who with
      | loop => exact h.elim
      | batch => rfl
  | latestOffset => rfl
  | acknowledge => rfl

theorem Settles.written?_eq_none {ts : List Target} {c : PortCall} (h : c.Settles ts) :
  c.written? = none
  := by
  cases c with
  | store who c r =>
      cases who with
      | loop => exact h.elim
      | batch => rfl
  | latestOffset => rfl
  | acknowledge => rfl

end PortCall

/-- A write that changes a row replaces one of the version of the row it builds on, if any,
by the row that it makes. -/
theorem Write.get?_on_call {w : Write} {row' : Row} {r : Except Fault (Timed Bool)}
    {c : StoreCall} {r' : Except Fault (Timed c.Answer)} {rows : Table Address Row} {key : Address}
    (hcall : w.call row' r = .store .loop c r') (hne : (c.on rows).1.get? key ≠ rows.get? key) :
  (c.on rows).1.get? key = some row' ∧
    (rows.get? key).map Row.version = w.previous.map Row.version
  := by
  have htarget : c.target? = some key := by
    by_contra htarget
    exact hne (StoreCall.get?_on htarget)
  rw [call] at hcall
  split at hcall
  · next hprevious =>
      cases hcall
      cases htarget
      rcases StoreCall.on_insert_cases row' rows with ⟨hnone, hon⟩ | hon
      · simp [hon, hnone, hprevious]
      · rw [hon] at hne
        exact absurd rfl hne
  · next row hprevious =>
      cases hcall
      cases htarget
      rcases StoreCall.on_update_cases row' row.version rows with ⟨old, hold, hversion, hon⟩ | hon
      · simp [hon, hold, hprevious, hversion]
      · rw [hon] at hne
        exact absurd rfl hne

/-- A list that starts with a front is split within the front where what follows this is not. -/
theorem exists_of_append_append {α : Type} {x y front v : List α} {a : α}
    (h : x ++ a :: y = front ++ v) (ha : a ∉ v) :
  ∃ z, front = x ++ a :: z
  := by
  rcases List.append_eq_append_iff.mp h with ⟨z, rfl, hz⟩ | ⟨z, rfl, rfl⟩
  · cases z with
    | nil =>
        rw [List.nil_append] at hz
        rw [← hz] at ha
        exact absurd (.head y) ha
    | cons a' z =>
        cases hz
        exact ⟨z, rfl⟩
  · exact absurd (List.mem_append_right z (.head y)) ha

/-- `P` holds of each call and the calls before it. -/
def EachCall (P : List PortCall → PortCall → Prop) (t : List PortCall) : Prop :=
  ∀ before c after, t = before ++ c :: after → P before c

namespace EachCall

variable {P : List PortCall → PortCall → Prop} {t u : List PortCall} {c : PortCall}

/-- More calls keep it, if it holds of them after any calls. -/
theorem append (h : EachCall P t) (hu : ∀ c ∈ u, ∀ before, P before c) :
  EachCall P (t ++ u)
  := by
  intro before c after hsplit
  by_cases hc : c ∈ u
  · exact hu c hc before
  · obtain ⟨z, hz⟩ := exists_of_append_append hsplit.symm hc
    exact h _ _ _ hz

/-- One more call keeps it, if it holds of this call. -/
theorem concat (h : EachCall P t) (hc : P t c) :
  EachCall P (t ++ [c])
  := by
  intro before c' after hsplit
  rcases split_concat hsplit with ⟨rfl, rfl⟩ | ⟨after, hsplit⟩
  · exact hc
  · exact h before c' after hsplit

end EachCall

/-! ### What a loop builds on -/

/-- The call writes the row that the delta of the job makes of one that does not count it: the
row that the job started from, or one that its loop has found since. -/
def Job.Writes (j : Job) (before : List PortCall) (c : PortCall) : Prop :=
  ∃ w row' r, c = Write.call w row' r ∧ w.Makes j.delta row' ∧
    (∀ row ∈ w.previous, ¬ row.Reflects j.delta.source) ∧
    (w.previous = j.row? ∨ .finds j.delta.key w.previous ∈ before)

/-- All calls that write the address of the job for a loop are writes of the job. -/
def Job.WritesAll (j : Job) : List PortCall → Prop :=
  EachCall fun before c => c.written? = some j.delta.key → j.Writes before c

/-- More calls were recorded, and none of them writes the address for a loop. -/
def Elsewhere (key : Address) (t t' : List PortCall) : Prop :=
  ∃ u, t' = t ++ u ∧ ∀ c ∈ u, c.written? ≠ some key

theorem Elsewhere.one {key : Address} {t : List PortCall} {c : PortCall}
    (h : c.written? ≠ some key) :
  Elsewhere key t (t ++ [c])
  := ⟨[c], rfl, by simpa using h⟩

/-- A loop may rely on the others to write only at other addresses. -/
theorem rely_elsewhere :
  Rely recorded.Loops Elsewhere
  := by
  constructor
  · intro key t
    exact ⟨[], by simp, by simp⟩
  · rintro key t _ _ ⟨u, rfl, hu⟩ ⟨v, rfl, hv⟩
    refine ⟨u ++ v, by simp, ?_⟩
    intro c hc
    exact (List.mem_append.mp hc).elim (hu c) (hv c)
  · intro key key' t c r t' hne habout hcall
    cases hcall with
    | @store _ _ c _ _ hcall =>
        obtain ⟨-, rfl⟩ := hcall
        apply Elsewhere.one
        intro hwritten
        apply hne
        cases c with
        | find => cases hwritten
        | insert row =>
            cases hwritten
            exact habout.symm
        | update row expected =>
            cases hwritten
            exact habout.symm
        | findAll => exact habout.elim
        | remove => exact habout.elim
        | settle => exact habout.elim
    | latestOffset hcall =>
        cases hcall
        exact .one nofun
    | waited => exact ⟨[], by simp, by simp⟩

/-- The others make no call that would have to be a write of the job. -/
theorem Job.WritesAll.elsewhere {j : Job} {t t' : List PortCall} (h : j.WritesAll t)
    (ht : Elsewhere j.delta.key t t') :
  j.WritesAll t'
  := by
  obtain ⟨u, rfl, hu⟩ := ht
  apply EachCall.append h
  intro c hc _ hwritten
  exact absurd hwritten (hu c hc)

/-- What is said of the rows that a job has found and of its writes. -/
def Job.sources (j : Job) : Watch (List PortCall) where
  seen row? t := (∀ row ∈ row?, row.key = j.delta.key) ∧
    (row? = j.row? ∨ .finds j.delta.key row? ∈ t)
  sent _ t := j.WritesAll t
  done _ t := j.WritesAll t

/-- Whatever the end of a write, it is one of the job. -/
theorem Job.writesAll_call {j : Job} {t : List PortCall} {w : Write} {row' : Row}
    {r : Except Fault (Timed Bool)} (h : j.WritesAll t) (hmakes : w.Makes j.delta row')
    (hnew : ∀ row ∈ w.previous, ¬ row.Reflects j.delta.source)
    (hseen : w.previous = j.row? ∨ .finds j.delta.key w.previous ∈ t) :
  j.WritesAll (t ++ [w.call row' r])
  := by
  apply EachCall.concat h
  intro _
  exact ⟨w, row', r, rfl, hmakes, hnew, hseen⟩

/-- The rows that a job builds on are watched soundly. -/
theorem Job.sound_sources (j : Job) :
  j.sources.Sound recorded (Elsewhere j.delta.key) j.delta
  := by
  have hwrite : ∀ (w : Write) (r : Except Fault (Timed Bool)) (t : List PortCall),
      j.WritesAll t → j.sources.AfterWrite w r t := by
    intro w r t h
    exact .of (fun _ => h) (fun _ => h) fun _ => h
  constructor
  · rintro t _ row? ⟨u, rfl, -⟩ ⟨hkey, hseen⟩
    exact ⟨hkey, hseen.imp_right (List.mem_append_left u)⟩
  · intro t t' w? h hsent
    exact hsent.elsewhere h
  · intro t t' w h hdone
    exact hdone.elsewhere h
  · intro t row hseen
    exact hseen.1 row rfl
  · rintro t p r _ rfl
    exact .one nofun
  · rintro t w? r _ hsent ⟨hcarries, rfl⟩
    have hsent' : j.WritesAll (t ++ [.store .loop (.find j.delta.key) r]) :=
      hsent.elsewhere (.one nofun)
    apply Watch.AfterRead.of
    · intro _ _ _ _ _ _ _
      exact hsent'
    · rintro row? rfl -
      refine ⟨hsent', ?_, .inr (by simp [PortCall.finds])⟩
      rintro row rfl
      exact hcarries
    · intro _
      exact hsent'
  · rintro t r _ hsent ⟨-, hseen⟩ ⟨-, rfl⟩
    exact hwrite _ _ _ (writesAll_call hsent (Write.makes_insert j.delta) nofun hseen)
  · rintro t row row' forced r _ hsent ⟨hkey, hseen⟩ hnew hupdated ⟨-, rfl⟩
    refine hwrite _ _ _ (writesAll_call hsent
      (Write.makes_update forced (hkey row rfl) hupdated) ?_ hseen)
    rintro _ ⟨⟩
    exact hnew

namespace Batch

variable {b : Batch} {rs : List Record} {policy : Policy} {t t' : List PortCall}

/-- The calls of jobs that write an address for a loop are writes of one of the jobs. -/
theorem writes_of_completes {jobs : List Job} {ends : List (JobEnd Apply.Result)}
    (hfresh : ∀ j ∈ jobs, j.Fresh) (hnodup : (jobs.map (·.delta.key)).Nodup)
    (hnone : ∀ c ∈ t, c.written? = none) (h : Completes recorded.Loops policy jobs t ends t') :
  EachCall (fun before c => ∀ key, c.written? = some key →
    ∃ j ∈ jobs, j.delta.key = key ∧ j.Writes before c) t'
  := by
  have hstart : ∀ j : Job, j.WritesAll t := by
    rintro j before c after rfl hwritten
    rw [hnone c (by simp)] at hwritten
    cases hwritten
  obtain ⟨hends, hothers⟩ := h.watched (W := Job.sources) rely_elsewhere
    (fun j _ => j.sound_sources) hnodup
    fun j hj => ⟨hstart j, (hfresh j hj).key, .inl rfl⟩
  intro before c after hsplit key hwritten
  by_cases hkey : key ∈ jobs.map (·.delta.key)
  · obtain ⟨j, hj, rfl⟩ := List.mem_map.mp hkey
    obtain ⟨e, -, hend⟩ := exists_of_forall₂ hends hj
    have hall : j.WritesAll t' := by
      cases hend with
      | applied hdone => exact hdone
      | alreadyApplied hsent => exact hsent
      | locked hsent => exact hsent
      | failed _ hsent => exact hsent
    exact ⟨j, hj, rfl, hall before c after hsplit hwritten⟩
  · -- without a job, no loop writes the address
    obtain ⟨u, rfl, hu⟩ := hothers key hkey
    have hc : c ∈ t ++ u := by simp [hsplit]
    rcases List.mem_append.mp hc with hc | hc
    · rw [hnone c hc] at hwritten
      cases hwritten
    · exact absurd hwritten (hu c hc)

/-- What follows the loops is no write of a loop. -/
theorem Rest.written?_eq_none {bounds : Bounds} {carried : List Target}
    {ends : List (JobEnd Apply.Result)} {v : List PortCall} (h : Rest bounds carried ends v) :
  ∀ c ∈ v, c.written? = none
  := by
  intro c hc
  cases h with
  | failed => cases hc
  | undone _ _ hcalls => exact (hcalls c hc).written?_eq_none
  | refused =>
      cases List.mem_singleton.mp hc
      rfl
  | acknowledged _ hcalls =>
      rcases List.mem_cons.mp hc with rfl | hc
      · rfl
      · exact (hcalls c hc).written?_eq_none

/-- A loop writes only after the rows have been fetched, with none but calls of loops since, and
the call is a write of its job. -/
theorem Course.of_write {x y : List PortCall} {c : PortCall} {key : Address}
    (hb : b.Collects rs) (h : Course policy b (x ++ c :: y)) (hwritten : c.written? = some key) :
  ∃ rows merged u, Merge.batch rows b.deltas = .ok merged ∧ x = b.fetched rows :: u ∧
    (∀ c' ∈ u, c'.ByLoop) ∧ ∃ j ∈ jobs rows merged, j.delta.key = key ∧ j.Writes x c
  := by
  generalize ht : x ++ c :: y = t at h
  have hmem : c ∈ t := by simp [← ht]
  have hne : ∀ {r}, c ≠ .store .batch (.findAll b.keys) r := by
    rintro r rfl
    cases hwritten
  cases h with
  | unfetched => exact absurd (List.mem_singleton.mp hmem) hne
  | unmerged => exact absurd (List.mem_singleton.mp hmem) hne
  | @worked rows merged ends u v hkeyed hmerged hcompletes hloops _ hrest =>
      have hselected : ∀ key ∈ b.keys, rows.get? key = rows.get? key := fun _ _ => rfl
      have hplan := hb.planned hselected hmerged
      have hfetched : ∀ c ∈ [b.fetched rows], c.written? = none := by
        intro c hc
        obtain rfl := List.mem_singleton.mp hc
        rfl
      have hwrites := writes_of_completes (fun j hj => hplan.fresh hb hkeyed hj) hplan.nodup
        hfetched hcompletes
      have hv : c ∉ v := by
        intro hc
        rw [hrest.written?_eq_none c hc] at hwritten
        cases hwritten
      obtain ⟨z, hz⟩ := exists_of_append_append ht hv
      have hjob := hwrites x c z hz key hwritten
      cases x with
      | nil =>
          cases hz
          exact absurd rfl hne
      | cons c' x =>
          cases hz
          exact ⟨rows, merged, x, hmerged, rfl,
            fun c' hc' => hloops c' (List.mem_append_left _ hc'), hjob⟩

end Batch

/-! ### What is added -/

namespace Batch

variable {M : Manners} {b : Batch} {rs : List Record} {policy : Policy}

/-- The deltas of an address that one row counts and another does not. -/
def countedOnlyBy (b : Batch) (key : Address) (row? other? : Option Row) : List Delta :=
  (b.pendingFor key other?).filter fun d => ¬ ∀ row ∈ row?, ¬ row.Reflects d.source

/-- What is pending for one row, and what only this one counts, add up to what one of two rows
does not count. -/
theorem total_pendingFor_add (key : Address) (row? other? : Option Row) :
  Delta.total (b.pendingFor key row?) + Delta.total (b.countedOnlyBy key row? other?)
    = Delta.total (b.pendingFor key other?) + Delta.total (b.countedOnlyBy key other? row?)
  := by
  have heither : ∀ row? other? : Option Row,
      Delta.total (b.pendingFor key row?) + Delta.total (b.countedOnlyBy key row? other?)
        = Delta.total ((b.deltas.filter (·.key = key)).filter fun d =>
          (∀ row ∈ row?, ¬ row.Reflects d.source) ∨ ∀ row ∈ other?, ¬ row.Reflects d.source) := by
    intro row? other?
    have hcounted : b.countedOnlyBy key row? other?
        = (b.deltas.filter (·.key = key)).filter fun d =>
          (¬ ∀ row ∈ row?, ¬ row.Reflects d.source) ∧ ∀ row ∈ other?, ¬ row.Reflects d.source := by
      rw [countedOnlyBy, pendingFor, Merge.pending, List.filter_filter]
      apply List.filter_congr
      intro d _
      rw [Bool.decide_and]
    rw [hcounted]
    symm
    apply Delta.total_filter_add
    · intro d _
      rw [or_iff_not_imp_left, or_iff_not_imp_left]
      exact ⟨fun h hnew => ⟨hnew, h hnew⟩, fun h hnew => (h hnew).2⟩
    · intro d _ hpending hcounted
      exact hcounted.1 hpending
  rw [heither row? other?, heither other? row?]
  simp only [or_comm]

/-- A row that counts a delta of the batch which another does not, but not all of the batch, is at
a position of the batch. -/
theorem Collects.contains_of_countedOnlyBy {key : Address} {row? other? : Option Row} {q : Position}
    (hb : b.Collects rs) (hq : b.bounds.Contains q) (hnew : ∀ row ∈ row?, ¬ row.Reflects q)
    (hne : b.countedOnlyBy key row? other? ≠ []) :
  ∃ row ∈ row?, b.bounds.Contains row.source
  := by
  obtain ⟨d, hd⟩ := List.exists_mem_of_ne_nil _ hne
  obtain ⟨hpending, hcounted⟩ := List.mem_filter.mp hd
  obtain ⟨⟨hdeltas, -⟩, -⟩ := mem_pendingFor_iff.mp hpending
  obtain ⟨row, hrow, hreflects⟩ : ∃ row ∈ row?, row.Reflects d.source := by
    simpa using hcounted
  obtain ⟨hpartition, hfirst, -⟩ := hb.contains_source hdeltas
  have hsame : row.source.partition = b.bounds.partition := hreflects.1.trans hpartition
  have hbehind : row.source.offset < q.offset := by
    apply Nat.lt_of_not_le
    intro hle
    exact hnew row hrow ⟨hsame.trans hq.1.symm, hle⟩
  exact ⟨row, hrow, hsame, Nat.le_trans hfirst hreflects.2,
    Nat.le_trans (Nat.le_of_lt hbehind) hq.2.2⟩

/-- The change is the write of what the batch was to apply to the row fetched, over this row or
over one that a loop has found since. -/
structure Effected (b : Batch) (fetched : Table Address Row) (later : List Entry) (c : Change)
    (d : Delta) (w : Write) (row' : Row) : Prop where
  delta : b.toApply c.key (fetched.get? c.key) = some d
  makes : w.Makes d row'
  new : ∀ row ∈ w.previous, ¬ row.Reflects d.source
  found : w.previous = fetched.get? c.key ∨ .call (.finds c.key w.previous) ∈ later
  before : c.before.map Row.version = w.previous.map Row.version
  after : c.after = some row'

/-- A change that a loop makes is the write of what the batch was to apply, and since the rows
were fetched the batch has made no calls but those of its loops. -/
theorem effected_of_loop {rows : Table Address Row} {r : Except Fault (Except Failure Outcome)}
    {s' : Scene} {before after : List Entry} {c : Change} (hkeyed : Keyed rows)
    (h : Exec (shared M).Batches ⟨rows, []⟩ (process policy rs) r s')
    (hsplit : s'.journal = before ++ .change c :: after) (hagent : c.agent = .loop) :
  ∃ b fetched front later d w row', ofRecords rs = .ok (some b) ∧ b.Collects rs ∧
    before = front ++ .call (b.fetched fetched) :: later ∧
    (∀ c', .call c' ∈ later → c'.ByLoop) ∧ b.Effected fetched later c d w row'
  := by
  obtain ⟨journal, who, call, r', rows', rfl, hwho, htarget, hbefore, hafter, hne⟩ :=
    ((Scene.chronicled_of_exec h).coherent before _ after hsplit).2 (by rw [hagent]; nofun)
  obtain rfl : who = .loop := by
    cases who with
    | loop => rfl
    | batch =>
        rw [hagent] at hwho
        cases call <;> cases hwho
  obtain ⟨t, hrecorded, -, rfl⟩ :=
    h.simulate (shared_recorded M).batches (t := []) ⟨hkeyed, rfl⟩
  have hcalls : s'.calls = journal.filterMap Entry.call?
      ++ .store .loop call r' :: after.filterMap Entry.call? := by
    rw [Scene.calls, hsplit, List.filterMap_append, List.filterMap_append, List.append_assoc]
    rfl
  rcases process_calls hrecorded with hnone | ⟨b, hrs, hb, hcourse⟩
  · rw [hcalls] at hnone
    simp at hnone
  · rw [hcalls] at hcourse
    obtain ⟨fetched, merged, u, hmerged, hu, hloops, j, hj, hkey, w, row', r'', hcall, hmakes,
      hnew, hfound⟩ := hcourse.of_write hb htarget
    have hselected : ∀ key ∈ b.keys, fetched.get? key = fetched.get? key := fun _ _ => rfl
    have hplan := hb.planned hselected hmerged
    have hdelta := hplan.delta j hj
    rw [hkey] at hdelta
    rw [hbefore, hafter] at hne
    obtain ⟨hput, hversion⟩ := Write.get?_on_call hcall.symm hne
    obtain ⟨front, e, later, rfl, -, he, rfl⟩ := List.filterMap_eq_cons_iff.mp hu
    obtain rfl : e = .call (b.fetched fetched) := by
      cases e with
      | call c' => exact congrArg Entry.call (Option.some.inj he)
      | change c' => cases he
    have hmem : ∀ c', .call c' ∈ later ++ [.call (.store .loop call r')] → c'.ByLoop := by
      intro c' hc'
      rcases List.mem_append.mp hc' with hc' | hc'
      · exact hloops c' (Entry.mem_filterMap_call.mpr hc')
      · cases List.mem_singleton.mp hc'
        rw [hcall, Write.call]
        split
        · trivial
        · trivial
    refine ⟨b, fetched, front, later ++ [.call (.store .loop call r')], j.delta, w, row', hrs, hb,
      by simp, hmem, hdelta, hmakes, hnew, ?_, ?_, ?_⟩
    · rw [← hkey, ← hplan.row j hj]
      refine hfound.imp_right fun hfound => ?_
      rw [hu] at hfound
      rcases List.mem_cons.mp hfound with heq | hfound
      · cases heq
      · exact List.mem_append_left _ (Entry.mem_filterMap_call.mp hfound)
    · rw [hbefore, hversion]
    · rw [hafter, hput]

/-- A batch shares its rows with others that may change them as they like, under their own
addresses, and any call may be lost if the manners of the others say so.  Every row that a loop
of the batch writes builds on one that was fetched with the others, or that the loop has found
since, and that does not count the last of the deltas.  It has all those deltas more that this
row does not count, and in addition those that it counts but the row fetched did not, which are
none unless this row is at a position of the batch; and it misses those that only the row fetched
did count. -/
theorem totals_of_loop {rows : Table Address Row} {r : Except Fault (Except Failure Outcome)}
    {s' : Scene} (hkeyed : Keyed rows)
    (h : Exec (shared M).Batches ⟨rows, []⟩ (process policy rs) r s') :
  ∀ before c after, s'.journal = before ++ .change c :: after → c.agent = .loop →
    ∃ b fetched found row', ofRecords rs = .ok (some b) ∧ .call (b.fetched fetched) ∈ before ∧
      (found = fetched.get? c.key ∨ .call (.finds c.key found) ∈ before) ∧
      c.before.map Row.version = found.map Row.version ∧ c.after = some row' ∧
      (∀ row ∈ found, ¬ row.Reflects row'.source) ∧
      (b.countedOnlyBy c.key found (fetched.get? c.key) ≠ [] →
        ∃ row ∈ found, b.bounds.Contains row.source) ∧
      row'.totals + Delta.total (b.countedOnlyBy c.key (fetched.get? c.key) found)
        = found.elim 0 Row.totals + Delta.total (b.pendingFor c.key found)
          + Delta.total (b.countedOnlyBy c.key found (fetched.get? c.key))
  := by
  intro before c after hsplit hagent
  obtain ⟨b, fetched, front, later, d, w, row', hrs, hb, rfl, -, heffected⟩ :=
    effected_of_loop hkeyed h hsplit hagent
  -- the delta of the job was merged against the row fetched, whatever the loop has found since
  have hchange : d.change = Delta.total (b.pendingFor c.key (fetched.get? c.key)) := by
    rw [(eq_whole_of_toApply heffected.delta).1]
    rfl
  refine ⟨b, fetched, w.previous, row', hrs, by simp, ?_, heffected.before, heffected.after, ?_,
    ?_, ?_⟩
  · exact heffected.found.imp_right fun hfound => List.mem_append_right _ (.tail _ hfound)
  · rw [(Row.of_written heffected.makes.written).1]
    exact heffected.new
  · intro hne
    obtain ⟨-, -, hcontains, -⟩ := hb.of_toApply heffected.delta
    exact hb.contains_of_countedOnlyBy hcontains heffected.new hne
  · rw [Row.totals_of_written heffected.makes.written, hchange, add_assoc, total_pendingFor_add,
      ← add_assoc]

/-! ### Two transfers that are overtaken -/

/-- Two transfers between the same addresses, of five units and of three. -/
def transfers : List Record :=
  [remittance home .added sender 5 0, remittance home .added sender 3 1]

/-- The batch of the two transfers. -/
def transfersBatch : Batch where
  bounds := ⟨home, 0, 1, 2⟩
  records := transfers

theorem ofRecords_transfers :
  ofRecords transfers = .ok (some transfersBatch)
  := by
  apply ofRecords_of_ascending
  · decide
  · decide

/-- What the transfers together take from the address that pays. -/
def debits : Delta where
  key := sender
  change := { balance := -8, transfers := 2 }
  source := ⟨home, 1⟩
  time := 9

/-- What the transfers together give to the address that is paid. -/
def credits : Delta where
  key := receiver
  change := { balance := 8, received := 8, transfers := 2 }
  source := ⟨home, 1⟩
  time := 9

/-- The row after both transfers are written over one that counts the first. -/
def overlaidRow : Row where
  key := sender
  totals := { balance := -13, transfers := 3 }
  version := 1
  source := ⟨home, 1⟩
  settled := false
  firstSeen := 9
  lastSeen := 9

/-- The write of this row. -/
def overlay : Write where
  key := sender
  previous := some (Row.ofDelta debit)
  version := 1
  forced := false

/-- The scene when the batch has fetched its rows. -/
def unreadScene : Scene := Scene.serve ⟨.empty, []⟩ .batch (.findAll transfersBatch.keys)

/-- The scene when the first row has been refused, as an earlier delivery of the first transfer
alone has made one since the fetch. -/
def refusedScene : Scene :=
  (unreadScene.meddle sender (some (Row.ofDelta debit))).serve .loop (.insert (Row.ofDelta debits))

/-- The scene when the row has been read again and replaced. -/
def overlaidScene : Scene :=
  (refusedScene.serve .loop (.find sender)).serve .loop (.update overlaidRow 0)

/-- The scene when the loops have ended. -/
def transferredScene : Scene := overlaidScene.serve .loop (.insert (Row.ofDelta credits))

/-- The scene when the batch is acknowledged and its rows are settled. -/
def closedScene : Scene :=
  (((transferredScene.note (.acknowledge transfersBatch.bounds (.ok (.ok ())))).serve .batch
    (.findAll [sender, receiver])).serve .batch (.settle sender 1)).serve .batch
      (.settle receiver 0)

/-- The jobs of the transfers, one after the other: one is refused, finds the row of the first
transfer and replaces it, the other makes its row. -/
theorem completes_overlaid :
  Completes (shared (raising False home)).Loops hasty [⟨debits, none⟩, ⟨credits, none⟩]
    unreadScene [.finished (.ok (.applied overlay)), .finished (.ok (.applied receipt))]
    transferredScene
  := by
  have hmay : (raising False home).may sender (Mine unreadScene.journal sender) none
      (some (Row.ofDelta debit)) :=
    ⟨Row.ofDelta debit, rfl, rfl, nofun, False.elim⟩
  have hrefused : Task.Path (shared (raising False home)).Loops hasty ⟨debits, none⟩
      (unreadScene, Task.start hasty ⟨debits, none⟩)
      (refusedScene, .running (Apply.turn hasty debits { seen := none })) := by
    apply Task.path_of_exec (r := .ok (.again { seen := none }))
    exact .answered (.store (shared_meddle hmay)) (.done _ _)
  have hread : Task.Path (shared (raising False home)).Loops hasty ⟨debits, none⟩
      (refusedScene, .running (Apply.turn hasty debits { seen := none }))
      (refusedScene.serve .loop (.find sender),
        .running (Apply.turn hasty debits { seen := some (some (Row.ofDelta debit)) })) := by
    apply Task.path_of_exec (r := .ok (.again { seen := some (some (Row.ofDelta debit)) }))
    exact .answered (.store shared_serve) (.done _ _)
  have hoverlaid : Task.Path (shared (raising False home)).Loops hasty ⟨debits, none⟩
      (refusedScene.serve .loop (.find sender),
        .running (Apply.turn hasty debits { seen := some (some (Row.ofDelta debit)) }))
      (overlaidScene, .ended (.finished (.ok (.applied overlay)))) := by
    apply Task.path_of_exec (r := .ok (.stop (.ok (.applied overlay))))
    exact .answered (.store shared_serve) (.done _ _)
  have hmade : Task.Path (shared (raising False home)).Loops hasty ⟨credits, none⟩
      (overlaidScene, Task.start hasty ⟨credits, none⟩)
      (transferredScene, .ended (.finished (.ok (.applied receipt)))) := by
    apply Task.path_of_exec (r := .ok (.stop (.ok (.applied receipt))))
    exact .answered (.store shared_serve) (.done _ _)
  exact completes_pair ((hrefused.trans hread).trans hoverlaid) hmade

/-- The transfers are acknowledged, and both rows are settled. -/
theorem exec_overlaid :
  Exec (shared (raising False home)).Batches ⟨.empty, []⟩ (process hasty transfers)
    (.ok (.ok (.committed transfersBatch.bounds [sender, receiver] [sender, receiver] [])))
    closedScene
  := by
  rw [process]
  refine .answered (.accepting _ true) ?_
  dsimp only [Prog.bind]
  rw [if_pos rfl, ofRecords_transfers]
  refine .answered (.store (r := .ok _) shared_serve) ?_
  refine .answered (.told _ _) ?_
  refine .answered (.applied completes_overlaid) ?_
  refine .answered (.told _ _) ?_
  refine .answered (.acknowledged (r := .ok (.ok ())) rfl) ?_
  refine .answered (.told _ _) (.answered (.told _ _) ?_)
  refine .answered (.store (r := .ok _) shared_serve) ?_
  refine .answered (.told _ _) ?_
  refine .answered (.store (r := .ok _) shared_serve) ?_
  refine .answered (.store (r := .ok _) shared_serve) ?_
  exact .answered (.told _ _) (.answered (.told _ _) (.done _ _))

/-- The loops of the two transfers build on the row of the first transfer and on none. -/
theorem overtaken_transfers_add_up :
  ∃ s', Keyed .empty ∧
    Exec (shared (raising False home)).Batches ⟨.empty, []⟩ (process hasty transfers)
      (.ok (.ok (.committed transfersBatch.bounds [sender, receiver] [sender, receiver] []))) s' ∧
    ((s'.journal.filterMap Entry.change?).filter (·.agent = .loop)).map (·.before)
      = [some (Row.ofDelta debit), none] ∧
    ∀ before c after, s'.journal = before ++ .change c :: after → c.agent = .loop →
      ∃ b fetched found row', ofRecords transfers = .ok (some b) ∧
        .call (b.fetched fetched) ∈ before ∧
        (found = fetched.get? c.key ∨ .call (.finds c.key found) ∈ before) ∧
        c.before.map Row.version = found.map Row.version ∧ c.after = some row' ∧
        (∀ row ∈ found, ¬ row.Reflects row'.source) ∧
        (b.countedOnlyBy c.key found (fetched.get? c.key) ≠ [] →
          ∃ row ∈ found, b.bounds.Contains row.source) ∧
        row'.totals + Delta.total (b.countedOnlyBy c.key (fetched.get? c.key) found)
          = found.elim 0 Row.totals + Delta.total (b.pendingFor c.key found)
            + Delta.total (b.countedOnlyBy c.key found (fetched.get? c.key))
  := by
  exact ⟨closedScene, keyed_empty, exec_overlaid, rfl, totals_of_loop keyed_empty exec_overlaid⟩

/-- Not every row that a loop writes has just the deltas more that the row before does not
count: the row that counts the first transfer is replaced by one that counts it twice. -/
theorem row_in_midst_is_counted_twice :
  ∃ s', Exec (shared (raising False home)).Batches ⟨.empty, []⟩ (process hasty transfers)
      (.ok (.ok (.committed transfersBatch.bounds [sender, receiver] [sender, receiver] []))) s' ∧
    changesAt s'.journal sender = [⟨.other, sender, none, some (Row.ofDelta debit)⟩,
      ⟨.loop, sender, some (Row.ofDelta debit), some overlaidRow⟩,
      ⟨.finalize, sender, some overlaidRow, some { overlaidRow with version := 2, settled := true }⟩] ∧
    overlaidRow.totals = { balance := -13, transfers := 3 } ∧
    (Row.ofDelta debit).totals
        + Delta.total (transfersBatch.pendingFor sender (some (Row.ofDelta debit)))
      = { balance := -8, transfers := 2 }
  := ⟨closedScene, exec_overlaid, rfl, rfl, by decide⟩

end Batch

end ChainLedger
