import ChainLedger.Proofs.Results
import ChainLedger.Proofs.Watching

/-!
# The order of the calls

Every call of the store, the oracle and the log is recorded with its end.  The calls may end
in any way, as long as a row that is answered carries the address asked for.  Whatever the
ends, the calls of a batch follow one of a few courses: it fetches its rows, its loops run to
their ends, and what comes then depends on these ends alone.
-/

namespace ChainLedger

open Prog

/-- A call of the store, the oracle or the log, with its end. -/
inductive PortCall
  | store (who : Caller) (c : StoreCall) (r : Except Fault (Timed c.Answer))
  | latestOffset (p : Partition) (r : Except Fault (Except OracleError (Option Nat)))
  | acknowledge (b : Bounds) (r : Except Fault (Except LogError Unit))

namespace PortCall

/-- Whether the call acknowledges a batch. -/
def isAcknowledgment : PortCall → Bool
  | acknowledge .. => true
  | store .. | latestOffset .. => false

/-- The address whose row the call settles. -/
def settled? : PortCall → Option Address
  | store _ (.settle key _) _ => some key
  | _ => none

/-- The call is one that an apply loop may make. -/
def ByLoop : PortCall → Prop
  | store .loop (.find _) _ | store .loop (.insert _) _ | store .loop (.update _ _) _ => True
  | latestOffset _ _ => True
  | _ => False

/-- The call of a loop that read a row. -/
def reads (row : Row) : PortCall :=
  .store .loop (.find row.key) (.ok (.answered (.ok (some row))))

/-- The call puts back the row of one of the addresses, or finds out whether it may. -/
def Restores (keys : List Address) : PortCall → Prop
  | store .batch (.update row _) _ => row.key ∈ keys
  | store .batch (.find key) _ => key ∈ keys
  | store .batch (.remove key) _ => key ∈ keys
  | _ => False

/-- The call settles one of the rows, or reads them again. -/
def Settles (ts : List Target) : PortCall → Prop
  | store .batch (.findAll keys) _ => keys = ts.map (·.key)
  | store .batch (.settle key version) _ => ⟨key, version⟩ ∈ ts
  | _ => False

/-- The call neither acknowledges a batch nor settles a row. -/
def Quiet (c : PortCall) : Prop := c.isAcknowledgment = false ∧ c.settled? = none

/-- A store call is quiet unless it settles a row. -/
theorem quiet_store {who : Caller} {c : StoreCall} {r : Except Fault (Timed c.Answer)}
    (h : ∀ key version, c ≠ .settle key version) :
  (store who c r).Quiet
  := by
  cases c with
  | settle key version => exact absurd rfl (h key version)
  | find => exact ⟨rfl, rfl⟩
  | findAll => exact ⟨rfl, rfl⟩
  | insert => exact ⟨rfl, rfl⟩
  | update => exact ⟨rfl, rfl⟩
  | remove => exact ⟨rfl, rfl⟩

theorem ByLoop.quiet {c : PortCall} (h : c.ByLoop) :
  c.Quiet
  := by
  cases c with
  | store who c r =>
      apply quiet_store
      rintro key version rfl
      cases who with
      | loop => exact h.elim
      | batch => exact h.elim
  | latestOffset => exact ⟨rfl, rfl⟩
  | acknowledge => exact h.elim

theorem Restores.quiet {keys : List Address} {c : PortCall} (h : c.Restores keys) :
  c.Quiet
  := by
  cases c with
  | store who c r =>
      apply quiet_store
      rintro key version rfl
      cases who with
      | loop => exact h.elim
      | batch => exact h.elim
  | latestOffset => exact h.elim
  | acknowledge => exact h.elim

theorem Settles.isAcknowledgment_eq_false {ts : List Target} : ∀ {c : PortCall},
    c.Settles ts → c.isAcknowledgment = false
  | store _ _ _, _ => rfl

end PortCall

/-- The rows of the answer carry the addresses asked for. -/
def Carries : (c : StoreCall) → Except Fault (Timed c.Answer) → Prop
  | .find key, .ok (.answered (.ok (some row))) => row.key = key
  | .findAll _, .ok (.answered (.ok rows)) => Keyed rows
  | _, _ => True

/-- Ports that record their calls, whose rows carry the addresses asked for. -/
def recorded : Ports (List PortCall) where
  store who t c r t' := Carries c r ∧ t' = t ++ [.store who c r]
  latestOffset t p r t' := t' = t ++ [.latestOffset p r]
  acknowledge t b r t' := t' = t ++ [.acknowledge b r]

/-! ### The calls of one loop -/

/-- A write of the delta makes a row of the one that it replaces. -/
structure Write.Makes (w : Write) (d : Delta) (row' : Row) : Prop where
  key : w.key = d.key
  previous : ∀ row ∈ w.previous, row.key = d.key
  written : Row.written w.previous d = .ok row'
  version : w.version = row'.version

/-- What is written over a row has the next version. -/
theorem Write.Makes.version_succ {w : Write} {d : Delta} {row row' : Row} (h : w.Makes d row')
    (hrow : w.previous = some row) :
  row'.version = row.version + 1
  := by
  have hwritten := h.written
  rw [hrow] at hwritten
  obtain ⟨-, -, rfl⟩ := Row.apply_eq_ok_iff.mp hwritten
  rfl

/-- The first write at an address makes the row of the delta. -/
theorem Write.makes_insert (d : Delta) :
  Write.Makes { key := d.key, previous := none, version := 0, forced := false } d (Row.ofDelta d)
  := by
  constructor
  · rfl
  · rintro _ ⟨⟩
  · rfl
  · rfl

/-- A write over a row makes the row with the delta applied. -/
theorem Write.makes_update {d : Delta} {row row' : Row} (forced : Bool) (hkey : row.key = d.key)
    (hupdated : row.apply d = .ok row') :
  Write.Makes { key := d.key, previous := some row, version := row'.version, forced } d row'
  := by
  constructor
  · rfl
  · rintro _ ⟨⟩
    exact hkey
  · exact hupdated
  · rfl

/-- The call of a write. -/
def Write.call (w : Write) (row' : Row) (r : Except Fault (Timed Bool)) : PortCall :=
  match w.previous with
  | none => .store .loop (.insert row') r
  | some row => .store .loop (.update row' row.version) r

/-- The write was called and not answered. -/
def Write.InFlight (w : Write) (d : Delta) (t : List PortCall) : Prop :=
  ∃ row' r t₁ t₂, w.Makes d row' ∧ t = t₁ ++ w.call row' r :: t₂ ∧ Unanswered r

/-- What the recorded calls show of how a loop of the delta has ended. -/
inductive Shown (d : Delta) (t : List PortCall) : Ending → Prop
  /-- Its own write was answered. -/
  | answered {w : Write} {row' : Row} (hmakes : w.Makes d row')
      (hcall : w.call row' (.ok (.answered (.ok true))) ∈ t) : Shown d t (.applied w)
  /-- Its own write was not answered, but was read later. -/
  | readBack {w : Write} {row' row : Row} {r : Except Fault (Timed Bool)} {t₁ t₂ : List PortCall}
      (hmakes : w.Makes d row') (ht : t = t₁ ++ w.call row' r :: t₂) (hr : Unanswered r)
      (hread : .reads row ∈ t₂) (hkey : row.key = d.key) (hlanded : Apply.Landed d w row) :
      Shown d t (.applied w)
  /-- It read a row that counts the delta. -/
  | alreadyApplied {row : Row} (hread : .reads row ∈ t) (hkey : row.key = d.key)
      (hreflects : row.Reflects d.source) :
      Shown d t (.alreadyApplied d.key row.version row.settled)
  /-- It found the address locked. -/
  | locked {reason : LockReason} : Shown d t (.locked d.key reason)

/-- More calls of loops were recorded. -/
def Grown (t t' : List PortCall) : Prop := ∃ u, t' = t ++ u ∧ ∀ c ∈ u, c.ByLoop

theorem Grown.refl {t : List PortCall} :
  Grown t t
  := ⟨[], by simp, by simp⟩

theorem Grown.trans {t t' t'' : List PortCall} (h : Grown t t') (h' : Grown t' t'') :
  Grown t t''
  := by
  obtain ⟨u, rfl, hu⟩ := h
  obtain ⟨v, rfl, hv⟩ := h'
  refine ⟨u ++ v, by simp, ?_⟩
  intro c hc
  exact (List.mem_append.mp hc).elim (hu c) (hv c)

theorem Grown.one {t : List PortCall} {c : PortCall} (hc : c.ByLoop) :
  Grown t (t ++ [c])
  := ⟨[c], rfl, by simpa using hc⟩

theorem Grown.mem {t t' : List PortCall} (h : Grown t t') {c : PortCall} (hc : c ∈ t) :
  c ∈ t'
  := by
  obtain ⟨u, rfl, -⟩ := h
  exact List.mem_append_left u hc

theorem Write.InFlight.grown {w : Write} {d : Delta} {t t' : List PortCall} (h : Grown t t')
    (hw : w.InFlight d t) :
  w.InFlight d t'
  := by
  obtain ⟨u, rfl, -⟩ := h
  obtain ⟨row', r, t₁, t₂, hmakes, rfl, hr⟩ := hw
  exact ⟨row', r, t₁, t₂ ++ u, hmakes, by simp, hr⟩

/-- What the calls show, they show with more calls too. -/
theorem Shown.grown {d : Delta} {t t' : List PortCall} {e : Ending} (h : Grown t t')
    (hshown : Shown d t e) :
  Shown d t' e
  := by
  cases hshown with
  | answered hmakes hcall => exact .answered hmakes (h.mem hcall)
  | @readBack w row' row r t₁ t₂ hmakes ht hr hread hkey hlanded =>
      obtain ⟨u, rfl, -⟩ := h
      subst ht
      exact .readBack hmakes (List.append_assoc t₁ _ u) hr (List.mem_append_left u hread) hkey
        hlanded
  | alreadyApplied hread hkey hreflects => exact .alreadyApplied (h.mem hread) hkey hreflects
  | locked => exact .locked

/-- The ending of a loop is for the address of its delta. -/
theorem Shown.key {d : Delta} {t : List PortCall} {e : Ending} (h : Shown d t e) :
  e.key = d.key
  := by
  cases h with
  | answered hmakes => exact hmakes.key
  | readBack hmakes => exact hmakes.key
  | alreadyApplied => rfl
  | locked => rfl

/-- What is said of a job's reads and writes after the calls recorded from `t₀` on. -/
def Job.calls (j : Job) (t₀ : List PortCall) : Watch (List PortCall) where
  seen row? t := ∀ row ∈ row?, row.key = j.delta.key ∧ (j.row? = some row ∨ .reads row ∈ t)
  sent w? t := Grown t₀ t ∧ ∀ w ∈ w?, w.InFlight j.delta t
  done w t := Grown t₀ t ∧ Shown j.delta t (.applied w)

/-- A write that was called is done if it was answered so, and may be in flight if it was not
answered. -/
theorem Job.afterWrite {j : Job} {t₀ t t' : List PortCall} {w : Write} {row' : Row}
    {r : Except Fault (Timed Bool)} (hmakes : w.Makes j.delta row') (hgrown : Grown t₀ t)
    (ht : t' = t ++ [w.call row' r]) :
  (j.calls t₀).AfterWrite w r t'
  := by
  subst ht
  have hgrown' : Grown t₀ (t ++ [w.call row' r]) := by
    apply hgrown.trans
    apply Grown.one
    rw [Write.call]
    split
    · trivial
    · trivial
  apply Watch.AfterWrite.of
  · rintro rfl
    exact ⟨hgrown', .answered hmakes (by simp)⟩
  · rintro rfl
    refine ⟨hgrown', ?_⟩
    rintro _ ⟨⟩
  · intro hr
    refine ⟨hgrown', ?_⟩
    rintro _ ⟨⟩
    exact ⟨row', r, t, [], hmakes, rfl, hr⟩

/-- The recorded calls of a job are watched soundly. -/
theorem Job.sound_calls (j : Job) (t₀ : List PortCall) :
  (j.calls t₀).Sound recorded Grown j.delta
  := by
  constructor
  · intro t t' row? h hseen row hrow
    obtain ⟨hkey, hread⟩ := hseen row hrow
    exact ⟨hkey, hread.imp_right h.mem⟩
  · rintro t t' w? h ⟨hgrown, hflight⟩
    exact ⟨hgrown.trans h, fun w hw => (hflight w hw).grown h⟩
  · rintro t t' w h ⟨hgrown, hshown⟩
    exact ⟨hgrown.trans h, hshown.grown h⟩
  · intro t row hseen
    exact (hseen row rfl).1
  · rintro t p r _ rfl
    exact .one trivial
  · rintro t w? r _ ⟨hgrown, hflight⟩ ⟨hcarries, rfl⟩
    have hgrown' : Grown t₀ (t ++ [.store .loop (.find j.delta.key) r]) :=
      hgrown.trans (.one trivial)
    have hread : ∀ row, r = .ok (.answered (.ok (some row))) → row.key = j.delta.key ∧
        .reads row ∈ t ++ [.store .loop (.find j.delta.key) r] := by
      rintro row rfl
      have hkey : row.key = j.delta.key := hcarries
      exact ⟨hkey, by simp [PortCall.reads, hkey]⟩
    apply Watch.AfterRead.of
    · rintro _ hanswered w hw row rfl hlanded
      obtain ⟨row', r', t₁, t₂, hmakes, rfl, hr⟩ := hflight w hw
      obtain ⟨hkey, -⟩ := hread row hanswered
      refine ⟨hgrown', .readBack hmakes (List.append_assoc t₁ _ _) hr ?_ hkey hlanded⟩
      simp [PortCall.reads, hkey, hanswered]
    · rintro row? hanswered -
      refine ⟨⟨hgrown', ?_⟩, ?_⟩
      · rintro _ ⟨⟩
      · rintro row rfl
        obtain ⟨hkey, hreads⟩ := hread row hanswered
        exact ⟨hkey, .inr hreads⟩
    · intro hr
      exact ⟨hgrown', fun w hw => (hflight w hw).grown (.one trivial)⟩
  · rintro t r _ ⟨hgrown, -⟩ - ⟨-, rfl⟩
    exact Job.afterWrite (Write.makes_insert j.delta) hgrown rfl
  · rintro t row row' forced r _ ⟨hgrown, -⟩ hseen - hupdated ⟨-, rfl⟩
    have hkey : row.key = j.delta.key := (hseen row rfl).1
    exact Job.afterWrite (Write.makes_update forced hkey hupdated) hgrown rfl

/-! ### The answers of a store -/

variable {rows : Table Address Row}

/-- The address whose row the call may change. -/
def StoreCall.target? : StoreCall → Option Address
  | find _ => none
  | findAll _ => none
  | insert row => some row.key
  | update row _ => some row.key
  | remove key => some key
  | settle key _ => some key

/-- A table with the row of one address put, or removed. -/
def Table.put (rows : Table Address Row) (key : Address) : Option Row → Table Address Row
  | none => rows.erase key
  | some row => rows.insert key row

@[simp]
theorem Table.get?_put (rows : Table Address Row) (key k : Address) (row? : Option Row) :
  (rows.put key row?).get? k = if k = key then row? else rows.get? k
  := by
  cases row? with
  | none =>
      rw [put, get?_erase]
      exact if_congr eq_comm rfl rfl
  | some row => rw [put, get?_insert]

/-- A store call leaves the rows as they are, or puts or removes the row of its target, under
the address that it is of or that the row before was of. -/
theorem StoreCall.on_eq_or_put (c : StoreCall) (rows : Table Address Row) :
  (c.on rows).1 = rows ∨ ∃ key row?, c.target? = some key ∧ (c.on rows).1 = rows.put key row? ∧
    ∀ row ∈ row?, row.key = key ∨ ∃ old, rows.get? key = some old ∧ row.key = old.key
  := by
  cases c with
  | find key => exact .inl rfl
  | findAll keys => exact .inl rfl
  | insert row =>
      rcases on_insert_cases row rows with ⟨-, hon⟩ | hon
      · rw [hon]
        exact .inr ⟨row.key, some row, rfl, rfl, by simp⟩
      · rw [hon]
        exact .inl rfl
  | update row expected =>
      rcases on_update_cases row expected rows with ⟨old, -, -, hon⟩ | hon
      · rw [hon]
        exact .inr ⟨row.key, some row, rfl, rfl, by simp⟩
      · rw [hon]
        exact .inl rfl
  | remove key => exact .inr ⟨key, none, rfl, rfl, by simp⟩
  | settle key expected =>
      cases hrow : rows.get? key with
      | none =>
          left
          simp [on, MemoryStore.perform, hrow]
      | some row =>
          by_cases hversion : row.version = expected
          · cases hsettle : row.settle with
            | ok row' =>
                rw [on_settle_of_ok hrow hversion hsettle]
                obtain ⟨-, rfl⟩ := Row.settle_eq_ok_iff.mp hsettle
                refine .inr ⟨key, some _, rfl, rfl, ?_⟩
                rintro _ ⟨⟩
                exact .inr ⟨row, hrow, rfl⟩
            | error o =>
                rw [on_settle_of_error hrow hversion hsettle]
                exact .inl rfl
          · left
            simp [on, MemoryStore.perform, hrow, hversion]

/-- A store call leaves the rows of all addresses but its target. -/
theorem StoreCall.get?_on {c : StoreCall} {key : Address} (hkey : c.target? ≠ some key) :
  (c.on rows).1.get? key = rows.get? key
  := by
  rcases c.on_eq_or_put rows with heq | ⟨k, row?, htarget, heq, -⟩
  · rw [heq]
  · rw [heq, Table.get?_put, if_neg]
    rintro rfl
    exact hkey htarget

theorem Keyed.put (h : Keyed rows) {key : Address} {row? : Option Row}
    (hkey : ∀ row ∈ row?, row.key = key) :
  Keyed (rows.put key row?)
  := by
  intro k row hrow
  rw [Table.get?_put] at hrow
  split at hrow
  · next hk =>
      rw [hk]
      exact hkey row hrow
  · exact h k row hrow

/-- A store keeps every row under its own address. -/
theorem StoreCall.keyed_on (h : Keyed rows) (c : StoreCall) :
  Keyed (c.on rows).1
  := by
  rcases c.on_eq_or_put rows with heq | ⟨key, row?, -, heq, hrow⟩
  · rw [heq]
    exact h
  · rw [heq]
    apply h.put
    intro row hmem
    rcases hrow row hmem with hkey | ⟨old, hold, hkey⟩
    · exact hkey
    · rw [hkey]
      exact h key old hold

/-- Rows stored under their own addresses are answered so. -/
theorem StoreCall.carries_on (h : Keyed rows) (c : StoreCall) :
  Carries c ((c.on rows).2.map .answered)
  := by
  cases c with
  | find key =>
      change Carries (find key) (.ok (.answered (.ok (rows.get? key))))
      cases hrow : rows.get? key with
      | none => trivial
      | some row => exact h key row hrow
  | findAll keys =>
      intro key row hrow
      rw [MemoryStore.get?_select] at hrow
      split at hrow
      · exact h key row hrow
      · cases hrow
  | insert => trivial
  | update => trivial
  | remove => trivial
  | settle => trivial

/-- A call that is not answered answers with no row. -/
theorem carries_of_unanswered {c : StoreCall} {r : Except Fault (Timed c.Answer)}
    (hr : Unanswered r) :
  Carries c r
  := by
  cases c with
  | find key =>
      rcases r with f | (e | row?) | _
      · trivial
      · trivial
      · exact absurd rfl (hr row?)
      · trivial
  | findAll keys =>
      rcases r with f | (e | rows) | _
      · trivial
      · trivial
      · exact absurd rfl (hr rows)
      · trivial
  | insert => trivial
  | update => trivial
  | remove => trivial
  | settle => trivial

/-- An undisturbed store answers with rows that carry the addresses asked for. -/
theorem simulates_recorded {Λ : Type} (parties : Parties Λ) :
  (Ports.undisturbed parties).Simulates recorded fun s _ => Keyed s.rows
  := by
  constructor
  · rintro who s c r s' t ⟨rfl, rfl⟩ hkeyed
    exact ⟨_, ⟨StoreCall.carries_on hkeyed c, rfl⟩, StoreCall.keyed_on hkeyed c⟩
  · rintro s p r s' t ⟨rfl, rfl⟩ hkeyed
    exact ⟨_, rfl, hkeyed⟩
  · rintro s b r s' t ⟨rfl, rfl⟩ hkeyed
    exact ⟨_, rfl, hkeyed⟩

end ChainLedger
