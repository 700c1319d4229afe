import ChainLedger.Proofs.Calls

/-!
# A store that others use

The rows of a store that a batch shares with other writers, and a journal of all calls of the
batch and of all changes to the rows, each with the row before and after it.  The others may
change rows before every call, as far as their manners allow, and calls may be lost, before
or after their effect but never to take effect later.
-/

namespace ChainLedger

open Prog

/-- Who changes a row: a loop of the batch, the batch itself when it is undone or settled, or
somebody else. -/
inductive Agent
  | loop
  | undo
  | finalize
  | other
deriving DecidableEq

/-- A change of the row of an address. -/
structure Change where
  agent : Agent
  key : Address
  before : Option Row
  after : Option Row
deriving DecidableEq

/-- An entry of the journal. -/
inductive Entry
  /-- A call of the batch, with its end. -/
  | call (c : PortCall)
  /-- A change of a row. -/
  | change (c : Change)

namespace Entry

/-- The call of an entry. -/
def call? : Entry → Option PortCall
  | call c => some c
  | change _ => none

/-- The change of an entry. -/
def change? : Entry → Option Change
  | call _ => none
  | change c => some c

end Entry

/-- The calls of a journal are those that are in it. -/
theorem Entry.mem_filterMap_call {c : PortCall} {journal : List Entry} :
  c ∈ journal.filterMap Entry.call? ↔ .call c ∈ journal
  := by
  rw [List.mem_filterMap]
  constructor
  · rintro ⟨e, he, hcall⟩
    cases e with
    | call c' =>
        cases hcall
        exact he
    | change c' => cases hcall
  · intro h
    exact ⟨_, h, rfl⟩

/-- The changes of the row of an address. -/
def changesAt (journal : List Entry) (key : Address) : List Change :=
  (journal.filterMap Entry.change?).filter (·.key = key)

@[simp]
theorem changesAt_nil (key : Address) :
  changesAt [] key = []
  := rfl

@[simp]
theorem changesAt_append (j j' : List Entry) (key : Address) :
  changesAt (j ++ j') key = changesAt j key ++ changesAt j' key
  := by
  simp [changesAt]

@[simp]
theorem changesAt_call (c : PortCall) (j : List Entry) (key : Address) :
  changesAt (.call c :: j) key = changesAt j key
  := rfl

@[simp]
theorem changesAt_change (c : Change) (j : List Entry) (key : Address) :
  changesAt (.change c :: j) key = if c.key = key then c :: changesAt j key else changesAt j key
  := by
  by_cases hkey : c.key = key
  · simp [changesAt, Entry.change?, hkey]
  · simp [changesAt, Entry.change?, hkey]

/-- The row of the address was last changed by a loop of the batch. -/
def Mine (journal : List Entry) (key : Address) : Prop :=
  ∃ c, (changesAt journal key).getLast? = some c ∧ c.agent = .loop

/-- What a batch shares with others, and what has happened so far. -/
structure Scene where
  rows : Table Address Row
  journal : List Entry

/-- What others may do to rows, and which calls of the batch may be lost. -/
structure Manners where
  /-- Somebody else may replace the row of an address, which may have been changed last by a
  loop of the batch. -/
  may : (key : Address) → (mine : Prop) → (old new : Option Row) → Prop
  /-- A row is put under its own address. -/
  keyed : ∀ {key mine old row}, may key mine old (some row) → row.key = key
  /-- The call may be lost. -/
  lossy : Caller → StoreCall → Prop

/-- Who changes a row by the call. -/
def Caller.agent : Caller → StoreCall → Agent
  | loop, _ => .loop
  | batch, .settle _ _ => .finalize
  | batch, _ => .undo

namespace Scene

/-- The change that a call has made, if it has made one. -/
def noted (agent : Agent) (c : StoreCall) (rows rows' : Table Address Row) : List Entry :=
  match c.target? with
  | none => []
  | some key =>
    if rows'.get? key = rows.get? key then []
    else [.change ⟨agent, key, rows.get? key, rows'.get? key⟩]

/-- The scene after the call has ended and left the rows. -/
def answer (s : Scene) (who : Caller) (c : StoreCall) (r : Except Fault (Timed c.Answer))
    (rows : Table Address Row) : Scene where
  rows := rows
  journal := s.journal ++ .call (.store who c r) :: noted (who.agent c) c s.rows rows

/-- The scene after a call that is not one of the store. -/
def note (s : Scene) (c : PortCall) : Scene := { s with journal := s.journal ++ [.call c] }

/-- The scene after somebody else has put or removed a row. -/
def meddle (s : Scene) (key : Address) (row? : Option Row) : Scene where
  rows := s.rows.put key row?
  journal := s.journal ++ [.change ⟨.other, key, s.rows.get? key, row?⟩]

/-- Somebody else has changed a row. -/
def Meddled (M : Manners) (s s' : Scene) : Prop :=
  ∃ key row?, M.may key (Mine s.journal key) (s.rows.get? key) row? ∧ s' = s.meddle key row?

/-- The calls so far. -/
def calls (s : Scene) : List PortCall := s.journal.filterMap Entry.call?

end Scene

/-- The ports of a batch that shares the store with others. -/
def shared (M : Manners) : Ports Scene where
  store who s c r s' := ∃ s₁ rows, Relation.ReflTransGen (Scene.Meddled M) s s₁ ∧
    StoreAnswers (M.lossy who c) s₁.rows c r rows ∧ s' = s₁.answer who c r rows
  latestOffset s p r s' := s' = s.note (.latestOffset p r)
  acknowledge s b r s' := s' = s.note (.acknowledge b r)

/-! ### The effect of a call -/

namespace StoreAnswers

variable {lossy : Prop} {rows rows' : Table Address Row} {c : StoreCall}
  {r : Except Fault (Timed c.Answer)}

/-- A store call leaves the rows as they are, or has its effect. -/
theorem rows_eq (h : StoreAnswers lossy rows c r rows') :
  rows' = rows ∨ rows' = (c.on rows).1
  := by
  cases h with
  | served => exact .inr rfl
  | lost => exact .inl rfl
  | landed => exact .inr rfl

/-- A store call leaves the rows of all addresses but its target. -/
theorem get?_eq (h : StoreAnswers lossy rows c r rows') {key : Address}
    (hkey : c.target? ≠ some key) :
  rows'.get? key = rows.get? key
  := by
  rcases h.rows_eq with rfl | rfl
  · rfl
  · exact StoreCall.get?_on hkey

/-- Whether a store call is answered or not, the rows stay under their own addresses. -/
theorem keyed (h : StoreAnswers lossy rows c r rows') (hkeyed : Keyed rows) :
  Keyed rows' ∧ Carries c r
  := by
  cases h with
  | served => exact ⟨StoreCall.keyed_on hkeyed c, StoreCall.carries_on hkeyed c⟩
  | lost _ hr => exact ⟨hkeyed, carries_of_unanswered hr⟩
  | landed _ hr => exact ⟨StoreCall.keyed_on hkeyed c, carries_of_unanswered hr⟩

/-- A call that is answered has had its effect, and the answer is that of the store. -/
theorem of_answered (h : StoreAnswers lossy rows c r rows') {a : c.Answer}
    (hr : r = .ok (.answered (.ok a))) :
  c.on rows = (rows', .ok (.ok a))
  := by
  cases h with
  | served =>
      rcases hon : c.on rows with ⟨rows₁, f | (e | a')⟩
      · rw [hon] at hr
        cases hr
      · rw [hon] at hr
        cases hr
      · rw [hon] at hr
        cases hr
        rfl
  | lost _ hnone => exact absurd hr (hnone a)
  | landed _ hnone => exact absurd hr (hnone a)

/-- A read that is answered shows the row that is there. -/
theorem of_found {key : Address} {r : Except Fault (Timed (Option Row))} {row? : Option Row}
    (h : StoreAnswers lossy rows (.find key) r rows') (hr : r = .ok (.answered (.ok row?))) :
  rows' = rows ∧ row? = rows.get? key
  := by
  have hon := h.of_answered hr
  rw [StoreCall.on_find] at hon
  cases hon
  exact ⟨rfl, rfl⟩

/-- A call that the store would have answered was lost if it is not answered. -/
theorem of_unanswered (h : StoreAnswers lossy rows c r rows') {a : c.Answer}
    (hon : (c.on rows).2 = .ok (.ok a)) (hr : Unanswered r) :
  lossy
  := by
  cases h with
  | served =>
      rw [hon] at hr
      exact absurd rfl (hr a)
  | lost hlossy => exact hlossy
  | landed hlossy => exact hlossy

/-- A call that cannot be lost is served. -/
theorem of_served (h : StoreAnswers lossy rows c r rows') (hcalm : ¬ lossy) :
  r = (c.on rows).2.map .answered ∧ rows' = (c.on rows).1
  := by
  cases h with
  | served => exact ⟨rfl, rfl⟩
  | lost hlossy => exact absurd hlossy hcalm
  | landed hlossy => exact absurd hlossy hcalm

end StoreAnswers

namespace Scene

variable {M : Manners} {s s' : Scene} {who : Caller} {c : StoreCall}
  {r : Except Fault (Timed c.Answer)} {rows : Table Address Row} {key : Address}

/-- A call that leaves the row of an address is no change of it. -/
theorem changesAt_answer_of_eq (h : rows.get? key = s.rows.get? key) :
  changesAt (s.answer who c r rows).journal key = changesAt s.journal key
  := by
  rw [answer, noted]
  cases c.target? with
  | none => simp
  | some k =>
      dsimp only
      split
      · simp
      · next hne =>
          have hk : k ≠ key := by
            rintro rfl
            exact hne h
          simp [hk]

/-- A call that has changed the row of its target is noted. -/
theorem changesAt_answer_of_ne (htarget : c.target? = some key)
    (h : rows.get? key ≠ s.rows.get? key) :
  changesAt (s.answer who c r rows).journal key
    = changesAt s.journal key ++ [⟨who.agent c, key, s.rows.get? key, rows.get? key⟩]
  := by
  rw [answer, noted, htarget]
  simp [h]

/-! ### The journal -/

/-- Somebody else's doings are in the journal. -/
theorem journal_of_meddled {s s' : Scene} (h : Relation.ReflTransGen (Meddled M) s s') :
  ∃ j, s'.journal = s.journal ++ j ∧ ∀ e ∈ j, ∃ c : Change, e = .change c ∧ c.agent = .other
  := by
  induction h with
  | refl => exact ⟨[], by simp, by simp⟩
  | tail _ hmeddled ih =>
      obtain ⟨j, hj, hothers⟩ := ih
      obtain ⟨key, row?, -, rfl⟩ := hmeddled
      refine ⟨_, by rw [meddle, hj, List.append_assoc], ?_⟩
      intro e he
      rcases List.mem_append.mp he with he | he
      · exact hothers e he
      · exact ⟨_, List.mem_singleton.mp he, rfl⟩

end Scene

/-- A list with one more entry is split at this entry, or within the list. -/
theorem split_concat {α : Type} {l before after : List α} {a b : α}
    (h : l ++ [a] = before ++ b :: after) :
  (l = before ∧ a = b) ∨ ∃ after, l = before ++ b :: after
  := by
  rcases after.eq_nil_or_concat with rfl | ⟨after, b', rfl⟩
  · obtain ⟨rfl, hlast⟩ := List.append_inj' h rfl
    exact .inl ⟨rfl, List.singleton_inj.mp hlast⟩
  · have hinit : l ++ [a] = (before ++ b :: after) ++ [b'] := by
      simpa using h
    exact .inr ⟨after, (List.append_inj' hinit rfl).1⟩

/-- `P` holds of each change and the journal before it. -/
def EachChange (P : List Entry → Change → Prop) (journal : List Entry) : Prop :=
  ∀ before c after, journal = before ++ .change c :: after → P before c

namespace EachChange

variable {P : List Entry → Change → Prop} {M : Manners} {s s' : Scene} {who : Caller}
  {c : StoreCall} {r : Except Fault (Timed c.Answer)} {rows : Table Address Row}

theorem nil :
  EachChange P []
  := by
  intro before c after hsplit
  simp at hsplit

theorem concat {journal : List Entry} {e : Entry} (h : EachChange P journal)
    (he : ∀ c, e = .change c → P journal c) :
  EachChange P (journal ++ [e])
  := by
  intro before c after hsplit
  rcases split_concat hsplit with ⟨rfl, hlast⟩ | ⟨after, hsplit⟩
  · exact he c hlast
  · exact h before c after hsplit

/-- What holds of a journal, holds of its front. -/
theorem left {journal later : List Entry} (h : EachChange P (journal ++ later)) :
  EachChange P journal
  := by
  intro before c after hsplit
  apply h before c (after ++ later)
  rw [hsplit]
  simp

/-- What holds of all that others do, goes on to hold. -/
theorem meddled (hothers : ∀ journal c, c.agent = .other → P journal c)
    (hmeddled : Relation.ReflTransGen (Scene.Meddled M) s s') (h : EachChange P s.journal) :
  EachChange P s'.journal
  := by
  induction hmeddled with
  | refl => exact h
  | tail _ hmeddled ih =>
      obtain ⟨key, row?, -, rfl⟩ := hmeddled
      apply ih.concat
      rintro _ ⟨⟩
      exact hothers _ _ rfl

/-- After a call that is not one of the store it goes on to hold. -/
theorem note (h : EachChange P s.journal) (c : PortCall) :
  EachChange P (s.note c).journal
  := by
  apply h.concat
  rintro _ ⟨⟩

/-- After a store call it goes on to hold, if it holds of the change that the call has made. -/
theorem answer (h : EachChange P s.journal)
    (hchange : ∀ key, c.target? = some key → rows.get? key ≠ s.rows.get? key →
      P (s.journal ++ [.call (.store who c r)])
        ⟨who.agent c, key, s.rows.get? key, rows.get? key⟩) :
  EachChange P (s.answer who c r rows).journal
  := by
  have hcall : EachChange P (s.journal ++ [.call (.store who c r)]) := by
    apply h.concat
    rintro _ ⟨⟩
  have hjournal : (s.answer who c r rows).journal = s.journal ++ [.call (.store who c r)]
      ++ Scene.noted (who.agent c) c s.rows rows := by
    simp [Scene.answer]
  rw [hjournal, Scene.noted]
  cases htarget : c.target? with
  | none => simpa using hcall
  | some key =>
      dsimp only
      split
      · simpa using hcall
      · next hne =>
          apply hcall.concat
          rintro _ ⟨⟩
          exact hchange key htarget hne

end EachChange

namespace Scene

variable {M : Manners} {s s' : Scene} {who : Caller} {c : StoreCall}
  {r : Except Fault (Timed c.Answer)} {rows : Table Address Row} {key : Address}

/-! ### Drifting -/

/-- At one address nothing has happened, or somebody else has changed the row. -/
def Drift (M : Manners) (key : Address) (s s' : Scene) : Prop :=
  (s'.rows.get? key = s.rows.get? key ∧ changesAt s'.journal key = changesAt s.journal key) ∨
    ∃ row?, M.may key (Mine s.journal key) (s.rows.get? key) row? ∧ s'.rows.get? key = row? ∧
      changesAt s'.journal key
        = changesAt s.journal key ++ [⟨.other, key, s.rows.get? key, row?⟩]

/-- At one address nobody else has done more than the manners allow, and the batch has done
nothing. -/
def Drifts (M : Manners) (key : Address) : Scene → Scene → Prop :=
  Relation.ReflTransGen (Drift M key)

/-- What every single change keeps, all of them keep. -/
theorem Drifts.keep {P : Scene → Prop} (h : Drifts M key s s')
    (hstep : ∀ s s', Drift M key s s' → P s → P s') (hs : P s) :
  P s'
  := by
  induction h with
  | refl => exact hs
  | tail _ hdrift ih => exact hstep _ _ hdrift ih

/-- Whatever the others do, each address drifts. -/
theorem drifts_of_meddled (h : Relation.ReflTransGen (Meddled M) s s') (key : Address) :
  Drifts M key s s'
  := by
  have hstep : ∀ s s', Meddled M s s' → Drift M key s s' := by
    rintro s _ ⟨k, row?, hmay, rfl⟩
    by_cases hk : k = key
    · subst hk
      exact .inr ⟨row?, hmay, by simp [meddle], by simp [meddle]⟩
    · exact .inl ⟨by simp [meddle, Ne.symm hk], by simp [meddle, hk]⟩
  exact Relation.ReflTransGen.mono hstep _ _ h

/-- A store call leaves all addresses but its target. -/
theorem drift_of_answer {lossy : Prop} (h : StoreAnswers lossy s.rows c r rows)
    (hkey : c.target? ≠ some key) :
  Drift M key s (s.answer who c r rows)
  := by
  have hrow := h.get?_eq hkey
  exact .inl ⟨hrow, changesAt_answer_of_eq hrow⟩

/-- Whatever the others do before it, a store call leaves all addresses but its target. -/
theorem drifts_of_store (h : (shared M).store who s c r s') (hkey : c.target? ≠ some key) :
  Drifts M key s s'
  := by
  obtain ⟨s₁, rows, hothers, hanswer, rfl⟩ := h
  exact (drifts_of_meddled hothers key).tail (drift_of_answer hanswer hkey)

/-- A call of the oracle or the log leaves all addresses. -/
theorem drift_of_note (c : PortCall) :
  Drift M key s (s.note c)
  := .inl ⟨rfl, by simp [note]⟩

/-- A loop may rely on the others to do no more than their manners allow. -/
theorem rely_shared (M : Manners) :
  Rely (shared M).Loops (Drifts M)
  := by
  constructor
  · intro key s
    exact .refl
  · intro key s s₁ s' h h'
    exact h.trans h'
  · intro key key' s c r s' hne habout hcall
    cases hcall with
    | @store _ _ c _ _ hcall =>
        apply drifts_of_store hcall
        intro htarget
        apply hne
        cases c with
        | find k => cases htarget
        | insert row =>
            cases htarget
            exact habout.symm
        | update row expected =>
            cases htarget
            exact habout.symm
        | findAll => exact habout.elim
        | remove => exact habout.elim
        | settle => exact habout.elim
    | latestOffset hcall =>
        cases hcall
        exact .single (drift_of_note _)
    | waited => exact .refl

/-! ### Writing -/

/-- What has become of a call that writes a row over one of `P`, and is answered by `a` if it
does and by `b` if it does not: nothing, or the row is there and the change is noted. -/
inductive Wrote {α : Type} (s s' : Scene) (agent : Agent) (row : Row) (P : Option Row → Prop)
    (a b : α) : Except Fault (Timed α) → Prop
  /-- Nothing has happened. -/
  | refused {r : Except Fault (Timed α)} (hrow : s'.rows.get? row.key = s.rows.get? row.key)
      (hchanges : changesAt s'.journal row.key = changesAt s.journal row.key)
      (hr : r ≠ .ok (.answered (.ok a))) : Wrote s s' agent row P a b r
  /-- The row is there. -/
  | done {r : Except Fault (Timed α)} (hold : P (s.rows.get? row.key))
      (hrow : s'.rows.get? row.key = some row)
      (hchanges : changesAt s'.journal row.key = changesAt s.journal row.key
        ++ [⟨agent, row.key, s.rows.get? row.key, some row⟩])
      (hr : r ≠ .ok (.answered (.ok b))) : Wrote s s' agent row P a b r

variable {lossy : Prop} {row : Row} {P : Option Row → Prop} {a b : c.Answer}

/-- A call that would not write a row does nothing. -/
theorem wrote_of_refused (hab : a ≠ b) (hon : c.on s.rows = (s.rows, .ok (.ok b)))
    (h : StoreAnswers lossy s.rows c r rows) :
  Wrote s (s.answer who c r rows) (who.agent c) row P a b r
  := by
  have hrows : rows = s.rows := by
    rcases h.rows_eq with heq | heq
    · exact heq
    · rw [heq, hon]
  subst hrows
  apply Wrote.refused
  · rfl
  · exact changesAt_answer_of_eq rfl
  · intro hr
    have heq : Except.ok (Except.ok a) = Except.ok (Except.ok b) :=
      congrArg Prod.snd ((h.of_answered hr).symm.trans hon)
    cases heq
    exact hab rfl

/-- A call that would write a row does nothing, or writes it. -/
theorem wrote_of_put (hab : a ≠ b) (htarget : c.target? = some row.key)
    (hon : c.on s.rows = (s.rows.insert row.key row, .ok (.ok a)))
    (hold : P (s.rows.get? row.key)) (hnew : s.rows.get? row.key ≠ some row)
    (h : StoreAnswers lossy s.rows c r rows) :
  Wrote s (s.answer who c r rows) (who.agent c) row P a b r
  := by
  have hput : (s.rows.insert row.key row).get? row.key = some row := by simp
  rcases h.rows_eq with rfl | rfl
  · apply Wrote.refused
    · rfl
    · exact changesAt_answer_of_eq rfl
    · intro hr
      have heq : s.rows = s.rows.insert row.key row :=
        congrArg Prod.fst ((h.of_answered hr).symm.trans hon)
      rw [← heq] at hput
      exact hnew hput
  · have hrow : (c.on s.rows).1.get? row.key = some row := by
      rw [hon]
      exact hput
    apply Wrote.done hold
    · exact hrow
    · rw [changesAt_answer_of_ne htarget]
      · rw [hrow]
      · rw [hrow]
        exact Ne.symm hnew
    · intro hr
      have heq : Except.ok (Except.ok b) = Except.ok (Except.ok a) :=
        congrArg Prod.snd ((h.of_answered hr).symm.trans hon)
      cases heq
      exact hab rfl

/-- A call that makes a row does nothing, or makes it where there is none. -/
theorem insert_wrote {r : Except Fault (Timed Bool)}
    (h : StoreAnswers lossy s.rows (.insert row) r rows) :
  Wrote s (s.answer who (.insert row) r rows) (who.agent (.insert row)) row (· = none)
    true false r
  := by
  rcases StoreCall.on_insert_cases row s.rows with ⟨hold, hon⟩ | hon
  · apply wrote_of_put Bool.noConfusion rfl hon hold _ h
    rw [hold]
    exact nofun
  · exact wrote_of_refused Bool.noConfusion hon h

/-- A call that replaces a row by one of another version does nothing, or replaces one of the
version expected. -/
theorem update_wrote {expected : Nat} {r : Except Fault (Timed Bool)}
    (hversion : row.version ≠ expected)
    (h : StoreAnswers lossy s.rows (.update row expected) r rows) :
  Wrote s (s.answer who (.update row expected) r rows) (who.agent (.update row expected)) row
    (fun old? => ∃ old, old? = some old ∧ old.version = expected) true false r
  := by
  rcases StoreCall.on_update_cases row expected s.rows with ⟨old, hrow, hexpected, hon⟩ | hon
  · apply wrote_of_put Bool.noConfusion rfl hon ⟨old, hrow, hexpected⟩ _ h
    rw [hrow]
    rintro ⟨⟩
    exact hversion hexpected
  · exact wrote_of_refused Bool.noConfusion hon h

end Scene

/-! ### Calls that are served -/

/-- The scene after the store has served a call. -/
def Scene.serve (s : Scene) (who : Caller) (c : StoreCall) : Scene :=
  s.answer who c ((c.on s.rows).2.map .answered) (c.on s.rows).1

/-- A call may be served at once. -/
theorem shared_serve {M : Manners} {s : Scene} {who : Caller} {c : StoreCall} :
  (shared M).store who s c ((c.on s.rows).2.map .answered) (s.serve who c)
  := ⟨s, _, .refl, .served, rfl⟩

/-- A call may be served after somebody else has changed a row. -/
theorem shared_meddle {M : Manners} {s : Scene} {who : Caller} {c : StoreCall} {key : Address}
    {row? : Option Row} (h : M.may key (Mine s.journal key) (s.rows.get? key) row?) :
  (shared M).store who s c ((c.on (s.meddle key row?).rows).2.map .answered)
    ((s.meddle key row?).serve who c)
  := ⟨_, _, .single ⟨key, row?, h, rfl⟩, .served, rfl⟩

/-! ### Other ports -/

namespace Scene

@[simp]
theorem calls_note (s : Scene) (c : PortCall) :
  (s.note c).calls = s.calls ++ [c]
  := by
  simp [calls, note, Entry.call?]

@[simp]
theorem calls_meddle (s : Scene) (key : Address) (row? : Option Row) :
  (s.meddle key row?).calls = s.calls
  := by
  simp [calls, meddle, Entry.call?]

@[simp]
theorem calls_answer (s : Scene) (who : Caller) (c : StoreCall)
    (r : Except Fault (Timed c.Answer)) (rows : Table Address Row) :
  (s.answer who c r rows).calls = s.calls ++ [.store who c r]
  := by
  rw [calls, calls, answer, noted]
  cases c.target? with
  | none => simp [Entry.call?]
  | some key =>
      dsimp only
      split
      · simp [Entry.call?]
      · simp [Entry.call?]

/-- The others make no call of the batch. -/
theorem calls_of_meddled {M : Manners} {s s' : Scene}
    (h : Relation.ReflTransGen (Meddled M) s s') :
  s'.calls = s.calls
  := by
  induction h with
  | refl => rfl
  | tail _ hmeddled ih =>
      obtain ⟨key, row?, -, rfl⟩ := hmeddled
      rw [calls_meddle, ih]

/-- The others put rows under their own addresses. -/
theorem keyed_of_meddled {M : Manners} {s s' : Scene}
    (h : Relation.ReflTransGen (Meddled M) s s') (hkeyed : Keyed s.rows) :
  Keyed s'.rows
  := by
  induction h with
  | refl => exact hkeyed
  | tail _ hmeddled ih =>
      obtain ⟨key, row?, hmay, rfl⟩ := hmeddled
      apply ih.put
      rintro row ⟨⟩
      exact M.keyed hmay

end Scene

/-- The calls of a batch that shares the store, recorded, are those of ports whose rows carry
the addresses asked for. -/
theorem shared_recorded (M : Manners) :
  (shared M).Simulates recorded fun s t => Keyed s.rows ∧ s.calls = t
  := by
  constructor
  · rintro who s c r s' _ ⟨s₁, rows, hothers, hanswer, rfl⟩ ⟨hkeyed, rfl⟩
    obtain ⟨hkeyed, hcarries⟩ := hanswer.keyed (Scene.keyed_of_meddled hothers hkeyed)
    refine ⟨_, ⟨hcarries, rfl⟩, hkeyed, ?_⟩
    rw [Scene.calls_answer, Scene.calls_of_meddled hothers]
  · rintro s p r s' _ rfl ⟨hkeyed, rfl⟩
    exact ⟨_, rfl, hkeyed, s.calls_note _⟩
  · rintro s b r s' _ rfl ⟨hkeyed, rfl⟩
    exact ⟨_, rfl, hkeyed, s.calls_note _⟩

end ChainLedger
