import Mathlib.Data.List.Induction
import ChainLedger.Proofs.Scene

/-!
# What the journal tells of the rows

The journal of a shared store tells which row is at an address at any time: the one of the last
change, or the first row if there has been no change.  Every change starts from the row that is
there, every read shows it, and what nobody else has changed was changed by the call right
before.
-/

namespace ChainLedger

open Prog

/-- The row of the address after the changes in the journal. -/
def rowAfter (rows : Table Address Row) (journal : List Entry) (key : Address) : Option Row :=
  (changesAt journal key).getLast?.elim (rows.get? key) Change.after

section rowAfter

variable {rows : Table Address Row} {journal : List Entry} {key : Address}

@[simp]
theorem rowAfter_call (c : PortCall) :
  rowAfter rows (journal ++ [.call c]) key = rowAfter rows journal key
  := by
  simp [rowAfter]

@[simp]
theorem rowAfter_change (c : Change) :
  rowAfter rows (journal ++ [.change c]) key
    = if c.key = key then c.after else rowAfter rows journal key
  := by
  by_cases hkey : c.key = key
  · simp [rowAfter, hkey]
  · simp [rowAfter, hkey]

end rowAfter

/-- The end of the call tells what is at the address. -/
inductive PortCall.Tells (key : Address) (row? : Option Row) : PortCall → Prop
  /-- It was asked for. -/
  | found {who : Caller} : Tells key row? (.store who (.find key) (.ok (.answered (.ok row?))))
  /-- It was asked for among others. -/
  | fetched {who : Caller} {keys : List Address} {rows : Table Address Row} (hkey : key ∈ keys)
      (hrow : rows.get? key = row?) :
      Tells key row? (.store who (.findAll keys) (.ok (.answered (.ok rows))))

/-- A call that tells what is at an address is right. -/
theorem StoreAnswers.get?_of_tells {lossy : Prop} {rows rows' : Table Address Row} {who : Caller}
    {c : StoreCall} {r : Except Fault (Timed c.Answer)} {key : Address} {row? : Option Row}
    (h : StoreAnswers lossy rows c r rows') (htells : PortCall.Tells key row? (.store who c r)) :
  rows.get? key = row?
  := by
  cases htells with
  | found => exact (h.of_found rfl).2.symm
  | fetched hkey hrow =>
      have hon := h.of_answered rfl
      rw [StoreCall.on_findAll] at hon
      cases hon
      rw [MemoryStore.get?_select, if_pos hkey] at hrow
      exact hrow

/-- The change is the effect of a call of the batch or of one of its loops, right before it. -/
def Caused (before : List Entry) (c : Change) : Prop :=
  ∃ journal who call r rows, before = journal ++ [.call (.store who call r)] ∧
    c.agent = who.agent call ∧ call.target? = some c.key ∧ c.before = rows.get? c.key ∧
    c.after = (StoreCall.on call rows).1.get? c.key ∧ c.after ≠ c.before

/-- What a read tells and what a change starts from is the row that is there, and a change that
nobody else makes is caused by a call. -/
def Entry.Follows (rows : Table Address Row) (before : List Entry) : Entry → Prop
  | call c => ∀ key row?, c.Tells key row? → rowAfter rows before key = row?
  | change c => c.before = rowAfter rows before c.key ∧ (c.agent ≠ .other → Caused before c)

/-- Every entry of the journal follows from those before it. -/
def Coherent (rows : Table Address Row) (journal : List Entry) : Prop :=
  ∀ before e after, journal = before ++ e :: after → e.Follows rows before

namespace Coherent

variable {rows : Table Address Row} {journal : List Entry} {e : Entry}

theorem nil :
  Coherent rows []
  := by
  intro before e after hsplit
  simp at hsplit

theorem concat (h : Coherent rows journal) (he : e.Follows rows journal) :
  Coherent rows (journal ++ [e])
  := by
  intro before e' after hsplit
  rcases split_concat hsplit with ⟨rfl, rfl⟩ | ⟨after, hsplit⟩
  · exact he
  · exact h before e' after hsplit

/-- The front of a journal is a journal. -/
theorem left {journal' : List Entry} (h : Coherent rows (journal ++ journal')) :
  Coherent rows journal
  := by
  intro before e after hsplit
  apply h before e (after ++ journal')
  rw [hsplit]
  simp

/-- Where a row was and is no more, it was removed in between. -/
theorem exists_removal {front later : List Entry} {key : Address}
    (h : Coherent rows (front ++ later)) (hrow : rowAfter rows front key ≠ none)
    (hnone : rowAfter rows (front ++ later) key = none) :
  ∃ x y c old, later = x ++ .change c :: y ∧ c.key = key ∧ c.before = some old ∧ c.after = none
  := by
  induction later using List.reverseRecOn with
  | nil =>
      rw [List.append_nil] at hnone
      exact absurd hnone hrow
  | append_singleton later e ih =>
      rw [← List.append_assoc] at h hnone
      by_cases hgone : rowAfter rows (front ++ later) key = none
      · obtain ⟨x, y, c, old, rfl, hc⟩ := ih h.left hgone
        exact ⟨x, y ++ [e], c, old, by simp, hc⟩
      · cases e with
        | call c =>
            rw [rowAfter_call] at hnone
            exact absurd hnone hgone
        | change c =>
            rw [rowAfter_change] at hnone
            split at hnone
            · next hkey =>
                obtain ⟨old, hold⟩ := Option.ne_none_iff_exists'.mp hgone
                have hbefore := (h (front ++ later) (.change c) [] rfl).1
                rw [hkey, hold] at hbefore
                exact ⟨later, [], c, old, rfl, hkey, hbefore, hnone⟩
            · exact absurd hnone hgone

end Coherent

namespace Scene

variable {M : Manners} {rows₀ rows : Table Address Row} {s s' : Scene} {who : Caller}
  {c : StoreCall} {r : Except Fault (Timed c.Answer)}

/-- The journal tells which rows are there, and its entries follow from one another. -/
structure Chronicled (rows₀ : Table Address Row) (s : Scene) : Prop where
  rows : ∀ key, s.rows.get? key = rowAfter rows₀ s.journal key
  coherent : Coherent rows₀ s.journal

theorem chronicled_start :
  Chronicled rows₀ ⟨rows₀, []⟩
  := ⟨fun _ => rfl, .nil⟩

theorem Chronicled.meddled (h : s.Chronicled rows₀)
    (hothers : Relation.ReflTransGen (Meddled M) s s') :
  s'.Chronicled rows₀
  := by
  induction hothers with
  | refl => exact h
  | @tail s₁ _ _ hmeddled ih =>
      obtain ⟨key, row?, -, rfl⟩ := hmeddled
      constructor
      · intro k
        rw [meddle, rowAfter_change, ← ih.rows k]
        by_cases hk : key = k
        · simp [hk]
        · simp [hk, Ne.symm hk]
      · apply ih.coherent.concat
        exact ⟨ih.rows key, fun hother => absurd rfl hother⟩

theorem Chronicled.note (h : s.Chronicled rows₀) {c : PortCall}
    (hc : ∀ key row?, ¬ c.Tells key row?) :
  (s.note c).Chronicled rows₀
  := by
  constructor
  · intro key
    rw [Scene.note, rowAfter_call]
    exact h.rows key
  · apply h.coherent.concat
    intro key row? htells
    exact absurd htells (hc key row?)

theorem Chronicled.answer {lossy : Prop} (h : s.Chronicled rows₀)
    (hanswer : StoreAnswers lossy s.rows c r rows) :
  (s.answer who c r rows).Chronicled rows₀
  := by
  have hcall : Coherent rows₀ (s.journal ++ [.call (.store who c r)]) := by
    apply h.coherent.concat
    intro key row? htells
    rw [← h.rows key]
    exact hanswer.get?_of_tells htells
  have hjournal : (s.answer who c r rows).journal = s.journal ++ [.call (.store who c r)]
      ++ noted (who.agent c) c s.rows rows := by
    simp [Scene.answer]
  constructor
  · intro key
    change rows.get? key = _
    rw [hjournal, noted]
    cases htarget : c.target? with
    | none =>
        rw [List.append_nil, rowAfter_call, ← h.rows key]
        exact hanswer.get?_eq (by rw [htarget]; rintro ⟨⟩)
    | some k =>
        have hother : k ≠ key → rows.get? key = s.rows.get? key := by
          intro hk
          apply hanswer.get?_eq
          rw [htarget]
          exact fun heq => hk (Option.some.inj heq)
        dsimp only
        split
        · next heq =>
            rw [List.append_nil, rowAfter_call, ← h.rows key]
            by_cases hk : k = key
            · rw [← hk, heq]
            · exact hother hk
        · rw [rowAfter_change, rowAfter_call, ← h.rows key]
          by_cases hk : k = key
          · rw [if_pos hk, hk]
          · rw [if_neg hk, hother hk]
  · rw [hjournal, noted]
    cases htarget : c.target? with
    | none => simpa using hcall
    | some key =>
        dsimp only
        split
        · simpa using hcall
        · next hne =>
            apply hcall.concat
            constructor
            · rw [rowAfter_call]
              exact h.rows key
            · intro _
              have hserved : rows = (c.on s.rows).1 := by
                rcases hanswer.rows_eq with rfl | heq
                · exact absurd rfl hne
                · exact heq
              subst hserved
              exact ⟨s.journal, who, c, r, s.rows, rfl, rfl, htarget, rfl, rfl, hne⟩

/-- Whatever happens in a shared store, its journal tells which rows are there. -/
theorem chronicled_of_exec {α : Type} {p : Batch.Step α} {r : Except Fault α}
    (h : Exec (shared M).Batches ⟨rows₀, []⟩ p r s') :
  s'.Chronicled rows₀
  := by
  apply Ports.exec_keeps _ _ _ h chronicled_start
  · rintro who s c r _ h ⟨s₁, rows, hothers, hanswer, rfl⟩
    exact (h.meddled hothers).answer hanswer
  · rintro s p r _ h rfl
    exact h.note nofun
  · rintro s b r _ h rfl
    exact h.note nofun

end Scene

end ChainLedger
