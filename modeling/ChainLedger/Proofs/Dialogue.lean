import ChainLedger.Proofs.Transcript

/-!
# Dialogues

A program that is not stopped makes calls, hears an answer to each, and ends.  Which dialogues it
may have is said of the program alone; every execution in some surroundings has one of them, which
the surroundings can write down.
-/

namespace ChainLedger

open Prog

/-- The surroundings, with every call written down together with its end. -/
def Surroundings.logged {S : Signature} {σ : Type} (A : Surroundings S σ) :
    Surroundings S (σ × Transcript S) :=
  fun x c r y => A x.1 c r y.1 ∧ y.2 = x.2 ++ [⟨c, r⟩]

namespace Prog

variable {S : Signature} {α β σ : Type}

/-- The program may make these calls, hear these answers, and then end with this result. -/
inductive Talk : Prog S α → Transcript S → α → Prop
  | done (a : α) : Talk (.done a) [] a
  | call {c : S.Call} {next : S.Answer c → Prog S α} {a : S.Answer c} {t : Transcript S} {b : α}
      (h : Talk (next a) t b) : Talk (.call c next) (⟨c, .ok a⟩ :: t) b

/-- What is written down while a program is executed is a dialogue that it may have. -/
theorem Exec.talk {A : Surroundings S σ} {p : Prog S α} {x y : σ × Transcript S} {b : α}
    (h : Exec A.logged x p (.ok b) y) :
  ∃ t, y.2 = x.2 ++ t ∧ Talk p t b
  := by
  generalize hr : Except.ok b = r at h
  induction h with
  | done =>
      cases hr
      exact ⟨[], (List.append_nil _).symm, .done b⟩
  | crash => cases hr
  | @answered s s' s'' c next a r hcall hnext ih =>
      obtain ⟨t, ht, htalk⟩ := ih hr
      refine ⟨⟨c, .ok a⟩ :: t, ?_, .call htalk⟩
      rw [ht, hcall.2, List.append_assoc, List.singleton_append]
  | stopped => cases hr

/-- A call is answered and written down, and then the rest of the program is executed. -/
theorem exec_written {A : Surroundings S σ} {s s' s'' : σ} {c : S.Call}
    {next : S.Answer c → Prog S α} {a : S.Answer c} {r : Except Fault α} {t u : Transcript S}
    (hcall : A s c (.ok a) s')
    (hnext : Exec A.logged (s', t ++ [⟨c, .ok a⟩]) (next a) r (s'', t ++ [⟨c, .ok a⟩] ++ u)) :
  Exec A.logged (s, t) (.call c next) r (s'', t ++ ⟨c, .ok a⟩ :: u)
  := by
  rw [List.append_assoc, List.singleton_append] at hnext
  exact .answered ⟨hcall, rfl⟩ hnext

/-- The dialogue of one program after another is made of a dialogue of each. -/
theorem Talk.of_bind {p : Prog S α} {k : α → Prog S β} {t : Transcript S} {b : β}
    (h : Talk (p >>= k) t b) :
  ∃ a t₁ t₂, t = t₁ ++ t₂ ∧ Talk p t₁ a ∧ Talk (k a) t₂ b
  := by
  induction p generalizing t with
  | done a => exact ⟨a, [], t, rfl, .done a, h⟩
  | crash f => cases h
  | call c next ih =>
      change Talk (.call c fun a => (next a).bind k) t b at h
      cases h with
      | @call _ _ answer t _ hnext =>
          obtain ⟨a, t₁, t₂, rfl, hfirst, hsecond⟩ := ih answer hnext
          exact ⟨a, ⟨c, .ok answer⟩ :: t₁, t₂, rfl, .call hfirst, hsecond⟩

end Prog

/-- Surroundings that answer along a given dialogue, of which they hold the rest. -/
def along {S : Signature} : Surroundings S (Transcript S) := fun t c r t' => t = ⟨c, r⟩ :: t'

/-- Every dialogue that a program may have is written down in some surroundings. -/
theorem Prog.Talk.exec {S : Signature} {α : Type} {p : Prog S α} {t : Transcript S} {b : α}
    (h : Talk p t b) (log rest : Transcript S) :
  Exec along.logged (t ++ rest, log) p (.ok b) (rest, log ++ t)
  := by
  induction h generalizing log with
  | done b =>
      rw [List.append_nil]
      exact .done _ b
  | @call c next a t b _ ih =>
      have hrest := ih (log ++ [⟨c, .ok a⟩])
      rw [List.append_assoc, List.singleton_append] at hrest
      have hcall : along.logged (⟨c, .ok a⟩ :: t ++ rest, log) c (.ok a)
          (t ++ rest, log ++ [⟨c, .ok a⟩]) := ⟨rfl, rfl⟩
      exact .answered hcall hrest

end ChainLedger
