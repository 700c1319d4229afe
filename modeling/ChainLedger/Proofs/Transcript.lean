import ChainLedger.Proofs.Progress
import ChainLedger.Proofs.Rely

/-!
# What a loop calls and hears

The calls of a program with their ends, in order, in surroundings that may answer anything.
What a program may call is said of the calls before, so it can depend on all that the program
has heard.  For an apply loop it is enough to say it of one turn: then it holds of every call
that the loop comes to make.
-/

namespace ChainLedger

open Prog

/-- A call, with its end. -/
structure Exchange (S : Signature) where
  call : S.Call
  answer : Except Fault (S.Answer call)

/-- Calls with their ends, in order. -/
abbrev Transcript (S : Signature) : Type := List (Exchange S)

/-- Surroundings that may answer anything, and write every call down. -/
def transcribed {S : Signature} : Surroundings S (Transcript S) :=
  fun t c r t' => t' = t ++ [⟨c, r⟩]

namespace Prog

variable {S : Signature} {α β : Type}

/-- After the calls so far, every call that the program makes is one that `G` allows, and the
program ends as `Q` says. -/
def Abides (G : Transcript S → S.Call → Prop) (Q : Except Fault α → Transcript S → Prop) :
    Transcript S → Prog S α → Prop
  | t, .done a => Q (.ok a) t
  | t, .crash f => Q (.error f) t
  | t, .call c next =>
    G t c ∧ (∀ a, (next a).Abides G Q (t ++ [⟨c, .ok a⟩])) ∧ ∀ f, Q (.error f) (t ++ [⟨c, .error f⟩])

end Prog

/-! ### Loops -/

variable {G : Transcript applySignature → ApplyCall → Prop} {policy : Policy} {d : Delta}
  {I : Apply.State → Transcript applySignature → Prop}
  {E : JobEnd Apply.Result → Transcript applySignature → Prop}
  {t : Transcript applySignature}

/-- The rest of the turn that the loop is in abides, or the loop has ended as it should. -/
def Task.Abides (G : Transcript applySignature → ApplyCall → Prop)
    (I : Apply.State → Transcript applySignature → Prop)
    (E : JobEnd Apply.Result → Transcript applySignature → Prop)
    (t : Transcript applySignature) : Task → Prop
  | .running p => p.Abides G (Apply.Goes I E) t
  | .ended e => E e t

/-- If every turn abides, then the loop does at any time. -/
theorem Task.Path.abides {row? : Option Row} {task : Task}
    (hturn : ∀ s t, I s t → (Apply.turn policy d s).Abides G (Apply.Goes I E) t)
    (hstart : I (.start row?) [])
    (h : Task.Path transcribed policy ⟨d, row?⟩ ([], Task.start policy ⟨d, row?⟩) (t, task)) :
  task.Abides G I E t
  := by
  generalize hy : (t, task) = y at h
  induction h generalizing t task with
  | refl =>
      cases hy
      exact hturn _ _ hstart
  | @tail x y _ hmove ih =>
      obtain ⟨t₁, task₁⟩ := x
      have hbefore := ih rfl
      subst hy
      dsimp only at hmove
      generalize hj : Job.mk d row? = j at hmove
      cases hmove with
      | answered hcall =>
          cases hcall
          exact hbefore.2.1 _
      | stopped hcall =>
          cases hcall
          exact hbefore.2.2 _
      | crash => exact hbefore
      | again =>
          subst hj
          exact hturn _ _ hbefore
      | done => exact hbefore

/-- A loop program that starts with a store call abides, if the rest does for every end that the
call can have. -/
theorem Apply.abides_store {α : Type} {c : StoreCall}
    {k : Except StoreError c.Answer → Prog applySignature α}
    {Q : Except Fault α → Transcript applySignature → Prop}
    (hcall : G t (.store c policy.deadline))
    (hanswered : ∀ a, (k (.ok a)).Abides G Q
      (t ++ [⟨.store c policy.deadline, .ok (.answered (.ok a))⟩]))
    (hfailed : ∀ r e, Timed.result c.name r = .error e → (k (.error e)).Abides G Q
      (t ++ [⟨.store c policy.deadline, .ok r⟩]))
    (hstopped : ∀ f, Q (.error f) (t ++ [⟨.store c policy.deadline, .error f⟩])) :
  (Apply.store policy c >>= k).Abides G Q t
  := by
  refine ⟨hcall, ?_, hstopped⟩
  intro r
  rcases r with (e | a) | _
  · exact hfailed _ e rfl
  · exact hanswered a
  · exact hfailed _ _ rfl

end ChainLedger
