import ChainLedger.Failure

/-!
# Programs

A program asks its surroundings one thing after another and goes on with each
answer.  A `Signature` lists the calls and the type of each answer; a program over it
is a tree that branches on the answers, so it says nothing about who answers,
when, or what else happens in between.  A program may also end in a fault.

Work without a bound is given turn by turn: each turn is a program, and its
result says whether there is another one.
-/

namespace ChainLedger

/-- The calls that a program can make, and the type of the answer to each. -/
structure Signature where
  Call : Type
  Answer : Call → Type

/-- A program over a signature. -/
inductive Prog (S : Signature) (α : Type) : Type
  /-- The program ends with a result. -/
  | done (a : α)
  /-- The program is stopped by a fault. -/
  | crash (f : Fault)
  /-- The program makes a call and goes on with the answer. -/
  | call (c : S.Call) (next : S.Answer c → Prog S α)

namespace Prog

variable {S : Signature} {α β γ σ : Type}

/-- One program after another. -/
def bind : Prog S α → (α → Prog S β) → Prog S β
  | done a, k => k a
  | crash f, _ => crash f
  | call c next, k => call c fun a => (next a).bind k

instance : Monad (Prog S) where
  pure := done
  bind := bind

theorem bind_done (p : Prog S α) :
  p.bind done = p
  := by
  induction p with
  | done a => rfl
  | crash f => rfl
  | call c next ih => simp only [bind, ih]

theorem bind_assoc (p : Prog S α) (f : α → Prog S β) (g : β → Prog S γ) :
  (p.bind f).bind g = p.bind fun a => (f a).bind g
  := by
  induction p with
  | done a => rfl
  | crash f => rfl
  | call c next ih => simp only [bind, ih]

instance : LawfulMonad (Prog S) :=
  LawfulMonad.mk' (Prog S) (fun p => bind_done p) (fun _ _ => rfl) (fun p f g => bind_assoc p f g)

/-- The program that makes one call. -/
def ask (c : S.Call) : Prog S (S.Answer c) := call c done

/-- The result of a computation that may overflow. -/
def ofExcept : Except Overflow α → Prog S α
  | .ok a => done a
  | .error o => crash (.overflow o)

/-- The result of a program whose calls are answered by `answer`, with a state
that the answers change. -/
def run (answer : σ → (c : S.Call) → σ × Except Fault (S.Answer c)) :
    σ → Prog S α → σ × Except Fault α
  | s, done a => (s, .ok a)
  | s, crash f => (s, .error f)
  | s, call c next =>
    match answer s c with
    | (s', .ok a) => (next a).run answer s'
    | (s', .error f) => (s', .error f)

end Prog

/-- How a turn ends. -/
inductive Turn (σ α : Type)
  /-- Another turn follows, from this state. -/
  | again (s : σ)
  /-- The work is done. -/
  | stop (a : α)

/-- The result of work given turn by turn, if it ends within a number of turns. -/
def Turn.run {S : Signature} {σ τ α : Type}
    (answer : σ → (c : S.Call) → σ × Except Fault (S.Answer c))
    (turn : τ → Prog S (Turn τ α)) : Nat → σ → τ → σ × Option (Except Fault α)
  | 0, s, _ => (s, none)
  | n + 1, s, t =>
    match (turn t).run answer s with
    | (s', .ok (.again t')) => Turn.run answer turn n s' t'
    | (s', .ok (.stop a)) => (s', some (.ok a))
    | (s', .error f) => (s', some (.error f))

end ChainLedger
