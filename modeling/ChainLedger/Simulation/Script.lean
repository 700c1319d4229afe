import ChainLedger.Record
import ChainLedger.Row
import ChainLedger.Store

/-!
# Scripts

A script disturbs the calls of a simulated engine.  Each rule names the calls
that it fits, by the name of the call, the party called and the count of such
calls so far; the first rule that fits a call fires.  It first changes the
surroundings, then it may delay the call, answer it, let it fail or let it crash.
-/

namespace ChainLedger

namespace Simulation

/-- What a rule changes in the surroundings when its call begins. -/
structure Disturbance where
  /-- Rows written whatever was there. -/
  put : List Row := []
  /-- Addresses whose rows are settled. -/
  settle : List Address := []
  /-- Addresses whose rows are removed. -/
  remove : List Address := []
  /-- Records appended to the log. -/
  append : List Record := []
  /-- The log refuses the next acknowledgment. -/
  failNextCommit : Bool := false
  /-- The store is switched off or on. -/
  unavailable : Option Bool := none
  /-- A stop is signalled. -/
  signal : Bool := false
  /-- Nobody can signal any more. -/
  dropSignal : Bool := false
  /-- No batch is accepted any more. -/
  shutDown : Bool := false

/-- A rule of a script. -/
structure Rule where
  /-- The name of the call. -/
  call : String
  /-- The party called, if the rule is for one only. -/
  key : Option String := none
  /-- The count of the call, from one, if the rule is for one only. -/
  nth : Option Nat := none
  /-- What changes when the call begins. -/
  disturbance : Disturbance := {}
  /-- The call crashes. -/
  crashes : Bool := false
  /-- The call takes effect before its delay, not after it. -/
  early : Bool := false
  /-- The milliseconds that the call takes. -/
  delay : Nat := 0
  /-- The failure that answers the call. -/
  fail : Option String := none
  /-- The answer to a yes-or-no call, given without making it. -/
  answer : Option Bool := none

namespace Rule

/-- The rule fits the call of a name to a party for a count. -/
def Fits (r : Rule) (call key : String) (count : Nat) : Prop :=
  r.call = call ∧ (∀ k ∈ r.key, k = key) ∧ (∀ n ∈ r.nth, n = count)

instance (r : Rule) (call key : String) (count : Nat) : Decidable (r.Fits call key count) :=
  inferInstanceAs (Decidable (_ ∧ _))

/-- The store failure of a rule, by its name. -/
def storeError? (r : Rule) : Option StoreError :=
  r.fail.map fun kind =>
    match kind with
    | "timeout" => .timeout "scripted"
    | "corrupt" => .corrupt "scripted"
    | _ => .unavailable "scripted"

end Rule

/-- The answer to a store call that is answered by yes or no. -/
def yesOrNo? (b : Bool) : (c : StoreCall) → Option c.Answer
  | .insert _ => some b
  | .update _ _ => some b
  | .settle _ _ => some b
  | .find _ => none
  | .findAll _ => none
  | .remove _ => none

end Simulation

end ChainLedger
