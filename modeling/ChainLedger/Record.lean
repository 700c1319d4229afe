import ChainLedger.Address
import ChainLedger.Overflow
import ChainLedger.Position

/-!
# Chain records

What the log delivers: a block, an uncle or a transaction, with a tag saying
whether it became part of the chain or left it, and its position.  Amounts are
unsigned numbers of 128 bits; numbers and times have 64 bits, counts and
partition numbers 32 (`Record.Fits`).
-/

namespace ChainLedger

/-- What happened to the payload of a record. -/
inductive Kind
  /-- It became part of the chain. -/
  | added
  /-- It left the chain. -/
  | dropped
  /-- It waits outside the chain. -/
  | pooled
  /-- The tag is not known. -/
  | unknown
deriving DecidableEq, Repr

/-- A block with its rewards. -/
structure Block where
  number : Nat
  hash : Hash
  miner : Address
  /-- The fixed reward. -/
  baseReward : Nat
  /-- The reward for including uncles. -/
  uncleInclusion : Nat
  /-- The fees of the block's transactions. -/
  fees : Nat
  transactions : Nat
  time : Nat
deriving DecidableEq

/-- An uncle block with its reward. -/
structure Uncle where
  hash : Hash
  /-- The place of the uncle in the including block. -/
  index : Nat
  number : Nat
  /-- The number of the including block. -/
  includedIn : Nat
  miner : Address
  reward : Nat
  /-- The time of the including block. -/
  time : Nat
deriving DecidableEq

/-- A mined transaction. -/
structure Transaction where
  hash : Hash
  blockHash : Hash
  blockNumber : Nat
  sender : Address
  /-- The recipient, absent when a contract is created. -/
  recipient : Option Address
  /-- The contract created. -/
  created : Option Address
  value : Nat
  fee : Nat
  /-- The time of the including block. -/
  time : Nat
deriving DecidableEq

namespace Block

/-- Everything the miner is paid, if it has 128 bits. -/
def reward? (b : Block) : Option Nat := do
  addUnsigned? 128 (← addUnsigned? 128 b.baseReward b.uncleInclusion) b.fees

end Block

namespace Transaction

/-- Who receives the value: the recipient, else the created contract. -/
def receiver? (t : Transaction) : Option Address := t.recipient <|> t.created

end Transaction

/-- What a record carries. -/
inductive Payload
  | block (b : Block)
  | uncle (u : Uncle)
  | transaction (t : Transaction)
deriving DecidableEq

/-- A record as the log delivers it. -/
structure Record where
  kind : Kind
  payload : Payload
  partition : Partition
  offset : Nat
deriving DecidableEq

namespace Payload

/-- Every number of the payload has the bits of its field. -/
def Fits : Payload → Prop
  | .block b =>
    FitsUnsigned 64 b.number ∧ FitsUnsigned 128 b.baseReward ∧
      FitsUnsigned 128 b.uncleInclusion ∧ FitsUnsigned 128 b.fees ∧
      FitsUnsigned 32 b.transactions ∧ FitsUnsigned 64 b.time
  | .uncle u =>
    FitsUnsigned 32 u.index ∧ FitsUnsigned 64 u.number ∧ FitsUnsigned 64 u.includedIn ∧
      FitsUnsigned 128 u.reward ∧ FitsUnsigned 64 u.time
  | .transaction t =>
    FitsUnsigned 64 t.blockNumber ∧ FitsUnsigned 128 t.value ∧ FitsUnsigned 128 t.fee ∧
      FitsUnsigned 64 t.time

instance (p : Payload) : Decidable p.Fits := by
  cases p <;> exact inferInstanceAs (Decidable (_ ∧ _))

end Payload

namespace Record

/-- Where the record stands in the log. -/
def position (r : Record) : Position := ⟨r.partition, r.offset⟩

/-- Every number of the record has the bits of its field. -/
def Fits (r : Record) : Prop :=
  r.payload.Fits ∧ FitsUnsigned 32 r.partition.number ∧ FitsUnsigned 64 r.offset

instance (r : Record) : Decidable r.Fits := inferInstanceAs (Decidable (_ ∧ _))

end Record

end ChainLedger
