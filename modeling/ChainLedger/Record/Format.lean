import ChainLedger.Json
import ChainLedger.Record
import ChainLedger.Text.Scientific

/-!
# The format of records

A record as a JSON value.  Structures are objects whose members may come in any
order, or arrays of their columns in order; members of other names are ignored.
Amounts are strings of decimal digits, hashes and addresses strings of
hexadecimal digits.  Reading what was written gives the record back.
-/

namespace ChainLedger

namespace Json

/-- The value is fit to be put aside before it is known what it is for: its
strings denote texts, its numbers are finite, and it is not nested too deep. -/
def isSoundTo : Nat → Json → Bool
  | _, str s => s.isSome
  | _, int i => (i.natAbs : Nat) < Scientific.tooLarge
  | _, real spelling => (Scientific.ofChars spelling.toList).isFinite
  | _, null => true
  | _, bool _ => true
  | 0, arr _ => false
  | 0, obj _ => false
  | n + 1, arr items => items.all (isSoundTo n)
  | n + 1, obj members => members.all fun m => m.1.isSome && isSoundTo n m.2

/-- The columns of a structure: the members of the given names, each at most
once, or as many items as there are names. -/
def columns? (names : List String) : Json → Option (List (Option Json))
  | arr items => if items.length = names.length then some (items.map some) else none
  | obj members =>
    if (members.all fun m => m.1.isSome) ∧
        (names.all fun name => (members.filter fun m => m.1 = some name).length ≤ 1) then
      some (names.map fun name => (members.find? fun m => m.1 = some name).map (·.2))
    else none
  | null | bool _ | int _ | real _ | str _ => none

/-- The name that a string, or an object with a null of that name, gives. -/
def name? : Json → Option String
  | str s => s
  | obj [(s, null)] => s
  | null | bool _ | int _ | real _ | arr _ | obj _ => none

/-- How deep a payload may be nested that comes before its type. -/
def asideDepth : Nat := 125

/-- A type and the data of that type. -/
def tagged? : Json → Option (Json × Json)
  | arr [tag, data] => some (tag, data)
  | obj members =>
    if members.all fun m => m.1.isSome then
      match members.filter fun m => m.1 = some "type" || m.1 = some "data" with
      | [(a, x), (b, y)] =>
        if a = some "type" ∧ b = some "data" then some (x, y)
        else if a = some "data" ∧ b = some "type" ∧ x.isSoundTo asideDepth then some (y, x)
        else none
      | _ => none
    else none
  | null | bool _ | int _ | real _ | str _ | arr _ => none

/-- The word of a string of exactly `n` digits. -/
def word? (n : Nat) (j : Json) : Option (Word n) := do Word.parse? n (← j.text?)

/-- The word, or nothing if there is none or null. -/
def optionalWord? (n : Nat) : Option Json → Option (Option (Word n))
  | none | some null => some none
  | some j => (j.word? n).map some

/-- The amount of a string of digits. -/
def amount? (j : Json) : Option Nat := do Decimal.unsigned? 128 (← j.text?)

/-- The string of a word's digits. -/
def ofWord {n : Nat} (w : Word n) : Json := text w.render

/-- The string of an amount. -/
def ofAmount (n : Nat) : Json := text (String.ofList (Decimal.ofNat n))

end Json

namespace Kind

/-- The tag of a kind. -/
def name : Kind → String
  | added => "NEW_BLOCK"
  | dropped => "DROPPED_BLOCK"
  | pooled => "NEW_POOL_TX"
  | unknown => "UNKNOWN"

/-- The kind of a tag. -/
def ofName (s : String) : Kind :=
  if s = added.name then added
  else if s = dropped.name then dropped
  else if s = pooled.name then pooled
  else unknown

@[simp]
theorem ofName_name (k : Kind) :
  ofName k.name = k
  := by
  cases k <;> decide

end Kind

namespace Block

/-- The block as an object. -/
def toJson (b : Block) : Json :=
  Json.object [("number", Json.nat b.number), ("hash", Json.ofWord b.hash),
    ("miner", Json.ofWord b.miner), ("block_reward", Json.ofAmount b.baseReward),
    ("uncles_reward", Json.ofAmount b.uncleInclusion), ("tx_fees", Json.ofAmount b.fees),
    ("tx_number", Json.nat b.transactions), ("timestamp", Json.nat b.time)]

/-- The columns of a block. -/
def columns : List String :=
  ["number", "hash", "miner", "block_reward", "uncles_reward", "tx_fees", "tx_number",
    "timestamp"]

/-- The block of a value. -/
def ofJson? (j : Json) : Option Block := do
  match ← j.columns? columns with
  | [some number, some hash, some miner, some reward, some uncles, some fees, some count,
      some time] =>
    return {
      number := ← number.unsigned? 64
      hash := ← hash.word? 64
      miner := ← miner.word? 40
      baseReward := ← reward.amount?
      uncleInclusion := ← uncles.amount?
      fees := ← fees.amount?
      transactions := ← count.unsigned? 32
      time := ← time.unsigned? 64 }
  | _ => none

end Block

namespace Uncle

/-- The uncle as an object. -/
def toJson (u : Uncle) : Json :=
  Json.object [("hash", Json.ofWord u.hash), ("position", Json.nat u.index),
    ("number", Json.nat u.number), ("block_number", Json.nat u.includedIn),
    ("miner", Json.ofWord u.miner), ("uncle_reward", Json.ofAmount u.reward),
    ("block_time", Json.nat u.time)]

/-- The columns of an uncle. -/
def columns : List String :=
  ["hash", "position", "number", "block_number", "miner", "uncle_reward", "block_time"]

/-- The uncle of a value. -/
def ofJson? (j : Json) : Option Uncle := do
  match ← j.columns? columns with
  | [some hash, some index, some number, some includedIn, some miner, some reward, some time] =>
    return {
      hash := ← hash.word? 64
      index := ← index.unsigned? 32
      number := ← number.unsigned? 64
      includedIn := ← includedIn.unsigned? 64
      miner := ← miner.word? 40
      reward := ← reward.amount?
      time := ← time.unsigned? 64 }
  | _ => none

end Uncle

namespace Transaction

/-- The transaction as an object; an absent address is null. -/
def toJson (t : Transaction) : Json :=
  Json.object [("hash", Json.ofWord t.hash), ("block_hash", Json.ofWord t.blockHash),
    ("block_number", Json.nat t.blockNumber), ("from", Json.ofWord t.sender),
    ("to", Json.orNull (t.recipient.map Json.ofWord)),
    ("created_contract", Json.orNull (t.created.map Json.ofWord)),
    ("value", Json.ofAmount t.value), ("fee", Json.ofAmount t.fee),
    ("block_time", Json.nat t.time)]

/-- The columns of a transaction. -/
def columns : List String :=
  ["hash", "block_hash", "block_number", "from", "to", "created_contract", "value", "fee",
    "block_time"]

/-- The transaction of a value; the recipient and the created contract may be
left out. -/
def ofJson? (j : Json) : Option Transaction := do
  match ← j.columns? columns with
  | [some hash, some blockHash, some blockNumber, some sender, recipient, created, some value,
      some fee, some time] =>
    return {
      hash := ← hash.word? 64
      blockHash := ← blockHash.word? 64
      blockNumber := ← blockNumber.unsigned? 64
      sender := ← sender.word? 40
      recipient := ← Json.optionalWord? 40 recipient
      created := ← Json.optionalWord? 40 created
      value := ← value.amount?
      fee := ← fee.amount?
      time := ← time.unsigned? 64 }
  | _ => none

end Transaction

namespace Payload

/-- The name of the payload's type. -/
def typeName : Payload → String
  | block _ => "block"
  | uncle _ => "uncle"
  | transaction _ => "transaction"

/-- The payload without its type. -/
def data : Payload → Json
  | block b => b.toJson
  | uncle u => u.toJson
  | transaction t => t.toJson

/-- The payload with its type. -/
def toJson (p : Payload) : Json :=
  Json.object [("type", Json.text p.typeName), ("data", p.data)]

/-- The payload of a value. -/
def ofJson? (j : Json) : Option Payload := do
  let (tag, data) ← j.tagged?
  let name ← tag.name?
  if name = "block" then (Block.ofJson? data).map block
  else if name = "uncle" then (Uncle.ofJson? data).map uncle
  else if name = "transaction" then (Transaction.ofJson? data).map transaction
  else none

end Payload

namespace Record

/-- The record as an object. -/
def toJson (r : Record) : Json :=
  Json.object [("key", Json.text r.kind.name), ("value", r.payload.toJson),
    ("topic", Json.text r.partition.topic), ("partition", Json.nat r.partition.number),
    ("offset", Json.nat r.offset)]

/-- The columns of a record. -/
def columns : List String := ["key", "value", "topic", "partition", "offset"]

/-- The record of a value. -/
def ofJson? (j : Json) : Option Record := do
  match ← j.columns? columns with
  | [some kind, some payload, some topic, some number, some offset] =>
    return {
      kind := Kind.ofName (← kind.name?)
      payload := ← Payload.ofJson? payload
      partition := ⟨← topic.text?, ← number.unsigned? 32⟩
      offset := ← offset.unsigned? 64 }
  | _ => none

end Record

end ChainLedger
