import ChainLedger.Text.Uppercase

/-!
# Topic names

The topics of a chain: one each for its blocks, uncles and transactions, named
for the chain in capitals.
-/

namespace ChainLedger

namespace Topic

/-- The topic of a chain's blocks. -/
def blocks (chain : String) : String := Text.uppercase chain ++ "_BLOCK_PUMP"

/-- The topic of a chain's uncles. -/
def uncles (chain : String) : String := Text.uppercase chain ++ "_UNCLE_PUMP"

/-- The topic of a chain's transactions. -/
def transactions (chain : String) : String := Text.uppercase chain ++ "_TX_PUMP"

end Topic

end ChainLedger
