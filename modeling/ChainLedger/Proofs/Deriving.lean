import Mathlib.Algebra.BigOperators.Group.List.Basic
import Mathlib.Algebra.Ring.Int.Defs
import ChainLedger.Proofs.Delivery

/-!
# Whole effects

A payload is well formed if what it pays in all, added up as integers, is a signed number of 128
bits, and if somebody receives it.  A record that joins or leaves the chain with such a payload has
all of its deltas, and any other record has none.  No sum and no negation on the way overflows,
whatever the amounts are: a sum of more than 128 bits is refused, and every amount that is accepted
can be negated.
-/

namespace ChainLedger

namespace Payload

/-- What the payload pays in all is a signed number of 128 bits, and somebody receives it. -/
def WellFormed : Payload → Prop
  | .block b => b.baseReward + b.uncleInclusion + b.fees ≤ 2 ^ 127 - 1
  | .uncle u => u.reward ≤ 2 ^ 127 - 1
  | .transaction t => t.value + t.fee ≤ 2 ^ 127 - 1 ∧ (t.recipient.isSome ∨ t.created.isSome)

/-- The addresses that the payload changes, the one that pays before the one that is paid. -/
def parties : Payload → List Address
  | .block b => [b.miner]
  | .uncle u => [u.miner]
  | .transaction t => t.sender :: t.receiver?.toList

/-- What all balances together gain when the payload joins the chain: a reward is new, a value
only changes hands, and a fee is lost. -/
def gain : Payload → Int
  | .block b => b.baseReward + b.uncleInclusion + b.fees
  | .uncle u => u.reward
  | .transaction t => -t.fee

/-- What is received in all when the payload joins the chain. -/
def received : Payload → Int
  | .block b => b.baseReward + b.uncleInclusion + b.fees
  | .uncle u => u.reward
  | .transaction t => t.value

/-- The chain time of the payload. -/
def time : Payload → Nat
  | .block b => b.time
  | .uncle u => u.time
  | .transaction t => t.time

/-- The deltas of a well-formed payload. -/
def whole (p : Position) : Payload → List Delta
  | .block b =>
    let reward : Int := (b.baseReward + b.uncleInclusion + b.fees : Nat)
    [⟨b.miner, { balance := reward, received := reward, blocks := 1 }, p, b.time⟩]
  | .uncle u => [⟨u.miner, { balance := u.reward, received := u.reward, uncles := 1 }, p, u.time⟩]
  | .transaction t =>
    ⟨t.sender, { balance := -((t.value + t.fee : Nat) : Int), transfers := 1 }, p, t.time⟩ ::
      t.receiver?.toList.map fun a =>
        ⟨a, { balance := t.value, received := t.value, transfers := 1 }, p, t.time⟩

end Payload

/-! ### Amounts -/

theorem fitsSigned_amount_iff {n : Nat} :
  FitsSigned 128 (n : Int) ↔ n ≤ 2 ^ 127 - 1
  := by
  change -((2 : Int) ^ 127) ≤ n ∧ (n : Int) < (2 : Int) ^ 127 ↔ _
  omega

theorem signedAmount_of_le {n : Nat} (h : n ≤ 2 ^ 127 - 1) :
  signedAmount n = .ok (n : Int)
  := if_pos (fitsSigned_amount_iff.mpr h)

theorem signedAmount_of_not_le {n : Nat} (h : ¬ n ≤ 2 ^ 127 - 1) :
  signedAmount n = .error .amountTooLarge
  := if_neg fun hfits => h (fitsSigned_amount_iff.mp hfits)

theorem addUnsigned?_of_le {x y : Nat} (h : x + y ≤ 2 ^ 127 - 1) :
  addUnsigned? 128 x y = some (x + y)
  := by
  apply if_pos
  change x + y < 2 ^ 128
  omega

/-- A sum that is not refused is exact. -/
theorem eq_of_addUnsigned? {x y z : Nat} (h : addUnsigned? 128 x y = some z) :
  z = x + y
  := by
  rw [addUnsigned?] at h
  split at h
  · exact (Option.some.inj h).symm
  · cases h

theorem Block.reward?_of_le {b : Block}
    (h : b.baseReward + b.uncleInclusion + b.fees ≤ 2 ^ 127 - 1) :
  b.reward? = some (b.baseReward + b.uncleInclusion + b.fees)
  := by
  rw [reward?, addUnsigned?_of_le (Nat.le_of_add_right_le h)]
  exact addUnsigned?_of_le h

theorem Block.eq_of_reward? {b : Block} {n : Nat} (h : b.reward? = some n) :
  n = b.baseReward + b.uncleInclusion + b.fees
  := by
  obtain ⟨m, hm, hn⟩ := Option.bind_eq_some_iff.mp h
  rw [eq_of_addUnsigned? hn, eq_of_addUnsigned? hm]

/-- Small columns fit, and so do their negations. -/
theorem Totals.fits_of_small {t : Totals} (hbalance : t.balance.natAbs ≤ 2 ^ 127 - 1)
    (hreceived : t.received.natAbs ≤ 2 ^ 127 - 1) (htransfers : t.transfers.natAbs ≤ 1)
    (hblocks : t.blocks.natAbs ≤ 1) (huncles : t.uncles.natAbs ≤ 1) :
  t.Fits ∧ (-t).Fits
  := by
  have hfits : ∀ {bits bound : Nat} {x : Int}, (bound : Int) < (Nat.pow 2 (bits - 1) : Int) →
      x.natAbs ≤ bound → FitsSigned bits x ∧ FitsSigned bits (-x) := by
    intro bits bound x hbound hx
    rw [FitsSigned, FitsSigned]
    omega
  -- the least number of a width has no negation of that width, and it is no number of such a size
  have hwide : ((2 ^ 127 - 1 : Nat) : Int) < (Nat.pow 2 (128 - 1) : Int) := by decide
  have hnarrow : ((1 : Nat) : Int) < (Nat.pow 2 (64 - 1) : Int) := by decide
  exact ⟨⟨(hfits hwide hbalance).1, (hfits hwide hreceived).1, (hfits hnarrow htransfers).1,
      (hfits hnarrow hblocks).1, (hfits hnarrow huncles).1⟩,
    (hfits hwide hbalance).2, (hfits hwide hreceived).2, (hfits hnarrow htransfers).2,
      (hfits hnarrow hblocks).2, (hfits hnarrow huncles).2⟩

/-! ### Payloads -/

/-- A result is handed on to what follows. -/
theorem ok_bind {ε α β : Type} (a : α) (f : α → Except ε β) :
  (Except.ok a >>= f) = f a
  := rfl

namespace Transaction

/-- Somebody receives the value exactly if there is a recipient or a created contract. -/
theorem isSome_receiver?_iff {t : Transaction} :
  t.receiver?.isSome ↔ t.recipient.isSome ∨ t.created.isSome
  := by
  rw [receiver?]
  cases t.recipient with
  | none => simp
  | some a => simp

end Transaction

namespace Payload

variable {q : Payload}

/-- A well-formed payload has all of its deltas. -/
theorem deltas_of_wellFormed (h : q.WellFormed) (p : Position) :
  q.deltas p = .ok (q.whole p)
  := by
  cases q with
  | block b =>
      rw [deltas, Block.reward?_of_le h, orDefect, ok_bind, signedAmount_of_le h]
      rfl
  | uncle u =>
      rw [deltas, signedAmount_of_le h]
      rfl
  | transaction t =>
      obtain ⟨hspent, hreceiver⟩ := h
      obtain ⟨a, ha⟩ := Option.isSome_iff_exists.mp (Transaction.isSome_receiver?_iff.mpr hreceiver)
      rw [deltas, ha, orDefect, ok_bind, signedAmount_of_le (Nat.le_of_add_right_le hspent),
        ok_bind, addUnsigned?_of_le hspent, orDefect, ok_bind, signedAmount_of_le hspent, whole, ha]
      rfl

/-- A payload that is not well formed is refused as a whole. -/
theorem deltas_of_not_wellFormed (h : ¬ q.WellFormed) (p : Position) :
  ∃ e, q.deltas p = .error e
  := by
  cases q with
  | block b =>
      cases hreward : b.reward? with
      | none =>
          rw [deltas, hreward]
          exact ⟨_, rfl⟩
      | some n =>
          obtain rfl := Block.eq_of_reward? hreward
          rw [deltas, hreward, orDefect, ok_bind, signedAmount_of_not_le h]
          exact ⟨_, rfl⟩
  | uncle u =>
      rw [deltas, signedAmount_of_not_le h]
      exact ⟨_, rfl⟩
  | transaction t =>
      cases hreceiver : t.receiver? with
      | none =>
          rw [deltas, hreceiver]
          exact ⟨_, rfl⟩
      | some a =>
          have hsome := Transaction.isSome_receiver?_iff.mp (Option.isSome_of_mem hreceiver)
          have hspent : ¬ t.value + t.fee ≤ 2 ^ 127 - 1 := fun hle => h ⟨hle, hsome⟩
          rw [deltas, hreceiver, orDefect, ok_bind]
          by_cases hvalue : t.value ≤ 2 ^ 127 - 1
          · rw [signedAmount_of_le hvalue, ok_bind]
            cases htotal : addUnsigned? 128 t.value t.fee with
            | none => exact ⟨_, rfl⟩
            | some n =>
                obtain rfl := eq_of_addUnsigned? htotal
                rw [orDefect, ok_bind, signedAmount_of_not_le hspent]
                exact ⟨_, rfl⟩
          · rw [signedAmount_of_not_le hvalue]
            exact ⟨_, rfl⟩

/-! ### Whole effects -/

variable {p : Position} {d : Delta}

theorem map_key_whole (q : Payload) (p : Position) :
  (q.whole p).map (·.key) = q.parties
  := by
  cases q with
  | block b => rfl
  | uncle u => rfl
  | transaction t => simp [whole, parties, Function.comp_def]

theorem whole_ne_nil (q : Payload) (p : Position) :
  q.whole p ≠ []
  := by
  cases q with
  | block b => exact List.cons_ne_nil _ _
  | uncle u => exact List.cons_ne_nil _ _
  | transaction t => exact List.cons_ne_nil _ _

theorem time_of_mem_whole (h : d ∈ q.whole p) :
  d.time = q.time
  := by
  cases q with
  | block b =>
      obtain rfl := List.mem_singleton.mp h
      rfl
  | uncle u =>
      obtain rfl := List.mem_singleton.mp h
      rfl
  | transaction t =>
      rcases List.mem_cons.mp h with rfl | h
      · rfl
      · obtain ⟨a, -, rfl⟩ := List.mem_map.mp h
        rfl

/-- The balances of all deltas add up to the gain. -/
theorem sum_balance_whole (h : q.WellFormed) (p : Position) :
  ((q.whole p).map (·.change.balance)).sum = q.gain
  := by
  cases q with
  | block b => simp [whole, gain]
  | uncle u => simp [whole, gain]
  | transaction t =>
      obtain ⟨a, ha⟩ := Option.isSome_iff_exists.mp (Transaction.isSome_receiver?_iff.mpr h.2)
      simp [whole, gain, ha]

/-- The amounts received of all deltas add up to what is received. -/
theorem sum_received_whole (h : q.WellFormed) (p : Position) :
  ((q.whole p).map (·.change.received)).sum = q.received
  := by
  cases q with
  | block b => simp [whole, received]
  | uncle u => simp [whole, received]
  | transaction t =>
      obtain ⟨a, ha⟩ := Option.isSome_iff_exists.mp (Transaction.isSome_receiver?_iff.mpr h.2)
      simp [whole, received, ha]

/-- Every column of a delta fits, and so does its negation. -/
theorem fits_of_mem_whole (h : q.WellFormed) (hd : d ∈ q.whole p) :
  d.change.Fits ∧ (-d.change).Fits
  := by
  cases q with
  | block b =>
      have hreward : b.baseReward + b.uncleInclusion + b.fees ≤ 2 ^ 127 - 1 := h
      obtain rfl := List.mem_singleton.mp hd
      exact Totals.fits_of_small hreward hreward (Nat.zero_le 1) (Nat.le_refl 1) (Nat.zero_le 1)
  | uncle u =>
      have hreward : u.reward ≤ 2 ^ 127 - 1 := h
      obtain rfl := List.mem_singleton.mp hd
      exact Totals.fits_of_small hreward hreward (Nat.zero_le 1) (Nat.zero_le 1) (Nat.le_refl 1)
  | transaction t =>
      obtain ⟨hspent, -⟩ := h
      rcases List.mem_cons.mp hd with rfl | hd
      · have hbalance : (-((t.value + t.fee : Nat) : Int)).natAbs ≤ 2 ^ 127 - 1 := by
          rw [Int.natAbs_neg]
          exact hspent
        exact Totals.fits_of_small hbalance (Nat.zero_le _) (Nat.le_refl 1) (Nat.zero_le 1)
          (Nat.zero_le 1)
      · have hvalue : t.value ≤ 2 ^ 127 - 1 := Nat.le_of_add_right_le hspent
        obtain ⟨a, -, rfl⟩ := List.mem_map.mp hd
        exact Totals.fits_of_small hvalue hvalue (Nat.le_refl 1) (Nat.zero_le 1) (Nat.zero_le 1)

end Payload

namespace Record

variable {r : Record}

/-! ### The deltas of a record -/

/-- A record is without effect, or it joins the chain and has the deltas of its payload, or it
leaves the chain and has them taken back. -/
theorem deltas_cases (r : Record) :
  (r.kind = .pooled ∨ r.kind = .unknown ∨ ¬ r.payload.WellFormed) ∧ r.deltas = []
    ∨ r.payload.WellFormed ∧ r.kind = .added ∧ r.deltas = r.payload.whole r.position
    ∨ r.payload.WellFormed ∧ r.kind = .dropped
      ∧ r.deltas = (r.payload.whole r.position).map Delta.negated
  := by
  obtain ⟨kind, payload, partition, offset⟩ := r
  by_cases hq : payload.WellFormed
  · cases kind with
    | added =>
        right; left
        rw [deltas, effect, Payload.deltas_of_wellFormed hq]
        exact ⟨hq, rfl, rfl⟩
    | dropped =>
        right; right
        rw [deltas, effect, Payload.deltas_of_wellFormed hq]
        exact ⟨hq, rfl, rfl⟩
    | pooled => exact .inl ⟨.inl rfl, rfl⟩
    | unknown => exact .inl ⟨.inr (.inl rfl), rfl⟩
  · left
    refine ⟨.inr (.inr hq), ?_⟩
    cases kind with
    | added =>
        obtain ⟨e, he⟩ := Payload.deltas_of_not_wellFormed hq ⟨partition, offset⟩
        rw [deltas, effect, position, he]
    | dropped =>
        obtain ⟨e, he⟩ := Payload.deltas_of_not_wellFormed hq ⟨partition, offset⟩
        rw [deltas, effect, position, he]
        rfl
    | pooled => rfl
    | unknown => rfl

theorem deltas_eq_nil_iff :
  r.deltas = [] ↔ r.kind = .pooled ∨ r.kind = .unknown ∨ ¬ r.payload.WellFormed
  := by
  have hwhole := r.payload.whole_ne_nil r.position
  rcases deltas_cases r with ⟨hidle, hds⟩ | ⟨hq, hkind, hds⟩ | ⟨hq, hkind, hds⟩
  · exact iff_of_true hds hidle
  · simp [hds, hkind, hq, hwhole]
  · simp [hds, hkind, hq, hwhole]

theorem map_key_deltas (h : r.deltas ≠ []) :
  r.deltas.map (·.key) = r.payload.parties
  := by
  rcases deltas_cases r with ⟨-, hds⟩ | ⟨-, -, hds⟩ | ⟨-, -, hds⟩
  · exact absurd hds h
  · rw [hds, Payload.map_key_whole]
  · rw [hds, List.map_map]
    exact r.payload.map_key_whole r.position

/-- Every delta stands at the position and the chain time of its record, and its columns fit. -/
theorem of_mem_deltas {d : Delta} (hd : d ∈ r.deltas) :
  d.source = r.position ∧ d.time = r.payload.time ∧ d.change.Fits
  := by
  refine ⟨source_of_mem_deltas hd, ?_⟩
  rcases deltas_cases r with ⟨-, hds⟩ | ⟨hq, -, hds⟩ | ⟨hq, -, hds⟩
  · rw [hds] at hd
    cases hd
  · rw [hds] at hd
    exact ⟨Payload.time_of_mem_whole hd, (Payload.fits_of_mem_whole hq hd).1⟩
  · rw [hds] at hd
    obtain ⟨d', hd', rfl⟩ := List.mem_map.mp hd
    have htime : d'.time = r.payload.time := Payload.time_of_mem_whole hd'
    exact ⟨htime, (Payload.fits_of_mem_whole hq hd').2⟩

/-- What leaves the chain takes back, delta by delta, what it did when it joined. -/
theorem deltas_dropped (r : Record) :
  ({ r with kind := .dropped } : Record).deltas
    = ({ r with kind := .added } : Record).deltas.map Delta.negated
  := by
  have hadded : ({ r with kind := .added } : Record).effect = r.payload.deltas r.position := rfl
  have hdropped : ({ r with kind := .dropped } : Record).effect
      = (r.payload.deltas r.position).map (·.map Delta.negated) := rfl
  rw [deltas, deltas, hadded, hdropped]
  cases r.payload.deltas r.position with
  | ok ds => rfl
  | error e => rfl

/-- Deltas whose negations fit are taken back without overflow. -/
theorem mapM_negated? {ds : List Delta} (h : ∀ d ∈ ds, (-d.change).Fits) :
  ds.mapM Delta.negated? = .ok (ds.map Delta.negated)
  := by
  induction ds with
  | nil => rfl
  | cons d ds ih =>
      have hd : d.negated? = .ok d.negated := by
        rw [Delta.negated?, Totals.neg?_eq_ok_iff.mpr ⟨h d (.head _), rfl⟩]
        rfl
      rw [List.mapM_cons, hd, ok_bind, ih fun d' hd' => h d' (.tail _ hd')]
      rfl

/-- The deltas of a record are derived as a whole or not at all, and exactly: there are none if
the record is not on the chain or malformed, and else one for each party, at the record's position
and time, which fits; what joins the chain adds up to its gain and to what is received; and what
leaves the chain is that negated, delta by delta, without overflow. -/
theorem deltas_exact (r : Record) :
  (r.deltas = [] ↔ r.kind = .pooled ∨ r.kind = .unknown ∨ ¬ r.payload.WellFormed)
    ∧ (r.deltas = [] ∨ r.deltas.map (·.key) = r.payload.parties)
    ∧ (∀ d ∈ r.deltas, d.source = r.position ∧ d.time = r.payload.time ∧ d.change.Fits)
    ∧ (r.kind = .added ∧ r.payload.WellFormed →
      (r.deltas.map (·.change.balance)).sum = r.payload.gain
        ∧ (r.deltas.map (·.change.received)).sum = r.payload.received)
    ∧ ({ r with kind := .dropped } : Record).deltas
      = ({ r with kind := .added } : Record).deltas.map Delta.negated
    ∧ ({ r with kind := .added } : Record).deltas.mapM Delta.negated?
      = .ok ({ r with kind := .dropped } : Record).deltas
  := by
  have hfits : ∀ d ∈ ({ r with kind := .added } : Record).deltas, (-d.change).Fits := by
    intro d hd
    have hback : d.negated ∈ ({ r with kind := .dropped } : Record).deltas := by
      rw [deltas_dropped]
      exact List.mem_map_of_mem hd
    exact (of_mem_deltas hback).2.2
  refine ⟨deltas_eq_nil_iff, ?keys, fun d => of_mem_deltas, ?sums, deltas_dropped r, ?back⟩
  case keys => exact or_iff_not_imp_left.mpr map_key_deltas
  case sums =>
    rintro ⟨hkind, hq⟩
    have hds : r.deltas = r.payload.whole r.position := by
      rw [deltas, effect, hkind]
      dsimp only
      rw [Payload.deltas_of_wellFormed hq]
    rw [hds]
    exact ⟨Payload.sum_balance_whole hq _, Payload.sum_received_whole hq _⟩
  case back =>
    rw [deltas_dropped]
    exact mapM_negated? hfits

end Record

end ChainLedger
