import ChainLedger.Proofs.Accounts
import ChainLedger.Proofs.Stages

/-!
# Magnitudes

The weight of some deltas is what they would add up to if all of their columns were
positive.  It bounds every sum of some of them, in any order and with any signs.  So if
the rows are bounded and the weight of a batch fits beside the bounds, nothing of the batch
overflows, and afterwards the rows are bounded by as much more.
-/

namespace ChainLedger

/-- A number between another one and its negation fits if the other one does. -/
theorem FitsSigned.of_between {bits : Nat} {bound x : Int} (hbound : FitsSigned bits bound)
    (hlow : -bound ≤ x) (hhigh : x ≤ bound) :
  FitsSigned bits x
  := by
  obtain ⟨-, hlt⟩ := hbound
  constructor
  · omega
  · omega

namespace Totals

/-- Every column lies between that of the bound and its negation. -/
structure Within (bound t : Totals) : Prop where
  balance : -bound.balance ≤ t.balance ∧ t.balance ≤ bound.balance
  received : -bound.received ≤ t.received ∧ t.received ≤ bound.received
  transfers : -bound.transfers ≤ t.transfers ∧ t.transfers ≤ bound.transfers
  blocks : -bound.blocks ≤ t.blocks ∧ t.blocks ≤ bound.blocks
  uncles : -bound.uncles ≤ t.uncles ∧ t.uncles ≤ bound.uncles

/-- The absolute values of the columns. -/
def size (t : Totals) : Totals where
  balance := t.balance.natAbs
  received := t.received.natAbs
  transfers := t.transfers.natAbs
  blocks := t.blocks.natAbs
  uncles := t.uncles.natAbs

variable {bound bound' t t' : Totals}

theorem within_zero :
  (0 : Totals).Within 0
  := by
  constructor <;> decide

theorem within_size (t : Totals) :
  t.size.Within t
  := by
  constructor <;> constructor <;> dsimp only [size] <;> omega

theorem zero_within_size (t : Totals) :
  t.size.Within 0
  := by
  constructor <;> constructor <;> dsimp only [size] <;> simp

/-- The absolute values lie within the same bounds. -/
theorem Within.size (h : bound.Within t) :
  bound.Within t.size
  := by
  obtain ⟨⟨_, _⟩, ⟨_, _⟩, ⟨_, _⟩, ⟨_, _⟩, ⟨_, _⟩⟩ := h
  constructor <;> constructor <;> dsimp only [Totals.size] <;> omega

/-- A bound lies within itself. -/
theorem Within.self (h : bound.Within 0) :
  bound.Within bound
  := by
  obtain ⟨⟨_, _⟩, ⟨_, _⟩, ⟨_, _⟩, ⟨_, _⟩, ⟨_, _⟩⟩ := h
  simp only [zero_balance, zero_received, zero_transfers, zero_blocks, zero_uncles] at *
  constructor <;> constructor <;> omega

/-- Bounds add up. -/
theorem Within.add (h : bound.Within t) (h' : bound'.Within t') :
  (bound + bound').Within (t + t')
  := by
  obtain ⟨⟨_, _⟩, ⟨_, _⟩, ⟨_, _⟩, ⟨_, _⟩, ⟨_, _⟩⟩ := h
  obtain ⟨⟨_, _⟩, ⟨_, _⟩, ⟨_, _⟩, ⟨_, _⟩, ⟨_, _⟩⟩ := h'
  constructor <;> constructor <;>
    simp only [add_balance, add_received, add_transfers, add_blocks, add_uncles] <;> omega

/-- Bounds may lie within bounds. -/
theorem Within.trans (h : bound'.Within bound) (ht : bound.Within t) :
  bound'.Within t
  := by
  obtain ⟨⟨_, _⟩, ⟨_, _⟩, ⟨_, _⟩, ⟨_, _⟩, ⟨_, _⟩⟩ := h
  obtain ⟨⟨_, _⟩, ⟨_, _⟩, ⟨_, _⟩, ⟨_, _⟩, ⟨_, _⟩⟩ := ht
  constructor <;> constructor <;> omega

/-- A bound may be raised. -/
theorem Within.add_right (h : bound.Within t) (hbound : bound'.Within 0) :
  (bound + bound').Within t
  := by
  rw [← add_zero t]
  apply h.add hbound

theorem Within.add_left (h : bound.Within t) (hbound : bound'.Within 0) :
  (bound' + bound).Within t
  := by
  rw [← zero_add t]
  apply hbound.add h

/-- What lies within a bound that fits, fits. -/
theorem Within.fits (h : bound.Within t) (hbound : bound.Fits) :
  t.Fits
  := by
  obtain ⟨hbalance, hreceived, htransfers, hblocks, huncles⟩ := hbound
  refine ⟨?_, ?_, ?_, ?_, ?_⟩
  · apply hbalance.of_between h.balance.1 h.balance.2
  · apply hreceived.of_between h.received.1 h.received.2
  · apply htransfers.of_between h.transfers.1 h.transfers.2
  · apply hblocks.of_between h.blocks.1 h.blocks.2
  · apply huncles.of_between h.uncles.1 h.uncles.2

end Totals

namespace Delta

/-- What some deltas would add up to if all of their columns were positive. -/
def weight (ds : List Delta) : Totals := (ds.map (·.change.size)).sum

variable {ds ds' : List Delta}

theorem weight_append (ds ds' : List Delta) :
  weight (ds ++ ds') = weight ds + weight ds'
  := by
  rw [weight, List.map_append, List.sum_append]
  rfl

theorem weight_perm (h : ds.Perm ds') :
  weight ds = weight ds'
  := (h.map _).sum_eq

/-- The sum of some deltas, in absolute values or not, lies within the weight of all. -/
theorem within_sum {f : Delta → Totals} (hf : ∀ d : Delta, d.change.size.Within (f d))
    (h : ds'.Sublist ds) :
  (weight ds).Within (ds'.map f).sum
  := by
  induction h with
  | slnil => apply Totals.within_zero
  | cons d _ ih => apply ih.add_left (Totals.zero_within_size d.change)
  | cons_cons d _ ih => apply (hf d).add ih

theorem within_total (h : ds'.Sublist ds) :
  (weight ds).Within (total ds')
  := within_sum (fun d => Totals.within_size d.change) h

theorem within_weight (h : ds'.Sublist ds) :
  (weight ds).Within (weight ds')
  := within_sum (fun d => (Totals.within_size d.change).size) h

/-- Nothing overflows while some deltas are added up, if the weight of all fits. -/
theorem summable_of_weight {bound : Totals} (hsub : ds'.Sublist ds) (hbound : bound.Within 0)
    (hfits : (bound + weight ds).Fits) :
  Totals.Summable (ds'.map (·.change))
  := by
  intro front hfront
  obtain ⟨front, hfront', rfl⟩ : ∃ l, l <+: ds' ∧ front = l.map (·.change) := by
    refine ⟨ds'.take front.length, List.take_prefix _ _, ?_⟩
    rw [List.map_take]
    apply List.prefix_iff_eq_take.mp hfront
  apply Totals.Within.fits _ hfits
  apply (within_total (hfront'.sublist.trans hsub)).add_left hbound

end Delta

namespace Record

/-- The weight of the deltas of some records for an address. -/
def weight (key : Address) (rs : List Record) : Totals :=
  Delta.weight ((rs.flatMap deltas).filter (·.key = key))

theorem weight_append (key : Address) (rs rs' : List Record) :
  weight key (rs ++ rs') = weight key rs + weight key rs'
  := by
  rw [weight, List.flatMap_append, List.filter_append, Delta.weight_append]
  rfl

theorem weight_within (key : Address) (rs : List Record) :
  (weight key rs).Within 0
  := Delta.within_total (List.nil_sublist _)

/-- If the weight of some records fits, so does that of the first of them. -/
theorem fits_weight_left {key : Address} {rs rs' : List Record}
    (h : (weight key (rs ++ rs')).Fits) :
  (weight key rs).Fits
  := by
  apply Totals.Within.fits _ h
  rw [weight, List.flatMap_append, List.filter_append]
  exact Delta.within_weight (List.sublist_append_left _ _)

end Record

namespace Batch

variable {b : Batch} {rs : List Record} {key : Address} {row? row'? : Option Row}
  {bound : Totals} {v : Nat}

/-- The weight of the deltas of a batch for an address. -/
def weight (b : Batch) (key : Address) : Totals :=
  Delta.weight (b.deltas.filter (·.key = key))

/-- The row lies within a bound, and so does its version. -/
def Bounded (bound : Totals) (v : Nat) (row? : Option Row) : Prop :=
  ∀ row ∈ row?, bound.Within row.totals ∧ row.version ≤ v

/-- The weight of a batch is that of its records. -/
theorem Collects.weight_eq (hb : b.Collects rs) (key : Address) :
  b.weight key = Record.weight key rs
  := by
  apply Delta.weight_perm
  apply List.Perm.filter
  apply hb.perm.flatMap_right

/-- What is to be applied lies within the weight of the batch. -/
theorem within_of_toApply {d : Delta} (h : b.toApply key row? = some d) :
  (b.weight key).Within d.change
  := by
  rw [(eq_whole_of_toApply h).1]
  apply Delta.within_total List.filter_sublist

/-- A bounded row is written within a bound that is greater by the weight of the batch. -/
theorem bounded_of_written {d : Delta} {row' : Row} (hd : b.toApply key row? = some d)
    (hwritten : Row.written row? d = .ok row') (hbound : bound.Within 0)
    (h : Bounded bound v row?) :
  Bounded (bound + b.weight key) (v + 1) (some row')
  := by
  rintro _ ⟨⟩
  rw [Row.totals_of_written hwritten]
  cases row? with
  | none =>
      cases hwritten
      refine ⟨hbound.add (within_of_toApply hd), ?_⟩
      apply Nat.zero_le
  | some row =>
      obtain ⟨hrow, hversion⟩ := h row rfl
      obtain ⟨-, -, rfl⟩ := Row.apply_eq_ok_iff.mp hwritten
      refine ⟨hrow.add (within_of_toApply hd), ?_⟩
      apply Nat.succ_le_succ hversion

theorem bounded_writtenAt (hbound : bound.Within 0) (h : Bounded bound v row?) :
  Bounded (bound + b.weight key) (v + 1) (b.writtenAt key row?)
  := by
  have hweight : (b.weight key).Within 0 := Delta.within_total (List.nil_sublist _)
  rw [writtenAt]
  split
  · intro row hrow
    obtain ⟨hwithin, hversion⟩ := h row hrow
    refine ⟨hwithin.add_right hweight, ?_⟩
    omega
  · next d hd =>
      cases hwritten : Row.written row? d with
      | error o =>
          rintro _ ⟨⟩
      | ok row' => apply bounded_of_written hd hwritten hbound h

theorem bounded_finalAt (hbound : bound.Within 0) (h : Bounded bound v row?) :
  Bounded (bound + b.weight key) (v + 2) (b.finalAt key row?)
  := by
  have hat : Bounded (bound + b.weight key) (v + 1) (b.writtenAt key row?) :=
    bounded_writtenAt hbound h
  intro row hrow
  rw [finalAt] at hrow
  split at hrow
  · obtain ⟨row', hrow', rfl⟩ := Option.map_eq_some_iff.mp hrow
    obtain ⟨hwithin, hversion⟩ := hat row' hrow'
    refine ⟨hwithin, ?_⟩
    apply Nat.succ_le_succ hversion
  · obtain ⟨hwithin, hversion⟩ := hat row hrow
    refine ⟨hwithin, ?_⟩
    omega

/-- In every stage of a batch, a row that was bounded is bounded by the weight of the batch
more. -/
theorem Stage.bounded (h : b.Stage key row? row'?) (hbound : bound.Within 0)
    (hrow : Bounded bound v row?) :
  Bounded (bound + b.weight key) (v + 2) row'?
  := by
  have hweight : (b.weight key).Within 0 := Delta.within_total (List.nil_sublist _)
  cases h with
  | before =>
      intro row hmem
      obtain ⟨hwithin, hversion⟩ := hrow row hmem
      refine ⟨hwithin.add_right hweight, ?_⟩
      omega
  | written hd hwritten =>
      intro row hmem
      obtain ⟨hwithin, hversion⟩ := bounded_of_written hd hwritten hbound hrow row hmem
      refine ⟨hwithin, ?_⟩
      omega
  | @settled row hat hdoubt =>
      rintro _ ⟨⟩
      obtain ⟨hwithin, hversion⟩ := bounded_writtenAt hbound hrow row hat
      refine ⟨hwithin, ?_⟩
      apply Nat.succ_le_succ hversion

/-- If the weight of a batch fits beside the bounds of the rows, nothing overflows. -/
theorem fits_of_bounded {rule : TakeoverRule} {positions : Partition → Option Nat}
    {rows : Table Address Row} {bound : Address → Totals} (hbound : ∀ key, (bound key).Within 0)
    (hrows : ∀ key, Bounded (bound key) v (rows.get? key))
    (hfits : ∀ key, (bound key + b.weight key).Fits) (hv : FitsUnsigned 64 (v + 2)) :
  b.Fits rule positions rows
  := by
  have hv' : FitsUnsigned 64 (v + 1) := by
    apply Nat.lt_of_succ_lt hv
  constructor
  · intro key
    apply Delta.summable_of_weight List.filter_sublist (hbound key) (hfits key)
  · intro key d hd _
    have hrow := hrows key
    generalize rows.get? key = row? at hd hrow ⊢
    cases row? with
    | none => exact ⟨_, rfl⟩
    | some row =>
        obtain ⟨hwithin, hversion⟩ := hrow row rfl
        refine ⟨_, Row.apply_eq_ok_iff.mpr ⟨?_, ?_, rfl⟩⟩
        · apply (hwithin.add (within_of_toApply hd)).fits (hfits key)
        · apply Nat.lt_of_le_of_lt (Nat.succ_le_succ hversion) hv'
  · intro _ key row _ hat
    obtain ⟨-, hversion⟩ := bounded_writtenAt (hbound key) (hrows key) row hat
    apply Nat.lt_of_le_of_lt (Nat.succ_le_succ hversion) hv

end Batch

end ChainLedger
