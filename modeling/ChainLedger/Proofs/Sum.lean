import Mathlib.Algebra.BigOperators.Group.List.Basic
import ChainLedger.Totals

/-!
# Sums of totals

Totals are added exactly, so they form a commutative group, and a sum that fits at
every step is the sum in the group.
-/

namespace ChainLedger

namespace Totals

@[ext]
theorem ext {a b : Totals} (hbalance : a.balance = b.balance) (hreceived : a.received = b.received)
    (htransfers : a.transfers = b.transfers) (hblocks : a.blocks = b.blocks)
    (huncles : a.uncles = b.uncles) :
  a = b
  := by
  cases a
  cases b
  simp_all

@[simp]
theorem zero_balance :
  (0 : Totals).balance = 0
  := rfl

@[simp]
theorem zero_received :
  (0 : Totals).received = 0
  := rfl

@[simp]
theorem zero_transfers :
  (0 : Totals).transfers = 0
  := rfl

@[simp]
theorem zero_blocks :
  (0 : Totals).blocks = 0
  := rfl

@[simp]
theorem zero_uncles :
  (0 : Totals).uncles = 0
  := rfl

@[simp]
theorem add_balance (a b : Totals) :
  (a + b).balance = a.balance + b.balance
  := rfl

@[simp]
theorem add_received (a b : Totals) :
  (a + b).received = a.received + b.received
  := rfl

@[simp]
theorem add_transfers (a b : Totals) :
  (a + b).transfers = a.transfers + b.transfers
  := rfl

@[simp]
theorem add_blocks (a b : Totals) :
  (a + b).blocks = a.blocks + b.blocks
  := rfl

@[simp]
theorem add_uncles (a b : Totals) :
  (a + b).uncles = a.uncles + b.uncles
  := rfl

@[simp]
theorem neg_balance (a : Totals) :
  (-a).balance = -a.balance
  := rfl

@[simp]
theorem neg_received (a : Totals) :
  (-a).received = -a.received
  := rfl

@[simp]
theorem neg_transfers (a : Totals) :
  (-a).transfers = -a.transfers
  := rfl

@[simp]
theorem neg_blocks (a : Totals) :
  (-a).blocks = -a.blocks
  := rfl

@[simp]
theorem neg_uncles (a : Totals) :
  (-a).uncles = -a.uncles
  := rfl

instance : AddCommGroup Totals where
  add_assoc a b c := by ext <;> simp [Int.add_assoc]
  zero_add a := by ext <;> simp
  add_zero a := by ext <;> simp
  add_comm a b := by ext <;> simp [Int.add_comm]
  neg_add_cancel a := by ext <;> simp
  nsmul := nsmulRec
  zsmul := zsmulRec

theorem isZero_iff {t : Totals} :
  t.isZero = true ↔ t = 0
  := by
  simp [isZero]

/-- No column overflows while the totals of the list are added up from the left. -/
def Summable (l : List Totals) : Prop := ∀ front, front <+: l → front.sum.Fits

theorem summable_nil :
  Summable []
  := by
  intro front hfront
  rw [List.prefix_nil.mp hfront]
  decide

theorem summable_singleton {t : Totals} (h : t.Fits) :
  Summable [t]
  := by
  intro front hfront
  rcases List.prefix_cons_iff.mp hfront with rfl | ⟨tail, rfl, htail⟩
  · apply summable_nil _ List.prefix_rfl
  · rw [List.prefix_nil.mp htail, List.sum_singleton]
    exact h

theorem sumFrom?_eq_ok_iff {a c : Totals} {l : List Totals} (ha : a.Fits) :
  sumFrom? a l = .ok c ↔ (∀ front, front <+: l → (a + front.sum).Fits) ∧ c = a + l.sum
  := by
  induction l generalizing a with
  | nil => simp [sumFrom?, ha, eq_comm]
  | cons b rest ih =>
      rw [sumFrom?]
      cases hab : a.add? b with
      | error o =>
          constructor
          · intro h
            cases h
          · rintro ⟨hfits, -⟩
            have hb := hfits [b] ⟨rest, rfl⟩
            rw [List.sum_singleton] at hb
            rw [add?_eq_ok_iff.mpr ⟨hb, rfl⟩] at hab
            cases hab
      | ok s =>
          obtain ⟨hs, rfl⟩ := add?_eq_ok_iff.mp hab
          apply Iff.trans (ih hs)
          rw [List.sum_cons, add_assoc]
          apply and_congr_left'
          constructor
          · rintro h front hfront
            rcases List.prefix_cons_iff.mp hfront with rfl | ⟨tail, rfl, htail⟩
            · simpa using ha
            · rw [List.sum_cons, ← add_assoc]
              apply h tail htail
          · intro h front hfront
            have hcons := h (b :: front) (by simpa using hfront)
            rwa [List.sum_cons, ← add_assoc] at hcons

/-- A sum is computed exactly if nothing overflows on the way. -/
theorem sum?_eq_ok_iff {c : Totals} {l : List Totals} :
  sum? l = .ok c ↔ Summable l ∧ c = l.sum
  := by
  have h := sumFrom?_eq_ok_iff (a := 0) (c := c) (l := l) (by decide)
  simpa [sum?, Summable] using h

/-- If one of some summands grows and the others do not change, then so does the sum. -/
theorem sum_map_add {α : Type} {l : List α} (hl : l.Nodup) {a : α} (ha : a ∈ l)
    {f g : α → Totals} {t : Totals} (hother : ∀ c ∈ l, c ≠ a → g c = f c) (hat : g a = f a + t) :
  (l.map g).sum = (l.map f).sum + t
  := by
  induction l with
  | nil => cases ha
  | cons c l ih =>
      obtain ⟨hc, hl⟩ := List.nodup_cons.mp hl
      rw [List.map_cons, List.map_cons, List.sum_cons, List.sum_cons]
      rcases List.mem_cons.mp ha with rfl | ha
      · have hrest : l.map g = l.map f := by
          apply List.map_congr_left
          intro c hmem
          apply hother c (.tail _ hmem)
          rintro rfl
          apply hc hmem
        rw [hat, hrest, add_right_comm]
      · rw [hother c (.head _) (by rintro rfl; exact hc ha),
          ih hl ha fun c' hmem => hother c' (.tail _ hmem), add_assoc]

end Totals

end ChainLedger
