/-!
# Hexadecimal words

A word of `n` digits is a number below `16 ^ n`.  It is written with exactly `n`
lowercase digits and read from exactly `n` digits of either case; reading what
was written gives the word back, and writing what was read gives the digits in
lowercase.  Words are ordered as numbers, which for words of one length is also
the order of their digits read from the left.
-/

namespace ChainLedger

open Std

/-- A number of `n` hexadecimal digits. -/
structure Word (n : Nat) where
  /-- The number. -/
  val : Nat
  /-- It has at most `n` digits. -/
  val_lt : val < Nat.pow 16 n
deriving DecidableEq

namespace Hex

/-- The lowercase digit of a number below sixteen. -/
def digitChar (d : Nat) : Char :=
  if d < 10 then Char.ofNat (48 + d) else Char.ofNat (87 + d)

/-- The value of a hexadecimal digit of either case. -/
def digit? (c : Char) : Option Nat :=
  if '0' ≤ c ∧ c ≤ '9' then some (c.toNat - 48)
  else if 'a' ≤ c ∧ c ≤ 'f' then some (c.toNat - 87)
  else if 'A' ≤ c ∧ c ≤ 'F' then some (c.toNat - 55)
  else none

/-- The last `n` digits of a number, the highest first. -/
def digits : Nat → Nat → List Char
  | 0, _ => []
  | n + 1, v => digitChar (v / Nat.pow 16 n % 16) :: digits n v

/-- The number that a list of digits denotes, the highest first. -/
def value? : List Char → Option Nat
  | [] => some 0
  | c :: cs =>
    match digit? c, value? cs with
    | some d, some v => some (d * Nat.pow 16 cs.length + v)
    | _, _ => none

theorem digit?_digitChar :
  ∀ {d : Nat}, d < 16 → digit? (digitChar d) = some d
  := by
  decide

theorem digit?_lt {c : Char} {d : Nat} (h : digit? c = some d) :
  d < 16
  := by
  simp only [digit?, Char.le_def, UInt32.le_iff_toNat_le, Char.reduceVal] at h
  change (if 48 ≤ c.toNat ∧ c.toNat ≤ 57 then some (c.toNat - 48)
    else if 97 ≤ c.toNat ∧ c.toNat ≤ 102 then some (c.toNat - 87)
    else if 65 ≤ c.toNat ∧ c.toNat ≤ 70 then some (c.toNat - 55) else none) = some d at h
  split at h
  · simp only [Option.some.injEq] at h; omega
  · split at h
    · simp only [Option.some.injEq] at h; omega
    · split at h
      · simp only [Option.some.injEq] at h; omega
      · simp at h

theorem length_digits (n v : Nat) :
  (digits n v).length = n
  := by
  induction n with
  | zero => rfl
  | succ n ih => simp [digits, ih]

/-- `n` digits denote a number of `n` digits. -/
theorem value?_lt {cs : List Char} {v : Nat} (h : value? cs = some v) :
  v < Nat.pow 16 cs.length
  := by
  induction cs generalizing v with
  | nil => simp [value?] at h; simp [← h]
  | cons c cs ih =>
      rw [value?] at h
      split at h
      · next d w hd hw =>
          have hlt := digit?_lt hd
          have hw := ih hw
          obtain rfl := Option.some.inj h
          calc d * Nat.pow 16 cs.length + w < d * Nat.pow 16 cs.length + Nat.pow 16 cs.length :=
                Nat.add_lt_add_left hw _
            _ = (d + 1) * Nat.pow 16 cs.length := by rw [Nat.succ_mul]
            _ ≤ 16 * Nat.pow 16 cs.length := Nat.mul_le_mul_right _ hlt
            _ = Nat.pow 16 cs.length * 16 := Nat.mul_comm ..
      · simp at h

/-- Reading the written digits gives the last `n` digits of the number. -/
theorem value?_digits (n v : Nat) :
  value? (digits n v) = some (v % Nat.pow 16 n)
  := by
  induction n with
  | zero => simp [digits, value?, Nat.mod_one]
  | succ n ih =>
      rw [digits, value?, ih, digit?_digitChar (Nat.mod_lt _ (by decide)), length_digits]
      have hpow : Nat.pow 16 (n + 1) = Nat.pow 16 n * 16 := rfl
      rw [hpow, Nat.mod_mul, Nat.add_comm, Nat.mul_comm]

end Hex

namespace Word

variable {n : Nat}

instance : Ord (Word n) := ⟨fun a b => compare a.val b.val⟩

instance : TransOrd (Word n) := inferInstanceAs (TransCmp (compareOn Word.val))

instance : LawfulEqOrd (Word n) where
  eq_of_compare {a b} h := by
    cases a; cases b
    simpa using LawfulEqOrd.eq_of_compare (α := Nat) h

instance : Inhabited (Word n) := ⟨⟨0, Nat.pow_pos (by decide)⟩⟩

/-- The `n` lowercase digits. -/
def digits (w : Word n) : List Char := Hex.digits n w.val

/-- The digits as text. -/
def render (w : Word n) : String := String.ofList w.digits

/-- The word of exactly `n` digits. -/
def ofDigits? (n : Nat) (cs : List Char) : Option (Word n) :=
  if hn : cs.length = n then
    match h : Hex.value? cs with
    | some v => some ⟨v, hn ▸ Hex.value?_lt h⟩
    | none => none
  else none

/-- The word that a text of exactly `n` digits denotes. -/
def parse? (n : Nat) (s : String) : Option (Word n) := ofDigits? n s.toList

theorem ofDigits?_eq_some_iff {cs : List Char} {w : Word n} :
  ofDigits? n cs = some w ↔ cs.length = n ∧ Hex.value? cs = some w.val
  := by
  unfold ofDigits?
  split
  · next hn =>
      split
      · next v h => cases w; simp [hn, h]
      · next h => simp [h]
  · next hn => simp [hn]

/-- A word is read back from its digits. -/
@[simp]
theorem ofDigits?_digits (w : Word n) :
  ofDigits? n w.digits = some w
  := by
  rw [ofDigits?_eq_some_iff]
  exact ⟨Hex.length_digits .., by rw [digits, Hex.value?_digits, Nat.mod_eq_of_lt w.val_lt]⟩

end Word

end ChainLedger
