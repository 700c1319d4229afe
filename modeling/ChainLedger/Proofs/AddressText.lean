import ChainLedger.Address

/-!
# The text of addresses

An address is read from forty hexadecimal digits of either case, with `0x` before them or not, and
is written as `0x` and the digits in lowercase.  No digit is an `x`, so a text whose digits begin
with a zero is not taken for one with `0x` before them.  Reading and writing agree digit by digit:
the digits that denote a number are the digits of this number.
-/

namespace ChainLedger

/-! ### Digits -/

namespace Hex

/-- The hexadecimal digits, those above nine in either case. -/
def alphabet : List Char := "0123456789abcdefABCDEF".toList

/-- A character with a value is the digit of this value, in lowercase or in uppercase. -/
theorem eq_digitChar {c : Char} {d : Nat} (h : digit? c = some d) :
  c = digitChar d ∨ c = (digitChar d).toUpper
  := by
  have hupper : ∀ d, d < 16 → 10 ≤ d → (digitChar d).toUpper = Char.ofNat (55 + d) := by decide
  have hlt := digit?_lt h
  simp only [digit?, Char.le_def, UInt32.le_iff_toNat_le, Char.reduceVal] at h
  change (if 48 ≤ c.toNat ∧ c.toNat ≤ 57 then some (c.toNat - 48)
    else if 97 ≤ c.toNat ∧ c.toNat ≤ 102 then some (c.toNat - 87)
    else if 65 ≤ c.toNat ∧ c.toNat ≤ 70 then some (c.toNat - 55) else none) = some d at h
  have hc : ∀ n, c.toNat = n → c = Char.ofNat n := by
    rintro n rfl
    exact (Char.ofNat_toNat c).symm
  split at h
  · next hdecimal =>
      obtain rfl := Option.some.inj h
      left
      rw [digitChar, if_pos (by omega)]
      exact hc _ (by omega)
  · split at h
    · next hlower =>
        obtain rfl := Option.some.inj h
        left
        rw [digitChar, if_neg (by omega)]
        exact hc _ (by omega)
    · split at h
      · next hcapital =>
          obtain rfl := Option.some.inj h
          right
          rw [hupper _ hlt (by omega)]
          exact hc _ (by omega)
      · cases h

/-- Exactly the hexadecimal digits have a value. -/
theorem exists_digit?_iff {c : Char} :
  (∃ d, digit? c = some d) ↔ c ∈ alphabet
  := by
  constructor
  · rintro ⟨d, h⟩
    have hall : ∀ d, d < 16 → digitChar d ∈ alphabet ∧ (digitChar d).toUpper ∈ alphabet := by
      decide
    obtain ⟨hlower, hupper⟩ := hall d (digit?_lt h)
    rcases eq_digitChar h with rfl | rfl
    · exact hlower
    · exact hupper
  · intro h
    have hall : alphabet.all fun c => (digit? c).isSome := by decide
    exact Option.isSome_iff_exists.mp (List.all_eq_true.mp hall c h)

/-- A digit is written again in lowercase. -/
theorem digitChar_of_digit? {c : Char} {d : Nat} (h : digit? c = some d) :
  digitChar d = c.toLower
  := by
  have hall : ∀ d, d < 16 → (digitChar d).toLower = digitChar d ∧
      (digitChar d).toUpper.toLower = digitChar d := by
    decide
  obtain ⟨hlower, hupper⟩ := hall d (digit?_lt h)
  rcases eq_digitChar h with rfl | rfl
  · exact hlower.symm
  · exact hupper.symm

/-- Exactly the lists of hexadecimal digits denote a number. -/
theorem exists_value?_iff {cs : List Char} :
  (∃ v, value? cs = some v) ↔ ∀ c ∈ cs, c ∈ alphabet
  := by
  induction cs with
  | nil => simp [value?]
  | cons c cs ih =>
      rw [List.forall_mem_cons, ← ih, ← exists_digit?_iff, value?]
      cases digit? c with
      | none => simp
      | some d =>
          cases value? cs with
          | none => simp
          | some v => simp

/-- The last digits of a number are those of its remainder. -/
theorem digits_add (n k v : Nat) :
  digits n (k * Nat.pow 16 n + v) = digits n v
  := by
  induction n generalizing k with
  | zero => rfl
  | succ n ih =>
      have hpow : k * Nat.pow 16 (n + 1) = k * 16 * Nat.pow 16 n := by
        rw [Nat.mul_assoc, Nat.mul_comm 16]
        rfl
      have hpos : 0 < Nat.pow 16 n := Nat.pow_pos (by decide)
      rw [digits, digits, hpow, ih, Nat.add_comm (k * 16 * _), Nat.add_mul_div_right _ _ hpos,
        Nat.add_mul_mod_self_right]

/-- The digits that denote a number are the digits of this number, in lowercase. -/
theorem digits_of_value? {cs : List Char} {v : Nat} (h : value? cs = some v) :
  digits cs.length v = cs.map Char.toLower
  := by
  induction cs generalizing v with
  | nil => rfl
  | cons c cs ih =>
      rw [value?] at h
      split at h
      · next d w hd hw =>
          obtain rfl := Option.some.inj h
          have hpos : 0 < Nat.pow 16 cs.length := Nat.pow_pos (by decide)
          rw [List.length_cons, digits, digits_add, ih hw, List.map_cons, Nat.add_comm,
            Nat.add_mul_div_right _ _ hpos, Nat.div_eq_of_lt (value?_lt hw), Nat.zero_add,
            Nat.mod_eq_of_lt (digit?_lt hd), digitChar_of_digit? hd]
      · cases h

end Hex

/-! ### Words -/

namespace Word

variable {n : Nat} {cs : List Char}

/-- Exactly the lists of `n` hexadecimal digits are words. -/
theorem exists_ofDigits?_iff :
  (∃ w, ofDigits? n cs = some w) ↔ cs.length = n ∧ ∀ c ∈ cs, c ∈ Hex.alphabet
  := by
  rw [← Hex.exists_value?_iff]
  constructor
  · rintro ⟨w, hw⟩
    obtain ⟨hlength, hvalue⟩ := ofDigits?_eq_some_iff.mp hw
    exact ⟨hlength, w.val, hvalue⟩
  · rintro ⟨rfl, v, hv⟩
    exact ⟨⟨v, Hex.value?_lt hv⟩, ofDigits?_eq_some_iff.mpr ⟨rfl, hv⟩⟩

/-- A word is written with the digits it was read from, in lowercase. -/
theorem digits_of_ofDigits? {w : Word n} (h : ofDigits? n cs = some w) :
  w.digits = cs.map Char.toLower
  := by
  obtain ⟨rfl, hvalue⟩ := ofDigits?_eq_some_iff.mp h
  exact Hex.digits_of_value? hvalue

end Word

/-! ### Addresses -/

namespace Address

/-- The text is made of forty hexadecimal digits of either case, with `0x` or nothing before
them. -/
def Spells (s : String) (ds : List Char) : Prop :=
  (s.toList = ds ∨ s.toList = '0' :: 'x' :: ds) ∧ ds.length = 40 ∧ ∀ c ∈ ds, c ∈ Hex.alphabet

/-- What a text spells is what is read from it. -/
theorem ofDigits?_of_spells {s : String} {ds : List Char} (h : Spells s ds) :
  parse? s = Word.ofDigits? 40 ds
  := by
  obtain ⟨heq | heq, -, hall⟩ := h
  · rw [parse?, heq]
    -- The second of the digits is no `x`.
    unfold ofChars?
    split
    · next rest => exact absurd (hall 'x' (by simp)) (by decide)
    · rfl
  · rw [parse?, heq]
    rfl

/-- Whatever is read as an address spells its digits. -/
theorem exists_spells {s : String} {a : Address} (h : parse? s = some a) :
  ∃ ds, Spells s ds
  := by
  unfold parse? ofChars? at h
  split at h
  · next ds heq => exact ⟨ds, .inr heq, Word.exists_ofDigits?_iff.mp ⟨a, h⟩⟩
  · exact ⟨s.toList, .inl rfl, Word.exists_ofDigits?_iff.mp ⟨a, h⟩⟩

/-- Exactly the texts that spell forty digits, with at most one `0x` before them, are read as
addresses; the address is then written as `0x` and these digits in lowercase; and every address is
read back from what is written for it. -/
theorem parse_iff_spells (s : String) :
  ((parse? s).isSome ↔ ∃ ds, Spells s ds) ∧
    (∀ a ds, parse? s = some a → Spells s ds →
      render a = "0x" ++ String.ofList (ds.map Char.toLower)) ∧
    ∀ a, parse? (render a) = some a
  := by
  refine ⟨?_, ?_, parse?_render⟩
  · rw [Option.isSome_iff_exists]
    constructor
    · rintro ⟨a, ha⟩
      exact exists_spells ha
    · rintro ⟨ds, hds⟩
      rw [ofDigits?_of_spells hds]
      exact Word.exists_ofDigits?_iff.mpr hds.2
  · intro a ds ha hds
    rw [ofDigits?_of_spells hds] at ha
    rw [render, Word.digits_of_ofDigits? ha]
    apply String.toList_inj.mp
    simp only [String.toList_append, String.toList_ofList]
    rfl

/-- Digits of both cases. -/
def mixedCase : String := "00112233445566778899AaBbCcDdEeFf00112233"

/-- An address in digits of both cases is read and written in lowercase; after a second `0x`, or
without its first digit, it is none. -/
theorem mixed_case_grammar :
  Spells ("0x" ++ mixedCase) mixedCase.toList ∧
    (∃ a, parse? ("0x" ++ mixedCase) = some a ∧
      render a = "0x00112233445566778899aabbccddeeff00112233" ∧ parse? (render a) = some a) ∧
    parse? ("0x0x" ++ mixedCase) = none ∧
    parse? (String.ofList mixedCase.toList.tail) = none
  := by
  have hspells : Spells ("0x" ++ mixedCase) mixedCase.toList := by
    have hall : mixedCase.toList.all (Hex.alphabet.contains ·) := by decide
    refine ⟨.inr ?_, rfl, fun c hc => List.contains_iff_mem.mp (List.all_eq_true.mp hall c hc)⟩
    rw [String.toList_append]
    rfl
  obtain ⟨hread, hwritten, hback⟩ := parse_iff_spells ("0x" ++ mixedCase)
  obtain ⟨a, ha⟩ := Option.isSome_iff_exists.mp (hread.mpr ⟨_, hspells⟩)
  refine ⟨hspells, ⟨a, ha, ?_, hback a⟩, by decide +kernel, by decide +kernel⟩
  rw [hwritten a _ ha hspells]
  decide +kernel

end Address

end ChainLedger
