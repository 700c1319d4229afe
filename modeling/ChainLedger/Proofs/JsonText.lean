import Mathlib.Data.List.Basic
import ChainLedger.Json.Reader
import ChainLedger.Json.Writer

/-!
# Reading back JSON

The compact text of a value that is built from truth values, whole numbers and texts denotes this
value and no other.  A reader that has read a value stops just behind it, because what may follow
there, a comma or a closing bracket, does not go on with any value.
-/

namespace ChainLedger

namespace Json

/-! ### Texts -/

/-- A character is escaped by a letter, or by its number, or it stands for itself. -/
theorem escape_cases (c : Char) :
  (∃ e, e ≠ 'u' ∧ escaped? e = some c ∧ escape c = ['\\', e]) ∨
    (c.toNat < 32 ∧ escape c = '\\' :: 'u' :: Hex.digits 4 c.toNat) ∨
    (c ≠ '"' ∧ c ≠ '\\' ∧ 32 ≤ c.toNat ∧ escape c = [c])
  := by
  rw [escape]
  split
  · next h => exact .inl ⟨'"', by decide, by rw [h]; rfl, rfl⟩
  · next hquote =>
      split
      · next h => exact .inl ⟨'\\', by decide, by rw [h]; rfl, rfl⟩
      · next hbackslash =>
          split
          · next h => exact .inl ⟨'n', by decide, by rw [h]; rfl, rfl⟩
          split
          · next h => exact .inl ⟨'r', by decide, by rw [h]; rfl, rfl⟩
          split
          · next h => exact .inl ⟨'t', by decide, by rw [h]; rfl, rfl⟩
          split
          · next h => exact .inl ⟨'b', by decide, by rw [h]; rfl, rfl⟩
          split
          · next h => exact .inl ⟨'f', by decide, by rw [h]; rfl, rfl⟩
          split
          · next h => exact .inr (.inl ⟨h, rfl⟩)
          · next h => exact .inr (.inr ⟨hquote, hbackslash, Nat.le_of_not_lt h, rfl⟩)

/-- A code unit that is not half a surrogate pair stands for itself. -/
theorem Piece.join_code {u : Nat} (hu : u < 0xD800) (ps : List Piece) :
  join (code u :: ps) = (join ps).map (Char.ofNat u :: ·)
  := by
  conv_lhs => unfold join
  rw [if_pos (.inl hu)]

/-- What a character is written as is one piece of a string, which stands for the character. -/
theorem exists_piece (c : Char) :
  ∃ p : Piece, (∀ ps, Piece.join (p :: ps) = (Piece.join ps).map (c :: ·)) ∧
    ∀ cs, pieces (escape c ++ cs) = (pieces cs).map fun x => (p :: x.1, x.2)
  := by
  rcases escape_cases c with ⟨e, hu, he, hescape⟩ | ⟨hsmall, hescape⟩ |
    ⟨hquote, hbackslash, hlarge, hescape⟩
  · refine ⟨.char c, fun ps => rfl, fun cs => ?_⟩
    rw [hescape, List.cons_append, List.cons_append, List.nil_append,
      pieces.eq_4 e cs (fun _ _ _ _ _ heq _ => hu heq), he]
    cases pieces cs with
    | none => rfl
    | some x => rfl
  · refine ⟨.code c.toNat, fun ps => ?_, fun cs => ?_⟩
    · rw [Piece.join_code (by omega), Char.ofNat_toNat]
    · have hvalue : Hex.value? (Hex.digits 4 c.toNat) = some c.toNat := by
        rw [Hex.value?_digits, Nat.mod_eq_of_lt]
        exact Nat.lt_of_lt_of_le hsmall (by decide)
      rw [hescape]
      rw [Hex.digits, Hex.digits, Hex.digits, Hex.digits, Hex.digits] at hvalue ⊢
      rw [List.cons_append, List.cons_append, List.cons_append, List.cons_append, List.cons_append,
        List.cons_append, List.nil_append, pieces.eq_3, hvalue]
      cases pieces cs with
      | none => rfl
      | some x => rfl
  · refine ⟨.char c, fun ps => rfl, fun cs => ?_⟩
    rw [hescape, List.cons_append, List.nil_append,
      pieces.eq_5 c cs hquote (fun _ _ _ _ _ heq _ => hbackslash heq)
        (fun _ _ heq _ => hbackslash heq), if_neg (Nat.not_lt_of_le hlarge)]

/-- The escaped characters of a text are pieces that stand for the text. -/
theorem exists_pieces (cs rest : List Char) :
  ∃ ps, pieces (cs.flatMap escape ++ '"' :: rest) = some (ps, rest) ∧ Piece.join ps = some cs
  := by
  induction cs with
  | nil => exact ⟨[], rfl, rfl⟩
  | cons c cs ih =>
      obtain ⟨ps, hpieces, hjoin⟩ := ih
      obtain ⟨p, hp, hone⟩ := exists_piece c
      refine ⟨p :: ps, ?_, ?_⟩
      · rw [List.flatMap_cons, List.append_assoc, hone, hpieces]
        rfl
      · rw [hp, hjoin]
        rfl

/-- A text is read back from its escaped characters, up to the closing quote. -/
theorem string_escaped (s : String) (rest : List Char) :
  string (s.toList.flatMap escape ++ '"' :: rest) = some (some s, rest)
  := by
  obtain ⟨ps, hpieces, hjoin⟩ := exists_pieces s.toList rest
  rw [string, hpieces, Option.map_some]
  dsimp only
  rw [hjoin, Option.map_some, String.ofList_toList]

/-! ### Whole numbers -/

/-- The characters cannot go on with a value that ends before them. -/
def Closing (cs : List Char) : Prop := ∀ c ∈ cs.head?, c = ',' ∨ c = ']' ∨ c = '}'

theorem closing_nil :
  Closing []
  := by
  rintro c ⟨⟩

theorem closing_cons {c : Char} {cs : List Char} (h : c = ',' ∨ c = ']' ∨ c = '}') :
  Closing (c :: cs)
  := by
  rintro _ ⟨⟩
  exact h

/-- A number above zero does not start with the digit zero. -/
theorem head_ofNat {n : Nat} (hn : n ≠ 0) :
  (Decimal.ofNat n).head? ≠ some '0'
  := by
  have hdigit : ∀ d < 10, d ≠ 0 → Nat.digitChar d ≠ '0' := by decide
  induction n using Nat.strongRecOn with
  | ind n ih =>
      rw [Decimal.ofNat]
      by_cases hlt : n < 10
      · rw [Nat.toDigits_of_lt_base hlt, List.head?_cons]
        exact fun h => hdigit n hlt hn (Option.some.inj h)
      · have hle : 10 ≤ n := Nat.le_of_not_lt hlt
        rw [Nat.toDigits_of_base_le (by decide) hle,
          List.head?_append_of_ne_nil _ Nat.toDigits_ne_nil]
        exact ih (n / 10) (by omega) (by omega)

/-- The digits of a number are read up to what is no digit. -/
theorem digits_ofNat (n : Nat) {rest : List Char} (hrest : ∀ c ∈ rest.head?, c.isDigit = false) :
  (Decimal.ofNat n ++ rest).takeWhile Char.isDigit = Decimal.ofNat n ∧
    (Decimal.ofNat n ++ rest).dropWhile Char.isDigit = rest
  := by
  have hdigits : ∀ c ∈ Decimal.ofNat n, c.isDigit = true :=
    fun c hc => Nat.isDigit_of_mem_toDigits (by decide) (by decide) hc
  have hstops : rest.takeWhile Char.isDigit = [] ∧ rest.dropWhile Char.isDigit = rest := by
    cases rest with
    | nil => exact ⟨rfl, rfl⟩
    | cons c rest =>
        have hc := hrest c rfl
        rw [List.takeWhile_cons, List.dropWhile_cons, hc]
        exact ⟨rfl, rfl⟩
  constructor
  · rw [List.takeWhile_append_of_pos hdigits, hstops.1, List.append_nil]
  · rw [List.dropWhile_append_of_pos hdigits, hstops.2]

/-- The digits of a number are the whole part of what they start. -/
theorem whole?_ofNat (n : Nat) {rest : List Char} (hrest : ∀ c ∈ rest.head?, c.isDigit = false) :
  whole? (Decimal.ofNat n ++ rest) = some (Decimal.ofNat n, rest)
  := by
  by_cases hn : n = 0
  · have hnone : (rest.head?.map Char.isDigit).getD false = false := by
      cases rest with
      | nil => rfl
      | cons c rest => exact hrest c rfl
    subst hn
    change whole? ('0' :: rest) = some (['0'], rest)
    rw [whole?.eq_1, hnone, if_neg Bool.false_ne_true]
  · have hzero : ∀ cs, Decimal.ofNat n ++ rest = '0' :: cs → False := by
      intro cs heq
      have hne : Decimal.ofNat n ≠ [] := Nat.toDigits_ne_nil
      have hhead := congrArg List.head? heq
      rw [List.head?_append_of_ne_nil _ hne] at hhead
      exact head_ofNat hn hhead
    obtain ⟨htake, hdrop⟩ := digits_ofNat n hrest
    rw [whole?.eq_2 _ hzero, htake, hdrop]
    cases hdigits : Decimal.ofNat n with
    | nil => exact absurd hdigits Nat.toDigits_ne_nil
    | cons d ds => rfl

/-- What may follow a value is no digit and starts neither a fraction nor an exponent. -/
theorem Closing.continues_no_number {rest : List Char} (h : Closing rest) :
  (∀ c ∈ rest.head?, c.isDigit = false) ∧ fraction? rest = some ([], rest) ∧
    exponent? rest = some ([], rest)
  := by
  cases rest with
  | nil => exact ⟨nofun, rfl, rfl⟩
  | cons c rest =>
      rcases h c rfl with rfl | rfl | rfl
      · exact ⟨by rintro _ ⟨⟩; rfl, rfl, rfl⟩
      · exact ⟨by rintro _ ⟨⟩; rfl, rfl, rfl⟩
      · exact ⟨by rintro _ ⟨⟩; rfl, rfl, rfl⟩

/-- A number without a sign is read back, unless it is minus zero. -/
theorem unsignedNumber_ofNat {negative : Bool} {n : Nat} {rest : List Char} (h : Closing rest)
    (hzero : negative = true → n ≠ 0) :
  unsignedNumber negative (Decimal.ofNat n ++ rest)
    = some (int (if negative then -(n : Int) else n), rest)
  := by
  obtain ⟨hdigit, hfraction, hexponent⟩ := h.continues_no_number
  rw [unsignedNumber, whole?_ofNat n hdigit]
  simp only [Option.bind_eq_bind, Option.bind_some, hfraction, hexponent]
  have hvalue : Nat.ofDigitChars 10 (Decimal.ofNat n) 0 = n := Nat.ofDigitChars_ten_toDigits
  rw [hvalue, if_pos ⟨rfl, rfl, fun h => hzero h.1 h.2⟩]
  rfl

/-- A whole number starts with a sign or a digit. -/
theorem ofInt_cons (i : Int) :
  ∃ c cs, Decimal.ofInt i = c :: cs ∧ (c = '-' ∨ c.isDigit = true)
  := by
  cases i with
  | ofNat n =>
      rw [Decimal.ofInt]
      cases hdigits : Decimal.ofNat n with
      | nil => exact absurd hdigits Nat.toDigits_ne_nil
      | cons c cs =>
          refine ⟨c, cs, rfl, .inr ?_⟩
          have hc : c ∈ Nat.toDigits 10 n := by
            rw [← Decimal.ofNat, hdigits]
            exact List.mem_cons_self
          exact Nat.isDigit_of_mem_toDigits (by decide) (by decide) hc
  | negSucc n => exact ⟨'-', Decimal.ofNat (n + 1), rfl, .inl rfl⟩

/-- A whole number is read back from its digits. -/
theorem number_ofInt (i : Int) {rest : List Char} (h : Closing rest) :
  number (Decimal.ofInt i ++ rest) = some (int i, rest)
  := by
  cases i with
  | ofNat n =>
      have hsign : ∀ cs, Decimal.ofNat n ++ rest = '-' :: cs → False := by
        intro cs heq
        have hne : Decimal.ofNat n ≠ [] := Nat.toDigits_ne_nil
        have hhead := congrArg List.head? heq
        rw [List.head?_append_of_ne_nil _ hne] at hhead
        have hdigit : ('-' : Char).isDigit = true :=
          Nat.isDigit_of_mem_toDigits (by decide) (by decide) (List.mem_of_head? hhead)
        exact absurd hdigit (by decide)
      rw [Decimal.ofInt, number.eq_2 _ hsign,
        unsignedNumber_ofNat h fun hfalse => absurd hfalse Bool.false_ne_true]
      rfl
  | negSucc n =>
      rw [Decimal.ofInt, List.cons_append, number.eq_1,
        unsignedNumber_ofNat h (fun _ => Nat.succ_ne_zero n)]
      rfl

/-! ### Values -/

/-- The value is built from null, truth values, whole numbers and texts. -/
inductive Plain : Json → Prop
  | null : Plain null
  | bool (b : Bool) : Plain (bool b)
  | int (i : Int) : Plain (int i)
  | text (s : String) : Plain (text s)
  | arr {items : List Json} (h : ∀ j ∈ items, Plain j) : Plain (arr items)
  | object {ms : List (String × Json)} (h : ∀ m ∈ ms, Plain m.2) : Plain (object ms)

/-- A character that is neither sign nor digit does not start a number. -/
theorem ne_of_number {c d : Char} (h : c = '-' ∨ c.isDigit = true)
    (hd : ¬ (d = '-' ∨ d.isDigit = true)) :
  c ≠ d
  := by
  rintro rfl
  exact hd h

theorem isBlank_of_number {c : Char} (h : c = '-' ∨ c.isDigit = true) :
  isBlank c = false
  := by
  rw [isBlank, decide_eq_false (ne_of_number h (by decide)),
    decide_eq_false (ne_of_number h (by decide)), decide_eq_false (ne_of_number h (by decide)),
    decide_eq_false (ne_of_number h (by decide))]
  rfl

/-- There is no blank to skip in front of a character that is none. -/
theorem skipBlanks_cons {c : Char} (h : isBlank c = false) (cs : List Char) :
  skipBlanks (c :: cs) = c :: cs
  := by
  rw [skipBlanks, List.dropWhile_cons, h, if_neg Bool.false_ne_true]

/-- A sign or a digit starts a number and nothing else. -/
theorem value_number {c : Char} (h : c = '-' ∨ c.isDigit = true) (n : Nat) (cs : List Char) :
  value (n + 1) (c :: cs) = number (c :: cs)
  := by
  have hother : ∀ {d ds es}, c :: ds = d :: es → ¬ (d = '-' ∨ d.isDigit = true) → False :=
    fun heq hd => ne_of_number h hd (List.cons.inj heq).1
  rw [value.eq_2, skipBlanks_cons (isBlank_of_number h)]
  split
  · next heq => exact (hother heq (by decide)).elim
  · next heq => exact (hother heq (by decide)).elim
  · next heq => exact (hother heq (by decide)).elim
  · next heq => exact (hother heq (by decide)).elim
  · next heq => exact (hother heq (by decide)).elim
  · next heq => exact (hother heq (by decide)).elim
  · rfl

/-- The text of a value does not start with a blank or a closing bracket. -/
theorem compactChars_cons {j : Json} (h : Plain j) :
  ∃ c cs, j.compactChars = c :: cs ∧ isBlank c = false ∧ c ≠ ']'
  := by
  cases h with
  | null => exact ⟨_, _, rfl, rfl, by decide⟩
  | bool b => cases b <;> exact ⟨_, _, rfl, rfl, by decide⟩
  | int i =>
      obtain ⟨c, cs, heq, hc⟩ := ofInt_cons i
      exact ⟨c, cs, heq, isBlank_of_number hc, ne_of_number hc (by decide)⟩
  | text s => exact ⟨_, _, rfl, rfl, by decide⟩
  | arr h => exact ⟨'[', _, compactChars.eq_1 _, rfl, by decide⟩
  | object h => exact ⟨'{', _, compactChars.eq_2 _, rfl, by decide⟩

/-- An array that has items is its items. -/
theorem value_items {n : Nat} {c : Char} {cs rest : List Char} {js : List Json}
    (hblank : isBlank c = false) (hc : c ≠ ']') (hitems : items n (c :: cs) = some (js, rest)) :
  value (n + 1) ('[' :: c :: cs) = some (arr js, rest)
  := by
  have hopen : skipBlanks ('[' :: c :: cs) = '[' :: c :: cs := rfl
  simp only [value.eq_2, hopen, skipBlanks_cons hblank, hitems]
  split
  · next heq => exact absurd (List.cons.inj heq).1 hc
  · rfl

/-- An object that has members is its members. -/
theorem value_members {n : Nat} {cs rest : List Char} {ms : List (Option String × Json)}
    (hmembers : members n ('"' :: cs) = some (ms, rest)) :
  value (n + 1) ('{' :: '"' :: cs) = some (obj ms, rest)
  := by
  have hopen : value (n + 1) ('{' :: '"' :: cs)
      = (members n ('"' :: cs)).map fun x => (obj x.1, x.2) := rfl
  rw [hopen, hmembers, Option.map_some]

/-- The closing bracket ends the items. -/
theorem items_last {n : Nat} {cs rest : List Char} {j : Json}
    (hvalue : value n cs = some (j, ']' :: rest)) :
  items (n + 1) cs = some ([j], rest)
  := by
  rw [items.eq_2, hvalue]
  rfl

/-- A comma goes on to more items. -/
theorem items_cons {n : Nat} {cs r rest : List Char} {j : Json} {js : List Json}
    (hvalue : value n cs = some (j, ',' :: r)) (hitems : items n r = some (js, rest)) :
  items (n + 1) cs = some (j :: js, rest)
  := by
  have hcomma : items (n + 1) cs = (items n r).map fun x => (j :: x.1, x.2) := by
    rw [items.eq_2, hvalue]
    rfl
  rw [hcomma, hitems, Option.map_some]

/-- The closing brace ends the members. -/
theorem members_last {n : Nat} {cs r rest : List Char} {name : Option String} {j : Json}
    (hname : string cs = some (name, ':' :: r)) (hvalue : value n r = some (j, '}' :: rest)) :
  members (n + 1) ('"' :: cs) = some ([(name, j)], rest)
  := by
  have hquote : skipBlanks ('"' :: cs) = '"' :: cs := rfl
  have hcolon : skipBlanks (':' :: r) = ':' :: r := rfl
  have hclose : skipBlanks ('}' :: rest) = '}' :: rest := rfl
  simp only [members.eq_2, hquote, hname, hcolon, hvalue, hclose]

/-- A comma goes on to more members. -/
theorem members_cons {n : Nat} {cs r r' rest : List Char} {name : Option String} {j : Json}
    {ms : List (Option String × Json)} (hname : string cs = some (name, ':' :: r))
    (hvalue : value n r = some (j, ',' :: r')) (hmembers : members n r' = some (ms, rest)) :
  members (n + 1) ('"' :: cs) = some ((name, j) :: ms, rest)
  := by
  have hquote : skipBlanks ('"' :: cs) = '"' :: cs := rfl
  have hcolon : skipBlanks (':' :: r) = ':' :: r := rfl
  have hcomma : skipBlanks (',' :: r') = ',' :: r' := rfl
  simp only [members.eq_2, hquote, hname, hcolon, hvalue, hcomma, hmembers, Option.map_some]

/-! ### Reading back -/

/-- The texts of plain values of at most `n` characters are read back in `n` steps. -/
def ReadsValues (n : Nat) : Prop :=
  ∀ ⦃j : Json⦄ ⦃rest : List Char⦄, Plain j → j.compactChars.length ≤ n → Closing rest →
    value n (j.compactChars ++ rest) = some (j, rest)

/-- The texts of items of less than `n` characters are read back in `n` steps. -/
def ReadsItems (n : Nat) : Prop :=
  ∀ ⦃js : List Json⦄ (rest : List Char), js ≠ [] → (∀ j ∈ js, Plain j) →
    (compactItems js).length < n → items n (compactItems js ++ ']' :: rest) = some (js, rest)

/-- The texts of members of less than `n` characters are read back in `n` steps. -/
def ReadsMembers (n : Nat) : Prop :=
  ∀ ⦃ms : List (String × Json)⦄ (rest : List Char), ms ≠ [] → (∀ m ∈ ms, Plain m.2) →
    (compactMembers (ms.map fun m => (some m.1, m.2))).length < n →
    members n (compactMembers (ms.map fun m => (some m.1, m.2)) ++ '}' :: rest)
      = some (ms.map fun m => (some m.1, m.2), rest)

/-- The text of a text is read back behind its opening quote. -/
theorem quoted_append (s : String) (cs : List Char) :
  quoted (some s) ++ cs = '"' :: (s.toList.flatMap escape ++ '"' :: cs)
  := by
  rw [quoted, Option.getD_some, List.cons_append, List.append_assoc, List.singleton_append]

/-- The text of items starts as the text of the first one. -/
theorem compactItems_cons {j : Json} (hj : Plain j) (js : List Json) :
  ∃ c cs, compactItems (j :: js) = c :: cs ∧ isBlank c = false ∧ c ≠ ']'
  := by
  obtain ⟨c, cs, heq, hc⟩ := compactChars_cons hj
  cases js with
  | nil => exact ⟨c, cs, heq, hc⟩
  | cons k ks =>
      refine ⟨c, cs ++ ',' :: compactItems (k :: ks), ?_, hc⟩
      rw [compactItems.eq_3 j (k :: ks) (List.cons_ne_nil k ks), heq, List.cons_append]

/-- The text of members is a name, a colon, and the text of the value it names. -/
theorem compactMembers_cons (s : String) (j : Json) (ms : List (Option String × Json))
    (cs : List Char) :
  compactMembers ((some s, j) :: ms) ++ cs = '"' :: (s.toList.flatMap escape ++ '"' :: ':' ::
    (j.compactChars ++ ((if ms = [] then [] else ',' :: compactMembers ms) ++ cs)))
  := by
  cases ms with
  | nil => rw [compactMembers.eq_2, List.append_assoc, List.cons_append, quoted_append]; rfl
  | cons m ms =>
      rw [compactMembers.eq_3 _ j (m :: ms) (List.cons_ne_nil m ms), List.append_assoc,
        List.cons_append, quoted_append, List.append_assoc]
      rfl

/-- One more step reads what is around the items or the members of a value. -/
theorem readsValues_succ {n : Nat} (hitems : ReadsItems n) (hmembers : ReadsMembers n) :
  ReadsValues (n + 1)
  := by
  intro j rest hj hlen hrest
  cases hj with
  | null => rfl
  | bool b => cases b <;> rfl
  | int i =>
      obtain ⟨c, cs, heq, hc⟩ := ofInt_cons i
      have hnumber : value (n + 1) (Decimal.ofInt i ++ rest)
          = number (Decimal.ofInt i ++ rest) := by
        rw [heq, List.cons_append]
        exact value_number hc n (cs ++ rest)
      exact hnumber.trans (number_ofInt i hrest)
  | text s =>
      have hquote : value (n + 1) ('"' :: (s.toList.flatMap escape ++ '"' :: rest))
          = (string (s.toList.flatMap escape ++ '"' :: rest)).map fun x => (str x.1, x.2) := rfl
      have htext : (text s).compactChars = quoted (some s) := compactChars.eq_7 (some s)
      rw [htext, quoted_append, hquote, string_escaped]
      rfl
  | @arr js h =>
      rw [compactChars.eq_1] at hlen ⊢
      cases js with
      | nil => rfl
      | cons j js =>
          obtain ⟨c, cs, heq, hblank, hc⟩ := compactItems_cons (h j List.mem_cons_self) js
          rw [List.length_cons, List.length_append, List.length_singleton] at hlen
          have hread := hitems rest (List.cons_ne_nil j js) h (by omega)
          rw [heq, List.cons_append] at hread
          rw [List.cons_append, List.append_assoc, List.singleton_append, heq, List.cons_append]
          exact value_items hblank hc hread
  | @object ms h =>
      rw [object, compactChars.eq_2] at hlen ⊢
      cases ms with
      | nil => rfl
      | cons m ms =>
          rw [List.length_cons, List.length_append, List.length_singleton] at hlen
          have hread := hmembers rest (List.cons_ne_nil m ms) h (by omega)
          rw [List.map_cons, compactMembers_cons] at hread
          rw [List.cons_append, List.append_assoc, List.singleton_append, List.map_cons,
            compactMembers_cons]
          exact value_members hread

/-- One more step reads one more item. -/
theorem readsItems_succ {n : Nat} (hvalues : ReadsValues n) (hitems : ReadsItems n) :
  ReadsItems (n + 1)
  := by
  intro js rest hne hjs hlen
  cases js with
  | nil => exact absurd rfl hne
  | cons j js =>
      have hj := hjs j List.mem_cons_self
      cases js with
      | nil =>
          rw [compactItems.eq_2] at hlen ⊢
          exact items_last (hvalues hj (Nat.le_of_lt_succ hlen) (closing_cons (by decide)))
      | cons k ks =>
          have hks : ∀ i ∈ k :: ks, Plain i := fun i hi => hjs i (List.mem_cons_of_mem j hi)
          rw [compactItems.eq_3 j (k :: ks) (List.cons_ne_nil k ks)] at hlen ⊢
          rw [List.length_append, List.length_cons] at hlen
          rw [List.append_assoc, List.cons_append]
          exact items_cons (hvalues hj (by omega) (closing_cons (by decide)))
            (hitems rest (List.cons_ne_nil k ks) hks (by omega))

/-- One more step reads one more member. -/
theorem readsMembers_succ {n : Nat} (hvalues : ReadsValues n) (hmembers : ReadsMembers n) :
  ReadsMembers (n + 1)
  := by
  intro ms rest hne hms hlen
  cases ms with
  | nil => exact absurd rfl hne
  | cons m ms =>
      have hj := hms m List.mem_cons_self
      have hsplit := congrArg List.length
        (compactMembers_cons m.1 m.2 (ms.map fun m => (some m.1, m.2)) [])
      rw [List.append_nil, List.append_nil, List.length_cons, List.length_append, List.length_cons,
        List.length_cons, List.length_append] at hsplit
      rw [List.map_cons] at hlen ⊢
      rw [compactMembers_cons]
      cases ms with
      | nil =>
          exact members_last (string_escaped m.1 _)
            (hvalues hj (by omega) (closing_cons (by decide)))
      | cons m' ms =>
          have hne' : (m' :: ms).map (fun m => (some m.1, m.2)) ≠ [] := nofun
          have hms' : ∀ m ∈ m' :: ms, Plain m.2 := fun i hi => hms i (List.mem_cons_of_mem m hi)
          rw [if_neg hne', List.length_cons] at hsplit
          rw [if_neg hne']
          exact members_cons (string_escaped m.1 _)
            (hvalues hj (by omega) (closing_cons (by decide)))
            (hmembers rest (List.cons_ne_nil m' ms) hms' (by omega))

/-- As many steps as there are characters read a text back. -/
theorem reads_all (n : Nat) :
  ReadsValues n ∧ ReadsItems n ∧ ReadsMembers n
  := by
  induction n with
  | zero =>
      refine ⟨?_, ?_, ?_⟩
      · intro j rest hj hlen _
        obtain ⟨c, cs, heq, -⟩ := compactChars_cons hj
        rw [heq] at hlen
        exact absurd hlen (Nat.not_succ_le_zero _)
      · exact fun _ _ _ _ hlen => absurd hlen (Nat.not_lt_zero _)
      · exact fun _ _ _ _ hlen => absurd hlen (Nat.not_lt_zero _)
  | succ n ih =>
      obtain ⟨hvalues, hitems, hmembers⟩ := ih
      exact ⟨readsValues_succ hitems hmembers, readsItems_succ hvalues hitems,
        readsMembers_succ hvalues hmembers⟩

/-- A plain value is read back from its compact text. -/
theorem ofChars?_compactChars {j : Json} (hj : Plain j) :
  ofChars? j.compactChars = some j
  := by
  have hread := (reads_all (2 * j.compactChars.length + 2)).1 hj (by omega) closing_nil
  rw [List.append_nil] at hread
  rw [ofChars?, hread]
  rfl

/-- A plain value is read back from its compact text. -/
theorem parse?_compact {j : Json} (hj : Plain j) :
  parse? j.compact = some j
  := by
  rw [parse?, compact, String.toList_ofList, ofChars?_compactChars hj]

/-! ### One line -/

/-- The new line is not among hexadecimal digits. -/
theorem newline_not_mem_digits (n v : Nat) :
  '\n' ∉ Hex.digits n v
  := by
  have hdigit : ∀ d < 16, '\n' ≠ Hex.digitChar d := by decide
  induction n with
  | zero => exact List.not_mem_nil
  | succ n ih =>
      rw [Hex.digits, List.mem_cons, not_or]
      exact ⟨hdigit _ (Nat.mod_lt _ (by decide)), ih⟩

/-- A new line in a text is written as an escape. -/
theorem newline_not_mem_escape (c : Char) :
  '\n' ∉ escape c
  := by
  rcases escape_cases c with ⟨e, -, he, hescape⟩ | ⟨-, hescape⟩ | ⟨-, -, hlarge, hescape⟩
  · have hne : '\n' ≠ e := by
      rintro rfl
      exact absurd he nofun
    rw [hescape, List.mem_cons, List.mem_singleton, not_or]
    exact ⟨by decide, hne⟩
  · rw [hescape, List.mem_cons, List.mem_cons, not_or, not_or]
    exact ⟨by decide, by decide, newline_not_mem_digits 4 _⟩
  · rw [hescape, List.mem_singleton]
    rintro rfl
    exact absurd hlarge (by decide)

theorem newline_not_mem_quoted (s : String) :
  '\n' ∉ quoted (some s)
  := by
  rw [quoted, Option.getD_some, List.mem_cons, List.mem_append, List.mem_flatMap,
    List.mem_singleton]
  rintro (h | ⟨c, -, h⟩ | h)
  · exact absurd h (by decide)
  · exact newline_not_mem_escape c h
  · exact absurd h (by decide)

theorem newline_not_mem_ofInt (i : Int) :
  '\n' ∉ Decimal.ofInt i
  := by
  have hdigits : ∀ n, '\n' ∉ Decimal.ofNat n := fun n h =>
    absurd (Nat.isDigit_of_mem_toDigits (by decide) (by decide) h) (by decide)
  cases i with
  | ofNat n => exact hdigits n
  | negSucc n =>
      rw [Decimal.ofInt, List.mem_cons, not_or]
      exact ⟨by decide, hdigits (n + 1)⟩

theorem newline_not_mem_compactItems {js : List Json} (h : ∀ j ∈ js, '\n' ∉ j.compactChars) :
  '\n' ∉ compactItems js
  := by
  induction js with
  | nil => exact List.not_mem_nil
  | cons j js ih =>
      have hj := h j List.mem_cons_self
      have hjs := ih fun k hk => h k (List.mem_cons_of_mem j hk)
      cases js with
      | nil => exact hj
      | cons k ks =>
          rw [compactItems.eq_3 j (k :: ks) (List.cons_ne_nil k ks), List.mem_append,
            List.mem_cons]
          rintro (h | h | h)
          · exact hj h
          · exact absurd h (by decide)
          · exact hjs h

theorem newline_not_mem_compactMembers {ms : List (String × Json)}
    (h : ∀ m ∈ ms, '\n' ∉ m.2.compactChars) :
  '\n' ∉ compactMembers (ms.map fun m => (some m.1, m.2))
  := by
  induction ms with
  | nil => exact List.not_mem_nil
  | cons m ms ih =>
      have hm := h m List.mem_cons_self
      have hms := ih fun k hk => h k (List.mem_cons_of_mem m hk)
      cases ms with
      | nil =>
          rw [List.map_cons, List.map_nil, compactMembers.eq_2, List.mem_append, List.mem_cons]
          rintro (h | h | h)
          · exact newline_not_mem_quoted m.1 h
          · exact absurd h (by decide)
          · exact hm h
      | cons k ks =>
          have hks : (k :: ks).map (fun m => (some m.1, m.2)) ≠ [] := nofun
          rw [List.map_cons, compactMembers.eq_3 _ _ _ hks, List.mem_append, List.mem_cons,
            List.mem_append, List.mem_cons]
          rintro (h | h | h | h | h)
          · exact newline_not_mem_quoted m.1 h
          · exact absurd h (by decide)
          · exact hm h
          · exact absurd h (by decide)
          · exact hms h

/-- The compact text of a plain value is one line. -/
theorem newline_not_mem_compactChars {j : Json} (h : Plain j) :
  '\n' ∉ j.compactChars
  := by
  induction h with
  | null => exact of_decide_eq_true rfl
  | bool b => cases b <;> exact of_decide_eq_true rfl
  | int i => exact newline_not_mem_ofInt i
  | text s => exact newline_not_mem_quoted s
  | arr _ ih =>
      rw [compactChars.eq_1, List.mem_cons, List.mem_append, List.mem_singleton]
      rintro (h | h | h)
      · exact absurd h (by decide)
      · exact newline_not_mem_compactItems ih h
      · exact absurd h (by decide)
  | object _ ih =>
      rw [object, compactChars.eq_2, List.mem_cons, List.mem_append, List.mem_singleton]
      rintro (h | h | h)
      · exact absurd h (by decide)
      · exact newline_not_mem_compactMembers ih h
      · exact absurd h (by decide)

end Json

end ChainLedger
