import ChainLedger.Proofs.JsonText
import ChainLedger.Replay

/-!
# Reading back records

A record is read back from the text that it is written as, whatever it carries and whatever the
name of its topic, so that different records have different texts.  The text of a record is one
line, and a list of records is read back from its lines.
-/

namespace ChainLedger

namespace Json

/-! ### Columns -/

/-- Among members of different names, only one has the name of a member. -/
theorem filter_object {ms : List (String × Json)} (hnames : (ms.map (·.1)).Nodup)
    {m : String × Json} (hm : m ∈ ms) :
  (ms.map fun m => (some m.1, m.2)).filter (fun x => x.1 = some m.1) = [(some m.1, m.2)]
  := by
  induction ms with
  | nil => exact absurd hm List.not_mem_nil
  | cons m' ms ih =>
      rw [List.map_cons, List.nodup_cons] at hnames
      rw [List.map_cons]
      rcases List.mem_cons.mp hm with rfl | hm
      · have hnone : (ms.map fun m => (some m.1, m.2)).filter (fun x => x.1 = some m.1) = [] := by
          refine List.filter_eq_nil_iff.mpr fun x hx heq => hnames.1 ?_
          obtain ⟨m', hm', rfl⟩ := List.mem_map.1 hx
          rw [← Option.some.inj (of_decide_eq_true heq)]
          exact List.mem_map_of_mem hm'
        rw [List.filter_cons, hnone, if_pos (decide_eq_true rfl)]
      · have hne : ¬ some m'.1 = some m.1 :=
          fun heq => hnames.1 (Option.some.inj heq ▸ List.mem_map_of_mem hm)
        rw [List.filter_cons_of_neg (by rwa [decide_eq_true_eq]), ih hnames.2 hm]

/-- The columns of an object whose members have the names of the columns are its values. -/
theorem columns?_object {names : List String} {ms : List (String × Json)}
    (hms : ms.map (·.1) = names) (hnames : names.Nodup) :
  (object ms).columns? names = some (ms.map fun m => some m.2)
  := by
  subst hms
  have hsome : (ms.map fun m => (some m.1, m.2)).all (fun m => m.1.isSome) = true := by
    rw [List.all_map]
    exact List.all_eq_true.2 fun _ _ => rfl
  have honce : (ms.map (·.1)).all (fun name =>
      ((ms.map fun m => (some m.1, m.2)).filter fun m => m.1 = some name).length ≤ 1) = true := by
    rw [List.all_map]
    refine List.all_eq_true.2 fun m hm => decide_eq_true ?_
    exact Nat.le_of_eq (congrArg List.length (filter_object hnames hm))
  have hfind : ∀ m ∈ ms,
      ((ms.map fun m => (some m.1, m.2)).find? fun x => x.1 = some m.1).map (·.2) = some m.2 := by
    intro m hm
    rw [← List.head?_filter, filter_object hnames hm]
    rfl
  rw [object, columns?, if_pos ⟨hsome, honce⟩, List.map_map]
  exact congrArg some (List.map_congr_left hfind)

/-! ### Values of columns -/

theorem word?_ofWord {n : Nat} (w : Word n) :
  (ofWord w).word? n = some w
  := by
  rw [word?, ofWord, text, text?, Option.bind_eq_bind, Option.bind_some, Word.parse?, Word.render,
    String.toList_ofList, Word.ofDigits?_digits]

theorem optionalWord?_orNull {n : Nat} (w? : Option (Word n)) :
  optionalWord? n (some (orNull (w?.map ofWord))) = some w?
  := by
  cases w? with
  | none => rfl
  | some w =>
      change ((ofWord w).word? n).map some = some (some w)
      rw [word?_ofWord, Option.map_some]

theorem amount?_ofAmount {n : Nat} (h : FitsUnsigned 128 n) :
  (ofAmount n).amount? = some n
  := by
  rw [amount?, ofAmount, text, text?, Option.bind_eq_bind, Option.bind_some,
    Decimal.unsigned?_ofNat h]

theorem unsigned?_nat {bits n : Nat} (h : FitsUnsigned bits n) :
  (nat n).unsigned? bits = some n
  := if_pos h

end Json

open Json

/-! ### Records -/

theorem Block.ofJson?_toJson {b : Block} (h : (Payload.block b).Fits) :
  ofJson? b.toJson = some b
  := by
  obtain ⟨hnumber, hreward, huncles, hfees, hcount, htime⟩ := h
  have hcolumns : b.toJson.columns? columns = some _ := columns?_object rfl (by decide)
  rw [ofJson?, hcolumns]
  simp only [Option.bind_eq_bind, Option.bind_some, List.map_cons, List.map_nil, word?_ofWord,
    amount?_ofAmount hreward, amount?_ofAmount huncles, amount?_ofAmount hfees,
    unsigned?_nat hnumber, unsigned?_nat hcount, unsigned?_nat htime]
  rfl

theorem Uncle.ofJson?_toJson {u : Uncle} (h : (Payload.uncle u).Fits) :
  ofJson? u.toJson = some u
  := by
  obtain ⟨hindex, hnumber, hincluded, hreward, htime⟩ := h
  have hcolumns : u.toJson.columns? columns = some _ := columns?_object rfl (by decide)
  rw [ofJson?, hcolumns]
  simp only [Option.bind_eq_bind, Option.bind_some, List.map_cons, List.map_nil, word?_ofWord,
    amount?_ofAmount hreward, unsigned?_nat hindex, unsigned?_nat hnumber,
    unsigned?_nat hincluded, unsigned?_nat htime]
  rfl

theorem Transaction.ofJson?_toJson {t : Transaction} (h : (Payload.transaction t).Fits) :
  ofJson? t.toJson = some t
  := by
  obtain ⟨hnumber, hvalue, hfee, htime⟩ := h
  have hcolumns : t.toJson.columns? columns = some _ := columns?_object rfl (by decide)
  rw [ofJson?, hcolumns]
  simp only [Option.bind_eq_bind, Option.bind_some, List.map_cons, List.map_nil, word?_ofWord,
    optionalWord?_orNull, amount?_ofAmount hvalue, amount?_ofAmount hfee, unsigned?_nat hnumber,
    unsigned?_nat htime]
  rfl

theorem Payload.ofJson?_toJson {p : Payload} (h : p.Fits) :
  ofJson? p.toJson = some p
  := by
  have htagged : p.toJson.tagged? = some (text p.typeName, p.data) := rfl
  have hname : (text p.typeName).name? = some p.typeName := rfl
  simp only [ofJson?, htagged, Option.bind_eq_bind, Option.bind_some, hname]
  cases p with
  | block b =>
      rw [typeName, if_pos rfl, data, Block.ofJson?_toJson h, Option.map_some]
  | uncle u =>
      rw [typeName, if_neg (by decide), if_pos rfl, data, Uncle.ofJson?_toJson h, Option.map_some]
  | transaction t =>
      rw [typeName, if_neg (by decide), if_neg (by decide), if_pos rfl, data,
        Transaction.ofJson?_toJson h, Option.map_some]

theorem Record.ofJson?_toJson {r : Record} (h : r.Fits) :
  ofJson? r.toJson = some r
  := by
  obtain ⟨hpayload, hnumber, hoffset⟩ := h
  have hcolumns : r.toJson.columns? columns = some _ := columns?_object rfl (by decide)
  rw [ofJson?, hcolumns]
  simp only [Option.bind_eq_bind, Option.bind_some, List.map_cons, List.map_nil, Json.text, name?,
    text?, Kind.ofName_name, Payload.ofJson?_toJson hpayload, unsigned?_nat hnumber,
    unsigned?_nat hoffset]
  rfl

/-! ### Texts of records -/

/-- An optional word is written as a text or as null. -/
theorem plain_optionalWord {n : Nat} (w? : Option (Word n)) :
  Plain (orNull (w?.map ofWord))
  := by
  cases w? with
  | none => exact .null
  | some w => exact .text _

theorem Payload.plain_data (p : Payload) :
  Plain p.data
  := by
  cases p with
  | block b =>
      refine .object ?_
      simp only [List.forall_mem_cons]
      exact ⟨.int _, .text _, .text _, .text _, .text _, .text _, .int _, .int _, nofun⟩
  | uncle u =>
      refine .object ?_
      simp only [List.forall_mem_cons]
      exact ⟨.text _, .int _, .int _, .int _, .text _, .text _, .int _, nofun⟩
  | transaction t =>
      refine .object ?_
      simp only [List.forall_mem_cons]
      exact ⟨.text _, .text _, .int _, .text _, plain_optionalWord _, plain_optionalWord _,
        .text _, .text _, .int _, nofun⟩

/-- A record is written with null, whole numbers and texts only. -/
theorem Record.plain_toJson (r : Record) :
  Plain r.toJson
  := by
  have hpayload : Plain r.payload.toJson := by
    refine .object ?_
    simp only [List.forall_mem_cons]
    exact ⟨.text _, r.payload.plain_data, nofun⟩
  refine .object ?_
  simp only [List.forall_mem_cons]
  exact ⟨.text _, hpayload, .text _, .int _, .int _, nofun⟩

namespace Replay

/-- A line ends at the first new line. -/
theorem lines_append {line rest : List Char} (h : '\n' ∉ line) :
  lines (line ++ '\n' :: rest) = line :: lines rest
  := by
  induction line with
  | nil => rfl
  | cons c line ih =>
      have hc : ¬ c = '\n' := fun heq => h (heq ▸ List.mem_cons_self)
      rw [List.cons_append, lines, if_neg hc, ih fun hmem => h (List.mem_cons_of_mem c hmem)]

/-- A record is read back from the line that it is written as. -/
theorem record?_compactChars {r : Record} (h : r.Fits) :
  record? r.toJson.compactChars = some r
  := by
  rw [record?, ofChars?_compactChars r.plain_toJson, Option.bind_some, Record.ofJson?_toJson h]

/-- The record of the first line is the first record. -/
theorem records_cons {r : Record} (h : r.Fits) (n : Nat) (rest : List Char) :
  records n (lines (r.toJson.compactChars ++ '\n' :: rest))
    = (records (n + 1) (lines rest)).map (r :: ·)
  := by
  have hblank : r.toJson.compactChars.all Text.isBlank = false := rfl
  rw [lines_append (newline_not_mem_compactChars r.plain_toJson), records, hblank,
    if_neg Bool.false_ne_true, record?_compactChars h]

end Replay

/-- Reading the text of a record gives the record back, so that no other record has this text; and
where the text stands in a line of its own, the replay of a file reads the record there, and goes
on with the next line. -/
theorem Record.read_back {r : Record} (h : r.Fits) :
  (Json.parse? r.toJson.compact).bind ofJson? = some r ∧
    (∀ r' : Record, r'.Fits → r'.toJson.compact = r.toJson.compact → r' = r) ∧
    ∀ n rest, Replay.records n (Replay.lines (r.toJson.compact.toList ++ '\n' :: rest))
      = (Replay.records (n + 1) (Replay.lines rest)).map (r :: ·)
  := by
  have hread : ∀ {r : Record}, r.Fits → (Json.parse? r.toJson.compact).bind ofJson? = some r :=
    fun {r} h => by rw [parse?_compact r.plain_toJson, Option.bind_some, ofJson?_toJson h]
  refine ⟨hread h, fun r' h' heq => ?_, fun n rest => ?_⟩
  · have hsame := hread h'
    rw [heq, hread h] at hsame
    exact (Option.some.inj hsame).symm
  · rw [Json.compact, String.toList_ofList]
    exact Replay.records_cons h n rest

/-- A record with a tag that is not known, the greatest numbers, and a topic that needs escapes. -/
def Record.outlandish : Record where
  kind := .unknown
  payload := .transaction {
    hash := default
    blockHash := default
    blockNumber := 18446744073709551615
    sender := default
    recipient := none
    created := some default
    value := 340282366920938463463374607431768211455
    fee := 0
    time := 0 }
  partition := ⟨"a \"b\" \\ \n \x01 é", 4294967295⟩
  offset := 18446744073709551615

/-- Escapes, absent addresses and the greatest numbers are read back. -/
theorem Record.outlandish_read_back :
  outlandish.Fits ∧ (Json.parse? outlandish.toJson.compact).bind ofJson? = some outlandish ∧
    ({ outlandish with kind := .pooled } : Record).toJson.compact ≠ outlandish.toJson.compact ∧
    Replay.records 1 (Replay.lines (outlandish.toJson.compact.toList ++ '\n' :: []))
      = .ok [outlandish]
  := by
  have hfits : outlandish.Fits := by decide
  obtain ⟨hread, hother, hline⟩ := read_back hfits
  have hkind : ({ outlandish with kind := .pooled } : Record) ≠ outlandish :=
    fun heq => absurd (congrArg Record.kind heq) (by decide)
  have hend : Replay.records 2 (Replay.lines []) = .ok [] := rfl
  refine ⟨hfits, hread, fun heq => hkind (hother _ hfits heq), ?_⟩
  rw [hline 1 [], hend, Except.map]

end ChainLedger
