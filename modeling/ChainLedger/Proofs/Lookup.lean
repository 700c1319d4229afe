import Mathlib.Data.List.Nodup
import ChainLedger.Delta
import ChainLedger.Store.Memory

/-!
# Look-ups in tables

What a table holds is said through its look-ups: which keys and values it has, what
a table of pairs answers, and what the store selects.  The table restricted to one
key shows that key and nothing else.
-/

namespace ChainLedger

open Std

namespace Table

variable {κ α : Type} [Ord κ] [TransOrd κ] [LawfulEqOrd κ] [DecidableEq κ]

omit [TransOrd κ] in
theorem mem_keys_iff {t : Table κ α} {k : κ} :
  k ∈ t.keys ↔ ∃ a, t.get? k = some a
  := by
  simp [keys, get?_eq_some_iff]

omit [TransOrd κ] in
theorem mem_values_iff {t : Table κ α} {a : α} :
  a ∈ t.values ↔ ∃ k, t.get? k = some a
  := by
  simp [values, get?_eq_some_iff]

omit [TransOrd κ] [DecidableEq κ] in
theorem nodup_keys (t : Table κ α) :
  t.keys.Nodup
  := by
  apply List.pairwise_map.mpr
  apply t.ascending.imp
  intro e e' hlt heq
  rw [heq] at hlt
  simp at hlt

/-- Setting the value of a key that is there leaves the keys as they are. -/
theorem keys_insert_of_mem {t : Table κ α} {k : κ} (h : k ∈ t.keys) (a : α) :
  (t.insert k a).keys.Perm t.keys
  := by
  apply (List.perm_ext_iff_of_nodup (nodup_keys _) (nodup_keys _)).mpr
  intro k'
  rw [mem_keys_iff, get?_insert]
  split
  · next hk => simp [hk, h]
  · rw [mem_keys_iff]

/-- Setting the value of a key that is not there adds the key. -/
theorem keys_insert_of_not_mem {t : Table κ α} {k : κ} (h : k ∉ t.keys) (a : α) :
  (t.insert k a).keys.Perm (k :: t.keys)
  := by
  apply (List.perm_ext_iff_of_nodup (nodup_keys _)
    (List.nodup_cons.mpr ⟨h, nodup_keys _⟩)).mpr
  intro k'
  rw [mem_keys_iff, get?_insert]
  split
  · next hk => simp [hk]
  · next hk => simp [hk, mem_keys_iff]

/-- Pairs that agree on their keys give each of these keys its one value. -/
theorem get?_ofList {f : κ → Option α} {l : List (κ × α)} (hf : ∀ e ∈ l, f e.1 = some e.2)
    (k : κ) :
  (ofList l).get? k = if k ∈ l.map (·.1) then f k else none
  := by
  have general : ∀ t : Table κ α, (l.foldl (fun t e => t.insert e.1 e.2) t).get? k
      = if k ∈ l.map (·.1) then f k else t.get? k := by
    induction l with
    | nil => simp
    | cons e l ih =>
        intro t
        rw [List.foldl_cons, ih fun e' he' => hf e' (.tail _ he'), get?_insert]
        by_cases hk : k = e.1
        · simp [hk, hf e (.head _)]
        · simp only [List.map_cons, List.mem_cons, hk, false_or, if_false]
  apply general

/-- The table restricted to one key. -/
def only (t : Table κ α) (k : κ) : Table κ α := t.filter fun k' _ => k' = k

omit [TransOrd κ] [LawfulEqOrd κ] in
@[simp]
theorem get?_only (t : Table κ α) (k k' : κ) :
  (t.only k).get? k' = if k' = k then t.get? k' else none
  := by
  have h := lookup_filter (fun c => decide (c = k)) k' t.entries
  simpa [only, filter, get?] using h

theorem only_congr {t t' : Table κ α} {k : κ} (h : t'.get? k = t.get? k) :
  t'.only k = t.only k
  := by
  apply ext
  intro k'
  rw [get?_only, get?_only]
  split
  · next hk => rw [hk, h]
  · rfl

end Table

/-- The keys of a list of deltas are the addresses that they change. -/
theorem Delta.mem_keys_iff {ds : List Delta} {key : Address} :
  key ∈ Delta.keys ds ↔ ∃ d ∈ ds, d.key = key
  := by
  rw [Delta.keys, Table.mem_keys_iff]
  simp only [Table.get?_ofList (f := fun _ => some ()) (by simp)]
  simp

theorem Delta.nodup_keys (ds : List Delta) :
  (Delta.keys ds).Nodup
  := Table.nodup_keys _

/-- The store selects the rows of the addresses asked for. -/
theorem MemoryStore.mem_selected {s : MemoryStore} {keys : List Address} {e : Address × Row} :
  e ∈ keys.filterMap (fun key => (s.rows.get? key).map fun row => (key, row))
    ↔ e.1 ∈ keys ∧ s.rows.get? e.1 = some e.2
  := by
  simp only [List.mem_filterMap, Option.map_eq_some_iff]
  constructor
  · rintro ⟨key, hkey, row, hrow, rfl⟩
    exact ⟨hkey, hrow⟩
  · rintro ⟨hkey, hrow⟩
    exact ⟨e.1, hkey, e.2, hrow, rfl⟩

/-- A row selected is the store's row, and an address not asked for has none. -/
theorem MemoryStore.get?_select (s : MemoryStore) (keys : List Address) (key : Address) :
  (s.select keys).get? key = if key ∈ keys then s.rows.get? key else none
  := by
  rw [MemoryStore.select, Table.get?_ofList fun e he => (mem_selected.mp he).2]
  cases hrow : s.rows.get? key with
  | none => simp
  | some row =>
      congr 1
      apply propext
      simp only [List.mem_map, mem_selected]
      constructor
      · rintro ⟨e, ⟨hmem, -⟩, rfl⟩
        exact hmem
      · intro hmem
        exact ⟨(key, row), ⟨hmem, hrow⟩, rfl⟩

end ChainLedger
