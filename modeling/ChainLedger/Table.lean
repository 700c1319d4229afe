/-!
# Tables

A table is a finite map kept as a list of entries whose keys ascend strictly.
Looking up after `insert` and `erase` is given by one equation each, and two
tables with the same look-ups are equal (`Table.ext`).
-/

namespace ChainLedger

open Std

/-- A finite map from `κ` to `α`, its entries in strictly ascending key order. -/
structure Table (κ α : Type) [Ord κ] where
  /-- The keys with their values. -/
  entries : List (κ × α)
  /-- Every key comes before all later ones. -/
  ascending : entries.Pairwise fun a b => compare a.1 b.1 = .lt

namespace Table

variable {κ α : Type} [Ord κ]

instance [DecidableEq κ] [DecidableEq α] : DecidableEq (Table κ α) := fun a b =>
  decidable_of_iff (a.entries = b.entries) (by cases a; cases b; simp)

/-- The table without entries. -/
def empty : Table κ α := ⟨[], .nil⟩

instance : Inhabited (Table κ α) := ⟨empty⟩

/-- The keys, ascending. -/
def keys (t : Table κ α) : List κ := t.entries.map (·.1)

/-- The values, in the order of their keys. -/
def values (t : Table κ α) : List α := t.entries.map (·.2)

/-- The table of the entries that `p` accepts. -/
def filter (p : κ → α → Bool) (t : Table κ α) : Table κ α :=
  ⟨t.entries.filter fun e => p e.1 e.2, t.ascending.filter _⟩

/-- An ascending list of entries with the key's value set. -/
def place (k : κ) (a : α) : List (κ × α) → List (κ × α)
  | [] => [(k, a)]
  | (k', a') :: rest =>
    match compare k k' with
    | .lt => (k, a) :: (k', a') :: rest
    | .eq => (k, a) :: rest
    | .gt => (k', a') :: place k a rest

theorem mem_place {k : κ} {a : α} {l : List (κ × α)} {e : κ × α} (h : e ∈ place k a l) :
  e = (k, a) ∨ e ∈ l
  := by
  induction l with
  | nil => simpa [place] using h
  | cons hd tl ih =>
      obtain ⟨k', a'⟩ := hd
      rw [place] at h
      split at h <;> simp only [List.mem_cons] at h ⊢
      · exact h
      · exact h.imp_right .inr
      · rcases h with h | h
        · exact .inr (.inl h)
        · exact (ih h).imp_right .inr

theorem ascending_place [TransOrd κ] [LawfulEqOrd κ] (k : κ) (a : α) {l : List (κ × α)}
    (h : l.Pairwise fun a b => compare a.1 b.1 = .lt) :
  (place k a l).Pairwise fun a b => compare a.1 b.1 = .lt
  := by
  induction l with
  | nil => simp [place]
  | cons hd tl ih =>
      obtain ⟨k', a'⟩ := hd
      obtain ⟨hlt, htl⟩ := List.pairwise_cons.mp h
      rw [place]
      split
      · next hk =>
          refine List.pairwise_cons.mpr ⟨fun e he => ?_, h⟩
          rcases List.mem_cons.mp he with rfl | he
          · exact hk
          · exact TransCmp.lt_trans hk (hlt e he)
      · next hk =>
          obtain rfl := LawfulEqOrd.eq_of_compare hk
          exact List.pairwise_cons.mpr ⟨hlt, htl⟩
      · next hk =>
          refine List.pairwise_cons.mpr ⟨fun e he => ?_, ih htl⟩
          rcases mem_place he with rfl | he
          · exact OrientedCmp.lt_of_gt hk
          · exact hlt e he

/-- The table with the key's value set. -/
def insert [TransOrd κ] [LawfulEqOrd κ] (t : Table κ α) (k : κ) (a : α) : Table κ α :=
  ⟨place k a t.entries, ascending_place k a t.ascending⟩

/-- The table of the pairs, a later pair winning over an earlier one of its key. -/
def ofList [TransOrd κ] [LawfulEqOrd κ] (l : List (κ × α)) : Table κ α :=
  l.foldl (fun t e => t.insert e.1 e.2) empty

variable [DecidableEq κ]

/-- The value that a list of entries gives to a key. -/
def lookup (k : κ) : List (κ × α) → Option α
  | [] => none
  | (k', a) :: rest => if k = k' then some a else lookup k rest

/-- The value of a key. -/
def get? (t : Table κ α) (k : κ) : Option α := lookup k t.entries

/-- Whether the table has the key. -/
def contains (t : Table κ α) (k : κ) : Bool := (t.get? k).isSome

/-- The table without the key. -/
def erase (t : Table κ α) (k : κ) : Table κ α := t.filter fun k' _ => k ≠ k'

@[simp]
theorem get?_empty (k : κ) :
  (empty : Table κ α).get? k = none
  := rfl

omit [Ord κ] in
theorem lookup_filter (p : κ → Bool) (k : κ) (l : List (κ × α)) :
  lookup k (l.filter fun e => p e.1) = if p k then lookup k l else none
  := by
  induction l with
  | nil => simp [lookup]
  | cons hd tl ih =>
      obtain ⟨c, b⟩ := hd
      by_cases hk : k = c
      · subst hk; cases hp : p k <;> simp [lookup, hp, ih]
      · cases hp : p c <;> simp [lookup, hp, hk, ih]

@[simp]
theorem get?_erase (t : Table κ α) (k k' : κ) :
  (t.erase k).get? k' = if k = k' then none else t.get? k'
  := by
  have h := lookup_filter (fun c => decide (k ≠ c)) k' t.entries
  by_cases hk : k = k' <;> simpa [erase, filter, get?, hk] using h

/-- A value is found exactly under the keys it is entered with. -/
theorem lookup_eq_some_iff [LawfulEqOrd κ] {l : List (κ × α)} {k : κ} {a : α}
    (h : l.Pairwise fun a b => compare a.1 b.1 = .lt) :
  lookup k l = some a ↔ (k, a) ∈ l
  := by
  induction l with
  | nil => simp [lookup]
  | cons hd tl ih =>
      obtain ⟨c, b⟩ := hd
      obtain ⟨hlt, htl⟩ := List.pairwise_cons.mp h
      by_cases hk : k = c
      · subst hk
        have hno : (k, a) ∉ tl := fun e => by
          have := hlt _ e
          simp at this
        simp [lookup, hno, eq_comm]
      · simp [lookup, hk, ih htl]

theorem get?_eq_some_iff [LawfulEqOrd κ] {t : Table κ α} {k : κ} {a : α} :
  t.get? k = some a ↔ (k, a) ∈ t.entries
  := lookup_eq_some_iff t.ascending

variable [TransOrd κ] [LawfulEqOrd κ]

omit [TransOrd κ] in
theorem lookup_place (k k' : κ) (a : α) (l : List (κ × α)) :
  lookup k' (place k a l) = if k' = k then some a else lookup k' l
  := by
  induction l with
  | nil => simp [place, lookup]
  | cons hd tl ih =>
      obtain ⟨c, b⟩ := hd
      rw [place]
      split
      · simp [lookup]
      · next hk =>
          obtain rfl := LawfulEqOrd.eq_of_compare hk
          by_cases h : k' = k <;> simp [lookup, h]
      · next hk =>
          have hkc : k ≠ c := by rintro rfl; simp at hk
          by_cases h : k' = k
          · subst h; simp [lookup, ih, hkc]
          · simp [lookup, ih, h]

@[simp]
theorem get?_insert (t : Table κ α) (k k' : κ) (a : α) :
  (t.insert k a).get? k' = if k' = k then some a else t.get? k'
  := lookup_place k k' a t.entries

omit [DecidableEq κ] in
theorem entries_ext {l l' : List (κ × α)}
    (h : l.Pairwise fun a b => compare a.1 b.1 = .lt)
    (h' : l'.Pairwise fun a b => compare a.1 b.1 = .lt)
    (heq : ∀ e, e ∈ l ↔ e ∈ l') :
  l = l'
  := by
  have irrefl (x : κ) : compare x x ≠ .lt := by simp
  induction l generalizing l' with
  | nil =>
      cases l' with
      | nil => rfl
      | cons hd tl => exact absurd ((heq hd).mpr (.head _)) (by simp)
  | cons hd tl ih =>
      cases l' with
      | nil => exact absurd ((heq hd).mp (.head _)) (by simp)
      | cons hd' tl' =>
          obtain ⟨hlt, htl⟩ := List.pairwise_cons.mp h
          obtain ⟨hlt', htl'⟩ := List.pairwise_cons.mp h'
          have hhd : hd = hd' := by
            rcases List.mem_cons.mp ((heq hd).mp (.head _)) with e | e
            · exact e
            · rcases List.mem_cons.mp ((heq hd').mpr (.head _)) with e' | e'
              · exact e'.symm
              · exact absurd (TransCmp.lt_trans (hlt' _ e) (hlt _ e')) (irrefl _)
          subst hhd
          congr 1
          refine ih htl htl' fun e => ⟨fun he => ?_, fun he => ?_⟩
          · rcases List.mem_cons.mp ((heq e).mp (.tail _ he)) with rfl | e'
            · exact absurd (hlt _ he) (irrefl _)
            · exact e'
          · rcases List.mem_cons.mp ((heq e).mpr (.tail _ he)) with rfl | e'
            · exact absurd (hlt' _ he) (irrefl _)
            · exact e'

/-- Tables with the same look-ups are equal. -/
theorem ext {t t' : Table κ α} (h : ∀ k, t.get? k = t'.get? k) :
  t = t'
  := by
  obtain ⟨l, hl⟩ := t
  obtain ⟨l', hl'⟩ := t'
  congr
  refine entries_ext hl hl' fun ⟨k, a⟩ => ?_
  rw [← lookup_eq_some_iff hl, ← lookup_eq_some_iff hl']
  exact Iff.of_eq (congrArg (· = some a) (h k))

end Table

end ChainLedger
