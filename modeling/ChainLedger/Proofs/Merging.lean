import ChainLedger.Merge
import ChainLedger.Proofs.Lookup
import ChainLedger.Proofs.Sum

/-!
# What merging gives

The deltas of one address and one partition merge into their whole: the sum of
their changes at their highest offset and latest time.  A merged batch holds, for
every address, the whole of the deltas that its row does not count, unless there
are none or they would make a row of zeros.
-/

namespace ChainLedger

/-! ### The greatest of some numbers -/

/-- The greatest number of a list, zero if the list is empty. -/
def greatest (l : List Nat) : Nat := l.foldr max 0

@[simp]
theorem greatest_cons (n : Nat) (l : List Nat) :
  greatest (n :: l) = max n (greatest l)
  := rfl

theorem le_greatest {n : Nat} {l : List Nat} (h : n ∈ l) :
  n ≤ greatest l
  := by
  induction l with
  | nil => simp at h
  | cons m l ih =>
      rw [greatest_cons]
      rcases List.mem_cons.mp h with rfl | h
      · apply Nat.le_max_left
      · apply Nat.le_trans (ih h) (Nat.le_max_right ..)

theorem greatest_mem {l : List Nat} (h : l ≠ []) :
  greatest l ∈ l
  := by
  induction l with
  | nil => exact absurd rfl h
  | cons m l ih =>
      rw [greatest_cons]
      cases l with
      | nil => simp [greatest]
      | cons n l =>
          rcases Nat.le_total m (greatest (n :: l)) with hle | hle
          · rw [Nat.max_eq_right hle]
            apply List.mem_cons_of_mem _ (ih (by simp))
          · rw [Nat.max_eq_left hle]
            apply List.mem_cons_self

namespace Merge

/-! ### One address -/

/-- The delta that stands for deltas of one address and one partition: the sum of their
changes, at the highest of their offsets and the latest of their times. -/
def whole (key : Address) (p : Partition) (ds : List Delta) : Delta where
  key := key
  change := (ds.map (·.change)).sum
  source := ⟨p, greatest (ds.map (·.source.offset))⟩
  time := greatest (ds.map (·.time))

theorem latest_eq {p : Partition} {q : Position} {ds : List Delta} (hq : q.partition = p)
    (hds : ∀ d ∈ ds, d.source.partition = p) :
  latest q ds = ⟨p, max q.offset (greatest (ds.map (·.source.offset)))⟩
  := by
  induction ds generalizing q with
  | nil => simp [latest, greatest, ← hq]
  | cons d ds ih =>
      have hrest : ∀ d' ∈ ds, d'.source.partition = p := fun d' hd' => hds d' (.tail _ hd')
      rw [latest, List.foldl_cons]
      change latest (if q.offset ≤ d.source.offset then d.source else q) ds = _
      rw [List.map_cons, greatest_cons, ← Nat.max_assoc]
      split
      · next hle => rw [ih (hds d (.head _)) hrest, Nat.max_eq_right hle]
      · next hlt => rw [ih hq hrest, Nat.max_eq_left (Nat.le_of_lt (Nat.lt_of_not_le hlt))]

theorem foldl_max_time (t : Nat) (ds : List Delta) :
  ds.foldl (fun t d => max t d.time) t = max t (greatest (ds.map (·.time)))
  := by
  induction ds generalizing t with
  | nil => simp [greatest]
  | cons d ds ih => rw [List.foldl_cons, ih, List.map_cons, greatest_cons, Nat.max_assoc]

/-- Nothing is to be applied: no delta is pending, or the sum is zero and there is no
row. -/
def Idle (row? : Option Row) (ds : List Delta) : Prop :=
  ds = [] ∨ row? = none ∧ (ds.map (·.change)).sum = 0

instance (row? : Option Row) (ds : List Delta) : Decidable (Idle row? ds) :=
  inferInstanceAs (Decidable (_ ∨ _))

/-- Deltas of one partition merge into the whole of the pending ones, exactly if their
sum does not overflow on the way. -/
theorem ofKey_eq_ok_iff {key : Address} {p : Partition} {row? : Option Row} {ds : List Delta}
    {o : Option Delta} (hp : ∀ d ∈ ds, d.source.partition = p) :
  ofKey key row? ds = .ok o
    ↔ Totals.Summable ((pending row? ds).map (·.change))
      ∧ o = if Idle row? (pending row? ds) then none else some (whole key p (pending row? ds))
  := by
  have hpending : ∀ d ∈ pending row? ds, d.source.partition = p :=
    fun d hd => hp d (List.mem_filter.mp hd).1
  rw [ofKey]
  generalize pending row? ds = ps at hpending ⊢
  cases ps with
  | nil =>
      simp [Idle, Totals.summable_nil, eq_comm]
  | cons d rest =>
      have hsource : latest d.source rest = (whole key p (d :: rest)).source := by
        rw [latest_eq (hpending d (.head _)) fun d' hd' => hpending d' (.tail _ hd')]
        rfl
      have htime : rest.foldl (fun t d => max t d.time) d.time
          = (whole key p (d :: rest)).time := foldl_max_time d.time rest
      dsimp only
      rw [hsource, htime]
      cases hsum : Totals.sum? ((d :: rest).map (·.change)) with
      | error e =>
          constructor
          · intro h
            cases h
          · rintro ⟨hfits, -⟩
            rw [Totals.sum?_eq_ok_iff.mpr ⟨hfits, rfl⟩] at hsum
            cases hsum
      | ok c =>
          obtain ⟨hfits, rfl⟩ := Totals.sum?_eq_ok_iff.mp hsum
          have hnoop : (whole key p (d :: rest)).isNoop = true ∧ row?.isNone = true
              ↔ Idle row? (d :: rest) := by
            simp [Delta.isNoop, Totals.isZero_iff, whole, Idle, and_comm]
          simp only [hfits, true_and]
          rw [← if_congr hnoop rfl rfl]
          change (Except.ok _ = Except.ok o) ↔ _
          rw [Except.ok.injEq, eq_comm]
          rfl

/-! ### A batch -/

/-- Merging some addresses into a table that has none of them enters what the deltas of
each merge into, and nothing else. -/
theorem get?_collect {rows : Table Address Row} {ds : List Delta} {keys : List Address}
    {merged merged' : Table Address Delta} (h : collect rows ds keys merged = .ok merged')
    (hnodup : keys.Nodup) (hnew : ∀ key ∈ keys, merged.get? key = none) (key : Address) :
  (key ∈ keys → ofKey key (rows.get? key) (ds.filter (·.key = key)) = .ok (merged'.get? key)) ∧
    (key ∉ keys → merged'.get? key = merged.get? key)
  := by
  induction keys generalizing merged with
  | nil =>
      cases h
      simp
  | cons k keys ih =>
      obtain ⟨hk, hnodup⟩ := List.nodup_cons.mp hnodup
      rw [collect] at h
      cases hmerge : ofKey k (rows.get? k) (ds.filter (·.key = k)) with
      | error e =>
          rw [hmerge] at h
          cases h
      | ok o =>
          rw [hmerge] at h
          have step : ∀ m : Table Address Delta, m.get? k = o →
              (∀ key' ≠ k, m.get? key' = merged.get? key') → collect rows ds keys m = .ok merged' →
              (key ∈ k :: keys →
                ofKey key (rows.get? key) (ds.filter (·.key = key)) = .ok (merged'.get? key)) ∧
              (key ∉ k :: keys → merged'.get? key = merged.get? key) := by
            intro m hm hother hcollect
            have hnew' : ∀ key' ∈ keys, m.get? key' = none := by
              intro key' hmem
              rw [hother key' (by rintro rfl; exact hk hmem)]
              apply hnew key' (.tail _ hmem)
            obtain ⟨hin, hout⟩ := ih hcollect hnodup hnew'
            by_cases hkey : key = k
            · subst hkey
              rw [hout hk, hm, hmerge]
              simp
            · rw [← hother key hkey]
              simp only [List.mem_cons, hkey, false_or]
              exact ⟨hin, hout⟩
          cases o with
          | none => exact step merged (hnew k (.head _)) (fun _ _ => rfl) h
          | some d =>
              apply step (merged.insert k d) (by simp) _ h
              intro key' hkey'
              simp [hkey']

/-- For every address, a merged batch holds what the address's deltas merge into against
its row. -/
theorem ofKey_eq_get?_batch {rows : Table Address Row} {ds : List Delta}
    {merged : Table Address Delta} (h : batch rows ds = .ok merged) (key : Address) :
  ofKey key (rows.get? key) (ds.filter (·.key = key)) = .ok (merged.get? key)
  := by
  obtain ⟨hin, hout⟩ := get?_collect h (Delta.nodup_keys ds) (by simp) key
  by_cases hkey : key ∈ Delta.keys ds
  · exact hin hkey
  · have hnone : ds.filter (·.key = key) = [] := by
      apply List.filter_eq_nil_iff.mpr
      intro d hd hdkey
      apply hkey
      exact Delta.mem_keys_iff.mpr ⟨d, hd, by simpa using hdkey⟩
    rw [hout hkey, hnone, Table.get?_empty, ofKey]
    rfl

/-- A batch is merged if the deltas of none of its addresses overflow. -/
theorem exists_collect {rows : Table Address Row} {ds : List Delta} {keys : List Address}
    (h : ∀ key ∈ keys, ∃ o, ofKey key (rows.get? key) (ds.filter (·.key = key)) = .ok o)
    (merged : Table Address Delta) :
  ∃ merged', collect rows ds keys merged = .ok merged'
  := by
  induction keys generalizing merged with
  | nil => exact ⟨merged, rfl⟩
  | cons k keys ih =>
      obtain ⟨o, ho⟩ := h k (.head _)
      have hrest := ih fun key hkey => h key (.tail _ hkey)
      rw [collect, ho]
      cases o with
      | none => apply hrest
      | some d => apply hrest

end Merge

end ChainLedger
