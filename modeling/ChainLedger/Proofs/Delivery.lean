import ChainLedger.Batch
import ChainLedger.Proofs.Merging

/-!
# Deliveries

A batch is what some delivered records of one partition amount to: the same records
in ascending order, with the least and the greatest of their offsets.  Its deltas
carry the positions of its records.
-/

namespace ChainLedger

/-- A computation of two parts has a result if the first has one and the second goes on
to one. -/
theorem exists_of_bind_eq_ok {ε α β : Type} {x : Except ε α} {f : α → Except ε β} {b : β}
    (h : x >>= f = .ok b) :
  ∃ a, x = .ok a ∧ f a = .ok b
  := by
  cases x with
  | error e => cases h
  | ok a => exact ⟨a, rfl, h⟩

/-! ### Positions -/

/-- The deltas of a payload carry the position that it joins the chain at. -/
theorem Payload.source_of_mem_deltas {q : Payload} {p : Position} {ds : List Delta}
    (h : q.deltas p = .ok ds) {d : Delta} (hd : d ∈ ds) :
  d.source = p
  := by
  cases q with
  | block b =>
      obtain ⟨reward, -, h⟩ := exists_of_bind_eq_ok h
      obtain ⟨signed, -, h⟩ := exists_of_bind_eq_ok h
      cases h
      obtain rfl := List.mem_singleton.mp hd
      rfl
  | uncle u =>
      obtain ⟨signed, -, h⟩ := exists_of_bind_eq_ok h
      cases h
      obtain rfl := List.mem_singleton.mp hd
      rfl
  | transaction t =>
      obtain ⟨receiver, -, h⟩ := exists_of_bind_eq_ok h
      obtain ⟨value, -, h⟩ := exists_of_bind_eq_ok h
      obtain ⟨total, -, h⟩ := exists_of_bind_eq_ok h
      obtain ⟨spent, -, h⟩ := exists_of_bind_eq_ok h
      cases h
      rcases List.mem_cons.mp hd with rfl | hd
      · rfl
      · obtain rfl := List.mem_singleton.mp hd
        rfl

/-- A delta carries the position of the record that causes it. -/
theorem Record.source_of_mem_deltas {r : Record} {d : Delta} (h : d ∈ r.deltas) :
  d.source = r.position
  := by
  rw [deltas] at h
  cases heffect : r.effect with
  | error e =>
      rw [heffect] at h
      cases h
  | ok ds =>
      rw [heffect] at h
      rw [effect] at heffect
      cases hkind : r.kind with
      | added =>
          rw [hkind] at heffect
          apply Payload.source_of_mem_deltas heffect h
      | dropped =>
          rw [hkind] at heffect
          cases hpayload : r.payload.deltas r.position with
          | error e =>
              rw [hpayload] at heffect
              cases heffect
          | ok ds' =>
              rw [hpayload] at heffect
              cases heffect
              obtain ⟨d', hd', rfl⟩ := List.mem_map.mp h
              change d'.source = _
              apply Payload.source_of_mem_deltas hpayload hd'
      | pooled =>
          rw [hkind] at heffect
          cases heffect
          cases h
      | unknown =>
          rw [hkind] at heffect
          cases heffect
          cases h

/-! ### Batches -/

namespace Batch

/-- The batch is the one that the records amount to. -/
structure Collects (b : Batch) (rs : List Record) : Prop where
  /-- It has the records delivered. -/
  perm : b.records.Perm rs
  /-- Their offsets ascend. -/
  ascending : b.records.Pairwise fun r r' => r.offset ≤ r'.offset
  /-- They are all of one partition. -/
  partition : ∀ r ∈ rs, r.partition = b.bounds.partition
  /-- The first offset is the least. -/
  first : b.bounds.first ∈ rs.map (·.offset) ∧ ∀ r ∈ rs, b.bounds.first ≤ r.offset
  /-- The last offset is the greatest. -/
  last : b.bounds.last ∈ rs.map (·.offset) ∧ ∀ r ∈ rs, r.offset ≤ b.bounds.last
  /-- The records are counted. -/
  count : b.bounds.count = rs.length

/-- The records sorted as a batch sorts them. -/
theorem pairwise_sorted (rs : List Record) :
  (rs.mergeSort fun a b => a.offset ≤ b.offset).Pairwise fun r r' => r.offset ≤ r'.offset
  := by
  have h : (rs.mergeSort fun a b => a.offset ≤ b.offset).Pairwise
      fun a b => decide (a.offset ≤ b.offset) = true := by
    apply List.pairwise_mergeSort
    · simp only [decide_eq_true_eq]
      intro a b c hab hbc
      exact Nat.le_trans hab hbc
    · simp only [Bool.or_eq_true, decide_eq_true_eq]
      intro a b
      exact Nat.le_total a.offset b.offset
  simpa using h

/-- In an ascending list the last offset is the greatest. -/
theorem offset_le_last {r₀ : Record} {rest : List Record}
    (h : (r₀ :: rest).Pairwise fun r r' => r.offset ≤ r'.offset) {r : Record}
    (hr : r ∈ r₀ :: rest) :
  r.offset ≤ (rest.getLast?.getD r₀).offset
  := by
  induction rest generalizing r₀ r with
  | nil =>
      obtain rfl := List.mem_singleton.mp hr
      simp
  | cons r₁ rest ih =>
      obtain ⟨hle, htail⟩ := List.pairwise_cons.mp h
      have hlast : ((r₁ :: rest).getLast?.getD r₀) = (rest.getLast?.getD r₁) := by
        cases rest with
        | nil => rfl
        | cons r₂ rest => simp [List.getLast?_cons]
      rw [hlast]
      rcases List.mem_cons.mp hr with rfl | hr
      · apply Nat.le_trans (hle r₁ (.head _)) (ih htail (.head _))
      · exact ih htail hr

/-- Delivered records amount to at most one batch. -/
theorem collects_of_ofRecords {rs : List Record} {b : Batch} (h : ofRecords rs = .ok (some b)) :
  b.Collects rs
  := by
  have hperm := List.mergeSort_perm rs fun a b => decide (a.offset ≤ b.offset)
  have hascending := pairwise_sorted rs
  rw [ofRecords] at h
  generalize rs.mergeSort (fun a b => decide (a.offset ≤ b.offset)) = sorted
    at h hperm hascending
  cases sorted with
  | nil => cases h
  | cons r₀ rest =>
      dsimp only at h
      cases hother : rest.find? (·.partition ≠ r₀.partition) with
      | some other =>
          rw [hother] at h
          cases h
      | none =>
          rw [hother] at h
          cases h
          have hmem : ∀ r ∈ rs, r ∈ r₀ :: rest := fun r hr => hperm.mem_iff.mpr hr
          refine ⟨hperm, hascending, ?_, ⟨?_, ?_⟩, ⟨?_, ?_⟩, hperm.length_eq⟩
          · intro r hr
            rcases List.mem_cons.mp (hmem r hr) with rfl | hr
            · rfl
            · simpa using List.find?_eq_none.mp hother r hr
          · apply List.mem_map_of_mem (hperm.mem_iff.mp (.head _))
          · intro r hr
            rcases List.mem_cons.mp (hmem r hr) with rfl | hr
            · apply Nat.le_refl
            · exact (List.pairwise_cons.mp hascending).1 r hr
          · apply List.mem_map_of_mem (hperm.mem_iff.mp _)
            cases hlast : rest.getLast? with
            | none => exact .head _
            | some r => exact .tail _ (List.mem_of_getLast? hlast)
          · intro r hr
            exact offset_le_last hascending (hmem r hr)

/-- Some records of one partition amount to a batch. -/
theorem exists_ofRecords {rs : List Record} {p : Partition} (hne : rs ≠ [])
    (hp : ∀ r ∈ rs, r.partition = p) :
  ∃ b, ofRecords rs = .ok (some b)
  := by
  have hperm := List.mergeSort_perm rs fun a b => decide (a.offset ≤ b.offset)
  rw [ofRecords]
  generalize rs.mergeSort (fun a b => decide (a.offset ≤ b.offset)) = sorted at hperm
  cases sorted with
  | nil => exact absurd hperm.symm.eq_nil hne
  | cons r₀ rest =>
      have hsame : rest.find? (·.partition ≠ r₀.partition) = none := by
        apply List.find?_eq_none.mpr
        intro r hr
        simp [hp r (hperm.mem_iff.mp (.tail _ hr)), hp r₀ (hperm.mem_iff.mp (.head _))]
      dsimp only
      rw [hsame]
      exact ⟨_, rfl⟩

/-- Records of one partition in ascending order amount to the batch of just these records. -/
theorem ofRecords_of_ascending {r : Record} {rest : List Record}
    (hascending : (r :: rest).Pairwise fun r r' => r.offset ≤ r'.offset)
    (hp : ∀ r' ∈ rest, r'.partition = r.partition) :
  ofRecords (r :: rest) = .ok (some {
    bounds := ⟨r.partition, r.offset, (rest.getLast?.getD r).offset, rest.length + 1⟩
    records := r :: rest })
  := by
  have hsame : rest.find? (·.partition ≠ r.partition) = none := by
    apply List.find?_eq_none.mpr
    intro r' hr'
    simp [hp r' hr']
  rw [ofRecords, List.mergeSort_of_pairwise (by simpa using hascending)]
  dsimp only
  rw [hsame]
  rfl

/-- A delivery that amounts to a batch is not empty. -/
theorem Collects.length_pos {b : Batch} {rs : List Record} (h : b.Collects rs) :
  0 < rs.length
  := by
  obtain ⟨r, hr, -⟩ := List.mem_map.mp h.first.1
  exact List.length_pos_of_mem hr

/-- A delta of a batch comes from a record of the delivery. -/
theorem Collects.mem_deltas_iff {b : Batch} {rs : List Record} (h : b.Collects rs) {d : Delta} :
  d ∈ b.deltas ↔ ∃ r ∈ rs, d ∈ r.deltas
  := by
  rw [deltas, List.mem_flatMap]
  constructor
  · rintro ⟨r, hr, hd⟩
    exact ⟨r, h.perm.mem_iff.mp hr, hd⟩
  · rintro ⟨r, hr, hd⟩
    exact ⟨r, h.perm.mem_iff.mpr hr, hd⟩

/-- The deltas of a batch lie within its bounds. -/
theorem Collects.contains_source {b : Batch} {rs : List Record} (h : b.Collects rs) {d : Delta}
    (hd : d ∈ b.deltas) :
  b.bounds.Contains d.source
  := by
  obtain ⟨r, hr, hd⟩ := h.mem_deltas_iff.mp hd
  rw [Record.source_of_mem_deltas hd]
  exact ⟨h.partition r hr, h.first.2 r hr, h.last.2 r hr⟩

end Batch

end ChainLedger
