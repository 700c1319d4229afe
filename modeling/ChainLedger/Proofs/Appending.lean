import Mathlib.Data.List.Induction
import ChainLedger.Proofs.Changes
import ChainLedger.Proofs.Draining

/-!
# Records appended to an empty log

Each partition gets its own records in their order, numbered from zero.  So the log depends only on
the order of the records within each partition, and all partitions together change every address by
what the records do, in whatever order the partitions are taken.
-/

namespace ChainLedger

/-- The elements of each of some classes, class by class, are all elements in another order. -/
theorem flatMap_filter_perm {α κ : Type} [DecidableEq κ] (f : α → κ) {ks : List κ}
    (hks : ks.Nodup) {l : List α} (hl : ∀ a ∈ l, f a ∈ ks) :
  (ks.flatMap fun k => l.filter (f · = k)).Perm l
  := by
  induction ks generalizing l with
  | nil =>
      have hnil : l = [] := List.eq_nil_iff_forall_not_mem.mpr fun a ha => nomatch hl a ha
      rw [hnil]
      rfl
  | cons k ks ih =>
      obtain ⟨hk, hks⟩ := List.nodup_cons.mp hks
      have hrest : (ks.flatMap fun k' => l.filter (f · = k'))
          = ks.flatMap fun k' => (l.filter (f · ≠ k)).filter (f · = k') := by
        apply List.flatMap_congr
        intro k' hk'
        rw [List.filter_filter]
        apply List.filter_congr
        intro a _
        have hne : k' ≠ k := fun heq => hk (heq ▸ hk')
        by_cases ha : f a = k'
        · simp [ha, hne]
        · simp [ha]
      rw [List.flatMap_cons, hrest]
      have hothers : ∀ a ∈ l.filter (f · ≠ k), f a ∈ ks := by
        intro a ha
        obtain ⟨ha, hne⟩ := List.mem_filter.mp ha
        exact (List.mem_cons.mp (hl a ha)).resolve_left (by simpa using hne)
      apply ((ih hks hothers).append_left _).trans
      simpa using List.filter_append_perm (fun a => decide (f a = k)) l

namespace EventLog

variable {rs rs' : List Record} {p : Partition}

/-- The records at the offsets from zero on. -/
def numbered (rs : List Record) : List Record := rs.mapIdx fun n r => { r with offset := n }

theorem numbered_concat (rs : List Record) (r : Record) :
  numbered (rs ++ [r]) = numbered rs ++ [{ r with offset := rs.length }]
  := List.mapIdx_concat

@[simp]
theorem length_numbered (rs : List Record) :
  (numbered rs).length = rs.length
  := List.length_mapIdx

/-- The offsets do not count for what the records change. -/
theorem parts_numbered (key : Address) (rs : List Record) :
  Record.parts key (numbered rs) = Record.parts key rs
  := by
  induction rs using List.reverseRecOn with
  | nil => rfl
  | append_singleton rs r ih =>
      have hone : Record.parts key [{ r with offset := rs.length }] = Record.parts key [r] :=
        Record.parts_congr rfl rfl
      rw [numbered_concat, Record.parts_append, Record.parts_append, ih, hone]

theorem appendAll_concat (log : EventLog) (rs : List Record) (r : Record) :
  log.appendAll (rs ++ [r]) = (log.appendAll rs).append r.partition r.kind r.payload
  := by
  rw [appendAll, List.foldl_append]
  rfl

/-- A partition is known if it has a record, and then has just its own. -/
theorem get?_appendAll (rs : List Record) (p : Partition) :
  (appendAll {} rs).partitions.get? p =
    if rs.filter (·.partition = p) = [] then none
    else some { records := numbered (rs.filter (·.partition = p)) }
  := by
  induction rs using List.reverseRecOn generalizing p with
  | nil => rfl
  | append_singleton rs r ih =>
      have hpartition : (appendAll {} rs).partition r.partition
          = { records := numbered (rs.filter (·.partition = r.partition)) } := by
        rw [partition, ih]
        split
        · next hnil =>
            rw [hnil]
            rfl
        · rfl
      rw [appendAll_concat, append, nextOffset, hpartition]
      dsimp only
      rw [Table.get?_insert, List.filter_append]
      by_cases hp : p = r.partition
      · subst hp
        have hone : [r].filter (fun r' => decide (r'.partition = r.partition)) = [r] := by simp
        rw [if_pos rfl, hone, if_neg (by simp), numbered_concat, length_numbered]
      · have hnone : [r].filter (fun r' => decide (r'.partition = p)) = [] := by
          simp [Ne.symm hp]
        rw [if_neg hp, hnone, List.append_nil, ih]

theorem partition_appendAll (rs : List Record) (p : Partition) :
  (appendAll {} rs).partition p = { records := numbered (rs.filter (·.partition = p)) }
  := by
  rw [partition, get?_appendAll]
  split
  · next hnil =>
      rw [hnil]
      rfl
  · rfl

theorem mem_keys_appendAll :
  p ∈ (appendAll {} rs).partitions.keys ↔ ∃ r ∈ rs, r.partition = p
  := by
  rw [Table.mem_keys_iff, get?_appendAll]
  split
  · next hnil =>
      have hnone : ∀ r ∈ rs, r.partition ≠ p := by simpa using hnil
      simpa using hnone
  · next hne => simpa using hne

theorem failNext_appendAll (rs : List Record) :
  (appendAll {} rs).failNext = false
  := by
  induction rs using List.reverseRecOn with
  | nil => rfl
  | append_singleton rs r ih =>
      rw [appendAll_concat]
      exact ih

theorem sound_appendAll (rs : List Record) :
  (appendAll {} rs).Sound
  := by
  induction rs using List.reverseRecOn with
  | nil =>
      constructor
      · intro p n r hr
        cases hr
      · intro p
        apply Nat.le_refl
  | append_singleton rs r ih =>
      rw [appendAll_concat]
      exact ih.append ..

/-- Nothing is acknowledged of records just appended. -/
theorem remaining_appendAll (rs : List Record) (p : Partition) :
  (appendAll {} rs).remaining p = numbered (rs.filter (·.partition = p))
  := by
  rw [remaining, partition_appendAll]
  rfl

/-- Records that are in the same order within each partition make the same log. -/
theorem appendAll_congr
    (h : ∀ p, rs'.filter (·.partition = p) = rs.filter (·.partition = p)) :
  appendAll {} rs' = appendAll {} rs
  := by
  have hpartitions : (appendAll {} rs').partitions = (appendAll {} rs).partitions := by
    apply Table.ext
    intro p
    rw [get?_appendAll, get?_appendAll, h p]
  have hfail := (failNext_appendAll rs').trans (failNext_appendAll rs).symm
  generalize appendAll {} rs' = log' at hpartitions hfail ⊢
  generalize appendAll {} rs = log at hpartitions hfail ⊢
  cases log
  cases log'
  cases hpartitions
  cases hfail
  rfl

/-- All records of a log that was empty, partition by partition. -/
theorem perm_appendAll (rs : List Record) :
  ((appendAll {} rs).partitions.keys.flatMap fun p => rs.filter (·.partition = p)).Perm rs
  := by
  apply flatMap_filter_perm Record.partition (Table.nodup_keys _)
  intro r hr
  exact mem_keys_appendAll.mpr ⟨r, hr, rfl⟩

/-- All records that are not acknowledged, partition by partition. -/
def queue (log : EventLog) : List Record := log.partitions.keys.flatMap log.remaining

/-- The records of a log that was empty change an address, one by one, by just what they do. -/
theorem parts_queue (key : Address) (rs : List Record) :
  (Record.parts key (appendAll {} rs).queue).Perm (Record.parts key rs)
  := by
  have hparts : Record.parts key (appendAll {} rs).queue
      = Record.parts key
        ((appendAll {} rs).partitions.keys.flatMap fun p => rs.filter (·.partition = p)) := by
    rw [queue, Record.parts_flatMap, Record.parts_flatMap]
    apply List.flatMap_congr
    intro p _
    rw [remaining_appendAll, parts_numbered]
  rw [hparts]
  exact Record.parts_perm (perm_appendAll rs)

theorem changes_queue (key : Address) (rs : List Record) :
  Record.changes key (appendAll {} rs).queue = Record.changes key rs
  := (parts_queue key rs).sum_eq

theorem weight_queue (key : Address) (rs : List Record) :
  Record.weight key (appendAll {} rs).queue = Record.weight key rs
  := by
  have hweight : ∀ rs, Record.weight key rs = ((Record.parts key rs).map Totals.size).sum := by
    intro rs
    rw [Record.parts, List.map_map]
    rfl
  rw [hweight, hweight, ((parts_queue key rs).map Totals.size).sum_eq]

theorem length_queue (rs : List Record) :
  (appendAll {} rs).queue.length = rs.length
  := by
  rw [← (perm_appendAll rs).length_eq, queue, List.length_flatMap, List.length_flatMap]
  apply congrArg List.sum
  apply List.map_congr_left
  intro p _
  rw [remaining_appendAll, length_numbered]

end EventLog

end ChainLedger
