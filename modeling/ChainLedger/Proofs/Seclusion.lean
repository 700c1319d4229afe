import ChainLedger.Proofs.Undoing

/-!
# Undoing among others

A batch shares its rows with writers of other partitions and ends undone.  The others keep off
the rows that the batch has written and not yet put back, and the calls that put rows back are
served; all other calls may be lost.  Then every row that the batch wrote becomes again what
its write replaced, and the batch has changed no other row.
-/

namespace ChainLedger

open Prog

variable {known : Address → Row → Prop} {p : Partition}

/-- Others leave rows that are known, at positions of other partitions, and keep off the rows
that a loop of the batch has changed last.  Any call may be lost but those that put back a row
of the batch. -/
def secluded (known : Address → Row → Prop) (p : Partition) : Manners where
  may key mine _ new := ¬ mine ∧
    ∀ row ∈ new, row.key = key ∧ known key row ∧ row.source.partition ≠ p
  keyed h := (h.2 _ rfl).1
  lossy
    | .batch, .find _ | .batch, .update _ _ | .batch, .remove _ => False
    | _, _ => True

namespace Scene

variable {s s' : Scene} {key : Address} {d : Delta}

/-- The batch has changed nothing at the address, and its row is known. -/
structure Left (known : Address → Row → Prop) (key : Address) (s : Scene) : Prop where
  changes : ∀ c ∈ changesAt s.journal key, c.agent = .other
  row : ∀ row ∈ s.rows.get? key, row.key = key ∧ known key row

/-- The batch has changed nothing at the address of the delta, and the row is not at its
position. -/
structure Untouched (known : Address → Row → Prop) (d : Delta) (s : Scene) : Prop where
  left : s.Left known d.key
  source : ∀ row ∈ s.rows.get? d.key, row.source ≠ d.source

/-- A loop has written the row of its address, and nothing has happened since. -/
structure Written (d : Delta) (w : Write) (row' : Row) (s : Scene) : Prop where
  makes : w.Makes d row'
  changes : ∃ cs, (∀ c ∈ cs, c.agent = .other) ∧
    changesAt s.journal d.key = cs ++ [⟨.loop, d.key, w.previous, some row'⟩]
  row : s.rows.get? d.key = some row'

/-- A row was written by a loop and put back, and the batch has changed it no further. -/
def Restored (key : Address) (s : Scene) : Prop :=
  ∃ cs cs' old row', (∀ c ∈ cs ++ cs', c.agent = .other) ∧
    changesAt s.journal key
      = cs ++ [⟨.loop, key, old, some row'⟩, ⟨.undo, key, some row', old⟩] ++ cs' ∧
    (cs' = [] → s.rows.get? key = old)

/-! ### What others leave -/

theorem Left.drift (h : s.Left known key) (hs : Drift (secluded known p) key s s') :
  s'.Left known key
  := by
  rcases hs with ⟨hrow, hchanges⟩ | ⟨row?, ⟨-, hmay⟩, hrow, hchanges⟩
  · constructor
    · rw [hchanges]
      exact h.changes
    · rw [hrow]
      exact h.row
  · constructor
    · rw [hchanges]
      intro c hc
      rcases List.mem_append.mp hc with hc | hc
      · exact h.changes c hc
      · rw [List.mem_singleton.mp hc]
    · rw [hrow]
      intro row hmem
      exact ⟨(hmay row hmem).1, (hmay row hmem).2.1⟩

theorem Untouched.drift (hp : d.source.partition = p) (h : s.Untouched known d)
    (hs : Drift (secluded known p) d.key s s') :
  s'.Untouched known d
  := by
  refine ⟨h.left.drift hs, ?_⟩
  rcases hs with ⟨hrow, -⟩ | ⟨row?, ⟨-, hmay⟩, hrow, -⟩
  · rw [hrow]
    exact h.source
  · rw [hrow]
    intro row hmem hsource
    apply (hmay row hmem).2.2
    rw [hsource, hp]

theorem Written.drift {w : Write} {row' : Row} (h : s.Written d w row')
    (hs : Drift (secluded known p) d.key s s') :
  s'.Written d w row'
  := by
  obtain ⟨cs, hothers, hcs⟩ := h.changes
  rcases hs with ⟨hrow, hchanges⟩ | ⟨row?, ⟨hmine, -⟩, -, -⟩
  · exact ⟨h.makes, ⟨cs, hothers, hchanges.trans hcs⟩, hrow.trans h.row⟩
  · apply absurd _ hmine
    exact ⟨_, by rw [hcs, List.getLast?_concat], rfl⟩

theorem Restored.drift (h : s.Restored key) (hs : Drift (secluded known p) key s s') :
  s'.Restored key
  := by
  obtain ⟨cs, cs', old, row', hothers, hcs, hlast⟩ := h
  rcases hs with ⟨hrow, hchanges⟩ | ⟨row?, -, hrow, hchanges⟩
  · exact ⟨cs, cs', old, row', hothers, hchanges.trans hcs, fun hnil => hrow.trans (hlast hnil)⟩
  · refine ⟨cs, cs' ++ [⟨.other, key, s.rows.get? key, row?⟩], old, row', ?_, ?_, ?_⟩
    · intro c hc
      rw [← List.append_assoc] at hc
      rcases List.mem_append.mp hc with hc | hc
      · exact hothers c hc
      · rw [List.mem_singleton.mp hc]
    · rw [hchanges, hcs, List.append_assoc]
    · intro hnil
      simp at hnil

theorem Left.drifts (h : s.Left known key) (hs : Drifts (secluded known p) key s s') :
  s'.Left known key
  := hs.keep (fun _ _ hs h => h.drift hs) h

theorem Written.drifts {w : Write} {row' : Row} (h : s.Written d w row')
    (hs : Drifts (secluded known p) d.key s s') :
  s'.Written d w row'
  := hs.keep (fun _ _ hs h => h.drift hs) h

theorem Restored.drifts (h : s.Restored key) (hs : Drifts (secluded known p) key s s') :
  s'.Restored key
  := hs.keep (fun _ _ hs h => h.drift hs) h

end Scene

/-! ### The loops -/

/-- What is said of the reads and writes of a delta among secluded others. -/
def Delta.footing (known : Address → Row → Prop) (d : Delta) : Watch Scene where
  seen row? _ := ∀ row ∈ row?, row.key = d.key ∧ known d.key row
  sent w? s := s.Untouched known d ∨ ∃ w ∈ w?, ∃ row', s.Written d w row'
  done w s := ∃ row', s.Written d w row'

variable {d : Delta} {s s' : Scene}

/-- A write by a loop does nothing, or leaves the row written. -/
theorem Delta.afterWrite_footing {w : Write} {row' : Row} {P : Option Row → Prop}
    {r : Except Fault (Timed Bool)} (h : s.Untouched known d) (hmakes : w.Makes d row')
    (hkey : row'.key = d.key) (hP : P (s.rows.get? d.key) → s.rows.get? d.key = w.previous)
    (hwrote : s.Wrote s' .loop row' P true false r) :
  (d.footing known).AfterWrite w r s'
  := by
  cases hwrote with
  | refused hrow hchanges hr =>
      rw [hkey] at hrow hchanges
      have huntouched : s'.Untouched known d := by
        constructor
        · constructor
          · rw [hchanges]
            exact h.left.changes
          · rw [hrow]
            exact h.left.row
        · rw [hrow]
          exact h.source
      exact .of (absurd · hr) (fun _ => .inl huntouched) fun _ => .inl huntouched
  | done hold hrow hchanges hr =>
      rw [hkey] at hold hrow hchanges
      have hwritten : s'.Written d w row' := by
        refine ⟨hmakes, ⟨_, h.left.changes, ?_⟩, hrow⟩
        rw [hchanges, hP hold]
      exact .of (fun _ => ⟨row', hwritten⟩) (absurd · hr) fun _ => .inr ⟨w, rfl, row', hwritten⟩

/-- The others leave what is said of a loop's writes. -/
theorem Delta.sent_footing {w? : Option Write} (hp : d.source.partition = p)
    (hs : Scene.Drifts (secluded known p) d.key s s') (h : (d.footing known).sent w? s) :
  (d.footing known).sent w? s'
  := by
  refine hs.keep ?_ h
  rintro s s' hs (h | ⟨w, hw, row', h⟩)
  · exact .inl (h.drift hp hs)
  · exact .inr ⟨w, hw, row', h.drift hs⟩

/-- After a read by a loop: only a row that the loop has written is at its position. -/
theorem Delta.find_footing {w? : Option Write} {r : Except Fault (Timed (Option Row))}
    (hp : d.source.partition = p) (h : (d.footing known).sent w? s)
    (hcall : (shared (secluded known p)).store .loop s (.find d.key) r s') :
  (d.footing known).AfterRead d w? r s'
  := by
  have h' := Delta.sent_footing hp (Scene.drifts_of_store hcall nofun) h
  obtain ⟨s₁, rows, -, hanswer, rfl⟩ := hcall
  apply Watch.AfterRead.of
  · intro row? hr w hw row hrow hlanded
    obtain ⟨rfl, rfl⟩ := hanswer.of_found hr
    rcases h' with h' | ⟨w', hw', row', h'⟩
    · exact absurd hlanded.2 (h'.source row hrow)
    · obtain rfl := Option.some.inj (hw.symm.trans hw')
      exact ⟨row', h'⟩
  · intro row? hr hnot
    obtain ⟨rfl, rfl⟩ := hanswer.of_found hr
    rcases h' with h' | ⟨w, hw, row', h'⟩
    · exact ⟨.inl h', h'.left.row⟩
    · apply absurd _ (hnot w hw row' h'.row)
      exact ⟨h'.makes.version.symm, (Row.of_written h'.makes.written).1⟩
  · intro _
    exact h'

/-- Among secluded others the loops are watched soundly, if equal versions mean equal rows. -/
theorem Delta.sound_footing
    (hversions : ∀ key row row', known key row → known key row' →
      row.version = row'.version → row = row')
    (hp : d.source.partition = p) :
  (d.footing known).Sound (shared (secluded known p)) (Scene.Drifts (secluded known p) d.key) d
  := by
  constructor
  · intro s s' row? _ h
    exact h
  · exact Delta.sent_footing hp
  · rintro s s' w hs ⟨row', h⟩
    exact ⟨row', h.drifts hs⟩
  · intro s row h
    exact (h row rfl).1
  · rintro s q r _ rfl
    exact .single (Scene.drift_of_note _)
  · exact Delta.find_footing hp
  · rintro s r _ h - ⟨s₁, rows, hothers, hanswer, rfl⟩
    rcases Delta.sent_footing hp (Scene.drifts_of_meddled hothers d.key) h with h₁ | ⟨w, ⟨⟩, -⟩
    exact Delta.afterWrite_footing h₁ (Write.makes_insert d) rfl id (Scene.insert_wrote hanswer)
  · rintro s row row' forced r _ h hseen - hupdated ⟨s₁, rows, hothers, hanswer, rfl⟩
    obtain ⟨hkey, hknown⟩ := hseen row rfl
    have hmakes := Write.makes_update forced hkey hupdated
    have hkey' : row'.key = d.key := Row.key_of_written hmakes.previous hmakes.written
    have hne : row'.version ≠ row.version := by
      rw [hmakes.version_succ rfl]
      exact Nat.succ_ne_self row.version
    rcases Delta.sent_footing hp (Scene.drifts_of_meddled hothers d.key) h with h₁ | ⟨w, ⟨⟩, -⟩
    apply Delta.afterWrite_footing h₁ hmakes hkey' _ (Scene.update_wrote hne hanswer)
    -- the row replaced may not be the one read, but it has the same version
    rintro ⟨old, hold, hversion⟩
    rw [hold]
    congr 1
    exact hversions d.key old row (h₁.left.row old hold).2 hknown hversion

/-! ### Putting rows back -/

/-- A row that a loop wrote has been put back, and at other addresses the batch has done
nothing. -/
structure Scene.PutBack (known : Address → Row → Prop) (p : Partition) (key : Address)
    (s s' : Scene) : Prop where
  restored : s'.Restored key
  others : ∀ k ≠ key, Scene.Drifts (secluded known p) k s s'
  unacknowledged : s.Unacknowledged → s'.Unacknowledged

/-- A call that is served and gives the row of a write what this has replaced puts it back. -/
theorem Scene.Written.putBack {w : Write} {row' : Row} {c : StoreCall}
    {r : Except Fault (Timed c.Answer)} {a : c.Answer} (h : s.Written d w row')
    (hcall : (shared (secluded known p)).store .batch s c r s')
    (hserved : ¬ (secluded known p).lossy .batch c) (htarget : c.target? = some d.key)
    (hagent : Caller.batch.agent c = .undo)
    (hon : ∀ rows : Table Address Row, rows.get? d.key = some row' →
      (c.on rows).1.get? d.key = w.previous ∧ (c.on rows).2 = .ok (.ok a)) :
  r = .ok (.answered (.ok a)) ∧ s.PutBack known p d.key s'
  := by
  have hothers : ∀ k ≠ d.key, Scene.Drifts (secluded known p) k s s' := by
    intro k hne
    apply Scene.drifts_of_store hcall
    rw [htarget]
    rintro ⟨⟩
    exact hne rfl
  have hun : s.Unacknowledged → s'.Unacknowledged := fun hun => hun.of_store hcall
  obtain ⟨s₁, rows, hmeddled, hanswer, rfl⟩ := hcall
  have h₁ := h.drifts (Scene.drifts_of_meddled hmeddled d.key)
  obtain ⟨hrow, hanswered⟩ := hon s₁.rows h₁.row
  obtain ⟨rfl, rfl⟩ := hanswer.of_served hserved
  refine ⟨congrArg _ hanswered, ?_, hothers, hun⟩
  obtain ⟨cs, hcs, hchanges⟩ := h₁.changes
  have hne : (c.on s₁.rows).1.get? d.key ≠ s₁.rows.get? d.key := by
    rw [hrow, h₁.row]
    intro hprevious
    exact Nat.succ_ne_self _ (h₁.makes.version_succ hprevious).symm
  refine ⟨cs, [], w.previous, row', by simpa using hcs, ?_, fun _ => hrow⟩
  rw [Scene.changesAt_answer_of_ne htarget hne, hchanges, hagent, hrow, h₁.row]
  simp

namespace Batch

variable {policy : Policy}

/-- The row of a write that stands is put back. -/
theorem restore_secluded {w : Write} {row' : Row} (h : s.Written d w row') :
  Ensures (shared (secluded known p)).Batches s (restore policy w)
    fun r s' => r = .ok (.ok true) ∧ s.PutBack known p w.key s'
  := by
  rw [restore, h.makes.key]
  cases hprevious : w.previous with
  | some row =>
      have hkey : row.key = d.key := h.makes.previous row hprevious
      apply Ports.store_spec
      intro r s' hcall
      obtain ⟨rfl, hput⟩ := h.putBack hcall id (congrArg some hkey) rfl (a := true) (by
        intro rows hrow
        rw [← hkey] at hrow
        rw [StoreCall.on_update_of_version hrow h.makes.version.symm, ← hkey, hprevious]
        simp)
      exact ⟨rfl, hput⟩
  | none =>
      dsimp only
      rw [removeOwn, h.makes.key]
      apply Ports.ensures_store
      intro r s' hfind
      have hdrifts : ∀ k, Scene.Drifts (secluded known p) k s s' :=
        fun k => Scene.drifts_of_store hfind (Option.some_ne_none k).symm
      have hun : s.Unacknowledged → s'.Unacknowledged := fun hun => hun.of_store hfind
      have h' : s'.Written d w row' := h.drifts (hdrifts d.key)
      have hheard : heard r = .ok (.ok (some row')) := by
        obtain ⟨s₁, rows, hmeddled, hanswer, -⟩ := hfind
        obtain ⟨rfl, -⟩ := hanswer.of_served id
        rw [StoreCall.on_find, (h.drifts (Scene.drifts_of_meddled hmeddled d.key)).row]
        rfl
      rw [hheard]
      change Ensures _ _ (if _ then _ else _) _
      rw [if_pos ⟨h.makes.version.symm, by simp [(Row.of_written h.makes.written).2]⟩]
      apply Ports.ensures_store
      intro r s'' hcall
      obtain ⟨rfl, hput⟩ := h'.putBack hcall id rfl rfl (a := ()) (by
        intro rows hrow
        rw [StoreCall.on_remove, hprevious]
        simp)
      apply ensures_done
      refine ⟨rfl, hput.restored, ?_, fun h => hput.unacknowledged (hun h)⟩
      intro k hk
      exact (hdrifts k).trans (hput.others k hk)

/-- The rows of writes that stand are all put back. -/
theorem restoreAll_secluded {ws : List Write}
    (h : ∀ w ∈ ws, ∃ d row', s.Written d w row') (hnodup : (ws.map (·.key)).Nodup) :
  Ensures (shared (secluded known p)).Batches s (restoreAll policy ws) fun r s' =>
    r = .ok (ws.map (·.key)) ∧ (∀ key ∈ ws.map (·.key), s'.Restored key) ∧
      (∀ key, key ∉ ws.map (·.key) → Scene.Drifts (secluded known p) key s s') ∧
      (s.Unacknowledged → s'.Unacknowledged)
  := by
  induction ws generalizing s with
  | nil =>
      apply ensures_done
      exact ⟨rfl, by simp, fun _ _ => .refl, id⟩
  | cons w ws ih =>
      obtain ⟨hfirst, hnodup⟩ := List.nodup_cons.mp hnodup
      obtain ⟨d, row', hwritten⟩ := h w (.head _)
      apply ensures_bind
      refine (restore_secluded hwritten).mono ?_
      rintro _ s' ⟨rfl, hput⟩
      apply ensures_bind
      -- to the addresses of the other writes, putting this row back is nothing
      have hrest : ∀ w' ∈ ws, ∃ d row', s'.Written d w' row' := by
        intro w' hw'
        obtain ⟨d', row'', h'⟩ := h w' (.tail _ hw')
        refine ⟨d', row'', h'.drifts (hput.others d'.key ?_)⟩
        intro hkey
        exact hfirst (List.mem_map.mpr ⟨w', hw', h'.makes.key.trans hkey⟩)
      refine (ih hrest hnodup).mono ?_
      rintro _ s'' ⟨rfl, hrestored, hothers, hun⟩
      apply ensures_done
      refine ⟨rfl, ?_, ?_, fun h => hun (hput.unacknowledged h)⟩
      · intro key hkey
        rcases List.mem_cons.mp hkey with rfl | hkey
        · exact hput.restored.drifts (hothers _ hfirst)
        · exact hrestored key hkey
      · intro key hkey
        simp only [List.map_cons, List.mem_cons, not_or] at hkey
        obtain ⟨hne, hkey⟩ := hkey
        exact (hput.others key hne).trans (hothers key hkey)

/-! ### The whole batch -/

variable {rs : List Record} {b : Batch}

/-- When the loops of a batch have ended without a failure, the rows written stand, and the
batch has changed nothing at any other address. -/
theorem written_or_left {rows : Table Address Row} {merged : Table Address Delta}
    {results : List Apply.Result} {s₁ s₂ : Scene}
    (hversions : ∀ key row row', known key row → known key row' →
      row.version = row'.version → row = row')
    (hleft : ∀ key, s.Left known key) (hb : b.Collects rs) (hp : b.bounds.partition = p)
    (hfetch : (shared (secluded known p)).store .batch s (.findAll b.keys)
      (.ok (.answered (.ok rows))) s₁)
    (hmerged : Merge.batch rows b.deltas = .ok merged)
    (hcompletes : Completes (shared (secluded known p)).Loops policy (jobs rows merged) s₁
      (results.map .finished) s₂)
    (hended : ∀ r ∈ results, ∃ e, r = .ok e) :
  (∀ w ∈ writes results, ∃ d row', s₂.Written d w row') ∧
    ((writes results).map (·.key)).Nodup ∧
    ∀ key, key ∉ (writes results).map (·.key) → s₂.Left known key
  := by
  have hleft₁ : ∀ key, s₁.Left known key := by
    intro key
    have hdrifts : Scene.Drifts (secluded known p) key s s₁ := Scene.drifts_of_store hfetch nofun
    exact (hleft key).drifts hdrifts
  obtain ⟨hkeyed, hselected⟩ :=
    Scene.of_fetch (fun key row hrow => ((hleft key).row row hrow).1) hfetch
  have hplan := hb.planned hselected hmerged
  obtain ⟨hends, hothers⟩ := hcompletes.watched (W := fun j => j.delta.footing known)
    (Scene.rely_shared _)
    (fun j hj => Delta.sound_footing hversions ((hplan.partition hb hj).trans hp)) hplan.nodup
    (by
      intro j hj
      have hfree := (hplan.fresh hb hkeyed hj).source_ne
      rw [hplan.row j hj] at hfree ⊢
      exact ⟨.inl ⟨hleft₁ _, hfree⟩, (hleft₁ _).row⟩)
  have hends := List.forall₂_map_right_iff.mp hends
  obtain ⟨hdone, hnodup⟩ := done_of_ends hplan.nodup
    (by rintro j w ⟨row', hwritten⟩; exact hwritten.makes.key) hends
  refine ⟨?_, hnodup, ?_⟩
  · intro w hw
    obtain ⟨j, -, row', hwritten⟩ := hdone w hw
    exact ⟨j.delta, row', hwritten⟩
  · intro key hkey
    by_cases hjob : key ∈ (jobs rows merged).map (·.delta.key)
    · obtain ⟨j, hj, rfl⟩ := List.mem_map.mp hjob
      obtain ⟨r, hr, hend⟩ := exists_of_forall₂ hends hj
      obtain ⟨e, rfl⟩ := hended r hr
      have hfree : (j.delta.footing known).sent none s₂ := by
        cases hend with
        | applied hdone =>
            obtain ⟨row', hwritten⟩ := hdone
            apply absurd _ hkey
            exact List.mem_map.mpr ⟨_, mem_writes.mpr hr, hwritten.makes.key⟩
        | alreadyApplied hsent => exact hsent
        | locked hsent => exact hsent
        | failed he => exact absurd he Watch.not_failed
      rcases hfree with huntouched | ⟨w, ⟨⟩, -⟩
      exact huntouched.left
    · exact (hleft₁ key).drifts (hothers key hjob)

/-- A batch of one partition shares its rows with writers of other partitions, which may change
rows at any time, leaving rows that are known at positions of their own partitions, but keep off
the rows that the batch has written and not yet put back.  Equal versions of known rows of one
address mean equal rows.  Any call may be lost, before or after its effect, but those that put
rows back.  If the batch ends undone, then it has acknowledged nothing, and the addresses that
it lists are exactly those where it has changed a row; at each of them it has made two changes,
a write and, right after it, its restoration, which gives the row back as it was before the
write. -/
theorem reverted_exactly {rows : Table Address Row} {bounds : Bounds}
    {locked restored : List Address} {s' : Scene}
    (hrows : ∀ key row, rows.get? key = some row → row.key = key ∧ known key row)
    (hversions : ∀ key row row', known key row → known key row' →
      row.version = row'.version → row = row')
    (h : Exec (shared (secluded known bounds.partition)).Batches ⟨rows, []⟩ (process policy rs)
      (.ok (.ok (.reverted bounds locked restored))) s') :
  (∀ b r, .acknowledge b r ∉ s'.calls) ∧ restored.Nodup ∧
    ∀ key,
      (key ∉ restored → ∀ c ∈ changesAt s'.journal key, c.agent = .other) ∧
      (key ∈ restored → ∃ cs cs' old row', (∀ c ∈ cs ++ cs', c.agent = .other) ∧
        changesAt s'.journal key
          = cs ++ [⟨.loop, key, old, some row'⟩, ⟨.undo, key, some row', old⟩] ++ cs' ∧
        (cs' = [] → s'.rows.get? key = old))
  := by
  have hstart : ∀ key, Scene.Left known key ⟨rows, []⟩ := by
    intro key
    constructor
    · intro c hc
      cases hc
    · exact hrows key
  have hun : Scene.Unacknowledged ⟨rows, []⟩ := by
    rintro b r ⟨⟩
  refine process_reverted (P := shared (secluded known bounds.partition))
    (Q := fun b _ restored s' => b.partition = bounds.partition →
      (∀ b r, .acknowledge b r ∉ s'.calls) ∧ restored.Nodup ∧ ∀ key,
        (key ∉ restored → ∀ c ∈ changesAt s'.journal key, c.agent = .other) ∧
        (key ∈ restored → s'.Restored key))
    ?_ h bounds locked restored rfl rfl
  intro b fetched s₁ merged results s₂ hb hfetch hmerged hcompletes hended r s' hexec restored hr hp
  subst hr
  obtain ⟨hwritten, hnodup, hleft⟩ :=
    written_or_left hversions hstart hb hp hfetch hmerged hcompletes hended
  obtain ⟨heq, hrestored, hothers, hun'⟩ := restoreAll_secluded hwritten hnodup hexec
  obtain rfl := Except.ok.inj heq
  refine ⟨hun' ((hun.of_store hfetch).of_completes hcompletes), hnodup, ?_⟩
  intro key
  refine ⟨?_, hrestored key⟩
  intro hkey
  have hleft' : s'.Left known key :=
    (hleft key hkey).drifts (hothers key hkey)
  exact hleft'.changes

/-- A transfer whose receiver another partition holds is undone exactly. -/
theorem transfer_undone_exactly :
  ∃ s', Exec (shared (secluded (fun _ row => row = heldReceiver)
        (transferBatch home).bounds.partition)).Batches ⟨heldRows, []⟩
      (process hasty [transfer home])
      (.ok (.ok (.reverted (transferBatch home).bounds [receiver] [sender]))) s' ∧
    (∀ b r, .acknowledge b r ∉ s'.calls) ∧ [sender].Nodup ∧
    ∀ key,
      (key ∉ [sender] → ∀ c ∈ changesAt s'.journal key, c.agent = .other) ∧
      (key ∈ [sender] → ∃ cs cs' old row', (∀ c ∈ cs ++ cs', c.agent = .other) ∧
        changesAt s'.journal key
          = cs ++ [⟨.loop, key, old, some row'⟩, ⟨.undo, key, some row', old⟩] ++ cs' ∧
        (cs' = [] → s'.rows.get? key = old))
  := by
  obtain ⟨s', hexec⟩ := exists_transfer_undone (secluded (fun _ row => row = heldReceiver)
    (transferBatch home).bounds.partition)
  refine ⟨s', hexec, reverted_exactly ?_ ?_ hexec⟩
  · intro key row hrow
    obtain ⟨rfl, rfl⟩ := heldRows_eq hrow
    exact ⟨rfl, rfl⟩
  · rintro key row row' rfl rfl -
    rfl

end Batch

end ChainLedger
