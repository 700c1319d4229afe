import ChainLedger.Proofs.Undoing

/-!
# What undoing spares

A batch shares its rows with writers that raise their versions, and ends undone.  A row that
it had updated is put back by one compare-and-swap, which fails if anybody has changed the row
since.  A row that it had made is read, and if it is still as made then it is removed by another
call, whatever it is by then.  So the only change of somebody else that is lost with a row is
one that comes between these two calls.
-/

namespace ChainLedger

open Prog

variable {lossy : Prop} {p : Partition}

/-- Others put rows of higher versions in the place of those that there are.  If calls may be
lost, then they bring no row to a position of the partition that it was not at before. -/
def raising (lossy : Prop) (p : Partition) : Manners where
  may key _ old new := ∃ row' ∈ new, row'.key = key ∧ (∀ row ∈ old, row.version < row'.version) ∧
    (lossy → row'.source.partition = p → ∃ row ∈ old, row.source = row'.source)
  keyed := by
    rintro key mine old row ⟨_, ⟨⟩, hkey, -⟩
    exact hkey
  lossy _ _ := lossy

/-- The row of the address was last changed by a loop of the batch, which made it. -/
def Made (journal : List Entry) (key : Address) : Prop :=
  ∃ c, (changesAt journal key).getLast? = some c ∧ c.agent = .loop ∧ c.before = none

/-- How a change that undoes one may come about after what the journal tells. -/
inductive Spares (journal : List Entry) (c : Change) : Prop
  /-- A loop of the batch was the last to change the row. -/
  | own (hmine : Mine journal c.key)
  /-- The row is removed, right after it was read; when it was read, a loop of the batch was
  the last to change the row, and had made it. -/
  | removed {before between : List Entry} {row : Row} {r : Except Fault (Timed Unit)}
      (hjournal : journal = before
        ++ .call (.store .batch (.find c.key) (.ok (.answered (.ok (some row))))) :: between
        ++ [.call (.store .batch (.remove c.key) r)])
      (hmade : Made before c.key)
      (hothers : ∀ e ∈ between, ∃ c' : Change, e = .change c' ∧ c'.agent = .other)
      (hafter : c.after = none)

/-- All changes so far that undo one have come about as they may. -/
abbrev Spared : List Entry → Prop := EachChange fun before c => c.agent = .undo → Spares before c

/-! ### The journal -/

namespace Scene

variable {M : Manners} {s s' : Scene} {who : Caller} {c : StoreCall}
  {r : Except Fault (Timed c.Answer)}

/-- What others do undoes nothing. -/
theorem spared_of_meddled (h : Relation.ReflTransGen (Meddled M) s s')
    (hspared : Spared s.journal) :
  Spared s'.journal
  := by
  apply hspared.meddled _ h
  rintro journal c hother hundo
  rw [hother] at hundo
  cases hundo

/-- A store call that is no part of undoing undoes nothing. -/
theorem spared_of_store (h : Spared s.journal) (hcall : (shared M).store who s c r s')
    (hagent : c.target? = none ∨ who.agent c ≠ .undo) :
  Spared s'.journal
  := by
  obtain ⟨s₁, rows, hothers, -, rfl⟩ := hcall
  apply (spared_of_meddled hothers h).answer
  intro key htarget _ hundo
  rcases hagent with hnone | hne
  · rw [hnone] at htarget
    cases htarget
  · exact absurd hundo hne

/-- The loops of a batch undo nothing. -/
theorem spared_of_completes {policy : Policy} {jobs : List Job}
    {ends : List (JobEnd Apply.Result)} (h : Spared s.journal)
    (hcompletes : Completes (shared M).Loops policy jobs s ends s') :
  Spared s'.journal
  := by
  apply Ports.completes_keeps _ _ hcompletes h
  · intro s c r s' h hcall
    apply spared_of_store h hcall
    right
    rintro ⟨⟩
  · rintro s p r _ h rfl
    exact h.note _

/-! ### The rows of writes -/

/-- The row of a write is there as a loop has left it, or one of a higher version. -/
inductive Holds (w : Write) (s : Scene) : Prop
  /-- It is there as a loop has left it. -/
  | still {row : Row} {c : Change} (hrow : s.rows.get? w.key = some row)
      (hversion : row.version = w.version)
      (hlast : (changesAt s.journal w.key).getLast? = some c) (hagent : c.agent = .loop)
      (hbefore : w.previous = none → c.before = none)
  /-- It has moved on. -/
  | moved {row : Row} (hrow : s.rows.get? w.key = some row) (hversion : w.version < row.version)

/-- A row that still has the version of the write was changed last by a loop. -/
theorem Holds.mine {w : Write} {row : Row} (h : s.Holds w)
    (hrow : s.rows.get? w.key = some row) (hversion : row.version = w.version) :
  Mine s.journal w.key ∧ (w.previous = none → Made s.journal w.key)
  := by
  cases h with
  | still _ _ hlast hagent hbefore =>
      exact ⟨⟨_, hlast, hagent⟩, fun hnone => ⟨_, hlast, hagent, hbefore hnone⟩⟩
  | moved hrow' hmoved =>
      obtain rfl := Option.some.inj (hrow.symm.trans hrow')
      exact absurd hversion (Nat.ne_of_gt hmoved)

theorem Holds.drift {w : Write} (h : s.Holds w) (hs : Drift (raising lossy p) w.key s s') :
  s'.Holds w
  := by
  rcases hs with ⟨hrow, hchanges⟩ | ⟨_, ⟨row', rfl, -, hraised, -⟩, hrow, -⟩
  · cases h with
    | still hrow' hversion hlast hagent hbefore =>
        exact .still (hrow.trans hrow') hversion (by rwa [hchanges]) hagent hbefore
    | moved hrow' hmoved => exact .moved (hrow.trans hrow') hmoved
  · cases h with
    | still hrow' hversion =>
        apply Holds.moved hrow
        rw [← hversion]
        exact hraised _ hrow'
    | moved hrow' hmoved => exact .moved hrow (Nat.lt_trans hmoved (hraised _ hrow'))

theorem Holds.drifts {w : Write} (h : s.Holds w) (hs : Drifts (raising lossy p) w.key s s') :
  s'.Holds w
  := hs.keep (fun _ _ hs h => h.drift hs) h

/-- The row of the address, if there is one, is under its own address. -/
def Housed (key : Address) (s : Scene) : Prop := ∀ row ∈ s.rows.get? key, row.key = key

theorem Housed.drift {key : Address} (h : s.Housed key)
    (hs : Drift (raising lossy p) key s s') :
  s'.Housed key
  := by
  rcases hs with ⟨hrow, -⟩ | ⟨_, ⟨row', rfl, hkey, -⟩, hrow, -⟩
  · rw [Housed, hrow]
    exact h
  · rw [Housed, hrow]
    rintro _ ⟨⟩
    exact hkey

theorem Housed.drifts {key : Address} (h : s.Housed key)
    (hs : Drifts (raising lossy p) key s s') :
  s'.Housed key
  := hs.keep (fun _ _ hs h => h.drift hs) h

/-- The row of a delta's address is not at the delta's position. -/
def Unplaced (d : Delta) (s : Scene) : Prop := ∀ row ∈ s.rows.get? d.key, row.source ≠ d.source

theorem Unplaced.drift {d : Delta} (hlossy : lossy) (hp : d.source.partition = p)
    (h : s.Unplaced d) (hs : Drift (raising lossy p) d.key s s') :
  s'.Unplaced d
  := by
  rcases hs with ⟨hrow, -⟩ | ⟨_, ⟨row', rfl, -, -, hkept⟩, hrow, -⟩
  · rw [Unplaced, hrow]
    exact h
  · rw [Unplaced, hrow]
    rintro _ ⟨⟩ hsource
    obtain ⟨row, hold, hsame⟩ := hkept hlossy (by rw [hsource, hp])
    exact h row hold (hsame.trans hsource)

theorem Unplaced.drifts {d : Delta} (hlossy : lossy) (hp : d.source.partition = p)
    (h : s.Unplaced d) (hs : Drifts (raising lossy p) d.key s s') :
  s'.Unplaced d
  := hs.keep (fun _ _ hs h => h.drift hlossy hp hs) h

end Scene

/-! ### The loops -/

/-- What is said of the reads and writes of a delta among others that raise versions. -/
def Delta.hold (lossy : Prop) (d : Delta) : Watch Scene where
  seen row? s := (∀ row ∈ row?, row.key = d.key) ∧
    (lossy → (∀ row ∈ row?, row.source ≠ d.source) → s.Unplaced d)
  sent w? s := s.Housed d.key ∧
    ∀ w ∈ w?, (∃ row', w.Makes d row') ∧ (lossy ∧ s.Unplaced d ∨ s.Holds w)
  done w s := (∃ row', w.Makes d row') ∧ s.Holds w

variable {d : Delta} {s s' : Scene}

/-- A write by a loop does nothing, or leaves its row there. -/
theorem Delta.afterWrite_hold {w : Write} {row' : Row} {P : Option Row → Prop}
    {r : Except Fault (Timed Bool)} (hhoused : s.Housed d.key) (hfree : lossy → s.Unplaced d)
    (hmakes : w.Makes d row') (hP : P (s.rows.get? d.key) → w.previous = none →
      s.rows.get? d.key = none)
    (hlost : Unanswered r → lossy) (hwrote : s.Wrote s' .loop row' P true false r) :
  (d.hold lossy).AfterWrite w r s'
  := by
  have hkey : row'.key = d.key := Row.key_of_written hmakes.previous hmakes.written
  cases hwrote with
  | refused hrow _ hr =>
      rw [hkey] at hrow
      have hhoused' : s'.Housed d.key := by
        rw [Scene.Housed, hrow]
        exact hhoused
      apply Watch.AfterWrite.of
      · intro htrue
        exact absurd htrue hr
      · intro _
        exact ⟨hhoused', nofun⟩
      · intro hunanswered
        refine ⟨hhoused', ?_⟩
        rintro _ ⟨⟩
        refine ⟨⟨row', hmakes⟩, .inl ⟨hlost hunanswered, ?_⟩⟩
        rw [Scene.Unplaced, hrow]
        exact hfree (hlost hunanswered)
  | done hold hrow hchanges hr =>
      rw [hkey] at hold hrow hchanges
      have hholds : s'.Holds w := by
        rw [← hmakes.key] at hrow hchanges
        apply Scene.Holds.still hrow hmakes.version.symm
        · rw [hchanges, List.getLast?_concat]
        · rfl
        · intro hnone
          rw [hmakes.key]
          exact hP hold hnone
      apply Watch.AfterWrite.of
      · intro _
        exact ⟨⟨row', hmakes⟩, hholds⟩
      · intro hfalse
        exact absurd hfalse hr
      · intro _
        refine ⟨?_, ?_⟩
        · rw [Scene.Housed, hrow]
          rintro _ ⟨⟩
          exact hkey
        · rintro _ ⟨⟩
          exact ⟨⟨row', hmakes⟩, .inr hholds⟩

/-- The others leave what is said of a loop's writes. -/
theorem Delta.sent_hold {w? : Option Write} (hp : d.source.partition = p)
    (hs : Scene.Drifts (raising lossy p) d.key s s') (h : (d.hold lossy).sent w? s) :
  (d.hold lossy).sent w? s'
  := by
  obtain ⟨hhoused, hflight⟩ := h
  refine ⟨hhoused.drifts hs, ?_⟩
  intro w hw
  obtain ⟨⟨row', hmakes⟩, hflight⟩ := hflight w hw
  refine ⟨⟨row', hmakes⟩, ?_⟩
  rcases hflight with ⟨hlossy, hfree⟩ | hholds
  · exact .inl ⟨hlossy, hfree.drifts hlossy hp hs⟩
  · rw [← hmakes.key] at hs
    exact .inr (hholds.drifts hs)

/-- After a read by a loop: only a row that the loop has written is at its position, if calls
may be lost. -/
theorem Delta.find_hold {w? : Option Write} {r : Except Fault (Timed (Option Row))}
    (hp : d.source.partition = p) (h : (d.hold lossy).sent w? s)
    (hcall : (shared (raising lossy p)).store .loop s (.find d.key) r s') :
  (d.hold lossy).AfterRead d w? r s'
  := by
  obtain ⟨hhoused, hflight⟩ := Delta.sent_hold hp (Scene.drifts_of_store hcall nofun) h
  obtain ⟨s₁, rows, -, hanswer, rfl⟩ := hcall
  apply Watch.AfterRead.of
  · intro row? hr w hw row hrow hlanded
    obtain ⟨rfl, rfl⟩ := hanswer.of_found hr
    obtain ⟨hmakes, hflight⟩ := hflight w hw
    rcases hflight with ⟨-, hfree⟩ | hholds
    · exact absurd hlanded.2 (hfree row hrow)
    · exact ⟨hmakes, hholds⟩
  · intro row? hr _
    obtain ⟨rfl, rfl⟩ := hanswer.of_found hr
    exact ⟨⟨hhoused, nofun⟩, hhoused, fun _ h => h⟩
  · intro _
    exact ⟨hhoused, hflight⟩

/-- After the insertion of a first row by a loop. -/
theorem Delta.insert_hold {r : Except Fault (Timed Bool)} (hp : d.source.partition = p)
    (hhoused : s.Housed d.key) (hfree : lossy → s.Unplaced d)
    (hcall : (shared (raising lossy p)).store .loop s (.insert (Row.ofDelta d)) r s') :
  (d.hold lossy).AfterWrite { key := d.key, previous := none, version := 0, forced := false } r s'
  := by
  obtain ⟨s₁, rows, hothers, hanswer, rfl⟩ := hcall
  have hdrifts := Scene.drifts_of_meddled hothers d.key
  apply Delta.afterWrite_hold (hhoused.drifts hdrifts) _ (Write.makes_insert d) _ _
    (Scene.insert_wrote hanswer)
  · intro hlossy
    exact (hfree hlossy).drifts hlossy hp hdrifts
  · intro hnone _
    exact hnone
  · rcases StoreCall.on_insert_cases (Row.ofDelta d) s₁.rows with ⟨-, hon⟩ | hon
    · exact hanswer.of_unanswered (congrArg _ hon)
    · exact hanswer.of_unanswered (congrArg _ hon)

/-- After the replacement of a row by a loop. -/
theorem Delta.update_hold {row row' : Row} {forced : Bool} {r : Except Fault (Timed Bool)}
    (hp : d.source.partition = p) (hhoused : s.Housed d.key) (hfree : lossy → s.Unplaced d)
    (hkey : row.key = d.key) (hupdated : row.apply d = .ok row')
    (hcall : (shared (raising lossy p)).store .loop s (.update row' row.version) r s') :
  (d.hold lossy).AfterWrite
    { key := d.key, previous := some row, version := row'.version, forced } r s'
  := by
  obtain ⟨s₁, rows, hothers, hanswer, rfl⟩ := hcall
  have hdrifts := Scene.drifts_of_meddled hothers d.key
  have hmakes := Write.makes_update forced hkey hupdated
  have hne : row'.version ≠ row.version := by
    rw [hmakes.version_succ rfl]
    exact Nat.succ_ne_self row.version
  apply Delta.afterWrite_hold (hhoused.drifts hdrifts) _ hmakes _ _
    (Scene.update_wrote hne hanswer)
  · intro hlossy
    exact (hfree hlossy).drifts hlossy hp hdrifts
  · rintro _ ⟨⟩
  · rcases StoreCall.on_update_cases row' row.version s₁.rows with ⟨-, -, -, hon⟩ | hon
    · exact hanswer.of_unanswered (congrArg _ hon)
    · exact hanswer.of_unanswered (congrArg _ hon)

/-- Among others that raise versions the loops are watched soundly. -/
theorem Delta.sound_hold (hp : d.source.partition = p) :
  (d.hold lossy).Sound (shared (raising lossy p)) (Scene.Drifts (raising lossy p) d.key) d
  := by
  constructor
  · rintro s s' row? hs ⟨hkey, hfree⟩
    exact ⟨hkey, fun hlossy hsource => (hfree hlossy hsource).drifts hlossy hp hs⟩
  · exact Delta.sent_hold hp
  · rintro s s' w hs ⟨⟨row', hmakes⟩, hholds⟩
    rw [← hmakes.key] at hs
    exact ⟨⟨row', hmakes⟩, hholds.drifts hs⟩
  · intro s row h
    exact h.1 row rfl
  · rintro s q r _ rfl
    exact .single (Scene.drift_of_note _)
  · exact Delta.find_hold hp
  · rintro s r s' ⟨hhoused, -⟩ ⟨-, hfree⟩ hcall
    apply Delta.insert_hold hp hhoused _ hcall
    intro hlossy
    apply hfree hlossy
    rintro _ ⟨⟩
  · rintro s row row' forced r s' ⟨hhoused, -⟩ ⟨hkey, hfree⟩ hnew hupdated hcall
    apply Delta.update_hold hp hhoused _ (hkey row rfl) hupdated hcall
    intro hlossy
    apply hfree hlossy
    rintro _ ⟨⟩
    exact Row.source_ne hnew

/-! ### Undoing -/

theorem mine_call {journal : List Entry} {c : PortCall} {key : Address} (h : Mine journal key) :
  Mine (journal ++ [.call c]) key
  := by
  rw [Mine, changesAt_append, changesAt_call, changesAt_nil, List.append_nil]
  exact h

namespace Batch

variable {policy : Policy} {w : Write}

/-- The compare-and-swap that puts a row back spares what others wrote. -/
theorem restore_update {row : Row} {r : Except Fault (Timed Bool)}
    (hspared : Spared s.journal) (hholds : s.Holds w) (hkey : row.key = w.key)
    (hcall : (shared (raising lossy p)).store .batch s (.update row w.version) r s') :
  Spared s'.journal
  := by
  obtain ⟨s₁, rows, hothers, hanswer, rfl⟩ := hcall
  have hholds := hholds.drifts (Scene.drifts_of_meddled hothers w.key)
  apply (Scene.spared_of_meddled hothers hspared).answer
  rintro _ ⟨⟩ hne -
  apply Spares.own
  apply mine_call
  rcases StoreCall.on_update_cases row w.version s₁.rows with ⟨old, hrow, hversion, -⟩ | hon
  · rw [hkey] at hrow ⊢
    exact (hholds.mine hrow hversion).1
  · rcases hanswer.rows_eq with rfl | rfl
    · exact absurd rfl hne
    · rw [hon] at hne
      exact absurd rfl hne

/-- The removal of a row that was read right before, and was as it had been made. -/
theorem remove_found {row : Row} {r : Except Fault (Timed (Option Row))}
    {r' : Except Fault (Timed Unit)} {s'' : Scene} (hspared : Spared s.journal)
    (hholds : s.Holds w) (hprevious : w.previous = none)
    (hfind : (shared (raising lossy p)).store .batch s (.find w.key) r s')
    (hr : r = .ok (.answered (.ok (some row)))) (hversion : row.version = w.version)
    (hremove : (shared (raising lossy p)).store .batch s' (.remove w.key) r' s'') :
  Spared s''.journal
  := by
  have hspared' : Spared s'.journal := Scene.spared_of_store hspared hfind (.inl rfl)
  obtain ⟨s₁, rows, hothers, hanswer, rfl⟩ := hfind
  obtain ⟨s₂, rows', hothers', hanswer', rfl⟩ := hremove
  apply (Scene.spared_of_meddled hothers' hspared').answer
  rintro _ ⟨⟩ hne -
  obtain ⟨between, hjournal, hbetween⟩ := Scene.journal_of_meddled hothers'
  -- what others do between the two calls is not seen, so only the time of the read counts
  have hmade : Made s₁.journal w.key := by
    have hholds := hholds.drifts (Scene.drifts_of_meddled hothers w.key)
    obtain ⟨-, hrow⟩ := hanswer.of_found hr
    exact (hholds.mine hrow.symm hversion).2 hprevious
  have hremoved : rows'.get? w.key = none := by
    rcases hanswer'.rows_eq with rfl | rfl
    · exact absurd rfl hne
    · simp [StoreCall.on_remove]
  have hbefore : s₂.journal ++ [.call (.store .batch (.remove w.key) r')]
      = s₁.journal ++ .call (.store .batch (.find w.key) (.ok (.answered (.ok (some row)))))
        :: between ++ [.call (.store .batch (.remove w.key) r')] := by
    rw [hjournal, hr]
    simp [Scene.answer, Scene.noted, StoreCall.target?]
  exact .removed hbefore hmade hbetween hremoved

/-- Putting one row back spares what others wrote, and leaves all other addresses. -/
theorem restore_spares (hmakes : ∃ row', w.Makes d row') (hspared : Spared s.journal)
    (hholds : s.Holds w) :
  Ensures (shared (raising lossy p)).Batches s (restore policy w)
    fun _ s' => Spared s'.journal ∧
      ∀ key ≠ w.key, Scene.Drifts (raising lossy p) key s s'
  := by
  obtain ⟨row', hmakes⟩ := hmakes
  rw [restore]
  cases hprevious : w.previous with
  | some row =>
      have hkey : row.key = w.key := (hmakes.previous row hprevious).trans hmakes.key.symm
      apply Ports.store_spec
      intro r s' hcall
      refine ⟨restore_update hspared hholds hkey hcall, ?_⟩
      intro key hne
      apply Scene.drifts_of_store hcall
      rintro ⟨⟩
      exact hne hkey
  | none =>
      dsimp only
      rw [removeOwn]
      apply Ports.ensures_store
      intro r s' hfind
      have hread : Spared s'.journal ∧
          ∀ key ≠ w.key, Scene.Drifts (raising lossy p) key s s' :=
        ⟨Scene.spared_of_store hspared hfind (.inl rfl),
          fun key _ => Scene.drifts_of_store hfind (Option.some_ne_none key).symm⟩
      rcases Watch.answered_or_unanswered r with ⟨row?, hr⟩ | hr
      · cases row? with
        | none =>
            rw [hr]
            apply ensures_done
            exact hread
        | some row =>
            have hheard : heard r = .ok (.ok (some row)) := by
              rw [hr]
              rfl
            rw [hheard]
            change Ensures _ _ (if _ then _ else _) _
            split
            · next hown =>
                apply Ports.ensures_store
                intro r' s'' hremove
                have hremoved : Spared s''.journal ∧
                    ∀ key ≠ w.key, Scene.Drifts (raising lossy p) key s s'' := by
                  refine ⟨remove_found hspared hholds hprevious hfind hr hown.1 hremove, ?_⟩
                  intro key hne
                  apply (hread.2 key hne).trans
                  apply Scene.drifts_of_store hremove
                  rintro ⟨⟩
                  exact hne rfl
                rcases heard r' with f | (e | _)
                · exact hremoved
                · exact ensures_done hremoved
                · exact ensures_done hremoved
            · exact ensures_done hread
      · apply Follows.of_fails (fails_heard hr)
        · intro f
          exact hread
        · intro e
          exact ensures_done hread

/-- Putting all rows back spares what others wrote. -/
theorem restoreAll_spares {ws : List Write} (hspared : Spared s.journal)
    (h : ∀ w ∈ ws, (∃ d row', w.Makes d row') ∧ s.Holds w) (hnodup : (ws.map (·.key)).Nodup) :
  Ensures (shared (raising lossy p)).Batches s (restoreAll policy ws)
    fun _ s' => Spared s'.journal
  := by
  induction ws generalizing s with
  | nil =>
      apply ensures_done
      exact hspared
  | cons w ws ih =>
      obtain ⟨hfirst, hnodup⟩ := List.nodup_cons.mp hnodup
      obtain ⟨⟨d, hmakes⟩, hholds⟩ := h w (.head _)
      apply ensures_bind
      refine (restore_spares hmakes hspared hholds).mono ?_
      rintro r s' ⟨hspared', hothers⟩
      have hrest : ∀ w' ∈ ws, (∃ d row', w'.Makes d row') ∧ s'.Holds w' := by
        intro w' hw'
        obtain ⟨hmakes', hholds'⟩ := h w' (.tail _ hw')
        refine ⟨hmakes', hholds'.drifts (hothers w'.key ?_)⟩
        intro hkey
        exact hfirst (List.mem_map.mpr ⟨w', hw', hkey⟩)
      have hrest := ih hspared' hrest hnodup
      rcases r with f | (e | (_ | _))
      · exact hspared'
      · exact hrest
      · exact hrest
      · apply ensures_bind
        refine hrest.mono ?_
        intro r s'' hspared''
        cases r with
        | error f => exact hspared''
        | ok restored => exact ensures_done hspared''

/-! ### The whole batch -/

variable {rs : List Record}

/-- A batch shares its rows with others that replace rows at any time, raising their versions.
Calls are never lost, or any call may be, but then the others bring no row to a position of the
batch's partition that it was not at before.  If the batch ends undone, then every change that
undoes one replaces a row that a loop of the batch was the last to change, or removes one that a
loop of the batch had made and was the last to change when it was read right before. -/
theorem reverted_spares {rows : Table Address Row} {bounds : Bounds}
    {locked restored : List Address} {s' : Scene} (hkeyed : Keyed rows)
    (h : Exec (shared (raising lossy bounds.partition)).Batches ⟨rows, []⟩ (process policy rs)
      (.ok (.ok (.reverted bounds locked restored))) s') :
  ∀ before c after, s'.journal = before ++ .change c :: after → c.agent = .undo →
    Spares before c
  := by
  refine process_reverted (P := shared (raising lossy bounds.partition))
    (Q := fun b _ _ s' => b.partition = bounds.partition → Spared s'.journal)
    ?_ h bounds locked restored rfl rfl
  intro b fetched s₁ merged results s₂ hb hfetch hmerged hcompletes hended r s' hexec restored hr hp
  have hstart : Spared (Scene.mk rows []).journal := .nil
  have hspared := Scene.spared_of_completes
    (Scene.spared_of_store hstart hfetch (.inl rfl)) hcompletes
  obtain ⟨hkeyed₁, hselected⟩ := Scene.of_fetch hkeyed hfetch
  have hplan := hb.planned hselected hmerged
  obtain ⟨hends, -⟩ := hcompletes.watched (W := fun j => j.delta.hold lossy)
    (Scene.rely_shared _)
    (fun j hj => Delta.sound_hold ((hplan.partition hb hj).trans hp)) hplan.nodup
    (by
      intro j hj
      have hfree := (hplan.fresh hb hkeyed₁ hj).source_ne
      rw [hplan.row j hj] at hfree ⊢
      exact ⟨⟨hkeyed₁ _, nofun⟩, hkeyed₁ _, fun _ h => h⟩)
  obtain ⟨hdone, hnodup⟩ := done_of_ends hplan.nodup
    (by rintro j w ⟨⟨row', hmakes⟩, -⟩; exact hmakes.key) (List.forall₂_map_right_iff.mp hends)
  apply restoreAll_spares hspared _ hnodup hexec
  intro w hw
  obtain ⟨j, -, hmakes, hholds⟩ := hdone w hw
  exact ⟨⟨j.delta, hmakes⟩, hholds⟩

/-- Undoing a transfer whose receiver another partition holds spares what others wrote. -/
theorem transfer_undone_spares :
  ∃ s', Keyed heldRows ∧ Exec (shared (raising True (transferBatch home).bounds.partition)).Batches
      ⟨heldRows, []⟩ (process hasty [transfer home])
      (.ok (.ok (.reverted (transferBatch home).bounds [receiver] [sender]))) s' ∧
    ∀ before c after, s'.journal = before ++ .change c :: after → c.agent = .undo →
      Spares before c
  := by
  obtain ⟨s', hexec⟩ :=
    exists_transfer_undone (raising True (transferBatch home).bounds.partition)
  exact ⟨s', keyed_heldRows, hexec, reverted_spares keyed_heldRows hexec⟩

/-- The row of the address that pays, after the other partition has paid it. -/
def repaid : Row where
  key := sender
  totals := { balance := 15, received := 20, transfers := 2 }
  version := 1
  source := ⟨away, 5⟩
  settled := false
  firstSeen := 9
  lastSeen := 9

/-- Not every change of others is spared: the row that a transfer has made is updated by
another partition after the batch has read it again, and is then removed by the batch. -/
theorem repaid_row_is_removed :
  ∃ s', Exec (shared (raising False (transferBatch home).bounds.partition)).Batches ⟨heldRows, []⟩
      (process hasty [transfer home])
      (.ok (.ok (.reverted (transferBatch home).bounds [receiver] [sender]))) s' ∧
    changesAt s'.journal sender = [⟨.loop, sender, none, some (Row.ofDelta debit)⟩,
      ⟨.other, sender, some (Row.ofDelta debit), some repaid⟩,
      ⟨.undo, sender, some repaid, none⟩]
  := by
  have hmay : (raising False (transferBatch home).bounds.partition).may sender
      (Mine (lockedScene.serve .batch (.find sender)).journal sender)
      ((lockedScene.serve .batch (.find sender)).rows.get? sender) (some repaid) := by
    refine ⟨repaid, rfl, rfl, ?_, False.elim⟩
    intro row hrow
    obtain rfl : Row.ofDelta debit = row := Option.some.inj hrow
    exact Nat.zero_lt_one
  have hrestored : Exec (shared (raising False (transferBatch home).bounds.partition)).Batches
      lockedScene (restoreAll hasty [payment]) (.ok [sender])
      (((lockedScene.serve .batch (.find sender)).meddle sender (some repaid)).serve .batch
        (.remove sender)) := by
    refine .answered (.store (r := .ok _) shared_serve) ?_
    refine .answered (.store (r := .ok _) (shared_meddle hmay)) ?_
    exact .done _ _
  exact ⟨_, transfer_locked hrestored, rfl⟩

end Batch

end ChainLedger
