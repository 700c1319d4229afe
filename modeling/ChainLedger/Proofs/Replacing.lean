import ChainLedger.Proofs.Rereading
import ChainLedger.Proofs.Rivals

/-!
# What a write replaces

A loop replaces a row against the version that it has read.  Engines of other partitions may take
back rows that they have put, and put others with the same versions, between the read and the
write.  So the row replaced is the one read, unless this was held under another partition and
has been taken away since.
-/

namespace ChainLedger

open Prog

variable {M : Manners} {rows : Table Address Row} {d : Delta} {journal : List Entry}
  {key : Address} {row? : Option Row} {w : Write} {s s' : Scene}

/-! ### What the journal tells of a write -/

/-- The loop has just read the row, or it is to start from the row that there is. -/
inductive ReadAt (rows : Table Address Row) (key : Address) (row? : Option Row) :
    List Entry → Prop
  | start (hrow : rows.get? key = row?) : ReadAt rows key row? []
  | found (front : List Entry) : ReadAt rows key row? (front ++ [.call (.finds key row?)])

/-- The row read is the one that is there. -/
theorem ReadAt.rowAfter_eq {front later : List Entry} (h : ReadAt rows key row? front)
    (hcoherent : Coherent rows (front ++ later)) :
  rowAfter rows front key = row?
  := by
  cases h with
  | start hrow => exact hrow
  | found front =>
      rw [rowAfter_call]
      exact hcoherent front _ later (List.append_assoc ..) key row? .found

/-- The row was read, and none but others have changed it since. -/
def Reading (rows : Table Address Row) (key : Address) (row? : Option Row)
    (journal : List Entry) : Prop :=
  ∃ front later, journal = front ++ later ∧ ReadAt rows key row? front ∧ OnlyOthers key later

theorem Reading.append {more : List Entry} (h : Reading rows key row? journal)
    (hmore : OnlyOthers key more) :
  Reading rows key row? (journal ++ more)
  := by
  obtain ⟨front, later, rfl, hread, hothers⟩ := h
  exact ⟨front, later ++ more, List.append_assoc .., hread, hothers.append hmore⟩

/-- The loop has changed the row by the write: it has read the row that the write is to replace
after `front`, and none but others have changed the row between the read and the change, and
since. -/
structure Overwrite (rows : Table Address Row) (d : Delta) (w : Write)
    (journal front later rest : List Entry) (c : Change) (row' : Row) : Prop where
  split : journal = front ++ later ++ .change c :: rest
  read : ReadAt rows d.key w.previous front
  between : OnlyOthers d.key later
  since : OnlyOthers d.key rest
  agent : c.agent = .loop
  key : c.key = d.key
  makes : w.Makes d row'
  after : c.after = some row'
  /-- The row replaced has the version of the row that was read. -/
  height : height c.before = height w.previous

/-- The loop has changed the row by the write. -/
def Overwritten (rows : Table Address Row) (d : Delta) (w : Write) (journal : List Entry) : Prop :=
  ∃ front later rest c row', Overwrite rows d w journal front later rest c row'

theorem Overwritten.append {more : List Entry} (h : Overwritten rows d w journal)
    (hmore : OnlyOthers d.key more) :
  Overwritten rows d w (journal ++ more)
  := by
  obtain ⟨front, later, rest, c, row', h⟩ := h
  refine ⟨front, later, rest ++ more, c, row', ?_⟩
  exact { h with split := by simp [h.split], since := h.since.append hmore }

/-! ### The scene goes on -/

namespace Scene

/-- Others have changed rows, or the oracle has been asked. -/
def Proceeds (M : Manners) : Scene → Scene → Prop :=
  Relation.ReflTransGen fun s s' => Meddled M s s' ∨ ∃ p r, s' = s.note (.latestOffset p r)

/-- The journal tells what has happened to the rows, which are under their own addresses, and
all that the loop has done to the row of the address is to put rows over it. -/
structure Tracked (rows : Table Address Row) (key : Address) (s : Scene) : Prop where
  chronicled : s.Chronicled rows
  keyed : Keyed s.rows
  raise : LoopsRaise key s.journal

/-- As the scene goes on, none but others change rows. -/
theorem Tracked.proceeds (h : s.Tracked rows key) (hs : Proceeds M s s') :
  s'.Tracked rows key ∧ ∃ more, s'.journal = s.journal ++ more ∧ OnlyOthers key more
  := by
  induction hs with
  | refl => exact ⟨h, [], by simp, onlyOthers_nil⟩
  | @tail s₁ s₂ _ hstep ih =>
      obtain ⟨⟨hchronicled, hkeyed, hraise⟩, more, hmore, hothers⟩ := ih
      rcases hstep with hmeddled | ⟨p, r, rfl⟩
      · have hmeddled := Relation.ReflTransGen.single hmeddled
        refine ⟨⟨hchronicled.meddled hmeddled, keyed_of_meddled hmeddled hkeyed, ?_⟩, ?_⟩
        · exact hraise.meddled (fun _ c hother hne => absurd hother hne) hmeddled
        · obtain ⟨j, hj, hchanges⟩ := journal_of_meddled hmeddled
          refine ⟨more ++ j, by rw [hj, hmore, List.append_assoc], hothers.append ?_⟩
          intro c hc
          obtain ⟨hc, -⟩ := List.mem_filter.mp hc
          obtain ⟨e, he, hchange⟩ := List.mem_filterMap.mp hc
          obtain ⟨c', rfl, hother⟩ := hchanges e he
          cases hchange
          exact hother
      · refine ⟨⟨hchronicled.note nofun, hkeyed, hraise.note _⟩,
          more ++ [.call (.latestOffset p r)], ?_, hothers.append (onlyOthers_call _)⟩
        rw [note, hmore, List.append_assoc]

/-- A read goes into the journal and changes nothing. -/
theorem Tracked.read {lossy : Prop} {r : Except Fault (Timed (Option Row))}
    {rows' : Table Address Row} (h : s.Tracked rows key)
    (hanswer : StoreAnswers lossy s.rows (.find key) r rows') :
  (s.answer .loop (.find key) r rows').Tracked rows key
  := by
  refine ⟨h.chronicled.answer hanswer, (hanswer.keyed h.keyed).1, h.raise.answer ?_⟩
  rintro key ⟨⟩

/-- A call that writes a row over one of another height goes into the journal, followed by the
change if it has had its effect. -/
theorem Wrote.journal_eq {who : Caller} {c : StoreCall} {r : Except Fault (Timed c.Answer)}
    {rows' : Table Address Row} {row' : Row} {P : Option Row → Prop} {a b : c.Answer}
    (htarget : c.target? = some row'.key) (hP : ∀ row?, P row? → row? ≠ some row')
    (h : Wrote s (s.answer who c r rows') (who.agent c) row' P a b r) :
  (r ≠ .ok (.answered (.ok a)) ∧
      (s.answer who c r rows').journal = s.journal ++ [.call (.store who c r)]) ∨
    (r ≠ .ok (.answered (.ok b)) ∧ P (s.rows.get? row'.key) ∧
      (s.answer who c r rows').journal = s.journal ++ [.call (.store who c r),
        .change ⟨who.agent c, row'.key, s.rows.get? row'.key, some row'⟩])
  := by
  cases h with
  | refused hrow _ hr =>
      left
      refine ⟨hr, ?_⟩
      change rows'.get? row'.key = _ at hrow
      simp [answer, noted, htarget, hrow]
  | done hold hrow _ hr =>
      right
      refine ⟨hr, hold, ?_⟩
      change rows'.get? row'.key = _ at hrow
      simp [answer, noted, htarget, hrow, (hP _ hold).symm]

end Scene

/-! ### The watch -/

/-- What is said of a loop among others: what it reads is the row that is there, and its writes
replace a row of the version read. -/
def replacingWatch (rows : Table Address Row) (d : Delta) : Watch Scene where
  seen row? s := s.Tracked rows d.key ∧ Reading rows d.key row? s.journal ∧
    ∀ row ∈ row?, row.key = d.key
  sent w? s := s.Tracked rows d.key ∧ ∀ w ∈ w?, (∃ row', w.Makes d row') ∧
    (Reading rows d.key w.previous s.journal ∨ Overwritten rows d w s.journal)
  done w s := s.Tracked rows d.key ∧
    (Rivals rows d.source.partition d.key s.journal → Overwritten rows d w s.journal)

namespace replacingWatch

/-- Where nothing has been sent, nothing is said of it. -/
theorem sent_none (h : s.Tracked rows d.key) :
  (replacingWatch rows d).sent none s
  := by
  refine ⟨h, ?_⟩
  rintro _ ⟨⟩

/-- More entries that change the row for none but others leave what was sent. -/
theorem sent_append {w? : Option Write} {more : List Entry} (htracked : s'.Tracked rows d.key)
    (hjournal : s'.journal = s.journal ++ more) (hmore : OnlyOthers d.key more)
    (h : (replacingWatch rows d).sent w? s) :
  (replacingWatch rows d).sent w? s'
  := by
  refine ⟨htracked, ?_⟩
  intro w hw
  obtain ⟨hmakes, hstate⟩ := h.2 w hw
  rw [hjournal]
  exact ⟨hmakes, hstate.imp (·.append hmore) (·.append hmore)⟩

theorem seen_proceeds (h : (replacingWatch rows d).seen row? s) (hs : Scene.Proceeds M s s') :
  (replacingWatch rows d).seen row? s'
  := by
  obtain ⟨htracked, hreading, hkey⟩ := h
  obtain ⟨htracked, more, hjournal, hmore⟩ := htracked.proceeds hs
  refine ⟨htracked, ?_, hkey⟩
  rw [hjournal]
  exact hreading.append hmore

theorem sent_proceeds {w? : Option Write} (h : (replacingWatch rows d).sent w? s)
    (hs : Scene.Proceeds M s s') :
  (replacingWatch rows d).sent w? s'
  := by
  obtain ⟨htracked, more, hjournal, hmore⟩ := h.1.proceeds hs
  exact sent_append htracked hjournal hmore h

theorem done_proceeds (h : (replacingWatch rows d).done w s) (hs : Scene.Proceeds M s s') :
  (replacingWatch rows d).done w s'
  := by
  obtain ⟨htracked, hdone⟩ := h
  obtain ⟨htracked, more, hjournal, hmore⟩ := htracked.proceeds hs
  refine ⟨htracked, ?_⟩
  rw [hjournal]
  exact fun hrivals => (hdone hrivals.left).append hmore

/-- A row that is the outcome of the write is no row of others, so the write has been done. -/
theorem overwritten_of_landed {row : Row} (h : s.Tracked rows d.key)
    (hrivals : Rivals rows d.source.partition d.key s.journal) (hrow : s.rows.get? d.key = some row)
    (hlanded : Apply.Landed d w row) (hmakes : ∃ row', w.Makes d row')
    (hstate : Reading rows d.key w.previous s.journal ∨ Overwritten rows d w s.journal) :
  Overwritten rows d w s.journal
  := by
  rcases hstate with ⟨front, later, hjournal, hread, hothers⟩ | hdone
  · obtain ⟨hchronicled, -, hraise⟩ := h
    obtain ⟨row', hmakes⟩ := hmakes
    have hcoherent := hchronicled.coherent
    rw [hchronicled.rows] at hrow
    rw [hjournal] at hcoherent hrivals hraise hrow
    have hheight : height w.previous < height (some row) := by
      have hversion : height (some row) = height (some row') :=
        congrArg (· + 1) (hlanded.1.trans hmakes.version)
      rw [hversion, Row.height_of_written hmakes.written]
      exact Nat.lt_succ_self _
    have hforeign := foreign_of_height_lt hcoherent hrivals hraise (hread.rowAfter_eq hcoherent)
      hothers hrow hheight
    rw [hlanded.2] at hforeign
    exact absurd rfl hforeign
  · exact hdone

/-- A write that does nothing, or replaces a row of the version read, is as it should be. -/
theorem of_journal {s₁ : Scene} {row' : Row} {r : Except Fault (Timed Bool)} {call : PortCall}
    {before : Option Row} (hmakes : w.Makes d row') (h : s₁.Tracked rows d.key)
    (hreading : Reading rows d.key w.previous s₁.journal) (hchronicled : s'.Chronicled rows)
    (hkeyed : Keyed s'.rows)
    (hwrote : (r ≠ .ok (.answered (.ok true)) ∧ s'.journal = s₁.journal ++ [.call call]) ∨
      (r ≠ .ok (.answered (.ok false)) ∧ height before = height w.previous ∧
        s'.journal = s₁.journal ++ [.call call, .change ⟨.loop, row'.key, before, some row'⟩])) :
  (replacingWatch rows d).AfterWrite w r s'
  := by
  have hcall : LoopsRaise d.key (s₁.journal ++ [.call call]) := by
    apply h.raise.concat
    rintro _ ⟨⟩
  rcases hwrote with ⟨hr, hjournal⟩ | ⟨hr, hheight, hjournal⟩
  · have htracked : s'.Tracked rows d.key := ⟨hchronicled, hkeyed, hjournal ▸ hcall⟩
    apply Watch.AfterWrite.of
    · exact fun htrue => absurd htrue hr
    · exact fun _ => sent_none htracked
    · rintro -
      refine ⟨htracked, ?_⟩
      rintro _ ⟨⟩
      rw [hjournal]
      exact ⟨⟨row', hmakes⟩, .inl (hreading.append (onlyOthers_call _))⟩
  · have htracked : s'.Tracked rows d.key := by
      refine ⟨hchronicled, hkeyed, ?_⟩
      rw [hjournal, ← List.singleton_append, ← List.append_assoc]
      apply hcall.concat
      rintro _ ⟨⟩ - -
      change height (some row') = height before + 1
      rw [Row.height_of_written hmakes.written, hheight]
    have hdone : Overwritten rows d w s'.journal := by
      obtain ⟨front, later, hfront, hread, hothers⟩ := hreading
      refine ⟨front, later ++ [.call call], [], ⟨.loop, row'.key, before, some row'⟩, row', ?_⟩
      constructor
      case split => rw [hjournal, hfront]; simp
      case read => exact hread
      case between => exact hothers.append (onlyOthers_call _)
      case since => exact onlyOthers_nil
      case agent => rfl
      case key => exact Row.key_of_written hmakes.previous hmakes.written
      case makes => exact hmakes
      case after => rfl
      case height => exact hheight
    apply Watch.AfterWrite.of
    · exact fun _ => ⟨htracked, fun _ => hdone⟩
    · exact fun hfalse => absurd hfalse hr
    · rintro -
      refine ⟨htracked, ?_⟩
      rintro _ ⟨⟩
      exact ⟨⟨row', hmakes⟩, .inr hdone⟩

/-- Others that change rows let the scene go on. -/
theorem proceeds_of_meddled (h : Relation.ReflTransGen (Scene.Meddled M) s s') :
  Scene.Proceeds M s s'
  := Relation.ReflTransGen.mono (fun _ _ hmeddled => .inl hmeddled) _ _ h

/-- The watch is right about every loop. -/
theorem sound :
  (replacingWatch rows d).Sound (shared M) (Scene.Proceeds M) d
  := by
  constructor
  case seen => exact fun hs h => seen_proceeds h hs
  case sent => exact fun hs h => sent_proceeds h hs
  case done => exact fun hs h => done_proceeds h hs
  case key =>
    rintro s row ⟨-, -, hkey⟩
    exact hkey row rfl
  case latestOffset =>
    rintro s p r _ rfl
    exact .single (.inr ⟨p, r, rfl⟩)
  case find =>
    rintro s w? r _ h ⟨s₁, rows', hothers, hanswer, rfl⟩
    have hbefore := sent_proceeds h (proceeds_of_meddled hothers)
    have htracked := hbefore.1.read hanswer
    have hsent := sent_append htracked rfl (onlyOthers_call _) hbefore
    apply Watch.AfterRead.of
    · intro found? hr w hw row hrow hlanded
      obtain ⟨rfl, rfl⟩ := hanswer.of_found hr
      obtain ⟨hmakes, hstate⟩ := hsent.2 w hw
      exact ⟨htracked, fun hrivals =>
        overwritten_of_landed htracked hrivals hrow hlanded hmakes hstate⟩
    · intro found? hr hnot
      obtain ⟨rfl, rfl⟩ := hanswer.of_found hr
      refine ⟨sent_none htracked, htracked, ⟨_, [], ?_, .found s₁.journal, onlyOthers_nil⟩, ?_⟩
      · rw [hr]
        simp [Scene.answer, Scene.noted, StoreCall.target?, PortCall.finds]
      · exact fun row hrow => hbefore.1.keyed d.key row hrow
    · exact fun _ => hsent
  case insert =>
    rintro s r _ - hseen ⟨s₁, rows', hothers, hanswer, rfl⟩
    obtain ⟨htracked, hreading, -⟩ := seen_proceeds hseen (proceeds_of_meddled hothers)
    apply of_journal (Write.makes_insert d) htracked hreading
    · exact htracked.chronicled.answer hanswer
    · exact (hanswer.keyed htracked.keyed).1
    · refine ((Scene.insert_wrote hanswer).journal_eq (c := .insert _) rfl ?_).imp_right ?_
      · rintro _ rfl hnone
        cases hnone
      · rintro ⟨hr, hnone, hjournal⟩
        exact ⟨hr, congrArg height hnone, hjournal⟩
  case update =>
    rintro s row row' forced r _ - hseen - hupdated ⟨s₁, rows', hothers, hanswer, rfl⟩
    obtain ⟨htracked, hreading, hkey⟩ := seen_proceeds hseen (proceeds_of_meddled hothers)
    have hmakes := Write.makes_update forced (hkey row rfl) hupdated
    have hversion : row'.version ≠ row.version := by
      rw [hmakes.version_succ rfl]
      exact Nat.succ_ne_self _
    apply of_journal hmakes htracked hreading
    · exact htracked.chronicled.answer hanswer
    · exact (hanswer.keyed htracked.keyed).1
    · refine ((Scene.update_wrote hversion hanswer).journal_eq (c := .update _ _) rfl ?_).imp_right ?_
      · rintro _ ⟨old, rfl, hold⟩ ⟨⟩
        exact hversion hold
      · rintro ⟨hr, ⟨old, hrow, hold⟩, hjournal⟩
        refine ⟨hr, ?_, hjournal⟩
        rw [hrow]
        exact congrArg (· + 1) hold

end replacingWatch

/-! ### Whole loops -/

/-- A loop shares the row of its delta with engines of other partitions, which may act at any
time, and any call may be lost if the manners of the others say so.  If the loop ends having
applied its delta, then it has made one change after the read of the row that it says it has
replaced, with none but others changing the row between the read and the change, and since.  The
row replaced has the version of the row read.  It is the row read, unless this was held under
another partition and others have taken it away between the read and the change. -/
theorem Task.Path.replaces {policy : Policy} (hkeyed : Keyed rows)
    (h : Task.Path (After (Relation.ReflTransGen (Scene.Meddled M)) (shared M).Loops) policy
      ⟨d, rows.get? d.key⟩ (⟨rows, []⟩, Task.start policy ⟨d, rows.get? d.key⟩)
      (s', .ended (.finished (.ok (.applied w)))))
    (hrivals : Rivals rows d.source.partition d.key s'.journal) :
  ∃ front later rest c row', Overwrite rows d w s'.journal front later rest c row' ∧
    (c.before = w.previous ∨ TakenAway d.source.partition w.previous d.key later)
  := by
  have hends : (replacingWatch rows d).Ends d s' (.finished (.ok (.applied w))) := by
    have htracked : Scene.Tracked rows d.key ⟨rows, []⟩ := ⟨Scene.chronicled_start, hkeyed, .nil⟩
    apply (replacingWatch.sound (M := M)).ends_of_path (j := ⟨d, rows.get? d.key⟩)
    · exact replacingWatch.sent_none htracked
    · exact ⟨htracked, ⟨[], [], rfl, .start rfl, onlyOthers_nil⟩, hkeyed d.key⟩
    · exact h.mono fun s c r s' ⟨s₁, hothers, hcall⟩ =>
        ⟨s₁, replacingWatch.proceeds_of_meddled hothers, hcall⟩
  obtain ⟨⟨hchronicled, -, hraise⟩, hdone⟩ := hends.done
  obtain ⟨front, later, rest, c, row', hwrite⟩ := hdone hrivals
  refine ⟨front, later, rest, c, row', hwrite, ?_⟩
  have hcoherent := hchronicled.coherent
  have hbefore : c.before = rowAfter rows (front ++ later) d.key := by
    rw [← hwrite.key]
    exact (hcoherent _ _ _ hwrite.split).1
  rw [hwrite.split] at hcoherent hrivals hraise
  have hheight := hwrite.height
  rw [hbefore] at hheight ⊢
  exact eq_or_takenAway hcoherent.left hrivals.left hraise.left
    (hwrite.read.rowAfter_eq hcoherent.left) hwrite.between hheight

/-! ### A row that is taken back and put again -/

namespace Batch

/-- Others that put rows under their own addresses, and are bound to nothing else. -/
def unruly : Manners where
  may key _ _ new := ∀ row ∈ new, row.key = key
  keyed h := h _ rfl
  lossy _ _ := True

/-- What the other partition's records come to when they are delivered again, two more of them
at once. -/
def recut : Delta where
  key := receiver
  change := { balance := 130, received := 130, transfers := 3 }
  source := ⟨away, 6⟩
  time := 5

/-- What a third partition's records come to. -/
def cover : Delta where
  key := receiver
  change := { balance := 7, received := 7, transfers := 1 }
  source := ⟨⟨"TRANSFERS", 2⟩, 0⟩
  time := 6

/-- The row that a third partition puts over the one that is held. -/
def coveringReceiver : Row where
  key := receiver
  totals := { balance := 107, received := 107, transfers := 2 }
  version := 1
  source := cover.source
  settled := false
  firstSeen := 3
  lastSeen := 6

/-- The write of the transfer over the held row. -/
def takeover : Write where
  key := receiver
  previous := some heldReceiver
  version := 1
  forced := true

/-- The scene when the loop has found the held row. -/
def foundScene : Scene := Scene.serve ⟨heldRows, []⟩ .loop (.find receiver)

/-- The scene when others have changed the row twice, and the oracle has been asked. -/
def swappedScene (row? : Option Row) (row' : Row) : Scene :=
  ((foundScene.meddle receiver row?).meddle receiver (some row')).note
    (.latestOffset away (.ok (.ok (some 7))))

/-- The scene when the loop has written. -/
def takenScene (row? : Option Row) (row' : Row) : Scene :=
  (swappedScene row? row').serve .loop (.update paidReceiver 0)

variable {row? : Option Row} {row' : Row}

/-- The loop waits once and finds the held row.  Others change the row twice, the oracle says
that the other partition has moved on, and the loop writes over what has the version read. -/
theorem path_taken (hrow : ∀ row ∈ row?, row.key = receiver) (hrow' : row'.key = receiver)
    (hserved : ((StoreCall.update paidReceiver 0).on (swappedScene row? row').rows).2
      = .ok (.ok true)) :
  Task.Path (After (Relation.ReflTransGen (Scene.Meddled unruly)) (shared unruly).Loops) hasty
    ⟨credit, heldRows.get? receiver⟩
    (⟨heldRows, []⟩, Task.start hasty ⟨credit, heldRows.get? receiver⟩)
    (takenScene row? row', .ended (.finished (.ok (.applied takeover))))
  := by
  let j : Job := ⟨credit, heldRows.get? receiver⟩
  let A := After (Relation.ReflTransGen (Scene.Meddled unruly)) (shared unruly).Loops
  have hwaited : Task.Path A hasty j (⟨heldRows, []⟩, Task.start hasty j)
      (⟨heldRows, []⟩, .running (Apply.turn hasty credit { spent := 1, seen := none })) := by
    apply Task.path_of_exec (r := .ok (.again { spent := 1, seen := none }))
    exact .answered ⟨_, .refl, .waited _ _⟩ (.done _ _)
  have hfound : Task.Path A hasty j
      (⟨heldRows, []⟩, .running (Apply.turn hasty credit { spent := 1, seen := none }))
      (foundScene,
        .running (Apply.turn hasty credit { spent := 1, seen := some (some heldReceiver) })) := by
    apply Task.path_of_exec (r := .ok (.again { spent := 1, seen := some (some heldReceiver) }))
    exact .answered ⟨_, .refl, .store shared_serve⟩ (.done _ _)
  have hothers : Relation.ReflTransGen (Scene.Meddled unruly) foundScene
      ((foundScene.meddle receiver row?).meddle receiver (some row')) := by
    refine .tail (.single ⟨receiver, row?, hrow, rfl⟩) ⟨receiver, some row', ?_, rfl⟩
    rintro _ ⟨⟩
    exact hrow'
  have hwritten : (shared unruly).store .loop (swappedScene row? row') (.update paidReceiver 0)
      (.ok (.answered (.ok true))) (takenScene row? row') := by
    have hserve : (shared unruly).store .loop (swappedScene row? row') (.update paidReceiver 0) _
        (takenScene row? row') := shared_serve
    rwa [hserved] at hserve
  have htaken : Task.Path A hasty j
      (foundScene,
        .running (Apply.turn hasty credit { spent := 1, seen := some (some heldReceiver) }))
      (takenScene row? row', .ended (.finished (.ok (.applied takeover)))) := by
    apply Task.path_of_exec (r := .ok (.stop (.ok (.applied takeover))))
    refine .answered ⟨_, hothers, .latestOffset (r := .ok (.ok (some 7))) rfl⟩ ?_
    exact .answered ⟨_, .refl, .store hwritten⟩ (.done _ _)
  exact (hwaited.trans hfound).trans htaken

/-- If each of the two changes is what engines of other partitions do, then so is all that others
do. -/
theorem rivals_taken
    (hfirst : Change.Rival home [some heldReceiver] ⟨.other, receiver, some heldReceiver, row?⟩)
    (hsecond : Change.Rival home
      (pile heldRows (foundScene.meddle receiver row?).journal receiver)
      ⟨.other, receiver, row?, some row'⟩) :
  Rivals heldRows home receiver (takenScene row? row').journal
  := by
  have hfound : Rivals heldRows home receiver foundScene.journal := by
    refine EachChange.answer (s := ⟨heldRows, []⟩) .nil ?_
    rintro key ⟨⟩
  have honce : Rivals heldRows home receiver (foundScene.meddle receiver row?).journal := by
    refine EachChange.concat hfound ?_
    rintro _ ⟨⟩ - -
    exact hfirst
  have htwice : Rivals heldRows home receiver
      ((foundScene.meddle receiver row?).meddle receiver (some row')).journal := by
    refine EachChange.concat honce ?_
    rintro _ ⟨⟩ - -
    have hrow : (foundScene.meddle receiver row?).rows.get? receiver = row? := by
      simp [Scene.meddle]
    rw [hrow]
    exact hsecond
  refine EachChange.answer (htwice.note _) ?_
  rintro key - - ⟨⟩

/-- A third partition writes over the held row and takes its row back: the row that the loop then
replaces is the one that it has read. -/
theorem uncovered_row_is_replaced :
  Keyed heldRows ∧
    Rivals heldRows home receiver (takenScene (some coveringReceiver) heldReceiver).journal ∧
    ∃ front later rest c row', Overwrite heldRows credit takeover
        (takenScene (some coveringReceiver) heldReceiver).journal front later rest c row' ∧
      (c.before = some heldReceiver ∨ TakenAway home (some heldReceiver) receiver later)
  := by
  have hpath : Task.Path _ hasty _ _ (takenScene (some coveringReceiver) heldReceiver, _) :=
    path_taken (by decide) rfl rfl
  have hrivals : Rivals heldRows home receiver
      (takenScene (some coveringReceiver) heldReceiver).journal := by
    have hwritten : Row.written (some heldReceiver) cover = .ok coveringReceiver := rfl
    apply rivals_taken
    · exact .of_written hwritten (by decide)
    · exact .of_undone hwritten (by decide)
  exact ⟨keyed_heldRows, hrivals, hpath.replaces keyed_heldRows hrivals⟩

/-- A loop may replace a row that it has not read: the other partition takes back the row that it
holds, delivers its records again, two more of them at once, and acknowledges them; the oracle
says that it has moved on, and the loop writes over the new row, which has the same version, what
it makes of the old one. -/
theorem recut_row_is_replaced :
  ∃ s', Task.Path (After (Relation.ReflTransGen (Scene.Meddled unruly)) (shared unruly).Loops)
      hasty ⟨credit, heldRows.get? receiver⟩
      (⟨heldRows, []⟩, Task.start hasty ⟨credit, heldRows.get? receiver⟩)
      (s', .ended (.finished (.ok (.applied takeover)))) ∧
    Keyed heldRows ∧ Rivals heldRows home receiver s'.journal ∧
    takeover.previous = some heldReceiver ∧
    changesAt s'.journal receiver = [⟨.other, receiver, some heldReceiver, none⟩,
      ⟨.other, receiver, none, some (.ofDelta recut)⟩,
      ⟨.loop, receiver, some (.ofDelta recut), some paidReceiver⟩] ∧
    .ofDelta recut ≠ heldReceiver
  := by
  refine ⟨takenScene none (.ofDelta recut), path_taken nofun rfl rfl, keyed_heldRows, ?_, rfl,
    rfl, by decide⟩
  apply rivals_taken
  · apply Change.Rival.retracts
    · decide
    · rfl
    · nofun
  · exact .of_written rfl (by decide)

end Batch

end ChainLedger
