import ChainLedger.Proofs.Chronicle

/-!
# What others put over a row and take back

Engines of other partitions put rows over the row of an address, each with the next version, and
take back what they have put there, which brings back the row beneath.  So the rows of an address
form a pile.  A row that a loop has read stays in the pile, with only rows of others and of higher
versions over it, unless the others take away this row itself; and as long as it stays, no other
row in the pile has its version.
-/

namespace ChainLedger

variable {rows : Table Address Row} {journal : List Entry} {key : Address} {p : Partition}
  {c : Change}

/-- How many writes have led to the row of an address, as its version tells. -/
def height (row? : Option Row) : Nat := row?.elim 0 (·.version + 1)

/-- A row that is written is one higher than the row that it is written over. -/
theorem Row.height_of_written {row? : Option Row} {d : Delta} {row' : Row}
    (h : Row.written row? d = .ok row') :
  height (some row') = height row? + 1
  := by
  cases row? with
  | none =>
      cases h
      rfl
  | some row =>
      obtain ⟨-, -, rfl⟩ := Row.apply_eq_ok_iff.mp h
      rfl

namespace Change

/-- The change puts a row with the next version over the one that there is. -/
def Raises (c : Change) : Prop := height c.after = height c.before + 1

instance (c : Change) : Decidable c.Raises := inferInstanceAs (Decidable (_ = _))

/-- The change brings back a row with the version before, or removes the first row. -/
def Lowers (c : Change) : Prop := height c.after + 1 = height c.before

theorem Lowers.not_raises (h : c.Lowers) :
  ¬ c.Raises
  := by
  rw [Lowers] at h
  rw [Raises]
  omega

end Change

/-! ### The pile -/

/-- The row of an address, and beneath it the rows over which the changes so far have put rows
that have not been taken back. -/
def pile (rows : Table Address Row) (journal : List Entry) (key : Address) : List (Option Row) :=
  (changesAt journal key).foldl
    (fun pile c => c.after :: if c.Raises then pile else pile.tail.tail) [rows.get? key]

@[simp]
theorem pile_call (c : PortCall) :
  pile rows (journal ++ [.call c]) key = pile rows journal key
  := by
  simp [pile]

theorem pile_change_of_ne (h : c.key ≠ key) :
  pile rows (journal ++ [.change c]) key = pile rows journal key
  := by
  simp [pile, h]

theorem pile_change :
  pile rows (journal ++ [.change c]) c.key
    = c.after :: if c.Raises then pile rows journal c.key else (pile rows journal c.key).tail.tail
  := by
  simp [pile]

/-- On top of the pile is the row of the address. -/
theorem exists_pile_eq (rows : Table Address Row) (journal : List Entry) (key : Address) :
  ∃ beneath, pile rows journal key = rowAfter rows journal key :: beneath
  := by
  induction journal using List.reverseRecOn with
  | nil => exact ⟨[], rfl⟩
  | append_singleton journal e ih =>
      cases e with
      | call c =>
          rw [pile_call, rowAfter_call]
          exact ih
      | change c =>
          rw [rowAfter_change]
          by_cases hkey : c.key = key
          · subst hkey
            rw [pile_change, if_pos rfl]
            exact ⟨_, rfl⟩
          · rw [pile_change_of_ne hkey, if_neg hkey]
            exact ih

/-! ### The others -/

/-- What an engine of another partition does to the row on top of a pile: it puts a row of its
own partition over it, or takes back what is not settled and not of the partition `p`, which
brings back the row beneath.  What was beneath the first row of the pile, is not known but for
its version. -/
inductive Change.Rival (p : Partition) (pile : List (Option Row)) (c : Change) : Prop
  | raises (hraises : c.Raises) (hforeign : ∀ row ∈ c.after, row.source.partition ≠ p)
  | retracts (hheld : Held p c.before) (hlowers : c.Lowers)
      (hback : ∀ row? ∈ pile.tail.head?, c.after = row?)

namespace Change.Rival

variable {stack beneath : List (Option Row)} {row? : Option Row} {row row' : Row} {d : Delta}

/-- An engine of another partition may apply a delta. -/
theorem of_written (h : Row.written row? d = .ok row') (hd : d.source.partition ≠ p) :
  Rival p stack ⟨.other, key, row?, some row'⟩
  := by
  apply raises
  · exact Row.height_of_written h
  · rintro _ ⟨⟩
    rw [(Row.of_written h).1]
    exact hd

/-- An engine of another partition may settle a row of this partition. -/
theorem of_settle (h : row.settle = .ok row') (hrow : row.source.partition ≠ p) :
  Rival p stack ⟨.other, key, some row, some row'⟩
  := by
  obtain ⟨-, rfl⟩ := Row.settle_eq_ok_iff.mp h
  apply raises
  · rfl
  · rintro _ ⟨⟩
    exact hrow

/-- An engine of another partition may put back the row that its delta was applied to. -/
theorem of_undone (h : Row.written row? d = .ok row') (hd : d.source.partition ≠ p) :
  Rival p (some row' :: row? :: beneath) ⟨.other, key, some row', row?⟩
  := by
  obtain ⟨hsource, hsettled⟩ := Row.of_written h
  apply retracts
  · exact ⟨by simp [hsettled], hsource ▸ hd⟩
  · exact (Row.height_of_written h).symm
  · rintro _ ⟨⟩
    rfl

end Change.Rival

/-- All that others do to the row of the address, is what engines of other partitions do. -/
abbrev Rivals (rows : Table Address Row) (p : Partition) (key : Address) : List Entry → Prop :=
  EachChange fun before c => c.agent = .other → c.key = key → c.Rival p (pile rows before key)

/-- All that the loops do to the row of the address, is to put rows over it. -/
abbrev LoopsRaise (key : Address) : List Entry → Prop :=
  EachChange fun _ c => c.agent ≠ .other → c.key = key → c.Raises

/-- What a change makes of a pile. -/
inductive Piled (p : Partition) (c : Change) : List (Option Row) → List (Option Row) → Prop
  /-- A row is put on top. -/
  | raised {beneath : List (Option Row)} (hraises : c.Raises)
      (hforeign : c.agent = .other → ∀ row ∈ c.after, row.source.partition ≠ p) :
      Piled p c (c.before :: beneath) (c.after :: c.before :: beneath)
  /-- The row on top is taken away. -/
  | uncovered {beneath : List (Option Row)} (hheld : Held p c.before) (hother : c.agent = .other)
      (hlowers : c.Lowers) : Piled p c (c.before :: c.after :: beneath) (c.after :: beneath)
  /-- The last row of the pile is taken away. -/
  | sunk (hheld : Held p c.before) (hother : c.agent = .other) (hlowers : c.Lowers) :
      Piled p c [c.before] [c.after]

/-- Every change of the row makes of the pile what it may. -/
theorem piled_of_change (hcoherent : Coherent rows (journal ++ [.change c]))
    (hrivals : Rivals rows p c.key (journal ++ [.change c]))
    (hraise : LoopsRaise c.key (journal ++ [.change c])) :
  Piled p c (pile rows journal c.key) (pile rows (journal ++ [.change c]) c.key)
  := by
  have hbefore := (hcoherent journal (.change c) [] rfl).1
  obtain ⟨beneath, hpile⟩ := exists_pile_eq rows journal c.key
  rw [← hbefore] at hpile
  rw [pile_change, hpile]
  by_cases hother : c.agent = .other
  · have hrival := hrivals journal c [] rfl hother rfl
    rw [hpile] at hrival
    cases hrival with
    | raises hraises hforeign =>
        rw [if_pos hraises]
        exact .raised hraises fun _ => hforeign
    | retracts hheld hlowers hback =>
        rw [if_neg hlowers.not_raises]
        cases beneath with
        | nil => exact .sunk hheld hother hlowers
        | cons row? beneath =>
            obtain rfl : c.after = row? := hback row? rfl
            exact .uncovered hheld hother hlowers
  · have hraises := hraise journal c [] rfl hother rfl
    rw [if_pos hraises]
    exact .raised hraises fun h => absurd h hother

/-! ### Heights -/

/-- Every row of the pile is higher than those beneath it. -/
abbrev Descending (pile : List (Option Row)) : Prop := pile.Pairwise fun a b => height b < height a

variable {pile₁ pile₂ : List (Option Row)} {row? : Option Row}

theorem Piled.descending (h : Piled p c pile₁ pile₂) (hdescending : Descending pile₁) :
  Descending pile₂
  := by
  cases h with
  | raised hraises =>
      apply List.Pairwise.cons _ hdescending
      intro row? hrow
      rw [hraises]
      rcases List.mem_cons.mp hrow with rfl | hrow
      · exact Nat.lt_succ_self _
      · exact Nat.lt_succ_of_lt (List.rel_of_pairwise_cons hdescending hrow)
  | uncovered => exact hdescending.of_cons
  | sunk => exact List.pairwise_singleton _ _

/-- In a descending pile no row beneath has the height of the one on top. -/
theorem Descending.eq_of_height {top : Option Row} (h : Descending (top :: pile₁))
    (hrow : row? ∈ top :: pile₁) (hheight : height top = height row?) :
  top = row?
  := by
  rcases List.mem_cons.mp hrow with rfl | hrow
  · rfl
  · have hlt := List.rel_of_pairwise_cons h hrow
    exact absurd hheight (Nat.ne_of_gt hlt)

/-- The pile of an address is descending at any time. -/
theorem descending_pile (hcoherent : Coherent rows journal) (hrivals : Rivals rows p key journal)
    (hraise : LoopsRaise key journal) :
  Descending (pile rows journal key)
  := by
  induction journal using List.reverseRecOn with
  | nil => exact List.pairwise_singleton _ _
  | append_singleton journal e ih =>
      have hbefore := ih hcoherent.left hrivals.left hraise.left
      cases e with
      | call c =>
          rw [pile_call]
          exact hbefore
      | change c =>
          by_cases hkey : c.key = key
          · subst hkey
            exact (piled_of_change hcoherent hrivals hraise).descending hbefore
          · rw [pile_change_of_ne hkey]
            exact hbefore

/-! ### A row that was read -/

/-- None but others have changed the row of the address. -/
def OnlyOthers (key : Address) (journal : List Entry) : Prop :=
  ∀ c ∈ changesAt journal key, c.agent = .other

theorem onlyOthers_nil :
  OnlyOthers key []
  := by
  simp [OnlyOthers]

theorem onlyOthers_call (c : PortCall) :
  OnlyOthers key [.call c]
  := by
  simp [OnlyOthers]

theorem OnlyOthers.left {later : List Entry} (h : OnlyOthers key (journal ++ later)) :
  OnlyOthers key journal
  := fun c hc => h c (by simp [hc])

theorem OnlyOthers.append {later : List Entry} (h : OnlyOthers key journal)
    (hlater : OnlyOthers key later) :
  OnlyOthers key (journal ++ later)
  := by
  intro c hc
  rw [changesAt_append] at hc
  exact (List.mem_append.mp hc).elim (h c) (hlater c)

/-- Others have taken away the row, which was held under another partition. -/
def TakenAway (p : Partition) (row? : Option Row) (key : Address) (later : List Entry) : Prop :=
  Held p row? ∧ ∃ c ∈ changesAt later key, c.agent = .other ∧ c.before = row? ∧ c.Lowers

theorem TakenAway.append {later : List Entry} (h : TakenAway p row? key later)
    (more : List Entry) :
  TakenAway p row? key (later ++ more)
  := by
  obtain ⟨hheld, c, hc, hlowers⟩ := h
  exact ⟨hheld, c, by simp [hc], hlowers⟩

/-- What is known of the pile while none but others change a row that was read. -/
structure Kept (p : Partition) (row? : Option Row) (key : Address) (later : List Entry)
    (pile : List (Option Row)) : Prop where
  /-- What is higher than the row that was read, others have put there. -/
  foreign : ∀ row?' ∈ pile, height row? < height row?' → ∀ row ∈ row?', row.source.partition ≠ p
  /-- A row higher than the one read has others beneath it. -/
  shallow : ∀ top ∈ pile.head?, height top < height row? + pile.length
  /-- The row that was read is in the pile, unless it has been taken away. -/
  kept : row? ∈ pile ∨ TakenAway p row? key later

theorem Kept.append {later : List Entry} (h : Kept p row? key later pile₁) (more : List Entry) :
  Kept p row? key (later ++ more) pile₁
  := ⟨h.foreign, h.shallow, h.kept.imp_right fun htaken => htaken.append more⟩

/-- When a row has just been read, it is on top of the pile. -/
theorem kept_of_top {beneath : List (Option Row)} (h : Descending (row? :: beneath)) :
  Kept p row? key [] (row? :: beneath)
  := by
  constructor
  · intro row?' hrow hhigher
    rcases List.mem_cons.mp hrow with rfl | hrow
    · exact absurd hhigher (Nat.lt_irrefl _)
    · exact absurd hhigher (Nat.lt_asymm (List.rel_of_pairwise_cons h hrow))
  · rintro _ ⟨⟩
    rw [List.length_cons]
    omega
  · exact .inl (.head _)

/-- A change that others make keeps what is known. -/
theorem Piled.kept {later : List Entry} (h : Piled p c pile₁ pile₂) (hother : c.agent = .other)
    (hkept : Kept p row? c.key later pile₁) :
  Kept p row? c.key (later ++ [.change c]) pile₂
  := by
  obtain ⟨hforeign, hshallow, hin⟩ := hkept
  have htaken : ∀ {beneath : List (Option Row)}, Held p c.before → c.Lowers →
      row? ∈ c.before :: beneath ∨ TakenAway p row? c.key later →
      row? ∈ beneath ∨ TakenAway p row? c.key (later ++ [.change c]) := by
    intro beneath hheld hlowers hin
    rcases hin with hin | htaken
    · rcases List.mem_cons.mp hin with rfl | hin
      · exact .inr ⟨hheld, c, by simp, hother, rfl, hlowers⟩
      · exact .inl hin
    · exact .inr (htaken.append _)
  cases h with
  | @raised beneath hraises hnew =>
      have htop := hshallow _ rfl
      constructor
      · intro row?' hrow
        rcases List.mem_cons.mp hrow with rfl | hrow
        · exact fun _ => hnew hother
        · exact hforeign row?' hrow
      · rintro _ ⟨⟩
        rw [hraises, List.length_cons]
        omega
      · exact hin.imp (List.mem_cons_of_mem _) fun htaken => htaken.append _
  | @uncovered beneath hheld _ hlowers =>
      have htop := hshallow _ rfl
      constructor
      · exact fun row?' hrow => hforeign row?' (List.mem_cons_of_mem _ hrow)
      · rintro _ ⟨⟩
        rw [← hlowers, List.length_cons] at htop
        omega
      · exact htaken hheld hlowers hin
  | sunk hheld _ hlowers =>
      have htop := hshallow _ rfl
      rw [← hlowers, List.length_singleton] at htop
      constructor
      · intro row?' hrow hhigher
        rw [List.mem_singleton.mp hrow] at hhigher
        omega
      · rintro _ ⟨⟩
        rw [List.length_singleton]
        omega
      · rcases htaken hheld hlowers hin with hin | htaken
        · cases hin
        · exact .inr htaken

/-- While none but others change a row that was read, what is known of the pile is kept. -/
theorem kept_of_onlyOthers {front later : List Entry}
    (hcoherent : Coherent rows (front ++ later)) (hrivals : Rivals rows p key (front ++ later))
    (hraise : LoopsRaise key (front ++ later)) (hread : rowAfter rows front key = row?)
    (hothers : OnlyOthers key later) :
  Kept p row? key later (pile rows (front ++ later) key)
  := by
  induction later using List.reverseRecOn with
  | nil =>
      rw [List.append_nil] at hcoherent hrivals hraise ⊢
      have hdescending := descending_pile hcoherent hrivals hraise
      obtain ⟨beneath, hpile⟩ := exists_pile_eq rows front key
      rw [hread] at hpile
      rw [hpile] at hdescending ⊢
      exact kept_of_top hdescending
  | append_singleton later e ih =>
      rw [← List.append_assoc] at hcoherent hrivals hraise ⊢
      have hbefore := ih hcoherent.left hrivals.left hraise.left hothers.left
      cases e with
      | call c =>
          rw [pile_call]
          exact hbefore.append _
      | change c =>
          by_cases hkey : c.key = key
          · subst hkey
            apply (piled_of_change hcoherent hrivals hraise).kept _ hbefore
            exact hothers c (by simp)
          · rw [pile_change_of_ne hkey]
            exact hbefore.append _

/-- While none but others change a row that was read, a row of its height is this row, unless it
has been taken away. -/
theorem eq_or_takenAway {front later : List Entry}
    (hcoherent : Coherent rows (front ++ later)) (hrivals : Rivals rows p key (front ++ later))
    (hraise : LoopsRaise key (front ++ later)) (hread : rowAfter rows front key = row?)
    (hothers : OnlyOthers key later)
    (hheight : height (rowAfter rows (front ++ later) key) = height row?) :
  rowAfter rows (front ++ later) key = row? ∨ TakenAway p row? key later
  := by
  have hdescending := descending_pile hcoherent hrivals hraise
  have hkept := kept_of_onlyOthers hcoherent hrivals hraise hread hothers
  obtain ⟨beneath, hpile⟩ := exists_pile_eq rows (front ++ later) key
  rw [hpile] at hdescending hkept
  exact hkept.kept.imp_left fun hrow => hdescending.eq_of_height hrow hheight

/-- While none but others change a row that was read, a row that is higher is one of theirs. -/
theorem foreign_of_height_lt {front later : List Entry} {row : Row}
    (hcoherent : Coherent rows (front ++ later)) (hrivals : Rivals rows p key (front ++ later))
    (hraise : LoopsRaise key (front ++ later)) (hread : rowAfter rows front key = row?)
    (hothers : OnlyOthers key later) (hrow : rowAfter rows (front ++ later) key = some row)
    (hheight : height row? < height (some row)) :
  row.source.partition ≠ p
  := by
  have hkept := kept_of_onlyOthers hcoherent hrivals hraise hread hothers
  obtain ⟨beneath, hpile⟩ := exists_pile_eq rows (front ++ later) key
  rw [hpile, hrow] at hkept
  exact hkept.foreign _ (.head _) hheight row rfl

end ChainLedger
