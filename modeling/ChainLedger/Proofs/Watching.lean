import ChainLedger.Proofs.Ports
import ChainLedger.Proofs.Progress
import ChainLedger.Proofs.Rely

/-!
# Watching a loop

What the loop of a delta reads and writes through ports that others use as well.  A watch
says three things of the state of the ports: that a row was read, that a certain write may be
in flight or none is, and that a write is done.  If they hold after every single call as they
should, then they hold between the turns of the loop, and its end says which of them hold.
-/

namespace ChainLedger

open Prog

variable {σ : Type}

/-- What is said of the reads and writes of a loop in a state of the ports. -/
structure Watch (σ : Type) where
  /-- The row was read. -/
  seen : Option Row → σ → Prop
  /-- No write but this one may be in flight. -/
  sent : Option Write → σ → Prop
  /-- The write is done. -/
  done : Write → σ → Prop

namespace Watch

variable {W : Watch σ} {P : Ports σ} {R : σ → σ → Prop} {policy : Policy} {d : Delta}
  {s s' : σ}

/-- What is to hold after a read of the row while a write may be in flight: a row that is
the outcome of the write shows that it is done, and any other row that it is not. -/
def AfterRead (W : Watch σ) (d : Delta) (w? : Option Write) :
    Except Fault (Timed (Option Row)) → σ → Prop
  | .ok (.answered (.ok row?)), s =>
    (∀ w ∈ w?, ∀ row ∈ row?, Apply.Landed d w row → W.done w s) ∧
      ((∀ w ∈ w?, ∀ row ∈ row?, ¬ Apply.Landed d w row) → W.sent none s ∧ W.seen row? s)
  | _, s => W.sent w? s

/-- What is to hold after a write: it is done, or did nothing, or may be in flight. -/
def AfterWrite (W : Watch σ) (w : Write) : Except Fault (Timed Bool) → σ → Prop
  | .ok (.answered (.ok true)), s => W.done w s
  | .ok (.answered (.ok false)), s => W.sent none s
  | _, s => W.sent (some w) s

/-- The watch is right about a loop of the delta that may rely on `R`. -/
structure Sound (W : Watch σ) (P : Ports σ) (R : σ → σ → Prop) (d : Delta) : Prop where
  /-- The others leave what was seen. -/
  seen : ∀ {s s' row?}, R s s' → W.seen row? s → W.seen row? s'
  /-- The others leave what was sent. -/
  sent : ∀ {s s' w?}, R s s' → W.sent w? s → W.sent w? s'
  /-- The others leave what is done. -/
  done : ∀ {s s' w}, R s s' → W.done w s → W.done w s'
  /-- A row that was read is one of the delta's address. -/
  key : ∀ {s row}, W.seen (some row) s → row.key = d.key
  /-- The oracle changes nothing more than the others may. -/
  latestOffset : ∀ {s p r s'}, P.latestOffset s p r s' → R s s'
  find : ∀ {s w? r s'}, W.sent w? s → P.store .loop s (.find d.key) r s' →
    W.AfterRead d w? r s'
  insert : ∀ {s r s'}, W.sent none s → W.seen none s →
    P.store .loop s (.insert (Row.ofDelta d)) r s' →
    W.AfterWrite { key := d.key, previous := none, version := 0, forced := false } r s'
  update : ∀ {s row row' forced r s'}, W.sent none s → W.seen (some row) s →
    ¬ row.Reflects d.source → row.apply d = .ok row' →
    P.store .loop s (.update row' row.version) r s' →
    W.AfterWrite { key := d.key, previous := some row, version := row'.version, forced } r s'

/-- What holds between two turns of the loop. -/
def Between (W : Watch σ) (t : Apply.State) (s : σ) : Prop :=
  W.sent t.inFlight s ∧ ∀ row?, t.seen = some row? → t.inFlight = none ∧ W.seen row? s

/-- How the loop may end. -/
inductive Ends (W : Watch σ) (d : Delta) (s : σ) : JobEnd Apply.Result → Prop
  /-- The delta is written. -/
  | applied {w : Write} (hdone : W.done w s) : Ends W d s (.finished (.ok (.applied w)))
  /-- A row was read that counts the delta. -/
  | alreadyApplied {row : Row} (hsent : W.sent none s) (hseen : W.seen (some row) s)
      (hreflects : row.Reflects d.source) :
      Ends W d s (.finished (.ok (.alreadyApplied d.key row.version row.settled)))
  /-- The address is locked. -/
  | locked {reason : LockReason} (hsent : W.sent none s) :
      Ends W d s (.finished (.ok (.locked d.key reason)))
  /-- The loop failed, or was stopped by a fault. -/
  | failed {e : JobEnd Apply.Result} {w? : Option Write} (he : Apply.Failed e)
      (hsent : W.sent w? s) : Ends W d s e

/-- A loop that has come to an ending has not failed. -/
theorem not_failed {e : Ending} :
  ¬ Apply.Failed (.finished (.ok e))
  := by
  rintro (he | ⟨f, he⟩)
  · cases he
  · cases he

/-- The write of a loop that has applied its delta is done. -/
theorem Ends.done {w : Write} (h : W.Ends d s (.finished (.ok (.applied w)))) :
  W.done w s
  := by
  cases h with
  | applied hdone => exact hdone
  | failed he => exact absurd he not_failed

/-- A loop ends at the address of its delta. -/
theorem Ends.key {e : Ending} (hkey : ∀ w, W.done w s → w.key = d.key)
    (h : W.Ends d s (.finished (.ok e))) :
  e.key = d.key
  := by
  cases h with
  | applied hdone => exact hkey _ hdone
  | alreadyApplied => rfl
  | locked => rfl
  | failed he => exact absurd he not_failed

/-- What is to hold after a turn of the loop. -/
abbrev Goes (W : Watch σ) (d : Delta) : Except Fault (Turn Apply.State Apply.Result) → σ → Prop :=
  Apply.Goes W.Between fun e s => W.Ends d s e

/-- The end of a call is an answer, or it is none. -/
theorem answered_or_unanswered {α : Type} (r : Except Fault (Timed α)) :
  (∃ a, r = .ok (.answered (.ok a))) ∨ Unanswered r
  := by
  rcases r with f | (e | a) | _
  · exact .inr fun a h => by cases h
  · exact .inr fun a h => by cases h
  · exact .inl ⟨a, rfl⟩
  · exact .inr fun a h => by cases h

theorem AfterRead.of {w? : Option Write} {r : Except Fault (Timed (Option Row))}
    (hdone : ∀ row?, r = .ok (.answered (.ok row?)) →
      ∀ w ∈ w?, ∀ row ∈ row?, Apply.Landed d w row → W.done w s)
    (hother : ∀ row?, r = .ok (.answered (.ok row?)) →
      (∀ w ∈ w?, ∀ row ∈ row?, ¬ Apply.Landed d w row) → W.sent none s ∧ W.seen row? s)
    (hnone : Unanswered r → W.sent w? s) :
  W.AfterRead d w? r s
  := by
  rcases answered_or_unanswered r with ⟨row?, rfl⟩ | hr
  · exact ⟨hdone row? rfl, hother row? rfl⟩
  · rcases r with f | (e | row?) | _
    · exact hnone hr
    · exact hnone hr
    · exact absurd rfl (hr row?)
    · exact hnone hr

theorem AfterWrite.of {w : Write} {r : Except Fault (Timed Bool)}
    (hdone : r = .ok (.answered (.ok true)) → W.done w s)
    (hrefused : r = .ok (.answered (.ok false)) → W.sent none s)
    (hnone : Unanswered r → W.sent (some w) s) :
  W.AfterWrite w r s
  := by
  rcases answered_or_unanswered r with ⟨(_ | _), rfl⟩ | hr
  · exact hrefused rfl
  · exact hdone rfl
  · rcases r with f | (e | (_ | _)) | _
    · exact hnone hr
    · exact hnone hr
    · exact absurd rfl (hr false)
    · exact absurd rfl (hr true)
    · exact hnone hr

/-! ### Triples of the calls -/

section Calls

variable {β : Type} {Q : Except Fault β → σ → Prop}

/-- A loop program that starts with a store call. -/
theorem ensures_store {c : StoreCall} {k : Except StoreError c.Answer → Prog applySignature β}
    (h : ∀ s₁ r s', R s s₁ → P.store .loop s₁ c r s' →
      Follows (After R P.Loops) k Q (heard r) s') :
  Ensures (After R P.Loops) s (Apply.store policy c >>= k) Q
  := by
  apply ensures_call
  rintro r s' ⟨s₁, hs, hcall⟩
  cases hcall with
  | store hcall =>
      have hheard := h s₁ r s' hs hcall
      cases r with
      | ok a => exact hheard
      | error f => exact hheard

/-- A loop program that starts by asking the oracle. -/
theorem ensures_latestOffset {p : Partition}
    {k : Except OracleError (Option Nat) → Prog applySignature β}
    (h : ∀ s₁ r s', R s s₁ → P.latestOffset s₁ p r s' → Follows (After R P.Loops) k Q r s') :
  Ensures (After R P.Loops) s (Prog.ask (S := applySignature) (.latestOffset p) >>= k) Q
  := by
  apply ensures_call
  rintro r s' ⟨s₁, hs, hcall⟩
  cases hcall with
  | latestOffset hcall =>
      have hfollows := h s₁ r s' hs hcall
      cases r with
      | ok a => exact hfollows
      | error f => exact hfollows

/-- A loop program that starts by waiting. -/
theorem ensures_wait {ms : Nat} {k : Unit → Prog applySignature β}
    (h : ∀ s', R s s' → Ensures (After R P.Loops) s' (k ()) Q) :
  Ensures (After R P.Loops) s (Prog.ask (S := applySignature) (.wait ms) >>= k) Q
  := by
  apply ensures_call
  rintro r s' ⟨s₁, hs, hcall⟩
  cases hcall with
  | waited => exact h _ hs

end Calls

/-! ### The turns -/

variable {t : Apply.State}

/-- After a store failure the loop goes on with the write that may be in flight, or ends. -/
theorem retry_spec {e : StoreError} {w? : Option Write} (h : W.sent w? s) :
  Ensures (After R P.Loops) s (Apply.retry policy t e w?) (W.Goes d)
  := by
  rw [Apply.retry]
  split
  · apply ensures_done
    refine ⟨h, ?_⟩
    rintro row? ⟨⟩
  · apply ensures_done
    exact .failed (.inr ⟨_, rfl⟩) h

/-- A store call that is not answered stops the loop or leads to another turn. -/
theorem follows_of_unanswered {c : StoreCall} {k : Except StoreError c.Answer → Apply.Step}
    {w? : Option Write} {r : Except Fault (Timed c.Answer)} (hr : Unanswered r)
    (hk : ∀ e, k (.error e) = Apply.retry policy t e w?) (h : W.sent w? s) :
  Follows (After R P.Loops) k (W.Goes d) (heard r) s
  := by
  apply Follows.of_fails (fails_heard hr)
  · intro f
    exact .failed (.inl rfl) h
  · intro e
    rw [hk]
    exact retry_spec h

/-- After a read without an answer the write is still all that may be in flight. -/
theorem AfterRead.sent {w? : Option Write} {r : Except Fault (Timed (Option Row))}
    (h : W.AfterRead d w? r s) (hr : Unanswered r) :
  W.sent w? s
  := by
  rcases r with f | (e | row?) | _
  · exact h
  · exact h
  · exact absurd rfl (hr row?)
  · exact h

/-- After a write without an answer the write may be in flight. -/
theorem AfterWrite.sent {w : Write} {r : Except Fault (Timed Bool)} (h : W.AfterWrite w r s)
    (hr : Unanswered r) :
  W.sent (some w) s
  := by
  rcases r with f | (e | (_ | _)) | _
  · exact h
  · exact h
  · exact absurd rfl (hr false)
  · exact absurd rfl (hr true)
  · exact h

/-- A turn that reads. -/
theorem Sound.read (hW : W.Sound P R d) (h : W.sent t.inFlight s) :
  Ensures (After R P.Loops) s (Apply.read policy d t) (W.Goes d)
  := by
  rw [Apply.read]
  apply ensures_store
  intro s₁ r s' hs hcall
  have hread := hW.find (hW.sent hs h) hcall
  rcases answered_or_unanswered r with ⟨row?, rfl⟩ | hr
  · obtain ⟨hlanded, hother⟩ := hread
    have hgoon : (∀ w ∈ t.inFlight, ∀ row ∈ row?, ¬ Apply.Landed d w row) →
        W.Between { t with inFlight := none, seen := some row? } s' := by
      intro hnot
      obtain ⟨hsent, hseen⟩ := hother hnot
      refine ⟨hsent, ?_⟩
      rintro _ ⟨⟩
      exact ⟨rfl, hseen⟩
    dsimp only [heard, Except.map, Timed.result, Follows]
    split
    · next w row hflight =>
        split
        · next hl =>
            apply ensures_done
            exact .applied (hlanded w hflight row rfl hl)
        · next hl =>
            apply ensures_done
            apply hgoon
            intro w' hw' row' hrow'
            obtain rfl := Option.some.inj (hflight.symm.trans hw')
            obtain rfl := Option.some.inj hrow'
            exact hl
    · next hnone =>
        apply ensures_done
        apply hgoon
        intro w hw row hrow
        exact absurd hrow (hnone w row hw)
  · exact follows_of_unanswered hr (fun _ => rfl) (hread.sent hr)

/-- A turn that makes the first row. -/
theorem Sound.insert_spec (hW : W.Sound P R d) (h : W.sent none s) (hseen : W.seen none s)
    (hflight : t.inFlight = none) :
  Ensures (After R P.Loops) s (Apply.insert policy d t) (W.Goes d)
  := by
  rw [Apply.insert]
  apply ensures_store
  intro s₁ r s' hs hcall
  have hwrite := hW.insert (hW.sent hs h) (hW.seen hs hseen) hcall
  rcases answered_or_unanswered r with ⟨(_ | _), rfl⟩ | hr
  · apply ensures_done
    refine ⟨?_, ?_⟩
    · change W.sent t.inFlight s'
      rw [hflight]
      exact hwrite
    · rintro _ ⟨⟩
  · apply ensures_done
    exact .applied hwrite
  · exact follows_of_unanswered hr (fun _ => rfl) (hwrite.sent hr)

/-- A turn that replaces the row read. -/
theorem Sound.replace (hW : W.Sound P R d) {row : Row} {forced : Bool} (h : W.sent none s)
    (hseen : W.seen (some row) s) (hnew : ¬ row.Reflects d.source) (hflight : t.inFlight = none) :
  Ensures (After R P.Loops) s (Apply.replace policy d t row forced) (W.Goes d)
  := by
  rw [Apply.replace]
  cases hupdated : row.apply d with
  | error o =>
      apply ensures_crash
      exact .failed (.inl rfl) h
  | ok row' =>
      change Ensures _ _ (Apply.store policy (.update row' row.version) >>= _) _
      apply ensures_store
      intro s₁ r s' hs hcall
      have hwrite : W.AfterWrite
          { key := d.key, previous := some row, version := row'.version, forced } r s' :=
        hW.update (hW.sent hs h) (hW.seen hs hseen) hnew hupdated hcall
      rcases answered_or_unanswered r with ⟨(_ | _), rfl⟩ | hr
      · change Ensures _ _ (if _ then _ else _) _
        split
        · apply ensures_done
          exact .locked hwrite
        · apply ensures_done
          refine ⟨?_, ?_⟩
          · change W.sent t.inFlight s'
            rw [hflight]
            exact hwrite
          · rintro _ ⟨⟩
      · apply ensures_done
        exact .applied hwrite
      · exact follows_of_unanswered hr (fun _ => rfl) (hwrite.sent hr)

/-- A turn that waits for a row, writes over it or gives it up. -/
theorem Sound.contend (hW : W.Sound P R d) {row : Row} (h : W.sent none s)
    (hseen : W.seen (some row) s) (hnew : ¬ row.Reflects d.source) (hflight : t.inFlight = none) :
  Ensures (After R P.Loops) s (Apply.contend policy d t row) (W.Goes d)
  := by
  rw [Apply.contend]
  split
  · apply ensures_wait
    intro s' hs
    apply ensures_done
    refine ⟨?_, ?_⟩
    · change W.sent t.inFlight s'
      rw [hflight]
      exact hW.sent hs h
    · rintro _ ⟨⟩
  · apply ensures_latestOffset
    intro s₁ r s' hs hcall
    have hsent := hW.sent (hW.latestOffset hcall) (hW.sent hs h)
    have hseen := hW.seen (hW.latestOffset hcall) (hW.seen hs hseen)
    rcases r with f | (e | committed)
    · exact .failed (.inl rfl) hsent
    · apply ensures_done
      exact .failed (.inr ⟨_, rfl⟩) hsent
    · change Ensures _ _ (if _ then _ else _) _
      split
      · exact hW.replace hsent hseen hnew hflight
      · apply ensures_done
        exact .locked hsent

/-- Every turn keeps the watch. -/
theorem Sound.turn (hW : W.Sound P R d) (h : W.Between t s) :
  Ensures (After R P.Loops) s (Apply.turn policy d t) (W.Goes d)
  := by
  obtain ⟨hsent, hseen⟩ := h
  rw [Apply.turn]
  cases hrow : t.seen with
  | none => exact hW.read hsent
  | some row? =>
      obtain ⟨hflight, hseen⟩ := hseen row? hrow
      rw [hflight] at hsent
      cases row? with
      | none => exact hW.insert_spec hsent hseen hflight
      | some row =>
          dsimp only [Standing.of]
          by_cases hopen : row.settled ∨ row.SameOrigin d.source
          · simp only [hopen, if_true]
            split
            · next hreflects =>
                apply ensures_done
                exact .alreadyApplied hsent hseen hreflects
            · next hnew => exact hW.replace hsent hseen hnew hflight
          · simp only [hopen, if_false]
            have hnew : ¬ row.Reflects d.source := fun h => hopen (.inr h.1)
            exact hW.contend hsent hseen hnew hflight

/-- A sound watch is an invariant of the loop. -/
theorem Sound.invariant (hW : W.Sound P R d) :
  Apply.Invariant P.Loops R policy d W.Between fun e s => W.Ends d s e
  := by
  constructor
  · rintro t s s' hs ⟨hsent, hseen⟩
    refine ⟨hW.sent hs hsent, ?_⟩
    intro row? hrow
    obtain ⟨hflight, hseen⟩ := hseen row? hrow
    exact ⟨hflight, hW.seen hs hseen⟩
  · intro e s s' hs hends
    cases hends with
    | applied hdone => exact .applied (hW.done hs hdone)
    | alreadyApplied hsent hseen hreflects =>
        exact .alreadyApplied (hW.sent hs hsent) (hW.seen hs hseen) hreflects
    | locked hsent => exact .locked (hW.sent hs hsent)
    | failed he hsent => exact .failed he (hW.sent hs hsent)
  · intro t s row hbetween hrow
    exact hW.key (hbetween.2 _ hrow).2
  · intro t s hbetween
    exact hW.turn hbetween

end Watch

/-- The jobs of a batch, each under a sound watch, end as their watches say. -/
theorem Completes.watched {P : Ports σ} {R : Address → σ → σ → Prop} {policy : Policy}
    {W : Job → Watch σ} {jobs : List Job} {ends : List (JobEnd Apply.Result)} {s s' : σ}
    (hR : Rely P.Loops R) (hW : ∀ j ∈ jobs, (W j).Sound P (R j.delta.key) j.delta)
    (hnodup : (jobs.map (·.delta.key)).Nodup)
    (hstart : ∀ j ∈ jobs, (W j).sent none s ∧ (W j).seen j.row? s)
    (h : Completes P.Loops policy jobs s ends s') :
  List.Forall₂ (fun j e => (W j).Ends j.delta s' e) jobs ends
    ∧ ∀ key, key ∉ jobs.map (·.delta.key) → R key s s'
  := by
  apply h.stay (I := fun j => (W j).Between) (E := fun j e s => (W j).Ends j.delta s e) hR _
    hnodup
  · intro j hj
    refine ⟨(hstart j hj).1, ?_⟩
    rintro _ ⟨⟩
    exact ⟨rfl, (hstart j hj).2⟩
  · intro j hj
    exact (hW j hj).invariant

/-! ### One loop -/

section OneLoop

variable {A A' : Surroundings applySignature σ} {policy : Policy} {j : Job} {s s' : σ}

/-- A loop moves as well where more may happen. -/
theorem Task.Move.mono (hA : ∀ s c r s', A s c r s' → A' s c r s') {t t' : Task}
    (h : Task.Move A policy j s t s' t') :
  Task.Move A' policy j s t s' t'
  := by
  cases h with
  | answered hcall => exact .answered (hA _ _ _ _ hcall)
  | stopped hcall => exact .stopped (hA _ _ _ _ hcall)
  | crash => exact .crash
  | again => exact .again
  | done => exact .done

theorem Task.Path.mono (hA : ∀ s c r s', A s c r s' → A' s c r s') {x y : σ × Task}
    (h : Task.Path A policy j x y) :
  Task.Path A' policy j x y
  := Relation.ReflTransGen.mono (fun _ _ hmove => hmove.mono hA) _ _ h

/-- What holds of a loop that others interfere with: the rest of its turn keeps its invariant,
or it has ended as it should. -/
def Task.Keeps (A : Surroundings applySignature σ) (R : σ → σ → Prop)
    (I : Apply.State → σ → Prop) (E : JobEnd Apply.Result → σ → Prop) (s : σ) : Task → Prop
  | .running p => Ensures (After R A) s p (Apply.Goes I E)
  | .ended e => E e s

variable {R : σ → σ → Prop} {I : Apply.State → σ → Prop} {E : JobEnd Apply.Result → σ → Prop}

/-- A loop that moves keeps its invariant. -/
theorem Task.Move.keeps (hI : Apply.Invariant A R policy j.delta I E) {t t' : Task}
    (hmove : Task.Move (After R A) policy j s t s' t') (h : t.Keeps A R I E s) :
  t'.Keeps A R I E s'
  := by
  cases hmove with
  | answered hcall => exact Ensures.follows h hcall
  | stopped hcall => exact Ensures.follows h hcall
  | crash => exact h (.crash _ _)
  | again => exact hI.turn (h (.done _ _))
  | done => exact h (.done _ _)

/-- A loop that starts within its invariant ends as it should. -/
theorem Task.Path.ends_of_invariant (hI : Apply.Invariant A R policy j.delta I E)
    (hstart : I (.start j.row?) s) {e : JobEnd Apply.Result}
    (h : Task.Path (After R A) policy j (s, Task.start policy j) (s', .ended e)) :
  E e s'
  := by
  have hkeeps : ∀ y, Task.Path (After R A) policy j (s, Task.start policy j) y →
      y.2.Keeps A R I E y.1 := by
    intro y h
    induction h with
    | refl => exact hI.turn hstart
    | tail _ hmove ih => exact hmove.keeps hI ih
  exact hkeeps _ h

/-- A loop under a sound watch ends as the watch says. -/
theorem Watch.Sound.ends_of_path {W : Watch σ} {P : Ports σ} (hW : W.Sound P R j.delta)
    (hsent : W.sent none s) (hseen : W.seen j.row? s) {e : JobEnd Apply.Result}
    (h : Task.Path (After R P.Loops) policy j (s, Task.start policy j) (s', .ended e)) :
  W.Ends j.delta s' e
  := by
  apply h.ends_of_invariant (hW.invariant)
  refine ⟨hsent, ?_⟩
  rintro _ ⟨⟩
  exact ⟨rfl, hseen⟩

end OneLoop

end ChainLedger
