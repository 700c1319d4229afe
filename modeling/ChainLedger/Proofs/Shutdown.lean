import ChainLedger.Proofs.Serving

/-!
# Shutting an engine down

An engine that is shut down accepts no more batches.  A batch asks whether it is accepted before
anything else and not again, so once it is accepted it runs as it would in an engine that is never
shut down, whenever that happens; and a batch that comes later ends without a call.  So a turn of a
service is not disturbed either, unless it finds the engine shut down when it has polled.
-/

namespace ChainLedger

open Prog

variable {σ α : Type} {P : Ports σ}
  {consumer : σ → Except Fault (Except LogError (List Record)) → σ → Prop}
  {down down' signalled : List Note → Bool} {settings : Settings} {policy : Policy} {stats : Stats}
  {s s' : Session σ} {rs : List Record}

/-- Whether an engine is shut down makes a difference to one question only. -/
theorem Ports.engine_congr (down down' : List Note → Bool) (s : Session σ) (c : BatchCall)
    (r : Except Fault (batchSignature.Answer c)) (s' : Session σ) (hc : c ≠ .accepting) :
  P.Engine down s c r s' ↔ P.Engine down' s c r s'
  := by
  have hforth : ∀ {down down' : List Note → Bool}, P.Engine down s c r s' →
      P.Engine down' s c r s' := by
    intro down down' h
    cases h with
    | accepting => exact absurd rfl hc
    | store h => exact .store h
    | applied h => exact .applied h
    | acknowledged h => exact .acknowledged h
    | told => exact .told _ _
  exact ⟨hforth, hforth⟩

namespace Batch

/-- The question whether a batch is accepted is answered by what was noted before. -/
theorem exec_accepting_iff {r : Except Fault Bool} :
  Exec (P.Engine down) s (Prog.ask (S := batchSignature) .accepting) r s'
    ↔ r = .ok (!down s.notes) ∧ s' = s
  := by
  rw [exec_ask_iff]
  constructor
  · rintro ⟨⟩
    exact ⟨rfl, rfl⟩
  · rintro ⟨rfl, rfl⟩
    exact .accepting s'

/-- A batch that is accepted runs alike whenever the engine is shut down later. -/
theorem exec_process_congr (hs : down s.notes = false) (hs' : down' s.notes = false)
    {r : Except Fault (Except Failure Outcome)} :
  Exec (P.Engine down) s (process policy rs) r s' ↔ Exec (P.Engine down') s (process policy rs) r s'
  := by
  have hask : ∀ {down : List Note → Bool}, down s.notes = false → ∀ r t,
      Exec (P.Engine down) s (Prog.ask (S := batchSignature) .accepting) r t
        ↔ r = .ok true ∧ t = s := by
    intro down hdown r t
    rw [exec_accepting_iff, hdown]
    rfl
  rw [process, exec_bind_of (hask hs), exec_bind_of (hask hs')]
  apply exec_congr (P.engine_congr down down')
  rw [if_pos rfl]
  rcases ofRecords rs with e | (_ | b)
  · trivial
  · trivial
  · exact uses_run policy b

/-- A batch that is refused makes no call, and tells the observers nothing. -/
theorem exec_refused_iff (hs : down s.notes = true) {r : Except Fault (Except Failure Outcome)} :
  Exec (P.Engine down) s (process policy rs) r s' ↔ r = .ok (.error .shutDown) ∧ s' = s
  := by
  have hask : ∀ r t, Exec (P.Engine down) s (Prog.ask (S := batchSignature) .accepting) r t
      ↔ r = .ok false ∧ t = s := by
    intro r t
    rw [exec_accepting_iff, hs]
    rfl
  rw [process, exec_bind_of hask, if_neg Bool.false_ne_true]
  constructor
  · rintro ⟨⟩
    exact ⟨rfl, rfl⟩
  · rintro ⟨rfl, rfl⟩
    exact .done _ _

end Batch

/-! ### Turns of a service -/

namespace Service

/-- The call does not ask whether a batch is accepted. -/
def Unasking (c : ServiceCall) : Prop := c ≠ .batch .accepting

/-- Whether the engine is shut down makes a difference to one question of a service only. -/
theorem services_congr (down down' : List Note → Bool) (s : Session σ) (c : ServiceCall)
    (r : Except Fault (serviceSignature.Answer c)) (s' : Session σ) (hc : Unasking c) :
  P.Services consumer down signalled s c r s' ↔ P.Services consumer down' signalled s c r s'
  := by
  have hforth : ∀ {down down' : List Note → Bool}, P.Services consumer down signalled s c r s' →
      P.Services consumer down' signalled s c r s' := by
    intro down down' h
    cases h with
    | batch h =>
        apply ServiceAnswers.batch
        exact (P.engine_congr down down' _ _ _ _ fun heq => hc (congrArg _ heq)).mp h
    | polled h => exact .polled h
    | waited => exact .waited _ _
    | looked => exact .looked _
    | paused => exact .paused _ _ _
  exact ⟨hforth, hforth⟩

/-- A program that polls, processes what is delivered and ends with `refusal` if it is refused. -/
structure Takes (policy : Policy) (refusal : α) (k : Except LogError (List Record) → Step α) :
    Prop where
  idle : ∀ answer, (∀ rs, answer = .ok rs → rs = []) → (k answer).Uses Unasking
  batch : ∀ rs, rs ≠ [] → ∃ l, k (.ok rs) = ofBatch (Batch.process policy rs) >>= l ∧
    l (.error .shutDown) = .done refusal ∧ ∀ result, (l result).Uses Unasking

/-- After its poll such a program runs alike whenever the engine is shut down later. -/
theorem Takes.exec_congr {refusal : α} {k : Except LogError (List Record) → Step α}
    (h : Takes policy refusal k) (hs : down s.notes = false) (hs' : down' s.notes = false)
    (answer : Except LogError (List Record)) {r : Except Fault α} :
  Exec (P.Services consumer down signalled) s (k answer) r s'
    ↔ Exec (P.Services consumer down' signalled) s (k answer) r s'
  := by
  have hcongr : ∀ s c r s', Unasking c → (P.Services consumer down signalled s c r s'
      ↔ P.Services consumer down' signalled s c r s') := services_congr down down'
  by_cases hidle : ∀ rs, answer = .ok rs → rs = []
  · exact Prog.exec_congr hcongr (h.idle answer hidle)
  · push Not at hidle
    obtain ⟨rs, rfl, hne⟩ := hidle
    obtain ⟨l, hk, -, hl⟩ := h.batch rs hne
    rw [hk]
    apply exec_bind_congr
    · intro r t
      rw [exec_ofBatch_iff, exec_ofBatch_iff, Batch.exec_process_congr hs hs']
    · intro result t _ r t'
      exact Prog.exec_congr hcongr (hl result)

/-- After its poll such a program is over, without a call, if it has polled some records and the
engine is shut down by then. -/
theorem Takes.refused {refusal : α} {k : Except LogError (List Record) → Step α}
    (h : Takes policy refusal k) (hs : down s.notes = true) (hne : rs ≠ []) {r : Except Fault α}
    (hexec : Exec (P.Services consumer down signalled) s (k (.ok rs)) r s') :
  r = .ok refusal ∧ s' = s
  := by
  obtain ⟨l, hk, hl, -⟩ := h.batch rs hne
  rw [hk] at hexec
  rcases exec_bind_iff.mp hexec with ⟨f, hbatch, -⟩ | ⟨result, s₁, hbatch, hrest⟩
  · obtain ⟨hf, -⟩ := (Batch.exec_refused_iff hs).mp (exec_ofBatch_iff.mp hbatch)
    cases hf
  · obtain ⟨hresult, rfl⟩ := (Batch.exec_refused_iff hs).mp (exec_ofBatch_iff.mp hbatch)
    cases hresult
    rw [hl] at hrest
    cases hrest
    exact ⟨rfl, rfl⟩

/-- How a shutdown can meet a turn.  If the engine is not shut down when the poll of the turn has
ended, the turn runs as it does in an engine that is never shut down.  Else it may also end as
refused, with nothing called after its poll, which has delivered records. -/
structure Spared (P : Ports σ)
    (consumer : σ → Except Fault (Except LogError (List Record)) → σ → Prop)
    (down signalled : List Note → Bool) (turn : Step α) (refusal : α) : Prop where
  same : ∀ s, (∀ r, down (s.notes ++ [.polled r]) = false) → ∀ r s',
    Exec (P.Services consumer down signalled) s turn r s'
      ↔ Exec (P.Services consumer (fun _ => false) signalled) s turn r s'
  refused : ∀ s r s', Exec (P.Services consumer down signalled) s turn r s' →
    Exec (P.Services consumer (fun _ => false) signalled) s turn r s' ∨
      ∃ rs, rs ≠ [] ∧ s'.notes = s.notes ++ [.polled (.ok (.ok rs))] ∧ down s'.notes = true ∧
        r = .ok refusal

/-- A shutdown meets a program that polls and then takes what is delivered as it meets a turn. -/
theorem Takes.spared {refusal : α} {k : Except LogError (List Record) → Step α}
    (h : Takes policy refusal k) :
  Spared P consumer down signalled (poll >>= k) refusal
  := by
  constructor
  · intro s hdown r s'
    apply exec_bind_congr
    · intro r t
      rw [exec_poll_iff, exec_poll_iff]
    · intro answer t hpoll r t'
      obtain ⟨ports, -, rfl⟩ := exec_poll_iff.mp hpoll
      exact h.exec_congr (hdown _) rfl answer
  · intro s r s' hexec
    rcases exec_bind_iff.mp hexec with ⟨f, hpoll, rfl⟩ | ⟨answer, s₁, hpoll, hrest⟩
    · exact .inl (exec_bind_iff.mpr (.inl ⟨f, exec_poll_iff.mpr (exec_poll_iff.mp hpoll), rfl⟩))
    · have hpolls := exec_poll_iff.mp hpoll
      have hsame : Exec (P.Services consumer (fun _ => false) signalled) s₁ (k answer) r s' →
          Exec (P.Services consumer (fun _ => false) signalled) s (poll >>= k) r s' :=
        fun hrest => exec_bind_iff.mpr (.inr ⟨answer, s₁, exec_poll_iff.mpr hpolls, hrest⟩)
      cases hdown : down s₁.notes with
      | false => exact .inl (hsame ((h.exec_congr hdown rfl answer).mp hrest))
      | true =>
          by_cases hidle : ∀ rs, answer = .ok rs → rs = []
          · exact .inl (hsame
              ((Prog.exec_congr (services_congr down _) (h.idle answer hidle)).mp hrest))
          · push Not at hidle
            obtain ⟨rs, rfl, hne⟩ := hidle
            obtain ⟨rfl, rfl⟩ := h.refused hdown hne hrest
            obtain ⟨ports, -, rfl⟩ := hpolls
            exact .inr ⟨rs, hne, rfl, hdown, rfl⟩

/-- What is done unless a stop is signalled, is met by a shutdown as a turn is. -/
theorem Spared.unless {refusal stopped : α} {turn : Step α}
    (h : Spared P consumer down signalled turn refusal) :
  Spared P consumer down signalled
    (Prog.ask (S := serviceSignature) .stopSignalled >>= fun stop =>
      if stop then return stopped else turn) refusal
  := by
  have hlook : ∀ (down : List Note → Bool) (s : Session σ) r t,
      Exec (P.Services consumer down signalled) s
        (Prog.ask (S := serviceSignature) .stopSignalled) r t
          ↔ r = .ok (signalled s.notes) ∧ t = s := by
    intro down s r t
    rw [exec_ask_iff]
    constructor
    · rintro ⟨⟩
      exact ⟨rfl, rfl⟩
    · rintro ⟨rfl, rfl⟩
      exact .looked t
  constructor
  · intro s hdown r s'
    rw [exec_bind_of (hlook _ s), exec_bind_of (hlook _ s)]
    split
    · exact Prog.exec_congr (services_congr down _) (p := .done stopped) trivial
    · exact h.same s hdown r s'
  · intro s r s' hexec
    rw [exec_bind_of (hlook _ s)] at hexec ⊢
    split at hexec
    · next hstop =>
        rw [if_pos hstop]
        exact .inl ((Prog.exec_congr (services_congr down _) (p := .done stopped) trivial).mp hexec)
    · next hgo =>
        rw [if_neg hgo]
        exact h.refused s r s' hexec

/-- A turn of serving takes what its poll has delivered. -/
theorem spared_serve :
  Spared P consumer down signalled (serve settings stats) (.stop stats)
  := by
  apply Spared.unless
  refine Takes.spared (?_ : Takes settings.policy _ _)
  have hpause : ∀ ms, Unasking (.pause ms) := fun ms => nofun
  constructor
  · rintro (e | rs) hnone
    · exact uses_pause hpause _ _
    · rw [hnone rs rfl]
      exact uses_pause hpause _ _
  · intro rs hne
    cases rs with
    | nil => exact absurd rfl hne
    | cons r rs => exact ⟨afterBatch settings stats, rfl, rfl, uses_afterBatch hpause⟩

/-- A turn of draining takes what its poll has delivered. -/
theorem spared_drain :
  Spared P consumer down signalled (drain settings stats) (.stop (.error .shutDown))
  := by
  refine Takes.spared (?_ : Takes settings.policy _ _)
  constructor
  · rintro (e | rs) hnone
    · trivial
    · rw [hnone rs rfl]
      trivial
  · intro rs hne
    cases rs with
    | nil => exact absurd rfl hne
    | cons r rs =>
        refine ⟨_, rfl, rfl, ?_⟩
        rintro (e | outcome)
        · trivial
        · change Uses _ (if _ then _ else _)
          split
          · exact ⟨nofun, fun _ => trivial⟩
          · trivial

/-- Whatever the store, the oracle, the log and the consumer answer, and whatever was noted when
the engine is shut down: a batch that is accepted ends as it would in an engine that is never shut
down, with the same rows, the same log, the same calls and the same events; one that comes later is
refused, with no call and no event.  So a turn of serving or draining is not ended by a shutdown
unless that has happened before its batch, and then nothing is called after its poll. -/
theorem shutdown_spares_accepted (P : Ports σ)
    (consumer : σ → Except Fault (Except LogError (List Record)) → σ → Prop)
    (down signalled : List Note → Bool) (settings : Settings) (policy : Policy)
    (rs : List Record) :
  (∀ s, down s.notes = false → ∀ r s', Exec (P.Engine down) s (Batch.process policy rs) r s'
      ↔ Exec (P.Engine fun _ => false) s (Batch.process policy rs) r s') ∧
    (∀ s, down s.notes = true → ∀ r s', Exec (P.Engine down) s (Batch.process policy rs) r s'
      ↔ r = .ok (.error .shutDown) ∧ s' = s) ∧
    ∀ stats, Spared P consumer down signalled (serve settings stats) (.stop stats) ∧
      Spared P consumer down signalled (drain settings stats) (.stop (.error .shutDown))
  := by
  refine ⟨?_, ?_, ?_⟩
  · intro s hs r s'
    exact Batch.exec_process_congr hs rfl
  · intro s hs r s'
    exact Batch.exec_refused_iff hs
  · intro stats
    exact ⟨spared_serve, spared_drain⟩

/-- The engine is shut down with the first call. -/
def fromFirstCall (notes : List Note) : Bool := 0 < notes.length

/-- If the engine is shut down with its first call, a transfer is committed, and is refused when it
is delivered again. -/
theorem transfer_outlasts_shutdown :
  ∃ applied finalized s,
    Exec ((Ports.undisturbed Batch.acceptsAll).Engine fromFirstCall) ⟨⟨.empty, ()⟩, []⟩
      (Batch.process (Settings.policy {}) [Batch.transfer ⟨"TRANSFERS", 0⟩])
      (.ok (.ok (.committed (Batch.transferBatch ⟨"TRANSFERS", 0⟩).bounds applied finalized []))) s ∧
    Exec ((Ports.undisturbed Batch.acceptsAll).Engine fromFirstCall) s
      (Batch.process (Settings.policy {}) [Batch.transfer ⟨"TRANSFERS", 0⟩])
      (.ok (.error .shutDown)) s
  := by
  obtain ⟨_, s', hexec, applied, finalized, rfl⟩ :=
    Batch.exists_transfer_committed (Settings.policy {}) ⟨"TRANSFERS", 0⟩
  obtain ⟨s, hexec, -⟩ := hexec.simulate (Ports.simulates_engine Batch.acceptsAll)
    (t := ⟨⟨.empty, ()⟩, []⟩) rfl
  obtain ⟨hsame, hrefused, -⟩ := shutdown_spares_accepted (Ports.undisturbed Batch.acceptsAll)
    (offersTransfer ⟨"TRANSFERS", 0⟩) fromFirstCall afterDelivery {} (Settings.policy {})
    [Batch.transfer ⟨"TRANSFERS", 0⟩]
  have hacknowledged : s.acknowledged = 1 := by
    cases closed_of_process hexec with
    | committed _ _ h => exact h.2
  have hdown : fromFirstCall s.notes = true := by
    rw [fromFirstCall, decide_eq_true_eq, List.length_pos_iff]
    intro hnil
    rw [Session.acknowledged, hnil] at hacknowledged
    cases hacknowledged
  refine ⟨applied, finalized, s, ?_, ?_⟩
  · exact (hsame ⟨⟨.empty, ()⟩, []⟩ rfl _ _).mpr hexec
  · exact (hrefused s hdown _ _).mpr ⟨rfl, rfl⟩

end Service

end ChainLedger
