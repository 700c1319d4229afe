import ChainLedger.Proofs.Course
import ChainLedger.Proofs.Sessions

/-!
# Serving a consumer

A service polls until a stop is signalled, and processes what each poll has delivered before it
polls again.  So what it has done is a sequence of rounds, each of one poll and at most one batch,
and its statistics are those of the results of its batches: none is counted twice or left out,
whatever the consumer, the store and the oracle answer, and whenever the engine is shut down.
-/

namespace ChainLedger

open Prog

/-- The statistics with the result of a batch counted that was not refused. -/
def Stats.score (stats : Stats) : Except Failure Outcome → Stats
  | .ok outcome => stats.count outcome
  | .error _ => { stats with failed := stats.failed + 1 }

namespace Service

section rounds

variable {σ : Type}

/-- The results of the batches that a service has processed, poll by poll: what a poll has
delivered is processed once, before the next poll. -/
inductive Rounds (A : Surroundings serviceSignature σ) (policy : Policy) (s₀ : σ) :
    List (Except Failure Outcome) → σ → Prop
  | start : Rounds A policy s₀ [] s₀
  /-- A poll that failed, or has delivered nothing. -/
  | idle {results : List (Except Failure Outcome)} {s s' : σ}
      {answer : Except LogError (List Record)} (h : Rounds A policy s₀ results s)
      (hpoll : A s .poll (.ok answer) s') (hnone : ∀ rs, answer = .ok rs → rs = []) :
      Rounds A policy s₀ results s'
  /-- A poll, and the batch that it has delivered. -/
  | handed {results : List (Except Failure Outcome)} {result : Except Failure Outcome}
      {s s₁ s' : σ} {rs : List Record} (h : Rounds A policy s₀ results s)
      (hpoll : A s .poll (.ok (.ok rs)) s₁) (hne : rs ≠ [])
      (hexec : Exec A s₁ (ofBatch (Batch.process policy rs)) (.ok result) s') :
      Rounds A policy s₀ (results ++ [result]) s'

end rounds

/-! ### One turn -/

section turn

variable {σ : Type} {B : Surroundings batchSignature σ}
  {polls : σ → Except Fault (Except LogError (List Record)) → σ → Prop} {signalled : σ → Bool}
  {settings : Settings} {stats : Stats} {s s' : σ} {t : Turn Stats Stats}

/-- The next turn starts with the statistics, or the service is stopped with them. -/
def KeepsOn (stats : Stats) (t : Turn Stats Stats) : Prop := t = .again stats ∨ t = .stop stats

/-- What a turn of serving does after its batch. -/
def afterBatch (settings : Settings) (stats : Stats) :
    Except Failure Outcome → Step (Turn Stats Stats)
  | .error .shutDown => return .stop stats
  | .error _ => pause settings.errorBackoff { stats with failed := stats.failed + 1 }
  | .ok outcome =>
    if outcome.isReverted then pause settings.retryDelay (stats.count outcome)
    else return .again (stats.count outcome)

/-- After a batch that was not refused its result is counted, and there may be a pause. -/
theorem afterBatch_eq (settings : Settings) (stats : Stats) {result : Except Failure Outcome}
    (h : result ≠ .error .shutDown) :
  (∃ ms, afterBatch settings stats result = pause ms (stats.score result))
    ∨ afterBatch settings stats result = .done (.again (stats.score result))
  := by
  rcases result with e | outcome
  · left
    cases e with
    | shutDown => exact absurd rfl h
    | store => exact ⟨_, rfl⟩
    | log => exact ⟨_, rfl⟩
    | oracle => exact ⟨_, rfl⟩
    | mixedBatch => exact ⟨_, rfl⟩
    | workerFailed => exact ⟨_, rfl⟩
  · rw [afterBatch]
    split
    · exact .inl ⟨_, rfl⟩
    · exact .inr rfl

/-- What a turn of serving comes to. -/
inductive Served (B : Surroundings batchSignature σ)
    (polls : σ → Except Fault (Except LogError (List Record)) → σ → Prop) (signalled : σ → Bool)
    (policy : Policy) (stats : Stats) (s : σ) : Turn Stats Stats → σ → Prop
  /-- A stop was signalled. -/
  | stopped (hstop : signalled s = true) : Served B polls signalled policy stats s (.stop stats) s
  /-- There was nothing to process. -/
  | idle {s' : σ} {answer : Except LogError (List Record)} {t : Turn Stats Stats}
      (hgo : signalled s = false) (hpoll : polls s (.ok answer) s')
      (hnone : ∀ rs, answer = .ok rs → rs = []) (ht : KeepsOn stats t) :
      Served B polls signalled policy stats s t s'
  /-- A batch was refused. -/
  | refused {s₁ s' : σ} {rs : List Record} (hgo : signalled s = false)
      (hpoll : polls s (.ok (.ok rs)) s₁) (hne : rs ≠ [])
      (hexec : Exec B s₁ (Batch.process policy rs) (.ok (.error .shutDown)) s') :
      Served B polls signalled policy stats s (.stop stats) s'
  /-- A batch was processed. -/
  | processed {s₁ s' : σ} {rs : List Record} {result : Except Failure Outcome}
      {t : Turn Stats Stats} (hgo : signalled s = false) (hpoll : polls s (.ok (.ok rs)) s₁)
      (hne : rs ≠ []) (hexec : Exec B s₁ (Batch.process policy rs) (.ok result) s')
      (hresult : result ≠ .error .shutDown) (ht : KeepsOn (stats.score result) t) :
      Served B polls signalled policy stats s t s'

/-- A pause changes nothing. -/
theorem keepsOn_of_pause {ms : Nat}
    (h : Exec (ServiceAnswers B polls signalled) s (pause ms stats) (.ok t) s') :
  s' = s ∧ KeepsOn stats t
  := by
  rcases exec_bind_iff.mp h with ⟨f, -, hf⟩ | ⟨e, s₁, hask, hrest⟩
  · cases hf
  · cases exec_ask_iff.mp hask with
    | paused =>
        rcases e with _ | _
        · cases hrest
          exact ⟨rfl, .inl rfl⟩
        · cases hrest
          exact ⟨rfl, .inr rfl⟩

/-- One turn of serving. -/
theorem served_of_serve
    (h : Exec (ServiceAnswers B polls signalled) s (serve settings stats) (.ok t) s') :
  Served B polls signalled settings.policy stats s t s'
  := by
  rcases exec_bind_iff.mp h with ⟨f, -, hf⟩ | ⟨stop, s₁, hask, hrest⟩
  · cases hf
  cases exec_ask_iff.mp hask
  cases hsignal : signalled s with
  | true =>
      rw [hsignal, if_pos rfl] at hrest
      cases hrest
      exact .stopped hsignal
  | false =>
      rw [hsignal, if_neg Bool.false_ne_true] at hrest
      rcases exec_bind_iff.mp hrest with ⟨f, -, hf⟩ | ⟨answer, s₁, hpoll, hrest⟩
      · cases hf
      have hpoll := exec_poll_iff.mp hpoll
      rcases answer with e | (_ | ⟨r, rs⟩)
      · obtain ⟨rfl, ht⟩ := keepsOn_of_pause hrest
        exact .idle hsignal hpoll nofun ht
      · obtain ⟨rfl, ht⟩ := keepsOn_of_pause hrest
        refine .idle hsignal hpoll ?_ ht
        rintro _ ⟨⟩
        rfl
      · rcases exec_bind_iff.mp hrest with ⟨f, -, hf⟩ | ⟨result, s₂, hbatch, hrest⟩
        · cases hf
        have hexec := exec_ofBatch_iff.mp hbatch
        have hne : r :: rs ≠ [] := List.cons_ne_nil r rs
        by_cases hrefused : result = .error .shutDown
        · subst hrefused
          cases hrest
          exact .refused hsignal hpoll hne hexec
        · have hkeeps : s' = s₂ ∧ KeepsOn (stats.score result) t := by
            rcases result with e | outcome
            · cases e with
              | shutDown => exact absurd rfl hrefused
              | store => exact keepsOn_of_pause hrest
              | log => exact keepsOn_of_pause hrest
              | oracle => exact keepsOn_of_pause hrest
              | mixedBatch => exact keepsOn_of_pause hrest
              | workerFailed => exact keepsOn_of_pause hrest
            · change Exec _ _ (if _ then _ else _) _ _ at hrest
              split at hrest
              · exact keepsOn_of_pause hrest
              · cases hrest
                exact ⟨rfl, .inl rfl⟩
          obtain ⟨rfl, ht⟩ := hkeeps
          exact .processed hsignal hpoll hne hexec hrefused ht

theorem uses_pause {K : ServiceCall → Prop} (hpause : ∀ ms, K (.pause ms)) (ms : Nat)
    (stats : Stats) :
  (pause ms stats).Uses K
  := by
  refine ⟨hpause ms, ?_⟩
  rintro (_ | _)
  · trivial
  · trivial

/-- After its batch, a turn of serving only pauses. -/
theorem uses_afterBatch {K : ServiceCall → Prop} (hpause : ∀ ms, K (.pause ms))
    (result : Except Failure Outcome) :
  (afterBatch settings stats result).Uses K
  := by
  by_cases hrefused : result = .error .shutDown
  · rw [hrefused]
    trivial
  · rcases afterBatch_eq settings stats hrefused with ⟨ms, heq⟩ | heq
    · rw [heq]
      exact uses_pause hpause ms _
    · rw [heq]
      trivial

/-- A turn of serving starts its poll where it has found no stop signalled. -/
theorem signalled_of_comes {next : serviceSignature.Answer .poll → Step (Turn Stats Stats)}
    (h : Comes (ServiceAnswers B polls signalled) s (serve settings stats) s' (.call .poll next)) :
  signalled s' = false
  := by
  have hnever : ∀ {p : Step (Turn Stats Stats)} {s₁ : σ}, (p.Uses fun c => c ≠ ServiceCall.poll) →
      ¬ Comes (ServiceAnswers B polls signalled) s₁ p s' (.call .poll next) :=
    fun hp hcomes => (hcomes.uses hp).1 rfl
  rcases Comes.of_call h with ⟨-, hfirst⟩ | ⟨stop, s₁, hlooked, hrest⟩
  · cases hfirst
  cases hlooked
  cases hsignal : signalled s with
  | true =>
      rw [hsignal] at hrest
      exact absurd hrest (hnever trivial)
  | false =>
      rw [hsignal] at hrest
      rcases Comes.of_call hrest with ⟨rfl, -⟩ | ⟨answer, s₁, -, hrest⟩
      · exact hsignal
      · apply absurd hrest (hnever _)
        have hpause : ∀ ms, ServiceCall.pause ms ≠ .poll := nofun
        rcases answer with e | (_ | ⟨r, rs⟩)
        · exact uses_pause hpause _ _
        · exact uses_pause hpause _ _
        · change Uses _ (ofBatch (Batch.process settings.policy (r :: rs))
            >>= afterBatch settings stats)
          exact uses_bind (ofBatch_polls_not _) (uses_afterBatch hpause)

end turn

/-! ### The statistics -/

section accounts

variable {σ : Type} {P : Ports σ}
  {consumer : σ → Except Fault (Except LogError (List Record)) → σ → Prop}
  {down signalled : List Note → Bool} {settings : Settings} {policy : Policy} {stats : Stats}
  {s₀ s s' : Session σ} {results : List (Except Failure Outcome)} {result : Except Failure Outcome}

/-- Whether a batch was acknowledged. -/
def committed : Except Failure Outcome → Bool
  | .ok outcome => outcome.isCommitted
  | .error _ => false

/-- Whether a batch was undone. -/
def reverted : Except Failure Outcome → Bool
  | .ok outcome => outcome.isReverted
  | .error _ => false

/-- Whether a batch failed that was not refused. -/
def failed : Except Failure Outcome → Bool
  | .ok _ => false
  | .error e => e ≠ .shutDown

/-- The statistics of a service are those of the results of its batches.  There is one result for
each poll that has delivered records, and the records counted are those acknowledged. -/
structure Accounts (A : Surroundings serviceSignature (Session σ)) (policy : Policy)
    (s₀ s : Session σ) (results : List (Except Failure Outcome)) (stats : Stats) : Prop where
  rounds : Rounds A policy s₀ results s
  committed : stats.committed = results.countP committed
  reverted : stats.reverted = results.countP reverted
  failed : stats.failed = results.countP failed
  polls : stats.committed + stats.reverted + stats.failed + results.count (.error .shutDown)
    = s.delivered
  records : stats.records = s.acknowledged

/-- A batch of delivered records, as far as its acknowledgment goes. -/
theorem closed_of_process {rs : List Record} {r : Except Fault (Except Failure Outcome)}
    (h : Exec (P.Engine down) s (Batch.process policy rs) r s') :
  Batch.Closed rs
    (fun t => t.delivered = s.delivered ∧ t.acknowledged = s.acknowledged)
    (fun b t => t.delivered = s.delivered ∧ t.acknowledged = s.acknowledged + b.count) r s'
  := by
  refine Batch.Brackets.process ?_ ⟨rfl, rfl⟩ h
  constructor
  · rintro t c r t' hcall hc ⟨hdelivered, hacknowledged⟩
    obtain ⟨hd, ha⟩ := hcall.keeps hc
    exact ⟨hd.trans hdelivered, ha.trans hacknowledged⟩
  · rintro b t c r t' hcall hc ⟨hdelivered, hacknowledged⟩
    obtain ⟨hd, ha⟩ := hcall.keeps hc
    exact ⟨hd.trans hdelivered, ha.trans hacknowledged⟩
  · rintro t b e t' hcall ⟨hdelivered, hacknowledged⟩
    cases hcall with
    | acknowledged h =>
        obtain ⟨ports, -, rfl⟩ := h
        exact ⟨(t.delivered_note ..).trans hdelivered, (t.acknowledged_note ..).trans hacknowledged⟩
  · rintro t b t' - hcall ⟨hdelivered, hacknowledged⟩
    cases hcall with
    | acknowledged h =>
        obtain ⟨ports, -, rfl⟩ := h
        refine ⟨(t.delivered_note ..).trans hdelivered, ?_⟩
        rw [t.acknowledged_note, hacknowledged]
        rfl

/-- A poll, as far as it is counted. -/
theorem counted_of_polls {answer : Except LogError (List Record)}
    (h : Session.Polls consumer s (.ok answer) s') :
  s'.delivered = s.delivered + (if (Note.polled (.ok answer)).delivers then 1 else 0) ∧
    s'.acknowledged = s.acknowledged
  := by
  obtain ⟨ports, -, rfl⟩ := h
  exact ⟨s.delivered_note .., s.acknowledged_note ..⟩

theorem Accounts.start (A : Surroundings serviceSignature (Session σ)) (policy : Policy) (x : σ) :
  Accounts A policy ⟨x, []⟩ ⟨x, []⟩ [] {}
  := ⟨.start, rfl, rfl, rfl, rfl, rfl⟩

/-- A poll that has delivered nothing is not counted. -/
theorem Accounts.idle (h : Accounts (P.Services consumer down signalled) policy s₀ s results stats)
    {answer : Except LogError (List Record)} (hpoll : Session.Polls consumer s (.ok answer) s')
    (hnone : ∀ rs, answer = .ok rs → rs = []) :
  Accounts (P.Services consumer down signalled) policy s₀ s' results stats
  := by
  obtain ⟨hdelivered, hacknowledged⟩ := counted_of_polls hpoll
  have hidle : (Note.polled (.ok answer)).delivers = false := by
    rcases answer with e | rs
    · rfl
    · rw [hnone rs rfl]
      rfl
  rw [hidle] at hdelivered
  constructor
  · exact h.rounds.idle (.polled hpoll) hnone
  · exact h.committed
  · exact h.reverted
  · exact h.failed
  · exact h.polls.trans hdelivered.symm
  · exact h.records.trans hacknowledged.symm

/-- One more result is counted in one of the statistics, or it is that of a refused batch. -/
theorem Accounts.concat {A : Surroundings serviceSignature (Session σ)} {stats' : Stats}
    (h : Accounts A policy s₀ s results stats)
    (hrounds : Rounds A policy s₀ (results ++ [result]) s')
    (hcommitted : stats'.committed = stats.committed + if Service.committed result then 1 else 0)
    (hreverted : stats'.reverted = stats.reverted + if Service.reverted result then 1 else 0)
    (hfailed : stats'.failed = stats.failed + if Service.failed result then 1 else 0)
    (hone : (if Service.committed result then 1 else 0) + (if Service.reverted result then 1 else 0)
      + (if Service.failed result then 1 else 0) + [result].count (.error .shutDown) = 1)
    (hdelivered : s'.delivered = s.delivered + 1) (hrecords : stats'.records = s'.acknowledged) :
  Accounts A policy s₀ s' (results ++ [result]) stats'
  := by
  constructor
  · exact hrounds
  · rw [hcommitted, h.committed, List.countP_append, List.countP_singleton]
  · rw [hreverted, h.reverted, List.countP_append, List.countP_singleton]
  · rw [hfailed, h.failed, List.countP_append, List.countP_singleton]
  · have hpolls := h.polls
    rw [List.count_append]
    omega
  · exact hrecords

/-- What is delivered is counted by the result of its batch. -/
theorem Accounts.handed
    (h : Accounts (P.Services consumer down signalled) policy s₀ s results stats) {s₁ : Session σ}
    {rs : List Record} (hpoll : Session.Polls consumer s (.ok (.ok rs)) s₁) (hne : rs ≠ [])
    (hexec : Exec (P.Engine down) s₁ (Batch.process policy rs) (.ok result) s') :
  Accounts (P.Services consumer down signalled) policy s₀ s' (results ++ [result])
    (if result = .error .shutDown then stats else stats.score result)
  := by
  have hrounds := h.rounds.handed (.polled hpoll) hne (exec_ofBatch_iff.mpr hexec)
  have hrecords := h.records
  obtain ⟨hdelivered, hacknowledged⟩ := counted_of_polls hpoll
  have hdelivers : (Note.polled (.ok (.ok rs))).delivers = true := by
    cases rs with
    | nil => exact absurd rfl hne
    | cons r rs => rfl
  rw [hdelivers, if_pos rfl] at hdelivered
  generalize hr : Except.ok result = r at hexec
  cases closed_of_process hexec with
  | committed _ _ hafter =>
      obtain ⟨hd, ha⟩ := hafter
      cases hr
      refine h.concat hrounds rfl rfl rfl rfl (hd.trans hdelivered) ?_
      rw [ha, hacknowledged, ← hrecords]
      rfl
  | reverted hbefore =>
      obtain ⟨hd, ha⟩ := hbefore
      cases hr
      refine h.concat hrounds rfl rfl rfl rfl (hd.trans hdelivered) ?_
      rw [ha, hacknowledged, ← hrecords]
      rfl
  | empty hnil => exact absurd hnil hne
  | @failed e _ hbefore =>
      obtain ⟨hd, ha⟩ := hbefore
      cases hr
      have hrecords' : stats.records = s'.acknowledged := by rw [ha, hacknowledged, hrecords]
      cases e <;> exact h.concat hrounds rfl rfl rfl rfl (hd.trans hdelivered) hrecords'
  | stopped => cases hr

/-- What a turn of serving has come to is counted. -/
theorem Accounts.served {t : Turn Stats Stats}
    (h : Accounts (P.Services consumer down signalled) policy s₀ s results stats)
    (hserved : Served (P.Engine down) (Session.Polls consumer) (fun s => signalled s.notes) policy
      stats s t s') :
  (∃ results' stats', Accounts (P.Services consumer down signalled) policy s₀ s' results' stats' ∧
      KeepsOn stats' t ∧ (.error .shutDown ∈ results' → .error .shutDown ∈ results)) ∨
    t = .stop stats ∧ Accounts (P.Services consumer down signalled) policy s₀ s'
      (results ++ [.error .shutDown]) stats
  := by
  cases hserved with
  | stopped => exact .inl ⟨results, stats, h, .inr rfl, id⟩
  | idle _ hpoll hnone ht => exact .inl ⟨results, stats, h.idle hpoll hnone, ht, id⟩
  | refused _ hpoll hne hexec => exact .inr ⟨rfl, h.handed hpoll hne hexec⟩
  | @processed _ _ _ result _ _ hpoll hne hexec hresult ht =>
      have hhanded := h.handed hpoll hne hexec
      rw [if_neg hresult] at hhanded
      refine .inl ⟨results ++ [result], _, hhanded, ht, ?_⟩
      intro hmem
      rcases List.mem_append.mp hmem with hmem | hmem
      · exact hmem
      · exact absurd (List.mem_singleton.mp hmem).symm hresult

/-- However the consumer, the store and the oracle answer without stopping the service by a fault,
and whenever the engine is shut down and a stop is signalled: after each of its turns and when it
returns, the service has processed what each poll has delivered, once and before the next poll; the
batches that it has counted as committed, as reverted and as failed, and the refused one if that
has stopped it, are as many as the polls that have delivered records; and the records that it has
counted are those of the batches whose acknowledgment succeeded.  It starts no poll where a stop is
signalled. -/
theorem serves_in_rounds (P : Ports σ)
    (consumer : σ → Except Fault (Except LogError (List Record)) → σ → Prop)
    (down signalled : List Note → Bool) (settings : Settings) (x : σ) :
  (∀ s stats, Turn.Reaches (P.Services consumer down signalled) (serve settings) ⟨x, []⟩ {} s stats →
      (∃ results, Accounts (P.Services consumer down signalled) settings.policy ⟨x, []⟩ s results
          stats ∧ .error .shutDown ∉ results) ∧
        ∀ s' next, Comes (P.Services consumer down signalled) s (serve settings stats) s'
          (.call .poll next) → signalled s'.notes = false) ∧
    ∀ s stats, Turn.Returns (P.Services consumer down signalled) (serve settings) ⟨x, []⟩ {} stats s →
      ∃ results, Accounts (P.Services consumer down signalled) settings.policy ⟨x, []⟩ s results
        stats ∧ .error .shutDown ∉ results.dropLast
  := by
  have hreached : ∀ s stats, Turn.Reaches (P.Services consumer down signalled) (serve settings)
      ⟨x, []⟩ {} s stats → ∃ results, Accounts (P.Services consumer down signalled)
        settings.policy ⟨x, []⟩ s results stats ∧ .error .shutDown ∉ results := by
    intro s stats h
    refine h.keeps (J := fun s stats => ∃ results, Accounts (P.Services consumer down signalled)
      settings.policy ⟨x, []⟩ s results stats ∧ .error .shutDown ∉ results) ?_
      ⟨[], .start _ _ _, List.not_mem_nil⟩
    rintro s stats s' stats' ⟨results, haccounts, hnone⟩ hexec
    rcases haccounts.served (served_of_serve hexec)
      with ⟨results', _, haccounts', hgo | hstop, hsame⟩ | ⟨hstop, -⟩
    · cases hgo
      exact ⟨results', haccounts', fun hmem => hnone (hsame hmem)⟩
    · cases hstop
    · cases hstop
  constructor
  · intro s stats h
    refine ⟨hreached s stats h, ?_⟩
    intro s' next hcomes
    have hgo := signalled_of_comes hcomes
    exact hgo
  · rintro s stats ⟨s₁, stats₁, hreaches, hexec⟩
    obtain ⟨results, haccounts, hnone⟩ := hreached s₁ stats₁ hreaches
    rcases haccounts.served (served_of_serve hexec)
      with ⟨results', _, haccounts', hgo | hstop, hsame⟩ | ⟨hstop, haccounts'⟩
    · cases hgo
    · cases hstop
      exact ⟨results', haccounts', fun hmem => hnone (hsame ((List.dropLast_sublist _).subset hmem))⟩
    · cases hstop
      refine ⟨_, haccounts', ?_⟩
      rw [List.dropLast_concat]
      exact hnone

/-- A consumer that delivers a transfer, whenever it is polled. -/
def offersTransfer (p : Partition) (s : Site Unit)
    (r : Except Fault (Except LogError (List Record))) (s' : Site Unit) : Prop :=
  r = .ok (.ok [Batch.transfer p]) ∧ s' = s

/-- A stop is signalled as soon as a poll has delivered records. -/
def afterDelivery (notes : List Note) : Bool := 0 < notes.countP Note.delivers

/-- A transfer is processed and counted if a stop is signalled while it is. -/
theorem transfer_served :
  ∃ s, Turn.Returns ((Ports.undisturbed Batch.acceptsAll).Services
      (offersTransfer ⟨"TRANSFERS", 0⟩) (fun _ => false) afterDelivery) (serve {})
      ⟨⟨.empty, ()⟩, []⟩ {} { committed := 1, records := 1 } s ∧
    ∃ results, Accounts ((Ports.undisturbed Batch.acceptsAll).Services
        (offersTransfer ⟨"TRANSFERS", 0⟩) (fun _ => false) afterDelivery)
        (Settings.policy {}) ⟨⟨.empty, ()⟩, []⟩ s results { committed := 1, records := 1 } ∧
      .error .shutDown ∉ results.dropLast
  := by
  let A := (Ports.undisturbed Batch.acceptsAll).Services
    (offersTransfer ⟨"TRANSFERS", 0⟩) (fun _ => false) afterDelivery
  let s₀ : Session (Site Unit) := ⟨⟨.empty, ()⟩, []⟩
  let s₁ := s₀.note ⟨.empty, ()⟩ (.polled (.ok (.ok [Batch.transfer ⟨"TRANSFERS", 0⟩])))
  obtain ⟨_, s', hexec, applied, finalized, rfl⟩ :=
    Batch.exists_transfer_committed (Settings.policy {}) ⟨"TRANSFERS", 0⟩
  obtain ⟨s₂, hexec, -⟩ := hexec.simulate (Ports.simulates_engine Batch.acceptsAll) (t := s₁) rfl
  have hdelivered : s₂.delivered = 1 := by
    cases closed_of_process hexec with
    | committed _ _ h => exact h.1
  have hstop : afterDelivery s₂.notes = true := by
    rw [afterDelivery]
    change decide (0 < s₂.delivered) = true
    rw [hdelivered]
    rfl
  have hpoll : A s₀ .poll (.ok (.ok [Batch.transfer ⟨"TRANSFERS", 0⟩])) s₁ :=
    .polled ⟨_, ⟨rfl, rfl⟩, rfl⟩
  have hfirst : Exec A s₀ (serve {} {}) (.ok (.again { committed := 1, records := 1 })) s₂ :=
    .answered (.looked _) (.answered hpoll ((exec_ofBatch_iff.mpr hexec).bind (.done _ _)))
  have hsecond : Exec A s₂ (serve {} { committed := 1, records := 1 })
      (.ok (.stop { committed := 1, records := 1 })) s₂ := by
    refine .answered (.looked _) ?_
    dsimp only
    rw [hstop]
    exact .done _ _
  have hreturns : Turn.Returns A (serve {}) s₀ {} { committed := 1, records := 1 } s₂ :=
    ⟨s₂, _, .again .start hfirst, hsecond⟩
  exact ⟨s₂, hreturns, (serves_in_rounds (Ports.undisturbed Batch.acceptsAll)
    (offersTransfer ⟨"TRANSFERS", 0⟩) (fun _ => false) afterDelivery {} ⟨.empty, ()⟩).2 _ _ hreturns⟩

end accounts

end Service

end ChainLedger
