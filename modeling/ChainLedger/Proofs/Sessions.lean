import Mathlib.Algebra.GroupWithZero.Nat
import Mathlib.Algebra.Order.Group.Nat
import ChainLedger.Proofs.Acknowledging
import ChainLedger.Proofs.Calls

/-!
# What is noted of a service

The store, the oracle and the log may answer as any ports do, and a consumer may deliver anything.
Every call of theirs is noted with its end, and so is every event that the observers are told.
Whether the engine is shut down, and whether a stop is signalled, is up to the notes that there are
at the time: since they may decide in any way, the engine may be shut down and a stop may be
signalled between any two of them.
-/

namespace ChainLedger

open Prog

/-- What is noted of a service. -/
inductive Note
  /-- A call of the store, the oracle or the log, with its end. -/
  | call (c : PortCall)
  /-- The end of a poll. -/
  | polled (r : Except Fault (Except LogError (List Record)))
  /-- An event that the observers were told. -/
  | told (e : Event)

namespace Note

/-- Whether a poll has delivered records. -/
def delivers : Note → Bool
  | polled (.ok (.ok rs)) => !rs.isEmpty
  | _ => false

/-- The number of records that were acknowledged. -/
def acknowledged : Note → Nat
  | call (.acknowledge b (.ok (.ok ()))) => b.count
  | _ => 0

end Note

/-- The state of some ports, and what was noted so far. -/
structure Session (σ : Type) where
  ports : σ
  notes : List Note

namespace Session

variable {σ : Type}

/-- The ports have come to a state, and something more is noted. -/
def note (s : Session σ) (ports : σ) (n : Note) : Session σ := ⟨ports, s.notes ++ [n]⟩

/-- The number of polls that have delivered records. -/
def delivered (s : Session σ) : Nat := s.notes.countP Note.delivers

/-- The number of records that were acknowledged. -/
def acknowledged (s : Session σ) : Nat := (s.notes.map Note.acknowledged).sum

@[simp]
theorem delivered_note (s : Session σ) (ports : σ) (n : Note) :
  (s.note ports n).delivered = s.delivered + if n.delivers then 1 else 0
  := by
  rw [delivered, note, List.countP_append, List.countP_singleton]
  rfl

@[simp]
theorem acknowledged_note (s : Session σ) (ports : σ) (n : Note) :
  (s.note ports n).acknowledged = s.acknowledged + n.acknowledged
  := by
  rw [acknowledged, note, List.map_append, List.sum_append]
  simp [acknowledged]

/-- A poll of the consumer. -/
def Polls (consumer : σ → Except Fault (Except LogError (List Record)) → σ → Prop)
    (s : Session σ) (r : Except Fault (Except LogError (List Record))) (s' : Session σ) : Prop :=
  ∃ ports, consumer s.ports r ports ∧ s' = s.note ports (.polled r)

end Session

namespace Ports

variable {σ : Type} {P : Ports σ} {down : List Note → Bool}

/-- The ports, with their calls noted. -/
def noted (P : Ports σ) : Ports (Session σ) where
  store who s c r s' :=
    ∃ ports, P.store who s.ports c r ports ∧ s' = s.note ports (.call (.store who c r))
  latestOffset s p r s' :=
    ∃ ports, P.latestOffset s.ports p r ports ∧ s' = s.note ports (.call (.latestOffset p r))
  acknowledge s b r s' :=
    ∃ ports, P.acknowledge s.ports b r ports ∧ s' = s.note ports (.call (.acknowledge b r))

/-- How the calls of a batch may be answered by an engine that is shut down when its notes say so.
A batch is accepted until then. -/
inductive Engine (P : Ports σ) (down : List Note → Bool) :
    Surroundings batchSignature (Session σ)
  | accepting (s : Session σ) : Engine P down s .accepting (.ok !down s.notes) s
  | store {s s' : Session σ} {c : StoreCall} {deadline : Nat} {r : Except Fault (Timed c.Answer)}
      (h : P.noted.store .batch s c r s') : Engine P down s (.store c deadline) r s'
  | applied {s s' : Session σ} {policy : Policy} {jobs : List Job}
      {ends : List (JobEnd Apply.Result)} (h : Completes P.noted.Loops policy jobs s ends s') :
      Engine P down s (.applyAll policy jobs) (.ok ends) s'
  | acknowledged {s s' : Session σ} {b : Bounds} {r : Except Fault (Except LogError Unit)}
      (h : P.noted.acknowledge s b r s') : Engine P down s (.acknowledge b) r s'
  | told (s : Session σ) (e : Event) :
      Engine P down s (.tell e) (.ok ()) (s.note s.ports (.told e))

/-- How the calls of a service of such an engine may be answered, where a stop is signalled when
the notes say so. -/
abbrev Services (P : Ports σ)
    (consumer : σ → Except Fault (Except LogError (List Record)) → σ → Prop)
    (down signalled : List Note → Bool) : Surroundings serviceSignature (Session σ) :=
  ServiceAnswers (P.Engine down) (Session.Polls consumer) fun s => signalled s.notes

/-- Noted calls are answered as those of the ports are. -/
theorem simulates_noted (P : Ports σ) :
  P.Simulates P.noted fun s t => t.ports = s
  := by
  constructor
  · rintro who s c r s' t h rfl
    exact ⟨_, ⟨s', h, rfl⟩, rfl⟩
  · rintro s p r s' t h rfl
    exact ⟨_, ⟨s', h, rfl⟩, rfl⟩
  · rintro s b r s' t h rfl
    exact ⟨_, ⟨s', h, rfl⟩, rfl⟩

/-- An engine answers the calls of a batch as its ports do, but for the question whether the batch
is accepted. -/
theorem Engine.of_batches {s s' : σ} {c : BatchCall} {r : Except Fault (batchSignature.Answer c)}
    (h : P.Batches s c r s') (hc : c ≠ .accepting) {t : Session σ} (ht : t.ports = s) :
  ∃ t', P.Engine down t c r t' ∧ t'.ports = s'
  := by
  cases h with
  | accepting => exact absurd rfl hc
  | store h =>
      obtain ⟨t', h', ht'⟩ := (simulates_noted P).store h ht
      exact ⟨t', .store h', ht'⟩
  | applied h =>
      obtain ⟨t', h', ht'⟩ := h.simulate (simulates_noted P).loops ht
      exact ⟨t', .applied h', ht'⟩
  | acknowledged h =>
      obtain ⟨t', h', ht'⟩ := (simulates_noted P).acknowledge h ht
      exact ⟨t', .acknowledged h', ht'⟩
  | told => exact ⟨_, .told t _, ht⟩

/-- A batch that loses no call runs in an engine that is not shut down. -/
theorem simulates_engine {Λ : Type} (parties : Parties Λ) :
  ChainLedger.Simulates (BatchAnswers False parties)
    ((undisturbed parties).Engine fun _ => false) fun s t => t.ports = s
  := by
  intro s c r s' t h ht
  by_cases hc : c = .accepting
  · subst hc
    cases h with
    | accepted => exact ⟨t, .accepting t, ht⟩
    | refused h => exact h.elim
  · obtain ⟨_, hcall, rfl⟩ := simulates_undisturbed parties h rfl
    exact Engine.of_batches hcall hc ht

/-- No call of a batch polls, and only its acknowledgment acknowledges records. -/
theorem Engine.keeps {s s' : Session σ} {c : BatchCall} {r : Except Fault (batchSignature.Answer c)}
    (h : P.Engine down s c r s') (hc : c.Unacknowledging) :
  s'.delivered = s.delivered ∧ s'.acknowledged = s.acknowledged
  := by
  cases h with
  | accepting => exact ⟨rfl, rfl⟩
  | store h =>
      obtain ⟨ports, -, rfl⟩ := h
      exact ⟨s.delivered_note .., s.acknowledged_note ..⟩
  | applied h =>
      refine completes_keeps (J := fun t => t.delivered = s.delivered ∧
        t.acknowledged = s.acknowledged) ?_ ?_ h ⟨rfl, rfl⟩
      · rintro t c r _ ⟨hdelivered, hacknowledged⟩ ⟨ports, -, rfl⟩
        exact ⟨(t.delivered_note ..).trans hdelivered, (t.acknowledged_note ..).trans hacknowledged⟩
      · rintro t p r _ ⟨hdelivered, hacknowledged⟩ ⟨ports, -, rfl⟩
        exact ⟨(t.delivered_note ..).trans hdelivered, (t.acknowledged_note ..).trans hacknowledged⟩
  | acknowledged => exact absurd rfl (hc _)
  | told => exact ⟨s.delivered_note .., s.acknowledged_note ..⟩

end Ports

end ChainLedger
