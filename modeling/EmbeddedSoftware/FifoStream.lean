import Mathlib.Data.List.Basic
import Mathlib.Tactic.Common

/-!
# Records on a stream

A writer appends encoded records to a stream and a reader takes them from its front. What
the stream carries are the records that were sent and not yet received, one after the other.
-/

namespace EmbeddedSoftware.FifoStream

variable {ρ β : Type*}

/-- The stream holds the records between those received and those sent. -/
def Carries (encode : ρ → List β) (sent received : List ρ) (stream : List β) : Prop :=
  ∃ queue, sent = received ++ queue ∧ stream = queue.flatMap encode

variable {encode : ρ → List β} {sent received : List ρ} {stream : List β} {size : ℕ}

theorem carries_nil : Carries encode [] [] [] := ⟨[], rfl, rfl⟩

theorem Carries.write (h : Carries encode sent received stream) (r : ρ) :
    Carries encode (sent ++ [r]) received (stream ++ encode r) := by
  obtain ⟨queue, hsent, hstream⟩ := h
  refine ⟨queue ++ [r], ?_, ?_⟩
  · rw [hsent, List.append_assoc]
  · rw [hstream, List.flatMap_append, List.flatMap_singleton]

/-- With records of one size, a read of that size takes exactly the next record. -/
theorem Carries.read (h : Carries encode sent received stream)
    (hsize : ∀ r, (encode r).length = size) (hne : stream ≠ []) : ∃ r,
    stream.take size = encode r ∧ Carries encode sent (received ++ [r]) (stream.drop size) := by
  obtain ⟨queue, hsent, hstream⟩ := h
  cases queue with
  | nil => exact absurd hstream hne
  | cons r queue =>
    rw [List.flatMap_cons] at hstream
    refine ⟨r, ?_, queue, ?_, ?_⟩
    · rw [hstream, List.take_left' (hsize r)]
    · rw [hsent, List.append_assoc]
      rfl
    · rw [hstream, List.drop_left' (hsize r)]

theorem Carries.received_prefix (h : Carries encode sent received stream) : received <+: sent := by
  obtain ⟨queue, hsent, -⟩ := h
  exact ⟨queue, hsent.symm⟩

theorem Carries.length_le (h : Carries encode sent received stream) :
    received.length ≤ sent.length := h.received_prefix.length_le

theorem Carries.sent_eq (h : Carries encode sent received [])
    (hsize : ∀ r, (encode r).length = size) (hpos : 0 < size) : sent = received := by
  obtain ⟨queue, hsent, hstream⟩ := h
  cases queue with
  | nil => rw [hsent, List.append_nil]
  | cons r queue =>
    have hlength := congrArg List.length hstream
    rw [List.flatMap_cons, List.length_append, hsize, List.length_nil] at hlength
    omega

theorem Carries.stream_eq_nil (h : Carries encode sent received stream)
    (hlength : received.length = sent.length) : stream = [] := by
  obtain ⟨queue, hsent, hstream⟩ := h
  have hqueue := congrArg List.length hsent
  rw [List.length_append, hlength] at hqueue
  have hnil : queue = [] := List.length_eq_zero_iff.mp (by omega)
  rw [hstream, hnil, List.flatMap_nil]

end EmbeddedSoftware.FifoStream
