import EmbeddedSoftware.RunRules
import Mathlib.Data.List.Basic
import Mathlib.Tactic.Common

/-!
# An ordered channel with one slot

Producers claim the slot one after the other. The one that holds the claim fills the slot,
the consumer empties it, and then the slot is free or goes to a producer that waits for
it. The order of claims is the order of records, and the consumer is at most one behind.
-/

namespace EmbeddedSoftware.OneSlotChannel

open Relation

variable {κ ρ : Type*}

inductive Slot (κ ρ : Type*) where
  | free
  | claimed (k : κ)
  | full (r : ρ)
  | emptied

/-- The slot with the history of the channel. -/
structure Channel (κ ρ : Type*) where
  slot : Slot κ ρ
  acquired : List κ
  produced : List ρ
  delivered : List ρ

def initial : Channel κ ρ := ⟨.free, [], [], []⟩

inductive Step (owner : ρ → κ) : Channel κ ρ → Channel κ ρ → Prop where
  | acquire {acq prod del} (k : κ) :
      Step owner ⟨.free, acq, prod, del⟩ ⟨.claimed k, acq ++ [k], prod, del⟩
  | publish {acq prod del} (r : ρ) :
      Step owner ⟨.claimed (owner r), acq, prod, del⟩ ⟨.full r, acq, prod ++ [r], del⟩
  | deliver {acq prod del} (r : ρ) :
      Step owner ⟨.full r, acq, prod, del⟩ ⟨.emptied, acq, prod, del ++ [r]⟩
  | release {acq prod del} : Step owner ⟨.emptied, acq, prod, del⟩ ⟨.free, acq, prod, del⟩
  | handOver {acq prod del} (k : κ) :
      Step owner ⟨.emptied, acq, prod, del⟩ ⟨.claimed k, acq ++ [k], prod, del⟩

def Slot.claims : Slot κ ρ → List κ
  | .claimed k => [k]
  | _ => []

def Slot.pending : Slot κ ρ → List ρ
  | .full r => [r]
  | _ => []

structure Invariant (owner : ρ → κ) (c : Channel κ ρ) : Prop where
  produced : c.produced = c.delivered ++ c.slot.pending
  acquired : c.acquired = c.produced.map owner ++ c.slot.claims

variable {owner : ρ → κ} {c c' : Channel κ ρ}

theorem invariant_initial : Invariant owner (initial : Channel κ ρ) := ⟨rfl, rfl⟩

theorem Invariant.step (h : Invariant owner c) (hstep : Step owner c c') : Invariant owner c' := by
  obtain ⟨hproduced, hacquired⟩ := h
  cases hstep with
  | acquire k => constructor <;> simp_all [Slot.pending, Slot.claims]
  | publish r => constructor <;> simp_all [Slot.pending, Slot.claims]
  | deliver r => constructor <;> simp_all [Slot.pending, Slot.claims]
  | release => constructor <;> simp_all [Slot.pending, Slot.claims]
  | handOver k => constructor <;> simp_all [Slot.pending, Slot.claims]

theorem invariant_of_run (h : ReflTransGen (Step owner) initial c) : Invariant owner c :=
  RunRules.run_invariant (fun _ _ hs hst => hs.step hst) invariant_initial h

theorem Slot.length_pending_le (slot : Slot κ ρ) : slot.pending.length ≤ 1 := by
  cases slot <;> simp [pending]

theorem Slot.length_claims_le (slot : Slot κ ρ) : slot.claims.length ≤ 1 := by
  cases slot <;> simp [claims]

theorem Invariant.delivered_prefix (h : Invariant owner c) :
    c.delivered <+: c.produced ∧ c.produced.length ≤ c.delivered.length + 1 := by
  have hle := c.slot.length_pending_le
  rw [h.produced]
  refine ⟨List.prefix_append _ _, ?_⟩
  rw [List.length_append]
  omega

theorem Invariant.produced_prefix (h : Invariant owner c) :
    c.produced.map owner <+: c.acquired ∧ c.acquired.length ≤ c.produced.length + 1 := by
  have hle := c.slot.length_claims_le
  rw [h.acquired]
  refine ⟨List.prefix_append _ _, ?_⟩
  rw [List.length_append, List.length_map]
  omega

end EmbeddedSoftware.OneSlotChannel
