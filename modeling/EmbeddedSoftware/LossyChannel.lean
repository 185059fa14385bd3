import Mathlib.Data.Multiset.ZeroCons
import Mathlib.Tactic.Common

/-!
# An unordered channel that loses and duplicates

The messages in flight form a multiset, so that any of them may be the next to arrive:
delay and reordering need no step of their own. A disturbance removes one message or adds
a second copy of one. Nothing that was not sent is ever in flight.
-/

namespace EmbeddedSoftware.LossyChannel

variable {α β : Type*}

/-- One act of the network on the messages in flight. -/
inductive Disturbance : Multiset α → Multiset α → Prop where
  | lose (m : α) (net : Multiset α) : Disturbance (m ::ₘ net) net
  | duplicate (m : α) (net : Multiset α) : Disturbance (m ::ₘ net) (m ::ₘ m ::ₘ net)

namespace Disturbance

theorem subset {net net' : Multiset α} (h : Disturbance net net') : net' ⊆ net := by
  cases h with
  | lose m => exact Multiset.subset_cons net' m
  | duplicate m net =>
    intro x hx
    simpa using hx

theorem forall_mem {net net' : Multiset α} {P : α → Prop} (h : Disturbance net net')
    (hp : ∀ m ∈ net, P m) : ∀ m ∈ net', P m :=
  fun m hm => hp m (h.subset hm)

/-- A disturbance of represented messages is a disturbance of what they represent. -/
theorem lift {r : α → β → Prop} {abs : Multiset α} {net net' : Multiset β}
    (h : Disturbance net net') (hr : Multiset.Rel r abs net) :
    ∃ abs', Disturbance abs abs' ∧ Multiset.Rel r abs' net' := by
  cases h with
  | lose m net =>
    obtain ⟨a, as, -, has, rfl⟩ := Multiset.rel_cons_right.mp hr
    exact ⟨as, .lose a as, has⟩
  | duplicate m net =>
    obtain ⟨a, as, ha, has, rfl⟩ := Multiset.rel_cons_right.mp hr
    exact ⟨a ::ₘ a ::ₘ as, .duplicate a as, .cons ha (.cons ha has)⟩

/-- A disturbance of what is represented is one of the messages that represent it. -/
theorem lower {r : α → β → Prop} {abs abs' : Multiset α} {net : Multiset β}
    (h : Disturbance abs abs') (hr : Multiset.Rel r abs net) :
    ∃ net', Disturbance net net' ∧ Multiset.Rel r abs' net' := by
  cases h with
  | lose a as =>
    obtain ⟨m, ms, -, hms, rfl⟩ := Multiset.rel_cons_left.mp hr
    exact ⟨ms, .lose m ms, hms⟩
  | duplicate a as =>
    obtain ⟨m, ms, hm, hms, rfl⟩ := Multiset.rel_cons_left.mp hr
    exact ⟨m ::ₘ m ::ₘ ms, .duplicate m ms, .cons hm (.cons hm hms)⟩

end Disturbance

end EmbeddedSoftware.LossyChannel
