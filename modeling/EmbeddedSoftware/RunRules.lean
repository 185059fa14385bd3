import Mathlib.Data.Nat.Notation
import Mathlib.Logic.Relation

/-!
# Rules for runs of a transition system

A run is a finite chain of steps. An invariant of one step is an invariant of every run,
and a simulation of one step is a simulation of every run.
-/

namespace EmbeddedSoftware.RunRules

open Relation

variable {α β : Type*} {step : α → α → Prop} {step' : β → β → Prop}

theorem run_invariant {P : α → Prop} (hstep : ∀ s t, P s → step s t → P t) {s t : α}
    (hs : P s) (h : ReflTransGen step s t) : P t := by
  induction h with
  | refl => exact hs
  | tail _ hst ih => exact hstep _ _ ih hst

/-- An invariant whose step needs another one. -/
theorem run_invariant_under {I P : α → Prop} (hinv : ∀ s t, I s → step s t → I t)
    (hstep : ∀ s t, I s → P s → step s t → P t) {s t : α} (hi : I s) (hs : P s)
    (h : ReflTransGen step s t) : P t := by
  have hboth : I t ∧ P t := by
    apply run_invariant _ ⟨hi, hs⟩ h
    intro s t hst hstp
    exact ⟨hinv s t hst.1 hstp, hstep s t hst.1 hst.2 hstp⟩
  exact hboth.2

/-- Every run of the concrete system is answered by a run of the abstract one, also where
a concrete step takes none or several abstract ones. -/
theorem run_stuttering {R : β → α → Prop}
    (hstep : ∀ b s t, R b s → step s t → ∃ b', ReflTransGen step' b b' ∧ R b' t) {b : β} {s t : α}
    (hb : R b s) (h : ReflTransGen step s t) : ∃ b', ReflTransGen step' b b' ∧ R b' t := by
  induction h with
  | refl => exact ⟨b, .refl, hb⟩
  | tail _ hst ih =>
    obtain ⟨c, hc, hr⟩ := ih
    obtain ⟨c', hc', hr'⟩ := hstep _ _ _ hr hst
    exact ⟨c', hc.trans hc', hr'⟩

theorem run_simulation {R : β → α → Prop}
    (hstep : ∀ b s t, R b s → step s t → ∃ b', step' b b' ∧ R b' t) {b : β} {s t : α}
    (hb : R b s) (h : ReflTransGen step s t) : ∃ b', ReflTransGen step' b b' ∧ R b' t := by
  apply run_stuttering _ hb h
  intro c s t hr hst
  obtain ⟨c', hc', hr'⟩ := hstep c s t hr hst
  exact ⟨c', .single hc', hr'⟩

/-- Where two different steps can always be made up for by one step each, every run goes on to
the state in which one of them stops. -/
theorem run_to_end (hdiamond : ∀ r s t, step r s → step r t → s = t ∨ ∃ u, step s u ∧ step t u)
    {r s t : α} (ht : ReflTransGen step r t) (hend : ∀ u, ¬step t u) (hs : ReflTransGen step r s) :
    ReflTransGen step s t := by
  have hjoin : Join (ReflTransGen step) s t := by
    apply church_rosser _ hs ht
    intro r s t hrs hrt
    obtain rfl | ⟨u, hsu, htu⟩ := hdiamond r s t hrs hrt
    · exact ⟨s, .refl, .refl⟩
    · exact ⟨u, .single hsu, .single htu⟩
  obtain ⟨u, hsu, htu⟩ := hjoin
  obtain rfl | ⟨v, htv, -⟩ := htu.cases_head
  · exact hsu
  · exact absurd htv (hend v)

section Events

variable {ε : Type*} (exec : α → ε → Option α)

def EventStep (s t : α) : Prop := ∃ e, exec s e = some t

/-- The state after a list of events, if each of them can happen. -/
def execAll (s : α) : List ε → Option α
  | [] => some s
  | e :: es => (exec s e).bind fun t => execAll t es

variable {exec}

theorem run_of_execAll {s t : α} (es : List ε) (h : execAll exec s es = some t) :
    ReflTransGen (EventStep exec) s t := by
  induction es generalizing s with
  | nil =>
    cases h
    exact .refl
  | cons e es ih =>
    obtain ⟨u, hu, hrest⟩ := Option.bind_eq_some_iff.mp h
    exact .head ⟨e, hu⟩ (ih hrest)

/-- A number to which some of the events add one counts these events. -/
theorem count_of_execAll {I : α → Prop} {P : ε → Bool} (count : α → ℕ)
    (hstep : ∀ s t e, I s → exec s e = some t → I t ∧ count t = count s + (P e).toNat) {s t : α}
    {es : List ε} (hs : I s) (h : execAll exec s es = some t) :
    I t ∧ count t = count s + es.countP P := by
  induction es generalizing s with
  | nil =>
    cases h
    exact ⟨hs, rfl⟩
  | cons e es ih =>
    obtain ⟨u, hu, hrest⟩ := Option.bind_eq_some_iff.mp h
    obtain ⟨hi, hcount⟩ := hstep s u e hs hu
    obtain ⟨ht, hall⟩ := ih hi hrest
    refine ⟨ht, ?_⟩
    rw [hall, hcount, List.countP_cons]
    cases P e
    · rfl
    · exact (Nat.add_assoc _ _ _).trans (congrArg _ (Nat.add_comm _ _))

/-- A system that goes on until it ends, with a number that each step makes smaller, ends. -/
theorem exists_execAll_to_end {I E : α → Prop} (measure : α → ℕ)
    (hstep : ∀ s, I s → ¬E s → ∃ e t, exec s e = some t ∧ I t ∧ measure t < measure s) {s : α}
    (hs : I s) : ∃ es t, execAll exec s es = some t ∧ E t ∧ I t := by
  induction hm : measure s using Nat.strongRecOn generalizing s with
  | ind m ih =>
    subst hm
    by_cases hend : E s
    · exact ⟨[], s, rfl, hend, hs⟩
    · obtain ⟨e, u, he, hu, hlt⟩ := hstep s hs hend
      obtain ⟨es, t, hes, ht⟩ := ih (measure u) hlt hu rfl
      refine ⟨e :: es, t, ?_, ht⟩
      rw [execAll, he]
      exact hes

/-- The events of `exec` in states where `P` allows them. -/
def guarded (exec : α → ε → Option α) (P : α → ε → Prop) [∀ s e, Decidable (P s e)] (s : α)
    (e : ε) : Option α :=
  if P s e then exec s e else none

theorem guarded_eq_some_iff {P : α → ε → Prop} [∀ s e, Decidable (P s e)] {s t : α} {e : ε} :
    guarded exec P s e = some t ↔ P s e ∧ exec s e = some t := by
  rw [guarded]
  split
  · next hP => simp [hP]
  · next hP => simp [hP]

end Events

section Programs

variable (f : α → Option α)

/-- The runs of a program that has at most one next step. -/
def Leads : α → α → Prop := ReflTransGen fun s t => f s = some t

variable {f}

/-- Every run goes on to the state in which the program stops. -/
theorem leads_to_end {r s t : α} (ht : Leads f r t) (hend : f t = none) (hs : Leads f r s) :
    Leads f s t := by
  apply run_to_end _ ht _ hs
  · intro r s t hrs hrt
    exact .inl (Option.some.inj (hrs.symm.trans hrt))
  · intro u htu
    rw [hend] at htu
    cases htu

/-- The program stops where every step makes a number smaller. -/
theorem exists_leads_to_end {I : α → Prop} (measure : α → ℕ)
    (hstep : ∀ s t, I s → f s = some t → I t ∧ measure t < measure s) {s : α} (hs : I s) :
    ∃ t, Leads f s t ∧ f t = none ∧ I t := by
  induction hm : measure s using Nat.strongRecOn generalizing s with
  | ind m ih =>
    subst hm
    cases hf : f s with
    | none => exact ⟨s, .refl, hf, hs⟩
    | some u =>
      obtain ⟨hu, hlt⟩ := hstep s u hs hf
      obtain ⟨t, hrun, hend, ht⟩ := ih (measure u) hlt hu rfl
      exact ⟨t, .head hf hrun, hend, ht⟩

end Programs

end EmbeddedSoftware.RunRules
