import EmbeddedSoftware.RunRules
import Mathlib.Data.List.Basic
import Mathlib.Tactic.Common

/-!
# The timer module

The callback `timefunc` counts, arms its own timer again and prints. Unloading the module
clears the counter and deletes the timer. `del_timer` takes a timer out of the queue but does
not wait for a callback that has started, and that callback may still arm the timer.
-/

namespace EmbeddedSoftware.TimerModule

open Relation RunRules

inductive InitPc where
  | print | printInserted | timerSetup | addTimer | returned
  deriving DecidableEq

inductive ExitPc where
  | idle | clear | delTimer | print | returned
  deriving DecidableEq

inductive TimefuncPc where
  | count | modTimer | print
  deriving DecidableEq

/-- The module, its timer and the callbacks that have started. -/
structure State where
  init : InitPc
  exit : ExitPc
  pending : Bool
  running : List TimefuncPc
  counter : BitVec 64

inductive Event where
  | init
  | exit
  | fire
  | timefunc (i : ℕ)
  deriving DecidableEq

def initial : State := ⟨.print, .idle, false, [], 0⟩

def State.execInit (s : State) : Option State :=
  match s.init with
  | .print => some { s with init := .printInserted }
  | .printInserted => some { s with init := .timerSetup }
  | .timerSetup => some { s with init := .addTimer, pending := false }
  | .addTimer => some { s with init := .returned, pending := true }
  | .returned => none

/-- The next statement of `mymodule_exit`, which is called after `mymodule_init`. -/
def State.execExit (s : State) : Option State :=
  match s.init, s.exit with
  | .returned, .idle => some { s with exit := .clear }
  | .returned, .clear => some { s with exit := .delTimer, counter := 0 }
  | .returned, .delTimer => some { s with exit := .print, pending := false }
  | .returned, .print => some { s with exit := .returned }
  | _, _ => none

def State.execTimefunc (s : State) (i : ℕ) : Option State :=
  match s.running[i]? with
  | some .count => some { s with running := s.running.set i .modTimer, counter := s.counter + 1 }
  | some .modTimer => some { s with running := s.running.set i .print, pending := true }
  | some .print => some { s with running := s.running.eraseIdx i }
  | none => none

def State.exec (s : State) : Event → Option State
  | .init => s.execInit
  | .exit => s.execExit
  | .fire =>
    if s.pending then some { s with pending := false, running := s.running ++ [.count] } else none
  | .timefunc i => s.execTimefunc i

def Step : State → State → Prop := EventStep State.exec

def Run : State → State → Prop := ReflTransGen Step

/-- The timer is not pending, and no callback runs, now or after any steps. -/
def Unloaded (s : State) : Prop := s.pending = false ∧ ∀ s', Run s s' → s'.running = []

/-- The state in which nothing is left of the timer after `del_timer`. -/
structure Quiet (s : State) : Prop where
  init : s.init = .returned
  exit : s.exit = .print ∨ s.exit = .returned
  pending : s.pending = false
  running : s.running = []

theorem Quiet.step {s s' : State} (h : Quiet s) (hstep : Step s s') : Quiet s' := by
  obtain ⟨hinit, hexit, hpending, hrunning⟩ := h
  obtain ⟨e, he⟩ := hstep
  cases e with
  | init => simp [State.exec, State.execInit, hinit] at he
  | exit =>
    rcases hexit with hexit | hexit
    · simp only [State.exec, State.execExit, hinit, hexit] at he
      cases he
      exact ⟨rfl, Or.inr rfl, hpending, hrunning⟩
    · simp [State.exec, State.execExit, hinit, hexit] at he
  | fire => simp [State.exec, hpending] at he
  | timefunc i => simp [State.exec, State.execTimefunc, hrunning] at he

theorem Quiet.run {s s' : State} (h : Quiet s) (hrun : Run s s') : Quiet s' :=
  run_invariant (fun _ _ hs hstep => hs.step hstep) h hrun

theorem Quiet.unloaded {s : State} (h : Quiet s) : Unloaded s := by
  refine ⟨h.pending, ?_⟩
  intro s' hrun
  exact (h.run hrun).running

/-- `mymodule_exit` deletes the timer only when no callback has started. -/
def Alone (s : State) (e : Event) : Prop := e = .exit → s.exit = .delTimer → s.running = []

instance (s : State) (e : Event) : Decidable (Alone s e) :=
  inferInstanceAs (Decidable (e = .exit → s.exit = .delTimer → s.running = []))

def AloneRun : State → State → Prop := ReflTransGen (EventStep (guarded State.exec Alone))

/-- Before `del_timer` anything may go on, behind it nothing does. -/
def Guarded (s : State) : Prop :=
  s.exit = .idle ∨ (s.init = .returned ∧ (s.exit = .clear ∨ s.exit = .delTimer)) ∨ Quiet s

theorem exit_eq_of_exec {s s' : State} {e : Event} (he : s.exec e = some s')
    (hne : e ≠ .exit) : s'.exit = s.exit := by
  cases e with
  | init =>
    simp only [State.exec, State.execInit] at he
    split at he <;> cases he <;> rfl
  | exit => exact absurd rfl hne
  | fire =>
    simp only [State.exec] at he
    split at he
    · cases he
      rfl
    · cases he
  | timefunc i =>
    simp only [State.exec, State.execTimefunc] at he
    split at he <;> cases he <;> rfl

theorem init_of_exec {s s' : State} {e : Event} (he : s.exec e = some s')
    (hinit : s.init = .returned) : s'.init = .returned := by
  cases e with
  | init => simp [State.exec, State.execInit, hinit] at he
  | exit =>
    simp only [State.exec, State.execExit] at he
    split at he <;> cases he <;> exact hinit
  | fire =>
    simp only [State.exec] at he
    split at he
    · cases he
      exact hinit
    · cases he
  | timefunc i =>
    simp only [State.exec, State.execTimefunc] at he
    split at he <;> cases he <;> exact hinit

/-- The statements of `mymodule_exit` and what each of them does. -/
inductive ExitStep (s : State) : State → Prop
  | call (hinit : s.init = .returned) (hexit : s.exit = .idle) :
      ExitStep s { s with exit := .clear }
  | clear (hinit : s.init = .returned) (hexit : s.exit = .clear) :
      ExitStep s { s with exit := .delTimer, counter := 0 }
  | delTimer (hinit : s.init = .returned) (hexit : s.exit = .delTimer) :
      ExitStep s { s with exit := .print, pending := false }
  | print (hinit : s.init = .returned) (hexit : s.exit = .print) :
      ExitStep s { s with exit := .returned }

theorem exitStep_of_exec {s s' : State} (he : s.exec .exit = some s') : ExitStep s s' := by
  simp only [State.exec, State.execExit] at he
  split at he <;> cases he
  · next hinit hexit => exact .call hinit hexit
  · next hinit hexit => exact .clear hinit hexit
  · next hinit hexit => exact .delTimer hinit hexit
  · next hinit hexit => exact .print hinit hexit

theorem quiet_of_delTimer {s s' : State} (hexit : s.exit = .delTimer) (hrunning : s.running = [])
    (hstep : ExitStep s s') : Quiet s' := by
  cases hstep with
  | delTimer hinit => exact ⟨hinit, Or.inl rfl, rfl, hrunning⟩
  | call _ hpc | clear _ hpc | print _ hpc => simp [hexit] at hpc

theorem Guarded.exitStep {s s' : State} (h : Guarded s) (hstep : ExitStep s s')
    (halone : Alone s .exit) : Guarded s' := by
  cases hstep with
  | call hinit => exact Or.inr (Or.inl ⟨hinit, Or.inl rfl⟩)
  | clear hinit => exact Or.inr (Or.inl ⟨hinit, Or.inr rfl⟩)
  | delTimer hinit hpc =>
    -- the step at which the condition is used
    exact Or.inr (Or.inr (quiet_of_delTimer hpc (halone rfl hpc) (.delTimer hinit hpc)))
  | print hinit hpc =>
    rcases h with hidle | ⟨-, hclear | hdel⟩ | hquiet
    · simp [hpc] at hidle
    · simp [hpc] at hclear
    · simp [hpc] at hdel
    · exact Or.inr (Or.inr ⟨hinit, Or.inr rfl, hquiet.pending, hquiet.running⟩)

theorem Guarded.step {s s' : State} {e : Event} (h : Guarded s) (halone : Alone s e)
    (he : s.exec e = some s') : Guarded s' := by
  by_cases hexit : e = .exit
  · subst hexit
    exact h.exitStep (exitStep_of_exec he) halone
  · have hpc := exit_eq_of_exec he hexit
    rcases h with hidle | ⟨hinit, hbefore⟩ | hquiet
    · exact Or.inl (hpc.trans hidle)
    · rw [← hpc] at hbefore
      exact Or.inr (Or.inl ⟨init_of_exec he hinit, hbefore⟩)
    · exact Or.inr (Or.inr (hquiet.step ⟨e, he⟩))

theorem guarded_of_aloneRun {s : State} (hrun : AloneRun initial s) : Guarded s := by
  have hinitial : Guarded initial := Or.inl rfl
  refine run_invariant ?_ hinitial hrun
  rintro s s' hs ⟨e, he⟩
  obtain ⟨halone, he⟩ := guarded_eq_some_iff.mp he
  exact hs.step halone he

/-- A callback that runs at the time of `del_timer` may outlive the module. -/
theorem exists_running_after_exit {s s₁ : State} (hexit : s.exit = .delTimer)
    (hstep : ExitStep s s₁) :
    ∃ s', Run s₁ s' ∧ s'.exit = .returned ∧ s'.running = s.running := by
  cases hstep with
  | delTimer hinit =>
    refine ⟨{ s with exit := .returned, pending := false }, ?_, rfl, rfl⟩
    exact .single ⟨.exit, by simp [State.exec, State.execExit, hinit]⟩
  | call _ hpc | clear _ hpc | print _ hpc => simp [hexit] at hpc

/-- When no callback runs at `del_timer`, nothing is left of the timer after `mymodule_exit`. The
other way round, a callback that runs then can outlive the module. -/
theorem unload_stops_timefunc (s : State) :
    (AloneRun initial s → s.exit = .returned → Unloaded s) ∧
    ∀ s₁, Run initial s → s.exit = .delTimer → s.exec .exit = some s₁ →
      ((∀ s', Run s₁ s' → s'.exit = .returned → Unloaded s') ↔ s.running = []) := by
  constructor
  · intro hrun hexit
    rcases guarded_of_aloneRun hrun with hidle | ⟨-, hclear | hdel⟩ | hquiet
    · simp [hexit] at hidle
    · simp [hexit] at hclear
    · simp [hexit] at hdel
    · exact hquiet.unloaded
  · intro s₁ _ hexit he
    have hstep := exitStep_of_exec he
    constructor
    · intro h
      obtain ⟨s', hrun, hreturned, hrunning⟩ := exists_running_after_exit hexit hstep
      rw [← hrunning]
      exact (h s' hrun hreturned).2 s' .refl
    · intro hrunning s' hrun _
      exact ((quiet_of_delTimer hexit hrunning hstep).run hrun).unloaded

/-- The timer fires once, and the module is unloaded when the callback is done. -/
def unloadBetween : List Event :=
  [.init, .init, .init, .init, .fire, .timefunc 0, .timefunc 0, .timefunc 0, .exit, .exit, .exit,
    .exit]

theorem unload_stops_timefunc_between :
    ∃ s, execAll (guarded State.exec Alone) initial unloadBetween = some s ∧ Unloaded s := by
  refine ⟨_, rfl, ?_⟩
  exact (unload_stops_timefunc _).1 (run_of_execAll unloadBetween rfl) rfl

/-- The callback has counted when the module is unloaded, and arms the timer afterwards. -/
def unloadInside : List Event :=
  [.init, .init, .init, .init, .fire, .timefunc 0, .exit, .exit, .exit, .exit, .timefunc 0]

theorem timefunc_outlives_module :
    ∃ s, Run initial s ∧ s.exit = .returned ∧ s.pending = true ∧ s.running = [.print] ∧
      ∃ s', Run s s' ∧ s'.running = [.print, .count] := by
  refine ⟨_, run_of_execAll unloadInside rfl, rfl, rfl, rfl, ?_⟩
  exact ⟨_, run_of_execAll [.fire] rfl, rfl⟩

end EmbeddedSoftware.TimerModule
