import Mathlib.Data.List.Basic
import Mathlib.Tactic.Common

/-!
# Counting semaphores with first-come waiters

A pend takes a unit or joins the end of the queue. A post hands its unit to the first
waiter, and only without one does it raise the count. So a task waits only while the count
is zero.
-/

namespace EmbeddedSoftware.CountingSemaphore

structure Semaphore (τ : Type*) where
  count : ℕ
  waiting : List τ
  waiting_eq_nil : 0 < count → waiting = []

namespace Semaphore

variable {τ : Type*}

def construct (count : ℕ) : Semaphore τ := ⟨count, [], fun _ => rfl⟩

/-- The semaphore after the task `t` pends, and whether the task goes on. -/
def pend (sem : Semaphore τ) (t : τ) : Semaphore τ × Bool :=
  if 0 < sem.count then (construct (sem.count - 1), true)
  else (⟨0, sem.waiting ++ [t], fun h => absurd h (Nat.lt_irrefl 0)⟩, false)

/-- The semaphore after a post, and the task that goes on in consequence. -/
def post (sem : Semaphore τ) : Semaphore τ × Option τ :=
  match sem.waiting with
  | [] => (construct (sem.count + 1), none)
  | t :: ts => (⟨0, ts, fun h => absurd h (Nat.lt_irrefl 0)⟩, some t)

variable {sem : Semaphore τ} {t : τ} {ts : List τ}

@[simp] theorem count_construct (n : ℕ) : (construct n : Semaphore τ).count = n := rfl

@[simp] theorem waiting_construct (n : ℕ) : (construct n : Semaphore τ).waiting = [] := rfl

theorem count_eq_zero (h : sem.waiting ≠ []) : sem.count = 0 :=
  Nat.eq_zero_of_not_pos fun hpos => h (sem.waiting_eq_nil hpos)

theorem pend_of_pos (h : 0 < sem.count) (t : τ) :
    sem.pend t = (construct (sem.count - 1), true) := if_pos h

theorem pend_of_zero (h : sem.count = 0) (t : τ) :
    (sem.pend t).2 = false ∧ (sem.pend t).1.count = 0 ∧
      (sem.pend t).1.waiting = sem.waiting ++ [t] := by
  simp [pend, h]

theorem post_of_nil (h : sem.waiting = []) : sem.post = (construct (sem.count + 1), none) := by
  simp [post, h]

theorem post_of_cons (h : sem.waiting = t :: ts) :
    sem.post.2 = some t ∧ sem.post.1.count = 0 ∧ sem.post.1.waiting = ts := by
  unfold post
  rw [h]
  exact ⟨rfl, rfl, rfl⟩

end Semaphore

end EmbeddedSoftware.CountingSemaphore
