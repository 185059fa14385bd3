import Mathlib.Data.List.TakeDrop
import Mathlib.Data.Nat.Basic
import Mathlib.Tactic.Common

/-!
# Lists cut into blocks of one size

Block `i` of a list holds the elements from position `b * i` on, at most `b` of them.
The last block is the only short one: it is block `length / b`, and it is empty when the
length is a multiple of the block size.
-/

namespace EmbeddedSoftware.ListBlocks

variable {α : Type*} {b : ℕ} {xs : List α} {i : ℕ}

/-- Block `i` of `xs`, counted from zero. -/
def block (b : ℕ) (xs : List α) (i : ℕ) : List α := (xs.drop (b * i)).take b

def lastBlock (b : ℕ) (xs : List α) : ℕ := xs.length / b

theorem length_block (b : ℕ) (xs : List α) (i : ℕ) :
    (block b xs i).length = min b (xs.length - b * i) := by simp [block]

theorem length_block_le (b : ℕ) (xs : List α) (i : ℕ) : (block b xs i).length ≤ b := by
  rw [length_block]
  exact Nat.min_le_left _ _

theorem mul_le_length (h : i ≤ lastBlock b xs) : b * i ≤ xs.length :=
  Nat.le_trans (Nat.mul_le_mul_left b h) (Nat.mul_div_le xs.length b)

/-- A block is full exactly when it is not the last one. -/
theorem length_block_eq_iff (hb : 0 < b) (hi : i ≤ lastBlock b xs) :
    (block b xs i).length = b ↔ i ≠ lastBlock b xs := by
  have hl := mul_le_length hi
  have hfull : b ≤ xs.length - b * i ↔ i + 1 ≤ lastBlock b xs := by
    rw [lastBlock, Nat.le_div_iff_mul_le hb, Nat.add_mul, Nat.mul_comm i b]
    omega
  have hmin : min b (xs.length - b * i) = b ↔ b ≤ xs.length - b * i := by omega
  rw [length_block, hmin, hfull]
  omega

theorem take_mul_succ (b : ℕ) (xs : List α) (i : ℕ) :
    xs.take (b * (i + 1)) = xs.take (b * i) ++ block b xs i := by
  rw [block, Nat.mul_succ, List.take_add]

theorem take_mul_of_lastBlock_lt (hb : 0 < b) (hi : lastBlock b xs < i) :
    xs.take (b * i) = xs := by
  apply List.take_of_length_le
  have h := (Nat.div_lt_iff_lt_mul hb).mp hi
  rw [Nat.mul_comm]
  exact Nat.le_of_lt h

theorem block_append_drop (b : ℕ) (xs : List α) (i : ℕ) :
    block b xs i ++ xs.drop (b * (i + 1)) = xs.drop (b * i) := by
  rw [block, Nat.mul_succ, ← List.drop_drop, List.take_append_drop]

theorem block_lastBlock (hb : 0 < b) (xs : List α) :
    block b xs (lastBlock b xs) = xs.drop (b * lastBlock b xs) := by
  apply List.take_of_length_le
  have hlt := Nat.mod_lt xs.length hb
  have hdiv := Nat.div_add_mod xs.length b
  rw [List.length_drop, lastBlock]
  omega

/-- The blocks in order are the list. -/
theorem flatMap_block_range (b : ℕ) (xs : List α) (i : ℕ) :
    (List.range i).flatMap (block b xs) = xs.take (b * i) := by
  induction i with
  | zero => simp
  | succ i ih => simp [List.range_succ, ih, take_mul_succ]

end EmbeddedSoftware.ListBlocks
