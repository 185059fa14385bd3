import Mathlib.Algebra.Group.Nat.Defs
import Mathlib.Data.List.TakeWhile
import Mathlib.Tactic.Common

/-!
# Memory of a user process

A kernel copies from and to the memory of a process byte by byte and stops at the first
byte that it may not touch. It tells how many bytes it did not copy. What it could not read
is zero in the kernel's buffer.
-/

namespace EmbeddedSoftware.UserMemory

/-- A 32-bit address space with the rights of its owner. -/
structure Memory where
  byte : BitVec 32 → UInt8
  readable : BitVec 32 → Bool
  writable : BitVec 32 → Bool

def Covers (access : BitVec 32 → Bool) (a : BitVec 32) (n : ℕ) : Prop :=
  ∀ i < n, access (a + BitVec.ofNat 32 i) = true

/-- How many of `n` bytes from `a` on can be touched in one go. -/
def reach (access : BitVec 32 → Bool) (a : BitVec 32) (n : ℕ) : ℕ :=
  ((List.range n).takeWhile fun i => access (a + BitVec.ofNat 32 i)).length

namespace Memory

def read (m : Memory) (a : BitVec 32) (n : ℕ) : List UInt8 :=
  (List.range n).map fun i => m.byte (a + BitVec.ofNat 32 i)

def write (m : Memory) (a : BitVec 32) (data : List UInt8) : Memory :=
  { m with byte := fun x => data.getD (x - a).toNat (m.byte x) }

/-- The kernel's buffer after `copy_from_user`, and what the function returns. -/
def copyFromUser (m : Memory) (a : BitVec 32) (n : ℕ) : List UInt8 × ℕ :=
  let k := reach m.readable a n
  (m.read a k ++ List.replicate (n - k) 0, n - k)

/-- The memory after `copy_to_user`, and what the function returns. -/
def copyToUser (m : Memory) (a : BitVec 32) (data : List UInt8) : Memory × ℕ :=
  let k := reach m.writable a data.length
  (m.write a (data.take k), data.length - k)

end Memory

section Reach

variable {access : BitVec 32 → Bool} {a : BitVec 32} {n : ℕ}

theorem reach_le (access : BitVec 32 → Bool) (a : BitVec 32) (n : ℕ) : reach access a n ≤ n := by
  have h := (List.takeWhile_prefix (l := List.range n)
    fun i => access (a + BitVec.ofNat 32 i)).length_le
  rw [List.length_range] at h
  exact h

theorem reach_eq_iff : reach access a n = n ↔ Covers access a n := by
  constructor
  · intro h i hi
    have hself : (List.range n).takeWhile (fun i => access (a + BitVec.ofNat 32 i)) =
        List.range n :=
      (List.takeWhile_prefix _).eq_of_length (by rw [List.length_range]; exact h)
    exact List.mem_takeWhile_imp (p := fun i => access (a + BitVec.ofNat 32 i))
      (hself.symm ▸ List.mem_range.mpr hi)
  · intro h
    have hself : (List.range n).takeWhile (fun i => access (a + BitVec.ofNat 32 i)) =
        List.range n := by
      apply List.takeWhile_eq_self_iff.mpr
      intro i hi
      exact h i (List.mem_range.mp hi)
    rw [reach, hself, List.length_range]

end Reach

namespace Memory

variable {m : Memory} {a : BitVec 32} {n : ℕ} {data : List UInt8}

@[simp] theorem length_read : (m.read a n).length = n := by simp [read]

theorem copyFromUser_of_covers (h : Covers m.readable a n) :
    m.copyFromUser a n = (m.read a n, 0) := by
  simp [copyFromUser, reach_eq_iff.mpr h]

theorem length_copyFromUser : (m.copyFromUser a n).1.length = n := by
  have hle := reach_le m.readable a n
  simp only [copyFromUser, List.length_append, length_read, List.length_replicate]
  omega

theorem copyFromUser_eq_zero_iff : (m.copyFromUser a n).2 = 0 ↔ Covers m.readable a n := by
  have hle := reach_le m.readable a n
  rw [← reach_eq_iff]
  simp only [copyFromUser]
  omega

theorem copyToUser_of_covers (h : Covers m.writable a data.length) :
    m.copyToUser a data = (m.write a data, 0) := by
  simp [copyToUser, reach_eq_iff.mpr h]

theorem copyToUser_eq_zero_iff : (m.copyToUser a data).2 = 0 ↔ Covers m.writable a data.length := by
  have hle := reach_le m.writable a data.length
  rw [← reach_eq_iff]
  simp only [copyToUser]
  omega

theorem read_write (h : data.length ≤ 2 ^ 32) : (m.write a data).read a data.length = data := by
  apply List.ext_getElem
  · exact length_read
  · intro i hi hi'
    have hlt : i < 2 ^ 32 := Nat.lt_of_lt_of_le hi' h
    have hoff : (a + BitVec.ofNat 32 i - a).toNat = i := by
      rw [BitVec.add_comm, BitVec.add_sub_cancel, BitVec.toNat_ofNat, Nat.mod_eq_of_lt hlt]
    simp only [read, write, List.getElem_map, List.getElem_range, hoff]
    rw [List.getD_eq_getElem?_getD, List.getElem?_eq_getElem hi', Option.getD_some]

end Memory

end EmbeddedSoftware.UserMemory
