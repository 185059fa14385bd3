import EmbeddedSoftware.ByteLayout

/-!
# Structures in memory

The members of a structure follow each other in the order of their declarations. Each of them
starts at a multiple of its alignment, and the size of the structure is a multiple of the largest
alignment. A store changes the bytes of one member and leaves all others as they were, also those
between the members and behind the last one.
-/

namespace EmbeddedSoftware.StructLayout

open ByteLayout

structure CType where
  size : ℕ
  align : ℕ

/-- The first multiple of `a` from `n` on. -/
def roundUp (n a : ℕ) : ℕ := (n + a - 1) / a * a

def offsetsFrom : ℕ → List CType → List ℕ
  | _, [] => []
  | n, t :: ts => roundUp n t.align :: offsetsFrom (roundUp n t.align + t.size) ts

def endFrom : ℕ → List CType → ℕ
  | n, [] => n
  | n, t :: ts => endFrom (roundUp n t.align + t.size) ts

def offsets (ts : List CType) : List ℕ := offsetsFrom 0 ts

def structSize (ts : List CType) : ℕ := roundUp (endFrom 0 ts) ((ts.map CType.align).foldl max 1)

variable {α : Type*}

/-- The memory after the bytes `v` were stored from byte number `k` on. -/
def store (k : ℕ) (v mem : List α) : List α := mem.take k ++ overlay v (mem.drop k)

/-- The `n` bytes from byte number `k` on. -/
def load (k n : ℕ) (mem : List α) : List α := (mem.drop k).take n

@[simp] theorem length_store (k : ℕ) (v mem : List α) : (store k v mem).length = mem.length := by
  rw [store, List.length_append, length_overlay, ← List.length_append, List.take_append_drop]

theorem store_append {k : ℕ} {front : List α} (h : front.length = k) (v back : List α) :
    store k v (front ++ back) = front ++ overlay v back := by
  rw [store, List.take_left' h, List.drop_left' h]

theorem load_append {k : ℕ} {front : List α} (h : front.length = k) (n : ℕ) (back : List α) :
    load k n (front ++ back) = back.take n := by
  rw [load, List.drop_left' h]

/-- What is stored inside the first part of a memory leaves the second part alone. -/
theorem overlay_append {v front : List α} (h : v.length ≤ front.length) (back : List α) :
    overlay v (front ++ back) = overlay v front ++ back := by
  have hwhole : v.length ≤ (front ++ back).length := by
    rw [List.length_append]
    omega
  rw [overlay, overlay, List.take_of_length_le hwhole, List.take_of_length_le h,
    List.drop_append_of_le_length h, List.append_assoc]

theorem overlay_append_left {v mem : List α} (h : v.length ≤ mem.length) (w : List α) :
    overlay (v ++ w) mem = v ++ overlay w (mem.drop v.length) := by
  rw [overlay, overlay, List.take_append, List.take_of_length_le h, List.length_drop,
    List.drop_drop, List.length_append, List.append_assoc]

theorem store_store {k : ℕ} {v mem : List α} (h : k + v.length ≤ mem.length) (w : List α) :
    store (k + v.length) w (store k v mem) = store k (v ++ w) mem := by
  have hdrop : v.length ≤ (mem.drop k).length := by
    rw [List.length_drop]
    omega
  have hfront : (mem.take k ++ v).length = k + v.length := by
    rw [List.length_append, List.length_take]
    omega
  have hfirst : store k v mem = (mem.take k ++ v) ++ (mem.drop k).drop v.length := by
    rw [store, overlay, List.take_of_length_le hdrop, List.append_assoc]
  rw [hfirst, store_append hfront, store, overlay_append_left hdrop, List.append_assoc]

end EmbeddedSoftware.StructLayout
