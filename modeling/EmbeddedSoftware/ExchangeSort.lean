import Mathlib.Data.List.Basic
import Mathlib.Order.Lattice
import Mathlib.Tactic.Common

/-!
# Exchange sort by index

For every place the loop compares the element there with each one behind it, and exchanges
them when they are in the wrong order. A scan leaves a smallest element at its place, so the
places before it are final. Each access is checked: `none` says that an index was outside.
-/

namespace EmbeddedSoftware.ExchangeSort

section Loops

variable {α : Type*} (gt : α → α → Bool)

/-- The body of the loops: places `j` and `i` are exchanged when `j` has the larger element. -/
def exchange (l : List α) (j i : ℕ) : Option (List α) :=
  match l[j]?, l[i]? with
  | some x, some y => some (if gt x y then (l.set i x).set j y else l)
  | _, _ => none

def scan (l : List α) (j : ℕ) : ℕ → Option (List α)
  | 0 => some l
  | k + 1 => (scan l j k).bind (exchange gt · j (j + k))

def scans (n : ℕ) (l : List α) : ℕ → Option (List α)
  | 0 => some l
  | j + 1 => (scans n l j).bind fun l' => scan gt l' j (n - j)

def exchangeSort (n : ℕ) (l : List α) : Option (List α) := scans gt n l n

end Loops

variable {α κ : Type*} [LinearOrder κ] {gt : α → α → Bool} {key : α → κ}
variable {front done rest : List α} {j k : ℕ}

theorem exchange_self {l : List α} {x : α} (hirrefl : gt x x = false) (hx : l[j]? = some x) :
    exchange gt l j j = some l := by
  simp [exchange, hx, hirrefl]

theorem exchange_append (gt : α → α → Bool) (x y : α) (rest : List α) (hj : front.length = j)
    (hk : done.length = k) :
    exchange gt (front ++ x :: (done ++ y :: rest)) j (j + (k + 1)) =
      some (if gt x y then front ++ y :: (done ++ x :: rest)
        else front ++ x :: (done ++ y :: rest)) := by
  subst hj hk
  have hx : (front ++ x :: (done ++ y :: rest))[front.length]? = some x := by simp
  have hy : (front ++ x :: (done ++ y :: rest))[front.length + (done.length + 1)]? = some y := by
    simp
  simp only [exchange, hx, hy]
  split
  · simp
  · rfl

/-- A scan over `k` further places keeps a smallest element at place `j`. -/
theorem exists_scan (hgt : ∀ x y, gt x y = true ↔ key y < key x) {x : α} (hj : front.length = j)
    (hk : k ≤ rest.length) : ∃ m done,
    scan gt (front ++ x :: rest) j (k + 1) = some (front ++ m :: (done ++ rest.drop k)) ∧
    done.length = k ∧ (m :: done).Perm (x :: rest.take k) ∧ ∀ y ∈ done, key m ≤ key y := by
  induction k with
  | zero =>
    have hirrefl : gt x x = false := by
      rw [← Bool.not_eq_true, hgt]
      exact lt_irrefl _
    have hx : (front ++ x :: rest)[j]? = some x := by simp [← hj]
    refine ⟨x, [], ?_, rfl, by simp, by simp⟩
    rw [scan, scan, Option.bind_some, Nat.add_zero, exchange_self hirrefl hx]
    simp
  | succ k ih =>
    obtain ⟨m, done, hscan, hlength, hperm, hmin⟩ := ih (Nat.le_of_succ_le hk)
    have hdrop : rest.drop k = rest[k] :: rest.drop (k + 1) := List.drop_eq_getElem_cons hk
    have htake : rest.take (k + 1) = rest.take k ++ [rest[k]] := by
      rw [List.take_add_one, List.getElem?_eq_getElem hk]
      rfl
    have hperm' : (m :: (done ++ [rest[k]])).Perm (x :: rest.take (k + 1)) := by
      rw [htake]
      exact hperm.append_right [rest[k]]
    have hstep : scan gt (front ++ x :: rest) j (k + 1 + 1) =
        some (if gt m rest[k] then front ++ rest[k] :: (done ++ m :: rest.drop (k + 1))
          else front ++ m :: (done ++ rest[k] :: rest.drop (k + 1))) := by
      rw [scan, hscan, Option.bind_some, hdrop, exchange_append gt _ _ _ hj hlength]
    by_cases hlt : key rest[k] < key m
    · refine ⟨rest[k], done ++ [m], ?_, by simp [hlength], ?_, ?_⟩
      · rw [hstep, if_pos ((hgt _ _).mpr hlt)]
        simp
      · have hswap : (rest[k] :: (done ++ [m])).Perm (m :: (done ++ [rest[k]])) :=
          (List.perm_append_singleton m done).cons rest[k] |>.trans
            ((List.Perm.swap m rest[k] done).trans
              ((List.perm_append_singleton rest[k] done).symm.cons m))
        exact hswap.trans hperm'
      · intro y hy
        rcases List.mem_append.mp hy with hy | hy
        · exact le_trans (le_of_lt hlt) (hmin y hy)
        · rw [List.mem_singleton.mp hy]
          exact le_of_lt hlt
    · have hle : key m ≤ key rest[k] := le_of_not_gt hlt
      refine ⟨m, done ++ [rest[k]], ?_, by simp [hlength], hperm', ?_⟩
      · rw [hstep, if_neg (by rw [hgt]; exact hlt)]
        simp
      · intro y hy
        rcases List.mem_append.mp hy with hy | hy
        · exact hmin y hy
        · rw [List.mem_singleton.mp hy]
          exact hle

structure Sorted (key : α → κ) (j : ℕ) (l front rest : List α) : Prop where
  length_front : front.length = j
  perm : (front ++ rest).Perm l
  ascending : front.Pairwise fun x y => key x ≤ key y
  below : ∀ x ∈ front, ∀ y ∈ rest, key x ≤ key y

theorem exists_scans (hgt : ∀ x y, gt x y = true ↔ key y < key x) {l : List α}
    (hj : j ≤ l.length) : ∃ front rest,
    scans gt l.length l j = some (front ++ rest) ∧ Sorted key j l front rest := by
  induction j with
  | zero => exact ⟨[], l, rfl, rfl, List.Perm.refl l, List.Pairwise.nil, by simp⟩
  | succ j ih =>
    obtain ⟨front, rest, hscans, h⟩ := ih (Nat.le_of_succ_le hj)
    have htotal := h.perm.length_eq
    rw [List.length_append, h.length_front] at htotal
    cases rest with
    | nil =>
      simp only [List.length_nil] at htotal
      omega
    | cons x rest =>
      simp only [List.length_cons] at htotal
      obtain ⟨m, done, hscan, hlength, hperm, hmin⟩ :=
        exists_scan hgt (x := x) h.length_front (Nat.le_refl rest.length)
      rw [List.take_length] at hperm
      rw [List.drop_length, List.append_nil] at hscan
      have hcount : l.length - j = rest.length + 1 := by omega
      have hmem : ∀ y ∈ m :: done, y ∈ x :: rest := fun y hy => hperm.mem_iff.mp hy
      refine ⟨front ++ [m], done, ?_, by simp [h.length_front], ?_, ?_, ?_⟩
      · rw [scans, hscans, Option.bind_some, hcount, hscan, List.append_assoc]
        rfl
      · rw [List.append_assoc]
        exact (hperm.append_left front).trans h.perm
      · apply List.pairwise_append.mpr
        refine ⟨h.ascending, List.pairwise_singleton _ _, ?_⟩
        intro y hy z hz
        rw [List.mem_singleton.mp hz]
        exact h.below y hy m (hmem m List.mem_cons_self)
      · intro y hy z hz
        rcases List.mem_append.mp hy with hy | hy
        · exact h.below y hy z (hmem z (List.mem_cons_of_mem m hz))
        · rw [List.mem_singleton.mp hy]
          exact hmin z hz

/-- Over the whole array the loops stay inside it and sort it. -/
theorem exists_exchangeSort (key : α → κ) (hgt : ∀ x y, gt x y = true ↔ key y < key x)
    (l : List α) :
    ∃ sorted, exchangeSort gt l.length l = some sorted ∧ sorted.Perm l ∧
      sorted.Pairwise fun x y => key x ≤ key y := by
  obtain ⟨front, rest, hscans, h⟩ := exists_scans hgt (Nat.le_refl l.length)
  have hrest : rest = [] := by
    have htotal := h.perm.length_eq
    rw [List.length_append, h.length_front] at htotal
    exact List.eq_nil_of_length_eq_zero (by omega)
  subst hrest
  rw [List.append_nil] at hscans
  have hperm := h.perm
  rw [List.append_nil] at hperm
  exact ⟨front, hscans, hperm, h.ascending⟩

end EmbeddedSoftware.ExchangeSort
