import Mathlib.Data.List.Basic
import Mathlib.Order.Lattice
import Mathlib.Tactic.Common

/-!
# Bubble sort by index

The double loop over the first `n` places of an array, largest key first. Each access of a
place is checked, so `none` says that some index was outside. A pass carries a smallest
element to its end. The places behind the passes hold their final values.
-/

namespace EmbeddedSoftware.BubbleSort

variable {α κ : Type*} [LinearOrder κ] (key : α → κ)

/-- The body of the loop: `j` and `j + 1` change places when the left key is smaller. -/
def exchange (l : List α) (j : ℕ) : Option (List α) :=
  match l[j]?, l[j + 1]? with
  | some x, some y => some (if key x < key y then (l.set j y).set (j + 1) x else l)
  | _, _ => none

/-- The inner loop for the indices below `k`. -/
def pass (l : List α) : ℕ → Option (List α)
  | 0 => some l
  | k + 1 => (pass l k).bind (exchange key · k)

/-- The first `i` rounds of the outer loop. -/
def passes (n : ℕ) (l : List α) : ℕ → Option (List α)
  | 0 => some l
  | i + 1 => (passes n l i).bind fun l' => pass key l' (n - 1 - i)

def bubble (n : ℕ) (l : List α) : Option (List α) := passes key n l (n - 1)

def Descending (l : List α) : Prop := l.Pairwise fun x y => key y ≤ key x

variable {key} {l front rest : List α} {x y : α} {i j k n : ℕ}

theorem exchange_append (rest : List α) (x y : α) (hj : front.length = j) :
    exchange key (front ++ x :: y :: rest) j =
      some (if key x < key y then front ++ y :: x :: rest else front ++ x :: y :: rest) := by
  subst hj
  have hx : (front ++ x :: y :: rest)[front.length]? = some x := by simp
  have hy : (front ++ x :: y :: rest)[front.length + 1]? = some y := by simp
  simp only [exchange, hx, hy]
  split
  · simp
  · rfl

theorem exchange_eq_none (h : l.length ≤ j + 1) : exchange key l j = none := by
  have hy : l[j + 1]? = none := List.getElem?_eq_none h
  simp only [exchange, hy]
  split <;> simp_all

theorem length_of_exchange {l' : List α} (h : exchange key l j = some l') :
    l'.length = l.length := by
  simp only [exchange] at h
  split at h
  · cases h
    split <;> simp
  · cases h

theorem length_of_pass {l' : List α} (h : pass key l k = some l') : l'.length = l.length := by
  induction k generalizing l' with
  | zero =>
    cases h
    rfl
  | succ k ih =>
    obtain ⟨t, ht, hrest⟩ := Option.bind_eq_some_iff.mp h
    rw [length_of_exchange hrest, ih ht]

/-- A pass over `k + 1` places leaves a smallest of them at the end. -/
theorem exists_pass (key : α → κ) (h : k < l.length) : ∃ front x,
    pass key l k = some (front ++ x :: l.drop (k + 1)) ∧ front.length = k ∧
    (front ++ [x]).Perm (l.take (k + 1)) ∧ ∀ y ∈ front, key x ≤ key y := by
  induction k with
  | zero =>
    obtain ⟨x, rest, rfl⟩ := List.exists_cons_of_length_pos h
    exact ⟨[], x, rfl, rfl, by simp, by simp⟩
  | succ k ih =>
    obtain ⟨front, x, hpass, hlength, hperm, hmin⟩ := ih (Nat.lt_of_succ_lt h)
    have hdrop : l.drop (k + 1) = l[k + 1] :: l.drop (k + 2) := List.drop_eq_getElem_cons h
    have htake : l.take (k + 2) = l.take (k + 1) ++ [l[k + 1]] := by
      rw [List.take_add_one, List.getElem?_eq_getElem h]
      rfl
    have hstep : pass key l (k + 1) = some (if key x < key l[k + 1]
        then front ++ l[k + 1] :: x :: l.drop (k + 2)
        else front ++ x :: l[k + 1] :: l.drop (k + 2)) := by
      rw [pass, hpass, Option.bind_some, hdrop, exchange_append _ _ _ hlength]
    by_cases hlt : key x < key l[k + 1]
    · refine ⟨front ++ [l[k + 1]], x, ?_, by simp [hlength], ?_, ?_⟩
      · rw [hstep, if_pos hlt]
        simp
      · rw [htake]
        have hswap : (front ++ [l[k + 1]] ++ [x]).Perm (front ++ [x] ++ [l[k + 1]]) := by
          simp only [List.append_assoc]
          exact (List.Perm.swap _ _ _).append_left front
        exact hswap.trans (hperm.append_right _)
      · intro y hy
        rcases List.mem_append.mp hy with hy | hy
        · exact hmin y hy
        · rw [List.mem_singleton.mp hy]
          exact le_of_lt hlt
    · have hle : key l[k + 1] ≤ key x := le_of_not_gt hlt
      refine ⟨front ++ [x], l[k + 1], ?_, by simp [hlength], ?_, ?_⟩
      · rw [hstep, if_neg hlt]
        simp
      · rw [htake]
        exact hperm.append_right _
      · intro y hy
        rcases List.mem_append.mp hy with hy | hy
        · exact le_trans hle (hmin y hy)
        · rw [List.mem_singleton.mp hy]
          exact hle

theorem drop_of_pass {l' : List α} (h : pass key l k = some l') : l'.drop (k + 1) = l.drop (k + 1) := by
  by_cases hk : k < l.length
  · obtain ⟨front, x, hpass, hlength, -, -⟩ := exists_pass key hk
    obtain rfl : front ++ x :: l.drop (k + 1) = l' := Option.some.inj (hpass.symm.trans h)
    rw [List.append_cons, List.drop_left' (by simp [hlength])]
  · have hlength := length_of_pass h
    rw [List.drop_of_length_le (by omega), List.drop_of_length_le (by omega)]

/-- After `i` rounds the last `i` of the `n` places are final. -/
structure Rounds (key : α → κ) (n i : ℕ) (l front done : List α) : Prop where
  length_front : front.length = n - i
  length_done : done.length = i
  perm : (front ++ done).Perm (l.take n)
  descending : Descending key done
  above : ∀ x ∈ front, ∀ y ∈ done, key y ≤ key x

theorem exists_passes (key : α → κ) (hn : n ≤ l.length) (hi : i ≤ n - 1) : ∃ front done,
    passes key n l i = some (front ++ done ++ l.drop n) ∧ Rounds key n i l front done := by
  induction i with
  | zero =>
    refine ⟨l.take n, [], by simp [passes], by simp [hn], rfl, by simp, List.Pairwise.nil, by simp⟩
  | succ i ih =>
    obtain ⟨front, done, hpasses, h⟩ := ih (Nat.le_of_succ_le hi)
    have hfront : front.length = n - 1 - i + 1 := by
      rw [h.length_front]
      omega
    obtain ⟨front', x, hpass, hlength, hperm, hmin⟩ :=
      exists_pass key (l := front ++ done ++ l.drop n) (k := n - 1 - i) (by simp; omega)
    rw [List.append_assoc, List.take_left' hfront] at hperm
    rw [List.append_assoc, List.drop_left' hfront] at hpass
    have hmem : ∀ y ∈ front' ++ [x], y ∈ front := fun y hy => hperm.mem_iff.mp hy
    refine ⟨front', x :: done, ?_, ?_, by simp [h.length_done], ?_, ?_, ?_⟩
    · rw [passes, hpasses, Option.bind_some, List.append_assoc, hpass]
      simp
    · rw [hlength]
      omega
    · have hshift : (front' ++ x :: done).Perm (front ++ done) := by
        rw [List.append_cons]
        exact hperm.append_right done
      exact hshift.trans h.perm
    · exact List.pairwise_cons.mpr ⟨fun y hy => h.above x (hmem x (by simp)) y hy, h.descending⟩
    · intro y hy z hz
      rcases List.mem_cons.mp hz with rfl | hz
      · exact hmin y hy
      · exact h.above y (hmem y (by simp [hy])) z hz

/-- What `i` rounds have put behind the front is not moved by the rounds after them. -/
theorem drop_of_passes {l' r : List α} {m : ℕ} (hi : passes key n l i = some l')
    (hm : i + m ≤ n - 1) (h : passes key n l (i + m) = some r) :
    r.drop (n - i) = l'.drop (n - i) := by
  induction m generalizing r with
  | zero =>
    obtain rfl : l' = r := Option.some.inj (hi.symm.trans h)
    rfl
  | succ m ih =>
    obtain ⟨t, ht, hpass⟩ := Option.bind_eq_some_iff.mp h
    have hend : n - 1 - (i + m) + 1 = n - (i + m) := by omega
    have hbehind : r.drop (n - (i + m)) = t.drop (n - (i + m)) := by
      rw [← hend]
      exact drop_of_pass hpass
    have hlater : n - i = n - (i + m) + m := by omega
    calc r.drop (n - i) = (r.drop (n - (i + m))).drop m := by rw [List.drop_drop, hlater]
      _ = (t.drop (n - (i + m))).drop m := by rw [hbehind]
      _ = t.drop (n - i) := by rw [List.drop_drop, hlater]
      _ = l'.drop (n - i) := ih (Nat.le_of_succ_le hm) ht

/-- The loops stay inside `n` places, sort them and leave the others alone. -/
theorem exists_bubble (key : α → κ) (hn : n ≤ l.length) : ∃ sorted,
    bubble key n l = some (sorted ++ l.drop n) ∧ sorted.Perm (l.take n) ∧
    Descending key sorted := by
  obtain ⟨front, done, hpasses, h⟩ := exists_passes key hn (Nat.le_refl _)
  refine ⟨front ++ done, hpasses, h.perm, ?_⟩
  have hfront : front.length ≤ 1 := by
    rw [h.length_front]
    omega
  have hsingle : front.Pairwise fun x y => key y ≤ key x := by
    rcases front with _ | ⟨x, _ | ⟨y, rest⟩⟩
    · exact List.Pairwise.nil
    · exact List.pairwise_singleton _ _
    · simp at hfront
  exact List.pairwise_append.mpr ⟨hsingle, h.descending, h.above⟩

theorem bubble_eq_none (hn : 2 ≤ n) (hl : l.length < n) : bubble key n l = none := by
  obtain ⟨m, rfl⟩ := Nat.exists_eq_add_of_le hn
  have hpass : pass key l (m + 1) = none := by
    cases h : pass key l m with
    | none => simp [pass, h]
    | some l' =>
      have hlength := length_of_pass h
      rw [pass, h, Option.bind_some, exchange_eq_none (by omega)]
  have hround : ∀ i, passes key (2 + m) l (i + 1) = none := by
    intro i
    induction i with
    | zero =>
      have hk : 2 + m - 1 - 0 = m + 1 := by omega
      rw [passes, passes, Option.bind_some, hk, hpass]
    | succ i ih => rw [passes, ih, Option.bind_none]
  have hk : 2 + m - 1 = m + 1 := by omega
  rw [bubble, hk]
  exact hround m

end EmbeddedSoftware.BubbleSort
