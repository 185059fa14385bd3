import EmbeddedSoftware.RunRules
import EmbeddedSoftware.SortCall

/-!
# The loops of sortfunc step by step

The double loop with its counters, and a record of every index at which it reads or writes the
kernel buffer. Whatever the number of elements is, the loops come to their end, stay below it and
compute what the rounds of the bubble sort compute.
-/

namespace EmbeddedSoftware.SortCall

open BubbleSort RunRules

inductive LoopPc where
  | outer | inner | body | done
  deriving DecidableEq

/-- The variables of the loops, and the indices at which `buffk` was read or written. -/
structure Loops where
  pc : LoopPc
  i : ℤ
  j : ℤ
  buffk : List (BitVec 32)
  accessed : List ℕ

namespace Loops

/-- The comparison reads two elements. The exchange reads both again and writes both. There is no
next state when one of them is not in the array. -/
def compare (s : Loops) : Option Loops :=
  let k := s.j.toNat
  match s.buffk[k]?, s.buffk[k + 1]? with
  | some x, some y =>
    if x.toInt < y.toInt then
      some { s with
        buffk := (s.buffk.set k y).set (k + 1) x
        accessed := s.accessed ++ [k, k + 1] ++ [k, k + 1, k, k + 1]
        j := s.j + 1
        pc := .inner }
    else some { s with accessed := s.accessed ++ [k, k + 1], j := s.j + 1, pc := .inner }
  | _, _ => none

def exec (elements : ℤ) (s : Loops) : Option Loops :=
  match s.pc with
  | .outer =>
    if s.i < elements - 1 then some { s with j := 0, pc := .inner }
    else some { s with pc := .done }
  | .inner =>
    if s.j < elements - 1 - s.i then some { s with pc := .body }
    else some { s with i := s.i + 1, pc := .outer }
  | .body => s.compare
  | .done => none

def start (array : List (BitVec 32)) : Loops := ⟨.outer, 0, 0, array, []⟩

/-- Where the loops are: `i` rounds are over, and `j` exchanges of the next one. -/
def Computes (n : ℕ) (array : List (BitVec 32)) (s : Loops) : Prop :=
  match s.pc with
  | .outer => ∃ i : ℕ, s.i = i ∧ i ≤ n - 1 ∧ passes BitVec.toInt n array i = some s.buffk
  | .inner => ∃ (i j : ℕ) (l : List (BitVec 32)), s.i = i ∧ s.j = j ∧ i < n - 1 ∧ j ≤ n - 1 - i ∧
      passes BitVec.toInt n array i = some l ∧ pass BitVec.toInt l j = some s.buffk
  | .body => ∃ (i j : ℕ) (l : List (BitVec 32)), s.i = i ∧ s.j = j ∧ i < n - 1 ∧ j < n - 1 - i ∧
      passes BitVec.toInt n array i = some l ∧ pass BitVec.toInt l j = some s.buffk
  | .done => passes BitVec.toInt n array (n - 1) = some s.buffk

/-- What holds in every state of the loops. -/
structure Inside (n : ℕ) (array : List (BitVec 32)) (s : Loops) : Prop where
  accessed : ∀ k ∈ s.accessed, k < n
  computes : s.Computes n array

def left (n : ℕ) (s : Loops) : ℕ :=
  match s.pc with
  | .outer => (n - s.i.toNat) * (2 * n + 3) + 1
  | .inner => (n - s.i.toNat) * (2 * n + 3) - 2 * s.j.toNat
  | .body => (n - s.i.toNat) * (2 * n + 3) - 2 * s.j.toNat - 1
  | .done => 0

section Steps

variable {n : ℕ} {array : List (BitVec 32)} {s t : Loops}

theorem compare_of_exchange {l : List (BitVec 32)}
    (h : exchange BitVec.toInt s.buffk s.j.toNat = some l) : ∃ touched : List ℕ,
    s.compare = some { s with
      buffk := l, accessed := s.accessed ++ touched, j := s.j + 1, pc := .inner } ∧
    ∀ k ∈ touched, k ≤ s.j.toNat + 1 := by
  simp only [exchange] at h
  split at h
  · next x y hx hy =>
    cases h
    by_cases hlt : x.toInt < y.toInt
    · refine ⟨[s.j.toNat, s.j.toNat + 1] ++
        [s.j.toNat, s.j.toNat + 1, s.j.toNat, s.j.toNat + 1], ?_, ?_⟩
      · simp only [compare, hx, hy, hlt, if_true, List.append_assoc]
      · simp
    · refine ⟨[s.j.toNat, s.j.toNat + 1], ?_, ?_⟩
      · simp only [compare, hx, hy, hlt, if_false]
      · simp
  · cases h

/-- The exchange that is next finds both its elements, and carries the round on. -/
theorem exists_exchange {i j : ℕ} {l : List (BitVec 32)} (hn : n ≤ array.length) (hi : i < n - 1)
    (hj : j < n - 1 - i) (hpasses : passes BitVec.toInt n array i = some l)
    (hpass : pass BitVec.toInt l j = some s.buffk) : ∃ l',
    exchange BitVec.toInt s.buffk j = some l' ∧ pass BitVec.toInt l (j + 1) = some l' := by
  obtain ⟨front, done, hrounds, h⟩ := exists_passes BitVec.toInt hn (Nat.le_of_lt hi)
  obtain rfl : front ++ done ++ array.drop n = l := Option.some.inj (hrounds.symm.trans hpasses)
  have hlength : j + 1 < (front ++ done ++ array.drop n).length := by
    rw [List.length_append, List.length_append, h.length_front, h.length_done]
    omega
  obtain ⟨front', x, hnext, -⟩ := exists_pass BitVec.toInt hlength
  refine ⟨_, ?_, hnext⟩
  rw [BubbleSort.pass, hpass, Option.bind_some] at hnext
  exact hnext

theorem left_succ {i : ℕ} (hi : i < n) :
    (n - i) * (2 * n + 3) = (n - (i + 1)) * (2 * n + 3) + (2 * n + 3) := by
  have hone : n - i = n - (i + 1) + 1 := by omega
  rw [hone, Nat.succ_mul]

theorem Inside.step (hn : n ≤ array.length) (h : Inside n array s) (he : s.exec n = some t) :
    Inside n array t ∧ t.left n < s.left n := by
  obtain ⟨haccessed, hcomputes⟩ := h
  rw [exec.eq_def] at he
  cases hpc : s.pc with
  | outer =>
    simp only [hpc] at he
    simp only [Computes, hpc] at hcomputes
    obtain ⟨i, hi, hle, hpasses⟩ := hcomputes
    split at he <;> cases he
    · next hlt =>
      have hlt' : i < n - 1 := by omega
      refine ⟨⟨haccessed, i, 0, s.buffk, hi, rfl, hlt', Nat.zero_le _, hpasses, rfl⟩, ?_⟩
      simp only [left, hpc]
      exact Nat.lt_succ_of_le (Nat.sub_le _ _)
    · next hge =>
      obtain rfl : i = n - 1 := by omega
      refine ⟨⟨haccessed, hpasses⟩, ?_⟩
      simp only [left, hpc]
      exact Nat.succ_pos _
  | inner =>
    simp only [hpc] at he
    simp only [Computes, hpc] at hcomputes
    obtain ⟨i, j, l, hi, hj, hlt, hle, hpasses, hpass⟩ := hcomputes
    have hmul := left_succ (n := n) (i := i) (by omega)
    split at he <;> cases he
    · next hmore =>
      refine ⟨⟨haccessed, i, j, l, hi, hj, hlt, by omega, hpasses, hpass⟩, ?_⟩
      simp only [left, hpc, hi, hj, Int.toNat_natCast]
      omega
    · next hend =>
      have hround : j = n - 1 - i := by omega
      refine ⟨⟨haccessed, i + 1, by simp only [hi]; rfl, hlt, ?_⟩, ?_⟩
      · rw [passes, hpasses, Option.bind_some, ← hround, hpass]
      · have hnext : (s.i + 1).toNat = i + 1 := by omega
        simp only [left, hpc, hi, hj, Int.toNat_natCast] at hnext ⊢
        rw [hnext]
        omega
  | body =>
    simp only [hpc] at he
    simp only [Computes, hpc] at hcomputes
    obtain ⟨i, j, l, hi, hj, hlt, hmore, hpasses, hpass⟩ := hcomputes
    obtain ⟨l', hexchange, hnext⟩ := exists_exchange hn hlt hmore hpasses hpass
    have hindex : s.j.toNat = j := by omega
    rw [← hindex] at hexchange
    obtain ⟨touched, hcompare, htouched⟩ := compare_of_exchange hexchange
    rw [hcompare] at he
    cases he
    have hmul := left_succ (n := n) (i := i) (by omega)
    refine ⟨⟨?_, i, j + 1, l, hi, by simp only [hj]; rfl, hlt, hmore, hpasses, hnext⟩, ?_⟩
    · intro k hk
      rcases List.mem_append.mp hk with hk | hk
      · exact haccessed k hk
      · have hle := htouched k hk
        omega
    · have hstep : (s.j + 1).toNat = j + 1 := by omega
      simp only [left, hpc, hi, hstep, hindex, Int.toNat_natCast]
      omega
  | done => simp [hpc] at he

theorem inside_start (n : ℕ) (array : List (BitVec 32)) : Inside n array (start array) where
  accessed := by simp [start]
  computes := ⟨0, rfl, Nat.zero_le _, rfl⟩

theorem Inside.of_run (hn : n ≤ array.length) (hrun : Leads (exec n) (start array) s) :
    Inside n array s := by
  refine run_invariant ?_ (inside_start n array) hrun
  intro s t hs hstep
  exact (hs.step hn hstep).1

theorem Inside.pc_eq_done (hn : n ≤ array.length) (h : Inside n array s) (hend : s.exec n = none) :
    s.pc = .done := by
  have hcomputes := h.computes
  rw [exec.eq_def] at hend
  cases hpc : s.pc with
  | outer =>
    simp only [hpc] at hend
    split at hend <;> cases hend
  | inner =>
    simp only [hpc] at hend
    split at hend <;> cases hend
  | body =>
    simp only [hpc] at hend
    simp only [Computes, hpc] at hcomputes
    obtain ⟨i, j, l, hi, hj, hlt, hmore, hpasses, hpass⟩ := hcomputes
    obtain ⟨l', hexchange, -⟩ := exists_exchange hn hlt hmore hpasses hpass
    have hindex : s.j.toNat = j := by omega
    rw [← hindex] at hexchange
    obtain ⟨touched, hcompare, -⟩ := compare_of_exchange hexchange
    rw [hcompare] at hend
    cases hend
  | done => rfl

/-- The loops compute the sort that the call uses. -/
theorem bubble_of_run (hn : n ≤ array.length) (hrun : Leads (exec n) (start array) s)
    (hdone : s.pc = .done) : bubble BitVec.toInt n array = some s.buffk := by
  have hcomputes := (Inside.of_run hn hrun).computes
  simp only [Computes, hdone] at hcomputes
  exact hcomputes

theorem exists_done (hn : n ≤ array.length) : ∃ t : Loops, t.pc = .done ∧
    Leads (exec n) (start array) t ∧
    ∀ s, Leads (exec n) (start array) s → Leads (exec n) s t := by
  obtain ⟨t, hrun, hend, hinside⟩ := exists_leads_to_end (f := exec n) (left n)
    (fun _ _ hs he => Inside.step hn hs he) (inside_start n array)
  exact ⟨t, hinside.pc_eq_done hn hend, hrun, fun s hs => leads_to_end hrun hend hs⟩

/-- What `i` rounds have put at the end of the `n` elements stays there. -/
theorem drop_of_outer {i : ℕ} (hn : n ≤ array.length) (hs : Leads (exec n) (start array) s)
    (houter : s.pc = .outer) (hi : s.i = i) (ht : Leads (exec n) (start array) t)
    (hdone : t.pc = .done) : s.buffk.drop (n - i) = t.buffk.drop (n - i) := by
  have hcomputes := (Inside.of_run hn hs).computes
  simp only [Computes, houter] at hcomputes
  obtain ⟨i', hi', hle, hpasses⟩ := hcomputes
  obtain rfl : i' = i := by omega
  obtain ⟨m, hm⟩ := Nat.exists_eq_add_of_le hle
  have hbubble := bubble_of_run hn ht hdone
  rw [bubble, hm] at hbubble
  exact (drop_of_passes hpasses (Nat.le_of_eq hm.symm) hbubble).symm

end Steps

end Loops

/-- For every number of elements and every array that has them: the loops always come to the same
end, with the elements sorted and the rest of the array as it was. They use no index outside of the
elements, and after `i` rounds the last `i` elements are those of the end. -/
theorem loops_sort (n : ℕ) (array : List (BitVec 32)) (hn : n ≤ array.length) :
    ∃ t : Loops, t.pc = .done ∧
      (∀ s, Leads (Loops.exec n) (Loops.start array) s → Leads (Loops.exec n) s t) ∧
      (t.buffk.take n).Perm (array.take n) ∧ Descending BitVec.toInt (t.buffk.take n) ∧
      t.buffk.drop n = array.drop n ∧
      ∀ s, Leads (Loops.exec n) (Loops.start array) s → (∀ k ∈ s.accessed, k < n) ∧
        ∀ i : ℕ, s.pc = .outer → s.i = i → s.buffk.drop (n - i) = t.buffk.drop (n - i) := by
  obtain ⟨t, hdone, hrun, hall⟩ := Loops.exists_done hn
  obtain ⟨sorted, hbubble, hperm, hdescending⟩ := exists_bubble BitVec.toInt hn
  have hbuffk : t.buffk = sorted ++ array.drop n :=
    Option.some.inj ((Loops.bubble_of_run hn hrun hdone).symm.trans hbubble)
  have hlength : sorted.length = n := by
    rw [hperm.length_eq, List.length_take, Nat.min_eq_left hn]
  refine ⟨t, hdone, hall, ?_, ?_, ?_, ?_⟩
  · rw [hbuffk, List.take_left' hlength]
    exact hperm
  · rw [hbuffk, List.take_left' hlength]
    exact hdescending
  · rw [hbuffk, List.drop_left' hlength]
  · intro s hs
    exact ⟨(Loops.Inside.of_run hn hs).accessed,
      fun i houter hi => Loops.drop_of_outer hn hs houter hi hrun hdone⟩

theorem loops_sort_three_elements : 3 ≤ [1#32, 3#32, 2#32].length ∧
    ∃ t : Loops, t.pc = .done ∧ (t.buffk.take 3).Perm [1#32, 3#32, 2#32] ∧
      Descending BitVec.toInt (t.buffk.take 3) := by
  obtain ⟨t, hdone, -, hperm, hdescending, -⟩ := loops_sort 3 [1#32, 3#32, 2#32] (by decide)
  exact ⟨by decide, t, hdone, hperm, hdescending⟩

end EmbeddedSoftware.SortCall
