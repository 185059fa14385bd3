import EmbeddedSoftware.LetterStatistics
import Mathlib.Algebra.Group.Int.Defs

/-!
# The buckets of the letters

The counting loop increments a bucket for every byte that it consumes, since its test never
fails. The byte goes through a signed `char`, an `int` and back to eight bits before it is an
index. In every run of all threads, whatever stream the loop reads from, the bucket of a letter
has counted that letter and nothing else.
-/

namespace EmbeddedSoftware.SharedHandle

open Relation RunRules

def tolowerInt (c : ℤ) : ℤ := if 65 ≤ c ∧ c ≤ 90 then c + 32 else c

/-- The value that is assigned to `charval`. The `char` has a sign, and the result of `tolower`
is cut to eight bits. -/
def charvalOf (c : UInt8) : UInt8 := UInt8.ofInt (tolowerInt c.toInt8.toInt)

def testOf (c : UInt8) : Prop := truth (97 ≤ charvalOf c) ≤ 122

/-- The index `i = charval-97`: the difference is an `int`, and `i` has eight bits. -/
def indexOf (c : UInt8) : ℕ := (UInt8.ofInt ((charvalOf c).toNat - 97)).toNat

/-- The byte that a step counts. -/
def consumedBy (s : State) (e : Event) : List UInt8 :=
  if e = .child1 ∧ s.child1.pc = .count then [s.child1.capitalletter] else []

def execCounting (files : Files) (p : State × List UInt8) (e : Event) :
    Option (State × List UInt8) :=
  (p.1.exec files e).map fun t => (t, p.2 ++ consumedBy p.1 e)

/-- The runs of all threads with the bytes that the loop has consumed. -/
def CountingRun (files : Files) : State × List UInt8 → State × List UInt8 → Prop :=
  ReflTransGen (EventStep (execCounting files))

/-- The step from `s` to `t` passes the test and increments one bucket, which is the bucket of a
letter when the byte is that letter, and only then. -/
structure Increments (s t : State) (i : ℕ) : Prop where
  test : testOf s.child1.capitalletter
  below : i < 400
  arrayprint : t.child1.arrayprint =
    Function.update s.child1.arrayprint i (s.child1.arrayprint i + 1)
  letter : ∀ j < 26, i = j ↔ IsLetter j s.child1.capitalletter

section Bytes

theorem toNat_ofInt (x : ℤ) : (UInt8.ofInt x).toNat = (x % 256).toNat := by
  have hlt : (x % 256).toNat < 256 := by omega
  rw [UInt8.ofInt, UInt8.toNat_ofNat']
  exact Nat.mod_eq_of_lt hlt

theorem toInt_toInt8 (c : UInt8) :
    c.toInt8.toInt = if c.toNat < 128 then (c.toNat : ℤ) else c.toNat - 256 := by
  change c.toBitVec.toInt = _
  rw [BitVec.toInt_eq_toNat_cond, UInt8.toNat_toBitVec]
  split <;> split <;> omega

/-- The sign that the `char` gives to a byte from 128 on is lost again. -/
theorem charvalOf_eq (c : UInt8) : charvalOf c = tolower c := by
  have hlt := c.toNat_lt
  have h65 : 65 ≤ c ↔ 65 ≤ c.toNat := UInt8.le_iff_toNat_le
  have h90 : c ≤ 90 ↔ c.toNat ≤ 90 := UInt8.le_iff_toNat_le
  apply UInt8.toNat_inj.mp
  rw [charvalOf, toNat_ofInt, tolowerInt, toInt_toInt8, tolower]
  by_cases hupper : 65 ≤ c ∧ c ≤ 90
  · rw [if_pos hupper, UInt8.toNat_add]
    rw [h65, h90] at hupper
    rw [if_pos (by omega), if_pos (by omega)]
    simp only [UInt8.reduceToNat]
    omega
  · rw [if_neg hupper]
    rw [h65, h90] at hupper
    split <;> split <;> omega

theorem indexOf_eq (c : UInt8) : indexOf c = bucket c := by
  have hlt := (tolower c).toNat_lt
  rw [indexOf, toNat_ofInt, charvalOf_eq, bucket, UInt8.toNat_sub]
  simp only [UInt8.reduceToNat]
  omega

theorem testOf_all (c : UInt8) : testOf c := Nat.le_trans (truth_le_one _) (by decide)

end Bytes

section Counting

variable {files : Files} {s t : State} {e : Event}

theorem arrayprint_of_execChild1 (he : s.execChild1 files = some t) (hpc : s.child1.pc ≠ .count) :
    t.child1.arrayprint = s.child1.arrayprint := by
  cases h : s.child1.pc with
  | count => exact absurd h hpc
  | _ =>
    simp only [State.execChild1, State.openGdb, State.fgetc, State.letter, h] at he
    repeat' split at he
    all_goals cases he
    all_goals rfl

theorem child1_of_exec (he : s.exec files e = some t) (hother : e ≠ .child1) :
    t.child1 = s.child1 := by
  rw [State.exec.eq_def] at he
  split at he
  · cases he
  · cases e with
    | main => exact (execMain_cases he).1.child1
    | child1 => exact absurd rfl hother
    | child2 => exact (execChild2_cases he).1.child1
    | callback n opened => exact (execCallback_cases he).1.child1
    | cancel | expire =>
      simp only at he
      split at he <;> cases he
      rfl

theorem execChild1_of_exec (he : s.exec files .child1 = some t) :
    s.execChild1 files = some t := by
  rw [State.exec.eq_def] at he
  split at he
  · cases he
  · exact he

theorem arrayprint_of_count (he : s.exec files .child1 = some t) (hpc : s.child1.pc = .count) :
    t.child1.arrayprint = Function.update s.child1.arrayprint (indexOf s.child1.capitalletter)
      (s.child1.arrayprint (indexOf s.child1.capitalletter) + 1) := by
  have hcount := execChild1_of_exec he
  rw [State.execChild1, hpc] at hcount
  cases hcount
  rw [count_eq, indexOf_eq]

/-- A step adds the byte that it consumes to the counts. -/
theorem counts_step {bytes : List UInt8} (hcounts : s.child1.arrayprint = counts bytes)
    (he : s.exec files e = some t) :
    t.child1.arrayprint = counts (bytes ++ consumedBy s e) := by
  rw [consumedBy]
  by_cases hother : e = .child1
  · subst hother
    by_cases hpc : s.child1.pc = .count
    · rw [if_pos ⟨rfl, hpc⟩, counts_append, arrayprint_of_count he hpc, hcounts, indexOf_eq]
    · rw [if_neg (fun h => hpc h.2), List.append_nil,
        arrayprint_of_execChild1 (execChild1_of_exec he) hpc, hcounts]
  · rw [if_neg (fun h => hother h.1), List.append_nil, child1_of_exec he hother, hcounts]

def Counted (p : State × List UInt8) : Prop := p.1.child1.arrayprint = counts p.2

theorem CountingRun.counted {p q : State × List UInt8} (hrun : CountingRun files p q)
    (hp : Counted p) : Counted q := by
  apply run_invariant _ hp hrun
  rintro ⟨s, bytes⟩ q hs ⟨e, he⟩
  obtain ⟨t, ht, rfl⟩ := Option.map_eq_some_iff.mp he
  exact counts_step hs ht

/-- Every run of the threads has consumed some bytes. -/
theorem Run.counting (hrun : Run files s t) (bytes : List UInt8) :
    ∃ seen, CountingRun files (s, bytes) (t, seen) := by
  have hstep : ∀ (p : State × List UInt8) (s t : State), p.1 = s → EventStep (State.exec files) s t →
      ∃ q, EventStep (execCounting files) p q ∧ q.1 = t := by
    rintro p _ t rfl ⟨e, he⟩
    refine ⟨(t, p.2 ++ consumedBy p.1 e), ⟨e, ?_⟩, rfl⟩
    rw [execCounting, he, Option.map_some]
  obtain ⟨⟨t, seen⟩, hcounting, rfl⟩ := run_simulation hstep (b := (s, bytes)) rfl hrun
  exact ⟨seen, hcounting⟩

theorem increments_of_count (he : s.exec files .child1 = some t) (hpc : s.child1.pc = .count) :
    Increments s t (indexOf s.child1.capitalletter) where
  test := testOf_all _
  below := by
    have hlt := UInt8.toNat_lt (UInt8.ofInt ((charvalOf s.child1.capitalletter).toNat - 97))
    rw [indexOf]
    omega
  arrayprint := arrayprint_of_count he hpc
  letter := by
    intro j hj
    rw [indexOf_eq]
    exact bucket_eq_iff hj _

end Counting

section Runs

variable {files : Files} {s t : State} {bytes seen : List UInt8} {c : UInt8}

theorem CountingRun.tail_child1 {p : State × List UInt8} (h : CountingRun files p (s, seen))
    (hstep : AloneStep files s t) :
    CountingRun files p (t, seen ++ consumedBy s .child1) := by
  refine .tail h ⟨.child1, ?_⟩
  rw [AloneStep] at hstep
  rw [execCounting, hstep, Option.map_some]

theorem Reading.consume {p : State × List UInt8} (h : Reading s (c :: bytes) seen) (hc : c ≠ 255)
    (hrun : CountingRun files p (s, seen)) :
    CountingRun files p (s.fgetc.count, seen ++ [c]) := by
  have hread := hrun.tail_child1 h.aloneStep_fgetc
  have hnothing : consumedBy s .child1 = [] := by
    rw [consumedBy, h.pc]
    rfl
  have hbyte : consumedBy s.fgetc .child1 = [c] := by
    rw [consumedBy, h.fgetc_of_ne hc]
    rfl
  rw [hnothing, List.append_nil] at hread
  have hcount := hread.tail_child1 (h.aloneStep_count hc)
  rwa [hbyte] at hcount

/-- The loop, by induction on the bytes that are still to be read. -/
theorem Reading.consume_all {p : State × List UInt8} (h : Reading s bytes seen)
    (hbytes : 255 ∉ bytes) (hrun : CountingRun files p (s, seen)) :
    ∃ t, CountingRun files p (t, seen ++ bytes) := by
  induction bytes generalizing s seen with
  | nil =>
    rw [List.append_nil]
    exact ⟨s, hrun⟩
  | cons c bytes ih =>
    rw [List.mem_cons, not_or] at hbytes
    have hc : c ≠ 255 := Ne.symm hbytes.1
    obtain ⟨t, ht⟩ := ih (h.count hc) hbytes.2 (h.consume hc hrun)
    rw [List.append_assoc] at ht
    exact ⟨t, ht⟩

/-- The loop may consume any bytes but 255, which ends it. -/
theorem exists_consumed (bytes : List UInt8) (hbytes : 255 ∉ bytes) :
    ∃ s, CountingRun ⟨some bytes, []⟩ (initial, []) (s, bytes) := by
  have hstart : ∃ s, execAll (execCounting ⟨some bytes, []⟩) (initial, [])
      [.main, .child1, .child1, .child1, .child1] = some (s, []) ∧ Reading s bytes [] :=
    ⟨_, rfl, rfl, rfl, rfl, rfl, rfl, rfl, rfl⟩
  obtain ⟨s, hrun, hreading⟩ := hstart
  exact hreading.consume_all hbytes (run_of_execAll _ hrun)

/-- Whatever bytes the loop has consumed, in whatever run of the threads: each step of its body
increments one bucket below 400, and the bucket of a letter holds the number of the bytes that
are this letter, up to the overflow of the counter. -/
theorem buckets_do_not_alias (files : Files) (s : State) (bytes : List UInt8)
    (hrun : CountingRun files (initial, []) (s, bytes)) :
    (∀ t, s.child1.pc = .count → s.exec files .child1 = some t →
      Increments s t (indexOf s.child1.capitalletter)) ∧
    ∀ j < 26, (s.child1.arrayprint j).toNat = occurrences j bytes % 2 ^ 32 := by
  constructor
  · intro t hpc he
    exact increments_of_count he hpc
  · intro j hj
    have hcounted : s.child1.arrayprint = counts bytes := hrun.counted rfl
    rw [hcounted]
    exact counts_toNat_mod bytes hj

/-- An upper case letter, a lower case one and a bracket. -/
theorem buckets_do_not_alias_three_bytes :
    ∃ s, CountingRun ⟨some [65, 97, 123], []⟩ (initial, []) (s, [65, 97, 123]) ∧
      (s.child1.arrayprint 0).toNat = 2 ∧ (s.child1.arrayprint 25).toNat = 0 := by
  obtain ⟨s, hrun⟩ := exists_consumed [65, 97, 123] (by decide)
  have hcounts := (buckets_do_not_alias _ s _ hrun).2
  refine ⟨s, hrun, ?_, ?_⟩
  · rw [hcounts 0 (by decide)]
    decide
  · rw [hcounts 25 (by decide)]
    decide

end Runs

end EmbeddedSoftware.SharedHandle
