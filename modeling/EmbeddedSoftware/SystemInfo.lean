import EmbeddedSoftware.SystemCalls
import Mathlib.Algebra.Group.Nat.Defs
import Mathlib.Algebra.Order.Ring.Nat

/-!
# The memory that the system reports

`do_sysinfo` of `sys.c` turns numbers of pages into numbers of bytes, if all of them together fit
in an `unsigned long` of `w` bits, and the call for 32-bit programs turns them back where they do not
fit in 32 bits. The first loses nothing, and the second one only where there are 2 ^ 32 pages or
more.
-/

namespace EmbeddedSoftware.SystemInfo

open SystemCalls

inductive Field where
  | totalram | freeram | sharedram | bufferram | totalswap | freeswap | totalhigh | freehigh

/-- What `do_sysinfo` asks the rest of the kernel for: the time since boot, the loads, `nr_threads`,
and from `si_meminfo` and `si_swapinfo` the numbers of pages. -/
structure Machine (w : ℕ) where
  tvSec : ℤ
  tvNsec : ℕ
  avenrun : Fin 3 → BitVec w
  nrThreads : ℕ
  pages : Field → BitVec w
  pageSize : ℕ

structure Sysinfo (w : ℕ) where
  uptime : BitVec w
  loads : Fin 3 → BitVec w
  procs : BitVec 16
  mem : Field → BitVec w
  memUnit : ℕ

section Calls

variable {w : ℕ}

/-- The loop of `do_sysinfo`: how often the sum is doubled until the unit is one, unless it overflows
on the way. -/
def bitcount (memUnit : ℕ) (memTotal : BitVec w) : Option ℕ :=
  if memUnit > 1 then
    if memTotal <<< 1 < memTotal then none
    else (bitcount (memUnit / 2) (memTotal <<< 1)).map (· + 1)
  else some 0
termination_by memUnit

/-- The second half of `do_sysinfo`. -/
def toBytes (info : Sysinfo w) : Sysinfo w :=
  let memTotal := info.mem .totalram + info.mem .totalswap
  if memTotal < info.mem .totalram ∨ memTotal < info.mem .totalswap then info
  else
    match bitcount info.memUnit memTotal with
    | none => info
    | some count => { info with mem := fun f => info.mem f <<< count, memUnit := 1 }

def doSysinfo (m : Machine w) : Sysinfo w :=
  toBytes {
    uptime := BitVec.ofInt w (m.tvSec + if m.tvNsec ≠ 0 then 1 else 0)
    loads := m.avenrun
    procs := BitVec.ofNat 16 m.nrThreads
    mem := m.pages
    memUnit := m.pageSize }

def sysinfo (m : Machine w) (info : UserSink) : Except Errno (Sysinfo w) := do
  copyToUser info
  return doSysinfo m

/-- The loop of the call for 32-bit programs, for at most `fuel` rounds: the unit, and how often it
is doubled until it is a page. -/
def growUnit (pageSize : ℕ) : ℕ → ℕ → Option (ℕ × ℕ)
  | 0, _ => none
  | fuel + 1, memUnit =>
    if memUnit < pageSize then
      (growUnit pageSize fuel (memUnit * 2 % 2 ^ 32)).map fun result => (result.1, result.2 + 1)
    else some (memUnit, 0)

def scaleDown (pageSize fuel : ℕ) (s : Sysinfo 64) : Option (Sysinfo 64) :=
  if s.mem .totalram >>> 32 ≠ 0 ∨ s.mem .totalswap >>> 32 ≠ 0 then
    (growUnit pageSize fuel s.memUnit).map fun (memUnit, count) =>
      { s with mem := fun f => s.mem f >>> count, memUnit := memUnit }
  else some s

/-- The conversions of `__put_user` to the fields of `struct compat_sysinfo`. -/
def toCompat (s : Sysinfo 64) : Sysinfo 32 where
  uptime := s.uptime.setWidth 32
  loads i := (s.loads i).setWidth 32
  procs := s.procs
  mem f := (s.mem f).setWidth 32
  memUnit := s.memUnit

/-- The call for 32-bit programs on a 64-bit kernel, `none` when its loop does not end within
`fuel` rounds. -/
def compatSysinfo (fuel : ℕ) (m : Machine 64) (info : UserSink) :
    Option (Except Errno (Sysinfo 32)) :=
  (scaleDown m.pageSize fuel (doSysinfo m)).map fun s => do
    copyToUser info
    return toCompat s

end Calls

section Scaling

variable {w : ℕ}

/-- Doubling overflows exactly when the result is smaller. -/
theorem shiftLeft_one_lt_iff (x : BitVec w) : x <<< 1 < x ↔ 2 ^ w ≤ x.toNat * 2 := by
  have hlt := x.isLt
  rw [BitVec.lt_def, BitVec.toNat_shiftLeft, Nat.shiftLeft_eq, pow_one]
  by_cases hfits : x.toNat * 2 < 2 ^ w
  · rw [Nat.mod_eq_of_lt hfits]
    omega
  · have hmod : x.toNat * 2 % 2 ^ w = x.toNat * 2 - 2 ^ w := by
      rw [Nat.mod_eq_sub_mod (by omega), Nat.mod_eq_of_lt (by omega)]
    rw [hmod]
    omega

theorem toNat_shiftLeft_of_lt {x : BitVec w} {k : ℕ} (h : x.toNat * 2 ^ k < 2 ^ w) :
    (x <<< k).toNat = x.toNat * 2 ^ k := by
  rw [BitVec.toNat_shiftLeft, Nat.shiftLeft_eq, Nat.mod_eq_of_lt h]

/-- The loop finds out whether the sum fits in a `long` as a number of bytes. -/
theorem bitcount_two_pow (k : ℕ) (total : BitVec w) :
    bitcount (2 ^ k) total = if total.toNat * 2 ^ k < 2 ^ w then some k else none := by
  induction k generalizing total with
  | zero =>
    have hlt := total.isLt
    rw [bitcount, if_neg (by simp), if_pos (by simpa using hlt)]
  | succ k ih =>
    have hunit : 2 ^ (k + 1) > 1 := Nat.one_lt_two_pow (by omega)
    have hhalf : 2 ^ (k + 1) / 2 = 2 ^ k := by
      rw [pow_succ, Nat.mul_div_cancel _ (by decide)]
    have hpos : 0 < 2 ^ k := Nat.two_pow_pos k
    rw [bitcount, if_pos hunit, hhalf]
    by_cases hover : 2 ^ w ≤ total.toNat * 2
    · have hlarge : ¬total.toNat * 2 ^ (k + 1) < 2 ^ w := by
        rw [pow_succ, Nat.mul_comm (2 ^ k), ← Nat.mul_assoc]
        have := Nat.le_mul_of_pos_right (total.toNat * 2) hpos
        omega
      rw [if_pos ((shiftLeft_one_lt_iff total).mpr hover), if_neg hlarge]
    · have hdouble : (total <<< 1).toNat = total.toNat * 2 :=
        toNat_shiftLeft_of_lt (by simpa using hover)
      have hsame : total.toNat * 2 * 2 ^ k = total.toNat * 2 ^ (k + 1) := by
        rw [pow_succ, Nat.mul_comm (2 ^ k), ← Nat.mul_assoc]
      rw [if_neg (fun h => hover ((shiftLeft_one_lt_iff total).mp h)), ih, hdouble, hsame]
      split <;> rfl

theorem add_lt_iff (x y : BitVec w) : (x + y < x ∨ x + y < y) ↔ 2 ^ w ≤ x.toNat + y.toNat := by
  have hx := x.isLt
  have hy := y.isLt
  rw [BitVec.lt_def, BitVec.lt_def, BitVec.toNat_add]
  by_cases hfits : x.toNat + y.toNat < 2 ^ w
  · rw [Nat.mod_eq_of_lt hfits]
    omega
  · have hmod : (x.toNat + y.toNat) % 2 ^ w = x.toNat + y.toNat - 2 ^ w := by
      rw [Nat.mod_eq_sub_mod (by omega), Nat.mod_eq_of_lt (by omega)]
    rw [hmod]
    omega

/-- `do_sysinfo` counts in bytes when the sum of all memory fits, and in pages when it does not. -/
theorem toBytes_two_pow {k : ℕ} {info : Sysinfo w} (hunit : info.memUnit = 2 ^ k) :
    toBytes info =
      if ((info.mem .totalram).toNat + (info.mem .totalswap).toNat) * 2 ^ k < 2 ^ w then
        { info with mem := fun f => info.mem f <<< k, memUnit := 1 }
      else info := by
  have hpos : 0 < 2 ^ k := Nat.two_pow_pos k
  rw [toBytes, hunit]
  by_cases hwrap : 2 ^ w ≤ (info.mem .totalram).toNat + (info.mem .totalswap).toNat
  · have hlarge :
        ¬((info.mem .totalram).toNat + (info.mem .totalswap).toNat) * 2 ^ k < 2 ^ w := by
      have := Nat.le_mul_of_pos_right ((info.mem .totalram).toNat + (info.mem .totalswap).toNat) hpos
      omega
    rw [if_pos ((add_lt_iff _ _).mpr hwrap), if_neg hlarge]
  · rw [if_neg (fun h => hwrap ((add_lt_iff _ _).mp h)), bitcount_two_pow,
      BitVec.toNat_add_of_lt (by omega)]
    by_cases hfits :
        ((info.mem .totalram).toNat + (info.mem .totalswap).toNat) * 2 ^ k < 2 ^ w
    · rw [if_pos hfits, if_pos hfits]
    · rw [if_neg hfits, if_neg hfits]

theorem doSysinfo_cases {k : ℕ} {m : Machine w} (hsize : m.pageSize = 2 ^ k) :
    ((m.pages .totalram).toNat + (m.pages .totalswap).toNat) * 2 ^ k < 2 ^ w ∧
      (doSysinfo m).mem = (fun f => m.pages f <<< k) ∧ (doSysinfo m).memUnit = 1 ∨
    ¬((m.pages .totalram).toNat + (m.pages .totalswap).toNat) * 2 ^ k < 2 ^ w ∧
      (doSysinfo m).mem = m.pages ∧ (doSysinfo m).memUnit = 2 ^ k := by
  by_cases hfits : ((m.pages .totalram).toNat + (m.pages .totalswap).toNat) * 2 ^ k < 2 ^ w
  · rw [doSysinfo, toBytes_two_pow hsize, if_pos hfits]
    exact .inl ⟨hfits, rfl, rfl⟩
  · rw [doSysinfo, toBytes_two_pow hsize, if_neg hfits]
    exact .inr ⟨hfits, rfl, hsize⟩

theorem growUnit_two_pow {k j fuel : ℕ} (hk : k < 32) (hj : j ≤ k) (hfuel : k - j < fuel) :
    growUnit (2 ^ k) fuel (2 ^ j) = some (2 ^ k, k - j) := by
  induction fuel generalizing j with
  | zero => omega
  | succ fuel ih =>
    rw [growUnit]
    obtain rfl | hlt := Nat.eq_or_lt_of_le hj
    · rw [if_neg (Nat.lt_irrefl _), Nat.sub_self]
    · have hunit : 2 ^ j * 2 % 2 ^ 32 = 2 ^ (j + 1) := by
        rw [← pow_succ, Nat.mod_eq_of_lt (Nat.pow_lt_pow_right (by decide) (by omega))]
      rw [if_pos (Nat.pow_lt_pow_right (by decide) hlt), hunit, ih (by omega) (by omega)]
      simp only [Option.map_some, Option.some.injEq, Prod.mk.injEq, true_and]
      omega

/-- Each kind of memory is a part of all memory or of all swap. -/
def Consistent (pages : Field → BitVec w) : Prop :=
  ∀ f, (pages f).toNat ≤ (pages .totalram).toNat ∨ (pages f).toNat ≤ (pages .totalswap).toNat

theorem Consistent.toNat_shiftLeft {pages : Field → BitVec w} {k : ℕ} (h : Consistent pages)
    (hfits : ((pages .totalram).toNat + (pages .totalswap).toNat) * 2 ^ k < 2 ^ w) (f : Field) :
    (pages f <<< k).toNat = (pages f).toNat * 2 ^ k := by
  apply toNat_shiftLeft_of_lt
  refine lt_of_le_of_lt (Nat.mul_le_mul_right _ ?_) hfits
  have := h f
  omega

theorem shiftLeft_shiftRight {x : BitVec w} {k : ℕ} (h : (x <<< k).toNat = x.toNat * 2 ^ k) :
    (x <<< k) >>> k = x := by
  apply BitVec.eq_of_toNat_eq
  rw [BitVec.toNat_ushiftRight, h, Nat.shiftRight_eq_div_pow,
    Nat.mul_div_cancel _ (Nat.two_pow_pos k)]

theorem shiftRight_eq_zero_iff (x : BitVec 64) : x >>> 32 = 0 ↔ x.toNat < 2 ^ 32 := by
  have hzero : (0 : BitVec 64).toNat = 0 := rfl
  rw [← BitVec.toNat_inj, BitVec.toNat_ushiftRight, Nat.shiftRight_eq_div_pow, hzero]
  exact Nat.div_eq_zero_iff_lt (by decide)

end Scaling

section Results

variable {w : ℕ}

/-- The numbers of a report, taken in its unit, are numbers of bytes of these pages. -/
def Exact (s : Sysinfo w) {v : ℕ} (pages : Field → BitVec v) (pageSize : ℕ) : Prop :=
  ∀ f, (s.mem f).toNat * s.memUnit = (pages f).toNat * pageSize

theorem exact_doSysinfo {m : Machine w} {k : ℕ} (hsize : m.pageSize = 2 ^ k)
    (hpages : Consistent m.pages) : Exact (doSysinfo m) m.pages m.pageSize := by
  intro f
  obtain ⟨hfits, hmem, hunit⟩ | ⟨-, hmem, hunit⟩ := doSysinfo_cases hsize
  · rw [hmem, hunit, hsize, Nat.mul_one]
    exact hpages.toNat_shiftLeft hfits f
  · rw [hmem, hunit, hsize]

theorem Exact.consistent {s : Sysinfo w} {pages : Field → BitVec w} {pageSize : ℕ}
    (h : Exact s pages pageSize) (hunit : 0 < s.memUnit) (hpages : Consistent pages) :
    Consistent s.mem := by
  have hle : ∀ f g, (pages f).toNat ≤ (pages g).toNat → (s.mem f).toNat ≤ (s.mem g).toNat := by
    intro f g hfg
    refine Nat.le_of_mul_le_mul_right ?_ hunit
    rw [h f, h g]
    exact Nat.mul_le_mul_right _ hfg
  intro f
  exact (hpages f).imp (hle f _) (hle f _)

theorem exact_toCompat {s : Sysinfo 64} {pages : Field → BitVec 64} {pageSize : ℕ}
    (h : Exact s pages pageSize) (hsmall : ∀ f, (s.mem f).toNat < 2 ^ 32) :
    Exact (toCompat s) pages pageSize := by
  intro f
  rw [toCompat, BitVec.toNat_setWidth, Nat.mod_eq_of_lt (hsmall f)]
  exact h f

/-- When the numbers are made smaller for a 32-bit program, they are the numbers of pages again. -/
theorem scaleDown_of_large {m : Machine 64} {k fuel : ℕ} (hk : k < 32) (hsize : m.pageSize = 2 ^ k)
    (hpages : Consistent m.pages) (hfuel : k < fuel)
    (hlarge : (doSysinfo m).mem .totalram >>> 32 ≠ 0 ∨ (doSysinfo m).mem .totalswap >>> 32 ≠ 0) :
    scaleDown m.pageSize fuel (doSysinfo m) =
      some { doSysinfo m with mem := m.pages, memUnit := 2 ^ k } := by
  rw [scaleDown, if_pos hlarge, hsize]
  obtain ⟨hfits, hmem, hunit⟩ | ⟨-, hmem, hunit⟩ := doSysinfo_cases hsize
  · have hback : (fun f => (m.pages f <<< k) >>> k) = m.pages :=
      funext fun f => shiftLeft_shiftRight (hpages.toNat_shiftLeft hfits f)
    have hgrow := growUnit_two_pow hk (Nat.zero_le k) hfuel
    rw [pow_zero, Nat.sub_zero] at hgrow
    simp only [hunit, hgrow, Option.map_some, hmem, hback]
  · have hgrow : growUnit (2 ^ k) fuel (2 ^ k) = some (2 ^ k, k - k) :=
      growUnit_two_pow hk le_rfl (by omega)
    simp only [hunit, hgrow, Option.map_some, hmem, Nat.sub_self, BitVec.ushiftRight_zero]

theorem exists_scaleDown {m : Machine 64} {k fuel : ℕ} (hk : k < 32) (hsize : m.pageSize = 2 ^ k)
    (hpages : Consistent m.pages) (hram : (m.pages .totalram).toNat < 2 ^ 32)
    (hswap : (m.pages .totalswap).toNat < 2 ^ 32) (hfuel : k < fuel) :
    ∃ s, scaleDown m.pageSize fuel (doSysinfo m) = some s ∧ Exact s m.pages m.pageSize ∧
      ∀ f, (s.mem f).toNat < 2 ^ 32 := by
  have hexact := exact_doSysinfo hsize hpages
  by_cases hlarge : (doSysinfo m).mem .totalram >>> 32 ≠ 0 ∨ (doSysinfo m).mem .totalswap >>> 32 ≠ 0
  · refine ⟨_, scaleDown_of_large hk hsize hpages hfuel hlarge, ?_, ?_⟩
    · intro f
      rw [hsize]
    · intro f
      have := hpages f
      change (m.pages f).toNat < 2 ^ 32
      omega
  · refine ⟨doSysinfo m, by rw [scaleDown, if_neg hlarge], hexact, ?_⟩
    have hunit : 0 < (doSysinfo m).memUnit := by
      obtain ⟨-, -, hunit⟩ | ⟨-, -, hunit⟩ := doSysinfo_cases hsize
      · omega
      · rw [hunit]
        exact Nat.two_pow_pos k
    rw [not_or, not_not, not_not, shiftRight_eq_zero_iff, shiftRight_eq_zero_iff] at hlarge
    intro f
    have := hexact.consistent hunit hpages f
    omega

theorem le_doSysinfo_mem {m : Machine w} {k : ℕ} (hsize : m.pageSize = 2 ^ k)
    (hpages : Consistent m.pages) (f : Field) :
    (m.pages f).toNat ≤ ((doSysinfo m).mem f).toNat := by
  obtain ⟨hfits, hmem, -⟩ | ⟨-, hmem, -⟩ := doSysinfo_cases hsize
  · rw [hmem, hpages.toNat_shiftLeft hfits]
    exact Nat.le_mul_of_pos_right _ (Nat.two_pow_pos k)
  · rw [hmem]

theorem lt_of_exact_toCompat {m : Machine 64} {k : ℕ} (hsize : m.pageSize = 2 ^ k)
    (h : Exact (toCompat { doSysinfo m with mem := m.pages, memUnit := 2 ^ k }) m.pages m.pageSize)
    (f : Field) : (m.pages f).toNat < 2 ^ 32 := by
  have hf := h f
  rw [hsize, toCompat, BitVec.toNat_setWidth] at hf
  have hsame := Nat.eq_of_mul_eq_mul_right (Nat.two_pow_pos k) hf
  rw [← hsame]
  exact Nat.mod_lt _ (Nat.two_pow_pos 32)

/-- What a program is told of the memory of a machine with pages of `2 ^ k` bytes is exact. The unit is
a byte if all memory and swap together have fewer than `2 ^ w` bytes, and a page if not. -/
theorem report_exact {w k : ℕ} (m : Machine w) (hsize : m.pageSize = 2 ^ k)
    (hpages : Consistent m.pages) :
    ∃ s, sysinfo m .valid = .ok s ∧ Exact s m.pages m.pageSize ∧
      s.memUnit =
        if ((m.pages .totalram).toNat + (m.pages .totalswap).toNat) * 2 ^ k < 2 ^ w then 1
        else 2 ^ k := by
  refine ⟨doSysinfo m, rfl, exact_doSysinfo hsize hpages, ?_⟩
  obtain ⟨hfits, -, hunit⟩ | ⟨hfits, -, hunit⟩ := doSysinfo_cases hsize
  · rw [hunit, if_pos hfits]
  · rw [hunit, if_neg hfits]

/-- What a 32-bit program is told on a 64-bit machine is exact as long as neither memory nor swap has
`2 ^ 32` pages, and its call returns in any case. -/
theorem compat_report_exact_iff {k fuel : ℕ} (m : Machine 64) (hsize : m.pageSize = 2 ^ k)
    (hk : k < 32) (hpages : Consistent m.pages) (hfuel : k < fuel) :
    ∃ s, compatSysinfo fuel m .valid = some (.ok s) ∧
      (Exact s m.pages m.pageSize ↔
        (m.pages .totalram).toNat < 2 ^ 32 ∧ (m.pages .totalswap).toNat < 2 ^ 32) := by
  by_cases hsmall : (m.pages .totalram).toNat < 2 ^ 32 ∧ (m.pages .totalswap).toNat < 2 ^ 32
  · obtain ⟨s, hs, hexact, hmem⟩ := exists_scaleDown hk hsize hpages hsmall.1 hsmall.2 hfuel
    refine ⟨toCompat s, ?_, iff_of_true (exact_toCompat hexact hmem) hsmall⟩
    rw [compatSysinfo, hs]
    rfl
  · have hlarge :
        (doSysinfo m).mem .totalram >>> 32 ≠ 0 ∨ (doSysinfo m).mem .totalswap >>> 32 ≠ 0 := by
      rw [ne_eq, shiftRight_eq_zero_iff, ne_eq, shiftRight_eq_zero_iff]
      have hram := le_doSysinfo_mem hsize hpages .totalram
      have hswap := le_doSysinfo_mem hsize hpages .totalswap
      omega
    refine ⟨_, by rw [compatSysinfo, scaleDown_of_large hk hsize hpages hfuel hlarge]; rfl, ?_⟩
    refine iff_of_false (fun hexact => hsmall ?_) hsmall
    have hlt := lt_of_exact_toCompat hsize hexact
    exact ⟨hlt .totalram, hlt .totalswap⟩

def server : Machine 64 where
  tvSec := 100
  tvNsec := 1
  avenrun _ := 0
  nrThreads := 300
  pages _ := 0x200000
  pageSize := 2 ^ 12

theorem report_exact_server :
    ∃ s, sysinfo server .valid = .ok s ∧ Exact s server.pages server.pageSize ∧ s.memUnit = 1 := by
  obtain ⟨s, hs, hexact, hunit⟩ := report_exact server rfl (fun _ => .inl le_rfl)
  exact ⟨s, hs, hexact, hunit.trans (if_pos (by decide))⟩

theorem compat_report_exact_iff_server :
    ∃ s, compatSysinfo 13 server .valid = some (.ok s) ∧ Exact s server.pages server.pageSize := by
  obtain ⟨s, hs, hexact⟩ := compat_report_exact_iff server rfl (by decide) (fun _ => .inl le_rfl)
    (by decide : 12 < 13)
  exact ⟨s, hs, hexact.mpr ⟨by decide, by decide⟩⟩

end Results

end EmbeddedSoftware.SystemInfo
