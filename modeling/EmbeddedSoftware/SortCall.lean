import EmbeddedSoftware.BubbleSort
import EmbeddedSoftware.ByteLayout
import EmbeddedSoftware.UserMemory
import Mathlib.Algebra.Group.Int.Defs
import Mathlib.Data.Int.Order.Basic

/-!
# The system call sortfunc

The call allocates a kernel buffer of `size` integers, copies the user's array into it,
sorts the first 256 integers with the largest first, and copies the buffer out again. It
looks at `size` only after the first copy, and not at all at what the copies return.
-/

namespace EmbeddedSoftware.SortCall

open BubbleSort ByteLayout UserMemory

def enomem : ℤ := 12

def einval : ℤ := 22

def elements : ℕ := 256

/-- `size*sizeof(int)`, as many bytes as the call allocates and copies. -/
def bytes (size : BitVec 32) : ℕ := (size * 4).toNat

/-- `sortfunc(buffer, size, buffer_sorted)`: what it returns and the memory it leaves. The
parameter `kmalloc` says which requests get memory. There is no result when the loops leave
the kernel buffer. -/
def sortfunc (kmalloc : ℕ → Bool) (m : Memory) (buffer : BitVec 32) (size : BitVec 32)
    (bufferSorted : BitVec 32) : Option (ℤ × Memory) :=
  if kmalloc (bytes size) then
    let buffk := (m.copyFromUser buffer (bytes size)).1
    if size.toInt < 0 ∨ size.toInt < 256 then some (-einval, m)
    else (bubble BitVec.toInt elements (words buffk)).map fun sorted =>
      (0, (m.copyToUser bufferSorted (wordBytes sorted)).1)
  else some (-enomem, m)

def ints (m : Memory) (a : BitVec 32) (n : ℕ) : List (BitVec 32) := words (m.read a (4 * n))

section Call

variable {kmalloc : ℕ → Bool} {m : Memory} {buffer size bufferSorted : BitVec 32}

theorem sortfunc_of_no_memory (h : kmalloc (bytes size) = false) :
    sortfunc kmalloc m buffer size bufferSorted = some (-enomem, m) := by
  simp [sortfunc, h]

theorem sortfunc_of_short (h : kmalloc (bytes size) = true) (hsize : size.toInt < 256) :
    sortfunc kmalloc m buffer size bufferSorted = some (-einval, m) := by
  simp [sortfunc, h, hsize]

theorem sortfunc_of_accepted (h : kmalloc (bytes size) = true) (hsize : 256 ≤ size.toInt) :
    sortfunc kmalloc m buffer size bufferSorted =
      (bubble BitVec.toInt elements (words (m.copyFromUser buffer (bytes size)).1)).map
        fun sorted => (0, (m.copyToUser bufferSorted (wordBytes sorted)).1) := by
  have hreject : ¬(size.toInt < 0 ∨ size.toInt < 256) := by omega
  simp [sortfunc, h, hreject]

theorem toNat_of_accepted (hsize : 256 ≤ size.toInt) : (size.toNat : ℤ) = size.toInt := by
  have h := BitVec.toInt_eq_toNat_cond size
  have hlt := size.isLt
  split at h
  · exact h.symm
  · omega

theorem bytes_eq (h : 4 * size.toNat < 2 ^ 32) : bytes size = 4 * size.toNat := by
  rw [bytes, BitVec.toNat_mul]
  change size.toNat * 4 % 2 ^ 32 = 4 * size.toNat
  rw [Nat.mul_comm]
  exact Nat.mod_eq_of_lt h

theorem length_words_buffk :
    (words (m.copyFromUser buffer (bytes size)).1).length = bytes size / 4 := by
  rw [length_words, Memory.length_copyFromUser]

/-- An accepted call that stays in its buffer sorts the first 256 integers of what it copied
in, and returns 0 whatever the copies say. -/
theorem exists_sortfunc (m : Memory) (buffer bufferSorted : BitVec 32)
    (h : kmalloc (bytes size) = true) (hsize : 256 ≤ size.toInt)
    (hfit : elements ≤ bytes size / 4) : ∃ sorted,
    sortfunc kmalloc m buffer size bufferSorted = some (0, (m.copyToUser bufferSorted (wordBytes
      (sorted ++ (words (m.copyFromUser buffer (bytes size)).1).drop elements))).1) ∧
    sorted.Perm ((words (m.copyFromUser buffer (bytes size)).1).take elements) ∧
    Descending BitVec.toInt sorted := by
  obtain ⟨sorted, hbubble, hperm, hdesc⟩ := exists_bubble BitVec.toInt
    (n := elements) (l := words (m.copyFromUser buffer (bytes size)).1)
    (by rw [length_words_buffk]; exact hfit)
  refine ⟨sorted, ?_, hperm, hdesc⟩
  rw [sortfunc_of_accepted h hsize, hbubble]
  rfl

/-- Of an accepted call whose request wraps around to fewer integers, C says nothing. -/
theorem sortfunc_eq_none (h : kmalloc (bytes size) = true) (hsize : 256 ≤ size.toInt)
    (hfit : bytes size / 4 < elements) : sortfunc kmalloc m buffer size bufferSorted = none := by
  have hbubble :
      bubble BitVec.toInt elements (words (m.copyFromUser buffer (bytes size)).1) = none := by
    apply bubble_eq_none (by decide)
    rw [length_words_buffk]
    exact hfit
  rw [sortfunc_of_accepted h hsize, hbubble]
  rfl

/-- With both copies complete the array at `buffer_sorted` has its first 256 integers sorted
and the others as they were. -/
theorem exists_sorted_ints (h : kmalloc (bytes size) = true) (hsize : 256 ≤ size.toInt)
    (hrep : size.toInt * 4 < 2 ^ 32) (hin : Covers m.readable buffer (4 * size.toNat))
    (hout : Covers m.writable bufferSorted (4 * size.toNat)) : ∃ m' sorted,
    sortfunc kmalloc m buffer size bufferSorted = some (0, m') ∧
    ints m' bufferSorted size.toNat = sorted ++ (ints m buffer size.toNat).drop elements ∧
    sorted.Perm ((ints m buffer size.toNat).take elements) ∧ Descending BitVec.toInt sorted := by
  have hnat := toNat_of_accepted hsize
  have hbytes : bytes size = 4 * size.toNat := bytes_eq (by omega)
  have hlength : (ints m buffer size.toNat).length = size.toNat := by
    rw [ints, length_words, Memory.length_read]
    omega
  have hfit : elements ≤ bytes size / 4 := by
    rw [elements, hbytes]
    omega
  obtain ⟨sorted, hcall, hperm, hdesc⟩ :=
    exists_sortfunc m buffer bufferSorted h hsize hfit
  rw [hbytes, Memory.copyFromUser_of_covers hin, ← ints] at hcall hperm
  have htotal : (sorted ++ (ints m buffer size.toNat).drop elements).length = size.toNat := by
    rw [List.length_append, hperm.length_eq, ← List.length_append, List.take_append_drop, hlength]
  have hdata : (wordBytes (sorted ++ (ints m buffer size.toNat).drop elements)).length =
      4 * size.toNat := by rw [length_wordBytes, htotal]
  rw [Memory.copyToUser_of_covers (by rw [hdata]; exact hout)] at hcall
  refine ⟨_, sorted, hcall, ?_, hperm, hdesc⟩
  rw [ints, ← hdata, Memory.read_write (by omega), words_wordBytes]

/-- The call returns 0, and the integers that it has written are those of the buffer in descending
order. -/
def Sorts (kmalloc : ℕ → Bool) (m : Memory) (buffer size bufferSorted : BitVec 32) : Prop :=
  ∃ m', sortfunc kmalloc m buffer size bufferSorted = some (0, m') ∧
    (ints m' bufferSorted size.toNat).Perm (ints m buffer size.toNat) ∧
    Descending BitVec.toInt (ints m' bufferSorted size.toNat)

/-- A call that is given enough memory sorts its buffer exactly when the integers behind the first 256,
which it leaves where they are, are in descending order and not larger than any of the first. -/
theorem sortfunc_sorts_iff (kmalloc : ℕ → Bool) (m : Memory) (buffer size bufferSorted : BitVec 32)
    (h : kmalloc (bytes size) = true) (hsize : 256 ≤ size.toInt) (hrep : size.toInt * 4 < 2 ^ 32)
    (hin : Covers m.readable buffer (4 * size.toNat))
    (hout : Covers m.writable bufferSorted (4 * size.toNat)) :
    Sorts kmalloc m buffer size bufferSorted ↔
      Descending BitVec.toInt ((ints m buffer size.toNat).drop elements) ∧
      ∀ x ∈ (ints m buffer size.toNat).take elements,
        ∀ y ∈ (ints m buffer size.toNat).drop elements, y.toInt ≤ x.toInt := by
  obtain ⟨m', sorted, hcall, hints, hperm, hdesc⟩ :=
    exists_sorted_ints h hsize hrep hin hout
  constructor
  · rintro ⟨m'', hcall', -, hdesc'⟩
    have heq : m'' = m' := by
      rw [hcall] at hcall'
      cases hcall'
      rfl
    rw [heq, hints, Descending, List.pairwise_append] at hdesc'
    refine ⟨hdesc'.2.1, fun x hx y hy => ?_⟩
    exact hdesc'.2.2 x (hperm.mem_iff.mpr hx) y hy
  · rintro ⟨hrest, habove⟩
    refine ⟨m', hcall, ?_, ?_⟩
    · rw [hints]
      have happend := hperm.append_right ((ints m buffer size.toNat).drop elements)
      rw [List.take_append_drop] at happend
      exact happend
    · rw [hints]
      apply List.pairwise_append.mpr
      exact ⟨hdesc, hrest, fun x hx y hy => habove x (hperm.mem_iff.mp hx) y hy⟩

def zeroMemory : Memory := ⟨fun _ => 0, fun _ => true, fun _ => true⟩

def teeth : List (BitVec 32) := (List.range 256).map fun i => BitVec.ofNat 32 (100 + i * 7 % 50)

def tail : List (BitVec 32) := (List.range 44).map fun i => BitVec.ofNat 32 (44 - i)

def sawtooth : Memory := zeroMemory.write 0 (wordBytes (teeth ++ tail))

theorem ints_sawtooth : ints sawtooth 0 300 = teeth ++ tail := by
  have hlength : (wordBytes (teeth ++ tail)).length = 4 * 300 := by
    rw [length_wordBytes, List.length_append, teeth, tail, List.length_map, List.length_map,
      List.length_range, List.length_range]
  rw [ints, ← hlength, sawtooth, Memory.read_write (by omega), words_wordBytes]

theorem sortfunc_sorts_iff_sawtooth :
    ints sawtooth 0 300 = teeth ++ tail ∧ ¬Descending BitVec.toInt teeth ∧
      Sorts (fun _ => true) sawtooth 0 300 4096 := by
  have hteeth : ∀ x ∈ teeth, 100 ≤ x.toInt := by
    rw [teeth, List.forall_mem_map]
    decide +kernel
  have htail : ∀ y ∈ tail, y.toInt ≤ 44 := by
    rw [tail, List.forall_mem_map]
    decide +kernel
  refine ⟨ints_sawtooth, ?_, ?_⟩
  · intro hdesc
    have hstart : teeth.take 2 = [100, 107] := by decide +kernel
    have htake := hdesc.sublist (List.take_sublist 2 _)
    rw [hstart] at htake
    exact absurd htake (by decide)
  · apply (sortfunc_sorts_iff (fun _ => true) sawtooth 0 300 4096 rfl (by decide) (by decide)
      (fun _ _ => rfl) (fun _ _ => rfl)).mpr
    change Descending BitVec.toInt ((ints sawtooth 0 300).drop elements) ∧
      ∀ x ∈ (ints sawtooth 0 300).take elements, ∀ y ∈ (ints sawtooth 0 300).drop elements,
        y.toInt ≤ x.toInt
    have hlength : teeth.length = elements := by rw [teeth, List.length_map, List.length_range, elements]
    rw [ints_sawtooth, List.drop_left' hlength, List.take_left' hlength]
    constructor
    · change tail.Pairwise fun x y => y.toInt ≤ x.toInt
      decide +kernel
    · intro x hx y hy
      exact (htail y hy).trans ((by decide : (44 : ℤ) ≤ 100).trans (hteeth x hx))

/-- The same memory with a one in the integer at address 1024. -/
def oneBehind : Memory := { zeroMemory with byte := fun a => if a = 1024 then 1 else 0 }

/-- Of 257 integers the last one is larger than the 256 zeros before it, and it stays last. -/
theorem sortfunc_leaves_the_rest :
    256 ≤ BitVec.toInt 257#32 ∧ BitVec.toInt 257#32 * 4 < 2 ^ 32 ∧
    Covers oneBehind.readable 0 (4 * 257) ∧ Covers oneBehind.writable 4096 (4 * 257) ∧
    ints oneBehind 0 257 = List.replicate 256 0 ++ [1] ∧
    ∃ m', sortfunc (fun _ => true) oneBehind 0 257 4096 = some (0, m') ∧
      ¬Descending BitVec.toInt (ints m' 4096 257) := by
  have hints : ints oneBehind 0 257 = List.replicate 256 0 ++ [1] := by decide +kernel
  obtain ⟨m', sorted, hcall, hout, hperm, -⟩ :=
    @exists_sorted_ints (fun _ => true) oneBehind 0 257 4096 rfl (by decide) (by decide)
      (fun _ _ => rfl) (fun _ _ => rfl)
  refine ⟨by decide, by decide, fun _ _ => rfl, fun _ _ => rfl, hints, m', hcall, ?_⟩
  intro hdesc
  change ints m' 4096 257 = sorted ++ (ints oneBehind 0 257).drop elements at hout
  change sorted.Perm ((ints oneBehind 0 257).take elements) at hperm
  have hmem : (0 : BitVec 32) ∈ sorted := by
    apply hperm.mem_iff.mpr
    rw [hints]
    decide +kernel
  have hlast : (ints oneBehind 0 257).drop elements = [1] := by
    rw [hints]
    decide +kernel
  rw [hout, hlast, Descending, List.pairwise_append] at hdesc
  exact absurd (hdesc.2.2 0 hmem 1 (by simp)) (by decide)

/-- All `size` integers of the buffer have come into the kernel. -/
def CopiedIn (m : Memory) (buffer size : BitVec 32) : Prop :=
  bytes size = 4 * size.toNat ∧ (m.copyFromUser buffer (bytes size)).2 = 0

/-- All `size` integers of the kernel's buffer, whatever they are, come out to the user. -/
def CopiedOut (m : Memory) (bufferSorted size : BitVec 32) : Prop :=
  bytes size = 4 * size.toNat ∧
    ∀ data : List UInt8, data.length = bytes size → (m.copyToUser bufferSorted data).2 = 0

theorem copiedIn_iff : CopiedIn m buffer size ↔
    bytes size = 4 * size.toNat ∧ Covers m.readable buffer (4 * size.toNat) := by
  rw [CopiedIn, Memory.copyFromUser_eq_zero_iff]
  apply and_congr_right
  intro hbytes
  rw [hbytes]

theorem copiedOut_iff : CopiedOut m bufferSorted size ↔
    bytes size = 4 * size.toNat ∧ Covers m.writable bufferSorted (4 * size.toNat) := by
  apply and_congr_right
  intro hbytes
  constructor
  · intro h
    have hdata := h (List.replicate (bytes size) 0) List.length_replicate
    rw [Memory.copyToUser_eq_zero_iff, List.length_replicate, hbytes] at hdata
    exact hdata
  · intro h data hdata
    rw [Memory.copyToUser_eq_zero_iff, hdata, hbytes]
    exact h

/-- The call has a result, 0 stands for a complete job, and an error leaves the user's memory
as it was. -/
def Atomic (kmalloc : ℕ → Bool) (m : Memory) (buffer size bufferSorted : BitVec 32) : Prop :=
  ∃ r m', sortfunc kmalloc m buffer size bufferSorted = some (r, m') ∧
    (r = 0 → 256 ≤ size.toInt ∧ kmalloc (bytes size) = true ∧
      CopiedIn m buffer size ∧ CopiedOut m bufferSorted size) ∧
    (r ≠ 0 → m' = m)

theorem atomic_of_error {e : ℤ} (he : e ≠ 0)
    (h : sortfunc kmalloc m buffer size bufferSorted = some (e, m)) :
    Atomic kmalloc m buffer size bufferSorted := by
  refine ⟨e, m, h, ?_, fun _ => rfl⟩
  intro hzero
  exact absurd hzero he

/-- An accepted call returns 0 or leaves its buffer, so only the copies can make it atomic. -/
theorem atomic_iff_of_accepted (h : kmalloc (bytes size) = true) (hsize : 256 ≤ size.toInt) :
    Atomic kmalloc m buffer size bufferSorted ↔
      CopiedIn m buffer size ∧ CopiedOut m bufferSorted size := by
  constructor
  · rintro ⟨r, m', hcall, hzero, -⟩
    rw [sortfunc_of_accepted h hsize] at hcall
    obtain ⟨sorted, -, hresult⟩ := Option.map_eq_some_iff.mp hcall
    cases hresult
    exact (hzero rfl).2.2
  · rintro ⟨hin, hout⟩
    have hnat := toNat_of_accepted hsize
    have hfit : elements ≤ bytes size / 4 := by
      rw [elements, hin.1]
      omega
    obtain ⟨sorted, hcall, -, -⟩ := exists_sortfunc m buffer bufferSorted h hsize hfit
    exact ⟨0, _, hcall, fun _ => ⟨hsize, h, hin, hout⟩, fun hne => absurd rfl hne⟩

theorem bytes_eq_iff (hsize : 256 ≤ size.toInt) :
    bytes size = 4 * size.toNat ↔ size.toInt * 4 < 2 ^ 32 := by
  have hnat := toNat_of_accepted hsize
  constructor
  · intro hbytes
    have hlt : bytes size < 2 ^ 32 := (size * 4).isLt
    omega
  · intro hrep
    exact bytes_eq (by omega)

/-- The call does its job or fails without an effect exactly when it is refused, or when the bytes
do not wrap around and the user may read the whole buffer and write the whole result. -/
theorem sortfunc_atomic_iff (kmalloc : ℕ → Bool) (m : Memory)
    (buffer size bufferSorted : BitVec 32) :
    Atomic kmalloc m buffer size bufferSorted ↔
      kmalloc (bytes size) = false ∨ size.toInt < 256 ∨
      size.toInt * 4 < 2 ^ 32 ∧ Covers m.readable buffer (4 * size.toNat) ∧
        Covers m.writable bufferSorted (4 * size.toNat) := by
  cases hmem : kmalloc (bytes size) with
  | false =>
    have hatomic : Atomic kmalloc m buffer size bufferSorted :=
      atomic_of_error (by decide) (sortfunc_of_no_memory hmem)
    simp [hatomic]
  | true =>
    by_cases hshort : size.toInt < 256
    · have hatomic : Atomic kmalloc m buffer size bufferSorted :=
        atomic_of_error (by decide) (sortfunc_of_short hmem hshort)
      simp [hatomic, hshort]
    · have hsize : 256 ≤ size.toInt := by omega
      rw [atomic_iff_of_accepted hmem hsize, copiedIn_iff, copiedOut_iff, bytes_eq_iff hsize]
      simp only [Bool.true_eq_false, hshort, false_or]
      tauto

def unreadable : Memory := { zeroMemory with readable := fun _ => false }

/-- A source that cannot be read at all gives 256 sorted zeros and the answer 0. -/
theorem sortfunc_of_null_source :
    (unreadable.copyFromUser 0 (bytes 256)).2 = 1024 ∧
    (∃ m', sortfunc (fun _ => true) unreadable 0 256 4096 = some (0, m')) ∧
    ¬Atomic (fun _ => true) unreadable 0 256 4096 := by
  have hlost : (unreadable.copyFromUser 0 (bytes 256)).2 = 1024 := by decide +kernel
  refine ⟨hlost, ?_, ?_⟩
  · obtain ⟨sorted, hcall, -, -⟩ := @exists_sortfunc (fun _ => true) 256 unreadable 0 4096 rfl
      (by decide) (by decide)
    exact ⟨_, hcall⟩
  · rw [atomic_iff_of_accepted rfl (by decide)]
    rintro ⟨⟨-, hin⟩, -⟩
    rw [hlost] at hin
    exact absurd hin (by decide)

/-- The indices at which the loops read and write `buffk`. -/
def loopIndices : List ℕ :=
  (List.range (elements - 1)).flatMap fun i =>
    (List.range (elements - 1 - i)).flatMap fun j => [j, j + 1]

/-- The bytes requested hold every element that the loops use. -/
def LoopsInside (size : BitVec 32) : Prop := ∀ k ∈ loopIndices, 4 * (k + 1) ≤ bytes size

theorem mem_loopIndices {k : ℕ} : k ∈ loopIndices ↔ k < elements := by
  simp only [loopIndices, elements, List.mem_flatMap, List.mem_range, List.mem_cons,
    List.not_mem_nil, or_false]
  constructor
  · rintro ⟨i, hi, j, hj, hk⟩
    omega
  · intro hk
    by_cases hlast : k = 255
    · exact ⟨0, by omega, 254, by omega, .inr hlast⟩
    · exact ⟨0, by omega, k, by omega, .inl rfl⟩

theorem loopsInside_iff : LoopsInside size ↔ elements ≤ bytes size / 4 := by
  simp only [LoopsInside, mem_loopIndices, elements]
  constructor
  · intro h
    have hlast := h 255 (by decide)
    omega
  · intro h k hk
    omega

theorem bytes_of_accepted (hsize : 256 ≤ size.toInt) :
    (bytes size : ℤ) = if size.toInt < 2 ^ 30 then 4 * size.toInt else 4 * size.toInt - 2 ^ 32 := by
  have hnat := toNat_of_accepted hsize
  have hlt := BitVec.toInt_lt (x := size)
  have hmul : bytes size = size.toNat * 4 % 2 ^ 32 := by
    rw [bytes, BitVec.toNat_mul]
    rfl
  split <;> omega

/-- The loops of an accepted call stay in the kernel buffer unless the number of bytes wraps around
to fewer than 256 integers, and the call has a result exactly then. -/
theorem sortfunc_stays_inside_iff (kmalloc : ℕ → Bool) (m : Memory)
    (buffer size bufferSorted : BitVec 32) (h : kmalloc (bytes size) = true)
    (hsize : 256 ≤ size.toInt) :
    (LoopsInside size ↔ size.toInt < 2 ^ 30 ∨ 2 ^ 30 + 256 ≤ size.toInt) ∧
    ((sortfunc kmalloc m buffer size bufferSorted).isSome ↔ LoopsInside size) := by
  have hbytes := bytes_of_accepted hsize
  constructor
  · rw [loopsInside_iff, elements]
    split at hbytes <;> omega
  · rw [loopsInside_iff]
    constructor
    · intro hsome
      by_contra hfit
      rw [sortfunc_eq_none h hsize (Nat.lt_of_not_le hfit)] at hsome
      exact Bool.false_ne_true hsome
    · intro hfit
      obtain ⟨sorted, hcall, -, -⟩ := exists_sortfunc m buffer bufferSorted h hsize hfit
      rw [hcall]
      rfl

theorem sortfunc_stays_inside_iff_300 :
    LoopsInside 300 ∧ (sortfunc (fun _ => true) zeroMemory 0 300 4096).isSome := by
  obtain ⟨hinside, hsome⟩ :=
    sortfunc_stays_inside_iff (fun _ => true) zeroMemory 0 300 4096 rfl (by decide)
  have h300 : LoopsInside 300 := hinside.mpr (.inl (by decide))
  exact ⟨h300, hsome.mpr h300⟩

/-- A request for `2 ^ 30` integers asks for no bytes at all, and the size is accepted. -/
theorem request_wraps_to_nothing :
    bytes 0x40000000 = 0 ∧ 256 ≤ BitVec.toInt 0x40000000#32 ∧ ¬LoopsInside 0x40000000 ∧
    sortfunc (fun _ => true) zeroMemory 0 0x40000000 4096 = none := by
  have hbytes : bytes 0x40000000 = 0 := by decide
  have hfit : bytes 0x40000000 / 4 < elements := by decide
  refine ⟨hbytes, by decide, ?_, sortfunc_eq_none rfl (by decide) hfit⟩
  rw [loopsInside_iff]
  exact Nat.not_le.mpr hfit

end Call

end EmbeddedSoftware.SortCall
