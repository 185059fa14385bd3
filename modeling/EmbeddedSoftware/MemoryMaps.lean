import EmbeddedSoftware.RunRules
import EmbeddedSoftware.SystemCalls
import Mathlib.Algebra.Group.Nat.Defs
import Mathlib.Logic.Function.Basic

/-!
# The description of the memory of a process

`prctl_set_mm` of `sys.c`, by which a process changes the borders of its code, data, heap, stack,
arguments and environment, its auxiliary vector and its executable file. An `unsigned long` has `w`
bits, while the fields of `struct prctl_mm_map` have 64.
-/

namespace EmbeddedSoftware.MemoryMaps

open Relation RunRules SystemCalls

inductive Field where
  | startCode | endCode | startData | endData | startBrk | brk | startStack
  | argStart | argEnd | envStart | envEnd
  deriving DecidableEq

/-- The table `offsets` of the fields that are addresses. -/
def Field.offsets : List Field :=
  [.startCode, .endCode, .startData, .endData, .startBrk, .brk, .startStack, .argStart, .argEnd,
    .envStart, .envEnd]

theorem Field.mem_offsets (f : Field) : f ∈ Field.offsets := by
  cases f <;> decide

/-- A file, with what decides whether it can be the executable of a process. -/
structure File where
  path : ℕ
  regular : Bool
  noexec : Bool
  deriving DecidableEq

/-- The part of `mm_struct` that the calls change. The vector is a sequence of bytes. -/
structure Mm (w : ℕ) where
  addr : Field → BitVec w
  savedAuxv : ℕ → UInt8
  exeFile : Option File

/-- `struct prctl_mm_map`, with what stands behind its pointer `auxv`. -/
structure PrctlMap where
  addr : Field → BitVec 64
  auxv : UserSource (ℕ → UInt8)
  auxvSize : UInt32
  exeFd : UInt32

structure Vma (w : ℕ) where
  vmEnd : BitVec w
  file : Option File

/-- What depends on the machine: the borders of the address space, the size of
`struct prctl_mm_map`, and the number of words of the auxiliary vector, at least two. -/
structure Config (w : ℕ) where
  taskSize : BitVec w
  mmapMinAddr : BitVec w
  mapSize : BitVec w
  atVectorSize : ℕ
  two_le : 2 ≤ atVectorSize
  checkpointRestore : Bool

def Config.auxvBytes {w : ℕ} (c : Config w) : ℕ := c.atVectorSize * (w / 8)

/-- What the rest of the kernel answers: the capabilities of the caller, whether it may execute a
file, what `check_data_rlimit` says of the heap and the data, the open files, the mapped areas, and
what the stack of the kernel happens to hold. -/
structure Answers (w : ℕ) where
  capable : Bool
  nsCapable : Bool
  inodePermission : File → Except Errno Unit
  dataFits : BitVec w → BitVec w → BitVec w → BitVec w → Bool
  fdget : UInt32 → Option File
  mmap : List (Vma w)
  stack : ℕ → UInt8

structure User where
  map : UserSource PrctlMap
  bytes : UserSource (ℕ → UInt8)
  size : UserSink

section Calls

variable {w : ℕ}

/-- `(u32)-1` stands for no file. -/
def noFd : UInt32 := 0xFFFFFFFF

def prctlSetMmExeFile (a : Answers w) (mm : Mm w) (fd : UInt32) : Except Errno (Mm w) := do
  let exe ← orError (a.fdget fd) .ebadf
  require (exe.regular = true ∧ exe.noexec = false) .eacces
  a.inodePermission exe
  require (∀ old ∈ mm.exeFile, ∀ vma ∈ a.mmap, ∀ f ∈ vma.file, f.path ≠ old.path) .ebusy
  return { mm with exeFile := some exe }

def PrctlMap.long (m : PrctlMap) (f : Field) : BitVec w := (m.addr f).setWidth w

/-- The pairs of borders that have to be in order. -/
def InOrder (addr : Field → BitVec w) : Prop :=
  addr .startCode < addr .endCode ∧ addr .startData < addr .endData ∧ addr .startBrk ≤ addr .brk ∧
    addr .argStart ≤ addr .argEnd ∧ addr .envStart ≤ addr .envEnd

instance (addr : Field → BitVec w) : Decidable (InOrder addr) := by
  unfold InOrder
  infer_instance

def InRange (c : Config w) (v : BitVec w) : Prop := c.mmapMinAddr ≤ v ∧ v < c.taskSize

instance (c : Config w) (v : BitVec w) : Decidable (InRange c v) := by
  unfold InRange
  infer_instance

/-- `validate_prctl_map`. The heap is compared with the data in 64 bits, all else as an
`unsigned long`. -/
def validatePrctlMap (c : Config w) (a : Answers w) (m : PrctlMap) : Except Errno Unit := do
  require (∀ f ∈ Field.offsets, InRange c (m.long f)) .einval
  require (InOrder (m.long (w := w))) .einval
  require (m.addr .endData < m.addr .startBrk ∧ m.addr .endData < m.addr .brk) .einval
  require (a.dataFits (m.long .brk) (m.long .startBrk) (m.long .endData) (m.long .startData) = true)
    .einval
  require (m.auxvSize ≠ 0 → m.auxv.isNull = false ∧ m.auxvSize.toNat ≤ c.auxvBytes) .einval
  require (m.exeFd ≠ noFd → a.nsCapable = true) .einval

def terminate (c : Config w) (auxv : ℕ → UInt8) (i : ℕ) : UInt8 :=
  if (c.atVectorSize - 2) * (w / 8) ≤ i ∧ i < c.auxvBytes then 0 else auxv i

def overlay (len : ℕ) (new old : ℕ → UInt8) (i : ℕ) : UInt8 := if i < len then new i else old i

def mapAuxv (c : Config w) (m : PrctlMap) : Except Errno (Option (ℕ → UInt8)) :=
  if m.auxvSize = 0 then .ok none
  else do
    let bytes ← copyFromUser m.auxv
    return some (terminate c (overlay m.auxvSize.toNat bytes fun _ => 0))

def mapExe (a : Answers w) (mm : Mm w) (m : PrctlMap) : Except Errno (Mm w) :=
  if m.exeFd = noFd then .ok mm else prctlSetMmExeFile a mm m.exeFd

/-- The part of `prctl_set_mm_map` that installs a map which has been validated. -/
def installMap (c : Config w) (a : Answers w) (mm : Mm w) (m : PrctlMap) : Except Errno (Mm w) := do
  let auxv ← mapAuxv c m
  let mm ← mapExe a mm m
  return { mm with
    addr := m.long
    savedAuxv := auxv.elim mm.savedAuxv fun new => overlay c.auxvBytes new mm.savedAuxv }

def prctlSetMmMap (c : Config w) (a : Answers w) (mm : Mm w) (opt : ℕ) (u : User)
    (dataSize : BitVec w) : Except Errno (Mm w) :=
  if opt = 15 then do
    copyToUser u.size
    return mm
  else do
    require (dataSize = c.mapSize) .einval
    let m ← copyFromUser u.map
    validatePrctlMap c a m
    installMap c a mm m

/-- `prctl_set_auxv` copies as many bytes as the caller gives. -/
def prctlSetAuxv (c : Config w) (a : Answers w) (mm : Mm w) (bytes : UserSource (ℕ → UInt8))
    (len : BitVec w) : Except Errno (Mm w) := do
  require (len.toNat ≤ c.auxvBytes) .einval
  let bytes ← copyBytesFromUser bytes len.toNat
  let userAuxv := terminate c (overlay len.toNat bytes a.stack)
  return { mm with savedAuxv := overlay len.toNat userAuxv mm.savedAuxv }

/-- The options of `prctl_set_mm` that set one border. -/
def fieldOf : ℕ → Option Field
  | 1 => some .startCode | 2 => some .endCode | 3 => some .startData | 4 => some .endData
  | 5 => some .startStack | 6 => some .startBrk | 7 => some .brk | 8 => some .argStart
  | 9 => some .argEnd | 10 => some .envStart | 11 => some .envEnd | _ => none

/-- The borders that have to lie in or below a mapped area. -/
def needsVma (f : Field) : Bool :=
  f ∈ [.startStack, .argStart, .argEnd, .envStart, .envEnd]

/-- The map of the process with one border changed. -/
def changedMap (mm : Mm w) (f : Field) (addr : BitVec w) : PrctlMap where
  addr := Function.update (fun f => (mm.addr f).setWidth 64) f (addr.setWidth 64)
  auxv := .null
  auxvSize := 0
  exeFd := noFd

/-- The part of `prctl_set_mm` that changes one border. -/
def prctlSetField (c : Config w) (a : Answers w) (mm : Mm w) (opt : ℕ) (addr : BitVec w) :
    Except Errno (Mm w) := do
  require (InRange c addr) .einval
  let f ← orError (fieldOf opt) .einval
  validatePrctlMap c a (changedMap mm f addr)
  -- `find_vma` finds the first area that ends above the address
  require (needsVma f = true → ∃ vma ∈ a.mmap, addr < vma.vmEnd) .efault
  return { mm with addr := (changedMap mm f addr).long }

def prctlSetMm (c : Config w) (a : Answers w) (mm : Mm w) (opt : ℕ) (addr arg4 arg5 : BitVec w)
    (u : User) : Except Errno (Mm w) := do
  require (arg5 = 0 ∧ (arg4 = 0 ∨ opt = 12 ∨ opt = 14 ∨ opt = 15)) .einval
  if c.checkpointRestore = true ∧ (opt = 14 ∨ opt = 15) then prctlSetMmMap c a mm opt u arg4
  else do
    require (a.capable = true) .eperm
    if opt = 13 then prctlSetMmExeFile a mm (UInt32.ofBitVec (addr.setWidth 32))
    else if opt = 12 then prctlSetAuxv c a mm u.bytes arg4
    else prctlSetField c a mm opt addr

end Calls

section Specs

variable {w : ℕ} {c : Config w} {a : Answers w} {mm mm' : Mm w} {m : PrctlMap} {u : User}

structure Validated (c : Config w) (a : Answers w) (m : PrctlMap) : Prop where
  range : ∀ f, InRange c (m.long f)
  order : InOrder (m.long (w := w))
  heap : m.addr .endData < m.addr .startBrk ∧ m.addr .endData < m.addr .brk
  auxv : m.auxvSize ≠ 0 → m.auxvSize.toNat ≤ c.auxvBytes
  exe : m.exeFd ≠ noFd → a.nsCapable = true

theorem validated_of_ok {x : Unit} (h : validatePrctlMap c a m = .ok x) : Validated c a m := by
  simp only [validatePrctlMap, bind_eq_ok_iff, require_eq_ok_iff] at h
  obtain ⟨-, hrange, -, horder, -, hheap, -, -, -, hauxv, hexe⟩ := h
  exact ⟨fun f => hrange f f.mem_offsets, horder, hheap, fun hsize => (hauxv hsize).2, hexe⟩

/-- What `prctl_set_mm_exe_file` checks of a file: it is a regular one, on a mount that allows
execution, and the caller has the permission to execute it. -/
structure Executable (a : Answers w) (exe : File) : Prop where
  regular : exe.regular = true
  noexec : exe.noexec = false
  permission : a.inodePermission exe = .ok ()

theorem prctlSetMmExeFile_eq_ok {fd : UInt32} (h : prctlSetMmExeFile a mm fd = .ok mm') :
    ∃ exe, Executable a exe ∧ mm' = { mm with exeFile := some exe } := by
  simp only [prctlSetMmExeFile, bind_eq_ok_iff, require_eq_ok_iff, orError_eq_ok_iff] at h
  obtain ⟨exe, -, -, ⟨hregular, hnoexec⟩, ⟨⟩, hpermission, -, -, hnew⟩ := h
  cases hnew
  exact ⟨exe, ⟨hregular, hnoexec, hpermission⟩, rfl⟩

/-- What a call that succeeds can do. -/
inductive Effect (c : Config w) (a : Answers w) (mm : Mm w) (opt : ℕ) : Mm w → Prop
  | size (hopt : opt = 15) : Effect c a mm opt mm
  | map (m : PrctlMap) (hopt : opt = 14) (hvalid : Validated c a m) (auxv : ℕ → UInt8)
    (hauxv : auxv = mm.savedAuxv ∨ ∃ new, auxv = overlay c.auxvBytes (terminate c new) mm.savedAuxv)
    (exeFile : Option File)
    (hexe : exeFile = mm.exeFile ∨ a.nsCapable = true ∧ ∃ exe, exeFile = some exe ∧
      Executable a exe) :
    Effect c a mm opt ⟨m.long, auxv, exeFile⟩
  | exe (exe : File) (hopt : opt = 13) (hcapable : a.capable = true) (hexe : Executable a exe) :
    Effect c a mm opt { mm with exeFile := some exe }
  | auxv (len : ℕ) (new : ℕ → UInt8) (hopt : opt = 12) (hcapable : a.capable = true) :
    Effect c a mm opt { mm with savedAuxv := overlay len (terminate c new) mm.savedAuxv }
  | field (f : Field) (addr : BitVec w) (hopt : fieldOf opt = some f) (hcapable : a.capable = true)
    (hvalid : Validated c a (changedMap mm f addr)) :
    Effect c a mm opt { mm with addr := (changedMap mm f addr).long }

theorem mapAuxv_eq_ok {auxv : Option (ℕ → UInt8)} (h : mapAuxv c m = .ok auxv) :
    auxv = none ∨ ∃ new, auxv = some (terminate c new) := by
  rw [mapAuxv] at h
  split at h
  · cases h
    exact .inl rfl
  · obtain ⟨bytes, -, h⟩ := bind_eq_ok_iff.mp h
    cases h
    exact .inr ⟨_, rfl⟩

theorem installMap_effect (hvalid : Validated c a m) (h : installMap c a mm m = .ok mm') :
    Effect c a mm 14 mm' := by
  obtain ⟨auxv, hauxv, h⟩ := bind_eq_ok_iff.mp h
  obtain ⟨mm₁, hexe, h⟩ := bind_eq_ok_iff.mp h
  cases h
  have hfile : mm₁.savedAuxv = mm.savedAuxv ∧ (mm₁.exeFile = mm.exeFile ∨ a.nsCapable = true ∧
      ∃ exe, mm₁.exeFile = some exe ∧ Executable a exe) := by
    rw [mapExe] at hexe
    split at hexe
    · cases hexe
      exact ⟨rfl, .inl rfl⟩
    · next hfd =>
      obtain ⟨exe, hexecutable, rfl⟩ := prctlSetMmExeFile_eq_ok hexe
      exact ⟨rfl, .inr ⟨hvalid.exe hfd, exe, rfl, hexecutable⟩⟩
  refine .map m rfl hvalid _ ?_ _ hfile.2
  rw [hfile.1]
  obtain rfl | ⟨new, rfl⟩ := mapAuxv_eq_ok hauxv
  · exact .inl rfl
  · exact .inr ⟨new, rfl⟩

theorem prctlSetMm_effect {opt : ℕ} {addr arg4 arg5 : BitVec w}
    (hok : prctlSetMm c a mm opt addr arg4 arg5 u = .ok mm') : Effect c a mm opt mm' := by
  obtain ⟨-, -, h⟩ := bind_eq_ok_iff.mp hok
  split at h
  · next hmap =>
    rw [prctlSetMmMap] at h
    split at h
    · next hopt =>
      obtain ⟨-, -, h⟩ := bind_eq_ok_iff.mp h
      cases h
      exact .size hopt
    · next hopt =>
      obtain ⟨-, -, h⟩ := bind_eq_ok_iff.mp h
      obtain ⟨m, -, h⟩ := bind_eq_ok_iff.mp h
      obtain ⟨⟨⟩, hvalid, h⟩ := bind_eq_ok_iff.mp h
      rw [hmap.2.resolve_right hopt]
      exact installMap_effect (validated_of_ok hvalid) h
  · obtain ⟨⟨⟩, hcapable, h⟩ := bind_eq_ok_iff.mp h
    rw [require_eq_ok_iff] at hcapable
    split at h
    · next hopt =>
      obtain ⟨exe, hexecutable, rfl⟩ := prctlSetMmExeFile_eq_ok h
      exact .exe exe hopt hcapable hexecutable
    · split at h
      · next hopt =>
        obtain ⟨-, -, h⟩ := bind_eq_ok_iff.mp h
        obtain ⟨bytes, -, h⟩ := bind_eq_ok_iff.mp h
        cases h
        exact .auxv _ _ hopt hcapable
      · obtain ⟨-, -, h⟩ := bind_eq_ok_iff.mp h
        obtain ⟨f, hf, h⟩ := bind_eq_ok_iff.mp h
        obtain ⟨⟨⟩, hvalid, h⟩ := bind_eq_ok_iff.mp h
        obtain ⟨-, -, h⟩ := bind_eq_ok_iff.mp h
        cases h
        exact .field f addr (orError_eq_ok_iff.mp hf) hcapable (validated_of_ok hvalid)

end Specs

section Runs

variable {w : ℕ} {c : Config w} {mm mm' : Mm w}

/-- A call of `prctl_set_mm` with arguments and answers that `P` allows. One that fails changes
nothing. -/
def Step (c : Config w) (P : Answers w → ℕ → Prop) (mm mm' : Mm w) : Prop :=
  ∃ a opt addr arg4 arg5 u, P a opt ∧
    (prctlSetMm c a mm opt addr arg4 arg5 u = .ok mm' ∨ mm' = mm)

def Run (c : Config w) (P : Answers w → ℕ → Prop) : Mm w → Mm w → Prop :=
  ReflTransGen (Step c P)

theorem run_of_effects {P : Answers w → ℕ → Prop} {I : Mm w → Prop}
    (heffect : ∀ a opt mm mm', P a opt → I mm → Effect c a mm opt mm' → I mm') (hI : I mm)
    (hrun : Run c P mm mm') : I mm' := by
  apply run_invariant _ hI hrun
  rintro mm₁ mm₂ h₁ ⟨a, opt, addr, arg4, arg5, u, hP, hok | rfl⟩
  · exact heffect a opt mm₁ mm₂ hP h₁ (prctlSetMm_effect hok)
  · exact h₁

theorem changedMap_addr (mm : Mm w) (f : Field) (addr : BitVec w) (g : Field) :
    (changedMap mm f addr).addr g = (Function.update mm.addr f addr g).setWidth 64 := by
  change Function.update (fun f => (mm.addr f).setWidth 64) f (addr.setWidth 64) g = _
  rw [Function.update_apply, Function.update_apply]
  split <;> rfl

/-- Between addresses of `w` bits the comparisons in 64 bits are exact. -/
theorem setWidth_lt_iff (hw : w ≤ 64) (x y : BitVec w) : x.setWidth 64 < y.setWidth 64 ↔ x < y := by
  have hpow : 2 ^ w ≤ 2 ^ 64 := Nat.pow_le_pow_right (by decide) hw
  rw [BitVec.lt_def, BitVec.lt_def, BitVec.toNat_setWidth, BitVec.toNat_setWidth,
    Nat.mod_eq_of_lt (Nat.lt_of_lt_of_le x.isLt hpow),
    Nat.mod_eq_of_lt (Nat.lt_of_lt_of_le y.isLt hpow)]

theorem changedMap_long (hw : w ≤ 64) (mm : Mm w) (f : Field) (addr : BitVec w) :
    (changedMap mm f addr).long = Function.update mm.addr f addr := by
  funext g
  rw [PrctlMap.long, changedMap_addr]
  rw [BitVec.setWidth_setWidth_of_le _ hw, BitVec.setWidth_eq]

structure Checked (c : Config w) (addr : Field → BitVec w) : Prop where
  range : ∀ f, InRange c (addr f)
  order : InOrder addr

theorem Validated.checked {a : Answers w} {m : PrctlMap} (h : Validated c a m) :
    Checked c (m.long (w := w)) :=
  ⟨h.range, h.order⟩

def HeapBehindData (addr : Field → BitVec w) : Prop := addr .endData < addr .startBrk

theorem Validated.heapBehindData_of_field {a : Answers w} {f : Field} {addr : BitVec w} (hw : w ≤ 64)
    (h : Validated c a (changedMap mm f addr)) : HeapBehindData ((changedMap mm f addr).long (w := w)) := by
  have hheap := h.heap.1
  rw [changedMap_addr, changedMap_addr, setWidth_lt_iff hw] at hheap
  rw [HeapBehindData, changedMap_long hw]
  exact hheap

/-- The borders along every run of calls: they are those of the start, or all of them lie in the
address space and each pair is in order. The heap is behind the data as well where a `long` has 64
bits, and everywhere while the borders are changed one by one. -/
theorem borders_along_run (hw : w ≤ 64) (c : Config w) (mm : Mm w) :
    (∀ mm', Run c (fun _ _ => True) mm mm' → mm'.addr = mm.addr ∨
      Checked c mm'.addr ∧ (w = 64 → HeapBehindData mm'.addr)) ∧
    ∀ mm', Run c (fun _ opt => opt ≠ 14) mm mm' → mm'.addr = mm.addr ∨
      Checked c mm'.addr ∧ HeapBehindData mm'.addr := by
  constructor
  · intro mm' hrun
    refine run_of_effects (I := fun mm' => mm'.addr = mm.addr ∨
      Checked c mm'.addr ∧ (w = 64 → HeapBehindData mm'.addr)) ?_ (.inl rfl) hrun
    intro a opt mm₁ mm₂ _ h₁ heffect
    cases heffect with
    | size => exact h₁
    | map m _ hvalid =>
      refine .inr ⟨hvalid.checked, ?_⟩
      rintro rfl
      have hlong : ∀ f, m.long (w := 64) f = m.addr f := fun f => BitVec.setWidth_eq _
      change m.long (w := 64) .endData < m.long .startBrk
      rw [hlong, hlong]
      exact hvalid.heap.1
    | exe => exact h₁
    | auxv => exact h₁
    | field f addr _ _ hvalid =>
      exact .inr ⟨hvalid.checked, fun _ => hvalid.heapBehindData_of_field hw⟩
  · intro mm' hrun
    refine run_of_effects (I := fun mm' => mm'.addr = mm.addr ∨
      Checked c mm'.addr ∧ HeapBehindData mm'.addr) ?_ (.inl rfl) hrun
    intro a opt mm₁ mm₂ hopt h₁ heffect
    cases heffect with
    | size => exact h₁
    | map m hmap => exact absurd hmap hopt
    | exe => exact h₁
    | auxv => exact h₁
    | field f addr _ _ hvalid =>
      exact .inr ⟨hvalid.checked, hvalid.heapBehindData_of_field hw⟩

def config (w : ℕ) : Config w where
  taskSize := if w = 32 then 0xC0000000#w else 0x7FFFFFFFF000#w
  mmapMinAddr := 0x1000#w
  mapSize := 104#w
  atVectorSize := 44
  two_le := by decide
  checkpointRestore := true

def caller (w : ℕ) : Answers w where
  capable := false
  nsCapable := false
  inodePermission _ := .ok ()
  dataFits _ _ _ _ := true
  fdget _ := none
  mmap := []
  stack _ := 0

def borders {w : ℕ} : Field → BitVec w
  | .startCode => 0x1000#w | .endCode => 0x2000#w | .startData => 0x3000#w | .endData => 0x9000#w
  | .startBrk => 0xA000#w | .brk => 0xB000#w | .startStack => 0xF000#w | .argStart => 0xF000#w
  | .argEnd => 0xF100#w | .envStart => 0xF100#w | .envEnd => 0xF200#w

def process (w : ℕ) : Mm w := ⟨borders, fun _ => 0, some ⟨1, true, false⟩⟩

def heapAt (startBrk brk : BitVec 64) : User where
  map := .value ⟨fun | .startBrk => startBrk | .brk => brk | f => borders f, .null, 0, noFd⟩
  bytes := .null
  size := .null

/-- Where a `long` has 64 bits, no call can put the heap before the data. -/
theorem borders_along_run_process :
    HeapBehindData (process 64).addr ∧
    ∀ mm', Run (config 64) (fun _ _ => True) (process 64) mm' → HeapBehindData mm'.addr := by
  have hstart : HeapBehindData (process 64).addr := by
    rw [HeapBehindData]
    decide
  refine ⟨hstart, ?_⟩
  intro mm' hrun
  obtain hsame | ⟨-, hheap⟩ := (borders_along_run (by decide) (config 64) (process 64)).1 mm' hrun
  · rw [hsame]
    exact hstart
  · exact hheap rfl

/-- Where a `long` has 32 bits, `PR_SET_MM_MAP` puts the heap before the data: the comparison sees
the upper halves of the fields, which are then cut off. -/
theorem exists_heap_before_data : ∃ mm', Run (config 32) (fun _ _ => True) (process 32) mm' ∧
    mm'.addr .startBrk < mm'.addr .endData := by
  have hcall : prctlSetMm (config 32) (caller 32) (process 32) 14 0 104 0
      (heapAt 0x100005000 0x100006000) = .ok ⟨PrctlMap.long ⟨fun
        | .startBrk => 0x100005000 | .brk => 0x100006000 | f => borders f, .null, 0, noFd⟩,
        fun _ => 0, some ⟨1, true, false⟩⟩ := rfl
  exact ⟨_, .single ⟨caller 32, 14, 0, 104, 0, _, trivial, .inl hcall⟩, by decide⟩

/-- The vector ends with two words of `AT_NULL`. -/
def Terminated (c : Config w) (auxv : ℕ → UInt8) : Prop :=
  ∀ i, (c.atVectorSize - 2) * (w / 8) ≤ i → i < c.auxvBytes → auxv i = 0

theorem Terminated.overlay {old : ℕ → UInt8} (h : Terminated c old) (len : ℕ) (new : ℕ → UInt8) :
    Terminated c (overlay len (terminate c new) old) := by
  intro i hlow hhigh
  rw [MemoryMaps.overlay]
  split
  · rw [terminate, if_pos ⟨hlow, hhigh⟩]
  · exact h i hlow hhigh

/-- The auxiliary vector and the executable file along every run of calls, where `inode_permission`
permits only files that `may` be executed. The vector keeps its end, and the file is a regular one
that may be executed, on a mount that allows it. Callers without capabilities never change the
file. -/
theorem vector_and_file_along_run (c : Config w) (mm : Mm w) (may : File → Prop)
    (hauxv : Terminated c mm.savedAuxv)
    (hexe : ∀ exe ∈ mm.exeFile, exe.regular = true ∧ exe.noexec = false ∧ may exe) :
    (∀ mm', Run c (fun a _ => ∀ exe, a.inodePermission exe = .ok () → may exe) mm mm' →
      Terminated c mm'.savedAuxv ∧
      ∀ exe ∈ mm'.exeFile, exe.regular = true ∧ exe.noexec = false ∧ may exe) ∧
    ∀ mm', Run c (fun a _ => a.capable = false ∧ a.nsCapable = false) mm mm' →
      mm'.exeFile = mm.exeFile := by
  constructor
  · intro mm' hrun
    refine run_of_effects (I := fun mm' => Terminated c mm'.savedAuxv ∧
      ∀ exe ∈ mm'.exeFile, exe.regular = true ∧ exe.noexec = false ∧ may exe) ?_ ⟨hauxv, hexe⟩ hrun
    rintro a opt mm₁ mm₂ hmay ⟨hauxv₁, hexe₁⟩ heffect
    have hnew : ∀ exe, Executable a exe → exe.regular = true ∧ exe.noexec = false ∧ may exe :=
      fun exe h => ⟨h.regular, h.noexec, hmay exe h.permission⟩
    cases heffect with
    | size => exact ⟨hauxv₁, hexe₁⟩
    | map m _ hvalid auxv hvector exeFile hfile =>
      constructor
      · obtain rfl | ⟨new, rfl⟩ := hvector
        · exact hauxv₁
        · exact hauxv₁.overlay _ new
      · obtain rfl | ⟨-, exe, rfl, hexecutable⟩ := hfile
        · exact hexe₁
        · rintro _ ⟨⟩
          exact hnew exe hexecutable
    | exe exe _ _ hexecutable =>
      refine ⟨hauxv₁, ?_⟩
      rintro _ ⟨⟩
      exact hnew exe hexecutable
    | auxv len new => exact ⟨hauxv₁.overlay len new, hexe₁⟩
    | field => exact ⟨hauxv₁, hexe₁⟩
  · intro mm' hrun
    refine run_of_effects (I := fun mm' => mm'.exeFile = mm.exeFile) ?_ rfl hrun
    rintro a opt mm₁ mm₂ ⟨hcapable, hnsCapable⟩ h₁ heffect
    cases heffect with
    | size => exact h₁
    | map m _ hvalid auxv hnew exeFile hfile =>
      obtain rfl | ⟨htrue, -⟩ := hfile
      · exact h₁
      · rw [hnsCapable] at htrue
        cases htrue
    | exe exe _ htrue =>
      rw [hcapable] at htrue
      cases htrue
    | auxv => exact h₁
    | field => exact h₁

/-- A caller with capabilities, who may execute one file and has it and another one open. -/
def restorer : Answers 64 where
  capable := true
  nsCapable := true
  inodePermission exe := if exe.path = 2 then .ok () else .error .eacces
  dataFits _ _ _ _ := true
  fdget fd := if fd = 3 then some ⟨2, true, false⟩ else some ⟨5, true, false⟩
  mmap := []
  stack _ := 0

theorem path_of_restorer {exe : File} (h : restorer.inodePermission exe = .ok ()) :
    exe.path = 2 := by
  change (if exe.path = 2 then Except.ok () else Except.error Errno.eacces) = .ok () at h
  split at h
  · next hpath => exact hpath
  · cases h

/-- The caller sets the file that it may execute, and no other one. -/
theorem vector_and_file_along_run_process :
    prctlSetMm (config 64) restorer (process 64) 13 3 0 0 ⟨.null, .null, .null⟩ =
      .ok ⟨borders, fun _ => 0, some ⟨2, true, false⟩⟩ ∧
    ∀ mm', Run (config 64) (fun a _ => a = restorer) ⟨borders, fun _ => 0, some ⟨2, true, false⟩⟩ mm' →
      ∀ exe ∈ mm'.exeFile, exe.path = 2 := by
  refine ⟨rfl, ?_⟩
  intro mm' hrun exe hexe
  have hallowed : Run (config 64) (fun a _ => ∀ exe, a.inodePermission exe = .ok () → exe.path = 2)
      ⟨borders, fun _ => 0, some ⟨2, true, false⟩⟩ mm' := by
    refine ReflTransGen.mono ?_ _ _ hrun
    rintro mm₁ mm₂ ⟨_, opt, addr, arg4, arg5, u, rfl, hcall⟩
    refine ⟨restorer, opt, addr, arg4, arg5, u, ?_, hcall⟩
    exact fun exe => path_of_restorer
  exact ((vector_and_file_along_run (config 64) ⟨borders, fun _ => 0, some ⟨2, true, false⟩⟩
    (fun exe => exe.path = 2) (fun _ _ _ => rfl) (by decide)).1 mm' hallowed).2 exe hexe |>.2.2

end Runs

end EmbeddedSoftware.MemoryMaps
