import EmbeddedSoftware.PrintedText
import EmbeddedSoftware.SortCall
import Mathlib.Data.List.Forall2

/-!
# The programs that call sortfunc

`sortfunc.c` shows an array before and after the call, `sortfunctest.c` makes three more calls to
provoke errors before it shows the array, and `cron_log.c` appends the sorted numbers to a log that
grows with each run.
-/

namespace EmbeddedSoftware.SortPrograms

open BubbleSort ByteLayout UserMemory SortCall PrintedText

/-- A process with its two arrays of 256 integers. Nothing can be read at `NULL`. -/
structure Process where
  memory : Memory
  buffer : BitVec 32
  bufferSorted : BitVec 32
  readable : Covers memory.readable buffer 1024
  writable : Covers memory.writable bufferSorted 1024
  null : memory.readable 0 = false

section Programs

/-- The numbers that a program draws, from `48` on. -/
def drawn (k : ℕ) (rand : ℕ → ℕ) : List (BitVec 32) :=
  (List.range 256).map fun i => BitVec.ofNat 32 (48 + rand i % k)

def Process.filled (p : Process) (k : ℕ) (rand : ℕ → ℕ) : Memory :=
  p.memory.write p.buffer (wordBytes (drawn k rand))

/-- What `syscall` makes of the result of the kernel: the number of an error goes to `errno`. -/
def syscall (result : ℤ) : ℤ := if result < 0 then -1 else result

def strerror (errno : ℤ) : String :=
  if errno = enomem then "Cannot allocate memory"
  else if errno = einval then "Invalid argument" else "Unknown error"

def perror (message : String) (errno : ℤ) : List Char :=
  message.toList ++ ": ".toList ++ (strerror errno).toList ++ "\n".toList

def complain (result : ℤ) (message : String) : List Char :=
  if syscall result ≠ 0 then perror message (-result) else []

def shown (xs : List (BitVec 32)) : List Char :=
  xs.flatMap fun x => sprintf [.number, .text ", ".toList] [x.toInt]

def before (buffer : List (BitVec 32)) : List Char :=
  "Before sorting\n".toList ++ shown buffer ++ "\n".toList

def after (bufferSorted : List (BitVec 32)) : List Char :=
  "After sorting the array is \n".toList ++ shown bufferSorted ++ "\n".toList ++
    "sorting gets done\n".toList

def failed (text rest : String) (check : ℤ) : List Char := text.toList ++ decimal check ++ rest.toList

/-- `main` of `sortfunc.c`: what it prints. -/
def sortfuncMain (kmalloc : ℕ → Bool) (p : Process) (rand : ℕ → ℕ) : Option (List Char) := do
  let m := p.filled 96 rand
  let (result, m') ← sortfunc kmalloc m p.buffer 256 p.bufferSorted
  return before (ints m p.buffer 256) ++
    if syscall result = 0 then after (ints m' p.bufferSorted 256)
    else failed "System call failed:" " \n" (syscall result)

/-- `main` of `sortfunctest.c`: what it prints on `stdout` and on `stderr`. -/
def sortfunctestMain (kmalloc : ℕ → Bool) (p : Process) (rand : ℕ → ℕ) :
    Option (List Char × List Char) := do
  let m := p.filled 100 rand
  let (check, m₀) ← sortfunc kmalloc m p.buffer 256 p.bufferSorted
  let (check1, m₁) ← sortfunc kmalloc m₀ 0 256 p.bufferSorted
  let (check2, m₂) ← sortfunc kmalloc m₁ p.buffer (-6748) p.bufferSorted
  let (check3, m₃) ← sortfunc kmalloc m₂ p.buffer 200 p.bufferSorted
  return (before (ints m p.buffer 256) ++
      if syscall check = 0 then after (ints m₃ p.bufferSorted 256)
      else failed "System call has been failed " "\n" (syscall check),
    complain check1 "The sorted output is NULL" ++ complain check2 "The length is less than 0" ++
      complain check3 "The length is less than 256")

end Programs

section Calls

variable {kmalloc : ℕ → Bool} {p : Process} {k : ℕ} {rand : ℕ → ℕ}

theorem syscall_zero : syscall 0 = 0 := rfl

theorem length_drawn : (drawn k rand).length = 256 := by
  rw [drawn, List.length_map, List.length_range]

theorem ints_filled : ints (p.filled k rand) p.buffer 256 = drawn k rand := by
  have hlength : (wordBytes (drawn k rand)).length = 4 * 256 := by
    rw [length_wordBytes, length_drawn]
  rw [ints, ← hlength, Process.filled, Memory.read_write (by omega), words_wordBytes]

theorem access_of_sortfunc {m m' : Memory} {buffer size bufferSorted : BitVec 32} {r : ℤ}
    (h : sortfunc kmalloc m buffer size bufferSorted = some (r, m')) :
    m'.readable = m.readable ∧ m'.writable = m.writable := by
  rw [sortfunc] at h
  split at h
  · split at h
    · cases h
      exact ⟨rfl, rfl⟩
    · obtain ⟨sorted, -, hresult⟩ := Option.map_eq_some_iff.mp h
      cases hresult
      exact ⟨rfl, rfl⟩
  · cases h
    exact ⟨rfl, rfl⟩

/-- The call sorts what the program has drawn. -/
theorem exists_sorted (h : kmalloc 1024 = true) (p : Process) (k : ℕ) (rand : ℕ → ℕ) : ∃ m' sorted,
    sortfunc kmalloc (p.filled k rand) p.buffer 256 p.bufferSorted = some (0, m') ∧
    ints m' p.bufferSorted 256 = sorted ∧ sorted.Perm (drawn k rand) ∧
    Descending BitVec.toInt sorted := by
  have hall : (drawn k rand).length ≤ elements := length_drawn.le
  obtain ⟨m', sorted, hcall, hints, hperm, hdesc⟩ := @exists_sorted_ints kmalloc (p.filled k rand)
    p.buffer 256 p.bufferSorted h (by decide) (by decide) p.readable p.writable
  change ints m' p.bufferSorted 256 = sorted ++ (ints (p.filled k rand) p.buffer 256).drop elements
    at hints
  change sorted.Perm ((ints (p.filled k rand) p.buffer 256).take elements) at hperm
  rw [ints_filled, List.drop_of_length_le hall, List.append_nil] at hints
  rw [ints_filled, List.take_of_length_le hall] at hperm
  exact ⟨m', sorted, hcall, hints, hperm, hdesc⟩

theorem reach_eq_zero {access : BitVec 32 → Bool} {a : BitVec 32} (h : access a = false) (n : ℕ) :
    reach access a n = 0 := by
  cases n with
  | zero => rfl
  | succ n =>
    rw [reach, List.range_succ_eq_map, List.takeWhile_cons_of_neg (by simp [h]), List.length_nil]

/-- A call with `NULL` as its source succeeds, and it leaves zeros. -/
theorem exists_zeros (h : kmalloc 1024 = true) (p : Process) {m : Memory}
    (hread : m.readable = p.memory.readable) (hwrite : m.writable = p.memory.writable) : ∃ m',
    sortfunc kmalloc m 0 256 p.bufferSorted = some (0, m') ∧
    ints m' p.bufferSorted 256 = List.replicate 256 0 := by
  obtain ⟨sorted, hcall, hperm, -⟩ :=
    @exists_sortfunc kmalloc 256 m 0 p.bufferSorted h (by decide) (by decide)
  have hall : (List.replicate 256 (0 : BitVec 32)).length ≤ elements := List.length_replicate.le
  have hsource : words (m.copyFromUser 0 (bytes 256)).1 = List.replicate 256 0 := by
    have hreach : reach m.readable 0 (bytes 256) = 0 := reach_eq_zero (by rw [hread]; exact p.null) _
    have hzeros : (m.copyFromUser 0 (bytes 256)).1 = List.replicate 1024 0 := by
      rw [Memory.copyFromUser, hreach]
      rfl
    rw [hzeros]
    decide +kernel
  rw [hsource, List.take_of_length_le hall] at hperm
  rw [hsource, List.drop_of_length_le hall, List.append_nil, List.perm_replicate.mp hperm] at hcall
  have hlength : (wordBytes (List.replicate 256 0)).length = 4 * 256 := by
    rw [length_wordBytes, List.length_replicate]
  rw [Memory.copyToUser_of_covers (by rw [hwrite, hlength]; exact p.writable)] at hcall
  refine ⟨_, hcall, ?_⟩
  rw [ints, ← hlength, Memory.read_write (by omega), words_wordBytes]

theorem exists_error {m : Memory} {buffer size bufferSorted : BitVec 32} (hsize : size.toInt < 256) :
    ∃ e, (e = enomem ∨ e = einval) ∧ sortfunc kmalloc m buffer size bufferSorted = some (-e, m) := by
  cases hmem : kmalloc (bytes size) with
  | false => exact ⟨enomem, .inl rfl, sortfunc_of_no_memory hmem⟩
  | true => exact ⟨einval, .inr rfl, sortfunc_of_short hmem hsize⟩

/-- The program `sortfunc.c` shows the numbers that it has drawn and the same numbers sorted, the
largest first. -/
theorem sortfuncMain_spec (h : kmalloc 1024 = true) (p : Process) (rand : ℕ → ℕ) : ∃ sorted,
    sorted.Perm (drawn 96 rand) ∧ Descending BitVec.toInt sorted ∧
    sortfuncMain kmalloc p rand = some (before (drawn 96 rand) ++ after sorted) := by
  obtain ⟨m', sorted, hcall, hints, hperm, hdesc⟩ := exists_sorted h p 96 rand
  refine ⟨sorted, hperm, hdesc, ?_⟩
  simp only [sortfuncMain, hcall, Option.bind_eq_bind, Option.bind_some, Option.pure_def,
    ints_filled, hints, syscall_zero, if_true]

theorem complain_zero (message : String) : complain 0 message = [] := if_neg (by decide)

theorem complain_neg {e : ℤ} (he : e = enomem ∨ e = einval) (message : String) :
    complain (-e) message = perror message e := by
  obtain rfl | rfl := he
  · exact if_pos (by decide)
  · exact if_pos (by decide)

/-- The program `sortfunctest.c` shows 256 zeros as its sorted array, whatever it has drawn. Its second
call succeeds, with `NULL` as the source, and replaces what the first call has sorted. Only the
other two calls are reported as errors. -/
theorem sortfunctest_shows_zeros (h : kmalloc 1024 = true) (p : Process) (rand : ℕ → ℕ) :
    ∃ e₂ e₃, (e₂ = enomem ∨ e₂ = einval) ∧ (e₃ = enomem ∨ e₃ = einval) ∧
    sortfunctestMain kmalloc p rand = some
      (before (drawn 100 rand) ++ after (List.replicate 256 0),
      perror "The length is less than 0" e₂ ++ perror "The length is less than 256" e₃) := by
  obtain ⟨m₀, sorted, hcall, -, -, -⟩ := exists_sorted h p 100 rand
  obtain ⟨hread, hwrite⟩ := access_of_sortfunc hcall
  obtain ⟨m₁, hnull, hzeros⟩ := exists_zeros h p hread hwrite
  obtain ⟨e₂, he₂, hcall₂⟩ := @exists_error kmalloc m₁ p.buffer (-6748) p.bufferSorted (by decide)
  obtain ⟨e₃, he₃, hcall₃⟩ := @exists_error kmalloc m₁ p.buffer 200 p.bufferSorted (by decide)
  refine ⟨e₂, e₃, he₂, he₃, ?_⟩
  simp only [sortfunctestMain, hcall, hnull, hcall₂, hcall₃, Option.bind_eq_bind, Option.bind_some,
    Option.pure_def, ints_filled, hzeros, syscall_zero, if_true, complain_zero, complain_neg he₂,
    complain_neg he₃, List.nil_append]

def arrays : Process where
  memory := ⟨fun _ => 0, fun a => 0x1000 ≤ a.toNat, fun _ => true⟩
  buffer := 0x1000
  bufferSorted := 0x2000
  readable := by
    intro i hi
    have hsum : (0x1000#32 + BitVec.ofNat 32 i).toNat = 0x1000 + i := by
      rw [BitVec.toNat_add, BitVec.toNat_ofNat, BitVec.toNat_ofNat]
      omega
    simp [hsum]
  writable _ _ := rfl
  null := by decide

theorem sortfunctest_shows_zeros_arrays : ∃ errors, sortfunctestMain (fun _ => true) arrays id =
    some (before (drawn 100 id) ++ after (List.replicate 256 0), errors) := by
  obtain ⟨e₂, e₃, -, -, hmain⟩ := @sortfunctest_shows_zeros (fun _ => true) rfl arrays id
  exact ⟨_, hmain⟩

end Calls

section Log

/-- A run of `cron_log.c` finds its ids, the text of the date, and the numbers of `rand`. The text of
`asctime` has 25 characters. -/
structure CronRun where
  process : Process
  procId : BitVec 32
  userId : BitVec 32
  asctime : List Char
  length_asctime : asctime.length = 25
  rand : ℕ → ℕ

def idFormat : List Piece :=
  [.text "Process id=".toList, .number, .text "\n User id=".toList, .number,
    .text "\n Time and date =".toList]

def heading : List Char := "\n Output sorted = ".toList

def itemFormat : List Piece := [.number, .text " ,".toList]

/-- A `sprintf` into the 200 bytes of `string_func`; a text that does not fit has no meaning. -/
def stringFunc (text : List Char) : Option (List Char) :=
  if text.length < 200 then some text else none

/-- A pass of the loop that writes the sorted numbers, over what is in `string_func` and the file. -/
def writeItem (state : List Char × List Char) (x : BitVec 32) : Option (List Char × List Char) := do
  let text ← stringFunc (sprintf itemFormat [x.toInt])
  return (text, state.2 ++ text)

/-- `main` of `cron_log.c`: what it prints, and the file that it leaves. -/
def cronLogMain (kmalloc : ℕ → Bool) (run : CronRun) (file : List Char) :
    Option (List Char × List Char) := do
  let p := run.process
  let m := p.filled 100 run.rand
  let (result, m') ← sortfunc kmalloc m p.buffer 256 p.bufferSorted
  if syscall result = 0 then
    let head ← stringFunc (sprintf idFormat [run.procId.toInt, run.userId.toInt] ++ run.asctime ++ heading)
    let (text, file) ← (ints m' p.bufferSorted 256).foldlM writeItem (head, file ++ head)
    return (before (ints m p.buffer 256) ++ after (ints m' p.bufferSorted 256) ++ "\n\n".toList, file ++ text)
  else
    return (before (ints m p.buffer 256) ++
      failed "System call has been failed " "\n" (syscall result), file)

/-- What the log says of a run. The last number stands there twice. -/
structure Entry where
  procId : BitVec 32
  userId : BitVec 32
  date : List Char
  sorted : List (BitVec 32)
  length_date : date.length = 25
  length_sorted : sorted.length = 256

def item (x : BitVec 32) : List Char := sprintf itemFormat [x.toInt]

def Entry.text (e : Entry) : List Char :=
  sprintf idFormat [e.procId.toInt, e.userId.toInt] ++ e.date ++ heading ++
    (e.sorted ++ e.sorted.drop 255).flatMap item

def itemsFormat : ℕ → List Piece
  | 0 => []
  | n + 1 => .number :: .text " ,".toList :: itemsFormat n

def readEntry (l : List Char) : Option (Entry × List Char) := do
  let (ids, rest) ← sscanf idFormat l
  let items ← readText heading (rest.drop 25)
  let (numbers, behind) ← sscanf (itemsFormat 257) items
  match ids with
  | [procId, userId] =>
    if h : (rest.take 25).length = 25 ∧ ((numbers.take 256).map (BitVec.ofInt 32)).length = 256 then
      some (⟨BitVec.ofInt 32 procId, BitVec.ofInt 32 userId, rest.take 25,
        (numbers.take 256).map (BitVec.ofInt 32), h.1, h.2⟩, behind)
    else none
  | _ => none

theorem separated_idFormat : separated idFormat = true := by decide

theorem separated_itemsFormat (n : ℕ) : separated (itemsFormat n) = true := by
  induction n with
  | zero => rfl
  | succ n ih => exact ih

theorem numbers_itemsFormat (n : ℕ) : numbers (itemsFormat n) = n := by
  induction n with
  | zero => rfl
  | succ n ih =>
    rw [numbers] at ih
    simp [numbers, itemsFormat, ih]

theorem sprintf_itemsFormat (xs : List (BitVec 32)) :
    sprintf (itemsFormat xs.length) (xs.map BitVec.toInt) = xs.flatMap item := by
  induction xs with
  | nil => rfl
  | cons x xs ih =>
    rw [List.length_cons, itemsFormat, List.map_cons, sprintf, sprintf, ih, List.flatMap_cons]
    simp only [item, itemFormat, sprintf, List.append_nil, List.append_assoc]

theorem map_ofInt_toInt (xs : List (BitVec 32)) :
    (xs.map BitVec.toInt).map (BitVec.ofInt 32) = xs := by
  rw [List.map_map]
  exact (List.map_congr_left fun x _ => BitVec.ofInt_toInt).trans (List.map_id xs)

theorem reads_readEntry : Reads readEntry Entry.text := by
  rintro ⟨procId, userId, date, sorted, hdate, hsorted⟩ rest
  have hlength : (sorted ++ sorted.drop 255).length = 257 := by
    rw [List.length_append, List.length_drop, hsorted]
  have hitems : ∀ rest, sscanf (itemsFormat 257) ((sorted ++ sorted.drop 255).flatMap item ++ rest) =
      some ((sorted ++ sorted.drop 255).map BitVec.toInt, rest) := by
    intro rest
    rw [← sprintf_itemsFormat, hlength]
    apply sscanf_sprintf (separated_itemsFormat 257)
    rw [List.length_map, hlength, numbers_itemsFormat]
  have hfirst : (((sorted ++ sorted.drop 255).map BitVec.toInt).take 256).map (BitVec.ofInt 32) =
      sorted := by
    rw [← List.map_take, List.take_append_of_le_length hsorted.ge, List.take_of_length_le hsorted.le,
      map_ofInt_toInt]
  have hids : ∀ rest, sscanf idFormat (sprintf idFormat [procId.toInt, userId.toInt] ++ rest) =
      some ([procId.toInt, userId.toInt], rest) := sscanf_sprintf separated_idFormat rfl
  have htake : ∀ rest, (date ++ rest).take 25 = date := by
    intro rest
    rw [← hdate, List.take_left]
  have hdrop : ∀ rest, (date ++ rest).drop 25 = rest := by
    intro rest
    rw [← hdate, List.drop_left]
  rw [Entry.text, readEntry]
  simp only [List.append_assoc, hids, Option.bind_eq_bind, Option.bind_some, htake, hdrop,
    readText_append, hitems, hfirst, hdate, hsorted, and_self, dite_true, BitVec.ofInt_toInt]

theorem readEntry_nil : readEntry [] = none := by rfl

theorem length_decimal_le (x : BitVec 32) : (decimal x.toInt).length ≤ 11 := by
  have hlow := BitVec.le_toInt x
  have hhigh := BitVec.toInt_lt (x := x)
  rw [decimal_eq_if]
  split
  · have hdigits := (Nat.length_toDigits_le_iff (b := 10) (n := x.toInt.toNat) (k := 11) (by decide)
      (by decide)).mpr (by omega)
    exact hdigits
  · have hdigits := (Nat.length_toDigits_le_iff (b := 10) (n := (-x.toInt).toNat) (k := 10) (by decide)
      (by decide)).mpr (by omega)
    rw [List.length_cons]
    omega

theorem stringFunc_item (x : BitVec 32) : stringFunc (sprintf itemFormat [x.toInt]) = some (item x) := by
  have hdecimal := length_decimal_le x
  apply if_pos
  have htext : " ,".toList.length = 2 := by decide
  simp only [itemFormat, sprintf, List.append_nil, List.length_append, htext]
  omega

theorem writeItem_eq (state : List Char × List Char) (x : BitVec 32) :
    writeItem state x = some (item x, state.2 ++ item x) := by
  rw [writeItem, stringFunc_item]
  rfl

theorem foldlM_writeItem (xs : List (BitVec 32)) (text file : List Char) :
    xs.foldlM writeItem (text, file) =
      some ((xs.getLast?.map item).getD text, file ++ xs.flatMap item) := by
  induction xs generalizing text file with
  | nil => simp
  | cons x xs ih =>
    rw [List.foldlM_cons, writeItem_eq, Option.bind_eq_bind, Option.bind_some, ih, List.getLast?_cons,
      List.flatMap_cons, List.append_assoc]
    cases xs.getLast? with
    | none => rfl
    | some y => rfl

theorem drop_eq_singleton {xs : List (BitVec 32)} (h : xs.length = 256) :
    ∃ front last, xs = front ++ [last] ∧ xs.drop 255 = [last] := by
  have hdrop : xs.drop 255 = [xs[255]] := by
    rw [List.drop_eq_getElem_cons (by omega), List.drop_of_length_le (by omega)]
  refine ⟨xs.take 255, xs[255], ?_, hdrop⟩
  rw [← hdrop, List.take_append_drop]

theorem flatMap_drop {xs : List (BitVec 32)} (h : xs.length = 256) (text : List Char) :
    (xs.getLast?.map item).getD text = (xs.drop 255).flatMap item := by
  obtain ⟨front, last, hxs, hdrop⟩ := drop_eq_singleton h
  rw [hdrop, hxs, List.getLast?_concat, List.flatMap_singleton]
  rfl

theorem stringFunc_head (run : CronRun) :
    stringFunc (sprintf idFormat [run.procId.toInt, run.userId.toInt] ++ run.asctime ++ heading) =
      some (sprintf idFormat [run.procId.toInt, run.userId.toInt] ++ run.asctime ++ heading) := by
  have hproc := length_decimal_le run.procId
  have huser := length_decimal_le run.userId
  have hdate := run.length_asctime
  have hheading : heading.length = 18 := by decide
  have hid : "Process id=".toList.length = 11 := by decide
  have huid : "\n User id=".toList.length = 10 := by decide
  have htime : "\n Time and date =".toList.length = 17 := by decide
  apply if_pos
  simp only [idFormat, sprintf, List.append_nil, List.length_append, hheading, hid, huid, htime]
  omega

structure Records (run : CronRun) (e : Entry) : Prop where
  procId : e.procId = run.procId
  userId : e.userId = run.userId
  date : e.date = run.asctime
  perm : e.sorted.Perm (drawn 100 run.rand)
  descending : Descending BitVec.toInt e.sorted

theorem exists_entry {kmalloc : ℕ → Bool} (h : kmalloc 1024 = true) (run : CronRun) :
    ∃ e, Records run e ∧ ∀ file, ∃ out, cronLogMain kmalloc run file = some (out, file ++ e.text) := by
  obtain ⟨m', sorted, hcall, hints, hperm, hdesc⟩ := exists_sorted h run.process 100 run.rand
  have hsorted : sorted.length = 256 := hperm.length_eq.trans length_drawn
  refine ⟨⟨run.procId, run.userId, run.asctime, sorted, run.length_asctime, hsorted⟩,
    ⟨rfl, rfl, rfl, hperm, hdesc⟩, ?_⟩
  intro file
  refine ⟨before (drawn 100 run.rand) ++ after sorted ++ "\n\n".toList, ?_⟩
  rw [cronLogMain]
  simp only [hcall, Option.bind_eq_bind, Option.bind_some, syscall_zero, if_true, stringFunc_head,
    foldlM_writeItem, hints, ints_filled, flatMap_drop hsorted, Option.pure_def]
  simp only [Entry.text, List.flatMap_append, List.append_assoc]

def cronLog (kmalloc : ℕ → Bool) (runs : List CronRun) (file : List Char) : Option (List Char) :=
  runs.foldlM (fun file run => (cronLogMain kmalloc run file).map Prod.snd) file

theorem exists_entries {kmalloc : ℕ → Bool} (h : kmalloc 1024 = true) (runs : List CronRun)
    (file : List Char) : ∃ entries, List.Forall₂ Records runs entries ∧
      cronLog kmalloc runs file = some (file ++ entries.flatMap Entry.text) := by
  induction runs generalizing file with
  | nil => exact ⟨[], .nil, by simp [cronLog]⟩
  | cons run runs ih =>
    obtain ⟨e, he, hrun⟩ := exists_entry h run
    obtain ⟨out, hout⟩ := hrun file
    obtain ⟨es, hes, hrest⟩ := ih (file ++ e.text)
    refine ⟨e :: es, .cons he hes, ?_⟩
    rw [cronLog] at hrest
    rw [cronLog, List.foldlM_cons, hout, Option.map_some, Option.bind_eq_bind, Option.bind_some, hrest,
      List.flatMap_cons, List.append_assoc]

theorem Entry.exists_text_eq (e : Entry) : ∃ front last, e.sorted = front ++ [last] ∧
    e.text = sprintf idFormat [e.procId.toInt, e.userId.toInt] ++ e.date ++ heading ++
      e.sorted.flatMap item ++ item last := by
  obtain ⟨front, last, hsorted, hdrop⟩ := drop_eq_singleton e.length_sorted
  refine ⟨front, last, hsorted, ?_⟩
  rw [Entry.text, hdrop, List.flatMap_append, List.flatMap_singleton, ← List.append_assoc]

/-- The log of any number of runs, which a reader takes apart again: for each run its ids, its date,
and the numbers that it had drawn, the largest first. The last of them is written twice. -/
theorem cron_log_reads_back {kmalloc : ℕ → Bool} (h : kmalloc 1024 = true) (runs : List CronRun) :
    ∃ file entries, cronLog kmalloc runs [] = some file ∧ List.Forall₂ Records runs entries ∧
      readAll readEntry runs.length file = some entries ∧ file = entries.flatMap Entry.text ∧
      ∀ e ∈ entries, ∃ front last, e.sorted = front ++ [last] ∧
        e.text = sprintf idFormat [e.procId.toInt, e.userId.toInt] ++ e.date ++ heading ++
          e.sorted.flatMap item ++ item last := by
  obtain ⟨entries, hentries, hlog⟩ := exists_entries h runs []
  refine ⟨_, entries, hlog, hentries, ?_, rfl, fun e _ => e.exists_text_eq⟩
  rw [List.nil_append]
  exact readAll_flatMap reads_readEntry readEntry_nil entries _ hentries.length_eq.ge

def midnight : CronRun where
  process := arrays
  procId := 1234
  userId := 1000
  asctime := "Mon Jan 29 00:00:00 2018\n".toList
  length_asctime := by decide
  rand := id

theorem cron_log_reads_back_midnight :
    ∃ file e₁ e₂, cronLog (fun _ => true) [midnight, midnight] [] = some file ∧
      readAll readEntry 2 file = some [e₁, e₂] ∧ e₁.procId = 1234 ∧
      e₁.sorted.Perm (drawn 100 id) ∧ file = e₁.text ++ e₂.text := by
  obtain ⟨file, entries, hlog, hentries, hread, hfile, -⟩ :=
    @cron_log_reads_back (fun _ => true) rfl [midnight, midnight]
  cases hentries with
  | cons h₁ hrest =>
    cases hrest with
    | cons h₂ hnil =>
      cases hnil
      exact ⟨file, _, _, hlog, hread, h₁.procId, h₁.perm, hfile.trans (by simp)⟩

end Log

end EmbeddedSoftware.SortPrograms
