import EmbeddedSoftware.SharedHandle
import Mathlib.Algebra.Group.Nat.Defs
import Mathlib.Data.List.Basic

/-!
# The report of the first thread

Run alone, `child_thread_1` counts the bytes of `gdb.txt` and lists the letters that occur less
than a hundred times. The test in front of the count lets every byte pass, and still a bucket of
a letter holds that letter in upper and lower case and nothing else. The loop keeps each byte in
a `char`, where the byte 255 is `EOF`: what follows the first such byte is not counted.
-/

namespace EmbeddedSoftware.SharedHandle

open Relation RunRules

/-- The byte is letter number `j`, in lower or upper case. -/
def IsLetter (j : ℕ) (c : UInt8) : Prop := c.toNat = 97 + j ∨ c.toNat = 65 + j

instance (j : ℕ) (c : UInt8) : Decidable (IsLetter j c) :=
  inferInstanceAs (Decidable (c.toNat = 97 + j ∨ c.toNat = 65 + j))

def occurrences (j : ℕ) (content : List UInt8) : ℕ := content.countP fun c => IsLetter j c

/-- The line for letter number `j`, if it occurs less than a hundred times. -/
def rareLetter (content : List UInt8) (j : ℕ) : Option (ℕ × ℕ) :=
  if occurrences j content < 100 then some (j + 97, occurrences j content) else none

/-- The lines for the first `n` letters. -/
def rareLetters (content : List UInt8) (n : ℕ) : List (ℕ × ℕ) :=
  (List.range n).filterMap (rareLetter content)

/-- The report that is wanted of a file: the letters that occur less than a hundred times, each
with the number of its occurrences. -/
def statistics (content : List UInt8) : List (ℕ × ℕ) := rareLetters content 26

/-- The bytes in front of the first one that is `EOF` as a `char`. -/
def beforeEof (content : List UInt8) : List UInt8 := content.takeWhile (· ≠ 255)

def State.report (s : State) : List (ℕ × ℕ) :=
  s.child1.letters.map fun line => (line.1, line.2.toNat)

def started : State := { initial with main := .create2 }

def AloneStep (files : Files) (s t : State) : Prop := s.exec files .child1 = some t

def AloneRun (files : Files) : State → State → Prop := ReflTransGen (AloneStep files)

/-- The first thread, run alone, comes to its end, whatever it has done so far, and has then
printed these lines. -/
def Reports (files : Files) (lines : List (ℕ × ℕ)) : Prop :=
  ∃ t, t.child1.pc = .done ∧ t.report = lines ∧
    ∀ s, AloneRun files started s → AloneRun files s t

theorem AloneRun.run {files : Files} {s : State} (h : AloneRun files started s) :
    Run files initial s := by
  have hsteps : AloneStep files ≤ EventStep (State.exec files) := by
    intro s t hstep
    exact ⟨.child1, hstep⟩
  exact .head ⟨.main, rfl⟩ (ReflTransGen.mono hsteps _ _ h)

section Counts

def bucket (c : UInt8) : ℕ := (tolower c - 97).toNat

def counts (bytes : List UInt8) (i : ℕ) : BitVec 32 :=
  BitVec.ofNat 32 (bytes.countP fun c => bucket c = i)

/-- A byte falls into the bucket of a letter when it is that letter, and only then. -/
theorem bucket_eq_iff {j : ℕ} (hj : j < 26) (c : UInt8) : bucket c = j ↔ IsLetter j c := by
  have hlt := c.toNat_lt
  have h65 : 65 ≤ c ↔ 65 ≤ c.toNat := UInt8.le_iff_toNat_le
  have h90 : c ≤ 90 ↔ c.toNat ≤ 90 := UInt8.le_iff_toNat_le
  rw [bucket, tolower, IsLetter]
  split
  · next hupper =>
    rw [h65, h90] at hupper
    rw [UInt8.toNat_sub, UInt8.toNat_add]
    simp only [UInt8.reduceToNat]
    omega
  · next hupper =>
    rw [h65, h90] at hupper
    rw [UInt8.toNat_sub]
    simp only [UInt8.reduceToNat]
    omega

theorem counts_append (bytes : List UInt8) (c : UInt8) : counts (bytes ++ [c]) =
    Function.update (counts bytes) (bucket c) (counts bytes (bucket c) + 1) := by
  funext i
  rw [counts, List.countP_append, List.countP_singleton, BitVec.ofNat_add]
  by_cases hi : i = bucket c
  · subst hi
    simp [counts]
  · rw [Function.update_of_ne hi]
    simp [counts, Ne.symm hi]

theorem occurrences_le_length (j : ℕ) (content : List UInt8) :
    occurrences j content ≤ content.length := List.countP_le_length

theorem counts_toNat_mod (bytes : List UInt8) {j : ℕ} (hj : j < 26) :
    (counts bytes j).toNat = occurrences j bytes % 2 ^ 32 := by
  have hcount : bytes.countP (fun c => bucket c = j) = occurrences j bytes := by
    apply List.countP_congr
    intro c _
    simp only [decide_eq_true_eq]
    exact bucket_eq_iff hj c
  rw [counts, hcount, BitVec.toNat_ofNat]

theorem counts_toNat {bytes : List UInt8} (hsize : bytes.length < 2 ^ 32) {j : ℕ} (hj : j < 26) :
    (counts bytes j).toNat = occurrences j bytes := by
  have hle := occurrences_le_length j bytes
  rw [counts_toNat_mod bytes hj, Nat.mod_eq_of_lt (by omega)]

theorem truth_le_one (p : Prop) [Decidable p] : truth p ≤ 1 := by
  rw [truth]
  split <;> decide

theorem count_eq (s : State) : s.count = { s with child1 := { s.child1 with
    arrayprint := Function.update s.child1.arrayprint (bucket s.child1.capitalletter)
      (s.child1.arrayprint (bucket s.child1.capitalletter) + 1)
    pc := .fgetc } } :=
  if_pos (Nat.le_trans (truth_le_one _) (by decide))

end Counts

section Letters

variable {content bytes : List UInt8} {n j m : ℕ}

theorem rareLetters_succ (content : List UInt8) (n : ℕ) :
    rareLetters content (n + 1) = rareLetters content n ++ (rareLetter content n).toList := by
  rw [rareLetters, List.range_succ, List.filterMap_append]
  cases h : rareLetter content n <;> simp [rareLetters, h]

/-- The lines are those of the rare letters, each with the exact number. -/
theorem mem_rareLetters : (j + 97, m) ∈ rareLetters content n ↔
    j < n ∧ m = occurrences j content ∧ m < 100 := by
  rw [rareLetters, List.mem_filterMap]
  constructor
  · rintro ⟨k, hk, hline⟩
    rw [rareLetter] at hline
    split at hline
    · next hrare =>
      simp only [Option.some.injEq, Prod.mk.injEq, Nat.add_right_cancel_iff] at hline
      obtain ⟨rfl, rfl⟩ := hline
      exact ⟨List.mem_range.mp hk, rfl, hrare⟩
    · cases hline
  · rintro ⟨hj, rfl, hrare⟩
    exact ⟨j, List.mem_range.mpr hj, by rw [rareLetter, if_pos hrare]⟩

theorem occurrences_beforeEof_le (j : ℕ) (content : List UInt8) :
    occurrences j (beforeEof content) ≤ occurrences j content :=
  (List.takeWhile_sublist _).countP_le

/-- A part of a file has the report of the file when each letter that has more occurrences in the
file is no longer rare in the part. -/
theorem rareLetters_eq_iff (hle : ∀ j, occurrences j bytes ≤ occurrences j content) :
    rareLetters bytes n = rareLetters content n ↔
      ∀ j < n, occurrences j bytes = occurrences j content ∨ 100 ≤ occurrences j bytes := by
  constructor
  · intro heq j hj
    by_cases hrare : occurrences j bytes < 100
    · have hmem : (j + 97, occurrences j bytes) ∈ rareLetters content n := by
        rw [← heq]
        exact mem_rareLetters.mpr ⟨hj, rfl, hrare⟩
      exact .inl (mem_rareLetters.mp hmem).2.1
    · exact .inr (Nat.le_of_not_lt hrare)
  · intro h
    apply List.filterMap_congr
    intro j hj
    rw [rareLetter, rareLetter]
    obtain heq | hmany := h j (List.mem_range.mp hj)
    · rw [heq]
    · rw [if_neg (Nat.not_lt.mpr hmany), if_neg (Nat.not_lt.mpr (Nat.le_trans hmany (hle j)))]

end Letters

section Thread

variable {files : Files} {s t : State} {bytes seen : List UInt8} {c : UInt8} {n : ℕ}

/-- The thread is in front of the test of its reading loop. It has counted the bytes `seen`, and
`bytes` are still to be read. -/
structure Reading (s : State) (bytes seen : List UInt8) : Prop where
  ended : s.ended = false
  pc : s.child1.pc = .fgetc
  fileop : s.fileop = some .gdb
  unread : s.unread .gdb = bytes
  arrayprint : s.child1.arrayprint = counts seen
  j : s.child1.j = 0
  letters : s.child1.letters = []

/-- The thread is in front of the test of its printing loop. It has counted the bytes `seen` and
gone through `n` letters. -/
structure Listing (s : State) (seen : List UInt8) (n : ℕ) : Prop where
  ended : s.ended = false
  pc : s.child1.pc = .letters
  arrayprint : s.child1.arrayprint = counts seen
  j : s.child1.j = n
  report : s.report = rareLetters seen n

theorem aloneStep_of_execChild1 (hended : s.ended = false) (h : s.execChild1 files = some t) :
    AloneStep files s t := by
  rw [AloneStep, State.exec, hended]
  exact h

theorem started_reading (content cpu : List UInt8) :
    ∃ s, AloneRun ⟨some content, cpu⟩ started s ∧ Reading s content [] := by
  refine ⟨_, .head rfl (.head rfl (.head rfl (.single rfl))), ?_⟩
  exact ⟨rfl, rfl, rfl, rfl, rfl, rfl, rfl⟩

theorem Reading.fgetc_of_ne (h : Reading s (c :: bytes) seen) (hc : c ≠ 255) :
    s.fgetc = { s with
      reads := s.reads ++ [s.fileop]
      unread := Function.update s.unread .gdb bytes
      child1 := { s.child1 with capitalletter := c, pc := .count } } := by
  simp only [State.fgetc, h.fileop, h.unread, hc, if_false]

theorem Reading.aloneStep_fgetc (h : Reading s bytes seen) : AloneStep files s s.fgetc := by
  apply aloneStep_of_execChild1 h.ended
  rw [State.execChild1, h.pc]

theorem Reading.aloneStep_count (h : Reading s (c :: bytes) seen) (hc : c ≠ 255) :
    AloneStep files s.fgetc s.fgetc.count := by
  rw [h.fgetc_of_ne hc]
  exact aloneStep_of_execChild1 h.ended rfl

theorem Reading.count (h : Reading s (c :: bytes) seen) (hc : c ≠ 255) :
    Reading s.fgetc.count bytes (seen ++ [c]) := by
  have hcounted : s.fgetc.count = { s.fgetc with child1 := { s.fgetc.child1 with
      arrayprint := counts (seen ++ [c]), pc := .fgetc } } := by
    rw [counts_append, ← h.arrayprint, count_eq, h.fgetc_of_ne hc]
  have hunread : Function.update s.unread .gdb bytes .gdb = bytes := Function.update_self ..
  rw [hcounted, h.fgetc_of_ne hc]
  exact ⟨h.ended, rfl, h.fileop, hunread, rfl, h.j, h.letters⟩

theorem Reading.fgetc_of_eof (h : Reading s bytes seen)
    (hend : bytes = [] ∨ ∃ rest, bytes = 255 :: rest) : ∃ unread, s.fgetc = { s with
      reads := s.reads ++ [s.fileop]
      unread := unread
      child1 := { s.child1 with pc := .openLog } } := by
  obtain rfl | ⟨rest, rfl⟩ := hend
  · refine ⟨s.unread, ?_⟩
    simp only [State.fgetc, State.at1, h.fileop, h.unread]
  · refine ⟨Function.update s.unread .gdb rest, ?_⟩
    simp only [State.fgetc, State.at1, h.fileop, h.unread, if_true]

/-- From the end of the reading loop the thread goes to its log, where it prints the lines in
front of the letters. -/
theorem Reading.openLog (h : Reading s bytes seen)
    (hend : bytes = [] ∨ ∃ rest, bytes = 255 :: rest) :
    ∃ t, AloneRun files s t ∧ Listing t seen 0 := by
  obtain ⟨unread, hread⟩ := h.fgetc_of_eof hend
  have hfgetc : AloneStep files s s.fgetc := h.aloneStep_fgetc
  rw [hread] at hfgetc
  refine ⟨_, .head hfgetc (.head (aloneStep_of_execChild1 h.ended rfl)
    (.head (aloneStep_of_execChild1 h.ended rfl) (.head (aloneStep_of_execChild1 h.ended rfl)
      (.single (aloneStep_of_execChild1 h.ended rfl))))), ?_⟩
  refine ⟨h.ended, rfl, h.arrayprint, h.j, ?_⟩
  exact congrArg (List.map _) h.letters

theorem beforeEof_cons (c : UInt8) (bytes : List UInt8) :
    beforeEof (c :: bytes) = if c = 255 then [] else c :: beforeEof bytes := by
  rw [beforeEof, List.takeWhile_cons]
  by_cases hc : c = 255 <;> simp [hc, beforeEof]

/-- The reading loop, by induction on the bytes that are still to be read. -/
theorem Reading.listing (h : Reading s bytes seen) :
    ∃ t, AloneRun files s t ∧ Listing t (seen ++ beforeEof bytes) 0 := by
  induction bytes generalizing s seen with
  | nil =>
    rw [beforeEof, List.takeWhile_nil, List.append_nil]
    exact h.openLog (.inl rfl)
  | cons c bytes ih =>
    rw [beforeEof_cons]
    split
    · next hc =>
      rw [List.append_nil]
      exact h.openLog (.inr ⟨bytes, by rw [hc]⟩)
    · next hc =>
      obtain ⟨u, hrest, hu⟩ := ih (h.count hc)
      refine ⟨u, .head h.aloneStep_fgetc (.head (h.aloneStep_count hc) hrest), ?_⟩
      rwa [List.append_assoc] at hu

theorem Listing.letter (h : Listing s seen n) (hsize : seen.length < 2 ^ 32) (hn : n < 26) :
    Listing s.letter seen (n + 1) := by
  have hcount : (s.child1.arrayprint n).toNat = occurrences n seen := by
    rw [h.arrayprint]
    exact counts_toNat hsize hn
  have hrare : s.child1.arrayprint n < 100 ↔ occurrences n seen < 100 := by
    rw [BitVec.lt_def, hcount]
    rfl
  have hreport := h.report
  rw [State.report] at hreport
  rw [State.letter, h.j, if_pos hn]
  split
  · next hlt =>
    refine ⟨h.ended, h.pc, h.arrayprint, rfl, ?_⟩
    rw [State.report, rareLetters_succ, rareLetter, if_pos (hrare.mp hlt), List.map_append, hreport,
      List.map_singleton, hcount]
    rfl
  · next hlt =>
    refine ⟨h.ended, h.pc, h.arrayprint, rfl, ?_⟩
    rw [State.report, rareLetters_succ, rareLetter, if_neg (mt hrare.mpr hlt), hreport]
    exact (List.append_nil _).symm

/-- The printing loop, by induction on the rounds. -/
theorem Listing.letters (h : Listing s seen 0) (hsize : seen.length < 2 ^ 32) (hn : n ≤ 26) :
    ∃ t, AloneRun files s t ∧ Listing t seen n := by
  induction n with
  | zero => exact ⟨s, .refl, h⟩
  | succ n ih =>
    obtain ⟨t, hrun, ht⟩ := ih (Nat.le_of_succ_le hn)
    have hstep : AloneStep files t t.letter := by
      apply aloneStep_of_execChild1 ht.ended
      rw [State.execChild1, ht.pc]
    exact ⟨t.letter, .tail hrun hstep, ht.letter hsize hn⟩

/-- After the last letter the thread prints its last line, unlocks and ends. -/
theorem Listing.done (h : Listing s seen 26) :
    ∃ t, AloneRun files s t ∧ t.child1.pc = .done ∧ t.report = statistics seen := by
  have hletter : AloneStep files s (s.at1 .printExit) := by
    apply aloneStep_of_execChild1 h.ended
    rw [State.execChild1, h.pc, State.letter, h.j]
    rfl
  exact ⟨_, .head hletter (.head (aloneStep_of_execChild1 h.ended rfl)
    (.single (aloneStep_of_execChild1 h.ended rfl))), rfl, h.report⟩

end Thread

section Alone

variable {files : Files} {s t : State}

theorem exec_child1_of_done (h : s.child1.pc = .done) : s.exec files .child1 = none := by
  rw [State.exec, State.execChild1, h]
  split <;> rfl

/-- What the first thread reports: the statistics of the bytes in front of the first byte 255. -/
theorem reports_beforeEof (content cpu : List UInt8) (hsize : content.length < 2 ^ 32) :
    Reports ⟨some content, cpu⟩ (statistics (beforeEof content)) := by
  have hshort : (beforeEof content).length ≤ content.length :=
    (List.takeWhile_sublist _).length_le
  obtain ⟨s, hs, hreading⟩ := started_reading content cpu
  obtain ⟨t, ht, hlisting⟩ := hreading.listing
  obtain ⟨u, hu, hlast⟩ := hlisting.letters (Nat.lt_of_le_of_lt hshort hsize) (Nat.le_refl 26)
  obtain ⟨v, hv, hdone, hreport⟩ := hlast.done
  have hrun : AloneRun ⟨some content, cpu⟩ started v := ((hs.trans ht).trans hu).trans hv
  refine ⟨v, hdone, hreport, ?_⟩
  intro r hr
  exact leads_to_end hrun (exec_child1_of_done hdone) hr

theorem Reports.unique {lines lines' : List (ℕ × ℕ)} (h : Reports files lines)
    (h' : Reports files lines') : lines = lines' := by
  obtain ⟨t, -, rfl, hall⟩ := h
  obtain ⟨t', hdone', rfl, hall'⟩ := h'
  obtain rfl | ⟨u, hu, -⟩ := (hall t' (hall' started .refl)).cases_head
  · rfl
  · rw [AloneStep, exec_child1_of_done hdone'] at hu
    cases hu

/-- The report is the statistics of the whole file exactly when each letter that occurs at or
behind the first byte 255 has occurred a hundred times in front of it. -/
theorem reports_statistics_iff (content cpu : List UInt8) (hsize : content.length < 2 ^ 32) :
    Reports ⟨some content, cpu⟩ (statistics content) ↔ ∀ j < 26,
      occurrences j (beforeEof content) = occurrences j content ∨
        100 ≤ occurrences j (beforeEof content) := by
  have hreports := reports_beforeEof content cpu hsize
  have hle : ∀ j, occurrences j (beforeEof content) ≤ occurrences j content :=
    fun j => occurrences_beforeEof_le j content
  rw [← rareLetters_eq_iff hle]
  constructor
  · intro hwhole
    exact hreports.unique hwhole
  · intro heq
    rw [statistics, ← heq]
    exact hreports

theorem reports_statistics_iff_two_cases : ([65, 97] : List UInt8).length < 2 ^ 32 ∧
    Reports ⟨some [65, 97], []⟩ (statistics [65, 97]) :=
  ⟨by decide, (reports_statistics_iff [65, 97] [] (by decide)).mpr (by decide)⟩

/-- An `a` behind a byte 255 is lost. -/
theorem letter_behind_eof_is_lost : occurrences 0 [97, 255, 97] = 2 ∧
    Reports ⟨some [97, 255, 97], []⟩ (statistics [97]) ∧
    ¬Reports ⟨some [97, 255, 97], []⟩ (statistics [97, 255, 97]) := by
  have hreports := reports_beforeEof [97, 255, 97] [] (by decide)
  refine ⟨by decide, hreports, ?_⟩
  intro hwhole
  exact absurd (hreports.unique hwhole) (by decide)

end Alone

end EmbeddedSoftware.SharedHandle
