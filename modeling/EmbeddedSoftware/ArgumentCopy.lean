import EmbeddedSoftware.CStrings
import EmbeddedSoftware.RunRules

/-!
# The copy of the arguments

Two programs copy the arguments behind the program name into a buffer, each followed by a space,
with the same two nested loops. One counts in `int`, the other in eight bits. With eight bits the
loops come to an end exactly when the counters need no more than that; otherwise they copy
forever.
-/

namespace EmbeddedSoftware.ArgumentCopy

open CStrings RunRules

inductive CopyPc where
  | outer | inner | done
  deriving DecidableEq

/-- The position `val` in the buffer, and the stores so far, each with its index. -/
structure Output where
  val : ℕ
  stores : List (ℕ × UInt8)

structure Copy where
  pc : CopyPc
  i : ℕ
  next : ℕ
  out : Output

/-- The counters of `sanika_hwq2.c` are `uint8_t`. -/
def uint8 (n : ℕ) : ℕ := n % 256

/-- The byte `*(argv[i]+next)`. An argument has a zero behind its bytes. -/
def charAt (argv : List CString) (i next : ℕ) : Option UInt8 :=
  argv[i]?.bind fun arg => (arg.bytes ++ [0])[next]?

/-- The arguments behind the program name, each followed by a space. -/
def text (argv : List CString) : List UInt8 := argv.tail.flatMap fun arg => arg.bytes ++ [32]

section Loops

-- how the type of the counters cuts a number
variable (wrap : ℕ → ℕ)

def Output.put (out : Output) (c : UInt8) : Output :=
  ⟨wrap (out.val + 1), out.stores ++ [(out.val, c)]⟩

def Output.puts (out : Output) (bytes : List UInt8) : Output := bytes.foldl (Output.put wrap) out

namespace Copy

/-- There is no next state at the end of the loops, and where an argument is read behind its
zero. -/
def exec (argv : List CString) (s : Copy) : Option Copy :=
  match s.pc with
  | .outer =>
    if s.i < argv.length then some { s with pc := .inner, next := 0 }
    else some { s with pc := .done }
  | .inner =>
    match charAt argv s.i s.next with
    | none => none
    | some c =>
      if c ≠ 0 then some { s with out := s.out.put wrap c, next := wrap (s.next + 1) }
      else some { s with out := s.out.put wrap 32, i := wrap (s.i + 1), pc := .outer }
  | .done => none

end Copy

end Loops

def start (val : ℕ) : Copy := ⟨.outer, 1, 0, ⟨val, []⟩⟩

/-- Whatever the loops have done so far, they come to their end and have then stored the
arguments. -/
def CopiesText (argv : List CString) : Prop :=
  ∃ t, t.pc = .done ∧ t.out.stores.map Prod.snd = text argv ∧
    ∀ s, Leads (Copy.exec uint8 argv) (start 0) s → Leads (Copy.exec uint8 argv) s t

/-- The loops go on from every state that they come to. -/
def CopiesForever (argv : List CString) : Prop :=
  ∀ s, Leads (Copy.exec uint8 argv) (start 0) s → s.pc ≠ .done ∧
    ∃ t, Copy.exec uint8 argv s = some t

section Characters

variable {argv : List CString} {arg : CString} {i next : ℕ} {c : UInt8}

theorem charAt_eq_some_iff : charAt argv i next = some c ↔
    ∃ arg, argv[i]? = some arg ∧ (arg.bytes ++ [0])[next]? = some c :=
  Option.bind_eq_some_iff

theorem charAt_middle {before rest : List UInt8} (harg : argv[i]? = some arg)
    (hbytes : arg.bytes = before ++ c :: rest) : charAt argv i before.length = some c := by
  rw [charAt, harg, Option.bind_some, hbytes, List.append_assoc, List.getElem?_append_right
    (Nat.le_refl _), Nat.sub_self]
  rfl

theorem charAt_end (harg : argv[i]? = some arg) : charAt argv i arg.bytes.length = some 0 := by
  rw [charAt, harg, Option.bind_some, List.getElem?_append_right (Nat.le_refl _), Nat.sub_self]
  rfl

theorem charAt_of_lt (harg : argv[i]? = some arg) (hnext : next < arg.bytes.length) :
    charAt argv i next = some arg.bytes[next] ∧ arg.bytes[next] ≠ 0 := by
  constructor
  · rw [charAt, harg, Option.bind_some, List.getElem?_append_left hnext,
      List.getElem?_eq_getElem hnext]
  · intro hzero
    apply arg.zero_notMem
    rw [← hzero]
    exact List.getElem_mem hnext

end Characters

section Runs

variable {wrap : ℕ → ℕ} {argv : List CString} {arg : CString} {s t : Copy}

theorem Output.puts_cons (out : Output) (c : UInt8) (bytes : List UInt8) :
    out.puts wrap (c :: bytes) = (out.put wrap c).puts wrap bytes := rfl

theorem Output.puts_append (out : Output) (bytes bytes' : List UInt8) :
    out.puts wrap (bytes ++ bytes') = (out.puts wrap bytes).puts wrap bytes' :=
  List.foldl_append

theorem Output.puts_stores (out : Output) (bytes : List UInt8) :
    (out.puts wrap bytes).stores.map Prod.snd = out.stores.map Prod.snd ++ bytes := by
  induction bytes generalizing out with
  | nil => exact (List.append_nil _).symm
  | cons c bytes ih =>
    rw [Output.puts_cons, ih, Output.put, List.map_append, List.append_assoc]
    rfl

/-- The inner loop copies the rest of the argument and the space, by induction on the rest. -/
theorem inner_run {i : ℕ} (harg : argv[i]? = some arg)
    (hnext : ∀ n ≤ arg.bytes.length, wrap n = n) (before rest : List UInt8)
    (hbytes : arg.bytes = before ++ rest) (out : Output) :
    Leads (Copy.exec wrap argv) ⟨.inner, i, before.length, out⟩
      ⟨.outer, wrap (i + 1), arg.bytes.length, out.puts wrap (rest ++ [32])⟩ := by
  induction rest generalizing before out with
  | nil =>
    rw [List.append_nil] at hbytes
    rw [← hbytes]
    refine .single ?_
    simp only [Copy.exec, charAt_end harg]
    rfl
  | cons c rest ih =>
    have hc : c ≠ 0 := by
      rintro rfl
      apply arg.zero_notMem
      rw [hbytes]
      exact List.mem_append_right _ List.mem_cons_self
    have hwrap : wrap (before.length + 1) = (before ++ [c]).length := by
      rw [List.length_append]
      apply hnext
      rw [hbytes, List.length_append, List.length_cons]
      omega
    refine .head ?_ (ih (before ++ [c]) ?_ (out.put wrap c))
    · simp only [Copy.exec, charAt_middle harg hbytes, if_pos hc, hwrap]
    · rw [hbytes, List.append_assoc]
      rfl

/-- The outer loop, by induction on the arguments that are still to be copied. -/
theorem outer_run (hi : ∀ n ≤ argv.length, wrap n = n) (copied rest : List CString)
    (hargv : argv = copied ++ rest)
    (hnext : ∀ arg ∈ rest, ∀ n ≤ arg.bytes.length, wrap n = n) (next : ℕ) (out : Output) :
    ∃ t, Leads (Copy.exec wrap argv) ⟨.outer, copied.length, next, out⟩ t ∧ t.pc = .done ∧
      t.out = out.puts wrap (rest.flatMap fun arg => arg.bytes ++ [32]) := by
  induction rest generalizing copied next out with
  | nil =>
    rw [List.append_nil] at hargv
    refine ⟨⟨.done, copied.length, next, out⟩, .single ?_, rfl, rfl⟩
    simp only [Copy.exec, hargv, Nat.lt_irrefl, if_false]
  | cons arg rest ih =>
    have hlt : copied.length < argv.length := by
      rw [hargv, List.length_append, List.length_cons]
      omega
    have harg : argv[copied.length]? = some arg := by
      rw [hargv, List.getElem?_append_right (Nat.le_refl _), Nat.sub_self]
      rfl
    have hcopied : wrap (copied.length + 1) = (copied ++ [arg]).length := by
      rw [List.length_append]
      exact hi _ hlt
    have henter : Copy.exec wrap argv ⟨.outer, copied.length, next, out⟩ =
        some ⟨.inner, copied.length, 0, out⟩ := by
      simp only [Copy.exec, if_pos hlt]
    have hcopy := inner_run harg (hnext arg List.mem_cons_self) [] arg.bytes rfl out
    rw [hcopied] at hcopy
    obtain ⟨t, hrest, hdone, hout⟩ := ih (copied ++ [arg])
      (by rw [hargv, List.append_assoc]; rfl)
      (fun arg' harg' => hnext arg' (List.mem_cons_of_mem _ harg')) arg.bytes.length
      (out.puts wrap (arg.bytes ++ [32]))
    refine ⟨t, .head henter (hcopy.trans hrest), hdone, ?_⟩
    rw [hout, List.flatMap_cons]
    exact (out.puts_append _ _).symm

theorem exists_done (hi : ∀ n ≤ argv.length, wrap n = n)
    (hnext : ∀ arg ∈ argv.tail, ∀ n ≤ arg.bytes.length, wrap n = n) (val : ℕ) :
    ∃ t, Leads (Copy.exec wrap argv) (start val) t ∧ t.pc = .done ∧
      t.out = Output.puts wrap ⟨val, []⟩ (text argv) := by
  cases argv with
  | nil => exact ⟨⟨.done, 1, 0, ⟨val, []⟩⟩, .single rfl, rfl, rfl⟩
  | cons program arguments => exact outer_run hi [program] arguments rfl hnext 0 ⟨val, []⟩

theorem exec_of_done (h : t.pc = .done) : Copy.exec wrap argv t = none := by
  rw [Copy.exec, h]

theorem out_of_done (hi : ∀ n ≤ argv.length, wrap n = n)
    (hnext : ∀ arg ∈ argv.tail, ∀ n ≤ arg.bytes.length, wrap n = n) {val : ℕ}
    (h : Leads (Copy.exec wrap argv) (start val) t) (hdone : t.pc = .done) :
    t.out = Output.puts wrap ⟨val, []⟩ (text argv) := by
  obtain ⟨u, hrun, hend, hout⟩ := exists_done hi hnext val
  obtain rfl | ⟨v, hv, -⟩ := (leads_to_end hrun (exec_of_done hend) h).cases_head
  · exact hout
  · rw [exec_of_done hdone] at hv
    cases hv

end Runs

section Wrapping

variable {wrap : ℕ → ℕ} {argv : List CString} {arg : CString} {s t : Copy}

def Reads (argv : List CString) (s : Copy) : Prop :=
  s.pc = .inner → ∃ arg, argv[s.i]? = some arg ∧ s.next ≤ arg.bytes.length

theorem exec_cases (h : Copy.exec wrap argv s = some t) :
    (s.pc = .outer ∧ s.i < argv.length ∧ t = { s with pc := .inner, next := 0 }) ∨
    (s.pc = .outer ∧ argv.length ≤ s.i ∧ t = { s with pc := .done }) ∨
    (∃ arg, s.pc = .inner ∧ argv[s.i]? = some arg ∧ s.next < arg.bytes.length ∧
      ∃ c, t = { s with out := s.out.put wrap c, next := wrap (s.next + 1) }) ∨
    (∃ arg, s.pc = .inner ∧ argv[s.i]? = some arg ∧ s.next = arg.bytes.length ∧
      t = { s with out := s.out.put wrap 32, i := wrap (s.i + 1), pc := .outer }) := by
  cases hpc : s.pc with
  | outer =>
    simp only [Copy.exec, hpc] at h
    split at h <;> cases h
    · next hlt => exact .inl ⟨rfl, hlt, rfl⟩
    · next hlt => exact .inr (.inl ⟨rfl, Nat.le_of_not_lt hlt, rfl⟩)
  | inner =>
    simp only [Copy.exec, hpc] at h
    split at h
    · cases h
    · next c hc =>
      obtain ⟨arg, harg, hbyte⟩ := charAt_eq_some_iff.mp hc
      have hle : s.next < (arg.bytes ++ [0]).length := (List.getElem?_eq_some_iff.mp hbyte).1
      rw [List.length_append, List.length_singleton] at hle
      have hzero : c = 0 ↔ s.next = arg.bytes.length := by
        constructor
        · rintro rfl
          by_contra hne
          have hlt : s.next < arg.bytes.length := by omega
          obtain ⟨hread, hne0⟩ := charAt_of_lt harg hlt
          exact hne0 (Option.some.inj (hread.symm.trans hc))
        · intro hend
          rw [hend, charAt_end harg] at hc
          exact (Option.some.inj hc).symm
      split at h <;> cases h
      · next hc0 =>
        have hne := mt hzero.mpr hc0
        exact .inr (.inr (.inl ⟨arg, rfl, harg, by omega, c, rfl⟩))
      · next hc0 =>
        have hend := hzero.mp (not_not.mp hc0)
        exact .inr (.inr (.inr ⟨arg, rfl, harg, hend, rfl⟩))
  | done => simp [Copy.exec, hpc] at h

theorem stores_subset_of_leads (h : Leads (Copy.exec wrap argv) s t) :
    s.out.stores ⊆ t.out.stores := by
  refine run_invariant (P := fun t => s.out.stores ⊆ t.out.stores) ?_ (List.Subset.refl _) h
  intro t u ht hstep
  obtain ⟨-, -, rfl⟩ | ⟨-, -, rfl⟩ | ⟨_, -, -, -, c, rfl⟩ | ⟨_, -, -, -, rfl⟩ := exec_cases hstep
  · exact ht
  · exact ht
  · exact List.Subset.trans ht (List.subset_append_left _ _)
  · exact List.Subset.trans ht (List.subset_append_left _ _)

theorem Reads.step (hwrap : ∀ n, wrap n ≤ n) (h : Copy.exec wrap argv s = some t) :
    Reads argv t := by
  intro hpc
  obtain ⟨-, hlt, rfl⟩ | ⟨-, -, rfl⟩ | ⟨arg, -, harg, hlt, c, rfl⟩ | ⟨arg, -, -, -, rfl⟩ :=
    exec_cases h
  · exact ⟨argv[s.i], List.getElem?_eq_getElem hlt, Nat.zero_le _⟩
  · cases hpc
  · exact ⟨arg, harg, Nat.le_trans (hwrap _) hlt⟩
  · cases hpc

/-- No argument is read behind its zero, however the counters wrap. -/
theorem reads_of_leads (hwrap : ∀ n, wrap n ≤ n) {val : ℕ}
    (h : Leads (Copy.exec wrap argv) (start val) s) : Reads argv s := by
  refine run_invariant ?_ ?_ h
  · intro s t _ hstep
    exact Reads.step hwrap hstep
  · intro hpc
    cases hpc

theorem Reads.exists_exec (h : Reads argv s) (hpc : s.pc ≠ .done) :
    ∃ t, Copy.exec wrap argv s = some t := by
  cases hs : s.pc with
  | outer =>
    simp only [Copy.exec, hs]
    split
    · exact ⟨_, rfl⟩
    · exact ⟨_, rfl⟩
  | inner =>
    obtain ⟨arg, harg, hle⟩ := h hs
    have hread : ∃ c, charAt argv s.i s.next = some c := by
      obtain hlt | heq := Nat.lt_or_eq_of_le hle
      · exact ⟨_, (charAt_of_lt harg hlt).1⟩
      · rw [heq]
        exact ⟨0, charAt_end harg⟩
    obtain ⟨c, hc⟩ := hread
    simp only [Copy.exec, hs, hc]
    split
    · exact ⟨_, rfl⟩
    · exact ⟨_, rfl⟩
  | done => exact absurd hs hpc

theorem uint8_lt (n : ℕ) : uint8 n < 256 := Nat.mod_lt n (by decide)

theorem uint8_le (n : ℕ) : uint8 n ≤ n := Nat.mod_le n 256

theorem uint8_of_lt {n : ℕ} (h : n < 256) : uint8 n = n := Nat.mod_eq_of_lt h

/-- The loops go on where the test of the outer loop is always true. -/
theorem not_done_of_invariant {I : Copy → Prop} {val : ℕ} (hstart : I (start val))
    (hstep : ∀ s t, I s → Copy.exec wrap argv s = some t → I t)
    (hlt : ∀ s, I s → s.i < argv.length) (h : Leads (Copy.exec wrap argv) (start val) s) :
    s.pc ≠ .done := by
  refine run_invariant_under (P := fun s => s.pc ≠ .done) hstep ?_ hstart ?_ h
  · intro s t hs _ hst hdone
    have hi := hlt s hs
    obtain ⟨-, -, rfl⟩ | ⟨-, hge, -⟩ | ⟨_, hpc, -, -, c, rfl⟩ | ⟨_, -, -, -, rfl⟩ := exec_cases hst
    · cases hdone
    · omega
    · cases hpc.symm.trans hdone
    · cases hdone
  · intro hdone
    cases hdone

/-- With 256 arguments or more `i` does not reach their number. -/
theorem not_done_of_many_arguments (hargc : 256 ≤ argv.length) {val : ℕ}
    (h : Leads (Copy.exec uint8 argv) (start val) s) : s.pc ≠ .done := by
  have hone : (start val).i < 256 := by
    change 1 < 256
    decide
  refine not_done_of_invariant (I := fun s => s.i < 256) hone ?_ ?_ h
  · intro s t hs hstep
    obtain ⟨-, -, rfl⟩ | ⟨-, -, rfl⟩ | ⟨_, -, -, -, c, rfl⟩ | ⟨_, -, -, -, rfl⟩ :=
      exec_cases hstep
    · exact hs
    · exact hs
    · exact hs
    · exact uint8_lt _
  · intro s hs
    exact Nat.lt_of_lt_of_le hs hargc

/-- The inner loop does not leave an argument of 256 bytes or more: it never sees the zero. -/
theorem not_done_of_long_argument {k : ℕ} (hk : 1 ≤ k) (harg : argv[k]? = some arg)
    (hlong : 256 ≤ arg.bytes.length) {val : ℕ}
    (h : Leads (Copy.exec uint8 argv) (start val) s) : s.pc ≠ .done := by
  have hlt : k < argv.length := (List.getElem?_eq_some_iff.mp harg).1
  have hzero : (0 : ℕ) < 256 := by decide
  refine not_done_of_invariant (I := fun s => s.i ≤ k ∧ s.next < 256) ⟨hk, hzero⟩ ?_ ?_ h
  · rintro s t ⟨hi, hnext⟩ hstep
    obtain ⟨-, -, rfl⟩ | ⟨-, -, rfl⟩ | ⟨_, -, -, -, c, rfl⟩ | ⟨arg', -, harg', hend, rfl⟩ :=
      exec_cases hstep
    · exact ⟨hi, hzero⟩
    · exact ⟨hi, hnext⟩
    · exact ⟨hi, uint8_lt _⟩
    · have hne : s.i ≠ k := by
        intro heq
        rw [heq, harg] at harg'
        cases harg'
        omega
      have hle : uint8 (s.i + 1) ≤ s.i + 1 := uint8_le _
      refine ⟨Nat.le_trans hle ?_, hnext⟩
      omega
  · rintro s ⟨hi, -⟩
    omega

/-- The counters need no more than eight bits. -/
def Narrow (argv : List CString) : Prop :=
  argv.length < 256 ∧ ∀ arg ∈ argv.tail, arg.bytes.length < 256

theorem copiesText_of_narrow (h : Narrow argv) : CopiesText argv := by
  have hi : ∀ n ≤ argv.length, uint8 n = n :=
    fun n hn => uint8_of_lt (Nat.lt_of_le_of_lt hn h.1)
  have hnext : ∀ arg ∈ argv.tail, ∀ n ≤ arg.bytes.length, uint8 n = n :=
    fun arg harg n hn => uint8_of_lt (Nat.lt_of_le_of_lt hn (h.2 arg harg))
  obtain ⟨t, hrun, hdone, hout⟩ := exists_done hi hnext 0
  refine ⟨t, hdone, ?_, ?_⟩
  · rw [hout, Output.puts_stores]
    rfl
  · intro s hs
    exact leads_to_end hrun (exec_of_done hdone) hs

theorem copiesForever_of_not_narrow (h : ¬Narrow argv) : CopiesForever argv := by
  intro s hs
  have hpc : s.pc ≠ .done := by
    by_cases hargc : argv.length < 256
    · have hlong : ∃ arg ∈ argv.tail, 256 ≤ arg.bytes.length := by
        by_contra hnone
        apply h
        refine ⟨hargc, ?_⟩
        intro arg harg
        by_contra hlong
        exact hnone ⟨arg, harg, Nat.le_of_not_lt hlong⟩
      obtain ⟨arg, hmem, hlong⟩ := hlong
      obtain ⟨k, hk⟩ := List.mem_iff_getElem?.mp hmem
      rw [List.getElem?_tail] at hk
      exact not_done_of_long_argument (Nat.le_add_left 1 k) hk hlong hs
    · exact not_done_of_many_arguments (Nat.le_of_not_lt hargc) hs
  exact ⟨hpc, (reads_of_leads uint8_le hs).exists_exec hpc⟩

theorem CopiesForever.not_copiesText (h : CopiesForever argv) : ¬CopiesText argv := by
  rintro ⟨t, hdone, -, hall⟩
  exact (h t (hall _ .refl)).1 hdone

/-- The loops with eight bits copy the arguments behind the program name, each followed by a
space, exactly when there are less than 256 arguments, the program name included, and each that is
copied has less than 256 bytes. For all others they never come to an end. -/
theorem copies_text_iff_narrow (argv : List CString) :
    (CopiesText argv ↔ argv.length < 256 ∧ ∀ arg ∈ argv.tail, arg.bytes.length < 256) ∧
    (CopiesText argv ∨ CopiesForever argv) := by
  constructor
  · constructor
    · intro hcopies
      by_contra hwide
      exact (copiesForever_of_not_narrow hwide).not_copiesText hcopies
    · exact copiesText_of_narrow
  · by_cases hnarrow : Narrow argv
    · exact .inl (copiesText_of_narrow hnarrow)
    · exact .inr (copiesForever_of_not_narrow hnarrow)

def longArgument : CString := ⟨List.replicate 256 97, by
  rw [List.mem_replicate]
  decide⟩

def programName : CString := ⟨[112], by decide⟩

/-- An argument of 256 letters is copied again and again. -/
theorem long_argument_is_copied_forever : ¬CopiesText [programName, longArgument] ∧
    CopiesForever [programName, longArgument] := by
  have hforever : CopiesForever [programName, longArgument] := by
    apply copiesForever_of_not_narrow
    intro hnarrow
    have hlt := hnarrow.2 longArgument List.mem_cons_self
    rw [longArgument, List.length_replicate] at hlt
    omega
  exact ⟨hforever.not_copiesText, hforever⟩

end Wrapping

end EmbeddedSoftware.ArgumentCopy
