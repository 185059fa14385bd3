import EmbeddedSoftware.DrawnRecords
import EmbeddedSoftware.RunRules

/-!
# The exchange over a message queue

Two programs share one queue. `q1` sends ten records and then logs ten as read; `hwq2`
receives ten and sends ten. What either of them receives goes to `obj_recv`, but `get_msg`
logs `object`, the record of the program itself.
-/

namespace EmbeddedSoftware.MessageQueues

open Relation RunRules DrawnRecords ByteLayout CStrings

/-- `queue1/q1.c` and `queue2/hwq2.c`. -/
inductive Program where
  | q1 | hwq2
  deriving DecidableEq

/-- The field `led` is an `int` here and a `uint8_t` there. -/
def Program.width : Program → ℕ
  | .q1 => 32
  | .hwq2 => 8

/-- The bytes from `led` to the end of the structure. -/
def Program.ledBytes : (p : Program) → BitVec p.width → List UInt8
  | .q1, led => le32 led
  | .hwq2, led => [⟨led⟩, 0, 0, 0]

def Program.ofLedBytes : (p : Program) → List UInt8 → BitVec p.width
  | .q1, l => ofLe32 l
  | .hwq2, l => (l.getD 0 0).toBitVec

def strSize : ℕ := 50

/-- `struct data` with its string inside. -/
structure Data (p : Program) where
  str : List UInt8
  length_str : str.length = strSize
  len : BitVec 32
  led : BitVec p.width

structure Line where
  str : List UInt8
  len : BitVec 32
  led : BitVec 32
  deriving DecidableEq

namespace Data

variable {p : Program}

def zero (p : Program) : Data p := ⟨List.replicate strSize 0, List.length_replicate, 0, 0⟩

def strcpy (d : Data p) (k : Fin 5) : Data p :=
  { d with
    str := overlay (stringarray k ++ [0]) d.str
    length_str := by rw [length_overlay, d.length_str] }

def draw (d : Data p) (b : Branch) : Data p :=
  { b.str.elim d d.strcpy with
    len := b.str.elim d.len fun k => BitVec.ofNat 32 (stringarray k).length
    led := b.led.elim d.led fun led => led.value.setWidth p.width }

/-- The structure with the two bytes that align `len`. -/
def bytes (d : Data p) : List UInt8 := d.str ++ [0, 0] ++ le32 d.len ++ p.ledBytes d.led

/-- A message copied over the structure. A shorter one leaves the rest of it alone. -/
def receive (d : Data p) (m : List UInt8) : Data p :=
  let image := overlay m d.bytes
  { str := image.take strSize
    length_str := by
      rw [List.length_take, length_overlay]
      simp only [bytes, List.length_append, d.length_str]
      omega
    len := ofLe32 (image.drop 52)
    led := p.ofLedBytes (image.drop 56) }

def line (d : Data p) : Line := ⟨cstr d.str, d.len, d.led.setWidth 32⟩

end Data

def messages : ℕ := 10

def maxmsg : ℕ := 10

inductive Pc where
  | sendLoop | draw | send | sendMsg | readLoop | receive | getMsg | done
  deriving DecidableEq

structure Process (p : Program) where
  pc : Pc
  i : ℕ
  object : Data p
  objRecv : Data p
  written : List Line
  read : List Line

namespace Process

def leaveSends : (p : Program) → Process p → Process p
  | .q1, x => { x with pc := .readLoop, i := 0 }
  | .hwq2, x => { x with pc := .done }

def leaveReads : (p : Program) → Process p → Process p
  | .q1, x => { x with pc := .done }
  | .hwq2, x => { x with pc := .sendLoop, i := 0 }

/-- The first statement of the loop that reads: `q1` does not receive there. -/
def firstOfRead : Program → Pc
  | .q1 => .getMsg
  | .hwq2 => .receive

def exec {p : Program} (draws : ℕ → Fin 10) (x : Process p) (queue : List (List UInt8)) :
    Option (Process p × List (List UInt8)) :=
  match x.pc with
  | .sendLoop =>
    if x.i < messages then some ({ x with pc := .draw }, queue) else some (x.leaveSends, queue)
  | .draw =>
    some ({ x with object := x.object.draw (parentBranch (draws x.i)), pc := .send }, queue)
  | .send =>
    if queue.length < maxmsg then some ({ x with pc := .sendMsg }, queue ++ [x.object.bytes])
    else none
  | .sendMsg =>
    some ({ x with written := x.written ++ [x.object.line], i := x.i + 1, pc := .sendLoop }, queue)
  | .readLoop =>
    if x.i < messages then some ({ x with pc := firstOfRead p }, queue)
    else some (x.leaveReads, queue)
  | .receive =>
    match queue with
    | [] => none
    | m :: rest => some ({ x with objRecv := x.objRecv.receive m, pc := .getMsg }, rest)
  | .getMsg =>
    some ({ x with read := x.read ++ [x.object.line], i := x.i + 1, pc := .readLoop }, queue)
  | .done => none

end Process

structure System where
  q1 : Process .q1
  hwq2 : Process .hwq2
  queue : List (List UInt8)

def initial : System where
  q1 := ⟨.sendLoop, 0, .zero _, .zero _, [], []⟩
  hwq2 := ⟨.readLoop, 0, .zero _, .zero _, [], []⟩
  queue := []

def System.exec (draws : Program → ℕ → Fin 10) (s : System) : Program → Option System
  | .q1 => (s.q1.exec (draws .q1) s.queue).map fun r => { s with q1 := r.1, queue := r.2 }
  | .hwq2 => (s.hwq2.exec (draws .hwq2) s.queue).map fun r => { s with hwq2 := r.1, queue := r.2 }

def Run (draws : Program → ℕ → Fin 10) : System → System → Prop :=
  ReflTransGen (EventStep (System.exec draws))

/-- Both programs have run to completion. -/
def Completed (s : System) : Prop := s.q1.pc = .done ∧ s.hwq2.pc = .done

/-- Each program logs as read what the other one logged as written, and nothing that it wrote
itself. -/
def Exchanged (s : System) : Prop :=
  s.q1.read = s.hwq2.written ∧ s.hwq2.read = s.q1.written ∧
  (∀ l ∈ s.q1.read, l ∉ s.q1.written) ∧ ∀ l ∈ s.hwq2.read, l ∉ s.hwq2.written

section Completion

variable {p : Program} {x : Process p} {queue : List (List UInt8)} {k : ℕ}

def Process.Runs (draws : ℕ → Fin 10) :
    Process p × List (List UInt8) → Process p × List (List UInt8) → Prop :=
  ReflTransGen fun a b => a.1.exec draws a.2 = some b

theorem run_of_q1 {draws : Program → ℕ → Fin 10} {s : System} {y : Process .q1}
    {queue : List (List UInt8)} (h : Process.Runs (draws .q1) (s.q1, s.queue) (y, queue)) :
    Run draws s { s with q1 := y, queue := queue } := by
  refine ReflTransGen.lift
    (fun a : Process .q1 × List (List UInt8) => { s with q1 := a.1, queue := a.2 }) ?_ _ _ h
  intro a b hab
  exact ⟨.q1, by simp [System.exec, hab]⟩

theorem run_of_hwq2 {draws : Program → ℕ → Fin 10} {s : System} {y : Process .hwq2}
    {queue : List (List UInt8)} (h : Process.Runs (draws .hwq2) (s.hwq2, s.queue) (y, queue)) :
    Run draws s { s with hwq2 := y, queue := queue } := by
  refine ReflTransGen.lift
    (fun a : Process .hwq2 × List (List UInt8) => { s with hwq2 := a.1, queue := a.2 }) ?_ _ _ h
  intro a b hab
  exact ⟨.hwq2, by simp [System.exec, hab]⟩

/-- The loop that sends comes to its end if there is room for all its messages. -/
theorem runs_sends (draws : ℕ → Fin 10) (pc : x.pc = .sendLoop) (hi : x.i + k = messages)
    (hroom : queue.length + k ≤ maxmsg) : ∃ y queue', Process.Runs draws (x, queue) (y, queue') ∧
      y.pc = .sendLoop ∧ y.i = messages ∧ queue'.length = queue.length + k := by
  induction k generalizing x queue with
  | zero => exact ⟨x, queue, .refl, pc, hi, rfl⟩
  | succ k ih =>
    have hlt : x.i < messages := by omega
    have hfree : queue.length < maxmsg := by omega
    let d := x.object.draw (parentBranch (draws x.i))
    obtain ⟨y, queue', hrun, hpc, hy, hlength⟩ :=
      @ih { x with object := d, written := x.written ++ [d.line], i := x.i + 1 }
        (queue ++ [d.bytes]) pc (by simp only; omega)
        (by simp only [List.length_append, List.length_singleton]; omega)
    refine ⟨y, queue', ?_, hpc, hy, ?_⟩
    · refine .head (b := ({ x with pc := .draw }, queue)) (by simp [Process.exec, pc, hlt]) ?_
      refine .head (b := ({ x with object := d, pc := .send }, queue)) rfl ?_
      refine .head (b := ({ x with object := d, pc := .sendMsg }, queue ++ [d.bytes]))
        (by simp [Process.exec, hfree]) ?_
      refine .head ?_ hrun
      simp [Process.exec, pc]
    · rw [hlength, List.length_append, List.length_singleton]
      omega

theorem runs_reads_q1 {x : Process .q1} (draws : ℕ → Fin 10) (pc : x.pc = .readLoop)
    (hi : x.i + k = messages) : ∃ y, Process.Runs draws (x, queue) (y, queue) ∧
      y.pc = .readLoop ∧ y.i = messages := by
  induction k generalizing x with
  | zero => exact ⟨x, .refl, pc, hi⟩
  | succ k ih =>
    have hlt : x.i < messages := by omega
    obtain ⟨y, hrun, hpc, hy⟩ :=
      ih (x := { x with read := x.read ++ [x.object.line], i := x.i + 1 }) pc (by simp only; omega)
    refine ⟨y, ?_, hpc, hy⟩
    refine .head (b := ({ x with pc := .getMsg }, queue))
      (by simp [Process.exec, pc, hlt, Process.firstOfRead]) ?_
    refine .head ?_ hrun
    simp [Process.exec, pc]

theorem runs_reads_hwq2 {x : Process .hwq2} (draws : ℕ → Fin 10) (pc : x.pc = .readLoop)
    (hi : x.i + queue.length = messages) : ∃ y, Process.Runs draws (x, queue) (y, []) ∧
      y.pc = .readLoop ∧ y.i = messages := by
  induction queue generalizing x with
  | nil => exact ⟨x, .refl, pc, hi⟩
  | cons m rest ih =>
    rw [List.length_cons] at hi
    have hlt : x.i < messages := by omega
    obtain ⟨y, hrun, hpc, hy⟩ := ih (x := { x with
      objRecv := x.objRecv.receive m, read := x.read ++ [x.object.line], i := x.i + 1 })
      pc (by simp only; omega)
    refine ⟨y, ?_, hpc, hy⟩
    refine .head (b := ({ x with pc := .receive }, m :: rest))
      (by simp [Process.exec, pc, hlt, Process.firstOfRead]) ?_
    refine .head (b := ({ x with objRecv := x.objRecv.receive m, pc := .getMsg }, rest)) rfl ?_
    refine .head ?_ hrun
    simp [Process.exec, pc]

/-- One program after the other is a way to completion. -/
theorem exists_completed (draws : Program → ℕ → Fin 10) :
    ∃ s, Run draws initial s ∧ Completed s := by
  obtain ⟨x₁, queue, hsends, hpc₁, hi₁, hlength⟩ :=
    @runs_sends .q1 initial.q1 [] messages (draws .q1) rfl rfl (Nat.le_refl maxmsg)
  obtain ⟨x₂, hreads, hpc₂, hi₂⟩ :=
    @runs_reads_q1 queue messages x₁.leaveSends (draws .q1) rfl rfl
  have hleave : Process.Runs (draws .q1) (x₁, queue) (x₁.leaveSends, queue) :=
    .single (by simp [Process.exec, hpc₁, hi₁])
  have hend : Process.Runs (draws .q1) (x₂, queue) (x₂.leaveReads, queue) :=
    .single (by simp [Process.exec, hpc₂, hi₂])
  have hq1 := run_of_q1 (s := initial) (hsends.trans (hleave.trans (hreads.trans hend)))
  obtain ⟨y₁, hreceives, hpc₃, hi₃⟩ :=
    @runs_reads_hwq2 queue initial.hwq2 (draws .hwq2) rfl (by rw [hlength]; rfl)
  obtain ⟨y₂, queue', hanswers, hpc₄, hi₄, -⟩ :=
    @runs_sends .hwq2 y₁.leaveReads [] messages (draws .hwq2) rfl rfl (Nat.le_refl maxmsg)
  have hturn : Process.Runs (draws .hwq2) (y₁, []) (y₁.leaveReads, []) :=
    .single (by simp [Process.exec, hpc₃, hi₃])
  have hstop : Process.Runs (draws .hwq2) (y₂, queue') (y₂.leaveSends, queue') :=
    .single (by simp [Process.exec, hpc₄, hi₄])
  have hhwq2 := run_of_hwq2 (s := { initial with q1 := x₂.leaveReads, queue := queue })
    (hreceives.trans (hturn.trans (hanswers.trans hstop)))
  exact ⟨_, hq1.trans hhwq2, rfl, rfl⟩

end Completion

section Logs

variable {draws : ℕ → Fin 10} {queue queue' : List (List UInt8)}

/-- The second loop of `q1` logs again and again the record that it has sent last. -/
def OwnLog (x : Process .q1) : Prop :=
  match x.pc with
  | .sendLoop => x.read = [] ∧ x.i = x.written.length ∧ x.i ≤ messages ∧
      (0 < x.i → x.written.getLast? = some x.object.line)
  | .draw | .send | .sendMsg => x.read = [] ∧ x.i = x.written.length ∧ x.i < messages
  | .readLoop => x.written.getLast? = some x.object.line ∧
      x.read = List.replicate x.i x.object.line ∧ x.i ≤ messages
  | .getMsg => x.written.getLast? = some x.object.line ∧
      x.read = List.replicate x.i x.object.line ∧ x.i < messages
  | .receive => False
  | .done => x.written.getLast? = some x.object.line ∧
      x.read = List.replicate messages x.object.line

theorem OwnLog.step {x x' : Process .q1} (h : OwnLog x)
    (he : x.exec draws queue = some (x', queue')) : OwnLog x' := by
  rw [Process.exec.eq_def] at he
  cases hpc : x.pc with
  | sendLoop =>
    simp only [OwnLog, hpc] at h he
    obtain ⟨hread, hi, hle, hlast⟩ := h
    split at he <;> cases he
    · next hlt => exact ⟨hread, hi, hlt⟩
    · next hge =>
      exact ⟨hlast (by simp only [messages] at hge ⊢; omega), hread, Nat.zero_le _⟩
  | draw =>
    simp only [OwnLog, hpc] at h he
    cases he
    exact h
  | send =>
    simp only [OwnLog, hpc] at h he
    split at he <;> cases he
    exact h
  | sendMsg =>
    simp only [OwnLog, hpc] at h he
    cases he
    obtain ⟨hread, hi, hlt⟩ := h
    refine ⟨hread, ?_, hlt, fun _ => ?_⟩
    · rw [List.length_append, List.length_singleton, hi]
    · exact List.getLast?_concat
  | readLoop =>
    simp only [OwnLog, hpc] at h he
    obtain ⟨hlast, hread, hle⟩ := h
    split at he <;> cases he
    · next hlt => exact ⟨hlast, hread, hlt⟩
    · next hge =>
      have hi : x.i = messages := by omega
      rw [hi] at hread
      exact ⟨hlast, hread⟩
  | receive => simp [OwnLog, hpc] at h
  | getMsg =>
    simp only [OwnLog, hpc] at h he
    cases he
    obtain ⟨hlast, hread, hlt⟩ := h
    refine ⟨hlast, ?_, hlt⟩
    simp only [hread]
    exact List.replicate_succ'.symm
  | done => simp [hpc] at he

def zeroLine : Line := ⟨[], 0, 0⟩

/-- The first loop of `hwq2` logs its own record, which is still zero. -/
def ZeroLog (x : Process .hwq2) : Prop :=
  match x.pc with
  | .readLoop => x.object = .zero _ ∧ x.read = List.replicate x.i zeroLine ∧ x.i ≤ messages
  | .receive | .getMsg =>
    x.object = .zero _ ∧ x.read = List.replicate x.i zeroLine ∧ x.i < messages
  | _ => x.read = List.replicate messages zeroLine

theorem line_zero : (Data.zero .hwq2).line = zeroLine := by decide

theorem ZeroLog.step {x x' : Process .hwq2} (h : ZeroLog x)
    (he : x.exec draws queue = some (x', queue')) : ZeroLog x' := by
  rw [Process.exec.eq_def] at he
  cases hpc : x.pc with
  | readLoop =>
    simp only [ZeroLog, hpc] at h he
    obtain ⟨hobject, hread, hle⟩ := h
    split at he <;> cases he
    · next hlt => exact ⟨hobject, hread, hlt⟩
    · next hge =>
      have hi : x.i = messages := by omega
      rw [hi] at hread
      exact hread
  | receive =>
    simp only [ZeroLog, hpc] at h he
    split at he <;> cases he
    exact h
  | getMsg =>
    simp only [ZeroLog, hpc] at h he
    cases he
    obtain ⟨hobject, hread, hlt⟩ := h
    refine ⟨hobject, ?_, hlt⟩
    simp only [hread, hobject, line_zero]
    exact List.replicate_succ'.symm
  | sendLoop =>
    simp only [ZeroLog, hpc] at h he
    split at he <;> cases he
    · exact h
    · exact h
  | draw =>
    simp only [ZeroLog, hpc] at h he
    cases he
    exact h
  | send =>
    simp only [ZeroLog, hpc] at h he
    split at he <;> cases he
    exact h
  | sendMsg =>
    simp only [ZeroLog, hpc] at h he
    cases he
    exact h
  | done => simp [hpc] at he

end Logs

theorem logs_of_run {draws : Program → ℕ → Fin 10} {s : System} (hrun : Run draws initial s) :
    OwnLog s.q1 ∧ ZeroLog s.hwq2 := by
  have hinitial : OwnLog initial.q1 ∧ ZeroLog initial.hwq2 :=
    ⟨⟨rfl, rfl, Nat.zero_le _, fun h => absurd h (Nat.lt_irrefl 0)⟩, rfl, rfl, Nat.zero_le _⟩
  refine run_invariant (P := fun s => OwnLog s.q1 ∧ ZeroLog s.hwq2) ?_ hinitial hrun
  rintro s s' ⟨hq1, hhwq2⟩ ⟨p, he⟩
  cases p with
  | q1 =>
    obtain ⟨r, hexec, rfl⟩ := Option.map_eq_some_iff.mp he
    exact ⟨hq1.step hexec, hhwq2⟩
  | hwq2 =>
    obtain ⟨r, hexec, rfl⟩ := Option.map_eq_some_iff.mp he
    exact ⟨hq1, hhwq2.step hexec⟩

theorem read_of_completed {draws : Program → ℕ → Fin 10} {s : System} (hrun : Run draws initial s)
    (hdone : Completed s) :
    (∃ l, s.q1.written.getLast? = some l ∧ s.q1.read = List.replicate messages l) ∧
      s.hwq2.read = List.replicate messages zeroLine := by
  obtain ⟨hq1, hhwq2⟩ := logs_of_run hrun
  simp only [OwnLog, hdone.1] at hq1
  simp only [ZeroLog, hdone.2] at hhwq2
  exact ⟨⟨_, hq1⟩, hhwq2⟩

/-- Both programs can run to completion, but whenever they do, `q1` has logged as read what it wrote
itself. -/
theorem queues_never_exchange (draws : Program → ℕ → Fin 10) :
    (∃ s, Run draws initial s ∧ Completed s) ∧
    ∀ s, Run draws initial s → Completed s → ¬Exchanged s := by
  refine ⟨exists_completed draws, ?_⟩
  rintro s hrun hdone ⟨-, -, hown, -⟩
  obtain ⟨⟨l, hlast, hread⟩, -⟩ := read_of_completed hrun hdone
  have hmem : l ∈ s.q1.read := by
    rw [hread]
    exact List.mem_replicate.mpr ⟨by decide, rfl⟩
  exact hown l hmem (List.mem_of_getLast? hlast)

/-- `q1` always draws 0 and `hwq2` always 5. -/
def helloDraws : Program → ℕ → Fin 10
  | .q1, _ => getrand 0
  | .hwq2, _ => getrand 5

theorem q1_reads_itself :
    ∃ s, Run helloDraws initial s ∧ Completed s ∧
      s.q1.written = List.replicate 10 ⟨ascii "hey", 3, 0⟩ ∧
      s.hwq2.written = List.replicate 10 ⟨[], 0, 1⟩ ∧
      s.q1.read = List.replicate 10 ⟨ascii "hey", 3, 0⟩ ∧
      s.hwq2.read = List.replicate 10 ⟨[], 0, 0⟩ := by
  have hexec : (execAll (System.exec helloDraws) initial
      (List.replicate 62 .q1 ++ List.replicate 72 .hwq2)).map (fun s => ([s.q1.pc, s.hwq2.pc],
        [s.q1.written, s.hwq2.written, s.q1.read, s.hwq2.read])) =
      some ([.done, .done], [List.replicate 10 ⟨ascii "hey", 3, 0⟩, List.replicate 10 ⟨[], 0, 1⟩,
        List.replicate 10 ⟨ascii "hey", 3, 0⟩, List.replicate 10 ⟨[], 0, 0⟩]) := by
    decide +kernel
  obtain ⟨s, hs, heq⟩ := Option.map_eq_some_iff.mp hexec
  simp only [Prod.mk.injEq, List.cons.injEq, and_true] at heq
  exact ⟨s, run_of_execAll _ hs, heq.1, heq.2⟩

end EmbeddedSoftware.MessageQueues
