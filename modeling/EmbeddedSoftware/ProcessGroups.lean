import EmbeddedSoftware.RunRules
import EmbeddedSoftware.SystemCalls
import Mathlib.Data.Int.Notation
import Mathlib.Data.List.Nodup
import Mathlib.Data.Option.Basic

/-!
# Process groups and sessions

`setpgid`, `setsid`, `getpgid` and `getsid` of `sys.c` over the table of all processes. Between the
calls the rest of the kernel makes and releases processes, of which only a few things are assumed.
Every process group lies in one session, and the leader of a session keeps it.
-/

namespace EmbeddedSoftware.ProcessGroups

open Relation RunRules SystemCalls

/-- A process, with what its first thread carries. Its parent is the process of `real_parent`. -/
structure Proc where
  pid : ℕ
  parent : ℕ
  pgrp : ℕ
  session : ℕ
  leader : Bool
  forknoexec : Bool
  deriving DecidableEq

/-- The processes, and their other threads with the process that each belongs to. -/
structure Table where
  procs : List Proc
  threads : List (ℕ × ℕ)

namespace Table

def proc (s : Table) (pid : ℤ) : Option Proc := s.procs.find? fun p => (p.pid : ℤ) = pid

/-- `find_task_by_vpid`: the process of a thread, and whether the thread is its first one. -/
def findTaskByVpid (s : Table) (pid : ℤ) : Option (Proc × Bool) :=
  match s.proc pid with
  | some p => some (p, true)
  | none => do
    let thread ← s.threads.find? fun t => (t.1 : ℤ) = pid
    let p ← s.proc thread.2
    return (p, false)

/-- `pid_task` of `PIDTYPE_PGID`: one of the members of a group. The one that it finds depends on
the order in which they joined, `first` is any member. -/
def pidTask (s : Table) (first : ℕ) (pgid : ℤ) : Option Proc :=
  let members := s.procs.filter fun p => (p.pgrp : ℤ) = pgid
  (members.find? fun p => p.pid = first).or members.head?

def update (s : Table) (pid : ℕ) (f : Proc → Proc) : Table :=
  { s with procs := s.procs.map fun p => if p.pid = pid then f p else p }

def changePgrp (s : Table) (pid pgrp : ℕ) : Table := s.update pid fun p => { p with pgrp }

/-- Which processes `me` may move: itself, and its children in its session until they start a
program, but no leader of a session. -/
def checkMove (me p : Proc) : Except Errno Unit := do
  if p.parent = me.pid then
    require (p.session = me.session) .eperm
    require (p.forknoexec = true) .eacces
  else
    require (p.pid = me.pid) .esrch
  require (p.leader = false) .eperm

/-- A process may found the group with its own number, or join a group of the session of `me`. -/
def checkGroup (s : Table) (me : Proc) (pid pgid : ℤ) (first : ℕ) : Except Errno Unit :=
  if pgid = pid then .ok ()
  else do
    let g ← orError (s.pidTask first pgid) .eperm
    require (g.session = me.session) .eperm

/-- `setpgid` of a thread of the process `me`. The calls run one at a time, under the lock of the
table. -/
def setpgid (s : Table) (me : Proc) (pid pgid : ℤ) (first : ℕ) (security : Except Errno Unit) :
    Except Errno Table := do
  let pid := if pid = 0 then (me.pid : ℤ) else pid
  let pgid := if pgid = 0 then pid else pgid
  require (0 ≤ pgid) .einval
  let (p, threadGroupLeader) ← orError (s.findTaskByVpid pid) .esrch
  require (threadGroupLeader = true) .einval
  checkMove me p
  s.checkGroup me pid pgid first
  security
  return s.changePgrp p.pid pgid.toNat

/-- `set_special_pids`, with the flag that `setsid` sets before. -/
def setSpecialPids (s : Table) (pid : ℕ) : Table :=
  s.update pid fun p => { p with leader := true, session := pid, pgrp := pid }

def setsid (s : Table) (me : Proc) : Except Errno (ℕ × Table) := do
  require (me.leader = false) .eperm
  require ((s.pidTask me.pid me.pid).isNone = true) .eperm
  return (me.pid, s.setSpecialPids me.pid)

def getpgid (s : Table) (me : Proc) (pid : ℤ) (security : Except Errno Unit) : Except Errno ℕ := do
  if pid = 0 then
    return me.pgrp
  let (p, _) ← orError (s.findTaskByVpid pid) .esrch
  security
  return p.pgrp

def getsid (s : Table) (me : Proc) (pid : ℤ) (security : Except Errno Unit) : Except Errno ℕ := do
  if pid = 0 then
    return me.session
  let (p, _) ← orError (s.findTaskByVpid pid) .esrch
  security
  return p.session

end Table

inductive Call where
  | setpgid (caller : ℕ) (pid pgid : ℤ) (first : ℕ) (security : Option Errno)
  | setsid (caller : ℕ)
  deriving DecidableEq

def answer : Option Errno → Except Errno Unit
  | none => .ok ()
  | some e => .error e

/-- A call that fails leaves the table as it is. -/
def Table.call (s : Table) : Call → Option Table
  | .setpgid caller pid pgid first security => do
    let me ← s.proc caller
    match s.setpgid me pid pgid first (answer security) with
    | .error _ => some s
    | .ok s' => some s'
  | .setsid caller => do
    let me ← s.proc caller
    match s.setsid me with
    | .error _ => some s
    | .ok (_, s') => some s'

/-- The first process. Its group and its session are those of the idle task, number `0`. -/
def boot : Table where
  procs := [⟨1, 0, 0, 0, false, true⟩]
  threads := []

/-- The numbers of the processes, and their parents. -/
structure Family (s : Table) : Prop where
  nodup : (s.procs.map Proc.pid).Nodup
  pid_ne_zero : ∀ p ∈ s.procs, p.pid ≠ 0
  parent_ne : ∀ p ∈ s.procs, p.parent ≠ p.pid

structure Newborn (s s' : Table) (p : Proc) : Prop where
  mem : p ∈ s'.procs
  pid_ne : ∀ q ∈ s.procs, q.pid ≠ p.pid

/-- What is assumed of the rest of the kernel, which makes processes and threads, lets them start
programs, hands over their children and releases them. -/
structure Environment (env : Table → Table → Prop) : Prop where
  family : ∀ {s s'}, env s s' → Family s → Family s'
  /-- A process that lives on keeps its group, its session and whether it leads the session. One that
  has started a program does not forget it. -/
  keeps : ∀ {s s' p p'}, env s s' → Family s → p ∈ s.procs → p' ∈ s'.procs → p'.pid = p.pid →
    p'.pgrp = p.pgrp ∧ p'.session = p.session ∧ p'.leader = p.leader ∧
      (p'.forknoexec = true → p.forknoexec = true)
  /-- A new process is in the group and in the session of one that was there, and leads nothing. -/
  joins : ∀ {s s' p}, env s s' → Newborn s s' p →
    p.leader = false ∧ ∃ q ∈ s.procs, p.pgrp = q.pgrp ∧ p.session = q.session
  /-- The number of a new process names no group and no session. -/
  fresh : ∀ {s s' p}, env s s' → Newborn s s' p →
    ∀ q ∈ s.procs, q.pgrp ≠ p.pid ∧ q.session ≠ p.pid

inductive Step (env : Table → Table → Prop) (s : Table) : Option Call → Table → Prop
  | call {s' : Table} (c : Call) (h : s.call c = some s') : Step env s (some c) s'
  | other {s' : Table} (h : env s s') : Step env s none s'

def Run (env : Table → Table → Prop) : Table → Table → Prop :=
  ReflTransGen fun s s' => ∃ e, Step env s e s'

section Lookups

variable {s s' : Table} {p q me : Proc} {pid pgid : ℤ} {n first : ℕ}

theorem mem_of_proc (h : s.proc pid = some p) : p ∈ s.procs ∧ (p.pid : ℤ) = pid :=
  ⟨List.mem_of_find?_eq_some h, by simpa using List.find?_some h⟩

theorem findTaskByVpid_eq_some_true_iff :
    s.findTaskByVpid pid = some (p, true) ↔ s.proc pid = some p := by
  rw [Table.findTaskByVpid]
  split
  · next h => simp [h]
  · next h => simp [h, Option.bind_eq_some_iff]

theorem mem_of_pidTask (h : s.pidTask first pgid = some q) : q ∈ s.procs ∧ (q.pgrp : ℤ) = pgid := by
  have hmem : q ∈ s.procs.filter fun p => (p.pgrp : ℤ) = pgid := by
    obtain hfind | ⟨-, hhead⟩ := Option.or_eq_some_iff.mp h
    · exact List.mem_of_find?_eq_some hfind
    · exact List.mem_of_mem_head? hhead
  simpa using hmem

theorem pidTask_eq_none_iff :
    s.pidTask first pgid = none ↔ ∀ q ∈ s.procs, (q.pgrp : ℤ) ≠ pgid := by
  constructor
  · intro h q hq hgroup
    obtain ⟨-, hhead⟩ := Option.or_eq_none_iff.mp h
    have hmem : q ∈ s.procs.filter fun p => (p.pgrp : ℤ) = pgid := by simpa using ⟨hq, hgroup⟩
    rw [List.head?_eq_none_iff.mp hhead] at hmem
    cases hmem
  · intro h
    cases hfound : s.pidTask first pgid with
    | none => rfl
    | some q =>
      obtain ⟨hq, hgroup⟩ := mem_of_pidTask hfound
      exact absurd hgroup (h q hq)

def MayMove (me p : Proc) : Prop :=
  (p.parent = me.pid ∧ p.session = me.session ∧ p.forknoexec = true ∨
    p.parent ≠ me.pid ∧ p.pid = me.pid) ∧ p.leader = false

theorem checkMove_eq_ok_iff {u : Unit} : Table.checkMove me p = .ok u ↔ MayMove me p := by
  rw [Table.checkMove, MayMove]
  by_cases hparent : p.parent = me.pid
  · simp [hparent, bind_eq_ok_iff, require_eq_ok_iff, and_assoc]
  · simp [hparent, bind_eq_ok_iff, require_eq_ok_iff]

theorem checkGroup_eq_ok_iff {u : Unit} : s.checkGroup me pid pgid first = .ok u ↔
    pgid = pid ∨ ∃ g, s.pidTask first pgid = some g ∧ g.session = me.session := by
  rw [Table.checkGroup]
  split
  · next h => simp [h]
  · next h => simp [h, bind_eq_ok_iff, orError_eq_ok_iff, require_eq_ok_iff]

/-- What `setpgid` checks, and what it does. -/
theorem setpgid_eq_ok_iff {security : Except Errno Unit} (target group : ℤ)
    (htarget : target = if pid = 0 then (me.pid : ℤ) else pid)
    (hgroup : group = if pgid = 0 then target else pgid) :
    s.setpgid me pid pgid first security = .ok s' ↔
      0 ≤ group ∧ ∃ p, s.proc target = some p ∧ MayMove me p ∧
        (group = target ∨ ∃ g, s.pidTask first group = some g ∧ g.session = me.session) ∧
        security = .ok () ∧ s' = s.changePgrp p.pid group.toNat := by
  rw [Table.setpgid, ← htarget, ← hgroup]
  simp only [bind_eq_ok_iff, require_eq_ok_iff, orError_eq_ok_iff, checkMove_eq_ok_iff,
    checkGroup_eq_ok_iff]
  constructor
  · rintro ⟨-, hsign, ⟨p, first⟩, hfind, -, rfl, -, hmove, -, hjoin, ⟨⟩, hsecurity, hnew⟩
    cases hnew
    exact ⟨hsign, p, findTaskByVpid_eq_some_true_iff.mp hfind, hmove, hjoin, hsecurity, rfl⟩
  · rintro ⟨hsign, p, hfind, hmove, hjoin, hsecurity, rfl⟩
    exact ⟨(), hsign, (p, true), findTaskByVpid_eq_some_true_iff.mpr hfind, (), rfl, (), hmove, (),
      hjoin, (), hsecurity, rfl⟩

theorem setsid_eq_ok_iff : s.setsid me = .ok (n, s') ↔
    me.leader = false ∧ (∀ q ∈ s.procs, q.pgrp ≠ me.pid) ∧ n = me.pid ∧
      s' = s.setSpecialPids me.pid := by
  simp only [Table.setsid, bind_eq_ok_iff, require_eq_ok_iff, Option.isNone_iff_eq_none,
    pidTask_eq_none_iff]
  constructor
  · rintro ⟨-, hleader, -, hfree, hnew⟩
    cases hnew
    exact ⟨hleader, fun q hq h => hfree q hq (by exact_mod_cast h), rfl, rfl⟩
  · rintro ⟨hleader, hfree, rfl, rfl⟩
    exact ⟨(), hleader, (), fun q hq h => hfree q hq (by exact_mod_cast h), rfl⟩

end Lookups

/-- The groups and sessions of the processes. -/
structure Grouped (s : Table) : Prop where
  /-- Every group lies in one session. -/
  session_of_pgrp : ∀ p ∈ s.procs, ∀ q ∈ s.procs, p.pgrp = q.pgrp → p.session = q.session
  /-- A group is in the session of the process that has its number. -/
  session_of_pid : ∀ p ∈ s.procs, ∀ q ∈ s.procs, q.pgrp = p.pid → q.session = p.session
  /-- The process that has the number of a session is its leader. -/
  leader_of_session : ∀ p ∈ s.procs, ∀ q ∈ s.procs, q.session = p.pid → p.leader = true
  own_of_leader : ∀ p ∈ s.procs, p.leader = true → p.pgrp = p.pid ∧ p.session = p.pid

structure Orderly (s : Table) : Prop extends Family s, Grouped s

theorem boot_orderly : Orderly boot where
  nodup := by decide
  pid_ne_zero := by decide
  parent_ne := by decide
  session_of_pgrp := by decide
  session_of_pid := by decide
  leader_of_session := by decide
  own_of_leader := by decide

section Order

variable {env : Table → Table → Prop} {s s' : Table} {p q me : Proc} {pid pgid : ℤ} {n first : ℕ}
variable {f : Proc → Proc}

theorem Family.eq_of_pid (h : Family s) (hp : p ∈ s.procs) (hq : q ∈ s.procs)
    (hpid : p.pid = q.pid) : p = q :=
  List.inj_on_of_nodup_map h.nodup hp hq hpid

theorem Family.proc_of_mem (h : Family s) (hp : p ∈ s.procs) : s.proc p.pid = some p := by
  cases hfind : s.proc p.pid with
  | none =>
    have hnone := List.find?_eq_none.mp hfind p hp
    simp at hnone
  | some q =>
    obtain ⟨hq, hpid⟩ := mem_of_proc hfind
    rw [h.eq_of_pid hq hp (by exact_mod_cast hpid)]

theorem Family.session_of_mayMove (h : Family s) (hme : me ∈ s.procs) (hp : p ∈ s.procs)
    (hmove : MayMove me p) : p.session = me.session := by
  obtain ⟨⟨-, hsession, -⟩ | ⟨-, hpid⟩, -⟩ := hmove
  · exact hsession
  · rw [h.eq_of_pid hp hme hpid]

theorem Family.update (h : Family s) (hf : ∀ p, (f p).pid = p.pid ∧ (f p).parent = p.parent) :
    Family (s.update n f) := by
  have hpid : ∀ p, (if p.pid = n then f p else p).pid = p.pid := by
    intro p
    split
    · exact (hf p).1
    · rfl
  have hparent : ∀ p, (if p.pid = n then f p else p).parent = p.parent := by
    intro p
    split
    · exact (hf p).2
    · rfl
  constructor <;> rw [Table.update]
  · have hkeep : (s.procs.map fun p => if p.pid = n then f p else p).map Proc.pid =
        s.procs.map Proc.pid := by
      rw [List.map_map]
      apply List.map_congr_left
      intro p _
      exact hpid p
    rw [hkeep]
    exact h.nodup
  · rw [List.forall_mem_map]
    intro p hp
    rw [hpid]
    exact h.pid_ne_zero p hp
  · rw [List.forall_mem_map]
    intro p hp
    rw [hpid, hparent]
    exact h.parent_ne p hp

theorem Orderly.changePgrp (h : Orderly s) (hp : p ∈ s.procs) (hleader : p.leader = false)
    (hjoin : n = p.pid ∨ ∃ q ∈ s.procs, q.pgrp = n ∧ q.session = p.session) :
    Orderly (s.changePgrp p.pid n) := by
  have hsession : ∀ q ∈ s.procs, q.pgrp = n → q.session = p.session := by
    intro q hq hpgrp
    obtain rfl | ⟨r, hr, rfl, hsession⟩ := hjoin
    · exact h.session_of_pid p hp q hq hpgrp
    · exact (h.session_of_pgrp q hq r hr hpgrp).trans hsession
  have heq : ∀ q ∈ s.procs, q.pid = p.pid → q = p := fun q hq => h.eq_of_pid hq hp
  refine ⟨h.toFamily.update fun _ => ⟨rfl, rfl⟩, ?_⟩
  constructor <;> simp only [Table.changePgrp, Table.update, List.forall_mem_map]
  · intro q hq r hr
    have hold := h.session_of_pgrp q hq r hr
    split <;> split <;> grind
  · intro q hq r hr
    have hold := h.session_of_pid q hq r hr
    split <;> split <;> grind [h.session_of_pid]
  · intro q hq r hr
    have hold := h.leader_of_session q hq r hr
    split <;> split <;> grind
  · intro q hq
    have hold := h.own_of_leader q hq
    split <;> grind

theorem Grouped.session_ne_of_leader (h : Grouped s) (hme : me ∈ s.procs)
    (hleader : me.leader = false) : ∀ q ∈ s.procs, q.session ≠ me.pid := by
  intro q hq hsession
  have htrue := h.leader_of_session me hme q hq hsession
  rw [hleader] at htrue
  cases htrue

theorem Orderly.setSpecialPids (h : Orderly s) (hme : me ∈ s.procs) (hleader : me.leader = false)
    (hfree : ∀ q ∈ s.procs, q.pgrp ≠ me.pid) : Orderly (s.setSpecialPids me.pid) := by
  have hnone := h.session_ne_of_leader hme hleader
  refine ⟨h.toFamily.update fun _ => ⟨rfl, rfl⟩, ?_⟩
  constructor <;> simp only [Table.setSpecialPids, Table.update, List.forall_mem_map]
  · intro q hq r hr
    have hold := h.session_of_pgrp q hq r hr
    split <;> split <;> grind
  · intro q hq r hr
    have hold := h.session_of_pid q hq r hr
    split <;> split <;> grind
  · intro q hq r hr
    have hold := h.leader_of_session q hq r hr
    split <;> split <;> grind
  · intro q hq
    have hold := h.own_of_leader q hq
    split <;> grind

/-- Where a process after a step of the rest of the kernel has its group and its session from. -/
theorem Environment.exists_origin (henv : Environment env) (hs : Family s) (hstep : env s s')
    (hp : p ∈ s'.procs) :
    ∃ q ∈ s.procs, p.pgrp = q.pgrp ∧ p.session = q.session ∧
      (p.pid = q.pid ∧ p.leader = q.leader ∨
        p.leader = false ∧ ∀ r ∈ s.procs, r.pgrp ≠ p.pid ∧ r.session ≠ p.pid) := by
  by_cases hold : ∃ q ∈ s.procs, q.pid = p.pid
  · obtain ⟨q, hq, hpid⟩ := hold
    obtain ⟨hpgrp, hsession, hleader, -⟩ := henv.keeps hstep hs hq hp hpid.symm
    exact ⟨q, hq, hpgrp, hsession, .inl ⟨hpid.symm, hleader⟩⟩
  · push Not at hold
    obtain ⟨hleader, q, hq, hpgrp, hsession⟩ := henv.joins hstep ⟨hp, hold⟩
    exact ⟨q, hq, hpgrp, hsession, .inr ⟨hleader, henv.fresh hstep ⟨hp, hold⟩⟩⟩

theorem Orderly.other (h : Orderly s) (henv : Environment env) (hstep : env s s') : Orderly s' := by
  refine ⟨henv.family hstep h.toFamily, ?_, ?_, ?_, ?_⟩
  · intro p hp q hq hpgrp
    obtain ⟨p₀, hp₀, hpgrp₀, hsession₀, -⟩ := henv.exists_origin h.toFamily hstep hp
    obtain ⟨q₀, hq₀, hpgrp₁, hsession₁, -⟩ := henv.exists_origin h.toFamily hstep hq
    rw [hsession₀, hsession₁]
    exact h.session_of_pgrp p₀ hp₀ q₀ hq₀ (by rw [← hpgrp₀, ← hpgrp₁, hpgrp])
  · intro p hp q hq hpgrp
    obtain ⟨p₀, hp₀, -, hsession₀, ⟨hpid, -⟩ | ⟨-, hfresh⟩⟩ := henv.exists_origin h.toFamily hstep hp
    · obtain ⟨q₀, hq₀, hpgrp₁, hsession₁, -⟩ := henv.exists_origin h.toFamily hstep hq
      rw [hsession₀, hsession₁]
      exact h.session_of_pid p₀ hp₀ q₀ hq₀ (by rw [← hpgrp₁, hpgrp, hpid])
    · obtain ⟨q₀, hq₀, hpgrp₁, -⟩ := henv.exists_origin h.toFamily hstep hq
      exact absurd (hpgrp₁.symm.trans hpgrp) (hfresh q₀ hq₀).1
  · intro p hp q hq hsession
    obtain ⟨q₀, hq₀, -, hsession₁, -⟩ := henv.exists_origin h.toFamily hstep hq
    obtain ⟨p₀, hp₀, -, -, ⟨hpid, hleader⟩ | ⟨-, hfresh⟩⟩ := henv.exists_origin h.toFamily hstep hp
    · rw [hleader]
      exact h.leader_of_session p₀ hp₀ q₀ hq₀ (by rw [← hsession₁, hsession, hpid])
    · exact absurd (hsession₁.symm.trans hsession) (hfresh q₀ hq₀).2
  · intro p hp hleader
    obtain ⟨p₀, hp₀, hpgrp, hsession, ⟨hpid, hsame⟩ | ⟨hfalse, -⟩⟩ :=
      henv.exists_origin h.toFamily hstep hp
    · rw [hpgrp, hsession, hpid]
      exact h.own_of_leader p₀ hp₀ (hsame.symm.trans hleader)
    · rw [hfalse] at hleader
      cases hleader

/-- What a call can do to the table. -/
inductive Effect (s : Table) : Call → Table → Prop
  | fail (c : Call) : Effect s c s
  | setpgid {me p : Proc} {n : ℕ} (pid pgid : ℤ) (first : ℕ) (security : Option Errno)
    (hme : me ∈ s.procs) (hp : p ∈ s.procs) (hmove : MayMove me p)
    (hjoin : n = p.pid ∨ ∃ q ∈ s.procs, q.pgrp = n ∧ q.session = me.session) :
    Effect s (.setpgid me.pid pid pgid first security) (s.changePgrp p.pid n)
  | setsid {me : Proc} (hme : me ∈ s.procs) (hleader : me.leader = false)
    (hfree : ∀ q ∈ s.procs, q.pgrp ≠ me.pid) :
    Effect s (.setsid me.pid) (s.setSpecialPids me.pid)

theorem proc_cast {caller : ℕ} (h : s.proc caller = some me) : me ∈ s.procs ∧ me.pid = caller := by
  obtain ⟨hme, hpid⟩ := mem_of_proc h
  exact ⟨hme, by exact_mod_cast hpid⟩

theorem setpgid_effect {security : Option Errno} (hme : me ∈ s.procs)
    (h : s.setpgid me pid pgid first (answer security) = .ok s') :
    Effect s (.setpgid me.pid pid pgid first security) s' := by
  obtain ⟨hsign, p, hfind, hmove, hjoin, -, rfl⟩ := (setpgid_eq_ok_iff _ _ rfl rfl).mp h
  obtain ⟨hp, hpid⟩ := mem_of_proc hfind
  apply Effect.setpgid pid pgid first security hme hp hmove
  obtain heq | ⟨g, hg, hsession⟩ := hjoin
  · left
    omega
  · obtain ⟨hmem, hpgrp⟩ := mem_of_pidTask hg
    exact .inr ⟨g, hmem, by omega, hsession⟩

theorem call_effect {c : Call} (h : s.call c = some s') : Effect s c s' := by
  cases c with
  | setpgid caller pid pgid first security =>
    obtain ⟨me, hfind, hnew⟩ := Option.bind_eq_some_iff.mp h
    obtain ⟨hme, rfl⟩ := proc_cast hfind
    split at hnew <;> cases hnew
    · exact .fail _
    · next hok => exact setpgid_effect hme hok
  | setsid caller =>
    obtain ⟨me, hfind, hnew⟩ := Option.bind_eq_some_iff.mp h
    obtain ⟨hme, rfl⟩ := proc_cast hfind
    split at hnew <;> cases hnew
    · exact .fail _
    · next hok =>
      obtain ⟨hleader, hfree, -, rfl⟩ := setsid_eq_ok_iff.mp hok
      exact .setsid hme hleader hfree

theorem Orderly.step {e : Option Call} (h : Orderly s) (henv : Environment env)
    (hstep : Step env s e s') : Orderly s' := by
  cases hstep with
  | other hother => exact h.other henv hother
  | call c hcall =>
    cases call_effect hcall with
    | fail => exact h
    | setpgid _ _ _ _ hme hp hmove hjoin =>
      apply h.changePgrp hp hmove.2
      rw [h.session_of_mayMove hme hp hmove]
      exact hjoin
    | setsid hme hleader hfree => exact h.setSpecialPids hme hleader hfree

theorem Orderly.run (h : Orderly s) (henv : Environment env) (hrun : Run env s s') : Orderly s' := by
  apply run_invariant _ h hrun
  rintro s s' h ⟨e, he⟩
  exact h.step henv he

end Order

section Fates

variable {env : Table → Table → Prop} {s s' : Table} {p p' : Proc} {e : Option Call}

/-- What becomes of a process in a step: it keeps its group and its session, or is moved by itself
or by its parent before it starts a program, or founds a session. -/
inductive Fate (p p' : Proc) : Option Call → Prop
  | kept (e : Option Call) (hpgrp : p'.pgrp = p.pgrp) (hsession : p'.session = p.session)
    (hleader : p'.leader = p.leader) (hexec : p'.forknoexec = true → p.forknoexec = true) : Fate p p' e
  | moved {caller : ℕ} (pid pgid : ℤ) (first : ℕ) (security : Option Errno)
    (hcaller : caller = p.pid ∨ caller = p.parent ∧ p.forknoexec = true)
    (hsession : p'.session = p.session) (hleader : p.leader = false) :
    Fate p p' (some (.setpgid caller pid pgid first security))
  | founded (hbefore : p.leader = false) (hleader : p'.leader = true) :
    Fate p p' (some (.setsid p.pid))

def Lives (n : ℕ) (s : Table) : Prop := ∃ p ∈ s.procs, p.pid = n

theorem exists_fate (henv : Environment env) (h : Orderly s) (hstep : Step env s e s')
    (hp : p ∈ s.procs) (hlives : Lives p.pid s') : ∃ p' ∈ s'.procs, p'.pid = p.pid ∧ Fate p p' e := by
  cases hstep with
  | other hother =>
    obtain ⟨p', hp', hpid⟩ := hlives
    obtain ⟨hpgrp, hsession, hleader, hexec⟩ := henv.keeps hother h.toFamily hp hp' hpid
    exact ⟨p', hp', hpid, .kept _ hpgrp hsession hleader hexec⟩
  | call c hcall =>
    cases call_effect hcall with
    | fail => exact ⟨p, hp, rfl, .kept _ rfl rfl rfl id⟩
    | @setpgid me q n pid pgid first security hme hq hmove hjoin =>
      refine ⟨_, List.mem_map_of_mem hp, ?_, ?_⟩
      · split <;> rfl
      · split
        · next hpid =>
          obtain rfl := h.eq_of_pid hp hq hpid
          obtain ⟨hwho, hleader⟩ := hmove
          refine .moved pid pgid first security ?_ rfl hleader
          obtain ⟨hparent, -, hexec⟩ | ⟨-, hself⟩ := hwho
          · exact .inr ⟨hparent.symm, hexec⟩
          · exact .inl hself.symm
        · exact .kept _ rfl rfl rfl id
    | @setsid me hme hleader hfree =>
      refine ⟨_, List.mem_map_of_mem hp, ?_, ?_⟩
      · split <;> rfl
      · split
        · next hpid =>
          obtain rfl := h.eq_of_pid hp hme hpid
          exact .founded hleader rfl
        · exact .kept _ rfl rfl rfl id

/-- The runs in which `P` holds of every call, if it is one, and of the table after each step. -/
def RunWith (env : Table → Table → Prop) (P : Option Call → Table → Prop) : Table → Table → Prop :=
  ReflTransGen fun s s' => ∃ e, P e s' ∧ Step env s e s'

/-- A process in a run through which it lives. Each step adds to what `Q` says. -/
theorem exists_of_runWith (henv : Environment env) {P : Option Call → Table → Prop} {Q : Proc → Prop}
    (h : Orderly s) (hp : p ∈ s.procs) (hQ : Q p) (hlives : ∀ e t, P e t → Lives p.pid t)
    (hfate : ∀ q q' e t, P e t → q.pid = p.pid → Q q → Fate q q' e → Q q')
    (hrun : RunWith env P s s') : ∃ p' ∈ s'.procs, p'.pid = p.pid ∧ Q p' := by
  have hboth : Orderly s' ∧ ∃ p' ∈ s'.procs, p'.pid = p.pid ∧ Q p' := by
    refine run_invariant (P := fun s' => Orderly s' ∧ ∃ p' ∈ s'.procs, p'.pid = p.pid ∧ Q p') ?_
      ⟨h, p, hp, rfl, hQ⟩ hrun
    rintro s₁ s₂ ⟨h₁, q, hq, hpid, hQq⟩ ⟨e, he, hstep⟩
    have hlives₂ := hlives e s₂ he
    rw [← hpid] at hlives₂
    obtain ⟨q', hq', hpid', hf⟩ := exists_fate henv h₁ hstep hq hlives₂
    exact ⟨h₁.step henv hstep, q', hq', hpid'.trans hpid, hfate q q' e s₂ he hpid hQq hf⟩
  exact hboth.2

theorem Orderly.runWith {P : Option Call → Table → Prop} (h : Orderly s) (henv : Environment env)
    (hrun : RunWith env P s s') : Orderly s' := by
  apply run_invariant _ h hrun
  rintro s s' h ⟨e, -, he⟩
  exact h.step henv he

end Fates

section Lifecycle

variable {s s' : Table} {p : Proc}

def Free (s : Table) (n : ℕ) : Prop :=
  n ≠ 0 ∧ ∀ p ∈ s.procs, n ≠ p.pid ∧ n ≠ p.pgrp ∧ n ≠ p.session

instance (s : Table) (n : ℕ) : Decidable (Free s n) := by
  unfold Free
  infer_instance

inductive Lifecycle (s : Table) : Table → Prop
  | fork (me : Proc) (child : ℕ) (hme : me ∈ s.procs) (hfree : Free s child) :
    Lifecycle s { s with procs := ⟨child, me.pid, me.pgrp, me.session, false, true⟩ :: s.procs }
  | exec (pid : ℕ) : Lifecycle s (s.update pid fun p => { p with forknoexec := false })
  | release (pid : ℕ) : Lifecycle s { s with procs := s.procs.filter fun p => p.pid ≠ pid }

theorem Lifecycle.family (h : Lifecycle s s') (hs : Family s) : Family s' := by
  cases h with
  | fork me child hme hfree =>
    obtain ⟨hzero, hfree⟩ := hfree
    refine ⟨?_, ?_, ?_⟩
    · rw [List.map_cons, List.nodup_cons]
      refine ⟨?_, hs.nodup⟩
      intro hmem
      obtain ⟨q, hq, rfl⟩ := List.mem_map.mp hmem
      exact (hfree q hq).1 rfl
    · rw [List.forall_mem_cons]
      exact ⟨hzero, hs.pid_ne_zero⟩
    · rw [List.forall_mem_cons]
      exact ⟨(hfree me hme).1.symm, hs.parent_ne⟩
  | exec pid => exact hs.update fun _ => ⟨rfl, rfl⟩
  | release pid =>
    refine ⟨hs.nodup.sublist (List.filter_sublist.map _), ?_, ?_⟩
    · intro p hp
      exact hs.pid_ne_zero p (List.mem_of_mem_filter hp)
    · intro p hp
      exact hs.parent_ne p (List.mem_of_mem_filter hp)

theorem Lifecycle.mem_cases (h : Lifecycle s s') (hp : p ∈ s'.procs) :
    (∃ q ∈ s.procs, p.pid = q.pid ∧ p.pgrp = q.pgrp ∧ p.session = q.session ∧ p.leader = q.leader ∧
      (p.forknoexec = true → q.forknoexec = true)) ∨
    Free s p.pid ∧ p.leader = false ∧ ∃ q ∈ s.procs, p.pgrp = q.pgrp ∧ p.session = q.session := by
  cases h with
  | fork me child hme hfree =>
    rcases List.mem_cons.mp hp with rfl | hold
    · exact .inr ⟨hfree, rfl, me, hme, rfl, rfl⟩
    · exact .inl ⟨p, hold, rfl, rfl, rfl, rfl, id⟩
  | exec pid =>
    obtain ⟨q, hq, rfl⟩ := List.mem_map.mp hp
    refine .inl ⟨q, hq, ?_⟩
    split
    · exact ⟨rfl, rfl, rfl, rfl, fun h => absurd h Bool.false_ne_true⟩
    · exact ⟨rfl, rfl, rfl, rfl, id⟩
  | release pid => exact .inl ⟨p, List.mem_of_mem_filter hp, rfl, rfl, rfl, rfl, id⟩

theorem environment_lifecycle : Environment Lifecycle where
  family := Lifecycle.family
  keeps := by
    intro s s' p p' hstep hs hp hp' hpid
    obtain ⟨q, hq, hsame, hpgrp, hsession, hleader, hexec⟩ | ⟨hfree, -⟩ := hstep.mem_cases hp'
    · obtain rfl := hs.eq_of_pid hp hq (hpid.symm.trans hsame)
      exact ⟨hpgrp, hsession, hleader, hexec⟩
    · exact absurd hpid (hfree.2 p hp).1
  joins := by
    intro s s' p hstep hnew
    obtain ⟨q, hq, hpid, -⟩ | ⟨-, hleader, hparent⟩ := hstep.mem_cases hnew.mem
    · exact absurd hpid.symm (hnew.pid_ne q hq)
    · exact ⟨hleader, hparent⟩
  fresh := by
    intro s s' p hstep hnew q hq
    obtain ⟨r, hr, hpid, -⟩ | ⟨hfree, -⟩ := hstep.mem_cases hnew.mem
    · exact absurd hpid.symm (hnew.pid_ne r hr)
    · exact ⟨(hfree.2 q hq).2.1.symm, (hfree.2 q hq).2.2.symm⟩

end Lifecycle

section Results

variable {env : Table → Table → Prop} {s s' : Table} {p me : Proc}

/-- The first process has started a shell, which leads a session and has forked a child. -/
def shell : Table where
  procs := [⟨3, 2, 2, 2, false, true⟩, ⟨2, 1, 2, 2, true, true⟩, ⟨1, 0, 0, 0, false, true⟩]
  threads := []

theorem run_shell : Run Lifecycle boot shell := by
  have hfork : Run Lifecycle boot ⟨[⟨2, 1, 0, 0, false, true⟩, ⟨1, 0, 0, 0, false, true⟩], []⟩ :=
    .single ⟨none, .other (.fork ⟨1, 0, 0, 0, false, true⟩ 2 (by decide) (by decide))⟩
  have hsetsid : Run Lifecycle boot ⟨[⟨2, 1, 2, 2, true, true⟩, ⟨1, 0, 0, 0, false, true⟩], []⟩ :=
    hfork.tail ⟨_, .call (.setsid 2) rfl⟩
  exact hsetsid.tail ⟨none, .other (.fork ⟨2, 1, 2, 2, true, true⟩ 3 (by decide) (by decide))⟩

/-- The groups and sessions of every state that the system can reach. Each group lies in one
session, which is the session of the process that the group is named after, and a session is led by
the process that it is named after. A new session and its group have their founder as only member. -/
theorem groups_within_sessions (henv : Environment env) (hrun : Run env boot s) :
    Grouped s ∧ ∀ me ∈ s.procs, ∀ n s', s.setsid me = .ok (n, s') →
      n = me.pid ∧ ∀ q ∈ s'.procs, (q.session = n ↔ q.pid = n) ∧ (q.pgrp = n ↔ q.pid = n) := by
  have h := boot_orderly.run henv hrun
  refine ⟨h.toGrouped, ?_⟩
  intro me hme n s' hok
  obtain ⟨hleader, hfree, rfl, rfl⟩ := setsid_eq_ok_iff.mp hok
  refine ⟨rfl, ?_⟩
  have hnone := h.session_ne_of_leader hme hleader
  simp only [Table.setSpecialPids, Table.update, List.forall_mem_map]
  intro q hq
  split
  · next hpid => simp [hpid]
  · next hpid => simp [hpid, hnone q hq, hfree q hq]

theorem groups_within_sessions_shell :
    Grouped shell ∧ ∀ n s', shell.setsid ⟨3, 2, 2, 2, false, true⟩ = .ok (n, s') →
      n = 3 ∧ ∀ q ∈ s'.procs, (q.session = n ↔ q.pid = n) ∧ (q.pgrp = n ↔ q.pid = n) :=
  ⟨(groups_within_sessions environment_lifecycle run_shell).1,
    (groups_within_sessions environment_lifecycle run_shell).2 ⟨3, 2, 2, 2, false, true⟩ (by decide)⟩

theorem Orderly.mayMove_iff (h : Orderly s) (hme : me ∈ s.procs) (hp : p ∈ s.procs) :
    MayMove me p ↔ (p = me ∨ p.parent = me.pid ∧ p.session = me.session ∧ p.forknoexec = true) ∧
      p.leader = false := by
  rw [MayMove]
  apply and_congr_left'
  constructor
  · rintro (hchild | ⟨-, hpid⟩)
    · exact .inr hchild
    · exact .inl (h.eq_of_pid hp hme hpid)
  · rintro (rfl | hchild)
    · exact .inr ⟨h.parent_ne p hp, rfl⟩
    · exact .inl hchild

/-- Whichever member of a group the kernel finds first, its session is the same. -/
theorem Orderly.pidTask_session_iff (h : Orderly s) (first : ℕ) (pgid : ℤ) (session : ℕ) :
    (∃ g, s.pidTask first pgid = some g ∧ g.session = session) ↔
      ∃ q ∈ s.procs, (q.pgrp : ℤ) = pgid ∧ q.session = session := by
  constructor
  · rintro ⟨g, hg, hsession⟩
    obtain ⟨hmem, hpgrp⟩ := mem_of_pidTask hg
    exact ⟨g, hmem, hpgrp, hsession⟩
  · rintro ⟨q, hq, hpgrp, hsession⟩
    cases hfound : s.pidTask first pgid with
    | none => exact absurd hpgrp (pidTask_eq_none_iff.mp hfound q hq)
    | some g =>
      obtain ⟨hmem, hpgrp'⟩ := mem_of_pidTask hfound
      have hsame : g.pgrp = q.pgrp := by exact_mod_cast hpgrp'.trans hpgrp.symm
      exact ⟨g, rfl, (h.session_of_pgrp g hmem q hq hsame).trans hsession⟩

/-- When `setpgid` succeeds in a state that the system can reach. Whichever member of a group the
kernel finds first, the answer is the same: the caller may move itself and its children that have
not started a program, to the group of their own number or to a group of its session, but never
the leader of a session. -/
theorem setpgid_succeeds_iff (henv : Environment env) (hrun : Run env boot s) (hme : me ∈ s.procs)
    (pid pgid : ℤ) (first : ℕ) :
    (∃ s', s.setpgid me pid pgid first (.ok ()) = .ok s') ↔
      0 ≤ pgid ∧ ∃ p ∈ s.procs, ((p.pid : ℤ) = pid ∨ pid = 0 ∧ p = me) ∧
        (p = me ∨ p.parent = me.pid ∧ p.session = me.session ∧ p.forknoexec = true) ∧
        p.leader = false ∧
        (pgid = 0 ∨ pgid = p.pid ∨ ∃ q ∈ s.procs, (q.pgrp : ℤ) = pgid ∧ q.session = p.session) := by
  have h := boot_orderly.run henv hrun
  simp only [setpgid_eq_ok_iff _ _ rfl rfl, h.pidTask_session_iff]
  have htarget : ∀ p ∈ s.procs, s.proc (if pid = 0 then (me.pid : ℤ) else pid) = some p ↔
      ((p.pid : ℤ) = pid ∨ pid = 0 ∧ p = me) := by
    intro p hp
    have hpos := h.pid_ne_zero p hp
    split
    · next hzero =>
      rw [h.proc_of_mem hme, Option.some.injEq]
      constructor
      · rintro rfl
        exact .inr ⟨hzero, rfl⟩
      · rintro (heq | ⟨-, rfl⟩)
        · omega
        · rfl
    · next hzero =>
      constructor
      · intro hfind
        exact .inl (mem_of_proc hfind).2
      · rintro (rfl | ⟨heq, -⟩)
        · exact h.proc_of_mem hp
        · exact absurd heq hzero
  constructor
  · rintro ⟨s', hsign, p, hfind, hmove, hjoin, -, rfl⟩
    obtain ⟨hp, hpid⟩ := mem_of_proc hfind
    obtain ⟨hwho, hleader⟩ := (h.mayMove_iff hme hp).mp hmove
    have hsession := h.session_of_mayMove hme hp hmove
    rw [← hpid] at hsign hjoin
    refine ⟨by split at hsign <;> omega, p, hp, (htarget p hp).mp hfind, hwho, hleader, ?_⟩
    rw [hsession]
    split at hjoin
    · next hzero => exact .inl hzero
    · exact .inr hjoin
  · rintro ⟨hsign, p, hp, hpid, hwho, hleader, hjoin⟩
    have hmove := (h.mayMove_iff hme hp).mpr ⟨hwho, hleader⟩
    have hsession := h.session_of_mayMove hme hp hmove
    have hfind := (htarget p hp).mpr hpid
    refine ⟨_, ?_, p, hfind, hmove, ?_, trivial, rfl⟩
    · rw [← (mem_of_proc hfind).2]
      split <;> omega
    · rw [← (mem_of_proc hfind).2, ← hsession]
      split
      · exact .inl rfl
      · next hzero => exact hjoin.resolve_left hzero

/-- The shell puts its child into a group of its own, and cannot leave its own group. -/
theorem setpgid_succeeds_iff_shell :
    (∃ s', shell.setpgid ⟨2, 1, 2, 2, true, true⟩ 3 3 0 (.ok ()) = .ok s') ∧
    ¬∃ s', shell.setpgid ⟨2, 1, 2, 2, true, true⟩ 0 0 0 (.ok ()) = .ok s' := by
  constructor
  · apply (setpgid_succeeds_iff environment_lifecycle run_shell (by decide) 3 3 0).mpr
    exact ⟨by decide, ⟨3, 2, 2, 2, false, true⟩, by decide, by decide⟩
  · intro hok
    obtain ⟨-, p, hp, hpid, -, hleader, -⟩ :=
      (setpgid_succeeds_iff environment_lifecycle run_shell (by decide) 0 0 0).mp hok
    revert p
    decide

theorem proc_update {f : Proc → Proc} (hf : ∀ p, (f p).pid = p.pid) (n : ℕ) (pid : ℤ) :
    (s.update n f).proc pid = (s.proc pid).map fun p => if p.pid = n then f p else p := by
  rw [Table.proc, Table.update, List.find?_map, Table.proc]
  congr 2
  funext p
  rw [Function.comp_apply]
  split
  · rw [hf]
  · rfl

theorem findTaskByVpid_update {f : Proc → Proc} (hf : ∀ p, (f p).pid = p.pid) (n : ℕ) (pid : ℤ) :
    (s.update n f).findTaskByVpid pid = (s.findTaskByVpid pid).map fun found =>
      (if found.1.pid = n then f found.1 else found.1, found.2) := by
  rw [Table.findTaskByVpid, proc_update hf, Table.findTaskByVpid]
  cases s.proc pid with
  | some p => rfl
  | none =>
    change ((s.threads.find? fun t => (t.1 : ℤ) = pid).bind fun thread =>
      ((s.update n f).proc thread.2).bind fun p => some (p, false)) = _
    cases s.threads.find? fun t => (t.1 : ℤ) = pid with
    | none => rfl
    | some thread =>
      rw [Option.bind_some, proc_update hf]
      cases hproc : s.proc thread.2 <;> simp [hproc]

/-- What the other calls read after the group of a process has changed: every thread of the process
reads as the new group, all else as before. -/
theorem getpgid_changePgrp {k : ℤ} (hk : k ≠ 0) (n g : ℕ) (security : Except Errno Unit) :
    (s.changePgrp n g).getpgid me k security = (do
      let (p, _) ← orError (s.findTaskByVpid k) .esrch
      security
      return if p.pid = n then g else p.pgrp) ∧
    (s.changePgrp n g).getsid me k security = s.getsid me k security := by
  have hfind := findTaskByVpid_update (s := s) (f := fun p => { p with pgrp := g }) (fun _ => rfl) n k
  rw [Table.getpgid, if_neg hk, Table.getsid, if_neg hk, Table.getsid, if_neg hk, Table.changePgrp,
    hfind]
  cases s.findTaskByVpid k with
  | none => exact ⟨rfl, rfl⟩
  | some found =>
    cases security with
    | error e => exact ⟨rfl, rfl⟩
    | ok u =>
      constructor
      · change Except.ok (if found.1.pid = n then { found.1 with pgrp := g } else found.1).pgrp =
          Except.ok (if found.1.pid = n then g else found.1.pgrp)
        split <;> rfl
      · change Except.ok (if found.1.pid = n then { found.1 with pgrp := g } else found.1).session =
          Except.ok found.1.session
        split <;> rfl

/-- Along every run through which it lives, a process stays in its session or leads its own, a
leader stays the leader, and a process that has started a program changes its group and its session
only by its own calls. -/
theorem process_along_run (henv : Environment env) (hs : Run env boot s) (hp : p ∈ s.procs) :
    (∀ s', RunWith env (fun _ t => Lives p.pid t) s s' → ∃ p' ∈ s'.procs, p'.pid = p.pid ∧
      (p'.session = p.session ∨ p'.leader = true ∧ p'.session = p.pid) ∧
      (p.leader = true → p'.leader = true ∧ p'.session = p.pid ∧ p'.pgrp = p.pid)) ∧
    (p.forknoexec = false → ∀ s', RunWith env (fun e t => Lives p.pid t ∧
      e ≠ some (.setsid p.pid) ∧
      ∀ pid pgid first security, e ≠ some (.setpgid p.pid pid pgid first security)) s s' →
      ∃ p' ∈ s'.procs, p'.pid = p.pid ∧ p'.session = p.session ∧ p'.pgrp = p.pgrp) := by
  have h := boot_orderly.run henv hs
  constructor
  · intro s' hrun
    have hown := (h.runWith henv hrun).own_of_leader
    have hkept := exists_of_runWith henv (Q := fun q =>
      (q.session = p.session ∨ q.leader = true) ∧ (p.leader = true → q.leader = true)) h hp
      ⟨.inl rfl, id⟩ (fun _ _ hlives => hlives) ?_ hrun
    · obtain ⟨p', hp', hpid, hsession, hleader⟩ := hkept
      refine ⟨p', hp', hpid, ?_, ?_⟩
      · apply hsession.imp_right
        intro hl
        exact ⟨hl, ((hown p' hp' hl).2).trans hpid⟩
      · intro hl
        obtain ⟨hpgrp, hsession'⟩ := hown p' hp' (hleader hl)
        exact ⟨hleader hl, hsession'.trans hpid, hpgrp.trans hpid⟩
    · rintro q q' e t - - ⟨hsession, hleader⟩ hfate
      cases hfate with
      | kept _ _ hs hl _ => rw [hs, hl]; exact ⟨hsession, hleader⟩
      | moved _ _ _ _ _ hs hl =>
        rw [hl] at hsession hleader
        refine ⟨.inl (hs.trans (hsession.resolve_right Bool.false_ne_true)), ?_⟩
        intro hpl
        exact absurd (hleader hpl) Bool.false_ne_true
      | founded _ hl => exact ⟨.inr hl, fun _ => hl⟩
  · intro hexec s' hrun
    have hkept := exists_of_runWith henv (Q := fun q =>
      q.forknoexec = false ∧ q.session = p.session ∧ q.pgrp = p.pgrp) h hp
      ⟨hexec, rfl, rfl⟩ (fun _ _ hall => hall.1) ?_ hrun
    · obtain ⟨p', hp', hpid, -, hsession, hpgrp⟩ := hkept
      exact ⟨p', hp', hpid, hsession, hpgrp⟩
    · rintro q q' e t ⟨-, hsid, hpgid⟩ hpid ⟨hexec, hsession, hpgrp⟩ hfate
      cases hfate with
      | kept _ hg hs hl he =>
        refine ⟨?_, hs.trans hsession, hg.trans hpgrp⟩
        by_contra hne
        have htrue := he (by simpa using hne)
        rw [hexec] at htrue
        cases htrue
      | moved pid pgid first security hcaller hs hl =>
        exfalso
        obtain rfl | ⟨-, htrue⟩ := hcaller
        · rw [hpid] at hpgid
          exact hpgid pid pgid first security rfl
        · rw [hexec] at htrue
          cases htrue
      | founded =>
        rw [hpid] at hsid
        exact absurd rfl hsid

/-- The shell starts a program, and leads its session for as long as it lives. -/
theorem process_along_run_shell :
    Run Lifecycle boot shell ∧ Lifecycle shell (shell.update 2 fun p => { p with forknoexec := false }) ∧
    ∀ s', RunWith Lifecycle (fun _ t => Lives 2 t) shell s' →
      ∃ p' ∈ s'.procs, p'.pid = 2 ∧ p'.leader = true ∧ p'.session = 2 ∧ p'.pgrp = 2 := by
  refine ⟨run_shell, .exec 2, ?_⟩
  intro s' hrun
  obtain ⟨p', hp', hpid, -, hleader⟩ := (process_along_run environment_lifecycle run_shell
    (p := ⟨2, 1, 2, 2, true, true⟩) (by decide)).1 s' hrun
  exact ⟨p', hp', hpid, hleader rfl⟩

end Results

end EmbeddedSoftware.ProcessGroups
