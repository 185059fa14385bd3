import EmbeddedSoftware.HeldIdentities
import EmbeddedSoftware.RunRules
import EmbeddedSoftware.SystemCalls
import Mathlib.Algebra.Group.Nat.Defs
import Mathlib.Data.Int.Notation
import Mathlib.Logic.Function.Basic

/-!
# Resource limits

`do_prlimit` of `sys.c` with the calls around it: `prlimit64`, `setrlimit` and `getrlimit`, their
counterparts for 32-bit programs and `old_getrlimit`. An `unsigned long` has `w` bits. A soft limit
stays below its hard limit, with one exception, and no hard limit goes up without the capability.
-/

namespace EmbeddedSoftware.ResourceLimits

open Relation RunRules HeldIdentities SystemCalls

structure Rlimit (w : ℕ) where
  cur : BitVec w
  max : BitVec w
  deriving DecidableEq

abbrev Resource := Fin 16

def cpu : Resource := 0

def nofile : Resource := 7

/-- A task, with the process that it belongs to: the tasks of a process share one
`signal_struct`. A task that has ended has no `sighand`. -/
structure Task where
  tid : ℕ
  signal : ℕ
  sighand : Bool
  uids : Ids Kuid
  gids : Ids Kgid
  deriving DecidableEq

structure System (w : ℕ) where
  tasks : List Task
  limits : ℕ → Resource → Rlimit w
  nrOpen : UInt32

/-- What the rest of the kernel answers: whether the caller has `CAP_SYS_RESOURCE` in the
first namespace and in that of the other task, and what the security module says. -/
structure Answers where
  capable : Bool
  nsCapable : Bool
  setrlimit : Except Errno Unit
  prlimit : Except Errno Unit

section Calls

variable {w : ℕ}

def infinity (w : ℕ) : BitVec w := .allOnes w

def resourceOf (resource : ℕ) : Except Errno Resource :=
  if h : resource < 16 then .ok ⟨resource, h⟩ else .error .einval

namespace System

def setLimit (s : System w) (signal : ℕ) (r : Resource) (l : Rlimit w) : System w :=
  { s with limits := Function.update s.limits signal (Function.update (s.limits signal) r l) }

/-- A limit of no processor time is made one second, since `0` means that it was never set. -/
def cheat (r : Resource) (l : Rlimit w) : Rlimit w :=
  if r = cpu ∧ l.cur = 0 then { l with cur := 1 } else l

def checkNew (s : System w) (r : Resource) (l : Rlimit w) : Except Errno Unit := do
  require (l.cur ≤ l.max) .einval
  require (r = nofile → l.max.toNat ≤ s.nrOpen.toNat) .eperm

/-- `do_prlimit` returns the old limit. -/
def doPrlimit (s : System w) (tsk : Task) (resource : ℕ) (new : Option (Rlimit w)) (a : Answers) :
    Except Errno (Rlimit w × System w) := do
  let r ← resourceOf resource
  match new with
  | none =>
    require (tsk.sighand = true) .esrch
    return (s.limits tsk.signal r, s)
  | some l =>
    s.checkNew r l
    require (tsk.sighand = true) .esrch
    require (l.max ≤ (s.limits tsk.signal r).max ∨ a.capable = true) .eperm
    a.setrlimit
    return (s.limits tsk.signal r, s.setLimit tsk.signal r (cheat r l))

def after (s : System w) (outcome : Except Errno (System w)) : Except Errno Unit × System w :=
  match outcome with
  | .error e => (.error e, s)
  | .ok s' => (.ok (), s')

def setrlimit (s : System w) (me : Task) (resource : ℕ) (rlim : UserSource (Rlimit w))
    (a : Answers) : Except Errno Unit × System w :=
  s.after do
    let l ← copyFromUser rlim
    let (_, s') ← s.doPrlimit me resource (some l) a
    return s'

end System

/-- A value of a 32-bit program, where `COMPAT_RLIM_INFINITY` stands for no limit. -/
def fromCompat (w : ℕ) (v : BitVec 32) : BitVec w :=
  if v = .allOnes 32 then infinity w else v.setWidth w

def toCompat (v : BitVec w) : BitVec 32 :=
  if 0xFFFFFFFF < v.toNat then .allOnes 32 else v.setWidth 32

/-- `old_getrlimit` shows at most this much. -/
def toOld (v : BitVec w) : BitVec w :=
  if 0x7FFFFFFF < v.toNat then 0x7FFFFFFF#w else v

namespace System

/-- `compat_setrlimit`, where a `long` has 64 bits. -/
def compatSetrlimit (s : System w) (me : Task) (resource : ℕ) (rlim : UserSource (Rlimit 32))
    (a : Answers) : Except Errno Unit × System w :=
  s.after do
    let l ← copyFromUser rlim
    let (_, s') ← s.doPrlimit me resource (some ⟨fromCompat w l.cur, fromCompat w l.max⟩) a
    return s'

def oldGetrlimit (s : System w) (me : Task) (resource : ℕ) (rlim : UserSink) :
    Except Errno (Rlimit w) := do
  let r ← resourceOf resource
  let l := s.limits me.signal r
  copyToUser rlim
  return ⟨toOld l.cur, toOld l.max⟩

/-- The 32-bit program reads the same values. -/
def compatOldGetrlimit (s : System w) (me : Task) (resource : ℕ) (rlim : UserSink) :
    Except Errno (Rlimit 32) := do
  let l ← s.oldGetrlimit me resource rlim
  return ⟨l.cur.setWidth 32, l.max.setWidth 32⟩

end System

/-- `rlim64_is_infinity`, for a `long` of 32 and of 64 bits. -/
def rlim64IsInfinity (w : ℕ) (v : BitVec 64) : Bool :=
  if w < 64 then 2 ^ w - 1 ≤ v.toNat else v = infinity 64

def toRlim64 (v : BitVec w) : BitVec 64 :=
  if v = infinity w then infinity 64 else v.setWidth 64

def fromRlim64 (w : ℕ) (v : BitVec 64) : BitVec w :=
  if rlim64IsInfinity w v then infinity w else v.setWidth w

def rlimToRlim64 (l : Rlimit w) : Rlimit 64 := ⟨toRlim64 l.cur, toRlim64 l.max⟩

def rlim64ToRlim (w : ℕ) (l : Rlimit 64) : Rlimit w := ⟨fromRlim64 w l.cur, fromRlim64 w l.max⟩

def IdMatch (me tsk : Task) : Prop :=
  (me.uids.real = tsk.uids.effective ∧ me.uids.real = tsk.uids.saved ∧ me.uids.real = tsk.uids.real) ∧
  (me.gids.real = tsk.gids.effective ∧ me.gids.real = tsk.gids.saved ∧ me.gids.real = tsk.gids.real)

instance (me tsk : Task) : Decidable (IdMatch me tsk) := by
  unfold IdMatch
  infer_instance

def checkPrlimitPermission (me tsk : Task) (a : Answers) : Except Errno Unit :=
  if me = tsk then .ok ()
  else do
    require (IdMatch me tsk ∨ a.nsCapable = true) .eperm
    a.prlimit

namespace System

def taskOf (s : System w) (me : Task) (pid : ℤ) : Except Errno Task :=
  if pid = 0 then .ok me else orError (s.tasks.find? fun t => (t.tid : ℤ) = pid) .esrch

def newRlim (w : ℕ) : UserSource (Rlimit 64) → Except Errno (Option (Rlimit w))
  | .null => .ok none
  | .fault => .error .efault
  | .value l => .ok (some (rlim64ToRlim w l))

def showOld (old : UserSink) (l : Rlimit w) : Except Errno (Option (Rlimit 64)) :=
  if old = .null then .ok none
  else do
    copyToUser old
    return some (rlimToRlim64 l)

/-- The part of `prlimit64` up to the change. -/
def prlimit (s : System w) (me : Task) (pid : ℤ) (resource : ℕ) (new : UserSource (Rlimit 64))
    (a : Answers) : Except Errno (Rlimit w × System w) := do
  let new ← newRlim w new
  let tsk ← s.taskOf me pid
  checkPrlimitPermission me tsk a
  s.doPrlimit tsk resource new a

/-- `prlimit64` changes the limit before it copies the old one out, so that it can fail after the
change. -/
def prlimit64 (s : System w) (me : Task) (pid : ℤ) (resource : ℕ) (new : UserSource (Rlimit 64))
    (old : UserSink) (a : Answers) : Except Errno (Option (Rlimit 64)) × System w :=
  match s.prlimit me pid resource new a with
  | .error e => (.error e, s)
  | .ok (l, s') => (showOld old l, s')

end System

end Calls

inductive Request (w : ℕ) where
  | prlimit64 (pid : ℤ) (resource : ℕ) (new : UserSource (Rlimit 64)) (old : UserSink)
  | setrlimit (resource : ℕ) (rlim : UserSource (Rlimit w))
  | compatSetrlimit (resource : ℕ) (rlim : UserSource (Rlimit 32))

structure Call (w : ℕ) where
  caller : Task
  request : Request w
  answers : Answers

/-- The rest of the kernel lets the caller raise hard limits. -/
def Call.Privileged {w : ℕ} (c : Call w) : Prop := c.answers.capable = true

/-- The state after a call, whether it succeeds or not. -/
def System.serve {w : ℕ} (s : System w) (c : Call w) : System w :=
  match c.request with
  | .prlimit64 pid resource new old => (s.prlimit64 c.caller pid resource new old c.answers).2
  | .setrlimit resource rlim => (s.setrlimit c.caller resource rlim c.answers).2
  | .compatSetrlimit resource rlim => (s.compatSetrlimit c.caller resource rlim c.answers).2

/-- What is assumed of the rest of the kernel, which makes and ends tasks, changes their credentials
and `sysctl_nr_open`: the process of each task has the limits that a process had before, it itself
or, when it is new, its parent. -/
def Inherits {w : ℕ} (env : System w → System w → Prop) : Prop :=
  ∀ s s', env s s' → ∀ t' ∈ s'.tasks, ∃ t ∈ s.tasks, s'.limits t'.signal = s.limits t.signal

inductive Step {w : ℕ} (env : System w → System w → Prop) (P : Call w → Prop) (s : System w) :
    System w → Prop
  | call (c : Call w) (hP : P c) (hcaller : c.caller ∈ s.tasks) : Step env P s (s.serve c)
  | other {s' : System w} (henv : env s s') : Step env P s s'

def Run {w : ℕ} (env : System w → System w → Prop) (P : Call w → Prop) :
    System w → System w → Prop :=
  ReflTransGen (Step env P)

section Specs

variable {w : ℕ} {s s' : System w} {me tsk : Task} {r : Resource} {l old : Rlimit w} {a : Answers}
variable {resource : ℕ} {c : Call w}

theorem resourceOf_val (r : Resource) : resourceOf r = .ok r := by
  rw [resourceOf, dif_pos r.isLt]

theorem resourceOf_eq_ok_iff : resourceOf resource = .ok r ↔ resource = r := by
  constructor
  · intro h
    rw [resourceOf] at h
    split at h <;> cases h
    rfl
  · rintro rfl
    exact resourceOf_val r

theorem checkNew_eq_ok_iff {u : Unit} : s.checkNew r l = .ok u ↔
    l.cur ≤ l.max ∧ (r = nofile → l.max.toNat ≤ s.nrOpen.toNat) := by
  simp [System.checkNew, bind_eq_ok_iff, require_eq_ok_iff]

/-- What `do_prlimit` checks before it sets a limit. -/
theorem doPrlimit_some_eq_ok_iff : s.doPrlimit tsk resource (some l) a = .ok (old, s') ↔
    ∃ r : Resource, resource = r ∧ l.cur ≤ l.max ∧ (r = nofile → l.max.toNat ≤ s.nrOpen.toNat) ∧
      tsk.sighand = true ∧ (l.max ≤ (s.limits tsk.signal r).max ∨ a.capable = true) ∧
      a.setrlimit = .ok () ∧ old = s.limits tsk.signal r ∧
      s' = s.setLimit tsk.signal r (System.cheat r l) := by
  simp only [System.doPrlimit, bind_eq_ok_iff, require_eq_ok_iff, resourceOf_eq_ok_iff,
    checkNew_eq_ok_iff]
  constructor
  · rintro ⟨r, hr, -, ⟨hcur, hopen⟩, -, hsighand, -, hmax, ⟨⟩, hsecurity, hnew⟩
    cases hnew
    exact ⟨r, hr, hcur, hopen, hsighand, hmax, hsecurity, rfl, rfl⟩
  · rintro ⟨r, hr, hcur, hopen, hsighand, hmax, hsecurity, rfl, rfl⟩
    exact ⟨r, hr, (), ⟨hcur, hopen⟩, (), hsighand, (), hmax, (), hsecurity, rfl⟩

theorem doPrlimit_none_eq_ok_iff : s.doPrlimit tsk resource none a = .ok (old, s') ↔
    ∃ r : Resource, resource = r ∧ tsk.sighand = true ∧ old = s.limits tsk.signal r ∧ s' = s := by
  simp only [System.doPrlimit, bind_eq_ok_iff, require_eq_ok_iff, resourceOf_eq_ok_iff]
  constructor
  · rintro ⟨r, hr, -, hsighand, hnew⟩
    cases hnew
    exact ⟨r, hr, hsighand, rfl, rfl⟩
  · rintro ⟨r, hr, hsighand, rfl, rfl⟩
    exact ⟨r, hr, (), hsighand, rfl⟩

/-- The caller may set the limits of the task: its own, those of a task with the same identities,
or any with the capability. -/
def Authorised (me tsk : Task) (a : Answers) : Prop :=
  me = tsk ∨ IdMatch me tsk ∨ a.nsCapable = true

theorem authorised_of_check {u : Unit} (h : checkPrlimitPermission me tsk a = .ok u) :
    Authorised me tsk a := by
  rw [checkPrlimitPermission] at h
  split at h
  · next heq => exact .inl heq
  · obtain ⟨⟨⟩, hmatch, -⟩ := bind_eq_ok_iff.mp h
    exact .inr (require_eq_ok_iff.mp hmatch)

structure Allowed (s : System w) (tsk : Task) (r : Resource) (l : Rlimit w) (capable : Prop) : Prop where
  cur_le : l.cur ≤ l.max
  nofile : r = nofile → l.max.toNat ≤ s.nrOpen.toNat
  max_le : l.max ≤ (s.limits tsk.signal r).max ∨ capable

inductive Effect (s : System w) (c : Call w) : System w → Prop
  | keep : Effect s c s
  | set {tsk : Task} {r : Resource} {l : Rlimit w} (htsk : tsk ∈ s.tasks)
    (hauthorised : Authorised c.caller tsk c.answers) (hallowed : Allowed s tsk r l c.Privileged) :
    Effect s c (s.setLimit tsk.signal r (System.cheat r l))

theorem mem_of_taskOf {pid : ℤ} (hme : me ∈ s.tasks) (h : s.taskOf me pid = .ok tsk) :
    tsk ∈ s.tasks := by
  rw [System.taskOf] at h
  split at h
  · cases h
    exact hme
  · exact List.mem_of_find?_eq_some (orError_eq_ok_iff.mp h)

theorem after_effect {outcome : Except Errno (System w)}
    (h : ∀ s', outcome = .ok s' → Effect s c s') : Effect s c (s.after outcome).2 := by
  cases outcome with
  | error _ => exact .keep
  | ok s' => exact h s' rfl

theorem doPrlimit_effect (htsk : tsk ∈ s.tasks) (hauthorised : Authorised c.caller tsk c.answers)
    (h : s.doPrlimit tsk resource (some l) c.answers = .ok (old, s')) : Effect s c s' := by
  obtain ⟨r, -, hcur, hopen, -, hmax, -, -, rfl⟩ := doPrlimit_some_eq_ok_iff.mp h
  exact .set htsk hauthorised ⟨hcur, hopen, hmax⟩

theorem prlimit64_effect {pid : ℤ} {new : UserSource (Rlimit 64)} {sink : UserSink}
    (hme : c.caller ∈ s.tasks) :
    Effect s c (s.prlimit64 c.caller pid resource new sink c.answers).2 := by
  rw [System.prlimit64]
  cases hcall : s.prlimit c.caller pid resource new c.answers with
  | error e => exact .keep
  | ok result =>
    obtain ⟨old, s'⟩ := result
    obtain ⟨new', hnew, hcall⟩ := bind_eq_ok_iff.mp hcall
    obtain ⟨tsk, htsk, hcall⟩ := bind_eq_ok_iff.mp hcall
    obtain ⟨⟨⟩, hcheck, hcall⟩ := bind_eq_ok_iff.mp hcall
    cases new' with
    | none =>
      obtain ⟨r, -, -, -, rfl⟩ := doPrlimit_none_eq_ok_iff.mp hcall
      exact .keep
    | some l => exact doPrlimit_effect (mem_of_taskOf hme htsk) (authorised_of_check hcheck) hcall

/-- The calls that copy a limit in and set it for their caller. -/
theorem copied_effect {α : Type} (limit : Except Errno α) (convert : α → Rlimit w)
    (hme : c.caller ∈ s.tasks) :
    Effect s c (s.after do
      let l ← limit
      let (_, s') ← s.doPrlimit c.caller resource (some (convert l)) c.answers
      return s').2 := by
  apply after_effect
  intro s' h
  obtain ⟨l, -, h⟩ := bind_eq_ok_iff.mp h
  obtain ⟨⟨old, s''⟩, hcall, h⟩ := bind_eq_ok_iff.mp h
  cases h
  exact doPrlimit_effect hme (.inl rfl) hcall

theorem serve_effect (hme : c.caller ∈ s.tasks) : Effect s c (s.serve c) := by
  rw [System.serve]
  split
  · exact prlimit64_effect hme
  · exact copied_effect _ id hme
  · exact copied_effect _ _ hme

end Specs

section Order

variable {w : ℕ} {s s' : System w} {r : Resource} {l : Rlimit w} {c : Call w}
variable {env : System w → System w → Prop}

/-- The soft limit is below the hard one. A limit of no processor time is the exception: the soft
limit has become one second. -/
def Ordered (r : Resource) (l : Rlimit w) : Prop :=
  l.cur ≤ l.max ∨ r = cpu ∧ l.cur = 1 ∧ l.max = 0

theorem ordered_cheat (h : l.cur ≤ l.max) : Ordered r (System.cheat r l) := by
  rw [System.cheat]
  split
  · next hcpu =>
    by_cases hmax : l.max = 0
    · exact .inr ⟨hcpu.1, rfl, hmax⟩
    · left
      have hone : (1 : BitVec w).toNat ≤ 1 := Nat.mod_le 1 _
      have hpos : l.max.toNat ≠ 0 := by
        intro hzero
        exact hmax (BitVec.eq_of_toNat_eq (by simpa using hzero))
      change (1 : BitVec w).toNat ≤ l.max.toNat
      omega
  · exact .inl h

theorem max_cheat (r : Resource) (l : Rlimit w) : (System.cheat r l).max = l.max := by
  rw [System.cheat]
  split <;> rfl

theorem limits_setLimit (s : System w) (signal p : ℕ) (r r' : Resource) (l : Rlimit w) :
    (s.setLimit signal r l).limits p r' =
      if p = signal ∧ r' = r then l else s.limits p r' := by
  change Function.update s.limits signal (Function.update (s.limits signal) r l) p r' = _
  by_cases hp : p = signal
  · subst hp
    rw [Function.update_self, Function.update_apply]
    simp
  · rw [Function.update_of_ne hp]
    simp [hp]

theorem tasks_serve (hcaller : c.caller ∈ s.tasks) : (s.serve c).tasks = s.tasks := by
  have heffect := serve_effect hcaller
  generalize s.serve c = s' at heffect ⊢
  cases heffect with
  | keep => rfl
  | set => rfl

def AllOrdered (s : System w) : Prop := ∀ t ∈ s.tasks, ∀ r, Ordered r (s.limits t.signal r)

theorem AllOrdered.step (henv : Inherits env) {P : Call w → Prop} (hs : AllOrdered s)
    (hstep : Step env P s s') : AllOrdered s' := by
  cases hstep with
  | call c hP hcaller =>
    have heffect := serve_effect hcaller
    generalize s.serve c = s' at heffect ⊢
    cases heffect with
    | keep => exact hs
    | set htsk hauthorised hallowed =>
      intro t ht r
      rw [limits_setLimit]
      split
      · next h =>
        rw [h.2]
        exact ordered_cheat hallowed.cur_le
      · exact hs t ht r
  | other hother =>
    intro t' ht' r
    obtain ⟨t, ht, hlimits⟩ := henv s s' hother t' ht'
    rw [hlimits]
    exact hs t ht r

/-- The hard limits of a process are at most those of one process of another state. -/
def MaxBelow (s s' : System w) : Prop :=
  ∀ t' ∈ s'.tasks, ∃ t ∈ s.tasks, ∀ r, (s'.limits t'.signal r).max ≤ (s.limits t.signal r).max

theorem MaxBelow.trans {s₁ s₂ s₃ : System w} (h₁ : MaxBelow s₁ s₂) (h₂ : MaxBelow s₂ s₃) :
    MaxBelow s₁ s₃ := by
  intro t₃ ht₃
  obtain ⟨t₂, ht₂, hle₂⟩ := h₂ t₃ ht₃
  obtain ⟨t₁, ht₁, hle₁⟩ := h₁ t₂ ht₂
  exact ⟨t₁, ht₁, fun r => BitVec.le_trans (hle₂ r) (hle₁ r)⟩

theorem maxBelow_step (henv : Inherits env) (hstep : Step env (fun c => ¬c.Privileged) s s') :
    MaxBelow s s' := by
  intro t' ht'
  cases hstep with
  | call c hP hcaller =>
    rw [tasks_serve hcaller] at ht'
    refine ⟨t', ht', fun r' => ?_⟩
    have heffect := serve_effect hcaller
    generalize s.serve c = s' at heffect ⊢
    cases heffect with
    | keep => exact BitVec.le_refl _
    | set htsk hauthorised hallowed =>
      rw [limits_setLimit]
      split
      · next h =>
        rw [max_cheat, h.1, h.2]
        exact hallowed.max_le.resolve_right hP
      · exact BitVec.le_refl _
  | other hother =>
    obtain ⟨t, ht, hlimits⟩ := henv s s' hother t' ht'
    rw [hlimits]
    exact ⟨t, ht, fun r => BitVec.le_refl _⟩

/-- Who changes a limit by a call is authorised. -/
theorem authorised_of_changed {p : ℕ} (hcaller : c.caller ∈ s.tasks)
    (hchanged : (s.serve c).limits p r ≠ s.limits p r) :
    ∃ tsk ∈ s.tasks, tsk.signal = p ∧ Authorised c.caller tsk c.answers := by
  have heffect := serve_effect hcaller
  generalize s.serve c = s' at heffect hchanged
  cases heffect with
  | keep => exact absurd rfl hchanged
  | @set tsk _ _ htsk hauthorised hallowed =>
    rw [limits_setLimit] at hchanged
    split at hchanged
    · next h => exact ⟨tsk, htsk, h.1.symm, hauthorised⟩
    · exact absurd rfl hchanged

/-- The limits along every run of calls, between which the rest of the kernel lets processes inherit
limits. A soft limit stays below its hard limit, apart from the pair of one second and none. While no
caller has the capability, the hard limits of each process stay below those that one process had at
the start. And a call changes only limits of tasks that its caller is authorised for. -/
theorem limits_along_run (henv : Inherits env) (s : System w) (hs : AllOrdered s) :
    (∀ s', Run env (fun _ => True) s s' → AllOrdered s') ∧
    (∀ s', Run env (fun c => ¬c.Privileged) s s' → ∀ t' ∈ s'.tasks, ∃ t ∈ s.tasks,
      ∀ r, (s'.limits t'.signal r).max ≤ (s.limits t.signal r).max) ∧
    ∀ s', Run env (fun _ => True) s s' → ∀ c, c.caller ∈ s'.tasks → ∀ p r,
      (s'.serve c).limits p r ≠ s'.limits p r →
        ∃ tsk ∈ s'.tasks, tsk.signal = p ∧ Authorised c.caller tsk c.answers := by
  refine ⟨?_, ?_, fun s' _ c hcaller p r => authorised_of_changed hcaller⟩
  · intro s' hrun
    apply run_invariant _ hs hrun
    intro s₁ s₂ h₁ hstep
    exact h₁.step henv hstep
  · intro s' hrun
    refine run_invariant (P := MaxBelow s) ?_ (fun t ht => ⟨t, ht, fun r => BitVec.le_refl _⟩) hrun
    intro s₁ s₂ h₁ hstep
    exact h₁.trans (maxBelow_step henv hstep)

def ordinary : Task := ⟨1, 1, true, .constant ⟨1000⟩, .constant ⟨1000⟩⟩

def consent : Answers := ⟨false, false, .ok (), .ok ()⟩

def unlimited (w : ℕ) : System w where
  tasks := [ordinary]
  limits _ _ := ⟨infinity w, infinity w⟩
  nrOpen := 1048576

/-- A fork, after which the child has the limits of its parent. -/
def Forks (s s' : System w) : Prop :=
  ∃ parent ∈ s.tasks, ∃ child : Task, s' = { s with
    tasks := child :: s.tasks
    limits := Function.update s.limits child.signal (s.limits parent.signal) }

theorem inherits_forks : Inherits (Forks (w := w)) := by
  rintro s - ⟨parent, hparent, child, rfl⟩ t' ht'
  by_cases hnew : t'.signal = child.signal
  · refine ⟨parent, hparent, ?_⟩
    rw [hnew]
    exact Function.update_self ..
  · rcases List.mem_cons.mp ht' with rfl | hold
    · exact absurd rfl hnew
    · exact ⟨t', hold, Function.update_of_ne hnew _ _⟩

/-- The exception can be reached, and handed down to a child. -/
theorem limits_along_run_unlimited :
    (∀ s', Run Forks (fun _ => True) (unlimited 64) s' → AllOrdered s') ∧
    ∃ s', Run Forks (fun _ => True) (unlimited 64) s' ∧ s'.limits 2 cpu = ⟨1, 0⟩ := by
  refine ⟨(limits_along_run inherits_forks (unlimited 64)
    fun _ _ _ => .inl (BitVec.le_refl _)).1, ?_⟩
  have hset : Run Forks (fun _ => True) (unlimited 64)
      ((unlimited 64).serve ⟨ordinary, .setrlimit 0 (.value ⟨0, 0⟩), consent⟩) :=
    .single (.call _ trivial List.mem_cons_self)
  refine ⟨_, hset.tail (.other ⟨ordinary, List.mem_cons_self, { ordinary with tid := 2, signal := 2 },
    rfl⟩), ?_⟩
  decide

end Order

section RoundTrips

variable {w : ℕ}

theorem rlim64IsInfinity_iff (hw : w ≤ 64) (v : BitVec 64) :
    rlim64IsInfinity w v = true ↔ 2 ^ w - 1 ≤ v.toNat := by
  rw [rlim64IsInfinity]
  split
  · simp
  · next h =>
    obtain rfl : w = 64 := by omega
    have hlt := v.isLt
    constructor
    · intro heq
      simp [of_decide_eq_true heq, infinity]
    · intro hle
      apply decide_eq_true
      apply BitVec.eq_of_toNat_eq
      rw [infinity, BitVec.toNat_allOnes]
      omega

/-- What `prlimit64` shows of a value that it has set: the value, or no limit where a `long` cannot
hold it. -/
theorem toRlim64_fromRlim64 (hw : w ≤ 64) (v : BitVec 64) :
    toRlim64 (fromRlim64 w v) = if 2 ^ w - 1 ≤ v.toNat then infinity 64 else v := by
  rw [fromRlim64]
  by_cases hinf : 2 ^ w - 1 ≤ v.toNat
  · rw [if_pos hinf, (rlim64IsInfinity_iff hw v).mpr hinf, if_pos rfl, toRlim64, if_pos rfl]
  · have hfinite : rlim64IsInfinity w v = false := by
      rw [← Bool.not_eq_true, rlim64IsInfinity_iff hw]
      exact hinf
    have hlt : v.toNat < 2 ^ w := by omega
    rw [if_neg hinf, hfinite, if_neg Bool.false_ne_true, toRlim64, if_neg]
    · apply BitVec.eq_of_toNat_eq
      rw [BitVec.toNat_setWidth, BitVec.toNat_setWidth, Nat.mod_eq_of_lt hlt,
        Nat.mod_eq_of_lt v.isLt]
    · intro heq
      have htoNat := congrArg BitVec.toNat heq
      rw [BitVec.toNat_setWidth, Nat.mod_eq_of_lt hlt, infinity, BitVec.toNat_allOnes] at htoNat
      omega

theorem fromRlim64_eq_zero_iff (hw : w = 32 ∨ w = 64) (v : BitVec 64) :
    fromRlim64 w v = 0 ↔ v = 0 := by
  have hback := toRlim64_fromRlim64 (w := w) (by omega) v
  have hzero : toRlim64 (0 : BitVec w) = 0 := by
    rcases hw with rfl | rfl <;> decide
  have hkeep : fromRlim64 w (0 : BitVec 64) = 0 := by
    rcases hw with rfl | rfl <;> decide
  constructor
  · intro h
    rw [h, hzero] at hback
    split at hback
    · exact absurd hback (by decide)
    · exact hback.symm
  · rintro rfl
    exact hkeep

def shown (w : ℕ) (r : Resource) (l : Rlimit 64) : Rlimit 64 where
  cur := if r = cpu ∧ l.cur = 0 then 1
    else if 2 ^ w - 1 ≤ l.cur.toNat then infinity 64 else l.cur
  max := if 2 ^ w - 1 ≤ l.max.toNat then infinity 64 else l.max

theorem rlimToRlim64_cheat (hw : w = 32 ∨ w = 64) (r : Resource) (l : Rlimit 64) :
    rlimToRlim64 (System.cheat r (rlim64ToRlim w l)) = shown w r l := by
  have hle : w ≤ 64 := by omega
  have hone : toRlim64 (1 : BitVec w) = 1 := by
    rcases hw with rfl | rfl <;> decide
  have hzero : r = cpu ∧ (rlim64ToRlim w l).cur = 0 ↔ r = cpu ∧ l.cur = 0 :=
    and_congr_right fun _ => fromRlim64_eq_zero_iff hw l.cur
  rw [System.cheat, shown]
  by_cases hcpu : r = cpu ∧ l.cur = 0
  · rw [if_pos (hzero.mpr hcpu), if_pos hcpu, rlimToRlim64, hone, rlim64ToRlim,
      toRlim64_fromRlim64 hle]
  · rw [if_neg (mt hzero.mp hcpu), if_neg hcpu, rlimToRlim64, rlim64ToRlim,
      toRlim64_fromRlim64 hle, toRlim64_fromRlim64 hle]

theorem taskOf_setLimit (s : System w) (me : Task) (pid : ℤ) (signal : ℕ) (r : Resource)
    (l : Rlimit w) : (s.setLimit signal r l).taskOf me pid = s.taskOf me pid := rfl

/-- A limit that `prlimit64` has set reads as it was set by all who may read it, whatever the width
of a `long`. Values that a `long` cannot hold read as no limit, and no processor time as one
second. -/
theorem prlimit64_reads_what_was_set (hw : w = 32 ∨ w = 64) (s : System w) (me : Task) (pid : ℤ)
    (resource : ℕ) (l : Rlimit 64) (sink : UserSink) (a : Answers)
    (hset : (s.prlimit64 me pid resource (.value l) sink a).1.isOk = true) :
    ∃ (r : Resource) (tsk : Task), resource = r ∧ s.taskOf me pid = .ok tsk ∧
      ∀ (reader : Task) (pid' : ℤ) (a' : Answers), s.taskOf reader pid' = .ok tsk →
        ((s.prlimit64 me pid resource (.value l) sink a).2.prlimit64 reader pid' resource .null
          .valid a').1 =
          (checkPrlimitPermission reader tsk a').map fun _ => some (shown w r l) := by
  rw [System.prlimit64] at hset ⊢
  cases hcall : s.prlimit me pid resource (.value l) a with
  | error e =>
    rw [hcall] at hset
    cases hset
  | ok result =>
    obtain ⟨old, s'⟩ := result
    obtain ⟨new, hnew, hcall⟩ := bind_eq_ok_iff.mp hcall
    obtain ⟨tsk, htsk, hcall⟩ := bind_eq_ok_iff.mp hcall
    obtain ⟨⟨⟩, -, hcall⟩ := bind_eq_ok_iff.mp hcall
    cases hnew
    obtain ⟨r, rfl, -, -, hsighand, -, -, -, rfl⟩ := doPrlimit_some_eq_ok_iff.mp hcall
    refine ⟨r, tsk, rfl, htsk, ?_⟩
    intro reader pid' a' hreader
    have hread : (s.setLimit tsk.signal r (System.cheat r (rlim64ToRlim w l))).doPrlimit tsk r none a' =
        .ok (System.cheat r (rlim64ToRlim w l),
          s.setLimit tsk.signal r (System.cheat r (rlim64ToRlim w l))) := by
      apply doPrlimit_none_eq_ok_iff.mpr
      refine ⟨r, rfl, hsighand, ?_, rfl⟩
      rw [limits_setLimit, if_pos ⟨rfl, rfl⟩]
    have hprlimit : (s.setLimit tsk.signal r (System.cheat r (rlim64ToRlim w l))).prlimit reader pid' r
        .null a' = (checkPrlimitPermission reader tsk a').bind fun _ =>
          .ok (System.cheat r (rlim64ToRlim w l),
            s.setLimit tsk.signal r (System.cheat r (rlim64ToRlim w l))) := by
      rw [System.prlimit, taskOf_setLimit, hreader]
      change (checkPrlimitPermission reader tsk a').bind (fun _ => _) = _
      rw [hread]
    rw [System.prlimit64, hprlimit]
    cases checkPrlimitPermission reader tsk a' with
    | error e => rfl
    | ok u =>
      change Except.ok (some (rlimToRlim64 (System.cheat r (rlim64ToRlim w l)))) = _
      rw [rlimToRlim64_cheat hw]
      rfl

/-- A limit of `2 ^ 32` bytes of data is none to a `long` of 32 bits. -/
theorem prlimit64_reads_what_was_set_unlimited :
    ((((unlimited 32).prlimit64 ordinary 0 2 (.value ⟨5, 0x100000000⟩) .null consent).2).prlimit64
      ordinary 0 2 .null .valid consent).1 = .ok (some ⟨5, infinity 64⟩) := by
  obtain ⟨r, tsk, hr, htsk, hread⟩ := prlimit64_reads_what_was_set (.inl rfl) (unlimited 32) ordinary
    0 2 ⟨5, 0x100000000⟩ .null consent (by decide)
  cases htsk
  obtain rfl : r = 2 := Fin.ext hr.symm
  rw [hread ordinary 0 consent rfl]
  decide

end RoundTrips

section WritingBack

variable {s : System 64} {me : Task} {r : Resource} {a : Answers}

end WritingBack

end EmbeddedSoftware.ResourceLimits
