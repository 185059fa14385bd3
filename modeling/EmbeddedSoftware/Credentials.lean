import EmbeddedSoftware.HeldIdentities
import EmbeddedSoftware.RunRules
import EmbeddedSoftware.SystemCalls

/-!
# The credentials of a task

The calls of `sys.c` that change the identities of their caller: `setreuid`, `setuid`,
`setresuid` and `setfsuid`, and their counterparts for groups. Each of them prepares a copy of the
credentials, changes it and commits it. A task without capabilities can only move the identities
around that it holds.
-/

namespace EmbeddedSoftware.Credentials

open Relation RunRules HeldIdentities SystemCalls

/-- The capabilities of a task. Only permitted ones are effective. -/
structure Caps where
  permitted : Capability → Bool
  effective : Capability → Bool
  permitted_of_effective : ∀ c, effective c = true → permitted c = true

structure Cred where
  uids : Ids Kuid
  gids : Ids Kgid
  caps : Caps

structure Task where
  cred : Cred
  nprocExceeded : Bool

/-- What `security_task_fix_setuid` does to the capabilities: it may take some away, and any that
are left may become effective. -/
structure Fixup where
  keep : Capability → Bool
  raise : Capability → Bool

def Fixup.apply (f : Fixup) (caps : Caps) : Caps where
  permitted c := caps.permitted c && f.keep c
  effective c := caps.permitted c && f.keep c && f.raise c
  permitted_of_effective := by
    intro c h
    exact (Bool.and_eq_true_iff.mp h).1

/-- What the rest of the kernel answers during a call: whether `prepare_creds` gets memory, whether
the security module lets an effective capability pass, whether `alloc_uid` gets memory and the new
user has reached the limit of processes, and what the security module makes of the change. -/
structure Answers where
  prepared : Bool
  granted : Bool
  allocated : Bool
  exceeded : Bool
  fixup : Except Errno Fixup

def Answers.prepare (a : Answers) : Except Errno Unit :=
  if a.prepared then .ok () else .error .enomem

def Answers.nsCapable (a : Answers) (t : Task) (cap : Capability) : Bool :=
  t.cred.caps.effective cap && a.granted

section Family

variable {K : Type} [DecidableEq K]

/-- An identity that is asked for has to be one of those that the caller may choose, unless the
caller has the capability. -/
def choose (current : K) (allowed : List K) (capable : Bool) : Option K → Except Errno K
  | none => .ok current
  | some k => if k ∈ allowed ∨ capable = true then .ok k else .error .eperm

/-- The identities after `setreuid` and `setregid`. -/
def setre (old : Ids K) (capable : Bool) (r e : Option K) : Except Errno (Ids K) := do
  let real ← choose old.real [old.real, old.effective] capable r
  let effective ← choose old.effective [old.real, old.effective, old.saved] capable e
  let saved := if r.isSome ∨ (e.isSome ∧ e ≠ some old.real) then effective else old.saved
  return ⟨real, effective, saved, effective⟩

/-- The identities after `setuid` and `setgid`. -/
def setid (old : Ids K) (capable : Bool) (k : K) : Except Errno (Ids K) :=
  if capable then .ok (.constant k)
  else if k = old.real ∨ k = old.saved then .ok { old with effective := k, fs := k }
  else .error .eperm

/-- The identities after `setresuid` and `setresgid`. -/
def setres (old : Ids K) (capable : Bool) (r e s : Option K) : Except Errno (Ids K) := do
  let allowed := [old.real, old.effective, old.saved]
  let real ← choose old.real allowed capable r
  let effective ← choose old.effective allowed capable e
  let saved ← choose old.saved allowed capable s
  return ⟨real, effective, saved, effective⟩

/-- The identities after `setfsuid` and `setfsgid`, if there is a change to make. -/
def setfs (old : Ids K) (capable : Bool) (k : K) : Option (Ids K) :=
  if (k ∈ [old.real, old.effective, old.saved, old.fs] ∨ capable = true) ∧ k ≠ old.fs then
    some { old with fs := k }
  else none

end Family

namespace Task

/-- `set_user`, where the real identity changes, then the security module, then `commit_creds`.
The flag of the task is set before the security module is asked. -/
def commitUids (t : Task) (a : Answers) (new : Ids Kuid) : Except Errno UInt32 × Task :=
  let changed : Bool := new.real ≠ t.cred.uids.real
  if changed && !a.allocated then (.error .eagain, t)
  else
    let t := if changed then { t with nprocExceeded := a.exceeded } else t
    match a.fixup with
    | .error e => (.error e, t)
    | .ok f => (.ok 0, { t with cred := { t.cred with uids := new, caps := f.apply t.cred.caps } })

def commitGids (t : Task) (new : Ids Kgid) : Except Errno UInt32 × Task :=
  (.ok 0, { t with cred := { t.cred with gids := new } })

/-- An error leads to `abort_creds`. -/
def commitOrAbort {K : Type} (t : Task) (commit : Ids K → Except Errno UInt32 × Task)
    (new : Except Errno (Ids K)) : Except Errno UInt32 × Task :=
  match new with
  | .error e => (.error e, t)
  | .ok ids => commit ids

def setregid (ns : UserNamespace) (t : Task) (a : Answers) (rgid egid : UInt32) :
    Except Errno UInt32 × Task :=
  t.commitOrAbort t.commitGids do
    let r ← ns.gid.argument rgid
    let e ← ns.gid.argument egid
    a.prepare
    setre t.cred.gids (a.nsCapable t .setgid) r e

def setgid (ns : UserNamespace) (t : Task) (a : Answers) (gid : UInt32) :
    Except Errno UInt32 × Task :=
  t.commitOrAbort t.commitGids do
    let k ← ns.gid.valid gid
    a.prepare
    setid t.cred.gids (a.nsCapable t .setgid) k

def setreuid (ns : UserNamespace) (t : Task) (a : Answers) (ruid euid : UInt32) :
    Except Errno UInt32 × Task :=
  t.commitOrAbort (t.commitUids a) do
    let r ← ns.uid.argument ruid
    let e ← ns.uid.argument euid
    a.prepare
    setre t.cred.uids (a.nsCapable t .setuid) r e

def setuid (ns : UserNamespace) (t : Task) (a : Answers) (uid : UInt32) :
    Except Errno UInt32 × Task :=
  t.commitOrAbort (t.commitUids a) do
    let k ← ns.uid.valid uid
    a.prepare
    setid t.cred.uids (a.nsCapable t .setuid) k

def setresuid (ns : UserNamespace) (t : Task) (a : Answers) (ruid euid suid : UInt32) :
    Except Errno UInt32 × Task :=
  t.commitOrAbort (t.commitUids a) do
    let r ← ns.uid.argument ruid
    let e ← ns.uid.argument euid
    let s ← ns.uid.argument suid
    a.prepare
    setres t.cred.uids (a.nsCapable t .setuid) r e s

def setresgid (ns : UserNamespace) (t : Task) (a : Answers) (rgid egid sgid : UInt32) :
    Except Errno UInt32 × Task :=
  t.commitOrAbort t.commitGids do
    let r ← ns.gid.argument rgid
    let e ← ns.gid.argument egid
    let s ← ns.gid.argument sgid
    a.prepare
    setres t.cred.gids (a.nsCapable t .setgid) r e s

/-- `setfsuid` returns the old identity, whether it changes it or not. -/
def setfsuid (ns : UserNamespace) (t : Task) (a : Answers) (uid : UInt32) :
    Except Errno UInt32 × Task :=
  let oldFsuid := ns.uid.munged t.cred.uids.fs
  match ns.uid.make uid with
  | none => (.ok oldFsuid, t)
  | some k =>
    match a.prepare, setfs t.cred.uids (a.nsCapable t .setuid) k, a.fixup with
    | .ok (), some new, .ok f =>
      (.ok oldFsuid, { t with cred := { t.cred with uids := new, caps := f.apply t.cred.caps } })
    | _, _, _ => (.ok oldFsuid, t)

def setfsgid (ns : UserNamespace) (t : Task) (a : Answers) (gid : UInt32) :
    Except Errno UInt32 × Task :=
  let oldFsgid := ns.gid.munged t.cred.gids.fs
  match ns.gid.make gid with
  | none => (.ok oldFsgid, t)
  | some k =>
    match a.prepare, setfs t.cred.gids (a.nsCapable t .setgid) k with
    | .ok (), some new => (.ok oldFsgid, (t.commitGids new).2)
    | _, _ => (.ok oldFsgid, t)

end Task

inductive Call where
  | setregid (rgid egid : UInt32) | setgid (gid : UInt32)
  | setreuid (ruid euid : UInt32) | setuid (uid : UInt32)
  | setresuid (ruid euid suid : UInt32) | setresgid (rgid egid sgid : UInt32)
  | setfsuid (uid : UInt32) | setfsgid (gid : UInt32)

def Task.call (ns : UserNamespace) (t : Task) (a : Answers) : Call → Except Errno UInt32 × Task
  | .setregid r e => t.setregid ns a r e
  | .setgid g => t.setgid ns a g
  | .setreuid r e => t.setreuid ns a r e
  | .setuid u => t.setuid ns a u
  | .setresuid r e s => t.setresuid ns a r e s
  | .setresgid r e s => t.setresgid ns a r e s
  | .setfsuid u => t.setfsuid ns a u
  | .setfsgid g => t.setfsgid ns a g

def Step (ns : UserNamespace) (t t' : Task) : Prop := ∃ c a, t' = (t.call ns a c).2

def Run (ns : UserNamespace) : Task → Task → Prop := ReflTransGen (Step ns)

/-- The task has no capability, and none that it could make effective. -/
def Unprivileged (t : Task) : Prop := ∀ c, t.cred.caps.permitted c = false

section Choices

variable {K : Type} [DecidableEq K] {old new : Ids K} {current k : K} {allowed : List K}
variable {capable : Bool} {r e s : Option K}

theorem choose_eq_ok_iff {k' : K} : choose current allowed capable (some k) = .ok k' ↔
    (k ∈ allowed ∨ capable = true) ∧ k' = k := by
  rw [choose]
  split
  · next h =>
    rw [Except.ok.injEq, eq_comm]
    exact ⟨fun hk => ⟨h, hk⟩, And.right⟩
  · next h =>
    constructor
    · intro hk
      cases hk
    · rintro ⟨hk, -⟩
      exact absurd hk h

theorem mem_of_choose (hcurrent : current ∈ allowed) (h : choose current allowed false r = .ok k) :
    k ∈ allowed := by
  cases r with
  | none =>
    cases h
    exact hcurrent
  | some k' =>
    obtain ⟨hmem, rfl⟩ := choose_eq_ok_iff.mp h
    exact hmem.resolve_right Bool.false_ne_true

omit [DecidableEq K] in
theorem mem_held_of_mem (h : k ∈ [old.real, old.effective, old.saved]) : k ∈ old.held := by
  simpa [Ids.mem_held] using h

omit [DecidableEq K] in
theorem mem_held_of_mem_pair (h : k ∈ [old.real, old.effective]) : k ∈ old.held := by
  apply mem_held_of_mem
  simp only [List.mem_cons] at h ⊢
  tauto

theorem setre_move (h : setre old false r e = .ok new) : Move old new := by
  obtain ⟨real, hreal, h⟩ := bind_eq_ok_iff.mp h
  obtain ⟨effective, heffective, h⟩ := bind_eq_ok_iff.mp h
  cases h
  have hr : real ∈ old.held := mem_held_of_mem_pair (mem_of_choose List.mem_cons_self hreal)
  have he : effective ∈ old.held := mem_held_of_mem (mem_of_choose (by simp) heffective)
  refine .set _ _ _ hr he ?_
  split
  · exact he
  · exact old.saved_mem_held

theorem setre_eq_ok {r e : K} (h : setre old capable (some r) (some e) = .ok new) :
    new = ⟨r, e, e, e⟩ := by
  obtain ⟨real, hreal, h⟩ := bind_eq_ok_iff.mp h
  obtain ⟨effective, heffective, h⟩ := bind_eq_ok_iff.mp h
  cases h
  obtain ⟨-, rfl⟩ := choose_eq_ok_iff.mp hreal
  obtain ⟨-, rfl⟩ := choose_eq_ok_iff.mp heffective
  rfl

theorem setid_move (h : setid old false k = .ok new) : Move old new := by
  rw [setid, if_neg Bool.false_ne_true] at h
  split at h <;> cases h
  next hk =>
  have hheld : k ∈ old.held := by
    rw [Ids.mem_held]
    tauto
  exact .set _ _ _ old.real_mem_held hheld old.saved_mem_held

theorem setres_move (h : setres old false r e s = .ok new) : Move old new := by
  obtain ⟨real, hreal, h⟩ := bind_eq_ok_iff.mp h
  obtain ⟨effective, heffective, h⟩ := bind_eq_ok_iff.mp h
  obtain ⟨saved, hsaved, h⟩ := bind_eq_ok_iff.mp h
  cases h
  exact .set _ _ _ (mem_held_of_mem (mem_of_choose (by simp) hreal))
    (mem_held_of_mem (mem_of_choose (by simp) heffective))
    (mem_held_of_mem (mem_of_choose (by simp) hsaved))

theorem setres_eq_ok {r e s : K} (h : setres old capable (some r) (some e) (some s) = .ok new) :
    new = ⟨r, e, s, e⟩ := by
  obtain ⟨real, hreal, h⟩ := bind_eq_ok_iff.mp h
  obtain ⟨effective, heffective, h⟩ := bind_eq_ok_iff.mp h
  obtain ⟨saved, hsaved, h⟩ := bind_eq_ok_iff.mp h
  cases h
  obtain ⟨-, rfl⟩ := choose_eq_ok_iff.mp hreal
  obtain ⟨-, rfl⟩ := choose_eq_ok_iff.mp heffective
  obtain ⟨-, rfl⟩ := choose_eq_ok_iff.mp hsaved
  rfl

theorem setfs_move (h : setfs old false k = some new) : Move old new := by
  rw [setfs] at h
  split at h <;> cases h
  next hk =>
  obtain ⟨hk, hne⟩ := hk
  have hheld : k ∈ old.held := by
    have hk := hk.resolve_right Bool.false_ne_true
    simp only [List.mem_cons, List.not_mem_nil, or_false] at hk
    rw [Ids.mem_held]
    tauto
  exact .setFs k hheld

theorem setres_of_mem {r e s : K} (hr : r ∈ old.held) (he : e ∈ old.held) (hs : s ∈ old.held) :
    setres old capable (some r) (some e) (some s) = .ok ⟨r, e, s, e⟩ := by
  have hall : ∀ k ∈ old.held, k ∈ [old.real, old.effective, old.saved] := by
    intro k hk
    simpa [Ids.mem_held] using hk
  have hchoose (current k : K) (hk : k ∈ old.held) :
      choose current [old.real, old.effective, old.saved] capable (some k) = .ok k :=
    choose_eq_ok_iff.mpr ⟨.inl (hall k hk), rfl⟩
  simp only [setres, hchoose _ _ hr, hchoose _ _ he, hchoose _ _ hs]
  rfl

theorem setfs_of_mem (hk : k ∈ old.held) (hne : k ≠ old.fs) :
    setfs old capable k = some { old with fs := k } := by
  rw [setfs, if_pos]
  refine ⟨.inl ?_, hne⟩
  rw [Ids.mem_held] at hk
  simp only [List.mem_cons]
  tauto

end Choices

section Calls

variable {ns : UserNamespace} {t t' : Task} {a : Answers} {c : Call}

theorem nsCapable_of_unprivileged (h : Unprivileged t) (a : Answers) (cap : Capability) :
    a.nsCapable t cap = false := by
  have heffective : t.cred.caps.effective cap = false := by
    by_contra hne
    have hpermitted := t.cred.caps.permitted_of_effective cap (by simpa using hne)
    rw [h cap] at hpermitted
    exact Bool.false_ne_true hpermitted
  rw [Answers.nsCapable, heffective, Bool.false_and]

/-- A commit of new users fails and keeps the credentials, or installs the new ones with
capabilities that were permitted before. -/
theorem commitUids_cases (t : Task) (a : Answers) (new : Ids Kuid) :
    (∃ e, (t.commitUids a new).1 = .error e ∧ (t.commitUids a new).2.cred = t.cred) ∨
    ∃ f : Fixup, (t.commitUids a new).1 = .ok 0 ∧
      (t.commitUids a new).2.cred = { t.cred with uids := new, caps := f.apply t.cred.caps } := by
  rw [Task.commitUids]
  split
  · exact .inl ⟨_, rfl, rfl⟩
  · cases a.fixup with
    | error e =>
      left
      refine ⟨e, rfl, ?_⟩
      split <;> rfl
    | ok f =>
      right
      refine ⟨f, rfl, ?_⟩
      split <;> rfl

/-- What a task without capabilities can turn its credentials into by one call. -/
structure Shuffles (c d : Cred) : Prop where
  uids : Reach c.uids d.uids
  gids : Reach c.gids d.gids
  permitted : ∀ cap, d.caps.permitted cap = true → c.caps.permitted cap = true

theorem Shuffles.refl (c : Cred) : Shuffles c c := ⟨.refl, .refl, fun _ h => h⟩

theorem Shuffles.trans {c d e : Cred} (h : Shuffles c d) (h' : Shuffles d e) : Shuffles c e :=
  ⟨h.uids.trans h'.uids, h.gids.trans h'.gids, fun cap hcap => h.permitted cap (h'.permitted cap hcap)⟩

theorem shuffles_fixup {c : Cred} {new : Ids Kuid} (h : Move c.uids new) (f : Fixup) :
    Shuffles c { c with uids := new, caps := f.apply c.caps } := by
  refine ⟨.single h, .refl, ?_⟩
  intro cap hcap
  exact (Bool.and_eq_true_iff.mp hcap).1

theorem shuffles_commitUids {new : Ids Kuid} (h : Move t.cred.uids new) :
    Shuffles t.cred (t.commitUids a new).2.cred := by
  obtain ⟨e, -, hkeep⟩ | ⟨f, -, hnew⟩ := commitUids_cases t a new
  · rw [hkeep]
    exact .refl _
  · rw [hnew]
    exact shuffles_fixup h f

theorem shuffles_commitGids {new : Ids Kgid} (h : Move t.cred.gids new) :
    Shuffles t.cred (t.commitGids new).2.cred :=
  ⟨.refl, .single h, fun _ hcap => hcap⟩

/-- The calls that check their arguments and rights first and then commit. -/
theorem shuffles_commitOrAbort {K : Type} {new : Except Errno (Ids K)}
    {commit : Ids K → Except Errno UInt32 × Task}
    (h : ∀ ids, new = .ok ids → Shuffles t.cred (commit ids).2.cred) :
    Shuffles t.cred (t.commitOrAbort commit new).2.cred := by
  cases new with
  | error e => exact .refl _
  | ok ids => exact h ids rfl

/-- Every call of a task without capabilities moves the held identities around. -/
theorem shuffles_call (h : Unprivileged t) (a : Answers) (c : Call) :
    Shuffles t.cred (t.call ns a c).2.cred := by
  have hsetuid := nsCapable_of_unprivileged h a .setuid
  have hsetgid := nsCapable_of_unprivileged h a .setgid
  cases c with
  | setregid rgid egid =>
    apply shuffles_commitOrAbort
    intro new hnew
    obtain ⟨r, -, hnew⟩ := bind_eq_ok_iff.mp hnew
    obtain ⟨e, -, hnew⟩ := bind_eq_ok_iff.mp hnew
    obtain ⟨-, -, hnew⟩ := bind_eq_ok_iff.mp hnew
    rw [hsetgid] at hnew
    exact shuffles_commitGids (setre_move hnew)
  | setgid gid =>
    apply shuffles_commitOrAbort
    intro new hnew
    obtain ⟨k, -, hnew⟩ := bind_eq_ok_iff.mp hnew
    obtain ⟨-, -, hnew⟩ := bind_eq_ok_iff.mp hnew
    rw [hsetgid] at hnew
    exact shuffles_commitGids (setid_move hnew)
  | setreuid ruid euid =>
    apply shuffles_commitOrAbort
    intro new hnew
    obtain ⟨r, -, hnew⟩ := bind_eq_ok_iff.mp hnew
    obtain ⟨e, -, hnew⟩ := bind_eq_ok_iff.mp hnew
    obtain ⟨-, -, hnew⟩ := bind_eq_ok_iff.mp hnew
    rw [hsetuid] at hnew
    exact shuffles_commitUids (setre_move hnew)
  | setuid uid =>
    apply shuffles_commitOrAbort
    intro new hnew
    obtain ⟨k, -, hnew⟩ := bind_eq_ok_iff.mp hnew
    obtain ⟨-, -, hnew⟩ := bind_eq_ok_iff.mp hnew
    rw [hsetuid] at hnew
    exact shuffles_commitUids (setid_move hnew)
  | setresuid ruid euid suid =>
    apply shuffles_commitOrAbort
    intro new hnew
    obtain ⟨r, -, hnew⟩ := bind_eq_ok_iff.mp hnew
    obtain ⟨e, -, hnew⟩ := bind_eq_ok_iff.mp hnew
    obtain ⟨s, -, hnew⟩ := bind_eq_ok_iff.mp hnew
    obtain ⟨-, -, hnew⟩ := bind_eq_ok_iff.mp hnew
    rw [hsetuid] at hnew
    exact shuffles_commitUids (setres_move hnew)
  | setresgid rgid egid sgid =>
    apply shuffles_commitOrAbort
    intro new hnew
    obtain ⟨r, -, hnew⟩ := bind_eq_ok_iff.mp hnew
    obtain ⟨e, -, hnew⟩ := bind_eq_ok_iff.mp hnew
    obtain ⟨s, -, hnew⟩ := bind_eq_ok_iff.mp hnew
    obtain ⟨-, -, hnew⟩ := bind_eq_ok_iff.mp hnew
    rw [hsetgid] at hnew
    exact shuffles_commitGids (setres_move hnew)
  | setfsuid uid =>
    rw [Task.call, Task.setfsuid]
    split
    · exact .refl _
    · split
      · next new f _ hnew _ =>
        rw [hsetuid] at hnew
        exact shuffles_fixup (setfs_move hnew) f
      · exact .refl _
  | setfsgid gid =>
    rw [Task.call, Task.setfsgid]
    split
    · exact .refl _
    · split
      · next new _ hnew =>
        rw [hsetgid] at hnew
        exact shuffles_commitGids (setfs_move hnew)
      · exact .refl _

theorem Unprivileged.of_shuffles (h : Unprivileged t) (hshuffles : Shuffles t.cred t'.cred) :
    Unprivileged t' := by
  intro cap
  by_contra hne
  have hpermitted := hshuffles.permitted cap (by simpa using hne)
  rw [h cap] at hpermitted
  exact Bool.false_ne_true hpermitted

/-- What a run of any calls does to a task without capabilities. -/
theorem Unprivileged.run (h : Unprivileged t) (hrun : Run ns t t') :
    Unprivileged t' ∧ Shuffles t.cred t'.cred := by
  refine run_invariant (P := fun t' => Unprivileged t' ∧ Shuffles t.cred t'.cred) ?_
    ⟨h, .refl _⟩ hrun
  rintro t₁ t₂ ⟨h₁, hsofar⟩ ⟨c, a, rfl⟩
  have hstep : Shuffles t₁.cred (t₁.call ns a c).2.cred := shuffles_call h₁ a c
  exact ⟨h₁.of_shuffles hstep, hsofar.trans hstep⟩

end Calls

section Reachable

variable {ns : UserNamespace} {t t' : Task}

def Answers.accept : Answers where
  prepared := true
  granted := true
  allocated := true
  exceeded := false
  fixup := .ok ⟨fun _ => true, fun _ => true⟩

theorem cred_of_commitUids_accept (t : Task) (new : Ids Kuid) :
    (t.commitUids .accept new).2.cred.uids = new ∧
      (t.commitUids .accept new).2.cred.gids = t.cred.gids := by
  by_cases hreal : new.real = t.cred.uids.real <;> simp [Task.commitUids, Answers.accept, hreal]

theorem exists_call_of_move_uids {j : Ids Kuid} (hnames : ns.uid.Names t.cred.uids.held)
    (hmove : Move t.cred.uids j) :
    ∃ t', Step ns t t' ∧ t'.cred.uids = j ∧ t'.cred.gids = t.cred.gids := by
  cases hmove with
  | set r e s hr he hs =>
    obtain ⟨ruid, hruid⟩ := hnames r hr
    obtain ⟨euid, heuid⟩ := hnames e he
    obtain ⟨suid, hsuid⟩ := hnames s hs
    refine ⟨_, ⟨.setresuid ruid euid suid, .accept, rfl⟩, ?_⟩
    have hcall : t.setresuid ns .accept ruid euid suid = t.commitUids .accept ⟨r, e, s, e⟩ := by
      rw [Task.setresuid, ns.uid.argument_of_make hruid, ns.uid.argument_of_make heuid,
        ns.uid.argument_of_make hsuid]
      change t.commitOrAbort (t.commitUids .accept) (setres _ _ (some r) (some e) (some s)) = _
      rw [setres_of_mem hr he hs]
      rfl
    rw [Task.call, hcall]
    exact cred_of_commitUids_accept t _
  | setFs f hf =>
    obtain ⟨uid, huid⟩ := hnames f hf
    refine ⟨_, ⟨.setfsuid uid, .accept, rfl⟩, ?_⟩
    rw [Task.call, Task.setfsuid, huid]
    by_cases hsame : f = t.cred.uids.fs
    · subst hsame
      simp [setfs]
    · simp [setfs_of_mem hf hsame, Answers.prepare, Answers.accept]

theorem exists_call_of_move_gids {j : Ids Kgid} (hnames : ns.gid.Names t.cred.gids.held)
    (hmove : Move t.cred.gids j) :
    ∃ t', Step ns t t' ∧ t'.cred.gids = j ∧ t'.cred.uids = t.cred.uids := by
  cases hmove with
  | set r e s hr he hs =>
    obtain ⟨rgid, hrgid⟩ := hnames r hr
    obtain ⟨egid, hegid⟩ := hnames e he
    obtain ⟨sgid, hsgid⟩ := hnames s hs
    refine ⟨_, ⟨.setresgid rgid egid sgid, .accept, rfl⟩, ?_⟩
    have hcall : t.setresgid ns .accept rgid egid sgid = t.commitGids ⟨r, e, s, e⟩ := by
      rw [Task.setresgid, ns.gid.argument_of_make hrgid, ns.gid.argument_of_make hegid,
        ns.gid.argument_of_make hsgid]
      change t.commitOrAbort t.commitGids (setres _ _ (some r) (some e) (some s)) = _
      rw [setres_of_mem hr he hs]
      rfl
    rw [Task.call, hcall]
    exact ⟨rfl, rfl⟩
  | setFs f hf =>
    obtain ⟨gid, hgid⟩ := hnames f hf
    refine ⟨_, ⟨.setfsgid gid, .accept, rfl⟩, ?_⟩
    rw [Task.call, Task.setfsgid, hgid]
    by_cases hsame : f = t.cred.gids.fs
    · subst hsame
      simp [setfs]
    · simp [setfs_of_mem hf hsame, Answers.prepare, Answers.accept, Task.commitGids]

theorem Names.mono {K : Type} {map : IdMap K} {S S' : Set K} (h : map.Names S) (hsub : S' ⊆ S) :
    map.Names S' := fun k hk => h k (hsub hk)

/-- Every move of the users is made by some run, which leaves the groups alone. -/
theorem exists_run_of_reach_uids {j : Ids Kuid} (hnames : ns.uid.Names t.cred.uids.held)
    (hreach : Reach t.cred.uids j) :
    ∃ t', Run ns t t' ∧ t'.cred.uids = j ∧ t'.cred.gids = t.cred.gids := by
  have hstep : ∀ (u : Task) (i j : Ids Kuid), (u.cred.uids = i ∧ u.cred.gids = t.cred.gids ∧
      ns.uid.Names u.cred.uids.held) → Move i j → ∃ u', Step ns u u' ∧ u'.cred.uids = j ∧
        u'.cred.gids = t.cred.gids ∧ ns.uid.Names u'.cred.uids.held := by
    rintro u _ j ⟨rfl, hgids, hnames⟩ hmove
    obtain ⟨u', hcall, rfl, hkeep⟩ := exists_call_of_move_uids hnames hmove
    exact ⟨u', hcall, rfl, hkeep.trans hgids, Names.mono hnames hmove.held_subset⟩
  obtain ⟨t', hrun, huids, hgids, -⟩ := run_simulation hstep ⟨rfl, rfl, hnames⟩ hreach
  exact ⟨t', hrun, huids, hgids⟩

theorem exists_run_of_reach_gids {j : Ids Kgid} (hnames : ns.gid.Names t.cred.gids.held)
    (hreach : Reach t.cred.gids j) :
    ∃ t', Run ns t t' ∧ t'.cred.gids = j ∧ t'.cred.uids = t.cred.uids := by
  have hstep : ∀ (u : Task) (i j : Ids Kgid), (u.cred.gids = i ∧ u.cred.uids = t.cred.uids ∧
      ns.gid.Names u.cred.gids.held) → Move i j → ∃ u', Step ns u u' ∧ u'.cred.gids = j ∧
        u'.cred.uids = t.cred.uids ∧ ns.gid.Names u'.cred.gids.held := by
    rintro u _ j ⟨rfl, huids, hnames⟩ hmove
    obtain ⟨u', hcall, rfl, hkeep⟩ := exists_call_of_move_gids hnames hmove
    exact ⟨u', hcall, rfl, hkeep.trans huids, Names.mono hnames hmove.held_subset⟩
  obtain ⟨t', hrun, hgids, huids, -⟩ := run_simulation hstep ⟨rfl, rfl, hnames⟩ hreach
  exact ⟨t', hrun, hgids, huids⟩

theorem exists_run_iff_reach (h : Unprivileged t) (huids : ns.uid.Names t.cred.uids.held)
    (hgids : ns.gid.Names t.cred.gids.held) (u : Ids Kuid) (g : Ids Kgid) :
    (∃ t', Run ns t t' ∧ t'.cred.uids = u ∧ t'.cred.gids = g) ↔
      Reach t.cred.uids u ∧ Reach t.cred.gids g := by
  constructor
  · rintro ⟨t', hrun, rfl, rfl⟩
    obtain ⟨-, hshuffles⟩ := h.run hrun
    exact ⟨hshuffles.uids, hshuffles.gids⟩
  · rintro ⟨hu, hg⟩
    obtain ⟨t₁, hrun₁, huids₁, hgids₁⟩ := exists_run_of_reach_uids huids hu
    rw [← hgids₁] at hg hgids
    obtain ⟨t₂, hrun₂, hgids₂, huids₂⟩ := exists_run_of_reach_gids hgids hg
    exact ⟨t₂, hrun₁.trans hrun₂, huids₂.trans huids₁, hgids₂⟩

/-- What a task without capabilities can become by any number of calls in any order, whatever the
rest of the kernel answers: it stays without capabilities, and it reaches exactly those users and
groups that are as they were, or are all held ones with the file system identity among those that
are left. -/
theorem unprivileged_reach_iff (ns : UserNamespace) (t : Task) (h : Unprivileged t)
    (huids : ns.uid.Names t.cred.uids.held) (hgids : ns.gid.Names t.cred.gids.held) :
    (∀ t', Run ns t t' → Unprivileged t') ∧
    ∀ (u : Ids Kuid) (g : Ids Kgid),
      (∃ t', Run ns t t' ∧ t'.cred.uids = u ∧ t'.cred.gids = g) ↔
        (u = t.cred.uids ∨ u.held ⊆ t.cred.uids.held ∧ u.fs ∈ u.held) ∧
        (g = t.cred.gids ∨ g.held ⊆ t.cred.gids.held ∧ g.fs ∈ g.held) := by
  refine ⟨fun t' hrun => (h.run hrun).1, ?_⟩
  intro u g
  rw [exists_run_iff_reach h huids hgids, reach_iff, reach_iff]

def setuidProgram : Task where
  cred := ⟨⟨⟨1000⟩, ⟨50⟩, ⟨50⟩, ⟨50⟩⟩, .constant ⟨100⟩, ⟨fun _ => false, fun _ => false, by simp⟩⟩
  nprocExceeded := false

theorem names_initUserNs_uid {S : Set Kuid} (h : ⟨unset⟩ ∉ S) : initUserNs.uid.Names S := by
  intro k hk
  refine ⟨k.val, if_neg ?_⟩
  rintro hval
  apply h
  rwa [← hval]

theorem names_initUserNs_gid {S : Set Kgid} (h : ⟨unset⟩ ∉ S) : initUserNs.gid.Names S := by
  intro k hk
  refine ⟨k.val, if_neg ?_⟩
  rintro hval
  apply h
  rwa [← hval]

/-- It can exchange its two users, and never become the superuser. -/
theorem unprivileged_reach_iff_setuidProgram :
    (∃ t', Run initUserNs setuidProgram t' ∧ t'.cred.uids = ⟨⟨50⟩, ⟨1000⟩, ⟨1000⟩, ⟨50⟩⟩ ∧
      t'.cred.gids = .constant ⟨100⟩) ∧
    ¬∃ t', Run initUserNs setuidProgram t' ∧ t'.cred.uids = .constant ⟨0⟩ ∧
      t'.cred.gids = .constant ⟨100⟩ := by
  have hreach := (unprivileged_reach_iff initUserNs setuidProgram (fun _ => rfl)
    (names_initUserNs_uid (by simp [setuidProgram, Ids.mem_held, unset]))
    (names_initUserNs_gid (by simp [setuidProgram, Ids.mem_held, Ids.constant, unset]))).2
  constructor
  · apply (hreach _ _).mpr
    refine ⟨.inr ?_, .inl rfl⟩
    simp [Ids.held_subset_iff, Ids.mem_held, setuidProgram]
  · intro hroot
    obtain ⟨huids, -⟩ := (hreach _ _).mp hroot
    simp [Ids.held_subset_iff, Ids.mem_held, setuidProgram, Ids.constant] at huids

end Reachable

section Dropping

variable {ns : UserNamespace} {t : Task} {a : Answers} {uid : UInt32} {k : Kuid} {v : UInt32}

theorem uids_of_ok {new : Except Errno (Ids Kuid)}
    (h : (t.commitOrAbort (t.commitUids a) new).1 = .ok v) :
    ∃ ids, new = .ok ids ∧ (t.commitOrAbort (t.commitUids a) new).2.cred.uids = ids := by
  cases new with
  | error e => cases h
  | ok ids =>
    refine ⟨ids, rfl, ?_⟩
    rw [Task.commitOrAbort] at h ⊢
    obtain ⟨e, herror, -⟩ | ⟨f, -, hnew⟩ := commitUids_cases t a ids
    · rw [herror] at h
      cases h
    · rw [hnew]

theorem uids_of_setreuid (hk : ns.uid.make uid = some k)
    (h : (t.setreuid ns a uid uid).1 = .ok v) :
    (t.setreuid ns a uid uid).2.cred.uids = .constant k := by
  have hargument := ns.uid.argument_of_make hk
  obtain ⟨ids, hnew, hids⟩ := uids_of_ok h
  obtain ⟨r, hr, hnew⟩ := bind_eq_ok_iff.mp hnew
  obtain ⟨e, he, hnew⟩ := bind_eq_ok_iff.mp hnew
  obtain ⟨-, -, hnew⟩ := bind_eq_ok_iff.mp hnew
  cases hargument.symm.trans hr
  cases hargument.symm.trans he
  rw [setre_eq_ok hnew] at hids
  exact hids

theorem uids_of_setresuid (hk : ns.uid.make uid = some k)
    (h : (t.setresuid ns a uid uid uid).1 = .ok v) :
    (t.setresuid ns a uid uid uid).2.cred.uids = .constant k := by
  have hargument := ns.uid.argument_of_make hk
  obtain ⟨ids, hnew, hids⟩ := uids_of_ok h
  obtain ⟨r, hr, hnew⟩ := bind_eq_ok_iff.mp hnew
  obtain ⟨e, he, hnew⟩ := bind_eq_ok_iff.mp hnew
  obtain ⟨s, hs, hnew⟩ := bind_eq_ok_iff.mp hnew
  obtain ⟨-, -, hnew⟩ := bind_eq_ok_iff.mp hnew
  cases hargument.symm.trans hr
  cases hargument.symm.trans he
  cases hargument.symm.trans hs
  rw [setres_eq_ok hnew] at hids
  exact hids

/-- With the capability `setuid` changes all four identities, without it only two. -/
theorem uids_of_setuid (hk : ns.uid.make uid = some k) (h : (t.setuid ns a uid).1 = .ok v) :
    if a.nsCapable t .setuid then (t.setuid ns a uid).2.cred.uids = .constant k
    else (k = t.cred.uids.real ∨ k = t.cred.uids.saved) ∧
      (t.setuid ns a uid).2.cred.uids = { t.cred.uids with effective := k, fs := k } := by
  obtain ⟨ids, hnew, hids⟩ := uids_of_ok h
  obtain ⟨k', hvalid, hnew⟩ := bind_eq_ok_iff.mp hnew
  obtain ⟨-, -, hnew⟩ := bind_eq_ok_iff.mp hnew
  rw [IdMap.valid, hk] at hvalid
  cases hvalid
  rw [setid] at hnew
  by_cases hcapable : a.nsCapable t .setuid = true
  · rw [if_pos hcapable] at hnew ⊢
    cases hnew
    exact hids
  · rw [if_neg hcapable] at hnew ⊢
    by_cases hheld : k = t.cred.uids.real ∨ k = t.cred.uids.saved
    · rw [if_pos hheld] at hnew
      cases hnew
      exact ⟨hheld, hids⟩
    · rw [if_neg hheld] at hnew
      cases hnew

/-- A task that has one user left and no capabilities keeps that user. -/
theorem Unprivileged.constant_of_run {t' : Task} (h : Unprivileged t)
    (huids : t.cred.uids = .constant k) (hrun : Run ns t t') : t'.cred.uids = .constant k := by
  obtain ⟨-, hshuffles⟩ := h.run hrun
  have hreach := hshuffles.uids
  rw [huids] at hreach
  exact reach_constant_iff.mp hreach

/-- How users are given up. A task without capabilities loses all other users for good by
`setreuid` or `setresuid` with one user in all places. After `setuid` it can come back to its real
and to its saved user, and to no other. With the capability `setuid` is as final as the others, as
soon as the security module has taken the capabilities away. -/
theorem users_are_given_up (ns : UserNamespace) (t : Task) (a : Answers) (uid : UInt32) (k : Kuid)
    (hk : ns.uid.make uid = some k) :
    (Unprivileged t → (t.setreuid ns a uid uid).1 = .ok 0 →
      ∀ t', Run ns (t.setreuid ns a uid uid).2 t' → t'.cred.uids = .constant k) ∧
    (Unprivileged t → (t.setresuid ns a uid uid uid).1 = .ok 0 →
      ∀ t', Run ns (t.setresuid ns a uid uid uid).2 t' → t'.cred.uids = .constant k) ∧
    (Unprivileged t → ns.uid.Names t.cred.uids.held → (t.setuid ns a uid).1 = .ok 0 →
      ∀ e, (∃ t', Run ns (t.setuid ns a uid).2 t' ∧ t'.cred.uids.effective = e) ↔
        e = t.cred.uids.real ∨ e = t.cred.uids.saved) ∧
    (a.nsCapable t .setuid = true → (t.setuid ns a uid).1 = .ok 0 →
      Unprivileged (t.setuid ns a uid).2 →
      ∀ t', Run ns (t.setuid ns a uid).2 t' → t'.cred.uids = .constant k) := by
  refine ⟨?_, ?_, ?_, ?_⟩
  · intro h hok t' hrun
    have hafter : Unprivileged (t.setreuid ns a uid uid).2 :=
      h.of_shuffles (shuffles_call h a (.setreuid uid uid))
    exact hafter.constant_of_run (uids_of_setreuid hk hok) hrun
  · intro h hok t' hrun
    have hafter : Unprivileged (t.setresuid ns a uid uid uid).2 :=
      h.of_shuffles (shuffles_call h a (.setresuid uid uid uid))
    exact hafter.constant_of_run (uids_of_setresuid hk hok) hrun
  · intro h hnames hok e
    have hafter : Unprivileged (t.setuid ns a uid).2 :=
      h.of_shuffles (shuffles_call h a (.setuid uid))
    have huids := uids_of_setuid hk hok
    rw [nsCapable_of_unprivileged h, if_neg Bool.false_ne_true] at huids
    obtain ⟨hheld, huids⟩ := huids
    have hleft : ∀ e, e ∈ (t.setuid ns a uid).2.cred.uids.held ↔
        e = t.cred.uids.real ∨ e = t.cred.uids.saved := by
      intro e
      rw [huids, Ids.mem_held]
      obtain rfl | rfl := hheld <;> simp only <;> tauto
    constructor
    · rintro ⟨t', hrun, rfl⟩
      obtain ⟨-, hlater⟩ := hafter.run hrun
      rw [← hleft]
      obtain heq | ⟨hsub, -⟩ := reach_iff.mp hlater.uids
      · rw [heq]
        exact Ids.effective_mem_held _
      · exact hsub (Ids.effective_mem_held _)
    · intro he
      rw [← hleft] at he
      have hnames' : ns.uid.Names (t.setuid ns a uid).2.cred.uids.held := by
        apply Names.mono hnames
        intro e' he'
        obtain rfl | rfl := (hleft e').mp he'
        · exact Ids.real_mem_held _
        · exact Ids.saved_mem_held _
      have hmove := Move.set _ e _ (Ids.real_mem_held _) he
        (Ids.saved_mem_held (t.setuid ns a uid).2.cred.uids)
      obtain ⟨t', hstep, huids', -⟩ := exists_call_of_move_uids hnames' hmove
      exact ⟨t', .single hstep, by rw [huids']⟩
  · intro hcapable hok hafter t' hrun
    have huids := uids_of_setuid hk hok
    rw [hcapable, if_pos rfl] at huids
    exact hafter.constant_of_run huids hrun

/-- The setuid program gives its effective user up by `setreuid`, and only for a time by
`setuid`. -/
theorem users_are_given_up_setuidProgram :
    (∀ t', Run initUserNs (setuidProgram.setreuid initUserNs .accept 1000 1000).2 t' →
      t'.cred.uids = .constant ⟨1000⟩) ∧
    ∃ t', Run initUserNs (setuidProgram.setuid initUserNs .accept 1000).2 t' ∧
      t'.cred.uids.effective = ⟨50⟩ := by
  have hdrop := users_are_given_up initUserNs setuidProgram .accept 1000 ⟨1000⟩ (by decide)
  have hnames : initUserNs.uid.Names setuidProgram.cred.uids.held :=
    names_initUserNs_uid (by simp [setuidProgram, Ids.mem_held, unset])
  constructor
  · exact hdrop.1 (fun _ => rfl) rfl
  · exact (hdrop.2.2.1 (fun _ => rfl) hnames rfl ⟨50⟩).mpr (.inr rfl)

end Dropping

end EmbeddedSoftware.Credentials
