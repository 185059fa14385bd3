import EmbeddedSoftware.HeldIdentities
import EmbeddedSoftware.RunRules
import EmbeddedSoftware.SystemCalls
import Mathlib.Data.Int.Notation
import Mathlib.Data.List.Nodup
import Mathlib.Order.Lattice

/-!
# The priorities of tasks

`setpriority` and `getpriority` of `sys.c`: the nice value of one task, of the tasks of a process
group or of a user. The call goes through all of them and keeps one error, so that it can change
some of the tasks and still fail.
-/

namespace EmbeddedSoftware.Priorities

open Relation RunRules HeldIdentities SystemCalls

/-- A task. Its number in the namespace of the callers is `0` when they cannot see it. -/
structure Task where
  tid : ℕ
  vpid : ℕ
  pgrp : ℕ
  uids : Ids Kuid
  nice : ℤ
  deriving DecidableEq

/-- What the rest of the kernel answers: whether the caller has `CAP_SYS_NICE` over a task, whether
`can_nice` lets the nice value of a task go down, what the security module says, and which users
are known besides those of the tasks. -/
structure Answers where
  nsCapable : Task → Bool
  canNice : Task → ℤ → Bool
  setnice : Task → ℤ → Option Errno
  known : Kuid → Bool

def setOnePrioPerm (a : Answers) (me p : Task) : Bool :=
  p.uids.real = me.uids.effective || p.uids.effective = me.uids.effective || a.nsCapable p

/-- `set_one_prio`. The error `none` is `0`, and a success only takes back that no task was
found. -/
def setOnePrio (a : Answers) (me p : Task) (niceval : ℤ) (error : Option Errno) :
    Option Errno × Task :=
  if !setOnePrioPerm a me p then (some .eperm, p)
  else if niceval < p.nice ∧ !a.canNice p niceval then (some .eacces, p)
  else match a.setnice p niceval with
    | some e => (some e, p)
    | none => (if error = some .esrch then none else error, { p with nice := niceval })

/-- The loops over the tasks that are selected. -/
def setPrios (a : Answers) (me : Task) (niceval : ℤ) (select : Task → Bool) (error : Option Errno) :
    List Task → Option Errno × List Task
  | [] => (error, [])
  | p :: ps =>
    if select p then
      let (error, p') := setOnePrio a me p niceval error
      let (error, ps') := setPrios a me niceval select error ps
      (error, p' :: ps')
    else
      let (error, ps') := setPrios a me niceval select error ps
      (error, p :: ps')

def findUser (a : Answers) (tasks : List Task) (uid : Kuid) : Bool :=
  tasks.any (fun p => p.uids.real = uid) || a.known uid

/-- The user that `who` means, unless nobody knows them. -/
def userOf (ns : UserNamespace) (a : Answers) (tasks : List Task) (me : Task) (who : ℤ) : Option Kuid :=
  if who = 0 then some me.uids.real
  else do
    let uid ← ns.uid.make (UInt32.ofInt who)
    if uid = me.uids.real ∨ findUser a tasks uid then some uid else none

/-- The tasks that `PRIO_PROCESS`, `PRIO_PGRP` and `PRIO_USER` select. -/
def selects (ns : UserNamespace) (a : Answers) (tasks : List Task) (me : Task) (which who : ℤ)
    (p : Task) : Bool :=
  if which = 0 then
    let found := if who ≠ 0 then tasks.find? fun q => (q.vpid : ℤ) = who else some me
    found.any fun q => q.tid = p.tid
  else if which = 1 then
    (p.pgrp : ℤ) = if who ≠ 0 then who else me.pgrp
  else
    (userOf ns a tasks me who).any fun uid => p.uids.real = uid && p.vpid ≠ 0

def normalize (niceval : ℤ) : ℤ :=
  let niceval := if niceval < -20 then -20 else niceval
  if niceval > 19 then 19 else niceval

def setpriority (ns : UserNamespace) (a : Answers) (tasks : List Task) (me : Task)
    (which who niceval : ℤ) : Option Errno × List Task :=
  if which > 2 ∨ which < 0 then (some .einval, tasks)
  else setPrios a me (normalize niceval) (selects ns a tasks me which who) (some .esrch) tasks

def niceToRlimit (nice : ℤ) : ℤ := 19 - nice + 1

/-- The loops of `getpriority`, which look for the largest value. -/
def getPrios (select : Task → Bool) (retval : ℤ) : List Task → ℤ
  | [] => retval
  | p :: ps =>
    if select p then
      let niceval := niceToRlimit p.nice
      getPrios select (if niceval > retval then niceval else retval) ps
    else getPrios select retval ps

/-- `getpriority` returns a positive value, `-EINVAL` or `-ESRCH`. -/
def getpriority (ns : UserNamespace) (a : Answers) (tasks : List Task) (me : Task) (which who : ℤ) :
    ℤ :=
  if which > 2 ∨ which < 0 then -22
  else getPrios (selects ns a tasks me which who) (-3) tasks

section Loops

variable {a : Answers} {me p : Task} {n : ℤ} {select : Task → Bool}

def refusal (a : Answers) (me : Task) (n : ℤ) (p : Task) : Option Errno :=
  if !setOnePrioPerm a me p then some .eperm
  else if n < p.nice ∧ !a.canNice p n then some .eacces
  else a.setnice p n

def settled (a : Answers) (me : Task) (n : ℤ) (select : Task → Bool) (p : Task) : Task :=
  if select p ∧ refusal a me n p = none then { p with nice := n } else p

theorem setOnePrio_eq (error : Option Errno) : setOnePrio a me p n error =
    match refusal a me n p with
    | some e => (some e, p)
    | none => (if error = some .esrch then none else error, { p with nice := n }) := by
  rw [setOnePrio, refusal]
  split
  · rfl
  · split
    · rfl
    · rfl

theorem setPrios_snd (error : Option Errno) (tasks : List Task) :
    (setPrios a me n select error tasks).2 = tasks.map (settled a me n select) := by
  induction tasks generalizing error with
  | nil => rfl
  | cons p ps ih =>
    rw [setPrios, List.map_cons]
    cases hselect : select p with
    | false =>
      have hkeep : settled a me n select p = p := by
        rw [settled, hselect, if_neg (by simp)]
      rw [if_neg Bool.false_ne_true, hkeep]
      exact congrArg _ (ih error)
    | true =>
      rw [if_pos rfl, setOnePrio_eq]
      cases hrefusal : refusal a me n p with
      | some e =>
        have hkeep : settled a me n select p = p := by
          rw [settled, hrefusal, if_neg (by simp)]
        rw [hkeep]
        exact congrArg _ (ih _)
      | none =>
        have hset : settled a me n select p = { p with nice := n } := by
          rw [settled, hrefusal, if_pos ⟨hselect, rfl⟩]
        rw [hset]
        exact congrArg _ (ih _)

/-- The error of the loop: that of the last task that refuses, or the one before the loop, which a
success has taken back. -/
theorem setPrios_fst (hesrch : ∀ p, a.setnice p n ≠ some .esrch) (error : Option Errno)
    (tasks : List Task) : (setPrios a me n select error tasks).1 =
      ((tasks.filter select).filterMap (refusal a me n)).getLast?.or
        (if tasks.filter select ≠ [] ∧ error = some .esrch then none else error) := by
  have hne : ∀ p, refusal a me n p ≠ some .esrch := by
    intro p
    rw [refusal]
    split
    · simp
    · split
      · simp
      · exact hesrch p
  induction tasks generalizing error with
  | nil => simp [setPrios]
  | cons p ps ih =>
    rw [setPrios]
    cases hselect : select p with
    | false =>
      rw [if_neg Bool.false_ne_true, List.filter_cons_of_neg (by simp [hselect])]
      exact ih error
    | true =>
      rw [if_pos rfl, List.filter_cons_of_pos hselect, setOnePrio_eq]
      cases hrefusal : refusal a me n p with
      | some e =>
        have he : e ≠ .esrch := by
          rintro rfl
          exact hne p hrefusal
        rw [List.filterMap_cons_some hrefusal]
        refine (ih (some e)).trans ?_
        cases hlast : ((ps.filter select).filterMap (refusal a me n)).getLast? <;>
          simp [hlast, he, List.getLast?_cons]
      | none =>
        rw [List.filterMap_cons_none hrefusal]
        refine (ih _).trans ?_
        congr 1
        by_cases herror : error = some .esrch <;> simp [herror]

theorem getPrios_of_forall {retval : ℤ} {tasks : List Task} (hle : retval ≤ niceToRlimit n)
    (hnice : ∀ p ∈ tasks, select p = true → p.nice = n) :
    getPrios select retval tasks =
      if tasks.any select then niceToRlimit n else retval := by
  induction tasks generalizing retval with
  | nil => rfl
  | cons p ps ih =>
    have hrest : ∀ q ∈ ps, select q = true → q.nice = n :=
      fun q hq => hnice q (List.mem_cons_of_mem _ hq)
    rw [getPrios, List.any_cons]
    cases hselect : select p with
    | false =>
      rw [if_neg Bool.false_ne_true, ih hle hrest, Bool.false_or]
    | true =>
      have hp : niceToRlimit p.nice = niceToRlimit n := by
        rw [hnice p List.mem_cons_self hselect]
      have hmax : (if niceToRlimit n > retval then niceToRlimit n else retval) = niceToRlimit n := by
        split
        · rfl
        · omega
      rw [if_pos rfl, Bool.true_or, if_pos rfl, hp]
      change getPrios select (if niceToRlimit n > retval then niceToRlimit n else retval) ps = _
      rw [hmax, ih (le_refl _) hrest]
      split <;> rfl

end Loops

section Results

variable {ns : UserNamespace} {a a' : Answers} {tasks : List Task} {me me' : Task}
variable {which who niceval n : ℤ} {select : Task → Bool}

theorem normalize_bounds (niceval : ℤ) : -20 ≤ normalize niceval ∧ normalize niceval ≤ 19 := by
  rw [normalize]
  constructor <;> split <;> split <;> omega

theorem settled_fields (a : Answers) (me : Task) (n : ℤ) (select : Task → Bool) (p : Task) :
    (settled a me n select p).tid = p.tid ∧ (settled a me n select p).vpid = p.vpid ∧
      (settled a me n select p).pgrp = p.pgrp ∧ (settled a me n select p).uids = p.uids := by
  rw [settled]
  split <;> exact ⟨rfl, rfl, rfl, rfl⟩

theorem setpriority_eq (hwhich : 0 ≤ which ∧ which ≤ 2)
    (hesrch : ∀ p n, a.setnice p n ≠ some .esrch) (hselect : select = selects ns a tasks me which who)
    (hn : n = normalize niceval) : setpriority ns a tasks me which who niceval =
      (if tasks.filter select = [] then some .esrch
        else ((tasks.filter select).filterMap (refusal a me n)).getLast?,
        tasks.map (settled a me n select)) := by
  rw [setpriority, if_neg (by omega), ← hselect, ← hn]
  apply Prod.ext
  · rw [setPrios_fst fun p => hesrch p _]
    by_cases hnone : tasks.filter select = []
    · rw [if_pos hnone, hnone]
      rfl
    · rw [if_neg hnone, if_pos ⟨hnone, rfl⟩, Option.or_none]
  · exact setPrios_snd _ _

theorem selects_map {f : Task → Task} (hf : ∀ p, (f p).tid = p.tid ∧ (f p).vpid = p.vpid ∧
    (f p).pgrp = p.pgrp ∧ (f p).uids = p.uids) (hknown : a'.known = a.known) (p : Task) :
    selects ns a' (tasks.map f) (f me) which who (f p) = selects ns a tasks me which who p := by
  have hfind : (tasks.map f).find? (fun q => (q.vpid : ℤ) = who) =
      (tasks.find? fun q => (q.vpid : ℤ) = who).map f := by
    rw [List.find?_map]
    congr 2
    funext q
    rw [Function.comp_apply, (hf q).2.1]
  have huser : userOf ns a' (tasks.map f) (f me) who = userOf ns a tasks me who := by
    have hfound : ∀ uid, findUser a' (tasks.map f) uid = findUser a tasks uid := by
      intro uid
      simp only [findUser, List.any_map, Function.comp_def, (hf _).2.2.2, hknown]
    simp only [userOf, hfound, (hf me).2.2.2]
  rw [selects, selects, hfind, huser, (hf p).1, (hf p).2.1, (hf p).2.2.1, (hf p).2.2.2,
    (hf me).2.2.1]
  split
  · split
    · cases tasks.find? fun q => (q.vpid : ℤ) = who with
      | none => rfl
      | some q => simp [(hf q).1]
    · simp [(hf me).1]
  · rfl

/-- After a call that returns `0`, the same caller reads the value that it has set. -/
theorem getpriority_of_setpriority (hme : me ∈ tasks) (htids : (tasks.map Task.tid).Nodup)
    (hwhich : 0 ≤ which ∧ which ≤ 2) (hesrch : ∀ p n, a.setnice p n ≠ some .esrch)
    (hzero : (setpriority ns a tasks me which who niceval).1 = none) (hknown : a'.known = a.known)
    (hme' : me' ∈ (setpriority ns a tasks me which who niceval).2) (htid : me'.tid = me.tid) :
    getpriority ns a' (setpriority ns a tasks me which who niceval).2 me' which who =
      20 - normalize niceval := by
  rw [setpriority_eq hwhich hesrch rfl rfl] at hzero hme' ⊢
  set select := selects ns a tasks me which who
  set n := normalize niceval
  have hfields := settled_fields a me n select
  obtain ⟨hsome, hall⟩ : tasks.filter select ≠ [] ∧
      (tasks.filter select).filterMap (refusal a me n) = [] := by
    dsimp only at hzero
    split at hzero
    · cases hzero
    · next hsome => exact ⟨hsome, List.getLast?_eq_none_iff.mp hzero⟩
  obtain ⟨p, hp, rfl⟩ := List.mem_map.mp hme'
  obtain rfl : p = me := List.inj_on_of_nodup_map htids hp hme ((hfields p).1.symm.trans htid)
  have hsame : ∀ q, selects ns a' (tasks.map (settled a p n select)) (settled a p n select p)
      which who (settled a p n select q) = select q := selects_map hfields hknown
  rw [getpriority, if_neg (by omega), getPrios_of_forall (n := n), if_pos, niceToRlimit]
  · omega
  · obtain ⟨q, hq⟩ := List.exists_mem_of_ne_nil _ hsome
    obtain ⟨hq, hselect⟩ := List.mem_filter.mp hq
    rw [List.any_map, List.any_eq_true]
    exact ⟨q, hq, (hsame q).trans hselect⟩
  · have hbounds := normalize_bounds niceval
    rw [niceToRlimit]
    omega
  · intro q' hq' hselect'
    obtain ⟨q, hq, rfl⟩ := List.mem_map.mp hq'
    have hselect : select q = true := (hsame q).symm.trans hselect'
    have hallowed : refusal a p n q = none :=
      List.filterMap_eq_nil_iff.mp hall q (List.mem_filter.mpr ⟨hq, hselect⟩)
    rw [settled, if_pos ⟨hselect, hallowed⟩]

/-- The outcome of `setpriority`. Every task that is selected and does not refuse gets the new
value, all others keep theirs. The call reports that it found no task, or else the error of the
last task that refuses, or success when none does. After a success `getpriority` gives the caller
the value that it has set. -/
theorem setpriority_outcome (ns : UserNamespace) (a : Answers) (tasks : List Task) (me : Task)
    (which who niceval : ℤ) (hwhich : 0 ≤ which ∧ which ≤ 2) (hme : me ∈ tasks)
    (htids : (tasks.map Task.tid).Nodup) (hesrch : ∀ p n, a.setnice p n ≠ some .esrch) :
    setpriority ns a tasks me which who niceval =
      (if tasks.filter (selects ns a tasks me which who) = [] then some .esrch
        else ((tasks.filter (selects ns a tasks me which who)).filterMap
          (refusal a me (normalize niceval))).getLast?,
        tasks.map (settled a me (normalize niceval) (selects ns a tasks me which who))) ∧
    ((setpriority ns a tasks me which who niceval).1 = none →
      ∀ a' : Answers, a'.known = a.known →
        ∀ me' ∈ (setpriority ns a tasks me which who niceval).2, me'.tid = me.tid →
          getpriority ns a' (setpriority ns a tasks me which who niceval).2 me' which who =
            20 - normalize niceval) := by
  refine ⟨setpriority_eq hwhich hesrch rfl rfl, ?_⟩
  intro hzero a' hknown me' hme' htid
  exact getpriority_of_setpriority hme htids hwhich hesrch hzero hknown hme' htid

def group : List Task :=
  [⟨1, 1, 1, .constant ⟨1000⟩, 0⟩, ⟨2, 2, 1, .constant ⟨1000⟩, 5⟩, ⟨3, 3, 1, .constant ⟨50⟩, 0⟩]

def ordinary : Answers := ⟨fun _ => false, fun _ _ => false, fun _ _ => none, fun _ => false⟩

/-- For the group the call fails and still changes two of the three tasks. For the user of the
caller it succeeds. -/
theorem setpriority_outcome_group :
    setpriority initUserNs ordinary group ⟨1, 1, 1, .constant ⟨1000⟩, 0⟩ 1 0 30 =
      (some .eperm, [⟨1, 1, 1, .constant ⟨1000⟩, 19⟩, ⟨2, 2, 1, .constant ⟨1000⟩, 19⟩,
        ⟨3, 3, 1, .constant ⟨50⟩, 0⟩]) ∧
    getpriority initUserNs ordinary
      (setpriority initUserNs ordinary group ⟨1, 1, 1, .constant ⟨1000⟩, 0⟩ 2 0 30).2
      ⟨1, 1, 1, .constant ⟨1000⟩, 19⟩ 2 0 = 1 := by
  constructor
  · rw [(setpriority_outcome initUserNs ordinary group ⟨1, 1, 1, .constant ⟨1000⟩, 0⟩ 1 0 30
      (by decide) (by decide) (by decide) (by simp [ordinary])).1]
    decide
  · exact (setpriority_outcome initUserNs ordinary group ⟨1, 1, 1, .constant ⟨1000⟩, 0⟩ 2 0 30
      (by decide) (by decide) (by decide) (by simp [ordinary])).2 (by decide) ordinary rfl _
      (by decide) rfl

end Results

section Runs

variable {ns : UserNamespace} {env : List Task → List Task → Prop} {tasks tasks' : List Task}

/-- What is assumed of the rest of the kernel, which makes and ends tasks and changes their
credentials and groups: each task has the nice value that a task had before, it itself or, when it is
new, its parent. -/
def Inherits (env : List Task → List Task → Prop) : Prop :=
  ∀ tasks tasks', env tasks tasks' → ∀ p' ∈ tasks', ∃ p ∈ tasks, p'.nice = p.nice

inductive Step (ns : UserNamespace) (env : List Task → List Task → Prop) (P : Answers → Prop)
    (tasks : List Task) : List Task → Prop
  | call (me : Task) (a : Answers) (which who niceval : ℤ) (hme : me ∈ tasks) (ha : P a) :
    Step ns env P tasks (setpriority ns a tasks me which who niceval).2
  | other {tasks' : List Task} (henv : env tasks tasks') : Step ns env P tasks tasks'

/-- The rest of the kernel lets no one lower a nice value. -/
def Answers.Strict (a : Answers) : Prop := ∀ p n, n < p.nice → a.canNice p n = false

theorem setpriority_snd_cases (ns : UserNamespace) (a : Answers) (tasks : List Task) (me : Task)
    (which who niceval : ℤ) : (setpriority ns a tasks me which who niceval).2 = tasks ∨
      (setpriority ns a tasks me which who niceval).2 =
        tasks.map (settled a me (normalize niceval) (selects ns a tasks me which who)) := by
  rw [setpriority]
  split
  · exact .inl rfl
  · exact .inr (setPrios_snd _ _)

/-- Where each nice value after a step comes from. -/
theorem step_nice (henv : Inherits env) {P : Answers → Prop} (hstep : Step ns env P tasks tasks') :
    ∀ p' ∈ tasks', ∃ p ∈ tasks, p'.nice = p.nice ∨
      ∃ a niceval, P a ∧ p'.nice = normalize niceval ∧
        (a.Strict → p.nice ≤ normalize niceval) := by
  intro p' hp'
  cases hstep with
  | call me a which who niceval hme ha =>
    obtain hsame | hmap := setpriority_snd_cases ns a tasks me which who niceval
    · rw [hsame] at hp'
      exact ⟨p', hp', .inl rfl⟩
    · rw [hmap] at hp'
      obtain ⟨p, hp, rfl⟩ := List.mem_map.mp hp'
      refine ⟨p, hp, ?_⟩
      rw [settled]
      split
      · next h =>
        refine .inr ⟨a, niceval, ha, rfl, ?_⟩
        intro hstrict
        by_contra hlow
        have hrefusal := h.2
        rw [refusal, hstrict p _ (by omega)] at hrefusal
        split at hrefusal
        · cases hrefusal
        · rw [if_pos ⟨by omega, rfl⟩] at hrefusal
          cases hrefusal
      · exact .inl rfl
  | other hother =>
    obtain ⟨p, hp, hsame⟩ := henv tasks tasks' hother p' hp'
    exact ⟨p, hp, .inl hsame⟩

/-- The nice values along every run of calls, between which the rest of the kernel lets tasks inherit
them, stay between `-20` and `19`. While `can_nice` lets nobody lower one, each task has at least the
nice value that one task had at the start: itself, or the ancestor that it descends from. -/
theorem nice_along_run (henv : Inherits env) (ns : UserNamespace) (tasks : List Task)
    (hrange : ∀ p ∈ tasks, -20 ≤ p.nice ∧ p.nice ≤ 19) :
    (∀ tasks', ReflTransGen (Step ns env fun _ => True) tasks tasks' →
      ∀ p ∈ tasks', -20 ≤ p.nice ∧ p.nice ≤ 19) ∧
    ∀ tasks', ReflTransGen (Step ns env Answers.Strict) tasks tasks' →
      ∀ p' ∈ tasks', ∃ p ∈ tasks, p.nice ≤ p'.nice := by
  constructor
  · intro tasks' hrun
    refine run_invariant (P := fun tasks => ∀ p ∈ tasks, -20 ≤ p.nice ∧ p.nice ≤ 19) ?_ hrange hrun
    intro tasks₁ tasks₂ h₁ hstep p' hp'
    obtain ⟨p, hp, hsame | ⟨a, niceval, -, hset, -⟩⟩ := step_nice henv hstep p' hp'
    · rw [hsame]
      exact h₁ p hp
    · rw [hset]
      exact normalize_bounds niceval
  · intro tasks' hrun
    refine run_invariant (P := fun tasks' => ∀ p' ∈ tasks', ∃ p ∈ tasks, p.nice ≤ p'.nice) ?_
      (fun p hp => ⟨p, hp, le_refl _⟩) hrun
    intro tasks₁ tasks₂ h₁ hstep p₂ hp₂
    obtain ⟨p₁, hp₁, hnice⟩ := step_nice henv hstep p₂ hp₂
    obtain ⟨p, hp, hle⟩ := h₁ p₁ hp₁
    refine ⟨p, hp, ?_⟩
    rcases hnice with hsame | ⟨a, niceval, hstrict, hset, hup⟩
    · rw [hsame]
      exact hle
    · rw [hset]
      exact hle.trans (hup hstrict)

/-- A fork of a task that keeps its nice value. -/
def Forks (tasks tasks' : List Task) : Prop :=
  ∃ parent ∈ tasks, ∃ tid vpid, tasks' = { parent with tid, vpid } :: tasks

theorem inherits_forks : Inherits Forks := by
  rintro tasks - ⟨parent, hparent, tid, vpid, rfl⟩ p' hp'
  rcases List.mem_cons.mp hp' with rfl | hold
  · exact ⟨parent, hparent, rfl⟩
  · exact ⟨p', hold, rfl⟩

/-- The last task of the group forks, and its child makes itself nicer. -/
theorem nice_along_run_group :
    (∃ tasks', ReflTransGen (Step initUserNs Forks Answers.Strict) group tasks' ∧
      ⟨4, 4, 1, .constant ⟨50⟩, 7⟩ ∈ tasks') ∧
    ∀ tasks', ReflTransGen (Step initUserNs Forks Answers.Strict) group tasks' →
      ∀ p' ∈ tasks', ∃ p ∈ group, p.nice ≤ p'.nice := by
  refine ⟨?_, (nice_along_run inherits_forks initUserNs group (by decide)).2⟩
  have hfork : ReflTransGen (Step initUserNs Forks Answers.Strict) group
      (⟨4, 4, 1, .constant ⟨50⟩, 0⟩ :: group) :=
    .single (.other ⟨⟨3, 3, 1, .constant ⟨50⟩, 0⟩, by decide, 4, 4, rfl⟩)
  exact ⟨_, hfork.tail (.call ⟨4, 4, 1, .constant ⟨50⟩, 0⟩ ordinary 0 0 7 List.mem_cons_self
    fun _ _ _ => rfl), by decide⟩

end Runs

end EmbeddedSoftware.Priorities
