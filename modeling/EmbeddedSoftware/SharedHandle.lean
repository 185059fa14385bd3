import EmbeddedSoftware.RunRules
import Mathlib.Logic.Function.Basic
import Mathlib.Tactic.Common

/-!
# One file handle for all threads

The threads of the program share a structure with one field `fileop`, where each of them
stores the stream that it is about to use. The first thread and the timer callbacks do that
with `pmutex` locked, from the opening of their first file to their last line. The second
thread stores its own stream without the lock.
-/

namespace EmbeddedSoftware.SharedHandle

open Relation RunRules

inductive Thread where
  | main | child1 | child2 | callback (n : ℕ)
  deriving DecidableEq

/-- The streams that the threads open: `main` opens the log twice, the first thread `gdb.txt`
and the log, the second one the log, and each callback a command and the log. -/
inductive Stream where
  | main (final : Bool) | gdb | report | thread2 | cpu (n : ℕ) | usage (n : ℕ)
  deriving DecidableEq

inductive MainPc where
  | create1 | create2 | join1 | join2 | openLog | printTime | printSignal | printExit | done
  deriving DecidableEq

inductive Pc1 where
  | start | lock | openGdb | check | fgetc | count | openLog | printTime | printIds
  | printHeading | letters | printExit | unlock | done
  deriving DecidableEq

inductive Pc2 where
  | start | openLog | printTime | printIds | settime | sleeping | cancelled
  deriving DecidableEq

inductive CallbackPc where
  | start | lock | popen | check | fread | openLog | printTime | printIds | printHeading
  | printUsage | unlock | done
  deriving DecidableEq

/-- The variables of `child_thread_1`, and the lines of its report. -/
structure Child1 where
  pc : Pc1
  capitalletter : UInt8
  j : ℕ
  arrayprint : ℕ → BitVec 32
  letters : List (ℕ × BitVec 32)

/-- The shared variables and the threads. The field `storedBy` is the thread that has assigned
`fileop` last, and `reads` and `prints` are the streams that `child_thread_1` has read from
and printed to. -/
structure State where
  fileop : Option Stream
  storedBy : Thread
  mutex : Option Thread
  unread : Stream → List UInt8
  main : MainPc
  child1 : Child1
  child2 : Pc2
  timer : Bool
  callbacks : List CallbackPc
  ended : Bool
  reads : List (Option Stream)
  prints : List (Option Stream)

/-- A step of a thread, where `popen` may fail; a signal that cancels the second thread; an
expiry of the timer. -/
inductive Event where
  | main | child1 | child2 | callback (n : ℕ) (opened : Bool) | cancel | expire
  deriving DecidableEq

structure Files where
  gdb : Option (List UInt8)
  cpu : List UInt8

/-- After `main` has stored its own stream. -/
def initial : State where
  fileop := some (.main false)
  storedBy := .main
  mutex := none
  unread := fun _ => []
  main := .create1
  child1 := ⟨.start, 0, 0, fun _ => 0, []⟩
  child2 := .start
  timer := false
  callbacks := []
  ended := false
  reads := []
  prints := []

def tolower (c : UInt8) : UInt8 := if 65 ≤ c ∧ c ≤ 90 then c + 32 else c

def truth (p : Prop) [Decidable p] : ℕ := if p then 1 else 0

namespace State

def store (s : State) (thread : Thread) (stream : Option Stream) : State :=
  { s with fileop := stream, storedBy := thread }

def at1 (s : State) (pc : Pc1) : State := { s with child1 := { s.child1 with pc := pc } }

def print1 (s : State) (next : Pc1) : State := { s.at1 next with prints := s.prints ++ [s.fileop] }

/-- A fopen for reading: the whole file is still to be read. -/
def openGdb (files : Files) (s : State) : State :=
  match files.gdb with
  | none => (s.store .child1 none).at1 .check
  | some content =>
    { (s.store .child1 (some .gdb)).at1 .check with
      unread := Function.update s.unread .gdb content }

/-- `while((capitalletter=fgetc((*fpointer).fileop))!=EOF)`. The byte 255 is `EOF` as a `char`.
A stream that was opened for writing gives `EOF`. -/
def fgetc (s : State) : State :=
  let s := { s with reads := s.reads ++ [s.fileop] }
  match s.fileop with
  | none => s.at1 .openLog
  | some stream =>
    match s.unread stream with
    | [] => s.at1 .openLog
    | c :: rest =>
      let s := { s with unread := Function.update s.unread stream rest }
      if c = 255 then s.at1 .openLog
      else { s with child1 := { s.child1 with capitalletter := c, pc := .count } }

/-- The body of the loop, whose test `97<=charval<=122` compares a truth value with 122. -/
def count (s : State) : State :=
  let charval := tolower s.child1.capitalletter
  if truth (97 ≤ charval) ≤ 122 then
    let i := (charval - 97).toNat
    { s with child1 := { s.child1 with
        arrayprint := Function.update s.child1.arrayprint i (s.child1.arrayprint i + 1)
        pc := .fgetc } }
  else s.at1 .fgetc

def letter (s : State) : State :=
  let j := s.child1.j
  if j < 26 then
    if s.child1.arrayprint j < 100 then
      { s with
        child1 := { s.child1 with
          j := j + 1, letters := s.child1.letters ++ [(j + 97, s.child1.arrayprint j)] }
        prints := s.prints ++ [s.fileop] }
    else { s with child1 := { s.child1 with j := j + 1 } }
  else s.at1 .printExit

def execChild1 (files : Files) (s : State) : Option State :=
  match s.child1.pc with
  | .start => if s.main = .create1 then none else some (s.at1 .lock)
  | .lock => if s.mutex = none then some { s.at1 .openGdb with mutex := some .child1 } else none
  | .openGdb => some (s.openGdb files)
  | .check => if s.fileop = none then some { s with ended := true } else some (s.at1 .fgetc)
  | .fgetc => some s.fgetc
  | .count => some s.count
  | .openLog => some ((s.store .child1 (some .report)).at1 .printTime)
  | .printTime => some (s.print1 .printIds)
  | .printIds => some (s.print1 .printHeading)
  | .printHeading => some (s.print1 .letters)
  | .letters => some s.letter
  | .printExit => some (s.print1 .unlock)
  | .unlock => some { s.at1 .done with mutex := none }
  | .done => none

def execChild2 (s : State) : Option State :=
  match s.child2 with
  | .start =>
    if s.main = .create1 ∨ s.main = .create2 then none else some { s with child2 := .openLog }
  | .openLog => some { s.store .child2 (some .thread2) with child2 := .printTime }
  | .printTime => some { s with child2 := .printIds }
  | .printIds => some { s with child2 := .settime }
  | .settime => some { s with child2 := .sleeping, timer := true }
  | .sleeping => none
  | .cancelled => none

def execMain (s : State) : Option State :=
  match s.main with
  | .create1 => some { s with main := .create2 }
  | .create2 => some { s with main := .join1 }
  | .join1 => if s.child1.pc = .done then some { s with main := .join2 } else none
  | .join2 => if s.child2 = .cancelled then some { s with main := .openLog } else none
  | .openLog => some { s.store .main (some (.main true)) with main := .printTime }
  | .printTime => some { s with main := .printSignal }
  | .printSignal => some { s with main := .printExit }
  | .printExit => some { s with main := .done, ended := true }
  | .done => none

def callbackAt (s : State) (n : ℕ) (pc : CallbackPc) : State :=
  { s with callbacks := s.callbacks.set n pc }

def fread (s : State) : State :=
  match s.fileop with
  | none => s
  | some stream => { s with unread := Function.update s.unread stream ((s.unread stream).drop 600) }

def execCallback (files : Files) (s : State) (n : ℕ) (opened : Bool) : Option State :=
  match s.callbacks[n]? with
  | some .start => some (s.callbackAt n .lock)
  | some .lock =>
    if s.mutex = none then some { s.callbackAt n .popen with mutex := some (.callback n) } else none
  | some .popen =>
    if opened then
      some { (s.store (.callback n) (some (.cpu n))).callbackAt n .check with
        unread := Function.update s.unread (.cpu n) files.cpu }
    else some ((s.store (.callback n) none).callbackAt n .check)
  | some .check =>
    if s.fileop = none then some { s with ended := true } else some (s.callbackAt n .fread)
  | some .fread => some (s.fread.callbackAt n .openLog)
  | some .openLog => some ((s.store (.callback n) (some (.usage n))).callbackAt n .printTime)
  | some .printTime => some (s.callbackAt n .printIds)
  | some .printIds => some (s.callbackAt n .printHeading)
  | some .printHeading => some (s.callbackAt n .printUsage)
  | some .printUsage => some (s.callbackAt n .unlock)
  | some .unlock => some { s.callbackAt n .done with mutex := none }
  | some .done => none
  | none => none

def exec (files : Files) (s : State) (e : Event) : Option State :=
  if s.ended then none
  else match e with
    | .main => s.execMain
    | .child1 => s.execChild1 files
    | .child2 => s.execChild2
    | .callback n opened => s.execCallback files n opened
    | .cancel => if s.child2 = .start then none else some { s with child2 := .cancelled }
    | .expire => if s.timer then some { s with callbacks := s.callbacks ++ [.start] } else none

end State

def Run (files : Files) : State → State → Prop := ReflTransGen (EventStep (State.exec files))

/-- Between the opening of `gdb.txt` and the unlock. -/
def Pc1.inside : Pc1 → Bool
  | .start | .lock | .openGdb | .done => false
  | _ => true

/-- What `child_thread_1` may rely on: while it is inside, nobody else stores a stream; it reads
from `gdb.txt` only and prints to its own stream of the log only. -/
structure Exclusive (s : State) : Prop where
  storedBy : s.child1.pc.inside → s.storedBy = .child1
  reads : ∀ stream ∈ s.reads, stream = some .gdb
  prints : ∀ stream ∈ s.prints, stream = some .report

def Outside (s : State) (e : Event) : Prop :=
  e = .child2 → s.child2 = .openLog → s.child1.pc.inside = false

instance (s : State) (e : Event) : Decidable (Outside s e) :=
  inferInstanceAs (Decidable (e = .child2 → s.child2 = .openLog → s.child1.pc.inside = false))

def OutsideRun (files : Files) : State → State → Prop :=
  ReflTransGen (EventStep (guarded (State.exec files) Outside))

def Pc1.locked : Pc1 → Bool
  | .start | .lock | .done => false
  | _ => true

def CallbackPc.locked : CallbackPc → Bool
  | .start | .lock | .done => false
  | _ => true

def MainPc.joined : MainPc → Bool
  | .create1 | .create2 | .join1 => false
  | _ => true

theorem Pc1.locked_of_inside {pc : Pc1} (h : pc.inside = true) : pc.locked = true := by
  revert h
  cases pc <;> decide

section Threads

variable {files : Files} {s s' : State} {n : ℕ} {opened : Bool}

/-- What a step of the first thread does to the lock. -/
inductive Child1Lock (s s' : State) : Prop
  | lock (pc : s.child1.pc = .lock) (hfree : s.mutex = none) (htaken : s'.mutex = some .child1)
  | unlock (pc : s.child1.pc = .unlock) (hfree : s'.mutex = none) (hdone : s'.child1.pc = .done)
  | keep (hmutex : s'.mutex = s.mutex) (hlocked : s'.child1.pc.locked → s.child1.pc.locked)
      (hdone : s.child1.pc ≠ .done)

theorem execChild1_keeps (he : s.execChild1 files = some s') :
    s'.callbacks = s.callbacks ∧ s'.main = s.main ∧ s'.child2 = s.child2 := by
  simp only [State.execChild1, State.openGdb, State.fgetc, State.count, State.letter] at he
  repeat' split at he
  all_goals cases he
  all_goals exact ⟨rfl, rfl, rfl⟩

theorem child1Lock_of_exec (he : s.execChild1 files = some s') : Child1Lock s s' := by
  cases hpc : s.child1.pc with
  | lock =>
    simp only [State.execChild1, hpc] at he
    split at he <;> cases he
    next hfree => exact .lock hpc hfree rfl
  | unlock =>
    simp only [State.execChild1, hpc] at he
    cases he
    exact .unlock hpc rfl rfl
  | done => simp [State.execChild1, hpc] at he
  | _ =>
    simp only [State.execChild1, State.openGdb, State.fgetc, State.count, State.letter, hpc] at he
    repeat' split at he
    all_goals cases he
    all_goals
      refine .keep rfl ?_ (by simp [hpc])
      simp [State.at1, State.print1, State.store, hpc, Pc1.locked]

/-- What nobody but the first thread changes. -/
structure Spares (s s' : State) : Prop where
  child1 : s'.child1 = s.child1
  reads : s'.reads = s.reads
  prints : s'.prints = s.prints

/-- What a step of a callback does to the lock. -/
inductive CallbackLock (n : ℕ) (s s' : State) (pc pc' : CallbackPc) : Prop
  | lock (hpc : pc = .lock) (hfree : s.mutex = none) (htaken : s'.mutex = some (.callback n))
  | unlock (hpc : pc = .unlock) (hfree : s'.mutex = none) (hdone : pc' = .done)
  | keep (hmutex : s'.mutex = s.mutex) (hlocked : pc'.locked → pc.locked)

theorem callbackAt_getElem? {pc : CallbackPc} (hn : s.callbacks[n]? = some pc) (pc' : CallbackPc)
    (k : ℕ) :
    (s.callbackAt n pc').callbacks[k]? = if k = n then some pc' else s.callbacks[k]? := by
  have hlt : n < s.callbacks.length := (List.getElem?_eq_some_iff.mp hn).1
  rw [State.callbackAt, List.getElem?_set]
  by_cases hk : k = n
  · subst hk
    simp [hlt]
  · simp [hk, Ne.symm hk]

/-- A callback moves itself on and nobody else. -/
theorem execCallback_cases (he : s.execCallback files n opened = some s') :
    Spares s s' ∧ s'.main = s.main ∧ ∃ pc pc', s.callbacks[n]? = some pc ∧
      (∀ k, s'.callbacks[k]? = if k = n then some pc' else s.callbacks[k]?) ∧
      CallbackLock n s s' pc pc' ∧
      (s'.fileop = s.fileop ∧ s'.storedBy = s.storedBy ∨ pc.locked) := by
  cases hpc : s.callbacks[n]? with
  | none => simp [State.execCallback, hpc] at he
  | some pc =>
    have hset := callbackAt_getElem? hpc
    cases pc with
    | start =>
      simp only [State.execCallback, hpc] at he
      cases he
      exact ⟨⟨rfl, rfl, rfl⟩, rfl, _, _, rfl, hset _, .keep rfl (by decide), Or.inl ⟨rfl, rfl⟩⟩
    | lock =>
      simp only [State.execCallback, hpc] at he
      split at he <;> cases he
      next hfree =>
      exact ⟨⟨rfl, rfl, rfl⟩, rfl, _, _, rfl, hset _, .lock rfl hfree rfl, Or.inl ⟨rfl, rfl⟩⟩
    | check =>
      simp only [State.execCallback, hpc] at he
      split at he <;> cases he
      · refine ⟨⟨rfl, rfl, rfl⟩, rfl, _, .check, rfl, ?_, .keep rfl (by decide), Or.inr rfl⟩
        intro k
        by_cases hk : k = n
        · simp [hk, hpc]
        · simp [hk]
      · exact ⟨⟨rfl, rfl, rfl⟩, rfl, _, _, rfl, hset _, .keep rfl (by decide), Or.inr rfl⟩
    | popen | fread =>
      simp only [State.execCallback, State.fread, hpc] at he
      split at he <;> cases he
      · exact ⟨⟨rfl, rfl, rfl⟩, rfl, _, _, rfl, hset _, .keep rfl (by decide), Or.inr rfl⟩
      · exact ⟨⟨rfl, rfl, rfl⟩, rfl, _, _, rfl, hset _, .keep rfl (by decide), Or.inr rfl⟩
    | openLog | printTime | printIds | printHeading | printUsage =>
      simp only [State.execCallback, hpc] at he
      cases he
      exact ⟨⟨rfl, rfl, rfl⟩, rfl, _, _, rfl, hset _, .keep rfl (by decide), Or.inr rfl⟩
    | unlock =>
      simp only [State.execCallback, hpc] at he
      cases he
      exact ⟨⟨rfl, rfl, rfl⟩, rfl, _, _, rfl, hset _, .unlock rfl rfl rfl, Or.inr rfl⟩
    | done => simp [State.execCallback, hpc] at he

/-- Whoever is in a locked part has the lock, and `main` goes on after the first thread only. -/
structure Locked (s : State) : Prop where
  child1 : s.child1.pc.locked → s.mutex = some .child1
  callback : ∀ (k : ℕ) (pc : CallbackPc),
    s.callbacks[k]? = some pc → pc.locked → s.mutex = some (.callback k)
  joined : s.main.joined → s.child1.pc = .done

theorem locked_initial : Locked initial where
  child1 := fun h => Bool.noConfusion h
  callback := fun _ _ h => by simp [initial] at h
  joined := fun h => Bool.noConfusion h

theorem Locked.stepChild1 (h : Locked s) (he : s.execChild1 files = some s') : Locked s' := by
  obtain ⟨hcallbacks, hmain, -⟩ := execChild1_keeps he
  have hlock := child1Lock_of_exec he
  refine ⟨?_, ?_, ?_⟩
  · intro hlocked
    cases hlock with
    | lock _ _ htaken => exact htaken
    | unlock _ _ hdone => simp [hdone, Pc1.locked] at hlocked
    | keep hmutex hkeep => rw [hmutex, h.child1 (hkeep hlocked)]
  · intro k pc hk hlocked
    rw [hcallbacks] at hk
    have hholds := h.callback k pc hk hlocked
    cases hlock with
    | lock _ hfree => simp [hfree] at hholds
    | unlock hpc =>
      rw [h.child1 (by simp [hpc, Pc1.locked])] at hholds
      cases hholds
    | keep hmutex => rw [hmutex, hholds]
  · intro hjoined
    rw [hmain] at hjoined
    have hdone := h.joined hjoined
    simp [State.execChild1, hdone] at he

theorem Locked.stepCallback (h : Locked s) (he : s.execCallback files n opened = some s') :
    Locked s' := by
  obtain ⟨hspares, hmain, pc, pc', hn, hcallbacks, hlock, -⟩ := execCallback_cases he
  refine ⟨?_, ?_, ?_⟩
  · intro hlocked
    rw [hspares.child1] at hlocked
    have hholds := h.child1 hlocked
    cases hlock with
    | lock _ hfree => simp [hfree] at hholds
    | unlock hpc =>
      rw [h.callback n pc hn (by simp [hpc, CallbackPc.locked])] at hholds
      cases hholds
    | keep hmutex => rw [hmutex, hholds]
  · intro k pcₖ hk hlocked
    rw [hcallbacks] at hk
    by_cases hkn : k = n
    · subst hkn
      rw [if_pos rfl] at hk
      cases hk
      cases hlock with
      | lock _ _ htaken => exact htaken
      | unlock _ _ hdone => simp [hdone, CallbackPc.locked] at hlocked
      | keep hmutex hkeep => rw [hmutex, h.callback k pc hn (hkeep hlocked)]
    · rw [if_neg hkn] at hk
      have hholds := h.callback k pcₖ hk hlocked
      cases hlock with
      | lock _ hfree => simp [hfree] at hholds
      | unlock hpc =>
        rw [h.callback n pc hn (by simp [hpc, CallbackPc.locked])] at hholds
        cases hholds
        exact absurd rfl hkn
      | keep hmutex => rw [hmutex, hholds]
  · rw [hmain, hspares.child1]
    exact h.joined

/-- The second thread and `main` leave the lock and the callbacks alone. -/
structure SparesLock (s s' : State) : Prop extends Spares s s' where
  mutex : s'.mutex = s.mutex
  callbacks : s'.callbacks = s.callbacks

theorem execChild2_cases (he : s.execChild2 = some s') : SparesLock s s' ∧ s'.main = s.main ∧
    (s'.fileop = s.fileop ∧ s'.storedBy = s.storedBy ∨ s.child2 = .openLog) := by
  cases hpc : s.child2 with
  | start =>
    simp only [State.execChild2, hpc] at he
    split at he <;> cases he
    exact ⟨⟨⟨rfl, rfl, rfl⟩, rfl, rfl⟩, rfl, Or.inl ⟨rfl, rfl⟩⟩
  | openLog =>
    simp only [State.execChild2, hpc] at he
    cases he
    exact ⟨⟨⟨rfl, rfl, rfl⟩, rfl, rfl⟩, rfl, Or.inr rfl⟩
  | printTime | printIds | settime =>
    simp only [State.execChild2, hpc] at he
    cases he
    exact ⟨⟨⟨rfl, rfl, rfl⟩, rfl, rfl⟩, rfl, Or.inl ⟨rfl, rfl⟩⟩
  | sleeping => simp [State.execChild2, hpc] at he
  | cancelled => simp [State.execChild2, hpc] at he

theorem execMain_cases (he : s.execMain = some s') : SparesLock s s' ∧
    (s'.main.joined → s.main.joined ∨ s.child1.pc = .done) ∧
    (s'.fileop = s.fileop ∧ s'.storedBy = s.storedBy ∨ s.main.joined) := by
  cases hpc : s.main with
  | create1 | create2 =>
    simp only [State.execMain, hpc] at he
    cases he
    exact ⟨⟨⟨rfl, rfl, rfl⟩, rfl, rfl⟩, fun h => Bool.noConfusion h, Or.inl ⟨rfl, rfl⟩⟩
  | join1 =>
    simp only [State.execMain, hpc] at he
    split at he <;> cases he
    next hdone =>
    exact ⟨⟨⟨rfl, rfl, rfl⟩, rfl, rfl⟩, fun _ => Or.inr hdone, Or.inl ⟨rfl, rfl⟩⟩
  | join2 =>
    simp only [State.execMain, hpc] at he
    split at he <;> cases he
    exact ⟨⟨⟨rfl, rfl, rfl⟩, rfl, rfl⟩, fun _ => Or.inl rfl, Or.inl ⟨rfl, rfl⟩⟩
  | openLog | printTime | printSignal | printExit =>
    simp only [State.execMain, hpc] at he
    cases he
    exact ⟨⟨⟨rfl, rfl, rfl⟩, rfl, rfl⟩, fun _ => Or.inl rfl, Or.inr rfl⟩
  | done => simp [State.execMain, hpc] at he

theorem Locked.of_spares (h : Locked s) (hspares : SparesLock s s')
    (hjoined : s'.main.joined → s.main.joined ∨ s.child1.pc = .done) : Locked s' := by
  refine ⟨?_, ?_, ?_⟩
  · rw [hspares.mutex, hspares.child1]
    exact h.child1
  · rw [hspares.mutex, hspares.callbacks]
    exact h.callback
  · intro hnow
    rw [hspares.child1]
    rcases hjoined hnow with hbefore | hdone
    · exact h.joined hbefore
    · exact hdone

theorem Locked.step {e : Event} (h : Locked s) (he : s.exec files e = some s') : Locked s' := by
  rw [State.exec.eq_def] at he
  split at he
  · cases he
  · cases e with
    | main =>
      obtain ⟨hspares, hjoined, -⟩ := execMain_cases he
      exact h.of_spares hspares hjoined
    | child1 => exact h.stepChild1 he
    | child2 =>
      obtain ⟨hspares, hmain, -⟩ := execChild2_cases he
      apply h.of_spares hspares
      rw [hmain]
      exact Or.inl
    | callback n opened => exact h.stepCallback he
    | cancel =>
      simp only at he
      split at he <;> cases he
      exact ⟨h.child1, h.callback, h.joined⟩
    | expire =>
      simp only at he
      split at he <;> cases he
      refine ⟨h.child1, ?_, h.joined⟩
      intro k pc hk hlocked
      rw [List.getElem?_append] at hk
      split at hk
      · exact h.callback k pc hk hlocked
      · have hstart : pc = .start := by
          rw [List.getElem?_singleton] at hk
          split at hk <;> cases hk
          rfl
        simp [hstart, CallbackPc.locked] at hlocked

def Handle (pc : Pc1) (fileop : Option Stream) : Prop :=
  match pc with
  | .start | .lock | .openGdb | .done => True
  | .check => fileop = none ∨ fileop = some .gdb
  | .fgetc | .count | .openLog => fileop = some .gdb
  | .printTime | .printIds | .printHeading | .letters | .printExit | .unlock =>
    fileop = some .report

structure Owned (s : State) : Prop extends Exclusive s where
  handle : Handle s.child1.pc s.fileop

theorem owned_initial : Owned initial :=
  ⟨⟨fun h => Bool.noConfusion h, by simp [initial], by simp [initial]⟩, trivial⟩

theorem Owned.of_spares (h : Owned s) (hspares : Spares s s') (hfileop : s'.fileop = s.fileop)
    (hstored : s'.storedBy = s.storedBy) : Owned s' := by
  refine ⟨⟨?_, ?_, ?_⟩, ?_⟩
  · rw [hspares.child1, hstored]
    exact h.storedBy
  · rw [hspares.reads]
    exact h.reads
  · rw [hspares.prints]
    exact h.prints
  · rw [hspares.child1, hfileop]
    exact h.handle

theorem handle_of_outside {pc : Pc1} (h : pc.inside = false) (fileop : Option Stream) :
    Handle pc fileop := by
  cases pc <;> trivial

theorem Owned.of_outside (h : Owned s) (hspares : Spares s s')
    (hout : s.child1.pc.inside = false) : Owned s' := by
  refine ⟨⟨?_, ?_, ?_⟩, ?_⟩
  · rw [hspares.child1, hout]
    exact fun h => Bool.noConfusion h
  · rw [hspares.reads]
    exact h.reads
  · rw [hspares.prints]
    exact h.prints
  · rw [hspares.child1]
    exact handle_of_outside hout _

/-- Each `fprintf` of the report goes to the stream that the thread has opened. -/
theorem Owned.print1 {next : Pc1} (h : Owned s) (hinside : s.child1.pc.inside = true)
    (hfileop : s.fileop = some .report) (hnext : Handle next (some .report)) :
    Owned (s.print1 next) := by
  have hprints : ∀ stream ∈ s.prints ++ [s.fileop], stream = some .report :=
    List.forall_mem_append.mpr ⟨h.prints, List.forall_mem_singleton.mpr hfileop⟩
  refine ⟨⟨fun _ => h.storedBy hinside, h.reads, hprints⟩, ?_⟩
  change Handle next s.fileop
  rw [hfileop]
  exact hnext

theorem Owned.openGdb (h : Owned s) : Owned (s.openGdb files) := by
  rw [State.openGdb]
  split
  · exact ⟨⟨fun _ => rfl, h.reads, h.prints⟩, Or.inl rfl⟩
  · exact ⟨⟨fun _ => rfl, h.reads, h.prints⟩, Or.inr rfl⟩

theorem Owned.fgetc (h : Owned s) (pc : s.child1.pc = .fgetc) : Owned s.fgetc := by
  have hstored := h.storedBy (by rw [pc]; rfl)
  have hfileop : s.fileop = some .gdb := by
    have hhandle := h.handle
    rw [pc] at hhandle
    exact hhandle
  have hreads : ∀ stream ∈ s.reads ++ [some .gdb], stream = some .gdb :=
    List.forall_mem_append.mpr ⟨h.reads, List.forall_mem_singleton.mpr rfl⟩
  simp only [State.fgetc, hfileop]
  split
  · exact ⟨⟨fun _ => hstored, hreads, h.prints⟩, rfl⟩
  · split
    · exact ⟨⟨fun _ => hstored, hreads, h.prints⟩, rfl⟩
    · exact ⟨⟨fun _ => hstored, hreads, h.prints⟩, rfl⟩

theorem Owned.count (h : Owned s) (pc : s.child1.pc = .count) : Owned s.count := by
  have hstored := h.storedBy (by rw [pc]; rfl)
  have hhandle := h.handle
  rw [pc] at hhandle
  rw [State.count]
  split
  · exact ⟨⟨fun _ => hstored, h.reads, h.prints⟩, hhandle⟩
  · exact ⟨⟨fun _ => hstored, h.reads, h.prints⟩, hhandle⟩

theorem Owned.letter (h : Owned s) (pc : s.child1.pc = .letters) : Owned s.letter := by
  have hstored := h.storedBy (by rw [pc]; rfl)
  have hhandle := h.handle
  have hfileop : s.fileop = some .report := by
    rw [pc] at hhandle
    exact hhandle
  have hprints : ∀ stream ∈ s.prints ++ [s.fileop], stream = some .report :=
    List.forall_mem_append.mpr ⟨h.prints, List.forall_mem_singleton.mpr hfileop⟩
  rw [State.letter]
  split
  · split
    · exact ⟨⟨fun _ => hstored, h.reads, hprints⟩, hhandle⟩
    · exact ⟨⟨fun _ => hstored, h.reads, h.prints⟩, hhandle⟩
  · exact ⟨⟨fun _ => hstored, h.reads, h.prints⟩, hfileop⟩

/-- The first thread itself keeps to its own streams. -/
theorem Owned.stepChild1 (h : Owned s) (he : s.execChild1 files = some s') : Owned s' := by
  have hhandle := h.handle
  cases hpc : s.child1.pc with
  | start =>
    simp only [State.execChild1, hpc] at he
    split at he <;> cases he
    exact ⟨⟨fun h => Bool.noConfusion h, h.reads, h.prints⟩, trivial⟩
  | lock =>
    simp only [State.execChild1, hpc] at he
    split at he <;> cases he
    exact ⟨⟨fun h => Bool.noConfusion h, h.reads, h.prints⟩, trivial⟩
  | openGdb =>
    simp only [State.execChild1, hpc] at he
    cases he
    exact h.openGdb
  | check =>
    rw [hpc] at hhandle
    simp only [State.execChild1, hpc] at he
    split at he <;> cases he
    · exact ⟨⟨h.storedBy, h.reads, h.prints⟩, h.handle⟩
    · next hopened =>
      have hfileop : s.fileop = some .gdb := hhandle.resolve_left hopened
      exact ⟨⟨fun _ => h.storedBy (by rw [hpc]; rfl), h.reads, h.prints⟩, hfileop⟩
  | fgetc =>
    simp only [State.execChild1, hpc] at he
    cases he
    exact h.fgetc hpc
  | count =>
    simp only [State.execChild1, hpc] at he
    cases he
    exact h.count hpc
  | openLog =>
    simp only [State.execChild1, hpc] at he
    cases he
    exact ⟨⟨fun _ => rfl, h.reads, h.prints⟩, rfl⟩
  | printTime | printIds | printHeading | printExit =>
    rw [hpc] at hhandle
    simp only [State.execChild1, hpc] at he
    cases he
    exact h.print1 (by rw [hpc]; rfl) hhandle rfl
  | letters =>
    simp only [State.execChild1, hpc] at he
    cases he
    exact h.letter hpc
  | unlock =>
    simp only [State.execChild1, hpc] at he
    cases he
    exact ⟨⟨fun h => Bool.noConfusion h, h.reads, h.prints⟩, trivial⟩
  | done => simp [State.execChild1, hpc] at he

theorem Owned.step {e : Event} (h : Owned s) (hlocked : Locked s) (hout : Outside s e)
    (he : s.exec files e = some s') : Owned s' := by
  rw [State.exec.eq_def] at he
  split at he
  · cases he
  · cases e with
    | main =>
      obtain ⟨hspares, -, hstore⟩ := execMain_cases he
      rcases hstore with ⟨hfileop, hstored⟩ | hjoined
      · exact h.of_spares hspares.toSpares hfileop hstored
      · apply h.of_outside hspares.toSpares
        rw [hlocked.joined hjoined]
        rfl
    | child1 => exact h.stepChild1 he
    | child2 =>
      obtain ⟨hspares, -, hstore⟩ := execChild2_cases he
      rcases hstore with ⟨hfileop, hstored⟩ | hopen
      · exact h.of_spares hspares.toSpares hfileop hstored
      · exact h.of_outside hspares.toSpares (hout rfl hopen)
    | callback n opened =>
      obtain ⟨hspares, -, pc, pc', hn, -, -, hstore⟩ := execCallback_cases he
      rcases hstore with ⟨hfileop, hstored⟩ | hholds
      · exact h.of_spares hspares hfileop hstored
      · apply h.of_outside hspares
        by_contra hinside
        have hmutex := hlocked.child1 (Pc1.locked_of_inside (by simpa using hinside))
        rw [hlocked.callback n pc hn hholds] at hmutex
        cases hmutex
    | cancel =>
      simp only at he
      split at he <;> cases he
      exact h.of_spares ⟨rfl, rfl, rfl⟩ rfl rfl
    | expire =>
      simp only at he
      split at he <;> cases he
      exact h.of_spares ⟨rfl, rfl, rfl⟩ rfl rfl

end Threads

theorem owned_of_outsideRun {files : Files} {s : State} (hrun : OutsideRun files initial s) :
    Owned s := by
  refine run_invariant_under (I := Locked) (P := Owned) ?_ ?_ locked_initial owned_initial hrun
  · rintro s s' hlocked ⟨e, he⟩
    exact hlocked.step (guarded_eq_some_iff.mp he).2
  · rintro s s' hlocked howned ⟨e, he⟩
    obtain ⟨hout, he⟩ := guarded_eq_some_iff.mp he
    exact howned.step hlocked hout he

theorem exec_child2_openLog {files : Files} {s s' : State} (hopen : s.child2 = .openLog)
    (he : s.exec files .child2 = some s') :
    s'.storedBy = .child2 ∧ Spares s s' := by
  simp only [State.exec, State.execChild2, hopen] at he
  split at he <;> cases he
  exact ⟨rfl, rfl, rfl, rfl⟩

/-- When the second thread stores its stream only while the first one is not inside, the first one
reads from and prints to its own streams. Any other store of the second thread breaks that. -/
theorem handle_is_exclusive (files : Files) (s : State) (hrun : OutsideRun files initial s) :
    Exclusive s ∧
    ∀ s', s.child2 = .openLog → s.exec files .child2 = some s' →
      (Exclusive s' ↔ s.child1.pc.inside = false) := by
  have howned := owned_of_outsideRun hrun
  refine ⟨howned.toExclusive, ?_⟩
  intro s' hopen he
  obtain ⟨hstored, hspares⟩ := exec_child2_openLog hopen he
  constructor
  · intro h
    by_contra hinside
    have hown : s'.storedBy = .child1 := h.storedBy (by rw [hspares.child1]; simpa using hinside)
    rw [hstored] at hown
    cases hown
  · intro hout
    exact (howned.of_outside hspares hout).toExclusive

def twoLetters : Files := ⟨some [97, 98], []⟩

/-- The first thread runs to its end before the second one starts, and the timer runs a callback. -/
def oneAfterTheOther : List Event :=
  [.main, .main] ++ List.replicate 42 .child1 ++ List.replicate 5 .child2 ++ [.expire] ++
    List.replicate 11 (.callback 0 true)

theorem handle_is_exclusive_one_after_the_other :
    ∃ s, execAll (guarded (State.exec twoLetters) Outside) initial oneAfterTheOther = some s ∧
      s.child1.pc = .done ∧ s.reads.length = 3 ∧ Exclusive s := by
  refine ⟨_, rfl, rfl, rfl, ?_⟩
  exact (handle_is_exclusive twoLetters _ (run_of_execAll oneAfterTheOther rfl)).1

/-- The second thread stores its stream after the first letter has been read. -/
def between : List Event :=
  [.main, .main, .child2] ++ List.replicate 6 .child1 ++ [.child2, .child1]

/-- The next `fgetc` reads from the log that the second thread has opened for writing, gets
`EOF`, and ends the loop before the second letter. -/
theorem thread2_ends_the_count :
    ∃ s, Run twoLetters initial s ∧ s.child1.pc = .openLog ∧ s.storedBy = .child2 ∧
      s.reads = [some .gdb, some .thread2] ∧ s.unread .gdb = [98] ∧
      s.child1.arrayprint 0 = 1 ∧ s.child1.arrayprint 1 = 0 :=
  ⟨_, run_of_execAll between rfl, rfl, rfl, rfl, rfl, rfl, rfl⟩

end EmbeddedSoftware.SharedHandle
