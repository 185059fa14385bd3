import Mathlib.Data.Nat.Notation
import Mathlib.Data.Set.Defs
import Mathlib.Tactic.Common

/-!
# What the system calls share

The errors that the calls return, the capabilities that they ask for, and the user namespace of
the caller, which translates the numbers of users and groups.
-/

namespace EmbeddedSoftware.SystemCalls

/-- A security module may return any other error. -/
inductive Errno where
  | eperm | esrch | eintr | ebadf | eagain | enomem | eacces | efault | ebusy | einval
  | other (code : ℕ)
  deriving DecidableEq

inductive Capability where
  | setuid | setgid
  deriving DecidableEq

def unset : UInt32 := 0xFFFFFFFF

/-- How a user namespace translates numbers of users, or of groups. A number that it does not map
has no identity in the kernel. -/
structure IdMap (K : Type) where
  make : UInt32 → Option K
  munged : K → UInt32
  make_unset : make unset = none
  munged_of_make : ∀ {id k}, make id = some k → munged k = id

structure Kuid where
  val : UInt32
  deriving DecidableEq

structure Kgid where
  val : UInt32
  deriving DecidableEq

structure UserNamespace where
  uid : IdMap Kuid
  gid : IdMap Kgid

/-- The first namespace maps every number to itself, except the one that stands for none. -/
def IdMap.identity {K : Type} (mk : UInt32 → K) (val : K → UInt32) (hval : ∀ id, val (mk id) = id) :
    IdMap K where
  make id := if id = unset then none else some (mk id)
  munged := val
  make_unset := if_pos rfl
  munged_of_make := by
    intro id k h
    split at h
    · cases h
    · cases h
      exact hval id

def initUserNs : UserNamespace where
  uid := .identity Kuid.mk Kuid.val fun _ => rfl
  gid := .identity Kgid.mk Kgid.val fun _ => rfl

section Arguments

variable {K : Type} {map : IdMap K} {id : UInt32} {k : K}

/-- An argument of the calls that change several identities: `-1` leaves one as it is, any other
has to be mapped. -/
def IdMap.argument (map : IdMap K) (id : UInt32) : Except Errno (Option K) :=
  if id = unset then .ok none
  else match map.make id with
    | none => .error .einval
    | some k => .ok (some k)

def IdMap.valid (map : IdMap K) (id : UInt32) : Except Errno K :=
  match map.make id with
  | none => .error .einval
  | some k => .ok k

theorem IdMap.ne_unset_of_make (h : map.make id = some k) : id ≠ unset := by
  rintro rfl
  rw [map.make_unset] at h
  cases h

theorem IdMap.argument_of_make (h : map.make id = some k) : map.argument id = .ok (some k) := by
  rw [IdMap.argument, if_neg (map.ne_unset_of_make h), h]

def IdMap.Names (map : IdMap K) (S : Set K) : Prop := ∀ k ∈ S, ∃ id, map.make id = some k

end Arguments

/-- A pointer that a call reads through: null, one that faults, or one to the value that it
finds. -/
inductive UserSource (α : Type) where
  | null | fault | value (a : α)
  deriving DecidableEq

inductive UserSink where
  | null | fault | valid
  deriving DecidableEq

def UserSource.isNull {α : Type} : UserSource α → Bool
  | .null => true
  | _ => false

def copyFromUser {α : Type} : UserSource α → Except Errno α
  | .value a => .ok a
  | _ => .error .efault

/-- A copy of `len` bytes. A copy of none cannot fault. -/
def copyBytesFromUser (p : UserSource (ℕ → UInt8)) (len : ℕ) : Except Errno (ℕ → UInt8) :=
  if len = 0 then .ok fun _ => 0 else copyFromUser p

def copyToUser : UserSink → Except Errno Unit
  | .valid => .ok ()
  | _ => .error .efault

section Errors

/-- A check of a call: the error that it returns unless the condition holds. -/
def require (c : Prop) [Decidable c] (e : Errno) : Except Errno Unit :=
  if c then .ok () else .error e

theorem require_eq_ok_iff {c : Prop} [Decidable c] {e : Errno} {u : Unit} :
    require c e = .ok u ↔ c := by
  rw [require]
  split
  · next h => simp [h]
  · next h => simp [h]

/-- What a call looks for, or the error that it returns when there is none. -/
def orError {α : Type} (found : Option α) (e : Errno) : Except Errno α :=
  match found with
  | none => .error e
  | some a => .ok a

theorem orError_eq_ok_iff {α : Type} {found : Option α} {e : Errno} {a : α} :
    orError found e = .ok a ↔ found = some a := by
  cases found <;> simp [orError]

theorem bind_eq_ok_iff {ε α β : Type} {x : Except ε α} {f : α → Except ε β} {b : β} :
    x >>= f = .ok b ↔ ∃ a, x = .ok a ∧ f a = .ok b := by
  cases x with
  | error e =>
    constructor
    · intro h
      cases h
    · rintro ⟨a, ha, -⟩
      cases ha
  | ok a =>
    constructor
    · intro h
      exact ⟨a, rfl, h⟩
    · rintro ⟨a', ha, h⟩
      cases ha
      exact h

end Errors

end EmbeddedSoftware.SystemCalls
