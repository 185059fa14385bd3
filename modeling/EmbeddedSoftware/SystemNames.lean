import EmbeddedSoftware.CStrings
import EmbeddedSoftware.RunRules
import EmbeddedSoftware.SystemCalls
import Mathlib.Data.Int.Notation
import Mathlib.Data.List.Basic
import Mathlib.Data.Nat.Digits.Lemmas

/-!
# The names of the system

`sethostname`, `setdomainname` and `gethostname` of `sys.c`, and the three calls that report all
names: `newuname`, `uname` and `olduname`. The last one has fields of nine bytes, the others of 65.
Programs that cannot stand the version are shown another one.
-/

namespace EmbeddedSoftware.SystemNames

open Relation RunRules SystemCalls CStrings

inductive Field where
  | sysname | nodename | release | version | machine | domainname
  deriving DecidableEq

/-- The fields of `struct old_utsname` and of `struct oldold_utsname`, which have no domain name. -/
abbrev OldField := {f : Field // f ≠ .domainname}

/-- A field of `struct new_utsname`: 65 bytes with a string in them. -/
structure Name where
  bytes : List UInt8
  length_bytes : bytes.length = 65
  zero_mem : 0 ∈ bytes

abbrev Utsname := Field → Name

/-- What the kernel was built with: `UTS_RELEASE`, the second number of its version, and the machine
that 32-bit programs see. -/
structure Build where
  utsRelease : List UInt8
  minor : UInt8
  compatMachine : List UInt8
  zero_notMem : 0 ∉ compatMachine
  length_le : compatMachine.length ≤ 8

structure Caller where
  nsCapable : Bool
  uname26 : Bool
  linux32 : Bool

section Setting

def newName (tmp : ℕ → UInt8) (len : ℕ) (h : len ≤ 64) : Name where
  bytes := (List.range len).map tmp ++ List.replicate (65 - len) 0
  length_bytes := by
    rw [List.length_append, List.length_map, List.length_range, List.length_replicate]
    omega
  zero_mem := by
    apply List.mem_append_right
    rw [List.mem_replicate]
    exact ⟨by omega, rfl⟩

/-- `sethostname` and `setdomainname` differ in the field that they set. -/
def setname (field : Field) (u : Utsname) (caller : Caller) (name : UserSource (ℕ → UInt8))
    (len : ℤ) : Except Errno Utsname := do
  require (caller.nsCapable = true) .eperm
  if h : len < 0 ∨ len > 64 then .error .einval
  else do
    let tmp ← copyBytesFromUser name len.toNat
    return Function.update u field (newName tmp len.toNat (by omega))

def sethostname : Utsname → Caller → UserSource (ℕ → UInt8) → ℤ → Except Errno Utsname :=
  setname .nodename

def setdomainname : Utsname → Caller → UserSource (ℕ → UInt8) → ℤ → Except Errno Utsname :=
  setname .domainname

/-- How many bytes `gethostname` copies: the string with its zero, or what there is room for. -/
def hostnameBytes (u : Utsname) (len : ℤ) : ℤ :=
  let i : ℤ := 1 + (cstr (u .nodename).bytes).length
  if i > len then len else i

/-- `gethostname`: the bytes that it copies out. -/
def gethostname (u : Utsname) (name : UserSink) (len : ℤ) : Except Errno (List UInt8) := do
  require (0 ≤ len) .einval
  if hostnameBytes u len = 0 then return []
  copyToUser name
  return (u .nodename).bytes.take (hostnameBytes u len).toNat

end Setting

section Reporting

variable (b : Build)

def isdigit (c : UInt8) : Bool := 48 ≤ c && c ≤ 57

/-- The loop of `override_release` over the release: what follows the first three numbers. -/
def skipVersion (ndots : ℕ) : List UInt8 → List UInt8
  | [] => []
  | c :: rest =>
    if c = 46 then
      if ndots + 1 ≥ 3 then c :: rest else skipVersion (ndots + 1) rest
    else if isdigit c then skipVersion ndots rest
    else c :: rest

def decimal (n : ℕ) : List UInt8 := (Nat.digits 10 n).reverse.map fun d => UInt8.ofNat (48 + d)

def release26 : List UInt8 :=
  ascii "2.6." ++ decimal (b.minor.toNat + 60) ++ skipVersion 0 (cstr b.utsRelease)

def overwrite (new old : List UInt8) : List UInt8 := new ++ old.drop new.length

/-- `override_release` for a field of `len` bytes: `scnprintf` cuts the text off, and the zero behind
it is copied as well. -/
def overrideRelease (caller : Caller) (len : ℕ) (release : List UInt8) : List UInt8 :=
  if caller.uname26 then
    let copy := if len < 1 then 1 else if 65 < len then 65 else len
    overwrite ((release26 b).take (copy - 1) ++ [0]) release
  else release

def overrideArchitecture (caller : Caller) (machine : List UInt8) : List UInt8 :=
  if caller.linux32 then overwrite (b.compatMachine ++ [0]) machine else machine

/-- The fields that a program finds after a call, with the two that are overridden. -/
def overridden (caller : Caller) (len : ℕ) (copied : Field → List UInt8) : Field → List UInt8
  | .release => overrideRelease b caller len (copied .release)
  | .machine => overrideArchitecture b caller (copied .machine)
  | field => copied field

def newuname (u : Utsname) (caller : Caller) (name : UserSink) :
    Except Errno (Field → List UInt8) := do
  copyToUser name
  return overridden b caller 65 fun field => (u field).bytes

/-- `uname` copies as much as its structure has room for, and goes on like `newuname`. -/
def uname (u : Utsname) (caller : Caller) (name : UserSink) :
    Except Errno (OldField → List UInt8) := do
  copyToUser name
  return fun field => overridden b caller 65 (fun field => (u field).bytes) field

/-- `olduname` copies eight bytes of each field and puts a zero behind them. -/
def olduname (u : Utsname) (caller : Caller) (name : UserSink) :
    Except Errno (OldField → List UInt8) := do
  copyToUser name
  return fun field => overridden b caller 9 (fun field => (u field).bytes.take 8 ++ [0]) field

end Reporting

section Releases

variable {b : Build} {caller : Caller} {n : ℕ} {f : List UInt8}

/-- What the loop leaves: the part of the release in front of it has digits and at most two dots, and
it could not go on. -/
theorem skipVersion_spec (ndots : ℕ) (hdots : ndots ≤ 2) (r : List UInt8) :
    ∃ pre, r = pre ++ skipVersion ndots r ∧ (∀ c ∈ pre, isdigit c = true ∨ c = 46) ∧
      ndots + pre.count 46 ≤ 2 ∧ ∀ c ∈ (skipVersion ndots r).head?,
        isdigit c = false ∧ (c = 46 → ndots + pre.count 46 = 2) := by
  induction r generalizing ndots with
  | nil => exact ⟨[], rfl, by simp, hdots, by simp [skipVersion]⟩
  | cons c r ih =>
    rw [skipVersion]
    split
    · next hdot =>
      subst hdot
      split
      · exact ⟨[], rfl, by simp, hdots, by simp [isdigit]; omega⟩
      · obtain ⟨pre, hr, hpre, hcount, hhead⟩ := ih (ndots + 1) (by omega)
        refine ⟨46 :: pre, by rw [List.cons_append, ← hr], ?_, ?_, ?_⟩
        · rw [List.forall_mem_cons]
          exact ⟨.inr rfl, hpre⟩
        · rw [List.count_cons_self]
          omega
        · intro c hc
          obtain ⟨hdigit, hthird⟩ := hhead c hc
          refine ⟨hdigit, fun h46 => ?_⟩
          rw [List.count_cons_self]
          have := hthird h46
          omega
    · next hdot =>
      split
      · next hdigit =>
        obtain ⟨pre, hr, hpre, hcount, hhead⟩ := ih ndots hdots
        refine ⟨c :: pre, by rw [List.cons_append, ← hr], ?_, ?_, ?_⟩
        · rw [List.forall_mem_cons]
          exact ⟨.inl hdigit, hpre⟩
        · rw [List.count_cons_of_ne hdot]
          exact hcount
        · rw [List.count_cons_of_ne hdot]
          exact hhead
      · next hdigit => exact ⟨[], rfl, by simp, hdots, by simp [hdot, hdigit]⟩

theorem zero_notMem_decimal (n : ℕ) : 0 ∉ decimal n := by
  intro h
  obtain ⟨d, hd, hzero⟩ := List.mem_map.mp h
  have hlt : d < 10 := Nat.digits_lt_base (by decide) (List.mem_reverse.mp hd)
  have htoNat := congrArg UInt8.toNat hzero
  rw [UInt8.toNat_ofNat', Nat.mod_eq_of_lt (by omega)] at htoNat
  have hzero' : (0 : UInt8).toNat = 0 := rfl
  omega

theorem zero_notMem_release26 (b : Build) : 0 ∉ release26 b := by
  have hrest : 0 ∉ skipVersion 0 (cstr b.utsRelease) := by
    obtain ⟨pre, hr, -⟩ := skipVersion_spec 0 (by decide) (cstr b.utsRelease)
    have hzero := zero_notMem_cstr b.utsRelease
    rw [hr] at hzero
    exact fun h => hzero (List.mem_append_right _ h)
  have hstart : 0 ∉ ascii "2.6." := by decide
  rw [release26, List.mem_append, List.mem_append]
  rintro ((h | h) | h)
  · exact hstart h
  · exact zero_notMem_decimal _ h
  · exact hrest h

theorem length_overwrite {new old : List UInt8} (h : new.length ≤ old.length) :
    (overwrite new old).length = old.length := by
  rw [overwrite, List.length_append, List.length_drop]
  omega

theorem cstr_overwrite {s old : List UInt8} (hs : 0 ∉ s) : cstr (overwrite (s ++ [0]) old) = s := by
  rw [overwrite, List.append_assoc]
  exact (cstr_append_zero s _).trans (cstr_of_notMem hs)

/-- The overridden release stays in its field, and is cut off where the field ends. -/
theorem overrideRelease_spec (b : Build) (caller : Caller) (hn : 1 ≤ n) (hn' : n ≤ 65) (hf : f.length = n) :
    (overrideRelease b caller n f).length = n ∧
    cstr (overrideRelease b caller n f) =
      if caller.uname26 then (release26 b).take (n - 1) else cstr f := by
  rw [overrideRelease]
  split
  · have hcopy : (if n < 1 then 1 else if 65 < n then 65 else n) = n := by
      split <;> (try split) <;> omega
    rw [hcopy]
    constructor
    · rw [length_overwrite, hf]
      rw [List.length_append, List.length_take, hf]
      simp only [List.length_cons, List.length_nil]
      omega
    · apply cstr_overwrite
      exact fun h => zero_notMem_release26 b (List.mem_of_mem_take h)
  · exact ⟨hf, rfl⟩

theorem overrideArchitecture_spec (b : Build) (caller : Caller) (hn : 9 ≤ n) (hf : f.length = n) :
    (overrideArchitecture b caller f).length = n ∧
    cstr (overrideArchitecture b caller f) = if caller.linux32 then b.compatMachine else cstr f := by
  rw [overrideArchitecture]
  split
  · constructor
    · have hle := b.length_le
      rw [length_overwrite, hf]
      rw [List.length_append, hf]
      simp only [List.length_cons, List.length_nil]
      omega
    · exact cstr_overwrite b.zero_notMem
  · exact ⟨hf, rfl⟩

end Releases

section Reads

variable {s : List UInt8}

theorem cstr_take_zero (s : List UInt8) (n : ℕ) : cstr (s.take n ++ [0]) = (cstr s).take n := by
  induction s generalizing n with
  | nil => simp [cstr]
  | cons c s ih =>
    cases n with
    | zero => rfl
    | succ n =>
      rw [List.take_succ_cons, List.cons_append]
      by_cases hc : c = 0
      · subst hc
        rfl
      · have hcons : ∀ t, cstr (c :: t) = c :: cstr t :=
          fun t => List.takeWhile_cons_of_pos (by simpa using hc)
        rw [hcons, hcons, List.take_succ_cons, ih]

theorem length_cstr_lt (h : 0 ∈ s) : (cstr s).length < s.length := by
  obtain ⟨rest, hrest⟩ := exists_eq_cstr_append h
  have hlen := congrArg List.length hrest
  rw [List.length_append, List.length_cons] at hlen
  omega

/-- What a program is to read in a field that has room for `n` bytes and a zero, where `behind` is the
part of the release that a program with version `2.6` gets to see. -/
def seen (b : Build) (caller : Caller) (u : Utsname) (behind : List UInt8) (n : ℕ) :
    Field → List UInt8
  | .release =>
    (if caller.uname26 then ascii "2.6." ++ decimal (b.minor.toNat + 60) ++ behind
      else cstr (u .release).bytes).take n
  | .machine => if caller.linux32 then b.compatMachine else (cstr (u .machine).bytes).take n
  | field => (cstr (u field).bytes).take n

theorem overridden_spec (b : Build) (caller : Caller) (u : Utsname) {n : ℕ} (hn : 8 ≤ n)
    (hn' : n ≤ 64) {copied : Field → List UInt8} (hlength : ∀ f, (copied f).length = n + 1)
    (hcstr : ∀ f, cstr (copied f) = (cstr (u f).bytes).take n) (field : Field) :
    (overridden b caller (n + 1) copied field).length = n + 1 ∧
      cstr (overridden b caller (n + 1) copied field) =
        seen b caller u (skipVersion 0 (cstr b.utsRelease)) n field := by
  cases field with
  | release =>
    obtain ⟨hlen, htext⟩ := overrideRelease_spec b caller (by omega) (by omega)
      (hlength .release)
    refine ⟨hlen, htext.trans ?_⟩
    rw [seen, hcstr, Nat.add_sub_cancel]
    split <;> rfl
  | machine =>
    obtain ⟨hlen, htext⟩ := overrideArchitecture_spec b caller (by omega)
      (hlength .machine)
    refine ⟨hlen, htext.trans ?_⟩
    rw [seen, hcstr]
  | sysname => exact ⟨hlength _, hcstr _⟩
  | nodename => exact ⟨hlength _, hcstr _⟩
  | version => exact ⟨hlength _, hcstr _⟩
  | domainname => exact ⟨hlength _, hcstr _⟩

/-- What programs read by the calls that report all names. Each field holds a string, the name cut
off at the size of the field. Who asks for version `2.6` reads that version, with the part of the
release behind its first three numbers: behind digits and at most two dots, it starts with a third
dot or with neither a digit nor a dot. -/
theorem unames_read (b : Build) (u : Utsname) (caller : Caller) : ∃ numbers behind,
    cstr b.utsRelease = numbers ++ behind ∧ (∀ c ∈ numbers, isdigit c = true ∨ c = 46) ∧
    numbers.count 46 ≤ 2 ∧
    (∀ c ∈ behind.head?, isdigit c = false ∧ (c = 46 → numbers.count 46 = 2)) ∧
    (∃ got, newuname b u caller .valid = .ok got ∧
      ∀ f, (got f).length = 65 ∧ cstr (got f) = seen b caller u behind 64 f) ∧
    (∃ got, uname b u caller .valid = .ok got ∧
      ∀ f, (got f).length = 65 ∧ cstr (got f) = seen b caller u behind 64 f) ∧
    ∃ got, olduname b u caller .valid = .ok got ∧
      ∀ f, (got f).length = 9 ∧ cstr (got f) = seen b caller u behind 8 f := by
  obtain ⟨numbers, hrelease, hnumbers, hcount, hhead⟩ :=
    skipVersion_spec 0 (by decide) (cstr b.utsRelease)
  rw [Nat.zero_add] at hcount hhead
  have hwhole : ∀ f, (overridden b caller 65 (fun f => (u f).bytes) f).length = 65 ∧
      cstr (overridden b caller 65 (fun f => (u f).bytes) f) =
        seen b caller u (skipVersion 0 (cstr b.utsRelease)) 64 f := by
    apply overridden_spec b caller u (by decide) (by decide)
    · intro f
      exact (u f).length_bytes
    · intro f
      have hlt := length_cstr_lt (u f).zero_mem
      rw [(u f).length_bytes] at hlt
      exact (List.take_of_length_le (by omega)).symm
  have hcut : ∀ f, (overridden b caller 9 (fun f => (u f).bytes.take 8 ++ [0]) f).length = 9 ∧
      cstr (overridden b caller 9 (fun f => (u f).bytes.take 8 ++ [0]) f) =
        seen b caller u (skipVersion 0 (cstr b.utsRelease)) 8 f := by
    apply overridden_spec b caller u (by decide) (by decide)
    · intro f
      rw [List.length_append, List.length_take, (u f).length_bytes]
      rfl
    · intro f
      exact cstr_take_zero _ _
  exact ⟨numbers, _, hrelease, hnumbers, hcount, hhead, ⟨_, rfl, hwhole⟩,
    ⟨_, rfl, fun f => hwhole f⟩, _, rfl, fun f => hcut f⟩

end Reads

section Registry

/-- What the calls are for: two strings. -/
structure Registry where
  hostname : List UInt8
  domainname : List UInt8

inductive Call where
  | sethostname (caller : Caller) (name : UserSource (ℕ → UInt8)) (len : ℤ)
  | setdomainname (caller : Caller) (name : UserSource (ℕ → UInt8)) (len : ℤ)

def newString (caller : Caller) (name : UserSource (ℕ → UInt8)) (len : ℤ) : Option (List UInt8) :=
  match copyBytesFromUser name len.toNat with
  | .ok tmp =>
    if caller.nsCapable = true ∧ 0 ≤ len ∧ len ≤ 64 then some (cstr ((List.range len.toNat).map tmp))
    else none
  | .error _ => none

def Registry.apply (r : Registry) : Call → Registry
  | .sethostname caller name len => { r with hostname := (newString caller name len).getD r.hostname }
  | .setdomainname caller name len =>
    { r with domainname := (newString caller name len).getD r.domainname }

def exec (u : Utsname) : Call → Utsname
  | .sethostname caller name len => (sethostname u caller name len).toOption.getD u
  | .setdomainname caller name len => (setdomainname u caller name len).toOption.getD u

def view (u : Utsname) : Registry := ⟨cstr (u .nodename).bytes, cstr (u .domainname).bytes⟩

theorem cstr_newName (tmp : ℕ → UInt8) (len : ℕ) (h : len ≤ 64) :
    cstr (newName tmp len h).bytes = cstr ((List.range len).map tmp) := by
  have hzeros : List.replicate (65 - len) (0 : UInt8) = 0 :: List.replicate (64 - len) 0 := by
    rw [← List.replicate_succ]
    congr 1
    omega
  change cstr ((List.range len).map tmp ++ List.replicate (65 - len) 0) = _
  rw [hzeros, cstr_append_zero]

/-- A call of the family sets the string of its field, if it may. -/
theorem setname_cases (field : Field) (u : Utsname) (caller : Caller)
    (name : UserSource (ℕ → UInt8)) (len : ℤ) :
    ((setname field u caller name len).toOption = none ∧ newString caller name len = none) ∨
    ∃ new : Name, (setname field u caller name len).toOption = some (Function.update u field new) ∧
      newString caller name len = some (cstr new.bytes) := by
  rw [setname, require, newString]
  by_cases hcapable : caller.nsCapable = true
  · rw [if_pos hcapable]
    change (Except.toOption (dite (len < 0 ∨ len > 64) _ _) = none ∧ _) ∨ _
    by_cases hlen : len < 0 ∨ len > 64
    · left
      rw [dif_pos hlen]
      refine ⟨rfl, ?_⟩
      split
      · rw [if_neg (by omega)]
      · rfl
    · rw [dif_neg hlen]
      cases copyBytesFromUser name len.toNat with
      | error e => exact .inl ⟨rfl, rfl⟩
      | ok tmp =>
        right
        refine ⟨newName tmp len.toNat (by omega), rfl, ?_⟩
        rw [cstr_newName]
        exact if_pos ⟨hcapable, by omega, by omega⟩
  · left
    rw [if_neg hcapable]
    refine ⟨rfl, ?_⟩
    split
    · rw [if_neg (fun h => hcapable h.1)]
    · rfl

theorem view_exec (u : Utsname) (c : Call) : view (exec u c) = (view u).apply c := by
  cases c with
  | sethostname caller name len =>
    rw [exec, sethostname, Registry.apply]
    obtain ⟨hfail, hnone⟩ | ⟨new, hok, hnew⟩ := setname_cases .nodename u caller name len
    · rw [hfail, hnone]
      rfl
    · rw [hok, hnew]
      simp [view]
  | setdomainname caller name len =>
    rw [exec, setdomainname, Registry.apply]
    obtain ⟨hfail, hnone⟩ | ⟨new, hok, hnew⟩ := setname_cases .domainname u caller name len
    · rw [hfail, hnone]
      rfl
    · rw [hok, hnew]
      simp [view]

theorem take_hostnameBytes (u : Utsname) {len : ℤ} (hlen : 0 ≤ len) :
    (u .nodename).bytes.take (hostnameBytes u len).toNat =
      ((view u).hostname ++ [0]).take len.toNat := by
  obtain ⟨rest, hrest⟩ := exists_eq_cstr_append (u .nodename).zero_mem
  change _ = (cstr (u .nodename).bytes ++ [0]).take len.toNat
  rw [hostnameBytes]
  set name := cstr (u .nodename).bytes
  rw [hrest]
  split
  · rw [List.take_append_of_le_length (by omega), List.take_append_of_le_length (by omega)]
  · have hcount : (1 + (name.length : ℤ)).toNat = name.length + 1 := by omega
    have hall : (name ++ [0]).length ≤ len.toNat := by
      rw [List.length_append, List.length_singleton]
      omega
    rw [hcount, List.take_length_add_append, List.take_of_length_le hall]
    rfl

/-- `gethostname` copies the string and its zero, as far as the caller has room for them. -/
theorem gethostname_eq (u : Utsname) {len : ℤ} (hlen : 0 ≤ len) :
    gethostname u .valid len = .ok (((view u).hostname ++ [0]).take len.toNat) := by
  rw [← take_hostnameBytes u hlen, gethostname, require, if_pos hlen]
  by_cases hzero : hostnameBytes u len = 0
  · rw [if_pos hzero, hzero]
    rfl
  · rw [if_neg hzero]
    rfl

/-- The calls refine the two strings. After any calls by any callers the host name and the domain
name are the strings that were last set, and `gethostname` gives as much of the host name and of
the zero behind it as the caller has room for. -/
theorem names_refine_registry (u : Utsname) (cs : List Call) :
    view (cs.foldl exec u) = cs.foldl Registry.apply (view u) ∧
    ∀ len : ℤ, 0 ≤ len → gethostname (cs.foldl exec u) .valid len =
      .ok (((cs.foldl Registry.apply (view u)).hostname ++ [0]).take len.toNat) := by
  have hview : ∀ u, view (cs.foldl exec u) = cs.foldl Registry.apply (view u) := by
    induction cs with
    | nil => intro u; rfl
    | cons c cs ih =>
      intro u
      rw [List.foldl_cons, List.foldl_cons, ih, view_exec]
  refine ⟨hview u, ?_⟩
  intro len hlen
  rw [gethostname_eq _ hlen, hview]

end Registry

end EmbeddedSoftware.SystemNames
