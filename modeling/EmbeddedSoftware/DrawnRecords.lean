import EmbeddedSoftware.ByteLayout
import EmbeddedSoftware.CStrings
import Mathlib.Data.List.FinRange

/-!
# Records drawn at random

The exchange programs keep one record and change it in place. Each of ten random draws sets
its own part of the record: the string with its length, the state of the LED, or both. What
a branch does not set is left from the draws before it.
-/

namespace EmbeddedSoftware.DrawnRecords

open ByteLayout CStrings

inductive Led where
  | off | on | bright | broken | dim
  deriving DecidableEq

def Led.value : Led → BitVec 32
  | .off => 0
  | .on => 1
  | .bright => 2
  | .broken => 3
  | .dim => 4

def stringarray : Fin 5 → List UInt8
  | 0 => ascii "hey"
  | 1 => ascii "sky"
  | 2 => ascii "snow"
  | 3 => ascii "purple"
  | 4 => ascii "orchid"

def getrand (r : ℕ) : Fin 10 := Fin.ofNat 10 r

/-- What one branch of the draw sets. -/
structure Branch where
  led : Option Led
  str : Option (Fin 5)

/-- The branches of the parent processes, and of all programs with queues and sockets. -/
def parentBranch : Fin 10 → Branch
  | 0 => ⟨none, some 0⟩
  | 1 => ⟨some .on, some 1⟩
  | 2 => ⟨some .off, some 2⟩
  | 3 => ⟨none, some 3⟩
  | 4 => ⟨some .on, some 4⟩
  | 5 => ⟨some .on, none⟩
  | 6 => ⟨some .bright, none⟩
  | 7 => ⟨some .dim, none⟩
  | 8 => ⟨some .bright, none⟩
  | 9 => ⟨some .off, none⟩

/-- The branches of the child processes. -/
def childBranch : Fin 10 → Branch
  | 0 => ⟨some .bright, some 0⟩
  | 1 => ⟨none, some 1⟩
  | 2 => ⟨some .broken, some 2⟩
  | 3 => ⟨none, some 3⟩
  | 4 => ⟨some .broken, some 4⟩
  | 5 => ⟨some .dim, none⟩
  | 6 => ⟨some .off, none⟩
  | 7 => ⟨some .on, none⟩
  | 8 => ⟨some .bright, none⟩
  | 9 => ⟨some .dim, none⟩

inductive Role where
  | parent | child
  deriving DecidableEq

def Role.branch : Role → Fin 10 → Branch
  | .parent => parentBranch
  | .child => childBranch

/-- Where the five literals are. A process and its child have them at the same addresses. -/
structure Literals where
  addr : Fin 5 → BitVec 32
  injective : Function.Injective addr
  ne_null : ∀ k, addr k ≠ 0

def Literals.from4096 : Literals where
  addr := fun k => 4096 + 8 * BitVec.ofNat 32 k
  injective := by
    intro j k
    revert j k
    decide
  ne_null := by decide

def Literals.text (lit : Literals) (p : BitVec 32) : Option (List UInt8) :=
  ((List.finRange 5).find? fun k => lit.addr k = p).map stringarray

/-- `struct data` with a pointer to its string. -/
structure Record where
  str : BitVec 32
  len : BitVec 32
  led : BitVec 32
  deriving DecidableEq

def recordSize : ℕ := 12

namespace Record

def bytes (r : Record) : List UInt8 := le32 r.str ++ le32 r.len ++ le32 r.led

def ofBytes (l : List UInt8) : Record := ⟨ofLe32 l, ofLe32 (l.drop 4), ofLe32 (l.drop 8)⟩

def draw (lit : Literals) (b : Branch) (r : Record) : Record where
  str := b.str.elim r.str lit.addr
  len := b.str.elim r.len fun k => BitVec.ofNat 32 (stringarray k).length
  led := b.led.elim r.led Led.value

/-- The static record after `object.led = bright_led`. -/
def object : Record := ⟨0, 0, Led.bright.value⟩

@[simp] theorem length_bytes (r : Record) : r.bytes.length = recordSize := rfl

@[simp] theorem ofBytes_bytes (r : Record) : ofBytes r.bytes = r := by
  have hstr : ofLe32 r.bytes = r.str := by rw [bytes, List.append_assoc, ofLe32_le32_append]
  have hlen : ofLe32 (r.bytes.drop 4) = r.len := ofLe32_le32_append r.len (le32 r.led)
  have hled : ofLe32 (r.bytes.drop 8) = r.led := by
    have h := ofLe32_le32_append r.led []
    rw [List.append_nil] at h
    exact h
  rw [ofBytes, hstr, hlen, hled]

end Record

section Drawn

variable (lit : Literals) (branch : Fin 10 → Branch) (draws : ℕ → Fin 10)

def drawn : ℕ → Record
  | 0 => Record.object
  | k + 1 => (drawn k).draw lit (branch (draws k))

/-- The length field is the length of the string, and 0 where there is none. -/
def Literals.Sized (r : Record) : Prop := r.len.toNat = ((lit.text r.str).getD []).length

variable {lit branch draws}

theorem Literals.text_addr (k : Fin 5) : lit.text (lit.addr k) = some (stringarray k) := by
  rw [text]
  cases hfind : (List.finRange 5).find? fun j => lit.addr j = lit.addr k with
  | none =>
    have hk := List.find?_eq_none.mp hfind k (List.mem_finRange k)
    simp at hk
  | some j =>
    have hj : lit.addr j = lit.addr k := by simpa using List.find?_some hfind
    rw [lit.injective hj]
    rfl

theorem Literals.text_null : lit.text 0 = none := by
  rw [text, Option.map_eq_none_iff, List.find?_eq_none]
  intro k _
  simpa using lit.ne_null k

theorem length_stringarray_lt (k : Fin 5) : (stringarray k).length < 7 := by
  revert k
  decide

theorem Literals.sized_object : lit.Sized Record.object := by
  rw [Sized, Record.object, text_null]
  rfl

theorem Literals.Sized.draw {r : Record} (h : lit.Sized r) (b : Branch) :
    lit.Sized (r.draw lit b) := by
  cases hstr : b.str with
  | none => simpa [Sized, Record.draw, hstr] using h
  | some k =>
    have hlt := length_stringarray_lt k
    simp only [Sized, Record.draw, hstr, Option.elim_some, text_addr, Option.getD_some,
      BitVec.toNat_ofNat]
    exact Nat.mod_eq_of_lt (by omega)

theorem sized_drawn (k : ℕ) : lit.Sized (drawn lit branch draws k) := by
  induction k with
  | zero => exact Literals.sized_object
  | succ k ih => exact ih.draw _

theorem drawn_of_no_string {k : ℕ} (h : ∀ j < k, (branch (draws j)).str = none) :
    (drawn lit branch draws k).str = 0 ∧ (drawn lit branch draws k).len = 0 := by
  induction k with
  | zero => exact ⟨rfl, rfl⟩
  | succ k ih =>
    have hk := h k (Nat.lt_succ_self k)
    simp only [drawn, Record.draw, hk, Option.elim_none]
    exact ih fun j hj => h j (Nat.lt_succ_of_lt hj)

theorem Role.branch_str_eq_none (role : Role) {g : Fin 10} (h : 5 ≤ g) :
    (role.branch g).str = none := by
  cases role with
  | parent =>
    revert g
    decide
  | child =>
    revert g
    decide

end Drawn

end EmbeddedSoftware.DrawnRecords
