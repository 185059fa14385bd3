import Mathlib.Data.List.Basic
import Mathlib.Data.List.TakeDrop
import Mathlib.Tactic.Common

/-!
# Words and buffers as bytes

A 32-bit integer lies in memory with its least significant byte first. A datagram that is
received into a buffer replaces the leading bytes of the buffer; what does not fit is cut
off and what is not reached stays as it was.
-/

namespace EmbeddedSoftware.ByteLayout

def le32 (x : BitVec 32) : List UInt8 :=
  [⟨x.extractLsb' 0 8⟩, ⟨x.extractLsb' 8 8⟩, ⟨x.extractLsb' 16 8⟩, ⟨x.extractLsb' 24 8⟩]

/-- The 32-bit integer whose bytes lead the list; missing bytes read as zero. -/
def ofLe32 (l : List UInt8) : BitVec 32 :=
  (l.getD 3 0).toBitVec ++ (l.getD 2 0).toBitVec ++ (l.getD 1 0).toBitVec ++
    (l.getD 0 0).toBitVec

@[simp] theorem length_le32 (x : BitVec 32) : (le32 x).length = 4 := rfl

@[simp] theorem ofLe32_le32_append (x : BitVec 32) (l : List UInt8) :
    ofLe32 (le32 x ++ l) = x := by
  simp only [ofLe32, le32, List.cons_append, List.getD_cons_zero, List.getD_cons_succ]
  ext i hi
  simp only [Nat.reduceAdd]
  grind

theorem le32_ofLe32 {l : List UInt8} (h : 4 ≤ l.length) : le32 (ofLe32 l) = l.take 4 := by
  have h4 : (l.take 4).length = 4 := by
    rw [List.length_take]
    omega
  obtain ⟨a, b, c, d, he⟩ := List.length_eq_four.mp h4
  have hl : l = a :: b :: c :: d :: l.drop 4 := by
    simpa [he] using (List.take_append_drop 4 l).symm
  rw [he, hl]
  simp only [ofLe32, le32, List.getD_cons_zero, List.getD_cons_succ, List.cons.injEq, and_true]
  refine ⟨?_, ?_, ?_, ?_⟩ <;> apply UInt8.eq_of_toBitVec_eq <;> ext i hi <;> simp <;> grind

theorem ofLe32_take (l : List UInt8) : ofLe32 (l.take 4) = ofLe32 l := by
  simp [ofLe32]

/-- The array of integers in a piece of memory; bytes that do not fill an integer are left out. -/
def words : List UInt8 → List (BitVec 32)
  | b₀ :: b₁ :: b₂ :: b₃ :: rest => ofLe32 [b₀, b₁, b₂, b₃] :: words rest
  | _ => []

def wordBytes (xs : List (BitVec 32)) : List UInt8 := xs.flatMap le32

theorem length_wordBytes (xs : List (BitVec 32)) : (wordBytes xs).length = 4 * xs.length := by
  induction xs with
  | nil => rfl
  | cons x xs ih =>
    rw [wordBytes, List.flatMap_cons, List.length_append, length_le32, ← wordBytes, ih,
      List.length_cons]
    omega

theorem words_wordBytes (xs : List (BitVec 32)) : words (wordBytes xs) = xs := by
  induction xs with
  | nil => rfl
  | cons x xs ih =>
    have hhead := ofLe32_le32_append x []
    rw [List.append_nil] at hhead
    rw [wordBytes, List.flatMap_cons, ← wordBytes]
    change ofLe32 (le32 x) :: words (wordBytes xs) = x :: xs
    rw [hhead, ih]

theorem length_words (l : List UInt8) : (words l).length = l.length / 4 := by
  fun_induction words l with
  | case1 b₀ b₁ b₂ b₃ rest ih =>
    simp only [List.length_cons, ih]
    omega
  | case2 l h =>
    rcases l with _ | ⟨a, _ | ⟨b, _ | ⟨c, _ | ⟨d, rest⟩⟩⟩⟩
    · rfl
    · simp
    · simp
    · simp
    · exact absurd rfl (h a b c d rest)

variable {α : Type*}

/-- The buffer `old` after the datagram `d` was received into it. -/
def overlay (d old : List α) : List α := d.take old.length ++ old.drop d.length

@[simp] theorem length_overlay (d old : List α) : (overlay d old).length = old.length := by
  simp only [overlay, List.length_append, List.length_take, List.length_drop]
  omega

theorem overlay_of_length_le {d old : List α} (h : old.length ≤ d.length) :
    overlay d old = d.take old.length := by
  simp [overlay, List.drop_of_length_le h]

theorem overlay_eq_self {d old : List α} (h : d.length = old.length) : overlay d old = d := by
  rw [overlay_of_length_le (Nat.le_of_eq h.symm), ← h, List.take_length]

theorem take_overlay {d old : List α} {n : ℕ} (h : n ≤ d.length) (hn : n ≤ old.length) :
    (overlay d old).take n = d.take n := by
  rw [overlay, List.take_append_of_le_length (by simp; omega), List.take_take]
  congr 1
  omega

theorem drop_overlay (d old : List α) (k : ℕ) :
    (overlay d old).drop k = overlay (d.drop k) (old.drop k) := by
  induction k generalizing d old with
  | zero => rfl
  | succ k ih =>
    cases old with
    | nil => simp [overlay]
    | cons b old =>
      cases d with
      | nil => simp [overlay]
      | cons a d => simpa [overlay] using ih d old

/-- A datagram changes nothing if the buffer starts with it. -/
theorem overlay_eq_iff {d old : List α} (h : d.length ≤ old.length) :
    overlay d old = old ↔ old.take d.length = d := by
  have hover : overlay d old = d ++ old.drop d.length := by rw [overlay, List.take_of_length_le h]
  constructor
  · intro hold
    rw [← hold, hover, List.take_left]
  · intro htake
    calc overlay d old = d ++ old.drop d.length := hover
      _ = old.take d.length ++ old.drop d.length := by rw [htake]
      _ = old := List.take_append_drop _ _

/-- A part of the buffer after the reception depends on the same part before it only. -/
theorem take_drop_overlay_congr {d old old' : List α} {k n : ℕ} (hl : old.length = old'.length)
    (h : (old.drop k).take n = (old'.drop k).take n) :
    ((overlay d old).drop k).take n = ((overlay d old').drop k).take n := by
  apply List.ext_getElem?
  intro i
  have hi := congrArg (fun l => l[i]?) h
  simp only [List.getElem?_take, List.getElem?_drop] at hi ⊢
  simp only [overlay, List.getElem?_append, List.length_take, List.getElem?_take,
    List.getElem?_drop, hl]
  by_cases hin : i < n
  · simp only [hin, if_true] at hi ⊢
    by_cases hd : k + i < min old'.length d.length
    · simp [hd]
    · grind
  · simp [hin]

end EmbeddedSoftware.ByteLayout
