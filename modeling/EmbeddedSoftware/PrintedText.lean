import Mathlib.Data.Int.Notation
import Mathlib.Data.List.TakeWhile
import Mathlib.Tactic.Common

/-!
# Text that can be read back

A format is a list of fixed texts and of decimal numbers. Where every number is followed by a text
that starts with no digit, what is printed with a format can be read back, whatever comes behind it.
A sequence of such prints is read back one by one.
-/

namespace EmbeddedSoftware.PrintedText

section Readers

variable {σ α : Type}

/-- The reader takes what was printed off the front of a text and leaves what is behind it. -/
def Reads (read : List σ → Option (α × List σ)) (print : α → List σ) : Prop :=
  ∀ a rest, read (print a ++ rest) = some (a, rest)

/-- Reads a text to its end, at most `fuel` times. -/
def readAll (read : List σ → Option (α × List σ)) : ℕ → List σ → Option (List α)
  | _, [] => some []
  | 0, _ :: _ => none
  | fuel + 1, c :: l => do
    let (a, rest) ← read (c :: l)
    let as ← readAll read fuel rest
    return a :: as

theorem readAll_flatMap {read : List σ → Option (α × List σ)} {print : α → List σ}
    (h : Reads read print) (hnil : read [] = none) (as : List α) (fuel : ℕ)
    (hfuel : as.length ≤ fuel) : readAll read fuel (as.flatMap print) = some as := by
  have hne : ∀ a, print a ≠ [] := by
    intro a ha
    have hread := h a []
    rw [ha, List.append_nil, hnil] at hread
    cases hread
  induction as generalizing fuel with
  | nil => cases fuel <;> rfl
  | cons a as ih =>
    cases fuel with
    | zero => simp at hfuel
    | succ fuel =>
      have hrest := ih fuel (by simpa using hfuel)
      obtain ⟨c, cs, hcs⟩ := List.exists_cons_of_ne_nil (hne a)
      have hread := h a (as.flatMap print)
      rw [List.flatMap_cons, hcs, List.cons_append, readAll, ← List.cons_append, ← hcs, hread]
      simp only [Option.bind_eq_bind, Option.bind_some, hrest, Option.pure_def]

end Readers

section Formats

/-- A part of a format: a text that stands for itself, or `%d`. -/
inductive Piece where
  | text (t : List Char)
  | number

def decimal (n : ℤ) : List Char := (toString n).toList

def sprintf : List Piece → List ℤ → List Char
  | [], _ => []
  | .text t :: ps, ns => t ++ sprintf ps ns
  | .number :: ps, n :: ns => decimal n ++ sprintf ps ns
  | .number :: _, [] => []

def readNat (l : List Char) : Option (ℕ × List Char) :=
  match l.takeWhile Char.isDigit with
  | [] => none
  | ds => some (Nat.ofDigitChars 10 ds 0, l.dropWhile Char.isDigit)

def readInt : List Char → Option (ℤ × List Char)
  | [] => none
  | c :: l =>
    if c = '-' then (readNat l).map fun result => (-(result.1 : ℤ), result.2)
    else (readNat (c :: l)).map fun result => ((result.1 : ℤ), result.2)

def readText (t l : List Char) : Option (List Char) :=
  if l.take t.length = t then some (l.drop t.length) else none

def sscanf : List Piece → List Char → Option (List ℤ × List Char)
  | [], l => some ([], l)
  | .text t :: ps, l => (readText t l).bind (sscanf ps)
  | .number :: ps, l => do
    let (n, rest) ← readInt l
    let (ns, rest) ← sscanf ps rest
    return (n :: ns, rest)

/-- Every number is followed by a text that does not start with a digit. -/
def separated : List Piece → Bool
  | [] => true
  | .text _ :: ps => separated ps
  | .number :: .text (c :: _) :: ps => !c.isDigit && separated ps
  | .number :: _ => false

def numbers (ps : List Piece) : ℕ := ps.countP fun | .number => true | .text _ => false

theorem readNat_toDigits (n : ℕ) {c : Char} (hc : c.isDigit = false) (rest : List Char) :
    readNat (Nat.toDigits 10 n ++ c :: rest) = some (n, c :: rest) := by
  have hdigits : ∀ d ∈ Nat.toDigits 10 n, d.isDigit = true :=
    fun d hd => Nat.isDigit_of_mem_toDigits (by decide) (by decide) hd
  have htake : (Nat.toDigits 10 n ++ c :: rest).takeWhile Char.isDigit = Nat.toDigits 10 n := by
    rw [List.takeWhile_append_of_pos hdigits, List.takeWhile_cons_of_neg (by simp [hc]),
      List.append_nil]
  have hdrop : (Nat.toDigits 10 n ++ c :: rest).dropWhile Char.isDigit = c :: rest := by
    rw [List.dropWhile_append_of_pos hdigits, List.dropWhile_cons_of_neg (by simp [hc])]
  rw [readNat, htake, hdrop]
  split
  · next hnil => exact absurd hnil Nat.toDigits_ne_nil
  · rw [Nat.ofDigitChars_ten_toDigits]

theorem exists_digit_cons (n : ℕ) : ∃ d ds, Nat.toDigits 10 n = d :: ds ∧ d ≠ '-' := by
  obtain ⟨d, ds, hds⟩ := List.exists_cons_of_ne_nil (Nat.toDigits_ne_nil (n := n) (b := 10))
  refine ⟨d, ds, hds, ?_⟩
  rintro rfl
  have hdigit : Char.isDigit '-' = true :=
    Nat.isDigit_of_mem_toDigits (n := n) (b := 10) (by decide) (by decide) (by simp [hds])
  exact absurd hdigit (by decide)

theorem decimal_eq_if (n : ℤ) :
    decimal n = if 0 ≤ n then Nat.toDigits 10 n.toNat else '-' :: Nat.toDigits 10 (-n).toNat := by
  rw [decimal, Int.toString_eq_repr, Int.repr_eq_if]
  split
  · rw [Nat.toList_repr]
  · rw [String.toList_append, Nat.toList_repr]
    rfl

theorem readInt_decimal (n : ℤ) {c : Char} (hc : c.isDigit = false) (rest : List Char) :
    readInt (decimal n ++ c :: rest) = some (n, c :: rest) := by
  rw [decimal_eq_if]
  by_cases hn : 0 ≤ n
  · obtain ⟨d, ds, hds, hsign⟩ := exists_digit_cons n.toNat
    have hread := readNat_toDigits n.toNat hc rest
    rw [if_pos hn, hds, List.cons_append, readInt, if_neg hsign, ← List.cons_append, ← hds, hread,
      Option.map_some, Int.toNat_of_nonneg hn]
  · rw [if_neg hn, List.cons_append, readInt, if_pos rfl, readNat_toDigits _ hc, Option.map_some,
      Int.toNat_of_nonneg (by omega), Int.neg_neg]

theorem readText_append (t rest : List Char) : readText t (t ++ rest) = some rest := by
  rw [readText, List.take_left, if_pos rfl, List.drop_left]

theorem readText_eq_none {t l : List Char} {c d : Char} (ht : t.head? = some c)
    (hl : l.head? = some d) (hne : c ≠ d) : readText t l = none := by
  obtain ⟨t, rfl⟩ := List.head?_eq_some_iff.mp ht
  obtain ⟨l, rfl⟩ := List.head?_eq_some_iff.mp hl
  rw [readText, if_neg]
  intro htake
  rw [List.length_cons, List.take_succ_cons] at htake
  exact hne (List.cons.inj htake).1.symm

/-- What `sprintf` prints with a separated format `sscanf` reads, and it stops where the print ends. -/
theorem sscanf_sprintf {ps : List Piece} (hps : separated ps = true) {ns : List ℤ}
    (hns : ns.length = numbers ps) (rest : List Char) :
    sscanf ps (sprintf ps ns ++ rest) = some (ns, rest) := by
  induction ps using separated.induct generalizing ns with
  | case1 =>
    have hnil : ns = [] := List.length_eq_zero_iff.mp hns
    rw [hnil]
    rfl
  | case2 t ps ih =>
    have hread := ih hps hns
    rw [sprintf, List.append_assoc, sscanf, readText_append, Option.bind_some, hread]
  | case3 c t ps ih =>
    obtain ⟨hc, hps⟩ := Bool.and_eq_true_iff.mp hps
    obtain ⟨n, ns, rfl⟩ : ∃ n ms, ns = n :: ms := by
      cases ns with
      | nil => simp [numbers] at hns
      | cons n ms => exact ⟨n, ms, rfl⟩
    have hread : sscanf ps (sprintf ps ns ++ rest) = some (ns, rest) :=
      ih hps (by simpa [numbers] using hns)
    rw [sprintf, sprintf, List.append_assoc, List.append_assoc, List.cons_append, sscanf,
      readInt_decimal n (by simpa using hc)]
    simp only [Option.bind_eq_bind, Option.bind_some]
    rw [sscanf, ← List.cons_append, readText_append, Option.bind_some, hread]
    rfl
  | case4 => simp [separated] at hps

end Formats

end EmbeddedSoftware.PrintedText
