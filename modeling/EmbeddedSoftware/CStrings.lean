import Mathlib.Data.List.Lex
import Mathlib.Data.List.TakeWhile
import Mathlib.Data.Nat.Basic
import Mathlib.Order.Lattice
import Mathlib.Tactic.Common

/-!
# Strings in memory

A string is the part of a memory area before its first zero byte. `strtok` with a single
delimiter splits it in place: leading delimiters are skipped but stay where they are, and
the delimiter behind a token is overwritten by a zero. `strcmp` orders strings by their
first difference, as unsigned bytes. `strcat` writes behind the string that is there.
-/

namespace EmbeddedSoftware.CStrings

def ascii (s : String) : List UInt8 := s.toList.map fun c => UInt8.ofNat c.toNat

/-- The string that starts a memory area. -/
def cstr (mem : List UInt8) : List UInt8 := mem.takeWhile (· != 0)

theorem cstr_append_zero (s t : List UInt8) : cstr (s ++ 0 :: t) = cstr s := by
  induction s with
  | nil => rfl
  | cons b s ih =>
    by_cases hb : b = 0
    · simp [cstr, hb]
    · simpa [cstr, hb] using ih

/-- What lies behind the zero, and where the memory ends, does not matter. -/
theorem cstr_take_append_zero {s : List UInt8} (t : List UInt8) {n : ℕ} (h : s.length < n) :
    cstr ((s ++ 0 :: t).take n) = cstr s := by
  obtain ⟨k, rfl⟩ := Nat.exists_eq_add_of_lt h
  rw [Nat.add_assoc, List.take_length_add_append, List.take_succ_cons, cstr_append_zero]

theorem cstr_of_notMem {s : List UInt8} (h : 0 ∉ s) : cstr s = s := by
  apply List.takeWhile_eq_self_iff.mpr
  intro b hb
  simpa using fun h0 : b = 0 => h (h0 ▸ hb)

theorem cstr_append_of_mem {s : List UInt8} (h : 0 ∈ s) (t : List UInt8) :
    cstr (s ++ t) = cstr s := by
  obtain ⟨a, b, rfl⟩ := List.append_of_mem h
  rw [List.append_assoc, List.cons_append, cstr_append_zero, cstr_append_zero]

theorem zero_notMem_cstr (mem : List UInt8) : 0 ∉ cstr mem := by
  intro h
  simpa using List.mem_takeWhile_imp h

theorem length_cstr_le (mem : List UInt8) : (cstr mem).length ≤ mem.length :=
  (List.takeWhile_prefix _).length_le

theorem take_length_cstr (mem : List UInt8) : mem.take (cstr mem).length = cstr mem :=
  (List.prefix_iff_eq_take.mp (List.takeWhile_prefix _)).symm

theorem exists_eq_cstr_append {mem : List UInt8} (h : 0 ∈ mem) :
    ∃ rest, mem = cstr mem ++ 0 :: rest := by
  induction mem with
  | nil => cases h
  | cons b mem ih =>
    by_cases hb : b = 0
    · subst hb
      exact ⟨mem, rfl⟩
    · have hmem : 0 ∈ mem := (List.mem_cons.mp h).resolve_left (Ne.symm hb)
      obtain ⟨rest, hrest⟩ := ih hmem
      have hcstr : cstr (b :: mem) = b :: cstr mem := List.takeWhile_cons_of_pos (by simpa using hb)
      refine ⟨rest, ?_⟩
      rw [hcstr, List.cons_append, ← hrest]

/-- A memory area holds a string when the string and a zero start it. -/
theorem zero_mem_and_cstr_eq_iff {mem s : List UInt8} (hs : 0 ∉ s) :
    0 ∈ mem ∧ cstr mem = s ↔ ∃ rest, mem = s ++ 0 :: rest := by
  constructor
  · rintro ⟨hzero, rfl⟩
    exact exists_eq_cstr_append hzero
  · rintro ⟨rest, rfl⟩
    refine ⟨List.mem_append_right _ List.mem_cons_self, ?_⟩
    rw [cstr_append_zero, cstr_of_notMem hs]

section Concatenation

/-- `strcat(dest, src)`. There is no result when a byte would be stored behind `dest`. -/
def strcat (dest src : List UInt8) : Option (List UInt8) :=
  let text := cstr dest ++ src ++ [0]
  if text.length ≤ dest.length then some (text ++ dest.drop text.length) else none

def padded (n : ℕ) (s : List UInt8) : List UInt8 := s ++ List.replicate (n - s.length) 0

variable {n : ℕ} {s src : List UInt8}

theorem cstr_padded (hs : 0 ∉ s) : cstr (padded n s) = s := by
  rw [padded]
  cases n - s.length with
  | zero => rw [List.replicate_zero, List.append_nil, cstr_of_notMem hs]
  | succ k => rw [List.replicate_succ, cstr_append_zero, cstr_of_notMem hs]

theorem strcat_padded (hs : 0 ∉ s) (hle : s.length ≤ n) :
    strcat (padded n s) src =
      if (s ++ src).length < n then some (padded n (s ++ src)) else none := by
  have hlength : (padded n s).length = n := by
    rw [padded, List.length_append, List.length_replicate]
    omega
  simp only [strcat, cstr_padded hs, hlength]
  by_cases hfits : (s ++ src).length < n
  · have hsum : s.length + src.length < n := by simpa using hfits
    have hdrop : (padded n s).drop (s ++ src ++ [0]).length =
        List.replicate (n - (s ++ src).length - 1) 0 := by
      rw [padded, List.drop_append, List.drop_of_length_le (by simp), List.nil_append,
        List.drop_replicate]
      congr 1
      simp
      omega
    have hzeros : n - (s ++ src).length = (n - (s ++ src).length - 1) + 1 := by omega
    rw [if_pos (by simp; omega), if_pos hfits, hdrop, padded, hzeros, List.replicate_succ,
      List.append_assoc (s ++ src)]
    rfl
  · have hsum : ¬s.length + src.length < n := by simpa using hfits
    rw [if_neg hfits, if_neg (by simp; omega)]

/-- Calls of `strcat` one after the other collect their texts, as long as all of them fit with
the zero behind them. -/
theorem foldlM_strcat_padded (srcs : List (List UInt8)) (hsrcs : ∀ src ∈ srcs, 0 ∉ src)
    (hs : 0 ∉ s) (hlt : s.length < n) :
    srcs.foldlM strcat (padded n s) =
      if (s ++ srcs.flatten).length < n then some (padded n (s ++ srcs.flatten)) else none := by
  induction srcs generalizing s with
  | nil => simp [hlt]
  | cons src srcs ih =>
    have hsrc : 0 ∉ s ++ src := by
      simp [hs, hsrcs src List.mem_cons_self]
    rw [List.foldlM_cons, strcat_padded hs hlt.le, List.flatten_cons, ← List.append_assoc]
    by_cases hfits : (s ++ src).length < n
    · rw [if_pos hfits]
      exact ih (fun src hmem => hsrcs src (List.mem_cons_of_mem _ hmem)) hsrc hfits
    · have hall : ¬(s ++ src ++ srcs.flatten).length < n := by
        rw [List.length_append]
        omega
      rw [if_neg hfits, if_neg hall]
      rfl

end Concatenation

section Tokens

variable (delim : UInt8)

/-- What is left of `s` behind its first token, from the delimiter on. -/
def behindHead (s : List UInt8) : List UInt8 :=
  (s.dropWhile (· == delim)).dropWhile (· != delim)

/-- The string at the address of `s` after the first call of `strtok`. -/
def headToken (s : List UInt8) : List UInt8 :=
  s.takeWhile (· == delim) ++ (s.dropWhile (· == delim)).takeWhile (· != delim)

/-- The memory that the second call of `strtok` points to, up to the zero that ends `s`. -/
def nextToken (s : List UInt8) : Option (List UInt8) :=
  match (behindHead delim s).dropWhile (· == delim) with
  | [] => none
  | b :: t => some ((b :: t).takeWhile (· != delim) ++
      0 :: match (b :: t).dropWhile (· != delim) with
        | [] => []
        | _ :: u => u ++ [0])

theorem headToken_append_behindHead (s : List UInt8) :
    headToken delim s ++ behindHead delim s = s := by
  rw [headToken, behindHead, List.append_assoc, List.takeWhile_append_dropWhile,
    List.takeWhile_append_dropWhile]

variable {delim}

theorem length_headToken_le (s : List UInt8) : (headToken delim s).length ≤ s.length := by
  have := congrArg List.length (headToken_append_behindHead delim s)
  rw [List.length_append] at this
  omega

theorem headToken_of_notMem {s : List UInt8} (h : delim ∉ s) : headToken delim s = s := by
  cases s with
  | nil => rfl
  | cons b s =>
    have hb : b ≠ delim := fun he => h (he ▸ List.mem_cons_self)
    have hall : (b :: s).takeWhile (· != delim) = b :: s := by
      apply List.takeWhile_eq_self_iff.mpr
      intro c hc
      simpa using fun hd : c = delim => h (hd ▸ hc)
    rw [headToken, List.takeWhile_cons_of_neg (by simpa using hb),
      List.dropWhile_cons_of_neg (by simpa using hb), hall, List.nil_append]

theorem nextToken_eq_none {s : List UInt8} (h : s.length ≤ (headToken delim s).length + 1) :
    nextToken delim s = none := by
  have hlen := congrArg List.length (headToken_append_behindHead delim s)
  rw [List.length_append] at hlen
  have hdrop : (behindHead delim s).dropWhile (· == delim) = [] := by
    cases hr : behindHead delim s with
    | nil => rfl
    | cons b t =>
      have hb : b = delim := by
        have := List.head?_dropWhile_not (· != delim) (s.dropWhile (· == delim))
        rw [behindHead] at hr
        simpa [hr] using this
      have ht : t = [] := by
        rw [hr, List.length_cons] at hlen
        exact List.eq_nil_of_length_eq_zero (by omega)
      simp [hb, ht]
  rw [nextToken, hdrop]

theorem notMem_cstr_nextToken {s mem : List UInt8} (h : nextToken delim s = some mem) :
    delim ∉ cstr mem := by
  rw [nextToken] at h
  split at h
  · cases h
  · cases h
    rw [cstr_append_zero]
    intro hd
    have := List.mem_takeWhile_imp ((List.takeWhile_prefix _).subset hd)
    simp at this

theorem length_cstr_nextToken_le {s mem : List UInt8} (h : nextToken delim s = some mem) :
    (cstr mem).length ≤ s.length := by
  rw [nextToken] at h
  split at h
  · cases h
  · next b t hrest =>
    cases h
    rw [cstr_append_zero]
    have hsuffix : b :: t <:+ s := by
      rw [← hrest]
      exact (List.dropWhile_suffix _).trans
        ((List.dropWhile_suffix _).trans (List.dropWhile_suffix _))
    exact (length_cstr_le _).trans ((List.takeWhile_prefix _).length_le.trans hsuffix.length_le)

end Tokens

section Compare

/-- The bytes in front of the zero that ends a string. -/
structure CString where
  bytes : List UInt8
  zero_notMem : 0 ∉ bytes
  deriving DecidableEq

/-- `strcmp`: the zero at the end of a string is less than any byte of another. -/
def strcmp : List UInt8 → List UInt8 → ℤ
  | [], [] => 0
  | [], _ :: _ => -1
  | _ :: _, [] => 1
  | b :: s, c :: t => if b = c then strcmp s t else if b < c then -1 else 1

def codes (s : List UInt8) : List ℕ := s.map UInt8.toNat

theorem codes_injective : Function.Injective codes :=
  List.map_injective_iff.mpr fun _ _ => UInt8.toNat_inj.mp

theorem codes_cons_lt {b c : UInt8} {s t : List UInt8} :
    codes (b :: s) < codes (c :: t) ↔ b < c ∨ b = c ∧ codes s < codes t := by
  rw [codes, codes, List.map_cons, List.map_cons, List.cons_lt_cons_iff, UInt8.lt_iff_toNat_lt,
    UInt8.toNat_inj]
  rfl

/-- The sign of `strcmp` is the lexicographic order. -/
theorem strcmp_neg_iff {s t : List UInt8} : strcmp s t < 0 ↔ codes s < codes t := by
  induction s generalizing t with
  | nil => cases t <;> simp [strcmp, codes]
  | cons b s ih =>
    cases t with
    | nil => simp [strcmp, codes]
    | cons c t =>
      rw [codes_cons_lt, strcmp]
      by_cases heq : b = c
      · simp [heq, ih]
      · by_cases hlt : b < c
        · simp [heq, hlt]
        · simp [heq, hlt]

theorem strcmp_eq_zero_iff {s t : List UInt8} : strcmp s t = 0 ↔ s = t := by
  induction s generalizing t with
  | nil => cases t <;> simp [strcmp]
  | cons b s ih =>
    cases t with
    | nil => simp [strcmp]
    | cons c t =>
      rw [strcmp]
      by_cases heq : b = c
      · simp [heq, ih]
      · by_cases hlt : b < c
        · simp [heq, hlt]
        · simp [heq, hlt]

theorem strcmp_pos_iff {s t : List UInt8} : 0 < strcmp s t ↔ codes t < codes s := by
  have hneg := strcmp_neg_iff (s := s) (t := t)
  have hzero := strcmp_eq_zero_iff (s := s) (t := t)
  constructor
  · intro hpos
    rcases lt_trichotomy (codes s) (codes t) with hlt | heq | hgt
    · have := hneg.mpr hlt
      omega
    · have := hzero.mpr (codes_injective heq)
      omega
    · exact hgt
  · intro hgt
    have hnotneg : ¬strcmp s t < 0 := fun h => lt_asymm hgt (hneg.mp h)
    have hnotzero : strcmp s t ≠ 0 := fun h => absurd hgt (by rw [hzero.mp h]; exact lt_irrefl _)
    omega

end Compare

end EmbeddedSoftware.CStrings
