import Mathlib.Data.Set.Insert
import Mathlib.Logic.Relation

/-!
# Identities that a process holds

A process acts under a real, an effective and a saved identity, and under a fourth one towards
file systems. Without further rights it can only move around the first three. Whatever it does,
the identities that it has given up do not come back.
-/

namespace EmbeddedSoftware.HeldIdentities

open Relation

@[ext]
structure Ids (K : Type*) where
  real : K
  effective : K
  saved : K
  fs : K
  deriving DecidableEq

variable {K : Type*} {i j : Ids K}

namespace Ids

/-- The identities that the process may take up again. -/
def held (i : Ids K) : Set K := {i.real, i.effective, i.saved}

theorem mem_held {k : K} : k ∈ i.held ↔ k = i.real ∨ k = i.effective ∨ k = i.saved := Iff.rfl

theorem real_mem_held (i : Ids K) : i.real ∈ i.held := .inl rfl

theorem effective_mem_held (i : Ids K) : i.effective ∈ i.held := .inr (.inl rfl)

theorem saved_mem_held (i : Ids K) : i.saved ∈ i.held := .inr (.inr rfl)

theorem held_subset_iff {S : Set K} :
    i.held ⊆ S ↔ i.real ∈ S ∧ i.effective ∈ S ∧ i.saved ∈ S := by
  simp [held, Set.insert_subset_iff]

def constant (k : K) : Ids K := ⟨k, k, k, k⟩

theorem held_constant (k : K) : (constant k).held = {k} := by simp [held, constant]

end Ids

/-- What the holder of some identities can do without any right: take three of them, where the
file system identity follows the effective one, or choose the file system identity alone. -/
inductive Move (i : Ids K) : Ids K → Prop
  | set (r e s : K) (hr : r ∈ i.held) (he : e ∈ i.held) (hs : s ∈ i.held) : Move i ⟨r, e, s, e⟩
  | setFs (f : K) (hf : f ∈ i.held) : Move i { i with fs := f }

def Reach : Ids K → Ids K → Prop := ReflTransGen Move

theorem Move.held_subset (h : Move i j) : j.held ⊆ i.held := by
  cases h with
  | set r e s hr he hs => exact Ids.held_subset_iff.mpr ⟨hr, he, hs⟩
  | setFs f hf => exact subset_rfl

theorem Move.fs_mem_held (h : Move i j) : j.fs ∈ j.held := by
  cases h with
  | set r e s hr he hs => exact .inr (.inl rfl)
  | setFs f hf => exact hf

/-- The states that can be reached: nothing was done at all, or only held identities are left and
the file system identity is one of them. -/
theorem reach_iff : Reach i j ↔ j = i ∨ j.held ⊆ i.held ∧ j.fs ∈ j.held := by
  constructor
  · intro h
    induction h with
    | refl => exact .inl rfl
    | @tail b c hb hbc ih =>
      have hsub : b.held ⊆ i.held := by
        obtain rfl | ⟨hsub, -⟩ := ih
        · exact subset_rfl
        · exact hsub
      exact .inr ⟨hbc.held_subset.trans hsub, hbc.fs_mem_held⟩
  · rintro (rfl | ⟨hsub, hfs⟩)
    · exact .refl
    · have hset : Move i ⟨j.real, j.effective, j.saved, j.effective⟩ :=
        .set _ _ _ (hsub j.real_mem_held) (hsub j.effective_mem_held) (hsub j.saved_mem_held)
      have hchoose : Move ⟨j.real, j.effective, j.saved, j.effective⟩ j := .setFs j.fs hfs
      exact .head hset (.single hchoose)

theorem reach_constant_iff {k : K} : Reach (.constant k) j ↔ j = .constant k := by
  rw [reach_iff, Ids.held_constant, Ids.held_subset_iff]
  constructor
  · rintro (rfl | ⟨⟨hr, he, hs⟩, hfs⟩)
    · rfl
    · rw [Set.mem_singleton_iff] at hr he hs
      have hf : j.fs = k := by
        rcases Ids.mem_held.mp hfs with hfs | hfs | hfs
        · exact hfs.trans hr
        · exact hfs.trans he
        · exact hfs.trans hs
      exact Ids.ext hr he hs hf
  · exact .inl

end EmbeddedSoftware.HeldIdentities
