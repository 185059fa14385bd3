import Mathlib.Data.Nat.Notation
import Mathlib.Tactic.Common

/-!
# Finitely branching trees

Trees with a label at every node, walks that decide at each node whether they go on below it, and
conditions between each node and its children.
-/

namespace EmbeddedSoftware.RoseTrees

inductive RoseTree (α : Type) where
  | node (label : α) (children : List (RoseTree α))

namespace RoseTree

variable {α : Type}

def label : RoseTree α → α
  | .node a _ => a

def children : RoseTree α → List (RoseTree α)
  | .node _ ts => ts

/-- Induction with the property of all children. -/
@[elab_as_elim]
theorem node_induction {motive : RoseTree α → Prop}
    (node : ∀ a ts, (∀ t ∈ ts, motive t) → motive (.node a ts)) : ∀ t, motive t
  | .node a ts => node a ts (forall_mem ts)
where
  forall_mem : ∀ ts : List (RoseTree α), ∀ t ∈ ts, motive t
    | [] => by simp
    | t :: ts => by
      rw [List.forall_mem_cons]
      exact ⟨node_induction node t, forall_mem ts⟩

mutual

/-- A walk. The visitor changes the label, and says whether the walk goes on below the node. -/
def walk (visitor : α → α × Bool) : RoseTree α → RoseTree α
  | .node a ts => .node (visitor a).1 (if (visitor a).2 then walkAll visitor ts else ts)

def walkAll (visitor : α → α × Bool) : List (RoseTree α) → List (RoseTree α)
  | [] => []
  | t :: ts => walk visitor t :: walkAll visitor ts

end

mutual

/-- The topmost trees that satisfy `P`, replaced. -/
def replace (P : RoseTree α → Bool) (f : RoseTree α → RoseTree α) : RoseTree α → RoseTree α
  | .node a ts => if P (.node a ts) then f (.node a ts) else .node a (replaceAll P f ts)

def replaceAll (P : RoseTree α → Bool) (f : RoseTree α → RoseTree α) :
    List (RoseTree α) → List (RoseTree α)
  | [] => []
  | t :: ts => replace P f t :: replaceAll P f ts

end

theorem walkAll_eq_map (visitor : α → α × Bool) (ts : List (RoseTree α)) :
    walkAll visitor ts = ts.map (walk visitor) := by
  induction ts with
  | nil => rfl
  | cons t ts ih => rw [walkAll, ih, List.map_cons]

theorem replaceAll_eq_map (P : RoseTree α → Bool) (f : RoseTree α → RoseTree α)
    (ts : List (RoseTree α)) :
    replaceAll P f ts = ts.map (replace P f) := by
  induction ts with
  | nil => rfl
  | cons t ts ih => rw [replaceAll, ih, List.map_cons]

@[simp] theorem label_walk (visitor : α → α × Bool) (t : RoseTree α) :
    (walk visitor t).label = (visitor t.label).1 := by
  cases t with
  | node a ts => rfl

inductive Subtree : RoseTree α → RoseTree α → Prop
  | refl (t : RoseTree α) : Subtree t t
  | child {t s : RoseTree α} (a : α) {ts : List (RoseTree α)} (hs : s ∈ ts) (h : Subtree t s) :
    Subtree t (.node a ts)

theorem Subtree.trans {r s t : RoseTree α} (hrs : Subtree r s) (hst : Subtree s t) : Subtree r t := by
  induction hst with
  | refl => exact hrs
  | child a hs _ ih => exact .child a hs ih

def IsEdge (t : RoseTree α) (a b : α) : Prop :=
  ∃ s, Subtree s t ∧ s.label = a ∧ ∃ c ∈ s.children, c.label = b

theorem isEdge_node_iff {a x y : α} {ts : List (RoseTree α)} : IsEdge (.node a ts) x y ↔
    (a = x ∧ ∃ c ∈ ts, c.label = y) ∨ ∃ t ∈ ts, IsEdge t x y := by
  constructor
  · rintro ⟨s, hs, hx, hy⟩
    cases hs with
    | refl => exact .inl ⟨hx, hy⟩
    | child a ht hs => exact .inr ⟨_, ht, s, hs, hx, hy⟩
  · rintro (⟨hx, hy⟩ | ⟨t, ht, s, hs, hx, hy⟩)
    · exact ⟨_, .refl _, hx, hy⟩
    · exact ⟨s, .child a ht hs, hx, hy⟩

theorem IsEdge.of_subtree {s t : RoseTree α} {x y : α} (h : IsEdge s x y) (hs : Subtree s t) :
    IsEdge t x y := by
  obtain ⟨r, hr, hx, hy⟩ := h
  exact ⟨r, hr.trans hs, hx, hy⟩

/-- The edges after a replacement that keeps the labels of the trees it replaces. -/
theorem isEdge_replace {P : RoseTree α → Bool} {f : RoseTree α → RoseTree α} {t : RoseTree α}
    {x y : α} (hlabel : ∀ t, (f t).label = t.label) (h : IsEdge (t.replace P f) x y) :
    IsEdge t x y ∨ ∃ s, Subtree s t ∧ IsEdge (f s) x y := by
  have hkeep : ∀ t : RoseTree α, (t.replace P f).label = t.label := by
    intro t
    cases t with
    | node a ts =>
      rw [replace]
      split
      · exact hlabel _
      · rfl
  induction t using node_induction with
  | node a ts ih =>
    rw [replace] at h
    split at h
    · exact .inr ⟨_, .refl _, h⟩
    · rw [replaceAll_eq_map] at h
      rcases isEdge_node_iff.mp h with ⟨hx, c, hc, hy⟩ | ⟨t', ht', hedge⟩
      · obtain ⟨t, ht, rfl⟩ := List.mem_map.mp hc
        exact .inl (isEdge_node_iff.mpr (.inl ⟨hx, t, ht, (hkeep t).symm.trans hy⟩))
      · obtain ⟨t, ht, rfl⟩ := List.mem_map.mp ht'
        rcases ih t ht hedge with hold | ⟨s, hs, hnew⟩
        · exact .inl (isEdge_node_iff.mpr (.inr ⟨t, ht, hold⟩))
        · exact .inr ⟨s, .child a ht hs, hnew⟩

section Edges

variable {E : α → α → Prop} {t s : RoseTree α}

/-- Every node and each of its children are in the relation. -/
inductive Edges (E : α → α → Prop) : RoseTree α → Prop
  | node (a : α) (ts : List (RoseTree α)) (here : ∀ t ∈ ts, E a t.label)
    (below : ∀ t ∈ ts, Edges E t) : Edges E (.node a ts)

theorem edges_node_iff {a : α} {ts : List (RoseTree α)} :
    Edges E (.node a ts) ↔ (∀ t ∈ ts, E a t.label) ∧ ∀ t ∈ ts, Edges E t := by
  constructor
  · intro h
    cases h with
    | node _ _ here below => exact ⟨here, below⟩
  · rintro ⟨here, below⟩
    exact .node a ts here below

theorem edges_iff_forall : Edges E t ↔ ∀ x y, IsEdge t x y → E x y := by
  induction t using node_induction with
  | node a ts ih =>
    rw [edges_node_iff]
    constructor
    · rintro ⟨here, below⟩ x y hedge
      rcases isEdge_node_iff.mp hedge with ⟨rfl, c, hc, rfl⟩ | ⟨t, ht, hedge⟩
      · exact here c hc
      · exact (ih t ht).mp (below t ht) x y hedge
    · intro h
      constructor
      · intro t ht
        exact h a t.label (isEdge_node_iff.mpr (.inl ⟨rfl, t, ht, rfl⟩))
      · intro t ht
        exact (ih t ht).mpr fun x y hedge => h x y (isEdge_node_iff.mpr (.inr ⟨t, ht, hedge⟩))

theorem Edges.of_subtree (h : Edges E t) (hsub : Subtree s t) : Edges E s := by
  induction hsub with
  | refl => exact h
  | child a hs _ ih => exact ih ((edges_node_iff.mp h).2 _ hs)

/-- A walk keeps the relation when it keeps it where it stops and where it goes on. -/
theorem Edges.walk {visitor : α → α × Bool}
    (hstop : ∀ a b, (visitor a).2 = false → E a b → E (visitor a).1 b)
    (hgo : ∀ a b, (visitor a).2 = true → E a b → E (visitor a).1 (visitor b).1) (h : Edges E t) :
    Edges E (t.walk visitor) := by
  induction t using node_induction with
  | node a ts ih =>
    obtain ⟨here, below⟩ := edges_node_iff.mp h
    rw [RoseTree.walk]
    cases hdown : (visitor a).2 with
    | false =>
      rw [if_neg Bool.false_ne_true]
      exact .node _ _ (fun t ht => hstop a _ hdown (here t ht)) below
    | true =>
      rw [if_pos rfl, walkAll_eq_map, edges_node_iff, List.forall_mem_map, List.forall_mem_map]
      constructor
      · intro t ht
        rw [label_walk]
        exact hgo a _ hdown (here t ht)
      · intro t ht
        exact ih t ht (below t ht)

/-- A replacement keeps the relation when it keeps it inside the trees that it replaces and towards
their parents. -/
theorem Edges.replace {P : RoseTree α → Bool} {f : RoseTree α → RoseTree α}
    (hf : ∀ t, P t = true → Edges E t → Edges E (f t))
    (hlabel : ∀ t a, P t = true → E a t.label → E a (f t).label) (h : Edges E t) :
    Edges E (t.replace P f) ∧ ∀ a, E a t.label → E a (t.replace P f).label := by
  induction t using node_induction with
  | node b ts ih =>
    obtain ⟨here, below⟩ := edges_node_iff.mp h
    rw [RoseTree.replace]
    split
    · next hP => exact ⟨hf _ hP h, fun a => hlabel _ a hP⟩
    · refine ⟨?_, fun a ha => ha⟩
      rw [replaceAll_eq_map, edges_node_iff, List.forall_mem_map, List.forall_mem_map]
      constructor
      · intro t ht
        exact (ih t ht (below t ht)).2 b (here t ht)
      · intro t ht
        exact (ih t ht (below t ht)).1

end Edges

end RoseTree

end EmbeddedSoftware.RoseTrees
