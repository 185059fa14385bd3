import EmbeddedSoftware.RoseTrees
import EmbeddedSoftware.RunRules

/-!
# Who knows of a subreaper

`PR_SET_CHILD_SUBREAPER` of `prctl` in `sys.c`. A process that becomes a subreaper marks all its
descendants, by a walk that leaves out those that have the mark already and other namespaces. The
comment in `propagate_has_child_subreaper` says why that is enough: the descendants of a marked
process are marked. Whether they are depends on the rest of the kernel, which makes processes and
hands over the children of those that end.
-/

namespace EmbeddedSoftware.Subreapers

open Relation RunRules RoseTrees

/-- A process with `is_child_subreaper` and `has_child_subreaper`, and whether it is the first one of
its namespace. -/
structure Proc where
  pid : ℕ
  isChildSubreaper : Bool
  hasChildSubreaper : Bool
  isChildReaper : Bool
  deriving DecidableEq

abbrev Processes := RoseTree Proc

/-- `propagate_has_child_subreaper` goes on below the processes that it marks. -/
def propagateHasChildSubreaper (p : Proc) : Proc × Bool :=
  if p.hasChildSubreaper || p.isChildReaper then (p, false)
  else ({ p with hasChildSubreaper := true }, true)

/-- What becomes of the processes below one when `walk_process_tree` goes through them. -/
abbrev Walk := (Proc → Proc × Bool) → List Processes → List Processes

/-- `PR_SET_CHILD_SUBREAPER` at the process itself. -/
def setChildSubreaper (walk : Walk) (arg2 : Bool) (t : Processes) : Processes :=
  .node { t.label with isChildSubreaper := arg2 }
    (if arg2 then walk propagateHasChildSubreaper t.children else t.children)

def hasPid (pid : ℕ) (t : Processes) : Bool := t.label.pid = pid

/-- What is assumed of `walk_process_tree`: it visits the children, and goes on below those for which
the visitor says so. -/
def WalksDown (walk : Walk) : Prop :=
  ∀ visitor ts, walk visitor ts = ts.map fun t =>
    .node (visitor t.label).1 (if (visitor t.label).2 then walk visitor t.children else t.children)

/-- A process below another one, in the same namespace. -/
inductive Under : Processes → Proc → Prop
  | child (p : Proc) {ts : List Processes} {c : Processes} (hc : c ∈ ts)
    (hreaper : c.label.isChildReaper = false) : Under (.node p ts) c.label
  | deeper (p : Proc) {ts : List Processes} {c : Processes} {q : Proc} (hc : c ∈ ts)
    (hreaper : c.label.isChildReaper = false) (h : Under c q) : Under (.node p ts) q

/-- Why a process can be the parent of another one after a step of the rest of the kernel. -/
inductive Parentage (t : Processes) (parent child : Proc) : Prop
  | kept (h : t.IsEdge parent child)
  /-- A process forks a child of its own, or of its parent if it is not the first one of its
  namespace. The child knows of a subreaper when the process does or is one. -/
  | born (forker : Proc)
    (hplace : parent = forker ∨ t.IsEdge parent forker ∧ forker.isChildReaper = false)
    (hmark : child.hasChildSubreaper = (forker.hasChildSubreaper || forker.isChildSubreaper))
  /-- A process takes over one that was below it, or the first process of another namespace. -/
  | adopted (s : Processes) (hs : s.Subtree t) (hparent : s.label = parent)
    (hchild : Under s child ∨ child.isChildReaper = true)

/-- What is assumed of the rest of the kernel. -/
def Environment (env : Processes → Processes → Prop) : Prop :=
  ∀ t t', env t t' → ∀ parent child, t'.IsEdge parent child → Parentage t parent child

inductive Step (walk : Walk) (env : Processes → Processes → Prop) (t : Processes) : Processes → Prop
  | call (pid : ℕ) (arg2 : Bool) :
    Step walk env t (t.replace (hasPid pid) (setChildSubreaper walk arg2))
  | other {t' : Processes} (h : env t t') : Step walk env t t'

def Run (walk : Walk) (env : Processes → Processes → Prop) : Processes → Processes → Prop :=
  ReflTransGen (Step walk env)

def boot : Processes := .node ⟨1, false, false, true⟩ []

/-- The mark of a child, unless it is the first one of its namespace. -/
def Marked (p c : Proc) : Prop :=
  p.hasChildSubreaper = true ∨ p.isChildSubreaper = true →
    c.hasChildSubreaper = true ∨ c.isChildReaper = true

section Marks

variable {walk : Walk} {env : Processes → Processes → Prop} {t t' s : Processes} {p c : Proc}

theorem marked_propagate (p c : Proc) : Marked p (propagateHasChildSubreaper c).1 := by
  intro _
  rw [propagateHasChildSubreaper]
  split
  · next h => simpa using h
  · exact .inl rfl

theorem WalksDown.eq_map_walk (hwalk : WalksDown walk) (visitor : Proc → Proc × Bool)
    (ts : List Processes) : walk visitor ts = ts.map (RoseTree.walk visitor) := by
  have hone : ∀ t : Processes, RoseTree.node (visitor t.label).1
      (if (visitor t.label).2 then walk visitor t.children else t.children) =
        t.walk visitor := by
    intro t
    induction t using RoseTree.node_induction with
    | node p ts ih =>
      have hbelow : walk visitor ts = RoseTree.walkAll visitor ts := by
        rw [hwalk, RoseTree.walkAll_eq_map]
        exact List.map_congr_left ih
      rw [RoseTree.walk, ← hbelow]
      rfl
  rw [hwalk]
  exact List.map_congr_left fun t _ => hone t

theorem edges_walk (h : t.Edges Marked) : (t.walk propagateHasChildSubreaper).Edges Marked := by
  apply h.walk
  · intro a b hstop hab
    have hsame : (propagateHasChildSubreaper a).1 = a := by
      rw [propagateHasChildSubreaper] at hstop ⊢
      split at hstop
      · next ha => rw [if_pos ha]
      · cases hstop
    rw [hsame]
    exact hab
  · intro a b _ _
    exact marked_propagate _ b

theorem edges_setChildSubreaper (hwalk : WalksDown walk) (arg2 : Bool) (h : t.Edges Marked) :
    (setChildSubreaper walk arg2 t).Edges Marked := by
  cases t with
  | node p ts =>
    obtain ⟨here, below⟩ := RoseTree.edges_node_iff.mp h
    rw [setChildSubreaper]
    cases arg2 with
    | false =>
      refine .node _ _ ?_ below
      intro c hc hp
      exact here c hc (hp.imp_right fun hfalse => absurd hfalse Bool.false_ne_true)
    | true =>
      rw [if_pos rfl, hwalk.eq_map_walk, RoseTree.edges_node_iff, List.forall_mem_map,
        List.forall_mem_map]
      constructor
      · intro c _
        rw [RoseTree.label_walk]
        exact marked_propagate _ _
      · intro c hc
        exact edges_walk (below c hc)

theorem marked_of_under {q : Proc} (h : s.Edges Marked) (hunder : Under s q)
    (hs : s.label.hasChildSubreaper = true ∨ s.label.isChildSubreaper = true) :
    q.hasChildSubreaper = true := by
  induction hunder with
  | child p hc hreaper =>
    have hmark := (RoseTree.edges_node_iff.mp h).1 _ hc hs
    exact hmark.resolve_right (by simp [hreaper])
  | deeper p hc hreaper _ ih =>
    obtain ⟨here, below⟩ := RoseTree.edges_node_iff.mp h
    have hmark := (here _ hc hs).resolve_right (by simp [hreaper])
    exact ih (below _ hc) (.inl hmark)

theorem Parentage.marked (h : t.Edges Marked) (hparentage : Parentage t p c) : Marked p c := by
  have hedges := RoseTree.edges_iff_forall.mp h
  intro hp
  cases hparentage with
  | kept hedge => exact hedges p c hedge hp
  | born forker hplace hmark =>
    left
    rw [hmark, Bool.or_eq_true_iff]
    obtain rfl | ⟨hedge, hreaper⟩ := hplace
    · exact hp
    · exact .inl ((hedges p forker hedge hp).resolve_right (by simp [hreaper]))
  | adopted s hs hparent hchild =>
    apply hchild.imp_left
    intro hunder
    rw [← hparent] at hp
    exact marked_of_under (h.of_subtree hs) hunder hp

theorem edges_step (hwalk : WalksDown walk) (henv : Environment env) (h : t.Edges Marked)
    (hstep : Step walk env t t') : t'.Edges Marked := by
  cases hstep with
  | call pid arg2 =>
    exact (h.replace (fun s _ hs => edges_setChildSubreaper hwalk arg2 hs) fun s a _ ha => ha).1
  | other hother =>
    rw [RoseTree.edges_iff_forall]
    intro p c hedge
    exact (henv t t' hother p c hedge).marked h

theorem edges_run (hwalk : WalksDown walk) (henv : Environment env) (hrun : Run walk env boot t) :
    t.Edges Marked := by
  have hboot : boot.Edges Marked := .node _ _ (by simp) (by simp)
  apply run_invariant _ hboot hrun
  intro s s' h hstep
  exact edges_step hwalk henv h hstep

end Marks

section Results

variable {walk : Walk} {env : Processes → Processes → Prop} {t : Processes}

/-- In every tree that the system can reach, whatever processes have become subreapers, have given it
up, forked and ended in which order: each process below a subreaper of its namespace has the mark,
and so has each process below one that is marked, which is why the walk may leave those out. -/
theorem subreapers_are_known (hwalk : WalksDown walk) (henv : Environment env)
    (hrun : Run walk env boot t) :
    (∀ s q, s.Subtree t → s.label.isChildSubreaper = true → Under s q →
      q.hasChildSubreaper = true) ∧
    ∀ s q, s.Subtree t → s.label.hasChildSubreaper = true → Under s q →
      q.hasChildSubreaper = true := by
  have h := edges_run hwalk henv hrun
  constructor
  · intro s q hsub hs hunder
    exact marked_of_under (h.of_subtree hsub) hunder (.inr hs)
  · intro s q hsub hs hunder
    exact marked_of_under (h.of_subtree hsub) hunder (.inl hs)

/-- A walk as it is assumed. -/
theorem walksDown_walkAll : WalksDown RoseTree.walkAll := by
  intro visitor ts
  rw [RoseTree.walkAll_eq_map]
  apply List.map_congr_left
  intro t _
  cases t with
  | node p ts => rfl

def bear (child : ℕ) (newNamespace : Bool) (t : Processes) : Processes :=
  .node t.label (.node ⟨child, false, t.label.hasChildSubreaper || t.label.isChildSubreaper,
    newNamespace⟩ [] :: t.children)

theorem label_bear (child : ℕ) (newNamespace : Bool) (t : Processes) :
    (bear child newNamespace t).label = t.label := rfl

inductive Births (t : Processes) : Processes → Prop
  | fork (pid child : ℕ) (newNamespace : Bool) :
    Births t (t.replace (hasPid pid) (bear child newNamespace))

theorem environment_births : Environment Births := by
  rintro t - ⟨pid, child, newNamespace⟩ p c hedge
  obtain hold | ⟨s, hs, hedge⟩ := RoseTree.isEdge_replace (label_bear _ _) hedge
  · exact .kept hold
  · cases s with
    | node q ts =>
      rcases RoseTree.isEdge_node_iff.mp hedge with ⟨rfl, d, hd, rfl⟩ | ⟨d, hd, hedge⟩
      · rcases List.mem_cons.mp hd with rfl | hd
        · exact .born q (.inl rfl) rfl
        · exact .kept (RoseTree.IsEdge.of_subtree
            (RoseTree.isEdge_node_iff.mpr (.inl ⟨rfl, d, hd, rfl⟩)) hs)
      · rcases List.mem_cons.mp hd with rfl | hd
        · rcases RoseTree.isEdge_node_iff.mp hedge with ⟨-, e, he, -⟩ | ⟨e, he, -⟩ <;> cases he
        · exact .kept (RoseTree.IsEdge.of_subtree
            (RoseTree.isEdge_node_iff.mpr (.inr ⟨d, hd, hedge⟩)) hs)

/-- The first process has a child and a grandchild, then the child becomes a subreaper, and then the
grandchild has a child. -/
def family : Processes :=
  .node ⟨1, false, false, true⟩ [.node ⟨2, true, false, false⟩
    [.node ⟨3, false, true, false⟩ [.node ⟨4, false, true, false⟩ []]]]

theorem subreapers_are_known_family :
    Run RoseTree.walkAll Births boot family ∧ ∀ s q, s.Subtree family →
      s.label.isChildSubreaper = true → Under s q → q.hasChildSubreaper = true := by
  have hrun : Run RoseTree.walkAll Births boot family := by
    have hchild : Run RoseTree.walkAll Births boot _ := .single (.other (.fork 1 2 false))
    have hgrandchild := hchild.tail (.other (.fork 2 3 false))
    have hcall := hgrandchild.tail (.call 2 true)
    exact hcall.tail (.other (.fork 3 4 false))
  exact ⟨hrun, (subreapers_are_known walksDown_walkAll environment_births hrun).1⟩

end Results

end EmbeddedSoftware.Subreapers
