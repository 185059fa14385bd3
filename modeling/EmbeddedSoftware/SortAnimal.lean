import EmbeddedSoftware.CStrings
import EmbeddedSoftware.ExchangeSort
import Mathlib.Algebra.BigOperators.Group.List.Basic
import Mathlib.Algebra.Ring.Nat
import Mathlib.Data.List.Nodup

/-!
# The module sortanimal

Loading the module sorts the array of animal names in place, counts the names into a list,
one node for each name in the order of the array, and copies the nodes that pass the filter
to a second list.
-/

namespace EmbeddedSoftware.SortAnimal

open CStrings ExchangeSort

def max : ℕ := 50

structure AnimalArray where
  strings : List CString
  length_strings : strings.length = max

/-- `struct node_t`, whose place in its list is the order of the nodes. -/
structure Node where
  animalType : CString
  count : ℕ
  deriving DecidableEq

/-- The variables of the module that loading it sets. -/
structure Module where
  animalArray : List CString
  listnodeanimals : List Node
  listnodeanimalsFilter : List Node
  nodecounter : ℕ
  filterednodecounter : ℕ

def comesAfter (s t : CString) : Bool := strcmp s.bytes t.bytes > 0

/-- The search for a name, which counts it in the first node that has it. Without such a node
`found` stays 0. -/
def countUp (s : CString) : List Node → Option (List Node)
  | [] => none
  | node :: rest =>
    if strcmp s.bytes node.animalType.bytes = 0 then
      some ({ node with count := node.count + 1 } :: rest)
    else (countUp s rest).map (node :: ·)

/-- One round of the loop that builds the first list. -/
def addAnimal (m : Module) (s : CString) : Module :=
  match countUp s m.listnodeanimals with
  | some nodes => { m with listnodeanimals := nodes }
  | none => { m with
      listnodeanimals := m.listnodeanimals ++ [⟨s, 1⟩]
      nodecounter := m.nodecounter + 1 }

def addFiltered (m : Module) (node : Node) : Module :=
  { m with
    listnodeanimalsFilter := m.listnodeanimalsFilter ++ [⟨node.animalType, node.count⟩]
    filterednodecounter := m.filterednodecounter + 1 }

/-- One round of the loop that builds the second list. -/
def filterAnimal (filteranimal : CString) (filtercount : ℤ) (m : Module) (node : Node) : Module :=
  if strcmp filteranimal.bytes (ascii "none") = 0 then
    if node.count > filtercount then addFiltered m node else m
  else if strcmp node.animalType.bytes filteranimal.bytes = 0 ∧ node.count > filtercount then
    addFiltered m node
  else m

/-- `linkedlist_create` with both counters at 0 and memory for every node. -/
def linkedlistCreate (filteranimal : CString) (filtercount : ℤ) (a : AnimalArray) :
    Option Module :=
  (exchangeSort comesAfter max a.strings).map fun sorted =>
    let built := sorted.foldl addAnimal ⟨sorted, [], [], 0, 0⟩
    built.listnodeanimals.foldl (filterAnimal filteranimal filtercount) built

section Build

variable {s : CString} {nodes nodes' : List Node} {m : Module} {seen : List CString}

theorem strcmp_eq_zero {s t : CString} : strcmp s.bytes t.bytes = 0 ↔ s = t := by
  rw [strcmp_eq_zero_iff]
  constructor
  · intro h
    cases s
    cases t
    simpa using h
  · intro h
    rw [h]

theorem countUp_eq_none (h : countUp s nodes = none) : ∀ node ∈ nodes, node.animalType ≠ s := by
  induction nodes with
  | nil => simp
  | cons node rest ih =>
    rw [countUp] at h
    split at h
    · cases h
    · next hne =>
      intro node' hnode'
      rcases List.mem_cons.mp hnode' with rfl | hrest
      · exact fun heq => hne (strcmp_eq_zero.mpr heq.symm)
      · exact ih (Option.map_eq_none_iff.mp h) node' hrest

/-- A successful search changes one node, which has the name. -/
theorem countUp_eq_some (h : countUp s nodes = some nodes') : ∃ front n rest,
    nodes = front ++ ⟨s, n⟩ :: rest ∧ nodes' = front ++ ⟨s, n + 1⟩ :: rest := by
  induction nodes generalizing nodes' with
  | nil => cases h
  | cons node rest ih =>
    rw [countUp] at h
    split at h
    · next heq =>
      cases h
      obtain ⟨name, n⟩ := node
      rw [strcmp_eq_zero] at heq
      subst heq
      exact ⟨[], n, rest, rfl, rfl⟩
    · obtain ⟨rest', hrest, rfl⟩ := Option.map_eq_some_iff.mp h
      obtain ⟨front, n, rest₂, rfl, rfl⟩ := ih hrest
      exact ⟨node :: front, n, rest₂, rfl, rfl⟩

theorem countUp_of_forall_ne (h : ∀ node ∈ nodes, node.animalType ≠ s) :
    countUp s nodes = none := by
  induction nodes with
  | nil => rfl
  | cons node rest ih =>
    have hne : ¬strcmp s.bytes node.animalType.bytes = 0 :=
      fun heq => h node List.mem_cons_self (strcmp_eq_zero.mp heq).symm
    rw [countUp, if_neg hne, ih fun x hx => h x (List.mem_cons_of_mem node hx)]
    rfl

theorem countUp_append {front rest : List Node} (h : ∀ node ∈ front, node.animalType ≠ s)
    (n : ℕ) : countUp s (front ++ ⟨s, n⟩ :: rest) = some (front ++ ⟨s, n + 1⟩ :: rest) := by
  induction front with
  | nil => rw [List.nil_append, countUp, if_pos (strcmp_eq_zero.mpr rfl), List.nil_append]
  | cons node front ih =>
    have hne : ¬strcmp s.bytes node.animalType.bytes = 0 :=
      fun heq => h node List.mem_cons_self (strcmp_eq_zero.mp heq).symm
    rw [List.cons_append, countUp, if_neg hne, ih fun x hx => h x (List.mem_cons_of_mem node hx)]
    rfl

/-- The first list after the names `seen` of a sorted array. -/
structure Tally (seen : List CString) (nodes : List Node) : Prop where
  mem_iff : ∀ s, s ∈ nodes.map Node.animalType ↔ s ∈ seen
  ascending : (nodes.map Node.animalType).Pairwise fun s t => codes s.bytes < codes t.bytes
  count_eq : ∀ node ∈ nodes, node.count = seen.count node.animalType
  sum_count : (nodes.map Node.count).sum = seen.length

theorem tally_nil : Tally [] [] := ⟨by simp, List.Pairwise.nil, by simp, rfl⟩

theorem Tally.nodup (h : Tally seen nodes) : (nodes.map Node.animalType).Nodup := by
  apply List.Pairwise.imp _ h.ascending
  intro s t hlt heq
  rw [heq] at hlt
  exact lt_irrefl _ hlt

theorem Tally.countUp (h : Tally seen nodes) (hfound : countUp s nodes = some nodes') :
    Tally (seen ++ [s]) nodes' := by
  obtain ⟨front, n, rest, rfl, rfl⟩ := countUp_eq_some hfound
  have hnames : (front ++ (⟨s, n + 1⟩ : Node) :: rest).map Node.animalType =
      (front ++ (⟨s, n⟩ : Node) :: rest).map Node.animalType := by simp
  have hs : s ∈ seen := (h.mem_iff s).mp (by simp)
  refine ⟨?_, ?_, ?_, ?_⟩
  · intro t
    rw [hnames, h.mem_iff t, List.mem_append, List.mem_singleton]
    constructor
    · exact Or.inl
    · rintro (ht | rfl)
      · exact ht
      · exact hs
  · rw [hnames]
    exact h.ascending
  · intro node hnode
    have hother : ∀ node ∈ front ++ rest, node.animalType ≠ s := by
      have hnodup := h.nodup
      rw [List.map_append, List.map_cons, List.perm_middle.nodup_iff] at hnodup
      intro node hnode heq
      apply (List.nodup_cons.mp hnodup).1
      rw [← List.map_append]
      exact List.mem_map.mpr ⟨node, hnode, heq⟩
    have hcount := h.count_eq
    simp only [List.mem_append, List.mem_cons] at hnode hother hcount
    rw [List.count_append]
    rcases hnode with hfront | rfl | hrest
    · rw [hcount node (Or.inl hfront)]
      simp [(hother node (Or.inl hfront)).symm]
    · have := hcount ⟨s, n⟩ (Or.inr (Or.inl rfl))
      simp only at this
      simp [this]
    · rw [hcount node (Or.inr (Or.inr hrest))]
      simp [(hother node (Or.inr hrest)).symm]
  · have hsum := h.sum_count
    simp only [List.map_append, List.map_cons, List.sum_append, List.sum_cons] at hsum ⊢
    rw [List.length_append, List.length_singleton]
    omega

/-- A new name comes behind the others, as the array is sorted. -/
theorem Tally.append (h : Tally seen nodes) (hnew : ∀ node ∈ nodes, node.animalType ≠ s)
    (hle : ∀ t ∈ seen, codes t.bytes ≤ codes s.bytes) :
    Tally (seen ++ [s]) (nodes ++ [⟨s, 1⟩]) := by
  have hs : s ∉ seen := by
    intro hs
    obtain ⟨node, hnode, heq⟩ := List.mem_map.mp ((h.mem_iff s).mpr hs)
    exact hnew node hnode heq
  refine ⟨?_, ?_, ?_, ?_⟩
  · intro t
    rw [List.map_append, List.mem_append, List.mem_append, h.mem_iff t]
    rfl
  · rw [List.map_append]
    apply List.pairwise_append.mpr
    refine ⟨h.ascending, List.pairwise_singleton _ _, ?_⟩
    intro t ht u hu
    rw [List.mem_singleton.mp hu]
    have htseen := (h.mem_iff t).mp ht
    apply lt_of_le_of_ne (hle t htseen)
    intro hcodes
    have heq : t = s := strcmp_eq_zero.mp (strcmp_eq_zero_iff.mpr (codes_injective hcodes))
    exact hs (heq ▸ htseen)
  · intro node hnode
    rw [List.count_append]
    rcases List.mem_append.mp hnode with hnode | hnode
    · rw [h.count_eq node hnode]
      simp [(hnew node hnode).symm]
    · rw [List.mem_singleton.mp hnode]
      simp [List.count_eq_zero_of_not_mem hs]
  · rw [List.map_append, List.sum_append, h.sum_count, List.length_append]
    rfl

structure Building (array seen : List CString) (m : Module) : Prop where
  array_eq : m.animalArray = array
  tally : Tally seen m.listnodeanimals
  nodecounter_eq : m.nodecounter = m.listnodeanimals.length
  filter_eq : m.listnodeanimalsFilter = []
  filterednodecounter_eq : m.filterednodecounter = 0

theorem Building.addAnimal {array : List CString} (h : Building array seen m)
    (hle : ∀ t ∈ seen, codes t.bytes ≤ codes s.bytes) :
    Building array (seen ++ [s]) (addAnimal m s) := by
  rw [SortAnimal.addAnimal]
  split
  · next nodes hfound =>
    obtain ⟨front, n, rest, hnodes, hnodes'⟩ := countUp_eq_some hfound
    refine ⟨h.array_eq, h.tally.countUp hfound, ?_, h.filter_eq, h.filterednodecounter_eq⟩
    change m.nodecounter = nodes.length
    rw [h.nodecounter_eq, hnodes, hnodes']
    simp
  · next hfound =>
    refine ⟨h.array_eq, h.tally.append (countUp_eq_none hfound) hle, ?_, h.filter_eq,
      h.filterednodecounter_eq⟩
    change m.nodecounter + 1 = (m.listnodeanimals ++ [(⟨s, 1⟩ : Node)]).length
    rw [h.nodecounter_eq, List.length_append, List.length_singleton]

theorem Building.foldl {array rest : List CString} (h : Building array seen m)
    (hsorted : (seen ++ rest).Pairwise fun s t => codes s.bytes ≤ codes t.bytes) :
    Building array (seen ++ rest) (rest.foldl SortAnimal.addAnimal m) := by
  induction rest generalizing seen m with
  | nil => simpa using h
  | cons s rest ih =>
    have hle : ∀ t ∈ seen, codes t.bytes ≤ codes s.bytes :=
      fun t ht => (List.pairwise_append.mp hsorted).2.2 t ht s List.mem_cons_self
    rw [List.append_cons] at hsorted ⊢
    exact ih (h.addAnimal hle) hsorted

end Build

section Filter

variable (filteranimal : CString) (filtercount : ℤ)

theorem filterAnimal_nodes (m : Module) (node : Node) :
    (filterAnimal filteranimal filtercount m node).listnodeanimals = m.listnodeanimals ∧
    (filterAnimal filteranimal filtercount m node).nodecounter = m.nodecounter := by
  simp only [filterAnimal, addFiltered]
  split
  · split <;> exact ⟨rfl, rfl⟩
  · split <;> exact ⟨rfl, rfl⟩

theorem foldl_filterAnimal_nodes (nodes : List Node) (m : Module) :
    (nodes.foldl (filterAnimal filteranimal filtercount) m).listnodeanimals = m.listnodeanimals ∧
    (nodes.foldl (filterAnimal filteranimal filtercount) m).nodecounter = m.nodecounter := by
  induction nodes generalizing m with
  | nil => exact ⟨rfl, rfl⟩
  | cons node nodes ih =>
    rw [List.foldl_cons, (ih _).1, (ih _).2]
    exact filterAnimal_nodes filteranimal filtercount m node

def passes (node : Node) : Bool :=
  node.count > filtercount ∧ (filteranimal.bytes = ascii "none" ∨ node.animalType = filteranimal)

theorem filterAnimal_eq (m : Module) (node : Node) :
    filterAnimal filteranimal filtercount m node =
      if passes filteranimal filtercount node then addFiltered m node else m := by
  rw [filterAnimal]
  by_cases hnone : filteranimal.bytes = ascii "none"
  · simp [passes, strcmp_eq_zero_iff, hnone]
  · simp [passes, strcmp_eq_zero_iff.not.mpr hnone, strcmp_eq_zero, hnone, and_comm]

/-- The second list is the part of the first one that passes, in its order. -/
theorem foldl_filterAnimal (nodes : List Node) (m : Module) :
    (nodes.foldl (filterAnimal filteranimal filtercount) m).listnodeanimalsFilter =
      m.listnodeanimalsFilter ++ nodes.filter (passes filteranimal filtercount) ∧
    (nodes.foldl (filterAnimal filteranimal filtercount) m).filterednodecounter =
      m.filterednodecounter + (nodes.filter (passes filteranimal filtercount)).length := by
  induction nodes generalizing m with
  | nil => simp
  | cons node nodes ih =>
    rw [List.foldl_cons, (ih _).1, (ih _).2, filterAnimal_eq, List.filter_cons]
    split
    · refine ⟨List.append_assoc _ _ _, ?_⟩
      simp only [List.length_cons, addFiltered]
      omega
    · exact ⟨rfl, rfl⟩

end Filter

theorem comesAfter_iff (s t : CString) : comesAfter s t = true ↔ codes t.bytes < codes s.bytes := by
  rw [comesAfter, decide_eq_true_iff]
  exact strcmp_pos_iff

/-- The sort comes to an end, and the first list is then a tally of the sorted array. -/
theorem exists_building (a : AnimalArray) : ∃ sorted,
    exchangeSort comesAfter max a.strings = some sorted ∧ sorted.Perm a.strings ∧
    Building sorted sorted (sorted.foldl addAnimal ⟨sorted, [], [], 0, 0⟩) := by
  obtain ⟨sorted, hsort, hperm, hsorted⟩ := exists_exchangeSort
    (fun s : CString => codes s.bytes) comesAfter_iff a.strings
  rw [a.length_strings] at hsort
  have hstart : Building sorted [] ⟨sorted, [], [], 0, 0⟩ := ⟨rfl, tally_nil, rfl, rfl, rfl⟩
  exact ⟨sorted, hsort, hperm, hstart.foldl hsorted⟩

theorem exists_linkedlistCreate (filteranimal : CString) (filtercount : ℤ) (a : AnimalArray) :
    ∃ m sorted, linkedlistCreate filteranimal filtercount a = some m ∧ sorted.Perm a.strings ∧
      Tally sorted m.listnodeanimals ∧ m.nodecounter = m.listnodeanimals.length := by
  obtain ⟨sorted, hsort, hperm, hbuild⟩ := exists_building a
  have hfilter := foldl_filterAnimal_nodes filteranimal filtercount
    (sorted.foldl addAnimal ⟨sorted, [], [], 0, 0⟩).listnodeanimals
    (sorted.foldl addAnimal ⟨sorted, [], [], 0, 0⟩)
  refine ⟨_, sorted, by rw [linkedlistCreate, hsort]; rfl, hperm, ?_, ?_⟩
  · rw [hfilter.1]
    exact hbuild.tally
  · rw [hfilter.1, hfilter.2]
    exact hbuild.nodecounter_eq

/-- The first list has a node for each name of the array and for no other, in the order of `strcmp`,
and each node counts the occurrences of its name. -/
theorem linkedlistCreate_counts (filteranimal : CString) (filtercount : ℤ) (a : AnimalArray) :
    ∃ m, linkedlistCreate filteranimal filtercount a = some m ∧
      (∀ s ∈ a.strings, (m.listnodeanimals.map Node.animalType).count s = 1) ∧
      (∀ node ∈ m.listnodeanimals, node.animalType ∈ a.strings) ∧
      m.listnodeanimals.Pairwise
        (fun x y => strcmp x.animalType.bytes y.animalType.bytes < 0) ∧
      (∀ node ∈ m.listnodeanimals, node.count = a.strings.count node.animalType) ∧
      (m.listnodeanimals.map Node.count).sum = max ∧
      m.nodecounter = m.listnodeanimals.length := by
  obtain ⟨m, sorted, hcreate, hperm, htally, hcounter⟩ :=
    exists_linkedlistCreate filteranimal filtercount a
  refine ⟨m, hcreate, ?_, ?_, ?_, ?_, ?_, hcounter⟩
  · intro s hs
    apply List.count_eq_one_of_mem htally.nodup
    exact (htally.mem_iff s).mpr (hperm.mem_iff.mpr hs)
  · intro node hnode
    exact hperm.mem_iff.mp ((htally.mem_iff _).mp (List.mem_map_of_mem hnode))
  · exact (List.pairwise_map.mp htally.ascending).imp strcmp_neg_iff.mpr
  · intro node hnode
    rw [htally.count_eq node hnode, hperm.count_eq]
  · rw [htally.sum_count, hperm.length_eq, a.length_strings]

theorem Tally.length_filter_le_one {seen : List CString} {nodes : List Node} (h : Tally seen nodes)
    {filteranimal : CString} (hname : filteranimal.bytes ≠ ascii "none") (filtercount : ℤ) :
    (nodes.filter (passes filteranimal filtercount)).length ≤ 1 := by
  have hsame : ∀ s ∈ (nodes.filter (passes filteranimal filtercount)).map Node.animalType,
      s = filteranimal := by
    intro s hs
    obtain ⟨node, hnode, rfl⟩ := List.mem_map.mp hs
    have hpass := (List.mem_filter.mp hnode).2
    simp only [passes, hname, false_or, decide_eq_true_eq] at hpass
    exact hpass.2
  have hnodup : ((nodes.filter (passes filteranimal filtercount)).map Node.animalType).Nodup :=
    h.nodup.sublist (List.filter_sublist.map _)
  rw [← List.length_map (f := Node.animalType)]
  rw [List.eq_replicate_of_mem hsame] at hnodup ⊢
  rw [List.length_replicate]
  exact List.nodup_replicate.mp hnodup

/-- The second list has the nodes of the first one with more than `filtercount` occurrences and, if
a name is asked for, with that name, so at most one. The filter leaves the first list alone. -/
theorem linkedlistCreate_filters (filteranimal : CString) (filtercount : ℤ) (a : AnimalArray) :
    ∃ sorted m, exchangeSort comesAfter max a.strings = some sorted ∧
      linkedlistCreate filteranimal filtercount a = some m ∧
      m.listnodeanimals = (sorted.foldl addAnimal ⟨sorted, [], [], 0, 0⟩).listnodeanimals ∧
      m.listnodeanimalsFilter = m.listnodeanimals.filter (fun node =>
        node.count > filtercount ∧
          (filteranimal.bytes = ascii "none" ∨ node.animalType = filteranimal)) ∧
      m.filterednodecounter = m.listnodeanimalsFilter.length ∧
      (filteranimal.bytes ≠ ascii "none" → m.listnodeanimalsFilter.length ≤ 1) := by
  obtain ⟨sorted, hsort, -, hbuild⟩ := exists_building a
  have hnodes := foldl_filterAnimal_nodes filteranimal filtercount
    (sorted.foldl addAnimal ⟨sorted, [], [], 0, 0⟩).listnodeanimals
    (sorted.foldl addAnimal ⟨sorted, [], [], 0, 0⟩)
  have hfilter := foldl_filterAnimal filteranimal filtercount
    (sorted.foldl addAnimal ⟨sorted, [], [], 0, 0⟩).listnodeanimals
    (sorted.foldl addAnimal ⟨sorted, [], [], 0, 0⟩)
  rw [hbuild.filter_eq, hbuild.filterednodecounter_eq, List.nil_append, Nat.zero_add] at hfilter
  refine ⟨sorted, _, hsort, by rw [linkedlistCreate, hsort]; rfl, hnodes.1, ?_, ?_, ?_⟩
  · rw [hnodes.1, hfilter.1]
    rfl
  · rw [hfilter.1, hfilter.2]
  · intro hname
    rw [hfilter.1]
    exact hbuild.tally.length_filter_le_one hname filtercount

end EmbeddedSoftware.SortAnimal
