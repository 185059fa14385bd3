import EmbeddedSoftware.LinkedRings
import EmbeddedSoftware.SortAnimal

/-!
# The nodes of sortanimal in memory

The two lists of the module are rings of `struct node_t`. Their heads are static, the other
nodes come from `kmalloc`. Loading the module builds the rings, unloading it gives the nodes
back one after the other.
-/

namespace EmbeddedSoftware.SortAnimal

open CStrings ExchangeSort LinkedRings

inductive Ptr where
  | listnodeanimals
  | listnodeanimalsFilter
  | heap (a : ℕ)
  deriving DecidableEq

/-- The addresses that `kmalloc` returns, call by call, and what lies at an address before
anything is stored there. -/
structure Allocator where
  addr : ℕ → ℕ
  injective : Function.Injective addr
  content : Ptr → Cell Ptr Node

def Allocator.ptr (al : Allocator) (n : ℕ) : Ptr := .heap (al.addr n)

/-- The memory and the counters of the module, and how often `kmalloc` was called. -/
structure Kernel where
  memory : Memory Ptr Node
  calls : ℕ
  nodecounter : ℕ
  filterednodecounter : ℕ

namespace Kernel

/-- `list_for_each_entry` over the list of a head. There are no more nodes than calls. -/
def forEachEntry (k : Kernel) (head : Ptr)
    (body : Kernel → Ptr → Except (Fault Ptr) (Kernel × Bool)) :
    Except (Fault Ptr) (Kernel × Bool) := do
  let c ← read k.memory head
  forEach memory body head (k.calls + 1) k c.next

/-- `kmalloc`, the assignments to the new node and `list_add_tail`. -/
def addNode (al : Allocator) (k : Kernel) (head : Ptr) (node : Node) :
    Except (Fault Ptr) Kernel := do
  let new := al.ptr k.calls
  let memory := Function.update k.memory new (some (al.content new))
  let memory ← modify memory new fun c => { c with val := node }
  let memory ← addTail memory new head
  return { k with memory := memory, calls := k.calls + 1 }

def searchAnimal (s : CString) (k : Kernel) (p : Ptr) : Except (Fault Ptr) (Kernel × Bool) := do
  let c ← read k.memory p
  if strcmp s.bytes c.val.animalType.bytes = 0 then
    let memory ← modify k.memory p fun c =>
      { c with val := { c.val with count := c.val.count + 1 } }
    return ({ k with memory := memory }, true)
  else return (k, false)

/-- One round of the loop that builds the first list. -/
def addAnimal (al : Allocator) (k : Kernel) (s : CString) : Except (Fault Ptr) Kernel := do
  let (k, found) ← k.forEachEntry .listnodeanimals (searchAnimal s)
  if found then return k
  else
    let k ← k.addNode al .listnodeanimals ⟨s, 1⟩
    return { k with nodecounter := k.nodecounter + 1 }

def addFiltered (al : Allocator) (k : Kernel) (node : Node) :
    Except (Fault Ptr) (Kernel × Bool) := do
  let k ← k.addNode al .listnodeanimalsFilter ⟨node.animalType, node.count⟩
  return ({ k with filterednodecounter := k.filterednodecounter + 1 }, false)

/-- One round of the loop that builds the second list. -/
def filterAnimal (al : Allocator) (filteranimal : CString) (filtercount : ℤ) (k : Kernel)
    (p : Ptr) : Except (Fault Ptr) (Kernel × Bool) := do
  let c ← read k.memory p
  if strcmp filteranimal.bytes (ascii "none") = 0 then
    if c.val.count > filtercount then k.addFiltered al c.val else return (k, false)
  else if strcmp c.val.animalType.bytes filteranimal.bytes = 0 ∧ c.val.count > filtercount then
    k.addFiltered al c.val
  else return (k, false)

def initial (al : Allocator) : Kernel where
  memory := fun p =>
    match p with
    | .heap _ => none
    | p => some (al.content p)
  calls := 0
  nodecounter := 0
  filterednodecounter := 0

def initHeads (k : Kernel) : Except (Fault Ptr) Kernel := do
  let memory ← initHead k.memory .listnodeanimals
  let memory ← initHead memory .listnodeanimalsFilter
  return { k with memory := memory }

/-- `linkedlist_create`. There is no result when the sort leaves the array. -/
def linkedlistCreate (al : Allocator) (filteranimal : CString) (filtercount : ℤ)
    (a : AnimalArray) : Option (Except (Fault Ptr) Kernel) :=
  (exchangeSort comesAfter max a.strings).map fun sorted => do
    let k ← (initial al).initHeads
    let k ← sorted.foldlM (addAnimal al) k
    let (k, _) ← k.forEachEntry .listnodeanimals (filterAnimal al filteranimal filtercount)
    return k

/-- The body of both loops of `linkedlist_exit`. -/
def kfree (k : Kernel) (p : Ptr) : Except (Fault Ptr) (Kernel × Bool) := do
  let memory ← remove k.memory p
  return ({ k with memory := memory }, false)

/-- `linkedlist_exit`. `list_for_each` looks up the next node behind its body. -/
def linkedlistExit (k : Kernel) : Except (Fault Ptr) Kernel := do
  let (k, _) ← k.forEachEntry .listnodeanimals kfree
  let (k, _) ← k.forEachEntry .listnodeanimalsFilter kfree
  return k

end Kernel

/-- The rings of the memory are the lists of the module. The nodes `as` of the first one and
`bs` of the second one are all that is allocated. -/
structure Represents (al : Allocator) (k : Kernel) (m : Module) (as bs : List Ptr) : Prop where
  allocated : as ++ bs = (List.range k.calls).map al.ptr
  ring : RingAt k.memory .listnodeanimals as
  ringFilter : RingAt k.memory .listnodeanimalsFilter bs
  nodes : as.map (valOf k.memory) = m.listnodeanimals.map some
  nodesFilter : bs.map (valOf k.memory) = m.listnodeanimalsFilter.map some
  domain : ∀ a, (k.memory (.heap a)).isSome ↔ .heap a ∈ as ++ bs
  nodecounter : k.nodecounter = m.nodecounter
  filterednodecounter : k.filterednodecounter = m.filterednodecounter

section Memory

variable {al : Allocator} {k k' : Kernel} {m : Module} {as bs : List Ptr} {head p : Ptr}

theorem Allocator.ptr_injective (al : Allocator) : Function.Injective al.ptr := by
  intro i j h
  exact al.injective (Ptr.heap.inj h)

theorem Allocator.ptr_notMem_cons (al : Allocator) {n : ℕ} {l : List Ptr}
    (hhead : ∀ a, head ≠ .heap a) (hl : al.ptr n ∉ l) : al.ptr n ∉ head :: l := by
  intro hmem
  rcases List.mem_cons.mp hmem with he | hmem
  · exact hhead _ he.symm
  · exact hl hmem

namespace Represents

theorem nodup (h : Represents al k m as bs) : (as ++ bs).Nodup := by
  rw [h.allocated]
  exact List.nodup_range.map al.ptr_injective

theorem exists_of_mem (h : Represents al k m as bs) (hp : p ∈ as ++ bs) :
    ∃ n < k.calls, p = al.ptr n := by
  rw [h.allocated] at hp
  obtain ⟨n, hn, rfl⟩ := List.mem_map.mp hp
  exact ⟨n, List.mem_range.mp hn, rfl⟩

theorem head_notMem (h : Represents al k m as bs) (hhead : ∀ a, head ≠ .heap a) :
    head ∉ as ++ bs := by
  intro hmem
  obtain ⟨n, -, rfl⟩ := h.exists_of_mem hmem
  exact hhead _ rfl

theorem head_notMem_first (h : Represents al k m as bs) : Ptr.listnodeanimals ∉ as :=
  fun hmem => h.head_notMem (fun _ => Ptr.noConfusion) (List.mem_append_left bs hmem)

theorem fresh (h : Represents al k m as bs) : al.ptr k.calls ∉ as ++ bs := by
  intro hmem
  obtain ⟨n, hn, heq⟩ := h.exists_of_mem hmem
  exact (Nat.ne_of_gt hn) (al.ptr_injective heq)

theorem length_le (h : Represents al k m as bs) : as.length ≤ k.calls ∧ bs.length ≤ k.calls := by
  have hlength := congrArg List.length h.allocated
  rw [List.length_append, List.length_map, List.length_range] at hlength
  omega

end Represents

/-- A new node at the end of a ring. -/
theorem Kernel.exists_addNode {nodes : List Ptr} (node : Node) (hr : RingAt k.memory head nodes)
    (hnodup : (head :: nodes).Nodup) (hnew : al.ptr k.calls ∉ head :: nodes) :
    ∃ k', k.addNode al head node = .ok k' ∧
    k'.calls = k.calls + 1 ∧ k'.nodecounter = k.nodecounter ∧
    k'.filterednodecounter = k.filterednodecounter ∧
    RingAt k'.memory head (nodes ++ [al.ptr k.calls]) ∧
    valOf k'.memory = Function.update (valOf k.memory) (al.ptr k.calls) (some node) ∧
    ∀ y, y ∉ head :: nodes → y ≠ al.ptr k.calls → k'.memory y = k.memory y := by
  obtain ⟨memory, hmemory⟩ : ∃ memory : LinkedRings.Memory Ptr Node, memory =
    Function.update k.memory (al.ptr k.calls)
      (some { al.content (al.ptr k.calls) with val := node }) := ⟨_, rfl⟩
  have hsame : ∀ y ≠ al.ptr k.calls, memory y = k.memory y := by
    intro y hy
    rw [hmemory, Function.update_of_ne hy]
  have hring : RingAt memory head nodes := by
    apply hr.congr
    intro y hy
    have hne : y ≠ al.ptr k.calls := fun he => hnew (he ▸ hy)
    rw [nextOf, nextOf, prevOf, prevOf, hsame y hne]
    exact ⟨rfl, rfl⟩
  obtain ⟨memory', hadd, hring', hval, hframe⟩ :=
    hring.addTail hnodup hnew (by rw [hmemory, Function.update_self]; rfl)
  refine ⟨{ k with memory := memory', calls := k.calls + 1 }, ?_, rfl, rfl, rfl, hring', ?_, ?_⟩
  · rw [Kernel.addNode]
    rw [modify_of_some (Function.update_self _ _ _), Function.update_idem, ← hmemory]
    simp only [bind, Except.bind, hadd]
    rfl
  · funext y
    rw [hval]
    by_cases hy : y = al.ptr k.calls
    · rw [hy, Function.update_self, valOf, hmemory, Function.update_self]
      rfl
    · rw [Function.update_of_ne hy, valOf, hsame y hy, valOf]
  · intro y hy hyn
    exact (hframe y hy hyn).trans (hsame y hyn)

theorem map_update_of_notMem {β : Type*} {f : Ptr → β} {l : List Ptr} (hp : p ∉ l) (v : β) :
    l.map (Function.update f p v) = l.map f := by
  apply List.map_congr_left
  intro q hq
  have hne : q ≠ p := fun he => hp (he ▸ hq)
  exact Function.update_of_ne hne v f

theorem RingAt.of_frame {nodes others : List Ptr} {other : Ptr} (hr : RingAt k.memory other others)
    (hframe : ∀ y, y ∉ head :: nodes → y ≠ al.ptr k.calls → k'.memory y = k.memory y)
    (hdisjoint : ∀ y ∈ other :: others, y ∉ head :: nodes ∧ y ≠ al.ptr k.calls) :
    RingAt k'.memory other others := by
  apply hr.congr
  intro y hy
  rw [nextOf, nextOf, prevOf, prevOf, hframe y (hdisjoint y hy).1 (hdisjoint y hy).2]
  exact ⟨rfl, rfl⟩

theorem isSome_iff_of_valOf {node : Node}
    (hval : valOf k'.memory = Function.update (valOf k.memory) (al.ptr k.calls) (some node))
    (y : Ptr) : (k'.memory y).isSome ↔ (k.memory y).isSome ∨ y = al.ptr k.calls := by
  rw [← isSome_valOf, hval, ← isSome_valOf k.memory]
  by_cases hnew : y = al.ptr k.calls
  · simp [hnew]
  · simp [hnew]

theorem Represents.addNode (h : Represents al k m as []) (node : Node) :
    ∃ k', k.addNode al .listnodeanimals node = .ok k' ∧
      Represents al { k' with nodecounter := k'.nodecounter + 1 }
        { m with
          listnodeanimals := m.listnodeanimals ++ [node]
          nodecounter := m.nodecounter + 1 } (as ++ [al.ptr k.calls]) [] := by
  have hnew := h.fresh
  have hhead : .listnodeanimals ∉ as ++ [] := h.head_notMem fun _ => Ptr.noConfusion
  have hnodup := h.nodup
  have hallocated := h.allocated
  have hdomain := h.domain
  rw [List.append_nil] at hhead hnew hnodup hallocated
  simp only [List.append_nil] at hdomain
  obtain ⟨k', hadd, hcalls, hcounter, hfiltered, hring, hval, hframe⟩ :=
    Kernel.exists_addNode node h.ring (List.nodup_cons.mpr ⟨hhead, hnodup⟩)
      (al.ptr_notMem_cons (fun _ => Ptr.noConfusion) hnew)
  refine ⟨k', hadd, ?_, hring, ?_, ?_, ?_, ?_, ?_, ?_⟩
  · rw [List.append_nil, hcalls, List.range_succ, List.map_append, hallocated]
    rfl
  · apply RingAt.of_frame h.ringFilter hframe
    intro y hy
    rw [List.mem_singleton.mp hy]
    have hother : .listnodeanimalsFilter ∉ as ++ [] := h.head_notMem fun _ => Ptr.noConfusion
    rw [List.append_nil] at hother
    simp [hother, Allocator.ptr]
  · rw [List.map_append, List.map_append, hval, map_update_of_notMem hnew, h.nodes]
    simp
  · exact h.nodesFilter
  · intro a
    rw [isSome_iff_of_valOf hval, hdomain]
    simp
  · exact congrArg (· + 1) (hcounter.trans h.nodecounter)
  · exact hfiltered.trans h.filterednodecounter

theorem Represents.addFiltered (h : Represents al k m as bs) (node : Node) :
    ∃ k', k.addFiltered al node = .ok (k', false) ∧
      Represents al k' (SortAnimal.addFiltered m node) as (bs ++ [al.ptr k.calls]) := by
  have hnew := h.fresh
  rw [List.mem_append, not_or] at hnew
  have hheads : Ptr.listnodeanimals ∉ as ++ bs ∧ Ptr.listnodeanimalsFilter ∉ as ++ bs :=
    ⟨h.head_notMem fun _ => Ptr.noConfusion, h.head_notMem fun _ => Ptr.noConfusion⟩
  simp only [List.mem_append, not_or] at hheads
  obtain ⟨-, hnodup, hdisjoint⟩ := List.nodup_append.mp h.nodup
  obtain ⟨k', hadd, hcalls, hcounter, hfiltered, hring, hval, hframe⟩ :=
    Kernel.exists_addNode ⟨node.animalType, node.count⟩ h.ringFilter
      (List.nodup_cons.mpr ⟨hheads.2.2, hnodup⟩)
      (al.ptr_notMem_cons (fun _ => Ptr.noConfusion) hnew.2)
  refine ⟨{ k' with filterednodecounter := k'.filterednodecounter + 1 }, ?_, ?_, ?_, hring, ?_, ?_,
    ?_, ?_, ?_⟩
  · rw [Kernel.addFiltered, hadd]
    rfl
  · change as ++ (bs ++ [al.ptr k.calls]) = (List.range k'.calls).map al.ptr
    rw [hcalls, List.range_succ, List.map_append, ← h.allocated, List.append_assoc]
    rfl
  · apply RingAt.of_frame h.ring hframe
    intro y hy
    rcases List.mem_cons.mp hy with rfl | hy
    · simp [hheads.1.2, Allocator.ptr]
    · refine ⟨?_, fun he => hnew.1 (he ▸ hy)⟩
      intro hmem
      rcases List.mem_cons.mp hmem with rfl | hmem
      · exact hheads.2.1 hy
      · exact hdisjoint y hy y hmem rfl
  · change as.map (valOf k'.memory) = m.listnodeanimals.map some
    rw [hval, map_update_of_notMem hnew.1, h.nodes]
  · change (bs ++ [al.ptr k.calls]).map (valOf k'.memory) =
      (m.listnodeanimalsFilter ++ [(⟨node.animalType, node.count⟩ : Node)]).map some
    rw [List.map_append, List.map_append, hval, map_update_of_notMem hnew.2, h.nodesFilter]
    simp
  · intro a
    change (k'.memory (.heap a)).isSome ↔ _
    rw [isSome_iff_of_valOf hval, h.domain]
    simp [or_assoc]
  · exact hcounter.trans h.nodecounter
  · exact congrArg (· + 1) (hfiltered.trans h.filterednodecounter)

theorem exists_node_of_mem {memory : LinkedRings.Memory Ptr Node} {nodes : List Node}
    {done rest : List Ptr} (has : as = done ++ p :: rest)
    (hnodes : as.map (valOf memory) = nodes.map some) : ∃ c front back, memory p = some c ∧
    nodes = front ++ c.val :: back ∧ front.map some = done.map (valOf memory) ∧
    back.map some = rest.map (valOf memory) := by
  rw [has, List.map_append, List.map_cons] at hnodes
  obtain ⟨front, tail, hsplit, hfront, htail⟩ := List.map_eq_append_iff.mp hnodes.symm
  obtain ⟨node, back, rfl, hnode, hback⟩ := List.map_eq_cons_iff.mp htail
  obtain ⟨c, hc, rfl⟩ := Option.map_eq_some_iff.mp hnode.symm
  exact ⟨c, front, back, hc, hsplit, hfront, hback⟩

end Memory

section Loading

variable {al : Allocator} {k : Kernel} {m : Module} {as bs : List Ptr}

theorem Represents.forEachEntry_eq (h : Represents al k m as bs)
    (body : Kernel → Ptr → Except (Fault Ptr) (Kernel × Bool)) :
    k.forEachEntry .listnodeanimals body =
      forEach Kernel.memory body .listnodeanimals (k.calls + 1) k (as.headD .listnodeanimals) := by
  obtain ⟨c, hc, hnext⟩ := nextOf_eq_some h.ring.nextOf_head
  rw [Kernel.forEachEntry, read_of_some hc, ← hnext]
  rfl

theorem Represents.countUp (h : Represents al k m as bs) {done rest : List Ptr} {p : Ptr}
    {c : Cell Ptr Node} {front back : List Node} (has : as = done ++ p :: rest)
    (hc : k.memory p = some c)
    (hfront : front.map some = done.map (valOf k.memory))
    (hback : back.map some = rest.map (valOf k.memory)) : ∃ memory,
    modify k.memory p (fun c => { c with val := { c.val with count := c.val.count + 1 } }) =
      .ok memory ∧
    Represents al { k with memory := memory }
      { m with listnodeanimals := front ++ { c.val with count := c.val.count + 1 } :: back }
      as bs := by
  obtain ⟨memory, hmemory, hnext, hprev, hval⟩ :=
    exists_setVal hc fun node => { node with count := node.count + 1 }
  have hnodup := h.nodup
  rw [has, List.append_assoc, List.cons_append, List.nodup_middle, List.nodup_cons] at hnodup
  simp only [List.mem_append, not_or] at hnodup
  obtain ⟨hdone, hrest, hbs⟩ := hnodup.1
  refine ⟨memory, hmemory, h.allocated, ?_, ?_, ?_, ?_, ?_, h.nodecounter,
    h.filterednodecounter⟩
  · apply h.ring.congr
    intro y _
    exact ⟨congrFun hnext y, congrFun hprev y⟩
  · apply h.ringFilter.congr
    intro y _
    exact ⟨congrFun hnext y, congrFun hprev y⟩
  · change as.map (valOf memory) = (front ++ _ :: back).map some
    rw [has, hval, List.map_append, List.map_cons, map_update_of_notMem hdone,
      map_update_of_notMem hrest, Function.update_self, List.map_append, List.map_cons, hfront,
      hback]
  · change bs.map (valOf memory) = _
    rw [hval, map_update_of_notMem hbs, h.nodesFilter]
  · intro a
    change (memory (.heap a)).isSome ↔ _
    rw [← h.domain a, ← isSome_valOf, hval, ← isSome_valOf k.memory]
    by_cases ha : .heap a = p
    · rw [ha, Function.update_self, isSome_valOf, hc]
      rfl
    · rw [Function.update_of_ne ha]

/-- No name among the nodes that the search has passed is the one it looks for. -/
def Passed (k : Kernel) (s : CString) (done : List Ptr) : Prop :=
  ∀ node, some node ∈ done.map (valOf k.memory) → node.animalType ≠ s

theorem Represents.searchAnimal (h : Represents al k m as bs) {s : CString} {done rest : List Ptr}
    {p : Ptr} (has : as = done ++ p :: rest) (hpassed : Passed k s done) :
    k.searchAnimal s p = .ok (k, false) ∧ Passed k s (done ++ [p]) ∨
    ∃ k' nodes, k.searchAnimal s p = .ok (k', true) ∧
      SortAnimal.countUp s m.listnodeanimals = some nodes ∧
      Represents al k' { m with listnodeanimals := nodes } as bs := by
  obtain ⟨c, front, back, hc, hnodes, hfront, hback⟩ := exists_node_of_mem has h.nodes
  by_cases hcmp : strcmp s.bytes c.val.animalType.bytes = 0
  · right
    obtain ⟨memory, hmodify, hrep⟩ := h.countUp has hc hfront hback
    refine ⟨{ k with memory := memory }, _, ?_, ?_, hrep⟩
    · rw [Kernel.searchAnimal, read_of_some hc]
      simp only [bind, Except.bind, hcmp, if_true, hmodify]
      rfl
    · have hname : c.val = ⟨s, c.val.count⟩ := by rw [strcmp_eq_zero.mp hcmp]
      rw [hnodes, hname]
      apply countUp_append
      intro node hnode
      apply hpassed node
      rw [← hfront]
      exact List.mem_map_of_mem hnode
  · left
    refine ⟨?_, ?_⟩
    · rw [Kernel.searchAnimal, read_of_some hc]
      simp only [bind, Except.bind, hcmp, if_false]
      rfl
    · intro node hnode
      rw [List.map_append, List.mem_append, List.map_singleton, List.mem_singleton, valOf, hc]
        at hnode
      rcases hnode with hnode | hnode
      · exact hpassed node hnode
      · cases hnode
        exact fun heq => hcmp (strcmp_eq_zero.mpr heq.symm)

/-- The search finds what the search in the list of the module finds. -/
theorem Represents.search (h : Represents al k m as bs) (s : CString) :
    k.forEachEntry .listnodeanimals (Kernel.searchAnimal s) = .ok (k, false) ∧
      SortAnimal.countUp s m.listnodeanimals = none ∨
    ∃ k' nodes, k.forEachEntry .listnodeanimals (Kernel.searchAnimal s) = .ok (k', true) ∧
      SortAnimal.countUp s m.listnodeanimals = some nodes ∧
      Represents al k' { m with listnodeanimals := nodes } as bs := by
  have hbody : ∀ done p rest k', as = done ++ p :: rest → k' = k ∧ Passed k s done →
      ∃ t b, Kernel.searchAnimal s k' p = .ok (t, b) ∧
        (b = true → ∃ nodes, SortAnimal.countUp s m.listnodeanimals = some nodes ∧
          Represents al t { m with listnodeanimals := nodes } as bs) ∧
        (b = false → (t = k ∧ Passed k s (done ++ [p])) ∧
          nextOf t.memory p = some (rest.headD .listnodeanimals)) := by
    rintro done p rest k' has ⟨rfl, hpassed⟩
    rcases h.searchAnimal has hpassed with ⟨hrun, hnext⟩ | ⟨t, nodes, hrun, hfound⟩
    · exact ⟨k', false, hrun, by simp, fun _ => ⟨⟨rfl, hnext⟩, h.ring.nextOf_eq has⟩⟩
    · exact ⟨t, true, hrun, fun _ => ⟨nodes, hfound⟩, by simp⟩
  obtain ⟨k', found, hloop, htrue, hfalse⟩ := forEach_ok h.head_notMem_first hbody
    (List.nil_append as).symm ⟨rfl, by simp [Passed]⟩ (Nat.lt_succ_of_le h.length_le.1)
  rw [h.forEachEntry_eq]
  cases found with
  | true =>
    obtain ⟨nodes, hfound⟩ := htrue rfl
    exact .inr ⟨k', nodes, hloop, hfound⟩
  | false =>
    obtain ⟨rfl, hall⟩ := hfalse rfl
    refine .inl ⟨hloop, countUp_of_forall_ne ?_⟩
    intro node hnode
    apply hall node
    rw [h.nodes]
    exact List.mem_map_of_mem hnode

theorem Represents.addAnimal (h : Represents al k m as []) (s : CString) : ∃ k' as',
    k.addAnimal al s = .ok k' ∧ Represents al k' (SortAnimal.addAnimal m s) as' [] := by
  rw [Kernel.addAnimal, SortAnimal.addAnimal]
  rcases h.search s with ⟨hsearch, hcount⟩ | ⟨k', nodes, hsearch, hcount, hrep⟩
  · obtain ⟨k', hadd, hrep⟩ := h.addNode ⟨s, 1⟩
    rw [hsearch, hcount]
    simp only [bind, Except.bind, Bool.false_eq_true, if_false, hadd]
    exact ⟨_, _, rfl, hrep⟩
  · rw [hsearch, hcount]
    exact ⟨k', as, rfl, hrep⟩

theorem Represents.foldlM (h : Represents al k m as []) (names : List CString) : ∃ k' as',
    names.foldlM (Kernel.addAnimal al) k = .ok k' ∧
    Represents al k' (names.foldl SortAnimal.addAnimal m) as' [] := by
  induction names generalizing k m as with
  | nil => exact ⟨k, as, rfl, h⟩
  | cons s names ih =>
    obtain ⟨k₁, as₁, hadd, hrep⟩ := h.addAnimal s
    obtain ⟨k₂, as₂, hrest, hrep₂⟩ := ih hrep
    refine ⟨k₂, as₂, ?_, hrep₂⟩
    rw [List.foldlM_cons, hadd]
    exact hrest

theorem Represents.filterAnimal (h : Represents al k m as bs) (filteranimal : CString)
    (filtercount : ℤ) {p : Ptr} {c : Cell Ptr Node} (hc : k.memory p = some c) : ∃ k' bs',
    k.filterAnimal al filteranimal filtercount p = .ok (k', false) ∧
    Represents al k' (SortAnimal.filterAnimal filteranimal filtercount m c.val) as bs' := by
  obtain ⟨k', hadd, hrep⟩ := h.addFiltered c.val
  rw [Kernel.filterAnimal, read_of_some hc, SortAnimal.filterAnimal]
  simp only [bind, Except.bind]
  split
  · split
    · exact ⟨k', _, hadd, hrep⟩
    · exact ⟨k, bs, rfl, h⟩
  · split
    · exact ⟨k', _, hadd, hrep⟩
    · exact ⟨k, bs, rfl, h⟩

/-- The loop of the filter goes through the first list and fills the second one. -/
theorem Represents.filter (h : Represents al k m as bs) (filteranimal : CString)
    (filtercount : ℤ) : ∃ k' bs', k.forEachEntry .listnodeanimals
      (Kernel.filterAnimal al filteranimal filtercount) = .ok (k', false) ∧
    Represents al k'
      (m.listnodeanimals.foldl (SortAnimal.filterAnimal filteranimal filtercount) m) as bs' := by
  have hlength : as.length = m.listnodeanimals.length := by
    have := congrArg List.length h.nodes
    simpa using this
  have hbody : ∀ done p rest k', as = done ++ p :: rest →
      (∃ bs', Represents al k' ((m.listnodeanimals.take done.length).foldl
        (SortAnimal.filterAnimal filteranimal filtercount) m) as bs') →
      ∃ t b, Kernel.filterAnimal al filteranimal filtercount k' p = .ok (t, b) ∧
        (b = true → False) ∧
        (b = false → (∃ bs', Represents al t ((m.listnodeanimals.take (done ++ [p]).length).foldl
          (SortAnimal.filterAnimal filteranimal filtercount) m) as bs') ∧
          nextOf t.memory p = some (rest.headD .listnodeanimals)) := by
    rintro done p rest k₁ has ⟨bs₁, hrep⟩
    obtain ⟨c, front, back, hc, hnodes, hfront, -⟩ := exists_node_of_mem has hrep.nodes
    rw [(foldl_filterAnimal_nodes filteranimal filtercount _ m).1] at hnodes
    have hdone : done.length = front.length := by
      have := congrArg List.length hfront
      simpa using this.symm
    have htake : m.listnodeanimals.take (done ++ [p]).length =
        m.listnodeanimals.take done.length ++ [c.val] := by
      rw [List.length_append, List.length_singleton, hnodes, hdone, List.take_left,
        List.take_length_add_append]
      rfl
    obtain ⟨k₂, bs₂, hrun, hrep₂⟩ := hrep.filterAnimal filteranimal filtercount hc
    refine ⟨k₂, false, hrun, by simp, fun _ => ⟨⟨bs₂, ?_⟩, hrep₂.ring.nextOf_eq has⟩⟩
    rw [htake, List.foldl_append]
    exact hrep₂
  obtain ⟨k', b, hloop, htrue, hfalse⟩ := forEach_ok h.head_notMem_first hbody
    (List.nil_append as).symm ⟨bs, h⟩ (Nat.lt_succ_of_le h.length_le.1)
  rw [h.forEachEntry_eq]
  cases b with
  | true => exact absurd (htrue rfl) id
  | false =>
    obtain ⟨bs', hrep⟩ := hfalse rfl
    rw [hlength, List.take_length] at hrep
    exact ⟨k', bs', hloop, hrep⟩

theorem represents_initial (al : Allocator) (array : List CString) :
    ∃ k, (Kernel.initial al).initHeads = .ok k ∧ Represents al k ⟨array, [], [], 0, 0⟩ [] [] := by
  obtain ⟨m₁, hm₁, hring₁, hval₁, hframe₁⟩ := exists_initHead
    (m := (Kernel.initial al).memory) (h := Ptr.listnodeanimals) rfl
  obtain ⟨m₂, hm₂, hring₂, hval₂, hframe₂⟩ := exists_initHead
    (isSome_of_valOf_eq hval₁ (a := Ptr.listnodeanimalsFilter) rfl)
  refine ⟨{ Kernel.initial al with memory := m₂ }, ?_, rfl, ?_, hring₂, rfl, rfl, ?_, rfl, rfl⟩
  · rw [Kernel.initHeads, hm₁]
    simp only [bind, Except.bind, hm₂]
    rfl
  · apply hring₁.congr
    intro y hy
    change nextOf m₂ y = nextOf m₁ y ∧ prevOf m₂ y = prevOf m₁ y
    rw [List.mem_singleton.mp hy, nextOf, nextOf, prevOf, prevOf,
      hframe₂ Ptr.listnodeanimals (fun h => Ptr.noConfusion h)]
    exact ⟨rfl, rfl⟩
  · intro a
    change (m₂ (.heap a)).isSome ↔ _
    rw [hframe₂ _ (fun h => Ptr.noConfusion h), hframe₁ _ (fun h => Ptr.noConfusion h)]
    simp [Kernel.initial]

/-- Loading the module meets no fault and leaves both lists in memory. -/
theorem exists_kernel (al : Allocator) (filteranimal : CString) (filtercount : ℤ)
    (a : AnimalArray) : ∃ k m as bs,
    Kernel.linkedlistCreate al filteranimal filtercount a = some (.ok k) ∧
    linkedlistCreate filteranimal filtercount a = some m ∧ Represents al k m as bs := by
  obtain ⟨sorted, hsort, -, -⟩ := exists_building a
  obtain ⟨k₀, hinit, hrep₀⟩ := represents_initial al sorted
  obtain ⟨k₁, as, hbuild, hrep₁⟩ := hrep₀.foldlM sorted
  obtain ⟨k₂, bs, hfilter, hrep₂⟩ := hrep₁.filter filteranimal filtercount
  refine ⟨k₂, _, as, bs, ?_, by rw [linkedlistCreate, hsort]; rfl, hrep₂⟩
  rw [Kernel.linkedlistCreate, hsort, Option.map_some, hinit]
  simp only [bind, Except.bind, hbuild, hfilter]
  rfl

end Loading

section Unloading

variable {al : Allocator} {k : Kernel} {m : Module} {p : Ptr} {as bs rest : List Ptr}

/-- Unloading comes to its end with every node given back. A node that is given back twice would
be a fault. -/
def Unloads (k : Kernel) : Prop := ∃ k', k.linkedlistExit = .ok k' ∧ ∀ a, k'.memory (.heap a) = none

theorem Represents.kfree (h : Represents al k m (p :: rest) bs) :
    ∃ k', k.kfree p = .ok (k', false) ∧ k'.memory p = none := by
  obtain ⟨c, -, -, hc, -⟩ := exists_node_of_mem (List.nil_append (p :: rest)).symm h.nodes
  refine ⟨{ k with memory := Function.update k.memory p none }, ?_, Function.update_self _ _ _⟩
  rw [Kernel.kfree, remove_of_some hc]
  rfl

/-- The first loop of `linkedlist_exit` looks for the way on in the node it has just given
back. -/
theorem Represents.linkedlistExit_eq (h : Represents al k m (p :: rest) bs) :
    k.linkedlistExit = .error (.missing p) := by
  obtain ⟨k', hfree, hnone⟩ := h.kfree
  have hp : p ≠ .listnodeanimals := fun he => h.head_notMem_first (he ▸ List.mem_cons_self)
  rw [Kernel.linkedlistExit, h.forEachEntry_eq, List.headD_cons, forEach, if_neg hp, hfree]
  simp only [read_of_none hnone]
  rfl

theorem listnodeanimals_ne_nil {filteranimal : CString} {filtercount : ℤ} {a : AnimalArray}
    (h : linkedlistCreate filteranimal filtercount a = some m) : m.listnodeanimals ≠ [] := by
  obtain ⟨m', sorted, hcreate, hperm, htally, -⟩ :=
    exists_linkedlistCreate filteranimal filtercount a
  obtain rfl : m' = m := Option.some.inj (hcreate.symm.trans h)
  intro hnil
  have hsum := htally.sum_count
  rw [hnil, hperm.length_eq, a.length_strings] at hsum
  exact absurd hsum (by decide)

theorem Represents.exists_first (h : Represents al k m as bs) (hne : m.listnodeanimals ≠ []) :
    ∃ rest, as = al.ptr 0 :: rest := by
  cases as with
  | nil => exact absurd (List.map_eq_nil_iff.mp h.nodes.symm) hne
  | cons p rest =>
    have hallocated := h.allocated
    cases hcalls : k.calls with
    | zero => simp [hcalls] at hallocated
    | succ n =>
      rw [hcalls, List.range_succ_eq_map, List.map_cons, List.cons_append] at hallocated
      exact ⟨rest, by rw [(List.cons.inj hallocated).1]⟩

theorem exists_kernel_exit (al : Allocator) (filteranimal : CString) (filtercount : ℤ)
    (a : AnimalArray) : ∃ k rest filtered,
    Kernel.linkedlistCreate al filteranimal filtercount a = some (.ok k) ∧
    RingAt k.memory .listnodeanimals (al.ptr 0 :: rest) ∧
    RingAt k.memory .listnodeanimalsFilter filtered ∧
    (∀ a, (k.memory (.heap a)).isSome ↔ .heap a ∈ al.ptr 0 :: rest ++ filtered) ∧
    (∃ k', k.kfree (al.ptr 0) = .ok (k', false) ∧ k'.memory (al.ptr 0) = none) ∧
    k.linkedlistExit = .error (.missing (al.ptr 0)) := by
  obtain ⟨k, m, as, bs, hcreate, hlists, hrep⟩ := exists_kernel al filteranimal filtercount a
  obtain ⟨rest, rfl⟩ := hrep.exists_first (listnodeanimals_ne_nil hlists)
  exact ⟨k, rest, bs, hcreate, hrep.ring, hrep.ringFilter, hrep.domain, hrep.kfree,
    hrep.linkedlistExit_eq⟩

/-- Loading the module leaves both lists in memory, with all nodes that are allocated. Unloading it
gives back the first node and then follows the link in it, which is a fault. -/
theorem unloading_never_succeeds (al : Allocator) (filteranimal : CString) (filtercount : ℤ)
    (a : AnimalArray) : ∃ k rest filtered,
    Kernel.linkedlistCreate al filteranimal filtercount a = some (.ok k) ∧
    RingAt k.memory .listnodeanimals (al.ptr 0 :: rest) ∧
    RingAt k.memory .listnodeanimalsFilter filtered ∧
    (∀ a, (k.memory (.heap a)).isSome ↔ .heap a ∈ al.ptr 0 :: rest ++ filtered) ∧
    (∃ k', k.kfree (al.ptr 0) = .ok (k', false) ∧ k'.memory (al.ptr 0) = none) ∧
    k.linkedlistExit = .error (.missing (al.ptr 0)) ∧ ¬Unloads k := by
  obtain ⟨k, rest, filtered, hcreate, hring, hfilter, hdomain, hfree, hexit⟩ :=
    exists_kernel_exit al filteranimal filtercount a
  refine ⟨k, rest, filtered, hcreate, hring, hfilter, hdomain, hfree, hexit, ?_⟩
  rintro ⟨k', hok, -⟩
  rw [hexit] at hok
  cases hok

def fromZero : Allocator where
  addr := id
  injective := Function.injective_id
  content := fun p => ⟨⟨⟨[], by simp⟩, 0⟩, p, p⟩

def dogs : AnimalArray where
  strings := List.replicate max ⟨ascii "dog", by decide⟩
  length_strings := List.length_replicate

/-- The only node of the first list is looked up after it was given back. -/
theorem unloading_dogs_looks_up_removed : ∃ k,
    Kernel.linkedlistCreate fromZero ⟨ascii "none", by decide⟩ 0 dogs = some (.ok k) ∧
    (∃ k', k.kfree (.heap 0) = .ok (k', false) ∧ k'.memory (.heap 0) = none) ∧
    k.linkedlistExit = .error (.missing (.heap 0)) := by
  obtain ⟨k, -, -, hcreate, -, -, -, hfree, hexit⟩ :=
    exists_kernel_exit fromZero ⟨ascii "none", by decide⟩ 0 dogs
  exact ⟨k, hcreate, hfree, hexit⟩

end Unloading

end EmbeddedSoftware.SortAnimal
