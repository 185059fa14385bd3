import Mathlib.Data.List.Nodup
import Mathlib.Logic.Function.Basic
import Mathlib.Tactic.Common

/-!
# Rings of doubly linked cells

A memory maps addresses to cells, and every cell carries the addresses of its two
neighbours. A ring is a head with the cells that follow it until the head is reached again.
Every access is checked, so a fault names the address where no cell was found.
-/

namespace EmbeddedSoftware.LinkedRings

structure Cell (α β : Type*) where
  val : β
  next : α
  prev : α

abbrev Memory (α β : Type*) := α → Option (Cell α β)

/-- An address without a cell was looked up, or a loop has not come to its end in time. -/
inductive Fault (α : Type*) where
  | missing (a : α)
  | fuel
  deriving DecidableEq

section Operations

variable {α β : Type*} [DecidableEq α]

def read (m : Memory α β) (a : α) : Except (Fault α) (Cell α β) :=
  match m a with
  | some c => .ok c
  | none => .error (.missing a)

def modify (m : Memory α β) (a : α) (f : Cell α β → Cell α β) :
    Except (Fault α) (Memory α β) := do
  let c ← read m a
  return Function.update m a (some (f c))

def initHead (m : Memory α β) (head : α) : Except (Fault α) (Memory α β) :=
  modify m head fun c => { c with next := head, prev := head }

/-- A cell joins the ring in front of its head, by four assignments. -/
def addTail (m : Memory α β) (new head : α) : Except (Fault α) (Memory α β) := do
  let prev := (← read m head).prev
  let m ← modify m head fun c => { c with prev := new }
  let m ← modify m new fun c => { c with next := head }
  let m ← modify m new fun c => { c with prev := prev }
  modify m prev fun c => { c with next := new }

def remove (m : Memory α β) (a : α) : Except (Fault α) (Memory α β) := do
  let _ ← read m a
  return Function.update m a none

/-- The loop over a ring from the address `p` on. The body can leave it, which the result
tells; otherwise the next address is looked up behind the body. -/
def forEach {σ : Type*} (memory : σ → Memory α β) (body : σ → α → Except (Fault α) (σ × Bool))
    (head : α) : ℕ → σ → α → Except (Fault α) (σ × Bool)
  | 0, _, _ => .error .fuel
  | n + 1, s, p =>
    if p = head then .ok (s, false)
    else
      match body s p with
      | .error e => .error e
      | .ok (t, true) => .ok (t, true)
      | .ok (t, false) =>
        match read (memory t) p with
        | .error e => .error e
        | .ok c => forEach memory body head n t c.next

end Operations

section Links

variable {α β : Type*} {m m' : Memory α β} {a b x y h new : α} {l as : List α}

def nextOf (m : Memory α β) (a : α) : Option α := (m a).map Cell.next

def prevOf (m : Memory α β) (a : α) : Option α := (m a).map Cell.prev

def valOf (m : Memory α β) (a : α) : Option β := (m a).map Cell.val

/-- Neighbours in the list are linked both ways. -/
def Links (m : Memory α β) : List α → Prop
  | a :: b :: rest => nextOf m a = some b ∧ prevOf m b = some a ∧ Links m (b :: rest)
  | _ => True

/-- The cells `as` follow the head `h` and the last of them leads back to it. -/
def RingAt (m : Memory α β) (h : α) (as : List α) : Prop := Links m (h :: as ++ [h])

theorem links_append (l : List α) (x : α) (l' : List α) :
    Links m (l ++ x :: l') ↔ Links m (l ++ [x]) ∧ Links m (x :: l') := by
  induction l with
  | nil => simp [Links]
  | cons a l ih =>
    cases l with
    | nil => simp [Links, and_assoc]
    | cons b l =>
      simp only [List.cons_append, Links] at ih ⊢
      rw [ih]
      simp only [and_assoc]

/-- Only the next of all but the last and the previous of all but the first are looked at. -/
theorem Links.transport (hl : Links m l) (hnext : ∀ a ∈ l.dropLast, nextOf m' a = nextOf m a)
    (hprev : ∀ a ∈ l.tail, prevOf m' a = prevOf m a) : Links m' l := by
  induction l with
  | nil => trivial
  | cons a l ih =>
    cases l with
    | nil => trivial
    | cons b l =>
      obtain ⟨hab, hba, hrest⟩ := hl
      refine ⟨?_, ?_, ih hrest ?_ ?_⟩
      · rw [hnext a (by simp), hab]
      · rw [hprev b (by simp), hba]
      · intro c hc
        exact hnext c (by simp [hc])
      · intro c hc
        exact hprev c (List.mem_cons_of_mem b hc)

theorem RingAt.congr (hr : RingAt m h as) (heq : ∀ a ∈ h :: as, nextOf m' a = nextOf m a ∧
    prevOf m' a = prevOf m a) : RingAt m' h as := by
  apply Links.transport hr
  · intro a ha
    rw [List.dropLast_concat] at ha
    exact (heq a ha).1
  · intro a ha
    rw [List.cons_append, List.tail_cons, List.mem_append, List.mem_singleton] at ha
    rcases ha with ha | rfl
    · exact (heq a (List.mem_cons_of_mem h ha)).2
    · exact (heq a List.mem_cons_self).2

/-- From each cell the loop comes to the one behind it, and from the last one to the head. -/
theorem RingAt.nextOf_eq (hr : RingAt m h as) {done rest : List α} (has : as = done ++ a :: rest) :
    nextOf m a = some (rest.headD h) := by
  have hl : Links m ((h :: done) ++ a :: (rest ++ [h])) := by
    rw [RingAt, has] at hr
    simpa using hr
  have hla := ((links_append _ _ _).mp hl).2
  cases rest with
  | nil => exact hla.1
  | cons b rest => exact hla.1

theorem RingAt.nextOf_head (hr : RingAt m h as) : nextOf m h = some (as.headD h) := by
  cases as with
  | nil => exact hr.1
  | cons a as => exact hr.1

theorem RingAt.prevOf_head (hr : RingAt m h as) :
    ∃ l x, h :: as = l ++ [x] ∧ prevOf m h = some x := by
  have hne : h :: as ≠ [] := List.cons_ne_nil h as
  refine ⟨(h :: as).dropLast, (h :: as).getLast hne, (List.dropLast_append_getLast hne).symm, ?_⟩
  have hl : Links m ((h :: as).dropLast ++ (h :: as).getLast hne :: [h]) := by
    rw [List.append_cons, List.dropLast_append_getLast]
    exact hr
  exact ((links_append _ _ _).mp hl).2.2.1

theorem nextOf_eq_some (hx : nextOf m a = some b) : ∃ c, m a = some c ∧ c.next = b :=
  Option.map_eq_some_iff.mp hx

end Links

section Effects

variable {α β : Type*} {m m' : Memory α β} {a x h new : α} {as : List α}

theorem read_of_some {c : Cell α β} (hc : m a = some c) : read m a = .ok c := by
  simp [read, hc]

theorem read_of_none (hc : m a = none) : read m a = .error (.missing a) := by
  simp [read, hc]

theorem isSome_valOf (m : Memory α β) (a : α) : (valOf m a).isSome = (m a).isSome :=
  Option.isSome_map

theorem isSome_of_valOf_eq (hval : valOf m' = valOf m) (ha : (m a).isSome) : (m' a).isSome := by
  rw [← isSome_valOf, hval, isSome_valOf]
  exact ha

variable [DecidableEq α]

theorem modify_of_some {c : Cell α β} (hc : m a = some c) (f : Cell α β → Cell α β) :
    modify m a f = .ok (Function.update m a (some (f c))) := by
  simp [modify, read, hc]

theorem remove_of_some {c : Cell α β} (hc : m a = some c) :
    remove m a = .ok (Function.update m a none) := by
  simp [remove, read, hc]

theorem exists_setNext (ha : (m a).isSome) (b : α) : ∃ m',
    modify m a (fun c => { c with next := b }) = .ok m' ∧
    nextOf m' = Function.update (nextOf m) a (some b) ∧ prevOf m' = prevOf m ∧
    valOf m' = valOf m ∧ ∀ y ≠ a, m' y = m y := by
  obtain ⟨c, hc⟩ := Option.isSome_iff_exists.mp ha
  refine ⟨_, modify_of_some hc _, ?_, ?_, ?_, fun y hy => Function.update_of_ne hy _ _⟩
  · funext y
    by_cases hy : y = a
    · simp [nextOf, hy]
    · simp [nextOf, hy]
  · funext y
    by_cases hy : y = a
    · simp [prevOf, hy, hc]
    · simp [prevOf, hy]
  · funext y
    by_cases hy : y = a
    · simp [valOf, hy, hc]
    · simp [valOf, hy]

theorem exists_setPrev (ha : (m a).isSome) (b : α) : ∃ m',
    modify m a (fun c => { c with prev := b }) = .ok m' ∧
    nextOf m' = nextOf m ∧ prevOf m' = Function.update (prevOf m) a (some b) ∧
    valOf m' = valOf m ∧ ∀ y ≠ a, m' y = m y := by
  obtain ⟨c, hc⟩ := Option.isSome_iff_exists.mp ha
  refine ⟨_, modify_of_some hc _, ?_, ?_, ?_, fun y hy => Function.update_of_ne hy _ _⟩
  · funext y
    by_cases hy : y = a
    · simp [nextOf, hy, hc]
    · simp [nextOf, hy]
  · funext y
    by_cases hy : y = a
    · simp [prevOf, hy]
    · simp [prevOf, hy]
  · funext y
    by_cases hy : y = a
    · simp [valOf, hy, hc]
    · simp [valOf, hy]

theorem exists_setVal {c : Cell α β} (hc : m a = some c) (f : β → β) : ∃ m',
    modify m a (fun c => { c with val := f c.val }) = .ok m' ∧
    nextOf m' = nextOf m ∧ prevOf m' = prevOf m ∧
    valOf m' = Function.update (valOf m) a (some (f c.val)) := by
  refine ⟨_, modify_of_some hc _, ?_, ?_, ?_⟩
  · funext y
    by_cases hy : y = a
    · simp [nextOf, hy, hc]
    · simp [nextOf, hy]
  · funext y
    by_cases hy : y = a
    · simp [prevOf, hy, hc]
    · simp [prevOf, hy]
  · funext y
    by_cases hy : y = a
    · simp [valOf, hy]
    · simp [valOf, hy]

theorem exists_initHead (hh : (m h).isSome) : ∃ m', initHead m h = .ok m' ∧
    RingAt m' h [] ∧ valOf m' = valOf m ∧ ∀ y ≠ h, m' y = m y := by
  obtain ⟨c, hc⟩ := Option.isSome_iff_exists.mp hh
  refine ⟨_, modify_of_some hc _, ?_, ?_, fun y hy => Function.update_of_ne hy _ _⟩
  · simp [RingAt, Links, nextOf, prevOf]
  · funext y
    by_cases hy : y = h
    · simp [valOf, hy, hc]
    · simp [valOf, hy]

/-- What the four assignments do, with `x` the cell in front of the head. -/
theorem exists_addTail (hprev : prevOf m h = some x) (hx : (m x).isSome) (hnew : (m new).isSome) :
    ∃ m', addTail m new h = .ok m' ∧
    nextOf m' = Function.update (Function.update (nextOf m) new (some h)) x (some new) ∧
    prevOf m' = Function.update (Function.update (prevOf m) h (some new)) new (some x) ∧
    valOf m' = valOf m ∧ ∀ y, y ≠ h → y ≠ x → y ≠ new → m' y = m y := by
  obtain ⟨c, hc, rfl⟩ := Option.map_eq_some_iff.mp hprev
  have hh : (m h).isSome := by simp [hc]
  obtain ⟨m₁, hm₁, hn₁, hp₁, hv₁, hf₁⟩ := exists_setPrev hh new
  obtain ⟨m₂, hm₂, hn₂, hp₂, hv₂, hf₂⟩ := exists_setNext (isSome_of_valOf_eq hv₁ hnew) h
  have hv₁₂ : valOf m₂ = valOf m := hv₂.trans hv₁
  obtain ⟨m₃, hm₃, hn₃, hp₃, hv₃, hf₃⟩ := exists_setPrev (isSome_of_valOf_eq hv₁₂ hnew) c.prev
  have hv₁₃ : valOf m₃ = valOf m := hv₃.trans hv₁₂
  obtain ⟨m₄, hm₄, hn₄, hp₄, hv₄, hf₄⟩ := exists_setNext (isSome_of_valOf_eq hv₁₃ hx) new
  refine ⟨m₄, ?_, ?_, ?_, hv₄.trans hv₁₃, ?_⟩
  · rw [addTail, read_of_some hc]
    simp only [bind, Except.bind, hm₁, hm₂, hm₃, hm₄]
  · rw [hn₄, hn₃, hn₂, hn₁]
  · rw [hp₄, hp₃, hp₂, hp₁]
  · intro y hyh hyx hyn
    rw [hf₄ y hyx, hf₃ y hyn, hf₂ y hyn, hf₁ y hyh]

/-- The new cell becomes the last one of the ring. -/
theorem RingAt.addTail (hr : RingAt m h as) (hnodup : (h :: as).Nodup) (hin : new ∉ h :: as)
    (hnew : (m new).isSome) : ∃ m', LinkedRings.addTail m new h = .ok m' ∧
    RingAt m' h (as ++ [new]) ∧ valOf m' = valOf m ∧
    ∀ y, y ∉ h :: as → y ≠ new → m' y = m y := by
  obtain ⟨l, x, hl, hprev⟩ := hr.prevOf_head
  have hxmem : x ∈ h :: as := by simp [hl]
  have hx : (m x).isSome := by
    have hnext : Links m (l ++ x :: [h]) := by
      rw [List.append_cons, ← hl]
      exact hr
    obtain ⟨c, hc, -⟩ := Option.map_eq_some_iff.mp ((links_append _ _ _).mp hnext).2.1
    simp [hc]
  obtain ⟨m', hm', hn, hp, hv, hf⟩ := exists_addTail hprev hx hnew
  have hxl : x ∉ l := by
    rw [hl, List.nodup_append] at hnodup
    intro hmem
    exact hnodup.2.2 x hmem x (List.mem_singleton_self x) rfl
  refine ⟨m', hm', ?_, hv, ?_⟩
  · have hfront : Links m (l ++ [x]) := by
      rw [RingAt, hl, List.append_assoc] at hr
      exact ((links_append l x [h]).mp hr).1
    have hfront' : Links m' (l ++ [x]) := by
      apply hfront.transport
      · intro a ha
        rw [List.dropLast_concat] at ha
        have hax : a ≠ x := fun he => hxl (he ▸ ha)
        have han : a ≠ new := fun he => hin (by rw [hl, ← he]; simp [ha])
        rw [hn, Function.update_of_ne hax, Function.update_of_ne han]
      · intro a ha
        rw [← hl, List.tail_cons] at ha
        have hah : a ≠ h := fun he => (List.nodup_cons.mp hnodup).1 (he ▸ ha)
        have han : a ≠ new := fun he => hin (he ▸ List.mem_cons_of_mem h ha)
        rw [hp, Function.update_of_ne han, Function.update_of_ne hah]
    have hnh : new ≠ h := fun he => hin (he ▸ List.mem_cons_self)
    have hnx : new ≠ x := fun he => hin (he ▸ hxmem)
    have hback : Links m' (x :: new :: [h]) := by
      refine ⟨?_, ?_, ?_, ?_, trivial⟩
      · rw [hn, Function.update_self]
      · rw [hp, Function.update_self]
      · rw [hn, Function.update_of_ne hnx, Function.update_self]
      · rw [hp, Function.update_of_ne hnh.symm, Function.update_self]
    have hlist : h :: (as ++ [new]) ++ [h] = l ++ x :: new :: [h] := by
      rw [← List.cons_append, hl]
      simp
    rw [RingAt, hlist]
    exact (links_append l x _).mpr ⟨hfront', hback⟩
  · intro y hy hyn
    exact hf y (fun he => hy (he ▸ List.mem_cons_self)) (fun he => hy (he ▸ hxmem)) hyn

end Effects

section Loops

variable {α β σ : Type*} [DecidableEq α] {memory : σ → Memory α β}
  {body : σ → α → Except (Fault α) (σ × Bool)} {h : α} {as : List α}

/-- The rule for loops that stay in their ring: the body keeps the invariant and the way to the
next cell, or leaves with the result `Q`. -/
theorem forEach_ok {I : List α → σ → Prop} {Q : σ → Prop} (hhead : h ∉ as)
    (hbody : ∀ done a rest s, as = done ++ a :: rest → I done s → ∃ t b, body s a = .ok (t, b) ∧
      (b = true → Q t) ∧
      (b = false → I (done ++ [a]) t ∧ nextOf (memory t) a = some (rest.headD h)))
    {done rest : List α} {s : σ} {n : ℕ} (has : as = done ++ rest) (hs : I done s)
    (hn : rest.length < n) : ∃ t b, forEach memory body h n s (rest.headD h) = .ok (t, b) ∧
      (b = true → Q t) ∧ (b = false → I as t) := by
  induction rest generalizing done s n with
  | nil =>
    obtain ⟨k, rfl⟩ := Nat.exists_eq_succ_of_ne_zero (Nat.ne_of_gt hn)
    rw [List.append_nil] at has
    refine ⟨s, false, by simp [forEach], by simp, ?_⟩
    intro _
    rw [has]
    exact hs
  | cons a rest ih =>
    obtain ⟨k, rfl⟩ := Nat.exists_eq_succ_of_ne_zero (Nat.ne_zero_of_lt hn)
    have hah : a ≠ h := fun he => hhead (by rw [has, ← he]; simp)
    obtain ⟨t, b, hrun, htrue, hfalse⟩ := hbody done a rest s has hs
    cases b with
    | true => exact ⟨t, true, by simp [forEach, hah, hrun], fun _ => htrue rfl, by simp⟩
    | false =>
      obtain ⟨ht, hnext⟩ := hfalse rfl
      obtain ⟨c, hc, hcnext⟩ := nextOf_eq_some hnext
      have hsplit : as = (done ++ [a]) ++ rest := by simp [has]
      obtain ⟨u, b, hloop, hresult⟩ := ih hsplit ht (Nat.lt_of_succ_lt_succ hn)
      refine ⟨u, b, ?_, hresult⟩
      simp only [forEach, List.headD_cons, hah, if_false, hrun, read_of_some hc, hcnext]
      exact hloop

end Loops

end EmbeddedSoftware.LinkedRings
