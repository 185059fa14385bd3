import EmbeddedSoftware.LossyChannel
import EmbeddedSoftware.RunRules

/-!
# Stop-and-wait transfer over a lossy channel

The blocks `0, …, last` go from a sender to a receiver one at a time. The sender repeats
block `sent` until something arrives. The receiver stores the block it waits for and
acknowledges every block that arrives, known or not. Both sides stop by looking at the
block only: the sender after whatever acknowledgement it reads while block `last` is out,
the receiver after the first copy of block `last`.
-/

namespace EmbeddedSoftware.StopAndWait

open LossyChannel Relation

inductive Phase where
  | ready | waiting | left
  deriving DecidableEq, Repr

/-- `sent` blocks are acknowledged, `received` blocks are stored; `data` and `acks` hold
the numbers of the blocks in flight. -/
structure State where
  sent : ℕ
  phase : Phase
  received : ℕ
  listening : Bool
  data : Multiset ℕ
  acks : Multiset ℕ

def initial : State := ⟨0, .ready, 0, true, 0, 0⟩

def exitAfter (last i : ℕ) : Phase := if i = last then .left else .ready

inductive Step (last : ℕ) : State → State → Prop where
  | send {i r l data acks} :
      Step last ⟨i, .ready, r, l, data, acks⟩ ⟨i, .waiting, r, l, i ::ₘ data, acks⟩
  | timeout {i r l data acks} :
      Step last ⟨i, .waiting, r, l, data, acks⟩ ⟨i, .ready, r, l, data, acks⟩
  | acknowledged {i r l data acks} :
      Step last ⟨i, .waiting, r, l, data, i ::ₘ acks⟩ ⟨i + 1, exitAfter last i, r, l, data, acks⟩
  | stale {i j r l data acks} (other : j ≠ i) :
      Step last ⟨i, .waiting, r, l, data, j ::ₘ acks⟩ ⟨i, exitAfter last i, r, l, data, acks⟩
  | store {i p r data acks} :
      Step last ⟨i, p, r, true, r ::ₘ data, acks⟩
        ⟨i, p, r + 1, decide (r ≠ last), data, r ::ₘ acks⟩
  | again {i p j r data acks} (other : j ≠ r) :
      Step last ⟨i, p, r, true, j ::ₘ data, acks⟩
        ⟨i, p, r, decide (j ≠ last), data, j ::ₘ acks⟩
  | disturbData {i p r l data data' acks} (d : Disturbance data data') :
      Step last ⟨i, p, r, l, data, acks⟩ ⟨i, p, r, l, data', acks⟩
  | disturbAcks {i p r l data acks acks'} (d : Disturbance acks acks') :
      Step last ⟨i, p, r, l, data, acks⟩ ⟨i, p, r, l, data, acks'⟩

/-- What every reachable state satisfies. -/
structure Invariant (last : ℕ) (s : State) : Prop where
  sent_le : s.sent ≤ s.received
  received_le : s.received ≤ s.sent + 1
  received_le_last : s.received ≤ last + 1
  sent_le_last : s.phase ≠ .left → s.sent ≤ last
  data_le : ∀ j ∈ s.data, j ≤ s.sent ∧ j ≤ last
  acks_lt : ∀ j ∈ s.acks, j < s.received
  listening_iff : s.listening = true ↔ s.received ≤ last

theorem invariant_initial (last : ℕ) : Invariant last initial where
  sent_le := le_rfl
  received_le := Nat.zero_le _
  received_le_last := Nat.zero_le _
  sent_le_last _ := Nat.zero_le _
  data_le := by simp [initial]
  acks_lt := by simp [initial]
  listening_iff := by simp [initial]

private theorem exitAfter_eq_ready {last i : ℕ} (h : exitAfter last i ≠ .left) : i ≠ last := by
  intro hi
  simp [exitAfter, hi] at h

theorem Invariant.step {last : ℕ} {s s' : State} (hs : Invariant last s)
    (h : Step last s s') : Invariant last s' := by
  obtain ⟨hsent, hrec, hrecl, hphase, hdata, hacks, hlisten⟩ := hs
  cases h with
  | send =>
    refine ⟨hsent, hrec, hrecl, fun _ => hphase (by simp), ?_, hacks, hlisten⟩
    intro j hj
    rcases Multiset.mem_cons.mp hj with rfl | hj
    · exact ⟨le_rfl, hphase (by simp)⟩
    · exact hdata j hj
  | timeout => exact ⟨hsent, hrec, hrecl, fun _ => hphase (by simp), hdata, hacks, hlisten⟩
  | @acknowledged i r l data acks =>
    have hi : i < r := hacks i (Multiset.mem_cons_self i acks)
    have hil : i ≤ last := hphase (by simp)
    refine ⟨hi, by simp only at hrec ⊢; omega, hrecl, ?_, ?_, ?_, hlisten⟩
    · intro hp
      have := exitAfter_eq_ready hp
      simp only
      omega
    · intro j hj
      have := hdata j hj
      exact ⟨by simp only at this ⊢; omega, this.2⟩
    · exact fun j hj => hacks j (Multiset.mem_cons_of_mem hj)
  | stale other =>
    refine ⟨hsent, hrec, hrecl, fun _ => hphase (by simp), hdata, ?_, hlisten⟩
    exact fun j hj => hacks j (Multiset.mem_cons_of_mem hj)
  | @store i p r data acks =>
    obtain ⟨hri, hrl⟩ := hdata r (Multiset.mem_cons_self r data)
    simp only at hsent hrec hri
    refine ⟨by simp only; omega, by simp only; omega, by simp only; omega, hphase, ?_, ?_, ?_⟩
    · exact fun j hj => hdata j (Multiset.mem_cons_of_mem hj)
    · intro j hj
      rcases Multiset.mem_cons.mp hj with rfl | hj
      · exact Nat.lt_succ_self _
      · exact Nat.lt_succ_of_lt (hacks j hj)
    · simp only [decide_eq_true_eq]
      omega
  | @again i p j r data acks other =>
    obtain ⟨hji, hjl⟩ := hdata j (Multiset.mem_cons_self j data)
    have hr : r ≤ last := hlisten.mp rfl
    simp only at hsent hrec hji
    have hjr : j < r := by omega
    refine ⟨hsent, hrec, hrecl, hphase, ?_, ?_, ?_⟩
    · exact fun k hk => hdata k (Multiset.mem_cons_of_mem hk)
    · intro k hk
      rcases Multiset.mem_cons.mp hk with rfl | hk
      · exact hjr
      · exact hacks k hk
    · simp only [decide_eq_true_eq]
      omega
  | disturbData d => exact ⟨hsent, hrec, hrecl, hphase, d.forall_mem hdata, hacks, hlisten⟩
  | disturbAcks d => exact ⟨hsent, hrec, hrecl, hphase, hdata, d.forall_mem hacks, hlisten⟩

theorem invariant_of_run {last : ℕ} {s : State} (h : ReflTransGen (Step last) initial s) :
    Invariant last s :=
  RunRules.run_invariant (fun _ _ hs hstep => hs.step hstep) (invariant_initial last) h

theorem Invariant.received_eq {last : ℕ} {s : State} (hs : Invariant last s)
    (h : s.listening = false) : s.received = last + 1 := by
  have hl := hs.received_le_last
  have hn : ¬ s.received ≤ last := fun hr => by simp [hs.listening_iff.mpr hr] at h
  omega

/-- A step that does not let the sender stop without an acknowledgement of its block. -/
def Prudent (last : ℕ) (s s' : State) : Prop :=
  Step last s s' ∧ (s.phase = .waiting → s'.phase = .left → s'.sent = s.sent + 1)

/-- Along prudent steps the sender stops with every block acknowledged. -/
theorem sent_eq_of_prudent {last : ℕ} {s : State} (h : ReflTransGen (Prudent last) initial s)
    (hl : s.phase = .left) : s.sent = last + 1 := by
  induction h with
  | refl => cases hl
  | tail _ hstep ih =>
    obtain ⟨hstep, hprudent⟩ := hstep
    cases hstep with
    | send => cases hl
    | timeout => cases hl
    | acknowledged =>
      simp only [exitAfter] at hl
      split at hl
      · next h => simp [h]
      · cases hl
    | stale => simpa using hprudent rfl hl
    | store => exact ih hl
    | again => exact ih hl
    | disturbData => exact ih hl
    | disturbAcks => exact ih hl

/-- Along prudent steps the sender stops only after the receiver has stored every block. -/
theorem received_eq_of_prudent {last : ℕ} {s : State}
    (h : ReflTransGen (Prudent last) initial s) (hl : s.phase = .left) :
    s.received = last + 1 := by
  have hinv := invariant_of_run (ReflTransGen.mono (fun _ _ h => h.1) _ _ h)
  have hs := sent_eq_of_prudent h hl
  have := hinv.sent_le
  have := hinv.received_le_last
  omega

/-- With one block only there is no other acknowledgement to be misled by. -/
theorem Invariant.prudent_of_single {s s' : State} (hs : Invariant 0 s) (h : Step 0 s s') :
    Prudent 0 s s' := by
  refine ⟨h, fun hw hl => ?_⟩
  cases h with
  | send => cases hw
  | timeout => cases hl
  | acknowledged => rfl
  | @stale i j r l data acks other =>
    have hj : j < r := hs.acks_lt j (Multiset.mem_cons_self j acks)
    have hr : r ≤ 1 := hs.received_le_last
    have hi : i ≤ 0 := hs.sent_le_last (by simp)
    omega
  | store => exact absurd (hw.symm.trans hl) (by simp)
  | again => exact absurd (hw.symm.trans hl) (by simp)
  | disturbData => exact absurd (hw.symm.trans hl) (by simp)
  | disturbAcks => exact absurd (hw.symm.trans hl) (by simp)

theorem prudent_run_of_single {s : State} (h : ReflTransGen (Step 0) initial s) :
    ReflTransGen (Prudent 0) initial s := by
  induction h with
  | refl => exact .refl
  | tail hrun hstep ih => exact ih.tail ((invariant_of_run hrun).prudent_of_single hstep)

theorem run_deliver {last i : ℕ} (hi : i ≠ last) (acks : Multiset ℕ) :
    ReflTransGen (Step last) ⟨i, .ready, i, true, 0, acks⟩
      ⟨i, .waiting, i + 1, true, 0, i ::ₘ acks⟩ := by
  have hstore := @Step.store last i .waiting i 0 acks
  rw [decide_eq_true hi] at hstore
  exact .tail (.single .send) hstore

theorem step_acknowledged {last i : ℕ} (hi : i ≠ last) (acks : Multiset ℕ) :
    Step last ⟨i, .waiting, i + 1, true, 0, i ::ₘ acks⟩
      ⟨i + 1, .ready, i + 1, true, 0, acks⟩ := by
  have hack := @Step.acknowledged last i (i + 1) true 0 acks
  rwa [exitAfter, if_neg hi] at hack

theorem run_exchanges {last i : ℕ} (n : ℕ) (h : i + n ≤ last) (acks : Multiset ℕ) :
    ReflTransGen (Step last) ⟨i, .ready, i, true, 0, acks⟩
      ⟨i + n, .ready, i + n, true, 0, acks⟩ := by
  induction n with
  | zero => exact .refl
  | succ n ih =>
    have hi : i + n ≠ last := by omega
    exact (ih (by omega)).trans (.tail (run_deliver hi acks) (step_acknowledged hi acks))

/-- With two blocks or more a second copy of the first acknowledgement, read while the last
block is out, makes the sender stop too early. -/
theorem exists_early_exit {last : ℕ} (h : 0 < last) :
    ∃ s, ReflTransGen (Step last) initial s ∧ s.phase = .left ∧ s.received = last := by
  have hfirst : ReflTransGen (Step last) initial ⟨1, .ready, 1, true, 0, {0}⟩ :=
    .tail (.tail (run_deliver h.ne 0) (.disturbAcks (.duplicate 0 0)))
      (step_acknowledged h.ne {0})
  have hmiddle := @run_exchanges last 1 (last - 1) (by omega) {0}
  rw [show 1 + (last - 1) = last by omega] at hmiddle
  have hstale := @Step.stale last last 0 last true {last} 0 h.ne
  rw [exitAfter, if_pos rfl] at hstale
  exact ⟨_, .tail (.tail (hfirst.trans hmiddle) .send) hstale, rfl, rfl⟩

end EmbeddedSoftware.StopAndWait
