import EmbeddedSoftware.LoggerToken
import Mathlib.Data.List.Nodup

/-!
# The tasks refine the channel

Every statement of a task is a step of the channel or leaves it as it is. The three tasks
inherit the order of the channel, and what the token guards is never touched by two of
them.
-/

namespace EmbeddedSoftware.LoggerTasks

open CountingSemaphore OneSlotChannel Relation

/-- The queues of the two semaphores hold the tasks that are blocked, each once. -/
structure Waiting (s : State) : Prop where
  nodup : s.uartsemwrite.waiting.Nodup
  led : .led ∈ s.uartsemwrite.waiting ↔ s.led.pc = .blocked
  temp : .temp ∈ s.uartsemwrite.waiting ↔ s.temp.pc = .blocked
  log : .log ∉ s.uartsemwrite.waiting
  read : s.uartsemread.waiting = if s.log.pc = .blocked then [.log] else []

/-- The state `s` of the tasks is the state `c` of the channel. -/
structure Represents (c : Channel Producer Record) (s : State) : Prop where
  flag : s.flag ≠ 0
  waiting : Waiting s
  acquired : s.acquired = c.acquired
  produced : s.produced = c.produced
  uart : s.uart = c.delivered.map Record.line
  token : Token s.view c.slot

theorem represents_initial (dataLed ledop : LedToggle) (dataTemp tempop : Temp) (data : String) :
    Represents OneSlotChannel.initial (initial dataLed ledop dataTemp tempop data) where
  flag := by simp [initial]
  waiting := by constructor <;> simp [initial]
  acquired := rfl
  produced := rfl
  uart := rfl
  token := .free ⟨rfl, rfl⟩ ⟨rfl, rfl, rfl⟩ ⟨rfl, rfl⟩

section Steps

variable {c : Channel Producer Record} {s s' : State}

theorem Waiting.of_eq (h : Waiting s) (hw : s'.uartsemwrite.waiting = s.uartsemwrite.waiting)
    (hr : s'.uartsemread.waiting = s.uartsemread.waiting)
    (hled : s'.led.pc = .blocked ↔ s.led.pc = .blocked)
    (htemp : s'.temp.pc = .blocked ↔ s.temp.pc = .blocked)
    (hlog : s'.log.pc = .blocked ↔ s.log.pc = .blocked) : Waiting s' where
  nodup := hw ▸ h.nodup
  led := by rw [hw, hled, h.led]
  temp := by rw [hw, htemp, h.temp]
  log := by rw [hw]; exact h.log
  read := by simp only [hr, h.read, hlog]

def Advances (c : Channel Producer Record) (s : State) : Prop :=
  ∃ c', ReflTransGen (OneSlotChannel.Step Record.producer) c c' ∧ Represents c' s

theorem Represents.advances (h : Represents c s) : Advances c s := ⟨c, .refl, h⟩

/-- A statement that keeps the token where it is. -/
theorem Represents.stutter (h : Represents c s) (hflag : s'.flag = s.flag)
    (hacq : s'.acquired = s.acquired) (hprod : s'.produced = s.produced)
    (huart : s'.uart = s.uart) (hwait : Waiting s') (htoken : Token s'.view c.slot) :
    Advances c s' :=
  Represents.advances ⟨hflag ▸ h.flag, hwait, hacq.trans h.acquired, hprod.trans h.produced,
    huart.trans h.uart, htoken⟩

theorem Represents.led_outside (h : Represents c s) (hout : s.led.pc.inside = false)
    (hb : s.led.pc ≠ .blocked) {led : LedTask} (hout' : led.pc.inside = false)
    (hb' : led.pc ≠ .blocked) (toggles1 toggles0 : ℕ) :
    Advances c { s with led := led, toggles1 := toggles1, toggles0 := toggles0 } :=
  h.stutter rfl rfl rfl rfl
    (h.waiting.of_eq rfl rfl (iff_of_false hb' hb) Iff.rfl Iff.rfl) (h.token.frame_led hout hout')

theorem Represents.temp_outside (h : Represents c s) (hout : s.temp.pc.inside = false)
    (hb : s.temp.pc ≠ .blocked) {temp : TempTask} (hout' : temp.pc.inside = false)
    (hb' : temp.pc ≠ .blocked) : Advances c { s with temp := temp } :=
  h.stutter rfl rfl rfl rfl
    (h.waiting.of_eq rfl rfl Iff.rfl (iff_of_false hb' hb) Iff.rfl) (h.token.frame_temp hout hout')

theorem Represents.log_outside (h : Represents c s) (hout : s.log.pc.inside = false)
    (hb : s.log.pc ≠ .blocked) {pc : LogPc} (hout' : pc.inside = false) (hb' : pc ≠ .blocked) :
    Advances c (s.logAt pc) :=
  h.stutter rfl rfl rfl rfl
    (h.waiting.of_eq rfl rfl Iff.rfl Iff.rfl (iff_of_false hb' hb)) (h.token.frame_log hout hout')

section Write

variable {sem : Semaphore TaskId}

theorem Waiting.led_blocks (h : Waiting s) (hpc : s.led.pc ≠ .blocked)
    (hq : sem.waiting = s.uartsemwrite.waiting ++ [.led]) :
    Waiting ({ s with uartsemwrite := sem }.ledAt .blocked) := by
  have hnot : .led ∉ s.uartsemwrite.waiting := fun hm => hpc (h.led.mp hm)
  refine ⟨?_, ?_, ?_, ?_, h.read⟩
  · change sem.waiting.Nodup
    rw [hq, ← List.concat_eq_append]
    exact List.Nodup.concat hnot h.nodup
  · simp [hq, State.ledAt]
  · simpa [hq, State.ledAt] using h.temp
  · simpa [hq, State.ledAt] using h.log

theorem Waiting.temp_blocks (h : Waiting s) (hpc : s.temp.pc ≠ .blocked)
    (hq : sem.waiting = s.uartsemwrite.waiting ++ [.temp]) :
    Waiting ({ s with uartsemwrite := sem }.tempAt .blocked) := by
  have hnot : .temp ∉ s.uartsemwrite.waiting := fun hm => hpc (h.temp.mp hm)
  refine ⟨?_, ?_, ?_, ?_, h.read⟩
  · change sem.waiting.Nodup
    rw [hq, ← List.concat_eq_append]
    exact List.Nodup.concat hnot h.nodup
  · simpa [hq, State.tempAt] using h.led
  · simp [hq, State.tempAt]
  · simpa [hq, State.tempAt] using h.log

/-- A producer that goes on has left the queue, and the others are still there. -/
theorem Waiting.resume_led (h : Waiting s) (hnodup : sem.waiting.Nodup)
    (hled : .led ∉ sem.waiting)
    (hothers : ∀ t, t ≠ .led → (t ∈ sem.waiting ↔ t ∈ s.uartsemwrite.waiting)) :
    Waiting ({ s with uartsemwrite := sem }.resume .led) := by
  refine ⟨hnodup, ?_, ?_, ?_, h.read⟩
  · exact iff_of_false hled (by simp [State.resume, State.ledAt])
  · exact (hothers .temp (by simp)).trans h.temp
  · exact fun hm => h.log ((hothers .log (by simp)).mp hm)

theorem Waiting.resume_temp (h : Waiting s) (hnodup : sem.waiting.Nodup)
    (htemp : .temp ∉ sem.waiting)
    (hothers : ∀ t, t ≠ .temp → (t ∈ sem.waiting ↔ t ∈ s.uartsemwrite.waiting)) :
    Waiting ({ s with uartsemwrite := sem }.resume .temp) := by
  refine ⟨hnodup, ?_, ?_, ?_, h.read⟩
  · exact (hothers .led (by simp)).trans h.led
  · exact iff_of_false htemp (by simp [State.resume, State.tempAt])
  · exact fun hm => h.log ((hothers .log (by simp)).mp hm)

theorem Represents.led_pend (h : Represents c s) (hpc : s.led.pc = .pend) :
    Advances c (s.pendWrite .led (State.ledAt · .blocked)) := by
  have hout : s.view.led.inside = false := by simp [State.view, hpc, LedPc.inside]
  obtain hzero | hpos := Nat.eq_zero_or_pos s.uartsemwrite.count
  · obtain ⟨sem, hcount, hqueue, heq⟩ := State.pendWrite_of_zero hzero
    rw [heq]
    refine h.stutter rfl rfl rfl rfl (h.waiting.led_blocks (by simp [hpc]) hqueue) ?_
    have hview : (({ s with uartsemwrite := sem } : State).ledAt .blocked).view =
        { s.view with led := .blocked } := by
      simp [State.view, State.ledAt, hcount, hzero]
    rw [hview]
    exact h.token.frame_led hout rfl
  · obtain ⟨hslot, hcounts, hinside, hempty⟩ := h.token.of_write_pos hpos
    have hnil := s.uartsemwrite.waiting_eq_nil hpos
    have hone : s.uartsemwrite.count = 1 := hcounts.1
    obtain ⟨slot, acq, prod, del⟩ := c
    cases hslot
    rw [State.pendWrite_of_pos hpos, hone]
    refine ⟨_, .single (.acquire .led), h.flag, ?_, congrArg (· ++ [Producer.led]) h.acquired,
      h.produced, h.uart, .ledClaims ⟨rfl, hcounts.2⟩ ⟨rfl, hinside.2⟩ hempty (.inl rfl)⟩
    exact h.waiting.resume_led List.nodup_nil (by simp) (by simp [hnil])

theorem Represents.temp_pend (h : Represents c s) (hpc : s.temp.pc = .pend) :
    Advances c (s.pendWrite .temp (State.tempAt · .blocked)) := by
  have hout : s.view.temp.inside = false := by simp [State.view, hpc, TempPc.inside]
  obtain hzero | hpos := Nat.eq_zero_or_pos s.uartsemwrite.count
  · obtain ⟨sem, hcount, hqueue, heq⟩ := State.pendWrite_of_zero hzero
    rw [heq]
    refine h.stutter rfl rfl rfl rfl (h.waiting.temp_blocks (by simp [hpc]) hqueue) ?_
    have hview : (({ s with uartsemwrite := sem } : State).tempAt .blocked).view =
        { s.view with temp := .blocked } := by
      simp [State.view, State.tempAt, hcount, hzero]
    rw [hview]
    exact h.token.frame_temp hout rfl
  · obtain ⟨hslot, hcounts, hinside, hempty⟩ := h.token.of_write_pos hpos
    have hnil := s.uartsemwrite.waiting_eq_nil hpos
    have hone : s.uartsemwrite.count = 1 := hcounts.1
    obtain ⟨slot, acq, prod, del⟩ := c
    cases hslot
    rw [State.pendWrite_of_pos hpos, hone]
    refine ⟨_, .single (.acquire .temp), h.flag, ?_, congrArg (· ++ [Producer.temp]) h.acquired,
      h.produced, h.uart,
      .tempClaims ⟨rfl, hcounts.2⟩ ⟨hinside.1, rfl, hinside.2.2⟩ hempty (.inl rfl)⟩
    exact h.waiting.resume_temp List.nodup_nil (by simp) (by simp [hnil])

/-- The logger gives the token back: to the first producer that waits, or to the semaphore. -/
theorem Represents.log_post (h : Represents c s) (hpc : s.log.pc = .post) :
    Advances c (s.logAt .test).postWrite := by
  obtain ⟨hslot, hcounts, hinside, hempty⟩ := h.token.of_log_post hpc
  have hwait : Waiting (s.logAt .test) :=
    h.waiting.of_eq rfl rfl Iff.rfl Iff.rfl (by simp [State.logAt, hpc])
  have hzero : s.uartsemwrite.count = 0 := hcounts.1
  obtain ⟨slot, acq, prod, del⟩ := c
  cases hslot
  cases hq : (s.logAt .test).uartsemwrite.waiting with
  | nil =>
    rw [State.postWrite_of_nil hq]
    refine ⟨_, .single .release, h.flag, ?_, h.acquired, h.produced, h.uart,
      .free ⟨?_, hcounts.2⟩ ⟨hinside.1, hinside.2.1, rfl⟩ hempty⟩
    · exact hwait.of_eq hq.symm rfl Iff.rfl Iff.rfl Iff.rfl
    · simp [State.view, State.logAt, hzero]
  | cons t ts =>
    obtain ⟨sem, hcount, hrest, heq⟩ := State.postWrite_of_cons hq
    have hnodup := hwait.nodup
    rw [hq, List.nodup_cons] at hnodup
    have hothers : ∀ u, u ≠ t → (u ∈ sem.waiting ↔ u ∈ (s.logAt .test).uartsemwrite.waiting) := by
      intro u hu
      rw [hrest, hq, List.mem_cons]
      simp [hu]
    rw [heq]
    cases t with
    | led =>
      refine ⟨_, .single (.handOver .led), h.flag, ?_, congrArg (· ++ [Producer.led]) h.acquired,
        h.produced, h.uart, .ledClaims ⟨hcount, hcounts.2⟩ ⟨rfl, hinside.2.1, rfl⟩ hempty (.inl rfl)⟩
      exact hwait.resume_led (hrest ▸ hnodup.2) (hrest ▸ hnodup.1) hothers
    | temp =>
      refine ⟨_, .single (.handOver .temp), h.flag, ?_, congrArg (· ++ [Producer.temp]) h.acquired,
        h.produced, h.uart, .tempClaims ⟨hcount, hcounts.2⟩ ⟨hinside.1, rfl, rfl⟩ hempty (.inl rfl)⟩
      exact hwait.resume_temp (hrest ▸ hnodup.2) (hrest ▸ hnodup.1) hothers
    | log => exact absurd (by simp [hq]) hwait.log

end Write

section Read

variable {sem : Semaphore TaskId}

theorem Represents.log_pend (h : Represents c s) (hpc : s.log.pc = .pend) :
    Advances c (s.pendRead .log (State.logAt · .blocked)) := by
  have hout : s.view.log.inside = false := by simp [State.view, hpc, LogPc.inside]
  have hnil : s.uartsemread.waiting = [] := by simp [h.waiting.read, hpc]
  have hwait := h.waiting
  obtain hzero | hpos := Nat.eq_zero_or_pos s.uartsemread.count
  · obtain ⟨sem, hcount, hqueue, heq⟩ := State.pendRead_of_zero hzero
    rw [heq]
    refine h.stutter rfl rfl rfl rfl ⟨hwait.nodup, hwait.led, hwait.temp, hwait.log, ?_⟩ ?_
    · simp [State.logAt, hqueue, hnil]
    · have hview : (({ s with uartsemread := sem } : State).logAt .blocked).view =
          { s.view with log := .blocked } := by
        simp [State.view, State.logAt, hcount, hzero]
      rw [hview]
      exact h.token.frame_log hout rfl
  · obtain ⟨r, hslot, hcounts, hinside, hqueued⟩ := h.token.of_read_pos hpos
    have hone : s.uartsemread.count = 1 := hcounts.2
    rw [State.pendRead_of_pos hpos, hone]
    refine h.stutter rfl rfl rfl rfl ⟨hwait.nodup, hwait.led, hwait.temp, hwait.log, rfl⟩ ?_
    rw [hslot]
    refine .logTakes ⟨hcounts.1, rfl⟩ ⟨hinside.1, hinside.2.1, rfl⟩ ?_ (.inl rfl)
    cases r <;> exact hqueued

/-- A producer passes the token on: to the logger that waits, or to the semaphore. -/
theorem Represents.post_read (h : Represents c s) {r : Record} (hslot : c.slot = .full r)
    (hcounts : s.view.Counts 0 0) (hinside : s'.view.Inside false false false)
    (hqueued : s'.view.Queued r) (hwait : Waiting s') (hw : s'.uartsemwrite = s.uartsemwrite)
    (hr : s'.uartsemread = s.uartsemread) (hflag : s'.flag = s.flag)
    (hacq : s'.acquired = s.acquired) (hprod : s'.produced = s.produced)
    (huart : s'.uart = s.uart) : Advances c s'.postRead := by
  have hread : s'.uartsemread.count = 0 := by rw [hr]; exact hcounts.2
  have hwrite : s'.uartsemwrite.count = 0 := by rw [hw]; exact hcounts.1
  by_cases hlog : s'.log.pc = .blocked
  · have hq : s'.uartsemread.waiting = .log :: [] := by simp [hwait.read, hlog]
    obtain ⟨sem, hcount, hrest, heq⟩ := State.postRead_of_cons hq
    rw [heq]
    refine h.stutter hflag hacq hprod huart
      ⟨hwait.nodup, hwait.led, hwait.temp, hwait.log, by simp [State.resume, State.logAt, hrest]⟩ ?_
    rw [hslot]
    refine .logTakes ⟨hwrite, hcount⟩ ⟨hinside.1, hinside.2.1, rfl⟩ ?_ (.inl rfl)
    cases r <;> exact hqueued
  · have hq : s'.uartsemread.waiting = [] := by simp [hwait.read, hlog]
    rw [State.postRead_of_nil hq]
    refine h.stutter hflag hacq hprod huart
      (hwait.of_eq rfl hq.symm Iff.rfl Iff.rfl Iff.rfl) ?_
    rw [hslot]
    refine .ready ⟨hwrite, ?_⟩ hinside ?_
    · simp [State.view, hread]
    · cases r <;> exact hqueued

end Read

theorem Represents.led_send (h : Represents c s) (hpc : s.led.pc = .send) :
    Advances c { s.ledAt .tag with
      queueLed := xQueueSend s.queueLed s.led.dataLed
      produced := s.produced ++ [.led s.led.dataLed] } := by
  obtain ⟨hslot, hcounts, hinside, hempty⟩ := h.token.of_led_claims (.inr (.inr hpc))
  obtain ⟨slot, acq, prod, del⟩ := c
  cases hslot
  have hnil : s.queueLed = [] := hempty.1
  refine ⟨_, .single (.publish (Record.led s.led.dataLed)), h.flag,
    h.waiting.of_eq rfl rfl (by simp [State.ledAt, hpc]) Iff.rfl Iff.rfl, h.acquired,
    congrArg (· ++ [Record.led s.led.dataLed]) h.produced, h.uart,
    .ledSent hcounts ⟨rfl, hinside.2⟩ ?_ hempty.2 (.inl rfl)⟩
  simp [State.view, hnil, xQueueSend]

theorem Represents.temp_send (h : Represents c s) (hpc : s.temp.pc = .send) :
    Advances c { s.tempAt .post with
      queueTemp := xQueueSend s.queueTemp s.temp.dataTemp
      produced := s.produced ++ [.temp s.temp.dataTemp] } := by
  obtain ⟨hslot, hcounts, hinside, hempty, hn⟩ := h.token.of_temp_claims (.inr hpc)
  obtain ⟨slot, acq, prod, del⟩ := c
  cases hslot
  have hnil : s.queueTemp = [] := hempty.2
  refine ⟨_, .single (.publish (Record.temp s.temp.dataTemp)), h.flag,
    h.waiting.of_eq rfl rfl Iff.rfl (by simp [State.tempAt, hpc]) Iff.rfl, h.acquired,
    congrArg (· ++ [Record.temp s.temp.dataTemp]) h.produced, h.uart,
    .tempSent hcounts ⟨hinside.1, rfl, hinside.2.2⟩ ⟨hn hpc, ?_, hempty.1⟩ rfl⟩
  simp [State.view, hnil, xQueueSend]

theorem Represents.log_write (h : Represents c s) (hpc : s.log.pc = .write) :
    Advances c { s.logAt .post with uart := s.uart ++ [s.data] } := by
  obtain ⟨r, hslot, hcounts, hinside, hempty, -, -, hdata⟩ :=
    h.token.of_log_formats (.inr (.inr hpc))
  obtain ⟨slot, acq, prod, del⟩ := c
  cases hslot
  have hline : s.data = r.line := hdata hpc
  have huart : s.uart = del.map Record.line := h.uart
  refine ⟨_, .single (.deliver r), h.flag,
    h.waiting.of_eq rfl rfl Iff.rfl Iff.rfl (by simp [State.logAt, hpc]), h.acquired, h.produced,
    ?_, .emptied hcounts ⟨hinside.1, hinside.2.1, rfl⟩ hempty rfl⟩
  simp [huart, hline]

theorem Represents.ledFxn (h : Represents c s) (hstep : s.ledFxn = some s') : Advances c s' := by
  cases hpc : s.led.pc with
  | test =>
    simp only [State.ledFxn, hpc, if_pos h.flag] at hstep
    cases hstep
    exact h.led_outside (by rw [hpc]; rfl) (by simp [hpc]) rfl (by simp) _ _
  | sleep | toggle1 | toggle0 =>
    simp only [State.ledFxn, hpc, State.ledAt] at hstep
    cases hstep
    exact h.led_outside (by rw [hpc]; rfl) (by simp [hpc]) rfl (by simp) _ _
  | pend =>
    simp only [State.ledFxn, hpc] at hstep
    cases hstep
    exact h.led_pend hpc
  | stamp =>
    simp only [State.ledFxn, hpc] at hstep
    cases hstep
    obtain ⟨hslot, hcounts, hinside, hempty⟩ := h.token.of_led_claims (.inl hpc)
    refine h.stutter rfl rfl rfl rfl (h.waiting.of_eq rfl rfl (by simp [hpc]) Iff.rfl Iff.rfl) ?_
    rw [hslot]
    exact .ledClaims hcounts ⟨rfl, hinside.2⟩ hempty (.inr (.inl rfl))
  | count =>
    simp only [State.ledFxn, hpc] at hstep
    cases hstep
    obtain ⟨hslot, hcounts, hinside, hempty⟩ := h.token.of_led_claims (.inr (.inl hpc))
    refine h.stutter rfl rfl rfl rfl (h.waiting.of_eq rfl rfl (by simp [hpc]) Iff.rfl Iff.rfl) ?_
    rw [hslot]
    exact .ledClaims hcounts ⟨rfl, hinside.2⟩ hempty (.inr (.inr rfl))
  | send =>
    simp only [State.ledFxn, hpc] at hstep
    cases hstep
    exact h.led_send hpc
  | tag =>
    simp only [State.ledFxn, hpc] at hstep
    cases hstep
    obtain ⟨r, hslot, hcounts, hinside, hled, htemp, -⟩ := h.token.of_led_sent (.inl hpc)
    refine h.stutter rfl rfl rfl rfl
      (h.waiting.of_eq rfl rfl (by simp [State.ledAt, hpc]) Iff.rfl Iff.rfl) ?_
    rw [hslot]
    exact .ledSent hcounts ⟨rfl, hinside.2⟩ hled htemp (.inr ⟨rfl, rfl⟩)
  | post =>
    simp only [State.ledFxn, hpc] at hstep
    cases hstep
    obtain ⟨r, hslot, hcounts, hinside, hled, htemp, hn⟩ := h.token.of_led_sent (.inr hpc)
    exact h.post_read hslot hcounts ⟨rfl, hinside.2⟩ ⟨hn hpc, hled, htemp⟩
      (h.waiting.of_eq rfl rfl (by simp [State.ledAt, hpc]) Iff.rfl Iff.rfl) rfl rfl rfl rfl rfl rfl
  | blocked => simp [State.ledFxn, hpc] at hstep
  | done => simp [State.ledFxn, hpc] at hstep

theorem Represents.tempFxn (h : Represents c s) {byte : UInt8} (hstep : s.tempFxn byte = some s') :
    Advances c s' := by
  cases hpc : s.temp.pc with
  | test =>
    simp only [State.tempFxn, hpc, if_pos h.flag] at hstep
    cases hstep
    exact h.temp_outside (by rw [hpc]; rfl) (by simp [hpc]) rfl (by simp)
  | sleep | readMsb | readLsb | convert | stamp =>
    simp only [State.tempFxn, hpc] at hstep
    cases hstep
    exact h.temp_outside (by rw [hpc]; rfl) (by simp [hpc]) rfl (by simp)
  | pend =>
    simp only [State.tempFxn, hpc] at hstep
    cases hstep
    exact h.temp_pend hpc
  | tag =>
    simp only [State.tempFxn, hpc] at hstep
    cases hstep
    obtain ⟨hslot, hcounts, hinside, hempty, -⟩ := h.token.of_temp_claims (.inl hpc)
    refine h.stutter rfl rfl rfl rfl
      (h.waiting.of_eq rfl rfl Iff.rfl (by simp [State.tempAt, hpc]) Iff.rfl) ?_
    rw [hslot]
    exact .tempClaims hcounts ⟨hinside.1, rfl, hinside.2.2⟩ hempty (.inr ⟨rfl, rfl⟩)
  | send =>
    simp only [State.tempFxn, hpc] at hstep
    cases hstep
    exact h.temp_send hpc
  | post =>
    simp only [State.tempFxn, hpc] at hstep
    cases hstep
    obtain ⟨r, hslot, hcounts, hinside, hqueued⟩ := h.token.of_temp_sent hpc
    exact h.post_read hslot hcounts ⟨hinside.1, rfl, hinside.2.2⟩ hqueued
      (h.waiting.of_eq rfl rfl Iff.rfl (by simp [State.tempAt, hpc]) Iff.rfl) rfl rfl rfl rfl rfl rfl
  | blocked => simp [State.tempFxn, hpc] at hstep
  | done => simp [State.tempFxn, hpc] at hstep

theorem loggerLed_ne_loggerTemp : loggerLed ≠ loggerTemp := by decide

/-- The logger goes to the queue that holds the record. -/
theorem Represents.log_choose (h : Represents c s) (hpc : s.log.pc = .choose) :
    Advances c (s.logAt (if s.n = loggerLed then .receiveLed
      else if s.n = loggerTemp then .receiveTemp else .write)) := by
  obtain ⟨r, hslot, hcounts, hinside, hqueued, -⟩ := h.token.of_log_takes (.inl hpc)
  cases r with
  | led r =>
    have hn : s.n = loggerLed := hqueued.1
    rw [if_pos hn]
    refine h.stutter rfl rfl rfl rfl
      (h.waiting.of_eq rfl rfl Iff.rfl Iff.rfl (by simp [State.logAt, hpc])) ?_
    rw [hslot]
    exact .logTakes hcounts ⟨hinside.1, hinside.2.1, rfl⟩ hqueued (.inr (.inl ⟨rfl, hn⟩))
  | temp r =>
    have hn : s.n = loggerTemp := hqueued.1
    rw [if_neg (fun h => loggerLed_ne_loggerTemp (h.symm.trans hn)), if_pos hn]
    refine h.stutter rfl rfl rfl rfl
      (h.waiting.of_eq rfl rfl Iff.rfl Iff.rfl (by simp [State.logAt, hpc])) ?_
    rw [hslot]
    exact .logTakes hcounts ⟨hinside.1, hinside.2.1, rfl⟩ hqueued (.inr (.inr ⟨rfl, hn⟩))

theorem Represents.log_receiveLed (h : Represents c s) (hpc : s.log.pc = .receiveLed) :
    Advances c { s with
      queueLed := (xQueueReceive s.queueLed s.log.ledop).1
      log := { s.log with pc := .formatLed, ledop := (xQueueReceive s.queueLed s.log.ledop).2 } } := by
  obtain ⟨r, hslot, hcounts, hinside, hqueued, hn, -⟩ := h.token.of_log_takes (.inr (.inl hpc))
  cases r with
  | led r =>
    have hq : s.queueLed = [r] := hqueued.2.1
    rw [hq]
    refine h.stutter rfl rfl rfl rfl (h.waiting.of_eq rfl rfl Iff.rfl Iff.rfl (by simp [hpc])) ?_
    rw [hslot]
    exact .logFormats hcounts ⟨hinside.1, hinside.2.1, rfl⟩ ⟨rfl, hqueued.2.2⟩ (.inl ⟨rfl, rfl⟩)
  | temp r => exact absurd ((hn hpc).symm.trans hqueued.1) loggerLed_ne_loggerTemp

theorem Represents.log_receiveTemp (h : Represents c s) (hpc : s.log.pc = .receiveTemp) :
    Advances c { s with
      queueTemp := (xQueueReceive s.queueTemp s.log.tempop).1
      log := { s.log with
        pc := .formatTemp, tempop := (xQueueReceive s.queueTemp s.log.tempop).2 } } := by
  obtain ⟨r, hslot, hcounts, hinside, hqueued, -, hn⟩ := h.token.of_log_takes (.inr (.inr hpc))
  cases r with
  | led r => exact absurd (hqueued.1.symm.trans (hn hpc)) loggerLed_ne_loggerTemp
  | temp r =>
    have hq : s.queueTemp = [r] := hqueued.2.1
    rw [hq]
    refine h.stutter rfl rfl rfl rfl (h.waiting.of_eq rfl rfl Iff.rfl Iff.rfl (by simp [hpc])) ?_
    rw [hslot]
    exact .logFormats hcounts ⟨hinside.1, hinside.2.1, rfl⟩ ⟨hqueued.2.2, rfl⟩
      (.inr (.inl ⟨rfl, rfl⟩))

theorem Represents.logFxn (h : Represents c s) (hstep : s.logFxn = some s') : Advances c s' := by
  cases hpc : s.log.pc with
  | test =>
    simp only [State.logFxn, hpc, if_pos h.flag] at hstep
    cases hstep
    exact h.log_outside (by rw [hpc]; rfl) (by simp [hpc]) rfl (by simp)
  | sleep =>
    simp only [State.logFxn, hpc] at hstep
    cases hstep
    exact h.log_outside (by rw [hpc]; rfl) (by simp [hpc]) rfl (by simp)
  | pend =>
    simp only [State.logFxn, hpc] at hstep
    cases hstep
    exact h.log_pend hpc
  | choose =>
    simp only [State.logFxn, hpc] at hstep
    cases hstep
    exact h.log_choose hpc
  | receiveLed =>
    simp only [State.logFxn, hpc] at hstep
    cases hstep
    exact h.log_receiveLed hpc
  | receiveTemp =>
    simp only [State.logFxn, hpc] at hstep
    cases hstep
    exact h.log_receiveTemp hpc
  | formatLed =>
    simp only [State.logFxn, hpc] at hstep
    cases hstep
    obtain ⟨r, hslot, hcounts, hinside, hempty, hr, -⟩ := h.token.of_log_formats (.inl hpc)
    refine h.stutter rfl rfl rfl rfl
      (h.waiting.of_eq rfl rfl Iff.rfl Iff.rfl (by simp [State.logAt, hpc])) ?_
    rw [hslot, hr hpc]
    exact .logFormats hcounts ⟨hinside.1, hinside.2.1, rfl⟩ hempty (.inr (.inr ⟨rfl, rfl⟩))
  | formatTemp =>
    simp only [State.logFxn, hpc] at hstep
    cases hstep
    obtain ⟨r, hslot, hcounts, hinside, hempty, -, hr, -⟩ :=
      h.token.of_log_formats (.inr (.inl hpc))
    refine h.stutter rfl rfl rfl rfl
      (h.waiting.of_eq rfl rfl Iff.rfl Iff.rfl (by simp [State.logAt, hpc])) ?_
    rw [hslot, hr hpc]
    exact .logFormats hcounts ⟨hinside.1, hinside.2.1, rfl⟩ hempty (.inr (.inr ⟨rfl, rfl⟩))
  | write =>
    simp only [State.logFxn, hpc] at hstep
    cases hstep
    exact h.log_write hpc
  | post =>
    simp only [State.logFxn, hpc] at hstep
    cases hstep
    exact h.log_post hpc
  | blocked => simp [State.logFxn, hpc] at hstep
  | done => simp [State.logFxn, hpc] at hstep

theorem Represents.step (h : Represents c s) (hstep : Step s s') : Advances c s' := by
  obtain ⟨e, he⟩ := hstep
  cases e with
  | led => exact h.ledFxn he
  | temp byte => exact h.tempFxn he
  | log => exact h.logFxn he
  | tick =>
    cases he
    exact h.stutter rfl rfl rfl rfl (h.waiting.of_eq rfl rfl Iff.rfl Iff.rfl Iff.rfl) h.token

theorem exists_represents_step (h : ∃ c, Represents c s) (hstep : Step s s') :
    ∃ c, Represents c s' := by
  obtain ⟨c, hrep⟩ := h
  obtain ⟨c', -, hrep'⟩ := hrep.step hstep
  exact ⟨c', hrep'⟩

end Steps

/-- Every run of the tasks is a run of the channel. -/
theorem exists_channel_run {s : State} (h : Reachable s) :
    ∃ c, ReflTransGen (OneSlotChannel.Step Record.producer) OneSlotChannel.initial c ∧
      Represents c s := by
  obtain ⟨dataLed, ledop, dataTemp, tempop, data, hrun⟩ := h
  exact RunRules.run_stuttering (fun _ _ _ hrep hstep => hrep.step hstep)
    (represents_initial dataLed ledop dataTemp tempop data) hrun

end EmbeddedSoftware.LoggerTasks
