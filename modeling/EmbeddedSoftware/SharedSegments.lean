import EmbeddedSoftware.DrawnRecords

/-!
# The exchange over shared memory

Two segments are shared between parent and child. `send_data` copies the record of the caller
into a segment. `receive_data` has the same direction: it copies `readdata` into the segment,
so nothing ever comes out, and the record that was there is lost.
-/

namespace EmbeddedSoftware.SharedSegments

open DrawnRecords ByteLayout

def memorySize : ℕ := 200

structure Segment where
  bytes : List UInt8
  length_bytes : bytes.length = memorySize

def Segment.memcpy (seg : Segment) (r : Record) : Segment :=
  ⟨overlay r.bytes seg.bytes, by rw [length_overlay, seg.length_bytes]⟩

/-- The segments and the variables of both processes. The field `sent` is no variable: it is
the record most recently sent to a segment. -/
structure State where
  mem : Fin 2 → Segment
  object : Role → Record
  readdata : Role → Record
  sent : Fin 2 → Option Record

inductive Event where
  | draw (role : Role) (getrand : Fin 10)
  | send (role : Role) (m : Fin 2)
  | receive (role : Role) (m : Fin 2)

def zeroRecord : Record := ⟨0, 0, 0⟩

/-- The segments may hold anything before. -/
def initial (mem : Fin 2 → Segment) : State where
  mem := mem
  object := fun _ => Record.object
  readdata := fun _ => zeroRecord
  sent := fun _ => none

namespace State

def sendData (s : State) (role : Role) (m : Fin 2) : State :=
  { s with
    mem := Function.update s.mem m ((s.mem m).memcpy (s.object role))
    sent := Function.update s.sent m (some (s.object role)) }

def receiveData (s : State) (role : Role) (m : Fin 2) : State :=
  { s with mem := Function.update s.mem m ((s.mem m).memcpy (s.readdata role)) }

def draw (lit : Literals) (s : State) (role : Role) (getrand : Fin 10) : State :=
  { s with
    object := Function.update s.object role ((s.object role).draw lit (role.branch getrand)) }

def exec (lit : Literals) (s : State) : Event → State
  | .draw role getrand => s.draw lit role getrand
  | .send role m => s.sendData role m
  | .receive role m => s.receiveData role m

/-- A call of `receive_data` does its job: the segment stays as it is and `readdata` is the
record most recently sent there, if there is one. -/
def Receives (s : State) (role : Role) (m : Fin 2) : Prop :=
  (s.receiveData role m).mem m = s.mem m ∧
    ∀ r, s.sent m = some r → (s.receiveData role m).readdata role = r

/-- The record most recently sent is zero. Before the first one, the segment starts with zeros. -/
def HoldsZero (s : State) (m : Fin 2) : Prop :=
  match s.sent m with
  | some r => r = zeroRecord
  | none => (s.mem m).bytes.take recordSize = zeroRecord.bytes

end State

def AllReceive (lit : Literals) : State → List Event → Prop
  | _, [] => True
  | s, .receive role m :: es =>
    s.Receives role m ∧ AllReceive lit (s.exec lit (.receive role m)) es
  | s, e :: es => AllReceive lit (s.exec lit e) es

def AllHoldZero (lit : Literals) : State → List Event → Prop
  | _, [] => True
  | s, .receive role m :: es =>
    s.HoldsZero m ∧ AllHoldZero lit (s.exec lit (.receive role m)) es
  | s, e :: es => AllHoldZero lit (s.exec lit e) es

section Calls

variable {lit : Literals} {s : State} {role : Role} {m : Fin 2}

theorem Segment.take_memcpy (seg : Segment) (r : Record) :
    (seg.memcpy r).bytes.take recordSize = r.bytes := by
  have hlength := seg.length_bytes
  rw [memcpy, take_overlay (Nat.le_refl recordSize) (by rw [hlength]; decide)]
  exact List.take_of_length_le (Nat.le_refl recordSize)

theorem Segment.memcpy_eq_iff (seg : Segment) (r : Record) :
    seg.memcpy r = seg ↔ seg.bytes.take recordSize = r.bytes := by
  have hle : r.bytes.length ≤ seg.bytes.length := by
    rw [seg.length_bytes, Record.length_bytes]
    decide
  rw [← Record.length_bytes r, ← overlay_eq_iff hle]
  constructor
  · intro h
    exact congrArg Segment.bytes h
  · intro h
    cases seg
    simpa [memcpy] using h

/-- A segment starts with the record most recently sent to it, and `readdata` is zero. -/
structure Kept (s : State) : Prop where
  readdata : ∀ role, s.readdata role = zeroRecord
  sent : ∀ m r, s.sent m = some r → (s.mem m).bytes.take recordSize = r.bytes

theorem kept_initial (mem : Fin 2 → Segment) : Kept (initial mem) :=
  ⟨fun _ => rfl, fun _ _ h => by cases h⟩

theorem Kept.send (h : Kept s) : Kept (s.sendData role m) := by
  refine ⟨h.readdata, ?_⟩
  intro k r hr
  simp only [State.sendData] at hr ⊢
  by_cases hk : k = m
  · subst hk
    rw [Function.update_self] at hr ⊢
    cases hr
    exact Segment.take_memcpy _ _
  · rw [Function.update_of_ne hk] at hr ⊢
    exact h.sent k r hr

theorem Kept.receives_iff (h : Kept s) : s.Receives role m ↔ s.HoldsZero m := by
  have hmem : (s.receiveData role m).mem m = s.mem m ↔
      (s.mem m).bytes.take recordSize = zeroRecord.bytes := by
    simp only [State.receiveData, Function.update_self, h.readdata role]
    exact Segment.memcpy_eq_iff _ _
  have hread : (s.receiveData role m).readdata role = zeroRecord := h.readdata role
  rw [State.Receives, State.HoldsZero, hmem, hread]
  cases hsent : s.sent m with
  | none => simp
  | some r =>
    rw [h.sent m r hsent]
    constructor
    · rintro ⟨-, hr⟩
      exact (hr r rfl).symm
    · rintro rfl
      exact ⟨rfl, fun r' hr' => Option.some.inj hr'⟩

/-- A call that finds a zero record writes the same bytes again. -/
theorem Kept.receive (h : Kept s) (hzero : s.HoldsZero m) : Kept (s.receiveData role m) := by
  refine ⟨h.readdata, ?_⟩
  intro k r hr
  have hmem : (s.receiveData role m).mem m = s.mem m := (h.receives_iff.mpr hzero).1
  by_cases hk : k = m
  · subst hk
    rw [hmem]
    exact h.sent k r hr
  · simp only [State.receiveData, Function.update_of_ne hk]
    exact h.sent k r hr

theorem Kept.allReceive_iff (h : Kept s) (es : List Event) :
    AllReceive lit s es ↔ AllHoldZero lit s es := by
  induction es generalizing s with
  | nil => rfl
  | cons e es ih =>
    cases e with
    | draw role getrand => exact ih ⟨h.readdata, h.sent⟩
    | send role m => exact ih h.send
    | receive role m =>
      simp only [AllReceive, AllHoldZero]
      rw [h.receives_iff]
      apply and_congr_right
      intro hzero
      exact ih (h.receive hzero)

end Calls

/-- The calls of `receive_data` do their job exactly when all the records they should receive are
zero. -/
theorem segments_receive_iff (lit : Literals) (mem : Fin 2 → Segment) (es : List Event) :
    AllReceive lit (initial mem) es ↔ AllHoldZero lit (initial mem) es :=
  (kept_initial mem).allReceive_iff es

/-- A process never gets anything else than zeros, whatever the calls. -/
theorem readdata_foldl_exec (lit : Literals) (mem : Fin 2 → Segment) (es : List Event)
    (role : Role) : (es.foldl (State.exec lit) (initial mem)).readdata role = zeroRecord := by
  have hkeep : ∀ s : State, (es.foldl (State.exec lit) s).readdata role = s.readdata role := by
    induction es with
    | nil => exact fun _ => rfl
    | cons e es ih =>
      intro s
      rw [List.foldl_cons, ih]
      cases e <;> rfl
  exact hkeep (initial mem)

def freshSegment : Segment := ⟨List.replicate memorySize 0, rfl⟩

/-- The parent has drawn 0 and has sent its record to the first segment. -/
def firstSent : State :=
  [Event.draw .parent (getrand 0), .send .parent 0].foldl (State.exec .from4096)
    (initial fun _ => freshSegment)

/-- The child that receives it gets nothing and destroys it. -/
theorem receive_destroys_record :
    firstSent.sent 0 = some ⟨4096, 3, 2⟩ ∧
    (firstSent.receiveData .child 0).readdata .child = ⟨0, 0, 0⟩ ∧
    ((firstSent.receiveData .child 0).mem 0).bytes.take 12 ≠ (firstSent.mem 0).bytes.take 12 := by
  refine ⟨rfl, rfl, ?_⟩
  decide +kernel

end EmbeddedSoftware.SharedSegments
