import EmbeddedSoftware.MessageQueues
import EmbeddedSoftware.StructLayout
import Mathlib.Data.List.Induction

/-!
# The layouts of the messages

The programs of the queue declare `struct data` with different types of `led`. What is the upper
part of a member in `q1` is padding in `hwq2`. A program sends all bytes of its variable, and the
other one reads them through its own declaration. Both see the same values, since the values of
the LED fit in one byte and no statement of `hwq2` stores into its padding.
-/

namespace EmbeddedSoftware.MessageQueues

open Relation RunRules DrawnRecords ByteLayout StructLayout

inductive Member where
  | str | len | led
  deriving DecidableEq

def Program.other : Program → Program
  | .q1 => .hwq2
  | .hwq2 => .q1

/-- `char str[50]`, `uint32_t len`, and `int led` or `uint8_t led`. -/
def Program.type : Program → Member → CType
  | _, .str => ⟨strSize, 1⟩
  | _, .len => ⟨4, 4⟩
  | .q1, .led => ⟨4, 4⟩
  | .hwq2, .led => ⟨1, 1⟩

def Program.members (p : Program) : List CType := [Member.str, .len, .led].map p.type

def Program.sizeof (p : Program) : ℕ := structSize p.members

def Program.offset (p : Program) (m : Member) : ℕ :=
  (offsets p.members).getD ([Member.str, .len, .led].idxOf m) 0

def Program.ledStore : Program → Led → List UInt8
  | .q1, led => le32 led.value
  | .hwq2, led => [⟨led.value.setWidth 8⟩]

/-- The number in the member `led`, which has a sign in `q1`. -/
def Program.ledNumber : (p : Program) → BitVec p.width → ℤ
  | .q1, led => led.toInt
  | .hwq2, led => led.toNat

structure Fields where
  str : List UInt8
  len : BitVec 32
  led : ℤ
  deriving DecidableEq

def Program.read (p : Program) (m : List UInt8) : Fields where
  str := load (p.offset .str) (p.type .str).size m
  len := ofLe32 (load (p.offset .len) (p.type .len).size m)
  led := p.ledNumber (p.ofLedBytes (load (p.offset .led) (p.type .led).size m))

/-- The memory of a variable of type `struct data`. -/
structure Image (p : Program) where
  bytes : List UInt8
  length_bytes : bytes.length = p.sizeof

namespace Image

variable {p : Program}

def static (p : Program) : Image p := ⟨List.replicate p.sizeof 0, List.length_replicate⟩

def assign (x : Image p) (m : Member) (v : List UInt8) : Image p where
  bytes := store (p.offset m) v x.bytes
  length_bytes := by rw [length_store, x.length_bytes]

/-- `strcpy(object.str,stringarray[randno]); object.len = strlen(stringarray[randno]);` -/
def setString (x : Image p) (k : Fin 5) : Image p :=
  (x.assign .str (stringarray k ++ [0])).assign .len
    (le32 (BitVec.ofNat 32 (stringarray k).length))

def draw (x : Image p) (b : Branch) : Image p :=
  let y := b.led.elim x fun led => x.assign .led (p.ledStore led)
  b.str.elim y y.setString

def drawn (p : Program) (draws : List (Fin 10)) : Image p :=
  draws.foldl (fun x g => x.draw (parentBranch g)) (static p)

end Image

def Data.drawn (p : Program) (draws : List (Fin 10)) : Data p :=
  draws.foldl (fun d g => d.draw (parentBranch g)) (.zero p)

def Data.fields {p : Program} (d : Data p) : Fields := ⟨d.str, d.len, p.ledNumber d.led⟩

def msgsize : ℕ := 100

section Layout

variable {p : Program}

theorem Program.offset_str (p : Program) : p.offset .str = 0 := by cases p <;> rfl

theorem Program.offset_len (p : Program) : p.offset .len = 52 := by cases p <;> rfl

theorem Program.offset_led (p : Program) : p.offset .led = 56 := by cases p <;> rfl

theorem Program.sizeof_eq (p : Program) : p.sizeof = 60 := by cases p <;> rfl

theorem Data.length_front (d : Data p) : (d.str ++ [0, 0]).length = 52 := by
  rw [List.length_append, d.length_str]
  rfl

theorem Data.length_body (d : Data p) : (d.str ++ [0, 0] ++ le32 d.len).length = 56 := by
  rw [List.length_append, d.length_front, length_le32]

theorem Data.length_bytes (d : Data p) : d.bytes.length = p.sizeof := by
  rw [bytes, List.length_append, d.length_body, p.sizeof_eq]
  cases p <;> rfl

theorem Data.store_str (d : Data p) (k : Fin 5) :
    store (p.offset .str) (stringarray k ++ [0]) d.bytes = (d.strcpy k).bytes := by
  have hfits : (stringarray k ++ [0]).length ≤ d.str.length := by
    have hlt := length_stringarray_lt k
    rw [List.length_append, List.length_singleton, d.length_str, strSize]
    omega
  rw [p.offset_str, bytes, List.append_assoc, List.append_assoc]
  change overlay _ (d.str ++ _) = _
  rw [overlay_append hfits, bytes, List.append_assoc, List.append_assoc]
  rfl

theorem Data.store_len (d : Data p) (n : BitVec 32) :
    store (p.offset .len) (le32 n) d.bytes = { d with len := n }.bytes := by
  have hword : overlay (le32 n) (le32 d.len) = le32 n := overlay_eq_self rfl
  have hfits : (le32 n).length ≤ (le32 d.len).length := Nat.le_refl 4
  rw [p.offset_len, bytes, List.append_assoc, store_append d.length_front, overlay_append hfits,
    hword, ← List.append_assoc]
  rfl

theorem Program.overlay_ledStore (p : Program) (led : Led) (old : BitVec p.width) :
    overlay (p.ledStore led) (p.ledBytes old) = p.ledBytes (led.value.setWidth p.width) := by
  cases p with
  | q1 => exact (overlay_eq_self rfl).trans (congrArg le32 (BitVec.setWidth_eq _).symm)
  | hwq2 => rfl

theorem Data.store_led (d : Data p) (led : Led) : store (p.offset .led) (p.ledStore led) d.bytes =
    { d with led := led.value.setWidth p.width }.bytes := by
  rw [p.offset_led, bytes, store_append d.length_body, p.overlay_ledStore, bytes]

/-- The stores of a branch do to the memory what the branch does to the record. -/
theorem Image.bytes_draw {x : Image p} {d : Data p} (h : x.bytes = d.bytes) (b : Branch) :
    (x.draw b).bytes = (d.draw b).bytes := by
  obtain ⟨led, str⟩ := b
  have hled : (led.elim x fun led => x.assign .led (p.ledStore led)).bytes =
      (d.draw ⟨led, none⟩).bytes := by
    cases led with
    | none => exact h
    | some led =>
      change store (p.offset .led) (p.ledStore led) x.bytes = _
      rw [h, d.store_led]
      rfl
  cases str with
  | none => exact hled
  | some k =>
    have hstores : (x.draw ⟨led, some k⟩).bytes =
        store (p.offset .len) (le32 (BitVec.ofNat 32 (stringarray k).length))
          (store (p.offset .str) (stringarray k ++ [0])
            (led.elim x fun led => x.assign .led (p.ledStore led)).bytes) := rfl
    rw [hstores, hled, Data.store_str, Data.store_len]
    rfl

theorem Image.bytes_static (p : Program) : (static p).bytes = (Data.zero p).bytes := by
  cases p <;> decide

theorem Image.bytes_drawn (p : Program) (draws : List (Fin 10)) :
    (drawn p draws).bytes = (Data.drawn p draws).bytes := by
  induction draws using List.reverseRecOn with
  | nil => exact bytes_static p
  | append_singleton draws g ih =>
    rw [drawn, Data.drawn, List.foldl_concat, List.foldl_concat]
    exact bytes_draw ih _

end Layout

section Reading

variable {p : Program}

/-- The member `led` holds a value of the enumeration. -/
def Data.LedKnown (d : Data p) : Prop := ∃ led : Led, d.led = led.value.setWidth p.width

theorem Data.LedKnown.draw {d : Data p} (h : d.LedKnown) (b : Branch) : (d.draw b).LedKnown := by
  obtain ⟨led, str⟩ := b
  cases led with
  | none => exact h
  | some led => exact ⟨led, rfl⟩

theorem Data.ledKnown_drawn (p : Program) (draws : List (Fin 10)) : (drawn p draws).LedKnown := by
  induction draws using List.reverseRecOn with
  | nil => exact ⟨.off, by cases p <;> rfl⟩
  | append_singleton draws g ih =>
    rw [drawn, List.foldl_concat]
    exact ih.draw _

/-- The one byte of `hwq2` and the four of `q1` are read as the same number, from the bytes of
either program. -/
theorem Program.ledNumber_take (p reader : Program) (led : Led) :
    reader.ledNumber (reader.ofLedBytes
      ((p.ledBytes (led.value.setWidth p.width)).take (reader.type .led).size)) =
      p.ledNumber (led.value.setWidth p.width) := by
  cases p <;> cases reader <;> cases led <;> rfl

/-- Any of the programs reads the values of the record from its bytes. -/
theorem Data.LedKnown.read_bytes {d : Data p} (h : d.LedKnown) (reader : Program) :
    reader.read d.bytes = d.fields := by
  obtain ⟨led, hled⟩ := h
  have hstr : load (reader.offset .str) (reader.type .str).size d.bytes = d.str := by
    rw [reader.offset_str, bytes, List.append_assoc, List.append_assoc]
    exact List.take_left' d.length_str
  have hlen : ofLe32 (load (reader.offset .len) (reader.type .len).size d.bytes) = d.len := by
    rw [reader.offset_len, bytes, List.append_assoc, load_append d.length_front]
    change ofLe32 ((le32 d.len ++ _).take (le32 d.len).length) = _
    rw [List.take_left, ← List.append_nil (le32 d.len), ofLe32_le32_append]
  have hnumber : reader.ledNumber (reader.ofLedBytes
      (load (reader.offset .led) (reader.type .led).size d.bytes)) = p.ledNumber d.led := by
    rw [reader.offset_led, bytes, load_append d.length_body, hled, p.ledNumber_take]
  rw [Program.read, hstr, hlen, hnumber, fields]

end Reading

/-- The two structures of the queue have the same size, which fits in a message, and either program
reads the same values from the bytes of a record. -/
theorem layouts_agree (p : Program) (draws : List (Fin 10)) :
    p.other.read (Image.drawn p draws).bytes = p.read (Image.drawn p draws).bytes ∧
    p.sizeof = p.other.sizeof ∧ p.sizeof ≤ msgsize := by
  have hknown := Data.ledKnown_drawn p draws
  refine ⟨?_, ?_, ?_⟩
  · rw [Image.bytes_drawn, hknown.read_bytes, hknown.read_bytes]
  · rw [Program.sizeof_eq, Program.sizeof_eq]
  · rw [Program.sizeof_eq]
    decide

section Sent

variable {p : Program}

theorem Program.ofLedBytes_take (p : Program) (l : List UInt8) :
    p.ofLedBytes (l.take (p.type .led).size) = p.ofLedBytes l := by
  cases p with
  | q1 => exact ofLe32_take l
  | hwq2 => cases l <;> rfl

theorem Data.fields_receive (d : Data p) {m : List UInt8} (h : m.length = p.sizeof) :
    (d.receive m).fields = p.read m := by
  have himage : overlay m d.bytes = m := overlay_eq_self (h.trans d.length_bytes.symm)
  have hstr : (d.receive m).str = load (p.offset .str) (p.type .str).size m := by
    rw [p.offset_str]
    exact congrArg (List.take strSize) himage
  have hlen : (d.receive m).len = ofLe32 (load (p.offset .len) (p.type .len).size m) := by
    rw [p.offset_len]
    change ofLe32 ((overlay m d.bytes).drop 52) = ofLe32 ((m.drop 52).take 4)
    rw [himage, ofLe32_take]
  have hled : (d.receive m).led = p.ofLedBytes (load (p.offset .led) (p.type .led).size m) := by
    rw [p.offset_led, load, p.ofLedBytes_take]
    change p.ofLedBytes ((overlay m d.bytes).drop 56) = _
    rw [himage]
  rw [fields, hstr, hlen, hled, Program.read]

/-- The message holds the bytes of a record that one of the programs can come to. -/
def IsRecord (m : List UInt8) : Prop := ∃ p draws, m = (Image.drawn p draws).bytes

theorem Process.exec_keeps_records {draws : ℕ → Fin 10} {x x' : Process p}
    {queue queue' : List (List UInt8)} (he : x.exec draws queue = some (x', queue'))
    (hobject : ∃ gs, x.object = .drawn p gs) (hqueue : ∀ m ∈ queue, IsRecord m) :
    (∃ gs, x'.object = .drawn p gs) ∧ ∀ m ∈ queue', IsRecord m := by
  obtain ⟨gs, hgs⟩ := hobject
  rw [Process.exec.eq_def] at he
  cases hpc : x.pc with
  | draw =>
    simp only [hpc] at he
    cases he
    refine ⟨⟨gs ++ [draws x.i], ?_⟩, hqueue⟩
    simp only [Data.drawn, List.foldl_concat]
    rw [hgs, Data.drawn]
  | send =>
    simp only [hpc] at he
    split at he <;> cases he
    refine ⟨⟨gs, hgs⟩, ?_⟩
    intro m hm
    obtain hold | hnew := List.mem_append.mp hm
    · exact hqueue m hold
    · refine ⟨p, gs, ?_⟩
      rw [List.mem_singleton.mp hnew, hgs, Image.bytes_drawn]
  | receive =>
    simp only [hpc] at he
    split at he <;> cases he
    exact ⟨⟨gs, hgs⟩, fun m hm => hqueue m (List.mem_cons_of_mem _ hm)⟩
  | sendLoop =>
    simp only [hpc] at he
    split at he <;> cases he
    · exact ⟨⟨gs, hgs⟩, hqueue⟩
    · refine ⟨⟨gs, ?_⟩, hqueue⟩
      cases p <;> exact hgs
  | readLoop =>
    simp only [hpc] at he
    split at he <;> cases he
    · exact ⟨⟨gs, hgs⟩, hqueue⟩
    · refine ⟨⟨gs, ?_⟩, hqueue⟩
      cases p <;> exact hgs
  | sendMsg =>
    simp only [hpc] at he
    cases he
    exact ⟨⟨gs, hgs⟩, hqueue⟩
  | getMsg =>
    simp only [hpc] at he
    cases he
    exact ⟨⟨gs, hgs⟩, hqueue⟩
  | done => simp [hpc] at he

/-- The programs hold and have sent records that their draws lead to. -/
structure Records (s : System) : Prop where
  q1 : ∃ gs, s.q1.object = .drawn .q1 gs
  hwq2 : ∃ gs, s.hwq2.object = .drawn .hwq2 gs
  queue : ∀ m ∈ s.queue, IsRecord m

theorem records_of_run {draws : Program → ℕ → Fin 10} {s : System} (hrun : Run draws initial s) :
    Records s := by
  have hinitial : Records initial := ⟨⟨[], rfl⟩, ⟨[], rfl⟩, fun m hm => by cases hm⟩
  refine run_invariant ?_ hinitial hrun
  rintro s s' ⟨hq1, hhwq2, hqueue⟩ ⟨p, he⟩
  cases p with
  | q1 =>
    obtain ⟨r, hexec, rfl⟩ := Option.map_eq_some_iff.mp he
    obtain ⟨hobject, hsent⟩ := Process.exec_keeps_records hexec hq1 hqueue
    exact ⟨hobject, hhwq2, hsent⟩
  | hwq2 =>
    obtain ⟨r, hexec, rfl⟩ := Option.map_eq_some_iff.mp he
    obtain ⟨hobject, hsent⟩ := Process.exec_keeps_records hexec hhwq2 hqueue
    exact ⟨hq1, hobject, hsent⟩

/-- Whatever is in the queue in any run, whoever receives it and whatever they had before: they
have then the values of a record of its sender. -/
theorem received_of_run {draws : Program → ℕ → Fin 10} {s : System} (hrun : Run draws initial s)
    {m : List UInt8} (hm : m ∈ s.queue) : ∃ sender gs, ∀ (reader : Program) (d : Data reader),
      (d.receive m).fields = (Data.drawn sender gs).fields := by
  obtain ⟨sender, gs, rfl⟩ := (records_of_run hrun).queue m hm
  refine ⟨sender, gs, ?_⟩
  intro reader d
  have hlength : (Image.drawn sender gs).bytes.length = reader.sizeof := by
    rw [Image.length_bytes, Program.sizeof_eq, Program.sizeof_eq]
  rw [d.fields_receive hlength, Image.bytes_drawn, (Data.ledKnown_drawn sender gs).read_bytes]

end Sent

end EmbeddedSoftware.MessageQueues
