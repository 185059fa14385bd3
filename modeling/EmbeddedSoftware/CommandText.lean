import EmbeddedSoftware.CStrings
import EmbeddedSoftware.PacketDetails

/-!
# Commands as text

A command travels as the text the user typed, and the server reads whatever datagram
reaches its command loop as such a text. A put packet is no exception: its first four
bytes are its index and the four after them are zero, so its text is at most the bytes of
its index.
-/

namespace EmbeddedSoftware.Netsys

open ByteLayout CStrings

inductive Verb where
  | get | put | delete | ls | exit
  deriving DecidableEq, Repr

namespace Verb

def text : Verb → List UInt8
  | .get => ascii "get"
  | .put => ascii "put"
  | .delete => ascii "delete"
  | .ls => ascii "ls"
  | .exit => ascii "exit"

def ofText (t : List UInt8) : Option Verb :=
  if t = text .get then some .get
  else if t = text .put then some .put
  else if t = text .delete then some .delete
  else if t = text .ls then some .ls
  else if t = text .exit then some .exit
  else none

theorem ofText_text (v : Verb) : ofText v.text = some v := by
  cases v <;> decide

theorem ofText_eq_some {t : List UInt8} {v : Verb} : ofText t = some v ↔ t = v.text := by
  constructor
  · intro h
    unfold ofText at h
    split at h
    · next ht => cases h; exact ht
    split at h
    · next ht => cases h; exact ht
    split at h
    · next ht => cases h; exact ht
    split at h
    · next ht => cases h; exact ht
    split at h
    · next ht => cases h; exact ht
    · cases h
  · rintro rfl
    exact ofText_text v

end Verb

def space : UInt8 := 32

/-- The verb that a command text starts with. -/
def verbOf (text : List UInt8) : Option Verb := Verb.ofText (headToken space text)

theorem verbOf_of_notMem {t : List UInt8} {v : Verb} (hs : space ∉ t) :
    verbOf t = some v ↔ t = v.text := by
  rw [verbOf, headToken_of_notMem hs, Verb.ofText_eq_some]

/-- The text in `buffer` after `bzero` and `recvfrom(sockfd, buffer, BUFSIZE, …)`. -/
def bufferText (d : Datagram) : List UInt8 := cstr (overlay d (List.replicate bufsize 0))

theorem cstr_append_replicate (s : List UInt8) (n : ℕ) :
    cstr (s ++ List.replicate n 0) = cstr s := by
  cases n with
  | zero => simp
  | succ n => rw [List.replicate_succ, cstr_append_zero]

theorem bufferText_eq (d : Datagram) : bufferText d = cstr (d.take bufsize) := by
  rw [bufferText, overlay, List.length_replicate, List.drop_replicate, cstr_append_replicate]

theorem bufferText_of_length_le {d : Datagram} (h : d.length ≤ bufsize) :
    bufferText d = cstr d := by
  rw [bufferText_eq, List.take_of_length_le h]

/-- The verb that the command loop of the server dispatches a datagram to. -/
def dispatchVerb (d : Datagram) : Option Verb := verbOf (bufferText d)

/-- A line that `gets(cmd)` stores without leaving the array. -/
structure Line where
  chars : List UInt8
  noZero : 0 ∉ chars
  short : chars.length < 100

namespace Line

/-- The verb and the file name that the client reads off the line. -/
def verb (line : Line) : Option Verb := verbOf line.chars

def fname (line : Line) : Option (List UInt8) := (nextToken space line.chars).map cstr

def store (line : Line) (cmd : List.Vector UInt8 100) : List.Vector UInt8 100 :=
  ⟨overlay (line.chars ++ [0]) cmd.toList, by simp⟩

/-- The server reads the line as it was typed, whatever the array held before. -/
theorem bufferText_store (line : Line) (cmd : List.Vector UInt8 100) :
    bufferText (line.store cmd).toList = line.chars := by
  have hshort := line.short
  have hle : (line.store cmd).toList.length ≤ bufsize := by
    simp only [List.Vector.toList_length]
    decide
  have htake : (line.chars ++ [0]).take cmd.toList.length = line.chars ++ [0] :=
    List.take_of_length_le (by simp; omega)
  rw [bufferText_of_length_le hle]
  simp only [store, List.Vector.toList_mk, overlay, htake, List.append_assoc,
    List.singleton_append, cstr_append_zero]
  exact cstr_of_notMem line.noZero

theorem dispatchVerb_store (line : Line) (cmd : List.Vector UInt8 100) :
    dispatchVerb (line.store cmd).toList = line.verb := by
  rw [dispatchVerb, bufferText_store, verb]

theorem length_fname_lt {line : Line} {name : List UInt8} (h : line.fname = some name) :
    name.length < 100 := by
  obtain ⟨mem, hmem, rfl⟩ := Option.map_eq_some_iff.mp h
  exact (length_cstr_nextToken_le hmem).trans_lt line.short

theorem dispatchVerb_fname {line : Line} {name : List UInt8} (h : line.fname = some name)
    {v : Verb} : dispatchVerb name = some v ↔ name = v.text := by
  have hl : name.length ≤ bufsize := (length_fname_lt h).le.trans (by decide)
  obtain ⟨mem, hmem, rfl⟩ := Option.map_eq_some_iff.mp h
  rw [dispatchVerb, bufferText_of_length_le hl, cstr_of_notMem (zero_notMem_cstr mem)]
  exact verbOf_of_notMem (notMem_cstr_nextToken hmem)

end Line

/-- The verb that the bytes of an index spell. -/
def indexVerb (i : BitVec 32) : Option Verb := verbOf (cstr (le32 i))

/-- A packet whose acknowledgement field is zero reads as the bytes of its index. -/
theorem bufferText_toBytes {p : PacketDetails} (h : p.pcktAck = 0) :
    bufferText p.toBytes = cstr (le32 p.pcktIndex) := by
  have hzero : le32 (0 : BitVec 32) = [0, 0, 0, 0] := by decide
  rw [bufferText_eq, PacketDetails.toBytes, h, hzero]
  exact cstr_take_append_zero _ (by rw [length_le32]; decide)

theorem dispatchVerb_toBytes {p : PacketDetails} (h : p.pcktAck = 0) :
    dispatchVerb p.toBytes = indexVerb p.pcktIndex := by
  rw [dispatchVerb, bufferText_toBytes h, indexVerb]

theorem bufferText_toBytes_of_mem {p : PacketDetails} (h : 0 ∈ le32 p.pcktIndex) :
    bufferText p.toBytes = cstr (le32 p.pcktIndex) := by
  have htake : p.toBytes.take bufsize =
      le32 p.pcktIndex ++ (p.toBytes.drop 4).take (bufsize - 4) := by
    rw [PacketDetails.toBytes, List.drop_left' (length_le32 _), List.take_append,
      List.take_of_length_le (by rw [length_le32]; decide), length_le32]
  rw [bufferText_eq, htake, cstr_append_of_mem h]

private theorem length_text_le {i : BitVec 32} {v : Verb} (h : indexVerb i = some v) :
    v.text.length ≤ (cstr (le32 i)).length ∧ (cstr (le32 i)).length ≤ 4 := by
  rw [← Verb.ofText_eq_some.mp h]
  exact ⟨length_headToken_le _, length_cstr_le _⟩

theorem indexVerb_ne_delete (i : BitVec 32) : indexVerb i ≠ some .delete := by
  intro h
  have hle := length_text_le h
  have : (Verb.text .delete).length = 6 := by decide
  omega

/-- An index that spells `get` or `put` leaves no room for a file name. -/
theorem nextToken_of_indexVerb {i : BitVec 32} {v : Verb} (h : indexVerb i = some v)
    (hv : 3 ≤ v.text.length) : nextToken space (cstr (le32 i)) = none := by
  have hhead := Verb.ofText_eq_some.mp h
  have hle := length_cstr_le (le32 i)
  rw [length_le32] at hle
  exact nextToken_eq_none (by rw [hhead]; omega)

private theorem le32_of_lt {x : BitVec 32} (h : x.toNat < 29548) :
    ∃ b₀ b₁, le32 x = [b₀, b₁] ++ 0 :: [0] := by
  refine ⟨⟨x.extractLsb' 0 8⟩, ⟨x.extractLsb' 8 8⟩, ?_⟩
  have h₂ : x.extractLsb' 16 8 = 0#8 := by
    apply BitVec.eq_of_toNat_eq
    simp only [BitVec.extractLsb'_toNat, Nat.shiftRight_eq_div_pow, BitVec.toNat_ofNat]
    omega
  have h₃ : x.extractLsb' 24 8 = 0#8 := by
    apply BitVec.eq_of_toNat_eq
    simp only [BitVec.extractLsb'_toNat, Nat.shiftRight_eq_div_pow, BitVec.toNat_ofNat]
    omega
  simp only [le32, h₂, h₃]
  rfl

/-- The least index that spells a verb is the one of `ls`. -/
theorem le_of_indexVerb {x : BitVec 32} {v : Verb} (h : indexVerb x = some v) :
    29548 ≤ x.toNat := by
  by_contra hlt
  obtain ⟨b₀, b₁, hx⟩ := le32_of_lt (Nat.lt_of_not_le hlt)
  have hhead : headToken space (cstr [b₀, b₁]) = v.text := by
    rw [← cstr_append_zero [b₀, b₁] [0], ← hx]
    exact Verb.ofText_eq_some.mp h
  have hprefix : v.text <+: [b₀, b₁] := by
    rw [← hhead]
    exact List.IsPrefix.trans ⟨_, headToken_append_behindHead space _⟩ (List.takeWhile_prefix _)
  have hle : v.text.length ≤ 2 := hprefix.length_le
  cases v with
  | ls =>
    have hls : ascii "ls" = [b₀, b₁] := hprefix.eq_of_length rfl
    have hls' : [b₀, b₁] = [108, 115] := by rw [← hls]; decide
    have hval : x = ofLe32 [108, 115, 0, 0] := by
      rw [← ofLe32_le32_append x [], hx, hls']
      rfl
    rw [hval] at hlt
    exact hlt (by decide)
  | get => exact absurd hle (by decide)
  | put => exact absurd hle (by decide)
  | delete => exact absurd hle (by decide)
  | exit => exact absurd hle (by decide)

end EmbeddedSoftware.Netsys
