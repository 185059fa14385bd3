import EmbeddedSoftware.ByteLayout
import Mathlib.Data.Vector.Basic
import Mathlib.Data.List.TakeWhile

/-!
# `Packet_Details` and its image on the wire

Client and server declare the same structure of three `int` fields and a data buffer,
without padding, and hand its bytes to `sendto` and `recvfrom` as they lie in memory.
-/

namespace EmbeddedSoftware.Netsys

open ByteLayout

def bufsize : ℕ := 1024

def key : UInt8 := 10

abbrev Datagram := List UInt8

/-- `encode`: the bytes below `sizeLen` are xored with the key. The loop of the source goes
on past the end of a shorter buffer; `PacketDetails.overruns` names that case. -/
def encode (tempBuf : List UInt8) (sizeLen : ℤ) (key : UInt8) : List UInt8 :=
  tempBuf.mapIdx fun i b => if (i : ℤ) < sizeLen then b ^^^ key else b

@[simp] theorem length_encode (l : List UInt8) (n : ℤ) (k : UInt8) :
    (encode l n k).length = l.length := by simp [encode]

theorem encode_natCast (l : List UInt8) (n : ℕ) (k : UInt8) :
    encode l n k = (l.take n).map (· ^^^ k) ++ l.drop n := by
  apply List.ext_getElem?
  intro i
  simp only [encode, List.getElem?_mapIdx, Int.ofNat_lt, List.getElem?_append, List.length_map,
    List.length_take, List.getElem?_map, List.getElem?_take, List.getElem?_drop]
  by_cases hi : i < n
  · by_cases hl : i < l.length
    · simp [hi, hl]
    · simp [hi, hl]
      omega
  · have hm : ¬ i < min n l.length := by omega
    by_cases hl : n ≤ l.length
    · have he : n + (i - min n l.length) = i := by omega
      simp [hi, he]
    · simp [hi, List.getElem?_eq_none (show l.length ≤ i by omega)]
      omega

theorem xor_xor_cancel (b k : UInt8) : b ^^^ k ^^^ k = b := by
  rw [UInt8.xor_assoc, UInt8.xor_self, UInt8.xor_zero]

/-- Encoding twice gives the text back. -/
theorem encode_encode (l : List UInt8) (n : ℤ) (k : UInt8) :
    encode (encode l n k) n k = l := by
  apply List.ext_getElem?
  intro i
  simp only [encode, List.getElem?_mapIdx, Option.map_map]
  cases l[i]? with
  | none => rfl
  | some b =>
    by_cases hi : (i : ℤ) < n
    · simp only [Option.map_some, Function.comp_apply, if_pos hi, xor_xor_cancel]
    · simp only [Option.map_some, Function.comp_apply, if_neg hi]

structure PacketDetails where
  pcktIndex : BitVec 32
  pcktAck : BitVec 32
  packetLength : BitVec 32
  dataDescp : List.Vector UInt8 bufsize
  deriving DecidableEq

namespace PacketDetails

def size : ℕ := 12 + bufsize

def toBytes (p : PacketDetails) : Datagram :=
  le32 p.pcktIndex ++ (le32 p.pcktAck ++ (le32 p.packetLength ++ p.dataDescp.toList))

def ofBytes (l : Datagram) : PacketDetails where
  pcktIndex := ofLe32 l
  pcktAck := ofLe32 (l.drop 4)
  packetLength := ofLe32 (l.drop 8)
  dataDescp := ⟨(l.drop 12).takeD bufsize 0, List.takeD_length _ _ _⟩

/-- `memset(p, 0, sizeof(Packet_Details))`. -/
def zero : PacketDetails := ⟨0, 0, 0, List.Vector.replicate bufsize 0⟩

/-- `recvfrom(sockfd, p, sizeof(Packet_Details), …)` of the datagram `d`. -/
def recvfrom (p : PacketDetails) (d : Datagram) : PacketDetails :=
  ofBytes (overlay d p.toBytes)

def bzeroData (p : PacketDetails) : PacketDetails :=
  { p with dataDescp := List.Vector.replicate bufsize 0 }

def encodeData (p : PacketDetails) : PacketDetails :=
  { p with dataDescp := ⟨encode p.dataDescp.toList p.packetLength.toInt key, by simp⟩ }

/-- That call leaves the buffer. -/
def overruns (p : PacketDetails) : Prop := (bufsize : ℤ) < p.packetLength.toInt

instance (p : PacketDetails) : Decidable p.overruns := inferInstanceAs (Decidable (_ < _))

def payload (p : PacketDetails) : List UInt8 := p.dataDescp.toList.take p.packetLength.toNat

/-- A length field that the loops use safely. -/
def LengthInRange (p : PacketDetails) : Prop :=
  0 ≤ p.packetLength.toInt ∧ p.packetLength.toInt ≤ bufsize

instance (p : PacketDetails) : Decidable p.LengthInRange := inferInstanceAs (Decidable (_ ∧ _))

@[simp] theorem length_toBytes (p : PacketDetails) : p.toBytes.length = size := by
  simp only [toBytes, size, List.length_append, length_le32, List.Vector.toList_length]
  omega

@[simp] theorem ofBytes_toBytes (p : PacketDetails) : ofBytes p.toBytes = p := by
  obtain ⟨i, a, n, v⟩ := p
  have h4 : (le32 i ++ (le32 a ++ (le32 n ++ v.toList))).drop 4 =
      le32 a ++ (le32 n ++ v.toList) := List.drop_left' (length_le32 i)
  have h8 : (le32 i ++ (le32 a ++ (le32 n ++ v.toList))).drop 8 = le32 n ++ v.toList := by
    rw [show 8 = 4 + 4 from rfl, ← List.drop_drop, h4, List.drop_left' (length_le32 a)]
  have h12 : (le32 i ++ (le32 a ++ (le32 n ++ v.toList))).drop 12 = v.toList := by
    rw [show 12 = 8 + 4 from rfl, ← List.drop_drop, h8, List.drop_left' (length_le32 n)]
  have hv : v.toList.takeD bufsize 0 = v.toList := by
    rw [List.takeD_eq_take _ (by simp)]
    exact List.take_of_length_le (by simp)
  simp only [ofBytes, toBytes, h4, h8, h12, ofLe32_le32_append, hv]
  rfl

theorem toBytes_ofBytes {l : Datagram} (h : l.length = size) : (ofBytes l).toBytes = l := by
  have hs : l.length = 12 + bufsize := h
  have h0 := le32_ofLe32 (l := l) (by omega)
  have h4 := le32_ofLe32 (l := l.drop 4) (by simp; omega)
  have h8 := le32_ofLe32 (l := l.drop 8) (by simp; omega)
  have h12 : (l.drop 12).takeD bufsize 0 = l.drop 12 := by
    rw [List.takeD_eq_take _ (by simp; omega)]
    exact List.take_of_length_le (by simp; omega)
  simp only [toBytes, ofBytes, List.Vector.toList_mk, h0, h4, h8, h12]
  rw [show l.drop 12 = (l.drop 8).drop 4 by simp, List.take_append_drop,
    show l.drop 8 = (l.drop 4).drop 4 by simp, List.take_append_drop, List.take_append_drop]

@[simp] theorem recvfrom_toBytes (p q : PacketDetails) : p.recvfrom q.toBytes = q := by
  rw [recvfrom, overlay_eq_self (by simp), ofBytes_toBytes]

/-- A datagram of any length replaces the leading bytes and leaves the others. -/
theorem toBytes_recvfrom (p : PacketDetails) (d : Datagram) :
    (p.recvfrom d).toBytes = overlay d p.toBytes :=
  toBytes_ofBytes (by simp)

end PacketDetails

end EmbeddedSoftware.Netsys
