import EmbeddedSoftware.FileStreams

/-!
# The four transfer loops

The client's `main` and the server's `main` each hold one send loop and one receive loop,
written four times over. A send loop is cut where it waits: `getSend` and `putSend` run
from the top to the call of `recvfrom`, `getReceive` and `putReceive` of the sender run
from its return to the top again. A receive loop waits at its top only. `none` in place of
a result is behaviour that C leaves undefined.
-/

namespace EmbeddedSoftware.Netsys

inductive Control where
  | stay | leave
  deriving DecidableEq, Repr

/-- The variables of the client's `main`. The stream is the one of the put branch. -/
structure Client where
  a : PacketDetails
  s : PacketDetails
  packetId : BitVec 32
  readLength : BitVec 32
  fname : Option FileName
  fptr : FileStream
  cmd : List.Vector UInt8 100
  files : FileStore

/-- The variables of the server's `main`. `fptr` is the stream of the get branch, `putFptr`
the name under which the put branch has opened its own; `filename` points into the text
of the command. -/
structure Server where
  a : PacketDetails
  s : PacketDetails
  packetId : BitVec 32
  readBytes : BitVec 32
  filename : Option (List UInt8)
  fptr : FileStream
  putFptr : Option FileName
  files : FileStore

/-- The client before its first command; `a` and `s` hold what `malloc` found there. -/
def Client.initial (a s : PacketDetails) (files : FileStore) : Client where
  a := a
  s := s
  packetId := 0
  readLength := 0
  fname := none
  fptr := ⟨[], 0⟩
  cmd := List.Vector.replicate 100 0
  files := files

def Server.initial (a s : PacketDetails) (files : FileStore) : Server where
  a := a
  s := s
  packetId := 0
  readBytes := 0
  filename := none
  fptr := ⟨[], 0⟩
  putFptr := none
  files := files

namespace PacketDetails

/-- `fread` into `data_descp`, then `packet_length` set to the number of bytes read. -/
def fill (p : PacketDetails) (bytes : List UInt8) : PacketDetails :=
  { p with
    dataDescp := ⟨ByteLayout.overlay bytes p.dataDescp.toList, by simp⟩
    packetLength := BitVec.ofNat 32 bytes.length }

end PacketDetails

/-- The exit test of every loop, `if(packet_length != BUFSIZE) break;`. -/
def exitTest (packetLength : BitVec 32) : Control :=
  if packetLength ≠ BitVec.ofNat 32 bufsize then .leave else .stay

namespace Server

/-- The get branch up to the top of its send loop, with the stream that `fopen` returned. -/
def getEntry (v : Server) (fptr : FileStream) : Server :=
  { v with
    s := { v.s.bzeroData with pcktIndex := 1 }
    a := { v.a with pcktAck := 0 }
    fptr := fptr }

/-- The put branch up to its handshake. -/
def putEntry (v : Server) : Server :=
  { v with a := .zero, s := { PacketDetails.zero with pcktAck := 1 }, packetId := 1 }

/-- `fopen(filename, "ab")` of the put branch; without a name it returns `NULL`. -/
def putOpen (v : Server) (name : Option FileName) : Server :=
  { v with
    putFptr := name
    files := name.elim v.files fun n => v.files.append n [] }

/-- The get send loop up to `recvfrom`: the variables and the packet sent. -/
def getSend (v : Server) : Server × PacketDetails :=
  let read := v.fptr.fread bufsize
  let s := (v.s.fill read.1).encodeData
  ({ v with
      readBytes := BitVec.ofNat 32 read.1.length
      fptr := read.2
      s := s.bzeroData }, s)

/-- The get send loop after `recvfrom`, which timed out or returned a datagram. -/
def getReceive (v : Server) : Option Datagram → Server × Control
  | none => ({ v with fptr := v.fptr.fseekCur (-v.s.packetLength.toInt) }, .stay)
  | some d =>
    let v := { v with a := v.a.recvfrom d }
    if v.a.pcktAck ≠ v.s.pcktIndex then
      ({ v with fptr := v.fptr.fseekCur (-v.s.packetLength.toInt) }, exitTest v.s.packetLength)
    else
      ({ v with s := { v.s with pcktIndex := v.s.pcktIndex + 1 } }, exitTest v.s.packetLength)

/-- One pass of the put receive loop: the variables, the acknowledgement sent and the exit
test. Decoding past the buffer, a negative length given to `fwrite` and writing to a
stream that did not open are undefined. -/
def putReceive (v : Server) (d : Datagram) : Option (Server × PacketDetails × Control) :=
  let a := v.a.bzeroData.recvfrom d
  if a.overruns then none
  else
    let a := a.encodeData
    if a.pcktIndex ≠ v.packetId then
      let s := { v.s with pcktAck := a.pcktIndex }
      some ({ v with a := a, s := s }, s, exitTest a.packetLength)
    else if a.packetLength.toInt < 0 then none
    else
      match v.putFptr with
      | none => none
      | some name =>
        let s := { v.s with pcktAck := v.packetId }
        some ({ v with
            a := a.bzeroData
            s := s
            packetId := v.packetId + 1
            files := v.files.append name a.payload }, s, exitTest a.packetLength)

end Server

namespace Client

/-- The put branch up to the top of its send loop, with the stream that `fopen` returned. -/
def putEntry (v : Client) (fptr : FileStream) : Client :=
  { v with a := { PacketDetails.zero with pcktIndex := 1 }, s := .zero, fptr := fptr }

/-- The get branch up to its receive loop. -/
def getEntry (v : Client) : Client := { v with packetId := 1 }

/-- The put send loop up to `recvfrom`: the variables and the packet sent. -/
def putSend (v : Client) : Client × PacketDetails :=
  let read := v.fptr.fread bufsize
  let a := (v.a.fill read.1).encodeData
  ({ v with
      readLength := BitVec.ofNat 32 read.1.length
      fptr := read.2
      a := a
      s := v.s.bzeroData }, a)

/-- The put send loop after `recvfrom`, which timed out or returned a datagram. -/
def putReceive (v : Client) : Option Datagram → Client × Control
  | none => ({ v with fptr := v.fptr.fseekCur (-v.readLength.toInt) }, .stay)
  | some d =>
    let v := { v with s := v.s.recvfrom d }
    if v.s.pcktAck = v.a.pcktIndex then
      ({ v with a := { v.a with pcktIndex := v.a.pcktIndex + 1 } }, exitTest v.a.packetLength)
    else
      ({ v with fptr := v.fptr.fseekCur (-v.readLength.toInt) }, exitTest v.a.packetLength)

/-- One pass of the get receive loop. The file is opened and closed around each write. -/
def getReceive (v : Client) (d : Datagram) : Option (Client × PacketDetails × Control) :=
  let s := v.s.bzeroData.recvfrom d
  if s.overruns then none
  else
    let s := s.encodeData
    if s.pcktIndex ≠ v.packetId then
      let a := { v.a with pcktAck := s.pcktIndex }
      some ({ v with a := a, s := s }, a, exitTest s.packetLength)
    else if s.packetLength.toInt < 0 then none
    else
      match v.fname with
      | none => none
      | some name =>
        let a := { v.a.bzeroData with pcktAck := v.packetId }
        some ({ v with
            a := a
            s := s
            packetId := v.packetId + 1
            files := v.files.append name s.payload }, a, exitTest s.packetLength)

theorem pcktIndex_getReceive {v v' : Client} {d : Datagram} {ack : PacketDetails} {c : Control}
    (h : v.getReceive d = some (v', ack, c)) :
    ack.pcktIndex = v.a.pcktIndex ∧ v'.a.pcktIndex = v.a.pcktIndex := by
  simp only [getReceive] at h
  split at h
  · cases h
  · split at h
    · cases h
      exact ⟨rfl, rfl⟩
    · split at h
      · cases h
      · split at h
        · cases h
        · cases h
          exact ⟨rfl, rfl⟩

end Client

end EmbeddedSoftware.Netsys
