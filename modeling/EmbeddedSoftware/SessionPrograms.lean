import EmbeddedSoftware.CommandText
import EmbeddedSoftware.TransferLoops

/-!
# The command loops of client and server

Each program is cut where it waits: the client for the user or for a datagram, the server
for a datagram; the two send loops also stop at their tops. From one such point to the
next a program is a function of what it waited for, and it returns its variables, the
point it stops at and the datagrams it sent on the way.
-/

namespace EmbeddedSoftware.Netsys

open ByteLayout CStrings

inductive Input where
  | typed (line : Line)
  | proceed
  | timeout
  | datagram (d : Datagram)

inductive ClientPhase where
  | prompt | getHandshake | getLoop | putTop | putWait | lsWait | exitWait | undefined
  deriving DecidableEq, Repr

inductive ServerPhase where
  | command | getTop | getWait | putHandshake | putLoop | deleteWait | exited | undefined
  deriving DecidableEq, Repr

namespace Client

/-- `msg` of the put branch with the zero that `sizeof` counts. -/
def filefound : Datagram := ascii "Filefound" ++ [0]

def fileerror : Datagram := ascii "Fileerror" ++ [0]

def clear (v : Client) : Client := { v with a := .zero, s := .zero }

/-- The end of the command loop, which a `continue` skips. -/
def finish (v : Client) : Client := { v with cmd := List.Vector.replicate 100 0 }

/-- From `gets` on: the line goes out as it lies in `cmd`, then its verb is looked at. -/
def command (v : Client) (line : Line) : Client × ClientPhase × List Datagram :=
  let cmd := line.store v.cmd
  let v := { v with cmd := cmd, fname := line.fname }
  match line.verb with
  | some .get => (v.getEntry, .getHandshake, [cmd.toList])
  | some .put =>
    match v.files.openRead v.fname with
    | some fptr => (v.putEntry fptr, .putTop, [cmd.toList, filefound])
    | none => (v.putEntry v.fptr, .prompt, [cmd.toList, fileerror])
  | some .ls => (v, .lsWait, [cmd.toList])
  | some .delete =>
    match v.fname with
    | some name => (v.finish, .prompt, [cmd.toList, name])
    | none => (v, .undefined, [cmd.toList])
  | some .exit => (v, .exitWait, [cmd.toList])
  | none => (v.finish, .prompt, [cmd.toList])

/-- The first datagram of a get, which is compared with a text that the server never sends. -/
def getAnswer (v : Client) (d : Datagram) : Client × ClientPhase × List Datagram :=
  if bufferText d = ascii "Error" then (v, .prompt, []) else (v, .getLoop, [])

def getPass (v : Client) (d : Datagram) : Client × ClientPhase × List Datagram :=
  match v.getReceive d with
  | none => (v, .undefined, [])
  | some (v, ack, .stay) => (v, .getLoop, [ack.toBytes])
  | some (v, ack, .leave) => (v.clear.finish, .prompt, [ack.toBytes])

def putPass (v : Client) (o : Option Datagram) : Client × ClientPhase × List Datagram :=
  match v.putReceive o with
  | (v, .stay) => (v, .putTop, [])
  | (v, .leave) => (v.clear.finish, .prompt, [])

/-- One step of the client; `none` when it does not wait for that input. The answers to
`ls` and `exit` are received with length zero, so that their text is lost. -/
def step : ClientPhase → Client → Input → Option (Client × ClientPhase × List Datagram)
  | .prompt, v, .typed line => some (v.command line)
  | .getHandshake, v, .datagram d => some (v.getAnswer d)
  | .getLoop, v, .datagram d => some (v.getPass d)
  | .putTop, v, .proceed => some (v.putSend.1, .putWait, [v.putSend.2.toBytes])
  | .putWait, v, .timeout => some (v.putPass none)
  | .putWait, v, .datagram d => some (v.putPass (some d))
  | .lsWait, v, .datagram _ => some (v.finish, .prompt, [])
  | .exitWait, v, .datagram _ => some (v.finish, .prompt, [])
  | .undefined, v, .datagram _ => some (v, .undefined, [])
  | _, _, _ => none

end Client

namespace Server

/-- A text copied into an array of two bytes and sent with its `sizeof`; what `strcpy` writes
behind the array is left out. -/
def shortReply (text : String) : Datagram := (ascii text).take 2

def bufReply (text : List UInt8) : Datagram := overlay text (List.replicate bufsize 0)

def listing (names : List FileName) : List UInt8 := names.flatMap (· ++ ascii "\n")

/-- The ls branch; a listing that fills `buf` overruns it. -/
def ls (v : Server) : Option (List FileName) → Server × ServerPhase × List Datagram
  | none => (v, .command, [shortReply "The drirectory can't be read"])
  | some names =>
    if (listing names).length < bufsize then (v, .command, [bufReply (listing names)])
    else (v, .undefined, [])

/-- From the return of `recvfrom` in the command loop on. `readdir` gives what `opendir` and
`readdir` find. -/
def dispatch (readdir : FileStore → Option (List FileName)) (v : Server) (d : Datagram) :
    Server × ServerPhase × List Datagram :=
  let v := { v with filename := nextToken space (bufferText d) }
  match dispatchVerb d with
  | some .get =>
    match v.files.openRead (v.filename.map cstr) with
    | some fptr => (v.getEntry fptr, .getTop, [shortReply "Filefound"])
    | none => (v.getEntry v.fptr, .command, [shortReply "Fileerror"])
  | some .put => (v.putEntry, .putHandshake, [])
  | some .delete => (v, .deleteWait, [])
  | some .ls => v.ls (readdir v.files)
  | some .exit => (v, .exited, [bufReply (ascii "Exit by the server")])
  | none => (v, .command, [])

def clear (v : Server) : Server := { v with a := .zero, s := .zero }

def putAnswer (v : Server) (d : Datagram) : Server × ServerPhase × List Datagram :=
  if bufferText d = ascii "Fileerror" then (v, .command, [])
  else (v.putOpen (v.filename.map cstr), .putLoop, [])

/-- A put loop whose file did not open ends in `fclose(NULL)`. -/
def putPass (v : Server) (d : Datagram) : Server × ServerPhase × List Datagram :=
  match v.putReceive d with
  | none => (v, .undefined, [])
  | some (v, ack, .stay) => (v, .putLoop, [ack.toBytes])
  | some (v, ack, .leave) =>
    if v.putFptr = none then (v, .undefined, [ack.toBytes])
    else (v.clear, .command, [ack.toBytes])

def getPass (v : Server) (o : Option Datagram) : Server × ServerPhase × List Datagram :=
  match v.getReceive o with
  | (v, .stay) => (v, .getTop, [])
  | (v, .leave) => (v.clear, .command, [])

/-- The datagram behind a delete command is received into the text of the command; one that
reaches the end of that text leaves it without a terminating zero. -/
def deletePass (v : Server) (d : Datagram) : Server × ServerPhase × List Datagram :=
  match v.filename with
  | none => (v, .command, [])
  | some mem =>
    if (d.take bufsize).length < mem.length then
      let mem := overlay (d.take bufsize) mem
      ({ v with filename := some mem, files := v.files.remove (cstr mem) }, .command, [])
    else (v, .undefined, [])

/-- One step of the server. A server that has stopped leaves what arrives unread. -/
def step (readdir : FileStore → Option (List FileName)) :
    ServerPhase → Server → Input → Option (Server × ServerPhase × List Datagram)
  | .command, v, .datagram d => some (v.dispatch readdir d)
  | .getTop, v, .proceed => some (v.getSend.1, .getWait, [v.getSend.2.toBytes])
  | .getWait, v, .timeout => some (v.getPass none)
  | .getWait, v, .datagram d => some (v.getPass (some d))
  | .putHandshake, v, .datagram d => some (v.putAnswer d)
  | .putLoop, v, .datagram d => some (v.putPass d)
  | .deleteWait, v, .datagram d => some (v.deletePass d)
  | .exited, v, .datagram _ => some (v, .exited, [])
  | .undefined, v, .datagram _ => some (v, .undefined, [])
  | _, _, _ => none

end Server

end EmbeddedSoftware.Netsys
