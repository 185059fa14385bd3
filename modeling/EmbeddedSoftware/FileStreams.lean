import EmbeddedSoftware.ListBlocks
import EmbeddedSoftware.PacketDetails

/-!
# The files of one party

A stream opened for reading is the content of the file and a position in it. A directory
maps names to contents; opening for appending creates the file when it is not there.
-/

namespace EmbeddedSoftware.Netsys

open ListBlocks

abbrev FileName := List UInt8

structure FileStream where
  content : List UInt8
  pos : ℕ
  deriving DecidableEq

namespace FileStream

/-- `fread(buf, 1, n, f)`: the bytes read and the stream after. -/
def fread (f : FileStream) (n : ℕ) : List UInt8 × FileStream :=
  let bytes := (f.content.drop f.pos).take n
  (bytes, { f with pos := f.pos + bytes.length })

/-- `fseek(f, offset, SEEK_CUR)`; a position before the start is refused. -/
def fseekCur (f : FileStream) (offset : ℤ) : FileStream :=
  if (f.pos : ℤ) + offset < 0 then f else { f with pos := (f.pos + offset).toNat }

theorem length_fread_le (f : FileStream) (n : ℕ) : (f.fread n).1.length ≤ n := by
  simp only [fread, List.length_take]
  exact Nat.min_le_left _ _

/-- Seeking back over what was read restores the stream. -/
theorem fseekCur_fread (f : FileStream) (n : ℕ) :
    (f.fread n).2.fseekCur (-((f.fread n).1.length : ℤ)) = f := by
  have h : ¬ ((f.fread n).2.pos : ℤ) + -((f.fread n).1.length : ℤ) < 0 := by
    simp only [fread]
    omega
  simp only [fseekCur, h, if_false]
  simp [fread]

end FileStream

/-- The working directory of one party. -/
abbrev FileStore := FileName → Option (List UInt8)

namespace FileStore

def openRead (files : FileStore) (name : Option FileName) : Option FileStream :=
  (name.bind files).map fun content => ⟨content, 0⟩

/-- `fwrite(data, n, 1, f)` on a stream opened with `fopen(name, "ab")`. -/
def append (files : FileStore) (name : FileName) (bytes : List UInt8) : FileStore :=
  Function.update files name (some ((files name).getD [] ++ bytes))

def remove (files : FileStore) (name : FileName) : FileStore := Function.update files name none

/-- What a reader finds under a name; an absent file reads as an empty one. -/
def content (files : FileStore) (name : FileName) : List UInt8 := (files name).getD []

@[simp] theorem content_append (files : FileStore) (name : FileName) (bytes : List UInt8) :
    (files.append name bytes).content name = files.content name ++ bytes := by
  simp [content, append]

end FileStore

end EmbeddedSoftware.Netsys
