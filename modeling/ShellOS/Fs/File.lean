import ShellOS.Fs.Directory

/-! Open files and the table that finds them by name. -/
namespace ShellOS.Fs
open CLib

namespace System

/-- `get_file_by_fname`. -/
def getFileByFname (fname : CString) (S : System) : Option File :=
  (Keyed.lookup FileTableEntry.fname fname S.fileTable).map FileTableEntry.f

/-- `add_to_file_table`; a name that is there already keeps its file. -/
def addToFileTable (f : File) (fname : CString) (S : System) : System :=
  if (S.getFileByFname fname).isSome then S
  else { S with fileTable := S.fileTable ++ [⟨fname,f⟩] }

/-- The file of a table entry changed in place. -/
def setFile (fname : CString) (f : File) (S : System) : System :=
  { S with fileTable := Keyed.update FileTableEntry.fname ⟨fname,f⟩ S.fileTable }

/-- `remove_from_file_table`, with `file_close`. -/
def removeFromFileTable (fname : CString) (S : System) : Option (Bool × System) :=
  match S.getFileByFname fname with
  | none => some (false,S)
  | some f => (S.inodeClose f.inode).map fun S =>
      (true,{ S with fileTable := Keyed.remove FileTableEntry.fname fname S.fileTable })

/-- `file_length`. -/
def fileLength (f : File) (S : System) : Option ℤ := (S.inodeAt f.inode).map fun inode => inode.data.length

/-- `file_seek`; its assertion only prints a message. -/
def fileSeek (fname : CString) (newPos : ℤ) (S : System) : Option System :=
  (S.getFileByFname fname).map fun f => S.setFile fname { f with pos := newPos }

/-- `file_read`: the bytes read. -/
def fileRead (fname : CString) (size : ℤ) (S : System) : Option (List UInt8 × System) :=
  (S.getFileByFname fname).bind fun f => (S.readAt f.inode size f.pos).map fun b =>
    (b,S.setFile fname { f with pos := wrap32 (f.pos + b.length) })

/-- The assignment `buffer[size - 1] = 0`; at a size of 0 it hits no byte of the buffer. -/
def terminated (buffer : List UInt8) (size : ℤ) : List UInt8 :=
  if 1 ≤ size then buffer.set (size - 1).toNat 0 else buffer

/-- `file_write`: the last byte of the buffer becomes a terminator, and the position moves two
bytes less than was written. -/
def fileWrite (fname : CString) (buffer : List UInt8) (size : ℤ) (S : System) : Option (ℤ × System) :=
  (S.getFileByFname fname).bind fun f =>
    (S.writeAt f.inode (terminated buffer size) size f.pos).map fun r =>
      (r.1,r.2.setFile fname { f with pos := wrap32 (f.pos + (r.1 - 2)) })

end System
end ShellOS.Fs
