import ShellOS.Fs.Filesys

/-! The file commands of the shell. What a command prints or stores in a host file is part of its
result. -/
namespace ShellOS.Fs
open CLib

namespace System

/-- The start of most commands: the file in the table, which is opened and entered if it is not
there. -/
def tableFile (fileName : CString) (S : System) : Option (Option File × System) :=
  match S.getFileByFname fileName with
  | some f => some (some f,S)
  | none => (S.filesysOpen fileName).map fun r =>
    match r.1 with
    | none => (none,r.2)
    | some f => (some f,r.2.addToFileTable f fileName)

/-- `fsutil_rm`. -/
def fsutilRm (fileName : CString) (S : System) : Option (Bool × System) :=
  (S.removeFromFileTable fileName).bind fun r => r.2.filesysRemove fileName

/-- `fsutil_create`. -/
def fsutilCreate (fname : CString) (isize : ℤ) (S : System) : Option (Bool × System) :=
  if fname.length = 0 ∨ 255 ≤ fname.length then some (false,S) else S.filesysCreate fname isize

/-- `fsutil_write`: the bytes written, -1 if there is no file. -/
def fsutilWrite (fileName : CString) (buffer : List UInt8) (size : ℤ) (S : System) : Option (ℤ × System) :=
  (S.tableFile fileName).bind fun r =>
    match r.1 with
    | none => some (-1,r.2)
    | some _ => r.2.fileWrite fileName buffer size

/-- `fsutil_read`: the bytes read, `none` for -1. -/
def fsutilRead (fileName : CString) (size : ℤ) (S : System) : Option (Option (List UInt8) × System) :=
  (S.tableFile fileName).bind fun r =>
    match r.1 with
    | none => some (none,r.2)
    | some _ => (r.2.fileRead fileName size).map fun q => (some q.1,q.2)

/-- `fsutil_size`. -/
def fsutilSize (fileName : CString) (S : System) : Option (ℤ × System) :=
  (S.tableFile fileName).bind fun r =>
    match r.1 with
    | none => some (-1,r.2)
    | some f => (r.2.fileLength f).bind fun length => (r.2.fileSeek fileName f.pos).map fun S => (length,S)

/-- `fsutil_seek`. -/
def fsutilSeek (fileName : CString) (offset : ℤ) (S : System) : Option (ℤ × System) :=
  (S.tableFile fileName).bind fun r =>
    match r.1 with
    | none => some (-1,r.2)
    | some _ => (r.2.fileSeek fileName offset).map fun S => (0,S)

/-- The loop of `fsutil_cat`. -/
def catLoop (fileName : CString) (fileSize : ℤ) : ℕ → List UInt8 → System → Option (List UInt8 × System)
  | 0,_,_ => none
  | rounds+1,printed,S => (S.fileRead fileName fileSize).bind fun r =>
    if r.1.length = 0 then some (printed,r.2) else catLoop fileName fileSize rounds (printed ++ r.1) r.2

/-- `fsutil_cat`: the bytes dumped. Every round but the last reads a byte of the file. -/
def fsutilCat (fileName : CString) (S : System) : Option (Option (List UInt8) × System) :=
  let opened := (S.getFileByFname fileName).isNone
  (S.tableFile fileName).bind fun r =>
    match r.1 with
    | none => some (none,r.2)
    | some f => (r.2.fileSeek fileName 0).bind fun S => (S.fileLength f).bind fun fileSize =>
      (S.catLoop fileName fileSize (fileSize.toNat + 1) []).bind fun q => (q.2.fileSeek fileName f.pos).bind fun S =>
        if opened then (S.removeFromFileTable fileName).map fun c => (some q.1,c.2) else some (some q.1,S)

/-! ### Loops over the root directory -/

end System

/-- What a loop over `dir_readdir` did: the names it read, whether it went on to the end of the
directory, and what its body collected. -/
structure Listing (α : Type) where
  seen : List CString
  complete : Bool
  acc : α

namespace System
variable {α : Type}

/-- The loop, with more rounds than there are entries. The body says whether to go on. -/
def readdirLoop (addr : ℕ) (body : CString → α → System → Option (Bool × α × System)) :
    ℕ → α → System → Option (Listing α × System)
  | 0,_,_ => none
  | rounds+1,acc,S => (S.dirReaddir addr).bind fun r =>
    match r.1 with
    | none => some (⟨[],true,acc⟩,r.2)
    | some name => (body name acc r.2).bind fun q =>
      if q.1 then (readdirLoop addr body rounds q.2.1 q.2.2).map fun l =>
        (⟨name::l.1.seen,l.1.complete,l.1.acc⟩,l.2)
      else some (⟨[name],false,q.2.1⟩,q.2.2)

/-- The loop over the root directory. A body that returns early leaves the directory open. -/
def overRoot (body : CString → α → System → Option (Bool × α × System)) (acc : α) (S : System) :
    Option (Listing α × System) :=
  S.dirOpenRoot.bind fun d => (d.2.dirAt d.1).bind fun dir => (d.2.inodeAt dir.inode).bind fun inode =>
    (d.2.readdirLoop d.1 body (entryRounds inode.data) acc).bind fun r =>
      if r.1.complete then (r.2.dirClose d.1).map fun S => (r.1,S) else some r

/-- `fsutil_ls`: the names printed are those read. -/
def fsutilLs (S : System) : Option (Listing Unit × System) := S.overRoot (fun _ _ S => some (true,(),S)) ()

end System
end ShellOS.Fs
