import ShellOS.Fs.Fsutil

/-! Copying files from and to the host, searching, defragmentation and recovery. -/
namespace ShellOS.Fs
open CLib

/-- `copyable_size_of_file`, for a number of free sectors. -/
def copyableSize (size freeSectors : ℤ) : ℤ :=
  let sectorsNeeded := wrap32 (bytesToSectors size)
  let totalIndirect : ℤ := 123 + 128 + 2
  let totalDoubleIndirect : ℤ := totalIndirect + 1 + 128 + 128 * 128
  -- direct blocks and the inode
  if freeSectors ≤ 123 + 1 then
    if sectorsNeeded ≤ freeSectors - 1 then size else 512 * (freeSectors - 1) - 1
  -- an indirect block
  else if freeSectors ≤ 123 + 128 + 2 then
    if sectorsNeeded ≤ freeSectors - 2 then size else 512 * (freeSectors - 2) - 1
  -- more than the largest inode
  else if totalDoubleIndirect ≤ freeSectors then
    if sectorsNeeded ≤ totalDoubleIndirect - 131 then size else 512 * (totalDoubleIndirect - 131) - 1
  -- the inode, both indirect blocks, and those of the second level
  else
    let metadataBlocks := 3 + (freeSectors - (totalIndirect + 1) + 129 - 1).tdiv 129
    if sectorsNeeded ≤ freeSectors - metadataBlocks then size else 512 * (freeSectors - metadataBlocks) - 1

/-- The part of a buffer that the string functions see. -/
def text (buffer : List UInt8) : CString := buffer.takeWhile (· != 0)

/-- The buffer with the contents of a sector. -/
def sectorBytes (v : Volume) (p : BlockSector) : List UInt8 := (List.range 512).map (Sector.byte (bufferCacheRead p v))

/-- `fputs` from a byte of the buffer on: it reads on in the memory behind the buffer if no byte is 0. -/
def fputs (rest beyond : List UInt8) : CString := text (rest ++ beyond)

/-- The loop of `fragmentation_degree` over the sectors of a file; the difference is unsigned. -/
def fragmentedFrom (previous : BlockSector) : List BlockSector → Bool
  | [] => false
  | s::rest => 3 < s - previous || fragmentedFrom s rest

def isFragmented : List BlockSector → Bool
  | [] => false
  | s::rest => fragmentedFrom s rest

namespace System

def copyableSizeOfFile (size : ℤ) (S : System) : ℤ := copyableSize size (numFreeSectors S.vol)

/-- The bytes `copy_in` creates the file with. The terminator gets a block of its own if need be; the
argument is converted to `int`. -/
def copySize (size : ℤ) (S : System) : ℤ :=
  if size % 512 = 0 then S.copyableSizeOfFile (wrap32 (size + 1)) else S.copyableSizeOfFile (wrap32 size)

/-- The two numbers in the warning of `copy_in` for a host file of this size, if it is printed. -/
def copyInWarning (size : ℤ) (S : System) : Option (ℤ × ℤ) :=
  if size ≠ S.copySize size then some (S.copySize size,size) else none

/-- `copy_in` of a host file, `none` if there is no such file: the error number. -/
def copyIn (fname : CString) (host : Option (List UInt8)) (S : System) : Option (ℕ × System) :=
  match host with
  | none => some (1,S)
  | some contents =>
    let copySize := S.copySize contents.length
    if copySize ≤ 0 then some (2,S)
    else (S.fsutilCreate fname copySize).bind fun c =>
      let buffer := (List.range (copySize + 1).toNat).map fun k : ℕ =>
        if (k : ℤ) < copySize then contents.getD k 0 else 0
      (c.2.fsutilWrite fname buffer (copySize + 1)).bind fun w => (w.2.fileSeek fname 0).map fun S => (0,S)

/-- `copy_out`: what the host file then holds, or the error number. -/
def copyOut (fname : CString) (S : System) : Option (Except ℕ CString × System) :=
  (S.fsutilSize fname).bind fun r =>
    if r.1 = -1 then some (.error 1,r.2)
    else (r.2.getFileByFname fname).bind fun f => (r.2.fileSeek fname 0).bind fun S =>
      (S.fsutilRead fname r.1).bind fun q => (q.2.fileSeek fname f.pos).map fun S =>
        (.ok (text (q.1.getD [])),S)

/-- What `find_file`, `fragmentation_degree` and `defragment` do with a name: the size, and with the
position set to 0 for the time being, what `use` makes of the file. Without a file they return. -/
def visit {α : Type} (use : File → ℤ → α → System → Option (α × System)) (name : CString) (acc : α) (S : System) :
    Option (Bool × α × System) :=
  (S.fsutilSize name).bind fun r =>
    if r.1 = -1 then some (false,acc,r.2)
    else (r.2.getFileByFname name).bind fun f => (r.2.fileSeek name 0).bind fun S =>
      (use f r.1 acc S).bind fun q => (q.2.fileSeek name f.pos).map fun S => (true,q.1,S)

/-- `find_file`: the names printed. -/
def findFile (pattern : CString) (S : System) : Option (Listing (List CString) × System) :=
  S.overRoot (fun name => visit (fun _ size found S => (S.fsutilRead name size).map fun q =>
    (if pattern <:+: text (q.1.getD []) then found ++ [name] else found,q.2)) name) []

/-- `fragmentation_degree`: the numbers of fragmentable and fragmented files. -/
def fragmentationDegree (S : System) : Option (Listing (ℕ × ℕ) × System) :=
  S.overRoot (fun name => visit (fun f size acc S => (S.inodeAt f.inode).map fun inode =>
    let sectors := ((getInodeDataSectors S.vol inode.data).getD []).take (bytesToSectors size)
    ((acc.1 + (if 1 < bytesToSectors size then 1 else 0),acc.2 + (if isFragmented sectors then 1 else 0)),S)) name) (0,0)

end System

/-- `struct file_elem`. -/
structure FileElem where
  fname : CString
  contents : List UInt8
  size : ℤ

namespace System

/-- A buffer of `size + 1` zeros with the bytes read from the file. -/
def filled (size : ℤ) (b : List UInt8) : List UInt8 := b ++ List.replicate ((size + 1).toNat - b.length) 0

/-- The first loop of `defragment`. -/
def defragmentRead (S : System) : Option (Listing (List FileElem) × System) :=
  S.overRoot (fun name => visit (fun _ size files S => (S.fsutilRead name size).map fun q =>
    (files ++ [⟨name,filled size (q.1.getD []),size⟩],q.2)) name) []

/-- The second loop. -/
def defragmentRemove (files : List FileElem) (S : System) : Option System :=
  files.foldlM (fun (S : System) f => (S.removeFromFileTable f.fname).bind fun r =>
    (r.2.filesysRemove f.fname).map Prod.snd) S

/-- The third loop. -/
def defragmentWrite (files : List FileElem) (S : System) : Option System :=
  files.foldlM (fun (S : System) f => (S.fsutilCreate f.fname f.size).bind fun c =>
    (c.2.fsutilWrite f.fname f.contents f.size).bind fun w => (w.2.fsutilSeek f.fname 0).map Prod.snd) S

/-- `defragment`. -/
def defragment (S : System) : Option (Listing (List FileElem) × System) :=
  S.defragmentRead.bind fun r =>
    if r.1.complete then (r.2.defragmentRemove r.1.acc).bind fun S =>
      (S.defragmentWrite r.1.acc).map fun S => (r.1,S)
    else some r

/-! ### Recovery -/

/-- A round of `recover(0)`: a free sector with the record of a file gets a name. The inode is not
closed. -/
def recoverSector (sector : ℕ) (S : System) : Option System :=
  if S.vol.freeMap.bitmapTest sector then some S
  else
    let i := S.inodeOpen (UInt32.ofNat sector)
    (i.2.inodeAt i.1).bind fun inode =>
      if 0 < inode.data.length ∧ inode.data.magic = inodeMagic ∧ inode.data.isDir = false then
        i.2.dirOpenRoot.bind fun d =>
          (d.2.dirAdd d.1 (cstr ("recovered0-" ++ toString sector)) (UInt32.ofNat sector)).bind fun a =>
            a.2.dirClose d.1
      else some i.2

/-- `recover(0)`. -/
def recoverInodes (S : System) : Option System :=
  (List.range S.vol.freeMap.bitCnt).foldlM (fun (S : System) sector => S.recoverSector sector) S

/-- The file made of the bytes after the end of a file in its last sector, from the first that is not 0. -/
def pastEnd (beyond : List UInt8) (size : ℤ) (inode : Inode) (S : System) : Option CString :=
  let eof := (size.tmod 512).toNat
  let sectors := (getInodeDataSectors S.vol inode.data).getD []
  let buffer := sectorBytes S.vol (sectors.getD (bytesToSectors size - 1) 0)
  if eof = 0 then none
  else match (buffer.drop eof).dropWhile (· == 0) with
    | [] => none
    | rest => some (fputs rest beyond)

/-- `recover(2)`: the text of the host file made for each name. A name without a file is skipped. -/
def recoverTails (beyond : CString → List UInt8) (S : System) : Option (Listing (List (CString × CString)) × System) :=
  S.overRoot (fun name found S => (S.fsutilSize name).bind fun r =>
    if r.1 = -1 then some (true,found,r.2)
    else (r.2.getFileByFname name).bind fun f => (r.2.inodeAt f.inode).map fun inode =>
      (true,found ++ ((r.2.pastEnd (beyond name) r.1 inode).map fun t => (name,t)).toList,r.2)) []

end System
end ShellOS.Fs
