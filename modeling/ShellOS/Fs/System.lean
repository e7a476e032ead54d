import ShellOS.Fs.Write
import ShellOS.Lib.CString
import ShellOS.Lib.Keyed

/-! The file system in memory: open inodes, directories and files, with the operations on open
inodes and on the free-map file. An operation on an object that was freed gives `none`. -/
namespace ShellOS.Fs
open CLib

/-- `struct dir`, at an address. -/
structure Dir where
  addr : ℕ
  inode : ℕ
  pos : ℤ
  openCnt : ℤ

/-- `struct file`. Nothing calls `file_deny_write`, so `deny_write` is never set. -/
structure File where
  inode : ℕ
  pos : ℤ

/-- `struct file_table_entry`. -/
structure FileTableEntry where
  fname : CString
  f : File

/-- The state of the file system. `open_inodes` is kept in two parts: the inode behind
`free_map_file` stands in the volume. Addresses are never used again. -/
structure System where
  vol : Volume
  openInodes : List Inode
  dirs : List Dir
  cwd : Option ℕ
  fileTable : List FileTableEntry
  nextAddr : ℕ

namespace System

/-- The list `open_inodes`. -/
def inodes (S : System) : List Inode := S.openInodes ++ S.vol.freeMapFile.toList

/-- The inode that a pointer leads to. -/
def inodeAt (addr : ℕ) (S : System) : Option Inode := Keyed.lookup Inode.addr addr S.inodes

/-- An inode changed in place. -/
def setInode (inode : Inode) (S : System) : System :=
  { S with
    openInodes := Keyed.update Inode.addr inode S.openInodes
    vol := { S.vol with freeMapFile := S.vol.freeMapFile.map fun i => if i.addr = inode.addr then inode else i } }

/-- `inode_open`. Opening an inode again leaves `open_cnt` alone, as `inode_reopen` does. -/
def inodeOpen (sector : BlockSector) (S : System) : ℕ × System :=
  match Keyed.lookup Inode.sector sector S.inodes with
  | some inode => (inode.addr,S)
  | none => (S.nextAddr,
      { S with
        openInodes := ⟨S.nextAddr,sector,1,false,0,bufferCacheRead sector S.vol⟩::S.openInodes
        nextAddr := S.nextAddr + 1 })

/-- The inode is taken off the list; behind `free_map_file` a dangling pointer is left. -/
def freeInode (addr : ℕ) (S : System) : System :=
  { S with
    openInodes := Keyed.remove Inode.addr addr S.openInodes
    vol := { S.vol with freeMapFile := S.vol.freeMapFile.filter fun i => i.addr ≠ addr } }

/-- A result that is not looked at. -/
def ignoreResult (r : Bool × Volume) : Volume := r.2

theorem ignoreResult_eq (r : Bool × Volume) : ignoreResult r = r.2 := rfl

/-- The blocks of a removed inode go back to the free map. -/
def releaseInode (inode : Inode) (v : Volume) : Volume :=
  ignoreResult (inodeDeallocate inode.data (freeMapRelease inode.sector 1 v))

/-- `inode_close`. -/
def inodeClose (addr : ℕ) (S : System) : Option System :=
  (S.inodeAt addr).map fun inode =>
    if inode.openCnt - 1 = 0 then
      let S := S.freeInode addr
      if inode.removed then { S with vol := releaseInode inode S.vol } else S
    else S.setInode { inode with openCnt := inode.openCnt - 1 }

/-- `inode_remove`. -/
def inodeRemove (addr : ℕ) (S : System) : Option System :=
  (S.inodeAt addr).map fun inode => S.setInode { inode with removed := true }

/-- `inode_read_at`: the bytes read. -/
def readAt (addr : ℕ) (size offset : ℤ) (S : System) : Option (List UInt8) :=
  (S.inodeAt addr).map fun inode => inodeReadAt inode.data size offset S.vol

/-- `inode_write_at`. -/
def writeAt (addr : ℕ) (buffer : List UInt8) (size offset : ℤ) (S : System) : Option (ℤ × System) :=
  (S.inodeAt addr).map fun inode =>
    let r := inodeWriteAt inode buffer size offset S.vol
    (r.1,{ S with vol := r.2.2 }.setInode r.2.1)

/-! ### The free-map file -/

/-- The open inode becomes the one behind `free_map_file`. -/
def adoptFreeMapFile (addr : ℕ) (S : System) : System :=
  { S with
    openInodes := Keyed.remove Inode.addr addr S.openInodes
    vol := { S.vol with freeMapFile := S.inodeAt addr } }

/-- `free_map_create`; a failure only prints a message. -/
def freeMapCreate (S : System) : System :=
  let S := { S with vol := ignoreResult (inodeCreate freeMapSector (byteCnt S.vol.freeMap.bitCnt) false S.vol) }
  let r := S.inodeOpen freeMapSector
  let S := r.2.adoptFreeMapFile r.1
  { S with vol := ignoreResult (bitmapWrite S.vol) }

/-- `free_map_open`, with `bitmap_read`; a short read leaves the rest of the map as it was. -/
def freeMapOpen (S : System) : System :=
  let r := S.inodeOpen freeMapSector
  let S := r.2.adoptFreeMapFile r.1
  match S.vol.freeMapFile with
  | none => S
  | some fm =>
    let cnt := S.vol.freeMap.bitCnt
    let data := inodeReadAt fm.data (byteCnt cnt) 0 S.vol
    { S with vol := { S.vol with
      freeMap := Bitmap.ofBytes cnt (data ++ S.vol.freeMap.bytes.drop data.length) } }

/-- `free_map_close`. -/
def freeMapClose (S : System) : Option System :=
  match S.vol.freeMapFile with
  | none => some S
  | some fm => S.inodeClose fm.addr

end System
end ShellOS.Fs
