import ShellOS.Fs.System

/-! Directories: files of 36-byte entries, the first of which stands for the parent directory. -/
namespace ShellOS.Fs
open CLib

/-- `NAME_MAX`. -/
def nameMax : ℕ := 30

/-- `struct dir_entry`; `name` with its terminator fills 31 bytes. -/
structure DirEntry where
  inodeSector : BlockSector
  name : Vector UInt8 31
  inUse : Bool

namespace DirEntry

/-- The 36 bytes of an entry. -/
def encode (e : DirEntry) : List UInt8 :=
  (List.range 4).map (Sector.wordByte e.inodeSector) ++ e.name.toList ++ [if e.inUse then 1 else 0]

def decode (b : List UInt8) : DirEntry where
  inodeSector := Sector.packWord fun i => b.getD i 0
  name := Vector.ofFn fun i : Fin 31 => b.getD (4 + i) 0
  inUse := b.getD 35 0 != 0

/-- The name as `strcmp` and `printf` see it. -/
def cname (e : DirEntry) : CString := e.name.toList.takeWhile (· != 0)

end DirEntry

/-- `sizeof(struct dir_entry)`. -/
abbrev entrySize : ℤ := 36

/-- `strncpy(e.name, name, sizeof e.name)`. -/
def strncpyName (name : CString) : Vector UInt8 31 := Vector.ofFn fun i : Fin 31 => name.getD i 0

/-- The entry at an offset, `none` for a short read. -/
def readEntry (v : Volume) (d : InodeDisk) (ofs : ℤ) : Option DirEntry :=
  let b := inodeReadAt d entrySize ofs v
  if b.length = 36 then some (DirEntry.decode b) else none

/-- The loop over the entries from an offset on, up to one with the property or to a short read,
and the offset where it stops. -/
def scanEntries (v : Volume) (d : InodeDisk) (p : DirEntry → Bool) : ℕ → ℤ → Option DirEntry × ℤ
  | 0,ofs => (none,ofs)
  | rounds+1,ofs =>
    match readEntry v d ofs with
    | none => (none,ofs)
    | some e => if p e then (some e,ofs) else scanEntries v d p rounds (ofs + entrySize)

/-- More rounds than there are entries. -/
def entryRounds (d : InodeDisk) : ℕ := d.length.toNat / 36 + 1

namespace System

def dirAt (addr : ℕ) (S : System) : Option Dir := Keyed.lookup Dir.addr addr S.dirs

def setDir (dir : Dir) (S : System) : System := { S with dirs := Keyed.update Dir.addr dir S.dirs }

/-- `dir_open` of an open inode. -/
def dirOpen (inode : ℕ) (S : System) : ℕ × System :=
  (S.nextAddr,{ S with dirs := ⟨S.nextAddr,inode,entrySize,1⟩::S.dirs, nextAddr := S.nextAddr + 1 })

/-- `dir_open_root`. -/
def dirOpenRoot (S : System) : Option (ℕ × System) :=
  match S.cwd with
  | none =>
    let i := S.inodeOpen rootDirSector
    let d := i.2.dirOpen i.1
    some (d.1,{ d.2 with cwd := some d.1 })
  | some cwd => (S.dirAt cwd).map fun dir => (cwd,S.setDir { dir with openCnt := dir.openCnt + 1 })

/-- `dir_reopen`. -/
def dirReopen (addr : ℕ) (S : System) : Option (ℕ × System) :=
  (S.dirAt addr).map fun dir => S.dirOpen dir.inode

/-- `dir_close`. Closing any directory for good forgets the current one. -/
def dirClose (addr : ℕ) (S : System) : Option System :=
  (S.dirAt addr).bind fun dir =>
    if dir.openCnt - 1 = 0 then
      (S.inodeClose dir.inode).map fun S => { S with dirs := Keyed.remove Dir.addr addr S.dirs, cwd := none }
    else some (S.setDir { dir with openCnt := dir.openCnt - 1 })

/-- A scan of the entries of an open directory. -/
def scanDir (addr : ℕ) (p : DirEntry → Bool) (ofs : ℤ) (S : System) : Option (Option DirEntry × ℤ) :=
  (S.dirAt addr).bind fun dir => (S.inodeAt dir.inode).map fun inode =>
    scanEntries S.vol inode.data p (entryRounds inode.data) ofs

/-- `lookup`, with the offset of the entry. -/
def lookup (addr : ℕ) (name : CString) (S : System) : Option (Option (DirEntry × ℤ)) :=
  (S.scanDir addr (fun e => e.inUse && name == e.cname) entrySize).map fun r => r.1.map fun e => (e,r.2)

/-- `dir_is_empty`. -/
def dirIsEmpty (addr : ℕ) (S : System) : Option Bool :=
  (S.scanDir addr (fun e => e.inUse) entrySize).map fun r => r.1.isNone

/-- `dir_lookup`: the inode found, open. A parent entry that cannot be read is used unset in the
source. -/
def dirLookup (addr : ℕ) (name : CString) (S : System) : Option (Option ℕ × System) :=
  if name = cstr "." then (S.dirAt addr).map fun dir => (some dir.inode,S)
  else if name = cstr ".." then
    (S.dirAt addr).bind fun dir => (S.inodeAt dir.inode).bind fun inode =>
      (readEntry S.vol inode.data 0).map fun e =>
        let i := S.inodeOpen e.inodeSector
        (some i.1,i.2)
  else
    (S.lookup addr name).map fun r =>
      match r with
      | none => (none,S)
      | some (e,_) =>
        let i := S.inodeOpen e.inodeSector
        (some i.1,i.2)

/-- Writing an entry at an offset. -/
def writeEntry (addr : ℕ) (e : DirEntry) (ofs : ℤ) (S : System) : Option (Bool × System) :=
  (S.dirAt addr).bind fun dir => (S.writeAt dir.inode e.encode entrySize ofs).map fun r =>
    (decide (r.1 = entrySize),r.2)

/-- `dir_create`. -/
def dirCreate (sector : BlockSector) (entryCnt : ℤ) (S : System) : Option (Bool × System) :=
  let c := Fs.inodeCreate sector (entryCnt * entrySize) true S.vol
  let S := { S with vol := ignoreResult c }
  if c.1 then
    let i := S.inodeOpen sector
    let d := i.2.dirOpen i.1
    (d.2.writeEntry d.1 ⟨sector,Vector.replicate 31 0,true⟩ 0).bind fun r =>
      (r.2.dirClose d.1).map fun S => (r.1,S)
  else some (false,S)

/-- `dir_add` of a file; no caller adds a directory. The slot is the first one free, the parent
entry included, or the end of the file. -/
def dirAdd (addr : ℕ) (name : CString) (inodeSector : BlockSector) (S : System) : Option (Bool × System) :=
  if name = [] ∨ nameMax < name.length then some (false,S)
  else (S.lookup addr name).bind fun r =>
    if r.isSome then some (false,S)
    else (S.scanDir addr (fun e => !e.inUse) 0).bind fun slot =>
      S.writeEntry addr ⟨inodeSector,strncpyName name,true⟩ slot.2

/-- The part of `dir_remove` after the inode was opened. -/
def dirErase (addr inode : ℕ) (e : DirEntry) (ofs : ℤ) (S : System) : Option (Bool × System) :=
  (S.writeEntry addr { e with inUse := false } ofs).bind fun r =>
    if r.1 then (r.2.inodeRemove inode).bind fun S => (S.inodeClose inode).map fun S => (true,S)
    else (r.2.inodeClose inode).map fun S => (false,S)

/-- `dir_remove`. A directory that is to be removed is opened and closed once, which frees its
inode, before it is used again. -/
def dirRemove (addr : ℕ) (name : CString) (S : System) : Option (Bool × System) :=
  (S.lookup addr name).bind fun r =>
    match r with
    | none => some (false,S)
    | some (e,ofs) =>
      let i := S.inodeOpen e.inodeSector
      (i.2.inodeAt i.1).bind fun inode =>
        if inode.data.isDir then
          let d := i.2.dirOpen i.1
          (d.2.dirIsEmpty d.1).bind fun empty => (d.2.dirClose d.1).bind fun S =>
            if empty then S.dirErase addr i.1 e ofs
            else (S.inodeClose i.1).map fun S => (false,S)
        else i.2.dirErase addr i.1 e ofs

/-- `dir_readdir`: the name of the next entry in use. -/
def dirReaddir (addr : ℕ) (S : System) : Option (Option CString × System) :=
  (S.dirAt addr).bind fun dir => (S.scanDir addr (fun e => e.inUse) dir.pos).map fun r =>
    match r with
    | (some e,ofs) => (some e.cname,S.setDir { dir with pos := ofs + entrySize })
    | (none,ofs) => (none,S.setDir { dir with pos := ofs })

end System
end ShellOS.Fs
