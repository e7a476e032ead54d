import ShellOS.Fs.File

/-! Paths, and the operations of the file system by path. -/
namespace ShellOS.Fs
open CLib

/-- The tokens `strtok_r` cuts off one after the other, at most the given number. -/
def tokenLoop (delim : UInt8) : ℕ → Option CString × CString → List CString
  | 0,_ => []
  | _,(none,_) => []
  | rounds+1,(some token,cursor) => token::tokenLoop delim rounds (strtok delim none cursor)

/-- The components of a path. -/
def pathTokens (path : CString) : List CString := tokenLoop 47 path.length (strtok 47 (some path) [])

/-- `split_path_filename`: directory and file name. -/
def splitPathFilename (path : CString) : CString × CString :=
  let tokens := pathTokens path
  ((if path.head? = some 47 then [47] else []) ++ tokens.dropLast.flatMap (· ++ [47]),tokens.getLast?.getD [])

namespace System

/-- The loop of `dir_open_path` over the components. -/
def dirWalk : List CString → ℕ → System → Option (Option ℕ × System)
  | [],curr,S => some (some curr,S)
  | token::tokens,curr,S =>
    (S.dirLookup curr token).bind fun r =>
      match r.1 with
      | none => (r.2.dirClose curr).map fun S => (none,S)
      | some inode =>
        let next := r.2.dirOpen inode
        (next.2.dirClose curr).bind fun S => dirWalk tokens next.1 S

/-- `dir_open_path`. -/
def dirOpenPath (path : CString) (S : System) : Option (Option ℕ × System) :=
  (if path.head? = some 47 then S.dirOpenRoot
    else match S.cwd with
      | none => S.dirOpenRoot
      | some cwd => S.dirReopen cwd).bind fun start =>
    (dirWalk (pathTokens path) start.1 start.2).bind fun r =>
      match r.1 with
      | none => some (none,r.2)
      | some curr =>
        (r.2.dirAt curr).bind fun dir => (r.2.inodeAt dir.inode).bind fun inode =>
          if inode.removed then (r.2.dirClose curr).map fun S => (none,S) else some (some curr,r.2)

/-- The inode sector, the inode and the directory entry of a new file, up to the first that cannot
be had; the sector is 0 if there is none. -/
def createFile (dir : ℕ) (name : CString) (initialSize : ℤ) (S : System) :
    Option (Bool × BlockSector × System) :=
  match freeMapAllocate 1 S.vol with
  | (none,v) => some (false,0,{ S with vol := v })
  | (some sector,v) =>
    match inodeCreate sector initialSize false v with
    | (false,v) => some (false,sector,{ S with vol := v })
    | (true,v) => (dirAdd dir name sector { S with vol := v }).map fun r => (r.1,sector,r.2)

/-- `filesys_create` of a file; no caller creates a directory. The directory part of the path is
not used. -/
def filesysCreate (path : CString) (initialSize : ℤ) (S : System) : Option (Bool × System) :=
  S.dirOpenRoot.bind fun d => (d.2.createFile d.1 (splitPathFilename path).2 initialSize).bind fun r =>
    let S := if !r.1 && r.2.1 != 0 then { r.2.2 with vol := freeMapRelease r.2.1 1 r.2.2.vol } else r.2.2
    (S.dirClose d.1).map fun S => (r.1,S)

/-- `filesys_open`. Without a file name the root directory is not closed. -/
def filesysOpen (path : CString) (S : System) : Option (Option File × System) :=
  if path = [] then some (none,S) else
  let fileName := (splitPathFilename path).2
  S.dirOpenRoot.bind fun d =>
    (if fileName = [] then (d.2.dirAt d.1).map fun dir => (some dir.inode,d.2)
      else (d.2.dirLookup d.1 fileName).bind fun r => (r.2.dirClose d.1).map fun S => (r.1,S)).bind fun r =>
    match r.1 with
    | none => some (none,r.2)
    | some addr => (r.2.inodeAt addr).map fun inode =>
        if inode.removed then (none,r.2) else (some ⟨addr,0⟩,r.2)

/-- `filesys_remove`. -/
def filesysRemove (path : CString) (S : System) : Option (Bool × System) :=
  let (directory,fileName) := splitPathFilename path
  (S.dirOpenPath directory).bind fun r =>
    match r.1 with
    | none => some (false,r.2)
    | some dir => (r.2.dirRemove dir fileName).bind fun q => (q.2.dirClose dir).map fun S => (q.1,S)

/-- `filesys_chdir`; a current directory, if there is one, is closed first. -/
def filesysChdir (path : CString) (S : System) : Option (Bool × System) :=
  (S.dirOpenPath path).bind fun r =>
    match r.1 with
    | none => some (false,r.2)
    | some dir =>
      (match r.2.cwd with
        | none => some r.2
        | some cwd => r.2.dirClose cwd).map fun (S : System) => (true,{ S with cwd := some dir })

/-! ### Start and end -/

/-- The memory of a file system just started on a disk of `blockSize` sectors. -/
def start (disk : BlockSector → Sector) (blockSize : ℕ) : System where
  vol := freeMapInit disk blockSize
  openInodes := []
  dirs := []
  cwd := none
  fileTable := []
  nextAddr := 0

/-- `MAX_FILES_IN_DIRECTORY`. -/
def maxFilesInDirectory : ℤ := 1000

/-- `do_format`, and whether the root directory could be made. -/
def doFormat (S : System) : Option (Bool × System) :=
  (S.freeMapCreate.dirCreate rootDirSector maxFilesInDirectory).bind fun r =>
    r.2.freeMapClose.map fun S => (r.1,S)

/-- `filesys_init`, above the buffer cache. -/
def filesysInit (format : Bool) (disk : BlockSector → Sector) (blockSize : ℕ) : Option System :=
  if format then (doFormat (start disk blockSize)).map fun r => r.2.freeMapOpen
  else some (start disk blockSize).freeMapOpen

end System
end ShellOS.Fs
