import ShellOS.Fs.Fsutil2

/-! Positions of open files under reads, writes and seeks. -/
namespace ShellOS.Fs
open CLib

namespace System
variable {S S' : System} {fname name : CString} {f g : File}

/-! ### The file table -/

theorem getFileByFname_mem (h : S.getFileByFname fname = some f) : ⟨fname,f⟩ ∈ S.fileTable := by
  obtain ⟨e,he,rfl⟩ := Option.map_eq_some_iff.mp h
  obtain ⟨hm,rfl⟩ := Keyed.lookup_mem he
  exact hm

theorem getFileByFname_setFile (h : S.getFileByFname fname = some f) :
    (S.setFile fname g).getFileByFname fname = some g := by
  have hm := getFileByFname_mem h
  have hl : Keyed.lookup FileTableEntry.fname fname (Keyed.update FileTableEntry.fname ⟨fname,g⟩ S.fileTable) =
      some ⟨fname,g⟩ := Keyed.lookup_update_self (a := ⟨fname,g⟩) ⟨_,hm,rfl⟩
  rw [getFileByFname,setFile,hl,Option.map_some]

theorem getFileByFname_setFile_ne (h : name ≠ fname) :
    (S.setFile fname g).getFileByFname name = S.getFileByFname name := by
  have hl : Keyed.lookup FileTableEntry.fname name (Keyed.update FileTableEntry.fname ⟨fname,g⟩ S.fileTable) =
      Keyed.lookup FileTableEntry.fname name S.fileTable := Keyed.lookup_update_ne (a := (⟨fname,g⟩ : FileTableEntry)) h
  rw [getFileByFname,setFile,hl,← getFileByFname]

theorem tableFile_eq (h : S.getFileByFname fname = some f) : S.tableFile fname = some (some f,S) := by
  rw [tableFile,h]

/-- `file_write` moves the position by two bytes less than it wrote, whatever that was. -/
theorem fileWrite_pos {buffer : List UInt8} {size n : ℤ} (hf : S.getFileByFname fname = some f)
    (hw : S.fileWrite fname buffer size = some (n,S')) :
    S'.getFileByFname fname = some { f with pos := wrap32 (f.pos + (n - 2)) } := by
  rw [fileWrite,hf,Option.bind_some] at hw
  obtain ⟨r,hr,he⟩ := Option.map_eq_some_iff.mp hw
  obtain ⟨rfl,rfl⟩ := Prod.mk.inj he
  have htable : r.2.fileTable = S.fileTable := by
    obtain ⟨inode,-,rfl⟩ := Option.map_eq_some_iff.mp hr
    rfl
  refine getFileByFname_setFile (f := f) ?_
  rw [getFileByFname,htable,← getFileByFname]
  exact hf

theorem fsutilWrite_pos {buffer : List UInt8} {size n : ℤ} (hf : S.getFileByFname fname = some f)
    (hw : S.fsutilWrite fname buffer size = some (n,S')) :
    S'.getFileByFname fname = some { f with pos := wrap32 (f.pos + (n - 2)) } := by
  rw [fsutilWrite,tableFile_eq hf,Option.bind_some] at hw
  exact fileWrite_pos hf hw

end System

/-! ### Writes that fail -/

/-- What a write that wrote nothing should have left as it was: the file's record in memory and on
disk, its bytes, the position, and the free map. -/
structure Unchanged (S S' : System) (fname : CString) (f : File) : Prop where
  file : S'.getFileByFname fname = some f
  inode : S'.inodeAt f.inode = S.inodeAt f.inode
  disk : ∀ inode, S.inodeAt f.inode = some inode →
    S'.vol.sectors inode.sector = S.vol.sectors inode.sector ∧ content S'.vol inode.data = content S.vol inode.data
  freeMap : S'.vol.freeMap = S.vol.freeMap

theorem wrap32_sub_two_ne (x : ℤ) : wrap32 (x + (0 - 2)) ≠ x := by
  unfold wrap32
  omega

/-- A write that finds no space always moves the position. -/
theorem fsutilWrite_failed_changes {S S' : System} {fname : CString} {f : File} {buffer : List UInt8} {size : ℤ}
    (hf : S.getFileByFname fname = some f)
    (hw : S.fsutilWrite fname buffer size = some (0,S')) : ¬ Unchanged S S' fname f := by
  intro h
  have hpos := System.fsutilWrite_pos hf hw
  rw [h.file] at hpos
  have he := congrArg File.pos (Option.some.inj hpos)
  exact wrap32_sub_two_ne f.pos he.symm

/-- A full disk of five sectors: the free map and its block, an empty root directory, and an empty
file that is open under the name `a`. -/
def fullDisk : System where
  vol :=
    { sectors := fun s =>
        if s = 0 then (InodeDisk.create 8 false).setDirectBlock 0 2
        else if s = 1 then InodeDisk.create 0 true
        else if s = 2 then Sector.setWord Sector.zeros 0 15
        else if s = 3 then InodeDisk.create 0 false
        else Sector.zeros
      freeMap := (((((Bitmap.bitmapCreate 4).bitmapMark 0).bitmapMark 1).bitmapMark 2).bitmapMark 3)
      freeMapFile := some ⟨0,0,1,false,0,(InodeDisk.create 8 false).setDirectBlock 0 2⟩
      writes := fun _ => 0
      releases := fun _ => 0 }
  openInodes := [⟨1,3,1,false,0,InodeDisk.create 0 false⟩]
  dirs := []
  cwd := none
  fileTable := [⟨cstr "a",⟨1,0⟩⟩]
  nextAddr := 2

theorem fullDisk_write : ∃ S', fullDisk.fsutilWrite (cstr "a") [104,0] 2 = some (0,S') := by
  have h : (fullDisk.fsutilWrite (cstr "a") [104,0] 2).map Prod.fst = some 0 := by decide +kernel
  obtain ⟨r,hr,he⟩ := Option.map_eq_some_iff.mp h
  exact ⟨r.2,hr.trans (congrArg some (Prod.ext he rfl))⟩

/-- One byte more does not fit, and the position becomes -2. -/
theorem fullDisk_write_changes : ¬ ∀ (S S' : System) (fname : CString) (f : File) (buffer : List UInt8) (size : ℤ),
    S.getFileByFname fname = some f → 0 ≤ f.pos → 1 ≤ size → S.fsutilWrite fname buffer size = some (0,S') →
    Unchanged S S' fname f := by
  intro h
  obtain ⟨S',hw⟩ := fullDisk_write
  have hu := h fullDisk S' (cstr "a") ⟨1,0⟩ [104,0] 2 rfl (by decide) (by decide) hw
  have hpos := System.fsutilWrite_pos rfl hw
  rw [hu.file] at hpos
  have he := congrArg File.pos (Option.some.inj hpos)
  exact wrap32_sub_two_ne 0 he.symm

theorem fsutilWrite_failed_changes_fullDisk : ∃ S', fullDisk.fsutilWrite (cstr "a") [104,0] 2 = some (0,S') ∧
    ¬ Unchanged fullDisk S' (cstr "a") ⟨1,0⟩ := by
  obtain ⟨S',hw⟩ := fullDisk_write
  exact ⟨S',hw,fsutilWrite_failed_changes rfl hw⟩

end ShellOS.Fs
