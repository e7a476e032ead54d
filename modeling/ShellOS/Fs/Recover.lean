import ShellOS.Fs.OtherData

/-! `recover`: for which sectors and files it writes a file, and what of the sector gets into it. -/
namespace ShellOS.Fs
open CLib SlotTable BlockTree

/-! ### What is lost -/

section
variable {S : System} {beyond : ℕ → List UInt8} {i : ℕ} {t : CString}

end

/-! ### The bytes past the end of a file -/

/-- What the last of the data sectors holds behind the end of a file of `n` bytes. -/
def behindEnd (v : Volume) (sectors : List BlockSector) (n : ℕ) : List UInt8 :=
  (sectors.getLast?.map fun p => (sectorBytes v p).drop ((n - 1) % 512 + 1)).getD []

/-- The bytes behind the end of the file with a name, in its last data sector. -/
def System.slack (S : System) (name : CString) : List UInt8 :=
  ((entryOf (S.entries rootDirSector) name).map fun s => behindEnd S.vol (S.sectorsOf s) (S.bytes s).length).getD []

section
variable {S S₀ : System} {live : Set BlockSector} {root : Option Dir} {i : Inode} {f : File} {s : BlockSector} {name : CString}
  {disk : BlockSector → Sector} {t : CString}

/-- The file made for a range past the end. -/
def rangeFile (range beyond : List UInt8) : Option CString :=
  match range.dropWhile (· == 0) with
  | [] => none
  | rest => some (fputs rest beyond)

theorem length_sectorBytes (v : Volume) (p : BlockSector) : (sectorBytes v p).length = 512 := by
  simp [sectorBytes]

theorem pastEnd_eq {l : List BlockSector} {n : ℕ} (beyond : List UInt8) (hsec : getInodeDataSectors S.vol i.data = some l)
    (hl : l.length = bytesToSectors (n : ℤ)) (hle : n ≤ 8517120) : S.pastEnd beyond n i = rangeFile (behindEnd S.vol l n) beyond := by
  have hn : (bytesToSectors (n : ℤ) : ℤ) = (n + 511) / 512 := bytesToSectors_eq (by omega) (by omega)
  have hmod : ((n : ℤ).tmod 512).toNat = n % 512 := by
    rw [Int.tmod_eq_emod_of_nonneg (by omega)]
    omega
  unfold System.pastEnd
  rw [hsec,hmod,Option.getD_some,← hl]
  dsimp only
  by_cases h0 : n % 512 = 0
  · rw [if_pos h0]
    have hrange : behindEnd S.vol l n = [] := by
      unfold behindEnd
      cases hlast : l.getLast? with
      | none => rfl
      | some p =>
        have hpos : 0 < l.length := List.length_pos_iff.mpr fun hc => by
          rw [hc] at hlast
          cases hlast
        rw [Option.map_some,Option.getD_some]
        exact List.drop_eq_nil_of_le (by rw [length_sectorBytes]; omega)
    rw [hrange]
    rfl
  · have hlt : l.length - 1 < l.length := by omega
    have hend : (n - 1) % 512 + 1 = n % 512 := by omega
    have hrange : behindEnd S.vol l n = (sectorBytes S.vol (l.getD (l.length - 1) 0)).drop (n % 512) := by
      unfold behindEnd
      rw [List.getLast?_eq_getElem?,List.getD_eq_getElem?_getD,List.getElem?_eq_getElem hlt,Option.map_some,Option.getD_some,
        Option.getD_some,hend]
    rw [if_neg h0,hrange]
    rfl

theorem mem_foldl_append {α β : Type} (g : α → List β) {x : β} (l : List α) (acc : List β) :
    x ∈ l.foldl (fun acc a => acc ++ g a) acc ↔ x ∈ acc ∨ ∃ a ∈ l, x ∈ g a := by
  induction l generalizing acc with
  | nil => simp
  | cons a l ih =>
    rw [List.foldl_cons,ih,List.mem_append]
    simp [or_assoc]

/-- The names and lengths are those of the session, the bytes behind the ends are those of the disk. -/
theorem OtherData.slack (hd : OtherData S live disk) (h : Session S live none) (name : CString) : (S.onDisk disk).slack name =
    ((entryOf (S.entries rootDirSector) name).map fun s =>
      behindEnd (S.onDisk disk).vol (S.sectorsOf s) (S.bytes s).length).getD [] := by
  have hbytes : ∀ s ∈ live, ((S.onDisk disk).bytes s).length = (S.bytes s).length ∧ (S.onDisk disk).sectorsOf s = S.sectorsOf s := by
    intro s hs
    have hrec := hd.record_eq h.intact hs
    refine ⟨by rw [System.bytes,System.bytes,length_content,length_content,hrec],?_⟩
    rw [System.sectorsOf,hrec,hd.getInodeDataSectors h.intact hs,System.sectorsOf]
  have hent : (S.onDisk disk).entries rootDirSector = S.entries rootDirSector := by
    have hroot := hd.storedBytes_root h.intact h.root_mem
    rw [storedBytes_eq (hd.sized h.intact h.root_mem),storedBytes_eq (h.intact.file _ h.root_mem).sized] at hroot
    rw [System.entries,System.bytes,hd.record_eq h.intact h.root_mem,hroot]
    rfl
  rw [System.slack,hent]
  cases he : entryOf (S.entries rootDirSector) name with
  | none => rw [Option.map_none,Option.map_none]
  | some s =>
    obtain ⟨hlen,hsec⟩ := hbytes s (h.table.entryOf_file he).1
    rw [Option.map_some,Option.map_some,hlen,hsec]

/-- The loop body of `recover(2)`. -/
def tailFile (beyond : CString → List UInt8) (name : CString) (found : List (CString × CString)) (S : System) :
    Option (Bool × List (CString × CString) × System) :=
  (S.fsutilSize name).bind fun r =>
    if r.1 = -1 then some (true,found,r.2)
    else (r.2.getFileByFname name).bind fun f => (r.2.inodeAt f.inode).map fun inode =>
      (true,found ++ ((r.2.pastEnd (beyond name) r.1 inode).map fun t => (name,t)).toList,r.2)

theorem recoverTails_eq (beyond : CString → List UInt8) (S : System) : S.recoverTails beyond = S.overRoot (tailFile beyond) [] := rfl

/-- What a name adds to the files. -/
def addTail (slack : CString → List UInt8) (beyond : CString → List UInt8) (name : CString) (found : List (CString × CString)) :
    List (CString × CString) := found ++ ((rangeFile (slack name) (beyond name)).map fun t => (name,t)).toList

/-- `recover(2)` on a disk whose files hold anything: which files it writes. -/
theorem OtherData.recoverTails (hd : OtherData S live disk) (h : Session S live none) (beyond : CString → List UInt8) :
    ∃ l S', (S.onDisk disk).recoverTails beyond = some (l,S') ∧ l.complete = true ∧
      ∀ name t, (name,t) ∈ l.acc ↔ rangeFile ((S.onDisk disk).slack name) (beyond name) = some t := by
  have hbody : ∀ name ∈ nameList (S.entries rootDirSector), ∀ (found : List (CString × CString)) T d, Session T live (some d) → Unmoved S T →
      ∃ T', tailFile beyond name found (T.onDisk disk) = some (true,addTail (S.onDisk disk).slack beyond name found,T'.onDisk disk) ∧
        Session T' live (some d) ∧ Unmoved S T' := by
    intro name hname found T d hT hu
    obtain ⟨s,hs⟩ := Option.isSome_iff_exists.mp (h.table.mem_names.mp hname)
    have hsT : entryOf (T.entries rootDirSector) name = some s := hu.entries rootDirSector ▸ hs
    have hl := (h.table.entryOf_file hs).1
    obtain ⟨f,i,T',hsize,hT',hu',hf,hi,ha,his⟩ := hT.fsutilSize hsT
    have hSu := hu.trans hu'
    have hdT := hd.unmoved h.intact hT.intact hu
    have hdT' := hd.unmoved h.intact hT'.intact hSu
    have hsize' := hdT.fsutilSize hT (h.ordinary name s hs).plain hsize
    have hf' : (T'.onDisk disk).getFileByFname name = some f := hf
    have hi' : (T'.onDisk disk).inodeAt f.inode = some i := ha ▸ hT'.intact.inodeAt_eq hi
    have hrec : T'.record s = i.data := his ▸ System.record_open hT'.intact.sectors hi
    have hsec : Fs.getInodeDataSectors (T'.onDisk disk).vol i.data = some (S.sectorsOf s) := by
      have hsame := hdT'.getInodeDataSectors hT'.intact hl
      have hsized := (hT'.intact.file s hl).sized
      have hn := bytesToSectors_eq hsized.nonneg hsized.le
      have hle := hsized.le
      have hmax : bytesToSectors (T'.record s).length ≤ maxSectors := by
        unfold maxSectors
        omega
      have hlist := getInodeDataSectors_eq T'.vol hsized.nonneg hmax
      have hof : T'.sectorsOf s = S.sectorsOf s := h.intact.sectorsOf_congr hT'.intact (hSu.bytes s) hSu.vol hl
      rw [System.sectorsOf,hlist,Option.getD_some] at hof
      rw [← hrec,hsame,hlist,hof]
    have hsized := (h.intact.file s hl).sized
    have hlen := h.intact.record_length hl
    have hle := hsized.le
    have hbytes : (T.bytes s).length = (S.bytes s).length := congrArg List.length (hu.bytes s)
    have hpast := pastEnd_eq (beyond name) hsec (h.intact.length_sectorsOf hl) (by omega)
    have hslack : (S.onDisk disk).slack name = behindEnd (T'.onDisk disk).vol (S.sectorsOf s) (S.bytes s).length := by
      rw [hd.slack h,hs,Option.map_some,Option.getD_some,System.onDisk,System.onDisk,hSu.vol]
    refine ⟨T',?_,hT',hSu⟩
    rw [tailFile,hsize',Option.bind_some]
    dsimp only
    rw [if_neg (by omega),hf',Option.bind_some,hi',Option.map_some,hbytes,hpast,addTail,hslack]
  obtain ⟨S',hrun,-,-⟩ := h.overRoot_alike (hd.alike h) [] hbody
  refine ⟨_,_,(recoverTails_eq beyond _).trans hrun,rfl,fun name t => ?_⟩
  unfold addTail
  rw [mem_foldl_append]
  have hmem : ∀ other, (name,t) ∈ ((rangeFile ((S.onDisk disk).slack other) (beyond other)).map fun t => (other,t)).toList ↔
      other = name ∧ rangeFile ((S.onDisk disk).slack other) (beyond other) = some t := by
    intro other
    rw [Option.mem_toList,Option.map_eq_some_iff]
    constructor
    · rintro ⟨u,hu,he⟩
      obtain ⟨rfl,rfl⟩ := Prod.mk.inj he
      exact ⟨rfl,hu⟩
    · rintro ⟨rfl,hu⟩
      exact ⟨t,hu,rfl⟩
  simp only [hmem,List.not_mem_nil,false_or]
  constructor
  · rintro ⟨_,-,rfl,hu⟩
    exact hu
  · intro hu
    refine ⟨name,h.table.mem_names.mpr ?_,rfl,hu⟩
    by_contra hno
    have hnone := Option.not_isSome_iff_eq_none.mp hno
    rw [hd.slack h,hnone] at hu
    cases hu

end

section
variable {c : List UInt8}

end
end ShellOS.Fs
