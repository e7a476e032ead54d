import ShellOS.Fs.Fragmentation

/-! The file system on a disk whose files hold other data. What looks at names, lengths and sectors only
does not see the difference. -/
namespace ShellOS.Fs
open CLib SlotTable BlockTree

/-- The file system with another disk behind it. -/
def System.onDisk (disk : BlockSector → Sector) (S : System) : System :=
  { S with vol := { S.vol with sectors := disk } }

/-- The disk differs from that of `S` in the data sectors of the files only. -/
def OtherData (S : System) (live : Set BlockSector) (disk : BlockSector → Sector) : Prop :=
  ∀ p, (∀ s ∈ live, s ≠ rootDirSector → p ∉ S.sectorsOf s) → disk p = S.vol.sectors p

section
variable {S S' : System} {live : Set BlockSector} {root : Option Dir} {d : Dir} {i : Inode} {s p : BlockSector}
  {name : CString} {disk : BlockSector → Sector} {D : ℕ}

/-! ### What the two disks have in common -/

theorem Intact.mem_sectorsOf (h : Intact S live) (hs : s ∈ live) (hp : p ∈ S.sectorsOf s) :
    p ≠ 0 ∧ ∃ t, inodeShape t = .leaf ∧ ptr S.vol (S.record s) t = p := by
  have hsized := (h.file s hs).sized
  have hn := bytesToSectors_eq hsized.nonneg hsized.le
  have hle := hsized.le
  rw [h.sectorsOf_eq hs,← h.record_length hs] at hp
  obtain ⟨k,hk,rfl⟩ := List.mem_map.mp hp
  have hk := List.mem_range.mp hk
  exact ⟨hsized.mapped _ (dataSlot_mem hk (by unfold maxSectors; omega)),_,dataSlot_leaf k,rfl⟩

theorem OtherData.of_same (hd : OtherData S live disk) (h : Intact S live) (h' : Intact S' live) (hv : S'.vol = S.vol)
    (hb : ∀ p, S'.bytes p = S.bytes p) : OtherData S' live disk := by
  intro p hp
  rw [hv]
  exact hd p fun s hs hne hm => hp s hs hne (h.sectorsOf_congr h' (hb s) hv hs ▸ hm)

/-- A sector of a file, unless it is a data sector of a file other than the root directory. -/
theorem OtherData.sector_eq (hd : OtherData S live disk) (h : Intact S live) (hs : s ∈ live) (ho : S.Owned s p)
    (hleaf : s ≠ rootDirSector → ∀ t, inodeShape t = .leaf → ptr S.vol (S.record s) t ≠ p) : disk p = S.vol.sectors p := by
  refine hd p fun s' hs' hne hp => ?_
  obtain ⟨h0,t,ht,rfl⟩ := h.mem_sectorsOf hs' hp
  obtain rfl := h.apart s' hs' s hs _ (.inr ⟨h0,t,by rw [ht]; decide,rfl⟩) ho
  exact hleaf hne t ht rfl

theorem OtherData.record_sector (hd : OtherData S live disk) (h : Intact S live) (hs : s ∈ live) : disk s = S.vol.sectors s :=
  hd.sector_eq h hs (.inl rfl) fun _ t ht => h.self s hs t (by rw [ht]; decide)

theorem OtherData.ptr_eq (hd : OtherData S live disk) (h : Intact S live) (hs : s ∈ live) {t : Slot} (ht : inodeShape t ≠ .absent) :
    ptr (S.onDisk disk).vol (S.record s) t = ptr S.vol (S.record s) t := by
  refine ptr_congr (fun q hq => ?_) (treeShape_ne_absent.mp ht)
  obtain ⟨u,hu,rfl⟩ := isBlock_place hq
  refine hd.sector_eq h hs (.inr ⟨hq.1,u,by rw [hu]; decide,rfl⟩) fun _ t ht he => ?_
  obtain rfl := (h.file s hs).owns.inj t u (by rw [ht]; decide) (by rw [hu]; decide) he (he ▸ hq.1)
  rw [hu] at ht
  cases ht

theorem OtherData.sized (hd : OtherData S live disk) (h : Intact S live) (hs : s ∈ live) : Sized (S.onDisk disk).vol (S.record s) := by
  have hsized := (h.file s hs).sized
  exact ⟨hsized.nonneg,hsized.le,fun t ht => (hd.ptr_eq h hs (inodeWalk_place ht)).symm ▸ hsized.mapped t ht⟩

theorem OtherData.getInodeDataSectors (hd : OtherData S live disk) (h : Intact S live) (hs : s ∈ live) :
    getInodeDataSectors (S.onDisk disk).vol (S.record s) = getInodeDataSectors S.vol (S.record s) := by
  have hsized := (h.file s hs).sized
  have hn := bytesToSectors_eq hsized.nonneg hsized.le
  have hle := hsized.le
  have hmax : bytesToSectors (S.record s).length ≤ maxSectors := by
    unfold maxSectors
    omega
  rw [getInodeDataSectors_eq _ hsized.nonneg hmax,getInodeDataSectors_eq _ hsized.nonneg hmax,
    ← dataSectors_eq (hd.sized h hs).mapped hmax,← dataSectors_eq hsized.mapped hmax]
  exact congrArg some (List.map_congr_left fun k _ => hd.ptr_eq h hs (dataSlot_place k))

/-- The root directory has the same bytes on both disks. -/
theorem OtherData.storedBytes_root (hd : OtherData S live disk) (h : Intact S live) (hs : rootDirSector ∈ live) :
    storedBytes (S.onDisk disk).vol (S.record rootDirSector) = storedBytes S.vol (S.record rootDirSector) := by
  have hsized := (h.file _ hs).sized
  rw [storedBytes_eq (hd.sized h hs),storedBytes_eq hsized]
  refine content_congr hsized.nonneg hsized.le rfl fun k hk => ⟨hd.ptr_eq h hs (dataSlot_place k),?_⟩
  have hn := bytesToSectors_eq hsized.nonneg hsized.le
  have hle := hsized.le
  have hne := hsized.mapped _ (dataSlot_mem hk (by unfold maxSectors; omega))
  exact hd.sector_eq h hs (.inr ⟨hne,_,dataSlot_place k,rfl⟩) fun hc => absurd rfl hc

/-! ### The operations -/

theorem OtherData.record_eq (hd : OtherData S live disk) (h : Intact S live) (hs : s ∈ live) :
    (S.onDisk disk).record s = S.record s := by
  by_cases hop : ∃ i ∈ S.openInodes, i.sector = s
  · obtain ⟨i,hi,rfl⟩ := hop
    have hrec : (S.onDisk disk).record i.sector = i.data := System.record_open h.sectors hi
    rw [hrec,System.record_open h.sectors hi]
  · have hno : ∀ i ∈ S.openInodes, i.sector ≠ s := fun i hi he => hop ⟨i,hi,he⟩
    have hrec : (S.onDisk disk).record s = disk s := System.record_closed hno
    rw [hrec,System.record_closed hno,hd.record_sector h hs]

theorem OtherData.inodeOpen (hd : OtherData S live disk) (h : Intact S live) (hs : s ∈ live) :
    (S.onDisk disk).inodeOpen s = ((S.inodeOpen s).1,(S.inodeOpen s).2.onDisk disk) := by
  have hin : (S.onDisk disk).inodes = S.inodes := rfl
  have hread : bufferCacheRead s (S.onDisk disk).vol = bufferCacheRead s S.vol := hd.record_sector h hs
  unfold System.inodeOpen
  rw [hin,hread]
  cases Keyed.lookup Inode.sector s S.inodes with
  | none => rfl
  | some i => rfl

theorem inodeClose_onDisk {addr : ℕ} (hr : ∀ i, S.inodeAt addr = some i → i.removed = false) (hc : S.inodeClose addr = some S') :
    (S.onDisk disk).inodeClose addr = some (S'.onDisk disk) := by
  have hat : (S.onDisk disk).inodeAt addr = S.inodeAt addr := rfl
  unfold System.inodeClose at hc ⊢
  rw [hat]
  obtain ⟨i,hi,rfl⟩ := Option.map_eq_some_iff.mp hc
  rw [hi,Option.map_some,hr i hi]
  by_cases h0 : i.openCnt - 1 = 0
  · rw [if_pos h0,if_pos h0]
    rfl
  · rw [if_neg h0,if_neg h0]
    rfl

theorem OtherData.scanDir (hd : OtherData S live disk) (h : Intact S live) (hD : OpenDir S D i) (hs : i.sector = rootDirSector)
    (p : DirEntry → Bool) {k : ℕ} (hk : k ≤ (S.entries rootDirSector).length) :
    (S.onDisk disk).scanDir D p (36 * k) = S.scanDir D p (36 * k) := by
  obtain ⟨dir,hdir,ha⟩ := hD.dir
  have hlive : rootDirSector ∈ live := hs ▸ (h.inode i hD.mem).1
  have hsized := (h.file _ hlive).sized
  have hrec : S.record rootDirSector = i.data := hs ▸ System.record_open h.sectors hD.mem
  have hroot := hd.storedBytes_root h hlive
  rw [System.entries,System.bytes,← storedBytes_eq hsized] at hk
  rw [hrec] at hroot hk hsized
  have hat : (S.onDisk disk).inodeAt dir.inode = some i := ha ▸ h.inodeAt_eq hD.mem
  have hdir' : (S.onDisk disk).dirAt D = some dir := hdir
  rw [System.scanDir,hdir',Option.bind_some,hat,Option.map_some,scanEntries_all _ hsized.nonneg (hroot.symm ▸ hk),hroot]
  rw [System.scanDir,hdir,Option.bind_some,ha,h.inodeAt_eq hD.mem,Option.map_some,scanEntries_all _ hsized.nonneg hk]

theorem OtherData.dirOpenRoot (hd : OtherData S live disk) (h : Session S live root) (ho : S.dirOpenRoot = some (D,S')) :
    (S.onDisk disk).dirOpenRoot = some (D,S'.onDisk disk) := by
  have hcwd : (S.onDisk disk).cwd = S.cwd := rfl
  unfold System.dirOpenRoot at ho ⊢
  rw [hcwd]
  cases hc : S.cwd with
  | none =>
    rw [hc] at ho
    dsimp only at ho ⊢
    obtain ⟨rfl,rfl⟩ := Prod.mk.inj (Option.some.inj ho)
    rw [hd.inodeOpen h.intact h.root_mem]
    rfl
  | some cwd =>
    rw [hc] at ho
    dsimp only at ho ⊢
    obtain ⟨dir,hdir,he⟩ := Option.map_eq_some_iff.mp ho
    obtain ⟨rfl,rfl⟩ := Prod.mk.inj he
    have hdir' : (S.onDisk disk).dirAt cwd = some dir := hdir
    rw [hdir',Option.map_some]
    rfl

theorem dirClose_onDisk (h : Session S live (some d)) (hc : S.dirClose d.addr = some S') :
    (S.onDisk disk).dirClose d.addr = some (S'.onDisk disk) := by
  have hdir' : (S.onDisk disk).dirAt d.addr = some d := h.dirAt
  rw [System.dirClose,h.dirAt,Option.bind_some] at hc
  rw [System.dirClose,hdir',Option.bind_some]
  by_cases h1 : d.openCnt - 1 = 0
  · rw [if_pos h1] at hc ⊢
    obtain ⟨S₁,hcl,rfl⟩ := Option.map_eq_some_iff.mp hc
    have hkept : ∀ i, S.inodeAt d.inode = some i → i.removed = false := by
      intro i hi
      obtain ⟨j,hj,ha,-⟩ := h.opened d rfl
      rw [ha,h.intact.inodeAt_eq hj] at hi
      exact Option.some.inj hi ▸ h.kept j hj
    rw [inodeClose_onDisk hkept hcl,Option.map_some]
    rfl
  · rw [if_neg h1] at hc ⊢
    obtain rfl := Option.some.inj hc
    rfl

theorem OtherData.dirReaddir (hd : OtherData S live disk) (h : Session S live (some d)) {k : ℕ} (hk : k ≤ (S.entries rootDirSector).length)
    (hp : d.pos = 36 * k) {r : Option CString} (hr : S.dirReaddir d.addr = some (r,S')) :
    (S.onDisk disk).dirReaddir d.addr = some (r,S'.onDisk disk) := by
  have hdir' : (S.onDisk disk).dirAt d.addr = some d := h.dirAt
  obtain ⟨i,hD,hs⟩ := h.openDir
  have hscan := hd.scanDir h.intact hD hs DirEntry.inUse hk
  rw [System.dirReaddir_eq h.dirAt,hp] at hr
  rw [System.dirReaddir_eq hdir',hp,hscan]
  obtain ⟨⟨e,ofs⟩,he,hr⟩ := Option.map_eq_some_iff.mp hr
  rw [he,Option.map_some]
  cases e with
  | none =>
    obtain ⟨rfl,rfl⟩ := Prod.mk.inj hr
    rfl
  | some e =>
    obtain ⟨rfl,rfl⟩ := Prod.mk.inj hr
    rfl

theorem OtherData.dirLookup (hd : OtherData S live disk) (h : Session S live (some d)) (hn : PlainName name) {r : Option ℕ}
    (hr : S.dirLookup d.addr name = some (r,S')) : (S.onDisk disk).dirLookup d.addr name = some (r,S'.onDisk disk) := by
  obtain ⟨i,hD,hs⟩ := h.openDir
  have hscan : (S.onDisk disk).lookup d.addr name = S.lookup d.addr name := by
    have hat := hd.scanDir h.intact hD hs (fun e => e.inUse && name == e.cname) (k := 1) h.table.length_pos
    exact congrArg (Option.map fun r => r.1.map fun e => (e,r.2)) hat
  rw [System.dirLookup,if_neg hn.ne_dot,if_neg hn.ne_dotdot] at hr ⊢
  rw [hscan]
  cases h.lookup name with
  | inl hl =>
    rw [hl.2,Option.map_some] at hr ⊢
    obtain ⟨rfl,rfl⟩ := Prod.mk.inj (Option.some.inj hr)
    rfl
  | inr hl =>
    obtain ⟨e,k,hl,he⟩ := hl
    rw [hl,Option.map_some] at hr ⊢
    dsimp only at hr ⊢
    obtain ⟨rfl,rfl⟩ := Prod.mk.inj (Option.some.inj hr)
    rw [hd.inodeOpen h.intact (h.table.entryOf_file he).1]

theorem OtherData.filesysOpen (hd : OtherData S live disk) (h : Session S live root) (hn : PlainName name) {r : Option File}
    (hr : S.filesysOpen name = some (r,S')) : (S.onDisk disk).filesysOpen name = some (r,S'.onDisk disk) := by
  by_cases hne : name = []
  · rw [System.filesysOpen,if_pos hne] at hr ⊢
    obtain ⟨rfl,rfl⟩ := Prod.mk.inj (Option.some.inj hr)
    rfl
  obtain ⟨dir,S₁,hopen,h₁,hre,hidle₁,-⟩ := h.dirOpenRoot
  have hd₁ := hd.of_same h.intact h₁.intact hidle₁.vol hidle₁.bytes
  have hopen' := hd.dirOpenRoot h hopen
  unfold System.filesysOpen at hr ⊢
  rw [if_neg hne,split_noSlash hn.no_slash] at hr ⊢
  dsimp only at hr ⊢
  rw [hopen,Option.bind_some,if_neg hne] at hr
  rw [hopen',Option.bind_some,if_neg hne]
  dsimp only at hr ⊢
  obtain ⟨q,hq,hrest⟩ := Option.bind_eq_some_iff.mp hr
  obtain ⟨⟨o,S₂⟩,hl,hq⟩ := Option.bind_eq_some_iff.mp hq
  obtain ⟨S₃,hcl,rfl⟩ := Option.map_eq_some_iff.mp hq
  have hS₂ : Session S₂ live (some dir) := by
    cases h₁.dirLookup hn with
    | inl hno =>
      rw [hno.2] at hl
      exact (Prod.mk.inj (Option.some.inj hl)).2 ▸ h₁
    | inr hyes =>
      obtain ⟨i,S₄,hl',h₄,-⟩ := hyes
      rw [hl'] at hl
      exact (Prod.mk.inj (Option.some.inj hl)).2 ▸ h₄
  rw [hd₁.dirLookup h₁ hn hl,Option.bind_some]
  dsimp only at hcl hrest ⊢
  rw [dirClose_onDisk hS₂ hcl,Option.map_some,Option.bind_some]
  dsimp only
  cases o with
  | none =>
    obtain ⟨rfl,rfl⟩ := Prod.mk.inj (Option.some.inj hrest)
    rfl
  | some addr =>
    dsimp only at hrest ⊢
    obtain ⟨i,hi,hrest⟩ := Option.map_eq_some_iff.mp hrest
    have hi' : (S₃.onDisk disk).inodeAt addr = some i := hi
    rw [hi',Option.map_some]
    by_cases hrem : i.removed = true
    · rw [if_pos hrem] at hrest ⊢
      obtain ⟨rfl,rfl⟩ := Prod.mk.inj hrest
      rfl
    · rw [if_neg hrem] at hrest ⊢
      obtain ⟨rfl,rfl⟩ := Prod.mk.inj hrest
      rfl

theorem OtherData.tableFile (hd : OtherData S live disk) (h : Session S live root) (hn : PlainName name) {r : Option File}
    (hr : S.tableFile name = some (r,S')) : (S.onDisk disk).tableFile name = some (r,S'.onDisk disk) := by
  have hget : ∀ T : System, (T.onDisk disk).getFileByFname name = T.getFileByFname name := fun _ => rfl
  unfold System.tableFile at hr ⊢
  rw [hget]
  cases hf : S.getFileByFname name with
  | some f =>
    rw [hf] at hr
    obtain ⟨rfl,rfl⟩ := Prod.mk.inj (Option.some.inj hr)
    rfl
  | none =>
    rw [hf] at hr
    dsimp only at hr ⊢
    obtain ⟨⟨o,S₁⟩,ho,hr⟩ := Option.map_eq_some_iff.mp hr
    rw [hd.filesysOpen h hn ho,Option.map_some]
    cases o with
    | none =>
      obtain ⟨rfl,rfl⟩ := Prod.mk.inj hr
      rfl
    | some f =>
      obtain ⟨rfl,rfl⟩ := Prod.mk.inj hr
      dsimp only
      have hadd : (S₁.onDisk disk).addToFileTable f name = (S₁.addToFileTable f name).onDisk disk := by
        unfold System.addToFileTable
        rw [hget]
        split <;> rfl
      rw [hadd]

theorem OtherData.fsutilSize (hd : OtherData S live disk) (h : Session S live root) (hn : PlainName name) {n : ℤ}
    (hr : S.fsutilSize name = some (n,S')) : (S.onDisk disk).fsutilSize name = some (n,S'.onDisk disk) := by
  unfold System.fsutilSize at hr ⊢
  obtain ⟨⟨o,S₁⟩,ho,hr⟩ := Option.bind_eq_some_iff.mp hr
  rw [hd.tableFile h hn ho,Option.bind_some]
  cases o with
  | none =>
    obtain ⟨rfl,rfl⟩ := Prod.mk.inj (Option.some.inj hr)
    rfl
  | some f =>
    dsimp only at hr ⊢
    obtain ⟨l,hl,hr⟩ := Option.bind_eq_some_iff.mp hr
    obtain ⟨S₂,hs,he⟩ := Option.map_eq_some_iff.mp hr
    obtain ⟨rfl,rfl⟩ := Prod.mk.inj he
    have hl' : (S₁.onDisk disk).fileLength f = some l := hl
    have hs' : (S₁.onDisk disk).fileSeek name f.pos = some (S₂.onDisk disk) := by
      obtain ⟨g,hg,rfl⟩ := Option.map_eq_some_iff.mp hs
      have hg' : (S₁.onDisk disk).getFileByFname name = some g := hg
      rw [System.fileSeek,hg',Option.map_some]
      rfl
    rw [hl',Option.bind_some,hs',Option.map_some]

theorem OtherData.unmoved (hd : OtherData S live disk) (h : Intact S live) (h' : Intact S' live) (hu : Unmoved S S') :
    OtherData S' live disk := hd.of_same h h' hu.vol hu.bytes

/-- A loop over the root directory runs alike on both disks. -/
theorem OtherData.alike (hd : OtherData S live disk) (h : Session S live none) : Alike S live (System.onDisk disk) where
  dirOpenRoot _ _ ho := hd.dirOpenRoot h ho
  dirAt _ _ := rfl
  inodeAt _ _ := rfl
  dirReaddir _ _ _ _ _ hT hu hk hp hr := (hd.unmoved h.intact hT.intact hu).dirReaddir hT hk hp hr
  dirClose _ _ _ hT hc := dirClose_onDisk hT hc

end
end ShellOS.Fs
