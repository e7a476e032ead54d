import ShellOS.Fs.Content

/-! The free map and the file it is written through to. Allocation and release leave every
sector alone except the data sectors of that file. -/
namespace ShellOS.Fs
open BlockTree

def Used (v : Volume) (s : BlockSector) : Prop :=
  s.toNat < v.freeMap.bitCnt ∧ v.freeMap.bitmapTest s.toNat = true

def Free (v : Volume) (s : BlockSector) : Prop :=
  s.toNat < v.freeMap.bitCnt ∧ v.freeMap.bitmapTest s.toNat = false

theorem Used.not_free {v : Volume} {s : BlockSector} (h : Used v s) : ¬ Free v s := by
  intro hf
  have := h.2.symm.trans hf.2
  simp at this

/-- A data sector of the free-map file. -/
def FmLeaf (v : Volume) (s : BlockSector) : Prop :=
  ∃ fm, v.freeMapFile = some fm ∧ ∃ i < bytesToSectors fm.data.length, ptr v fm.data (dataSlot i) = s

/-- Any sector of the free-map file. -/
def FmNode (v : Volume) (s : BlockSector) : Prop :=
  s ≠ 0 ∧ ∃ fm, v.freeMapFile = some fm ∧ ∃ t : Slot, t.2.length ≤ inodeLevel t.1 ∧ ptr v fm.data t = s

/-- The open free-map file can be written without growing. -/
structure FmReady (v : Volume) (fm : Inode) : Prop where
  deny : fm.denyWriteCnt = 0
  length : fm.data.length = byteCnt v.freeMap.bitCnt
  distinct : Distinct v fm.data
  sized : Sized v fm.data
  used : ∀ t : Slot, t.2.length ≤ inodeLevel t.1 → ptr v fm.data t ≠ 0 → Used v (ptr v fm.data t)

/-- The free map covers 32-bit sector numbers, keeps sector 0 allocated, and its file, once
open, holds its current bytes. -/
structure Volume.Ok (v : Volume) : Prop where
  bitCnt_lt : v.freeMap.bitCnt < 4294967296
  zero_used : Used v 0
  ready : ∀ fm, v.freeMapFile = some fm → FmReady v fm
  synced : ∀ fm, v.freeMapFile = some fm → content v fm.data = v.freeMap.bytes

theorem FmReady.leaf_ne_zero {v : Volume} {fm : Inode} (h : FmReady v fm) {i : ℕ}
    (hi : i < bytesToSectors fm.data.length) : ptr v fm.data (dataSlot i) ≠ 0 := by
  have hn := bytesToSectors_eq h.sized.nonneg h.sized.le
  have hle := h.sized.le
  exact h.sized.mapped _ (dataSlot_mem hi (by unfold maxSectors; omega))

theorem FmLeaf.node {v : Volume} {s : BlockSector} (hr : ∀ fm, v.freeMapFile = some fm → FmReady v fm)
    (h : FmLeaf v s) : FmNode v s := by
  obtain ⟨fm,hf,i,hi,rfl⟩ := h
  exact ⟨(hr fm hf).leaf_ne_zero hi,fm,hf,dataSlot i,(dataSlot_level i).le,rfl⟩

theorem FmNode.used {v : Volume} {s : BlockSector} (hr : ∀ fm, v.freeMapFile = some fm → FmReady v fm)
    (h : FmNode v s) : Used v s := by
  obtain ⟨h0,fm,hf,t,ht,rfl⟩ := h
  exact (hr fm hf).used t ht h0

/-- An indirect block of the free-map file is not a data sector of it. -/
theorem FmReady.block_not_leaf {v : Volume} {fm : Inode} (h : FmReady v fm)
    (hf : v.freeMapFile = some fm) {s : BlockSector} (hs : IsBlock v fm.data s) : ¬ FmLeaf v s := by
  rintro ⟨fm',hf',i,_,rfl⟩
  obtain rfl : fm' = fm := by simpa [hf] using hf'.symm
  exact h.distinct.dataSlot_not_block i hs

/-! ### Frames -/

/-- `v'` comes from `v` by steps that keep the free map and its file in order and change no
sectors but those in `X` and the data sectors of that file. -/
structure Keeps (v v' : Volume) (X : BlockSector → Prop) : Prop where
  ok : v'.Ok
  bitCnt : v'.freeMap.bitCnt = v.freeMap.bitCnt
  high : ∀ i, v.freeMap.bitCnt ≤ i → v'.freeMap.bitmapTest i = v.freeMap.bitmapTest i
  file : v'.freeMapFile = v.freeMapFile
  fmPtr : ∀ fm, v.freeMapFile = some fm → ∀ t : Slot, t.2.length ≤ inodeLevel t.1 →
    ptr v' fm.data t = ptr v fm.data t
  frame : ∀ s, ¬ X s → ¬ FmLeaf v s → Same v v' s

theorem Keeps.refl {v : Volume} (h : v.Ok) (X : BlockSector → Prop) : Keeps v v X :=
  ⟨h,rfl,fun _ _ => rfl,rfl,fun _ _ _ _ => rfl,fun s _ _ => Same.refl v s⟩

theorem Keeps.fmLeaf_iff {v v' : Volume} {X : BlockSector → Prop} (h : Keeps v v' X)
    (s : BlockSector) : FmLeaf v' s ↔ FmLeaf v s := by
  unfold FmLeaf
  rw [h.file]
  constructor
  · rintro ⟨fm,hf,i,hi,rfl⟩
    exact ⟨fm,hf,i,hi,(h.fmPtr fm hf _ (dataSlot_level i).le).symm⟩
  · rintro ⟨fm,hf,i,hi,rfl⟩
    exact ⟨fm,hf,i,hi,h.fmPtr fm hf _ (dataSlot_level i).le⟩

theorem Keeps.fmNode_iff {v v' : Volume} {X : BlockSector → Prop} (h : Keeps v v' X)
    (s : BlockSector) : FmNode v' s ↔ FmNode v s := by
  unfold FmNode
  rw [h.file]
  constructor
  · rintro ⟨h0,fm,hf,t,ht,rfl⟩
    exact ⟨h0,fm,hf,t,ht,(h.fmPtr fm hf t ht).symm⟩
  · rintro ⟨h0,fm,hf,t,ht,rfl⟩
    exact ⟨h0,fm,hf,t,ht,h.fmPtr fm hf t ht⟩

theorem Keeps.mono {v v' : Volume} {X Y : BlockSector → Prop} (h : Keeps v v' X)
    (hXY : ∀ s, X s → Y s) : Keeps v v' Y :=
  { h with frame := fun s hs hl => h.frame s (fun hx => hs (hXY s hx)) hl }

theorem Keeps.trans {u v w : Volume} {X : BlockSector → Prop} (h : Keeps u v X) (g : Keeps v w X) :
    Keeps u w X where
  ok := g.ok
  bitCnt := g.bitCnt.trans h.bitCnt
  high i hi := (g.high i (h.bitCnt.le.trans hi)).trans (h.high i hi)
  file := g.file.trans h.file
  fmPtr fm hf t ht := (g.fmPtr fm (h.file.trans hf) t ht).trans (h.fmPtr fm hf t ht)
  frame s hs hl := (h.frame s hs hl).trans (g.frame s hs (fun hc => hl ((h.fmLeaf_iff s).mp hc)))

/-- Steps that leave the free map and the sectors of its file as they are. -/
theorem keeps_of_same {v w : Volume} {X : BlockSector → Prop} (h : v.Ok) (hmap : w.freeMap = v.freeMap)
    (hfile : w.freeMapFile = v.freeMapFile) (hfm : ∀ s, FmNode v s → w.sectors s = v.sectors s)
    (hframe : ∀ s, ¬ X s → ¬ FmLeaf v s → Same v w s) : Keeps v w X := by
  have hblk : ∀ fm, v.freeMapFile = some fm → ∀ s, IsBlock v fm.data s → w.sectors s = v.sectors s := by
    rintro fm hf s ⟨hs0,j,π,hπ,he⟩
    exact hfm s ⟨hs0,fm,hf,(j,π),hπ.le,he⟩
  have hptr : ∀ fm, v.freeMapFile = some fm → ∀ t : Slot, t.2.length ≤ inodeLevel t.1 →
      ptr w fm.data t = ptr v fm.data t := fun fm hf t ht => ptr_congr (hblk fm hf) ht
  have hused : ∀ s, Used v s → Used w s := fun s hs => ⟨hmap ▸ hs.1,hmap ▸ hs.2⟩
  refine ⟨⟨hmap ▸ h.bitCnt_lt,hused 0 h.zero_used,?_,?_⟩,by rw [hmap],fun _ _ => by rw [hmap],hfile,hptr,hframe⟩
  · intro fm hf
    rw [hfile] at hf
    have hr := h.ready fm hf
    refine ⟨hr.deny,hmap ▸ hr.length,hr.distinct.congr (hblk fm hf),hr.sized.congr (hblk fm hf),?_⟩
    intro t ht h0
    rw [hptr fm hf t ht] at h0 ⊢
    exact hused _ (hr.used t ht h0)
  · intro fm hf
    rw [hfile] at hf
    have hr := h.ready fm hf
    rw [hmap]
    refine (content_congr hr.sized.nonneg hr.sized.le rfl fun i hi => ?_).trans (h.synced fm hf)
    exact ⟨hptr fm hf _ (dataSlot_level i).le,hfm _ (FmLeaf.node h.ready ⟨fm,hf,i,hi,rfl⟩)⟩

/-- A write outside the free-map file. -/
theorem keeps_write {v : Volume} (h : v.Ok) {p : BlockSector} (data : Sector) (hp : ¬ FmNode v p) :
    Keeps v (bufferCacheWrite p data v) (· = p) := by
  refine keeps_of_same h rfl rfl (fun s hs => ?_) fun s hs _ => same_write v data hs
  refine (same_write v data ?_).1
  rintro rfl
  exact hp hs

theorem freeMapInit_ok (disk : BlockSector → Sector) {n : ℕ} (h : 2 < n) (h' : n ≤ 4294967296) :
    (freeMapInit disk n).Ok := by
  have hcnt : (freeMapInit disk n).freeMap.bitCnt = n - 1 := rfl
  refine ⟨by omega,⟨by rw [hcnt]; exact Nat.sub_pos_of_lt (by omega),?_⟩,fun fm hf => ?_,fun fm hf => ?_⟩
  · have h0 : (0 : BlockSector).toNat = 0 := rfl
    have h1 : (1 : BlockSector).toNat = 1 := rfl
    have hb : (Bitmap.bitmapCreate (n-1)).bitCnt = n - 1 := rfl
    unfold freeMapInit freeMapSector rootDirSector
    dsimp only
    rw [h0,h1,Bitmap.test_mark _ _ (by rw [Bitmap.mark_bitCnt,hb]; omega),
      Bitmap.test_mark _ _ (by rw [hb]; omega)]
    simp
  · simp [freeMapInit] at hf
  · simp [freeMapInit] at hf

/-! ### Writing the map through -/

theorem Used.ne_minus_one {v : Volume} {s : BlockSector} (hb : v.freeMap.bitCnt < 4294967296)
    (h : Used v s) : s ≠ -1 := by
  rintro rfl
  have h1 := h.1
  rw [show (-1 : BlockSector).toNat = 4294967295 from rfl] at h1
  omega

/-- The file as `free_map_create` makes it: it has the size of the map, with a block for every part of
it. Writing may be denied. -/
structure MapFile (v : Volume) (fm : Inode) : Prop where
  length : fm.data.length = byteCnt v.freeMap.bitCnt
  distinct : Distinct v fm.data
  sized : Sized v fm.data
  sector : ∀ i < bytesToSectors fm.data.length, ptr v fm.data (dataSlot i) ≠ -1

theorem FmReady.mapFile {v : Volume} {fm : Inode} (h : FmReady v fm) (hb : v.freeMap.bitCnt < 4294967296) :
    MapFile v fm :=
  ⟨h.length,h.distinct,h.sized,fun _ hi => (h.used _ (dataSlot_level _).le (h.leaf_ne_zero hi)).ne_minus_one hb⟩

/-- Writing the map succeeds and changes only the data sectors of its file. -/
theorem bitmapWriteWith_spec (alloc : Allocator) {v : Volume} {fm : Inode}
    (h0 : 0 < v.freeMap.bitCnt) (hf : v.freeMapFile = some fm) (hdeny : fm.denyWriteCnt = 0)
    (h : MapFile v fm) : ∃ v', bitmapWriteWith alloc v = (true,v') ∧ v'.freeMap = v.freeMap ∧
      v'.freeMapFile = v.freeMapFile ∧ v'.releases = v.releases ∧
      (∀ s, ¬ FmLeaf v s → Same v v' s) ∧ content v' fm.data = v.freeMap.bytes := by
  have hcnt : 0 < byteCnt v.freeMap.bitCnt := by unfold byteCnt elemCnt elemBits; omega
  have hl := h.length
  have hi := h.sized.sector (0 + (byteCnt v.freeMap.bitCnt : ℤ) - 1) (by omega) (by omega)
  have hne : byteToSector v fm.data (0 + (byteCnt v.freeMap.bitCnt : ℤ) - 1) ≠ -1 := by
    rw [hi.2.2.1]
    exact h.sector _ hi.1
  obtain ⟨r1,r2,r3,r4,r5,r6⟩ := inodeWriteLoop_spec v.freeMap.bytes
    (byteCnt v.freeMap.bitCnt : ℤ).toNat (byteCnt v.freeMap.bitCnt) 0 0 h.distinct h.sized le_rfl le_rfl (by omega) (by omega) (by omega)
  have hwrite := inodeWriteAtWith_inside alloc v.freeMap.bytes (byteCnt v.freeMap.bitCnt) 0 hdeny
    h.sized le_rfl (by omega) (by omega) hne
  generalize inodeWriteLoop fm.data v.freeMap.bytes (byteCnt v.freeMap.bitCnt : ℤ).toNat
    (byteCnt v.freeMap.bitCnt) 0 0 v = w at r1 r2 r3 r4 r5 r6 hwrite
  refine ⟨{ w.2 with freeMapFile := some fm },?_,?_⟩
  · unfold bitmapWriteWith
    rw [hf]
    dsimp only
    rw [hwrite]
    dsimp only
    rw [r1,zero_add,decide_eq_true rfl]
  · refine ⟨r2,hf.symm,r4,fun s hs => r5 s fun i hi he => hs ⟨fm,hf,i,hi,he.symm⟩,?_⟩
    apply List.ext_getElem
    · rw [length_content,Bitmap.length_bytes]
      omega
    · intro k hk hk'
      simp only [Bitmap.length_bytes] at hk'
      have hr := r6 k
      rw [if_pos (by omega)] at hr
      simp only [content,List.getElem_map,List.getElem_range]
      refine hr.trans ?_
      rw [Int.toNat_zero,Nat.zero_add,Int.sub_zero,Int.toNat_natCast]
      exact List.getD_eq_getElem _ _ (by simpa using hk')

/-- Once the map is written through, it is in order. -/
theorem bitmapWriteWith_ok (alloc : Allocator) {u : Volume} {fm : Inode} (hb : u.freeMap.bitCnt < 4294967296)
    (h0 : Used u 0) (hf : u.freeMapFile = some fm) (hr : FmReady u fm) :
    ∃ w, bitmapWriteWith alloc u = (true,w) ∧ w.freeMap = u.freeMap ∧ w.freeMapFile = u.freeMapFile ∧
      w.releases = u.releases ∧ (∀ s, ¬ FmLeaf u s → Same u w s) ∧
      (∀ t : Slot, t.2.length ≤ inodeLevel t.1 → ptr w fm.data t = ptr u fm.data t) ∧ w.Ok := by
  obtain ⟨w,w1,w2,w3,w4,w5,w6⟩ := bitmapWriteWith_spec alloc (Nat.zero_lt_of_lt h0.1) hf
    hr.deny (hr.mapFile hb)
  have hblk : ∀ s, IsBlock u fm.data s → w.sectors s = u.sectors s :=
    fun s hs => (w5 s (hr.block_not_leaf hf hs)).1
  refine ⟨w,w1,w2,w3,w4,w5,fun t ht => ptr_congr hblk ht,⟨by rw [w2]; exact hb,?_,?_,?_⟩⟩
  · unfold Used
    rw [w2]
    exact h0
  · intro fm' hf'
    obtain rfl : fm = fm' := by simpa [w3,hf] using hf'
    refine ⟨hr.deny,by rw [w2]; exact hr.length,hr.distinct.congr hblk,hr.sized.congr hblk,?_⟩
    intro t ht hp
    rw [ptr_congr hblk ht] at hp ⊢
    unfold Used
    rw [w2]
    exact hr.used t ht hp
  · intro fm' hf'
    obtain rfl : fm = fm' := by simpa [w3,hf] using hf'
    rw [w6,w2]

/-- Writing the map through after it changed from `v` to `u` in memory. -/
theorem keeps_writeThrough (alloc : Allocator) {u v : Volume} (h : v.Ok)
    (hsec : u.sectors = v.sectors) (hwr : u.writes = v.writes) (hfile : u.freeMapFile = v.freeMapFile)
    (hcnt : u.freeMap.bitCnt = v.freeMap.bitCnt)
    (hhigh : ∀ i, v.freeMap.bitCnt ≤ i → u.freeMap.bitmapTest i = v.freeMap.bitmapTest i)
    (h0 : Used u 0) (hm : ∀ s, FmNode v s → Used u s) :
    (v.freeMapFile ≠ none → (bitmapWriteWith alloc u).1 = true) ∧
      (bitmapWriteWith alloc u).2.freeMap = u.freeMap ∧
      (bitmapWriteWith alloc u).2.releases = u.releases ∧
      Keeps v (bitmapWriteWith alloc u).2 (fun _ => False) := by
  have hb : u.freeMap.bitCnt < 4294967296 := hcnt ▸ h.bitCnt_lt
  have hsame : ∀ s, Same v u s := fun s => ⟨by rw [hsec],by rw [hwr]⟩
  rcases hf : v.freeMapFile with _ | fm
  · have hw : bitmapWriteWith alloc u = (false,u) := by
      rw [bitmapWriteWith,hfile,hf]
    rw [hw]
    refine ⟨fun hc => absurd rfl hc,rfl,rfl,⟨⟨hb,h0,?_,?_⟩,hcnt,hhigh,hfile,?_,fun s _ _ => hsame s⟩⟩
    · intro fm hf'
      simp [hfile,hf] at hf'
    · intro fm hf'
      simp [hfile,hf] at hf'
    · intro fm hf'
      simp [hf] at hf'
  have hr := h.ready fm hf
  have hblk0 : ∀ s, IsBlock v fm.data s → u.sectors s = v.sectors s := fun s _ => (hsame s).1
  have hptr0 : ∀ t : Slot, t.2.length ≤ inodeLevel t.1 → ptr u fm.data t = ptr v fm.data t :=
    fun t ht => ptr_congr hblk0 ht
  have hready : FmReady u fm := by
    refine ⟨hr.deny,hcnt ▸ hr.length,hr.distinct.congr hblk0,hr.sized.congr hblk0,?_⟩
    intro t ht hp
    rw [hptr0 t ht] at hp ⊢
    exact hm _ ⟨hp,fm,hf,t,ht,rfl⟩
  have hleaf : ∀ s, FmLeaf u s ↔ FmLeaf v s := by
    intro s
    unfold FmLeaf
    rw [hfile]
    refine exists_congr fun fm' => and_congr_right fun hf' => ?_
    obtain rfl : fm = fm' := by simpa [hf] using hf'
    simp only [hptr0 _ (dataSlot_level _).le]
  obtain ⟨w,w1,w2,w3,w4,w5,w6,w7⟩ := bitmapWriteWith_ok alloc hb h0 (hfile.trans hf) hready
  rw [w1]
  refine ⟨fun _ => rfl,w2,w4,⟨w7,by rw [w2]; exact hcnt,fun i hi => by rw [w2]; exact hhigh i hi,
    w3.trans hfile,fun fm' hf' t ht => ?_,fun s _ hs => (hsame s).trans (w5 s fun hc => hs ((hleaf s).mp hc))⟩⟩
  obtain rfl : fm = fm' := by simpa [hf] using hf'
  exact (w6 t ht).trans (hptr0 t ht)

/-! ### Allocation and release -/

/-- What is done with the run that the scan finds; `u` has it marked in the bitmap. -/
theorem freeMapAllocate_scanned {v u : Volume} {cnt i : ℕ} (hs : v.freeMap.bitmapScan 0 cnt false = some i)
    (hu : u = { v with freeMap := v.freeMap.bitmapSetMultiple i cnt true }) : freeMapAllocate cnt v =
      if u.freeMapFile.isNone then (some (UInt32.ofNat i),u) else
        match bitmapWriteWith (allocatorDepth v.freeMap.bitCnt) u with
        | (true,w) => (some (UInt32.ofNat i),w)
        | (false,w) => (none,{ w with freeMap := w.freeMap.bitmapSetMultiple i cnt false }) := by
  rw [freeMapAllocate,freeMapAllocateWith,Bitmap.bitmapScanAndFlip,hs,hu]
  rfl

/-- `free_map_allocate` takes the lowest free sector, or fails when there is none. -/
theorem freeMapAllocate_spec {v : Volume} (h : v.Ok) :
    (freeMapAllocate 1 v = (none,v) ∧ v.freeMap.clearBits = ∅) ∨
    ∃ p v', freeMapAllocate 1 v = (some p,v') ∧ Free v p ∧ (∀ s, Free v s → p.toNat ≤ s.toNat) ∧
      v'.freeMap = v.freeMap.bitmapSetMultiple p.toNat 1 true ∧ v'.releases = v.releases ∧
      Keeps v v' (fun _ => False) := by
  have hb := h.bitCnt_lt
  rcases hs : v.freeMap.bitmapScan 0 1 false with _ | i
  · left
    refine ⟨?_,Bitmap.scan_one_none hs⟩
    rw [freeMapAllocate,freeMapAllocateWith,Bitmap.bitmapScanAndFlip,hs]
  right
  obtain ⟨hi,hmin⟩ := Bitmap.scan_one_some hs
  rw [Bitmap.mem_clearBits] at hi
  have hn : (UInt32.ofNat i).toNat = i := by
    rw [UInt32.toNat_ofNat',Nat.mod_eq_of_lt (by omega)]
  have hfree : Free v (UInt32.ofNat i) := by
    unfold Free
    rwa [hn]
  have htest := Bitmap.test_setMultiple v.freeMap i 1 true (by omega)
  obtain ⟨u,hu⟩ : ∃ u : Volume, u = { v with freeMap := v.freeMap.bitmapSetMultiple i 1 true } := ⟨_,rfl⟩
  have hcnt : u.freeMap.bitCnt = v.freeMap.bitCnt := by rw [hu]; exact Bitmap.setMultiple_bitCnt _ _ _ _
  have hfile : u.freeMapFile = v.freeMapFile := by rw [hu]
  have hused : ∀ s, Used v s → Used u s := by
    intro s hs
    refine ⟨hcnt ▸ hs.1,?_⟩
    rw [hu]
    refine (htest _).trans ?_
    split
    · rfl
    · exact hs.2
  have hlow : ∀ s, Free v s → (UInt32.ofNat i).toNat ≤ s.toNat := by
    intro s hs
    rw [hn]
    exact hmin _ ((Bitmap.mem_clearBits _ _).mpr hs)
  have hmap : u.freeMap = v.freeMap.bitmapSetMultiple (UInt32.ofNat i).toNat 1 true := by rw [hn,hu]
  have hhigh : ∀ j, v.freeMap.bitCnt ≤ j → u.freeMap.bitmapTest j = v.freeMap.bitmapTest j := by
    intro j hj
    rw [hu]
    refine (htest j).trans (if_neg ?_)
    omega
  have hdef := freeMapAllocate_scanned hs hu
  obtain ⟨w1,w2,w3,w4⟩ := keeps_writeThrough (allocatorDepth v.freeMap.bitCnt) h
    (by rw [hu]) (by rw [hu]) hfile hcnt hhigh (hused 0 h.zero_used) (fun s hs => hused s (hs.used h.ready))
  rw [hdef]
  generalize hw : bitmapWriteWith (allocatorDepth v.freeMap.bitCnt) u = w at w1 w2 w3 w4 ⊢
  obtain ⟨ok,w⟩ := w
  rcases hf : v.freeMapFile with _ | fm
  · rw [bitmapWriteWith,hfile,hf] at hw
    obtain ⟨rfl,rfl⟩ := Prod.mk.inj hw
    refine ⟨UInt32.ofNat i,u,?_,hfree,hlow,hmap,by rw [hu],w4⟩
    rw [hfile,hf]
    rfl
  · obtain rfl : ok = true := w1 (by rw [hf]; exact Option.some_ne_none fm)
    refine ⟨UInt32.ofNat i,w,?_,hfree,hlow,w2.trans hmap,w3.trans (by rw [hu]),w4⟩
    rw [hfile,hf]
    rfl

/-- `free_map_release` of a sector that is not part of the free-map file. -/
theorem freeMapRelease_spec {v : Volume} (h : v.Ok) {p : BlockSector} (hp : Used v p) (h0 : p ≠ 0)
    (hfm : ¬ FmNode v p) :
    (freeMapRelease p 1 v).freeMap = v.freeMap.bitmapSetMultiple p.toNat 1 false ∧
      (freeMapRelease p 1 v).releases = Function.update v.releases p (v.releases p + 1) ∧
      Keeps v (freeMapRelease p 1 v) (fun _ => False) := by
  have htest := Bitmap.test_setMultiple v.freeMap p.toNat 1 false (by have := hp.1; omega)
  let u : Volume := { v with
    freeMap := v.freeMap.bitmapSetMultiple p.toNat 1 false
    releases := Function.update v.releases p (v.releases p + 1) }
  have hcnt : u.freeMap.bitCnt = v.freeMap.bitCnt := Bitmap.setMultiple_bitCnt _ _ _ _
  have hother : ∀ s, Used v s → s ≠ p → Used u s := by
    intro s hu hs
    refine ⟨hcnt ▸ hu.1,(htest _).trans ?_⟩
    rw [if_neg fun hc => hs (UInt32.toNat_inj.mp (by omega))]
    exact hu.2
  have hhigh : ∀ j, v.freeMap.bitCnt ≤ j → u.freeMap.bitmapTest j = v.freeMap.bitmapTest j := by
    intro j hj
    refine (htest j).trans (if_neg ?_)
    have := hp.1
    omega
  exact (keeps_writeThrough (freeMapAllocate 1) h (u := u) rfl rfl rfl hcnt hhigh (hother 0 h.zero_used h0.symm)
    fun s hs => hother s (hs.used h.ready) fun he => hfm (he ▸ hs)).2

end ShellOS.Fs
