import ShellOS.Fs.Tree

/-! The bytes of a file: the read loop returns them, and the write loop changes exactly the
range it is given, whatever the alignment to sectors. -/
namespace ShellOS.Fs
open BlockTree

/-- The places of an inode hold pairwise different sectors. -/
def Distinct (v : Volume) (d : InodeDisk) : Prop :=
  Separated 0 inodeLevel (childOf v) (inodeRoots d)

/-- The indirect blocks of an inode. -/
def IsBlock (v : Volume) (d : InodeDisk) (s : BlockSector) : Prop :=
  Interior 0 inodeLevel (childOf v) (inodeRoots d) s

/-- Sector `s` was neither written nor changed in between. -/
def Same (v v' : Volume) (s : BlockSector) : Prop :=
  v'.sectors s = v.sectors s ∧ v'.writes s = v.writes s

theorem Same.refl (v : Volume) (s : BlockSector) : Same v v s := ⟨rfl,rfl⟩
theorem Same.trans {u v w : Volume} {s : BlockSector} (h : Same u v s) (g : Same v w s) :
    Same u w s := ⟨g.1.trans h.1,g.2.trans h.2⟩

theorem same_write (v : Volume) {p s : BlockSector} (data : Sector) (h : s ≠ p) :
    Same v (bufferCacheWrite p data v) s :=
  ⟨Function.update_of_ne h _ _,Function.update_of_ne h _ _⟩

@[simp] theorem sectors_write (v : Volume) (p : BlockSector) (data : Sector) :
    (bufferCacheWrite p data v).sectors p = data := Function.update_self _ _ v.sectors

@[simp] theorem writes_write (v : Volume) (p : BlockSector) (data : Sector) :
    (bufferCacheWrite p data v).writes p = v.writes p + 1 := Function.update_self _ _ v.writes

theorem ptr_congr {v v' : Volume} {d : InodeDisk}
    (h : ∀ s, IsBlock v d s → v'.sectors s = v.sectors s) {s : Slot}
    (hs : s.2.length ≤ inodeLevel s.1) : ptr v' d s = ptr v d s := by
  apply node_congr (childOf_null v) (childOf_null v') _ hs
  intro p hp i
  rw [childOf_of_ne v hp.1,childOf_of_ne v' hp.1,h p hp]

theorem Distinct.congr {v v' : Volume} {d : InodeDisk} (hd : Distinct v d)
    (h : ∀ s, IsBlock v d s → v'.sectors s = v.sectors s) : Distinct v' d := by
  intro j π j' π' hπ hπ' he hne
  have h1 := ptr_congr h (s := (j,π)) hπ
  have h2 := ptr_congr h (s := (j',π')) hπ'
  unfold ptr at h1 h2
  rw [h1] at he hne
  rw [h2] at he
  exact hd j π j' π' hπ hπ' he hne

theorem Mapped.congr {v v' : Volume} {d : InodeDisk} {n : ℕ} (hm : Mapped v d n)
    (h : ∀ s, IsBlock v d s → v'.sectors s = v.sectors s) : Mapped v' d n := by
  intro s hs
  rw [ptr_congr h (mem_inodeWalk_level hs).2]
  exact hm s hs

/-- A data sector is not an indirect block of the same inode. -/
theorem Distinct.dataSlot_not_block {v : Volume} {d : InodeDisk} (hd : Distinct v d) (i : ℕ) :
    ¬ IsBlock v d (ptr v d (dataSlot i)) := hd.leaf_not_interior (dataSlot_level i)

/-- Byte `k` of the file. -/
def byteAt (v : Volume) (d : InodeDisk) (k : ℕ) : UInt8 :=
  Sector.byte (v.sectors (ptr v d (dataSlot (k / 512)))) (k % 512)

/-- The file as an array of bytes. -/
def content (v : Volume) (d : InodeDisk) : List UInt8 := (List.range d.length.toNat).map (byteAt v d)

@[simp] theorem length_content (v : Volume) (d : InodeDisk) :
    (content v d).length = d.length.toNat := by simp [content]

/-- The inode has a sector for every byte of its length. -/
structure Sized (v : Volume) (d : InodeDisk) : Prop where
  nonneg : 0 ≤ d.length
  le : d.length ≤ 8517120
  mapped : Mapped v d (bytesToSectors d.length)

theorem Sized.sector {v : Volume} {d : InodeDisk} (h : Sized v d) (pos : ℤ) (h0 : 0 ≤ pos)
    (hp : pos < d.length) : (pos / 512).toNat < bytesToSectors d.length ∧
      (pos / 512).toNat < maxSectors ∧
      byteToSector v d pos = ptr v d (dataSlot (pos / 512).toNat) ∧
      ptr v d (dataSlot (pos / 512).toNat) ≠ 0 := by
  have hn := bytesToSectors_eq h.nonneg h.le
  have hle := h.le
  have h1 : (pos / 512).toNat < bytesToSectors d.length := by omega
  have h2 : (pos / 512).toNat < maxSectors := by unfold maxSectors; omega
  have h3 := h.mapped _ (dataSlot_mem h1 h2)
  refine ⟨h1,h2,?_,h3⟩
  rw [byteToSector,if_pos ⟨h0,hp⟩]
  exact indexToSector_eq h2 h3

theorem Sized.congr {v v' : Volume} {d : InodeDisk} (hs : Sized v d)
    (h : ∀ s, IsBlock v d s → v'.sectors s = v.sectors s) : Sized v' d :=
  ⟨hs.nonneg,hs.le,hs.mapped.congr h⟩

/-- A file has the same bytes when its data sectors are where they were and did not change. -/
theorem content_congr {v v' : Volume} {d d' : InodeDisk} (h0 : 0 ≤ d.length) (hle : d.length ≤ 8517120)
    (hl : d'.length = d.length)
    (hp : ∀ i < bytesToSectors d.length, ptr v' d' (dataSlot i) = ptr v d (dataSlot i) ∧
      v'.sectors (ptr v d (dataSlot i)) = v.sectors (ptr v d (dataSlot i))) :
    content v' d' = content v d := by
  have hn := bytesToSectors_eq h0 hle
  unfold content
  rw [hl]
  apply List.map_congr_left
  intro k hk
  have hk := List.mem_range.mp hk
  obtain ⟨h1,h2⟩ := hp (k / 512) (by omega)
  rw [byteAt,h1,h2,byteAt]

/-! ### Reading -/

theorem chunkSize_eq {length offset : ℤ} (size : ℤ) (h0 : 0 ≤ offset) (hl : length < 2147483648)
    (hl0 : 0 ≤ length) (ho : offset < 2147483648) :
    chunkSize length size offset = min size (min (length - offset) (512 - offset % 512)) := by
  unfold chunkSize
  rw [wrap32_of_mem (by omega) (by omega),Int.tmod_eq_emod_of_nonneg h0]

theorem toNat_min_split {size rest chunk : ℤ} (h : 0 ≤ chunk) (h1 : chunk ≤ size)
    (h2 : chunk ≤ rest) :
    (min size rest).toNat = chunk.toNat + (min (size - chunk) (rest - chunk)).toNat := by omega

/-- Byte `k` of a file as `inode_read_at` finds it, wherever its blocks are. -/
def storedByte (v : Volume) (d : InodeDisk) (k : ℕ) : UInt8 :=
  Sector.byte (bufferCacheRead (byteToSector v d k) v) (k % 512)

def storedBytes (v : Volume) (d : InodeDisk) : List UInt8 := (List.range d.length.toNat).map (storedByte v d)

@[simp] theorem length_storedBytes (v : Volume) (d : InodeDisk) : (storedBytes v d).length = d.length.toNat := by
  rw [storedBytes,List.length_map,List.length_range]

/-- The bytes of a sector lie together. -/
theorem byteToSector_near (v : Volume) (d : InodeDisk) {offset : ℤ} {k : ℕ} (h0 : 0 ≤ offset)
    (hk : (k : ℤ) < d.length - offset) (hs : (k : ℤ) < 512 - offset % 512) :
    byteToSector v d ((offset.toNat + k : ℕ) : ℤ) = byteToSector v d offset := by
  unfold byteToSector
  rw [if_pos (by omega),if_pos (by omega)]
  congr 2
  omega

theorem inodeReadLoop_eq (v : Volume) {d : InodeDisk} (hd : 0 ≤ d.length) (rounds : ℕ) {size offset : ℤ}
    (h0 : 0 ≤ offset) (ho : offset < 2147483648) (hr : size ≤ rounds) (acc : List UInt8) :
    inodeReadLoop d v rounds size offset acc = acc ++
      (List.range (min size (d.length - offset)).toNat).map fun k => storedByte v d (offset.toNat + k) := by
  induction rounds generalizing size offset acc with
  | zero =>
    rw [inodeReadLoop,show (min size (d.length - offset)).toNat = 0 by omega]
    simp
  | succ rounds ih =>
    rw [inodeReadLoop]
    by_cases hs : size ≤ 0
    · rw [if_pos hs,show (min size (d.length - offset)).toNat = 0 by omega]
      simp
    rw [if_neg hs]
    have hmax := (InodeDisk.length_range d).2
    have hc := chunkSize_eq size h0 hmax hd ho
    simp only [hc]
    by_cases hl : d.length ≤ offset
    · rw [if_pos (by omega),show (min size (d.length - offset)).toNat = 0 by omega]
      simp
    rw [if_neg (by omega)]
    set chunk := min size (min (d.length - offset) (512 - offset % 512)) with hchunk
    have hc0 : 0 < chunk := by omega
    have hc1 : chunk ≤ size := min_le_left _ _
    have hc2 : chunk ≤ d.length - offset := (min_le_right _ _).trans (min_le_left _ _)
    have hc3 : chunk ≤ 512 - offset % 512 := (min_le_right _ _).trans (min_le_right _ _)
    clear_value chunk
    clear hchunk hc
    -- the bytes of this round, then those of the following ones
    have hnow : ((List.range chunk.toNat).map fun k : ℕ => Sector.byte
        (bufferCacheRead (byteToSector v d offset) v) (offset.tmod 512 + k).toNat) =
        (List.range chunk.toNat).map fun k => storedByte v d (offset.toNat + k) := by
      apply List.map_congr_left
      intro k hk
      have hk := List.mem_range.mp hk
      have hnear := byteToSector_near v d (k := k) h0 (by omega) (by omega)
      have hofs : (offset.toNat + k) % 512 = (offset % 512 + k).toNat := by omega
      rw [storedByte,hnear,hofs,Int.tmod_eq_emod_of_nonneg h0]
    have hlater : ∀ k : ℕ, (offset + chunk).toNat + k = offset.toNat + (chunk.toNat + k) := by omega
    have hrest := @ih (size - chunk) (offset + chunk) (by omega) (by omega) (by omega)
    have hsplit := toNat_min_split hc0.le hc1 hc2
    rw [sub_sub] at hsplit
    rw [hrest,hnow,hsplit,List.range_add,List.map_append,List.map_map,
      List.append_assoc]
    simp only [Function.comp_def,hlater]

/-- `inode_read_at` returns the bytes of the file that lie in the requested range. -/
theorem inodeReadAt_stored (v : Volume) {d : InodeDisk} (hd : 0 ≤ d.length) {size offset : ℤ}
    (h0 : 0 ≤ offset) (ho : offset < 2147483648) :
    inodeReadAt d size offset v = ((storedBytes v d).drop offset.toNat).take size.toNat := by
  rw [inodeReadAt,inodeReadLoop_eq v hd _ h0 ho (by omega),List.nil_append]
  apply List.ext_getElem
  · simp only [List.length_map,List.length_range,List.length_take,List.length_drop,length_storedBytes]
    omega
  · intro i h1 h2
    simp only [storedBytes,List.getElem_take,List.getElem_drop,List.getElem_map,List.getElem_range]

theorem storedBytes_eq {v : Volume} {d : InodeDisk} (h : Sized v d) : storedBytes v d = content v d := by
  refine List.map_congr_left fun k hk => ?_
  have hk := List.mem_range.mp hk
  obtain ⟨-,-,hsec,-⟩ := h.sector k (by omega) (by omega)
  rw [storedByte,bufferCacheRead,hsec,byteAt,show ((k : ℤ) / 512).toNat = k / 512 by omega]

theorem inodeReadAt_eq {v : Volume} {d : InodeDisk} (h : Sized v d) {size offset : ℤ}
    (h0 : 0 ≤ offset) (ho : offset < 2147483648) :
    inodeReadAt d size offset v = ((content v d).drop offset.toNat).take size.toNat := by
  rw [inodeReadAt_stored v h.nonneg h0 ho,storedBytes_eq h]

/-! ### Writing -/

theorem byte_chunkSector (old : Sector) (ofs chunk written : ℤ) (buffer : List UInt8)
    (h0 : 0 ≤ ofs) (hc : ofs + chunk ≤ 512) {j : ℕ} (hj : j < 512) :
    Sector.byte (chunkSector old ofs chunk written buffer) j =
      if ofs ≤ j ∧ (j : ℤ) < ofs + chunk then buffer.getD (written.toNat + (j - ofs).toNat) 0
      else Sector.byte old j := by
  unfold chunkSector
  dsimp only
  by_cases hfull : ofs = 0 ∧ chunk = 512
  · rw [if_pos hfull,Sector.byte_ofBytes _ hj,if_pos (by omega)]
    congr 1
    omega
  · rw [if_neg hfull,overlay,Sector.byte_ofBytes _ hj]
    split
    · rfl
    · rw [if_pos (by omega)]

theorem inodeWriteLoop_spec {d : InodeDisk} (buffer : List UInt8) (rounds : ℕ)
    (size offset written : ℤ) {v : Volume} (hd : Distinct v d) (h : Sized v d) (h0 : 0 ≤ offset)
    (hw : 0 ≤ written) (hs : 0 ≤ size) (hle : offset + size ≤ d.length) (hr : size ≤ rounds) :
    let r := inodeWriteLoop d buffer rounds size offset written v
    r.1 = written + size ∧ r.2.freeMap = v.freeMap ∧ r.2.freeMapFile = v.freeMapFile ∧
      r.2.releases = v.releases ∧
      (∀ s, (∀ i < bytesToSectors d.length, s ≠ ptr v d (dataSlot i)) → Same v r.2 s) ∧
      ∀ k : ℕ, byteAt r.2 d k = if offset ≤ k ∧ (k : ℤ) < offset + size then
        buffer.getD (written.toNat + (k - offset).toNat) 0 else byteAt v d k := by
  induction rounds generalizing size offset written v with
  | zero =>
    refine ⟨by simp [inodeWriteLoop]; omega,rfl,rfl,rfl,fun s _ => Same.refl v s,fun k => ?_⟩
    rw [if_neg (by omega)]
    rfl
  | succ rounds ih =>
    rw [inodeWriteLoop]
    by_cases hz : size ≤ 0
    · rw [if_pos hz]
      refine ⟨by dsimp only; omega,rfl,rfl,rfl,fun s _ => Same.refl v s,fun k => ?_⟩
      rw [if_neg (by omega)]
    rw [if_neg hz]
    have hl := h.le
    simp only [chunkSize_eq size h0 (InodeDisk.length_range d).2 h.nonneg (by omega)]
    rw [if_neg (by omega)]
    set chunk := min size (min (d.length - offset) (512 - offset % 512)) with hchunk
    obtain ⟨hi,hi',hsec,hp⟩ := h.sector offset h0 (by omega)
    rw [hsec,bufferCacheRead,Int.tmod_eq_emod_of_nonneg h0]
    set i := (offset / 512).toNat with hidef
    set p := ptr v d (dataSlot i) with hpdef
    set data := chunkSector (v.sectors p) (offset % 512) chunk written buffer with hdata
    -- a data sector is no indirect block, so this round leaves the blocks of the inode alone
    have hblk : ∀ s, IsBlock v d s → (bufferCacheWrite p data v).sectors s = v.sectors s := by
      intro s hsb
      apply (same_write v data _).1
      rintro rfl
      exact hd.dataSlot_not_block i hsb
    have hptr : ∀ k, ptr (bufferCacheWrite p data v) d (dataSlot k) = ptr v d (dataSlot k) :=
      fun k => ptr_congr hblk (dataSlot_level k).le
    obtain ⟨r1,r2,r3,r4,r5,r6⟩ := ih (size - chunk) (offset + chunk)
      (written + chunk) (hd.congr hblk) (h.congr hblk) (by omega) (by omega) (by omega)
      (by omega) (by omega)
    refine ⟨by rw [r1]; omega,r2,r3,r4,?_,?_⟩
    · intro s hsd
      refine (same_write v data (hsd i hi)).trans (r5 s fun k hk => ?_)
      rw [hptr]
      exact hsd k hk
    · intro k
      rw [r6 k]
      by_cases hk : offset + chunk ≤ k ∧ (k : ℤ) < offset + chunk + (size - chunk)
      · rw [if_pos hk,if_pos (by omega)]
        congr 1
        omega
      rw [if_neg hk,byteAt,hptr]
      by_cases hki : k / 512 = i
      · have hb := byte_chunkSector (v.sectors p) (offset % 512) chunk written buffer
          (by omega) (by omega) (j := k % 512) (by omega)
        rw [hki,← hpdef,bufferCacheWrite]
        dsimp only
        rw [Function.update_self,hdata,hb]
        by_cases hkc : offset ≤ k ∧ (k : ℤ) < offset + size
        · rw [if_pos (by omega),if_pos hkc]
          congr 1
          omega
        · rw [if_neg (by omega),if_neg hkc,byteAt,hki]
      · have hne : ptr v d (dataSlot (k / 512)) ≠ p := by
          intro he
          have := hd _ _ _ _ (dataSlot_level (k/512)).le (dataSlot_level i).le he (fun h0 => hp (he.symm.trans h0))
          exact hki (dataSlot_injective (Prod.ext this.1 this.2))
        rw [(same_write v data hne).1,if_neg (by omega)]
        rfl

/-- A write inside the file does not extend it. -/
theorem inodeWriteAtWith_inside {v : Volume} {inode : Inode} (alloc : Allocator) (buffer : List UInt8)
    (size offset : ℤ) (hdeny : inode.denyWriteCnt = 0) (h : Sized v inode.data) (h0 : 0 ≤ offset)
    (hs : 1 ≤ size) (hle : offset + size ≤ inode.data.length)
    (hp : byteToSector v inode.data (offset + size - 1) ≠ -1) :
    inodeWriteAtWith alloc inode buffer size offset v =
      ((inodeWriteLoop inode.data buffer size.toNat size offset 0 v).1,inode,
        (inodeWriteLoop inode.data buffer size.toNat size offset 0 v).2) := by
  have hl := h.le
  have hw : wrap32 (wrap32 (offset + size) - 1) = offset + size - 1 := by
    rw [wrap32_of_mem (x := offset + size) (by omega) (by omega),wrap32_of_mem (by omega) (by omega)]
  unfold inodeWriteAtWith
  rw [if_neg (by simpa using hdeny),hw,if_neg hp]

end ShellOS.Fs
