import ShellOS.Fs.OneFile
import ShellOS.Fs.Refusal

/-! `free_map_allocate` for any number of sectors: the first run that fits, or nothing at all. Where the file of
the map has to take a sector to hold it, the nested calls fail one after the other, and so does the first. -/
namespace ShellOS.Fs
open BlockTree CLib

/-- `cnt` bits from `s` on are clear. -/
def Bitmap.IsRun (b : Bitmap) (cnt s : ℕ) : Prop := s + cnt ≤ b.bitCnt ∧ ∀ i < cnt, b.bitmapTest (s + i) = false

section
variable {b : Bitmap} {cnt s : ℕ}

theorem Bitmap.contains_iff : b.bitmapContains s cnt true = false ↔ ∀ i < cnt, b.bitmapTest (s + i) = false := by
  rw [Bitmap.bitmapContains,List.any_eq_false]
  constructor
  · intro h i hi
    have := h i (List.mem_range.mpr hi)
    simpa using this
  · intro h i hi
    have := h i (List.mem_range.mp hi)
    simpa using this

/-- `bitmap_scan` for a run of clear bits from the start of the map. -/
theorem Bitmap.scan_some (h : b.bitmapScan 0 cnt false = some s) : b.IsRun cnt s ∧ ∀ t, b.IsRun cnt t → s ≤ t := by
  unfold Bitmap.bitmapScan at h
  split at h
  · next hc =>
    obtain ⟨hp,hmin⟩ := List.find?_range'_eq_some.mp h
    obtain ⟨hm,hlow⟩ := hmin
    rw [List.mem_range'_1] at hm
    rw [Bool.not_false,Bool.not_eq_true',Bitmap.contains_iff] at hp
    refine ⟨⟨by omega,hp⟩,fun t ht => ?_⟩
    by_contra hlt
    have := hlow t (Nat.zero_le t) (by omega)
    rw [Bool.not_false,Bool.not_not,← Bool.not_eq_false,Bitmap.contains_iff] at this
    exact this ht.2
  · exact absurd h (Option.some_ne_none s).symm

theorem Bitmap.scan_none (h : b.bitmapScan 0 cnt false = none) : ∀ t, ¬ b.IsRun cnt t := by
  unfold Bitmap.bitmapScan at h
  split at h
  · next hc =>
    intro t ht
    have hle := ht.1
    have := List.find?_eq_none.mp h t (List.mem_range'_1.mpr ⟨Nat.zero_le t,by omega⟩)
    rw [Bool.not_false,Bool.not_eq_true',Bitmap.contains_iff] at this
    exact this ht.2
  · next hc =>
    intro t ht
    have hle := ht.1
    omega

end

section
variable {v : Volume} {cnt : ℕ}

theorem inodeWriteAtWith_denied (alloc : Allocator) {inode : Inode} (buffer : List UInt8) (size offset : ℤ)
    (hd : inode.denyWriteCnt ≠ 0) : inodeWriteAtWith alloc inode buffer size offset v = (0,inode,v) := by
  unfold inodeWriteAtWith
  exact if_pos hd

/-- Writing the map to a file that denies it. -/
theorem bitmapWriteWith_denied (alloc : Allocator) {fm : Inode} (h0 : 0 < v.freeMap.bitCnt) (hf : v.freeMapFile = some fm)
    (hd : fm.denyWriteCnt ≠ 0) : bitmapWriteWith alloc v = (false,v) := by
  have hcnt : (0 : ℤ) ≠ byteCnt v.freeMap.bitCnt := by unfold byteCnt elemCnt elemBits; omega
  have hw := inodeWriteAtWith_denied (v := v) alloc v.freeMap.bytes (byteCnt v.freeMap.bitCnt) 0 hd
  unfold bitmapWriteWith
  rw [hf]
  dsimp only
  rw [hw]
  dsimp only
  rw [decide_eq_false hcnt,← hf]

/-! ### The file of the map -/

/-- The open inode of the map is that of a file of any length: its sectors are there, each in one place, none has
the number -1 and none is the sector of the record. -/
structure MapInode (v : Volume) (fm : Inode) : Prop where
  distinct : Distinct v fm.data
  sized : Sized v fm.data
  sector : ∀ i, ptr v fm.data (dataSlot i) ≠ -1
  apart : ∀ p, IsBlock v fm.data p → p ≠ fm.sector

/-- The file takes the map without a further sector. -/
structure Writable (v : Volume) (fm : Inode) : Prop where
  deny : fm.denyWriteCnt = 0
  fits : bytesToSectors (byteCnt v.freeMap.bitCnt) ≤ maxSectors
  mapped : Mapped v fm.data (bytesToSectors (byteCnt v.freeMap.bitCnt))

section
variable {u v w : Volume} {fm : Inode} (alloc : Allocator) {cnt s : ℕ}

theorem MapInode.congr (h : MapInode v fm) (hs : ∀ p, p ≠ 0 → w.sectors p = v.sectors p) : MapInode w fm := by
  have hblk : ∀ p, IsBlock v fm.data p → w.sectors p = v.sectors p := fun p hp => hs p hp.1
  refine ⟨h.distinct.congr hblk,h.sized.congr hblk,fun i => ?_,fun p hp => ?_⟩
  · rw [ptr_congr hblk (dataSlot_level i).le]
    exact h.sector i
  · obtain ⟨h0,j,π,hπ,he⟩ := hp
    exact h.apart p ⟨h0,j,π,hπ,(ptr_congr (s := (j,π)) hblk hπ.le).symm.trans he⟩

theorem Mapped.of_sectors {d : InodeDisk} {n : ℕ} (hs : ∀ p, p ≠ 0 → w.sectors p = v.sectors p) : Mapped w d n ↔ Mapped v d n :=
  ⟨fun h => h.congr fun p hp => (hs p hp.1).symm,fun h => h.congr fun p hp => hs p hp.1⟩

theorem Writable.congr (hs : ∀ p, p ≠ 0 → w.sectors p = v.sectors p) (hb : w.freeMap.bitCnt = v.freeMap.bitCnt) :
    Writable w fm ↔ Writable v fm := by
  constructor
  · rintro ⟨hd,hf,hm⟩
    rw [hb] at hf hm
    exact ⟨hd,hf,(Mapped.of_sectors hs).mp hm⟩
  · rintro ⟨hd,hf,hm⟩
    rw [← hb] at hf hm
    exact ⟨hd,hf,(Mapped.of_sectors hs).mpr hm⟩

/-- The size of the map is a small positive number. -/
theorem byteCnt_range (h0 : 0 < v.freeMap.bitCnt) (hb : v.freeMap.bitCnt < 4294967296) :
    1 ≤ byteCnt v.freeMap.bitCnt ∧ byteCnt v.freeMap.bitCnt ≤ 536870912 := by
  unfold byteCnt elemCnt elemBits
  omega

/-- A file that is long enough takes the map. -/
theorem MapInode.writable (h : MapInode v fm) (hd : fm.denyWriteCnt = 0) (hle : (byteCnt v.freeMap.bitCnt : ℤ) ≤ fm.data.length) :
    Writable v fm := by
  have hmono := bytesToSectors_mono (Int.natCast_nonneg _) hle h.sized.le
  have hn := bytesToSectors_eq h.sized.nonneg h.sized.le
  have hlen := h.sized.le
  exact ⟨hd,by unfold maxSectors; omega,h.sized.mapped.mono hmono⟩

/-! ### Writing the map -/

/-- A map that does not fit without a further sector is not written where there is none. -/
theorem bitmapWriteWith_refused (h0 : 0 < u.freeMap.bitCnt) (hb : u.freeMap.bitCnt < 4294967296) (hf : u.freeMapFile = some fm)
    (h : MapInode u fm) (hno : ¬ Writable u fm) (hal : Refuses alloc u) : ∃ w, bitmapWriteWith alloc u = (false,w) ∧ Retained u w := by
  by_cases hd : fm.denyWriteCnt = 0
  · have hlt : fm.data.length < (byteCnt u.freeMap.bitCnt : ℤ) := not_le.mp fun hle => hno (h.writable hd hle)
    obtain ⟨h1,hmax⟩ := byteCnt_range h0 hb
    have hwrap : wrap32 (0 + (byteCnt u.freeMap.bitCnt : ℤ)) = byteCnt u.freeMap.bitCnt := by
      rw [wrap32_of_mem (x := 0 + (byteCnt u.freeMap.bitCnt : ℤ)) (by omega) (by omega),zero_add]
    have heof : byteToSector u fm.data (wrap32 (wrap32 (0 + (byteCnt u.freeMap.bitCnt : ℤ)) - 1)) = -1 := by
      rw [hwrap,wrap32_of_mem (by omega) (by omega)]
      exact byteToSector_eof u (.inr (by omega))
    obtain ⟨ok,w,hr,hw,hok⟩ := inodeReserve_refused (d := fm.data) alloc (Int.natCast_nonneg (byteCnt u.freeMap.bitCnt)) fun _ => hal
    have hfail : ok = false := by
      rw [← Bool.not_eq_true,hok]
      exact fun hc => hno ⟨hd,hc.2,hc.1⟩
    refine ⟨{ w with freeMapFile := some fm },?_,hf.symm,hw.map,hw.sectors⟩
    have hcnt : (0 : ℤ) ≠ byteCnt u.freeMap.bitCnt := by omega
    have hwrite : inodeWriteAtWith alloc fm u.freeMap.bytes (byteCnt u.freeMap.bitCnt) 0 u = (0,fm,w) := by
      unfold inodeWriteAtWith
      rw [if_neg (not_not.mpr hd),if_pos heof,hwrap,inodeExtend,hr,hfail]
    unfold bitmapWriteWith
    rw [hf]
    dsimp only
    rw [hwrite]
    dsimp only
    rw [decide_eq_false hcnt]
  · exact ⟨u,bitmapWriteWith_denied alloc h0 hf hd,Retained.refl u⟩

/-- The file as it is when the data is written to it: with the length of the map at least. -/
theorem map_extended (h0 : 0 < u.freeMap.bitCnt) (hb : u.freeMap.bitCnt < 4294967296) (h : MapInode u fm) (hok : Writable u fm) :
    ∃ d w, (if byteToSector u fm.data (wrap32 (wrap32 (0 + (byteCnt u.freeMap.bitCnt : ℤ)) - 1)) = -1 then
        inodeExtend alloc fm (wrap32 (0 + (byteCnt u.freeMap.bitCnt : ℤ))) u else (true,fm,u)) = (true,{ fm with data := d },w) ∧
      w.freeMap = u.freeMap ∧ (byteCnt u.freeMap.bitCnt : ℤ) ≤ d.length ∧ Distinct w d ∧ Sized w d := by
  obtain ⟨h1,hmax⟩ := byteCnt_range h0 hb
  have hwrap : wrap32 (0 + (byteCnt u.freeMap.bitCnt : ℤ)) = byteCnt u.freeMap.bitCnt := by
    rw [wrap32_of_mem (x := 0 + (byteCnt u.freeMap.bitCnt : ℤ)) (by omega) (by omega),zero_add]
  rw [hwrap,wrap32_of_mem (x := (byteCnt u.freeMap.bitCnt : ℤ) - 1) (by omega) (by omega)]
  by_cases hle : (byteCnt u.freeMap.bitCnt : ℤ) ≤ fm.data.length
  · obtain ⟨-,-,hs,-⟩ := h.sized.sector ((byteCnt u.freeMap.bitCnt : ℤ) - 1) (by omega) (by omega)
    have hne : byteToSector u fm.data ((byteCnt u.freeMap.bitCnt : ℤ) - 1) ≠ -1 := hs ▸ h.sector _
    exact ⟨fm.data,u,by rw [if_neg hne],rfl,hle,h.distinct,h.sized⟩
  · obtain ⟨ok,w,hr,hw,htrue⟩ := inodeReserve_refused (d := fm.data) alloc (Int.natCast_nonneg (byteCnt u.freeMap.bitCnt))
      fun hno => absurd hok.mapped hno
    obtain rfl : ok = true := htrue.mpr ⟨hok.mapped,hok.fits⟩
    obtain ⟨d,hd⟩ : ∃ d, d = fm.data.setLength (byteCnt u.freeMap.bitCnt) := ⟨_,rfl⟩
    have hlen : d.length = byteCnt u.freeMap.bitCnt := hd ▸ InodeDisk.length_setLength fm.data (by omega) (by omega)
    have hwords : ∀ k < 125, Sector.word d k = Sector.word fm.data k :=
      fun k hk => hd ▸ Sector.word_setWord_ne _ _ (by omega)
    have hptr := fun v => ptr_info (v := v) hwords
    have hblk : ∀ p, IsBlock u fm.data p → (bufferCacheWrite fm.sector d w).sectors p = u.sectors p := fun p hp =>
      (same_write w d (h.apart p hp)).1.trans (hw.sectors p hp.1)
    have heof : byteToSector u fm.data ((byteCnt u.freeMap.bitCnt : ℤ) - 1) = -1 := byteToSector_eof u (.inr (by omega))
    have hfits : (byteCnt u.freeMap.bitCnt : ℤ) ≤ 8517120 := (bytesToSectors_le_iff (by omega) (by omega)).mp hok.fits
    refine ⟨d,bufferCacheWrite fm.sector d w,by rw [if_pos heof,inodeExtend,hr,hd],hw.map,hlen.ge,?_,by omega,by omega,?_⟩
    · intro j π j' π' hπ hπ' he hne
      have hpair := h.distinct.congr hblk j π j' π' hπ hπ'
      have hj := congrFun (hptr (bufferCacheWrite fm.sector d w)) (j,π)
      have hj' := congrFun (hptr (bufferCacheWrite fm.sector d w)) (j',π')
      unfold ptr at hj hj'
      rw [hj,hj'] at he
      rw [hj] at hne
      exact hpair he hne
    · rw [hlen]
      intro t ht
      rw [hptr]
      exact hok.mapped.congr hblk t ht

/-- A map that fits is written, whatever the allocator does. -/
theorem bitmapWriteWith_writable (h0 : 0 < u.freeMap.bitCnt) (hb : u.freeMap.bitCnt < 4294967296) (hf : u.freeMapFile = some fm)
    (h : MapInode u fm) (hok : Writable u fm) : ∃ d w, bitmapWriteWith alloc u = (true,w) ∧ w.freeMap = u.freeMap ∧
      w.freeMapFile = some { fm with data := d } ∧ (content w d).take (byteCnt u.freeMap.bitCnt) = u.freeMap.bytes := by
  obtain ⟨h1,hmax⟩ := byteCnt_range h0 hb
  obtain ⟨d,w,he,hmap,hle,hd,hs⟩ := map_extended alloc h0 hb h hok
  obtain ⟨r1,r2,-,-,-,r6⟩ := inodeWriteLoop_spec u.freeMap.bytes
    (byteCnt u.freeMap.bitCnt : ℤ).toNat (byteCnt u.freeMap.bitCnt) 0 0 hd hs le_rfl le_rfl (by omega) (by omega) (by omega)
  have hwrite : inodeWriteAtWith alloc fm u.freeMap.bytes (byteCnt u.freeMap.bitCnt) 0 u =
      ((inodeWriteLoop d u.freeMap.bytes (byteCnt u.freeMap.bitCnt : ℤ).toNat (byteCnt u.freeMap.bitCnt) 0 0 w).1,{ fm with data := d },
        (inodeWriteLoop d u.freeMap.bytes (byteCnt u.freeMap.bitCnt : ℤ).toNat (byteCnt u.freeMap.bitCnt) 0 0 w).2) := by
    unfold inodeWriteAtWith
    rw [if_neg (not_not.mpr hok.deny),he]
  generalize inodeWriteLoop d u.freeMap.bytes (byteCnt u.freeMap.bitCnt : ℤ).toNat
    (byteCnt u.freeMap.bitCnt) 0 0 w = r at r1 r2 r6 hwrite
  refine ⟨d,{ r.2 with freeMapFile := some { fm with data := d } },?_,r2.trans hmap,rfl,?_⟩
  · unfold bitmapWriteWith
    rw [hf]
    dsimp only
    rw [hwrite]
    dsimp only
    rw [r1,zero_add,decide_eq_true rfl]
  · apply List.ext_getElem
    · rw [List.length_take,length_content,Bitmap.length_bytes]
      omega
    · intro k hk hk'
      simp only [Bitmap.length_bytes] at hk'
      have hr := r6 k
      rw [if_pos (by omega)] at hr
      simp only [content,List.getElem_take,List.getElem_map,List.getElem_range]
      refine hr.trans ?_
      rw [Int.toNat_zero,Nat.zero_add,Int.sub_zero,Int.toNat_natCast]
      exact List.getD_eq_getElem _ _ (by simpa using hk')

/-! ### Nested calls -/

theorem Bitmap.eq_of_test {a b : Bitmap} (hc : a.bitCnt = b.bitCnt) (ht : ∀ j, a.bitmapTest j = b.bitmapTest j) : a = b := by
  obtain ⟨n,a⟩ := a
  obtain ⟨m,b⟩ := b
  obtain rfl : n = m := hc
  rw [Bitmap.ext_test ht]

/-- A run of clear bits that is set and cleared again. -/
theorem Bitmap.set_clear {b : Bitmap} (h : b.IsRun cnt s) : (b.bitmapSetMultiple s cnt true).bitmapSetMultiple s cnt false = b := by
  refine Bitmap.eq_of_test (by rw [Bitmap.setMultiple_bitCnt,Bitmap.setMultiple_bitCnt]) fun j => ?_
  rw [Bitmap.test_setMultiple _ s cnt false (by rw [Bitmap.setMultiple_bitCnt]; exact h.1),Bitmap.test_setMultiple b s cnt true h.1]
  by_cases hj : s ≤ j ∧ j < s + cnt
  · have hclear := h.2 (j - s) (by omega)
    rw [Nat.add_sub_cancel' hj.1] at hclear
    rw [if_pos hj,hclear]
  · rw [if_neg hj,if_neg hj]

/-- The map in memory with a run of bits set. -/
def Volume.marked (v : Volume) (s cnt : ℕ) : Volume := { v with freeMap := v.freeMap.bitmapSetMultiple s cnt true }

theorem MapInode.marked (h : MapInode v fm) (s cnt : ℕ) : MapInode (v.marked s cnt) fm := h.congr fun _ _ => rfl

theorem writable_marked : Writable (v.marked s cnt) fm ↔ Writable v fm :=
  Writable.congr (fun _ _ => rfl) (Bitmap.setMultiple_bitCnt _ _ _ _)

/-- What is done with the run that the scan finds. -/
theorem freeMapAllocateWith_scanned (hs : v.freeMap.bitmapScan 0 cnt false = some s) (hf : v.freeMapFile = some fm) :
    freeMapAllocateWith alloc cnt v = match bitmapWriteWith alloc (v.marked s cnt) with
      | (true,w) => (some (UInt32.ofNat s),w)
      | (false,w) => (none,{ w with freeMap := w.freeMap.bitmapSetMultiple s cnt false }) := by
  have hsome : ¬ v.freeMapFile.isNone = true := by rw [hf]; exact Bool.false_ne_true
  rw [freeMapAllocateWith,Bitmap.bitmapScanAndFlip,hs]
  exact if_neg hsome

/-- Without room for the map, and with nested calls that give nothing, nothing is given. -/
theorem freeMapAllocateWith_refused (hb : v.freeMap.bitCnt < 4294967296) (hf : v.freeMapFile = some fm) (h : MapInode v fm)
    (hno : ¬ Writable v fm) (h1 : 1 ≤ cnt) (hal : ∀ s, Refuses alloc (v.marked s cnt)) :
    ∃ w, freeMapAllocateWith alloc cnt v = (none,w) ∧ Retained v w := by
  cases hs : v.freeMap.bitmapScan 0 cnt false with
  | none => exact ⟨v,by rw [freeMapAllocateWith,Bitmap.bitmapScanAndFlip,hs],Retained.refl v⟩
  | some s =>
    obtain ⟨hrun,-⟩ := Bitmap.scan_some hs
    have hle := hrun.1
    have hcnt : (v.marked s cnt).freeMap.bitCnt = v.freeMap.bitCnt := Bitmap.setMultiple_bitCnt _ _ _ _
    obtain ⟨w,hw,hret⟩ := bitmapWriteWith_refused alloc (by omega) (by omega) (show (v.marked s cnt).freeMapFile = some fm from hf)
      (h.marked s cnt) (fun hc => hno (writable_marked.mp hc)) (hal s)
    refine ⟨{ w with freeMap := w.freeMap.bitmapSetMultiple s cnt false },by rw [freeMapAllocateWith_scanned alloc hs hf,hw],hret.file,?_,
      hret.sectors⟩
    dsimp only
    rw [hret.map]
    exact Bitmap.set_clear hrun

/-- However deep the calls are nested: the innermost finds no clear bit. -/
theorem allocatorDepth_refuses (k : ℕ) : ∀ v : Volume, v.freeMap.bitCnt < 4294967296 → v.freeMapFile = some fm → MapInode v fm →
    ¬ Writable v fm → Refuses (allocatorDepth k) v := by
  induction k with
  | zero => exact fun v _ _ _ _ w hw => ⟨w,rfl,hw⟩
  | succ k ih =>
    intro v hb hf h hno w hw
    have hb' : w.freeMap.bitCnt < 4294967296 := hw.map ▸ hb
    have hno' : ¬ Writable w fm := fun hc => hno ((Writable.congr hw.sectors (by rw [hw.map])).mp hc)
    obtain ⟨w',he,hret⟩ := freeMapAllocateWith_refused (allocatorDepth k) hb' (hw.file.trans hf) (h.congr hw.sectors) hno' (le_refl 1) fun s =>
      ih (w.marked s 1) ((Bitmap.setMultiple_bitCnt _ _ _ _).trans_lt hb') (hw.file.trans hf) ((h.congr hw.sectors).marked s 1)
        fun hc => hno' (writable_marked.mp hc)
    exact ⟨w',he,hw.trans hret⟩

/-- `bitmap_write` succeeds just where the map fits. -/
theorem bitmapWrite_iff (h0 : 0 < u.freeMap.bitCnt) (hb : u.freeMap.bitCnt < 4294967296) (hf : u.freeMapFile = some fm)
    (h : MapInode u fm) : (bitmapWrite u).1 = true ↔ Writable u fm := by
  by_cases hok : Writable u fm
  · obtain ⟨d,w,hw,-⟩ := bitmapWriteWith_writable (freeMapAllocate 1) h0 hb hf h hok
    exact iff_of_true (congrArg Prod.fst hw) hok
  · have hal : Refuses (freeMapAllocate 1) u := by
      intro v hv
      exact allocatorDepth_refuses (v.freeMap.bitCnt + 1) u hb hf h hok v hv
    obtain ⟨w,hw,-⟩ := bitmapWriteWith_refused (freeMapAllocate 1) h0 hb hf h hok hal
    exact iff_of_false (by rw [bitmapWrite,hw]; exact Bool.false_ne_true) hok

end

section
variable {v : Volume} {cnt : ℕ}

/-- What `free_map_allocate` promises: the first run of clear bits, set in the map and, where its file is open, in
the file. -/
structure Allocates (v : Volume) (cnt s : ℕ) (w : Volume) : Prop where
  run : v.freeMap.IsRun cnt s
  first : ∀ t, v.freeMap.IsRun cnt t → s ≤ t
  bitCnt : w.freeMap.bitCnt = v.freeMap.bitCnt
  bits : ∀ j, w.freeMap.bitmapTest j = if s ≤ j ∧ j < s + cnt then true else v.freeMap.bitmapTest j
  file : ∀ fm, v.freeMapFile = some fm → (bitmapWrite (v.marked s cnt)).1 = true ∧
    ∃ d, w.freeMapFile = some { fm with data := d } ∧ (content w d).take (byteCnt v.freeMap.bitCnt) = w.freeMap.bytes

/-- A run there is, but the map with it set could not be written. -/
def NotWritten (v : Volume) (cnt : ℕ) : Prop := ∃ s, v.freeMap.IsRun cnt s ∧ (∀ t, v.freeMap.IsRun cnt t → s ≤ t) ∧
  v.freeMapFile.isSome = true ∧ (bitmapWrite (v.marked s cnt)).1 = false

/-- `free_map_allocate` gives the first run of clear bits, or leaves the map as it was; it fails exactly when
there is no such run or the map with the run set could not be written, which is when writing is denied, the map is
larger than the largest file or its file lacks a sector for it. -/
theorem freeMapAllocate_firstFit (h1 : 1 ≤ cnt) (hb : v.freeMap.bitCnt < 4294967296)
    (hf : ∀ fm, v.freeMapFile = some fm → MapInode v fm) :
    ((∃ p w, freeMapAllocate cnt v = (some p,w) ∧ Allocates v cnt p.toNat w) ∨
      ∃ w, freeMapAllocate cnt v = (none,w) ∧ w.freeMap = v.freeMap ∧ ((∀ s, ¬ v.freeMap.IsRun cnt s) ∨ NotWritten v cnt)) ∧
    ∀ s fm, v.freeMap.IsRun cnt s → v.freeMapFile = some fm → ((bitmapWrite (v.marked s cnt)).1 = true ↔ Writable v fm) := by
  have hmarked : ∀ s, (v.marked s cnt).freeMap.bitCnt = v.freeMap.bitCnt := fun s => Bitmap.setMultiple_bitCnt _ _ _ _
  have hwrite : ∀ s fm, v.freeMap.IsRun cnt s → v.freeMapFile = some fm →
      ((bitmapWrite (v.marked s cnt)).1 = true ↔ Writable v fm) := by
    intro s fm hrun hfm
    have hle := hrun.1
    have hfm' : (v.marked s cnt).freeMapFile = some fm := hfm
    rw [bitmapWrite_iff (by rw [hmarked]; omega) (by rw [hmarked]; omega) hfm' ((hf fm hfm).marked s cnt),writable_marked]
  refine ⟨?_,hwrite⟩
  cases hs : v.freeMap.bitmapScan 0 cnt false with
  | none =>
    refine .inr ⟨v,?_,rfl,.inl (Bitmap.scan_none hs)⟩
    rw [freeMapAllocate,freeMapAllocateWith,Bitmap.bitmapScanAndFlip,hs]
  | some s =>
    obtain ⟨hrun,hfirst⟩ := Bitmap.scan_some hs
    have hle := hrun.1
    have hn : (UInt32.ofNat s).toNat = s := by rw [UInt32.toNat_ofNat',Nat.mod_eq_of_lt (by omega)]
    have hset := Bitmap.test_setMultiple v.freeMap s cnt true hle
    cases hfm : v.freeMapFile with
    | none =>
      refine .inl ⟨UInt32.ofNat s,v.marked s cnt,?_,?_⟩
      · rw [freeMapAllocate_scanned hs rfl]
        exact if_pos (by rw [hfm]; rfl)
      · rw [hn]
        exact ⟨hrun,hfirst,hmarked s,hset,fun fm hc => absurd (hfm.symm.trans hc) (Option.some_ne_none fm).symm⟩
    | some fm =>
      have hmf := (hf fm hfm).marked s cnt
      have hfm' : (v.marked s cnt).freeMapFile = some fm := hfm
      by_cases hok : Writable v fm
      · obtain ⟨d,w,hw,w1,w2,w3⟩ := bitmapWriteWith_writable (allocatorDepth v.freeMap.bitCnt) (by rw [hmarked]; omega)
          (by rw [hmarked]; exact hb) hfm' hmf (writable_marked.mpr hok)
        refine .inl ⟨UInt32.ofNat s,w,by rw [freeMapAllocate,freeMapAllocateWith_scanned _ hs hfm,hw],?_⟩
        rw [hn]
        refine ⟨hrun,hfirst,by rw [w1,hmarked],fun j => by rw [w1]; exact hset j,fun fm' hc => ?_⟩
        obtain rfl := Option.some.inj (hfm.symm.trans hc)
        rw [hmarked] at w3
        exact ⟨(hwrite s fm hrun hfm).mpr hok,d,w2,w3.trans (by rw [w1])⟩
      · obtain ⟨w,hw,hret⟩ := freeMapAllocateWith_refused _ hb hfm (hf fm hfm) hok h1 fun t =>
          allocatorDepth_refuses v.freeMap.bitCnt (v.marked t cnt) (by rw [hmarked]; exact hb) hfm ((hf fm hfm).marked t cnt)
            fun hc => hok (writable_marked.mp hc)
        refine .inr ⟨w,hw,hret.map,.inr ⟨s,hrun,hfirst,by rw [hfm]; rfl,?_⟩⟩
        rw [← Bool.not_eq_true,hwrite s fm hrun hfm]
        exact hok

/-- A map whose file is open and empty. -/
def emptyMapFile : Volume :=
  { freeMapInit (fun _ => Sector.zeros) 6 with freeMapFile := some ⟨0,0,1,false,0,InodeDisk.create 0 false⟩ }

theorem emptyMapFile_ptr (t : Slot) : ptr emptyMapFile (InodeDisk.create 0 false) t = 0 :=
  ptr_of_no_blocks (fun _ hj => InodeDisk.word_create 0 false hj) t

theorem emptyMapFile_mapInode {fm : Inode} (hf : emptyMapFile.freeMapFile = some fm) : MapInode emptyMapFile fm := by
  obtain rfl := Option.some.inj hf
  have hlen : (InodeDisk.create 0 false).length = 0 := InodeDisk.length_create _ (by decide) (by decide)
  refine ⟨fun j π _ _ _ _ _ h0 => absurd (emptyMapFile_ptr (j,π)) h0,⟨hlen.ge,by rw [hlen]; decide,?_⟩,fun i => ?_,fun p hp => ?_⟩
  · have hn : (bytesToSectors 0 : ℤ) = (0 + 511) / 512 := bytesToSectors_eq (by decide) (by decide)
    have hz : bytesToSectors 0 = 0 := by omega
    rw [hlen,hz]
    exact fun t ht => absurd ht List.not_mem_nil
  · rw [emptyMapFile_ptr]
    decide
  · obtain ⟨h0,j,π,-,he⟩ := hp
    exact absurd (he.symm.trans (emptyMapFile_ptr (j,π))) h0

/-- On a disk with the file of its map two sectors in a row are given; where the file is empty, none. -/
theorem freeMapAllocate_firstFit_open :
    (∃ w, freeMapAllocate 2 (oneFileDisk (cstr "a") []).vol = (some 6,w) ∧ Allocates (oneFileDisk (cstr "a") []).vol 2 6 w) ∧
    ∃ w, freeMapAllocate 1 emptyMapFile = (none,w) ∧ w.freeMap = emptyMapFile.freeMap ∧ NotWritten emptyMapFile 1 := by
  have hready := @Volume.Ok.ready _ (@oneFileDisk_ok (cstr "a") [])
  have hmap : ∀ fm, (oneFileDisk (cstr "a") []).vol.freeMapFile = some fm → MapInode (oneFileDisk (cstr "a") []).vol fm := by
    intro fm hf
    have hr := hready fm hf
    obtain rfl := Option.some.inj hf
    refine ⟨hr.distinct,hr.sized,fun i => ?_,fun p hp => ?_⟩
    · rw [ptr_oneBlock (dataSlot_place i)]
      split <;> decide
    · obtain ⟨t,ht,rfl⟩ := isBlock_place hp
      exact hp.1
  constructor
  · obtain ⟨hor,hwr⟩ := freeMapAllocate_firstFit (v := (oneFileDisk (cstr "a") []).vol) (show 1 ≤ 2 by decide) (show 16 < 4294967296 by decide) hmap
    have hrun : sixUsed.IsRun 2 6 := ⟨by decide,by decide⟩
    rcases hor with ⟨p,w,hw,ha⟩ | ⟨w,-,-,hno | ⟨s,hs,-,-,hfail⟩⟩
    · have hp : p.toNat = 6 := by
        refine le_antisymm (ha.first 6 hrun) (not_lt.mp fun hlt => ?_)
        have hused := (@sixUsed_used (cstr "a") [] p hlt).2
        have hclear := ha.run.2 0 (by decide)
        rw [Nat.add_zero,hused] at hclear
        cases hclear
      obtain rfl : p = 6 := UInt32.toNat_inj.mp hp
      exact ⟨w,hw,ha⟩
    · exact absurd hrun (hno 6)
    · have hr := hready _ rfl
      rw [(hwr s _ hs rfl).mpr ((hmap _ rfl).writable rfl hr.length.ge)] at hfail
      cases hfail
  · obtain ⟨hor,hwr⟩ := freeMapAllocate_firstFit (v := emptyMapFile) (le_refl 1) (show 5 < 4294967296 by decide)
      fun fm hf => emptyMapFile_mapInode hf
    have hrun : emptyMapFile.freeMap.IsRun 1 2 := ⟨by decide,by decide⟩
    have hn : (bytesToSectors ((8 : ℕ) : ℤ) : ℤ) = ((8 : ℕ) + 511) / 512 := bytesToSectors_eq (by decide) (by decide)
    have hone : bytesToSectors (byteCnt emptyMapFile.freeMap.bitCnt : ℤ) = 1 := by
      change bytesToSectors ((8 : ℕ) : ℤ) = 1
      omega
    rcases hor with ⟨p,w,-,ha⟩ | ⟨w,hw,hsame,hno | hnot⟩
    · have hok := (hwr _ _ ha.run rfl).mp (ha.file _ rfl).1
      refine absurd (emptyMapFile_ptr (0,[])) (hok.mapped (0,[]) ?_)
      rw [hone]
      exact List.mem_cons_self
    · exact absurd hrun (hno 2)
    · exact ⟨w,hw,hsame,hnot⟩

end
end
end ShellOS.Fs
