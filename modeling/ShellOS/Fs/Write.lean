import ShellOS.Fs.Walks

/-! `inode_write_at` on a file: what it returns, what it makes of the bytes, and what it leaves
alone, also when the disk fills up on the way. -/
namespace ShellOS.Fs
open BlockTree

/-- A file with its own blocks, a sector for each byte, and zeros past its end. -/
structure FileOk (v : Volume) (d : InodeDisk) : Prop where
  owns : Owns v inodeShape (ptr v d)
  sized : Sized v d
  tail : ∀ k : ℕ, d.length ≤ k → k / 512 < maxSectors → ptr v d (dataSlot (k / 512)) ≠ 0 → byteAt v d k = 0

/-- The array of bytes after writing `bytes` at `offset`, with zeros in a gap. -/
def overwrite (a : List UInt8) (offset : ℕ) (bytes : List UInt8) : List UInt8 :=
  (List.range (max a.length (offset + bytes.length))).map fun k =>
    if offset ≤ k ∧ k < offset + bytes.length then bytes.getD (k - offset) 0 else a.getD k 0

theorem Owns.distinct {v : Volume} {d : InodeDisk} (h : Owns v inodeShape (ptr v d)) : Distinct v d := by
  intro j π j' π' hπ hπ' he h0
  exact Prod.mk.inj (h.inj (j,π) (j',π') (treeShape_ne_absent.mpr hπ) (treeShape_ne_absent.mpr hπ') he h0)

theorem dataSlot_leaf (i : ℕ) : inodeShape (dataSlot i) = .leaf := treeShape_leaf.mpr (dataSlot_level i)

theorem isBlock_place {v : Volume} {d : InodeDisk} {s : BlockSector} (h : IsBlock v d s) :
    ∃ t, inodeShape t = .block ∧ ptr v d t = s := by
  obtain ⟨-,j,π,hπ,he⟩ := h
  exact ⟨(j,π),treeShape_block.mpr hπ,he⟩

theorem Sized.mapped_byte {v : Volume} {d : InodeDisk} (h : Sized v d) {k : ℕ} (hk : (k : ℤ) < d.length) :
    k / 512 < maxSectors ∧ ptr v d (dataSlot (k / 512)) ≠ 0 := by
  obtain ⟨-,h2,-,h4⟩ := h.sector (k : ℤ) (Int.natCast_nonneg k) hk
  have hd : ((k : ℤ) / 512).toNat = k / 512 := by omega
  rw [hd] at h2 h4
  exact ⟨h2,h4⟩

/-- Growth keeps the bytes of the file and adds zeros. -/
theorem FileOk.byteAt_grows {v w : Volume} {d e : InodeDisk} (h : FileOk v d) (hv : v.Ok)
    (g : Grows inodeShape v w (ptr v d) (ptr w e)) {k : ℕ} (hk : k / 512 < maxSectors)
    (hp : ptr w e (dataSlot (k / 512)) ≠ 0) :
    byteAt w e k = if (k : ℤ) < d.length then byteAt v d k else 0 := by
  have hplace := dataSlot_place (k / 512)
  by_cases h0 : ptr v d (dataSlot (k / 512)) = 0
  · rw [if_neg fun hl => (h.sized.mapped_byte hl).2 h0,byteAt,g.zero _ (dataSlot_leaf _) h0 hp,
      Sector.byte_zeros]
  · have hkeep := g.keep _ hplace h0
    have hsame : Same v w (ptr v d (dataSlot (k / 512))) := by
      refine g.same h0 (h.owns.used _ hplace h0) (fun t ht he => ?_) fun hl =>
        h.owns.apart _ hplace (hl.node hv.ready)
      obtain rfl := h.owns.inj t _ (by rw [ht]; decide) hplace he (fun hc => h0 (he.symm.trans hc))
      rw [dataSlot_leaf] at ht
      simp at ht
    have heq : byteAt w e k = byteAt v d k := by rw [byteAt,hkeep,hsame.1,byteAt]
    rw [heq]
    split
    · rfl
    · exact h.tail k (by omega) hk h0

theorem FileOk.grows {v w : Volume} {d e : InodeDisk} (h : FileOk v d) (hv : v.Ok)
    (hi : InodeDisk.SameInfo d e) (g : Grows inodeShape v w (ptr v d) (ptr w e)) : FileOk w e := by
  have hmap : ∀ s, inodeShape s ≠ .absent → ptr v d s ≠ 0 → ptr w e s ≠ 0 :=
    fun s hs h0 => by rw [g.keep s hs h0]; exact h0
  refine ⟨g.owns h.owns hv,⟨?_,?_,?_⟩,?_⟩
  · rw [hi.length_eq]
    exact h.sized.nonneg
  · rw [hi.length_eq]
    exact h.sized.le
  · rw [hi.length_eq]
    exact fun s hs => hmap s (inodeWalk_place hs) (h.sized.mapped s hs)
  · intro k hk hm hp
    rw [hi.length_eq] at hk
    rw [h.byteAt_grows hv g hm hp,if_neg (by omega)]

theorem byteAt_info {v : Volume} {d e : InodeDisk} (hd : ∀ k < 125, Sector.word e k = Sector.word d k)
    (k : ℕ) : byteAt v e k = byteAt v d k := by
  unfold byteAt
  rw [ptr_info hd]

/-- A longer length for blocks that are already there. -/
theorem FileOk.setLength {v : Volume} {d : InodeDisk} (h : FileOk v d) {l : ℤ} (hl : d.length ≤ l)
    (hmax : l ≤ 8517120) (hm : Mapped v d (bytesToSectors l)) : FileOk v (d.setLength l) := by
  have h0 := h.sized.nonneg
  have hw : ∀ k < 125, Sector.word (d.setLength l) k = Sector.word d k :=
    fun k hk => Sector.word_setWord_ne _ _ (by omega)
  have hlen := InodeDisk.length_setLength d (n := l) (by omega) (by omega)
  refine ⟨by rw [ptr_info hw]; exact h.owns,⟨by omega,by omega,?_⟩,?_⟩
  · rw [hlen]
    intro s hs
    rw [ptr_info hw]
    exact hm s hs
  · intro k hk hm hp
    rw [hlen] at hk
    rw [ptr_info hw] at hp
    rw [byteAt_info hw]
    exact h.tail k (by omega) hm hp

/-- Changes outside the file. -/
theorem FileOk.of_same {v w : Volume} {d : InodeDisk} (h : FileOk v d)
    (hused : ∀ t, inodeShape t ≠ .absent → ptr v d t ≠ 0 → Used w (ptr v d t))
    (hfm : ∀ s, FmNode w s → FmNode v s)
    (hs : ∀ t, inodeShape t ≠ .absent → ptr v d t ≠ 0 → w.sectors (ptr v d t) = v.sectors (ptr v d t)) :
    FileOk w d ∧ (∀ t, inodeShape t ≠ .absent → ptr w d t = ptr v d t) ∧ content w d = content v d := by
  have hblk : ∀ s, IsBlock v d s → w.sectors s = v.sectors s := by
    intro s hb
    obtain ⟨t,ht,rfl⟩ := isBlock_place hb
    exact hs t (by rw [ht]; decide) hb.1
  have hptr : ∀ t, inodeShape t ≠ .absent → ptr w d t = ptr v d t :=
    fun t ht => ptr_congr hblk (treeShape_ne_absent.mp ht)
  have hbyte : ∀ k, ptr v d (dataSlot (k / 512)) ≠ 0 → byteAt w d k = byteAt v d k := by
    intro k hk
    rw [byteAt,hptr _ (dataSlot_place _),hs _ (dataSlot_place _) hk,byteAt]
  refine ⟨⟨⟨fun s h1 h0 => ?_,fun s h1 => ?_,fun s t h1 h2 he h0 => ?_⟩,h.sized.congr hblk,?_⟩,hptr,?_⟩
  · rw [hptr s h1] at h0 ⊢
    exact hused s h1 h0
  · rw [hptr s h1]
    exact fun hn => h.owns.apart s h1 (hfm _ hn)
  · rw [hptr s h1] at he h0
    rw [hptr t h2] at he
    exact h.owns.inj s t h1 h2 he h0
  · intro k hk hm hp
    rw [hptr _ (dataSlot_place _)] at hp
    rw [hbyte k hp]
    exact h.tail k hk hm hp
  · refine content_congr h.sized.nonneg h.sized.le rfl fun i hi => ?_
    have hn := bytesToSectors_eq h.sized.nonneg h.sized.le
    have hle := h.sized.le
    refine ⟨hptr _ (dataSlot_place i),hs _ (dataSlot_place i) ?_⟩
    exact h.sized.mapped _ (dataSlot_mem hi (by unfold maxSectors; omega))

theorem getD_content {v : Volume} {d : InodeDisk} {k : ℕ} (h : (k : ℤ) < d.length) :
    (content v d).getD k 0 = byteAt v d k := by
  rw [List.getD_eq_getElem _ _ (by rw [length_content]; omega)]
  simp only [content,List.getElem_map,List.getElem_range]

/-- Zeros added before a write make no difference. -/
theorem overwrite_congr {a a' b : List UInt8} {o : ℕ} (hl : a'.length = max a.length (o + b.length))
    (h : ∀ k < a'.length, a'.getD k 0 = a.getD k 0) : overwrite a' o b = overwrite a o b := by
  unfold overwrite
  rw [hl,Nat.max_eq_left (Nat.le_max_right _ _)]
  refine List.map_congr_left fun k hk => ?_
  rw [h k (by rw [hl]; exact List.mem_range.mp hk)]

theorem content_overwrite {v w : Volume} {d : InodeDisk} {buffer : List UInt8} {o z : ℕ}
    (hle : o + z ≤ d.length.toNat) (hb : z ≤ buffer.length)
    (hr : ∀ k : ℕ, byteAt w d k = if o ≤ k ∧ k < o + z then buffer.getD (k - o) 0 else byteAt v d k) :
    content w d = overwrite (content v d) o (buffer.take z) := by
  have hlen : (buffer.take z).length = z := by rw [List.length_take,Nat.min_eq_left hb]
  unfold overwrite
  rw [hlen,length_content,Nat.max_eq_left hle,content]
  refine List.map_congr_left fun k hk => ?_
  have hk := List.mem_range.mp hk
  rw [hr k]
  split
  · rename_i h
    rw [List.getD_eq_getElem?_getD,List.getD_eq_getElem?_getD,List.getElem?_take_of_lt (by omega)]
  · rw [List.getD_eq_getElem _ _ (by rw [length_content]; exact hk)]
    simp only [content,List.getElem_map,List.getElem_range]

/-- The write loop inside a file. -/
theorem FileOk.writeLoop {v : Volume} {d : InodeDisk} (h : FileOk v d) (hv : v.Ok) (buffer : List UInt8)
    {size offset : ℤ} (h0 : 0 ≤ offset) (h1 : 0 ≤ size) (hle : offset + size ≤ d.length)
    (hb : size ≤ buffer.length) :
    let r := inodeWriteLoop d buffer size.toNat size offset 0 v
    r.1 = size ∧ r.2.freeMap = v.freeMap ∧ r.2.releases = v.releases ∧
      Keeps v r.2 (fun s => s ≠ 0 ∧ ∃ t, inodeShape t = .leaf ∧ ptr v d t = s) ∧ FileOk r.2 d ∧
      (∀ t, inodeShape t ≠ .absent → ptr r.2 d t = ptr v d t) ∧
      content r.2 d = overwrite (content v d) offset.toNat (buffer.take size.toNat) := by
  dsimp only
  have hle' := h.sized.le
  obtain ⟨r1,r2,r3,r4,r5,r6⟩ := inodeWriteLoop_spec buffer size.toNat size offset 0 h.owns.distinct h.sized
    h0 le_rfl h1 hle (by omega)
  generalize inodeWriteLoop d buffer size.toNat size offset 0 v = r at r1 r2 r3 r4 r5 r6 ⊢
  obtain ⟨n,w⟩ := r
  dsimp only at r1 r2 r3 r4 r5 r6 ⊢
  have hn := bytesToSectors_eq h.sized.nonneg h.sized.le
  have hframe : ∀ s, ¬ (s ≠ 0 ∧ ∃ t, inodeShape t = .leaf ∧ ptr v d t = s) → Same v w s := by
    intro s hs
    refine r5 s fun i hi he => hs ⟨?_,dataSlot i,dataSlot_leaf i,he.symm⟩
    rw [he]
    exact h.sized.mapped _ (dataSlot_mem hi (by unfold maxSectors; omega))
  have hblk : ∀ s, IsBlock v d s → w.sectors s = v.sectors s := by
    intro s hb
    obtain ⟨t,ht,rfl⟩ := isBlock_place hb
    refine (hframe _ ?_).1
    rintro ⟨h0,t',ht',he⟩
    obtain rfl := h.owns.inj t' t (by rw [ht']; decide) (by rw [ht]; decide) he (fun hc => h0 (he.symm.trans hc))
    rw [ht] at ht'
    simp at ht'
  have hptr : ∀ t, inodeShape t ≠ .absent → ptr w d t = ptr v d t :=
    fun t ht => ptr_congr hblk (treeShape_ne_absent.mp ht)
  have hkeeps : Keeps v w (fun s => s ≠ 0 ∧ ∃ t, inodeShape t = .leaf ∧ ptr v d t = s) := by
    refine keeps_of_same hv r2 r3 (fun s hs => (hframe s ?_).1) fun s hs _ => hframe s hs
    rintro ⟨-,t,ht,rfl⟩
    exact h.owns.apart t (by rw [ht]; decide) hs
  have hused : ∀ s, Used v s → Used w s := fun s hs => ⟨r2 ▸ hs.1,r2 ▸ hs.2⟩
  refine ⟨by rw [r1]; omega,r2,r4,hkeeps,⟨⟨fun s h1 h0 => ?_,fun s h1 => ?_,fun s t h1 h2 he h0 => ?_⟩,
    h.sized.congr hblk,fun k hk hm hp => ?_⟩,hptr,?_⟩
  · rw [hptr s h1] at h0 ⊢
    exact hused _ (h.owns.used s h1 h0)
  · rw [hptr s h1,hkeeps.fmNode_iff]
    exact h.owns.apart s h1
  · rw [hptr s h1] at he h0
    rw [hptr t h2] at he
    exact h.owns.inj s t h1 h2 he h0
  · rw [hptr _ (dataSlot_place _)] at hp
    rw [r6 k,if_neg (by omega)]
    exact h.tail k hk hm hp
  · refine content_overwrite (by omega) (by omega) fun k => ?_
    rw [r6 k]
    have hc : (offset ≤ k ∧ (k : ℤ) < offset + size) ↔ (offset.toNat ≤ k ∧ k < offset.toNat + size.toNat) := by
      omega
    have hi : Int.toNat 0 + ((k : ℤ) - offset).toNat = k - offset.toNat := by omega
    simp only [hc,hi]

/-- The allocations a write asks for: those for the places missing when it extends the file. -/
def writeDemand (v : Volume) (d : InodeDisk) (size offset : ℤ) : List Bool :=
  if d.length < offset + size ∧ offset + size < 2147483648 then
    demand inodeShape (inodeWalk (bytesToSectors (offset + size))) (ptr v d)
  else []

/-- The sectors of an open inode: its own and those it maps. -/
def Mine (v : Volume) (inode : Inode) (s : BlockSector) : Prop :=
  s = inode.sector ∨ s ≠ 0 ∧ ∃ t, inodeShape t ≠ .absent ∧ ptr v inode.data t = s

/-- What a write of `size` bytes at `offset` did; `ok` when it was not cut short by lack of space. -/
structure Writes (v : Volume) (inode : Inode) (buffer : List UInt8) (size offset : ℤ) (ok : Bool)
    (inode' : Inode) (w : Volume) : Prop where
  inode_eq : inode' = { inode with data := inode'.data }
  keeps : Keeps v w (fun s => s = 0 ∨ Fresh v w s ∨ Mine v inode s)
  used : ∀ s, Used v s → Used w s
  releases : w.releases = v.releases
  keep : ∀ t, inodeShape t ≠ .absent → ptr v inode.data t ≠ 0 → ptr w inode'.data t = ptr v inode.data t
  fresh : ∀ t, inodeShape t ≠ .absent → ptr v inode.data t = 0 → ptr w inode'.data t ≠ 0 →
    Fresh v w (ptr w inode'.data t)
  kind : ∀ k, 125 ≤ k → k ≠ 126 → Sector.word inode'.data k = Sector.word inode.data k
  file : FileOk w inode'.data
  content_eq : content w inode'.data = if ok then
    overwrite (content v inode.data) offset.toNat (buffer.take size.toNat) else content v inode.data
  record : w.sectors inode.sector = inode'.data ∨
    w.sectors inode.sector = v.sectors inode.sector ∧ InodeDisk.SameInfo inode.data inode'.data
  takes : Takes (writeDemand v inode.data size offset) v w
    (decide ((writeDemand v inode.data size offset).length ≤ numFreeSectors v))
  ok_eq : ok = (decide ((writeDemand v inode.data size offset).length ≤ numFreeSectors v) &&
    decide (offset + size ≤ 8517120))

theorem toNat_extend {l offset size : ℤ} {n : ℕ} (h0 : 0 ≤ offset) (h1 : 1 ≤ size) (hb : size ≤ n)
    (hgt : l < offset + size) : (offset + size).toNat = max l.toNat (offset.toNat + min size.toNat n) := by
  have hmin : min size.toNat n = size.toNat := by omega
  rw [hmin]
  omega

theorem byteToSector_eof (v : Volume) {d : InodeDisk} {pos : ℤ} (h : pos < 0 ∨ d.length ≤ pos) :
    byteToSector v d pos = -1 := if_neg (by omega)

theorem Takes.ok_eq {D : List Bool} {v w : Volume} {ok : Bool} (h : Takes D v w ok) :
    ok = decide (D.length ≤ numFreeSectors v) := by
  unfold Takes at h
  split_ifs at h with hD
  · rw [h.1,decide_eq_true hD]
  · rw [h.1,decide_eq_false hD]
  · rw [h.1,decide_eq_false hD]

/-- Steps that touch neither the map nor sector 0 take nothing. -/
theorem Takes.of_same {D : List Bool} {u v w : Volume} {ok : Bool} (h : Takes D u v ok)
    (hmap : w.freeMap = v.freeMap) (h0 : Same v w 0) : Takes D u w ok := by
  have hn : numFreeSectors w = numFreeSectors v := by rw [numFreeSectors,numFreeSectors,hmap]
  unfold Takes at h ⊢
  rw [hn]
  split_ifs at h ⊢
  · exact ⟨h.1,h.2.1,h.2.2.trans h0⟩
  · exact ⟨h.1,h.2.1,by rw [h0.2]; exact h.2.2⟩
  · exact ⟨h.1,h.2.1,h.2.2.trans h0⟩

section
variable {v : Volume} {inode : Inode} {size offset : ℤ}

/-- What `inode_write_at` expects of an open inode. -/
structure OpenOk (v : Volume) (inode : Inode) : Prop where
  ok : v.Ok
  file : FileOk v inode.data
  deny : inode.denyWriteCnt = 0
  used : Used v inode.sector
  apart : ¬ FmNode v inode.sector
  ne_zero : inode.sector ≠ 0
  not_mapped : ∀ t, inodeShape t ≠ .absent → ptr v inode.data t ≠ inode.sector

/-- A write inside the file. -/
theorem OpenOk.write_inside (h : OpenOk v inode) (buffer : List UInt8) (h0 : 0 ≤ offset) (h1 : 1 ≤ size)
    (hb : size ≤ buffer.length) (hle : offset + size ≤ inode.data.length) :
    (inodeWriteAt inode buffer size offset v).1 = size ∧ Writes v inode buffer size offset true
      (inodeWriteAt inode buffer size offset v).2.1 (inodeWriteAt inode buffer size offset v).2.2 := by
  have hle' := h.file.sized.le
  obtain ⟨-,-,hs3,hs4⟩ := h.file.sized.sector (offset + size - 1) (by omega) (by omega)
  have hne : byteToSector v inode.data (offset + size - 1) ≠ -1 := by
    rw [hs3]
    exact (h.file.owns.used _ (dataSlot_place _) hs4).ne_minus_one h.ok.bitCnt_lt
  rw [inodeWriteAt,inodeWriteAtWith_inside _ buffer size offset h.deny h.file.sized h0 h1 hle hne]
  obtain ⟨r1,r2,r3,r4,r5,r6,r7⟩ := h.file.writeLoop h.ok buffer h0 (by omega) hle hb
  have hused : ∀ s, Used v s → Used (inodeWriteLoop inode.data buffer size.toNat size offset 0 v).2 s :=
    fun s hs => ⟨r2 ▸ hs.1,r2 ▸ hs.2⟩
  have hD : writeDemand v inode.data size offset = [] := if_neg (by omega)
  have hframe : ∀ {s}, ¬ FmLeaf v s → ¬ (s ≠ 0 ∧ ∃ t, inodeShape t = .leaf ∧ ptr v inode.data t = s) →
      Same v (inodeWriteLoop inode.data buffer size.toNat size offset 0 v).2 s := fun hl hs => r4.frame _ hs hl
  refine ⟨r1,⟨rfl,r4.mono ?_,hused,r3,fun t ht _ => r6 t ht,?_,fun _ _ _ => rfl,r5,?_,Or.inr ⟨?_,InodeDisk.SameInfo.refl _⟩,?_,?_⟩⟩
  · rintro s ⟨hs,t,ht,rfl⟩
    exact Or.inr (Or.inr (Or.inr ⟨hs,t,by rw [ht]; decide,rfl⟩))
  · intro t ht h0 h2
    exact absurd ((r6 t ht).trans h0) h2
  · rw [if_pos rfl]
    exact r7
  · refine (hframe (fun hl => h.apart (hl.node h.ok.ready)) ?_).1
    rintro ⟨-,t,ht,he⟩
    exact h.not_mapped t (by rw [ht]; decide) he
  · rw [hD]
    exact (Takes.nil v).of_same r2 (hframe (fun hl => (hl.node h.ok.ready).1 rfl) fun hc => hc.1 rfl)
  · rw [hD,decide_eq_true (show offset + size ≤ 8517120 by omega)]
    simp

/-- A write that has to extend the file first. -/
theorem OpenOk.write_extend (h : OpenOk v inode) (buffer : List UInt8) (h0 : 0 ≤ offset) (h1 : 1 ≤ size)
    (ho : offset < 2147483648) (hs : size < 2147483648) (hb : size ≤ buffer.length)
    (hgt : inode.data.length < offset + size) :
    ∃ ok, (inodeWriteAt inode buffer size offset v).1 = (if ok then size else 0) ∧
      Writes v inode buffer size offset ok
      (inodeWriteAt inode buffer size offset v).2.1 (inodeWriteAt inode buffer size offset v).2.2 := by
  have hle := h.file.sized.le
  have hl0 := h.file.sized.nonneg
  have heof : byteToSector v inode.data (wrap32 (wrap32 (offset + size) - 1)) = -1 := by
    apply byteToSector_eof
    unfold wrap32
    omega
  unfold inodeWriteAt inodeWriteAtWith
  rw [if_neg (by simpa using h.deny),if_pos heof]
  by_cases hover : offset + size < 2147483648
  swap
  · -- the new length overflows: nothing happens
    have hneg : wrap32 (offset + size) < 0 := by unfold wrap32; omega
    have hD : writeDemand v inode.data size offset = [] := if_neg (by omega)
    have hext : inodeExtend (freeMapAllocate 1) inode (wrap32 (offset + size)) v = (false,inode,v) := by
      rw [inodeExtend,inodeReserve,if_pos hneg]
    rw [hext]
    refine ⟨false,rfl,⟨rfl,Keeps.refl h.ok _,fun _ hs => hs,rfl,fun _ _ _ => rfl,fun _ _ h0 h2 => absurd h0 h2,
      fun _ _ _ => rfl,h.file,rfl,Or.inr ⟨rfl,InodeDisk.SameInfo.refl _⟩,?_,?_⟩⟩
    · rw [hD]
      exact Takes.nil v
    · rw [decide_eq_false (show ¬ offset + size ≤ 8517120 by omega),Bool.and_false]
  have hD : writeDemand v inode.data size offset =
      demand inodeShape (inodeWalk (bytesToSectors (offset + size))) (ptr v inode.data) := if_pos ⟨hgt,hover⟩
  have hlen0 : 0 ≤ offset + size := by omega
  obtain ⟨okT,hres,hok,hinfo⟩ := inodeReserve_spec hlen0 h.ok h.file.owns
  rw [wrap32_of_mem (by omega) (by omega)]
  unfold inodeExtend
  generalize inodeReserve (freeMapAllocate 1) inode.data (offset + size) v = r at hres hok hinfo ⊢
  obtain ⟨ok,e,u⟩ := r
  dsimp only at hres hok hinfo ⊢
  have hg := hres.grows
  have hfits : bytesToSectors (offset + size) ≤ maxSectors ↔ offset + size ≤ 8517120 :=
    bytesToSectors_le_iff (by omega) hover
  have hokT := hres.takes.ok_eq
  rw [← hD] at hokT
  have hokD : ok = (decide ((writeDemand v inode.data size offset).length ≤ numFreeSectors v) &&
      decide (offset + size ≤ 8517120)) := by
    rw [hok,hokT]
    simp only [hfits]
  have htakes : Takes (writeDemand v inode.data size offset) v u
      (decide ((writeDemand v inode.data size offset).length ≤ numFreeSectors v)) := by
    rw [← hokT,hD]
    exact hres.takes
  have hfile := h.file.grows h.ok hinfo hg
  have hmine : ∀ s, Touched inodeShape v u (ptr v inode.data) s →
      s = 0 ∨ Fresh v u s ∨ Mine v inode s := by
    rintro s (hs | hs | ⟨t,ht,rfl⟩)
    · exact Or.inl hs
    · exact Or.inr (Or.inl hs)
    · by_cases hz : ptr v inode.data t = 0
      · exact Or.inl hz
      · exact Or.inr (Or.inr (Or.inr ⟨hz,t,by rw [ht]; decide,rfl⟩))
  have hsec : Same v u inode.sector := by
    refine hg.same h.ne_zero h.used (fun t ht => h.not_mapped t (by rw [ht]; decide)) fun hl =>
      h.apart (hl.node h.ok.ready)
  have hbyte : content u e = content v inode.data := by
    unfold content
    rw [hinfo.length_eq]
    refine List.map_congr_left fun k hk => ?_
    have hk : (k : ℤ) < inode.data.length := by have := List.mem_range.mp hk; omega
    obtain ⟨hm,hp⟩ := h.file.sized.mapped_byte hk
    rw [h.file.byteAt_grows h.ok hg hm (by rw [hg.keep _ (dataSlot_place _) hp]; exact hp),if_pos hk]
  cases ok with
  | false =>
    exact ⟨false,rfl,⟨rfl,hg.keeps.mono hmine,hg.used,hg.releases,hg.keep,hg.fresh,
      fun k hk _ => hinfo k hk,hfile,hbyte,Or.inr ⟨hsec.1,hinfo⟩,htakes,hokD⟩⟩
  | true =>
    obtain ⟨hokT',hmax⟩ : okT = true ∧ bytesToSectors (offset + size) ≤ maxSectors := by
      have := hok.symm
      rwa [Bool.and_eq_true,decide_eq_true_eq] at this
    rw [hfits] at hmax
    have hfile1 := hfile.setLength (l := offset + size) (by rw [hinfo.length_eq]; omega) hmax (hres.mapped hokT')
    have hlen1 := InodeDisk.length_setLength e (n := offset + size) (by omega) (by omega)
    have hw1 : ∀ k < 125, Sector.word (e.setLength (offset + size)) k = Sector.word e k :=
      fun k hk => Sector.word_setWord_ne _ _ (by omega)
    have hcont1 : ∀ k : ℕ, k < (content u (e.setLength (offset + size))).length →
        (content u (e.setLength (offset + size))).getD k 0 = (content v inode.data).getD k 0 := by
      intro k hk
      rw [length_content,hlen1] at hk
      have hk' : (k : ℤ) < (e.setLength (offset + size)).length := by rw [hlen1]; omega
      obtain ⟨hm,hp⟩ := hfile1.sized.mapped_byte hk'
      rw [ptr_info hw1] at hp
      rw [getD_content hk',byteAt_info hw1,h.file.byteAt_grows h.ok hg hm hp]
      split
      · rename_i hlt
        rw [getD_content hlt]
      · rw [List.getD_eq_default _ _ (by rw [length_content]; omega)]
    have hptr1 : ∀ t, ptr u (e.setLength (offset + size)) t = ptr u e t := fun t => by rw [ptr_info hw1]
    have hkind1 : ∀ k, 125 ≤ k → k ≠ 126 →
        Sector.word (e.setLength (offset + size)) k = Sector.word inode.data k :=
      fun k hk hk' => (Sector.word_setWord_ne _ _ hk').trans (hinfo k hk)
    dsimp only
    generalize e.setLength (offset + size) = d1 at hfile1 hlen1 hcont1 hptr1 hkind1 ⊢
    -- the sectors after growth, seen from before
    have horigin : ∀ t, inodeShape t ≠ .absent → ptr u d1 t ≠ 0 →
        ptr v inode.data t = ptr u d1 t ∨ Fresh v u (ptr u d1 t) := by
      intro t ht hp
      rw [hptr1] at hp ⊢
      by_cases hz : ptr v inode.data t = 0
      · exact Or.inr (hg.fresh t ht hz hp)
      · exact Or.inl (hg.keep t ht hz).symm
    have hnot1 : ∀ t, inodeShape t ≠ .absent → ptr u d1 t ≠ 0 → ptr u d1 t ≠ inode.sector := by
      intro t ht hp he
      rcases horigin t ht hp with h2 | h2
      · exact h.not_mapped t ht (h2.trans he)
      · exact h.used.not_free (he ▸ h2.1)
    have hfm1 : ¬ FmNode u inode.sector := by
      rw [hg.keeps.fmNode_iff]
      exact h.apart
    have hk1 := keeps_write hg.keeps.ok d1 hfm1
    obtain ⟨hfile2,hptr2,hcont2⟩ := hfile1.of_same (w := bufferCacheWrite inode.sector d1 u) hfile1.owns.used
      (fun s hs => (hk1.fmNode_iff s).mp hs) fun t ht hp => (same_write u d1 (hnot1 t ht hp)).1
    obtain ⟨r1,r2,r3,r4,r5,r6,r7⟩ := hfile2.writeLoop hk1.ok buffer h0 (by omega) (by omega) hb
    have hsec2 := sectors_write u inode.sector d1
    have hsame0 := same_write u d1 h.ne_zero.symm
    have hmap1 : (bufferCacheWrite inode.sector d1 u).freeMap = u.freeMap := rfl
    have hrel1 : (bufferCacheWrite inode.sector d1 u).releases = u.releases := rfl
    generalize bufferCacheWrite inode.sector d1 u = u1 at hk1 hfile2 hptr2 hcont2 r1 r2 r3 r4 r5 r6 r7 hsec2 hsame0 hmap1 hrel1 ⊢
    generalize inodeWriteLoop d1 buffer size.toNat size offset 0 u1 = r at r1 r2 r3 r4 r5 r6 r7 ⊢
    obtain ⟨n,w⟩ := r
    dsimp only at r1 r2 r3 r4 r5 r6 r7 ⊢
    have hmapw : w.freeMap = u.freeMap := r2.trans hmap1
    have husedw : ∀ s, Used u s → Used w s := fun s hs => ⟨hmapw ▸ hs.1,hmapw ▸ hs.2⟩
    have hfreshw : ∀ s, Fresh v u s → Fresh v w s := fun s hs => ⟨hs.1,husedw s hs.2⟩
    have hptrw : ∀ t, inodeShape t ≠ .absent → ptr w d1 t = ptr u e t := fun t ht => by
      rw [r6 t ht,hptr2 t ht,hptr1]
    have hwrote : ∀ s, s ≠ 0 ∧ (∃ t, inodeShape t = .leaf ∧ ptr u1 d1 t = s) →
        s = 0 ∨ Fresh v w s ∨ Mine v inode s := by
      rintro s ⟨hs,t,ht,rfl⟩
      have hp : inodeShape t ≠ .absent := by rw [ht]; decide
      rw [hptr2 t hp] at hs ⊢
      rcases horigin t hp hs with h2 | h2
      · exact Or.inr (Or.inr (Or.inr ⟨hs,t,hp,h2⟩))
      · exact Or.inr (Or.inl (hfreshw _ h2))
    have hkeeps : Keeps v w (fun s => s = 0 ∨ Fresh v w s ∨ Mine v inode s) := by
      refine Keeps.trans (hg.keeps.mono fun s hs => ?_) (Keeps.trans (hk1.mono ?_) (r4.mono hwrote))
      · rcases hmine s hs with h2 | h2 | h2
        · exact Or.inl h2
        · exact Or.inr (Or.inl (hfreshw s h2))
        · exact Or.inr (Or.inr h2)
      · rintro s rfl
        exact Or.inr (Or.inr (Or.inl rfl))
    have hfm0 : ∀ {x : Volume}, x.Ok → ¬ FmLeaf x 0 := fun hx hl => (hl.node hx.ready).1 rfl
    have hlast0 : Same u1 w 0 := r4.frame 0 (fun hc => hc.1 rfl) (hfm0 hk1.ok)
    refine ⟨true,r1,⟨rfl,hkeeps,fun s hs => husedw s (hg.used s hs),r3.trans (hrel1.trans hg.releases),?_,?_,
      hkind1,r5,?_,Or.inl ?_,htakes.of_same hmapw (hsame0.trans hlast0),hokD⟩⟩
    · intro t ht hp
      rw [hptrw t ht]
      exact hg.keep t ht hp
    · intro t ht hp hp'
      rw [hptrw t ht] at hp' ⊢
      exact hfreshw _ (hg.fresh t ht hp hp')
    · rw [if_pos rfl]
      refine r7.trans ?_
      rw [hcont2]
      refine overwrite_congr ?_ hcont1
      rw [length_content,length_content,hlen1,List.length_take]
      exact toNat_extend h0 h1 hb hgt
    · refine (r4.frame _ ?_ ?_).1.trans hsec2
      · rintro ⟨h2,t,ht,he⟩
        have hp : inodeShape t ≠ .absent := by rw [ht]; decide
        rw [hptr2 t hp] at he
        exact hnot1 t hp (he ▸ h2) he
      · exact fun hl => hfm1 ((hk1.fmNode_iff _).mp (hl.node hk1.ok.ready))

end

/-! ### Creation -/

/-- The allocations `inode_create` asks for. -/
def createDemand (length : ℤ) : List Bool :=
  demand inodeShape (inodeWalk (bytesToSectors length)) fun _ => 0

/-- The sectors of a file: those of its bytes and their indirect blocks, and the one of its inode. -/
def fileSectors (length : ℤ) : ℕ := 1 + (createDemand length).length

theorem length_createDemand_walk (length : ℤ) : (createDemand length).length = (inodeWalk (bytesToSectors length)).length := by
  rw [createDemand,demand,List.length_map,List.filter_eq_self.mpr fun _ _ => decide_eq_true rfl]

/-- What `inode_create` did for a length that is not negative; `d` is the new record. -/
structure Creates (v : Volume) (sector : BlockSector) (length : ℤ) (isDir ok : Bool) (d : InodeDisk)
    (w : Volume) : Prop where
  keeps : Keeps v w (fun s => s = 0 ∨ Fresh v w s ∨ s = sector)
  used : ∀ s, Used v s → Used w s
  releases : w.releases = v.releases
  same : ok = false → sector ≠ 0 → Used v sector → Same v w sector
  takes : sector ≠ 0 → Takes (createDemand length) v w (decide ((createDemand length).length ≤ numFreeSectors v))
  ok_eq : ok = (decide ((createDemand length).length ≤ numFreeSectors v) && decide (length ≤ 8517120))
  file : ok = true → Used v sector → FileOk w d
  content_eq : ok = true → Used v sector → content w d = List.replicate length.toNat 0
  record : ok = true → w.sectors sector = d
  info : InodeDisk.SameInfo (InodeDisk.create length isDir) d
  fresh : ok = true → Used v sector → ∀ t, inodeShape t ≠ .absent → ptr w d t ≠ 0 → Fresh v w (ptr w d t)

theorem inodeCreate_neg {length : ℤ} (sector : BlockSector) (isDir : Bool) (v : Volume) (h : length < 0)
    (h' : -2147483648 ≤ length) : inodeCreate sector length isDir v = (false,v) := by
  have hmax : length < 2147483648 := by omega
  have hlen := InodeDisk.length_create isDir h' hmax
  have hres : inodeAllocate (InodeDisk.create length isDir) v = (false,InodeDisk.create length isDir,v) := by
    rw [inodeAllocate,hlen,inodeReserve,if_pos h]
  rw [inodeCreate,hres,inodeStore]

theorem inodeCreate_spec {v : Volume} {sector : BlockSector} {length : ℤ} {isDir : Bool} (hv : v.Ok)
    (hs : ¬ FmNode v sector) (h0 : 0 ≤ length) (hmax : length < 2147483648) :
    ∃ d, Creates v sector length isDir (inodeCreate sector length isDir v).1 d
      (inodeCreate sector length isDir v).2 := by
  have hmin : -2147483648 ≤ length := by omega
  have hlen := InodeDisk.length_create isDir hmin hmax
  have hno : ∀ k < 125, Sector.word (InodeDisk.create length isDir) k = 0 :=
    fun k hk => InodeDisk.word_create length isDir hk
  have hT : ptr v (InodeDisk.create length isDir) = fun _ => 0 := funext (ptr_of_no_blocks hno)
  obtain ⟨okT,hres,hok,hinfo⟩ := inodeReserve_spec (d := InodeDisk.create length isDir) h0 hv
    (owns_of_no_blocks hno)
  rw [inodeCreate,inodeAllocate,hlen]
  generalize inodeReserve (freeMapAllocate 1) (InodeDisk.create length isDir) length v = r at hres hok hinfo ⊢
  obtain ⟨ok,d,u⟩ := r
  dsimp only at hres hok hinfo
  have hg := hres.grows
  rw [hT] at hres hg
  have htakes := hres.takes
  have hokT := hres.takes.ok_eq
  have hfits : bytesToSectors length ≤ maxSectors ↔ length ≤ 8517120 := bytesToSectors_le_iff h0 hmax
  have hokD : ok = (decide ((createDemand length).length ≤ numFreeSectors v) && decide (length ≤ 8517120)) := by
    rw [hok,hokT]
    simp only [hfits]
    rfl
  have hmine : ∀ s, Touched inodeShape v u (fun _ => 0) s → s = 0 ∨ Fresh v u s := by
    rintro s (hs | hs | ⟨t,ht,rfl⟩)
    · exact Or.inl hs
    · exact Or.inr hs
    · exact Or.inl rfl
  rw [hokT] at htakes
  cases ok with
  | false =>
    dsimp only [inodeStore]
    refine ⟨d,⟨hg.keeps.mono fun s hs => ?_,hg.used,hg.releases,fun _ hne hu => ?_,fun _ => htakes,hokD,
      fun hc => absurd hc (by decide),fun hc => absurd hc (by decide),fun hc => absurd hc (by decide),hinfo,
      fun hc => absurd hc (by decide)⟩⟩
    · rcases hmine s hs with h | h
      · exact Or.inl h
      · exact Or.inr (Or.inl h)
    · exact hg.same hne hu (fun t _ hc => hne hc.symm) fun hl => hs (hl.node hv.ready)
  | true =>
    obtain ⟨hokT',hmax'⟩ : okT = true ∧ bytesToSectors length ≤ maxSectors := by
      have := hok.symm
      rwa [Bool.and_eq_true,decide_eq_true_eq] at this
    have hle : length ≤ 8517120 := hfits.mp hmax'
    have hdlen : d.length = length := by rw [hinfo.length_eq,hlen]
    have hown : Owns u inodeShape (ptr u d) := hg.owns (hT ▸ owns_of_no_blocks hno) hv
    have hzero : ∀ k : ℕ, ptr u d (dataSlot (k / 512)) ≠ 0 → byteAt u d k = 0 := by
      intro k hp
      rw [byteAt,hg.zero _ (dataSlot_leaf _) rfl hp,Sector.byte_zeros]
    have hfile : FileOk u d := by
      refine ⟨hown,⟨by omega,by omega,?_⟩,fun k _ _ hp => hzero k hp⟩
      rw [hdlen]
      exact hres.mapped hokT'
    have hcont : content u d = List.replicate length.toNat 0 := by
      refine List.eq_replicate_iff.mpr ⟨by rw [length_content,hdlen],fun b hb => ?_⟩
      obtain ⟨k,hk,rfl⟩ := List.mem_map.mp hb
      have hk := List.mem_range.mp hk
      exact hzero k (hfile.sized.mapped_byte (by omega)).2
    have hfresh : ∀ t, inodeShape t ≠ .absent → ptr u d t ≠ 0 → Fresh v u (ptr u d t) :=
      fun t ht hp => hg.fresh t ht rfl hp
    have hfm : ¬ FmNode u sector := by
      rw [hg.keeps.fmNode_iff]
      exact hs
    have hk1 := keeps_write hg.keeps.ok d hfm
    have hnot : Used v sector → ∀ t, inodeShape t ≠ .absent → ptr u d t ≠ 0 → ptr u d t ≠ sector :=
      fun hu t ht hp he => hu.not_free (he ▸ (hfresh t ht hp).1)
    have hof := fun hu => hfile.of_same (w := bufferCacheWrite sector d u) hfile.owns.used
      (fun s hs => (hk1.fmNode_iff s).mp hs) fun t ht hp => (same_write u d (hnot hu t ht hp)).1
    dsimp only [inodeStore]
    refine ⟨d,⟨?_,hg.used,hg.releases,fun hc => absurd hc (by decide),fun hne => ?_,hokD,fun _ hu => (hof hu).1,
      fun _ hu => (hof hu).2.2.trans hcont,fun _ => sectors_write u sector d,hinfo,fun _ hu t ht hp => ?_⟩⟩
    · refine Keeps.trans (hg.keeps.mono fun s hs => ?_) (hk1.mono fun s hs => Or.inr (Or.inr hs))
      rcases hmine s hs with h | h
      · exact Or.inl h
      · exact Or.inr (Or.inl h)
    · exact htakes.of_same rfl (same_write u d hne.symm)
    · have hpt := (hof hu).2.1 t ht
      rw [hpt] at hp ⊢
      exact hfresh t ht hp

end ShellOS.Fs
