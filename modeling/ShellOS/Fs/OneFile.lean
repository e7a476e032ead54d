import ShellOS.Fs.Session

/-! A disk with one file, all of whose blocks are direct. The invariant holds of it, whatever the file
holds. -/
namespace ShellOS.Fs
open CLib SlotTable BlockTree

/-! ### Records with direct blocks only -/

/-- The sector with these bytes, as many as it takes, and zeros behind them. -/
def padded (b : List UInt8) : Sector := Sector.ofBytes fun k => b.getD k 0

/-- The record has these blocks in this order and no others. -/
structure Direct (d : InodeDisk) (ps : List BlockSector) : Prop where
  few : ps.length ≤ 123
  word : ∀ j < 125, Sector.word d j = ps.getD j 0

section
variable {v : Volume} {d : InodeDisk} {ps : List BlockSector} {b : List UInt8} {t : Slot}

theorem Direct.ptr (h : Direct d ps) (ht : inodeShape t ≠ .absent) : ptr v d t = if t.2 = [] then ps.getD t.1 0 else 0 := by
  have hfew := h.few
  obtain ⟨j,π⟩ := t
  by_cases hj : j < ps.length
  · have hπ : π.length ≤ inodeLevel j := treeShape_ne_absent.mp ht
    rw [inodeLevel,if_neg (by omega),if_neg (by omega)] at hπ
    obtain rfl : π = [] := List.length_eq_zero_iff.mp (Nat.le_zero.mp hπ)
    rw [if_pos rfl,ptr_root _ _ (by omega),h.word j (by omega)]
  · have hzero : ps.getD j 0 = 0 := List.getD_eq_default _ _ (Nat.not_lt.mp hj)
    have hroot : inodeRoots d j = 0 := by
      rw [inodeRoots]
      split
      · rename_i hlt
        rw [h.word j hlt,hzero]
      · rfl
    rw [ptr_of_root_zero hroot]
    dsimp only
    rw [hzero,ite_self]

theorem Direct.exists_block (h : Direct d ps) (ht : inodeShape t ≠ .absent) (h0 : Fs.ptr v d t ≠ 0) :
    ∃ j, t = (j,[]) ∧ ps[j]? = some (Fs.ptr v d t) := by
  obtain ⟨j,π⟩ := t
  rw [h.ptr ht] at h0 ⊢
  by_cases hπ : π = []
  · subst hπ
    rw [if_pos rfl] at h0 ⊢
    refine ⟨j,rfl,?_⟩
    dsimp only at h0 ⊢
    by_cases hj : j < ps.length
    · rw [List.getElem?_eq_getElem hj,List.getD_eq_getElem _ 0 hj]
    · exact absurd (List.getD_eq_default _ _ (Nat.not_lt.mp hj)) h0
  · exact absurd (if_neg hπ) h0

theorem Direct.sized (h : Direct d ps) (h0 : ∀ p ∈ ps, p ≠ 0) (hn : 0 ≤ d.length) (hle : d.length ≤ 512 * ps.length) : Sized v d := by
  have hfew := h.few
  refine ⟨hn,by omega,fun t ht => ?_⟩
  have hb : (bytesToSectors d.length : ℤ) = (d.length + 511) / 512 := bytesToSectors_eq (by omega) (by omega)
  have hall : t ∈ inodeWalk ps.length := inodeWalk_subset (by omega) ht
  obtain ⟨j,π⟩ := t
  cases mem_inodeWalk.mp hall with
  | inl hm =>
    obtain ⟨-,hj,rfl⟩ := hm
    rw [h.ptr (root_place j),if_pos rfl,List.getD_eq_getElem _ 0 hj]
    exact h0 _ (List.getElem_mem hj)
  | inr hm => omega

theorem Direct.byteAt (h : Direct d ps) (hs : ∀ j p, ps[j]? = some p → v.sectors p = padded (b.drop (512 * j))) {k : ℕ}
    (hk : k < 512 * ps.length) : byteAt v d k = b.getD k 0 := by
  have hfew := h.few
  have hj : k / 512 < ps.length := by omega
  have hslot : dataSlot (k / 512) = (k / 512,[]) := if_pos (by omega)
  rw [Fs.byteAt,hslot,h.ptr (root_place _),if_pos rfl,List.getD_eq_getElem _ 0 hj,hs _ _ (List.getElem?_eq_getElem hj),padded,
    Sector.byte_ofBytes _ (Nat.mod_lt k (by decide)),List.getD_eq_getElem?_getD,List.getD_eq_getElem?_getD,List.getElem?_drop,
    Nat.div_add_mod]

theorem Direct.content (h : Direct d ps) (hs : ∀ j p, ps[j]? = some p → v.sectors p = padded (b.drop (512 * j)))
    (hlen : d.length = b.length) (hle : b.length ≤ 512 * ps.length) : content v d = b := by
  rw [Fs.content,hlen,Int.toNat_natCast]
  refine List.ext_getElem (by simp) fun k h1 h2 => ?_
  rw [List.getElem_map,List.getElem_range,h.byteAt hs (by omega),List.getD_eq_getElem _ 0 h2]

theorem Direct.fileOk (h : Direct d ps) (hs : ∀ j p, ps[j]? = some p → v.sectors p = padded (b.drop (512 * j)))
    (hlen : d.length = b.length) (hle : b.length ≤ 512 * ps.length) (hnodup : ps.Nodup)
    (hps : ∀ p ∈ ps, p ≠ 0 ∧ Used v p ∧ ¬ FmNode v p) : FileOk v d := by
  have hfew := h.few
  refine ⟨⟨fun t ht hne => ?_,fun t ht hn => ?_,fun t t' ht ht' he hne => ?_⟩,
    h.sized (fun p hp => (hps p hp).1) (by omega) (by omega),fun k hk hm hne => ?_⟩
  · obtain ⟨j,-,hj⟩ := h.exists_block ht hne
    exact (hps _ (List.mem_of_getElem? hj)).2.1
  · obtain ⟨j,-,hj⟩ := h.exists_block ht hn.1
    exact (hps _ (List.mem_of_getElem? hj)).2.2 hn
  · obtain ⟨j,rfl,hj⟩ := h.exists_block ht hne
    obtain ⟨j',rfl,hj'⟩ := h.exists_block ht' (he ▸ hne)
    rw [← he] at hj'
    rw [(List.getElem?_inj (List.getElem?_eq_some_iff.mp hj).1 hnodup).mp (hj.trans hj'.symm)]
  · obtain ⟨j,hj,hp⟩ := h.exists_block ((dataSlot_leaf _).symm ▸ by decide) hne
    have hjlt := (List.getElem?_eq_some_iff.mp hp).1
    have hslot : dataSlot j = (j,[]) := if_pos (by omega)
    have hkj := dataSlot_injective (hj.trans hslot.symm)
    rw [h.byteAt hs (by omega)]
    exact List.getD_eq_default _ _ (by omega)

end

/-! ### Records with one block -/

/-- The record of a file of one sector. -/
def oneBlock (n : ℕ) (isDir : Bool) (p : BlockSector) : InodeDisk := (InodeDisk.create n isDir).setDirectBlock 0 p

section
variable {v : Volume} {n : ℕ} {isDir : Bool} {p : BlockSector} {b : List UInt8}

theorem direct_oneBlock : Direct (oneBlock n isDir p) [p] := by
  refine ⟨show 1 ≤ 123 by decide,fun j hj => ?_⟩
  rw [oneBlock,InodeDisk.setDirectBlock,Sector.word_setWord _ _ _ _ (by decide)]
  cases j with
  | zero => rfl
  | succ j =>
    rw [if_neg (Nat.succ_ne_zero j),InodeDisk.word_create _ _ hj]
    rfl

theorem length_oneBlock (h : n ≤ 512) : (oneBlock n isDir p).length = n := by
  rw [oneBlock,InodeDisk.setDirectBlock,InodeDisk.length_setWord _ _ (by decide),
    InodeDisk.length_create _ (by omega) (by omega)]

theorem isDir_oneBlock : (oneBlock n isDir p).isDir = isDir := by
  have hw : Sector.word (oneBlock n isDir p) 125 = Sector.word (InodeDisk.create n isDir) 125 :=
    Sector.word_setWord_ne _ _ (by decide)
  have hb := InodeDisk.isDir_create n isDir
  rw [InodeDisk.isDir,Sector.byte] at hb ⊢
  rwa [hw]

theorem ptr_oneBlock {t : Slot} (ht : inodeShape t ≠ .absent) : ptr v (oneBlock n isDir p) t = if t = (0,[]) then p else 0 := by
  obtain ⟨j,π⟩ := t
  rw [direct_oneBlock.ptr ht]
  cases j with
  | zero => exact if_congr (by simp) rfl rfl
  | succ j =>
    rw [if_neg fun hc : (j + 1,π) = (0,[]) => Nat.succ_ne_zero j (Prod.mk.inj hc).1]
    exact ite_self _

theorem ptr_oneBlock_ne {t : Slot} (ht : inodeShape t ≠ .absent) (h0 : ptr v (oneBlock n isDir p) t ≠ 0) : t = (0,[]) := by
  rw [ptr_oneBlock ht] at h0
  by_contra hne
  exact h0 (if_neg hne)

theorem oneBlock_sectors (hs : v.sectors p = padded b) : ∀ j q, [p][j]? = some q → v.sectors q = padded (b.drop (512 * j)) := by
  intro j q hq
  cases j with
  | zero =>
    obtain rfl := Option.some.inj hq
    exact hs
  | succ j => cases hq

theorem content_oneBlock (hs : v.sectors p = padded b) (hb : b.length ≤ 512) : content v (oneBlock b.length isDir p) = b :=
  direct_oneBlock.content (oneBlock_sectors hs) (length_oneBlock hb) hb

theorem fileOk_oneBlock (hs : v.sectors p = padded b) (hb : b.length ≤ 512) (h0 : p ≠ 0) (hu : Used v p) (hf : ¬ FmNode v p) :
    FileOk v (oneBlock b.length isDir p) :=
  direct_oneBlock.fileOk (oneBlock_sectors hs) (length_oneBlock hb) hb (List.nodup_singleton p) fun q hq => by
    obtain rfl := List.mem_singleton.mp hq
    exact ⟨h0,hu,hf⟩

end

/-! ### The disk -/

/-- The table of the root directory: the parent, and one file. -/
def oneEntry (name : CString) : List DirEntry := [⟨rootDirSector,strncpyName [],true⟩,⟨4,strncpyName name,true⟩]

/-- A disk with the free map, the root directory, and a file whose record is `d`. -/
def fileDisk (name : CString) (used : Bitmap) (d : InodeDisk) (data : BlockSector → Sector) : System where
  vol :=
    { sectors := fun s =>
        if s = 0 then oneBlock 8 false 2
        else if s = 1 then oneBlock 72 true 3
        else if s = 2 then padded used.bytes
        else if s = 3 then padded ((oneEntry name).flatMap DirEntry.encode)
        else if s = 4 then d
        else data s
      freeMap := used
      freeMapFile := some ⟨0,0,1,false,0,oneBlock 8 false 2⟩
      writes := fun _ => 0
      releases := fun _ => 0 }
  openInodes := []
  dirs := []
  cwd := none
  fileTable := []
  nextAddr := 1

/-- Of the sixteen sectors of the disk the blocks of the file, behind the first five, hold its bytes. -/
structure LaidOut (used : Bitmap) (d : InodeDisk) (data : BlockSector → Sector) (ps : List BlockSector) (b : List UInt8) : Prop where
  bitCnt : used.bitCnt = 16
  front : ∀ k < 5, used.bitmapTest k = true
  blocks : Direct d ps
  isDir : d.isDir = false
  length : d.length = b.length
  enough : b.length ≤ 512 * ps.length
  holds : ∀ j p, ps[j]? = some p → data p = padded (b.drop (512 * j))
  nodup : ps.Nodup
  places : ∀ p ∈ ps, 5 ≤ p.toNat ∧ p.toNat < 16 ∧ used.bitmapTest p.toNat = true

section
variable {name : CString} {b : List UInt8} {s : BlockSector} {used : Bitmap} {d : InodeDisk} {data : BlockSector → Sector}
  {ps : List BlockSector}

theorem fileDisk_data (h : 5 ≤ s.toNat) : (fileDisk name used d data).vol.sectors s = data s := by
  have hne : ∀ k : BlockSector, k.toNat < 5 → s ≠ k := fun k hk hc => absurd (hc ▸ h) (by omega)
  change (if s = 0 then _ else _) = _
  rw [if_neg (hne 0 (by decide)),if_neg (hne 1 (by decide)),if_neg (hne 2 (by decide)),if_neg (hne 3 (by decide)),
    if_neg (hne 4 (by decide))]

theorem fileDisk_fmNode (h : FmNode (fileDisk name used d data).vol s) : s = 2 := by
  obtain ⟨h0,fm,hf,t,ht,rfl⟩ := h
  obtain rfl := Option.some.inj hf
  have hne := treeShape_ne_absent.mpr ht
  rw [ptr_oneBlock_ne hne h0,ptr_oneBlock (root_place 0),if_pos rfl]

theorem fileDisk_ok (hcnt : used.bitCnt = 16) (hused : ∀ k < 5, used.bitmapTest k = true) : (fileDisk name used d data).vol.Ok := by
  have htest : ∀ s : BlockSector, s.toNat < 5 → Used (fileDisk name used d data).vol s := fun s hs =>
    ⟨show s.toNat < used.bitCnt by omega,hused _ hs⟩
  have hbytes : used.bytes.length = 8 := by
    rw [Bitmap.length_bytes,hcnt]
    decide
  have hlen : (oneBlock 8 false 2).length = 8 := length_oneBlock (n := 8) (by decide)
  have hsized : Sized (fileDisk name used d data).vol (oneBlock 8 false 2) := by
    refine direct_oneBlock.sized (fun p hp => ?_) (by omega) (by rw [hlen]; decide)
    rw [List.mem_singleton.mp hp]
    decide
  refine ⟨show used.bitCnt < 4294967296 by omega,htest 0 (by decide),fun fm hf => ?_,fun fm hf => ?_⟩
  · obtain rfl := Option.some.inj hf
    refine ⟨rfl,?_,fun j π j' π' hπ hπ' he h0 => ?_,hsized,fun t ht h0 => ?_⟩
    · have hcount : (byteCnt used.bitCnt : ℤ) = 8 := by rw [hcnt]; decide
      exact hlen.trans hcount.symm
    · have h1 := ptr_oneBlock_ne (t := (j,π)) (treeShape_ne_absent.mpr hπ) h0
      have h2 := ptr_oneBlock_ne (t := (j',π')) (treeShape_ne_absent.mpr hπ') (fun hz => h0 (he.trans hz))
      exact Prod.mk.inj (h1.trans h2.symm)
    · rw [ptr_oneBlock_ne (treeShape_ne_absent.mpr ht) h0,ptr_oneBlock (root_place 0),if_pos rfl]
      exact htest 2 (by decide)
  · obtain rfl := Option.some.inj hf
    have hc := @content_oneBlock (fileDisk name used d data).vol false 2 used.bytes rfl (by omega)
    rwa [hbytes] at hc

theorem length_oneEntry : ((oneEntry name).flatMap DirEntry.encode).length = 72 := by
  rw [oneEntry,List.flatMap_cons,List.flatMap_cons,List.flatMap_nil,List.length_append,List.length_append,
    DirEntry.length_encode,DirEntry.length_encode]
  rfl

theorem slots_oneEntry : slots ((oneEntry name).flatMap DirEntry.encode) = oneEntry name := by
  have hlen := @length_oneEntry name
  rw [slots,hlen]
  rw [oneEntry,List.flatMap_cons,List.flatMap_cons,List.flatMap_nil,List.append_nil]
  generalize (⟨rootDirSector,strncpyName [],true⟩ : DirEntry) = d
  generalize (⟨4,strncpyName name,true⟩ : DirEntry) = e
  have h0 : DirEntry.decode (d.encode ++ e.encode) = d := by
    rw [← DirEntry.decode_take,List.take_left' d.length_encode,DirEntry.decode_encode]
  have h1 : DirEntry.decode ((d.encode ++ e.encode).drop 36) = e := by
    rw [List.drop_left' d.length_encode,DirEntry.decode_encode]
  change [DirEntry.decode ((d.encode ++ e.encode).drop 0),DirEntry.decode ((d.encode ++ e.encode).drop 36)] = [d,e]
  rw [List.drop_zero,h0,h1]

theorem fileDisk_entries : (fileDisk name used d data).entries rootDirSector = oneEntry name := by
  have hc := @content_oneBlock (fileDisk name used d data).vol true 3 ((oneEntry name).flatMap DirEntry.encode) rfl
    (by rw [length_oneEntry]; decide)
  rw [length_oneEntry] at hc
  have hb : (fileDisk name used d data).bytes rootDirSector = (oneEntry name).flatMap DirEntry.encode := hc
  rw [System.entries,hb,slots_oneEntry]

theorem LaidOut.sectors (h : LaidOut used d data ps b) :
    ∀ j p, ps[j]? = some p → (fileDisk name used d data).vol.sectors p = padded (b.drop (512 * j)) := fun j p hj =>
  (fileDisk_data (h.places p (List.mem_of_getElem? hj)).1).trans (h.holds j p hj)

theorem LaidOut.bytes (h : LaidOut used d data ps b) : (fileDisk name used d data).bytes 4 = b :=
  h.blocks.content h.sectors h.length h.enough

theorem LaidOut.dataSectors (h : LaidOut used d data ps b) (hn : bytesToSectors b.length = ps.length) :
    Fs.dataSectors (fileDisk name used d data).vol d (bytesToSectors b.length) = ps := by
  have hfew := h.blocks.few
  rw [hn,Fs.dataSectors]
  refine List.ext_getElem (by simp) fun j h1 h2 => ?_
  have hslot : dataSlot j = (j,[]) := if_pos (by omega)
  rw [List.getElem_map,List.getElem_range,hslot,h.blocks.ptr (root_place j),if_pos rfl,List.getD_eq_getElem _ 0 h2]

theorem entryOf_oneEntry (hn : Ordinary name) {other : CString} :
    entryOf (oneEntry name) other = if other = name then some 4 else none := by
  have hc : DirEntry.cname ⟨4,strncpyName name,true⟩ = name := cname_strncpyName hn.no_nul hn.length_le
  rw [entryOf,slotOf,scan,oneEntry,List.drop_one,List.tail_cons,List.findIdx_cons,named,hc]
  by_cases he : other = name
  · rw [if_pos he,decide_eq_true he]
    rfl
  · rw [if_neg he,decide_eq_false he]
    rfl

theorem LaidOut.fileOf (h : LaidOut used d data ps b) (hn : Ordinary name) {other : CString} :
    (fileDisk name used d data).fileOf other = if other = name then some b else none := by
  rw [System.fileOf,fileDisk_entries,entryOf_oneEntry hn]
  split
  · rw [Option.map_some,h.bytes]
  · rfl

/-- A file with direct blocks only owns its inode and those blocks. -/
theorem Direct.owned {S : System} {p : BlockSector} (h : Direct (S.record s) ps) (ho : S.Owned s p) : p = s ∨ p ∈ ps := by
  rcases ho with rfl | ⟨h0,t,ht,rfl⟩
  · exact .inl rfl
  · obtain ⟨j,-,hj⟩ := h.exists_block ht h0
    exact .inr (List.mem_of_getElem? hj)

theorem oneEntry_table (hn : Ordinary name) : DirTable (oneEntry name) ({1,4} \ {rootDirSector}) := by
  have hparent : DirEntry.cname ⟨rootDirSector,strncpyName [],true⟩ = [] := cname_strncpyName (List.not_mem_nil) (Nat.zero_le _)
  have hc : DirEntry.cname ⟨4,strncpyName name,true⟩ = name := cname_strncpyName hn.no_nul hn.length_le
  have hget : ∀ k e, 1 ≤ k → (oneEntry name)[k]? = some e → k = 1 ∧ e = ⟨4,strncpyName name,true⟩ := by
    intro k e h1 he
    obtain ⟨m,rfl⟩ := Nat.exists_eq_add_of_le' h1
    cases m with
    | zero => exact ⟨rfl,(Option.some.inj he).symm⟩
    | succ m => cases he
  refine ⟨⟨_,rfl,rfl,hparent⟩,fun i j d e hi hj _ _ he => ?_,fun k e h1 he _ => ?_,fun k e h1 he _ => ?_,
    fun j k d e hj hk hd he _ _ _ => ?_⟩
  · cases i with
    | zero =>
      cases j with
      | zero => rfl
      | succ j =>
        obtain ⟨-,rfl⟩ := hget _ e (Nat.le_add_left 1 j) hj
        obtain rfl := Option.some.inj hi
        rw [hparent,hc] at he
        exact absurd he.symm hn.ne_nil
    | succ i =>
      obtain ⟨hi1,rfl⟩ := hget _ d (Nat.le_add_left 1 i) hi
      cases j with
      | zero =>
        obtain rfl := Option.some.inj hj
        rw [hparent,hc] at he
        exact absurd he hn.ne_nil
      | succ j => exact hi1.trans (hget _ e (Nat.le_add_left 1 j) hj).1.symm
  · obtain ⟨-,rfl⟩ := hget k e h1 he
    rw [hc]
    exact hn.ne_nil
  · obtain ⟨-,rfl⟩ := hget k e h1 he
    exact ⟨.inr rfl,show ¬ (4 : BlockSector) = rootDirSector by decide⟩
  · exact (hget j d hj hd).1.trans (hget k e hk he).1.symm

theorem LaidOut.fileOk (h : LaidOut used d data ps b) : FileOk (fileDisk name used d data).vol d := by
  refine h.blocks.fileOk h.sectors h.length h.enough h.nodup fun p hp => ?_
  obtain ⟨h5,h16,htest⟩ := h.places p hp
  have hcnt := h.bitCnt
  refine ⟨?_,⟨show p.toNat < used.bitCnt by omega,htest⟩,fun hc => ?_⟩
  · rintro rfl
    exact absurd h5 (by decide)
  · rw [fileDisk_fmNode hc] at h5
    exact absurd h5 (by decide)

theorem LaidOut.intact (h : LaidOut used d data ps b) : Intact (fileDisk name used d data) {1,4} := by
  have hroot : (fileDisk name used d data).record 1 = oneBlock 72 true 3 := rfl
  have hfile : (fileDisk name used d data).record 4 = d := rfl
  have hcnt := h.bitCnt
  have hused : ∀ s : BlockSector, s.toNat < 5 → Used (fileDisk name used d data).vol s := fun s hs =>
    ⟨show s.toNat < used.bitCnt by omega,h.front _ hs⟩
  have hnode : ∀ s, s ≠ 2 → ¬ FmNode (fileDisk name used d data).vol s := fun s hs hc => hs (fileDisk_fmNode hc)
  -- what the file owns, and what the directory owns
  have hown : ∀ p, (fileDisk name used d data).Owned 4 p → 4 ≤ p.toNat := fun p ho => by
    cases (show Direct _ ps from hfile ▸ h.blocks).owned ho with
    | inl he => exact he ▸ le_of_eq rfl
    | inr hm => exact (Nat.le_succ 4).trans (h.places p hm).1
  have hdir : ∀ p, (fileDisk name used d data).Owned 1 p → p.toNat < 4 := fun p ho => by
    cases (show Direct _ [3] from hroot ▸ direct_oneBlock).owned ho with
    | inl he => exact he ▸ by decide
    | inr hm => exact List.mem_singleton.mp hm ▸ by decide
  refine ⟨fileDisk_ok h.bitCnt h.front,⟨_,rfl,rfl⟩,fun s hs => ?_,fun s hs => ?_,fun s hs t ht => ?_,fun s hs s' hs' p ho ho' => ?_,
    fun i hi => absurd hi List.not_mem_nil,List.nodup_nil,List.nodup_singleton 0,fun i hi => ?_⟩
  · rcases hs with rfl | rfl
    · exact ⟨by decide,hused 1 (by decide),hnode 1 (by decide)⟩
    · exact ⟨by decide,hused 4 (by decide),hnode 4 (by decide)⟩
  · rcases hs with rfl | rfl
    · have hok := @fileOk_oneBlock (fileDisk name used d data).vol true 3 ((oneEntry name).flatMap DirEntry.encode) rfl
        (by rw [length_oneEntry]; decide) (by decide) (hused 3 (by decide)) (hnode 3 (by decide))
      rw [length_oneEntry] at hok
      exact hok
    · exact h.fileOk
  · rcases hs with rfl | rfl
    · rw [hroot,ptr_oneBlock ht]
      split <;> decide
    · rw [hfile]
      by_cases h0 : ptr (fileDisk name used d data).vol d t = 0
      · rw [h0]
        decide
      · obtain ⟨j,-,hj⟩ := h.blocks.exists_block ht h0
        have hplace := (h.places _ (List.mem_of_getElem? hj)).1
        exact fun hc => absurd (hc ▸ hplace) (by decide)
  · rcases hs with rfl | rfl
    · rcases hs' with rfl | rfl
      · rfl
      · exact absurd (hown p ho') (Nat.not_le.mpr (hdir p ho))
    · rcases hs' with rfl | rfl
      · exact absurd (hown p ho) (Nat.not_le.mpr (hdir p ho'))
      · rfl
  · obtain rfl := List.mem_singleton.mp hi
    exact Nat.zero_lt_one

theorem LaidOut.session (h : LaidOut used d data ps b) (hn : Ordinary name) : Session (fileDisk name used d data) {1,4} none := by
  refine ⟨⟨h.intact,.inl rfl,?_,fun other s he => ?_,fun s hs hne => ?_⟩,fun i hi => absurd hi List.not_mem_nil,
    rfl,rfl,fun _ i hi => absurd hi List.not_mem_nil,fun d hd => ?_,fun d hd => ?_,List.nodup_nil,fun e he => absurd he List.not_mem_nil⟩
  · rw [fileDisk_entries]
    exact oneEntry_table hn
  · rw [fileDisk_entries,entryOf_oneEntry hn] at he
    by_cases hc : other = name
    · exact hc ▸ hn
    · rw [if_neg hc] at he
      cases he
  · rcases hs with rfl | rfl
    · exact absurd rfl hne
    · exact h.isDir
  · cases hd
  · cases hd

end

/-! ### A file of at most a sector -/

/-- Sixteen sectors, of which the first six are in use. -/
def sixUsed : Bitmap := (List.range 6).foldl Bitmap.bitmapMark (Bitmap.bitmapCreate 16)

/-- The disk whose file has the fifth sector. -/
def oneFileDisk (name : CString) (b : List UInt8) : System :=
  fileDisk name sixUsed (oneBlock b.length false 5) fun s => if s = 5 then padded b else Sector.zeros

section
variable {name : CString} {b : List UInt8} {s : BlockSector}

theorem sixUsed_test : ∀ k < 6, sixUsed.bitmapTest k = true := by decide

theorem sixUsed_used (h : s.toNat < 6) : Used (oneFileDisk name b).vol s :=
  ⟨Nat.lt_trans h (show 6 < sixUsed.bitCnt by decide),sixUsed_test _ h⟩

theorem oneFileDisk_laidOut (hb : b.length ≤ 512) :
    LaidOut sixUsed (oneBlock b.length false 5) (fun s => if s = 5 then padded b else Sector.zeros) [5] b where
  bitCnt := rfl
  front k hk := sixUsed_test k (Nat.lt_succ_of_lt hk)
  blocks := direct_oneBlock
  isDir := isDir_oneBlock
  length := length_oneBlock hb
  enough := hb
  holds j p hj := by
    cases j with
    | zero =>
      obtain rfl := Option.some.inj hj
      exact if_pos rfl
    | succ j => cases hj
  nodup := List.nodup_singleton 5
  places p hp := by
    obtain rfl := List.mem_singleton.mp hp
    exact ⟨by decide,by decide,by decide⟩

theorem oneFileDisk_ok : (oneFileDisk name b).vol.Ok := fileDisk_ok rfl fun k hk => sixUsed_test k (Nat.lt_succ_of_lt hk)

theorem oneFileDisk_fileOf (hn : Ordinary name) (hb : b.length ≤ 512) {other : CString} :
    (oneFileDisk name b).fileOf other = if other = name then some b else none := (oneFileDisk_laidOut hb).fileOf hn

theorem oneFileDisk_session (hn : Ordinary name) (hb : b.length ≤ 512) : Session (oneFileDisk name b) {1,4} none :=
  (oneFileDisk_laidOut hb).session hn

end

theorem ordinary_a : Ordinary (cstr "a") := ⟨by decide,by decide,by decide,by decide,by decide,by decide⟩

end ShellOS.Fs
