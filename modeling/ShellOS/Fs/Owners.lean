import ShellOS.Fs.InodeRuns

/-! No sector belongs to two inodes, in any run; and an inode behaves as an array of bytes. -/
namespace ShellOS.Fs
open CLib BlockTree

/-- The record of the inode at `s`, in memory while it is open. The one of the free map is always open. -/
def System.openRecord (S : System) (s : BlockSector) : InodeDisk :=
  match Keyed.lookup Inode.sector s S.inodes with
  | some inode => inode.data
  | none => S.vol.sectors s

/-- The bytes of the inode at `s`. -/
def System.inodeBytes (S : System) (s : BlockSector) : List UInt8 := content S.vol (S.openRecord s)

/-- What makes the inode at `s` an owner of a sector: it is the inode's own, or the inode maps it for
its length. -/
inductive OwnerOf (S : System) (s : BlockSector) : Option Slot → BlockSector → Prop
  | inode : OwnerOf S s none s
  | block (t : Slot) (ht : t ∈ inodeWalk (bytesToSectors (S.openRecord s).length)) :
      OwnerOf S s (some t) (ptr S.vol (S.openRecord s) t)

section
variable {S S' : System} {A : Arrays} {live : Set BlockSector} {s s' p : BlockSector} {o o' : Option Slot} {i fm : Inode}
  {v w : Volume}

theorem OwnerOf.elim (h : OwnerOf S s o p) : (o = none ∧ p = s) ∨
    ∃ t ∈ inodeWalk (bytesToSectors (S.openRecord s).length), o = some t ∧ p = ptr S.vol (S.openRecord s) t := by
  cases h with
  | inode => exact .inl ⟨rfl,rfl⟩
  | block t ht => exact .inr ⟨t,ht,rfl,rfl⟩

theorem Intact.openRecord_eq (h : Intact S live) (hs : s ∈ live) : S.openRecord s = S.record s := by
  have hfm : Keyed.lookup Inode.sector s S.vol.freeMapFile.toList = none :=
    Keyed.lookup_eq_none.mpr fun i hi => h.fm_sector_ne hs hi
  have hl : Keyed.lookup Inode.sector s S.inodes = Keyed.lookup Inode.sector s S.openInodes := by
    unfold Keyed.lookup System.inodes at *
    rw [List.find?_append,hfm,Option.or_none]
  exact congrArg (fun found : Option Inode => match found with | some inode => inode.data | none => S.vol.sectors s) hl

theorem Intact.openRecord_fm (h : Intact S live) (hf : S.vol.freeMapFile = some fm) : S.openRecord freeMapSector = fm.data := by
  obtain ⟨fm',hf',h0⟩ := h.fm
  obtain rfl : fm' = fm := Option.some.inj (hf'.symm.trans hf)
  have hopen : Keyed.lookup Inode.sector freeMapSector S.openInodes = none :=
    Keyed.lookup_eq_none.mpr fun i hi he => (h.alloc _ (h.inode i hi).1).1 he
  have hl : Keyed.lookup Inode.sector freeMapSector S.inodes = some fm' := by
    unfold Keyed.lookup System.inodes at *
    rw [List.find?_append,hopen,Option.none_or,hf]
    exact List.find?_cons_of_pos (decide_eq_true h0)
  rw [System.openRecord,hl]

theorem Intact.inodeBytes_eq (h : Intact S live) (hs : s ∈ live) : S.inodeBytes s = S.bytes s := by
  rw [System.inodeBytes,h.openRecord_eq hs,System.bytes]

/-- The file of the free map holds the free map. -/
theorem Intact.inodeBytes_fm (h : Intact S live) : S.inodeBytes freeMapSector = S.vol.freeMap.bytes := by
  obtain ⟨fm,hf,-⟩ := h.fm
  rw [System.inodeBytes,h.openRecord_fm hf]
  exact h.ok.synced fm hf

/-- The owners of a sector among the inodes at `live`. -/
theorem Intact.owned_of (h : Intact S live) (hs : s ∈ live) (ho : OwnerOf S s o p) : S.Owned s p := by
  cases ho with
  | inode => exact .inl rfl
  | block t ht =>
    rw [h.openRecord_eq hs] at ht ⊢
    exact .inr ⟨(h.file s hs).sized.mapped t ht,t,inodeWalk_place ht,rfl⟩

/-- A sector the free map owns is sector 0, or a sector of its file. -/
theorem Intact.owned_fm (h : Intact S live) (ho : OwnerOf S freeMapSector o p) :
    (o = none ∧ p = 0) ∨ (FmNode S.vol p ∧ p ≠ 0) := by
  obtain ⟨fm,hf,-⟩ := h.fm
  have hr := h.ok.ready fm hf
  cases ho with
  | inode => exact .inl ⟨rfl,rfl⟩
  | block t ht =>
    rw [h.openRecord_fm hf] at ht ⊢
    have h0 := hr.sized.mapped t ht
    exact .inr ⟨⟨h0,fm,hf,t,treeShape_ne_absent.mp (inodeWalk_place ht),rfl⟩,h0⟩

/-- The places an inode maps lead to different sectors, and none of them back to the inode. -/
theorem Intact.places (h : Intact S live) (hs : s = freeMapSector ∨ s ∈ live) :
    (∀ t ∈ inodeWalk (bytesToSectors (S.openRecord s).length), ptr S.vol (S.openRecord s) t ≠ s) ∧
      ∀ t ∈ inodeWalk (bytesToSectors (S.openRecord s).length), ∀ t' ∈ inodeWalk (bytesToSectors (S.openRecord s).length),
        ptr S.vol (S.openRecord s) t = ptr S.vol (S.openRecord s) t' → t = t' := by
  rcases hs with rfl | hs
  · obtain ⟨fm,hf,-⟩ := h.fm
    have hr := h.ok.ready fm hf
    rw [h.openRecord_fm hf]
    refine ⟨fun t ht => hr.sized.mapped t ht,fun t ht t' ht' he => ?_⟩
    obtain ⟨h1,h2⟩ := hr.distinct t.1 t.2 t'.1 t'.2 (treeShape_ne_absent.mp (inodeWalk_place ht))
      (treeShape_ne_absent.mp (inodeWalk_place ht')) he (hr.sized.mapped t ht)
    exact Prod.ext h1 h2
  · have hfile := h.file s hs
    rw [h.openRecord_eq hs]
    exact ⟨fun t ht => h.self s hs t (inodeWalk_place ht),fun t ht t' ht' he =>
      hfile.owns.inj t t' (inodeWalk_place ht) (inodeWalk_place ht') he (hfile.sized.mapped t ht)⟩

/-- One inode does not own a sector twice. -/
theorem Intact.owner_place (h : Intact S live) (hs : s = freeMapSector ∨ s ∈ live) (ho : OwnerOf S s o p)
    (ho' : OwnerOf S s o' p) : o = o' := by
  obtain ⟨hself,hinj⟩ := h.places hs
  rcases ho.elim with ⟨rfl,rfl⟩ | ⟨t,ht,rfl,rfl⟩
  · rcases ho'.elim with ⟨rfl,-⟩ | ⟨t,ht,-,he⟩
    · rfl
    · exact absurd he.symm (hself t ht)
  · rcases ho'.elim with ⟨-,he⟩ | ⟨t',ht',rfl,he⟩
    · exact absurd he (hself t ht)
    · rw [hinj t ht t' ht' he]

/-- No two inodes own the same sector. -/
theorem Intact.owner_inode (h : Intact S live) (hs : s = freeMapSector ∨ s ∈ live) (hs' : s' = freeMapSector ∨ s' ∈ live)
    (ho : OwnerOf S s o p) (ho' : OwnerOf S s' o' p) : s = s' := by
  have hcross : ∀ {s : BlockSector} {o o' : Option Slot}, s ∈ live → OwnerOf S s o p → OwnerOf S freeMapSector o' p → False := by
    intro s o o' hs ho ho'
    obtain ⟨h0,-,hn⟩ := h.owned hs (h.owned_of hs ho)
    cases h.owned_fm ho' with
    | inl he => exact h0 he.2
    | inr hn' => exact hn hn'.1
  rcases hs with rfl | hs
  · rcases hs' with rfl | hs'
    · rfl
    · exact (hcross hs' ho' ho).elim
  · rcases hs' with rfl | hs'
    · exact (hcross hs ho ho').elim
    · exact h.apart s hs s' hs' p (h.owned_of hs ho) (h.owned_of hs' ho')

theorem Intact.owner_used (h : Intact S live) (hs : s = freeMapSector ∨ s ∈ live) (ho : OwnerOf S s o p) : Used S.vol p := by
  rcases hs with rfl | hs
  · cases h.owned_fm ho with
    | inl he => exact he.2 ▸ h.ok.zero_used
    | inr hn => exact hn.1.used h.ok.ready
  · exact (h.owned hs (h.owned_of hs ho)).2.1

/-! ### The results -/

/-- In every run a sector has at most one owner, owned sectors are marked in the free map, and a write to
one inode changes no byte of another that was made by `inode_create` or of the root directory. The
file of the free map follows the free map. -/
theorem sectors_not_shared (h : InodeRun S A) :
    (∀ s s' o o' p, s = freeMapSector ∨ s ∈ A.inodes → s' = freeMapSector ∨ s' ∈ A.inodes →
      OwnerOf S s o p → OwnerOf S s' o' p → s = s' ∧ o = o') ∧
    (∀ s o p, s = freeMapSector ∨ s ∈ A.inodes → OwnerOf S s o p → Used S.vol p) ∧
    (∀ i ∈ S.openInodes, ∀ (buffer : List UInt8) (size offset n : ℤ) (S' : System), 0 ≤ offset → 1 ≤ size → IsInt offset →
      IsInt size → size ≤ buffer.length → S.writeAt i.addr buffer size offset = some (n,S') →
      ∀ s ∈ A.inodes, s ≠ i.sector → S'.inodeBytes s = S.inodeBytes s) ∧
    S.inodeBytes freeMapSector = S.vol.freeMap.bytes := by
  have hint := h.holds.intact
  refine ⟨fun s s' o o' p hs hs' ho ho' => ?_,fun s o p hs ho => hint.owner_used hs ho,
    fun i hi buffer size offset n S' h0 h1 ho hsz hb hw s hs hne => ?_,hint.inodeBytes_fm⟩
  · obtain rfl := hint.owner_inode hs hs' ho ho'
    exact ⟨rfl,hint.owner_place hs ho ho'⟩
  · obtain ⟨ok,inode,w,hw',-,hint',-,-,hf⟩ := hint.write_frame hi buffer h0 h1 ho.2 hsz.2 hb
    rw [hw] at hw'
    obtain ⟨-,rfl⟩ := Prod.mk.inj (Option.some.inj hw')
    rw [hint'.inodeBytes_eq hs,hint.inodeBytes_eq hs,hf.bytes s ⟨hs,hne⟩]

/-- In every run a read from an open inode gives the bytes of its array. -/
theorem inode_reads_array (h : InodeRun S A) (hi : i ∈ S.openInodes) {a : List UInt8} (ha : A i.sector = some a)
    {size offset : ℤ} (h0 : 0 ≤ offset) (ho : IsInt offset) : ∃ bytes, S.readAt i.addr size offset = some bytes ∧
      (bytes.length : ℤ) = max 0 (min size (a.length - offset)) ∧
      bytes = (a.drop offset.toNat).take size.toNat ∧ i.data.length = a.length := by
  have hh := h.holds
  have hb := hh.bytes _ a ha
  have hlen := hh.intact.length_bytes hi
  have hnn := (hh.intact.openOk hi).file.sized.nonneg
  refine ⟨_,by rw [hh.intact.readAt hi h0 ho.2,hb],?_,rfl,?_⟩
  · rw [List.length_take,List.length_drop]
    omega
  · rw [← hb,hlen]
    omega

end

/-! ### Runs with one file -/

section
variable {v w : Volume} {s : BlockSector} {X : BlockSector → Prop}

/-- A sector was taken and none given back. -/
theorem Fresh.count_lt (h : Fresh v w s) (hu : ∀ p, Used v p → Used w p) (k : Keeps v w X) :
    numFreeSectors w < numFreeSectors v := by
  rw [numFreeSectors,numFreeSectors,Bitmap.count_clear,Bitmap.count_clear]
  refine Finset.card_lt_card (Finset.ssubset_iff_subset_ne.mpr ⟨fun i hi => ?_,fun he => ?_⟩)
  · rw [Bitmap.mem_clearBits] at hi ⊢
    have hb := k.bitCnt
    have hlt := k.ok.bitCnt_lt
    have hn : (UInt32.ofNat i).toNat = i := by
      rw [UInt32.toNat_ofNat']
      omega
    refine ⟨hb ▸ hi.1,Bool.eq_false_iff.mpr fun ht => ?_⟩
    have hused := hu (UInt32.ofNat i) ⟨by rw [hn]; exact hb ▸ hi.1,by rw [hn]; exact ht⟩
    exact hused.not_free ⟨by rw [hn]; exact hi.1,by rw [hn]; exact hi.2⟩
  · have hmem := (Bitmap.mem_clearBits _ _).mpr h.1
    rw [← he,Bitmap.mem_clearBits] at hmem
    exact h.2.not_free hmem

/-- A run in which an empty file was made and opened. -/
theorem run_empty_file : ∃ S A i, InodeRun S A ∧ i ∈ S.openInodes ∧ A i.sector = some [] ∧ i.data.length = 0 ∧
    ptr S.vol i.data (0,[]) = 0 ∧ 1 ≤ numFreeSectors S.vol := by
  have hd1 : (createDemand (byteCnt (200 - 1))).length = 1 := by decide +kernel
  have hd2 : (createDemand 36000).length = 71 := by decide +kernel
  obtain ⟨S,hF,hcount⟩ := @formatted_of_room 200 (fun _ => Sector.zeros) (by decide) (by decide) (by decide)
    (by rw [hd1,hd2]; decide)
  rw [hd1,hd2] at hcount
  have hh := hF.holds
  obtain ⟨v₀,a₀,hS,-⟩ := hF.atRest
  have hclosed : S.openInodes = [] := by rw [hS]; rfl
  rcases freeMapAllocate_count hh.intact.ok with ⟨-,h0⟩ | ⟨p,v,ha,-,-,hc⟩
  · omega
  have hall := hh.intact.allocate ha
  obtain ⟨ok,d,w,hcr,hcs,-,-,-⟩ := hh.intact.create_frame hall.spare false (show (0 : ℤ) ≤ 0 by decide) (by decide)
  have hdz : createDemand 0 = [] := by decide +kernel
  have hok := hcs.ok_eq
  rw [hdz,decide_eq_true (by exact Nat.zero_le _),decide_eq_true (by decide)] at hok
  have hok' : ok = true := hok
  subst hok'
  have htakes := hcs.takes hall.ne_zero
  rw [hdz,decide_eq_true (by exact Nat.zero_le _)] at htakes
  have hnum : numFreeSectors w = numFreeSectors v := htakes.count
  have hrun := InodeRun.step (.start hF) (.create ha ⟨by decide,by decide⟩ hcr)
  rw [if_pos rfl] at hrun
  obtain ⟨T,hT⟩ : ∃ T, T = { S with vol := w } := ⟨_,rfl⟩
  rw [← hT] at hrun
  have hvol : T.vol = w := by rw [hT]
  have hmem : p ∈ Arrays.inodes (Arrays.make p 0 fun _ => none) := by
    rw [Arrays.inodes_make]
    exact Set.mem_insert _ _
  have hnone : ∀ i ∈ T.openInodes, i.sector ≠ p := by
    rw [show T.openInodes = S.openInodes by rw [hT],hclosed]
    exact fun i hi => absurd hi List.not_mem_nil
  have hopen := (hrun.holds.intact.inodeOpen_new hmem hnone).1
  refine ⟨T.opened p,_,⟨T.nextAddr,p,1,false,0,T.vol.sectors p⟩,hrun.step (.openNew hmem hnone hopen),List.mem_cons_self,?_,?_,?_,?_⟩
  · rw [Arrays.make,Function.update_self]
    rfl
  · dsimp only
    rw [hvol,hcs.record rfl,hcs.info.length_eq,InodeDisk.length_create _ (by decide) (by decide)]
  · dsimp only
    rw [show (T.opened p).vol = w from hvol,hvol,hcs.record rfl]
    by_contra hp
    have hfresh := hcs.fresh rfl hall.spare.marked (0,[]) (root_place 0) hp
    have := hfresh.count_lt hcs.used hcs.keeps
    omega
  · rw [show (T.opened p).vol = w from hvol]
    omega

/-- Maps with the same bytes have the same bits. -/
theorem Bitmap.test_of_bytes {b c : Bitmap} (hn : b.bitCnt = c.bitCnt) (hb : b.bytes = c.bytes) {k : ℕ} (hk : k < b.bitCnt) :
    b.bitmapTest k = c.bitmapTest k := by
  rw [← Bitmap.test_ofBytes b hk,hn,hb,Bitmap.test_ofBytes c (hn ▸ hk)]

/-- A run in which the file then holds one byte. -/
theorem run_written : ∃ S A i S' n, InodeRun S A ∧ i ∈ S.openInodes ∧ A i.sector = some [] ∧
    S.writeAt i.addr [7] 1 0 = some (n,S') ∧ n = 1 ∧ InodeRun S' (A.store i.sector [7] 0) ∧
    numFreeSectors S'.vol < numFreeSectors S.vol ∧ S'.vol.freeMap.bitCnt = S.vol.freeMap.bitCnt ∧
    (∃ j ∈ S'.openInodes, j.sector = i.sector) := by
  obtain ⟨S,A,i,hrun,hi,hA,hlen,hptr,hfree⟩ := run_empty_file
  obtain ⟨ok,inode,w,hw,hws,-,hmem,-,-⟩ := hrun.holds.intact.write_frame hi [7] (show (0 : ℤ) ≤ 0 by decide)
    (show (1 : ℤ) ≤ 1 by decide) (by decide) (by decide) (by decide)
  have hdem : (writeDemand S.vol i.data 1 0).length = 1 := by
    have hwalk : inodeWalk (bytesToSectors (0 + 1)) = [(0,[])] := by decide +kernel
    rw [writeDemand,if_pos (by rw [hlen]; decide),hwalk,demand]
    simp [hptr]
  have hok := hws.ok_eq
  rw [hdem,decide_eq_true hfree,decide_eq_true (by decide)] at hok
  have hok' : ok = true := hok
  subst hok'
  have htakes := hws.takes
  rw [hdem,decide_eq_true hfree] at htakes
  have hcount := htakes.count
  rw [hdem] at hcount
  have hstep := InodeStep.write (A := A) hi (by decide) (by decide) ⟨by decide,by decide⟩ ⟨by decide,by decide⟩ (by decide) hw
  rw [if_pos rfl,if_pos rfl] at hstep
  refine ⟨S,A,i,_,1,hrun,hi,hA,hw,rfl,hrun.step hstep,?_,hws.keeps.bitCnt,inode,hmem,by rw [hws.inode_eq]⟩
  change numFreeSectors w < numFreeSectors S.vol
  omega

theorem sectors_not_shared_one_file : ∃ S A s, InodeRun S A ∧ A s = some [7] ∧ Used S.vol s ∧
    ∀ o o' p, OwnerOf S s o p → OwnerOf S rootDirSector o' p → s = rootDirSector ∧ o = o' := by
  obtain ⟨S,A,i,S',n,-,-,hA,-,-,hrun,-⟩ := run_written
  obtain ⟨hone,hused,-,-⟩ := sectors_not_shared hrun
  have ha : A.store i.sector [7] 0 i.sector = some [7] := by
    rw [Arrays.store,Function.update_self,hA]
    rfl
  have hmem := Arrays.mem_inodes ha
  exact ⟨S',_,i.sector,hrun,ha,hused _ none _ (.inr hmem) .inode,fun o o' p ho ho' =>
    hone _ _ o o' p (.inr hmem) (.inr (Set.mem_insert _ _)) ho ho'⟩

/-- The first byte written into a new file takes a sector, and with it bytes of the free map's file change. -/
theorem write_changes_free_map : ∃ S A i S', InodeRun S A ∧ i ∈ S.openInodes ∧ S.writeAt i.addr [7] 1 0 = some (1,S') ∧
    i.sector ≠ freeMapSector ∧ S'.inodeBytes freeMapSector ≠ S.inodeBytes freeMapSector := by
  obtain ⟨S,A,i,S',n,hrun,hi,-,hw,rfl,hrun',hlt,hcnt,-⟩ := run_written
  refine ⟨S,A,i,S',hrun,hi,hw,(hrun.holds.intact.alloc _ (hrun.holds.intact.inode i hi).1).1,fun he => ?_⟩
  rw [hrun.holds.intact.inodeBytes_fm,hrun'.holds.intact.inodeBytes_fm] at he
  have hclear : S'.vol.freeMap.clearBits = S.vol.freeMap.clearBits := by
    ext k
    rw [Bitmap.mem_clearBits,Bitmap.mem_clearBits,hcnt]
    refine and_congr_right fun hk => ?_
    rw [Bitmap.test_of_bytes hcnt he (hcnt.symm ▸ hk)]
  rw [numFreeSectors,numFreeSectors,Bitmap.count_clear,Bitmap.count_clear,hclear] at hlt
  exact absurd hlt (lt_irrefl _)

theorem inode_reads_array_one_byte : ∃ S A i, InodeRun S A ∧ i ∈ S.openInodes ∧ A i.sector = some [7] ∧
    S.readAt i.addr 5 0 = some [7] := by
  obtain ⟨S,A,i,S',n,-,-,hA,-,-,hrun,-,-,j,hj,hjs⟩ := run_written
  have ha : A.store i.sector [7] 0 j.sector = some [7] := by
    rw [hjs,Arrays.store,Function.update_self,hA]
    rfl
  obtain ⟨bytes,hr,-,hb,-⟩ := @inode_reads_array S' _ j hrun hj [7] ha 5 0 (by decide) ⟨by decide,by decide⟩
  exact ⟨S',_,j,hrun,hj,ha,hr.trans (congrArg some hb)⟩

end
end ShellOS.Fs
