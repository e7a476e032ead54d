import ShellOS.Fs.Operations
import ShellOS.Fs.Slots

/-! The 32-bit arithmetic of `inode_write_at`, and the length it leaves. -/
namespace ShellOS.Fs
open BlockTree

/-- Nothing in `inode_write_at` wraps, neither `offset + size` nor the rounding of
`bytes_to_sectors` where the file has to be extended, and a write that returns `size` leaves the
length that its range asks for. -/
structure LengthSound (v : Volume) (inode : Inode) (buffer : List UInt8) (size offset : ℤ) : Prop where
  sum : wrap32 (offset + size) = offset + size
  rounding : byteToSector v inode.data (wrap32 (wrap32 (offset + size) - 1)) = -1 →
    wrap32 (offset + size + 512) = offset + size + 512
  length : (inodeWriteAt inode buffer size offset v).1 = size →
    (inodeWriteAt inode buffer size offset v).2.1.data.length = max inode.data.length (offset + size)

/-- There is room for the file to grow up to `offset + size` bytes. -/
def HasRoom (v : Volume) (inode : Inode) (size offset : ℤ) : Prop :=
  (writeDemand v inode.data size offset).length ≤ numFreeSectors v ∧ offset + size ≤ 8517120

instance (v : Volume) (inode : Inode) (size offset : ℤ) : Decidable (HasRoom v inode size offset) :=
  inferInstanceAs (Decidable (_ ∧ _))

section
variable {v : Volume} {inode : Inode} {size offset : ℤ}

/-- The test for the end of the file. -/
theorem OpenOk.eof_iff (h : OpenOk v inode) (h0 : 0 ≤ offset) (h1 : 0 ≤ size) (hsum : offset + size < 2147483648) :
    byteToSector v inode.data (wrap32 (wrap32 (offset + size) - 1)) = -1 ↔
      offset + size = 0 ∨ inode.data.length < offset + size := by
  have hw : wrap32 (wrap32 (offset + size) - 1) = offset + size - 1 := by
    rw [wrap32_of_mem (x := offset + size) (by omega) hsum,wrap32_of_mem (by omega) (by omega)]
  rw [hw]
  constructor
  · intro he
    by_contra hc
    obtain ⟨-,-,hs,h2⟩ := h.file.sized.sector (offset + size - 1) (by omega) (by omega)
    exact (h.file.owns.used _ (dataSlot_place _) h2).ne_minus_one h.ok.bitCnt_lt (hs.symm.trans he)
  · exact fun hc => byteToSector_eof v (by omega)

/-- The length after a write of at least one byte. -/
theorem OpenOk.write_length (h : OpenOk v inode) (buffer : List UInt8) (h0 : 0 ≤ offset) (h1 : 1 ≤ size)
    (ho : offset < 2147483648) (hs : size < 2147483648) (hb : size ≤ buffer.length)
    (hn : (inodeWriteAt inode buffer size offset v).1 = size) :
    (inodeWriteAt inode buffer size offset v).2.1.data.length = max inode.data.length (offset + size) := by
  obtain ⟨ok,hret,hw⟩ := h.write buffer h0 h1 ho hs hb
  have hold := h.file.sized.nonneg
  generalize inodeWriteAt inode buffer size offset v = r at hn hret hw ⊢
  obtain ⟨n,inode',w⟩ := r
  dsimp only at hn hret hw ⊢
  have hok : ok = true := by
    cases ok with
    | true => rfl
    | false =>
      rw [if_neg Bool.false_ne_true] at hret
      omega
  have hc := congrArg List.length hw.content_eq
  rw [if_pos hok,length_overwrite,length_content,length_content,List.length_take] at hc
  have hnew := hw.file.sized.nonneg
  generalize inode'.data.length = new at hc hnew ⊢
  generalize inode.data.length = old at hc hold ⊢
  omega

/-- A write of no bytes is `inode_reserve` where it comes to the end of the file, and nothing else. -/
theorem inodeWriteAt_empty (hdeny : inode.denyWriteCnt = 0) (buffer : List UInt8) :
    (inodeWriteAt inode buffer 0 offset v).1 = 0 ∧
    (inodeWriteAt inode buffer 0 offset v).2.1 =
      if byteToSector v inode.data (wrap32 (wrap32 (offset + 0) - 1)) = -1 then
        (inodeExtend (freeMapAllocate 1) inode (wrap32 (offset + 0)) v).2.1 else inode := by
  unfold inodeWriteAt inodeWriteAtWith
  rw [if_neg (not_not_intro hdeny)]
  by_cases he : byteToSector v inode.data (wrap32 (wrap32 (offset + 0) - 1)) = -1
  · rw [if_pos he,if_pos he]
    generalize inodeExtend (freeMapAllocate 1) inode (wrap32 (offset + 0)) v = r
    obtain ⟨ok,i,w⟩ := r
    cases ok with
    | false => exact ⟨rfl,rfl⟩
    | true => exact ⟨rfl,rfl⟩
  · rw [if_neg he,if_neg he]
    exact ⟨rfl,rfl⟩

theorem OpenOk.extend_length (h : OpenOk v inode) {n : ℤ} (h0 : 0 ≤ n) (hmax : n < 2147483648) :
    (inodeExtend (freeMapAllocate 1) inode n v).2.1.data.length =
      if (demand inodeShape (inodeWalk (bytesToSectors n)) (ptr v inode.data)).length ≤ numFreeSectors v ∧ n ≤ 8517120
        then n else inode.data.length := by
  obtain ⟨okT,hres,hok,hinfo⟩ := inodeReserve_spec h0 h.ok h.file.owns
  have htakes := hres.takes.ok_eq
  rw [htakes] at hok
  simp only [bytesToSectors_le_iff h0 hmax] at hok
  unfold inodeExtend
  generalize inodeReserve (freeMapAllocate 1) inode.data n v = r at hok hinfo ⊢
  obtain ⟨ok,d,w⟩ := r
  dsimp only at hok hinfo ⊢
  cases ok with
  | false =>
    have hno := hok.symm
    rw [Bool.and_eq_false_iff,decide_eq_false_iff_not,decide_eq_false_iff_not] at hno
    rw [if_neg fun hc => hno.elim (fun h => h hc.1) (fun h => h hc.2)]
    exact hinfo.length_eq
  | true =>
    have hyes := hok.symm
    rw [Bool.and_eq_true,decide_eq_true_eq,decide_eq_true_eq] at hyes
    rw [if_pos hyes]
    exact InodeDisk.length_setLength d (by omega) hmax

/-- The length after a write of no bytes. -/
theorem OpenOk.empty_length (h : OpenOk v inode) (buffer : List UInt8) (h0 : 0 ≤ offset) (ho : offset < 2147483648) :
    (inodeWriteAt inode buffer 0 offset v).2.1.data.length = if offset = 0 then 0 else
      if inode.data.length < offset ∧ HasRoom v inode 0 offset then offset else inode.data.length := by
  have heof := h.eof_iff h0 (le_refl (0 : ℤ)) (by omega)
  have hold := h.file.sized.nonneg
  have hw : wrap32 (offset + 0) = offset := by rw [add_zero,wrap32_of_mem (by omega) ho]
  have hext := h.extend_length h0 ho
  rw [(inodeWriteAt_empty h.deny buffer).2]
  simp only [heof]
  rw [hw]
  generalize inodeExtend (freeMapAllocate 1) inode offset v = r at hext ⊢
  by_cases hz : offset = 0
  · have hnone : inodeWalk (bytesToSectors 0) = [] := by
      have hn : bytesToSectors 0 = 0 := by decide +kernel
      rw [hn]
      rfl
    subst hz
    rw [if_pos (.inl (add_zero 0)),if_pos rfl,hext,hnone]
    exact if_pos ⟨Nat.zero_le _,by decide⟩
  · rw [if_neg hz]
    by_cases hlt : inode.data.length < offset
    · rw [if_pos (.inr (by rwa [add_zero])),hext]
      have hD : writeDemand v inode.data 0 offset = demand inodeShape (inodeWalk (bytesToSectors offset)) (ptr v inode.data) := by
        rw [writeDemand,add_zero,if_pos ⟨hlt,ho⟩]
      simp only [HasRoom,hD,add_zero,hlt,true_and]
    · rw [if_neg (fun hc => hc.elim (fun hc => hz (by rwa [add_zero] at hc)) fun hc => hlt (by rwa [add_zero] at hc)),
        if_neg fun hc => hlt hc.1]

/-- The writes whose arithmetic is sound. -/
structure SafeWrite (v : Volume) (inode : Inode) (size offset : ℤ) : Prop where
  sum : offset + size < 2147483648
  rounding : inode.data.length < offset + size → offset + size < 2147483136
  start : size = 0 → offset = 0 → inode.data.length = 0
  room : size = 0 → inode.data.length < offset → HasRoom v inode size offset

theorem OpenOk.lengthSound_iff (h : OpenOk v inode) (buffer : List UInt8) (h0 : 0 ≤ offset) (h1 : 0 ≤ size)
    (ho : offset < 2147483648) (hs : size < 2147483648) (hb : size ≤ buffer.length) :
    LengthSound v inode buffer size offset ↔ SafeWrite v inode size offset := by
  have hold := h.file.sized.nonneg
  have hsum : wrap32 (offset + size) = offset + size ↔ offset + size < 2147483648 :=
    ⟨fun he => he ▸ (wrap32_range _).2,fun hlt => wrap32_of_mem (by omega) hlt⟩
  have hround : wrap32 (offset + size + 512) = offset + size + 512 ↔ offset + size < 2147483136 :=
    ⟨fun he => by have := (wrap32_range (offset + size + 512)).2; rw [he] at this; omega,
      fun hlt => wrap32_of_mem (by omega) (by omega)⟩
  -- a write of no byte may lengthen the file up to the offset
  have hempty : size = 0 → ((inodeWriteAt inode buffer size offset v).2.1.data.length = max inode.data.length (offset + size) ↔
      (offset = 0 → inode.data.length = 0) ∧ (inode.data.length < offset → HasRoom v inode size offset)) := by
    intro hz
    subst hz
    rw [h.empty_length buffer h0 ho,add_zero]
    generalize inode.data.length = old at hold ⊢
    by_cases hz : offset = 0
    · rw [if_pos hz,hz]
      constructor
      · exact fun he => ⟨fun _ => by omega,fun hc => by omega⟩
      · exact fun he => by rw [he.1 rfl]; rfl
    · rw [if_neg hz]
      by_cases hlt : old < offset
      · by_cases hroom : HasRoom v inode 0 offset
        · rw [if_pos ⟨hlt,hroom⟩]
          exact iff_of_true (by omega) ⟨fun hc => absurd hc hz,fun _ => hroom⟩
        · rw [if_neg fun hc => hroom hc.2]
          exact iff_of_false (by omega) fun hc => hroom (hc.2 hlt)
      · rw [if_neg fun hc => hlt hc.1]
        exact iff_of_true (by omega) ⟨fun hc => absurd hc hz,fun hc => absurd hc hlt⟩
  constructor
  · intro hsound
    have hlt := hsum.mp hsound.sum
    have hret : size = 0 → (inodeWriteAt inode buffer size offset v).1 = size := fun hz => by
      subst hz
      exact (inodeWriteAt_empty h.deny buffer).1
    refine ⟨hlt,fun hgt => hround.mp (hsound.rounding ((h.eof_iff h0 h1 hlt).mpr (.inr hgt))),fun hz => ?_,fun hz => ?_⟩
    · exact ((hempty hz).mp (hsound.length (hret hz))).1
    · exact ((hempty hz).mp (hsound.length (hret hz))).2
  · intro hsafe
    refine ⟨hsum.mpr hsafe.sum,fun he => hround.mpr ?_,fun hret => ?_⟩
    · cases (h.eof_iff h0 h1 hsafe.sum).mp he with
      | inl hz => omega
      | inr hgt => exact hsafe.rounding hgt
    · by_cases hz : size = 0
      · exact (hempty hz).mpr ⟨hsafe.start hz,hsafe.room hz⟩
      · exact h.write_length buffer h0 (by omega) ho hs hb hret

end

/-- An open file of 100 bytes on a new volume of eight sectors. -/
theorem openOk_exists : ∃ v inode, OpenOk v inode ∧ inode.data.length = 100 := by
  have hv : (freeMapInit (fun _ => Sector.zeros) 8).Ok := freeMapInit_ok _ (by decide) (by decide)
  have hfm : ¬ FmNode (freeMapInit (fun _ => Sector.zeros) 8) 1 := fun ⟨_,fm,hf,_⟩ => Option.some_ne_none fm hf.symm
  have hused : Used (freeMapInit (fun _ => Sector.zeros) 8) 1 := ⟨by decide +kernel,by decide +kernel⟩
  have h10 : (1 : BlockSector) ≠ 0 := by decide
  have hroom : ((createDemand 100).length ≤ numFreeSectors (freeMapInit (fun _ => Sector.zeros) 8)) := by decide +kernel
  obtain ⟨d,hc⟩ := @inodeCreate_spec _ 1 100 false hv hfm (by decide) (by decide)
  have hok := hc.ok_eq.trans (by rw [decide_eq_true hroom,decide_eq_true (by decide)]; rfl : _ = true)
  refine ⟨_,⟨0,1,1,false,0,d⟩,⟨hc.keeps.ok,hc.file hok hused,rfl,hc.used 1 hused,fun hn => ?_,h10,fun t ht he => ?_⟩,?_⟩
  · exact hfm ((hc.keeps.fmNode_iff 1).mp hn)
  · have he : ptr (inodeCreate 1 100 false (freeMapInit (fun _ => Sector.zeros) 8)).2 d t = 1 := he
    have hfresh := hc.fresh hok hused t ht (he.trans_ne h10)
    rw [he] at hfresh
    exact hused.not_free hfresh.1
  · exact hc.info.length_eq.trans (InodeDisk.length_create false (by decide) (by decide))

/-- The arithmetic of a write is sound just for the writes that stay below 2^31 (with the rounding,
where they extend the file), are not an empty write at the start of a file with contents, and, where
they are empty and begin past the end, find room. -/
theorem write_lengthSound_iff {v : Volume} {inode : Inode} {buffer : List UInt8} {size offset : ℤ} (h : OpenOk v inode)
    (h0 : 0 ≤ offset) (h1 : 0 ≤ size) (ho : offset < 2147483648) (hs : size < 2147483648) (hb : size ≤ buffer.length) :
    LengthSound v inode buffer size offset ↔ SafeWrite v inode size offset := h.lengthSound_iff buffer h0 h1 ho hs hb

theorem write_lengthSound_iff_first_byte : ∃ v inode, OpenOk v inode ∧ LengthSound v inode [7] 1 0 := by
  obtain ⟨v,inode,h,hl⟩ := openOk_exists
  have hsafe : SafeWrite v inode 1 0 := ⟨by decide,fun _ => by decide,fun hc => absurd hc (by decide),fun hc => absurd hc (by decide)⟩
  exact ⟨v,inode,h,(write_lengthSound_iff h (by decide) (by decide) (by decide) (by decide) (by decide)).mpr hsafe⟩

/-- An empty write at the start of a file of 100 bytes returns its size, and the file is empty. -/
theorem empty_write_shortens : ∃ v inode, OpenOk v inode ∧ inode.data.length = 100 ∧
    (inodeWriteAt inode [] 0 0 v).1 = 0 ∧ (inodeWriteAt inode [] 0 0 v).2.1.data.length = 0 := by
  obtain ⟨v,inode,h,hl⟩ := openOk_exists
  have hlen := h.empty_length [] le_rfl (by decide)
  exact ⟨v,inode,h,hl,(inodeWriteAt_empty h.deny []).1,hlen.trans (if_pos rfl)⟩

end ShellOS.Fs
